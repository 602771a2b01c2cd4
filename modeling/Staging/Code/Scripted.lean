import Staging.Code.Generator

/-!
# A scripted generator

A generator whose stub sizes and failures are written down in advance.  Its stubs are runs of one
byte.
-/

namespace Staging.Code

/-- The sizes of the stubs, and which calls fail, counted from zero for each kind of call. -/
structure Script where
  forward : Nat
  backward : Nat
  jumper : Nat
  failingMover : Option Nat := none
  failingJumper : Option Nat := none
  failingSync : Option Nat := none
deriving DecidableEq, Repr

/-- Number of calls so far. -/
structure Script.Count where
  movers : Nat := 0
  jumpers : Nat := 0
  syncs : Nat := 0
deriving DecidableEq, Repr

namespace Script

/-- Number of bytes of a mover. -/
def moverSize (s : Script) : CopyDirection → Nat
  | .forward => s.forward
  | .backward => s.backward

/-- The byte that movers of a direction consist of. -/
def moverByte : CopyDirection → UInt8
  | .forward => 0xf0
  | .backward => 0xb0

/-- The front of the buffer filled with one byte, at most as far as the buffer reaches. -/
def fill (size : Nat) (byte : UInt8) (buffer : List UInt8) : List UInt8 :=
  overwrite (List.replicate (min size buffer.length) byte) buffer

theorem length_fill (size : Nat) (byte : UInt8) (buffer : List UInt8) :
    (fill size byte buffer).length = buffer.length :=
  length_overwrite (by simp only [List.length_replicate]; omega)

/-- Emit a run of one byte, or fail before anything is written. -/
def emit (fails : Bool) (cause : Error) (size : Nat) (byte : UInt8) (buffer : List UInt8)
    (state : Count) : Emitted Count :=
  if fails then
    { buffer, state, outcome := .error cause }
  else
    { buffer := fill size byte buffer, state, outcome := .ok () }

theorem length_emit (fails : Bool) (cause : Error) (size : Nat) (byte : UInt8)
    (buffer : List UInt8) (state : Count) :
    (emit fails cause size byte buffer state).buffer.length = buffer.length := by
  unfold emit
  split
  · rfl
  · exact length_fill _ _ _

/-- The generator that follows a script. -/
def generator (s : Script) : Generator Count where
  moverSize := s.moverSize
  jumperSize := s.jumper
  writeMover buffer move n :=
    emit (s.failingMover == some n.movers) (.addressNotEncodable move.source)
      (s.moverSize move.direction) (moverByte move.direction) buffer
      { n with movers := n.movers + 1 }
  writeJumper buffer entry n :=
    emit (s.failingJumper == some n.jumpers) (.addressNotEncodable entry) s.jumper 0xee buffer
      { n with jumpers := n.jumpers + 1 }
  makeCoherent _ _ n :=
    (if s.failingSync == some n.syncs then .error .cacheSync else .ok (),
      { n with syncs := n.syncs + 1 })
  length_writeMover _ _ _ := length_emit _ _ _ _ _ _
  length_writeJumper _ _ _ := length_emit _ _ _ _ _ _

end Script

end Staging.Code

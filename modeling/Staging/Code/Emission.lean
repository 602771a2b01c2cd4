import Staging.Chunk
import Staging.Code.Generator
import Staging.Index

/-!
# Emitting relocation code

The code is a row of stubs in one buffer:

    | mover of the lowest source | ... | mover of the highest source | jumper to the entry |

A chunk whose source lies below its target is copied downwards from its last byte, one whose
source lies above it upwards from its first, so a chunk may overlap its own target.  A chunk in
place only needs coherent caches.
-/

namespace Staging.Code

/-- A call of a generator.  A stub is emitted into what is left of the buffer, whose length the
call holds. -/
inductive Call where
  | mover (move : Move) (room : Nat)
  | jumper (entry room : Nat)
  | sync (address size : Nat)
deriving DecidableEq, Repr

/-- The state of an emission. -/
structure Emission (γ : Type) where
  buffer : List UInt8
  /-- Number of bytes that the stubs so far occupy. -/
  offset : Nat := 0
  /-- The calls so far, in their order. -/
  calls : List Call := []
  /-- The state of the generator. -/
  state : γ
  notices : List Notice := []

namespace Emission

/-- An action of an emission. -/
abbrev Action (γ : Type) := EStateM (Fault Error) (Emission γ)

variable {γ α : Type}

/-- Give a notice. -/
def note (n : Notice) : Action γ Unit :=
  modify fun s => { s with notices := s.notices ++ [n] }

/-- End with the error of a call, if it had one. -/
def check : Except Error Unit → Action γ Unit
  | .ok () => pure ()
  | .error cause => throw (.error cause)

/-- The value of a sum or an access, or the trap that it ends in. -/
def orTrap : Except Trap α → Action γ α
  | .ok value => pure value
  | .error cause => throw (.trap cause)

/-- Emit one stub into the rest of the buffer, if that can hold it. -/
def stub (size : Nat) (call : Nat → Call) (emit : List UInt8 → γ → Emitted γ) :
    Action γ Unit := do
  let s ← get
  let room := s.buffer.length - s.offset
  if room < size then
    throw (.error (.bufferTooSmall size room))
  else
    let rest ← orTrap (Index.tail s.buffer s.offset)
    let emitted := emit rest s.state
    set { s with
      buffer := s.buffer.take s.offset ++ emitted.buffer
      calls := s.calls ++ [call rest.length]
      state := emitted.state
      notices := s.notices ++ emitted.notices }
    check emitted.outcome
    let offset ← orTrap (Address.add s.offset size)
    modify fun s => { s with offset }

/-- Emit a mover. -/
def mover (gen : Generator γ) (m : Move) : Action γ Unit :=
  stub (gen.moverSize m.direction) (.mover m) fun rest state => gen.writeMover rest m state

/-- Emit a jumper. -/
def jumper (gen : Generator γ) (entry : Nat) : Action γ Unit :=
  stub gen.jumperSize (.jumper entry) fun rest state => gen.writeJumper rest entry state

/-- Make memory coherent for instruction fetch. -/
def sync (gen : Generator γ) (address size : Nat) : Action γ Unit := do
  let s ← get
  let (outcome, state) := gen.makeCoherent address size s.state
  set { s with calls := s.calls ++ [Call.sync address size], state }
  check outcome

/-- Move a chunk, or synchronize it if it is in place. -/
def chunk (gen : Generator γ) (c : Chunk) : Action γ Unit := do
  note (.relocating c.source.start c.target.start c.size c.direction)
  match c.direction with
  | none => sync gen c.source.start c.size
  | some direction => mover gen ⟨c.source.start, c.target.start, c.size, direction⟩

/-- Emit the code for chunks in their order, and make it coherent itself. -/
def code (gen : Generator γ) (chunks : List Chunk) (entry : Nat) (place : Extent) :
    Action γ Unit := do
  chunks.forM (chunk gen)
  jumper gen entry
  sync gen place.start place.length
  note (.codeReady place.start place.length entry)

/-- Emit the code into a buffer: how that ended, and what it left behind. -/
def run (gen : Generator γ) (chunks : List Chunk) (entry : Nat) (place : Extent)
    (buffer : List UInt8) (state : γ) : Except (Fault Error) Unit × Emission γ :=
  match code gen chunks entry place { buffer, state } with
  | .ok () s => (.ok (), s)
  | .error cause s => (.error cause, s)

end Emission

end Staging.Code

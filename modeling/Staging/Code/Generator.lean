import Staging.Notice

/-!
# Generators of stubs

A generator knows the instruction set that the relocation code is for.  The sizes of its stubs are
fixed, so that a buffer can be placed before anything is emitted.
-/

namespace Staging.Code

/-- The front of `buffer` replaced by `bytes`. -/
def overwrite (bytes buffer : List UInt8) : List UInt8 :=
  bytes ++ buffer.drop bytes.length

theorem length_overwrite {bytes buffer : List UInt8} (h : bytes.length ≤ buffer.length) :
    (overwrite bytes buffer).length = buffer.length := by
  simp only [overwrite, List.length_append, List.length_drop]
  omega

/-- What a generator leaves behind: the buffer, its own state, how it ended, and its notices. -/
structure Emitted (γ : Type) where
  buffer : List UInt8
  state : γ
  outcome : Except Error Unit
  notices : List Notice := []

/-- A generator of stubs with states `γ` of its own.  It writes into the front of the buffer it is
given and cannot change the length of it. -/
structure Generator (γ : Type) where
  /-- Number of bytes of a mover. -/
  moverSize : CopyDirection → Nat
  /-- Number of bytes of a jumper. -/
  jumperSize : Nat
  /-- Write a mover. -/
  writeMover : List UInt8 → Move → γ → Emitted γ
  /-- Write a jumper to an entry point. -/
  writeJumper : List UInt8 → Nat → γ → Emitted γ
  /-- Make the memory of an address and a size coherent for instruction fetch. -/
  makeCoherent : Nat → Nat → γ → Except Error Unit × γ
  length_writeMover : ∀ buffer move state,
    (writeMover buffer move state).buffer.length = buffer.length
  length_writeJumper : ∀ buffer entry state,
    (writeJumper buffer entry state).buffer.length = buffer.length

end Staging.Code

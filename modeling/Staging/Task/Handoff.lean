import Staging.Code.Emission
import Staging.Task.Chunks

/-!
# Preparing the hand-off

The relocation code is a chunk in place, at the lowest aligned address where it fits.  It is
emitted for all other chunks in the order of their sources.  Targets are pairwise disjoint; a
target over the source of another chunk is reported, and the order stays as it is.
-/

namespace Staging.Task

/-- Alignment of the relocation code. -/
def codeAlign : Nat := 16

/-- Relocation code at its place: the buffer, the calls of the generator and the state it was left
in, and how the emission ended. -/
structure Prepared (γ : Type) where
  code : Extent
  buffer : List UInt8
  calls : List Code.Call
  generator : γ
  outcome : Except Code.Error Unit

/-- The chunks to be moved, in the order of their sources. -/
def sequence (task : Task) (code : Extent) : List Chunk :=
  (task.chunks.filter fun chunk => chunk.source ≠ code).mergeSort fun a b =>
    a.source.start ≤ b.source.start

/-- The pairs of chunks of which the first moves over the source of the second. -/
def hazards (task : Task) : List Notice :=
  task.chunks.zipIdx.flatMap fun (a, i) =>
    task.chunks.zipIdx.filterMap fun (b, j) =>
      if i ≠ j ∧ a.target.intersects b.source then some (.hazard a.target i b.source j) else none

variable {φ γ : Type}

/-- How an emission ended; its trap is a trap of the action. -/
def passTrap : Except (Fault Code.Error) Unit → Action φ (Except Code.Error Unit)
  | .ok () => return .ok ()
  | .error (.error cause) => return .error cause
  | .error (.trap cause) => throw (.trap cause)

/-- Borrow the memory of the relocation code and enter it as a chunk in place. -/
def stageCode (fw : Firmware φ) (gen : Code.Generator γ) : Action φ Extent := do
  let task ← books
  let borrowed ← within 0 Address.top fun window =>
    borrowSource fw ⟨window, task.codeSize, codeAlign, .ascending⟩
  match borrowed with
  | none => refuse .outOfMemory
  | some source =>
      let _ ← enter gen source source.extent
      return source.extent

/-- Stage the relocation code and emit it over the present contents of its memory. -/
def prepare (fw : Firmware φ) (gen : Code.Generator γ) (contents : Nat → UInt8) (entry : Nat)
    (generator : γ) : Action φ (Prepared γ) := do
  let code ← stageCode fw gen
  let task ← books
  task.hazards.forM note
  let buffer := (List.range' code.start code.length).map contents
  let (ending, emission) :=
    Code.Emission.run gen (task.sequence code) entry code buffer generator
  emission.notices.forM note
  return ⟨code, emission.buffer, emission.calls, emission.state, ← passTrap ending⟩

end Staging.Task

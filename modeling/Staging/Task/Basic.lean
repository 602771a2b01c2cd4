import Staging.Chunk
import Staging.Code.Generator
import Staging.Firmware.Basic
import Staging.Heap.Lending
import Staging.Task.Error

/-!
# Tasks

A task stages the chunks of one boot image.  It keeps the books: the heap it borrows from, the
chunks in the order of their registration, the firmware memory it holds, and the marks of the
post area.  A running task is a task together with its firmware and the notices so far, and the
operations on it are actions that end with a value or a fault.

The post area is the memory above every source placed outside of it.  It grows downwards from the
top of the address space.
-/

namespace Staging

/-- The books of a task. -/
structure Task where
  heap : Heap
  /-- In the order of registration. -/
  chunks : List Chunk := []
  /-- The extents that the firmware lent, in the order of their reservations. -/
  blocks : List Extent := []
  /-- Highest address behind a source. -/
  highest : Nat := 0
  /-- Highest address behind a source that was placed outside of the post area. -/
  highestOrdinary : Nat := 0
  /-- Lowest source in the post area, the top address if there is none. -/
  postStart : Nat := Address.top
  /-- Number of bytes that the relocation code needs. -/
  codeSize : Nat
deriving DecidableEq

namespace Task

/-- A task without chunks, whose code is a jumper. -/
def start {γ : Type} (heap : Heap) (gen : Code.Generator γ) : Task where
  heap
  codeSize := gen.jumperSize

/-- Whether an extent intersects the target of a registered chunk. -/
def touchesTarget (task : Task) (extent : Extent) : Bool :=
  task.chunks.any (·.target.intersects extent)

/-- A task, the firmware it borrows from, and the notices so far. -/
structure Running (φ : Type) where
  task : Task
  firmware : φ
  notices : Array Notice := #[]

/-- An action of a running task. -/
abbrev Action (φ : Type) := EStateM (Fault Error) (Running φ)

variable {φ α : Type}

/-- End with an error. -/
def refuse (cause : Error) : Action φ α :=
  throw (.error cause)

/-- The value of a sum or a check, or the trap that it ends in. -/
def orTrap : Except Trap α → Action φ α
  | .ok value => pure value
  | .error cause => throw (.trap cause)

/-- The books. -/
def books : Action φ Task := do
  return (← get).task

/-- Change the books. -/
def update (change : Task → Task) : Action φ Unit :=
  modify fun ⟨task, firmware, notices⟩ => ⟨change task, firmware, notices⟩

/-- Give a notice. -/
def note (n : Notice) : Action φ Unit :=
  modify fun ⟨task, firmware, notices⟩ => ⟨task, firmware, notices.push n⟩

/-- An operation on the heap of the books, which keep what it leaves behind. -/
def onHeap (operation : Heap → Outcome Heap.Error Heap α) : Action φ (Except Heap.Error α) := do
  match operation (← books).heap with
  | .ok value heap =>
      update fun task => { task with heap }
      return .ok value
  | .error cause heap =>
      update fun task => { task with heap }
      return .error cause
  | .trap cause heap =>
      update fun task => { task with heap }
      throw (.trap cause)

/-- Call the firmware. -/
def call (service : φ → Reply φ α) : Action φ α :=
  modifyGet fun ⟨task, firmware, notices⟩ =>
    let reply := service firmware
    (reply.value, ⟨task, reply.state, notices.appendList reply.notices⟩)

end Task

end Staging

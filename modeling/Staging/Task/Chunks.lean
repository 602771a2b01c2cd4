import Staging.Task.Policy

/-!
# Staging chunks

A loader asks for a chunk at a fixed target or anywhere in a window, fills its source, and in the
end gives everything back.
-/

namespace Staging.Task

variable {φ γ : Type}

/-- Enter a source that moves to `target` into the books; returns its address. -/
def enter (gen : Code.Generator γ) (source : Source) (target : Extent) : Action φ Nat := do
  update fun task => { task with
    highest := max task.highest source.extent.stop
    highestOrdinary :=
      if source.extent.start < task.postStart then max task.highestOrdinary source.extent.stop
      else task.highestOrdinary }
  let task ← books
  note (.registered source.extent target task.highest task.highestOrdinary)
  let chunk ← orTrap (Chunk.assemble source.extent target source.loans)
  -- A chunk in place needs no mover.
  let codeSize ← match chunk.direction with
    | none => pure task.codeSize
    | some direction => orTrap (Address.add task.codeSize (gen.moverSize direction))
  update fun task => { task with chunks := task.chunks ++ [chunk], codeSize }
  return source.extent.start

/-- Stage `size` bytes that must end up at `target`; returns the source. -/
def stageAt (fw : Firmware φ) (gen : Code.Generator γ) (target size : Nat) : Action φ Nat := do
  if size = 0 then
    refuse .invalidSize
  else
    match Extent.ofLength? target size with
    | none => refuse (.outOfRange target size)
    | some extent =>
        if (← books).touchesTarget extent then
          refuse (.overlap target size)
        else
          match ← borrowForTarget fw extent with
          | none => refuse .outOfMemory
          | some source => enter gen source extent

/-- Stage `size` bytes anywhere between two addresses, at a multiple of `align`; returns the
source and the target. -/
def stageWithin (fw : Firmware φ) (gen : Code.Generator γ) (low high size align : Nat)
    (preferred : WindowEnd) : Action φ (Nat × Nat) := do
  if size = 0 then
    refuse .invalidSize
  else if !Address.isPowerOfTwo align then
    refuse (.invalidAlignment align)
  else
    match (Extent.ofBounds? low high).filter (size ≤ ·.length) with
    | none => refuse .outOfMemory
    | some window =>
        match ← borrowForWish fw ⟨window, size, align, preferred⟩ with
        | none => refuse .outOfMemory
        | some (source, target) => return (← enter gen source target, target.start)

/-- Give back all chunks, newest first, and the loans of each in address order. -/
def discard (fw : Firmware φ) (gen : Code.Generator γ) : Action φ Unit := do
  let task ← books
  task.chunks.reverse.forM fun chunk =>
    giveBackAll fw (fun loan cause => .releaseFailed loan chunk.source cause) chunk.loans
  update fun task => { task with chunks := [], codeSize := gen.jumperSize }

/-- Say that the task ends, and give back all chunks. -/
def close (fw : Firmware φ) (gen : Code.Generator γ) : Action φ Unit := do
  let task ← books
  note (.unloading task.chunks.length task.blocks.length)
  discard fw gen

end Staging.Task

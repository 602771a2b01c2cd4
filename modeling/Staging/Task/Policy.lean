import Staging.Task.Source
import Staging.Task.Target

/-!
# Policies for sources

The source of a chunk with a fixed target is searched at or above the target first, so that it is
copied downwards.  A target in low memory prefers the post area to the scarce memory below it.

A flexible chunk is in place if it can be.  Otherwise it gets a target, and its source goes where
sources keep the order of their targets.  The post area is the last resort.
-/

namespace Staging.Task

/-- Targets below this address are reachable in real mode, which makes the memory there scarce. -/
def lowMemoryLimit : Nat := 0x100000

variable {φ : Type}

/-- The action on the extent between two bounds; `none` if they are not in order. -/
def within {α : Type} (low high : Nat) (action : Extent → Action φ (Option α)) :
    Action φ (Option α) :=
  match Extent.ofBounds? low high with
  | none => return none
  | some window => action window

/-- The first of two actions, or the second if that yields nothing. -/
def orElse {α : Type} (first second : Action φ (Option α)) : Action φ (Option α) := do
  match ← first with
  | some value => return some value
  | none => second

/-- Borrow a source in the post area, whose start moves down to it. -/
def borrowInPostArea (fw : Firmware φ) (size align : Nat) : Action φ (Option Source) := do
  let task ← books
  within task.highestOrdinary Address.top fun window => do
    match ← borrowSource fw ⟨window, size, align, .descending⟩ with
    | none => return none
    | some source =>
        update fun task => { task with postStart := min task.postStart source.extent.start }
        note (.postAreaStarts (← books).postStart)
        return some source

/-- Borrow a source at or above a target, lowest first. -/
def borrowAbove (fw : Firmware φ) (target : Extent) : Action φ (Option Source) :=
  within target.start Address.top fun window =>
    borrowSource fw ⟨window, target.length, 1, .ascending⟩

/-- Borrow a source below a target, highest first. -/
def borrowBelow (fw : Firmware φ) (target : Extent) : Action φ (Option Source) :=
  within 0 target.start fun window =>
    borrowSource fw ⟨window, target.length, 1, .descending⟩

/-- Borrow the source of a chunk with a fixed target. -/
def borrowForTarget (fw : Firmware φ) (target : Extent) : Action φ (Option Source) := do
  if (← books).postStart ≤ target.start then
    note (.targetInPostArea target)
    borrowAbove fw target
  else
    let postArea := borrowInPostArea fw target.length 1
    -- Low memory is scarce, so its targets try the post area before the memory below them.
    let low := if target.start < lowMemoryLimit then postArea else return none
    orElse (borrowAbove fw target) (orElse low (orElse (borrowBelow fw target) postArea))

/-- The limits between which a source keeps the order of the targets.  Sources of chunks whose
targets lie above the window are above it, sources of those below the window are below it.
Sources in the post area do not count; the post area itself bounds the limits from above. -/
def orderLimits (task : Task) (window : Extent) : Nat × Nat :=
  let ordinary := task.chunks.filter fun chunk => chunk.source.start < task.postStart
  let below := ordinary.filter fun chunk => chunk.target.stop ≤ window.start
  let above := ordinary.filter fun chunk => window.stop ≤ chunk.target.start
  (below.foldl (fun low chunk => max low chunk.source.stop) 0,
    above.foldl (fun high chunk => min high chunk.source.start) task.postStart)

/-- The memory that will be RAM at the hand-off: the regions of the heap, and what the firmware
lists now. -/
def ramExtents (fw : Firmware φ) : Action φ (List Extent) := do
  let regions := (← books).heap.regions
  let listing ← call fw.available
  return regions.map (·.extent) ++ listing

/-- Borrow the source of a flexible chunk; yields the source and the target. -/
def borrowForWish (fw : Firmware φ) (wish : Wish) : Action φ (Option (Source × Extent)) := do
  match ← borrowSource fw ⟨wish.window, wish.size, wish.align, wish.preferred.heading⟩ with
  | some source => return some (source, source.extent)
  | none =>
      let ram ← ramExtents fw
      match wish.select? ram ((← books).chunks.map (·.target)) with
      | none => return none
      | some target =>
          note (.targetSelected target)
          let (low, high) := (← books).orderLimits wish.window
          note (.limits low high)
          let ordered := within low high fun limits =>
            borrowSource fw ⟨limits, wish.size, wish.align, .ascending⟩
          let source ← orElse ordered (borrowInPostArea fw wish.size wish.align)
          return source.map (·, target)

end Staging.Task

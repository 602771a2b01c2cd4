import Staging.Address
import Staging.Sweep.Depth

/-!
# Choosing a target

A chunk that may live anywhere in a window but cannot be placed there gets its target first.  A
target lies in memory that will be RAM at the hand-off: one of the candidate extents has room for
it.  From there it is moved past the registered targets that are in its way, away from the end of
the window that is preferred.
-/

namespace Staging

/-- Which end of a window is tried first. -/
inductive WindowEnd where
  | low
  | high
deriving DecidableEq, Repr

/-- The heading of a sweep that meets this end first. -/
def WindowEnd.heading : WindowEnd → Heading
  | .low => .ascending
  | .high => .descending

/-- What a flexible chunk asks for. -/
structure Wish where
  /-- The target lies inside this window. -/
  window : Extent
  size : Nat
  /-- A power of two. -/
  align : Nat
  preferred : WindowEnd
deriving DecidableEq

namespace Wish

/-- Targets do not start below this address. -/
def floor (w : Wish) : Nat := max w.window.start 1

/-- Whether a target at this address lies inside the window. -/
def fits (w : Wish) (target : Nat) : Bool :=
  w.floor ≤ target && target + w.size ≤ w.window.stop

/-- The preferred aligned target inside the window and one extent of RAM. -/
def candidate? (w : Wish) (ram : Extent) : Option Nat := do
  let low := max ram.start w.floor
  let high := min ram.stop w.window.stop
  let target ← match w.preferred with
    | .low => Address.ceilTo? w.align low
    | .high => (Address.sub? high w.size).map (Address.floorTo w.align)
  if low ≤ target ∧ target + w.size ≤ high then some target else none

/-- The preferred one of some addresses. -/
def best? (w : Wish) (addresses : List Nat) : Option Nat :=
  match w.preferred with
  | .low => addresses.min?
  | .high => addresses.max?

/-- The next aligned target past a registered one. -/
def past? (w : Wish) (hit : Extent) : Option Nat :=
  match w.preferred with
  | .low => Address.ceilTo? w.align hit.stop
  | .high => (Address.sub? hit.start w.size).map (Address.floorTo w.align)

/-- Move a target past the registered targets in its way, at most `rounds` times. -/
def shift? (w : Wish) (targets : List Extent) : Nat → Nat → Option Nat
  | 0, target => some target
  | rounds + 1, target => do
      let slot ← Extent.ofLength? target w.size
      match targets.find? (·.intersects slot) with
      | none => some target
      | some hit => shift? w targets rounds (← w.past? hit)

/-- A target in one of the extents of RAM, moved past the registered targets.  Each of them is
passed once at most. -/
def select? (w : Wish) (ram targets : List Extent) : Option Extent := do
  let first ← w.best? (ram.filterMap w.candidate?)
  let target ← w.shift? targets (targets.length + 1) first
  let slot ← Extent.ofLength? target w.size
  if w.fits target && !targets.any (·.intersects slot) then some slot else none

end Wish

end Staging

import Staging.Index
import Staging.Sweep.Depth

/-!
# Searching a placement

A search sweeps over the ordered events, keeps where the usable stretch at hand was entered, and
tries to fit the request when it leaves the stretch.  The depths count only after every event at a
position has been passed, so touching intervals form one stretch.
-/

namespace Staging

/-- What a search looks for. -/
structure Request where
  /-- Placements lie inside this window. -/
  window : Extent
  size : Nat
  /-- A power of two. -/
  align : Nat
  heading : Heading
deriving DecidableEq

namespace Request

/-- The lowest and the highest aligned start inside the window, not below address one. -/
def bounds? (r : Request) : Option (Nat × Nat) := do
  let first ← Address.ceilTo? r.align (max r.window.start 1)
  let room ← Address.sub? r.window.stop r.size
  let last := Address.floorTo r.align room
  if r.size == 0 || last < first then none else some (first, last)

/-- The lowest start between `first` and `last` in the usable stretch `[low, high)`. -/
def fitLow (r : Request) (first last low high : Nat) : Option Nat := do
  let target := max (← Address.ceilTo? r.align low) first
  if target ≤ last ∧ target + r.size ≤ high then some target else none

/-- The highest start between `first` and `last` in the usable stretch `[low, high)`. -/
def fitHigh (r : Request) (first last low high : Nat) : Option Nat := do
  let target := min (Address.floorTo r.align (← Address.sub? high r.size)) last
  if first ≤ target ∧ low ≤ target then some target else none

/-- The first fit in a stretch that was entered at one position and left at another. -/
def fit (r : Request) (first last entered left : Nat) : Option Nat :=
  match r.heading with
  | .ascending => r.fitLow first last entered left
  | .descending => r.fitHigh first last left entered

/-- The first fit along the steps of the sweep that are left. -/
def scan (r : Request) (first last : Nat) (events : List Event) :
    Depth → Bool → Nat → List Nat → Except Trap (Option Nat)
  | _, _, _, [] => return none
  | depth, usable, entered, step :: rest => do
      let index ← r.heading.indexAt events.length step
      let e ← Index.read events index
      let depth := depth.pass e r.heading
      if (r.heading.next? events index).any (·.position == e.position) then
        -- More events at this position follow; what the depths say does not count yet.
        scan r first last events depth usable entered rest
      else
        match usable, depth.usable with
        | false, true => scan r first last events depth true e.position rest
        | true, false =>
            match r.fit first last entered e.position with
            | some target => return some target
            | none => scan r first last events depth false entered rest
        | _, now => scan r first last events depth now entered rest

/-- The first placement of the request along its heading. -/
def find (r : Request) (events : List Event) : Except Trap (Option Extent) :=
  if Address.isPowerOfTwo r.align then
    match r.bounds? with
    | none => return none
    | some (first, last) => do
        let target ← r.scan first last events {} false 0 (List.range events.length)
        return target.bind (Extent.ofLength? · r.size)
  else
    .error .alignment

end Request

end Staging

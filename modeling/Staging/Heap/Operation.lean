import Staging.Heap.Basic
import Staging.Notice

/-!
# Operations of a loader on its heap

A loader adds regions, allocates and frees.
-/

namespace Staging.Heap

/-- What a loader asks of its heap. -/
inductive Operation where
  | addRegion (extent : Extent)
  | allocate (size align : Nat)
  | deallocate (address : Nat)
  | freeze
  | thaw
deriving DecidableEq

/-- What an operation yields. -/
inductive Answer where
  | region (id : RegionId)
  | address (address : Nat)
  | done
deriving DecidableEq, Repr

/-- Perform an operation. -/
def perform (heap : Heap) : Operation → Outcome Heap.Error Heap Answer
  | .addRegion extent => (heap.addRegion extent).map .region
  | .allocate size align => (heap.allocate size align).map .address
  | .deallocate address => (heap.deallocate address).map fun () => .done
  | .freeze => .orTrap heap.freeze heap (.ok .done)
  | .thaw => .ok .done heap.thaw

/-- The notices of an operation that succeeded. -/
def Operation.notices : Operation → Answer → List Notice
  | .addRegion extent, .region id => [.regionAdded id extent]
  | _, _ => []

/-- Perform operations in their order: the heap after them, and their notices.  After an error the
run goes on with what it left, a trap ends the run. -/
def run (heap : Heap) : List Operation → Heap × List Notice
  | [] => (heap, [])
  | operation :: rest =>
      match heap.perform operation with
      | .ok answer next =>
          let (last, notices) := next.run rest
          (last, operation.notices answer ++ notices)
      | .error _ next => next.run rest
      | .trap _ _ => (heap, [])

end Staging.Heap

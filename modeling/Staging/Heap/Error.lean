import Staging.Extent

/-!
# Errors of the heap
-/

namespace Staging

/-- Why the heap refuses an operation. -/
inductive Heap.Error where
  /-- The heap lends nothing while a placement scan reads it. -/
  | frozen
  /-- No free span can hold the allocation. -/
  | outOfMemory
  /-- The new region shares memory with one that the heap has. -/
  | overlap (extent : Extent)
  /-- The new region cannot hold its own header. -/
  | regionTooSmall (extent : Extent)
  /-- No allocation starts at the address. -/
  | unknownAllocation (address : Nat)
  /-- The piece is not what the spans of the region say. -/
  | inconsistent (piece : Extent)
deriving DecidableEq

namespace Heap.Error

/-- The text of an error. -/
def message : Heap.Error → String
  | frozen => "The heap is frozen for a placement scan"
  | outOfMemory => "No free span satisfies the request"
  | overlap extent => s!"Region {extent.text} overlaps an existing region"
  | regionTooSmall extent => s!"Region {extent.text} cannot hold its own header"
  | unknownAllocation address => s!"No allocation starts at {Hex.short address}"
  | inconsistent piece => s!"Heap bookkeeping does not match the piece {piece.text}"

end Heap.Error

end Staging

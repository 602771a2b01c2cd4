import Staging.Fault
import Staging.Heap.Region

/-!
# The heap

The heap owns a few regions in address order and allocates by first fit.  While a placement scan
reads it, the heap is frozen and its contents stay as they are.
-/

namespace Staging

/-- The regions of the loader's heap. -/
structure Heap where
  /-- In address order. -/
  regions : List Region := []
  /-- Identity of the next region. -/
  nextId : RegionId := .first
  /-- Whether a placement scan reads the heap. -/
  frozen : Bool := false
deriving DecidableEq

namespace Heap

/-- The region with this identity. -/
def region? (heap : Heap) (id : RegionId) : Option Region :=
  heap.regions.find? (·.id == id)

/-- The heap with the region of the same identity replaced. -/
def setRegion (heap : Heap) (region : Region) : Heap :=
  { heap with regions := heap.regions.map fun r => if r.id == region.id then region else r }

/-- Number of free bytes in all regions. -/
def freeBytes (heap : Heap) : Nat :=
  heap.regions.foldr (fun r n => r.freeBytes + n) 0

/-- Insert a region behind those of lower base. -/
def insertRegion (region : Region) : List Region → List Region
  | [] => [region]
  | r :: rest =>
      if r.base < region.base then r :: insertRegion region rest else region :: r :: rest

/-- Hand `extent` to the heap as a new region.  The last identity cannot be given: no identity is
left for the region after it, which is noticed when the region is in the heap. -/
def addRegion (heap : Heap) (extent : Extent) : Outcome Heap.Error Heap RegionId :=
  if heap.frozen then
    .error .frozen heap
  else if heap.regions.any (·.extent.intersects extent) then
    .error (.overlap extent) heap
  else
    match Region.create heap.nextId extent with
    | .error cause => .error cause heap
    | .ok region =>
        let inserted := { heap with regions := insertRegion region heap.regions }
        .orTrap heap.nextId.next inserted fun nextId => .ok heap.nextId { inserted with nextId }

/-- Allocate in the first of the regions that has room. -/
def allocateIn (size align : Nat) : List Region → Outcome Heap.Error (List Region) Nat
  | [] => .error .outOfMemory []
  | r :: rest =>
      match r.allocate size align with
      | .ok address r => .ok address (r :: rest)
      | .error _ r => (allocateIn size align rest).within (r :: ·)
      | .trap cause r => .trap cause (r :: rest)

/-- Allocate `size` bytes, at least one, at a multiple of `align`, at least that of a header.  An
alignment that is no power of two goes unnoticed until a free span is looked at. -/
def allocate (heap : Heap) (size align : Nat) : Outcome Heap.Error Heap Nat :=
  let size := max size 1
  let align := max align Region.headerAlign
  if heap.frozen then
    .error .frozen heap
  else if !Address.isPowerOfTwo align && heap.regions.any (·.spans.any (·.isFree)) then
    .trap .alignment heap
  else
    (allocateIn size align heap.regions).within fun regions => { heap with regions }

/-- Take back the allocation that starts at `address`. -/
def deallocate (heap : Heap) (address : Nat) : Outcome Heap.Error Heap Unit :=
  if heap.frozen then
    .error .frozen heap
  else
    match heap.regions.find? (·.extent.contains address) with
    | none => .error (.unknownAllocation address) heap
    | some r => (r.deallocate address).within heap.setRegion

/-- Stop handing out memory. -/
def freeze (heap : Heap) : Except Trap Heap :=
  if heap.frozen then .error .frozenTwice else .ok { heap with frozen := true }

/-- Hand out memory again. -/
def thaw (heap : Heap) : Heap := { heap with frozen := false }

end Heap

end Staging

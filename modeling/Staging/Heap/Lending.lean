import Staging.Heap.Basic

/-!
# Lending pieces of regions

Memory is borrowed from a heap either out of a free span or from the start of a region, which its
header advances over.  Each way has its inverse.
-/

namespace Staging.Heap

/-- Change the region with this identity; `missing` if there is none. -/
def withRegion {α : Type} (heap : Heap) (id : RegionId) (missing : Heap.Error)
    (change : Region → Outcome Heap.Error Region α) : Outcome Heap.Error Heap α :=
  match heap.region? id with
  | none => .error missing heap
  | some region => (change region).within heap.setRegion

/-- Hand out `piece` from the free span of a region that holds its start. -/
def handOut (heap : Heap) (id : RegionId) (piece : Extent) : Outcome Heap.Error Heap Span :=
  heap.withRegion id (.inconsistent piece) fun region =>
    match region.indexAt? piece.start with
    | none => .error (.inconsistent piece) region
    | some index => region.handOut index piece

/-- Take back a piece that was handed out from a region. -/
def takeBack (heap : Heap) (id : RegionId) (piece : Extent) : Outcome Heap.Error Heap Unit :=
  heap.withRegion id (.inconsistent piece) fun region => region.takeBack piece

/-- Advance the header of a region over `piece`. -/
def advance (heap : Heap) (id : RegionId) (piece : Extent) : Outcome Heap.Error Heap HeaderMove :=
  heap.withRegion id (.inconsistent piece) fun region => region.advance piece.stop

/-- Undo the move of the header of a region over `piece`. -/
def retreat (heap : Heap) (id : RegionId) (move : HeaderMove) (piece : Extent) :
    Outcome Heap.Error Heap Unit :=
  heap.withRegion id (.inconsistent piece) fun region => region.retreat move

end Staging.Heap

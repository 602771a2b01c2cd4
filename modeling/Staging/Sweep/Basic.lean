import Staging.Heap.Basic
import Staging.Sweep.Division
import Staging.Sweep.Order
import Staging.Sweep.Search

/-!
# The sweep

A sweep gathers the events of one placement search, orders them, finds a placement and divides it
into pieces.
-/

namespace Staging

/-- The intervals of a region: a mask over all of it, and its free spans.  The first span is
offered through the head room when there is some. -/
def Region.intervals (r : Region) (index : Nat) : List Interval :=
  let offered := match r.headRoom with
    | some room => (.regionHead, room) :: freeSpans r.spans.tail
    | none => freeSpans r.spans
  ((.firmwareBlock, r.extent) :: offered).map fun (kind, extent) => ⟨kind, extent, some index⟩
where
  /-- The free spans as body memory. -/
  freeSpans (spans : List Span) : List (IntervalKind × Extent) :=
    (spans.filter (·.isFree)).map fun s => (.regionBody, s.extent)

/-- The intervals of all regions of the heap, which refer to the regions by their places. -/
def Heap.intervals (heap : Heap) : List Interval :=
  heap.regions.zipIdx.flatMap fun (r, index) => r.intervals index

/-- The events and the pieces of one placement search. -/
structure Sweep where
  events : List Event := []
  pieces : List Piece := []

namespace Sweep

/-- Add the events of intervals in their order. -/
def add (s : Sweep) (intervals : List Interval) : Sweep :=
  { s with events := s.events ++ intervals.flatMap (·.events) }

/-- Number of bytes of an event. -/
def eventSize : Nat := 32

/-- The bytes of a buffer are fewer than this number, which is `2 ^ 63`. -/
def bufferLimit : Nat := 0x8000000000000000

/-- Make room for more events. -/
def reserve (s : Sweep) (additional : Nat) : Except Trap Unit :=
  if eventSize * (s.events.length + additional) < bufferLimit then
    .ok ()
  else
    .error .capacityOverflow

/-- Make room for the events of a heap and for all pieces, and forget the pieces so far.  The
pieces are smaller than the events, so the events alone can be too many. -/
def prepareFor (s : Sweep) (heap : Heap) : Except Trap Sweep := do
  let heapEvents ← heap.regions.foldlM (fun n r => Address.add n (2 + 2 * r.spans.length)) 0
  s.reserve heapEvents
  return { s with pieces := [] }

/-- Order the events. -/
def sort (s : Sweep) : Except Trap Sweep := do
  return { s with events := ← Event.sort s.events }

/-- The first placement of a request. -/
def find (s : Sweep) (request : Request) : Except Trap (Option Extent) :=
  request.find s.events

/-- Divide a placement into its pieces. -/
def divide (s : Sweep) (regions : List Region) (target : Extent) :
    Except (Fault Heap.Error) Unit × Sweep :=
  let division := Division.ofEvents regions target s.events
  (division.outcome, { s with pieces := division.pieces })

end Sweep

end Staging

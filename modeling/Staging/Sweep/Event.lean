import Staging.Extent

/-!
# Events of a sweep

Every interval that matters for a placement has a kind, and contributes one event where it starts
and one where it stops.
-/

namespace Staging

/-- What an interval means to a placement. -/
inductive IntervalKind where
  /-- The head room of a region, to be borrowed. -/
  | regionHead
  /-- A free span of the body of a region, to be borrowed. -/
  | regionBody
  /-- Memory that the firmware could reserve, to be borrowed. -/
  | firmwareAvailable
  /-- A mask over firmware memory: a heap region or memory that is borrowed already. -/
  | firmwareBlock
  /-- The target of a chunk, which no source may touch. -/
  | collision
deriving DecidableEq, Repr

/-- An interval on the address axis.  Intervals of the heap name their region by its place in the
list of regions. -/
structure Interval where
  kind : IntervalKind
  extent : Extent
  region : Option Nat := none
deriving DecidableEq

/-- Which bound of its interval an event marks. -/
inductive Edge where
  | start
  | stop
deriving DecidableEq, Repr

/-- A bound of an interval. -/
structure Event where
  position : Nat
  kind : IntervalKind
  edge : Edge
  region : Option Nat
deriving DecidableEq, Repr

/-- The two events of an interval; none if it has no byte. -/
def Interval.events (i : Interval) : List Event :=
  if i.extent.isEmpty then
    []
  else
    [⟨i.extent.start, i.kind, .start, i.region⟩, ⟨i.extent.stop, i.kind, .stop, i.region⟩]

/-- Whether the event opens its interval for a sweep that ascends. -/
def Event.isStart (e : Event) : Bool := e.edge == .start

end Staging

import Staging.Sweep.Event

/-!
# Depths

While a sweep passes events it counts how many intervals of each kind are open.  The counts tell
whether the memory at hand is usable.
-/

namespace Staging

/-- The way a sweep goes along the address axis. -/
inductive Heading where
  | ascending
  | descending
deriving DecidableEq, Repr

/-- A heading as it is written in messages. -/
def Heading.text : Heading → String
  | .ascending => "Ascending"
  | .descending => "Descending"

namespace Heading

/-- The index of the event that a sweep over some events meets in a step, counted from zero. -/
def indexAt (heading : Heading) (length step : Nat) : Except Trap Nat :=
  match heading with
  | .ascending => return step
  | .descending => do Address.sub (← Address.sub length 1) step

/-- The event that a sweep meets behind the one at an index. -/
def next? (heading : Heading) (events : List Event) (index : Nat) : Option Event :=
  match heading with
  | .ascending => events[index + 1]?
  | .descending => (Address.sub? index 1).bind (events[·]?)

end Heading

/-- Number of open intervals of each kind. -/
structure Depth where
  regionHead : Int := 0
  regionBody : Int := 0
  firmwareAvailable : Int := 0
  firmwareBlock : Int := 0
  collision : Int := 0
deriving DecidableEq, Repr

namespace Depth

/-- Pass one event.  A start opens its interval for a sweep that ascends, a stop for one that
descends. -/
def pass (d : Depth) (e : Event) (heading : Heading) : Depth :=
  let step : Int := if e.isStart == (heading == .ascending) then 1 else -1
  match e.kind with
  | .regionHead => { d with regionHead := d.regionHead + step }
  | .regionBody => { d with regionBody := d.regionBody + step }
  | .firmwareAvailable => { d with firmwareAvailable := d.firmwareAvailable + step }
  | .firmwareBlock => { d with firmwareBlock := d.firmwareBlock + step }
  | .collision => { d with collision := d.collision + step }

/-- Whether firmware memory is open and not masked. -/
def lendsFirmware (d : Depth) : Bool :=
  0 < d.firmwareAvailable && d.firmwareBlock == 0

/-- Whether the memory at hand can be borrowed: no collision is open, and either heap memory is
or firmware memory without a mask. -/
def usable (d : Depth) : Bool :=
  d.collision == 0 && (0 < d.regionHead + d.regionBody || d.lendsFirmware)

end Depth

end Staging

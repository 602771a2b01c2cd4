import Staging.Index
import Staging.Sweep.Event

/-!
# The order of events

A sweep meets events in the order of their positions, and at one position starts before stops.
The order is made by a stable partition into starts and stops and one stable pass for each digit
of the position, lowest digit first.  A pass counts how often each digit value occurs, which says in
what slot the events of that value begin, and then puts every event into the next slot of its value.
-/

namespace Staging.Event

/-- Width in bits of one digit. -/
def digitBits : Nat := 8

/-- Number of values of one digit. -/
def digitValues : Nat := 1 <<< digitBits

/-- Number of digits of a position. -/
def digitCount : Nat := 64 / digitBits

/-- One digit of the position, counted from the lowest. -/
def digit (index : Nat) (e : Event) : Nat :=
  (e.position >>> (digitBits * index)) % digitValues

/-- An event for slots that are not filled yet. -/
def blank : Event := ⟨0, .collision, .start, none⟩

/-- Number of events of each digit value. -/
def tally (index : Nat) (events : List Event) : Except Trap (List Nat) :=
  events.foldlM
    (fun counts e => do
      let count ← Index.read counts (e.digit index)
      Index.write counts (e.digit index) (count + 1))
    (List.replicate digitValues 0)

/-- The slots where the events of each digit value begin, the first of them at `next`. -/
def firstSlots (next : Nat) : List Nat → List Nat
  | [] => []
  | count :: rest => next :: firstSlots (next + count) rest

/-- Put an event into the next slot of its digit value. -/
def place (index : Nat) (filled : List Nat × List Event) (e : Event) :
    Except Trap (List Nat × List Event) := do
  let slot ← Index.read filled.1 (e.digit index)
  let events ← Index.write filled.2 slot e
  return (← Index.write filled.1 (e.digit index) (slot + 1), events)

/-- The events in the order of one digit; equal digits keep their order.  If all digits are equal
the order is left as it is. -/
def sortByDigit (events : List Event) (index : Nat) : Except Trap (List Event) := do
  let counts ← tally index events
  if counts.contains events.length then
    return events
  else
    let filled ← events.foldlM (place index)
      (firstSlots 0 counts, List.replicate events.length blank)
    return filled.2

/-- Starts in front of stops, each in their order. -/
def startsFirst (events : List Event) : List Event :=
  events.filter (·.isStart) ++ events.filter (!·.isStart)

-- Irreducible, as unification would otherwise fill the slots of all passes.
/-- The events by position, starts before stops. -/
@[irreducible]
def sort (events : List Event) : Except Trap (List Event) :=
  (List.range digitCount).foldlM sortByDigit (startsFirst events)

end Staging.Event

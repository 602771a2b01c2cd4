import Mathlib.Algebra.BigOperators.Group.List.Basic
import Mathlib.Algebra.Ring.Int.Defs
import Staging.Proofs.Extent
import Staging.Sweep.Depth

/-!
# Depths count the intervals at hand

When a sweep has passed all events on its way to a byte, and no others, the depths say how many
intervals of each kind contain the byte (`at_passAll`).  So they tell whether the byte can be
borrowed (`usable_iff`): it lies in no collision, and either in heap memory or in memory of the
firmware that nothing masks.
-/

namespace Staging

/-- The position lies on the way of the sweep to the byte. -/
def Heading.Passes : Heading → Nat → Nat → Prop
  | .ascending, position, x => position ≤ x
  | .descending, position, x => x < position

instance (heading : Heading) (position x : Nat) : Decidable (heading.Passes position x) :=
  match heading with
  | .ascending => inferInstanceAs (Decidable (position ≤ x))
  | .descending => inferInstanceAs (Decidable (x < position))

@[simp] theorem Heading.passes_ascending {position x : Nat} :
    Heading.ascending.Passes position x ↔ position ≤ x := Iff.rfl

@[simp] theorem Heading.passes_descending {position x : Nat} :
    Heading.descending.Passes position x ↔ x < position := Iff.rfl

/-- Some interval of this kind contains the byte. -/
def Over (intervals : List Interval) (kind : IntervalKind) (x : Nat) : Prop :=
  ∃ i ∈ intervals, i.kind = kind ∧ x ∈ i.extent

theorem over_append {a b : List Interval} {kind : IntervalKind} {x : Nat} :
    Over (a ++ b) kind x ↔ Over a kind x ∨ Over b kind x := by
  simp only [Over, List.mem_append, or_and_right, exists_or]

/-- The firmware lists the byte, and nothing masks it. -/
def Lendable (intervals : List Interval) (x : Nat) : Prop :=
  Over intervals .firmwareAvailable x ∧ ¬ Over intervals .firmwareBlock x

/-- The byte can be borrowed. -/
def Usable (intervals : List Interval) (x : Nat) : Prop :=
  ¬ Over intervals .collision x ∧
    (Over intervals .regionHead x ∨ Over intervals .regionBody x ∨ Lendable intervals x)

theorem lendable_congr {intervals intervals' : List Interval} {x : Nat}
    (h : ∀ kind, Over intervals kind x ↔ Over intervals' kind x) :
    Lendable intervals x ↔ Lendable intervals' x := by
  rw [Lendable, Lendable, h, h]

/-- Whether a byte can be borrowed depends on the kinds of intervals that contain it. -/
theorem usable_congr {intervals intervals' : List Interval} {x : Nat}
    (h : ∀ kind, Over intervals kind x ↔ Over intervals' kind x) :
    Usable intervals x ↔ Usable intervals' x := by
  rw [Usable, Usable, h, h, h, lendable_congr h]

/-- Number of intervals of this kind that contain the byte. -/
def Interval.count (intervals : List Interval) (kind : IntervalKind) (x : Nat) : Nat :=
  intervals.countP fun i => i.kind = kind && i.extent.contains x

theorem Interval.mem_events_iff {i : Interval} {e : Event} :
    e ∈ i.events ↔ i.extent.start < i.extent.stop ∧
      (e = ⟨i.extent.start, i.kind, .start, i.region⟩ ∨
        e = ⟨i.extent.stop, i.kind, .stop, i.region⟩) := by
  unfold Interval.events
  cases hempty : i.extent.isEmpty with
  | true =>
      have := Extent.isEmpty_iff.1 hempty
      simp [this]
  | false => simp [Extent.isEmpty_eq_false_iff.1 hempty]

/-- Before a byte that can be borrowed an event comes, and behind it as well. -/
theorem exists_events_of_usable {intervals : List Interval} {events : List Event} {x : Nat}
    (hperm : events.Perm (intervals.flatMap (·.events))) (h : Usable intervals x) :
    (∃ e ∈ events, e.position ≤ x) ∧ ∃ e ∈ events, x < e.position := by
  obtain ⟨i, hi, hlo, hhi⟩ : ∃ i ∈ intervals, x ∈ i.extent := by
    rcases h.2 with ⟨i, hi, -, hx⟩ | ⟨i, hi, -, hx⟩ | ⟨⟨i, hi, -, hx⟩, -⟩ <;> exact ⟨i, hi, hx⟩
  have hlt := Nat.lt_of_le_of_lt hlo hhi
  have hmem {e : Event} (he : e ∈ i.events) : e ∈ events :=
    hperm.mem_iff.2 (List.mem_flatMap.2 ⟨i, hi, he⟩)
  exact ⟨⟨_, hmem (Interval.mem_events_iff.2 ⟨hlt, .inl rfl⟩), hlo⟩,
    _, hmem (Interval.mem_events_iff.2 ⟨hlt, .inr rfl⟩), hhi⟩

theorem Extent.contains_iff {e : Extent} {x : Nat} : e.contains x = true ↔ x ∈ e := by
  simp [Extent.contains, Extent.mem_iff]

theorem Interval.count_pos_iff {intervals : List Interval} {kind : IntervalKind} {x : Nat} :
    0 < Interval.count intervals kind x ↔ Over intervals kind x := by
  simp [Interval.count, Over, List.countP_pos_iff, Extent.contains_iff]

namespace Depth

/-- Number of open intervals of one kind. -/
def count (d : Depth) : IntervalKind → Int
  | .regionHead => d.regionHead
  | .regionBody => d.regionBody
  | .firmwareAvailable => d.firmwareAvailable
  | .firmwareBlock => d.firmwareBlock
  | .collision => d.collision

/-- What an event adds to the depth of one kind. -/
def weight (heading : Heading) (kind : IntervalKind) (e : Event) : Int :=
  if e.kind = kind then (if e.isStart == (heading == .ascending) then 1 else -1) else 0

/-- The depths after events. -/
def passAll (heading : Heading) (d : Depth) (events : List Event) : Depth :=
  events.foldl (fun d e => d.pass e heading) d

theorem count_pass (d : Depth) (e : Event) (heading : Heading) (kind : IntervalKind) :
    (d.pass e heading).count kind = d.count kind + weight heading kind e := by
  obtain ⟨position, k, edge, region⟩ := e
  cases k <;> cases kind <;> simp [pass, count, weight]

theorem count_passAll (heading : Heading) (d : Depth) (events : List Event)
    (kind : IntervalKind) :
    (d.passAll heading events).count kind =
      d.count kind + (events.map (weight heading kind)).sum := by
  induction events generalizing d with
  | nil => simp [passAll]
  | cons e rest ih =>
      have hrest := ih (d.pass e heading)
      rw [count_pass] at hrest
      rw [List.map_cons, List.sum_cons, ← Int.add_assoc]
      exact hrest

theorem sum_map_filter_pair {α : Type} (f : α → Int) (p : α → Bool) (a b : α) :
    (([a, b].filter p).map f).sum = (if p a then f a else 0) + (if p b then f b else 0) := by
  cases ha : p a <;> cases hb : p b <;> simp [ha, hb]

/-- Of the events of one interval, a sweep to a byte inside passes one, and to a byte outside
none or both. -/
theorem sum_weight_events (i : Interval) (heading : Heading) (kind : IntervalKind) (x : Nat) :
    ((i.events.filter (heading.Passes ·.position x)).map (weight heading kind)).sum =
      if i.kind = kind && i.extent.contains x then 1 else 0 := by
  have hle := i.extent.start_le_stop
  unfold Interval.events
  cases hempty : i.extent.isEmpty with
  | true =>
      have := Extent.isEmpty_iff.1 hempty
      have hout : i.extent.contains x = false := by
        simp only [Extent.contains, Bool.and_eq_false_iff, decide_eq_false_iff_not]
        omega
      simp [hout]
  | false =>
      have hlt := Extent.isEmpty_eq_false_iff.1 hempty
      rw [if_neg Bool.false_ne_true, sum_map_filter_pair]
      by_cases hkind : i.kind = kind
      · cases heading <;>
          simp only [weight, hkind, Heading.passes_ascending, Heading.passes_descending,
            Event.isStart, Extent.contains] <;> grind
      · simp [weight, hkind]

theorem sum_weight_flatMap (intervals : List Interval) (heading : Heading) (kind : IntervalKind)
    (x : Nat) :
    (((intervals.flatMap (·.events)).filter (heading.Passes ·.position x)).map
      (weight heading kind)).sum = (Interval.count intervals kind x : Int) := by
  induction intervals with
  | nil => rfl
  | cons i rest ih =>
      rw [List.flatMap_cons, List.filter_append, List.map_append, List.sum_append,
        sum_weight_events, ih, Interval.count, Interval.count, List.countP_cons]
      split <;> simp [Int.add_comm]

/-- The two events of an interval cancel out. -/
theorem sum_weight_all (intervals : List Interval) (heading : Heading) (kind : IntervalKind) :
    ((intervals.flatMap (·.events)).map (weight heading kind)).sum = 0 := by
  induction intervals with
  | nil => rfl
  | cons i rest ih =>
      rw [List.flatMap_cons, List.map_append, List.sum_append, ih, Int.add_zero, Interval.events]
      split
      case isTrue => rfl
      case isFalse =>
        cases heading <;> by_cases h : i.kind = kind <;> simp [weight, h, Event.isStart]

/-- Behind all events no memory is usable, since nothing is open. -/
theorem usable_passAll_end {intervals : List Interval} {heading : Heading} {events : List Event}
    (h : events.Perm (intervals.flatMap (·.events))) :
    (passAll heading {} events).usable = false := by
  have hzero (kind : IntervalKind) : (passAll heading {} events).count kind = 0 := by
    rw [count_passAll, ((h.map _).sum_eq).trans (sum_weight_all intervals heading kind)]
    cases kind <;> rfl
  have hhead := hzero .regionHead
  have hbody := hzero .regionBody
  have havailable := hzero .firmwareAvailable
  simp only [count] at hhead hbody havailable
  simp [usable, lendsFirmware, hhead, hbody, havailable]

/-- The depths are right about a byte. -/
def At (d : Depth) (intervals : List Interval) (x : Nat) : Prop :=
  ∀ kind, d.count kind = Interval.count intervals kind x

/-- **Depths count the intervals at hand** once the sweep has passed the events on its way to the
byte and no others. -/
theorem at_passAll {intervals : List Interval} {heading : Heading} {passed ahead : List Event}
    {x : Nat} (h : (passed ++ ahead).Perm (intervals.flatMap (·.events)))
    (hpassed : ∀ e ∈ passed, heading.Passes e.position x)
    (hahead : ∀ e ∈ ahead, ¬ heading.Passes e.position x) :
    (passAll heading {} passed).At intervals x := by
  intro kind
  have hfilter : (passed ++ ahead).filter (heading.Passes ·.position x) = passed := by
    rw [List.filter_append, List.filter_eq_self.2 (by simpa using hpassed),
      List.filter_eq_nil_iff.2 (by simpa using hahead), List.append_nil]
  have hperm := ((h.filter (heading.Passes ·.position x)).map (weight heading kind)).sum_eq
  rw [hfilter, sum_weight_flatMap] at hperm
  rw [count_passAll, hperm]
  cases kind <;> simp [count]

namespace At

variable {d : Depth} {intervals : List Interval} {x : Nat} (h : d.At intervals x)
include h

theorem pos_iff (kind : IntervalKind) : 0 < d.count kind ↔ Over intervals kind x := by
  rw [h kind, ← Interval.count_pos_iff]
  omega

theorem eq_zero_iff (kind : IntervalKind) : d.count kind = 0 ↔ ¬ Over intervals kind x := by
  rw [h kind, ← Interval.count_pos_iff]
  omega

theorem lendsFirmware_iff : d.lendsFirmware = true ↔ Lendable intervals x := by
  have hlisted := h.pos_iff .firmwareAvailable
  have hmasked := h.eq_zero_iff .firmwareBlock
  simp only [count] at hlisted hmasked
  simp [lendsFirmware, Lendable, hlisted, hmasked]

/-- Memory is usable where a byte can be borrowed. -/
theorem usable_iff : d.usable = true ↔ Usable intervals x := by
  have hcollision := h.eq_zero_iff .collision
  have hhead := h.pos_iff .regionHead
  have hbody := h.pos_iff .regionBody
  have hhead0 := h .regionHead
  have hbody0 := h .regionBody
  simp only [count] at hcollision hhead hbody hhead0 hbody0
  have hheap : 0 < d.regionHead + d.regionBody ↔
      Over intervals .regionHead x ∨ Over intervals .regionBody x := by
    rw [← hhead, ← hbody]
    omega
  simp [usable, Usable, hcollision, hheap, h.lendsFirmware_iff, or_assoc]

end At

end Depth

end Staging

import Staging.Proofs.Sweep.Order
import Staging.Sweep.Basic

/-!
# The order of events is stable

The key of an event is its position, and at one position a start comes before a stop.  A list of
events has one stable order by that key (`StableOrder`, `StableOrder.unique`): the keys ascend, and
of the events of each key none overtakes another.  Sorting does not trap and leaves the events in
this order (`Sweep.sort_stable`).

No part of the sort looks at anything but digits and edges.  So the events of one key are kept in
their order by each pass, as they share all digits, and by the partition, as they share the edge.
-/

namespace Staging.Event

/-- The key of the first event is not behind the key of the second. -/
def le (a b : Event) : Bool :=
  decide (a.position < b.position) || a.position == b.position && (a.isStart || !b.isStart)

/-- The event has the key of this position and edge. -/
def hasKey (position : Nat) (start : Bool) (e : Event) : Bool :=
  e.position == position && e.isStart == start

theorem le_iff {a b : Event} :
    a.le b = true ↔ a.position < b.position ∨
      a.position = b.position ∧ (b.isStart = true → a.isStart = true) := by
  cases ha : a.isStart <;> cases hb : b.isStart <;> simp [le, ha, hb]

theorem hasKey_iff {position : Nat} {start : Bool} {e : Event} :
    e.hasKey position start = true ↔ e.position = position ∧ e.isStart = start := by
  simp [hasKey]

theorem le_trans (a b c : Event) (hab : a.le b = true) (hbc : b.le c = true) : a.le c = true := by
  rw [le_iff] at *
  rcases hab with hab | ⟨hab, hstart⟩ <;> rcases hbc with hbc | ⟨hbc, hstart'⟩
  · exact .inl (Nat.lt_trans hab hbc)
  · exact .inl (hbc ▸ hab)
  · exact .inl (hab ▸ hbc)
  · exact .inr ⟨hab.trans hbc, hstart ∘ hstart'⟩

theorem le_total (a b : Event) : (a.le b || b.le a) = true := by
  rw [Bool.or_eq_true, le_iff, le_iff]
  cases a.isStart <;> cases b.isStart <;> simp <;> omega

/-- Events of which neither is behind the other have one key. -/
theorem hasKey_of_le {a b : Event} (hab : a.le b = true) (hba : b.le a = true) :
    b.hasKey a.position a.isStart = true := by
  rw [hasKey_iff]
  rw [le_iff] at hab hba
  refine ⟨by omega, Bool.eq_iff_iff.2 ⟨fun h => ?_, fun h => ?_⟩⟩
  · exact (hab.resolve_left (by omega)).2 h
  · exact (hba.resolve_left (by omega)).2 h

/-! ### The stable order -/

/-- The events in the order of their keys, where events of one key keep the order they had. -/
structure StableOrder (events ordered : List Event) : Prop where
  perm : ordered.Perm events
  /-- Positions do not descend. -/
  ascends : ordered.Pairwise fun a b => a.position ≤ b.position
  /-- At one position no stop comes before a start. -/
  startsFirst : ordered.Pairwise fun a b =>
    a.position = b.position → b.isStart = true → a.isStart = true
  /-- The events of each key are listed as they were. -/
  keeps : ∀ position start,
    ordered.filter (hasKey position start) = events.filter (hasKey position start)

theorem StableOrder.pairwise_le {events ordered : List Event} (h : StableOrder events ordered) :
    ordered.Pairwise fun a b => a.le b = true :=
  h.ascends.imp₂ (fun _ _ hle hstart => le_iff.2 <|
    (Nat.lt_or_eq_of_le hle).imp_right fun heq => ⟨heq, hstart heq⟩) h.startsFirst

/-- Lists in the order of their keys are equal if they list the same events of each key. -/
theorem eq_of_pairwise_le {l l' : List Event} (hperm : l.Perm l')
    (hl : l.Pairwise fun a b => a.le b = true) (hl' : l'.Pairwise fun a b => a.le b = true)
    (hkeys : ∀ position start,
      l.filter (hasKey position start) = l'.filter (hasKey position start)) : l = l' := by
  induction l generalizing l' with
  | nil => exact hperm.symm.eq_nil.symm
  | cons a rest ih =>
      cases l' with
      | nil => exact hperm.eq_nil
      | cons b rest' =>
          obtain ⟨ha, hrest⟩ := List.pairwise_cons.1 hl
          obtain ⟨hb, hrest'⟩ := List.pairwise_cons.1 hl'
          -- Each of the two first events occurs in both lists, so neither is behind the other.
          have hsame : b.hasKey a.position a.isStart = true := by
            rcases List.mem_cons.1 (hperm.mem_iff.1 List.mem_cons_self) with rfl | hmem
            · exact hasKey_iff.2 ⟨rfl, rfl⟩
            rcases List.mem_cons.1 (hperm.mem_iff.2 List.mem_cons_self) with rfl | hmem'
            · exact hasKey_iff.2 ⟨rfl, rfl⟩
            exact hasKey_of_le (ha b hmem') (hb a hmem)
          obtain rfl : a = b := by
            have hfirst := hkeys a.position a.isStart
            rw [List.filter_cons_of_pos (hasKey_iff.2 ⟨rfl, rfl⟩),
              List.filter_cons_of_pos hsame] at hfirst
            exact (List.cons.inj hfirst).1
          refine congrArg _ (ih hperm.cons_inv hrest hrest' fun position start => ?_)
          have hkey := hkeys position start
          rw [List.filter_cons, List.filter_cons] at hkey
          split at hkey
          · exact (List.cons.inj hkey).2
          · exact hkey

/-- **There is one stable order.** -/
theorem StableOrder.unique {events l l' : List Event} (h : StableOrder events l)
    (h' : StableOrder events l') : l = l' :=
  eq_of_pairwise_le (h.perm.trans h'.perm.symm) h.pairwise_le h'.pairwise_le fun position start =>
    (h.keeps position start).trans (h'.keeps position start).symm

/-- A merge sort by the key makes it. -/
theorem stableOrder_mergeSort (events : List Event) : StableOrder events (events.mergeSort le) := by
  have hperm := List.mergeSort_perm events le
  have hle := List.pairwise_mergeSort le_trans le_total events
  refine ⟨hperm, hle.imp fun h => ?_, hle.imp fun h heq => ?_, fun position start => ?_⟩
  · have := le_iff.1 h
    omega
  · exact ((le_iff.1 h).resolve_left (by omega)).2
  · -- The events of one key are in order already, so they survive as a sublist.
    have hkey : (events.filter (hasKey position start)).Pairwise fun a b => a.le b = true := by
      refine List.pairwise_of_forall_mem_list fun a ha b hb => ?_
      obtain ⟨hpa, hsa⟩ := hasKey_iff.1 (List.mem_filter.1 ha).2
      obtain ⟨hpb, hsb⟩ := hasKey_iff.1 (List.mem_filter.1 hb).2
      exact le_iff.2 (.inr ⟨hpa.trans hpb.symm, fun h => hsa.trans (hsb.symm.trans h)⟩)
    have hsublist := (List.sublist_mergeSort le_trans le_total hkey List.filter_sublist).filter
      (hasKey position start)
    rw [List.filter_filter] at hsublist
    simp only [Bool.and_self] at hsublist
    exact (hsublist.eq_of_length (hperm.filter _).length_eq.symm).symm

/-! ### Events of one key -/

section Key

variable (events : List Event) (position : Nat) (start : Bool)

theorem filter_startsFirst :
    (startsFirst events).filter (hasKey position start) =
      events.filter (hasKey position start) := by
  rw [startsFirst, List.filter_append]
  cases start
  case false =>
    have hstarts : (events.filter (·.isStart)).filter (hasKey position false) = [] := by
      simp [List.filter_eq_nil_iff, hasKey_iff]
    rw [hstarts, List.nil_append, List.filter_filter]
    exact List.filter_congr fun e _ => by simp [hasKey]
  case true =>
    have hstops : (events.filter (!·.isStart)).filter (hasKey position true) = [] := by
      simp [List.filter_eq_nil_iff, hasKey_iff]
    rw [hstops, List.append_nil, List.filter_filter]
    exact List.filter_congr fun e _ => by simp [hasKey]

/-- A pass finds the events of one key under one digit value. -/
theorem filter_byDigit (index : Nat) :
    (byDigit index events digitValues).filter (hasKey position start) =
      events.filter (hasKey position start) := by
  rw [byDigit, List.filter_flatMap]
  let value := (position >>> (digitBits * index)) % digitValues
  have hdigit {e : Event} (he : e.hasKey position start = true) : e.digit index = value := by
    rw [digit, (hasKey_iff.1 he).1]
  have hvalue : value < digitValues := Nat.mod_lt _ (by decide)
  refine flatMap_range_single hvalue ?_ fun d hd => ?_
  · rw [ofDigit, List.filter_filter]
    refine List.filter_congr fun e _ => ?_
    cases he : e.hasKey position start
    · rfl
    · simpa using hdigit he
  · rw [ofDigit, List.filter_filter]
    refine List.filter_eq_nil_iff.2 fun e _ he => ?_
    rw [Bool.and_eq_true, beq_iff_eq] at he
    exact hd (he.2.symm.trans (hdigit he.1))

theorem filter_passes (count : Nat) :
    (passes events count).filter (hasKey position start) =
      events.filter (hasKey position start) := by
  induction count with
  | zero => rfl
  | succ count ih => rw [passes_succ, filter_byDigit, ih]

theorem filter_ordered :
    (ordered events).filter (hasKey position start) = events.filter (hasKey position start) := by
  rw [ordered, filter_passes, filter_startsFirst]

end Key

/-- Sorting leaves events at word positions in their stable order. -/
theorem stableOrder_ordered {events : List Event}
    (hposition : ∀ e ∈ events, e.position < Address.limit) :
    StableOrder events (ordered events) := by
  have hany : events.Pairwise fun _ _ => True := List.pairwise_of_forall fun _ _ => trivial
  have hsorted := pairwise_ordered hany hposition
  refine ⟨perm_ordered events, hsorted.imp fun h => by omega, hsorted.imp fun h heq hstart => ?_,
    filter_ordered events⟩
  rcases h.resolve_left (by omega) with ⟨-, ⟨ha, -⟩ | ⟨hsame, -⟩⟩
  · exact ha
  · exact hsame.trans hstart

end Staging.Event

namespace Staging.Sweep

/-- **Sorting is stable.**  Whatever events at word positions a sweep has gathered, sorting does not
trap and leaves them in their stable order by position and edge.  This is the only such order, it is
the one that a merge sort makes, and sorting again changes nothing. -/
theorem sort_stable {s : Sweep} (hposition : ∀ e ∈ s.events, e.position < Address.limit) :
    ∃ sorted : Sweep, s.sort = .ok sorted ∧ Event.StableOrder s.events sorted.events ∧
      (∀ l, Event.StableOrder s.events l → l = sorted.events) ∧
      sorted.events = s.events.mergeSort Event.le ∧ sorted.sort = .ok sorted := by
  have hsorted := Event.stableOrder_ordered hposition
  have hagain : Event.ordered (Event.ordered s.events) = Event.ordered s.events := by
    have hposition' : ∀ e ∈ Event.ordered s.events, e.position < Address.limit :=
      fun e he => hposition e (hsorted.perm.mem_iff.1 he)
    refine (Event.stableOrder_ordered hposition').unique ?_
    exact ⟨.refl _, hsorted.ascends, hsorted.startsFirst, fun _ _ => rfl⟩
  refine ⟨{ s with events := Event.ordered s.events }, ?_, hsorted, fun l h => h.unique hsorted,
    hsorted.unique (Event.stableOrder_mergeSort _), ?_⟩
  · rw [sort, Event.sort_eq]
    rfl
  · rw [sort, Event.sort_eq, hagain]
    rfl

/-- Events that differ in their lowest and in their highest digit, with two starts and two stops at
one position. -/
theorem sort_stable_mixed : ∃ s sorted : Sweep,
    (∀ e ∈ s.events, e.position < Address.limit) ∧
    s.events = [⟨0xff00000000000001, .collision, .stop, none⟩, ⟨2, .regionBody, .stop, some 0⟩,
      ⟨2, .firmwareBlock, .start, some 1⟩, ⟨0x0100000000000000, .collision, .start, none⟩,
      ⟨2, .collision, .stop, none⟩, ⟨2, .regionHead, .start, some 1⟩] ∧
    sorted.events = [⟨2, .firmwareBlock, .start, some 1⟩, ⟨2, .regionHead, .start, some 1⟩,
      ⟨2, .regionBody, .stop, some 0⟩, ⟨2, .collision, .stop, none⟩,
      ⟨0x0100000000000000, .collision, .start, none⟩,
      ⟨0xff00000000000001, .collision, .stop, none⟩] ∧
    s.sort = .ok sorted ∧ Event.StableOrder s.events sorted.events ∧ sorted.sort = .ok sorted := by
  let s : Sweep := { events := [⟨0xff00000000000001, .collision, .stop, none⟩,
    ⟨2, .regionBody, .stop, some 0⟩, ⟨2, .firmwareBlock, .start, some 1⟩,
    ⟨0x0100000000000000, .collision, .start, none⟩, ⟨2, .collision, .stop, none⟩,
    ⟨2, .regionHead, .start, some 1⟩] }
  have hposition : ∀ e ∈ s.events, e.position < Address.limit := by decide
  obtain ⟨sorted, hrun, hstable, -, -, hagain⟩ := sort_stable hposition
  have hevents : s.sort.toOption.map (·.events) = some [⟨2, .firmwareBlock, .start, some 1⟩,
      ⟨2, .regionHead, .start, some 1⟩, ⟨2, .regionBody, .stop, some 0⟩,
      ⟨2, .collision, .stop, none⟩, ⟨0x0100000000000000, .collision, .start, none⟩,
      ⟨0xff00000000000001, .collision, .stop, none⟩] := by decide +kernel
  rw [hrun] at hevents
  exact ⟨s, sorted, hposition, rfl, Option.some.inj hevents, hrun, hstable, hagain⟩

end Staging.Sweep

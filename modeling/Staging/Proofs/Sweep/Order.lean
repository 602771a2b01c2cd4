import Staging.Proofs.Sweep.Pass

/-!
# The order of events is right

Sorting never traps (`sort_eq`).  It permutes the events (`perm_ordered`), puts them in the order of
their positions, and at one position puts starts before stops; events that agree in both keep the
order that they had (`pairwise_ordered`).

A pass for one digit keeps the events of equal digits in their old order.  So what holds between
earlier and later events of equal digits before a pass holds after it, which makes the passes add
up: after `count` of them the events are ordered by the lowest `count` digits.
-/

namespace Staging.Event

/-! ### One pass -/

/-- A pass orders by its digit, and keeps what holds between events of equal digits. -/
theorem pairwise_byDigit {R : Event → Event → Prop} {events : List Event}
    (h : events.Pairwise R) (index : Nat) :
    (byDigit index events digitValues).Pairwise fun a b =>
      a.digit index < b.digit index ∨ a.digit index = b.digit index ∧ R a b := by
  rw [byDigit, List.pairwise_flatMap]
  constructor
  · intro d _
    refine (h.filter _).imp_of_mem fun {a b} ha hb hab => .inr ⟨?_, hab⟩
    have hda := (List.mem_filter.1 ha).2
    have hdb := (List.mem_filter.1 hb).2
    rw [beq_iff_eq] at hda hdb
    rw [hda, hdb]
  · refine List.pairwise_lt_range.imp fun {d d'} hlt a ha b hb => .inl ?_
    have hda := (List.mem_filter.1 ha).2
    have hdb := (List.mem_filter.1 hb).2
    rw [beq_iff_eq] at hda hdb
    rwa [hda, hdb]

/-! ### All passes -/

/-- The events after the passes for the lowest digits. -/
def passes (events : List Event) (count : Nat) : List Event :=
  (List.range count).foldl (fun events index => byDigit index events digitValues) events

theorem passes_succ (events : List Event) (count : Nat) :
    passes events (count + 1) = byDigit count (passes events count) digitValues := by
  rw [passes, List.range_succ, List.foldl_append]
  rfl

theorem foldlM_sortByDigit (events : List Event) (count : Nat) :
    (List.range count).foldlM sortByDigit events = .ok (passes events count) := by
  induction count with
  | zero => rfl
  | succ count ih =>
      rw [List.range_succ, List.foldlM_append, ih, ok_bind, List.foldlM_cons, sortByDigit_eq,
        ok_bind, passes_succ]
      rfl

/-- The number that the lowest digits of the position make. -/
def low (count : Nat) (e : Event) : Nat := e.position % 2 ^ (digitBits * count)

theorem low_succ (count : Nat) (e : Event) :
    e.low (count + 1) = e.low count + 2 ^ (digitBits * count) * e.digit count := by
  rw [low, low, digit, Nat.mul_succ, Nat.pow_add, Nat.mod_mul, Nat.shiftRight_eq_div_pow]
  rfl

/-- The order after some passes: by the lowest digits, and for equal ones as it was. -/
def Before (R : Event → Event → Prop) (count : Nat) (a b : Event) : Prop :=
  a.low count < b.low count ∨ a.low count = b.low count ∧ R a b

theorem before_succ {R : Event → Event → Prop} {count : Nat} {a b : Event}
    (h : a.digit count < b.digit count ∨ a.digit count = b.digit count ∧ Before R count a b) :
    Before R (count + 1) a b := by
  have ha : a.low count < 2 ^ (digitBits * count) := Nat.mod_lt _ (Nat.two_pow_pos _)
  simp only [Before, low_succ]
  rcases h with hlt | ⟨heq, hlow | ⟨hlow, hR⟩⟩
  · have := Nat.mul_le_mul_left (2 ^ (digitBits * count)) (Nat.succ_le_of_lt hlt)
    rw [Nat.mul_succ] at this
    exact .inl (by omega)
  · rw [heq]
    exact .inl (Nat.add_lt_add_right hlow _)
  · exact .inr ⟨by rw [hlow, heq], hR⟩

theorem pairwise_passes {R : Event → Event → Prop} {events : List Event}
    (h : events.Pairwise R) (count : Nat) :
    (passes events count).Pairwise (Before R count) := by
  induction count with
  | zero => exact h.imp fun hR => .inr ⟨by simp [low, digitBits, Nat.mod_one], hR⟩
  | succ count ih =>
      rw [passes_succ]
      exact (pairwise_byDigit ih count).imp before_succ

theorem perm_passes (events : List Event) (count : Nat) : (passes events count).Perm events := by
  induction count with
  | zero => exact .refl _
  | succ count ih =>
      rw [passes_succ]
      exact (perm_byDigit count _).trans ih

/-! ### The order -/

theorem perm_startsFirst (events : List Event) : (startsFirst events).Perm events :=
  List.filter_append_perm _ _

/-- The events in the order that sorting gives them. -/
@[irreducible]
def ordered (events : List Event) : List Event := passes (startsFirst events) digitCount

/-- **Sorting** gives the events an order; it never traps. -/
theorem sort_eq (events : List Event) : sort events = .ok (ordered events) := by
  rw [sort, foldlM_sortByDigit, ordered]

/-- Sorting permutes the events. -/
theorem perm_ordered (events : List Event) : (ordered events).Perm events := by
  rw [ordered]
  exact (perm_passes _ _).trans (perm_startsFirst events)

/-- Starts before stops, and events of one edge as they were. -/
def StartsFirst (R : Event → Event → Prop) (a b : Event) : Prop :=
  a.isStart = true ∧ b.isStart = false ∨ a.isStart = b.isStart ∧ R a b

theorem pairwise_startsFirst {R : Event → Event → Prop} {events : List Event}
    (h : events.Pairwise R) : (startsFirst events).Pairwise (StartsFirst R) := by
  refine List.pairwise_append.2 ⟨?_, ?_, ?_⟩
  · refine (h.filter _).imp_of_mem fun {a b} ha hb hab => .inr ⟨?_, hab⟩
    rw [(List.mem_filter.1 ha).2, (List.mem_filter.1 hb).2]
  · refine (h.filter _).imp_of_mem fun {a b} ha hb hab => .inr ⟨?_, hab⟩
    have hea := (List.mem_filter.1 ha).2
    have heb := (List.mem_filter.1 hb).2
    rw [Bool.not_eq_true'] at hea heb
    rw [hea, heb]
  · intro a ha b hb
    exact .inl ⟨(List.mem_filter.1 ha).2, by simpa using (List.mem_filter.1 hb).2⟩

/-- **Sorted events** are in the order of their positions, at one position starts come before
stops, and otherwise the order is kept. -/
theorem pairwise_ordered {R : Event → Event → Prop} {events : List Event} (h : events.Pairwise R)
    (hposition : ∀ e ∈ events, e.position < Address.limit) :
    (ordered events).Pairwise fun a b =>
      a.position < b.position ∨ a.position = b.position ∧ StartsFirst R a b := by
  have hlow {e : Event} (he : e ∈ ordered events) : e.low digitCount = e.position :=
    Nat.mod_eq_of_lt (hposition e ((perm_ordered events).mem_iff.1 he))
  rw [ordered] at hlow ⊢
  refine (pairwise_passes (pairwise_startsFirst h) digitCount).imp_of_mem fun {a b} ha hb hab => ?_
  rwa [Before, hlow ha, hlow hb] at hab

end Staging.Event

import Mathlib.Algebra.GroupWithZero.Nat
import Staging.Proofs.Outcome
import Staging.Sweep.Order

/-!
# One pass of the sort

A pass for one digit lists the events of each digit value in their old order (`sortByDigit_eq`), and
no entry that it reads or writes is missing.

The counts of the values say where in this list the events of each value begin
(`firstSlots_counts`). From there on a pass fills one slot after the other, and whatever is filled
holds what the list has there (`Filled`): the next slot of an event is behind the events of lower
values and behind the earlier ones of its own.  In the end all slots are filled.  The pass is left
out if one value counts all events, as the list then is the events as they are. -/

namespace Staging.Event

/-! ### Lists by the values of a key -/

/-- If only one value of a key occurs, listing each value lists everything. -/
theorem flatMap_range_single {α : Type} {l : List α} {f : Nat → List α} {value n : Nat}
    (hvalue : value < n) (hf : f value = l) (hother : ∀ d, d ≠ value → f d = []) :
    (List.range n).flatMap f = l := by
  have hempty (k : Nat) (hk : k ≤ value) : (List.range k).flatMap f = [] := by
    refine List.flatMap_eq_nil_iff.2 fun d hd => hother d ?_
    have := List.mem_range.1 hd
    omega
  induction n with
  | zero => omega
  | succ n ih =>
      rw [List.range_succ, List.flatMap_append, List.flatMap_singleton]
      by_cases h : n = value
      · rw [hempty n (Nat.le_of_eq h), h, hf, List.nil_append]
      · rw [ih (by omega), hother n h, List.append_nil]

/-- What is listed for a value lies behind what is listed for all lower ones. -/
theorem getElem?_flatMap_range {α : Type} {f : Nat → List α} {d n i : Nat} (hd : d < n)
    (hi : i < (f d).length) :
    ((List.range n).flatMap f)[((List.range d).flatMap f).length + i]? = (f d)[i]? := by
  obtain ⟨k, rfl⟩ := Nat.exists_eq_add_of_lt hd
  have hsplit : (List.range (d + k + 1)).flatMap f =
      (List.range d).flatMap f ++ (f d ++ ((List.range k).map (d + 1 + ·)).flatMap f) := by
    rw [show d + k + 1 = d + 1 + k by omega, List.range_add, List.range_succ,
      List.flatMap_append, List.flatMap_append, List.flatMap_singleton, List.append_assoc]
  rw [hsplit, List.getElem?_append_right (Nat.le_add_right _ _), Nat.add_sub_cancel_left,
    List.getElem?_append_left hi]

/-- Every place in the list belongs to one of the values. -/
theorem exists_place_flatMap_range {α : Type} {f : Nat → List α} {n k : Nat}
    (hk : k < ((List.range n).flatMap f).length) :
    ∃ d i, d < n ∧ i < (f d).length ∧ k = ((List.range d).flatMap f).length + i := by
  induction n with
  | zero => exact absurd hk (Nat.not_lt_zero k)
  | succ n ih =>
      rw [List.range_succ, List.flatMap_append, List.flatMap_singleton, List.length_append] at hk
      by_cases hlt : k < ((List.range n).flatMap f).length
      · obtain ⟨d, i, hd, hi, heq⟩ := ih hlt
        exact ⟨d, i, Nat.lt_succ_of_lt hd, hi, heq⟩
      · exact ⟨n, k - ((List.range n).flatMap f).length, Nat.lt_succ_self n, by omega, by omega⟩

/-- Listing each value of a bounded key lists everything. -/
theorem perm_flatMap_filter {α : Type} (key : α → Nat) (l : List α) (n : Nat) :
    ((List.range n).flatMap fun d => l.filter (key · == d)).Perm (l.filter (key · < n)) := by
  induction n with
  | zero => simp
  | succ n ih =>
      rw [List.range_succ, List.flatMap_append, List.flatMap_singleton]
      refine (ih.append_right _).trans ?_
      have hsplit := List.filter_append_perm (key · < n) (l.filter (key · < n + 1))
      rw [List.filter_filter, List.filter_filter] at hsplit
      refine .trans (.of_eq ?_) hsplit
      congr 1 <;> refine List.filter_congr fun a _ => Bool.eq_iff_iff.2 ?_ <;>
        simp only [beq_iff_eq, decide_eq_true_eq, Bool.and_eq_true, Bool.not_eq_true',
          decide_eq_false_iff_not] <;> omega

/-! ### Events by digit -/

theorem digit_lt (index : Nat) (e : Event) : e.digit index < digitValues :=
  Nat.mod_lt _ (by decide)

/-- The events of one digit value. -/
def ofDigit (index : Nat) (events : List Event) (d : Nat) : List Event :=
  events.filter (·.digit index == d)

theorem ofDigit_append (index : Nat) (a b : List Event) (d : Nat) :
    ofDigit index (a ++ b) d = ofDigit index a d ++ ofDigit index b d :=
  List.filter_append _ _

theorem ofDigit_cons_self (index : Nat) (e : Event) (rest : List Event) :
    ofDigit index (e :: rest) (e.digit index) = e :: ofDigit index rest (e.digit index) :=
  List.filter_cons_of_pos (beq_self_eq_true _)

theorem length_ofDigit_cons (index : Nat) (e : Event) (rest : List Event) (d : Nat) :
    (ofDigit index (e :: rest) d).length =
      (ofDigit index rest d).length + if e.digit index = d then 1 else 0 := by
  by_cases h : e.digit index = d <;> simp [ofDigit, h]

/-- The events with lower digit values in front of those with higher ones. -/
def byDigit (index : Nat) (events : List Event) (count : Nat) : List Event :=
  (List.range count).flatMap (ofDigit index events)

theorem perm_byDigit (index : Nat) (events : List Event) :
    (byDigit index events digitValues).Perm events := by
  refine (perm_flatMap_filter (·.digit index) events digitValues).trans (.of_eq ?_)
  exact List.filter_eq_self.2 fun e _ => by simpa using digit_lt index e

/-- The place behind the earlier events of its value belongs to an event. -/
theorem getElem?_byDigit (index : Nat) (done : List Event) (e : Event) (rest : List Event) :
    (byDigit index (done ++ e :: rest) digitValues)[
      (byDigit index (done ++ e :: rest) (e.digit index)).length +
        (ofDigit index done (e.digit index)).length]? = some e := by
  have hown : ofDigit index (done ++ e :: rest) (e.digit index) =
      ofDigit index done (e.digit index) ++ e :: ofDigit index rest (e.digit index) := by
    rw [ofDigit_append, ofDigit_cons_self]
  have hlt : (ofDigit index done (e.digit index)).length <
      (ofDigit index (done ++ e :: rest) (e.digit index)).length := by
    rw [hown, List.length_append, List.length_cons]
    omega
  rw [byDigit, byDigit, getElem?_flatMap_range (digit_lt index e) hlt, hown,
    List.getElem?_append_right (Nat.le_refl _), Nat.sub_self]
  rfl

/-! ### Counting -/

/-- How often each digit value occurs. -/
def counts (index : Nat) (events : List Event) : List Nat :=
  (List.range digitValues).map fun d => (ofDigit index events d).length

theorem getElem?_counts (index : Nat) (events : List Event) {d : Nat} (hd : d < digitValues) :
    (counts index events)[d]? = some (ofDigit index events d).length := by
  rw [counts, List.getElem?_map, List.getElem?_range hd]
  rfl

/-- Counting one more event adds one to the entry of its digit value. -/
theorem counts_append_singleton (index : Nat) (done : List Event) (e : Event) :
    counts index (done ++ [e]) = (counts index done).set (e.digit index)
      ((ofDigit index done (e.digit index)).length + 1) := by
  refine List.ext_getElem? fun d => ?_
  rw [List.getElem?_set]
  by_cases hd : d < digitValues
  · have hlength : d < (counts index done).length := by simpa [counts] using hd
    rw [getElem?_counts index _ hd, getElem?_counts index done hd, ofDigit_append,
      List.length_append, length_ofDigit_cons]
    split
    case isTrue hsame => simp [hsame, hlength, ofDigit]
    case isFalse => simp [ofDigit]
  · have hnot : e.digit index ≠ d := fun h => hd (h ▸ digit_lt index e)
    rw [if_neg hnot]
    simp [counts, hd]

theorem foldlM_tally {index : Nat} (done rest : List Event) :
    rest.foldlM (fun counts e => do
        let count ← Index.read counts (e.digit index)
        Index.write counts (e.digit index) (count + 1)) (counts index done) =
      .ok (counts index (done ++ rest)) := by
  induction rest generalizing done with
  | nil => rw [List.append_nil]; rfl
  | cons e rest ih =>
      have hlength : e.digit index < (counts index done).length := by
        simpa [counts] using digit_lt index e
      rw [List.foldlM_cons, Index.read_eq_ok (getElem?_counts index done (digit_lt index e)),
        ok_bind, Index.write_eq_ok hlength, ok_bind, ← counts_append_singleton, ih,
        List.append_assoc]
      rfl

theorem tally_eq (index : Nat) (events : List Event) :
    tally index events = .ok (counts index events) := by
  have hstart : List.replicate digitValues 0 = counts index [] := by
    rw [counts, List.eq_replicate_iff.2 ⟨List.length_map _, ?_⟩, List.length_range]
    exact fun n hn => (List.mem_map.1 hn).elim fun _ h => h.2.symm
  rw [tally, hstart, foldlM_tally, List.nil_append]

theorem getElem?_firstSlots (next : Nat) (counts : List Nat) (d : Nat) :
    (firstSlots next counts)[d]? = counts[d]?.map fun _ => next + (counts.take d).sum := by
  induction counts generalizing next d with
  | nil => simp [firstSlots]
  | cons count rest ih =>
      cases d with
      | zero => rfl
      | succ d =>
          rw [firstSlots, List.getElem?_cons_succ, ih, List.getElem?_cons_succ,
            List.take_succ_cons, List.sum_cons, Nat.add_assoc]

/-- The first slot of a digit value is behind the events of all lower ones. -/
theorem firstSlots_counts (index : Nat) (events : List Event) {d : Nat} (hd : d < digitValues) :
    (firstSlots 0 (counts index events))[d]? = some (byDigit index events d).length := by
  have hsum : ((counts index events).take d).sum = (byDigit index events d).length := by
    rw [counts, ← List.map_take, List.take_range, Nat.min_eq_left (Nat.le_of_lt hd), byDigit,
      List.length_flatMap]
  rw [getElem?_firstSlots, getElem?_counts index events hd, hsum, Nat.zero_add]
  rfl

/-! ### Placing -/

/-- The slots of a pass, and the row that it fills, once it has placed the events of `done`. -/
structure Filled (index : Nat) (events done : List Event) (filled : List Nat × List Event) :
    Prop where
  length : filled.2.length = events.length
  /-- The next slot of each value is behind those that are filled. -/
  next : ∀ d < digitValues, filled.1[d]? =
    some ((byDigit index events d).length + (ofDigit index done d).length)
  row : ∀ d < digitValues, ∀ i < (ofDigit index done d).length,
    filled.2[(byDigit index events d).length + i]? =
      (byDigit index events digitValues)[(byDigit index events d).length + i]?

theorem filled_start (index : Nat) (events : List Event) :
    Filled index events []
      (firstSlots 0 (counts index events), List.replicate events.length blank) where
  length := List.length_replicate
  next _ hd := firstSlots_counts index events hd
  row _ _ _ hi := absurd hi (Nat.not_lt_zero _)

/-- **One event placed** fills its slot with what belongs there. -/
theorem Filled.place {index : Nat} {events done rest : List Event} {e : Event}
    {filled : List Nat × List Event} (h : Filled index events done filled)
    (hevents : events = done ++ e :: rest) :
    ∃ filled', Event.place index filled e = .ok filled' ∧
      Filled index events (done ++ [e]) filled' := by
  let slot := (byDigit index events (e.digit index)).length +
    (ofDigit index done (e.digit index)).length
  have hslot : filled.1[e.digit index]? = some slot := h.next _ (digit_lt index e)
  have hbelongs : (byDigit index events digitValues)[slot]? = some e := by
    simpa only [slot, ← hevents] using getElem?_byDigit index done e rest
  have hinside : slot < filled.2.length := by
    obtain ⟨hlt, -⟩ := List.getElem?_eq_some_iff.1 hbelongs
    rwa [h.length, ← (perm_byDigit index events).length_eq]
  obtain ⟨hvalue, -⟩ := List.getElem?_eq_some_iff.1 hslot
  have hcount (d : Nat) : (ofDigit index (done ++ [e]) d).length =
      (ofDigit index done d).length + if e.digit index = d then 1 else 0 := by
    rw [ofDigit_append, List.length_append, length_ofDigit_cons]
    exact congrArg _ (Nat.zero_add _)
  refine ⟨(filled.1.set (e.digit index) (slot + 1), filled.2.set slot e), ?_, ?_, ?_, ?_⟩
  · rw [Event.place, Index.read_eq_ok hslot, ok_bind, Index.write_eq_ok hinside, ok_bind,
      Index.write_eq_ok hvalue, ok_bind]
    rfl
  · rw [List.length_set, h.length]
  · intro d hd
    rw [List.getElem?_set, h.next d hd, hcount]
    split
    case isTrue hdigit =>
      subst hdigit
      simp [slot, Nat.add_assoc]
    case isFalse => rfl
  · intro d hd i hi
    by_cases hsame : slot = (byDigit index events d).length + i
    · rw [← hsame, List.getElem?_set_self hinside, hbelongs]
    · rw [List.getElem?_set_ne hsame]
      -- Another slot was filled before.
      refine h.row d hd i ?_
      rw [hcount] at hi
      split at hi
      case isTrue hdigit =>
        subst hdigit
        omega
      case isFalse => exact hi

theorem filled_foldlM {index : Nat} {events done rest : List Event}
    {filled : List Nat × List Event} (h : Filled index events done filled)
    (hevents : events = done ++ rest) :
    ∃ filled', rest.foldlM (Event.place index) filled = .ok filled' ∧
      Filled index events events filled' := by
  induction rest generalizing done filled with
  | nil =>
      rw [List.append_nil] at hevents
      exact ⟨filled, rfl, hevents ▸ h⟩
  | cons e rest ih =>
      obtain ⟨next, hplace, hnext⟩ := h.place hevents
      rw [List.foldlM_cons, hplace, ok_bind]
      exact ih hnext (by rw [hevents, List.append_assoc]; rfl)

/-- Once all events are placed every slot is filled. -/
theorem Filled.row_eq {index : Nat} {events : List Event} {filled : List Nat × List Event}
    (h : Filled index events events filled) : filled.2 = byDigit index events digitValues := by
  have hlength := (perm_byDigit index events).length_eq
  refine List.ext_getElem? fun k => ?_
  by_cases hk : k < events.length
  · obtain ⟨d, i, hd, hi, rfl⟩ := exists_place_flatMap_range (hlength ▸ hk)
    exact h.row d hd i hi
  · rw [List.getElem?_eq_none (by rw [h.length]; omega), List.getElem?_eq_none (by omega)]

/-- **A pass for one digit** lists the events of each digit value in their old order. -/
theorem sortByDigit_eq (events : List Event) (index : Nat) :
    sortByDigit events index = .ok (byDigit index events digitValues) := by
  rw [sortByDigit, tally_eq, ok_bind]
  split
  case isFalse =>
    obtain ⟨filled, hfold, hfilled⟩ :=
      filled_foldlM (filled_start index events) (List.nil_append _).symm
    rw [hfold, ok_bind, hfilled.row_eq]
    rfl
  case isTrue hall =>
    rw [List.contains_iff_mem, counts] at hall
    obtain ⟨value, hvalue, hlength⟩ := List.mem_map.1 hall
    have hdigit : ∀ e ∈ events, e.digit index = value := fun e he => by
      simpa using List.length_filter_eq_length_iff.1 hlength e he
    refine congrArg _ (flatMap_range_single (List.mem_range.1 hvalue) ?_ fun d hd => ?_).symm
    · exact List.filter_eq_self.2 fun e he => by simpa using hdigit e he
    · exact List.filter_eq_nil_iff.2 fun e he => by simpa [hdigit e he] using Ne.symm hd

end Staging.Event

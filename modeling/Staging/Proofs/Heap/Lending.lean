import Staging.Heap.Lending
import Staging.Proofs.Heap.Basic

/-!
# Lending and giving back

Each of the two ways in which a heap lends memory is undone exactly by its inverse: taking back
what was handed out (`takeBack_handOut`), and retreating from where the header advanced
(`retreat_advance`).  What is refused leaves the heap as it is (`Valid.withRegion_clean`).
-/

namespace Staging.Heap

variable {heap heap' : Heap} {id : RegionId} {piece : Extent}

theorem withRegion_eq_ok_iff {α : Type} {missing : Heap.Error} {value : α}
    {change : Region → Outcome Heap.Error Region α} :
    heap.withRegion id missing change = .ok value heap' ↔
      ∃ r r', heap.region? id = some r ∧ change r = .ok value r' ∧
        heap' = heap.setRegion r' := by
  unfold withRegion
  cases hfind : heap.region? id with
  | none => simp
  | some r =>
      simp only [Outcome.within_eq_ok_iff, Option.some.injEq]
      constructor
      · rintro ⟨r', hchange, rfl⟩
        exact ⟨r, r', rfl, hchange, rfl⟩
      · rintro ⟨_, r', rfl, hchange, rfl⟩
        exact ⟨r', hchange, rfl⟩

/-- An operation on a region of a valid heap is as clean as it is on the region. -/
theorem Valid.withRegion_clean (h : heap.Valid) {α : Type} {missing : Heap.Error}
    {change : Region → Outcome Heap.Error Region α}
    (hchange : ∀ r, heap.region? id = some r → (change r).Clean r) :
    (heap.withRegion id missing change).Clean heap := by
  unfold withRegion
  split
  case h_1 => exact rfl
  case h_2 r hfind =>
    have hclean := (hchange r hfind).within heap.setRegion
    rwa [h.setRegion_self (region?_eq_some hfind).1] at hclean

theorem handOut_eq_ok {s : Span} (h : heap.handOut id piece = .ok s heap') :
    ∃ r r' index, heap.region? id = some r ∧ r.handOut index piece = .ok s r' ∧
      heap' = heap.setRegion r' := by
  obtain ⟨r, r', hfind, hout, rfl⟩ := withRegion_eq_ok_iff.1 h
  split at hout
  case h_1 => contradiction
  case h_2 index _ => exact ⟨r, r', index, hfind, hout, rfl⟩

theorem advance_eq_ok {move : HeaderMove} (h : heap.advance id piece = .ok move heap') :
    ∃ r r', heap.region? id = some r ∧ r.advance piece.stop = .ok move r' ∧
      heap' = heap.setRegion r' := by
  obtain ⟨r, r', hfind, hadv, rfl⟩ := withRegion_eq_ok_iff.1 h
  exact ⟨r, r', hfind, hadv, rfl⟩

/-! ### Refusals -/

theorem Valid.handOut_clean (h : heap.Valid) (id : RegionId) (piece : Extent) :
    (heap.handOut id piece).Clean heap := by
  refine h.withRegion_clean fun r _ => ?_
  split
  case h_1 => exact rfl
  case h_2 index _ => exact Region.handOut_clean r index piece

theorem Valid.takeBack_clean (h : heap.Valid) (id : RegionId) (piece : Extent) :
    (heap.takeBack id piece).Clean heap :=
  h.withRegion_clean fun r _ => Region.takeBack_clean r piece

theorem Valid.advance_clean (h : heap.Valid) (id : RegionId) (piece : Extent) :
    (heap.advance id piece).Clean heap :=
  h.withRegion_clean fun r _ => Region.advance_clean r piece.stop

/-! ### Undoing -/

/-- The region that was put into the place of another is found under its identity. -/
theorem Valid.region?_setRegion (h : heap.Valid) {r r' : Region} (hr : r ∈ heap.regions)
    (hrep : r'.Replaces r) : (heap.setRegion r').region? r.id = some r' := by
  have := (h.setRegion hr hrep).region?_id (mem_setRegion hr hrep.id)
  rwa [hrep.id] at this

/-- All other regions are found as before. -/
theorem region?_setRegion_of_ne {r' : Region} (h : id ≠ r'.id) :
    (heap.setRegion r').region? id = heap.region? id := by
  simp only [region?, setRegion]
  induction heap.regions with
  | nil => rfl
  | cons r rest ih =>
      rw [List.map_cons, List.find?_cons, List.find?_cons, ih]
      by_cases hsame : r.id = r'.id
      · simp [hsame, beq_eq_false_iff_ne.2 (Ne.symm h)]
      · simp [hsame]

/-- **Taking back what was handed out restores the heap.** -/
theorem Valid.takeBack_handOut (h : heap.Valid) {s : Span}
    (hout : heap.handOut id piece = .ok s heap') : heap'.takeBack id piece = .ok () heap := by
  obtain ⟨r, r', index, hfind, hrout, rfl⟩ := handOut_eq_ok hout
  obtain ⟨hr, rfl⟩ := region?_eq_some hfind
  have hrep := Region.handOut_replaces (h.regions r hr) hrout
  have hback := Region.takeBack_handOut (h.regions r hr) hrout
  exact withRegion_eq_ok_iff.2 ⟨r', r, h.region?_setRegion hr hrep, hback,
    (h.setRegion_setRegion hr hrep.id).symm⟩

/-- **A header that retreats right after it advanced restores the heap.** -/
theorem Valid.retreat_advance (h : heap.Valid) {move : HeaderMove}
    (hadv : heap.advance id piece = .ok move heap') :
    heap'.retreat id move piece = .ok () heap := by
  obtain ⟨r, r', hfind, hradv, rfl⟩ := advance_eq_ok hadv
  obtain ⟨hr, rfl⟩ := region?_eq_some hfind
  have hrep := Region.advance_replaces (h.regions r hr) hradv
  have hback := Region.retreat_advance (h.regions r hr) hradv
  exact withRegion_eq_ok_iff.2 ⟨r', r, h.region?_setRegion hr hrep, hback,
    (h.setRegion_setRegion hr hrep.id).symm⟩

theorem Valid.handOut (h : heap.Valid) {s : Span}
    (hout : heap.handOut id piece = .ok s heap') : heap'.Valid := by
  obtain ⟨r, r', index, hfind, hrout, rfl⟩ := handOut_eq_ok hout
  obtain ⟨hr, rfl⟩ := region?_eq_some hfind
  exact h.setRegion hr (Region.handOut_replaces (h.regions r hr) hrout)

theorem Valid.advance (h : heap.Valid) {move : HeaderMove}
    (hadv : heap.advance id piece = .ok move heap') : heap'.Valid := by
  obtain ⟨r, r', hfind, hradv, rfl⟩ := advance_eq_ok hadv
  obtain ⟨hr, rfl⟩ := region?_eq_some hfind
  exact h.setRegion hr (Region.advance_replaces (h.regions r hr) hradv)

end Staging.Heap

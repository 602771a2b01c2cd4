import Mathlib.Algebra.GroupWithZero.Nat
import Staging.Proofs.Heap.Accounts

/-!
# Heaps that lent memory

A heap that lent memory is what grants, one after the other, left of an origin (`Heap.Lent`).  The
regions lend by handing out and by advancing a header (`Heap.Lends`).  A block of the firmware
takes nothing from the heap, but it is granted only off all regions of the origin and off the
other blocks.

* `Lent.accounts`: there is an account between each region of the origin and what is left of it.
* `Lent.claims_apart`: no two loans took the same memory.
* `Lent.freeBytes`: the free bytes went down by what the loans cost.
-/

namespace Staging.Heap

/-- A region of the heap grants a loan. -/
inductive Lends (heap : Heap) : Loan → Heap → Prop where
  | body {id : RegionId} {piece : Extent} {s : Span} {heap' : Heap}
      (h : heap.handOut id piece = .ok s heap') : Lends heap ⟨.regionBody id, piece⟩ heap'
  | head {id : RegionId} {piece : Extent} {m : HeaderMove} {heap' : Heap}
      (h : heap.advance id piece = .ok m heap') (hlo : m.oldBase ≤ piece.start)
      (hne : piece.start < piece.stop) : Lends heap ⟨.regionHead id m, piece⟩ heap'

/-- What is left of the origin after loans, newest first. -/
inductive Lent (origin : Heap) : List Loan → Heap → Prop where
  | none : Lent origin [] origin
  | region {loans : List Loan} {loan : Loan} {heap heap' : Heap} (h : Lent origin loans heap)
      (hloan : heap.Lends loan heap') : Lent origin (loan :: loans) heap'
  | firmware {loans : List Loan} {block : Extent} {heap : Heap} (h : Lent origin loans heap)
      (hne : block.start < block.stop) (hregions : ∀ r ∈ origin.regions, r.extent.Apart block)
      (hblocks : ∀ other ∈ loans.filterMap (·.block?), other.Apart block) :
      Lent origin (⟨.firmware, block⟩ :: loans) heap

/-! ### One grant -/

/-- The account of a piece that was handed out. -/
theorem account_handOut {r r' : Region} {index : Nat} {piece : Extent} {s : Span} (hr : r.Valid)
    (h : r.handOut index piece = .ok s r') :
    Region.Account [⟨.regionBody r.id, piece⟩] r r' where
  replaces := Region.handOut_replaces hr h
  used := by simpa [Loan.body?] using (Region.handOut_spec hr h).2.2.2.2
  chain := by
    obtain ⟨hr', -, hbase, -⟩ := Region.handOut_spec hr h
    have hhead : r.head = r'.head := Option.some.inj (hr.head.symm.trans (hbase ▸ hr'.head))
    simpa [Loan.move?] using And.intro hbase.symm hhead

/-- The account of a header that advanced. -/
theorem account_advance {r r' : Region} {piece : Extent} {newBase : Nat} {m : HeaderMove}
    (hr : r.Valid) (h : r.advance newBase = .ok m r') :
    Region.Account [⟨.regionHead r.id m, piece⟩] r r' where
  replaces := Region.advance_replaces hr h
  used := by
    obtain ⟨-, -, -, -, -, -, hused⟩ := Region.advance_spec hr h
    simp [Loan.body?, hused]
  chain := by
    obtain ⟨rfl, hr', -, rfl, -, hlt, -⟩ := Region.advance_spec hr h
    have hle : r.head ≤ r'.head := by
      have := (Region.ceilTo?_headerAlign.1 hr.head).2
      have := (Region.ceilTo?_headerAlign.1 hr'.head).2
      omega
    simpa [Loan.move?] using And.intro hlt hle

/-- **A grant** replaces one region, the lender, and the account between the two regions has the
loan as its only entry. -/
theorem Lends.account {heap heap' : Heap} {loan : Loan} (hv : heap.Valid)
    (h : heap.Lends loan heap') :
    ∃ r ∈ heap.regions, ∃ r', heap' = heap.setRegion r' ∧ loan.region? = some r.id ∧
      Region.Account [loan] r r' := by
  cases h with
  | body h =>
      obtain ⟨r, r', index, hfind, hout, rfl⟩ := handOut_eq_ok h
      obtain ⟨hr, rfl⟩ := region?_eq_some hfind
      exact ⟨r, hr, r', rfl, rfl, account_handOut (hv.regions r hr) hout⟩
  | head h _ _ =>
      obtain ⟨r, r', hfind, hadv, rfl⟩ := advance_eq_ok h
      obtain ⟨hr, rfl⟩ := region?_eq_some hfind
      exact ⟨r, hr, r', rfl, rfl, account_advance (hv.regions r hr) hadv⟩

theorem Lends.valid {heap heap' : Heap} {loan : Loan} (hv : heap.Valid)
    (h : heap.Lends loan heap') : heap'.Valid := by
  obtain ⟨r, hr, r', rfl, -, hacc⟩ := h.account hv
  exact hv.setRegion hr hacc.replaces

/-- A grant has a byte, and is claimed as a whole. -/
theorem Lends.claimed_covers {heap heap' : Heap} {loan : Loan} (hv : heap.Valid)
    (h : heap.Lends loan heap') :
    loan.extent.start < loan.extent.stop ∧ loan.claimed.covers loan.extent = true := by
  obtain ⟨r, -, r', -, hregion, hacc⟩ := h.account hv
  have hmem : loan ∈ [loan] := List.mem_cons_self
  cases h with
  | body h =>
      obtain rfl := Option.some.inj hregion
      have := hacc.replaces.valid.used_bounds (hacc.mem_used hmem rfl)
      rw [Loan.claimed_of_regionBody rfl]
      exact ⟨this.2.1, Extent.covers_iff.2 ⟨Nat.le_refl _, Nat.le_refl _⟩⟩
  | head h hlo hne =>
      obtain rfl := Option.some.inj hregion
      obtain ⟨hstart, hstop, -⟩ := hacc.claimed_bounds hmem rfl
      obtain ⟨r₁, _, hfind, hadv, -⟩ := advance_eq_ok h
      have hm := (Region.advance_spec (hv.regions r₁ (region?_eq_some hfind).1) hadv).1
      have hnew := congrArg HeaderMove.newBase hm
      exact ⟨hne, Extent.covers_iff.2 ⟨Nat.le_trans (Nat.le_of_eq hstart) hlo,
        Nat.le_of_eq (hnew.symm.trans hstop.symm)⟩⟩

theorem Lends.block?_eq_none {heap heap' : Heap} {loan : Loan} (h : heap.Lends loan heap') :
    loan.block? = none := by
  cases h <;> rfl

/-- A grant leaves the bases of the regions alone, or moves one of them up to the end of the
loan. -/
theorem Lends.base {heap heap' : Heap} {loan : Loan} (hv : heap.Valid)
    (h : heap.Lends loan heap') {r' : Region} (hr' : r' ∈ heap'.regions) :
    ∃ r ∈ heap.regions, r.id = r'.id ∧ (r'.base = r.base ∨ r'.base = loan.extent.stop) := by
  have changed {r new : Region} (hr : r ∈ heap.regions) (hid : new.id = r.id)
      (hmem : r' ∈ (heap.setRegion new).regions)
      (hbase : new.base = r.base ∨ new.base = loan.extent.stop) :
      ∃ r ∈ heap.regions, r.id = r'.id ∧ (r'.base = r.base ∨ r'.base = loan.extent.stop) := by
    obtain ⟨a, ha, hsame⟩ := List.mem_map.1 hmem
    split at hsame
    case isTrue =>
      subst hsame
      exact ⟨r, hr, hid.symm, hbase⟩
    case isFalse =>
      subst hsame
      exact ⟨a, ha, rfl, .inl rfl⟩
  cases h with
  | body h =>
      obtain ⟨r, new, index, hfind, hout, rfl⟩ := handOut_eq_ok h
      obtain ⟨hr, rfl⟩ := region?_eq_some hfind
      obtain ⟨-, hid, hbase, -⟩ := Region.handOut_spec (hv.regions r hr) hout
      exact changed hr hid hr' (.inl hbase)
  | head h _ _ =>
      obtain ⟨r, new, hfind, hadv, rfl⟩ := advance_eq_ok h
      obtain ⟨hr, rfl⟩ := region?_eq_some hfind
      obtain ⟨-, -, hid, hbase, -⟩ := Region.advance_spec (hv.regions r hr) hadv
      exact changed hr hid hr' (.inr hbase)

/-- A loan says what the heap did to grant it. -/
theorem Lends.unique {heap heap₁ heap₂ : Heap} {loan : Loan} (h₁ : heap.Lends loan heap₁)
    (h₂ : heap.Lends loan heap₂) : heap₁ = heap₂ := by
  cases h₁ with
  | body h₁ =>
      cases h₂ with
      | body h₂ =>
          cases h₁.symm.trans h₂
          rfl
  | head h₁ _ _ =>
      cases h₂ with
      | head h₂ _ _ =>
          cases h₁.symm.trans h₂
          rfl

/-- The account of one loan of a region says what the loan cost. -/
theorem cost_of_account {r r' : Region} {loan : Loan} (hr : r.Valid)
    (h : Region.Account [loan] r r') (hregion : loan.region? = some r.id) :
    r'.freeBytes + loan.cost = r.freeBytes := by
  have hfree := h.freeBytes hr
  have hchain := h.chain
  obtain ⟨lender, extent⟩ := loan
  cases lender with
  | firmware => simp [Loan.region?] at hregion
  | regionBody id =>
      obtain rfl : id = r.id := by simpa [Loan.region?] using hregion
      simp only [List.reverse_singleton, List.filterMap_cons, Loan.move?, List.filterMap_nil,
        HeaderMove.Chain] at hchain
      simp only [List.filterMap_cons, Loan.body?, List.filterMap_nil, if_true, Extent.total_cons,
        Extent.total_nil] at hfree
      simp only [Loan.cost]
      omega
  | regionHead id m =>
      obtain rfl : id = r.id := by simpa [Loan.region?] using hregion
      simp only [List.reverse_singleton, List.filterMap_cons, Loan.move?, List.filterMap_nil,
        if_true, HeaderMove.Chain] at hchain
      simp only [List.filterMap_cons, Loan.body?, List.filterMap_nil,
        Extent.total_nil] at hfree
      simp only [Loan.cost]
      omega

/-- The free bytes of regions of which one was replaced. -/
theorem sum_freeBytes_replace {regions : List Region} {r r' : Region} (hr : r ∈ regions)
    (hunique : (regions.map (·.id)).Nodup) :
    regions.foldr (fun s n => (if s.id == r.id then r' else s).freeBytes + n) 0 + r.freeBytes =
      regions.foldr (fun s n => s.freeBytes + n) 0 + r'.freeBytes := by
  induction regions with
  | nil => cases hr
  | cons a rest ih =>
      obtain ⟨hnew, hunique⟩ := List.nodup_cons.1 hunique
      rw [List.foldr_cons, List.foldr_cons]
      rcases List.mem_cons.1 hr with rfl | hr
      · have hrest : rest.foldr (fun s n => (if s.id == r.id then r' else s).freeBytes + n) 0 =
            rest.foldr (fun s n => s.freeBytes + n) 0 := by
          refine List.foldr_ext _ _ _ fun s hs n => ?_
          have : s.id ≠ r.id := fun hsame => hnew (List.mem_map.2 ⟨s, hs, hsame⟩)
          rw [if_neg (by simpa using this)]
        rw [if_pos (beq_self_eq_true _), hrest]
        omega
      · have hother : a.id ≠ r.id := fun hsame => hnew (List.mem_map.2 ⟨r, hr, hsame.symm⟩)
        have := ih hr hunique
        rw [if_neg (by simpa using hother)]
        omega

theorem freeBytes_setRegion {heap : Heap} (hv : heap.Valid) {r r' : Region}
    (hr : r ∈ heap.regions) (hid : r'.id = r.id) :
    (heap.setRegion r').freeBytes + r.freeBytes = heap.freeBytes + r'.freeBytes := by
  simp only [freeBytes, setRegion, List.foldr_map, hid]
  exact sum_freeBytes_replace hr hv.unique

/-! ### All grants -/

namespace Lent

variable {origin heap : Heap} {loans : List Loan}

theorem valid (h : Lent origin loans heap) (hv : origin.Valid) : heap.Valid := by
  induction h with
  | none => exact hv
  | region _ hloan ih => exact hloan.valid ih
  | firmware _ _ _ _ ih => exact ih

/-- What is left of an origin is frozen only if the origin is. -/
theorem frozen (h : Lent origin loans heap) (hv : origin.Valid) : heap.frozen = origin.frozen := by
  induction h with
  | none => rfl
  | region h hgrant ih =>
      obtain ⟨r, -, r', rfl, -⟩ := hgrant.account (h.valid hv)
      exact ih
  | firmware _ _ _ _ ih => exact ih

/-- **The loans determine what is left of the origin.** -/
theorem unique {heap' : Heap} (h : Lent origin loans heap) (h' : Lent origin loans heap') :
    heap = heap' := by
  induction h generalizing heap' with
  | none =>
      cases h'
      rfl
  | region _ hloan ih =>
      cases h' with
      | region h' hloan' =>
          obtain rfl := ih h'
          exact hloan.unique hloan'
      | firmware => cases hloan
  | firmware _ _ _ _ ih =>
      cases h' with
      | region _ hloan' => cases hloan'
      | firmware h' _ _ _ => exact ih h'

/-- **There is an account** between each region of the origin and what is left of it. -/
theorem accounts (h : Lent origin loans heap) (hv : origin.Valid) :
    List.Forall₂ (Region.Account loans) origin.regions heap.regions := by
  induction h with
  | none => exact List.forall₂_same.2 fun r hr => .refl (hv.regions r hr)
  | region h hloan ih =>
      obtain ⟨r, hr, r', rfl, hregion, hacc⟩ := hloan.account (h.valid hv)
      refine (h.valid hv).forall₂_setRegion ih hr hacc.replaces.id ?_ ?_
      · exact fun r₀ _ h₀ => h₀.append hacc
      · intro r₀ _ b _ hb h₀
        have hid := h₀.replaces.id
        exact h₀.other (by simp [hregion, ← hid, Ne.symm hb])
  | firmware _ _ _ _ ih => exact ih.imp fun r₀ r h₀ => h₀.other (by simp [Loan.region?])

/-- The lender of a piece is a region of the origin. -/
theorem exists_region (h : Lent origin loans heap) (hv : origin.Valid) {loan : Loan}
    (hloan : loan ∈ loans) {id : RegionId} (hid : loan.region? = some id) :
    ∃ r₀ ∈ origin.regions, r₀.id = id := by
  induction h with
  | none => cases hloan
  | region h hgrant ih =>
      rcases List.mem_cons.1 hloan with rfl | hloan
      · obtain ⟨r, hr, -, -, hregion, -⟩ := hgrant.account (h.valid hv)
        obtain ⟨r₀, hr₀, hacc⟩ := exists_of_forall₂_right (h.accounts hv) hr
        cases hid.symm.trans hregion
        exact ⟨r₀, hr₀, hacc.replaces.id.symm⟩
      · exact ih hloan
  | firmware _ _ _ _ ih =>
      rcases List.mem_cons.1 hloan with rfl | hloan
      · simp [Loan.region?] at hid
      · exact ih hloan

/-- No block of the firmware touches a region as it was. -/
theorem blocks_apart (h : Lent origin loans heap) {loan : Loan} (hloan : loan ∈ loans)
    (hfw : loan.lender = .firmware) : ∀ r ∈ origin.regions, r.extent.Apart loan.extent := by
  induction h with
  | none => cases hloan
  | region _ hgrant ih =>
      rcases List.mem_cons.1 hloan with rfl | hloan
      · cases hgrant <;> simp at hfw
      · exact ih hloan
  | firmware _ _ hregions _ ih =>
      rcases List.mem_cons.1 hloan with rfl | hloan
      · exact hregions
      · exact ih hloan

theorem account_of_mem (h : Lent origin loans heap) (hv : origin.Valid) {r₀ : Region}
    (hr₀ : r₀ ∈ origin.regions) : ∃ r ∈ heap.regions, Region.Account loans r₀ r :=
  exists_of_forall₂_right (h.accounts hv).flip hr₀

/-- A loan of the heap lies inside of the region that granted it, as that was at the origin. -/
theorem claimed_inside (h : Lent origin loans heap) (hv : origin.Valid) {loan : Loan}
    (hloan : loan ∈ loans) {id : RegionId} (hid : loan.region? = some id) :
    ∃ r₀ ∈ origin.regions, r₀.id = id ∧
      r₀.base ≤ loan.claimed.start ∧ loan.claimed.stop ≤ r₀.stop := by
  obtain ⟨r₀, hr₀, rfl⟩ := h.exists_region hv hloan hid
  obtain ⟨r, -, hacc⟩ := h.account_of_mem hv hr₀
  exact ⟨r₀, hr₀, rfl, hacc.claimed_inside hloan hid⟩

/-- What is apart from every region of the origin is apart from what these lent. -/
theorem claimed_apart_of_regions (h : Lent origin loans heap) (hv : origin.Valid) {loan : Loan}
    (hloan : loan ∈ loans) {id : RegionId} (hid : loan.region? = some id) {e : Extent}
    (he : ∀ r ∈ origin.regions, r.extent.Apart e) : loan.claimed.Apart e := by
  obtain ⟨r₀, hr₀, -, hinside⟩ := h.claimed_inside hv hloan hid
  have hbounds := (hv.regions r₀ hr₀).extent_bounds
  exact (he r₀ hr₀).mono (by omega) ⟨Nat.le_refl _, Nat.le_refl _⟩

/-- **No two loans took the same memory.** -/
theorem claims_apart (h : Lent origin loans heap) (hv : origin.Valid) :
    loans.Pairwise fun a b => a.claimed.Apart b.claimed := by
  induction h with
  | none => exact .nil
  | @region loans loan heap heap' h hgrant ih =>
      refine .cons (fun other hother => ?_) ih
      have hnew : Lent origin (loan :: loans) heap' := .region h hgrant
      obtain ⟨r, -, -, -, hregion, -⟩ := hgrant.account (h.valid hv)
      cases hregion' : other.region? with
      | none =>
          have hfw := Loan.region?_eq_none_iff.1 hregion'
          rw [Loan.claimed_of_firmware hfw]
          exact hnew.claimed_apart_of_regions hv List.mem_cons_self hregion
            (h.blocks_apart hother hfw)
      | some id =>
          obtain ⟨r₀, hr₀, hid, hinside⟩ := hnew.claimed_inside hv List.mem_cons_self hregion
          by_cases hsame : id = r.id
          -- Two loans of one region are apart by its account, those of two by their regions.
          · obtain ⟨_, -, hacc⟩ := hnew.account_of_mem hv hr₀
            exact hacc.claimed_apart hother (hid ▸ hregion) (hid ▸ hsame ▸ hregion')
          · obtain ⟨s₀, hs₀, hid', hinside'⟩ := h.claimed_inside hv hother hregion'
            have hne : r₀.id ≠ s₀.id := fun heq => hsame (hid'.symm.trans (heq.symm.trans hid))
            have := hv.stop_le_or hr₀ hs₀ hne
            simp only [Extent.Apart]
            omega
  | @firmware loans block heap h _ hregions hblocks ih =>
      refine .cons (fun other hother => ?_) ih
      rw [Loan.claimed_of_firmware rfl]
      cases hregion' : other.region? with
      | none =>
          have hfw := Loan.region?_eq_none_iff.1 hregion'
          rw [Loan.claimed_of_firmware hfw]
          exact (hblocks _ (List.mem_filterMap.2
            ⟨other, hother, Loan.block?_eq_some_iff.2 ⟨hfw, rfl⟩⟩)).symm
      | some id => exact (h.claimed_apart_of_regions hv hother hregion' hregions).symm

/-- **The free bytes went down by what the loans cost.** -/
theorem freeBytes (h : Lent origin loans heap) (hv : origin.Valid) :
    heap.freeBytes + (loans.map (·.cost)).sum = origin.freeBytes := by
  induction h with
  | none => rfl
  | @region loans loan heap _ h hgrant ih =>
      have hvalid := h.valid hv
      obtain ⟨r, hr, r', rfl, hregion, hacc⟩ := hgrant.account hvalid
      have hset := freeBytes_setRegion hvalid hr hacc.replaces.id
      have hcost := cost_of_account (hvalid.regions r hr) hacc hregion
      simp only [List.map_cons, List.sum_cons]
      omega
  | firmware _ _ _ _ ih => simpa [Loan.cost] using ih

/-- Every loan has a byte, and was claimed as a whole. -/
theorem claimed_covers (h : Lent origin loans heap) (hv : origin.Valid) {loan : Loan}
    (hloan : loan ∈ loans) :
    loan.extent.start < loan.extent.stop ∧ loan.claimed.covers loan.extent = true := by
  induction h with
  | none => cases hloan
  | @region loans loan' heap heap' h hgrant ih =>
      rcases List.mem_cons.1 hloan with rfl | hloan
      · exact hgrant.claimed_covers (h.valid hv)
      · exact ih hloan
  | firmware _ hne _ _ ih =>
      rcases List.mem_cons.1 hloan with rfl | hloan
      · rw [Loan.claimed_of_firmware rfl]
        exact ⟨hne, Extent.covers_iff.2 ⟨Nat.le_refl _, Nat.le_refl _⟩⟩
      · exact ih hloan

end Lent

end Staging.Heap

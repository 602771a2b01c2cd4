import Staging.Proofs.Heap.Lent

/-!
# What is allocated of a heap

The allocated extents of a heap are those of the bodies of all its regions (`Heap.used`).  They lie
in address order (`Valid.used_pairwise`), so no two of them start at one address.  Putting a region
into the place of another changes them by what the region allocates more (`Valid.used_setRegion`),
and from this follows what one step does to them:

* `allocate_spec`: an allocation adds an extent of the requested length at the address it yields.
* `deallocate_spec`: a deallocation takes away the extent at its address.
* `addRegion_spec`: a new region allocates nothing, and has the next identity.
* `Lent.used`: loans add the pieces that were lent out of bodies.
-/

namespace Staging

/-- Where an extent lies: its lowest address and its length. -/
def Extent.place (e : Extent) : Nat × Nat := (e.start, e.length)

/-- The piece of a loan, if it was lent out of a body. -/
def Loan.piece? (loan : Loan) : Option Extent :=
  match loan.lender with
  | .regionBody _ => some loan.extent
  | _ => none

/-- A region lent the same piece as the account of the region says. -/
theorem Loan.body?_eq_piece? {loan : Loan} {id : RegionId} (h : loan.region? = some id) :
    loan.body? id = loan.piece? := by
  obtain ⟨lender, extent⟩ := loan
  cases lender <;> simp_all [region?, body?, piece?]

namespace Region

open Staging.Span (used)

/-- A region starts with nothing allocated. -/
theorem used_create {id : RegionId} {extent : Extent} {r : Region}
    (h : create id extent = .ok r) : used r.spans = [] := by
  unfold create at h
  split at h
  case h_1 => contradiction
  case h_2 head _ =>
    split at h
    case isFalse => contradiction
    case isTrue hle =>
      cases h
      exact (Span.freeBetween_spec hle extent.stop_lt).2.1

/-- Where an allocation fits first, it has its length. -/
theorem length_of_firstFit? {r : Region} {size align index : Nat} {piece : Extent}
    (h : r.firstFit? size align = some (index, piece)) : piece.length = size := by
  unfold firstFit? at h
  obtain ⟨⟨s, k⟩, -, h⟩ := List.exists_of_findSome?_eq_some h
  dsimp only at h
  split at h
  case isFalse => contradiction
  case isTrue =>
    simp only [Option.bind_eq_bind, Option.bind_eq_some_iff] at h
    obtain ⟨start, -, piece', hpiece, h⟩ := h
    split at h
    case isFalse => contradiction
    case isTrue =>
      cases h
      obtain ⟨hstart, hstop⟩ := Extent.ofLength?_eq_some_iff.1 hpiece
      simp only [Extent.length]
      omega

/-- An allocation adds one extent. -/
theorem allocate_spec {r r' : Region} {size align address : Nat} (hr : r.Valid)
    (h : r.allocate size align = .ok address r') :
    ∃ piece : Extent, piece.place = (address, size) ∧
      (used r'.spans).Perm (piece :: used r.spans) := by
  obtain ⟨index, piece, s, hfit, hout, rfl⟩ := allocate_eq_ok h
  obtain ⟨t, -, -, -, -, rfl, -⟩ := handOut_eq_ok hout
  exact ⟨piece, Prod.ext rfl (length_of_firstFit? hfit), (handOut_spec hr hout).2.2.2.2⟩

/-- A deallocation takes away the extent at its address. -/
theorem deallocate_spec {r r' : Region} {address : Nat} (hr : r.Valid)
    (h : r.deallocate address = .ok () r') :
    r'.Replaces r ∧ ∃ piece : Extent, piece.start = address ∧
      (used r.spans).Perm (piece :: used r'.spans) := by
  rcases deallocate_or r address with ⟨e, he, hstart, htake⟩ | hnone
  · obtain ⟨r'', hback, -, -, -, -, hperm⟩ := takeBack_spec hr he
    cases (htake ▸ h).symm.trans hback
    exact ⟨takeBack_replaces hr hback, e, hstart, hperm⟩
  · rw [hnone] at h
    contradiction

end Region

namespace Heap

variable {heap heap' : Heap}

/-- The extents of the allocated spans of all regions. -/
def used (heap : Heap) : List Extent :=
  heap.regions.flatMap fun r => Span.used r.spans

/-- The identities of the regions. -/
def ids (heap : Heap) : List RegionId :=
  heap.regions.map (·.id)

/-- **The allocated extents** of a heap lie in address order. -/
theorem Valid.used_pairwise (h : heap.Valid) :
    heap.used.Pairwise fun a b => a.start < b.start := by
  refine List.pairwise_flatMap.2 ⟨fun r hr => ?_, ?_⟩
  · have hr := h.regions r hr
    refine hr.tile.used_pairwise.imp_of_mem fun {a b} ha _ hab => ?_
    exact Nat.lt_of_lt_of_le (hr.used_bounds ha).2.1 hab
  · refine h.ordered.imp_of_mem fun {r r'} hr hr' hle a ha b hb => ?_
    have := (h.regions r hr).used_bounds ha
    have := (h.regions r' hr').used_bounds hb
    have := (h.regions r' hr').bounds
    omega

theorem Valid.used_starts (h : heap.Valid) : heap.used.Pairwise (·.start ≠ ·.start) :=
  h.used_pairwise.imp Nat.ne_of_lt

/-! ### A region in the place of another -/

@[simp] theorem ids_setRegion (r : Region) : (heap.setRegion r).ids = heap.ids := by
  simp only [ids, setRegion, List.map_map]
  refine List.map_congr_left fun a _ => ?_
  by_cases h : a.id = r.id <;> simp [h]

/-- The regions around one of them stay when it is replaced. -/
theorem Valid.regions_setRegion (h : heap.Valid) {before after : List Region} {r r' : Region}
    (hsplit : heap.regions = before ++ r :: after) (hid : r'.id = r.id) :
    (heap.setRegion r').regions = before ++ r' :: after := by
  have hunique := h.unique
  rw [hsplit, List.map_append, List.map_cons, List.nodup_middle, List.nodup_cons,
    ← List.map_append] at hunique
  have keeps {a : Region} (ha : a ∈ before ++ after) :
      (if a.id == r'.id then r' else a) = a := by
    have hne : a.id ≠ r.id := fun hsame => hunique.1 (List.mem_map.2 ⟨a, ha, hsame⟩)
    rw [if_neg (by simpa [hid] using hne)]
  have hbefore := List.map_congr_left fun a ha => keeps (List.mem_append_left after ha)
  have hafter := List.map_congr_left fun a ha => keeps (List.mem_append_right before ha)
  rw [List.map_id'] at hbefore hafter
  rw [Heap.setRegion, hsplit, List.map_append, List.map_cons, hbefore, hafter,
    if_pos (by simp [hid])]

/-- **A region that allocates more** than the one whose place it takes adds just that. -/
theorem Valid.used_setRegion (h : heap.Valid) {r r' : Region} (hr : r ∈ heap.regions)
    (hid : r'.id = r.id) {more : List Extent}
    (hused : (Span.used r'.spans).Perm (more ++ Span.used r.spans)) :
    (heap.setRegion r').used.Perm (more ++ heap.used) := by
  obtain ⟨before, after, hsplit⟩ := List.append_of_mem hr
  rw [used, used, hsplit, h.regions_setRegion hsplit hid, List.flatMap_append,
    List.flatMap_append, List.flatMap_cons, List.flatMap_cons]
  refine ((hused.append_right _).append_left _).trans ?_
  rw [List.append_assoc]
  exact List.perm_append_comm_assoc _ _ _

/-! ### Steps of a loader -/

/-- A region that is added has the next identity, and allocates nothing. -/
theorem addRegion_spec {extent : Extent} {id : RegionId}
    (h : heap.addRegion extent = .ok id heap') :
    id = heap.nextId ∧ heap'.nextId.number = heap.nextId.number + 1 ∧
      heap'.ids.Perm (id :: heap.ids) ∧ heap'.used.Perm heap.used := by
  obtain ⟨-, -, region, nextId, hcreate, hnext, rfl, rfl⟩ := addRegion_eq_ok_iff.1 h
  have hperm := perm_insertRegion region heap.regions
  have hused := hperm.flatMap_right fun r => Span.used r.spans
  rw [List.flatMap_cons, Region.used_create hcreate, List.nil_append] at hused
  have hids := hperm.map (·.id)
  rw [List.map_cons, (Region.create_valid hcreate).2.1] at hids
  exact ⟨rfl, RegionId.next_eq_ok_iff.1 hnext, hids, hused⟩

theorem allocateIn_spec {size align address : Nat} {regions regions' : List Region}
    (hvalid : ∀ r ∈ regions, r.Valid)
    (h : allocateIn size align regions = .ok address regions') :
    ∃ piece : Extent, piece.place = (address, size) ∧
      (regions'.flatMap fun r => Span.used r.spans).Perm
        (piece :: regions.flatMap fun r => Span.used r.spans) := by
  obtain ⟨before, r, r', after, rfl, rfl, hr, -⟩ := allocateIn_eq_ok h
  obtain ⟨piece, hplace, hperm⟩ := Region.allocate_spec (hvalid r (by simp)) hr
  refine ⟨piece, hplace, ?_⟩
  simp only [List.flatMap_append, List.flatMap_cons]
  exact ((hperm.append_right _).append_left _).trans List.perm_middle

/-- An allocation has at least one byte, and is the only change. -/
theorem allocate_spec {size align address : Nat} (hv : heap.Valid)
    (h : heap.allocate size align = .ok address heap') :
    ∃ piece : Extent, piece.place = (address, max size 1) ∧
      heap'.nextId = heap.nextId ∧ heap'.ids = heap.ids ∧
      heap'.used.Perm (piece :: heap.used) := by
  obtain ⟨-, regions, hin, rfl⟩ := allocate_eq_ok h
  obtain ⟨piece, hplace, hperm⟩ := allocateIn_spec hv.regions hin
  have hids := map_id_eq ((allocateIn_replaces hv.regions hin).imp fun _ _ hrep => hrep.id)
  exact ⟨piece, hplace, rfl, hids, hperm⟩

/-- A deallocation takes away what starts at its address, and is the only change. -/
theorem deallocate_spec {address : Nat} (hv : heap.Valid)
    (h : heap.deallocate address = .ok () heap') :
    heap'.nextId = heap.nextId ∧ heap'.ids = heap.ids ∧
      heap'.used.Perm (heap.used.filter (·.start ≠ address)) := by
  obtain ⟨-, r, r', hfind, hfree, rfl⟩ := deallocate_eq_ok h
  have hr := List.mem_of_find?_eq_some hfind
  obtain ⟨hrep, piece, rfl, hperm⟩ := Region.deallocate_spec (hv.regions r hr) hfree
  -- Seen from the heap after it, the region before it allocates one extent more.
  have hback := (hv.setRegion hr hrep).used_setRegion (mem_setRegion hr hrep.id) hrep.id.symm
    (show (Span.used r.spans).Perm ([piece] ++ Span.used r'.spans) from hperm)
  rw [hv.setRegion_setRegion hr hrep.id] at hback
  have hother : ∀ e ∈ (heap.setRegion r').used, piece.start ≠ e.start :=
    (List.pairwise_cons.1 ((hback.pairwise_iff Ne.symm).1 hv.used_starts)).1
  have hkeeps : (heap.setRegion r').used.filter (·.start ≠ piece.start) =
      (heap.setRegion r').used :=
    List.filter_eq_self.2 fun e he => by simpa using (hother e he).symm
  have hfilter := hback.filter (·.start ≠ piece.start)
  rw [List.singleton_append, List.filter_cons_of_neg (by simp), hkeeps] at hfilter
  exact ⟨rfl, ids_setRegion r', hfilter.symm⟩

/-! ### Loans -/

variable {origin : Heap} {loans : List Loan}

/-- **Loans add** the pieces that were lent out of bodies to what is allocated. -/
theorem Lent.used (h : Lent origin loans heap) (hv : origin.Valid) :
    heap.used.Perm (loans.filterMap (·.piece?) ++ origin.used) := by
  induction h with
  | none => exact .refl _
  | region h hgrant ih =>
      have hvalid := h.valid hv
      obtain ⟨r, hr, r', rfl, hregion, hacc⟩ := hgrant.account hvalid
      have hgrown := hvalid.used_setRegion hr hacc.replaces.id hacc.used
      rw [List.filterMap_cons, List.filterMap_nil, Loan.body?_eq_piece? hregion] at hgrown
      refine hgrown.trans ((ih.append_left _).trans ?_)
      rw [← List.append_assoc, List.filterMap_cons]
      split <;> exact .refl _
  | firmware _ _ _ _ ih => exact ih

/-- Loans neither add regions nor use up identities. -/
theorem Lent.ids (h : Lent origin loans heap) (hv : origin.Valid) :
    heap.nextId = origin.nextId ∧ heap.ids = origin.ids := by
  induction h with
  | none => exact ⟨rfl, rfl⟩
  | region h hgrant ih =>
      obtain ⟨r, -, r', rfl, -⟩ := hgrant.account (h.valid hv)
      exact ⟨ih.1, (ids_setRegion r').trans ih.2⟩
  | firmware _ _ _ _ ih => exact ih

end Heap

end Staging

import Mathlib.Data.List.Forall2
import Mathlib.Data.List.Nodup
import Staging.Heap.Operation
import Staging.Proofs.Heap.Region
import Staging.Proofs.Outcome

/-!
# Valid heaps

The regions of a valid heap are valid, lie in address order without overlap, and have identities
of their own that the heap has handed out (`Heap.Valid`).  The heap of a loader is valid after any
operations (`Valid.perform`), since each of them either puts regions into the places of others
(`Region.Replaces`) or adds one where there was none.
-/

namespace Staging

/-- What holds in order of the members of a list holds of any two of them, in one of the orders. -/
theorem rel_or_rel_of_pairwise {α : Type} {R : α → α → Prop} {l : List α} (h : l.Pairwise R)
    {a b : α} (ha : a ∈ l) (hb : b ∈ l) (hne : a ≠ b) : R a b ∨ R b a := by
  let Either (a b : α) : Prop := R a b ∨ R b a
  have : Std.Symm Either := ⟨fun _ _ => Or.symm⟩
  have heither : l.Pairwise Either := h.imp Or.inl
  exact heither.forall ha hb hne

/-- The region may stand in the place of `r`: it has the identity of `r` and lies inside of it. -/
structure Region.Replaces (r' r : Region) : Prop where
  valid : r'.Valid
  id : r'.id = r.id
  base : r.base ≤ r'.base
  stop : r'.stop = r.stop

theorem Region.Valid.replaces {r : Region} (h : r.Valid) : r.Replaces r :=
  ⟨h, rfl, Nat.le_refl _, rfl⟩

theorem Region.Replaces.trans {a b c : Region} (h : a.Replaces b) (h' : b.Replaces c) :
    a.Replaces c :=
  ⟨h.valid, h.id.trans h'.id, Nat.le_trans h'.base h.base, h.stop.trans h'.stop⟩

theorem Region.handOut_replaces {r r' : Region} {index : Nat} {piece : Extent} {s : Span}
    (hr : r.Valid) (h : r.handOut index piece = .ok s r') : r'.Replaces r := by
  obtain ⟨hr', hid, hbase, hstop, -⟩ := handOut_spec hr h
  exact ⟨hr', hid, Nat.le_of_eq hbase.symm, hstop⟩

theorem Region.advance_replaces {r r' : Region} {newBase : Nat} {m : HeaderMove} (hr : r.Valid)
    (h : r.advance newBase = .ok m r') : r'.Replaces r := by
  obtain ⟨-, hr', hid, hbase, hstop, hlt, -⟩ := advance_spec hr h
  exact ⟨hr', hid, Nat.le_of_lt (hbase ▸ hlt), hstop⟩

/-- What is taken back was allocated. -/
theorem Region.mem_used_of_takeBack {r r' : Region} {piece : Extent}
    (h : r.takeBack piece = .ok () r') : piece ∈ Span.used r.spans := by
  unfold takeBack at h
  split at h
  case h_1 => contradiction
  case h_2 index _ =>
    obtain ⟨s, hs, h⟩ := Outcome.orTrap_eq_ok_iff.1 h
    split at h
    case isFalse => contradiction
    case isTrue hspan =>
      exact Span.mem_used.2 (hspan ▸ List.mem_of_getElem? (Index.read_eq_ok_iff.1 hs))

theorem Region.takeBack_replaces {r r' : Region} {piece : Extent} (hr : r.Valid)
    (h : r.takeBack piece = .ok () r') : r'.Replaces r := by
  obtain ⟨r'', hback, hr'', hid, hbase, hstop, -⟩ := takeBack_spec hr (mem_used_of_takeBack h)
  cases h.symm.trans hback
  exact ⟨hr'', hid, Nat.le_of_eq hbase.symm, hstop⟩

theorem Region.create_valid {id : RegionId} {extent : Extent} {r : Region}
    (h : create id extent = .ok r) :
    r.Valid ∧ r.id = id ∧ r.base = extent.start ∧ r.stop = extent.stop := by
  unfold create at h
  split at h
  case h_1 => contradiction
  case h_2 head hhead =>
    split at h
    case isFalse => contradiction
    case isTrue hle =>
      cases h
      obtain ⟨htile, -, hsep⟩ := Span.freeBetween_spec hle extent.stop_lt
      exact ⟨⟨hhead, extent.stop_lt, htile, hsep⟩, rfl, rfl, rfl⟩

theorem Region.allocate_eq_ok {r r' : Region} {size align address : Nat}
    (h : r.allocate size align = .ok address r') :
    ∃ index piece s, r.firstFit? size align = some (index, piece) ∧
      r.handOut index piece = .ok s r' ∧ s.start = address := by
  unfold allocate at h
  split at h
  case h_1 => contradiction
  case h_2 index piece hfit =>
    split at h
    case h_1 s _ hout =>
      cases h
      exact ⟨index, piece, s, hfit, hout, rfl⟩
    case h_2 => contradiction
    case h_3 => contradiction

/-- An allocation in a region succeeds, or there is no room and the region stays as it is. -/
theorem Region.allocate_or (r : Region) (size align : Nat) :
    (∃ address r', r.allocate size align = .ok address r') ∨
      r.allocate size align = .error .outOfMemory r := by
  unfold allocate
  split
  case h_1 => exact .inr rfl
  case h_2 index piece hfit =>
    rcases (handOut_clean r index piece).ok_or_error with ⟨s, r', hout⟩ | ⟨cause, hout⟩ <;>
      rw [hout]
    · exact .inl ⟨_, _, rfl⟩
    · exact .inr rfl

theorem Region.allocate_replaces {r r' : Region} {size align address : Nat} (hr : r.Valid)
    (h : r.allocate size align = .ok address r') : r'.Replaces r := by
  obtain ⟨index, piece, s, -, hout, -⟩ := allocate_eq_ok h
  exact handOut_replaces hr hout

/-- The identity behind another has the next number, unless there is none. -/
theorem RegionId.next_eq_ok_iff {id id' : RegionId} :
    id.next = .ok id' ↔ id'.number = id.number + 1 := by
  unfold RegionId.next
  split
  case isTrue =>
    rw [Except.ok.injEq, RegionId.ext_iff]
    exact eq_comm
  case isFalse hlast =>
    have := id'.number_lt
    constructor
    · intro h
      cases h
    · intro h
      omega

theorem RegionId.next_eq_error_iff {id : RegionId} {cause : Trap} :
    id.next = .error cause ↔ id.number + 1 = RegionId.limit ∧ cause = .addOverflow := by
  have := id.number_lt
  unfold RegionId.next
  split
  case isTrue =>
    constructor
    · intro h
      cases h
    · intro h
      omega
  case isFalse hlast =>
    rw [Except.error.injEq, eq_comm]
    exact ⟨fun h => ⟨by omega, h⟩, fun h => h.2⟩

namespace Heap

/-- What holds of every heap of a loader. -/
structure Valid (heap : Heap) : Prop where
  regions : ∀ r ∈ heap.regions, r.Valid
  /-- Regions lie in address order and do not overlap. -/
  ordered : heap.regions.Pairwise fun a b => a.stop ≤ b.base
  unique : (heap.regions.map (·.id)).Nodup
  fresh : ∀ r ∈ heap.regions, r.id.number < heap.nextId.number

theorem valid_empty : Valid {} := ⟨by simp, .nil, List.nodup_nil, by simp⟩

/-! ### Regions in the places of others -/

theorem exists_of_forall₂_right {α β : Type} {S : α → β → Prop} {l : List α} {l' : List β}
    (h : List.Forall₂ S l l') {b : β} (hb : b ∈ l') : ∃ a ∈ l, S a b := by
  induction h with
  | nil => cases hb
  | cons hS _ ih =>
      rcases List.mem_cons.1 hb with rfl | hb
      · exact ⟨_, List.mem_cons_self, hS⟩
      · obtain ⟨a, ha, hab⟩ := ih hb
        exact ⟨a, List.mem_cons_of_mem _ ha, hab⟩

theorem pairwise_of_forall₂ {α β : Type} {S : α → β → Prop} {R : α → α → Prop}
    {R' : β → β → Prop} {l : List α} {l' : List β} (h : List.Forall₂ S l l')
    (hR : l.Pairwise R) (hS : ∀ a a' b b', S a a' → S b b' → R a b → R' a' b') :
    l'.Pairwise R' := by
  induction h with
  | nil => exact .nil
  | cons hab hrest ih =>
      obtain ⟨hhead, htail⟩ := List.pairwise_cons.1 hR
      refine .cons (fun b' hb' => ?_) (ih htail)
      obtain ⟨b, hb, hbb'⟩ := exists_of_forall₂_right hrest hb'
      exact hS _ _ _ _ hab hbb' (hhead b hb)

theorem map_id_eq {l l' : List Region} (h : List.Forall₂ (fun r r' => r'.id = r.id) l l') :
    l'.map (·.id) = l.map (·.id) := by
  induction h with
  | nil => rfl
  | cons hid _ ih => rw [List.map_cons, List.map_cons, hid, ih]

/-- A heap whose regions stand in the places of those of a valid heap is valid. -/
theorem Valid.of_forall₂ {heap heap' : Heap} (h : heap.Valid)
    (hall : List.Forall₂ (fun r r' => r'.Replaces r) heap.regions heap'.regions)
    (hnext : heap'.nextId = heap.nextId) : heap'.Valid where
  regions r' hr' := by
    obtain ⟨r, -, hrep⟩ := exists_of_forall₂_right hall hr'
    exact hrep.valid
  ordered := pairwise_of_forall₂ hall h.ordered fun a a' b b' ha hb hab => by
    have := ha.stop
    have := hb.base
    omega
  unique := map_id_eq (hall.imp fun _ _ hrep => hrep.id) ▸ h.unique
  fresh r' hr' := by
    obtain ⟨r, hr, hrep⟩ := exists_of_forall₂_right hall hr'
    rw [hrep.id, hnext]
    exact h.fresh r hr

theorem region?_eq_some {heap : Heap} {id : RegionId} {r : Region}
    (h : heap.region? id = some r) : r ∈ heap.regions ∧ r.id = id :=
  ⟨List.mem_of_find?_eq_some h, by simpa using List.find?_some h⟩

theorem Valid.eq_of_id_eq {heap : Heap} (h : heap.Valid) {a b : Region} (ha : a ∈ heap.regions)
    (hb : b ∈ heap.regions) (hid : a.id = b.id) : a = b :=
  List.inj_on_of_nodup_map h.unique ha hb hid

/-- Regions of different identities do not overlap. -/
theorem Valid.stop_le_or {heap : Heap} (h : heap.Valid) {a b : Region} (ha : a ∈ heap.regions)
    (hb : b ∈ heap.regions) (hid : a.id ≠ b.id) : a.stop ≤ b.base ∨ b.stop ≤ a.base :=
  rel_or_rel_of_pairwise h.ordered ha hb fun heq => hid (congrArg _ heq)

theorem Valid.region?_id {heap : Heap} (h : heap.Valid) {r : Region} (hr : r ∈ heap.regions) :
    heap.region? r.id = some r := by
  cases hfind : heap.region? r.id with
  | none =>
      have := List.find?_eq_none.1 hfind r hr
      simp at this
  | some r' =>
      obtain ⟨hr', hid⟩ := region?_eq_some hfind
      rw [h.eq_of_id_eq hr' hr hid]

theorem forall₂_mem {α β : Type} {S : α → β → Prop} {l : List α} {l' : List β}
    (h : List.Forall₂ S l l') : List.Forall₂ (fun a b => S a b ∧ a ∈ l ∧ b ∈ l') l l' := by
  induction h with
  | nil => exact .nil
  | cons hS _ ih =>
      refine .cons ⟨hS, List.mem_cons_self, List.mem_cons_self⟩ (ih.imp ?_)
      exact fun a b h => ⟨h.1, .tail _ h.2.1, .tail _ h.2.2⟩

/-- A relation with the regions of a heap, after one of them was replaced. -/
theorem Valid.forall₂_setRegion {heap : Heap} (h : heap.Valid) {α : Type}
    {S S' : α → Region → Prop} {l : List α} (hall : List.Forall₂ S l heap.regions) {r r' : Region}
    (hr : r ∈ heap.regions) (hid : r'.id = r.id) (hsame : ∀ a ∈ l, S a r → S' a r')
    (hother : ∀ a ∈ l, ∀ b ∈ heap.regions, b.id ≠ r.id → S a b → S' a b) :
    List.Forall₂ S' l (heap.setRegion r').regions := by
  rw [setRegion, List.forall₂_map_right_iff]
  refine (forall₂_mem hall).imp fun a b ⟨hS, ha, hb⟩ => ?_
  by_cases hmatch : b.id = r.id
  · rw [if_pos (by simp [hmatch, hid])]
    exact hsame a ha (h.eq_of_id_eq hb hr hmatch ▸ hS)
  · rw [if_neg (by simp [hmatch, hid])]
    exact hother a ha b hb hmatch hS

theorem Valid.setRegion {heap : Heap} (h : heap.Valid) {r r' : Region} (hr : r ∈ heap.regions)
    (hrep : r'.Replaces r) : (heap.setRegion r').Valid := by
  have hall := List.forall₂_same.2 fun r (_ : r ∈ heap.regions) => Eq.refl r
  refine h.of_forall₂ (h.forall₂_setRegion hall hr hrep.id ?_ ?_) rfl
  · rintro _ - rfl
    exact hrep
  · rintro _ ha _ - - rfl
    exact (h.regions _ ha).replaces

theorem mem_setRegion {heap : Heap} {r r' : Region} (hr : r ∈ heap.regions)
    (hid : r'.id = r.id) : r' ∈ (heap.setRegion r').regions := by
  refine List.mem_map.2 ⟨r, hr, ?_⟩
  rw [if_pos (by simp [hid])]

/-- A region that is put into its own place changes nothing. -/
theorem Valid.setRegion_self {heap : Heap} (h : heap.Valid) {r : Region} (hr : r ∈ heap.regions) :
    heap.setRegion r = heap := by
  have hregions : (heap.setRegion r).regions = heap.regions := by
    simp only [Heap.setRegion]
    conv_rhs => rw [← List.map_id heap.regions]
    refine List.map_congr_left fun a ha => ?_
    by_cases hsame : a.id = r.id
    · simp [h.eq_of_id_eq ha hr hsame]
    · simp [hsame]
  calc heap.setRegion r = { heap with regions := (heap.setRegion r).regions } := rfl
    _ = heap := by rw [hregions]

/-- Putting a region back restores the heap. -/
theorem Valid.setRegion_setRegion {heap : Heap} (h : heap.Valid) {r r' : Region}
    (hr : r ∈ heap.regions) (hid : r'.id = r.id) : (heap.setRegion r').setRegion r = heap := by
  have hregions : ((heap.setRegion r').setRegion r).regions = heap.regions := by
    simp only [Heap.setRegion, List.map_map]
    conv_rhs => rw [← List.map_id heap.regions]
    refine List.map_congr_left fun a ha => ?_
    by_cases hsame : a.id = r.id
    · simp [hid, h.eq_of_id_eq ha hr hsame]
    · simp [hsame, hid]
  calc (heap.setRegion r').setRegion r
      = { heap with regions := ((heap.setRegion r').setRegion r).regions } := rfl
    _ = heap := by rw [hregions]

/-! ### Operations of a loader -/

theorem mem_insertRegion {region r : Region} {regions : List Region} :
    r ∈ insertRegion region regions ↔ r = region ∨ r ∈ regions := by
  induction regions with
  | nil => simp [insertRegion]
  | cons a rest ih =>
      simp only [insertRegion]
      split
      · simp only [List.mem_cons, ih]
        tauto
      · simp

theorem perm_insertRegion (region : Region) (regions : List Region) :
    (insertRegion region regions).Perm (region :: regions) := by
  induction regions with
  | nil => exact .refl _
  | cons a rest ih =>
      simp only [insertRegion]
      split
      · exact (ih.cons a).trans (.swap region a rest)
      · exact .refl _

/-- The other regions stay as they are. -/
theorem exists_insertRegion_eq (region : Region) (regions : List Region) :
    ∃ before after, regions = before ++ after ∧
      insertRegion region regions = before ++ region :: after := by
  induction regions with
  | nil => exact ⟨[], [], rfl, rfl⟩
  | cons a rest ih =>
      simp only [insertRegion]
      split
      · obtain ⟨before, after, hrest, hinsert⟩ := ih
        exact ⟨a :: before, after, congrArg (a :: ·) hrest, congrArg (a :: ·) hinsert⟩
      · exact ⟨[], a :: rest, rfl, rfl⟩

/-- A region that overlaps none of the others is inserted in address order. -/
theorem pairwise_insertRegion {region : Region} {regions : List Region}
    (h : regions.Pairwise fun a b => a.stop ≤ b.base) (hregion : region.base < region.stop)
    (hregions : ∀ r ∈ regions, r.base < r.stop)
    (hoff : ∀ r ∈ regions, r.stop ≤ region.base ∨ region.stop ≤ r.base) :
    (insertRegion region regions).Pairwise fun a b => a.stop ≤ b.base := by
  induction regions with
  | nil => exact List.pairwise_singleton _ _
  | cons a rest ih =>
      obtain ⟨hhead, htail⟩ := List.pairwise_cons.1 h
      have ha := hoff a List.mem_cons_self
      simp only [insertRegion]
      split
      case isTrue hlt =>
        refine .cons (fun b hb => ?_) (ih htail (fun r hr => hregions r (.tail _ hr))
          fun r hr => hoff r (.tail _ hr))
        rcases mem_insertRegion.1 hb with rfl | hb
        · omega
        · exact hhead b hb
      case isFalse hge =>
        have hbehind : region.stop ≤ a.base := by
          have := hregions a List.mem_cons_self
          omega
        refine .cons (fun b hb => ?_) h
        rcases List.mem_cons.1 hb with rfl | hb
        · exact hbehind
        · have := hhead b hb
          have := hregions a List.mem_cons_self
          omega

/-- **A region is added** to a heap that is not frozen if it overlaps no other and can be made,
and if there is an identity for the region after it. -/
theorem addRegion_eq_ok_iff {heap heap' : Heap} {extent : Extent} {id : RegionId} :
    heap.addRegion extent = .ok id heap' ↔
      heap.frozen = false ∧ (∀ r ∈ heap.regions, r.extent.Apart extent) ∧
        ∃ region nextId, Region.create heap.nextId extent = .ok region ∧
          heap.nextId.next = .ok nextId ∧ heap.nextId = id ∧
          { heap with regions := insertRegion region heap.regions, nextId } = heap' := by
  unfold Heap.addRegion
  have hoff : ¬ heap.regions.any (·.extent.intersects extent) = true ↔
      ∀ r ∈ heap.regions, r.extent.Apart extent := by
    simp only [List.any_eq_true, not_exists, not_and, Bool.not_eq_true,
      Extent.intersects_eq_false_iff]
  split
  case isTrue hfrozen => simp [hfrozen]
  case isFalse hfrozen =>
    split
    case isTrue hoverlap =>
      constructor
      · intro h
        cases h
      · intro h
        exact absurd hoverlap (hoff.2 h.2.1)
    case isFalse hapart =>
      cases hcreate : Region.create heap.nextId extent with
      | error cause => simp
      | ok region =>
          dsimp only
          rw [Outcome.orTrap_eq_ok_iff]
          constructor
          · rintro ⟨nextId, hnext, h⟩
            cases h
            exact ⟨Bool.eq_false_iff.2 hfrozen, hoff.1 hapart, region, nextId, rfl, hnext, rfl, rfl⟩
          · rintro ⟨-, -, _, nextId, hregion, hnext, rfl, rfl⟩
            cases hregion
            exact ⟨nextId, hnext, rfl⟩

/-- A region that is refused leaves the heap as it is. -/
theorem addRegion_error {heap heap' : Heap} {extent : Extent} {cause : Heap.Error}
    (h : heap.addRegion extent = .error cause heap') : heap' = heap := by
  unfold Heap.addRegion at h
  split at h
  case isTrue => cases h; rfl
  case isFalse =>
    split at h
    case isTrue => cases h; rfl
    case isFalse =>
      split at h
      case h_1 => cases h; rfl
      case h_2 =>
        obtain ⟨_, -, h⟩ := Outcome.orTrap_eq_error_iff.1 h
        cases h

/-- Only the last identity makes adding a region trap. -/
theorem addRegion_trap {heap heap' : Heap} {extent : Extent} {cause : Trap}
    (h : heap.addRegion extent = .trap cause heap') :
    cause = .addOverflow ∧ heap.nextId.number + 1 = RegionId.limit := by
  unfold Heap.addRegion at h
  split at h
  case isTrue => cases h
  case isFalse =>
    split at h
    case isTrue => cases h
    case isFalse =>
      split at h
      case h_1 => cases h
      case h_2 =>
        rcases Outcome.orTrap_eq_trap_iff.1 h with ⟨hnext, -⟩ | ⟨_, -, h⟩
        · exact (RegionId.next_eq_error_iff.1 hnext).symm
        · cases h

theorem Valid.addRegion {heap heap' : Heap} {extent : Extent} {id : RegionId} (h : heap.Valid)
    (hadd : heap.addRegion extent = .ok id heap') : heap'.Valid := by
  obtain ⟨-, hoff, region, nextId, hcreate, hnext, rfl, rfl⟩ := addRegion_eq_ok_iff.1 hadd
  obtain ⟨hvalid, hid, hbase, hstop⟩ := Region.create_valid hcreate
  have hperm := perm_insertRegion region heap.regions
  have hnumber := RegionId.next_eq_ok_iff.1 hnext
  have hnew : region.id ∉ heap.regions.map (·.id) := by
    intro hmem
    obtain ⟨r, hr, hsame⟩ := List.mem_map.1 hmem
    have := h.fresh r hr
    simp [hsame, hid] at this
  have hapart : ∀ r ∈ heap.regions, r.stop ≤ region.base ∨ region.stop ≤ r.base := by
    intro r hr
    have := (h.regions r hr).extent_bounds
    have hapart := hoff r hr
    simp only [Extent.Apart] at hapart
    omega
  have hlt {r : Region} (hr : r.Valid) : r.base < r.stop := by
    have := hr.bounds
    omega
  refine ⟨fun r hr => ?_, ?_, ?_, fun r hr => ?_⟩
  · rcases mem_insertRegion.1 hr with rfl | hr
    · exact hvalid
    · exact h.regions r hr
  · exact pairwise_insertRegion h.ordered (hlt hvalid) (fun r hr => hlt (h.regions r hr))
      hapart
  · exact (hperm.map (·.id)).nodup_iff.2 (List.nodup_cons.2 ⟨hnew, h.unique⟩)
  · rcases mem_insertRegion.1 hr with rfl | hr
    · simp [hid, hnumber]
    · have := h.fresh r hr
      dsimp only
      omega

/-- An allocation changes the first region that has room. -/
theorem allocateIn_eq_ok {size align address : Nat} {regions regions' : List Region}
    (h : allocateIn size align regions = .ok address regions') :
    ∃ before r r' after, regions = before ++ r :: after ∧ regions' = before ++ r' :: after ∧
      r.allocate size align = .ok address r' ∧
      ∀ t ∈ before, t.allocate size align = .error .outOfMemory t := by
  induction regions generalizing regions' with
  | nil => cases h
  | cons r rest ih =>
      unfold allocateIn at h
      rcases r.allocate_or size align with ⟨a, region, hr⟩ | hr
      · rw [hr] at h
        cases h
        exact ⟨[], r, region, rest, rfl, rfl, hr, by simp⟩
      · rw [hr] at h
        obtain ⟨rest', hin, rfl⟩ := Outcome.within_eq_ok_iff.1 h
        obtain ⟨before, s, s', after, rfl, rfl, hs, hbefore⟩ := ih hin
        refine ⟨r :: before, s, s', after, rfl, rfl, hs, fun t ht => ?_⟩
        rcases List.mem_cons.1 ht with rfl | ht
        · exact hr
        · exact hbefore t ht

/-- An allocation succeeds, or no region has room and all of them stay as they are. -/
theorem allocateIn_or (size align : Nat) (regions : List Region) :
    (∃ address regions', allocateIn size align regions = .ok address regions') ∨
      allocateIn size align regions = .error .outOfMemory regions := by
  induction regions with
  | nil => exact .inr rfl
  | cons r rest ih =>
      unfold allocateIn
      rcases r.allocate_or size align with ⟨a, region, hr⟩ | hr <;> rw [hr]
      · exact .inl ⟨a, _, rfl⟩
      · rcases ih with ⟨a, rest', hin⟩ | hin <;> rw [hin]
        · exact .inl ⟨a, _, rfl⟩
        · exact .inr rfl

theorem allocateIn_replaces {size align address : Nat} {regions regions' : List Region}
    (hvalid : ∀ r ∈ regions, r.Valid)
    (h : allocateIn size align regions = .ok address regions') :
    List.Forall₂ (fun r r' => r'.Replaces r) regions regions' := by
  obtain ⟨before, r, r', after, rfl, rfl, hr, -⟩ := allocateIn_eq_ok h
  have stays {l : List Region} (hl : ∀ a ∈ l, a ∈ before ++ r :: after) :
      List.Forall₂ (fun r r' => r'.Replaces r) l l :=
    List.forall₂_same.2 fun a ha => (hvalid a (hl a ha)).replaces
  refine List.rel_append (stays (by simp +contextual)) (.cons ?_ (stays (by simp +contextual)))
  exact Region.allocate_replaces (hvalid r (by simp)) hr

/-- An allocation in a heap that is not frozen is one in its regions. -/
theorem allocate_eq_ok {heap heap' : Heap} {size align address : Nat}
    (h : heap.allocate size align = .ok address heap') :
    heap.frozen = false ∧ ∃ regions,
      allocateIn (max size 1) (max align Region.headerAlign) heap.regions = .ok address regions ∧
        { heap with regions } = heap' := by
  unfold Heap.allocate at h
  dsimp only at h
  split at h
  case isTrue => contradiction
  case isFalse hfrozen =>
    split at h
    case isTrue => contradiction
    case isFalse => exact ⟨Bool.eq_false_iff.2 hfrozen, Outcome.within_eq_ok_iff.1 h⟩

theorem Valid.allocate {heap heap' : Heap} {size align address : Nat} (h : heap.Valid)
    (halloc : heap.allocate size align = .ok address heap') : heap'.Valid := by
  obtain ⟨-, regions, hin, rfl⟩ := allocate_eq_ok halloc
  exact h.of_forall₂ (allocateIn_replaces h.regions hin) rfl

/-- An allocation that is refused leaves the heap as it is. -/
theorem allocate_error {heap heap' : Heap} {size align : Nat} {cause : Heap.Error}
    (h : heap.allocate size align = .error cause heap') : heap' = heap := by
  unfold Heap.allocate at h
  dsimp only at h
  split at h
  case isTrue => cases h; rfl
  case isFalse =>
    split at h
    case isTrue => contradiction
    case isFalse =>
      obtain ⟨regions, hin, rfl⟩ := Outcome.within_eq_error_iff.1 h
      rcases allocateIn_or (max size 1) (max align Region.headerAlign) heap.regions with
        ⟨a, regions', hok⟩ | herror
      · cases hok.symm.trans hin
      · cases herror.symm.trans hin
        rfl

/-- Taking an allocation back changes the region that has its address. -/
theorem deallocate_eq_ok {heap heap' : Heap} {address : Nat}
    (h : heap.deallocate address = .ok () heap') :
    heap.frozen = false ∧ ∃ r r', heap.regions.find? (·.extent.contains address) = some r ∧
      r.deallocate address = .ok () r' ∧ heap.setRegion r' = heap' := by
  unfold Heap.deallocate at h
  split at h
  case isTrue => contradiction
  case isFalse hfrozen =>
    split at h
    case h_1 => contradiction
    case h_2 r hfind =>
      obtain ⟨r', hback, hset⟩ := Outcome.within_eq_ok_iff.1 h
      exact ⟨Bool.eq_false_iff.2 hfrozen, r, r', hfind, hback, hset⟩

theorem Valid.deallocate {heap heap' : Heap} {address : Nat} (h : heap.Valid)
    (hfree : heap.deallocate address = .ok () heap') : heap'.Valid := by
  obtain ⟨-, r, r', hfind, hback, rfl⟩ := deallocate_eq_ok hfree
  have hr := List.mem_of_find?_eq_some hfind
  rcases Region.deallocate_or r address with ⟨e, -, -, htake⟩ | hnone
  · exact h.setRegion hr (Region.takeBack_replaces (h.regions r hr) (htake ▸ hback))
  · rw [hnone] at hback
    contradiction

/-- Memory is taken back, or the heap stays as it is. -/
theorem Valid.deallocate_clean {heap : Heap} (h : heap.Valid) (address : Nat) :
    (heap.deallocate address).Clean heap := by
  unfold Heap.deallocate
  split
  case isTrue => exact rfl
  case isFalse =>
    split
    case h_1 => exact rfl
    case h_2 r hfind =>
      have hr := List.mem_of_find?_eq_some hfind
      have hclean := (Region.deallocate_clean r address).within heap.setRegion
      rwa [h.setRegion_self hr] at hclean

theorem freeze_eq_ok_iff {heap heap' : Heap} :
    heap.freeze = .ok heap' ↔ heap.frozen = false ∧ heap' = { heap with frozen := true } := by
  unfold Heap.freeze
  cases heap.frozen <;> simp [eq_comm]

/-- **Operations of a loader keep a heap valid.** -/
theorem Valid.perform {heap heap' : Heap} {operation : Operation} {answer : Answer}
    (h : heap.Valid) (hop : heap.perform operation = .ok answer heap') : heap'.Valid := by
  cases operation with
  | addRegion extent =>
      obtain ⟨_, hadd, -⟩ := Outcome.map_eq_ok_iff.1 hop
      exact h.addRegion hadd
  | allocate size align =>
      obtain ⟨_, halloc, -⟩ := Outcome.map_eq_ok_iff.1 hop
      exact h.allocate halloc
  | deallocate address =>
      obtain ⟨_, hfree, -⟩ := Outcome.map_eq_ok_iff.1 hop
      exact h.deallocate hfree
  | freeze =>
      obtain ⟨frozen, hfreeze, hend⟩ := Outcome.orTrap_eq_ok_iff.1 hop
      cases hend
      obtain ⟨-, rfl⟩ := freeze_eq_ok_iff.1 hfreeze
      exact ⟨h.regions, h.ordered, h.unique, h.fresh⟩
  | thaw =>
      cases hop
      exact ⟨h.regions, h.ordered, h.unique, h.fresh⟩

/-- **An operation that ends in an error** leaves the heap as it is. -/
theorem Valid.perform_error {heap heap' : Heap} {operation : Operation} {cause : Heap.Error}
    (h : heap.Valid) (hop : heap.perform operation = .error cause heap') : heap' = heap := by
  cases operation with
  | addRegion extent => exact addRegion_error (Outcome.map_eq_error_iff.1 hop)
  | allocate size align => exact allocate_error (Outcome.map_eq_error_iff.1 hop)
  | deallocate address =>
      exact (h.deallocate_clean address).unchanged (Outcome.map_eq_error_iff.1 hop)
  | freeze =>
      obtain ⟨_, -, hend⟩ := Outcome.orTrap_eq_error_iff.1 hop
      cases hend
  | thaw => cases hop

/-- What every operation that succeeds keeps holds after a run of them. -/
theorem run_induction {motive : Heap → Prop} {heap : Heap} (hv : heap.Valid) (h : motive heap)
    (step : ∀ (heap heap' : Heap) (operation : Operation) (answer : Answer), heap.Valid →
      motive heap → heap.perform operation = .ok answer heap' → motive heap')
    (operations : List Operation) :
    (heap.run operations).1.Valid ∧ motive (heap.run operations).1 := by
  induction operations generalizing heap with
  | nil => exact ⟨hv, h⟩
  | cons operation rest ih =>
      unfold Heap.run
      split
      case h_1 answer next hop =>
        exact ih (hv.perform hop) (step heap next operation answer hv h hop)
      case h_2 cause next hop =>
        rw [hv.perform_error hop]
        exact ih hv h
      case h_3 => exact ⟨hv, h⟩

theorem Valid.run {heap : Heap} (h : heap.Valid) (operations : List Operation) :
    (heap.run operations).1.Valid :=
  (run_induction h trivial (fun _ _ _ _ _ _ _ => trivial) operations).1

end Heap

end Staging

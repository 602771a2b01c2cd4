import Staging.Heap.Region
import Staging.Proofs.Address
import Staging.Proofs.Heap.Spans

/-!
# Laws of regions

A valid region has its header at the first aligned address and a separated tiling as its body
(`Region.Valid`).  Identity, bounds and allocated extents determine it (`Valid.ext`).

* `handOut_spec` and `takeBack_spec`: a piece joins the allocated extents or leaves them.
* `takeBack_handOut`: taking back what was handed out restores the region.
* `advance_spec`: a header that advances keeps the allocated extents, and all of them lie behind
  it.
* `retreat_advance`: a header that retreats restores the region.
-/

namespace Staging.Region

open Staging.Span (used Tile Separated)

/-- What holds of every region of a heap. -/
structure Valid (r : Region) : Prop where
  /-- The header lies at the first aligned address. -/
  head : Address.ceilTo? headerAlign r.base = some r.head
  stop_lt : r.stop < Address.limit
  tile : Tile r.bodyBase r.stop r.spans
  separated : Separated r.spans

theorem ceilTo?_headerAlign {base head : Nat} :
    Address.ceilTo? headerAlign base = some head ↔
      base + 15 < Address.limit ∧ head = (base + 15) / 16 * 16 :=
  Address.ceilTo?_eq_some_iff (show Address.isPowerOfTwo headerAlign = true by decide)

namespace Valid

variable {r : Region} (h : r.Valid)
include h

/-- The header lies between the base and the body, and the body inside the region. -/
theorem bounds : r.base ≤ r.head ∧ r.head < r.base + 16 ∧ r.bodyBase = r.head + 32 ∧
    r.head + 32 ≤ r.stop ∧ r.stop < Address.limit := by
  have hhead := (ceilTo?_headerAlign.1 h.head).2
  have hbody : r.bodyBase = r.head + 32 := rfl
  have := h.tile.le
  have := h.stop_lt
  omega

theorem extent_bounds : r.extent.start = r.base ∧ r.extent.stop = r.stop := by
  have := h.bounds
  exact Extent.ofBoundsD_bounds (by omega) h.stop_lt

theorem used_bounds {e : Extent} (he : e ∈ used r.spans) :
    r.bodyBase ≤ e.start ∧ e.start < e.stop ∧ e.stop ≤ r.stop :=
  h.tile.used_bounds e he

/-- **A valid region is determined** by its identity, its bounds and its allocated extents. -/
theorem ext {r' : Region} (h' : r'.Valid) (hid : r.id = r'.id) (hbase : r.base = r'.base)
    (hstop : r.stop = r'.stop) (hused : (used r.spans).Perm (used r'.spans)) : r = r' := by
  have hhead : r.head = r'.head := Option.some.inj (h.head.symm.trans (hbase ▸ h'.head))
  have hbody : r.bodyBase = r'.bodyBase := congrArg (· + headerSize) hhead
  have hspans : r.spans = r'.spans := by
    refine Span.eq_of_used_eq h.tile (hbody ▸ hstop ▸ h'.tile) h.separated h'.separated ?_
    refine hused.eq_of_pairwise ?_ h.tile.used_pairwise h'.tile.used_pairwise
    intro a b ha hb hab hba
    have := h.used_bounds ha
    have := h'.used_bounds hb
    omega
  cases r
  cases r'
  simp_all

end Valid

/-! ### Handing out and taking back -/

/-- The entry at an index, between those before it and those behind it. -/
theorem exists_split_of_getElem? {spans : List Span} {index : Nat} {s : Span}
    (h : spans[index]? = some s) :
    spans = spans.take index ++ s :: spans.drop (index + 1) := by
  obtain ⟨hlt, rfl⟩ := List.getElem?_eq_some_iff.1 h
  rw [List.getElem_cons_drop, List.take_append_drop]

/-- A piece of a free span can be handed out, and is carved out of that span. -/
theorem handOut_of_spans {r : Region} {before after : List Span} {s : Span} {piece : Extent}
    (hspans : r.spans = before ++ s :: after) (hfree : s.isFree = true)
    (hne : piece.start < piece.stop) (hcover : s.extent.covers piece = true) :
    r.handOut before.length piece =
      .ok (.allocated piece) { r with spans := before ++ s.carve piece ++ after } := by
  have hpiece : piece.isEmpty = false := Extent.isEmpty_eq_false_iff.2 hne
  simp [handOut, hspans, hfree, hpiece, hcover, Index.splice]

/-- What is handed out is a piece of a free span. -/
theorem handOut_eq_ok {r r' : Region} {index : Nat} {piece : Extent} {s : Span}
    (h : r.handOut index piece = .ok s r') :
    ∃ t, r.spans[index]? = some t ∧ t.isFree = true ∧ piece.start < piece.stop ∧
      t.extent.covers piece = true ∧ s = .allocated piece ∧
      r' = { r with
        spans := r.spans.take index ++ t.carve piece ++ r.spans.drop (index + 1) } := by
  unfold handOut at h
  split at h
  case h_1 => contradiction
  case h_2 t ht =>
    split at h
    case isFalse => contradiction
    case isTrue hfits =>
      have hlt := (List.getElem?_eq_some_iff.1 ht).1
      rw [Index.splice_eq_ok hlt, Outcome.orTrap_ok] at h
      cases h
      simp only [Bool.and_eq_true, Bool.not_eq_true', Extent.isEmpty_eq_false_iff] at hfits
      obtain ⟨⟨hfree, hne⟩, hcover⟩ := hfits
      exact ⟨t, ht, hfree, hne, hcover, rfl, rfl⟩

theorem handOut_clean (r : Region) (index : Nat) (piece : Extent) :
    (r.handOut index piece).Clean r := by
  unfold handOut
  split
  case h_1 => exact rfl
  case h_2 t ht =>
    rw [Index.splice_eq_ok (List.getElem?_eq_some_iff.1 ht).1, Outcome.orTrap_ok]
    split
    · trivial
    · exact rfl

/-- Handing out a piece adds it to the allocated extents. -/
theorem handOut_spec {r r' : Region} {index : Nat} {piece : Extent} {s : Span} (hr : r.Valid)
    (h : r.handOut index piece = .ok s r') :
    r'.Valid ∧ r'.id = r.id ∧ r'.base = r.base ∧ r'.stop = r.stop ∧
      (used r'.spans).Perm (piece :: used r.spans) := by
  obtain ⟨t, ht, hfree, hne, hcover, rfl, rfl⟩ := handOut_eq_ok h
  have hsplit := exists_split_of_getElem? ht
  have hused := congrArg used hsplit
  rw [Span.used_append, Span.used_cons_of_free hfree] at hused
  have htile := hr.tile
  have hsep := hr.separated
  rw [hsplit] at htile hsep
  obtain ⟨mid, hfront, hmid, -, hback⟩ := Span.tile_append.1 htile
  refine ⟨⟨hr.head, hr.stop_lt, ?_, ?_⟩, rfl, rfl, rfl, ?_⟩
  · rw [List.append_assoc]
    refine Span.tile_append.2 ⟨mid, hfront, Span.tile_append.2 ⟨_, ?_, hback⟩⟩
    exact hmid ▸ Span.carve_tile hcover hne
  · rw [List.append_assoc]
    exact hsep.replace hfree (Span.carve_separated hcover)
  · rw [hused, Span.used_append, Span.used_append, Span.used_carve hcover hne]
    simp

/-- An index that is looked up by an address is one of the spans. -/
theorem exists_of_indexAt? {r : Region} {address index : Nat}
    (h : r.indexAt? address = some index) :
    ∃ s, r.spans[index]? = some s ∧ s.extent.contains address = true := by
  simp only [indexAt?, Span.indexAt?, Option.bind_eq_bind, Option.bind_eq_some_iff] at h
  obtain ⟨found, -, s, hs, h⟩ := h
  split at h
  case isFalse => contradiction
  case isTrue hcontains =>
    cases h
    exact ⟨s, hs, hcontains⟩

/-- Only an allocated span can be taken back. -/
theorem takeBack_clean (r : Region) (piece : Extent) : (r.takeBack piece).Clean r := by
  unfold takeBack
  split
  case h_1 => exact rfl
  case h_2 index hindex =>
    obtain ⟨s, hs, -⟩ := exists_of_indexAt? hindex
    rw [Index.read_eq_ok hs, Outcome.orTrap_ok]
    split
    case isFalse => exact rfl
    case isTrue =>
      rw [Index.write_eq_ok (List.getElem?_eq_some_iff.1 hs).1, Outcome.orTrap_ok]
      obtain ⟨merged, hmerge⟩ :=
        Span.exists_mergeAt (r.spans.set index (.free piece)) index
      simp only [coalesce, hmerge, Except.map, Outcome.orTrap_ok]
      trivial

/-- A piece that is allocated can be taken back, and leaves the allocated extents. -/
theorem takeBack_spec {r : Region} {piece : Extent} (hr : r.Valid) (hp : piece ∈ used r.spans) :
    ∃ r', r.takeBack piece = .ok () r' ∧ r'.Valid ∧ r'.id = r.id ∧ r'.base = r.base ∧
      r'.stop = r.stop ∧ (used r.spans).Perm (piece :: used r'.spans) := by
  obtain ⟨before, after, hsplit⟩ := List.append_of_mem (Span.mem_used.1 hp)
  have htile := hr.tile
  have hsep := hr.separated
  rw [hsplit] at htile hsep
  have hne := (hr.used_bounds hp).2.1
  have hindex : r.indexAt? piece.start = some before.length := by
    rw [indexAt?, hsplit]
    exact htile.indexAt? (Nat.le_refl _) hne
  obtain ⟨hbefore, hrest, -⟩ := List.isChain_append.1 hsep
  obtain ⟨mid, htbefore, htrest⟩ := Span.tile_append.1 htile
  have hfreed : Tile r.bodyBase r.stop (before ++ .free piece :: after) :=
    Span.tile_append.2 ⟨mid, htbefore, htrest⟩
  obtain ⟨index, merged, hmerge, hmtile, hmsep, hmused⟩ :=
    Span.mergeAt_spec (Span.isFree_free piece) hfreed hbefore hrest.tail
  have hback : r.takeBack piece = .ok () { r with spans := merged } := by
    simp [takeBack, hindex, hsplit, coalesce, hmerge, Except.map]
  have hperm : (used r.spans).Perm (piece :: used merged) := by
    rw [hmused, hsplit, Span.used_append, Span.used_cons_of_not_free rfl]
    exact List.perm_middle
  exact ⟨_, hback, ⟨hr.head, hr.stop_lt, hmtile, hmsep⟩, rfl, rfl, rfl, hperm⟩

/-- Taking back what was handed out restores the region. -/
theorem takeBack_handOut {r r' : Region} {index : Nat} {piece : Extent} {s : Span} (hr : r.Valid)
    (h : r.handOut index piece = .ok s r') : r'.takeBack piece = .ok () r := by
  obtain ⟨hr', hid, hbase, hstop, hused⟩ := handOut_spec hr h
  obtain ⟨r'', hback, hr'', hid', hbase', hstop', hused'⟩ :=
    takeBack_spec hr' (hused.mem_iff.2 List.mem_cons_self)
  have hperm : (used r''.spans).Perm (used r.spans) := (hused'.symm.trans hused).cons_inv
  rw [hback, hr''.ext hr (hid'.trans hid) (hbase'.trans hbase) (hstop'.trans hstop) hperm]

/-- A deallocation takes back the allocated extent that starts at its address, or finds none. -/
theorem deallocate_or (r : Region) (address : Nat) :
    (∃ e ∈ used r.spans, e.start = address ∧ r.deallocate address = r.takeBack e) ∨
      r.deallocate address = .error (.unknownAllocation address) r := by
  unfold deallocate
  split
  case h_1 => exact .inr rfl
  case h_2 index hindex =>
    obtain ⟨s, hs, -⟩ := exists_of_indexAt? hindex
    rw [Index.read_eq_ok hs, Outcome.orTrap_ok]
    split
    case isFalse => exact .inr rfl
    case isTrue hstate =>
      simp only [Bool.and_eq_true, Bool.not_eq_true', beq_iff_eq] at hstate
      obtain ⟨hfree, hstart⟩ := hstate
      have hmem : s ∈ r.spans := List.mem_of_getElem? hs
      exact .inl ⟨s.extent, Span.mem_used.2 (Span.eq_allocated hfree ▸ hmem), hstart, rfl⟩

theorem deallocate_clean (r : Region) (address : Nat) : (r.deallocate address).Clean r := by
  rcases deallocate_or r address with ⟨e, -, -, h⟩ | h <;> rw [h]
  · exact takeBack_clean r e
  · exact rfl

/-! ### Advancing and retreating -/

theorem headRoom_spec {r : Region} {room : Extent} (h : r.headRoom = some room) :
    room.start = r.base ∧
      ∃ first rest, r.spans = first :: rest ∧ first.isFree = true ∧ first.start = r.bodyBase := by
  simp only [headRoom, Option.bind_eq_bind, Option.bind_eq_some_iff] at h
  obtain ⟨first, hfirst, h⟩ := h
  obtain ⟨rest, hspans⟩ := List.head?_eq_some_iff.1 hfirst
  split at h
  case isFalse => contradiction
  case isTrue hfree =>
    simp only [Bool.and_eq_true, beq_iff_eq] at hfree
    obtain ⟨limit, -, h⟩ := Option.bind_eq_some_iff.1 h
    split at h
    case isFalse => contradiction
    case isTrue =>
      exact ⟨(Extent.ofBounds?_eq_some_iff.1 h).1, first, rest, hspans, hfree⟩

/-- **The head room** begins at the base and leaves the header its place in the first span. -/
theorem headRoom_bounds {r : Region} {room : Extent} (h : r.headRoom = some room) :
    room.start = r.base ∧ r.base < room.stop ∧ room.stop % headerAlign = 0 ∧
      ∃ first rest, r.spans = first :: rest ∧ first.isFree = true ∧ first.start = r.bodyBase ∧
        room.stop + headerSize ≤ first.stop := by
  obtain ⟨-, first, rest, hspans, hfree, hstart⟩ := headRoom_spec h
  simp only [headRoom, hspans, List.head?_cons, Option.bind_eq_bind, Option.bind_some, hfree,
    hstart, beq_self_eq_true, Bool.and_self, if_true, Option.bind_eq_some_iff] at h
  obtain ⟨limit, hlimit, h⟩ := h
  obtain ⟨hfits, rfl⟩ := Address.sub?_eq_some_iff.1 hlimit
  split at h
  case isFalse => contradiction
  case isTrue hlt =>
    obtain ⟨hroom, hstop⟩ := Extent.ofBounds?_eq_some_iff.1 h
    have hle := Address.floorTo_le headerAlign (first.stop - headerSize)
    have hround := Address.floorTo_eq (show Address.isPowerOfTwo headerAlign = true by decide)
      (first.stop - headerSize)
    refine ⟨hroom, hstop ▸ hlt, ?_, first, rest, hspans, hfree, hstart, by omega⟩
    rw [hstop, hround]
    exact Nat.mul_mod_left _ _

/-- Where a header can advance to, it fits in front of the stop of the first span. -/
theorem newHead_le_of_headRoom {r : Region} {room : Extent} {newBase newHead : Nat} {first : Span}
    {rest : List Span} (hroom : r.headRoom = some room) (hspans : r.spans = first :: rest)
    (hle : newBase ≤ room.stop) (hhead : Address.ceilTo? headerAlign newBase = some newHead) :
    newHead + headerSize ≤ first.stop := by
  obtain ⟨-, -, halign, first', rest', hspans', -, -, hfits⟩ := headRoom_bounds hroom
  cases hspans.symm.trans hspans'
  -- The end of the head room is aligned, so the rounded base does not pass it.
  have hround := (ceilTo?_headerAlign.1 hhead).2
  simp only [headerAlign, headerSize] at halign hfits ⊢
  omega

/-- A header that advances leaves the rest of the first span, which is free, behind it. -/
theorem advance_eq_ok {r r' : Region} {newBase : Nat} {m : HeaderMove}
    (h : r.advance newBase = .ok m r') :
    ∃ (first : Span) (rest : List Span) (newHead : Nat) (left : Extent)
      (hword : newHead + headerSize < Address.limit),
      r.spans = first :: rest ∧ first.isFree = true ∧ r.base < newBase ∧
      Address.ceilTo? headerAlign newBase = some newHead ∧
      left.start = newHead + headerSize ∧ left.stop = first.stop ∧
      m = ⟨r.base, r.head, newBase, newHead⟩ ∧
      r' = { r with
        base := newBase
        head := newHead
        spans := if left.isEmpty then rest else { first with extent := left } :: rest
        bodyBase_lt := hword } := by
  unfold advance at h
  split at h
  case h_1 => contradiction
  case h_2 room hroom =>
    obtain ⟨hstart, first, rest, hspans, hfree, -⟩ := headRoom_spec hroom
    split at h
    case isTrue => contradiction
    case isFalse hinside =>
      split at h
      case h_1 => contradiction
      case h_2 newHead hhead =>
        split at h
        case isFalse => contradiction
        case isTrue hword =>
          have hread : Index.read r.spans 0 = .ok first := by rw [hspans]; rfl
          rw [hread, Outcome.orTrap_ok] at h
          split at h
          case h_1 => contradiction
          case h_2 left hleft =>
            obtain ⟨spans, hkept, h⟩ := Outcome.orTrap_eq_ok_iff.1 h
            cases h
            obtain ⟨hlo, hhi⟩ := Extent.ofBounds?_eq_some_iff.1 hleft
            have hspans' : spans =
                if left.isEmpty then rest else { first with extent := left } :: rest := by
              rw [hspans] at hkept
              split
              case isTrue hempty =>
                rw [if_pos hempty] at hkept
                exact (Except.ok.inj hkept).symm
              case isFalse hne =>
                rw [if_neg hne] at hkept
                exact (Except.ok.inj hkept).symm
            exact ⟨first, rest, newHead, left, hword, hspans, hfree, by omega, hhead, hlo, hhi,
              rfl, by rw [hspans']⟩

/-- A header advances, or stays where it is. -/
theorem advance_clean (r : Region) (newBase : Nat) : (r.advance newBase).Clean r := by
  unfold advance
  split
  case h_1 => exact rfl
  case h_2 room hroom =>
    obtain ⟨-, first, rest, hspans, -⟩ := headRoom_spec hroom
    split
    case isTrue => exact rfl
    case isFalse hinside =>
      split
      case h_1 => exact rfl
      case h_2 newHead hhead =>
        have hle := newHead_le_of_headRoom hroom hspans (by omega) hhead
        have hword := Nat.lt_of_le_of_lt hle first.extent.stop_lt
        have hread : Index.read r.spans 0 = .ok first := by rw [hspans]; rfl
        rw [dif_pos hword, hread, Outcome.orTrap_ok]
        split
        case h_1 => exact rfl
        case h_2 left _ =>
          rw [hspans]
          cases left.isEmpty <;> trivial

/-- **A header that advances** records the move and keeps the allocated extents. -/
theorem advance_spec {r r' : Region} {newBase : Nat} {m : HeaderMove} (hr : r.Valid)
    (h : r.advance newBase = .ok m r') :
    m = ⟨r.base, r.head, newBase, r'.head⟩ ∧ r'.Valid ∧ r'.id = r.id ∧ r'.base = newBase ∧
      r'.stop = r.stop ∧ r.base < newBase ∧ used r'.spans = used r.spans := by
  obtain ⟨first, rest, newHead, left, -, hspans, hfree, hlt, hhead, hlo, hhi, rfl, rfl⟩ :=
    advance_eq_ok h
  have htile := hr.tile
  have hsep := hr.separated
  rw [hspans] at htile hsep
  obtain ⟨hnext, hrest⟩ := List.isChain_cons.1 hsep
  refine ⟨rfl, ⟨hhead, hr.stop_lt, ?_, ?_⟩, rfl, rfl, rfl, hlt, ?_⟩
  · -- the body begins behind the header, where the rest of the first span does
    dsimp only
    split
    case isTrue hempty =>
      have hbody : newHead + headerSize = first.stop :=
        hlo.symm.trans ((Extent.isEmpty_iff.1 hempty).trans hhi)
      have hrest : Tile (newHead + headerSize) r.stop rest := hbody ▸ htile.2.2
      exact hrest
    case isFalse hne =>
      have hlt := Extent.isEmpty_eq_false_iff.1 (Bool.eq_false_iff.2 hne)
      have hrest : Tile left.stop r.stop rest := hhi ▸ htile.2.2
      exact ⟨hlo, hlt, hrest⟩
  · dsimp only
    split
    case isTrue => exact hrest
    case isFalse => exact List.isChain_cons.2 ⟨hnext, hrest⟩
  · dsimp only
    rw [hspans, Span.used_cons_of_free hfree]
    split
    case isTrue => rfl
    case isFalse =>
      exact @Span.used_cons_of_free { first with extent := left } hfree rest

/-- **A header retreats** from where a move led it, and keeps the allocated extents. -/
theorem retreat_spec {r : Region} {m : HeaderMove} (hr : r.Valid) (hbase : r.base = m.newBase)
    (hhead : r.head = m.newHead) (hold : Address.ceilTo? headerAlign m.oldBase = some m.oldHead)
    (hle : m.oldBase ≤ m.newBase) :
    ∃ r', r.retreat m = .ok () r' ∧ r'.Valid ∧ r'.id = r.id ∧ r'.base = m.oldBase ∧
      r'.stop = r.stop ∧ used r'.spans = used r.spans := by
  have hbounds := hr.bounds
  have hnew := (ceilTo?_headerAlign.1 hr.head).2
  have hmono := (ceilTo?_headerAlign.1 hold).2
  have hwords : m.oldHead + headerSize < Address.limit ∧
      m.newHead + headerSize < Address.limit := by
    simp only [headerSize]
    omega
  cases hreclaimed : Extent.ofBounds? (m.oldHead + headerSize) (m.newHead + headerSize) with
  | none =>
      have := Extent.ofBounds?_eq_none_iff.1 hreclaimed
      simp only [headerSize] at this
      omega
  | some reclaimed =>
      obtain ⟨hlo, hhi⟩ := Extent.ofBounds?_eq_some_iff.1 hreclaimed
      have hbody : reclaimed.stop = r.bodyBase := hhi.trans (congrArg (· + headerSize) hhead.symm)
      simp only [retreat, hbase, hhead, and_self, if_true, dif_pos hwords, hreclaimed]
      cases hempty : reclaimed.isEmpty with
      | true =>
          have htile : Tile (m.oldHead + headerSize) r.stop r.spans :=
            (hlo.symm.trans ((Extent.isEmpty_iff.1 hempty).trans hbody)) ▸ hr.tile
          exact ⟨_, rfl, ⟨hold, hr.stop_lt, htile, hr.separated⟩, rfl, rfl, rfl, rfl⟩
      | false =>
          have htbody : Tile reclaimed.stop r.stop r.spans := hbody ▸ hr.tile
          have htile : Tile (m.oldHead + headerSize) r.stop (.free reclaimed :: r.spans) :=
            ⟨hlo, Extent.isEmpty_eq_false_iff.1 hempty, htbody⟩
          obtain ⟨index, merged, hmerge, hmtile, hmsep, hmused⟩ :=
            @Span.mergeAt_spec _ _ _ [] _ (Span.isFree_free reclaimed) htile .nil hr.separated
          have hmerge : Span.mergeAt (.free reclaimed :: r.spans) 0 = .ok (index, merged) := hmerge
          simp only [coalesce, hmerge, Except.map, Outcome.orTrap_ok]
          exact ⟨_, rfl, ⟨hold, hr.stop_lt, hmtile, hmsep⟩, rfl, rfl, rfl, hmused⟩

/-- A move whose bodies are in the address space is undone, or the region stays as it is. -/
theorem retreat_clean {r : Region} {m : HeaderMove} (hold : m.oldHead + headerSize < Address.limit)
    (hnew : m.newHead + headerSize < Address.limit) : (r.retreat m).Clean r := by
  unfold retreat
  split
  case isFalse => exact rfl
  case isTrue =>
    rw [dif_pos ⟨hold, hnew⟩]
    split
    case h_1 => exact rfl
    case h_2 reclaimed _ =>
      split
      case isTrue => trivial
      case isFalse =>
        obtain ⟨merged, hmerge⟩ := Span.exists_mergeAt (.free reclaimed :: r.spans) 0
        simp only [coalesce, hmerge, Except.map, Outcome.orTrap_ok]
        trivial

/-- A header that retreats right after it advanced restores the region. -/
theorem retreat_advance {r r' : Region} {newBase : Nat} {m : HeaderMove} (hr : r.Valid)
    (h : r.advance newBase = .ok m r') : r'.retreat m = .ok () r := by
  obtain ⟨rfl, hr', hid, hbase, hstop, hlt, hused⟩ := advance_spec hr h
  obtain ⟨r'', hback, hr'', hid', hbase', hstop', hused'⟩ :=
    @retreat_spec _ ⟨r.base, r.head, newBase, r'.head⟩ hr' hbase rfl hr.head (Nat.le_of_lt hlt)
  have hperm : (used r''.spans).Perm (used r.spans) := .of_eq (hused'.trans hused)
  rw [hback, hr''.ext hr (hid'.trans hid) hbase' (hstop'.trans hstop) hperm]

end Staging.Region

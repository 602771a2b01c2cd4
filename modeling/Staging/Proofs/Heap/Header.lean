import Staging.Proofs.Heap.Canonical
import Staging.Proofs.Heap.Offers

/-!
# Moves of a header

A header can advance to a new base just when it still fits behind it into the first span, which must
be free (`HeaderFits`).  It then lies behind the new base, and so does all of the body
(`Advanced`).

Whatever is asked of the region behind it, once the region is back at the new base the move can be
undone (`Undone`): just the memory between the two bodies becomes free, and what is allocated stays.
The free bytes of a region are those of its body that no allocated extent holds (`Valid.free_iff`),
so they are known from the bounds of the body.
-/

namespace Staging

open Staging.Span (used)

theorem Span.Tile.extents {lo hi : Nat} {spans : List Span} (h : Tile lo hi spans) :
    Extent.Tile lo hi (spans.map (·.extent)) := by
  induction spans generalizing lo with
  | nil => exact h
  | cons s rest ih => exact ⟨h.1, h.2.1, ih h.2.2⟩

namespace Region

variable {r r' : Region} {m : HeaderMove} {newBase : Nat}

/-! ### Free memory -/

/-- The byte at `address` is in a free span. -/
def Free (r : Region) (address : Nat) : Prop :=
  ∃ s ∈ r.spans, s.isFree = true ∧ address ∈ s.extent

/-- **Free is what is not allocated** of the body. -/
theorem Valid.free_iff (hr : r.Valid) (address : Nat) :
    r.Free address ↔
      r.bodyBase ≤ address ∧ address < r.stop ∧ ∀ e ∈ used r.spans, address ∉ e := by
  constructor
  · rintro ⟨s, hs, hfree, hx⟩
    have hbounds := hr.tile.bounds s hs
    have hin := Extent.mem_iff.1 hx
    simp only [Span.start, Span.stop] at hbounds
    refine ⟨by omega, by omega, fun e he => ?_⟩
    have hne : s ≠ .allocated e := by
      rintro rfl
      contradiction
    have hapart : s.extent.Apart e :=
      rel_or_rel_of_pairwise hr.tile.pairwise hs (Span.mem_used.1 he) hne
    exact hapart.not_mem hx
  · rintro ⟨hlo, hhi, hnone⟩
    obtain ⟨e, he, hx⟩ := (hr.tile.extents.exists_mem_iff address).2 ⟨hlo, hhi⟩
    obtain ⟨s, hs, rfl⟩ := List.mem_map.1 he
    cases hfree : s.isFree with
    | true => exact ⟨s, hs, hfree, hx⟩
    | false => exact absurd hx (hnone _ (Span.mem_used.2 (Span.eq_allocated hfree ▸ hs)))

/-! ### When a header can advance -/

/-- The header fits behind `newBase` into the first span, which is free. -/
def HeaderFits (r : Region) (newBase : Nat) : Prop :=
  r.base < newBase ∧ ∃ first rest newHead, r.spans = first :: rest ∧ first.isFree = true ∧
    Address.ceilTo? headerAlign newBase = some newHead ∧ newHead + headerSize ≤ first.stop

/-- Where the header fits, there is head room up to there. -/
theorem HeaderFits.headRoom (h : r.HeaderFits newBase) (hr : r.Valid) :
    ∃ room, r.headRoom = some room ∧ newBase ≤ room.stop := by
  obtain ⟨hlt, first, rest, newHead, hspans, hfree, hhead, hfits⟩ := h
  have hpower : Address.isPowerOfTwo headerAlign = true := by decide
  have htile := hr.tile
  rw [hspans] at htile
  have hstart : first.start = r.bodyBase := htile.1
  have hword : first.stop < Address.limit := first.extent.stop_lt
  -- The new head is a multiple, so it is not above the end of the head room, rounded down.
  have hle : newBase ≤ newHead := Address.le_of_ceilTo? hpower hhead
  have hfloor : newHead ≤ Address.floorTo headerAlign (first.stop - headerSize) :=
    Address.le_floorTo hpower (Address.dvd_of_ceilTo? hpower hhead) (by omega)
  have hdown := Address.floorTo_le headerAlign (first.stop - headerSize)
  have hroom : r.base < Address.floorTo headerAlign (first.stop - headerSize) := by omega
  have hlimit : Address.sub? first.stop headerSize = some (first.stop - headerSize) :=
    Address.sub?_eq_some_iff.2 ⟨by omega, rfl⟩
  obtain ⟨room, hsome⟩ : ∃ room,
      Extent.ofBounds? r.base (Address.floorTo headerAlign (first.stop - headerSize)) = some room :=
    ⟨_, Extent.ofBounds?_of_le (Nat.le_of_lt hroom) (by omega)⟩
  refine ⟨room, ?_, ?_⟩
  · simp only [Region.headRoom, hspans, List.head?_cons, Option.bind_eq_bind, Option.bind_some,
      hfree, hstart, beq_self_eq_true, Bool.and_self, if_true, hlimit, if_pos hroom]
    exact hsome
  · rw [(Extent.ofBounds?_eq_some_iff.1 hsome).2]
    exact Nat.le_trans hle hfloor

/-- **A header can advance** just as far as it fits. -/
theorem Valid.exists_advance_iff (hr : r.Valid) (newBase : Nat) :
    (∃ m r', r.advance newBase = .ok m r') ↔ r.HeaderFits newBase := by
  constructor
  · rintro ⟨m, r', h⟩
    obtain ⟨first, rest, newHead, left, -, hspans, hfree, hlt, hhead, hlo, hhi, -, -⟩ :=
      advance_eq_ok h
    have hle := left.start_le_stop
    rw [hlo, hhi] at hle
    exact ⟨hlt, first, rest, newHead, hspans, hfree, hhead, hle⟩
  · intro h
    obtain ⟨room, hroom, hle⟩ := h.headRoom hr
    exact advance_of_headRoom hroom h.1 hle

/-- A header that cannot advance says so, and stays where it is. -/
theorem advance_or (r : Region) (newBase : Nat) :
    (∃ m r', r.advance newBase = .ok m r') ∨
      r.advance newBase = .error (.inconsistent (.ofBoundsD r.base newBase)) r := by
  rcases (advance_clean r newBase).ok_or_error with hok | ⟨cause, h⟩
  · exact .inl hok
  · refine .inr (h.trans ?_)
    unfold advance at h
    dsimp only at h
    split at h
    case h_1 => exact h.symm
    case h_2 =>
      split at h
      case isTrue => exact h.symm
      case isFalse =>
        split at h
        case h_1 => exact h.symm
        case h_2 =>
          split at h
          case isFalse => contradiction
          case isTrue =>
            obtain ⟨first, -, h⟩ := Outcome.orTrap_eq_error_iff.1 h
            split at h
            case h_1 => exact h.symm
            case h_2 =>
              obtain ⟨_, -, h⟩ := Outcome.orTrap_eq_error_iff.1 h
              contradiction

/-! ### What a move does, and its undoing -/

/-- The region behind a move of its header to `newBase`. -/
structure Advanced (r : Region) (newBase : Nat) (m : HeaderMove) (r' : Region) : Prop where
  record : m = ⟨r.base, r.head, newBase, r'.head⟩
  base : r'.base = newBase
  same : r'.id = r.id ∧ r'.stop = r.stop ∧ used r'.spans = used r.spans
  header : newBase ≤ r'.head ∧ r'.head + headerSize ≤ r.stop
  spans : ∀ s ∈ r'.spans, newBase ≤ s.start ∧ s.stop ≤ r.stop
  /-- The header passed over as many bytes as are no longer free. -/
  freeBytes : r'.freeBytes + (r'.head - r.head) = r.freeBytes
  head_le : r.head ≤ r'.head
  valid : r'.Valid

theorem Valid.advanced (hr : r.Valid) (h : r.advance newBase = .ok m r') :
    r.Advanced newBase m r' := by
  obtain ⟨hm, hr', hid, hbase, hstop, hlt, hused⟩ := advance_spec hr h
  have hbounds' := hr'.bounds
  have hhead := (ceilTo?_headerAlign.1 hr.head).2
  have hhead' := (ceilTo?_headerAlign.1 hr'.head).2
  have hle : r.head ≤ r'.head := by omega
  refine ⟨hm, hbase, ⟨hid, hstop, hused⟩, ⟨by omega, ?_⟩, fun s hs => ?_, ?_, hle, hr'⟩
  · simp only [headerSize]
    omega
  · have hspan := hr'.tile.bounds s hs
    omega
  · -- The two bodies allocate the same, and end at the same address.
    have hsum := hr.tile.freeBytes_add
    have hsum' := hr'.tile.freeBytes_add
    rw [hused] at hsum'
    simp only [Region.freeBytes, bodyBase] at hsum hsum' ⊢
    omega

/-- The region `back` is `now` with the move undone. -/
structure Undone (m : HeaderMove) (now back : Region) : Prop where
  base : back.base = m.oldBase
  head : back.head = m.oldHead
  same : back.id = now.id ∧ back.stop = now.stop ∧ used back.spans = used now.spans
  /-- All the memory between the two bodies is free. -/
  free : ∀ address, back.Free address ↔ now.Free address ∨
    m.oldHead + headerSize ≤ address ∧ address < m.newHead + headerSize
  /-- None of it was free before. -/
  freeBytes : back.freeBytes = now.freeBytes + (m.newHead - m.oldHead)
  /-- It is merged with what was free behind it. -/
  valid : back.Valid

/-- **A recorded move** can be undone once the region is back where the move led to. -/
theorem Valid.undone {origin : Region} (hr : r.Valid) (hm : m.Within origin)
    (hbase : r.base = m.newBase) : ∃ back, r.retreat m = .ok () back ∧ Undone m r back := by
  obtain ⟨back, hback, hvalid, hid, hbase', hhead', hstop, hused⟩ := retreat_of_within hr hm hbase
  have hbounds := hr.bounds
  have hhead : r.head = m.newHead := hr.head_eq (hbase ▸ hm.newHead)
  have hbody : r.bodyBase = m.newHead + headerSize := congrArg (· + headerSize) hhead
  have hbody' : back.bodyBase = m.oldHead + headerSize := congrArg (· + headerSize) hhead'
  have hle : m.oldHead ≤ m.newHead := by
    have := (ceilTo?_headerAlign.1 hm.oldHead).2
    have := (ceilTo?_headerAlign.1 hm.newHead).2
    have := hm.lt
    omega
  refine ⟨back, hback, hbase', hhead', ⟨hid, hstop, hused⟩, fun address => ?_, ?_, hvalid⟩
  · rw [hvalid.free_iff, hr.free_iff, hused, hstop, hbody, hbody']
    constructor
    · rintro ⟨hlo, hhi, hnone⟩
      by_cases hbelow : address < m.newHead + headerSize
      · exact .inr ⟨hlo, hbelow⟩
      · exact .inl ⟨Nat.not_lt.1 hbelow, hhi, hnone⟩
    · rintro (⟨hlo, hhi, hnone⟩ | ⟨hlo, hbelow⟩)
      · exact ⟨by omega, hhi, hnone⟩
      · refine ⟨hlo, by omega, fun e he hx => ?_⟩
        -- What is allocated lies behind the header.
        have := (hr.used_bounds he).1
        have := (Extent.mem_iff.1 hx).1
        omega
  · have hsum := hr.tile.freeBytes_add
    have hsum' := hvalid.tile.freeBytes_add
    rw [hused, hstop, hbody'] at hsum'
    rw [hbody] at hsum
    simp only [Region.freeBytes] at hsum hsum' ⊢
    omega

/-- **Moves of a header** are possible just as far as it fits, and are exactly undone: whatever is
asked of the region behind a move, once it is back at the new base the move can be undone. -/
theorem advance_exact (hr : r.Valid) (newBase : Nat) :
    ((∃ m r', r.advance newBase = .ok m r') ↔ r.HeaderFits newBase) ∧
    (¬ r.HeaderFits newBase →
      r.advance newBase = .error (.inconsistent (.ofBoundsD r.base newBase)) r ∧
        ∀ moves, (Logged.mk r moves).run [.advance newBase] = ⟨r, moves⟩) ∧
    ∀ m r', r.advance newBase = .ok m r' → Advanced r newBase m r' ∧
      ∀ operations, ((Logged.mk r' [m]).run operations).region.base = newBase →
        ∃ back, ((Logged.mk r' [m]).run operations).region.retreat m = .ok () back ∧
          Undone m ((Logged.mk r' [m]).run operations).region back := by
  refine ⟨hr.exists_advance_iff newBase, fun hno => ?_, fun m r' hadv => ?_⟩
  · have hfail := (advance_or r newBase).resolve_left fun hok =>
      hno ((hr.exists_advance_iff newBase).1 hok)
    refine ⟨hfail, fun moves => ?_⟩
    simp [Logged.run, Logged.perform, hfail, Logged.withRegion]
  · have hadvanced := hr.advanced hadv
    have hwithin : m.Within r := within_of_advance hr.replaces hadv
    have hsound : Logged.Sound r ⟨r', [m]⟩ :=
      ⟨advance_replaces hr hadv, fun m' hm' => List.mem_singleton.1 hm' ▸ hwithin⟩
    refine ⟨hadvanced, fun operations hbase => ?_⟩
    refine (hsound.run operations).replaces.valid.undone hwithin ?_
    rw [hbase, hadvanced.record]

/-- The small region behind a move of its header. -/
def movedRegion : Region where
  id := .first
  base := 0x1041
  head := 0x1050
  stop := 0x2800
  spans := [.free (.ofBoundsD 0x1070 0x2800)]
  bodyBase_lt := by decide

/-- A piece is handed out, and a header that has moved once goes further and comes back. -/
def smallDetour : List Operation :=
  [.handOut 0 smallPieces.1, .advance 0x1061, .retreat 1]

/-- The header of the small region can go up to the end, where it leaves no body, but no further.
A shorter move is undone after a detour. -/
theorem advance_exact_small :
    let m : HeaderMove := ⟨0x1008, 0x1010, 0x1041, 0x1050⟩
    (∃ m r', smallRegion.advance 0x27e0 = .ok m r') ∧
      smallRegion.advance 0x27e1 =
        .error (.inconsistent (.ofBoundsD 0x1008 0x27e1)) smallRegion ∧
      smallRegion.advance 0x1041 = .ok m movedRegion ∧
      Advanced smallRegion 0x1041 m movedRegion ∧
      ∃ back, ((Logged.mk movedRegion [m]).run smallDetour).region.retreat m = .ok () back ∧
        used back.spans = [smallPieces.1] ∧ back.Free 0x1030 := by
  intro m
  have hr : smallRegion.Valid := (create_valid create_smallRegion).1
  have hfits : smallRegion.HeaderFits 0x27e0 :=
    ⟨by decide, _, _, 0x27e0, rfl, rfl, by decide, by decide⟩
  have hno : ¬ smallRegion.HeaderFits 0x27e1 := by
    rintro ⟨-, first, rest, newHead, hspans, -, hhead, hle⟩
    cases hspans
    cases hhead.symm.trans (show Address.ceilTo? headerAlign 0x27e1 = some 0x27f0 by decide)
    exact absurd hle (by decide)
  have hadv : smallRegion.advance 0x1041 = .ok m movedRegion := by decide +kernel
  have hbase : ((Logged.mk movedRegion [m]).run smallDetour).region.base = 0x1041 := by
    decide +kernel
  have hused : used ((Logged.mk movedRegion [m]).run smallDetour).region.spans =
      [smallPieces.1] := by decide +kernel
  obtain ⟨hadvanced, hundone⟩ := (advance_exact hr 0x1041).2.2 m movedRegion hadv
  obtain ⟨back, hback, hexact⟩ := hundone smallDetour hbase
  refine ⟨(advance_exact hr 0x27e0).1.2 hfits, ((advance_exact hr 0x27e1).2.1 hno).1, hadv,
    hadvanced, back, hback, hexact.same.2.2.trans hused, (hexact.free 0x1030).2 (.inr ?_)⟩
  decide

end Region

end Staging

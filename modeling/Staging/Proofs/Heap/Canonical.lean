import Staging.Proofs.Heap.Basic

/-!
# Canonical regions

Whatever is asked of a region, it stays valid (`Logged.Sound`), and a valid region is determined by
its identity, its bounds and its allocated extents.  So the way that led to a region does not show:
two histories of one fresh region that end with the same base and the same allocated extents end
with the same region (`Logged.run_canonical`).

A header may be asked to undo any of its recorded moves, in any order.  A record always leads back
to a base at or above the first one (`HeaderMove.Within`), so that no order of undoing breaks a
region.
-/

namespace Staging

open Staging.Span (used Tile Separated)

/-- The record of a move that a header can have made inside of the region. -/
structure HeaderMove.Within (m : HeaderMove) (r : Region) : Prop where
  base_le : r.base ≤ m.oldBase
  lt : m.oldBase < m.newBase
  oldHead : Address.ceilTo? Region.headerAlign m.oldBase = some m.oldHead
  newHead : Address.ceilTo? Region.headerAlign m.newBase = some m.newHead

namespace Region

variable {r r' origin : Region}

/-- What is asked of a region. -/
inductive Operation where
  | handOut (index : Nat) (piece : Extent)
  | coalesce (index : Nat)
  | takeBack (piece : Extent)
  | advance (newBase : Nat)
  /-- Undo a move of the header, which is named by its place in the log. -/
  | retreat (number : Nat)
deriving DecidableEq

/-- A region with the log of the moves that its header has made. -/
structure Logged where
  region : Region
  /-- Oldest first. -/
  moves : List HeaderMove
deriving DecidableEq

/-! ### Valid regions -/

theorem Valid.used_nodup (hr : r.Valid) : (used r.spans).Nodup := by
  refine hr.tile.used_pairwise.imp_of_mem fun {a b} ha _ hle => ?_
  rintro rfl
  have := hr.used_bounds ha
  omega

/-- The base of a valid region determines where its header lies. -/
theorem Valid.head_eq (hr : r.Valid) {head : Nat}
    (h : Address.ceilTo? headerAlign r.base = some head) : r.head = head :=
  Option.some.inj (hr.head.symm.trans h)

/-- Free neighbours do not occur in a valid region, so there is nothing to merge. -/
theorem Valid.coalesce (hr : r.Valid) (index : Nat) :
    ∃ index', r.coalesce index = .ok (index', r) := by
  have hspans : ∃ index', Span.mergeAt r.spans index = .ok (index', r.spans) := by
    cases hs : r.spans[index]? with
    | none => exact ⟨index, by simp [Span.mergeAt, hs]⟩
    | some s =>
        cases hfree : s.isFree with
        | false => exact ⟨index, by simp [Span.mergeAt, hs, hfree]⟩
        | true =>
            have hsplit := exists_split_of_getElem? hs
            have hindex : (r.spans.take index).length = index :=
              List.length_take_of_le (Nat.le_of_lt (List.getElem?_eq_some_iff.1 hs).1)
            have htile := hr.tile
            have hsep := hr.separated
            rw [hsplit] at htile hsep
            obtain ⟨hbefore, hafter, -⟩ := List.isChain_append.1 hsep
            obtain ⟨index', merged, hmerge, hmtile, hmsep, hmused⟩ :=
              Span.mergeAt_spec hfree htile hbefore hafter.tail
            rw [← hsplit, hindex] at hmerge
            have hsame : merged = r.spans := by
              refine Span.eq_of_used_eq hmtile hr.tile hmsep hr.separated (hmused.trans ?_)
              conv_rhs => rw [hsplit, Span.used_append, Span.used_cons_of_free hfree]
            exact ⟨index', hsame ▸ hmerge⟩
  obtain ⟨index', hmerge⟩ := hspans
  exact ⟨index', by simp only [Region.coalesce, hmerge, Except.map]⟩

/-- **What is not exactly an allocated span** is not taken back. -/
theorem takeBack_of_not_mem {piece : Extent} (h : piece ∉ used r.spans) :
    r.takeBack piece = .error (.inconsistent piece) r := by
  unfold takeBack
  split
  case h_1 => rfl
  case h_2 index hindex =>
    obtain ⟨s, hs, -⟩ := exists_of_indexAt? hindex
    have hspan : ¬ s = .allocated piece := by
      rintro rfl
      exact h (Span.mem_used.2 (List.mem_of_getElem? hs))
    rw [Index.read_eq_ok hs, Outcome.orTrap_ok, if_neg hspan]

/-! ### Undoing recorded moves -/

/-- **A recorded move** is undone just when the region has the base that the move led to. -/
theorem retreat_of_within {m : HeaderMove} (hr : r.Valid) (hm : m.Within origin)
    (hbase : r.base = m.newBase) :
    ∃ r', r.retreat m = .ok () r' ∧ r'.Valid ∧ r'.id = r.id ∧ r'.base = m.oldBase ∧
      r'.head = m.oldHead ∧ r'.stop = r.stop ∧ used r'.spans = used r.spans := by
  have hhead : r.head = m.newHead := hr.head_eq (hbase ▸ hm.newHead)
  obtain ⟨r', hback, hr', hid, hbase', hstop, hused⟩ :=
    retreat_spec hr hbase hhead hm.oldHead (Nat.le_of_lt hm.lt)
  exact ⟨r', hback, hr', hid, hbase', hr'.head_eq (hbase' ▸ hm.oldHead), hstop, hused⟩

theorem retreat_of_ne {m : HeaderMove} (h : r.base ≠ m.newBase) :
    r.retreat m = .error (.inconsistent (.ofBoundsD m.oldBase m.newBase)) r := by
  unfold retreat
  exact if_neg fun hboth => h hboth.1

/-- The record of a move that a header makes. -/
theorem within_of_advance {newBase : Nat} {m : HeaderMove} (h : r.Replaces origin)
    (hadv : r.advance newBase = .ok m r') : m.Within origin := by
  obtain ⟨rfl, hr', -, hbase, -, hlt, -⟩ := advance_spec h.valid hadv
  have hhead := hr'.head
  rw [hbase] at hhead
  exact ⟨h.base, hlt, h.valid.head, hhead⟩

namespace Logged

/-- A region whose header has not moved. -/
def start (r : Region) : Logged := ⟨r, []⟩

/-- The log beside another region. -/
def withRegion (l : Logged) (region : Region) : Logged := { l with region }

/-- Perform an operation.  A number that no move has asks for nothing. -/
def perform (l : Logged) : Operation → Outcome Heap.Error Logged Unit
  | .handOut index piece =>
      ((l.region.handOut index piece).within l.withRegion).map fun _ => ()
  | .coalesce index =>
      .orTrap (l.region.coalesce index) l fun (_, region) => .ok () (l.withRegion region)
  | .takeBack piece => (l.region.takeBack piece).within l.withRegion
  | .advance newBase =>
      match l.region.advance newBase with
      | .ok move region => .ok () ⟨region, l.moves ++ [move]⟩
      | .error cause region => .error cause (l.withRegion region)
      | .trap cause region => .trap cause (l.withRegion region)
  | .retreat number =>
      match l.moves[number]? with
      | none => .ok () l
      | some move => (l.region.retreat move).within l.withRegion

/-- Perform operations in their order.  After an error the run goes on with what it left, a trap
ends the run. -/
def run (l : Logged) : List Operation → Logged
  | [] => l
  | operation :: rest =>
      match l.perform operation with
      | .ok _ next | .error _ next => next.run rest
      | .trap _ _ => l

/-- What holds of a region and of its log, whatever was asked of it. -/
structure Sound (origin : Region) (l : Logged) : Prop where
  replaces : l.region.Replaces origin
  moves : ∀ m ∈ l.moves, m.Within origin

variable {l l' : Logged}

theorem sound_start (hr : r.Valid) : Sound r (start r) :=
  ⟨hr.replaces, by simp [start]⟩

theorem perform_retreat_of_none {number : Nat} (h : l.moves[number]? = none) :
    l.perform (.retreat number) = .ok () l := by
  simp [perform, h]

theorem perform_retreat_of_some {number : Nat} {m : HeaderMove}
    (h : l.moves[number]? = some m) :
    l.perform (.retreat number) = (l.region.retreat m).within l.withRegion := by
  simp [perform, h]

/-- A header that advances enters its move into the log. -/
theorem perform_advance_eq_ok {newBase : Nat} (h : l.perform (.advance newBase) = .ok () l') :
    ∃ m r', l.region.advance newBase = .ok m r' ∧ l' = ⟨r', l.moves ++ [m]⟩ := by
  simp only [perform] at h
  split at h
  case h_1 m r' hadv =>
    cases h
    exact ⟨m, r', hadv, rfl⟩
  case h_2 => contradiction
  case h_3 => contradiction

/-- **Each operation** keeps a region valid and its log in order. -/
theorem Sound.perform (h : Sound origin l) {operation : Operation}
    (hop : l.perform operation = .ok () l') : Sound origin l' := by
  have hr := h.replaces.valid
  cases operation with
  | handOut index piece =>
      obtain ⟨s, hwithin, -⟩ := Outcome.map_eq_ok_iff.1 hop
      obtain ⟨r', hout, rfl⟩ := Outcome.within_eq_ok_iff.1 hwithin
      exact ⟨(handOut_replaces hr hout).trans h.replaces, h.moves⟩
  | coalesce index =>
      obtain ⟨index', hsame⟩ := hr.coalesce index
      rw [Logged.perform, hsame] at hop
      cases hop
      exact h
  | takeBack piece =>
      obtain ⟨r', hback, rfl⟩ := Outcome.within_eq_ok_iff.1 hop
      exact ⟨(takeBack_replaces hr hback).trans h.replaces, h.moves⟩
  | advance newBase =>
      obtain ⟨m, r', hadv, rfl⟩ := perform_advance_eq_ok hop
      refine ⟨(advance_replaces hr hadv).trans h.replaces, fun m' hm' => ?_⟩
      rcases List.mem_append.1 hm' with hm' | hm'
      · exact h.moves m' hm'
      · cases List.mem_singleton.1 hm'
        exact within_of_advance h.replaces hadv
  | retreat number =>
      cases hm : l.moves[number]? with
      | none =>
          cases (perform_retreat_of_none hm).symm.trans hop
          exact h
      | some m =>
          rw [perform_retreat_of_some hm] at hop
          obtain ⟨r', hback, rfl⟩ := Outcome.within_eq_ok_iff.1 hop
          have hwithin := h.moves m (List.mem_of_getElem? hm)
          by_cases hbase : l.region.base = m.newBase
          · obtain ⟨r'', hback', hr'', hid, hbase', -, hstop, -⟩ :=
              retreat_of_within hr hwithin hbase
            cases hback.symm.trans hback'
            refine ⟨⟨hr'', hid.trans h.replaces.id, ?_, hstop.trans h.replaces.stop⟩, h.moves⟩
            exact Nat.le_trans hwithin.base_le (Nat.le_of_eq hbase'.symm)
          · rw [retreat_of_ne hbase] at hback
            contradiction

/-- **No operation traps**, and those that are refused change nothing. -/
theorem Sound.perform_clean (h : Sound origin l) (operation : Operation) :
    (l.perform operation).Clean l := by
  cases operation with
  | handOut index piece =>
      exact ((handOut_clean l.region index piece).within l.withRegion).map _
  | coalesce index =>
      obtain ⟨index', hsame⟩ := h.replaces.valid.coalesce index
      rw [Logged.perform, hsame]
      trivial
  | takeBack piece => exact (takeBack_clean l.region piece).within l.withRegion
  | advance newBase =>
      rcases (advance_clean l.region newBase).ok_or_error with ⟨m, r', hadv⟩ | ⟨cause, hadv⟩ <;>
        simp only [Logged.perform, hadv]
      · trivial
      · exact rfl
  | retreat number =>
      cases hm : l.moves[number]? with
      | none =>
          rw [perform_retreat_of_none hm]
          trivial
      | some m =>
          rw [perform_retreat_of_some hm]
          by_cases hbase : l.region.base = m.newBase
          · obtain ⟨r', hback, -⟩ :=
              retreat_of_within h.replaces.valid (h.moves m (List.mem_of_getElem? hm)) hbase
            rw [hback]
            trivial
          · rw [retreat_of_ne hbase]
            exact rfl

/-- **Whatever is asked** of a region, it stays valid and its log in order. -/
theorem Sound.run (h : Sound origin l) (operations : List Operation) :
    Sound origin (l.run operations) := by
  induction operations generalizing l with
  | nil => exact h
  | cons operation rest ih =>
      unfold Logged.run
      split
      case h_1 next hop => exact ih (h.perform hop)
      case h_2 cause next hop =>
        rw [(h.perform_clean operation).unchanged hop]
        exact ih h
      case h_3 => exact h

/-! ### Many pieces -/

/-- Hand out pieces one after the other, each from the span at its index. -/
def handOutAll (r : Region) : List (Nat × Extent) → Outcome Heap.Error Region Unit
  | [] => .ok () r
  | (index, piece) :: rest => (r.handOut index piece).bind fun _ r => handOutAll r rest

/-- Take back pieces one after the other. -/
def takeBackAll (r : Region) : List Extent → Outcome Heap.Error Region Unit
  | [] => .ok () r
  | piece :: rest => (r.takeBack piece).bind fun _ r => takeBackAll r rest

theorem handOutAll_spec {pieces : List (Nat × Extent)} (hr : r.Valid)
    (h : handOutAll r pieces = .ok () r') :
    r'.Valid ∧ r'.id = r.id ∧ r'.base = r.base ∧ r'.stop = r.stop ∧
      (used r'.spans).Perm (pieces.map (·.2) ++ used r.spans) := by
  induction pieces generalizing r with
  | nil =>
      cases h
      exact ⟨hr, rfl, rfl, rfl, .refl _⟩
  | cons first rest ih =>
      obtain ⟨index, piece⟩ := first
      obtain ⟨s, r₁, hout, h⟩ := Outcome.bind_eq_ok_iff.1 h
      obtain ⟨hr₁, hid, hbase, hstop, hused⟩ := handOut_spec hr hout
      obtain ⟨hr', hid', hbase', hstop', hused'⟩ := ih hr₁ h
      refine ⟨hr', hid'.trans hid, hbase'.trans hbase, hstop'.trans hstop, ?_⟩
      exact (hused'.trans (hused.append_left _)).trans List.perm_middle

theorem takeBackAll_spec {pieces rest : List Extent} (hr : r.Valid)
    (h : (used r.spans).Perm (pieces ++ rest)) :
    ∃ r', takeBackAll r pieces = .ok () r' ∧ r'.Valid ∧ r'.id = r.id ∧ r'.base = r.base ∧
      r'.stop = r.stop ∧ (used r'.spans).Perm rest := by
  induction pieces generalizing r with
  | nil => exact ⟨r, rfl, hr, rfl, rfl, rfl, h⟩
  | cons piece pieces ih =>
      obtain ⟨r₁, hback, hr₁, hid, hbase, hstop, hused⟩ :=
        takeBack_spec hr (h.mem_iff.2 List.mem_cons_self)
      have hleft : (used r₁.spans).Perm (pieces ++ rest) := (hused.symm.trans h).cons_inv
      obtain ⟨r', hall, hr', hid', hbase', hstop', hused'⟩ := ih hr₁ hleft
      refine ⟨r', ?_, hr', hid'.trans hid, hbase'.trans hbase, hstop'.trans hstop, hused'⟩
      rw [takeBackAll, hback]
      exact hall

/-- Pieces may be taken back in any order. -/
theorem takeBackAll_handOutAll {pieces : List (Nat × Extent)} {pieces' : List Extent}
    (hr : r.Valid) (h : handOutAll r pieces = .ok () r') (hperm : pieces'.Perm (pieces.map (·.2))) :
    takeBackAll r' pieces' = .ok () r := by
  obtain ⟨hr', hid, hbase, hstop, hused⟩ := handOutAll_spec hr h
  obtain ⟨r'', hback, hr'', hid', hbase', hstop', hused'⟩ :=
    takeBackAll_spec hr' (hused.trans (hperm.symm.append_right _))
  rw [hback, hr''.ext hr (hid'.trans hid) (hbase'.trans hbase) (hstop'.trans hstop) hused']

/-- **A region is canonical.**  Histories of one fresh region that end with the same base and the
same allocated extents end with the same region.  No operation traps, so a run performs all of its
operations.  Pieces that were handed out may be taken back in any order, and that restores the
region; what is not exactly an allocated span is refused, and changes nothing. -/
theorem run_canonical {id : RegionId} {extent : Extent} (hcreate : create id extent = .ok r) :
    (∀ a b : List Operation,
      ((start r).run a).region.base = ((start r).run b).region.base →
      (∀ e, e ∈ used ((start r).run a).region.spans ↔ e ∈ used ((start r).run b).region.spans) →
        ((start r).run a).region = ((start r).run b).region) ∧
    ∀ operations : List Operation,
      (∀ operation trap l, ((start r).run operations).perform operation ≠ .trap trap l) ∧
      (∀ pieces pieces' r', handOutAll ((start r).run operations).region pieces = .ok () r' →
        pieces'.Perm (pieces.map (·.2)) →
          takeBackAll r' pieces' = .ok () ((start r).run operations).region) ∧
      ∀ piece, piece ∉ used ((start r).run operations).region.spans →
        ((start r).run operations).region.takeBack piece =
            .error (.inconsistent piece) ((start r).run operations).region ∧
          ((start r).run operations).run [.takeBack piece] = (start r).run operations := by
  have hsound := (sound_start (create_valid hcreate).1).run
  refine ⟨fun a b hbase hused => ?_, fun operations => ⟨?_, fun pieces pieces' r' hout hperm => ?_,
    fun piece hpiece => ?_⟩⟩
  · have ha := (hsound a).replaces
    have hb := (hsound b).replaces
    refine ha.valid.ext hb.valid (ha.id.trans hb.id.symm) hbase (ha.stop.trans hb.stop.symm) ?_
    exact (List.perm_ext_iff_of_nodup ha.valid.used_nodup hb.valid.used_nodup).2 hused
  · exact fun operation _ _ => ((hsound operations).perform_clean operation).not_trap
  · exact takeBackAll_handOutAll (hsound operations).replaces.valid hout hperm
  · have hfail := takeBack_of_not_mem hpiece
    refine ⟨hfail, ?_⟩
    simp [run, perform, hfail, Outcome.within, withRegion]

end Logged

/-- A region whose base is not aligned. -/
def smallRegion : Region where
  id := .first
  base := 0x1008
  head := 0x1010
  stop := 0x2800
  spans := [.free ⟨0x1030, 0x2800, by decide, by decide⟩]
  bodyBase_lt := by decide

theorem create_smallRegion :
    create .first ⟨0x1008, 0x2800, by decide, by decide⟩ = .ok smallRegion := by
  decide

/-- Two pieces of the small region. -/
def smallPieces : Extent × Extent :=
  (⟨0x1100, 0x1180, by decide, by decide⟩, ⟨0x1200, 0x1300, by decide, by decide⟩)

namespace Logged

/-- One piece handed out after a detour over the other, and after a detour of the header; both
pieces handed out and the first taken back last; and a piece that was not handed out. -/
theorem run_canonical_detours :
    let a := ((start smallRegion).run [.handOut 0 smallPieces.2, .handOut 0 smallPieces.1,
      .takeBack smallPieces.2]).region
    let b := ((start smallRegion).run [.advance 0x1041, .handOut 0 smallPieces.1,
      .takeBack smallPieces.2, .retreat 0, .coalesce 2]).region
    used a.spans = [smallPieces.1] ∧ a = b ∧
      (∃ r', handOutAll smallRegion [(0, smallPieces.1), (2, smallPieces.2)] = .ok () r' ∧
        used r'.spans = [smallPieces.1, smallPieces.2] ∧
        takeBackAll r' [smallPieces.2, smallPieces.1] = .ok () smallRegion) ∧
      smallRegion.takeBack smallPieces.1 = .error (.inconsistent smallPieces.1) smallRegion := by
  obtain ⟨hcanonical, hevery⟩ := run_canonical create_smallRegion
  obtain ⟨-, hpieces, hrefused⟩ := hevery []
  intro a b
  have hused : used a.spans = [smallPieces.1] := by decide +kernel
  have hused' : used b.spans = [smallPieces.1] := by decide +kernel
  have hboth : ((handOutAll smallRegion [(0, smallPieces.1), (2, smallPieces.2)]).within
      fun r => used r.spans) = .ok () [smallPieces.1, smallPieces.2] := by decide +kernel
  obtain ⟨r', hout, hr'⟩ := Outcome.within_eq_ok_iff.1 hboth
  refine ⟨hused, hcanonical _ _ (by decide +kernel) fun e => ?_, ⟨r', hout, hr', ?_⟩, ?_⟩
  · rw [show used _ = _ from hused, show used _ = _ from hused']
  · exact hpieces _ _ r' hout (.swap _ _ _)
  · exact (hrefused smallPieces.1 (by decide)).1

end Logged

end Region

end Staging

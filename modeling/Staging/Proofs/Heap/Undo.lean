import Staging.Proofs.Heap.Accounts
import Staging.Proofs.Heap.Canonical

/-!
# Which moves of a header are undone

A journal keeps the moves of a header that were not undone yet, newest first (`Journal.pending`).
A region accepts a recorded move exactly when the move led to its present base
(`Region.accepts_iff`): it does not look for the newest move that is pending.

As long as moves are undone newest first, the pending moves form a chain from the first base of the
region to the present one (`Journal.Orderly`), so of all records just those with the new base of the
newest pending move are accepted.  This is the newest move alone if no two different moves led to
the same base (`Journal.accepts_newest`).  Otherwise an old record may take the header back below
moves that are still pending, and they cannot be undone any more
(`Journal.accepts_stale`).
-/

namespace Staging.Region

/-- The region lets a move be undone. -/
def Accepts (r : Region) (m : HeaderMove) : Prop :=
  ∃ r', r.retreat m = .ok () r'

/-- **A region accepts a recorded move** exactly when the move led to its base. -/
theorem accepts_iff {r origin : Region} {m : HeaderMove} (hr : r.Valid) (hm : m.Within origin) :
    r.Accepts m ↔ r.base = m.newBase := by
  constructor
  · rintro ⟨r', hback⟩
    by_contra hne
    rw [retreat_of_ne hne] at hback
    cases hback
  · intro hbase
    obtain ⟨r', hback, -⟩ := retreat_of_within hr hm hbase
    exact ⟨r', hback⟩

/-- A region with the log of its moves, and the moves that were not undone yet. -/
structure Journal where
  logged : Logged
  /-- Newest first. -/
  pending : List HeaderMove
deriving DecidableEq

namespace Journal

/-- A region whose header has not moved. -/
def start (r : Region) : Journal := ⟨.start r, []⟩

/-- The moves that are pending after an operation that succeeded. -/
def pendingAfter (j : Journal) (operation : Operation) (moves : List HeaderMove) :
    List HeaderMove :=
  match operation with
  | .advance _ => moves.getLast?.toList ++ j.pending
  | .retreat number => (j.logged.moves[number]?).elim j.pending j.pending.erase
  | .handOut _ _ | .coalesce _ | .takeBack _ => j.pending

/-- The journal after an operation. -/
def next (j : Journal) (operation : Operation) : Journal :=
  match j.logged.perform operation with
  | .ok _ logged => ⟨logged, j.pendingAfter operation logged.moves⟩
  | .error _ logged => ⟨logged, j.pending⟩
  | .trap _ _ => j

/-- The journal after operations in their order. -/
def run (j : Journal) (operations : List Operation) : Journal :=
  operations.foldl next j

/-- The operation undoes no move but the newest one that is pending. -/
def OnlyNewest (j : Journal) : Operation → Prop
  | .retreat number => ∀ m, j.logged.moves[number]? = some m → j.logged.region.Accepts m →
      j.pending.head? = some m
  | _ => True

/-- No operation of a run undoes a move but the newest one that is pending. -/
def InOrder (j : Journal) : List Operation → Prop
  | [] => True
  | operation :: rest => j.OnlyNewest operation ∧ (j.next operation).InOrder rest

variable {origin : Region} {j : Journal} {operation : Operation}

/-! ### The log -/

theorem next_of_ok {logged : Logged} (h : j.logged.perform operation = .ok () logged) :
    j.next operation = ⟨logged, j.pendingAfter operation logged.moves⟩ := by
  rw [next, h]

theorem next_of_error {cause : Heap.Error}
    (h : j.logged.perform operation = .error cause j.logged) :
    j.next operation = j := by
  rw [next, h]

/-- An operation succeeds, or leaves the journal as it is. -/
theorem next_cases (h : j.logged.Sound origin) (operation : Operation) :
    (∃ logged, j.logged.perform operation = .ok () logged ∧
      j.next operation = ⟨logged, j.pendingAfter operation logged.moves⟩) ∨
    (∃ cause, j.logged.perform operation = .error cause j.logged) ∧ j.next operation = j := by
  rcases (h.perform_clean operation).ok_or_error with ⟨_, logged, hop⟩ | ⟨cause, hop⟩
  · exact .inl ⟨logged, hop, next_of_ok hop⟩
  · exact .inr ⟨⟨cause, hop⟩, next_of_error hop⟩

theorem sound_next (h : j.logged.Sound origin) : (j.next operation).logged.Sound origin := by
  rcases next_cases h operation with ⟨logged, hop, hnext⟩ | ⟨-, hnext⟩ <;> rw [hnext]
  · exact h.perform hop
  · exact h

/-- The region and its log are those of a run without a journal. -/
theorem logged_run (h : j.logged.Sound origin) (operations : List Operation) :
    (j.run operations).logged = j.logged.run operations := by
  induction operations generalizing j with
  | nil => rfl
  | cons operation rest ih =>
      have hrest : (j.run (operation :: rest)).logged = (j.next operation).logged.run rest :=
        ih (sound_next h)
      rw [hrest, Logged.run]
      rcases next_cases h operation with ⟨logged, hop, hnext⟩ | ⟨⟨cause, hop⟩, hnext⟩ <;>
        rw [hnext, hop]

/-- A log only grows. -/
theorem subset_next (h : j.logged.Sound origin) :
    j.logged.moves ⊆ (j.next operation).logged.moves := by
  rcases next_cases h operation with ⟨logged, hop, hnext⟩ | ⟨-, hnext⟩ <;> rw [hnext]
  case inr => exact List.Subset.refl _
  case inl =>
    cases operation with
    | handOut index piece =>
        obtain ⟨s, hwithin, -⟩ := Outcome.map_eq_ok_iff.1 hop
        obtain ⟨_, -, rfl⟩ := Outcome.within_eq_ok_iff.1 hwithin
        exact List.Subset.refl _
    | coalesce index =>
        obtain ⟨_, -, hend⟩ := Outcome.orTrap_eq_ok_iff.1 hop
        cases hend
        exact List.Subset.refl _
    | takeBack piece =>
        obtain ⟨_, -, rfl⟩ := Outcome.within_eq_ok_iff.1 hop
        exact List.Subset.refl _
    | advance newBase =>
        obtain ⟨m, r', -, rfl⟩ := Logged.perform_advance_eq_ok hop
        exact List.subset_append_left _ _
    | retreat number =>
        cases hm : j.logged.moves[number]? with
        | none =>
            cases (Logged.perform_retreat_of_none hm).symm.trans hop
            exact List.Subset.refl _
        | some m =>
            rw [Logged.perform_retreat_of_some hm] at hop
            obtain ⟨_, -, rfl⟩ := Outcome.within_eq_ok_iff.1 hop
            exact List.Subset.refl _

theorem subset_run (h : j.logged.Sound origin) (operations : List Operation) :
    j.logged.moves ⊆ (j.run operations).logged.moves := by
  induction operations generalizing j with
  | nil => exact List.Subset.refl _
  | cons operation rest ih => exact List.Subset.trans (subset_next h) (ih (sound_next h))

/-! ### Moves undone newest first -/

/-- The pending moves are recorded, and lead from the first base to the present one. -/
structure Orderly (origin : Region) (j : Journal) : Prop where
  sound : j.logged.Sound origin
  chain : HeaderMove.Chain origin.base origin.head j.pending.reverse j.logged.region.base
    j.logged.region.head
  recorded : j.pending ⊆ j.logged.moves

theorem orderly_start (hr : origin.Valid) : Orderly origin (start origin) :=
  ⟨Logged.sound_start hr, ⟨rfl, rfl⟩, List.nil_subset _⟩

/-- The newest pending move led to the present base. -/
theorem Orderly.base_eq (h : Orderly origin j) {newest : HeaderMove}
    (hnewest : j.pending.head? = some newest) : j.logged.region.base = newest.newBase := by
  obtain ⟨rest, hpending⟩ := List.head?_eq_some_iff.1 hnewest
  have hchain := h.chain
  rw [hpending, List.reverse_cons, HeaderMove.chain_append] at hchain
  obtain ⟨_, _, -, hlast⟩ := hchain
  exact (HeaderMove.chain_singleton.1 hlast).2.2.2.2.1.symm

/-- Where a move led, some move is pending. -/
theorem Orderly.exists_newest (h : Orderly origin j) {m : HeaderMove} (hm : m ∈ j.logged.moves)
    (hbase : j.logged.region.base = m.newBase) : ∃ newest, j.pending.head? = some newest := by
  cases hpending : j.pending with
  | cons newest rest => exact ⟨newest, rfl⟩
  | nil =>
      have hwithin := h.sound.moves m hm
      have hle := hwithin.base_le
      have hlt := hwithin.lt
      have hchain := h.chain
      rw [hpending] at hchain
      have := hchain.1
      omega

/-- **What is accepted** has the new base of the newest pending move. -/
theorem Orderly.accepts_iff (h : Orderly origin j) {m : HeaderMove} (hm : m ∈ j.logged.moves) :
    j.logged.region.Accepts m ↔
      ∃ newest, j.pending.head? = some newest ∧ newest.newBase = m.newBase := by
  rw [Region.accepts_iff h.sound.replaces.valid (h.sound.moves m hm)]
  constructor
  · intro hbase
    obtain ⟨newest, hnewest⟩ := h.exists_newest hm hbase
    exact ⟨newest, hnewest, (h.base_eq hnewest).symm.trans hbase⟩
  · rintro ⟨newest, hnewest, hsame⟩
    exact (h.base_eq hnewest).trans hsame

/-- An operation that leaves the header where it was keeps the order. -/
theorem Orderly.stay (h : Orderly origin j) {r : Region} (hr : r.Replaces origin)
    (hbase : r.base = j.logged.region.base) :
    Orderly origin ⟨{ j.logged with region := r }, j.pending⟩ := by
  have hhead : r.head = j.logged.region.head :=
    hr.valid.head_eq (hbase ▸ h.sound.replaces.valid.head)
  refine ⟨⟨hr, h.sound.moves⟩, ?_, h.recorded⟩
  dsimp only
  rw [hbase, hhead]
  exact h.chain

/-- A new move is put on top of the pending ones. -/
theorem Orderly.push (h : Orderly origin j) {r : Region} {m : HeaderMove} {newBase : Nat}
    (hadv : j.logged.region.advance newBase = .ok m r)
    (hsound : Logged.Sound origin ⟨r, j.logged.moves ++ [m]⟩) :
    Orderly origin ⟨⟨r, j.logged.moves ++ [m]⟩, m :: j.pending⟩ := by
  have hr := h.sound.replaces.valid
  obtain ⟨rfl, hr', -, rfl, -, hlt, -⟩ := advance_spec hr hadv
  have hhead := (ceilTo?_headerAlign.1 hr.head).2
  have hhead' := (ceilTo?_headerAlign.1 hr'.head).2
  have hle : j.logged.region.head ≤ r.head := by omega
  refine ⟨hsound, ?_, ?_⟩
  · rw [List.reverse_cons, HeaderMove.chain_append]
    exact ⟨_, _, h.chain, HeaderMove.chain_singleton.2 ⟨rfl, rfl, hlt, hle, rfl, rfl⟩⟩
  · refine List.cons_subset.2 ⟨List.mem_append_right _ List.mem_cons_self, ?_⟩
    exact List.Subset.trans h.recorded (List.subset_append_left _ _)

/-- The newest pending move is taken off when it is undone. -/
theorem Orderly.pop (h : Orderly origin j) {r : Region} {m : HeaderMove} {rest : List HeaderMove}
    (hpending : j.pending = m :: rest) (hback : j.logged.region.retreat m = .ok () r)
    (hsound : Logged.Sound origin { j.logged with region := r }) :
    Orderly origin ⟨{ j.logged with region := r }, rest⟩ := by
  have hr := h.sound.replaces.valid
  have hchain := h.chain
  have hrecorded := h.recorded
  rw [hpending] at hchain hrecorded
  rw [List.reverse_cons, HeaderMove.chain_append] at hchain
  obtain ⟨hm, hrest⟩ := List.cons_subset.1 hrecorded
  -- The move that is undone is the last one of the chain.
  obtain ⟨base, head, hbelow, hlast⟩ := hchain
  obtain ⟨rfl, rfl, -⟩ := HeaderMove.chain_singleton.1 hlast
  have hwithin := h.sound.moves m hm
  have hbase := (Region.accepts_iff hr hwithin).1 ⟨r, hback⟩
  obtain ⟨r', hback', -, -, hbase', hhead', -⟩ := retreat_of_within hr hwithin hbase
  cases hback.symm.trans hback'
  refine ⟨hsound, ?_, hrest⟩
  dsimp only
  rw [hbase', hhead']
  exact hbelow

/-- **An operation that undoes at most the newest move** keeps the order of the pending moves. -/
theorem Orderly.next (h : Orderly origin j) (hnewest : j.OnlyNewest operation) :
    Orderly origin (j.next operation) := by
  have hr := h.sound.replaces.valid
  rcases next_cases h.sound operation with ⟨logged, hop, hnext⟩ | ⟨-, hnext⟩ <;> rw [hnext]
  case inr => exact h
  case inl =>
    have hsound := h.sound.perform hop
    cases operation with
    | handOut index piece =>
        obtain ⟨s, hwithin, -⟩ := Outcome.map_eq_ok_iff.1 hop
        obtain ⟨r, hout, rfl⟩ := Outcome.within_eq_ok_iff.1 hwithin
        obtain ⟨-, -, hbase, -⟩ := handOut_spec hr hout
        exact h.stay hsound.replaces hbase
    | coalesce index =>
        obtain ⟨index', hsame⟩ := hr.coalesce index
        rw [Logged.perform, hsame] at hop
        cases hop
        exact h.stay hsound.replaces rfl
    | takeBack piece =>
        obtain ⟨r, hback, rfl⟩ := Outcome.within_eq_ok_iff.1 hop
        obtain ⟨r', hback', -, -, hbase, -⟩ := takeBack_spec hr (mem_used_of_takeBack hback)
        cases hback.symm.trans hback'
        exact h.stay hsound.replaces hbase
    | advance newBase =>
        obtain ⟨m, r, hadv, rfl⟩ := Logged.perform_advance_eq_ok hop
        have hpending : j.pendingAfter (.advance newBase) (j.logged.moves ++ [m]) =
            m :: j.pending := by
          rw [pendingAfter, List.getLast?_concat]
          rfl
        rw [hpending]
        exact h.push hadv hsound
    | retreat number =>
        cases hm : j.logged.moves[number]? with
        | none =>
            cases (Logged.perform_retreat_of_none hm).symm.trans hop
            rw [pendingAfter, hm]
            exact h
        | some m =>
            rw [Logged.perform_retreat_of_some hm] at hop
            obtain ⟨r, hback, rfl⟩ := Outcome.within_eq_ok_iff.1 hop
            obtain ⟨rest, hpending⟩ := List.head?_eq_some_iff.1 (hnewest m hm ⟨r, hback⟩)
            have hrest : j.pendingAfter (.retreat number) j.logged.moves = rest := by
              rw [pendingAfter, hm, hpending]
              exact List.erase_cons_head m rest
            dsimp only [Logged.withRegion] at hsound ⊢
            rw [hrest]
            exact h.pop hpending hback hsound

/-- **A run that undoes moves newest first** keeps the order of the pending moves. -/
theorem Orderly.run (h : Orderly origin j) {operations : List Operation}
    (hinorder : j.InOrder operations) : Orderly origin (j.run operations) := by
  induction operations generalizing j with
  | nil => exact h
  | cons operation rest ih => exact ih (h.next hinorder.1) hinorder.2

/-- If no two different moves led to one base, a run can only undo moves newest first. -/
theorem Orderly.inOrder (h : Orderly origin j) {operations : List Operation}
    (hdistinct : ∀ a ∈ (j.run operations).logged.moves, ∀ b ∈ (j.run operations).logged.moves,
      a.newBase = b.newBase → a = b) : j.InOrder operations := by
  induction operations generalizing j with
  | nil => trivial
  | cons operation rest ih =>
      have hnewest : j.OnlyNewest operation := by
        cases operation with
        | retreat number =>
            intro m hm haccepts
            have hmem := List.mem_of_getElem? hm
            obtain ⟨newest, hnewest, hsame⟩ := (h.accepts_iff hmem).1 haccepts
            have hmem' := h.recorded (List.mem_of_head? hnewest)
            rw [hnewest, hdistinct newest (subset_run h.sound _ hmem') m
              (subset_run h.sound _ hmem) hsame]
        | handOut | coalesce | takeBack | advance => trivial
      exact ⟨hnewest, ih (h.next hnewest) hdistinct⟩

/-- **A refused record** changes nothing. -/
theorem refused (hj : j.logged.Sound origin) {number : Nat} {m : HeaderMove}
    (hm : j.logged.moves[number]? = some m) (hnot : ¬ j.logged.region.Accepts m) :
    j.logged.region.retreat m =
        .error (.inconsistent (.ofBoundsD m.oldBase m.newBase)) j.logged.region ∧
      j.next (.retreat number) = j := by
  have haccepts := Region.accepts_iff hj.replaces.valid (hj.moves m (List.mem_of_getElem? hm))
  have hrefused := retreat_of_ne (mt haccepts.2 hnot)
  have hperform : j.logged.perform (.retreat number) =
      .error (.inconsistent (.ofBoundsD m.oldBase m.newBase)) j.logged := by
    rw [Logged.perform_retreat_of_some hm, hrefused]
    rfl
  exact ⟨hrefused, next_of_error hperform⟩

/-! ### The newest move -/

/-- **What a region lets be undone.**  Whatever was asked of a region, it accepts a recorded move
exactly when the move led to its present base, and else refuses it and does not change.  If moves
were undone newest first so far, the records that are accepted are those with the new base of the
newest pending move, so the newest one always is.  If moreover no two different moves led to one
base, it is the only one: the record of a move that was undone already, or that others are on top
of, is refused. -/
theorem accepts_newest {id : RegionId} {extent : Extent} {r : Region} {operations : List Operation}
    (hcreate : create id extent = .ok r) (hj : (start r).run operations = j) :
    j.logged = (Logged.start r).run operations ∧
      ∀ number m, j.logged.moves[number]? = some m →
        (j.logged.region.Accepts m ↔ j.logged.region.base = m.newBase) ∧
        (¬ j.logged.region.Accepts m →
          j.logged.region.retreat m =
              .error (.inconsistent (.ofBoundsD m.oldBase m.newBase)) j.logged.region ∧
            j.next (.retreat number) = j) ∧
        ((start r).InOrder operations → (j.logged.region.Accepts m ↔
          ∃ newest, j.pending.head? = some newest ∧ newest.newBase = m.newBase)) ∧
        ((∀ a ∈ j.logged.moves, ∀ b ∈ j.logged.moves, a.newBase = b.newBase → a = b) →
          (j.logged.region.Accepts m ↔ j.pending.head? = some m)) := by
  subst hj
  have hstart := orderly_start (create_valid hcreate).1
  have hlogged := logged_run hstart.sound operations
  have hsound : ((start r).run operations).logged.Sound r := by
    rw [hlogged]
    exact hstart.sound.run operations
  refine ⟨hlogged, fun number m hm => ?_⟩
  have hmem := List.mem_of_getElem? hm
  refine ⟨Region.accepts_iff hsound.replaces.valid (hsound.moves m hmem), refused hsound hm,
    fun hinorder => (hstart.run hinorder).accepts_iff hmem, fun hdistinct => ?_⟩
  have horderly := hstart.run (hstart.inOrder hdistinct)
  rw [horderly.accepts_iff hmem]
  constructor
  · rintro ⟨newest, hnewest, hsame⟩
    rw [hnewest, hdistinct newest (horderly.recorded (List.mem_of_head? hnewest)) m hmem hsame]
  · intro hnewest
    exact ⟨m, hnewest, rfl⟩

/-- The older of two pending moves is refused, and the newer one is accepted, while a piece of the
body is handed out. -/
theorem accepts_newest_of_two : ∃ (j : Journal) (older newer : HeaderMove),
    (start smallRegion).run [.advance 0x1021, .handOut 0 smallPieces.1, .advance 0x1041] = j ∧
      j.logged.moves = [older, newer] ∧ j.pending = [newer, older] ∧
      older.newBase = 0x1021 ∧ newer.newBase = 0x1041 ∧
      j.logged.region.Accepts newer ∧ ¬ j.logged.region.Accepts older ∧
      j.next (.retreat 0) = j := by
  let operations : List Operation :=
    [.advance 0x1021, .handOut 0 smallPieces.1, .advance 0x1041]
  let older : HeaderMove := ⟨0x1008, 0x1010, 0x1021, 0x1030⟩
  let newer : HeaderMove := ⟨0x1021, 0x1030, 0x1041, 0x1050⟩
  obtain ⟨j, hj⟩ : ∃ j, (start smallRegion).run operations = j := ⟨_, rfl⟩
  have hmoves : j.logged.moves = [older, newer] := by
    subst hj
    decide +kernel
  have hpending : j.pending = [newer, older] := by
    subst hj
    decide +kernel
  have hdistinct : ∀ a ∈ j.logged.moves, ∀ b ∈ j.logged.moves, a.newBase = b.newBase → a = b := by
    rw [hmoves]
    decide
  have hnewest := (accepts_newest create_smallRegion hj).2
  have holder := hnewest 0 older (by rw [hmoves]; rfl)
  have hnewer := hnewest 1 newer (by rw [hmoves]; rfl)
  have hnot : ¬ j.logged.region.Accepts older := by
    rw [holder.2.2.2 hdistinct, hpending]
    decide
  refine ⟨j, older, newer, hj, hmoves, hpending, rfl, rfl, ?_, hnot, (holder.2.1 hnot).2⟩
  rw [hnewer.2.2.2 hdistinct, hpending]
  rfl

/-- **A stale record is accepted.**  The first move is undone, and two other moves lead to the same
base.  Then the record of the first one is accepted again, though the newest pending move is another
one; and after that no pending move can be undone. -/
theorem accepts_stale : ∃ (j : Journal) (stale older newer : HeaderMove) (r' : Region),
    (start smallRegion).run [.advance 0x1041, .retreat 0, .advance 0x1021, .advance 0x1041] = j ∧
      j.logged.moves = [stale, older, newer] ∧ j.pending = [newer, older] ∧ stale ≠ newer ∧
      j.logged.region.retreat stale = .ok () r' ∧ r'.base = smallRegion.base ∧
      ¬ r'.Accepts newer ∧ ¬ r'.Accepts older := by
  let stale : HeaderMove := ⟨0x1008, 0x1010, 0x1041, 0x1050⟩
  let older : HeaderMove := ⟨0x1008, 0x1010, 0x1021, 0x1030⟩
  let newer : HeaderMove := ⟨0x1021, 0x1030, 0x1041, 0x1050⟩
  let j := (start smallRegion).run
    [.advance 0x1041, .retreat 0, .advance 0x1021, .advance 0x1041]
  have hback : j.logged.region.retreat stale = .ok () smallRegion := by decide +kernel
  refine ⟨j, stale, older, newer, smallRegion, rfl, by decide +kernel, by decide +kernel,
    by decide, hback, rfl, ?_, ?_⟩ <;>
  · rintro ⟨r', haccepts⟩
    rw [retreat_of_ne (by decide)] at haccepts
    cases haccepts

end Journal

end Staging.Region

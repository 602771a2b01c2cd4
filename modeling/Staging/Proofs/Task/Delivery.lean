import Staging.Proofs.Code.Emission
import Staging.Proofs.Task.Reach

/-!
# The movers deliver every chunk

The movers run in the order of the sources.  If a target lies over the source of another chunk only
where that source comes first, each source still has its bytes when its mover starts, so in the end
every target has what its source had at the start (`prepare_delivers`).
-/

namespace Staging

/-- The target has what the source had before. -/
def Chunk.Delivered (c : Chunk) (before after : Memory) : Prop :=
  ∀ k < c.size, after (c.target.start + k) = before (c.source.start + k)

namespace Task

variable {φ γ : Type}

/-- A target lies over the source of another chunk only if that source comes first. -/
def Orderly (chunks : List Chunk) : Prop :=
  ∀ i j : Fin chunks.length, i ≠ j → chunks[i].target.intersects chunks[j].source = true →
    chunks[j].source.start < chunks[i].source.start

instance (chunks : List Chunk) : Decidable (Orderly chunks) :=
  inferInstanceAs (Decidable (∀ i j : Fin chunks.length, i ≠ j →
    chunks[i].target.intersects chunks[j].source = true →
      chunks[j].source.start < chunks[i].source.start))

/-- Without hazards no target lies over the source of another chunk. -/
theorem orderly_of_hazards {task : Task} (h : task.hazards = []) : Orderly task.chunks := by
  intro i j hne hhit
  have hi := List.getElem?_eq_getElem i.isLt
  have hj := List.getElem?_eq_getElem j.isLt
  have hmem := mem_hazards_iff.2 ⟨i, j, _, _, hi, hj, Fin.val_ne_of_ne hne, hhit, rfl⟩
  rw [h] at hmem
  cases hmem

/-! ### The move of one chunk -/

theorem mem_target_iff {c : Chunk} (h : c.target.length = c.source.length) {x : Nat} :
    x ∈ c.target ↔ c.target.start ≤ x ∧ x < c.target.start + c.size := by
  have hle := c.target.start_le_stop
  simp only [Extent.length] at h
  simp only [Extent.mem_iff, Chunk.size, Extent.length]
  omega

/-- **The move of a chunk** delivers it, and changes nothing outside its target. -/
theorem runAll_move? {c : Chunk} (h : c.target.length = c.source.length) (memory : Memory) :
    c.Delivered memory (Move.runAll c.move?.toList memory) ∧
      ∀ x, x ∉ c.target → Move.runAll c.move?.toList memory x = memory x := by
  cases hmove : c.move? with
  | none =>
      refine ⟨fun k _ => ?_, fun x _ => rfl⟩
      rw [Chunk.start_eq_of_move? hmove]
      rfl
  | some m =>
      obtain ⟨hcopied, hkept⟩ := Move.run_spec (Chunk.fits_of_move? hmove) memory
      obtain ⟨direction, -, rfl⟩ := Option.map_eq_some_iff.1 hmove
      refine ⟨hcopied, fun x hx => hkept x ?_⟩
      rw [mem_target_iff h, not_and_or, not_le, not_lt] at hx
      exact hx

/-! ### The moves of all chunks -/

/-- **Chunks whose targets are off the other targets and off the sources of later chunks** are all
delivered.  The mover of the first chunk leaves all other sources as they were, and the movers
behind it leave its target alone. -/
theorem runAll_moves {chunks : List Chunk}
    (hlength : ∀ c ∈ chunks, c.target.length = c.source.length)
    (hapart : chunks.Pairwise fun a b => a.target.Apart b.target ∧ a.target.Apart b.source)
    (memory : Memory) :
    (∀ c ∈ chunks, c.Delivered memory (Move.runAll (chunks.filterMap (·.move?)) memory)) ∧
      ∀ x, (∀ c ∈ chunks, x ∉ c.target) →
        Move.runAll (chunks.filterMap (·.move?)) memory x = memory x := by
  induction chunks generalizing memory with
  | nil => simp [Move.runAll]
  | cons c rest ih =>
      obtain ⟨hfirst, hrest⟩ := List.pairwise_cons.1 hapart
      obtain ⟨hc, hcs⟩ := List.forall_mem_cons.1 hlength
      obtain ⟨hdelivered, hkept⟩ := runAll_move? hc memory
      obtain ⟨hdelivered', hkept'⟩ := ih hcs hrest (Move.runAll c.move?.toList memory)
      have hrun : Move.runAll ((c :: rest).filterMap (·.move?)) memory =
          Move.runAll (rest.filterMap (·.move?)) (Move.runAll c.move?.toList memory) := by
        cases hmove : c.move? <;> simp [Move.runAll, hmove]
      rw [hrun]
      refine ⟨fun b hb k hk => ?_, fun x hx => ?_⟩
      · rcases List.mem_cons.1 hb with rfl | hb
        -- The later movers store nothing into this target.
        · have htarget : b.target.start + k ∈ b.target := (mem_target_iff hc).2 (by omega)
          rw [hkept' _ fun a ha => (hfirst a ha).1.not_mem htarget]
          exact hdelivered k hk
        -- The first mover stored nothing into the later sources.
        · have hsource : b.source.start + k ∈ b.source := by
            simp only [Chunk.size, Extent.length] at hk
            exact Extent.mem_iff.2 (by omega)
          rw [hdelivered' b hb k hk]
          exact hkept _ ((hfirst b hb).2.symm.not_mem hsource)
      · obtain ⟨hxc, hxrest⟩ := List.forall_mem_cons.1 hx
        rw [hkept' x hxrest, hkept x hxc]

/-! ### The sequence of the chunks -/

theorem sequence_perm (task : Task) (code : Extent) :
    (task.sequence code).Perm (task.chunks.filter fun c => c.source ≠ code) :=
  List.mergeSort_perm _ _

theorem pairwise_sequence (task : Task) (code : Extent) :
    (task.sequence code).Pairwise fun a b => a.source.start ≤ b.source.start := by
  have htrans (a b c : Chunk) (hab : decide (a.source.start ≤ b.source.start) = true)
      (hbc : decide (b.source.start ≤ c.source.start) = true) :
      decide (a.source.start ≤ c.source.start) = true :=
    decide_eq_true (Nat.le_trans (of_decide_eq_true hab) (of_decide_eq_true hbc))
  have htotal (a b : Chunk) :
      (decide (a.source.start ≤ b.source.start) || decide (b.source.start ≤ a.source.start)) =
        true := by
    rw [Bool.or_eq_true, decide_eq_true_eq, decide_eq_true_eq]
    exact Nat.le_total _ _
  exact (List.pairwise_mergeSort htrans htotal _).imp of_decide_eq_true

theorem mem_sequence_iff {task : Task} {code : Extent} {c : Chunk} :
    c ∈ task.sequence code ↔ c ∈ task.chunks ∧ c.source ≠ code := by
  rw [(sequence_perm task code).mem_iff, List.mem_filter, decide_eq_true_eq]

/-- What holds of all pairs of chunks holds along their sequence. -/
theorem pairwise_sequence_of {task : Task} {S : Chunk → Chunk → Prop}
    (hsymm : ∀ {a b}, S a b → S b a) (h : task.chunks.Pairwise S) (code : Extent) :
    (task.sequence code).Pairwise S :=
  ((sequence_perm task code).pairwise_iff hsymm).2 (h.filter _)

/-- In the order of the sources no target lies over the source of a later chunk. -/
theorem sequence_apart {task : Task} (harranged : Arranged task.chunks)
    (horderly : Orderly task.chunks) (code : Extent) : (task.sequence code).Pairwise fun a b =>
      a.target.Apart b.target ∧ a.target.Apart b.source := by
  have htargets : (task.sequence code).Pairwise fun a b => a.target.Apart b.target :=
    pairwise_sequence_of Extent.Apart.symm (harranged.apart.imp And.left) code
  have hover : task.chunks.Pairwise fun a b =>
      (a.target.intersects b.source = true → b.source.start < a.source.start) ∧
        (b.target.intersects a.source = true → a.source.start < b.source.start) := by
    refine List.pairwise_iff_getElem.2 fun i j hi hj hlt => ?_
    have hne : (⟨i, hi⟩ : Fin task.chunks.length) ≠ ⟨j, hj⟩ := Fin.ne_of_val_ne (Nat.ne_of_lt hlt)
    exact ⟨horderly ⟨i, hi⟩ ⟨j, hj⟩ hne, horderly ⟨j, hj⟩ ⟨i, hi⟩ hne.symm⟩
  have hsources := (pairwise_sequence_of And.symm hover code).and (pairwise_sequence task code)
  refine htargets.imp₂ (fun a b htarget ⟨⟨hab, _⟩, hle⟩ => ⟨htarget, ?_⟩) hsources
  by_cases hhit : a.target.intersects b.source = true
  · have := hab hhit
    omega
  · exact Extent.intersects_eq_false_iff.1 (Bool.eq_false_iff.2 hhit)

/-! ### The relocation code -/

section Code

variable {origin : Heap} {track : φ → List Extent → Prop} {chunks : List Chunk} {c : Chunk}
  {code : Extent} {s : Running φ}

/-- The sequence has all chunks but the one of the relocation code. -/
theorem mem_of_mem_sequence (hadds : Adds origin track chunks c s) (hsource : c.source = code)
    {b : Chunk} (hb : b ∈ s.task.sequence code) : b ∈ chunks := by
  obtain ⟨hmem, hne⟩ := mem_sequence_iff.1 hb
  rw [hadds.chunks, List.mem_append, List.mem_singleton] at hmem
  rcases hmem with hmem | rfl
  · exact hmem
  · exact absurd hsource hne

/-- **The targets of the sequence are off the relocation code**, which is in place. -/
theorem target_apart_code (hadds : Adds origin track chunks c s) (hsource : c.source = code)
    (htarget : c.target = code) {b : Chunk} (hb : b ∈ s.task.sequence code) :
    b.target.Apart code := by
  have hapart := hadds.staged.arranged.apart
  rw [hadds.chunks, List.pairwise_append] at hapart
  rw [← htarget]
  exact (hapart.2.2 b (mem_of_mem_sequence hadds hsource hb) c (List.mem_singleton.2 rfl)).1

/-- A chunk is in the sequence, or it is the one of the relocation code. -/
theorem mem_sequence_or (hv : origin.Valid) (hadds : Adds origin track chunks c s)
    (hsource : c.source = code) {b : Chunk} (hb : b ∈ s.task.chunks) :
    b ∈ s.task.sequence code ∨ b = c := by
  have hchunks := hadds.chunks
  have hc : c ∈ s.task.chunks := by simp [hchunks]
  have hsources := sources_apart hv hadds.staged.owes.heap hadds.staged.arranged
  rw [hchunks] at hb
  rcases List.mem_append.1 hb with hb | hb
  · refine Or.inl (mem_sequence_iff.2 ⟨by simp [hchunks, hb], fun heq => ?_⟩)
    rw [hchunks] at hsources
    have hapart := (List.pairwise_append.1 hsources).2.2 b hb c (List.mem_singleton.2 rfl)
    rw [heq, ← hsource] at hapart
    exact Extent.not_apart_self (hadds.staged.arranged.whole c hc).start_lt hapart
  · exact Or.inr (List.mem_singleton.1 hb)

end Code

/-! ### The hand-off -/

/-- Chunks that are in the order of their sources stay in it. -/
theorem sequence_of_pairwise {task : Task} {code : Extent}
    (h : (task.chunks.filter fun c => c.source ≠ code).Pairwise fun a b =>
      a.source.start ≤ b.source.start) :
    task.sequence code = task.chunks.filter fun c => c.source ≠ code :=
  List.mergeSort_of_pairwise (h.imp decide_eq_true)

/-- **A hand-off has a value** if its code has a place and the emission does not trap. -/
theorem prepare_eq_ok {fw : Firmware φ} {gen : Code.Generator γ} {s s₁ : Running φ} {code : Extent}
    (h : stageCode fw gen s = .ok code s₁) {contents : Nat → UInt8} {entry : Nat} {generator : γ}
    {emission : Code.Emission γ} {outcome : Except Code.Error Unit}
    (hrun : Code.Emission.run gen (s₁.task.sequence code) entry code
      ((List.range' code.start code.length).map contents) generator =
        (outcome.mapError .error, emission)) :
    ∃ s', prepare fw gen contents entry generator s =
        .ok ⟨code, emission.buffer, emission.calls, emission.state, outcome⟩ s' ∧
      s'.task = s₁.task := by
  have hnotes (l : List Notice) (s' : Running φ) :
      l.forM note s' = .ok () { s' with notices := l.foldl (·.push ·) s'.notices } :=
    notes_eq id l
  rw [prepare, bind_of_ok h, bind_of_ok (books_eq s₁), bind_of_ok (hnotes _ _)]
  dsimp only
  rw [hrun]
  dsimp only
  rw [bind_of_ok (hnotes _ _)]
  cases outcome <;> exact ⟨_, rfl, rfl⟩

/-- **The movers deliver every chunk.**  If a target lies over the source of another chunk only
where that source comes first, as without hazards, then after the movers of a hand-off, run on any
memory in the order of their emission, every target has what its source had, and every byte
outside the targets is unchanged.  No mover stores into the relocation code. -/
theorem prepare_delivers {fw : Firmware φ} {gens : Code.Generator γ → Prop}
    {gen : Code.Generator γ} {origin : Heap} {firmware : φ} {s s' : Running φ}
    {contents : Nat → UInt8} {entry : Nat} {generator : γ} {prepared : Prepared γ}
    (horigin : origin.Reachable) (h : Reach fw gens origin firmware s)
    (hprepare : prepare fw gen contents entry generator s = .ok prepared s')
    (hdone : prepared.outcome = .ok ()) :
    (s'.task.hazards = [] → Orderly s'.task.chunks) ∧
      (Orderly s'.task.chunks → ∀ memory : Memory,
        (∀ c ∈ s'.task.chunks,
          c.Delivered memory (Move.runAll (Code.movesOf prepared.calls) memory)) ∧
        ∀ x, (∀ c ∈ s'.task.chunks, x ∉ c.target) →
          Move.runAll (Code.movesOf prepared.calls) memory x = memory x) ∧
      ∀ m ∈ Code.movesOf prepared.calls, ∀ k < m.size, m.target + k ∉ prepared.code := by
  have hv := horigin.valid
  have hstaged := h.staged hv fw.tracks_nothing trivial
  obtain ⟨c, hsource, htarget, hadds, emission, hrun, hcalls⟩ :=
    (prepare_spec hv fw.tracks_nothing contents entry generator hstaged).of_ok hprepare
  rw [hdone] at hrun
  rw [hcalls, Code.Emission.moves_run hrun]
  have hlength : ∀ b ∈ s'.task.chunks, b.target.length = b.source.length := fun b hb =>
    (hadds.staged.arranged.whole b hb).length
  have hmem : ∀ b ∈ s'.task.sequence prepared.code, b ∈ s'.task.chunks := fun b hb =>
    (mem_sequence_iff.1 hb).1
  refine ⟨orderly_of_hazards, fun horderly memory => ?_, fun m hm k hk => ?_⟩
  · obtain ⟨hdelivered, hkept⟩ := runAll_moves (fun b hb => hlength b (hmem b hb))
      (sequence_apart hadds.staged.arranged horderly prepared.code) memory
    refine ⟨fun b hb => ?_, fun x hx => hkept x fun b hb => hx b (hmem b hb)⟩
    rcases mem_sequence_or hv hadds hsource hb with hb' | rfl
    · exact hdelivered b hb'
    · -- The relocation code is in place, and off the targets of all other chunks.
      intro k hk
      have htarget' := (mem_target_iff (hlength b hb)).2 ⟨Nat.le_add_right _ k, by omega⟩
      rw [hkept _ fun a ha hx => ?_, hsource, htarget]
      exact (target_apart_code hadds hsource htarget ha).not_mem hx (htarget ▸ htarget')
  · obtain ⟨b, hb, hmove⟩ := List.mem_filterMap.1 hm
    obtain ⟨direction, -, rfl⟩ := Option.map_eq_some_iff.1 hmove
    have hx := (mem_target_iff (hlength b (hmem b hb))).2
      ⟨Nat.le_add_right _ k, Nat.add_lt_add_left hk _⟩
    exact (target_apart_code hadds hsource htarget hb).not_mem hx

/-- Two chunks, of which the second has its target over the source of the first and over its
own. -/
theorem prepare_delivers_two : ∃ (s s' : Running Firmware.Table)
    (prepared : Prepared Code.Script.Count),
    run? Firmware.ofTable smallGenerator [.stageAt 0x200000 0x200, .stageAt 0x8d80 0x100]
        { task := Task.start {} smallGenerator, firmware := smallFirmware } = some s ∧
      prepare Firmware.ofTable smallGenerator (fun _ => 0) 0x200000 {} s = .ok prepared s' ∧
      prepared.outcome = .ok () ∧ s'.task.hazards.length = 1 ∧ Orderly s'.task.chunks ∧
      Code.movesOf prepared.calls =
        [⟨0x8c00, 0x200000, 0x200, .backward⟩, ⟨0x8e00, 0x8d80, 0x100, .forward⟩] ∧
      ∀ memory : Memory, ∀ c ∈ s'.task.chunks,
        c.Delivered memory (Move.runAll (Code.movesOf prepared.calls) memory) := by
  have hends : (run? Firmware.ofTable smallGenerator
      [.stageAt 0x200000 0x200, .stageAt 0x8d80 0x100]
      { task := Task.start {} smallGenerator, firmware := smallFirmware }).map (fun s =>
        match stageCode Firmware.ofTable smallGenerator s with
        | .ok code s₁ =>
            let row := s₁.task.chunks.filter fun c => c.source ≠ code
            let ending := Code.Emission.run smallGenerator row 0x200000 code
              ((List.range' code.start code.length).map fun _ => 0) {}
            some (decide ((row.Pairwise fun a b => a.source.start ≤ b.source.start) ∧
              ending.1 = .ok () ∧ s₁.task.hazards.length = 1 ∧ Orderly s₁.task.chunks),
              Code.movesOf ending.2.calls)
        | .error _ _ => none) =
      some (some (true,
        [⟨0x8c00, 0x200000, 0x200, .backward⟩, ⟨0x8e00, 0x8d80, 0x100, .forward⟩])) := by
    decide +kernel
  obtain ⟨s, hrun, hend⟩ := Option.map_eq_some_iff.1 hends
  split at hend
  case h_2 => cases hend
  case h_1 code s₁ hcode =>
    simp only [Option.some.injEq, Prod.mk.injEq, decide_eq_true_eq] at hend
    obtain ⟨⟨hrow, hdone, hhazards, horderly⟩, hmoves⟩ := hend
    rw [← sequence_of_pairwise hrow] at hdone hmoves
    obtain ⟨s', hprepare, htask⟩ :=
      @prepare_eq_ok _ _ _ _ _ _ _ hcode _ _ _ _ (.ok ()) (Prod.ext hdone rfl)
    rw [← htask] at hhazards horderly
    refine ⟨s, s', _, hrun, hprepare, rfl, hhazards, horderly, hmoves, fun memory => ?_⟩
    exact ((prepare_delivers .empty (reach_of_run? hrun) hprepare rfl).2.1 horderly memory).1

end Task

end Staging

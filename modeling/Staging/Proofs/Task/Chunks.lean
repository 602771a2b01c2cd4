import Staging.Proofs.Task.Policy
import Staging.Task.Handoff

/-!
# Chunks that are registered

A chunk has a target of the length of its source, and its loans tile the source (`Chunk.Whole`).
The target of a chunk is apart from the targets and the sources of all later chunks (`Arranged`).
Each call of a task keeps this, whether it registers a chunk or ends with an error
(`stageAt_spec`, `stageWithin_spec`, `prepare_spec`).
-/

namespace Staging

/-- A chunk that is all there. -/
structure Chunk.Whole (c : Chunk) : Prop where
  length : c.target.length = c.source.length
  start_lt : c.source.start < c.source.stop
  tile : Extent.Tile c.source.start c.source.stop (c.loans.map (·.extent))

theorem Chunk.Whole.target_lt {c : Chunk} (h : c.Whole) : c.target.start < c.target.stop := by
  have hlength := h.length
  have hlt := h.start_lt
  simp only [Extent.length] at hlength
  omega

namespace Task

variable {φ γ : Type} {origin : Heap} {fw : Firmware φ} {gen : Code.Generator γ}
  {track : φ → List Extent → Prop} {chunks : List Chunk} {s : Running φ}

/-- Chunks in the order of their registration do not get in the way of later ones. -/
structure Arranged (chunks : List Chunk) : Prop where
  whole : ∀ c ∈ chunks, c.Whole
  apart : chunks.Pairwise fun a b => a.target.Apart b.target ∧ a.target.Apart b.source

theorem arranged_nil : Arranged [] := ⟨by simp, .nil⟩

theorem Arranged.concat {c : Chunk} (h : Arranged chunks) (hc : c.Whole)
    (htarget : ∀ a ∈ chunks, a.target.Apart c.target)
    (hsource : ∀ a ∈ chunks, a.target.Apart c.source) : Arranged (chunks ++ [c]) where
  whole a ha := by
    rcases List.mem_append.1 ha with ha | ha
    · exact h.whole a ha
    · cases List.mem_singleton.1 ha
      exact hc
  apart := by
    refine List.pairwise_append.2 ⟨h.apart, List.pairwise_singleton _ _, fun a ha b hb => ?_⟩
    cases List.mem_singleton.1 hb
    exact ⟨htarget a ha, hsource a ha⟩

/-- What holds of a running task between its calls. -/
structure Staged (origin : Heap) (track : φ → List Extent → Prop) (s : Running φ) : Prop where
  owes : Owes origin track (owed s.task.chunks) s
  arranged : Arranged s.task.chunks

theorem Staged.kept (h : Staged origin track s) : Kept origin track s.task.chunks [] s :=
  ⟨h.owes, rfl⟩

/-- The task registered this chunk behind the others. -/
structure Adds (origin : Heap) (track : φ → List Extent → Prop) (chunks : List Chunk) (c : Chunk)
    (s : Running φ) : Prop where
  chunks : s.task.chunks = chunks ++ [c]
  staged : Staged origin track s

/-- The task has the same chunks as before. -/
structure Keeps (origin : Heap) (track : φ → List Extent → Prop) (chunks : List Chunk)
    (s : Running φ) : Prop where
  chunks : s.task.chunks = chunks
  staged : Staged origin track s

theorem Kept.keeps (h : Kept origin track chunks [] s) (harranged : Arranged chunks) :
    Keeps origin track chunks s := by
  obtain ⟨howes, rfl⟩ := h
  exact ⟨rfl, howes, harranged⟩

/-! ### Entering a chunk -/

theorem owed_concat (chunks : List Chunk) (c : Chunk) :
    owed (chunks ++ [c]) = c.loans ++ owed chunks := by
  simp [owed]

theorem assemble_eq_ok {source target : Extent} {loans : List Loan} {c : Chunk}
    (h : Chunk.assemble source target loans = .ok c) :
    c = ⟨source, target, loans⟩ ∧ target.length = source.length := by
  unfold Chunk.assemble at h
  dsimp only at h
  split at h
  case isTrue => cases h
  case isFalse hlength =>
    split at h
    case isTrue => cases h
    case isFalse =>
      split at h
      case isTrue => cases h
      case isFalse =>
        cases h
        exact ⟨rfl, (not_not.1 hlength).symm⟩

/-- **Entering a source** registers a chunk, and its loans are no longer pending. -/
theorem enter_spec {source : Source} {target : Extent} {size : Nat} {R : Running φ → Prop}
    (harranged : Arranged chunks) (h : Brings origin track chunks size (some source) s)
    (htarget : ∀ a ∈ chunks, a.target.Apart target) :
    Post (enter gen source target) (fun address s' => address = source.extent.start ∧
      source.extent.length = size ∧
      Adds origin track chunks ⟨source.extent, target, source.loans⟩ s') R s := by
  obtain ⟨hkept, request, hsize, hserves⟩ := h
  unfold enter
  rw [post_bind_iff, post_update_iff, post_bind_iff, post_books_iff, post_bind_iff,
    post_note_iff, post_bind_iff]
  refine post_orTrap fun c hassemble => ?_
  obtain ⟨rfl, hlength⟩ := assemble_eq_ok hassemble
  obtain ⟨hstop, hpos⟩ := hserves.size
  have hne : ∀ a ∈ chunks, a.target.start < a.target.stop := fun a ha =>
    (harranged.whole a ha).target_lt
  have hbyte : source.extent.start < source.extent.stop := by omega
  have hentered : Arranged (chunks ++ [⟨source.extent, target, source.loans⟩]) :=
    harranged.concat ⟨hlength, hbyte, hserves.tile⟩ htarget (hserves.apart hne)
  have hsource : source.extent.length = size := by
    simp only [Extent.length]
    omega
  -- The books differ from before in the chunks, and in marks that owe nothing.
  have hentry (s' : Running φ) (hheap : s'.task.heap = s.task.heap)
      (hblocks : s'.task.blocks = s.task.blocks) (hfirmware : s'.firmware = s.firmware)
      (hchunks : s'.task.chunks = s.task.chunks ++ [⟨source.extent, target, source.loans⟩]) :
      Adds origin track chunks ⟨source.extent, target, source.loans⟩ s' := by
    have howes := hkept.owes
    rw [hkept.chunks] at hchunks
    refine ⟨hchunks, ⟨?_, ?_, ?_⟩, hchunks ▸ hentered⟩
    · rw [hchunks, owed_concat, hheap]
      exact howes.heap
    · rw [hchunks, owed_concat, hblocks]
      exact howes.blocks
    · rw [hblocks, hfirmware]
      exact howes.tracked
  dsimp only
  split
  case h_1 =>
    rw [post_bind_iff, post_pure_iff, post_bind_iff, post_update_iff]
    exact ⟨rfl, hsource, hentry _ rfl rfl rfl rfl⟩
  case h_2 direction _ =>
    rw [post_bind_iff]
    refine post_orTrap fun codeSize _ => ?_
    rw [post_bind_iff, post_update_iff]
    exact ⟨rfl, hsource, hentry _ rfl rfl rfl rfl⟩

/-! ### Sources -/

/-- What the loans of two chunks took is apart. -/
theorem loans_apart {heap : Heap} (hv : origin.Valid) (h : origin.Lent (owed chunks) heap) :
    chunks.Pairwise fun a b => ∀ x ∈ a.loans, ∀ y ∈ b.loans, x.claimed.Apart y.claimed := by
  have hclaims := (List.pairwise_flatMap.1 (h.claims_apart hv)).2
  exact (List.pairwise_reverse.1 hclaims).imp fun hab x hx y hy => (hab y hy x hx).symm

/-- **The sources of chunks are apart**, since their loans are. -/
theorem sources_apart {heap : Heap} (hv : origin.Valid) (h : origin.Lent (owed chunks) heap)
    (harranged : Arranged chunks) : chunks.Pairwise fun a b => a.source.Apart b.source := by
  refine (loans_apart hv h).imp_of_mem fun {a b} ha hb hab => ?_
  have hwhole := harranged.whole a ha
  have hwhole' := harranged.whole b hb
  refine Extent.apart_of_forall_mem hwhole.start_lt hwhole'.start_lt fun x hx hx' => ?_
  obtain ⟨e, he, hxe⟩ := (hwhole.tile.exists_mem_iff x).2 hx
  obtain ⟨e', he', hxe'⟩ := (hwhole'.tile.exists_mem_iff x).2 hx'
  obtain ⟨loan, hloan, rfl⟩ := List.mem_map.1 he
  obtain ⟨loan', hloan', rfl⟩ := List.mem_map.1 he'
  have hcovers := (h.claimed_covers hv (mem_owed_iff.2 ⟨a, ha, hloan⟩)).2
  have hcovers' := (h.claimed_covers hv (mem_owed_iff.2 ⟨b, hb, hloan'⟩)).2
  exact (hab loan hloan loan' hloan').not_mem (Extent.mem_of_covers hcovers hxe)
    (Extent.mem_of_covers hcovers' hxe')

/-! ### Hazards -/

/-- A hazard is a pair of chunks of which the first has its target over the source of the second. -/
theorem mem_hazards_iff {task : Task} {n : Notice} :
    n ∈ task.hazards ↔ ∃ i j a b, task.chunks[i]? = some a ∧ task.chunks[j]? = some b ∧ i ≠ j ∧
      a.target.intersects b.source = true ∧ n = .hazard a.target i b.source j := by
  simp only [hazards, List.mem_flatMap, List.mem_filterMap, Prod.exists,
    List.mem_zipIdx_iff_getElem?]
  constructor
  · rintro ⟨a, i, hi, b, j, hj, h⟩
    split at h
    case isTrue hhit =>
      cases h
      exact ⟨i, j, a, b, hi, hj, hhit.1, hhit.2, rfl⟩
    case isFalse => contradiction
  · rintro ⟨i, j, a, b, hi, hj, hne, hhit, rfl⟩
    exact ⟨a, i, hi, b, j, hj, if_pos ⟨hne, hhit⟩⟩

/-! ### The calls -/

theorem refuse_keeps {α : Type} {cause : Error} {Q : α → Running φ → Prop}
    (h : Staged origin track s) : Post (refuse cause) Q (Keeps origin track s.task.chunks) s :=
  ⟨rfl, h⟩

theorem Adds.note {c : Chunk} (h : Adds origin track chunks c s) (n : Notice) :
    Adds origin track chunks c { s with notices := s.notices.push n } :=
  ⟨h.chunks, h.staged.owes.note n, h.staged.arranged⟩

section Calls

variable (hv : origin.Valid) (hfw : fw.Tracks track)
include hv hfw

/-- **Staging a chunk at a target** registers it there, or keeps the chunks. -/
theorem stageAt_spec (target size : Nat) (h : Staged origin track s) :
    Post (stageAt fw gen target size) (fun address s' => ∃ c, c.source.start = address ∧
      c.target.start = target ∧ c.source.length = size ∧ Adds origin track s.task.chunks c s')
      (Keeps origin track s.task.chunks) s := by
  unfold stageAt
  split
  case isTrue => exact refuse_keeps h
  case isFalse =>
    split
    case h_1 => exact refuse_keeps h
    case h_2 extent hextent =>
      obtain ⟨hstart, hstop⟩ := Extent.ofLength?_eq_some_iff.1 hextent
      rw [post_bind_iff, post_books_iff]
      split
      case isTrue => exact refuse_keeps h
      case isFalse htouches =>
        have hclear : ∀ a ∈ s.task.chunks, a.target.Apart extent := by
          simp only [touchesTarget, List.any_eq_true, not_exists, not_and,
            Bool.not_eq_true] at htouches
          exact fun a ha => Extent.intersects_eq_false_iff.1 (htouches a ha)
        have hsize : extent.length = size := by
          simp only [Extent.length]
          omega
        refine Post.bind ((borrowForTarget_spec hv hfw extent h.kept).mono (fun _ _ => id)
          fun s' hs' => hs'.keeps h.arranged) fun outcome s₁ houtcome => ?_
        cases outcome with
        | none => exact houtcome.keeps h.arranged
        | some source =>
            refine (enter_spec h.arranged houtcome hclear).mono ?_ fun _ => id
            rintro address s₂ ⟨rfl, hlength, hadds⟩
            exact ⟨_, rfl, hstart, hlength.trans hsize, hadds⟩

/-- **Staging a flexible chunk** registers it, or keeps the chunks. -/
theorem stageWithin_spec (low high size align : Nat) (preferred : WindowEnd)
    (h : Staged origin track s) :
    Post (stageWithin fw gen low high size align preferred) (fun addresses s' => ∃ c,
      (c.source.start, c.target.start) = addresses ∧ c.source.length = size ∧
        Adds origin track s.task.chunks c s') (Keeps origin track s.task.chunks) s := by
  unfold stageWithin
  split
  case isTrue => exact refuse_keeps h
  case isFalse =>
    split
    case isTrue => exact refuse_keeps h
    case isFalse =>
      split
      case h_1 => exact refuse_keeps h
      case h_2 window _ =>
        have hne : ∀ a ∈ s.task.chunks, a.target.start < a.target.stop := fun a ha =>
          (h.arranged.whole a ha).target_lt
        refine Post.bind ((borrowForWish_spec hv hfw ⟨window, size, align, preferred⟩ hne
          h.kept).mono (fun _ _ => id) fun s' hs' => hs'.keeps h.arranged) ?_
        intro outcome s₁ houtcome
        split
        case h_1 => exact houtcome.keeps h.arranged
        case h_2 source target =>
          obtain ⟨hbrings, hstop, hclear⟩ := houtcome
          rw [post_bind_iff]
          refine (enter_spec h.arranged hbrings hclear).mono ?_ fun _ => id
          rintro address s₂ ⟨rfl, hlength, hadds⟩
          exact ⟨_, rfl, hlength, hadds⟩

/-- The relocation code is a chunk in place, of the size that is reserved for it. -/
theorem stageCode_spec (h : Staged origin track s) :
    Post (stageCode fw gen) (fun code s' => code.length = s.task.codeSize ∧
      ∃ c, c.source = code ∧ c.target = code ∧ Adds origin track s.task.chunks c s')
      (Keeps origin track s.task.chunks) s := by
  unfold stageCode
  rw [post_bind_iff, post_books_iff]
  have hborrow : Post (within 0 Address.top fun window =>
      borrowSource fw ⟨window, s.task.codeSize, codeAlign, .ascending⟩)
      (Brings origin track s.task.chunks s.task.codeSize)
      (Keeps origin track s.task.chunks) s := by
    refine post_within h.kept fun window => ?_
    refine (borrowSource_brings hv hfw _ h.kept).mono (fun _ _ => id) fun s' hs' => ?_
    exact hs'.keeps h.arranged
  refine hborrow.bind fun outcome s₁ houtcome => ?_
  split
  case h_1 => exact Kept.keeps houtcome h.arranged
  case h_2 source =>
    have hne : ∀ a ∈ s.task.chunks, a.target.start < a.target.stop := fun a ha =>
      (h.arranged.whole a ha).target_lt
    have hbrings : Brings origin track s.task.chunks s.task.codeSize (some source) s₁ := houtcome
    have ⟨_, request, _, hserves⟩ := hbrings
    rw [post_bind_iff]
    refine (enter_spec h.arranged hbrings (hserves.apart hne)).mono ?_ fun _ => id
    rintro address s₂ ⟨-, hlength, hadds⟩
    exact ⟨hlength, _, rfl, rfl, hadds⟩

omit hv hfw in
/-- An emission that does not trap ends as it does. -/
theorem post_passTrap {ending : Except (Fault Code.Error) Unit}
    {Q : Except Code.Error Unit → Running φ → Prop} {R : Running φ → Prop}
    (h : ∀ outcome, ending = outcome.mapError .error → Q outcome s) :
    Post (passTrap ending) Q R s := by
  cases ending with
  | ok => exact h (.ok ()) rfl
  | error cause =>
      cases cause with
      | error cause => exact h (.error cause) rfl
      | trap => trivial

/-- **Preparing the hand-off** registers the relocation code, and emits it for the chunks in their
sequence, or keeps the chunks. -/
theorem prepare_spec (contents : Nat → UInt8) (entry : Nat) (generator : γ)
    (h : Staged origin track s) :
    Post (prepare fw gen contents entry generator) (fun prepared s' => ∃ c,
      c.source = prepared.code ∧ c.target = prepared.code ∧
        Adds origin track s.task.chunks c s' ∧
        ∃ emission, Code.Emission.run gen (s'.task.sequence prepared.code) entry prepared.code
            ((List.range' prepared.code.start prepared.code.length).map contents) generator =
              (prepared.outcome.mapError .error, emission) ∧ prepared.calls = emission.calls)
      (Keeps origin track s.task.chunks) s := by
  unfold prepare
  refine (stageCode_spec hv hfw h).bind fun code s₁ ⟨_, c, hsource, htarget, hadds⟩ => ?_
  rw [post_bind_iff, post_books_iff, post_bind_iff]
  have hnotes {s' : Running φ} (notices : List Notice)
      (hs' : Adds origin track s.task.chunks c s' ∧ s'.task = s₁.task) :
      Post (notices.forM note)
        (fun _ s' => Adds origin track s.task.chunks c s' ∧ s'.task = s₁.task)
        (Keeps origin track s.task.chunks) s' :=
    post_forM (fun n _ s' hs' => ⟨hs'.1.note n, hs'.2⟩) hs'
  refine (hnotes _ ⟨hadds, rfl⟩).mono (fun _ s₂ hs₂ => ?_) fun _ => id
  rw [post_bind_iff]
  refine (hnotes _ hs₂).mono (fun _ s₃ hs₃ => ?_) fun _ => id
  rw [post_bind_iff]
  refine post_passTrap fun outcome houtcome => ⟨c, hsource, htarget, hs₃.1, _, ?_, rfl⟩
  rw [hs₃.2]
  exact Prod.ext houtcome rfl

end Calls

end Task

end Staging

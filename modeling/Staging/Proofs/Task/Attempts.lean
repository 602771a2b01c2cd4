import Staging.Proofs.Task.Marks

/-!
# Every chunk was borrowed by one attempt

A policy makes one attempt after the other until a source is borrowed, and a call enters that
source into the books.  So each chunk of a task has its source and its loans from one attempt, in a
state in which the task owed just the loans of the chunks before (`Reach.obtained`), and what holds
of all sources that attempts borrow holds of all chunks.
-/

namespace Staging.Task

variable {φ γ α : Type} {origin : Heap} {fw : Firmware φ} {gen : Code.Generator γ}
  {gens : Code.Generator γ → Prop}
  {track : φ → List Extent → Prop} {chunks : List Chunk} {s : Running φ}

/-- The source was borrowed in one attempt of a task with these chunks. -/
def Obtained (fw : Firmware φ) (origin : Heap) (track : φ → List Extent → Prop)
    (chunks : List Chunk) (source : Source) : Prop :=
  ∃ request s s', Kept origin track chunks [] s ∧
    attempt fw request s = .ok (.borrowed source) s'

/-- What a policy leaves to the next one if it finds nothing, and where a source is from. -/
def Yields (fw : Firmware φ) (origin : Heap) (track : φ → List Extent → Prop)
    (chunks : List Chunk) : Option Source → Running φ → Prop
  | none, s => Kept origin track chunks [] s
  | some source, s => s.task.chunks = chunks ∧ Obtained fw origin track chunks source

/-- There is one chunk more than these, with a source from one attempt. -/
def Registers (fw : Firmware φ) (origin : Heap) (track : φ → List Extent → Prop)
    (chunks : List Chunk) (s : Running φ) : Prop :=
  ∃ source target, Obtained fw origin track chunks source ∧
    s.task.chunks = chunks ++ [⟨source.extent, target, source.loans⟩]

/-! ### Policies -/

section Policies

variable (hv : origin.Valid) (hfw : fw.Tracks track)
include hv hfw

/-- **The source that a search with retries brings** is from its last attempt. -/
theorem borrowSource_yields (request : Request) (h : Kept origin track chunks [] s) :
    Post (borrowSource fw request) (Yields fw origin track chunks) (fun _ => True) s := by
  induction request using borrowSource.induct generalizing s with
  | case1 request ih =>
      rw [borrowSource]
      refine (((attempt_spec hv hfw h).and (post_self _)).mono (fun _ _ => id)
        fun _ _ => trivial).bind ?_
      rintro outcome s₁ ⟨houtcome, hattempt⟩
      cases outcome with
      | exhausted => exact houtcome
      | borrowed source => exact ⟨houtcome.1.chunks, request, s, s₁, h, hattempt⟩
      | refused piece =>
          rw [post_bind_iff, post_note_iff]
          split
          case h_1 => exact houtcome.note _
          case h_2 next hretry => exact ih piece next hretry (houtcome.note _)

theorem borrowInPostArea_yields (size align : Nat) (h : Kept origin track chunks [] s) :
    Post (borrowInPostArea fw size align) (Yields fw origin track chunks) (fun _ => True) s := by
  unfold borrowInPostArea
  rw [post_bind_iff, post_books_iff]
  refine post_within h fun window => ?_
  refine (borrowSource_yields hv hfw ⟨window, size, align, .descending⟩ h).bind ?_
  intro outcome s' houtcome
  cases outcome with
  | none => exact houtcome
  | some source =>
      rw [post_bind_iff, post_update_iff, post_bind_iff, post_books_iff, post_bind_iff,
        post_note_iff]
      exact houtcome

theorem borrowForTarget_yields (target : Extent) (h : Kept origin track chunks [] s) :
    Post (borrowForTarget fw target) (Yields fw origin track chunks) (fun _ => True) s := by
  have above {s : Running φ} (h : Kept origin track chunks [] s) :
      Post (borrowAbove fw target) (Yields fw origin track chunks) (fun _ => True) s :=
    post_within h fun window => borrowSource_yields hv hfw _ h
  unfold borrowForTarget
  rw [post_bind_iff, post_books_iff]
  split
  case isTrue =>
    rw [post_bind_iff, post_note_iff]
    exact above (h.note _)
  case isFalse =>
    refine post_orElse (above h) fun s₁ h₁ => post_orElse ?_ fun s₂ h₂ =>
      post_orElse ?_ fun s₃ h₃ => borrowInPostArea_yields hv hfw _ _ h₃
    · split
      case isTrue => exact borrowInPostArea_yields hv hfw _ _ h₁
      case isFalse => exact h₁
    · exact post_within h₂ fun window => borrowSource_yields hv hfw _ h₂

theorem borrowForWish_yields (wish : Wish) (h : Kept origin track chunks [] s) :
    Post (borrowForWish fw wish)
      (fun outcome => Yields fw origin track chunks (outcome.map (·.1))) (fun _ => True) s := by
  unfold borrowForWish
  refine (borrowSource_yields hv hfw _ h).bind fun outcome s₁ h₁ => ?_
  cases outcome with
  | some source => exact h₁
  | none =>
      refine (ramExtents_spec hfw h₁).bind fun extents s₂ h₂ => ?_
      rw [post_bind_iff, post_books_iff]
      split
      case h_1 => exact h₂
      case h_2 target _ =>
        rw [post_bind_iff, post_note_iff, post_bind_iff, post_books_iff, post_bind_iff,
          post_note_iff, post_bind_iff]
        have h₂ := (h₂.note (.targetSelected target)).note
          (.limits (s₂.task.orderLimits wish.window).1 (s₂.task.orderLimits wish.window).2)
        refine (post_orElse (Q := Yields fw origin track chunks)
          (post_within h₂ fun window => borrowSource_yields hv hfw _ h₂) fun s₃ h₃ =>
            borrowInPostArea_yields hv hfw _ _ h₃).mono ?_ fun _ => id
        intro outcome s₃ h₃
        cases outcome <;> exact h₃

/-! ### Calls -/

omit hv hfw in
theorem enter_registers {source : Source} {target : Extent}
    (h : Yields fw origin track chunks (some source) s) :
    Post (enter gen source target) (fun _ => Registers fw origin track chunks)
      (fun _ => True) s := by
  obtain ⟨rfl, hobtained⟩ := h
  unfold enter
  rw [post_bind_iff, post_update_iff, post_bind_iff, post_books_iff, post_bind_iff,
    post_note_iff, post_bind_iff]
  refine post_orTrap fun c hassemble => ?_
  obtain ⟨rfl, -⟩ := assemble_eq_ok hassemble
  dsimp only
  split
  case h_1 => exact ⟨source, target, hobtained, rfl⟩
  case h_2 direction _ =>
    rw [post_bind_iff]
    exact post_orTrap fun codeSize _ => ⟨source, target, hobtained, rfl⟩

theorem stageAt_registers (target size : Nat) (h : Kept origin track chunks [] s) :
    Post (stageAt fw gen target size) (fun _ => Registers fw origin track chunks)
      (fun _ => True) s := by
  unfold stageAt
  split
  case isTrue => trivial
  case isFalse =>
    split
    case h_1 => trivial
    case h_2 extent _ =>
      rw [post_bind_iff, post_books_iff]
      split
      case isTrue => trivial
      case isFalse =>
        refine (borrowForTarget_yields hv hfw extent h).bind fun outcome s₁ h₁ => ?_
        cases outcome with
        | none => trivial
        | some source => exact enter_registers h₁

theorem stageWithin_registers (low high size align : Nat) (preferred : WindowEnd)
    (h : Kept origin track chunks [] s) :
    Post (stageWithin fw gen low high size align preferred)
      (fun _ => Registers fw origin track chunks) (fun _ => True) s := by
  unfold stageWithin
  split
  case isTrue => trivial
  case isFalse =>
    split
    case isTrue => trivial
    case isFalse =>
      split
      case h_1 => trivial
      case h_2 window _ =>
        refine (borrowForWish_yields hv hfw ⟨window, size, align, preferred⟩ h).bind ?_
        intro outcome s₁ h₁
        split
        case h_1 => trivial
        case h_2 source target => exact (enter_registers h₁).bind fun _ _ h₂ => h₂

theorem stageCode_registers (h : Kept origin track chunks [] s) :
    Post (stageCode fw gen) (fun _ => Registers fw origin track chunks) (fun _ => True) s := by
  unfold stageCode
  rw [post_bind_iff, post_books_iff]
  have hborrow : Post (within 0 Address.top fun window =>
      borrowSource fw ⟨window, s.task.codeSize, codeAlign, .ascending⟩)
      (Yields fw origin track chunks) (fun _ => True) s :=
    post_within h fun window => borrowSource_yields hv hfw _ h
  refine hborrow.bind fun outcome s₁ h₁ => ?_
  cases outcome with
  | none => trivial
  | some source => exact (enter_registers h₁).bind fun _ _ h₂ => h₂

theorem prepare_registers (contents : Nat → UInt8) (entry : Nat) (generator : γ)
    (h : Kept origin track chunks [] s) :
    Post (prepare fw gen contents entry generator) (fun _ => Registers fw origin track chunks)
      (fun _ => True) s := by
  unfold prepare
  refine (stageCode_registers hv hfw h).bind fun code s₁ h₁ => ?_
  rw [post_bind_iff, post_books_iff]
  have hnotes {s : Running φ} (notices : List Notice) (h : Registers fw origin track chunks s) :
      Post (notices.forM note) (fun _ => Registers fw origin track chunks) (fun _ => True) s :=
    post_forM (fun _ _ _ hs => hs) h
  refine (hnotes _ h₁).bind fun _ s₂ h₂ => (hnotes _ h₂).bind fun _ s₃ h₃ => ?_
  rw [post_bind_iff]
  exact post_passTrap fun _ _ => h₃

/-- **A call that ends with a value** registers a chunk that was borrowed in one attempt. -/
theorem perform_registers (command : Command γ) (h : Kept origin track chunks [] s) :
    Post (perform fw gen command) (fun _ => Registers fw origin track chunks)
      (fun _ => True) s := by
  cases command with
  | stageAt => exact (stageAt_registers hv hfw _ _ h).bind fun _ _ h' => h'
  | stageWithin => exact (stageWithin_registers hv hfw _ _ _ _ _ h).bind fun _ _ h' => h'
  | prepare => exact (prepare_registers hv hfw _ _ _ h).bind fun _ _ h' => h'

end Policies

/-- **Every chunk was borrowed in one attempt** of the task. -/
theorem Reach.obtained {firmware : φ} (hv : origin.Valid) (h : Reach fw gens origin firmware s) :
    ∀ c ∈ s.task.chunks, ∃ chunks,
      Obtained fw origin (fun _ _ => True) chunks ⟨c.source, c.loans⟩ := by
  induction h with
  | start => simp [Task.start]
  | @call s s' h gen _ command hcall ih =>
      have hkept := (h.staged hv fw.tracks_nothing trivial).kept
      have hends := ((perform_registers hv fw.tracks_nothing command hkept).and
        (perform_counts command (rfl : Marked s.task.marks s))).of_next? hcall
      rcases hends with ⟨⟨source, target, hobtained, hchunks⟩, -⟩ | ⟨-, hmarks⟩
      · intro c hc
        rw [hchunks] at hc
        rcases List.mem_append.1 hc with hc | hc
        · exact ih c hc
        · cases List.mem_singleton.1 hc
          exact ⟨_, hobtained⟩
      · have hsame : s'.task.marks = s.task.marks := hmarks
        have hchunks : s'.task.chunks = s.task.chunks :=
          show s'.task.marks.chunks = s.task.marks.chunks by rw [hsame]
        exact hchunks ▸ ih

end Staging.Task

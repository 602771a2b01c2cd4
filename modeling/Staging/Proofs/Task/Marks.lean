import Staging.Proofs.Task.Reach

/-!
# The marks of a task

Beside the heap and the blocks, the books of a task hold its chunks, the marks of the post area and
the size of the relocation code: its marks (`Task.marks`).  Borrowing and giving back leave them
alone (`borrowSource_marked`).  A source in the post area moves the start of that area down to it
(`Lowers`), and entering a source counts it in (`Task.count`).  So a call that ends with an error
leaves the marks as they were, and one that does not has counted in one chunk (`perform_counts`).
-/

namespace Staging

namespace Task

variable {φ α γ : Type} {fw : Firmware φ} {gen : Code.Generator γ} {m : Task} {s : Running φ}

/-- The books less the heap and the blocks. -/
def marks (task : Task) : Task := { task with heap := {}, blocks := [] }

/-- The running task has these marks. -/
def Marked (m : Task) (s : Running φ) : Prop := s.task.marks = m

/-- **The chunks, the loans at hand and the marks determine the books.** -/
theorem Kept.task_eq {ψ : Type} {origin : Heap} {track : φ → List Extent → Prop}
    {track' : ψ → List Extent → Prop} {chunks : List Chunk} {pending : List Loan} {s' : Running ψ}
    (h : Kept origin track chunks pending s) (h' : Kept origin track' chunks pending s')
    (hmarks : s'.task.marks = s.task.marks) : s'.task = s.task := by
  have hheap : s'.task.heap = s.task.heap := h'.owes.heap.unique h.owes.heap
  have hblocks : s'.task.blocks = s.task.blocks := by rw [h'.owes.blocks, h.owes.blocks]
  calc s'.task = { s'.task.marks with heap := s'.task.heap, blocks := s'.task.blocks } := rfl
    _ = { s.task.marks with heap := s.task.heap, blocks := s.task.blocks } := by
      rw [hmarks, hheap, hblocks]

theorem Marked.note (h : Marked m s) (n : Notice) :
    Marked m { s with notices := s.notices.push n } := h

/-! ### Borrowing and giving back -/

theorem onHeap_marked (operation : Heap → Outcome Heap.Error Heap α) (h : Marked m s) :
    Post (onHeap operation) (fun _ => Marked m) (Marked m) s := by
  unfold onHeap
  rw [post_bind_iff, post_books_iff]
  split
  case h_1 => exact h
  case h_2 => exact h
  case h_3 => trivial

theorem borrow_marked (piece : Piece) (h : Marked m s) :
    Post (borrow fw piece) (fun _ => Marked m) (Marked m) s := by
  unfold borrow
  split
  case h_1 =>
    refine (onHeap_marked _ h).bind fun outcome s' hs' => ?_
    cases outcome <;> exact hs'
  case h_2 =>
    refine (onHeap_marked _ h).bind fun outcome s' hs' => ?_
    cases outcome <;> exact hs'
  case h_3 =>
    rw [post_bind_iff, post_call_iff]
    split <;> exact h

theorem giveBack_marked (loan : Loan) (h : Marked m s) :
    Post (giveBack fw loan) (fun _ => Marked m) (Marked m) s := by
  unfold giveBack
  split
  case h_1 => exact onHeap_marked _ h
  case h_2 => exact onHeap_marked _ h
  case h_3 => exact h

theorem giveBackAll_marked (failed : Extent → Heap.Error → Notice) (loans : List Loan)
    (h : Marked m s) : Post (giveBackAll fw failed loans) (fun _ => Marked m) (Marked m) s := by
  refine post_forM (fun loan _ s hs => (giveBack_marked loan hs).bind fun outcome s' hs' => ?_) h
  cases outcome <;> exact hs'

theorem borrowEach_marked (pieces : List Piece) (loans : List Loan) (h : Marked m s) :
    Post (borrowEach fw pieces loans) (fun _ => Marked m) (Marked m) s := by
  induction pieces generalizing loans s with
  | nil => exact h
  | cons piece rest ih =>
      refine (borrow_marked piece h).bind fun outcome s' hs' => ?_
      cases outcome with
      | ok loan => exact ih _ (hs'.note _)
      | error cause => exact (giveBackAll_marked _ loans hs').bind fun _ _ hs'' => hs''

/-! ### Sources -/

theorem collect_marked (h : Marked m s) :
    Post (collect fw) (fun _ => Marked m) (Marked m) s :=
  post_collect h

theorem attempt_marked (request : Request) (h : Marked m s) :
    Post (attempt fw request) (fun outcome s' => Marked m s' ∧ ∀ source,
      outcome = .borrowed source → request.window.start ≤ source.extent.start) (Marked m) s := by
  unfold attempt
  rw [post_bind_iff, post_note_iff]
  refine (collect_marked (h.note _)).bind fun intervals s₁ h₁ => ?_
  rw [post_bind_iff]
  refine search_spec.mono ?_ fun s₂ h₂ => h₂ ▸ h₁
  rintro found s₂ ⟨rfl, hfound⟩
  split
  case h_1 => exact ⟨h₁, fun source hsource => by cases hsource⟩
  case h_2 extent pieces =>
    refine (borrowEach_marked _ _ h₁).bind fun outcome s₃ h₃ => ?_
    split
    case h_1 =>
      refine ⟨h₃, fun source hsource => ?_⟩
      cases hsource
      exact (hfound extent pieces rfl).inside.1
    case h_2 => exact ⟨h₃, fun source hsource => by cases hsource⟩
    case h_3 => exact h₃

/-- **Borrowing a source** leaves the marks alone, however many attempts it takes. -/
theorem borrowSource_marked (request : Request) (h : Marked m s) :
    Post (borrowSource fw request) (fun outcome s' => Marked m s' ∧ ∀ source,
      outcome = some source → request.window.start ≤ source.extent.start) (Marked m) s := by
  induction request using borrowSource.induct generalizing s with
  | case1 request ih =>
      rw [borrowSource]
      refine (attempt_marked request h).bind fun outcome s₁ hattempt => ?_
      obtain ⟨h₁, hinside⟩ := hattempt
      cases outcome with
      | exhausted => exact ⟨h₁, fun source hsource => by cases hsource⟩
      | borrowed source =>
          refine ⟨h₁, fun source' hsource => ?_⟩
          cases hsource
          exact hinside source rfl
      | refused piece =>
          rw [post_bind_iff, post_note_iff]
          split
          case h_1 => exact ⟨h₁.note _, fun source hsource => by cases hsource⟩
          case h_2 next hretry =>
            refine (ih piece next hretry (h₁.note _)).mono (fun outcome s₂ h₂ => ?_) fun _ => id
            exact ⟨h₂.1, fun source hsource => Nat.le_trans (Request.retry?_spec hretry).1
              (h₂.2 source hsource)⟩

/-! ### Policies -/

/-- The marks with the post area extended down to a source. -/
def lower (m : Task) (source : Extent) : Task :=
  { m with postStart := min m.postStart source.start }

/-- The marks while a source is at hand: as they were, or with the post area extended down to the
source, which then lies above all ordinary ones. -/
inductive Lowers (m : Task) (source : Extent) : Task → Prop where
  | ordinary : Lowers m source m
  | post (habove : m.highestOrdinary ≤ source.start) : Lowers m source (m.lower source)

theorem Lowers.codeSize {source : Extent} {m' : Task} (h : Lowers m source m') :
    m'.codeSize = m.codeSize := by
  cases h <;> rfl

theorem Lowers.chunks {source : Extent} {m' : Task} (h : Lowers m source m') :
    m'.chunks = m.chunks := by
  cases h <;> rfl

/-- The marks that a policy leaves.  They change only for a source. -/
def Leaves (m : Task) : Option Source → Running φ → Prop
  | none, s => Marked m s
  | some source, s => Lowers m source.extent s.task.marks

theorem Marked.leaves (h : Marked m s) (outcome : Option Source) : Leaves m outcome s := by
  cases outcome with
  | none => exact h
  | some source => exact h.symm ▸ Lowers.ordinary

theorem borrowSource_leaves (request : Request) (h : Marked m s) :
    Post (borrowSource fw request) (Leaves m) (Marked m) s :=
  (borrowSource_marked request h).mono (fun outcome _ hs' => hs'.1.leaves outcome) fun _ => id

/-- A source in the post area lies above all ordinary ones, since the window begins there. -/
theorem borrowInPostArea_leaves (size align : Nat) (h : Marked m s) :
    Post (borrowInPostArea fw size align) (Leaves m) (Marked m) s := by
  unfold borrowInPostArea
  rw [post_bind_iff, post_books_iff]
  unfold within
  split
  case h_1 => exact h
  case h_2 window hwindow =>
    refine (borrowSource_marked _ h).bind fun outcome s' ⟨hmarked, hinside⟩ => ?_
    cases outcome with
    | none => exact hmarked
    | some source =>
        rw [post_bind_iff, post_update_iff, post_bind_iff, post_books_iff, post_bind_iff,
          post_note_iff]
        have habove : s.task.highestOrdinary ≤ source.extent.start :=
          (Extent.ofBounds?_eq_some hwindow).1 ▸ hinside source rfl
        have hlowered : Lowers s'.task.marks source.extent (s'.task.marks.lower source.extent) := by
          rw [show s'.task.marks = s.task.marks from hmarked.trans h.symm]
          exact .post habove
        exact hmarked ▸ hlowered

theorem borrowForTarget_leaves (target : Extent) (h : Marked m s) :
    Post (borrowForTarget fw target) (Leaves m) (Marked m) s := by
  have above {s : Running φ} (h : Marked m s) :
      Post (borrowAbove fw target) (Leaves m) (Marked m) s :=
    post_within h fun window => borrowSource_leaves _ h
  unfold borrowForTarget
  rw [post_bind_iff, post_books_iff]
  split
  case isTrue =>
    rw [post_bind_iff, post_note_iff]
    exact above (h.note _)
  case isFalse =>
    refine post_orElse (above h) fun s₁ h₁ => post_orElse ?_ fun s₂ h₂ => post_orElse ?_
      fun s₃ h₃ => borrowInPostArea_leaves _ _ h₃
    · split
      case isTrue => exact borrowInPostArea_leaves _ _ h₁
      case isFalse => exact h₁
    · exact post_within h₂ fun window => borrowSource_leaves _ h₂

theorem borrowForWish_leaves (wish : Wish) (h : Marked m s) :
    Post (borrowForWish fw wish) (fun outcome => Leaves m (outcome.map (·.1))) (Marked m) s := by
  unfold borrowForWish
  refine (borrowSource_leaves _ h).bind fun outcome s₁ h₁ => ?_
  cases outcome with
  | some source => exact h₁
  | none =>
      have ram : Post (ramExtents fw) (fun _ => Marked m) (Marked m) s₁ := h₁
      refine ram.bind fun extents s₂ h₂ => ?_
      rw [post_bind_iff, post_books_iff]
      split
      case h_1 => exact h₂
      case h_2 target _ =>
        rw [post_bind_iff, post_note_iff, post_bind_iff, post_books_iff, post_bind_iff,
          post_note_iff, post_bind_iff]
        refine (post_orElse (Q := Leaves m) (post_within ?_ fun window => ?_) fun s₃ h₃ => ?_).mono
          ?_ fun _ => id
        · exact (h₂.note _).note _
        · exact borrowSource_leaves _ ((h₂.note _).note _)
        · exact borrowInPostArea_leaves _ _ h₃
        · intro outcome s₃ h₃
          cases outcome <;> exact h₃

/-! ### Calls -/

/-- The marks with a chunk counted in. -/
def count (gen : Code.Generator γ) (m : Task) (c : Chunk) : Task :=
  { m with
    chunks := m.chunks ++ [c]
    highest := max m.highest c.source.stop
    highestOrdinary :=
      if c.source.start < m.postStart then max m.highestOrdinary c.source.stop
      else m.highestOrdinary
    codeSize := m.codeSize + (c.direction.map gen.moverSize).getD 0 }

/-- The running task has these marks with one more chunk counted in. -/
def Counts (gen : Code.Generator γ) (m : Task) (s : Running φ) : Prop :=
  ∃ c lowered, Lowers m c.source lowered ∧ Marked (lowered.count gen c) s

theorem Counts.note (h : Counts gen m s) (n : Notice) :
    Counts gen m { s with notices := s.notices.push n } := h

/-- **Entering a source** counts in a chunk from there, and returns its address. -/
theorem enter_exact {source : Source} {target : Extent} {R : Running φ → Prop} :
    Post (enter gen source target) (fun address s' => address = source.extent.start ∧
      s'.task.marks = s.task.marks.count gen ⟨source.extent, target, source.loans⟩) R s := by
  unfold enter
  rw [post_bind_iff, post_update_iff, post_bind_iff, post_books_iff, post_bind_iff,
    post_note_iff, post_bind_iff]
  refine post_orTrap fun c hassemble => ?_
  obtain ⟨rfl, -⟩ := assemble_eq_ok hassemble
  dsimp only
  split
  case h_1 hdirection =>
    rw [post_bind_iff, post_pure_iff, post_bind_iff, post_update_iff]
    refine ⟨rfl, ?_⟩
    simp only [count, hdirection]
    rfl
  case h_2 direction hdirection =>
    rw [post_bind_iff]
    refine post_orTrap fun codeSize hsum => ?_
    obtain ⟨-, rfl⟩ := Address.add_eq_ok_iff.1 hsum
    rw [post_bind_iff, post_update_iff]
    refine ⟨rfl, ?_⟩
    simp only [count, hdirection]
    rfl

theorem enter_counts {source : Source} {target : Extent} {R : Running φ → Prop}
    (h : Lowers m source.extent s.task.marks) :
    Post (enter gen source target) (fun _ => Counts gen m) R s :=
  enter_exact.mono (fun _ _ hs' => ⟨_, s.task.marks, h, hs'.2⟩) fun _ => id

theorem stageAt_counts (target size : Nat) (h : Marked m s) :
    Post (stageAt fw gen target size) (fun _ => Counts gen m) (Marked m) s := by
  unfold stageAt
  split
  case isTrue => exact h
  case isFalse =>
    split
    case h_1 => exact h
    case h_2 extent _ =>
      rw [post_bind_iff, post_books_iff]
      split
      case isTrue => exact h
      case isFalse =>
        refine (borrowForTarget_leaves extent h).bind fun outcome s₁ h₁ => ?_
        cases outcome with
        | none => exact h₁
        | some source => exact enter_counts h₁

theorem stageWithin_counts (low high size align : Nat) (preferred : WindowEnd) (h : Marked m s) :
    Post (stageWithin fw gen low high size align preferred) (fun _ => Counts gen m)
      (Marked m) s := by
  unfold stageWithin
  split
  case isTrue => exact h
  case isFalse =>
    split
    case isTrue => exact h
    case isFalse =>
      split
      case h_1 => exact h
      case h_2 window _ =>
        refine (borrowForWish_leaves ⟨window, size, align, preferred⟩ h).bind ?_
        intro outcome s₁ h₁
        split
        case h_1 => exact h₁
        case h_2 source target => exact (enter_counts h₁).bind fun _ _ h₂ => h₂

theorem stageCode_counts (h : Marked m s) :
    Post (stageCode fw gen) (fun _ => Counts gen m) (Marked m) s := by
  unfold stageCode
  rw [post_bind_iff, post_books_iff]
  have hborrow : Post (within 0 Address.top fun window =>
      borrowSource fw ⟨window, s.task.codeSize, codeAlign, .ascending⟩) (Leaves m) (Marked m) s :=
    post_within h fun window => borrowSource_leaves _ h
  refine hborrow.bind fun outcome s₁ h₁ => ?_
  cases outcome with
  | none => exact h₁
  | some source => exact (enter_counts h₁).bind fun _ _ h₂ => h₂

theorem prepare_counts (contents : Nat → UInt8) (entry : Nat) (generator : γ) (h : Marked m s) :
    Post (prepare fw gen contents entry generator) (fun _ => Counts gen m) (Marked m) s := by
  unfold prepare
  refine (stageCode_counts h).bind fun code s₁ h₁ => ?_
  rw [post_bind_iff, post_books_iff]
  have hnotes {s : Running φ} (notices : List Notice) (h : Counts gen m s) :
      Post (notices.forM note) (fun _ => Counts gen m) (Marked m) s :=
    post_forM (fun n _ s hs => hs.note n) h
  refine (hnotes _ h₁).bind fun _ s₂ h₂ => (hnotes _ h₂).bind fun _ s₃ h₃ => ?_
  rw [post_bind_iff]
  exact post_passTrap fun _ _ => h₃

/-- **A call** counts in one chunk, or it ends with an error and leaves the marks alone. -/
theorem perform_counts (command : Command γ) (h : Marked m s) :
    Post (perform fw gen command) (fun _ => Counts gen m) (Marked m) s := by
  cases command with
  | stageAt => exact (stageAt_counts _ _ h).bind fun _ _ h' => h'
  | stageWithin => exact (stageWithin_counts _ _ _ _ _ h).bind fun _ _ h' => h'
  | prepare => exact (prepare_counts _ _ _ h).bind fun _ _ h' => h'

end Task

end Staging

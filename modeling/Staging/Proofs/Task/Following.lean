import Staging.Proofs.Task.Reach

/-!
# Firmware whose state holds more

A firmware may give all answers that another one gives, and hold more in its state
(`Firmware.Follows`).  An action cannot tell the two apart, since the state of the firmware is only
seen through its answers.  So each state that a task reaches with one of them is a state that it
reaches with the other, less what only that holds (`Reach.follow`).
-/

namespace Staging

variable {φ ψ α β γ : Type}

/-- The answer without what only the larger state holds. -/
def Reply.map (f : ψ → φ) (reply : Reply ψ α) : Reply φ α :=
  { value := reply.value, state := f reply.state, notices := reply.notices }

/-- The first firmware gives the answers of the second, whose state is `f` of its own. -/
structure Firmware.Follows (large : Firmware ψ) (f : ψ → φ) (fw : Firmware φ) : Prop where
  eventCapacity : ∀ s, fw.eventCapacity (f s) = large.eventCapacity s
  available : ∀ s, fw.available (f s) = (large.available s).map f
  reserve : ∀ extent s, fw.reserve extent (f s) = (large.reserve extent s).map f
  release : ∀ extent s, fw.release extent (f s) = (large.release extent s).map f

namespace Task

/-- The running task with a smaller state of the firmware. -/
def Running.map (f : ψ → φ) (s : Running ψ) : Running φ :=
  { task := s.task, firmware := f s.firmware, notices := s.notices }

/-- How an action ends, with a smaller state of the firmware. -/
def ending (f : ψ → φ) : EStateM.Result (Fault Error) (Running ψ) α →
    EStateM.Result (Fault Error) (Running φ) α
  | .ok value s => .ok value (s.map f)
  | .error cause s => .error cause (s.map f)

/-- The second action does what the first does, with a smaller state of the firmware. -/
def Follows (f : ψ → φ) (x : Action ψ α) (y : Action φ α) : Prop :=
  ∀ s, y (s.map f) = ending f (x s)

/-! ### Rules -/

section Rules

variable {f : ψ → φ}

theorem follows_pure (value : α) : Follows f (pure value) (pure value) := fun _ => rfl

theorem follows_throw (cause : Fault Error) :
    Follows f (throw cause : Action ψ α) (throw cause) := fun _ => rfl

theorem follows_refuse (cause : Error) : Follows f (refuse cause : Action ψ α) (refuse cause) :=
  fun _ => rfl

theorem follows_orTrap (x : Except Trap α) : Follows f (orTrap x) (orTrap x) := by
  intro s
  cases x <;> rfl

theorem follows_books : Follows f books books := fun _ => rfl

theorem follows_update (change : Task → Task) : Follows f (update change) (update change) :=
  fun _ => rfl

theorem follows_note (n : Notice) : Follows f (note n) (note n) := fun _ => rfl

theorem follows_call {service : ψ → Reply ψ α} {service' : φ → Reply φ α}
    (h : ∀ s, service' (f s) = (service s).map f) : Follows f (call service) (call service') := by
  intro s
  have hcall : call service' (s.map f) =
      .ok (service' (f s.firmware)).value ⟨s.task, (service' (f s.firmware)).state,
        s.notices.appendList (service' (f s.firmware)).notices⟩ := rfl
  rw [hcall, h s.firmware]
  rfl

theorem Follows.bind {x : Action ψ α} {y : Action φ α} {g : α → Action ψ β}
    {h : α → Action φ β} (hx : Follows f x y) (hg : ∀ value, Follows f (g value) (h value)) :
    Follows f (x >>= g) (y >>= h) := by
  intro s
  simp only [Bind.bind, EStateM.bind]
  rw [hx s]
  cases x s with
  | ok value s' => exact hg value s'
  | error => rfl

/-- Where the second action has a value, the first has it. -/
theorem Follows.exists_eq_ok {x : Action ψ α} {y : Action φ α} (h : Follows f x y) {s : Running ψ}
    {value : α} {s' : Running φ} (hend : y (s.map f) = .ok value s') :
    ∃ s₁, x s = .ok value s₁ ∧ s₁.map f = s' := by
  rw [h s] at hend
  cases hx : x s with
  | ok value' s₁ =>
      rw [hx] at hend
      cases hend
      exact ⟨s₁, rfl, rfl⟩
  | error cause s₁ =>
      rw [hx] at hend
      cases hend

/-- Where the second action ends with an error, the first does. -/
theorem Follows.exists_eq_error {x : Action ψ α} {y : Action φ α} (h : Follows f x y)
    {s : Running ψ} {cause : Fault Error} {s' : Running φ} (hend : y (s.map f) = .error cause s') :
    ∃ s₁, x s = .error cause s₁ ∧ s₁.map f = s' := by
  rw [h s] at hend
  cases hx : x s with
  | ok value s₁ =>
      rw [hx] at hend
      cases hend
  | error cause' s₁ =>
      rw [hx] at hend
      cases hend
      exact ⟨s₁, rfl, rfl⟩

theorem follows_get_bind {g : Running ψ → Action ψ α} {h : Running φ → Action φ α}
    (hg : ∀ s, Follows f (g s) (h (s.map f))) : Follows f (get >>= g) (get >>= h) :=
  fun s => hg s s

theorem follows_onHeap (operation : Heap → Outcome Heap.Error Heap α) :
    Follows f (onHeap operation) (onHeap operation) := by
  unfold onHeap
  refine follows_books.bind fun task => ?_
  split
  case h_1 => exact (follows_update _).bind fun _ => follows_pure _
  case h_2 => exact (follows_update _).bind fun _ => follows_pure _
  case h_3 => exact (follows_update _).bind fun _ => follows_throw _

theorem follows_forM {g : β → Action ψ PUnit} {h : β → Action φ PUnit} {l : List β}
    (hg : ∀ b, Follows f (g b) (h b)) : Follows f (l.forM g) (l.forM h) := by
  induction l with
  | nil => exact follows_pure _
  | cons b rest ih => exact (hg b).bind fun _ => ih

end Rules

/-! ### Borrowing and giving back -/

section Actions

variable {large : Firmware ψ} {f : ψ → φ} {fw : Firmware φ} {gen : Code.Generator γ}
  (h : large.Follows f fw)
include h

theorem borrow_follows (piece : Piece) : Follows f (borrow large piece) (borrow fw piece) := by
  unfold borrow
  split
  case h_1 =>
    refine (follows_onHeap _).bind fun outcome => ?_
    cases outcome <;> exact follows_pure _
  case h_2 =>
    refine (follows_onHeap _).bind fun outcome => ?_
    cases outcome <;> exact follows_pure _
  case h_3 =>
    refine (follows_call (h.reserve piece.extent)).bind fun granted => ?_
    split
    case isTrue => exact (follows_update _).bind fun _ => follows_pure _
    case isFalse => exact follows_pure _

theorem giveBack_follows (loan : Loan) :
    Follows f (giveBack large loan) (giveBack fw loan) := by
  unfold giveBack
  split
  case h_1 => exact follows_onHeap _
  case h_2 => exact follows_onHeap _
  case h_3 =>
    refine (follows_call (h.release loan.extent)).bind fun _ => ?_
    exact (follows_update _).bind fun _ => follows_pure _

theorem giveBackAll_follows (failed : Extent → Heap.Error → Notice) (loans : List Loan) :
    Follows f (giveBackAll large failed loans) (giveBackAll fw failed loans) := by
  refine follows_forM fun loan => (giveBack_follows h loan).bind fun outcome => ?_
  cases outcome with
  | ok => exact follows_pure _
  | error => exact follows_note _

theorem borrowEach_follows (pieces : List Piece) (loans : List Loan) :
    Follows f (borrowEach large pieces loans) (borrowEach fw pieces loans) := by
  induction pieces generalizing loans with
  | nil => exact follows_pure _
  | cons piece rest ih =>
      refine (borrow_follows h piece).bind fun outcome => ?_
      cases outcome with
      | ok loan => exact (follows_note _).bind fun _ => ih _
      | error cause => exact (giveBackAll_follows h _ _).bind fun _ => follows_pure _

/-! ### Sources -/

omit h in
theorem search_follows (intervals : List Interval) (request : Request) :
    Follows f (search intervals request) (search intervals request) := by
  unfold search
  refine follows_books.bind fun task => (follows_orTrap _).bind fun frozen => ?_
  refine (follows_update _).bind fun _ => ?_
  split
  case h_1 => exact follows_pure _
  case h_2 => exact follows_throw _

theorem collect_follows : Follows f (collect large) (collect fw) := by
  unfold collect
  refine follows_books.bind fun task => follows_get_bind fun s => ?_
  rw [Running.map, h.eventCapacity]
  refine (follows_orTrap _).bind fun _ => (follows_orTrap _).bind fun _ => ?_
  refine (follows_call h.available).bind fun listing => ?_
  refine (follows_forM fun block => follows_note _).bind fun _ => ?_
  exact (follows_orTrap _).bind fun _ => follows_pure _

theorem attempt_follows (request : Request) :
    Follows f (attempt large request) (attempt fw request) := by
  unfold attempt
  refine (follows_note _).bind fun _ => (collect_follows h).bind fun intervals => ?_
  refine (search_follows intervals request).bind fun found => ?_
  split
  case h_1 => exact follows_pure _
  case h_2 =>
    refine Follows.bind (borrowEach_follows h _ _) fun outcome => ?_
    split
    case h_1 => exact (follows_note _).bind fun _ => follows_pure _
    case h_2 => exact follows_pure _
    case h_3 => exact follows_refuse _

theorem borrowSource_follows (request : Request) :
    Follows f (borrowSource large request) (borrowSource fw request) := by
  induction request using borrowSource.induct with
  | case1 request ih =>
      unfold borrowSource
      refine (attempt_follows h request).bind fun outcome => ?_
      cases outcome with
      | exhausted => exact follows_pure _
      | borrowed => exact follows_pure _
      | refused piece =>
          refine (follows_note _).bind fun _ => ?_
          split
          case h_1 => exact follows_pure _
          case h_2 next hretry => exact ih piece next hretry

/-! ### Policies -/

omit h in
theorem follows_within {low high : Nat} {x : Extent → Action ψ (Option α)}
    {y : Extent → Action φ (Option α)} (hx : ∀ window, Follows f (x window) (y window)) :
    Follows f (within low high x) (within low high y) := by
  unfold within
  split
  case h_1 => exact follows_pure _
  case h_2 window _ => exact hx window

omit h in
theorem follows_orElse {x x' : Action ψ (Option α)} {y y' : Action φ (Option α)}
    (hx : Follows f x y) (hx' : Follows f x' y') : Follows f (orElse x x') (orElse y y') := by
  refine hx.bind fun outcome => ?_
  cases outcome with
  | some value => exact follows_pure _
  | none => exact hx'

theorem borrowInPostArea_follows (size align : Nat) :
    Follows f (borrowInPostArea large size align) (borrowInPostArea fw size align) := by
  unfold borrowInPostArea
  refine follows_books.bind fun task => follows_within fun window => ?_
  refine (borrowSource_follows h _).bind fun outcome => ?_
  cases outcome with
  | none => exact follows_pure _
  | some source =>
      refine (follows_update _).bind fun _ => follows_books.bind fun task => ?_
      exact (follows_note _).bind fun _ => follows_pure _

theorem borrowForTarget_follows (target : Extent) :
    Follows f (borrowForTarget large target) (borrowForTarget fw target) := by
  have above : Follows f (borrowAbove large target) (borrowAbove fw target) :=
    follows_within fun _ => borrowSource_follows h _
  have below : Follows f (borrowBelow large target) (borrowBelow fw target) :=
    follows_within fun _ => borrowSource_follows h _
  have postArea := borrowInPostArea_follows h target.length 1
  unfold borrowForTarget
  refine follows_books.bind fun task => ?_
  split
  case isTrue => exact (follows_note _).bind fun _ => above
  case isFalse =>
    refine follows_orElse above (follows_orElse ?_ (follows_orElse below postArea))
    split
    case isTrue => exact postArea
    case isFalse => exact follows_pure _

theorem borrowForWish_follows (wish : Wish) :
    Follows f (borrowForWish large wish) (borrowForWish fw wish) := by
  unfold borrowForWish
  refine (borrowSource_follows h _).bind fun outcome => ?_
  split
  case h_1 => exact follows_pure _
  case h_2 =>
    have ram : Follows f (ramExtents large) (ramExtents fw) :=
      follows_books.bind fun task => (follows_call h.available).bind fun _ => follows_pure _
    refine ram.bind fun extents => follows_books.bind fun task => ?_
    split
    case h_1 => exact follows_pure _
    case h_2 target _ =>
      refine (follows_note _).bind fun _ => follows_books.bind fun task => ?_
      refine (follows_note _).bind fun _ => Follows.bind ?_ fun _ => follows_pure _
      refine follows_orElse (follows_within fun limits => ?_) (borrowInPostArea_follows h _ _)
      exact borrowSource_follows h _

/-! ### Calls -/

omit h in
theorem enter_follows (source : Source) (target : Extent) :
    Follows f (enter gen source target) (enter gen source target) := by
  unfold enter
  refine (follows_update _).bind fun _ => follows_books.bind fun task => ?_
  refine (follows_note _).bind fun _ => (follows_orTrap _).bind fun chunk => ?_
  dsimp only
  split
  case h_1 =>
    exact (follows_pure _).bind fun _ => (follows_update _).bind fun _ => follows_pure _
  case h_2 =>
    exact (follows_orTrap _).bind fun _ => (follows_update _).bind fun _ => follows_pure _

theorem stageAt_follows (target size : Nat) :
    Follows f (stageAt large gen target size) (stageAt fw gen target size) := by
  unfold stageAt
  split
  case isTrue => exact follows_refuse _
  case isFalse =>
    split
    case h_1 => exact follows_refuse _
    case h_2 extent _ =>
      refine follows_books.bind fun task => ?_
      split
      case isTrue => exact follows_refuse _
      case isFalse =>
        refine (borrowForTarget_follows h extent).bind fun outcome => ?_
        cases outcome with
        | none => exact follows_refuse _
        | some source => exact enter_follows source extent

theorem stageWithin_follows (low high size align : Nat) (preferred : WindowEnd) :
    Follows f (stageWithin large gen low high size align preferred)
      (stageWithin fw gen low high size align preferred) := by
  unfold stageWithin
  split
  case isTrue => exact follows_refuse _
  case isFalse =>
    split
    case isTrue => exact follows_refuse _
    case isFalse =>
      split
      case h_1 => exact follows_refuse _
      case h_2 =>
        refine (borrowForWish_follows h _).bind fun outcome => ?_
        split
        case h_1 => exact follows_refuse _
        case h_2 => exact (enter_follows _ _).bind fun _ => follows_pure _

omit h in
theorem follows_passTrap (ending : Except (Fault Code.Error) Unit) :
    Follows f (passTrap ending) (passTrap ending) := by
  unfold passTrap
  split
  case h_1 => exact follows_pure _
  case h_2 => exact follows_pure _
  case h_3 => exact follows_throw _

theorem prepare_follows (contents : Nat → UInt8) (entry : Nat) (generator : γ) :
    Follows f (prepare large gen contents entry generator)
      (prepare fw gen contents entry generator) := by
  have code : Follows f (stageCode large gen) (stageCode fw gen) := by
    unfold stageCode
    refine follows_books.bind fun task => Follows.bind ?_ fun outcome => ?_
    · exact follows_within fun _ => borrowSource_follows h _
    · cases outcome with
      | none => exact follows_refuse _
      | some source => exact (enter_follows _ _).bind fun _ => follows_pure _
  unfold prepare
  refine code.bind fun place => follows_books.bind fun task => ?_
  refine (follows_forM fun _ => follows_note _).bind fun _ => ?_
  refine (follows_forM fun _ => follows_note _).bind fun _ => ?_
  exact (follows_passTrap _).bind fun _ => follows_pure _

theorem perform_follows (command : Command γ) :
    Follows f (perform large gen command) (perform fw gen command) := by
  cases command with
  | stageAt => exact (stageAt_follows h _ _).bind fun _ => follows_pure _
  | stageWithin => exact (stageWithin_follows h _ _ _ _ _).bind fun _ => follows_pure _
  | prepare => exact (prepare_follows h _ _ _).bind fun _ => follows_pure _

/-- **Each call** leads to the same state, less what only the larger firmware holds. -/
theorem next?_map (command : Command γ) (s : Running ψ) :
    next? fw gen command (s.map f) = (next? large gen command s).map (Running.map f) := by
  unfold next?
  rw [perform_follows h command s]
  cases perform large gen command s with
  | ok => rfl
  | error cause => cases cause <;> rfl

/-- **What is reached with a firmware** is what is reached with one that holds more. -/
theorem Reach.follow {gens : Code.Generator γ → Prop} {origin : Heap} (first : ψ)
    {s : Running φ} (hs : Reach fw gens origin (f first) s) :
    ∃ s₁, Reach large gens origin first s₁ ∧ s₁.map f = s := by
  induction hs with
  | start hgen => exact ⟨_, .start hgen, rfl⟩
  | call _ hgen command hcall ih =>
      obtain ⟨s₁, hreach, rfl⟩ := ih
      rw [next?_map h] at hcall
      obtain ⟨s₂, hnext, rfl⟩ := Option.map_eq_some_iff.1 hcall
      exact ⟨s₂, hreach.call hgen command hnext, rfl⟩

end Actions

end Task

end Staging

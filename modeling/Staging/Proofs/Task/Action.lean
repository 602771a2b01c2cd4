import Staging.Proofs.Outcome
import Staging.Task.Basic

/-!
# What holds after an action

`Post x Q R s` says what the action `x` leaves behind when it starts in the state `s`: if it has a
value then `Q` holds of the value and the state, if it ends with an error then `R` holds of the
state, and after a trap nothing is promised.  `Ends x E s` says that the action does not end with a
trap, and with an error only if `E` holds of it.  The rules below go along the text of an action,
one for each way in which actions are built.
-/

namespace Staging.Task

variable {φ α β : Type} {s : Running φ} {R : Running φ → Prop}

/-- What holds after an action that starts in this state. -/
def Post (x : Action φ α) (Q : α → Running φ → Prop) (R : Running φ → Prop) (s : Running φ) :
    Prop :=
  match x s with
  | .ok value s' => Q value s'
  | .error (.error _) s' => R s'
  | .error (.trap _) _ => True

theorem post_of_eq_ok {x : Action φ α} {Q : α → Running φ → Prop} {value : α} {s' : Running φ}
    (hx : x s = .ok value s') (h : Q value s') : Post x Q R s := by
  simpa only [Post, hx] using h

theorem Post.of_ok {x : Action φ α} {Q : α → Running φ → Prop} {value : α} {s' : Running φ}
    (h : Post x Q R s) (hx : x s = .ok value s') : Q value s' := by
  simpa only [Post, hx] using h

theorem Post.of_error {x : Action φ α} {Q : α → Running φ → Prop} {cause : Error}
    {s' : Running φ} (h : Post x Q R s) (hx : x s = .error (.error cause) s') : R s' := by
  simpa only [Post, hx] using h

theorem post_trivial (x : Action φ α) : Post x (fun _ _ => True) (fun _ => True) s := by
  unfold Post
  split <;> trivial

/-- The value and the state of an action are those that it ends with. -/
theorem post_self (x : Action φ α) :
    Post x (fun value s' => x s = .ok value s') (fun _ => True) s := by
  unfold Post
  split
  case h_1 hx => exact hx
  case h_2 => trivial
  case h_3 => trivial

/-- What is promised may be weakened. -/
theorem Post.mono {x : Action φ α} {Q Q' : α → Running φ → Prop} {R' : Running φ → Prop}
    (h : Post x Q R s) (hQ : ∀ value s', Q value s' → Q' value s') (hR : ∀ s', R s' → R' s') :
    Post x Q' R' s := by
  unfold Post at h ⊢
  split at h
  case h_1 => exact hQ _ _ h
  case h_2 => exact hR _ h
  case h_3 => exact h

/-- Promises may be made together. -/
theorem Post.and {x : Action φ α} {Q Q' : α → Running φ → Prop} {R' : Running φ → Prop}
    (h : Post x Q R s) (h' : Post x Q' R' s) :
    Post x (fun value s' => Q value s' ∧ Q' value s') (fun s' => R s' ∧ R' s') s := by
  unfold Post at h h' ⊢
  split
  case h_1 hx =>
    rw [hx] at h h'
    exact ⟨h, h'⟩
  case h_2 hx =>
    rw [hx] at h h'
    exact ⟨h, h'⟩
  case h_3 => trivial

/-- An action behind one that has a value. -/
theorem bind_of_ok {x : Action φ α} {value : α} {s' : Running φ} (h : x s = .ok value s')
    (f : α → Action φ β) : (x >>= f) s = f value s' := by
  simp only [bind, EStateM.bind, h]

/-- Nothing is done behind an action that ends otherwise. -/
theorem bind_of_error {x : Action φ α} {cause : Fault Error} {s' : Running φ}
    (h : x s = .error cause s') (f : α → Action φ β) : (x >>= f) s = .error cause s' := by
  simp only [bind, EStateM.bind, h]

theorem books_eq (s : Running φ) : books s = .ok s.task s := rfl

/-- An action behind another starts where that one ends. -/
theorem post_bind_iff {x : Action φ α} {f : α → Action φ β} {Q : β → Running φ → Prop} :
    Post (x >>= f) Q R s ↔ Post x (fun value s' => Post (f value) Q R s') R s := by
  simp only [Post, bind, EStateM.bind]
  cases x s with
  | ok value s' => rfl
  | error cause s' => cases cause <;> rfl

theorem Post.bind {x : Action φ α} {f : α → Action φ β} {Q : β → Running φ → Prop}
    {P : α → Running φ → Prop} (h : Post x P R s)
    (hf : ∀ value s', P value s' → Post (f value) Q R s') :
    Post (x >>= f) Q R s :=
  post_bind_iff.2 (h.mono hf fun _ => id)

theorem post_pure_iff {value : α} {Q : α → Running φ → Prop} :
    Post (pure value) Q R s ↔ Q value s := Iff.rfl

theorem post_orTrap {x : Except Trap α} {Q : α → Running φ → Prop}
    (h : ∀ value, x = .ok value → Q value s) : Post (orTrap x) Q R s := by
  cases x with
  | ok value => exact h value rfl
  | error cause => trivial

/-- A fault of the heap ends an action as what it is. -/
theorem post_throw {cause : Fault Error} {Q : α → Running φ → Prop} (h : R s) :
    Post (throw cause) Q R s := by
  cases cause with
  | error => exact h
  | trap => trivial

theorem post_books_iff {Q : Task → Running φ → Prop} : Post books Q R s ↔ Q s.task s := Iff.rfl

theorem post_update_iff {change : Task → Task} {Q : Unit → Running φ → Prop} :
    Post (update change) Q R s ↔ Q () { s with task := change s.task } := Iff.rfl

theorem post_note_iff {n : Notice} {Q : Unit → Running φ → Prop} :
    Post (note n) Q R s ↔ Q () { s with notices := s.notices.push n } := Iff.rfl

/-- An operation on the heap that is clean has a value, or leaves the books as they are. -/
theorem post_onHeap {operation : Heap → Outcome Heap.Error Heap α}
    {Q : Except Heap.Error α → Running φ → Prop}
    (hclean : (operation s.task.heap).Clean s.task.heap)
    (hok : ∀ value heap, operation s.task.heap = .ok value heap →
      Q (.ok value) { s with task := { s.task with heap } })
    (herror : ∀ cause, operation s.task.heap = .error cause s.task.heap → Q (.error cause) s) :
    Post (onHeap operation) Q R s := by
  unfold onHeap
  rw [post_bind_iff, post_books_iff]
  rcases hclean.ok_or_error with ⟨value, heap, h⟩ | ⟨cause, h⟩ <;> rw [h]
  · exact hok value heap h
  · exact herror cause h

/-- Such an operation ends with its value or its error. -/
theorem exists_onHeap {operation : Heap → Outcome Heap.Error Heap α}
    (hclean : (operation s.task.heap).Clean s.task.heap) :
    ∃ outcome s', onHeap operation s = .ok outcome s' := by
  rw [onHeap, bind_of_ok (books_eq s)]
  rcases hclean.ok_or_error with ⟨value, heap, h⟩ | ⟨cause, h⟩ <;> rw [h]
  · exact ⟨_, _, rfl⟩
  · exact ⟨_, _, rfl⟩

theorem onHeap_of_ok {operation : Heap → Outcome Heap.Error Heap α} {value : α} {heap : Heap}
    (h : operation s.task.heap = .ok value heap) :
    onHeap operation s = .ok (.ok value) { s with task := { s.task with heap } } := by
  rw [onHeap, bind_of_ok (books_eq s), h]
  rfl

theorem post_call_iff {service : φ → Reply φ α} {Q : α → Running φ → Prop} :
    Post (call service) Q R s ↔
      Q (service s.firmware).value
        { s with
          firmware := (service s.firmware).state
          notices := s.notices.appendList (service s.firmware).notices } := Iff.rfl

/-- An action for each entry of a list, each of which keeps the same. -/
theorem post_forM {P : Running φ → Prop} {f : β → Action φ PUnit} {l : List β}
    (h : ∀ b ∈ l, ∀ s, P s → Post (f b) (fun _ => P) R s) (hs : P s) :
    Post (l.forM f) (fun _ => P) R s := by
  induction l generalizing s with
  | nil => exact hs
  | cons b rest ih =>
      refine (h b List.mem_cons_self s hs).bind fun _ s' hs' => ?_
      exact ih (fun b hb => h b (List.mem_cons_of_mem _ hb)) hs'

/-- A notice for each entry of a list. -/
theorem notes_eq (f : β → Notice) (l : List β) :
    (l.forM fun b => note (f b)) s =
      .ok () { s with notices := l.foldl (fun notices b => notices.push (f b)) s.notices } := by
  induction l generalizing s with
  | nil => rfl
  | cons b rest ih => exact (bind_of_ok rfl _).trans ih

/-! ### Actions without traps -/

/-- The action ends with a value, or with an error of which `E` holds. -/
def Ends (x : Action φ α) (E : Error → Prop) (s : Running φ) : Prop :=
  match x s with
  | .ok _ _ => True
  | .error (.error cause) _ => E cause
  | .error (.trap _) _ => False

section Ends

variable {E : Error → Prop} {x : Action φ α} {f : α → Action φ β}

/-- An action that ends neither with a trap nor with an error has a value. -/
theorem Ends.exists_eq_ok (h : Ends x (fun _ => False) s) : ∃ value s', x s = .ok value s' := by
  unfold Ends at h
  split at h
  case h_1 value s' hend => exact ⟨value, s', hend⟩
  case h_2 => contradiction
  case h_3 => contradiction

/-- An action behind one that has a value ends as it does in the state behind that. -/
theorem ends_bind_of_ok {value : α} {s' : Running φ} (h : x s = .ok value s') :
    Ends (x >>= f) E s ↔ Ends (f value) E s' := by
  simp only [Ends, bind_of_ok h]

theorem Ends.bind {P : α → Running φ → Prop} (h : Ends x E s) (hx : Post x P R s)
    (hf : ∀ value s', P value s' → Ends (f value) E s') : Ends (x >>= f) E s := by
  cases hend : x s with
  | ok value s' => exact (ends_bind_of_ok hend).2 (hf value s' (hx.of_ok hend))
  | error cause s' =>
      unfold Ends at h ⊢
      rw [bind_of_error hend]
      rw [hend] at h
      cases cause <;> exact h

/-- Giving a notice for each entry of a list ends with a value. -/
theorem ends_notes (f : β → Notice) (l : List β) : Ends (l.forM fun b => note (f b)) E s := by
  unfold Ends
  rw [notes_eq]
  trivial

end Ends

end Staging.Task

import Staging.Fault

/-!
# Laws of outcomes

What an outcome made from another one says about that one.  An operation is clean (`Outcome.Clean`)
if it does not trap and its errors leave the state that it began in.
-/

namespace Staging

variable {ε α β : Type}

@[simp]
theorem ok_bind (a : α) (f : α → Except ε β) : (Except.ok a >>= f) = f a := rfl

@[simp]
theorem error_bind (cause : ε) (f : α → Except ε β) : (Except.error cause >>= f) = .error cause :=
  rfl

namespace Outcome

variable {σ τ : Type}

theorem map_eq_ok_iff {f : α → β} {x : Outcome ε σ α} {b : β} {s : σ} :
    x.map f = .ok b s ↔ ∃ a, x = .ok a s ∧ f a = b := by
  cases x <;> simp [map] <;> grind

theorem map_eq_error_iff {f : α → β} {x : Outcome ε σ α} {cause : ε} {s : σ} :
    x.map f = .error cause s ↔ x = .error cause s := by
  cases x <;> simp [map]

theorem within_eq_ok_iff {put : σ → τ} {x : Outcome ε σ α} {a : α} {t : τ} :
    x.within put = .ok a t ↔ ∃ s, x = .ok a s ∧ put s = t := by
  cases x <;> simp [within, and_assoc]

theorem within_eq_error_iff {put : σ → τ} {x : Outcome ε σ α} {cause : ε} {t : τ} :
    x.within put = .error cause t ↔ ∃ s, x = .error cause s ∧ put s = t := by
  cases x <;> simp [within, and_assoc]

@[simp]
theorem orTrap_ok (a : α) (s : σ) (next : α → Outcome ε σ β) : orTrap (.ok a) s next = next a :=
  rfl

theorem orTrap_eq_ok_iff {x : Except Trap α} {s s' : σ} {next : α → Outcome ε σ β} {b : β} :
    orTrap x s next = .ok b s' ↔ ∃ a, x = .ok a ∧ next a = .ok b s' := by
  cases x <;> simp [orTrap]

theorem orTrap_eq_error_iff {x : Except Trap α} {s s' : σ} {next : α → Outcome ε σ β} {cause : ε} :
    orTrap x s next = .error cause s' ↔ ∃ a, x = .ok a ∧ next a = .error cause s' := by
  cases x <;> simp [orTrap]

theorem orTrap_eq_trap_iff {x : Except Trap α} {s s' : σ} {next : α → Outcome ε σ β}
    {cause : Trap} :
    orTrap x s next = .trap cause s' ↔
      (x = .error cause ∧ s = s') ∨ ∃ a, x = .ok a ∧ next a = .trap cause s' := by
  cases x <;> simp [orTrap]

/-- Go on with the value in the state of an outcome that has one. -/
def bind (x : Outcome ε σ α) (next : α → σ → Outcome ε σ β) : Outcome ε σ β :=
  match x with
  | ok a s => next a s
  | error cause s => error cause s
  | trap cause s => trap cause s

theorem bind_eq_ok_iff {x : Outcome ε σ α} {next : α → σ → Outcome ε σ β} {b : β} {s' : σ} :
    x.bind next = .ok b s' ↔ ∃ a s, x = .ok a s ∧ next a s = .ok b s' := by
  cases x <;> simp [bind, and_assoc]

/-! ### Clean outcomes -/

/-- The outcome is no trap, and the state of an error is `s`. -/
def Clean (s : σ) : Outcome ε σ α → Prop
  | ok _ _ => True
  | error _ s' => s' = s
  | trap _ _ => False

namespace Clean

variable {s : σ} {x : Outcome ε σ α} (h : x.Clean s)
include h

/-- An error leaves the state that the operation began in. -/
theorem unchanged {cause : ε} {s' : σ} (hx : x = .error cause s') : s' = s := by
  subst hx
  exact h

theorem not_trap {cause : Trap} {s' : σ} : x ≠ .trap cause s' := by
  rintro rfl
  exact h

theorem map (f : α → β) : (x.map f).Clean s := by
  cases x <;> exact h

theorem within (put : σ → τ) : (x.within put).Clean (put s) := by
  cases x with
  | ok => trivial
  | error cause s' => exact congrArg put h
  | trap => exact h

/-- A clean operation has a value, or an error that changes nothing. -/
theorem ok_or_error : (∃ a s', x = .ok a s') ∨ ∃ cause, x = .error cause s := by
  cases x with
  | ok a s' => exact .inl ⟨a, s', rfl⟩
  | error cause s' =>
      cases h
      exact .inr ⟨cause, rfl⟩
  | trap => exact h.elim

end Clean

end Outcome

end Staging

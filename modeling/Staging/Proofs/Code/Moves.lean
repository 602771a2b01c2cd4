import Mathlib.Data.List.Basic
import Staging.Code.Stub

/-!
# Moves in memory

A move copies byte by byte, and every byte that is stored is seen by the loads that follow.  If
its direction fits its source and its target, it copies what the source had at the start, however
the two overlap (`Move.run_spec`).
-/

namespace Staging

/-- The bytes of memory by their addresses. -/
abbrev Memory := Nat → UInt8

namespace Move

/-- Copy the byte at an offset. -/
def step (m : Move) (memory : Memory) (offset : Nat) : Memory :=
  Function.update memory (m.target + offset) (memory (m.source + offset))

/-- The offsets in the order in which their bytes are copied. -/
def offsets (m : Move) : List Nat :=
  match m.direction with
  | .forward => List.range m.size
  | .backward => (List.range m.size).reverse

/-- The memory after a move. -/
def run (m : Move) (memory : Memory) : Memory :=
  m.offsets.foldl m.step memory

/-- The memory after moves in their order. -/
def runAll (moves : List Move) (memory : Memory) : Memory :=
  moves.foldl (fun memory m => m.run memory) memory

/-- The direction of the move fits its source and its target. -/
def Fits (m : Move) : Prop :=
  match m.direction with
  | .forward => m.target ≤ m.source
  | .backward => m.source ≤ m.target

theorem mem_offsets_iff {m : Move} {k : Nat} : k ∈ m.offsets ↔ k < m.size := by
  unfold offsets
  split <;> simp

/-- No byte is loaded from where an earlier one was stored. -/
theorem pairwise_offsets {m : Move} (h : m.Fits) :
    m.offsets.Pairwise fun k k' => k ≠ k' ∧ m.target + k ≠ m.source + k' := by
  unfold Fits at h
  unfold offsets
  split at h
  case h_1 => exact List.pairwise_lt_range.imp fun hlt => by omega
  case h_2 =>
    exact List.pairwise_reverse.2 (List.pairwise_lt_range.imp fun hlt => by omega)

/-- Copying bytes of which none is loaded from where an earlier one was stored. -/
theorem foldl_step (m : Move) {ks : List Nat} (memory : Memory)
    (h : ks.Pairwise fun k k' => k ≠ k' ∧ m.target + k ≠ m.source + k') :
    (∀ k ∈ ks, ks.foldl m.step memory (m.target + k) = memory (m.source + k)) ∧
      ∀ x, (∀ k ∈ ks, x ≠ m.target + k) → ks.foldl m.step memory x = memory x := by
  induction ks generalizing memory with
  | nil => simp
  | cons k rest ih =>
      obtain ⟨hk, hrest⟩ := List.pairwise_cons.1 h
      obtain ⟨hcopied, hkept⟩ := ih (m.step memory k) hrest
      have hother {x : Nat} (hx : x ≠ m.target + k) : m.step memory k x = memory x :=
        Function.update_of_ne hx _ _
      refine ⟨fun k' hk' => ?_, fun x hx => ?_⟩
      · rw [List.foldl_cons]
        rcases List.mem_cons.1 hk' with rfl | hk'
        · rw [hkept _ fun k' hk' heq => (hk k' hk').1 (Nat.add_left_cancel heq)]
          exact Function.update_self _ _ _
        · rw [hcopied k' hk', hother (hk k' hk').2.symm]
      · rw [List.foldl_cons, hkept x fun k' hk' => hx k' (List.mem_cons_of_mem _ hk')]
        exact hother (hx k List.mem_cons_self)

/-- **A move copies what its source had**, and changes nothing outside its target. -/
theorem run_spec {m : Move} (h : m.Fits) (memory : Memory) :
    (∀ k < m.size, m.run memory (m.target + k) = memory (m.source + k)) ∧
      ∀ x, x < m.target ∨ m.target + m.size ≤ x → m.run memory x = memory x := by
  obtain ⟨hcopied, hkept⟩ := foldl_step m memory (pairwise_offsets h)
  refine ⟨fun k hk => hcopied k (mem_offsets_iff.2 hk), fun x hx => hkept x fun k hk => ?_⟩
  have := mem_offsets_iff.1 hk
  omega

end Move

end Staging

import Staging.Proofs.Task.Reach

/-!
# Targets are separate

No two chunks of a task have targets that share a byte, and a target shares none with a source
that was borrowed after it.  So the target of a chunk can only lie over the source of an earlier
one (`targets_separate`).
-/

namespace Staging.Task

variable {φ γ : Type}

/-- In a list whose entries have a relation with all later ones, indices tell which is which. -/
theorem rel_of_getElem? {α : Type} {S : α → α → Prop} {l : List α} (h : l.Pairwise S) {i j : Nat}
    {a b : α} (hi : l[i]? = some a) (hj : l[j]? = some b) (hlt : i < j) : S a b := by
  obtain ⟨hilt, rfl⟩ := List.getElem?_eq_some_iff.1 hi
  obtain ⟨hjlt, rfl⟩ := List.getElem?_eq_some_iff.1 hj
  exact List.pairwise_iff_getElem.1 h i j hilt hjlt hlt

/-- **Targets are separate.**  In every state that a task reaches, the targets of two chunks do not
intersect, and the target of a chunk does not intersect the source of a later one.  So a hazard is
always a later target over an earlier source. -/
theorem targets_separate {fw : Firmware φ} {gens : Code.Generator γ → Prop} {origin : Heap}
    {firmware : φ} {s : Running φ} (horigin : origin.Reachable)
    (h : Reach fw gens origin firmware s) :
    (∀ (i j : Nat) (a b : Chunk), s.task.chunks[i]? = some a → s.task.chunks[j]? = some b →
        i ≠ j → a.target.intersects b.target = false) ∧
      (∀ (i j : Nat) (a b : Chunk), s.task.chunks[i]? = some a → s.task.chunks[j]? = some b →
        i < j → a.target.intersects b.source = false) ∧
      ∀ n ∈ s.task.hazards, ∃ (i j : Nat) (a b : Chunk), s.task.chunks[i]? = some a ∧
        s.task.chunks[j]? = some b ∧ j < i ∧ n = .hazard a.target i b.source j := by
  have hapart := (h.staged horigin.valid fw.tracks_nothing trivial).arranged.apart
  have hlater : ∀ (i j : Nat) (a b : Chunk), s.task.chunks[i]? = some a →
      s.task.chunks[j]? = some b → i < j → a.target.intersects b.source = false := by
    intro i j a b hi hj hlt
    exact Extent.intersects_eq_false_iff.2 (rel_of_getElem? hapart hi hj hlt).2
  refine ⟨fun i j a b hi hj hne => ?_, hlater, fun n hn => ?_⟩
  · rcases Nat.lt_or_gt_of_ne hne with hlt | hgt
    · exact Extent.intersects_eq_false_iff.2 (rel_of_getElem? hapart hi hj hlt).1
    · exact Extent.intersects_eq_false_iff.2 (rel_of_getElem? hapart hj hi hgt).1.symm
  · obtain ⟨i, j, a, b, hi, hj, hne, hhit, rfl⟩ := mem_hazards_iff.1 hn
    refine ⟨i, j, a, b, hi, hj, ?_, rfl⟩
    rcases Nat.lt_or_gt_of_ne hne with hlt | hgt
    · exact absurd (hlater i j a b hi hj hlt) (by simp [hhit])
    · exact hgt

/-- Three chunks, of which the second has its target over the source of the first. -/
theorem targets_separate_of_three : ∃ s : Running Firmware.Table,
    run? Firmware.ofTable smallGenerator
        [.stageAt 0x200000 0x200, .stageAt 0x8c80 0x80, .stageWithin 0 0x10000 0x40 0x10 .low]
        { task := Task.start smallHeap smallGenerator, firmware := smallFirmware } = some s ∧
      s.task.chunks.length = 3 ∧ s.task.hazards.length = 1 ∧
      ∀ n ∈ s.task.hazards, ∃ (i j : Nat) (a b : Chunk), s.task.chunks[i]? = some a ∧
        s.task.chunks[j]? = some b ∧ j < i ∧ n = .hazard a.target i b.source j := by
  have hlengths : (run? Firmware.ofTable smallGenerator
      [.stageAt 0x200000 0x200, .stageAt 0x8c80 0x80, .stageWithin 0 0x10000 0x40 0x10 .low]
      { task := Task.start smallHeap smallGenerator, firmware := smallFirmware }).map
        (fun s => (s.task.chunks.length, s.task.hazards.length)) = some (3, 1) := by
    decide +kernel
  obtain ⟨s, hrun, hlength⟩ := Option.map_eq_some_iff.1 hlengths
  obtain ⟨hchunks, hhazards⟩ := Prod.ext_iff.1 hlength
  exact ⟨s, hrun, hchunks, hhazards,
    (targets_separate smallHeap_reachable (reach_of_run? hrun)).2.2⟩

end Staging.Task

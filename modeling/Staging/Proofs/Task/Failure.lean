import Staging.Proofs.Task.Marks
import Staging.Proofs.Task.Record

/-!
# Calls that fail change nothing

A call that ends with an error leaves the books as it found them.  The loans that are owed say what
the heap and the blocks are (`Staged.task_eq`), and the marks are those of before.  A record of the
calls of the firmware holds one release for every reservation that was granted meanwhile
(`books_of_failure`).
-/

namespace Staging.Task

variable {φ γ : Type} {fw : Firmware φ} {gen : Code.Generator γ}
  {gens : Code.Generator γ → Prop} {origin : Heap}
  {track : φ → List Extent → Prop} {s s' : Running φ}

/-- **The marks determine the books** of a task that owes just the loans of its chunks. -/
theorem Staged.task_eq {ψ : Type} {track' : ψ → List Extent → Prop} {s' : Running ψ}
    (h : Staged origin track s) (h' : Staged origin track' s')
    (hmarks : s'.task.marks = s.task.marks) : s'.task = s.task := by
  have hchunks : s'.task.chunks = s.task.chunks :=
    show s'.task.marks.chunks = s.task.marks.chunks by rw [hmarks]
  exact h.kept.task_eq (hchunks ▸ h'.kept) hmarks

/-- A call that ends with an error leaves the books alone. -/
theorem Staged.task_of_failure (hv : origin.Valid) (hfw : fw.Tracks track)
    (h : Staged origin track s) {command : Command γ} {cause : Error}
    (hfail : perform fw gen command s = .error (.error cause) s') :
    s'.task = s.task ∧ track s'.firmware s.task.blocks := by
  have hstaged := (perform_spec gen hv hfw command h).of_error hfail
  have hmarks := (perform_counts command (rfl : Marked s.task.marks s)).of_error hfail
  have htask := h.task_eq hstaged hmarks
  exact ⟨htask, htask ▸ hstaged.owes.tracked⟩

/-- **A call that fails changes nothing.**  If any call ends with an error, the books are those of
before: the heap with all its regions, the blocks, the chunks, the marks of the post area and the
size of the code.  Had the firmware kept a record of its calls meanwhile, there would be one release
in it for every reservation that was granted, and it would lead from the blocks to the blocks. -/
theorem books_of_failure {firmware : φ} (horigin : origin.Reachable)
    (h : Reach fw gens origin firmware s) (command : Command γ) {cause : Error}
    (hfail : perform fw gen command s = .error (.error cause) s') :
    s'.task = s.task ∧ ∃ calls,
      perform fw.recorded gen command ⟨s.task, (s.firmware, []), s.notices⟩ =
        .error (.error cause) ⟨s'.task, (s'.firmware, calls), s'.notices⟩ ∧
      (calls.filterMap (·.released?)).Perm (calls.filterMap (·.granted?)) ∧
      calls.foldlM Firmware.Call.replay s.task.blocks = some s.task.blocks := by
  have hv := horigin.valid
  have hstaged := h.staged hv fw.tracks_nothing trivial
  refine ⟨(hstaged.task_of_failure hv fw.tracks_nothing hfail).1, ?_⟩
  obtain ⟨s₁, hrecorded, rfl⟩ := (perform_follows fw.recorded_follows command).exists_eq_error
    (show perform fw gen command (Running.map Prod.fst ⟨s.task, (s.firmware, []), s.notices⟩) =
      .error (.error cause) s' from hfail)
  have hstart : Staged origin
      (fun state blocks => state.2.foldlM Firmware.Call.replay s.task.blocks = some blocks)
      (⟨s.task, (s.firmware, []), s.notices⟩ : Running (φ × List Firmware.Call)) :=
    ⟨⟨hstaged.owes.heap, hstaged.owes.blocks, rfl⟩, hstaged.arranged⟩
  obtain ⟨-, hreplay⟩ :=
    hstart.task_of_failure hv (fw.recorded_tracks_from s.task.blocks) hrecorded
  refine ⟨s₁.firmware.2, hrecorded, ?_, hreplay⟩
  have hperm := Firmware.Call.perm_of_replay hreplay
  exact (List.perm_append_right_iff _).1 (hperm.symm.trans List.perm_append_comm)

/-- A firmware that lists memory between the regions of the small heap, and refuses it. -/
def refusingFirmware : Firmware.Table where
  available := [smallGap, ⟨0x8000, 0xa000, by decide, by decide⟩]
  refusals := [smallGap]

/-- A source would take a piece of the firmware below the start of a region.  The header of the
region has moved already when the firmware refuses its piece. -/
theorem books_of_failure_small : ∃ (s s' : Running Firmware.Table) (calls : List Firmware.Call),
    run? Firmware.ofTable smallGenerator [.stageAt 0x200000 0x200]
        { task := Task.start smallHeap smallGenerator, firmware := refusingFirmware } = some s ∧
      perform Firmware.ofTable smallGenerator (.stageAt 0x300000 0x2ec1) s =
        .error (.error .outOfMemory) s' ∧
      s.task.chunks.length = 1 ∧ s'.firmware.calls.size = 2 ∧ s'.task = s.task ∧
      perform Firmware.ofTable.recorded smallGenerator (.stageAt 0x300000 0x2ec1)
          ⟨s.task, (s.firmware, []), s.notices⟩ =
        .error (.error .outOfMemory) ⟨s'.task, (s'.firmware, calls), s'.notices⟩ ∧
      calls.foldlM Firmware.Call.replay s.task.blocks = some s.task.blocks := by
  have hends : (run? Firmware.ofTable smallGenerator [.stageAt 0x200000 0x200]
      { task := Task.start smallHeap smallGenerator, firmware := refusingFirmware }).map (fun s =>
        match perform Firmware.ofTable smallGenerator (.stageAt 0x300000 0x2ec1) s with
        | .error (.error .outOfMemory) s' => some (s.task.chunks.length, s'.firmware.calls.size)
        | _ => none) = some (some (1, 2)) := by
    decide +kernel
  obtain ⟨s, hrun, hend⟩ := Option.map_eq_some_iff.1 hends
  split at hend
  case h_1 s' hfail =>
    obtain ⟨hchunks, hcalls⟩ := Prod.ext_iff.1 (Option.some.inj hend)
    obtain ⟨htask, calls, hrecorded, -, hreplay⟩ :=
      books_of_failure smallHeap_reachable (reach_of_run? hrun) _ hfail
    exact ⟨s, s', calls, hrun, hfail, hchunks, hcalls, htask, hrecorded, hreplay⟩
  case h_2 => cases hend

end Staging.Task

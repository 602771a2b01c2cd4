import Staging.Proofs.Task.Record

/-!
# Teardown is exact

When a task is closed or discarded, every loan of its chunks can be given back, and the heap is
then what it was at the start.  A record of the calls of its firmware holds one release, of the same
extent, for every reservation that was granted, and no other (`teardown_restores`).
-/

namespace Staging

namespace Task

variable {φ γ : Type} {origin : Heap} {fw : Firmware φ} {gen : Code.Generator γ}
  {gens : Code.Generator γ → Prop}
  {track : φ → List Extent → Prop} {loans : List Loan} {s : Running φ}

/-- Chunks are given back one after the other, whatever is said of a loan that cannot be. -/
theorem giveBackChunks_spec (hv : origin.Valid) (hfw : fw.Tracks track) {chunks : List Chunk}
    (failed : Chunk → Extent → Heap.Error → Notice)
    (h : Owes origin track (chunks.flatMap (·.loans) ++ loans) s) :
    ∃ heap, chunks.forM (fun c => giveBackAll fw (failed c) c.loans) s =
        .ok () (settle fw (chunks.flatMap (·.loans)) heap (loans.filterMap (·.block?)).reverse s) ∧
      Owes origin track loans
        (settle fw (chunks.flatMap (·.loans)) heap (loans.filterMap (·.block?)).reverse s) := by
  induction chunks generalizing s with
  | nil =>
      have hblocks : s.task.blocks = (loans.filterMap (·.block?)).reverse := h.blocks
      refine ⟨s.task.heap, ?_⟩
      rw [← hblocks, List.flatMap_nil, settle_nil]
      exact ⟨rfl, h⟩
  | cons c rest ih =>
      rw [List.flatMap_cons, List.append_assoc] at h
      obtain ⟨heap, hback, -, howes⟩ := giveBackAll_spec hv hfw h (failed c)
      obtain ⟨heap', hrest, howes'⟩ := ih howes
      refine ⟨heap', ?_⟩
      rw [settle_settle] at hrest howes'
      rw [List.flatMap_cons]
      exact ⟨(bind_of_ok hback _).trans hrest, howes'⟩

/-- What is left of a task that was in the state `s` when its chunks were given back. -/
structure TornDown (fw : Firmware φ) (origin : Heap) (s s' : Running φ) : Prop where
  heap : s'.task.heap = origin
  frozen : s'.task.heap.frozen = false
  blocks : s'.task.blocks = []
  chunks : s'.task.chunks = []
  /-- Every loan could be given back: from the newest chunk to the oldest, and in address order
  for each. -/
  answers : ∃ s₁, (owed s.task.chunks).mapM (giveBack fw) s =
    .ok ((owed s.task.chunks).map fun _ => .ok ()) s₁
  /-- The firmware was asked to release the blocks, newest first, and to do nothing else. -/
  firmware : s'.firmware = (fw.releaseAll s.task.blocks.reverse s.firmware).1
  /-- Nobody but the firmware said anything. -/
  notices : s'.notices =
    s.notices.appendList (fw.releaseAll s.task.blocks.reverse s.firmware).2

/-- Discarding gives back all that the chunks owe. -/
theorem discard_spec (gen : Code.Generator γ) (hv : origin.Valid) (hfw : fw.Tracks track)
    (h : Staged origin track s) :
    ∃ s', discard fw gen s = .ok () s' ∧ Owes origin track [] s' ∧ s'.task.chunks = [] ∧
      s'.firmware = (fw.releaseAll s.task.blocks.reverse s.firmware).1 ∧
      s'.notices = s.notices.appendList (fw.releaseAll s.task.blocks.reverse s.firmware).2 := by
  have howed := h.owes
  have hblocks : (owed s.task.chunks).filterMap (·.block?) = s.task.blocks.reverse := by
    rw [howed.blocks, List.reverse_reverse]
  rw [← List.append_nil (owed s.task.chunks)] at howed
  obtain ⟨heap, hback, howes⟩ := giveBackChunks_spec hv hfw
    (fun c loan cause => .releaseFailed loan c.source cause) howed
  refine ⟨_, (bind_of_ok (books_eq s) _).trans (bind_of_ok hback _), ?_, rfl, ?_, ?_⟩
  · exact ⟨howes.heap, howes.blocks, howes.tracked⟩
  · exact hblocks ▸ rfl
  · exact hblocks ▸ rfl

/-- A task that owes just the loans of its chunks is torn down when they are given back. -/
theorem Staged.tornDown (gen : Code.Generator γ) (hv : origin.Valid)
    (hthawed : origin.frozen = false) (hfw : fw.Tracks track) (h : Staged origin track s) :
    ∃ s', discard fw gen s = .ok () s' ∧ TornDown fw origin s s' ∧ track s'.firmware [] := by
  obtain ⟨s', hdiscard, howes, hchunks, hstate, hnotices⟩ := discard_spec gen hv hfw h
  have hheap : s'.task.heap = origin := by
    cases howes.heap
    rfl
  have hblocks : s'.task.blocks = [] := howes.blocks
  refine ⟨s', hdiscard, ⟨hheap, hheap ▸ hthawed, hblocks, hchunks, ?_, hstate, hnotices⟩, ?_⟩
  · have howed := h.owes
    rw [← List.append_nil (owed s.task.chunks)] at howed
    obtain ⟨_, -, hanswers, -⟩ := giveBackAll_spec hv hfw howed .rollbackFailed
    exact ⟨_, hanswers⟩
  · rw [← hblocks]
    exact howes.tracked

/-- The notice that a task ends changes nothing else. -/
theorem Staged.unloading (h : Staged origin track s) : Staged origin track { s with
    notices := s.notices.push (.unloading s.task.chunks.length s.task.blocks.length) } :=
  ⟨h.owes.note _, h.arranged⟩

/-- **Teardown is exact.**  Whatever a task did, closing and discarding it succeed, and restore the
heap that it started on.  Had the firmware kept a record of its calls, there would be one release in
it for every reservation that was granted, and no other. -/
theorem teardown_restores (gen : Code.Generator γ) {firmware : φ} (horigin : origin.Reachable)
    (hthawed : origin.frozen = false) (h : Reach fw gens origin firmware s) :
    (∃ s', discard fw gen s = .ok () s' ∧ TornDown fw origin s s') ∧
      (∃ s', close fw gen s = .ok () s' ∧ TornDown fw origin
        { s with
          notices := s.notices.push (.unloading s.task.chunks.length s.task.blocks.length) } s') ∧
      ∃ s₁, Reach fw.recorded gens origin (firmware, []) s₁ ∧ s₁.map Prod.fst = s ∧
        (∃ s', discard fw.recorded gen s₁ = .ok () s' ∧ Firmware.Balanced s'.firmware.2) ∧
        ∃ s', close fw.recorded gen s₁ = .ok () s' ∧ Firmware.Balanced s'.firmware.2 := by
  have hv := horigin.valid
  have hstaged := h.staged hv fw.tracks_nothing trivial
  obtain ⟨s', hdiscard, htorn, -⟩ := hstaged.tornDown gen hv hthawed fw.tracks_nothing
  obtain ⟨s'', hclose, htorn', -⟩ := hstaged.unloading.tornDown gen hv hthawed fw.tracks_nothing
  obtain ⟨s₁, hreach, hmap⟩ := Reach.follow fw.recorded_follows (firmware, []) h
  have hrecorded := hreach.staged hv fw.recorded_tracks rfl
  obtain ⟨s₂, hdiscard₂, -, hreplay⟩ := hrecorded.tornDown gen hv hthawed fw.recorded_tracks
  obtain ⟨s₃, hclose₃, -, hreplay'⟩ :=
    hrecorded.unloading.tornDown gen hv hthawed fw.recorded_tracks
  exact ⟨⟨s', hdiscard, htorn⟩, ⟨s'', hclose, htorn'⟩, s₁, hreach, hmap,
    ⟨s₂, hdiscard₂, Firmware.balanced_of_replay hreplay⟩,
    s₃, hclose₃, Firmware.balanced_of_replay hreplay'⟩

/-- A block that the firmware granted behind one that it refused, a piece of a body, a move of a
header, and a call that ends with an error. -/
theorem teardown_restores_small : ∃ s s' : Running Firmware.Table,
    run? Firmware.ofTable smallGenerator
        [.stageAt 0x200000 0x200, .stageWithin 0x1000 0x3000 0x40 0x10 .low,
          .stageAt 0x2001ff 0x40, .stageWithin 0x4000 0x6000 0x40 0x10 .low]
        { task := Task.start smallHeap smallGenerator, firmware := smallFirmware } = some s ∧
      s.task.chunks.length = 3 ∧ s.task.blocks.length = 1 ∧
      discard Firmware.ofTable smallGenerator s = .ok () s' ∧
      TornDown Firmware.ofTable smallHeap s s' := by
  have hlengths : (run? Firmware.ofTable smallGenerator
      [.stageAt 0x200000 0x200, .stageWithin 0x1000 0x3000 0x40 0x10 .low,
        .stageAt 0x2001ff 0x40, .stageWithin 0x4000 0x6000 0x40 0x10 .low]
      { task := Task.start smallHeap smallGenerator, firmware := smallFirmware }).map
        (fun s => (s.task.chunks.length, s.task.blocks.length)) = some (3, 1) := by
    decide +kernel
  obtain ⟨s, hrun, hlength⟩ := Option.map_eq_some_iff.1 hlengths
  obtain ⟨hchunks, hblocks⟩ := Prod.ext_iff.1 hlength
  obtain ⟨s', hdiscard, htorn⟩ :=
    (teardown_restores smallGenerator smallHeap_reachable (by decide +kernel)
      (reach_of_run? hrun)).1
  exact ⟨s, s', hrun, hchunks, hblocks, hdiscard, htorn⟩

end Task

end Staging

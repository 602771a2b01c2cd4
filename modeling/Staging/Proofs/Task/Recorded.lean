import Staging.Proofs.Heap.History
import Staging.Proofs.Task.Ledger
import Staging.Proofs.Task.Teardown

/-!
# Heaps and their histories

The heaps that a loader and its tasks lead to are recorded (`Heap.Recorded`): a history is written
along the operations, a task adds the pieces of bodies that it holds, and takes them out of the
history when it ends.  Every heap that is recorded is consistent with its history
(`consistent_of_recorded`).
-/

namespace Staging

namespace Task

/-- The pieces of bodies that a task holds. -/
def pieces (task : Task) : List Extent := task.loans.filterMap (·.piece?)

variable {φ γ : Type} {origin : Heap} {fw : Firmware φ} {gen : Code.Generator γ}
  {gens : Code.Generator γ → Prop}
  {track : φ → List Extent → Prop} {s s' : Running φ}

/-- A task that is discarded leaves the heap that it started on. -/
theorem Staged.heap_of_discard (h : Staged origin track s) (hv : origin.Valid)
    (hfw : fw.Tracks track) (hend : discard fw gen s = .ok () s') : s'.task.heap = origin := by
  obtain ⟨_, hdiscard, howes, -⟩ := discard_spec gen hv hfw h
  cases hend.symm.trans hdiscard
  cases howes.heap
  rfl

/-- **A task that ends** leaves the heap that it started on. -/
theorem Reach.heap_of_end {firmware : φ} (h : Reach fw gens origin firmware s) (hv : origin.Valid)
    (hend : discard fw gen s = .ok () s' ∨ close fw gen s = .ok () s') :
    s'.task.heap = origin := by
  have hstaged := h.staged hv fw.tracks_nothing trivial
  rcases hend with hdiscard | hclose
  · exact hstaged.heap_of_discard hv fw.tracks_nothing hdiscard
  · exact hstaged.unloading.heap_of_discard hv fw.tracks_nothing hclose

end Task

namespace Heap

/-- The heaps that operations of a loader and tasks lead to, with their histories.  A task may still
run, or have ended in either way. -/
inductive Recorded : Heap → History → Prop where
  | empty : Recorded {} {}
  | performed {heap heap' : Heap} {history : History} (h : Recorded heap history)
      (operation : Operation) {answer : Answer}
      (hop : heap.perform operation = .ok answer heap') :
      Recorded heap' (history.enter operation answer)
  | running {heap : Heap} {history : History} (h : Recorded heap history) {φ γ : Type}
      {fw : Firmware φ} {gens : Code.Generator γ → Prop} {firmware : φ} {s : Task.Running φ}
      (hs : Task.Reach fw gens heap firmware s) :
      Recorded s.task.heap { history with pieces := s.task.pieces ++ history.pieces }
  | ended {heap : Heap} {history : History} (h : Recorded heap history) {φ γ : Type}
      {fw : Firmware φ} {gens : Code.Generator γ → Prop} {gen : Code.Generator γ} {firmware : φ}
      {s s' : Task.Running φ} (hs : Task.Reach fw gens heap firmware s)
      (hend : Task.discard fw gen s = .ok () s' ∨ Task.close fw gen s = .ok () s') :
      Recorded s'.task.heap history

theorem Recorded.reachable {heap : Heap} {history : History} (h : heap.Recorded history) :
    heap.Reachable := by
  induction h with
  | empty => exact .empty
  | performed _ operation hop ih => exact ih.performed operation hop
  | running _ hs ih => exact ih.staged hs
  | ended _ hs hend ih => exact hs.heap_of_end ih.valid hend ▸ ih

/-- Operations of a loader, those that end in an error passed over, are recorded. -/
theorem Recorded.run {heap : Heap} {history : History} (h : heap.Recorded history)
    (operations : List Operation) :
    (heap.run operations).1.Recorded (history.run heap operations) := by
  induction operations generalizing heap history with
  | nil => exact h
  | cons operation rest ih =>
      rw [Heap.run, History.run]
      cases hop : heap.perform operation with
      | ok answer next => exact ih (h.performed operation hop)
      | error cause next => exact ih (h.reachable.valid.perform_error hop ▸ h)
      | trap => exact h

/-- **A heap agrees with its history**, whatever was done to it. -/
theorem Recorded.agrees {heap : Heap} {history : History} (h : heap.Recorded history) :
    heap.Agrees history := by
  induction h with
  | empty => exact ⟨rfl, .nil, .nil⟩
  | performed h operation hop ih => exact ih.enter h.reachable.valid hop
  | running h hs ih =>
      have hv := h.reachable.valid
      have hstaged := hs.staged hv (Firmware.tracks_nothing _) trivial
      exact ih.borrow hv hstaged.owes.heap ((Task.perm_owed _).filterMap _)
  | ended h hs hend ih => exact hs.heap_of_end h.reachable.valid hend ▸ ih

/-- **A heap is consistent with its history**, whatever a loader and tasks did to it.  Operations
that end in an error change neither, and while the heap is frozen nothing but its thawing does.  No
identity is given twice, as adding a region traps when none is left for the next. -/
theorem consistent_of_recorded {heap : Heap} {history : History} (h : heap.Recorded history) :
    heap.Consistent history ∧
      (∀ operation cause heap', heap.perform operation = .error cause heap' → heap' = heap ∧
        ∀ rest, heap.run (operation :: rest) = heap.run rest ∧
          history.run heap (operation :: rest) = history.run heap rest) ∧
      (∀ extent cause heap', heap.addRegion extent = .trap cause heap' →
        cause = .addOverflow ∧ heap.nextId.number + 1 = RegionId.limit) ∧
      (heap.frozen = true → ∀ operations : List Operation,
        (∀ operation ∈ operations, operation.mutates = true) →
          (∀ operation ∈ operations, heap.perform operation = .error .frozen heap) ∧
            heap.run operations = (heap, [])) := by
  have hv := h.reachable.valid
  refine ⟨h.agrees.consistent hv, ?_, fun extent cause heap' => addRegion_trap, ?_⟩
  · intro operation cause heap' hcause
    obtain rfl := hv.perform_error hcause
    refine ⟨rfl, fun rest => ?_⟩
    rw [Heap.run, History.run, hcause]
    exact ⟨rfl, rfl⟩
  · intro hfrozen operations hmutates
    have hrefused : ∀ operation ∈ operations, heap.perform operation = .error .frozen heap :=
      fun operation ho => perform_of_frozen hfrozen (hmutates operation ho)
    exact ⟨hrefused, hv.run_of_refused fun operation ho => ⟨_, _, hrefused operation ho⟩⟩

/-- An allocation without a size takes a byte, a region over another one is refused, and an
allocation is taken back. -/
def mixedOperations : List Operation :=
  [.addRegion ⟨0x10000, 0x30000, by decide, by decide⟩,
    .addRegion ⟨0x40000, 0x60000, by decide, by decide⟩, .allocate 0x100 16, .allocate 0 16,
    .addRegion ⟨0x20000, 0x50000, by decide, by decide⟩, .allocate 0x40 0x40, .deallocate 0x10140]

/-- A task holds a piece of each body when the heap is frozen. -/
theorem consistent_of_recorded_mixed :
    ∃ (s : Task.Running Firmware.Table) (heap : Heap) (history : History),
      Task.run? Firmware.ofTable smallGenerator
          [.stageAt 0x200000 0x200, .stageWithin 0x10000 0x30000 0x40 0x10 .low]
          { task := Task.start (({} : Heap).run mixedOperations).1 smallGenerator
            firmware := smallFirmware } = some s ∧
        s.task.heap.perform .freeze = .ok .done heap ∧ heap.Recorded history ∧
        history.ids.map (·.number) = [0, 1] ∧
        history.places =
          [(0x10120, 1), (0x10020, 0x100), (0x5fde0, 0x200), (0x10130, 0x40)] ∧
        heap.Consistent history ∧
        heap.run [.deallocate 0x10120, .thaw] = heap.run [.thaw] ∧
        heap.run [.deallocate 0x10120, .allocate 8 16] = (heap, []) := by
  have hfacts : (Task.run? Firmware.ofTable smallGenerator
      [.stageAt 0x200000 0x200, .stageWithin 0x10000 0x30000 0x40 0x10 .low]
      { task := Task.start (({} : Heap).run mixedOperations).1 smallGenerator
        firmware := smallFirmware }).map
          (fun s => (s.task.heap.frozen, s.task.pieces.map Extent.place)) =
      some (false, [(0x5fde0, 0x200), (0x10130, 0x40)]) := by
    decide +kernel
  have hhistory : (History.run {} {} mixedOperations).ids.map (·.number) = [0, 1] ∧
      (History.run {} {} mixedOperations).allocations = [(0x10120, 0), (0x10020, 0x100)] ∧
      (History.run {} {} mixedOperations).pieces = [] := by
    decide +kernel
  obtain ⟨hids, hallocations, hpieces⟩ := hhistory
  obtain ⟨s, hrun, hs⟩ := Option.map_eq_some_iff.1 hfacts
  obtain ⟨hthawed, hplaces⟩ := Prod.mk.inj hs
  have hfreeze : s.task.heap.perform .freeze = .ok .done { s.task.heap with frozen := true } :=
    Outcome.orTrap_eq_ok_iff.2 ⟨_, freeze_eq_ok_iff.2 ⟨hthawed, rfl⟩, rfl⟩
  have hrecorded :=
    ((Recorded.empty.run mixedOperations).running (Task.reach_of_run? hrun)).performed _ hfreeze
  obtain ⟨hconsistent, herror, -, hrefuse⟩ := consistent_of_recorded hrecorded
  refine ⟨s, _, _, hrun, hfreeze, hrecorded, hids, ?_, hconsistent, ?_, ?_⟩
  · simp [History.enter, History.places, hallocations, hpieces, hplaces]
  · exact ((herror _ .frozen _ (perform_of_frozen rfl rfl)).2 _).1
  · exact (hrefuse rfl _ (by decide)).2

end Heap

end Staging

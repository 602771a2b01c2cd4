import Staging.Proofs.Heap.Used

/-!
# The history of a heap

A history says what became of a heap: which regions were added to it, which allocations are live,
and which pieces of bodies are lent (`Heap.History`).  It is written along the operations of a
loader (`History.enter`).

A heap that agrees with its history (`Heap.Agrees`) does so after an operation (`Agrees.enter`) and
after loans (`Agrees.borrow`).  Its regions are then well formed, and what they allocate is what the
history says (`Heap.Consistent`).  Operations that are refused change nothing (`run_of_refused`).
-/

namespace Staging.Heap

/-- What became of a heap. -/
structure History where
  /-- The identities of the regions that were added, in the order of their addition. -/
  ids : List RegionId := []
  /-- The live allocations: the address that each has, and the size that was asked for. -/
  allocations : List (Nat × Nat) := []
  /-- The pieces of bodies that tasks hold. -/
  pieces : List Extent := []
deriving DecidableEq

namespace History

/-- Enter an operation that succeeded.  An address that is freed is free, whoever held it. -/
def enter (history : History) : Operation → Answer → History
  | .addRegion _, .region id => { history with ids := history.ids ++ [id] }
  | .allocate size _, .address address =>
      { history with allocations := (address, size) :: history.allocations }
  | .deallocate address, _ =>
      { history with
        allocations := history.allocations.filter (·.1 ≠ address)
        pieces := history.pieces.filter (·.start ≠ address) }
  | _, _ => history

/-- Enter operations in their order; those that do not succeed leave no trace. -/
def run (history : History) (heap : Heap) : List Operation → History
  | [] => history
  | operation :: rest =>
      match heap.perform operation with
      | .ok answer next => (history.enter operation answer).run next rest
      | .error _ next => history.run next rest
      | .trap _ _ => history

/-- Where the history says that the heap is allocated. -/
def places (history : History) : List (Nat × Nat) :=
  history.allocations.map (fun (address, size) => (address, max size 1)) ++
    history.pieces.map Extent.place

end History

/-! ### A heap agrees with its history -/

/-- The regions that a heap has are those that were added to it, and it allocates what its history
says. -/
structure Agrees (heap : Heap) (history : History) : Prop where
  /-- Regions were numbered in the order of their addition. -/
  numbers : history.ids.map (·.number) = List.range heap.nextId.number
  ids : heap.ids.Perm history.ids
  used : (heap.used.map Extent.place).Perm history.places

namespace Agrees

variable {heap heap' : Heap} {history : History}

/-- **An operation** of a loader keeps heap and history in agreement. -/
theorem enter (h : heap.Agrees history) (hv : heap.Valid) {operation : Operation}
    {answer : Answer} (hop : heap.perform operation = .ok answer heap') :
    heap'.Agrees (history.enter operation answer) := by
  cases operation with
  | addRegion extent =>
      obtain ⟨id, hadd, rfl⟩ := Outcome.map_eq_ok_iff.1 hop
      obtain ⟨rfl, hnext, hids, hused⟩ := addRegion_spec hadd
      refine ⟨?_, ?_, (hused.map _).trans h.used⟩
      · rw [hnext, List.range_succ, ← h.numbers]
        exact List.map_append
      · exact hids.trans ((h.ids.cons _).trans (List.perm_append_singleton _ _).symm)
  | allocate size align =>
      obtain ⟨address, halloc, rfl⟩ := Outcome.map_eq_ok_iff.1 hop
      obtain ⟨piece, hplace, hnext, hids, hused⟩ := allocate_spec hv halloc
      refine ⟨hnext ▸ h.numbers, hids ▸ h.ids, (hused.map _).trans ?_⟩
      rw [List.map_cons, hplace]
      exact h.used.cons _
  | deallocate address =>
      obtain ⟨_, hfree, rfl⟩ := Outcome.map_eq_ok_iff.1 hop
      obtain ⟨hnext, hids, hused⟩ := deallocate_spec hv hfree
      refine ⟨hnext ▸ h.numbers, hids ▸ h.ids, (hused.map _).trans ?_⟩
      have hfilter := h.used.filter (·.1 ≠ address)
      simp only [History.places, List.filter_append, List.filter_map] at hfilter
      exact hfilter
  | freeze =>
      obtain ⟨next, hfreeze, hend⟩ := Outcome.orTrap_eq_ok_iff.1 hop
      cases hend
      obtain ⟨-, rfl⟩ := freeze_eq_ok_iff.1 hfreeze
      exact ⟨h.numbers, h.ids, h.used⟩
  | thaw =>
      cases hop
      exact ⟨h.numbers, h.ids, h.used⟩

/-- **Loans** keep heap and history in agreement when their pieces are entered. -/
theorem borrow {loans : List Loan} {pieces : List Extent} (h : heap.Agrees history)
    (hv : heap.Valid) (hlent : heap.Lent loans heap')
    (hpieces : pieces.Perm (loans.filterMap (·.piece?))) :
    heap'.Agrees { history with pieces := pieces ++ history.pieces } := by
  obtain ⟨hnext, hids⟩ := hlent.ids hv
  refine ⟨hnext ▸ h.numbers, hids ▸ h.ids, ((hlent.used hv).map _).trans ?_⟩
  rw [List.map_append, History.places, List.map_append]
  exact ((hpieces.symm.map _).append h.used).trans (List.perm_append_comm_assoc _ _ _)

end Agrees

/-! ### Consistent heaps -/

/-- What a heap shows of its regions, and of its history. -/
structure Consistent (heap : Heap) (history : History) : Prop where
  sorted : heap.regions.Pairwise fun a b => a.base < b.base
  apart : heap.regions.Pairwise fun a b => a.extent.intersects b.extent = false
  /-- The regions are those that were added. -/
  ids : (heap.regions.map (·.id)).Perm history.ids
  /-- No two regions were ever given the same identity. -/
  unique : history.ids.Nodup
  /-- The next region is given an identity that none has had. -/
  fresh : heap.nextId ∉ history.ids
  /-- Headers lie at the first aligned address, and fit. -/
  headers : ∀ r ∈ heap.regions, Address.ceilTo? Region.headerAlign r.base = some r.head ∧
    r.base ≤ r.head ∧ r.head + Region.headerSize ≤ r.stop
  /-- Spans are not empty, and tile the body. -/
  tiled : ∀ r ∈ heap.regions, Span.Tile (r.head + Region.headerSize) r.stop r.spans
  /-- No two neighbours are free. -/
  separated : ∀ r ∈ heap.regions, Span.Separated r.spans
  /-- What is allocated are the live allocations, of at least one byte, and the pieces of bodies
  that tasks hold. -/
  allocated : (heap.used.map Extent.place).Perm history.places

theorem Agrees.consistent {heap : Heap} {history : History} (h : heap.Agrees history)
    (hv : heap.Valid) : heap.Consistent history where
  sorted := hv.ordered.imp_of_mem fun ha _ hle => by
    have := (hv.regions _ ha).bounds
    omega
  apart := hv.ordered.imp_of_mem fun ha hb hle => by
    have := (hv.regions _ ha).extent_bounds
    have := (hv.regions _ hb).extent_bounds
    exact Extent.intersects_eq_false_iff.2 (.of_le (by omega))
  ids := h.ids
  unique := h.ids.nodup_iff.1 hv.unique
  fresh hmem := by
    have hnumber := List.mem_map_of_mem (f := (·.number)) hmem
    rw [h.numbers, List.mem_range] at hnumber
    exact Nat.lt_irrefl _ hnumber
  headers r hr := by
    have hbounds := (hv.regions r hr).bounds
    exact ⟨(hv.regions r hr).head, hbounds.1, hbounds.2.2.2.1⟩
  tiled r hr := (hv.regions r hr).tile
  separated r hr := (hv.regions r hr).separated
  allocated := h.used

/-- Whether an operation may change more than whether the heap is frozen. -/
def Operation.mutates : Operation → Bool
  | .freeze | .thaw => false
  | _ => true

/-- A frozen heap refuses whatever would change it. -/
theorem perform_of_frozen {heap : Heap} (hfrozen : heap.frozen = true) {operation : Operation}
    (hmutates : operation.mutates = true) : heap.perform operation = .error .frozen heap := by
  cases operation with
  | addRegion extent => simp [perform, addRegion, hfrozen, Outcome.map]
  | allocate size align => simp [perform, allocate, hfrozen, Outcome.map]
  | deallocate address => simp [perform, deallocate, hfrozen, Outcome.map]
  | freeze => cases hmutates
  | thaw => cases hmutates

/-- Operations that are refused change nothing. -/
theorem Valid.run_of_refused {heap : Heap} (hv : heap.Valid) {operations : List Operation}
    (h : ∀ operation ∈ operations, ∃ cause heap', heap.perform operation = .error cause heap') :
    heap.run operations = (heap, []) := by
  induction operations with
  | nil => rfl
  | cons operation rest ih =>
      obtain ⟨cause, heap', hcause⟩ := h operation List.mem_cons_self
      rw [Heap.run, hcause]
      dsimp only
      rw [hv.perform_error hcause]
      exact ih fun o ho => h o (.tail _ ho)

end Staging.Heap

import Staging.Proofs.Task.Reach

/-!
# The ledger of borrowed memory

In every state that a task reaches, its chunks say what became of the memory that the heap had at
the start: what each region lent out of its body, where its header went, and what of it is left
(`Region.Ledger`).  No two loans took the same memory, no block of the firmware lies over what a
region had, and the free bytes went down by what the loans cost (`Task.Ledger`, `ledger_of_reach`).
-/

namespace Staging

/-- What loans, in the order of the chunks, made of one region. -/
structure Region.Ledger (loans : List Loan) (r₀ r : Region) : Prop where
  id : r.id = r₀.id
  stop : r.stop = r₀.stop
  /-- The moves of the header lead from the first base and head to the present ones. -/
  chain : HeaderMove.Chain r₀.base r₀.head (loans.filterMap (·.move? r₀.id)) r.base r.head
  /-- The region was what its header left behind and what it owns now. -/
  union : ∀ x, x ∈ r₀.extent ↔
    (∃ loan ∈ loans, (∃ m, loan.lender = .regionHead r₀.id m) ∧ x ∈ loan.claimed) ∨ x ∈ r.extent
  /-- What the header left behind is not owned any more. -/
  disjoint : ∀ loan ∈ loans, (∃ m, loan.lender = .regionHead r₀.id m) →
    loan.claimed.intersects r.extent = false
  /-- The allocated extents are those of the start and the pieces of the body. -/
  used : (Span.used r.spans).Perm (Span.used r₀.spans ++ loans.filterMap (·.body? r₀.id))

namespace Task

/-- The loans of a task in the order of its chunks. -/
def loans (task : Task) : List Loan := task.chunks.flatMap (·.loans)

/-- What the chunks of a task say about the memory that it borrowed from an origin. -/
structure Ledger (origin : Heap) (task : Task) : Prop where
  /-- No two loans took the same memory. -/
  claims : task.loans.Pairwise fun a b => a.claimed.intersects b.claimed = false
  sources : task.chunks.Pairwise fun a b => a.source.intersects b.source = false
  regions : List.Forall₂ (Region.Ledger task.loans) origin.regions task.heap.regions
  /-- No block of the firmware lies over what a region had. -/
  firmware : ∀ loan ∈ task.loans, loan.lender = .firmware →
    ∀ r ∈ origin.regions, loan.extent.intersects r.extent = false
  /-- The blocks are the extents that the firmware lent. -/
  blocks : task.blocks.Perm (task.loans.filterMap (·.block?))
  /-- The free bytes went down by the lengths of the pieces of bodies and the ways of headers. -/
  freeBytes : task.heap.freeBytes + (task.loans.map (·.cost)).sum = origin.freeBytes

variable {φ γ : Type} {origin heap : Heap} {chunks : List Chunk}

theorem perm_owed (chunks : List Chunk) : (chunks.flatMap (·.loans)).Perm (owed chunks) :=
  (List.reverse_perm chunks).symm.flatMap_right _

/-! ### The moves of one chunk -/

/-- A function that has a value at no two entries of a list has at most one there. -/
theorem reverse_filterMap_of_pairwise {α β : Type} {f : α → Option β} {l : List α}
    (h : l.Pairwise fun a b => f a = none ∨ f b = none) :
    (l.filterMap f).reverse = l.filterMap f := by
  induction l with
  | nil => rfl
  | cons a rest ih =>
      obtain ⟨hrest, hpairwise⟩ := List.pairwise_cons.1 h
      cases hfa : f a with
      | none => rw [List.filterMap_cons_none hfa, ih hpairwise]
      | some b =>
          have hnone : rest.filterMap f = [] :=
            List.filterMap_eq_nil_iff.2 fun c hc => (hrest c hc).resolve_left (by simp [hfa])
          rw [List.filterMap_cons_some hfa, hnone]
          rfl

/-- A header moves at most once for one chunk: it goes upwards, while the loans of a chunk are
made from the highest down. -/
theorem moves_of_chunk (hv : origin.Valid) (h : origin.Lent (owed chunks) heap)
    (harranged : Arranged chunks) {r₀ r : Region} (hacc : Region.Account (owed chunks) r₀ r)
    {c : Chunk} (hc : c ∈ chunks) :
    (c.loans.filterMap (·.move? r₀.id)).reverse = c.loans.filterMap (·.move? r₀.id) := by
  refine reverse_filterMap_of_pairwise ?_
  have hup : c.loans.Pairwise fun a b => ∀ m, b.move? r₀.id = some m →
      ∀ m', a.move? r₀.id = some m' → m.newBase ≤ m'.oldBase := by
    have hall := List.pairwise_reverse.1 (List.pairwise_filterMap.1 hacc.chain.pairwise)
    exact (List.pairwise_flatMap.1 hall).1 c (List.mem_reverse.2 hc)
  have hdown : c.loans.Pairwise fun a b => a.extent.stop ≤ b.extent.start :=
    List.pairwise_map.1 (harranged.whole c hc).tile.pairwise
  refine (hup.and hdown).imp_of_mem fun {a b} ha hb hab => ?_
  -- The lower of two loans was made later, so its move would begin above the higher one.
  by_contra hboth
  obtain ⟨hmove', hmove⟩ := not_or.1 hboth
  obtain ⟨m', hm'⟩ := Option.ne_none_iff_exists'.1 hmove'
  obtain ⟨m, hm⟩ := Option.ne_none_iff_exists'.1 hmove
  have hle := hab.1 m hm m' hm'
  have hmem {loan : Loan} (hloan : loan ∈ c.loans) : loan ∈ owed chunks :=
    mem_owed_iff.2 ⟨c, hc, hloan⟩
  obtain ⟨hlo, -⟩ := hacc.claimed_bounds (hmem ha) (Loan.move?_eq_some_iff.1 hm')
  obtain ⟨-, hhi, -⟩ := hacc.claimed_bounds (hmem hb) (Loan.move?_eq_some_iff.1 hm)
  obtain ⟨hbyte, hcovers⟩ := h.claimed_covers hv (hmem ha)
  obtain ⟨hbyte', hcovers'⟩ := h.claimed_covers hv (hmem hb)
  have hinside := Extent.covers_iff.1 hcovers
  have hinside' := Extent.covers_iff.1 hcovers'
  omega

/-- The moves of one header in the order of the chunks are in the order of the loans. -/
theorem moves_eq (hv : origin.Valid) (h : origin.Lent (owed chunks) heap)
    (harranged : Arranged chunks) {r₀ r : Region} (hacc : Region.Account (owed chunks) r₀ r) :
    (owed chunks).reverse.filterMap (·.move? r₀.id) =
      (chunks.flatMap (·.loans)).filterMap (·.move? r₀.id) := by
  rw [owed, List.reverse_flatMap, List.reverse_reverse, List.filterMap_flatMap,
    List.filterMap_flatMap]
  refine List.flatMap_congr fun c hc => ?_
  rw [Function.comp_apply, List.filterMap_reverse]
  exact moves_of_chunk hv h harranged hacc hc

theorem regionLedger_of_account (hv : origin.Valid) (h : origin.Lent (owed chunks) heap)
    (harranged : Arranged chunks) {r₀ r : Region} (hr₀ : r₀ ∈ origin.regions)
    (hacc : Region.Account (owed chunks) r₀ r) :
    Region.Ledger (chunks.flatMap (·.loans)) r₀ r where
  id := hacc.replaces.id
  stop := hacc.replaces.stop
  chain := moves_eq hv h harranged hacc ▸ hacc.chain
  union x := by
    rw [hacc.mem_extent_iff (hv.regions r₀ hr₀) x]
    simp only [(perm_owed chunks).mem_iff]
  disjoint loan hloan hhead := by
    obtain ⟨m, hm⟩ := hhead
    obtain ⟨-, hhi, -, -, hle⟩ := hacc.claimed_bounds ((perm_owed chunks).mem_iff.1 hloan) hm
    have hbounds := hacc.replaces.valid.extent_bounds
    exact Extent.intersects_eq_false_iff.2 (.of_le (by omega))
  used := hacc.used.trans <|
    List.perm_append_comm.trans (((perm_owed chunks).symm.filterMap _).append_left _)

/-- **The ledger of borrowed memory** holds in every state that a task reaches. -/
theorem ledger_of_reach {fw : Firmware φ} {gens : Code.Generator γ → Prop} {firmware : φ}
    {s : Running φ} (horigin : origin.Reachable) (h : Reach fw gens origin firmware s) :
    Ledger origin s.task := by
  have hv := horigin.valid
  obtain ⟨⟨hlent, hblocks, -⟩, harranged⟩ := h.staged hv fw.tracks_nothing trivial
  have hperm := perm_owed s.task.chunks
  have hclaims : s.task.loans.Pairwise fun a b => a.claimed.Apart b.claimed :=
    (hperm.pairwise_iff fun hab => Extent.Apart.symm hab).2 (hlent.claims_apart hv)
  refine ⟨?_, ?_, ?_, ?_, ?_, ?_⟩
  · exact hclaims.imp fun hab => Extent.intersects_eq_false_iff.2 hab
  · exact (sources_apart hv hlent harranged).imp fun hab => Extent.intersects_eq_false_iff.2 hab
  · refine (Heap.forall₂_mem (hlent.accounts hv)).imp fun r₀ r ⟨hacc, hr₀, _⟩ => ?_
    exact regionLedger_of_account hv hlent harranged hr₀ hacc
  · intro loan hloan hfw r hr
    have hapart := hlent.blocks_apart (hperm.mem_iff.1 hloan) hfw r hr
    exact Extent.intersects_eq_false_iff.2 hapart.symm
  · rw [hblocks]
    exact (List.reverse_perm _).trans (hperm.symm.filterMap _)
  · rw [← hlent.freeBytes hv]
    exact congrArg (s.task.heap.freeBytes + ·) (hperm.map _).sum_nat

/-- A block of the firmware, a piece of a body, and two moves of one header. -/
theorem ledger_of_four : ∃ s : Running Firmware.Table,
    run? Firmware.ofTable smallGenerator
        [.stageAt 0x200000 0x200, .stageWithin 0x1000 0x3000 0x40 0x10 .low,
          .stageWithin 0x4000 0x6000 0x40 0x10 .low, .stageWithin 0x5f00 0x6100 0x180 0x10 .low]
        { task := Task.start smallHeap smallGenerator, firmware := smallFirmware } = some s ∧
      s.task.loans.map (·.region?.map (·.number)) = [none, some 0, some 1, some 1] ∧
      Ledger smallHeap s.task := by
  have hlenders : (run? Firmware.ofTable smallGenerator
      [.stageAt 0x200000 0x200, .stageWithin 0x1000 0x3000 0x40 0x10 .low,
        .stageWithin 0x4000 0x6000 0x40 0x10 .low, .stageWithin 0x5f00 0x6100 0x180 0x10 .low]
      { task := Task.start smallHeap smallGenerator, firmware := smallFirmware }).map
        (fun s => s.task.loans.map (·.region?.map (·.number))) =
      some [none, some 0, some 1, some 1] := by
    decide +kernel
  obtain ⟨s, hrun, hregions⟩ := Option.map_eq_some_iff.1 hlenders
  exact ⟨s, hrun, hregions, ledger_of_reach smallHeap_reachable (reach_of_run? hrun)⟩

end Task

end Staging

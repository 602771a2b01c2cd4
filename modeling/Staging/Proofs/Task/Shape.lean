import Staging.Proofs.Sweep.Shape
import Staging.Proofs.Task.Attempts
import Staging.Proofs.Task.Placement
import Staging.Proofs.Task.Safety

/-!
# The shape of a chunk

A placement has the loans that its pieces have owners for, in the same order
(`borrowEach_owners`), so what a sweep says about the owners of a placement holds of the loans of a
chunk.  These are the end of a body, a block of the firmware and the start of another region, each
of them once at most (`chunks_shaped`).
-/

namespace Staging

/-- The owner whose piece was lent. -/
def Lender.owner : Lender → Owner
  | .regionBody id => .regionBody id
  | .regionHead id _ => .regionHead id
  | .firmware => .firmware

theorem Loan.region?_eq (loan : Loan) : loan.region? = loan.lender.owner.region? := by
  unfold region?
  cases loan.lender <;> rfl

/-- The loans of a chunk, in address order: out of a body, from the firmware, and from the start of
a region. -/
structure Chunk.Shaped (c : Chunk) : Prop where
  parts : ∃ body block head : Option Loan,
    c.loans = body.toList ++ block.toList ++ head.toList ∧
      (∀ loan ∈ body, ∃ id, loan.lender = .regionBody id) ∧
      (∀ loan ∈ block, loan.lender = .firmware) ∧
      ∀ loan ∈ head, ∃ id move, loan.lender = .regionHead id move
  /-- No region lends two of them. -/
  distinct : c.loans.Pairwise fun a b => ∀ id, a.region? = some id → b.region? ≠ some id
  /-- At most three loans. -/
  count : c.loans.length ≤ 3
  /-- At most one block of the firmware. -/
  blocks : (c.loans.filter fun loan => loan.lender = .firmware).length ≤ 1
  /-- At most one loan of each region. -/
  regions : ∀ id, (c.loans.filter fun loan => loan.region? = some id).length ≤ 1

/-! ### Parts by rank -/

/-- What has the lowest of some ascending ranks is at most one entry, and comes first. -/
theorem exists_lowest {α : Type} {f : α → Nat} {l : List α} {k : Nat}
    (h : l.Pairwise fun a b => f a < f b) (hlow : ∀ a ∈ l, k ≤ f a) :
    ∃ (lowest : Option α) (rest : List α), l = lowest.toList ++ rest ∧ (∀ a ∈ lowest, f a = k) ∧
      (rest.Pairwise fun a b => f a < f b) ∧ ∀ a ∈ rest, k + 1 ≤ f a := by
  cases l with
  | nil => exact ⟨none, [], rfl, by simp, .nil, by simp⟩
  | cons a rest =>
      obtain ⟨hfirst, hrest⟩ := List.pairwise_cons.1 h
      have ha := hlow a List.mem_cons_self
      by_cases hk : f a = k
      · refine ⟨some a, rest, rfl, by simpa using hk, hrest, fun b hb => ?_⟩
        exact hk ▸ hfirst b hb
      · refine ⟨none, a :: rest, rfl, by simp, h, fun b hb => ?_⟩
        rcases List.mem_cons.1 hb with rfl | hb
        · omega
        · have := hfirst b hb
          omega

/-- Of entries that exclude each other there is one at most. -/
theorem length_filter_le_one {α : Type} {p : α → Bool} {l : List α}
    (h : l.Pairwise fun a b => p a = true → p b = false) : (l.filter p).length ≤ 1 := by
  induction l with
  | nil => exact Nat.zero_le 1
  | cons a rest ih =>
      obtain ⟨hfirst, hrest⟩ := List.pairwise_cons.1 h
      cases ha : p a with
      | false =>
          rw [List.filter_cons_of_neg (by simp [ha])]
          exact ih hrest
      | true =>
          have hnone : rest.filter p = [] :=
            List.filter_eq_nil_iff.2 fun b hb => by simp [hfirst b hb ha]
          simp [ha, hnone]

/-- **Loans whose owners have the shape of a placement** make up a chunk of that shape. -/
theorem Chunk.shaped_of_owners {c : Chunk}
    (h : Owner.Shape (c.loans.map (·.lender.owner))) : c.Shaped := by
  have hascending := List.pairwise_map.1 h.ascending
  have hdistinct : c.loans.Pairwise fun a b => ∀ id, a.region? = some id → b.region? ≠ some id := by
    simp only [Loan.region?_eq]
    exact List.pairwise_map.1 h.distinct
  obtain ⟨body, rest, hbody, hbodyRank, hrest, hrestRank⟩ :=
    exists_lowest (f := fun loan : Loan => loan.lender.owner.rank) (k := 0) hascending
      fun _ _ => Nat.zero_le _
  obtain ⟨block, rest', rfl, hblockRank, hrest', hrestRank'⟩ := exists_lowest hrest hrestRank
  obtain ⟨head, rest'', rfl, hheadRank, -, hrestRank''⟩ := exists_lowest hrest' hrestRank'
  -- There is no rank behind that of a start of a region.
  have hnil : rest'' = [] := by
    refine List.eq_nil_iff_forall_not_mem.2 fun loan hloan => ?_
    have := hrestRank'' loan hloan
    cases hl : loan.lender <;> simp [hl, Lender.owner, Owner.rank] at this
  rw [hnil, List.append_nil, ← List.append_assoc] at hbody
  refine ⟨⟨body, block, head, hbody, ?_, ?_, ?_⟩, hdistinct, ?_, ?_, fun id => ?_⟩
  · intro loan hloan
    have := hbodyRank loan hloan
    cases hl : loan.lender <;> simp [hl, Lender.owner, Owner.rank] at this ⊢
  · intro loan hloan
    have := hblockRank loan hloan
    cases hl : loan.lender <;> simp [hl, Lender.owner, Owner.rank] at this ⊢
  · intro loan hloan
    have := hheadRank loan hloan
    cases hl : loan.lender <;> simp [hl, Lender.owner, Owner.rank] at this ⊢
  · rw [hbody]
    cases body <;> cases block <;> cases head <;> simp
  · refine length_filter_le_one (hascending.imp fun {a b} hlt ha => ?_)
    have ha : a.lender = .firmware := of_decide_eq_true ha
    refine decide_eq_false fun hb => ?_
    rw [ha, hb] at hlt
    exact Nat.lt_irrefl _ hlt
  · refine length_filter_le_one (hdistinct.imp fun {a b} hne ha => ?_)
    have ha : a.region? = some id := of_decide_eq_true ha
    exact decide_eq_false (hne id ha)

namespace Task

variable {φ γ : Type} {origin : Heap} {fw : Firmware φ} {gen : Code.Generator γ}
  {gens : Code.Generator γ → Prop}
  {track : φ → List Extent → Prop} {chunks : List Chunk} {s : Running φ}

/-! ### The lenders of a placement -/

theorem borrow_owner (piece : Piece) :
    Post (borrow fw piece) (fun outcome _ => ∀ loan, outcome = .ok loan →
      loan.lender.owner = piece.owner) (fun _ => True) s := by
  obtain ⟨extent, owner⟩ := piece
  unfold borrow
  cases owner with
  | regionBody id =>
      refine (post_trivial _).bind fun outcome _ _ => ?_
      cases outcome with
      | error => exact fun loan h => by cases h
      | ok =>
          intro loan h
          cases h
          rfl
  | regionHead id =>
      refine (post_trivial _).bind fun outcome _ _ => ?_
      cases outcome with
      | error => exact fun loan h => by cases h
      | ok =>
          intro loan h
          cases h
          rfl
  | firmware =>
      dsimp only
      rw [post_bind_iff, post_call_iff]
      split
      case isTrue =>
        intro loan h
        cases h
        rfl
      case isFalse => exact fun loan h => by cases h

/-- The loans of pieces have their owners, in the opposite order. -/
theorem borrowEach_owners (pieces : List Piece) (done : List Loan) :
    Post (borrowEach fw pieces done) (fun outcome _ => ∀ loans, outcome = .ok loans →
      loans.map (·.lender.owner) =
        (pieces.map (·.owner)).reverse ++ done.map (·.lender.owner)) (fun _ => True) s := by
  induction pieces generalizing done s with
  | nil =>
      intro loans h
      cases h
      rfl
  | cons piece rest ih =>
      refine (borrow_owner piece).bind fun outcome s' houtcome => ?_
      cases outcome with
      | ok loan =>
          refine (ih (loan :: done)).mono (fun outcome _ h loans hloans => ?_) fun _ => id
          rw [h loans hloans]
          simp [houtcome loan rfl]
      | error cause =>
          refine (post_trivial _).bind fun _ _ _ => ?_
          exact fun loans h => by cases h

/-- What is found was looked for at an alignment. -/
theorem isPowerOfTwo_of_search {heap : Heap} {intervals : List Interval} {request : Request}
    {placement : Extent × List Piece} (h : heap.search intervals request = .ok (some placement)) :
    Address.isPowerOfTwo request.align = true := by
  by_contra halign
  have hfind : (Sweep.ofIntervals (intervals ++ heap.intervals)).find request =
      .error .alignment := if_neg halign
  simp only [Heap.search, Sweep.sort_add, hfind] at h
  cases h

/-- **The loans of one attempt** have the shape of a placement. -/
theorem attempt_shape (hv : origin.Valid) (hfw : fw.Tracks track) {request : Request}
    (h : Kept origin track chunks [] s) :
    Post (attempt fw request) (fun outcome _ => ∀ source, outcome = .borrowed source →
      Owner.Shape (source.loans.map (·.lender.owner))) (fun _ => True) s := by
  unfold attempt
  rw [post_bind_iff, post_note_iff]
  refine (collect_spec hfw (h.note _)).bind fun intervals s₁ ⟨hkept, _, hintervals⟩ => ?_
  subst hintervals
  rw [post_bind_iff]
  refine search_found.mono ?_ fun _ _ => trivial
  rintro found s' ⟨rfl, hfound⟩
  split
  case h_1 => exact fun source hsource => by cases hsource
  case h_2 extent pieces =>
    have hvalid := hkept.owes.heap.valid hv
    obtain ⟨found, hsearch, -, hcomposed⟩ := Heap.search_complete hvalid kind_of_mem_intervals
      (isPowerOfTwo_of_search hfound)
    cases hsearch.symm.trans hfound
    have hshape := (hcomposed extent pieces rfl).shape hvalid
      (Heap.shows _ kind_of_mem_intervals)
    refine (borrowEach_owners pieces.reverse []).bind fun outcome s₂ hloans => ?_
    split
    case h_1 loans =>
      rw [post_bind_iff, post_note_iff]
      intro source hsource
      cases hsource
      rw [hloans loans rfl]
      simpa using hshape
    case h_2 => exact fun source hsource => by cases hsource
    case h_3 => trivial

/-- **Chunks are tiled by their loans and have a shape.**  In every state that a task reaches,
source and target of a chunk have one length and a byte, and the loans of the chunk tile its source:
the end of a body, a block of the firmware and the start of a region, each of them once at most, and
no region twice. -/
theorem chunks_shaped {firmware : φ} (horigin : origin.Reachable)
    (h : Reach fw gens origin firmware s) : ∀ c ∈ s.task.chunks,
      c.source.length = c.target.length ∧ 0 < c.source.length ∧
        Extent.Tile c.source.start c.source.stop (c.loans.map (·.extent)) ∧ c.Shaped := by
  have hv := horigin.valid
  intro c hc
  obtain ⟨hlength, hlt, htile⟩ := (h.staged hv fw.tracks_nothing trivial).arranged.whole c hc
  obtain ⟨chunks, request, s₁, s₂, hkept, hattempt⟩ := h.obtained hv c hc
  refine ⟨hlength.symm, Nat.sub_pos_of_lt hlt, htile, Chunk.shaped_of_owners ?_⟩
  exact (attempt_shape hv fw.tracks_nothing hkept).of_ok hattempt _ rfl

/-- A chunk in place has all three kinds of loans. -/
theorem chunks_shaped_bridge : ∃ (s : Running Firmware.Table) (c : Chunk),
    run? Firmware.ofTable smallGenerator [.stageWithin 0x2f00 0x4100 0x1200 0x100 .low]
        { task := Task.start smallHeap smallGenerator, firmware := bridgingFirmware } = some s ∧
      c ∈ s.task.chunks ∧ c.loans.map (·.lender.owner.rank) = [0, 1, 2] ∧
      c.source.length = c.target.length ∧ 0 < c.source.length ∧
      Extent.Tile c.source.start c.source.stop (c.loans.map (·.extent)) ∧ c.Shaped := by
  have hranks : (run? Firmware.ofTable smallGenerator
      [.stageWithin 0x2f00 0x4100 0x1200 0x100 .low]
      { task := Task.start smallHeap smallGenerator, firmware := bridgingFirmware }).map
        (fun s => s.task.chunks.map fun c => c.loans.map (·.lender.owner.rank)) =
      some [[0, 1, 2]] := by
    decide +kernel
  obtain ⟨s, hrun, hrank⟩ := Option.map_eq_some_iff.1 hranks
  obtain ⟨c, hc, hparts⟩ : ∃ c ∈ s.task.chunks, c.loans.map (·.lender.owner.rank) = [0, 1, 2] :=
    List.mem_map.1 (hrank ▸ List.mem_cons_self)
  exact ⟨s, c, hrun, hc, hparts, chunks_shaped smallHeap_reachable (reach_of_run? hrun) c hc⟩

end Task

end Staging

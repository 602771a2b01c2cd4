import Staging.Proofs.Heap.Lent
import Staging.Proofs.Task.Action
import Staging.Task.Borrowing

/-!
# Borrowing and giving back

The loans of a task are a stack, newest first: its heap lent them one after the other, and its
blocks are those among them that the firmware granted (`Owes`).  Borrowing a piece that is ready
puts a loan on the stack (`borrow_spec`).  Giving back the newest loan always succeeds and takes it
off again (`giveBack_spec`), so a placement of which a piece is refused leaves the stack as it was
(`borrowAll_spec`).
-/

namespace Staging

variable {φ : Type}

/-- What the state of a firmware has to do with the blocks that it lent, whichever calls it gets. -/
structure Firmware.Tracks (fw : Firmware φ) (track : φ → List Extent → Prop) : Prop where
  available : ∀ {s blocks}, track s blocks → track (fw.available s).state blocks
  granted : ∀ {s blocks e}, track s blocks → (fw.reserve e s).value = true →
    track (fw.reserve e s).state (blocks ++ [e])
  refused : ∀ {s blocks e}, track s blocks → (fw.reserve e s).value = false →
    track (fw.reserve e s).state blocks
  released : ∀ {s blocks e}, track s blocks → e ∈ blocks →
    track (fw.release e s).state (blocks.erase e)

/-- Nothing need be known of a firmware. -/
theorem Firmware.tracks_nothing (fw : Firmware φ) : fw.Tracks fun _ _ => True :=
  ⟨fun _ => trivial, fun _ _ => trivial, fun _ _ => trivial, fun _ _ => trivial⟩

/-- Release blocks in their order: the state of the firmware after that, and its notices. -/
def Firmware.releaseAll (fw : Firmware φ) : List Extent → φ → φ × List Notice
  | [], s => (s, [])
  | block :: rest, s =>
      let reply := fw.release block s
      let (last, notices) := fw.releaseAll rest reply.state
      (last, reply.notices ++ notices)

theorem Firmware.releaseAll_append (fw : Firmware φ) (a b : List Extent) (s : φ) :
    fw.releaseAll (a ++ b) s =
      ((fw.releaseAll b (fw.releaseAll a s).1).1,
        (fw.releaseAll a s).2 ++ (fw.releaseAll b (fw.releaseAll a s).1).2) := by
  induction a generalizing s with
  | nil => simp [releaseAll]
  | cons block rest ih => simp [releaseAll, ih]

namespace Task

/-- What a running task owes: its loans, newest first. -/
structure Owes (origin : Heap) (track : φ → List Extent → Prop) (loans : List Loan)
    (s : Running φ) : Prop where
  heap : origin.Lent loans s.task.heap
  blocks : s.task.blocks = (loans.filterMap (·.block?)).reverse
  tracked : track s.firmware s.task.blocks

/-- What makes a piece safe to borrow.  A header may have passed the piece since the placement was
searched; it is not lent again then. -/
def Ready (origin : Heap) (loans : List Loan) (heap : Heap) (piece : Piece) : Prop :=
  match piece.owner with
  | .regionHead id => ∀ r ∈ heap.regions, r.id = id →
      r.base ≤ piece.extent.start ∨ piece.extent.stop ≤ r.base
  | .regionBody _ => True
  | .firmware => (∀ r ∈ origin.regions, r.extent.Apart piece.extent) ∧
      ∀ other ∈ loans.filterMap (·.block?), other.Apart piece.extent

variable {origin : Heap} {fw : Firmware φ} {track : φ → List Extent → Prop} {loans : List Loan}
  {s : Running φ}

/-! ### Giving back -/

/-- The state after loans were given back. -/
def settle (fw : Firmware φ) (returned : List Loan) (heap : Heap) (blocks : List Extent)
    (s : Running φ) : Running φ where
  task := { s.task with heap, blocks }
  firmware := (fw.releaseAll (returned.filterMap (·.block?)) s.firmware).1
  notices := s.notices.appendList (fw.releaseAll (returned.filterMap (·.block?)) s.firmware).2

/-- A loan of the heap leaves the firmware alone. -/
theorem settle_of_region {loan : Loan} (h : loan.block? = none) (heap : Heap) :
    settle fw [loan] heap s.task.blocks s = { s with task := { s.task with heap } } := by
  simp [settle, h, Firmware.releaseAll]

/-- A grant of the heap can be taken back, since giving back undoes what granting did. -/
theorem giveBack_of_lends {loan : Loan} {heap : Heap} (hv : heap.Valid)
    (h : heap.Lends loan s.task.heap) :
    giveBack fw loan s = .ok (.ok ()) { s with task := { s.task with heap } } := by
  cases h with
  | @body id piece _ _ hout =>
      exact @onHeap_of_ok _ _ _ (·.takeBack id piece) _ _ (hv.takeBack_handOut hout)
  | @head id piece move _ hadv _ _ =>
      exact @onHeap_of_ok _ _ _ (·.retreat id move piece) _ _ (hv.retreat_advance hadv)

/-- **The newest loan can be given back**, and nothing else happens. -/
theorem giveBack_spec (hv : origin.Valid) (hfw : fw.Tracks track) {loan : Loan}
    (h : Owes origin track (loan :: loans) s) :
    ∃ heap, giveBack fw loan s =
        .ok (.ok ()) (settle fw [loan] heap (loans.filterMap (·.block?)).reverse s) ∧
      Owes origin track loans (settle fw [loan] heap (loans.filterMap (·.block?)).reverse s) := by
  obtain ⟨hheap, hblocks, htracked⟩ := h
  cases hheap with
  | @region _ _ heap _ hlent hgrant =>
      have hblock := hgrant.block?_eq_none
      rw [List.filterMap_cons_none hblock] at hblocks
      refine ⟨heap, ?_⟩
      rw [← hblocks, settle_of_region hblock]
      exact ⟨giveBack_of_lends (hlent.valid hv) hgrant, hlent, hblocks, htracked⟩
  | @firmware _ block _ hlent hne hregions hother =>
      refine ⟨s.task.heap, ?_⟩
      have hlast : s.task.blocks = (loans.filterMap (·.block?)).reverse ++ [block] := by
        simpa [Loan.block?] using hblocks
      -- No earlier block is the same one, so the erasure hits the last.
      have hnew : block ∉ (loans.filterMap (·.block?)).reverse := fun hmem =>
        Extent.not_apart_self hne (hother block (List.mem_reverse.1 hmem))
      have herase : s.task.blocks.erase block = (loans.filterMap (·.block?)).reverse := by
        rw [hlast, List.erase_append_right _ hnew]
        simp
      have htracked' := hfw.released htracked (e := block) (by simp [hlast])
      rw [← herase]
      refine ⟨?_, hlent, herase, ?_⟩
      · simp [settle, Loan.block?, Firmware.releaseAll]
        rfl
      · simpa [settle, Loan.block?, Firmware.releaseAll] using htracked'

theorem settle_nil : settle fw [] s.task.heap s.task.blocks s = s := by
  simp [settle, Firmware.releaseAll]

theorem settle_settle {a b : List Loan} {heap heap' : Heap} {blocks blocks' : List Extent} :
    settle fw b heap' blocks' (settle fw a heap blocks s) = settle fw (a ++ b) heap' blocks' s := by
  simp only [settle, List.filterMap_append, Firmware.releaseAll_append, Running.mk.injEq, true_and]
  exact Array.toList_inj.1 (by simp)

/-- **The newest loans can be given back** one after the other, and nothing else happens. -/
theorem giveBackAll_spec (hv : origin.Valid) (hfw : fw.Tracks track) {returned : List Loan}
    (h : Owes origin track (returned ++ loans) s) (failed : Extent → Heap.Error → Notice) :
    ∃ heap, giveBackAll fw failed returned s =
        .ok () (settle fw returned heap (loans.filterMap (·.block?)).reverse s) ∧
      returned.mapM (giveBack fw) s = .ok (returned.map fun _ => .ok ())
        (settle fw returned heap (loans.filterMap (·.block?)).reverse s) ∧
      Owes origin track loans
        (settle fw returned heap (loans.filterMap (·.block?)).reverse s) := by
  induction returned generalizing s with
  | nil =>
      have hblocks : s.task.blocks = (loans.filterMap (·.block?)).reverse := h.blocks
      refine ⟨s.task.heap, ?_⟩
      rw [← hblocks, settle_nil]
      exact ⟨rfl, rfl, h⟩
  | cons loan rest ih =>
      obtain ⟨heap, hback, howes⟩ := giveBack_spec hv hfw h
      obtain ⟨heap', hall, hmap, howes'⟩ := ih howes
      refine ⟨heap', ?_⟩
      rw [settle_settle] at hall hmap howes'
      refine ⟨?_, ?_, howes'⟩
      · have hstep : giveBackAll fw failed (loan :: rest) s = giveBackAll fw failed rest
            (settle fw [loan] heap ((rest ++ loans).filterMap (·.block?)).reverse s) := by
          refine @bind_of_ok _ _ _ _ _ () _ ?_ _
          exact (bind_of_ok hback _).trans rfl
        exact hstep.trans hall
      · rw [List.mapM_cons, bind_of_ok hback, bind_of_ok hmap]
        rfl

/-! ### Borrowing -/

/-- A piece below a loan of the heap stays ready. -/
theorem ready_of_lends {loan : Loan} {heap heap' : Heap} {piece : Piece} (hv : heap.Valid)
    (h : Ready origin loans heap piece) (hgrant : heap.Lends loan heap')
    (hbelow : piece.extent.stop ≤ loan.extent.start) :
    Ready origin (loan :: loans) heap' piece := by
  obtain ⟨extent, owner⟩ := piece
  cases owner with
  | regionHead id =>
      intro r' hr' hid
      obtain ⟨r, hr, hsame, hbase | hbase⟩ := hgrant.base hv hr'
      · rw [hbase]
        exact h r hr (hsame.trans hid)
      · rw [hbase]
        exact .inr (Nat.le_trans hbelow loan.extent.start_le_stop)
  | regionBody id => trivial
  | firmware =>
      refine ⟨h.1, ?_⟩
      rw [List.filterMap_cons_none hgrant.block?_eq_none]
      exact h.2

/-- A piece below a block of the firmware stays ready. -/
theorem ready_of_block {block : Extent} {heap : Heap} {piece : Piece}
    (h : Ready origin loans heap piece) (hbelow : piece.extent.stop ≤ block.start) :
    Ready origin (⟨.firmware, block⟩ :: loans) heap piece := by
  obtain ⟨extent, owner⟩ := piece
  cases owner with
  | regionHead id => exact h
  | regionBody id => trivial
  | firmware =>
      refine ⟨h.1, fun other hother => ?_⟩
      rcases List.mem_cons.1 hother with rfl | hother
      · exact .inr hbelow
      · exact h.2 other hother

/-- What borrowing a piece leaves behind: a loan of it on the stack, and pieces below it as ready
as they were. -/
structure Borrowed (origin : Heap) (track : φ → List Extent → Prop) (loans : List Loan)
    (heap : Heap) (piece : Piece) (loan : Loan) (s : Running φ) : Prop where
  owes : Owes origin track (loan :: loans) s
  extent : loan.extent = piece.extent
  ready : ∀ other : Piece, other.extent.stop ≤ piece.extent.start → Ready origin loans heap other →
    Ready origin (loan :: loans) s.task.heap other

theorem Owes.lends {loan : Loan} {heap : Heap} (h : Owes origin track loans s)
    (hgrant : s.task.heap.Lends loan heap) :
    Owes origin track (loan :: loans) { s with task := { s.task with heap } } where
  heap := .region h.heap hgrant
  blocks := by
    rw [List.filterMap_cons_none hgrant.block?_eq_none]
    exact h.blocks
  tracked := h.tracked

/-- **Borrowing a piece that is ready** puts a loan of it on the stack, or changes nothing. -/
theorem borrow_spec (hv : origin.Valid) (hfw : fw.Tracks track) {piece : Piece}
    {R : Running φ → Prop} (h : Owes origin track loans s)
    (hne : piece.extent.start < piece.extent.stop)
    (hready : Ready origin loans s.task.heap piece) :
    Post (borrow fw piece) (fun outcome s' => s'.task.chunks = s.task.chunks ∧
      match outcome with
      | .ok loan => Borrowed origin track loans s.task.heap piece loan s'
      | .error _ => Owes origin track loans s') R s := by
  obtain ⟨extent, owner⟩ := piece
  have hvalid := h.heap.valid hv
  unfold borrow
  cases owner with
  | regionBody id =>
      dsimp only
      rw [post_bind_iff]
      refine post_onHeap (hvalid.handOut_clean id extent) (fun s' heap hout => ?_)
        fun _ _ => ⟨rfl, h⟩
      have hgrant : s.task.heap.Lends ⟨.regionBody id, extent⟩ heap := .body hout
      exact ⟨rfl, h.lends hgrant, rfl,
        fun other hbelow hother => ready_of_lends hvalid hother hgrant hbelow⟩
  | regionHead id =>
      dsimp only
      rw [post_bind_iff]
      refine post_onHeap (hvalid.advance_clean id extent) (fun move heap hadv => ?_)
        fun _ _ => ⟨rfl, h⟩
      -- The header moves up to the end of the piece, so that begins at or above the base.
      obtain ⟨r, _, hfind, hradv, -⟩ := Heap.advance_eq_ok hadv
      obtain ⟨hr, hid⟩ := Heap.region?_eq_some hfind
      obtain ⟨rfl, -, -, -, -, hlt, -⟩ := Region.advance_spec (hvalid.regions r hr) hradv
      have hlo : r.base ≤ extent.start := (hready r hr hid).resolve_right (Nat.not_le.2 hlt)
      have hgrant := Heap.Lends.head hadv hlo hne
      exact ⟨rfl, h.lends hgrant, rfl,
        fun other hbelow hother => ready_of_lends hvalid hother hgrant hbelow⟩
  | firmware =>
      dsimp only
      rw [post_bind_iff, post_call_iff]
      split
      case isTrue hgranted =>
        refine ⟨rfl, ⟨.firmware h.heap hne hready.1 hready.2, ?_, hfw.granted h.tracked hgranted⟩,
          rfl, fun other hbelow hother => ready_of_block hother hbelow⟩
        simp [h.blocks, Loan.block?]
      case isFalse hrefused =>
        exact ⟨rfl, h.heap, h.blocks, hfw.refused h.tracked (Bool.eq_false_iff.2 hrefused)⟩

theorem Owes.note (h : Owes origin track loans s) (n : Notice) :
    Owes origin track loans { s with notices := s.notices.push n } :=
  ⟨h.heap, h.blocks, h.tracked⟩

/-- Pieces that are ready, from the highest down, are borrowed all or none. -/
theorem borrowEach_spec (hv : origin.Valid) (hfw : fw.Tracks track) {pieces : List Piece}
    {done : List Loan} {R : Running φ → Prop} (h : Owes origin track (done ++ loans) s)
    (hdescending : pieces.Pairwise fun p q => q.extent.stop ≤ p.extent.start)
    (hne : ∀ p ∈ pieces, p.extent.start < p.extent.stop)
    (hready : ∀ p ∈ pieces, Ready origin (done ++ loans) s.task.heap p) :
    Post (borrowEach fw pieces done) (fun outcome s' => s'.task.chunks = s.task.chunks ∧
      match outcome with
      | .ok borrowed => Owes origin track (borrowed ++ loans) s' ∧
          borrowed.map (·.extent) = (pieces.map (·.extent)).reverse ++ done.map (·.extent)
      | .error _ => Owes origin track loans s') R s := by
  induction pieces generalizing done s with
  | nil => exact ⟨rfl, h, rfl⟩
  | cons piece rest ih =>
      obtain ⟨hbelow, hdescending⟩ := List.pairwise_cons.1 hdescending
      have hborrow := @borrow_spec φ origin fw track _ s hv hfw piece R h
        (hne piece List.mem_cons_self) (hready piece List.mem_cons_self)
      unfold borrowEach
      refine hborrow.bind fun outcome s' hs' => ?_
      obtain ⟨hchunks, houtcome⟩ := hs'
      cases outcome with
      | ok loan =>
          dsimp only at houtcome ⊢
          rw [post_bind_iff, post_note_iff]
          have hrest := @ih { s' with notices := s'.notices.push (.committed loan) } (loan :: done)
            (houtcome.owes.note _) hdescending (fun p hp => hne p (List.mem_cons_of_mem _ hp))
            (fun p hp => houtcome.ready p (hbelow p hp) (hready p (List.mem_cons_of_mem _ hp)))
          refine hrest.mono (fun outcome s'' hs'' => ⟨hs''.1.trans hchunks, ?_⟩) fun _ => id
          cases outcome with
          | ok borrowed =>
              refine ⟨hs''.2.1, ?_⟩
              rw [hs''.2.2]
              simp [houtcome.extent]
          | error cause => exact hs''.2
      | error cause =>
          -- The loans so far are the newest of all, so they can be given back.
          obtain ⟨heap, hback, -, howes⟩ := giveBackAll_spec hv hfw houtcome .rollbackFailed
          dsimp only
          rw [post_bind_iff]
          exact post_of_eq_ok hback ⟨hchunks, howes⟩

/-- **The pieces of a placement are borrowed all or none.** -/
theorem borrowAll_spec (hv : origin.Valid) (hfw : fw.Tracks track) {pieces : List Piece}
    {lo hi : Nat} {R : Running φ → Prop} (h : Owes origin track loans s)
    (htile : Extent.Tile lo hi (pieces.map (·.extent)))
    (hready : ∀ p ∈ pieces, Ready origin loans s.task.heap p) :
    Post (borrowAll fw pieces) (fun outcome s' => s'.task.chunks = s.task.chunks ∧
      match outcome with
      | .ok borrowed => Owes origin track (borrowed ++ loans) s' ∧
          Extent.Tile lo hi (borrowed.map (·.extent))
      | .error _ => Owes origin track loans s') R s := by
  have hdescending : pieces.reverse.Pairwise fun p q => q.extent.stop ≤ p.extent.start :=
    List.pairwise_reverse.2 (List.pairwise_map.1 htile.pairwise)
  have hspec := @borrowEach_spec φ origin fw track loans s hv hfw pieces.reverse [] R h
    hdescending
    (fun p hp => (htile.bounds.2 _ (List.mem_map_of_mem (List.mem_reverse.1 hp))).2.1)
    (fun p hp => hready p (List.mem_reverse.1 hp))
  refine hspec.mono (fun outcome s' hs' => ⟨hs'.1, ?_⟩) fun _ => id
  cases outcome with
  | ok borrowed =>
      refine ⟨hs'.2.1, ?_⟩
      rw [hs'.2.2]
      simpa using htile
  | error cause => exact hs'.2

end Task

end Staging

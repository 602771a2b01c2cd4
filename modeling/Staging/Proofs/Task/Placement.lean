import Staging.Proofs.Sweep.Determined
import Staging.Proofs.Sweep.Shape
import Staging.Proofs.Sweep.Slots
import Staging.Proofs.Task.Source

/-!
# Placements can be borrowed

A search comes to an end, and what it finds is divided into pieces that the heap can lend
(`Heap.search_complete`).  It finds the same in other intervals with the same bytes
(`Heap.search_congr`).  No region lends two of them, so each piece can still be lent when those
above it have been, and only the firmware refuses one (`borrowEach_refused`).  What was borrowed
before a refusal can be given back, so borrowing what was found never traps (`borrowAll_of_search`).
-/

namespace Staging

/-- **A search comes to an end** with the answer to the request, and the pieces of what it finds are
backed by their owners. -/
theorem Heap.search_complete {heap : Heap} (hv : heap.Valid) {intervals : List Interval}
    (hkinds : ∀ i ∈ intervals, i.kind ≠ .regionHead ∧ i.kind ≠ .regionBody) {request : Request}
    (halign : Address.isPowerOfTwo request.align = true) :
    ∃ found, heap.search intervals request = .ok found ∧
      request.Answered (intervals ++ heap.intervals) (found.map (·.1)) ∧
      ∀ extent pieces, found = some (extent, pieces) →
        Composed heap (intervals ++ heap.intervals) extent.start extent.stop pieces := by
  obtain ⟨hperm, hsorted⟩ := Sweep.events_ofIntervals (intervals ++ heap.intervals)
  obtain ⟨found, hfind, hanswered⟩ := Request.find_answered halign hperm hsorted
  rw [Heap.search, Sweep.sort_add]
  dsimp only
  rw [Sweep.find, hfind]
  cases found with
  | none => exact ⟨none, rfl, hanswered, fun extent pieces h => by cases h⟩
  | some extent =>
      obtain ⟨-, -, -, hstop, hsize, husable⟩ := Sweep.find_spec hfind
      obtain ⟨pieces, hdivide, hcomposed⟩ :=
        Division.ofEvents_complete hv (heap.shows hkinds) hperm hsorted (by omega) husable
      refine ⟨some (extent, pieces), ?_, hanswered, fun extent' pieces' h => ?_⟩
      · simp only [Sweep.divide, hdivide]
      · cases h
        exact hcomposed

/-- **What a search finds** depends on the kinds of intervals that contain each byte, and not on the
intervals themselves. -/
theorem Heap.search_congr {heap : Heap} (hv : heap.Valid) {intervals intervals' : List Interval}
    (hkinds : ∀ i ∈ intervals, i.kind ≠ .regionHead ∧ i.kind ≠ .regionBody)
    (hkinds' : ∀ i ∈ intervals', i.kind ≠ .regionHead ∧ i.kind ≠ .regionBody)
    (hover : ∀ kind x, Over intervals kind x ↔ Over intervals' kind x) (request : Request) :
    heap.search intervals request = heap.search intervals' request := by
  have hover' (x : Nat) (kind : IntervalKind) : Over (intervals ++ heap.intervals) kind x ↔
      Over (intervals' ++ heap.intervals) kind x := by
    rw [over_append, over_append, hover]
  cases halign : Address.isPowerOfTwo request.align with
  | false =>
      simp only [Heap.search, Sweep.sort_add, Sweep.find, Request.find, halign,
        Bool.false_eq_true, if_false]
  | true =>
      obtain ⟨found, hsearch, hanswered, hcomposed⟩ := Heap.search_complete hv hkinds halign
      obtain ⟨found', hsearch', hanswered', hcomposed'⟩ := Heap.search_complete hv hkinds' halign
      have hsame := (hanswered.congr fun x => usable_congr (hover' x)).unique hanswered'
      rw [hsearch, hsearch']
      cases found with
      | none =>
          cases found' with
          | none => rfl
          | some placement' => cases hsame
      | some placement =>
          obtain ⟨extent, pieces⟩ := placement
          cases found' with
          | none => cases hsame
          | some placement' =>
              obtain ⟨extent', pieces'⟩ := placement'
              obtain rfl : extent = extent' := Option.some.inj hsame
              have hpieces := (hcomposed extent pieces rfl).congr fun x => lendable_congr (hover' x)
              rw [hpieces.unique hv (heap.shows hkinds') (hcomposed' extent pieces' rfl)]

namespace Task

variable {φ : Type} {origin : Heap} {fw : Firmware φ} {track : φ → List Extent → Prop}
  {loans : List Loan} {s : Running φ} {E : Error → Prop}

theorem borrow_ends (hv : s.task.heap.Valid) (piece : Piece) : Ends (borrow fw piece) E s := by
  unfold borrow
  split
  case h_1 id _ =>
    obtain ⟨outcome, s', h⟩ :=
      @exists_onHeap _ _ s (·.handOut id piece.extent) (hv.handOut_clean id piece.extent)
    rw [ends_bind_of_ok h]
    cases outcome <;> trivial
  case h_2 id _ =>
    obtain ⟨outcome, s', h⟩ :=
      @exists_onHeap _ _ s (·.advance id piece.extent) (hv.advance_clean id piece.extent)
    rw [ends_bind_of_ok h]
    cases outcome <;> trivial
  case h_3 =>
    refine (ends_bind_of_ok rfl).2 ?_
    split <;> trivial

/-- The firmware refuses one of the pieces, which it owns, in this state. -/
def RefusesOneOf (fw : Firmware φ) (pieces : List Piece) (state : φ) (cause : Error) : Prop :=
  ∃ piece ∈ pieces, piece.owner = .firmware ∧ (fw.reserve piece.extent state).value = false ∧
    cause = .reservationRefused piece.extent

/-- A piece that the heap can lend is borrowed, unless the firmware owns and refuses it.  All
regions but its own stay as they are, and so does the firmware if it is another's. -/
theorem borrow_refused {piece : Piece} {R : Running φ → Prop} (hv : s.task.heap.Valid)
    (h : s.task.heap.Grants piece) :
    Post (borrow fw piece) (fun outcome s' =>
      match outcome with
      | .ok _ => s'.task.heap.Valid ∧ (∀ id, piece.owner.region? ≠ some id →
          s'.task.heap.region? id = s.task.heap.region? id) ∧
          (piece.owner ≠ .firmware → s'.firmware = s.firmware)
      | .error cause => RefusesOneOf fw [piece] s.firmware cause) R s := by
  obtain ⟨extent, owner⟩ := piece
  unfold borrow
  cases owner with
  | regionBody id =>
      obtain ⟨t, heap, hout⟩ := h
      dsimp only
      rw [post_bind_iff]
      refine post_of_eq_ok (@onHeap_of_ok _ _ _ (·.handOut id extent) _ _ hout) ?_
      refine ⟨hv.handOut hout, fun other hother => ?_, fun _ => rfl⟩
      obtain ⟨r, r', index, hfind, hrout, rfl⟩ := Heap.handOut_eq_ok hout
      obtain ⟨hr, rfl⟩ := Heap.region?_eq_some hfind
      obtain ⟨-, hid, -⟩ := Region.handOut_spec (hv.regions r hr) hrout
      exact Heap.region?_setRegion_of_ne fun hsame => hother (by rw [hsame, hid]; rfl)
  | regionHead id =>
      obtain ⟨m, heap, hadv⟩ := h
      dsimp only
      rw [post_bind_iff]
      refine post_of_eq_ok (@onHeap_of_ok _ _ _ (·.advance id extent) _ _ hadv) ?_
      refine ⟨hv.advance hadv, fun other hother => ?_, fun _ => rfl⟩
      obtain ⟨r, r', hfind, hradv, rfl⟩ := Heap.advance_eq_ok hadv
      obtain ⟨hr, rfl⟩ := Heap.region?_eq_some hfind
      obtain ⟨-, -, hid, -⟩ := Region.advance_spec (hv.regions r hr) hradv
      exact Heap.region?_setRegion_of_ne fun hsame => hother (by rw [hsame, hid]; rfl)
  | firmware =>
      dsimp only
      rw [post_bind_iff, post_call_iff]
      split
      case isTrue => exact ⟨hv, fun _ _ => rfl, fun hother => absurd rfl hother⟩
      case isFalse hrefused =>
        exact ⟨_, List.mem_singleton.2 rfl, rfl, Bool.not_eq_true _ ▸ hrefused, rfl⟩

/-- **Only the firmware refuses a piece** of those that the heap can lend, if no region is to lend
two of them.  If the firmware is to lend one at most, nothing asks it before that. -/
theorem borrowEach_refused {pieces : List Piece} {done : List Loan} (hv : s.task.heap.Valid)
    (hdistinct : pieces.Pairwise fun p q => ∀ id, q.owner.region? = some id →
      p.owner.region? ≠ some id)
    (honce : pieces.Pairwise fun p q => p.owner = .firmware → q.owner ≠ .firmware)
    (hgrants : ∀ p ∈ pieces, s.task.heap.Grants p) :
    Post (borrowEach fw pieces done) (fun outcome _ =>
      ∀ cause, outcome = .error cause → RefusesOneOf fw pieces s.firmware cause)
      (fun _ => True) s := by
  induction pieces generalizing s done with
  | nil => exact fun cause h => by cases h
  | cons piece rest ih =>
      obtain ⟨hfirst, hdistinct⟩ := List.pairwise_cons.1 hdistinct
      obtain ⟨hothers, honce⟩ := List.pairwise_cons.1 honce
      refine (borrow_refused hv (hgrants piece List.mem_cons_self)).bind
        fun outcome s' houtcome => ?_
      cases outcome with
      | ok loan =>
          obtain ⟨hv', hregions, hfirmware⟩ := houtcome
          dsimp only
          rw [post_bind_iff, post_note_iff]
          have hrest := @ih { s' with notices := s'.notices.push (.committed loan) } (loan :: done)
            hv' hdistinct honce fun p hp =>
              (hgrants p (List.mem_cons_of_mem _ hp)).of_region? fun id hid =>
                hregions id (hfirst p hp id hid)
          refine hrest.mono (fun outcome _ h cause hcause => ?_) fun _ => id
          obtain ⟨p, hp, howner, hrefused, hsame⟩ := h cause hcause
          have hother : piece.owner ≠ .firmware := fun hfw => hothers p hp hfw howner
          exact ⟨p, List.mem_cons_of_mem _ hp, howner, hfirmware hother ▸ hrefused, hsame⟩
      | error cause =>
          refine (post_trivial _).bind fun _ s'' _ => ?_
          intro cause' h
          cases h
          obtain ⟨p, hp, hrefused⟩ := houtcome
          exact ⟨p, List.mem_singleton.1 hp ▸ List.mem_cons_self, hrefused⟩

/-- Borrowing pieces ends with a value, since what was borrowed can be given back. -/
theorem borrowEach_ends (hv : origin.Valid) (hfw : fw.Tracks track) {pieces : List Piece}
    {done : List Loan} (h : Owes origin track (done ++ loans) s)
    (hdescending : pieces.Pairwise fun p q => q.extent.stop ≤ p.extent.start)
    (hne : ∀ p ∈ pieces, p.extent.start < p.extent.stop)
    (hready : ∀ p ∈ pieces, Ready origin (done ++ loans) s.task.heap p) :
    Ends (borrowEach fw pieces done) E s := by
  induction pieces generalizing s done with
  | nil => trivial
  | cons piece rest ih =>
      obtain ⟨hbelow, hdescending⟩ := List.pairwise_cons.1 hdescending
      have hborrow := @borrow_spec φ origin fw track _ s hv hfw piece (fun _ => True) h
        (hne piece List.mem_cons_self) (hready piece List.mem_cons_self)
      refine (borrow_ends (h.heap.valid hv) piece).bind hborrow fun outcome s' ⟨_, houtcome⟩ => ?_
      cases outcome with
      | ok loan =>
          refine (ends_bind_of_ok rfl).2 (ih (houtcome.owes.note _) hdescending ?_ ?_)
          · exact fun p hp => hne p (List.mem_cons_of_mem _ hp)
          · exact fun p hp => houtcome.ready p (hbelow p hp) (hready p (List.mem_cons_of_mem _ hp))
      | error cause =>
          obtain ⟨heap, hback, -⟩ := giveBackAll_spec hv hfw houtcome .rollbackFailed
          exact (ends_bind_of_ok hback).2 trivial

/-- **The pieces of a placement** are borrowed unless the firmware refuses one. -/
theorem borrowAll_eq_ok (hv : origin.Valid) (hfw : fw.Tracks track) {intervals : List Interval}
    {pieces : List Piece} {lo hi : Nat} (h : Owes origin track loans s)
    (hshows : Shows intervals s.task.heap.regions)
    (hcomposed : Composed s.task.heap intervals lo hi pieces)
    (hready : ∀ p ∈ pieces, Ready origin loans s.task.heap p) :
    ∃ outcome s', borrowAll fw pieces s = .ok outcome s' ∧
      ∀ cause, outcome = .error cause → RefusesOneOf fw pieces s.firmware cause := by
  have hvalid := h.heap.valid hv
  have hdescending : pieces.reverse.Pairwise fun p q => q.extent.stop ≤ p.extent.start :=
    List.pairwise_reverse.2 (List.pairwise_map.1 hcomposed.tile.pairwise)
  have hends : Ends (borrowAll fw pieces) (fun _ => False) s := by
    refine @borrowEach_ends φ origin fw track loans s _ hv hfw pieces.reverse [] h hdescending ?_ ?_
    · intro p hp
      exact (hcomposed.tile.bounds.2 _ (List.mem_map_of_mem (List.mem_reverse.1 hp))).2.1
    · exact fun p hp => hready p (List.mem_reverse.1 hp)
  -- Ranks ascend, so no two pieces are the firmware's.
  have honce : pieces.Pairwise fun p q => q.owner = .firmware → p.owner ≠ .firmware :=
    (List.pairwise_map.1 (hcomposed.shape hvalid hshows).ascending).imp fun hlt hq hp => by
      rw [hp, hq] at hlt
      exact Nat.lt_irrefl _ hlt
  have hrefused := @borrowEach_refused φ fw s pieces.reverse [] hvalid
    (List.pairwise_reverse.2 (hcomposed.distinct hvalid hshows)) (List.pairwise_reverse.2 honce)
    fun p hp => hcomposed.grants hvalid p (List.mem_reverse.1 hp)
  obtain ⟨outcome, s', hborrowed⟩ := hends.exists_eq_ok
  refine ⟨outcome, s', hborrowed, fun cause hcause => ?_⟩
  obtain ⟨p, hp, hfirmware⟩ := hrefused.of_ok hborrowed cause hcause
  exact ⟨p, List.mem_reverse.1 hp, hfirmware⟩

/-- **What a search finds can be borrowed.**  The heap can lend each of the pieces, and when they
are borrowed it is the firmware alone that may refuse one. -/
theorem borrowAll_of_search (hv : origin.Valid) (hfw : fw.Tracks track) {listing : List Extent}
    {request : Request} {extent : Extent} {pieces : List Piece}
    (h : Owes origin track (owed s.task.chunks) s)
    (halign : Address.isPowerOfTwo request.align = true)
    (hfound : s.task.heap.search (s.task.intervals listing) request = .ok (some (extent, pieces))) :
    (∀ p ∈ pieces, s.task.heap.Grants p) ∧
      ∃ outcome s', borrowAll fw pieces s = .ok outcome s' ∧
        ∀ cause, outcome = .error cause → RefusesOneOf fw pieces s.firmware cause := by
  have hvalid := h.heap.valid hv
  have hkinds := @kind_of_mem_intervals s.task listing
  obtain ⟨found, hsearch, -, hcomposed⟩ := Heap.search_complete hvalid hkinds halign
  have hcomposed := hcomposed extent pieces (Except.ok.inj (hsearch.symm.trans hfound))
  have hready := (placed_of_search hfound).ready hv h.heap
  exact ⟨hcomposed.grants hvalid,
    borrowAll_eq_ok hv hfw h (s.task.heap.shows hkinds) hcomposed hready⟩

/-- A heap that is not frozen can be searched. -/
theorem search_eq_ok {intervals : List Interval} {request : Request}
    {found : Option (Extent × List Piece)} (hthawed : s.task.heap.frozen = false)
    (hfound : s.task.heap.search intervals request = .ok found) :
    search intervals request s = .ok found s := by
  have hfreeze : s.task.heap.freeze = .ok { s.task.heap with frozen := true } :=
    Heap.freeze_eq_ok_iff.2 ⟨hthawed, rfl⟩
  have hfound' : Heap.search { s.task.heap with frozen := true } intervals request = .ok found :=
    hfound
  have hsame : Heap.thaw { s.task.heap with frozen := true } = s.task.heap := by
    simp [Heap.thaw, ← hthawed]
  unfold search
  rw [bind_of_ok (books_eq s), hfreeze]
  refine (bind_of_ok rfl _).trans ((bind_of_ok rfl _).trans ?_)
  rw [hfound', hsame]
  rfl

end Task

end Staging

import Staging.Proofs.Task.Failure
import Staging.Proofs.Task.Safety

/-!
# Refusals skip nothing else

When the firmware refuses a piece, the search goes on behind that piece.  What a search finds is the
first slot, and the refused piece is a part of it, so a slot that was passed over meets the piece,
and all others lie in what the window has behind it (`Request.Places.retried`).

The attempts of one search are its course (`Course`).  Their windows get smaller and smaller,
whatever the firmware does.  While it lists the same, a search that ends without a source has met a
refused piece in every slot, and a source is the first slot that meets none of them
(`refusals_skip_nothing`).
-/

namespace Staging

/-! ### Behind a refused piece -/

namespace Request

variable {r next : Request} {intervals : List Interval} {t : Nat} {e piece found : Extent}

/-- The extent is a slot of the request. -/
structure Places (r : Request) (intervals : List Interval) (e : Extent) : Prop where
  stop : e.stop = e.start + r.size
  slot : r.Slot intervals e.start

theorem retry?_eq_some_iff : r.retry? piece = some next ↔
    ∃ window, r.beyond? piece = some window ∧ (window ≠ r.window ∧ r.size ≤ window.length) ∧
      next = { r with window } := by
  unfold retry?
  rw [Option.bind_eq_some_iff]
  refine exists_congr fun window => and_congr_right fun _ => ?_
  rw [Option.ite_none_right_eq_some, Option.some_inj, @eq_comm _ next]

/-- What is found is met first, so a slot that is clear of a part of it lies behind that part. -/
theorem Places.behind (h : r.Places intervals e) (hfound : r.Answered intervals (some found))
    (hpart : found.covers piece = true) (hne : piece.start < piece.stop)
    (hclear : piece.Apart e) :
    match r.heading with
    | .ascending => piece.stop ≤ e.start
    | .descending => e.stop ≤ piece.start := by
  obtain ⟨hstop, -, hfirst⟩ := hfound
  have hsooner := hfirst e.start h.slot
  have hstop' := h.stop
  rw [Extent.covers_iff] at hpart
  simp only [Extent.Apart] at hclear
  cases hheading : r.heading with
  | ascending =>
      rw [hheading, Heading.sooner_ascending] at hsooner
      show piece.stop ≤ e.start
      omega
  | descending =>
      rw [hheading, Heading.sooner_descending] at hsooner
      show e.stop ≤ piece.start
      omega

/-- **No slot is lost** to a refusal but those that meet the refused piece. -/
theorem Places.retried (h : r.Places intervals e) (hfound : r.Answered intervals (some found))
    (hpart : found.covers piece = true) (hne : piece.start < piece.stop)
    (hclear : piece.Apart e) :
    ∃ next, r.retry? piece = some next ∧ next.Places intervals e := by
  have hbehind := h.behind hfound hpart hne hclear
  obtain ⟨hlo, hhi⟩ := h.slot.inside
  obtain ⟨hlo', hhi'⟩ := hfound.2.slot.inside
  have hstop := h.stop
  have hstop' := hfound.1
  have hlt := r.window.stop_lt
  rw [Extent.covers_iff] at hpart
  -- The window behind the piece is another one, and has the slot in it.
  have hbeyond : ∃ window, r.beyond? piece = some window ∧ window ≠ r.window ∧
      window.start ≤ e.start ∧ e.stop ≤ window.stop := by
    unfold beyond?
    cases hheading : r.heading with
    | ascending =>
        rw [hheading] at hbehind
        refine ⟨_, Extent.ofBounds?_of_le (by omega) hlt, fun hsame => ?_, ?_⟩
        · have := congrArg Extent.start hsame
          simp only at this
          omega
        · simp only
          omega
    | descending =>
        rw [hheading] at hbehind
        refine ⟨_, Extent.ofBounds?_of_le (by omega) (by omega), fun hsame => ?_, ?_⟩
        · have := congrArg Extent.stop hsame
          simp only at this
          omega
        · simp only
          omega
  obtain ⟨window, hwindow, hother, hstart, hend⟩ := hbeyond
  refine ⟨_, retry?_eq_some_iff.2 ⟨window, hwindow, ⟨hother, ?_⟩, rfl⟩, hstop, ?_⟩
  · simp only [Extent.length]
    omega
  · exact ⟨h.slot.size, h.slot.ne_zero, h.slot.aligned, by simp only; omega, h.slot.usable⟩

/-- What the next attempt may find are slots of the request that are clear of the refused piece. -/
theorem Places.of_retried (h : next.Places intervals e) (hretry : r.retry? piece = some next) :
    r.Places intervals e ∧ piece.Apart e := by
  obtain ⟨window, hbeyond, -, rfl⟩ := retry?_eq_some_iff.1 hretry
  obtain ⟨hlo, hhi⟩ := covers_of_beyond? hbeyond
  obtain ⟨hstop, hsize, hne, haligned, hinside, husable⟩ := h
  simp only at hstop hsize hinside
  refine ⟨⟨hstop, hsize, hne, haligned, by omega, husable⟩, ?_⟩
  unfold beyond? at hbeyond
  simp only [Extent.Apart]
  split at hbeyond
  all_goals
    obtain ⟨hstart, hend⟩ := Extent.ofBounds?_eq_some hbeyond
    omega

/-- How a search ends that had these pieces refused on its way: nothing is found only if they are in
the way of all slots, and what is found is clear of them, with no other such slot before it. -/
def Skips (r : Request) (intervals : List Interval) (refused : List Extent) :
    Option Extent → Prop
  | none => ∀ e, r.Places intervals e → ∃ piece ∈ refused, ¬ piece.Apart e
  | some source => r.Places intervals source ∧ (∀ piece ∈ refused, piece.Apart source) ∧
      ∀ e, r.Places intervals e → r.heading.Sooner e.start source.start → e ≠ source →
        ∃ piece ∈ refused, ¬ piece.Apart e

/-- An answer skips nothing. -/
theorem Answered.skips {answer : Option Extent} (h : r.Answered intervals answer) :
    r.Skips intervals [] answer := by
  cases answer with
  | none => exact fun e he => absurd he.slot (h e.start)
  | some source =>
      obtain ⟨hstop, hslot, hfirst⟩ := h
      refine ⟨⟨hstop, hslot⟩, by simp, fun e he hsooner hother => absurd ?_ hother⟩
      have hstart := Heading.sooner_antisymm hsooner (hfirst _ he.slot)
      exact Extent.ext hstart (by rw [he.stop, hstop, hstart])

/-- If there is no next attempt, then the refused piece is in the way of all slots. -/
theorem Skips.stop (hfound : r.Answered intervals (some found))
    (hpart : found.covers piece = true) (hne : piece.start < piece.stop)
    (hretry : r.retry? piece = none) : r.Skips intervals [piece] none := by
  intro e he
  refine ⟨piece, List.mem_singleton.2 rfl, fun hclear => ?_⟩
  obtain ⟨next, hsome, -⟩ := he.retried hfound hpart hne hclear
  cases hretry.symm.trans hsome

/-- **What the next attempts skip**, and the refused piece before them, is all that is skipped. -/
theorem Skips.retry {refused : List Extent} {answer : Option Extent}
    (h : next.Skips intervals refused answer) (hfound : r.Answered intervals (some found))
    (hpart : found.covers piece = true) (hne : piece.start < piece.stop)
    (hretry : r.retry? piece = some next) : r.Skips intervals (piece :: refused) answer := by
  -- A slot is in the way of the piece, or one of the next attempt.
  have hnext {e : Extent} (he : r.Places intervals e)
      (hrest : next.Places intervals e → ∃ p ∈ refused, ¬ p.Apart e) :
      ∃ p ∈ piece :: refused, ¬ p.Apart e := by
    by_cases hclear : piece.Apart e
    · obtain ⟨next', hsome, he'⟩ := he.retried hfound hpart hne hclear
      cases hretry.symm.trans hsome
      obtain ⟨p, hp, hmeets⟩ := hrest he'
      exact ⟨p, List.mem_cons_of_mem _ hp, hmeets⟩
    · exact ⟨piece, List.mem_cons_self, hclear⟩
  cases answer with
  | none => exact fun e he => hnext he (h e)
  | some source =>
      obtain ⟨hplace, hclear, hfirst⟩ := h
      obtain ⟨hplace', hapart⟩ := hplace.of_retried hretry
      obtain ⟨window, -, -, rfl⟩ := retry?_eq_some_iff.1 hretry
      exact ⟨hplace', List.forall_mem_cons.2 ⟨hapart, hclear⟩,
        fun e he hsooner hother => hnext he fun he' => hfirst e he' hsooner hother⟩

end Request

namespace Task

variable {φ γ : Type} {origin : Heap} {fw : Firmware φ} {gen : Code.Generator γ}
  {gens : Code.Generator γ → Prop}
  {track : φ → List Extent → Prop} {chunks : List Chunk} {s : Running φ} {request : Request}

/-! ### One attempt -/

/-- What a search of this task goes along, with a listing of the firmware. -/
def around (task : Task) (listing : List Extent) : List Interval :=
  task.intervals listing ++ task.heap.intervals

/-- The firmware could lend all bytes of the extent: they are listed, and neither a chunk nor a
region has them. -/
def Lends (task : Task) (listing : List Extent) (e : Extent) : Prop :=
  ∀ x ∈ e, Lendable (task.around listing) x

/-- How an attempt ends that begins in this state: with the answer of the search, or with a piece of
it that the firmware, asked right after its listing, refused. -/
def Attempt.Answers (fw : Firmware φ) (request : Request) (s : Running φ) : Attempt → Prop
  | .exhausted => request.Answered (s.task.around (fw.available s.firmware).value) none
  | .borrowed source =>
      request.Answered (s.task.around (fw.available s.firmware).value) (some source.extent)
  | .refused piece => ∃ found,
      request.Answered (s.task.around (fw.available s.firmware).value) (some found) ∧
      found.covers piece = true ∧ piece.start < piece.stop ∧
      s.task.Lends (fw.available s.firmware).value piece ∧
      (fw.reserve piece (fw.available s.firmware).state).value = false

/-- What is left behind an attempt: the books as they were, with the loans of a source pending. -/
def Attempt.Leaves (origin : Heap) (track : φ → List Extent → Prop) (fw : Firmware φ)
    (s : Running φ) : Attempt → Running φ → Prop
  | .exhausted, s' => s'.task = s.task ∧ s'.firmware = (fw.available s.firmware).state ∧
      Kept origin track s.task.chunks [] s'
  | .borrowed source, s' => s'.task.marks = s.task.marks ∧
      Kept origin track s.task.chunks source.loans s'
  | .refused _, s' => s'.task = s.task ∧ Kept origin track s.task.chunks [] s'

theorem Attempt.Leaves.of_spec {outcome : Attempt} {s' : Running φ}
    (h : Kept origin track s.task.chunks [] s)
    (hkept : match outcome with
      | .borrowed source => Kept origin track s.task.chunks source.loans s' ∧
          Serves request s.task.chunks source
      | _ => Kept origin track s.task.chunks [] s')
    (hmarks : s'.task.marks = s.task.marks)
    (hfirmware : outcome = .exhausted → s'.firmware = (fw.available s.firmware).state) :
    outcome.Leaves origin track fw s s' := by
  cases outcome with
  | exhausted => exact ⟨h.task_eq hkept hmarks, hfirmware rfl, hkept⟩
  | borrowed source => exact ⟨hmarks, hkept.1⟩
  | refused piece => exact ⟨h.task_eq hkept hmarks, hkept⟩

/-- A search has no error: it comes to an end, or there is no search while the heap is frozen. -/
theorem search_answers {intervals : List Interval} (hvalid : s.task.heap.Valid)
    (hkinds : ∀ i ∈ intervals, i.kind ≠ .regionHead ∧ i.kind ≠ .regionBody)
    (halign : Address.isPowerOfTwo request.align = true) :
    Post (search intervals request) (fun found s' => s' = s ∧
      s.task.heap.search intervals request = .ok found) (fun _ => False) s := by
  obtain ⟨found, hfound, -⟩ := Heap.search_complete hvalid hkinds halign
  cases hfrozen : s.task.heap.frozen with
  | false => exact post_of_eq_ok (search_eq_ok hfrozen hfound) ⟨rfl, hfound⟩
  | true =>
      unfold search
      rw [post_bind_iff, post_books_iff, post_bind_iff]
      refine post_orTrap fun frozen hfreeze => ?_
      cases hfrozen.symm.trans (Heap.freeze_eq_ok_iff.1 hfreeze).1

section Attempts

variable (hv : origin.Valid) (hfw : fw.Tracks track)
include hfw

/-- Collecting leaves the books alone. -/
theorem collect_task (h : Kept origin track s.task.chunks [] s) :
    Post (collect fw) (fun intervals s' => Kept origin track s.task.chunks [] s' ∧
      s'.task = s.task ∧ s'.firmware = (fw.available s.firmware).state ∧
      intervals = s.task.intervals (fw.available s.firmware).value) (fun _ => False) s :=
  post_collect ⟨⟨⟨h.owes.heap, h.owes.blocks, hfw.available h.owes.tracked⟩, h.chunks⟩, rfl, rfl,
    rfl⟩

include hv

/-- **An attempt answers** by the first slot, and it fails only by a refusal of the firmware. -/
theorem attempt_answers (halign : Address.isPowerOfTwo request.align = true)
    (h : Kept origin track s.task.chunks [] s) :
    Post (attempt fw request) (fun outcome s' => outcome.Answers fw request s ∧
      (outcome = .exhausted → s'.firmware = (fw.available s.firmware).state))
      (fun _ => False) s := by
  unfold attempt
  rw [post_bind_iff, post_note_iff]
  refine (collect_task hfw (h.note (.searching request))).bind ?_
  rintro _ ⟨_, _, notices⟩ ⟨⟨howes, _⟩, rfl, rfl, rfl⟩
  dsimp only at howes ⊢
  have hvalid := howes.heap.valid hv
  have hkinds := @kind_of_mem_intervals s.task (fw.available s.firmware).value
  refine (search_answers hvalid hkinds halign).bind ?_
  rintro found s₁ ⟨rfl, hfound⟩
  obtain ⟨found', hcomplete, hanswered, -⟩ := Heap.search_complete hvalid hkinds halign
  cases hcomplete.symm.trans hfound
  cases found with
  | none => exact ⟨hanswered, fun _ => rfl⟩
  | some placement =>
      obtain ⟨extent, pieces⟩ := placement
      have hplaced := placed_of_search hfound
      obtain ⟨-, outcome, s₂, hborrowed, hrefused⟩ :=
        borrowAll_of_search (s := ⟨s.task, _, notices⟩) hv hfw howes halign hfound
      dsimp only
      rw [post_bind_iff]
      refine post_of_eq_ok hborrowed ?_
      cases outcome with
      | ok loans => exact ⟨hanswered, fun hnone => by cases hnone⟩
      | error cause =>
          obtain ⟨⟨piece, owner⟩, hpiece, rfl, hno, rfl⟩ := hrefused cause rfl
          obtain ⟨hlo, hne, hhi⟩ := hplaced.tile.bounds.2 _ (List.mem_map_of_mem hpiece)
          have hlends : s.task.Lends (fw.available s.firmware).value piece :=
            hplaced.rightful _ hpiece
          exact ⟨⟨extent, hanswered, Extent.covers_iff.2 ⟨hlo, hhi⟩, hne, hlends, hno⟩,
            fun hnone => by cases hnone⟩

/-- An attempt leaves the books as they were. -/
theorem attempt_exact (halign : Address.isPowerOfTwo request.align = true)
    (h : Kept origin track s.task.chunks [] s) :
    Post (attempt fw request) (fun outcome s' => outcome.Answers fw request s ∧
      outcome.Leaves origin track fw s s') (fun _ => False) s := by
  refine (((attempt_answers hv hfw halign h).and (attempt_spec hv hfw h)).and
    (attempt_marked request rfl)).mono ?_ fun _ hfalse => hfalse.1.1
  rintro outcome s' ⟨⟨⟨hanswers, hfirmware⟩, hkept⟩, hmarks, -⟩
  exact ⟨hanswers, .of_spec h hkept hmarks hfirmware⟩

end Attempts

/-! ### The attempts of a search -/

/-- An attempt of a search: its window, what the firmware listed for it, and the piece that it
refused then, if it refused one. -/
structure Try where
  window : Extent
  listing : List Extent
  refused : Option Extent

/-- The pieces that were refused on the way. -/
def refusals (tries : List Try) : List Extent := tries.filterMap (·.refused)

/-- The attempts of a search from one state on, and how it ends.  A trap is not an answer. -/
inductive Course (fw : Firmware φ) : Request → Running φ → List Try →
    EStateM.Result (Fault Error) (Running φ) (Option Source) → Prop where
  | trap {request s cause s'} (h : attempt fw request s = .error cause s') :
      Course fw request s [] (.error cause s')
  | exhausted {request s s'} (h : attempt fw request s = .ok .exhausted s') :
      Course fw request s [⟨request.window, (fw.available s.firmware).value, none⟩] (.ok none s')
  | borrowed {request s source s'} (h : attempt fw request s = .ok (.borrowed source) s') :
      Course fw request s [⟨request.window, (fw.available s.firmware).value, none⟩]
        (.ok (some source) s')
  | stop {request s piece s'} (h : attempt fw request s = .ok (.refused piece) s')
      (hretry : request.retry? piece = none) :
      Course fw request s [⟨request.window, (fw.available s.firmware).value, some piece⟩]
        (.ok none { s' with notices := s'.notices.push (.refused piece) })
  | retry {request s piece s' next tries result}
      (h : attempt fw request s = .ok (.refused piece) s')
      (hretry : request.retry? piece = some next)
      (hrest :
        Course fw next { s' with notices := s'.notices.push (.refused piece) } tries result) :
      Course fw request s
        (⟨request.window, (fw.available s.firmware).value, some piece⟩ :: tries) result

/-- A search goes on behind an attempt whose piece was refused, or ends there. -/
theorem borrowSource_of_refused {piece : Extent} {s' : Running φ}
    (h : attempt fw request s = .ok (.refused piece) s') :
    (request.retry? piece = none ∧ borrowSource fw request s =
        .ok none { s' with notices := s'.notices.push (.refused piece) }) ∨
      ∃ next, request.retry? piece = some next ∧ borrowSource fw request s =
        borrowSource fw next { s' with notices := s'.notices.push (.refused piece) } := by
  have hnote : note (.refused piece) s' =
      .ok () { s' with notices := s'.notices.push (.refused piece) } := rfl
  rw [borrowSource, bind_of_ok h]
  dsimp only
  rw [bind_of_ok hnote]
  cases hretry : request.retry? piece with
  | none => exact .inl ⟨rfl, rfl⟩
  | some next => exact .inr ⟨next, rfl, rfl⟩

/-- Each search has a course. -/
theorem exists_course (fw : Firmware φ) (request : Request) (s : Running φ) :
    ∃ tries, Course fw request s tries (borrowSource fw request s) := by
  induction request using borrowSource.induct generalizing s with
  | case1 request ih =>
      cases hattempt : attempt fw request s with
      | error cause s' =>
          rw [borrowSource, bind_of_error hattempt]
          exact ⟨_, .trap hattempt⟩
      | ok outcome s' =>
          cases outcome with
          | exhausted =>
              rw [borrowSource, bind_of_ok hattempt]
              exact ⟨_, .exhausted hattempt⟩
          | borrowed source =>
              rw [borrowSource, bind_of_ok hattempt]
              exact ⟨_, .borrowed hattempt⟩
          | refused piece =>
              obtain ⟨hretry, hend⟩ | ⟨next, hretry, hnext⟩ := borrowSource_of_refused hattempt
              · rw [hend]
                exact ⟨_, .stop hattempt hretry⟩
              · obtain ⟨tries, hrest⟩ := ih piece next hretry _
                rw [hnext]
                exact ⟨_, .retry hattempt hretry hrest⟩

/-- A search has one course. -/
theorem Course.unique {tries tries' : List Try}
    {result result' : EStateM.Result (Fault Error) (Running φ) (Option Source)}
    (h : Course fw request s tries result) (h' : Course fw request s tries' result') :
    tries = tries' ∧ result = result' := by
  induction h generalizing tries' with
  | trap h => cases h' <;> simp_all
  | exhausted h => cases h' <;> simp_all
  | borrowed h => cases h' <;> simp_all
  | stop h hretry => cases h' <;> simp_all
  | retry h hretry hrest ih =>
      cases h' with
      | retry h' hretry' hrest' =>
          cases h.symm.trans h'
          cases hretry.symm.trans hretry'
          obtain ⟨rfl, rfl⟩ := ih hrest'
          exact ⟨rfl, rfl⟩
      | _ => simp_all

section Course

variable {tries : List Try}
  {result : EStateM.Result (Fault Error) (Running φ) (Option Source)}

/-- **The windows of the attempts get smaller and smaller.** -/
theorem Course.shrinks (h : Course fw request s tries result) :
    (tries.Pairwise fun a b => b.window.length < a.window.length) ∧
      ∀ t ∈ tries, t.window.length ≤ request.window.length := by
  induction h with
  | trap => exact ⟨.nil, by simp⟩
  | exhausted => exact ⟨List.pairwise_singleton _ _, by simp⟩
  | borrowed => exact ⟨List.pairwise_singleton _ _, by simp⟩
  | stop => exact ⟨List.pairwise_singleton _ _, by simp⟩
  | retry _ hretry _ ih =>
      obtain ⟨hsmaller, hall⟩ := ih
      have hlt := Request.length_lt_of_retry? hretry
      refine ⟨List.pairwise_cons.2 ⟨fun t ht => Nat.lt_of_le_of_lt (hall t ht) hlt, hsmaller⟩, ?_⟩
      exact List.forall_mem_cons.2
        ⟨Nat.le_refl _, fun t ht => Nat.le_trans (hall t ht) (Nat.le_of_lt hlt)⟩

/-- There are no more attempts than the window has bytes, and one. -/
theorem Course.length_le (h : Course fw request s tries result) :
    tries.length ≤ request.window.length + 1 := by
  induction h with
  | trap => exact Nat.zero_le _
  | exhausted => exact Nat.le_add_left _ _
  | borrowed => exact Nat.le_add_left _ _
  | stop => exact Nat.le_add_left _ _
  | retry _ hretry _ ih =>
      have := Request.length_lt_of_retry? hretry
      rw [List.length_cons]
      omega

/-- A search that ends with an answer has skipped these pieces and nothing else. -/
def AnswersPast (request : Request) (intervals : List Interval) (refused : List Extent) :
    EStateM.Result (Fault Error) (Running φ) (Option Source) → Prop
  | .ok outcome _ => request.Skips intervals refused (outcome.map (·.extent))
  | .error _ _ => True

/-- **Refusals skip nothing else**, while the firmware lists the same for all attempts. -/
theorem Course.skips (hv : origin.Valid) (hfw : fw.Tracks track)
    (halign : Address.isPowerOfTwo request.align = true)
    (hkept : Kept origin track s.task.chunks [] s) (h : Course fw request s tries result)
    {listing : List Extent} (hsame : ∀ t ∈ tries, t.listing = listing) :
    AnswersPast request (s.task.around listing) (refusals tries) result := by
  induction h with
  | trap => trivial
  | @exhausted request s s' h =>
      have hanswered : request.Answered (s.task.around (fw.available s.firmware).value) none :=
        ((attempt_exact hv hfw halign hkept).of_ok h).1
      rw [← hsame _ List.mem_cons_self]
      exact hanswered.skips
  | @borrowed request s source s' h =>
      have hanswered :
          request.Answered (s.task.around (fw.available s.firmware).value) (some source.extent) :=
        ((attempt_exact hv hfw halign hkept).of_ok h).1
      rw [← hsame _ List.mem_cons_self]
      exact hanswered.skips
  | stop h hretry =>
      obtain ⟨⟨found, hfound, hpart, hne, -⟩, -⟩ := (attempt_exact hv hfw halign hkept).of_ok h
      exact .stop (hsame _ List.mem_cons_self ▸ hfound) hpart hne hretry
  | @retry request s piece s' next tries result h hretry hrest ih =>
      obtain ⟨⟨found, hfound, hpart, hne, -⟩, htask, hleft⟩ :=
        (attempt_exact hv hfw halign hkept).of_ok h
      have hlisting : (fw.available s.firmware).value = listing := hsame _ List.mem_cons_self
      have hkept' : Kept origin track s'.task.chunks [] s' := by
        rw [htask]
        exact hleft
      obtain ⟨-, -, -, halign'⟩ := Request.retry?_spec hretry
      have hrest' := ih (halign' ▸ halign) (hkept'.note _)
        fun t ht => hsame t (List.mem_cons_of_mem _ ht)
      -- The books of the next attempts are those of the first.
      simp only [htask] at hrest'
      cases result with
      | ok outcome s'' => exact hrest'.retry (hlisting ▸ hfound) hpart hne hretry
      | error cause s'' => trivial

end Course

/-- A search has no error, and a source is a slot of the request, whatever was refused before. -/
theorem borrowSource_places (hv : origin.Valid) (hfw : fw.Tracks track)
    (halign : Address.isPowerOfTwo request.align = true) (h : Kept origin track chunks [] s) :
    Post (borrowSource fw request) (fun outcome _ => ∀ source, outcome = some source →
      ∃ intervals, request.Places intervals source.extent) (fun _ => False) s := by
  obtain rfl := h.chunks
  induction request using borrowSource.induct generalizing s with
  | case1 request ih =>
      rw [borrowSource]
      refine (attempt_exact hv hfw halign h).bind ?_
      rintro outcome s' ⟨hanswers, hleaves⟩
      cases outcome with
      | exhausted => exact fun source hsome => by cases hsome
      | borrowed source =>
          intro source' hsome
          cases hsome
          obtain ⟨hstop, hslot, -⟩ := hanswers
          exact ⟨_, hstop, hslot⟩
      | refused piece =>
          obtain ⟨htask, hkept⟩ := hleaves
          rw [post_bind_iff, post_note_iff]
          split
          case h_1 => exact fun source hsome => by cases hsome
          case h_2 next hretry =>
            obtain ⟨-, -, -, halign'⟩ := Request.retry?_spec hretry
            have hkept' : Kept origin track s'.task.chunks [] s' := by
              rw [htask]
              exact hkept
            refine (ih piece next hretry (halign' ▸ halign) (hkept'.note _)).mono ?_ fun _ => id
            intro outcome _ hplaces source hsome
            obtain ⟨intervals, hplaces⟩ := hplaces source hsome
            exact ⟨intervals, (hplaces.of_retried hretry).1⟩

/-! ### Searches in the states that are reached -/

/-- What a search relies on: the heap is not frozen, and the events fit into its buffers, whatever
calls the firmware gets. -/
structure Searchable (fw : Firmware φ) (s : Running φ) : Prop where
  thawed : s.task.heap.frozen = false
  events : ∀ state, fw.Leads s.firmware state → HasRoom fw s.task state

theorem Searchable.room (h : Searchable fw s) (hstaged : Staged origin track s) :
    Room fw origin (fun state _ => fw.Leads s.firmware state) s.task.chunks :=
  (hstaged.leads fw).kept.room h.events

/-- **Refusals end a search in time and skip nothing else.**  In every state that is reached, and
whatever the firmware answers, the windows of the attempts get smaller and smaller, so that there
are no more of them than the window has bytes, and one; the search ends with an answer then, and
traps only where it could not rely on the heap or on room for the events.  While the firmware lists
the same, the answer has skipped the refused pieces and nothing else. -/
theorem refusals_skip_nothing {firmware : φ} (horigin : origin.Reachable)
    (h : Reach fw gens origin firmware s) (request : Request)
    (halign : Address.isPowerOfTwo request.align = true) :
    ((∃ outcome s', borrowSource fw request s = .ok outcome s') ∨
      ¬ Searchable fw s ∧ ∃ cause s', borrowSource fw request s = .error (.trap cause) s') ∧
    ∃ tries, Course fw request s tries (borrowSource fw request s) ∧
      (tries.Pairwise fun a b => b.window.length < a.window.length) ∧
      tries.length ≤ request.window.length + 1 ∧
      ∀ listing, (∀ t ∈ tries, t.listing = listing) →
        AnswersPast request (s.task.around listing) (refusals tries)
          (borrowSource fw request s) := by
  have hv := horigin.valid
  have hstaged := h.staged hv fw.tracks_nothing trivial
  refine ⟨?_, ?_⟩
  · have hplaces := borrowSource_places hv fw.tracks_nothing halign hstaged.kept
    unfold Post at hplaces
    split at hplaces
    case h_1 outcome s' hend => exact .inl ⟨outcome, s', hend⟩
    case h_2 => contradiction
    case h_3 cause s' hend =>
      refine .inr ⟨fun hsearch => ?_, cause, s', hend⟩
      have hleads := hstaged.leads fw
      have hthawed := (hleads.owes.heap.frozen hv).symm.trans hsearch.thawed
      have hends := borrowSource_ends (E := fun _ => False) hv hthawed
        (fw.tracks_leads s.firmware) (hsearch.room hstaged) request halign hleads.kept
      unfold Ends at hends
      rw [hend] at hends
      exact hends
  · obtain ⟨tries, hcourse⟩ := exists_course fw request s
    exact ⟨tries, hcourse, hcourse.shrinks.1, hcourse.length_le, fun listing hsame =>
      hcourse.skips hv fw.tracks_nothing halign hstaged.kept hsame⟩

/-- A task that may borrow all memory around the small heap but the gap between its regions. -/
def gapTask : Running Firmware.Table where
  task := Task.start smallHeap smallGenerator
  firmware := refusingFirmware

/-- A request for two pages above some address. -/
def twoPages (low : Nat) : Request := ⟨.ofBoundsD low 0xb000, 0x2000, 0x100, .ascending⟩

/-- The first attempt would take the end of a body and the memory of the firmware behind it, which
the firmware refuses.  The source lies behind all of that, and what is before it meets the refused
piece. -/
theorem refusals_skip_nothing_gap : ∃ (source : Source) (s' : Running Firmware.Table)
    (tries : List Try),
    smallHeap.Reachable ∧
      Reach Firmware.ofTable (· = smallGenerator) smallHeap refusingFirmware gapTask ∧
      Address.isPowerOfTwo (twoPages 0x2000).align = true ∧
      borrowSource Firmware.ofTable (twoPages 0x2000) gapTask = .ok (some source) s' ∧
      source.extent = .ofBoundsD 0x8000 0xa000 ∧
      Course Firmware.ofTable (twoPages 0x2000) gapTask tries (.ok (some source) s') ∧
      tries.length = 2 ∧ refusals tries = [smallGap] ∧
      ∀ e, (twoPages 0x2000).Places (gapTask.task.around refusingFirmware.available) e →
        e.start < 0x8000 → ¬ smallGap.Apart e := by
  have hends : (match attempt Firmware.ofTable (twoPages 0x2000) gapTask with
      | .ok (.refused piece) s₁ =>
          match attempt Firmware.ofTable (twoPages 0x4000)
              { s₁ with notices := s₁.notices.push (.refused piece) } with
          | .ok (.borrowed source) _ =>
              some (piece, (Firmware.ofTable.available s₁.firmware).value, source.extent)
          | .ok .exhausted _ | .ok (.refused _) _ | .error _ _ => none
      | _ => none) = some (smallGap, refusingFirmware.available, .ofBoundsD 0x8000 0xa000) := by
    decide +kernel
  have halign : Address.isPowerOfTwo (twoPages 0x2000).align = true := by decide
  have hreach : Reach Firmware.ofTable (· = smallGenerator) smallHeap refusingFirmware gapTask :=
    .start rfl
  have hretry : Request.retry? (twoPages 0x2000) smallGap = some (twoPages 0x4000) := by decide
  split at hends
  case h_2 => cases hends
  case h_1 piece s₁ hfirst =>
    split at hends
    case h_2 | h_3 | h_4 => cases hends
    case h_1 source s' hsecond =>
      obtain ⟨rfl, hlisting, hextent⟩ : piece = smallGap ∧
          (Firmware.ofTable.available s₁.firmware).value = refusingFirmware.available ∧
          source.extent = .ofBoundsD 0x8000 0xa000 := by
        simpa using hends
      have hcourse := Course.retry hfirst hretry (.borrowed hsecond)
      obtain ⟨-, tries, hcourse', -, -, hskips⟩ :=
        refusals_skip_nothing smallHeap_reachable hreach (twoPages 0x2000) halign
      obtain ⟨rfl, hresult⟩ := hcourse'.unique hcourse
      rw [hresult] at hskips
      obtain ⟨-, -, hbefore⟩ := hskips refusingFirmware.available
        (List.forall_mem_cons.2 ⟨rfl, List.forall_mem_singleton.2 hlisting⟩)
      have hstart : source.extent.start = 0x8000 := hextent ▸ rfl
      refine ⟨source, s', _, smallHeap_reachable, hreach, halign, hresult, hextent, hcourse, rfl,
        rfl, fun e he hbelow => ?_⟩
      obtain ⟨p, hp, hmeets⟩ := hbefore e he (hstart ▸ Nat.le_of_lt hbelow) fun hsame => by
        rw [hsame, hstart] at hbelow
        exact Nat.lt_irrefl _ hbelow
      exact List.mem_singleton.1 hp ▸ hmeets

end Task

end Staging

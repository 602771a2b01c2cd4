import Staging.Proofs.Sweep.Composition
import Staging.Proofs.Task.Refusals

/-!
# Sources while the firmware is steady

A firmware is steady as long as it lists the same and grants what it lists and has not lent
(`Firmware.Steady`).  Then no attempt is refused, and a search ends with the first slot of its
window (`borrowSource_steady`).  A policy searches one window after the other until there is a slot,
and a search that finds none leaves everything as it was.  So what a policy borrows is a choice
among the answers to its requests, each made as if it were the only one (`borrowForTarget_chooses`,
`borrowForWish_chooses`).
-/

namespace Staging

variable {φ γ : Type}

/-- However often the firmware is asked for its listing, that is this one, and then an extent with a
byte is granted if all of it is listed and none of it is lent. -/
def Firmware.Steady (fw : Firmware φ) (listing lent : List Extent) (state : φ) : Prop :=
  ∀ n, let reply := fw.available ((fun state => (fw.available state).state)^[n] state)
    reply.value = listing ∧ ∀ e : Extent, e.start < e.stop →
      (∀ x ∈ e, (∃ l ∈ listing, x ∈ l) ∧ ∀ block ∈ lent, x ∉ block) →
        (fw.reserve e reply.state).value = true

namespace Firmware.Steady

variable {fw : Firmware φ} {listing lent : List Extent} {state : φ}

theorem listed (h : fw.Steady listing lent state) : (fw.available state).value = listing := (h 0).1

theorem granted (h : fw.Steady listing lent state) {e : Extent} (hne : e.start < e.stop)
    (he : ∀ x ∈ e, (∃ l ∈ listing, x ∈ l) ∧ ∀ block ∈ lent, x ∉ block) :
    (fw.reserve e (fw.available state).state).value = true := (h 0).2 e hne he

theorem available (h : fw.Steady listing lent state) :
    fw.Steady listing lent (fw.available state).state := fun n => h (n + 1)

end Firmware.Steady

/-- A table grants all that it is asked for, but for what it has granted already, which is lent. -/
def Firmware.Table.Open (t : Table) (lent : List Extent) : Prop :=
  t.refusals = [] ∧ t.cover = .any ∧ ∀ e ∈ t.held, e ∈ lent ∧ e.start < e.stop
deriving Decidable

/-- An open table is steady. -/
theorem Firmware.Table.Open.steady {t : Table} {lent : List Extent} (h : t.Open lent) :
    ofTable.Steady t.available lent t := by
  obtain ⟨hrefusals, hcover, hheld⟩ := h
  intro n
  have hsame : (fun state => (ofTable.available state).state)^[n] t = t :=
    Function.iterate_fixed rfl n
  rw [hsame]
  refine ⟨rfl, fun e hne hfree => ?_⟩
  have hclear : ∀ held ∈ t.held, held.Apart e := fun held hmem =>
    Extent.apart_of_forall_mem (hheld held hmem).2 hne fun x hx hmeet =>
      (hfree x hmeet).2 held (hheld held hmem).1 hx
  show t.grants e = true
  simpa [grants, offers, hrefusals, hcover] using hclear

namespace Task

variable {origin : Heap} {fw : Firmware φ} {gen : Code.Generator γ} {listing : List Extent}
  {task : Task} {s : Running φ} {request : Request} {answer : Option Extent}

/-! ### Searches -/

/-- A running task with these books, which owes just the loans of its chunks, and a firmware that is
steady. -/
structure Poised (origin : Heap) (fw : Firmware φ) (listing : List Extent) (task : Task)
    (s : Running φ) : Prop where
  same : s.task = task
  kept : Kept origin (fun _ _ => True) task.chunks [] s
  steady : fw.Steady listing task.blocks s.firmware

theorem Poised.note (h : Poised origin fw listing task s) (n : Notice) :
    Poised origin fw listing task { s with notices := s.notices.push n } :=
  ⟨h.same, h.kept.note n, h.steady⟩

/-- What could be lent is listed, and not lent already. -/
theorem Lends.listed {e : Extent} (h : task.Lends listing e) :
    ∀ x ∈ e, (∃ l ∈ listing, x ∈ l) ∧ ∀ block ∈ task.blocks, x ∉ block := by
  intro x hx
  obtain ⟨⟨i, hi, hkind, hmem⟩, hfree⟩ := h x hx
  refine ⟨?_, fun block hblock hin => hfree ?_⟩
  · -- Only the listing of the firmware says what it has available.
    rcases List.mem_append.1 hi with hi | hi
    · obtain ⟨l, hl, rfl⟩ | ⟨b, -, rfl⟩ | ⟨chunk, -, rfl | ⟨loan, -, rfl⟩⟩ :=
        mem_intervals_iff.1 hi
      · exact ⟨l, hl, hmem⟩
      all_goals cases hkind
    · have hover : Over task.heap.intervals .firmwareAvailable x := ⟨i, hi, hkind, hmem⟩
      obtain ⟨hmask, -⟩ | ⟨r, -, e, hoffer, -⟩ := Heap.over_intervals_iff.1 hover
      · cases hmask
      · cases hoffer
  · exact ⟨⟨.firmwareBlock, block, none⟩,
      List.mem_append_left _ (mem_intervals_iff.2 (.inr (.inl ⟨block, hblock, rfl⟩))), rfl, hin⟩

/-- How a search ends with an answer: with a source there, or as it began. -/
def Finds (origin : Heap) (fw : Firmware φ) (listing : List Extent) (task : Task)
    (request : Request) : Option Source → Running φ → Prop
  | none, s => request.Answered (task.around listing) none ∧ Poised origin fw listing task s
  | some source, s => request.Answered (task.around listing) (some source.extent) ∧
      s.task.marks = task.marks

section Searches

variable (hv : origin.Valid)
include hv

/-- **A steady firmware refuses nothing**, so one attempt is all there is to a search. -/
theorem borrowSource_steady (halign : Address.isPowerOfTwo request.align = true)
    (h : Poised origin fw listing task s) :
    Post (borrowSource fw request) (Finds origin fw listing task request) (fun _ => False) s := by
  obtain ⟨rfl, hkept, hsteady⟩ := h
  rw [borrowSource]
  refine (attempt_exact hv fw.tracks_nothing halign hkept).bind ?_
  rintro outcome s' ⟨hanswers, hleaves⟩
  cases outcome with
  | exhausted =>
      obtain ⟨htask, hfirmware, hkept'⟩ := hleaves
      have hanswered : request.Answered (s.task.around (fw.available s.firmware).value) none :=
        hanswers
      rw [hsteady.listed] at hanswered
      exact ⟨hanswered, htask, hkept', hfirmware ▸ hsteady.available⟩
  | borrowed source =>
      have hanswered :
          request.Answered (s.task.around (fw.available s.firmware).value) (some source.extent) :=
        hanswers
      rw [hsteady.listed] at hanswered
      exact ⟨hanswered, hleaves.1⟩
  | refused piece =>
      obtain ⟨found, -, -, hne, hlends, hrefused⟩ := hanswers
      rw [hsteady.listed] at hlends
      rw [hsteady.granted hne hlends.listed] at hrefused
      cases hrefused

/-- Each request has an answer. -/
theorem exists_answer (request : Request) (halign : Address.isPowerOfTwo request.align = true)
    (h : Poised origin fw listing task s) :
    ∃ answer, request.Answered (task.around listing) answer := by
  obtain ⟨rfl, hkept, -⟩ := h
  obtain ⟨found, -, hanswered, -⟩ := Heap.search_complete (hkept.owes.heap.valid hv)
    (@kind_of_mem_intervals s.task listing) halign
  exact ⟨_, hanswered⟩

end Searches

/-! ### Choices -/

/-- The source that a policy chooses, and whether it moves the start of the post area. -/
structure Choice where
  source : Extent
  inPostArea : Bool
deriving DecidableEq

namespace Choice

/-- A source outside of the post area. -/
def ordinary (source : Extent) : Choice := ⟨source, false⟩

/-- A source that the post area begins with, if it did not begin below. -/
def post (source : Extent) : Choice := ⟨source, true⟩

/-- The marks of a task with the source of the choice at hand. -/
def mark (choice : Choice) (m : Task) : Task :=
  if choice.inPostArea then m.lower choice.source else m

end Choice

/-- How a policy ends that had this choice: with the source of it, or as it began. -/
def Chooses (origin : Heap) (fw : Firmware φ) (listing : List Extent) (task : Task)
    (choice : Option Choice) : Option Source → Running φ → Prop
  | none, s => choice = none ∧ Poised origin fw listing task s
  | some source, s => ∃ c, choice = some c ∧ c.source = source.extent ∧
      s.task.marks = c.mark task.marks

/-- Between bounds that are not in order there is no slot. -/
theorem answer_of_bounds {low high size align : Nat} {heading : Heading}
    {intervals : List Interval} (hnone : Extent.ofBounds? low high = none)
    (h : Request.Answered ⟨.ofBoundsD low high, size, align, heading⟩ intervals answer) :
    answer = none := by
  cases answer with
  | none => rfl
  | some e =>
      have hinside := h.2.slot.inside.2
      have hsize := h.2.slot.size
      have hempty : (Extent.ofBoundsD low high).stop = 0 := by
        rw [Extent.ofBoundsD, hnone]
        rfl
      simp only [hempty] at hinside hsize
      omega

theorem ofBoundsD_of_some {low high : Nat} {window : Extent}
    (h : Extent.ofBounds? low high = some window) : Extent.ofBoundsD low high = window := by
  rw [Extent.ofBoundsD, h]
  rfl

/-- Where one search finds nothing the next one begins as if it were the first. -/
theorem orElse_chooses {first second : Action φ (Option Source)} {a b : Option Choice}
    (hfirst : Post first (Chooses origin fw listing task a) (fun _ => False) s)
    (hsecond : ∀ s', Poised origin fw listing task s' →
      Post second (Chooses origin fw listing task b) (fun _ => False) s') :
    Post (orElse first second) (Chooses origin fw listing task (a.or b)) (fun _ => False) s := by
  unfold orElse
  refine hfirst.bind fun outcome s' houtcome => ?_
  cases outcome with
  | none =>
      obtain ⟨rfl, hpoised⟩ := houtcome
      exact hsecond s' hpoised
  | some source =>
      obtain ⟨c, rfl, hc⟩ := houtcome
      exact ⟨c, rfl, hc⟩

section Policies

variable (hv : origin.Valid)
include hv

theorem within_chooses {low high size align : Nat} {heading : Heading}
    (halign : Address.isPowerOfTwo align = true) (h : Poised origin fw listing task s)
    (hanswer : Request.Answered ⟨.ofBoundsD low high, size, align, heading⟩ (task.around listing)
      answer) :
    Post (within low high fun window => borrowSource fw ⟨window, size, align, heading⟩)
      (Chooses origin fw listing task (answer.map .ordinary)) (fun _ => False) s := by
  unfold within
  split
  case h_1 hnone => exact ⟨by rw [answer_of_bounds hnone hanswer]; rfl, h⟩
  case h_2 window hwindow =>
    rw [ofBoundsD_of_some hwindow] at hanswer
    refine (borrowSource_steady hv halign h).mono (fun outcome s' hfinds => ?_) fun _ => id
    cases outcome with
    | none => exact ⟨by rw [hanswer.unique hfinds.1]; rfl, hfinds.2⟩
    | some source =>
        exact ⟨.ordinary source.extent, by rw [hanswer.unique hfinds.1]; rfl, rfl, hfinds.2⟩

theorem borrowInPostArea_chooses {size align : Nat} (halign : Address.isPowerOfTwo align = true)
    (h : Poised origin fw listing task s)
    (hanswer : Request.Answered
      ⟨.ofBoundsD task.highestOrdinary Address.top, size, align, .descending⟩
      (task.around listing) answer) :
    Post (borrowInPostArea fw size align)
      (Chooses origin fw listing task (answer.map .post)) (fun _ => False) s := by
  unfold borrowInPostArea
  rw [post_bind_iff, post_books_iff]
  unfold within
  rw [h.same]
  split
  case h_1 hnone => exact ⟨by rw [answer_of_bounds hnone hanswer]; rfl, h⟩
  case h_2 window hwindow =>
    rw [ofBoundsD_of_some hwindow] at hanswer
    refine (borrowSource_steady hv halign h).bind fun outcome s' hfinds => ?_
    cases outcome with
    | none => exact ⟨by rw [hanswer.unique hfinds.1]; rfl, hfinds.2⟩
    | some source =>
        rw [post_bind_iff, post_update_iff, post_bind_iff, post_books_iff, post_bind_iff,
          post_note_iff]
        have hlower : (s'.task.marks.lower source.extent) =
            (Choice.post source.extent).mark task.marks := by
          rw [hfinds.2]
          rfl
        exact ⟨.post source.extent, by rw [hanswer.unique hfinds.1]; rfl, rfl, hlower⟩

end Policies

/-! ### The order of the searches -/

/-- The slot at or above an address that is met first from below. -/
def slotAbove (start size : Nat) : Request := ⟨.ofBoundsD start Address.top, size, 1, .ascending⟩

/-- The slot that ends at or below an address and is met first from above. -/
def slotBelow (stop size : Nat) : Request := ⟨.ofBoundsD 0 stop, size, 1, .descending⟩

/-- The slot above all ordinary sources that is met first from above. -/
def slotOnTop (task : Task) (size align : Nat) : Request :=
  ⟨.ofBoundsD task.highestOrdinary Address.top, size, align, .descending⟩

/-- What a task chooses for a target at an address: in front of the post area a slot above the
target, then for a target in low memory the highest one, then one below the target, and the highest
one in the end.  Behind the start of the post area it is a slot above the target or none. -/
def forTarget (task : Task) (target : Nat) (above below top : Option Extent) : Option Choice :=
  if task.postStart ≤ target then
    above.map .ordinary
  else
    (above.map .ordinary).or
      ((if target < lowMemoryLimit then top.map .post else none).or
        ((below.map .ordinary).or (top.map .post)))

/-- The slot inside the window of a wish that is met first from the preferred end. -/
def slotInPlace (wish : Wish) : Request :=
  ⟨wish.window, wish.size, wish.align, wish.preferred.heading⟩

/-- The slot that keeps the order of the targets around a window and is met first from below. -/
def slotInOrder (task : Task) (window : Extent) (size align : Nat) : Request :=
  ⟨.ofBoundsD (task.orderLimits window).1 (task.orderLimits window).2, size, align, .ascending⟩

/-- What a task chooses for a wish, and the target: a slot in place if there is one, otherwise a
selected target, if there is one, with a slot in order or the highest one in the end. -/
def forWish (task : Task) (listing : List Extent) (wish : Wish)
    (inPlace ordered top : Option Extent) : Option (Choice × Extent) :=
  let selected := wish.select? (task.heap.regions.map (·.extent) ++ listing)
    (task.chunks.map (·.target))
  (inPlace.map fun slot => (.ordinary slot, slot)).or
    (selected.bind fun target => ((ordered.map .ordinary).or (top.map .post)).map (·, target))

section Order

variable (hv : origin.Valid)
include hv

/-- **The source of a fixed target** is the choice among the slots above it, below it and on top. -/
theorem borrowForTarget_chooses {target : Extent} {above below top : Option Extent}
    (h : Poised origin fw listing task s)
    (habove : (slotAbove target.start target.length).Answered (task.around listing) above)
    (hbelow : (slotBelow target.start target.length).Answered (task.around listing) below)
    (htop : (task.slotOnTop target.length 1).Answered (task.around listing) top) :
    Post (borrowForTarget fw target)
      (Chooses origin fw listing task (task.forTarget target.start above below top))
      (fun _ => False) s := by
  have halign : Address.isPowerOfTwo 1 = true := by decide
  unfold borrowForTarget forTarget
  rw [post_bind_iff, post_books_iff, h.same]
  split
  case isTrue =>
    rw [post_bind_iff, post_note_iff]
    exact within_chooses hv halign (h.note _) habove
  case isFalse =>
    refine orElse_chooses (within_chooses hv halign h habove) fun s₁ h₁ => orElse_chooses ?_
      fun s₂ h₂ => orElse_chooses (within_chooses hv halign h₂ hbelow) fun s₃ h₃ =>
        borrowInPostArea_chooses hv halign h₃ htop
    split
    case isTrue => exact borrowInPostArea_chooses hv halign h₁ htop
    case isFalse => exact ⟨rfl, h₁⟩

omit hv in
/-- What will be RAM are the regions and what a steady firmware lists. -/
theorem ramExtents_poised {R : Running φ → Prop} (h : Poised origin fw listing task s) :
    Post (ramExtents fw) (fun ram s' => ram = task.heap.regions.map (·.extent) ++ listing ∧
      Poised origin fw listing task s') R s := by
  obtain ⟨rfl, hkept, hsteady⟩ := h
  unfold ramExtents
  rw [post_bind_iff, post_books_iff, post_bind_iff, post_call_iff]
  refine ⟨by rw [hsteady.listed], rfl, ?_, hsteady.available⟩
  exact ⟨⟨hkept.owes.heap, hkept.owes.blocks, trivial⟩, hkept.chunks⟩

/-- **The source of a wish** is the choice among the slots in place, in order and on top. -/
theorem borrowForWish_chooses {wish : Wish} {inPlace ordered top : Option Extent}
    (halign : Address.isPowerOfTwo wish.align = true) (h : Poised origin fw listing task s)
    (hplace : (slotInPlace wish).Answered (task.around listing) inPlace)
    (hordered : (task.slotInOrder wish.window wish.size wish.align).Answered
      (task.around listing) ordered)
    (htop : (task.slotOnTop wish.size wish.align).Answered (task.around listing) top) :
    Post (borrowForWish fw wish) (fun outcome s' =>
      match outcome with
      | none => task.forWish listing wish inPlace ordered top = none ∧
          Poised origin fw listing task s'
      | some (source, target) => ∃ c,
          task.forWish listing wish inPlace ordered top = some (c, target) ∧
            c.source = source.extent ∧ s'.task.marks = c.mark task.marks) (fun _ => False) s := by
  unfold borrowForWish
  refine (borrowSource_steady hv halign h).bind fun outcome s₁ h₁ => ?_
  cases outcome with
  | some source =>
      rw [hplace.unique h₁.1]
      exact ⟨.ordinary source.extent, rfl, rfl, h₁.2⟩
  | none =>
      rw [hplace.unique h₁.1]
      refine (ramExtents_poised h₁.2).bind ?_
      rintro _ ⟨task', firmware, notices⟩ ⟨rfl, h₂⟩
      obtain rfl : task = task' := h₂.same.symm
      rw [post_bind_iff, post_books_iff]
      cases hselect : wish.select? (task.heap.regions.map (·.extent) ++ listing)
          (task.chunks.map (·.target)) with
      | none => exact ⟨by simp [forWish, hselect], h₂⟩
      | some target =>
          dsimp only
          rw [post_bind_iff, post_note_iff, post_bind_iff, post_books_iff, post_bind_iff,
            post_note_iff, post_bind_iff]
          have h₃ := (h₂.note (.targetSelected target)).note
            (.limits (task.orderLimits wish.window).1 (task.orderLimits wish.window).2)
          refine (orElse_chooses (within_chooses hv halign h₃ hordered) fun s₄ h₄ =>
            borrowInPostArea_chooses hv halign h₄ htop).mono (fun outcome s₄ h₄ => ?_) fun _ => id
          cases outcome with
          | none => exact ⟨by simp [forWish, hselect, h₄.1], h₄.2⟩
          | some source =>
              obtain ⟨c, hc, hsource⟩ := h₄
              exact ⟨c, by simp [forWish, hselect, hc], hsource⟩

end Order

/-! ### Calls -/

/-- What holds of the way in which an action ends, whether with a value or with an error; a trap may
come before either. -/
def Concludes {α : Type} (x : Action φ α) (Q : α → Running φ → Prop)
    (E : Error → Running φ → Prop) (s : Running φ) : Prop :=
  match x s with
  | .ok value s' => Q value s'
  | .error (.error cause) s' => E cause s'
  | .error (.trap _) _ => True

section Concludes

variable {α β : Type} {x y : Action φ α} {Q : α → Running φ → Prop} {E : Error → Running φ → Prop}

theorem Concludes.of_eq {s' : Running φ} (hsame : x s = y s') (h : Concludes y Q E s') :
    Concludes x Q E s := by
  unfold Concludes at h ⊢
  rwa [hsame]

theorem Concludes.of_error {cause : Error} {s' : Running φ} (hend : x s = .error (.error cause) s')
    (h : E cause s') : Concludes x Q E s := by
  unfold Concludes
  rw [hend]
  exact h

/-- What holds of an action that ends with an error may be shown by itself. -/
theorem Concludes.and_error {F : Error → Running φ → Prop} (h : Concludes x Q E s)
    (herror : ∀ cause s', x s = .error (.error cause) s' → F cause s') :
    Concludes x Q (fun cause s' => E cause s' ∧ F cause s') s := by
  unfold Concludes at h ⊢
  split at h
  case h_1 => exact h
  case h_2 cause s' hend => exact ⟨h, herror cause s' hend⟩
  case h_3 => trivial

/-- An action without errors ends with a value. -/
theorem Post.concludes (h : Post x Q (fun _ => False) s) : Concludes x Q E s := by
  unfold Concludes
  split
  case h_1 hend => exact h.of_ok hend
  case h_2 hend => exact (h.of_error hend).elim
  case h_3 => trivial

/-- An action behind one that has no error ends as it does there. -/
theorem concludes_bind {f : α → Action φ β} {P : α → Running φ → Prop} {Q : β → Running φ → Prop}
    (h : Post x P (fun _ => False) s) (hf : ∀ value s', P value s' → Concludes (f value) Q E s') :
    Concludes (x >>= f) Q E s := by
  cases hend : x s with
  | ok value s' =>
      exact .of_eq (bind_of_ok hend f) (hf value s' (h.of_ok hend))
  | error cause s' =>
      unfold Concludes
      rw [bind_of_error hend]
      cases cause with
      | error cause => exact (h.of_error hend).elim
      | trap cause => trivial

end Concludes

/-- What a call relies on: a search comes to an end, and the code has room for another mover. -/
structure Ample (fw : Firmware φ) (gen : Code.Generator γ) (s : Running φ) : Prop
    extends Searchable fw s where
  code : ∀ direction, s.task.codeSize + gen.moverSize direction < Address.limit

/-- The first of two actions does not trap if both together do not. -/
theorem Ends.not_trap {α β : Type} {x : Action φ α} {f : α → Action φ β} {E : Error → Prop}
    {cause : Trap} {s' : Running φ} (h : Ends (x >>= f) E s) :
    x s ≠ .error (.trap cause) s' := by
  intro htrap
  unfold Ends at h
  rw [bind_of_error htrap] at h
  exact h

/-- A call that has what it relies on does not trap. -/
theorem Ample.ends (h : Ample fw gen s) (hv : origin.Valid)
    (hstaged : Staged origin (fun _ _ => True) s) (command : Command γ) :
    Ends (perform fw gen command) Error.OfRequest s := by
  have hleads := hstaged.leads fw
  have hthawed := (hleads.owes.heap.frozen hv).symm.trans h.thawed
  exact perform_ends hv hthawed (fw.tracks_leads s.firmware) (h.room hstaged) h.code hleads command

/-- What a call is to do: it is rejected, or there is no memory for it, or it has a source and a
target. -/
def verdict (rejected : Option Error) (choice : Option (Choice × Extent)) :
    Except Error (Choice × Extent) :=
  match rejected, choice with
  | some cause, _ => .error cause
  | none, none => .error .outOfMemory
  | none, some chosen => .ok chosen

/-- A call does what it is to do: it yields what it is told to and counts in a chunk with the source
and the target, or it ends with the error and leaves the books alone.  It does not trap when it is
to be rejected, and otherwise only where it could not rely on what a call relies on. -/
structure Abides {α : Type} (fw : Firmware φ) (gen : Code.Generator γ) (s : Running φ)
    (rejected : Option Error) (choice : Option (Choice × Extent)) (result : Choice × Extent → α)
    (action : Action φ α) : Prop where
  ends : Concludes action (fun value s' => ∃ chosen target loans,
      verdict rejected choice = .ok (chosen, target) ∧ value = result (chosen, target) ∧
        s'.task.marks = (chosen.mark s.task.marks).count gen ⟨chosen.source, target, loans⟩)
    (fun cause s' => verdict rejected choice = .error cause ∧ s'.task = s.task) s
  trap : ∀ cause s', action s = .error (.trap cause) s' → rejected = none ∧ ¬ Ample fw gen s

/-- A firmware that grants all that it is asked for, and lists the gap of the small heap. -/
def openFirmware : Firmware.Table where
  available := [smallGap]
  cover := .any

end Task

end Staging

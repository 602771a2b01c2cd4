import Staging.Proofs.Task.Safety

/-!
# Listings in another form

A firmware may list the same memory in another order, list an extent twice, or cut one into two that
touch (`Rearranged`), and answer all else as before (`Firmware.Represents`).  A search cannot tell
the two listings apart, since both have the same bytes.  So a chunk with a fixed target is staged in
the same way (`stageAt_represents`).

The target of a flexible chunk that is not in place is told by the extents themselves: it has to lie
inside one of them.  A cut through every extent with room for it takes such a place away
(`Loses`), and that is the only way to tell the listings apart (`stage_of_represents`).
-/

namespace Staging

/-! ### Listings -/

/-- The second listing has the memory of the first in another form. -/
inductive Rearranged : List Extent → List Extent → Prop where
  | perm {l l' : List Extent} (h : l.Perm l') : Rearranged l l'
  | repeated {l : List Extent} {e : Extent} (h : e ∈ l) : Rearranged l (e :: l)
  | cut {before after : List Extent} {e low high : Extent} (hlow : low.start = e.start)
      (hnelow : low.start < low.stop) (htouch : low.stop = high.start)
      (hnehigh : high.start < high.stop) (hhigh : high.stop = e.stop) :
      Rearranged (before ++ e :: after) (before ++ low :: high :: after)
  | trans {l l' l'' : List Extent} (h : Rearranged l l') (h' : Rearranged l' l'') :
      Rearranged l l''

namespace Rearranged

variable {l l' : List Extent}

theorem refl (l : List Extent) : Rearranged l l := .perm (.refl l)

theorem cons (e : Extent) (h : Rearranged l l') : Rearranged (e :: l) (e :: l') := by
  induction h with
  | perm h => exact .perm (h.cons e)
  | @repeated l a ha => exact .trans (.repeated (List.mem_cons_of_mem e ha)) (.perm (.swap e a l))
  | @cut before after a low high hlow hnelow htouch hnehigh hhigh =>
      exact @Rearranged.cut (e :: before) after a low high hlow hnelow htouch hnehigh hhigh
  | trans _ _ ih ih' => exact ih.trans ih'

/-- Every extent of the second listing lies inside of one of the first. -/
theorem exists_covers (h : Rearranged l l') : ∀ e' ∈ l', ∃ e ∈ l, e.covers e' = true := by
  have within (e : Extent) : e.covers e = true :=
    Extent.covers_iff.2 ⟨Nat.le_refl _, Nat.le_refl _⟩
  induction h with
  | perm h => exact fun e he => ⟨e, h.mem_iff.2 he, within e⟩
  | @repeated l a ha =>
      intro e he
      rcases List.mem_cons.1 he with rfl | he
      · exact ⟨e, ha, within e⟩
      · exact ⟨e, he, within e⟩
  | @cut before after a low high hlow hnelow htouch hnehigh hhigh =>
      intro e he
      have hmem : a ∈ before ++ a :: after := List.mem_append_right _ List.mem_cons_self
      have hold {b : Extent} (hb : b ∈ before ∨ b ∈ after) : b ∈ before ++ a :: after :=
        List.mem_append.2 (hb.imp_right (List.mem_cons_of_mem a))
      rcases List.mem_append.1 he with he | he
      · exact ⟨e, hold (.inl he), within e⟩
      rcases List.mem_cons.1 he with rfl | he
      · exact ⟨a, hmem, Extent.covers_iff.2 (by omega)⟩
      rcases List.mem_cons.1 he with rfl | he
      · exact ⟨a, hmem, Extent.covers_iff.2 (by omega)⟩
      · exact ⟨e, hold (.inr he), within e⟩
  | trans _ _ ih ih' =>
      intro e he
      obtain ⟨e', he', hcovers'⟩ := ih' e he
      obtain ⟨e'', he'', hcovers⟩ := ih e' he'
      have hinner := Extent.covers_iff.1 hcovers'
      have houter := Extent.covers_iff.1 hcovers
      exact ⟨e'', he'', Extent.covers_iff.2 (by omega)⟩

/-- **Both listings have the same bytes.** -/
theorem exists_mem_iff (h : Rearranged l l') (x : Nat) :
    (∃ e ∈ l, x ∈ e) ↔ ∃ e ∈ l', x ∈ e := by
  refine ⟨?_, fun ⟨e, he, hx⟩ => ?_⟩
  · induction h with
    | perm h => exact fun ⟨e, he, hx⟩ => ⟨e, h.mem_iff.1 he, hx⟩
    | repeated _ => exact fun ⟨e, he, hx⟩ => ⟨e, List.mem_cons_of_mem _ he, hx⟩
    | @cut before after a low high hlow hnelow htouch hnehigh hhigh =>
        rintro ⟨e, he, hlo, hhi⟩
        have hold {b : Extent} (hb : b ∈ before ∨ b ∈ after) :
            b ∈ before ++ low :: high :: after :=
          List.mem_append.2
            (hb.imp_right fun hb => List.mem_cons_of_mem _ (List.mem_cons_of_mem _ hb))
        rcases List.mem_append.1 he with he | he
        · exact ⟨e, hold (.inl he), hlo, hhi⟩
        rcases List.mem_cons.1 he with rfl | he
        · by_cases hbelow : x < low.stop
          · exact ⟨low, by simp, by omega, hbelow⟩
          · exact ⟨high, by simp, by omega, by omega⟩
        · exact ⟨e, hold (.inr he), hlo, hhi⟩
    | trans _ _ ih ih' => exact fun hx => ih' (ih hx)
  · obtain ⟨e', he', hcovers⟩ := h.exists_covers e he
    exact ⟨e', he', Extent.mem_of_covers hcovers hx⟩

end Rearranged

/-- The first firmware lists the memory of the second in another form, and answers all else as that
one does. -/
structure Firmware.Represents {φ : Type} (fw' fw : Firmware φ) : Prop where
  reserve : fw'.reserve = fw.reserve
  release : fw'.release = fw.release
  state : ∀ f, (fw'.available f).state = (fw.available f).state
  notices : ∀ f, (fw'.available f).notices = (fw.available f).notices
  listing : ∀ f, Rearranged (fw.available f).value (fw'.available f).value

/-- The extent in two parts, if the address lies inside of it. -/
def Extent.cutAt (e : Extent) (cut : Nat) : List Extent :=
  if h : e.start < cut ∧ cut < e.stop then
    [⟨e.start, cut, Nat.le_of_lt h.1, Nat.lt_trans h.2 e.stop_lt⟩,
      ⟨cut, e.stop, Nat.le_of_lt h.2, e.stop_lt⟩]
  else
    [e]

/-- The firmware that lists every extent cut at an address. -/
def Firmware.cutAt {φ : Type} (fw : Firmware φ) (cut : Nat) : Firmware φ where
  eventCapacity f := 2 * ((fw.available f).value.flatMap (·.cutAt cut)).length
  available f := { fw.available f with value := (fw.available f).value.flatMap (·.cutAt cut) }
  reserve := fw.reserve
  release := fw.release

theorem rearranged_cutAt (l : List Extent) (cut : Nat) :
    Rearranged l (l.flatMap (·.cutAt cut)) := by
  induction l with
  | nil => exact .refl _
  | cons e rest ih =>
      rw [List.flatMap_cons, Extent.cutAt]
      split
      case isTrue h =>
        refine .trans (ih.cons e) ?_
        exact @Rearranged.cut [] _ e _ _ rfl h.1 rfl h.2 rfl
      case isFalse => exact ih.cons e

theorem Firmware.represents_cutAt {φ : Type} (fw : Firmware φ) (cut : Nat) :
    (fw.cutAt cut).Represents fw :=
  ⟨rfl, rfl, fun _ => rfl, fun _ => rfl, fun _ => rearranged_cutAt _ cut⟩

namespace Task

variable {φ α β γ : Type} {origin : Heap} {fw fw' : Firmware φ} {gen : Code.Generator γ}
  {gens : Code.Generator γ → Prop}
  {track : φ → List Extent → Prop} {chunks : List Chunk} {s : Running φ}

/-- The intervals of a search cover the same bytes if the listings do. -/
theorem over_intervals_congr {task : Task} {l l' : List Extent}
    (h : ∀ x, (∃ e ∈ l, x ∈ e) ↔ ∃ e ∈ l', x ∈ e) (kind : IntervalKind) (x : Nat) :
    Over (task.intervals l) kind x ↔ Over (task.intervals l') kind x := by
  have hlisted (l : List Extent) : Over (l.map (⟨.firmwareAvailable, ·, none⟩)) kind x ↔
      kind = .firmwareAvailable ∧ ∃ e ∈ l, x ∈ e := by
    constructor
    · rintro ⟨i, hi, hkind, hx⟩
      obtain ⟨e, he, rfl⟩ := List.mem_map.1 hi
      exact ⟨hkind.symm, e, he, hx⟩
    · rintro ⟨rfl, e, he, hx⟩
      exact ⟨_, List.mem_map_of_mem he, rfl, hx⟩
  rw [intervals, intervals, over_append, over_append, over_append, over_append, hlisted, hlisted, h]

/-! ### Rules -/

/-- Two actions that are alike here go on alike in the states that they lead to. -/
theorem bind_congr_of_post {x y : Action φ α} {f g : α → Action φ β}
    {P : α → Running φ → Prop} {R : Running φ → Prop} (hxy : y s = x s) (hx : Post x P R s)
    (h : ∀ value s', P value s' → g value s' = f value s') : (y >>= g) s = (x >>= f) s := by
  cases hend : x s with
  | ok value s' =>
      rw [bind_of_ok hend, bind_of_ok (hxy.trans hend)]
      exact h value s' (hx.of_ok hend)
  | error cause s' => rw [bind_of_error hend, bind_of_error (hxy.trans hend)]

theorem within_congr {low high : Nat} {x y : Extent → Action φ (Option α)}
    (h : ∀ window, y window s = x window s) : within low high y s = within low high x s := by
  unfold within
  cases Extent.ofBounds? low high with
  | none => rfl
  | some window => exact h window

theorem orElse_congr {x x' y y' : Action φ (Option α)} {Q : Option α → Running φ → Prop}
    {R : Running φ → Prop} (hxy : y s = x s) (hx : Post x Q R s)
    (h : ∀ s', Q none s' → y' s' = x' s') : orElse y y' s = orElse x x' s := by
  unfold orElse
  refine bind_congr_of_post hxy hx fun outcome s' houtcome => ?_
  cases outcome with
  | some value => rfl
  | none => exact h s' houtcome

/-! ### Borrowing and giving back -/

section Borrowing

variable (hsame : fw'.Represents fw)
include hsame

theorem borrow_represents : borrow fw' = borrow fw := by
  funext piece
  unfold borrow
  rw [hsame.reserve]

theorem giveBack_represents : giveBack fw' = giveBack fw := by
  funext loan
  unfold giveBack
  rw [hsame.release]

theorem borrowEach_represents : borrowEach fw' = borrowEach fw := by
  funext pieces loans
  induction pieces generalizing loans with
  | nil => rfl
  | cons piece rest ih =>
      simp only [borrowEach, borrow_represents hsame, giveBackAll, giveBack_represents hsame, ih]

theorem borrowAll_represents : borrowAll fw' = borrowAll fw := by
  funext pieces
  rw [borrowAll, borrowAll, borrowEach_represents hsame]

end Borrowing

/-! ### Sources -/

/-- While a task owes nothing but the loans of these chunks, a search has the same room with both
firmwares. -/
def AlikeRoom (fw' fw : Firmware φ) (origin : Heap) (track : φ → List Extent → Prop)
    (chunks : List Chunk) : Prop :=
  ∀ s, Kept origin track chunks [] s → SameRoom fw' fw s.task s.firmware

/-- A call of both firmwares for their listings leads to one state. -/
theorem call_available_represents (hsame : fw'.Represents fw) (s : Running φ) :
    ∃ s', call fw.available s = .ok (fw.available s.firmware).value s' ∧
      call fw'.available s = .ok (fw'.available s.firmware).value s' ∧ s'.task = s.task := by
  refine ⟨_, rfl, ?_, rfl⟩
  rw [← hsame.state, ← hsame.notices]
  rfl

/-- The state behind the listing is one state as well. -/
theorem listed_represents (hsame : fw'.Represents fw) (s : Running φ) :
    s.listed fw' = s.listed fw := by
  unfold Running.listed
  rw [hsame.state, hsame.notices]

/-- A search finds the same in intervals that cover the same bytes. -/
theorem search_congr {intervals intervals' : List Interval} (hv : s.task.heap.Valid)
    (hkinds : ∀ i ∈ intervals, i.kind ≠ .regionHead ∧ i.kind ≠ .regionBody)
    (hkinds' : ∀ i ∈ intervals', i.kind ≠ .regionHead ∧ i.kind ≠ .regionBody)
    (hover : ∀ kind x, Over intervals kind x ↔ Over intervals' kind x) (request : Request) :
    search intervals' request s = search intervals request s := by
  unfold search
  refine bind_congr_of_post rfl (post_self _) fun task s₁ hbooks => ?_
  cases hbooks
  have hfrozen : Post (orTrap s.task.heap.freeze)
      (fun frozen _ => s.task.heap.freeze = .ok frozen) (fun _ => True) s := post_orTrap fun _ => id
  refine bind_congr_of_post rfl hfrozen fun frozen s₂ hfreeze => ?_
  obtain ⟨-, rfl⟩ := Heap.freeze_eq_ok_iff.1 hfreeze
  have hvalid : Heap.Valid { s.task.heap with frozen := true } :=
    ⟨hv.regions, hv.ordered, hv.unique, hv.fresh⟩
  rw [Heap.search_congr hvalid hkinds hkinds' hover]

section Sources

variable (hv : origin.Valid) (hfw : fw.Tracks track) (hsame : fw'.Represents fw)
  (hroom : AlikeRoom fw' fw origin track chunks)
include hv hfw hsame hroom

omit hfw in
theorem attempt_represents (request : Request) (h : Kept origin track chunks [] s) :
    attempt fw' request s = attempt fw request s := by
  have hnoted : Post (note (.searching request)) (fun _ => Kept origin track chunks [])
      (fun _ => True) s := h.note _
  unfold attempt
  rw [borrowAll_represents hsame]
  refine bind_congr_of_post rfl hnoted fun _ s₁ h₁ => ?_
  rcases collect_alike (listed_represents hsame s₁) (hroom s₁ h₁) with
    ⟨cause, s₂, hcollect', hcollect⟩ | ⟨hcollect', hcollect⟩
  · rw [bind_of_error hcollect', bind_of_error hcollect]
  · rw [bind_of_ok hcollect', bind_of_ok hcollect]
    have hvalid : (s₁.listed fw).task.heap.Valid := h₁.owes.heap.valid hv
    have hover := @over_intervals_congr s₁.task _ _ (hsame.listing s₁.firmware).exists_mem_iff
    exact bind_congr_of_post
      (search_congr hvalid kind_of_mem_intervals kind_of_mem_intervals hover request)
      (post_trivial _) fun _ _ _ => rfl

/-- **A source is borrowed in the same way**, whatever the form of the listing. -/
theorem borrowSource_represents (request : Request) (h : Kept origin track chunks [] s) :
    borrowSource fw' request s = borrowSource fw request s := by
  induction request using borrowSource.induct generalizing s with
  | case1 request ih =>
      rw [borrowSource, borrowSource]
      refine bind_congr_of_post (attempt_represents hv hsame hroom request h)
        (attempt_spec hv hfw h) fun outcome s₁ houtcome => ?_
      cases outcome with
      | exhausted => rfl
      | borrowed source => rfl
      | refused piece =>
          have hnoted := Kept.note houtcome (.refused piece)
          refine (bind_of_ok rfl _).trans (Eq.trans ?_ (bind_of_ok rfl _).symm)
          generalize hretry : request.retry? piece = retry
          cases retry with
          | none => rfl
          | some next => exact ih piece next hretry hnoted

/-! ### Policies -/

theorem borrowInPostArea_represents (size align : Nat) (h : Kept origin track chunks [] s) :
    borrowInPostArea fw' size align s = borrowInPostArea fw size align s := by
  unfold borrowInPostArea
  rw [bind_of_ok (books_eq s), bind_of_ok (books_eq s)]
  refine within_congr fun window => ?_
  exact bind_congr_of_post (borrowSource_represents hv hfw hsame hroom _ h) (post_trivial _)
    fun _ _ _ => rfl

/-- The source of a chunk with a fixed target is borrowed in the same way. -/
theorem borrowForTarget_represents (target : Extent) (h : Kept origin track chunks [] s) :
    borrowForTarget fw' target s = borrowForTarget fw target s := by
  have above {s : Running φ} (h : Kept origin track chunks [] s) :
      borrowAbove fw' target s = borrowAbove fw target s :=
    within_congr fun window => borrowSource_represents hv hfw hsame hroom _ h
  have below {s : Running φ} (h : Kept origin track chunks [] s) :
      borrowBelow fw' target s = borrowBelow fw target s :=
    within_congr fun window => borrowSource_represents hv hfw hsame hroom _ h
  have postArea {s : Running φ} (h : Kept origin track chunks [] s) :
      borrowInPostArea fw' target.length 1 s = borrowInPostArea fw target.length 1 s :=
    borrowInPostArea_represents hv hfw hsame hroom _ _ h
  have last {s : Running φ} (h : Kept origin track chunks [] s) :
      orElse (borrowBelow fw' target) (borrowInPostArea fw' target.length 1) s =
        orElse (borrowBelow fw target) (borrowInPostArea fw target.length 1) s :=
    orElse_congr (below h) (borrowBelow_spec hv hfw target h) fun _ h' => postArea h'
  unfold borrowForTarget
  rw [bind_of_ok (books_eq s), bind_of_ok (books_eq s)]
  split
  case isTrue => exact (bind_of_ok rfl _).trans ((above (h.note _)).trans (bind_of_ok rfl _).symm)
  case isFalse =>
    refine orElse_congr (above h) (borrowAbove_spec hv hfw target h) fun s₁ h₁ => ?_
    split
    case isTrue =>
      exact orElse_congr (postArea h₁) (borrowInPostArea_spec hv hfw _ _ h₁) fun s₂ h₂ => last h₂
    case isFalse =>
      have hnone : Post (pure none : Action φ (Option Source))
          (Brings origin track chunks target.length) (fun _ => True) s₁ := h₁
      exact orElse_congr rfl hnone fun s₂ h₂ => last h₂

/-- The source of a flexible chunk that is not in place is borrowed in the same way. -/
theorem borrowOrdered_represents (wish : Wish) (low high : Nat)
    (h : Kept origin track chunks [] s) :
    orElse (within low high fun limits =>
        borrowSource fw' ⟨limits, wish.size, wish.align, .ascending⟩)
      (borrowInPostArea fw' wish.size wish.align) s =
    orElse (within low high fun limits =>
        borrowSource fw ⟨limits, wish.size, wish.align, .ascending⟩)
      (borrowInPostArea fw wish.size wish.align) s := by
  have hbrings : Post (within low high fun limits =>
      borrowSource fw ⟨limits, wish.size, wish.align, .ascending⟩)
      (Brings origin track chunks wish.size) (Kept origin track chunks []) s :=
    post_within h fun limits =>
      borrowSource_brings hv hfw ⟨limits, wish.size, wish.align, .ascending⟩ h
  refine orElse_congr (within_congr fun limits => ?_) hbrings fun s' h' => ?_
  · exact borrowSource_represents hv hfw hsame hroom _ h
  · exact borrowInPostArea_represents hv hfw hsame hroom _ _ h'

end Sources

/-! ### Flexible chunks -/

/-- What is held to be RAM: the regions of the heap, and what the firmware lists now. -/
def Running.ram (s : Running φ) (fw : Firmware φ) : List Extent :=
  s.task.heap.regions.map (·.extent) ++ (fw.available s.firmware).value

/-- The search for a chunk in place ends with nothing, and there is a place for its target in the
listing of the second firmware but none in that of the first. -/
def Loses (fw' fw : Firmware φ) (wish : Wish) (s : Running φ) : Prop :=
  ∃ s₁ target,
    borrowSource fw ⟨wish.window, wish.size, wish.align, wish.preferred.heading⟩ s =
      .ok none s₁ ∧ wish.Slot (s₁.ram fw) target ∧ ¬ wish.Slot (s₁.ram fw') target

/-- A firmware that lists the same extents offers the same places. -/
theorem not_loses {wish : Wish}
    (hmem : ∀ f e, e ∈ (fw'.available f).value ↔ e ∈ (fw.available f).value) :
    ¬ Loses fw' fw wish s := by
  rintro ⟨s₁, target, -, ⟨hdvd, hfits, e, he, hroom⟩, hlost⟩
  refine hlost ⟨hdvd, hfits, e, ?_, hroom⟩
  rw [Running.ram, List.mem_append] at he ⊢
  rwa [hmem]

/-- A place in the form of a listing that may be cut is a place in the other. -/
theorem slot_of_represents (hsame : fw'.Represents fw) {wish : Wish} {target : Nat}
    (h : wish.Slot (s.ram fw') target) : wish.Slot (s.ram fw) target := by
  obtain ⟨hdvd, hfits, e', he', hroom⟩ := h
  rcases List.mem_append.1 he' with he' | he'
  · exact ⟨hdvd, hfits, e', List.mem_append_left _ he', hroom⟩
  · obtain ⟨e, he, hcovers⟩ := (hsame.listing s.firmware).exists_covers e' he'
    have houter := Extent.covers_iff.1 hcovers
    exact ⟨hdvd, hfits, e, List.mem_append_right _ he, by omega⟩

theorem ramExtents_represents (hsame : fw'.Represents fw) (s : Running φ) :
    ∃ s', ramExtents fw s = .ok (s.ram fw) s' ∧ ramExtents fw' s = .ok (s.ram fw') s' := by
  obtain ⟨s', hcall, hcall', -⟩ := call_available_represents hsame s
  refine ⟨s', ?_, ?_⟩
  · unfold ramExtents
    exact (bind_of_ok rfl _).trans (bind_of_ok hcall _)
  · unfold ramExtents
    exact (bind_of_ok rfl _).trans (bind_of_ok hcall' _)

section Flexible

variable (hv : origin.Valid) (hfw : fw.Tracks track) (hsame : fw'.Represents fw)
  (hroom : AlikeRoom fw' fw origin track chunks)
include hv hfw hsame hroom

/-- **A flexible chunk** gets its source and its target in the same way, unless the cut takes a
place for its target away. -/
theorem borrowForWish_represents (wish : Wish) (halign : Address.isPowerOfTwo wish.align = true)
    (h : Kept origin track chunks [] s) :
    borrowForWish fw' wish s = borrowForWish fw wish s ∨ Loses fw' fw wish s := by
  refine Classical.or_iff_not_imp_right.2 fun hkeeps => ?_
  have hplace := borrowSource_represents hv hfw hsame hroom
    ⟨wish.window, wish.size, wish.align, wish.preferred.heading⟩ h
  have hbrings := borrowSource_brings hv hfw
    ⟨wish.window, wish.size, wish.align, wish.preferred.heading⟩ h
  unfold borrowForWish
  cases hend : borrowSource fw ⟨wish.window, wish.size, wish.align, wish.preferred.heading⟩ s with
  | error cause s₁ => rw [bind_of_error hend, bind_of_error (hplace.trans hend)]
  | ok outcome s₁ =>
      rw [bind_of_ok hend, bind_of_ok (hplace.trans hend)]
      cases outcome with
      | some source => rfl
      | none =>
          have hkept : Kept origin track chunks [] s₁ := hbrings.of_ok hend
          have hslots (t : Nat) : wish.Slot (s₁.ram fw') t ↔ wish.Slot (s₁.ram fw) t := by
            refine ⟨slot_of_represents hsame, fun ht => ?_⟩
            by_contra hlost
            exact hkeeps ⟨s₁, t, hend, ht, hlost⟩
          obtain ⟨s₂, hram, hram'⟩ := ramExtents_represents hsame s₁
          have hkept' := (ramExtents_spec (R := fun _ => True) hfw hkept).of_ok hram
          dsimp only
          rw [bind_of_ok hram, bind_of_ok hram', bind_of_ok (books_eq s₂),
            bind_of_ok (books_eq s₂), Wish.select?_congr halign hslots]
          cases wish.select? (s₁.ram fw) (s₂.task.chunks.map (·.target)) with
          | none => rfl
          | some target =>
              refine (bind_of_ok rfl _).trans (Eq.trans ?_ (bind_of_ok rfl _).symm)
              refine (bind_of_ok rfl _).trans (Eq.trans ?_ (bind_of_ok rfl _).symm)
              refine (bind_of_ok rfl _).trans (Eq.trans ?_ (bind_of_ok rfl _).symm)
              have hnoted := (hkept'.note (.targetSelected target)).note
                (.limits (s₂.task.orderLimits wish.window).1 (s₂.task.orderLimits wish.window).2)
              exact bind_congr_of_post (borrowOrdered_represents hv hfw hsame hroom wish _ _ hnoted)
                (post_trivial _) fun _ _ _ => rfl

/-! ### Calls -/

/-- **A chunk with a fixed target is staged in the same way.** -/
theorem stageAt_represents (target size : Nat) (h : Kept origin track chunks [] s) :
    stageAt fw' gen target size s = stageAt fw gen target size s := by
  unfold stageAt
  by_cases hsize : size = 0
  · rw [if_pos hsize, if_pos hsize]
  rw [if_neg hsize, if_neg hsize]
  cases Extent.ofLength? target size with
  | none => rfl
  | some extent =>
      dsimp only
      rw [bind_of_ok (books_eq s), bind_of_ok (books_eq s)]
      by_cases htouches : s.task.touchesTarget extent = true
      · rw [if_pos htouches, if_pos htouches]
      rw [if_neg htouches, if_neg htouches]
      exact bind_congr_of_post (borrowForTarget_represents hv hfw hsame hroom extent h)
        (post_trivial _) fun _ _ _ => rfl

/-- **A flexible chunk is staged in the same way**, unless the cut takes a place for its target
away. -/
theorem stageWithin_represents (low high size align : Nat) (preferred : WindowEnd)
    (h : Kept origin track chunks [] s) :
    stageWithin fw' gen low high size align preferred s =
        stageWithin fw gen low high size align preferred s ∨
      ∃ window, Extent.ofBounds? low high = some window ∧
        Loses fw' fw ⟨window, size, align, preferred⟩ s := by
  unfold stageWithin
  by_cases hsize : size = 0
  · rw [if_pos hsize, if_pos hsize]
    exact .inl rfl
  rw [if_neg hsize, if_neg hsize]
  cases halign : Address.isPowerOfTwo align with
  | false =>
      rw [if_pos (Bool.not_false), if_pos (Bool.not_false)]
      exact .inl rfl
  | true =>
      rw [if_neg (by decide), if_neg (by decide)]
      cases hwindow : (Extent.ofBounds? low high).filter (size ≤ ·.length) with
      | none =>
          dsimp only
          exact .inl rfl
      | some window =>
          dsimp only
          refine (borrowForWish_represents hv hfw hsame hroom ⟨window, size, align, preferred⟩
            halign h).imp (fun hwish => ?_) fun hloses => ?_
          · exact bind_congr_of_post hwish (post_trivial _) fun _ _ _ => rfl
          · exact ⟨window, (Option.filter_eq_some_iff.1 hwindow).1, hloses⟩

end Flexible

/-! ### States that are reached -/

/-- **Staging does not depend on the form of the listing**, but for a cut.  In every state that is
reached, a chunk with a fixed target is staged in the same way whatever the form, and a flexible
chunk if the same extents are listed.  If one is cut, either a flexible chunk is staged in the same
way, or there is no room for it in place and the cut takes a place for its target away. -/
theorem stage_of_represents {firmware : φ} (horigin : origin.Reachable)
    (h : Reach fw gens origin firmware s) (hsame : fw'.Represents fw)
    (hevents : ∀ state, fw.Leads s.firmware state → SameRoom fw' fw s.task state) :
    (∀ target size, stageAt fw' gen target size s = stageAt fw gen target size s) ∧
    ((∀ f e, e ∈ (fw'.available f).value ↔ e ∈ (fw.available f).value) →
      ∀ low high size align preferred, stageWithin fw' gen low high size align preferred s =
        stageWithin fw gen low high size align preferred s) ∧
    ∀ low high size align preferred, stageWithin fw' gen low high size align preferred s =
        stageWithin fw gen low high size align preferred s ∨
      ∃ window, Extent.ofBounds? low high = some window ∧
        Loses fw' fw ⟨window, size, align, preferred⟩ s := by
  have hv := horigin.valid
  have hfw := fw.tracks_leads s.firmware
  have hkept := ((h.staged hv fw.tracks_nothing trivial).leads fw).kept
  have hroom : AlikeRoom fw' fw origin (fun state _ => fw.Leads s.firmware state)
      s.task.chunks := fun s' hs' =>
    (hevents _ hs'.owes.tracked).congr (hkept.demands_eq hs' fw' _) (hkept.demands_eq hs' fw _)
  refine ⟨fun target size => stageAt_represents hv hfw hsame hroom target size hkept,
    fun hmem low high size align preferred => ?_,
    fun low high size align preferred =>
      stageWithin_represents hv hfw hsame hroom low high size align preferred hkept⟩
  rcases stageWithin_represents hv hfw hsame hroom low high size align preferred hkept with
    hstage | ⟨window, -, hloses⟩
  · exact hstage
  · exact absurd hloses (not_loses hmem)

/-- A firmware that grants what lies inside of its listed memory, however that is cut. -/
def uncutFirmware : Firmware.Table where
  available := [.ofBoundsD 0x1000 0x3000, .ofBoundsD 0x10000 0x20000]
  cover := .union

/-- Only a target that takes all of the first listed extent lies inside of the window.  If that
extent is listed in two parts which touch, there is no place for it. -/
theorem target_lost_by_cut : ∃ (s s₁ s₂ : Running Firmware.Table),
    run? Firmware.ofTable smallGenerator [.stageAt 0x800 0x100]
        { task := Task.start {} smallGenerator, firmware := uncutFirmware } = some s ∧
      (Firmware.ofTable.cutAt 0x2000).Represents Firmware.ofTable ∧
      stageWithin Firmware.ofTable smallGenerator 0x1000 0x3000 0x2000 1 .low s =
        .ok (0x10000, 0x1000) s₁ ∧
      stageWithin (Firmware.ofTable.cutAt 0x2000) smallGenerator 0x1000 0x3000 0x2000 1 .low s =
        .error (.error .outOfMemory) s₂ := by
  have hends : (run? Firmware.ofTable smallGenerator [.stageAt 0x800 0x100]
      { task := Task.start {} smallGenerator, firmware := uncutFirmware }).map (fun s =>
        match stageWithin Firmware.ofTable smallGenerator 0x1000 0x3000 0x2000 1 .low s,
          stageWithin (Firmware.ofTable.cutAt 0x2000) smallGenerator 0x1000 0x3000 0x2000 1 .low
            s with
        | .ok addresses _, .error cause _ => some (addresses, cause)
        | _, _ => none) = some (some ((0x10000, 0x1000), .error .outOfMemory)) := by
    decide +kernel
  obtain ⟨s, hrun, hend⟩ := Option.map_eq_some_iff.1 hends
  split at hend
  case h_1 addresses s₁ cause s₂ hwhole hcut =>
    obtain ⟨rfl, rfl⟩ := Prod.ext_iff.1 (Option.some.inj hend)
    exact ⟨s, s₁, s₂, hrun, Firmware.represents_cutAt _ _, hwhole, hcut⟩
  case h_2 => cases hend

/-- A table and the table that is cut make the same room always. -/
theorem sameRoom_of_leads {t t' : Firmware.Table} {task : Task} {cut : Nat}
    (h : Firmware.ofTable.Leads t t')
    (hroom : SameRoom (Firmware.ofTable.cutAt cut) Firmware.ofTable task t) :
    SameRoom (Firmware.ofTable.cutAt cut) Firmware.ofTable task t' := by
  obtain ⟨hlisting, hnumber⟩ := table_of_leads h
  refine hroom.congr ?_ ?_
  · simp only [announced, gathered, Firmware.cutAt, Firmware.ofTable, hlisting, and_self]
  · simp only [announced, gathered, Firmware.ofTable, hlisting, hnumber, and_self]

/-- The cut takes the place for a flexible chunk away, but not the one for a fixed target. -/
theorem stage_of_represents_cut : ∃ (s s₁ : Running Firmware.Table) (window : Extent),
    run? Firmware.ofTable smallGenerator [.stageAt 0x800 0x100]
        { task := Task.start {} smallGenerator, firmware := uncutFirmware } = some s ∧
      stageAt Firmware.ofTable smallGenerator 0x900 0x1f00 s = .ok 0x1100 s₁ ∧
      stageAt (Firmware.ofTable.cutAt 0x2000) smallGenerator 0x900 0x1f00 s = .ok 0x1100 s₁ ∧
      Extent.ofBounds? 0x1000 0x3000 = some window ∧
      Loses (Firmware.ofTable.cutAt 0x2000) Firmware.ofTable ⟨window, 0x2000, 1, .low⟩ s := by
  have hends : (run? Firmware.ofTable smallGenerator [.stageAt 0x800 0x100]
      { task := Task.start {} smallGenerator, firmware := uncutFirmware }).map (fun s =>
        ((s.task.announced Firmware.ofTable s.firmware, s.task.gathered Firmware.ofTable s.firmware,
          s.task.announced (Firmware.ofTable.cutAt 0x2000) s.firmware,
          s.task.gathered (Firmware.ofTable.cutAt 0x2000) s.firmware),
          match stageAt Firmware.ofTable smallGenerator 0x900 0x1f00 s with
          | .ok source _ => some source
          | .error _ _ => none,
          match stageWithin Firmware.ofTable smallGenerator 0x1000 0x3000 0x2000 1 .low s,
            stageWithin (Firmware.ofTable.cutAt 0x2000) smallGenerator 0x1000 0x3000 0x2000 1 .low
              s with
          | .ok _ _, .error _ _ => true
          | _, _ => false)) =
      some ((10, 10, 12, 12), some 0x1100, true) := by
    decide +kernel
  obtain ⟨s, hrun, hend⟩ := Option.map_eq_some_iff.1 hends
  simp only [Prod.mk.injEq] at hend
  obtain ⟨⟨hannounced, hgathered, hannounced', hgathered'⟩, hfixed, hdiffer⟩ := hend
  have hroom : SameRoom (Firmware.ofTable.cutAt 0x2000) Firmware.ofTable s.task s.firmware := by
    constructor
    · rw [hannounced, hannounced']
      decide
    · rw [hannounced, hannounced']
      decide
    · rw [hgathered, hgathered']
      decide
  obtain ⟨hat, -, hwithin⟩ := stage_of_represents .empty (reach_of_run? hrun)
    (Firmware.represents_cutAt Firmware.ofTable 0x2000) fun _ hleads =>
      sameRoom_of_leads hleads hroom
  split at hfixed
  case h_2 => cases hfixed
  case h_1 source s₁ hstage =>
    cases hfixed
    rcases hwithin 0x1000 0x3000 0x2000 1 .low with hsame | ⟨window, hwindow, hloses⟩
    · rw [hsame] at hdiffer
      split at hdiffer
      case h_1 hwhole hcut => cases hwhole.symm.trans hcut
      case h_2 => cases hdiffer
    · exact ⟨s, s₁, window, hrun, hstage, (hat _ _).trans hstage, hwindow, hloses⟩

end Task

end Staging

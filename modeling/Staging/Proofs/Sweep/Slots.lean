import Staging.Proofs.Sweep.Basic

/-!
# A search is exact

A slot of a request is an aligned place inside the window whose every byte can be borrowed
(`Request.Slot`).  A search finds the first slot along its heading, and it finds nothing only if
there is none (`Sweep.find_exact`).

The bytes of a slot lie in one usable stretch, and the sweep leaves each stretch just where it ends.
So a slot that is not behind the sweep yet lies in the stretch at hand or further on
(`Remains`), and what is fitted into a stretch is the first slot in it (`fit_complete`).
-/

namespace Staging

/-- A sweep of this heading meets the first address no later than the second. -/
def Heading.Sooner : Heading → Nat → Nat → Prop
  | .ascending, a, b => a ≤ b
  | .descending, a, b => b ≤ a

@[simp] theorem Heading.sooner_ascending {a b : Nat} :
    Heading.ascending.Sooner a b ↔ a ≤ b := Iff.rfl

@[simp] theorem Heading.sooner_descending {a b : Nat} :
    Heading.descending.Sooner a b ↔ b ≤ a := Iff.rfl

theorem Heading.sooner_refl (heading : Heading) (a : Nat) : heading.Sooner a a := by
  cases heading with
  | ascending => exact Nat.le_refl a
  | descending => exact Nat.le_refl a

theorem Heading.Sooner.trans {heading : Heading} {a b c : Nat} (h : heading.Sooner a b)
    (h' : heading.Sooner b c) : heading.Sooner a c := by
  cases heading with
  | ascending => exact Nat.le_trans h h'
  | descending => exact Nat.le_trans h' h

theorem Heading.sooner_antisymm {heading : Heading} {a b : Nat} (h : heading.Sooner a b)
    (h' : heading.Sooner b a) : a = b := by
  cases heading with
  | ascending => exact Nat.le_antisymm h h'
  | descending => exact Nat.le_antisymm h' h

theorem Heading.sooner_of_not_passes {heading : Heading} {position a b : Nat}
    (ha : ¬ heading.Passes position a) (hb : heading.Passes position b) : heading.Sooner a b := by
  cases heading with
  | ascending =>
      simp only [passes_ascending, sooner_ascending] at *
      omega
  | descending =>
      simp only [passes_descending, sooner_descending] at *
      omega

namespace Request

/-- Where a request can be placed: at a multiple of the alignment, but not at zero, from which on
the bytes that are asked for lie inside the window and can be borrowed. -/
structure Slot (r : Request) (intervals : List Interval) (target : Nat) : Prop where
  size : 0 < r.size
  ne_zero : target ≠ 0
  aligned : r.align ∣ target
  inside : r.window.start ≤ target ∧ target + r.size ≤ r.window.stop
  usable : ∀ x, target ≤ x → x < target + r.size → Usable intervals x

/-- The slot that a sweep meets first. -/
structure FirstSlot (r : Request) (intervals : List Interval) (target : Nat) : Prop where
  slot : r.Slot intervals target
  first : ∀ t, r.Slot intervals t → r.heading.Sooner target t

/-- The answer is the first slot, or says that there is no slot. -/
def Answered (r : Request) (intervals : List Interval) : Option Extent → Prop
  | some e => e.stop = e.start + r.size ∧ r.FirstSlot intervals e.start
  | none => ∀ t, ¬ r.Slot intervals t

variable {r : Request} {intervals : List Interval} {first last target t : Nat}

/-! ### Answers -/

theorem Slot.congr {intervals' : List Interval} (h : r.Slot intervals t)
    (husable : ∀ x, Usable intervals x ↔ Usable intervals' x) : r.Slot intervals' t :=
  ⟨h.size, h.ne_zero, h.aligned, h.inside, fun x hlo hhi => (husable x).1 (h.usable x hlo hhi)⟩

theorem Answered.congr {intervals' : List Interval} {found : Option Extent}
    (h : r.Answered intervals found) (husable : ∀ x, Usable intervals x ↔ Usable intervals' x) :
    r.Answered intervals' found := by
  cases found with
  | none => exact fun t ht => h t (ht.congr fun x => (husable x).symm)
  | some e =>
      obtain ⟨hstop, hslot, hfirst⟩ := h
      exact ⟨hstop, hslot.congr husable, fun t ht => hfirst t (ht.congr fun x => (husable x).symm)⟩

/-- There is one answer to a request. -/
theorem Answered.unique {found found' : Option Extent} (h : r.Answered intervals found)
    (h' : r.Answered intervals found') : found = found' := by
  cases found with
  | none =>
      cases found' with
      | none => rfl
      | some e' => exact absurd h'.2.slot (h e'.start)
  | some e =>
      cases found' with
      | none => exact absurd h.2.slot (h' e.start)
      | some e' =>
          obtain ⟨hstop, hslot, hfirst⟩ := h
          obtain ⟨hstop', hslot', hfirst'⟩ := h'
          have hstart := Heading.sooner_antisymm (hfirst _ hslot') (hfirst' _ hslot)
          exact congrArg some (Extent.ext hstart (by rw [hstop, hstop', hstart]))

/-! ### Bounds and fits -/

theorem bounds?_aligned (h : r.bounds? = some (first, last))
    (halign : Address.isPowerOfTwo r.align = true) : r.align ∣ first ∧ r.align ∣ last := by
  simp only [bounds?, Option.bind_eq_bind, Option.bind_eq_some_iff] at h
  obtain ⟨low, hlow, room, -, h⟩ := h
  split at h
  case isTrue => contradiction
  case isFalse =>
    cases h
    exact ⟨Address.dvd_of_ceilTo? halign hlow, Address.dvd_floorTo halign room⟩

/-- A slot lies between the bounds. -/
theorem Slot.bounds? (h : r.Slot intervals t) (halign : Address.isPowerOfTwo r.align = true) :
    ∃ first last, r.bounds? = some (first, last) ∧ first ≤ t ∧ t ≤ last := by
  obtain ⟨hlo, hhi⟩ := h.inside
  have hpos := Nat.pos_of_ne_zero h.ne_zero
  have hlt := r.window.stop_lt
  obtain ⟨first, hfirst, hle⟩ := Address.exists_ceilTo?_le halign h.aligned hpos
    (Nat.max_le.2 ⟨hlo, hpos⟩) (by omega)
  have hroom : Address.sub? r.window.stop r.size = some (r.window.stop - r.size) :=
    Address.sub?_eq_some_iff.2 ⟨by omega, rfl⟩
  have hge := Address.le_floorTo halign h.aligned (show t ≤ r.window.stop - r.size by omega)
  refine ⟨first, Address.floorTo r.align (r.window.stop - r.size), ?_, hle, hge⟩
  have hsize := h.size
  have hproper : ¬ (r.size = 0 ∨ Address.floorTo r.align (r.window.stop - r.size) < first) := by
    omega
  simp [Request.bounds?, hfirst, hroom, hproper]

theorem fit_aligned {entered left : Nat} (h : r.fit first last entered left = some target)
    (halign : Address.isPowerOfTwo r.align = true) (hfirst : r.align ∣ first)
    (hlast : r.align ∣ last) : r.align ∣ target := by
  unfold fit at h
  split at h
  case h_1 =>
    obtain ⟨low, hlow, h⟩ := Option.bind_eq_some_iff.1 h
    have hdvd := Address.dvd_of_ceilTo? halign hlow
    obtain ⟨-, hsome⟩ := Option.ite_none_right_eq_some.1 h
    cases hsome
    rw [Nat.max_def]
    split
    · exact hfirst
    · exact hdvd
  case h_2 =>
    obtain ⟨room, -, h⟩ := Option.bind_eq_some_iff.1 h
    have hdvd := Address.dvd_floorTo halign room
    obtain ⟨-, hsome⟩ := Option.ite_none_right_eq_some.1 h
    cases hsome
    rw [Nat.min_def]
    split
    · exact hdvd
    · exact hlast

/-- **What is fitted into a stretch** is the first slot in it. -/
theorem fit_complete {entered left : Nat} (halign : Address.isPowerOfTwo r.align = true)
    (h : r.Slot intervals t) (hfirst : first ≤ t) (hlast : t ≤ last)
    (hinside : ∀ x, t ≤ x → x < t + r.size →
      r.heading.Passes entered x ∧ ¬ r.heading.Passes left x) :
    ∃ target, r.fit first last entered left = some target ∧ r.heading.Sooner target t := by
  have hpos := Nat.pos_of_ne_zero h.ne_zero
  have hsize := h.size
  have hhi := h.inside.2
  have hlt := r.window.stop_lt
  have hlow := hinside t (Nat.le_refl t) (by omega)
  have hhigh := hinside (t + r.size - 1) (by omega) (by omega)
  unfold fit
  split
  case h_1 hheading =>
    simp only [hheading, Heading.passes_ascending] at hlow hhigh ⊢
    obtain ⟨low, hround, hle⟩ :=
      Address.exists_ceilTo?_le halign h.aligned hpos hlow.1 (by omega)
    refine ⟨max low first, ?_, Nat.max_le.2 ⟨hle, hfirst⟩⟩
    have hfits : max low first ≤ last ∧ max low first + r.size ≤ left := by omega
    simp only [fitLow, hround, Option.bind_eq_bind, Option.bind_some, if_pos hfits]
  case h_2 hheading =>
    simp only [hheading, Heading.passes_descending] at hlow hhigh ⊢
    have hroom : Address.sub? entered r.size = some (entered - r.size) :=
      Address.sub?_eq_some_iff.2 ⟨by omega, rfl⟩
    have hge := Address.le_floorTo halign h.aligned (show t ≤ entered - r.size by omega)
    have hle : t ≤ min (Address.floorTo r.align (entered - r.size)) last := by omega
    refine ⟨min (Address.floorTo r.align (entered - r.size)) last, ?_, hle⟩
    have hfits : first ≤ min (Address.floorTo r.align (entered - r.size)) last ∧
        left ≤ min (Address.floorTo r.align (entered - r.size)) last := by omega
    simp only [fitHigh, hroom, Option.bind_eq_bind, Option.bind_some, if_pos hfits]

/-! ### What is not behind the sweep -/

/-- The byte is not behind the sweep: it lies in the stretch at hand or further on, or if there is
no such stretch then an event is still to come on the way to it. -/
def Remains (heading : Heading) (usable : Bool) (entered : Nat) (ahead : List Event) (x : Nat) :
    Prop :=
  if usable then heading.Passes entered x else ∃ e ∈ ahead, heading.Passes e.position x

/-- While no stretch is at hand, a byte that is not behind the sweep does not come before the next
event. -/
theorem Remains.passes {heading : Heading} {entered x : Nat} {e : Event} {rest : List Event}
    (h : Remains heading false entered (e :: rest) x) (hord : heading.Ordered (e :: rest)) :
    heading.Passes e.position x := by
  simp only [Remains, Bool.false_eq_true, if_false] at h
  obtain ⟨e', he', hpass⟩ := h
  rcases List.mem_cons.1 he' with rfl | he'
  · exact hpass
  · exact (List.pairwise_cons.1 hord).1 e' he' x hpass

/-- An event may be passed if another one at its position is ahead. -/
theorem Remains.skip {heading : Heading} {usable : Bool} {entered x : Nat} {e a : Event}
    {rest : List Event} (h : Remains heading usable entered (e :: rest) x)
    (hord : heading.Ordered (e :: rest)) (ha : a ∈ rest) (hsame : a.position = e.position) :
    Remains heading usable entered rest x := by
  cases usable with
  | true => exact h
  | false => exact ⟨a, ha, hsame ▸ h.passes hord⟩

/-- Once no further event has its position, an event is passed before all that are ahead. -/
theorem passed_before {heading : Heading} {e : Event} {rest : List Event}
    (hord : heading.Ordered (e :: rest))
    (hsettled : rest.head?.any (·.position == e.position) = false) :
    ∀ e' ∈ rest, ¬ heading.Sooner e'.position e.position := by
  obtain ⟨hnext, hrest⟩ := List.pairwise_cons.1 hord
  cases rest with
  | nil => simp
  | cons a rest =>
      have hne : a.position ≠ e.position := by simpa using hsettled
      have ha := hnext a List.mem_cons_self
      intro e' he'
      have hbehind : ∀ x, heading.Passes e'.position x → heading.Passes a.position x := by
        rcases List.mem_cons.1 he' with rfl | he'
        · exact fun _ => id
        · exact (List.pairwise_cons.1 hrest).1 e' he'
      cases heading with
      | ascending =>
          have := ha a.position (Nat.le_refl _)
          have := hbehind e'.position (Nat.le_refl _)
          simp only [Heading.sooner_ascending, Heading.passes_ascending] at *
          omega
      | descending =>
          intro hle
          simp only [Heading.sooner_descending, Heading.passes_descending] at *
          have := ha e.position
          have := hbehind a.position
          omega

/-- The bytes of a slot lie on one side of the place where a usable stretch ends: all in front of
it, or all where an event is still to come. -/
theorem Slot.aside {passed rest : List Event} {e : Event} (h : r.Slot intervals t)
    (hperm : (passed ++ e :: rest).Perm (intervals.flatMap (·.events)))
    (hord : r.heading.Ordered (passed ++ e :: rest))
    (hsettled : rest.head?.any (·.position == e.position) = false)
    (hclosed : (Depth.passAll r.heading {} (passed ++ [e])).usable = false) :
    (∀ x, t ≤ x → x < t + r.size → ¬ r.heading.Passes e.position x) ∨
      ∀ x, t ≤ x → x < t + r.size → ∃ e' ∈ rest, r.heading.Passes e'.position x := by
  -- Behind the event nothing is usable up to the next one.
  have hbehind : ∀ x, t ≤ x → x < t + r.size → r.heading.Passes e.position x →
      ∃ e' ∈ rest, r.heading.Passes e'.position x := by
    intro x hlo hhi hpass
    by_contra hnone
    have hahead : ∀ e' ∈ rest, ¬ r.heading.Passes e'.position x :=
      fun e' he' hpass' => hnone ⟨e', he', hpass'⟩
    have husable := (usable_passAll_iff hperm hord hpass hahead).2 (h.usable x hlo hhi)
    rw [hclosed] at husable
    contradiction
  have hstrict := passed_before (List.pairwise_append.1 hord).2.1 hsettled
  refine Classical.or_iff_not_imp_left.2 fun hnot x hlo hhi => hbehind x hlo hhi ?_
  simp only [not_forall, not_not] at hnot
  obtain ⟨y, hylo, hyhi, hy⟩ := hnot
  -- If a byte of the slot came before the event, so would the first one behind it.
  by_contra hx
  cases hheading : r.heading with
  | ascending =>
      simp only [hheading, Heading.passes_ascending, Heading.sooner_ascending] at *
      obtain ⟨e', he', hle⟩ := hbehind e.position (by omega) (by omega) (Nat.le_refl _)
      exact hstrict e' he' hle
  | descending =>
      simp only [hheading, Heading.passes_descending, Heading.sooner_descending] at *
      obtain ⟨e', he', hlt⟩ := hbehind (e.position - 1) (by omega) (by omega) (by omega)
      exact hstrict e' he' (by omega)

/-- Where a stretch is left that the slot is not behind, a slot is found in it that is met no later,
or nothing fits and the slot lies further on. -/
theorem Slot.left {e : Event} {rest : List Event} {entered : Nat} (h : r.Slot intervals t)
    (halign : Address.isPowerOfTwo r.align = true) (hfirst : first ≤ t) (hlast : t ≤ last)
    (hord : r.heading.Ordered (e :: rest))
    (hentered : ∀ x, t ≤ x → x < t + r.size → r.heading.Passes entered x)
    (haside : (∀ x, t ≤ x → x < t + r.size → ¬ r.heading.Passes e.position x) ∨
      ∀ x, t ≤ x → x < t + r.size → ∃ e' ∈ rest, r.heading.Passes e'.position x) :
    (∃ target, r.fit first last entered e.position = some target ∧
        r.heading.Sooner target t) ∨
      r.fit first last entered e.position = none ∧
        ∀ x, t ≤ x → x < t + r.size → ∃ e' ∈ rest, r.heading.Passes e'.position x := by
  have hsize := h.size
  rcases haside with hfront | hbehind
  · exact .inl (fit_complete halign h hfirst hlast fun x hlo hhi =>
      ⟨hentered x hlo hhi, hfront x hlo hhi⟩)
  · cases hfit : r.fit first last entered e.position with
    | none => exact .inr ⟨rfl, hbehind⟩
    | some target =>
        -- Another slot of this stretch is met first.
        refine .inl ⟨target, rfl, ?_⟩
        have hfront := ((fit_spec hfit halign).2.2 target (Nat.le_refl _) (by omega)).2
        obtain ⟨e', he', hpass⟩ := hbehind t (Nat.le_refl _) (by omega)
        exact Heading.sooner_of_not_passes hfront
          ((List.pairwise_cons.1 hord).1 e' he' t hpass)

/-- **A search finds a slot that remains**, or one that it meets sooner. -/
theorem along_complete {passed ahead : List Event} {depth : Depth} {usable : Bool} {entered : Nat}
    (halign : Address.isPowerOfTwo r.align = true)
    (hperm : (passed ++ ahead).Perm (intervals.flatMap (·.events)))
    (hord : r.heading.Ordered (passed ++ ahead)) (hdepth : depth = .passAll r.heading {} passed)
    (hend : ahead = [] → usable = false) (h : r.Slot intervals t) (hfirst : first ≤ t)
    (hlast : t ≤ last)
    (hremains : ∀ x, t ≤ x → x < t + r.size → Remains r.heading usable entered ahead x) :
    ∃ target, r.along first last depth usable entered ahead = some target ∧
      r.heading.Sooner target t := by
  have hsize := h.size
  induction ahead generalizing passed depth usable entered with
  | nil =>
      have hbyte := hremains t (Nat.le_refl t) (by omega)
      simp [Remains, hend rfl] at hbyte
  | cons e rest ih =>
      have hsplit : passed ++ e :: rest = (passed ++ [e]) ++ rest := by simp
      have hrest := (List.pairwise_append.1 hord).2.1
      have hafter : depth.pass e r.heading = .passAll r.heading {} (passed ++ [e]) := by
        simp [Depth.passAll, hdepth]
      -- Behind the last event nothing is usable.
      have hover (hopen : (depth.pass e r.heading).usable = true) : rest ≠ [] := by
        rintro rfl
        rw [hafter, Depth.usable_passAll_end hperm] at hopen
        contradiction
      have step {usable' : Bool} {entered' : Nat} := @ih (passed ++ [e]) _ usable' entered'
        (hsplit ▸ hperm) (hsplit ▸ hord) hafter
      unfold along
      dsimp only
      split
      case isTrue hmore =>
        obtain ⟨a, ha, hsame⟩ := exists_of_head?_any hmore
        exact step (fun hnil => absurd hnil (List.ne_nil_of_mem ha)) fun x hlo hhi =>
          (hremains x hlo hhi).skip hrest ha (beq_iff_eq.1 hsame)
      case isFalse hsettled =>
        have haside (hclosed : (depth.pass e r.heading).usable = false) :=
          h.aside hperm hord (Bool.not_eq_true _ ▸ hsettled) (hafter ▸ hclosed)
        split
        case h_1 hnow =>
          exact step (fun hnil => absurd hnil (hover hnow)) fun x hlo hhi =>
            (hremains x hlo hhi).passes hrest
        case h_2 hnow =>
          rcases h.left halign hfirst hlast hrest hremains (haside hnow) with
            ⟨target, hfit, hsooner⟩ | ⟨hfit, hbehind⟩
          · rw [hfit]
            exact ⟨target, rfl, hsooner⟩
          · rw [hfit]
            exact step (fun _ => rfl) hbehind
        case h_3 usable _ _ hopens hcloses =>
          cases usable with
          | true =>
              have hnow : (depth.pass e r.heading).usable = true :=
                Bool.not_eq_false _ ▸ fun hclosed => hcloses rfl hclosed
              rw [hnow]
              exact step (fun hnil => absurd hnil (hover hnow)) hremains
          | false =>
              have hnow : (depth.pass e r.heading).usable = false :=
                Bool.not_eq_true _ ▸ fun hopen => hopens rfl hopen
              rw [hnow]
              rcases haside hnow with hfront | hbehind
              · exact absurd ((hremains t (Nat.le_refl t) (by omega)).passes hrest)
                  (hfront t (Nat.le_refl t) (by omega))
              · exact step (fun _ => rfl) hbehind

/-- A search along the events of intervals meets every slot, or one that comes sooner. -/
theorem path_complete {events : List Event} (halign : Address.isPowerOfTwo r.align = true)
    (hperm : events.Perm (intervals.flatMap (·.events)))
    (hsorted : events.Pairwise fun a b => a.position ≤ b.position) (h : r.Slot intervals t)
    (hfirst : first ≤ t) (hlast : t ≤ last) :
    ∃ target, r.along first last {} false 0 (r.heading.path events) = some target ∧
      r.heading.Sooner target t := by
  have hpath := (r.heading.perm_path events).trans hperm
  refine @along_complete r intervals first last t [] _ _ _ _ halign hpath
    (r.heading.ordered_path hsorted) rfl (fun _ => rfl) h hfirst hlast fun x hlo hhi => ?_
  obtain ⟨⟨a, ha, hle⟩, b, hb, hlt⟩ := exists_events_of_usable hpath (h.usable x hlo hhi)
  cases hheading : r.heading with
  | ascending => exact ⟨a, hheading ▸ ha, hle⟩
  | descending => exact ⟨b, hheading ▸ hb, hlt⟩

/-- What a search finds along the path is a slot. -/
theorem path_slot {events : List Event} (halign : Address.isPowerOfTwo r.align = true)
    (hperm : events.Perm (intervals.flatMap (·.events)))
    (hsorted : events.Pairwise fun a b => a.position ≤ b.position)
    (hbounds : r.bounds? = some (first, last))
    (h : r.along first last {} false 0 (r.heading.path events) = some target) :
    r.Slot intervals target := by
  obtain ⟨low, high, hfit, husable⟩ :=
    @along_sound r intervals first last target [] _ _ _ _ ((r.heading.perm_path _).trans hperm)
      (r.heading.ordered_path hsorted) rfl (fun hfalse => by contradiction) h
  obtain ⟨hlo, hone, hhi, hsize⟩ := bounds?_spec hbounds halign
  obtain ⟨hdvdFirst, hdvdLast⟩ := bounds?_aligned hbounds halign
  obtain ⟨hfirst, hlast, hinside⟩ := fit_spec hfit halign
  exact {
    size := hsize
    ne_zero := by omega
    aligned := fit_aligned hfit halign hdvdFirst hdvdLast
    inside := by omega
    usable := fun x hx hlt => husable x (hinside x hx hlt).1 (hinside x hx hlt).2 }

/-- **A search answers** along the events of any intervals. -/
theorem find_answered {events : List Event} (halign : Address.isPowerOfTwo r.align = true)
    (hperm : events.Perm (intervals.flatMap (·.events)))
    (hsorted : events.Pairwise fun a b => a.position ≤ b.position) :
    ∃ found, r.find events = .ok found ∧ r.Answered intervals found := by
  refine ⟨_, find_eq r events halign, ?_⟩
  cases hbounds : r.bounds? with
  | none =>
      intro t ht
      obtain ⟨first, last, hsome, -⟩ := ht.bounds? halign
      cases hbounds.symm.trans hsome
  | some bounds =>
      obtain ⟨first, last⟩ := bounds
      have hreach {t : Nat} (ht : r.Slot intervals t) :
          ∃ target, r.along first last {} false 0 (r.heading.path events) = some target ∧
            r.heading.Sooner target t := by
        obtain ⟨first', last', hsome, hfirst, hlast⟩ := ht.bounds? halign
        cases hbounds.symm.trans hsome
        exact path_complete halign hperm hsorted ht hfirst hlast
      show r.Answered intervals ((r.along first last {} false 0 (r.heading.path events)).bind
        fun target => Extent.ofLength? target r.size)
      cases halong : r.along first last {} false 0 (r.heading.path events) with
      | none =>
          intro t ht
          obtain ⟨target, hsome, -⟩ := hreach ht
          cases halong.symm.trans hsome
      | some target =>
          have hslot := path_slot halign hperm hsorted hbounds halong
          have hlt := r.window.stop_lt
          have hinside := hslot.inside
          have hextent : Extent.ofLength? target r.size =
              some ⟨target, target + r.size, Nat.le_add_right _ _, by omega⟩ :=
            Extent.ofLength?_eq_some_iff.2 ⟨rfl, rfl⟩
          rw [Option.bind_some, hextent]
          refine ⟨rfl, hslot, fun t ht => ?_⟩
          obtain ⟨target', hsome, hsooner⟩ := hreach ht
          cases halong.symm.trans hsome
          exact hsooner

end Request

/-- **A search is exact.**  Whatever intervals a sweep was given, a search with a power of two as
its alignment does not trap, and it answers with the first slot along its heading unless there is
none. -/
theorem Sweep.find_exact (intervals : List Interval) (r : Request)
    (halign : Address.isPowerOfTwo r.align = true) :
    ∃ found, (do (← (({} : Sweep).add intervals).sort).find r) = .ok found ∧
      r.Answered intervals found := by
  obtain ⟨hperm, hsorted⟩ := Sweep.events_ofIntervals intervals
  rw [Sweep.sort_add, ok_bind]
  exact Request.find_answered halign hperm hsorted

/-- From above, the slot is the highest page in front of a collision that straddles two listed
ranges, although the window goes on behind it. -/
theorem Sweep.find_exact_below_collision :
    ∃ intervals : List Interval, ∃ r : Request, ∃ e : Extent,
      Address.isPowerOfTwo r.align = true ∧
      (do (← (({} : Sweep).add intervals).sort).find r) = .ok (some e) ∧ e.start = 0x3000 ∧
        r.FirstSlot intervals 0x3000 := by
  let intervals : List Interval :=
    [⟨.firmwareAvailable, .ofBoundsD 0x5000 0x8000, none⟩,
      ⟨.collision, .ofBoundsD 0x4800 0x7800, none⟩,
      ⟨.firmwareAvailable, .ofBoundsD 0x1000 0x5000, none⟩,
      ⟨.firmwareBlock, .ofBoundsD 0x3000 0x4000, none⟩,
      ⟨.regionBody, .ofBoundsD 0x3800 0x4000, some 0⟩,
      ⟨.regionHead, .ofBoundsD 0x3000 0x3800, some 0⟩]
  let r : Request := ⟨.ofBoundsD 0 0x8000, 0x1800, 0x1000, .descending⟩
  have halign : Address.isPowerOfTwo r.align = true := by decide
  obtain ⟨found, hfind, hanswer⟩ := Sweep.find_exact intervals r halign
  have hsome : (do (← (({} : Sweep).add intervals).sort).find r) =
      .ok (some (.ofBoundsD 0x3000 0x4800)) := by
    decide +kernel
  cases hfind.symm.trans hsome
  exact ⟨intervals, r, _, halign, hsome, rfl, hanswer.2⟩

end Staging

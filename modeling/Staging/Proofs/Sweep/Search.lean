import Staging.Proofs.Address
import Staging.Proofs.Outcome
import Staging.Proofs.Sweep.Depth
import Staging.Sweep.Search

/-!
# A search finds usable memory

A search meets the events along a path (`Heading.path`), and every index that it reads is inside
(`scan_eq`).  Along the path it keeps where the usable stretch at hand was entered, so that every
byte between there and where the sweep is can be borrowed (`along_sound`).  What it finds lies
inside the window, and all of it can be borrowed (`find_spec`).
-/

namespace Staging

/-- The events come in the order in which the sweep meets them. -/
def Heading.Ordered (heading : Heading) (path : List Event) : Prop :=
  path.Pairwise fun a b => ∀ x, heading.Passes b.position x → heading.Passes a.position x

/-- Sorted events in the order of a heading. -/
def Heading.path (heading : Heading) (events : List Event) : List Event :=
  match heading with
  | .ascending => events
  | .descending => events.reverse

theorem Heading.perm_path (heading : Heading) (events : List Event) :
    (heading.path events).Perm events := by
  cases heading with
  | ascending => exact .refl _
  | descending => exact List.reverse_perm _

/-- **The index of a step** is inside, and the sweep meets there what comes next on its path. -/
theorem Heading.exists_indexAt (heading : Heading) {events : List Event} {step : Nat}
    (h : step < events.length) :
    ∃ index, heading.indexAt events.length step = .ok index ∧
      events[index]? = (heading.path events)[step]? ∧
      heading.next? events index = (heading.path events)[step + 1]? := by
  cases heading with
  | ascending => exact ⟨step, rfl, rfl, rfl⟩
  | descending =>
      have hindex : Heading.descending.indexAt events.length step =
          .ok (events.length - 1 - step) := by
        simp [indexAt, Address.sub, show 1 ≤ events.length by omega,
          show step ≤ events.length - 1 by omega]
      refine ⟨events.length - 1 - step, hindex, (List.getElem?_reverse h).symm, ?_⟩
      by_cases hlast : step + 1 < events.length
      · rw [next?, Address.sub?, if_pos (by omega), path, List.getElem?_reverse hlast,
          Option.bind_some, Nat.sub_sub, Nat.sub_sub, Nat.add_comm step 1, ← Nat.add_assoc]
      · rw [next?, Address.sub?, if_neg (by omega), path,
          List.getElem?_eq_none (by simpa using hlast)]
        rfl

theorem Heading.ordered_path (heading : Heading) {events : List Event}
    (h : events.Pairwise fun a b => a.position ≤ b.position) :
    heading.Ordered (heading.path events) := by
  cases heading with
  | ascending => exact h.imp fun hab _ hx => Nat.le_trans hab hx
  | descending => exact List.pairwise_reverse.2 (h.imp fun hab _ hx => Nat.lt_of_lt_of_le hx hab)

namespace Request

variable {r : Request} {intervals : List Interval} {first last target : Nat}

/-! ### The path of a search -/

/-- The first fit along the events that are ahead on the path. -/
def along (r : Request) (first last : Nat) : Depth → Bool → Nat → List Event → Option Nat
  | _, _, _, [] => none
  | depth, usable, entered, e :: rest =>
      let depth := depth.pass e r.heading
      if rest.head?.any (·.position == e.position) then
        along r first last depth usable entered rest
      else
        match usable, depth.usable with
        | false, true => along r first last depth true e.position rest
        | true, false =>
            match r.fit first last entered e.position with
            | some target => some target
            | none => along r first last depth false entered rest
        | _, now => along r first last depth now entered rest

/-- **The scan of a search** never traps, and goes along the path. -/
theorem scan_eq {events passed ahead : List Event} (hpath : r.heading.path events = passed ++ ahead)
    (depth : Depth) (usable : Bool) (entered : Nat) :
    r.scan first last events depth usable entered (List.range' passed.length ahead.length) =
      .ok (r.along first last depth usable entered ahead) := by
  induction ahead generalizing passed depth usable entered with
  | nil => rfl
  | cons e rest ih =>
      have hlength : passed.length < events.length := by
        rw [← (r.heading.perm_path events).length_eq, hpath, List.length_append, List.length_cons]
        omega
      obtain ⟨index, hindex, hat, hnext⟩ := r.heading.exists_indexAt hlength
      rw [hpath, List.getElem?_append_right (Nat.le_refl _), Nat.sub_self] at hat
      rw [hpath, List.getElem?_append_right (Nat.le_add_right _ _), Nat.add_sub_cancel_left,
        List.getElem?_cons_succ, ← List.head?_eq_getElem?] at hnext
      have step := @ih (passed ++ [e]) (by rw [hpath, List.append_assoc]; rfl)
      rw [List.length_append, List.length_singleton] at step
      rw [List.length_cons, List.range'_succ]
      unfold scan along
      rw [hindex, ok_bind, Index.read_eq_ok hat, ok_bind, hnext]
      by_cases hmore : rest.head?.any (·.position == e.position) = true
      · rw [if_pos hmore, if_pos hmore]
        exact step _ _ _
      · rw [if_neg hmore, if_neg hmore]
        cases usable <;> cases (depth.pass e r.heading).usable
        case true.false =>
          dsimp only
          cases r.fit first last entered e.position with
          | some target => rfl
          | none => exact step _ _ _
        all_goals exact step _ _ _

/-- A search without bounds to search between finds nothing; otherwise it goes along the path. -/
theorem find_eq (r : Request) (events : List Event)
    (halign : Address.isPowerOfTwo r.align = true) :
    r.find events = .ok (r.bounds?.bind fun (first, last) =>
      (r.along first last {} false 0 (r.heading.path events)).bind
        (Extent.ofLength? · r.size)) := by
  rw [find, if_pos halign]
  cases r.bounds? with
  | none => rfl
  | some bounds =>
      have hscan := @scan_eq r bounds.1 bounds.2 events [] (r.heading.path events) rfl {} false 0
      rw [(r.heading.perm_path events).length_eq, List.length_nil,
        ← List.range_eq_range'] at hscan
      dsimp only
      rw [hscan, ok_bind]
      rfl

/-! ### The stretch at hand -/

theorem exists_of_head?_any {events : List Event} {p : Event → Bool}
    (h : events.head?.any p = true) : ∃ e ∈ events, p e = true := by
  cases events with
  | nil => cases h
  | cons e rest => exact ⟨e, List.mem_cons_self, h⟩

/-- Behind an event the depths are right about the bytes up to the next one. -/
theorem usable_passAll_iff {heading : Heading} {passed rest : List Event} {e : Event} {x : Nat}
    (hperm : (passed ++ e :: rest).Perm (intervals.flatMap (·.events)))
    (hord : heading.Ordered (passed ++ e :: rest)) (hx : heading.Passes e.position x)
    (hahead : ∀ e' ∈ rest, ¬ heading.Passes e'.position x) :
    (Depth.passAll heading {} (passed ++ [e])).usable = true ↔ Usable intervals x := by
  have hsplit : passed ++ e :: rest = (passed ++ [e]) ++ rest := by simp
  refine (Depth.at_passAll (hsplit ▸ hperm) (fun a ha => ?_) hahead).usable_iff
  rcases List.mem_append.1 ha with ha | ha
  · exact (List.pairwise_append.1 hord).2.2 a ha e List.mem_cons_self x hx
  · cases List.mem_singleton.1 ha
    exact hx

/-- **What a search fits a request into** is a stretch whose every byte can be borrowed. -/
theorem along_sound {passed ahead : List Event} {depth : Depth} {usable : Bool} {entered : Nat}
    (hperm : (passed ++ ahead).Perm (intervals.flatMap (·.events)))
    (hord : r.heading.Ordered (passed ++ ahead)) (hdepth : depth = .passAll r.heading {} passed)
    (hstretch : usable = true → ∀ x, r.heading.Passes entered x →
      (∀ e ∈ ahead, ¬ r.heading.Passes e.position x) → Usable intervals x)
    (h : r.along first last depth usable entered ahead = some target) :
    ∃ low high, r.fit first last low high = some target ∧
      ∀ x, r.heading.Passes low x → ¬ r.heading.Passes high x → Usable intervals x := by
  induction ahead generalizing passed depth usable entered with
  | nil => cases h
  | cons e rest ih =>
      have hsplit : passed ++ e :: rest = (passed ++ [e]) ++ rest := by simp
      have hrest := (List.pairwise_append.1 hord).2.1
      have hnext := (List.pairwise_cons.1 hrest).1
      have hafter : depth.pass e r.heading = .passAll r.heading {} (passed ++ [e]) := by
        simp [Depth.passAll, hdepth]
      have hhere : ∀ x, r.heading.Passes e.position x →
          (∀ e' ∈ rest, ¬ r.heading.Passes e'.position x) →
          ((depth.pass e r.heading).usable = true ↔ Usable intervals x) :=
        fun x hx hahead => hafter ▸ usable_passAll_iff hperm hord hx hahead
      -- The stretch at hand reaches up to this event.
      have hbefore : usable = true → ∀ x, r.heading.Passes entered x →
          ¬ r.heading.Passes e.position x → Usable intervals x := by
        intro husable x hx hnot
        refine hstretch husable x hx fun e' he' => ?_
        rcases List.mem_cons.1 he' with rfl | he'
        · exact hnot
        · exact fun hpass => hnot (hnext e' he' x hpass)
      have step {usable' : Bool} {entered' : Nat} := @ih (passed ++ [e]) _ usable' entered'
        (hsplit ▸ hperm) (hsplit ▸ hord) hafter
      unfold along at h
      dsimp only at h
      split at h
      case isTrue hmore =>
        obtain ⟨e', he', hsame⟩ := exists_of_head?_any hmore
        refine step (fun husable x hx hahead => hbefore husable x hx ?_) h
        exact beq_iff_eq.1 hsame ▸ hahead e' he'
      case isFalse =>
        split at h
        case h_1 husable hnow =>
          exact step (fun _ x hx hahead => (hhere x hx hahead).1 hnow) h
        case h_2 husable hnow =>
          split at h
          case h_1 target' hfit =>
            cases h
            exact ⟨entered, e.position, hfit, hbefore rfl⟩
          case h_2 => exact step (fun hfalse => by contradiction) h
        case h_3 hopens _ =>
          refine step (fun hnow x hx hahead => ?_) h
          by_cases hpass : r.heading.Passes e.position x
          · exact (hhere x hpass hahead).1 hnow
          · exact hbefore (Bool.not_eq_false _ ▸ fun hclosed => hopens hclosed hnow) x hx hpass

/-! ### What is found -/

theorem bounds?_spec (h : r.bounds? = some (first, last))
    (halign : Address.isPowerOfTwo r.align = true) :
    r.window.start ≤ first ∧ 1 ≤ first ∧ last + r.size ≤ r.window.stop ∧ 0 < r.size := by
  simp only [bounds?, Option.bind_eq_bind, Option.bind_eq_some_iff] at h
  obtain ⟨low, hlow, room, hroom, h⟩ := h
  split at h
  case isTrue => contradiction
  case isFalse hproper =>
    cases h
    have hle := Address.le_of_ceilTo? halign hlow
    have hfloor := Address.floorTo_le r.align room
    obtain ⟨hfits, rfl⟩ := Address.sub?_eq_some_iff.1 hroom
    simp only [Bool.or_eq_true, beq_iff_eq, decide_eq_true_eq, not_or] at hproper
    omega

/-- A fit lies between the bounds and inside the stretch. -/
theorem fit_spec {low high : Nat} (h : r.fit first last low high = some target)
    (halign : Address.isPowerOfTwo r.align = true) :
    first ≤ target ∧ target ≤ last ∧ ∀ x, target ≤ x → x < target + r.size →
      r.heading.Passes low x ∧ ¬ r.heading.Passes high x := by
  unfold fit at h
  split at h
  case h_1 hheading =>
    obtain ⟨aligned, haligned, h⟩ := Option.bind_eq_some_iff.1 h
    have := Address.le_of_ceilTo? halign haligned
    simp only [hheading, Heading.passes_ascending]
    dsimp only at h
    split at h
    case isTrue => grind
    case isFalse => contradiction
  case h_2 hheading =>
    obtain ⟨room, hroom, h⟩ := Option.bind_eq_some_iff.1 h
    obtain ⟨hfits, rfl⟩ := Address.sub?_eq_some_iff.1 hroom
    have := Address.floorTo_le r.align (low - r.size)
    simp only [hheading, Heading.passes_descending]
    dsimp only at h
    split at h
    case isTrue => grind
    case isFalse => contradiction

/-- **What a search finds** has the size of the request, lies inside the window, and can be
borrowed byte by byte. -/
theorem find_spec {events : List Event} {e : Extent}
    (hperm : events.Perm (intervals.flatMap (·.events)))
    (hsorted : events.Pairwise fun a b => a.position ≤ b.position)
    (h : r.find events = .ok (some e)) :
    r.window.start ≤ e.start ∧ 1 ≤ e.start ∧ e.stop ≤ r.window.stop ∧
      e.stop = e.start + r.size ∧ 0 < r.size ∧ ∀ x ∈ e, Usable intervals x := by
  have halign : Address.isPowerOfTwo r.align = true := by
    by_contra hnot
    rw [find, if_neg hnot] at h
    cases h
  rw [find_eq r events halign] at h
  have h := Except.ok.inj h
  simp only [Option.bind_eq_some_iff] at h
  obtain ⟨⟨first, last⟩, hbounds, target, hpath, hextent⟩ := h
  obtain ⟨hlo, hone, hhi, hsize⟩ := bounds?_spec hbounds halign
  obtain ⟨hstart, hstop⟩ := Extent.ofLength?_eq_some_iff.1 hextent
  obtain ⟨low, high, hfit, husable⟩ :=
    @along_sound r intervals first last target [] _ _ _ _ ((r.heading.perm_path _).trans hperm)
      (r.heading.ordered_path hsorted) rfl (fun hfalse => by contradiction) hpath
  obtain ⟨hfirst, hlast, hinside⟩ := fit_spec hfit halign
  refine ⟨by omega, by omega, by omega, by omega, hsize, fun x hx => ?_⟩
  rw [Extent.mem_iff, hstart, hstop] at hx
  exact husable x (hinside x hx.1 hx.2).1 (hinside x hx.1 hx.2).2

end Request

end Staging

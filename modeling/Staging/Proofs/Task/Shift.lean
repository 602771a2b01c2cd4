import Staging.Proofs.Task.Target

/-!
# The nearest free place

Where a wish may put a target is free if no registered target is in the way (`Wish.Free`).  A target
that is moved past the registered ones stops at the first free place that it comes to
(`Wish.Nearest`), so what is selected is the free place nearest to the preferred candidate, if the
window holds that place (`Wish.select?_nearest`).

A move never jumps over a free place (`exists_past?`), and it leaves the registered target that was
in the way behind for good (`ahead_past?_lt`), whichever of the registered targets is looked at
first.  So one round for each registered target, and one to see that nothing is in the way, are
enough.
-/

namespace Staging.Wish

variable {w : Wish} {targets : List Extent} {slot hit : Extent} {target next : Nat}

/-- A free place: bytes from a multiple of the alignment on, apart from the registered targets. -/
structure Free (w : Wish) (targets : List Extent) (slot : Extent) : Prop where
  aligned : w.align ∣ slot.start
  size : slot.stop = slot.start + w.size
  apart : ∀ other ∈ targets, other.Apart slot

/-- The free place that comes first on the way from an address away from the preferred end of the
window. -/
structure Nearest (w : Wish) (targets : List Extent) (first : Nat) (slot : Extent) : Prop where
  free : w.Free targets slot
  onward : w.preferred.heading.Sooner first slot.start
  nearest : ∀ other, w.Free targets other → w.preferred.heading.Sooner first other.start →
    w.preferred.heading.Sooner slot.start other.start

/-- The candidate that is preferred: the first place for a target in one extent of RAM. -/
structure Preferred (w : Wish) (ram : List Extent) (first : Nat) : Prop where
  slot : w.Slot ram first
  first : ∀ t, w.Slot ram t → w.preferred.heading.Sooner first t

theorem Preferred.unique {ram : List Extent} (h : w.Preferred ram target)
    (h' : w.Preferred ram next) : target = next :=
  Heading.sooner_antisymm (h.first _ h'.slot) (h'.first _ h.slot)

theorem Nearest.unique {slot' : Extent} (h : w.Nearest targets target slot)
    (h' : w.Nearest targets target slot') : slot = slot' := by
  have hstart := Heading.sooner_antisymm (h.nearest _ h'.free h'.onward)
    (h'.nearest _ h.free h.onward)
  exact Extent.ext hstart (by rw [h.free.size, h'.free.size, hstart])

/-- What becomes of a target: it stops at the nearest free place, or there is none on its way. -/
def Lands (w : Wish) (targets : List Extent) (first : Nat) : Option Nat → Prop
  | some target => ∃ slot, slot.start = target ∧ w.Nearest targets first slot
  | none => ∀ slot, w.Free targets slot → ¬ w.preferred.heading.Sooner first slot.start

/-- A move that jumps over no free place does not change where a target lands. -/
theorem Lands.of_move {landed : Option Nat} (h : w.Lands targets next landed)
    (hsooner : w.preferred.heading.Sooner target next)
    (hahead : ∀ free, w.Free targets free → w.preferred.heading.Sooner target free.start →
      w.preferred.heading.Sooner next free.start) : w.Lands targets target landed := by
  cases landed with
  | none => exact fun free hfree honward => h free hfree (hahead free hfree honward)
  | some landed =>
      obtain ⟨slot, hstart, hfree, honward, hnearest⟩ := h
      exact ⟨slot, hstart, hfree, hsooner.trans honward,
        fun other hother hother' => hnearest other hother (hahead other hother hother')⟩

/-! ### One move -/

/-- **No free place is jumped over**: if one lies on the way from a target that is in the way of
another, then the target can be moved, and the free place is still in front of it. -/
theorem exists_past? {free : Extent} (halign : Address.isPowerOfTwo w.align = true)
    (hhit : hit ∈ targets) (hstart : slot.start = target) (hstop : slot.stop = target + w.size)
    (hmeets : hit.intersects slot = true) (hfree : w.Free targets free)
    (honward : w.preferred.heading.Sooner target free.start) :
    ∃ next, w.past? hit = some next ∧ w.preferred.heading.Sooner next free.start := by
  have hapart := hfree.apart hit hhit
  have hsize := hfree.size
  have hle := free.start_le_stop
  have hlt := free.stop_lt
  simp only [Extent.intersects, Bool.and_eq_true, decide_eq_true_eq] at hmeets
  simp only [Extent.Apart] at hapart
  unfold past?
  cases hpreferred : w.preferred with
  | low =>
      simp only [hpreferred, WindowEnd.heading, Heading.sooner_ascending] at honward ⊢
      exact Address.exists_ceilTo?_le halign hfree.aligned (by omega) (by omega) (by omega)
  | high =>
      simp only [hpreferred, WindowEnd.heading, Heading.sooner_descending] at honward ⊢
      have hroom : Address.sub? hit.start w.size = some (hit.start - w.size) :=
        Address.sub?_eq_some_iff.2 ⟨by omega, rfl⟩
      have hge := Address.le_floorTo halign hfree.aligned
        (show free.start ≤ hit.start - w.size by omega)
      exact ⟨_, by rw [hroom, Option.map_some], hge⟩

/-- Where a target is moved to is a multiple of the alignment. -/
theorem dvd_of_past? (halign : Address.isPowerOfTwo w.align = true)
    (h : w.past? hit = some next) : w.align ∣ next := by
  unfold past? at h
  split at h
  · exact Address.dvd_of_ceilTo? halign h
  · obtain ⟨room, -, rfl⟩ := Option.map_eq_some_iff.1 h
    exact Address.dvd_floorTo halign room

/-- Whether a registered target is behind a target that moves away from the preferred end. -/
def behind (w : Wish) (target : Nat) (other : Extent) : Bool :=
  match w.preferred with
  | .low => other.stop ≤ target
  | .high => target + w.size ≤ other.start

/-- Number of the registered targets that are not behind a target. -/
def ahead (w : Wish) (targets : List Extent) (target : Nat) : Nat :=
  targets.countP fun other => !w.behind target other

/-- A target that is moved goes on, with the one that was in its way behind it. -/
theorem behind_past? (halign : Address.isPowerOfTwo w.align = true)
    (hstart : slot.start = target) (hstop : slot.stop = target + w.size)
    (hmeets : hit.intersects slot = true) (hnext : w.past? hit = some next) :
    w.preferred.heading.Sooner target next ∧ w.behind next hit = true ∧
      w.behind target hit = false := by
  simp only [Extent.intersects, Bool.and_eq_true, decide_eq_true_eq] at hmeets
  unfold past? at hnext
  unfold behind
  cases hpreferred : w.preferred with
  | low =>
      simp only [hpreferred] at hnext
      have := Address.le_of_ceilTo? halign hnext
      simp only [WindowEnd.heading, Heading.sooner_ascending, decide_eq_true_eq,
        decide_eq_false_iff_not]
      omega
  | high =>
      simp only [hpreferred] at hnext
      obtain ⟨room, hroom, rfl⟩ := Option.map_eq_some_iff.1 hnext
      obtain ⟨hle, rfl⟩ := Address.sub?_eq_some_iff.1 hroom
      have := Address.floorTo_le w.align (hit.start - w.size)
      simp only [WindowEnd.heading, Heading.sooner_descending, decide_eq_true_eq,
        decide_eq_false_iff_not]
      omega

/-- What is behind a target stays behind it. -/
theorem behind_of_sooner {other : Extent} (h : w.behind target other = true)
    (hsooner : w.preferred.heading.Sooner target next) : w.behind next other = true := by
  unfold behind at h ⊢
  cases hpreferred : w.preferred with
  | low =>
      simp only [hpreferred, WindowEnd.heading, Heading.sooner_ascending, decide_eq_true_eq] at *
      omega
  | high =>
      simp only [hpreferred, WindowEnd.heading, Heading.sooner_descending, decide_eq_true_eq] at *
      omega

/-- **Each move leaves a registered target behind for good.** -/
theorem ahead_past?_lt (halign : Address.isPowerOfTwo w.align = true) (hhit : hit ∈ targets)
    (hstart : slot.start = target) (hstop : slot.stop = target + w.size)
    (hmeets : hit.intersects slot = true) (hnext : w.past? hit = some next) :
    w.ahead targets next < w.ahead targets target := by
  obtain ⟨hsooner, hbehind, hahead⟩ := behind_past? halign hstart hstop hmeets hnext
  have hmono (others : List Extent) : w.ahead others next ≤ w.ahead others target := by
    refine List.countP_mono_left fun other _ h => ?_
    cases hother : w.behind target other with
    | false => rfl
    | true => rw [behind_of_sooner hother hsooner] at h; contradiction
  obtain ⟨before, after, rfl⟩ := List.append_of_mem hhit
  have hbefore := hmono before
  have hafter := hmono after
  simp only [ahead] at hbefore hafter
  simp only [ahead, List.countP_append, List.countP_cons, hbehind, hahead, Bool.not_true,
    Bool.not_false, Bool.false_eq_true, if_false, if_true]
  omega

theorem ahead_le_length (w : Wish) (targets : List Extent) (target : Nat) :
    w.ahead targets target ≤ targets.length :=
  List.countP_le_length

/-! ### All moves -/

/-- A target that nothing is in the way of stays. -/
theorem lands_of_clear (hdvd : w.align ∣ target) (hstart : slot.start = target)
    (hstop : slot.stop = target + w.size) (hclear : targets.find? (·.intersects slot) = none) :
    w.Lands targets target (some target) := by
  subst hstart
  have hapart : ∀ other ∈ targets, other.Apart slot := fun other hother =>
    Extent.intersects_eq_false_iff.1 (Bool.not_eq_true _ ▸ List.find?_eq_none.1 hclear other hother)
  exact ⟨slot, rfl, ⟨hdvd, hstop, hapart⟩, w.preferred.heading.sooner_refl _, fun _ _ => id⟩

/-- Upwards from a target that does not fit below the top of memory there is no free place. -/
theorem lands_of_wraps (hlt : w.preferred = .high → target + w.size < Address.limit)
    (hwraps : Extent.ofLength? target w.size = none) : w.Lands targets target none := by
  intro free hfree honward
  have hout := Extent.ofBounds?_eq_none_iff.1 hwraps
  have hsize := hfree.size
  have hfits := free.stop_lt
  cases hpreferred : w.preferred with
  | low =>
      simp only [hpreferred, WindowEnd.heading, Heading.sooner_ascending] at honward
      omega
  | high => exact hout ⟨Nat.le_add_right _ _, hlt hpreferred⟩

/-- A target that is moved downwards stays below the top of memory. -/
theorem lt_of_past? (hlt : w.preferred = .high → target + w.size < Address.limit)
    (hsooner : w.preferred.heading.Sooner target next) (hpreferred : w.preferred = .high) :
    next + w.size < Address.limit := by
  have := hlt hpreferred
  simp only [hpreferred, WindowEnd.heading, Heading.sooner_descending] at hsooner
  omega

/-- **A target lands at the nearest free place**, once it has a round for each of the registered
targets that are ahead of it and one more. -/
theorem shift?_lands {rounds : Nat} (halign : Address.isPowerOfTwo w.align = true)
    (hdvd : w.align ∣ target) (hlt : w.preferred = .high → target + w.size < Address.limit)
    (hrounds : w.ahead targets target < rounds) :
    w.Lands targets target (w.shift? targets rounds target) := by
  induction rounds generalizing target with
  | zero => omega
  | succ rounds ih =>
      unfold shift?
      cases hslot : Extent.ofLength? target w.size with
      | none => exact lands_of_wraps hlt hslot
      | some slot =>
          obtain ⟨hstart, hstop⟩ := Extent.ofLength?_eq_some_iff.1 hslot
          simp only [Option.bind_eq_bind, Option.bind_some]
          split
          case h_1 hclear => exact lands_of_clear hdvd hstart hstop hclear
          case h_2 hit hfind =>
            have hhit := List.mem_of_find?_eq_some hfind
            have hmeets : hit.intersects slot = true := by simpa using List.find?_some hfind
            -- The free places that are still to come when the target is moved past the hit.
            have hcome (free : Extent) :=
              @exists_past? w targets slot hit target free halign hhit hstart hstop hmeets
            cases hnext : w.past? hit with
            | none =>
                intro free hfree honward
                obtain ⟨next, hsome, -⟩ := hcome free hfree honward
                cases hnext.symm.trans hsome
            | some next =>
                have hsooner := (behind_past? halign hstart hstop hmeets hnext).1
                have hless := ahead_past?_lt halign hhit hstart hstop hmeets hnext
                have hlands := ih (dvd_of_past? halign hnext) (lt_of_past? hlt hsooner) (by omega)
                refine hlands.of_move hsooner fun free hfree honward => ?_
                obtain ⟨next', hsome, hahead⟩ := hcome free hfree honward
                cases hnext.symm.trans hsome
                exact hahead

/-! ### What is selected -/

theorem preferred_iff {ram : List Extent} (halign : Address.isPowerOfTwo w.align = true) :
    w.best? (ram.filterMap w.candidate?) = some target ↔ w.Preferred ram target :=
  (best?_candidates_iff halign).trans ⟨fun h => ⟨h.1, h.2⟩, fun h => ⟨h.1, h.2⟩⟩

/-- The preferred candidate lands, with more rounds than there are registered targets. -/
theorem Preferred.lands {ram : List Extent} {rounds : Nat} (h : w.Preferred ram target)
    (halign : Address.isPowerOfTwo w.align = true) (hrounds : targets.length < rounds) :
    w.Lands targets target (w.shift? targets rounds target) := by
  have hfits := (fits_iff.1 h.slot.fits).2.2
  have hlt := w.window.stop_lt
  have hahead := w.ahead_le_length targets target
  exact shift?_lands halign h.slot.aligned (fun _ => by omega) (by omega)

/-- A target lands at one place. -/
theorem Lands.unique {landed landed' : Option Nat} (h : w.Lands targets target landed)
    (h' : w.Lands targets target landed') : landed = landed' := by
  cases landed with
  | none =>
      cases landed' with
      | none => rfl
      | some landed' =>
          obtain ⟨slot, -, hnearest⟩ := h'
          exact absurd hnearest.onward (h slot hnearest.free)
  | some landed =>
      obtain ⟨slot, rfl, hnearest⟩ := h
      cases landed' with
      | none => exact absurd hnearest.onward (h' slot hnearest.free)
      | some landed' =>
          obtain ⟨slot', rfl, hnearest'⟩ := h'
          rw [hnearest.unique hnearest']

/-- A free place is a slot that the check at the end does not reject. -/
theorem Free.clear (h : w.Free targets slot) :
    Extent.ofLength? slot.start w.size = some slot ∧
      targets.any (·.intersects slot) = false := by
  refine ⟨Extent.ofLength?_eq_some_iff.2 ⟨rfl, h.size⟩, List.any_eq_false.2 fun other hother => ?_⟩
  rw [Extent.intersects_eq_false_iff.2 (h.apart other hother)]
  exact Bool.false_ne_true

/-- A free place is selected if it is the nearest to the preferred candidate, and in the window. -/
theorem select?_eq_some_iff {ram : List Extent} (halign : Address.isPowerOfTwo w.align = true) :
    w.select? ram targets = some slot ↔
      ∃ first, w.Preferred ram first ∧ w.Nearest targets first slot ∧
        w.fits slot.start = true := by
  simp only [select?, Option.bind_eq_bind, Option.bind_eq_some_iff, preferred_iff halign]
  refine exists_congr fun first => and_congr_right fun hfirst => ?_
  have hlands := hfirst.lands halign (Nat.lt_succ_self targets.length)
  constructor
  · rintro ⟨target, hshift, slot', hslot', h⟩
    obtain ⟨hfits, hsome⟩ := Option.ite_none_right_eq_some.1 h
    cases hsome
    rw [hshift] at hlands
    obtain ⟨landed, rfl, hnearest⟩ := hlands
    cases hnearest.free.clear.1.symm.trans hslot'
    exact ⟨hnearest, (Bool.and_eq_true_iff.1 hfits).1⟩
  · rintro ⟨hnearest, hfits⟩
    obtain ⟨hslot, hnone⟩ := hnearest.free.clear
    refine ⟨slot.start, hlands.unique ⟨slot, rfl, hnearest⟩, slot, hslot, ?_⟩
    rw [hfits, hnone]
    rfl

/-- **What is selected** is the free place nearest to the preferred candidate, if the window holds
that place, and nothing if there is no candidate or no such place.  One round for each registered
target and one more are as good as any number of rounds, and where a target stops after them no
registered one is in its way. -/
theorem select?_nearest (w : Wish) (ram targets : List Extent)
    (halign : Address.isPowerOfTwo w.align = true) :
    (∀ slot, w.select? ram targets = some slot ↔
      ∃ first, w.Preferred ram first ∧ w.Nearest targets first slot ∧
        w.fits slot.start = true) ∧
    ∀ first, w.Preferred ram first →
      (∀ rounds > targets.length,
        w.shift? targets rounds first = w.shift? targets (targets.length + 1) first) ∧
      ∀ target, w.shift? targets (targets.length + 1) first = some target →
        ∃ slot, Extent.ofLength? target w.size = some slot ∧
          targets.any (·.intersects slot) = false := by
  refine ⟨fun slot => select?_eq_some_iff halign, fun first hfirst => ?_⟩
  have hlands := hfirst.lands halign (Nat.lt_succ_self targets.length)
  refine ⟨fun rounds hrounds => (hfirst.lands halign hrounds).unique hlands,
    fun target hshift => ?_⟩
  rw [hshift] at hlands
  obtain ⟨slot, rfl, hnearest⟩ := hlands
  exact ⟨slot, hnearest.free.clear⟩

/-- From above, a target is moved past three registered ones that were registered in another order
and overlap, down to the first page that is free. -/
theorem select?_nearest_below_three :
    ∃ w : Wish, ∃ ram targets : List Extent, ∃ slot : Extent, ∃ first,
      Address.isPowerOfTwo w.align = true ∧ targets.length = 3 ∧
      w.select? ram targets = some slot ∧ slot.start = 0x3000 ∧
      w.Preferred ram first ∧ w.Nearest targets first slot ∧
      w.shift? targets 3 first = some slot.start ∧
      ∀ rounds > 3, w.shift? targets rounds first = some slot.start := by
  let w : Wish := ⟨.ofBoundsD 0 0x8000, 0x1000, 0x1000, .high⟩
  let ram : List Extent := [.ofBoundsD 0x2000 0x8000, .ofBoundsD 0 0x1000]
  let targets : List Extent :=
    [.ofBoundsD 0x5800 0x7000, .ofBoundsD 0x4000 0x5000, .ofBoundsD 0x6800 0x7800]
  have halign : Address.isPowerOfTwo w.align = true := by decide
  have hsome : w.select? ram targets = some (.ofBoundsD 0x3000 0x4000) := by decide +kernel
  have hfirst : w.best? (ram.filterMap w.candidate?) = some 0x7000 := by decide +kernel
  obtain ⟨hselect, hrounds⟩ := select?_nearest w ram targets halign
  have hpreferred := (preferred_iff halign).1 hfirst
  obtain ⟨first, hpreferred', hnearest, -⟩ := (hselect _).1 hsome
  cases hpreferred.unique hpreferred'
  refine ⟨w, ram, targets, _, 0x7000, halign, rfl, hsome, rfl, hpreferred, hnearest,
    by decide +kernel, fun rounds hmore => ?_⟩
  rw [(hrounds _ hpreferred).1 rounds hmore]
  decide +kernel

end Staging.Wish

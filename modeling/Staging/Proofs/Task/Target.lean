import Staging.Proofs.Sweep.Slots
import Staging.Task.Target

/-!
# What a wish selects

A candidate lies in an extent of RAM (`Wish.candidate?_spec`), and the preferred one is the first
place inside the window at which one extent has room (`Wish.best?_candidates_iff`).  From there a
target moves past the registered ones in its way, so what is selected is apart from them, but it is
in that extent only if it did not have to move (`Wish.select?_spec`).
-/

namespace Staging

namespace Wish

variable {w : Wish} {target : Nat}

theorem fits_iff : w.fits target = true ↔
    w.window.start ≤ target ∧ 1 ≤ target ∧ target + w.size ≤ w.window.stop := by
  rw [fits, Bool.and_eq_true, decide_eq_true_iff, decide_eq_true_iff, floor]
  omega

/-- A candidate has room in its extent. -/
theorem candidate?_spec {ram : Extent} (h : w.candidate? ram = some target) :
    ram.start ≤ target ∧ target + w.size ≤ ram.stop := by
  have room {address : Nat} (h : (if max ram.start w.floor ≤ address ∧
      address + w.size ≤ min ram.stop w.window.stop then some address else none) = some target) :
      ram.start ≤ target ∧ target + w.size ≤ ram.stop := by
    obtain ⟨hfits, hsome⟩ := Option.ite_none_right_eq_some.1 h
    cases hsome
    omega
  unfold candidate? at h
  dsimp only at h
  split at h
  all_goals
    obtain ⟨_, -, h⟩ := Option.bind_eq_some_iff.1 h
    exact room h

/-- The preferred one of some addresses is the one that a sweep from the preferred end of the window
meets first. -/
theorem best?_eq_some_iff {addresses : List Nat} : w.best? addresses = some target ↔
    target ∈ addresses ∧ ∀ a ∈ addresses, w.preferred.heading.Sooner target a := by
  unfold best?
  cases w.preferred with
  | low => exact List.min?_eq_some_iff
  | high => exact List.max?_eq_some_iff

theorem mem_of_best? {addresses : List Nat} (h : w.best? addresses = some target) :
    target ∈ addresses := (best?_eq_some_iff.1 h).1

/-! ### Places for a target -/

/-- A place for a target: a multiple of the alignment inside the window, where one extent has room
for it. -/
structure Slot (w : Wish) (ram : List Extent) (target : Nat) : Prop where
  aligned : w.align ∣ target
  fits : w.fits target = true
  room : ∃ e ∈ ram, e.start ≤ target ∧ target + w.size ≤ e.stop

/-- The candidate of an extent is a place. -/
theorem slot_of_candidate? {ram : List Extent} {e : Extent}
    (halign : Address.isPowerOfTwo w.align = true) (he : e ∈ ram)
    (h : w.candidate? e = some target) : w.Slot ram target := by
  have hroom := candidate?_spec h
  have bounded {address : Nat} (hdvd : w.align ∣ address)
      (h : (if max e.start w.floor ≤ address ∧ address + w.size ≤ min e.stop w.window.stop then
        some address else none) = some target) : w.Slot ram target := by
    obtain ⟨hfits, hsome⟩ := Option.ite_none_right_eq_some.1 h
    cases hsome
    refine ⟨hdvd, fits_iff.2 ?_, e, he, hroom⟩
    simp only [floor] at hfits
    omega
  unfold candidate? at h
  dsimp only at h
  split at h
  case h_1 =>
    obtain ⟨address, hround, h⟩ := Option.bind_eq_some_iff.1 h
    exact bounded (Address.dvd_of_ceilTo? halign hround) h
  case h_2 =>
    obtain ⟨address, hround, h⟩ := Option.bind_eq_some_iff.1 h
    obtain ⟨room, -, rfl⟩ := Option.map_eq_some_iff.1 hround
    exact bounded (Address.dvd_floorTo halign room) h

/-- An extent with a place in it has a candidate, which is met no later. -/
theorem exists_candidate? {e : Extent} (halign : Address.isPowerOfTwo w.align = true)
    (hdvd : w.align ∣ target) (hfits : w.fits target = true)
    (hroom : e.start ≤ target ∧ target + w.size ≤ e.stop) :
    ∃ candidate, w.candidate? e = some candidate ∧
      w.preferred.heading.Sooner candidate target := by
  obtain ⟨hlo, hone, hhi⟩ := fits_iff.1 hfits
  have hlt := w.window.stop_lt
  have hlow : max e.start w.floor ≤ target := by
    simp only [floor]
    omega
  have hhigh : target + w.size ≤ min e.stop w.window.stop := by omega
  unfold candidate?
  cases w.preferred with
  | low =>
      obtain ⟨first, hround, hle⟩ :=
        Address.exists_ceilTo?_le halign hdvd (by omega) hlow (by omega)
      have hge := Address.le_of_ceilTo? halign hround
      have hinside : max e.start w.floor ≤ first ∧
          first + w.size ≤ min e.stop w.window.stop := by omega
      refine ⟨first, ?_, hle⟩
      simp only [hround, Option.bind_eq_bind, Option.bind_some, if_pos hinside]
  | high =>
      have hroom : Address.sub? (min e.stop w.window.stop) w.size =
          some (min e.stop w.window.stop - w.size) := Address.sub?_eq_some_iff.2 ⟨by omega, rfl⟩
      have hge := Address.le_floorTo halign hdvd
        (show target ≤ min e.stop w.window.stop - w.size by omega)
      have hle := Address.floorTo_le w.align (min e.stop w.window.stop - w.size)
      have hinside : max e.start w.floor ≤
            Address.floorTo w.align (min e.stop w.window.stop - w.size) ∧
          Address.floorTo w.align (min e.stop w.window.stop - w.size) + w.size ≤
            min e.stop w.window.stop := by omega
      refine ⟨_, ?_, hge⟩
      simp only [hroom, Option.map_some, Option.bind_eq_bind, Option.bind_some, if_pos hinside]

/-- **The preferred candidate** is the first place for a target. -/
theorem best?_candidates_iff {ram : List Extent} (halign : Address.isPowerOfTwo w.align = true) :
    w.best? (ram.filterMap w.candidate?) = some target ↔
      w.Slot ram target ∧ ∀ t, w.Slot ram t → w.preferred.heading.Sooner target t := by
  have hslot {t : Nat} (ht : t ∈ ram.filterMap w.candidate?) : w.Slot ram t := by
    obtain ⟨e, he, hcandidate⟩ := List.mem_filterMap.1 ht
    exact slot_of_candidate? halign he hcandidate
  have hsooner {t : Nat} (ht : w.Slot ram t) :
      ∃ c ∈ ram.filterMap w.candidate?, w.preferred.heading.Sooner c t := by
    obtain ⟨hdvd, hfits, e, he, hroom⟩ := ht
    obtain ⟨c, hc, hle⟩ := exists_candidate? halign hdvd hfits hroom
    exact ⟨c, List.mem_filterMap.2 ⟨e, he, hc⟩, hle⟩
  rw [best?_eq_some_iff]
  constructor
  · rintro ⟨hmem, hfirst⟩
    refine ⟨hslot hmem, fun t ht => ?_⟩
    obtain ⟨c, hc, hle⟩ := hsooner ht
    exact (hfirst c hc).trans hle
  · rintro ⟨htarget, hfirst⟩
    refine ⟨?_, fun a ha => hfirst a (hslot ha)⟩
    obtain ⟨c, hc, hle⟩ := hsooner htarget
    rwa [Heading.sooner_antisymm (hfirst c (hslot hc)) hle]

/-- What is selected depends on the places for a target only. -/
theorem select?_congr {ram ram' : List Extent} (halign : Address.isPowerOfTwo w.align = true)
    (h : ∀ t, w.Slot ram t ↔ w.Slot ram' t) (targets : List Extent) :
    w.select? ram targets = w.select? ram' targets := by
  have hbest : w.best? (ram.filterMap w.candidate?) = w.best? (ram'.filterMap w.candidate?) := by
    refine Option.ext fun t => ?_
    simp only [best?_candidates_iff halign, h]
  rw [select?, select?, hbest]

/-! ### What is selected -/

/-- A target stays where it is, or goes right past a registered one. -/
theorem shift?_spec {targets : List Extent} {rounds first : Nat}
    (h : w.shift? targets rounds first = some target) :
    target = first ∨ ∃ hit ∈ targets, w.past? hit = some target := by
  induction rounds generalizing first with
  | zero =>
      cases h
      exact .inl rfl
  | succ rounds ih =>
      obtain ⟨slot, -, h⟩ := Option.bind_eq_some_iff.1 h
      split at h
      case h_1 =>
        cases h
        exact .inl rfl
      case h_2 hit hfind =>
        obtain ⟨next, hnext, h⟩ := Option.bind_eq_some_iff.1 h
        rcases ih h with rfl | hpast
        · exact .inr ⟨hit, List.mem_of_find?_eq_some hfind, hnext⟩
        · exact .inr hpast

/-- **A target that is selected** has the size that was asked for, lies inside of the window and is
apart from the registered ones.  It is in an extent of RAM, or right past a registered one. -/
theorem select?_spec {ram targets : List Extent} {slot : Extent}
    (h : w.select? ram targets = some slot) :
    slot.stop = slot.start + w.size ∧ w.window.covers slot = true ∧
      (∀ other ∈ targets, other.Apart slot) ∧
      ((∃ e ∈ ram, e.covers slot = true) ∨ ∃ hit ∈ targets, w.past? hit = some slot.start) := by
  simp only [select?, Option.bind_eq_bind, Option.bind_eq_some_iff] at h
  obtain ⟨first, hbest, start, hshift, slot', hslot, h⟩ := h
  split at h
  case isFalse => contradiction
  case isTrue hclear =>
    cases h
    obtain ⟨rfl, hstop⟩ := Extent.ofLength?_eq_some_iff.1 hslot
    obtain ⟨hfits, hclear⟩ := Bool.and_eq_true_iff.1 hclear
    obtain ⟨hlo, -, hhi⟩ := fits_iff.1 hfits
    simp only [Bool.not_eq_true', List.any_eq_false, Bool.not_eq_true] at hclear
    refine ⟨hstop, Extent.covers_iff.2 ⟨hlo, hstop ▸ hhi⟩,
      fun other hother => Extent.intersects_eq_false_iff.1 (hclear other hother), ?_⟩
    rcases shift?_spec hshift with hsame | hpast
    · obtain ⟨e, he, hcandidate⟩ := List.mem_filterMap.1 (mem_of_best? hbest)
      obtain ⟨hstart, hroom⟩ := candidate?_spec hcandidate
      exact .inl ⟨e, he, Extent.covers_iff.2 ⟨hsame ▸ hstart, by omega⟩⟩
    · exact .inr hpast

end Wish

end Staging

import Staging.Proofs.Boot.Pages

/-!
# Covers of extents

Extents are given to boot services as runs of whole pages.  The cover of an extent that has a byte
(`PageRun.Covers`) starts at a multiple of the page size that is not above the first byte, and stops
at one that is above the last byte; so the least of its covers (`PageRun.IsLeastCover`) starts at
the greatest of the former and stops at the least of the latter.

There always is a least cover, but it may stop at the limit of the address space, which is no
address.  Rounding fails just there (`rounding_exact`). -/

namespace Staging.Boot

namespace PageRun

/-- Where the run stops, which may be the limit of the address space. -/
def stop (run : PageRun) : Nat := run.start + run.count * pageSize

/-- A run of whole pages that has all bytes of the extent. -/
structure Covers (run : PageRun) (e : Extent) : Prop where
  whole : pageSize ∣ run.start
  has : ∀ x ∈ e, run.start ≤ x ∧ x < run.stop

/-- A cover of the extent that is part of all its covers. -/
structure IsLeastCover (run : PageRun) (e : Extent) : Prop extends Covers run e where
  least : ∀ other : PageRun, other.Covers e → other.start ≤ run.start ∧ run.stop ≤ other.stop

variable {run run' : PageRun} {e : Extent}

theorem eq_of_bounds (hstart : run.start = run'.start) (hstop : run.stop = run'.stop) :
    run = run' := by
  obtain ⟨start, count⟩ := run
  obtain ⟨start', count'⟩ := run'
  simp only [stop, pageSize] at hstart hstop
  simp only [mk.injEq]
  omega

theorem IsLeastCover.unique (h : run.IsLeastCover e) (h' : run'.IsLeastCover e) : run = run' := by
  have hle := h.least run' h'.toCovers
  have hge := h'.least run h.toCovers
  exact eq_of_bounds (Nat.le_antisymm hge.1 hle.1) (Nat.le_antisymm hle.2 hge.2)

theorem Covers.dvd_stop (h : run.Covers e) : pageSize ∣ run.stop :=
  Nat.dvd_add h.whole (Nat.dvd_mul_left _ _)

theorem Covers.bounds (h : run.Covers e) (hne : e.start < e.stop) :
    run.start ≤ e.start ∧ e.stop ≤ run.stop := by
  have hfirst := h.has e.start ⟨Nat.le_refl _, hne⟩
  have hlast := h.has (e.stop - 1) ⟨Nat.le_sub_one_of_lt hne, Nat.sub_one_lt_of_lt hne⟩
  omega

theorem stop_of_dvd {start stop : Nat} (hstart : pageSize ∣ start) (hstop : pageSize ∣ stop)
    (hle : start ≤ stop) : PageRun.stop ⟨start, (stop - start) / pageSize⟩ = stop := by
  rw [PageRun.stop, Nat.div_mul_cancel (Nat.dvd_sub hstop hstart), Nat.add_sub_cancel' hle]

/-- The least cover lies between the multiples that are next to the bounds of the extent. -/
theorem isLeastCover_of_bounds {start stop : Nat} (hne : e.start < e.stop)
    (hstart : IsGreatest {t | pageSize ∣ t ∧ t ≤ e.start} start)
    (hstop : IsLeast {t | pageSize ∣ t ∧ e.stop ≤ t} stop) :
    IsLeastCover ⟨start, (stop - start) / pageSize⟩ e ∧
      PageRun.stop ⟨start, (stop - start) / pageSize⟩ = stop := by
  obtain ⟨⟨hdvd, hlo⟩, hgreatest⟩ := hstart
  obtain ⟨⟨hdvd', hhi⟩, hleast⟩ := hstop
  have hend : PageRun.stop ⟨start, (stop - start) / pageSize⟩ = stop :=
    stop_of_dvd hdvd hdvd' (by omega)
  refine ⟨⟨⟨hdvd, fun x hx => ?_⟩, fun other hother => ?_⟩, hend⟩
  · have := Extent.mem_iff.1 hx
    rw [hend]
    dsimp only
    omega
  · obtain ⟨hbelow, habove⟩ := hother.bounds hne
    rw [hend]
    exact ⟨hgreatest ⟨hother.whole, hbelow⟩, hleast ⟨hother.dvd_stop, habove⟩⟩

/-- An extent is covered by its least cover, unless that stops at the limit of the address space. -/
theorem exists_isLeastCover (hne : e.start < e.stop) : ∃ run : PageRun, run.IsLeastCover e ∧
    (cover? e = some run ∧ run.stop < Address.limit ∨
      cover? e = none ∧ run.stop = Address.limit) := by
  have hpower : Address.isPowerOfTwo pageSize = true := rfl
  have hstart := Address.isGreatest_floorTo hpower e.start
  obtain ⟨stop, hstop, hceil⟩ :=
    Address.exists_isLeast_of_le hpower (by decide) (Nat.le_of_lt e.stop_lt)
  obtain ⟨hleast, hend⟩ := isLeastCover_of_bounds hne hstart hstop
  refine ⟨_, hleast, ?_⟩
  rw [hend]
  rcases hceil with ⟨hceil, hlt⟩ | ⟨hceil, hlimit⟩
  · exact .inl ⟨by simp [cover?, hceil], hlt⟩
  · exact .inr ⟨by simp [cover?, hceil], hlimit⟩

theorem cover?_eq_some_iff (hne : e.start < e.stop) :
    cover? e = some run ↔ run.IsLeastCover e ∧ run.stop < Address.limit := by
  obtain ⟨least, hleast, hcases⟩ := exists_isLeastCover hne
  constructor
  · intro hcover
    rcases hcases with ⟨hsome, hlt⟩ | ⟨hnone, -⟩
    · cases hcover.symm.trans hsome
      exact ⟨hleast, hlt⟩
    · cases hcover.symm.trans hnone
  · rintro ⟨hrun, hlt⟩
    cases hrun.unique hleast
    rcases hcases with ⟨hsome, -⟩ | ⟨-, hend⟩
    · exact hsome
    · omega

theorem cover?_eq_none_iff (hne : e.start < e.stop) :
    cover? e = none ↔ ∃ run : PageRun, run.IsLeastCover e ∧ run.stop = Address.limit := by
  obtain ⟨least, hleast, hcases⟩ := exists_isLeastCover hne
  constructor
  · intro hnone
    rcases hcases with ⟨hsome, -⟩ | ⟨-, hend⟩
    · cases hnone.symm.trans hsome
    · exact ⟨least, hleast, hend⟩
  · rintro ⟨run, hrun, hend⟩
    cases hrun.unique hleast
    rcases hcases with ⟨-, hlt⟩ | ⟨hnone, -⟩
    · omega
    · exact hnone

end PageRun

/-- **Rounding is exact up to the limit of the address space.**  An address is rounded up to the
least multiple of a power of two that is not below it, which fails exactly if there is no such
multiple below the limit, and it is rounded down to the greatest multiple that is not above it; it
is aligned exactly if it is a multiple, and if it is what it is rounded to, up or down.  Hence an
extent that has a byte is covered by its least run of whole pages, which fails exactly if that run
stops at the limit. -/
theorem rounding_exact {x k : Nat} (hx : x < Address.limit) (hk : k < 64) {e : Extent}
    (hne : e.start < e.stop) :
    (∃ up down aligned, Address.alignUp x (2 ^ k) = .ok up ∧
      Address.alignDown x (2 ^ k) = .ok down ∧ Address.isAligned x (2 ^ k) = .ok aligned ∧
      Address.Rounded x (2 ^ k) up down aligned) ∧
    (∃! run : PageRun, run.IsLeastCover e) ∧
    (∀ run, PageRun.cover? e = some run ↔ run.IsLeastCover e ∧ run.stop < Address.limit) ∧
    (PageRun.cover? e = none ↔
      ∃ run : PageRun, run.IsLeastCover e ∧ run.stop = Address.limit) := by
  have hpower := Address.isPowerOfTwo_two_pow k
  have hlimit : 2 ^ k ≤ Address.limit := Nat.pow_le_pow_right (by decide) (Nat.le_of_lt hk)
  refine ⟨⟨_, _, _, if_pos hpower, if_pos hpower, if_pos hpower,
    Address.rounded hpower hlimit hx⟩, ?_, fun run => PageRun.cover?_eq_some_iff hne,
    PageRun.cover?_eq_none_iff hne⟩
  obtain ⟨run, hleast, -⟩ := PageRun.exists_isLeastCover hne
  exact ⟨run, hleast, fun other hother => hother.unique hleast⟩

/-- Above the last page that stops below the limit no address is rounded up, and an extent that
stops there is not covered, while the one that stops at that page is.  The highest alignment is
aligned to itself. -/
theorem rounding_exact_at_limit :
    (Address.alignUp 0xfffffffffffff001 (2 ^ 12) = .ok none ∧
      (¬ ∃ t < Address.limit, 2 ^ 12 ∣ t ∧ 0xfffffffffffff001 ≤ t) ∧
      Address.alignDown 0xfffffffffffff001 (2 ^ 12) = .ok 0xfffffffffffff000 ∧
      IsGreatest {t | 2 ^ 12 ∣ t ∧ t ≤ 0xfffffffffffff001} 0xfffffffffffff000 ∧
      ∃ e run, e.start = 0xffffffffffffefff ∧ e.stop = 0xfffffffffffff001 ∧
        PageRun.cover? e = none ∧ PageRun.IsLeastCover run e ∧ run.stop = Address.limit) ∧
    (Address.isAligned (2 ^ 63) (2 ^ 63) = .ok true ∧
      Address.alignUp (2 ^ 63) (2 ^ 63) = .ok (some (2 ^ 63)) ∧
      ∃ e, e.start = 0xffffffffffffefff ∧ e.stop = 0xfffffffffffff000 ∧
        PageRun.cover? e = some ⟨0xffffffffffffe000, 1⟩ ∧
        PageRun.IsLeastCover ⟨0xffffffffffffe000, 1⟩ e) := by
  constructor
  · let e : Extent := ⟨0xffffffffffffefff, 0xfffffffffffff001, by decide, by decide⟩
    have hx : 0xfffffffffffff001 < Address.limit := by decide
    have hk : 12 < 64 := by decide
    have hne : e.start < e.stop := by decide
    obtain ⟨⟨up, down, _, hup, hdown, -, hrounded⟩, -, -, hnone⟩ := rounding_exact hx hk hne
    have hup' : Address.alignUp 0xfffffffffffff001 (2 ^ 12) = .ok none := rfl
    have hdown' : Address.alignDown 0xfffffffffffff001 (2 ^ 12) = .ok 0xfffffffffffff000 := rfl
    cases hup'.symm.trans hup
    cases hdown'.symm.trans hdown
    have hcover : PageRun.cover? e = none := by decide +kernel
    obtain ⟨run, hleast, hend⟩ := hnone.1 hcover
    exact ⟨hup', hrounded.up_eq_none_iff.1 rfl, hdown', hrounded.isGreatest_down,
      e, run, rfl, rfl, hcover, hleast, hend⟩
  · let e : Extent := ⟨0xffffffffffffefff, 0xfffffffffffff000, by decide, by decide⟩
    have hx : 2 ^ 63 < Address.limit := by decide
    have hk : 63 < 64 := by decide
    have hne : e.start < e.stop := by decide
    obtain ⟨⟨up, _, aligned, hup, -, haligned, hrounded⟩, -, hsome, -⟩ := rounding_exact hx hk hne
    have haligned' : Address.isAligned (2 ^ 63) (2 ^ 63) = .ok true := rfl
    cases haligned'.symm.trans haligned
    cases hrounded.aligned_iff_up.1 rfl
    have hcover : PageRun.cover? e = some ⟨0xffffffffffffe000, 1⟩ := by decide +kernel
    exact ⟨haligned', hup, e, rfl, rfl, hcover, ((hsome _).1 hcover).1⟩

end Staging.Boot

import Mathlib.Algebra.Group.Nat.Defs
import Mathlib.Order.Bounds.Basic
import Staging.Address

/-!
# Rounding addresses

Clearing the bits below a power of two is a mask on words (`floorTo_toNat`).  It rounds down to a
multiple, so `Address.floorTo` and `Address.ceilTo?` are divisions with remainder (`floorTo_eq`,
`ceilTo?_eq_some_iff`).  They yield the greatest multiple below an address and the least one above
it (`isGreatest_floorTo`, `ceilTo?_eq_some_iff_isLeast`), and the address itself just if it is a
multiple (`rounded`).

The alignments are the powers of two up to `limit`, which is a multiple of them all.  Hence below
`limit` a multiple has room for a whole alignment (`add_le_limit`), and the sum that is rounded up
passes `limit` only if every multiple does (`ceilTo?_eq_none_iff`).
-/

namespace Staging.Address

theorem exists_eq_two_pow {align : Nat} (h : isPowerOfTwo align = true) : ∃ k, align = 2 ^ k := by
  simp only [isPowerOfTwo, Bool.and_eq_true, bne_iff_ne, beq_iff_eq] at h
  exact (Nat.and_sub_one_eq_zero_iff_isPowerOfTwo h.1).1 h.2

theorem pos_of_isPowerOfTwo {align : Nat} (h : isPowerOfTwo align = true) : 0 < align := by
  obtain ⟨k, rfl⟩ := exists_eq_two_pow h
  exact Nat.two_pow_pos k

theorem isPowerOfTwo_two_pow (k : Nat) : isPowerOfTwo (2 ^ k) = true := by
  rw [isPowerOfTwo, Nat.and_two_pow_sub_one_eq_mod, Nat.mod_self]
  simp

/-- A word is made up of the bits that a mask clears and of the bits that it keeps. -/
theorem toNat_mask_add (x mask : UInt64) :
    (x &&& ~~~mask).toNat + (x &&& mask).toNat = x.toNat := by
  have hdisjoint : (x &&& ~~~mask).toBitVec &&& (x &&& mask).toBitVec = 0#64 := by
    ext i
    cases hmask : mask.toBitVec[i] <;> simp [hmask]
  have hjoin : (x &&& ~~~mask).toBitVec ||| (x &&& mask).toBitVec = x.toBitVec := by
    ext i
    cases hmask : mask.toBitVec[i] <;> simp [hmask]
  have hsum := BitVec.toNat_add_of_and_eq_zero hdisjoint
  rw [BitVec.add_eq_or_of_and_eq_zero _ _ hdisjoint, hjoin] at hsum
  exact hsum.symm

/-- **Rounding down is a mask** on words, whatever the alignment is, unless it is zero. -/
theorem floorTo_toNat (x : UInt64) {align : UInt64} (h : align ≠ 0) :
    floorTo align.toNat x.toNat = (x &&& ~~~(align - 1)).toNat := by
  have hone : (1 : UInt64) ≤ align := by
    rw [UInt64.le_iff_toNat_le, UInt64.toNat_one]
    exact Nat.one_le_iff_ne_zero.2 fun hzero => h (UInt64.toNat_inj.1 hzero)
  have hsum := toNat_mask_add x (align - 1)
  rw [UInt64.toNat_and x (align - 1), UInt64.toNat_sub_of_le _ _ hone, UInt64.toNat_one] at hsum
  exact Nat.sub_eq_of_eq_add hsum.symm

/-- Rounding down never goes up, whatever the alignment is. -/
theorem floorTo_le (align x : Nat) : floorTo align x ≤ x := Nat.sub_le _ _

/-- Rounding down to a power of two is rounding down to a multiple. -/
theorem floorTo_eq {align : Nat} (h : isPowerOfTwo align = true) (x : Nat) :
    floorTo align x = x / align * align := by
  obtain ⟨k, rfl⟩ := exists_eq_two_pow h
  have := Nat.div_add_mod' x (2 ^ k)
  rw [floorTo, Nat.and_two_pow_sub_one_eq_mod]
  omega

theorem add?_eq_some_iff {x offset y : Nat} :
    add? x offset = some y ↔ x + offset < limit ∧ y = x + offset := by
  unfold add?
  rw [Option.ite_none_right_eq_some, Option.some_inj, @eq_comm _ y]

theorem add_eq_ok_iff {x y sum : Nat} : add x y = .ok sum ↔ x + y < limit ∧ sum = x + y := by
  unfold add
  split
  case isTrue h => simp [h, eq_comm]
  case isFalse h => simp [h]

theorem sub?_eq_some_iff {x offset y : Nat} :
    sub? x offset = some y ↔ offset ≤ x ∧ y = x - offset := by
  unfold sub?
  rw [Option.ite_none_right_eq_some, Option.some_inj, @eq_comm _ y]

/-- Rounding up to a power of two is rounding up to a multiple. -/
theorem ceilTo?_eq_some_iff {align : Nat} (h : isPowerOfTwo align = true) {x y : Nat} :
    ceilTo? align x = some y ↔
      x + (align - 1) < limit ∧ y = (x + (align - 1)) / align * align := by
  unfold ceilTo?
  rw [Option.map_eq_some_iff]
  constructor
  · rintro ⟨sum, hsum, rfl⟩
    obtain ⟨hlt, rfl⟩ := add?_eq_some_iff.1 hsum
    exact ⟨hlt, floorTo_eq h _⟩
  · rintro ⟨hlt, rfl⟩
    exact ⟨_, add?_eq_some_iff.2 ⟨hlt, rfl⟩, floorTo_eq h _⟩

theorem le_of_ceilTo? {align : Nat} (h : isPowerOfTwo align = true) {x y : Nat}
    (hy : ceilTo? align x = some y) : x ≤ y := by
  obtain ⟨-, rfl⟩ := (ceilTo?_eq_some_iff h).1 hy
  have hdiv := Nat.div_add_mod' (x + (align - 1)) align
  have hmod := Nat.mod_lt (x + (align - 1)) (pos_of_isPowerOfTwo h)
  omega

theorem dvd_floorTo {align : Nat} (h : isPowerOfTwo align = true) (x : Nat) :
    align ∣ floorTo align x := by
  rw [floorTo_eq h]
  exact Nat.dvd_mul_left _ _

/-- Rounding down yields the greatest multiple that is not above the address. -/
theorem le_floorTo {align : Nat} (h : isPowerOfTwo align = true) {x t : Nat} (hdvd : align ∣ t)
    (hle : t ≤ x) : t ≤ floorTo align x := by
  obtain ⟨k, rfl⟩ := hdvd
  rw [floorTo_eq h, Nat.mul_comm]
  refine Nat.mul_le_mul_right align ((Nat.le_div_iff_mul_le (pos_of_isPowerOfTwo h)).2 ?_)
  rwa [Nat.mul_comm]

theorem dvd_of_ceilTo? {align : Nat} (h : isPowerOfTwo align = true) {x y : Nat}
    (hy : ceilTo? align x = some y) : align ∣ y := by
  obtain ⟨-, rfl⟩ := (ceilTo?_eq_some_iff h).1 hy
  exact Nat.dvd_mul_left _ _

theorem isGreatest_floorTo {align : Nat} (h : isPowerOfTwo align = true) (x : Nat) :
    IsGreatest {t | align ∣ t ∧ t ≤ x} (floorTo align x) :=
  ⟨⟨dvd_floorTo h x, floorTo_le align x⟩, fun _ ht => le_floorTo h ht.1 ht.2⟩

/-! ### Alignments up to the limit -/

section UpToLimit

variable {align : Nat} (h : isPowerOfTwo align = true) (hlimit : align ≤ limit)
include h hlimit

theorem dvd_limit : align ∣ limit := by
  obtain ⟨k, rfl⟩ := exists_eq_two_pow h
  have hpow : 2 ^ k ≤ 2 ^ 64 := hlimit
  exact Nat.pow_dvd_pow 2 ((Nat.pow_le_pow_iff_right (by decide)).1 hpow)

/-- Below the limit, a multiple has room for a whole alignment. -/
theorem add_le_limit {t : Nat} (hdvd : align ∣ t) (hlt : t < limit) : t + align ≤ limit :=
  Nat.le_of_lt_add_of_dvd (Nat.add_lt_add_right hlt _) (Nat.dvd_add hdvd (Nat.dvd_refl _))
    (dvd_limit h hlimit)

/-- Rounding up succeeds below each multiple that is an address, and does not pass it. -/
theorem ceilTo?_le {x t : Nat} (hdvd : align ∣ t) (hle : x ≤ t) (hlt : t < limit) :
    ∃ y, ceilTo? align x = some y ∧ y ≤ t := by
  have hpos := pos_of_isPowerOfTwo h
  have hroom := add_le_limit h hlimit hdvd hlt
  obtain ⟨n, rfl⟩ := hdvd
  have hfits : x + (align - 1) < limit := by omega
  refine ⟨_, (ceilTo?_eq_some_iff h).2 ⟨hfits, rfl⟩, ?_⟩
  have hdiv : (x + (align - 1)) / align < n + 1 := by
    rw [Nat.div_lt_iff_lt_mul hpos, Nat.succ_mul, Nat.mul_comm n]
    omega
  rw [Nat.mul_comm]
  exact Nat.mul_le_mul_left _ (Nat.le_of_lt_succ hdiv)

/-- Rounding up yields an address, which is the least multiple of all, also of those that are no
addresses. -/
theorem ceilTo?_eq_some_iff_isLeast {x y : Nat} :
    ceilTo? align x = some y ↔ y < limit ∧ IsLeast {t | align ∣ t ∧ x ≤ t} y := by
  constructor
  · intro hy
    obtain ⟨hlt, hdiv⟩ := (ceilTo?_eq_some_iff h).1 hy
    have hylt : y < limit := Nat.lt_of_le_of_lt (hdiv ▸ Nat.div_mul_le_self _ _) hlt
    refine ⟨hylt, ⟨dvd_of_ceilTo? h hy, le_of_ceilTo? h hy⟩, ?_⟩
    rintro t ⟨hdvd, hle⟩
    -- A multiple that is no address is above every address.
    by_cases htlt : t < limit
    · obtain ⟨y', hy', hle'⟩ := ceilTo?_le h hlimit hdvd hle htlt
      cases hy.symm.trans hy'
      exact hle'
    · omega
  · rintro ⟨hylt, ⟨hdvd, hle⟩, hleast⟩
    obtain ⟨y', hy', hle'⟩ := ceilTo?_le h hlimit hdvd hle hylt
    have hge := hleast ⟨dvd_of_ceilTo? h hy', le_of_ceilTo? h hy'⟩
    rwa [← Nat.le_antisymm hle' hge]

/-- Rounding up fails only where no multiple is an address. -/
theorem ceilTo?_eq_none_iff {x : Nat} :
    ceilTo? align x = none ↔ ¬ ∃ t < limit, align ∣ t ∧ x ≤ t := by
  rw [Option.eq_none_iff_forall_ne_some]
  constructor
  · rintro hnone ⟨t, hlt, hdvd, hle⟩
    obtain ⟨y, hy, -⟩ := ceilTo?_le h hlimit hdvd hle hlt
    exact hnone y hy
  · intro hnone y hy
    obtain ⟨hlt, hleast⟩ := (ceilTo?_eq_some_iff_isLeast h hlimit).1 hy
    exact hnone ⟨y, hlt, hleast.1⟩

/-- The least multiple that is not below an address is what it is rounded up to, or the limit. -/
theorem exists_isLeast_of_le {x : Nat} (hx : x ≤ limit) :
    ∃ y, IsLeast {t | align ∣ t ∧ x ≤ t} y ∧
      (ceilTo? align x = some y ∧ y < limit ∨ ceilTo? align x = none ∧ y = limit) := by
  cases hceil : ceilTo? align x with
  | some y =>
      obtain ⟨hlt, hleast⟩ := (ceilTo?_eq_some_iff_isLeast h hlimit).1 hceil
      exact ⟨y, hleast, .inl ⟨rfl, hlt⟩⟩
  | none =>
      -- The limit is a multiple itself, and there is none below it.
      have hnone := (ceilTo?_eq_none_iff h hlimit).1 hceil
      refine ⟨limit, ⟨⟨dvd_limit h hlimit, hx⟩, fun t ht => ?_⟩, .inr ⟨rfl, rfl⟩⟩
      exact Nat.le_of_not_lt fun hlt => hnone ⟨t, hlt, ht⟩

end UpToLimit

/-- Rounding up yields the least multiple that is not below the address, if that is an address. -/
theorem exists_ceilTo?_le {align : Nat} (h : isPowerOfTwo align = true) {x t : Nat}
    (hdvd : align ∣ t) (hpos : 0 < t) (hle : x ≤ t) (hlt : t < limit) :
    ∃ y, ceilTo? align x = some y ∧ y ≤ t :=
  ceilTo?_le h (Nat.le_trans (Nat.le_of_dvd hpos hdvd) (Nat.le_of_lt hlt)) hdvd hle hlt

/-- What an address is rounded to, up and down, and whether it is aligned. -/
structure Rounded (x align : Nat) (up : Option Nat) (down : Nat) (aligned : Bool) : Prop where
  /-- Up is to the least multiple that is not below the address. -/
  up_eq_some_iff : ∀ y, up = some y ↔ y < limit ∧ IsLeast {t | align ∣ t ∧ x ≤ t} y
  /-- It fails exactly if there is no such multiple below the limit. -/
  up_eq_none_iff : up = none ↔ ¬ ∃ t < limit, align ∣ t ∧ x ≤ t
  /-- Down is to the greatest multiple that is not above the address. -/
  isGreatest_down : IsGreatest {t | align ∣ t ∧ t ≤ x} down
  aligned_iff_dvd : aligned = true ↔ align ∣ x
  aligned_iff_up : aligned = true ↔ up = some x
  aligned_iff_down : aligned = true ↔ down = x

theorem and_sub_one_beq_zero_iff {align : Nat} (h : isPowerOfTwo align = true) {x : Nat} :
    (x &&& (align - 1) == 0) = true ↔ align ∣ x := by
  obtain ⟨k, rfl⟩ := exists_eq_two_pow h
  rw [beq_iff_eq, Nat.and_two_pow_sub_one_eq_mod, Nat.dvd_iff_mod_eq_zero]

/-- **Rounding is exact** for the alignments up to the limit. -/
theorem rounded {x align : Nat} (h : isPowerOfTwo align = true) (hlimit : align ≤ limit)
    (hx : x < limit) :
    Rounded x align (ceilTo? align x) (floorTo align x) (x &&& (align - 1) == 0) where
  up_eq_some_iff _ := ceilTo?_eq_some_iff_isLeast h hlimit
  up_eq_none_iff := ceilTo?_eq_none_iff h hlimit
  isGreatest_down := isGreatest_floorTo h x
  aligned_iff_dvd := and_sub_one_beq_zero_iff h
  aligned_iff_up := by
    rw [and_sub_one_beq_zero_iff h, ceilTo?_eq_some_iff_isLeast h hlimit]
    constructor
    · intro hdvd
      exact ⟨hx, ⟨hdvd, Nat.le_refl x⟩, fun _ ht => ht.2⟩
    · rintro ⟨-, ⟨hdvd, -⟩, -⟩
      exact hdvd
  aligned_iff_down := by
    rw [and_sub_one_beq_zero_iff h]
    constructor
    · intro hdvd
      exact Nat.le_antisymm (floorTo_le align x) (le_floorTo h hdvd (Nat.le_refl x))
    · intro hdown
      exact hdown ▸ dvd_floorTo h x

end Staging.Address

import Muntjac.Ieee.Format
import Mathlib.Algebra.Ring.CharZero

/-!
# What rounding is

The format's numbers, without a bound on the exponent, are a set; rounding down is its
greatest element below, rounding up its least element above, and rounding to nearest an
element at the least distance.  `Format.round` encodes the element that its direction
chooses, or overflows.

## Main definitions

* `Format.Representable`, `Format.Rounds` — the set, and the choice of each direction.
* `Format.Delivers` — the encoding that is prescribed for a number.

## Main results

* `Format.round_delivers` — `Format.round` delivers it.
-/

namespace Muntjac.Ieee

open Sync

namespace Format
variable (f : Format)

section Pack
variable {f} {neg : Bool} {e s : ℕ}

theorem pack_lt (he : e < 2 ^ f.expWidth) (hs : s < 2 ^ f.sigWidth) :
    f.pack neg e s < 2 ^ f.width := by
  have hn : neg.toNat < 2 := Bool.toNat_lt neg
  have h1 : neg.toNat * 2 ^ f.expWidth + e < 2 ^ (f.expWidth + 1) := by
    rw [Nat.pow_succ]
    nlinarith
  rw [pack, cat, cat, width, show f.expWidth + f.sigWidth + 1 = f.expWidth + 1 + f.sigWidth by ring,
    Nat.pow_add]
  nlinarith [Nat.two_pow_pos f.sigWidth]

@[simp] theorem significand_pack (hs : s < 2 ^ f.sigWidth) : f.significand (f.pack neg e s) = s :=
  cat_mod hs

@[simp] theorem exponent_pack (he : e < 2 ^ f.expWidth) (hs : s < 2 ^ f.sigWidth) :
    f.exponent (f.pack neg e s) = e := by
  rw [exponent, pack, cat_div hs, cat_mod he]

@[simp] theorem sign_pack (he : e < 2 ^ f.expWidth) (hs : s < 2 ^ f.sigWidth) :
    f.sign (f.pack neg e s) = neg := by
  have h := Nat.testBit_div_two_pow (n := f.expWidth) (cat neg.toNat f.expWidth e) 0
  rw [Nat.zero_add, cat_div he] at h
  rw [sign, pack, ← Nat.testBit_div_two_pow, cat_div hs, ← h]
  cases neg <;> rfl

end Pack

/-! ## Finite encodings -/

section Encodes
variable {K : Type*} [Field K]

/-- `b` encodes the finite number with the given sign and magnitude. -/
structure Encodes (b : ℕ) (neg : Bool) (y : K) : Prop where
  lt : b < 2 ^ f.width
  finite : f.exponent b < 2 ^ f.expWidth - 1
  sign : f.sign b = neg
  magnitude : f.magnitude b = y

/-- `n` units in the last place of a binade have the encoding of their value. -/
theorem encodes_finite (neg : Bool) {e : ℤ} {n : ℕ} (hlo : f.minExp ≤ e) (hhi : e ≤ f.maxExp)
    (hn : n < 2 ^ (f.sigWidth + 1)) (hnorm : 2 ^ f.sigWidth ≤ n ∨ e = f.minExp) :
    f.Encodes (f.finite neg e n) neg ((n : K) * 2 ^ (e - f.sigWidth)) := by
  have hb := f.one_le_bias
  have hmax := f.maxExp_eq
  have hmin : f.minExp = 1 - f.bias := rfl
  have hpow := f.two_pow_expWidth
  rw [Nat.pow_succ] at hn
  rw [Format.finite]
  split_ifs with h
  · have he : e = f.minExp := hnorm.resolve_left (by omega)
    have h0 : 0 < 2 ^ f.expWidth - 1 := by zify [Nat.one_le_two_pow]; omega
    refine ⟨pack_lt (by omega) h, ?_, sign_pack (by omega) h, ?_⟩
    · rw [exponent_pack (by omega) h]
      exact h0
    · rw [Format.magnitude, exponent_pack (by omega) h, if_pos rfl, significand_pack h, he]
  · have hs : n - 2 ^ f.sigWidth < 2 ^ f.sigWidth := by omega
    have hfield : ((e + f.bias).toNat : ℤ) = e + f.bias := Int.toNat_of_nonneg (by omega)
    have he : (e + f.bias).toNat < 2 ^ f.expWidth - 1 := by
      zify [Nat.one_le_two_pow]
      omega
    refine ⟨pack_lt (by omega) hs, ?_, sign_pack (by omega) hs, ?_⟩
    · rw [exponent_pack (by omega) hs]
      exact he
    · rw [Format.magnitude, exponent_pack (by omega) hs, significand_pack hs,
        if_neg (by omega), hfield, Nat.cast_sub (not_lt.mp h)]
      push_cast
      rw [show e + f.bias - f.bias - f.sigWidth = e - f.sigWidth by ring]
      ring

end Encodes

/-! ## The directions -/

section Rounds
variable {K : Type*} [Field K] [LinearOrder K]

/-- The numbers of the format, without a bound on the exponent. -/
def Representable (y : K) : Prop :=
  ∃ n : ℕ, ∃ q : ℤ, n < 2 ^ (f.sigWidth + 1) ∧ f.minExp - f.sigWidth ≤ q ∧ y = n * 2 ^ q

/-- `y` is at the least distance from `x`. -/
def Nearest (x y : K) : Prop :=
  f.Representable y ∧ ∀ r, f.Representable r → |x - y| ≤ |x - r|

variable [FloorSemiring K]

/-- The last bit of the significand of `y` is zero. -/
def LastBitZero (y : K) : Prop := ∃ n : ℕ, y = (2 * n : ℕ) * f.ulp y

/-- What each direction chooses for the magnitude `x`. -/
def Rounds (rm : RoundingMode) (neg : Bool) (x y : K) : Prop :=
  match rm with
  | .tiesToEven => f.Nearest x y ∧ ∀ r, f.Nearest x r → r ≠ y → f.LastBitZero y
  | .tiesToAway => IsGreatest {r | f.Nearest x r} y
  | .towardZero => IsGreatest {r | f.Representable r ∧ r ≤ x} y
  | .towardNegative =>
      if neg then IsLeast {r | f.Representable r ∧ x ≤ r} y
      else IsGreatest {r | f.Representable r ∧ r ≤ x} y
  | .towardPositive =>
      if neg then IsGreatest {r | f.Representable r ∧ r ≤ x} y
      else IsLeast {r | f.Representable r ∧ x ≤ r} y

/-- The encoding that is prescribed for the magnitude `x`. -/
def Delivers (rm : RoundingMode) (neg : Bool) (x : K) (b : ℕ) : Prop :=
  ∃ y, f.Rounds rm neg x y ∧
    if y < 2 ^ (f.maxExp + 1) then f.Encodes b neg y
    else b = if overflowsToInf rm neg then f.infinity neg else f.largest neg

end Rounds

section Bound
variable {K : Type*} [Field K] [LinearOrder K] [FloorSemiring K] [IsStrictOrderedRing K]

/-- No direction leaves a number of the format behind. -/
theorem Rounds.le_of_le {rm : RoundingMode} {neg : Bool} {x y z : K} (h : f.Rounds rm neg x y)
    (hz : f.Representable z) (hzx : z ≤ x) : z ≤ y := by
  have hnear : f.Nearest x y → z ≤ y := by
    intro hn
    by_contra hlt
    have hdist := hn.2 z hz
    rw [abs_of_nonneg (by linarith), abs_of_nonneg (by linarith)] at hdist
    linarith
  have hup : IsLeast {r | f.Representable r ∧ x ≤ r} y → z ≤ y := fun h => hzx.trans h.1.2
  have hdown : IsGreatest {r | f.Representable r ∧ r ≤ x} y → z ≤ y := fun h => h.2 ⟨hz, hzx⟩
  cases rm with
  | tiesToEven => exact hnear h.1
  | tiesToAway => exact hnear h.1
  | towardZero => exact hdown h
  | towardNegative =>
      cases neg with
      | true => exact hup h
      | false => exact hdown h
  | towardPositive =>
      cases neg with
      | true => exact hdown h
      | false => exact hup h

omit [IsStrictOrderedRing K] in
theorem representable_two_pow {e : ℤ} (he : f.minExp ≤ e) : f.Representable ((2 : K) ^ e) := by
  refine ⟨2 ^ f.sigWidth, e - f.sigWidth, Nat.pow_lt_pow_right one_lt_two (Nat.lt_succ_self _),
    by omega, ?_⟩
  rw [Nat.cast_pow, Nat.cast_ofNat, ← zpow_natCast, ← zpow_add₀ two_ne_zero]
  congr 1
  ring

/-- The encoding of a number above the largest exponent is not that of a small one. -/
theorem Delivers.exponent_ne_zero {rm : RoundingMode} {neg : Bool} {x : K} {b : ℕ}
    (h : f.Delivers rm neg x b) (hx : 2 ^ (f.maxExp + 1) ≤ x) : f.exponent b ≠ 0 := by
  have hb := f.one_le_bias
  have hmax := f.maxExp_eq
  have hmin : f.minExp = 1 - f.bias := rfl
  have hexp : 2 ^ 2 ≤ 2 ^ f.expWidth := Nat.pow_le_pow_right two_pos f.two_le_expWidth
  have hsig := Nat.two_pow_pos f.sigWidth
  obtain ⟨y, hy, hb⟩ := h
  rw [if_neg (not_lt.mpr (hy.le_of_le f (f.representable_two_pow (by omega)) hx))] at hb
  subst hb
  split_ifs
  · rw [infinity, exponent_pack (by omega) (by omega)]
    omega
  · rw [largest, exponent_pack (by omega) (by omega)]
    omega

end Bound

section Multiple
variable {K : Type*} [Field K] [LinearOrder K] [FloorSemiring K] [IsStrictOrderedRing K]
variable {x r : K}

theorem log_mem (hx : 0 < x) : (2 : K) ^ Int.log 2 x ≤ x ∧ x < 2 ^ (Int.log 2 x + 1) := by
  constructor
  · exact_mod_cast Int.zpow_log_le_self one_lt_two hx
  · exact_mod_cast Int.lt_zpow_succ_log_self one_lt_two x

theorem lt_two_pow_binade (hx : 0 < x) : x < 2 ^ (f.binade x + 1) :=
  have hle : Int.log 2 x + 1 ≤ f.binade x + 1 := by
    have := le_max_right f.minExp (Int.log 2 x)
    rw [binade]
    omega
  (log_mem hx).2.trans_le (zpow_le_zpow_right₀ one_le_two hle)

theorem two_pow_binade_le (hx : 0 < x) (h : f.minExp < f.binade x) : 2 ^ f.binade x ≤ x := by
  have heq : f.binade x = Int.log 2 x := by
    rw [binade] at h ⊢
    omega
  rw [heq]
  exact (log_mem hx).1

omit [IsStrictOrderedRing K] in
theorem two_pow_eq_ulp (x : K) : (2 : K) ^ f.binade x = (2 ^ f.sigWidth : ℕ) * f.ulp x := by
  rw [ulp, Nat.cast_pow, Nat.cast_ofNat, ← zpow_natCast, ← zpow_add₀ two_ne_zero]
  congr 1
  ring

/-- In the binade of `x` and above, the numbers of the format are multiples of the unit in
the last place. -/
theorem Representable.eq_mul_ulp (hr : f.Representable r)
    (h : f.binade x = f.minExp ∨ 2 ^ f.binade x ≤ r) : ∃ k : ℕ, r = k * f.ulp x := by
  obtain ⟨n, q, hn, hq, rfl⟩ := hr
  have hle : f.binade x - f.sigWidth ≤ q := by
    rcases h with h | h
    · rwa [h]
    · by_contra hlt
      have hcast : (n : K) < 2 ^ ((f.sigWidth : ℤ) + 1) := by exact_mod_cast hn
      have hmul : (n : K) * 2 ^ q < 2 ^ ((f.sigWidth : ℤ) + 1) * 2 ^ q :=
        mul_lt_mul_of_pos_right hcast (zpow_pos two_pos _)
      rw [← zpow_add₀ two_ne_zero] at hmul
      have hmono : (2 : K) ^ ((f.sigWidth : ℤ) + 1 + q) ≤ 2 ^ f.binade x :=
        zpow_le_zpow_right₀ one_le_two (by omega)
      exact absurd (hmul.trans_le hmono) (not_lt.mpr h)
  refine ⟨n * 2 ^ (q - (f.binade x - f.sigWidth)).toNat, ?_⟩
  rw [ulp, Nat.cast_mul, Nat.cast_pow, Nat.cast_ofNat, mul_assoc, ← zpow_natCast,
    ← zpow_add₀ two_ne_zero, Int.toNat_of_nonneg (by omega)]
  congr 2
  ring

omit [IsStrictOrderedRing K] in
/-- The unit in the last place times anything up to the next binade is in the format. -/
theorem representable_mul_ulp (x : K) {n : ℕ} (hn : n ≤ 2 ^ (f.sigWidth + 1)) :
    f.Representable ((n : K) * f.ulp x) := by
  have hmin : f.minExp ≤ f.binade x := le_max_left _ _
  rcases lt_or_eq_of_le hn with hlt | rfl
  · exact ⟨n, f.binade x - f.sigWidth, hlt, by omega, rfl⟩
  · refine ⟨2 ^ f.sigWidth, f.binade x - f.sigWidth + 1,
      Nat.pow_lt_pow_right one_lt_two (Nat.lt_succ_self _), by omega, ?_⟩
    rw [ulp, zpow_add_one₀ two_ne_zero]
    push_cast
    ring

/-- Rounding down keeps every smaller number of the format below. -/
theorem Representable.le_floor (hx : 0 < x) (hr : f.Representable r) (h : r ≤ x) :
    r ≤ ⌊x / f.ulp x⌋₊ * f.ulp x := by
  have hu := f.ulp_pos x
  by_cases hm : f.binade x = f.minExp ∨ 2 ^ f.binade x ≤ r
  · obtain ⟨k, rfl⟩ := hr.eq_mul_ulp f hm
    have hk : k ≤ ⌊x / f.ulp x⌋₊ := Nat.le_floor ((le_div_iff₀ hu).mpr h)
    exact mul_le_mul_of_nonneg_right (by exact_mod_cast hk) hu.le
  · rw [not_or, not_le] at hm
    have hmin : f.minExp < f.binade x := lt_of_le_of_ne (le_max_left _ _) (Ne.symm hm.1)
    have hb := f.two_pow_binade_le hx hmin
    rw [two_pow_eq_ulp] at hb
    have hk : 2 ^ f.sigWidth ≤ ⌊x / f.ulp x⌋₊ := Nat.le_floor ((le_div_iff₀ hu).mpr hb)
    refine hm.2.le.trans ?_
    rw [two_pow_eq_ulp]
    exact mul_le_mul_of_nonneg_right (by exact_mod_cast hk) hu.le

/-- What is above `x` and not `x` itself is at least one unit above the floor. -/
theorem Representable.floor_add_one_le (hx : 0 < x) (hr : f.Representable r) (h : x < r) :
    (⌊x / f.ulp x⌋₊ + 1 : ℕ) * f.ulp x ≤ r := by
  have hu := f.ulp_pos x
  have hm : f.binade x = f.minExp ∨ 2 ^ f.binade x ≤ r := by
    by_cases hmin : f.binade x = f.minExp
    · exact .inl hmin
    · exact .inr ((f.two_pow_binade_le hx
        (lt_of_le_of_ne (le_max_left _ _) (Ne.symm hmin))).trans h.le)
  obtain ⟨k, rfl⟩ := hr.eq_mul_ulp f hm
  have hk : ⌊x / f.ulp x⌋₊ < k := (Nat.floor_lt (by positivity)).mpr ((div_lt_iff₀ hu).mpr h)
  exact mul_le_mul_of_nonneg_right (by exact_mod_cast hk) hu.le

end Multiple

/-! ## The directions choose the rounded significand -/

section Choice
variable {K : Type*} [Field K] [LinearOrder K] [FloorSemiring K] [IsStrictOrderedRing K]
variable {x r : K}

theorem floor_mul_ulp_le (hx : 0 < x) : ⌊x / f.ulp x⌋₊ * f.ulp x ≤ x :=
  (le_div_iff₀ (f.ulp_pos x)).mp (Nat.floor_le (div_pos hx (f.ulp_pos x)).le)

theorem lt_floor_add_one_mul_ulp (x : K) : x < (⌊x / f.ulp x⌋₊ + 1 : ℕ) * f.ulp x := by
  rw [← div_lt_iff₀ (f.ulp_pos x), Nat.cast_add_one]
  exact Nat.lt_floor_add_one _

theorem floor_div_ulp_lt (hx : 0 < x) : ⌊x / f.ulp x⌋₊ < 2 ^ (f.sigWidth + 1) := by
  have hu := f.ulp_pos x
  rw [Nat.floor_lt (by positivity), div_lt_iff₀ hu]
  refine (f.lt_two_pow_binade hx).trans_le (le_of_eq ?_)
  rw [zpow_add_one₀ two_ne_zero, two_pow_eq_ulp]
  push_cast
  ring

theorem roundSig_le (rm : RoundingMode) (neg : Bool) (hx : 0 < x) :
    f.roundSig rm neg x ≤ 2 ^ (f.sigWidth + 1) :=
  (roundNat_le _ _ _).trans (f.floor_div_ulp_lt hx)

/-- Above the smallest binade the rounded significand has its leading bit. -/
theorem le_roundSig (rm : RoundingMode) (neg : Bool) (hx : 0 < x) (h : f.minExp < f.binade x) :
    2 ^ f.sigWidth ≤ f.roundSig rm neg x := by
  have hb := f.two_pow_binade_le hx h
  rw [two_pow_eq_ulp] at hb
  exact (Nat.le_floor ((le_div_iff₀ (f.ulp_pos x)).mpr hb)).trans (floor_le_roundNat _ _ _)

theorem isGreatest_floor (hx : 0 < x) :
    IsGreatest {r | f.Representable r ∧ r ≤ x} (⌊x / f.ulp x⌋₊ * f.ulp x) :=
  ⟨⟨f.representable_mul_ulp x (f.floor_div_ulp_lt hx).le, f.floor_mul_ulp_le hx⟩,
    fun _ hr => hr.1.le_floor f hx hr.2⟩

theorem isLeast_of_exact (hx : 0 < x) (h : x = ⌊x / f.ulp x⌋₊ * f.ulp x) :
    IsLeast {r | f.Representable r ∧ x ≤ r} (⌊x / f.ulp x⌋₊ * f.ulp x) :=
  ⟨⟨f.representable_mul_ulp x (f.floor_div_ulp_lt hx).le, h.le⟩, fun _ hr => h ▸ hr.2⟩

theorem isLeast_floor_add_one (hx : 0 < x) (h : ⌊x / f.ulp x⌋₊ * f.ulp x < x) :
    IsLeast {r | f.Representable r ∧ x ≤ r} ((⌊x / f.ulp x⌋₊ + 1 : ℕ) * f.ulp x) := by
  refine ⟨⟨f.representable_mul_ulp x (f.floor_div_ulp_lt hx), (f.lt_floor_add_one_mul_ulp x).le⟩,
    fun r hr => ?_⟩
  rcases lt_or_eq_of_le hr.2 with hlt | rfl
  · exact hr.1.floor_add_one_le f hx hlt
  · exact absurd (hr.1.le_floor f hx le_rfl) (not_le.mpr h)

/-- The nearest numbers of the format are among the two neighbours. -/
theorem Nearest.eq_or (hx : 0 < x) (h : f.Nearest x r) :
    (r = ⌊x / f.ulp x⌋₊ * f.ulp x ∧ x - ⌊x / f.ulp x⌋₊ * f.ulp x ≤
        (⌊x / f.ulp x⌋₊ + 1 : ℕ) * f.ulp x - x) ∨
      (r = (⌊x / f.ulp x⌋₊ + 1 : ℕ) * f.ulp x ∧ (⌊x / f.ulp x⌋₊ + 1 : ℕ) * f.ulp x - x ≤
        x - ⌊x / f.ulp x⌋₊ * f.ulp x) := by
  have hlo := f.floor_mul_ulp_le hx
  have hhi := f.lt_floor_add_one_mul_ulp x
  have hfl := h.2 _ (f.representable_mul_ulp x (f.floor_div_ulp_lt hx).le)
  have hce := h.2 _ (f.representable_mul_ulp x (f.floor_div_ulp_lt hx))
  rw [abs_of_nonneg (sub_nonneg.mpr hlo)] at hfl
  rw [abs_of_neg (sub_neg.mpr hhi), neg_sub] at hce
  rcases le_or_gt r x with hr | hr
  · have hle := h.1.le_floor f hx hr
    rw [abs_of_nonneg (sub_nonneg.mpr hr)] at hfl hce
    exact .inl ⟨le_antisymm hle (by linarith), by linarith⟩
  · have hle := h.1.floor_add_one_le f hx hr
    rw [abs_of_neg (sub_neg.mpr hr), neg_sub] at hfl hce
    exact .inr ⟨le_antisymm (by linarith) hle, by linarith⟩

theorem nearest_floor (hx : 0 < x)
    (h : x - ⌊x / f.ulp x⌋₊ * f.ulp x ≤ (⌊x / f.ulp x⌋₊ + 1 : ℕ) * f.ulp x - x) :
    f.Nearest x (⌊x / f.ulp x⌋₊ * f.ulp x) := by
  have hlo := f.floor_mul_ulp_le hx
  refine ⟨f.representable_mul_ulp x (f.floor_div_ulp_lt hx).le, fun r hr => ?_⟩
  rw [abs_of_nonneg (sub_nonneg.mpr hlo)]
  rcases le_or_gt r x with hrx | hrx
  · have hle := hr.le_floor f hx hrx
    rw [abs_of_nonneg (sub_nonneg.mpr hrx)]
    linarith
  · have hle := hr.floor_add_one_le f hx hrx
    rw [abs_of_neg (sub_neg.mpr hrx), neg_sub]
    linarith

theorem nearest_floor_add_one (hx : 0 < x)
    (h : (⌊x / f.ulp x⌋₊ + 1 : ℕ) * f.ulp x - x ≤ x - ⌊x / f.ulp x⌋₊ * f.ulp x) :
    f.Nearest x ((⌊x / f.ulp x⌋₊ + 1 : ℕ) * f.ulp x) := by
  have hhi := f.lt_floor_add_one_mul_ulp x
  refine ⟨f.representable_mul_ulp x (f.floor_div_ulp_lt hx), fun r hr => ?_⟩
  rw [abs_of_neg (sub_neg.mpr hhi), neg_sub]
  rcases le_or_gt r x with hrx | hrx
  · have hle := hr.le_floor f hx hrx
    rw [abs_of_nonneg (sub_nonneg.mpr hrx)]
    linarith
  · have hle := hr.floor_add_one_le f hx hrx
    rw [abs_of_neg (sub_neg.mpr hrx), neg_sub]
    linarith

/-- The distances to the two neighbours compare as the fraction does with one half. -/
theorem distance_cmp (x : K) :
    ((1 / 2 < x / f.ulp x - ⌊x / f.ulp x⌋₊) ↔
        (⌊x / f.ulp x⌋₊ + 1 : ℕ) * f.ulp x - x < x - ⌊x / f.ulp x⌋₊ * f.ulp x) ∧
      ((x / f.ulp x - ⌊x / f.ulp x⌋₊ = 1 / 2) ↔
        (⌊x / f.ulp x⌋₊ + 1 : ℕ) * f.ulp x - x = x - ⌊x / f.ulp x⌋₊ * f.ulp x) := by
  have hu := f.ulp_pos x
  have hx : x = x / f.ulp x * f.ulp x := (div_mul_cancel₀ x hu.ne').symm
  set X := x / f.ulp x
  set u := f.ulp x
  have h1 : (⌊X⌋₊ + 1 : ℕ) * u - x = (⌊X⌋₊ + 1 - X) * u := by
    rw [hx]
    push_cast
    ring
  have h2 : x - ⌊X⌋₊ * u = (X - ⌊X⌋₊) * u := by
    rw [hx]
    ring
  rw [h1, h2, mul_lt_mul_iff_left₀ hu, mul_left_inj' hu.ne']
  constructor
  · constructor <;> intro h <;> linarith
  · constructor <;> intro h <;> linarith

/-- An even number of units has a last bit of zero, also when the units carry into the
next binade. -/
theorem lastBitZero_mul_ulp (x : K) {n : ℕ} (hn : n ≤ 2 ^ (f.sigWidth + 1))
    (hnorm : f.minExp < f.binade x → 2 ^ f.sigWidth ≤ n) (heven : n % 2 = 0) :
    f.LastBitZero ((n : K) * f.ulp x) := by
  have hu := f.ulp_pos x
  have hmin : f.minExp ≤ f.binade x := le_max_left _ _
  rcases Nat.eq_zero_or_pos n with rfl | hpos
  · exact ⟨0, by simp⟩
  have hy : (0 : K) < n * f.ulp x := mul_pos (by exact_mod_cast hpos) hu
  rcases lt_or_eq_of_le hn with hlt | rfl
  · -- the binade is that of `x`
    have hub : (n : K) * f.ulp x < 2 ^ (f.binade x + 1) := by
      rw [zpow_add_one₀ two_ne_zero, two_pow_eq_ulp]
      have hcast : (n : K) < 2 ^ (f.sigWidth + 1) := by exact_mod_cast hlt
      calc (n : K) * f.ulp x < 2 ^ (f.sigWidth + 1) * f.ulp x :=
            mul_lt_mul_of_pos_right hcast hu
        _ = (2 ^ f.sigWidth : ℕ) * f.ulp x * 2 := by
            push_cast
            ring
    have hlog : Int.log 2 ((n : K) * f.ulp x) < f.binade x + 1 :=
      (Int.lt_zpow_iff_log_lt one_lt_two hy).mp (by exact_mod_cast hub)
    have hbin : f.binade ((n : K) * f.ulp x) = f.binade x := by
      rcases lt_or_eq_of_le hmin with h | h
      · have hlb : (2 : K) ^ f.binade x ≤ n * f.ulp x := by
          rw [two_pow_eq_ulp]
          exact mul_le_mul_of_nonneg_right (by exact_mod_cast hnorm h) hu.le
        rw [f.binade_eq hlb hub]
        omega
      · rw [binade]
        omega
    have hulp : f.ulp ((n : K) * f.ulp x) = f.ulp x := by rw [ulp, hbin, ← ulp]
    refine ⟨n / 2, ?_⟩
    rw [hulp, Nat.mul_div_cancel' (Nat.dvd_of_mod_eq_zero heven)]
  · -- a carry: the value is a power of two
    have hsw := f.two_le_sigWidth
    have hval : ((2 ^ (f.sigWidth + 1) : ℕ) : K) * f.ulp x = 2 ^ (f.binade x + 1) := by
      rw [zpow_add_one₀ two_ne_zero, two_pow_eq_ulp]
      push_cast
      ring
    have hbin : f.binade ((2 ^ (f.sigWidth + 1) : ℕ) * f.ulp x) = f.binade x + 1 := by
      rw [hval, f.binade_eq (e := f.binade x + 1) le_rfl
        (zpow_lt_zpow_right₀ one_lt_two (by omega))]
      omega
    refine ⟨2 ^ (f.sigWidth - 1), ?_⟩
    rw [← pow_succ', show f.sigWidth - 1 + 1 = f.sigWidth by omega, ← two_pow_eq_ulp, hbin, hval]

/-- The direction chooses the rounded significand. -/
theorem rounds_roundSig (rm : RoundingMode) (neg : Bool) (hx : 0 < x) :
    f.Rounds rm neg x (f.roundSig rm neg x * f.ulp x) := by
  have hu := f.ulp_pos x
  have hlo := f.floor_mul_ulp_le hx
  obtain ⟨hgt, heq⟩ := f.distance_cmp x
  have hfloor : (⌊x / f.ulp x⌋₊ : K) < x / f.ulp x ↔ ⌊x / f.ulp x⌋₊ * f.ulp x < x :=
    lt_div_iff₀ hu
  have hup : ∀ b : Bool, (b = true ↔ ⌊x / f.ulp x⌋₊ * f.ulp x < x) →
      IsLeast {r | f.Representable r ∧ x ≤ r} ((⌊x / f.ulp x⌋₊ + b.toNat : ℕ) * f.ulp x) := by
    intro b hb
    cases b with
    | true => exact f.isLeast_floor_add_one hx (hb.mp rfl)
    | false =>
        have hle : ¬⌊x / f.ulp x⌋₊ * f.ulp x < x := fun h => absurd (hb.mpr h) (by decide)
        exact f.isLeast_of_exact hx (le_antisymm (not_lt.mp hle) hlo)
  have hdown := f.isGreatest_floor hx
  have hnorm : f.minExp < f.binade x → 2 ^ f.sigWidth ≤ ⌊x / f.ulp x⌋₊ := fun h =>
    f.le_roundSig .towardZero neg hx h
  rw [roundSig, roundNat]
  cases rm with
  | towardZero => simpa [Rounds, roundsUp] using hdown
  | towardNegative =>
      cases neg with
      | true => exact hup _ (by simp only [roundsUp, Bool.true_and, decide_eq_true_eq, hfloor])
      | false => simpa [Rounds, roundsUp] using hdown
  | towardPositive =>
      cases neg with
      | true => simpa [Rounds, roundsUp] using hdown
      | false =>
          exact hup _ (by
            simp only [roundsUp, Bool.not_false, Bool.true_and, decide_eq_true_eq, hfloor])
  | tiesToAway =>
      by_cases h : 1 / 2 ≤ x / f.ulp x - ⌊x / f.ulp x⌋₊
      · have hle : (⌊x / f.ulp x⌋₊ + 1 : ℕ) * f.ulp x - x ≤ x - ⌊x / f.ulp x⌋₊ * f.ulp x := by
          rcases lt_or_eq_of_le h with h | h
          · exact (hgt.mp h).le
          · exact (heq.mp h.symm).le
        rw [roundsUp, decide_eq_true h]
        refine ⟨f.nearest_floor_add_one hx hle, fun r hr => ?_⟩
        rcases hr.eq_or f hx with ⟨rfl, -⟩ | ⟨rfl, -⟩
        · exact mul_le_mul_of_nonneg_right (by simp) hu.le
        · exact le_rfl
      · have hlt : x - ⌊x / f.ulp x⌋₊ * f.ulp x < (⌊x / f.ulp x⌋₊ + 1 : ℕ) * f.ulp x - x := by
          rw [le_iff_lt_or_eq, not_or, hgt, eq_comm, heq] at h
          exact lt_of_le_of_ne (not_lt.mp h.1) (Ne.symm h.2)
        rw [roundsUp, decide_eq_false h]
        refine ⟨f.nearest_floor hx hlt.le, fun r hr => ?_⟩
        rcases hr.eq_or f hx with ⟨rfl, -⟩ | ⟨-, hle⟩
        · exact le_rfl
        · exact absurd hlt (not_lt.mpr hle)
  | tiesToEven =>
      rw [roundsUp]
      by_cases hg : 1 / 2 < x / f.ulp x - ⌊x / f.ulp x⌋₊
      · have hlt := hgt.mp hg
        rw [decide_eq_true hg, Bool.true_or]
        refine ⟨f.nearest_floor_add_one hx hlt.le, fun r hr hne => ?_⟩
        rcases hr.eq_or f hx with ⟨-, hle⟩ | ⟨rfl, -⟩
        · exact absurd hlt (not_lt.mpr hle)
        · exact absurd rfl hne
      by_cases he : x / f.ulp x - ⌊x / f.ulp x⌋₊ = 1 / 2
      · -- a tie: the even one of the two neighbours
        have htie := heq.mp he
        rw [decide_eq_false hg, decide_eq_true he, Bool.false_or, Bool.true_and]
        rcases Nat.mod_two_eq_zero_or_one ⌊x / f.ulp x⌋₊ with hodd | hodd
        · rw [hodd]
          exact ⟨f.nearest_floor hx htie.ge, fun r hr _ =>
            f.lastBitZero_mul_ulp x (f.floor_div_ulp_lt hx).le hnorm hodd⟩
        · rw [hodd]
          exact ⟨f.nearest_floor_add_one hx htie.le, fun r hr _ =>
            f.lastBitZero_mul_ulp x (f.floor_div_ulp_lt hx) (fun h => (hnorm h).trans (by simp))
              (by rw [beq_self_eq_true, Bool.toNat_true]; omega)⟩
      · have hlt : x - ⌊x / f.ulp x⌋₊ * f.ulp x < (⌊x / f.ulp x⌋₊ + 1 : ℕ) * f.ulp x - x := by
          rw [hgt] at hg
          rw [heq] at he
          exact lt_of_le_of_ne (not_lt.mp hg) (Ne.symm he)
        rw [decide_eq_false hg, decide_eq_false he, Bool.false_or, Bool.false_and]
        refine ⟨f.nearest_floor hx hlt.le, fun r hr hne => ?_⟩
        rcases hr.eq_or f hx with ⟨rfl, -⟩ | ⟨-, hle⟩
        · exact absurd rfl hne
        · exact absurd hlt (not_lt.mpr hle)

/-- The exponent that the rounded significand is delivered with. -/
theorem maxExp_lt_iff (rm : RoundingMode) (neg : Bool) (hx : 0 < x) :
    (f.maxExp < if f.roundSig rm neg x == 2 ^ (f.sigWidth + 1) then f.binade x + 1
      else f.binade x) ↔ 2 ^ (f.maxExp + 1) ≤ (f.roundSig rm neg x : K) * f.ulp x := by
  have hu := f.ulp_pos x
  have hle := f.roundSig_le rm neg hx
  have hpow : (2 : K) ^ (f.binade x + 1) = (2 ^ (f.sigWidth + 1) : ℕ) * f.ulp x := by
    rw [zpow_add_one₀ two_ne_zero, two_pow_eq_ulp]
    push_cast
    ring
  split_ifs with h
  · rw [beq_iff_eq.mp h, ← hpow, zpow_le_zpow_iff_right₀ one_lt_two]
    omega
  · have hlt : f.roundSig rm neg x < 2 ^ (f.sigWidth + 1) :=
      lt_of_le_of_ne hle (by simpa using h)
    constructor
    · intro hm
      have hmin : f.minExp < f.binade x := by
        have hb := f.one_le_bias
        have hmax := f.maxExp_eq
        have hmin : f.minExp = 1 - f.bias := rfl
        omega
      have hn := f.le_roundSig rm neg hx hmin
      calc (2 : K) ^ (f.maxExp + 1) ≤ 2 ^ f.binade x :=
            zpow_le_zpow_right₀ one_le_two (by omega)
        _ = (2 ^ f.sigWidth : ℕ) * f.ulp x := f.two_pow_eq_ulp x
        _ ≤ f.roundSig rm neg x * f.ulp x :=
            mul_le_mul_of_nonneg_right (by exact_mod_cast hn) hu.le
    · intro hm
      have hlt' : (f.roundSig rm neg x : K) * f.ulp x < 2 ^ (f.binade x + 1) := by
        rw [hpow]
        exact mul_lt_mul_of_pos_right (by exact_mod_cast hlt) hu
      have := (zpow_lt_zpow_iff_right₀ one_lt_two).mp (hm.trans_lt hlt')
      omega

/-- Without overflow the encoding is that of the rounded number. -/
theorem encodes_round (rm : RoundingMode) (neg : Bool) (hx : 0 < x)
    (h : f.roundSig rm neg x * f.ulp x < 2 ^ (f.maxExp + 1)) :
    f.Encodes (f.round rm neg x).1 neg (f.roundSig rm neg x * f.ulp x) := by
  have hle := f.roundSig_le rm neg hx
  have hov := f.maxExp_lt_iff rm neg hx
  have hmin : f.minExp ≤ f.binade x := le_max_left _ _
  rw [← not_le, ← hov] at h
  unfold round
  simp only [h, if_false]
  split_ifs at h ⊢ with hc
  · have henc := f.encodes_finite (K := K) neg (e := f.binade x + 1)
      (n := 2 ^ f.sigWidth) (by omega) (not_lt.mp h)
      (Nat.pow_lt_pow_right one_lt_two (Nat.lt_succ_self _)) (.inl le_rfl)
    have hval : ((2 ^ f.sigWidth : ℕ) : K) * 2 ^ (f.binade x + 1 - f.sigWidth) =
        f.roundSig rm neg x * f.ulp x := by
      rw [beq_iff_eq.mp hc, ulp, show f.binade x + 1 - f.sigWidth = f.binade x - f.sigWidth + 1 by
        ring, zpow_add_one₀ two_ne_zero]
      push_cast
      ring
    rwa [hval] at henc
  · refine f.encodes_finite neg hmin (not_lt.mp h) (lt_of_le_of_ne hle (by simpa using hc)) ?_
    rcases lt_or_eq_of_le hmin with hlt | heq
    · exact .inl (f.le_roundSig rm neg hx hlt)
    · exact .inr heq.symm

theorem round_of_overflow (rm : RoundingMode) (neg : Bool) (hx : 0 < x)
    (h : 2 ^ (f.maxExp + 1) ≤ f.roundSig rm neg x * f.ulp x) :
    f.round rm neg x = (if overflowsToInf rm neg then f.infinity neg else f.largest neg,
      { overflow := true, inexact := true }) := by
  have hov := (f.maxExp_lt_iff rm neg hx).mpr h
  unfold round
  simp only [hov, if_true]

/-- Rounding delivers the encoding that is prescribed. -/
theorem round_delivers (rm : RoundingMode) (neg : Bool) (hx : 0 < x) :
    f.Delivers rm neg x (f.round rm neg x).1 := by
  refine ⟨f.roundSig rm neg x * f.ulp x, f.rounds_roundSig rm neg hx, ?_⟩
  by_cases h : f.roundSig rm neg x * f.ulp x < 2 ^ (f.maxExp + 1)
  · rw [if_pos h]
    exact f.encodes_round rm neg hx h
  · rw [if_neg h, f.round_of_overflow rm neg hx (not_lt.mp h)]

end Choice

end Format

end Muntjac.Ieee

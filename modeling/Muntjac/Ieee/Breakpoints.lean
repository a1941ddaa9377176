import Muntjac.Ieee.Exceptions

/-!
# When two numbers round alike

Rounding changes at the numbers of the format and at the midpoints between them.  A number
`y` that is used in place of a number `x`, with no such breakpoint between them, rounds
like `x` unless `y` is a breakpoint itself; then it depends on the direction and on the
side of `x`.

## Main definitions

* `Format.Visible` — the rounding of `y` is not that of `x`.

## Main results

* `Format.round_eq_iff` — the encodings and the flags agree exactly if it is not visible.
-/

namespace Muntjac.Ieee

namespace Format
variable (f : Format)

section Defs
variable {K : Type*} [Field K] [LinearOrder K] [FloorSemiring K]

/-- `y` is halfway between two neighbours. -/
def Midpoint (y : K) : Prop := y / f.ulp y = ⌊y / f.ulp y⌋₊ + 1 / 2

/-- A tie at `y` is resolved away from the side of `x`. -/
def Tips (rm : RoundingMode) (x y : K) : Prop :=
  match rm with
  | .tiesToEven => x < y ↔ ⌊y / f.ulp y⌋₊ % 2 = 1
  | .tiesToAway => x < y
  | .towardZero | .towardNegative | .towardPositive => False

/-- It shows that `y` was rounded in place of `x`: `y` is a number of the format, or the
first one that overflows and `x` does not, or it is a midpoint and its tie goes the other
way. -/
def Visible (rm : RoundingMode) (neg : Bool) (x y : K) : Prop :=
  (f.Representable y ∧ y < 2 ^ (f.maxExp + 1)) ∨
    (y = 2 ^ (f.maxExp + 1) ∧ x < y ∧ overflowsToInf rm neg = false) ∨
    (f.Midpoint y ∧ y < 2 ^ (f.maxExp + 1) ∧ f.Tips rm x y)

/-- There is no breakpoint from `x` to `y`, other than `y`. -/
def Gap (x y : K) : Prop :=
  ∀ z, 0 < z → f.Representable z ∨ f.Midpoint z → z ≠ y → ¬((x ≤ z ∧ z ≤ y) ∨ (y ≤ z ∧ z ≤ x))

end Defs

variable {f}
variable {K : Type*} [Field K] [LinearOrder K] [FloorSemiring K] [IsStrictOrderedRing K]
variable {rm : RoundingMode} {neg : Bool} {x y : K}

theorem Representable.floor_eq (hy : 0 < y) (h : f.Representable y) :
    y = ⌊y / f.ulp y⌋₊ * f.ulp y :=
  le_antisymm (h.le_floor f hy le_rfl) (f.floor_mul_ulp_le hy)

variable (rm neg) in
/-- A number of the format is rounded to itself. -/
theorem Representable.roundSig_mul_ulp (hy : 0 < y) (h : f.Representable y) :
    f.roundSig rm neg y * f.ulp y = y := by
  have hexact : y / f.ulp y = (⌊y / f.ulp y⌋₊ : K) := by
    rw [div_eq_iff (f.ulp_pos y).ne']
    exact h.floor_eq hy
  rw [roundSig, ← (eq_roundNat_iff rm neg _).mpr hexact, div_mul_cancel₀ _ (f.ulp_pos y).ne']

/-- Roundings that agree have the same value, unless both overflow. -/
theorem value_eq_of_round_eq (hx : 0 < x) (hy : 0 < y) (h : f.round rm neg x = f.round rm neg y)
    (hlt : f.roundSig rm neg y * f.ulp y < 2 ^ (f.maxExp + 1)) :
    f.roundSig rm neg x * f.ulp x = f.roundSig rm neg y * f.ulp y ∧
      (x ≠ f.roundSig rm neg x * f.ulp x ↔ y ≠ f.roundSig rm neg y * f.ulp y) := by
  have hxlt : f.roundSig rm neg x * f.ulp x < 2 ^ (f.maxExp + 1) := by
    by_contra hge
    have hflags := congrArg (fun r => r.2.overflow) h
    rw [f.round_of_overflow rm neg hx (not_lt.mp hge)] at hflags
    simp only [f.round_flags hy hlt] at hflags
    exact absurd hflags (by decide)
  have hex := f.encodes_round rm neg hx hxlt
  have hey := f.encodes_round rm neg hy hlt
  rw [h] at hex
  refine ⟨hex.magnitude.symm.trans hey.magnitude, ?_⟩
  have hflags := congrArg (fun r => r.2.inexact) h
  simpa only [f.round_flags hx hxlt, f.round_flags hy hlt, decide_eq_decide] using hflags

/-- No positive number is delivered as an exact zero. -/
theorem round_ne_zero (hx : 0 < x) (neg' : Bool) :
    f.round rm neg x ≠ (f.pack neg' 0 0, {}) := by
  intro h
  have hlt : f.roundSig rm neg x * f.ulp x < 2 ^ (f.maxExp + 1) := by
    by_contra hge
    have hflags := congrArg (fun r => r.2.overflow) h
    rw [f.round_of_overflow rm neg hx (not_lt.mp hge)] at hflags
    exact absurd (show true = false from hflags) (by decide)
  have hexact : x = f.roundSig rm neg x * f.ulp x := by
    have hflags := congrArg (fun r => r.2.inexact) h
    simp only [f.round_flags hx hlt, decide_eq_false_iff_not, not_not] at hflags
    exact hflags
  have hmag := (f.encodes_round rm neg hx hlt).magnitude
  have hpow := Nat.two_pow_pos f.sigWidth
  rw [h, magnitude, exponent_pack (f := f) (Nat.two_pow_pos _) hpow, if_pos rfl,
    significand_pack (f := f) hpow, Nat.cast_zero, zero_mul, ← hexact] at hmag
  exact hx.ne hmag

theorem Representable.round_ne (hx : 0 < x) (hy : 0 < y) (hr : f.Representable y)
    (hlt : y < 2 ^ (f.maxExp + 1)) (hne : x ≠ y) : f.round rm neg x ≠ f.round rm neg y := by
  intro h
  have hval := hr.roundSig_mul_ulp rm neg hy
  obtain ⟨heq, hiff⟩ := value_eq_of_round_eq hx hy h (hval.symm ▸ hlt)
  rw [hval] at heq hiff
  refine hne ?_
  by_contra hxy
  exact absurd (hiff.mp (by rw [heq]; exact hxy)) (not_not.mpr rfl)

omit [IsStrictOrderedRing K] in
/-- Numbers with the same unit, the same rounded significand and the same tininess round
alike if both are inexact. -/
theorem round_eq_of_roundSig_eq (hb : f.binade x = f.binade y)
    (hsig : f.roundSig rm neg x = f.roundSig rm neg y)
    (hx : x ≠ f.roundSig rm neg x * f.ulp x) (hy : y ≠ f.roundSig rm neg y * f.ulp y)
    (htiny : x < 2 ^ f.minExp ↔ y < 2 ^ f.minExp) : f.round rm neg x = f.round rm neg y := by
  unfold round
  simp only [hsig, hb]
  rw [hsig] at hx
  simp only [decide_eq_true hx, decide_eq_true hy, htiny]

/-! ### Numbers between the same neighbours -/

/-- What lies strictly between the neighbours of `y` has its unit and its floor. -/
theorem cell (hy : 0 < y) (hx : 0 < x) (hlo : ⌊y / f.ulp y⌋₊ * f.ulp y < x)
    (hhi : x < (⌊y / f.ulp y⌋₊ + 1 : ℕ) * f.ulp y) :
    f.binade x = f.binade y ∧ ⌊x / f.ulp x⌋₊ = ⌊y / f.ulp y⌋₊ := by
  have hu := f.ulp_pos y
  have hmin : f.minExp ≤ f.binade y := le_max_left _ _
  have hub : x < 2 ^ (f.binade y + 1) := by
    refine hhi.trans_le ?_
    rw [zpow_add_one₀ two_ne_zero, two_pow_eq_ulp]
    have hcast : ((⌊y / f.ulp y⌋₊ + 1 : ℕ) : K) ≤ (2 ^ (f.sigWidth + 1) : ℕ) := by
      exact_mod_cast f.floor_div_ulp_lt hy
    calc (⌊y / f.ulp y⌋₊ + 1 : ℕ) * f.ulp y ≤ (2 ^ (f.sigWidth + 1) : ℕ) * f.ulp y :=
          mul_le_mul_of_nonneg_right hcast hu.le
      _ = (2 ^ f.sigWidth : ℕ) * f.ulp y * 2 := by
          push_cast
          ring
  have hlog : Int.log 2 x < f.binade y + 1 :=
    (Int.lt_zpow_iff_log_lt one_lt_two hx).mp (by exact_mod_cast hub)
  have hbin : f.binade x = f.binade y := by
    rcases lt_or_eq_of_le hmin with h | h
    · have hn : 2 ^ f.sigWidth ≤ ⌊y / f.ulp y⌋₊ := f.le_roundSig .towardZero false hy h
      have hlb : (2 : K) ^ f.binade y ≤ x := by
        rw [two_pow_eq_ulp]
        exact (mul_le_mul_of_nonneg_right (by exact_mod_cast hn) hu.le).trans hlo.le
      rw [f.binade_eq hlb hub]
      omega
    · rw [binade]
      omega
  have hulp : f.ulp x = f.ulp y := by rw [ulp, hbin, ← ulp]
  refine ⟨hbin, ?_⟩
  rw [hulp, Nat.floor_eq_iff (by positivity)]
  constructor
  · exact (le_div_iff₀ hu).mpr hlo.le
  · rw [← Nat.cast_add_one]
    exact (div_lt_iff₀ hu).mpr hhi

/-- A number between two neighbours is inexact. -/
theorem inexact_of_between (hy : 0 < y) {w : K} (hlo : ⌊y / f.ulp y⌋₊ * f.ulp y < w)
    (hhi : w < (⌊y / f.ulp y⌋₊ + 1 : ℕ) * f.ulp y) : w ≠ f.roundSig rm neg w * f.ulp w := by
  have hu := f.ulp_pos y
  have hw : 0 < w := lt_of_le_of_lt (by positivity) hlo
  obtain ⟨hbin, hfloor⟩ := cell hy hw hlo hhi
  have hulp : f.ulp w = f.ulp y := by rw [ulp, hbin, ← ulp]
  rw [ne_eq, ← div_eq_iff (f.ulp_pos w).ne', roundSig, eq_roundNat_iff, hfloor, hulp,
    div_eq_iff hu.ne']
  exact hlo.ne'

theorem midpoint_mul_ulp (hy : 0 < y) :
    f.Midpoint ((⌊y / f.ulp y⌋₊ + 1 / 2) * f.ulp y) := by
  have hu := f.ulp_pos y
  have hpos : 0 < ((⌊y / f.ulp y⌋₊ : K) + 1 / 2) * f.ulp y := by positivity
  have hlo : (⌊y / f.ulp y⌋₊ : K) * f.ulp y < (⌊y / f.ulp y⌋₊ + 1 / 2) * f.ulp y :=
    mul_lt_mul_of_pos_right (by linarith) hu
  have hhi : ((⌊y / f.ulp y⌋₊ : K) + 1 / 2) * f.ulp y < (⌊y / f.ulp y⌋₊ + 1 : ℕ) * f.ulp y := by
    push_cast
    exact mul_lt_mul_of_pos_right (by linarith) hu
  obtain ⟨hbin, hfloor⟩ := cell hy hpos hlo hhi
  rw [Midpoint, hfloor, show f.ulp ((⌊y / f.ulp y⌋₊ + 1 / 2) * f.ulp y) = f.ulp y by
    rw [ulp, hbin, ← ulp], mul_div_cancel_right₀ _ hu.ne']

section Between
variable (hx : 0 < x) (hy : 0 < y) (hgap : f.Gap x y) (hr : ¬f.Representable y)
include hx hy hgap hr

theorem Gap.between : ⌊y / f.ulp y⌋₊ * f.ulp y < x ∧ x < (⌊y / f.ulp y⌋₊ + 1 : ℕ) * f.ulp y := by
  have hu := f.ulp_pos y
  have hfl := f.representable_mul_ulp y (f.floor_div_ulp_lt hy).le
  have hce := f.representable_mul_ulp y (f.floor_div_ulp_lt hy)
  have hylo := f.floor_mul_ulp_le hy
  have hyhi := f.lt_floor_add_one_mul_ulp y
  constructor
  · by_contra hle
    have hpos : 0 < ⌊y / f.ulp y⌋₊ * f.ulp y := hx.trans_le (not_lt.mp hle)
    exact hgap _ hpos (.inl hfl) (fun he => hr (he ▸ hfl)) (.inl ⟨not_lt.mp hle, hylo⟩)
  · by_contra hle
    exact hgap _ (hy.trans hyhi) (.inl hce) (fun he => hr (he ▸ hce))
      (.inr ⟨hyhi.le, not_lt.mp hle⟩)

omit hx hy in
theorem Gap.tiny_iff : x < 2 ^ f.minExp ↔ y < 2 ^ f.minExp := by
  have hz : f.Representable ((2 : K) ^ f.minExp) := f.representable_two_pow le_rfl
  have hne : (2 : K) ^ f.minExp ≠ y := fun he => hr (he ▸ hz)
  have hgap' := hgap _ (zpow_pos two_pos _) (.inl hz) hne
  constructor
  · intro h
    by_contra hle
    exact hgap' (.inl ⟨h.le, not_lt.mp hle⟩)
  · intro h
    by_contra hle
    exact hgap' (.inr ⟨h.le, not_lt.mp hle⟩)

omit hx hr in
/-- The two numbers lie on the same side of the midpoint, unless `y` is the midpoint. -/
theorem Gap.same_side (hm : ¬f.Midpoint y) :
    (x / f.ulp y < ⌊y / f.ulp y⌋₊ + 1 / 2 ∧ y / f.ulp y < ⌊y / f.ulp y⌋₊ + 1 / 2) ∨
      (⌊y / f.ulp y⌋₊ + 1 / 2 < x / f.ulp y ∧ ⌊y / f.ulp y⌋₊ + 1 / 2 < y / f.ulp y) := by
  have hu := f.ulp_pos y
  have hmid := midpoint_mul_ulp (f := f) hy
  have hpos : 0 < ((⌊y / f.ulp y⌋₊ : K) + 1 / 2) * f.ulp y := by positivity
  have hne : (⌊y / f.ulp y⌋₊ + 1 / 2) * f.ulp y ≠ y := fun he => hm (he ▸ hmid)
  have h := hgap _ hpos (.inr hmid) hne
  rw [not_or, not_and_or, not_and_or, not_le, not_le, not_le, not_le] at h
  rw [div_lt_iff₀ hu, div_lt_iff₀ hu, lt_div_iff₀ hu, lt_div_iff₀ hu]
  rcases lt_or_gt_of_ne hne with hlt | hgt
  · exact .inr ⟨h.1.resolve_right (not_lt.mpr hlt.le), hlt⟩
  · exact .inl ⟨h.2.resolve_left (not_lt.mpr hgt.le), hgt⟩

variable (rm neg) in
/-- Between the same neighbours only the side of the midpoint matters. -/
theorem Gap.roundSig_eq_iff (hne : x ≠ y) :
    f.roundSig rm neg x = f.roundSig rm neg y ↔ ¬(f.Midpoint y ∧ f.Tips rm x y) := by
  have hu := f.ulp_pos y
  obtain ⟨hlo, hhi⟩ := hgap.between hx hy hr
  obtain ⟨hbin, hfloor⟩ := cell hy hx hlo hhi
  have hulp : f.ulp x = f.ulp y := by rw [ulp, hbin, ← ulp]
  have hylo : (⌊y / f.ulp y⌋₊ : K) < y / f.ulp y := by
    refine lt_of_le_of_ne (Nat.floor_le (by positivity)) fun he => hr ?_
    rw [(div_eq_iff hu.ne').mp he.symm]
    exact f.representable_mul_ulp y (f.floor_div_ulp_lt hy).le
  have hxlo : (⌊y / f.ulp y⌋₊ : K) < x / f.ulp y := (lt_div_iff₀ hu).mpr hlo
  have hlt : x / f.ulp y < y / f.ulp y ↔ x < y := div_lt_div_iff_of_pos_right hu
  have hbool : ∀ b c : Bool, b.toNat = c.toNat ↔ b = c := by decide
  rw [roundSig, roundSig, roundNat, roundNat, hfloor, hulp, Nat.add_left_cancel_iff, hbool]
  rw [hulp] at hfloor
  unfold roundsUp
  rw [hfloor]
  by_cases hm : f.Midpoint y
  · -- `y` is a tie
    have hhalf : y / f.ulp y - ⌊y / f.ulp y⌋₊ = 1 / 2 := by
      rw [sub_eq_iff_eq_add, add_comm]
      exact hm
    have hxy : x / f.ulp y ≠ y / f.ulp y := by rwa [ne_eq, div_left_inj' hu.ne']
    have hxhalf : ¬x / f.ulp y - ⌊y / f.ulp y⌋₊ = 1 / 2 := by
      rw [← hhalf, sub_left_inj]
      exact hxy
    have hxgt : 1 / 2 < x / f.ulp y - ⌊y / f.ulp y⌋₊ ↔ ¬x < y := by
      rw [← hhalf, sub_lt_sub_iff_right, ← hlt, not_lt, le_iff_lt_or_eq, or_iff_left hxy.symm]
    have hxge : 1 / 2 ≤ x / f.ulp y - ⌊y / f.ulp y⌋₊ ↔ ¬x < y := by
      rw [← hhalf, sub_le_sub_iff_right, ← hlt, not_lt]
    simp only [hm, true_and]
    cases rm with
    | tiesToEven =>
        simp only [Tips, hhalf, hxhalf, hxgt, lt_irrefl, decide_false, decide_true, Bool.false_or,
          Bool.true_and, Bool.false_and, Bool.or_false]
        rw [Bool.eq_iff_iff, decide_eq_true_eq, beq_iff_eq]
        tauto
    | tiesToAway => simp only [Tips, hhalf, hxge, le_refl, decide_true, decide_eq_true_eq]
    | towardZero => simp [Tips]
    | towardNegative => simp [Tips, hxlo, hylo]
    | towardPositive => simp [Tips, hxlo, hylo]
  · -- no tie, and both numbers on the same side
    have hcmp : (1 / 2 < x / f.ulp y - ⌊y / f.ulp y⌋₊ ↔ 1 / 2 < y / f.ulp y - ⌊y / f.ulp y⌋₊) ∧
        ¬x / f.ulp y - ⌊y / f.ulp y⌋₊ = 1 / 2 ∧ ¬y / f.ulp y - ⌊y / f.ulp y⌋₊ = 1 / 2 := by
      rcases hgap.same_side hy hm with ⟨h1, h2⟩ | ⟨h1, h2⟩
      · refine ⟨⟨fun h => ?_, fun h => ?_⟩, fun h => ?_, fun h => ?_⟩ <;> linarith
      · refine ⟨⟨fun h => ?_, fun h => ?_⟩, fun h => ?_, fun h => ?_⟩ <;> linarith
    have hge : 1 / 2 ≤ x / f.ulp y - ⌊y / f.ulp y⌋₊ ↔ 1 / 2 ≤ y / f.ulp y - ⌊y / f.ulp y⌋₊ := by
      rw [le_iff_lt_or_eq, le_iff_lt_or_eq, hcmp.1, or_iff_left (Ne.symm hcmp.2.1),
        or_iff_left (Ne.symm hcmp.2.2)]
    simp only [hm, false_and, not_false_eq_true, iff_true]
    cases rm with
    | tiesToEven => simp only [hcmp.1, hcmp.2.1, hcmp.2.2]
    | tiesToAway => simp only [hge]
    | towardZero => rfl
    | towardNegative => simp only [hxlo, hylo]
    | towardPositive => simp only [hxlo, hylo]

/-- Inexact numbers in one gap round alike exactly if their significands do, or if both
overflow. -/
theorem Gap.round_eq_iff (hne : x ≠ y) :
    f.round rm neg x = f.round rm neg y ↔
      ¬(f.Midpoint y ∧ y < 2 ^ (f.maxExp + 1) ∧ f.Tips rm x y) := by
  have hu := f.ulp_pos y
  obtain ⟨hlo, hhi⟩ := hgap.between hx hy hr
  obtain ⟨hbin, hfloor⟩ := cell hy hx hlo hhi
  have hulp : f.ulp x = f.ulp y := by rw [ulp, hbin, ← ulp]
  have hsig := hgap.roundSig_eq_iff rm neg hx hy hr hne
  have hfx : ⌊y / f.ulp y⌋₊ ≤ f.roundSig rm neg x := hfloor ▸ floor_le_roundNat rm neg _
  have hfy : ⌊y / f.ulp y⌋₊ ≤ f.roundSig rm neg y := floor_le_roundNat rm neg _
  by_cases hlt : y < 2 ^ (f.maxExp + 1)
  · simp only [hlt, true_and]
    rw [← hsig]
    constructor
    · intro h
      by_contra hns
      -- one of the two significands is the floor, and it does not overflow
      have hcancel : f.roundSig rm neg x * f.ulp x ≠ f.roundSig rm neg y * f.ulp y := by
        rw [hulp, ne_eq, mul_left_inj' hu.ne', Nat.cast_inj]
        exact hns
      by_cases hov : f.roundSig rm neg y * f.ulp y < 2 ^ (f.maxExp + 1)
      · exact hcancel (value_eq_of_round_eq hx hy h hov).1
      · by_cases hovx : f.roundSig rm neg x * f.ulp x < 2 ^ (f.maxExp + 1)
        · exact hcancel (value_eq_of_round_eq hy hx h.symm hovx).1.symm
        · have hfl : ⌊y / f.ulp y⌋₊ * f.ulp y < 2 ^ (f.maxExp + 1) :=
            (f.floor_mul_ulp_le hy).trans_lt hlt
          have hx1 : f.roundSig rm neg x ≠ ⌊y / f.ulp y⌋₊ := fun he => hovx (by rwa [he, hulp])
          have hy1 : f.roundSig rm neg y ≠ ⌊y / f.ulp y⌋₊ := fun he => hov (by rwa [he])
          have hxle : f.roundSig rm neg x ≤ ⌊y / f.ulp y⌋₊ + 1 := hfloor ▸ roundNat_le rm neg _
          have hyle : f.roundSig rm neg y ≤ ⌊y / f.ulp y⌋₊ + 1 := roundNat_le rm neg _
          omega
    · intro h
      have hyy : ⌊y / f.ulp y⌋₊ * f.ulp y < y := by
        refine lt_of_le_of_ne (f.floor_mul_ulp_le hy) fun he => hr ?_
        rw [← he]
        exact f.representable_mul_ulp y (f.floor_div_ulp_lt hy).le
      exact round_eq_of_roundSig_eq hbin h (inexact_of_between hy hlo hhi)
        (inexact_of_between hy hyy (f.lt_floor_add_one_mul_ulp y)) (hgap.tiny_iff hr)
  · -- both overflow
    have hmin : f.minExp ≤ f.maxExp + 1 := by
      have hb := f.one_le_bias
      have hmax := f.maxExp_eq
      have hmin : f.minExp = 1 - f.bias := rfl
      omega
    have hle := (f.representable_two_pow (K := K) hmin).le_floor f hy (not_lt.mp hlt)
    have hovx : 2 ^ (f.maxExp + 1) ≤ f.roundSig rm neg x * f.ulp x := by
      rw [hulp]
      exact hle.trans (mul_le_mul_of_nonneg_right (by exact_mod_cast hfx) hu.le)
    have hovy : 2 ^ (f.maxExp + 1) ≤ f.roundSig rm neg y * f.ulp y :=
      hle.trans (mul_le_mul_of_nonneg_right (by exact_mod_cast hfy) hu.le)
    simp only [hlt, false_and, and_false, not_false_eq_true, iff_true]
    rw [f.round_of_overflow rm neg hx hovx, f.round_of_overflow rm neg hy hovy]

end Between

theorem minExp_le_maxExp (f : Format) : f.minExp ≤ f.maxExp := by
  have hb := f.one_le_bias
  have hmax := f.maxExp_eq
  have hmin : f.minExp = 1 - f.bias := rfl
  omega

omit [IsStrictOrderedRing K] in
theorem representable_overflow (f : Format) : f.Representable ((2 : K) ^ (f.maxExp + 1)) :=
  f.representable_two_pow (by have := f.minExp_le_maxExp; omega)

variable (rm neg) in
/-- What is not below the first power of two that overflows, overflows. -/
theorem le_roundSig_mul_ulp (hx : 0 < x) (h : 2 ^ (f.maxExp + 1) ≤ x) :
    2 ^ (f.maxExp + 1) ≤ f.roundSig rm neg x * f.ulp x :=
  (f.rounds_roundSig rm neg hx).le_of_le f f.representable_overflow h

/-- The largest number of the format has all its significand bits set. -/
theorem largest_cell (f : Format) :
    ∃ y : K, 0 < y ∧ f.Representable y ∧ y < 2 ^ (f.maxExp + 1) ∧ f.binade y = f.maxExp ∧
      y = (2 ^ (f.sigWidth + 1) - 1 : ℕ) * f.ulp y ∧ ⌊y / f.ulp y⌋₊ = 2 ^ (f.sigWidth + 1) - 1 := by
  have hu : (0 : K) < 2 ^ (f.maxExp - f.sigWidth) := zpow_pos two_pos _
  have hmin := f.minExp_le_maxExp
  have hlt : 2 ^ f.sigWidth < 2 ^ (f.sigWidth + 1) :=
    Nat.pow_lt_pow_right one_lt_two (Nat.lt_succ_self _)
  have hpos := Nat.two_pow_pos f.sigWidth
  have hB : (2 : K) ^ (f.maxExp + 1) =
      (2 ^ (f.sigWidth + 1) : ℕ) * 2 ^ (f.maxExp - f.sigWidth) := by
    rw [Nat.cast_pow, Nat.cast_ofNat, ← zpow_natCast, ← zpow_add₀ two_ne_zero]
    congr 1
    push_cast
    ring
  have hE : (2 : K) ^ f.maxExp = (2 ^ f.sigWidth : ℕ) * 2 ^ (f.maxExp - f.sigWidth) := by
    rw [Nat.cast_pow, Nat.cast_ofNat, ← zpow_natCast, ← zpow_add₀ two_ne_zero]
    congr 1
    ring
  have hlo : (2 : K) ^ f.maxExp ≤ (2 ^ (f.sigWidth + 1) - 1 : ℕ) * 2 ^ (f.maxExp - f.sigWidth) := by
    rw [hE]
    exact mul_le_mul_of_nonneg_right (by exact_mod_cast (by omega)) hu.le
  have hhi : ((2 ^ (f.sigWidth + 1) - 1 : ℕ) : K) * 2 ^ (f.maxExp - f.sigWidth) <
      2 ^ (f.maxExp + 1) := by
    rw [hB]
    exact mul_lt_mul_of_pos_right (by exact_mod_cast (by omega)) hu
  have hbin := f.binade_eq hlo hhi
  rw [max_eq_right hmin] at hbin
  have hulp : f.ulp (((2 ^ (f.sigWidth + 1) - 1 : ℕ) : K) * 2 ^ (f.maxExp - f.sigWidth)) =
      2 ^ (f.maxExp - f.sigWidth) := by rw [ulp, hbin]
  refine ⟨_, (zpow_pos two_pos _).trans_le hlo, ⟨_, _, ?_, ?_, rfl⟩, hhi, hbin, ?_, ?_⟩
  · omega
  · omega
  · rw [hulp]
  · rw [hulp, mul_div_cancel_right₀ _ hu.ne', Nat.floor_natCast]

/-- At the first power of two that overflows, a number just below it overflows as well
unless its direction is toward zero. -/
theorem Gap.round_eq_iff_of_overflow (hx : 0 < x) (hgap : f.Gap x ((2 : K) ^ (f.maxExp + 1)))
    (hne : x ≠ (2 : K) ^ (f.maxExp + 1)) :
    f.round rm neg x = f.round rm neg ((2 : K) ^ (f.maxExp + 1)) ↔
      ¬(x < (2 : K) ^ (f.maxExp + 1) ∧ overflowsToInf rm neg = false) := by
  have hB : (0 : K) < 2 ^ (f.maxExp + 1) := zpow_pos two_pos _
  have hovB := le_roundSig_mul_ulp (f := f) rm neg hB le_rfl
  rw [f.round_of_overflow rm neg hB hovB]
  rcases lt_or_gt_of_ne hne with hlt | hgt
  · obtain ⟨m, hm, hmrep, hmB, hmbin, hmval, hmfl⟩ := largest_cell (K := K) f
    have hu := f.ulp_pos m
    have hpos := Nat.two_pow_pos (f.sigWidth + 1)
    have hnext : ((⌊m / f.ulp m⌋₊ + 1 : ℕ) : K) * f.ulp m = 2 ^ (f.maxExp + 1) := by
      rw [hmfl, Nat.sub_add_cancel hpos, ulp, hmbin, Nat.cast_pow, Nat.cast_ofNat, ← zpow_natCast,
        ← zpow_add₀ two_ne_zero]
      congr 1
      push_cast
      ring
    have hmx : m < x := by
      by_contra hle
      exact hgap m hm (.inl hmrep) hmB.ne (.inl ⟨not_lt.mp hle, hmB.le⟩)
    obtain ⟨hbin, hfl⟩ := cell (f := f) hm hx (by rw [hmfl, ← hmval]; exact hmx)
      (by rw [hnext]; exact hlt)
    have hulp : f.ulp x = f.ulp m := by rw [ulp, hbin, ← ulp]
    -- and it is beyond the last midpoint
    have hmid : (⌊m / f.ulp m⌋₊ + 1 / 2) * f.ulp m < x := by
      have hzB : (⌊m / f.ulp m⌋₊ + 1 / 2) * f.ulp m < 2 ^ (f.maxExp + 1) := by
        rw [← hnext]
        push_cast
        exact mul_lt_mul_of_pos_right (by linarith) hu
      by_contra hle
      exact hgap _ (by positivity) (.inr (midpoint_mul_ulp hm)) hzB.ne
        (.inl ⟨not_lt.mp hle, hzB.le⟩)
    have hhalf : 1 / 2 < x / f.ulp x - ⌊x / f.ulp x⌋₊ := by
      rw [hfl, hulp, lt_sub_iff_add_lt', lt_div_iff₀ hu]
      exact hmid
    have hflt : (⌊x / f.ulp x⌋₊ : K) < x / f.ulp x := by linarith
    have hup : roundsUp rm neg (x / f.ulp x) = overflowsToInf rm neg := by
      cases rm <;> simp [roundsUp, overflowsToInf, hflt]
      · exact .inl (by simpa using hhalf)
      · simpa using hhalf.le
    have hsig : f.roundSig rm neg x = ⌊m / f.ulp m⌋₊ + (overflowsToInf rm neg).toNat := by
      rw [roundSig, roundNat, hup, hfl]
    cases ho : overflowsToInf rm neg with
    | true =>
        rw [ho] at hsig
        have hov : 2 ^ (f.maxExp + 1) ≤ f.roundSig rm neg x * f.ulp x := by
          rw [hsig, hulp, Bool.toNat_true, hnext]
        rw [f.round_of_overflow rm neg hx hov, ho]
        simp
    | false =>
        rw [ho] at hsig
        have hno : f.roundSig rm neg x * f.ulp x < 2 ^ (f.maxExp + 1) := by
          rw [hsig, hulp, Bool.toNat_false, Nat.add_zero, hmfl, ← hmval]
          exact hmB
        simp only [hlt, true_and, not_true_eq_false, iff_false]
        intro h
        have hflags := congrArg (fun r => r.2.overflow) h
        rw [f.round_flags hx hno] at hflags
        simp at hflags
  · have hov := le_roundSig_mul_ulp (f := f) rm neg hx hgt.le
    rw [f.round_of_overflow rm neg hx hov]
    simp [hgt.le]

/-- Every breakpoint is a multiple of half its unit. -/
theorem exists_half_units {z : K} (hz : 0 < z) (h : f.Representable z ∨ f.Midpoint z) :
    ∃ j : ℕ, z = j * 2 ^ (f.binade z - f.sigWidth - 1) := by
  have hhalf : f.ulp z = 2 * 2 ^ (f.binade z - f.sigWidth - 1) := by
    rw [ulp, ← zpow_one_add₀ two_ne_zero]
    congr 1
    ring
  rcases h with h | h
  · have hval := h.floor_eq hz
    generalize ⌊z / f.ulp z⌋₊ = n at hval
    refine ⟨2 * n, ?_⟩
    rw [hhalf] at hval
    exact hval.trans (by push_cast; ring)
  · rw [Midpoint, div_eq_iff (f.ulp_pos z).ne'] at h
    generalize ⌊z / f.ulp z⌋₊ = n at h
    refine ⟨2 * n + 1, ?_⟩
    rw [hhalf] at h
    exact h.trans (by push_cast; ring)

/-- No breakpoint is next to a multiple of a unit that is at most half as large as theirs. -/
theorem gap_of_near {k : ℤ} {n : ℕ} (h : 2 ^ (f.sigWidth + 1) < n ∨ k < f.minExp - f.sigWidth)
    (hx : |x - n * 2 ^ k| < 2 ^ k) : f.Gap x (n * 2 ^ k) := by
  have hu : (0 : K) < 2 ^ k := zpow_pos two_pos _
  rintro z hz hbreak hne hseg
  rw [abs_lt] at hx
  have hzlo : (n : K) * 2 ^ k - 2 ^ k < z := by rcases hseg with hs | hs <;> linarith [hs.1, hs.2]
  have hzhi : z < (n : K) * 2 ^ k + 2 ^ k := by rcases hseg with hs | hs <;> linarith [hs.1, hs.2]
  have hmin : f.minExp ≤ f.binade z := le_max_left _ _
  have hbin : k ≤ f.binade z - f.sigWidth - 1 := by
    rcases h with hn | hk
    · have hpow : (2 : K) ^ (f.sigWidth + 1 + k) ≤ z := by
        have hcast : (2 : K) ^ ((f.sigWidth : ℤ) + 1) + 1 ≤ n := by
          exact_mod_cast hn
        calc (2 : K) ^ ((f.sigWidth : ℤ) + 1 + k) = 2 ^ ((f.sigWidth : ℤ) + 1) * 2 ^ k :=
              zpow_add₀ two_ne_zero _ _
          _ ≤ (n - 1) * 2 ^ k := mul_le_mul_of_nonneg_right (by linarith) hu.le
          _ ≤ z := by linarith
      have hlog := (Int.zpow_le_iff_le_log one_lt_two hz).mp
        (by exact_mod_cast hpow : ((2 : ℕ) : K) ^ ((f.sigWidth : ℤ) + 1 + k) ≤ z)
      have hle : Int.log 2 z ≤ f.binade z := le_max_right _ _
      omega
    · omega
  obtain ⟨j, hj⟩ := exists_half_units hz hbreak
  have hmul : z = (j * 2 ^ (f.binade z - f.sigWidth - 1 - k).toNat : ℕ) * 2 ^ k := by
    rw [Nat.cast_mul, Nat.cast_pow, Nat.cast_ofNat, mul_assoc, ← zpow_natCast,
      ← zpow_add₀ two_ne_zero, Int.toNat_of_nonneg (by omega)]
    rw [show f.binade z - f.sigWidth - 1 - k + k = f.binade z - f.sigWidth - 1 by ring]
    exact hj
  refine hne ?_
  rw [hmul] at hzlo hzhi ⊢
  set i := j * 2 ^ (f.binade z - f.sigWidth - 1 - k).toNat
  have h1 : (n : K) < i + 1 := by
    refine lt_of_mul_lt_mul_right ?_ hu.le
    linarith
  have h2 : (i : K) < n + 1 := by
    refine lt_of_mul_lt_mul_right ?_ hu.le
    linarith
  have h1' : n < i + 1 := by exact_mod_cast h1
  have h2' : i < n + 1 := by exact_mod_cast h2
  rw [show i = n by omega]

/-- Rounding `y` in place of `x` does not show exactly if it is not visible. -/
theorem round_eq_iff (hx : 0 < x) (hy : 0 < y) (hne : x ≠ y)
    (hgap : ¬(f.Representable y ∧ y < 2 ^ (f.maxExp + 1)) → f.Gap x y) :
    f.round rm neg x = f.round rm neg y ↔ ¬f.Visible rm neg x y := by
  rw [Visible]
  by_cases hr : f.Representable y
  · rcases lt_trichotomy y (2 ^ (f.maxExp + 1)) with hlt | heq | hgt
    · simp only [hr, hlt, true_and, true_or, not_true_eq_false, iff_false]
      exact hr.round_ne hx hy hlt hne
    · subst heq
      have hg := hgap (fun h => lt_irrefl _ h.2)
      simp only [lt_irrefl, and_false, false_and, true_and, false_or, or_false]
      exact hg.round_eq_iff_of_overflow hx hne
    · have hg := hgap (fun h => lt_asymm h.2 hgt)
      have hxgt : 2 ^ (f.maxExp + 1) ≤ x := by
        by_contra hle
        exact hg _ (zpow_pos two_pos _) (.inl f.representable_overflow) hgt.ne
          (.inl ⟨(not_le.mp hle).le, hgt.le⟩)
      simp only [hgt.not_gt, hgt.ne', and_false, false_and, or_self, not_false_eq_true, iff_true]
      rw [f.round_of_overflow rm neg hx (le_roundSig_mul_ulp rm neg hx hxgt),
        f.round_of_overflow rm neg hy (le_roundSig_mul_ulp rm neg hy hgt.le)]
  · simp only [hr, false_and, false_or]
    have hg := hgap (fun h => hr h.1)
    have hne' : y ≠ 2 ^ (f.maxExp + 1) := by
      rintro rfl
      exact hr f.representable_overflow
    simp only [hne', false_and, false_or]
    exact hg.round_eq_iff hx hy hr hne

end Format

end Muntjac.Ieee

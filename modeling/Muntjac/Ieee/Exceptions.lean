import Muntjac.Ieee.Rounding

/-!
# The exceptions of rounding

A result is inexact if it is not the exact number, it overflows if the number rounded
without a bound on the exponent is above the largest finite one, and it underflows if it
is inexact and the number rounded without a bound on the exponent is below the smallest
normal one.  `Format.round` decides the last before rounding; the two differ for the
numbers that are rounded up to the smallest normal one and to nothing below it.

## Main definitions

* `Format.roundUnbounded` — rounding to the precision of the format.
* `Format.FlagsExact` — the flags that are prescribed.
* `Format.BarelyTiny` — the numbers that become normal by rounding.

## Main results

* `Format.round_flagsExact_iff` — the flags of `Format.round` are those.
-/

namespace Muntjac.Ieee

namespace Format
variable (f : Format)

section Definitions
variable {K : Type*} [Field K] [LinearOrder K] [FloorSemiring K]

/-- The unit in the last place when the exponent is not bounded. -/
def unboundedUlp (x : K) : K := 2 ^ (Int.log 2 x - f.sigWidth)

/-- The magnitude `x` rounded to the precision of the format. -/
def roundUnbounded (rm : RoundingMode) (neg : Bool) (x : K) : K :=
  roundNat rm neg (x / f.unboundedUlp x) * f.unboundedUlp x

/-- The flags that are prescribed when `x` is delivered as `r`, where tininess is detected
after rounding. -/
structure FlagsExact (rm : RoundingMode) (neg : Bool) (x : K) (r : ℕ × Flags) : Prop where
  inexact : r.2.inexact = true ↔ ¬f.Encodes r.1 neg x
  overflow : r.2.overflow = true ↔ f.magnitude (f.largest false) < f.roundUnbounded rm neg x
  underflow : r.2.underflow = true ↔
    ¬f.Encodes r.1 neg x ∧ f.roundUnbounded rm neg x < 2 ^ f.minExp

/-- `x` is below the smallest normal number, and so close to it that even with one more
bit it would be rounded up to it. -/
def BarelyTiny (rm : RoundingMode) (neg : Bool) (x : K) : Prop :=
  x < 2 ^ f.minExp ∧
    match rm with
    | .tiesToEven | .tiesToAway => 2 ^ f.minExp ≤ x + 2 ^ (f.minExp - f.sigWidth - 2)
    | .towardZero => False
    | .towardNegative => neg = true ∧ 2 ^ f.minExp < x + 2 ^ (f.minExp - f.sigWidth - 1)
    | .towardPositive => neg = false ∧ 2 ^ f.minExp < x + 2 ^ (f.minExp - f.sigWidth - 1)

end Definitions

variable {K : Type*} [Field K] [LinearOrder K] [FloorSemiring K] [IsStrictOrderedRing K]
variable {rm : RoundingMode} {neg : Bool} {x : K} {b : ℕ}

/-! ## Rounding without a bound on the exponent -/

theorem unboundedUlp_pos (x : K) : 0 < f.unboundedUlp x := zpow_pos two_pos _

omit [IsStrictOrderedRing K] in
theorem two_pow_eq_unboundedUlp (x : K) (k : ℕ) :
    (2 : K) ^ (Int.log 2 x + k) = (2 ^ (f.sigWidth + k) : ℕ) * f.unboundedUlp x := by
  rw [unboundedUlp, Nat.cast_pow, Nat.cast_ofNat, ← zpow_natCast, ← zpow_add₀ two_ne_zero]
  congr 1
  push_cast
  ring

theorem roundUnbounded_le (rm : RoundingMode) (neg : Bool) (hx : 0 < x) :
    f.roundUnbounded rm neg x ≤ 2 ^ (Int.log 2 x + 1) := by
  have hu := f.unboundedUlp_pos x
  have hlt := (log_mem hx).2
  have hpow := f.two_pow_eq_unboundedUlp x 1
  rw [Nat.cast_one] at hpow
  rw [hpow, ← div_lt_iff₀ hu, ← Nat.floor_lt (div_pos hx hu).le] at hlt
  rw [hpow, roundUnbounded]
  refine mul_le_mul_of_nonneg_right ?_ hu.le
  exact_mod_cast (roundNat_le rm neg _).trans hlt

theorem le_roundUnbounded (rm : RoundingMode) (neg : Bool) (hx : 0 < x) :
    2 ^ Int.log 2 x ≤ f.roundUnbounded rm neg x := by
  have hu := f.unboundedUlp_pos x
  have hle := (log_mem hx).1
  have hpow := f.two_pow_eq_unboundedUlp x 0
  rw [Nat.cast_zero, add_zero, Nat.add_zero] at hpow
  rw [hpow, ← le_div_iff₀ hu, ← Nat.le_floor_iff (div_pos hx hu).le] at hle
  rw [hpow, roundUnbounded]
  refine mul_le_mul_of_nonneg_right ?_ hu.le
  exact_mod_cast hle.trans (floor_le_roundNat rm neg _)

variable (rm neg) in
/-- A number that is not tiny is rounded as with the bound. -/
theorem roundUnbounded_eq (hx : 0 < x) (h : 2 ^ f.minExp ≤ x) :
    f.roundUnbounded rm neg x = f.roundSig rm neg x * f.ulp x := by
  have hlog : f.minExp ≤ Int.log 2 x :=
    (Int.zpow_le_iff_le_log one_lt_two hx).mp (by exact_mod_cast h)
  have hulp : f.unboundedUlp x = f.ulp x := by
    rw [unboundedUlp, ulp, binade, max_eq_right hlog]
  rw [roundUnbounded, hulp, roundSig]

/-- Below, the units of the format are multiples of those without the bound, and what is
exact in the former is exact in the latter. -/
theorem roundUnbounded_of_exact (h : x = f.roundSig rm neg x * f.ulp x) :
    f.roundUnbounded rm neg x = x := by
  have hu := f.unboundedUlp_pos x
  have hle : Int.log 2 x ≤ f.binade x := le_max_right _ _
  have hmul : f.ulp x = (2 ^ (f.binade x - Int.log 2 x).toNat : ℕ) * f.unboundedUlp x := by
    rw [ulp, unboundedUlp, Nat.cast_pow, Nat.cast_ofNat, ← zpow_natCast, ← zpow_add₀ two_ne_zero,
      Int.toNat_of_nonneg (by omega)]
    congr 1
    ring
  have hdiv : x / f.unboundedUlp x =
      (f.roundSig rm neg x * 2 ^ (f.binade x - Int.log 2 x).toNat : ℕ) := by
    rw [div_eq_iff hu.ne', Nat.cast_mul, mul_assoc, ← hmul]
    exact h
  rw [roundUnbounded, hdiv, roundNat_natCast, ← hdiv, div_mul_cancel₀ _ hu.ne']

/-! ## Inexact results -/

omit [LinearOrder K] [FloorSemiring K] [IsStrictOrderedRing K] in
/-- A finite encoding stands for a number of the format. -/
theorem Encodes.representable (h : f.Encodes b neg x) : f.Representable x := by
  have hs : f.significand b < 2 ^ f.sigWidth := Nat.mod_lt _ (Nat.two_pow_pos _)
  have hlt : 2 ^ f.sigWidth + f.significand b < 2 ^ (f.sigWidth + 1) := by
    rw [Nat.pow_succ]
    omega
  have hm := h.magnitude
  rw [Format.magnitude] at hm
  split_ifs at hm with h0
  · exact ⟨f.significand b, _, by omega, le_rfl, hm.symm⟩
  · refine ⟨2 ^ f.sigWidth + f.significand b, f.exponent b - f.bias - f.sigWidth, hlt, ?_, ?_⟩
    · rw [minExp]
      omega
    · rw [← hm]
      push_cast
      rfl

variable (rm neg) in
/-- A number of the format is not changed by rounding. -/
theorem Representable.exact (h : f.Representable x) (hx : 0 < x) :
    x = f.roundSig rm neg x * f.ulp x := by
  have hm : f.binade x = f.minExp ∨ 2 ^ f.binade x ≤ x := by
    rcases lt_or_eq_of_le (le_max_left f.minExp (Int.log 2 x)) with hlt | heq
    · exact .inr (f.two_pow_binade_le hx hlt)
    · exact .inl heq.symm
  obtain ⟨k, hk⟩ := h.eq_mul_ulp f hm
  have hdiv : x / f.ulp x = (k : K) := (div_eq_iff (f.ulp_pos x).ne').mpr hk
  rw [roundSig, hdiv, roundNat_natCast]
  exact hk

variable (rm neg) in
/-- The encoding that is delivered stands for `x` exactly if rounding does not change `x`,
unless it overflows. -/
theorem encodes_round_iff (hx : 0 < x) :
    f.Encodes (f.round rm neg x).1 neg x ↔
      x = f.roundSig rm neg x * f.ulp x ∧ f.roundSig rm neg x * f.ulp x < 2 ^ (f.maxExp + 1) := by
  constructor
  · intro h
    have hexact := (h.representable f).exact f rm neg hx
    refine ⟨hexact, ?_⟩
    rw [← hexact, ← h.magnitude]
    exact f.magnitude_lt h.finite.ne
  · rintro ⟨hexact, hlt⟩
    have h := f.encodes_round rm neg hx hlt
    rwa [← hexact] at h

/-! ## Overflow -/

omit [LinearOrder K] [FloorSemiring K] [IsStrictOrderedRing K] in
theorem magnitude_largest (neg : Bool) :
    (f.magnitude (f.largest neg) : K) =
      (2 ^ (f.sigWidth + 1) - 1 : ℕ) * 2 ^ (f.maxExp - f.sigWidth) := by
  have hexp : 2 ^ 2 ≤ 2 ^ f.expWidth := Nat.pow_le_pow_right two_pos f.two_le_expWidth
  have hsig := Nat.two_pow_pos f.sigWidth
  have he : 2 ^ f.expWidth - 2 < 2 ^ f.expWidth := by omega
  have hs : 2 ^ f.sigWidth - 1 < 2 ^ f.sigWidth := by omega
  have hval : ((2 ^ f.expWidth - 2 : ℕ) : ℤ) - f.bias = f.maxExp := by
    rw [maxExp, Nat.cast_sub (by omega)]
    push_cast
    rfl
  have hnat : 2 ^ (f.sigWidth + 1) - 1 = 2 ^ f.sigWidth + (2 ^ f.sigWidth - 1) := by
    rw [Nat.pow_succ]
    omega
  rw [magnitude, largest, exponent_pack he hs, significand_pack hs, if_neg (by omega), hval, hnat]
  push_cast
  rfl

variable (rm neg) in
/-- What is rounded above the largest finite number is rounded to the next power of two. -/
theorem largest_lt_roundUnbounded_iff (hx : 0 < x) :
    f.magnitude (f.largest false) < f.roundUnbounded rm neg x ↔
      2 ^ (f.maxExp + 1) ≤ f.roundUnbounded rm neg x := by
  have hpos : (0 : K) < 2 ^ (f.maxExp - f.sigWidth) := zpow_pos two_pos _
  have hpow : (2 : K) ^ (f.maxExp + 1) =
      (2 ^ (f.sigWidth + 1) : ℕ) * 2 ^ (f.maxExp - f.sigWidth) := by
    rw [Nat.cast_pow, Nat.cast_ofNat, ← zpow_natCast, ← zpow_add₀ two_ne_zero]
    congr 1
    push_cast
    ring
  have hle : f.magnitude (f.largest false) < (2 : K) ^ (f.maxExp + 1) := by
    rw [magnitude_largest, hpow]
    exact mul_lt_mul_of_pos_right (by exact_mod_cast Nat.sub_lt (Nat.two_pow_pos _) one_pos) hpos
  refine ⟨fun h => ?_, hle.trans_le⟩
  rcases lt_trichotomy (Int.log 2 x) f.maxExp with hlt | heq | hgt
  · -- the numbers of a smaller binade are rounded to at most the largest power of two
    have hmax : (2 : K) ^ f.maxExp ≤ f.magnitude (f.largest false) := by
      have hnat : 2 ^ f.sigWidth ≤ 2 ^ (f.sigWidth + 1) - 1 := by
        have := Nat.two_pow_pos f.sigWidth
        rw [Nat.pow_succ]
        omega
      calc (2 : K) ^ f.maxExp = (2 ^ f.sigWidth : ℕ) * 2 ^ (f.maxExp - f.sigWidth) := by
            rw [Nat.cast_pow, Nat.cast_ofNat, ← zpow_natCast, ← zpow_add₀ two_ne_zero]
            congr 1
            ring
        _ ≤ (2 ^ (f.sigWidth + 1) - 1 : ℕ) * 2 ^ (f.maxExp - f.sigWidth) :=
            mul_le_mul_of_nonneg_right (by exact_mod_cast hnat) hpos.le
        _ = f.magnitude (f.largest false) := (f.magnitude_largest false).symm
    have hround := (f.roundUnbounded_le rm neg hx).trans
      (zpow_le_zpow_right₀ one_le_two (show Int.log 2 x + 1 ≤ f.maxExp by omega))
    exact absurd h (not_lt.mpr (hround.trans hmax))
  · -- in the last binade the units are those of the largest number
    have hulp : f.unboundedUlp x = 2 ^ (f.maxExp - f.sigWidth) := by rw [unboundedUlp, heq]
    rw [magnitude_largest, roundUnbounded, hulp, mul_lt_mul_iff_left₀ hpos, Nat.cast_lt] at h
    rw [hpow, roundUnbounded, hulp]
    refine mul_le_mul_of_nonneg_right ?_ hpos.le
    exact_mod_cast (show 2 ^ (f.sigWidth + 1) ≤ roundNat rm neg (x / _) by omega)
  · exact (zpow_le_zpow_right₀ one_le_two (by omega)).trans (f.le_roundUnbounded rm neg hx)

/-! ## Underflow -/

/-- The numbers that become normal by rounding to the precision of the format. -/
theorem barelyTiny_iff (hx : 0 < x) :
    f.BarelyTiny rm neg x ↔ x < 2 ^ f.minExp ∧ 2 ^ f.minExp ≤ f.roundUnbounded rm neg x := by
  unfold BarelyTiny
  refine and_congr_right fun htiny => ?_
  have hlog : Int.log 2 x < f.minExp :=
    (Int.lt_zpow_iff_log_lt one_lt_two hx).mp (by exact_mod_cast htiny)
  rcases lt_or_eq_of_le (show Int.log 2 x ≤ f.minExp - 1 by omega) with hlt | heq
  · -- further below, neither the number nor its rounding comes near
    have hhalf : (2 : K) ^ f.minExp = 2 ^ (f.minExp - 1) + 2 ^ (f.minExp - 1) := by
      rw [← mul_two, ← zpow_add_one₀ two_ne_zero]
      congr 1
      ring
    have hbelow : (2 : K) ^ (Int.log 2 x + 1) ≤ 2 ^ (f.minExp - 1) :=
      zpow_le_zpow_right₀ one_le_two (by omega)
    have hx' : x < 2 ^ (f.minExp - 1) := (log_mem hx).2.trans_le hbelow
    have hround := (f.roundUnbounded_le rm neg hx).trans hbelow
    have h1 : (2 : K) ^ (f.minExp - f.sigWidth - 1) ≤ 2 ^ (f.minExp - 1) :=
      zpow_le_zpow_right₀ one_le_two (by omega)
    have h2 : (2 : K) ^ (f.minExp - f.sigWidth - 2) ≤ 2 ^ (f.minExp - 1) :=
      zpow_le_zpow_right₀ one_le_two (by omega)
    have hnot : ¬(2 : K) ^ f.minExp ≤ f.roundUnbounded rm neg x := by
      have hpos : (0 : K) < 2 ^ (f.minExp - 1) := zpow_pos two_pos _
      linarith
    have hnear : ¬(2 : K) ^ f.minExp ≤ x + 2 ^ (f.minExp - f.sigWidth - 2) := by linarith
    have hup : ¬(2 : K) ^ f.minExp < x + 2 ^ (f.minExp - f.sigWidth - 1) := by linarith
    cases rm <;> simp only [hnot, hnear, hup, and_false]
  · -- in the binade below, the smallest normal number is an even number of units
    have hu := f.unboundedUlp_pos x
    have hulp : f.unboundedUlp x = 2 ^ (f.minExp - f.sigWidth - 1) := by
      rw [unboundedUlp, heq]
      congr 1
      ring
    have hhalf : f.unboundedUlp x / 2 = 2 ^ (f.minExp - f.sigWidth - 2) := by
      rw [hulp, div_eq_iff two_ne_zero, ← zpow_add_one₀ two_ne_zero]
      congr 1
      ring
    have hpow : (2 : K) ^ f.minExp = (2 ^ (f.sigWidth + 1) : ℕ) * f.unboundedUlp x := by
      have h := f.two_pow_eq_unboundedUlp x 1
      rwa [heq, Nat.cast_one, sub_add_cancel] at h
    have hround : 2 ^ f.minExp ≤ f.roundUnbounded rm neg x ↔
        2 ^ (f.sigWidth + 1) ≤ roundNat rm neg (x / f.unboundedUlp x) := by
      rw [hpow, roundUnbounded, mul_le_mul_iff_left₀ hu, Nat.cast_le]
    have hlt : x / f.unboundedUlp x < (2 ^ (f.sigWidth + 1) : ℕ) := by
      rwa [div_lt_iff₀ hu, ← hpow]
    have heven : 2 ^ (f.sigWidth + 1) % 2 = 0 := by
      rw [Nat.pow_succ]
      omega
    have hnear : ((2 ^ (f.sigWidth + 1) : ℕ) : K) ≤ x / f.unboundedUlp x + 1 / 2 ↔
        2 ^ f.minExp ≤ x + 2 ^ (f.minExp - f.sigWidth - 2) := by
      rw [← hhalf, hpow, ← mul_le_mul_iff_left₀ hu, add_mul, div_mul_cancel₀ _ hu.ne',
        one_div_mul_eq_div]
    have hup : ((2 ^ (f.sigWidth + 1) : ℕ) : K) < x / f.unboundedUlp x + 1 ↔
        2 ^ f.minExp < x + 2 ^ (f.minExp - f.sigWidth - 1) := by
      rw [← hulp, hpow, ← mul_lt_mul_iff_left₀ hu, add_mul, div_mul_cancel₀ _ hu.ne', one_mul]
    rw [hround, le_roundNat_iff rm neg (div_pos hx hu).le heven hlt]
    cases rm <;> simp only [hnear, hup]

/-- A tiny number is rounded to at most the smallest normal one. -/
theorem roundSig_mul_ulp_le (hx : 0 < x) (h : x < 2 ^ f.minExp) :
    f.roundSig rm neg x * f.ulp x ≤ 2 ^ f.minExp := by
  have hu := f.ulp_pos x
  have hlog : Int.log 2 x < f.minExp :=
    (Int.lt_zpow_iff_log_lt one_lt_two hx).mp (by exact_mod_cast h)
  have hbin : f.binade x = f.minExp := max_eq_left hlog.le
  have hpow := f.two_pow_eq_ulp x
  rw [hbin] at hpow
  rw [hpow, ← div_lt_iff₀ hu, ← Nat.floor_lt (div_pos hx hu).le] at h
  rw [hpow]
  refine mul_le_mul_of_nonneg_right ?_ hu.le
  exact_mod_cast (roundNat_le rm neg _).trans h

/-- The flags of a result that does not overflow. -/
theorem round_flags (hx : 0 < x) (h : f.roundSig rm neg x * f.ulp x < 2 ^ (f.maxExp + 1)) :
    (f.round rm neg x).2 =
      { underflow := decide (x ≠ f.roundSig rm neg x * f.ulp x) && decide (x < 2 ^ f.minExp)
        inexact := decide (x ≠ f.roundSig rm neg x * f.ulp x) } := by
  have hov := f.maxExp_lt_iff rm neg hx
  rw [← not_le, ← hov] at h
  unfold round
  simp only [h, if_false]

/-- The flags of the format are those that are prescribed, but for a result that becomes
normal by rounding to its precision: that one is tiny only before rounding. -/
theorem round_flagsExact_iff (hx : 0 < x) :
    f.FlagsExact rm neg x (f.round rm neg x) ↔ ¬f.BarelyTiny rm neg x := by
  have henc := f.encodes_round_iff rm neg hx
  have hlargest := f.largest_lt_roundUnbounded_iff rm neg hx
  have hb := f.one_le_bias
  have hmax := f.maxExp_eq
  have hmin : f.minExp = 1 - f.bias := rfl
  have hmono : (2 : K) ^ f.minExp < 2 ^ (f.maxExp + 1) :=
    zpow_lt_zpow_right₀ one_lt_two (by omega)
  rw [barelyTiny_iff f hx, not_and, not_le]
  rcases lt_or_ge (f.roundSig rm neg x * f.ulp x) (2 ^ (f.maxExp + 1)) with hlt | hov
  · rw [and_iff_left hlt] at henc
    have hflags := f.round_flags hx hlt
    -- without overflow the number is not rounded above the largest one either
    have hbelow : f.roundUnbounded rm neg x < 2 ^ (f.maxExp + 1) := by
      rcases lt_or_ge x (2 ^ f.minExp) with htiny | hge
      · have hlog : Int.log 2 x < f.minExp :=
          (Int.lt_zpow_iff_log_lt one_lt_two hx).mp (by exact_mod_cast htiny)
        exact (f.roundUnbounded_le rm neg hx).trans_lt
          ((zpow_le_zpow_right₀ one_le_two (by omega)).trans_lt hmono)
      · rwa [f.roundUnbounded_eq rm neg hx hge]
    constructor
    · intro hexact htiny
      by_contra hround
      have hne : x ≠ f.roundSig rm neg x * f.ulp x := fun heq =>
        hround ((f.roundUnbounded_of_exact heq).trans_lt htiny)
      refine hround (hexact.underflow.mp ?_).2
      simp only [hflags, hne, htiny, ne_eq, not_false_eq_true, decide_true, Bool.and_self]
    · intro hround
      refine ⟨?_, ?_, ?_⟩
      · rw [henc, hflags, decide_eq_true_eq]
      · rw [hlargest, hflags]
        exact iff_of_false Bool.false_ne_true (not_le.mpr hbelow)
      · rw [henc, hflags, Bool.and_eq_true, decide_eq_true_eq, decide_eq_true_eq]
        refine and_congr_right fun _ => ⟨hround, fun h => ?_⟩
        by_contra hge
        have hle := (not_lt.mp hge)
        have hlog : f.minExp ≤ Int.log 2 x :=
          (Int.zpow_le_iff_le_log one_lt_two hx).mp (by exact_mod_cast hle)
        exact absurd ((zpow_le_zpow_right₀ one_le_two hlog).trans
          (f.le_roundUnbounded rm neg hx)) (not_le.mpr h)
  · have hge : 2 ^ f.minExp ≤ x := by
      by_contra htiny
      exact absurd ((f.roundSig_mul_ulp_le hx (not_le.mp htiny)).trans_lt hmono) (not_lt.mpr hov)
    have hround := f.roundUnbounded_eq rm neg hx hge
    have hnot : ¬f.Encodes (f.round rm neg x).1 neg x := fun h =>
      absurd (henc.mp h).2 (not_lt.mpr hov)
    have hflags : (f.round rm neg x).2 = { overflow := true, inexact := true } := by
      rw [f.round_of_overflow rm neg hx hov]
    refine iff_of_true ⟨?_, ?_, ?_⟩ fun htiny => absurd htiny (not_lt.mpr hge)
    · rw [hflags]
      exact iff_of_true rfl hnot
    · rw [hflags, hlargest, hround]
      exact iff_of_true rfl hov
    · rw [hflags, hround]
      exact iff_of_false Bool.false_ne_true fun h => absurd (hov.trans_lt h.2) hmono.not_gt

end Format

end Muntjac.Ieee

import Muntjac.Fpu.Unpacked
import Muntjac.Ieee.Exceptions
import Mathlib.Data.Rat.Floor

/-!
# Rounding

`muntjac_fpu_round` and `muntjac_fpu_round_to_ieee`: the last stage of every operation.
The significand of a number below the smallest normal one is shifted right before it is
rounded; a carry out of the rounding goes to the exponent.

## Main results

* `roundToIeee_number` — the encoding and the flags are those of the exact number.
* `final_rounding`, `rounding_flags` — for which inputs of the stage they are prescribed.
-/

namespace Muntjac.Fpu

open Sync Ieee

/-- `muntjac_fpu_round`: whether the three bits are inexact, and whether they are rounded
up. -/
def round (rm : RoundingMode) (sign : Bool) (significand : ℕ) : Bool × Bool :=
  if significand % 4 != 0 then
    (true,
      match rm with
      | .tiesToEven => significand % 4 == 3 || significand == 6
      | .towardZero => false
      | .towardNegative => sign && significand % 4 != 0
      | .towardPositive => !sign && significand % 4 != 0
      | .tiesToAway => significand.testBit 1)
  else (false, false)

theorem round_fst (rm : RoundingMode) (sign : Bool) (n : ℕ) :
    (round rm sign (n % 8)).1 = (n % 4 != 0) := by
  have h4 : n % 8 % 4 = n % 4 := Nat.mod_mod_of_dvd n (by decide)
  unfold round
  rw [h4]
  split_ifs with h
  · exact h.symm
  · exact (Bool.eq_false_of_not_eq_true h).symm

theorem round_snd (rm : RoundingMode) (sign : Bool) (n : ℕ) :
    (round rm sign (n % 8)).2 = roundsUpBits rm sign n := by
  have h4 : n % 8 % 4 = n % 4 := Nat.mod_mod_of_dvd n (by decide)
  unfold round
  rw [h4]
  split_ifs with h
  · cases rm with
    | tiesToEven => rfl
    | towardZero => rfl
    | towardNegative => rfl
    | towardPositive => rfl
    | tiesToAway =>
        simp only [roundsUpBits, Nat.testBit_eq_decide_div_mod_eq, decide_eq_decide]
        omega
  · have h0 : n % 4 = 0 := by simpa using h
    have h6 : n % 8 ≠ 6 := by omega
    cases rm <;> simp [roundsUpBits, h0, h6]

/-! ## `muntjac_fpu_round_to_ieee` -/

namespace RoundToIeee
variable (inExpWidth inSigWidth : ℕ) (f : Format) (rm : RoundingMode) (x : Unpacked)

def exponentBias : ℤ := wrap inExpWidth (2 ^ (f.expWidth - 1) - 1)
def minimumExponent : ℤ := wrap inExpWidth (1 - exponentBias inExpWidth f)
def maximumExponent : ℤ := wrap inExpWidth (2 ^ f.expWidth - 2 - exponentBias inExpWidth f)

def subnormalExponentDifference : ℤ := wrap inExpWidth (minimumExponent inExpWidth f - x.exponent)

def exponentBasis : ℤ :=
  if 0 ≤ subnormalExponentDifference inExpWidth f x then minimumExponent inExpWidth f
  else x.exponent

def subnormalShift : ℤ :=
  if 0 ≤ subnormalExponentDifference inExpWidth f x then subnormalExponentDifference inExpWidth f x
  else 0

def subnormalSignificand : ℕ :=
  rightShift (inSigWidth + 1) inExpWidth (cat 1 inSigWidth x.significand)
    (bits inExpWidth (subnormalShift inExpWidth f x))

/-- One explicit leading bit and two bits for rounding. -/
def significandToRound : ℕ :=
  cat (slice (subnormalSignificand inExpWidth inSigWidth f x) inSigWidth
      (inSigWidth - f.sigWidth - 1)) 1
    (slice (subnormalSignificand inExpWidth inSigWidth f x)
      (inSigWidth - f.sigWidth - 2) 0 != 0).toNat

def inexact : Bool :=
  (round rm x.sign (significandToRound inExpWidth inSigWidth f x % 8)).1

def roundup : Bool :=
  (round rm x.sign (significandToRound inExpWidth inSigWidth f x % 8)).2

def significandRounded : ℕ :=
  slice (significandToRound inExpWidth inSigWidth f x) (f.sigWidth + 2) 2 +
    (roundup inExpWidth inSigWidth f rm x).toNat

/-- `significand_rounded[IeeeSigWidth+1]`. -/
def carry : Bool := (significandRounded inExpWidth inSigWidth f rm x).testBit (f.sigWidth + 1)

def adjustedExponent : ℤ :=
  if carry inExpWidth inSigWidth f rm x then wrap inExpWidth (exponentBasis inExpWidth f x + 1)
  else exponentBasis inExpWidth f x

def adjustedSignificand : ℕ :=
  if carry inExpWidth inSigWidth f rm x then
    slice (significandRounded inExpWidth inSigWidth f rm x) (f.sigWidth + 1) 1
  else slice (significandRounded inExpWidth inSigWidth f rm x) f.sigWidth 0

end RoundToIeee

open RoundToIeee in
/-- `muntjac_fpu_round_to_ieee`: `ieee_o` and `exception_o`. -/
def roundToIeee (inExpWidth inSigWidth : ℕ) (f : Format)
    (invalidOperation divideByZero useNanPayload : Bool) (rm : RoundingMode) (x : Unpacked) :
    ℕ × Flags :=
  if invalidOperation || x.isNan then
    (f.pack (if useNanPayload then x.sign else false) (2 ^ f.expWidth - 1)
        (if useNanPayload then slice x.significand (inSigWidth - 1) (inSigWidth - f.sigWidth)
        else 2 ^ (f.sigWidth - 1)),
      { invalidOperation := invalidOperation })
  else if x.isInf then
    (f.pack x.sign (2 ^ f.expWidth - 1) 0, { divideByZero := divideByZero })
  else if x.isZero then (f.pack x.sign 0 0, {})
  else if maximumExponent inExpWidth f < adjustedExponent inExpWidth inSigWidth f rm x then
    (if (x.sign && rm == .towardPositive) || (!x.sign && rm == .towardNegative) ||
        rm == .towardZero then
      f.pack x.sign (2 ^ f.expWidth - 2) (2 ^ f.sigWidth - 1)
    else f.pack x.sign (2 ^ f.expWidth - 1) 0,
      { overflow := true, inexact := true })
  else if !(adjustedSignificand inExpWidth inSigWidth f rm x).testBit f.sigWidth then
    (f.pack x.sign 0 (slice (adjustedSignificand inExpWidth inSigWidth f rm x) (f.sigWidth - 1) 0),
      { underflow := inexact inExpWidth inSigWidth f rm x
        inexact := inexact inExpWidth inSigWidth f rm x })
  else
    (f.pack x.sign
        (bits f.expWidth (adjustedExponent inExpWidth inSigWidth f rm x +
          exponentBias inExpWidth f))
        (slice (adjustedSignificand inExpWidth inSigWidth f rm x) (f.sigWidth - 1) 0),
      { underflow := decide (0 < subnormalExponentDifference inExpWidth f x)
        inexact := inexact inExpWidth inSigWidth f rm x })

/-! ## Rounding is IEEE rounding -/

/-- The widths that the rounder is made for. -/
structure Fits (inExpWidth inSigWidth : ℕ) (f : Format) : Prop where
  sigWidth : f.sigWidth + 2 ≤ inSigWidth
  expWidth : f.expWidth + 1 ≤ inExpWidth
  minExp : f.minExp ≤ -2
  shift : 2 * (inSigWidth - f.minExp) ≤ 2 ^ inExpWidth

namespace RoundToIeee
variable {w W : ℕ} {f : Format} {rm : RoundingMode} {x : Unpacked}
variable {K : Type*} [Field K] [LinearOrder K] [IsStrictOrderedRing K] [FloorSemiring K] {v : K}

theorem sigWidth_lt (hf : Fits w W f) : W + 1 < 2 ^ w := by
  have h := hf.shift
  have hm := hf.minExp
  zify
  omega

theorem two_pow_le (hf : Fits w W f) : 4 * f.bias + 4 ≤ 2 ^ w := by
  have h : (2 : ℤ) ^ (f.expWidth + 1) ≤ 2 ^ w := pow_le_pow_right₀ (by norm_num) hf.expWidth
  rw [pow_succ, f.two_pow_expWidth] at h
  omega

theorem exponentBias_eq (hf : Fits w W f) : exponentBias w f = f.bias := by
  have h := two_pow_le hf
  have hb := f.one_le_bias
  exact wrap_eq (by rw [← Format.bias]; omega) (by rw [← Format.bias]; omega)

theorem minimumExponent_eq (hf : Fits w W f) : minimumExponent w f = f.minExp := by
  have h := two_pow_le hf
  have hb := f.one_le_bias
  rw [minimumExponent, exponentBias_eq hf, ← Format.minExp]
  refine wrap_eq ?_ ?_ <;> rw [Format.minExp] <;> omega

theorem maximumExponent_eq (hf : Fits w W f) : maximumExponent w f = f.maxExp := by
  have h := two_pow_le hf
  have hb := f.one_le_bias
  rw [maximumExponent, exponentBias_eq hf, ← Format.maxExp]
  refine wrap_eq ?_ ?_ <;> rw [Format.maxExp_eq] <;> omega

/-- The exponent differences that the rounder computes do not wrap. -/
structure InRange (w : ℕ) (f : Format) (e : ℤ) : Prop where
  lo : -2 ^ w ≤ 2 * e
  hi : 2 * (e - f.minExp) ≤ 2 ^ w

theorem significandToRound_eq (hf : Fits w W f)
    (hlt : subnormalSignificand w W f x < 2 ^ (W + 1)) :
    significandToRound w W f x =
      jamShift (subnormalSignificand w W f x) (W - f.sigWidth - 2) := by
  have hW := hf.sigWidth
  have hdiv : subnormalSignificand w W f x / 2 ^ (W - f.sigWidth - 1) < 2 ^ (f.sigWidth + 2) := by
    apply Nat.div_lt_of_lt_mul
    rwa [← Nat.pow_add, show W - f.sigWidth - 1 + (f.sigWidth + 2) = W + 1 by omega]
  rw [significandToRound, slice, slice, cat, jamShift, Nat.pow_zero, Nat.div_one,
    show W + 1 - (W - f.sigWidth - 1) = f.sigWidth + 2 by omega, Nat.mod_eq_of_lt hdiv,
    show W - f.sigWidth - 2 + 1 - 0 = W - f.sigWidth - 1 by omega,
    show W - f.sigWidth - 2 + 1 = W - f.sigWidth - 1 by omega]
  split_ifs with h
  · simp only [h, bne_self_eq_false, Bool.toNat_false]
    omega
  · simp only [bne_iff_ne.mpr h, Bool.toNat_true]
    omega

section Number
variable (hf : Fits w W f) (he : InRange w f x.exponent)
include hf he

theorem subnormalExponentDifference_eq :
    subnormalExponentDifference w f x = f.minExp - x.exponent := by
  have hlo := he.lo
  have hhi := he.hi
  have hm := hf.minExp
  rw [subnormalExponentDifference, minimumExponent_eq hf]
  exact wrap_eq (by omega) (by omega)

theorem exponentBasis_eq : exponentBasis w f x = max f.minExp x.exponent := by
  rw [exponentBasis, subnormalExponentDifference_eq hf he, minimumExponent_eq hf]
  split_ifs <;> omega

theorem bits_subnormalShift :
    bits w (subnormalShift w f x) = (max f.minExp x.exponent - x.exponent).toNat := by
  have hlo := he.lo
  have hm := hf.minExp
  rw [subnormalShift, subnormalExponentDifference_eq hf he]
  split_ifs with h
  · rw [bits_eq h (by omega)]
    congr 1
    omega
  · rw [bits_eq le_rfl (by positivity)]
    congr 1
    omega

variable (hs : x.significand < 2 ^ W)
include hs

theorem subnormalSignificand_eq :
    subnormalSignificand w W f x =
      jamShift (2 ^ W + x.significand) (max f.minExp x.exponent - x.exponent).toNat := by
  rw [subnormalSignificand, bits_subnormalShift hf he, cat, Nat.one_mul]
  refine rightShift_eq (by omega) (sigWidth_lt hf) ?_
  rw [Nat.pow_succ]
  omega

theorem subnormalSignificand_lt : subnormalSignificand w W f x < 2 ^ (W + 1) := by
  rw [subnormalSignificand_eq hf he hs]
  refine jamShift_lt (lt_of_lt_of_le ?_ (Nat.pow_le_pow_right two_pos (Nat.le_add_right _ _)))
    (by omega)
  rw [Nat.pow_succ]
  omega

theorem significandToRound_lt : significandToRound w W f x < 2 ^ (f.sigWidth + 3) := by
  have hW := hf.sigWidth
  rw [significandToRound_eq hf (subnormalSignificand_lt hf he hs)]
  refine jamShift_lt ?_ (by omega)
  rw [show f.sigWidth + 3 + (W - f.sigWidth - 2) = W + 1 by omega]
  exact subnormalSignificand_lt hf he hs

variable (rm) in
theorem significandRounded_le : significandRounded w W f rm x ≤ 2 ^ (f.sigWidth + 1) := by
  have hlt := significandToRound_lt hf he hs
  have hdiv : significandToRound w W f x / 2 ^ 2 < 2 ^ (f.sigWidth + 1) := by
    apply Nat.div_lt_of_lt_mul
    rwa [← Nat.pow_add, Nat.add_comm 2]
  have hup := Bool.toNat_le (roundup w W f rm x)
  rw [significandRounded, slice, show f.sigWidth + 2 + 1 - 2 = f.sigWidth + 1 by omega,
    Nat.mod_eq_of_lt hdiv]
  omega

variable (hv : Sticky (v / 2 ^ (x.exponent - W)) (2 ^ W + x.significand))
include hv

omit he in
theorem binade_eq : f.binade v = max f.minExp x.exponent := by
  have hW := hf.sigWidth
  obtain ⟨hlo, hhi⟩ := Format.Sticky.mem_binade (by omega) hs hv
  exact f.binade_eq hlo hhi

/-- The significand that is rounded stands for the exact number in quarters of the unit in
the last place. -/
theorem sticky_significandToRound :
    Sticky (4 * (v / f.ulp v)) (significandToRound w W f x) := by
  have hW := hf.sigWidth
  have hshift := (hv.shift (max f.minExp x.exponent - x.exponent).toNat).shift (W - f.sigWidth - 2)
  rw [← subnormalSignificand_eq hf he hs,
    ← significandToRound_eq hf (subnormalSignificand_lt hf he hs)] at hshift
  have hval : v / 2 ^ (x.exponent - W) / 2 ^ (max f.minExp x.exponent - x.exponent).toNat /
      2 ^ (W - f.sigWidth - 2) = 4 * (v / f.ulp v) := by
    have h4 : (4 : K) = 2 ^ (2 : ℤ) := by norm_num
    rw [Format.ulp, binade_eq hf hs hv, div_div, div_div, ← zpow_natCast, ← zpow_natCast,
      ← zpow_add₀ two_ne_zero, ← zpow_add₀ two_ne_zero, h4, mul_div_assoc', mul_comm,
      mul_div_assoc, ← zpow_sub₀ two_ne_zero, div_eq_mul_inv, ← zpow_neg]
    congr 2
    omega
  rwa [hval] at hshift

theorem roundSig_eq :
    f.roundSig rm x.sign v = significandRounded w W f rm x := by
  have hlt := significandToRound_lt hf he hs
  have h := (sticky_significandToRound hf he hs hv).roundNat_div rm x.sign
  rw [mul_div_cancel_left₀ _ (by norm_num)] at h
  have hdiv : significandToRound w W f x / 2 ^ 2 < 2 ^ (f.sigWidth + 1) := by
    apply Nat.div_lt_of_lt_mul
    rwa [← Nat.pow_add, Nat.add_comm 2]
  rw [Format.roundSig, h, significandRounded, roundup, round_snd, slice,
    show f.sigWidth + 2 + 1 - 2 = f.sigWidth + 1 by omega, Nat.mod_eq_of_lt hdiv]
  rfl

variable (rm) in
theorem inexact_eq :
    inexact w W f rm x = decide (v ≠ f.roundSig rm x.sign v * f.ulp v) := by
  have h := (sticky_significandToRound hf he hs hv).exact_div
  rw [mul_div_cancel_left₀ _ (by norm_num)] at h
  have hiff : v = f.roundSig rm x.sign v * f.ulp v ↔ significandToRound w W f x % 4 = 0 := by
    rw [← h, ← eq_roundNat_iff rm x.sign, Format.roundSig, div_eq_iff (f.ulp_pos v).ne']
  rw [inexact, round_fst, Bool.eq_iff_iff, bne_iff_ne, decide_eq_true_eq, ne_eq, ne_eq, hiff]

variable (rm) in
theorem carry_eq :
    carry w W f rm x = (f.roundSig rm x.sign v == 2 ^ (f.sigWidth + 1)) := by
  have hle := significandRounded_le rm hf he hs
  rw [carry, ← roundSig_eq hf he hs hv] at *
  rw [Nat.testBit_eq_decide_div_mod_eq, Bool.eq_iff_iff, decide_eq_true_eq, beq_iff_eq]
  constructor
  · intro h
    by_contra hne
    rw [Nat.div_eq_of_lt (lt_of_le_of_ne hle hne)] at h
    exact absurd h (by decide)
  · intro h
    rw [h, Nat.div_self (Nat.two_pow_pos _)]

variable (rm) in
theorem adjustedSignificand_eq :
    adjustedSignificand w W f rm x =
      if carry w W f rm x then 2 ^ f.sigWidth else f.roundSig rm x.sign v := by
  have hle := significandRounded_le rm hf he hs
  have hc := carry_eq rm hf he hs hv
  rw [adjustedSignificand, ← roundSig_eq hf he hs hv] at *
  split_ifs with h
  · rw [h] at hc
    rw [beq_iff_eq.mp hc.symm, slice, show f.sigWidth + 1 + 1 - 1 = f.sigWidth + 1 by omega,
      Nat.pow_div (by omega) two_pos, Nat.add_sub_cancel]
    exact Nat.mod_eq_of_lt (Nat.pow_lt_pow_right one_lt_two (Nat.lt_succ_self _))
  · rw [Bool.eq_false_of_not_eq_true h] at hc
    have hne := beq_eq_false_iff_ne.mp hc.symm
    rw [slice, Nat.pow_zero, Nat.div_one]
    exact Nat.mod_eq_of_lt (lt_of_le_of_ne hle hne)

variable (rm) in
theorem adjustedExponent_eq :
    adjustedExponent w W f rm x =
      if carry w W f rm x then f.binade v + 1 else f.binade v := by
  have hlo := he.lo
  have hhi := he.hi
  have hm := hf.minExp
  rw [adjustedExponent, exponentBasis_eq hf he, binade_eq hf hs hv]
  split_ifs with h
  · exact wrap_eq (by omega) (by omega)
  · rfl

variable (rm) in
omit he in
/-- The rounded significand of a normal binade has its leading bit, and so has a carry. -/
theorem le_roundSig (h : f.minExp ≤ x.exponent) : 2 ^ f.sigWidth ≤ f.roundSig rm x.sign v := by
  have hW := hf.sigWidth
  obtain ⟨hlo, -⟩ := Format.Sticky.mem_binade (by omega) hs hv
  have hle : ((2 ^ f.sigWidth : ℕ) : K) ≤ v / f.ulp v := by
    rw [le_div_iff₀ (f.ulp_pos v), Format.ulp, binade_eq hf hs hv, max_eq_right h, Nat.cast_pow,
      Nat.cast_ofNat, ← zpow_natCast, ← zpow_add₀ two_ne_zero]
    rwa [show (f.sigWidth : ℤ) + (x.exponent - f.sigWidth) = x.exponent by ring]
  exact (Nat.le_floor hle).trans (floor_le_roundNat _ _ _)

omit he in
/-- A number below the smallest normal one is inexact if it is rounded up to that. -/
theorem inexact_of_subnormal (h : x.exponent < f.minExp)
    (hn : 2 ^ f.sigWidth ≤ f.roundSig rm x.sign v) : v ≠ f.roundSig rm x.sign v * f.ulp v := by
  have hW := hf.sigWidth
  obtain ⟨-, hhi⟩ := Format.Sticky.mem_binade (by omega) hs hv
  intro heq
  have hle : (2 : K) ^ f.minExp ≤ v := by
    rw [heq, Format.ulp, binade_eq hf hs hv, max_eq_left h.le]
    have hcast : (2 : K) ^ (f.sigWidth : ℤ) ≤ f.roundSig rm x.sign v := by
      rw [zpow_natCast]
      exact_mod_cast hn
    calc (2 : K) ^ f.minExp = 2 ^ (f.sigWidth : ℤ) * 2 ^ (f.minExp - f.sigWidth) := by
          rw [← zpow_add₀ two_ne_zero]
          congr 1
          ring
      _ ≤ f.roundSig rm x.sign v * 2 ^ (f.minExp - f.sigWidth) :=
          mul_le_mul_of_nonneg_right hcast (zpow_pos two_pos _).le
  have hmono : (2 : K) ^ (x.exponent + 1) ≤ 2 ^ f.minExp :=
    zpow_le_zpow_right₀ one_le_two (by omega)
  exact absurd (hhi.trans_le hmono) (not_lt.mpr hle)

omit he in
theorem lt_two_pow_minExp : v < 2 ^ f.minExp ↔ x.exponent < f.minExp := by
  have hW := hf.sigWidth
  obtain ⟨hlo, hhi⟩ := Format.Sticky.mem_binade (by omega) hs hv
  constructor
  · intro h
    by_contra hge
    have hmono : (2 : K) ^ f.minExp ≤ 2 ^ x.exponent :=
      zpow_le_zpow_right₀ one_le_two (by omega)
    exact absurd (h.trans_le hmono) (not_lt.mpr hlo)
  · intro h
    exact hhi.trans_le (zpow_le_zpow_right₀ one_le_two (by omega))

variable (rm) in
theorem bits_adjustedExponent (hle : (if carry w W f rm x then f.binade v + 1 else f.binade v) ≤
    f.maxExp) :
    bits f.expWidth (adjustedExponent w W f rm x + exponentBias w f) =
      ((if carry w W f rm x then f.binade v + 1 else f.binade v) + f.bias).toNat := by
  have hb := f.one_le_bias
  have hmin : f.minExp ≤ f.binade v := le_max_left _ _
  have hmax := f.maxExp_eq
  have hmin' : f.minExp = 1 - f.bias := rfl
  rw [adjustedExponent_eq rm hf he hs hv, exponentBias_eq hf]
  refine bits_eq ?_ ?_
  · split_ifs <;> omega
  · rw [f.two_pow_expWidth]
    split_ifs at hle ⊢ <;> omega

end Number

end RoundToIeee

section Correct
variable {w W : ℕ} {f : Format} {x : Unpacked}
variable {K : Type*} [Field K] [LinearOrder K] [IsStrictOrderedRing K] [FloorSemiring K] {v : K}

open RoundToIeee in
/-- A finite nonzero number is rounded as the format prescribes for the exact number that
its significand stands for. -/
theorem roundToIeee_number (hf : Fits w W f) (he : InRange w f x.exponent)
    (hs : x.significand < 2 ^ W) (hv : Sticky (v / 2 ^ (x.exponent - W)) (2 ^ W + x.significand))
    (hn : x.isNan = false) (hi : x.isInf = false) (hz : x.isZero = false) (dz nanp : Bool)
    (rm : RoundingMode) :
    roundToIeee w W f false dz nanp rm x = f.round rm x.sign v := by
  have hW := hf.sigWidth
  have hsw := f.two_le_sigWidth
  have hle := significandRounded_le rm hf he hs
  rw [← roundSig_eq hf he hs hv] at hle
  have hc := carry_eq rm hf he hs hv
  have hexp := adjustedExponent_eq rm hf he hs hv
  have hsig := adjustedSignificand_eq rm hf he hs hv
  have hin := inexact_eq rm hf he hs hv
  have hbits := bits_adjustedExponent rm hf he hs hv
  have hdiff := subnormalExponentDifference_eq hf he
  have hlt : 2 ^ f.sigWidth < 2 ^ (f.sigWidth + 1) :=
    Nat.pow_lt_pow_right one_lt_two (Nat.lt_succ_self _)
  -- the adjusted significand fits, and it has its leading bit unless the number is subnormal
  have hadj : adjustedSignificand w W f rm x < 2 ^ (f.sigWidth + 1) := by
    rw [hsig, hc]
    split_ifs with h
    · exact hlt
    · exact lt_of_le_of_ne hle (by simpa using h)
  have hbit : (adjustedSignificand w W f rm x).testBit f.sigWidth =
      decide (2 ^ f.sigWidth ≤ adjustedSignificand w W f rm x) := by
    rw [Nat.testBit_eq_decide_div_mod_eq, decide_eq_decide]
    have hdiv : adjustedSignificand w W f rm x / 2 ^ f.sigWidth < 2 :=
      Nat.div_lt_of_lt_mul (by rwa [← Nat.pow_succ])
    constructor
    · intro h
      by_contra hlt
      rw [Nat.div_eq_of_lt (not_le.mp hlt)] at h
      exact absurd h (by decide)
    · intro h
      have := Nat.div_pos h (Nat.two_pow_pos _)
      omega
  unfold roundToIeee Format.round
  simp only [hn, hi, hz, Bool.or_false, Bool.false_eq_true, if_false, maximumExponent_eq hf, hexp,
    hbit, ← hc, ← hsig, ← hin]
  have hslice : ∀ m, slice m (f.sigWidth - 1) 0 = m % 2 ^ f.sigWidth := by
    intro m
    rw [slice, Nat.pow_zero, Nat.div_one, show f.sigWidth - 1 + 1 - 0 = f.sigWidth by omega]
  by_cases hov : f.maxExp < if carry w W f rm x then f.binade v + 1 else f.binade v
  · rw [if_pos hov, if_pos hov]
    cases rm <;> cases x.sign <;> simp [Format.overflowsToInf, Format.infinity, Format.largest]
  · rw [if_neg hov, if_neg hov, Format.finite, hslice]
    by_cases hm : 2 ^ f.sigWidth ≤ adjustedSignificand w W f rm x
    · have hmod : adjustedSignificand w W f rm x % 2 ^ f.sigWidth =
          adjustedSignificand w W f rm x - 2 ^ f.sigWidth := by
        rw [Nat.mod_eq_sub_mod hm, Nat.mod_eq_of_lt]
        rw [Nat.pow_succ] at hadj
        omega
      have hunder : decide (0 < subnormalExponentDifference w f x) =
          (inexact w W f rm x && decide (v < 2 ^ f.minExp)) := by
        rw [hin, hdiff, Bool.eq_iff_iff, Bool.and_eq_true, decide_eq_true_eq, decide_eq_true_eq,
          decide_eq_true_eq, lt_two_pow_minExp hf hs hv]
        constructor
        · intro h
          refine ⟨inexact_of_subnormal hf hs hv (by omega) ?_, by omega⟩
          rw [hsig] at hm
          split_ifs at hm with hcarry
          · rw [hcarry] at hc
            rw [beq_iff_eq.mp hc.symm]
            exact hlt.le
          · exact hm
        · rintro ⟨-, h⟩
          omega
      rw [← hexp, hbits (not_lt.mp hov), ← hexp, decide_eq_true hm, Bool.not_true, if_neg (by simp),
        if_neg (by omega), hmod, hunder]
    · have hmod : adjustedSignificand w W f rm x % 2 ^ f.sigWidth =
          adjustedSignificand w W f rm x := Nat.mod_eq_of_lt (not_le.mp hm)
      have htiny : v < 2 ^ f.minExp := by
        rw [lt_two_pow_minExp hf hs hv]
        by_contra hge
        have hroundSig := le_roundSig rm hf hs hv (not_lt.mp hge)
        rw [hsig] at hm
        split_ifs at hm
        · exact hm le_rfl
        · exact hm hroundSig
      rw [decide_eq_false hm, Bool.not_false, if_pos rfl, if_pos (not_le.mp hm), hmod,
        decide_eq_true htiny, Bool.and_true]

open RoundToIeee in
/-- A larger exponent wraps around in the exponent difference, and the number is taken for
one far below the smallest. -/
theorem roundToIeee_of_wrap (hf : Fits w W f) (hhi : 2 * x.exponent < 2 ^ w)
    (hwrap : 2 ^ w < 2 * (x.exponent - f.minExp))
    (hs : x.significand < 2 ^ W) (hn : x.isNan = false) (hi : x.isInf = false)
    (hz : x.isZero = false) (dz nanp : Bool) (rm : RoundingMode) :
    f.exponent (roundToIeee w W f false dz nanp rm x).1 = 0 ∧
      (roundToIeee w W f false dz nanp rm x).2.overflow = false := by
  have hW := hf.sigWidth
  have hsw := f.two_le_sigWidth
  have hm := hf.minExp
  have hshift := hf.shift
  have hb := f.one_le_bias
  have hmax := f.maxExp_eq
  have hmin : f.minExp = 1 - f.bias := rfl
  have hdiff : subnormalExponentDifference w f x = f.minExp - x.exponent + 2 ^ w := by
    have hbmod : wrap w (f.minExp - x.exponent) = wrap w (f.minExp - x.exponent + 2 ^ w) := by
      rw [wrap, wrap, show (2 : ℤ) ^ w = (2 ^ w : ℕ) by push_cast; rfl, Int.add_bmod_right]
    rw [subnormalExponentDifference, minimumExponent_eq hf, hbmod]
    exact wrap_eq (by omega) (by omega)
  have hpos : 0 ≤ subnormalExponentDifference w f x := by omega
  have hbasis : exponentBasis w f x = f.minExp := by
    rw [exponentBasis, if_pos hpos, minimumExponent_eq hf]
  have hbits : bits w (subnormalShift w f x) = (f.minExp - x.exponent + 2 ^ w).toNat := by
    rw [subnormalShift, if_pos hpos, hdiff]
    exact bits_eq (by omega) (by omega)
  -- every bit of the significand is shifted into the sticky bit
  have hsub : subnormalSignificand w W f x = 1 := by
    have hN : 2 ^ W + x.significand < 2 ^ (W + 1) := by
      rw [Nat.pow_succ]
      omega
    have hk : 2 ^ (W + 1) ≤ 2 ^ ((f.minExp - x.exponent + 2 ^ w).toNat + 1) :=
      Nat.pow_le_pow_right two_pos (by omega)
    have hne : ¬2 ^ W + x.significand = 0 := by
      have := Nat.two_pow_pos W
      omega
    rw [subnormalSignificand, hbits, cat, Nat.one_mul,
      rightShift_eq (by omega) (sigWidth_lt hf) hN, jamShift, Nat.div_eq_of_lt (hN.trans_le hk),
      Nat.mod_eq_of_lt (hN.trans_le hk), if_neg hne]
  have hround : significandToRound w W f x = 1 := by
    rw [significandToRound_eq hf (by rw [hsub]; exact Nat.one_lt_two_pow (by omega)), hsub]
    have h1 : 1 < 2 ^ (W - f.sigWidth - 2 + 1) := Nat.one_lt_two_pow (by omega)
    rw [jamShift, Nat.div_eq_of_lt h1, Nat.mod_eq_of_lt h1]
    rfl
  have hrounded : significandRounded w W f rm x < 2 := by
    have hup := Bool.toNat_lt (roundup w W f rm x)
    rw [significandRounded, hround, slice]
    simpa using hup
  have h4 : 2 ^ 2 ≤ 2 ^ f.sigWidth := Nat.pow_le_pow_right two_pos hsw
  have hcarry : carry w W f rm x = false := by
    rw [carry]
    exact Nat.testBit_lt_two_pow (by rw [Nat.pow_succ]; omega)
  have hadj : adjustedSignificand w W f rm x < 2 := by
    rw [adjustedSignificand, hcarry, if_neg (by simp), slice, Nat.pow_zero, Nat.div_one]
    exact (Nat.mod_le _ _).trans_lt hrounded
  have hbit : (adjustedSignificand w W f rm x).testBit f.sigWidth = false :=
    Nat.testBit_lt_two_pow (by omega)
  have hexp : adjustedExponent w W f rm x = f.minExp := by
    rw [adjustedExponent, hcarry, if_neg (by simp), hbasis]
  have hle : ¬f.maxExp < f.minExp := by omega
  unfold roundToIeee
  simp only [hn, hi, hz, Bool.or_false, Bool.false_eq_true, if_false, maximumExponent_eq hf, hexp,
    hle, hbit, Bool.not_false, if_true]
  exact ⟨Format.exponent_pack (Nat.two_pow_pos _) ((slice_lt _ _ _).trans_le
    (Nat.pow_le_pow_right two_pos (by omega))), trivial⟩

/-- The numbers whose exponent difference wraps around all overflow. -/
theorem le_of_wrap (hf : Fits w W f) (hwrap : 2 ^ w < 2 * (x.exponent - f.minExp))
    (hmem : (2 : K) ^ x.exponent ≤ v) : 2 ^ (f.maxExp + 1) ≤ v := by
  have hb := f.one_le_bias
  have hmax := f.maxExp_eq
  have hmin : f.minExp = 1 - f.bias := rfl
  have hp := RoundToIeee.two_pow_le hf
  exact (zpow_le_zpow_right₀ one_le_two (by omega)).trans hmem

/-- For every exponent of the input, a finite number is encoded as it is prescribed for
every exact number that its significand stands for, exactly if the difference to the
smallest exponent of the format does not wrap around. -/
theorem roundToIeee_delivers_iff (hf : Fits w W f) (hlo : -2 ^ w ≤ 2 * x.exponent)
    (hhi : 2 * x.exponent < 2 ^ w) (hs : x.significand < 2 ^ W)
    (hv : Sticky (v / 2 ^ (x.exponent - W)) (2 ^ W + x.significand)) (hn : x.isNan = false)
    (hi : x.isInf = false) (hz : x.isZero = false) (dz nanp : Bool) (rm : RoundingMode) :
    f.Delivers rm x.sign v (roundToIeee w W f false dz nanp rm x).1 ↔
      2 * (x.exponent - f.minExp) ≤ 2 ^ w := by
  have hW := hf.sigWidth
  obtain ⟨hmem, -⟩ := Format.Sticky.mem_binade (by omega) hs hv
  constructor
  · intro hd
    by_contra hwrap
    have hexp := (roundToIeee_of_wrap hf hhi (not_le.mp hwrap) hs hn hi hz dz nanp rm).1
    exact hd.exponent_ne_zero f (le_of_wrap hf (not_le.mp hwrap) hmem) hexp
  · intro h
    rw [roundToIeee_number hf ⟨hlo, h⟩ hs hv hn hi hz dz nanp rm]
    exact f.round_delivers rm x.sign ((zpow_pos two_pos _).trans_le hmem)

/-- The flags are those that are prescribed exactly if the difference does not wrap around
and the number does not become normal by rounding to the precision of the format. -/
theorem roundToIeee_flagsExact_iff (hf : Fits w W f) (hlo : -2 ^ w ≤ 2 * x.exponent)
    (hhi : 2 * x.exponent < 2 ^ w) (hs : x.significand < 2 ^ W)
    (hv : Sticky (v / 2 ^ (x.exponent - W)) (2 ^ W + x.significand)) (hn : x.isNan = false)
    (hi : x.isInf = false) (hz : x.isZero = false) (dz nanp : Bool) (rm : RoundingMode) :
    f.FlagsExact rm x.sign v (roundToIeee w W f false dz nanp rm x) ↔
      2 * (x.exponent - f.minExp) ≤ 2 ^ w ∧ ¬f.BarelyTiny rm x.sign v := by
  have hW := hf.sigWidth
  obtain ⟨hmem, -⟩ := Format.Sticky.mem_binade (by omega) hs hv
  have hpos : 0 < v := (zpow_pos two_pos _).trans_le hmem
  by_cases h : 2 * (x.exponent - f.minExp) ≤ 2 ^ w
  · rw [roundToIeee_number hf ⟨hlo, h⟩ hs hv hn hi hz dz nanp rm, and_iff_right h]
    exact f.round_flagsExact_iff hpos
  · refine iff_of_false (fun hexact => ?_) fun hand => h hand.1
    -- the number overflows, but no overflow is signaled
    have hle := le_of_wrap hf (not_le.mp h) hmem
    have hlog : f.maxExp + 1 ≤ Int.log 2 v :=
      (Int.zpow_le_iff_le_log one_lt_two hpos).mp (by exact_mod_cast hle)
    have hround := (f.largest_lt_roundUnbounded_iff rm x.sign hpos).mpr
      ((zpow_le_zpow_right₀ one_le_two hlog).trans (f.le_roundUnbounded rm x.sign hpos))
    have hflag := hexact.overflow.mpr hround
    rw [(roundToIeee_of_wrap hf hhi (not_le.mp h) hs hn hi hz dz nanp rm).2] at hflag
    exact absurd hflag Bool.false_ne_true

end Correct

/-! ## The rounder of the FPU -/

/-- `IntermediateExpWidth` and `IntermediateSigWidth`. -/
def intermediateExpWidth : ℕ := double.expWidth + 2
def intermediateSigWidth : ℕ := double.sigWidth + 2

theorem two_pow_intermediateExpWidth : (2 : ℤ) ^ intermediateExpWidth = 8192 := rfl

theorem fits_intermediate (isDouble : Bool) :
    Fits intermediateExpWidth intermediateSigWidth (format isDouble) := by
  cases isDouble <;> exact ⟨by decide, by decide, by decide, by decide⟩

/-- `muntjac_fpu_round_to_ieee_multi`: a single is NaN-boxed. -/
def roundToIeeeMulti (inExpWidth inSigWidth : ℕ)
    (invalidOperation divideByZero useNanPayload isDouble : Bool) (rm : RoundingMode)
    (x : Unpacked) : ℕ × Flags :=
  if isDouble then
    roundToIeee inExpWidth inSigWidth double invalidOperation divideByZero useNanPayload rm x
  else
    let r := roundToIeee inExpWidth inSigWidth single invalidOperation divideByZero useNanPayload
      rm x
    (cat (2 ^ 32 - 1) 32 r.1, r.2)

/-! ## What the units hand to the rounder -/

section Means
variable {K : Type*} [Field K] [LinearOrder K] [IsStrictOrderedRing K] [FloorSemiring K]

/-- The outputs of a unit, with its two flags, stand for the outcome of its operation. -/
def Unpacked.Means (w W : ℕ) (f : Format) (invalidOperation divideByZero : Bool)
    (u : Unpacked) : Format.Outcome K → Prop
  | .nan invalid => invalidOperation = invalid ∧ (invalid || u.isNan) = true
  | .inf neg dz => invalidOperation = false ∧ u.isNan = false ∧ u.isInf = true ∧ u.sign = neg ∧
      divideByZero = dz
  | .zero neg => invalidOperation = false ∧ u.isNan = false ∧ u.isInf = false ∧
      u.isZero = true ∧ u.sign = neg
  | .number neg x => invalidOperation = false ∧ u.isNan = false ∧ u.isInf = false ∧
      u.isZero = false ∧ u.sign = neg ∧ u.significand < 2 ^ W ∧
      RoundToIeee.InRange w f u.exponent ∧
      Sticky (x / 2 ^ (u.exponent - W)) (2 ^ W + u.significand)

/-- A result in the register of its format: a single is NaN-boxed. -/
def boxed (isDouble : Bool) (r : ℕ × Flags) : ℕ × Flags :=
  (if isDouble then r.1 else cat (2 ^ 32 - 1) 32 r.1, r.2)

theorem roundToIeee_means {w W : ℕ} {f : Format} {inv dz : Bool} {u : Unpacked}
    {o : Format.Outcome K} (hf : Fits w W f) (h : u.Means w W f inv dz o) (rm : RoundingMode) :
    roundToIeee w W f inv dz false rm u = f.deliver rm o := by
  cases o with
  | nan invalid =>
      obtain ⟨rfl, h⟩ := h
      rw [roundToIeee, if_pos h]
      rfl
  | inf neg dz' =>
      obtain ⟨rfl, hn, hi, rfl, rfl⟩ := h
      simp only [roundToIeee, hn, hi, Bool.or_self, Bool.false_eq_true, if_false, if_true,
        Format.deliver, Format.infinity]
  | zero neg =>
      obtain ⟨rfl, hn, hi, hz, rfl⟩ := h
      simp only [roundToIeee, hn, hi, hz, Bool.or_self, Bool.false_eq_true, if_false, if_true,
        Format.deliver]
  | number neg x =>
      obtain ⟨rfl, hn, hi, hz, rfl, hs, he, hv⟩ := h
      exact roundToIeee_number hf he hs hv hn hi hz dz false rm

theorem roundToIeeeMulti_means {isDouble inv dz : Bool} {u : Unpacked} {o : Format.Outcome K}
    (h : u.Means intermediateExpWidth intermediateSigWidth (format isDouble) inv dz o)
    (rm : RoundingMode) :
    roundToIeeeMulti intermediateExpWidth intermediateSigWidth inv dz false isDouble rm u =
      boxed isDouble ((format isDouble).deliver rm o) := by
  rw [← roundToIeee_means (fits_intermediate isDouble) h]
  cases isDouble <;> rfl

end Means

section Final
variable {K : Type*} [Field K] [LinearOrder K] [IsStrictOrderedRing K] [FloorSemiring K]

/-- The rounding stage of the FPU delivers, in both formats and in every direction, the
encoding prescribed for every exact number that the significand stands for, for all the
exponents that `MinimumExponent - exponent_i` does not wrap for, and for no other. -/
theorem final_rounding (isDouble : Bool) (rm : RoundingMode) (x : Unpacked) (v : K)
    (hlo : -4096 ≤ x.exponent) (hhi : x.exponent < 4096) (hs : x.significand < 2 ^ 54)
    (hv : Sticky (v / 2 ^ (x.exponent - 54)) (2 ^ 54 + x.significand)) (hn : x.isNan = false)
    (hi : x.isInf = false) (hz : x.isZero = false) :
    (format isDouble).Delivers rm x.sign v
        (roundToIeee intermediateExpWidth intermediateSigWidth (format isDouble) false false false
          rm x).1 ↔
      x.exponent ≤ 4096 + (format isDouble).minExp := by
  have hw := two_pow_intermediateExpWidth
  rw [roundToIeee_delivers_iff (fits_intermediate isDouble) (by omega) (by omega)
    hs hv hn hi hz, hw]
  omega

/-- Halfway between one and the next double, rounded to even. -/
theorem final_rounding_tie :
    double.Delivers .tiesToEven false (1 + 1 / 2 ^ 53 : ℚ) 0x3ff0000000000000 := by
  have hv : Sticky ((1 + 1 / 2 ^ 53 : ℚ) / 2 ^ ((0 : ℤ) - 54)) (2 ^ 54 + 2) := by
    have h : (1 + 1 / 2 ^ 53 : ℚ) / 2 ^ ((0 : ℤ) - 54) = ((2 ^ 54 + 2 : ℕ) : ℚ) := by norm_num
    rw [h]
    exact Sticky.self _
  have h := (final_rounding true .tiesToEven ⟨false, 0, 2, false, false, false⟩ _ (by decide)
    (by decide) (by decide) hv rfl rfl rfl).mpr (by decide)
  have hr : (roundToIeee intermediateExpWidth intermediateSigWidth (format true) false false false
      .tiesToEven ⟨false, 0, 2, false, false, false⟩).1 = 0x3ff0000000000000 := by decide
  rwa [hr] at h

/-- The positive number with the largest exponent of the input is encoded as zero. -/
theorem not_delivers_of_largest_exponent :
    Sticky ((2 : ℚ) ^ (4095 : ℤ) / 2 ^ ((4095 : ℤ) - 54)) (2 ^ 54 + 0) ∧
      (roundToIeee intermediateExpWidth intermediateSigWidth double false false false .tiesToEven
        ⟨false, 4095, 0, false, false, false⟩).1 = 0 ∧
      ¬double.Delivers .tiesToEven false ((2 : ℚ) ^ (4095 : ℤ)) 0 := by
  refine ⟨?_, by decide, fun h => ?_⟩
  · rw [← zpow_sub₀ two_ne_zero, show (4095 : ℤ) - (4095 - 54) = (54 : ℕ) by norm_num, zpow_natCast]
    exact_mod_cast Sticky.self (K := ℚ) (2 ^ 54)
  · exact h.exponent_ne_zero double (zpow_le_zpow_right₀ one_le_two (by decide)) rfl

/-- The flags of the rounding stage are those that RISC-V prescribes, for all the exponents
that `MinimumExponent - exponent_i` does not wrap for and all numbers but those that become
normal by rounding to the precision of the format.  The branch of the normal results takes
these for tiny. -/
theorem rounding_flags (isDouble dz nanp : Bool) (rm : RoundingMode) (x : Unpacked) (v : K)
    (hlo : -4096 ≤ x.exponent) (hhi : x.exponent < 4096) (hs : x.significand < 2 ^ 54)
    (hv : Sticky (v / 2 ^ (x.exponent - 54)) (2 ^ 54 + x.significand)) (hn : x.isNan = false)
    (hi : x.isInf = false) (hz : x.isZero = false) :
    (format isDouble).FlagsExact rm x.sign v
        (roundToIeee intermediateExpWidth intermediateSigWidth (format isDouble) false dz nanp
          rm x) ↔
      x.exponent ≤ 4096 + (format isDouble).minExp ∧ ¬(format isDouble).BarelyTiny rm x.sign v := by
  have hw := two_pow_intermediateExpWidth
  rw [roundToIeee_flagsExact_iff (fits_intermediate isDouble) (by omega) (by omega) hs hv hn hi hz,
    hw]
  refine and_congr_left fun _ => ?_
  omega

/-- Halfway between one and the next double, which is inexact only. -/
theorem rounding_flags_tie :
    double.FlagsExact .tiesToEven false (1 + 1 / 2 ^ 53 : ℚ)
      (0x3ff0000000000000, { inexact := true }) := by
  have hv : Sticky ((1 + 1 / 2 ^ 53 : ℚ) / 2 ^ ((0 : ℤ) - 54)) (2 ^ 54 + 2) := by
    have h : (1 + 1 / 2 ^ 53 : ℚ) / 2 ^ ((0 : ℤ) - 54) = ((2 ^ 54 + 2 : ℕ) : ℚ) := by norm_num
    rw [h]
    exact Sticky.self _
  have hnormal : ¬double.BarelyTiny .tiesToEven false (1 + 1 / 2 ^ 53 : ℚ) := by
    have hmono : (2 : ℚ) ^ double.minExp ≤ 2 ^ (0 : ℤ) :=
      zpow_le_zpow_right₀ one_le_two (by decide)
    rw [zpow_zero] at hmono
    intro h
    have := h.1
    linarith
  have h := (rounding_flags true false false .tiesToEven ⟨false, 0, 2, false, false, false⟩ _
    (by decide) (by decide) (by decide) hv rfl rfl rfl).mpr ⟨by decide, hnormal⟩
  have hr : roundToIeee intermediateExpWidth intermediateSigWidth (format true) false false false
      .tiesToEven ⟨false, 0, 2, false, false, false⟩ =
        (0x3ff0000000000000, { inexact := true }) := by decide
  rwa [hr] at h

/-- A number next below the smallest normal double is rounded to it, in the precision of the
format as well, and underflow is signaled. -/
theorem not_flagsExact_below_normal :
    roundToIeee intermediateExpWidth intermediateSigWidth double false false false .tiesToEven
        ⟨false, -1023, 2 ^ 54 - 1, false, false, false⟩ =
      (0x0010000000000000, { underflow := true, inexact := true }) ∧
    ¬double.FlagsExact .tiesToEven false ((2 ^ 55 - 1 : ℕ) * 2 ^ (-1077 : ℤ) : ℚ)
      (0x0010000000000000, { underflow := true, inexact := true }) := by
  have hr : roundToIeee intermediateExpWidth intermediateSigWidth double false false false
      .tiesToEven ⟨false, -1023, 2 ^ 54 - 1, false, false, false⟩ =
        (0x0010000000000000, { underflow := true, inexact := true }) := by decide
  refine ⟨hr, fun h => ?_⟩
  have hu : (0 : ℚ) < 2 ^ (-1077 : ℤ) := zpow_pos two_pos _
  have hv : Sticky ((2 ^ 55 - 1 : ℕ) * 2 ^ (-1077 : ℤ) / 2 ^ ((-1023 : ℤ) - 54) : ℚ)
      (2 ^ 54 + (2 ^ 54 - 1)) := by
    rw [show (-1023 : ℤ) - 54 = -1077 by norm_num, mul_div_cancel_right₀ _ hu.ne']
    exact Sticky.self _
  have hmin : (2 : ℚ) ^ double.minExp = 2 ^ 55 * 2 ^ (-1077 : ℤ) := by
    rw [show double.minExp = 55 + -1077 by decide, zpow_add₀ two_ne_zero]
    rfl
  have hhalf : (2 : ℚ) ^ (double.minExp - double.sigWidth - 2) = 2 * 2 ^ (-1077 : ℤ) := by
    rw [show double.minExp - double.sigWidth - 2 = 1 + -1077 by decide, zpow_add₀ two_ne_zero]
    rfl
  have htiny : double.BarelyTiny .tiesToEven false ((2 ^ 55 - 1 : ℕ) * 2 ^ (-1077 : ℤ) : ℚ) := by
    constructor
    · rw [hmin]
      exact mul_lt_mul_of_pos_right (by norm_num) hu
    · change (2 : ℚ) ^ double.minExp ≤ _ + 2 ^ (double.minExp - double.sigWidth - 2)
      rw [hmin, hhalf, ← add_mul]
      exact mul_le_mul_of_nonneg_right (by norm_num) hu.le
  have hiff := roundToIeee_flagsExact_iff (x := ⟨false, -1023, 2 ^ 54 - 1, false, false, false⟩)
    (fits_intermediate true) (by decide) (by decide) (by decide) hv rfl rfl rfl false false
    .tiesToEven
  exact (hiff.mp (hr ▸ h)).2 htiny

end Final

end Muntjac.Fpu

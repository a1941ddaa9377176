import Muntjac.Fpu.Unpacked
import Mathlib.Data.Rat.Floor

/-!
# Input normalization

`muntjac_fpu_normalize_from_ieee`: an operand in an interchange format becomes a number
with a leading one, also if it is subnormal.  The register that holds a single has to be
NaN-boxed; otherwise its operand is the canonical NaN.

## Main results

* `denotes_decode` — an operand denotes the datum of its register.
-/

namespace Muntjac.Fpu

open Sync Ieee

/-- The outputs of `muntjac_fpu_normalize_from_ieee`. -/
structure Normalized extends Unpacked where
  isNormal : Bool
  isSubnormal : Bool
  deriving DecidableEq, Repr

def normalizeFromIeee (f : Format) (outExpWidth outSigWidth ieee : ℕ) : Normalized :=
  let isExponentZero := f.exponent ieee == 0
  let isExponentMax := f.exponent ieee == 2 ^ f.expWidth - 1
  let isSignificandZero := f.significand ieee == 0
  let subnormalExponentOffset := normalizeShift f.sigWidth (f.significand ieee)
  let subnormalSignificand := normalizeData f.sigWidth (f.significand ieee)
  let widenedExponent := wrap (f.expWidth + 1) (f.exponent ieee - (2 ^ (f.expWidth - 1) - 1))
  let normalizedExponent := wrap (f.expWidth + 1)
    (widenedExponent - if isExponentZero then subnormalExponentOffset else 0)
  { sign := f.sign ieee
    exponent := wrap outExpWidth normalizedExponent
    significand :=
      cat (if isExponentZero then subnormalSignificand * 2 % 2 ^ f.sigWidth else f.significand ieee)
        (outSigWidth - f.sigWidth) 0
    isNormal := !isExponentZero && !isExponentMax
    isZero := isExponentZero && isSignificandZero
    isSubnormal := isExponentZero && !isSignificandZero
    isInf := isExponentMax && isSignificandZero
    isNan := isExponentMax && !isSignificandZero }

/-- `muntjac_fpu_normalize_from_ieee_multi`. -/
def normalizeFromIeeeMulti (outExpWidth outSigWidth : ℕ) (isDouble : Bool) (ieee : ℕ) :
    Normalized :=
  if isDouble then normalizeFromIeee double outExpWidth outSigWidth ieee
  else if ieee / 2 ^ 32 == 2 ^ 32 - 1 then
    normalizeFromIeee single outExpWidth outSigWidth (ieee % 2 ^ 32)
  else
    { sign := false
      exponent := 0
      significand := 2 ^ (outSigWidth - 1)
      isNormal := false
      isZero := false
      isSubnormal := false
      isInf := false
      isNan := true }

/-! ## What an operand denotes -/

namespace Unpacked

/-- The magnitude that the exponent and the significand of `w` bits stand for. -/
def mag (w : ℕ) (u : Unpacked) : ℚ := (2 ^ w + u.significand) * 2 ^ (u.exponent - w)

/-- A significand with its leading bit inverted is that of a signaling NaN. -/
def isSignaling (w : ℕ) (u : Unpacked) : Bool := u.isNan && !u.significand.testBit (w - 1)

/-- The unpacked number stands for the datum. -/
def Denotes (w : ℕ) (u : Unpacked) : Format.Datum → Prop
  | .nan signaling => u.isNan = true ∧ u.isInf = false ∧ u.isZero = false ∧
      u.isSignaling w = signaling
  | .inf neg => u.isNan = false ∧ u.isInf = true ∧ u.isZero = false ∧ u.sign = neg
  | .finite neg m => u.isNan = false ∧ u.isInf = false ∧ (u.isZero = true ↔ m = 0) ∧
      u.sign = neg ∧ (m ≠ 0 → u.mag w = m)

section Mag
variable {w : ℕ} {u v : Unpacked}

theorem two_pow_le_mag (u : Unpacked) (w : ℕ) : (2 : ℚ) ^ u.exponent ≤ u.mag w := by
  have h : (2 : ℚ) ^ u.exponent = 2 ^ w * 2 ^ (u.exponent - w) := by
    rw [← zpow_natCast, ← zpow_add₀ two_ne_zero]
    congr 1
    ring
  rw [h, mag]
  exact mul_le_mul_of_nonneg_right (by simp) (zpow_pos two_pos _).le

theorem mag_lt (hu : u.significand < 2 ^ w) : u.mag w < 2 ^ (u.exponent + 1) := by
  have h : (2 : ℚ) ^ (u.exponent + 1) = 2 ^ (w + 1) * 2 ^ (u.exponent - w) := by
    rw [← zpow_natCast, ← zpow_add₀ two_ne_zero]
    congr 1
    push_cast
    ring
  have hcast : (u.significand : ℚ) < 2 ^ w := by exact_mod_cast hu
  rw [h, mag, pow_succ]
  exact mul_lt_mul_of_pos_right (by linarith) (zpow_pos two_pos _)

theorem mag_pos (u : Unpacked) (w : ℕ) : 0 < u.mag w :=
  (zpow_pos two_pos _).trans_le (u.two_pow_le_mag w)

theorem log_mag (hu : u.significand < 2 ^ w) : Int.log 2 (u.mag w) = u.exponent :=
  Format.log_eq (u.two_pow_le_mag w) (mag_lt hu)

theorem mag_lt_mag_iff (hu : u.significand < 2 ^ w) (hv : v.significand < 2 ^ w) :
    u.mag w < v.mag w ↔
      u.exponent < v.exponent ∨ u.exponent = v.exponent ∧ u.significand < v.significand := by
  have key : ∀ x y : Unpacked, x.significand < 2 ^ w → x.exponent < y.exponent →
      x.mag w < y.mag w := fun x y hx h =>
    (mag_lt hx).trans_le ((zpow_le_zpow_right₀ one_le_two (by omega)).trans (y.two_pow_le_mag w))
  rcases lt_trichotomy u.exponent v.exponent with h | h | h
  · simp [h, key u v hu h]
  · rw [mag, mag, h, mul_lt_mul_iff_left₀ (zpow_pos two_pos _), add_lt_add_iff_left, Nat.cast_lt]
    simp
  · have hlt := key v u hv h
    simp [h.not_gt, h.ne', hlt.not_gt]

end Mag

end Unpacked

/-- What the units rely on in the numbers that they get from registers of the format `f`:
the ranges, the low zeros of the significand, and the fields of a zero. -/
structure Operand (f : Format) (w : ℕ) (u : Unpacked) : Prop where
  significand_lt : u.significand < 2 ^ w
  dvd : 2 ^ (w - f.sigWidth) ∣ u.significand
  lo : f.minExp - f.sigWidth ≤ u.exponent
  hi : u.exponent ≤ f.maxExp + 1
  zero : u.isZero = true → u.exponent = -f.bias ∧ u.significand = 0

/-- The widths that the normalizer is made for. -/
structure Widens (f : Format) (outExpWidth outSigWidth : ℕ) : Prop where
  exp : f.expWidth + 1 ≤ outExpWidth
  sig : f.sigWidth ≤ outSigWidth
  bias : (f.sigWidth : ℤ) ≤ f.bias

section Normalize
variable {f : Format} {oe os b : ℕ}

theorem exponent_lt (f : Format) (b : ℕ) : f.exponent b < 2 ^ f.expWidth :=
  Nat.mod_lt _ (Nat.two_pow_pos _)

theorem significand_lt (f : Format) (b : ℕ) : f.significand b < 2 ^ f.sigWidth :=
  Nat.mod_lt _ (Nat.two_pow_pos _)

theorem normalizeShift_lt (f : Format) (b : ℕ) :
    normalizeShift f.sigWidth (f.significand b) < f.sigWidth := by
  have hsw := f.two_le_sigWidth
  by_cases h0 : f.significand b = 0
  · rw [h0, normalizeShift_zero]
    omega
  · rw [normalizeShift_eq (significand_lt f b) h0]
    omega

/-- The exponent of an operand; that of a subnormal number counts its leading zeros. -/
theorem exponent_normalizeFromIeee (h : Widens f oe os) (b : ℕ) :
    (normalizeFromIeee f oe os b).exponent = f.exponent b - f.bias -
      if f.exponent b = 0 then normalizeShift f.sigWidth (f.significand b) else 0 := by
  have hb := f.one_le_bias
  have hpow := f.two_pow_expWidth
  have hlt : (f.exponent b : ℤ) < 2 ^ f.expWidth := by exact_mod_cast exponent_lt f b
  have hk := normalizeShift_lt f b
  have hbias := h.bias
  have h2 : (2 : ℤ) ^ (f.expWidth + 1) = 4 * f.bias + 4 := by rw [pow_succ, hpow]; ring
  have hoe : (2 : ℤ) ^ (f.expWidth + 1) ≤ 2 ^ oe := pow_le_pow_right₀ (by norm_num) h.exp
  have hwide : wrap (f.expWidth + 1) (f.exponent b - f.bias) = f.exponent b - f.bias :=
    wrap_eq (by omega) (by omega)
  have hdef : (2 : ℤ) ^ (f.expWidth - 1) - 1 = f.bias := rfl
  simp only [normalizeFromIeee, beq_iff_eq, hdef, hwide]
  split_ifs with h0
  · rw [wrap_eq (w := f.expWidth + 1) (by omega) (by omega), wrap_eq (by omega) (by omega)]
  · simp only [Nat.cast_zero, sub_zero]
    rw [hwide, wrap_eq (by omega) (by omega)]

/-- The significand of a normalized subnormal number, with its leading one. -/
theorem normalizeData_mul_two (hs : f.significand b ≠ 0) :
    2 ^ f.sigWidth + normalizeData f.sigWidth (f.significand b) * 2 % 2 ^ f.sigWidth =
      f.significand b * 2 ^ (normalizeShift f.sigWidth (f.significand b) + 1) := by
  have hlt := significand_lt f b
  have hlog : Nat.log2 (f.significand b) < f.sigWidth := (Nat.log2_lt hs).mpr hlt
  have hlo := Nat.log2_self_le hs
  have hhi := @Nat.lt_log2_self (f.significand b)
  have hk := normalizeShift_eq hlt hs
  set k := normalizeShift f.sigWidth (f.significand b) with hkdef
  set l := Nat.log2 (f.significand b)
  have h1 : 2 ^ l * 2 ^ k = 2 ^ (f.sigWidth - 1) := by
    rw [← Nat.pow_add]
    congr 1
    omega
  have h2 : 2 ^ (l + 1) * 2 ^ k = 2 ^ f.sigWidth := by
    rw [← Nat.pow_add]
    congr 1
    omega
  have hsw : 2 ^ f.sigWidth = 2 * 2 ^ (f.sigWidth - 1) := by
    rw [← Nat.pow_succ', Nat.succ_eq_add_one]
    congr 1
    omega
  have hle : 2 ^ (f.sigWidth - 1) ≤ f.significand b * 2 ^ k :=
    h1 ▸ Nat.mul_le_mul_right _ hlo
  have hlt' : f.significand b * 2 ^ k < 2 ^ f.sigWidth :=
    h2 ▸ Nat.mul_lt_mul_of_pos_right hhi (Nat.two_pow_pos k)
  rw [normalizeData, ← hkdef, Nat.mod_eq_of_lt hlt', Nat.pow_succ, ← Nat.mul_assoc,
    Nat.mod_eq_sub_mod (by omega), Nat.mod_eq_of_lt (by omega)]
  omega

theorem operand_normalizeFromIeee (h : Widens f oe os) (b : ℕ) :
    Operand f os (normalizeFromIeee f oe os b).toUnpacked := by
  have hb := f.one_le_bias
  have hpow := f.two_pow_expWidth
  have hlt : (f.exponent b : ℤ) < 2 ^ f.expWidth := by exact_mod_cast exponent_lt f b
  have hk := normalizeShift_lt f b
  have hmin : f.minExp = 1 - f.bias := rfl
  have hmax := f.maxExp_eq
  have hexp := exponent_normalizeFromIeee h b
  have hsig : (normalizeFromIeee f oe os b).significand =
      (if f.exponent b = 0 then
        normalizeData f.sigWidth (f.significand b) * 2 % 2 ^ f.sigWidth else f.significand b) *
        2 ^ (os - f.sigWidth) := by
    simp only [normalizeFromIeee, cat, beq_iff_eq, Nat.add_zero]
  refine ⟨?_, ?_, ?_, ?_, fun hz => ?_⟩
  · rw [hsig, show os = f.sigWidth + (os - f.sigWidth) by have := h.sig; omega, Nat.pow_add,
      Nat.add_sub_cancel_left]
    refine Nat.mul_lt_mul_of_pos_right ?_ (Nat.two_pow_pos _)
    split_ifs
    · exact Nat.mod_lt _ (Nat.two_pow_pos _)
    · exact significand_lt f b
  · exact hsig ▸ Dvd.intro_left _ rfl
  · rw [hexp]
    split_ifs <;> omega
  · rw [hexp]
    split_ifs <;> omega
  · have hz' : f.exponent b = 0 ∧ f.significand b = 0 := by
      simpa [normalizeFromIeee] using hz
    rw [hexp, hsig, if_pos hz'.1, if_pos hz'.1, hz'.1, hz'.2, normalizeShift_zero]
    refine ⟨by simp, ?_⟩
    simp [normalizeData]

theorem mag_normalizeFromIeee (h : Widens f oe os)
    (hne : f.exponent b ≠ 0 ∨ f.significand b ≠ 0) :
    (normalizeFromIeee f oe os b).toUnpacked.mag os = f.magnitude b := by
  have hexp := exponent_normalizeFromIeee h b
  have hos : (2 : ℚ) ^ os = 2 ^ f.sigWidth * 2 ^ (os - f.sigWidth) := by
    rw [← pow_add, Nat.add_sub_cancel' h.sig]
  have hcancel : ∀ e : ℤ, (2 : ℚ) ^ (os - f.sigWidth) * 2 ^ (e - os) = 2 ^ (e - f.sigWidth) := by
    intro e
    rw [← zpow_natCast, ← zpow_add₀ two_ne_zero, Nat.cast_sub h.sig]
    congr 1
    ring
  rw [Unpacked.mag, hexp, Format.magnitude]
  simp only [normalizeFromIeee, cat, beq_iff_eq, Nat.add_zero]
  split_ifs with h0
  · have hs : f.significand b ≠ 0 := hne.resolve_left (not_not.mpr h0)
    have hdata : (2 : ℚ) ^ f.sigWidth +
        (normalizeData f.sigWidth (f.significand b) * 2 % 2 ^ f.sigWidth : ℕ) =
        f.significand b * 2 ^ (normalizeShift f.sigWidth (f.significand b) + 1) := by
      exact_mod_cast congrArg (Nat.cast (R := ℚ)) (normalizeData_mul_two hs)
    rw [Nat.cast_mul, Nat.cast_pow, Nat.cast_ofNat, hos, ← add_mul, hdata, mul_assoc, hcancel,
      mul_assoc, ← zpow_natCast, ← zpow_add₀ two_ne_zero, h0, Format.minExp]
    congr 2
    push_cast
    ring
  · rw [Nat.cast_mul, Nat.cast_pow, Nat.cast_ofNat, hos, ← add_mul, mul_assoc, hcancel]
    congr 2
    simp

theorem denotes_normalizeFromIeee (h : Widens f oe os) (b : ℕ) :
    (normalizeFromIeee f oe os b).toUnpacked.Denotes os (f.decode b) := by
  have hmax : 2 ^ 2 ≤ 2 ^ f.expWidth := Nat.pow_le_pow_right two_pos f.two_le_expWidth
  have hsw := f.two_le_sigWidth
  have hos := h.sig
  rw [Format.decode]
  by_cases hm : f.exponent b = 2 ^ f.expWidth - 1
  · have h0 : f.exponent b ≠ 0 := by omega
    rw [if_pos hm]
    by_cases hs : f.significand b = 0
    · rw [if_pos hs]
      simp [Unpacked.Denotes, normalizeFromIeee, h0, ← hm, hs]
    · have hbit : (f.significand b * 2 ^ (os - f.sigWidth)).testBit (os - 1) =
          b.testBit (f.sigWidth - 1) := by
        rw [Nat.testBit_mul_two_pow, Format.significand, Nat.testBit_mod_two_pow,
          show os - 1 - (os - f.sigWidth) = f.sigWidth - 1 by omega]
        have hle : os - f.sigWidth ≤ os - 1 := by omega
        have hlt : f.sigWidth - 1 < f.sigWidth := by omega
        simp [hle, hlt]
      rw [if_neg hs]
      simp [Unpacked.Denotes, Unpacked.isSignaling, normalizeFromIeee, h0, ← hm, hs, cat, hbit]
  · rw [if_neg hm]
    refine ⟨?_, ?_, ?_, rfl, fun hne => ?_⟩
    · simp [normalizeFromIeee, hm]
    · simp [normalizeFromIeee, hm]
    · rw [f.magnitude_eq_zero]
      simp [normalizeFromIeee]
    · rw [ne_eq, f.magnitude_eq_zero, not_and_or] at hne
      exact mag_normalizeFromIeee h hne

end Normalize

/-- The datum that a floating point register holds. -/
def registerDatum (isDouble : Bool) (b : ℕ) : Format.Datum :=
  if isDouble then double.decode b
  else if b / 2 ^ 32 = 2 ^ 32 - 1 then single.decode (b % 2 ^ 32) else .nan false

theorem decode_lt {f : Format} {b : ℕ} {s : Bool} {m : ℚ} (h : f.decode b = .finite s m) :
    m < 2 ^ (f.maxExp + 1) := by
  rw [Format.decode] at h
  split_ifs at h with he
  cases h
  exact f.magnitude_lt he

/-- `DecodedExpWidth` and `DecodedSigWidth`. -/
def decodedExpWidth : ℕ := double.expWidth + 1
def decodedSigWidth : ℕ := double.sigWidth

/-- An operand in the registers of the FPU. -/
def decode (isDouble : Bool) (ieee : ℕ) : Normalized :=
  normalizeFromIeeeMulti decodedExpWidth decodedSigWidth isDouble ieee

theorem widens_decoded (isDouble : Bool) :
    Widens (format isDouble) decodedExpWidth decodedSigWidth := by
  cases isDouble <;> exact ⟨by decide, by decide, by decide⟩

theorem decode_of_boxed {b : ℕ} (hb : b / 2 ^ 32 = 2 ^ 32 - 1) :
    decode false b = normalizeFromIeee single decodedExpWidth decodedSigWidth (b % 2 ^ 32) := by
  rw [decode, normalizeFromIeeeMulti, if_neg (by simp), if_pos (beq_iff_eq.mpr hb)]

theorem decode_of_not_boxed {b : ℕ} (hb : ¬b / 2 ^ 32 = 2 ^ 32 - 1) :
    decode false b = ⟨⟨false, 0, 2 ^ (decodedSigWidth - 1), false, false, true⟩, false, false⟩ := by
  rw [decode, normalizeFromIeeeMulti, if_neg (by simp), if_neg (by rwa [beq_iff_eq])]

theorem denotes_decode (isDouble : Bool) (b : ℕ) :
    (decode isDouble b).toUnpacked.Denotes decodedSigWidth (registerDatum isDouble b) := by
  cases isDouble with
  | true => exact denotes_normalizeFromIeee (widens_decoded true) b
  | false =>
      by_cases hb : b / 2 ^ 32 = 2 ^ 32 - 1
      · rw [decode_of_boxed hb, registerDatum, if_neg (by simp), if_pos hb]
        exact denotes_normalizeFromIeee (widens_decoded false) _
      · rw [decode_of_not_boxed hb, registerDatum, if_neg (by simp), if_neg hb]
        exact ⟨rfl, rfl, rfl, by decide⟩

theorem registerDatum_lt {isDouble : Bool} {b : ℕ} {s : Bool} {m : ℚ}
    (h : registerDatum isDouble b = .finite s m) : m < 2 ^ ((format isDouble).maxExp + 1) := by
  rw [registerDatum] at h
  split_ifs at h with hd hb
  · rw [hd]
    exact decode_lt h
  · rw [Bool.eq_false_iff.mpr hd]
    exact decode_lt h

theorem operand_decode (isDouble : Bool) (b : ℕ) :
    Operand (format isDouble) decodedSigWidth (decode isDouble b).toUnpacked := by
  cases isDouble with
  | true => exact operand_normalizeFromIeee (widens_decoded true) b
  | false =>
      by_cases hb : b / 2 ^ 32 = 2 ^ 32 - 1
      · rw [decode_of_boxed hb]
        exact operand_normalizeFromIeee (widens_decoded false) _
      · rw [decode_of_not_boxed hb]
        exact ⟨by decide, by decide, by decide, by decide, by simp⟩

end Muntjac.Fpu

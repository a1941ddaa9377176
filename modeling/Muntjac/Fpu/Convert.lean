import Muntjac.Fpu.Repack
import Muntjac.Ieee.Integer

/-!
# Conversions from and to integers

An integer becomes a normalized magnitude with a sticky bit.  A number is shifted to the
integers, rounded, and compared with the ends of the range of 64 bits; the range of 32 bits
is looked at in the integer of 64 bits.

## Main results

* `int_to_float` — integers are rounded once.
* `float_to_int` — numbers are rounded, and saturated after that.
-/

namespace Muntjac.Fpu

open Sync Ieee

def fpParamWu : ℕ := 1

/-- The integer in a register, or in its lower half. -/
def registerInt (signed dword : Bool) (x : ℕ) : ℤ :=
  if signed then (BitVec.ofNat (if dword then 64 else 32) x).toInt
  else (BitVec.ofNat (if dword then 64 else 32) x).toNat

namespace FpuReq
variable (i : FpuReq)

/-- The integer side of a conversion is signed, and it has 64 bits. -/
def intSigned : Bool := i.op.param == fpParamW || i.op.param == fpParamL
def intDword : Bool := i.op.param == fpParamL || i.op.param == fpParamLu

end FpuReq

/-! ## From integers -/

section FromInt
variable {signed dword : Bool} {x : ℕ}

/-- The sign and the magnitude of an integer in a register. -/
theorem sign_abs (signed : Bool) (hx : x < 2 ^ 64) :
    (signed && x.testBit 63) = decide (registerInt signed true x < 0) ∧
      (if (signed && x.testBit 63) = true then bits 64 (-x) else x) =
        (registerInt signed true x).natAbs := by
  have hnat : (BitVec.ofNat 64 x).toNat = x := by
    rw [BitVec.toNat_ofNat, Nat.mod_eq_of_lt hx]
  cases signed with
  | false =>
      rw [registerInt, if_neg Bool.false_ne_true, if_pos rfl, hnat]
      simp
  | true =>
      have hbit : x.testBit 63 = decide (2 ^ 63 ≤ x) := by
        rw [Nat.testBit_eq_decide_div_mod_eq, decide_eq_decide]
        omega
      rw [registerInt, if_pos rfl, if_pos rfl, BitVec.toInt_eq_toNat_cond, hnat, Bool.true_and,
        hbit]
      by_cases h : 2 ^ 63 ≤ x
      · rw [decide_eq_true h, if_pos rfl, if_neg (by omega), bits]
        refine ⟨(decide_eq_true (by omega)).symm, ?_⟩
        omega
      · rw [decide_eq_false h, if_neg Bool.false_ne_true, if_pos (by omega)]
        exact ⟨(decide_eq_false (by omega)).symm, rfl⟩

/-- The magnitude in the registers of the rounder, with its sticky bit. -/
theorem sticky_normalize {a : ℕ} (ha : a < 2 ^ 64) (h0 : a ≠ 0) :
    2 ^ 54 + cat (slice (normalizeData 64 a) 62 10) 1
        (slice (normalizeData 64 a) 9 0 != 0).toNat =
      jamShift (a * 2 ^ normalizeShift 64 a) 9 := by
  obtain ⟨heq, hlo, hhi⟩ := normalizeData_eq ha h0
  rw [heq]
  set N := a * 2 ^ normalizeShift 64 a
  have hslice : slice N 9 0 = N % 2 ^ 10 := by rw [slice, Nat.pow_zero, Nat.div_one]
  have hhigh : slice N 62 10 = N / 2 ^ 10 % 2 ^ 53 := rfl
  rw [hslice, hhigh, cat, jamShift]
  by_cases h : N % 2 ^ 10 = 0
  · rw [if_pos h, h, bne_self_eq_false, Bool.toNat_false]
    omega
  · rw [if_neg h, bne_iff_ne.mpr h, Bool.toNat_true]
    omega

/-- A normalized integer stands for the integer. -/
theorem normalizeFromInt_means (signed : Bool) (hx : x < 2 ^ 64) (isDouble : Bool) :
    (normalizeFromInt 64 intermediateExpWidth intermediateSigWidth signed x).Means
      intermediateExpWidth intermediateSigWidth (format isDouble) false false
      (Format.Outcome.ofInt (registerInt signed true x)) := by
  obtain ⟨hsign, habs⟩ := sign_abs signed hx
  set z := registerInt signed true x with hz
  set u := normalizeFromInt 64 intermediateExpWidth intermediateSigWidth signed x with hu
  have hus : u.sign = decide (z < 0) := hsign
  have huz : u.isZero = (z.natAbs == 0) := by
    rw [← habs]
    rfl
  rw [Format.Outcome.ofInt]
  by_cases h0 : z = 0
  · rw [if_pos h0]
    refine ⟨rfl, rfl, rfl, ?_, ?_⟩
    · rw [huz, h0]
      rfl
    · rw [hus, h0]
      rfl
  · rw [if_neg h0]
    have hne : z.natAbs ≠ 0 := Int.natAbs_ne_zero.mpr h0
    have hlt : z.natAbs < 2 ^ 64 := by
      rw [← habs, bits]
      split_ifs
      · omega
      · exact hx
    have hlog : Nat.log2 z.natAbs < 64 := (Nat.log2_lt hne).mpr hlt
    have hshift := normalizeShift_eq hlt hne
    have hexp : u.exponent = 63 - normalizeShift 64 z.natAbs := by
      have hw : wrap intermediateExpWidth (63 - normalizeShift 64 z.natAbs) =
          63 - normalizeShift 64 z.natAbs := by
        refine wrap_eq ?_ ?_ <;> rw [two_pow_intermediateExpWidth] <;> omega
      rw [← hw, ← habs]
      rfl
    have hsig : 2 ^ intermediateSigWidth + u.significand =
        jamShift (z.natAbs * 2 ^ normalizeShift 64 z.natAbs) 9 := by
      rw [← sticky_normalize hlt hne, ← habs]
      rfl
    obtain ⟨-, -, hhi⟩ := normalizeData_eq hlt hne
    have hw := two_pow_intermediateExpWidth
    have hmin : -1022 ≤ (format isDouble).minExp ∧ (format isDouble).minExp ≤ 0 := by
      cases isDouble <;> decide
    refine ⟨rfl, rfl, rfl, ?_, hus, ?_, ⟨?_, ?_⟩, ?_⟩
    · rw [huz]
      exact beq_false_of_ne hne
    · have hjam : jamShift (z.natAbs * 2 ^ normalizeShift 64 z.natAbs) 9 < 2 ^ 55 :=
        jamShift_lt hhi (by decide)
      rw [← hsig] at hjam
      change u.significand < 2 ^ 54
      change 2 ^ 54 + u.significand < 2 ^ 55 at hjam
      omega
    · omega
    · omega
    · have hval : ((z.natAbs : ℕ) : ℚ) / 2 ^ (u.exponent - (intermediateSigWidth : ℕ)) =
          ((z.natAbs * 2 ^ normalizeShift 64 z.natAbs : ℕ) : ℚ) / 2 ^ 9 := by
        rw [hexp, Nat.cast_mul, Nat.cast_pow, Nat.cast_ofNat, div_eq_div_iff
          (zpow_pos two_pos _).ne' (pow_pos two_pos _).ne', mul_assoc, ← zpow_natCast,
          ← zpow_natCast, ← zpow_add₀ two_ne_zero]
        congr 2
        change (9 : ℤ) = _ + (63 - _ - 54)
        ring
      rw [hval, hsig]
      exact (Sticky.self _).shift 9

/-- The word that `muntjac_fpu_normalize_from_int_multi` extends the lower half to. -/
def extended (signed dword : Bool) (x : ℕ) : ℕ :=
  if dword then x
  else if signed then cat (if x.testBit 31 then 2 ^ 32 - 1 else 0) 32 (slice x 31 0)
  else slice x 31 0

theorem extended_lt (signed dword : Bool) (hx : x < 2 ^ 64) : extended signed dword x < 2 ^ 64 := by
  have hs : slice x 31 0 < 2 ^ 32 := slice_lt x 31 0
  rw [extended, cat]
  split_ifs <;> omega

theorem registerInt_extended (signed dword : Bool) (x : ℕ) :
    registerInt signed true (extended signed dword x) = registerInt signed dword x := by
  have hslice : slice x 31 0 = x % 2 ^ 32 := by rw [slice, Nat.pow_zero, Nat.div_one]
  have hbit : x.testBit 31 = decide (x / 2 ^ 31 % 2 = 1) := Nat.testBit_eq_decide_div_mod_eq
  rw [extended, registerInt, registerInt, hslice, hbit, cat]
  cases dword with
  | true => rfl
  | false =>
      cases signed with
      | false =>
          simp only [Bool.false_eq_true, if_false, if_true, BitVec.toNat_ofNat]
          omega
      | true =>
          simp only [Bool.false_eq_true, if_false, if_true, BitVec.toInt_eq_toNat_cond,
            BitVec.toNat_ofNat, decide_eq_true_eq]
          split_ifs <;> omega

end FromInt

/-! ## To integers -/

/-- The ends of the range of the integers of `w` bits. -/
def intMin (signed : Bool) (w : ℕ) : ℤ := if signed then -2 ^ (w - 1) else 0
def intMax (signed : Bool) (w : ℕ) : ℤ := if signed then 2 ^ (w - 1) - 1 else 2 ^ w - 1

section ToInt
variable {u : Unpacked} {isDouble s : Bool} {m : ℚ}

open RoundToInt

/-- The exponent that is left to be shifted. -/
theorem effectiveExponent_eq (h : Operand (format isDouble) decodedSigWidth u) :
    effectiveExponent decodedExpWidth 64 u = u.exponent - 63 := by
  have hlo := h.lo
  have hhi := h.hi
  have hbounds : -1074 ≤ (format isDouble).minExp - (format isDouble).sigWidth ∧
      (format isDouble).maxExp + 1 ≤ 1024 := by
    cases isDouble <;> decide
  have hw : (2 : ℤ) ^ (decodedExpWidth + 1) = 8192 := rfl
  refine wrap_eq ?_ ?_ <;> rw [hw] <;> push_cast <;> omega

/-- The shifted significand stands for the number in quarters. -/
theorem sticky_intSignificand (h : Operand (format isDouble) decodedSigWidth u)
    (hm : u.mag decodedSigWidth = m) (he : u.exponent ≤ 63) :
    intSignificand decodedExpWidth decodedSigWidth 64 u < 2 ^ 66 ∧
      Sticky (4 * m) (intSignificand decodedExpWidth decodedSigWidth 64 u) := by
  have hlo := h.lo
  have hbounds : -1074 ≤ (format isDouble).minExp - (format isDouble).sigWidth := by
    cases isDouble <;> decide
  have hsig : u.significand < 2 ^ 52 := h.significand_lt
  have hshift : bits (decodedExpWidth + 1) (-effectiveExponent decodedExpWidth 64 u) =
      (63 - u.exponent).toNat := by
    have hw : (2 : ℤ) ^ (decodedExpWidth + 1) = 8192 := rfl
    rw [effectiveExponent_eq h, neg_sub]
    exact bits_eq (by omega) (by rw [hw]; omega)
  have hdata : cat (cat 1 decodedSigWidth u.significand) (64 - decodedSigWidth + 1) 0 =
      (2 ^ 52 + u.significand) * 2 ^ 13 := by
    rw [cat, cat, Nat.one_mul, Nat.add_zero]
    rfl
  have hint : intSignificand decodedExpWidth decodedSigWidth 64 u =
      jamShift ((2 ^ 52 + u.significand) * 2 ^ 13) (63 - u.exponent).toNat := by
    rw [intSignificand, hshift, hdata]
    exact rightShift_eq (by decide) (by decide) (by omega)
  rw [hint]
  constructor
  · refine jamShift_lt (lt_of_lt_of_le ?_ (Nat.pow_le_pow_right two_pos (Nat.le_add_right 66 _)))
      (by decide)
    omega
  · have hval : 4 * m = (((2 ^ 52 + u.significand) * 2 ^ 13 : ℕ) : ℚ) /
        2 ^ (63 - u.exponent).toNat := by
      have hpow : (2 : ℚ) ^ (63 - u.exponent).toNat = 2 ^ (63 - u.exponent) := by
        rw [← zpow_natCast, Int.toNat_of_nonneg (by omega)]
      have hscale : (4 : ℚ) * 2 ^ (u.exponent - (decodedSigWidth : ℕ)) * 2 ^ (63 - u.exponent) =
          8192 := by
        rw [mul_assoc, ← zpow_add₀ two_ne_zero]
        change (4 : ℚ) * 2 ^ (u.exponent - 52 + (63 - u.exponent)) = _
        rw [show u.exponent - 52 + (63 - u.exponent) = 11 by ring]
        norm_num
      rw [hpow, eq_div_iff (zpow_pos two_pos _).ne', ← hm, Unpacked.mag]
      push_cast
      rw [show (4503599627370496 : ℚ) = 2 ^ 52 by norm_num, ← hscale]
      change 4 * ((2 ^ 52 + (u.significand : ℚ)) * _) * _ = _
      ring
    rw [hval]
    exact (Sticky.self _).shift _

/-- The rounded significand is the rounded number, and the rounder knows if it is exact. -/
theorem significandRounded_eq (h : Operand (format isDouble) decodedSigWidth u)
    (hm : u.mag decodedSigWidth = m) (he : u.exponent ≤ 63) (rm : RoundingMode) :
    significandRounded decodedExpWidth decodedSigWidth 64 rm u = roundNat rm u.sign m ∧
      (round rm u.sign (intSignificand decodedExpWidth decodedSigWidth 64 u % 8)).1 =
        decide ((roundNat rm u.sign m : ℚ) ≠ m) ∧
      roundNat rm u.sign m ≤ 2 ^ 64 := by
  obtain ⟨hlt, hst⟩ := sticky_intSignificand h hm he
  set N := intSignificand decodedExpWidth decodedSigWidth 64 u
  have hround := hst.roundNat_div rm u.sign
  have hexact := hst.exact_div
  rw [mul_div_cancel_left₀ _ (by norm_num)] at hround hexact
  have hslice : slice N (64 + 1) 2 = N / 4 := by
    change N / 4 % 2 ^ 64 = N / 4
    exact Nat.mod_eq_of_lt (by omega)
  have hup := Bool.toNat_le (roundsUpBits rm u.sign N)
  refine ⟨?_, ?_, by omega⟩
  · rw [significandRounded, hslice, round_snd, hround]
  · rw [round_fst, Bool.eq_iff_iff, bne_iff_ne, decide_eq_true_eq, ne_eq, ne_eq, ← hexact,
      ← eq_roundNat_iff rm u.sign, eq_comm]

/-- The overflow of the rounded significand is decided in the bits of the range. -/
theorem overflow_eq (signed : Bool) {r : ℕ} (hr : r ≤ 2 ^ 64) :
    overflow 64 signed u r = decide ((if u.sign then -(r : ℤ) else r) < intMin signed 64 ∨
      intMax signed 64 < if u.sign then -(r : ℤ) else r) := by
  have h64 : r.testBit 64 = decide (r = 2 ^ 64) := by
    rw [Nat.testBit_eq_decide_div_mod_eq, decide_eq_decide]
    omega
  have h63 : r.testBit 63 = decide (2 ^ 63 ≤ r ∧ r < 2 ^ 64) := by
    rw [Nat.testBit_eq_decide_div_mod_eq, decide_eq_decide]
    omega
  have hlow : slice r 62 0 = r % 2 ^ 63 := by rw [slice, Nat.pow_zero, Nat.div_one]
  rw [overflow, Bool.eq_iff_iff, decide_eq_true_eq]
  change (if u.sign = true then r.testBit 64 || r.testBit 63 && (!signed || !(slice r 62 0 == 0)) ||
    !signed && !(slice r 62 0 == 0) else r.testBit 64 || signed && r.testBit 63) = true ↔ _
  rw [h64, h63, hlow]
  cases u.sign <;> cases signed <;>
    simp [intMin, intMax] <;> omega

theorem saturate_of_overflow {signed : Bool} {lo hi : ℤ} (flags : Flags) {r : ℕ}
    (hlo : lo = intMin signed 64) (hhi : hi = intMax signed 64)
    (h : (if s then -(r : ℤ) else r) < lo ∨ hi < if s then -(r : ℤ) else r) :
    Format.saturate lo hi (if s then -(r : ℤ) else r, flags) =
      (if s then lo else hi, { invalidOperation := true }) := by
  have hle : lo ≤ 0 ∧ 0 ≤ hi := by
    rw [hlo, hhi]
    cases signed <;> decide
  unfold Format.saturate
  cases s with
  | false =>
      rw [if_neg Bool.false_ne_true] at h ⊢
      rw [if_neg (show ¬(r : ℤ) < lo by omega), if_pos (show hi < (r : ℤ) by omega)]
      rfl
  | true =>
      rw [if_pos rfl] at h ⊢
      rw [if_pos (show -(r : ℤ) < lo by omega)]
      rfl

/-- The ends of the range, as the words that the rounder saturates to. -/
theorem positiveMax_eq (signed : Bool) :
    positiveMax 64 signed = (BitVec.ofInt 64 (intMax signed 64)).toNat := by
  cases signed <;> decide

theorem maxValue_eq (signed : Bool) (u : Unpacked) :
    maxValue 64 signed u =
      (BitVec.ofInt 64 (if u.sign then intMin signed 64 else intMax signed 64)).toNat := by
  rw [maxValue]
  cases u.sign <;> cases signed <;> decide

/-- The integer of 64 bits is that of the datum, and the flags are. -/
theorem roundToInt_eq {d : Format.Datum} (h : Operand (format isDouble) decodedSigWidth u)
    (hd : u.Denotes decodedSigWidth d) (rm : RoundingMode) (signed : Bool) :
    roundToInt decodedExpWidth decodedSigWidth 64 rm signed u =
      ((BitVec.ofInt 64 (d.toInt rm (intMin signed 64) (intMax signed 64)).1).toNat,
        (d.toInt rm (intMin signed 64) (intMax signed 64)).2) := by
  cases d with
  | nan t =>
      obtain ⟨hn, -⟩ := hd
      rw [roundToInt, hn, if_pos rfl, positiveMax_eq]
      rfl
  | inf t =>
      obtain ⟨hn, hi, hz, rfl⟩ := hd
      rw [roundToInt, hn, hz, hi, if_neg Bool.false_ne_true, if_neg Bool.false_ne_true,
        Bool.true_or, if_pos rfl, maxValue_eq]
      rfl
  | finite t m =>
      obtain ⟨hn, hi, hz, rfl, hm⟩ := hd
      have hzero : u.isZero = decide (m = 0) := by
        rw [Bool.eq_iff_iff, decide_eq_true_eq]
        exact hz
      have hrange : intMin signed 64 ≤ 0 ∧ 0 ≤ intMax signed 64 := by cases signed <;> decide
      rw [Format.Datum.toInt, Format.roundInt, roundToInt, hn, if_neg Bool.false_ne_true, hzero, hi,
        Bool.false_or]
      by_cases h0 : m = 0
      · have hround : roundNat rm u.sign m = 0 := by
          rw [h0, ← Nat.cast_zero, roundNat_natCast]
        rw [if_pos (decide_eq_true h0), hround, h0, Nat.cast_zero, neg_zero, ite_self,
          Nat.cast_zero,
          Format.saturate_of_mem hrange.1 hrange.2]
        simp
      · rw [if_neg (by simpa using h0), effectiveExponent_eq h]
        by_cases he : u.exponent ≤ 63
        · obtain ⟨hsig, hexact, hle⟩ := significandRounded_eq h (hm h0) he rm
          have hov := overflow_eq (u := u) signed hle
          rw [if_neg (by simpa using he), hsig, hexact, hov, maxValue_eq]
          by_cases hout : (if u.sign then -(roundNat rm u.sign m : ℤ) else roundNat rm u.sign m) <
              intMin signed 64 ∨ intMax signed 64 <
                if u.sign then -(roundNat rm u.sign m : ℤ) else roundNat rm u.sign m
          · rw [if_pos (decide_eq_true hout), saturate_of_overflow _ rfl rfl hout]
          · rw [if_neg (by simpa using hout)]
            rw [not_or, not_lt, not_lt] at hout
            rw [Format.saturate_of_mem hout.1 hout.2]
            refine Prod.ext ?_ rfl
            rw [BitVec.toNat_ofInt]
            cases u.sign with
            | true => rfl
            | false => exact (Int.toNat_natCast _).symm
        · -- from `2 ^ 64` on the rounded number is out of every range
          have hge : 2 ^ 64 ≤ roundNat rm u.sign m := by
            have hpow : ((2 ^ 64 : ℕ) : ℚ) ≤ m := by
              rw [← hm h0]
              refine le_trans ?_ (u.two_pow_le_mag decodedSigWidth)
              calc ((2 ^ 64 : ℕ) : ℚ) = 2 ^ (64 : ℤ) := by norm_num
                _ ≤ 2 ^ u.exponent := zpow_le_zpow_right₀ one_le_two (by omega)
            exact (Nat.le_floor hpow).trans (floor_le_roundNat rm u.sign m)
          have hout : (if u.sign then -(roundNat rm u.sign m : ℤ) else roundNat rm u.sign m) <
              intMin signed 64 ∨ intMax signed 64 <
                if u.sign then -(roundNat rm u.sign m : ℤ) else roundNat rm u.sign m := by
            generalize roundNat rm u.sign m = r at hge
            rw [intMin, intMax]
            cases u.sign <;> cases signed <;> simp <;> omega
          rw [if_pos (by simpa using he), maxValue_eq, saturate_of_overflow _ rfl rfl hout]

/-- The lower half of an integer, sign extended. -/
theorem sext_word (z : ℤ) {x : ℕ} (hx : x = (BitVec.ofInt 64 z).toNat) :
    cat (if x.testBit 31 then 2 ^ 33 - 1 else 0) 31 (slice x 30 0) =
      ((BitVec.ofInt 32 z).signExtend 64).toNat := by
  have hbit : x.testBit 31 = decide (x / 2 ^ 31 % 2 = 1) := Nat.testBit_eq_decide_div_mod_eq
  have hslice : slice x 30 0 = x % 2 ^ 31 := by rw [slice, Nat.pow_zero, Nat.div_one]
  rw [BitVec.toNat_ofInt] at hx
  rw [BitVec.toNat_signExtend, BitVec.msb_eq_decide, BitVec.toNat_setWidth, BitVec.toNat_ofInt,
    hbit,
    hslice, cat]
  simp only [decide_eq_true_eq]
  split_ifs <;> omega

/-- The integer of 32 bits, as the rounder takes it from the word of the integer of 64 bits. -/
def narrowed (signed : Bool) (x : ℕ) (flags : Flags) : ℕ × Flags :=
  let saturated := { flags with invalidOperation := true, inexact := false }
  if signed then
    if x.testBit 63 then
      if slice x 62 31 != 2 ^ 32 - 1 then (0xffffffff80000000, saturated)
      else (cat (if x.testBit 31 then 2 ^ 33 - 1 else 0) 31 (slice x 30 0), flags)
    else if slice x 62 31 != 0 then (0x7fffffff, saturated)
    else (cat (if x.testBit 31 then 2 ^ 33 - 1 else 0) 31 (slice x 30 0), flags)
  else if slice x 63 32 != 0 then (0xffffffffffffffff, saturated)
  else (cat (if x.testBit 31 then 2 ^ 33 - 1 else 0) 31 (slice x 30 0), flags)

/-- The upper bits of the word tell if the integer is in the range of 32 bits. -/
theorem narrowed_eq (signed : Bool) {z : ℤ} {flags : Flags} {x : ℕ}
    (hx : x = (BitVec.ofInt 64 z).toNat) (hlo : intMin signed 64 ≤ z) (hhi : z ≤ intMax signed 64)
    (hflags : { flags with invalidOperation := true, inexact := false } =
      ({ invalidOperation := true } : Flags)) :
    narrowed signed x flags =
      (((BitVec.ofInt 32 (Format.saturate (intMin signed 32) (intMax signed 32)
          (z, flags)).1).signExtend 64).toNat,
        (Format.saturate (intMin signed 32) (intMax signed 32) (z, flags)).2) := by
  have hsext := sext_word z hx
  have hbit : x.testBit 63 = decide (x / 2 ^ 63 % 2 = 1) := Nat.testBit_eq_decide_div_mod_eq
  rw [BitVec.toNat_ofInt] at hx
  rw [narrowed, hflags, hsext, Format.saturate]
  cases signed with
  | false =>
      have hmin : intMin false 32 = 0 := rfl
      have hmax : intMax false 32 = 2 ^ 32 - 1 := rfl
      have h0 : 0 ≤ z := hlo
      have hlt : z ≤ 2 ^ 64 - 1 := hhi
      have hhigh : (slice x 63 32 != 0) = decide (2 ^ 32 - 1 < z) := by
        have hslice : slice x 63 32 = x / 2 ^ 32 % 2 ^ 32 := rfl
        rw [Bool.eq_iff_iff, bne_iff_ne, decide_eq_true_eq, hslice]
        omega
      rw [if_neg Bool.false_ne_true, hhigh, hmin, hmax, if_neg (show ¬z < 0 by omega)]
      by_cases h : 2 ^ 32 - 1 < z
      · rw [if_pos h, if_pos (decide_eq_true h)]
        decide
      · rw [if_neg h, if_neg (by simpa using h)]
  | true =>
      have hmin : intMin true 32 = -2 ^ 31 := rfl
      have hmax : intMax true 32 = 2 ^ 31 - 1 := rfl
      have h0 : -2 ^ 63 ≤ z := hlo
      have hlt : z ≤ 2 ^ 63 - 1 := hhi
      have hslice : slice x 62 31 = x / 2 ^ 31 % 2 ^ 32 := rfl
      rw [if_pos rfl, hmin, hmax, hbit, hslice]
      by_cases hneg : z < 0
      · have hhigh : (x / 2 ^ 31 % 2 ^ 32 != 2 ^ 32 - 1) = decide (z < -2 ^ 31) := by
          rw [Bool.eq_iff_iff, bne_iff_ne, decide_eq_true_eq]
          omega
        rw [if_pos (decide_eq_true (by omega)), hhigh]
        by_cases h : z < -2 ^ 31
        · rw [if_pos h, if_pos (decide_eq_true h)]
          decide
        · rw [if_neg h, if_neg (by simpa using h), if_neg (by omega)]
      · have hhigh : (x / 2 ^ 31 % 2 ^ 32 != 0) = decide (2 ^ 31 - 1 < z) := by
          rw [Bool.eq_iff_iff, bne_iff_ne, decide_eq_true_eq]
          omega
        rw [if_neg (by simp only [decide_eq_true_eq]; omega), hhigh,
          if_neg (show ¬z < -2 ^ 31 by omega)]
        by_cases h : 2 ^ 31 - 1 < z
        · rw [if_pos h, if_pos (decide_eq_true h)]
          decide
        · rw [if_neg h, if_neg (by simpa using h)]

/-- An integer in a register: one of 32 bits is sign extended. -/
def intWord (dword : Bool) (z : ℤ) : ℕ :=
  if dword then (BitVec.ofInt 64 z).toNat else ((BitVec.ofInt 32 z).signExtend 64).toNat

/-- The integer of a datum for a target, in a register, and the flags. -/
def intResult (rm : RoundingMode) (signed dword : Bool) (d : Format.Datum) : ℕ × Flags :=
  let r := d.toInt rm (intMin signed (if dword then 64 else 32))
    (intMax signed (if dword then 64 else 32))
  (intWord dword r.1, r.2)

/-- The integer of either size is that of the datum, and the flags are. -/
theorem roundToIntMulti_eq {d : Format.Datum} (h : Operand (format isDouble) decodedSigWidth u)
    (hd : u.Denotes decodedSigWidth d) (rm : RoundingMode) (signed dword : Bool) :
    roundToIntMulti decodedExpWidth decodedSigWidth rm signed dword u =
      intResult rm signed dword d := by
  have h64 := roundToInt_eq h hd rm signed
  cases dword with
  | true =>
      rw [roundToIntMulti, if_pos rfl, h64]
      rfl
  | false =>
      have hends : intMin signed 64 ≤ intMin signed 32 ∧ intMin signed 32 ≤ intMax signed 32 ∧
          intMax signed 32 ≤ intMax signed 64 := by
        cases signed <;> decide
      obtain ⟨h1, h2, h3⟩ := hends
      obtain ⟨hlo, hhi⟩ := d.toInt_mem rm (h1.trans (h2.trans h3))
      have hflags := d.toInt_flags rm (intMin signed 64) (intMax signed 64)
      have hnarrow := d.toInt_narrow rm h1 h2 h3
      have hword : ∀ z, intWord false z = ((BitVec.ofInt 32 z).signExtend 64).toNat := fun _ => rfl
      rw [roundToIntMulti, h64, if_neg Bool.false_ne_true]
      change narrowed signed _ _ = (intWord false (d.toInt rm (intMin signed 32)
        (intMax signed 32)).1, (d.toInt rm (intMin signed 32) (intMax signed 32)).2)
      rw [hword, hnarrow]
      exact narrowed_eq signed rfl hlo hhi hflags

end ToInt

section Answers
variable {inp : ℕ → FpuReq} {n : ℕ}
  (hidle : (run FpUnit.step FpUnit.reset inp n).state = .idle) (hv : (inp n).valid = true)
include hidle hv

/-- An integer is rounded to the format of the request. -/
theorem i2f_answers (hop : (inp n).op.opType = .cvtI2F) (hx : (inp n).rs1 < 2 ^ 64) :
    FpUnit.Answers inp n (n + 2) ((inp n).answer (Format.Outcome.ofInt
      (registerInt (inp n).intSigned (inp n).intDword (inp n).rs1))) := by
  have hmeans := normalizeFromInt_means (inp n).intSigned
    (extended_lt (inp n).intSigned (inp n).intDword hx) (inp n).double
  rw [registerInt_extended] at hmeans
  obtain ⟨-, -, -, -, hflags, hdz, hdouble, hrm, -⟩ :=
    FpUnit.latched_accept (run FpUnit.step FpUnit.reset inp n) (inp n)
  have hacc : ((run FpUnit.step FpUnit.reset inp n).accept (inp n)).state = .round ∧
      ((run FpUnit.step FpUnit.reset inp n).accept (inp n)).decRound =
        normalizeFromInt 64 intermediateExpWidth intermediateSigWidth (inp n).intSigned
          (extended (inp n).intSigned (inp n).intDword (inp n).rs1) ∧
      ((run FpUnit.step FpUnit.reset inp n).accept (inp n)).roundInvalidOperation = false ∧
      ((run FpUnit.step FpUnit.reset inp n).accept (inp n)).roundUseNanPayload = false ∧
      ((run FpUnit.step FpUnit.reset inp n).accept (inp n)).respValid = false := by
    simp only [FpUnit.accept, hop]
    exact ⟨trivial, rfl, trivial, trivial, rfl⟩
  rw [← FpUnit.run_accept hidle hv] at hflags hdz hdouble hrm hacc
  obtain ⟨hs, hdec, hinv, hnan, hresp⟩ := hacc
  have hround : (run FpUnit.step FpUnit.reset inp (n + 1)).rounded =
      (inp n).answer (Format.Outcome.ofInt
        (registerInt (inp n).intSigned (inp n).intDword (inp n).rs1)) := by
    rw [FpUnit.rounded, hdec, hinv, hdz, hnan, hdouble, hrm]
    exact roundToIeeeMulti_means hmeans (inp n).rm
  rw [← hround]
  refine FpUnit.answers_of_round (by omega) hs hflags fun k hk hkm => ?_
  obtain rfl : k = n + 1 := by omega
  exact ⟨hresp, FpUnit.reqReady_of_ne (by rw [hs]; decide)⟩

/-- A number is rounded to an integer, and saturated. -/
theorem f2i_answers (hop : (inp n).op.opType = .cvtF2I) :
    FpUnit.Answers inp n (n + 2)
      (intResult (inp n).rm (inp n).intSigned (inp n).intDword (inp n).datumA) := by
  have hmisc : (inp n).IsMisc := .inr (.inr (.inr (.inl hop)))
  obtain ⟨-, hdecA, -⟩ := FpUnit.accept_misc (s := run FpUnit.step FpUnit.reset inp n) hmisc
  have hdouble : (inp n).decodeAsDouble = (inp n).double := by
    rw [FpuReq.decodeAsDouble, hop]
    rfl
  rw [hdouble] at hdecA
  have hlatched : ((run FpUnit.step FpUnit.reset inp n).accept (inp n)).op = (inp n).op ∧
      ((run FpUnit.step FpUnit.reset inp n).accept (inp n)).rm = (inp n).rm := by
    obtain ⟨-, -, -, -, -, -, -, hrm, hopl⟩ :=
      FpUnit.latched_accept (run FpUnit.step FpUnit.reset inp n) (inp n)
    exact ⟨hopl, hrm⟩
  have hint := roundToIntMulti_eq (operand_decode (inp n).double (inp n).foperandA)
    (denotes_decode (inp n).double (inp n).foperandA) (inp n).rm (inp n).intSigned
    (inp n).intDword
  refine FpUnit.answers_of_misc hidle hv hmisc ?_
  rw [FpUnit.stepMisc, hlatched.1, hlatched.2, hdecA, hop]
  exact ⟨rfl, congrArg Prod.fst hint, congrArg Prod.snd hint⟩

end Answers

theorem natAbs_registerInt_le (signed dword : Bool) {x : ℕ} (hx : x < 2 ^ 64) :
    (registerInt signed dword x).natAbs < 2 ^ 64 := by
  have habs := (sign_abs signed (extended_lt signed dword hx)).2
  rw [registerInt_extended] at habs
  rw [← habs, bits]
  split_ifs
  · omega
  · exact extended_lt signed dword hx

section Requests
variable {inp : ℕ → FpuReq} {n : ℕ}

/-- Integers of both sizes, signed and unsigned, are rounded once to both formats. -/
theorem int_to_float (hidle : (run FpUnit.step FpUnit.reset inp n).state = .idle)
    (hv : (inp n).valid = true) (hop : (inp n).op.opType = .cvtI2F) (hx : (inp n).rs1 < 2 ^ 64)
    (z : ℤ) (hz : z = registerInt (inp n).intSigned (inp n).intDword (inp n).rs1) :
    ∃ b flags, FpUnit.Answers inp n (n + 2) (boxed (inp n).double (b, flags)) ∧
      (z = 0 → b = 0) ∧
      (z ≠ 0 → (inp n).format.Delivers (inp n).rm (decide (z < 0)) (z.natAbs : ℚ) b) ∧
      (flags.inexact = true ↔ ¬(inp n).format.Representable (z.natAbs : ℚ)) ∧
      { flags with inexact := false } = ({} : Flags) := by
  have hans := i2f_answers hidle hv hop hx
  rw [← hz] at hans
  have hlt : ((z.natAbs : ℕ) : ℚ) < 2 ^ (inp n).format.maxExp := by
    have hmono : (2 : ℚ) ^ (64 : ℤ) ≤ 2 ^ (inp n).format.maxExp := by
      refine zpow_le_zpow_right₀ one_le_two ?_
      rw [FpuReq.format]
      cases (inp n).double <;> decide
    have hcast : ((z.natAbs : ℕ) : ℚ) < (2 ^ 64 : ℕ) := by
      rw [Nat.cast_lt, hz]
      exact natAbs_registerInt_le _ _ hx
    refine lt_of_lt_of_le ?_ hmono
    exact_mod_cast hcast
  obtain ⟨hinexact, hother⟩ := (inp n).format.deliver_ofInt_flags (inp n).rm hlt
  refine ⟨_, _, hans, fun h0 => ?_, fun h0 => ?_, hinexact, hother⟩
  · rw [Format.Outcome.ofInt, if_pos h0]
    change (inp n).format.pack false 0 0 = 0
    simp [Format.pack, cat]
  · rw [Format.Outcome.ofInt, if_neg h0]
    exact (inp n).format.round_delivers _ _ (by exact_mod_cast Int.natAbs_pos.mpr h0)

/-- The smallest signed integer of 64 bits. -/
theorem int_to_float_min :
    ∃ b flags, FpUnit.Answers
        (fun _ => { doubleRequest .cvtI2F fpParamL 0 0 0 with rs1 := 2 ^ 63 }) 0 2
        (boxed true (b, flags)) ∧
      double.Delivers .tiesToEven true ((2 ^ 63 : ℕ) : ℚ) b := by
  obtain ⟨b, flags, hans, -, hdel, -⟩ :=
    @int_to_float (fun _ => { doubleRequest .cvtI2F fpParamL 0 0 0 with rs1 := 2 ^ 63 }) 0 rfl rfl
      rfl (by decide) (-2 ^ 63) (by decide)
  exact ⟨b, flags, hans, hdel (by decide)⟩

/-- Numbers of both formats are rounded to integers of both sizes, signed and unsigned; the
range is decided after rounding. -/
theorem float_to_int (hidle : (run FpUnit.step FpUnit.reset inp n).state = .idle)
    (hv : (inp n).valid = true) (hop : (inp n).op.opType = .cvtF2I) (lo hi : ℤ)
    (hlo : lo = intMin (inp n).intSigned (if (inp n).intDword then 64 else 32))
    (hhi : hi = intMax (inp n).intSigned (if (inp n).intDword then 64 else 32)) :
    ∃ z flags, FpUnit.Answers inp n (n + 2) (intWord (inp n).intDword z, flags) ∧
      match (inp n).datumA with
      | .nan _ => z = hi ∧ flags = { invalidOperation := true }
      | .inf neg => z = (if neg then lo else hi) ∧ flags = { invalidOperation := true }
      | .finite neg m => ∃ r, Format.RoundsToInt (inp n).rm (Format.signed neg m) r ∧
          (lo ≤ r → r ≤ hi → z = r ∧ (flags.inexact = true ↔ ∀ k : ℤ, Format.signed neg m ≠ k) ∧
            { flags with inexact := false } = ({} : Flags)) ∧
          (r < lo → z = lo ∧ flags = { invalidOperation := true }) ∧
          (hi < r → z = hi ∧ flags = { invalidOperation := true }) := by
  have hans := f2i_answers hidle hv hop
  have hden := denotes_decode (inp n).double (inp n).foperandA
  rw [intResult, ← hlo, ← hhi] at hans
  refine ⟨_, _, hans, ?_⟩
  change (decode (inp n).double (inp n).foperandA).toUnpacked.Denotes decodedSigWidth
    (inp n).datumA at hden
  cases hd : (inp n).datumA with
  | nan s => exact ⟨rfl, rfl⟩
  | inf s => exact ⟨rfl, rfl⟩
  | finite s m =>
      rw [hd] at hden
      have hm : 0 ≤ m := by
        obtain ⟨-, -, -, -, hmag⟩ := hden
        rcases eq_or_ne m 0 with h | h
        · exact h.ge
        · rw [← hmag h]
          exact (Unpacked.mag_pos _ _).le
      refine ⟨Format.roundInt (inp n).rm s m, Format.roundsToInt_roundInt (inp n).rm s hm,
        ?_, ?_, ?_⟩
      · intro h1 h2
        simp only [Format.Datum.toInt]
        rw [Format.saturate_of_mem h1 h2]
        exact ⟨rfl, decide_eq_true_iff.trans (Format.roundNat_ne_iff (inp n).rm s hm), rfl⟩
      · intro h
        simp only [Format.Datum.toInt, Format.saturate]
        rw [if_pos h]
        exact ⟨rfl, rfl⟩
      · intro h
        have hle : lo ≤ hi := by
          rw [hlo, hhi]
          cases (inp n).intSigned <;> cases (inp n).intDword <;> decide
        simp only [Format.Datum.toInt, Format.saturate]
        rw [if_neg (by omega), if_pos h]
        exact ⟨rfl, rfl⟩

/-- A half below zero is rounded to zero, which an unsigned integer holds. -/
theorem float_to_int_half :
    FpUnit.Answers (fun _ => doubleRequest .cvtF2I fpParamWu 0xbfe0000000000000 0 0) 0 2
      (0, { inexact := true }) := by
  obtain ⟨z, flags, hans, hd⟩ :=
    @float_to_int (fun _ => doubleRequest .cvtF2I fpParamWu 0xbfe0000000000000 0 0) 0 rfl rfl rfl
      0 (2 ^ 32 - 1) rfl rfl
  have hA : (doubleRequest .cvtF2I fpParamWu 0xbfe0000000000000 0 0).datumA =
      .finite true (1 / 2) := by with_unfolding_all decide
  rw [hA] at hd
  obtain ⟨r, ⟨hle, heven⟩, hin, -, -⟩ := hd
  have hr : r = 0 := by
    rw [Format.signed, if_pos rfl] at hle heven
    have hbounds := abs_le.mp hle
    have h1 : -1 ≤ r := by
      have : (-1 : ℚ) ≤ r := by linarith [hbounds.2]
      exact_mod_cast this
    have h2 : r ≤ 0 := by
      have : (r : ℚ) ≤ 0 := by linarith [hbounds.1]
      exact_mod_cast this
    -- the other integer at this distance is odd
    have hodd : r ≠ -1 := by
      rintro rfl
      exact absurd (heven (by norm_num)) (by decide)
    omega
  obtain ⟨hz, hinexact, hother⟩ := hin hr.ge (by omega)
  have htrue : flags.inexact = true := by
    refine hinexact.mpr fun k hk => ?_
    have h2 : -1 = 2 * (k : ℚ) := by
      rw [← hk, Format.signed, if_pos rfl]
      norm_num
    have h3 : -1 = 2 * k := by exact_mod_cast h2
    omega
  have hflags : flags = { inexact := true } := by
    cases flags
    simp_all
  rw [hz, hr, hflags] at hans
  exact hans

end Requests

end Muntjac.Fpu

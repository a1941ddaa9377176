import Muntjac.Fpu.Normalize
import Muntjac.Fpu.Round
import Muntjac.Ieee.Arith

/-!
# Fused multiply-add

`muntjac_fpu_mul`, `muntjac_fpu_add` and `muntjac_fpu_mul_add`.  The product keeps all its
bits.  The adder aligns the smaller operand with a right shift that gathers the lost bits
in the lowest one, adds or subtracts, and normalizes the result.
-/

namespace Muntjac.Fpu

open Sync Ieee

/-! ## `muntjac_fpu_mul` -/

namespace MulUnit
variable (inExpWidth inSigWidth : ℕ) (a b : Unpacked)

/-- `product_significand_ext`. -/
def productSignificandExt : ℕ :=
  cat 1 inSigWidth a.significand * cat 1 inSigWidth b.significand

/-- The product is two or more. -/
def productCarry : Bool := (productSignificandExt inSigWidth a b).testBit (inSigWidth * 2 + 1)

def productExp : ℤ := wrap (inExpWidth + 1) (a.exponent + b.exponent)

def productExpNorm : ℤ :=
  wrap (inExpWidth + 1) (productExp inExpWidth a b + (productCarry inSigWidth a b).toNat)

def productSignificandNorm : ℕ :=
  if productCarry inSigWidth a b then
    slice (productSignificandExt inSigWidth a b) (inSigWidth * 2) 0
  else cat (slice (productSignificandExt inSigWidth a b) (inSigWidth * 2 - 1) 0) 1 0

end MulUnit

open MulUnit in
/-- `muntjac_fpu_mul`: `resp_invalid_operation_o` and the other outputs. -/
def mul (inExpWidth inSigWidth : ℕ) (a b : Unpacked) : Bool × Unpacked :=
  let aIsSignalingNan := a.isNan && !a.significand.testBit (inSigWidth - 1)
  let bIsSignalingNan := b.isNan && !b.significand.testBit (inSigWidth - 1)
  let isNan := a.isNan || b.isNan
  (aIsSignalingNan || bIsSignalingNan || (a.isInf && b.isZero) || (a.isZero && b.isInf),
    { sign := a.sign ^^ b.sign
      exponent := productExpNorm inExpWidth inSigWidth a b
      significand := productSignificandNorm inSigWidth a b
      isZero := !isNan && (a.isZero || b.isZero)
      isInf := !isNan && (a.isInf || b.isInf)
      isNan := isNan })

/-! ## `muntjac_fpu_add` -/

namespace AddUnit
variable (p : Widths) (a b : Unpacked)

def internalSigWidth : ℕ := max p.inSigWidth p.outSigWidth

def substractMagnitude : Bool := a.sign ^^ b.sign

def exponentDifference : ℤ := wrap (p.inExpWidth + 1) (a.exponent - b.exponent)
def negExponentDifference : ℤ := wrap (p.inExpWidth + 1) (-exponentDifference p a b)

def swapOperand : Bool :=
  decide (exponentDifference p a b < 0) ||
    (exponentDifference p a b == 0 && decide (a.significand < b.significand))

/-- The significand with its explicit leading one. -/
def significandExt (u : Unpacked) : ℕ :=
  cat (cat 1 p.inSigWidth u.significand) (internalSigWidth p - p.inSigWidth) 0

def aSignificandShifted : ℕ :=
  rightShift (internalSigWidth p + 1) p.inExpWidth (significandExt p a)
    (bits p.inExpWidth (negExponentDifference p a b))

def bSignificandShifted : ℕ :=
  rightShift (internalSigWidth p + 1) p.inExpWidth (significandExt p b)
    (bits p.inExpWidth (exponentDifference p a b))

def bigSignificandNorm : ℕ :=
  if swapOperand p a b then significandExt p b else significandExt p a

def smallSignificandNorm : ℕ :=
  if swapOperand p a b then aSignificandShifted p a b else bSignificandShifted p a b

/-- `sum`, a wire of `InternalSigWidth + 2` bits. -/
def sum : ℕ :=
  if substractMagnitude a b then
    bits (internalSigWidth p + 2) (bigSignificandNorm p a b - smallSignificandNorm p a b)
  else (bigSignificandNorm p a b + smallSignificandNorm p a b) % 2 ^ (internalSigWidth p + 2)

def normShift : ℕ := normalizeShift (internalSigWidth p + 2) (sum p a b)
def normSig : ℕ := normalizeData (internalSigWidth p + 2) (sum p a b)
def normZero : Bool := sum p a b == 0

def respSig : ℕ :=
  if a.isZero then cat (significandExt p b) 1 0
  else if b.isZero then cat (significandExt p a) 1 0
  else normSig p a b

/-- `resp_exponent_o`; the expression is unsigned, so that the exponents are extended with
zeros. -/
def respExponent : ℤ :=
  wrap p.outExpWidth
    (if a.isZero then bits p.inExpWidth b.exponent
    else if b.isZero then bits p.inExpWidth a.exponent
    else (bits p.inExpWidth (if swapOperand p a b then b.exponent else a.exponent) : ℤ) + 1 -
      normShift p a b)

end AddUnit

open AddUnit in
/-- `muntjac_fpu_add`: `resp_invalid_operation_o` and the other outputs. -/
def add (p : Widths) (rm : RoundingMode) (a b : Unpacked) : Bool × Unpacked :=
  let cancellationZeroSign := rm == .towardNegative
  let aIsSignalingNan := a.isNan && !a.significand.testBit (p.inSigWidth - 1)
  let bIsSignalingNan := b.isNan && !b.significand.testBit (p.inSigWidth - 1)
  let isNan := a.isNan || b.isNan
  let isInf := !isNan && (a.isInf || b.isInf)
  let specialIsZero := a.isZero && b.isZero
  let special := isNan || isInf || specialIsZero
  let specialSign :=
    if a.isInf then a.sign
    else if b.isInf then b.sign
    else if specialIsZero then
      (if substractMagnitude a b then cancellationZeroSign else a.sign)
    else false
  (aIsSignalingNan || bIsSignalingNan || (a.isInf && b.isInf && substractMagnitude a b),
    { sign :=
        if special then specialSign
        else if a.isZero then b.sign
        else if b.isZero then a.sign
        else if normZero p a b then cancellationZeroSign
        else if swapOperand p a b then b.sign
        else a.sign
      exponent := respExponent p a b
      significand :=
        cat (slice (respSig p a b) (internalSigWidth p) (internalSigWidth p - p.outSigWidth + 2)) 1
          (slice (respSig p a b) (internalSigWidth p - p.outSigWidth + 1) 0 != 0).toNat
      isZero := if special then specialIsZero else normZero p a b
      isInf := isInf
      isNan := isNan })

/-! ## `muntjac_fpu_mul_add` -/

def mulAdd (inExpWidth inSigWidth outExpWidth outSigWidth : ℕ) (rm : RoundingMode)
    (a b c : Unpacked) : Bool × Unpacked :=
  let prod := mul inExpWidth inSigWidth a b
  let addend : Unpacked :=
    { c with
      exponent := wrap (inExpWidth + 1) c.exponent
      significand := cat c.significand (inSigWidth + 1) 0 }
  let product : Unpacked :=
    { prod.2 with
      significand :=
        cat (if prod.2.isNan then 1 else (prod.2.significand.testBit (inSigWidth * 2)).toNat)
          (inSigWidth * 2) (slice prod.2.significand (inSigWidth * 2 - 1) 0) }
  let r := add ⟨inExpWidth + 1, inSigWidth * 2 + 1, outExpWidth, outSigWidth⟩ rm product addend
  (prod.1 || r.1, r.2)

/-! ## The product is exact -/

namespace MulUnit
variable {we w : ℕ} {a b : Unpacked}

theorem cat_one {s : ℕ} (hs : s < 2 ^ w) : 2 ^ w ≤ cat 1 w s ∧ cat 1 w s < 2 ^ (w + 1) := by
  rw [cat, Nat.pow_succ]
  omega

section
variable (ha : a.significand < 2 ^ w) (hb : b.significand < 2 ^ w)
include ha hb

theorem productSignificandExt_mem :
    2 ^ (w * 2) ≤ productSignificandExt w a b ∧ productSignificandExt w a b < 2 ^ (w * 2 + 2) := by
  obtain ⟨ha1, ha2⟩ := cat_one ha
  obtain ⟨hb1, hb2⟩ := cat_one hb
  constructor
  · rw [Nat.mul_two, Nat.pow_add]
    exact Nat.mul_le_mul ha1 hb1
  · rw [show w * 2 + 2 = w + 1 + (w + 1) by ring, Nat.pow_add]
    exact Nat.mul_lt_mul'' ha2 hb2

theorem productCarry_eq :
    productCarry w a b = decide (2 ^ (w * 2 + 1) ≤ productSignificandExt w a b) := by
  obtain ⟨-, h⟩ := productSignificandExt_mem ha hb
  rw [productCarry, Nat.testBit_eq_decide_div_mod_eq, decide_eq_decide]
  have hdiv : productSignificandExt w a b / 2 ^ (w * 2 + 1) < 2 := by
    apply Nat.div_lt_of_lt_mul
    rwa [← Nat.pow_succ]
  constructor
  · intro h1
    by_contra hlt
    rw [Nat.div_eq_of_lt (not_le.mp hlt)] at h1
    exact absurd h1 (by decide)
  · intro hle
    have := Nat.div_pos hle (Nat.two_pow_pos _)
    omega

/-- The normalized product with its leading one. -/
theorem productSignificandNorm_eq (hw : w ≠ 0) :
    2 ^ (w * 2 + 1) + productSignificandNorm w a b =
      if productCarry w a b then productSignificandExt w a b
      else 2 * productSignificandExt w a b := by
  obtain ⟨hlo, hhi⟩ := productSignificandExt_mem ha hb
  have hc := productCarry_eq ha hb
  have h1 : 2 ^ (w * 2 + 1) = 2 * 2 ^ (w * 2) := by rw [Nat.pow_succ']
  have h2 : 2 ^ (w * 2 + 2) = 4 * 2 ^ (w * 2) := by rw [Nat.pow_add, Nat.mul_comm]
  rw [productSignificandNorm]
  split_ifs with h
  · rw [hc, decide_eq_true_eq] at h
    rw [slice, Nat.pow_zero, Nat.div_one, Nat.sub_zero, Nat.mod_eq_sub_mod h,
      Nat.mod_eq_of_lt (by omega)]
    omega
  · rw [hc, decide_eq_true_eq, not_le] at h
    rw [slice, Nat.pow_zero, Nat.div_one, show w * 2 - 1 + 1 - 0 = w * 2 by omega,
      Nat.mod_eq_sub_mod hlo, Nat.mod_eq_of_lt (by omega), cat]
    omega

theorem productSignificandNorm_lt (hw : w ≠ 0) :
    productSignificandNorm w a b < 2 ^ (w * 2 + 1) := by
  obtain ⟨-, hhi⟩ := productSignificandExt_mem ha hb
  have hc := productCarry_eq ha hb
  have heq := productSignificandNorm_eq ha hb hw
  have h2 : 2 ^ (w * 2 + 2) = 2 * 2 ^ (w * 2 + 1) := by rw [Nat.pow_succ']
  split_ifs at heq with h
  · omega
  · rw [hc, decide_eq_true_eq, not_le] at h
    omega

end

/-- The exponent of an operand is a signed number of `w` bits. -/
def ExpFits (w : ℕ) (e : ℤ) : Prop := -2 ^ (w - 1) ≤ e ∧ e < 2 ^ (w - 1)

theorem productExpNorm_eq (hwe : we ≠ 0) (ha : ExpFits we a.exponent) (hb : ExpFits we b.exponent) :
    productExpNorm we w a b = a.exponent + b.exponent + (productCarry w a b).toNat := by
  obtain ⟨ha1, ha2⟩ := ha
  obtain ⟨hb1, hb2⟩ := hb
  have hc := Bool.toNat_le (productCarry w a b)
  have hpow : (2 : ℤ) ^ (we + 1) = 4 * 2 ^ (we - 1) := by
    rw [show we + 1 = we - 1 + 2 by omega, pow_add]
    ring
  rw [productExpNorm, productExp, wrap_eq (x := a.exponent + b.exponent) (by omega) (by omega)]
  exact wrap_eq (by omega) (by omega)

/-- The magnitude of the product. -/
theorem mag_mul (hw : w ≠ 0) (hwe : we ≠ 0) (ha : a.significand < 2 ^ w)
    (hb : b.significand < 2 ^ w)
    (hea : ExpFits we a.exponent) (heb : ExpFits we b.exponent) :
    (mul we w a b).2.mag (w * 2 + 1) = a.mag w * b.mag w := by
  have hsig : ((2 : ℚ) ^ (w * 2 + 1) + productSignificandNorm w a b) =
      (if productCarry w a b then productSignificandExt w a b
      else 2 * productSignificandExt w a b : ℕ) := by
    exact_mod_cast congrArg (Nat.cast (R := ℚ)) (productSignificandNorm_eq ha hb hw)
  have hext : (productSignificandExt w a b : ℚ) =
      (2 ^ w + a.significand) * (2 ^ w + b.significand) := by
    rw [productSignificandExt, cat, cat]
    push_cast
    ring
  have hexp : (2 : ℚ) ^ (a.exponent - w) * 2 ^ (b.exponent - w) =
      2 ^ (a.exponent + b.exponent - w * 2) := by
    rw [← zpow_add₀ two_ne_zero]
    congr 1
    ring
  have hrhs : a.mag w * b.mag w =
      productSignificandExt w a b * 2 ^ (a.exponent + b.exponent - w * 2) := by
    rw [Unpacked.mag, Unpacked.mag, hext, ← hexp]
    ring
  rw [hrhs]
  change ((2 : ℚ) ^ (w * 2 + 1) + productSignificandNorm w a b) *
    2 ^ (productExpNorm we w a b - (w * 2 + 1 : ℕ)) = _
  rw [hsig, productExpNorm_eq hwe hea heb]
  cases productCarry w a b with
  | true =>
      simp only [if_true, Bool.toNat_true]
      congr 2
      push_cast
      ring
  | false =>
      simp only [Bool.false_eq_true, if_false, Bool.toNat_false]
      push_cast
      rw [show a.exponent + b.exponent + 0 - ((w : ℤ) * 2 + 1) =
        a.exponent + b.exponent - w * 2 - 1 by ring, zpow_sub_one₀ two_ne_zero]
      ring

end MulUnit

namespace Unpacked

theorem frameUnit_mag {w : ℕ} {u : Unpacked} (hu : u.significand < 2 ^ w) :
    frameUnit w (u.mag w) = 2 ^ (u.exponent - w) := by rw [frameUnit, log_mag hu]

end Unpacked

/-! ## The sum in the frame -/

namespace AddUnit
variable {p : Widths} {a b : Unpacked}

/-- The widths that the adder is used with. -/
structure Fits (p : Widths) : Prop where
  outSig : p.outSigWidth ≤ p.inSigWidth
  two_le : 2 ≤ p.outSigWidth
  exp : p.inExpWidth ≠ 0
  outExp : p.outExpWidth = p.inExpWidth
  shift : p.inSigWidth + 1 < 2 ^ p.inExpWidth

theorem internalSigWidth_eq (hp : Fits p) : internalSigWidth p = p.inSigWidth :=
  Nat.max_eq_left hp.outSig

theorem significandExt_eq (hp : Fits p) (u : Unpacked) :
    significandExt p u = 2 ^ p.inSigWidth + u.significand := by
  rw [significandExt, internalSigWidth_eq hp, Nat.sub_self, cat, cat]
  omega

section Aligned
variable {w : ℕ} {big small : Unpacked} (hbig : big.significand < 2 ^ w)
  (hsmall : small.significand < 2 ^ w) (hle : small.mag w ≤ big.mag w)
include hbig hsmall hle

theorem exponent_le : small.exponent ≤ big.exponent := by
  by_contra h
  exact absurd hle (not_le.mpr ((Unpacked.mag_lt_mag_iff hbig hsmall).mpr (.inl (not_le.mp h))))

/-- The smaller operand in units of the frame of the larger one. -/
theorem mag_div_frameUnit :
    small.mag w / frameUnit w (big.mag w) =
      ((2 ^ w + small.significand : ℕ) : ℚ) / 2 ^ (big.exponent - small.exponent).toNat := by
  have hexp := exponent_le hbig hsmall hle
  have hpow : (2 : ℚ) ^ (big.exponent - w) =
      2 ^ (small.exponent - w) * 2 ^ (big.exponent - small.exponent).toNat := by
    rw [← zpow_natCast, ← zpow_add₀ two_ne_zero, Int.toNat_of_nonneg (by omega)]
    congr 1
    ring
  rw [Unpacked.frameUnit_mag hbig, Unpacked.mag, hpow, mul_comm (2 ^ (small.exponent - w) : ℚ),
    mul_div_mul_right _ _ (zpow_pos two_pos _).ne']
  push_cast
  rfl

theorem roundOdd_mag :
    roundOdd (small.mag w / frameUnit w (big.mag w)) =
      jamShift (2 ^ w + small.significand) (big.exponent - small.exponent).toNat := by
  rw [mag_div_frameUnit hbig hsmall hle, roundOdd_natCast_div]

theorem jamShift_le (hw : w ≠ 0) :
    jamShift (2 ^ w + small.significand) (big.exponent - small.exponent).toNat ≤
      2 ^ w + big.significand := by
  have hexp := exponent_le hbig hsmall hle
  rcases Nat.eq_zero_or_pos (big.exponent - small.exponent).toNat with h0 | hpos
  · have heq : small.exponent = big.exponent := by omega
    have hsig : small.significand ≤ big.significand := by
      by_contra hlt
      exact absurd hle (not_le.mpr ((Unpacked.mag_lt_mag_iff hbig hsmall).mpr
        (.inr ⟨heq.symm, not_le.mp hlt⟩)))
    rw [h0, jamShift_zero]
    omega
  · have hlt :
      jamShift (2 ^ w + small.significand) (big.exponent - small.exponent).toNat < 2 ^ w := by
      refine jamShift_lt (lt_of_lt_of_le ?_ (Nat.pow_le_pow_right two_pos
        (by omega : w + 1 ≤ w + (big.exponent - small.exponent).toNat))) hw
      rw [Nat.pow_succ]
      omega
    omega

end Aligned

section Sum
variable (hp : Fits p) (ha : a.significand < 2 ^ p.inSigWidth)
  (hb : b.significand < 2 ^ p.inSigWidth) (hea : MulUnit.ExpFits p.inExpWidth a.exponent)
  (heb : MulUnit.ExpFits p.inExpWidth b.exponent)
include hp hea heb

theorem exponentDifference_eq : exponentDifference p a b = a.exponent - b.exponent := by
  obtain ⟨ha1, ha2⟩ := hea
  obtain ⟨hb1, hb2⟩ := heb
  have hpow : (2 : ℤ) ^ (p.inExpWidth + 1) = 4 * 2 ^ (p.inExpWidth - 1) := by
    have := hp.exp
    rw [show p.inExpWidth + 1 = p.inExpWidth - 1 + 2 by omega, pow_add]
    ring
  exact wrap_eq (by omega) (by omega)

theorem negExponentDifference_eq : negExponentDifference p a b = b.exponent - a.exponent := by
  have h := exponentDifference_eq hp hea heb
  obtain ⟨ha1, ha2⟩ := hea
  obtain ⟨hb1, hb2⟩ := heb
  have hpow : (2 : ℤ) ^ (p.inExpWidth + 1) = 4 * 2 ^ (p.inExpWidth - 1) := by
    have := hp.exp
    rw [show p.inExpWidth + 1 = p.inExpWidth - 1 + 2 by omega, pow_add]
    ring
  rw [negExponentDifference, h, wrap_eq (by omega) (by omega)]
  ring

omit hea heb in
/-- A difference of exponents, as the shifters see it. -/
theorem bits_sub {x y : ℤ} (hx : MulUnit.ExpFits p.inExpWidth x)
    (hy : MulUnit.ExpFits p.inExpWidth y) (h : y ≤ x) :
    bits p.inExpWidth (x - y) = (x - y).toNat := by
  obtain ⟨hx1, hx2⟩ := hx
  obtain ⟨hy1, hy2⟩ := hy
  have hpow : (2 : ℤ) ^ p.inExpWidth = 2 * 2 ^ (p.inExpWidth - 1) := by
    have := hp.exp
    rw [← pow_succ', Nat.sub_add_cancel (by omega)]
  exact bits_eq (by omega) (by omega)

include ha hb

theorem swapOperand_iff :
    swapOperand p a b = true ↔ a.mag p.inSigWidth < b.mag p.inSigWidth := by
  rw [Unpacked.mag_lt_mag_iff ha hb, swapOperand, exponentDifference_eq hp hea heb]
  simp only [Bool.or_eq_true, Bool.and_eq_true, decide_eq_true_eq, beq_iff_eq, sub_neg, sub_eq_zero]

/-- The operands of the adder, by their magnitudes. -/
theorem exists_operands :
    ∃ big small : Unpacked, ((big = a ∧ small = b ∧ swapOperand p a b = false) ∨
        (big = b ∧ small = a ∧ swapOperand p a b = true)) ∧
      big.significand < 2 ^ p.inSigWidth ∧ small.significand < 2 ^ p.inSigWidth ∧
      small.mag p.inSigWidth ≤ big.mag p.inSigWidth ∧
      max (a.mag p.inSigWidth) (b.mag p.inSigWidth) = big.mag p.inSigWidth ∧
      min (a.mag p.inSigWidth) (b.mag p.inSigWidth) = small.mag p.inSigWidth ∧
      bigSignificandNorm p a b = 2 ^ p.inSigWidth + big.significand ∧
      smallSignificandNorm p a b =
        jamShift (2 ^ p.inSigWidth + small.significand) (big.exponent - small.exponent).toNat := by
  have hswap := swapOperand_iff hp ha hb hea heb
  have hext : ∀ u : Unpacked, u.significand < 2 ^ p.inSigWidth →
      2 ^ p.inSigWidth + u.significand < 2 ^ (p.inSigWidth + 1) := by
    intro u hu
    rw [Nat.pow_succ]
    omega
  cases hs : swapOperand p a b with
  | false =>
      have hle : b.mag p.inSigWidth ≤ a.mag p.inSigWidth := by
        rw [hs] at hswap
        exact not_lt.mp fun h => absurd (hswap.mpr h) (by decide)
      refine ⟨a, b, .inl ⟨rfl, rfl, rfl⟩, ha, hb, hle, max_eq_left hle, min_eq_right hle, ?_, ?_⟩
      · rw [bigSignificandNorm, hs, if_neg (by simp), significandExt_eq hp]
      · rw [smallSignificandNorm, hs, if_neg (by simp), bSignificandShifted,
          exponentDifference_eq hp hea heb, bits_sub hp hea heb (exponent_le ha hb hle),
          significandExt_eq hp, internalSigWidth_eq hp,
          rightShift_eq (by omega) hp.shift (hext b hb)]
  | true =>
      have hle : a.mag p.inSigWidth ≤ b.mag p.inSigWidth := (hswap.mp hs).le
      refine ⟨b, a, .inr ⟨rfl, rfl, rfl⟩, hb, ha, hle, max_eq_right hle, min_eq_left hle, ?_, ?_⟩
      · rw [bigSignificandNorm, hs, if_pos rfl, significandExt_eq hp]
      · rw [smallSignificandNorm, hs, if_pos rfl, aSignificandShifted,
          negExponentDifference_eq hp hea heb, bits_sub hp heb hea (exponent_le hb ha hle),
          significandExt_eq hp, internalSigWidth_eq hp,
          rightShift_eq (by omega) hp.shift (hext a ha)]

/-- The exponent of the larger operand. -/
theorem frameUnit_max :
    frameUnit p.inSigWidth (max (a.mag p.inSigWidth) (b.mag p.inSigWidth)) =
      2 ^ ((if swapOperand p a b then b.exponent else a.exponent) - p.inSigWidth) := by
  obtain ⟨big, small, hcase, hbig, -, -, hmax, -, -, -⟩ := exists_operands hp ha hb hea heb
  rw [hmax, Unpacked.frameUnit_mag hbig]
  rcases hcase with ⟨rfl, -, hs⟩ | ⟨rfl, -, hs⟩ <;> rw [hs] <;> rfl

/-- The wire `sum` does not wrap. -/
theorem sum_eq :
    smallSignificandNorm p a b ≤ bigSignificandNorm p a b ∧
      sum p a b < 2 ^ (p.inSigWidth + 2) ∧
      sum p a b = if substractMagnitude a b then
          bigSignificandNorm p a b - smallSignificandNorm p a b
        else bigSignificandNorm p a b + smallSignificandNorm p a b := by
  have hw : p.inSigWidth ≠ 0 := by
    have := hp.two_le
    have := hp.outSig
    omega
  obtain ⟨big, small, -, hbig, hsmall, hle, -, -, hB, hS⟩ := exists_operands hp ha hb hea heb
  have hJ := jamShift_le hbig hsmall hle hw
  have hlt : 2 ^ (p.inSigWidth + 2) = 4 * 2 ^ p.inSigWidth := by
    rw [Nat.pow_add, Nat.mul_comm]
  have hcast : ((2 : ℤ) ^ (p.inSigWidth + 2)) = ((2 ^ (p.inSigWidth + 2) : ℕ) : ℤ) := by
    push_cast
    rfl
  have hle' : smallSignificandNorm p a b ≤ bigSignificandNorm p a b := by rw [hB, hS]; exact hJ
  rw [sum, internalSigWidth_eq hp]
  refine ⟨hle', ?_, ?_⟩
  · split_ifs
    · rw [bits_eq (by omega) (by rw [hcast]; omega)]
      omega
    · exact Nat.mod_lt _ (Nat.two_pow_pos _)
  · split_ifs
    · rw [bits_eq (by omega) (by rw [hcast]; omega)]
      omega
    · exact Nat.mod_eq_of_lt (by omega)

/-- The wire `sum` is the sum in the frame of the larger operand. -/
theorem sum_mul_frameUnit :
    (sum p a b : ℚ) *
        frameUnit p.inSigWidth (max (a.mag p.inSigWidth) (b.mag p.inSigWidth)) =
      alignedSum p.inSigWidth (substractMagnitude a b) (a.mag p.inSigWidth)
        (b.mag p.inSigWidth) := by
  obtain ⟨hle, -, hsum⟩ := sum_eq hp ha hb hea heb
  obtain ⟨big, small, -, hbig, hsmall, hmag, hmax, hmin, hB, hS⟩ :=
    exists_operands hp ha hb hea heb
  have hpos := zpow_pos (two_pos : (0 : ℚ) < 2) (big.exponent - p.inSigWidth)
  have hbigmag : big.mag p.inSigWidth =
      bigSignificandNorm p a b * 2 ^ (big.exponent - p.inSigWidth) := by
    rw [hB, Unpacked.mag]
    push_cast
    rfl
  rw [alignedSum, hmax, hmin, roundOdd_mag hbig hsmall hmag, ← hS, Unpacked.frameUnit_mag hbig,
    hbigmag, hsum]
  split_ifs
  · rw [Nat.cast_sub hle]
    ring
  · push_cast
    ring

theorem sum_eq_zero_iff :
    sum p a b = 0 ↔ substractMagnitude a b = true ∧ a.mag p.inSigWidth = b.mag p.inSigWidth := by
  obtain ⟨hle, -, hsum⟩ := sum_eq hp ha hb hea heb
  obtain ⟨big, small, hcase, hbig, hsmall, hmag, -, -, hB, hS⟩ :=
    exists_operands hp ha hb hea heb
  have hpos := Nat.two_pow_pos p.inSigWidth
  have hw : p.inSigWidth ≠ 0 := by
    have := hp.two_le
    have := hp.outSig
    omega
  have heq : smallSignificandNorm p a b = bigSignificandNorm p a b ↔
      small.mag p.inSigWidth = big.mag p.inSigWidth := by
    have hexp := exponent_le hbig hsmall hmag
    constructor
    · intro h
      rw [hB, hS] at h
      have h0 : (big.exponent - small.exponent).toNat = 0 := by
        by_contra hne
        have hlt : jamShift (2 ^ p.inSigWidth + small.significand)
            (big.exponent - small.exponent).toNat < 2 ^ p.inSigWidth := by
          refine jamShift_lt (lt_of_lt_of_le ?_ (Nat.pow_le_pow_right two_pos
            (by omega : p.inSigWidth + 1 ≤
              p.inSigWidth + (big.exponent - small.exponent).toNat))) hw
          rw [Nat.pow_succ]
          omega
        omega
      rw [h0, jamShift_zero, Nat.add_left_cancel_iff] at h
      rw [Unpacked.mag, Unpacked.mag, h, show small.exponent = big.exponent by omega]
    · intro h
      refine le_antisymm hle ?_
      have hlt := (Unpacked.mag_lt_mag_iff hsmall hbig).not.mp (not_lt.mpr h.ge)
      push Not at hlt
      have he : small.exponent = big.exponent := by omega
      have hs := hlt.2 he
      rw [hB, hS, he, sub_self, Int.toNat_zero, jamShift_zero]
      omega
  have hmags : a.mag p.inSigWidth = b.mag p.inSigWidth ↔
      small.mag p.inSigWidth = big.mag p.inSigWidth := by
    rcases hcase with ⟨rfl, rfl, -⟩ | ⟨rfl, rfl, -⟩
    · exact eq_comm
    · exact Iff.rfl
  have hbigpos : 0 < bigSignificandNorm p a b := by omega
  rw [hmags, ← heq, hsum]
  cases substractMagnitude a b with
  | true =>
      rw [if_pos rfl, and_iff_right rfl]
      omega
  | false =>
      simp only [Bool.false_eq_true, if_false, false_and, iff_false]
      omega

end Sum

end AddUnit

end Muntjac.Fpu

import Muntjac.Ieee.RoundNat
import Muntjac.Sync.Bits
import Mathlib.Data.Int.Log

/-!
# Binary interchange formats

A format is given by the widths of its exponent and of its trailing significand.  A
positive number is rounded to a multiple of the unit in its last place, which does not
get smaller below the smallest normal number; what is larger than the largest finite
number overflows.  The numbers live in any ordered field with a floor, so that exact
results may be rational or real.

## Main definitions

* `Format.round` — the encoding and the flags of a rounded number.
* `Format.Datum`, `Format.decode` — what an encoding stands for.
* `Format.deliver` — the encoding and the flags of the outcome of an operation.
-/

namespace Muntjac.Ieee

open Sync

/-- The widths of the exponent and of the trailing significand. -/
structure Format where
  expWidth : ℕ
  sigWidth : ℕ
  two_le_expWidth : 2 ≤ expWidth
  two_le_sigWidth : 2 ≤ sigWidth
  deriving DecidableEq

structure Flags where
  invalidOperation : Bool := false
  divideByZero : Bool := false
  overflow : Bool := false
  underflow : Bool := false
  inexact : Bool := false
  deriving DecidableEq, Repr

namespace Format
variable (f : Format)

def width : ℕ := f.expWidth + f.sigWidth + 1
def bias : ℤ := 2 ^ (f.expWidth - 1) - 1
def minExp : ℤ := 1 - f.bias
def maxExp : ℤ := 2 ^ f.expWidth - 2 - f.bias

theorem two_pow_expWidth : (2 : ℤ) ^ f.expWidth = 2 * f.bias + 2 := by
  have h := f.two_le_expWidth
  have hp : (2 : ℤ) ^ f.expWidth = 2 * 2 ^ (f.expWidth - 1) := by
    rw [← pow_succ', Nat.sub_add_cancel (by omega)]
  rw [hp, bias]
  ring

theorem maxExp_eq : f.maxExp = f.bias := by
  rw [maxExp, two_pow_expWidth]
  ring

theorem one_le_bias : 1 ≤ f.bias := by
  have h := f.two_le_expWidth
  have hp : (2 : ℤ) ^ 1 ≤ 2 ^ (f.expWidth - 1) :=
    pow_le_pow_right₀ (by norm_num) (by omega)
  rw [bias]
  omega

/-- The word with the given fields. -/
def pack (neg : Bool) (exponent significand : ℕ) : ℕ :=
  cat (cat neg.toNat f.expWidth exponent) f.sigWidth significand

/-- The encoding of infinity. -/
def infinity (neg : Bool) : ℕ := f.pack neg (2 ^ f.expWidth - 1) 0

/-- The encoding of the largest finite number. -/
def largest (neg : Bool) : ℕ := f.pack neg (2 ^ f.expWidth - 2) (2 ^ f.sigWidth - 1)

/-- The canonical quiet NaN. -/
def canonicalNan : ℕ := f.pack false (2 ^ f.expWidth - 1) (2 ^ (f.sigWidth - 1))

/-- The encoding of `n` units in the last place of the binade of exponent `e`; `n` without
its leading bit is subnormal. -/
def finite (neg : Bool) (e : ℤ) (n : ℕ) : ℕ :=
  if n < 2 ^ f.sigWidth then f.pack neg 0 n
  else f.pack neg (e + f.bias).toNat (n - 2 ^ f.sigWidth)

/-! ## Rounding -/

/-- Whether overflow delivers infinity and not the largest finite number. -/
def overflowsToInf (rm : RoundingMode) (neg : Bool) : Bool :=
  match rm with
  | .tiesToEven | .tiesToAway => true
  | .towardZero => false
  | .towardNegative => neg
  | .towardPositive => !neg

section Round
variable {K : Type*} [Field K] [LinearOrder K] [FloorSemiring K]

/-- The exponent of the binade of `x`, where the subnormal numbers share the lowest one. -/
def binade (x : K) : ℤ := max f.minExp (Int.log 2 x)

/-- The unit in the last place of the numbers next to `x`. -/
def ulp (x : K) : K := 2 ^ (f.binade x - f.sigWidth)

/-- The rounded magnitude in units in the last place. -/
def roundSig (rm : RoundingMode) (neg : Bool) (x : K) : ℕ := roundNat rm neg (x / f.ulp x)

/-- The encoding and the flags of the positive magnitude `x` with a sign.  Tininess is
detected before rounding. -/
def round (rm : RoundingMode) (neg : Bool) (x : K) : ℕ × Flags :=
  let n := f.roundSig rm neg x
  let carry := n == 2 ^ (f.sigWidth + 1)
  let e := if carry then f.binade x + 1 else f.binade x
  let inexact := decide (x ≠ n * f.ulp x)
  if f.maxExp < e then
    (if overflowsToInf rm neg then f.infinity neg else f.largest neg,
      { overflow := true, inexact := true })
  else
    (f.finite neg e (if carry then 2 ^ f.sigWidth else n),
      { underflow := inexact && decide (x < 2 ^ f.minExp), inexact := inexact })

section Binade
variable [IsStrictOrderedRing K] {x : K} {e : ℤ}

theorem log_eq (hlo : (2 : K) ^ e ≤ x) (hhi : x < 2 ^ (e + 1)) : Int.log 2 x = e := by
  have hx : 0 < x := (zpow_pos two_pos e).trans_le hlo
  have h1 : e ≤ Int.log 2 x := (Int.zpow_le_iff_le_log one_lt_two hx).mp (by exact_mod_cast hlo)
  have h2 : Int.log 2 x < e + 1 := (Int.lt_zpow_iff_log_lt one_lt_two hx).mp (by exact_mod_cast hhi)
  omega

theorem binade_eq (hlo : (2 : K) ^ e ≤ x) (hhi : x < 2 ^ (e + 1)) :
    f.binade x = max f.minExp e := by
  rw [binade, log_eq hlo hhi]

/-- A sticky significand with its leading one has the exponent of its number. -/
theorem Sticky.mem_binade {w s : ℕ} (hw : w ≠ 0) (hs : s < 2 ^ w)
    (h : Sticky (x / 2 ^ (e - w)) (2 ^ w + s)) : 2 ^ e ≤ x ∧ x < 2 ^ (e + 1) := by
  have heven : 2 ^ w % 2 = 0 := by
    rw [show w = w - 1 + 1 by omega, Nat.pow_succ]
    omega
  have hpos : (0 : K) < 2 ^ (e - w) := zpow_pos two_pos _
  have hlo := (h.le_iff heven).mpr (by omega)
  have hhi := (h.lt_iff (b := 2 * 2 ^ w) (by omega)).mpr (by omega)
  push_cast at hlo hhi
  rw [le_div_iff₀ hpos, ← zpow_natCast, ← zpow_add₀ two_ne_zero] at hlo
  rw [div_lt_iff₀ hpos, mul_assoc, ← zpow_natCast, ← zpow_add₀ two_ne_zero,
    ← zpow_one_add₀ two_ne_zero] at hhi
  have h1 : (w : ℤ) + (e - w) = e := by ring
  have h2 : 1 + ((w : ℤ) + (e - w)) = e + 1 := by ring
  rw [h1] at hlo
  rw [h2] at hhi
  exact ⟨hlo, hhi⟩

theorem ulp_pos (x : K) : 0 < f.ulp x := zpow_pos two_pos _

end Binade

end Round

/-! ## Encodings -/

/-- What an encoding stands for: a NaN, which may be signaling, an infinity, or a finite
number with a sign and a magnitude. -/
inductive Datum
  | nan (signaling : Bool)
  | inf (neg : Bool)
  | finite (neg : Bool) (mag : ℚ)
  deriving DecidableEq, Repr

/-- The sign bit. -/
def sign (b : ℕ) : Bool := b.testBit (f.expWidth + f.sigWidth)

/-- The exponent field. -/
def exponent (b : ℕ) : ℕ := b / 2 ^ f.sigWidth % 2 ^ f.expWidth

/-- The trailing significand. -/
def significand (b : ℕ) : ℕ := b % 2 ^ f.sigWidth

/-- The magnitude of a finite encoding. -/
def magnitude {K : Type*} [Field K] (b : ℕ) : K :=
  if f.exponent b = 0 then f.significand b * 2 ^ (f.minExp - f.sigWidth)
  else (2 ^ f.sigWidth + f.significand b) * 2 ^ (f.exponent b - f.bias - f.sigWidth)

theorem magnitude_eq_zero {K : Type*} [Field K] [LinearOrder K] [IsStrictOrderedRing K] (b : ℕ) :
    (f.magnitude b : K) = 0 ↔ f.exponent b = 0 ∧ f.significand b = 0 := by
  rw [magnitude]
  split_ifs with h0
  · rw [mul_eq_zero, or_iff_left (zpow_pos two_pos _).ne', Nat.cast_eq_zero]
    exact ⟨fun h => ⟨h0, h⟩, fun h => h.2⟩
  · have hpos : (0 : K) < (2 ^ f.sigWidth + f.significand b) *
        2 ^ ((f.exponent b : ℤ) - f.bias - f.sigWidth) :=
      mul_pos (add_pos_of_pos_of_nonneg (pow_pos two_pos _) (Nat.cast_nonneg _))
        (zpow_pos two_pos _)
    exact ⟨fun h => absurd h hpos.ne', fun h => absurd h.1 h0⟩

/-- A finite number is below the first power of two that overflows. -/
theorem magnitude_lt {K : Type*} [Field K] [LinearOrder K] [IsStrictOrderedRing K] {b : ℕ}
    (h : f.exponent b ≠ 2 ^ f.expWidth - 1) : (f.magnitude b : K) < 2 ^ (f.maxExp + 1) := by
  have hpow := f.two_pow_expWidth
  have hmax := f.maxExp_eq
  have hbias := f.one_le_bias
  have hexp : f.exponent b < 2 ^ f.expWidth := Nat.mod_lt _ (Nat.two_pow_pos _)
  have hle : (f.exponent b : ℤ) ≤ 2 * f.bias := by
    zify at hexp
    have h' : (f.exponent b : ℤ) ≠ 2 ^ f.expWidth - 1 := by
      intro he
      apply h
      zify [Nat.one_le_two_pow]
      exact he
    omega
  have hsig : (f.significand b : K) < 2 ^ (f.sigWidth : ℤ) := by
    have hlt : f.significand b < 2 ^ f.sigWidth := Nat.mod_lt _ (Nat.two_pow_pos _)
    rw [zpow_natCast]
    exact_mod_cast hlt
  rw [magnitude]
  split_ifs with h0
  · calc (f.significand b : K) * 2 ^ (f.minExp - f.sigWidth)
        < 2 ^ (f.sigWidth : ℤ) * 2 ^ (f.minExp - f.sigWidth) :=
          mul_lt_mul_of_pos_right hsig (zpow_pos two_pos _)
      _ = 2 ^ f.minExp := by
          rw [← zpow_add₀ two_ne_zero]
          congr 1
          ring
      _ ≤ 2 ^ (f.maxExp + 1) := zpow_le_zpow_right₀ one_le_two (by
          rw [minExp]
          omega)
  · calc ((2 : K) ^ f.sigWidth + f.significand b) * 2 ^ ((f.exponent b : ℤ) - f.bias - f.sigWidth)
        < 2 ^ ((f.sigWidth : ℤ) + 1) * 2 ^ ((f.exponent b : ℤ) - f.bias - f.sigWidth) := by
          refine mul_lt_mul_of_pos_right ?_ (zpow_pos two_pos _)
          rw [zpow_add_one₀ two_ne_zero]
          rw [zpow_natCast] at hsig ⊢
          linarith
      _ = 2 ^ ((f.exponent b : ℤ) - f.bias + 1) := by
          rw [← zpow_add₀ two_ne_zero]
          congr 1
          ring
      _ ≤ 2 ^ (f.maxExp + 1) := zpow_le_zpow_right₀ one_le_two (by omega)

def decode (b : ℕ) : Datum :=
  if f.exponent b = 2 ^ f.expWidth - 1 then
    if f.significand b = 0 then .inf (f.sign b)
    else .nan (!b.testBit (f.sigWidth - 1))
  else .finite (f.sign b) (f.magnitude b)

/-! ## Outcomes -/

/-- The outcome of an operation before rounding. -/
inductive Outcome (K : Type*)
  | nan (invalid : Bool)
  | inf (neg divideByZero : Bool)
  | zero (neg : Bool)
  | number (neg : Bool) (x : K)

/-- The outcome with another number, if it is a number. -/
def Outcome.withNumber {K : Type*} (y : K) : Outcome K → Outcome K
  | .number neg _ => .number neg y
  | o => o

/-- The number of the outcome; zero if it is none. -/
def Outcome.value {K : Type*} [Zero K] : Outcome K → K
  | .number _ x => x
  | _ => 0

theorem Outcome.withNumber_value {K : Type*} [Zero K] (o : Outcome K) :
    o.withNumber o.value = o := by
  cases o <;> rfl

section Deliver
variable {K : Type*} [Field K] [LinearOrder K] [FloorSemiring K]

/-- The encoding and the flags of an outcome. -/
def deliver (rm : RoundingMode) : Outcome K → ℕ × Flags
  | .nan invalid => (f.canonicalNan, { invalidOperation := invalid })
  | .inf neg divideByZero => (f.infinity neg, { divideByZero := divideByZero })
  | .zero neg => (f.pack neg 0 0, {})
  | .number neg x => f.round rm neg x

end Deliver

end Format

end Muntjac.Ieee

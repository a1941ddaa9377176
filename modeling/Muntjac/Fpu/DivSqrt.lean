import Muntjac.Fpu.Normalize
import Muntjac.Fpu.Round
import Muntjac.Ieee.DigitRecurrence
import Muntjac.Ieee.Quotient

/-!
# Division and square root

`muntjac_fpu_div_sqrt`: one datapath with a trial subtraction for both operations, which
finds one bit of the quotient or of the root in every cycle.

## Main results

* `DivSqrt.computing_compute` — a cycle keeps the invariant of the recurrence.
-/

namespace Muntjac.Fpu

open Sync Ieee

/-- `state_e` of `muntjac_fpu_div_sqrt`. -/
inductive DivState
  | idle
  | compute
  | output
  deriving DecidableEq, Repr

structure DivSqrt where
  state : DivState
  sqrt : Bool
  bSignificand : ℕ
  exception : Bool
  quotientSign : Bool
  quotientExponent : ℤ
  quotientIsZero : Bool
  quotientIsInf : Bool
  quotientIsNan : Bool
  quotient : ℕ
  remainder : ℕ
  bit : ℕ
  deriving DecidableEq, Repr

namespace DivSqrt

def reset : DivSqrt := ⟨.idle, false, 0, false, false, 0, false, false, false, 0, 0, 0⟩

section Special
variable (w : ℕ) (a b : Unpacked)

def invalidOperationDiv : Bool :=
  (a.isSignaling w || b.isSignaling w) || (a.isInf && b.isInf) || (a.isZero && b.isZero)

def invalidOperationSqrt : Bool := a.isSignaling w || (!a.isNan && !a.isZero && a.sign)

def divideByZero : Bool := !a.isNan && !a.isInf && !a.isZero && b.isZero

/-- Whether the recurrence is skipped. -/
def special (sqrt : Bool) : Bool :=
  (a.isNan || a.isInf || a.isZero) ||
    if sqrt then a.sign else b.isNan || b.isInf || b.isZero

end Special

variable (p : Widths)

/-- `StateIdle` with a request. -/
def accept (sqrt : Bool) (a b : Unpacked) : DivSqrt :=
  let less := decide (a.significand < b.significand)
  { state := if special a b sqrt then .output else .compute
    sqrt := sqrt
    bSignificand := b.significand
    exception :=
      if sqrt then invalidOperationSqrt p.inSigWidth a
      else invalidOperationDiv p.inSigWidth a b || divideByZero a b
    quotientSign := if sqrt then a.sign else a.sign ^^ b.sign
    quotientExponent :=
      if sqrt then a.exponent / 2
      else wrap p.outExpWidth (a.exponent - b.exponent - less.toNat)
    quotientIsZero := if sqrt then a.isZero else a.isZero || b.isInf
    quotientIsInf := if sqrt then a.isInf else a.isInf || b.isZero
    quotientIsNan :=
      if sqrt then a.isNan || invalidOperationSqrt p.inSigWidth a
      else a.isNan || b.isNan || invalidOperationDiv p.inSigWidth a b
    quotient := 0
    remainder :=
      if (if sqrt then a.exponent % 2 == 1 else less) then
        cat (cat 1 p.inSigWidth a.significand) (p.outSigWidth - p.inSigWidth) 0
      else cat (cat 1 p.inSigWidth a.significand) (p.outSigWidth - p.inSigWidth - 1) 0
    bit := 2 ^ (p.outSigWidth - 1) }

variable (s : DivSqrt)

/-- A wire of `OutSigWidth + 1` bits. -/
def subtrahend : ℕ :=
  if s.sqrt then cat s.quotient 1 0 ||| s.bit
  else cat (cat 1 p.inSigWidth s.bSignificand) (p.outSigWidth - p.inSigWidth - 1) 0

/-- A signed wire of `OutSigWidth + 2` bits. -/
def difference : ℤ := wrap (p.outSigWidth + 2) (s.remainder - subtrahend p s)

/-- `StateCompute`. -/
def compute : DivSqrt :=
  { s with
    state := if s.bit.testBit 0 then .output else s.state
    remainder :=
      if 0 ≤ difference p s then
        cat (slice (bits (p.outSigWidth + 2) (difference p s)) p.outSigWidth 0) 1 0
      else cat (slice s.remainder p.outSigWidth 0) 1 0
    quotient := if 0 ≤ difference p s then s.quotient ||| s.bit else s.quotient
    bit := s.bit / 2 }

def step (reqValid sqrt : Bool) (a b : Unpacked) : DivSqrt :=
  match s.state with
  | .idle => if reqValid then accept p sqrt a b else s
  | .compute => compute p s
  | .output => { s with state := .idle }

/-- `resp_valid_o`. -/
def respValid : Bool := s.state == .output

def respInvalidOperation : Bool := s.exception && s.quotientIsNan
def respDivideByZero : Bool := s.exception && !s.quotientIsNan

def resp : Unpacked where
  sign := s.quotientSign
  exponent := s.quotientExponent
  significand := cat (slice s.quotient (p.outSigWidth - 2) 0) 1 (s.remainder != 0).toNat
  isZero := s.quotientIsZero
  isInf := s.quotientIsInf
  isNan := s.quotientIsNan

/-! ## The recurrence -/

/-- The divisor as the trial subtraction sees it. -/
def divisor : ℕ := (2 ^ p.inSigWidth + s.bSignificand) * 2 ^ (p.outSigWidth - p.inSigWidth - 1)

/-- After `k` cycles the registers hold the first `k` digits of the result for the initial
remainder `r₀`. -/
structure Computing (r₀ k : ℕ) : Prop where
  le : k ≤ p.outSigWidth
  divisor_lt : s.bSignificand < 2 ^ p.inSigWidth
  bit : s.bit = 2 ^ (p.outSigWidth - k) / 2
  fits : s.quotient + 2 ^ (p.outSigWidth - k) ≤ 2 ^ p.outSigWidth
  digits : if s.sqrt then
      RootState (r₀ * 2 ^ (p.outSigWidth - 1)) (2 ^ (p.outSigWidth - k)) s.quotient s.remainder
    else DivisionState (r₀ * 2 ^ (p.outSigWidth - 1)) (divisor p s)
      (2 ^ (p.outSigWidth - k)) s.quotient s.remainder

section Recurrence
variable {p : Widths} {s : DivSqrt} {r₀ k : ℕ} (hw : p.inSigWidth < p.outSigWidth)
include hw

theorem divisor_lt_two_pow (hb : s.bSignificand < 2 ^ p.inSigWidth) :
    divisor p s < 2 ^ p.outSigWidth := by
  have h : 2 ^ p.outSigWidth = 2 * 2 ^ p.inSigWidth * 2 ^ (p.outSigWidth - p.inSigWidth - 1) := by
    rw [← Nat.pow_succ', ← Nat.pow_add]
    congr 1
    omega
  rw [divisor, h]
  exact Nat.mul_lt_mul_of_pos_right (by omega) (Nat.two_pow_pos _)

/-- What is left fits its register. -/
theorem Computing.remainder_lt (h : Computing p s r₀ k) :
    s.remainder < 2 ^ (p.outSigWidth + 2) := by
  have hpow : 2 ^ (p.outSigWidth + 2) = 4 * 2 ^ p.outSigWidth := by rw [Nat.pow_add, Nat.mul_comm]
  have hpos := Nat.two_pow_pos (p.outSigWidth - k)
  have hfits := h.fits
  have hd := h.digits
  split_ifs at hd
  · have := hd.lt
    omega
  · have := hd.lt
    have := divisor_lt_two_pow hw h.divisor_lt
    omega

section Step
variable (h : Computing p s r₀ k) (hk : k < p.outSigWidth)
include h hk

omit hw in
theorem Computing.two_mul_bit : 2 ^ (p.outSigWidth - k) = 2 * s.bit := by
  rw [h.bit, show p.outSigWidth - k = p.outSigWidth - k - 1 + 1 by omega, Nat.pow_succ]
  omega

omit hw in
theorem Computing.bit_eq : s.bit = 2 ^ (p.outSigWidth - (k + 1)) := by
  have := h.two_mul_bit hk
  rw [show p.outSigWidth - k = p.outSigWidth - (k + 1) + 1 by omega, Nat.pow_succ] at this
  omega

omit hw in
/-- The next bit of the quotient is free. -/
theorem Computing.or_bit : s.quotient ||| s.bit = s.quotient + s.bit := by
  have hdvd : 2 * s.bit ∣ s.quotient := by
    rw [← h.two_mul_bit hk]
    have hd := h.digits
    split_ifs at hd
    · exact hd.dvd
    · exact hd.dvd
  obtain ⟨q, hq⟩ := hdvd
  have hbit := h.bit_eq hk
  have hq' : s.quotient = 2 ^ (p.outSigWidth - (k + 1) + 1) * q := by
    rw [hq, hbit, Nat.pow_succ']
  rw [hq', hbit]
  exact (Nat.two_pow_add_eq_or_of_lt (Nat.pow_lt_pow_right one_lt_two (Nat.lt_succ_self _)) q).symm

omit hw in
theorem Computing.subtrahend_eq :
    subtrahend p s = if s.sqrt then 2 * s.quotient + s.bit else divisor p s := by
  have hbit := h.bit_eq hk
  rw [subtrahend]
  split_ifs with hs
  · have hd := h.digits
    rw [if_pos hs] at hd
    obtain ⟨q, hq⟩ := hd.dvd
    have hpow : 2 ^ (p.outSigWidth - k) = 2 ^ (p.outSigWidth - (k + 1) + 1) := by
      congr 1
      omega
    have hq' : cat s.quotient 1 0 = 2 ^ (p.outSigWidth - (k + 1) + 2) * q := by
      rw [hq, hpow, cat, Nat.pow_succ 2 (p.outSigWidth - (k + 1) + 1)]
      ring
    rw [hq', hbit, ← Nat.two_pow_add_eq_or_of_lt
      (Nat.pow_lt_pow_right one_lt_two (by omega)) q, ← hq', cat]
    ring
  · rw [divisor, cat, cat]
    ring

theorem Computing.subtrahend_lt : subtrahend p s < 2 ^ (p.outSigWidth + 1) := by
  have hfits := h.fits
  have hbit := h.two_mul_bit hk
  have hpos := Nat.two_pow_pos (p.outSigWidth - k)
  have hb := divisor_lt_two_pow hw h.divisor_lt
  rw [h.subtrahend_eq hk, Nat.pow_succ]
  split_ifs <;> omega

/-- The trial difference fits its register. -/
theorem Computing.difference_range :
    -2 ^ (p.outSigWidth + 1) ≤ (s.remainder : ℤ) - subtrahend p s ∧
      (s.remainder : ℤ) - subtrahend p s < 2 ^ (p.outSigWidth + 1) := by
  have hpow : (2 : ℤ) ^ (p.outSigWidth + 1) = 2 * (2 ^ p.outSigWidth : ℕ) := by
    rw [pow_succ']
    push_cast
    rfl
  have hfits := h.fits
  have hbit := h.two_mul_bit hk
  have hd := h.digits
  rw [h.subtrahend_eq hk, hpow]
  split_ifs at hd ⊢
  · have := hd.lt
    omega
  · have := hd.lt
    have := divisor_lt_two_pow hw h.divisor_lt
    omega

theorem Computing.difference_eq : difference p s = s.remainder - subtrahend p s := by
  obtain ⟨hlo, hhi⟩ := h.difference_range hw hk
  have hpow : (2 : ℤ) ^ (p.outSigWidth + 2) = 2 * 2 ^ (p.outSigWidth + 1) := pow_succ' _ _
  exact wrap_eq (by omega) (by omega)

theorem Computing.nonneg_iff : 0 ≤ difference p s ↔ subtrahend p s ≤ s.remainder := by
  rw [h.difference_eq hw hk]
  omega

theorem Computing.remainder_compute :
    (compute p s).remainder = if subtrahend p s ≤ s.remainder then
      2 * (s.remainder - subtrahend p s) else 2 * s.remainder := by
  obtain ⟨hlo, hhi⟩ := h.difference_range hw hk
  have hcast : (2 : ℤ) ^ (p.outSigWidth + 1) = (2 ^ (p.outSigWidth + 1) : ℕ) := by push_cast; rfl
  have hpow : (2 : ℤ) ^ (p.outSigWidth + 2) = 2 * 2 ^ (p.outSigWidth + 1) := pow_succ' _ _
  have hslice : ∀ n, n < 2 ^ (p.outSigWidth + 1) →
      cat (slice n p.outSigWidth 0) 1 0 = 2 * n := by
    intro n hn
    rw [slice, Nat.pow_zero, Nat.div_one, Nat.sub_zero, Nat.mod_eq_of_lt hn, cat]
    omega
  simp only [compute, h.nonneg_iff hw hk]
  split_ifs with hle
  · rw [h.difference_eq hw hk, bits_eq (by omega) (by omega), hslice _ (by omega)]
    omega
  · have := h.subtrahend_lt hw hk
    exact hslice _ (by omega)

/-- A cycle finds the next digit. -/
theorem computing_compute : Computing p (compute p s) r₀ (k + 1) := by
  have hbit := h.bit_eq hk
  have h2 := h.two_mul_bit hk
  have hfits := h.fits
  have hd := h.digits
  have hsub := h.subtrahend_eq hk
  have hquot : (compute p s).quotient =
      if subtrahend p s ≤ s.remainder then s.quotient + s.bit else s.quotient := by
    simp only [compute, h.nonneg_iff hw hk, h.or_bit hk]
  refine ⟨hk, h.divisor_lt, ?_, ?_, ?_⟩
  · change s.bit / 2 = _
    rw [hbit]
  · rw [hquot, ← hbit]
    split_ifs <;> omega
  · change if s.sqrt then _ else DivisionState _ (divisor p s) _ _ _
    rw [hquot, h.remainder_compute hw hk, ← hbit]
    rw [h2] at hd
    split_ifs at hd hsub ⊢ with hs hle
    · have hstep := hd.step
      rw [← hsub, if_pos hle] at hstep
      exact hstep
    · have hstep := hd.step
      rw [← hsub, if_neg hle] at hstep
      exact hstep
    · have hstep := hd.step
      rw [← hsub, if_pos ‹_›] at hstep
      rw [← hsub]
      exact hstep
    · have hstep := hd.step
      rw [← hsub, if_neg ‹_›] at hstep
      rw [← hsub]
      exact hstep

end Step

omit hw in
/-- The datapath leaves the state of the recurrence after the last bit. -/
theorem Computing.state_compute (h : Computing p s r₀ k) (hk : k < p.outSigWidth) :
    (compute p s).state = if k + 1 = p.outSigWidth then .output else s.state := by
  have hbit := h.bit_eq hk
  have htest : s.bit.testBit 0 = decide (k + 1 = p.outSigWidth) := by
    rw [hbit, Nat.testBit_two_pow, decide_eq_decide]
    omega
  simp only [compute, htest, decide_eq_true_eq]

/-! ## From the operands to the result -/

variable {a b : Unpacked} {sqrt : Bool}

/-- The operands are finite numbers for the recurrence. -/
structure Numbers (p : Widths) (sqrt : Bool) (a b : Unpacked) : Prop where
  special : special a b sqrt = false
  a_lt : a.significand < 2 ^ p.inSigWidth
  b_lt : b.significand < 2 ^ p.inSigWidth

/-- The significand of the dividend or of the radicand in the initial remainder. -/
def doubled (sqrt : Bool) (a b : Unpacked) : Bool :=
  if sqrt then a.exponent % 2 == 1 else decide (a.significand < b.significand)

theorem remainder_accept (sqrt : Bool) (a b : Unpacked) :
    (accept p sqrt a b).remainder = (2 ^ p.inSigWidth + a.significand) *
      2 ^ (p.outSigWidth - p.inSigWidth - 1) * 2 ^ (doubled sqrt a b).toNat := by
  have hpow : 2 ^ (p.outSigWidth - p.inSigWidth) = 2 ^ (p.outSigWidth - p.inSigWidth - 1) * 2 := by
    rw [← Nat.pow_succ]
    congr 1
    omega
  have hrem : (accept p sqrt a b).remainder = if doubled sqrt a b then
      cat (cat 1 p.inSigWidth a.significand) (p.outSigWidth - p.inSigWidth) 0
      else cat (cat 1 p.inSigWidth a.significand) (p.outSigWidth - p.inSigWidth - 1) 0 := rfl
  rw [hrem]
  cases doubled sqrt a b with
  | true =>
      simp only [if_true, cat, hpow, Bool.toNat_true]
      ring
  | false =>
      simp only [Bool.false_eq_true, if_false, cat, Bool.toNat_false]
      ring

/-- The registers after a request. -/
theorem computing_accept (h : Numbers p sqrt a b) :
    Computing p (accept p sqrt a b) (accept p sqrt a b).remainder 0 := by
  have ha := h.a_lt
  have hb := h.b_lt
  have hrem := remainder_accept hw sqrt a b
  have hpow : 2 ^ p.outSigWidth = 2 * 2 ^ (p.outSigWidth - 1) := by
    rw [← Nat.pow_succ', Nat.succ_eq_add_one]
    congr 1
    omega
  have hpow' : 2 ^ p.outSigWidth =
      2 * 2 ^ p.inSigWidth * 2 ^ (p.outSigWidth - p.inSigWidth - 1) := by
    rw [← Nat.pow_succ', ← Nat.pow_add]
    congr 1
    omega
  have hd := Bool.toNat_le (doubled sqrt a b)
  refine ⟨Nat.zero_le _, hb, ?_, ?_, ?_⟩
  · rw [Nat.sub_zero, hpow]
    change 2 ^ (p.outSigWidth - 1) = _
    omega
  · rw [Nat.sub_zero]
    exact (Nat.zero_add _).le
  · rw [Nat.sub_zero]
    change if sqrt then RootState _ _ 0 _ else DivisionState _ _ _ 0 _
    have heq : (accept p sqrt a b).remainder * 2 ^ p.outSigWidth =
        2 * ((accept p sqrt a b).remainder * 2 ^ (p.outSigWidth - 1)) := by
      rw [hpow]
      ring
    have hX := Nat.two_pow_pos (p.outSigWidth - p.inSigWidth - 1)
    cases sqrt with
    | true =>
        refine ⟨dvd_zero _, by omega, ?_⟩
        have hlt : (2 ^ p.inSigWidth + a.significand) * 2 ^ (p.outSigWidth - p.inSigWidth - 1) <
            2 ^ p.outSigWidth := hpow' ▸ Nat.mul_lt_mul_of_pos_right (by omega) hX
        rw [hrem]
        cases doubled true a b <;> simp only [Bool.toNat_true, Bool.toNat_false] <;> omega
    | false =>
        refine ⟨dvd_zero _, by omega, ?_⟩
        change _ < 2 * ((2 ^ p.inSigWidth + b.significand) *
          2 ^ (p.outSigWidth - p.inSigWidth - 1))
        have hdbl : doubled false a b = decide (a.significand < b.significand) := rfl
        have hlt : (2 ^ p.inSigWidth + a.significand) * 2 ^ (doubled false a b).toNat <
            2 * (2 ^ p.inSigWidth + b.significand) := by
          rw [hdbl]
          by_cases hab : a.significand < b.significand
          · simp only [hab, decide_true, Bool.toNat_true]
            omega
          · simp only [hab, decide_false, Bool.toNat_false]
            omega
        calc (accept p false a b).remainder
            = (2 ^ p.inSigWidth + a.significand) * 2 ^ (doubled false a b).toNat *
                2 ^ (p.outSigWidth - p.inSigWidth - 1) := by
              rw [hrem]
              ring
          _ < 2 * (2 ^ p.inSigWidth + b.significand) *
                2 ^ (p.outSigWidth - p.inSigWidth - 1) := Nat.mul_lt_mul_of_pos_right hlt hX
          _ = _ := Nat.mul_assoc _ _ _

/-- The registers after `k` cycles of the recurrence. -/
theorem computing_iterate (h : Numbers p sqrt a b) {k : ℕ} (hk : k ≤ p.outSigWidth) :
    Computing p ((compute p)^[k] (accept p sqrt a b)) (accept p sqrt a b).remainder k := by
  induction k with
  | zero => exact computing_accept hw h
  | succ k ih =>
      rw [Function.iterate_succ_apply']
      exact computing_compute hw (ih (by omega)) (by omega)

theorem state_iterate (h : Numbers p sqrt a b) {k : ℕ} (hk : k ≤ p.outSigWidth) :
    ((compute p)^[k] (accept p sqrt a b)).state =
      if k = p.outSigWidth then .output else .compute := by
  induction k with
  | zero =>
      change (if special a b sqrt then _ else _) = _
      rw [h.special, if_neg (by decide), if_neg (by omega)]
  | succ k ih =>
      rw [Function.iterate_succ_apply',
        (computing_iterate hw h (by omega)).state_compute (by omega), ih (by omega)]
      rw [if_neg (show ¬k = p.outSigWidth by omega)]

omit hw in
/-- What a request has latched is not changed by the recurrence. -/
theorem latched_iterate (p : Widths) (s : DivSqrt) (k : ℕ) :
    ((compute p)^[k] s).exception = s.exception ∧ ((compute p)^[k] s).sqrt = s.sqrt ∧
      ((compute p)^[k] s).bSignificand = s.bSignificand ∧
      ((compute p)^[k] s).quotientSign = s.quotientSign ∧
      ((compute p)^[k] s).quotientExponent = s.quotientExponent ∧
      ((compute p)^[k] s).quotientIsZero = s.quotientIsZero ∧
      ((compute p)^[k] s).quotientIsInf = s.quotientIsInf ∧
      ((compute p)^[k] s).quotientIsNan = s.quotientIsNan := by
  induction k with
  | zero => exact ⟨rfl, rfl, rfl, rfl, rfl, rfl, rfl, rfl⟩
  | succ k ih =>
      rw [Function.iterate_succ_apply']
      exact ih

omit hw in
/-- The significand of the result, with its leading one. -/
theorem respSignificand_eq (hw1 : 2 ≤ p.outSigWidth) {s : DivSqrt}
    (hlo : 2 ^ (p.outSigWidth - 1) ≤ s.quotient) (hhi : s.quotient < 2 ^ p.outSigWidth) :
    2 ^ p.outSigWidth + (resp p s).significand = 2 * s.quotient + (s.remainder != 0).toNat ∧
      (resp p s).significand < 2 ^ p.outSigWidth := by
  have hpow : 2 ^ p.outSigWidth = 2 * 2 ^ (p.outSigWidth - 1) := by
    rw [← Nat.pow_succ', Nat.succ_eq_add_one]
    congr 1
    omega
  have hs := Bool.toNat_le (s.remainder != 0)
  have hsig : (resp p s).significand =
      2 * (s.quotient - 2 ^ (p.outSigWidth - 1)) + (s.remainder != 0).toNat := by
    change cat (slice s.quotient (p.outSigWidth - 2) 0) 1 _ = _
    rw [slice, Nat.pow_zero, Nat.div_one,
      show p.outSigWidth - 2 + 1 - 0 = p.outSigWidth - 1 by omega, Nat.mod_eq_sub_mod hlo,
      Nat.mod_eq_of_lt (by omega), cat]
    omega
  rw [hsig]
  omega

/-! ### The exact quotient and root -/

omit hw in
/-- A number in units of the last place and of the last digit. -/
theorem div_last_place {K : Type*} [Field K] [CharZero K] (x : K) (e : ℤ)
    (hw1 : 1 ≤ p.outSigWidth) :
    x / 2 ^ (e - p.outSigWidth) = 2 * (x / 2 ^ e * 2 ^ (p.outSigWidth - 1)) := by
  have hpow : (2 : K) * 2 ^ (p.outSigWidth - 1) = 2 ^ (p.outSigWidth : ℤ) := by
    rw [← pow_succ', Nat.sub_add_cancel hw1, zpow_natCast]
  rw [zpow_sub₀ two_ne_zero, ← hpow, mul_left_comm, div_div_eq_mul_div, mul_div_right_comm]

/-- The quotient of the significands is that of the initial remainder by the divisor. -/
theorem quotient_scaled (a b : Unpacked) :
    a.mag p.inSigWidth / b.mag p.inSigWidth /
        2 ^ (a.exponent - b.exponent - (doubled false a b).toNat) * 2 ^ (p.outSigWidth - 1) =
      (((accept p false a b).remainder * 2 ^ (p.outSigWidth - 1) : ℕ) : ℚ) /
        divisor p (accept p false a b) := by
  have hrem := remainder_accept hw false a b
  have hpos : (0 : ℚ) < 2 ^ p.inSigWidth + b.significand := by positivity
  have hXq : (0 : ℚ) < 2 ^ (p.outSigWidth - p.inSigWidth - 1) := by positivity
  have hmags : a.mag p.inSigWidth / b.mag p.inSigWidth =
      (2 ^ p.inSigWidth + a.significand) / (2 ^ p.inSigWidth + b.significand) *
        2 ^ (a.exponent - b.exponent) := by
    rw [Unpacked.mag, Unpacked.mag, mul_div_mul_comm, ← zpow_sub₀ two_ne_zero]
    congr 2
    ring
  have hexp : (2 : ℚ) ^ (a.exponent - b.exponent) = 2 ^ (doubled false a b).toNat *
      2 ^ (a.exponent - b.exponent - (doubled false a b).toNat) := by
    rw [← zpow_natCast, ← zpow_add₀ two_ne_zero]
    congr 1
    ring
  have hB : divisor p (accept p false a b) =
      (2 ^ p.inSigWidth + b.significand) * 2 ^ (p.outSigWidth - p.inSigWidth - 1) := rfl
  rw [hmags, hexp, ← mul_assoc, mul_div_cancel_right₀ _ (zpow_pos two_pos _).ne', hrem, hB]
  push_cast
  field_simp

/-- The root of the significand is that of the initial remainder. -/
theorem root_scaled (a b : Unpacked) :
    √(a.mag p.inSigWidth : ℝ) / 2 ^ (a.exponent / 2) * 2 ^ (p.outSigWidth - 1) *
        (√(a.mag p.inSigWidth : ℝ) / 2 ^ (a.exponent / 2) * 2 ^ (p.outSigWidth - 1)) =
      ((accept p true a b).remainder * 2 ^ (p.outSigWidth - 1) : ℕ) := by
  have hrem := remainder_accept hw true a b
  have hpar : a.exponent = 2 * (a.exponent / 2) + (doubled true a b).toNat := by
    have hdbl : doubled true a b = (a.exponent % 2 == 1) := rfl
    rcases Int.emod_two_eq_zero_or_one a.exponent with h0 | h1
    · simp only [hdbl, h0]
      have := Int.mul_ediv_add_emod a.exponent 2
      simp only [h0] at this
      simpa using this.symm
    · simp only [hdbl, h1]
      have := Int.mul_ediv_add_emod a.exponent 2
      rw [h1] at this
      simpa using this.symm
  have hmag : (0 : ℝ) ≤ (a.mag p.inSigWidth : ℝ) := by
    exact_mod_cast (a.mag_pos p.inSigWidth).le
  have hsq : √(a.mag p.inSigWidth : ℝ) / 2 ^ (a.exponent / 2) * 2 ^ (p.outSigWidth - 1) *
      (√(a.mag p.inSigWidth : ℝ) / 2 ^ (a.exponent / 2) * 2 ^ (p.outSigWidth - 1)) =
      (a.mag p.inSigWidth : ℝ) / 2 ^ (2 * (a.exponent / 2)) *
        (2 ^ (p.outSigWidth - 1) * 2 ^ (p.outSigWidth - 1)) := by
    rw [two_mul, zpow_add₀ two_ne_zero, mul_mul_mul_comm, div_mul_div_comm,
      Real.mul_self_sqrt hmag]
  have hexp : (2 : ℝ) ^ (a.exponent - p.inSigWidth) / 2 ^ (2 * (a.exponent / 2)) *
      2 ^ (p.outSigWidth - 1) =
      2 ^ (p.outSigWidth - p.inSigWidth - 1) * 2 ^ (doubled true a b).toNat := by
    rw [← zpow_sub₀ two_ne_zero, ← zpow_natCast, ← zpow_natCast, ← zpow_natCast,
      ← zpow_add₀ two_ne_zero, ← zpow_add₀ two_ne_zero]
    congr 1
    rw [Nat.cast_sub (by omega), Nat.cast_sub (by omega), Nat.cast_sub (by omega)]
    push_cast
    omega
  rw [hsq, Unpacked.mag, hrem]
  push_cast
  rw [mul_div_assoc, mul_assoc, ← mul_assoc (_ / _), hexp]
  ring

omit hw in
theorem divisor_iterate (p : Widths) (s : DivSqrt) (k : ℕ) :
    divisor p ((compute p)^[k] s) = divisor p s := by
  obtain ⟨-, -, hb, -⟩ := latched_iterate p s k
  rw [divisor, hb, divisor]

/-- The division after its last cycle. -/
theorem divisionState_last (h : Numbers p false a b) :
    DivisionState ((accept p false a b).remainder * 2 ^ (p.outSigWidth - 1))
      (divisor p (accept p false a b)) 1
      ((compute p)^[p.outSigWidth] (accept p false a b)).quotient
      ((compute p)^[p.outSigWidth] (accept p false a b)).remainder := by
  have hd := (computing_iterate hw h le_rfl).digits
  obtain ⟨-, hsqrt, -⟩ := latched_iterate p (accept p false a b) p.outSigWidth
  rw [hsqrt, divisor_iterate, Nat.sub_self] at hd
  exact hd

/-- The square root after its last cycle. -/
theorem rootState_last (h : Numbers p true a b) :
    RootState ((accept p true a b).remainder * 2 ^ (p.outSigWidth - 1)) 1
      ((compute p)^[p.outSigWidth] (accept p true a b)).quotient
      ((compute p)^[p.outSigWidth] (accept p true a b)).remainder := by
  have hd := (computing_iterate hw h le_rfl).digits
  obtain ⟨-, hsqrt, -⟩ := latched_iterate p (accept p true a b) p.outSigWidth
  rw [hsqrt, Nat.sub_self] at hd
  exact hd

/-- The first digit is one. -/
theorem two_pow_le_quotient (h : Numbers p sqrt a b) :
    2 ^ (p.outSigWidth - 1) ≤ ((compute p)^[p.outSigWidth] (accept p sqrt a b)).quotient := by
  have hrem := remainder_accept hw sqrt a b
  cases sqrt with
  | true =>
      have hsq : Monotone fun n : ℕ => n * n := fun m n hmn => Nat.mul_self_le_mul_self hmn
      refine ((rootState_last hw h).digits one_pos).le_of_le hsq (Nat.mul_le_mul_right _ ?_)
      have hpow : 2 ^ (p.outSigWidth - 1) =
          2 ^ p.inSigWidth * 2 ^ (p.outSigWidth - p.inSigWidth - 1) * 1 := by
        rw [Nat.mul_one, ← Nat.pow_add]
        congr 1
        omega
      rw [hpow, hrem]
      exact Nat.mul_le_mul (Nat.mul_le_mul_right _ (Nat.le_add_right _ _)) (Nat.two_pow_pos _)
  | false =>
      have hge : divisor p (accept p false a b) ≤ (accept p false a b).remainder := by
        have hdbl : doubled false a b = decide (a.significand < b.significand) := rfl
        have hB : divisor p (accept p false a b) =
          (2 ^ p.inSigWidth + b.significand) * 2 ^ (p.outSigWidth - p.inSigWidth - 1) := rfl
        have hb := h.b_lt
        rw [hB, hrem, hdbl, Nat.mul_assoc, Nat.mul_comm _ (2 ^ Bool.toNat _), ← Nat.mul_assoc]
        refine Nat.mul_le_mul_right _ ?_
        by_cases hab : a.significand < b.significand
        · simp only [hab, decide_true, Bool.toNat_true]
          omega
        · simp only [hab, decide_false, Bool.toNat_false]
          omega
      refine ((divisionState_last hw h).digits one_pos).le_of_le
        (fun m n hmn => Nat.mul_le_mul_right _ hmn) ?_
      rw [Nat.mul_comm]
      exact Nat.mul_le_mul_right _ hge

/-- The significand of the result of the recurrence. -/
theorem resp_significand (h : Numbers p sqrt a b) (hw1 : 2 ≤ p.outSigWidth) :
    2 ^ p.outSigWidth +
        (resp p ((compute p)^[p.outSigWidth] (accept p sqrt a b))).significand =
      2 * ((compute p)^[p.outSigWidth] (accept p sqrt a b)).quotient +
        (((compute p)^[p.outSigWidth] (accept p sqrt a b)).remainder != 0).toNat ∧
    (resp p ((compute p)^[p.outSigWidth] (accept p sqrt a b))).significand <
      2 ^ p.outSigWidth := by
  have hfits := (computing_iterate hw h le_rfl).fits
  rw [Nat.sub_self, Nat.pow_zero] at hfits
  exact respSignificand_eq hw1 (two_pow_le_quotient hw h) (by omega)

/-- The quotient of two significands. -/
theorem sticky_div (h : Numbers p false a b) (hw1 : 2 ≤ p.outSigWidth) :
    Sticky (a.mag p.inSigWidth / b.mag p.inSigWidth /
        2 ^ (a.exponent - b.exponent - (doubled false a b).toNat - p.outSigWidth))
      (2 ^ p.outSigWidth +
        (resp p ((compute p)^[p.outSigWidth] (accept p false a b))).significand) := by
  rw [(resp_significand hw h hw1).1, div_last_place _ _ (by omega), quotient_scaled hw a b]
  exact (divisionState_last hw h).sticky

/-- The square root of a significand. -/
theorem sticky_sqrt (h : Numbers p true a b) (hw1 : 2 ≤ p.outSigWidth) :
    Sticky (√(a.mag p.inSigWidth : ℝ) / 2 ^ (a.exponent / 2 - p.outSigWidth))
      (2 ^ p.outSigWidth +
        (resp p ((compute p)^[p.outSigWidth] (accept p true a b))).significand) := by
  rw [(resp_significand hw h hw1).1, div_last_place _ _ (by omega)]
  exact (rootState_last hw h).sticky (mul_nonneg (div_nonneg (Real.sqrt_nonneg _)
    (zpow_pos two_pos _).le) (pow_pos two_pos _).le) (root_scaled hw a b)

/-! ### What the recurrence promises -/

/-- The quotient of the significands, or the root of the significand with the parity of the
exponent, between one and two. -/
noncomputable def exact (p : Widths) (sqrt : Bool) (a b : Unpacked) : ℝ :=
  if sqrt then √(a.mag p.inSigWidth : ℝ) / 2 ^ (a.exponent / 2)
  else ((a.mag p.inSigWidth / b.mag p.inSigWidth : ℚ) : ℝ) /
    2 ^ (a.exponent - b.exponent - (doubled sqrt a b).toNat)

/-- The registers fit in every cycle, the digits of the quotient register are the floor of
the exact result at their weight, the last digit ends the recurrence, and the result has a
sticky bit that is clear exactly if nothing is left, when the digits are the exact result. -/
structure Recurrence (p : Widths) (sqrt : Bool) (a b : Unpacked) (run : ℕ → DivSqrt) : Prop where
  remainder_lt : ∀ k ≤ p.outSigWidth, (run k).remainder < 2 ^ (p.outSigWidth + 2)
  difference_range : ∀ k < p.outSigWidth,
    -2 ^ (p.outSigWidth + 1) ≤ ((run k).remainder : ℤ) - subtrahend p (run k) ∧
      ((run k).remainder : ℤ) - subtrahend p (run k) < 2 ^ (p.outSigWidth + 1)
  digits : ∀ k ≤ p.outSigWidth, (run k).quotient =
    ⌊exact p sqrt a b * 2 ^ (p.outSigWidth - 1) / (2 ^ (p.outSigWidth - k) : ℕ)⌋₊ *
      2 ^ (p.outSigWidth - k)
  state : ∀ k ≤ p.outSigWidth,
    (run k).state = if k = p.outSigWidth then .output else .compute
  significand : 2 ^ p.outSigWidth + (resp p (run p.outSigWidth)).significand =
    2 * (run p.outSigWidth).quotient + ((run p.outSigWidth).remainder != 0).toNat
  sticky : (run p.outSigWidth).remainder = 0 ↔
    exact p sqrt a b * 2 ^ (p.outSigWidth - 1) = (run p.outSigWidth).quotient

omit hw in
theorem exact_nonneg (p : Widths) (sqrt : Bool) (a b : Unpacked) : 0 ≤ exact p sqrt a b := by
  have ha := (a.mag_pos p.inSigWidth).le
  have hb := (b.mag_pos p.inSigWidth).le
  have hq : (0 : ℝ) ≤ ((a.mag p.inSigWidth / b.mag p.inSigWidth : ℚ) : ℝ) := by
    exact_mod_cast div_nonneg ha hb
  have hz : ∀ e : ℤ, (0 : ℝ) ≤ 2 ^ e := fun e => (zpow_pos two_pos e).le
  rw [exact]
  split_ifs
  · exact div_nonneg (Real.sqrt_nonneg _) (hz _)
  · exact div_nonneg hq (hz _)

theorem exact_quotient (a b : Unpacked) :
    exact p false a b * 2 ^ (p.outSigWidth - 1) =
      ((accept p false a b).remainder * 2 ^ (p.outSigWidth - 1) : ℕ) /
        (divisor p (accept p false a b) : ℝ) := by
  have hscaled := congrArg (fun q : ℚ => (q : ℝ)) (quotient_scaled hw a b)
  rw [exact, if_neg (by decide)]
  push_cast at hscaled ⊢
  exact hscaled

theorem exact_root (a b : Unpacked) :
    exact p true a b * 2 ^ (p.outSigWidth - 1) * (exact p true a b * 2 ^ (p.outSigWidth - 1)) =
      ((accept p true a b).remainder * 2 ^ (p.outSigWidth - 1) : ℕ) := by
  rw [exact, if_pos rfl]
  exact root_scaled hw a b

/-- The recurrence keeps its invariant and delivers its digits. -/
theorem recurrence (h : Numbers p sqrt a b) (hw1 : 2 ≤ p.outSigWidth) :
    Recurrence p sqrt a b fun k => (compute p)^[k] (accept p sqrt a b) := by
  have hnonneg : ∀ sqrt, 0 ≤ exact p sqrt a b * 2 ^ (p.outSigWidth - 1) := fun sqrt =>
    mul_nonneg (exact_nonneg p sqrt a b) (pow_pos two_pos _).le
  have hdivisor : (0 : ℝ) < divisor p (accept p false a b) := by
    rw [divisor]
    positivity
  have hdigits : ∀ k ≤ p.outSigWidth, ((compute p)^[k] (accept p sqrt a b)).quotient =
      ⌊exact p sqrt a b * 2 ^ (p.outSigWidth - 1) / (2 ^ (p.outSigWidth - k) : ℕ)⌋₊ *
        2 ^ (p.outSigWidth - k) := by
    intro k hk
    have hd := (computing_iterate hw h hk).digits
    obtain ⟨-, hsqrt, -⟩ := latched_iterate p (accept p sqrt a b) k
    rw [hsqrt, divisor_iterate] at hd
    change if sqrt then _ else _ at hd
    cases sqrt with
    | true =>
        refine (RootState.digits hd (Nat.two_pow_pos _)).eq_floor_mul (Nat.two_pow_pos _)
          fun n => ?_
        rw [mul_self_le_mul_self_iff (Nat.cast_nonneg n) (hnonneg true), exact_root hw]
        exact_mod_cast Iff.rfl
    | false =>
        refine (DivisionState.digits hd (Nat.two_pow_pos _)).eq_floor_mul (Nat.two_pow_pos _)
          fun n => ?_
        rw [exact_quotient hw, le_div_iff₀ hdivisor]
        exact_mod_cast Iff.rfl
  refine ⟨fun k hk => (computing_iterate hw h hk).remainder_lt hw,
    fun k hk => (computing_iterate hw h hk.le).difference_range hw hk, hdigits,
    fun k hk => state_iterate hw h hk, (resp_significand hw h hw1).1, ?_⟩
  cases sqrt with
  | true =>
      rw [(rootState_last hw h).remainder_eq_zero,
        ← mul_self_inj (hnonneg true) (Nat.cast_nonneg _), exact_root hw, eq_comm]
      exact_mod_cast Iff.rfl
  | false =>
      rw [(divisionState_last hw h).remainder_eq_zero, exact_quotient hw,
        div_eq_iff hdivisor.ne', eq_comm]
      exact_mod_cast Iff.rfl

/-! ## The outcomes -/

/-- The state in which the result of a request is ready. -/
def finished (p : Widths) (sqrt : Bool) (a b : Unpacked) : DivSqrt :=
  if special a b sqrt then accept p sqrt a b
  else (compute p)^[p.outSigWidth] (accept p sqrt a b)

omit hw in
/-- What the outputs take from the latched fields. -/
theorem latched_finished (p : Widths) (sqrt : Bool) (a b : Unpacked) :
    (finished p sqrt a b).exception = (accept p sqrt a b).exception ∧
      (finished p sqrt a b).quotientSign = (accept p sqrt a b).quotientSign ∧
      (finished p sqrt a b).quotientExponent = (accept p sqrt a b).quotientExponent ∧
      (finished p sqrt a b).quotientIsZero = (accept p sqrt a b).quotientIsZero ∧
      (finished p sqrt a b).quotientIsInf = (accept p sqrt a b).quotientIsInf ∧
      (finished p sqrt a b).quotientIsNan = (accept p sqrt a b).quotientIsNan := by
  rw [finished]
  split_ifs
  · exact ⟨rfl, rfl, rfl, rfl, rfl, rfl⟩
  · obtain ⟨h1, -, -, h2, h3, h4, h5, h6⟩ :=
      latched_iterate p (accept p sqrt a b) p.outSigWidth
    exact ⟨h1, h2, h3, h4, h5, h6⟩

section Means
variable {f : Format} {da db : Format.Datum} (hw1 : 2 ≤ p.outSigWidth)
  (ha : a.significand < 2 ^ p.inSigWidth) (hb : b.significand < 2 ^ p.inSigWidth)
include hw1 ha hb

theorem means_div (hda : a.Denotes p.inSigWidth da) (hdb : b.Denotes p.inSigWidth db)
    (hroom : ∀ d : ℕ, d ≤ 1 → RoundToIeee.InRange p.outExpWidth f (a.exponent - b.exponent - d) ∧
      wrap p.outExpWidth (a.exponent - b.exponent - d) = a.exponent - b.exponent - d) :
    (resp p (finished p false a b)).Means p.outExpWidth p.outSigWidth f
      (finished p false a b).respInvalidOperation (finished p false a b).respDivideByZero
      (da.div db) := by
  obtain ⟨h1, h2, h3, h4, h5, h6⟩ := latched_finished p false a b
  have hinv : (finished p false a b).respInvalidOperation =
      ((invalidOperationDiv p.inSigWidth a b || divideByZero a b) &&
        (a.isNan || b.isNan || invalidOperationDiv p.inSigWidth a b)) := by
    rw [respInvalidOperation, h1, h6]
    rfl
  have hdz : (finished p false a b).respDivideByZero =
      ((invalidOperationDiv p.inSigWidth a b || divideByZero a b) &&
        !(a.isNan || b.isNan || invalidOperationDiv p.inSigWidth a b)) := by
    rw [respDivideByZero, h1, h6]
    rfl
  have hnan : (resp p (finished p false a b)).isNan =
      (a.isNan || b.isNan || invalidOperationDiv p.inSigWidth a b) := h6
  have hinf : (resp p (finished p false a b)).isInf = (a.isInf || b.isZero) := h5
  have hzero : (resp p (finished p false a b)).isZero = (a.isZero || b.isInf) := h4
  have hsign : (resp p (finished p false a b)).sign = (a.sign ^^ b.sign) := h2
  cases da with
  | nan s =>
      obtain ⟨ha1, ha2, ha3, rfl⟩ := hda
      cases db with
      | nan t =>
          obtain ⟨hb1, hb2, hb3, rfl⟩ := hdb
          simp [Format.Datum.div, Unpacked.Means, hinv, hnan, invalidOperationDiv, divideByZero,
            ha1, ha2, ha3, hb1]
      | inf t =>
          obtain ⟨hb1, hb2, hb3, rfl⟩ := hdb
          simp [Format.Datum.div, Unpacked.Means, hinv, hnan, invalidOperationDiv, divideByZero,
            ha1, ha2, ha3, hb1, hb3, Unpacked.isSignaling]
      | finite t n =>
          obtain ⟨hb1, hb2, hb3, rfl, -⟩ := hdb
          simp [Format.Datum.div, Unpacked.Means, hinv, hnan, invalidOperationDiv, divideByZero,
            ha1, ha2, ha3, hb1, hb2, Unpacked.isSignaling]
  | inf s =>
      obtain ⟨ha1, ha2, ha3, rfl⟩ := hda
      cases db with
      | nan t =>
          obtain ⟨hb1, hb2, hb3, rfl⟩ := hdb
          simp [Format.Datum.div, Unpacked.Means, hinv, hnan, invalidOperationDiv, divideByZero,
            ha1, ha2, ha3, hb1, hb2, Unpacked.isSignaling]
      | inf t =>
          obtain ⟨hb1, hb2, hb3, rfl⟩ := hdb
          simp [Format.Datum.div, Unpacked.Means, hinv, invalidOperationDiv, ha2, hb2]
      | finite t n =>
          obtain ⟨hb1, hb2, hb3, rfl, -⟩ := hdb
          simp [Format.Datum.div, Unpacked.Means, hinv, hdz, hnan, hinf, hsign,
            invalidOperationDiv, divideByZero, ha1, ha2, ha3, hb1, hb2, Unpacked.isSignaling]
  | finite s m =>
      obtain ⟨ha1, ha2, ha3, rfl, ha5⟩ := hda
      cases db with
      | nan t =>
          obtain ⟨hb1, hb2, hb3, rfl⟩ := hdb
          simp [Format.Datum.div, Unpacked.Means, hinv, hnan, invalidOperationDiv, divideByZero,
            ha1, ha2, hb1, hb2, hb3, Unpacked.isSignaling]
      | inf t =>
          obtain ⟨hb1, hb2, hb3, rfl⟩ := hdb
          simp [Format.Datum.div, Unpacked.Means, hinv, hnan, hinf, hzero, hsign,
            invalidOperationDiv, divideByZero, ha1, ha2, hb1, hb2, hb3, Unpacked.isSignaling]
      | finite t n =>
          obtain ⟨hb1, hb2, hb3, rfl, hb5⟩ := hdb
          rw [Format.Datum.div]
          split_ifs with hn hm hm
          · simp [Unpacked.Means, hinv, invalidOperationDiv, ha3.mpr hm, hb3.mpr hn]
          · have haz : a.isZero = false := Bool.eq_false_iff.mpr fun h => hm (ha3.mp h)
            simp [Unpacked.Means, hinv, hdz, hnan, hinf, hsign, invalidOperationDiv, divideByZero,
              ha1, ha2, haz, hb1, hb2, hb3.mpr hn, Unpacked.isSignaling]
          · have hbz : b.isZero = false := Bool.eq_false_iff.mpr fun h => hn (hb3.mp h)
            simp [Unpacked.Means, hinv, hnan, hinf, hzero, hsign, invalidOperationDiv,
              divideByZero, ha1, ha2, ha3.mpr hm, hb1, hbz, Unpacked.isSignaling]
          · have haz : a.isZero = false := Bool.eq_false_iff.mpr fun h => hm (ha3.mp h)
            have hbz : b.isZero = false := Bool.eq_false_iff.mpr fun h => hn (hb3.mp h)
            have hsp : special a b false = false := by
              simp [special, ha1, ha2, haz, hb1, hb2, hbz]
            obtain ⟨hrange, hwrap⟩ := hroom _ (Bool.toNat_le (doubled false a b))
            have hexp : (resp p (finished p false a b)).exponent =
                a.exponent - b.exponent - (doubled false a b).toNat := h3.trans hwrap
            have hsticky := sticky_div hw ⟨hsp, ha, hb⟩ hw1
            obtain ⟨-, hlt⟩ := resp_significand hw ⟨hsp, ha, hb⟩ hw1
            have hfin : finished p false a b =
              (compute p)^[p.outSigWidth] (accept p false a b) := by
              rw [finished, hsp, if_neg (by decide)]
            rw [ha5 hm, hb5 hn, ← hexp, ← hfin] at hsticky
            rw [← hfin] at hlt
            refine ⟨?_, ?_, ?_, ?_, hsign, hlt, hexp ▸ hrange, hsticky⟩
            · simp [hinv, invalidOperationDiv, divideByZero, ha1, ha2, haz, hb1, hbz,
                Unpacked.isSignaling]
            · simp [hnan, invalidOperationDiv, ha1, ha2, haz, hb1, Unpacked.isSignaling]
            · simp [hinf, ha2, hbz]
            · simp [hzero, haz, hb2]

theorem means_sqrt (hda : a.Denotes p.inSigWidth da)
    (hroom : RoundToIeee.InRange p.outExpWidth f (a.exponent / 2)) :
    (resp p (finished p true a b)).Means p.outExpWidth p.outSigWidth f
      (finished p true a b).respInvalidOperation (finished p true a b).respDivideByZero
      da.sqrt := by
  obtain ⟨h1, h2, h3, h4, h5, h6⟩ := latched_finished p true a b
  have hinv : (finished p true a b).respInvalidOperation =
      (invalidOperationSqrt p.inSigWidth a &&
        (a.isNan || invalidOperationSqrt p.inSigWidth a)) := by
    rw [respInvalidOperation, h1, h6]
    rfl
  have hdz : (finished p true a b).respDivideByZero =
      (invalidOperationSqrt p.inSigWidth a &&
        !(a.isNan || invalidOperationSqrt p.inSigWidth a)) := by
    rw [respDivideByZero, h1, h6]
    rfl
  have hnan : (resp p (finished p true a b)).isNan =
      (a.isNan || invalidOperationSqrt p.inSigWidth a) := h6
  have hinf : (resp p (finished p true a b)).isInf = a.isInf := h5
  have hzero : (resp p (finished p true a b)).isZero = a.isZero := h4
  have hsign : (resp p (finished p true a b)).sign = a.sign := h2
  cases da with
  | nan s =>
      obtain ⟨ha1, ha2, ha3, rfl⟩ := hda
      simp [Format.Datum.sqrt, Unpacked.Means, hinv, hnan, invalidOperationSqrt, ha1]
  | inf s =>
      obtain ⟨ha1, ha2, ha3, rfl⟩ := hda
      cases hs : a.sign <;>
        simp [Format.Datum.sqrt, Unpacked.Means, hinv, hdz, hnan, hinf, hsign,
          invalidOperationSqrt, ha1, ha2, ha3, hs, Unpacked.isSignaling]
  | finite s m =>
      obtain ⟨ha1, ha2, ha3, rfl, ha5⟩ := hda
      rw [Format.Datum.sqrt]
      split_ifs with hm hs
      · simp [Unpacked.Means, hinv, hnan, hinf, hzero, hsign, invalidOperationSqrt, ha1, ha2,
          ha3.mpr hm, Unpacked.isSignaling]
      · have haz : a.isZero = false := Bool.eq_false_iff.mpr fun h => hm (ha3.mp h)
        simp [Unpacked.Means, hinv, invalidOperationSqrt, ha1, haz, hs, Unpacked.isSignaling]
      · have haz : a.isZero = false := Bool.eq_false_iff.mpr fun h => hm (ha3.mp h)
        rw [Bool.not_eq_true] at hs
        have hsp : special a b true = false := by simp [special, ha1, ha2, haz, hs]
        have hsticky := sticky_sqrt hw ⟨hsp, ha, hb⟩ hw1
        obtain ⟨-, hlt⟩ := resp_significand hw ⟨hsp, ha, hb⟩ hw1
        have hfin : finished p true a b = (compute p)^[p.outSigWidth] (accept p true a b) := by
          rw [finished, hsp, if_neg (by decide)]
        have hexp : (resp p (finished p true a b)).exponent = a.exponent / 2 := h3
        rw [ha5 hm, ← hexp, ← hfin] at hsticky
        rw [← hfin] at hlt
        refine ⟨?_, ?_, ?_, ?_, hsign.trans hs, hlt, hexp ▸ hroom, hsticky⟩
        · simp [hinv, invalidOperationSqrt, ha1, haz, hs, Unpacked.isSignaling]
        · simp [hnan, invalidOperationSqrt, ha1, haz, hs, Unpacked.isSignaling]
        · simp [hinf, ha2]
        · simp [hzero, haz]

end Means

end Recurrence

end DivSqrt

end Muntjac.Fpu

import Muntjac.Ieee.Format
import Mathlib.Algebra.Order.Floor.Semifield
import Mathlib.Data.Rat.Floor

/-!
# Arithmetic on data

What the operations give before rounding: the exact result, an infinity, a NaN or a
signed zero.  Addition and multiplication are total on data; a NaN carries whether the
invalid operation is signaled.

The last section is about adders that align the smaller operand in a frame of bounded
width: the bits below the frame are rounded to odd.

## Main definitions

* `Datum.add`, `Datum.mul`, `fma` — the outcomes.
* `alignedSum` — the sum in a frame.
-/

namespace Muntjac.Ieee

open Sync

namespace Format

/-- The sum of two finite numbers. -/
def sum (rm : RoundingMode) (neg₁ : Bool) (m₁ : ℚ) (neg₂ : Bool) (m₂ : ℚ) : Outcome ℚ :=
  let v := (if neg₁ then -m₁ else m₁) + if neg₂ then -m₂ else m₂
  if v = 0 then .zero (if neg₁ = neg₂ then neg₁ else rm == .towardNegative)
  else .number (decide (v < 0)) |v|

namespace Datum

/-- The datum with the other sign. -/
def neg : Datum → Datum
  | .nan signaling => .nan signaling
  | .inf s => .inf !s
  | .finite s m => .finite (!s) m

/-- The exact product; zero times infinity signals. -/
def mul : Datum → Datum → Datum
  | .nan s, .nan t => .nan (s || t)
  | .nan s, _ => .nan s
  | _, .nan t => .nan t
  | .inf s, .inf t => .inf (s ^^ t)
  | .inf s, .finite t m => if m = 0 then .nan true else .inf (s ^^ t)
  | .finite s m, .inf t => if m = 0 then .nan true else .inf (s ^^ t)
  | .finite s m, .finite t n => .finite (s ^^ t) (m * n)

/-- The exact sum; infinities of opposite signs signal. -/
def add (rm : RoundingMode) : Datum → Datum → Outcome ℚ
  | .nan s, .nan t => .nan (s || t)
  | .nan s, _ => .nan s
  | _, .nan t => .nan t
  | .inf s, .inf t => if s = t then .inf s false else .nan true
  | .inf s, .finite _ _ => .inf s false
  | .finite _ _, .inf t => .inf t false
  | .finite s m, .finite t n => sum rm s m t n

/-- A datum as an outcome. -/
def outcome : Datum → Outcome ℚ
  | .nan s => .nan s
  | .inf s => .inf s false
  | .finite s m => if m = 0 then .zero s else .number s m

end Datum

/-- The fused product and sum. -/
def fma (rm : RoundingMode) (a b c : Datum) : Outcome ℚ := (a.mul b).add rm c

@[simp] theorem sum_zero_zero (rm : RoundingMode) (neg₁ neg₂ : Bool) :
    sum rm neg₁ 0 neg₂ 0 = .zero (if neg₁ = neg₂ then neg₁ else rm == .towardNegative) := by
  simp [sum]

theorem sum_zero_left (rm : RoundingMode) (neg₁ neg₂ : Bool) {m : ℚ} (h : 0 < m) :
    sum rm neg₁ 0 neg₂ m = .number neg₂ m := by
  cases neg₂ with
  | false => simp [sum, h.ne', h.not_gt, abs_of_pos h]
  | true => simp [sum, h.ne', h, abs_of_pos h]

theorem sum_zero_right (rm : RoundingMode) (neg₁ neg₂ : Bool) {m : ℚ} (h : 0 < m) :
    sum rm neg₁ m neg₂ 0 = .number neg₁ m := by
  cases neg₁ with
  | false => simp [sum, h.ne', h.not_gt, abs_of_pos h]
  | true => simp [sum, h.ne', h, abs_of_pos h]

/-- The sum of two positive numbers, by the larger one. -/
theorem sum_eq (rm : RoundingMode) (neg₁ neg₂ : Bool) {m₁ m₂ : ℚ} (h₁ : 0 < m₁) (h₂ : 0 < m₂) :
    sum rm neg₁ m₁ neg₂ m₂ =
      if neg₁ = neg₂ then .number neg₁ (m₁ + m₂)
      else if m₁ = m₂ then .zero (rm == .towardNegative)
      else .number (if m₁ < m₂ then neg₂ else neg₁) (max m₁ m₂ - min m₁ m₂) := by
  have hpos : 0 < m₁ + m₂ := by linarith
  unfold sum
  rcases lt_trichotomy m₁ m₂ with h | h | h
  · have h' : m₁ ≠ m₂ := h.ne
    have h1 : m₁ - m₂ < 0 := by linarith
    have h2 : 0 < m₂ - m₁ := by linarith
    cases neg₁ <;> cases neg₂ <;>
      simp only [Bool.false_eq_true, if_true, if_false, reduceCtorEq, h', h, max_eq_right h.le,
        min_eq_left h.le]
    · rw [if_neg hpos.ne', decide_eq_false hpos.not_gt, abs_of_pos hpos]
    · rw [← sub_eq_add_neg, if_neg h1.ne, decide_eq_true h1, abs_of_neg h1, neg_sub]
    · rw [neg_add_eq_sub, if_neg h2.ne', decide_eq_false h2.not_gt, abs_of_pos h2]
    · rw [← neg_add, if_neg (neg_ne_zero.mpr hpos.ne'), decide_eq_true (neg_neg_of_pos hpos),
        abs_neg, abs_of_pos hpos]
  · subst h
    cases neg₁ <;> cases neg₂ <;>
      simp only [Bool.false_eq_true, if_true, if_false, reduceCtorEq, lt_irrefl]
    · rw [if_neg hpos.ne', decide_eq_false hpos.not_gt, abs_of_pos hpos]
    · rw [add_neg_cancel, if_pos rfl]
    · rw [neg_add_cancel, if_pos rfl]
    · rw [← neg_add, if_neg (neg_ne_zero.mpr hpos.ne'), decide_eq_true (neg_neg_of_pos hpos),
        abs_neg, abs_of_pos hpos]
  · have h' : m₁ ≠ m₂ := h.ne'
    have h1 : 0 < m₁ - m₂ := by linarith
    have h2 : m₂ - m₁ < 0 := by linarith
    cases neg₁ <;> cases neg₂ <;>
      simp only [Bool.false_eq_true, if_true, if_false, reduceCtorEq, h', h.not_gt,
        max_eq_left h.le, min_eq_right h.le]
    · rw [if_neg hpos.ne', decide_eq_false hpos.not_gt, abs_of_pos hpos]
    · rw [← sub_eq_add_neg, if_neg h1.ne', decide_eq_false h1.not_gt, abs_of_pos h1]
    · rw [neg_add_eq_sub, if_neg h2.ne, decide_eq_true h2, abs_of_neg h2, neg_sub]
    · rw [← neg_add, if_neg (neg_ne_zero.mpr hpos.ne'), decide_eq_true (neg_neg_of_pos hpos),
        abs_neg, abs_of_pos hpos]

/-- The number of a sum. -/
theorem value_sum (rm : RoundingMode) (neg₁ neg₂ : Bool) {m₁ m₂ : ℚ} (h₁ : 0 < m₁) (h₂ : 0 < m₂) :
    (sum rm neg₁ m₁ neg₂ m₂).value =
      if neg₁ ^^ neg₂ then max m₁ m₂ - min m₁ m₂ else max m₁ m₂ + min m₁ m₂ := by
  rw [sum_eq rm neg₁ neg₂ h₁ h₂]
  by_cases hs : neg₁ = neg₂
  · rw [if_pos hs, hs, Bool.xor_self]
    exact (max_add_min m₁ m₂).symm
  · have hxor : (neg₁ ^^ neg₂) = true := bne_iff_ne.mpr hs
    rw [if_neg hs, hxor, if_pos rfl]
    by_cases hm : m₁ = m₂
    · rw [if_pos hm, hm, max_self, min_self, sub_self]
      rfl
    · rw [if_neg hm]
      rfl

theorem sum_number_pos {rm : RoundingMode} {neg₁ neg₂ neg : Bool} {m₁ m₂ x : ℚ}
    (h : sum rm neg₁ m₁ neg₂ m₂ = .number neg x) : 0 < x := by
  unfold sum at h
  simp only at h
  generalize (if neg₁ = true then -m₁ else m₁) + (if neg₂ = true then -m₂ else m₂) = v at h
  split_ifs at h with h0
  cases h
  exact abs_pos.mpr h0

/-- A number comes from finite data. -/
theorem finite_of_fma {rm : RoundingMode} {a b c : Datum} {neg : Bool} {x : ℚ}
    (h : fma rm a b c = .number neg x) :
    ∃ s m t q, a.mul b = .finite s m ∧ c = .finite t q ∧ sum rm s m t q = .number neg x := by
  rw [fma] at h
  cases hp : a.mul b with
  | nan s => cases c <;> simp [hp, Datum.add] at h
  | inf s =>
      cases c with
      | nan t => simp [hp, Datum.add] at h
      | inf t =>
          rw [hp, Datum.add] at h
          split_ifs at h
      | finite t q => simp [hp, Datum.add] at h
  | finite s m =>
      cases c with
      | nan t => simp [hp, Datum.add] at h
      | inf t => simp [hp, Datum.add] at h
      | finite t q =>
          rw [hp] at h
          exact ⟨s, m, t, q, rfl, rfl, h⟩

end Format

/-! ## Sums in a frame -/

section Frame
variable {K : Type*} [Field K] [LinearOrder K] [FloorSemiring K]

/-- The integer that is `x`, or the odd one next to it. -/
def roundOdd (x : K) : ℕ := if x = ⌊x⌋₊ then ⌊x⌋₊ else 2 * (⌊x⌋₊ / 2) + 1

/-- The unit of a frame with `w` bits below the leading one of `x`. -/
def frameUnit (w : ℕ) (x : K) : K := 2 ^ (Int.log 2 x - w)

/-- The sum or difference of two magnitudes in the frame of the larger one. -/
def alignedSum (w : ℕ) (sub : Bool) (m₁ m₂ : K) : K :=
  let u := frameUnit w (max m₁ m₂)
  if sub then max m₁ m₂ - roundOdd (min m₁ m₂ / u) * u
  else max m₁ m₂ + roundOdd (min m₁ m₂ / u) * u

variable [IsStrictOrderedRing K]

theorem sticky_roundOdd {x : K} (hx : 0 ≤ x) : Sticky x (roundOdd x) := by
  have hlo := Nat.floor_le hx
  have hhi := Nat.lt_floor_add_one x
  rw [roundOdd]
  split_ifs with h
  · rw [h, Nat.floor_natCast]
    exact Sticky.self _
  · have hlt : (⌊x⌋₊ : K) < x := lt_of_le_of_ne hlo (Ne.symm h)
    have hodd : 2 * (⌊x⌋₊ / 2) + 1 = ⌊x⌋₊ ∨ 2 * (⌊x⌋₊ / 2) + 1 = ⌊x⌋₊ + 1 := by omega
    refine ⟨?_, ?_, fun he => by omega⟩
    · rcases hodd with ho | ho <;> rw [ho]
      · linarith
      · push_cast
        linarith
    · rcases hodd with ho | ho <;> rw [ho]
      · linarith
      · push_cast
        linarith

theorem roundOdd_natCast_div (n k : ℕ) : roundOdd ((n : K) / 2 ^ k) = jamShift n k := by
  have hpos : (0 : K) < 2 ^ k := pow_pos two_pos k
  have hfloor : ⌊(n : K) / 2 ^ k⌋₊ = n / 2 ^ k := by
    rw [show (2 : K) ^ k = (2 ^ k : ℕ) by push_cast; rfl, Nat.floor_div_natCast, Nat.floor_natCast]
  have hiff : (n : K) / 2 ^ k = (n / 2 ^ k : ℕ) ↔ n / 2 ^ k * 2 ^ k = n := by
    rw [div_eq_iff hpos.ne', eq_comm]
    exact_mod_cast Iff.rfl
  rw [roundOdd, hfloor]
  split_ifs with h
  · conv_rhs => rw [← hiff.mp h]
    exact (jamShift_mul _ k).symm
  · have hmod : ¬n % 2 ^ (k + 1) = 0 := by
      intro h0
      refine h (hiff.mpr (Nat.div_mul_cancel (dvd_trans (Nat.pow_dvd_pow 2 (Nat.le_succ k)) ?_)))
      exact Nat.dvd_of_mod_eq_zero h0
    rw [jamShift, if_neg hmod, Nat.pow_succ, Nat.div_div_eq_div_mul]

theorem roundOdd_natCast (n : ℕ) : roundOdd (n : K) = n := by
  simp [roundOdd]

theorem alignedSum_zero_left (w : ℕ) (sub : Bool) {m : K} (h : 0 ≤ m) :
    alignedSum w sub 0 m = m := by
  have h0 : roundOdd (0 : K) = 0 := by simpa using roundOdd_natCast (K := K) 0
  simp [alignedSum, max_eq_right h, min_eq_left h, h0]

theorem alignedSum_zero_right (w : ℕ) (sub : Bool) {m : K} (h : 0 ≤ m) :
    alignedSum w sub m 0 = m := by
  have h0 : roundOdd (0 : K) = 0 := by simpa using roundOdd_natCast (K := K) 0
  simp [alignedSum, max_eq_left h, min_eq_right h, h0]

/-- The sum in the frame is off by less than the unit of the frame. -/
theorem abs_sub_alignedSum_lt (w : ℕ) (sub : Bool) {m₁ m₂ : K} (h₁ : 0 < m₁) (h₂ : 0 < m₂) :
    |(if sub then max m₁ m₂ - min m₁ m₂ else max m₁ m₂ + min m₁ m₂) -
      alignedSum w sub m₁ m₂| < frameUnit w (max m₁ m₂) := by
  have hu : 0 < frameUnit w (max m₁ m₂) := zpow_pos two_pos _
  have hs := sticky_roundOdd (div_pos (lt_min h₁ h₂) hu).le
  have hgt := hs.gt
  have hlt := hs.lt
  rw [lt_div_iff₀ hu] at hgt
  rw [div_lt_iff₀ hu] at hlt
  rw [alignedSum, abs_lt]
  cases sub with
  | false =>
      simp only [Bool.false_eq_true, if_false]
      constructor <;> linarith
  | true =>
      simp only [if_true]
      constructor <;> linarith

end Frame

/-- The magnitude of the sum of two data in the frame of the larger one. -/
def Format.Datum.alignedSum (w : ℕ) : Format.Datum → Format.Datum → ℚ
  | .finite s m, .finite t n => Ieee.alignedSum w (s ^^ t) m n
  | _, _ => 0

end Muntjac.Ieee

import Mathlib.Algebra.Order.Field.Basic
import Mathlib.Data.Nat.Cast.Order.Ring
import Mathlib.Tactic.Common
import Mathlib.Tactic.FieldSimp
import Mathlib.Tactic.Linarith
import Mathlib.Tactic.NormNum
import Mathlib.Tactic.Ring

/-!
# Numbers with a sticky bit

A datapath cannot hold every digit of an exact result.  It keeps an integer whose lowest
bit is sticky: the bit is set if anything below the integer was lost.  Such an integer
still compares with every even number as the exact result does, and this is all that a
later rounding looks at.

## Main definitions

* `Sticky x n` — the integer `n` stands for the exact number `x`.
* `jamShift n k` — the right shift that gathers the lost bits in the lowest one.
-/

namespace Muntjac.Ieee

variable {K : Type*} [Field K] [LinearOrder K] [IsStrictOrderedRing K]

/-- An even number is exact, and an odd one is anything next to it. -/
structure Sticky (x : K) (n : ℕ) : Prop where
  gt : (n : K) - 1 < x
  lt : x < n + 1
  exact : n % 2 = 0 → x = n

/-- The right shift by `k` bits that collects the lost ones. -/
def jamShift (n k : ℕ) : ℕ := 2 * (n / 2 ^ (k + 1)) + if n % 2 ^ (k + 1) = 0 then 0 else 1

theorem Sticky.self (n : ℕ) : Sticky (n : K) n :=
  ⟨sub_one_lt _, lt_add_one _, fun _ => rfl⟩

/-- An even number may be added, -/
theorem Sticky.add {x : K} {n b : ℕ} (h : Sticky x n) (hb : b % 2 = 0) :
    Sticky (b + x) (b + n) := by
  have hgt := h.gt
  have hlt := h.lt
  refine ⟨?_, ?_, fun he => ?_⟩
  · push_cast
    linarith
  · push_cast
    linarith
  · rw [h.exact (by omega)]
    push_cast
    rfl

/-- and a sticky number may be subtracted from one. -/
theorem Sticky.sub {x : K} {n b : ℕ} (h : Sticky x n) (hb : b % 2 = 0) (hle : n ≤ b) :
    Sticky (b - x) (b - n) := by
  have hgt := h.gt
  have hlt := h.lt
  refine ⟨?_, ?_, fun he => ?_⟩
  · rw [Nat.cast_sub hle]
    linarith
  · rw [Nat.cast_sub hle]
    linarith
  · rw [h.exact (by omega), Nat.cast_sub hle]

section Compare
variable {x : K} {n b : ℕ}

/-- An even number is passed by the exact number when it is passed by the integer. -/
theorem Sticky.le_iff (h : Sticky x n) (hb : b % 2 = 0) : (b : K) ≤ x ↔ b ≤ n := by
  constructor
  · intro hx
    have hlt : (b : K) < (n + 1 : ℕ) := by
      rw [Nat.cast_add_one]
      exact lt_of_le_of_lt hx h.lt
    exact Nat.lt_succ_iff.mp (Nat.cast_lt.mp hlt)
  · intro hn
    by_cases he : n % 2 = 0
    · rw [h.exact he]
      exact Nat.cast_le.mpr hn
    · have hlt : (b : K) ≤ (n - 1 : ℕ) := Nat.cast_le.mpr (by omega)
      rw [Nat.cast_sub (by omega), Nat.cast_one] at hlt
      exact hlt.trans h.gt.le

theorem Sticky.lt_iff (h : Sticky x n) (hb : b % 2 = 0) : x < (b : K) ↔ n < b := by
  rw [← not_le, ← not_le, h.le_iff hb]

theorem Sticky.eq_iff (h : Sticky x n) (hb : b % 2 = 0) : x = (b : K) ↔ n = b := by
  constructor
  · intro hx
    by_contra hne
    rcases Nat.lt_or_gt_of_ne hne with hlt | hgt
    · exact absurd ((h.lt_iff hb).mpr hlt) (by rw [hx]; exact lt_irrefl _)
    · have hlt : (b : K) < x := by
        by_cases he : n % 2 = 0
        · rw [h.exact he]
          exact Nat.cast_lt.mpr hgt
        · have hle : (b : K) ≤ (n - 1 : ℕ) := Nat.cast_le.mpr (by omega)
          rw [Nat.cast_sub (by omega), Nat.cast_one] at hle
          exact hle.trans_lt h.gt
      rw [hx] at hlt
      exact lt_irrefl _ hlt
  · rintro rfl
    exact h.exact hb

end Compare

section Shift
variable {n k w : ℕ}

@[simp] theorem jamShift_zero (n : ℕ) : jamShift n 0 = n := by
  simp only [jamShift, Nat.zero_add, Nat.pow_one]
  split_ifs <;> omega

/-- A multiple of the shifted-out power is shifted exactly. -/
theorem jamShift_mul (n k : ℕ) : jamShift (n * 2 ^ k) k = n := by
  have hpos : 0 < 2 ^ k := Nat.two_pow_pos k
  have hmod : n * 2 ^ k % 2 ^ (k + 1) = n % 2 * 2 ^ k := by
    rw [Nat.pow_succ', Nat.mul_mod_mul_right]
  have hdiv : n * 2 ^ k / 2 ^ (k + 1) = n / 2 := by
    rw [Nat.pow_succ', Nat.mul_div_mul_right _ _ hpos]
  rw [jamShift, hmod, hdiv]
  rcases Nat.mod_two_eq_zero_or_one n with h | h
  · simp only [h, Nat.zero_mul, if_true]
    omega
  · have hne : ¬1 * 2 ^ k = 0 := by omega
    simp only [h, if_neg hne]
    omega

/-- What was shifted left first is shifted back exactly. -/
theorem jamShift_mul_pow {s : ℕ} (n : ℕ) (h : s ≤ k) :
    jamShift (n * 2 ^ s) k = jamShift n (k - s) := by
  have hpos : 0 < 2 ^ s := Nat.two_pow_pos s
  have hpow : 2 ^ (k + 1) = 2 ^ (k - s + 1) * 2 ^ s := by
    rw [← Nat.pow_add]
    congr 1
    omega
  have hzero : n * 2 ^ s % 2 ^ (k + 1) = 0 ↔ n % 2 ^ (k - s + 1) = 0 := by
    rw [hpow, Nat.mul_mod_mul_right, Nat.mul_eq_zero, or_iff_left hpos.ne']
  rw [jamShift, jamShift, hpow, Nat.mul_div_mul_right _ _ hpos, ← hpow]
  simp only [hzero]

theorem jamShift_lt (h : n < 2 ^ (w + k)) (hw : w ≠ 0) : jamShift n k < 2 ^ w := by
  have hdiv : n / 2 ^ (k + 1) < 2 ^ (w - 1) := by
    apply Nat.div_lt_of_lt_mul
    rwa [← Nat.pow_add, show k + 1 + (w - 1) = w + k by omega]
  have hw' : 2 ^ w = 2 * 2 ^ (w - 1) := by rw [← Nat.pow_succ', Nat.succ_eq_add_one]; congr; omega
  rw [jamShift]
  split_ifs <;> omega

/-- Shifting keeps the integer a stand-in for the exact number. -/
theorem Sticky.shift {x : K} (h : Sticky x n) (k : ℕ) : Sticky (x / 2 ^ k) (jamShift n k) := by
  have hpow : (0 : K) < 2 ^ k := pow_pos two_pos k
  have hdm := Nat.div_add_mod n (2 ^ (k + 1))
  have hm : n % 2 ^ (k + 1) < 2 ^ (k + 1) := Nat.mod_lt _ (Nat.two_pow_pos _)
  set q := n / 2 ^ (k + 1) with hq
  have hcast : ((2 ^ (k + 1) * q : ℕ) : K) = 2 * q * 2 ^ k := by
    push_cast
    ring
  by_cases h0 : n % 2 ^ (k + 1) = 0
  · -- nothing is lost, and the number was exact before
    have heven : n % 2 = 0 := by
      rw [← hdm, h0, Nat.pow_succ', Nat.mul_assoc]
      omega
    have hx : x / 2 ^ k = ((2 * q : ℕ) : K) := by
      rw [h.exact heven, ← hdm, h0, Nat.add_zero, hcast, mul_div_cancel_right₀ _ hpow.ne']
      push_cast
      ring
    rw [jamShift, if_pos h0, Nat.add_zero, ← hq, hx]
    exact Sticky.self _
  · -- the exact number lies strictly between two multiples of the lost power
    have hlo : ((2 ^ (k + 1) * q : ℕ) : K) < x := by
      have hle : (2 ^ (k + 1) * q) % 2 = 0 := by
        rw [Nat.pow_succ', Nat.mul_assoc]
        omega
      refine lt_of_le_of_ne ((h.le_iff hle).mpr (by omega)) fun he => ?_
      have := (h.eq_iff hle).mp he.symm
      omega
    have hhi : x < ((2 ^ (k + 1) * (q + 1) : ℕ) : K) := by
      have hle : (2 ^ (k + 1) * (q + 1)) % 2 = 0 := by
        rw [Nat.pow_succ', Nat.mul_assoc]
        omega
      exact (h.lt_iff hle).mpr (by rw [Nat.mul_succ]; omega)
    have hcast' : ((2 ^ (k + 1) * (q + 1) : ℕ) : K) = (2 * q + 2) * 2 ^ k := by
      push_cast
      ring
    rw [hcast] at hlo
    rw [hcast'] at hhi
    have hval : (jamShift n k : K) = 2 * q + 1 := by
      rw [jamShift, if_neg h0, ← hq]
      push_cast
      ring
    refine ⟨?_, ?_, fun he => ?_⟩
    · rw [hval, lt_div_iff₀ hpow]
      linarith
    · rw [hval, div_lt_iff₀ hpow]
      linarith
    · rw [jamShift, if_neg h0] at he
      omega

end Shift

end Muntjac.Ieee

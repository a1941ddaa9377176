import Mathlib.Data.BitVec
import Mathlib.Tactic.Common
import Mathlib.Tactic.Positivity

/-!
# Windows of a bit vector

`setWindow x o v` replaces the bits of `x` from `o` on by `v`; `extractLsb'` reads them.

## Main results

* `eq_setWindow` — a vector is a `setWindow` if it has the window and the other bits.
-/

namespace Muntjac.Sync

variable {n w : ℕ}

/-- `x` with the `w` bits from `o` on replaced by `v`. -/
def setWindow (x : BitVec n) (o : ℕ) (v : BitVec w) : BitVec n :=
  (x &&& ~~~((BitVec.allOnes w).setWidth n <<< o)) ||| (v.setWidth n <<< o)

theorem getLsbD_setWindow {x : BitVec n} {o : ℕ} {v : BitVec w} {i : ℕ} (hi : i < n) :
    (setWindow x o v).getLsbD i =
      if o ≤ i ∧ i < o + w then v.getLsbD (i - o) else x.getLsbD i := by
  simp only [setWindow, BitVec.getLsbD_or, BitVec.getLsbD_and, BitVec.getLsbD_not,
    BitVec.getLsbD_shiftLeft, BitVec.getLsbD_setWidth, BitVec.getLsbD_allOnes, hi, decide_true,
    Bool.true_and]
  by_cases ho : o ≤ i
  · have hin : i - o < n := by omega
    by_cases hw : i < o + w
    · have hlt : i - o < w := by omega
      simp [ho, hw, hin, hlt, Nat.not_lt.mpr ho]
    · have hge : ¬i - o < w := by omega
      simp [ho, hw, hin, hge, BitVec.getLsbD_of_ge v (i - o) (by omega)]
  · simp [ho, show i < o by omega]

theorem setWindow_zero (o : ℕ) (v : BitVec w) :
    setWindow (0 : BitVec n) o v = v.setWidth n <<< o := by
  rw [setWindow, BitVec.ofNat_eq_ofNat, BitVec.zero_and, BitVec.zero_or]

/-- A vector with the window `v` and otherwise the bits of `x`. -/
theorem eq_setWindow {x y : BitVec n} {o : ℕ} {v : BitVec w} (hv : y.extractLsb' o w = v)
    (hx : ∀ i < n, ¬(o ≤ i ∧ i < o + w) → y.getLsbD i = x.getLsbD i) : y = setWindow x o v := by
  apply BitVec.eq_of_getLsbD_eq
  intro i hi
  rw [getLsbD_setWindow hi]
  split_ifs with h
  · have hbit := congrArg (fun z => z.getLsbD (i - o)) hv
    simp only [BitVec.getLsbD_extractLsb', show i - o < w by omega, decide_true,
      Bool.true_and] at hbit
    rw [← hbit, Nat.add_sub_cancel' h.1]
  · exact hx i hi h

theorem toNat_append_add {m : ℕ} (x : BitVec m) (y : BitVec n) :
    (x ++ y).toNat = x.toNat * 2 ^ n + y.toNat := by
  rw [BitVec.toNat_append, ← Nat.shiftLeft_add_eq_or_of_lt y.isLt, Nat.shiftLeft_eq]

/-- The number in the bits up to a bit in the window. -/
theorem toNat_setWindow_mod {x : BitVec n} {o u : ℕ} {v : BitVec w} (h : o + w ≤ n) (hu : u ≤ w) :
    (setWindow x o v).toNat % 2 ^ (o + u) = x.toNat % 2 ^ o + v.toNat % 2 ^ u * 2 ^ o := by
  have hmod : x.toNat % 2 ^ o < 2 ^ o := Nat.mod_lt _ (Nat.two_pow_pos o)
  refine Nat.eq_of_testBit_eq fun i => ?_
  rw [Nat.add_comm (x.toNat % 2 ^ o), Nat.mul_comm, Nat.testBit_mod_two_pow,
    Nat.testBit_two_pow_mul_add _ hmod, Nat.testBit_mod_two_pow, Nat.testBit_mod_two_pow]
  by_cases hi : i < o + u
  · have hbit : (setWindow x o v).toNat.testBit i = (setWindow x o v).getLsbD i := rfl
    rw [hbit, getLsbD_setWindow (by omega)]
    by_cases ho : i < o
    · rw [if_neg (by omega), if_pos ho]
      simp [hi, ho, BitVec.getLsbD]
    · rw [if_pos (by omega), if_neg ho]
      simp [hi, BitVec.getLsbD, show i - o < u by omega]
  · rw [if_neg (by omega)]
    simp [hi, show ¬i - o < u by omega]

section Int
variable {s : ℕ}

/-- The bits of a window, as a digit of the number, signed or not. -/
theorem toNat_extract (x : BitVec n) (h : s + w ≤ n) :
    ((x.extractLsb' s w).toNat : ℤ) = x.toInt / 2 ^ s % 2 ^ w := by
  have hpow : (2 : ℤ) ^ n = 2 ^ (n - s - w) * 2 ^ w * 2 ^ s := by
    rw [← pow_add, ← pow_add]
    congr 1
    omega
  rw [BitVec.extractLsb'_toNat, Nat.shiftRight_eq_div_pow, BitVec.toInt_eq_msb_cond]
  push_cast
  split_ifs
  · rw [hpow, Int.sub_mul_ediv_right _ _ (by positivity), Int.sub_mul_emod_self_right]
  · rfl

/-- The high bits are the quotient, rounded down. -/
theorem toInt_extract_high (x : BitVec n) (h : s + w = n) (hw : 0 < w) :
    (x.extractLsb' s w).toInt = x.toInt / 2 ^ s := by
  have hx := x.isLt
  have hpow : 2 ^ n = 2 ^ w * 2 ^ s := by rw [← Nat.pow_add, Nat.add_comm, h]
  have htoNat : (x.extractLsb' s w).toNat = x.toNat / 2 ^ s := by
    rw [BitVec.extractLsb'_toNat, Nat.shiftRight_eq_div_pow, Nat.mod_eq_of_lt]
    rw [Nat.div_lt_iff_lt_mul (Nat.two_pow_pos s), ← hpow]
    exact hx
  have hmsb : (x.extractLsb' s w).msb = x.msb := by
    rw [BitVec.msb_eq_getLsbD_last, BitVec.msb_eq_getLsbD_last, BitVec.getLsbD_extractLsb',
      show s + (w - 1) = n - 1 by omega]
    simp [show w - 1 < w by omega]
  rw [BitVec.toInt_eq_msb_cond, BitVec.toInt_eq_msb_cond, hmsb, htoNat, hpow]
  push_cast
  split_ifs
  · rw [Int.sub_mul_ediv_right _ _ (by positivity)]
  · rfl

/-- A window that is a digit without a sign. -/
theorem toInt_zero_append_extract (x : BitVec n) (h : s + w ≤ n) :
    (0#1 ++ x.extractLsb' s w).toInt = x.toInt / 2 ^ s % 2 ^ w := by
  rw [BitVec.toInt_append, ← toNat_extract x h]
  simp

end Int

/-- Windows with the same bits. -/
theorem extractLsb'_congr {x y : BitVec n} {o : ℕ}
    (h : ∀ i < w, x.getLsbD (o + i) = y.getLsbD (o + i)) :
    x.extractLsb' o w = y.extractLsb' o w := by
  apply BitVec.eq_of_getLsbD_eq
  intro i hi
  simp only [BitVec.getLsbD_extractLsb', h i hi]

end Muntjac.Sync

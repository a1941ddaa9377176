import Mathlib.Algebra.BigOperators.Group.List.Basic
import Mathlib.Algebra.Order.Ring.Abs
import Mathlib.Tactic.Linarith
import Mathlib.Tactic.Ring

/-!
# Products by columns

Two numbers are given by their digits in base `B`; the products of the digits are added up
in an order of their own, column by column.  When a column is complete its digit is final
and the accumulator is divided by the base.

Only the top digits may be negative, so a digit is an integer, at most `B - 1` in
magnitude.

## Main definitions

* `terms B a b l` — the products of the pairs of digits in `l`, with their weights.
* `Columns` — the accumulator of column `d`, and the number that the final digits make.

## Main results

* `Columns.mac`, `Columns.carry` — the two kinds of steps.
* `Columns.low_eq`, `Columns.high_eq` — the digits are those of the product.
-/

namespace Muntjac.Sync

section Columns
variable (B : ℤ) (a b : ℕ → ℤ)

/-- The products of the pairs in `l`. -/
def terms (l : List (ℕ × ℕ)) : ℤ := (l.map fun p => a p.1 * b p.2 * B ^ (p.1 + p.2)).sum

/-- The accumulator `acc` of column `d`, to which `m` products have been added, and the
final digits `low`, after the products in `l`. -/
structure Columns (n : ℕ) (l : List (ℕ × ℕ)) (d m : ℕ) (acc low : ℤ) : Prop where
  sum : acc * B ^ d + low = terms B a b l
  nonneg : 0 ≤ low
  lt : low < B ^ d
  bound : |acc| ≤ n * B + m * (B - 1) ^ 2

variable {B a b} {n : ℕ} {l : List (ℕ × ℕ)} {d m : ℕ} {acc low : ℤ}

theorem columns_nil (hB : 0 ≤ B) (n : ℕ) : Columns B a b n [] 0 0 0 0 where
  sum := by simp [terms]
  nonneg := le_refl 0
  lt := by simp
  bound := by
    simp only [abs_zero, Nat.cast_zero, zero_mul, add_zero]
    positivity

/-- A product is added to the accumulator. -/
theorem Columns.mac (h : Columns B a b n l d m acc low) {i j : ℕ} (hd : i + j = d)
    (hi : |a i| ≤ B - 1) (hj : |b j| ≤ B - 1) :
    Columns B a b n (l ++ [(i, j)]) d (m + 1) (acc + a i * b j) low where
  sum := by
    have hsum := h.sum
    rw [terms] at hsum ⊢
    rw [List.map_append, List.sum_append, ← hsum]
    simp only [List.map_cons, List.map_nil, List.sum_cons, List.sum_nil, hd]
    ring
  nonneg := h.nonneg
  lt := h.lt
  bound := by
    have hmul : |a i * b j| ≤ (B - 1) ^ 2 := by
      rw [abs_mul, sq]
      exact mul_le_mul hi hj (abs_nonneg _) ((abs_nonneg _).trans hi)
    calc |acc + a i * b j| ≤ |acc| + |a i * b j| := abs_add_le _ _
      _ ≤ n * B + m * (B - 1) ^ 2 + (B - 1) ^ 2 := add_le_add h.bound hmul
      _ = n * B + (m + 1 : ℕ) * (B - 1) ^ 2 := by
          push_cast
          ring

/-- The accumulator stays below `n * B ^ 2`. -/
theorem Columns.abs_acc_lt (h : Columns B a b n l d m acc low) (hB : 1 < B) (hn : 0 < n)
    (hm : m ≤ n) : |acc| < n * B ^ 2 := by
  have hmn : (m : ℤ) * (B - 1) ^ 2 ≤ n * (B - 1) ^ 2 :=
    mul_le_mul_of_nonneg_right (by exact_mod_cast hm) (sq_nonneg _)
  have hpos : (0 : ℤ) < n * (B - 1) := mul_pos (by exact_mod_cast hn) (by omega)
  calc |acc| ≤ n * B + n * (B - 1) ^ 2 := h.bound.trans (by omega)
    _ < n * B ^ 2 := by nlinarith

/-- A complete column gives a digit, and the accumulator is divided by the base. -/
theorem Columns.carry (h : Columns B a b n l d m acc low) (hB : 1 < B) (hn : 0 < n)
    (hm : m ≤ n) :
    Columns B a b n l (d + 1) 0 (acc / B) (low + acc % B * B ^ d) where
  sum := by
    have hsplit := Int.emod_add_mul_ediv acc B
    rw [← h.sum, pow_succ]
    calc acc / B * (B ^ d * B) + (low + acc % B * B ^ d)
        = (acc % B + B * (acc / B)) * B ^ d + low := by ring
      _ = acc * B ^ d + low := by rw [hsplit]
  nonneg := by
    have hmod := Int.emod_nonneg acc (show B ≠ 0 by omega)
    have hpow : 0 ≤ B ^ d := by positivity
    have hnn := h.nonneg
    positivity
  lt := by
    have hmod := Int.emod_lt_of_pos acc (show 0 < B by omega)
    have hpow : 0 ≤ B ^ d := by positivity
    calc low + acc % B * B ^ d < B ^ d + acc % B * B ^ d := by linarith [h.lt]
      _ = (acc % B + 1) * B ^ d := by ring
      _ ≤ B * B ^ d := mul_le_mul_of_nonneg_right (by omega) hpow
      _ = B ^ (d + 1) := by ring
  bound := by
    have habs := h.abs_acc_lt hB hn hm
    rw [abs_lt] at habs
    have hup : acc / B ≤ n * B := by
      refine Int.ediv_le_of_le_mul (by omega) ?_
      calc acc ≤ n * B ^ 2 := habs.2.le
        _ = n * B * B := by ring
    have hlow : -(n * B) ≤ acc / B := by
      refine (Int.le_ediv_iff_mul_le (by omega)).mpr ?_
      calc -(n * B) * B = -(n * B ^ 2) := by ring
        _ ≤ acc := habs.1.le
    rw [abs_le]
    simp only [Nat.cast_zero, zero_mul, add_zero]
    exact ⟨hlow, hup⟩

/-- The final digits are the low digits of a number that agrees with the sum up to
multiples of `B ^ d`. -/
theorem Columns.low_eq (h : Columns B a b n l d m acc low) {x r : ℤ}
    (hx : x = terms B a b l + B ^ d * r) : low = x % B ^ d := by
  rw [hx, Int.add_mul_emod_self_left, ← h.sum, add_comm, Int.add_mul_emod_self_right,
    Int.emod_eq_of_lt h.nonneg h.lt]

/-- The accumulator is the rest of the number. -/
theorem Columns.high_eq (h : Columns B a b n l d m acc low) (hB : 0 < B) {x : ℤ}
    (hx : x = terms B a b l) : acc = x / B ^ d := by
  have hpow : 0 < B ^ d := by positivity
  rw [hx, ← h.sum, add_comm, Int.add_mul_ediv_right _ _ hpow.ne',
    Int.ediv_eq_zero_of_lt h.nonneg h.lt, zero_add]

end Columns

end Muntjac.Sync

import Mathlib.Data.Nat.Bitwise
import Mathlib.Tactic.Common
import Mathlib.Tactic.Ring

/-!
# Bit slices of words

Words are natural numbers; `slice x hi lo` is the part-select `x[hi:lo]` and
`cat a w b` the concatenation `{a, b}` of `a` with a `w`-bit `b`.  Indices and
widths are ordinary arguments, so the same functions serve every instantiation of
a parameterised module.
-/

namespace Muntjac.Sync

/-- The part-select `x[hi:lo]`. -/
def slice (x hi lo : ℕ) : ℕ := x / 2 ^ lo % 2 ^ (hi + 1 - lo)

/-- The concatenation `{a, b}`, where `b` has `w` bits. -/
def cat (a w b : ℕ) : ℕ := a * 2 ^ w + b

/-- `$clog2`. -/
def clog2 (n : ℕ) : ℕ := if n ≤ 1 then 0 else Nat.log2 (n - 1) + 1

theorem le_two_pow_clog2 (n : ℕ) : n ≤ 2 ^ clog2 n := by
  rw [clog2]
  split_ifs with h
  · simpa using h
  · have := @Nat.lt_log2_self (n - 1)
    omega

/-- `prim_util_pkg::vbits`: the width of an index into `value` items. -/
def vbits (value : ℕ) : ℕ := if value = 1 then 1 else clog2 value

theorem le_two_pow_vbits (n : ℕ) : n ≤ 2 ^ vbits n := by
  rw [vbits]
  split
  · omega
  · exact le_two_pow_clog2 n

theorem slice_lt (x hi lo : ℕ) : slice x hi lo < 2 ^ (hi + 1 - lo) :=
  Nat.mod_lt _ (Nat.two_pow_pos _)

theorem testBit_slice (x hi lo k : ℕ) :
    (slice x hi lo).testBit k = (decide (k < hi + 1 - lo) && x.testBit (lo + k)) := by
  rw [slice, Nat.testBit_mod_two_pow, Nat.testBit_div_two_pow, Nat.add_comm k lo]

/-- A bit of a word in the part-select that contains it. -/
theorem testBit_slice_sub {hi lo k : ℕ} (x : ℕ) (hlo : lo ≤ k) (hhi : k ≤ hi) :
    (slice x hi lo).testBit (k - lo) = x.testBit k := by
  have hk : k - lo < hi + 1 - lo := by omega
  rw [testBit_slice, Nat.add_sub_cancel' hlo, decide_eq_true hk, Bool.true_and]

theorem cat_mod {a b w : ℕ} (hb : b < 2 ^ w) : cat a w b % 2 ^ w = b := by
  rw [cat, Nat.add_comm, Nat.add_mul_mod_self_right, Nat.mod_eq_of_lt hb]

theorem cat_div {a b w : ℕ} (hb : b < 2 ^ w) : cat a w b / 2 ^ w = a := by
  rw [cat, Nat.add_comm, Nat.add_mul_div_right _ _ (Nat.two_pow_pos w), Nat.div_eq_of_lt hb,
    Nat.zero_add]

/-- A word is the concatenation of its parts. -/
theorem cat_div_mod (x w : ℕ) : cat (x / 2 ^ w) w (x % 2 ^ w) = x := by
  rw [cat, Nat.mul_comm]
  exact Nat.div_add_mod x (2 ^ w)

/-- Concatenation with fixed low parts of the same width is injective. -/
theorem cat_inj {a b c d w : ℕ} (hb : b < 2 ^ w) (hd : d < 2 ^ w) (h : cat a w b = cat c w d) :
    a = c ∧ b = d := by
  have hdiv : a = c := by rw [← cat_div (a := a) hb, h, cat_div hd]
  have hmod : b = d := by rw [← cat_mod (a := a) hb, h, cat_mod hd]
  exact ⟨hdiv, hmod⟩

/-- The low bits of a concatenation come from its low part. -/
theorem cat_mod_two_pow {a b w k : ℕ} (h : k ≤ w) : cat a w b % 2 ^ k = b % 2 ^ k := by
  rw [cat, ← Nat.sub_add_cancel h, Nat.pow_add, ← Nat.mul_assoc, Nat.add_comm,
    Nat.add_mul_mod_self_right]

theorem cat_div_two_pow {a b w k : ℕ} (h : k ≤ w) :
    cat a w b / 2 ^ k = cat a (w - k) (b / 2 ^ k) := by
  have hw : 2 ^ w = 2 ^ (w - k) * 2 ^ k := by rw [← Nat.pow_add, Nat.sub_add_cancel h]
  rw [cat, cat, hw, ← Nat.mul_assoc, Nat.add_comm, Nat.add_mul_div_right _ _ (Nat.two_pow_pos k),
    Nat.add_comm]

/-- The bits that are set in one of the words. -/
def orAll {w : ℕ} (l : List (BitVec w)) : BitVec w := l.foldr (· ||| ·) 0

@[simp] theorem orAll_nil {w : ℕ} : orAll ([] : List (BitVec w)) = 0 := rfl

theorem getLsbD_orAll {w : ℕ} (l : List (BitVec w)) (b : ℕ) :
    (orAll l).getLsbD b = true ↔ ∃ x ∈ l, x.getLsbD b = true := by
  induction l with
  | nil => simp
  | cons x l ih =>
      rw [show orAll (x :: l) = x ||| orAll l from rfl, BitVec.getLsbD_or, Bool.or_eq_true, ih]
      simp

theorem orAll_concat {w : ℕ} (l : List (BitVec w)) (x : BitVec w) :
    orAll (l ++ [x]) = orAll l ||| x := by
  induction l with
  | nil => simp [orAll]
  | cons y l ih =>
      rw [List.cons_append, show orAll (y :: (l ++ [x])) = y ||| orAll (l ++ [x]) from rfl, ih,
        ← BitVec.or_assoc]
      rfl

end Muntjac.Sync

import Mathlib.Data.Nat.Find
import Mathlib.Tactic.Common

/-!
# Gray code

The reflected binary Gray code of words of any width.  The codes of consecutive words, also of
the last word and the first, differ in one bit.  A register that catches some bits of a counter
before an increment and the others after it therefore holds one of the two codes and no third
word, if the counter is in Gray code.

## Main definitions

* `gray x` — the code of the word `x`.
* `mix sel a b` — the word with the selected bits of `a` and the other bits of `b`.

## Main results

* `gray_add_one` — an increment changes one bit of the code.
* `mix_gray` — a mixture of two consecutive codes is one of them.
-/

namespace Muntjac.Sync

variable {w : ℕ}

/-- The Gray code of a word. -/
def gray (x : BitVec w) : BitVec w := x ^^^ (x >>> 1)

/-- The selected bits of `a` and the other bits of `b`. -/
def mix (sel a b : BitVec w) : BitVec w := (a &&& sel) ||| (b &&& ~~~sel)

@[simp] theorem gray_zero : gray (0#w) = 0#w := by simp [gray]

theorem getLsbD_gray (x : BitVec w) (i : ℕ) :
    (gray x).getLsbD i = (x.getLsbD i ^^ x.getLsbD (i + 1)) := by
  rw [gray, BitVec.getLsbD_xor, BitVec.getLsbD_ushiftRight, Nat.add_comm 1 i]

/-! ## Increments -/

/-- An increment changes the bits up to the lowest bit that is clear. -/
theorem getLsbD_add_one (x : BitVec w) {i : ℕ} (hi : i < w) :
    (x + 1#w).getLsbD i = (x.getLsbD i ^^ decide (∀ j < i, x.getLsbD j = true)) := by
  rw [BitVec.getLsbD_add hi]
  cases i with
  | zero => simp [hi]
  | succ i =>
      have hle : decide (∀ j ≤ i, x.getLsbD j = true) =
          decide (∀ j < i + 1, x.getLsbD j = true) := by
        rw [decide_eq_decide]
        exact forall_congr' fun j => by rw [Nat.lt_succ_iff]
      rw [BitVec.carry_succ_one i x (by omega), hle]
      simp

/-- The bit that the increment of a word changes in the code: the lowest bit that is clear, or
the top bit if there is none below it. -/
theorem exists_ruler (x : BitVec w) (hw : 0 < w) :
    ∃ p < w, (∀ j < p, x.getLsbD j = true) ∧ (p + 1 < w → x.getLsbD p = false) := by
  have hex : ∃ p, p + 1 < w → x.getLsbD p = false := ⟨w, fun h => absurd h (by omega)⟩
  refine ⟨Nat.find hex, ?_, fun j hj => ?_, Nat.find_spec hex⟩
  · have hle : Nat.find hex ≤ w - 1 := Nat.find_min' hex fun h => absurd h (by omega)
    omega
  · have hmin := Nat.find_min hex hj
    rw [Classical.not_imp] at hmin
    exact Bool.not_eq_false _ ▸ hmin.2

/-- The codes of consecutive words differ in one bit. -/
theorem gray_add_one (x : BitVec w) :
    ∃ p, ∀ i, i ≠ p → (gray (x + 1#w)).getLsbD i = (gray x).getLsbD i := by
  rcases Nat.eq_zero_or_pos w with rfl | hw
  · exact ⟨0, fun i _ => by simp⟩
  obtain ⟨p, hp, hlow, hclear⟩ := exists_ruler x hw
  -- the increment changes the bits up to `p`, and of the bits above `p` none
  have hadd : ∀ i < w, (x + 1#w).getLsbD i = (x.getLsbD i ^^ decide (i ≤ p)) := by
    intro i hi
    rw [getLsbD_add_one x hi]
    congr 1
    rw [decide_eq_decide]
    constructor
    · intro hall
      by_contra hpi
      have hset := hall p (by omega)
      rw [hclear (by omega)] at hset
      exact Bool.false_ne_true hset
    · intro hip j hj
      exact hlow j (by omega)
  refine ⟨p, fun i hne => ?_⟩
  rw [getLsbD_gray, getLsbD_gray]
  by_cases hi : i + 1 < w
  · rw [hadd i (by omega), hadd (i + 1) hi]
    have hsame : decide (i ≤ p) = decide (i + 1 ≤ p) := decide_eq_decide.mpr (by omega)
    rw [hsame]
    cases x.getLsbD i <;> cases x.getLsbD (i + 1) <;> cases decide (i + 1 ≤ p) <;> rfl
  · rw [BitVec.getLsbD_of_ge _ (i + 1) (by omega), BitVec.getLsbD_of_ge _ (i + 1) (by omega)]
    by_cases hiw : i < w
    · have hgt : ¬i ≤ p := by omega
      rw [hadd i hiw, decide_eq_false hgt, Bool.xor_false]
    · rw [BitVec.getLsbD_of_ge _ i (by omega), BitVec.getLsbD_of_ge _ i (by omega)]

/-! ## Mixtures -/

theorem getLsbD_mix (sel a b : BitVec w) (i : ℕ) :
    (mix sel a b).getLsbD i = bif sel.getLsbD i then a.getLsbD i else b.getLsbD i := by
  rw [mix, BitVec.getLsbD_or, BitVec.getLsbD_and, BitVec.getLsbD_and, BitVec.getLsbD_not]
  by_cases hi : i < w
  · rw [decide_eq_true hi]
    cases sel.getLsbD i <;> simp
  · simp [BitVec.getLsbD_of_ge _ i (Nat.le_of_not_lt hi)]

@[simp] theorem mix_zero (a b : BitVec w) : mix 0#w a b = b := by
  apply BitVec.eq_of_getLsbD_eq
  intro i _
  rw [getLsbD_mix, BitVec.getLsbD_zero, cond_false]

@[simp] theorem mix_self (sel a : BitVec w) : mix sel a a = a := by
  apply BitVec.eq_of_getLsbD_eq
  intro i _
  rw [getLsbD_mix, Bool.cond_self]

/-- Words that differ in one bit at most have no proper mixture. -/
theorem mix_of_differ {a b : BitVec w} {p : ℕ} (h : ∀ i, i ≠ p → b.getLsbD i = a.getLsbD i)
    (sel : BitVec w) : mix sel a b = a ∨ mix sel a b = b := by
  cases hp : sel.getLsbD p with
  | true =>
      refine .inl (BitVec.eq_of_getLsbD_eq fun i _ => ?_)
      rw [getLsbD_mix]
      by_cases hi : i = p
      · rw [hi, hp, cond_true]
      · rw [h i hi, Bool.cond_self]
  | false =>
      refine .inr (BitVec.eq_of_getLsbD_eq fun i _ => ?_)
      rw [getLsbD_mix]
      by_cases hi : i = p
      · rw [hi, hp, cond_false]
      · rw [h i hi, Bool.cond_self]

/-- A mixture of two consecutive codes is one of them. -/
theorem mix_gray (sel x : BitVec w) :
    mix sel (gray x) (gray (x + 1#w)) = gray x ∨
      mix sel (gray x) (gray (x + 1#w)) = gray (x + 1#w) := by
  obtain ⟨p, hp⟩ := gray_add_one x
  exact mix_of_differ hp sel

end Muntjac.Sync

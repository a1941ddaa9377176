import Muntjac.Ieee.Sticky
import Mathlib.Algebra.Order.Floor.Semiring
import Mathlib.Algebra.Order.Ring.Nat
import Mathlib.Tactic.Positivity

/-!
# Digit recurrences

Restoring division and the square root find one bit of their result after the other.  Both
keep what is left of the dividend, or of the radicand, in units of the next bit, so that
one trial subtraction decides it.

The weight `e` of the last digit found is two units of the next bit; it is one when all
the digits are there.

## Main definitions

* `Digits f t e q` — `q` has the digits down to weight `e` of the largest number whose
  image under `f` is at most `t`.
* `DivisionState`, `RootState` — the invariants of the two recurrences.
-/

namespace Muntjac.Ieee

/-- `q` is the floor, at the weight `e`, of the number that `f` sends to `t`. -/
structure Digits (f : ℕ → ℕ) (t e q : ℕ) : Prop where
  dvd : e ∣ q
  le : f q ≤ t
  lt : t < f (q + e)

/-- What `f` sends to at most `t` is at most the floor. -/
theorem Digits.le_of_le {f : ℕ → ℕ} {t q n : ℕ} (h : Digits f t 1 q) (hf : Monotone f)
    (hn : f n ≤ t) : n ≤ q := by
  by_contra hlt
  exact absurd (h.lt.trans_le (hf (by omega : q + 1 ≤ n))) (not_lt.mpr hn)

/-- The digits are the floor of a number of an ordered field. -/
theorem Digits.eq_floor_mul {K : Type*} [Field K] [LinearOrder K] [IsStrictOrderedRing K]
    [FloorSemiring K] {f : ℕ → ℕ} {t e q : ℕ} (h : Digits f t e q) (he : 0 < e) {x : K}
    (hx : ∀ n : ℕ, f n ≤ t ↔ (n : K) ≤ x) : q = ⌊x / e⌋₊ * e := by
  have hle := (hx q).mp h.le
  have hlt := (hx (q + e)).not.mp (not_le.mpr h.lt)
  obtain ⟨c, rfl⟩ := h.dvd
  have hek : (0 : K) < e := Nat.cast_pos.mpr he
  have hx0 : 0 ≤ x := (Nat.cast_nonneg _).trans hle
  have hfloor : ⌊x / e⌋₊ = c := by
    rw [Nat.floor_eq_iff (div_nonneg hx0 hek.le), le_div_iff₀ hek, div_lt_iff₀ hek]
    push_cast at hle hlt
    constructor <;> nlinarith
  rw [hfloor, Nat.mul_comm]

/-- Twice a number stands, with a sticky bit, for twice its floor. -/
theorem sticky_two_mul {K : Type*} [Field K] [LinearOrder K] [IsStrictOrderedRing K] {x : K}
    {q : ℕ} (hle : (q : K) ≤ x) (hlt : x < q + 1) {s : Bool} (hs : s = false ↔ x = q) :
    Sticky (2 * x) (2 * q + s.toNat) := by
  cases s with
  | false =>
      rw [hs.mp rfl]
      simpa using Sticky.self (K := K) (2 * q)
  | true =>
      have hne : (q : K) ≠ x := fun h => by simpa using hs.mpr h.symm
      have hgt := lt_of_le_of_ne hle hne
      refine ⟨?_, ?_, fun he => ?_⟩
      · push_cast
        simp only [Bool.toNat_true, Nat.cast_one]
        linarith
      · push_cast
        simp only [Bool.toNat_true, Nat.cast_one]
        linarith
      · simp only [Bool.toNat_true] at he
        omega

/-! ## Division -/

/-- The quotient `t / b` with the digits `q`; `r` is what is left. -/
structure DivisionState (t b e q r : ℕ) : Prop where
  dvd : e ∣ q
  eq : 2 * (q * b) + r * e = 2 * t
  lt : r < 2 * b

section Division
variable {t b e q r : ℕ}

theorem DivisionState.digits (h : DivisionState t b e q r) (he : 0 < e) :
    Digits (· * b) t e q := by
  have heq := h.eq
  refine ⟨h.dvd, ?_, ?_⟩
  · omega
  · have hlt := Nat.mul_lt_mul_of_pos_right h.lt he
    have hexp : (q + e) * b = q * b + b * e := by ring
    have hassoc : 2 * b * e = 2 * (b * e) := Nat.mul_assoc 2 b e
    omega

/-- One digit: the trial difference decides it. -/
theorem DivisionState.step (h : DivisionState t b (2 * e) q r) :
    if b ≤ r then DivisionState t b e (q + e) (2 * (r - b)) else DivisionState t b e q (2 * r) := by
  have heq := h.eq
  have hlt := h.lt
  have hdvd : e ∣ q := (Dvd.intro_left 2 rfl).trans h.dvd
  split_ifs with hle
  · refine ⟨Nat.dvd_add hdvd dvd_rfl, ?_, by omega⟩
    have hsub : r = b + (r - b) := by omega
    rw [hsub] at heq
    rw [← heq]
    ring
  · refine ⟨hdvd, ?_, by omega⟩
    rw [← heq]
    ring

/-- When all the digits are there, nothing is left exactly if they are the quotient. -/
theorem DivisionState.remainder_eq_zero (h : DivisionState t b 1 q r) : r = 0 ↔ q * b = t := by
  have heq := h.eq
  omega

/-- All the digits are there. -/
theorem DivisionState.sticky (h : DivisionState t b 1 q r) :
    Sticky (2 * ((t : ℚ) / b)) (2 * q + (r != 0).toNat) := by
  have hd := h.digits one_pos
  have hb : 0 < b := by
    have := h.lt
    omega
  have hbq : (0 : ℚ) < b := by exact_mod_cast hb
  refine sticky_two_mul ?_ ?_ ?_
  · rw [le_div_iff₀ hbq]
    exact_mod_cast hd.le
  · rw [div_lt_iff₀ hbq]
    exact_mod_cast hd.lt
  · rw [div_eq_iff hbq.ne', bne_eq_false_iff_eq, h.remainder_eq_zero, eq_comm]
    exact_mod_cast Iff.rfl

end Division

/-! ## Square root -/

/-- The square root of `t` with the digits `q`; `r` is what is left. -/
structure RootState (t e q r : ℕ) : Prop where
  dvd : e ∣ q
  eq : 2 * (q * q) + r * e = 2 * t
  lt : r < 4 * q + 2 * e

section Root
variable {t e q r : ℕ}

theorem RootState.digits (h : RootState t e q r) (he : 0 < e) :
    Digits (fun n => n * n) t e q := by
  have heq := h.eq
  refine ⟨h.dvd, ?_, ?_⟩
  · omega
  · have hlt := Nat.mul_lt_mul_of_pos_right h.lt he
    have hexp : 2 * ((q + e) * (q + e)) = 2 * (q * q) + (4 * q + 2 * e) * e := by ring
    omega

theorem RootState.step (h : RootState t (2 * e) q r) :
    if 2 * q + e ≤ r then RootState t e (q + e) (2 * (r - (2 * q + e)))
    else RootState t e q (2 * r) := by
  have heq := h.eq
  have hlt := h.lt
  have hdvd : e ∣ q := (Dvd.intro_left 2 rfl).trans h.dvd
  split_ifs with hle
  · refine ⟨Nat.dvd_add hdvd dvd_rfl, ?_, by omega⟩
    have hsub : r = 2 * q + e + (r - (2 * q + e)) := by omega
    rw [hsub] at heq
    rw [← heq]
    ring
  · refine ⟨hdvd, ?_, by omega⟩
    rw [← heq]
    ring

/-- When all the digits are there, nothing is left exactly if they are the root. -/
theorem RootState.remainder_eq_zero (h : RootState t 1 q r) : r = 0 ↔ q * q = t := by
  have heq := h.eq
  omega

theorem RootState.sticky {K : Type*} [Field K] [LinearOrder K] [IsStrictOrderedRing K] {x : K}
    (h : RootState t 1 q r) (hx : 0 ≤ x) (hxx : x * x = t) :
    Sticky (2 * x) (2 * q + (r != 0).toNat) := by
  have hd := h.digits one_pos
  have hle : (q : K) * q ≤ x * x := by
    rw [hxx]
    exact_mod_cast hd.le
  have hlt : x * x < ((q : K) + 1) * (q + 1) := by
    rw [hxx]
    exact_mod_cast hd.lt
  refine sticky_two_mul ?_ ?_ ?_
  · exact (mul_self_le_mul_self_iff (Nat.cast_nonneg q) hx).mpr hle
  · exact (mul_self_lt_mul_self_iff hx (by positivity)).mpr hlt
  · rw [bne_eq_false_iff_eq, h.remainder_eq_zero]
    constructor
    · intro ht
      have hsq : x * x = q * q := by
        rw [hxx, ← ht]
        push_cast
        rfl
      exact (mul_self_inj hx (Nat.cast_nonneg q)).mp hsq
    · rintro rfl
      exact_mod_cast hxx

end Root

end Muntjac.Ieee

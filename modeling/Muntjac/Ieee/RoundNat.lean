import Muntjac.Ieee.Sticky
import Muntjac.Sync.Numerals
import Mathlib.Algebra.Order.Floor.Semiring

/-!
# Rounding to an integer

The five rounding directions, for a magnitude and a sign.  `Sticky.roundNat_div` is the
rule of every datapath: two bits below the integer, the lower one sticky, decide.
-/

namespace Muntjac.Ieee

inductive RoundingMode
  | tiesToEven
  | towardZero
  | towardNegative
  | towardPositive
  | tiesToAway
  deriving DecidableEq, Repr

variable {K : Type*} [Field K] [LinearOrder K] [FloorSemiring K]

/-- The magnitude `x` is rounded to the next integer above. -/
def roundsUp (rm : RoundingMode) (neg : Bool) (x : K) : Bool :=
  match rm with
  | .tiesToEven =>
      decide (1 / 2 < x - ⌊x⌋₊) || (decide (x - ⌊x⌋₊ = 1 / 2) && ⌊x⌋₊ % 2 == 1)
  | .towardZero => false
  | .towardNegative => neg && decide ((⌊x⌋₊ : K) < x)
  | .towardPositive => !neg && decide ((⌊x⌋₊ : K) < x)
  | .tiesToAway => decide (1 / 2 ≤ x - ⌊x⌋₊)

/-- The magnitude `x` rounded to an integer. -/
def roundNat (rm : RoundingMode) (neg : Bool) (x : K) : ℕ := ⌊x⌋₊ + (roundsUp rm neg x).toNat

theorem floor_le_roundNat (rm : RoundingMode) (neg : Bool) (x : K) : ⌊x⌋₊ ≤ roundNat rm neg x :=
  Nat.le_add_right _ _

theorem roundNat_le (rm : RoundingMode) (neg : Bool) (x : K) : roundNat rm neg x ≤ ⌊x⌋₊ + 1 := by
  have := Bool.toNat_le (roundsUp rm neg x)
  rw [roundNat]
  omega

variable [IsStrictOrderedRing K]

theorem roundsUp_natCast (rm : RoundingMode) (neg : Bool) (n : ℕ) :
    roundsUp rm neg (n : K) = false := by
  cases rm <;> simp [roundsUp]

@[simp] theorem roundNat_natCast (rm : RoundingMode) (neg : Bool) (n : ℕ) :
    roundNat rm neg (n : K) = n := by
  simp [roundNat, roundsUp_natCast]

theorem eq_roundNat_iff (rm : RoundingMode) (neg : Bool) (x : K) :
    x = roundNat rm neg x ↔ x = (⌊x⌋₊ : K) := by
  constructor
  · intro h
    have hfl : ⌊x⌋₊ = roundNat rm neg x := by
      conv_lhs => rw [h]
      exact Nat.floor_natCast _
    rw [hfl]
    exact h
  · intro h
    rw [h, roundNat_natCast]

/-- A magnitude next below an even integer is rounded up to it from half a unit on, if it
is rounded to nearest, and from anywhere in the last unit, if it is rounded up. -/
theorem le_roundNat_iff {x : K} {n : ℕ} (rm : RoundingMode) (neg : Bool) (h0 : 0 ≤ x)
    (heven : n % 2 = 0) (hlt : x < n) :
    n ≤ roundNat rm neg x ↔
      match rm with
      | .tiesToEven | .tiesToAway => (n : K) ≤ x + 1 / 2
      | .towardZero => False
      | .towardNegative => neg = true ∧ (n : K) < x + 1
      | .towardPositive => neg = false ∧ (n : K) < x + 1 := by
  have hfloor : ⌊x⌋₊ < n := (Nat.floor_lt h0).mpr hlt
  have hfl := Nat.lt_floor_add_one x
  rcases Nat.lt_or_ge (⌊x⌋₊ + 1) n with hfar | hnear
  · -- more than a unit below
    have hle := roundNat_le rm neg x
    have hcast : ((⌊x⌋₊ + 1 + 1 : ℕ) : K) ≤ n := Nat.cast_le.mpr hfar
    push_cast at hcast
    have hnot : ¬n ≤ roundNat rm neg x := by omega
    have h1 : ¬(n : K) < x + 1 := by linarith
    have h2 : ¬(n : K) ≤ x + 1 / 2 := by linarith
    cases rm <;> simp only [hnot, h1, h2, and_false]
  · have heq : n = ⌊x⌋₊ + 1 := by omega
    have hodd : ⌊x⌋₊ % 2 = 1 := by omega
    have hup : n ≤ roundNat rm neg x ↔ roundsUp rm neg x = true := by
      rw [roundNat, heq]
      cases roundsUp rm neg x <;> simp
    have hcast : (n : K) = ⌊x⌋₊ + 1 := by rw [heq, Nat.cast_add_one]
    rw [hup, hcast]
    cases rm with
    | tiesToEven =>
        simp only [roundsUp, hodd, Bool.or_eq_true, Bool.and_eq_true, decide_eq_true_eq,
          beq_self_eq_true, and_true]
        rw [← le_iff_lt_or_eq', le_sub_iff_add_le]
        constructor <;> intro h <;> linarith
    | towardZero => simp [roundsUp]
    | towardNegative => simp [roundsUp]
    | towardPositive => simp [roundsUp]
    | tiesToAway =>
        simp only [roundsUp, decide_eq_true_eq]
        constructor <;> intro h <;> linarith

/-- The decision from the last bit of the integer and the two bits below it. -/
def roundsUpBits (rm : RoundingMode) (neg : Bool) (n : ℕ) : Bool :=
  match rm with
  | .tiesToEven => n % 4 == 3 || n % 8 == 6
  | .towardZero => false
  | .towardNegative => neg && n % 4 != 0
  | .towardPositive => !neg && n % 4 != 0
  | .tiesToAway => decide (2 ≤ n % 4)

section Sticky
variable {x : K} {n : ℕ}

theorem Sticky.floor_div (h : Sticky x n) : ⌊x / 4⌋₊ = n / 4 := by
  have hlo : ((4 * (n / 4) : ℕ) : K) ≤ x := (h.le_iff (by omega)).mpr (by omega)
  have hhi : x < ((4 * (n / 4) + 4 : ℕ) : K) := (h.lt_iff (by omega)).mpr (by omega)
  push_cast at hlo hhi
  have hx : 0 ≤ x / 4 := by
    have : (0 : K) ≤ (n / 4 : ℕ) := Nat.cast_nonneg _
    linarith
  rw [Nat.floor_eq_iff hx]
  constructor <;> linarith

/-- The fraction below the integer compares with one half as the two bits do. -/
theorem Sticky.fract_cmp (h : Sticky x n) :
    ((⌊x / 4⌋₊ : K) < x / 4 ↔ n % 4 ≠ 0) ∧ (1 / 2 < x / 4 - ⌊x / 4⌋₊ ↔ n % 4 = 3) ∧
      (x / 4 - ⌊x / 4⌋₊ = 1 / 2 ↔ n % 4 = 2) := by
  have h0 : ((4 * (n / 4) : ℕ) : K) = 4 * (n / 4 : ℕ) := by push_cast; ring
  have h2 : ((4 * (n / 4) + 2 : ℕ) : K) = 4 * (n / 4 : ℕ) + 2 := by push_cast; ring
  rw [h.floor_div]
  refine ⟨?_, ?_, ?_⟩
  · have hle := h.le_iff (b := 4 * (n / 4)) (by omega)
    have heq := h.eq_iff (b := 4 * (n / 4)) (by omega)
    rw [h0] at hle heq
    have key : ((n / 4 : ℕ) : K) < x / 4 ↔ (4 * (n / 4 : ℕ) : K) ≤ x ∧ ¬x = 4 * (n / 4 : ℕ) := by
      rw [lt_div_iff₀ (by norm_num), lt_iff_le_and_ne, mul_comm, ne_comm, ne_eq]
    rw [key, hle, heq]
    omega
  · have hle := h.le_iff (b := 4 * (n / 4) + 2) (by omega)
    have heq := h.eq_iff (b := 4 * (n / 4) + 2) (by omega)
    rw [h2] at hle heq
    have key : (1 / 2 : K) < x / 4 - (n / 4 : ℕ) ↔
        4 * (n / 4 : ℕ) + 2 ≤ x ∧ ¬x = 4 * (n / 4 : ℕ) + 2 := by
      constructor
      · intro hx
        exact ⟨by linarith, fun he => by linarith⟩
      · rintro ⟨hx, hne⟩
        have := lt_of_le_of_ne hx (Ne.symm hne)
        linarith
    rw [key, hle, heq]
    omega
  · have heq := h.eq_iff (b := 4 * (n / 4) + 2) (by omega)
    rw [h2] at heq
    have key : x / 4 - ((n / 4 : ℕ) : K) = 1 / 2 ↔ x = 4 * (n / 4 : ℕ) + 2 := by
      constructor <;> intro hx <;> linarith
    rw [key, heq]
    omega

theorem Sticky.roundsUp_div (h : Sticky x n) (rm : RoundingMode) (neg : Bool) :
    roundsUp rm neg (x / 4) = roundsUpBits rm neg n := by
  obtain ⟨hfl, hgt, heq⟩ := h.fract_cmp
  have hge : (1 / 2 : K) ≤ x / 4 - ⌊x / 4⌋₊ ↔ 2 ≤ n % 4 := by
    rw [le_iff_lt_or_eq, hgt, @eq_comm K (1 / 2), heq]
    omega
  have hodd : ⌊x / 4⌋₊ % 2 = 1 ↔ n / 4 % 2 = 1 := by rw [h.floor_div]
  cases rm with
  | tiesToEven =>
      rw [Bool.eq_iff_iff]
      simp only [roundsUp, roundsUpBits, hgt, heq, hodd, Bool.or_eq_true, Bool.and_eq_true,
        decide_eq_true_eq, beq_iff_eq]
      omega
  | towardZero => rfl
  | towardNegative =>
      rw [Bool.eq_iff_iff]
      simp only [roundsUp, roundsUpBits, hfl, Bool.and_eq_true, decide_eq_true_eq, bne_iff_ne]
  | towardPositive =>
      rw [Bool.eq_iff_iff]
      simp only [roundsUp, roundsUpBits, hfl, Bool.and_eq_true, decide_eq_true_eq, bne_iff_ne]
  | tiesToAway =>
      rw [Bool.eq_iff_iff]
      simp only [roundsUp, roundsUpBits, hge, decide_eq_true_eq]

/-- The two bits below the integer decide, the lower one sticky. -/
theorem Sticky.roundNat_div (h : Sticky x n) (rm : RoundingMode) (neg : Bool) :
    roundNat rm neg (x / 4) = n / 4 + (roundsUpBits rm neg n).toNat := by
  rw [roundNat, h.floor_div, h.roundsUp_div]

/-- Nothing is lost exactly if both bits are clear. -/
theorem Sticky.exact_div (h : Sticky x n) : x / 4 = (⌊x / 4⌋₊ : K) ↔ n % 4 = 0 := by
  have hx : 0 ≤ x / 4 := by
    have hlo : ((0 : ℕ) : K) ≤ x := (h.le_iff rfl).mpr (Nat.zero_le n)
    rw [Nat.cast_zero] at hlo
    positivity
  have hle : (⌊x / 4⌋₊ : K) ≤ x / 4 := Nat.floor_le hx
  refine not_iff_not.mp (Iff.trans ?_ h.fract_cmp.1)
  rw [lt_iff_le_and_ne]
  exact ⟨fun hne => ⟨hle, Ne.symm hne⟩, fun hne => Ne.symm hne.2⟩

end Sticky

end Muntjac.Ieee

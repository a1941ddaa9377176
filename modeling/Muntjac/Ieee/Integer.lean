import Muntjac.Ieee.Arith
import Muntjac.Ieee.Exceptions

/-!
# Integers

An integer is rounded to a format as any number is; integers that are not too large for the
format cannot overflow, and none underflows.  A datum is rounded to an integer, and the
range is looked at after that.

## Main definitions

* `Outcome.ofInt` — an integer before it is rounded.
* `RoundsToInt` — an integer is a number rounded by a mode.
* `Datum.toInt` — the integer in a range, and the flags.

## Main results

* `deliver_ofInt_flags` — an integer is delivered inexactly if the format does not hold it,
  and no other flag is set.
* `roundsToInt_roundInt` — a magnitude with its sign is rounded by the mode.
* `Datum.toInt_narrow` — the integer of a narrower range.
-/

namespace Muntjac.Ieee

namespace Format
variable (f : Format)

/-! ## Integers to numbers -/

/-- An integer as the outcome of an operation; zero is positive. -/
def Outcome.ofInt (z : ℤ) : Outcome ℚ :=
  if z = 0 then .zero false else .number (decide (z < 0)) (z.natAbs : ℚ)

section Exact
variable {K : Type*} [Field K] [LinearOrder K] [FloorSemiring K] [IsStrictOrderedRing K]
variable (rm : RoundingMode) (neg : Bool) {x : K}

/-- Rounding keeps exactly the numbers of the format. -/
theorem exact_iff (hx : 0 < x) : x = f.roundSig rm neg x * f.ulp x ↔ f.Representable x := by
  constructor
  · intro h
    rw [h]
    exact f.representable_mul_ulp x (f.roundSig_le rm neg hx)
  · intro h
    exact h.exact f rm neg hx

/-- The flags of a number far from both ends of the format. -/
theorem round_flags_of_normal (hlo : 2 ^ f.minExp ≤ x) (hhi : x < 2 ^ f.maxExp) :
    (f.round rm neg x).2 = { inexact := decide (x ≠ f.roundSig rm neg x * f.ulp x) } := by
  have hx : 0 < x := (zpow_pos two_pos _).trans_le hlo
  have hlog : Int.log 2 x < f.maxExp :=
    (Int.lt_zpow_iff_log_lt one_lt_two hx).mp (by exact_mod_cast hhi)
  have hround := f.roundUnbounded_le rm neg hx
  rw [f.roundUnbounded_eq rm neg hx hlo] at hround
  have hlt : f.roundSig rm neg x * f.ulp x < 2 ^ (f.maxExp + 1) :=
    hround.trans_lt (zpow_lt_zpow_right₀ one_lt_two (by omega))
  rw [f.round_flags hx hlt, decide_eq_false hlo.not_gt, Bool.and_false]

end Exact

/-- An integer is inexact if the format does not hold it; no other flag is set. -/
theorem deliver_ofInt_flags (rm : RoundingMode) {z : ℤ}
    (hz : ((z.natAbs : ℕ) : ℚ) < 2 ^ f.maxExp) :
    ((f.deliver rm (Outcome.ofInt z)).2.inexact = true ↔ ¬f.Representable (z.natAbs : ℚ)) ∧
      { (f.deliver rm (Outcome.ofInt z)).2 with inexact := false } = ({} : Flags) := by
  by_cases h0 : z = 0
  · have hrep : f.Representable ((z.natAbs : ℕ) : ℚ) :=
      ⟨0, f.minExp - f.sigWidth, Nat.two_pow_pos _, le_rfl, by simp [h0]⟩
    rw [Outcome.ofInt, if_pos h0]
    exact ⟨iff_of_false Bool.false_ne_true (not_not.mpr hrep), rfl⟩
  · have hpos : (1 : ℚ) ≤ z.natAbs := by exact_mod_cast Int.natAbs_pos.mpr h0
    have hb := f.one_le_bias
    have hmin : f.minExp = 1 - f.bias := rfl
    have hone : (2 : ℚ) ^ f.minExp ≤ z.natAbs := by
      refine le_trans ?_ hpos
      rw [← zpow_zero (2 : ℚ)]
      exact zpow_le_zpow_right₀ one_le_two (by omega)
    have hflags := f.round_flags_of_normal rm (decide (z < 0)) hone hz
    have hexact := f.exact_iff rm (decide (z < 0)) (one_pos.trans_le hpos)
    rw [Outcome.ofInt, if_neg h0]
    change ((f.round rm (decide (z < 0)) (z.natAbs : ℚ)).2.inexact = true ↔ _) ∧
      { (f.round rm (decide (z < 0)) (z.natAbs : ℚ)).2 with inexact := false } = ({} : Flags)
    rw [hflags]
    exact ⟨decide_eq_true_iff.trans (not_congr hexact), rfl⟩

/-! ## Numbers to integers -/

/-- The magnitude `m` with a sign, rounded to an integer. -/
def roundInt (rm : RoundingMode) (neg : Bool) (m : ℚ) : ℤ :=
  if neg then -(roundNat rm neg m : ℤ) else roundNat rm neg m

/-- The integer `z` is the number `x` rounded by the mode. -/
def RoundsToInt (rm : RoundingMode) (x : ℚ) (z : ℤ) : Prop :=
  match rm with
  | .tiesToEven => |x - z| ≤ 1 / 2 ∧ (|x - z| = 1 / 2 → Even z)
  | .towardZero => z = if x < 0 then ⌈x⌉ else ⌊x⌋
  | .towardNegative => z = ⌊x⌋
  | .towardPositive => z = ⌈x⌉
  | .tiesToAway => |x - z| ≤ 1 / 2 ∧ (|x - z| = 1 / 2 → |x| ≤ |(z : ℚ)|)

/-- A magnitude with its sign. -/
def signed (neg : Bool) (m : ℚ) : ℚ := if neg then -m else m

theorem cast_roundInt (rm : RoundingMode) (neg : Bool) (m : ℚ) :
    (roundInt rm neg m : ℚ) = signed neg (roundNat rm neg m) := by
  cases neg <;> simp [roundInt, signed]

theorem abs_signed (neg : Bool) {m : ℚ} (hm : 0 ≤ m) : |signed neg m| = m := by
  cases neg with
  | false => exact abs_of_nonneg hm
  | true => exact (abs_neg m).trans (abs_of_nonneg hm)

/-- A sign does not change the distance of two magnitudes. -/
theorem abs_signed_sub (neg : Bool) (m n : ℚ) : |signed neg m - signed neg n| = |m - n| := by
  cases neg with
  | false => rfl
  | true =>
      change |-m - -n| = _
      rw [neg_sub_neg, abs_sub_comm]

section Nearest
variable {rm : RoundingMode} {neg : Bool} {m : ℚ}

/-- The distance to the rounded magnitude, from the fraction. -/
theorem abs_sub_roundNat (hm : 0 ≤ m) :
    |m - roundNat rm neg m| =
      if roundsUp rm neg m then 1 - (m - ⌊m⌋₊) else m - ⌊m⌋₊ := by
  have hlo := Nat.floor_le hm
  have hhi := Nat.lt_floor_add_one m
  rw [roundNat]
  cases roundsUp rm neg m with
  | true =>
      rw [Bool.toNat_true, Nat.cast_add_one, abs_of_nonpos (by linarith), if_pos rfl]
      ring
  | false =>
      rw [Bool.toNat_false, Nat.add_zero, abs_of_nonneg (by linarith), if_neg Bool.false_ne_true]

/-- Only one half is half a unit away. -/
theorem fract_of_tie (hm : 0 ≤ m) (h : |m - roundNat rm neg m| = 1 / 2) : m - ⌊m⌋₊ = 1 / 2 := by
  rw [abs_sub_roundNat hm] at h
  split_ifs at h
  · linarith
  · exact h

/-- A direction that rounds up from one half on, and down to one half, is to a nearest integer. -/
theorem abs_sub_roundNat_le (hm : 0 ≤ m) (hup : roundsUp rm neg m = true → 1 / 2 ≤ m - ⌊m⌋₊)
    (hdown : roundsUp rm neg m = false → m - ⌊m⌋₊ ≤ 1 / 2) :
    |m - roundNat rm neg m| ≤ 1 / 2 := by
  rw [abs_sub_roundNat hm]
  split_ifs with h
  · have := hup h
    linarith
  · exact hdown (Bool.eq_false_of_not_eq_true h)

theorem even_roundNat (hm : 0 ≤ m) (h : |m - roundNat .tiesToEven neg m| = 1 / 2) :
    Even (roundNat .tiesToEven neg m) := by
  have hfract := fract_of_tie hm h
  rw [Nat.even_iff, roundNat, roundsUp, hfract, decide_eq_false (lt_irrefl _), decide_eq_true rfl,
    Bool.false_or, Bool.true_and]
  rcases Nat.mod_two_eq_zero_or_one ⌊m⌋₊ with h | h <;> rw [h] <;> simp <;> omega

theorem le_roundNat_tiesToAway (hm : 0 ≤ m) (h : |m - roundNat .tiesToAway neg m| = 1 / 2) :
    m ≤ roundNat .tiesToAway neg m := by
  have hfract := fract_of_tie hm h
  rw [roundNat, roundsUp, decide_eq_true hfract.ge, Bool.toNat_true, Nat.cast_add_one]
  linarith

end Nearest

/-- Rounding away from zero, if that is what the direction does. -/
theorem natCast_roundNat_of_away {rm : RoundingMode} {neg : Bool} {m : ℚ} (hm : 0 ≤ m)
    (h : roundsUp rm neg m = decide ((⌊m⌋₊ : ℚ) < m)) : (roundNat rm neg m : ℤ) = ⌈m⌉ := by
  have hlo := Nat.floor_le hm
  have hhi := Nat.lt_floor_add_one m
  rw [eq_comm, Int.ceil_eq_iff, roundNat, h]
  by_cases hlt : (⌊m⌋₊ : ℚ) < m
  · rw [decide_eq_true hlt, Bool.toNat_true]
    push_cast
    constructor <;> linarith
  · rw [decide_eq_false hlt, Bool.toNat_false]
    push_cast
    constructor <;> linarith

theorem natCast_roundNat_of_zero {rm : RoundingMode} {neg : Bool} {m : ℚ} (hm : 0 ≤ m)
    (h : roundsUp rm neg m = false) : (roundNat rm neg m : ℤ) = ⌊m⌋ := by
  rw [roundNat, h, Bool.toNat_false, Nat.add_zero]
  exact Int.natCast_floor_eq_floor hm

/-- A magnitude with its sign is rounded by the mode. -/
theorem roundsToInt_roundInt (rm : RoundingMode) (neg : Bool) {m : ℚ} (hm : 0 ≤ m) :
    RoundsToInt rm (signed neg m) (roundInt rm neg m) := by
  have hdist : |signed neg m - roundInt rm neg m| = |m - roundNat rm neg m| := by
    rw [cast_roundInt, abs_signed_sub]
  cases rm with
  | tiesToEven =>
      rw [RoundsToInt, hdist]
      refine ⟨abs_sub_roundNat_le hm ?_ ?_, fun htie => ?_⟩
      · simp only [roundsUp, Bool.or_eq_true, Bool.and_eq_true, decide_eq_true_eq]
        rintro (h | h)
        · exact h.le
        · exact h.1.ge
      · simp only [roundsUp, Bool.or_eq_false_iff, decide_eq_false_iff_not, not_lt]
        exact fun h => h.1
      · have heven := even_roundNat hm htie
        rw [roundInt]
        cases neg with
        | false => exact (Int.even_coe_nat _).mpr heven
        | true => exact ((Int.even_coe_nat _).mpr heven).neg
  | towardZero =>
      rw [RoundsToInt, roundInt, signed, natCast_roundNat_of_zero hm rfl]
      cases neg with
      | false => rw [if_neg Bool.false_ne_true, if_neg Bool.false_ne_true, if_neg hm.not_gt]
      | true =>
          rw [if_pos rfl, if_pos rfl, Int.ceil_neg]
          split_ifs with h
          · rfl
          · obtain rfl : m = 0 := by linarith
            simp
  | towardNegative =>
      rw [RoundsToInt, roundInt, signed]
      cases neg with
      | false =>
          rw [if_neg Bool.false_ne_true, if_neg Bool.false_ne_true]
          exact natCast_roundNat_of_zero hm rfl
      | true =>
          rw [if_pos rfl, if_pos rfl, Int.floor_neg, neg_inj]
          exact natCast_roundNat_of_away hm rfl
  | towardPositive =>
      rw [RoundsToInt, roundInt, signed]
      cases neg with
      | false =>
          rw [if_neg Bool.false_ne_true, if_neg Bool.false_ne_true]
          exact natCast_roundNat_of_away hm rfl
      | true =>
          rw [if_pos rfl, if_pos rfl, Int.ceil_neg, neg_inj]
          exact natCast_roundNat_of_zero hm rfl
  | tiesToAway =>
      rw [RoundsToInt, hdist]
      refine ⟨abs_sub_roundNat_le hm ?_ ?_, fun htie => ?_⟩
      · simp only [roundsUp, decide_eq_true_eq]
        exact id
      · simp only [roundsUp, decide_eq_false_iff_not, not_le]
        exact le_of_lt
      · rw [cast_roundInt, abs_signed neg hm, abs_signed neg (Nat.cast_nonneg _)]
        exact le_roundNat_tiesToAway hm htie

/-- Rounding moves a magnitude if no integer is the number. -/
theorem roundNat_ne_iff (rm : RoundingMode) (neg : Bool) {m : ℚ} (hm : 0 ≤ m) :
    (roundNat rm neg m : ℚ) ≠ m ↔ ∀ k : ℤ, signed neg m ≠ k := by
  constructor
  · intro h k hk
    have hnat : m = (k.natAbs : ℚ) := by
      rw [← abs_signed neg hm, hk, Nat.cast_natAbs, Int.cast_abs]
    rw [hnat, roundNat_natCast] at h
    exact h rfl
  · intro h heq
    refine h (roundInt rm neg m) ?_
    rw [cast_roundInt, heq]

/-- The result if its integer is in the range from `lo` to `hi`, and the end of the range that
it passes otherwise. -/
def saturate (lo hi : ℤ) (r : ℤ × Flags) : ℤ × Flags :=
  if r.1 < lo then (lo, { invalidOperation := true })
  else if hi < r.1 then (hi, { invalidOperation := true })
  else r

/-- The integer that is delivered for a datum, in the range from `lo` to `hi`, and the flags:
the range is decided after rounding. -/
def Datum.toInt (rm : RoundingMode) (lo hi : ℤ) : Datum → ℤ × Flags
  | .nan _ => (hi, { invalidOperation := true })
  | .inf neg => (if neg then lo else hi, { invalidOperation := true })
  | .finite neg m =>
      saturate lo hi
        (roundInt rm neg m, { inexact := decide ((roundNat rm neg m : ℚ) ≠ m) })

section Saturate
variable {lo hi lo' hi' : ℤ}

theorem saturate_of_mem {r : ℤ × Flags} (hlo : lo ≤ r.1) (hhi : r.1 ≤ hi) :
    saturate lo hi r = r := by
  rw [saturate, if_neg hlo.not_gt, if_neg hhi.not_gt]

theorem saturate_above (h : lo' ≤ hi') (hle : hi' ≤ hi) :
    saturate lo' hi' (hi, { invalidOperation := true }) = (hi', { invalidOperation := true }) := by
  unfold saturate
  rw [if_neg (show ¬hi < lo' by omega)]
  rcases lt_or_eq_of_le hle with h | rfl
  · rw [if_pos h]
  · rw [if_neg (lt_irrefl _)]

theorem saturate_below (h : lo' ≤ hi') (hle : lo ≤ lo') :
    saturate lo' hi' (lo, { invalidOperation := true }) = (lo', { invalidOperation := true }) := by
  unfold saturate
  rcases lt_or_eq_of_le hle with hlt | rfl
  · rw [if_pos hlt]
  · rw [if_neg (lt_irrefl _), if_neg (show ¬hi' < lo by omega)]

/-- The wider of two ranges need not be looked at. -/
theorem saturate_saturate (h1 : lo ≤ lo') (h2 : lo' ≤ hi') (h3 : hi' ≤ hi) (r : ℤ × Flags) :
    saturate lo' hi' (saturate lo hi r) = saturate lo' hi' r := by
  rcases lt_or_ge r.1 lo with hlo | hlo
  · have hr : saturate lo hi r = (lo, { invalidOperation := true }) := if_pos hlo
    rw [hr, saturate_below h2 h1, saturate, if_pos (by omega)]
  · rcases lt_or_ge hi r.1 with hhi | hhi
    · have hr : saturate lo hi r = (hi, { invalidOperation := true }) := by
        rw [saturate, if_neg hlo.not_gt, if_pos hhi]
      rw [hr, saturate_above h2 h3, saturate, if_neg (by omega), if_pos (by omega)]
    · rw [saturate_of_mem hlo hhi]

/-- The integer of a narrower range, from that of a wider one. -/
theorem Datum.toInt_narrow (rm : RoundingMode) (h1 : lo ≤ lo') (h2 : lo' ≤ hi') (h3 : hi' ≤ hi)
    (d : Datum) : d.toInt rm lo' hi' = saturate lo' hi' (d.toInt rm lo hi) := by
  cases d with
  | nan s => exact (saturate_above h2 h3).symm
  | inf s =>
      cases s with
      | false => exact (saturate_above h2 h3).symm
      | true => exact (saturate_below h2 h1).symm
  | finite s m => exact (saturate_saturate h1 h2 h3 _).symm

/-- The integer is in its range. -/
theorem Datum.toInt_mem (rm : RoundingMode) (h : lo ≤ hi) (d : Datum) :
    lo ≤ (d.toInt rm lo hi).1 ∧ (d.toInt rm lo hi).1 ≤ hi := by
  cases d with
  | nan s => exact ⟨h, le_rfl⟩
  | inf s =>
      cases s with
      | false => exact ⟨h, le_rfl⟩
      | true => exact ⟨le_rfl, h⟩
  | finite s m =>
      rw [toInt, saturate]
      split_ifs with hlo hhi
      · exact ⟨le_rfl, h⟩
      · exact ⟨h, le_rfl⟩
      · exact ⟨not_lt.mp hlo, not_lt.mp hhi⟩

/-- No other flags are set. -/
theorem Datum.toInt_flags (rm : RoundingMode) (lo hi : ℤ) (d : Datum) :
    { (d.toInt rm lo hi).2 with invalidOperation := true, inexact := false } =
      ({ invalidOperation := true } : Flags) := by
  cases d with
  | nan s => rfl
  | inf s => rfl
  | finite s m =>
      rw [toInt, saturate]
      split_ifs <;> rfl

end Saturate

end Format

end Muntjac.Ieee

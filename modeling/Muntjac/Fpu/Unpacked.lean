import Muntjac.Ieee.Format

/-!
# Unpacked floating point numbers

The units of the FPU exchange numbers as a sign, a signed exponent, a significand without
its leading one, and three marks for the special values.  The widths differ between the
units and are parameters of their functions.

Here are also the two shifters that every unit uses: `muntjac_fpu_right_shift` and
`muntjac_fpu_normalize`.
-/

namespace Muntjac.Fpu

open Sync Ieee

/-- The number formats of the FPU. -/
def single : Format := ⟨8, 23, by decide, by decide⟩
def double : Format := ⟨11, 52, by decide, by decide⟩

/-- The format that `double_i` selects. -/
def format (isDouble : Bool) : Format := if isDouble then double else single

/-- `decoded_fp_t`, `intermediate_fp_t`. -/
structure Unpacked where
  sign : Bool
  exponent : ℤ
  significand : ℕ
  isZero : Bool
  isInf : Bool
  isNan : Bool
  deriving DecidableEq, Repr, Inhabited

/-- `InExpWidth`, `InSigWidth`, `OutExpWidth`, `OutSigWidth`. -/
structure Widths where
  inExpWidth : ℕ
  inSigWidth : ℕ
  outExpWidth : ℕ
  outSigWidth : ℕ

/-- The value of a signed wire of `w` bits. -/
def wrap (w : ℕ) (x : ℤ) : ℤ := x.bmod (2 ^ w)

/-- The bits of a signed wire of `w` bits. -/
def bits (w : ℕ) (x : ℤ) : ℕ := (x % 2 ^ w).toNat

theorem wrap_eq {w : ℕ} {x : ℤ} (hlo : -2 ^ w ≤ 2 * x) (hhi : 2 * x < 2 ^ w) : wrap w x = x := by
  apply Int.bmod_eq_of_le_mul_two
  · push_cast
    omega
  · push_cast
    omega

theorem bits_eq {w : ℕ} {x : ℤ} (h0 : 0 ≤ x) (h : x < 2 ^ w) : bits w x = x.toNat := by
  rw [bits, Int.emod_eq_of_lt h0 h]

/-! ## `muntjac_fpu_right_shift` -/

/-- `residual[k]`: whether one of the bits `k` to 0 is set. -/
def residual (data k : ℕ) : ℕ := (data % 2 ^ (k + 1) != 0).toNat

def rightShift (dataWidth shiftWidth data shift : ℕ) : ℕ :=
  if dataWidth % 2 ^ shiftWidth ≤ shift then residual data (dataWidth - 1)
  else
    cat (data / 2 / 2 ^ (shift % 2 ^ clog2 dataWidth)) 1
      (residual data (shift % 2 ^ clog2 dataWidth))

theorem rightShift_eq {dataWidth shiftWidth data shift : ℕ} (hw : dataWidth ≠ 0)
    (hs : dataWidth < 2 ^ shiftWidth) (hd : data < 2 ^ dataWidth) :
    rightShift dataWidth shiftWidth data shift = jamShift data shift := by
  have hres : ∀ k, residual data k = if data % 2 ^ (k + 1) = 0 then 0 else 1 := by
    intro k
    by_cases h : data % 2 ^ (k + 1) = 0 <;> simp [residual, h]
  rw [rightShift, Nat.mod_eq_of_lt hs, jamShift]
  split_ifs with hle h0 h0
  · have hlt : data < 2 ^ (shift + 1) := hd.trans_le (Nat.pow_le_pow_right two_pos (by omega))
    rw [Nat.mod_eq_of_lt hlt] at h0
    simp [residual, h0]
  · have hlt : data < 2 ^ (shift + 1) := hd.trans_le (Nat.pow_le_pow_right two_pos (by omega))
    rw [Nat.mod_eq_of_lt hlt] at h0
    rw [hres, show dataWidth - 1 + 1 = dataWidth by omega, Nat.mod_eq_of_lt hd, if_neg h0,
      Nat.div_eq_of_lt hlt]
  all_goals
    have hb : shift % 2 ^ clog2 dataWidth = shift :=
      Nat.mod_eq_of_lt ((not_le.mp hle).trans_le (le_two_pow_clog2 dataWidth))
    rw [hb, hres, cat, Nat.div_div_eq_div_mul, ← Nat.pow_succ',
      Nat.succ_eq_add_one]
    simp only [h0, if_true, if_false]
    omega

/-! ## `muntjac_fpu_normalize` -/

/-- `shift_o`: the number of leading zeros, found as the lowest set bit of the reversed
word; zero if the word is zero. -/
def normalizeShift (dataWidth data : ℕ) : ℕ :=
  ((List.range dataWidth).find? fun i => data.testBit (dataWidth - 1 - i)).getD 0

/-- `data_o`. -/
def normalizeData (dataWidth data : ℕ) : ℕ :=
  data * 2 ^ normalizeShift dataWidth data % 2 ^ dataWidth

theorem normalizeShift_eq {w data : ℕ} (hd : data < 2 ^ w) (h0 : data ≠ 0) :
    normalizeShift w data = w - 1 - Nat.log2 data := by
  have hlog : Nat.log2 data < w := (Nat.log2_lt h0).mpr hd
  have hfind : (List.range w).find? (fun i => data.testBit (w - 1 - i)) =
      some (w - 1 - Nat.log2 data) := by
    rw [List.find?_range_eq_some]
    refine ⟨?_, by simp; omega, fun j hj => ?_⟩
    · rw [show w - 1 - (w - 1 - Nat.log2 data) = Nat.log2 data by omega]
      exact Nat.testBit_log2 h0
    · have hlt : data < 2 ^ (w - 1 - j) := (Nat.log2_lt h0).mp (by omega)
      rw [Nat.testBit_lt_two_pow hlt]
      rfl
  rw [normalizeShift, hfind, Option.getD_some]

@[simp] theorem normalizeShift_zero (w : ℕ) : normalizeShift w 0 = 0 := by
  have hnone : (List.range w).find? (fun i => Nat.testBit 0 (w - 1 - i)) = none := by simp
  rw [normalizeShift, hnone, Option.getD_none]

/-- A normalized word has its leading bit. -/
theorem normalizeData_eq {w data : ℕ} (hd : data < 2 ^ w) (h0 : data ≠ 0) :
    normalizeData w data = data * 2 ^ normalizeShift w data ∧
      2 ^ (w - 1) ≤ data * 2 ^ normalizeShift w data ∧
      data * 2 ^ normalizeShift w data < 2 ^ w := by
  have hlog : Nat.log2 data < w := (Nat.log2_lt h0).mpr hd
  have hlo : 2 ^ (w - 1) ≤ data * 2 ^ normalizeShift w data := by
    rw [normalizeShift_eq hd h0]
    calc 2 ^ (w - 1) = 2 ^ Nat.log2 data * 2 ^ (w - 1 - Nat.log2 data) := by
          rw [← Nat.pow_add]
          congr 1
          omega
      _ ≤ data * 2 ^ (w - 1 - Nat.log2 data) := Nat.mul_le_mul_right _ (Nat.log2_self_le h0)
  have hhi : data * 2 ^ normalizeShift w data < 2 ^ w := by
    rw [normalizeShift_eq hd h0]
    calc data * 2 ^ (w - 1 - Nat.log2 data)
        < 2 ^ (Nat.log2 data + 1) * 2 ^ (w - 1 - Nat.log2 data) :=
          Nat.mul_lt_mul_of_pos_right Nat.lt_log2_self (Nat.two_pow_pos _)
      _ = 2 ^ w := by
          rw [← Nat.pow_add]
          congr 1
          omega
  exact ⟨Nat.mod_eq_of_lt hhi, hlo, hhi⟩

end Muntjac.Fpu

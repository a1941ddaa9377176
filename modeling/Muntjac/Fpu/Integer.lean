import Muntjac.Fpu.Round

/-!
# Integer conversions

`muntjac_fpu_normalize_from_int` and `muntjac_fpu_round_to_int` with their versions for
both sizes of integers.
-/

namespace Muntjac.Fpu

open Sync Ieee

/-! ## From integers -/

def normalizeFromInt (intWidth outExpWidth outSigWidth : ℕ) (signed : Bool) (int : ℕ) : Unpacked :=
  let sign := signed && int.testBit (intWidth - 1)
  let abs := if sign then bits intWidth (-int) else int
  let normSig := normalizeData 64 abs
  { sign := sign
    exponent := wrap outExpWidth (intWidth - 1 - normalizeShift 64 abs)
    significand :=
      cat (slice normSig (intWidth - 2) (intWidth - 2 - (outSigWidth - 1) + 1)) 1
        (slice normSig (intWidth - 2 - outSigWidth + 1) 0 != 0).toNat
    isZero := abs == 0
    isInf := false
    isNan := false }

/-- `muntjac_fpu_normalize_from_int_multi`. -/
def normalizeFromIntMulti (outExpWidth outSigWidth : ℕ) (signed dword : Bool) (int : ℕ) :
    Unpacked :=
  let inputInt :=
    if dword then int
    else if signed then cat (if int.testBit 31 then 2 ^ 32 - 1 else 0) 32 (slice int 31 0)
    else slice int 31 0
  normalizeFromInt 64 outExpWidth outSigWidth signed inputInt

/-! ## To integers -/

namespace RoundToInt
variable (inExpWidth inSigWidth intWidth : ℕ) (rm : RoundingMode) (signed : Bool) (x : Unpacked)

def effectiveExponent : ℤ := wrap (inExpWidth + 1) (x.exponent - (intWidth - 1))

def intSignificand : ℕ :=
  rightShift (intWidth + 2) (inExpWidth + 1)
    (cat (cat 1 inSigWidth x.significand) (intWidth - inSigWidth + 1) 0)
    (bits (inExpWidth + 1) (-effectiveExponent inExpWidth intWidth x))

def significandRounded : ℕ :=
  slice (intSignificand inExpWidth inSigWidth intWidth x) (intWidth + 1) 2 +
    (round rm x.sign (intSignificand inExpWidth inSigWidth intWidth x % 8)).2.toNat

/-- `positive_overflow` and `negative_overflow` of the rounded significand. -/
def overflow (significandRounded : ℕ) : Bool :=
  let lsbAllZero := slice significandRounded (intWidth - 2) 0 == 0
  if x.sign then
    significandRounded.testBit intWidth ||
      (significandRounded.testBit (intWidth - 1) && (!signed || !lsbAllZero)) ||
      (!signed && !lsbAllZero)
  else
    significandRounded.testBit intWidth ||
      (signed && significandRounded.testBit (intWidth - 1))

def positiveMax : ℕ := cat (!signed).toNat (intWidth - 1) (2 ^ (intWidth - 1) - 1)
def negativeMax : ℕ := cat signed.toNat (intWidth - 1) 0
def maxValue : ℕ := if x.sign then negativeMax intWidth signed else positiveMax intWidth signed

end RoundToInt

open RoundToInt in
/-- `muntjac_fpu_round_to_int`: `int_o` and `exception_o`. -/
def roundToInt (inExpWidth inSigWidth intWidth : ℕ) (rm : RoundingMode) (signed : Bool)
    (x : Unpacked) : ℕ × Flags :=
  let rounded := significandRounded inExpWidth inSigWidth intWidth rm x
  if x.isNan then (positiveMax intWidth signed, { invalidOperation := true })
  else if x.isZero then (0, {})
  else if x.isInf || decide (0 < effectiveExponent inExpWidth intWidth x) then
    (maxValue intWidth signed x, { invalidOperation := true })
  else if overflow intWidth signed x rounded then
    (maxValue intWidth signed x, { invalidOperation := true })
  else
    (if x.sign then bits intWidth (-rounded) else rounded % 2 ^ intWidth,
      { inexact :=
          (round rm x.sign (intSignificand inExpWidth inSigWidth intWidth x % 8)).1 })

/-- `muntjac_fpu_round_to_int_multi`. -/
def roundToIntMulti (inExpWidth inSigWidth : ℕ) (rm : RoundingMode) (signed dword : Bool)
    (x : Unpacked) : ℕ × Flags :=
  let r := roundToInt inExpWidth inSigWidth 64 rm signed x
  let saturated := { r.2 with invalidOperation := true, inexact := false }
  if dword then r
  else if signed then
    if r.1.testBit 63 then
      if slice r.1 62 31 != 2 ^ 32 - 1 then (0xffffffff80000000, saturated)
      else (cat (if r.1.testBit 31 then 2 ^ 33 - 1 else 0) 31 (slice r.1 30 0), r.2)
    else if slice r.1 62 31 != 0 then (0x7fffffff, saturated)
    else (cat (if r.1.testBit 31 then 2 ^ 33 - 1 else 0) 31 (slice r.1 30 0), r.2)
  else if slice r.1 63 32 != 0 then (0xffffffffffffffff, saturated)
  else (cat (if r.1.testBit 31 then 2 ^ 33 - 1 else 0) 31 (slice r.1 30 0), r.2)

end Muntjac.Fpu

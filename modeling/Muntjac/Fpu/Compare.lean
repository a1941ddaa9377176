import Muntjac.Fpu.Normalize

/-!
# Comparison, minimum and maximum

`muntjac_fpu_compare` and the minimum and maximum logic of `muntjac_fpu`.
-/

namespace Muntjac.Fpu

open Sync Ieee

/-- The outputs of `muntjac_fpu_compare`. -/
structure Compared where
  lt : Bool
  eq : Bool
  unordered : Bool
  invalidOperation : Bool
  deriving DecidableEq, Repr

/-- `ordered_eq` and `ordered_lt`. -/
def ordered (a b : Unpacked) : Bool × Bool :=
  let expSigEq := a.exponent == b.exponent && a.significand == b.significand
  let expSigLt := decide (a.exponent < b.exponent) ||
    (a.exponent == b.exponent && decide (a.significand < b.significand))
  if a.isZero && b.isZero then (true, false)
  else if a.isZero then (false, !b.sign)
  else if b.isZero then (false, a.sign)
  else if a.sign != b.sign then (false, a.sign)
  else if a.isInf && b.isInf then (true, false)
  else if a.isInf then (false, a.sign)
  else if b.isInf then (false, !b.sign)
  else if expSigEq then (true, false)
  else (false, expSigLt ^^ a.sign)

/-- `muntjac_fpu_compare`. -/
def compare (sigWidth : ℕ) (signaling : Bool) (a b : Unpacked) : Compared :=
  let unordered := a.isNan || b.isNan
  { lt := !unordered && (ordered a b).2
    eq := !unordered && (ordered a b).1
    unordered := unordered
    invalidOperation :=
      a.isSignaling sigWidth || b.isSignaling sigWidth || (signaling && unordered) }

/-- `DEC_ZERO`, `DEC_ONE` and `DEC_NAN`. -/
def decZero : Unpacked := ⟨false, 0, 0, true, false, false⟩
def decOne : Unpacked := ⟨false, 0, 0, false, false, false⟩
def decNan : Unpacked := ⟨false, 0, 2 ^ 51, false, false, true⟩

/-- `minmax_result`. -/
def minmaxResult (max : Bool) (a b : Unpacked) (c : Compared) : Unpacked :=
  if a.isNan && b.isNan then decNan
  else if a.isNan then b
  else if b.isNan then a
  else if c.eq then if max == a.sign then b else a
  else if max == c.lt then b else a

end Muntjac.Fpu

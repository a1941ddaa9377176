import Muntjac.Riscv.Instr

/-!
# Atomic operations, multiplication and division

What RV64A says an atomic operation stores, and what RV64M says the products, quotients
and remainders are.  Products and quotients are those of the integers that the operands
stand for.

## Main definitions

* `AmoOp.eval` — the value that an atomic operation stores.
* `MulOp.eval`, `MulWordOp.eval` — the results of the M extension.
-/

namespace Muntjac.Riscv

/-- The value that an atomic operation stores, for an old value `a` and an operand `b`. -/
def AmoOp.eval {w : ℕ} (o : AmoOp) (a b : BitVec w) : BitVec w :=
  match o with
  | .sc | .swap => b
  | .add => a + b
  | .xor => a ^^^ b
  | .and => a &&& b
  | .or => a ||| b
  | .min => if a.slt b then a else b
  | .max => if a.slt b then b else a
  | .minu => if a.ult b then a else b
  | .maxu => if a.ult b then b else a

section Division
variable {w : ℕ}

/-- The signed quotient, rounded toward zero; all ones for a zero divisor.  The quotient
that overflows is the dividend. -/
def quotient (a b : BitVec w) : BitVec w :=
  if b = 0 then BitVec.allOnes w else BitVec.ofInt w (a.toInt.tdiv b.toInt)

/-- The signed remainder, with the sign of the dividend; the dividend for a zero divisor. -/
def remainder (a b : BitVec w) : BitVec w :=
  if b = 0 then a else BitVec.ofInt w (a.toInt.tmod b.toInt)

def quotientU (a b : BitVec w) : BitVec w :=
  if b = 0 then BitVec.allOnes w else BitVec.ofNat w (a.toNat / b.toNat)

def remainderU (a b : BitVec w) : BitVec w :=
  if b = 0 then a else BitVec.ofNat w (a.toNat % b.toNat)

end Division

/-- The integers whose product an operation takes. -/
def MulOp.factors (o : MulOp) (a b : BitVec 64) : ℤ × ℤ :=
  match o with
  | .mulhsu => (a.toInt, b.toNat)
  | .mulhu => (a.toNat, b.toNat)
  | _ => (a.toInt, b.toInt)

/-- The exact product. -/
def MulOp.product (o : MulOp) (a b : BitVec 64) : ℤ := (o.factors a b).1 * (o.factors a b).2

def MulOp.eval (o : MulOp) (a b : BitVec 64) : BitVec 64 :=
  match o with
  | .mul => BitVec.ofInt 64 (o.product a b)
  | .mulh | .mulhsu | .mulhu => BitVec.ofInt 64 (o.product a b / 2 ^ 64)
  | .div => quotient a b
  | .divu => quotientU a b
  | .rem => remainder a b
  | .remu => remainderU a b

/-- The low words are operated on and the result is extended with its sign. -/
def MulWordOp.eval (o : MulWordOp) (a b : BitVec 64) : BitVec 64 :=
  match o with
  | .mulw => (a.setWidth 32 * b.setWidth 32).signExtend 64
  | .divw => (quotient (a.setWidth 32) (b.setWidth 32)).signExtend 64
  | .divuw => (quotientU (a.setWidth 32) (b.setWidth 32)).signExtend 64
  | .remw => (remainder (a.setWidth 32) (b.setWidth 32)).signExtend 64
  | .remuw => (remainderU (a.setWidth 32) (b.setWidth 32)).signExtend 64

end Muntjac.Riscv

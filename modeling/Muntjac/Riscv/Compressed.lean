import Mathlib.Logic.Equiv.Defs
import Muntjac.Riscv.Exec
import Muntjac.Sync.Fields

/-!
# The compressed instructions

The 16-bit instructions of RV64C with the loads and stores of doubles: how they are encoded,
which of the encodings are reserved, and what each instruction does.  An encoding that only
wastes its result (a hint) is defined.  The effect of an instruction is said twice, once for the
16-bit instruction itself and once for the 32-bit instruction that it abbreviates, and
`CInstr.effect_expand` says that the two agree.

## Main definitions

* `Effect`, `Instr.effect` — what an instruction asks of the machine.
* `CInstr`, `CInstr.encode`, `CInstr.Legal` — the compressed instructions.
* `CInstr.Defines` — a halfword is the encoding of an instruction.
* `CInstr.effect` — what a compressed instruction does.
* `CInstr.expand` — the instruction of 32 bits that does the same.
-/

namespace Muntjac.Riscv

open Sync

/-! ## Effects -/

/-- The integer and floating-point registers. -/
structure RegState where
  x : BitVec 5 → BitVec 64
  f : BitVec 5 → BitVec 64
  zero : x 0 = 0

/-- `illegal instruction`. -/
def causeIllegal : BitVec 5 := 2

/-- `breakpoint`. -/
def causeBreakpoint : BitVec 5 := 3

/-- What an instruction asks of the machine: it completes, it loads a register, it stores a
value, or it raises an exception. -/
inductive Effect
  | complete (o : Outcome)
  | load (o : LoadOp) (rd : BitVec 5) (address nextPc : BitVec 64)
  | fload (w : Width) (rd : BitVec 5) (address nextPc : BitVec 64)
  | store (o : StoreOp) (address value nextPc : BitVec 64)
  | exception (cause : BitVec 5)
  deriving DecidableEq, Repr

/-- The write of a register, if the register is not `x0`. -/
def writeTo (rd : BitVec 5) (v : BitVec 64) : Option (BitVec 5 × BitVec 64) :=
  if rd = 0 then none else some (rd, v)

/-- Without a write to `x0`. -/
def Outcome.visible (o : Outcome) : Outcome :=
  { o with write := o.write.bind fun w => writeTo w.1 w.2 }

/-- The store of a floating-point register. -/
def Width.storeOp : Width → StoreOp
  | word => .sw
  | double => .sd

/-- The effect of an instruction of length `len`: the instructions of RV64I that compute, jump,
branch, load, store or break, and the floating-point loads and stores. -/
def Instr.effect (i : Instr) (fpOn : Bool) (pc len : BitVec 64) (r : RegState) : Option Effect :=
  match i with
  | .load o rd rs1 imm => some (.load o rd (r.x rs1 + imm.signExtend 64) (pc + len))
  | .store o rs1 rs2 imm =>
    some (.store o (r.x rs1 + imm.signExtend 64) (r.x rs2) (pc + len))
  | .fload w rd rs1 imm =>
    some (if fpOn then .fload w rd (r.x rs1 + imm.signExtend 64) (pc + len)
      else .exception causeIllegal)
  | .fstore w rs1 rs2 imm =>
    some (if fpOn then .store w.storeOp (r.x rs1 + imm.signExtend 64) (r.f rs2) (pc + len)
      else .exception causeIllegal)
  | .ebreak => some (.exception causeBreakpoint)
  | i => (i.exec pc len r.x).map fun o => .complete o.visible

/-! ## The compressed instructions -/

/-- The operations on two registers. -/
inductive CArithOp
  | sub
  | xor
  | or
  | and
  | subw
  | addw
  deriving DecidableEq, Repr

/-- Bit 12 and bits 6 and 5 of the halfword. -/
def CArithOp.bits : CArithOp → BitVec 3
  | sub => 0
  | xor => 1
  | or => 2
  | and => 3
  | subw => 4
  | addw => 5

/-- The result of an operation on two registers. -/
def CArithOp.eval (o : CArithOp) (a b : BitVec 64) : BitVec 64 :=
  match o with
  | .sub => a - b
  | .xor => a ^^^ b
  | .or => a ||| b
  | .and => a &&& b
  | .subw => (a.setWidth 32 - b.setWidth 32).signExtend 64
  | .addw => (a.setWidth 32 + b.setWidth 32).signExtend 64

/-- The compressed instructions.  An offset is in units of the size of the access, of four bytes
(`addi4spn`), of sixteen bytes (`addi16sp`) or of two bytes (jumps and branches); a register of
three bits is one of `x8` to `x15`. -/
inductive CInstr
  | addi4spn (rd : BitVec 3) (imm : BitVec 8)
  | fld (rd rs1 : BitVec 3) (imm : BitVec 5)
  | lw (rd rs1 : BitVec 3) (imm : BitVec 5)
  | ld (rd rs1 : BitVec 3) (imm : BitVec 5)
  | fsd (rs1 rs2 : BitVec 3) (imm : BitVec 5)
  | sw (rs1 rs2 : BitVec 3) (imm : BitVec 5)
  | sd (rs1 rs2 : BitVec 3) (imm : BitVec 5)
  | addi (rd : BitVec 5) (imm : BitVec 6)
  | addiw (rd : BitVec 5) (imm : BitVec 6)
  | li (rd : BitVec 5) (imm : BitVec 6)
  | addi16sp (imm : BitVec 6)
  | lui (rd : BitVec 5) (imm : BitVec 6)
  | srli (rd : BitVec 3) (shamt : BitVec 6)
  | srai (rd : BitVec 3) (shamt : BitVec 6)
  | andi (rd : BitVec 3) (imm : BitVec 6)
  | arith (o : CArithOp) (rd rs2 : BitVec 3)
  | j (offset : BitVec 11)
  | beqz (rs1 : BitVec 3) (offset : BitVec 8)
  | bnez (rs1 : BitVec 3) (offset : BitVec 8)
  | slli (rd : BitVec 5) (shamt : BitVec 6)
  | fldsp (rd : BitVec 5) (imm : BitVec 6)
  | lwsp (rd : BitVec 5) (imm : BitVec 6)
  | ldsp (rd : BitVec 5) (imm : BitVec 6)
  | jr (rs1 : BitVec 5)
  | mv (rd rs2 : BitVec 5)
  | ebreak
  | jalr (rs1 : BitVec 5)
  | add (rd rs2 : BitVec 5)
  | fsdsp (rs2 : BitVec 5) (imm : BitVec 6)
  | swsp (rs2 : BitVec 5) (imm : BitVec 6)
  | sdsp (rs2 : BitVec 5) (imm : BitVec 6)
  deriving DecidableEq, Repr

namespace CInstr

/-! ### Formats

Each format comes with the fields that a halfword has when it is of this format. -/

section
variable {funct2 : BitVec 2} {funct3 : BitVec 3} {op : BitVec 2} {w : BitVec 16}

/-- A register, and six bits around it. -/
def ciType (funct3 : BitVec 3) (imm : BitVec 6) (rd : BitVec 5) (op : BitVec 2) : BitVec 16 :=
  funct3 ++ imm.extractLsb' 5 1 ++ rd ++ imm.extractLsb' 0 5 ++ op

theorem ciType_iff {imm : BitVec 6} {rd : BitVec 5} :
    ciType funct3 imm rd op = w ↔
      w.extractLsb' 0 2 = op ∧ w.extractLsb' 13 3 = funct3 ∧ w.extractLsb' 7 5 = rd ∧
        w.extractLsb' 12 1 ++ w.extractLsb' 2 5 = imm := by
  rw [ciType, append_eq_iff, append_eq_iff (w.extractLsb' 12 1)]
  simp (disch := omega) only [append_eq_iff, extractLsb'_extractLsb']
  tauto

/-- A register below six bits. -/
def cssType (funct3 : BitVec 3) (imm : BitVec 6) (rs2 : BitVec 5) : BitVec 16 :=
  funct3 ++ imm ++ rs2 ++ 0b10#2

theorem cssType_iff {imm : BitVec 6} {rs2 : BitVec 5} :
    cssType funct3 imm rs2 = w ↔
      w.extractLsb' 0 2 = 0b10 ∧ w.extractLsb' 13 3 = funct3 ∧ w.extractLsb' 2 5 = rs2 ∧
        w.extractLsb' 7 6 = imm := by
  rw [cssType, append_eq_iff]
  simp (disch := omega) only [append_eq_iff, extractLsb'_extractLsb']
  tauto

/-- A short register below eight bits. -/
def ciwType (imm : BitVec 8) (rd : BitVec 3) : BitVec 16 :=
  0b000#3 ++ imm ++ rd ++ 0b00#2

theorem ciwType_iff {imm : BitVec 8} {rd : BitVec 3} :
    ciwType imm rd = w ↔
      w.extractLsb' 0 2 = 0b00 ∧ w.extractLsb' 13 3 = 0b000 ∧ w.extractLsb' 2 3 = rd ∧
        w.extractLsb' 5 8 = imm := by
  rw [ciwType, append_eq_iff]
  simp (disch := omega) only [append_eq_iff, extractLsb'_extractLsb']
  tauto

/-- Two short registers with five bits around the first. -/
def clType (funct3 : BitVec 3) (imm : BitVec 5) (rs1 rd : BitVec 3) : BitVec 16 :=
  funct3 ++ imm.extractLsb' 2 3 ++ rs1 ++ imm.extractLsb' 0 2 ++ rd ++ 0b00#2

theorem clType_iff {imm : BitVec 5} {rs1 rd : BitVec 3} :
    clType funct3 imm rs1 rd = w ↔
      w.extractLsb' 0 2 = 0b00 ∧ w.extractLsb' 13 3 = funct3 ∧ w.extractLsb' 7 3 = rs1 ∧
        w.extractLsb' 2 3 = rd ∧ w.extractLsb' 10 3 ++ w.extractLsb' 5 2 = imm := by
  rw [clType, append_eq_iff, append_eq_iff (w.extractLsb' 10 3)]
  simp (disch := omega) only [append_eq_iff, extractLsb'_extractLsb']
  tauto

/-- A short register with an operation of two bits and six bits around them. -/
def cbType (funct2 : BitVec 2) (imm : BitVec 6) (rd : BitVec 3) : BitVec 16 :=
  0b100#3 ++ imm.extractLsb' 5 1 ++ funct2 ++ rd ++ imm.extractLsb' 0 5 ++ 0b01#2

theorem cbType_iff {imm : BitVec 6} {rd : BitVec 3} :
    cbType funct2 imm rd = w ↔
      w.extractLsb' 0 2 = 0b01 ∧ w.extractLsb' 13 3 = 0b100 ∧ w.extractLsb' 10 2 = funct2 ∧
        w.extractLsb' 7 3 = rd ∧ w.extractLsb' 12 1 ++ w.extractLsb' 2 5 = imm := by
  rw [cbType, append_eq_iff, append_eq_iff (w.extractLsb' 12 1)]
  simp (disch := omega) only [append_eq_iff, extractLsb'_extractLsb']
  tauto

/-- Two short registers with an operation of three bits around the first. -/
def caType (funct : BitVec 3) (rd rs2 : BitVec 3) : BitVec 16 :=
  0b100#3 ++ funct.extractLsb' 2 1 ++ 0b11#2 ++ rd ++ funct.extractLsb' 0 2 ++ rs2 ++ 0b01#2

theorem caType_iff {rd rs2 : BitVec 3} :
    caType funct3 rd rs2 = w ↔
      w.extractLsb' 0 2 = 0b01 ∧ w.extractLsb' 13 3 = 0b100 ∧ w.extractLsb' 10 2 = 0b11 ∧
        w.extractLsb' 7 3 = rd ∧ w.extractLsb' 2 3 = rs2 ∧
        w.extractLsb' 12 1 ++ w.extractLsb' 5 2 = funct3 := by
  rw [caType, append_eq_iff, append_eq_iff (w.extractLsb' 12 1)]
  simp (disch := omega) only [append_eq_iff, extractLsb'_extractLsb']
  tauto

/-- A short register with eight bits around it. -/
def cbranchType (funct3 : BitVec 3) (imm : BitVec 8) (rs1 : BitVec 3) : BitVec 16 :=
  funct3 ++ imm.extractLsb' 5 3 ++ rs1 ++ imm.extractLsb' 0 5 ++ 0b01#2

theorem cbranchType_iff {imm : BitVec 8} {rs1 : BitVec 3} :
    cbranchType funct3 imm rs1 = w ↔
      w.extractLsb' 0 2 = 0b01 ∧ w.extractLsb' 13 3 = funct3 ∧ w.extractLsb' 7 3 = rs1 ∧
        w.extractLsb' 10 3 ++ w.extractLsb' 2 5 = imm := by
  rw [cbranchType, append_eq_iff, append_eq_iff (w.extractLsb' 10 3)]
  simp (disch := omega) only [append_eq_iff, extractLsb'_extractLsb']
  tauto

/-- Eleven bits. -/
def cjType (imm : BitVec 11) : BitVec 16 :=
  0b101#3 ++ imm ++ 0b01#2

theorem cjType_iff {imm : BitVec 11} :
    cjType imm = w ↔
      w.extractLsb' 0 2 = 0b01 ∧ w.extractLsb' 13 3 = 0b101 ∧ w.extractLsb' 2 11 = imm := by
  rw [cjType, append_eq_iff]
  simp (disch := omega) only [append_eq_iff, extractLsb'_extractLsb']
  tauto

/-- Two registers. -/
def crType (bit12 : BitVec 1) (rd rs2 : BitVec 5) : BitVec 16 :=
  0b100#3 ++ bit12 ++ rd ++ rs2 ++ 0b10#2

theorem crType_iff {bit12 : BitVec 1} {rd rs2 : BitVec 5} :
    crType bit12 rd rs2 = w ↔
      w.extractLsb' 0 2 = 0b10 ∧ w.extractLsb' 13 3 = 0b100 ∧ w.extractLsb' 12 1 = bit12 ∧
        w.extractLsb' 7 5 = rd ∧ w.extractLsb' 2 5 = rs2 := by
  rw [crType, append_eq_iff]
  simp (disch := omega) only [append_eq_iff, extractLsb'_extractLsb']
  tauto

end

/-! ### The order in which the bits of the offsets are stored

The bits of each offset are numbered as the instruction set does. -/

/-- `[5:4|9:6|2|3]`, of an offset in units of four. -/
@[simps] def addi4spnOffset : BitVec 8 ≃ BitVec 8 where
  toFun imm :=
    imm.extractLsb' 2 2 ++ imm.extractLsb' 4 4 ++ imm.extractLsb' 0 1 ++ imm.extractLsb' 1 1
  invFun y :=
    y.extractLsb' 2 4 ++ y.extractLsb' 6 2 ++ y.extractLsb' 0 1 ++ y.extractLsb' 1 1
  left_inv imm := by
    simp (disch := omega) only [Fields.extract_low, Fields.extract_high, Nat.reduceSub,
      Nat.sub_self, BitVec.extractLsb'_append_extractLsb'_eq_extractLsb',
      BitVec.extractLsb'_extractLsb'_of_le, BitVec.extractLsb'_eq_self]
  right_inv y := by
    simp (disch := omega) only [Fields.extract_low, Fields.extract_high, Nat.reduceSub,
      Nat.sub_self, BitVec.extractLsb'_append_extractLsb'_eq_extractLsb',
      BitVec.extractLsb'_extractLsb'_of_le, BitVec.extractLsb'_eq_self]

/-- `[5:3|7:6]`, of an offset in units of eight. -/
@[simps] def doubleOffset : BitVec 5 ≃ BitVec 5 where
  toFun imm :=
    imm.extractLsb' 0 3 ++ imm.extractLsb' 3 2
  invFun y :=
    y.extractLsb' 0 2 ++ y.extractLsb' 2 3
  left_inv imm := by
    simp (disch := omega) only [Fields.extract_low, Fields.extract_high,
      Nat.sub_self, BitVec.extractLsb'_append_extractLsb'_eq_extractLsb',
      BitVec.extractLsb'_extractLsb'_of_le, BitVec.extractLsb'_eq_self]
  right_inv y := by
    simp (disch := omega) only [Fields.extract_low, Fields.extract_high,
      Nat.sub_self, BitVec.extractLsb'_append_extractLsb'_eq_extractLsb',
      BitVec.extractLsb'_extractLsb'_of_le, BitVec.extractLsb'_eq_self]

/-- `[5:3|2|6]`, of an offset in units of four. -/
@[simps] def wordOffset : BitVec 5 ≃ BitVec 5 where
  toFun imm :=
    imm.extractLsb' 1 3 ++ imm.extractLsb' 0 1 ++ imm.extractLsb' 4 1
  invFun y :=
    y.extractLsb' 0 1 ++ y.extractLsb' 2 3 ++ y.extractLsb' 1 1
  left_inv imm := by
    simp (disch := omega) only [Fields.extract_low, Fields.extract_high, Nat.reduceSub,
      Nat.sub_self, BitVec.extractLsb'_append_extractLsb'_eq_extractLsb',
      BitVec.extractLsb'_extractLsb'_of_le, BitVec.extractLsb'_eq_self]
  right_inv y := by
    simp (disch := omega) only [Fields.extract_low, Fields.extract_high, Nat.reduceSub,
      Nat.sub_self, BitVec.extractLsb'_append_extractLsb'_eq_extractLsb',
      BitVec.extractLsb'_extractLsb'_of_le, BitVec.extractLsb'_eq_self]

/-- `[9|4|6|8:7|5]`, of an offset in units of sixteen. -/
@[simps] def addi16spOffset : BitVec 6 ≃ BitVec 6 where
  toFun imm :=
    imm.extractLsb' 5 1 ++ imm.extractLsb' 0 1 ++ imm.extractLsb' 2 1 ++
    imm.extractLsb' 3 2 ++ imm.extractLsb' 1 1
  invFun y :=
    y.extractLsb' 5 1 ++ y.extractLsb' 1 2 ++ y.extractLsb' 3 1 ++ y.extractLsb' 0 1 ++
    y.extractLsb' 4 1
  left_inv imm := by
    simp (disch := omega) only [Fields.extract_low, Fields.extract_high, Nat.reduceSub,
      Nat.sub_self, BitVec.extractLsb'_append_extractLsb'_eq_extractLsb',
      BitVec.extractLsb'_extractLsb'_of_le, BitVec.extractLsb'_eq_self]
  right_inv y := by
    simp (disch := omega) only [Fields.extract_low, Fields.extract_high, Nat.reduceSub,
      Nat.sub_self, BitVec.extractLsb'_append_extractLsb'_eq_extractLsb',
      BitVec.extractLsb'_extractLsb'_of_le, BitVec.extractLsb'_eq_self]

/-- `[11|4|9:8|10|6|7|3:1|5]`, of an offset in units of two. -/
@[simps] def jumpOffset : BitVec 11 ≃ BitVec 11 where
  toFun imm :=
    imm.extractLsb' 10 1 ++ imm.extractLsb' 3 1 ++ imm.extractLsb' 7 2 ++
    imm.extractLsb' 9 1 ++ imm.extractLsb' 5 1 ++ imm.extractLsb' 6 1 ++
    imm.extractLsb' 0 3 ++ imm.extractLsb' 4 1
  invFun y :=
    y.extractLsb' 10 1 ++ y.extractLsb' 6 1 ++ y.extractLsb' 7 2 ++ y.extractLsb' 4 1 ++
    y.extractLsb' 5 1 ++ y.extractLsb' 0 1 ++ y.extractLsb' 9 1 ++ y.extractLsb' 1 3
  left_inv imm := by
    simp (disch := omega) only [Fields.extract_low, Fields.extract_high, Nat.reduceSub,
      Nat.sub_self, BitVec.extractLsb'_append_extractLsb'_eq_extractLsb',
      BitVec.extractLsb'_extractLsb'_of_le, BitVec.extractLsb'_eq_self]
  right_inv y := by
    simp (disch := omega) only [Fields.extract_low, Fields.extract_high, Nat.reduceSub,
      Nat.sub_self, BitVec.extractLsb'_append_extractLsb'_eq_extractLsb',
      BitVec.extractLsb'_extractLsb'_of_le, BitVec.extractLsb'_eq_self]

/-- `[8|4:3|7:6|2:1|5]`, of an offset in units of two. -/
@[simps] def branchOffset : BitVec 8 ≃ BitVec 8 where
  toFun imm :=
    imm.extractLsb' 7 1 ++ imm.extractLsb' 2 2 ++ imm.extractLsb' 5 2 ++
    imm.extractLsb' 0 2 ++ imm.extractLsb' 4 1
  invFun y :=
    y.extractLsb' 7 1 ++ y.extractLsb' 3 2 ++ y.extractLsb' 0 1 ++ y.extractLsb' 5 2 ++
    y.extractLsb' 1 2
  left_inv imm := by
    simp (disch := omega) only [Fields.extract_low, Fields.extract_high, Nat.reduceSub,
      Nat.sub_self, BitVec.extractLsb'_append_extractLsb'_eq_extractLsb',
      BitVec.extractLsb'_extractLsb'_of_le, BitVec.extractLsb'_eq_self]
  right_inv y := by
    simp (disch := omega) only [Fields.extract_low, Fields.extract_high, Nat.reduceSub,
      Nat.sub_self, BitVec.extractLsb'_append_extractLsb'_eq_extractLsb',
      BitVec.extractLsb'_extractLsb'_of_le, BitVec.extractLsb'_eq_self]

/-- `[5:3|8:6]`, of an offset in units of eight. -/
@[simps] def doubleSpOffset : BitVec 6 ≃ BitVec 6 where
  toFun imm :=
    imm.extractLsb' 0 3 ++ imm.extractLsb' 3 3
  invFun y :=
    y.extractLsb' 0 3 ++ y.extractLsb' 3 3
  left_inv imm := by
    simp (disch := omega) only [Fields.extract_low, Fields.extract_high,
      Nat.sub_self, BitVec.extractLsb'_append_extractLsb'_eq_extractLsb',
      BitVec.extractLsb'_extractLsb'_of_le, BitVec.extractLsb'_eq_self]
  right_inv y := by
    simp (disch := omega) only [Fields.extract_low, Fields.extract_high,
      Nat.sub_self, BitVec.extractLsb'_append_extractLsb'_eq_extractLsb',
      BitVec.extractLsb'_extractLsb'_of_le, BitVec.extractLsb'_eq_self]

/-- `[5:2|7:6]`, of an offset in units of four. -/
@[simps] def wordSpOffset : BitVec 6 ≃ BitVec 6 where
  toFun imm :=
    imm.extractLsb' 0 4 ++ imm.extractLsb' 4 2
  invFun y :=
    y.extractLsb' 0 2 ++ y.extractLsb' 2 4
  left_inv imm := by
    simp (disch := omega) only [Fields.extract_low, Fields.extract_high,
      Nat.sub_self, BitVec.extractLsb'_append_extractLsb'_eq_extractLsb',
      BitVec.extractLsb'_extractLsb'_of_le, BitVec.extractLsb'_eq_self]
  right_inv y := by
    simp (disch := omega) only [Fields.extract_low, Fields.extract_high,
      Nat.sub_self, BitVec.extractLsb'_append_extractLsb'_eq_extractLsb',
      BitVec.extractLsb'_extractLsb'_of_le, BitVec.extractLsb'_eq_self]

/-- The encoding. -/
def encode : CInstr → BitVec 16
  | addi4spn rd imm => ciwType (addi4spnOffset imm) rd
  | fld rd rs1 imm => clType 0b001 (doubleOffset imm) rs1 rd
  | lw rd rs1 imm => clType 0b010 (wordOffset imm) rs1 rd
  | ld rd rs1 imm => clType 0b011 (doubleOffset imm) rs1 rd
  | fsd rs1 rs2 imm => clType 0b101 (doubleOffset imm) rs1 rs2
  | sw rs1 rs2 imm => clType 0b110 (wordOffset imm) rs1 rs2
  | sd rs1 rs2 imm => clType 0b111 (doubleOffset imm) rs1 rs2
  | addi rd imm => ciType 0b000 imm rd 0b01
  | addiw rd imm => ciType 0b001 imm rd 0b01
  | li rd imm => ciType 0b010 imm rd 0b01
  | addi16sp imm => ciType 0b011 (addi16spOffset imm) 2 0b01
  | lui rd imm => ciType 0b011 imm rd 0b01
  | srli rd shamt => cbType 0b00 shamt rd
  | srai rd shamt => cbType 0b01 shamt rd
  | andi rd imm => cbType 0b10 imm rd
  | arith o rd rs2 => caType o.bits rd rs2
  | j offset => cjType (jumpOffset offset)
  | beqz rs1 offset => cbranchType 0b110 (branchOffset offset) rs1
  | bnez rs1 offset => cbranchType 0b111 (branchOffset offset) rs1
  | slli rd shamt => ciType 0b000 shamt rd 0b10
  | fldsp rd imm => ciType 0b001 (doubleSpOffset imm) rd 0b10
  | lwsp rd imm => ciType 0b010 (wordSpOffset imm) rd 0b10
  | ldsp rd imm => ciType 0b011 (doubleSpOffset imm) rd 0b10
  | jr rs1 => crType 0 rs1 0
  | mv rd rs2 => crType 0 rd rs2
  | ebreak => crType 1 0 0
  | jalr rs1 => crType 1 rs1 0
  | add rd rs2 => crType 1 rd rs2
  | fsdsp rs2 imm => cssType 0b101 (doubleSpOffset imm) rs2
  | swsp rs2 imm => cssType 0b110 (wordSpOffset imm) rs2
  | sdsp rs2 imm => cssType 0b111 (doubleSpOffset imm) rs2

/-- The operands with which the encoding is not reserved and not that of another instruction. -/
def Legal : CInstr → Prop
  | addi4spn _ imm => imm ≠ 0
  | addi16sp imm => imm ≠ 0
  | lui rd imm => rd ≠ 2 ∧ imm ≠ 0
  | addiw rd _ | lwsp rd _ | ldsp rd _ => rd ≠ 0
  | jr rs1 | jalr rs1 => rs1 ≠ 0
  | mv _ rs2 | add _ rs2 => rs2 ≠ 0
  | _ => True

/-- The loads and stores of doubles. -/
def isFloat : CInstr → Bool
  | fld .. | fsd .. | fldsp .. | fsdsp .. => true
  | _ => false

/-- The halfword encodes the instruction; those of doubles are optional. -/
structure Defines (i : CInstr) (rv64d : Bool) (w : BitVec 16) : Prop where
  encode : i.encode = w
  legal : i.Legal
  float : i.isFloat = true → rv64d = true

/-! ### Effects -/

/-- One of `x8` to `x15`. -/
def reg (r : BitVec 3) : BitVec 5 := 0b01#2 ++ r

/-- What the instruction does. -/
def effect (i : CInstr) (fpOn : Bool) (pc : BitVec 64) (r : RegState) : Effect :=
  match i with
  | addi4spn rd imm => next (reg rd) (r.x 2 + (imm ++ 0#2).setWidth 64)
  | fld rd rs1 imm =>
    float (.fload .double (reg rd) (r.x (reg rs1) + (imm ++ 0#3).setWidth 64) (pc + 2))
  | lw rd rs1 imm => .load .lw (reg rd) (r.x (reg rs1) + (imm ++ 0#2).setWidth 64) (pc + 2)
  | ld rd rs1 imm => .load .ld (reg rd) (r.x (reg rs1) + (imm ++ 0#3).setWidth 64) (pc + 2)
  | fsd rs1 rs2 imm =>
    float (.store .sd (r.x (reg rs1) + (imm ++ 0#3).setWidth 64) (r.f (reg rs2)) (pc + 2))
  | sw rs1 rs2 imm =>
    .store .sw (r.x (reg rs1) + (imm ++ 0#2).setWidth 64) (r.x (reg rs2)) (pc + 2)
  | sd rs1 rs2 imm =>
    .store .sd (r.x (reg rs1) + (imm ++ 0#3).setWidth 64) (r.x (reg rs2)) (pc + 2)
  | addi rd imm => next rd (r.x rd + imm.signExtend 64)
  | addiw rd imm => next rd (((r.x rd).setWidth 32 + imm.signExtend 32).signExtend 64)
  | li rd imm => next rd (imm.signExtend 64)
  | addi16sp imm => next 2 (r.x 2 + (imm ++ 0#4).signExtend 64)
  | lui rd imm => next rd ((imm ++ 0#12).signExtend 64)
  | srli rd shamt => next (reg rd) (r.x (reg rd) >>> shamt.toNat)
  | srai rd shamt => next (reg rd) ((r.x (reg rd)).sshiftRight shamt.toNat)
  | andi rd imm => next (reg rd) (r.x (reg rd) &&& imm.signExtend 64)
  | arith o rd rs2 => next (reg rd) (o.eval (r.x (reg rd)) (r.x (reg rs2)))
  | j offset => .complete ⟨none, none, target (pc + (offset ++ 0#1).signExtend 64)⟩
  | beqz rs1 offset => branch (r.x (reg rs1) == 0) offset
  | bnez rs1 offset => branch (r.x (reg rs1) != 0) offset
  | slli rd shamt => next rd (r.x rd <<< shamt.toNat)
  | fldsp rd imm => float (.fload .double rd (r.x 2 + (imm ++ 0#3).setWidth 64) (pc + 2))
  | lwsp rd imm => .load .lw rd (r.x 2 + (imm ++ 0#2).setWidth 64) (pc + 2)
  | ldsp rd imm => .load .ld rd (r.x 2 + (imm ++ 0#3).setWidth 64) (pc + 2)
  | jr rs1 => .complete ⟨none, none, target (r.x rs1)⟩
  | mv rd rs2 => next rd (r.x rs2)
  | ebreak => .exception causeBreakpoint
  | jalr rs1 => .complete ⟨some (1, pc + 2), none, target (r.x rs1)⟩
  | add rd rs2 => next rd (r.x rd + r.x rs2)
  | fsdsp rs2 imm => float (.store .sd (r.x 2 + (imm ++ 0#3).setWidth 64) (r.f rs2) (pc + 2))
  | swsp rs2 imm => .store .sw (r.x 2 + (imm ++ 0#2).setWidth 64) (r.x rs2) (pc + 2)
  | sdsp rs2 imm => .store .sd (r.x 2 + (imm ++ 0#3).setWidth 64) (r.x rs2) (pc + 2)
where
  /-- Write `v` and go on with the following instruction. -/
  next (rd : BitVec 5) (v : BitVec 64) : Effect := .complete ⟨writeTo rd v, none, pc + 2⟩
  branch (taken : Bool) (offset : BitVec 8) : Effect :=
    .complete
      ⟨none, some taken, if taken then target (pc + (offset ++ 0#1).signExtend 64) else pc + 2⟩
  /-- An access of a floating-point register, which may be switched off. -/
  float (f : Effect) : Effect := if fpOn then f else .exception causeIllegal

/-- The instruction of 32 bits that does the same. -/
def expand : CInstr → Instr
  | addi4spn rd imm => .opImm .addi (reg rd) 2 ((imm ++ 0#2).setWidth 12)
  | fld rd rs1 imm => .fload .double (reg rd) (reg rs1) ((imm ++ 0#3).setWidth 12)
  | lw rd rs1 imm => .load .lw (reg rd) (reg rs1) ((imm ++ 0#2).setWidth 12)
  | ld rd rs1 imm => .load .ld (reg rd) (reg rs1) ((imm ++ 0#3).setWidth 12)
  | fsd rs1 rs2 imm => .fstore .double (reg rs1) (reg rs2) ((imm ++ 0#3).setWidth 12)
  | sw rs1 rs2 imm => .store .sw (reg rs1) (reg rs2) ((imm ++ 0#2).setWidth 12)
  | sd rs1 rs2 imm => .store .sd (reg rs1) (reg rs2) ((imm ++ 0#3).setWidth 12)
  | addi rd imm => .opImm .addi rd rd (imm.signExtend 12)
  | addiw rd imm => .addiw rd rd (imm.signExtend 12)
  | li rd imm => .opImm .addi rd 0 (imm.signExtend 12)
  | addi16sp imm => .opImm .addi 2 2 ((imm ++ 0#4).signExtend 12)
  | lui rd imm => .lui rd (imm.signExtend 20)
  | srli rd shamt => .shiftImm .srl (reg rd) (reg rd) shamt
  | srai rd shamt => .shiftImm .sra (reg rd) (reg rd) shamt
  | andi rd imm => .opImm .andi (reg rd) (reg rd) (imm.signExtend 12)
  | arith .sub rd rs2 => .op .sub (reg rd) (reg rd) (reg rs2)
  | arith .xor rd rs2 => .op .xor (reg rd) (reg rd) (reg rs2)
  | arith .or rd rs2 => .op .or (reg rd) (reg rd) (reg rs2)
  | arith .and rd rs2 => .op .and (reg rd) (reg rd) (reg rs2)
  | arith .subw rd rs2 => .opW .subw (reg rd) (reg rd) (reg rs2)
  | arith .addw rd rs2 => .opW .addw (reg rd) (reg rd) (reg rs2)
  | j offset => .jal 0 (offset.signExtend 20)
  | beqz rs1 offset => .branch .beq (reg rs1) 0 (offset.signExtend 12)
  | bnez rs1 offset => .branch .bne (reg rs1) 0 (offset.signExtend 12)
  | slli rd shamt => .shiftImm .sll rd rd shamt
  | fldsp rd imm => .fload .double rd 2 ((imm ++ 0#3).setWidth 12)
  | lwsp rd imm => .load .lw rd 2 ((imm ++ 0#2).setWidth 12)
  | ldsp rd imm => .load .ld rd 2 ((imm ++ 0#3).setWidth 12)
  | jr rs1 => .jalr 0 rs1 0
  | mv rd rs2 => .op .add rd 0 rs2
  | ebreak => .ebreak
  | jalr rs1 => .jalr 1 rs1 0
  | add rd rs2 => .op .add rd rd rs2
  | fsdsp rs2 imm => .fstore .double 2 rs2 ((imm ++ 0#3).setWidth 12)
  | swsp rs2 imm => .store .sw 2 rs2 ((imm ++ 0#2).setWidth 12)
  | sdsp rs2 imm => .store .sd 2 rs2 ((imm ++ 0#3).setWidth 12)

/-! ### A compressed instruction does what its expansion does -/

theorem effect_expand (i : CInstr) (fpOn : Bool) (pc : BitVec 64) (r : RegState) :
    i.expand.effect fpOn pc 2 r = some (i.effect fpOn pc r) := by
  have hs : ∀ {k : ℕ} (y : BitVec k), k ≤ 12 → (y.signExtend 12).signExtend 64 = y.signExtend 64 :=
    fun y h => signExtend_signExtend y h (by omega)
  have hz : ∀ {k : ℕ} (y : BitVec k), k < 12 → (y.setWidth 12).signExtend 64 = y.setWidth 64 :=
    fun y h => signExtend_setWidth y h
  cases i with
  | arith o rd rs2 => cases o <;> rfl
  | addiw rd imm =>
      simp only [expand, Instr.effect, Instr.exec, effect,
        signExtend_signExtend imm (show 6 ≤ 12 by omega) (show 12 ≤ 32 by omega)]
      rfl
  | lui rd imm =>
      simp only [expand, Instr.effect, Instr.exec, effect,
        signExtend_append_zero 12 imm (show 6 ≤ 20 by omega) (show 20 + 12 ≤ 64 by omega)]
      rfl
  | j offset =>
      simp only [expand, Instr.effect, Instr.exec, effect,
        signExtend_append_zero 1 offset (show 11 ≤ 20 by omega) (show 20 + 1 ≤ 64 by omega)]
      rfl
  | beqz rs1 offset | bnez rs1 offset =>
      simp only [expand, Instr.effect, Instr.exec, effect, effect.branch, BranchOp.holds, r.zero,
        signExtend_append_zero 1 offset (show 8 ≤ 12 by omega) (show 12 + 1 ≤ 64 by omega)]
      rfl
  | jr rs1 | jalr rs1 =>
      simp only [expand, Instr.effect, Instr.exec, effect,
        show (0 : BitVec 12).signExtend 64 = 0 from rfl, add_zero]
      rfl
  | mv rd rs2 | li rd imm =>
      simp (disch := omega) only [expand, Instr.effect, Instr.exec, effect, RegOp.eval, ImmOp.eval,
        r.zero, zero_add, hs]
      rfl
  | addi4spn | addi | addi16sp | srli | srai | andi | slli | add =>
      simp (disch := omega) only [expand, Instr.effect, Instr.exec, effect, hs, hz]
      rfl
  | _ => simp (disch := omega) only [expand, Instr.effect, effect, effect.float, Width.storeOp, hz]

end CInstr

end Muntjac.Riscv

import Muntjac.Riscv.Instr

/-!
# Execution of the integer instructions

What RV64I says the computational instructions, jumps and branches do: the value that is
written, whether a branch is taken, and the next program counter.  The length of an
instruction is a parameter, because a compressed instruction does what its expansion does.

## Main definitions

* `Instr.exec` — the outcome of an instruction.
-/

namespace Muntjac.Riscv

/-- The condition of a branch. -/
def BranchOp.holds (o : BranchOp) (a b : BitVec 64) : Bool :=
  match o with
  | .beq => a == b
  | .bne => a != b
  | .blt => a.slt b
  | .bge => !a.slt b
  | .bltu => a.ult b
  | .bgeu => !a.ult b

def ShiftOp.eval {w : ℕ} (o : ShiftOp) (a : BitVec w) (shamt : ℕ) : BitVec w :=
  match o with
  | .sll => a <<< shamt
  | .srl => a >>> shamt
  | .sra => a.sshiftRight shamt

/-- One when the condition holds. -/
def setIf (c : Bool) : BitVec 64 := if c then 1 else 0

def ImmOp.eval (o : ImmOp) (a imm : BitVec 64) : BitVec 64 :=
  match o with
  | .addi => a + imm
  | .slti => setIf (a.slt imm)
  | .sltiu => setIf (a.ult imm)
  | .xori => a ^^^ imm
  | .ori => a ||| imm
  | .andi => a &&& imm

/-- Shifts use six bits of the second operand. -/
def RegOp.eval (o : RegOp) (a b : BitVec 64) : BitVec 64 :=
  match o with
  | .add => a + b
  | .sub => a - b
  | .sll => ShiftOp.sll.eval a (b.toNat % 64)
  | .slt => setIf (a.slt b)
  | .sltu => setIf (a.ult b)
  | .xor => a ^^^ b
  | .srl => ShiftOp.srl.eval a (b.toNat % 64)
  | .sra => ShiftOp.sra.eval a (b.toNat % 64)
  | .or => a ||| b
  | .and => a &&& b

/-- The low words are operated on; shifts use five bits of the second operand. -/
def WordOp.eval (o : WordOp) (a b : BitVec 64) : BitVec 32 :=
  match o with
  | .addw => a.setWidth 32 + b.setWidth 32
  | .subw => a.setWidth 32 - b.setWidth 32
  | .sllw => ShiftOp.sll.eval (a.setWidth 32) (b.toNat % 32)
  | .srlw => ShiftOp.srl.eval (a.setWidth 32) (b.toNat % 32)
  | .sraw => ShiftOp.sra.eval (a.setWidth 32) (b.toNat % 32)

/-- What an instruction does. -/
structure Outcome where
  /-- The register that is written, and its value. -/
  write : Option (BitVec 5 × BitVec 64)
  /-- Whether a branch is taken. -/
  taken : Option Bool
  nextPc : BitVec 64
  deriving DecidableEq, Repr

/-- A target: bit 0 is cleared. -/
def target (x : BitVec 64) : BitVec 64 := x &&& ~~~1

/-- The outcome of an integer instruction of length `len` at `pc`. -/
def Instr.exec (i : Instr) (pc len : BitVec 64) (regs : BitVec 5 → BitVec 64) : Option Outcome :=
  match i with
  | .lui rd imm => some (next rd ((imm ++ 0#12).signExtend 64))
  | .auipc rd imm => some (next rd (pc + (imm ++ 0#12).signExtend 64))
  | .jal rd imm => some ⟨some (rd, pc + len), none, target (pc + (imm ++ 0#1).signExtend 64)⟩
  | .jalr rd rs1 imm =>
    some ⟨some (rd, pc + len), none, target (regs rs1 + imm.signExtend 64)⟩
  | .branch o rs1 rs2 imm =>
    some
      { write := none
        taken := some (o.holds (regs rs1) (regs rs2))
        nextPc :=
          if o.holds (regs rs1) (regs rs2) then target (pc + (imm ++ 0#1).signExtend 64)
          else pc + len }
  | .opImm o rd rs1 imm => some (next rd (o.eval (regs rs1) (imm.signExtend 64)))
  | .shiftImm o rd rs1 shamt => some (next rd (o.eval (regs rs1) shamt.toNat))
  | .addiw rd rs1 imm =>
    some (next rd (((regs rs1).setWidth 32 + imm.signExtend 32).signExtend 64))
  | .shiftImmW o rd rs1 shamt =>
    some (next rd ((o.eval ((regs rs1).setWidth 32) shamt.toNat).signExtend 64))
  | .op o rd rs1 rs2 => some (next rd (o.eval (regs rs1) (regs rs2)))
  | .opW o rd rs1 rs2 => some (next rd ((o.eval (regs rs1) (regs rs2)).signExtend 64))
  | _ => none
where
  /-- Write `x` and go on with the following instruction. -/
  next (rd : BitVec 5) (x : BitVec 64) : Outcome := ⟨some (rd, x), none, pc + len⟩

end Muntjac.Riscv

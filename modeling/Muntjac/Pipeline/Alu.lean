import Muntjac.Core.DcacheOps

/-!
# Decoded instructions and the ALU

The record that the decoder passes to the backend, and `muntjac_alu` with its comparator
and its shifter.  Bits that the source leaves undefined are zero.
-/

namespace Muntjac.Pipeline

open Muntjac.Core

inductive OpType
  | alu
  | jump
  | branch
  | mem
  | mul
  | div
  | fp
  | system
  deriving DecidableEq, Repr

/-- `alu_op_e`. -/
inductive AluOp
  | add
  | sub
  | shift
  | scc
  | xor
  | or
  | and
  deriving DecidableEq, Repr

/-- `shift_op_e`. -/
inductive ShiftOp
  | sll
  | srl
  | sra
  deriving DecidableEq, Repr

/-- `condition_code_e`. -/
inductive ConditionCode
  | eq
  | ne
  | lt
  | ge
  | ltu
  | geu
  deriving DecidableEq, Repr

/-- `sys_op_e`. -/
inductive SysOp
  | csr
  | eret
  | sfenceVma
  | fenceI
  | wfi
  deriving DecidableEq, Repr

/-- `csr_op_e`. -/
inductive CsrOp
  | read
  | write
  | set
  | clear
  deriving DecidableEq, Repr

/-- `if_reason_e`: why an instruction was fetched. -/
inductive IfReason
  | prefetch
  | predict
  | mispredict
  | protChanged
  | satpChanged
  | fenceI
  | sfenceVma
  deriving DecidableEq, Repr

/-- `if_reason ==? 4'bxx11`. -/
def IfReason.isFlush : IfReason → Bool
  | .protChanged | .satpChanged | .fenceI | .sfenceVma => true
  | .prefetch | .predict | .mispredict => false

/-- `decoded_instr_t`.  Without an exception, `tval` holds the instruction word. -/
structure DecodedInstr where
  rs1 : BitVec 5
  rs2 : BitVec 5
  rd : BitVec 5
  immediate : BitVec 32
  useFrd : Bool
  useFrs1 : Bool
  useFrs2 : Bool
  useFrs3 : Bool
  opType : OpType
  adderUsePc : Bool
  adderUseImm : Bool
  useImm : Bool
  size : Fin 4
  sizeExt : SizeExt
  aluOp : AluOp
  shiftOp : ShiftOp
  condition : ConditionCode
  sysOp : SysOp
  memOp : MemOp
  csrOp : CsrOp
  pc : BitVec 64
  ifReason : IfReason
  exValid : Bool
  cause : BitVec 5
  tval : BitVec 64
  deriving DecidableEq, Repr

namespace DecodedInstr

/-- The operation has 32 bits. -/
def word (d : DecodedInstr) : Bool := d.size == 0 || d.size == 2

def immSext (d : DecodedInstr) : BitVec 64 := d.immediate.signExtend 64

/-- The instruction has 16 bits. -/
def compressed (d : DecodedInstr) : Bool := d.tval.extractLsb' 0 2 != 3

/-- `csr_select`. -/
def csrSelect (d : DecodedInstr) : BitVec 12 := d.tval.extractLsb' 20 12

/-- The third source register, `tval[31:27]`. -/
def rs3 (d : DecodedInstr) : BitVec 5 := d.tval.extractLsb' 27 5

end DecodedInstr

/-- `muntjac_comparator`. -/
def comparator (a b difference : BitVec 64) : ConditionCode → Bool
  | .eq => a == b
  | .ne => !(a == b)
  | .lt => lt
  | .ge => !lt
  | .ltu => ltu
  | .geu => !ltu
where
  lt : Bool := if a.msb == b.msb then difference.msb else a.msb
  ltu : Bool := if a.msb == b.msb then difference.msb else b.msb

/-- `muntjac_shifter`: a left shift is a right shift of the reversed operand. -/
def shifter (a b : BitVec 64) (op : ShiftOp) (word : Bool) : BitVec 64 :=
  match op with
  | .sll => (shiftRight a.reverse).reverse
  | .srl | .sra =>
      if word then (shiftRight (a.extractLsb' 0 32 ++ 0#32)).extractLsb' 32 32 |>.setWidth 64
      else shiftRight a
where
  shamt : ℕ := if word then b.toNat % 2 ^ 5 else b.toNat % 2 ^ 6
  shiftRight (x : BitVec 64) : BitVec 64 :=
    ((BitVec.cons (op == .sra && x.msb) x).sshiftRight shamt).setWidth 64

/-- The outputs of `muntjac_alu`. -/
structure AluOut where
  sum : BitVec 64
  compareResult : Bool
  result : BitVec 64

/-- `muntjac_alu`. -/
def alu (d : DecodedInstr) (rs1 rs2 : BitVec 64) : AluOut where
  sum := sum
  compareResult := compareResult
  result := if d.word then (result.extractLsb' 0 32).signExtend 64 else result
where
  sum : BitVec 64 :=
    (if d.adderUsePc then d.pc else rs1) + (if d.adderUseImm then d.immSext else rs2)
  operandB : BitVec 64 := if d.useImm then d.immSext else rs2
  difference : BitVec 64 := rs1 - operandB
  compareResult : Bool := comparator rs1 operandB difference d.condition
  result : BitVec 64 :=
    match d.aluOp with
    | .add => sum
    | .sub => difference
    | .and => rs1 &&& operandB
    | .or => rs1 ||| operandB
    | .xor => rs1 ^^^ operandB
    | .shift => shifter rs1 operandB d.shiftOp d.word
    | .scc => if compareResult then 1 else 0

end Muntjac.Pipeline

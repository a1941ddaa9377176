import Muntjac.Pipeline.CompressedDecoder
import Muntjac.Pipeline.CsRegisters
import Muntjac.Pipeline.Backend
import Muntjac.Riscv.Instr

/-!
# The decoder

`muntjac_decoder`: the word is decompressed, its fields select an operation, and the
exceptions of fetching and decoding are put together.  Outputs that the source leaves
undefined are zero.

## Main definitions

* `Control` — what the case statement over the opcode assigns.
* `control` — the case statement.
* `decoder` — the decoded instruction.
-/

namespace Muntjac.Pipeline

open Muntjac.Core Riscv

/-- `fetched_instr_t`. -/
structure FetchedInstr where
  pc : BitVec 64
  ifReason : IfReason
  instrWord : BitVec 32
  exValid : Bool
  cause : BitVec 5
  tval : BitVec 64
  deriving DecidableEq, Repr

/-- The state that decoding depends on, with the answer of the CSR check. -/
structure DecoderEnv where
  rv64f : Rv64f
  prv : PrivLvl
  status : Status
  csrIllegal : Bool
  deriving DecidableEq, Repr

/-- `fp_op_type_e`. -/
inductive FpOpType
  | addsub
  | mul
  | divsqrt
  | sgnj
  | minmax
  | cvtF2f
  | cvtI2f
  | cvtF2i
  | mvI2f
  | mvF2i
  | class_
  | cmp
  | fma
  deriving DecidableEq, Repr

/-- What the case statement over the opcode assigns, with its defaults. -/
structure Control where
  opType : OpType := .alu
  size : Fin 4 := 3
  sizeExt : SizeExt := .signed
  aluOp : AluOp := .add
  shiftOp : ShiftOp := .sll
  condition : ConditionCode := .eq
  sysOp : SysOp := .csr
  memOp : MemOp := .load
  mulOp : BitVec 2 := 0
  divOp : BitVec 2 := 0
  fpOp : FpOpType := .addsub
  fpParam : BitVec 2 := 0
  csrOp : CsrOp := .read
  csrUseImm : Bool := false
  rdEnable : Bool := false
  rs1Enable : Bool := false
  rs2Enable : Bool := false
  useFrd : Bool := false
  useFrs1 : Bool := false
  useFrs2 : Bool := false
  useFrs3 : Bool := false
  illegalInstr : Bool := false
  ecall : Bool := false
  ebreak : Bool := false
  deriving DecidableEq, Repr

/-- `condition_code_e'(x)`. -/
def ConditionCode.ofBits : BitVec 3 → Option ConditionCode
  | 0b000 => some .eq
  | 0b001 => some .ne
  | 0b100 => some .lt
  | 0b101 => some .ge
  | 0b110 => some .ltu
  | 0b111 => some .geu
  | _ => none

/-- `csr_op_e'(x)`. -/
def CsrOp.ofBits : BitVec 2 → CsrOp
  | 0b00 => .read
  | 0b01 => .write
  | 0b10 => .set
  | _ => .clear

/-- `csr_op_o`: a set or clear with `x0` only reads. -/
def csrOpOut (f : Fields) : CsrOp :=
  if f.funct3.getLsbD 1 ∧ f.rs1 = 0 then .read else CsrOp.ofBits (f.funct3.extractLsb' 0 2)

/-- Floating-point state is off. -/
def DecoderEnv.fsOff (e : DecoderEnv) : Bool := e.status.fs == 0

/-- In M-mode, or in S-mode without the trap bit. -/
def DecoderEnv.permits (e : DecoderEnv) (trap : Bool) : Bool :=
  e.prv == .m || (e.prv == .s && !trap)

namespace Control

def jal : Control := { opType := .jump, rdEnable := true }

def jalr (f : Fields) : Control :=
  { opType := .jump, rdEnable := true, rs1Enable := true, illegalInstr := f.funct3 != 0 }

def branch (f : Fields) : Control :=
  let c : Control := { opType := .branch, rs1Enable := true, rs2Enable := true }
  match ConditionCode.ofBits f.funct3 with
  | some cc => { c with condition := cc }
  | none => { c with illegalInstr := true }

/-- `funct3[1:0]`. -/
def memSize (f : Fields) : Fin 4 := (f.funct3.extractLsb' 0 2).toFin

def store (f : Fields) : Control :=
  { opType := .mem
    size := memSize f
    memOp := .store
    rs1Enable := true
    rs2Enable := true
    illegalInstr := f.funct3.getLsbD 2 }

def storeFp (e : DecoderEnv) (f : Fields) : Control :=
  if e.rv64f ≠ .none then
    { opType := .mem
      size := memSize f
      memOp := .store
      rs1Enable := true
      rs2Enable := true
      useFrs2 := true
      illegalInstr := !(f.funct3 == 2 || f.funct3 == 3) || e.fsOff }
  else { illegalInstr := true }

def load (f : Fields) : Control :=
  { opType := .mem
    size := memSize f
    sizeExt := if f.funct3.getLsbD 2 then .zero else .signed
    memOp := .load
    rdEnable := true
    rs1Enable := true
    illegalInstr := f.funct3 == 7 }

def loadFp (e : DecoderEnv) (f : Fields) : Control :=
  if e.rv64f ≠ .none then
    { opType := .mem
      size := memSize f
      sizeExt := .one
      memOp := .load
      rdEnable := true
      rs1Enable := true
      useFrd := true
      illegalInstr := !(f.funct3 == 2 || f.funct3 == 3) || e.fsOff }
  else { illegalInstr := true }

def amo (f : Fields) : Control :=
  { opType := .mem
    size := memSize f
    memOp := op.1
    rdEnable := true
    rs1Enable := true
    rs2Enable := true
    illegalInstr := !(f.funct3 == 2 || f.funct3 == 3) || op.2 }
where
  /-- The operation and whether the encoding is illegal. -/
  op : MemOp × Bool :=
    match f.funct7.extractLsb' 2 5 with
    | 0b00010 => (.lr, f.rs2 != 0)
    | 0b00011 => (.sc, false)
    | 0b00001 | 0b00000 | 0b00100 | 0b01100 | 0b01000 | 0b10000 | 0b10100 | 0b11000 | 0b11100 =>
      (.amo, false)
    | _ => (.amo, true)

def lui : Control := { rdEnable := true }

def opImm (f : Fields) : Control :=
  let c : Control := { rdEnable := true, rs1Enable := true }
  match f.funct3 with
  | 0b000 => c
  | 0b010 => { c with aluOp := .scc, condition := .lt }
  | 0b011 => { c with aluOp := .scc, condition := .ltu }
  | 0b100 => { c with aluOp := .xor }
  | 0b110 => { c with aluOp := .or }
  | 0b111 => { c with aluOp := .and }
  | 0b001 => { c with aluOp := .shift, illegalInstr := f.funct7.extractLsb' 1 6 != 0 }
  | _ =>
    if f.funct7.extractLsb' 1 6 = 0 then { c with aluOp := .shift, shiftOp := .srl }
    else if f.funct7.extractLsb' 1 6 = 0b010000 then { c with aluOp := .shift, shiftOp := .sra }
    else { c with aluOp := .shift, illegalInstr := true }

def opImm32 (f : Fields) : Control :=
  let c : Control := { size := 2, rdEnable := true, rs1Enable := true }
  match f.funct3 with
  | 0b000 => c
  | 0b001 => { c with aluOp := .shift, illegalInstr := f.funct7 != 0 }
  | 0b101 =>
    if f.funct7 = 0 then { c with aluOp := .shift, shiftOp := .srl }
    else if f.funct7 = 0b0100000 then { c with aluOp := .shift, shiftOp := .sra }
    else { c with aluOp := .shift, illegalInstr := true }
  | _ => { c with illegalInstr := true }

def op (f : Fields) : Control :=
  let c : Control := { rdEnable := true, rs1Enable := true, rs2Enable := true }
  if f.funct7 = 0b0000001 then
    if f.funct3.getLsbD 2 = false then { c with opType := .mul, mulOp := f.funct3.extractLsb' 0 2 }
    else { c with opType := .div, divOp := f.funct3.extractLsb' 0 2 }
  else
    match f.funct7, f.funct3 with
    | 0b0000000, 0b000 => c
    | 0b0100000, 0b000 => { c with aluOp := .sub }
    | 0b0000000, 0b010 => { c with aluOp := .scc, condition := .lt }
    | 0b0000000, 0b011 => { c with aluOp := .scc, condition := .ltu }
    | 0b0000000, 0b100 => { c with aluOp := .xor }
    | 0b0000000, 0b110 => { c with aluOp := .or }
    | 0b0000000, 0b111 => { c with aluOp := .and }
    | 0b0000000, 0b001 => { c with aluOp := .shift, shiftOp := .sll }
    | 0b0000000, 0b101 => { c with aluOp := .shift, shiftOp := .srl }
    | 0b0100000, 0b101 => { c with aluOp := .shift, shiftOp := .sra }
    | _, _ => { c with illegalInstr := true }

def op32 (f : Fields) : Control :=
  let c : Control := { size := 2, rdEnable := true, rs1Enable := true, rs2Enable := true }
  if f.funct7 = 0b0000001 ∧ f.funct3 = 0 then { c with opType := .mul }
  else if f.funct7 = 0b0000001 ∧ f.funct3.getLsbD 2 then
    { c with opType := .div, divOp := f.funct3.extractLsb' 0 2 }
  else
    match f.funct7, f.funct3 with
    | 0b0000000, 0b000 => c
    | 0b0100000, 0b000 => { c with aluOp := .sub }
    | 0b0000000, 0b001 => { c with aluOp := .shift, shiftOp := .sll }
    | 0b0000000, 0b101 => { c with aluOp := .shift, shiftOp := .srl }
    | 0b0100000, 0b101 => { c with aluOp := .shift, shiftOp := .sra }
    | _, _ => { c with illegalInstr := true }

def fma (e : DecoderEnv) (f : Fields) : Control :=
  if e.rv64f = .full then
    { opType := .fp
      fpOp := .fma
      fpParam := f.opcode.extractLsb' 2 2
      size := if f.funct7.extractLsb' 0 2 = 0 then 2 else 3
      rdEnable := true
      rs1Enable := true
      rs2Enable := true
      useFrd := true
      useFrs1 := true
      useFrs2 := true
      useFrs3 := true
      illegalInstr := f.funct7.getLsbD 1 || e.fsOff }
  else { illegalInstr := true }

def opFp (e : DecoderEnv) (f : Fields) : Control :=
  if e.rv64f = .full then
    { opType := .fp
      fpOp := (op.getD (.addsub, 0)).1
      fpParam := (op.getD (.addsub, 0)).2
      size := if f.funct7.getLsbD 0 then 3 else 2
      rdEnable := true
      rs1Enable := true
      rs2Enable := true
      useFrd := !(f.funct7.getLsbD 6 && !f.funct7.getLsbD 3)
      useFrs1 := !(f.funct7.getLsbD 6 && f.funct7.getLsbD 3)
      useFrs2 := true
      illegalInstr := op.isNone || e.fsOff }
  else { illegalInstr := true }
where
  /-- The operation and its parameter, if the encoding is one. -/
  op : Option (FpOpType × BitVec 2) :=
    match f.funct7.extractLsb' 1 6 with
    | 0b000000 => some (.addsub, 0)
    | 0b000010 => some (.addsub, 1)
    | 0b000100 => some (.mul, 0)
    | 0b000110 => some (.divsqrt, 0)
    | 0b001000 =>
      if f.funct3 = 0 ∨ f.funct3 = 1 ∨ f.funct3 = 2 then some (.sgnj, f.funct3.extractLsb' 0 2)
      else none
    | 0b010110 => if f.rs2 = 0 then some (.divsqrt, 1) else none
    | 0b001010 =>
      if f.funct3 = 0 ∨ f.funct3 = 1 then some (.minmax, f.funct3.extractLsb' 0 2) else none
    | 0b010000 =>
      -- only between the two formats
      if f.rs2 = (if f.funct7.getLsbD 0 then 0 else 1) then some (.cvtF2f, 0) else none
    | 0b101000 =>
      if f.funct3 = 0 ∨ f.funct3 = 1 ∨ f.funct3 = 2 then some (.cmp, f.funct3.extractLsb' 0 2)
      else none
    | 0b110000 =>
      if f.rs2 = 0 ∨ f.rs2 = 1 ∨ f.rs2 = 2 ∨ f.rs2 = 3 then some (.cvtF2i, f.rs2.extractLsb' 0 2)
      else none
    | 0b110100 =>
      if f.rs2 = 0 ∨ f.rs2 = 1 ∨ f.rs2 = 2 ∨ f.rs2 = 3 then some (.cvtI2f, f.rs2.extractLsb' 0 2)
      else none
    | 0b111000 =>
      if f.rs2 = 0 ∧ f.funct3 = 0 then some (.mvF2i, 0)
      else if f.rs2 = 0 ∧ f.funct3 = 1 then some (.class_, 0)
      else none
    | 0b111100 => if f.rs2 = 0 ∧ f.funct3 = 0 then some (.mvI2f, 0) else none
    | _ => none

/-- `FENCE` does nothing. -/
def miscMem (f : Fields) : Control :=
  match f.funct3 with
  | 0b000 => {}
  | 0b001 => { opType := .system, sysOp := .fenceI }
  | _ => { illegalInstr := true }

def system (e : DecoderEnv) (f : Fields) : Control :=
  let c : Control := { rs1Enable := true, rs2Enable := true }
  if f.funct3.extractLsb' 0 2 ≠ 0 then
    { c with
      opType := .system
      sysOp := .csr
      csrOp := csrOpOut f
      csrUseImm := f.funct3.getLsbD 2
      rdEnable := true
      illegalInstr := e.csrIllegal }
  else if f.imm12 = 0x000 then { c with ecall := true }
  else if f.imm12 = 0x001 then { c with ebreak := true }
  else if f.imm12 = 0x302 then
    -- MRET is only allowed in M-mode
    { c with opType := .system, sysOp := .eret, illegalInstr := e.prv != .m }
  else if f.imm12 = 0x102 then
    { c with opType := .system, sysOp := .eret, illegalInstr := !e.permits e.status.tsr }
  else if f.imm12 = 0x105 then
    { c with opType := .system, sysOp := .wfi, illegalInstr := !e.permits e.status.tw }
  else if f.funct7 = 0b0001001 then
    { c with opType := .system, sysOp := .sfenceVma, illegalInstr := !e.permits e.status.tvm }
  else { c with illegalInstr := true }

end Control

/-- The case statement over the opcode. -/
def control (e : DecoderEnv) (f : Fields) : Control :=
  match Opcode.ofBits f.opcode with
  | some .jal => .jal
  | some .jalr => .jalr f
  | some .branch => .branch f
  | some .store => .store f
  | some .storeFp => .storeFp e f
  | some .load => .load f
  | some .loadFp => .loadFp e f
  | some .amo => .amo f
  | some .lui | some .auipc => .lui
  | some .opImm => .opImm f
  | some .opImm32 => .opImm32 f
  | some .op => .op f
  | some .op32 => .op32 f
  | some .madd | some .msub | some .nmsub | some .nmadd => .fma e f
  | some .opFp => .opFp e f
  | some .miscMem => .miscMem f
  | some .system => .system e f
  | none => { illegalInstr := true }

/-! ## Operands -/

/-- `adder_use_pc`, `adder_use_imm` and `use_imm`. -/
def operandSelect : Option Opcode → Bool × Bool × Bool
  | some .load | some .loadFp | some .store | some .storeFp | some .amo | some .lui | some .jalr =>
    (false, true, false)
  | some .opImm | some .opImm32 => (false, true, true)
  | some .auipc | some .jal => (true, true, false)
  | some .branch => (true, true, false)
  | _ => (false, false, false)

def iImm (w : BitVec 32) : BitVec 32 := (w.extractLsb' 20 12).signExtend 32

def sImm (w : BitVec 32) : BitVec 32 :=
  (w.extractLsb' 25 7 ++ w.extractLsb' 7 5 : BitVec 12).signExtend 32

def bImm (w : BitVec 32) : BitVec 32 :=
  (w.extractLsb' 31 1 ++ w.extractLsb' 7 1 ++ w.extractLsb' 25 6 ++ w.extractLsb' 8 4 ++
    0#1 : BitVec 13).signExtend 32

def uImm (w : BitVec 32) : BitVec 32 := w.extractLsb' 12 20 ++ 0#12

def jImm (w : BitVec 32) : BitVec 32 :=
  (w.extractLsb' 31 1 ++ w.extractLsb' 12 8 ++ w.extractLsb' 20 1 ++ w.extractLsb' 21 10 ++
    0#1 : BitVec 21).signExtend 32

/-- `immediate`. -/
def immediate (w : BitVec 32) : Option Opcode → BitVec 32
  | some .load | some .loadFp | some .opImm | some .opImm32 | some .jalr => iImm w
  | some .auipc | some .lui => uImm w
  | some .store | some .storeFp => sImm w
  | some .branch => bImm w
  | some .jal => jImm w
  | _ => 0

/-! ## The decoded instruction -/

/-- `EXC_CAUSE_ILLEGAL_INSN`. -/
def excCauseIllegalInsn : BitVec 5 := 2

/-- `EXC_CAUSE_BREAKPOINT`. -/
def excCauseBreakpoint : BitVec 5 := 3

/-- `ex_valid`, `exception.cause` and `exception.tval`; without an exception `tval` holds the
word. -/
def decodeException (e : DecoderEnv) (x : FetchedInstr) (illegal ecall ebreak : Bool) :
    Bool × BitVec 5 × BitVec 64 :=
  if x.exValid then (true, x.cause, x.tval)
  else if illegal then (true, excCauseIllegalInsn, x.instrWord.setWidth 64)
  else if ecall then (true, 2#3 ++ e.prv.toBits, 0)
  else if ebreak then (true, excCauseBreakpoint, 0)
  else (false, 0, x.instrWord.setWidth 64)

/-- The decompressed word. -/
def decompressed (e : DecoderEnv) (x : FetchedInstr) : Decompressed :=
  compressedDecoder (e.rv64f != .none) x.instrWord

/-- `illegal_instr`. -/
def illegalInstr (e : DecoderEnv) (x : FetchedInstr) : Bool :=
  (decompressed e x).illegal || (control e (Fields.ofWord (decompressed e x).instr)).illegalInstr

/-- `muntjac_decoder`. -/
def decoder (e : DecoderEnv) (x : FetchedInstr) : DecodedInstr where
  rs1 := if c.rs1Enable then f.rs1 else 0
  rs2 := if c.rs2Enable then f.rs2 else 0
  rd := if c.rdEnable then f.rd else 0
  immediate := Pipeline.immediate (decompressed e x).instr (Opcode.ofBits f.opcode)
  useFrd := c.useFrd
  useFrs1 := c.useFrs1
  useFrs2 := c.useFrs2
  useFrs3 := c.useFrs3
  opType := c.opType
  adderUsePc := (operandSelect (Opcode.ofBits f.opcode)).1
  adderUseImm := (operandSelect (Opcode.ofBits f.opcode)).2.1
  useImm := (operandSelect (Opcode.ofBits f.opcode)).2.2
  size := c.size
  sizeExt := c.sizeExt
  aluOp := c.aluOp
  shiftOp := c.shiftOp
  condition := c.condition
  sysOp := c.sysOp
  memOp := c.memOp
  csrOp := c.csrOp
  pc := x.pc
  ifReason := x.ifReason
  exValid := exc.1
  cause := exc.2.1
  tval := exc.2.2
where
  f : Fields := Fields.ofWord (decompressed e x).instr
  c : Control := control e f
  exc : Bool × BitVec 5 × BitVec 64 := decodeException e x (illegalInstr e x) c.ecall c.ebreak

end Muntjac.Pipeline

import Mathlib.Data.BitVec
import Mathlib.Tactic.Common

/-!
# The decompressor

`muntjac_compressed_decoder`: a 16-bit instruction is rewritten as the 32-bit instruction
that does the same; a 32-bit instruction passes.  Where the source leaves the word
undefined it is zero.

## Main definitions

* `Opcode` — the major opcodes.
* `compressedDecoder` — the word and whether the encoding is illegal.
-/

namespace Muntjac.Pipeline

/-- The major opcodes. -/
inductive Opcode
  | load
  | loadFp
  | miscMem
  | opImm
  | auipc
  | opImm32
  | store
  | storeFp
  | amo
  | op
  | lui
  | op32
  | madd
  | msub
  | nmsub
  | nmadd
  | opFp
  | branch
  | jalr
  | jal
  | system
  deriving DecidableEq, Repr

namespace Opcode

/-- `OPCODE_*`. -/
def toBits : Opcode → BitVec 7
  | load => 0x03
  | loadFp => 0x07
  | miscMem => 0x0F
  | opImm => 0x13
  | auipc => 0x17
  | opImm32 => 0x1B
  | store => 0x23
  | storeFp => 0x27
  | amo => 0x2F
  | op => 0x33
  | lui => 0x37
  | op32 => 0x3B
  | madd => 0x43
  | msub => 0x47
  | nmsub => 0x4B
  | nmadd => 0x4F
  | opFp => 0x53
  | branch => 0x63
  | jalr => 0x67
  | jal => 0x6F
  | system => 0x73

def all : List Opcode :=
  [load, loadFp, miscMem, opImm, auipc, opImm32, store, storeFp, amo, op, lui, op32, madd, msub,
    nmsub, nmadd, opFp, branch, jalr, jal, system]

/-- The opcode with these bits. -/
def ofBits (b : BitVec 7) : Option Opcode := all.find? fun o => o.toBits == b

theorem ofBits_toBits (o : Opcode) : ofBits o.toBits = some o := by
  cases o <;> decide

theorem toBits_of_ofBits {b : BitVec 7} {o : Opcode} (h : ofBits b = some o) : o.toBits = b := by
  have hp := List.find?_some h
  simpa using hp

end Opcode

/-- `construct_r_type`. -/
def constructRType (funct7 : BitVec 7) (rs2 rs1 : BitVec 5) (funct3 : BitVec 3) (rd : BitVec 5)
    (o : Opcode) : BitVec 32 :=
  funct7 ++ rs2 ++ rs1 ++ funct3 ++ rd ++ o.toBits

/-- `construct_i_type`. -/
def constructIType (imm : BitVec 12) (rs1 : BitVec 5) (funct3 : BitVec 3) (rd : BitVec 5)
    (o : Opcode) : BitVec 32 :=
  imm ++ rs1 ++ funct3 ++ rd ++ o.toBits

/-- `construct_s_type`. -/
def constructSType (imm : BitVec 12) (rs2 rs1 : BitVec 5) (funct3 : BitVec 3) (o : Opcode) :
    BitVec 32 :=
  imm.extractLsb' 5 7 ++ rs2 ++ rs1 ++ funct3 ++ imm.extractLsb' 0 5 ++ o.toBits

/-- `construct_b_type`. -/
def constructBType (imm : BitVec 13) (rs2 rs1 : BitVec 5) (funct3 : BitVec 3) (o : Opcode) :
    BitVec 32 :=
  imm.extractLsb' 12 1 ++ imm.extractLsb' 5 6 ++ rs2 ++ rs1 ++ funct3 ++ imm.extractLsb' 1 4 ++
    imm.extractLsb' 11 1 ++ o.toBits

/-- `construct_u_type`. -/
def constructUType (imm : BitVec 20) (rd : BitVec 5) (o : Opcode) : BitVec 32 :=
  imm ++ rd ++ o.toBits

/-- `construct_j_type`. -/
def constructJType (imm : BitVec 21) (rd : BitVec 5) (o : Opcode) : BitVec 32 :=
  imm.extractLsb' 20 1 ++ imm.extractLsb' 1 10 ++ imm.extractLsb' 11 1 ++ imm.extractLsb' 12 8 ++
    rd ++ o.toBits

/-- The outputs of the decompressor. -/
structure Decompressed where
  instr : BitVec 32
  illegal : Bool
  deriving DecidableEq, Repr

/-- `muntjac_compressed_decoder`. -/
def compressedDecoder (rv64d : Bool) (x : BitVec 32) : Decompressed :=
  if x.extractLsb' 0 2 = 0 then quadrant0
  else if x.extractLsb' 0 2 = 1 then quadrant1
  else if x.extractLsb' 0 2 = 2 then quadrant2
  else ⟨x, false⟩
where
  cFunct3 : BitVec 3 := x.extractLsb' 13 3
  cRd : BitVec 5 := x.extractLsb' 7 5
  cRs2 : BitVec 5 := x.extractLsb' 2 5
  cRds : BitVec 5 := 1#2 ++ x.extractLsb' 2 3
  cRs1s : BitVec 5 := 1#2 ++ x.extractLsb' 7 3
  ciImm6 : BitVec 6 := x.extractLsb' 12 1 ++ x.extractLsb' 2 5
  ciImm : BitVec 12 := ciImm6.signExtend 12
  ciLwspImm : BitVec 12 :=
    0#4 ++ x.extractLsb' 2 2 ++ x.extractLsb' 12 1 ++ x.extractLsb' 4 3 ++ 0#2
  ciLdspImm : BitVec 12 :=
    0#3 ++ x.extractLsb' 2 3 ++ x.extractLsb' 12 1 ++ x.extractLsb' 5 2 ++ 0#3
  ciAddi16spImm : BitVec 12 :=
    (x.extractLsb' 12 1 ++ x.extractLsb' 3 2 ++ x.extractLsb' 5 1 ++ x.extractLsb' 2 1 ++
      x.extractLsb' 6 1 ++ 0#4 : BitVec 10).signExtend 12
  cssSwspImm : BitVec 12 := 0#4 ++ x.extractLsb' 7 2 ++ x.extractLsb' 9 4 ++ 0#2
  cssSdspImm : BitVec 12 := 0#3 ++ x.extractLsb' 7 3 ++ x.extractLsb' 10 3 ++ 0#3
  ciwImm : BitVec 12 :=
    0#2 ++ x.extractLsb' 7 4 ++ x.extractLsb' 11 2 ++ x.extractLsb' 5 1 ++ x.extractLsb' 6 1 ++ 0#2
  clLwImm : BitVec 12 :=
    0#5 ++ x.extractLsb' 5 1 ++ x.extractLsb' 10 3 ++ x.extractLsb' 6 1 ++ 0#2
  clLdImm : BitVec 12 := 0#4 ++ x.extractLsb' 5 2 ++ x.extractLsb' 10 3 ++ 0#3
  cbImm : BitVec 13 :=
    (x.extractLsb' 12 1 ++ x.extractLsb' 5 2 ++ x.extractLsb' 2 1 ++ x.extractLsb' 10 2 ++
      x.extractLsb' 3 2 ++ 0#1 : BitVec 9).signExtend 13
  cjImm : BitVec 21 :=
    (x.extractLsb' 12 1 ++ x.extractLsb' 8 1 ++ x.extractLsb' 9 2 ++ x.extractLsb' 6 1 ++
      x.extractLsb' 7 1 ++ x.extractLsb' 2 1 ++ x.extractLsb' 11 1 ++ x.extractLsb' 3 3 ++
      0#1 : BitVec 12).signExtend 21
  illegal : Decompressed := ⟨0, true⟩
  quadrant0 : Decompressed :=
    match cFunct3 with
    | 0b000 => ⟨constructIType ciwImm 2 0 cRds .opImm, ciwImm == 0⟩
    | 0b001 => if rv64d then ⟨constructIType clLdImm cRs1s 3 cRds .loadFp, false⟩ else illegal
    | 0b010 => ⟨constructIType clLwImm cRs1s 2 cRds .load, false⟩
    | 0b011 => ⟨constructIType clLdImm cRs1s 3 cRds .load, false⟩
    | 0b101 => if rv64d then ⟨constructSType clLdImm cRds cRs1s 3 .storeFp, false⟩ else illegal
    | 0b110 => ⟨constructSType clLwImm cRds cRs1s 2 .store, false⟩
    | 0b111 => ⟨constructSType clLdImm cRds cRs1s 3 .store, false⟩
    | _ => illegal
  quadrant1 : Decompressed :=
    match cFunct3 with
    | 0b000 => ⟨constructIType ciImm cRd 0 cRd .opImm, false⟩
    | 0b001 => ⟨constructIType ciImm cRd 0 cRd .opImm32, cRd == 0⟩
    | 0b010 => ⟨constructIType ciImm 0 0 cRd .opImm, false⟩
    | 0b011 =>
      if cRd = 2 then ⟨constructIType ciAddi16spImm 2 0 2 .opImm, ciImm == 0⟩
      else ⟨constructUType (ciImm.signExtend 20) cRd .lui, ciImm == 0⟩
    | 0b100 => arithmetic
    | 0b101 => ⟨constructJType cjImm 0 .jal, false⟩
    | 0b110 => ⟨constructBType cbImm 0 cRs1s 0 .branch, false⟩
    | _ => ⟨constructBType cbImm 0 cRs1s 1 .branch, false⟩
  arithmetic : Decompressed :=
    match x.extractLsb' 10 2 with
    | 0b00 => ⟨constructIType (0#6 ++ ciImm.extractLsb' 0 6) cRs1s 5 cRs1s .opImm, false⟩
    | 0b01 => ⟨constructIType (0b010000#6 ++ ciImm.extractLsb' 0 6) cRs1s 5 cRs1s .opImm, false⟩
    | 0b10 => ⟨constructIType ciImm cRs1s 7 cRs1s .opImm, false⟩
    | _ =>
      match x.extractLsb' 12 1 ++ x.extractLsb' 5 2 with
      | 0b000 => ⟨constructRType 0x20 cRds cRs1s 0 cRs1s .op, false⟩
      | 0b001 => ⟨constructRType 0 cRds cRs1s 4 cRs1s .op, false⟩
      | 0b010 => ⟨constructRType 0 cRds cRs1s 6 cRs1s .op, false⟩
      | 0b011 => ⟨constructRType 0 cRds cRs1s 7 cRs1s .op, false⟩
      | 0b100 => ⟨constructRType 0x20 cRds cRs1s 0 cRs1s .op32, false⟩
      | 0b101 => ⟨constructRType 0 cRds cRs1s 0 cRs1s .op32, false⟩
      | _ => illegal
  quadrant2 : Decompressed :=
    match cFunct3 with
    | 0b000 => ⟨constructIType (0#6 ++ ciImm.extractLsb' 0 6) cRd 1 cRd .opImm, false⟩
    | 0b001 => if rv64d then ⟨constructIType ciLdspImm 2 3 cRd .loadFp, false⟩ else illegal
    | 0b010 => ⟨constructIType ciLwspImm 2 2 cRd .load, cRd == 0⟩
    | 0b011 => ⟨constructIType ciLdspImm 2 3 cRd .load, cRd == 0⟩
    | 0b100 => jumpOrMove
    | 0b101 => if rv64d then ⟨constructSType cssSdspImm cRs2 2 3 .storeFp, false⟩ else illegal
    | 0b110 => ⟨constructSType cssSwspImm cRs2 2 2 .store, false⟩
    | _ => ⟨constructSType cssSdspImm cRs2 2 3 .store, false⟩
  jumpOrMove : Decompressed :=
    if x.getLsbD 12 = false then
      if cRs2 = 0 then ⟨constructIType 0 cRd 0 0 .jalr, cRd == 0⟩
      else ⟨constructRType 0 cRs2 0 0 cRd .op, false⟩
    else if cRs2 = 0 then
      if cRd = 0 then ⟨constructIType 1 0 0 0 .system, false⟩
      else ⟨constructIType 0 cRd 0 1 .jalr, false⟩
    else ⟨constructRType 0 cRs2 cRd 0 cRd .op, false⟩

end Muntjac.Pipeline

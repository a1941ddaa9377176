import Muntjac.Sync.Numerals
import Mathlib.Data.BitVec
import Mathlib.Tactic.Common

/-!
# The instructions of RV64GC

The 32-bit instructions of RV64I, Zicsr, Zifencei, M, A, F and D and of the supervisor
architecture, and how they are encoded.  A word that encodes none of them is not defined.
Fields that an implementation has to ignore (those of the fences) are operands here.

## Main definitions

* `Fields` — the fields of an instruction word.
* `Instr` — the instructions.
* `Instr.fields`, `Instr.encode` — their encoding.
-/

namespace Muntjac.Riscv

/-! ## Fields -/

/-- The fields at the fixed positions of an instruction word. -/
@[ext] structure Fields where
  funct7 : BitVec 7
  rs2 : BitVec 5
  rs1 : BitVec 5
  funct3 : BitVec 3
  rd : BitVec 5
  opcode : BitVec 7
  deriving DecidableEq, Repr

namespace Fields

def toWord (f : Fields) : BitVec 32 :=
  f.funct7 ++ f.rs2 ++ f.rs1 ++ f.funct3 ++ f.rd ++ f.opcode

def ofWord (w : BitVec 32) : Fields where
  funct7 := w.extractLsb' 25 7
  rs2 := w.extractLsb' 20 5
  rs1 := w.extractLsb' 15 5
  funct3 := w.extractLsb' 12 3
  rd := w.extractLsb' 7 5
  opcode := w.extractLsb' 0 7

/-- The twelve bits at the top of the word. -/
def imm12 (f : Fields) : BitVec 12 := f.funct7 ++ f.rs2

theorem toWord_ofWord (w : BitVec 32) : (ofWord w).toWord = w := by
  simp only [toWord, ofWord]
  rw [BitVec.extractLsb'_append_extractLsb'_eq_extractLsb' (by rfl),
    BitVec.extractLsb'_append_extractLsb'_eq_extractLsb' (by rfl),
    BitVec.extractLsb'_append_extractLsb'_eq_extractLsb' (by rfl),
    BitVec.extractLsb'_append_extractLsb'_eq_extractLsb' (by rfl),
    BitVec.extractLsb'_append_extractLsb'_eq_extractLsb' (by rfl)]
  exact BitVec.extractLsb'_eq_self

theorem extract_low {m n s l : ℕ} (x : BitVec m) (y : BitVec n) (h : s + l ≤ n) :
    (x ++ y).extractLsb' s l = y.extractLsb' s l := by
  apply BitVec.eq_of_getLsbD_eq
  intro k hk
  simp only [BitVec.getLsbD_extractLsb', BitVec.getLsbD_append, hk]
  rw [if_pos (by omega)]

theorem extract_high {m n s l : ℕ} (x : BitVec m) (y : BitVec n) (h : n ≤ s) :
    (x ++ y).extractLsb' s l = x.extractLsb' (s - n) l := by
  apply BitVec.eq_of_getLsbD_eq
  intro k hk
  simp only [BitVec.getLsbD_extractLsb', BitVec.getLsbD_append, hk]
  rw [if_neg (by omega), show s + k - n = s - n + k by omega]

/-- An extract across the border of two fields. -/
theorem extract_across {m n s l r : ℕ} (x : BitVec m) (y : BitVec n) (h : s + r = n) :
    (x ++ y).extractLsb' s (l + r) = x.extractLsb' 0 l ++ y.extractLsb' s r := by
  apply BitVec.eq_of_getLsbD_eq
  intro k hk
  simp only [BitVec.getLsbD_extractLsb', BitVec.getLsbD_append, hk, decide_true, Bool.true_and]
  by_cases hk' : k < r
  · have h1 : s + k < n := by omega
    simp [hk', h1]
  · have h1 : ¬s + k < n := by omega
    have h2 : k - r < l := by omega
    have h3 : s + k - n = k - r := by omega
    simp [hk', h1, h2, h3]

theorem ofWord_toWord (f : Fields) : ofWord f.toWord = f := by
  ext1 <;>
    simp (disch := omega) only [ofWord, toWord, extract_low, extract_high, Nat.sub_self,
      Nat.reduceSub, BitVec.extractLsb'_eq_self]

end Fields

/-! ## Operations -/

inductive BranchOp
  | beq
  | bne
  | blt
  | bge
  | bltu
  | bgeu
  deriving DecidableEq, Repr

def BranchOp.funct3 : BranchOp → BitVec 3
  | beq => 0
  | bne => 1
  | blt => 4
  | bge => 5
  | bltu => 6
  | bgeu => 7

inductive LoadOp
  | lb
  | lh
  | lw
  | ld
  | lbu
  | lhu
  | lwu
  deriving DecidableEq, Repr

def LoadOp.funct3 : LoadOp → BitVec 3
  | lb => 0
  | lh => 1
  | lw => 2
  | ld => 3
  | lbu => 4
  | lhu => 5
  | lwu => 6

inductive StoreOp
  | sb
  | sh
  | sw
  | sd
  deriving DecidableEq, Repr

def StoreOp.funct3 : StoreOp → BitVec 3
  | sb => 0
  | sh => 1
  | sw => 2
  | sd => 3

/-- The operations with an immediate of 12 bits. -/
inductive ImmOp
  | addi
  | slti
  | sltiu
  | xori
  | ori
  | andi
  deriving DecidableEq, Repr

def ImmOp.funct3 : ImmOp → BitVec 3
  | addi => 0
  | slti => 2
  | sltiu => 3
  | xori => 4
  | ori => 6
  | andi => 7

inductive ShiftOp
  | sll
  | srl
  | sra
  deriving DecidableEq, Repr

def ShiftOp.funct3 : ShiftOp → BitVec 3
  | sll => 1
  | srl | sra => 5

/-- `funct7` of the shifts, without its lowest bit. -/
def ShiftOp.funct6 : ShiftOp → BitVec 6
  | sll | srl => 0
  | sra => 0x10

inductive RegOp
  | add
  | sub
  | sll
  | slt
  | sltu
  | xor
  | srl
  | sra
  | or
  | and
  deriving DecidableEq, Repr

def RegOp.funct3 : RegOp → BitVec 3
  | add | sub => 0
  | sll => 1
  | slt => 2
  | sltu => 3
  | xor => 4
  | srl | sra => 5
  | or => 6
  | and => 7

def RegOp.funct7 : RegOp → BitVec 7
  | sub | sra => 0x20
  | add | sll | slt | sltu | xor | srl | or | and => 0

/-- The operations on words. -/
inductive WordOp
  | addw
  | subw
  | sllw
  | srlw
  | sraw
  deriving DecidableEq, Repr

def WordOp.funct3 : WordOp → BitVec 3
  | addw | subw => 0
  | sllw => 1
  | srlw | sraw => 5

def WordOp.funct7 : WordOp → BitVec 7
  | subw | sraw => 0x20
  | addw | sllw | srlw => 0

/-- The operations of the M extension. -/
inductive MulOp
  | mul
  | mulh
  | mulhsu
  | mulhu
  | div
  | divu
  | rem
  | remu
  deriving DecidableEq, Repr

def MulOp.funct3 : MulOp → BitVec 3
  | mul => 0
  | mulh => 1
  | mulhsu => 2
  | mulhu => 3
  | div => 4
  | divu => 5
  | rem => 6
  | remu => 7

/-- The operations on words of the M extension. -/
inductive MulWordOp
  | mulw
  | divw
  | divuw
  | remw
  | remuw
  deriving DecidableEq, Repr

def MulWordOp.funct3 : MulWordOp → BitVec 3
  | mulw => 0
  | divw => 4
  | divuw => 5
  | remw => 6
  | remuw => 7

/-- The CSR instructions; those with `i` take a constant in the field of `rs1`. -/
inductive CsrInstr
  | csrrw
  | csrrs
  | csrrc
  | csrrwi
  | csrrsi
  | csrrci
  deriving DecidableEq, Repr

def CsrInstr.funct3 : CsrInstr → BitVec 3
  | csrrw => 1
  | csrrs => 2
  | csrrc => 3
  | csrrwi => 5
  | csrrsi => 6
  | csrrci => 7

/-- The atomic operations, `LR` apart. -/
inductive AmoOp
  | sc
  | swap
  | add
  | xor
  | and
  | or
  | min
  | max
  | minu
  | maxu
  deriving DecidableEq, Repr

def AmoOp.funct5 : AmoOp → BitVec 5
  | add => 0
  | swap => 1
  | sc => 3
  | xor => 4
  | or => 8
  | and => 12
  | min => 16
  | max => 20
  | minu => 24
  | maxu => 28

/-- A word or a double word; single or double precision. -/
inductive Width
  | word
  | double
  deriving DecidableEq, Repr

/-- `funct3` of an atomic operation or a floating-point load or store. -/
def Width.funct3 : Width → BitVec 3
  | word => 2
  | double => 3

/-- The format field of a floating-point operation. -/
def Width.fmt : Width → BitVec 2
  | word => 0
  | double => 1

/-- Rounding modes, with the dynamic one. -/
inductive RoundingMode
  | rne
  | rtz
  | rdn
  | rup
  | rmm
  | dyn
  deriving DecidableEq, Repr

def RoundingMode.bits : RoundingMode → BitVec 3
  | rne => 0
  | rtz => 1
  | rdn => 2
  | rup => 3
  | rmm => 4
  | dyn => 7

/-- Fused multiply-add. -/
inductive FmaOp
  | fmadd
  | fmsub
  | fnmsub
  | fnmadd
  deriving DecidableEq, Repr

def FmaOp.opcode : FmaOp → BitVec 7
  | fmadd => 0x43
  | fmsub => 0x47
  | fnmsub => 0x4B
  | fnmadd => 0x4F

/-- Floating-point operations with two operands that round. -/
inductive FpArithOp
  | fadd
  | fsub
  | fmul
  | fdiv
  deriving DecidableEq, Repr

def FpArithOp.funct5 : FpArithOp → BitVec 5
  | fadd => 0
  | fsub => 1
  | fmul => 2
  | fdiv => 3

/-- Floating-point operations with two operands that do not round. -/
inductive FpExactOp
  | fsgnj
  | fsgnjn
  | fsgnjx
  | fmin
  | fmax
  | fle
  | flt
  | feq
  deriving DecidableEq, Repr

def FpExactOp.funct5 : FpExactOp → BitVec 5
  | fsgnj | fsgnjn | fsgnjx => 4
  | fmin | fmax => 5
  | fle | flt | feq => 0x14

def FpExactOp.funct3 : FpExactOp → BitVec 3
  | fsgnj | fmin | fle => 0
  | fsgnjn | fmax | flt => 1
  | fsgnjx | feq => 2

/-- The integers of a conversion. -/
inductive IntKind
  | w
  | wu
  | l
  | lu
  deriving DecidableEq, Repr

/-- The field of `rs2` in a conversion. -/
def IntKind.rs2 : IntKind → BitVec 5
  | w => 0
  | wu => 1
  | l => 2
  | lu => 3

/-- Moves between the register files, and `FCLASS`. -/
inductive FpMoveOp
  | fmvToInt
  | fclass
  | fmvFromInt
  deriving DecidableEq, Repr

def FpMoveOp.funct5 : FpMoveOp → BitVec 5
  | fmvToInt | fclass => 0x1C
  | fmvFromInt => 0x1E

def FpMoveOp.funct3 : FpMoveOp → BitVec 3
  | fmvToInt | fmvFromInt => 0
  | fclass => 1

/-! ## Instructions -/

/-- The instructions.  The immediates of branches and jumps are in units of two bytes. -/
inductive Instr
  | lui (rd : BitVec 5) (imm : BitVec 20)
  | auipc (rd : BitVec 5) (imm : BitVec 20)
  | jal (rd : BitVec 5) (imm : BitVec 20)
  | jalr (rd rs1 : BitVec 5) (imm : BitVec 12)
  | branch (o : BranchOp) (rs1 rs2 : BitVec 5) (imm : BitVec 12)
  | load (o : LoadOp) (rd rs1 : BitVec 5) (imm : BitVec 12)
  | store (o : StoreOp) (rs1 rs2 : BitVec 5) (imm : BitVec 12)
  | opImm (o : ImmOp) (rd rs1 : BitVec 5) (imm : BitVec 12)
  | shiftImm (o : ShiftOp) (rd rs1 : BitVec 5) (shamt : BitVec 6)
  | addiw (rd rs1 : BitVec 5) (imm : BitVec 12)
  | shiftImmW (o : ShiftOp) (rd rs1 : BitVec 5) (shamt : BitVec 5)
  | op (o : RegOp) (rd rs1 rs2 : BitVec 5)
  | opW (o : WordOp) (rd rs1 rs2 : BitVec 5)
  | mulDiv (o : MulOp) (rd rs1 rs2 : BitVec 5)
  | mulDivW (o : MulWordOp) (rd rs1 rs2 : BitVec 5)
  | fence (rd rs1 : BitVec 5) (imm : BitVec 12)
  | fenceI (rd rs1 : BitVec 5) (imm : BitVec 12)
  | csr (o : CsrInstr) (rd rs1 : BitVec 5) (csr : BitVec 12)
  | ecall
  | ebreak
  | mret
  | sret
  | wfi
  | sfenceVma (rs1 rs2 : BitVec 5)
  | lr (w : Width) (aq rl : Bool) (rd rs1 : BitVec 5)
  | amo (o : AmoOp) (w : Width) (aq rl : Bool) (rd rs1 rs2 : BitVec 5)
  | fload (w : Width) (rd rs1 : BitVec 5) (imm : BitVec 12)
  | fstore (w : Width) (rs1 rs2 : BitVec 5) (imm : BitVec 12)
  | fma (o : FmaOp) (w : Width) (rm : RoundingMode) (rd rs1 rs2 rs3 : BitVec 5)
  | fpArith (o : FpArithOp) (w : Width) (rm : RoundingMode) (rd rs1 rs2 : BitVec 5)
  | fpExact (o : FpExactOp) (w : Width) (rd rs1 rs2 : BitVec 5)
  | fsqrt (w : Width) (rm : RoundingMode) (rd rs1 : BitVec 5)
  | fcvtSD (rm : RoundingMode) (rd rs1 : BitVec 5)
  | fcvtDS (rm : RoundingMode) (rd rs1 : BitVec 5)
  | fcvtToInt (w : Width) (k : IntKind) (rm : RoundingMode) (rd rs1 : BitVec 5)
  | fcvtFromInt (w : Width) (k : IntKind) (rm : RoundingMode) (rd rs1 : BitVec 5)
  | fpMove (o : FpMoveOp) (w : Width) (rd rs1 : BitVec 5)
  deriving DecidableEq, Repr

namespace Instr

/-- Twelve bits at the top of the word. -/
def iType (imm : BitVec 12) (rs1 : BitVec 5) (funct3 : BitVec 3) (rd : BitVec 5)
    (opcode : BitVec 7) : Fields :=
  ⟨imm.extractLsb' 5 7, imm.extractLsb' 0 5, rs1, funct3, rd, opcode⟩

/-- Twelve bits around the source registers. -/
def sType (imm : BitVec 12) (rs1 rs2 : BitVec 5) (funct3 : BitVec 3) (opcode : BitVec 7) :
    Fields :=
  ⟨imm.extractLsb' 5 7, rs2, rs1, funct3, imm.extractLsb' 0 5, opcode⟩

/-- The offset of a branch, without its lowest bit. -/
def bType (imm : BitVec 12) (rs1 rs2 : BitVec 5) (funct3 : BitVec 3) (opcode : BitVec 7) :
    Fields :=
  ⟨imm.extractLsb' 11 1 ++ imm.extractLsb' 4 6, rs2, rs1, funct3,
    imm.extractLsb' 0 4 ++ imm.extractLsb' 10 1, opcode⟩

/-- Twenty bits at the top of the word. -/
def uType (imm : BitVec 20) (rd : BitVec 5) (opcode : BitVec 7) : Fields :=
  ⟨imm.extractLsb' 13 7, imm.extractLsb' 8 5, imm.extractLsb' 3 5, imm.extractLsb' 0 3, rd, opcode⟩

/-- The offset of a jump, without its lowest bit. -/
def jType (imm : BitVec 20) (rd : BitVec 5) (opcode : BitVec 7) : Fields :=
  ⟨imm.extractLsb' 19 1 ++ imm.extractLsb' 4 6, imm.extractLsb' 0 4 ++ imm.extractLsb' 10 1,
    imm.extractLsb' 14 5, imm.extractLsb' 11 3, rd, opcode⟩

/-! ### Every word has each of the formats -/

theorem iType_imm12 (f : Fields) : iType f.imm12 f.rs1 f.funct3 f.rd f.opcode = f := by
  ext1 <;> simp (disch := omega) only [iType, Fields.imm12, Fields.extract_low,
    Fields.extract_high, Nat.sub_self, BitVec.extractLsb'_eq_self]

theorem exists_sType (f : Fields) : ∃ imm, sType imm f.rs1 f.rs2 f.funct3 f.opcode = f := by
  refine ⟨f.funct7 ++ f.rd, ?_⟩
  ext1 <;> simp (disch := omega) only [sType, Fields.extract_low, Fields.extract_high,
    Nat.sub_self, BitVec.extractLsb'_eq_self]

theorem exists_uType (f : Fields) : ∃ imm, uType imm f.rd f.opcode = f := by
  refine ⟨f.funct7 ++ f.rs2 ++ f.rs1 ++ f.funct3, ?_⟩
  ext1 <;> simp (disch := omega) only [uType, Fields.extract_low, Fields.extract_high,
    Nat.sub_self, Nat.reduceSub, BitVec.extractLsb'_eq_self]

theorem exists_bType (f : Fields) : ∃ imm, bType imm f.rs1 f.rs2 f.funct3 f.opcode = f := by
  refine ⟨f.funct7.extractLsb' 6 1 ++ f.rd.extractLsb' 0 1 ++ f.funct7.extractLsb' 0 6 ++
    f.rd.extractLsb' 1 4, ?_⟩
  ext1 <;> simp (disch := omega) only [bType, Fields.extract_low, Fields.extract_high,
    Nat.sub_self, Nat.reduceSub, BitVec.extractLsb'_eq_self]
  · rw [BitVec.extractLsb'_append_extractLsb'_eq_extractLsb' (by rfl)]
    exact BitVec.extractLsb'_eq_self
  · rw [BitVec.extractLsb'_append_extractLsb'_eq_extractLsb' (by rfl)]
    exact BitVec.extractLsb'_eq_self

theorem exists_jType (f : Fields) : ∃ imm, jType imm f.rd f.opcode = f := by
  refine ⟨f.funct7.extractLsb' 6 1 ++ f.rs1 ++ f.funct3 ++ f.rs2.extractLsb' 0 1 ++
    f.funct7.extractLsb' 0 6 ++ f.rs2.extractLsb' 1 4, ?_⟩
  ext1 <;> simp (disch := omega) only [jType, Fields.extract_low, Fields.extract_high,
    Nat.sub_self, Nat.reduceSub, BitVec.extractLsb'_eq_self]
  · rw [BitVec.extractLsb'_append_extractLsb'_eq_extractLsb' (by rfl)]
    exact BitVec.extractLsb'_eq_self
  · rw [BitVec.extractLsb'_append_extractLsb'_eq_extractLsb' (by rfl)]
    exact BitVec.extractLsb'_eq_self

/-- The encoding. -/
def fields : Instr → Fields
  | lui rd imm => uType imm rd 0x37
  | auipc rd imm => uType imm rd 0x17
  | jal rd imm => jType imm rd 0x6F
  | jalr rd rs1 imm => iType imm rs1 0 rd 0x67
  | branch o rs1 rs2 imm => bType imm rs1 rs2 o.funct3 0x63
  | load o rd rs1 imm => iType imm rs1 o.funct3 rd 0x03
  | store o rs1 rs2 imm => sType imm rs1 rs2 o.funct3 0x23
  | opImm o rd rs1 imm => iType imm rs1 o.funct3 rd 0x13
  | shiftImm o rd rs1 shamt => iType (o.funct6 ++ shamt) rs1 o.funct3 rd 0x13
  | addiw rd rs1 imm => iType imm rs1 0 rd 0x1B
  | shiftImmW o rd rs1 shamt => ⟨o.funct6 ++ 0#1, shamt, rs1, o.funct3, rd, 0x1B⟩
  | op o rd rs1 rs2 => ⟨o.funct7, rs2, rs1, o.funct3, rd, 0x33⟩
  | opW o rd rs1 rs2 => ⟨o.funct7, rs2, rs1, o.funct3, rd, 0x3B⟩
  | mulDiv o rd rs1 rs2 => ⟨1, rs2, rs1, o.funct3, rd, 0x33⟩
  | mulDivW o rd rs1 rs2 => ⟨1, rs2, rs1, o.funct3, rd, 0x3B⟩
  | fence rd rs1 imm => iType imm rs1 0 rd 0x0F
  | fenceI rd rs1 imm => iType imm rs1 1 rd 0x0F
  | csr o rd rs1 c => iType c rs1 o.funct3 rd 0x73
  | ecall => iType 0x000 0 0 0 0x73
  | ebreak => iType 0x001 0 0 0 0x73
  | mret => iType 0x302 0 0 0 0x73
  | sret => iType 0x102 0 0 0 0x73
  | wfi => iType 0x105 0 0 0 0x73
  | sfenceVma rs1 rs2 => ⟨0x09, rs2, rs1, 0, 0, 0x73⟩
  | lr w aq rl rd rs1 =>
    ⟨2#5 ++ BitVec.ofBool aq ++ BitVec.ofBool rl, 0, rs1, w.funct3, rd, 0x2F⟩
  | amo o w aq rl rd rs1 rs2 =>
    ⟨o.funct5 ++ BitVec.ofBool aq ++ BitVec.ofBool rl, rs2, rs1, w.funct3, rd, 0x2F⟩
  | fload w rd rs1 imm => iType imm rs1 w.funct3 rd 0x07
  | fstore w rs1 rs2 imm => sType imm rs1 rs2 w.funct3 0x27
  | fma o w rm rd rs1 rs2 rs3 => ⟨rs3 ++ w.fmt, rs2, rs1, rm.bits, rd, o.opcode⟩
  | fpArith o w rm rd rs1 rs2 => ⟨o.funct5 ++ w.fmt, rs2, rs1, rm.bits, rd, 0x53⟩
  | fpExact o w rd rs1 rs2 => ⟨o.funct5 ++ w.fmt, rs2, rs1, o.funct3, rd, 0x53⟩
  | fsqrt w rm rd rs1 => ⟨0x0B#5 ++ w.fmt, 0, rs1, rm.bits, rd, 0x53⟩
  | fcvtSD rm rd rs1 => ⟨0x08#5 ++ Width.word.fmt, 1, rs1, rm.bits, rd, 0x53⟩
  | fcvtDS rm rd rs1 => ⟨0x08#5 ++ Width.double.fmt, 0, rs1, rm.bits, rd, 0x53⟩
  | fcvtToInt w k rm rd rs1 => ⟨0x18#5 ++ w.fmt, k.rs2, rs1, rm.bits, rd, 0x53⟩
  | fcvtFromInt w k rm rd rs1 => ⟨0x1A#5 ++ w.fmt, k.rs2, rs1, rm.bits, rd, 0x53⟩
  | fpMove o w rd rs1 => ⟨o.funct5 ++ w.fmt, 0, rs1, o.funct3, rd, 0x53⟩

/-- The word that encodes an instruction. -/
def encode (i : Instr) : BitVec 32 := i.fields.toWord

theorem encode_eq_iff (i : Instr) (w : BitVec 32) : i.encode = w ↔ i.fields = Fields.ofWord w := by
  constructor
  · rintro rfl
    exact (Fields.ofWord_toWord _).symm
  · intro h
    rw [encode, h, Fields.toWord_ofWord]

end Instr

end Muntjac.Riscv

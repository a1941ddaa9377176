import Muntjac.Core.Icache
import Muntjac.Pipeline.DecoderLegal
import Muntjac.Riscv.Exec
import Muntjac.Sync.Fields

/-!
# Decoding and executing integer instructions

An integer instruction that goes through the decoder, the ALU and the selection of the
next program counter in the backend does what RV64I says.

## Main results

* `comparator_eq`, `shifter_double`, `shifter_word` — the comparator and the shifter.
* `Backend.npc_eq` — the next program counter is not cut off.
* `Backend.exec_of_issue` — what is written and where the program continues.
-/

namespace Muntjac.Pipeline

open Riscv

/-! ## The comparator -/

/-- When the signs agree the difference tells which one is smaller. -/
theorem ltu_eq_ult (a b : BitVec 64) : comparator.ltu a b (a - b) = a.ult b := by
  have ha := a.isLt
  have hb := b.isLt
  simp only [comparator.ltu, BitVec.msb_eq_decide, BitVec.toNat_sub, BitVec.ult]
  split
  · next h =>
    have hiff : 2 ^ 63 ≤ a.toNat ↔ 2 ^ 63 ≤ b.toNat := by simpa using h
    rw [decide_eq_decide]
    omega
  · next h =>
    have hiff : ¬(2 ^ 63 ≤ a.toNat ↔ 2 ^ 63 ≤ b.toNat) := by simpa using h
    rw [decide_eq_decide]
    omega

theorem lt_eq_slt (a b : BitVec 64) : comparator.lt a b (a - b) = a.slt b := by
  rw [BitVec.slt_eq_ult, ← ltu_eq_ult]
  simp only [comparator.lt, comparator.ltu]
  cases a.msb <;> cases b.msb <;> simp

/-- The condition code of a branch. -/
def ccOf : BranchOp → ConditionCode
  | .beq => .eq
  | .bne => .ne
  | .blt => .lt
  | .bge => .ge
  | .bltu => .ltu
  | .bgeu => .geu

theorem comparator_eq (a b : BitVec 64) (o : BranchOp) :
    comparator a b (a - b) (ccOf o) = o.holds a b := by
  cases o with
  | beq => rfl
  | bne => rfl
  | blt => exact lt_eq_slt a b
  | bge => exact congrArg (!·) (lt_eq_slt a b)
  | bltu => exact ltu_eq_ult a b
  | bgeu => exact congrArg (!·) (ltu_eq_ult a b)

/-! ## The shifter -/

theorem shiftRight_getLsbD (b x : BitVec 64) (op : ShiftOp) (word : Bool) (k : ℕ) (hk : k < 64) :
    (shifter.shiftRight b op word x).getLsbD k =
      if shifter.shamt b word + k < 64 then x.getLsbD (shifter.shamt b word + k)
      else op == .sra && x.msb := by
  simp only [shifter.shiftRight, BitVec.getLsbD_setWidth, hk, decide_true, Bool.true_and,
    BitVec.getLsbD_sshiftRight, BitVec.getLsbD_cons, BitVec.msb_cons]
  have h65 : ¬65 ≤ k := by omega
  by_cases h : shifter.shamt b word + k < 64
  · have h1 : shifter.shamt b word + k < 65 := by omega
    have h2 : shifter.shamt b word + k ≠ 64 := by omega
    simp [h, h1, h2, h65]
  · by_cases h64 : shifter.shamt b word + k = 64
    · simp [h64, h65]
    · have h1 : ¬shifter.shamt b word + k < 65 := by omega
      simp [h, h1, h65]

/-- The shift operation of the instruction set. -/
def shiftOf : Riscv.ShiftOp → ShiftOp
  | .sll => .sll
  | .srl => .srl
  | .sra => .sra

theorem shamt_lt (b : BitVec 64) (word : Bool) : shifter.shamt b word < 64 := by
  unfold shifter.shamt
  split <;> omega

theorem shifter_sll (a b : BitVec 64) (word : Bool) :
    shifter a b .sll word = a <<< shifter.shamt b word := by
  apply BitVec.eq_of_getLsbD_eq
  intro k hk
  have hn := shamt_lt b word
  have hk' : 64 - 1 - k < 64 := by omega
  simp only [shifter, BitVec.getLsbD_reverse, BitVec.getMsbD_eq_getLsbD, hk, decide_true,
    Bool.true_and, shiftRight_getLsbD b a.reverse .sll word _ hk', BitVec.getLsbD_shiftLeft]
  by_cases h : k < shifter.shamt b word
  · have hge : ¬shifter.shamt b word + (64 - 1 - k) < 64 := by omega
    simp [h, hge]
  · have hlt : shifter.shamt b word + (64 - 1 - k) < 64 := by omega
    have hsub : 64 - 1 - (shifter.shamt b word + (64 - 1 - k)) = k - shifter.shamt b word := by
      omega
    simp only [hlt, if_true, hsub, decide_true, Bool.true_and, h, decide_false, Bool.not_false]

theorem shifter_right (a b : BitVec 64) (o : Riscv.ShiftOp) (ho : o ≠ .sll) :
    shifter a b (shiftOf o) false = o.eval a (shifter.shamt b false) := by
  apply BitVec.eq_of_getLsbD_eq
  intro k hk
  have h64 : ¬64 ≤ k := by omega
  have hs := shiftRight_getLsbD b a (shiftOf o) false k hk
  cases o with
  | sll => exact absurd rfl ho
  | srl =>
      simp only [shifter, shiftOf, Bool.false_eq_true, if_false] at hs ⊢
      rw [hs, ShiftOp.eval, BitVec.getLsbD_ushiftRight]
      split
      · rfl
      · exact (BitVec.getLsbD_of_ge _ _ (by omega)).symm
  | sra =>
      simp only [shifter, shiftOf, Bool.false_eq_true, if_false] at hs ⊢
      rw [hs, ShiftOp.eval, BitVec.getLsbD_sshiftRight]
      simp [h64]

/-- A word is shifted in the upper half of the operand. -/
theorem shiftRight_word (a b : BitVec 64) (op : ShiftOp) (k : ℕ) (hk : k < 32) :
    (shifter.shiftRight b op true (a.extractLsb' 0 32 ++ 0#32)).getLsbD (32 + k) =
      if shifter.shamt b true + k < 32 then a.getLsbD (shifter.shamt b true + k)
      else op == .sra && (a.setWidth 32).msb := by
  rw [shiftRight_getLsbD b _ op true (32 + k) (by omega), BitVec.getLsbD_append]
  have hge : ¬shifter.shamt b true + (32 + k) < 32 := by omega
  have hsub : shifter.shamt b true + (32 + k) - 32 = shifter.shamt b true + k := by omega
  have hlow : a.extractLsb' 0 32 = a.setWidth 32 := by
    apply BitVec.eq_of_getLsbD_eq
    intro j hj
    simp only [BitVec.getLsbD_extractLsb', BitVec.getLsbD_setWidth, Nat.zero_add]
  have hmsb : (a.extractLsb' 0 32 ++ 0#32).msb = (a.setWidth 32).msb := by
    rw [BitVec.msb_append, if_neg (by decide), hlow]
  rw [hmsb, if_neg hge, hsub, BitVec.getLsbD_extractLsb']
  by_cases h : shifter.shamt b true + k < 32
  · have h64 : shifter.shamt b true + (32 + k) < 64 := by omega
    simp [h, h64]
  · have h64 : ¬shifter.shamt b true + (32 + k) < 64 := by omega
    simp [h, h64]

/-- The low word of the result of a shift of words. -/
theorem shifter_word (a b : BitVec 64) (o : Riscv.ShiftOp) :
    (shifter a b (shiftOf o) true).extractLsb' 0 32 =
      o.eval (a.setWidth 32) (shifter.shamt b true) := by
  apply BitVec.eq_of_getLsbD_eq
  intro k hk
  have hk64 : k < 64 := by omega
  have h32 : ¬32 ≤ k := by omega
  cases o with
  | sll =>
      rw [show shiftOf .sll = .sll from rfl, shifter_sll]
      simp only [ShiftOp.eval, BitVec.getLsbD_extractLsb', BitVec.getLsbD_shiftLeft,
        BitVec.getLsbD_setWidth, hk, Nat.zero_add, hk64, decide_true, Bool.true_and]
      have hsub : k - shifter.shamt b true < 32 := by omega
      simp [hsub]
  | srl =>
      simp only [shifter, shiftOf, if_true, BitVec.getLsbD_extractLsb', BitVec.getLsbD_setWidth,
        hk, Nat.zero_add, hk64, decide_true, Bool.true_and, shiftRight_word a b .srl k hk,
        ShiftOp.eval, BitVec.getLsbD_ushiftRight]
      by_cases h : shifter.shamt b true + k < 32 <;> simp [h]
  | sra =>
      simp only [shifter, shiftOf, if_true, BitVec.getLsbD_extractLsb', BitVec.getLsbD_setWidth,
        hk, Nat.zero_add, hk64, decide_true, Bool.true_and, shiftRight_word a b .sra k hk,
        ShiftOp.eval, BitVec.getLsbD_sshiftRight]
      by_cases h : shifter.shamt b true + k < 32 <;> simp [h, h32]

/-! ## Immediates -/

theorem iImm_iType (imm : BitVec 12) (rs1 : BitVec 5) (funct3 : BitVec 3) (rd : BitVec 5)
    (opcode : BitVec 7) :
    iImm (Instr.iType imm rs1 funct3 rd opcode).toWord = imm.signExtend 32 := by
  simp (disch := omega) only [iImm, Fields.toWord, Instr.iType, Fields.extract_high,
    Nat.reduceSub, BitVec.extractLsb'_eq_self]
  rw [BitVec.extractLsb'_append_extractLsb'_eq_extractLsb' (by rfl)]
  exact congrArg (BitVec.signExtend 32) BitVec.extractLsb'_eq_self

theorem uImm_uType (imm : BitVec 20) (rd : BitVec 5) (opcode : BitVec 7) :
    uImm (Instr.uType imm rd opcode).toWord = imm ++ 0#12 := by
  simp (disch := omega) only [uImm, Fields.toWord, Instr.uType, Fields.extract_high,
    Nat.reduceSub, BitVec.extractLsb'_eq_self]
  rw [BitVec.extractLsb'_append_extractLsb'_eq_extractLsb' (by rfl),
    BitVec.extractLsb'_append_extractLsb'_eq_extractLsb' (by rfl),
    BitVec.extractLsb'_append_extractLsb'_eq_extractLsb' (by rfl)]
  exact congrArg (· ++ 0#12) BitVec.extractLsb'_eq_self

theorem bImm_toWord (f : Fields) : bImm f.toWord =
    (f.funct7.extractLsb' 6 1 ++ f.rd.extractLsb' 0 1 ++ f.funct7.extractLsb' 0 6 ++
      f.rd.extractLsb' 1 4 ++ 0#1 : BitVec 13).signExtend 32 := by
  simp (disch := omega) only [bImm, Fields.toWord, Fields.extract_high, Fields.extract_low,
    Nat.reduceSub]

theorem bImm_bType (imm : BitVec 12) (rs1 rs2 : BitVec 5) (funct3 : BitVec 3) (opcode : BitVec 7) :
    bImm (Instr.bType imm rs1 rs2 funct3 opcode).toWord = (imm ++ 0#1).signExtend 32 := by
  rw [bImm_toWord]
  simp (disch := omega) only [Instr.bType, Fields.extract_high, Fields.extract_low, Nat.reduceSub,
    BitVec.extractLsb'_eq_self]
  rw [BitVec.extractLsb'_append_extractLsb'_eq_extractLsb' (by rfl),
    BitVec.extractLsb'_append_extractLsb'_eq_extractLsb' (by rfl),
    BitVec.extractLsb'_append_extractLsb'_eq_extractLsb' (by rfl)]
  exact congrArg (fun x : BitVec 12 => (x ++ 0#1).signExtend 32) BitVec.extractLsb'_eq_self

theorem jImm_toWord (f : Fields) : jImm f.toWord =
    (f.funct7.extractLsb' 6 1 ++ (f.rs1 ++ f.funct3) ++ f.rs2.extractLsb' 0 1 ++
      (f.funct7.extractLsb' 0 6 ++ f.rs2.extractLsb' 1 4) ++ 0#1 : BitVec 21).signExtend 32 := by
  have h8 : f.toWord.extractLsb' 12 8 = f.rs1 ++ f.funct3 := by
    simp (disch := omega) only [Fields.toWord, Fields.extract_high, Nat.reduceSub]
    refine (Fields.extract_across (l := 5) (r := 3) _ _ (by rfl)).trans ?_
    rw [Fields.extract_low _ _ (by omega), BitVec.extractLsb'_eq_self, BitVec.extractLsb'_eq_self]
  have h10 : f.toWord.extractLsb' 21 10 =
      f.funct7.extractLsb' 0 6 ++ f.rs2.extractLsb' 1 4 := by
    simp (disch := omega) only [Fields.toWord, Fields.extract_high, Nat.reduceSub]
    exact Fields.extract_across (l := 6) (r := 4) _ _ (by rfl)
  have h1 : f.toWord.extractLsb' 31 1 = f.funct7.extractLsb' 6 1 := by
    simp (disch := omega) only [Fields.toWord, Fields.extract_high, Nat.reduceSub]
  have h20 : f.toWord.extractLsb' 20 1 = f.rs2.extractLsb' 0 1 := by
    simp (disch := omega) only [Fields.toWord, Fields.extract_high, Fields.extract_low,
      Nat.reduceSub]
  rw [jImm, h8, h10, h1, h20]

theorem jImm_jType (imm : BitVec 20) (rd : BitVec 5) (opcode : BitVec 7) :
    jImm (Instr.jType imm rd opcode).toWord = (imm ++ 0#1).signExtend 32 := by
  rw [jImm_toWord]
  simp (disch := omega) only [Instr.jType, Fields.extract_high, Fields.extract_low, Nat.reduceSub,
    BitVec.extractLsb'_eq_self]
  rw [BitVec.extractLsb'_append_extractLsb'_eq_extractLsb' (x := imm) (by rfl : 14 = 11 + 3),
    BitVec.extractLsb'_append_extractLsb'_eq_extractLsb' (x := imm) (by rfl : 4 = 0 + 4),
    BitVec.extractLsb'_append_extractLsb'_eq_extractLsb' (by rfl),
    BitVec.extractLsb'_append_extractLsb'_eq_extractLsb' (by rfl),
    BitVec.extractLsb'_append_extractLsb'_eq_extractLsb' (by rfl)]
  exact congrArg (fun x : BitVec 20 => (x ++ 0#1).signExtend 32) BitVec.extractLsb'_eq_self

theorem signExtend_signExtend {w : ℕ} (x : BitVec w) (hw : w ≤ 32) :
    (x.signExtend 32).signExtend 64 = x.signExtend 64 := by
  apply BitVec.eq_of_toInt_eq
  rw [BitVec.toInt_signExtend_of_le (by omega), BitVec.toInt_signExtend_of_le hw,
    BitVec.toInt_signExtend_of_le (by omega)]

/-! ## Decoded instructions -/

section
variable {e : DecoderEnv} {x : FetchedInstr} {i : Instr}

theorem decoder_f (h : decompressed e x = ⟨i.encode, false⟩) : decoder.f e x = i.fields := by
  rw [decoder.f, h]
  exact Fields.ofWord_toWord _

/-- The control bits of the decoded instruction. -/
theorem decoder_c (h : decompressed e x = ⟨i.encode, false⟩) :
    decoder.c e x = control e i.fields := by
  rw [decoder.c, decoder_f h]

/-- What the ALU and the issue logic see of an instruction. -/
structure Selected (d : DecodedInstr) (c : Control) (f : Fields) (o : Opcode) (imm : BitVec 64) :
    Prop where
  opType : d.opType = c.opType
  size : d.size = c.size
  aluOp : d.aluOp = c.aluOp
  shiftOp : d.shiftOp = c.shiftOp
  condition : d.condition = c.condition
  useFrd : d.useFrd = c.useFrd
  rd : d.rd = if c.rdEnable then f.rd else 0
  rs1 : d.rs1 = if c.rs1Enable then f.rs1 else 0
  rs2 : d.rs2 = if c.rs2Enable then f.rs2 else 0
  adderUsePc : d.adderUsePc = (operandSelect (some o)).1
  adderUseImm : d.adderUseImm = (operandSelect (some o)).2.1
  useImm : d.useImm = (operandSelect (some o)).2.2
  imm : d.immSext = imm

theorem selected (h : decompressed e x = ⟨i.encode, false⟩) {o : Opcode}
    (ho : Opcode.ofBits i.fields.opcode = some o) :
    Selected (decoder e x) (control e i.fields) i.fields o
      ((immediate i.encode (some o)).signExtend 64) := by
  constructor <;>
    simp only [decoder, decoder_f h, decoder_c h, ho, h, DecodedInstr.immSext]

end

/-! ## The ALU -/

/-- The operation of the ALU on its two operands, before the result is cut to a word. -/
def aluEval (c : Control) (word : Bool) (a y : BitVec 64) : BitVec 64 :=
  match c.aluOp with
  | .add => a + y
  | .sub => a - y
  | .and => a &&& y
  | .or => a ||| y
  | .xor => a ^^^ y
  | .shift => shifter a y c.shiftOp word
  | .scc => setIf (comparator a y (a - y) c.condition)

section
variable {d : DecodedInstr} {c : Control} {f : Fields} {o : Opcode} {imm : BitVec 64}

/-- An operation whose adder uses the same operands as the other units. -/
theorem alu_result (hd : Selected d c f o imm) (hpc : (operandSelect (some o)).1 = false)
    (himm : (operandSelect (some o)).2.1 = (operandSelect (some o)).2.2) (a b : BitVec 64) :
    (alu d a b).result =
      if d.word then
        ((aluEval c d.word a (if (operandSelect (some o)).2.2 then imm else b)).extractLsb'
          0 32).signExtend 64
      else aluEval c d.word a (if (operandSelect (some o)).2.2 then imm else b) := by
  have hB : alu.operandB d b = if (operandSelect (some o)).2.2 then imm else b := by
    rw [alu.operandB, hd.useImm, hd.imm]
  have hD : alu.difference d a b = a - if (operandSelect (some o)).2.2 then imm else b := by
    rw [alu.difference, hB]
  have hS : alu.sum d a b = a + if (operandSelect (some o)).2.2 then imm else b := by
    rw [alu.sum, hd.adderUsePc, hpc, if_neg Bool.false_ne_true, hd.adderUseImm, himm, hd.imm]
  have h : alu.result d a b =
      aluEval c d.word a (if (operandSelect (some o)).2.2 then imm else b) := by
    rw [alu.result, aluEval, alu.compareResult, hB, hD, hS, hd.aluOp, hd.shiftOp, hd.condition]
    rfl
  simp only [alu, h]

theorem alu_compareResult (hd : Selected d c f o imm) (h : (operandSelect (some o)).2.2 = false)
    (a b : BitVec 64) : (alu d a b).compareResult = comparator a b (a - b) c.condition := by
  simp only [alu, alu.compareResult, alu.operandB, alu.difference, hd.useImm, h, hd.condition,
    Bool.false_eq_true, if_false]

theorem word_of_size (hd : Selected d c f o imm) : d.word = (c.size == 0 || c.size == 2) := by
  rw [DecodedInstr.word, hd.size]

end

/-! ## Computations -/

/-- The outputs of the ALU for an instruction whose operands come from `regs`. -/
def aluOut (d : DecodedInstr) (regs : BitVec 5 → BitVec 64) : AluOut :=
  alu d (regs d.rs1) (regs d.rs2)

/-- The instruction computes `v` for the integer register `rd`. -/
structure Computes (d : DecodedInstr) (regs : BitVec 5 → BitVec 64) (rd : BitVec 5)
    (v : BitVec 64) : Prop where
  opType : d.opType = .alu
  useFrd : d.useFrd = false
  rd : d.rd = rd
  result : (aluOut d regs).result = v

/-- The control bits of an operation on registers. -/
structure Computing (c : Control) : Prop where
  opType : c.opType = .alu
  useFrd : c.useFrd = false
  rdEnable : c.rdEnable = true
  rs1Enable : c.rs1Enable = true

section
variable {e : DecoderEnv} {x : FetchedInstr} {d : DecodedInstr} {c : Control} {f : Fields}
variable {o : Opcode} {imm : BitVec 64} {regs : BitVec 5 → BitVec 64}

/-- The second operand. -/
def operand (c : Control) (f : Fields) (o : Opcode) (imm : BitVec 64)
    (regs : BitVec 5 → BitVec 64) : BitVec 64 :=
  if (operandSelect (some o)).2.2 then imm else regs (if c.rs2Enable then f.rs2 else 0)

theorem computes_double (regs : BitVec 5 → BitVec 64) (hd : Selected d c f o imm)
    (hc : Computing c) (hpc : (operandSelect (some o)).1 = false)
    (himm : (operandSelect (some o)).2.1 = (operandSelect (some o)).2.2) (hs : c.size = 3) :
    Computes d regs f.rd (aluEval c false (regs f.rs1) (operand c f o imm regs)) where
  opType := hd.opType.trans hc.opType
  useFrd := hd.useFrd.trans hc.useFrd
  rd := by rw [hd.rd, hc.rdEnable, if_pos rfl]
  result := by
    have hw : d.word = false := by rw [word_of_size hd, hs]; rfl
    rw [aluOut, alu_result hd hpc himm, hw, hd.rs1, hd.rs2, hc.rs1Enable]
    rfl

theorem computes_word (regs : BitVec 5 → BitVec 64) (hd : Selected d c f o imm) (hc : Computing c)
    (hpc : (operandSelect (some o)).1 = false)
    (himm : (operandSelect (some o)).2.1 = (operandSelect (some o)).2.2) (hs : c.size = 2) :
    Computes d regs f.rd
      (((aluEval c true (regs f.rs1) (operand c f o imm regs)).extractLsb' 0 32).signExtend
        64) where
  opType := hd.opType.trans hc.opType
  useFrd := hd.useFrd.trans hc.useFrd
  rd := by rw [hd.rd, hc.rdEnable, if_pos rfl]
  result := by
    have hw : d.word = true := by rw [word_of_size hd, hs]; rfl
    rw [aluOut, alu_result hd hpc himm, hw, hd.rs1, hd.rs2, hc.rs1Enable]
    rfl

theorem computes_opImm {o : ImmOp} {rd rs1 : BitVec 5} {imm : BitVec 12}
    (h : decompressed e x = ⟨(Instr.opImm o rd rs1 imm).encode, false⟩) :
    Computes (decoder e x) regs rd (o.eval (regs rs1) (imm.signExtend 64)) := by
  have hd := selected h (o := .opImm) rfl
  have himm : (immediate (Instr.opImm o rd rs1 imm).encode (some .opImm)).signExtend 64 =
      imm.signExtend 64 := by
    rw [immediate, Instr.encode, Instr.fields, iImm_iType, signExtend_signExtend _ (by omega)]
  rw [himm] at hd
  have hc : Computing (control e (Instr.opImm o rd rs1 imm).fields) := by
    cases o <;> constructor <;> rfl
  have hr := computes_double regs hd hc rfl rfl (by cases o <;> rfl)
  cases o with
  | addi => exact hr
  | slti => rwa [ImmOp.eval, ← BranchOp.holds.eq_3, ← comparator_eq]
  | sltiu => rwa [ImmOp.eval, ← BranchOp.holds.eq_5, ← comparator_eq]
  | xori => exact hr
  | ori => exact hr
  | andi => exact hr

/-- Low bits are not touched by a sign extension. -/
theorem setWidth_signExtend {w k : ℕ} (y : BitVec w) (hk : k ≤ w) (hw : w ≤ 64) :
    (y.signExtend 64).setWidth k = y.setWidth k := by
  apply BitVec.eq_of_getLsbD_eq
  intro j hj
  have hjw : j < w := by omega
  have hj64 : j < 64 := by omega
  simp only [BitVec.getLsbD_setWidth, BitVec.getLsbD_signExtend, hjw, hj64, decide_true,
    Bool.true_and, if_true]

theorem shamt_double (y : BitVec 64) : shifter.shamt y false = (y.setWidth 6).toNat := by
  rw [BitVec.toNat_setWidth]
  rfl

theorem shamt_word (y : BitVec 64) : shifter.shamt y true = (y.setWidth 5).toNat := by
  rw [BitVec.toNat_setWidth]
  rfl

theorem shifter_double (a y : BitVec 64) (o : Riscv.ShiftOp) :
    shifter a y (shiftOf o) false = o.eval a (y.setWidth 6).toNat := by
  rw [← shamt_double]
  cases o with
  | sll => exact shifter_sll a y false
  | srl => exact shifter_right a y .srl (by decide)
  | sra => exact shifter_right a y .sra (by decide)

theorem control_shiftImm (o : Riscv.ShiftOp) (rd rs1 : BitVec 5) (shamt : BitVec 6) :
    control e (Instr.shiftImm o rd rs1 shamt).fields =
      { aluOp := .shift, shiftOp := shiftOf o, rdEnable := true, rs1Enable := true } := by
  rw [control_of_opcode e (o := .opImm) rfl]
  cases o <;>
    simp [Control.opImm, Instr.fields, Instr.iType, ShiftOp.funct3, extract_shamt,
      ShiftOp.funct6, shiftOf]

theorem computes_shiftImm {o : Riscv.ShiftOp} {rd rs1 : BitVec 5} {shamt : BitVec 6}
    (h : decompressed e x = ⟨(Instr.shiftImm o rd rs1 shamt).encode, false⟩) :
    Computes (decoder e x) regs rd (o.eval (regs rs1) shamt.toNat) := by
  have hd := selected h (o := .opImm) rfl
  have himm : (immediate (Instr.shiftImm o rd rs1 shamt).encode (some .opImm)).signExtend 64 =
      (o.funct6 ++ shamt).signExtend 64 := by
    rw [immediate, Instr.encode, Instr.fields, iImm_iType, signExtend_signExtend _ (by omega)]
  rw [himm, control_shiftImm] at hd
  have hr := computes_double regs hd ⟨rfl, rfl, rfl, rfl⟩ rfl rfl rfl
  have hamt : ((o.funct6 ++ shamt).signExtend 64).setWidth 6 = shamt := by
    rw [setWidth_signExtend _ (by omega) (by omega)]
    exact BitVec.setWidth_append_eq_right
  have hv := shifter_double (regs rs1) ((o.funct6 ++ shamt).signExtend 64) o
  rw [hamt] at hv
  exact hv ▸ hr

theorem computes_addiw {rd rs1 : BitVec 5} {imm : BitVec 12}
    (h : decompressed e x = ⟨(Instr.addiw rd rs1 imm).encode, false⟩) :
    Computes (decoder e x) regs rd
      (((regs rs1).setWidth 32 + imm.signExtend 32).signExtend 64) := by
  have hd := selected h (o := .opImm32) rfl
  have himm : (immediate (Instr.addiw rd rs1 imm).encode (some .opImm32)).signExtend 64 =
      imm.signExtend 64 := by
    rw [immediate, Instr.encode, Instr.fields, iImm_iType, signExtend_signExtend _ (by omega)]
  rw [himm] at hd
  have hr := computes_word regs hd ⟨rfl, rfl, rfl, rfl⟩ rfl rfl rfl
  have hlow : (imm.signExtend 64).setWidth 32 = imm.signExtend 32 := by
    rw [← signExtend_signExtend imm (by omega), setWidth_signExtend _ (by omega) (by omega),
      BitVec.setWidth_eq]
  have hv : (regs rs1 + imm.signExtend 64).extractLsb' 0 32 =
      (regs rs1).setWidth 32 + imm.signExtend 32 := by
    rw [← BitVec.setWidth_eq_extractLsb' (by omega), BitVec.setWidth_add _ _ (by omega), hlow]
  exact hv ▸ hr

theorem computes_shiftImmW {o : Riscv.ShiftOp} {rd rs1 shamt : BitVec 5}
    (h : decompressed e x = ⟨(Instr.shiftImmW o rd rs1 shamt).encode, false⟩) :
    Computes (decoder e x) regs rd
      ((o.eval ((regs rs1).setWidth 32) shamt.toNat).signExtend 64) := by
  have hd := selected h (o := .opImm32) rfl
  have hfields : (Instr.shiftImmW o rd rs1 shamt).fields =
      Instr.iType ((o.funct6 ++ 0#1) ++ shamt) rs1 o.funct3 rd 0x1B :=
    (Instr.iType_imm12 ⟨o.funct6 ++ 0#1, shamt, rs1, o.funct3, rd, 0x1B⟩).symm
  have himm : (immediate (Instr.shiftImmW o rd rs1 shamt).encode (some .opImm32)).signExtend 64 =
      ((o.funct6 ++ 0#1) ++ shamt).signExtend 64 := by
    rw [immediate, Instr.encode, hfields, iImm_iType, signExtend_signExtend _ (by omega)]
  have hc : control e (Instr.shiftImmW o rd rs1 shamt).fields =
      { size := 2, aluOp := .shift, shiftOp := shiftOf o, rdEnable := true,
        rs1Enable := true } := by
    cases o <;> rfl
  rw [himm, hc] at hd
  have hr := computes_word regs hd ⟨rfl, rfl, rfl, rfl⟩ rfl rfl rfl
  have hamt : (((o.funct6 ++ 0#1) ++ shamt).signExtend 64).setWidth 5 = shamt := by
    rw [setWidth_signExtend _ (by omega) (by omega)]
    exact BitVec.setWidth_append_eq_right
  have hv := shifter_word (regs rs1) (((o.funct6 ++ 0#1) ++ shamt).signExtend 64) o
  rw [shamt_word, hamt] at hv
  exact hv ▸ hr

theorem computes_op {o : RegOp} {rd rs1 rs2 : BitVec 5}
    (h : decompressed e x = ⟨(Instr.op o rd rs1 rs2).encode, false⟩) :
    Computes (decoder e x) regs rd (o.eval (regs rs1) (regs rs2)) := by
  have hd := selected h (o := .op) rfl
  have hc : Computing (control e (Instr.op o rd rs1 rs2).fields) := by
    cases o <;> constructor <;> rfl
  have hr := computes_double regs hd hc rfl rfl (by cases o <;> rfl)
  have hamt : (regs rs2).toNat % 64 = ((regs rs2).setWidth 6).toNat :=
    (BitVec.toNat_setWidth 6 _).symm
  cases o with
  | add => exact hr
  | sub => exact hr
  | sll => rwa [RegOp.eval, hamt, ← shifter_double]
  | slt => rwa [RegOp.eval, ← BranchOp.holds.eq_3, ← comparator_eq]
  | sltu => rwa [RegOp.eval, ← BranchOp.holds.eq_5, ← comparator_eq]
  | xor => exact hr
  | srl => rwa [RegOp.eval, hamt, ← shifter_double]
  | sra => rwa [RegOp.eval, hamt, ← shifter_double]
  | or => exact hr
  | and => exact hr

theorem computes_opW {o : WordOp} {rd rs1 rs2 : BitVec 5}
    (h : decompressed e x = ⟨(Instr.opW o rd rs1 rs2).encode, false⟩) :
    Computes (decoder e x) regs rd ((o.eval (regs rs1) (regs rs2)).signExtend 64) := by
  have hd := selected h (o := .op32) rfl
  have hc : Computing (control e (Instr.opW o rd rs1 rs2).fields) := by
    cases o <;> constructor <;> rfl
  have hr := computes_word regs hd hc rfl rfl (by cases o <;> rfl)
  have hamt : (regs rs2).toNat % 32 = ((regs rs2).setWidth 5).toNat :=
    (BitVec.toNat_setWidth 5 _).symm
  cases o with
  | addw =>
      rw [WordOp.eval, ← BitVec.setWidth_add _ _ (by omega)]
      exact BitVec.setWidth_eq_extractLsb' (x := regs rs1 + regs rs2) (w := 32) (by omega) ▸ hr
  | subw =>
      have hsub : (regs rs1 - regs rs2).extractLsb' 0 32 =
          (regs rs1).setWidth 32 - (regs rs2).setWidth 32 := by
        rw [← BitVec.setWidth_eq_extractLsb' (by omega), BitVec.sub_eq_add_neg,
          BitVec.setWidth_add _ _ (by omega), BitVec.setWidth_neg_of_le (by omega),
          ← BitVec.sub_eq_add_neg]
      rw [WordOp.eval, ← hsub]
      exact hr
  | sllw => rwa [WordOp.eval, hamt, ← shamt_word, ← shifter_word]
  | srlw => rwa [WordOp.eval, hamt, ← shamt_word, ← shifter_word]
  | sraw => rwa [WordOp.eval, hamt, ← shamt_word, ← shifter_word]

/-- An operation that only uses the adder. -/
theorem computes_sum (regs : BitVec 5 → BitVec 64) (hd : Selected d c f o imm)
    (hc : c = .lui) :
    Computes d regs f.rd
      ((if (operandSelect (some o)).1 then d.pc else regs 0) +
        (if (operandSelect (some o)).2.1 then imm else regs 0)) where
  opType := by rw [hd.opType, hc]; rfl
  useFrd := by rw [hd.useFrd, hc]; rfl
  rd := by rw [hd.rd, hc]; rfl
  result := by
    have hw : d.word = false := by rw [word_of_size hd, hc]; rfl
    have hr : (aluOut d regs).result = alu.sum d (regs d.rs1) (regs d.rs2) := by
      simp only [aluOut, alu, hw, Bool.false_eq_true, if_false, alu.result, hd.aluOp, hc,
        Control.lui]
    rw [hr, alu.sum, hd.adderUsePc, hd.adderUseImm, hd.imm, hd.rs1, hd.rs2, hc]
    rfl

theorem computes_lui {rd : BitVec 5} {imm : BitVec 20} (h0 : regs 0 = 0)
    (h : decompressed e x = ⟨(Instr.lui rd imm).encode, false⟩) :
    Computes (decoder e x) regs rd ((imm ++ 0#12).signExtend 64) := by
  have hr := computes_sum regs (selected h (o := .lui) rfl) rfl
  simp only [operandSelect, Bool.false_eq_true, if_false, if_true, h0, zero_add, immediate,
    Instr.encode, Instr.fields, uImm_uType] at hr
  exact hr

theorem computes_auipc {rd : BitVec 5} {imm : BitVec 20}
    (h : decompressed e x = ⟨(Instr.auipc rd imm).encode, false⟩) :
    Computes (decoder e x) regs rd (x.pc + (imm ++ 0#12).signExtend 64) := by
  have hr := computes_sum regs (selected h (o := .auipc) rfl) rfl
  simp only [operandSelect, if_true, immediate, Instr.encode, Instr.fields, uImm_uType] at hr
  exact hr

/-! ## Jumps and branches -/

/-- The sum is the target before bit 0 is cleared. -/
theorem sum_eq (hd : Selected d c f o imm) (himm : (operandSelect (some o)).2.1 = true) :
    (aluOut d regs).sum =
      (if (operandSelect (some o)).1 then d.pc
        else regs (if c.rs1Enable then f.rs1 else 0)) + imm := by
  rw [aluOut, alu]
  simp only [alu.sum, hd.adderUsePc, hd.adderUseImm, hd.imm, hd.rs1, himm, if_true]

theorem jal_sum {rd : BitVec 5} {imm : BitVec 20}
    (h : decompressed e x = ⟨(Instr.jal rd imm).encode, false⟩) :
    (aluOut (decoder e x) regs).sum = x.pc + (imm ++ 0#1).signExtend 64 := by
  rw [sum_eq (selected h (o := .jal) rfl) rfl, immediate, Instr.encode, Instr.fields, jImm_jType,
    signExtend_signExtend _ (by omega)]
  rfl

theorem jalr_sum {rd rs1 : BitVec 5} {imm : BitVec 12}
    (h : decompressed e x = ⟨(Instr.jalr rd rs1 imm).encode, false⟩) :
    (aluOut (decoder e x) regs).sum = regs rs1 + imm.signExtend 64 := by
  rw [sum_eq (selected h (o := .jalr) rfl) rfl, immediate, Instr.encode, Instr.fields, iImm_iType,
    signExtend_signExtend _ (by omega)]
  rfl

section
variable {o : BranchOp} {rs1 rs2 : BitVec 5} {imm : BitVec 12}

theorem branch_sum (h : decompressed e x = ⟨(Instr.branch o rs1 rs2 imm).encode, false⟩) :
    (aluOut (decoder e x) regs).sum = x.pc + (imm ++ 0#1).signExtend 64 := by
  rw [sum_eq (selected h (o := .branch) rfl) rfl, immediate, Instr.encode, Instr.fields,
    bImm_bType, signExtend_signExtend _ (by omega)]
  rfl

theorem branch_compareResult
    (h : decompressed e x = ⟨(Instr.branch o rs1 rs2 imm).encode, false⟩) :
    (aluOut (decoder e x) regs).compareResult = o.holds (regs rs1) (regs rs2) := by
  have hd := selected h (o := .branch) rfl
  have hc : control e (Instr.branch o rs1 rs2 imm).fields =
      { opType := .branch, rs1Enable := true, rs2Enable := true, condition := ccOf o } := by
    cases o <;> rfl
  rw [hc] at hd
  rw [aluOut, alu_compareResult hd rfl, hd.rs1, hd.rs2]
  exact comparator_eq _ _ o

end

end

/-! ## Outcomes -/

/-- The decoded instruction has this outcome, if the following instruction is at `npc`. -/
inductive Executes (d : DecodedInstr) (regs : BitVec 5 → BitVec 64) (npc : BitVec 64) :
    Outcome → Prop
  | alu {rd : BitVec 5} {v : BitVec 64} (h : Computes d regs rd v) :
    Executes d regs npc ⟨some (rd, v), none, npc⟩
  | jump (hop : d.opType = .jump) (hf : d.useFrd = false) :
    Executes d regs npc ⟨some (d.rd, npc), none, target (aluOut d regs).sum⟩
  | branch (hop : d.opType = .branch) (hf : d.useFrd = false) (hrd : d.rd = 0) :
    Executes d regs npc
      { write := none
        taken := some (aluOut d regs).compareResult
        nextPc :=
          if (aluOut d regs).compareResult then target (aluOut d regs).sum else npc }

/-- The instructions of RV64I that compute, jump or branch have the outcome that the instruction
set says. -/
theorem executes_of_exec {e : DecoderEnv} {x : FetchedInstr} {i : Instr} {len : BitVec 64}
    {regs : BitVec 5 → BitVec 64} {o : Outcome} (h0 : regs 0 = 0)
    (hi : decompressed e x = ⟨i.encode, false⟩) (ho : i.exec x.pc len regs = some o) :
    Executes (decoder e x) regs (x.pc + len) o := by
  cases i with
  | lui rd imm => exact Option.some.inj ho ▸ .alu (computes_lui h0 hi)
  | auipc rd imm => exact Option.some.inj ho ▸ .alu (computes_auipc hi)
  | jal rd imm =>
      have hd := selected hi (o := .jal) rfl
      have hj : Executes (decoder e x) regs (x.pc + len) _ :=
        .jump (hd.opType.trans rfl) (hd.useFrd.trans rfl)
      rw [jal_sum hi, hd.rd] at hj
      exact Option.some.inj ho ▸ hj
  | jalr rd rs1 imm =>
      have hd := selected hi (o := .jalr) rfl
      have hj : Executes (decoder e x) regs (x.pc + len) _ :=
        .jump (hd.opType.trans rfl) (hd.useFrd.trans rfl)
      rw [jalr_sum hi, hd.rd] at hj
      exact Option.some.inj ho ▸ hj
  | branch c rs1 rs2 imm =>
      have hd := selected hi (o := .branch) rfl
      have hop : (decoder e x).opType = .branch := by
        rw [hd.opType]
        cases c <;> rfl
      have hf : (decoder e x).useFrd = false := by
        rw [hd.useFrd]
        cases c <;> rfl
      have hrd : (decoder e x).rd = 0 := by
        rw [hd.rd]
        cases c <;> rfl
      have hb : Executes (decoder e x) regs (x.pc + len) _ := .branch hop hf hrd
      rw [branch_sum hi, branch_compareResult hi] at hb
      exact Option.some.inj ho ▸ hb
  | opImm c rd rs1 imm => exact Option.some.inj ho ▸ .alu (computes_opImm hi)
  | shiftImm c rd rs1 shamt => exact Option.some.inj ho ▸ .alu (computes_shiftImm hi)
  | addiw rd rs1 imm => exact Option.some.inj ho ▸ .alu (computes_addiw hi)
  | shiftImmW c rd rs1 shamt => exact Option.some.inj ho ▸ .alu (computes_shiftImmW hi)
  | op c rd rs1 rs2 => exact Option.some.inj ho ▸ .alu (computes_op hi)
  | opW c rd rs1 rs2 => exact Option.some.inj ho ▸ .alu (computes_opW hi)
  | _ => cases ho

/-! ## The next program counter -/

namespace BackendParams
variable (p : BackendParams)

/-- The documented parameters. -/
structure Supported : Prop where
  physAddrLen : p.physAddrLen ≤ 56
  virtAddrLen : p.virtAddrLen = 39

/-- `LogicSextAddrLen` bits hold the program counter. -/
structure LegalPc (pc : BitVec 64) : Prop where
  lower : -(2 ^ (p.logicSextAddrLen - 1) : ℕ) ≤ pc.toInt
  upper : pc.toInt < (2 ^ (p.logicSextAddrLen - 1) : ℕ)

variable {p}

theorem Supported.logicSextAddrLen_mem (hp : p.Supported) :
    39 ≤ p.logicSextAddrLen ∧ p.logicSextAddrLen ≤ 57 ∧
      p.physAddrLen ≤ p.logicSextAddrLen - 1 := by
  have h56 := hp.physAddrLen
  have h39 := hp.virtAddrLen
  rw [logicSextAddrLen]
  split <;> omega

/-- The instruction cache answers a request for any other address with an exception. -/
theorem legalPc_of_accepted (hp : p.Supported) {q : Core.IcacheParams}
    (hphys : q.physAddrLen = p.physAddrLen) (hvirt : q.virtAddrLen = p.virtAddrLen)
    {inp : Core.IcacheIn} {pc : BitVec 64} (hpc : inp.reqPc = pc.toNat)
    (h : inp.faultsEarly q = false) : p.LegalPc pc := by
  obtain ⟨h39, h57, hle⟩ := hp.logicSextAddrLen_mem
  have hlt := pc.isLt
  have hsmall : 2 ^ 38 ≤ 2 ^ (p.logicSextAddrLen - 1) :=
    Nat.pow_le_pow_right (by omega) (by omega)
  have hint := BitVec.toInt_eq_toNat_cond pc
  have hv : inp.canonicalVirtual q = true →
      pc.toNat < 2 ^ 38 ∨ 2 ^ 64 - 2 ^ 38 ≤ pc.toNat := by
    intro hc
    simp only [Core.IcacheIn.canonicalVirtual, Sync.slice, hvirt, hp.virtAddrLen, hpc,
      Bool.or_eq_true, beq_iff_eq] at hc
    omega
  have hph : inp.canonicalPhysical q = true →
      pc.toNat < 2 ^ (p.logicSextAddrLen - 1) ∧ pc.toNat < 2 ^ 56 := by
    intro hc
    have h56 := hp.physAddrLen
    simp only [Core.IcacheIn.canonicalPhysical, Sync.slice, hphys, hpc, beq_iff_eq] at hc
    have hmul : 2 ^ p.physAddrLen * 2 ^ (63 + 1 - p.physAddrLen) = 2 ^ 64 := by
      rw [← Nat.pow_add]
      congr 1
      omega
    rw [Nat.mod_eq_of_lt (Nat.div_lt_of_lt_mul (hmul ▸ hlt)), Nat.div_eq_zero_iff] at hc
    have hbelow : pc.toNat < 2 ^ p.physAddrLen := hc.resolve_left (Nat.two_pow_pos _).ne'
    exact ⟨hbelow.trans_le (Nat.pow_le_pow_right (by omega) hle),
      hbelow.trans_le (Nat.pow_le_pow_right (by omega) h56)⟩
  have hor : inp.canonicalVirtual q = true ∨ inp.canonicalPhysical q = true := by
    rw [Core.IcacheIn.faultsEarly] at h
    split at h
    · exact .inl (by simpa using h)
    · exact .inr (by simpa using h)
  cases hor with
  | inl hc =>
      have hc := hv hc
      constructor <;> split at hint <;> omega
  | inr hc =>
      have hc := hph hc
      constructor <;> split at hint <;> omega

end BackendParams

/-- One more bit is enough for the next program counter. -/
theorem add_signExtend {p : BackendParams} (hp : p.Supported) {pc : BitVec 64} (h : p.LegalPc pc)
    (k : ℕ) (hk : k ≤ 4) :
    (pc.setWidth (p.logicSextAddrLen + 1) +
      BitVec.ofNat (p.logicSextAddrLen + 1) k).signExtend 64 = pc + BitVec.ofNat 64 k := by
  obtain ⟨h39, h57, -⟩ := hp.logicSextAddrLen_mem
  have hlo := h.lower
  have hhi := h.upper
  have hpow : 2 ^ p.logicSextAddrLen = 2 * 2 ^ (p.logicSextAddrLen - 1) := by
    rw [← Nat.pow_succ', Nat.succ_eq_add_one, Nat.sub_add_cancel (by omega)]
  have hsmall : 2 ^ 38 ≤ 2 ^ (p.logicSextAddrLen - 1) :=
    Nat.pow_le_pow_right (by omega) (by omega)
  refine Sync.signExtend_setWidth_add (by omega) (by omega) pc k ?_ ?_ <;>
    rw [Nat.add_sub_cancel] <;> omega

namespace Backend
variable {p : BackendParams} {s : Backend p} {inp : BackendIn}

theorem npc_eq (hp : p.Supported) (h : p.LegalPc s.deExDecoded.pc) :
    s.npc = s.deExDecoded.pc + if s.deExDecoded.compressed then 2 else 4 := by
  rw [npc]
  split
  · exact add_signExtend hp h 2 (by omega)
  · exact add_signExtend hp h 4 (by omega)

/-! ## Issue -/

/-- What an issued instruction leaves behind is the outcome `o`. -/
structure Leaves (s : Backend p) (inp : BackendIn) (o : Outcome) : Prop where
  /-- The result waits in EX1. -/
  select : (s.step inp).ex1.pending = true ∧ (s.step inp).ex1.select = .alu
  useFrd : (s.step inp).ex1.useFrd = false
  write : ∀ w, o.write = some w → (s.step inp).ex1.rd = w.1 ∧ (s.step inp).ex1.aluData = w.2
  noWrite : o.write = none → (s.step inp).ex1.rd = 0
  taken : ∀ t, o.taken = some t →
    (alu s.deExDecoded (s.exRs1 inp).1 (s.exRs2 inp).1).compareResult = t
  nextPc : (s.step inp).exExpectedPcQ = o.nextPc

/-- The operands of the instruction in the decode register come from `regs`. -/
structure Reads (s : Backend p) (inp : BackendIn) (regs : BitVec 5 → BitVec 64) : Prop where
  zero : regs 0 = 0
  rs1 : (s.exRs1 inp).1 = regs s.deExDecoded.rs1
  rs2 : (s.exRs2 inp).1 = regs s.deExDecoded.rs2

variable {regs : BitVec 5 → BitVec 64}

theorem Reads.alu_eq (h : s.Reads inp regs) :
    alu s.deExDecoded (s.exRs1 inp).1 (s.exRs2 inp).1 = aluOut s.deExDecoded regs := by
  rw [aluOut, h.rs1, h.rs2]

theorem step_ex1_of_exIssue (h : s.exIssue inp = true) :
    (s.step inp).ex1 =
      { pending := true
        select := s.deExDecoded.opType.unit
        aluData := s.aluDataD inp
        aluFflags := 0
        pc := s.deExDecoded.pc.setWidth _
        useFrd := s.deExDecoded.useFrd
        rd := s.deExDecoded.rd } := by
  rw [step, nextEx1, if_pos h]

theorem leaves_of_computes {rd : BitVec 5} {v : BitVec 64} (h : s.exIssue inp = true)
    (hr : s.Reads inp regs) (hc : Computes s.deExDecoded regs rd v) :
    s.Leaves inp ⟨some (rd, v), none, s.npc⟩ := by
  have hex := step_ex1_of_exIssue h
  refine ⟨?_, ?_, ?_, ?_, ?_, ?_⟩
  · rw [hex, hc.opType]
    exact ⟨rfl, rfl⟩
  · rw [hex]
    exact hc.useFrd
  · intro w hw
    cases hw
    rw [hex]
    refine ⟨hc.rd, ?_⟩
    simp only [aluDataD, hc.opType, hr.alu_eq, hc.result]
  · intro hw
    exact absurd hw (by simp)
  · intro t ht
    exact absurd ht (by simp)
  · simp only [step, nextExExpectedPcQ, h, if_true, hc.opType]

/-- A jump links and goes on at its target. -/
theorem leaves_of_jump (h : s.exIssue inp = true) (hr : s.Reads inp regs)
    (hop : s.deExDecoded.opType = .jump) (hf : s.deExDecoded.useFrd = false) :
    s.Leaves inp
      ⟨some (s.deExDecoded.rd, s.npc), none, target (aluOut s.deExDecoded regs).sum⟩ := by
  have hex := step_ex1_of_exIssue h
  refine ⟨?_, ?_, ?_, ?_, ?_, ?_⟩
  · rw [hex, hop]
    exact ⟨rfl, rfl⟩
  · rw [hex]
    exact hf
  · intro w hw
    cases hw
    rw [hex]
    refine ⟨rfl, ?_⟩
    simp only [aluDataD, hop]
  · intro hw
    exact absurd hw (by simp)
  · intro t ht
    exact absurd ht (by simp)
  · simp only [step, nextExExpectedPcQ, h, if_true, hop, nextExExpectedPcQ.target,
      nextExExpectedPcQ.out, hr.alu_eq, target]

theorem leaves_of_branch (h : s.exIssue inp = true) (hr : s.Reads inp regs)
    (hop : s.deExDecoded.opType = .branch) (hf : s.deExDecoded.useFrd = false)
    (hrd : s.deExDecoded.rd = 0) :
    s.Leaves inp
      { write := none
        taken := some (aluOut s.deExDecoded regs).compareResult
        nextPc :=
          if (aluOut s.deExDecoded regs).compareResult then
            target (aluOut s.deExDecoded regs).sum
          else s.npc } := by
  have hex := step_ex1_of_exIssue h
  refine ⟨?_, ?_, ?_, ?_, ?_, ?_⟩
  · rw [hex, hop]
    exact ⟨rfl, rfl⟩
  · rw [hex]
    exact hf
  · intro w hw
    exact absurd hw (by simp)
  · intro hw
    rw [hex]
    exact hrd
  · intro t ht
    cases ht
    rw [hr.alu_eq]
  · simp only [step, nextExExpectedPcQ, h, if_true, hop, nextExExpectedPcQ.target,
      nextExExpectedPcQ.out, hr.alu_eq, target]

end Backend

/-- The length of the instruction in bytes. -/
def FetchedInstr.length (x : FetchedInstr) : BitVec 64 :=
  if x.instrWord.extractLsb' 0 2 = 3 then 4 else 2

/-- Without an exception, `tval` holds the word. -/
theorem decoder_tval {e : DecoderEnv} {x : FetchedInstr} (h : (decoder e x).exValid = false) :
    (decoder e x).tval = x.instrWord.setWidth 64 := by
  simp only [decoder, decoder.exc, decodeException] at h ⊢
  split_ifs at h ⊢
  all_goals simp_all

namespace Backend
variable {p : BackendParams} {s : Backend p} {inp : BackendIn} {e : DecoderEnv} {x : FetchedInstr}

/-- An instruction with an exception is not issued. -/
theorem exValid_of_exIssue (h : s.exIssue inp = true) : s.deExDecoded.exValid = false := by
  simp only [exIssue, exIssueProvisional, structHazard, Bool.and_eq_true, Bool.not_eq_true',
    Bool.or_eq_false_iff] at h
  exact h.1.1.2.2

theorem npc_of_exIssue (hp : p.Supported) (h : s.exIssue inp = true)
    (hx : s.deExDecoded = decoder e x) (hpc : p.LegalPc x.pc) : s.npc = x.pc + x.length := by
  have hv := exValid_of_exIssue h
  rw [hx] at hv
  have hword : (x.instrWord.setWidth 64).extractLsb' 0 2 = x.instrWord.extractLsb' 0 2 := by
    apply BitVec.eq_of_getLsbD_eq
    intro j hj
    have hj64 : j < 64 := by omega
    simp only [BitVec.getLsbD_extractLsb', BitVec.getLsbD_setWidth, Nat.zero_add, hj64,
      decide_true, Bool.true_and]
  have hpc' : s.deExDecoded.pc = x.pc := by rw [hx]; rfl
  rw [npc_eq hp (hpc'.symm ▸ hpc), hpc', hx, DecodedInstr.compressed, decoder_tval hv, hword,
    FetchedInstr.length]
  by_cases h3 : x.instrWord.extractLsb' 0 2 = 3 <;> simp [h3]

/-- The instructions of RV64I that compute, jump or branch, compressed or not, do what the
instruction set says. -/
theorem exec_of_issue (hp : p.Supported) {i : Instr} {regs : BitVec 5 → BitVec 64} {o : Outcome}
    (h : s.exIssue inp = true) (hx : s.deExDecoded = decoder e x) (hpc : p.LegalPc x.pc)
    (hi : decompressed e x = ⟨i.encode, false⟩) (hr : s.Reads inp regs)
    (ho : i.exec x.pc x.length regs = some o) : s.Leaves inp o := by
  have hnpc := npc_of_exIssue hp h hx hpc
  have he := executes_of_exec hr.zero hi ho
  rw [← hnpc, ← hx] at he
  cases he with
  | alu hc => exact leaves_of_computes h hr hc
  | jump hop hf => exact leaves_of_jump h hr hop hf
  | branch hop hf hrd => exact leaves_of_branch h hr hop hf hrd

/-- `BLT x0, x1, -4` at `0x80000000`, in the decode register of an otherwise empty backend that
expects it there; `x1` holds seven. -/
def loopBranch : FetchedInstr :=
  ⟨0x80000000, .prefetch, (Instr.branch .blt 0 1 (-2)).encode, false, 0, 0⟩

def loopBackend : Backend ⟨56, 39, .none⟩ where
  deExValid := true
  deExDecoded := decoder (userEnv .none 0) loopBranch
  exStateQ := .normal
  sysStateQ := .idle
  eretPcQ := 0
  exExpectedPcQ := 0x80000000
  ex1 := ⟨false, .alu, 0, 0, 0, false, 0⟩
  ex2 := ⟨false, .alu, 0, 0, 0, false, 0⟩
  ex2SquashedQ := false
  excTvecQ := 0
  registers := fun r => if r = 1 then 7 else 0
  fpRegisters := fun _ => 0

/-- A cycle in which nothing comes in and everything is ready. -/
def idleIn : BackendIn :=
  ⟨none, none, true, true, true, true, none, none, none, none, none, true, false, 0, 0, 0⟩

/-- The branch is taken, backwards. -/
theorem exec_of_issue_loop : (loopBackend.step idleIn).exExpectedPcQ = 0x7FFFFFFC := by
  have hpc : BackendParams.LegalPc ⟨56, 39, .none⟩ loopBranch.pc := ⟨by decide, by decide⟩
  have hr : loopBackend.Reads idleIn fun r => if r = 1 then 7 else 0 :=
    ⟨by decide, by decide, by decide⟩
  exact (exec_of_issue (e := userEnv .none 0) (x := loopBranch) (i := .branch .blt 0 1 (-2))
    ⟨by decide, rfl⟩ (by decide) rfl hpc (by decide) hr rfl).nextPc.trans (by decide)

end Backend

end Muntjac.Pipeline

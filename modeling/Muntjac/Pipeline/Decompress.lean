import Muntjac.Pipeline.DecodeEffect

/-!
# The decompressor preserves the meaning of an instruction

`muntjac_compressed_decoder` accepts the halfwords that encode an instruction and no others,
and replaces each by the word of its expansion.

## Main results

* `compressedDecoder_of_defines` — the word of a compressed instruction.
* `illegal_iff` — what is accepted is an instruction.
* `decompression_preserves` — the effect of the word is that of the compressed instruction.
-/

namespace Muntjac.Pipeline

open Riscv CInstr Sync

/-! ## The constructors of words -/

theorem constructIType_eq (imm : BitVec 12) (rs1 : BitVec 5) (funct3 : BitVec 3) (rd : BitVec 5)
    (o : Opcode) :
    constructIType imm rs1 funct3 rd o = (Instr.iType imm rs1 funct3 rd o.toBits).toWord := by
  simp only [constructIType, Instr.iType, Fields.toWord]
  rw [BitVec.extractLsb'_append_extractLsb'_eq_extractLsb' (by rfl), BitVec.extractLsb'_eq_self]

theorem constructBType_eq (imm : BitVec 12) (rs2 rs1 : BitVec 5) (funct3 : BitVec 3)
    (o : Opcode) :
    constructBType (imm ++ 0#1) rs2 rs1 funct3 o =
      (Instr.bType imm rs1 rs2 funct3 o.toBits).toWord := by
  rw [constructBType, Instr.bType, Fields.toWord, append_eq_iff]
  simp (disch := omega) only [append_eq_iff, extractLsb'_extractLsb', Fields.extract_high,
    Fields.extract_low, Nat.reduceSub, Nat.sub_self, BitVec.extractLsb'_eq_self]
  trivial

theorem constructUType_eq (imm : BitVec 20) (rd : BitVec 5) (o : Opcode) :
    constructUType imm rd o = (Instr.uType imm rd o.toBits).toWord := by
  rw [constructUType, Instr.uType, Fields.toWord, eq_comm, append_eq_iff]
  simp (disch := omega) only [append_eq_iff, extractLsb'_extractLsb', Fields.extract_high,
    Fields.extract_low, Nat.sub_self, BitVec.extractLsb'_eq_self]
  trivial

theorem constructJType_eq (imm : BitVec 20) (rd : BitVec 5) (o : Opcode) :
    constructJType (imm ++ 0#1) rd o = (Instr.jType imm rd o.toBits).toWord := by
  rw [constructJType, Instr.jType, Fields.toWord, eq_comm, append_eq_iff]
  simp (disch := omega) only [append_eq_iff, extractLsb'_extractLsb', Fields.extract_high,
    Fields.extract_low, Nat.reduceSub, Nat.sub_self, BitVec.extractLsb'_eq_self]
  trivial

/-! ## Fields of the halfword -/

section
variable {x : BitVec 32}

theorem extract_halfword (s l : ℕ) (h : s + l ≤ 16) :
    (x.setWidth 16).extractLsb' s l = x.extractLsb' s l := by
  apply BitVec.eq_of_getLsbD_eq
  intro k hk
  have h16 : s + k < 16 := by omega
  simp only [BitVec.getLsbD_extractLsb', BitVec.getLsbD_setWidth, hk, h16, decide_true,
    Bool.true_and]

/-! The immediates as the instruction set numbers their bits. -/

theorem ciwImm_eq : compressedDecoder.ciwImm x =
    (addi4spnOffset.symm (x.extractLsb' 5 8) ++ 0#2).setWidth 12 := by
  rw [compressedDecoder.ciwImm, append_eq_iff]
  simp (disch := omega) only [addi4spnOffset_symm_apply, append_eq_iff, extractLsb'_extractLsb',
    extractLsb'_setWidth, Fields.extract_high, Fields.extract_low, Nat.reduceSub, extractLsb'_of_ge]
  trivial

theorem clLwImm_eq : compressedDecoder.clLwImm x =
    (wordOffset.symm (x.extractLsb' 10 3 ++ x.extractLsb' 5 2) ++ 0#2).setWidth 12 := by
  rw [compressedDecoder.clLwImm, append_eq_iff]
  simp (disch := omega) only [wordOffset_symm_apply, append_eq_iff, extractLsb'_extractLsb',
    extractLsb'_setWidth, Fields.extract_high, Fields.extract_low, Nat.reduceSub, extractLsb'_of_ge]
  trivial

theorem clLdImm_eq : compressedDecoder.clLdImm x =
    (doubleOffset.symm (x.extractLsb' 10 3 ++ x.extractLsb' 5 2) ++ 0#3).setWidth 12 := by
  rw [compressedDecoder.clLdImm, append_eq_iff]
  simp (disch := omega) only [doubleOffset_symm_apply, append_eq_iff, extractLsb'_extractLsb',
    extractLsb'_setWidth, Fields.extract_high, Fields.extract_low, Nat.reduceSub, extractLsb'_of_ge]
  trivial

theorem ciLwspImm_eq : compressedDecoder.ciLwspImm x =
    (wordSpOffset.symm (compressedDecoder.ciImm6 x) ++ 0#2).setWidth 12 := by
  rw [compressedDecoder.ciLwspImm, append_eq_iff]
  simp (disch := omega) only [compressedDecoder.ciImm6, wordSpOffset_symm_apply, append_eq_iff,
    extractLsb'_extractLsb', extractLsb'_setWidth, Fields.extract_high, Fields.extract_low,
    Nat.reduceSub, extractLsb'_of_ge]
  trivial

theorem ciLdspImm_eq : compressedDecoder.ciLdspImm x =
    (doubleSpOffset.symm (compressedDecoder.ciImm6 x) ++ 0#3).setWidth 12 := by
  rw [compressedDecoder.ciLdspImm, append_eq_iff]
  simp (disch := omega) only [compressedDecoder.ciImm6, doubleSpOffset_symm_apply, append_eq_iff,
    extractLsb'_extractLsb', extractLsb'_setWidth, Fields.extract_high, Fields.extract_low,
    Nat.reduceSub, extractLsb'_of_ge]
  trivial

theorem cssSwspImm_eq : compressedDecoder.cssSwspImm x =
    (wordSpOffset.symm (x.extractLsb' 7 6) ++ 0#2).setWidth 12 := by
  rw [compressedDecoder.cssSwspImm, append_eq_iff]
  simp (disch := omega) only [wordSpOffset_symm_apply, append_eq_iff, extractLsb'_extractLsb',
    extractLsb'_setWidth, Fields.extract_high, Fields.extract_low, Nat.reduceSub, extractLsb'_of_ge]
  trivial

theorem cssSdspImm_eq : compressedDecoder.cssSdspImm x =
    (doubleSpOffset.symm (x.extractLsb' 7 6) ++ 0#3).setWidth 12 := by
  rw [compressedDecoder.cssSdspImm, append_eq_iff]
  simp (disch := omega) only [doubleSpOffset_symm_apply, append_eq_iff, extractLsb'_extractLsb',
    extractLsb'_setWidth, Fields.extract_high, Fields.extract_low, Nat.reduceSub, extractLsb'_of_ge]
  trivial

theorem ciAddi16spImm_eq : compressedDecoder.ciAddi16spImm x =
    (addi16spOffset.symm (compressedDecoder.ciImm6 x) ++ 0#4).signExtend 12 := by
  rw [compressedDecoder.ciAddi16spImm]
  congr 1
  rw [append_eq_iff]
  simp (disch := omega) only [compressedDecoder.ciImm6, addi16spOffset_symm_apply, append_eq_iff,
    extractLsb'_extractLsb', Fields.extract_high, Fields.extract_low, Nat.reduceSub]
  trivial

theorem cbImm_eq : compressedDecoder.cbImm x =
    (branchOffset.symm (x.extractLsb' 10 3 ++ x.extractLsb' 2 5)).signExtend 12 ++ 0#1 := by
  rw [compressedDecoder.cbImm, ← append_zero_signExtend 1 _ (by omega)]
  congr 1
  rw [append_eq_iff]
  simp (disch := omega) only [branchOffset_symm_apply, append_eq_iff,
    extractLsb'_extractLsb', Fields.extract_high, Fields.extract_low, Nat.reduceSub]
  trivial

theorem cjImm_eq : compressedDecoder.cjImm x =
    (jumpOffset.symm (x.extractLsb' 2 11)).signExtend 20 ++ 0#1 := by
  rw [compressedDecoder.cjImm, ← append_zero_signExtend 1 _ (by omega)]
  congr 1
  rw [append_eq_iff]
  simp (disch := omega) only [jumpOffset_symm_apply, append_eq_iff,
    extractLsb'_extractLsb', Fields.extract_high, Fields.extract_low, Nat.reduceSub]
  trivial

/-! ## The cases of the decompressor -/

variable {rv64d : Bool}

theorem compressedDecoder_quadrant0 (h : x.extractLsb' 0 2 = 0) :
    compressedDecoder rv64d x = compressedDecoder.quadrant0 rv64d x := by
  rw [compressedDecoder, if_pos h]

theorem compressedDecoder_quadrant1 (h : x.extractLsb' 0 2 = 1) :
    compressedDecoder rv64d x = compressedDecoder.quadrant1 x := by
  rw [compressedDecoder, h, if_neg (by decide), if_pos rfl]

theorem compressedDecoder_quadrant2 (h : x.extractLsb' 0 2 = 2) :
    compressedDecoder rv64d x = compressedDecoder.quadrant2 rv64d x := by
  rw [compressedDecoder, h, if_neg (by decide), if_neg (by decide), if_pos rfl]

theorem compressedDecoder_arithmetic (h : x.extractLsb' 0 2 = 1)
    (h3 : compressedDecoder.cFunct3 x = 4) :
    compressedDecoder rv64d x = compressedDecoder.arithmetic x := by
  rw [compressedDecoder_quadrant1 h, compressedDecoder.quadrant1, h3]
  rfl

theorem compressedDecoder_jumpOrMove (h : x.extractLsb' 0 2 = 2)
    (h3 : compressedDecoder.cFunct3 x = 4) :
    compressedDecoder rv64d x = compressedDecoder.jumpOrMove x := by
  rw [compressedDecoder_quadrant2 h, compressedDecoder.quadrant2, h3]
  rfl

/-! ### The fields of each format -/

section
variable {funct2 : BitVec 2} {funct3 : BitVec 3} {op : BitVec 2}

theorem ci_fields {imm : BitVec 6} {rd : BitVec 5}
    (h : ciType funct3 imm rd op = x.setWidth 16) :
    x.extractLsb' 0 2 = op ∧ compressedDecoder.cFunct3 x = funct3 ∧
      compressedDecoder.cRd x = rd ∧ compressedDecoder.ciImm6 x = imm := by
  have hf := ciType_iff.1 h
  simp (disch := omega) only [extract_halfword] at hf
  exact hf

theorem css_fields {imm : BitVec 6} {rs2 : BitVec 5} (h : cssType funct3 imm rs2 = x.setWidth 16) :
    x.extractLsb' 0 2 = 2 ∧ compressedDecoder.cFunct3 x = funct3 ∧
      compressedDecoder.cRs2 x = rs2 ∧ x.extractLsb' 7 6 = imm := by
  have hf := cssType_iff.1 h
  simp (disch := omega) only [extract_halfword] at hf
  exact hf

theorem ciw_fields {imm : BitVec 8} {rd : BitVec 3} (h : ciwType imm rd = x.setWidth 16) :
    x.extractLsb' 0 2 = 0 ∧ compressedDecoder.cFunct3 x = 0 ∧
      compressedDecoder.cRds x = reg rd ∧ x.extractLsb' 5 8 = imm := by
  have hf := ciwType_iff.1 h
  simp (disch := omega) only [extract_halfword] at hf
  exact ⟨hf.1, hf.2.1, congrArg reg hf.2.2.1, hf.2.2.2⟩

theorem cl_fields {imm : BitVec 5} {rs1 rd : BitVec 3}
    (h : clType funct3 imm rs1 rd = x.setWidth 16) :
    x.extractLsb' 0 2 = 0 ∧ compressedDecoder.cFunct3 x = funct3 ∧
      compressedDecoder.cRs1s x = reg rs1 ∧ compressedDecoder.cRds x = reg rd ∧
      x.extractLsb' 10 3 ++ x.extractLsb' 5 2 = imm := by
  have hf := clType_iff.1 h
  simp (disch := omega) only [extract_halfword] at hf
  exact ⟨hf.1, hf.2.1, congrArg reg hf.2.2.1, congrArg reg hf.2.2.2.1, hf.2.2.2.2⟩

theorem cb_fields {imm : BitVec 6} {rd : BitVec 3} (h : cbType funct2 imm rd = x.setWidth 16) :
    x.extractLsb' 0 2 = 1 ∧ compressedDecoder.cFunct3 x = 4 ∧ x.extractLsb' 10 2 = funct2 ∧
      compressedDecoder.cRs1s x = reg rd ∧ compressedDecoder.ciImm6 x = imm := by
  have hf := cbType_iff.1 h
  simp (disch := omega) only [extract_halfword] at hf
  exact ⟨hf.1, hf.2.1, hf.2.2.1, congrArg reg hf.2.2.2.1, hf.2.2.2.2⟩

theorem ca_fields {rd rs2 : BitVec 3} (h : caType funct3 rd rs2 = x.setWidth 16) :
    x.extractLsb' 0 2 = 1 ∧ compressedDecoder.cFunct3 x = 4 ∧ x.extractLsb' 10 2 = 3 ∧
      compressedDecoder.cRs1s x = reg rd ∧ compressedDecoder.cRds x = reg rs2 ∧
      x.extractLsb' 12 1 ++ x.extractLsb' 5 2 = funct3 := by
  have hf := caType_iff.1 h
  simp (disch := omega) only [extract_halfword] at hf
  obtain ⟨h0, h3, h2, hd, hs, ho⟩ := hf
  exact ⟨h0, h3, h2, congrArg reg hd, congrArg reg hs, ho⟩

theorem cbranch_fields {imm : BitVec 8} {rs1 : BitVec 3}
    (h : cbranchType funct3 imm rs1 = x.setWidth 16) :
    x.extractLsb' 0 2 = 1 ∧ compressedDecoder.cFunct3 x = funct3 ∧
      compressedDecoder.cRs1s x = reg rs1 ∧ x.extractLsb' 10 3 ++ x.extractLsb' 2 5 = imm := by
  have hf := cbranchType_iff.1 h
  simp (disch := omega) only [extract_halfword] at hf
  exact ⟨hf.1, hf.2.1, congrArg reg hf.2.2.1, hf.2.2.2⟩

theorem cj_fields {imm : BitVec 11} (h : cjType imm = x.setWidth 16) :
    x.extractLsb' 0 2 = 1 ∧ compressedDecoder.cFunct3 x = 5 ∧ x.extractLsb' 2 11 = imm := by
  have hf := cjType_iff.1 h
  simp (disch := omega) only [extract_halfword] at hf
  exact hf

theorem cr_fields {bit12 : BitVec 1} {rd rs2 : BitVec 5} (h : crType bit12 rd rs2 = x.setWidth 16) :
    x.extractLsb' 0 2 = 2 ∧ compressedDecoder.cFunct3 x = 4 ∧ x.extractLsb' 12 1 = bit12 ∧
      compressedDecoder.cRd x = rd ∧ compressedDecoder.cRs2 x = rs2 := by
  have hf := crType_iff.1 h
  simp (disch := omega) only [extract_halfword] at hf
  exact hf

end

/-! ### Reserved offsets -/

theorem signExtend_eq_zero {k m : ℕ} (y : BitVec k) (h : k ≤ m) : y.signExtend m = 0 ↔ y = 0 := by
  have h0 : (0 : BitVec k).signExtend m = 0 := by
    apply BitVec.eq_of_toInt_eq
    rw [BitVec.toInt_signExtend_of_le h]
    simp
  constructor
  · intro hy
    apply BitVec.eq_of_toInt_eq
    rw [← BitVec.toInt_signExtend_of_le h, hy, ← h0, BitVec.toInt_signExtend_of_le h]
  · rintro rfl
    exact h0

theorem addi4spnImm_eq_zero (imm : BitVec 8) :
    ((imm ++ 0#2 : BitVec 10).setWidth 12 = 0) ↔ imm = 0 := by
  constructor
  · intro h
    have ht := congrArg (fun y : BitVec 12 => y.extractLsb' 2 8) h
    simp (disch := omega) only [extractLsb'_setWidth, Fields.extract_high, Nat.sub_self,
      BitVec.extractLsb'_eq_self] at ht
    exact ht
  · rintro rfl
    rfl

theorem addi16spOffset_eq_zero (imm : BitVec 6) : addi16spOffset imm = 0 ↔ imm = 0 :=
  addi16spOffset.injective.eq_iff' rfl

theorem extract_ciImm : (compressedDecoder.ciImm x).extractLsb' 0 6 =
    compressedDecoder.ciImm6 x := by
  rw [compressedDecoder.ciImm, ← BitVec.setWidth_eq_extractLsb' (by omega)]
  apply BitVec.eq_of_getLsbD_eq
  intro k hk
  have h12 : k < 12 := by omega
  simp only [BitVec.getLsbD_setWidth, BitVec.getLsbD_signExtend, hk, h12, decide_true,
    Bool.true_and, if_true]

theorem getLsbD_twelve : x.getLsbD 12 = (x.extractLsb' 12 1).getLsbD 0 := by
  simp only [BitVec.getLsbD_extractLsb', Nat.lt_one_iff, decide_true, Bool.true_and]

/-! ### Every instruction is replaced by its expansion -/

/-- The case statements of the decoder. -/
inductive DecoderCase
  | quadrant0
  | quadrant1
  | arithmetic
  | quadrant2
  | jumpOrMove
  deriving DecidableEq, Repr

/-- The case statement that an instruction belongs to. -/
def decoderCase : CInstr → DecoderCase
  | .addi4spn .. | .lw .. | .sw .. | .ld .. | .sd .. | .fld .. | .fsd .. => .quadrant0
  | .addi .. | .li .. | .addiw .. | .addi16sp .. | .lui .. | .j .. | .beqz ..
  | .bnez .. => .quadrant1
  | .srli .. | .srai .. | .andi .. | .arith .. => .arithmetic
  | .slli .. | .fldsp .. | .lwsp .. | .ldsp .. | .fsdsp .. | .swsp .. | .sdsp .. => .quadrant2
  | .jr .. | .mv .. | .ebreak .. | .jalr .. | .add .. => .jumpOrMove

/-- The decoder replaces `x` by the expansion of `i`. -/
def Expands (rv64d : Bool) (x : BitVec 32) (i : CInstr) : Prop :=
  compressedDecoder rv64d x = ⟨i.expand.encode, false⟩

/-- The loads and stores of registers `x8` to `x15`. -/
theorem expands_quadrant0 {i : CInstr} (h : i.Defines rv64d (x.setWidth 16))
    (hi : decoderCase i = .quadrant0) : Expands rv64d x i := by
  have he := h.encode
  have hl := h.legal
  rw [Expands]
  cases i with
  | addi4spn rd imm =>
      obtain ⟨h0, h3, hd, hi⟩ := ciw_fields he
      have hz : ((imm ++ 0#2).setWidth 12 == 0) = false :=
        beq_eq_false_iff_ne.2 (mt (addi4spnImm_eq_zero imm).1 hl)
      rw [compressedDecoder_quadrant0 h0, compressedDecoder.quadrant0, h3]
      simp only [hd, ciwImm_eq, hi, Equiv.symm_apply_apply, constructIType_eq, hz]
      rfl
  | lw _ _ imm | sw _ _ imm =>
      obtain ⟨h0, h3, h1, h2, hi⟩ := cl_fields he
      rw [compressedDecoder_quadrant0 h0, compressedDecoder.quadrant0, h3]
      simp only [h1, h2, clLwImm_eq, hi, Equiv.symm_apply_apply, constructIType_eq]
      rfl
  | ld _ _ imm | sd _ _ imm =>
      obtain ⟨h0, h3, h1, h2, hi⟩ := cl_fields he
      rw [compressedDecoder_quadrant0 h0, compressedDecoder.quadrant0, h3]
      simp only [h1, h2, clLdImm_eq, hi, Equiv.symm_apply_apply, constructIType_eq]
      rfl
  | fld _ _ imm | fsd _ _ imm =>
      obtain ⟨h0, h3, h1, h2, hi⟩ := cl_fields he
      rw [compressedDecoder_quadrant0 h0, compressedDecoder.quadrant0, h3]
      simp only [h.float rfl, if_true, h1, h2, clLdImm_eq, hi, Equiv.symm_apply_apply,
        constructIType_eq]
      rfl
  | _ => cases hi

/-- Immediates and branches. -/
theorem expands_quadrant1 {i : CInstr} (h : i.Defines rv64d (x.setWidth 16))
    (hi : decoderCase i = .quadrant1) : Expands rv64d x i := by
  have he := h.encode
  have hl := h.legal
  rw [Expands]
  cases i with
  | addi rd imm | li rd imm =>
      obtain ⟨h0, h3, hd, hi⟩ := ci_fields he
      rw [compressedDecoder_quadrant1 h0, compressedDecoder.quadrant1, h3]
      simp only [hd, compressedDecoder.ciImm, hi, constructIType_eq]
      rfl
  | addiw rd imm =>
      obtain ⟨h0, h3, hd, hi⟩ := ci_fields he
      rw [compressedDecoder_quadrant1 h0, compressedDecoder.quadrant1, h3]
      simp only [hd, compressedDecoder.ciImm, hi, constructIType_eq, beq_eq_false_iff_ne.2 hl]
      rfl
  | addi16sp imm =>
      obtain ⟨h0, h3, hd, hi⟩ := ci_fields he
      have hz : ((addi16spOffset imm).signExtend 12 == 0) = false :=
        beq_eq_false_iff_ne.2 fun h =>
          hl ((addi16spOffset_eq_zero imm).1 ((signExtend_eq_zero _ (by omega)).1 h))
      rw [compressedDecoder_quadrant1 h0, compressedDecoder.quadrant1, h3]
      simp only [hd, if_true, ciAddi16spImm_eq, compressedDecoder.ciImm, hi, Equiv.symm_apply_apply,
        constructIType_eq, hz]
      rfl
  | lui rd imm =>
      obtain ⟨h0, h3, hd, hi⟩ := ci_fields he
      have hz : (imm.signExtend 12 == 0) = false :=
        beq_eq_false_iff_ne.2 (mt (signExtend_eq_zero imm (by omega)).1 hl.2)
      rw [compressedDecoder_quadrant1 h0, compressedDecoder.quadrant1, h3]
      simp only [hd, if_neg hl.1, compressedDecoder.ciImm, hi, constructUType_eq, hz,
        Sync.signExtend_signExtend imm (show 6 ≤ 12 by omega) (show 12 ≤ 20 by omega)]
      rfl
  | j offset =>
      obtain ⟨h0, h3, hi⟩ := cj_fields he
      rw [compressedDecoder_quadrant1 h0, compressedDecoder.quadrant1, h3]
      simp only [cjImm_eq, hi, Equiv.symm_apply_apply, constructJType_eq]
      rfl
  | beqz rs1 offset | bnez rs1 offset =>
      obtain ⟨h0, h3, h1, hi⟩ := cbranch_fields he
      rw [compressedDecoder_quadrant1 h0, compressedDecoder.quadrant1, h3]
      simp only [h1, cbImm_eq, hi, Equiv.symm_apply_apply, constructBType_eq]
      rfl
  | _ => cases hi

/-- Arithmetic on the registers `x8` to `x15`. -/
theorem expands_arithmetic {i : CInstr} (h : i.Defines rv64d (x.setWidth 16))
    (hi : decoderCase i = .arithmetic) : Expands rv64d x i := by
  have he := h.encode
  rw [Expands]
  cases i with
  | srli rd shamt | srai rd shamt =>
      obtain ⟨h0, h3, h2, hd, hi⟩ := cb_fields he
      rw [compressedDecoder_arithmetic h0 h3, compressedDecoder.arithmetic, h2]
      simp only [hd, extract_ciImm, hi, constructIType_eq]
      rfl
  | andi rd imm =>
      obtain ⟨h0, h3, h2, hd, hi⟩ := cb_fields he
      rw [compressedDecoder_arithmetic h0 h3, compressedDecoder.arithmetic, h2]
      simp only [hd, compressedDecoder.ciImm, hi, constructIType_eq]
      rfl
  | arith o rd rs2 =>
      obtain ⟨h0, h3, h2, hd, hs, ho⟩ := ca_fields he
      rw [compressedDecoder_arithmetic h0 h3, compressedDecoder.arithmetic, h2, ho]
      simp only [hd, hs]
      cases o <;> rfl
  | _ => cases hi

/-- Shifts and accesses relative to the stack pointer. -/
theorem expands_quadrant2 {i : CInstr} (h : i.Defines rv64d (x.setWidth 16))
    (hi : decoderCase i = .quadrant2) : Expands rv64d x i := by
  have he := h.encode
  have hl := h.legal
  rw [Expands]
  cases i with
  | slli rd shamt =>
      obtain ⟨h0, h3, hd, hi⟩ := ci_fields he
      rw [compressedDecoder_quadrant2 h0, compressedDecoder.quadrant2, h3]
      simp only [hd, extract_ciImm, hi, constructIType_eq]
      rfl
  | fldsp rd imm =>
      obtain ⟨h0, h3, hd, hi⟩ := ci_fields he
      rw [compressedDecoder_quadrant2 h0, compressedDecoder.quadrant2, h3]
      simp only [h.float rfl, if_true, hd, ciLdspImm_eq, hi, Equiv.symm_apply_apply,
        constructIType_eq]
      rfl
  | lwsp rd imm =>
      obtain ⟨h0, h3, hd, hi⟩ := ci_fields he
      rw [compressedDecoder_quadrant2 h0, compressedDecoder.quadrant2, h3]
      simp only [hd, ciLwspImm_eq, hi, Equiv.symm_apply_apply, constructIType_eq,
        beq_eq_false_iff_ne.2 hl]
      rfl
  | ldsp rd imm =>
      obtain ⟨h0, h3, hd, hi⟩ := ci_fields he
      rw [compressedDecoder_quadrant2 h0, compressedDecoder.quadrant2, h3]
      simp only [hd, ciLdspImm_eq, hi, Equiv.symm_apply_apply, constructIType_eq,
        beq_eq_false_iff_ne.2 hl]
      rfl
  | fsdsp rs2 imm =>
      obtain ⟨h0, h3, hs, hi⟩ := css_fields he
      rw [compressedDecoder_quadrant2 h0, compressedDecoder.quadrant2, h3]
      simp only [h.float rfl, if_true, hs, cssSdspImm_eq, hi, Equiv.symm_apply_apply]
      rfl
  | swsp rs2 imm =>
      obtain ⟨h0, h3, hs, hi⟩ := css_fields he
      rw [compressedDecoder_quadrant2 h0, compressedDecoder.quadrant2, h3]
      simp only [hs, cssSwspImm_eq, hi, Equiv.symm_apply_apply]
      rfl
  | sdsp rs2 imm =>
      obtain ⟨h0, h3, hs, hi⟩ := css_fields he
      rw [compressedDecoder_quadrant2 h0, compressedDecoder.quadrant2, h3]
      simp only [hs, cssSdspImm_eq, hi, Equiv.symm_apply_apply]
      rfl
  | _ => cases hi

/-- Jumps and moves of registers. -/
theorem expands_jumpOrMove {i : CInstr} (h : i.Defines rv64d (x.setWidth 16))
    (hi : decoderCase i = .jumpOrMove) : Expands rv64d x i := by
  have he := h.encode
  have hl := h.legal
  rw [Expands]
  cases i with
  | jr rs1 =>
      obtain ⟨h0, h3, hb, hd, hs⟩ := cr_fields he
      rw [compressedDecoder_jumpOrMove h0 h3, compressedDecoder.jumpOrMove, getLsbD_twelve, hb, hd,
        hs, if_pos rfl, if_pos rfl, constructIType_eq, beq_eq_false_iff_ne.2 hl]
      rfl
  | mv rd rs2 =>
      obtain ⟨h0, h3, hb, hd, hs⟩ := cr_fields he
      rw [compressedDecoder_jumpOrMove h0 h3, compressedDecoder.jumpOrMove, getLsbD_twelve, hb, hd,
        hs, if_pos (by decide), if_neg hl]
      rfl
  | ebreak =>
      obtain ⟨h0, h3, hb, hd, hs⟩ := cr_fields he
      rw [compressedDecoder_jumpOrMove h0 h3, compressedDecoder.jumpOrMove, getLsbD_twelve, hb, hd,
        hs, if_neg (by decide), if_pos rfl, if_pos rfl]
      rfl
  | jalr rs1 =>
      obtain ⟨h0, h3, hb, hd, hs⟩ := cr_fields he
      rw [compressedDecoder_jumpOrMove h0 h3, compressedDecoder.jumpOrMove, getLsbD_twelve, hb, hd,
        hs, if_neg (by decide), if_pos rfl, if_neg hl, constructIType_eq]
      rfl
  | add rd rs2 =>
      obtain ⟨h0, h3, hb, hd, hs⟩ := cr_fields he
      rw [compressedDecoder_jumpOrMove h0 h3, compressedDecoder.jumpOrMove, getLsbD_twelve, hb, hd,
        hs, if_neg (by decide), if_neg hl]
      rfl
  | _ => cases hi

theorem compressedDecoder_of_defines {i : CInstr} (h : i.Defines rv64d (x.setWidth 16)) :
    compressedDecoder rv64d x = ⟨i.expand.encode, false⟩ := by
  cases hi : decoderCase i with
  | quadrant0 => exact expands_quadrant0 h hi
  | quadrant1 => exact expands_quadrant1 h hi
  | arithmetic => exact expands_arithmetic h hi
  | quadrant2 => exact expands_quadrant2 h hi
  | jumpOrMove => exact expands_jumpOrMove h hi

/-! ### What is accepted is an instruction -/

section
variable {funct2 : BitVec 2} {funct3 : BitVec 3} {op : BitVec 2}

theorem exists_ci (h0 : x.extractLsb' 0 2 = op) (h3 : compressedDecoder.cFunct3 x = funct3)
    (g : BitVec 6 ≃ BitVec 6) : ∃ imm rd, ciType funct3 (g imm) rd op = x.setWidth 16 := by
  refine ⟨g.symm (compressedDecoder.ciImm6 x), compressedDecoder.cRd x, ciType_iff.2 ?_⟩
  simp (disch := omega) only [extract_halfword, Equiv.apply_symm_apply]
  trivial

theorem exists_css (h0 : x.extractLsb' 0 2 = 2) (h3 : compressedDecoder.cFunct3 x = funct3)
    (g : BitVec 6 ≃ BitVec 6) : ∃ imm rs2, cssType funct3 (g imm) rs2 = x.setWidth 16 := by
  refine ⟨g.symm (x.extractLsb' 7 6), compressedDecoder.cRs2 x, cssType_iff.2 ?_⟩
  simp (disch := omega) only [extract_halfword, Equiv.apply_symm_apply]
  trivial

theorem exists_ciw (h0 : x.extractLsb' 0 2 = 0) (h3 : compressedDecoder.cFunct3 x = 0)
    (g : BitVec 8 ≃ BitVec 8) : ∃ imm rd, ciwType (g imm) rd = x.setWidth 16 := by
  refine ⟨g.symm (x.extractLsb' 5 8), x.extractLsb' 2 3, ciwType_iff.2 ?_⟩
  simp (disch := omega) only [extract_halfword, Equiv.apply_symm_apply]
  trivial

theorem exists_cl (h0 : x.extractLsb' 0 2 = 0) (h3 : compressedDecoder.cFunct3 x = funct3)
    (g : BitVec 5 ≃ BitVec 5) : ∃ imm rs1 rd, clType funct3 (g imm) rs1 rd = x.setWidth 16 := by
  refine ⟨g.symm (x.extractLsb' 10 3 ++ x.extractLsb' 5 2), x.extractLsb' 7 3, x.extractLsb' 2 3,
    clType_iff.2 ?_⟩
  simp (disch := omega) only [extract_halfword, Equiv.apply_symm_apply]
  trivial

theorem exists_cb (h0 : x.extractLsb' 0 2 = 1) (h3 : compressedDecoder.cFunct3 x = 4)
    (h2 : x.extractLsb' 10 2 = funct2) : ∃ imm rd, cbType funct2 imm rd = x.setWidth 16 := by
  refine ⟨compressedDecoder.ciImm6 x, x.extractLsb' 7 3, cbType_iff.2 ?_⟩
  simp (disch := omega) only [extract_halfword]
  trivial

theorem exists_ca (h0 : x.extractLsb' 0 2 = 1) (h3 : compressedDecoder.cFunct3 x = 4)
    (h2 : x.extractLsb' 10 2 = 3) (ho : x.extractLsb' 12 1 ++ x.extractLsb' 5 2 = funct3) :
    ∃ rd rs2, caType funct3 rd rs2 = x.setWidth 16 := by
  refine ⟨x.extractLsb' 7 3, x.extractLsb' 2 3, caType_iff.2 ?_⟩
  simp (disch := omega) only [extract_halfword]
  trivial

theorem exists_cbranch (h0 : x.extractLsb' 0 2 = 1) (h3 : compressedDecoder.cFunct3 x = funct3)
    (g : BitVec 8 ≃ BitVec 8) : ∃ imm rs1, cbranchType funct3 (g imm) rs1 = x.setWidth 16 := by
  refine ⟨g.symm (x.extractLsb' 10 3 ++ x.extractLsb' 2 5), x.extractLsb' 7 3,
    cbranchType_iff.2 ?_⟩
  simp (disch := omega) only [extract_halfword, Equiv.apply_symm_apply]
  trivial

theorem exists_cj (h0 : x.extractLsb' 0 2 = 1) (h3 : compressedDecoder.cFunct3 x = 5)
    (g : BitVec 11 ≃ BitVec 11) : ∃ imm, cjType (g imm) = x.setWidth 16 := by
  refine ⟨g.symm (x.extractLsb' 2 11), cjType_iff.2 ?_⟩
  simp (disch := omega) only [extract_halfword, Equiv.apply_symm_apply]
  trivial

theorem crType_fields (h0 : x.extractLsb' 0 2 = 2) (h3 : compressedDecoder.cFunct3 x = 4) :
    crType (x.extractLsb' 12 1) (compressedDecoder.cRd x) (compressedDecoder.cRs2 x) =
      x.setWidth 16 := by
  rw [crType_iff]
  simp (disch := omega) only [extract_halfword]
  trivial

end

theorem eq_three : ∀ b : BitVec 2, b ≠ 0 → b ≠ 1 → b ≠ 2 → b = 3 := by decide

theorem eq_seven (b : BitVec 3) (h0 : b ≠ 0) (h1 : b ≠ 1) (h2 : b ≠ 2) (h3 : b ≠ 3) (h4 : b ≠ 4)
    (h5 : b ≠ 5) (h6 : b ≠ 6) : b = 7 := by
  bv_omega

/-- An instruction without a constraint on its operands. -/
theorem defines_of_encode {i : CInstr} (he : i.encode = x.setWidth 16) (hl : i.Legal)
    (hf : i.isFloat = false) : ∃ i : CInstr, i.Defines rv64d (x.setWidth 16) :=
  ⟨i, he, hl, fun h => absurd h (by rw [hf]; decide)⟩

theorem exists_quadrant0 (h0 : x.extractLsb' 0 2 = 0)
    (h : (compressedDecoder rv64d x).illegal = false) :
    ∃ i : CInstr, i.Defines rv64d (x.setWidth 16) := by
  rw [compressedDecoder_quadrant0 h0, compressedDecoder.quadrant0] at h
  split at h
  · next h3 =>
    obtain ⟨imm, rd, he⟩ := exists_ciw h0 h3 addi4spnOffset
    have hi := (ciw_fields he).2.2.2
    rw [ciwImm_eq, hi, Equiv.symm_apply_apply] at h
    exact defines_of_encode (i := .addi4spn rd imm) he
      (mt (addi4spnImm_eq_zero imm).2 (beq_eq_false_iff_ne.1 h)) rfl
  · next h3 =>
    obtain ⟨imm, rs1, rd, he⟩ := exists_cl h0 h3 doubleOffset
    cases rv64d with
    | false => cases h
    | true => exact ⟨.fld rd rs1 imm, he, trivial, fun _ => rfl⟩
  · next h3 =>
    obtain ⟨imm, rs1, rd, he⟩ := exists_cl h0 h3 wordOffset
    exact defines_of_encode (i := .lw rd rs1 imm) he trivial rfl
  · next h3 =>
    obtain ⟨imm, rs1, rd, he⟩ := exists_cl h0 h3 doubleOffset
    exact defines_of_encode (i := .ld rd rs1 imm) he trivial rfl
  · next h3 =>
    obtain ⟨imm, rs1, rs2, he⟩ := exists_cl h0 h3 doubleOffset
    cases rv64d with
    | false => cases h
    | true => exact ⟨.fsd rs1 rs2 imm, he, trivial, fun _ => rfl⟩
  · next h3 =>
    obtain ⟨imm, rs1, rs2, he⟩ := exists_cl h0 h3 wordOffset
    exact defines_of_encode (i := .sw rs1 rs2 imm) he trivial rfl
  · next h3 =>
    obtain ⟨imm, rs1, rs2, he⟩ := exists_cl h0 h3 doubleOffset
    exact defines_of_encode (i := .sd rs1 rs2 imm) he trivial rfl
  · cases h

theorem exists_arithmetic (h0 : x.extractLsb' 0 2 = 1) (h3 : compressedDecoder.cFunct3 x = 4)
    (h : (compressedDecoder.arithmetic x).illegal = false) :
    ∃ i : CInstr, i.Defines rv64d (x.setWidth 16) := by
  rw [compressedDecoder.arithmetic] at h
  split at h
  · next h2 =>
    obtain ⟨imm, rd, he⟩ := exists_cb h0 h3 h2
    exact defines_of_encode (i := .srli rd imm) he trivial rfl
  · next h2 =>
    obtain ⟨imm, rd, he⟩ := exists_cb h0 h3 h2
    exact defines_of_encode (i := .srai rd imm) he trivial rfl
  · next h2 =>
    obtain ⟨imm, rd, he⟩ := exists_cb h0 h3 h2
    exact defines_of_encode (i := .andi rd imm) he trivial rfl
  · next hne0 hne1 hne2 =>
    have h2 : x.extractLsb' 10 2 = 3 := eq_three _ hne0 hne1 hne2
    -- an operation is known by its three bits
    have hop : ∀ o : CArithOp, x.extractLsb' 12 1 ++ x.extractLsb' 5 2 = o.bits →
        ∃ i : CInstr, i.Defines rv64d (x.setWidth 16) := by
      intro o ho
      obtain ⟨rd, rs2, he⟩ := exists_ca h0 h3 h2 ho
      exact defines_of_encode (i := .arith o rd rs2) he trivial rfl
    split at h
    · next ho => exact hop .sub ho
    · next ho => exact hop .xor ho
    · next ho => exact hop .or ho
    · next ho => exact hop .and ho
    · next ho => exact hop .subw ho
    · next ho => exact hop .addw ho
    · cases h

theorem exists_quadrant1 (h0 : x.extractLsb' 0 2 = 1)
    (h : (compressedDecoder rv64d x).illegal = false) :
    ∃ i : CInstr, i.Defines rv64d (x.setWidth 16) := by
  rw [compressedDecoder_quadrant1 h0, compressedDecoder.quadrant1] at h
  split at h
  · next h3 =>
    obtain ⟨imm, rd, he⟩ := exists_ci h0 h3 (Equiv.refl _)
    exact defines_of_encode (i := .addi rd imm) he trivial rfl
  · next h3 =>
    obtain ⟨imm, rd, he⟩ := exists_ci h0 h3 (Equiv.refl _)
    rw [(ci_fields he).2.2.1] at h
    exact defines_of_encode (i := .addiw rd imm) he (beq_eq_false_iff_ne.1 h) rfl
  · next h3 =>
    obtain ⟨imm, rd, he⟩ := exists_ci h0 h3 (Equiv.refl _)
    exact defines_of_encode (i := .li rd imm) he trivial rfl
  · next h3 =>
    split at h
    · next hd =>
      obtain ⟨imm, rd, he⟩ := exists_ci h0 h3 addi16spOffset
      obtain ⟨-, -, hrd, hi⟩ := ci_fields he
      rw [compressedDecoder.ciImm, hi] at h
      obtain rfl : rd = 2 := hrd.symm.trans hd
      exact defines_of_encode (i := .addi16sp imm) he
        (fun hz => beq_eq_false_iff_ne.1 h (by rw [hz]; rfl)) rfl
    · next hd =>
      obtain ⟨imm, rd, he⟩ := exists_ci h0 h3 (Equiv.refl _)
      obtain ⟨-, -, hrd, hi⟩ := ci_fields he
      rw [compressedDecoder.ciImm, hi] at h
      exact defines_of_encode (i := .lui rd imm) he
        ⟨hrd ▸ hd, fun hz => beq_eq_false_iff_ne.1 h (by rw [hz]; rfl)⟩ rfl
  · next h3 => exact exists_arithmetic h0 h3 h
  · next h3 =>
    obtain ⟨offset, he⟩ := exists_cj h0 h3 jumpOffset
    exact defines_of_encode (i := .j offset) he trivial rfl
  · next h3 =>
    obtain ⟨offset, rs1, he⟩ := exists_cbranch h0 h3 branchOffset
    exact defines_of_encode (i := .beqz rs1 offset) he trivial rfl
  · next hne0 hne1 hne2 hne3 hne4 hne5 hne6 =>
    have h3 := eq_seven _ hne0 hne1 hne2 hne3 hne4 hne5 hne6
    obtain ⟨offset, rs1, he⟩ := exists_cbranch h0 h3 branchOffset
    exact defines_of_encode (i := .bnez rs1 offset) he trivial rfl

theorem exists_jumpOrMove (h0 : x.extractLsb' 0 2 = 2) (h3 : compressedDecoder.cFunct3 x = 4)
    (h : (compressedDecoder.jumpOrMove x).illegal = false) :
    ∃ i : CInstr, i.Defines rv64d (x.setWidth 16) := by
  have he := crType_fields h0 h3
  have hb : ∀ b : BitVec 1, b.getLsbD 0 = false → b = 0 := by decide
  have hb' : ∀ b : BitVec 1, ¬b.getLsbD 0 = false → b = 1 := by decide
  rw [compressedDecoder.jumpOrMove, getLsbD_twelve] at h
  split at h
  · next h12 =>
    rw [hb _ h12] at he
    split at h
    · next hs =>
      rw [hs] at he
      exact defines_of_encode (i := .jr _) he (beq_eq_false_iff_ne.1 h) rfl
    · next hs => exact defines_of_encode (i := .mv _ _) he hs rfl
  · next h12 =>
    rw [hb' _ h12] at he
    split at h
    · next hs =>
      rw [hs] at he
      split at h
      · next hd =>
        rw [hd] at he
        exact defines_of_encode (i := .ebreak) he trivial rfl
      · next hd => exact defines_of_encode (i := .jalr _) he hd rfl
    · next hs => exact defines_of_encode (i := .add _ _) he hs rfl

theorem exists_quadrant2 (h0 : x.extractLsb' 0 2 = 2)
    (h : (compressedDecoder rv64d x).illegal = false) :
    ∃ i : CInstr, i.Defines rv64d (x.setWidth 16) := by
  rw [compressedDecoder_quadrant2 h0, compressedDecoder.quadrant2] at h
  split at h
  · next h3 =>
    obtain ⟨imm, rd, he⟩ := exists_ci h0 h3 (Equiv.refl _)
    exact defines_of_encode (i := .slli rd imm) he trivial rfl
  · next h3 =>
    obtain ⟨imm, rd, he⟩ := exists_ci h0 h3 doubleSpOffset
    cases rv64d with
    | false => cases h
    | true => exact ⟨.fldsp rd imm, he, trivial, fun _ => rfl⟩
  · next h3 =>
    obtain ⟨imm, rd, he⟩ := exists_ci h0 h3 wordSpOffset
    rw [(ci_fields he).2.2.1] at h
    exact defines_of_encode (i := .lwsp rd imm) he (beq_eq_false_iff_ne.1 h) rfl
  · next h3 =>
    obtain ⟨imm, rd, he⟩ := exists_ci h0 h3 doubleSpOffset
    rw [(ci_fields he).2.2.1] at h
    exact defines_of_encode (i := .ldsp rd imm) he (beq_eq_false_iff_ne.1 h) rfl
  · next h3 => exact exists_jumpOrMove h0 h3 h
  · next h3 =>
    obtain ⟨imm, rs2, he⟩ := exists_css h0 h3 doubleSpOffset
    cases rv64d with
    | false => cases h
    | true => exact ⟨.fsdsp rs2 imm, he, trivial, fun _ => rfl⟩
  · next h3 =>
    obtain ⟨imm, rs2, he⟩ := exists_css h0 h3 wordSpOffset
    exact defines_of_encode (i := .swsp rs2 imm) he trivial rfl
  · next hne0 hne1 hne2 hne3 hne4 hne5 hne6 =>
    have h3 := eq_seven _ hne0 hne1 hne2 hne3 hne4 hne5 hne6
    obtain ⟨imm, rs2, he⟩ := exists_css h0 h3 doubleSpOffset
    exact defines_of_encode (i := .sdsp rs2 imm) he trivial rfl

/-- A halfword is rejected when no instruction is encoded by it. -/
theorem illegal_iff (h16 : x.extractLsb' 0 2 ≠ 3) :
    (compressedDecoder rv64d x).illegal = true ↔
      ¬∃ i : CInstr, i.Defines rv64d (x.setWidth 16) := by
  constructor
  · rintro h ⟨i, hi⟩
    rw [compressedDecoder_of_defines hi] at h
    cases h
  · intro h
    by_contra hl
    rw [Bool.not_eq_true] at hl
    by_cases h0 : x.extractLsb' 0 2 = 0
    · exact h (exists_quadrant0 h0 hl)
    · by_cases h1 : x.extractLsb' 0 2 = 1
      · exact h (exists_quadrant1 h1 hl)
      · by_cases h2 : x.extractLsb' 0 2 = 2
        · exact h (exists_quadrant2 h2 hl)
        · exact h16 (eq_three _ h0 h1 h2)

end

/-- A halfword is rejected exactly when the instruction set reserves it, and otherwise the word
that replaces it has, for all registers, the effect of the compressed instruction. -/
theorem decompression_preserves (e : DecoderEnv) (x : FetchedInstr) (hx : x.exValid = false)
    (h16 : x.instrWord.extractLsb' 0 2 ≠ 3) :
    ((decompressed e x).illegal = true ↔
        ¬∃ i : CInstr, i.Defines (e.rv64f != .none) (x.instrWord.setWidth 16)) ∧
      ∀ i : CInstr, i.Defines (e.rv64f != .none) (x.instrWord.setWidth 16) →
        ∀ r : RegState, (decoder e x).effect r = some (i.effect e.fpOn x.pc r) := by
  refine ⟨illegal_iff h16, ?_⟩
  intro i hi r
  have hlen : x.length = 2 := by
    rw [FetchedInstr.length, if_neg h16]
  have hexp := effect_expand i e.fpOn x.pc r
  rw [← hlen] at hexp
  exact effect_decoder hx (compressedDecoder_of_defines hi) hexp

/-- `C.JALR x5` at `0x1002` links behind itself and jumps to the even address. -/
theorem decompression_preserves_jalr :
    (decoder (userEnv .none 0) ⟨0x1002, .prefetch, 0x9282, false, 0, 0⟩).effect
        ⟨fun k => if k = 5 then 0x2001 else 0, fun _ => 0, rfl⟩ =
      some (.complete ⟨some (1, 0x1004), none, 0x2000⟩) :=
  ((decompression_preserves (userEnv .none 0) ⟨0x1002, .prefetch, 0x9282, false, 0, 0⟩ rfl
    (by decide)).2 (.jalr 5) ⟨by decide, show (5 : BitVec 5) ≠ 0 by decide, by decide⟩ _).trans
      (by decide)

end Muntjac.Pipeline

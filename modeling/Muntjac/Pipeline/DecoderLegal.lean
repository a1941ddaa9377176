import Muntjac.Pipeline.Decoder

/-!
# What the decoder accepts

The decoder accepts every instruction that is defined and may execute.  It accepts more:
in the privileged instructions it does not look at `funct3[2]`, `rd` and `rs1`, and in
floating-point operations not at the rounding mode.

## Main definitions

* `Defined` — the word encodes an instruction that may execute.
* `Overlooked` — the words that are accepted although they are not defined.

## Main results

* `flagsIllegal_iff` — the decoder is right about all other words, and about no overlooked one.
-/

namespace Muntjac.Pipeline

open Riscv

/-- The instruction may execute. -/
def MayExecute (e : DecoderEnv) : Instr → Prop
  | .csr .. => e.csrIllegal = false
  | .mret => e.prv = .m
  | .sret => e.prv = .m ∨ e.prv = .s ∧ e.status.tsr = false
  | .wfi => e.prv = .m ∨ e.prv = .s ∧ e.status.tw = false
  | .sfenceVma .. => e.prv = .m ∨ e.prv = .s ∧ e.status.tvm = false
  | .fload .. | .fstore .. => e.rv64f ≠ .none ∧ e.status.fs ≠ 0
  | .fma .. | .fpArith .. | .fpExact .. | .fsqrt .. | .fcvtSD .. | .fcvtDS .. | .fcvtToInt ..
  | .fcvtFromInt .. | .fpMove .. => e.rv64f = .full ∧ e.status.fs ≠ 0
  | _ => True

/-- The word encodes an instruction that may execute. -/
def Defined (e : DecoderEnv) (w : BitVec 32) : Prop := ∃ i : Instr, i.encode = w ∧ MayExecute e i

/-! ## What is overlooked -/

/-- The bits of a privileged instruction that may execute. -/
def PrivilegedImm (e : DecoderEnv) (imm : BitVec 12) : Prop :=
  imm = 0x000 ∨ imm = 0x001 ∨ (imm = 0x302 ∧ e.prv = .m) ∨
    (imm = 0x102 ∧ e.permits e.status.tsr = true) ∨ (imm = 0x105 ∧ e.permits e.status.tw = true) ∨
      (imm.extractLsb' 5 7 = 0x09 ∧ e.permits e.status.tvm = true)

/-- A privileged instruction with `funct3 = 100` or with registers in fields that are zero in
its encoding. -/
def OverlookedSystem (e : DecoderEnv) (f : Fields) : Prop :=
  f.opcode = 0x73 ∧ PrivilegedImm e f.imm12 ∧
    (f.funct3 = 4 ∨ f.funct3 = 0 ∧ (f.rd ≠ 0 ∨ f.rs1 ≠ 0 ∧ f.funct7 ≠ 0x09))

/-- The fields of a floating-point operation that rounds, but for the rounding mode. -/
def RoundingFields (f : Fields) : Prop :=
  f.opcode ∈ [0x43, 0x47, 0x4B, 0x4F] ∧ f.funct7.getLsbD 1 = false ∨
    f.opcode = 0x53 ∧
      (f.funct7.extractLsb' 1 6 ∈ [0x00, 0x02, 0x04, 0x06] ∨
        f.funct7.extractLsb' 1 6 = 0x16 ∧ f.rs2 = 0 ∨
        f.funct7 = 0x20 ∧ f.rs2 = 1 ∨
        f.funct7 = 0x21 ∧ f.rs2 = 0 ∨
        f.funct7.extractLsb' 1 6 ∈ [0x30, 0x34] ∧ f.rs2 ∈ [0, 1, 2, 3])

/-- A floating-point operation with a reserved rounding mode. -/
def OverlookedRounding (e : DecoderEnv) (f : Fields) : Prop :=
  e.rv64f = .full ∧ e.status.fs ≠ 0 ∧ RoundingFields f ∧ (f.funct3 = 5 ∨ f.funct3 = 6)

/-- The words that are accepted although they are not defined. -/
def Overlooked (e : DecoderEnv) (w : BitVec 32) : Prop :=
  OverlookedSystem e (Fields.ofWord w) ∨ OverlookedRounding e (Fields.ofWord w)

/-! ## Defined words are accepted -/

theorem permits_iff (e : DecoderEnv) (trap : Bool) :
    e.permits trap = true ↔ e.prv = .m ∨ e.prv = .s ∧ trap = false := by
  simp [DecoderEnv.permits]

theorem control_of_opcode (e : DecoderEnv) {f : Fields} {o : Opcode} (h : f.opcode = o.toBits) :
    control e f =
      match o with
      | .jal => .jal
      | .jalr => .jalr f
      | .branch => .branch f
      | .store => .store f
      | .storeFp => .storeFp e f
      | .load => .load f
      | .loadFp => .loadFp e f
      | .amo => .amo f
      | .lui | .auipc => .lui
      | .opImm => .opImm f
      | .opImm32 => .opImm32 f
      | .op => .op f
      | .op32 => .op32 f
      | .madd | .msub | .nmsub | .nmadd => .fma e f
      | .opFp => .opFp e f
      | .miscMem => .miscMem f
      | .system => .system e f := by
  simp only [control, h, Opcode.ofBits_toBits]
  cases o <;> rfl

theorem extract_amo (x : BitVec 5) (a b : Bool) :
    (x ++ BitVec.ofBool a ++ BitVec.ofBool b).extractLsb' 2 5 = x := by
  simp (disch := omega) only [Fields.extract_high, Nat.reduceSub, BitVec.extractLsb'_eq_self]

theorem extract_shamt (x y : BitVec 6) : ((x ++ y).extractLsb' 5 7).extractLsb' 1 6 = x := by
  apply BitVec.eq_of_getLsbD_eq
  intro k hk
  have h7 : 1 + k < 7 := by omega
  have h6 : ¬5 + (1 + k) < 6 := by omega
  have hsub : 5 + (1 + k) - 6 = k := by omega
  simp only [BitVec.getLsbD_extractLsb', BitVec.getLsbD_append, hk, h7, h6, hsub, decide_true,
    Bool.true_and, if_false]

/-- The format of a floating-point operation is one of the two. -/
theorem getLsbD_fmt (x : BitVec 5) (w : Width) : (x ++ w.fmt).getLsbD 1 = false := by
  rw [BitVec.getLsbD_append, if_pos (by decide)]
  cases w <;> decide

theorem imm12_ne {f : Fields} {y : BitVec 12} (h : y.extractLsb' 5 7 ≠ f.funct7) :
    f.imm12 ≠ y := by
  rintro rfl
  refine h ?_
  rw [Fields.imm12, Fields.extract_high _ _ (by omega)]
  exact BitVec.extractLsb'_eq_self

section
variable {e : DecoderEnv}

theorem fsOff_eq_false (h : e.status.fs ≠ 0) : e.fsOff = false := by
  simpa [DecoderEnv.fsOff] using h

theorem opFp_illegalInstr (h : e.rv64f = .full ∧ e.status.fs ≠ 0) (f : Fields) :
    (Control.opFp e f).illegalInstr = (Control.opFp.op f).isNone := by
  simp [Control.opFp, h.1, fsOff_eq_false h.2]

theorem fma_illegalInstr (h : e.rv64f = .full ∧ e.status.fs ≠ 0) (f : Fields) :
    (Control.fma e f).illegalInstr = f.funct7.getLsbD 1 := by
  simp only [Control.fma, h.1, fsOff_eq_false h.2, if_true, Bool.or_false]

theorem storeFp_illegalInstr (h : e.rv64f ≠ .none ∧ e.status.fs ≠ 0) (f : Fields) :
    (Control.storeFp e f).illegalInstr = !(f.funct3 == 2 || f.funct3 == 3) := by
  simp [Control.storeFp, h.1, fsOff_eq_false h.2]

theorem loadFp_illegalInstr (h : e.rv64f ≠ .none ∧ e.status.fs ≠ 0) (f : Fields) :
    (Control.loadFp e f).illegalInstr = !(f.funct3 == 2 || f.funct3 == 3) := by
  simp [Control.loadFp, h.1, fsOff_eq_false h.2]

end

theorem illegalInstr_of_mayExecute (e : DecoderEnv) (i : Instr) (h : MayExecute e i) :
    (control e i.fields).illegalInstr = false := by
  cases i with
  | lui rd imm => rfl
  | auipc rd imm => rfl
  | jal rd imm => rfl
  | jalr rd rs1 imm => rfl
  | branch o rs1 rs2 imm => cases o <;> rfl
  | load o rd rs1 imm => cases o <;> rfl
  | store o rs1 rs2 imm =>
      rw [control_of_opcode e (o := .store) rfl]
      cases o <;> simp [Control.store, Instr.fields, Instr.sType, StoreOp.funct3]
  | opImm o rd rs1 imm => cases o <;> rfl
  | shiftImm o rd rs1 shamt =>
      rw [control_of_opcode e (o := .opImm) rfl]
      cases o <;>
        simp [Control.opImm, Instr.fields, Instr.iType, ShiftOp.funct3, extract_shamt,
          ShiftOp.funct6]
  | addiw rd rs1 imm => rfl
  | shiftImmW o rd rs1 shamt => cases o <;> rfl
  | op o rd rs1 rs2 => cases o <;> rfl
  | opW o rd rs1 rs2 => cases o <;> rfl
  | mulDiv o rd rs1 rs2 =>
      rw [control_of_opcode e (o := .op) rfl]
      cases o <;> simp [Control.op, Instr.fields, MulOp.funct3]
  | mulDivW o rd rs1 rs2 =>
      rw [control_of_opcode e (o := .op32) rfl]
      cases o <;> simp [Control.op32, Instr.fields, MulWordOp.funct3]
  | fence rd rs1 imm => rfl
  | fenceI rd rs1 imm => rfl
  | csr o rd rs1 c =>
      have hcsr : e.csrIllegal = false := h
      rw [control_of_opcode e (o := .system) rfl]
      cases o <;> simp [Control.system, Instr.fields, Instr.iType, CsrInstr.funct3, hcsr]
  | ecall => rfl
  | ebreak => rfl
  | mret =>
      have hm : e.prv = .m := h
      rw [control_of_opcode e (o := .system) rfl]
      simp [Control.system, Instr.fields, Instr.iType, Fields.imm12, hm]
  | sret =>
      have hp : e.permits e.status.tsr = true := (permits_iff e _).mpr h
      rw [control_of_opcode e (o := .system) rfl]
      simp [Control.system, Instr.fields, Instr.iType, Fields.imm12, hp]
  | wfi =>
      have hp : e.permits e.status.tw = true := (permits_iff e _).mpr h
      rw [control_of_opcode e (o := .system) rfl]
      simp [Control.system, Instr.fields, Instr.iType, Fields.imm12, hp]
  | sfenceVma rs1 rs2 =>
      have hp : e.permits e.status.tvm = true := (permits_iff e _).mpr h
      have hne : ∀ y : BitVec 12, y.extractLsb' 5 7 ≠ 0x09 →
          (Instr.sfenceVma rs1 rs2).fields.imm12 ≠ y := fun y hy => imm12_ne hy
      rw [control_of_opcode e (o := .system) rfl]
      simp only [Control.system, hne 0x000 (by decide), hne 0x001 (by decide),
        hne 0x302 (by decide), hne 0x102 (by decide), hne 0x105 (by decide), if_false, hp]
      rfl
  | lr w aq rl rd rs1 =>
      rw [control_of_opcode e (o := .amo) rfl]
      cases w <;> simp [Control.amo, Control.amo.op, Instr.fields, Width.funct3, extract_amo]
  | amo o w aq rl rd rs1 rs2 =>
      rw [control_of_opcode e (o := .amo) rfl]
      cases o <;> cases w <;>
        simp [Control.amo, Control.amo.op, Instr.fields, Width.funct3, extract_amo, AmoOp.funct5]
  | fload w rd rs1 imm =>
      rw [control_of_opcode e (o := .loadFp) rfl, loadFp_illegalInstr h]
      cases w <;> rfl
  | fstore w rs1 rs2 imm =>
      rw [control_of_opcode e (o := .storeFp) rfl, storeFp_illegalInstr h]
      cases w <;> rfl
  | fma o w rm rd rs1 rs2 rs3 =>
      have hfmt := getLsbD_fmt rs3 w
      cases o <;>
        first
          | rw [control_of_opcode e (o := .madd) rfl, fma_illegalInstr h]; exact hfmt
          | rw [control_of_opcode e (o := .msub) rfl, fma_illegalInstr h]; exact hfmt
          | rw [control_of_opcode e (o := .nmsub) rfl, fma_illegalInstr h]; exact hfmt
          | rw [control_of_opcode e (o := .nmadd) rfl, fma_illegalInstr h]; exact hfmt
  | fpArith o w rm rd rs1 rs2 =>
      rw [control_of_opcode e (o := .opFp) rfl, opFp_illegalInstr h]
      cases o <;> cases w <;>
        simp [Control.opFp.op, Instr.fields, FpArithOp.funct5, Width.fmt]
  | fpExact o w rd rs1 rs2 =>
      rw [control_of_opcode e (o := .opFp) rfl, opFp_illegalInstr h]
      cases o <;> cases w <;>
        simp [Control.opFp.op, Instr.fields, FpExactOp.funct5, FpExactOp.funct3, Width.fmt]
  | fsqrt w rm rd rs1 =>
      rw [control_of_opcode e (o := .opFp) rfl, opFp_illegalInstr h]
      cases w <;> simp [Control.opFp.op, Instr.fields, Width.fmt]
  | fcvtSD rm rd rs1 =>
      rw [control_of_opcode e (o := .opFp) rfl, opFp_illegalInstr h]
      simp [Control.opFp.op, Instr.fields, Width.fmt]
  | fcvtDS rm rd rs1 =>
      rw [control_of_opcode e (o := .opFp) rfl, opFp_illegalInstr h]
      simp [Control.opFp.op, Instr.fields, Width.fmt]
  | fcvtToInt w k rm rd rs1 =>
      rw [control_of_opcode e (o := .opFp) rfl, opFp_illegalInstr h]
      cases w <;> cases k <;> simp [Control.opFp.op, Instr.fields, Width.fmt, IntKind.rs2]
  | fcvtFromInt w k rm rd rs1 =>
      rw [control_of_opcode e (o := .opFp) rfl, opFp_illegalInstr h]
      cases w <;> cases k <;> simp [Control.opFp.op, Instr.fields, Width.fmt, IntKind.rs2]
  | fpMove o w rd rs1 =>
      rw [control_of_opcode e (o := .opFp) rfl, opFp_illegalInstr h]
      cases o <;> cases w <;>
        simp [Control.opFp.op, Instr.fields, FpMoveOp.funct5, FpMoveOp.funct3, Width.fmt]

/-! ## Accepted words are defined or overlooked -/

theorem exists_branchOp (b : BitVec 3) (h : (ConditionCode.ofBits b).isSome = true) :
    ∃ o : BranchOp, o.funct3 = b := by
  have key : ∀ b, (ConditionCode.ofBits b).isSome = true →
      ∃ o ∈ [BranchOp.beq, .bne, .blt, .bge, .bltu, .bgeu], o.funct3 = b := by decide
  obtain ⟨o, -, ho⟩ := key b h
  exact ⟨o, ho⟩

theorem exists_loadOp (b : BitVec 3) (h : b ≠ 7) : ∃ o : LoadOp, o.funct3 = b := by
  have key : ∀ b : BitVec 3, b ≠ 7 →
      ∃ o ∈ [LoadOp.lb, .lh, .lw, .ld, .lbu, .lhu, .lwu], o.funct3 = b := by decide
  obtain ⟨o, -, ho⟩ := key b h
  exact ⟨o, ho⟩

theorem exists_storeOp (b : BitVec 3) (h : b.getLsbD 2 = false) : ∃ o : StoreOp, o.funct3 = b := by
  have key : ∀ b : BitVec 3, b.getLsbD 2 = false →
      ∃ o ∈ [StoreOp.sb, .sh, .sw, .sd], o.funct3 = b := by decide
  obtain ⟨o, -, ho⟩ := key b h
  exact ⟨o, ho⟩

theorem exists_mulOp (b : BitVec 3) : ∃ o : MulOp, o.funct3 = b := by
  have key : ∀ b, ∃ o ∈ [MulOp.mul, .mulh, .mulhsu, .mulhu, .div, .divu, .rem, .remu],
      o.funct3 = b := by decide
  obtain ⟨o, -, ho⟩ := key b
  exact ⟨o, ho⟩

theorem exists_csrInstr (b : BitVec 3) (h : b.extractLsb' 0 2 ≠ 0) :
    ∃ o : CsrInstr, o.funct3 = b := by
  have key : ∀ b : BitVec 3, b.extractLsb' 0 2 ≠ 0 →
      ∃ o ∈ [CsrInstr.csrrw, .csrrs, .csrrc, .csrrwi, .csrrsi, .csrrci], o.funct3 = b := by decide
  obtain ⟨o, -, ho⟩ := key b h
  exact ⟨o, ho⟩

theorem exists_width (b : BitVec 3) (h : (b == 2 || b == 3) = true) :
    ∃ w : Width, w.funct3 = b := by
  have key : ∀ b : BitVec 3, (b == 2 || b == 3) = true →
      ∃ w ∈ [Width.word, .double], w.funct3 = b := by decide
  obtain ⟨w, -, hw⟩ := key b h
  exact ⟨w, hw⟩

theorem exists_roundingMode (b : BitVec 3) (h5 : b ≠ 5) (h6 : b ≠ 6) :
    ∃ rm : RoundingMode, rm.bits = b := by
  have key : ∀ b : BitVec 3, b ≠ 5 → b ≠ 6 →
      ∃ rm ∈ [RoundingMode.rne, .rtz, .rdn, .rup, .rmm, .dyn], rm.bits = b := by decide
  obtain ⟨rm, -, hrm⟩ := key b h5 h6
  exact ⟨rm, hrm⟩

/-- The format of an operation whose second lowest bit of `funct7` is zero. -/
theorem exists_fmt (x : BitVec 7) (h : x.getLsbD 1 = false) :
    ∃ w : Width, x.extractLsb' 2 5 ++ w.fmt = x := by
  have key : ∀ x : BitVec 7, x.getLsbD 1 = false →
      ∃ w ∈ [Width.word, .double], x.extractLsb' 2 5 ++ w.fmt = x := by decide
  obtain ⟨w, -, hw⟩ := key x h
  exact ⟨w, hw⟩

/-- The ordering bits of an atomic operation. -/
theorem exists_aqRl (x : BitVec 7) :
    ∃ a b, x.extractLsb' 2 5 ++ BitVec.ofBool a ++ BitVec.ofBool b = x := by
  have key : ∀ x : BitVec 7, ∃ a b,
      x.extractLsb' 2 5 ++ BitVec.ofBool a ++ BitVec.ofBool b = x := by decide
  exact key x

theorem exists_amoOp (x : BitVec 7) (hlr : x.extractLsb' 2 5 ≠ 2)
    (h : (Control.amo.op ⟨x, 0, 0, 0, 0, 0⟩).2 = false) :
    ∃ o : AmoOp, o.funct5 = x.extractLsb' 2 5 := by
  have key : ∀ x : BitVec 7, x.extractLsb' 2 5 ≠ 2 →
      (Control.amo.op ⟨x, 0, 0, 0, 0, 0⟩).2 = false →
      ∃ o ∈ [AmoOp.sc, .swap, .add, .xor, .and, .or, .min, .max, .minu, .maxu],
        o.funct5 = x.extractLsb' 2 5 := by decide
  obtain ⟨o, -, ho⟩ := key x hlr h
  exact ⟨o, ho⟩

theorem exists_regOp (x : BitVec 7) (b : BitVec 3)
    (h : (Control.op ⟨x, 0, 0, b, 0, 0⟩).illegalInstr = false) :
    x = 1 ∨ ∃ o : RegOp, o.funct7 = x ∧ o.funct3 = b := by
  have key : ∀ x b, (Control.op ⟨x, 0, 0, b, 0, 0⟩).illegalInstr = false →
      x = 1 ∨ ∃ o ∈ [RegOp.add, .sub, .sll, .slt, .sltu, .xor, .srl, .sra, .or, .and],
        o.funct7 = x ∧ o.funct3 = b := by decide
  obtain hx | ⟨o, -, ho⟩ := key x b h
  · exact Or.inl hx
  · exact Or.inr ⟨o, ho⟩

theorem exists_wordOp (x : BitVec 7) (b : BitVec 3)
    (h : (Control.op32 ⟨x, 0, 0, b, 0, 0⟩).illegalInstr = false) :
    (∃ o : MulWordOp, 1 = x ∧ o.funct3 = b) ∨ ∃ o : WordOp, o.funct7 = x ∧ o.funct3 = b := by
  have key : ∀ x b, (Control.op32 ⟨x, 0, 0, b, 0, 0⟩).illegalInstr = false →
      (∃ o ∈ [MulWordOp.mulw, .divw, .divuw, .remw, .remuw], 1 = x ∧ o.funct3 = b) ∨
        ∃ o ∈ [WordOp.addw, .subw, .sllw, .srlw, .sraw], o.funct7 = x ∧ o.funct3 = b := by
    decide
  obtain ⟨o, -, ho⟩ | ⟨o, -, ho⟩ := key x b h
  · exact Or.inl ⟨o, ho⟩
  · exact Or.inr ⟨o, ho⟩

/-- The format of an operation of `OP-FP`. -/
theorem exists_fmt_of_funct5 (x : BitVec 7) (y : BitVec 5) (h : x.extractLsb' 1 6 = y ++ 0#1) :
    ∃ w : Width, y ++ w.fmt = x := by
  have key : ∀ (x : BitVec 7) (y : BitVec 5), x.extractLsb' 1 6 = y ++ 0#1 →
      ∃ w ∈ [Width.word, .double], y ++ w.fmt = x := by decide
  obtain ⟨w, -, hw⟩ := key x y h
  exact ⟨w, hw⟩

theorem exists_intKind (b : BitVec 5) (h : b = 0 ∨ b = 1 ∨ b = 2 ∨ b = 3) :
    ∃ k : IntKind, k.rs2 = b := by
  rcases h with rfl | rfl | rfl | rfl
  · exact ⟨.w, rfl⟩
  · exact ⟨.wu, rfl⟩
  · exact ⟨.l, rfl⟩
  · exact ⟨.lu, rfl⟩

section
variable {e : DecoderEnv} {f : Fields}

theorem rm_of_not_overlooked (h : e.rv64f = .full ∧ e.status.fs ≠ 0)
    (hr : ¬OverlookedRounding e f) (hf : RoundingFields f) :
    ∃ rm : RoundingMode, rm.bits = f.funct3 :=
  exists_roundingMode f.funct3 (fun h5 => hr ⟨h.1, h.2, hf, Or.inl h5⟩)
    fun h6 => hr ⟨h.1, h.2, hf, Or.inr h6⟩

theorem exists_opFp (hop : f.opcode = 0x53) (h : e.rv64f = .full ∧ e.status.fs ≠ 0)
    (hr : ¬OverlookedRounding e f) (hacc : (Control.opFp.op f).isNone = false) :
    ∃ i : Instr, i.fields = f ∧ MayExecute e i := by
  have hrm : RoundingFields f → ∃ rm : RoundingMode, rm.bits = f.funct3 :=
    rm_of_not_overlooked h hr
  unfold Control.opFp.op at hacc
  split at hacc
  · next h7 =>
    obtain ⟨rm, hrm⟩ := hrm (Or.inr ⟨hop, Or.inl (by simp [h7])⟩)
    obtain ⟨w, hw⟩ := exists_fmt_of_funct5 f.funct7 0 h7
    exact ⟨.fpArith .fadd w rm f.rd f.rs1 f.rs2, Fields.ext hw rfl rfl hrm rfl hop.symm, h⟩
  · next h7 =>
    obtain ⟨rm, hrm⟩ := hrm (Or.inr ⟨hop, Or.inl (by simp [h7])⟩)
    obtain ⟨w, hw⟩ := exists_fmt_of_funct5 f.funct7 1 h7
    exact ⟨.fpArith .fsub w rm f.rd f.rs1 f.rs2, Fields.ext hw rfl rfl hrm rfl hop.symm, h⟩
  · next h7 =>
    obtain ⟨rm, hrm⟩ := hrm (Or.inr ⟨hop, Or.inl (by simp [h7])⟩)
    obtain ⟨w, hw⟩ := exists_fmt_of_funct5 f.funct7 2 h7
    exact ⟨.fpArith .fmul w rm f.rd f.rs1 f.rs2, Fields.ext hw rfl rfl hrm rfl hop.symm, h⟩
  · next h7 =>
    obtain ⟨rm, hrm⟩ := hrm (Or.inr ⟨hop, Or.inl (by simp [h7])⟩)
    obtain ⟨w, hw⟩ := exists_fmt_of_funct5 f.funct7 3 h7
    exact ⟨.fpArith .fdiv w rm f.rd f.rs1 f.rs2, Fields.ext hw rfl rfl hrm rfl hop.symm, h⟩
  · next h7 =>
    obtain ⟨w, hw⟩ := exists_fmt_of_funct5 f.funct7 4 h7
    split at hacc
    · next h3 =>
      rcases h3 with h3 | h3 | h3
      · exact ⟨.fpExact .fsgnj w f.rd f.rs1 f.rs2, Fields.ext hw rfl rfl h3.symm rfl hop.symm, h⟩
      · exact ⟨.fpExact .fsgnjn w f.rd f.rs1 f.rs2, Fields.ext hw rfl rfl h3.symm rfl hop.symm, h⟩
      · exact ⟨.fpExact .fsgnjx w f.rd f.rs1 f.rs2, Fields.ext hw rfl rfl h3.symm rfl hop.symm, h⟩
    · cases hacc
  · next h7 =>
    obtain ⟨w, hw⟩ := exists_fmt_of_funct5 f.funct7 0x0B h7
    split at hacc
    · next h2 =>
      obtain ⟨rm, hrm⟩ := hrm (Or.inr ⟨hop, by simp [h7, h2]⟩)
      exact ⟨.fsqrt w rm f.rd f.rs1, Fields.ext hw h2.symm rfl hrm rfl hop.symm, h⟩
    · cases hacc
  · next h7 =>
    obtain ⟨w, hw⟩ := exists_fmt_of_funct5 f.funct7 5 h7
    split at hacc
    · next h3 =>
      rcases h3 with h3 | h3
      · exact ⟨.fpExact .fmin w f.rd f.rs1 f.rs2, Fields.ext hw rfl rfl h3.symm rfl hop.symm, h⟩
      · exact ⟨.fpExact .fmax w f.rd f.rs1 f.rs2, Fields.ext hw rfl rfl h3.symm rfl hop.symm, h⟩
    · cases hacc
  · next h7 =>
    obtain ⟨w, hw⟩ := exists_fmt_of_funct5 f.funct7 0x08 h7
    cases w with
    | word =>
        have h20 : f.funct7 = 0x20 := hw.symm
        have h1 : f.rs2 = 1 := by simpa [h20] using hacc
        obtain ⟨rm, hrm⟩ := hrm (Or.inr ⟨hop, by simp [h20, h1]⟩)
        exact ⟨.fcvtSD rm f.rd f.rs1, Fields.ext hw h1.symm rfl hrm rfl hop.symm, h⟩
    | double =>
        have h21 : f.funct7 = 0x21 := hw.symm
        have h0 : f.rs2 = 0 := by simpa [h21] using hacc
        obtain ⟨rm, hrm⟩ := hrm (Or.inr ⟨hop, by simp [h21, h0]⟩)
        exact ⟨.fcvtDS rm f.rd f.rs1, Fields.ext hw h0.symm rfl hrm rfl hop.symm, h⟩
  · next h7 =>
    obtain ⟨w, hw⟩ := exists_fmt_of_funct5 f.funct7 0x14 h7
    split at hacc
    · next h3 =>
      rcases h3 with h3 | h3 | h3
      · exact ⟨.fpExact .fle w f.rd f.rs1 f.rs2, Fields.ext hw rfl rfl h3.symm rfl hop.symm, h⟩
      · exact ⟨.fpExact .flt w f.rd f.rs1 f.rs2, Fields.ext hw rfl rfl h3.symm rfl hop.symm, h⟩
      · exact ⟨.fpExact .feq w f.rd f.rs1 f.rs2, Fields.ext hw rfl rfl h3.symm rfl hop.symm, h⟩
    · cases hacc
  · next h7 =>
    obtain ⟨w, hw⟩ := exists_fmt_of_funct5 f.funct7 0x18 h7
    split at hacc
    · next h2 =>
      obtain ⟨k, hk⟩ := exists_intKind f.rs2 h2
      have hkind : f.rs2 ∈ [(0 : BitVec 5), 1, 2, 3] := by simpa using h2
      obtain ⟨rm, hrm⟩ := hrm (Or.inr ⟨hop, Or.inr (Or.inr (Or.inr (Or.inr
        ⟨by simp [h7], hkind⟩)))⟩)
      exact ⟨.fcvtToInt w k rm f.rd f.rs1, Fields.ext hw hk rfl hrm rfl hop.symm, h⟩
    · cases hacc
  · next h7 =>
    obtain ⟨w, hw⟩ := exists_fmt_of_funct5 f.funct7 0x1A h7
    split at hacc
    · next h2 =>
      obtain ⟨k, hk⟩ := exists_intKind f.rs2 h2
      have hkind : f.rs2 ∈ [(0 : BitVec 5), 1, 2, 3] := by simpa using h2
      obtain ⟨rm, hrm⟩ := hrm (Or.inr ⟨hop, Or.inr (Or.inr (Or.inr (Or.inr
        ⟨by simp [h7], hkind⟩)))⟩)
      exact ⟨.fcvtFromInt w k rm f.rd f.rs1, Fields.ext hw hk rfl hrm rfl hop.symm, h⟩
    · cases hacc
  · next h7 =>
    obtain ⟨w, hw⟩ := exists_fmt_of_funct5 f.funct7 0x1C h7
    split at hacc
    · next h23 =>
      exact ⟨.fpMove .fmvToInt w f.rd f.rs1,
        Fields.ext hw h23.1.symm rfl h23.2.symm rfl hop.symm, h⟩
    · split at hacc
      · next h23 =>
        exact ⟨.fpMove .fclass w f.rd f.rs1,
          Fields.ext hw h23.1.symm rfl h23.2.symm rfl hop.symm, h⟩
      · cases hacc
  · next h7 =>
    obtain ⟨w, hw⟩ := exists_fmt_of_funct5 f.funct7 0x1E h7
    split at hacc
    · next h23 =>
      exact ⟨.fpMove .fmvFromInt w f.rd f.rs1,
        Fields.ext hw h23.1.symm rfl h23.2.symm rfl hop.symm, h⟩
    · cases hacc
  · cases hacc

theorem exists_fma {o : FmaOp} (hop : f.opcode = o.opcode) (h : e.rv64f = .full ∧ e.status.fs ≠ 0)
    (hr : ¬OverlookedRounding e f) (hacc : f.funct7.getLsbD 1 = false) :
    ∃ i : Instr, i.fields = f ∧ MayExecute e i := by
  have hmem : f.opcode ∈ [(0x43 : BitVec 7), 0x47, 0x4B, 0x4F] := by
    rw [hop]
    cases o <;> decide
  obtain ⟨rm, hrm⟩ := rm_of_not_overlooked h hr (Or.inl ⟨hmem, hacc⟩)
  obtain ⟨w, hw⟩ := exists_fmt f.funct7 hacc
  exact ⟨.fma o w rm f.rd f.rs1 f.rs2 (f.funct7.extractLsb' 2 5),
    Fields.ext hw rfl rfl hrm rfl hop.symm, h⟩

/-- A shift by a constant. -/
theorem exists_shiftImm {o : Riscv.ShiftOp} (hop : f.opcode = 0x13) (h3 : f.funct3 = o.funct3)
    (h7 : f.funct7.extractLsb' 1 6 = o.funct6) : ∃ i : Instr, i.fields = f ∧ MayExecute e i := by
  have himm : o.funct6 ++ (f.funct7.extractLsb' 0 1 ++ f.rs2) = f.imm12 := by
    have h1 : f.funct7.extractLsb' 1 6 ++ f.funct7.extractLsb' 0 1 = f.funct7 := by
      rw [BitVec.extractLsb'_append_extractLsb'_eq_extractLsb' (by rfl)]
      exact BitVec.extractLsb'_eq_self
    rw [← h7, Fields.imm12, BitVec.append_assoc', h1]
    rfl
  refine ⟨.shiftImm o f.rd f.rs1 (f.funct7.extractLsb' 0 1 ++ f.rs2), ?_, trivial⟩
  have h := Instr.iType_imm12 f
  rw [h3, hop, ← himm] at h
  exact h

theorem exists_opImm (hop : f.opcode = 0x13) (hacc : (Control.opImm f).illegalInstr = false) :
    ∃ i : Instr, i.fields = f ∧ MayExecute e i := by
  have himm : ∀ o : ImmOp, f.funct3 = o.funct3 → ∃ i : Instr, i.fields = f ∧ MayExecute e i := by
    intro o h3
    refine ⟨.opImm o f.rd f.rs1 f.imm12, ?_, trivial⟩
    simp only [Instr.fields, ← h3]
    exact hop ▸ Instr.iType_imm12 f
  unfold Control.opImm at hacc
  split at hacc
  · next h3 => exact himm .addi h3
  · next h3 => exact himm .slti h3
  · next h3 => exact himm .sltiu h3
  · next h3 => exact himm .xori h3
  · next h3 => exact himm .ori h3
  · next h3 => exact himm .andi h3
  · next h3 =>
    have h0 : f.funct7.extractLsb' 1 6 = 0 := by simpa using hacc
    exact exists_shiftImm (o := .sll) hop h3 h0
  · next h0 h2 h3 h4 h6 h7 h1 =>
    have h5 : f.funct3 = 5 := by
      have key : ∀ b : BitVec 3, b = 5 ∨ b ∈ [(0 : BitVec 3), 1, 2, 3, 4, 6, 7] := by decide
      refine (key f.funct3).resolve_right ?_
      simp only [List.mem_cons, List.not_mem_nil, or_false, not_or]
      exact ⟨h0, h1, h2, h3, h4, h6, h7⟩
    split at hacc
    · next hsrl => exact exists_shiftImm (o := .srl) hop h5 hsrl
    · split at hacc
      · next hsra => exact exists_shiftImm (o := .sra) hop h5 hsra
      · cases hacc

theorem exists_opImm32 (hop : f.opcode = 0x1B) (hacc : (Control.opImm32 f).illegalInstr = false) :
    ∃ i : Instr, i.fields = f ∧ MayExecute e i := by
  have hshift : ∀ o : Riscv.ShiftOp, f.funct3 = o.funct3 → f.funct7 = o.funct6 ++ 0#1 →
      ∃ i : Instr, i.fields = f ∧ MayExecute e i := by
    intro o h3 h7
    exact ⟨.shiftImmW o f.rd f.rs1 f.rs2, Fields.ext h7.symm rfl rfl h3.symm rfl hop.symm, trivial⟩
  unfold Control.opImm32 at hacc
  split at hacc
  · next h3 =>
    refine ⟨.addiw f.rd f.rs1 f.imm12, ?_, trivial⟩
    have h := Instr.iType_imm12 f
    rw [h3, hop] at h
    exact h
  · next h3 =>
    have h0 : f.funct7 = 0 := by simpa using hacc
    exact hshift .sll h3 h0
  · next h3 =>
    split at hacc
    · next hsrl => exact hshift .srl h3 hsrl
    · split at hacc
      · next hsra => exact hshift .sra h3 hsra
      · cases hacc
  · cases hacc

theorem exists_op (hop : f.opcode = 0x33) (hacc : (Control.op f).illegalInstr = false) :
    ∃ i : Instr, i.fields = f ∧ MayExecute e i := by
  rcases exists_regOp f.funct7 f.funct3 hacc with h1 | ⟨o, h7, h3⟩
  · obtain ⟨o, ho⟩ := exists_mulOp f.funct3
    exact ⟨.mulDiv o f.rd f.rs1 f.rs2, Fields.ext h1.symm rfl rfl ho rfl hop.symm, trivial⟩
  · exact ⟨.op o f.rd f.rs1 f.rs2, Fields.ext h7 rfl rfl h3 rfl hop.symm, trivial⟩

theorem exists_op32 (hop : f.opcode = 0x3B) (hacc : (Control.op32 f).illegalInstr = false) :
    ∃ i : Instr, i.fields = f ∧ MayExecute e i := by
  rcases exists_wordOp f.funct7 f.funct3 hacc with ⟨o, h1, h3⟩ | ⟨o, h7, h3⟩
  · exact ⟨.mulDivW o f.rd f.rs1 f.rs2, Fields.ext h1 rfl rfl h3 rfl hop.symm, trivial⟩
  · exact ⟨.opW o f.rd f.rs1 f.rs2, Fields.ext h7 rfl rfl h3 rfl hop.symm, trivial⟩

theorem exists_amo (hop : f.opcode = 0x2F) (hacc : (Control.amo f).illegalInstr = false) :
    ∃ i : Instr, i.fields = f ∧ MayExecute e i := by
  simp only [Control.amo, Bool.or_eq_false_iff, Bool.not_eq_false'] at hacc
  obtain ⟨h3, h7⟩ := hacc
  obtain ⟨w, hw⟩ := exists_width f.funct3 h3
  by_cases hlr : f.funct7.extractLsb' 2 5 = 2
  · obtain ⟨a, b, hab⟩ := exists_aqRl f.funct7
    have h2 : f.rs2 = 0 := by simpa [Control.amo.op, hlr] using h7
    rw [hlr] at hab
    exact ⟨.lr w a b f.rd f.rs1, Fields.ext hab h2.symm rfl hw rfl hop.symm, trivial⟩
  · obtain ⟨a, b, hab⟩ := exists_aqRl f.funct7
    have hop5 : (Control.amo.op ⟨f.funct7, 0, 0, 0, 0, 0⟩).2 = false := by
      unfold Control.amo.op at h7 ⊢
      split at h7 <;> simp_all
    obtain ⟨o, ho⟩ := exists_amoOp f.funct7 hlr hop5
    rw [← ho] at hab
    exact ⟨.amo o w a b f.rd f.rs1 f.rs2, Fields.ext hab rfl rfl hw rfl hop.symm, trivial⟩

/-- The fields of a privileged instruction that is not overlooked. -/
theorem fields_of_privileged (hop : f.opcode = 0x73) (h3 : f.funct3.extractLsb' 0 2 = 0)
    (hs : ¬OverlookedSystem e f) (hp : PrivilegedImm e f.imm12) :
    f.funct3 = 0 ∧ f.rd = 0 ∧ (f.funct7 ≠ 0x09 → f.rs1 = 0) := by
  have key : ∀ b : BitVec 3, b.extractLsb' 0 2 = 0 → b = 0 ∨ b = 4 := by decide
  have hz : f.funct3 = 0 := by
    rcases key f.funct3 h3 with h0 | h4
    · exact h0
    · exact absurd ⟨hop, hp, Or.inl h4⟩ hs
  have hrest : ¬(f.rd ≠ 0 ∨ f.rs1 ≠ 0 ∧ f.funct7 ≠ 0x09) :=
    fun h => hs ⟨hop, hp, Or.inr ⟨hz, h⟩⟩
  rw [not_or, not_and_or, not_not, not_not, not_not] at hrest
  exact ⟨hz, hrest.1, fun h7 => hrest.2.resolve_right h7⟩

theorem exists_system (hop : f.opcode = 0x73) (hs : ¬OverlookedSystem e f)
    (hacc : (Control.system e f).illegalInstr = false) :
    ∃ i : Instr, i.fields = f ∧ MayExecute e i := by
  by_cases h3 : f.funct3.extractLsb' 0 2 = 0
  · have hpriv : ∀ (i : Instr) (imm : BitVec 12), i.fields = Instr.iType imm 0 0 0 0x73 →
        imm.extractLsb' 5 7 ≠ 0x09 → f.imm12 = imm → PrivilegedImm e imm → i.fields = f := by
      intro i imm hi h7 himm hp
      obtain ⟨hz, hrd, hrs1⟩ := fields_of_privileged hop h3 hs (himm ▸ hp)
      have hf7 : f.funct7 = imm.extractLsb' 5 7 := by
        rw [← himm, Fields.imm12, Fields.extract_high _ _ (by omega)]
        exact BitVec.extractLsb'_eq_self.symm
      have h := Instr.iType_imm12 f
      rw [himm, hz, hrd, hrs1 (hf7 ▸ h7), hop] at h
      rw [hi, h]
    simp only [Control.system, h3, ne_eq, not_true_eq_false, if_false] at hacc
    split at hacc
    · next h0 => exact ⟨.ecall, hpriv .ecall 0x000 rfl (by decide) h0 (Or.inl rfl), trivial⟩
    · split at hacc
      · next h1 => exact
          ⟨.ebreak, hpriv .ebreak 0x001 rfl (by decide) h1 (Or.inr (Or.inl rfl)), trivial⟩
      · split at hacc
        · next hm =>
          have hprv : e.prv = .m := by simpa using hacc
          exact ⟨.mret, hpriv .mret 0x302 rfl (by decide) hm (by simp [PrivilegedImm, hprv]), hprv⟩
        · split at hacc
          · next hsr =>
            have hperm : e.permits e.status.tsr = true := by simpa using hacc
            exact ⟨.sret, hpriv .sret 0x102 rfl (by decide) hsr (by simp [PrivilegedImm, hperm]),
              (permits_iff e _).mp hperm⟩
          · split at hacc
            · next hw =>
              have hperm : e.permits e.status.tw = true := by simpa using hacc
              exact ⟨.wfi, hpriv .wfi 0x105 rfl (by decide) hw (by simp [PrivilegedImm, hperm]),
                (permits_iff e _).mp hperm⟩
            · split at hacc
              · next h7 =>
                have hperm : e.permits e.status.tvm = true := by simpa using hacc
                have h57 : f.imm12.extractLsb' 5 7 = 0x09 := by
                  rw [Fields.imm12, Fields.extract_high _ _ (by omega), ← h7]
                  exact BitVec.extractLsb'_eq_self
                obtain ⟨hz, hrd, -⟩ := fields_of_privileged hop h3 hs
                  (by simp [PrivilegedImm, h57, hperm])
                exact ⟨.sfenceVma f.rs1 f.rs2,
                  Fields.ext h7.symm rfl rfl hz.symm hrd.symm hop.symm,
                  (permits_iff e _).mp hperm⟩
              · cases hacc
  · obtain ⟨o, ho⟩ := exists_csrInstr f.funct3 h3
    have hcsr : e.csrIllegal = false := by
      simpa only [Control.system, ne_eq, h3, not_false_eq_true, if_true] using hacc
    refine ⟨.csr o f.rd f.rs1 f.imm12, ?_, hcsr⟩
    have h := Instr.iType_imm12 f
    rw [← ho, hop] at h
    exact h

theorem fs_of_fsOff (h : e.fsOff = false) : e.status.fs ≠ 0 := by
  simpa [DecoderEnv.fsOff] using h

theorem storeFp_accepted (h : (Control.storeFp e f).illegalInstr = false) :
    (e.rv64f ≠ .none ∧ e.status.fs ≠ 0) ∧ (f.funct3 == 2 || f.funct3 == 3) = true := by
  unfold Control.storeFp at h
  split at h
  · next hf =>
    rw [Bool.or_eq_false_iff, Bool.not_eq_false'] at h
    exact ⟨⟨hf, fs_of_fsOff h.2⟩, h.1⟩
  · cases h

theorem loadFp_accepted (h : (Control.loadFp e f).illegalInstr = false) :
    (e.rv64f ≠ .none ∧ e.status.fs ≠ 0) ∧ (f.funct3 == 2 || f.funct3 == 3) = true := by
  unfold Control.loadFp at h
  split at h
  · next hf =>
    rw [Bool.or_eq_false_iff, Bool.not_eq_false'] at h
    exact ⟨⟨hf, fs_of_fsOff h.2⟩, h.1⟩
  · cases h

theorem fma_accepted (h : (Control.fma e f).illegalInstr = false) :
    (e.rv64f = .full ∧ e.status.fs ≠ 0) ∧ f.funct7.getLsbD 1 = false := by
  unfold Control.fma at h
  split at h
  · next hf =>
    rw [Bool.or_eq_false_iff] at h
    exact ⟨⟨hf, fs_of_fsOff h.2⟩, h.1⟩
  · cases h

theorem opFp_accepted (h : (Control.opFp e f).illegalInstr = false) :
    (e.rv64f = .full ∧ e.status.fs ≠ 0) ∧ (Control.opFp.op f).isNone = false := by
  unfold Control.opFp at h
  split at h
  · next hf =>
    rw [Bool.or_eq_false_iff] at h
    exact ⟨⟨hf, fs_of_fsOff h.2⟩, h.1⟩
  · cases h

theorem exists_of_accepted (hs : ¬OverlookedSystem e f) (hr : ¬OverlookedRounding e f)
    (hacc : (control e f).illegalInstr = false) : ∃ i : Instr, i.fields = f ∧ MayExecute e i := by
  cases ho : Opcode.ofBits f.opcode with
  | none => simp [control, ho] at hacc
  | some o =>
      have hop : f.opcode = o.toBits := (Opcode.toBits_of_ofBits ho).symm
      rw [control_of_opcode e hop] at hacc
      have himm := Instr.iType_imm12 f
      cases o with
      | jal =>
          obtain ⟨imm, h⟩ := Instr.exists_jType f
          exact ⟨.jal f.rd imm, (hop ▸ rfl : _ = Instr.jType imm f.rd f.opcode).trans h, trivial⟩
      | lui =>
          obtain ⟨imm, h⟩ := Instr.exists_uType f
          exact ⟨.lui f.rd imm, (hop ▸ rfl : _ = Instr.uType imm f.rd f.opcode).trans h, trivial⟩
      | auipc =>
          obtain ⟨imm, h⟩ := Instr.exists_uType f
          exact ⟨.auipc f.rd imm, (hop ▸ rfl : _ = Instr.uType imm f.rd f.opcode).trans h, trivial⟩
      | jalr =>
          have h3 : f.funct3 = 0 := by simpa [Control.jalr] using hacc
          rw [h3, hop] at himm
          exact ⟨.jalr f.rd f.rs1 f.imm12, himm, trivial⟩
      | branch =>
          obtain ⟨o, h3⟩ := exists_branchOp f.funct3 (by
            cases hcc : ConditionCode.ofBits f.funct3 with
            | none => simp [Control.branch, hcc] at hacc
            | some cc => rfl)
          obtain ⟨imm, h⟩ := Instr.exists_bType f
          rw [← h3, hop] at h
          exact ⟨.branch o f.rs1 f.rs2 imm, h, trivial⟩
      | load =>
          obtain ⟨o, h3⟩ := exists_loadOp f.funct3 (by simpa [Control.load] using hacc)
          rw [← h3, hop] at himm
          exact ⟨.load o f.rd f.rs1 f.imm12, himm, trivial⟩
      | store =>
          obtain ⟨o, h3⟩ := exists_storeOp f.funct3 hacc
          obtain ⟨imm, h⟩ := Instr.exists_sType f
          rw [← h3, hop] at h
          exact ⟨.store o f.rs1 f.rs2 imm, h, trivial⟩
      | loadFp =>
          obtain ⟨hfp, hw⟩ := loadFp_accepted hacc
          obtain ⟨w, h3⟩ := exists_width f.funct3 hw
          rw [← h3, hop] at himm
          exact ⟨.fload w f.rd f.rs1 f.imm12, himm, hfp⟩
      | storeFp =>
          obtain ⟨hfp, hw⟩ := storeFp_accepted hacc
          obtain ⟨w, h3⟩ := exists_width f.funct3 hw
          obtain ⟨imm, h⟩ := Instr.exists_sType f
          rw [← h3, hop] at h
          exact ⟨.fstore w f.rs1 f.rs2 imm, h, hfp⟩
      | miscMem =>
          simp only [Control.miscMem] at hacc
          split at hacc
          · next h3 =>
            rw [h3, hop] at himm
            exact ⟨.fence f.rd f.rs1 f.imm12, himm, trivial⟩
          · next h3 =>
            rw [h3, hop] at himm
            exact ⟨.fenceI f.rd f.rs1 f.imm12, himm, trivial⟩
          · cases hacc
      | amo => exact exists_amo hop hacc
      | opImm => exact exists_opImm hop hacc
      | opImm32 => exact exists_opImm32 hop hacc
      | op => exact exists_op hop hacc
      | op32 => exact exists_op32 hop hacc
      | madd => exact exists_fma (o := .fmadd) hop (fma_accepted hacc).1 hr (fma_accepted hacc).2
      | msub => exact exists_fma (o := .fmsub) hop (fma_accepted hacc).1 hr (fma_accepted hacc).2
      | nmsub => exact exists_fma (o := .fnmsub) hop (fma_accepted hacc).1 hr (fma_accepted hacc).2
      | nmadd => exact exists_fma (o := .fnmadd) hop (fma_accepted hacc).1 hr (fma_accepted hacc).2
      | opFp => exact exists_opFp hop (opFp_accepted hacc).1 hr (opFp_accepted hacc).2
      | system => exact exists_system hop hs hacc

end

/-! ## Overlooked words are accepted and not defined -/

theorem bits_ne_reserved (rm : RoundingMode) : rm.bits ≠ 5 ∧ rm.bits ≠ 6 := by
  cases rm <;> decide

theorem not_overlookedRounding (e : DecoderEnv) (i : Instr) : ¬OverlookedRounding e i.fields := by
  rintro ⟨-, -, hf, h3⟩
  have hop : i.fields.opcode ∈ [(0x43 : BitVec 7), 0x47, 0x4B, 0x4F, 0x53] := by
    rcases hf with ⟨hop, -⟩ | ⟨hop, -⟩
    · simp only [List.mem_cons, List.not_mem_nil, or_false] at hop ⊢
      tauto
    · simp [hop]
  have hrm : ∀ rm : RoundingMode, ¬(rm.bits = 5 ∨ rm.bits = 6) := by
    intro rm h
    exact h.elim (bits_ne_reserved rm).1 (bits_ne_reserved rm).2
  cases i with
  | fma o w rm rd rs1 rs2 rs3 => exact hrm rm h3
  | fpArith o w rm rd rs1 rs2 => exact hrm rm h3
  | fsqrt w rm rd rs1 => exact hrm rm h3
  | fcvtSD rm rd rs1 => exact hrm rm h3
  | fcvtDS rm rd rs1 => exact hrm rm h3
  | fcvtToInt w k rm rd rs1 => exact hrm rm h3
  | fcvtFromInt w k rm rd rs1 => exact hrm rm h3
  | fpExact o w rd rs1 rs2 => cases o <;> simp [Instr.fields, FpExactOp.funct3] at h3
  | fpMove o w rd rs1 => cases o <;> simp [Instr.fields, FpMoveOp.funct3] at h3
  | _ =>
      simp [Instr.fields, Instr.iType, Instr.sType, Instr.bType, Instr.uType, Instr.jType] at hop

theorem not_overlookedSystem (e : DecoderEnv) (i : Instr) : ¬OverlookedSystem e i.fields := by
  rintro ⟨hop, -, h3⟩
  cases i with
  | csr o rd rs1 c => cases o <;> simp [Instr.fields, Instr.iType, CsrInstr.funct3] at h3
  | ecall => simp [Instr.fields, Instr.iType] at h3
  | ebreak => simp [Instr.fields, Instr.iType] at h3
  | mret => simp [Instr.fields, Instr.iType] at h3
  | sret => simp [Instr.fields, Instr.iType] at h3
  | wfi => simp [Instr.fields, Instr.iType] at h3
  | sfenceVma rs1 rs2 => simp [Instr.fields] at h3
  | fma o w rm rd rs1 rs2 rs3 => cases o <;> simp [Instr.fields, FmaOp.opcode] at hop
  | _ =>
      simp [Instr.fields, Instr.iType, Instr.sType, Instr.bType, Instr.uType, Instr.jType] at hop

section
variable {e : DecoderEnv} {f : Fields}

theorem accepted_of_overlookedSystem (h : OverlookedSystem e f) :
    (control e f).illegalInstr = false := by
  obtain ⟨hop, hp, h3⟩ := h
  have hlow : f.funct3.extractLsb' 0 2 = 0 := by
    rcases h3 with h4 | ⟨h0, -⟩
    · rw [h4]
      decide
    · rw [h0]
      decide
  rw [control_of_opcode e (o := .system) hop]
  simp only [Control.system, hlow, ne_eq, not_true_eq_false, if_false]
  rcases hp with himm | himm | ⟨himm, hm⟩ | ⟨himm, hperm⟩ | ⟨himm, hperm⟩ | ⟨h7, hperm⟩
  · simp [himm]
  · simp [himm]
  · simp [himm, hm]
  · simp [himm, hperm]
  · simp [himm, hperm]
  · have hf7 : f.funct7 = 0x09 := by
      rw [← h7, Fields.imm12, Fields.extract_high _ _ (by omega)]
      exact BitVec.extractLsb'_eq_self.symm
    have hne : ∀ y : BitVec 12, y.extractLsb' 5 7 ≠ 0x09 → f.imm12 ≠ y := by
      intro y hy
      exact imm12_ne (hf7 ▸ hy)
    rw [if_neg (hne 0x000 (by decide)), if_neg (hne 0x001 (by decide)),
      if_neg (hne 0x302 (by decide)), if_neg (hne 0x102 (by decide)),
      if_neg (hne 0x105 (by decide)), if_pos hf7]
    simp [hperm]

theorem opFp_of_rounding (h : f.funct7.extractLsb' 1 6 ∈ [(0x00 : BitVec 6), 0x02, 0x04, 0x06] ∨
    f.funct7.extractLsb' 1 6 = 0x16 ∧ f.rs2 = 0 ∨ f.funct7 = 0x20 ∧ f.rs2 = 1 ∨
    f.funct7 = 0x21 ∧ f.rs2 = 0 ∨
    f.funct7.extractLsb' 1 6 ∈ [(0x30 : BitVec 6), 0x34] ∧ f.rs2 ∈ [(0 : BitVec 5), 1, 2, 3]) :
    (Control.opFp.op f).isNone = false := by
  rcases h with h7 | ⟨h7, h2⟩ | ⟨h7, h2⟩ | ⟨h7, h2⟩ | ⟨h7, h2⟩
  · simp only [List.mem_cons, List.not_mem_nil, or_false] at h7
    rcases h7 with h7 | h7 | h7 | h7 <;> simp [Control.opFp.op, h7]
  · simp [Control.opFp.op, h7, h2]
  · simp [Control.opFp.op, h7, h2]
  · simp [Control.opFp.op, h7, h2]
  · simp only [List.mem_cons, List.not_mem_nil, or_false] at h7 h2
    rcases h7 with h7 | h7 <;> simp only [Control.opFp.op, h7, if_pos h2] <;> rfl

theorem accepted_of_overlookedRounding (h : OverlookedRounding e f) :
    (control e f).illegalInstr = false := by
  obtain ⟨hf, hfs, hr, -⟩ := h
  rcases hr with ⟨hop, h7⟩ | ⟨hop, h7⟩
  · simp only [List.mem_cons, List.not_mem_nil, or_false] at hop
    rcases hop with hop | hop | hop | hop
    · rw [control_of_opcode e (o := .madd) hop, fma_illegalInstr ⟨hf, hfs⟩, h7]
    · rw [control_of_opcode e (o := .msub) hop, fma_illegalInstr ⟨hf, hfs⟩, h7]
    · rw [control_of_opcode e (o := .nmsub) hop, fma_illegalInstr ⟨hf, hfs⟩, h7]
    · rw [control_of_opcode e (o := .nmadd) hop, fma_illegalInstr ⟨hf, hfs⟩, h7]
  · rw [control_of_opcode e (o := .opFp) hop, opFp_illegalInstr ⟨hf, hfs⟩]
    exact opFp_of_rounding h7

end

/-! ## The decoder -/

theorem defined_iff (e : DecoderEnv) (w : BitVec 32) :
    Defined e w ↔ ∃ i : Instr, i.fields = Fields.ofWord w ∧ MayExecute e i := by
  simp only [Defined, Instr.encode_eq_iff]

theorem illegalInstr_iff (e : DecoderEnv) (w : BitVec 32) :
    ((control e (Fields.ofWord w)).illegalInstr = true ↔ ¬Defined e w) ↔ ¬Overlooked e w := by
  rw [defined_iff]
  constructor
  · rintro h (hs | hr)
    · have hacc := accepted_of_overlookedSystem hs
      obtain ⟨i, hi, -⟩ := not_not.mp (mt h.mpr (by simp [hacc]))
      exact not_overlookedSystem e i (hi ▸ hs)
    · have hacc := accepted_of_overlookedRounding hr
      obtain ⟨i, hi, -⟩ := not_not.mp (mt h.mpr (by simp [hacc]))
      exact not_overlookedRounding e i (hi ▸ hr)
  · intro ho
    obtain ⟨hs, hr⟩ := not_or.mp ho
    constructor
    · rintro hill ⟨i, hi, hmay⟩
      have := illegalInstr_of_mayExecute e i hmay
      rw [hi, hill] at this
      cases this
    · intro hnot
      by_contra hacc
      exact hnot (exists_of_accepted hs hr (Bool.not_eq_true _ ▸ hacc))

/-- The decoder raises the exception for an illegal instruction. -/
def FlagsIllegal (e : DecoderEnv) (x : FetchedInstr) : Prop :=
  (decoder e x).exValid = true ∧ (decoder e x).cause = excCauseIllegalInsn

theorem flagsIllegal_eq (e : DecoderEnv) {x : FetchedInstr} (hx : x.exValid = false) :
    FlagsIllegal e x ↔ illegalInstr e x = true := by
  simp only [FlagsIllegal, decoder, decoder.exc, decodeException, hx, Bool.false_eq_true, if_false]
  cases hi : illegalInstr e x with
  | true => simp
  | false =>
      simp only [Bool.false_eq_true, if_false, iff_false]
      split
      · cases e.prv <;> decide
      · split
        · decide
        · simp

/-- For a word that was fetched and decompressed, the decoder is right unless the word is one
of those that it overlooks. -/
theorem flagsIllegal_iff (e : DecoderEnv) (x : FetchedInstr) (hx : x.exValid = false)
    (hc : (decompressed e x).illegal = false) :
    (FlagsIllegal e x ↔ ¬Defined e (decompressed e x).instr) ↔
      ¬Overlooked e (decompressed e x).instr := by
  rw [flagsIllegal_eq e hx, illegalInstr, hc, Bool.false_or]
  exact illegalInstr_iff e _

/-- User mode, with the given floating-point configuration and state. -/
def userEnv (rv64f : Rv64f) (fs : BitVec 2) : DecoderEnv where
  rv64f := rv64f
  prv := .u
  status := ⟨false, false, false, false, false, false, fs, .u, false, false, false, false, false⟩
  csrIllegal := false

/-- A word at address zero. -/
def fetchedWord (w : BitVec 32) : FetchedInstr := ⟨0, .prefetch, w, false, 0, 0⟩

/-- `ADDI x0, x0, 0` is defined. -/
theorem flagsIllegal_iff_nop : ¬FlagsIllegal (userEnv .none 0) (fetchedWord 0x00000013) := by
  have hw : (decompressed (userEnv .none 0) (fetchedWord 0x00000013)).instr = 0x00000013 := by
    decide
  have ho : ¬Overlooked (userEnv .none 0)
      (decompressed (userEnv .none 0) (fetchedWord 0x00000013)).instr := by
    rw [hw]
    rintro (⟨hop, -⟩ | ⟨hf, -⟩)
    · exact absurd hop (by decide)
    · exact absurd hf (by decide)
  have h := (flagsIllegal_iff (userEnv .none 0) (fetchedWord 0x00000013) rfl (by decide)).mpr ho
  rw [h, hw, not_not]
  exact ⟨.opImm .addi 0 0 0, by decide, trivial⟩

/-- A word with `funct3 = 100` and `ECALL` with a destination register execute as `ECALL`, and an
addition with a reserved rounding mode is accepted; none of them is defined. -/
theorem reserved_accepted :
    (¬FlagsIllegal (userEnv .none 0) (fetchedWord 0x00004073) ∧
        ¬Defined (userEnv .none 0) 0x00004073) ∧
      (¬FlagsIllegal (userEnv .none 0) (fetchedWord 0x000000F3) ∧
        ¬Defined (userEnv .none 0) 0x000000F3) ∧
      ¬FlagsIllegal (userEnv .full 3) (fetchedWord 0x00005053) ∧
        ¬Defined (userEnv .full 3) 0x00005053 := by
  refine ⟨⟨by unfold FlagsIllegal; decide, ?_⟩, ⟨by unfold FlagsIllegal; decide, ?_⟩,
    by unfold FlagsIllegal; decide, ?_⟩
  · rw [defined_iff]
    rintro ⟨i, hi, -⟩
    refine not_overlookedSystem (userEnv .none 0) i (hi ▸ ⟨by decide, Or.inl (by decide), ?_⟩)
    exact Or.inl (by decide)
  · rw [defined_iff]
    rintro ⟨i, hi, -⟩
    refine not_overlookedSystem (userEnv .none 0) i (hi ▸ ⟨by decide, Or.inl (by decide), ?_⟩)
    exact Or.inr ⟨by decide, Or.inl (by decide)⟩
  · rw [defined_iff]
    rintro ⟨i, hi, -⟩
    refine not_overlookedRounding (userEnv .full 3) i (hi ▸ ⟨rfl, by decide, Or.inr ?_, ?_⟩)
    · exact ⟨by decide, Or.inl (by decide)⟩
    · exact Or.inl (by decide)

end Muntjac.Pipeline

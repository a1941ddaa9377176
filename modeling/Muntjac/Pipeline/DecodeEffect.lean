import Muntjac.Pipeline.DecodeExec
import Muntjac.Riscv.Compressed

/-!
# The effect of a decoded instruction

What the decoder and the ALU together make of an instruction: the result that is written, the
address, the size and the value of an access to memory, the next program counter, or an exception.

## Main definitions

* `DecodedInstr.effect` — what a decoded instruction asks of the machine.

## Main results

* `effect_decoder` — it is what the instruction set says.
* `Backend.memReq_of_effect` — the request that the backend makes to the data cache.
-/

namespace Muntjac.Pipeline

open Muntjac.Core Riscv

/-- The load with this size and extension. -/
def loadOp (size : Fin 4) (ext : SizeExt) : LoadOp :=
  match size, ext with
  | 0, .signed => .lb
  | 1, .signed => .lh
  | 2, .signed => .lw
  | 0, _ => .lbu
  | 1, _ => .lhu
  | 2, _ => .lwu
  | 3, _ => .ld

/-- The store of this size. -/
def storeOp (size : Fin 4) : StoreOp :=
  match size with
  | 0 => .sb
  | 1 => .sh
  | 2 => .sw
  | 3 => .sd

/-- The access of a floating-point register with this size. -/
def floatWidth (size : Fin 4) : Width := if size = 2 then .word else .double

namespace DecodedInstr

/-- The program counter of the following instruction. -/
def followingPc (d : DecodedInstr) : BitVec 64 := d.pc + if d.compressed then 2 else 4

/-- The effect of a decoded instruction, with the outputs of the ALU.  Instructions that other
units execute have none here. -/
def effect (d : DecodedInstr) (r : RegState) : Option Effect :=
  if d.exValid then some (.exception d.cause)
  else
    match d.opType with
    | .alu => some (.complete (Outcome.visible ⟨some (d.rd, out.result), none, d.followingPc⟩))
    | .jump =>
      some (.complete (Outcome.visible ⟨some (d.rd, d.followingPc), none, target out.sum⟩))
    | .branch =>
      some (.complete
        ⟨none, some out.compareResult,
          if out.compareResult then target out.sum else d.followingPc⟩)
    | .mem =>
      match d.memOp with
      | .load =>
        some (if d.useFrd then
            .fload (floatWidth d.size) d.rd out.sum d.followingPc
          else .load (loadOp d.size d.sizeExt) d.rd out.sum d.followingPc)
      | .store =>
        some (.store (storeOp d.size) out.sum
          (if d.useFrs2 then r.f d.rs2 else r.x d.rs2) d.followingPc)
      | _ => none
    | _ => none
where
  out : AluOut := aluOut d r.x

end DecodedInstr

/-- Floating-point state is implemented and switched on. -/
def DecoderEnv.fpOn (e : DecoderEnv) : Bool := e.rv64f != .none && !e.fsOff

section
variable {e : DecoderEnv} {x : FetchedInstr} {i : Instr} {r : RegState}

/-! ## Exceptions of the decoder -/

theorem illegalInstr_eq (hi : decompressed e x = ⟨i.encode, false⟩) :
    illegalInstr e x = (control e i.fields).illegalInstr := by
  rw [illegalInstr, hi, Instr.encode, Fields.ofWord_toWord]
  rfl

theorem decoder_exc (hi : decompressed e x = ⟨i.encode, false⟩) : decoder.exc e x =
    decodeException e x (control e i.fields).illegalInstr (control e i.fields).ecall
      (control e i.fields).ebreak := by
  rw [decoder.exc, illegalInstr_eq hi, decoder_c hi]

/-- Nothing is wrong with an instruction that may execute and is not a call of the environment. -/
theorem exValid_of_mayExecute (hx : x.exValid = false)
    (hi : decompressed e x = ⟨i.encode, false⟩) (h : MayExecute e i)
    (hc : (control e i.fields).ecall = false) (hb : (control e i.fields).ebreak = false) :
    (decoder e x).exValid = false := by
  show (decoder.exc e x).1 = false
  rw [decoder_exc hi, illegalInstr_of_mayExecute e i h, hc, hb, decodeException, hx]
  rfl

/-- Without an exception, the length of the instruction is that of the word fetched. -/
theorem followingPc_decoder (h : (decoder e x).exValid = false) :
    (decoder e x).followingPc = x.pc + x.length := by
  have hword : (x.instrWord.setWidth 64).extractLsb' 0 2 = x.instrWord.extractLsb' 0 2 :=
    Sync.extractLsb'_setWidth _ (by omega)
  rw [DecodedInstr.followingPc, DecodedInstr.compressed, decoder_tval h, hword,
    FetchedInstr.length]
  by_cases h3 : x.instrWord.extractLsb' 0 2 = 3
  · simp only [h3, bne_self_eq_false, Bool.false_eq_true, if_false, if_true]
    rfl
  · simp only [h3, bne_iff_ne, ne_eq, not_false_eq_true, if_true, if_false]
    rfl

/-! ## Loads and stores -/

theorem sImm_sType (imm : BitVec 12) (rs1 rs2 : BitVec 5) (funct3 : BitVec 3)
    (opcode : BitVec 7) :
    sImm (Instr.sType imm rs1 rs2 funct3 opcode).toWord = imm.signExtend 32 := by
  simp (disch := omega) only [sImm, Fields.toWord, Instr.sType, Fields.extract_high,
    Fields.extract_low, Nat.reduceSub, Nat.sub_self, BitVec.extractLsb'_eq_self]
  rw [BitVec.extractLsb'_append_extractLsb'_eq_extractLsb' (by rfl)]
  exact congrArg (BitVec.signExtend 32) BitVec.extractLsb'_eq_self

/-- The address of an access. -/
theorem mem_sum (hi : decompressed e x = ⟨i.encode, false⟩) {o : Opcode}
    (ho : Opcode.ofBits i.fields.opcode = some o)
    (hs : operandSelect (some o) = (false, true, false))
    (h1 : (control e i.fields).rs1Enable = true) :
    (aluOut (decoder e x) r.x).sum =
      r.x i.fields.rs1 + (immediate i.encode (some o)).signExtend 64 := by
  rw [sum_eq (selected hi ho) (by rw [hs]), hs, h1]
  rfl

/-- The operation of an access, with the registers. -/
theorem decoder_mem (hi : decompressed e x = ⟨i.encode, false⟩) :
    (decoder e x).memOp = (control e i.fields).memOp ∧
      (decoder e x).sizeExt = (control e i.fields).sizeExt ∧
      (decoder e x).useFrs2 = (control e i.fields).useFrs2 := by
  simp only [decoder, decoder_c hi, and_self]

/-- The size and the extension of a load. -/
def loadSize : LoadOp → Fin 4 × SizeExt
  | .lb => (0, .signed)
  | .lh => (1, .signed)
  | .lw => (2, .signed)
  | .ld => (3, .signed)
  | .lbu => (0, .zero)
  | .lhu => (1, .zero)
  | .lwu => (2, .zero)

def storeSize : StoreOp → Fin 4
  | .sb => 0
  | .sh => 1
  | .sw => 2
  | .sd => 3

theorem control_load (o : LoadOp) (rd rs1 : BitVec 5) (imm : BitVec 12) :
    control e (Instr.load o rd rs1 imm).fields =
      { opType := .mem
        size := (loadSize o).1
        sizeExt := (loadSize o).2
        memOp := .load
        rdEnable := true
        rs1Enable := true } := by
  rw [control_of_opcode e (o := .load) rfl]
  cases o <;>
    simp [Control.load, Control.memSize, Instr.fields, Instr.iType, LoadOp.funct3, loadSize] <;> rfl

theorem control_store (o : StoreOp) (rs1 rs2 : BitVec 5) (imm : BitVec 12) :
    control e (Instr.store o rs1 rs2 imm).fields =
      { opType := .mem
        size := storeSize o
        memOp := .store
        rs1Enable := true
        rs2Enable := true } := by
  have hsize : Control.memSize (Instr.store o rs1 rs2 imm).fields = storeSize o := by
    cases o <;> rfl
  have hlegal : (Instr.store o rs1 rs2 imm).fields.funct3.getLsbD 2 = false := by
    change o.funct3.getLsbD 2 = false
    cases o <;> decide
  rw [control_of_opcode e (o := .store) rfl]
  change Control.store _ = _
  rw [Control.store, hsize, hlegal]

theorem effect_load {o : LoadOp} {rd rs1 : BitVec 5} {imm : BitVec 12} (hx : x.exValid = false)
    (hi : decompressed e x = ⟨(Instr.load o rd rs1 imm).encode, false⟩) :
    (decoder e x).effect r =
      some (.load o rd (r.x rs1 + imm.signExtend 64) (x.pc + x.length)) := by
  have hc := control_load (e := e) o rd rs1 imm
  have hv : (decoder e x).exValid = false :=
    exValid_of_mayExecute hx hi trivial (by rw [hc]) (by rw [hc])
  have hd := selected hi (o := .load) rfl
  have hsum := mem_sum (r := r) hi (o := .load) rfl rfl (by rw [hc])
  have hm := decoder_mem hi
  rw [immediate, Instr.encode, Instr.fields, iImm_iType, signExtend_signExtend _ (by omega)] at hsum
  rw [hc] at hd hm
  have hload : loadOp (decoder e x).size (decoder e x).sizeExt = o := by
    rw [hd.size, hm.2.1]
    cases o <;> rfl
  simp only [DecodedInstr.effect, DecodedInstr.effect.out, hv, hd.opType, hm.1, hd.useFrd, hd.rd,
    hload, hsum, followingPc_decoder hv, Bool.false_eq_true, if_false]
  rfl

theorem effect_store {o : StoreOp} {rs1 rs2 : BitVec 5} {imm : BitVec 12} (hx : x.exValid = false)
    (hi : decompressed e x = ⟨(Instr.store o rs1 rs2 imm).encode, false⟩) :
    (decoder e x).effect r =
      some (.store o (r.x rs1 + imm.signExtend 64) (r.x rs2) (x.pc + x.length)) := by
  have hc := control_store (e := e) o rs1 rs2 imm
  have hv : (decoder e x).exValid = false :=
    exValid_of_mayExecute hx hi trivial (by rw [hc]) (by rw [hc])
  have hd := selected hi (o := .store) rfl
  have hsum := mem_sum (r := r) hi (o := .store) rfl rfl (by rw [hc])
  have hm := decoder_mem hi
  rw [immediate, Instr.encode, Instr.fields, sImm_sType, signExtend_signExtend _ (by omega)] at hsum
  rw [hc] at hd hm
  have hstore : storeOp (decoder e x).size = o := by
    rw [hd.size]
    cases o <;> rfl
  simp only [DecodedInstr.effect, DecodedInstr.effect.out, hv, hd.opType, hm.1, hm.2.2, hd.rs2,
    hstore, hsum, followingPc_decoder hv, Bool.false_eq_true, if_false]
  rfl

/-! ### Floating-point registers -/

theorem fpOn_iff : e.fpOn = true ↔ e.rv64f ≠ .none ∧ e.status.fs ≠ 0 := by
  simp [DecoderEnv.fpOn, DecoderEnv.fsOff]

/-- Without floating-point state the instruction is illegal. -/
theorem effect_fpOff (hx : x.exValid = false) (hi : decompressed e x = ⟨i.encode, false⟩)
    (h : (control e i.fields).illegalInstr = true) :
    (decoder e x).effect r = some (.exception causeIllegal) := by
  have hexc : decoder.exc e x = (true, excCauseIllegalInsn, x.instrWord.setWidth 64) := by
    rw [decoder_exc hi, h, decodeException, hx]
    rfl
  have hv : (decoder e x).exValid = true := congrArg (·.1) hexc
  have hc : (decoder e x).cause = causeIllegal := congrArg (·.2.1) hexc
  rw [DecodedInstr.effect, hv, hc]
  rfl

/-- The size of an access of a floating-point register. -/
def widthSize : Width → Fin 4
  | .word => 2
  | .double => 3

theorem control_fload (w : Width) (rd rs1 : BitVec 5) (imm : BitVec 12) :
    control e (Instr.fload w rd rs1 imm).fields =
      if e.rv64f ≠ .none then
        { opType := .mem
          size := widthSize w
          sizeExt := .one
          memOp := .load
          rdEnable := true
          rs1Enable := true
          useFrd := true
          illegalInstr := e.fsOff }
      else { illegalInstr := true } := by
  rw [control_of_opcode e (o := .loadFp) rfl]
  cases w <;>
    simp [Control.loadFp, Control.memSize, Instr.fields, Instr.iType, Width.funct3, widthSize]

theorem control_fstore (w : Width) (rs1 rs2 : BitVec 5) (imm : BitVec 12) :
    control e (Instr.fstore w rs1 rs2 imm).fields =
      if e.rv64f ≠ .none then
        { opType := .mem
          size := widthSize w
          memOp := .store
          rs1Enable := true
          rs2Enable := true
          useFrs2 := true
          illegalInstr := e.fsOff }
      else { illegalInstr := true } := by
  rw [control_of_opcode e (o := .storeFp) rfl]
  cases w <;>
    simp [Control.storeFp, Control.memSize, Instr.fields, Instr.sType, Width.funct3, widthSize]

theorem effect_fload {w : Width} {rd rs1 : BitVec 5} {imm : BitVec 12} (hx : x.exValid = false)
    (hi : decompressed e x = ⟨(Instr.fload w rd rs1 imm).encode, false⟩) :
    (decoder e x).effect r =
      some (if e.fpOn then .fload w rd (r.x rs1 + imm.signExtend 64) (x.pc + x.length)
        else .exception causeIllegal) := by
  have hc := control_fload (e := e) w rd rs1 imm
  cases hfp : e.fpOn with
  | false =>
      refine effect_fpOff hx hi ?_
      rw [hc]
      split
      · next hf => simpa [DecoderEnv.fpOn, hf] using hfp
      · rfl
  | true =>
      have hon := fpOn_iff.1 hfp
      rw [if_pos hon.1, fsOff_eq_false hon.2] at hc
      have hv : (decoder e x).exValid = false :=
        exValid_of_mayExecute hx hi hon (by rw [hc]) (by rw [hc])
      have hd := selected hi (o := .loadFp) rfl
      have hsum := mem_sum (r := r) hi (o := .loadFp) rfl rfl (by rw [hc])
      have hm := decoder_mem hi
      rw [immediate, Instr.encode, Instr.fields, iImm_iType,
        signExtend_signExtend _ (by omega)] at hsum
      rw [hc] at hd hm
      have hw : floatWidth (decoder e x).size = w := by
        rw [hd.size]
        cases w <;> rfl
      simp only [DecodedInstr.effect, DecodedInstr.effect.out, hv, hd.opType, hm.1, hd.useFrd,
        hd.rd, hw, hsum, followingPc_decoder hv, Bool.false_eq_true, if_false, if_true]
      rfl

theorem effect_fstore {w : Width} {rs1 rs2 : BitVec 5} {imm : BitVec 12} (hx : x.exValid = false)
    (hi : decompressed e x = ⟨(Instr.fstore w rs1 rs2 imm).encode, false⟩) :
    (decoder e x).effect r =
      some (if e.fpOn then
          .store w.storeOp (r.x rs1 + imm.signExtend 64) (r.f rs2) (x.pc + x.length)
        else .exception causeIllegal) := by
  have hc := control_fstore (e := e) w rs1 rs2 imm
  cases hfp : e.fpOn with
  | false =>
      refine effect_fpOff hx hi ?_
      rw [hc]
      split
      · next hf => simpa [DecoderEnv.fpOn, hf] using hfp
      · rfl
  | true =>
      have hon := fpOn_iff.1 hfp
      rw [if_pos hon.1, fsOff_eq_false hon.2] at hc
      have hv : (decoder e x).exValid = false :=
        exValid_of_mayExecute hx hi hon (by rw [hc]) (by rw [hc])
      have hd := selected hi (o := .storeFp) rfl
      have hsum := mem_sum (r := r) hi (o := .storeFp) rfl rfl (by rw [hc])
      have hm := decoder_mem hi
      rw [immediate, Instr.encode, Instr.fields, sImm_sType,
        signExtend_signExtend _ (by omega)] at hsum
      rw [hc] at hd hm
      have hw : storeOp (decoder e x).size = w.storeOp := by
        rw [hd.size]
        cases w <;> rfl
      simp only [DecodedInstr.effect, DecodedInstr.effect.out, hv, hd.opType, hm.1, hm.2.2, hd.rs2,
        hw, hsum, followingPc_decoder hv, Bool.false_eq_true, if_false, if_true]
      rfl

theorem effect_ebreak (hx : x.exValid = false)
    (hi : decompressed e x = ⟨Instr.ebreak.encode, false⟩) :
    (decoder e x).effect r = some (.exception causeBreakpoint) := by
  have hexc : decoder.exc e x = (true, excCauseBreakpoint, 0) := by
    rw [decoder_exc hi, decodeException, hx]
    rfl
  have hv : (decoder e x).exValid = true := congrArg (·.1) hexc
  have hc : (decoder e x).cause = causeBreakpoint := congrArg (·.2.1) hexc
  rw [DecodedInstr.effect, hv, hc]
  rfl

theorem effect_of_exec (hx : x.exValid = false) (hi : decompressed e x = ⟨i.encode, false⟩)
    {o : Outcome} (ho : i.exec x.pc x.length r.x = some o) :
    (decoder e x).effect r = some (.complete o.visible) := by
  have hv : (decoder e x).exValid = false := by
    cases i with
    | shiftImm c =>
        exact exValid_of_mayExecute hx hi trivial (by rw [control_shiftImm])
          (by rw [control_shiftImm])
    | branch c | opImm c | shiftImmW c | op c | opW c =>
        cases c <;> exact exValid_of_mayExecute hx hi trivial rfl rfl
    | lui | auipc | jal | jalr | addiw => exact exValid_of_mayExecute hx hi trivial rfl rfl
    | _ => cases ho
  have he := executes_of_exec r.zero hi ho
  rw [← followingPc_decoder hv] at he
  generalize decoder e x = d at hv he
  rw [DecodedInstr.effect, hv]
  cases he with
  | alu hc =>
      simp only [Bool.false_eq_true, if_false, hc.opType, hc.rd, DecodedInstr.effect.out, hc.result]
  | jump hop hf =>
      simp only [Bool.false_eq_true, if_false, hop]
      rfl
  | branch hop hf hrd =>
      simp only [Bool.false_eq_true, if_false, hop]
      rfl

/-- An instruction of RV64I, or a load or store of a floating-point register, has the effect that
the instruction set says. -/
theorem effect_decoder (hx : x.exValid = false) (hi : decompressed e x = ⟨i.encode, false⟩)
    {f : Effect} (hf : i.effect e.fpOn x.pc x.length r = some f) :
    (decoder e x).effect r = some f := by
  cases i with
  | load o rd rs1 imm => exact effect_load hx hi ▸ hf
  | store o rs1 rs2 imm => exact effect_store hx hi ▸ hf
  | fload w rd rs1 imm => exact effect_fload hx hi ▸ hf
  | fstore w rs1 rs2 imm => exact effect_fstore hx hi ▸ hf
  | ebreak => exact effect_ebreak hx hi ▸ hf
  | _ =>
      simp only [Instr.effect] at hf
      obtain ⟨o, ho, rfl⟩ := Option.map_eq_some_iff.1 hf
      exact effect_of_exec hx hi ho

end

/-! ## The backend -/

namespace Backend
variable {p : BackendParams} {s : Backend p} {inp : BackendIn} {r : RegState}

/-- The operands of the instruction in the decode register come from `r`. -/
structure ReadsState (s : Backend p) (inp : BackendIn) (r : RegState) : Prop where
  rs1 : (s.exRs1 inp).1 = r.x s.deExDecoded.rs1
  rs2 : (s.exRs2 inp).1 = r.x s.deExDecoded.rs2
  frs2 : (s.exFrs2 inp).1 = r.f s.deExDecoded.rs2

theorem followingPc_eq_npc (hp : p.Supported) (h : p.LegalPc s.deExDecoded.pc) :
    s.deExDecoded.followingPc = s.npc := (npc_eq hp h).symm

/-- The data cache is asked for the access `f`, and the program goes on behind it. -/
def Requests (s : Backend p) (inp : BackendIn) (q : MemReq) : Effect → Prop
  | .load o rd a n =>
    (q.op = .load ∧ q.address = a ∧ loadOp q.size q.sizeExt = o) ∧
      (s.step inp).ex1.rd = rd ∧ (s.step inp).ex1.useFrd = false ∧ (s.step inp).exExpectedPcQ = n
  | .fload w rd a n =>
    (q.op = .load ∧ q.address = a ∧ floatWidth q.size = w) ∧
      (s.step inp).ex1.rd = rd ∧ (s.step inp).ex1.useFrd = true ∧ (s.step inp).exExpectedPcQ = n
  | .store o a v n =>
    (q.op = .store ∧ q.address = a ∧ q.value = v ∧ storeOp q.size = o) ∧
      (s.step inp).exExpectedPcQ = n
  | _ => False

/-- An access to memory is made with the address, the size and the value of its effect. -/
theorem requests_of_issue (hp : p.Supported) (h : s.exIssue inp = true)
    (hpc : p.LegalPc s.deExDecoded.pc) (hr : s.ReadsState inp r)
    (hop : s.deExDecoded.opType = .mem) {f : Effect} (hf : s.deExDecoded.effect r = some f) :
    ∃ q, s.memReq inp = some q ∧ s.Requests inp q f := by
  have hv := exValid_of_exIssue h
  have hprov : s.exIssueProvisional inp = true := by
    rw [exIssue, Bool.and_eq_true] at h
    exact h.1
  have hsum : alu s.deExDecoded (s.exRs1 inp).1 (s.exRs2 inp).1 = aluOut s.deExDecoded r.x := by
    rw [aluOut, hr.rs1, hr.rs2]
  have hex := step_ex1_of_exIssue h
  have hnext : (s.step inp).exExpectedPcQ = s.deExDecoded.followingPc := by
    rw [followingPc_eq_npc hp hpc]
    simp only [step, nextExExpectedPcQ, h, if_true, hop]
  refine ⟨_, by rw [memReq, hprov, hop]; rfl, ?_⟩
  simp only [DecodedInstr.effect, DecodedInstr.effect.out, hv, hop, Bool.false_eq_true,
    if_false] at hf
  cases hm : s.deExDecoded.memOp with
  | load =>
      simp only [hm] at hf
      cases hfrd : s.deExDecoded.useFrd with
      | true =>
          simp only [hfrd, if_true, Option.some.injEq] at hf
          subst hf
          exact ⟨⟨rfl, congrArg AluOut.sum hsum, rfl⟩, by rw [hex], by rw [hex]; exact hfrd, hnext⟩
      | false =>
          simp only [hfrd, Bool.false_eq_true, if_false, Option.some.injEq] at hf
          subst hf
          exact ⟨⟨rfl, congrArg AluOut.sum hsum, rfl⟩, by rw [hex], by rw [hex]; exact hfrd, hnext⟩
  | store =>
      simp only [hm, Option.some.injEq] at hf
      subst hf
      exact ⟨⟨rfl, congrArg AluOut.sum hsum, by rw [hr.frs2, hr.rs2], rfl⟩, hnext⟩
  | lr | sc | amo =>
      simp only [hm] at hf
      cases hf

end Backend

end Muntjac.Pipeline

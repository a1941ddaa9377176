import Mathlib.Data.List.Induction
import Muntjac.Pipeline.BackendTrap
import Muntjac.Pipeline.Decoder

/-!
# Operand forwarding

The operands of an instruction come from EX1, from EX2 or from a register file.  In every
run they are the values that the program order asks for, and a value that a unit has given
stays in the pipeline until it is written.

## Main definitions

* `BackendSys.writer` — the youngest instruction that writes a register.
* `BackendSys.ReadsReg` — a value is what this instruction writes.
* `BackendSys.Kept` — a value has been written, or waits in a stage.

## Main results

* `BackendSys.forwarding_exact` — the operands of every instruction that is issued.
-/

namespace Muntjac.Pipeline

open Sync

/-! ## Last elements -/

section Last
variable {α : Type*} (f : α → ℕ)

/-- In an ordered list the last element is the largest one. -/
theorem getLast?_of_max {l : List α} (hl : (l.map f).Pairwise (· < ·)) {a : α} (ha : a ∈ l)
    (hmax : ∀ x ∈ l, f x ≤ f a) : l.getLast? = some a := by
  induction l using List.reverseRecOn with
  | nil => simp at ha
  | append_singleton l b _ =>
      rw [List.map_append, List.pairwise_append] at hl
      rw [List.getLast?_concat]
      rcases List.mem_append.mp ha with ha | ha
      · have hlt := hl.2.2 (f a) (List.mem_map.mpr ⟨a, ha, rfl⟩) (f b) (by simp)
        have hle := hmax b (by simp)
        omega
      · rw [List.mem_singleton.mp ha]

theorem max_of_getLast? {l : List α} (hl : (l.map f).Pairwise (· < ·)) {a : α}
    (ha : l.getLast? = some a) : ∀ x ∈ l, f x ≤ f a := by
  induction l using List.reverseRecOn with
  | nil => simp at ha
  | append_singleton l b _ =>
      rw [List.map_append, List.pairwise_append] at hl
      rw [List.getLast?_concat, Option.some.injEq] at ha
      subst ha
      intro x hx
      rcases List.mem_append.mp hx with hx | hx
      · exact (hl.2.2 (f x) (List.mem_map.mpr ⟨x, hx, rfl⟩) (f b) (by simp)).le
      · rw [List.mem_singleton.mp hx]

end Last

namespace Backend
variable {p : BackendParams} {s : Backend p} {i : BackendIn}

/-! ## The register files -/

/-- Register `r`, of the floating-point file if `f` is set. -/
def reg (s : Backend p) (f : Bool) (r : BitVec 5) : BitVec 64 :=
  if f then s.fpRegisters r else s.registers r

/-- The write goes to this register. -/
def RegWrite.goesTo (w : RegWrite) (f : Bool) (r : BitVec 5) : Bool := w.useFrd == f && w.rd == r

/-- The configuration has the register. -/
def HasReg (p : BackendParams) (f : Bool) : Prop := f = true → p.rv64f ≠ .none

theorem reg_step (s : Backend p) (i : BackendIn) {f : Bool} (hf : HasReg p f) (r : BitVec 5) :
    (s.step i).reg f r =
      (((s.regWrite i).filter fun w => w.goesTo f r).map RegWrite.data).getD (s.reg f r) := by
  cases hw : s.regWrite i with
  | none => cases f <;> simp [reg, step, nextRegisters, nextFpRegisters, hw]
  | some w =>
      cases f with
      | false =>
          have hg : (!w.useFrd && w.rd == r) = w.goesTo false r := by simp [RegWrite.goesTo]
          simp only [reg, step, nextRegisters, hw, hg, Bool.false_eq_true, if_false, Option.filter]
          split_ifs <;> rfl
      | true =>
          have hp : (p.rv64f != .none) = true := by simpa using hf rfl
          have hg : (w.useFrd && w.rd == r) = w.goesTo true r := by simp [RegWrite.goesTo]
          simp only [reg, step, nextFpRegisters, hw, if_true, hp, Bool.true_and, hg, Option.filter]
          split_ifs <;> rfl

/-! ## The bypass -/

/-- The stage writes register `r`. -/
def writesReg (e : ExStage p) (f : Bool) (r : BitVec 5) : Bool :=
  e.pending && (e.useFrd == f && e.rd == r)

theorem writesInt_eq {r : BitVec 5} (hr : r ≠ 0) (e : ExStage p) :
    writesInt e false r = writesReg e false r := by
  have hr' : (r != 0) = true := bne_iff_ne.mpr hr
  simp only [writesInt, writesReg, hr', Bool.and_true]
  cases e.pending <;> cases e.useFrd <;> rfl

theorem writesFp_eq (r : BitVec 5) (e : ExStage p) : writesFp e true r = writesReg e true r := by
  simp [writesFp, writesReg, Bool.and_assoc]

/-- Where an operand comes from if it need not be waited for. -/
theorem bypass_cases {writes : ExStage p → Bool} {x : BitVec 64}
    (h : (s.bypass i writes x).2 = false) :
    (writes s.ex1 = true ∧ ∃ r, s.ex1Data i = some r ∧ (s.bypass i writes x).1 = r.data) ∨
      (writes s.ex1 = false ∧ writes s.ex2 = true ∧
        ∃ r, s.ex2Data i = some r ∧ (s.bypass i writes x).1 = r.data) ∨
      (writes s.ex1 = false ∧ writes s.ex2 = false ∧ (s.bypass i writes x).1 = x) := by
  simp only [bypass, Bool.or_eq_false_iff, Bool.and_eq_false_iff, Option.isNone_eq_false_iff] at h
  obtain ⟨h2, h1⟩ := h
  cases hw1 : writes s.ex1 with
  | true =>
      obtain ⟨r, hr⟩ := Option.isSome_iff_exists.mp (h1.resolve_left (by simp [hw1]))
      exact .inl ⟨rfl, r, hr, by simp [bypass, hw1, hr, Option.filter]⟩
  | false =>
      cases hw2 : writes s.ex2 with
      | true =>
          obtain ⟨r, hr⟩ := Option.isSome_iff_exists.mp (h2.resolve_left (by simp [hw2]))
          refine .inr (.inl ⟨rfl, rfl, r, hr, ?_⟩)
          cases hd : s.ex1Data i <;> simp [bypass, hw1, hw2, hr, hd, Option.filter]
      | false => exact .inr (.inr ⟨rfl, rfl, by simp [bypass, hw1, hw2]⟩)

/-- Nothing that is issued waits for an operand. -/
theorem dataHazard_of_issues (h : s.issues i = true) : s.dataHazard i = false := by
  simp only [issues, Bool.or_eq_true] at h
  rcases h with h | h
  · exact (BackendSys.exIssue_iff.mp h).2.1
  · obtain ⟨-, -, -, h1, h2, -⟩ := BackendSys.sysIssue_iff.mp h
    have hfrs : ∀ m u r, (s.exFrs i m u r).2 = false := by
      intro m u r
      unfold exFrs
      split <;> simp [bypass, writesFp, h1, h2]
    simp [dataHazard, exRs1, exRs2, exFrs1, exFrs2, exFrs3, hfrs, bypass, writesInt, h1, h2]

end Backend

namespace BackendSys
variable {p : BackendParams}

/-! ## Program order -/

/-- The youngest instruction that was issued, not taken back, and writes the register. -/
def writer (s : BackendSys p) (f : Bool) (r : BitVec 5) : Option ℕ :=
  (s.issued.filter fun k => !s.squashed k && decide (Backend.dest (s.instr k) = (f, r))).getLast?

/-- The last write to the register. -/
def lastWrite (log : List (ℕ × Backend.RegWrite)) (f : Bool) (r : BitVec 5) :
    Option (ℕ × Backend.RegWrite) :=
  (log.filter fun e => e.2.goesTo f r).getLast?

/-- The value `x` is what the program order asks for: the result of the youngest instruction
that writes the register, or the value from before the first one. -/
def ReadsReg (s : BackendSys p) (i : BackendIn) (init : Bool → BitVec 5 → BitVec 64) (f : Bool)
    (r : BitVec 5) (x : BitVec 64) : Prop :=
  match s.writer f r with
  | some k => (s.step i).result k = some x
  | none => x = init f r

/-- The register files hold what was written last. -/
def RegsHold (s : BackendSys p) (init : Bool → BitVec 5 → BitVec 64) : Prop :=
  ∀ f r, Backend.HasReg p f →
    s.backend.reg f r = ((lastWrite s.writes f r).map fun e => e.2.data).getD (init f r)

section Step
variable {s : BackendSys p} {i : BackendIn} {init : Bool → BitVec 5 → BitVec 64}

theorem RegsHold.step (h : s.RegsHold init) : (s.step i).RegsHold init := by
  intro f r hf
  have hreg : (s.step i).backend.reg f r = _ := Backend.reg_step s.backend i hf r
  rw [hreg, h f r hf]
  cases hw : s.backend.regWrite i with
  | none => simp [BackendSys.step, hw]
  | some w =>
      cases hg : w.goesTo f r with
      | true => simp [BackendSys.step, hw, lastWrite, hg, List.filter_append, Option.filter]
      | false => simp [BackendSys.step, hw, lastWrite, hg, List.filter_append, Option.filter]

/-- The writer is the youngest one. -/
theorem writer_eq_some (hs : s.issued.Pairwise (· < ·)) {f : Bool} {r : BitVec 5} {k : ℕ}
    (hk : k ∈ s.issued) (hsq : s.squashed k = false) (hd : Backend.dest (s.instr k) = (f, r))
    (hmax : ∀ j ∈ s.issued, s.squashed j = false → Backend.dest (s.instr j) = (f, r) → j ≤ k) :
    s.writer f r = some k := by
  refine getLast?_of_max id ?_ ?_ fun j hj => ?_
  · rw [List.map_id]
    exact hs.sublist List.filter_sublist
  · exact List.mem_filter.mpr ⟨hk, by simp [hsq, hd]⟩
  · obtain ⟨hj, hc⟩ := List.mem_filter.mp hj
    simp only [Bool.and_eq_true, Bool.not_eq_true', decide_eq_true_eq] at hc
    exact hmax j hj hc.1 hc.2

theorem of_writer (hs : s.issued.Pairwise (· < ·)) {f : Bool} {r : BitVec 5} {k : ℕ}
    (h : s.writer f r = some k) : k ∈ s.issued ∧ s.squashed k = false ∧
      Backend.dest (s.instr k) = (f, r) ∧
      ∀ j ∈ s.issued, s.squashed j = false → Backend.dest (s.instr j) = (f, r) → j ≤ k := by
  obtain ⟨hk, hc⟩ := List.mem_filter.mp (List.mem_of_getLast? h)
  simp only [Bool.and_eq_true, Bool.not_eq_true', decide_eq_true_eq] at hc
  refine ⟨hk, hc.1, hc.2, fun j hj hsq hd => ?_⟩
  refine max_of_getLast? id ?_ h j (List.mem_filter.mpr ⟨hj, by simp [hsq, hd]⟩)
  rw [List.map_id]
  exact hs.sublist List.filter_sublist

theorem writer_eq_none {f : Bool} {r : BitVec 5} (h : s.writer f r = none) {k : ℕ}
    (hk : k ∈ s.issued) (hsq : s.squashed k = false) : Backend.dest (s.instr k) ≠ (f, r) := by
  intro hd
  have hnil := List.getLast?_eq_none_iff.mp h
  have hmem : k ∈ s.issued.filter fun k =>
      !s.squashed k && decide (Backend.dest (s.instr k) = (f, r)) :=
    List.mem_filter.mpr ⟨hk, by simp [hsq, hd]⟩
  rw [hnil] at hmem
  simp at hmem

/-! ## Where the youngest writer is -/

theorem writesReg_dest {e : ExStage p} {f : Bool} {r : BitVec 5}
    (h : Backend.writesReg e f r = true) : e.pending = true ∧ (e.useFrd, e.rd) = (f, r) := by
  simp only [Backend.writesReg, Bool.and_eq_true, beq_iff_eq] at h
  exact ⟨h.1, by rw [h.2.1, h.2.2]⟩

/-- A register that instructions can name: `x0` is not written. -/
def Names (f : Bool) (r : BitVec 5) : Prop := f = true ∨ r ≠ 0

theorem goesTo_effective {w : Backend.RegWrite} {f : Bool} {r : BitVec 5} (hn : Names f r)
    (h : w.goesTo f r = true) : w.effective = true := by
  simp only [Backend.RegWrite.goesTo, Bool.and_eq_true, beq_iff_eq] at h
  rcases hn with rfl | hr
  · simp [Backend.RegWrite.effective, h.1]
  · rw [Backend.RegWrite.effective, h.2, bne_iff_ne.mpr hr, Bool.or_true]

/-- The instruction in EX1 is the youngest of all. -/
theorem Inv.writer_ex1 (h : s.Inv) (hs : s.issued.Pairwise (· < ·)) {f : Bool} {r : BitVec 5}
    (hw : Backend.writesReg s.backend.ex1 f r = true) : s.writer f r = some s.ex1Id := by
  obtain ⟨hp, hd⟩ := writesReg_dest hw
  have hh := h.ex1 hp
  refine writer_eq_some hs hh.issued hh.squashed (hh.dest.symm.trans hd) fun j hj hsq _ => ?_
  rcases h.complete j hj with hsq' | hlog | ⟨hp2, rfl⟩ | ⟨-, rfl⟩
  · simp [hsq] at hsq'
  · obtain ⟨e, he, rfl⟩ := List.mem_map.mp hlog
    exact (h.written1 hp e he).le
  · exact (h.order hp hp2).le
  · exact le_rfl

/-- An instruction in EX1 that writes the register shows in its destination. -/
theorem Inv.ne_ex1 (h : s.Inv) {f : Bool} {r : BitVec 5}
    (hw : Backend.writesReg s.backend.ex1 f r = false) (hp : s.backend.ex1.pending = true) :
    Backend.dest (s.instr s.ex1Id) ≠ (f, r) := by
  intro hd
  have hh := (h.ex1 hp).dest.trans hd
  simp only [Prod.mk.injEq] at hh
  simp [Backend.writesReg, hp, hh] at hw

theorem Inv.ne_ex2 (h : s.Inv) {f : Bool} {r : BitVec 5}
    (hw : Backend.writesReg s.backend.ex2 f r = false) (hp : s.backend.ex2.pending = true)
    (hsq : s.squashed s.ex2Id = false) : Backend.dest (s.instr s.ex2Id) ≠ (f, r) := by
  intro hd
  have hq : s.backend.ex2SquashedQ = false := by
    by_contra hq
    simp [(h.ex2Squashed hp (by simpa using hq)).2.2.1] at hsq
  have hh := (h.ex2 hp hq).dest.trans hd
  simp only [Prod.mk.injEq] at hh
  simp [Backend.writesReg, hp, hh] at hw

/-- An instruction in EX2 that writes a register is not one that is drained. -/
theorem Inv.squashed_of_writesReg (h : s.Inv) {f : Bool} {r : BitVec 5} (hn : Names f r)
    (hw : Backend.writesReg s.backend.ex2 f r = true) : s.backend.ex2SquashedQ = false := by
  obtain ⟨hp, hd⟩ := writesReg_dest hw
  by_contra hq
  obtain ⟨hf, hr, -⟩ := h.ex2Squashed hp (by simpa using hq)
  rw [hf, hr, Prod.mk.injEq] at hd
  rcases hn with hn | hn
  · rw [hn] at hd
    simp at hd
  · exact hn hd.2.symm

theorem Inv.writer_ex2 (h : s.Inv) (hs : s.issued.Pairwise (· < ·)) {f : Bool} {r : BitVec 5}
    (hn : Names f r) (hw1 : Backend.writesReg s.backend.ex1 f r = false)
    (hw : Backend.writesReg s.backend.ex2 f r = true) : s.writer f r = some s.ex2Id := by
  obtain ⟨hp, hd⟩ := writesReg_dest hw
  have hh := h.ex2 hp (h.squashed_of_writesReg hn hw)
  refine writer_eq_some hs hh.issued hh.squashed (hh.dest.symm.trans hd) fun j hj hsq hdj => ?_
  rcases h.complete j hj with hsq' | hlog | ⟨-, rfl⟩ | ⟨hp1, rfl⟩
  · simp [hsq] at hsq'
  · obtain ⟨e, he, rfl⟩ := List.mem_map.mp hlog
    exact (h.written2 hp e he).le
  · exact le_rfl
  · exact absurd hdj (h.ne_ex1 hw1 hp1)

/-- An entry of the log for the register belongs to an instruction that was not taken back. -/
theorem Inv.of_goesTo (h : s.Inv) {f : Bool} {r : BitVec 5} (hn : Names f r)
    {e : ℕ × Backend.RegWrite} (he : e ∈ s.writes) (hg : e.2.goesTo f r = true) :
    e.1 ∈ s.issued ∧ s.squashed e.1 = false ∧ Backend.dest (s.instr e.1) = (f, r) ∧
      s.result e.1 = some e.2.data := by
  obtain ⟨hi, hor⟩ := h.logged e he
  rcases hor with ⟨-, heff⟩ | ⟨hsq, hd, hres⟩
  · simp [goesTo_effective hn hg] at heff
  · simp only [Backend.RegWrite.goesTo, Bool.and_eq_true, beq_iff_eq] at hg
    rw [hg.1, hg.2] at hd
    exact ⟨hi, hsq, hd.symm, hres⟩

/-- If no stage writes the register, its file is up to date. -/
theorem Inv.readsReg_file (h : s.Inv) (henv : s.Env i) (hs : s.issued.Pairwise (· < ·))
    (hregs : s.RegsHold init) {f : Bool} {r : BitVec 5} (hn : Names f r)
    (hf : Backend.HasReg p f) (hw1 : Backend.writesReg s.backend.ex1 f r = false)
    (hw2 : Backend.writesReg s.backend.ex2 f r = false) :
    s.ReadsReg i init f r (s.backend.reg f r) := by
  rw [ReadsReg, hregs f r hf]
  cases hwr : s.writer f r with
  | none =>
      have hnil : lastWrite s.writes f r = none := by
        refine List.getLast?_eq_none_iff.mpr (List.filter_eq_nil_iff.mpr fun e he hg => ?_)
        obtain ⟨hi, hsq, hd, -⟩ := h.of_goesTo hn he hg
        exact writer_eq_none hwr hi hsq hd
      rw [hnil]
      rfl
  | some k =>
      obtain ⟨hk, hsq, hd, hmax⟩ := of_writer hs hwr
      -- the writer has left the pipeline
      have hlog : k ∈ s.writes.map Prod.fst := by
        rcases h.complete k hk with hsq' | hlog | ⟨hp, rfl⟩ | ⟨hp, rfl⟩
        · simp [hsq] at hsq'
        · exact hlog
        · exact absurd hd (h.ne_ex2 hw2 hp hsq)
        · exact absurd hd (h.ne_ex1 hw1 hp)
      obtain ⟨e, he, rfl⟩ := List.mem_map.mp hlog
      obtain ⟨-, hdest, hres⟩ := (h.logged e he).2.resolve_left (by simp [hsq])
      have hg : e.2.goesTo f r = true := by
        have := hdest.trans hd
        simp only [Prod.mk.injEq] at this
        simp [Backend.RegWrite.goesTo, this]
      have hlast : lastWrite s.writes f r = some e := by
        refine getLast?_of_max Prod.fst ?_ (List.mem_filter.mpr ⟨he, hg⟩) fun e' he' => ?_
        · exact h.log.sublist (List.filter_sublist.map _)
        · obtain ⟨he', hg'⟩ := List.mem_filter.mp he'
          obtain ⟨hi', hsq', hd', -⟩ := h.of_goesTo hn he' hg'
          exact hmax e'.1 hi' hsq' hd'
      rw [hlast]
      exact ((h.logged_old henv he).2.trans hres)

/-- An operand that need not be waited for is exact. -/
theorem Inv.readsReg_bypass (h : s.Inv) (henv : s.Env i) (hs : s.issued.Pairwise (· < ·))
    (hregs : s.RegsHold init) {f : Bool} {r : BitVec 5} (hn : Names f r)
    (hf : Backend.HasReg p f) {writes : ExStage p → Bool}
    (hw : ∀ e, writes e = Backend.writesReg e f r)
    (hready : (s.backend.bypass i writes (s.backend.reg f r)).2 = false) :
    s.ReadsReg i init f r (s.backend.bypass i writes (s.backend.reg f r)).1 := by
  rcases Backend.bypass_cases hready with ⟨h1, x, hx, heq⟩ | ⟨h1, h2, x, hx, heq⟩ | ⟨h1, h2, heq⟩
  · rw [hw] at h1
    rw [ReadsReg, h.writer_ex1 hs h1, heq]
    exact h.result_of_ex1Data (writesReg_dest h1).1 hx
  · rw [hw] at h1 h2
    rw [ReadsReg, h.writer_ex2 hs hn h1 h2, heq]
    exact h.result_of_ex2Data (writesReg_dest h2).1 (h.squashed_of_writesReg hn h2) hx
  · rw [hw] at h1 h2
    rw [heq]
    exact h.readsReg_file henv hs hregs hn hf h1 h2

/-! ## The operands of an instruction -/

/-- The decoder lets an instruction use floating-point operands only where the configuration
has their ports. -/
theorem useFrs_of_decoder (e : DecoderEnv) (x : FetchedInstr) :
    ((decoder e x).useFrs1 = true → e.rv64f = .full) ∧
      ((decoder e x).useFrs2 = true → e.rv64f ≠ .none) ∧
      ((decoder e x).useFrs3 = true → e.rv64f = .full) := by
  have hfull : e.rv64f = .full → e.rv64f ≠ .none := by
    intro h
    simp [h]
  have hc : ∀ f, ((control e f).useFrs1 = true → e.rv64f = .full) ∧
      ((control e f).useFrs2 = true → e.rv64f ≠ .none) ∧
      ((control e f).useFrs3 = true → e.rv64f = .full) := by
    intro f
    unfold control
    split <;> simp only [Control.jal, Control.jalr, Control.branch, Control.store,
      Control.storeFp, Control.load, Control.loadFp, Control.amo, Control.lui, Control.opImm,
      Control.opImm32, Control.op, Control.op32, Control.fma, Control.opFp, Control.miscMem,
      Control.system]
    all_goals repeat' split
    all_goals simp_all
  exact hc _

/-- The integer operand `x` for register `r`; `x0` reads as zero. -/
def ReadsInt (s : BackendSys p) (i : BackendIn) (init : Bool → BitVec 5 → BitVec 64)
    (r : BitVec 5) (x : BitVec 64) : Prop :=
  if r = 0 then x = 0 else s.ReadsReg i init false r x

/-- The operands that the instruction in the decode register uses, with the floating-point
registers that the configuration has, are those of the program order. -/
structure Operands (s : BackendSys p) (i : BackendIn) (init : Bool → BitVec 5 → BitVec 64) :
    Prop where
  rs1 : s.backend.deExDecoded.useFrs1 = false →
    s.ReadsInt i init s.backend.deExDecoded.rs1 (s.backend.exRs1 i).1
  rs2 : s.backend.deExDecoded.useFrs2 = false →
    s.ReadsInt i init s.backend.deExDecoded.rs2 (s.backend.exRs2 i).1
  frs1 : p.rv64f = .full → s.backend.deExDecoded.useFrs1 = true →
    s.ReadsReg i init true s.backend.deExDecoded.rs1 (s.backend.exFrs1 i).1
  frs2 : p.rv64f ≠ .none → s.backend.deExDecoded.useFrs2 = true →
    s.ReadsReg i init true s.backend.deExDecoded.rs2 (s.backend.exFrs2 i).1
  frs3 : p.rv64f = .full → s.backend.deExDecoded.useFrs3 = true →
    s.ReadsReg i init true s.backend.deExDecoded.rs3 (s.backend.exFrs3 i).1

theorem Inv.readsInt (h : s.Inv) (henv : s.Env i) (hs : s.issued.Pairwise (· < ·))
    (hregs : s.RegsHold init) {r : BitVec 5}
    (hready : (s.backend.bypass i (fun e => Backend.writesInt e false r)
      (s.backend.readReg r)).2 = false) :
    s.ReadsInt i init r (s.backend.bypass i (fun e => Backend.writesInt e false r)
      (s.backend.readReg r)).1 := by
  unfold ReadsInt
  split_ifs with hr
  · subst hr
    simp [Backend.bypass, Backend.writesInt, Backend.readReg]
  · have hreg : s.backend.readReg r = s.backend.reg false r := by
      rw [Backend.readReg, if_neg hr]
      rfl
    rw [hreg] at hready ⊢
    exact h.readsReg_bypass henv hs hregs (.inr hr) (by simp [Backend.HasReg])
      (Backend.writesInt_eq hr) hready

theorem Inv.readsFp (h : s.Inv) (henv : s.Env i) (hs : s.issued.Pairwise (· < ·))
    (hregs : s.RegsHold init) (hp : p.rv64f ≠ .none) {r : BitVec 5}
    (hready : (s.backend.exFrs i true true r).2 = false) :
    s.ReadsReg i init true r (s.backend.exFrs i true true r).1 := by
  exact h.readsReg_bypass henv hs hregs (.inl rfl) (fun _ => hp) (Backend.writesFp_eq r) hready

theorem Inv.operands (h : s.Inv) (henv : s.Env i) (hs : s.issued.Pairwise (· < ·))
    (hregs : s.RegsHold init) (hi : s.backend.issues i = true) : s.Operands i init := by
  have hd := Backend.dataHazard_of_issues hi
  simp only [Backend.dataHazard, Bool.or_eq_false_iff] at hd
  obtain ⟨⟨⟨⟨h1, h2⟩, hf1⟩, hf2⟩, hf3⟩ := hd
  have hfull : p.rv64f = .full → p.rv64f ≠ .none := by
    intro hp
    simp [hp]
  constructor
  · intro hu
    simp only [Backend.exRs1, hu] at h1 ⊢
    exact h.readsInt henv hs hregs h1
  · intro hu
    simp only [Backend.exRs2, hu] at h2 ⊢
    exact h.readsInt henv hs hregs h2
  · intro hp hu
    simp only [Backend.exFrs1, hu, hp, beq_self_eq_true] at hf1 ⊢
    exact h.readsFp henv hs hregs (hfull hp) hf1
  · intro hp hu
    have hp' : (p.rv64f != .none) = true := bne_iff_ne.mpr hp
    simp only [Backend.exFrs2, hu, hp'] at hf2 ⊢
    exact h.readsFp henv hs hregs hp hf2
  · intro hp hu
    simp only [Backend.exFrs3, hu, hp, beq_self_eq_true] at hf3 ⊢
    exact h.readsFp henv hs hregs (hfull hp) hf3

/-! ## No result is lost -/

/-- The value `x` of instruction `k` has been written to its register, or a stage holds it. -/
inductive Kept (s : BackendSys p) (k : ℕ) (x : BitVec 64) : Prop
  | written (h : (k, ⟨(Backend.dest (s.instr k)).1, (Backend.dest (s.instr k)).2, x⟩) ∈ s.writes)
  | ex2 (hp : s.backend.ex2.pending = true) (hk : s.ex2Id = k)
      (hx : s.backend.ex2.select = .alu ∧ s.backend.ex2.aluData = x)
  | ex1 (hp : s.backend.ex1.pending = true) (hk : s.ex1Id = k)
      (hx : s.backend.ex1.select = .alu ∧ s.backend.ex1.aluData = x)

/-- Instruction `k` has its value `x` and waits for no unit. -/
structure Answered (s : BackendSys p) (k : ℕ) (x : BitVec 64) : Prop where
  issued : k ∈ s.issued
  result : s.result k = some x
  ex1 : s.backend.ex1.pending = true → s.ex1Id = k → s.backend.ex1.select = .alu
  ex2 : s.backend.ex2.pending = true → s.ex2Id = k → s.backend.ex2.select = .alu

theorem Answered.kept {k : ℕ} {x : BitVec 64} (h : s.Answered k x) (hinv : s.Inv)
    (hsq : s.squashed k = false) : s.Kept k x := by
  rcases hinv.complete k h.issued with hsq' | hlog | ⟨hp, hk⟩ | ⟨hp, hk⟩
  · simp [hsq] at hsq'
  · obtain ⟨⟨k, w⟩, he, rfl⟩ := List.mem_map.mp hlog
    obtain ⟨-, hd, hres⟩ := (hinv.logged _ he).2.resolve_left (by simp [hsq])
    rw [h.result, Option.some.injEq] at hres
    refine .written ?_
    rw [← hd, hres]
    exact he
  · have hq : s.backend.ex2SquashedQ = false := by
      by_contra hq
      have := (hinv.ex2Squashed hp (by simpa using hq)).2.2.1
      simp [hk, hsq] at this
    have hsel := h.ex2 hp hk
    have hres := (hinv.ex2 hp hq).result hsel
    rw [hk, h.result, Option.some.injEq] at hres
    exact .ex2 hp hk ⟨hsel, hres.symm⟩
  · have hsel := h.ex1 hp hk
    have hres := (hinv.ex1 hp).result hsel
    rw [hk, h.result, Option.some.injEq] at hres
    exact .ex1 hp hk ⟨hsel, hres.symm⟩

/-- EX1 waits for a unit after a cycle only if it did before, and was not answered. -/
theorem select_ex1_step (hi : s.backend.issues i = false)
    (hp : (s.step i).backend.ex1.pending = true) (hd : (s.backend.ex1Data i).isSome = true) :
    (s.step i).backend.ex1.select = .alu := by
  obtain ⟨hi', -⟩ | ⟨-, hr, ht, -⟩ := ex1_origin hp
  · simp [hi] at hi'
  · change (s.backend.nextEx1 i).select = .alu
    obtain ⟨r, hr'⟩ := Option.isSome_iff_exists.mp hd
    rw [nextEx1_of_not_issues hi, ex1Rest_of_stuck hr ht, hr']

/-- A value that is known in a cycle leaves the instruction without a unit to wait for. -/
theorem Inv.answered_step (h : s.Inv) {k : ℕ} {x : BitVec 64}
    (hk : k ∈ s.issued) (hres : (s.step i).result k = some x)
    (h1 : s.backend.ex1.pending = true → s.ex1Id = k → (s.backend.ex1Data i).isSome = true)
    (h2 : s.backend.ex2.pending = true → s.ex2Id = k → (s.backend.ex2Data i).isSome = true) :
    (s.step i).Answered k x where
  issued := mem_issued_step hk
  result := hres
  ex1 hp hid := by
    rcases ex1_origin hp with ⟨hi, hid'⟩ | ⟨hp', hr, ht, hid'⟩
    · have := h.lt_deId hi hk
      omega
    · have hi : s.backend.issues i = false := by
        by_contra hi
        have hroom := (of_issues (by simpa using hi)).2.2.1
        simp [hr, hp'] at hroom
      exact select_ex1_step hi hp (h1 hp' (hid'.symm.trans hid))
  ex2 hp hid := by
    rcases ex2_origin hp with ⟨hpr, hid'⟩ | ⟨hdr, hid'⟩ | ⟨hp', hnone, hid'⟩
    · have hd := h1 (progresses_iff.mp hpr).1 (hid'.symm.trans hid)
      change (s.backend.nextEx2 i).select = .alu
      rw [(nextEx2_of_progresses hpr).2.2.2.2.1, if_pos hd]
    · -- an operation that is drained has not been answered
      have hnone := (drains_iff.mp hdr).2.2.2
      by_cases hp1 : s.backend.ex1.pending = true
      · have hd := h1 hp1 (hid'.symm.trans hid)
        simp [hnone] at hd
      · have hsel := h.ex1Empty (by simpa using hp1)
        simp [Backend.ex1Data, hsel] at hnone
    · have hd := h2 hp' (hid'.symm.trans hid)
      simp [hnone] at hd

theorem Answered.step {k : ℕ} {x : BitVec 64} (h : s.Answered k x) (hinv : s.Inv) :
    (s.step i).Answered k x := by
  have hnone : s.gives i k = none := by
    refine hinv.gives_none (fun hi => ?_) (fun hs hid => ?_) fun hs hid => ?_
    · have := hinv.lt_deId hi h.issued
      omega
    · exact hs (h.ex2 (pending_of_select2 hinv hs rfl) hid)
    · exact hs (h.ex1 (pending_of_select1 hinv hs rfl) hid)
  refine hinv.answered_step h.issued ((result_step_of_none hnone).trans h.result) ?_ ?_
  · intro hp hid
    simp [Backend.ex1Data, h.ex1 hp hid]
  · intro hp hid
    simp [Backend.ex2Data, h.ex2 hp hid]

/-- The unit whose answer an instruction gets. -/
theorem answer_of_gives {k : ℕ} {x : BitVec 64} (hg : s.gives i k = some x)
    (hd : ¬(s.deId = k ∧ s.backend.issues i = true)) :
    ∃ u r, u ≠ .alu ∧ (s.queue u).head? = some k ∧ Backend.unitResp p i u = some r := by
  rw [gives, if_neg hd] at hg
  have hone : ∀ u, s.answer i k u = some x →
      ∃ r, (s.queue u).head? = some k ∧ Backend.unitResp p i u = some r := by
    intro u hu
    unfold answer at hu
    split_ifs at hu with hq
    obtain ⟨r, hr, -⟩ := Option.map_eq_some_iff.mp hu
    exact ⟨r, hq, hr⟩
  simp only [Option.or_eq_some_iff] at hg
  rcases hg with hg | ⟨-, hg | ⟨-, hg | ⟨-, hg⟩⟩⟩
  · obtain ⟨r, hr⟩ := hone _ hg
    exact ⟨.mem, r, by decide, hr⟩
  · obtain ⟨r, hr⟩ := hone _ hg
    exact ⟨.mul, r, by decide, hr⟩
  · obtain ⟨r, hr⟩ := hone _ hg
    exact ⟨.div, r, by decide, hr⟩
  · obtain ⟨r, hr⟩ := hone _ hg
    exact ⟨.fpu, r, by decide, hr⟩

theorem answered_of_gives (hinv : s.Inv) (henv : s.Env i) {k : ℕ} {x : BitVec 64}
    (hg : s.gives i k = some x) : (s.step i).Answered k x := by
  have hres := result_step_of_some hg
  by_cases hd : s.deId = k ∧ s.backend.issues i = true
  · -- the instruction is issued and needs no unit
    obtain ⟨rfl, hi⟩ := hd
    rw [gives, if_pos ⟨rfl, hi⟩] at hg
    have hlt : ∀ j ∈ s.issued, j ≠ s.deId := fun j hj => (hinv.lt_deId hi hj).ne
    refine ⟨?_, hres, fun hp _ => ?_, fun hp hid => ?_⟩
    · simp [BackendSys.step, hi]
    · change (s.backend.nextEx1 i).select = .alu
      rw [(nextEx1_of_issues hi).2.2.2.1]
      unfold Backend.issuedData at hg
      split_ifs at hg ⊢ with hx hu
      · exact hu
      · rfl
    · rcases ex2_origin hp with ⟨hpr, hid'⟩ | ⟨hdr, hid'⟩ | ⟨hp', -, hid'⟩
      · exact absurd (hid'.symm.trans hid) (hlt _ (hinv.ex1 (progresses_iff.mp hpr).1).issued)
      · have ht := (drains_iff.mp hdr).2.1
        simp [(hinv.of_trap henv ht).1] at hi
      · exact absurd (hid'.symm.trans hid) (hlt _ (hinv.ex2_issued hp'))
  · obtain ⟨u, r, hu, hq, hr⟩ := answer_of_gives hg hd
    rcases hinv.head_queue hu hq with ⟨hs, rfl⟩ | ⟨hn, hs, rfl⟩
    · have hp := pending_of_select2 hinv hu hs
      refine hinv.answered_step (hinv.ex2_issued hp) hres (fun hp1 hid => ?_) fun _ _ => ?_
      · have := hinv.order hp1 hp
        omega
      · simp [Backend.ex2Data, hs, hu, hr]
    · have hp := pending_of_select1 hinv hu hs
      refine hinv.answered_step (hinv.ex1 hp).issued hres (fun _ _ => ?_) fun hp2 hid => ?_
      · simp [Backend.ex1Data, hs, hu, hn, hr]
      · have := hinv.order hp hp2
        omega

end Step

/-! ## Runs -/

section Run
variable {s₀ : BackendSys p} {inp : ℕ → BackendIn}

theorem regsHold_after (h0 : s₀.IsReset) (n : ℕ) :
    (after s₀ inp n).RegsHold s₀.backend.reg := by
  induction n with
  | zero =>
      intro f r _
      simp [after, h0.writes, lastWrite]
  | succ n ih => exact ih.step

theorem answered_after (h0 : s₀.IsReset) (hrun : ∀ k, (after s₀ inp k).Env (inp k)) {n m k : ℕ}
    {x : BitVec 64} (hg : (after s₀ inp n).gives (inp n) k = some x) (hm : n < m) :
    (after s₀ inp m).Answered k x := by
  induction m, hm using Nat.le_induction with
  | base => exact answered_of_gives (inv_after h0 hrun n) (hrun n) hg
  | succ m _ ih => exact ih.step (inv_after h0 hrun m)

/-- An instruction is issued with the operands that the program order asks for, and a value
that was computed for an instruction is not lost: the instruction is taken back by a trap,
has written the value, or a stage holds it. -/
theorem forwarding_exact (h0 : s₀.IsReset) (hrun : ∀ k, (after s₀ inp k).Env (inp k)) (n : ℕ) :
    ((after s₀ inp n).backend.issues (inp n) = true →
      (after s₀ inp n).Operands (inp n) s₀.backend.reg) ∧
    ∀ k x, (after s₀ inp n).gives (inp n) k = some x → ∀ m > n,
      (after s₀ inp m).squashed k = true ∨ (after s₀ inp m).Kept k x := by
  refine ⟨fun hi => ?_, fun k x hg m hm => ?_⟩
  · exact (inv_after h0 hrun n).operands (hrun n) (issued_sorted h0 hrun n) (regsHold_after h0 n) hi
  · cases hsq : (after s₀ inp m).squashed k with
    | true => exact .inl rfl
    | false => exact .inr ((answered_after h0 hrun hg hm).kept (inv_after h0 hrun m) hsq)

end Run

/-! ## A product that is ready before an older load -/

/-- A load, a product, and an addition that uses the product.  The load is answered last. -/
def capturedProduct (k : ℕ) : BackendIn :=
  if k = 0 then fetch (smallInstr .mem 1 0x1000 .protChanged)
  else if k = 1 then fetch (smallInstr .mul 2 0x1004 .prefetch)
  else if k = 2 then fetch { smallInstr .alu 3 0x1008 .prefetch with rs1 := 2 }
  else if k = 3 then { quiet with mulResp := some 42 }
  else if k = 5 then { quiet with memResp := some 7 }
  else quiet

theorem env_capturedProduct (k : ℕ) :
    (after smallReset capturedProduct k).Env (capturedProduct k) := by
  by_cases hk : k < 6
  · exact (show ∀ k < 6, (after smallReset capturedProduct k).Env (capturedProduct k) by
      decide) k hk
  · have : capturedProduct k = quiet := by
      simp [capturedProduct, show k ≠ 0 by omega, show k ≠ 1 by omega, show k ≠ 2 by omega,
        show k ≠ 3 by omega, show k ≠ 5 by omega]
    rw [this]
    exact env_quiet _

/-- The product waits in EX1 behind the load, and is bypassed to the addition. -/
theorem forwarding_exact_capturedProduct :
    (after smallReset capturedProduct 5).Operands (capturedProduct 5) smallReset.backend.reg ∧
      ((after smallReset capturedProduct 5).backend.exRs1 (capturedProduct 5)).1 = 42 ∧
      ((after smallReset capturedProduct 5).squashed 1 = true ∨
        (after smallReset capturedProduct 5).Kept 1 42) :=
  ⟨(forwarding_exact isReset_smallReset env_capturedProduct 5).1 (by decide),
    by decide,
    (forwarding_exact isReset_smallReset env_capturedProduct 3).2 1 42 (by decide) 5
      (by decide)⟩

end BackendSys

end Muntjac.Pipeline

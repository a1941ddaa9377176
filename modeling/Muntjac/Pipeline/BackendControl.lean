import Muntjac.Pipeline.BackendTrap
import Muntjac.Pipeline.DecodeExec
import Muntjac.Pipeline.FrontendRedirect

/-!
# The control states of the backend

The backend issues an instruction if its address is the expected one, or, after a
redirection, if it carries the marker of the redirection.  In every state the markers that
are still to come lead to the architectural program counter.

## Main definitions

* `DecodedInstr.successor` — where the program goes on after an instruction.
* `Backend.archPc` — the architectural program counter after a cycle.
* `Backend.Tracks` — what the control state knows about it.

## Main results

* `Backend.Tracks.of_start` — what is taken up is at the architectural program counter.
* `Backend.Tracks.step` — one cycle.
-/

namespace Muntjac.Pipeline

open Riscv

/-! ## The architectural successor -/

/-- The comparison that a condition code stands for. -/
def ConditionCode.holds (c : ConditionCode) (a b : BitVec 64) : Bool :=
  match c with
  | .eq => a == b
  | .ne => a != b
  | .lt => a.slt b
  | .ge => !a.slt b
  | .ltu => a.ult b
  | .geu => !a.ult b

theorem comparator_eq_holds (a b : BitVec 64) (c : ConditionCode) :
    comparator a b (a - b) c = c.holds a b := by
  cases c with
  | eq => rfl
  | ne => rfl
  | lt => exact lt_eq_slt a b
  | ge => exact congrArg (!·) (lt_eq_slt a b)
  | ltu => exact ltu_eq_ult a b
  | geu => exact congrArg (!·) (ltu_eq_ult a b)

namespace DecodedInstr

/-- The length in bytes. -/
def length (d : DecodedInstr) : BitVec 64 := if d.compressed then 2 else 4

/-- The target of a jump or of a branch. -/
def jumpTarget (d : DecodedInstr) (rs1 rs2 : BitVec 64) : BitVec 64 :=
  target ((if d.adderUsePc then d.pc else rs1) + (if d.adderUseImm then d.immSext else rs2))

/-- The branch is taken. -/
def taken (d : DecodedInstr) (rs1 rs2 : BitVec 64) : Bool :=
  d.condition.holds rs1 (if d.useImm then d.immSext else rs2)

/-- Where the program goes on after an instruction with these operands; `epc` is the
exception program counter that `xRET` returns to. -/
def successor (d : DecodedInstr) (rs1 rs2 epc : BitVec 64) : BitVec 64 :=
  match d.opType with
  | .jump => d.jumpTarget rs1 rs2
  | .branch => if d.taken rs1 rs2 then d.jumpTarget rs1 rs2 else d.pc + d.length
  | .system => if d.sysOp = .eret then target epc else d.pc + d.length
  | .alu | .mem | .mul | .div | .fp => d.pc + d.length

end DecodedInstr

theorem target_getLsbD (x : BitVec 64) : (target x).getLsbD 0 = false := by
  simp [target]

theorem target_of_even {x : BitVec 64} (h : x.getLsbD 0 = false) : target x = x := by
  apply BitVec.eq_of_getLsbD_eq
  intro k hk
  by_cases h0 : k = 0
  · subst h0
    rw [h, target_getLsbD]
  · simp only [target, BitVec.getLsbD_and, BitVec.getLsbD_not, hk, decide_true, Bool.true_and]
    simp [h0]

theorem add_length_even {d : DecodedInstr} (h : d.pc.getLsbD 0 = false) :
    (d.pc + d.length).getLsbD 0 = false := by
  have hl : d.length.toNat % 2 = 0 := by
    rw [DecodedInstr.length]
    split <;> rfl
  simp only [BitVec.getLsbD, Nat.testBit_zero, decide_eq_false_iff_not, BitVec.toNat_add] at h ⊢
  omega

theorem DecodedInstr.successor_even {d : DecodedInstr} (h : d.pc.getLsbD 0 = false)
    (rs1 rs2 epc : BitVec 64) : (d.successor rs1 rs2 epc).getLsbD 0 = false := by
  unfold successor
  split
  · exact target_getLsbD _
  · split
    · exact target_getLsbD _
    · exact add_length_even h
  · split
    · exact target_getLsbD _
    · exact add_length_even h
  all_goals exact add_length_even h

/-- A program counter that survives the truncation is one that the pipeline holds. -/
theorem BackendParams.legalPc_of_truncation {p : BackendParams} (hp : p.Supported)
    {d : DecodedInstr} (h : Backend.LegalPc p d) : p.LegalPc d.pc := by
  obtain ⟨h39, h57, -⟩ := hp.logicSextAddrLen_mem
  have hint : d.pc.toInt = (d.pc.setWidth p.logicSextAddrLen).toInt := by
    conv_lhs => rw [← h]
    exact BitVec.toInt_signExtend_of_le (by omega)
  constructor
  · rw [hint]
    exact_mod_cast BitVec.le_toInt _
  · rw [hint]
    exact_mod_cast BitVec.toInt_lt

namespace Backend
variable {p : BackendParams} {s : Backend p} {i : BackendIn}

theorem npc_eq_length (hp : p.Supported) (h : LegalPc p s.deExDecoded) :
    s.npc = s.deExDecoded.pc + s.deExDecoded.length :=
  npc_eq hp (BackendParams.legalPc_of_truncation hp h)

/-- The next program counter that the issue logic computes. -/
theorem nextExExpectedPcQ_of_exIssue (hp : p.Supported) (h : LegalPc p s.deExDecoded)
    (hx : s.exIssue i = true) (epc : BitVec 64) : s.nextExExpectedPcQ i =
      s.deExDecoded.successor (s.exRs1 i).1 (s.exRs2 i).1 epc := by
  have hnpc := npc_eq_length hp h
  have hsys := (BackendSys.ex1_of_exIssue hx).1
  have hcmp : (alu s.deExDecoded (s.exRs1 i).1 (s.exRs2 i).1).compareResult =
      s.deExDecoded.taken (s.exRs1 i).1 (s.exRs2 i).1 := comparator_eq_holds _ _ _
  simp only [nextExExpectedPcQ, hx, if_true, DecodedInstr.successor, hnpc,
    nextExExpectedPcQ.out, nextExExpectedPcQ.target, hcmp]
  cases hop : s.deExDecoded.opType <;> first | exact absurd hop hsys | rfl

/-! ## Markers -/

/-- The marker in the decode register. -/
def deMarker (s : Backend p) : List Marker :=
  if s.deExValid then markerOf s.deExDecoded.pc s.deExDecoded.ifReason else []

/-- The marker that is taken from the frontend in this cycle. -/
def delivered (s : Backend p) (i : BackendIn) : List Marker :=
  ((s.fetched i).map fun d => markerOf d.pc d.ifReason).getD []

/-- The marker of the redirection of this cycle, as the frontend accepts it. -/
def requested (s : Backend p) (i : BackendIn) : List Marker :=
  ((s.redirect i).map fun x => [(Frontend.evenPc x.2, x.1)]).getD []

/-- The instruction in the decode register is neither waited for nor dropped. -/
def Starts (s : Backend p) (i : BackendIn) : Prop :=
  (s.exStateQ = .normal ∨ s.exStateQ = .mispredict ∨ s.exStateQ = .flush) ∧
    s.deExValid = true ∧ s.controlHazard i = false

theorem starts_of_exceptionIssue (h : s.exceptionIssue i = true) :
    s.Starts i ∧ s.deExDecoded.exValid = true := by
  simp only [exceptionIssue, drained, Bool.and_eq_true, Bool.or_eq_true, beq_iff_eq,
    Bool.not_eq_true', or_assoc] at h
  exact ⟨⟨h.1.1.1.1.1, h.1.1.1.1.2, h.1.1.1.2⟩, h.2⟩

theorem starts_of_sysIssue (h : s.sysIssue i = true) : s.Starts i := by
  obtain ⟨hst, hv, hc, -⟩ := BackendSys.sysIssue_iff.mp h
  exact ⟨hst, hv, hc⟩

/-- The architectural program counter after a cycle. -/
def archPc (s : Backend p) (i : BackendIn) (pc : BitVec 64) : BitVec 64 :=
  if (s.exception i).isSome then target i.excTvec
  else if s.issues i then s.deExDecoded.successor (s.exRs1 i).1 (s.exRs2 i).1 i.erEpc
  else pc

/-! ## The invariant -/

/-- The markers lead to `pc`: the last one is at `pc` and ends the flush, the ones before it
do not. -/
def LeadsTo (ms : List Marker) (pc : BitVec 64) : Prop :=
  ∃ old r, ms = old ++ [(pc, r)] ∧ r.isFlush = true ∧ ∀ m ∈ old, m.2.isFlush = false

/-- What the control state knows about the architectural program counter `pc` and the markers
in the frontend. -/
def Knows (s : Backend p) (pc : BitVec 64) (pend : List Marker) : ExState → Prop
  | .normal => s.exExpectedPcQ = pc ∧ pend = []
  | .mispredict => s.exExpectedPcQ = pc ∧ s.deMarker ++ pend = [(pc, .mispredict)]
  | .flush => LeadsTo (s.deMarker ++ pend) pc
  | .int => target s.excTvecQ = pc ∧ ∀ m ∈ pend, m.2.isFlush = false
  | .sys => s.deExValid = true ∧ s.deExDecoded.opType = .system ∧ pend = [] ∧
      s.exExpectedPcQ = s.npc ∧
      if s.deExDecoded.sysOp = .eret then s.sysStateQ = .op ∧ target s.eretPcQ = pc
      else s.npc = pc

structure Tracks (s : Backend p) (pc : BitVec 64) (pend : List Marker) : Prop where
  even : pc.getLsbD 0 = false
  idle : s.sysStateQ = .idle ↔ s.exStateQ ≠ .sys
  knows : s.Knows pc pend s.exStateQ

theorem tracks_of_isReset (h : s.IsReset) : s.Tracks 0 [(0, .fenceI)] where
  even := rfl
  idle := by simp [h.sysStateQ, h.exStateQ]
  knows := by
    rw [h.exStateQ]
    refine ⟨[], .fenceI, ?_, rfl, by simp⟩
    simp [deMarker, h.deExValid]

/-! ### Lists of markers -/

theorem eq_singleton_of_keeps {a : List Marker} {m : Marker} (h : Keeps a [m]) : a = [m] := by
  have hl := h.last
  rcases List.sublist_singleton.mp h.sublist with rfl | rfl
  · simp at hl
  · rfl

theorem eq_nil_of_keeps {a b : List Marker} (h : Keeps (a ++ b) []) : a = [] ∧ b = [] := by
  simpa using h.eq_nil_iff.mpr rfl

theorem LeadsTo.of_keeps {a b : List Marker} {pc : BitVec 64} (hb : LeadsTo b pc)
    (h : Keeps a b) : LeadsTo a pc := by
  obtain ⟨old, r, rfl, hr, hold⟩ := hb
  have hlast : a.getLast? = some (pc, r) := by simpa using h.last
  obtain ⟨old', rfl⟩ : ∃ old', a = old' ++ [(pc, r)] :=
    ⟨a.dropLast, (List.dropLast_append_getLast? _ hlast).symm⟩
  refine ⟨old', r, rfl, hr, fun m hm => hold m ?_⟩
  exact (List.append_sublist_append_right _).mp h.sublist |>.subset hm

theorem LeadsTo.append {a old : List Marker} {pc : BitVec 64} (ha : LeadsTo a pc)
    (hold : ∀ m ∈ old, m.2.isFlush = false) : LeadsTo (old ++ a) pc := by
  obtain ⟨old', r, rfl, hr, hold'⟩ := ha
  refine ⟨old ++ old', r, (List.append_assoc _ _ _).symm, hr, fun m hm => ?_⟩
  rcases List.mem_append.mp hm with hm | hm
  · exact hold m hm
  · exact hold' m hm

/-- A marker that does not end the flush is not the one that is waited for. -/
theorem LeadsTo.of_old {old a : List Marker} {pc : BitVec 64} (h : LeadsTo (old ++ a) pc)
    (hold : ∀ m ∈ old, m.2.isFlush = false) : LeadsTo a pc := by
  induction old with
  | nil => exact h
  | cons m old ih =>
      refine ih ?_ fun m' hm' => hold m' (List.mem_cons_of_mem _ hm')
      obtain ⟨old', r, heq, hr, hold'⟩ := h
      cases old' with
      | nil =>
          have hm : m = (pc, r) := (List.cons.inj heq).1
          have := hold m List.mem_cons_self
          rw [hm, hr] at this
          cases this
      | cons m' old' =>
          exact ⟨old', r, (List.cons.inj heq).2, hr,
            fun x hx => hold' x (List.mem_cons_of_mem _ hx)⟩

theorem leadsTo_singleton {pc : BitVec 64} {r : IfReason} (hr : r.isFlush = true) :
    LeadsTo [(pc, r)] pc := ⟨[], r, rfl, hr, by simp⟩

/-! ### The decode register -/

theorem deMarker_of_reason (hv : s.deExValid = true) (hm : s.deExDecoded.ifReason.marked = true) :
    s.deMarker = [(s.deExDecoded.pc, s.deExDecoded.ifReason)] := by
  simp [deMarker, hv, markerOf, hm]

theorem mem_deMarker {m : Marker} (h : m ∈ s.deMarker) :
    s.deExValid = true ∧ m = (s.deExDecoded.pc, s.deExDecoded.ifReason) := by
  unfold deMarker markerOf at h
  split_ifs at h with hv hm
  · exact ⟨hv, List.mem_singleton.mp h⟩
  · simp at h
  · simp at h

theorem deMarker_step_of_ready (h : s.fetchReady i = true) :
    (s.step i).deMarker = s.delivered i := by
  have hkeep : (s.deExValid && !s.deExReady i) = false := by
    unfold fetchReady at h
    cases hv : s.deExValid <;> simp_all
  cases hf : s.fetched i with
  | none => simp [deMarker, delivered, step, nextDeExValid, hf, hkeep]
  | some d => simp [deMarker, delivered, step, nextDeExValid, hf]

/-- An instruction that waits stays in the decode register. -/
theorem step_of_stalled (hv : s.deExValid = true) (h : s.deExReady i = false) :
    (s.step i).deExValid = true ∧ (s.step i).deExDecoded = s.deExDecoded ∧
      s.delivered i = [] := by
  have hf : s.fetched i = none := by simp [fetched, fetchReady, hv, h]
  simp [step, nextDeExValid, hf, hv, h, delivered]

theorem deMarker_step_of_stalled (hv : s.deExValid = true) (h : s.deExReady i = false) :
    (s.step i).deMarker = s.deMarker := by
  obtain ⟨hv', hd, -⟩ := step_of_stalled hv h
  simp [deMarker, hv, hv', hd]

theorem fetchReady_of_controlHazard (h : s.controlHazard i = true) : s.fetchReady i = true := by
  simp [fetchReady, deExReady, h]

/-- An instruction that starts but is not issued waits. -/
theorem stalled_of_starts (h : s.Starts i) (hx : s.exIssue i = false) : s.deExReady i = false := by
  obtain ⟨-, hv, hc⟩ := h
  simp only [exIssue, exIssueProvisional, hv, hc] at hx
  simp only [deExReady, hc, Bool.or_false]
  simpa using hx

/-! ### Redirections -/

theorem sysPcRedirect_of_idle (h : s.sysStateQ = .idle) : s.sysPcRedirect i = none := by
  simp [sysPcRedirect, h]

/-- Only a wrong path, the end of a SYSTEM instruction and a trap redirect the frontend. -/
theorem requested_eq_nil (hidle : s.sysStateQ = .idle) (hint : s.exStateQ ≠ .int)
    (h : s.exStateQ = .normal → s.deExValid = true → s.exExpectedPcQ = s.deExDecoded.pc) :
    s.requested i = [] := by
  have hno : (s.exStateQ == .normal && s.deExValid && s.exExpectedPcQ != s.deExDecoded.pc) =
      false := by
    by_contra hne
    simp only [Bool.not_eq_false, Bool.and_eq_true, beq_iff_eq, bne_iff_ne] at hne
    exact hne.2 (h hne.1.1 hne.1.2)
  simp [requested, redirect, hint, sysPcRedirect_of_idle hidle, hno]

theorem requested_of_wrongPath (hidle : s.sysStateQ = .idle) (hst : s.exStateQ = .normal)
    (hv : s.deExValid = true) (hpc : s.exExpectedPcQ ≠ s.deExDecoded.pc) :
    s.requested i = [(target s.exExpectedPcQ, .mispredict)] := by
  simp only [requested, redirect, hst, sysPcRedirect_of_idle hidle, hv]
  simp [hpc]
  rfl

theorem requested_of_starts (hidle : s.sysStateQ = .idle) (h : s.Starts i) :
    s.requested i = [] := by
  obtain ⟨hst, -, hc⟩ := h
  refine requested_eq_nil hidle (by rcases hst with h | h | h <;> simp [h]) fun hn _ => ?_
  simp only [controlHazard, hn, Bool.or_eq_false_iff, bne_eq_false_iff_eq] at hc
  exact hc.1

/-! ### What starts is on the path -/

variable {pc : BitVec 64} {pend pend' : List Marker}

theorem Tracks.of_starts (h : s.Tracks pc pend) (hs : s.Starts i) :
    s.deExDecoded.pc = pc ∧ pend = [] := by
  obtain ⟨hst, hv, hc⟩ := hs
  have hk := h.knows
  rcases hst with hst | hst | hst
  · rw [hst] at hk
    simp only [controlHazard, hst, Bool.or_eq_false_iff, bne_eq_false_iff_eq] at hc
    exact ⟨hc.1.symm.trans hk.1, hk.2⟩
  · rw [hst] at hk
    simp only [controlHazard, hst, Bool.or_eq_false_iff, bne_eq_false_iff_eq] at hc
    have hm := hk.2
    rw [deMarker_of_reason hv (by rw [hc.1]; rfl)] at hm
    obtain ⟨hm, hp⟩ := List.cons.inj hm
    exact ⟨congrArg Prod.fst hm, hp⟩
  · rw [hst] at hk
    simp only [controlHazard, hst, Bool.not_eq_false'] at hc
    have hmark : s.deExDecoded.ifReason.marked = true := by
      cases hr : s.deExDecoded.ifReason <;> simp_all [IfReason.isFlush, IfReason.marked]
    obtain ⟨old, r, heq, -, hold⟩ := hk
    rw [deMarker_of_reason hv hmark] at heq
    cases old with
    | nil =>
        obtain ⟨hm, hp⟩ := List.cons.inj heq
        exact ⟨congrArg Prod.fst hm, hp⟩
    | cons m old =>
        have := hold m List.mem_cons_self
        rw [← (List.cons.inj heq).1] at this
        simp [hc] at this

theorem Tracks.idle_of_starts (h : s.Tracks pc pend) (hs : s.Starts i) : s.sysStateQ = .idle := by
  rw [h.idle]
  rcases hs.1 with h | h | h <;> simp [h]

/-- After a cycle in which an instruction starts, no marker is left. -/
theorem Tracks.quiet_of_starts (h : s.Tracks pc pend) (hs : s.Starts i)
    (hk : Keeps (s.delivered i ++ pend') (pend ++ s.requested i)) :
    s.delivered i = [] ∧ pend' = [] := by
  rw [(h.of_starts hs).2, requested_of_starts (h.idle_of_starts hs) hs] at hk
  exact eq_nil_of_keeps hk

/-! ### One cycle -/

/-- A memory trap comes only in the states that wait for no flush. -/
def TrapState (s : Backend p) (i : BackendIn) : Prop :=
  i.memTrap.isSome = true → s.exStateQ = .normal ∨ s.exStateQ = .mispredict

theorem TrapState.of_starts (ht : s.TrapState i) (hs : s.Starts i) : i.memTrap = none := by
  by_contra hne
  have hsome := Option.isSome_iff_ne_none.mpr hne
  have hc := hs.2.2
  rcases ht hsome with h | h <;> simp [controlHazard, h, memTrapValid, hsome] at hc

theorem not_starts_of_sys (h : s.exStateQ = .sys) : ¬s.Starts i := by
  rintro ⟨h' | h' | h', -⟩ <;> simp [h] at h'

theorem not_starts_of_int (h : s.exStateQ = .int) : ¬s.Starts i := by
  rintro ⟨h' | h' | h', -⟩ <;> simp [h] at h'

/-- What can happen in a cycle. -/
inductive Cycle (s : Backend p) (i : BackendIn) : Prop
  | trap (ht : i.memTrap.isSome = true)
  | exception (ht : i.memTrap = none) (hx : s.exceptionIssue i = true)
  | sys (ht : i.memTrap = none) (hs : s.sysIssue i = true)
  | issue (ht : i.memTrap = none) (hx : s.exIssue i = true)
  | rest (ht : i.memTrap = none) (hx : s.exceptionIssue i = false) (hi : s.issues i = false)

theorem cycle (s : Backend p) (i : BackendIn) : s.Cycle i := by
  cases ht : i.memTrap with
  | some t => exact .trap (by simp [ht])
  | none =>
      cases hx : s.exceptionIssue i with
      | true => exact .exception ht hx
      | false =>
          cases hs : s.sysIssue i with
          | true => exact .sys ht hs
          | false =>
              cases he : s.exIssue i with
              | true => exact .issue ht he
              | false => exact .rest ht hx (by simp [issues, he, hs])

theorem exceptionIssue_of_exIssue (h : s.exIssue i = true) : s.exceptionIssue i = false := by
  simp [exceptionIssue, exValid_of_exIssue h]

theorem exceptionIssue_of_sysIssue (h : s.sysIssue i = true) : s.exceptionIssue i = false := by
  simp [exceptionIssue, (BackendSys.sysIssue_iff.mp h).2.2.2.2.2.1]

theorem not_issues_of_exceptionIssue (h : s.exceptionIssue i = true) : s.issues i = false := by
  by_contra hi
  have hx := (BackendSys.of_issues (by simpa using hi)).2.2.2
  simp [(starts_of_exceptionIssue h).2] at hx

section Trap

theorem exception_of_trap (ht : i.memTrap.isSome = true) : (s.exception i).isSome = true := by
  obtain ⟨t, ht⟩ := Option.isSome_iff_exists.mp ht
  simp [exception, ht]

theorem exception_of_exceptionIssue (h : s.exceptionIssue i = true) :
    (s.exception i).isSome = true := by
  unfold exception
  split
  · rfl
  · simp [h]

theorem exception_eq_none (ht : i.memTrap = none) (h : s.exceptionIssue i = false) :
    s.exception i = none := by
  simp [exception, ht, h]

/-- A memory trap drops the instruction in the decode register. -/
theorem Tracks.step_trap (h : s.Tracks pc pend) (htst : s.TrapState i)
    (ht : i.memTrap.isSome = true)
    (hk : Keeps (s.delivered i ++ pend') (pend ++ s.requested i)) :
    (s.step i).Tracks (target i.excTvec) pend' where
  even := target_getLsbD _
  idle := by
    have hidle : s.sysStateQ = .idle := h.idle.mpr (by rcases htst ht with h | h <;> simp [h])
    have hs : s.sysIssue i = false := by
      by_contra hs
      have hnone := htst.of_starts (starts_of_sysIssue (by simpa using hs))
      simp [hnone] at ht
    simp [step, nextSysStateQ, hidle, hs, nextExStateQ, memTrapValid, ht]
  knows := by
    have hst : (s.step i).exStateQ = .int := by simp [step, nextExStateQ, memTrapValid, ht]
    have hidle : s.sysStateQ = .idle := h.idle.mpr (by rcases htst ht with h | h <;> simp [h])
    have hold : ∀ m ∈ pend ++ s.requested i, m.2.isFlush = false := by
      intro m hm
      have hk := h.knows
      rcases List.mem_append.mp hm with hm | hm
      · rcases htst ht with hn | hn
        · rw [hn] at hk
          simp [hk.2] at hm
        · rw [hn] at hk
          have hmem : m ∈ s.deMarker ++ pend := List.mem_append.mpr (.inr hm)
          rw [hk.2, List.mem_singleton] at hmem
          rw [hmem]
          rfl
      · by_cases hw : s.exStateQ = .normal ∧ s.deExValid = true ∧
            s.exExpectedPcQ ≠ s.deExDecoded.pc
        · rw [requested_of_wrongPath hidle hw.1 hw.2.1 hw.2.2, List.mem_singleton] at hm
          rw [hm]
          rfl
        · rw [requested_eq_nil hidle (by rcases htst ht with h | h <;> simp [h])
            (fun hn hv => by_contra fun hne => hw ⟨hn, hv, hne⟩)] at hm
          simp at hm
    rw [hst]
    refine ⟨?_, fun m hm => hold m (hk.sublist.subset (List.mem_append.mpr (.inr hm)))⟩
    simp [Backend.step, exception_of_trap ht]

/-- So does an exception of the instruction itself, or an interrupt. -/
theorem Tracks.step_exception (h : s.Tracks pc pend) (ht : i.memTrap = none)
    (hx : s.exceptionIssue i = true)
    (hk : Keeps (s.delivered i ++ pend') (pend ++ s.requested i)) :
    (s.step i).Tracks (target i.excTvec) pend' where
  even := target_getLsbD _
  idle := by
    have hs := (starts_of_exceptionIssue hx).1
    have hni := not_issues_of_exceptionIssue hx
    simp only [issues, Bool.or_eq_false_iff] at hni
    simp [step, nextSysStateQ, h.idle_of_starts hs, hni.2, nextExStateQ, memTrapValid, ht, hx]
  knows := by
    have hst : (s.step i).exStateQ = .int := by
      simp [step, nextExStateQ, memTrapValid, ht, hx]
    rw [hst]
    have hp := (h.quiet_of_starts (starts_of_exceptionIssue hx).1 hk).2
    refine ⟨?_, by simp [hp]⟩
    simp [Backend.step, exception_of_exceptionIssue hx]

end Trap

/-- A SYSTEM instruction stays in the decode register. -/
theorem Tracks.step_sys (hp : p.Supported) (h : s.Tracks pc pend) (ht : i.memTrap = none)
    (hs : s.sysIssue i = true) (hlegal : LegalPc p s.deExDecoded)
    (hk : Keeps (s.delivered i ++ pend') (pend ++ s.requested i)) :
    (s.step i).Tracks (s.deExDecoded.successor (s.exRs1 i).1 (s.exRs2 i).1 i.erEpc) pend' := by
  have hstart := starts_of_sysIssue hs
  have hidle := h.idle_of_starts hstart
  have hop := (BackendSys.sysIssue_iff.mp hs).2.2.2.2.2.2
  have hnx := BackendSys.not_exIssue_of_sysIssue hs
  obtain ⟨hv', hd, -⟩ := step_of_stalled hstart.2.1 (stalled_of_starts hstart hnx)
  have hst : (s.step i).exStateQ = .sys := by
    simp [step, nextExStateQ, memTrapValid, ht, exceptionIssue_of_sysIssue hs, hs]
  have hnpc : (s.step i).npc = s.npc := by simp [npc, hd]
  refine ⟨?_, ?_, ?_⟩
  · have hpc := (h.of_starts hstart).1
    exact DecodedInstr.successor_even (by rw [hpc]; exact h.even) _ _ _
  · rw [hst]
    have hne : s.nextSysStateQ i ≠ .idle := by
      simp only [nextSysStateQ, hidle, hs, if_true]
      split
      · split <;> simp
      all_goals simp
    simpa [step] using hne
  · rw [hst]
    refine ⟨hv', by rw [hd]; exact hop, (h.quiet_of_starts hstart hk).2, ?_, ?_⟩
    · rw [hnpc]
      simp [Backend.step, nextExExpectedPcQ, hnx, hs]
    · rw [hd, hnpc]
      simp only [DecodedInstr.successor, hop]
      split_ifs with he
      · simp [Backend.step, nextSysStateQ, hidle, hs, he]
      · exact npc_eq_length hp hlegal

/-- An instruction that is issued ends every wait. -/
theorem Tracks.step_issue (hp : p.Supported) (h : s.Tracks pc pend) (hn : s.exStateQ ≠ .sys)
    (ht : i.memTrap = none) (hx : s.exIssue i = true) (hlegal : LegalPc p s.deExDecoded)
    (hk : Keeps (s.delivered i ++ pend') (pend ++ s.requested i)) :
    (s.step i).Tracks (s.deExDecoded.successor (s.exRs1 i).1 (s.exRs2 i).1 i.erEpc) pend' := by
  obtain ⟨hv, -, -, hc, -⟩ := BackendSys.exIssue_iff.mp hx
  have hstart : s.Starts i := by
    refine ⟨?_, hv, hc⟩
    cases hst : s.exStateQ <;> simp_all [controlHazard]
  have hns : s.sysIssue i = false := by
    by_contra hs
    simp [BackendSys.not_exIssue_of_sysIssue (by simpa using hs)] at hx
  have hst : (s.step i).exStateQ = .normal := by
    have hcase : s.caseExState i = .normal := by
      rcases hstart.1 with hst | hst | hst
      · simp only [controlHazard, hst, Bool.or_eq_false_iff] at hc
        simp [caseExState, hst, hc.1]
      · simp only [controlHazard, hst, Bool.or_eq_false_iff, bne_eq_false_iff_eq] at hc
        simp [caseExState, hst, hv, hc.1]
      · simp [caseExState, hst, hx]
    simp [step, nextExStateQ, memTrapValid, ht, exceptionIssue_of_exIssue hx, hns, hcase]
  refine ⟨?_, ?_, ?_⟩
  · have hpc := (h.of_starts hstart).1
    exact DecodedInstr.successor_even (by rw [hpc]; exact h.even) _ _ _
  · rw [hst]
    simp [step, nextSysStateQ, h.idle_of_starts hstart, hns]
  · rw [hst]
    exact ⟨nextExExpectedPcQ_of_exIssue hp hlegal hx _, (h.quiet_of_starts hstart hk).2⟩

/-! ### Cycles without an instruction -/

section Rest
variable (ht : i.memTrap = none) (hx : s.exceptionIssue i = false) (hi : s.issues i = false)
include ht hx hi

theorem nextExStateQ_of_rest : (s.step i).exStateQ = s.caseExState i := by
  simp only [issues, Bool.or_eq_false_iff] at hi
  simp [step, nextExStateQ, memTrapValid, ht, hx, hi.2]

omit ht hx in
theorem nextExExpectedPcQ_of_rest : (s.step i).exExpectedPcQ = s.exExpectedPcQ := by
  simp only [issues, Bool.or_eq_false_iff] at hi
  simp [step, nextExExpectedPcQ, hi]

omit ht hx in
theorem nextSysStateQ_of_rest (hidle : s.sysStateQ = .idle) : (s.step i).sysStateQ = .idle := by
  simp only [issues, Bool.or_eq_false_iff] at hi
  simp [step, nextSysStateQ, hidle, hi.2]

/-- A wrong address is dropped and the frontend is redirected. -/
theorem Tracks.knows_normal (h : s.Tracks pc pend) (hst : s.exStateQ = .normal)
    (hk : Keeps (s.delivered i ++ pend') (pend ++ s.requested i)) :
    (s.step i).Knows pc pend' (s.step i).exStateQ := by
  have hidle : s.sysStateQ = .idle := h.idle.mpr (by simp [hst])
  have hkn := h.knows
  rw [hst] at hkn
  obtain ⟨hpc, rfl⟩ := hkn
  have hexp := nextExExpectedPcQ_of_rest hi
  rw [nextExStateQ_of_rest ht hx hi, caseExState, hst]
  by_cases hw : s.deExValid = true ∧ s.exExpectedPcQ ≠ s.deExDecoded.pc
  · rw [requested_of_wrongPath hidle hst hw.1 hw.2, hpc, target_of_even h.even] at hk
    have hc : s.controlHazard i = true := by simp [controlHazard, hst, hw.2]
    simp only [hw.1, bne_iff_ne.mpr hw.2, Bool.and_self, if_true]
    refine ⟨hexp.trans hpc, ?_⟩
    rw [deMarker_step_of_ready (fetchReady_of_controlHazard hc)]
    exact eq_singleton_of_keeps hk
  · rw [requested_eq_nil hidle (by simp [hst]) fun _ hv => by_contra fun hne => hw ⟨hv, hne⟩] at hk
    have hno : (s.deExValid && s.exExpectedPcQ != s.deExDecoded.pc) = false := by
      simpa using hw
    simp only [hno, Bool.false_eq_true, if_false]
    exact ⟨hexp.trans hpc, (eq_nil_of_keeps hk).2⟩

/-- The marker of the last redirection is waited for. -/
theorem Tracks.knows_mispredict (h : s.Tracks pc pend) (hst : s.exStateQ = .mispredict)
    (hk : Keeps (s.delivered i ++ pend') (pend ++ s.requested i)) :
    (s.step i).Knows pc pend' (s.step i).exStateQ := by
  have hidle : s.sysStateQ = .idle := h.idle.mpr (by simp [hst])
  have hkn := h.knows
  rw [hst] at hkn
  obtain ⟨hpc, hm⟩ := hkn
  have hexp := nextExExpectedPcQ_of_rest hi
  rw [requested_eq_nil hidle (by simp [hst]) (by simp [hst]), List.append_nil] at hk
  rw [nextExStateQ_of_rest ht hx hi, caseExState, hst]
  by_cases hw : s.deExValid = true ∧ s.deExDecoded.ifReason = .mispredict
  · have hstart : s.Starts i := by
      refine ⟨.inr (.inl hst), hw.1, ?_⟩
      simp [controlHazard, hst, hw.2, memTrapValid, ht]
    rw [(h.of_starts hstart).2] at hk
    simp only [hw.1, hw.2, beq_self_eq_true, Bool.and_self, if_true]
    exact ⟨hexp.trans hpc, (eq_nil_of_keeps hk).2⟩
  · have hno : (s.deExValid && s.deExDecoded.ifReason == .mispredict) = false := by
      simpa using hw
    simp only [hno, Bool.false_eq_true, if_false]
    -- the marker is not in the decode register
    have hde : s.deMarker = [] := by
      by_contra hne
      obtain ⟨m, hm'⟩ := List.exists_mem_of_ne_nil _ hne
      have hmem : m ∈ s.deMarker ++ pend := List.mem_append.mpr (.inl hm')
      obtain ⟨hv, heq⟩ := mem_deMarker hm'
      rw [hm, List.mem_singleton, heq] at hmem
      exact hw ⟨hv, congrArg Prod.snd hmem⟩
    rw [hde, List.nil_append] at hm
    have hready : s.fetchReady i = true := by
      cases hv : s.deExValid with
      | false => simp [fetchReady, hv]
      | true =>
          have hr : s.deExDecoded.ifReason ≠ .mispredict := fun hr => hw ⟨hv, hr⟩
          exact fetchReady_of_controlHazard (by simp [controlHazard, hst, hr])
    refine ⟨hexp.trans hpc, ?_⟩
    rw [deMarker_step_of_ready hready]
    exact eq_singleton_of_keeps (hm ▸ hk)

/-- A marker that ends the flush is waited for. -/
theorem Tracks.knows_flush (h : s.Tracks pc pend) (hst : s.exStateQ = .flush)
    (hk : Keeps (s.delivered i ++ pend') (pend ++ s.requested i)) :
    (s.step i).Knows pc pend' (s.step i).exStateQ := by
  have hidle : s.sysStateQ = .idle := h.idle.mpr (by simp [hst])
  have hnx : s.exIssue i = false := by
    simp only [issues, Bool.or_eq_false_iff] at hi
    exact hi.1
  have hm : LeadsTo (s.deMarker ++ pend) pc := by
    have hkn := h.knows
    rwa [hst] at hkn
  rw [requested_eq_nil hidle (by simp [hst]) (by simp [hst]), List.append_nil] at hk
  have hnext : (s.step i).exStateQ = .flush := by
    rw [nextExStateQ_of_rest ht hx hi]
    simp [caseExState, hst, hnx]
  rw [hnext]
  change LeadsTo _ pc
  by_cases hw : s.deExValid = true ∧ s.deExDecoded.ifReason.isFlush = true
  · have hstart : s.Starts i := by
      refine ⟨.inr (.inr hst), hw.1, ?_⟩
      simp [controlHazard, hst, hw.2]
    rw [(h.of_starts hstart).2] at hk hm
    rw [deMarker_step_of_stalled hw.1 (stalled_of_starts hstart hnx), (eq_nil_of_keeps hk).2]
    exact hm
  · have hready : s.fetchReady i = true := by
      cases hv : s.deExValid with
      | false => simp [fetchReady, hv]
      | true =>
          have hr : s.deExDecoded.ifReason.isFlush = false := by simpa [hv] using hw
          exact fetchReady_of_controlHazard (by simp [controlHazard, hst, hr])
    rw [deMarker_step_of_ready hready]
    refine (hm.of_old fun m hm' => ?_).of_keeps hk
    obtain ⟨hv, rfl⟩ := mem_deMarker hm'
    simpa [hv] using hw

/-- The trap vector is requested. -/
theorem Tracks.knows_int (h : s.Tracks pc pend) (hst : s.exStateQ = .int)
    (hk : Keeps (s.delivered i ++ pend') (pend ++ s.requested i)) :
    (s.step i).Knows pc pend' (s.step i).exStateQ := by
  have hkn := h.knows
  rw [hst] at hkn
  obtain ⟨hpc, hold⟩ := hkn
  have hreq : s.requested i = [(pc, .protChanged)] := by
    rw [← hpc]
    simp [requested, redirect, hst]
    rfl
  have hc : s.controlHazard i = true := by simp [controlHazard, hst]
  have hnext : (s.step i).exStateQ = .flush := by
    rw [nextExStateQ_of_rest ht hx hi]
    simp [caseExState, hst]
  rw [hnext]
  change LeadsTo _ pc
  rw [deMarker_step_of_ready (fetchReady_of_controlHazard hc)]
  rw [hreq] at hk
  exact LeadsTo.of_keeps ((leadsTo_singleton rfl).append hold) hk

omit ht hx hi in
/-- What the redirection of a SYSTEM instruction asks for. -/
theorem sysPcRedirect_flush {x : IfReason × BitVec 64} (h : s.sysPcRedirect i = some x) :
    x.1.isFlush = true ∧ s.sysReady i = true ∧
      x.2 = if s.sysStateQ = .op ∧ s.deExDecoded.sysOp = .eret then s.eretPcQ else s.npc := by
  unfold sysPcRedirect at h
  split at h
  · cases h
  · cases h
  · next hop =>
    simp only [sysReady, hop, true_and]
    split at h
    · next hc =>
      split_ifs at h
      cases h
      simp [hc, IfReason.isFlush]
    · next hc => cases h; simp [hc, IfReason.isFlush]
    · next hc => cases h; simp [hc, IfReason.isFlush]
    · cases h
    · cases h
  · next hop =>
    split_ifs at h with hr
    cases h
    simp [sysReady, hop, hr, IfReason.isFlush]
  · next hop =>
    split_ifs at h with hr
    cases h
    simp [sysReady, hop, hr, IfReason.isFlush]

/-- The SYSTEM instruction waits, or is dropped and the program goes on behind it. -/
theorem Tracks.knows_sys (h : s.Tracks pc pend) (hst : s.exStateQ = .sys)
    (hk : Keeps (s.delivered i ++ pend') (pend ++ s.requested i)) :
    (s.step i).Knows pc pend' (s.step i).exStateQ := by
  have hkn := h.knows
  rw [hst] at hkn
  obtain ⟨hv, hop, rfl, hexp, hpc⟩ := hkn
  have hexp' := nextExExpectedPcQ_of_rest hi
  have hreq : s.requested i =
      ((s.sysPcRedirect i).map fun x => [(target x.2, x.1)]).getD [] := by
    simp [requested, redirect, hst]
    rfl
  rw [nextExStateQ_of_rest ht hx hi, caseExState, hst]
  cases hr : s.sysReady i with
  | false =>
      have hnone : s.sysPcRedirect i = none := by
        by_contra hne
        obtain ⟨x, hx'⟩ := Option.ne_none_iff_exists'.mp hne
        simp [(sysPcRedirect_flush hx').2.1] at hr
      rw [hreq, hnone] at hk
      have hstall : s.deExReady i = false := by
        rw [BackendSys.deExReady_of_system hop]
        simp [controlHazard, hst, hr]
      obtain ⟨hv', hd, -⟩ := step_of_stalled hv hstall
      have hnpc : (s.step i).npc = s.npc := by simp [npc, hd]
      have hne : s.deExDecoded.sysOp ≠ .eret := by
        intro he
        rw [if_pos he] at hpc
        simp [sysReady, hpc.1] at hr
      simp only [Bool.false_eq_true, if_false]
      refine ⟨hv', by rw [hd]; exact hop, (eq_nil_of_keeps hk).2, ?_, ?_⟩
      · rw [hexp', hexp, hnpc]
      · rw [hd, if_neg hne, hnpc]
        simpa [hne] using hpc
  | true =>
      have hc : s.controlHazard i = true := by simp [controlHazard, hst, hr]
      have hready := deMarker_step_of_ready (fetchReady_of_controlHazard hc)
      simp only [if_true]
      cases hred : s.sysPcRedirect i with
      | none =>
          rw [hreq, hred] at hk
          have hne : s.deExDecoded.sysOp ≠ .eret := by
            intro he
            rw [if_pos he] at hpc
            simp [sysPcRedirect, hpc.1, he] at hred
          rw [if_neg hne] at hpc
          simp only [Option.isSome_none, Bool.false_eq_true, if_false]
          exact ⟨hexp'.trans (hexp.trans hpc), (eq_nil_of_keeps hk).2⟩
      | some x =>
          obtain ⟨hflush, -, hx2⟩ := sysPcRedirect_flush hred
          have htarget : target x.2 = pc := by
            rw [hx2]
            by_cases he : s.deExDecoded.sysOp = .eret
            · rw [if_pos he] at hpc
              rw [if_pos ⟨hpc.1, he⟩, hpc.2]
            · rw [if_neg he] at hpc
              rw [if_neg fun hc => he hc.2, hpc, target_of_even h.even]
          rw [hreq, hred] at hk
          simp only [Option.isSome_some, if_true]
          change LeadsTo _ pc
          rw [hready]
          refine (leadsTo_singleton hflush).of_keeps ?_
          simpa [htarget] using hk

theorem Tracks.step_rest (h : s.Tracks pc pend)
    (hk : Keeps (s.delivered i ++ pend') (pend ++ s.requested i)) :
    (s.step i).Tracks pc pend' where
  even := h.even
  idle := by
    by_cases hst : s.exStateQ = .sys
    · have hne : s.sysStateQ ≠ .idle := fun hidle => h.idle.mp hidle hst
      rw [nextExStateQ_of_rest ht hx hi]
      cases hq : s.sysStateQ <;> cases hr : s.sysReady i <;>
        simp_all [step, nextSysStateQ, caseExState]
      all_goals split_ifs <;> simp
    · have hidle := h.idle.mpr hst
      rw [nextExStateQ_of_rest ht hx hi, nextSysStateQ_of_rest hi hidle]
      refine iff_of_true rfl ?_
      unfold caseExState
      cases hq : s.exStateQ <;> simp_all
      all_goals split_ifs <;> simp
  knows := by
    cases hst : s.exStateQ with
    | normal => exact h.knows_normal ht hx hi hst hk
    | mispredict => exact h.knows_mispredict ht hx hi hst hk
    | flush => exact h.knows_flush ht hx hi hst hk
    | int => exact h.knows_int ht hx hi hst hk
    | sys => exact h.knows_sys ht hx hi hst hk

end Rest

/-- One cycle of the backend. -/
theorem Tracks.step (hp : p.Supported) (h : s.Tracks pc pend) (htst : s.TrapState i)
    (hsys : s.exStateQ = .sys → s.exIssue i = false)
    (hlegal : s.deExValid = true → s.deExDecoded.exValid = false → LegalPc p s.deExDecoded)
    (hk : Keeps (s.delivered i ++ pend') (pend ++ s.requested i)) :
    (s.step i).Tracks (s.archPc i pc) pend' := by
  rcases s.cycle i with ht | ⟨ht, hx⟩ | ⟨ht, hs⟩ | ⟨ht, hx⟩ | ⟨ht, hx, hi⟩
  · rw [archPc, if_pos (exception_of_trap ht)]
    exact h.step_trap htst ht hk
  · rw [archPc, if_pos (exception_of_exceptionIssue hx)]
    exact h.step_exception ht hx hk
  · obtain ⟨-, hv, -, -, -, hex, -⟩ := BackendSys.sysIssue_iff.mp hs
    rw [archPc, exception_eq_none ht (exceptionIssue_of_sysIssue hs)]
    simp only [issues, hs, Bool.or_true, Option.isSome_none, Bool.false_eq_true, if_false, if_true]
    exact h.step_sys hp ht hs (hlegal hv hex) hk
  · have hv := (BackendSys.exIssue_iff.mp hx).1
    rw [archPc, exception_eq_none ht (exceptionIssue_of_exIssue hx)]
    simp only [issues, hx, Bool.true_or, Option.isSome_none, Bool.false_eq_true, if_false, if_true]
    refine h.step_issue hp (fun hst => ?_) ht hx (hlegal hv (exValid_of_exIssue hx)) hk
    simp [hsys hst] at hx
  · rw [archPc, exception_eq_none ht hx, hi]
    simp only [Option.isSome_none, Bool.false_eq_true, if_false]
    exact h.step_rest ht hx hi hk

end Backend

end Muntjac.Pipeline

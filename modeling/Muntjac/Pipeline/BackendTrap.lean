import Mathlib.Order.Nat
import Muntjac.Pipeline.Backend

/-!
# Memory traps of the backend

Instructions are numbered when they enter the decode register, and the stages and the
units are followed by these numbers.  Every unit answers its operations in order; the data
cache delivers a response one cycle after it was decided, so a response and the exception
of the next access may come in the same cycle.

## Main definitions

* `BackendSys.step` — one cycle of the backend with the numbers in flight and the log of
  register writes.
* `BackendSys.trapped` — the instruction whose exception the data cache raises.
* `BackendSys.Inv` — the stages and the units hold the same instructions, in order.
-/

namespace Muntjac.Pipeline

open Sync

/-- The backend with the numbers of the instructions in flight.  `queue` holds the
operations that a unit has not answered, `result` what the units and the ALU gave. -/
structure BackendSys (p : BackendParams) where
  backend : Backend p
  nextId : ℕ
  deId : ℕ
  ex1Id : ℕ
  ex2Id : ℕ
  instr : ℕ → DecodedInstr
  queue : FuncUnit → List ℕ
  issued : List ℕ
  squashed : ℕ → Bool
  result : ℕ → Option (BitVec 64)
  writes : List (ℕ × Backend.RegWrite)

namespace Backend
variable {p : BackendParams}

/-- An instruction enters EX1. -/
def issues (s : Backend p) (i : BackendIn) : Bool := s.exIssue i || s.sysIssue i

/-- The value of an instruction that needs no unit. -/
def issuedData (s : Backend p) (i : BackendIn) : Option (BitVec 64) :=
  if s.exIssue i then
    if s.deExDecoded.opType.unit = .alu then some (s.aluDataD i) else none
  else if s.sysIssue i then some i.csrRead
  else none

/-- The register that an instruction writes. -/
def dest (d : DecodedInstr) : Bool × BitVec 5 :=
  if d.opType = .system then (false, d.rd) else (d.useFrd, d.rd)

/-- The program counter survives the truncation to the width of the pipeline. -/
def LegalPc (p : BackendParams) (d : DecodedInstr) : Prop :=
  (d.pc.setWidth p.logicSextAddrLen).signExtend 64 = d.pc

end Backend

namespace BackendSys
variable {p : BackendParams}

/-- The memory operations that are left after the response of this cycle. -/
def memQueue (s : BackendSys p) (i : BackendIn) : List ℕ :=
  if i.memResp.isSome then (s.queue .mem).tail else s.queue .mem

/-- The instruction whose exception is raised in this cycle. -/
def trapped (s : BackendSys p) (i : BackendIn) : Option ℕ :=
  if i.memTrap.isSome then (s.memQueue i).head? else none

/-- The operations of a unit after the answers of this cycle. -/
def answeredQueue (s : BackendSys p) (i : BackendIn) : FuncUnit → List ℕ
  | .mem => if i.memTrap.isSome then (s.memQueue i).tail else s.memQueue i
  | u => if (Backend.unitResp p i u).isSome then (s.queue u).tail else s.queue u

/-- The value that a unit gives to instruction `k` in this cycle. -/
def answer (s : BackendSys p) (i : BackendIn) (k : ℕ) (u : FuncUnit) : Option (BitVec 64) :=
  if (s.queue u).head? = some k then (Backend.unitResp p i u).map UnitResp.data else none

/-- The value that the units or the ALU give to instruction `k` in this cycle. -/
def gives (s : BackendSys p) (i : BackendIn) (k : ℕ) : Option (BitVec 64) :=
  if s.deId = k ∧ s.backend.issues i = true then s.backend.issuedData i
  else (s.answer i k .mem).or <| (s.answer i k .mul).or <| (s.answer i k .div).or <|
    s.answer i k .fpu

def step (s : BackendSys p) (i : BackendIn) : BackendSys p where
  backend := s.backend.step i
  nextId := if (s.backend.fetched i).isSome then s.nextId + 1 else s.nextId
  deId := if (s.backend.fetched i).isSome then s.nextId else s.deId
  ex1Id := if s.backend.issues i then s.deId else s.ex1Id
  ex2Id := if s.backend.progresses i || s.backend.drains i then s.ex1Id else s.ex2Id
  instr := fun k => if k = s.nextId then (s.backend.fetched i).getD (s.instr k) else s.instr k
  queue := fun u => s.answeredQueue i u ++
    if s.backend.exIssue i && s.backend.deExDecoded.opType.unit == u then [s.deId] else []
  issued := s.issued ++ if s.backend.issues i then [s.deId] else []
  squashed := fun k => s.squashed k ||
    (match s.trapped i with
      | some j => decide (j ≤ k ∧ k < s.nextId)
      | none => false)
  result := fun k => (s.gives i k).or (s.result k)
  writes := s.writes ++ ((s.backend.regWrite i).map fun w => (s.ex2Id, w)).toList

/-- The rules of the units, of the data cache and of the frontend: a unit answers what was
issued to it, an exception belongs to the access in the cache, behind which nothing else
was accepted, and an instruction without an exception has a legal program counter. -/
structure Env (s : BackendSys p) (i : BackendIn) : Prop where
  asked : ∀ u, (Backend.unitResp p i u).isSome = true → s.queue u ≠ []
  trapAsked : i.memTrap.isSome = true → ∃ j, s.memQueue i = [j]
  legal : ∀ d, i.fetch = some d → d.exValid = false → Backend.LegalPc p d

structure IsReset (s : BackendSys p) : Prop where
  backend : s.backend.IsReset
  queue : ∀ u, s.queue u = []
  issued : s.issued = []
  squashed : ∀ k, s.squashed k = false
  writes : s.writes = []

/-- A stage holds the instruction `k`. -/
structure Holds (s : BackendSys p) (e : ExStage p) (k : ℕ) : Prop where
  pc : e.pc = (s.instr k).pc.setWidth _
  dest : (e.useFrd, e.rd) = Backend.dest (s.instr k)
  legal : Backend.LegalPc p (s.instr k)
  issued : k ∈ s.issued
  squashed : s.squashed k = false
  result : e.select = .alu → s.result k = some e.aluData

/-- The stages and the units hold the same instructions, in order, and the log has one
entry for each instruction that has left EX2. -/
structure Inv (s : BackendSys p) : Prop where
  ex1 : s.backend.ex1.pending = true → s.Holds s.backend.ex1 s.ex1Id
  ex1Empty : s.backend.ex1.pending = false → s.backend.ex1.select = .alu
  ex2 : s.backend.ex2.pending = true → s.backend.ex2SquashedQ = false →
    s.Holds s.backend.ex2 s.ex2Id
  ex2Squashed : s.backend.ex2.pending = true → s.backend.ex2SquashedQ = true →
    s.backend.ex2.useFrd = false ∧ s.backend.ex2.rd = 0 ∧ s.squashed s.ex2Id = true ∧
      s.ex2Id ∈ s.issued ∧ s.backend.ex2.select ≠ .mem
  ex2Empty : s.backend.ex2.pending = false → s.backend.ex2.select = .alu
  queue : ∀ u, u ≠ .alu → s.queue u =
    (if s.backend.ex2.select = u then [s.ex2Id] else []) ++
      if s.backend.ex1.select = u then [s.ex1Id] else []
  order : s.backend.ex1.pending = true → s.backend.ex2.pending = true → s.ex2Id < s.ex1Id
  written1 : s.backend.ex1.pending = true → ∀ e ∈ s.writes, e.1 < s.ex1Id
  written2 : s.backend.ex2.pending = true → ∀ e ∈ s.writes, e.1 < s.ex2Id
  state : s.backend.ex1.select = .mem ∨ s.backend.ex2.select = .mem →
    s.backend.exStateQ = .normal ∨ s.backend.exStateQ = .mispredict
  sys : s.backend.exStateQ = .sys →
    s.backend.deExValid = true ∧ s.backend.deExDecoded.opType = .system
  decode : s.backend.deExValid = true → s.instr s.deId = s.backend.deExDecoded ∧
    s.deId < s.nextId ∧ s.squashed s.deId = false ∧
    (s.backend.deExDecoded.exValid = false → Backend.LegalPc p s.backend.deExDecoded)
  fresh : s.backend.deExValid = true → s.backend.exStateQ ≠ .sys → ∀ k ∈ s.issued, k < s.deId
  issued : ∀ k ∈ s.issued, k < s.nextId
  squashed : ∀ k, s.squashed k = true → k < s.nextId
  log : (s.writes.map Prod.fst).Pairwise (· < ·)
  logged : ∀ e ∈ s.writes, e.1 ∈ s.issued ∧
    (s.squashed e.1 = true ∧ e.2.effective = false ∨
      s.squashed e.1 = false ∧ (e.2.useFrd, e.2.rd) = Backend.dest (s.instr e.1) ∧
        s.result e.1 = some e.2.data)
  complete : ∀ k ∈ s.issued, s.squashed k = true ∨ k ∈ s.writes.map Prod.fst ∨
    (s.backend.ex2.pending = true ∧ s.ex2Id = k) ∨ (s.backend.ex1.pending = true ∧ s.ex1Id = k)

section Step
variable {s : BackendSys p} {i : BackendIn}

/-! ### What a cycle does to the stages -/

theorem exIssue_iff {b : Backend p} : b.exIssue i = true ↔ b.deExValid = true ∧
    b.dataHazard i = false ∧ b.structHazard i = false ∧ b.controlHazard i = false ∧
    b.unitReady i = true := by
  simp [Backend.exIssue, Backend.exIssueProvisional, and_assoc]

theorem deExReady_of_exIssue {b : Backend p} (h : b.exIssue i = true) : b.deExReady i = true := by
  obtain ⟨-, hd, hs, -, hu⟩ := exIssue_iff.mp h
  simp [Backend.deExReady, hd, hs, hu]

/-- What is issued finds room in EX1. -/
theorem ex1_of_exIssue {b : Backend p} (h : b.exIssue i = true) :
    b.deExDecoded.opType ≠ .system ∧ b.deExDecoded.exValid = false ∧
      (b.ex2Ready i = true ∨ b.ex1.pending = false) := by
  obtain ⟨-, -, hs, -, -⟩ := exIssue_iff.mp h
  simp only [Backend.structHazard, Backend.ex1Ready, Bool.or_eq_false_iff, Bool.not_eq_false',
    Bool.or_eq_true, Bool.not_eq_true'] at hs
  exact ⟨by simpa using hs.1.1, hs.2, hs.1.2⟩

theorem sysIssue_iff {b : Backend p} : b.sysIssue i = true ↔
    (b.exStateQ = .normal ∨ b.exStateQ = .mispredict ∨ b.exStateQ = .flush) ∧
      b.deExValid = true ∧ b.controlHazard i = false ∧ b.ex1.pending = false ∧
      b.ex2.pending = false ∧ b.deExDecoded.exValid = false ∧ b.deExDecoded.opType = .system := by
  simp [Backend.sysIssue, Backend.drained, and_assoc, or_assoc]

/-- A SYSTEM instruction and an ordinary one are never issued together. -/
theorem not_exIssue_of_sysIssue {b : Backend p} (h : b.sysIssue i = true) :
    b.exIssue i = false := by
  by_contra hx
  exact (ex1_of_exIssue (by simpa using hx)).1 (sysIssue_iff.mp h).2.2.2.2.2.2

/-- What is issued comes from a valid decode register that no trap clears. -/
theorem of_issues {b : Backend p} (h : b.issues i = true) :
    b.deExValid = true ∧ b.controlHazard i = false ∧
      (b.ex2Ready i = true ∨ b.ex1.pending = false) ∧ b.deExDecoded.exValid = false := by
  simp only [Backend.issues, Bool.or_eq_true] at h
  rcases h with h | h
  · obtain ⟨hv, -, -, hc, -⟩ := exIssue_iff.mp h
    obtain ⟨-, hx, hr⟩ := ex1_of_exIssue h
    exact ⟨hv, hc, hr, hx⟩
  · obtain ⟨-, hv, hc, hp, -, hx, -⟩ := sysIssue_iff.mp h
    exact ⟨hv, hc, .inr hp, hx⟩

/-- EX1 after a cycle that issues. -/
theorem nextEx1_of_issues {b : Backend p} (h : b.issues i = true) :
    (b.nextEx1 i).pending = true ∧ (b.nextEx1 i).pc = b.deExDecoded.pc.setWidth _ ∧
      ((b.nextEx1 i).useFrd, (b.nextEx1 i).rd) = Backend.dest b.deExDecoded ∧
      (b.nextEx1 i).select = (if b.exIssue i then b.deExDecoded.opType.unit else .alu) ∧
      ((b.nextEx1 i).select = .alu → b.issuedData i = some (b.nextEx1 i).aluData) := by
  cases hx : b.exIssue i
  · have hs : b.sysIssue i = true := by simpa [Backend.issues, hx] using h
    have hsys := (sysIssue_iff.mp hs).2.2.2.2.2.2
    simp [Backend.nextEx1, hx, hs, Backend.dest, hsys, Backend.issuedData]
  · have hns := (ex1_of_exIssue hx).1
    simp only [Backend.nextEx1, hx, if_true, Backend.dest, hns, if_false, Backend.issuedData,
      true_and]
    intro hu
    rw [if_pos hu]

/-- EX1 after a cycle that does not issue keeps its instruction only if EX2 is stuck. -/
theorem nextEx1_of_not_issues {b : Backend p} (h : b.issues i = false) :
    b.nextEx1 i = b.ex1Rest i := by
  simp only [Backend.issues, Bool.or_eq_false_iff] at h
  simp [Backend.nextEx1, h]

theorem ex1Rest_of_leaving {b : Backend p} (h : b.ex2Ready i = true ∨ i.memTrap.isSome = true) :
    (b.ex1Rest i).pending = false ∧ (b.ex1Rest i).select = .alu := by
  have : (b.ex2Ready i || Backend.memTrapValid i) = true := by
    simpa [Backend.memTrapValid] using h
  simp [Backend.ex1Rest, this]

theorem ex1Rest_of_stuck {b : Backend p} (h : b.ex2Ready i = false) (ht : i.memTrap = none) :
    b.ex1Rest i = match b.ex1Data i with
      | some r => { b.ex1 with select := .alu, aluData := r.data }
      | none => b.ex1 := by
  rw [Backend.ex1Rest, h, Backend.memTrapValid, ht]
  rfl

/-! ### Traps -/

/-- The access that traps is in EX2, or it is in EX1 and an older access in EX2 is answered
in the same cycle. -/
theorem Inv.trap_cases (h : s.Inv) (henv : s.Env i) (ht : i.memTrap.isSome = true) :
    (s.backend.ex2.select = .mem ∧ s.backend.ex1.select ≠ .mem ∧ i.memResp = none ∧
        s.trapped i = some s.ex2Id) ∨
      (s.backend.ex1.select = .mem ∧ s.trapped i = some s.ex1Id ∧
        (i.memResp.isSome = true ↔ s.backend.ex2.select = .mem)) := by
  obtain ⟨j, hj⟩ := henv.trapAsked ht
  have hq := h.queue .mem (by decide)
  have htr : s.trapped i = some j := by simp [trapped, ht, hj]
  rw [htr]
  simp only [memQueue, hq] at hj
  cases hr : i.memResp with
  | none =>
      simp only [hr, Option.isSome_none, Bool.false_eq_true, if_false] at hj
      split_ifs at hj with h2 h1 h1
      · simp at hj
      · exact .inl ⟨h2, h1, rfl, by simpa using hj.symm⟩
      · exact .inr ⟨h1, by simpa using hj.symm, by simp [h2]⟩
      · simp at hj
  | some r =>
      simp only [hr, Option.isSome_some, if_true] at hj
      split_ifs at hj with h2 h1 h1
      · exact .inr ⟨h1, by simpa using hj.symm, by simp [h2]⟩
      · simp at hj
      · simp at hj
      · simp at hj

/-- In a trap nothing is issued and the decode register is cleared. -/
theorem Inv.of_trap (h : s.Inv) (henv : s.Env i) (ht : i.memTrap.isSome = true) :
    s.backend.issues i = false ∧ s.backend.deExReady i = true := by
  have hst : s.backend.exStateQ = .normal ∨ s.backend.exStateQ = .mispredict := by
    refine h.state ?_
    rcases h.trap_cases henv ht with ⟨h2, -⟩ | ⟨h1, -⟩
    · exact .inr h2
    · exact .inl h1
  have hc : s.backend.controlHazard i = true := by
    rcases hst with hst | hst <;> simp [Backend.controlHazard, hst, Backend.memTrapValid, ht]
  refine ⟨?_, by simp [Backend.deExReady, hc]⟩
  by_contra hi
  simp [(of_issues (by simpa using hi)).2.1] at hc

theorem pending_of_select1 (h : s.Inv) {u : FuncUnit} (hu : u ≠ .alu)
    (hs : s.backend.ex1.select = u) : s.backend.ex1.pending = true := by
  by_contra hp
  exact hu (hs.symm.trans (h.ex1Empty (by simpa using hp)))

theorem pending_of_select2 (h : s.Inv) {u : FuncUnit} (hu : u ≠ .alu)
    (hs : s.backend.ex2.select = u) : s.backend.ex2.pending = true := by
  by_contra hp
  exact hu (hs.symm.trans (h.ex2Empty (by simpa using hp)))

/-- A trap squashes nothing that has left the pipeline. -/
theorem Inv.squashed_step (h : s.Inv) (henv : s.Env i) {k : ℕ}
    (h1 : s.backend.ex1.pending = true → k < s.ex1Id)
    (h2 : s.backend.ex2.select = .mem → i.memResp = none → k < s.ex2Id) :
    (s.step i).squashed k = s.squashed k := by
  cases ht : i.memTrap with
  | none => simp [step, trapped, ht]
  | some t =>
      have hs : i.memTrap.isSome = true := by simp [ht]
      have hnot : ∀ j, s.trapped i = some j → ¬j ≤ k := by
        intro j hj
        rcases h.trap_cases henv hs with ⟨hsel, -, hresp, hj'⟩ | ⟨hsel, hj', -⟩
        · have := h2 hsel hresp
          rw [hj'] at hj
          simp only [Option.some.injEq] at hj
          omega
        · have := h1 (pending_of_select1 h (by decide) hsel)
          rw [hj'] at hj
          simp only [Option.some.injEq] at hj
          omega
      simp only [step]
      cases htr : s.trapped i with
      | none => simp
      | some j => simp [hnot j htr]

/-! ### Results -/

/-- The unit whose next answer goes to instruction `k`. -/
theorem Inv.head_queue (h : s.Inv) {u : FuncUnit} (hu : u ≠ .alu) {k : ℕ}
    (hk : (s.queue u).head? = some k) :
    (s.backend.ex2.select = u ∧ s.ex2Id = k) ∨
      (s.backend.ex2.select ≠ u ∧ s.backend.ex1.select = u ∧ s.ex1Id = k) := by
  rw [h.queue u hu] at hk
  split_ifs at hk with h2 h1 h1
  · exact .inl ⟨h2, by simpa using hk⟩
  · exact .inl ⟨h2, by simpa using hk⟩
  · exact .inr ⟨h2, h1, by simpa using hk⟩
  · simp at hk

/-- An instruction that waits for no unit is given nothing. -/
theorem Inv.gives_none (h : s.Inv) {k : ℕ} (hd : s.backend.issues i = true → s.deId ≠ k)
    (h2 : s.backend.ex2.select ≠ .alu → s.ex2Id ≠ k)
    (h1 : s.backend.ex1.select ≠ .alu → s.ex1Id ≠ k) : s.gives i k = none := by
  have hno : ∀ u, u ≠ .alu → s.answer i k u = none := by
    intro u hu
    refine if_neg fun hk => ?_
    rcases h.head_queue hu hk with ⟨hs, hid⟩ | ⟨-, hs, hid⟩
    · exact h2 (by rw [hs]; exact hu) hid
    · exact h1 (by rw [hs]; exact hu) hid
  rw [gives, if_neg fun hk => hd hk.2 hk.1, hno .mem (by decide), hno .mul (by decide),
    hno .div (by decide), hno .fpu (by decide)]
  rfl

/-- The answer of a unit goes to the instruction that waits for it. -/
theorem Inv.gives_of_head (h : s.Inv) {u : FuncUnit} (hu : u ≠ .alu) {k : ℕ} {r : UnitResp}
    (hd : s.backend.issues i = true → s.deId ≠ k) (hk : (s.queue u).head? = some k)
    (hr : Backend.unitResp p i u = some r) : s.gives i k = some r.data := by
  have hself : s.answer i k u = some r.data := by rw [answer, if_pos hk, hr]; rfl
  have hother : ∀ u', u' ≠ .alu → u' ≠ u → s.answer i k u' = none := by
    intro u' hu' hne
    refine if_neg fun hk' => hne ?_
    rcases h.head_queue hu hk with ⟨hs, hid⟩ | ⟨hn, hs, hid⟩ <;>
      rcases h.head_queue hu' hk' with ⟨hs', hid'⟩ | ⟨hn', hs', hid'⟩
    · rw [← hs, ← hs']
    · have := h.order (pending_of_select1 h hu' hs') (pending_of_select2 h hu hs)
      omega
    · have := h.order (pending_of_select1 h hu hs) (pending_of_select2 h hu' hs')
      omega
    · rw [← hs, ← hs']
  rw [gives, if_neg fun hk => hd hk.2 hk.1]
  cases u
  · exact absurd rfl hu
  · rw [hself]
    rfl
  · rw [hother .mem (by decide) (by decide), hself]
    rfl
  · rw [hother .mem (by decide) (by decide), hother .mul (by decide) (by decide), hself]
    rfl
  · rw [hother .mem (by decide) (by decide), hother .mul (by decide) (by decide),
      hother .div (by decide) (by decide), hself]
    rfl

theorem result_step_of_none {k : ℕ} (h : s.gives i k = none) :
    (s.step i).result k = s.result k := by
  simp [step, h]

theorem result_step_of_some {k : ℕ} {x : BitVec 64} (h : s.gives i k = some x) :
    (s.step i).result k = some x := by
  simp [step, h]

/-! ### The stages after a cycle -/

/-- What is issued is younger than everything issued before. -/
theorem Inv.lt_deId (h : s.Inv) (hi : s.backend.issues i = true) {k : ℕ} (hk : k ∈ s.issued) :
    k < s.deId := by
  refine h.fresh (of_issues hi).1 (fun hst => ?_) k hk
  simp only [Backend.issues, Bool.or_eq_true] at hi
  rcases hi with hi | hi
  · exact (ex1_of_exIssue hi).1 (h.sys hst).2
  · simpa [hst] using (sysIssue_iff.mp hi).1

theorem Inv.instr_step (h : s.Inv) {k : ℕ} (hk : k ∈ s.issued) :
    (s.step i).instr k = s.instr k := by
  have := h.issued k hk
  exact if_neg (by omega)

theorem mem_issued_step {k : ℕ} (hk : k ∈ s.issued) : k ∈ (s.step i).issued :=
  List.mem_append.mpr (.inl hk)

/-- A stage that keeps its instruction, or hands it on. -/
theorem Inv.holds_step (h : s.Inv) {e e' : ExStage p} {k : ℕ} (hh : s.Holds e k)
    (hpc : e'.pc = e.pc) (hdest : (e'.useFrd, e'.rd) = (e.useFrd, e.rd))
    (hsq : (s.step i).squashed k = s.squashed k)
    (hres : e'.select = .alu → (s.step i).result k = some e'.aluData) : (s.step i).Holds e' k where
  pc := by rw [hpc, h.instr_step hh.issued, hh.pc]
  dest := by rw [hdest, h.instr_step hh.issued, hh.dest]
  legal := by rw [h.instr_step hh.issued]; exact hh.legal
  issued := mem_issued_step hh.issued
  squashed := hsq.trans hh.squashed
  result := hres

theorem squashed_step_of_not_trap (ht : i.memTrap = none) : (s.step i).squashed = s.squashed := by
  funext k
  simp [step, trapped, ht]

/-- The result of the instruction in EX1, if it is known in this cycle. -/
theorem Inv.result_of_ex1Data (h : s.Inv) (hp : s.backend.ex1.pending = true) {r : UnitResp}
    (hr : s.backend.ex1Data i = some r) : (s.step i).result s.ex1Id = some r.data := by
  have hh := h.ex1 hp
  have hd : s.backend.issues i = true → s.deId ≠ s.ex1Id := fun hi => by
    have := h.lt_deId hi hh.issued
    omega
  unfold Backend.ex1Data at hr
  split_ifs at hr with ha h2
  · rw [result_step_of_none (h.gives_none hd (fun hs => ?_) (fun hs => absurd ha hs)),
      hh.result ha]
    · simp only [Option.some.injEq] at hr
      rw [← hr]
    · have := h.order hp (pending_of_select2 h hs rfl)
      omega
  · refine result_step_of_some (h.gives_of_head ha hd ?_ hr)
    rw [h.queue _ ha, if_neg h2, if_pos rfl]
    rfl

/-- The result of the instruction in EX2, if it is known in this cycle. -/
theorem Inv.result_of_ex2Data (h : s.Inv) (hp : s.backend.ex2.pending = true)
    (hq : s.backend.ex2SquashedQ = false) {r : UnitResp} (hr : s.backend.ex2Data i = some r) :
    (s.step i).result s.ex2Id = some r.data := by
  have hh := h.ex2 hp hq
  have hd : s.backend.issues i = true → s.deId ≠ s.ex2Id := fun hi => by
    have := h.lt_deId hi hh.issued
    omega
  unfold Backend.ex2Data at hr
  split_ifs at hr with ha
  · rw [result_step_of_none (h.gives_none hd (fun hs => absurd ha hs) (fun hs => ?_)),
      hh.result ha]
    · simp only [Option.some.injEq] at hr
      rw [← hr]
    · have := h.order (pending_of_select1 h hs rfl) hp
      omega
  · refine result_step_of_some (h.gives_of_head ha hd ?_ hr)
    rw [h.queue _ ha, if_pos rfl]
    rfl

theorem Inv.ex1_step (h : s.Inv) (henv : s.Env i)
    (hp : (s.step i).backend.ex1.pending = true) :
    (s.step i).Holds (s.step i).backend.ex1 (s.step i).ex1Id := by
  change (s.backend.nextEx1 i).pending = true at hp
  change (s.step i).Holds (s.backend.nextEx1 i) _
  cases hi : s.backend.issues i
  · have hid : (s.step i).ex1Id = s.ex1Id := by simp [step, hi]
    rw [nextEx1_of_not_issues hi] at hp ⊢
    have hstuck : s.backend.ex2Ready i = false ∧ i.memTrap = none := by
      constructor
      · by_contra hr
        simp [(ex1Rest_of_leaving (i := i) (.inl (by simpa using hr))).1] at hp
      · by_contra ht
        simp [(ex1Rest_of_leaving (i := i) (b := s.backend)
          (.inr (Option.isSome_iff_ne_none.mpr ht))).1] at hp
    rw [ex1Rest_of_stuck hstuck.1 hstuck.2] at hp ⊢
    rw [hid]
    have hsq := congrFun (squashed_step_of_not_trap (s := s) hstuck.2) s.ex1Id
    cases hr : s.backend.ex1Data i with
    | none =>
        rw [hr] at hp
        refine h.holds_step (h.ex1 hp) rfl rfl hsq fun hs => ?_
        simp [Backend.ex1Data, hs] at hr
    | some r =>
        rw [hr] at hp
        exact h.holds_step (h.ex1 hp) rfl rfl hsq fun _ => h.result_of_ex1Data hp hr
  · have hid : (s.step i).ex1Id = s.deId := by simp [step, hi]
    obtain ⟨-, hpc, hdest, -, hdata⟩ := nextEx1_of_issues hi
    obtain ⟨hv, -, -, hx⟩ := of_issues hi
    obtain ⟨hinstr, hlt, hsq, hlegal⟩ := h.decode hv
    have ht : i.memTrap = none := by
      by_contra ht
      simp [(h.of_trap henv (Option.isSome_iff_ne_none.mpr ht)).1] at hi
    have hinstr' : (s.step i).instr s.deId = s.backend.deExDecoded :=
      (if_neg (by omega)).trans hinstr
    rw [hid]
    refine ⟨by rw [hinstr', hpc], by rw [hinstr', hdest], by rw [hinstr']; exact hlegal hx, ?_, ?_,
      fun hs => ?_⟩
    · simp [step, hi]
    · rw [squashed_step_of_not_trap ht, hsq]
    · refine result_step_of_some ?_
      rw [gives, if_pos ⟨rfl, hi⟩]
      exact hdata hs

theorem Inv.ex1Empty_step (hp : (s.step i).backend.ex1.pending = false) (h : s.Inv) :
    (s.step i).backend.ex1.select = .alu := by
  change (s.backend.nextEx1 i).pending = false at hp
  change (s.backend.nextEx1 i).select = .alu
  cases hi : s.backend.issues i
  · rw [nextEx1_of_not_issues hi] at hp ⊢
    by_cases hl : s.backend.ex2Ready i = true ∨ i.memTrap.isSome = true
    · exact (ex1Rest_of_leaving hl).2
    · simp only [not_or, Bool.not_eq_true, Option.isSome_eq_false_iff,
        Option.isNone_iff_eq_none] at hl
      rw [ex1Rest_of_stuck hl.1 hl.2] at hp ⊢
      cases hr : s.backend.ex1Data i with
      | none =>
          rw [hr] at hp
          exact h.ex1Empty hp
      | some r => rfl
  · simp [(nextEx1_of_issues hi).1] at hp

theorem progresses_iff {b : Backend p} : b.progresses i = true ↔
    b.ex1.pending = true ∧ b.ex2Ready i = true ∧ i.memTrap = none := by
  simp [Backend.progresses, Backend.memTrapValid, and_assoc]

theorem drains_iff {b : Backend p} : b.drains i = true ↔ b.ex2.select = .mem ∧
    i.memTrap.isSome = true ∧ b.ex1.select ≠ .mem ∧ b.ex1Data i = none := by
  simp [Backend.drains, Backend.memTrapValid, and_assoc]

theorem ex2Leaves_eq_false {b : Backend p} : b.ex2Leaves i = false ↔
    b.ex2Data i = none ∧ (b.ex2.select = .mem → i.memTrap = none) := by
  simp [Backend.ex2Leaves, Backend.memTrapValid]

/-- EX2 takes over the instruction of EX1. -/
theorem nextEx2_of_progresses {b : Backend p} (h : b.progresses i = true) :
    (b.nextEx2 i).pending = true ∧ b.nextEx2SquashedQ i = false ∧ (b.nextEx2 i).pc = b.ex1.pc ∧
      ((b.nextEx2 i).useFrd, (b.nextEx2 i).rd) = (b.ex1.useFrd, b.ex1.rd) ∧
      (b.nextEx2 i).select = (if (b.ex1Data i).isSome then .alu else b.ex1.select) ∧
      ∀ r, b.ex1Data i = some r → (b.nextEx2 i).aluData = r.data := by
  have hp := (progresses_iff.mp h).1
  cases hr : b.ex1Data i <;> simp [Backend.nextEx2, Backend.nextEx2SquashedQ, h, hr, hp]

/-- EX2 waits for the operation of a cancelled instruction. -/
theorem nextEx2_of_drains {b : Backend p} (h : b.drains i = true) :
    (b.nextEx2 i).pending = true ∧ b.nextEx2SquashedQ i = true ∧
      (b.nextEx2 i).useFrd = false ∧ (b.nextEx2 i).rd = 0 ∧
      (b.nextEx2 i).select = b.ex1.select := by
  have hn : b.progresses i = false := by
    by_contra hp
    have ht := (progresses_iff.mp (by simpa using hp)).2.2
    have hs := (drains_iff.mp h).2.1
    simp [ht] at hs
  simp [Backend.nextEx2, Backend.nextEx2SquashedQ, h, hn]

/-- EX2 becomes empty. -/
theorem nextEx2_of_leaves {b : Backend p} (hp : b.progresses i = false) (hd : b.drains i = false)
    (hl : b.ex2Leaves i = true) : (b.nextEx2 i).pending = false ∧ (b.nextEx2 i).select = .alu := by
  simp [Backend.nextEx2, hp, hd, hl]

/-- EX2 keeps its instruction. -/
theorem nextEx2_of_stays {b : Backend p} (hp : b.progresses i = false) (hd : b.drains i = false)
    (hl : b.ex2Leaves i = false) :
    b.nextEx2 i = b.ex2 ∧ b.nextEx2SquashedQ i = b.ex2SquashedQ := by
  simp [Backend.nextEx2, Backend.nextEx2SquashedQ, hp, hd, hl]

theorem ex2Id_step_of_stays (hp : s.backend.progresses i = false)
    (hd : s.backend.drains i = false) : (s.step i).ex2Id = s.ex2Id := by
  simp [step, hp, hd]

/-- The trap of EX2 squashes the operation that EX2 then waits for. -/
theorem Inv.trapped_of_drains (h : s.Inv) (henv : s.Env i) (hd : s.backend.drains i = true) :
    s.trapped i = some s.ex2Id ∧ i.memResp = none ∧ s.backend.ex1.pending = true := by
  obtain ⟨-, ht, h1, hr⟩ := drains_iff.mp hd
  have hpend : s.backend.ex1.pending = true := by
    by_contra hp
    simp [Backend.ex1Data, h.ex1Empty (by simpa using hp)] at hr
  rcases h.trap_cases henv ht with ⟨-, -, hresp, htr⟩ | ⟨hm, -⟩
  · exact ⟨htr, hresp, hpend⟩
  · exact absurd hm h1

theorem Inv.ex2_step (h : s.Inv) (henv : s.Env i) (hp : (s.step i).backend.ex2.pending = true)
    (hq : (s.step i).backend.ex2SquashedQ = false) :
    (s.step i).Holds (s.step i).backend.ex2 (s.step i).ex2Id := by
  change (s.backend.nextEx2 i).pending = true at hp
  change s.backend.nextEx2SquashedQ i = false at hq
  change (s.step i).Holds (s.backend.nextEx2 i) _
  cases hpr : s.backend.progresses i
  · cases hd : s.backend.drains i
    · cases hl : s.backend.ex2Leaves i
      · -- the instruction stays
        obtain ⟨hnext, hsq⟩ := nextEx2_of_stays hpr hd hl
        obtain ⟨hdata, hnt⟩ := ex2Leaves_eq_false.mp hl
        rw [hnext] at hp ⊢
        rw [hsq] at hq
        rw [ex2Id_step_of_stays hpr hd]
        refine h.holds_step (h.ex2 hp hq) rfl rfl ?_ fun hs => ?_
        · by_cases hm : s.backend.ex2.select = .mem
          · rw [squashed_step_of_not_trap (hnt hm)]
          · exact h.squashed_step henv (fun h1 => h.order h1 hp) fun hm' => absurd hm' hm
        · simp [Backend.ex2Data, hs] at hdata
      · simp [(nextEx2_of_leaves hpr hd hl).1] at hp
    · simp [(nextEx2_of_drains hd).2.1] at hq
  · obtain ⟨hp1, -, ht⟩ := progresses_iff.mp hpr
    obtain ⟨-, -, hpc, hdest, hsel, hdata⟩ := nextEx2_of_progresses hpr
    have hid : (s.step i).ex2Id = s.ex1Id := by simp [step, hpr]
    rw [hid]
    refine h.holds_step (h.ex1 hp1) hpc hdest (by rw [squashed_step_of_not_trap ht]) fun hs => ?_
    cases hr : s.backend.ex1Data i with
    | none =>
        rw [hsel, hr] at hs
        simp only [Option.isSome_none, Bool.false_eq_true, if_false] at hs
        simp [Backend.ex1Data, hs] at hr
    | some r => rw [hdata r hr, h.result_of_ex1Data hp1 hr]

theorem Inv.ex2Squashed_step (h : s.Inv) (henv : s.Env i)
    (hp : (s.step i).backend.ex2.pending = true)
    (hq : (s.step i).backend.ex2SquashedQ = true) :
    (s.step i).backend.ex2.useFrd = false ∧ (s.step i).backend.ex2.rd = 0 ∧
      (s.step i).squashed (s.step i).ex2Id = true ∧ (s.step i).ex2Id ∈ (s.step i).issued ∧
      (s.step i).backend.ex2.select ≠ .mem := by
  change (s.backend.nextEx2 i).pending = true at hp
  change s.backend.nextEx2SquashedQ i = true at hq
  change (s.backend.nextEx2 i).useFrd = false ∧ (s.backend.nextEx2 i).rd = 0 ∧ _ ∧ _ ∧
    (s.backend.nextEx2 i).select ≠ .mem
  cases hpr : s.backend.progresses i
  · cases hd : s.backend.drains i
    · cases hl : s.backend.ex2Leaves i
      · obtain ⟨hnext, hsq⟩ := nextEx2_of_stays hpr hd hl
        rw [hnext] at hp ⊢
        rw [hsq] at hq
        rw [ex2Id_step_of_stays hpr hd]
        obtain ⟨hf, hr, hk, hi, hm⟩ := h.ex2Squashed hp hq
        exact ⟨hf, hr, by simp [step, hk], mem_issued_step hi, hm⟩
      · simp [(nextEx2_of_leaves hpr hd hl).1] at hp
    · obtain ⟨-, -, hf, hr, hs⟩ := nextEx2_of_drains hd
      obtain ⟨htr, -, hp1⟩ := h.trapped_of_drains henv hd
      obtain ⟨h2, -, h1, -⟩ := drains_iff.mp hd
      have hid : (s.step i).ex2Id = s.ex1Id := by simp [step, hd]
      have horder := h.order hp1 (pending_of_select2 h (by decide) h2)
      have hissued := (h.ex1 hp1).issued
      have hlt := h.issued _ hissued
      rw [hid]
      refine ⟨hf, hr, ?_, mem_issued_step hissued, by rw [hs]; exact h1⟩
      simp only [step, htr, Bool.or_eq_true, decide_eq_true_eq]
      exact .inr ⟨Nat.le_of_lt horder, hlt⟩
  · simp [(nextEx2_of_progresses hpr).2.1] at hq

theorem Inv.ex2Empty_step (h : s.Inv) (hp : (s.step i).backend.ex2.pending = false) :
    (s.step i).backend.ex2.select = .alu := by
  change (s.backend.nextEx2 i).pending = false at hp
  change (s.backend.nextEx2 i).select = .alu
  cases hpr : s.backend.progresses i
  · cases hd : s.backend.drains i
    · cases hl : s.backend.ex2Leaves i
      · rw [(nextEx2_of_stays hpr hd hl).1] at hp ⊢
        exact h.ex2Empty hp
      · exact (nextEx2_of_leaves hpr hd hl).2
    · simp [(nextEx2_of_drains hd).1] at hp
  · simp [(nextEx2_of_progresses hpr).1] at hp

/-! ### The units after a cycle -/

theorem answeredQueue_of_ne_mem {u : FuncUnit} (hu : u ≠ .mem) : s.answeredQueue i u =
    if (Backend.unitResp p i u).isSome then (s.queue u).tail else s.queue u := by
  cases u
  · rfl
  · exact absurd rfl hu
  all_goals rfl

theorem answeredQueue_of_not_trap (ht : i.memTrap = none) (u : FuncUnit) : s.answeredQueue i u =
    if (Backend.unitResp p i u).isSome then (s.queue u).tail else s.queue u := by
  by_cases hu : u = .mem
  · subst hu
    simp [answeredQueue, memQueue, ht, Backend.unitResp]
  · exact answeredQueue_of_ne_mem hu

/-- The part of a queue that belongs to EX1. -/
theorem Inv.tail_queue (h : s.Inv) {u : FuncUnit} (hu : u ≠ .alu)
    (h2 : s.backend.ex2.select = u) :
    (s.queue u).tail = if s.backend.ex1.select = u then [s.ex1Id] else [] := by
  rw [h.queue u hu, if_pos h2]
  rfl

theorem Inv.queue_of_ne (h : s.Inv) {u : FuncUnit} (hu : u ≠ .alu)
    (h2 : s.backend.ex2.select ≠ u) :
    s.queue u = if s.backend.ex1.select = u then [s.ex1Id] else [] := by
  rw [h.queue u hu, if_neg h2]
  rfl

/-- The new operations of a unit are those issued to it. -/
theorem issued_queue {u : FuncUnit} (hu : u ≠ .alu) (hi : s.backend.issues i = true) :
    (if s.backend.exIssue i && s.backend.deExDecoded.opType.unit == u then [s.deId] else []) =
      if (s.step i).backend.ex1.select = u then [(s.step i).ex1Id] else [] := by
  have hsel : (s.step i).backend.ex1.select =
      if s.backend.exIssue i then s.backend.deExDecoded.opType.unit else .alu :=
    (nextEx1_of_issues hi).2.2.2.1
  have hid : (s.step i).ex1Id = s.deId := by simp [step, hi]
  rw [hsel, hid]
  cases s.backend.exIssue i
  · simp [hu.symm]
  · simp

/-- With EX2 ready, its operation is answered and EX2 waits for that of EX1. -/
theorem Inv.answeredQueue_of_ready (h : s.Inv) (ht : i.memTrap = none)
    (hr : s.backend.ex2Ready i = true) {u : FuncUnit} (hu : u ≠ .alu) :
    s.answeredQueue i u =
      if (s.step i).backend.ex2.select = u then [(s.step i).ex2Id] else [] := by
  have hd : s.backend.drains i = false := by
    by_contra hd
    have hs := (drains_iff.mp (by simpa using hd)).2.1
    simp [ht] at hs
  rw [answeredQueue_of_not_trap ht]
  change _ = if (s.backend.nextEx2 i).select = u then [(s.step i).ex2Id] else []
  by_cases h1 : s.backend.ex1.select = u
  · -- EX1 waits for the unit, and moves on
    have hp1 := pending_of_select1 h hu h1
    have hpr : s.backend.progresses i = true := progresses_iff.mpr ⟨hp1, hr, ht⟩
    have hid : (s.step i).ex2Id = s.ex1Id := by simp [step, hpr]
    rw [(nextEx2_of_progresses hpr).2.2.2.2.1, hid]
    by_cases h2 : s.backend.ex2.select = u
    · have hresp : (Backend.unitResp p i u).isSome = true := by
        have hp2 := pending_of_select2 h hu h2
        simpa [Backend.ex2Ready, hp2, Backend.ex2Data, h2, hu] using hr
      have hdata : s.backend.ex1Data i = none := by
        simp [Backend.ex1Data, h1, h2, hu]
      rw [if_pos hresp, h.tail_queue hu h2, hdata]
      simp [h1]
    · have hdata : s.backend.ex1Data i = Backend.unitResp p i u := by
        simp [Backend.ex1Data, h1, h2, hu]
      rw [h.queue_of_ne hu h2, hdata, if_pos h1]
      cases Backend.unitResp p i u <;> simp [h1, hu.symm]
  · -- nothing that moves on waits for the unit
    have hnext : (s.backend.nextEx2 i).select ≠ u := by
      cases hpr : s.backend.progresses i
      · cases hl : s.backend.ex2Leaves i
        · rw [(nextEx2_of_stays hpr hd hl).1]
          have hdata := (ex2Leaves_eq_false.mp hl).1
          have hp2 : s.backend.ex2.pending = false := by
            simpa [Backend.ex2Ready, hdata] using hr
          rw [h.ex2Empty hp2]
          exact hu.symm
        · rw [(nextEx2_of_leaves hpr hd hl).2]
          exact hu.symm
      · rw [(nextEx2_of_progresses hpr).2.2.2.2.1]
        split_ifs
        · exact hu.symm
        · exact h1
    rw [if_neg hnext]
    by_cases h2 : s.backend.ex2.select = u
    · have hresp : (Backend.unitResp p i u).isSome = true := by
        have hp2 := pending_of_select2 h hu h2
        simpa [Backend.ex2Ready, hp2, Backend.ex2Data, h2, hu] using hr
      rw [if_pos hresp, h.tail_queue hu h2, if_neg h1]
    · rw [h.queue_of_ne hu h2, if_neg h1]
      simp

/-- With EX2 stuck, only EX1 can be answered. -/
theorem Inv.answeredQueue_of_stuck (h : s.Inv) (ht : i.memTrap = none)
    (hr : s.backend.ex2Ready i = false) {u : FuncUnit} (hu : u ≠ .alu) :
    s.answeredQueue i u = (if s.backend.ex2.select = u then [s.ex2Id] else []) ++
      if s.backend.ex1.select = u ∧ s.backend.ex1Data i = none then [s.ex1Id] else [] := by
  have hdata : s.backend.ex2Data i = none := by
    simp only [Backend.ex2Ready, Bool.or_eq_false_iff] at hr
    simpa using hr.2
  rw [answeredQueue_of_not_trap ht]
  by_cases h2 : s.backend.ex2.select = u
  · have hresp : Backend.unitResp p i u = none := by
      simpa [Backend.ex2Data, h2, hu] using hdata
    have h1 : s.backend.ex1.select = u → s.backend.ex1Data i = none := by
      intro h1
      simp [Backend.ex1Data, h1, h2, hu]
    rw [hresp, h.queue u hu]
    by_cases h1' : s.backend.ex1.select = u
    · simp [h1', h1 h1', h2]
    · simp [h1', h2]
  · rw [h.queue_of_ne hu h2, if_neg h2]
    by_cases h1 : s.backend.ex1.select = u
    · have h1d : s.backend.ex1Data i = Backend.unitResp p i u := by
        simp [Backend.ex1Data, h1, h2, hu]
      rw [h1d]
      cases Backend.unitResp p i u <;> simp [h1]
    · simp [h1]

/-- A trap ends the operation of the access; what EX1 waits for is drained by EX2. -/
theorem Inv.answeredQueue_of_trap (h : s.Inv) (henv : s.Env i) (ht : i.memTrap.isSome = true)
    {u : FuncUnit} (hu : u ≠ .alu) : s.answeredQueue i u =
      if (s.step i).backend.ex2.select = u then [(s.step i).ex2Id] else [] := by
  have hpr : s.backend.progresses i = false := by
    by_contra hp
    simp [(progresses_iff.mp (by simpa using hp)).2.2] at ht
  change _ = if (s.backend.nextEx2 i).select = u then [(s.step i).ex2Id] else []
  rcases h.trap_cases henv ht with ⟨h2, h1, hresp, -⟩ | ⟨h1, -, hresp⟩
  · -- the access in EX2 traps
    cases hd : s.backend.drains i
    · have hdata : (s.backend.ex1Data i).isSome = true := by
        simpa [Backend.drains, h2, h1, Backend.memTrapValid, ht, Option.ne_none_iff_isSome]
          using hd
      have hl : s.backend.ex2Leaves i = true := by
        simp [Backend.ex2Leaves, h2, Backend.memTrapValid, ht]
      rw [(nextEx2_of_leaves hpr hd hl).2, if_neg hu.symm]
      by_cases hm : u = .mem
      · subst hm
        simp [answeredQueue, memQueue, ht, hresp, h.tail_queue hu h2, h1]
      · rw [answeredQueue_of_ne_mem hm, h.queue_of_ne hu (by rw [h2]; exact Ne.symm hm)]
        by_cases h1u : s.backend.ex1.select = u
        · have hne : s.backend.ex2.select ≠ s.backend.ex1.select := by rw [h2]; exact h1.symm
          have : (Backend.unitResp p i u).isSome = true := by
            simpa [Backend.ex1Data, h1u, hu, h2, Ne.symm hm] using hdata
          simp [this, h1u]
        · simp [h1u]
    · have hid : (s.step i).ex2Id = s.ex1Id := by simp [step, hd]
      have hdata := (drains_iff.mp hd).2.2.2
      rw [(nextEx2_of_drains hd).2.2.2.2, hid]
      by_cases hm : u = .mem
      · subst hm
        simp [answeredQueue, memQueue, ht, hresp, h.tail_queue hu h2, h1]
      · rw [answeredQueue_of_ne_mem hm, h.queue_of_ne hu (by rw [h2]; exact Ne.symm hm)]
        by_cases h1u : s.backend.ex1.select = u
        · have : Backend.unitResp p i u = none := by
            simpa [Backend.ex1Data, h1u, hu, h2, Ne.symm hm] using hdata
          simp [this]
        · simp [h1u]
  · -- the access in EX1 traps
    have hd : s.backend.drains i = false := by
      by_contra hd
      exact (drains_iff.mp (by simpa using hd)).2.2.1 h1
    rw [ex2Id_step_of_stays hpr hd]
    by_cases hm : u = .mem
    · subst hm
      have hnext : (s.backend.nextEx2 i).select ≠ .mem := by
        cases hl : s.backend.ex2Leaves i
        · rw [(nextEx2_of_stays hpr hd hl).1]
          intro h2
          have := (ex2Leaves_eq_false.mp hl).2 h2
          simp [this] at ht
        · rw [(nextEx2_of_leaves hpr hd hl).2]
          exact hu.symm
      rw [if_neg hnext]
      by_cases h2 : s.backend.ex2.select = .mem
      · simp [answeredQueue, memQueue, ht, hresp.mpr h2, h.tail_queue hu h2, h1]
      · have hnone : i.memResp = none := by
          by_contra hne
          exact h2 (hresp.mp (Option.isSome_iff_ne_none.mpr hne))
        simp [answeredQueue, memQueue, ht, hnone, h.queue_of_ne hu h2, h1]
    · rw [answeredQueue_of_ne_mem hm, h.queue u hu, h1, if_neg (Ne.symm hm), List.append_nil]
      by_cases h2 : s.backend.ex2.select = u
      · have hdata : s.backend.ex2Data i = Backend.unitResp p i u := by
          simp [Backend.ex2Data, h2, hu]
        cases hl : s.backend.ex2Leaves i
        · have hn := (ex2Leaves_eq_false.mp hl).1
          rw [(nextEx2_of_stays hpr hd hl).1]
          simp [← hdata, hn]
        · have hsome : (Backend.unitResp p i u).isSome = true := by
            simpa [Backend.ex2Leaves, hdata, h2, hm] using hl
          rw [(nextEx2_of_leaves hpr hd hl).2]
          simp [hsome, h2, hu.symm]
      · have hnext : (s.backend.nextEx2 i).select ≠ u := by
          cases hl : s.backend.ex2Leaves i
          · rw [(nextEx2_of_stays hpr hd hl).1]
            exact h2
          · rw [(nextEx2_of_leaves hpr hd hl).2]
            exact hu.symm
        simp [h2, hnext]

theorem Inv.queue_step (h : s.Inv) (henv : s.Env i) (u : FuncUnit) (hu : u ≠ .alu) :
    (s.step i).queue u =
      (if (s.step i).backend.ex2.select = u then [(s.step i).ex2Id] else []) ++
        if (s.step i).backend.ex1.select = u then [(s.step i).ex1Id] else [] := by
  change s.answeredQueue i u ++
    (if s.backend.exIssue i && s.backend.deExDecoded.opType.unit == u then [s.deId] else []) = _
  have hempty : s.backend.issues i = false →
      s.backend.ex2Ready i = true ∨ i.memTrap.isSome = true →
      (s.step i).backend.ex1.select = .alu := by
    intro hi hl
    change (s.backend.nextEx1 i).select = .alu
    rw [nextEx1_of_not_issues hi]
    exact (ex1Rest_of_leaving hl).2
  have hnone : s.backend.issues i = false → s.backend.exIssue i = false := by
    intro hi
    simp only [Backend.issues, Bool.or_eq_false_iff] at hi
    exact hi.1
  by_cases ht : i.memTrap.isSome = true
  · have hi := (h.of_trap henv ht).1
    rw [h.answeredQueue_of_trap henv ht hu, hempty hi (.inr ht), hnone hi, if_neg hu.symm]
    simp
  · have ht' : i.memTrap = none := by simpa using ht
    cases hr : s.backend.ex2Ready i
    · rw [h.answeredQueue_of_stuck ht' hr hu]
      have hpr : s.backend.progresses i = false := by simp [Backend.progresses, hr]
      have hd : s.backend.drains i = false := by simp [Backend.drains, Backend.memTrapValid, ht']
      have hl : s.backend.ex2Leaves i = false := by
        simp only [Backend.ex2Ready, Bool.or_eq_false_iff] at hr
        simp [Backend.ex2Leaves, hr.2, Backend.memTrapValid, ht']
      have hex2 : (s.step i).backend.ex2 = s.backend.ex2 := (nextEx2_of_stays hpr hd hl).1
      rw [hex2, ex2Id_step_of_stays hpr hd, List.append_assoc]
      congr 1
      cases hi : s.backend.issues i
      · have hex1 : (s.step i).backend.ex1 = match s.backend.ex1Data i with
            | some r => { s.backend.ex1 with select := .alu, aluData := r.data }
            | none => s.backend.ex1 :=
          (nextEx1_of_not_issues hi).trans (ex1Rest_of_stuck hr ht')
        have hid : (s.step i).ex1Id = s.ex1Id := by simp [step, hi]
        rw [hex1, hid, hnone hi]
        cases s.backend.ex1Data i <;> simp [hu.symm]
      · have hp1 : s.backend.ex1.pending = false := by
          rcases (of_issues hi).2.2.1 with hr' | hp
          · simp [hr] at hr'
          · exact hp
        rw [issued_queue hu hi, h.ex1Empty hp1]
        simp [hu.symm]
    · rw [h.answeredQueue_of_ready ht' hr hu]
      congr 1
      cases hi : s.backend.issues i
      · rw [hempty hi (.inl hr), hnone hi, if_neg hu.symm]
        simp
      · exact issued_queue hu hi

/-! ### The order of the instructions -/

theorem Inv.ex2_issued (h : s.Inv) (hp : s.backend.ex2.pending = true) : s.ex2Id ∈ s.issued := by
  cases hq : s.backend.ex2SquashedQ
  · exact (h.ex2 hp hq).issued
  · exact (h.ex2Squashed hp hq).2.2.2.1

/-- Where the instruction in EX2 comes from. -/
theorem ex2_origin (hp : (s.step i).backend.ex2.pending = true) :
    (s.backend.progresses i = true ∧ (s.step i).ex2Id = s.ex1Id) ∨
      (s.backend.drains i = true ∧ (s.step i).ex2Id = s.ex1Id) ∨
      (s.backend.ex2.pending = true ∧ s.backend.ex2Data i = none ∧
        (s.step i).ex2Id = s.ex2Id) := by
  change (s.backend.nextEx2 i).pending = true at hp
  cases hpr : s.backend.progresses i
  · cases hd : s.backend.drains i
    · cases hl : s.backend.ex2Leaves i
      · rw [(nextEx2_of_stays hpr hd hl).1] at hp
        exact .inr (.inr ⟨hp, (ex2Leaves_eq_false.mp hl).1, ex2Id_step_of_stays hpr hd⟩)
      · simp [(nextEx2_of_leaves hpr hd hl).1] at hp
    · exact .inr (.inl ⟨rfl, by simp [step, hd]⟩)
  · exact .inl ⟨rfl, by simp [step, hpr]⟩

/-- Where the instruction in EX1 comes from. -/
theorem ex1_origin (hp : (s.step i).backend.ex1.pending = true) :
    (s.backend.issues i = true ∧ (s.step i).ex1Id = s.deId) ∨
      (s.backend.ex1.pending = true ∧ s.backend.ex2Ready i = false ∧ i.memTrap = none ∧
        (s.step i).ex1Id = s.ex1Id) := by
  change (s.backend.nextEx1 i).pending = true at hp
  cases hi : s.backend.issues i
  · right
    rw [nextEx1_of_not_issues hi] at hp
    by_cases hl : s.backend.ex2Ready i = true ∨ i.memTrap.isSome = true
    · simp [(ex1Rest_of_leaving hl).1] at hp
    · simp only [not_or, Bool.not_eq_true, Option.isSome_eq_false_iff,
        Option.isNone_iff_eq_none] at hl
      rw [ex1Rest_of_stuck hl.1 hl.2] at hp
      have hid : (s.step i).ex1Id = s.ex1Id := by simp [step, hi]
      refine ⟨?_, hl.1, hl.2, hid⟩
      cases hr : s.backend.ex1Data i with
      | none => rwa [hr] at hp
      | some r => rwa [hr] at hp
  · exact .inl ⟨rfl, by simp [step, hi]⟩

/-- A result in EX2 is written in its cycle. -/
theorem mem_writes_of_ex2Data (hp : s.backend.ex2.pending = true) {r : UnitResp}
    (hr : s.backend.ex2Data i = some r) : s.ex2Id ∈ (s.step i).writes.map Prod.fst := by
  simp [step, Backend.regWrite, hp, hr]

/-- An entry of the log is old, or it is the write of EX2. -/
theorem mem_writes_step {e : ℕ × Backend.RegWrite} (he : e ∈ (s.step i).writes) :
    e ∈ s.writes ∨ (s.backend.ex2.pending = true ∧ ∃ r, s.backend.ex2Data i = some r ∧
      e = (s.ex2Id, ⟨s.backend.ex2.useFrd, s.backend.ex2.rd, r.data⟩)) := by
  rcases List.mem_append.mp he with he | he
  · exact .inl he
  · right
    simp only [Option.mem_toList, Option.map_eq_some_iff, Backend.regWrite] at he
    obtain ⟨w, hw, rfl⟩ := he
    split_ifs at hw with hp
    obtain ⟨r, hr, rfl⟩ := Option.map_eq_some_iff.mp hw
    exact ⟨hp, r, hr, rfl⟩

theorem Inv.order_step (h : s.Inv) (henv : s.Env i)
    (h1 : (s.step i).backend.ex1.pending = true) (h2 : (s.step i).backend.ex2.pending = true) :
    (s.step i).ex2Id < (s.step i).ex1Id := by
  rcases ex1_origin h1 with ⟨hi, hid1⟩ | ⟨hp1, hr, ht, hid1⟩ <;>
    rcases ex2_origin h2 with ⟨hpr, hid2⟩ | ⟨hd, hid2⟩ | ⟨hp2, -, hid2⟩ <;> rw [hid1, hid2]
  · exact h.lt_deId hi (h.ex1 (progresses_iff.mp hpr).1).issued
  · have := (h.of_trap henv (drains_iff.mp hd).2.1).1
    simp [hi] at this
  · exact h.lt_deId hi (h.ex2_issued hp2)
  · simp [(progresses_iff.mp hpr).2.1] at hr
  · have := (drains_iff.mp hd).2.1
    simp [ht] at this
  · exact h.order hp1 hp2

theorem Inv.written1_step (h : s.Inv) (h1 : (s.step i).backend.ex1.pending = true) :
    ∀ e ∈ (s.step i).writes, e.1 < (s.step i).ex1Id := by
  intro e he
  rcases ex1_origin h1 with ⟨hi, hid⟩ | ⟨hp1, hr, -, hid⟩ <;> rw [hid]
  · rcases mem_writes_step he with he | ⟨hp2, r, -, rfl⟩
    · exact h.lt_deId hi (h.logged e he).1
    · exact h.lt_deId hi (h.ex2_issued hp2)
  · rcases mem_writes_step he with he | ⟨hp2, r, hdata, -⟩
    · exact h.written1 hp1 e he
    · simp [Backend.ex2Ready, hdata] at hr

theorem Inv.written2_step (h : s.Inv) (henv : s.Env i)
    (h2 : (s.step i).backend.ex2.pending = true) :
    ∀ e ∈ (s.step i).writes, e.1 < (s.step i).ex2Id := by
  intro e he
  rcases ex2_origin h2 with ⟨hpr, hid⟩ | ⟨hd, hid⟩ | ⟨hp2, hdata, hid⟩ <;> rw [hid] <;>
    rcases mem_writes_step he with he | ⟨hp2', r, hr, rfl⟩
  · exact h.written1 (progresses_iff.mp hpr).1 e he
  · exact h.order (progresses_iff.mp hpr).1 hp2'
  · exact h.written1 (h.trapped_of_drains henv hd).2.2 e he
  · have hresp := (h.trapped_of_drains henv hd).2.1
    have hm := (drains_iff.mp hd).1
    simp [Backend.ex2Data, hm, Backend.unitResp, hresp] at hr
  · exact h.written2 hp2 e he
  · simp [hdata] at hr

/-! ### The control state -/

/-- An access in the pipeline is either new or was there before, and then no trap occurs. -/
theorem Inv.mem_origin (h : s.Inv) (henv : s.Env i)
    (hm : (s.step i).backend.ex1.select = .mem ∨ (s.step i).backend.ex2.select = .mem) :
    i.memTrap = none ∧ (s.backend.exIssue i = true ∨
      s.backend.ex1.select = .mem ∨ s.backend.ex2.select = .mem) := by
  have ht : i.memTrap = none := by
    by_contra hne
    have ht : i.memTrap.isSome = true := Option.isSome_iff_ne_none.mpr hne
    have hq : (s.step i).queue .mem = [] := by
      obtain ⟨j, hj⟩ := henv.trapAsked ht
      have hi := (h.of_trap henv ht).1
      simp only [Backend.issues, Bool.or_eq_false_iff] at hi
      simp [step, answeredQueue, ht, hj, hi.1]
    rw [h.queue_step henv .mem (by decide)] at hq
    rcases hm with hm | hm <;> simp [hm] at hq
  refine ⟨ht, ?_⟩
  cases hi : s.backend.exIssue i
  · right
    by_contra hnone
    simp only [not_or] at hnone
    have hq : (s.step i).queue .mem = [] := by
      have hold : s.queue .mem = [] := by
        rw [h.queue .mem (by decide), if_neg hnone.1, if_neg hnone.2]
        rfl
      simp [step, answeredQueue, memQueue, ht, hold, hi]
    rw [h.queue_step henv .mem (by decide)] at hq
    rcases hm with hm | hm <;> simp [hm] at hq
  · exact .inl rfl

theorem Inv.state_step (h : s.Inv) (henv : s.Env i)
    (hm : (s.step i).backend.ex1.select = .mem ∨ (s.step i).backend.ex2.select = .mem) :
    (s.step i).backend.exStateQ = .normal ∨ (s.step i).backend.exStateQ = .mispredict := by
  obtain ⟨ht, hor⟩ := h.mem_origin henv hm
  have hstate : s.backend.exIssue i = true ∨
      s.backend.exStateQ = .normal ∨ s.backend.exStateQ = .mispredict := hor.imp id h.state
  have hdrained : s.backend.drained i = false ∨ s.backend.exIssue i = true := by
    by_contra hne
    simp only [not_or, Bool.not_eq_false, Bool.not_eq_true] at hne
    obtain ⟨hd, hx⟩ := hne
    simp only [Backend.drained, Bool.and_eq_true, Bool.not_eq_true'] at hd
    rcases hor with hi | h1 | h2
    · simp [hx] at hi
    · simp [pending_of_select1 h (by decide) h1] at hd
    · simp [pending_of_select2 h (by decide) h2] at hd
  have hnot : s.backend.exceptionIssue i = false ∧ s.backend.sysIssue i = false := by
    rcases hdrained with hd | hx
    · simp [Backend.exceptionIssue, Backend.sysIssue, hd]
    · obtain ⟨hs, he, -⟩ := ex1_of_exIssue hx
      simp [Backend.exceptionIssue, Backend.sysIssue, he, hs]
  change s.backend.nextExStateQ i = .normal ∨ s.backend.nextExStateQ i = .mispredict
  simp only [Backend.nextExStateQ, Backend.memTrapValid, ht, Option.isSome_none,
    Bool.false_eq_true, if_false, hnot, Backend.caseExState]
  cases hst : s.backend.exStateQ
  · simp only
    split_ifs <;> simp
  · simp only
    split_ifs <;> simp
  · have hx : s.backend.exIssue i = true := by simpa [hst] using hstate
    simp [hx]
  · have hx : s.backend.exIssue i = true := by simpa [hst] using hstate
    have := (exIssue_iff.mp hx).2.2.2.1
    simp [Backend.controlHazard, hst] at this
  · have hx : s.backend.exIssue i = true := by simpa [hst] using hstate
    exact absurd (h.sys hst).2 (ex1_of_exIssue hx).1

/-- A SYSTEM instruction stays in the decode register until it is done. -/
theorem deExReady_of_system {b : Backend p} (hs : b.deExDecoded.opType = .system) :
    b.deExReady i = b.controlHazard i := by
  simp [Backend.deExReady, Backend.structHazard, hs]

theorem Inv.sys_step (h : s.Inv) (hst : (s.step i).backend.exStateQ = .sys) :
    (s.step i).backend.deExValid = true ∧ (s.step i).backend.deExDecoded.opType = .system := by
  change s.backend.nextExStateQ i = .sys at hst
  have hkeep : s.backend.deExValid = true → s.backend.deExDecoded.opType = .system →
      s.backend.controlHazard i = false → (s.step i).backend.deExValid = true ∧
        (s.step i).backend.deExDecoded.opType = .system := by
    intro hv hs hc
    have hready : s.backend.deExReady i = false := by rw [deExReady_of_system hs, hc]
    have hf : s.backend.fetched i = none := by
      simp [Backend.fetched, Backend.fetchReady, hv, hready]
    exact ⟨by simp [step, Backend.step, Backend.nextDeExValid, hv, hready],
      by simp [step, Backend.step, hf, hs]⟩
  unfold Backend.nextExStateQ at hst
  split_ifs at hst with ht hx hs
  · obtain ⟨-, hv, hc, -, -, -, hsys⟩ := sysIssue_iff.mp hs
    exact hkeep hv hsys hc
  · have hold : s.backend.exStateQ = .sys ∧ s.backend.sysReady i = false := by
      unfold Backend.caseExState at hst
      split at hst
      case h_5 hs' =>
        refine ⟨hs', ?_⟩
        by_contra hr
        simp only [Bool.not_eq_false] at hr
        simp only [hr, if_true] at hst
        split_ifs at hst
      all_goals first | exact absurd hst (by decide) | (split_ifs at hst)
    obtain ⟨hv, hsys⟩ := h.sys hold.1
    exact hkeep hv hsys (by simp [Backend.controlHazard, hold])

/-! ### The decode register and the log -/

theorem nextId_le_step : s.nextId ≤ (s.step i).nextId := by
  simp only [step]
  split_ifs <;> omega

/-- A trap squashes only instructions that have been fetched. -/
theorem Inv.lt_of_squashed_step (h : s.Inv) {k : ℕ} (hk : (s.step i).squashed k = true) :
    k < s.nextId := by
  simp only [step, Bool.or_eq_true] at hk
  rcases hk with hk | hk
  · exact h.squashed k hk
  · cases ht : s.trapped i with
    | none => simp [ht] at hk
    | some j =>
        rw [ht] at hk
        exact (of_decide_eq_true hk).2

theorem Inv.decode_step (h : s.Inv) (henv : s.Env i)
    (hv : (s.step i).backend.deExValid = true) :
    (s.step i).instr (s.step i).deId = (s.step i).backend.deExDecoded ∧
      (s.step i).deId < (s.step i).nextId ∧ (s.step i).squashed (s.step i).deId = false ∧
      ((s.step i).backend.deExDecoded.exValid = false →
        Backend.LegalPc p (s.step i).backend.deExDecoded) := by
  cases hf : s.backend.fetched i with
  | none =>
      have hkeep : s.backend.deExValid = true ∧ s.backend.deExReady i = false := by
        change s.backend.nextDeExValid i = true at hv
        simpa [Backend.nextDeExValid, hf] using hv
      have ht : i.memTrap = none := by
        by_contra hne
        have := (h.of_trap henv (Option.isSome_iff_ne_none.mpr hne)).2
        simp [hkeep.2] at this
      obtain ⟨hinstr, hlt, hsq, hlegal⟩ := h.decode hkeep.1
      have hde : (s.step i).backend.deExDecoded = s.backend.deExDecoded := by
        simp [step, Backend.step, hf]
      have hid : (s.step i).deId = s.deId := by simp [step, hf]
      have hnext : (s.step i).nextId = s.nextId := by simp [step, hf]
      rw [hde, hid, hnext, squashed_step_of_not_trap ht]
      exact ⟨(if_neg (by omega)).trans hinstr, hlt, hsq, hlegal⟩
  | some d =>
      have hde : (s.step i).backend.deExDecoded = d := by simp [step, Backend.step, hf]
      have hid : (s.step i).deId = s.nextId := by simp [step, hf]
      have hnext : (s.step i).nextId = s.nextId + 1 := by simp [step, hf]
      rw [hde, hid, hnext]
      refine ⟨by simp [step, hf], Nat.lt_succ_self _, ?_, fun hx => ?_⟩
      · by_contra hk
        have := h.lt_of_squashed_step (i := i) (k := s.nextId) (by simpa using hk)
        omega
      · simp only [Backend.fetched] at hf
        split_ifs at hf
        obtain ⟨d₀, hd₀, rfl⟩ := Option.map_eq_some_iff.mp hf
        unfold Backend.injected at hx ⊢
        split at hx
        · split_ifs at hx with hx'
          simp [hx'] at hx
        · exact henv.legal d₀ hd₀ hx

theorem Inv.issued_step (h : s.Inv) : ∀ k ∈ (s.step i).issued, k < (s.step i).nextId := by
  intro k hk
  refine lt_of_lt_of_le ?_ nextId_le_step
  rcases List.mem_append.mp hk with hk | hk
  · exact h.issued k hk
  · split_ifs at hk with hi
    · simp only [List.mem_singleton] at hk
      rw [hk]
      exact (h.decode (of_issues hi).1).2.1
    · simp at hk

/-- An instruction that stays in the decode register, but not because of its own SYSTEM
operation, has done nothing in this cycle. -/
theorem Inv.of_stalled (h : s.Inv) (henv : s.Env i) (hv : (s.step i).backend.deExValid = true)
    (hst : (s.step i).backend.exStateQ ≠ .sys) (hf : s.backend.fetched i = none) :
    s.backend.deExValid = true ∧ s.backend.deExReady i = false ∧ i.memTrap = none ∧
      s.backend.issues i = false ∧ s.backend.exStateQ ≠ .sys := by
  have hkeep : s.backend.deExValid = true ∧ s.backend.deExReady i = false := by
    change s.backend.nextDeExValid i = true at hv
    simpa [Backend.nextDeExValid, hf] using hv
  have ht : i.memTrap = none := by
    by_contra hne
    have := (h.of_trap henv (Option.isSome_iff_ne_none.mpr hne)).2
    simp [hkeep.2] at this
  have hnx : s.backend.exIssue i = false := by
    by_contra hx
    simp [deExReady_of_exIssue (by simpa using hx)] at hkeep
  have hns : s.backend.sysIssue i = false := by
    by_contra hs
    refine hst ?_
    have hs' : s.backend.sysIssue i = true := by simpa using hs
    have hx := (sysIssue_iff.mp hs').2.2.2.2.2.1
    change s.backend.nextExStateQ i = .sys
    simp [Backend.nextExStateQ, Backend.memTrapValid, ht, Backend.exceptionIssue, hx, hs']
  refine ⟨hkeep.1, hkeep.2, ht, by simp [Backend.issues, hnx, hns], fun hsys => hst ?_⟩
  have hc : s.backend.controlHazard i = false := by
    rw [← deExReady_of_system (h.sys hsys).2]
    exact hkeep.2
  have hr : s.backend.sysReady i = false := by
    simpa [Backend.controlHazard, hsys] using hc
  change s.backend.nextExStateQ i = .sys
  simp [Backend.nextExStateQ, Backend.memTrapValid, ht, hns, Backend.exceptionIssue,
    Backend.drained, hsys, Backend.caseExState, hr]

theorem Inv.fresh_step (h : s.Inv) (henv : s.Env i) (hv : (s.step i).backend.deExValid = true)
    (hst : (s.step i).backend.exStateQ ≠ .sys) :
    ∀ k ∈ (s.step i).issued, k < (s.step i).deId := by
  cases hf : s.backend.fetched i with
  | some d =>
      have hid : (s.step i).deId = s.nextId := by simp [step, hf]
      intro k hk
      rw [hid]
      rcases List.mem_append.mp hk with hk | hk
      · exact h.issued k hk
      · split_ifs at hk with hi
        · simp only [List.mem_singleton] at hk
          rw [hk]
          exact (h.decode (of_issues hi).1).2.1
        · simp at hk
  | none =>
      obtain ⟨hv', -, -, hni, hold⟩ := h.of_stalled henv hv hst hf
      have hid : (s.step i).deId = s.deId := by simp [step, hf]
      have hissued : (s.step i).issued = s.issued := by simp [step, hni]
      rw [hid, hissued]
      exact h.fresh hv' hold

theorem Inv.log_step (h : s.Inv) : ((s.step i).writes.map Prod.fst).Pairwise (· < ·) := by
  simp only [step, List.map_append]
  refine List.pairwise_append.mpr ⟨h.log, ?_, ?_⟩
  · cases s.backend.regWrite i <;> simp
  · intro a ha b hb
    obtain ⟨e, he, rfl⟩ := List.mem_map.mp ha
    cases hw : s.backend.regWrite i with
    | none => simp [hw] at hb
    | some w =>
        have hp : s.backend.ex2.pending = true := by
          by_contra hp
          simp [Backend.regWrite, hp] at hw
        have hb' : b = s.ex2Id := by simpa [hw] using hb
        rw [hb']
        exact h.written2 hp e he

/-- What has been written is never squashed, and keeps its result. -/
theorem Inv.logged_old (h : s.Inv) (henv : s.Env i) {e : ℕ × Backend.RegWrite}
    (he : e ∈ s.writes) : (s.step i).squashed e.1 = s.squashed e.1 ∧
      (s.step i).result e.1 = s.result e.1 := by
  have h1 : s.backend.ex1.pending = true → e.1 < s.ex1Id := fun hp => h.written1 hp e he
  have h2 : s.backend.ex2.pending = true → e.1 < s.ex2Id := fun hp => h.written2 hp e he
  refine ⟨h.squashed_step henv h1 fun hm _ => h2 (pending_of_select2 h (by decide) hm),
    result_step_of_none (h.gives_none (fun hi => ?_) (fun hs => ?_) fun hs => ?_)⟩
  · have := h.lt_deId hi (h.logged e he).1
    omega
  · have := h2 (pending_of_select2 h hs rfl)
    omega
  · have := h1 (pending_of_select1 h hs rfl)
    omega

/-- The instruction that is written in this cycle is not squashed by it. -/
theorem Inv.squashed_of_ex2Data (h : s.Inv) (henv : s.Env i) (hp : s.backend.ex2.pending = true)
    {r : UnitResp} (hr : s.backend.ex2Data i = some r) :
    (s.step i).squashed s.ex2Id = s.squashed s.ex2Id := by
  refine h.squashed_step henv (fun h1 => h.order h1 hp) fun hm hresp => ?_
  simp [Backend.ex2Data, hm, Backend.unitResp, hresp] at hr

theorem Inv.logged_step (h : s.Inv) (henv : s.Env i) :
    ∀ e ∈ (s.step i).writes, e.1 ∈ (s.step i).issued ∧
      ((s.step i).squashed e.1 = true ∧ e.2.effective = false ∨
        (s.step i).squashed e.1 = false ∧
          (e.2.useFrd, e.2.rd) = Backend.dest ((s.step i).instr e.1) ∧
          (s.step i).result e.1 = some e.2.data) := by
  intro e he
  rcases mem_writes_step he with he | ⟨hp, r, hr, rfl⟩
  · obtain ⟨hi, hor⟩ := h.logged e he
    obtain ⟨hsq, hres⟩ := h.logged_old henv he
    rw [hsq, hres, h.instr_step hi]
    exact ⟨mem_issued_step hi, hor⟩
  · refine ⟨mem_issued_step (h.ex2_issued hp), ?_⟩
    cases hq : s.backend.ex2SquashedQ
    · have hh := h.ex2 hp hq
      refine .inr ⟨?_, by rw [h.instr_step hh.issued]; exact hh.dest,
        h.result_of_ex2Data hp hq hr⟩
      exact (h.squashed_of_ex2Data henv hp hr).trans hh.squashed
    · obtain ⟨hf, hrd, hk, -, -⟩ := h.ex2Squashed hp hq
      exact .inl ⟨by simp [step, hk], by simp [Backend.RegWrite.effective, hf, hrd]⟩

/-- An instruction in EX1 moves on, stays or is squashed. -/
theorem Inv.complete_ex1 (h : s.Inv) (henv : s.Env i) (hp : s.backend.ex1.pending = true) :
    (s.step i).squashed s.ex1Id = true ∨
      ((s.step i).backend.ex2.pending = true ∧ (s.step i).ex2Id = s.ex1Id) ∨
      ((s.step i).backend.ex1.pending = true ∧ (s.step i).ex1Id = s.ex1Id) := by
  by_cases ht : i.memTrap.isSome = true
  · left
    have hlt := h.issued _ (h.ex1 hp).issued
    rcases h.trap_cases henv ht with ⟨h2, -, -, htr⟩ | ⟨-, htr, -⟩
    · have := h.order hp (pending_of_select2 h (by decide) h2)
      simp only [step, htr, Bool.or_eq_true, decide_eq_true_eq]
      exact .inr ⟨by omega, hlt⟩
    · simp only [step, htr, Bool.or_eq_true, decide_eq_true_eq]
      exact .inr ⟨le_rfl, hlt⟩
  · have ht' : i.memTrap = none := by simpa using ht
    right
    cases hr : s.backend.ex2Ready i
    · right
      have hi : s.backend.issues i = false := by
        by_contra hi
        rcases (of_issues (by simpa using hi)).2.2.1 with hr' | hp'
        · simp [hr] at hr'
        · simp [hp] at hp'
      refine ⟨?_, by simp [step, hi]⟩
      change (s.backend.nextEx1 i).pending = true
      rw [nextEx1_of_not_issues hi, ex1Rest_of_stuck hr ht']
      cases s.backend.ex1Data i <;> exact hp
    · left
      have hpr : s.backend.progresses i = true := progresses_iff.mpr ⟨hp, hr, ht'⟩
      exact ⟨(nextEx2_of_progresses hpr).1, by simp [step, hpr]⟩

/-- An instruction in EX2 is written, stays or is squashed. -/
theorem Inv.complete_ex2 (h : s.Inv) (henv : s.Env i) (hp : s.backend.ex2.pending = true) :
    (s.step i).squashed s.ex2Id = true ∨ s.ex2Id ∈ (s.step i).writes.map Prod.fst ∨
      ((s.step i).backend.ex2.pending = true ∧ (s.step i).ex2Id = s.ex2Id) := by
  cases hdata : s.backend.ex2Data i with
  | some r => exact .inr (.inl (mem_writes_of_ex2Data hp hdata))
  | none =>
      by_cases hm : s.backend.ex2.select = .mem ∧ i.memTrap.isSome = true
      · left
        have hlt := h.issued _ (h.ex2_issued hp)
        rcases h.trap_cases henv hm.2 with ⟨-, -, -, htr⟩ | ⟨-, -, hresp⟩
        · simp only [step, htr, Bool.or_eq_true, decide_eq_true_eq]
          exact .inr ⟨le_rfl, hlt⟩
        · have := hresp.mpr hm.1
          simp [Backend.ex2Data, hm.1, Backend.unitResp] at hdata
          simp [hdata] at this
      · right; right
        have hpr : s.backend.progresses i = false := by
          simp [Backend.progresses, Backend.ex2Ready, hp, hdata]
        have hd : s.backend.drains i = false := by
          by_contra hd
          obtain ⟨h2, ht, -⟩ := drains_iff.mp (by simpa using hd)
          exact hm ⟨h2, ht⟩
        have hl : s.backend.ex2Leaves i = false := by
          refine ex2Leaves_eq_false.mpr ⟨hdata, fun h2 => ?_⟩
          by_contra hne
          exact hm ⟨h2, Option.isSome_iff_ne_none.mpr hne⟩
        refine ⟨?_, ex2Id_step_of_stays hpr hd⟩
        change (s.backend.nextEx2 i).pending = true
        rw [(nextEx2_of_stays hpr hd hl).1]
        exact hp

theorem Inv.complete_step (h : s.Inv) (henv : s.Env i) :
    ∀ k ∈ (s.step i).issued, (s.step i).squashed k = true ∨
      k ∈ (s.step i).writes.map Prod.fst ∨
      ((s.step i).backend.ex2.pending = true ∧ (s.step i).ex2Id = k) ∨
      ((s.step i).backend.ex1.pending = true ∧ (s.step i).ex1Id = k) := by
  intro k hk
  rcases List.mem_append.mp hk with hk | hk
  · rcases h.complete k hk with hsq | hw | ⟨hp, rfl⟩ | ⟨hp, rfl⟩
    · exact .inl (by simp [step, hsq])
    · refine .inr (.inl ?_)
      simp only [step, List.map_append]
      exact List.mem_append.mpr (.inl hw)
    · rcases h.complete_ex2 henv hp with hsq | hw | hst
      · exact .inl hsq
      · exact .inr (.inl hw)
      · exact .inr (.inr (.inl hst))
    · rcases h.complete_ex1 henv hp with hsq | hst | hst
      · exact .inl hsq
      · exact .inr (.inr (.inl hst))
      · exact .inr (.inr (.inr hst))
  · split_ifs at hk with hi
    · simp only [List.mem_singleton] at hk
      exact .inr (.inr (.inr ⟨(nextEx1_of_issues hi).1, by simp [step, hi, hk]⟩))
    · simp at hk

theorem inv_step (h : s.Inv) (henv : s.Env i) : (s.step i).Inv where
  ex1 := h.ex1_step henv
  ex1Empty := fun hp => Inv.ex1Empty_step hp h
  ex2 := h.ex2_step henv
  ex2Squashed := h.ex2Squashed_step henv
  ex2Empty := h.ex2Empty_step
  queue := h.queue_step henv
  order := h.order_step henv
  written1 := h.written1_step
  written2 := h.written2_step henv
  state := h.state_step henv
  sys := h.sys_step
  decode := h.decode_step henv
  fresh := h.fresh_step henv
  issued := h.issued_step
  squashed := fun _ hk => lt_of_lt_of_le (h.lt_of_squashed_step hk) nextId_le_step
  log := h.log_step
  logged := h.logged_step henv
  complete := h.complete_step henv

theorem inv_of_isReset (h : s.IsReset) : s.Inv where
  ex1 hp := by simp [h.backend.ex1Pending] at hp
  ex1Empty _ := h.backend.ex1Select
  ex2 hp := by simp [h.backend.ex2Pending] at hp
  ex2Squashed hp := by simp [h.backend.ex2Pending] at hp
  ex2Empty _ := h.backend.ex2Select
  queue u hu := by simp [h.queue, h.backend.ex1Select, h.backend.ex2Select, hu.symm]
  order hp := by simp [h.backend.ex1Pending] at hp
  written1 := by simp [h.writes]
  written2 := by simp [h.writes]
  state hm := by simp [h.backend.ex1Select, h.backend.ex2Select] at hm
  sys hst := by simp [h.backend.exStateQ] at hst
  decode hv := by simp [h.backend.deExValid] at hv
  fresh hv := by simp [h.backend.deExValid] at hv
  issued := by simp [h.issued]
  squashed k hk := by simp [h.squashed] at hk
  log := by simp [h.writes]
  logged := by simp [h.writes]
  complete := by simp [h.issued]

end Step

/-! ## Runs -/

section Run

/-- The system after `n` cycles. -/
def after (s₀ : BackendSys p) (inp : ℕ → BackendIn) (n : ℕ) : BackendSys p := run step s₀ inp n

variable {s₀ : BackendSys p} {inp : ℕ → BackendIn}

/-- The exception of instruction `j` in cycle `n` is precise: it reports the program counter
of `j`, every older instruction is written once, with its own result, in the end, and
neither `j` nor an instruction fetched after it ever writes a register. -/
structure PreciseTrap (s₀ : BackendSys p) (inp : ℕ → BackendIn) (n j : ℕ) : Prop where
  epc : ∃ cause tval, (after s₀ inp n).backend.exception (inp n) =
    some (cause, tval, ((after s₀ inp n).instr j).pc)
  older : ∀ k ∈ (after s₀ inp n).issued, k < j → (after s₀ inp n).squashed k = false →
    ∃ m, ∀ m' ≥ m, ∃ x, (after s₀ inp m').result k = some x ∧
      (after s₀ inp m').writes.filter (fun e => e.1 = k) =
        [(k, ⟨(Backend.dest ((after s₀ inp m').instr k)).1,
          (Backend.dest ((after s₀ inp m').instr k)).2, x⟩)]
  younger : ∀ k, j ≤ k → k < (after s₀ inp n).nextId → ∀ m, ∀ e ∈ (after s₀ inp m).writes,
    e.1 = k → e.2.effective = false

theorem inv_after (h0 : s₀.IsReset) (hrun : ∀ k, (after s₀ inp k).Env (inp k)) (n : ℕ) :
    (after s₀ inp n).Inv :=
  run_invariant Inv Env (inv_of_isReset h0) (fun _ _ => inv_step) n fun k _ => hrun k

theorem after_succ (n : ℕ) : after s₀ inp (n + 1) = (after s₀ inp n).step (inp n) := rfl

/-- Instructions are issued once, in the order in which they were fetched. -/
theorem issued_sorted (h0 : s₀.IsReset) (hrun : ∀ k, (after s₀ inp k).Env (inp k)) (n : ℕ) :
    (after s₀ inp n).issued.Pairwise (· < ·) := by
  induction n with
  | zero => simp [after, h0.issued]
  | succ n ih =>
      rw [after_succ]
      simp only [step]
      split_ifs with hi
      · refine List.pairwise_append.mpr ⟨ih, List.pairwise_singleton _ _, fun a ha b hb => ?_⟩
        rw [List.mem_singleton.mp hb]
        exact (inv_after h0 hrun n).lt_deId hi ha
      · simpa using ih

/-- An entry of a log without repetitions is the only one with its number. -/
theorem filter_fst_eq {α : Type*} {l : List (ℕ × α)} (hl : (l.map Prod.fst).Pairwise (· < ·))
    {e : ℕ × α} (he : e ∈ l) : l.filter (fun x => x.1 = e.1) = [e] := by
  induction l with
  | nil => simp at he
  | cons a l ih =>
      simp only [List.map_cons, List.pairwise_cons] at hl
      rcases List.mem_cons.mp he with rfl | he
      · have hnone : l.filter (fun x => x.1 = e.1) = [] := by
          refine List.filter_eq_nil_iff.mpr fun x hx => ?_
          have := hl.1 x.1 (List.mem_map.mpr ⟨x, hx, rfl⟩)
          simp only [decide_eq_true_eq]
          omega
        rw [List.filter_cons_of_pos (by simp), hnone]
      · have hlt := hl.1 e.1 (List.mem_map.mpr ⟨e, he, rfl⟩)
        rw [List.filter_cons_of_neg (by simp only [decide_eq_true_eq]; omega), ih hl.2 he]

/-- The log has one entry for an instruction that was written and not squashed. -/
theorem Inv.filter_writes {s : BackendSys p} (h : s.Inv) {k : ℕ}
    (hk : k ∈ s.writes.map Prod.fst) (hsq : s.squashed k = false) :
    ∃ x, s.result k = some x ∧ s.writes.filter (fun e => e.1 = k) =
      [(k, ⟨(Backend.dest (s.instr k)).1, (Backend.dest (s.instr k)).2, x⟩)] := by
  obtain ⟨e, he, rfl⟩ := List.mem_map.mp hk
  rcases (h.logged e he).2 with ⟨hsq', -⟩ | ⟨-, hdest, hres⟩
  · simp [hsq] at hsq'
  · refine ⟨e.2.data, hres, ?_⟩
    rw [filter_fst_eq h.log he, ← hdest]

theorem writes_mono {m n : ℕ} (h : m ≤ n) :
    (after s₀ inp m).writes <+: (after s₀ inp n).writes := by
  induction n, h using Nat.le_induction with
  | base => exact List.prefix_rfl
  | succ n _ ih =>
      refine ih.trans ?_
      exact List.prefix_append _ _

theorem squashed_mono {m n k : ℕ} (h : m ≤ n) (hk : (after s₀ inp m).squashed k = true) :
    (after s₀ inp n).squashed k = true := by
  induction n, h using Nat.le_induction with
  | base => exact hk
  | succ n _ ih => simp [after_succ, step, ih]

/-- A written instruction stays written and is never squashed. -/
theorem written_mono (h0 : s₀.IsReset) (hrun : ∀ k, (after s₀ inp k).Env (inp k)) {m n k : ℕ}
    (h : m ≤ n) (hk : k ∈ (after s₀ inp m).writes.map Prod.fst)
    (hsq : (after s₀ inp m).squashed k = false) :
    k ∈ (after s₀ inp n).writes.map Prod.fst ∧ (after s₀ inp n).squashed k = false := by
  induction n, h using Nat.le_induction with
  | base => exact ⟨hk, hsq⟩
  | succ n _ ih =>
      obtain ⟨e, he, rfl⟩ := List.mem_map.mp ih.1
      refine ⟨List.mem_map.mpr ⟨e, List.mem_append.mpr (.inl he), rfl⟩, ?_⟩
      exact ((inv_after h0 hrun n).logged_old (hrun n) he).1.trans ih.2

/-- The instruction in EX2 waits until its unit answers, whatever the data cache does. -/
theorem Inv.ex2_waits {s : BackendSys p} {i : BackendIn} (h : s.Inv)
    (hu : s.backend.ex2.select ≠ .alu) (hm : s.backend.ex2.select ≠ .mem)
    (hr : Backend.unitResp p i s.backend.ex2.select = none) :
    (s.step i).backend.ex2 = s.backend.ex2 ∧ (s.step i).ex2Id = s.ex2Id ∧
      (s.step i).backend.ex2SquashedQ = s.backend.ex2SquashedQ := by
  have hp := pending_of_select2 h hu rfl
  have hdata : s.backend.ex2Data i = none := by simp [Backend.ex2Data, hu, hr]
  have hpr : s.backend.progresses i = false := by
    simp [Backend.progresses, Backend.ex2Ready, hp, hdata]
  have hd : s.backend.drains i = false := by simp [Backend.drains, hm]
  have hl : s.backend.ex2Leaves i = false :=
    ex2Leaves_eq_false.mpr ⟨hdata, fun h2 => absurd h2 hm⟩
  obtain ⟨hnext, hsq⟩ := nextEx2_of_stays hpr hd hl
  exact ⟨hnext, ex2Id_step_of_stays hpr hd, hsq⟩

/-- An instruction in EX2 whose unit answers in the end is written in the end. -/
theorem eventually_written (h0 : s₀.IsReset) (hrun : ∀ k, (after s₀ inp k).Env (inp k)) {n : ℕ}
    (hp : (after s₀ inp n).backend.ex2.pending = true)
    (hq : (after s₀ inp n).backend.ex2SquashedQ = false)
    (hans : (∃ r, (after s₀ inp n).backend.ex2Data (inp n) = some r) ∨
      (after s₀ inp n).backend.ex2.select ≠ .mem ∧
        ∃ m ≥ n, (Backend.unitResp p (inp m) (after s₀ inp n).backend.ex2.select).isSome = true) :
    ∃ m ≥ n, (after s₀ inp n).ex2Id ∈ (after s₀ inp m).writes.map Prod.fst ∧
      (after s₀ inp m).squashed (after s₀ inp n).ex2Id = false := by
  -- a result in cycle `m` is written in that cycle
  have hnow : ∀ m, (after s₀ inp m).backend.ex2.pending = true →
      (after s₀ inp m).backend.ex2SquashedQ = false →
      ∀ r, (after s₀ inp m).backend.ex2Data (inp m) = some r →
      (after s₀ inp m).ex2Id ∈ (after s₀ inp (m + 1)).writes.map Prod.fst ∧
        (after s₀ inp (m + 1)).squashed (after s₀ inp m).ex2Id = false := by
    intro m hpm hqm r hr
    have hinv := inv_after h0 hrun m
    exact ⟨mem_writes_of_ex2Data hpm hr,
      (hinv.squashed_of_ex2Data (hrun m) hpm hr).trans (hinv.ex2 hpm hqm).squashed⟩
  by_cases hr : ∃ r, (after s₀ inp n).backend.ex2Data (inp n) = some r
  · obtain ⟨r, hr⟩ := hr
    exact ⟨n + 1, Nat.le_succ n, hnow n hp hq r hr⟩
  · obtain ⟨hm, hex⟩ := hans.resolve_left hr
    have hu : (after s₀ inp n).backend.ex2.select ≠ .alu := by
      intro ha
      exact hr ⟨_, by rw [Backend.ex2Data, if_pos ha]⟩
    -- the first answer of the unit finds the instruction still in EX2
    obtain ⟨m, hle, hresp, hmin⟩ : ∃ m ≥ n,
        (Backend.unitResp p (inp m) (after s₀ inp n).backend.ex2.select).isSome = true ∧
        ∀ k ≥ n, k < m → Backend.unitResp p (inp k) (after s₀ inp n).backend.ex2.select = none := by
      obtain ⟨d, hd⟩ := hex
      classical
      have hex' : ∃ m, m ≥ n ∧
          (Backend.unitResp p (inp m) (after s₀ inp n).backend.ex2.select).isSome = true := ⟨d, hd⟩
      refine ⟨Nat.find hex', (Nat.find_spec hex').1, (Nat.find_spec hex').2, fun k hk hlt => ?_⟩
      by_contra hne
      exact Nat.find_min hex' hlt ⟨hk, Option.isSome_iff_ne_none.mpr hne⟩
    have hstay : (after s₀ inp m).backend.ex2 = (after s₀ inp n).backend.ex2 ∧
        (after s₀ inp m).ex2Id = (after s₀ inp n).ex2Id ∧
        (after s₀ inp m).backend.ex2SquashedQ = (after s₀ inp n).backend.ex2SquashedQ := by
      clear hresp
      induction m, hle using Nat.le_induction with
      | base => exact ⟨rfl, rfl, rfl⟩
      | succ m hle ih =>
          obtain ⟨he, hid, hs⟩ := ih fun k hk hlt => hmin k hk (by omega)
          have hnone := hmin m hle (by omega)
          rw [← he] at hu hm hnone
          obtain ⟨he', hid', hs'⟩ := (inv_after h0 hrun m).ex2_waits hu hm hnone
          exact ⟨he'.trans he, hid'.trans hid, hs'.trans hs⟩
    obtain ⟨he, hid, hs⟩ := hstay
    obtain ⟨r, hr'⟩ := Option.isSome_iff_exists.mp hresp
    refine ⟨m + 1, by omega, ?_⟩
    rw [← hid]
    refine hnow m (by rw [he]; exact hp) (by rw [hs]; exact hq) r ?_
    rw [Backend.ex2Data, he, if_neg hu]
    exact hr'

/-- What is older than a trapping access has been written or waits in EX2. -/
theorem Inv.older_cases {s : BackendSys p} {i : BackendIn} (h : s.Inv) (henv : s.Env i) {j k : ℕ}
    (htr : s.trapped i = some j) (hk : k ∈ s.issued) (hlt : k < j) (hsq : s.squashed k = false) :
    k ∈ s.writes.map Prod.fst ∨ (s.backend.ex2.pending = true ∧ s.ex2Id = k ∧
      s.backend.ex2SquashedQ = false ∧
      (s.backend.ex2.select = .mem → i.memResp.isSome = true)) := by
  have ht : i.memTrap.isSome = true := by
    by_contra ht
    simp [trapped, ht] at htr
  have hcases := h.trap_cases henv ht
  rw [htr] at hcases
  rcases h.complete k hk with hsq' | hw | ⟨hp, hid⟩ | ⟨hp, hid⟩
  · simp [hsq] at hsq'
  · exact .inl hw
  · refine .inr ⟨hp, hid, ?_, ?_⟩
    · by_contra hq
      have := (h.ex2Squashed hp (by simpa using hq)).2.2.1
      rw [hid] at this
      simp [hsq] at this
    · rcases hcases with ⟨-, -, -, hj⟩ | ⟨-, -, hresp⟩
      · simp only [Option.some.injEq] at hj
        omega
      · exact hresp.mpr
  · exfalso
    rcases hcases with ⟨h2, -, -, hj⟩ | ⟨-, hj, -⟩
    · have := h.order hp (pending_of_select2 h (by decide) h2)
      simp only [Option.some.injEq] at hj
      omega
    · simp only [Option.some.injEq] at hj
      omega

/-- The program counter that is reported is that of the access in EX2 whenever there is
one. -/
theorem Inv.exception_of_trap {s : BackendSys p} {i : BackendIn} (h : s.Inv) (henv : s.Env i)
    {j : ℕ} (htr : s.trapped i = some j) : ∃ cause tval, s.backend.exception i =
      some (cause, tval, (s.instr (if i.memResp.isSome then s.ex2Id else j)).pc) := by
  have ht : i.memTrap.isSome = true := by
    by_contra ht
    simp [trapped, ht] at htr
  obtain ⟨⟨cause, tval⟩, htrap⟩ := Option.isSome_iff_exists.mp ht
  have hcases := h.trap_cases henv ht
  have hmem2 : s.backend.ex2.select = .mem →
      s.backend.ex2.pc.signExtend 64 = (s.instr s.ex2Id).pc := by
    intro h2
    have hp := pending_of_select2 h (by decide) h2
    have hq : s.backend.ex2SquashedQ = false := by
      by_contra hq
      exact (h.ex2Squashed hp (by simpa using hq)).2.2.2.2 h2
    have hh := h.ex2 hp hq
    rw [hh.pc]
    exact hh.legal
  refine ⟨cause, tval, ?_⟩
  simp only [Backend.exception, htrap, Backend.exception.memEpc, Option.some.injEq,
    Prod.mk.injEq, true_and]
  rw [htr] at hcases
  rcases hcases with ⟨h2, -, hresp, hj⟩ | ⟨h1, hj, hresp⟩
  · simp only [Option.some.injEq] at hj
    rw [if_pos h2, hmem2 h2, hresp, hj]
    rfl
  · simp only [Option.some.injEq] at hj
    by_cases h2 : s.backend.ex2.select = .mem
    · rw [if_pos h2, hmem2 h2, if_pos (hresp.mpr h2)]
    · have hnone : ¬i.memResp.isSome = true := fun hr => h2 (hresp.mp hr)
      have hh := h.ex1 (pending_of_select1 h (by decide) h1)
      rw [if_neg h2, if_neg hnone, hh.pc, hj]
      exact hh.legal

/-- A memory trap is precise exactly if no response is delivered in its cycle, or if the
access that is answered has the same program counter. -/
theorem preciseTrap_iff (h0 : s₀.IsReset) (hrun : ∀ k, (after s₀ inp k).Env (inp k)) {n j : ℕ}
    (htrap : (after s₀ inp n).trapped (inp n) = some j)
    (hfair : ∀ u, u ≠ .mem → (after s₀ inp n).queue u ≠ [] →
      ∃ m ≥ n, (Backend.unitResp p (inp m) u).isSome = true) :
    PreciseTrap s₀ inp n j ↔ (inp n).memResp = none ∨
      ((after s₀ inp n).instr (after s₀ inp n).ex2Id).pc = ((after s₀ inp n).instr j).pc := by
  have hinv := inv_after h0 hrun n
  obtain ⟨cause, tval, hexc⟩ := hinv.exception_of_trap (hrun n) htrap
  constructor
  · rintro ⟨⟨cause', tval', hepc⟩, -, -⟩
    rw [hexc] at hepc
    simp only [Option.some.injEq, Prod.mk.injEq] at hepc
    cases hr : (inp n).memResp with
    | none => exact .inl rfl
    | some r =>
        right
        simpa [hr] using hepc.2.2
  · intro hcond
    refine ⟨⟨cause, tval, ?_⟩, ?_, ?_⟩
    · rw [hexc]
      cases hr : (inp n).memResp with
      | none => rfl
      | some r =>
          have hpc := hcond.resolve_left (by simp [hr])
          simp [hpc]
    · intro k hk hlt hsq
      obtain ⟨m, -, hw, hsqm⟩ : ∃ m ≥ n, k ∈ (after s₀ inp m).writes.map Prod.fst ∧
          (after s₀ inp m).squashed k = false := by
        rcases hinv.older_cases (hrun n) htrap hk hlt hsq with hw | ⟨hp, hid, hq, hresp⟩
        · exact ⟨n, le_rfl, hw, hsq⟩
        · rw [← hid]
          refine eventually_written h0 hrun hp hq ?_
          by_cases ha : (after s₀ inp n).backend.ex2.select = .alu
          · exact .inl ⟨_, by rw [Backend.ex2Data, if_pos ha]⟩
          · by_cases hm : (after s₀ inp n).backend.ex2.select = .mem
            · obtain ⟨x, hx⟩ := Option.isSome_iff_exists.mp (hresp hm)
              exact .inl ⟨⟨x, 0⟩, by simp [Backend.ex2Data, hm, Backend.unitResp, hx]⟩
            · refine .inr ⟨hm, hfair _ hm ?_⟩
              rw [hinv.queue _ ha, if_pos rfl]
              simp
      refine ⟨m, fun m' hm' => ?_⟩
      obtain ⟨hw', hsq'⟩ := written_mono h0 hrun hm' hw hsqm
      exact (inv_after h0 hrun m').filter_writes hw' hsq'
    · intro k hjk hk m e he heq
      have hsq : (after s₀ inp (n + 1)).squashed k = true := by
        simp only [after_succ, step, htrap, Bool.or_eq_true, decide_eq_true_eq]
        exact .inr ⟨hjk, hk⟩
      -- the entry is also in the log after the trap
      have he' : e ∈ (after s₀ inp (max m (n + 1))).writes :=
        (writes_mono (le_max_left m (n + 1))).subset he
      have hsq' : (after s₀ inp (max m (n + 1))).squashed k = true :=
        squashed_mono (le_max_right m (n + 1)) hsq
      rcases ((inv_after h0 hrun _).logged e he').2 with ⟨-, heff⟩ | ⟨hno, -⟩
      · exact heff
      · rw [heq, hsq'] at hno
        exact absurd hno (by decide)

end Run

/-! ## A small system -/

instance (d : DecodedInstr) : Decidable (Backend.LegalPc p d) := inferInstanceAs (Decidable (_ = _))

instance (s : BackendSys p) (i : BackendIn) : Decidable (s.Env i) :=
  decidable_of_iff
    ((∀ u ∈ [FuncUnit.alu, .mem, .mul, .div, .fpu],
        (Backend.unitResp p i u).isSome = true → s.queue u ≠ []) ∧
      (i.memTrap.isSome = true → (s.memQueue i).length = 1) ∧
      ∀ d ∈ i.fetch, d.exValid = false → Backend.LegalPc p d)
    ⟨fun ⟨a, b, c⟩ => ⟨fun u => a u (by cases u <;> simp),
        fun ht => List.length_eq_one_iff.mp (b ht), c⟩,
      fun ⟨a, b, c⟩ => ⟨fun u _ => a u, fun ht => List.length_eq_one_iff.mpr (b ht), c⟩⟩

def smallParams : BackendParams := ⟨56, 39, .none⟩

/-- An instruction of 32 bits without operands. -/
def smallInstr (op : OpType) (rd : BitVec 5) (pc : BitVec 64) (reason : IfReason) :
    DecodedInstr :=
  ⟨0, 0, rd, 0, false, false, false, false, op, false, true, true, 3, .signed, .add, .sll, .eq,
    .csr, .load, .read, pc, reason, false, 0, 3⟩

/-- The system after reset. -/
def smallReset : BackendSys smallParams where
  backend :=
    { deExValid := false
      deExDecoded := smallInstr .alu 0 0 .prefetch
      exStateQ := .flush
      sysStateQ := .idle
      eretPcQ := 0
      exExpectedPcQ := 0
      ex1 := ⟨false, .alu, 0, 0, 0, false, 0⟩
      ex2 := ⟨false, .alu, 0, 0, 0, false, 0⟩
      ex2SquashedQ := false
      excTvecQ := 0
      registers := fun _ => 0
      fpRegisters := fun _ => 0 }
  nextId := 0
  deId := 0
  ex1Id := 0
  ex2Id := 0
  instr := fun _ => smallInstr .alu 0 0 .prefetch
  queue := fun _ => []
  issued := []
  squashed := fun _ => false
  result := fun _ => none
  writes := []

theorem isReset_smallReset : smallReset.IsReset :=
  ⟨⟨rfl, rfl, rfl, rfl, rfl, rfl, ⟨rfl, rfl⟩, rfl, rfl, ⟨rfl, rfl⟩, rfl⟩, fun _ => rfl, rfl,
    fun _ => rfl, rfl⟩

/-- A cycle in which nothing is fetched or answered and every unit is ready. -/
def quiet : BackendIn :=
  ⟨none, none, true, true, true, true, none, none, none, none, none, true, true, 0, 0, 0⟩

def fetch (d : DecodedInstr) : BackendIn := { quiet with fetch := some d }

theorem env_quiet (s : BackendSys p) : s.Env quiet where
  asked u hu := by cases u <;> simp [Backend.unitResp, quiet] at hu
  trapAsked ht := by simp [quiet] at ht
  legal d hd := by simp [quiet] at hd

/-- A product, then a load that faults while the product is computed. -/
def productThenFault (k : ℕ) : BackendIn :=
  if k = 0 then fetch (smallInstr .mul 1 0x1000 .protChanged)
  else if k = 1 then fetch (smallInstr .mem 2 0x1004 .prefetch)
  else if k = 3 then { quiet with memTrap := some (13, 0) }
  else if k = 5 then { quiet with mulResp := some 42 }
  else quiet

theorem env_productThenFault (k : ℕ) :
    (after smallReset productThenFault k).Env (productThenFault k) := by
  by_cases hk : k < 6
  · exact (show ∀ k < 6, (after smallReset productThenFault k).Env (productThenFault k) by
      decide) k hk
  · have : productThenFault k = quiet := by
      simp [productThenFault, show k ≠ 0 by omega, show k ≠ 1 by omega, show k ≠ 3 by omega,
        show k ≠ 5 by omega]
    rw [this]
    exact env_quiet _

/-- The fault of the load is precise: the product is written once, the load never. -/
theorem preciseTrap_iff_productThenFault :
    (after smallReset productThenFault 3).trapped (productThenFault 3) = some 1 ∧
      PreciseTrap smallReset productThenFault 3 1 := by
  refine ⟨by decide, (preciseTrap_iff isReset_smallReset env_productThenFault
    (by decide) ?_).mpr (.inl rfl)⟩
  intro u hu hq
  cases u
  · exact absurd (show (after smallReset productThenFault 3).queue .alu = [] by decide) hq
  · exact absurd rfl hu
  · exact ⟨5, by decide, by decide⟩
  · exact absurd (show (after smallReset productThenFault 3).queue .div = [] by decide) hq
  · exact absurd (show (after smallReset productThenFault 3).queue .fpu = [] by decide) hq

/-- Two loads: the first one hits, the second one is misaligned. -/
def hitThenFault (k : ℕ) : BackendIn :=
  if k = 0 then fetch (smallInstr .mem 1 0x1000 .protChanged)
  else if k = 1 then fetch (smallInstr .mem 2 0x1004 .prefetch)
  else if k = 3 then { quiet with memResp := some 42, memTrap := some (4, 1) }
  else quiet

theorem env_hitThenFault (k : ℕ) :
    (after smallReset hitThenFault k).Env (hitThenFault k) := by
  by_cases hk : k < 4
  · exact (show ∀ k < 4, (after smallReset hitThenFault k).Env (hitThenFault k) by
      decide) k hk
  · have : hitThenFault k = quiet := by
      simp [hitThenFault, show k ≠ 0 by omega, show k ≠ 1 by omega, show k ≠ 3 by omega]
    rw [this]
    exact env_quiet _

/-- The response of the first load and the exception of the second come together, and the
exception is reported at the program counter of the first. -/
theorem wrong_epc_after_hit :
    smallReset.IsReset ∧ (∀ k, (after smallReset hitThenFault k).Env (hitThenFault k)) ∧
      (after smallReset hitThenFault 3).trapped (hitThenFault 3) = some 1 ∧
      ((after smallReset hitThenFault 3).instr 1).pc = 0x1004 ∧
      (after smallReset hitThenFault 3).backend.exception (hitThenFault 3) =
        some (4, 1, 0x1000) ∧
      ¬PreciseTrap smallReset hitThenFault 3 1 := by
  have hexc : (after smallReset hitThenFault 3).backend.exception (hitThenFault 3) =
      some (4, 1, 0x1000) := by decide
  have hpc : ((after smallReset hitThenFault 3).instr 1).pc = 0x1004 := by decide
  refine ⟨isReset_smallReset, env_hitThenFault, by decide, hpc, hexc, ?_⟩
  rintro ⟨⟨cause, tval, h⟩, -, -⟩
  rw [hexc, hpc] at h
  simp at h

end BackendSys

end Muntjac.Pipeline

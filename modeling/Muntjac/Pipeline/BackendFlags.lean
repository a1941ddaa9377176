import Muntjac.Pipeline.BackendForward
import Muntjac.Pipeline.CsRegisters
import Muntjac.Sync.Bits

/-!
# Floating-point exception flags

The floating-point unit answers with a value and with the exception flags that it raised.
The flags travel beside the value to EX2, and from there into `fflags`.  A value that
arrives while EX2 is not ready is captured in EX1, but its flags are not; and an operation
that was cancelled by a trap is drained through EX2 together with its flags.

## Main definitions

* `FlagSys` — the backend with its control and status registers.
* `FlagSys.Exact` — `fflags` holds what the committed instructions raised, and only that.
* `FlagSys.Accounted` — what was lost or added on the way is in `fflags` anyhow.

## Main results

* `FlagSys.Inv.law` — `fflags` holds what came along with the results that were written.
* `FlagSys.fflags_exact_iff` — when this is exact.
-/

namespace Muntjac.Pipeline

open Sync

namespace Backend
variable {p : BackendParams}

/-- `set_fflags_i`. -/
def setFflags (s : Backend p) (i : BackendIn) : BitVec 5 :=
  if s.ex2.pending then ((s.ex2Data i).map UnitResp.fflags).getD 0 else 0

/-- The inputs of the control and status registers; the register that is addressed, the
operand and the lines from outside are those of `x`. -/
def csrIn (s : Backend p) (i : BackendIn) (x : CsRegistersIn) : CsRegistersIn :=
  { x with
    csrOp := s.deExDecoded.csrOp
    csrOpEn := s.sysIssue i && s.deExDecoded.sysOp == .csr
    exValid := memTrapValid i || s.exceptionIssue i
    erValid := s.sysIssue i && s.deExDecoded.sysOp == .eret
    makeFsDirty := s.exIssue i && s.deExDecoded.useFrd
    setFflags := s.setFflags i
    instrRet := s.ex2.pending && (s.ex2Data i).isSome }

/-- The floating-point unit answers the instruction in EX1, which stays there. -/
def captures (s : Backend p) (i : BackendIn) : Bool :=
  s.ex1.select == .fpu && s.ex2.select != .fpu && (unitResp p i .fpu).isSome &&
    !s.ex2Ready i && !memTrapValid i

end Backend

/-! ## The control and status registers -/

namespace CsRegisters
variable {q : CsrParams}

/-- Software writes the flags. -/
def writesFflags (i : CsRegistersIn) : Bool :=
  !i.exValid && !i.erValid && i.csrOpEn && i.csrOp != .read &&
    (i.csrAddr == .fflags || i.csrAddr == .fcsr)

theorem fflagsQ_trap (s : CsRegisters q) (i : CsRegistersIn) :
    (s.trap i).fflagsQ = s.fflagsQ := by
  unfold trap
  split <;> rfl

theorem fflagsQ_eret (s : CsRegisters q) (i : CsRegistersIn) :
    (s.eret i).fflagsQ = s.fflagsQ := by
  unfold eret
  split <;> rfl

theorem fflagsQ_write (s : CsRegisters q) (hq : q.rv64f = true) (c : Csr) (x : BitVec 64) :
    (s.write c x).fflagsQ = if c == .fflags || c == .fcsr then x.setWidth 5 else s.fflagsQ := by
  cases c <;> simp [write, hq] <;> split <;> rfl

/-- Flags are accumulated unless software writes them. -/
theorem fflagsQ_next (s : CsRegisters q) (hq : q.rv64f = true) (i : CsRegistersIn) :
    (s.next i).fflagsQ =
      if writesFflags i then (s.wdataInt i).setWidth 5 else s.fflagsQ ||| i.setFflags := by
  have hacc : (s.accumulate i).fflagsQ = s.fflagsQ ||| i.setFflags := by simp [accumulate, hq]
  change (next.control s i).fflagsQ = _
  unfold next.control writesFflags
  cases i.exValid with
  | true => simp [fflagsQ_trap, hacc]
  | false =>
      cases i.erValid with
      | true => simp [fflagsQ_eret, hacc]
      | false =>
          cases hop : i.csrOpEn && i.csrOp != .read with
          | true => simp [hop, fflagsQ_write _ hq, hacc]
          | false => simp [hop, hacc]

end CsRegisters

/-! ## The system -/

/-- The backend with its registers.  `fflags` are the flags that the floating-point unit
raised for an instruction, `captured` tells that it did so while the instruction stayed in
EX1, `init` is what the flags were before the first of the results from `since` on. -/
structure FlagSys (p : BackendParams) (q : CsrParams) where
  pipe : BackendSys p
  csr : CsRegisters q
  fflags : ℕ → BitVec 5
  captured : ℕ → Bool
  init : BitVec 5
  since : ℕ

namespace FlagSys
variable {p : BackendParams} {q : CsrParams}

/-- The flags that the floating-point unit raises for instruction `k` in this cycle. -/
def raises (s : BackendSys p) (i : BackendIn) (k : ℕ) : Option (BitVec 5) :=
  if (s.queue .fpu).head? = some k then (Backend.unitResp p i .fpu).map UnitResp.fflags
  else none

def step (s : FlagSys p q) (i : BackendIn × CsRegistersIn) : FlagSys p q :=
  let x := s.pipe.backend.csrIn i.1 i.2
  { pipe := s.pipe.step i.1
    csr := s.csr.next x
    fflags := fun k => (raises s.pipe i.1 k).getD (s.fflags k)
    captured := fun k => s.captured k || (s.pipe.backend.captures i.1 && s.pipe.ex1Id == k)
    init := if CsRegisters.writesFflags x then (s.csr.wdataInt x).setWidth 5 else s.init
    since := if CsRegisters.writesFflags x then s.pipe.writes.length else s.since }

structure IsReset (s : FlagSys p q) : Prop where
  pipe : s.pipe.IsReset
  ex1 : s.pipe.backend.ex1.aluFflags = 0
  ex2 : s.pipe.backend.ex2.aluFflags = 0
  fflags : ∀ k, s.fflags k = 0
  captured : ∀ k, s.captured k = false
  init : s.csr.fflagsQ = s.init
  since : s.since = 0

/-- The instructions whose results were written since software wrote the flags; those that
a trap had cancelled are among them. -/
def written (s : FlagSys p q) : List ℕ := (s.pipe.writes.drop s.since).map Prod.fst

/-- The instructions that were committed since software wrote the flags. -/
def committed (s : FlagSys p q) : List ℕ := s.written.filter fun k => !s.pipe.squashed k

/-- The flags are the initial ones and those of the committed instructions. -/
def Exact (s : FlagSys p q) : Prop :=
  s.csr.fflagsQ = s.init ||| orAll (s.committed.map s.fflags)

/-- The flags that an instruction takes along to EX2. -/
def carried (s : FlagSys p q) (k : ℕ) : BitVec 5 := if s.captured k then 0 else s.fflags k

/-- Flags that were dropped in EX1 are set by something else, and so are those of operations
that were drained. -/
structure Accounted (s : FlagSys p q) : Prop where
  captured : ∀ k ∈ s.committed, s.captured k = true → ∀ b, (s.fflags k).getLsbD b = true →
    s.init.getLsbD b = true ∨
      ∃ j ∈ s.written, s.captured j = false ∧ (s.fflags j).getLsbD b = true
  drained : ∀ k ∈ s.written, s.pipe.squashed k = true → s.captured k = false →
    ∀ b, (s.fflags k).getLsbD b = true →
      s.init.getLsbD b = true ∨ ∃ j ∈ s.committed, (s.fflags j).getLsbD b = true

/-- The flags of a stage are those that its instruction takes along; as long as the unit has
not answered there are none. -/
structure StageFlags (s : FlagSys p q) (e : ExStage p) (k : ℕ) : Prop where
  answered : e.select = .alu → e.aluFflags = s.carried k
  waiting : e.select ≠ .alu → s.fflags k = 0 ∧ s.captured k = false

structure Inv (s : FlagSys p q) : Prop where
  pipe : s.pipe.Inv
  ex1Flags : s.pipe.backend.ex1.aluFflags = 0
  ex1 : s.pipe.backend.ex1.pending = true → s.StageFlags s.pipe.backend.ex1 s.pipe.ex1Id
  ex2 : s.pipe.backend.ex2.pending = true → s.StageFlags s.pipe.backend.ex2 s.pipe.ex2Id
  fresh : ∀ k, k ∉ s.pipe.issued → s.fflags k = 0 ∧ s.captured k = false
  since : s.since ≤ s.pipe.writes.length
  law : s.csr.fflagsQ = s.init ||| orAll (s.written.map s.carried)

section Step
variable {s : FlagSys p q} {i : BackendIn × CsRegistersIn} {k : ℕ}

/-! ### The answers of the floating-point unit -/

/-- Only the floating-point unit raises flags. -/
theorem fflags_of_ne_fpu {i : BackendIn} {u : FuncUnit} (hu : u ≠ .fpu) {r : UnitResp}
    (hr : Backend.unitResp p i u = some r) : r.fflags = 0 := by
  cases u with
  | alu => simp [Backend.unitResp] at hr
  | fpu => exact absurd rfl hu
  | mem | mul | div =>
      obtain ⟨x, -, rfl⟩ := Option.map_eq_some_iff.mp hr
      rfl

theorem raises_ex2 (h : s.Inv) (hs : s.pipe.backend.ex2.select = .fpu) :
    raises s.pipe i.1 s.pipe.ex2Id = (Backend.unitResp p i.1 .fpu).map UnitResp.fflags := by
  rw [raises, h.pipe.queue .fpu (by decide), if_pos hs]
  exact if_pos rfl

theorem raises_ex1 (h : s.Inv) (hs : s.pipe.backend.ex1.select = .fpu)
    (h2 : s.pipe.backend.ex2.select ≠ .fpu) :
    raises s.pipe i.1 s.pipe.ex1Id = (Backend.unitResp p i.1 .fpu).map UnitResp.fflags := by
  rw [raises, h.pipe.queue .fpu (by decide), if_neg h2, if_pos hs]
  exact if_pos rfl

/-- The unit answers an instruction that waits for it in a stage, EX2 first. -/
theorem raises_none (h : s.Inv) (h2 : s.pipe.backend.ex2.select = .fpu → s.pipe.ex2Id ≠ k)
    (h1 : s.pipe.backend.ex1.select = .fpu → s.pipe.backend.ex2.select ≠ .fpu →
      s.pipe.ex1Id ≠ k) : raises s.pipe i.1 k = none := by
  refine if_neg fun hk => ?_
  rcases h.pipe.head_queue (by decide) hk with ⟨hs, hid⟩ | ⟨hn, hs, hid⟩
  · exact h2 hs hid
  · exact h1 hs hn hid

theorem captures_iff {b : Backend p} {i : BackendIn} : b.captures i = true ↔
    b.ex1.select = .fpu ∧ b.ex2.select ≠ .fpu ∧ (Backend.unitResp p i .fpu).isSome = true ∧
      b.ex2Ready i = false ∧ i.memTrap = none := by
  simp [Backend.captures, Backend.memTrapValid, and_assoc]

theorem fflags_step (k : ℕ) : (s.step i).fflags k = (raises s.pipe i.1 k).getD (s.fflags k) := rfl

theorem captured_step_of_ne (hk : s.pipe.backend.captures i.1 = true → s.pipe.ex1Id ≠ k) :
    (s.step i).captured k = s.captured k := by
  change (s.captured k || (s.pipe.backend.captures i.1 && s.pipe.ex1Id == k)) = _
  cases hc : s.pipe.backend.captures i.1 with
  | false => simp
  | true => simp [hk hc]

/-- Nothing happens to the flags of an instruction that is not answered. -/
theorem carried_step_of_none (hr : raises s.pipe i.1 k = none)
    (hk : s.pipe.backend.captures i.1 = true → s.pipe.ex1Id ≠ k) :
    (s.step i).carried k = s.carried k := by
  rw [carried, captured_step_of_ne hk, fflags_step, hr]
  rfl

theorem ex1Id_ne_ex2Id (h : s.Inv) (h1 : s.pipe.backend.ex1.pending = true)
    (h2 : s.pipe.backend.ex2.pending = true) : s.pipe.ex1Id ≠ s.pipe.ex2Id := by
  have := h.pipe.order h1 h2
  omega

/-- An instruction that waits and is answered takes the flags of the answer along. -/
theorem carried_of_raises (hw : s.captured k = false) {f : BitVec 5}
    (hr : raises s.pipe i.1 k = some f)
    (hk : s.pipe.backend.captures i.1 = true → s.pipe.ex1Id ≠ k) :
    (s.step i).carried k = f := by
  rw [carried, captured_step_of_ne hk, hw, fflags_step, hr]
  rfl

/-- The flags beside the value that leaves EX2. -/
theorem Inv.carried_of_ex2Data (h : s.Inv) (hp : s.pipe.backend.ex2.pending = true)
    {r : UnitResp} (hr : s.pipe.backend.ex2Data i.1 = some r) :
    (s.step i).carried s.pipe.ex2Id = r.fflags := by
  have hst := h.ex2 hp
  have hcap : s.pipe.backend.captures i.1 = true → s.pipe.ex1Id ≠ s.pipe.ex2Id := fun hc =>
    ex1Id_ne_ex2Id h (BackendSys.pending_of_select1 h.pipe (by decide) (captures_iff.mp hc).1) hp
  have hne1 : s.pipe.backend.ex1.select = .fpu → s.pipe.ex1Id ≠ s.pipe.ex2Id := fun hs =>
    ex1Id_ne_ex2Id h (BackendSys.pending_of_select1 h.pipe (by decide) hs) hp
  unfold Backend.ex2Data at hr
  split_ifs at hr with ha
  · rw [carried_step_of_none (raises_none h (by simp [ha]) fun hs _ => hne1 hs) hcap,
      ← hst.answered ha]
    simp only [Option.some.injEq] at hr
    rw [← hr]
  · obtain ⟨hf, hc⟩ := hst.waiting ha
    by_cases hs : s.pipe.backend.ex2.select = .fpu
    · rw [hs] at hr
      refine carried_of_raises hc ?_ hcap
      rw [raises_ex2 h hs, hr]
      rfl
    · rw [carried_step_of_none (raises_none h (fun hs' => absurd hs' hs) fun hs' _ => hne1 hs')
        hcap, carried, hc, hf, fflags_of_ne_fpu hs hr]
      rfl

/-- The flags beside the value that moves on from EX1. -/
theorem Inv.carried_of_ex1Data (h : s.Inv) (hp : s.pipe.backend.ex1.pending = true)
    (hready : s.pipe.backend.ex2Ready i.1 = true) {r : UnitResp}
    (hr : s.pipe.backend.ex1Data i.1 = some r) :
    (s.step i).carried s.pipe.ex1Id = r.fflags := by
  have hst := h.ex1 hp
  have hcap : s.pipe.backend.captures i.1 = true → s.pipe.ex1Id ≠ s.pipe.ex1Id := fun hc => by
    have hnot := (captures_iff.mp hc).2.2.2.1
    simp [hready] at hnot
  have hne2 : s.pipe.backend.ex2.select = .fpu → s.pipe.ex2Id ≠ s.pipe.ex1Id := fun hs =>
    (ex1Id_ne_ex2Id h hp (BackendSys.pending_of_select2 h.pipe (by decide) hs)).symm
  unfold Backend.ex1Data at hr
  split_ifs at hr with ha h2
  · rw [carried_step_of_none (raises_none h hne2 (by simp [ha])) hcap, ← hst.answered ha]
    simp only [Option.some.injEq] at hr
    rw [← hr]
  · obtain ⟨hf, hc⟩ := hst.waiting ha
    by_cases hs : s.pipe.backend.ex1.select = .fpu
    · rw [hs] at hr h2
      refine carried_of_raises hc ?_ hcap
      rw [raises_ex1 h hs h2, hr]
      rfl
    · rw [carried_step_of_none (raises_none h hne2 fun hs' => absurd hs' hs) hcap, carried, hc,
        hf, fflags_of_ne_fpu hs hr]
      rfl

/-- As long as EX1 is not answered, nothing is known about its flags. -/
theorem Inv.waiting_of_ex1Data (h : s.Inv) (hp : s.pipe.backend.ex1.pending = true)
    (hr : s.pipe.backend.ex1Data i.1 = none) :
    (s.step i).fflags s.pipe.ex1Id = 0 ∧ (s.step i).captured s.pipe.ex1Id = false := by
  have hne : s.pipe.backend.ex1.select ≠ .alu := fun ha => by simp [Backend.ex1Data, ha] at hr
  obtain ⟨hf, hc⟩ := (h.ex1 hp).waiting hne
  have hno : s.pipe.backend.ex1.select = .fpu → s.pipe.backend.ex2.select ≠ .fpu →
      Backend.unitResp p i.1 .fpu = none := by
    intro hs h2
    simpa [Backend.ex1Data, hs, h2] using hr
  have hcap : s.pipe.backend.captures i.1 = false := by
    by_contra hcap
    obtain ⟨hs, h2, hsome, -⟩ := captures_iff.mp (by simpa using hcap)
    simp [hno hs h2] at hsome
  refine ⟨?_, by rw [captured_step_of_ne (by simp [hcap]), hc]⟩
  rw [fflags_step]
  by_cases hs : s.pipe.backend.ex1.select = .fpu ∧ s.pipe.backend.ex2.select ≠ .fpu
  · rw [raises_ex1 h hs.1 hs.2, hno hs.1 hs.2]
    exact hf
  · rw [raises_none h (fun h2 => ?_) fun h1 h2 => absurd ⟨h1, h2⟩ hs]
    · exact hf
    · exact (ex1Id_ne_ex2Id h hp (BackendSys.pending_of_select2 h.pipe (by decide) h2)).symm

theorem Inv.waiting_of_ex2Data (h : s.Inv) (hp : s.pipe.backend.ex2.pending = true)
    (hr : s.pipe.backend.ex2Data i.1 = none) :
    (s.step i).fflags s.pipe.ex2Id = 0 ∧ (s.step i).captured s.pipe.ex2Id = false := by
  have hne : s.pipe.backend.ex2.select ≠ .alu := fun ha => by simp [Backend.ex2Data, ha] at hr
  obtain ⟨hf, hc⟩ := (h.ex2 hp).waiting hne
  have hne1 : s.pipe.backend.ex1.select = .fpu → s.pipe.ex1Id ≠ s.pipe.ex2Id := fun hs =>
    ex1Id_ne_ex2Id h (BackendSys.pending_of_select1 h.pipe (by decide) hs) hp
  refine ⟨?_, by rw [captured_step_of_ne fun hcap => hne1 (captures_iff.mp hcap).1, hc]⟩
  rw [fflags_step]
  by_cases hs : s.pipe.backend.ex2.select = .fpu
  · rw [raises_ex2 h hs, show Backend.unitResp p i.1 .fpu = none by
      simpa [Backend.ex2Data, hs] using hr]
    exact hf
  · rw [raises_none h (fun h2 => absurd h2 hs) fun h1 _ => hne1 h1]
    exact hf

/-! ### The stages after a cycle -/

theorem Inv.ex1Flags_step (h : s.Inv) : (s.step i).pipe.backend.ex1.aluFflags = 0 := by
  change (s.pipe.backend.nextEx1 i.1).aluFflags = 0
  unfold Backend.nextEx1 Backend.ex1Rest
  split_ifs
  · rfl
  · rfl
  · exact h.ex1Flags
  · cases s.pipe.backend.ex1Data i.1 <;> exact h.ex1Flags

/-- An instruction that was not issued has raised nothing. -/
theorem Inv.fresh_step (h : s.Inv) (hk : k ∉ s.pipe.issued) :
    (s.step i).fflags k = 0 ∧ (s.step i).captured k = false := by
  obtain ⟨hf, hc⟩ := h.fresh k hk
  have h1 : s.pipe.backend.ex1.select = .fpu → s.pipe.ex1Id ≠ k := by
    rintro hs rfl
    exact hk (h.pipe.ex1 (BackendSys.pending_of_select1 h.pipe (by decide) hs)).issued
  have h2 : s.pipe.backend.ex2.select = .fpu → s.pipe.ex2Id ≠ k := by
    rintro hs rfl
    exact hk (h.pipe.ex2_issued (BackendSys.pending_of_select2 h.pipe (by decide) hs))
  refine ⟨?_, ?_⟩
  · rw [fflags_step, raises_none h h2 fun hs _ => h1 hs]
    exact hf
  · rw [captured_step_of_ne fun hcap => h1 (captures_iff.mp hcap).1, hc]

theorem Inv.ex1_step (h : s.Inv) (hp : (s.step i).pipe.backend.ex1.pending = true) :
    (s.step i).StageFlags (s.step i).pipe.backend.ex1 (s.step i).pipe.ex1Id := by
  have hflags : (s.step i).pipe.backend.ex1.aluFflags = 0 := h.ex1Flags_step
  rcases BackendSys.ex1_origin hp with ⟨hi, hid⟩ | ⟨hp', hr, ht, hid⟩
  · -- an instruction that has just been issued
    have hnot : s.pipe.deId ∉ s.pipe.issued := fun hk => by
      have := h.pipe.lt_deId hi hk
      omega
    have hfresh := h.fresh_step (i := i) hnot
    rw [show (s.step i).pipe.ex1Id = s.pipe.deId from hid]
    exact ⟨fun _ => by rw [hflags, carried, hfresh.1, hfresh.2]; rfl, fun _ => hfresh⟩
  · rw [show (s.step i).pipe.ex1Id = s.pipe.ex1Id from hid]
    have hni : s.pipe.backend.issues i.1 = false := by
      by_contra hi
      have hroom := (BackendSys.of_issues (by simpa using hi)).2.2.1
      simp [hr, hp'] at hroom
    have hnext : (s.step i).pipe.backend.ex1 = _ :=
      (BackendSys.nextEx1_of_not_issues hni).trans (BackendSys.ex1Rest_of_stuck hr ht)
    cases hd : s.pipe.backend.ex1Data i.1 with
    | none =>
        have hw := h.waiting_of_ex1Data hp' hd
        exact ⟨fun _ => by rw [hflags, carried, hw.1, hw.2]; rfl, fun _ => hw⟩
    | some r =>
        have hsel : (s.step i).pipe.backend.ex1.select = .alu := by rw [hnext, hd]
        refine ⟨fun _ => ?_, fun hne => absurd hsel hne⟩
        rw [hflags]
        by_cases hcap : s.pipe.backend.captures i.1 = true
        · simp [carried, step, hcap]
        · -- the value was there before, or its unit raises no flags
          have hst := h.ex1 hp'
          have hno : raises s.pipe i.1 s.pipe.ex1Id = none := by
            refine raises_none h (fun h2 => ?_) fun h1 h2 => ?_
            · exact (ex1Id_ne_ex2Id h hp'
                (BackendSys.pending_of_select2 h.pipe (by decide) h2)).symm
            · have hu : Backend.unitResp p i.1 .fpu = some r := by
                simpa [Backend.ex1Data, h1, h2] using hd
              exact absurd (captures_iff.mpr ⟨h1, h2, by simp [hu], hr, ht⟩) hcap
          rw [carried_step_of_none hno (fun hc => absurd hc hcap)]
          by_cases ha : s.pipe.backend.ex1.select = .alu
          · rw [← hst.answered ha, h.ex1Flags]
          · rw [carried, (hst.waiting ha).1, ite_self]

theorem Inv.ex2_step (h : s.Inv) (hp : (s.step i).pipe.backend.ex2.pending = true) :
    (s.step i).StageFlags (s.step i).pipe.backend.ex2 (s.step i).pipe.ex2Id := by
  rcases BackendSys.ex2_origin hp with ⟨hpr, hid⟩ | ⟨hdr, hid⟩ | ⟨hp', hd, hid⟩
  · obtain ⟨hp1, hready, -⟩ := BackendSys.progresses_iff.mp hpr
    rw [show (s.step i).pipe.ex2Id = s.pipe.ex1Id from hid]
    change (s.step i).StageFlags (s.pipe.backend.nextEx2 i.1) _
    cases hd : s.pipe.backend.ex1Data i.1 with
    | none =>
        have hw := h.waiting_of_ex1Data hp1 hd
        simp only [Backend.nextEx2, hpr, hd, if_true]
        exact ⟨fun _ => by rw [carried, hw.1, ite_self], fun _ => hw⟩
    | some r =>
        simp only [Backend.nextEx2, hpr, hd, if_true]
        exact ⟨fun _ => (h.carried_of_ex1Data hp1 hready hd).symm, fun hne => absurd rfl hne⟩
  · have hd := (BackendSys.drains_iff.mp hdr).2.2.2
    have hp1 : s.pipe.backend.ex1.pending = true := by
      by_contra hp1
      simp [Backend.ex1Data, h.pipe.ex1Empty (by simpa using hp1)] at hd
    have hw := h.waiting_of_ex1Data hp1 hd
    have hn : s.pipe.backend.progresses i.1 = false := by
      by_contra hn
      have ht := (BackendSys.progresses_iff.mp (by simpa using hn)).2.2
      have hs := (BackendSys.drains_iff.mp hdr).2.1
      simp [ht] at hs
    rw [show (s.step i).pipe.ex2Id = s.pipe.ex1Id from hid]
    change (s.step i).StageFlags (s.pipe.backend.nextEx2 i.1) _
    simp only [Backend.nextEx2, hn, hdr, if_true, Bool.false_eq_true, if_false]
    exact ⟨fun _ => by rw [carried, hw.1, ite_self], fun _ => hw⟩
  · have hw := h.waiting_of_ex2Data hp' hd
    have hne : s.pipe.backend.ex2.select ≠ .alu := fun ha => by simp [Backend.ex2Data, ha] at hd
    rw [show (s.step i).pipe.ex2Id = s.pipe.ex2Id from hid]
    have hn : s.pipe.backend.progresses i.1 = false := by
      simp [Backend.progresses, Backend.ex2Ready, hp', hd]
    refine ⟨fun ha => ?_, fun _ => hw⟩
    rw [carried, hw.1, ite_self]
    change (s.pipe.backend.nextEx2 i.1).select = .alu at ha
    change (s.pipe.backend.nextEx2 i.1).aluFflags = 0
    simp only [Backend.nextEx2, hn, Bool.false_eq_true, if_false] at ha ⊢
    split_ifs at ha ⊢ with hdr hl
    · rfl
    · rfl
    · exact absurd ha hne

/-! ### The register -/

/-- The flags of a result that was written stay as they are. -/
theorem Inv.of_written (h : s.Inv) (hk : k ∈ s.pipe.writes.map Prod.fst) :
    raises s.pipe i.1 k = none ∧ (s.pipe.backend.captures i.1 = true → s.pipe.ex1Id ≠ k) := by
  obtain ⟨e, he, rfl⟩ := List.mem_map.mp hk
  have h1 : s.pipe.backend.ex1.select = .fpu → s.pipe.ex1Id ≠ e.1 := fun hs => by
    have := h.pipe.written1 (BackendSys.pending_of_select1 h.pipe (by decide) hs) e he
    omega
  have h2 : s.pipe.backend.ex2.select = .fpu → s.pipe.ex2Id ≠ e.1 := fun hs => by
    have := h.pipe.written2 (BackendSys.pending_of_select2 h.pipe (by decide) hs) e he
    omega
  exact ⟨raises_none h h2 fun hs _ => h1 hs, fun hc => h1 (captures_iff.mp hc).1⟩

/-- Software writes the flags only when no result is on its way. -/
theorem regWrite_of_writesFflags {x : CsRegistersIn}
    (hw : CsRegisters.writesFflags (s.pipe.backend.csrIn i.1 x) = true) :
    s.pipe.backend.regWrite i.1 = none := by
  simp only [CsRegisters.writesFflags, Backend.csrIn, Bool.and_eq_true] at hw
  have hp := (BackendSys.sysIssue_iff.mp hw.1.1.2.1).2.2.2.2.1
  simp [Backend.regWrite, hp]

theorem Inv.since_step (h : s.Inv) : (s.step i).since ≤ (s.step i).pipe.writes.length := by
  have hs := h.since
  simp only [step, BackendSys.step, List.length_append]
  split_ifs <;> omega

/-- The results that are new, with the flags that they bring. -/
theorem Inv.written_step (h : s.Inv)
    (hw : CsRegisters.writesFflags (s.pipe.backend.csrIn i.1 i.2) = false) :
    (s.step i).written.map (s.step i).carried = s.written.map s.carried ++
      ((s.pipe.backend.regWrite i.1).map fun _ => s.pipe.backend.setFflags i.1).toList := by
  have hsince : (s.step i).since = s.since := by simp [step, hw]
  have hold : s.written.map (s.step i).carried = s.written.map s.carried := by
    refine List.map_congr_left fun k hk => ?_
    have hmem : k ∈ s.pipe.writes.map Prod.fst :=
      ((List.drop_sublist _ _).map _).subset hk
    obtain ⟨hr, hc⟩ := h.of_written hmem (i := i)
    exact carried_step_of_none hr hc
  have hsplit : (s.step i).written = s.written ++
      ((s.pipe.backend.regWrite i.1).map fun _ => s.pipe.ex2Id).toList := by
    rw [written, written, hsince]
    change ((s.pipe.writes ++ _).drop _).map _ = _
    rw [List.drop_append_of_le_length h.since, List.map_append]
    cases s.pipe.backend.regWrite i.1 <;> rfl
  rw [hsplit, List.map_append, hold]
  congr 1
  cases hrw : s.pipe.backend.regWrite i.1 with
  | none => rfl
  | some w =>
      unfold Backend.regWrite at hrw
      split_ifs at hrw with hp
      obtain ⟨r, hr, -⟩ := Option.map_eq_some_iff.mp hrw
      have hset : s.pipe.backend.setFflags i.1 = r.fflags := by simp [Backend.setFflags, hp, hr]
      simp [h.carried_of_ex2Data hp hr, hset]

theorem Inv.law_step (h : s.Inv) (hq : q.rv64f = true) : (s.step i).csr.fflagsQ =
    (s.step i).init ||| orAll ((s.step i).written.map (s.step i).carried) := by
  have hnext : (s.step i).csr.fflagsQ = _ :=
    CsRegisters.fflagsQ_next s.csr hq (s.pipe.backend.csrIn i.1 i.2)
  rw [hnext]
  cases hw : CsRegisters.writesFflags (s.pipe.backend.csrIn i.1 i.2) with
  | true =>
      have hnil : (s.step i).written = [] := by
        simp [written, step, hw, BackendSys.step, regWrite_of_writesFflags hw]
      rw [hnil]
      simp [step, hw]
  | false =>
      have hinit : (s.step i).init = s.init := by simp [step, hw]
      rw [h.written_step hw, hinit, if_neg (by simp), h.law]
      change _ ||| s.pipe.backend.setFflags i.1 = _
      cases hrw : s.pipe.backend.regWrite i.1 with
      | none =>
          have hset : s.pipe.backend.setFflags i.1 = 0 := by
            unfold Backend.setFflags
            unfold Backend.regWrite at hrw
            split_ifs at hrw ⊢ with hp
            · rw [Option.map_eq_none_iff.mp hrw]
              rfl
            · rfl
          simp [hset]
      | some w =>
          rw [Option.map_some, Option.toList_some, orAll_concat, BitVec.or_assoc]

theorem inv_step (h : s.Inv) (hq : q.rv64f = true) (henv : s.pipe.Env i.1) : (s.step i).Inv where
  pipe := BackendSys.inv_step h.pipe henv
  ex1Flags := h.ex1Flags_step
  ex1 := h.ex1_step
  ex2 := h.ex2_step
  fresh _ hk := h.fresh_step fun hk' => hk (BackendSys.mem_issued_step hk')
  since := h.since_step
  law := h.law_step hq

theorem inv_of_isReset (h : s.IsReset) : s.Inv where
  pipe := BackendSys.inv_of_isReset h.pipe
  ex1Flags := h.ex1
  ex1 hp := by simp [h.pipe.backend.ex1Pending] at hp
  ex2 hp := by simp [h.pipe.backend.ex2Pending] at hp
  fresh k _ := ⟨h.fflags k, h.captured k⟩
  since := by simp [h.since]
  law := by simp [written, h.pipe.writes, h.init]

end Step

/-! ## Runs -/

section Run
variable {s₀ : FlagSys p q} {inp : ℕ → BackendIn × CsRegistersIn}

/-- The system after `n` cycles. -/
def after (s₀ : FlagSys p q) (inp : ℕ → BackendIn × CsRegistersIn) (n : ℕ) : FlagSys p q :=
  run step s₀ inp n

theorem inv_after (h0 : s₀.IsReset) (hq : q.rv64f = true)
    (hrun : ∀ k, (after s₀ inp k).pipe.Env (inp k).1) (n : ℕ) : (after s₀ inp n).Inv :=
  run_invariant Inv (fun s (i : BackendIn × CsRegistersIn) => s.pipe.Env i.1) (inv_of_isReset h0)
    (fun _ _ h henv => inv_step h hq henv) n fun k _ => hrun k

theorem carried_of_not_captured {s : FlagSys p q} {k : ℕ} (hk : s.captured k = false) :
    s.carried k = s.fflags k := by
  rw [carried, hk]
  rfl

theorem not_captured_of_carried {s : FlagSys p q} {k b : ℕ}
    (hb : (s.carried k).getLsbD b = true) : s.captured k = false := by
  by_contra hk
  have hk' : s.captured k = true := by simpa using hk
  simp [carried, hk'] at hb

theorem mem_committed {s : FlagSys p q} {k : ℕ} :
    k ∈ s.committed ↔ k ∈ s.written ∧ s.pipe.squashed k = false := by
  simp [committed]

theorem Inv.exact_iff {s : FlagSys p q} (h : s.Inv) : s.Exact ↔ s.Accounted := by
  have hbits : ∀ f : ℕ → BitVec 5, ∀ l : List ℕ, ∀ b,
      (s.init ||| orAll (l.map f)).getLsbD b = true ↔
        s.init.getLsbD b = true ∨ ∃ k ∈ l, (f k).getLsbD b = true := by
    intro f l b
    simp [getLsbD_orAll]
  rw [Exact, h.law]
  constructor
  · intro heq
    have hb : ∀ b, (s.init.getLsbD b = true ∨ ∃ k ∈ s.written, (s.carried k).getLsbD b = true) ↔
        (s.init.getLsbD b = true ∨ ∃ k ∈ s.committed, (s.fflags k).getLsbD b = true) := by
      intro b
      rw [← hbits, ← hbits, heq]
    constructor
    · intro k hk _ b hf
      rcases (hb b).mpr (.inr ⟨k, hk, hf⟩) with hi | ⟨j, hj, hc⟩
      · exact .inl hi
      · have hnot := not_captured_of_carried hc
        rw [carried_of_not_captured hnot] at hc
        exact .inr ⟨j, hj, hnot, hc⟩
    · intro k hk _ hnot b hf
      exact (hb b).mp (.inr ⟨k, hk, by rwa [carried_of_not_captured hnot]⟩)
  · intro hacc
    refine BitVec.eq_of_getLsbD_eq fun b _ => Bool.eq_iff_iff.mpr ?_
    rw [hbits, hbits]
    constructor
    · rintro (hi | ⟨k, hk, hc⟩)
      · exact .inl hi
      · have hnot := not_captured_of_carried hc
        rw [carried_of_not_captured hnot] at hc
        cases hsq : s.pipe.squashed k with
        | false => exact .inr ⟨k, mem_committed.mpr ⟨hk, hsq⟩, hc⟩
        | true => exact hacc.drained k hk hsq hnot b hc
    · rintro (hi | ⟨k, hk, hf⟩)
      · exact .inl hi
      · cases hcap : s.captured k with
        | false =>
            exact .inr ⟨k, (mem_committed.mp hk).1, by rwa [carried_of_not_captured hcap]⟩
        | true =>
            rcases hacc.captured k hk hcap b hf with hi | ⟨j, hj, hnot, hc⟩
            · exact .inl hi
            · exact .inr ⟨j, hj, by rwa [carried_of_not_captured hnot]⟩

/-- In every run `fflags` is exact after a cycle if and only if the flags that were dropped in
EX1, and those that were drained, are set anyhow. -/
theorem fflags_exact_iff (h0 : s₀.IsReset) (hq : q.rv64f = true)
    (hrun : ∀ k, (after s₀ inp k).pipe.Env (inp k).1) (n : ℕ) :
    (after s₀ inp n).Exact ↔ (after s₀ inp n).Accounted :=
  (inv_after h0 hq hrun n).exact_iff

end Run

/-! ## Flags that are lost, and flags that are added -/

instance (s : FlagSys p q) : Decidable s.Exact :=
  inferInstanceAs (Decidable (s.csr.fflagsQ = s.init ||| orAll (s.committed.map s.fflags)))

def fullParams : BackendParams := ⟨56, 39, .full⟩

def fullCsrParams : CsrParams :=
  ⟨true, true, 16, 56, 39, 0, CsrParams.asidLen_max, CsrParams.physAddrLen_max,
    CsrParams.noCounters_le⟩

/-- The system after reset. -/
def fullReset : FlagSys fullParams fullCsrParams where
  pipe :=
    { backend :=
        { deExValid := false
          deExDecoded := BackendSys.smallInstr .alu 0 0 .prefetch
          exStateQ := .flush
          sysStateQ := .idle
          eretPcQ := 0
          exExpectedPcQ := 0
          ex1 := ⟨false, .alu, 0, 0, 0, false, 0⟩
          ex2 := ⟨false, .alu, 0, 0, 0, false, 0⟩
          ex2SquashedQ := false
          excTvecQ := 0
          registers := fun _ => 0
          fpRegisters := fun _ => 0 }
      nextId := 0
      deId := 0
      ex1Id := 0
      ex2Id := 0
      instr := fun _ => BackendSys.smallInstr .alu 0 0 .prefetch
      queue := fun _ => []
      issued := []
      squashed := fun _ => false
      result := fun _ => none
      writes := [] }
  csr := CsRegisters.reset fullCsrParams
  fflags := fun _ => 0
  captured := fun _ => false
  init := 0
  since := 0

theorem isReset_fullReset : fullReset.IsReset where
  pipe := ⟨⟨rfl, rfl, rfl, rfl, rfl, rfl, ⟨rfl, rfl⟩, rfl, rfl, ⟨rfl, rfl⟩, rfl⟩, fun _ => rfl,
    rfl, fun _ => rfl, rfl⟩
  ex1 := rfl
  ex2 := rfl
  fflags _ := rfl
  captured _ := rfl
  init := rfl
  since := rfl

/-- What the registers see from outside: nothing. -/
def quietCsr : CsRegistersIn :=
  ⟨0, .cycle, 0, .read, false, false, false, false, false, false, 0, 0, 0, false, .m, false, 0,
    false, 0⟩

/-- A load and a floating-point addition; the unit raises the inexact flag in cycle `f`, and
the data cache answers with `m` in cycle 5. -/
def loadThenAdd (f : ℕ) (m : BackendIn) (k : ℕ) : BackendIn × CsRegistersIn :=
  (if k = 0 then BackendSys.fetch (BackendSys.smallInstr .mem 1 0x1000 .protChanged)
    else if k = 1 then BackendSys.fetch (BackendSys.smallInstr .fp 2 0x1004 .prefetch)
    else if k = f then { BackendSys.quiet with fpuResp := some ⟨42, 1⟩ }
    else if k = 5 then m
    else BackendSys.quiet, quietCsr)

/-- The load is answered. -/
def loadDone : BackendIn := { BackendSys.quiet with memResp := some 7 }

/-- The load faults. -/
def loadFault : BackendIn := { BackendSys.quiet with memTrap := some (13, 0) }

theorem env_loadThenAdd {f : ℕ} {m : BackendIn} (hf : f < 8)
    (h : ∀ k < 8, (after fullReset (loadThenAdd f m) k).pipe.Env (loadThenAdd f m k).1) (k : ℕ) :
    (after fullReset (loadThenAdd f m) k).pipe.Env (loadThenAdd f m k).1 := by
  by_cases hk : k < 8
  · exact h k hk
  · have : (loadThenAdd f m k).1 = BackendSys.quiet := by
      simp [loadThenAdd, show k ≠ 0 by omega, show k ≠ 1 by omega, show k ≠ f by omega,
        show k ≠ 5 by omega]
    rw [this]
    exact BackendSys.env_quiet _

theorem env_loadThenAdd_late (k : ℕ) : (after fullReset (loadThenAdd 7 loadDone) k).pipe.Env
    (loadThenAdd 7 loadDone k).1 :=
  env_loadThenAdd (by decide) (by decide) k

/-- The load is answered before the addition: its flag arrives. -/
theorem fflags_exact_iff_loadThenAdd :
    (after fullReset (loadThenAdd 7 loadDone) 8).csr.fflagsQ = 1 ∧
      (after fullReset (loadThenAdd 7 loadDone) 8).Accounted :=
  ⟨by decide,
    (fflags_exact_iff isReset_fullReset rfl env_loadThenAdd_late 8).mp (by decide)⟩

/-- The addition is answered while the load waits in EX2, and its flag is lost although it is
committed; and if the load faults, the addition is drained, and its flag is set although it
is not committed. -/
theorem fflags_lost_and_invented :
    fullReset.IsReset ∧
    ((∀ k, (after fullReset (loadThenAdd 3 loadDone) k).pipe.Env
        (loadThenAdd 3 loadDone k).1) ∧
      (after fullReset (loadThenAdd 3 loadDone) 9).committed = [0, 1] ∧
      (after fullReset (loadThenAdd 3 loadDone) 9).fflags 1 = 1 ∧
      (after fullReset (loadThenAdd 3 loadDone) 9).csr.fflagsQ = 0 ∧
      ¬(after fullReset (loadThenAdd 3 loadDone) 9).Exact) ∧
    ((∀ k, (after fullReset (loadThenAdd 7 loadFault) k).pipe.Env
        (loadThenAdd 7 loadFault k).1) ∧
      (after fullReset (loadThenAdd 7 loadFault) 9).committed = [] ∧
      (after fullReset (loadThenAdd 7 loadFault) 9).csr.fflagsQ = 1 ∧
      ¬(after fullReset (loadThenAdd 7 loadFault) 9).Exact) :=
  ⟨isReset_fullReset,
    ⟨env_loadThenAdd (by decide) (by decide), by decide⟩,
    ⟨env_loadThenAdd (by decide) (by decide), by decide⟩⟩

end FlagSys

end Muntjac.Pipeline

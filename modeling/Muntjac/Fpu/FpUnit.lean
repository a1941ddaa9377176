import Muntjac.Fpu.Compare
import Muntjac.Fpu.DivSqrt
import Muntjac.Fpu.Fma
import Muntjac.Fpu.Integer
import Muntjac.Sync.Run

/-!
# The floating point unit

`muntjac_fpu`: the operands are decoded when a request is accepted, one of the compute
units makes a number from them, and the rounder encodes it.  The fused multiply-add has
two registers behind it, which always move; the state machine waits for the second one.

## Main results

* `FpUnit.fma_run` — the answer of the fused multiply-add, five cycles after its request.
* `FpUnit.div_run` — the answer of the divider.
-/

namespace Muntjac.Fpu

open Sync Ieee

/-- `fp_op_e`. -/
inductive FpOpType
  | addsub
  | mul
  | divsqrt
  | sgnj
  | minmax
  | cvtF2F
  | cvtI2F
  | cvtF2I
  | mvI2F
  | mvF2I
  | fclass
  | cmp
  | fma
  deriving DecidableEq, Repr

/-- `fp_op_t`. -/
structure FpOp where
  opType : FpOpType
  param : ℕ
  deriving DecidableEq, Repr

def fpParamSgnj : ℕ := 0
def fpParamSgnjn : ℕ := 1
def fpParamMax : ℕ := 1
def fpParamLe : ℕ := 0
def fpParamLt : ℕ := 1
def fpParamEq : ℕ := 2
def fpParamSqrt : ℕ := 1
def fpParamW : ℕ := 0
def fpParamL : ℕ := 2
def fpParamLu : ℕ := 3

/-- `state_e` of `muntjac_fpu`. -/
inductive FpuState
  | idle
  | fma
  | div
  | misc
  | round
  deriving DecidableEq, Repr

/-- The inputs. -/
structure FpuReq where
  rs1 : ℕ
  foperandA : ℕ
  foperandB : ℕ
  foperandC : ℕ
  op : FpOp
  rm : RoundingMode
  double : Bool
  valid : Bool
  deriving DecidableEq, Repr

/-- The registers, with those of the divider. -/
structure FpUnit where
  state : FpuState
  op : FpOp
  opDouble : Bool
  rm : RoundingMode
  decA : Unpacked
  decB : Unpacked
  decC : Unpacked
  inValid : Bool
  fmaOutValidQ : Bool
  fmaOutValidQ2 : Bool
  fmaOutFlagInvalidQ : Bool
  fmaOutFlagInvalidQ2 : Bool
  fmaOutQ : Unpacked
  fmaOutQ2 : Unpacked
  divUnit : DivSqrt
  roundInvalidOperation : Bool
  roundDivideByZero : Bool
  roundUseNanPayload : Bool
  decRound : Unpacked
  respValue : ℕ
  respFlags : Flags
  respValid : Bool
  deriving DecidableEq, Repr

/-- The flags that either has. -/
def orFlags (x y : Flags) : Flags where
  invalidOperation := x.invalidOperation || y.invalidOperation
  divideByZero := x.divideByZero || y.divideByZero
  overflow := x.overflow || y.overflow
  underflow := x.underflow || y.underflow
  inexact := x.inexact || y.inexact

@[simp] theorem orFlags_none (x : Flags) : orFlags {} x = x := rfl

/-- The widths of the divider. -/
def divWidths : Widths :=
  ⟨decodedExpWidth, decodedSigWidth, intermediateExpWidth, intermediateSigWidth⟩

/-- The fused multiply-add of the unit. -/
def fmaUnit (rm : RoundingMode) (a b c : Unpacked) : Bool × Unpacked :=
  mulAdd decodedExpWidth decodedSigWidth intermediateExpWidth intermediateSigWidth rm a b c

namespace FpUnit

def reset : FpUnit where
  state := .idle
  op := ⟨.addsub, 0⟩
  opDouble := false
  rm := .tiesToEven
  decA := decZero
  decB := decZero
  decC := decZero
  inValid := false
  fmaOutValidQ := false
  fmaOutValidQ2 := false
  fmaOutFlagInvalidQ := false
  fmaOutFlagInvalidQ2 := false
  fmaOutQ := decZero
  fmaOutQ2 := decZero
  divUnit := .reset
  roundInvalidOperation := false
  roundDivideByZero := false
  roundUseNanPayload := false
  decRound := decZero
  respValue := 0
  respFlags := {}
  respValid := false

/-- The result of `FP_OP_CLASS`. -/
def classify (a : Normalized) : ℕ :=
  let quiet := a.significand.testBit (decodedSigWidth - 1)
  [a.sign && a.isInf, a.sign && a.isNormal, a.sign && a.isSubnormal, a.sign && a.isZero,
    !a.sign && a.isZero, !a.sign && a.isSubnormal, !a.sign && a.isNormal, !a.sign && a.isInf,
    a.isNan && !quiet, a.isNan && quiet].foldr (fun b n => cat n 1 b.toNat) 0

/-- The operand in the widths of the rounder. -/
def widen (u : Unpacked) : Unpacked := { u with significand := cat u.significand 2 0 }

/-- `req_ready_o`. -/
def reqReady (s : FpUnit) : Bool := s.state == .idle

/-- The registers that move in every cycle: those behind the fused multiply-add and those of
the divider, and the response is valid for one cycle. -/
def advance (s : FpUnit) : FpUnit :=
  let fmaOut := fmaUnit s.rm s.decA s.decB s.decC
  { s with
    fmaOutValidQ := s.state == .fma && s.inValid
    fmaOutValidQ2 := s.fmaOutValidQ
    fmaOutFlagInvalidQ := fmaOut.1
    fmaOutFlagInvalidQ2 := s.fmaOutFlagInvalidQ
    fmaOutQ := fmaOut.2
    fmaOutQ2 := s.fmaOutQ
    divUnit := s.divUnit.step divWidths (s.state == .div && s.inValid)
      (s.state == .div && s.op.param == fpParamSqrt) s.decA s.decB
    respValid := false }

/-- `StateIdle` with a request. -/
def accept (s : FpUnit) (i : FpuReq) : FpUnit :=
  let decodeAsDouble := if i.op.opType = .cvtF2F then !i.double else i.double
  let operandA := decode decodeAsDouble i.foperandA
  let operandB := decode decodeAsDouble i.foperandB
  let operandC := decode decodeAsDouble i.foperandC
  let t : FpUnit := { s.advance with
    op := i.op
    opDouble := i.double
    rm := i.rm
    decA := operandA.toUnpacked
    decB := operandB.toUnpacked
    decC := operandC.toUnpacked
    inValid := true
    roundInvalidOperation := false
    roundDivideByZero := false
    roundUseNanPayload := false
    respFlags := {} }
  match i.op.opType with
  | .addsub =>
      { t with
        state := .fma
        decB := decOne
        decC := { operandB.toUnpacked with sign := operandB.sign ^^ i.op.param.testBit 0 } }
  | .mul =>
      { t with
        state := .fma
        decC := { decZero with sign := operandA.sign ^^ operandB.sign } }
  | .fma =>
      { t with
        state := .fma
        decA := { operandA.toUnpacked with sign := operandA.sign ^^ i.op.param.testBit 1 }
        decC := { operandC.toUnpacked with sign := operandC.sign ^^ i.op.param.testBit 0 } }
  | .divsqrt => { t with state := .div }
  | .fclass => { t with respValid := true, respValue := classify operandA }
  | .sgnj => { t with state := .misc, roundUseNanPayload := true }
  | .mvI2F =>
      { t with
        respValid := true
        respValue := if i.double then i.rs1 else cat (2 ^ 32 - 1) 32 (slice i.rs1 31 0) }
  | .mvF2I =>
      { t with
        respValid := true
        respValue :=
          if i.double then i.foperandA
          else cat (if i.foperandA.testBit 31 then 2 ^ 32 - 1 else 0) 32 (slice i.foperandA 31 0) }
  | .cvtI2F =>
      { t with
        state := .round
        decRound := normalizeFromIntMulti intermediateExpWidth intermediateSigWidth
          (i.op.param == fpParamW || i.op.param == fpParamL)
          (i.op.param == fpParamL || i.op.param == fpParamLu) i.rs1 }
  | .cmp | .cvtF2F | .cvtF2I | .minmax => { t with state := .misc }

/-- `StateFma`. -/
def stepFma (s : FpUnit) : FpUnit :=
  if s.fmaOutValidQ2 then
    { s.advance with
      inValid := false
      state := .round
      roundInvalidOperation := s.fmaOutFlagInvalidQ2
      decRound := s.fmaOutQ2 }
  else { s.advance with inValid := false }

/-- `StateDiv`. -/
def stepDiv (s : FpUnit) : FpUnit :=
  if s.divUnit.respValid then
    { s.advance with
      inValid := false
      state := .round
      roundInvalidOperation := s.divUnit.respInvalidOperation
      roundDivideByZero := s.divUnit.respDivideByZero
      decRound := s.divUnit.resp divWidths }
  else { s.advance with inValid := false }

/-- `StateMisc`. -/
def stepMisc (s : FpUnit) : FpUnit :=
  let compareSignaling := s.op.opType == .cmp && s.op.param != fpParamEq
  let compared := compare decodedSigWidth compareSignaling s.decA s.decB
  match s.op.opType with
  | .cmp =>
      { s.advance with
        state := .idle
        respValid := true
        respValue :=
          if s.op.param == fpParamEq then compared.eq.toNat
          else if s.op.param == fpParamLt then compared.lt.toNat
          else if s.op.param == fpParamLe then (compared.eq || compared.lt).toNat
          else 0
        respFlags := { invalidOperation := compared.invalidOperation } }
  | .minmax =>
      { s.advance with
        state := .round
        decRound := widen (minmaxResult (s.op.param == fpParamMax) s.decA s.decB compared)
        respFlags := { invalidOperation := compared.invalidOperation } }
  | .cvtF2F =>
      { s.advance with
        state := .round
        roundInvalidOperation := s.decA.isSignaling decodedSigWidth
        roundDivideByZero := false
        decRound := widen s.decA }
  | .sgnj =>
      { s.advance with
        state := .round
        decRound :=
          { widen s.decA with
            sign :=
              if s.op.param == fpParamSgnj then s.decB.sign
              else if s.op.param == fpParamSgnjn then !s.decB.sign
              else s.decA.sign ^^ s.decB.sign } }
  | .cvtF2I =>
      let f2i := roundToIntMulti decodedExpWidth decodedSigWidth s.rm
        (s.op.param == fpParamW || s.op.param == fpParamL)
        (s.op.param == fpParamL || s.op.param == fpParamLu) s.decA
      { s.advance with
        state := .idle
        respValid := true
        respValue := f2i.1
        respFlags := f2i.2 }
  | _ => s.advance

/-- `StateRound`. -/
def stepRound (s : FpUnit) : FpUnit :=
  let r := roundToIeeeMulti intermediateExpWidth intermediateSigWidth s.roundInvalidOperation
    s.roundDivideByZero s.roundUseNanPayload s.opDouble s.rm s.decRound
  { s.advance with
    state := .idle
    respValid := true
    respValue := r.1
    respFlags := orFlags s.respFlags r.2 }

/-- One clock edge. -/
def step (s : FpUnit) (i : FpuReq) : FpUnit :=
  match s.state with
  | .idle => if i.valid then s.accept i else s.advance
  | .fma => s.stepFma
  | .div => s.stepDiv
  | .misc => s.stepMisc
  | .round => s.stepRound

/-! ## The units behind the state machine -/

/-- What is in flight behind the state machine: one request in the pipeline of the fused
multiply-add or in the divider, in the state that waits for it, and nothing otherwise. -/
structure Inv (s : FpUnit) : Prop where
  fma : s.state = .fma →
    (s.inValid = true ∧ s.fmaOutValidQ = false ∧ s.fmaOutValidQ2 = false) ∨
    (s.inValid = false ∧ s.fmaOutValidQ = true ∧ s.fmaOutValidQ2 = false) ∨
    (s.inValid = false ∧ s.fmaOutValidQ = false ∧ s.fmaOutValidQ2 = true)
  fmaIdle : s.state ≠ .fma → s.fmaOutValidQ = false ∧ s.fmaOutValidQ2 = false
  div : s.state = .div → (s.inValid = true ↔ s.divUnit.state = .idle)
  divIdle : s.state ≠ .div → s.divUnit.state = .idle

theorem inv_reset : Inv reset :=
  ⟨by decide, fun _ => ⟨rfl, rfl⟩, by decide, fun _ => rfl⟩

/-- An idle divider without a request stays idle. -/
theorem divUnit_advance_idle {s : FpUnit} (hs : s.state ≠ .div) (hd : s.divUnit.state = .idle) :
    s.advance.divUnit = s.divUnit := by
  have h : (s.state == .div) = false := beq_false_of_ne hs
  simp only [advance, h, Bool.false_and, DivSqrt.step, hd, Bool.false_eq_true, if_false]

/-- What the request latches, whatever its operation. -/
theorem latched_accept (s : FpUnit) (i : FpuReq) :
    (s.accept i).inValid = true ∧ (s.accept i).fmaOutValidQ = (s.state == .fma && s.inValid) ∧
      (s.accept i).fmaOutValidQ2 = s.fmaOutValidQ ∧
      (s.accept i).divUnit = s.advance.divUnit ∧ (s.accept i).respFlags = {} ∧
      (s.accept i).roundDivideByZero = false ∧ (s.accept i).opDouble = i.double ∧
      (s.accept i).rm = i.rm ∧ (s.accept i).op = i.op := by
  unfold FpUnit.accept
  cases i.op.opType <;> exact ⟨rfl, rfl, rfl, rfl, rfl, rfl, rfl, rfl, rfl⟩

theorem Inv.accept {s : FpUnit} (h : s.Inv) (hidle : s.state = .idle) (i : FpuReq) :
    (s.accept i).Inv := by
  obtain ⟨hq, hq2⟩ := h.fmaIdle (by rw [hidle]; decide)
  have hd := h.divIdle (by rw [hidle]; decide)
  have hadv := divUnit_advance_idle (by rw [hidle]; decide) hd
  obtain ⟨hin, hvq, hvq2, hdiv, -⟩ := latched_accept s i
  rw [hidle] at hvq
  rw [hq] at hvq2
  rw [hadv] at hdiv
  exact ⟨fun _ => .inl ⟨hin, hvq, hvq2⟩, fun _ => ⟨hvq, hvq2⟩,
    fun _ => ⟨fun _ => hdiv ▸ hd, fun _ => hin⟩, fun _ => hdiv ▸ hd⟩

/-- A state outside the waiting states leaves nothing in flight. -/
theorem Inv.of_quiet {s t : FpUnit} (h : s.Inv) (hf : s.state ≠ .fma) (hd : s.state ≠ .div)
    (hvq : t.fmaOutValidQ = s.advance.fmaOutValidQ)
    (hvq2 : t.fmaOutValidQ2 = s.advance.fmaOutValidQ2)
    (hdiv : t.divUnit = s.advance.divUnit) (htf : t.state ≠ .fma) (htd : t.state ≠ .div) :
    t.Inv := by
  obtain ⟨hq, hq2⟩ := h.fmaIdle hf
  have hadv := divUnit_advance_idle hd (h.divIdle hd)
  have hvq' : s.advance.fmaOutValidQ = false := by
    change (s.state == .fma && s.inValid) = false
    rw [beq_false_of_ne hf, Bool.false_and]
  refine ⟨fun he => absurd he htf, fun _ => ⟨hvq.trans hvq', hvq2.trans hq⟩,
    fun he => absurd he htd, fun _ => ?_⟩
  rw [hdiv, hadv]
  exact h.divIdle hd

theorem Inv.stepFma {s : FpUnit} (h : s.Inv) (hs : s.state = .fma) : s.stepFma.Inv := by
  have hd := h.divIdle (by rw [hs]; decide)
  have hadv := divUnit_advance_idle (by rw [hs]; decide) hd
  have hvq : s.advance.fmaOutValidQ = s.inValid := by
    change (s.state == .fma && s.inValid) = s.inValid
    rw [hs]
    rfl
  have hdiv : s.advance.divUnit.state = .idle := by rw [hadv, hd]
  unfold FpUnit.stepFma
  rcases h.fma hs with ⟨hin, hq, hq2⟩ | ⟨hin, hq, hq2⟩ | ⟨hin, hq, hq2⟩
  · rw [hq2, if_neg (by decide)]
    exact ⟨fun _ => .inr (.inl ⟨rfl, hvq.trans hin, hq⟩), fun he => absurd hs he,
      fun he => absurd (hs.symm.trans he) (by decide), fun _ => hdiv⟩
  · rw [hq2, if_neg (by decide)]
    exact ⟨fun _ => .inr (.inr ⟨rfl, hvq.trans hin, hq⟩), fun he => absurd hs he,
      fun he => absurd (hs.symm.trans he) (by decide), fun _ => hdiv⟩
  · rw [hq2, if_pos rfl]
    exact ⟨fun he => absurd (show FpuState.round = .fma from he) (by decide),
      fun _ => ⟨hvq.trans hin, hq⟩,
      fun he => absurd (show FpuState.round = .div from he) (by decide), fun _ => hdiv⟩

theorem Inv.stepDiv {s : FpUnit} (h : s.Inv) (hs : s.state = .div) : s.stepDiv.Inv := by
  obtain ⟨hq, hq2⟩ := h.fmaIdle (by rw [hs]; decide)
  have hin := h.div hs
  have hvq : s.advance.fmaOutValidQ = false := by
    change (s.state == .fma && s.inValid) = false
    rw [hs]
    rfl
  have hunit : s.advance.divUnit =
      s.divUnit.step divWidths s.inValid (s.op.param == fpParamSqrt) s.decA s.decB := by
    simp only [advance, hs, beq_self_eq_true, Bool.true_and]
  unfold FpUnit.stepDiv
  cases hstate : s.divUnit.state with
  | idle =>
      have hready : s.divUnit.respValid = false := by rw [DivSqrt.respValid, hstate]; rfl
      have hnext : s.advance.divUnit.state ≠ .idle := by
        rw [hunit, DivSqrt.step, hstate, hin.mpr hstate, if_pos rfl]
        change (if _ then _ else _) ≠ _
        split_ifs <;> decide
      rw [hready, if_neg (by decide)]
      exact ⟨fun he => absurd (hs.symm.trans he) (by decide), fun _ => ⟨hvq, hq⟩,
        fun _ => ⟨fun he => absurd (show false = true from he) (by decide),
          fun he => absurd he hnext⟩,
        fun he => absurd hs he⟩
  | compute =>
      have hready : s.divUnit.respValid = false := by rw [DivSqrt.respValid, hstate]; rfl
      have hnext : s.advance.divUnit.state ≠ .idle := by
        rw [hunit, DivSqrt.step, hstate]
        change (if _ then _ else s.divUnit.state) ≠ _
        rw [hstate]
        split_ifs <;> decide
      rw [hready, if_neg (by decide)]
      exact ⟨fun he => absurd (hs.symm.trans he) (by decide), fun _ => ⟨hvq, hq⟩,
        fun _ => ⟨fun he => absurd (show false = true from he) (by decide),
          fun he => absurd he hnext⟩,
        fun he => absurd hs he⟩
  | output =>
      have hready : s.divUnit.respValid = true := by rw [DivSqrt.respValid, hstate]; rfl
      have hnext : s.advance.divUnit.state = .idle := by rw [hunit, DivSqrt.step, hstate]
      rw [hready, if_pos rfl]
      exact ⟨fun he => absurd (show FpuState.round = .fma from he) (by decide),
        fun _ => ⟨hvq, hq⟩,
        fun he => absurd (show FpuState.round = .div from he) (by decide), fun _ => hnext⟩

theorem Inv.step {s : FpUnit} (h : s.Inv) (i : FpuReq) : (s.step i).Inv := by
  unfold FpUnit.step
  cases hs : s.state with
  | idle =>
      cases hv : i.valid with
      | true => exact h.accept hs i
      | false =>
          refine h.of_quiet (by rw [hs]; decide) (by rw [hs]; decide) rfl rfl rfl ?_ ?_ <;>
            · change s.state ≠ _
              rw [hs]
              decide
  | fma => exact h.stepFma hs
  | div => exact h.stepDiv hs
  | misc =>
      have hf : s.state ≠ .fma := by rw [hs]; decide
      have hd : s.state ≠ .div := by rw [hs]; decide
      change s.stepMisc.Inv
      unfold stepMisc
      cases s.op.opType <;>
        exact h.of_quiet hf hd rfl rfl rfl
          (by first
            | exact show FpuState.idle ≠ .fma by decide
            | exact show FpuState.round ≠ .fma by decide
            | exact hf)
          (by first
            | exact show FpuState.idle ≠ .div by decide
            | exact show FpuState.round ≠ .div by decide
            | exact hd)
  | round =>
      exact h.of_quiet (by rw [hs]; decide) (by rw [hs]; decide) rfl rfl rfl
        (show FpuState.idle ≠ .fma by decide) (show FpuState.idle ≠ .div by decide)

theorem inv_run (inp : ℕ → FpuReq) (n : ℕ) : (run step reset inp n).Inv :=
  run_invariant Inv (fun _ _ => True) inv_reset (fun _ i h _ => h.step i) n fun _ _ => trivial

/-! ## Answers -/

/-- The request of cycle `n` is answered with `r` in cycle `m`, and until then there is no
other answer and no other request. -/
structure Answers (inp : ℕ → FpuReq) (n m : ℕ) (r : ℕ × Flags) : Prop where
  lt : n < m
  valid : (run step reset inp m).respValid = true
  value : (run step reset inp m).respValue = r.1
  flags : (run step reset inp m).respFlags = r.2
  quiet : ∀ k, n < k → k < m →
    (run step reset inp k).respValid = false ∧ (run step reset inp k).reqReady = false

/-- The number that the rounder is about to encode. -/
def rounded (s : FpUnit) : ℕ × Flags :=
  roundToIeeeMulti intermediateExpWidth intermediateSigWidth s.roundInvalidOperation
    s.roundDivideByZero s.roundUseNanPayload s.opDouble s.rm s.decRound

section Run
variable {inp : ℕ → FpuReq} {n : ℕ}

theorem run_accept (hidle : (run step reset inp n).state = .idle) (hv : (inp n).valid = true) :
    run step reset inp (n + 1) = (run step reset inp n).accept (inp n) := by
  rw [run_succ, step, hidle]
  exact if_pos hv

/-- The rounding stage answers, with the flags that are there already. -/
theorem answers_of_rounding {m : ℕ} (hn : n < m) (hs : (run step reset inp m).state = .round)
    (hquiet : ∀ k, n < k → k ≤ m →
      (run step reset inp k).respValid = false ∧ (run step reset inp k).reqReady = false) :
    Answers inp n (m + 1) ((run step reset inp m).rounded.1,
      orFlags (run step reset inp m).respFlags (run step reset inp m).rounded.2) := by
  have hstep : run step reset inp (m + 1) = (run step reset inp m).stepRound := by
    rw [run_succ, step, hs]
  refine ⟨by omega, ?_, ?_, ?_, fun k hk hkm => hquiet k hk (by omega)⟩
  · rw [hstep]
    rfl
  · rw [hstep]
    rfl
  · rw [hstep]
    rfl

theorem answers_of_round {m : ℕ} (hn : n < m) (hs : (run step reset inp m).state = .round)
    (hflags : (run step reset inp m).respFlags = {})
    (hquiet : ∀ k, n < k → k ≤ m →
      (run step reset inp k).respValid = false ∧ (run step reset inp k).reqReady = false) :
    Answers inp n (m + 1) (run step reset inp m).rounded := by
  have h := answers_of_rounding hn hs hquiet
  rwa [hflags, orFlags_none] at h

theorem stepFma_wait {s : FpUnit} (h : s.fmaOutValidQ2 = false) :
    s.stepFma = { s.advance with inValid := false } := by
  rw [stepFma, h, if_neg (by decide)]

/-- A request to the fused multiply-add is answered after five cycles. -/
theorem fma_run (hidle : (run step reset inp n).state = .idle) (hv : (inp n).valid = true)
    {t : FpUnit} (ht : (run step reset inp n).accept (inp n) = t) (hs : t.state = .fma)
    (hnan : t.roundUseNanPayload = false) (hresp : t.respValid = false) :
    Answers inp n (n + 5) (roundToIeeeMulti intermediateExpWidth intermediateSigWidth
      (fmaUnit t.rm t.decA t.decB t.decC).1 false false t.opDouble t.rm
      (fmaUnit t.rm t.decA t.decB t.decC).2) := by
  obtain ⟨hin, -, -, -, hflags, hdz, -⟩ := latched_accept (run step reset inp n) (inp n)
  rw [ht] at hin hflags hdz
  have hinv := inv_run inp (n + 1)
  have e1 : run step reset inp (n + 1) = t := (run_accept hidle hv).trans ht
  rw [e1] at hinv
  have hq2 : t.fmaOutValidQ2 = false := by
    rcases hinv.fma hs with ⟨-, -, h⟩ | ⟨h, -⟩ | ⟨h, -⟩
    · exact h
    · rw [hin] at h
      exact absurd h (by decide)
    · rw [hin] at h
      exact absurd h (by decide)
  have hq : t.fmaOutValidQ = false := by
    rcases hinv.fma hs with ⟨-, h, -⟩ | ⟨h, -⟩ | ⟨h, -⟩
    · exact h
    · rw [hin] at h
      exact absurd h (by decide)
    · rw [hin] at h
      exact absurd h (by decide)
  -- the request moves through the two registers
  have e2 : run step reset inp (n + 2) = { t.advance with inValid := false } := by
    rw [run_succ, e1, step, hs]
    exact stepFma_wait hq2
  set u : FpUnit := { t.advance with inValid := false } with hu
  have hus : u.state = .fma := hs
  have e3 : run step reset inp (n + 3) = { u.advance with inValid := false } := by
    rw [run_succ, e2, step, hus]
    exact stepFma_wait hq
  set w : FpUnit := { u.advance with inValid := false } with hw
  have hws : w.state = .fma := hs
  have hvalid : w.fmaOutValidQ2 = true := by
    change (t.state == .fma && t.inValid) = true
    rw [hs, hin]
    rfl
  have e4 : run step reset inp (n + 4) = { w.advance with
      inValid := false
      state := .round
      roundInvalidOperation := w.fmaOutFlagInvalidQ2
      decRound := w.fmaOutQ2 } := by
    rw [run_succ, e3, step, hws]
    change w.stepFma = _
    rw [stepFma, hvalid, if_pos rfl]
  have hround : (run step reset inp (n + 4)).rounded =
      roundToIeeeMulti intermediateExpWidth intermediateSigWidth
        (fmaUnit t.rm t.decA t.decB t.decC).1 false false t.opDouble t.rm
        (fmaUnit t.rm t.decA t.decB t.decC).2 := by
    rw [e4, rounded]
    change roundToIeeeMulti _ _ _ t.roundDivideByZero t.roundUseNanPayload _ _ _ = _
    rw [hdz, hnan]
    rfl
  rw [← hround]
  refine answers_of_round (m := n + 4) (by omega) (by rw [e4]) ?_ fun k hk hkm => ?_
  · rw [e4]
    exact hflags
  · have hready : ∀ s : FpUnit, s.state ≠ .idle → s.reqReady = false := fun s h =>
      beq_false_of_ne h
    obtain rfl | rfl | rfl | rfl : k = n + 1 ∨ k = n + 2 ∨ k = n + 3 ∨ k = n + 4 := by omega
    · rw [e1]
      exact ⟨hresp, hready _ (by rw [hs]; decide)⟩
    · rw [e2]
      exact ⟨rfl, hready _ (by rw [hus]; decide)⟩
    · rw [e3]
      exact ⟨rfl, hready _ (by rw [hws]; decide)⟩
    · rw [e4]
      exact ⟨rfl, hready _ (show FpuState.round ≠ .idle by decide)⟩

/-! ### The divider -/

/-- The cycles of the recurrence. -/
def divCycles (sqrt : Bool) (a b : Unpacked) : ℕ :=
  if DivSqrt.special a b sqrt then 0 else intermediateSigWidth

/-- The state machine waits for the divider, whose registers are `d`. -/
structure Waits (t : FpUnit) (d : DivSqrt) (s : FpUnit) : Prop where
  state : s.state = .div
  inValid : s.inValid = false
  divUnit : s.divUnit = d
  rm : s.rm = t.rm
  opDouble : s.opDouble = t.opDouble
  nan : s.roundUseNanPayload = t.roundUseNanPayload
  flags : s.respFlags = t.respFlags
  quiet : s.respValid = false

theorem Waits.step {t s : FpUnit} {d : DivSqrt} (h : Waits t d s) (hd : d.state = .compute)
    (i : FpuReq) : Waits t (d.compute divWidths) (s.step i) := by
  have hready : s.divUnit.respValid = false := by rw [h.divUnit, DivSqrt.respValid, hd]; rfl
  have hstep : s.step i = { s.advance with inValid := false } := by
    rw [FpUnit.step, h.state]
    change s.stepDiv = _
    rw [stepDiv, hready, if_neg (by decide)]
  rw [hstep]
  refine ⟨h.state, rfl, ?_, h.rm, h.opDouble, h.nan, h.flags, rfl⟩
  change s.divUnit.step _ _ _ _ _ = _
  rw [h.divUnit, DivSqrt.step, hd]

/-- The registers of the divider while the recurrence runs. -/
theorem waits_iterate {t : FpUnit} {sqrt : Bool} {a b : Unpacked} {m : ℕ}
    (h0 : Waits t (DivSqrt.accept divWidths sqrt a b) (run step reset inp m))
    (hnum : DivSqrt.Numbers divWidths sqrt a b) {k : ℕ} (hk : k ≤ intermediateSigWidth) :
    Waits t ((DivSqrt.compute divWidths)^[k] (DivSqrt.accept divWidths sqrt a b))
      (run step reset inp (m + k)) := by
  induction k with
  | zero => exact h0
  | succ k ih =>
      have hstate := DivSqrt.state_iterate (p := divWidths) (by decide) hnum
        (by omega : k ≤ intermediateSigWidth)
      rw [if_neg (show ¬k = divWidths.outSigWidth from Nat.ne_of_lt hk)] at hstate
      rw [Function.iterate_succ_apply', ← Nat.add_assoc, run_succ]
      exact (ih (by omega)).step hstate _

/-- A request to the divider is answered four cycles after it, and those of the recurrence. -/
theorem div_run (hidle : (run step reset inp n).state = .idle) (hv : (inp n).valid = true)
    {t : FpUnit} (ht : (run step reset inp n).accept (inp n) = t) (hs : t.state = .div)
    (hnan : t.roundUseNanPayload = false) (hresp : t.respValid = false)
    (ha : t.decA.significand < 2 ^ decodedSigWidth)
    (hb : t.decB.significand < 2 ^ decodedSigWidth) :
    Answers inp n (n + 4 + divCycles (t.op.param == fpParamSqrt) t.decA t.decB)
      (roundToIeeeMulti intermediateExpWidth intermediateSigWidth
        (DivSqrt.finished divWidths (t.op.param == fpParamSqrt) t.decA t.decB).respInvalidOperation
        (DivSqrt.finished divWidths (t.op.param == fpParamSqrt) t.decA t.decB).respDivideByZero
        false t.opDouble t.rm
        ((DivSqrt.finished divWidths (t.op.param == fpParamSqrt) t.decA t.decB).resp
          divWidths)) := by
  obtain ⟨hin, -, -, -, hflags, -⟩ := latched_accept (run step reset inp n) (inp n)
  rw [ht] at hin hflags
  have e1 : run step reset inp (n + 1) = t := (run_accept hidle hv).trans ht
  have hinv := inv_run inp (n + 1)
  rw [e1] at hinv
  have hunit := (hinv.div hs).mp hin
  have hready : ∀ s : FpUnit, s.state ≠ .idle → s.reqReady = false := fun s h => beq_false_of_ne h
  set sqrt := t.op.param == fpParamSqrt with hsqrt
  have hstep : t.step (inp (n + 1)) = { t.advance with inValid := false } := by
    have hresp : t.divUnit.respValid = false := by rw [DivSqrt.respValid, hunit]; rfl
    rw [step, hs]
    change t.stepDiv = _
    rw [stepDiv, hresp, if_neg (by decide)]
  have e2 : Waits t (DivSqrt.accept divWidths sqrt t.decA t.decB)
      (run step reset inp (n + 2)) := by
    rw [run_succ, e1, hstep]
    refine ⟨hs, rfl, ?_, rfl, rfl, rfl, rfl, rfl⟩
    change t.divUnit.step divWidths (t.state == .div && t.inValid)
      (t.state == .div && t.op.param == fpParamSqrt) t.decA t.decB = _
    rw [DivSqrt.step, hunit, hs, hin]
    rfl
  -- the divider after its last cycle, and no answer before
  have hlast : Waits t (DivSqrt.finished divWidths sqrt t.decA t.decB)
        (run step reset inp (n + 2 + divCycles sqrt t.decA t.decB)) ∧
      (DivSqrt.finished divWidths sqrt t.decA t.decB).state = .output ∧
      ∀ k ≤ divCycles sqrt t.decA t.decB, ∃ d, Waits t d (run step reset inp (n + 2 + k)) := by
    rw [DivSqrt.finished, divCycles]
    cases hsp : DivSqrt.special t.decA t.decB sqrt with
    | true =>
        refine ⟨e2, ?_, fun k hk => ?_⟩
        · change (if DivSqrt.special t.decA t.decB sqrt then _ else _) = _
          rw [hsp]
          rfl
        · obtain rfl : k = 0 := by simpa using hk
          exact ⟨_, e2⟩
    | false =>
        have hnum : DivSqrt.Numbers divWidths sqrt t.decA t.decB := ⟨hsp, ha, hb⟩
        refine ⟨waits_iterate e2 hnum le_rfl, ?_, fun k hk => ⟨_, waits_iterate e2 hnum hk⟩⟩
        have hstate := DivSqrt.state_iterate (p := divWidths) (by decide) hnum le_rfl
        rwa [if_pos rfl] at hstate
  obtain ⟨hwait, hout, hall⟩ := hlast
  set c := divCycles sqrt t.decA t.decB
  set d := DivSqrt.finished divWidths sqrt t.decA t.decB
  set s := run step reset inp (n + 2 + c) with hsdef
  have e3 : run step reset inp (n + 3 + c) = { s.advance with
      inValid := false
      state := .round
      roundInvalidOperation := d.respInvalidOperation
      roundDivideByZero := d.respDivideByZero
      decRound := d.resp divWidths } := by
    have hvalid : s.divUnit.respValid = true := by
      rw [hwait.divUnit, DivSqrt.respValid, hout]
      rfl
    rw [show n + 3 + c = n + 2 + c + 1 by omega, run_succ, ← hsdef, step, hwait.state]
    change s.stepDiv = _
    rw [stepDiv, hvalid, if_pos rfl, hwait.divUnit]
  have hround : (run step reset inp (n + 3 + c)).rounded =
      roundToIeeeMulti intermediateExpWidth intermediateSigWidth d.respInvalidOperation
        d.respDivideByZero false t.opDouble t.rm (d.resp divWidths) := by
    rw [e3, rounded]
    change roundToIeeeMulti _ _ _ _ s.roundUseNanPayload s.opDouble s.rm _ = _
    rw [hwait.nan, hnan, hwait.opDouble, hwait.rm]
  rw [← hround, show n + 4 + c = n + 3 + c + 1 by omega]
  refine answers_of_round (by omega) (by rw [e3]) ?_ fun k hk hkm => ?_
  · rw [e3]
    exact hwait.flags.trans hflags
  · rcases Nat.lt_or_ge k (n + 2) with hlt | hge
    · obtain rfl : k = n + 1 := by omega
      rw [e1]
      exact ⟨hresp, hready _ (by rw [hs]; decide)⟩
    · rcases Nat.lt_or_ge k (n + 3 + c) with hlt | hge'
      · obtain ⟨d', hd'⟩ := hall (k - (n + 2)) (by omega)
        rw [show n + 2 + (k - (n + 2)) = k by omega] at hd'
        exact ⟨hd'.quiet, hready _ (by rw [hd'.state]; decide)⟩
      · obtain rfl : k = n + 3 + c := by omega
        rw [e3]
        exact ⟨rfl, hready _ (show FpuState.round ≠ .idle by decide)⟩

end Run

end FpUnit

end Muntjac.Fpu

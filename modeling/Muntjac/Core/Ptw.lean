import Muntjac.Core.Sv39

/-!
# The page table walker

`muntjac_ptw` reads one entry per level, from the root down, and answers in the
cycle after the last read.  A request restarts it in any state.

`Ok R pa root s` says that what the walker has read so far is a prefix of the Sv39
walk of `vpn_q`.  It holds after every request, and is kept as long as each answer
of the memory is an `R`-read of the address requested.
-/

namespace Muntjac.Core

open Sync

inductive PtwState
  | idle
  | atpL3
  | atpL2
  | atpL1
  | done
  deriving DecidableEq, Repr

/-- Registers of the walker.  `permQ` is the flag byte of the last leaf, with the
valid bit cleared by a fault. -/
structure Ptw where
  stateQ : PtwState
  vpnQ : ℕ
  ppnQ : ℕ
  permQ : ℕ
  reqValidQ : Bool
  reqAddrQ : ℕ
  deriving DecidableEq, Repr

/-- The inputs of one cycle. -/
structure PtwIn where
  reqValid : Bool
  reqVpn : ℕ
  reqPtPpn : ℕ
  memReqReady : Bool
  memRespValid : Bool
  memRespData : ℕ
  deriving DecidableEq, Repr

namespace Ptw

def reset : Ptw := ⟨.idle, 0, 0, 0, false, 0⟩

/-- `mem_resp_data_i[3:0] == 4'b0001`. -/
def nextLevel (d : ℕ) : Bool := slice d 3 0 == 1

/-- An invalid entry or an illegal combination of access bits. -/
def illegal (d : ℕ) : Bool := slice d 0 0 == 0 || slice d 3 1 == 2 || slice d 3 1 == 6

/-- `perm_d[0] = 1'b0; state_d = StateDone`. -/
def fault (s : Ptw) : Ptw := { s with permQ := s.permQ / 2 * 2, stateQ := .done }

/-- The walk has found a leaf. -/
def finish (s : Ptw) (ppn d : ℕ) : Ptw :=
  { s with ppnQ := ppn, permQ := slice d 7 0, stateQ := .done }

/-- Descend to the next table. -/
def descend (s : Ptw) (addr : ℕ) (st : PtwState) : Ptw :=
  { s with reqValidQ := true, reqAddrQ := addr, stateQ := st }

/-- `if (mem_req_ready_i) req_valid_d = 1'b0`. -/
def sent (s : Ptw) (i : PtwIn) : Ptw := { s with reqValidQ := s.reqValidQ && !i.memReqReady }

/-- The `unique case (state_q)`. -/
def walkStep (pa : ℕ) (s : Ptw) (i : PtwIn) : Ptw :=
  let d := i.memRespData
  match s.stateQ with
  | .idle => s
  | .atpL3 =>
      let s := s.sent i
      if !i.memRespValid then s
      else if nextLevel d then s.descend (cat (slice d (pa - 3) 10) 9 (slice s.vpnQ 17 9)) .atpL2
      else if illegal d || slice d 27 10 != 0 then s.fault
      else s.finish (cat (slice d (pa - 3) 28) 18 (slice s.vpnQ 17 0)) d
  | .atpL2 =>
      let s := s.sent i
      if !i.memRespValid then s
      else if nextLevel d then s.descend (cat (slice d (pa - 3) 10) 9 (slice s.vpnQ 8 0)) .atpL1
      else if illegal d || slice d 18 10 != 0 then s.fault
      else s.finish (cat (slice d (pa - 3) 19) 9 (slice s.vpnQ 8 0)) d
  | .atpL1 =>
      let s := s.sent i
      if !i.memRespValid then s
      else if nextLevel d || illegal d then s.fault
      else s.finish (slice d (pa - 3) 10) d
  | .done => { s with stateQ := .idle }

/-- A request restarts the walker, whatever it was doing. -/
def start (s : Ptw) (i : PtwIn) : Ptw :=
  { s with
    vpnQ := i.reqVpn
    reqValidQ := true
    reqAddrQ := cat i.reqPtPpn 9 (slice i.reqVpn 26 18)
    stateQ := .atpL3 }

def step (pa : ℕ) (s : Ptw) (i : PtwIn) : Ptw :=
  if i.reqValid then (s.walkStep pa i).start i else s.walkStep pa i

def respValid (s : Ptw) : Bool := s.stateQ == .done
def respPpn (s : Ptw) : ℕ := s.ppnQ
def respPerm (s : Ptw) : PageProt := Sv39.protOf s.permQ

/-- The level whose entry the walker is waiting for. -/
def level (s : Ptw) : Option ℕ :=
  match s.stateQ with
  | .idle => none
  | .atpL3 => some 2
  | .atpL2 => some 1
  | .atpL1 => some 0
  | .done => none

/-! ## The entries -/

/-- The low nibble of a word decides the walker's tests. -/
private theorem nibble (P : ℕ → Bool) (Q : ℕ → Bool) (hP : ∀ d, P d = P (d % 16))
    (hQ : ∀ d, Q d = Q (d % 16)) (h : ∀ m < 16, P m = Q m) (d : ℕ) : P d = Q d := by
  rw [hP, hQ]
  exact h _ (Nat.mod_lt _ (by decide))

private theorem testBit_nibble (d : ℕ) {k : ℕ} (hk : k < 4) :
    d.testBit k = (d % 16).testBit k := by
  have h : (d % 2 ^ 4).testBit k = (decide (k < 4) && d.testBit k) := Nat.testBit_mod_two_pow d 4 k
  rw [show (16 : ℕ) = 2 ^ 4 by rfl, h]
  simp [hk]

private theorem slice_nibble (d hi lo : ℕ) (h : hi + 1 ≤ 4) (hlo : lo ≤ hi) :
    slice d hi lo = slice (d % 16) hi lo := by
  have hpow : (16 : ℕ) = 2 ^ lo * 2 ^ (4 - lo) := by
    rw [← pow_add, show lo + (4 - lo) = 4 by omega]
    rfl
  have hdvd : 2 ^ (hi + 1 - lo) ∣ 2 ^ (4 - lo) := Nat.pow_dvd_pow 2 (by omega)
  rw [slice, slice, hpow, Nat.mod_mul_right_div_self, Nat.mod_mod_of_dvd _ hdvd]

theorem nextLevel_eq_isPointer (d : ℕ) : nextLevel d = Sv39.isPointer d := by
  refine nibble nextLevel Sv39.isPointer ?_ ?_ (by decide) d
  · intro d
    rw [nextLevel, nextLevel, slice_nibble d _ _ (by decide) (by decide)]
  · intro d
    simp only [Sv39.isPointer]
    rw [testBit_nibble d (k := 0), testBit_nibble d (k := 1), testBit_nibble d (k := 2),
      testBit_nibble d (k := 3)] <;> decide

theorem illegal_eq_isReserved (d : ℕ) : illegal d = Sv39.isReserved d := by
  refine nibble illegal Sv39.isReserved ?_ ?_ (by decide) d
  · intro d
    rw [illegal, illegal, slice_nibble d 0 0, slice_nibble d 3 1] <;>
      decide
  · intro d
    simp only [Sv39.isReserved]
    rw [testBit_nibble d (k := 0), testBit_nibble d (k := 1), testBit_nibble d (k := 2)] <;> decide

theorem isReserved_of_isPointer {d : ℕ} (h : Sv39.isPointer d = true) :
    Sv39.isReserved d = false := by
  simp only [Sv39.isPointer, Bool.and_eq_true, Bool.not_eq_true'] at h
  simp [Sv39.isReserved, h.1.1.1, h.1.2]

/-! ## The walk in progress -/

/-- The outcome that the result registers hold. -/
def outcome (s : Ptw) : Option Sv39.Leaf :=
  if s.permQ.testBit 0 then some ⟨s.ppnQ, s.permQ⟩ else none

/-- The registers of the walker are on the walk of `vpn_q` from `root`. -/
def Ok (R : ℕ → ℕ → Prop) (pa root : ℕ) (s : Ptw) : Prop :=
  match s.stateQ with
  | .idle => True
  | .atpL3 => Sv39.At R pa root s.vpnQ 2 s.reqAddrQ
  | .atpL2 => Sv39.At R pa root s.vpnQ 1 s.reqAddrQ
  | .atpL1 => Sv39.At R pa root s.vpnQ 0 s.reqAddrQ
  | .done => Sv39.Walk R pa root s.vpnQ s.outcome

/-- The answer pulse states the outcome in the registers. -/
theorem states_outcome (s : Ptw) : Sv39.States s.outcome s.respPpn s.respPerm := by
  by_cases h : s.permQ.testBit 0
  · simp [Sv39.States, outcome, respPpn, respPerm, h]
  · simp [Sv39.States, outcome, respPerm, Sv39.protOf, h]

/-! ## One step -/

@[simp] theorem sent_stateQ (s : Ptw) (i : PtwIn) : (s.sent i).stateQ = s.stateQ := rfl
@[simp] theorem sent_vpnQ (s : Ptw) (i : PtwIn) : (s.sent i).vpnQ = s.vpnQ := rfl
@[simp] theorem sent_reqAddrQ (s : Ptw) (i : PtwIn) : (s.sent i).reqAddrQ = s.reqAddrQ := rfl

theorem visit_nextLevel {pa vpn i d : ℕ} (h : nextLevel d = true) :
    Sv39.visit pa vpn (i + 1) d = .inr (Sv39.child pa d vpn i) := by
  rw [nextLevel_eq_isPointer] at h
  simp [Sv39.visit, h, isReserved_of_isPointer h]

theorem visit_fault {pa vpn i d : ℕ}
    (h : illegal d = true ∨ (nextLevel d = true ∧ i = 0) ∨
      (nextLevel d = false ∧ Sv39.isMisaligned d i = true)) :
    Sv39.visit pa vpn i d = .inl none := by
  rw [nextLevel_eq_isPointer, illegal_eq_isReserved] at h
  rcases h with h | ⟨h, rfl⟩ | ⟨h, hm⟩
  · simp [Sv39.visit, h]
  · simp [Sv39.visit, h, isReserved_of_isPointer h]
  · by_cases hr : Sv39.isReserved d = true <;> simp [Sv39.visit, h, hm, hr]

theorem visit_leaf {pa vpn i d : ℕ} (hp : nextLevel d = false) (hi : illegal d = false)
    (hm : Sv39.isMisaligned d i = false) :
    Sv39.visit pa vpn i d = .inl (some (Sv39.leafOf pa d vpn i)) := by
  rw [nextLevel_eq_isPointer] at hp
  rw [illegal_eq_isReserved] at hi
  simp [Sv39.visit, hp, hi, hm]

/-- A leaf has its valid bit set, so the result registers hold it. -/
theorem outcome_finish {s : Ptw} {ppn d : ℕ} (h : illegal d = false) :
    (s.finish ppn d).outcome = some ⟨ppn, slice d 7 0⟩ := by
  rw [illegal_eq_isReserved] at h
  have hv : d.testBit 0 = true := by
    cases hd : d.testBit 0
    · simp [Sv39.isReserved, hd] at h
    · rfl
  have hb : (slice d 7 0).testBit 0 = true := by
    have h8 : (d % 2 ^ 8).testBit 0 = (decide (0 < 8) && d.testBit 0) :=
      Nat.testBit_mod_two_pow d 8 0
    simpa [slice, hv] using h8
  simp only [outcome, finish, hb, if_true]

theorem outcome_fault (s : Ptw) : s.fault.outcome = none := by
  simp [outcome, fault, Nat.testBit_zero]

section Step
variable {R : ℕ → ℕ → Prop} {pa root : ℕ} {s : Ptw} {i : PtwIn}

private theorem ok_fault {l a d : ℕ} (hat : Sv39.At R pa root s.vpnQ l a) (hR : R a d)
    (hv : Sv39.visit pa s.vpnQ l d = .inl none) : Ok R pa root s.fault := by
  change Sv39.Walk R pa root s.vpnQ s.fault.outcome
  rw [outcome_fault]
  exact .mk hat hR hv

private theorem ok_finish {l a d ppn : ℕ} (hat : Sv39.At R pa root s.vpnQ l a) (hR : R a d)
    (hp : nextLevel d = false) (hi : illegal d = false) (hm : Sv39.isMisaligned d l = false)
    (hppn : ppn = (Sv39.leafOf pa d s.vpnQ l).ppn) : Ok R pa root (s.finish ppn d) := by
  change Sv39.Walk R pa root s.vpnQ (s.finish ppn d).outcome
  rw [outcome_finish hi, hppn]
  exact .mk hat hR (visit_leaf hp hi hm)

/-- The two upper levels: an entry that may point to a further table. -/
private theorem ok_table {l addr ppn : ℕ} {misaligned : Bool} {st : PtwState}
    (hat : Sv39.At R pa root s.vpnQ (l + 1) s.reqAddrQ) (hok : Ok R pa root s)
    (hR : i.memRespValid = true → R s.reqAddrQ i.memRespData)
    (haddr : addr = Sv39.child pa i.memRespData s.vpnQ l)
    (hm : misaligned = Sv39.isMisaligned i.memRespData (l + 1))
    (hppn : ppn = (Sv39.leafOf pa i.memRespData s.vpnQ (l + 1)).ppn)
    (hst : Sv39.At R pa root s.vpnQ l addr → Ok R pa root ((s.sent i).descend addr st)) :
    Ok R pa root
      (if (!i.memRespValid) = true then s.sent i
      else if nextLevel i.memRespData = true then (s.sent i).descend addr st
      else if (illegal i.memRespData || misaligned) = true then (s.sent i).fault
      else (s.sent i).finish ppn i.memRespData) := by
  split_ifs with hv hn hi
  · exact hok
  · have hread := hR (by simpa using hv)
    exact hst (haddr ▸ .next hat hread (visit_nextLevel hn))
  · have hread := hR (by simpa using hv)
    refine ok_fault (s := s.sent i) hat hread (visit_fault ?_)
    simp only [Bool.or_eq_true] at hi
    rcases hi with hi | hi
    · exact .inl hi
    · exact .inr (.inr ⟨by simpa using hn, hm ▸ hi⟩)
  · have hread := hR (by simpa using hv)
    simp only [Bool.or_eq_true, not_or, Bool.not_eq_true] at hi
    exact ok_finish (s := s.sent i) hat hread (by simpa using hn) hi.1 (hm ▸ hi.2) hppn

/-- Reading on keeps the walker on the walk, as long as the entry it receives is the
one it asked for. -/
theorem ok_walkStep (h : Ok R pa root s) (hR : i.memRespValid = true → R s.reqAddrQ i.memRespData) :
    Ok R pa root (s.walkStep pa i) := by
  unfold walkStep
  split
  case h_1 hs => simp [Ok, hs]
  case h_2 hs =>
      have hat : Sv39.At R pa root s.vpnQ 2 s.reqAddrQ := by simpa [Ok, hs] using h
      exact ok_table (l := 1) hat h hR rfl (by simp [Sv39.isMisaligned])
        (by simp [Sv39.leafOf, slice]) id
  case h_3 hs =>
      have hat : Sv39.At R pa root s.vpnQ 1 s.reqAddrQ := by simpa [Ok, hs] using h
      exact ok_table (l := 0) hat h hR rfl (by simp [Sv39.isMisaligned])
        (by simp [Sv39.leafOf, slice]) id
  case h_4 hs =>
      have hat : Sv39.At R pa root s.vpnQ 0 s.reqAddrQ := by simpa [Ok, hs] using h
      dsimp only
      split_ifs with hv hn
      · exact h
      · have hread := hR (by simpa using hv)
        refine ok_fault (s := s.sent i) hat hread (visit_fault ?_)
        simp only [Bool.or_eq_true] at hn
        rcases hn with hn | hn
        · exact .inr (.inl ⟨hn, rfl⟩)
        · exact .inl hn
      · have hread := hR (by simpa using hv)
        simp only [Bool.or_eq_true, not_or, Bool.not_eq_true] at hn
        refine ok_finish (s := s.sent i) hat hread hn.1 hn.2 (by simp [Sv39.isMisaligned]) ?_
        simp [Sv39.leafOf, slice, cat, Nat.mod_one]
  case h_5 hs => simp [Ok]

/-- After a request the walker is at the first entry of the requested walk. -/
theorem ok_start : Ok R pa i.reqPtPpn (s.start i) := Sv39.At.root

/-- One step of the walker, with the root of the walk it is on afterwards. -/
theorem ok_step (h : Ok R pa root s) (hR : i.memRespValid = true → R s.reqAddrQ i.memRespData) :
    Ok R pa (if i.reqValid then i.reqPtPpn else root) (s.step pa i) := by
  cases hv : i.reqValid
  · simpa [step, hv] using ok_walkStep h hR
  · simpa [step, hv] using ok_start

/-- A walker that waits for no entry is at rest or at the start of a walk next. -/
theorem ok_of_level_none (h : s.level = none) :
    (s.step pa i).respValid = false ∧ ∃ root, Ok R pa root (s.step pa i) := by
  cases hv : i.reqValid
  · have hs : (s.walkStep pa i).stateQ = .idle := by
      cases hst : s.stateQ <;> simp_all [level, walkStep]
    exact ⟨by simp [step, hv, respValid, hs], 0, by simp [step, hv, Ok, hs]⟩
  · exact ⟨by simp [step, hv, respValid, start], i.reqPtPpn, by simpa [step, hv] using ok_start⟩

/-- The answer of the walker is the outcome of its walk. -/
theorem walk_of_respValid (h : Ok R pa root s) (hv : s.respValid = true) :
    ∃ o, Sv39.Walk R pa root s.vpnQ o ∧ Sv39.States o s.respPpn s.respPerm := by
  have hs : s.stateQ = .done := by simpa [respValid] using hv
  exact ⟨s.outcome, by simpa [Ok, hs] using h, states_outcome s⟩

/-! ## The control of the walker -/

theorem stateQ_ne_idle_of_level (h : s.level ≠ none) : s.stateQ ≠ .idle := by
  intro hs
  simp [level, hs] at h

theorem respValid_of_level (h : s.level ≠ none) : s.respValid = false := by
  cases hs : s.stateQ <;> simp_all [level, respValid]

/-- A walker that waits for nothing and is not started comes to rest. -/
theorem step_rest (h : s.level = none) (hq : i.reqValid = false) :
    (s.step pa i).stateQ = .idle ∧ (s.step pa i).reqValidQ = s.reqValidQ := by
  cases hs : s.stateQ <;> simp_all [level, step, walkStep]

/-- A walker that waits for an entry goes on waiting. -/
theorem step_wait (h : s.level ≠ none) (hq : i.reqValid = false) (hv : i.memRespValid = false) :
    s.step pa i = s.sent i := by
  cases hs : s.stateQ <;> simp_all [level, step, walkStep]

/-- A walker that receives an entry asks for the next one or is done. -/
theorem step_read (h : s.level ≠ none) (hq : i.reqValid = false) (hv : i.memRespValid = true) :
    (s.step pa i).vpnQ = s.vpnQ ∧
      ((s.step pa i).level ≠ none ∧ (s.step pa i).reqValidQ = true ∨
        (s.step pa i).stateQ = .done ∧ (s.step pa i).reqValidQ = (s.sent i).reqValidQ) := by
  cases hs : s.stateQ <;> simp only [level, hs, ne_eq, not_true_eq_false] at h
  all_goals
    simp only [step, hq, walkStep, hs, hv, Bool.not_true, Bool.false_eq_true, if_false]
    split_ifs <;> simp [descend, fault, finish, level, sent]

/-- An entry that is read either ends the walk or leads to a lower level. -/
theorem level_step_read {l : ℕ} (h : s.level = some l) (hq : i.reqValid = false)
    (hv : i.memRespValid = true) :
    (∃ l' < l, (s.step pa i).level = some l' ∧ (s.step pa i).reqValidQ = true) ∨
      (s.step pa i).stateQ = .done := by
  cases hs : s.stateQ <;> simp only [level, hs, reduceCtorEq, Option.some.injEq] at h
  all_goals
    subst h
    simp only [step, hq, walkStep, hs, hv, Bool.not_true, Bool.false_eq_true, if_false]
    split_ifs <;> simp [descend, fault, finish, level]

/-- A request starts the walker at the root. -/
theorem step_start (hq : i.reqValid = true) :
    (s.step pa i).level ≠ none ∧ (s.step pa i).stateQ ≠ .idle ∧
      (s.step pa i).reqValidQ = true ∧ (s.step pa i).vpnQ = i.reqVpn := by
  simp [step, hq, start, level]

end Step

end Ptw

end Muntjac.Core

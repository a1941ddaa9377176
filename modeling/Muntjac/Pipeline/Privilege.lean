import Muntjac.Pipeline.CsRegisters
import Muntjac.Sync.Run

/-!
# The privilege state

Traps, returns and CSR writes keep the privilege level and the stack of saved levels
legal.  `MPRV` is the exception: `SRET` leaves it set when it leaves M-mode.

## Main results

* `CsRegisters.legal_of_run` — in every run in which no `SRET` is executed in M-mode while
  `MPRV` is set, every state is legal and every trap and return does what it should.
* `CsRegisters.mprv_after_sret` — a run in which user mode keeps the privilege of M-mode
  for loads and stores.
-/

namespace Muntjac.Pipeline

open Sync (run run_invariant)

namespace CsRegisters
variable {p : CsrParams} {s : CsRegisters p} {i : CsRegistersIn}

/-! ## What the environment promises -/

/-- A return as the decoder admits it: `MRET` in M-mode, `SRET` in M-mode or, without `TSR`,
in S-mode. -/
def ReturnAdmitted (s : CsRegisters p) (i : CsRegistersIn) : Prop :=
  i.erPrv = .m ∧ s.privLvlQ = .m ∨
    i.erPrv = .s ∧ (s.privLvlQ = .m ∨ s.privLvlQ = .s ∧ s.mstatusQ.tsr = false)

/-- Returns are admitted by the decoder and CSR operations have passed the check. -/
structure Env (s : CsRegisters p) (i : CsRegistersIn) : Prop where
  eret : i.exValid = false → i.erValid = true → s.ReturnAdmitted i
  csr : i.exValid = false → i.erValid = false → i.csrOpEn = true →
    s.checkIllegal i.csrAddr i.csrOp = false

/-- An `SRET` is executed in M-mode while `MPRV` is set. -/
def SretKeepsMprv (s : CsRegisters p) (i : CsRegistersIn) : Prop :=
  i.exValid = false ∧ i.erValid = true ∧ i.erPrv ≠ .m ∧ s.privLvlQ = .m ∧ s.mstatusQ.mprv = true

/-! ## What is legal -/

/-- Neither the current level nor the saved one is reserved. -/
structure Levels (s : CsRegisters p) : Prop where
  priv : s.privLvlQ ≠ .h
  mpp : s.mstatusQ.mpp ≠ .h

/-- The levels are not reserved and `MPRV` is set in M-mode only. -/
structure Legal (s : CsRegisters p) : Prop extends s.Levels where
  mprv : s.mstatusQ.mprv = true → s.privLvlQ = .m

/-- A trap does not lower the level, and saves the level and the interrupt enable of the
interrupted code in the mode that it enters. -/
def TrapOk (s : CsRegisters p) (i : CsRegistersIn) : Prop :=
  i.exValid = true →
    s.privLvlQ.toBits ≤ (s.next i).privLvlQ.toBits ∧
      ((s.next i).privLvlQ = .m ∧ (s.next i).mstatusQ.mpp = s.privLvlQ ∧
          (s.next i).mstatusQ.mpie = s.mstatusQ.mie ∧ (s.next i).mstatusQ.mie = false ∨
        (s.next i).privLvlQ = .s ∧ (s.privLvlQ = if (s.next i).mstatusQ.spp then .s else .u) ∧
          (s.next i).mstatusQ.spie = s.mstatusQ.sie ∧ (s.next i).mstatusQ.sie = false)

/-- A return goes to the saved level and restores the saved interrupt enable. -/
def ReturnOk (s : CsRegisters p) (i : CsRegistersIn) : Prop :=
  i.exValid = false → i.erValid = true →
    (i.erPrv = .m → (s.next i).privLvlQ = s.mstatusQ.mpp ∧
      (s.next i).mstatusQ.mie = s.mstatusQ.mpie) ∧
    (i.erPrv ≠ .m → (s.next i).privLvlQ = (if s.mstatusQ.spp then .s else .u) ∧
      (s.next i).mstatusQ.sie = s.mstatusQ.spie)

/-- Outside M-mode loads and stores use the current level. -/
def LsuOk (s : CsRegisters p) : Prop := s.privLvlQ ≠ .m → s.privModeLsu = s.privLvlQ

/-! ## One cycle -/

@[simp] theorem accumulate_privLvlQ (s : CsRegisters p) (i : CsRegistersIn) :
    (s.accumulate i).privLvlQ = s.privLvlQ := by
  unfold accumulate
  split <;> rfl

/-- Floating-point instructions change `FS` only. -/
theorem accumulate_status (s : CsRegisters p) (i : CsRegistersIn) :
    ∃ fs, (s.accumulate i).mstatusQ = { s.mstatusQ with fs := fs } := by
  unfold accumulate
  split
  · simp only
    split
    · exact ⟨3, rfl⟩
    · exact ⟨s.mstatusQ.fs, rfl⟩
  · exact ⟨s.mstatusQ.fs, rfl⟩

@[simp] theorem accumulate_delegates (s : CsRegisters p) (i : CsRegistersIn) :
    (s.accumulate i).delegates i = s.delegates i := by
  unfold accumulate
  split <;> rfl

@[simp] theorem write_privLvlQ (s : CsRegisters p) (c : Csr) (x : BitVec 64) :
    (s.write c x).privLvlQ = s.privLvlQ := by
  unfold write
  split <;> try split
  all_goals rfl

/-- `mstatus` is the only register through which `MPP` and `MPRV` are written. -/
theorem write_status (s : CsRegisters p) (c : Csr) (x : BitVec 64) :
    c = .mstatus ∧ (s.write c x).mstatusQ = writeMstatus s.mstatusQ x ∨
      (s.write c x).mstatusQ.mpp = s.mstatusQ.mpp ∧
        (s.write c x).mstatusQ.mprv = s.mstatusQ.mprv := by
  by_cases hc : c = .mstatus
  · subst hc
    exact Or.inl ⟨rfl, rfl⟩
  · refine Or.inr ?_
    unfold write
    split <;> try split
    all_goals first
      | exact ⟨rfl, rfl⟩
      | exact absurd rfl hc

theorem writeMstatus_mpp (t : Status) (x : BitVec 64) : (writeMstatus t x).mpp ≠ .h := by
  simp only [writeMstatus]
  split
  · simp
  · assumption

/-- Machine registers are accessed in M-mode. -/
theorem priv_of_mstatus {op : CsrOp} (h : s.checkIllegal .mstatus op = false) :
    s.privLvlQ = .m := by
  revert h
  cases hp : s.privLvlQ <;> simp [checkIllegal, hp, PrivLvl.toBits, Csr.level, Csr.addr]

theorem next_of_exValid (h : i.exValid = true) :
    (s.next i).privLvlQ = ((s.accumulate i).trap i).privLvlQ ∧
      (s.next i).mstatusQ = ((s.accumulate i).trap i).mstatusQ := by
  simp [next, next.control, h]

theorem next_of_erValid (hx : i.exValid = false) (h : i.erValid = true) :
    (s.next i).privLvlQ = ((s.accumulate i).eret i).privLvlQ ∧
      (s.next i).mstatusQ = ((s.accumulate i).eret i).mstatusQ := by
  simp [next, next.control, hx, h]

/-- The level and the status after a cycle without a trap or a return. -/
theorem next_of_csr (hx : i.exValid = false) (he : i.erValid = false) :
    (s.next i).privLvlQ = s.privLvlQ ∧
      ((s.next i).mstatusQ.mpp = s.mstatusQ.mpp ∧ (s.next i).mstatusQ.mprv = s.mstatusQ.mprv ∨
        i.csrOpEn = true ∧ i.csrAddr = .mstatus ∧ (s.next i).mstatusQ.mpp ≠ .h) := by
  obtain ⟨fs, hfs⟩ := accumulate_status s i
  simp only [next, next.control, hx, he, Bool.false_eq_true, if_false]
  split
  · next hop =>
    rw [Bool.and_eq_true] at hop
    refine ⟨by simp, ?_⟩
    rcases write_status (s.accumulate i) i.csrAddr (s.wdataInt i) with ⟨hc, hw⟩ | ⟨hm, hv⟩
    · refine Or.inr ⟨hop.1, hc, ?_⟩
      show ((s.accumulate i).write i.csrAddr (s.wdataInt i)).mstatusQ.mpp ≠ .h
      rw [hw]
      exact writeMstatus_mpp _ _
    · refine Or.inl ⟨hm.trans ?_, hv.trans ?_⟩ <;> rw [hfs]
  · refine ⟨by simp, Or.inl ?_⟩
    show (s.accumulate i).mstatusQ.mpp = _ ∧ (s.accumulate i).mstatusQ.mprv = _
    rw [hfs]
    exact ⟨rfl, rfl⟩

theorem trapOk_of_levels (h : s.Levels) : s.TrapOk i := by
  intro hx
  obtain ⟨hp, hm⟩ := next_of_exValid (s := s) hx
  obtain ⟨fs, hfs⟩ := accumulate_status s i
  rw [hp, hm]
  cases hd : s.delegates i with
  | true =>
      have hne : s.privLvlQ ≠ .m := by
        simp only [delegates, Bool.and_eq_true, bne_iff_ne] at hd
        exact hd.1
      have hpriv := h.priv
      simp only [trap, accumulate_delegates, hd, if_true, hfs, accumulate_privLvlQ]
      revert hne hpriv
      cases s.privLvlQ <;> simp [PrivLvl.toBits]
  | false =>
      simp only [trap, accumulate_delegates, hd, Bool.false_eq_true, if_false, hfs,
        accumulate_privLvlQ]
      refine ⟨?_, by simp⟩
      cases s.privLvlQ <;> simp [PrivLvl.toBits]

theorem returnOk (s : CsRegisters p) (i : CsRegistersIn) : s.ReturnOk i := by
  intro hx he
  obtain ⟨hp, hm⟩ := next_of_erValid (s := s) hx he
  obtain ⟨fs, hfs⟩ := accumulate_status s i
  rw [hp, hm]
  constructor
  · intro her
    simp [eret, her, hfs]
  · intro her
    simp [eret, her, hfs]

theorem lsuOk_of_legal (h : s.Legal) : s.LsuOk := by
  intro hne
  have hmprv : s.mstatusQ.mprv = false := by
    cases hv : s.mstatusQ.mprv with
    | false => rfl
    | true => exact absurd (h.mprv hv) hne
  simp [privModeLsu, hmprv]

theorem levels_next (h : s.Levels) (i : CsRegistersIn) : (s.next i).Levels := by
  obtain ⟨fs, hfs⟩ := accumulate_status s i
  cases hx : i.exValid with
  | true =>
      obtain ⟨hp, hm⟩ := next_of_exValid (s := s) hx
      constructor
      · rw [hp]
        unfold trap
        split <;> simp
      · rw [hm]
        unfold trap
        split
        · simpa [hfs] using h.mpp
        · simpa using h.priv
  | false =>
      cases he : i.erValid with
      | true =>
          obtain ⟨hp, hm⟩ := next_of_erValid (s := s) hx he
          constructor
          · rw [hp]
            unfold eret
            split
            · simp only [hfs]
              split <;> simp
            · simpa [hfs] using h.mpp
          · rw [hm]
            unfold eret
            split
            · simpa [hfs] using h.mpp
            · simp
      | false =>
          obtain ⟨hp, hm⟩ := next_of_csr (s := s) hx he
          constructor
          · rw [hp]
            exact h.priv
          · rcases hm with ⟨hmpp, -⟩ | ⟨-, -, hmpp⟩
            · rw [hmpp]
              exact h.mpp
            · exact hmpp

theorem legal_reset (p : CsrParams) : (reset p).Legal where
  priv := by simp [reset]
  mpp := by simp [reset]
  mprv := by simp [reset]

/-- `MPRV` after a cycle was set in M-mode, and M-mode has not been left. -/
theorem mprv_next (h : s.Legal) (henv : s.Env i) (hsret : ¬s.SretKeepsMprv i)
    (hv : (s.next i).mstatusQ.mprv = true) : (s.next i).privLvlQ = .m := by
  obtain ⟨fs, hfs⟩ := accumulate_status s i
  cases hx : i.exValid with
  | true =>
      obtain ⟨hp, hm⟩ := next_of_exValid (s := s) hx
      rw [hm] at hv
      rw [hp]
      cases hd : s.delegates i with
      | true =>
          simp only [trap, accumulate_delegates, hd, if_true, hfs] at hv
          simp [delegates, h.mprv hv] at hd
      | false => simp [trap, hd]
  | false =>
      cases he : i.erValid with
      | true =>
          obtain ⟨hp, hm⟩ := next_of_erValid (s := s) hx he
          rw [hm] at hv
          rw [hp]
          by_cases her : i.erPrv = .m
          · simp only [eret, her, hfs, ne_eq, not_true_eq_false, if_false] at hv ⊢
            by_contra hne
            simp [hne] at hv
          · -- an `SRET` in S-mode finds `MPRV` clear
            simp only [eret, her, hfs, ne_eq, not_false_eq_true, if_true] at hv
            exact absurd ⟨hx, he, her, h.mprv hv, hv⟩ hsret
      | false =>
          obtain ⟨hp, hm⟩ := next_of_csr (s := s) hx he
          rw [hp]
          rcases hm with ⟨-, hmprv⟩ | ⟨hen, hc, -⟩
          · exact h.mprv (hmprv ▸ hv)
          · have hcheck := henv.csr hx he hen
            rw [hc] at hcheck
            exact priv_of_mstatus hcheck

theorem legal_next (h : s.Legal) (henv : s.Env i) (hsret : ¬s.SretKeepsMprv i) :
    (s.next i).Legal :=
  { levels_next h.toLevels i with mprv := mprv_next h henv hsret }

theorem levels_of_run (p : CsrParams) (inp : ℕ → CsRegistersIn) (n : ℕ) :
    (run next (reset p) inp n).Levels :=
  run_invariant Levels (fun _ _ => True) (legal_reset p).toLevels
    (fun _ i hs _ => levels_next hs i) n fun _ _ => trivial

/-! ## Runs -/

theorem legal_of_run (p : CsrParams) (inp : ℕ → CsRegistersIn) (n : ℕ)
    (henv : ∀ k < n, (run next (reset p) inp k).Env (inp k))
    (hsret : ∀ k < n, ¬(run next (reset p) inp k).SretKeepsMprv (inp k)) :
    (run next (reset p) inp n).Legal ∧ (run next (reset p) inp n).LsuOk ∧
      ∀ i, (run next (reset p) inp n).TrapOk i ∧ (run next (reset p) inp n).ReturnOk i := by
  have h : (run next (reset p) inp n).Legal :=
    run_invariant Legal (fun s i => s.Env i ∧ ¬s.SretKeepsMprv i) (legal_reset p)
      (fun s i hs hi => legal_next hs hi.1 hi.2) n fun k hk => ⟨henv k hk, hsret k hk⟩
  exact ⟨h, lsuOk_of_legal h, fun i => ⟨trapOk_of_levels h.toLevels, returnOk _ i⟩⟩

/-! ## Leaving M-mode -/

instance (s : CsRegisters p) (i : CsRegistersIn) : Decidable (s.ReturnAdmitted i) :=
  inferInstanceAs (Decidable (_ ∨ _))

instance (s : CsRegisters p) (i : CsRegistersIn) : Decidable (s.Env i) :=
  decidable_of_iff
    ((i.exValid = false → i.erValid = true → s.ReturnAdmitted i) ∧
      (i.exValid = false → i.erValid = false → i.csrOpEn = true →
        s.checkIllegal i.csrAddr i.csrOp = false))
    ⟨fun h => ⟨h.1, h.2⟩, fun h => ⟨h.eret, h.csr⟩⟩

instance (s : CsRegisters p) (i : CsRegistersIn) : Decidable (s.SretKeepsMprv i) :=
  inferInstanceAs (Decidable (_ ∧ _))

/-- The parameters of the default configuration. -/
def defaultParams : CsrParams :=
  ⟨false, false, 16, 56, 39, 0, CsrParams.asidLen_max, CsrParams.physAddrLen_max,
    CsrParams.noCounters_le⟩

/-- A cycle in which nothing happens. -/
def quiet : CsRegistersIn where
  hartId := 0
  csrAddr := .mscratch
  csrWdata := 0
  csrOp := .read
  csrOpEn := false
  irqSoftwareM := false
  irqTimerM := false
  irqExternalM := false
  irqExternalS := false
  exValid := false
  exCause := 0
  exTval := 0
  exEpc := 0
  erValid := false
  erPrv := .m
  makeFsDirty := false
  setFflags := 0
  instrRet := false
  hpmEvent := 0

/-- M-mode sets `MPRV` with `MPP = M` and returns with `MRET` or `SRET`. -/
def leaveMachine (level : PrivLvl) (mstatus : BitVec 64) (k : ℕ) : CsRegistersIn :=
  match k with
  | 0 => { quiet with csrAddr := .mstatus, csrOp := .write, csrOpEn := true, csrWdata := mstatus }
  | _ => { quiet with erValid := true, erPrv := level }

/-- With `MRET` to user mode the privilege of M-mode is gone. -/
theorem legal_of_run_mret :
    (run next (reset defaultParams) (leaveMachine .m 0x20000) 2).privLvlQ = .u ∧
      (run next (reset defaultParams) (leaveMachine .m 0x20000) 2).privModeLsu = .u := by
  have hpriv : (run next (reset defaultParams) (leaveMachine .m 0x20000) 2).privLvlQ = .u := by
    decide
  have h := legal_of_run defaultParams (leaveMachine .m 0x20000) 2 (by decide)
    (by decide)
  refine ⟨hpriv, ?_⟩
  rw [h.2.1 (by rw [hpriv]; decide), hpriv]

/-- With `SRET` user mode loads and stores with the privilege of M-mode. -/
theorem mprv_after_sret :
    (∀ k < 2, (run next (reset defaultParams) (leaveMachine .s 0x21800) k).Env
        (leaveMachine .s 0x21800 k)) ∧
      (run next (reset defaultParams) (leaveMachine .s 0x21800) 2).privLvlQ = .u ∧
      (run next (reset defaultParams) (leaveMachine .s 0x21800) 2).mstatusQ.mprv = true ∧
      (run next (reset defaultParams) (leaveMachine .s 0x21800) 2).privModeLsu = .m := by
  decide

end CsRegisters

end Muntjac.Pipeline

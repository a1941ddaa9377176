import Muntjac.Core.Dcache

/-!
# The lock of the data cache

At most one of refill, probe, writeback and flush holds the lock, and the access
machine writes only when nobody holds it.  Hence every request for the tag and data
ports that its machine assumes to be granted is granted, whatever the backend and the
memory do.

## Main definitions

* `Dcache.Locked` — the invariant: the tracker bits agree with the states of their
  machines and exclude each other.
-/

namespace Muntjac.Core

open Sync Tl

namespace Dcache
variable {p : DcacheParams} {s : Dcache p} {i : DcacheIn}

/-- The holder of the lock is unique and the tracker bits say who it is. -/
structure Locked (s : Dcache p) : Prop where
  refill : s.refillTrackerValid = (s.refillStateQ == .progress)
  probe : s.probeTrackerValid = (s.probeStateQ == .check)
  flush : s.flushTrackerValid = (s.flushStateQ == .reset)
  flushState : s.flushStateQ ≠ .readTag ∧ s.flushStateQ ≠ .check
  refill_alone : s.refillStateQ = .progress →
    s.probeStateQ = .idle ∧ s.wbStateQ = .idle ∧ s.flushStateQ ≠ .reset
  probe_alone : s.probeStateQ = .check → s.wbStateQ = .idle ∧ s.flushStateQ ≠ .reset
  wb_alone : s.wbStateQ ≠ .idle → s.flushStateQ ≠ .reset

/-- Nothing is in progress exactly when the four machines are at rest. -/
theorem Locked.nothingInProgress (h : s.Locked) :
    s.nothingInProgress = true ↔ s.refillStateQ = .idle ∧ s.probeStateQ = .idle ∧
      s.wbStateQ = .idle ∧ s.flushStateQ ≠ .reset := by
  have hr : s.refillStateQ = .idle ∨ s.refillStateQ = .progress := by
    cases s.refillStateQ <;> simp
  have hp : s.probeStateQ = .idle ∨ s.probeStateQ = .check := by
    cases s.probeStateQ <;> simp
  simp only [Dcache.nothingInProgress, writebackTrackerValid, h.refill, h.probe, h.flush]
  rcases hr with hr | hr <;> rcases hp with hp | hp <;> simp [hr, hp]

theorem nothingInProgress_of_fetches {o : AccessOutcome} (ho : o ≠ .conflict)
    (h : s.fetches i o = true) : s.nothingInProgress = true := by
  simp only [fetches, Bool.and_eq_true, beq_iff_eq] at h
  by_contra hn
  have : s.outcome i = .conflict := by simp [outcome, hn]
  exact ho (h.2.symm.trans this)

theorem nothingInProgress_of_accessTagWrite (h : (s.accessTagWrite i).isSome = true) :
    s.nothingInProgress = true := by
  unfold accessTagWrite at h
  split_ifs at h with hm hw
  · exact nothingInProgress_of_fetches (by decide) hm
  · simp only [accessDataWriteReq, Bool.and_eq_true] at hw
    exact nothingInProgress_of_fetches (by decide) hw.1.1.1
  · simp at h

theorem nothingInProgress_of_accessDataWrite (h : (s.accessDataWrite i).isSome = true) :
    s.nothingInProgress = true := by
  unfold accessDataWrite at h
  split_ifs at h with hw
  · simp only [accessDataWriteReq, Bool.and_eq_true] at hw
    exact nothingInProgress_of_fetches (by decide) hw.1.1
  · simp at h

theorem nothingInProgress_of_wbRelReq (h : (s.wbRelReq i).isSome = true) :
    s.nothingInProgress = true := by
  unfold wbRelReq at h
  split_ifs at h with hw
  · simp only [Bool.and_eq_true] at hw
    exact nothingInProgress_of_fetches (by decide) hw.1.1
  · simp at h

/-- The flush machine makes no writeback request: it never leaves the three states of
the reset flush and of the TLB flush. -/
theorem Locked.wbFlushReq (h : s.Locked) : s.wbFlushReq = none := by
  simp [Dcache.wbFlushReq, h.flushState.2]

/-- A writeback request comes from the probe, which holds the lock, or from the access,
while nobody holds it. -/
theorem Locked.wbReq_cases (h : s.Locked) (hw : (s.wbReq i).isSome = true) :
    s.probeStateQ = .check ∨ (s.probeStateQ = .idle ∧ (s.wbRelReq i).isSome = true) := by
  cases hp : s.probeStateQ
  · simp only [wbReq, h.wbFlushReq, wbProbeReq, hp, Option.none_or] at hw
    exact .inr ⟨rfl, by simpa using hw⟩
  · exact .inl rfl

section Step

/-- Taking the lock needs it to be free. -/
theorem Locked.free_of_lockFree (h : s.Locked) (hl : s.lockFree i = true) :
    s.refillStateQ = .idle ∧ s.probeStateQ = .idle ∧ s.wbStateQ = .idle ∧
      s.flushStateQ ≠ .reset ∧ s.wbReq i = none ∧ s.accessTagWrite i = none := by
  simp only [lockFree, Bool.and_eq_true, Bool.not_eq_true'] at hl
  obtain ⟨⟨hn, ha⟩, hw⟩ := hl
  obtain ⟨hr, hp, hwb, hf⟩ := h.nothingInProgress.mp hn
  refine ⟨hr, hp, hwb, hf, ?_, ?_⟩
  · simpa [writebackLockAcq, hwb] using hw
  · simpa [accessLockAcq] using ha

theorem Locked.next_flushState (h : s.Locked) :
    s.nextFlushStateQ i ≠ .readTag ∧ s.nextFlushStateQ i ≠ .check := by
  have h1 := h.flushState
  unfold nextFlushStateQ
  cases hf : s.flushStateQ <;> simp_all <;> split_ifs <;> simp

/-- The reset flush is never entered again. -/
theorem Locked.next_flush_ne_reset (h : s.Locked) (hf : s.flushStateQ ≠ .reset) :
    s.nextFlushStateQ i ≠ .reset := by
  have h1 := h.flushState
  unfold nextFlushStateQ
  cases hs : s.flushStateQ <;> simp_all <;> split_ifs <;> simp

theorem next_probe_idle (h : s.probeLocking i = false) : s.nextProbeStateQ i = .idle := by
  unfold nextProbeStateQ
  cases s.probeStateQ <;> simp [h]

theorem next_wb_idle (hw : s.wbStateQ = .idle) (h : s.wbReq i = none) :
    s.nextWbStateQ i = .idle := by
  simp [nextWbStateQ, hw, h]

theorem lockFree_of_refillLocking (h : s.refillLocking i = true) : s.lockFree i = true := by
  simp only [refillLocking, Bool.and_eq_true] at h
  exact h.1

theorem lockFree_of_probeLocking (h : s.probeLocking i = true) : s.lockFree i = true := by
  simp only [probeLocking, Bool.and_eq_true] at h
  exact h.1.1

theorem not_probeLocking_of_refillLocking (h : s.refillLocking i = true) :
    s.probeLocking i = false := by
  simp only [refillLocking, Bool.and_eq_true] at h
  simp [probeLocking, h.2]

theorem not_probeLocking_of_lockFree (h : s.lockFree i = false) : s.probeLocking i = false := by
  simp [probeLocking, h]

/-- While a machine holds the lock, nobody else takes it. -/
theorem not_lockFree (h : s.nothingInProgress = false) : s.lockFree i = false := by
  simp [lockFree, h]

/-- A holder of the lock other than the probe admits no writeback request. -/
theorem Locked.wbReq_none (h : s.Locked) (hn : s.nothingInProgress = false)
    (hp : s.probeStateQ = .idle) : s.wbReq i = none := by
  by_contra hw
  have hsome : (s.wbReq i).isSome = true := Option.isSome_iff_ne_none.mpr hw
  rcases h.wbReq_cases hsome with hc | ⟨-, hrel⟩
  · simp [hp] at hc
  · simp [nothingInProgress_of_wbRelReq hrel] at hn

private theorem Locked.step_refill (h : s.Locked) :
    (s.step i).refillTrackerValid = ((s.step i).refillStateQ == .progress) := by
  simp only [step, nextRefillTrackerValid, nextRefillStateQ, h.refill]
  cases s.refillStateQ <;> cases s.refillLocking i <;> cases (s.refillLast i).isSome <;> simp

private theorem Locked.step_probe (h : s.Locked) :
    (s.step i).probeTrackerValid = ((s.step i).probeStateQ == .check) := by
  simp only [step, nextProbeTrackerValid, nextProbeStateQ, h.probe]
  cases s.probeStateQ <;> cases s.probeLocking i <;> simp

private theorem Locked.step_flush (h : s.Locked) :
    (s.step i).flushTrackerValid = ((s.step i).flushStateQ == .reset) := by
  have h1 := h.flushState
  simp only [step, nextFlushTrackerValid, nextFlushStateQ, h.flush]
  cases hf : s.flushStateQ
  · cases s.flushLast <;> simp
  · cases i.notifValid <;> simp
  · exact absurd hf h1.1
  · exact absurd hf h1.2
  · cases s.flushTlbPendingQ <;> simp

/-- A refill in progress after a cycle is alone. -/
private theorem Locked.step_refill_alone (h : s.Locked) (hr : s.nextRefillStateQ i = .progress) :
    s.nextProbeStateQ i = .idle ∧ s.nextWbStateQ i = .idle ∧ s.nextFlushStateQ i ≠ .reset := by
  cases hs : s.refillStateQ
  · have hlock : s.refillLocking i = true := by
      by_contra hl
      simp [nextRefillStateQ, hs, hl] at hr
    obtain ⟨-, -, hw, hf, hreq, -⟩ := h.free_of_lockFree (lockFree_of_refillLocking hlock)
    exact ⟨next_probe_idle (not_probeLocking_of_refillLocking hlock), next_wb_idle hw hreq,
      h.next_flush_ne_reset hf⟩
  · obtain ⟨hp, hw, hf⟩ := h.refill_alone hs
    have hn : s.nothingInProgress = false := by simp [Dcache.nothingInProgress, h.refill, hs]
    exact ⟨next_probe_idle (not_probeLocking_of_lockFree (not_lockFree hn)),
      next_wb_idle hw (h.wbReq_none hn hp), h.next_flush_ne_reset hf⟩

/-- A probe that has just taken the lock is alone. -/
private theorem Locked.step_probe_alone (h : s.Locked) (hp : s.nextProbeStateQ i = .check) :
    s.nextWbStateQ i = .idle ∧ s.nextFlushStateQ i ≠ .reset := by
  have hlock : s.probeLocking i = true := by
    by_contra hl
    simp [next_probe_idle (by simpa using hl)] at hp
  obtain ⟨-, -, hw, hf, hreq, -⟩ := h.free_of_lockFree (lockFree_of_probeLocking hlock)
  exact ⟨next_wb_idle hw hreq, h.next_flush_ne_reset hf⟩

/-- A writeback never overlaps the reset flush. -/
private theorem Locked.step_wb_alone (h : s.Locked) (hw : s.nextWbStateQ i ≠ .idle) :
    s.nextFlushStateQ i ≠ .reset := by
  refine h.next_flush_ne_reset fun hf => hw ?_
  have hn : s.nothingInProgress = false := by simp [Dcache.nothingInProgress, h.flush, hf]
  have hidle : s.wbStateQ = .idle := by
    by_contra hne
    exact h.wb_alone hne hf
  have hp : s.probeStateQ = .idle := by
    cases hp : s.probeStateQ
    · rfl
    · exact absurd hf (h.probe_alone hp).2
  exact next_wb_idle hidle (h.wbReq_none hn hp)

theorem locked_step (h : s.Locked) : (s.step i).Locked where
  refill := h.step_refill
  probe := h.step_probe
  flush := h.step_flush
  flushState := h.next_flushState
  refill_alone := h.step_refill_alone
  probe_alone := h.step_probe_alone
  wb_alone := h.step_wb_alone

end Step

theorem locked_of_isReset (h : s.IsReset) : s.Locked where
  refill := by simp [h.refillTrackerValid, h.refillStateQ]
  probe := by simp [h.probeTrackerValid, h.probeStateQ]
  flush := by simp [h.flushTrackerValid, h.flushStateQ]
  flushState := by simp [h.flushStateQ]
  refill_alone hr := by simp [h.refillStateQ] at hr
  probe_alone hp := by simp [h.probeStateQ] at hp
  wb_alone hw := by simp [h.wbStateQ] at hw

/-! ## The port arbiters -/

section Arbiter

theorem refillTagWrite_none (hr : s.refillStateQ = .idle) : s.refillTagWrite i = none := by
  simp [refillTagWrite, refillLast, refillBeat, hr]

theorem refillDataWrite_none (hr : s.refillStateQ = .idle) : s.refillDataWrite i = none := by
  simp [refillDataWrite, refillBeat, hr]

theorem probeTagWrite_none (hp : s.probeStateQ = .idle) : s.probeTagWrite = none := by
  simp [probeTagWrite, hp]

theorem probeTagRead_none (h : s.lockFree i = false) : s.probeTagRead i = none := by
  simp [probeTagRead, probeAccept, not_probeLocking_of_lockFree h]

theorem Locked.flushTagWrite_none (h : s.Locked) (hf : s.flushStateQ ≠ .reset) :
    s.flushTagWrite = none := by
  have h1 := h.flushState
  cases hs : s.flushStateQ <;> simp_all [flushTagWrite]

theorem Locked.flushTagRead_none (h : s.Locked) : s.flushTagRead i = none := by
  simp [flushTagRead, h.flushState.1]

theorem Locked.refill_idle_of_probe (h : s.Locked) (hp : s.probeStateQ = .check) :
    s.refillStateQ = .idle := by
  cases hr : s.refillStateQ
  · rfl
  · simp [(h.refill_alone hr).1] at hp

theorem Locked.refill_idle_of_wb (h : s.Locked) (hw : s.wbStateQ ≠ .idle) :
    s.refillStateQ = .idle := by
  cases hr : s.refillStateQ
  · rfl
  · exact absurd (h.refill_alone hr).2.1 hw

/-- A writeback request finds the refill machine at rest. -/
theorem Locked.refill_idle_of_wbReq (h : s.Locked) (hw : (s.wbReq i).isSome = true) :
    s.refillStateQ = .idle := by
  rcases h.wbReq_cases hw with hp | ⟨-, hrel⟩
  · exact h.refill_idle_of_probe hp
  · exact (h.nothingInProgress.mp (nothingInProgress_of_wbRelReq hrel)).1

/-- During the reset flush the other machines are at rest. -/
theorem Locked.idle_of_reset (h : s.Locked) (hf : s.flushStateQ = .reset) :
    s.refillStateQ = .idle ∧ s.probeStateQ = .idle ∧ s.nothingInProgress = false := by
  refine ⟨?_, ?_, by simp [Dcache.nothingInProgress, h.flush, hf]⟩
  · cases hr : s.refillStateQ
    · rfl
    · exact absurd hf (h.refill_alone hr).2.2
  · cases hp : s.probeStateQ
    · rfl
    · exact absurd hf (h.probe_alone hp).2

/-- The hit that writes data makes no writeback request. -/
theorem Locked.wbDataRead_none (h : s.Locked) (hd : (s.accessDataWrite i).isSome = true) :
    s.wbDataRead i = none := by
  obtain ⟨-, hp, hw, -⟩ := h.nothingInProgress.mp (nothingInProgress_of_accessDataWrite hd)
  have hhit : s.fetches i .hit = true := by
    unfold accessDataWrite at hd
    split_ifs at hd with hreq
    · simp only [accessDataWriteReq, Bool.and_eq_true] at hreq
      exact hreq.1.1
    · simp at hd
  have hreq : s.wbReq i = none := by
    simp only [fetches, Bool.and_eq_true, beq_iff_eq] at hhit
    simp [wbReq, h.wbFlushReq, wbProbeReq, hp, wbRelReq, fetches, hhit.2]
  simp [wbDataRead, hw, hreq]

/-- Every request that its machine assumes to be granted is granted. -/
theorem Locked.arbiterOk (h : s.Locked) (i : DcacheIn) : s.ArbiterOk i where
  probeTagWrite hp := by
    have hc : s.probeStateQ = .check := by
      cases hs : s.probeStateQ
      · simp [probeTagWrite_none hs] at hp
      · rfl
    simp [refillTagWrite_none (h.refill_idle_of_probe hc)]
  probeTagRead hp := by
    have hl : s.lockFree i = true := by
      by_contra hl
      simp [probeTagRead_none (by simpa using hl)] at hp
    obtain ⟨hr, hi, -⟩ := h.free_of_lockFree hl
    simp [refillTagWrite_none hr, probeTagWrite_none hi]
  flushTagWrite hf := by
    have hs : s.flushStateQ = .reset := by
      by_contra hne
      simp [h.flushTagWrite_none hne] at hf
    obtain ⟨hr, hp, hn⟩ := h.idle_of_reset hs
    simp [refillTagWrite_none hr, probeTagWrite_none hp, probeTagRead_none (not_lockFree hn)]
  flushTagRead hf := by simp [h.flushTagRead_none] at hf
  accessTagWrite ha := by
    obtain ⟨hr, hp, -, hf⟩ := h.nothingInProgress.mp (nothingInProgress_of_accessTagWrite ha)
    have hl : s.lockFree i = false := by simp [lockFree, accessLockAcq, ha]
    simp [tagPortTaken, refillTagWrite_none hr, probeTagWrite_none hp, probeTagRead_none hl,
      h.flushTagWrite_none hf, h.flushTagRead_none]
  wbDataRead hw := by
    have hr : s.refillStateQ = .idle := by
      by_cases hs : s.wbStateQ = .idle
      · refine h.refill_idle_of_wbReq (i := i) ?_
        by_contra hn
        have hreq : s.wbReq i = none := by simpa using hn
        simp [wbDataRead, hs, hreq] at hw
      · exact h.refill_idle_of_wb hs
    simp [refillDataWrite_none hr]
  accessDataWrite hd := by
    have hr := (h.nothingInProgress.mp (nothingInProgress_of_accessDataWrite hd)).1
    simp [refillDataWrite_none hr, h.wbDataRead_none hd]

end Arbiter

end Dcache

end Muntjac.Core

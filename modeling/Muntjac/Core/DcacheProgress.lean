import Muntjac.Core.DcacheFair

/-!
# Every access of the data cache is answered

An access that was never answered would wait in one of a few stages, and each stage is
shown to end under a fair memory: the page walk, the replay behind a writeback, the beats
of the refill, the refill itself, and an uncached access.

## Main definitions

* `DcacheMem.Stuck` — from a cycle on the access in the machine is not answered.
* `DcacheMem.Quiet` — besides, no probe and no flush after reset gets in its way.

## Main results

* `DcacheMem.Run.leadsTo_leaves` — every access leaves the machine.
-/

namespace Muntjac.Core

open Sync Tl

namespace DcacheMem
variable {p : DcacheParams} {s₀ : DcacheMem p} {inp : ℕ → DcacheIn} {n N : ℕ}

/-! ## An access that is not answered -/

/-- From cycle `N` on an access is in the machine and never answered. -/
structure Stuck (s₀ : DcacheMem p) (inp : ℕ → DcacheIn) (N : ℕ) : Prop where
  busy : ∀ n, N ≤ n → (after s₀ inp n).sys.cache.stateQ ≠ .idle
  stays : ∀ n, N ≤ n → (after s₀ inp n).sys.cache.leaves (inp n) = false

/-- Nothing but the access and its writeback is going on. -/
structure Quiet (s₀ : DcacheMem p) (inp : ℕ → DcacheIn) (N : ℕ) : Prop
    extends Stuck s₀ inp N where
  probe : ∀ n, N ≤ n → (after s₀ inp n).sys.cache.probeStateQ = .idle
  noProbe : ∀ n, N ≤ n → (after s₀ inp n).sys.cache.probeLocking (inp n) = false
  flush : ∀ n, N ≤ n → (after s₀ inp n).sys.cache.flushStateQ ≠ .reset

theorem Stuck.mono (h : Stuck s₀ inp N) {M : ℕ} (hM : N ≤ M) : Stuck s₀ inp M :=
  ⟨fun n hn => h.busy n (by omega), fun n hn => h.stays n (by omega)⟩

theorem Quiet.mono (h : Quiet s₀ inp N) {M : ℕ} (hM : N ≤ M) : Quiet s₀ inp M :=
  ⟨h.toStuck.mono hM, fun n hn => h.probe n (by omega), fun n hn => h.noProbe n (by omega),
    fun n hn => h.flush n (by omega)⟩

/-- An access that does not leave the machine admits no request. -/
theorem Run.reqValid_of_stays (h : Run s₀ inp)
    (hb : (after s₀ inp n).sys.cache.stateQ ≠ .idle)
    (hl : (after s₀ inp n).sys.cache.leaves (inp n) = false) : (inp n).reqValid = false := by
  cases hq : (inp n).reqValid
  · rfl
  · have hready := (h.env n).sys.ready hq
    cases hst : (after s₀ inp n).sys.cache.stateQ
    case idle => exact absurd hst hb
    case fetch => simp [Dcache.leaves, Dcache.resp_isSome_of_ready hst hready] at hl
    all_goals simp [Dcache.reqReady, hst] at hready

theorem Run.stuck (h : Run s₀ inp) (hb : (after s₀ inp N).sys.cache.stateQ ≠ .idle)
    (hl : ∀ n, N ≤ n → (after s₀ inp n).sys.cache.leaves (inp n) = false) : Stuck s₀ inp N := by
  refine ⟨fun n hn => ?_, hl⟩
  induction n, hn using Nat.le_induction with
  | base => exact hb
  | succ n hn ih =>
      have hq := h.reqValid_of_stays ih (hl n hn)
      have hidle := Dcache.stateQ_step_eq_idle hq ih
      have hstays := hl n hn
      simp only [Dcache.leaves, Bool.or_eq_false_iff, beq_eq_false_iff_ne, ne_eq] at hstays
      intro hst
      rcases hidle.mp hst with hr | hx
      · simp [hstays.1] at hr
      · exact hstays.2 hx

theorem Stuck.resp_none (hs : Stuck s₀ inp N) (hn : N ≤ n) :
    (after s₀ inp n).sys.cache.resp (inp n) = none := by
  have hl := hs.stays n hn
  simp only [Dcache.leaves, Bool.or_eq_false_iff] at hl
  simpa using hl.1

theorem Stuck.ne_exception (hs : Stuck s₀ inp N) (hn : N ≤ n) :
    (after s₀ inp n).sys.cache.stateQ ≠ .exception := by
  have hl := hs.stays n hn
  simp only [Dcache.leaves, Bool.or_eq_false_iff] at hl
  simpa using hl.2

theorem Stuck.busyAt (hs : Stuck s₀ inp N) (hn : N ≤ n) :
    (after s₀ inp n).sys.cache.Busy := ⟨hs.busy n hn, hs.ne_exception hn⟩

theorem Stuck.searching (hs : Stuck s₀ inp N) (hn : N ≤ n)
    (hf : (after s₀ inp n).sys.cache.stateQ ≠ .fill) :
    (after s₀ inp n).sys.cache.Searching := by
  have hb := hs.busy n hn
  have hx := hs.ne_exception hn
  cases hst : (after s₀ inp n).sys.cache.stateQ <;> simp_all [Dcache.Searching]

section Stuck
variable (h : Run s₀ inp) (hs : Stuck s₀ inp N) (hn : N ≤ n)
include h hs hn

theorem Stuck.reqValid : (inp n).reqValid = false :=
  h.reqValid_of_stays (hs.busy n hn) (hs.stays n hn)

theorem Stuck.stateQ_succ : (after s₀ inp (n + 1)).sys.cache.stateQ =
    (after s₀ inp n).sys.cache.caseState (inp n) :=
  Dcache.stateQ_step_hold (hs.reqValid h hn)

theorem Stuck.atp_eq : (inp n).reqAtp = (after s₀ inp n).sys.atp :=
  (h.env n).sys.atpHeld (hs.busyAt hn)

theorem Stuck.atp_succ : (after s₀ inp (n + 1)).sys.atp = (after s₀ inp n).sys.atp :=
  DcacheSys.atp_step (hs.reqValid h hn)

/-- A translation that has come stays. -/
theorem Stuck.ppnValid_succ (hv : (after s₀ inp n).sys.cache.tr.ppnValid = true) :
    (after s₀ inp (n + 1)).sys.cache.tr.ppnValid = true := by
  have hlatch : (after s₀ inp (n + 1)).sys.cache.tr.ppnValidLatch = true :=
    (DcacheSys.ppnValidLatch_step (hs.reqValid h hn)).trans hv
  simp [Translation.ppnValid, hlatch]

end Stuck

/-- The flush after reset ends, and so does the probe in progress. -/
theorem Run.exists_quiet (h : Run s₀ inp) (hs : Stuck s₀ inp N) : ∃ M, N ≤ M ∧ Quiet s₀ inp M := by
  obtain ⟨m, hm, hprobe⟩ : ∃ m, N ≤ m ∧ ∀ k, m ≤ k →
      (after s₀ inp k).sys.cache.probeAccept (inp k) = none := by
    refine (h.fair.probes N).resolve_left ?_
    rintro ⟨m, hm, hl⟩
    simp [hs.stays m hm] at hl
  have hno : ∀ k, m ≤ k → (after s₀ inp k).sys.cache.probeLocking (inp k) = false := by
    intro k hk
    cases hl : (after s₀ inp k).sys.cache.probeLocking (inp k)
    · rfl
    · have hnone := hprobe k hk
      simp only [Dcache.probeAccept, hl, if_true] at hnone
      simp only [Dcache.probeLocking, Dcache.probeLockAcq, hnone, Bool.and_eq_true] at hl
      split at hl <;> simp_all
  obtain ⟨M, hM, hflush⟩ := h.leadsTo_flushed (m + 1) trivial
  refine ⟨M, by omega, hs.mono (by omega), fun n hn => ?_, fun n hn => hno n (by omega),
    h.flushed hflush⟩
  obtain ⟨k, rfl⟩ : ∃ k, n = k + 1 := ⟨n - 1, by omega⟩
  exact Dcache.next_probe_idle (hno k (by omega))

/-- The refill machine works only in `StateFill`. -/
theorem Run.refill_idle (h : Run s₀ inp)
    (hf : (after s₀ inp n).sys.cache.stateQ ≠ .fill) :
    (after s₀ inp n).sys.cache.refillStateQ = .idle := by
  cases hr : (after s₀ inp n).sys.cache.refillStateQ
  · rfl
  · exact absurd ((h.inv n).fill_of_miss ((h.inv n).fifo.filling (.inr hr)).1) hf

section Quiet
variable (h : Run s₀ inp) (hq : Quiet s₀ inp N) (hn : N ≤ n)
include h hq hn

/-- No writeback is asked for but by a miss. -/
theorem Quiet.wbReq_none (hm : (after s₀ inp n).sys.cache.fetches (inp n) .miss = false) :
    (after s₀ inp n).sys.cache.wbReq (inp n) = none := by
  have hrel : (after s₀ inp n).sys.cache.wbRelReq (inp n) = none := by simp [Dcache.wbRelReq, hm]
  simp [Dcache.wbReq, (h.inv n).locked.wbFlushReq, Dcache.wbProbeReq, hq.probe n hn, hrel]

theorem Quiet.wb_succ (hm : (after s₀ inp n).sys.cache.fetches (inp n) .miss = false)
    (hw : (after s₀ inp n).sys.cache.wbStateQ = .idle) :
    (after s₀ inp (n + 1)).sys.cache.wbStateQ = .idle :=
  Dcache.next_wb_idle hw (hq.wbReq_none h hn hm)

theorem Quiet.nothingInProgress (hr : (after s₀ inp n).sys.cache.refillStateQ = .idle)
    (hw : (after s₀ inp n).sys.cache.wbStateQ = .idle) :
    (after s₀ inp n).sys.cache.nothingInProgress = true :=
  (h.inv n).locked.nothingInProgress.mpr ⟨hr, hq.probe n hn, hw, hq.flush n hn⟩

/-- A replay that nothing stands in the way of reads both arrays. -/
theorem Quiet.replay (hst : (after s₀ inp n).sys.cache.stateQ = .replay)
    (hw : (after s₀ inp n).sys.cache.wbStateQ = .idle) :
    (after s₀ inp (n + 1)).sys.cache.stateQ = .fetch ∧
      (after s₀ inp (n + 1)).sys.cache.wbStateQ = .idle ∧
      (after s₀ inp (n + 1)).sys.cache.tagRam.mem = (after s₀ inp n).sys.cache.tagRam.mem := by
  have hr := h.refill_idle (n := n) (by simp [hst])
  have hno := hq.nothingInProgress h hn hr hw
  have hL := (h.inv n).locked
  have hmiss : (after s₀ inp n).sys.cache.fetches (inp n) .miss = false := by
    simp [Dcache.fetches, hst]
  have htag := accessTagWrite_of_not_fetch (i := inp n) (c := (after s₀ inp n).sys.cache)
    (by simp [hst])
  have hread : (after s₀ inp n).sys.cache.accessReadReq (inp n) = true := by
    simp [Dcache.accessReadReq, hst, hno]
  have hgnt : (after s₀ inp n).sys.cache.accessTagReadGnt (inp n) = true := by
    simp [Dcache.accessTagReadGnt, hread, htag, Dcache.tagPortTaken,
      Dcache.refillTagWrite_none hr, Dcache.probeTagWrite_none (hq.probe n hn),
      Dcache.probeTagRead, Dcache.probeAccept, hq.noProbe n hn,
      hL.flushTagWrite_none (hq.flush n hn), hL.flushTagRead_none]
  have hdata : (after s₀ inp n).sys.cache.accessDataReadGnt (inp n) = true := by
    simp [Dcache.accessDataReadGnt, hread, Dcache.refillDataWrite_none hr, Dcache.wbDataRead, hw,
      hq.wbReq_none h hn hmiss, Dcache.accessDataWrite, Dcache.accessDataWriteReq, Dcache.fetches,
      hst]
  refine ⟨?_, hq.wb_succ h hn hmiss hw, (Dcache.step_of_accessTagReadGnt hgnt).1⟩
  rw [hq.toStuck.stateQ_succ h hn]
  simp [Dcache.caseState, hst, hno, hgnt, hdata]

/-- A fetch with its translation that is not answered misses. -/
theorem Quiet.fetch (hst : (after s₀ inp n).sys.cache.stateQ = .fetch)
    (hw : (after s₀ inp n).sys.cache.wbStateQ = .idle)
    (hv : atpMode (after s₀ inp n).sys.atp = true →
      (after s₀ inp n).sys.cache.tr.ppnValid = true) :
    (after s₀ inp n).sys.cache.outcome (inp n) = .miss := by
  have hno := hq.nothingInProgress h hn (h.refill_idle (by simp [hst])) hw
  rw [← hq.toStuck.atp_eq h hn] at hv
  have hr := hq.toStuck.resp_none hn
  have hx := hq.toStuck.ne_exception (n := n + 1) (by omega)
  rw [hq.toStuck.stateQ_succ h hn] at hx
  simp only [Dcache.resp, Dcache.caseState, hst] at hr hx
  cases ho : (after s₀ inp n).sys.cache.outcome (inp n)
  case miss => rfl
  case conflict =>
      simp only [Dcache.outcome, hno] at ho
      split_ifs at ho
      all_goals simp_all
  case tlbMiss =>
      simp only [Dcache.outcome, hno] at ho
      split_ifs at ho
      all_goals simp_all
  case pageFault => simp [ho] at hx
  case hit =>
      simp only [ho] at hr
      split_ifs at hr
  case scFail => simp [ho] at hr

end Quiet

/-! ## The translation -/

/-- From cycle `N` on the access is looked up again and again. -/
structure Searches (s₀ : DcacheMem p) (inp : ℕ → DcacheIn) (N : ℕ) : Prop
    extends Quiet s₀ inp N where
  notFill : ∀ n, N ≤ n → (after s₀ inp n).sys.cache.stateQ ≠ .fill

theorem Searches.mono (h : Searches s₀ inp N) {M : ℕ} (hM : N ≤ M) : Searches s₀ inp M :=
  ⟨h.toQuiet.mono hM, fun n hn => h.notFill n (by omega)⟩

section Searches
variable (h : Run s₀ inp) (hq : Searches s₀ inp N)
include h hq

/-- Without a refill the only request on channel A is that of the walker. -/
theorem Searches.memAReady (hn : N ≤ n)
    (hreq : (after s₀ inp n).sys.cache.tr.ptw.reqValidQ = true)
    (hready : (inp n).memAReady = true) :
    (after s₀ inp n).sys.cache.memAReadyMult (inp n) 0 = true := by
  have hm : (after s₀ inp n).sys.cache.missStateQ = .idle := by
    by_contra hne
    exact hq.notFill n hn ((h.inv n).miss.mp hne)
  rw [Dcache.memAReadyMult, hready]
  refine ChannelArb.ready_of_only (h.live n).arb ?_ fun j hj => ?_
  · simp [Dcache.memAMult, Translation.ptwA, hreq]
  · by_contra hne
    simp [Dcache.memAMult, hne, Dcache.refillA, hm] at hj

/-- The walker waits for an entry and gets none. -/
theorem Searches.walk_wait (hn : N ≤ n)
    (hl : (after s₀ inp n).sys.cache.tr.ptw.level ≠ none)
    (ha : (after s₀ inp n).sys.cache.ptwAnswered (inp n) = false) :
    (after s₀ inp (n + 1)).sys.cache.tr.ptw.level = (after s₀ inp n).sys.cache.tr.ptw.level ∧
      (after s₀ inp (n + 1)).sys.cache.tr.ptw.reqValidQ =
        ((after s₀ inp n).sys.cache.tr.ptw.reqValidQ && !(inp n).memAReady) := by
  obtain ⟨htv, -⟩ := (h.inv n).owned.active (Ptw.stateQ_ne_idle_of_level hl)
  have hm : (after s₀ inp n).sys.cache.tr.tlbMiss = false := by simp [Translation.tlbMiss, htv]
  have hptw : (after s₀ inp (n + 1)).sys.cache.tr.ptw = (after s₀ inp n).sys.cache.tr.ptw.sent
      ((after s₀ inp n).sys.cache.tr.ptwIn p.translation
        ((after s₀ inp n).sys.cache.translationIn (inp n))) := Ptw.step_wait hl hm ha
  rw [hptw]
  refine ⟨rfl, ?_⟩
  change ((after s₀ inp n).sys.cache.tr.ptw.reqValidQ &&
    !(after s₀ inp n).sys.cache.memAReadyMult (inp n) 0) = _
  cases hreq : (after s₀ inp n).sys.cache.tr.ptw.reqValidQ
  · rfl
  · cases hready : (inp n).memAReady
    · simp [Dcache.memAReadyMult, ChannelArb.ready, hready]
    · simp [hq.memAReady h hn hreq hready]

/-- The walker's read is accepted. -/
theorem Searches.exists_sent (hn : N ≤ n) {l : ℕ}
    (hl : (after s₀ inp n).sys.cache.tr.ptw.level = some l) :
    ∃ m, n ≤ m ∧ (after s₀ inp m).sys.cache.tr.ptw.level = some l ∧
      (after s₀ inp m).sys.cache.tr.ptw.reqValidQ = false := by
  by_contra hno
  have hall : ∀ m, n ≤ m → (after s₀ inp m).sys.cache.tr.ptw.level = some l ∧
      (after s₀ inp m).sys.cache.tr.ptw.reqValidQ = true := by
    intro m hm
    induction m, hm using Nat.le_induction with
    | base => exact ⟨hl, by by_contra hr; exact hno ⟨n, le_rfl, hl, by simpa using hr⟩⟩
    | succ m hm ih =>
        have hlevel : (after s₀ inp m).sys.cache.tr.ptw.level ≠ none := by simp [ih.1]
        have hav := (((h.inv m).owned.waiting hlevel).2.unsent ih.2).2
        obtain ⟨hl', -⟩ := hq.walk_wait h (by omega) hlevel (by simp [Dcache.ptwAnswered, hav])
        rw [ih.1] at hl'
        exact ⟨hl', by by_contra hr; exact hno ⟨m + 1, by omega, hl', by simpa using hr⟩⟩
  obtain ⟨m, hm, hready⟩ := h.fair.readyA n
  obtain ⟨hlm, hreq⟩ := hall m hm
  have hlevel : (after s₀ inp m).sys.cache.tr.ptw.level ≠ none := by simp [hlm]
  have hav := (((h.inv m).owned.waiting hlevel).2.unsent hreq).2
  obtain ⟨-, hreq'⟩ := hq.walk_wait h (by omega) hlevel (by simp [Dcache.ptwAnswered, hav])
  rw [(hall (m + 1) (by omega)).2, hready] at hreq'
  simp at hreq'

/-- The entry that the walker has asked for comes. -/
theorem Searches.exists_answered (hn : N ≤ n) {l : ℕ}
    (hl : (after s₀ inp n).sys.cache.tr.ptw.level = some l)
    (hr : (after s₀ inp n).sys.cache.tr.ptw.reqValidQ = false) :
    ∃ m, n ≤ m ∧ (after s₀ inp m).sys.cache.tr.ptw.level = some l ∧
      (after s₀ inp m).sys.cache.ptwAnswered (inp m) = true := by
  by_contra hno
  have hall : ∀ m, n ≤ m → (after s₀ inp m).sys.cache.tr.ptw.level = some l ∧
      (after s₀ inp m).sys.cache.tr.ptw.reqValidQ = false := by
    intro m hm
    induction m, hm using Nat.le_induction with
    | base => exact ⟨hl, hr⟩
    | succ m hm ih =>
        have ha : (after s₀ inp m).sys.cache.ptwAnswered (inp m) = false := by
          by_contra ha
          exact hno ⟨m, hm, ih.1, by simpa using ha⟩
        obtain ⟨hl', hr'⟩ := hq.walk_wait h (by omega) (by simp [ih.1]) ha
        rw [ih.1] at hl'
        rw [ih.2] at hr'
        exact ⟨hl', hr'⟩
  have hreads := (((h.inv n).owned.waiting (by simp [hl])).2.sent hr).1
  obtain ⟨m, hm, hd⟩ := h.comes (h.fair.entry n (by simp [hreads]))
  exact hno ⟨m, hm, (hall m hm).1, by simp [Dcache.ptwAnswered, hd, h.ptwAValid hd]⟩

/-- A walk ends with the translation. -/
theorem Searches.exists_walked (hn : N ≤ n) {l : ℕ}
    (hl : (after s₀ inp n).sys.cache.tr.ptw.level = some l) :
    ∃ m, n ≤ m ∧ (after s₀ inp m).sys.cache.tr.ppnValid = true := by
  induction l using Nat.strong_induction_on generalizing n with
  | _ l ih =>
      obtain ⟨m, hm, hlm, hrm⟩ := hq.exists_sent h hn hl
      obtain ⟨k, hk, hlk, ha⟩ := hq.exists_answered h (by omega) hlm hrm
      obtain ⟨htv, -⟩ := (h.inv k).owned.active (Ptw.stateQ_ne_idle_of_level (by simp [hlk]))
      have hmiss : (after s₀ inp k).sys.cache.tr.tlbMiss = false := by
        simp [Translation.tlbMiss, htv]
      have hread : (∃ l' < l, (after s₀ inp (k + 1)).sys.cache.tr.ptw.level = some l' ∧
          (after s₀ inp (k + 1)).sys.cache.tr.ptw.reqValidQ = true) ∨
          (after s₀ inp (k + 1)).sys.cache.tr.ptw.stateQ = .done :=
        Ptw.level_step_read hlk hmiss ha
      rcases hread with ⟨l', hlt, hl', -⟩ | hdone
      · obtain ⟨m', hm', hv⟩ := ih l' hlt (by omega) hl'
        exact ⟨m', by omega, hv⟩
      · refine ⟨k + 1, by omega, ?_⟩
        exact Translation.ppnValid_of_done (hq.toStuck.reqValid h (by omega)) hdone

/-- The translation of the access comes, and stays. -/
theorem Searches.exists_translated : ∃ M, N ≤ M ∧ ∀ n, M ≤ n →
    atpMode (after s₀ inp n).sys.atp = true → (after s₀ inp n).sys.cache.tr.ppnValid = true := by
  have hatp : ∀ n, N ≤ n → (after s₀ inp n).sys.atp = (after s₀ inp N).sys.atp := by
    intro n hn
    induction n, hn using Nat.le_induction with
    | base => rfl
    | succ n hn ih => exact (hq.toStuck.atp_succ h hn).trans ih
  by_cases ha : atpMode (after s₀ inp N).sys.atp = true
  swap
  · exact ⟨N, le_rfl, fun n hn ha' => absurd ((congrArg atpMode (hatp n hn)).symm.trans ha') ha⟩
  obtain ⟨M, hM, hv⟩ : ∃ M, N ≤ M ∧ (after s₀ inp M).sys.cache.tr.ppnValid = true := by
    rcases (h.live N).underway (hq.toStuck.busyAt le_rfl) ha with hv | hm | hl
    · exact ⟨N, le_rfl, hv⟩
    · have hl : (after s₀ inp (N + 1)).sys.cache.tr.ptw.level ≠ none := (Ptw.step_start hm).1
      obtain ⟨l, hl⟩ := Option.ne_none_iff_exists'.mp hl
      obtain ⟨m, hm, hv⟩ := hq.exists_walked h (by omega) hl
      exact ⟨m, by omega, hv⟩
    · obtain ⟨l, hl⟩ := Option.ne_none_iff_exists'.mp hl
      exact hq.exists_walked h le_rfl hl
  have hall : ∀ n, M ≤ n → (after s₀ inp n).sys.cache.tr.ppnValid = true := by
    intro n hn
    induction n, hn using Nat.le_induction with
    | base => exact hv
    | succ n hn ih => exact hq.toStuck.ppnValid_succ h (by omega) ih
  exact ⟨M, hM, fun n hn _ => hall n hn⟩

/-- An access cannot be looked up for ever. -/
theorem Searches.absurd : False := by
  obtain ⟨M, hM, hv⟩ := hq.exists_translated h
  obtain ⟨n, hn, hw⟩ := h.leadsTo_wbIdle M trivial
  have hidle : ∀ k, n ≤ k → (after s₀ inp k).sys.cache.wbStateQ = .idle := by
    intro k hk
    induction k, hk using Nat.le_induction with
    | base => exact hw
    | succ k hk ih =>
        refine hq.toQuiet.wb_succ h (by omega) ?_ ih
        by_contra hm
        simp only [Bool.not_eq_false, Dcache.fetches, Bool.and_eq_true, beq_iff_eq] at hm
        refine hq.notFill (k + 1) (by omega) ?_
        rw [hq.toStuck.stateQ_succ h (by omega)]
        simp [Dcache.caseState, hm]
  have hfetch : ∀ k, n ≤ k → (after s₀ inp k).sys.cache.stateQ ≠ .fetch := by
    intro k hk hst
    have ho := hq.toQuiet.fetch h (by omega) hst (hidle k hk) (hv k (by omega))
    refine hq.notFill (k + 1) (by omega) ?_
    rw [hq.toStuck.stateQ_succ h (by omega)]
    simp [Dcache.caseState, hst, ho]
  have hreplay : ∀ k, n ≤ k → (after s₀ inp k).sys.cache.stateQ ≠ .replay := fun k hk hst =>
    hfetch (k + 1) (by omega) (hq.toQuiet.replay h (by omega) hst (hidle k hk)).1
  rcases hq.toStuck.searching (n := n) (by omega) (hq.notFill n (by omega)) with hst | hst | hst
  · exact hfetch n le_rfl hst
  · exact hreplay n le_rfl hst
  · refine hreplay (n + 1) (by omega) ?_
    rw [hq.toStuck.stateQ_succ h (by omega)]
    simp [Dcache.caseState, hst, hv n hn ((h.live n).waitTlb hst)]

end Searches

theorem Run.exists_fill (h : Run s₀ inp) (hq : Quiet s₀ inp N) :
    ∃ n, N ≤ n ∧ (after s₀ inp n).sys.cache.stateQ = .fill := by
  by_contra hno
  exact Searches.absurd h ⟨hq, fun n hn hst => hno ⟨n, hn, hst⟩⟩

/-! ## The refill -/

/-- In `StateFill` the only request on channel A is that of the miss handler. -/
theorem Run.memAReady_of_fill (h : Run s₀ inp) (hst : (after s₀ inp n).sys.cache.stateQ = .fill)
    (hA : ((after s₀ inp n).sys.cache.refillA (inp n)).isSome = true)
    (hready : (inp n).memAReady = true) :
    (after s₀ inp n).sys.cache.memAReadyMult (inp n) 1 = true := by
  have ho := (h.inv n).owned
  have hl : (after s₀ inp n).sys.cache.tr.ptw.level = none := by
    by_contra hl
    rcases (ho.active (Ptw.stateQ_ne_idle_of_level hl)).2.1 with hs | hs | hs <;> simp [hst] at hs
  have hreq := (ho.rest hl).2.1
  rw [Dcache.memAReadyMult, hready]
  refine ChannelArb.ready_of_only (h.live n).arb (by simpa [Dcache.memAMult] using hA)
    fun j hj => ?_
  by_contra hne
  have hj0 : j = 0 := by omega
  simp [Dcache.memAMult, hj0, Translation.ptwA, hreq] at hj

/-- While beats of the grant are to come, their number grows with each that comes. -/
theorem Run.not_acq (h : Run s₀ inp)
    (hsent : ∀ n, N ≤ n → (after s₀ inp n).sys.cache.missRefillSentQ = true)
    (hacq : ∀ n, N ≤ n → (after s₀ inp n).acq.isSome = true) : False := by
  have hlast : ∀ n, N ≤ n → (after s₀ inp n).sys.cache.grantLast (inp n) = none := by
    intro n hn
    rcases acq_step (s := after s₀ inp n) (i := inp n) (hacq (n + 1) (by omega)) with ha | ⟨-, hg⟩
    · simp [Dcache.acquires, hsent n hn] at ha
    · exact hg
  have hnot : ∀ n b, N ≤ n →
      (after s₀ inp n).sys.cache.refillFifoInsert (inp n) = some b → b.last = false := by
    intro n b hn hb
    by_contra hl
    have hg := hlast n hn
    simp [Dcache.grantLast, hb, hl] at hg
  have hcome : ∀ n, ∃ m, n ≤ m ∧ N ≤ m ∧
      ((after s₀ inp m).sys.cache.refillFifoInsert (inp m)).isSome = true := by
    intro n
    obtain ⟨m, hm, hb⟩ := h.comes (h.fair.line (max n N) (hacq _ (le_max_right n N)))
    exact ⟨m, le_of_max_le_left hm, le_of_max_le_right hm, h.inserts hb.1 hb.2⟩
  obtain ⟨M, -, hM, hfirst⟩ := hcome N
  obtain ⟨b, hb⟩ := Option.isSome_iff_exists.mp hfirst
  have hfair : Recurs fun n =>
      ((after s₀ inp n).sys.cache.refillFifoInsert (inp n)).isSome = true := by
    intro n
    obtain ⟨m, hm, -, hb⟩ := hcome n
    exact ⟨m, hm, hb⟩
  -- from the first of these beats on none waits for channel E
  obtain ⟨-, -, hno⟩ : ∃ n, M ≤ n ∧ False := by
    refine eventually_of_rank
      (P := fun n => N ≤ n ∧ (after s₀ inp n).sys.cache.refillBeatSavedQ = false)
      (fun n => p.refillDepth - grantBeats (dPos s₀ inp n)) hfair
      (fun n hP _ => .inr ?_) ⟨hM, (of_refillFifoInsert hb).1⟩
    obtain ⟨hn, hs⟩ := hP
    have hg := h.fair.grants n
    have hpos : dPos s₀ inp (n + 1) = (after s₀ inp n).nextPos (dPos s₀ inp n) (inp n) := rfl
    have hsaved : (after s₀ inp (n + 1)).sys.cache.refillBeatSavedQ =
        (after s₀ inp n).sys.cache.nextRefillBeatSavedQ (inp n) := rfl
    rw [hpos]
    cases hins : (after s₀ inp n).sys.cache.refillFifoInsert (inp n) with
    | some b =>
        obtain ⟨hbeats, hdone, hready⟩ :=
          (h.beats n).position_of_insert hg hins (hnot n b hn hins)
        have hle := grantBeats_le_done (dPos s₀ inp n)
        obtain ⟨-, hd, -⟩ := of_refillFifoInsert hins
        rw [hbeats]
        refine ⟨⟨by omega, by simp [hsaved, Dcache.nextRefillBeatSavedQ, hd, hready]⟩, ?_, ?_⟩
        all_goals omega
    | none =>
        have hd := (refillFifoInsert_eq_none hins).resolve_left (by simp [hs])
        refine ⟨⟨by omega, by simp [hsaved, Dcache.nextRefillBeatSavedQ, hd, hs]⟩, ?_, by simp⟩
        rcases Beats.position_of_not_insert hg hd with hz | hsame
        · omega
        · rw [hsame]
  exact hno

/-- From cycle `N` on the line of the access is being refilled. -/
structure Filling (s₀ : DcacheMem p) (inp : ℕ → DcacheIn) (N : ℕ) : Prop
    extends Quiet s₀ inp N where
  fill : ∀ n, N ≤ n → (after s₀ inp n).sys.cache.missStateQ = .fill
  last : ∀ n, N ≤ n → (after s₀ inp n).sys.cache.refillLast (inp n) = none

theorem Filling.mono (h : Filling s₀ inp N) {M : ℕ} (hM : N ≤ M) : Filling s₀ inp M :=
  ⟨h.toQuiet.mono hM, fun n hn => h.fill n (by omega), fun n hn => h.last n (by omega)⟩

section Filling
variable (h : Run s₀ inp) (hq : Filling s₀ inp N)
include h hq

/-- The acquire is sent. -/
theorem Filling.exists_sent : ∃ M, N ≤ M ∧ ∀ n, M ≤ n →
    (after s₀ inp n).sys.cache.missRefillSentQ = true := by
  have hnext : ∀ n, N ≤ n → (after s₀ inp (n + 1)).sys.cache.missRefillSentQ =
      ((after s₀ inp n).sys.cache.memAReadyMult (inp n) 1 ||
        (after s₀ inp n).sys.cache.missRefillSentQ) := by
    intro n hn
    change (after s₀ inp n).sys.cache.nextMissRefillSentQ (inp n) = _
    simp [Dcache.nextMissRefillSentQ, hq.fill n hn]
  obtain ⟨m, hm, hready⟩ := h.fair.readyA N
  have hsent : (after s₀ inp (m + 1)).sys.cache.missRefillSentQ = true := by
    rw [hnext m hm]
    cases hs : (after s₀ inp m).sys.cache.missRefillSentQ
    · have hA : ((after s₀ inp m).sys.cache.refillA (inp m)).isSome = true := by
        simp [Dcache.refillA, hq.fill m hm, hs]
      rw [h.memAReady_of_fill ((h.inv m).fill_of_miss (hq.fill m hm)) hA hready, Bool.true_or]
    · rw [Bool.or_true]
  refine ⟨m + 1, by omega, fun n hn => ?_⟩
  induction n, hn using Nat.le_induction with
  | base => exact hsent
  | succ n hn ih => rw [hnext n (by omega), ih, Bool.or_true]

/-- The last beat of the grant comes. -/
theorem Filling.exists_ended : ∃ M, N ≤ M ∧ ∀ n, M ≤ n →
    (after s₀ inp n).sys.cache.missRefillSentQ = true ∧ (after s₀ inp n).acq = none := by
  obtain ⟨M, hM, hsent⟩ := hq.exists_sent h
  obtain ⟨m, hm, hnone⟩ : ∃ m, M ≤ m ∧ (after s₀ inp m).acq = none := by
    by_contra hno
    refine h.not_acq hsent fun n hn => ?_
    cases ha : (after s₀ inp n).acq with
    | none => exact absurd ⟨n, hn, ha⟩ hno
    | some l => rfl
  refine ⟨m, by omega, fun n hn => ⟨hsent n (by omega), ?_⟩⟩
  induction n, hn using Nat.le_induction with
  | base => exact hnone
  | succ n hn ih =>
      by_contra hne
      rcases acq_step (s := after s₀ inp n) (i := inp n)
        (Option.isSome_iff_ne_none.mpr hne) with ha | ⟨ha, -⟩
      · simp [Dcache.acquires, hsent n (by omega)] at ha
      · simp [ih] at ha

/-- The FIFO keeps the last beat. -/
theorem Filling.front_isSome (hn : N ≤ n)
    (hend : (after s₀ inp n).sys.cache.missRefillSentQ = true ∧ (after s₀ inp n).acq = none) :
    (after s₀ inp n).sys.cache.refillFifo.items ≠ [] ∧
      ((after s₀ inp n).sys.cache.refillFront (inp n)).isSome = true := by
  obtain ⟨l, b, hitems, -⟩ := (h.beats n).ended (hq.fill n hn) hend.1 hend.2
  have hne : (after s₀ inp n).sys.cache.refillFifo.items ≠ [] := by simp [hitems]
  have hrst : (after s₀ inp n).sys.cache.refillFifo.underRst = false := by
    by_contra hr
    exact hq.busy n hn ((h.live n).underRst (by simpa using hr))
  refine ⟨hne, ?_⟩
  obtain ⟨a, rest, hcons⟩ := List.exists_cons_of_ne_nil hne
  simp [Dcache.refillFront, Fifo.front, hrst, hcons]

/-- The refill machine takes the lock, and keeps it. -/
theorem Filling.exists_locked : ∃ M, N ≤ M ∧ ∀ n, M ≤ n →
    ((after s₀ inp n).sys.cache.missRefillSentQ = true ∧ (after s₀ inp n).acq = none) ∧
      (after s₀ inp n).sys.cache.refillStateQ = .progress := by
  obtain ⟨M, hM, hend⟩ := hq.exists_ended h
  obtain ⟨k, hk, hw⟩ := h.leadsTo_wbIdle M trivial
  have hnext : ∀ n, (after s₀ inp (n + 1)).sys.cache.refillStateQ =
      (after s₀ inp n).sys.cache.nextRefillStateQ (inp n) := fun _ => rfl
  have hprog : (after s₀ inp (k + 1)).sys.cache.refillStateQ = .progress := by
    rw [hnext]
    have hlast := hq.last k (by omega)
    cases hr : (after s₀ inp k).sys.cache.refillStateQ
    · have hst := (h.inv k).fill_of_miss (hq.fill k (by omega))
      have hno := hq.toQuiet.nothingInProgress h (by omega) hr hw
      have hmiss : (after s₀ inp k).sys.cache.fetches (inp k) .miss = false := by
        simp [Dcache.fetches, hst]
      have htag := accessTagWrite_of_not_fetch (i := inp k) (c := (after s₀ inp k).sys.cache)
        (by simp [hst])
      have hwb := hq.toQuiet.wbReq_none h (n := k) (by omega) hmiss
      have hfront := (hq.front_isSome h (by omega) (hend k hk)).2
      simp [Dcache.nextRefillStateQ, hr, Dcache.refillLocking, Dcache.lockFree, hno,
        Dcache.accessLockAcq, htag, Dcache.writebackLockAcq, hwb, Dcache.refillLockAcq, hfront]
    · simp [Dcache.nextRefillStateQ, hr, hlast]
  refine ⟨k + 1, by omega, fun n hn => ⟨hend n (by omega), ?_⟩⟩
  induction n, hn using Nat.le_induction with
  | base => exact hprog
  | succ n hn ih => simp [hnext, Dcache.nextRefillStateQ, ih, hq.last n (by omega)]

/-- A refill cannot go on for ever: it consumes a beat in every cycle. -/
theorem Filling.absurd : False := by
  obtain ⟨M, hM, hlock⟩ := hq.exists_locked h
  have hdrop : ∀ n, M ≤ n → (after s₀ inp (n + 1)).sys.cache.refillFifo.items.length <
      (after s₀ inp n).sys.cache.refillFifo.items.length := by
    intro n hn
    obtain ⟨hend, hprog⟩ := hlock n hn
    obtain ⟨hne, hfront⟩ := hq.front_isSome h (by omega) hend
    have hins : (after s₀ inp n).sys.cache.refillFifoInsert (inp n) = none := by
      by_contra hb
      have := (h.env n).grantAsked (Option.isSome_iff_ne_none.mpr hb)
      simp [hend.2] at this
    have hbeat : (after s₀ inp n).sys.cache.refillBeat (inp n) =
        (after s₀ inp n).sys.cache.refillFront (inp n) := by simp [Dcache.refillBeat, hprog]
    have hitems : (after s₀ inp (n + 1)).sys.cache.refillFifo.items =
        (after s₀ inp n).sys.cache.refillFifo.items.tail := by
      change ((after s₀ inp n).sys.cache.refillFifo.next p.refillDepth
        ((after s₀ inp n).sys.cache.refillFifoInsert (inp n))
        ((after s₀ inp n).sys.cache.refillBeat (inp n)).isSome).items = _
      have hfront' := hfront
      rw [Dcache.refillFront, hins] at hfront'
      simp [Fifo.next, hbeat, hfront, hfront', Fifo.push, hins]
    have := List.length_pos_iff.mpr hne
    rw [hitems, List.length_tail]
    omega
  have hbound : ∀ k, (after s₀ inp (M + k)).sys.cache.refillFifo.items.length + k ≤
      (after s₀ inp M).sys.cache.refillFifo.items.length := by
    intro k
    induction k with
    | zero => exact Nat.le_refl _
    | succ k ih =>
        have hlt := hdrop (M + k) (by omega)
        have hk : M + (k + 1) = M + k + 1 := by omega
        rw [hk]
        omega
  have := hbound ((after s₀ inp M).sys.cache.refillFifo.items.length + 1)
  omega

end Filling

/-- An uncached access cannot go on for ever. -/
theorem Quiet.not_uncached (h : Run s₀ inp) (hq : Quiet s₀ inp N)
    (hm : (after s₀ inp N).sys.cache.missStateQ = .uncached) : False := by
  have hans : ∀ n, N ≤ n → (after s₀ inp n).sys.cache.missStateQ = .uncached →
      (inp n).memDAccess p = none := by
    intro n hn hm
    have hst : (after s₀ inp n).sys.cache.stateQ = .fill := (h.inv n).miss.mp (by simp [hm])
    have hr := hq.toStuck.resp_none hn
    have hx := hq.toStuck.ne_exception (n := n + 1) (by omega)
    rw [hq.toStuck.stateQ_succ h hn] at hx
    simp only [Dcache.resp, Dcache.caseState, hst, Dcache.missResp, hm] at hr hx
    cases hd : (inp n).memDAccess p with
    | none => rfl
    | some d => cases hden : d.denied <;> simp [hd, hden] at hr hx
  have hall : ∀ n, N ≤ n → (after s₀ inp n).sys.cache.missStateQ = .uncached := by
    intro n hn
    induction n, hn using Nat.le_induction with
    | base => exact hm
    | succ n hn ih =>
        change (after s₀ inp n).sys.cache.nextMissStateQ (inp n) = .uncached
        simp [Dcache.nextMissStateQ, ih, hans n hn ih]
  obtain ⟨m, hm, hready⟩ := h.fair.readyA N
  have hsent : (after s₀ inp (m + 1)).sys.cache.missUncachedSentQ = true := by
    change (after s₀ inp m).sys.cache.nextMissUncachedSentQ (inp m) = true
    simp only [Dcache.nextMissUncachedSentQ, hall m hm]
    cases hs : (after s₀ inp m).sys.cache.missUncachedSentQ
    · have hA : ((after s₀ inp m).sys.cache.refillA (inp m)).isSome = true := by
        simp [Dcache.refillA, hall m hm, hs]
      have hst : (after s₀ inp m).sys.cache.stateQ = .fill :=
        (h.inv m).miss.mp (by simp [hall m hm])
      rw [h.memAReady_of_fill hst hA hready, Bool.true_or]
    · rw [Bool.or_true]
  obtain ⟨k, hk, hd⟩ := h.comes (h.fair.word (m + 1) (hall _ (by omega)) hsent)
  simp [hans k (by omega) (hall k (by omega))] at hd

/-- The line of the access is in the tag array, with the permission that it needs. -/
def Installed (s : DcacheMem p) : Prop :=
  ∃ k, (s.sys.cache.tagRam.mem (s.sys.line % 2 ^ p.setsWidth) k).valid = true ∧
    (s.sys.cache.tagRam.mem (s.sys.line % 2 ^ p.setsWidth) k).tag = s.sys.line / 2 ^ p.setsWidth ∧
    (s.sys.cache.opQ ≠ .load →
      (s.sys.cache.tagRam.mem (s.sys.line % 2 ^ p.setsWidth) k).writable = true)

/-- The last beat of a grant that is not denied installs the line. -/
theorem Run.installed (h : Run s₀ inp)
    (hm : (after s₀ inp n).sys.cache.missStateQ = .fill) {b : RefillBeat}
    (hl : (after s₀ inp n).sys.cache.refillLast (inp n) = some b) (hd : b.msg.denied = false) :
    (after s₀ inp (n + 1)).Installed := by
  have hinv := h.inv n
  obtain ⟨hq, hline, haddr⟩ :=
    hinv.fill h.legal.physAddrLen (h.env n).sys (hinv.fill_of_miss hm)
  have hw : (after s₀ inp n).sys.cache.refillTagWrite (inp n) = some (.write
      ((after s₀ inp n).sys.line % 2 ^ p.setsWidth)
      (fun k => k == (after s₀ inp n).sys.cache.wayQ)
      ⟨(after s₀ inp n).sys.line / 2 ^ p.setsWidth, b.msg.param == toT, false, true⟩) := by
    simp [Dcache.refillTagWrite, hl, hd, haddr]
  have hmem := Dcache.mem_step_refill hw
  have hline' : (after s₀ inp (n + 1)).sys.line = (after s₀ inp n).sys.line := hline
  have hop : (after s₀ inp (n + 1)).sys.cache.opQ = (after s₀ inp n).sys.cache.opQ := by
    rw [after_succ]
    simp [step, DcacheSys.step, Dcache.step, hq]
  have hparam : (after s₀ inp n).sys.cache.opQ ≠ .load → b.msg.param = toT := by
    intro ho
    have hfront : (after s₀ inp n).sys.cache.refillFront (inp n) = some b := by
      have hbeat := (Option.filter_eq_some_iff.mp hl).1
      unfold Dcache.refillBeat at hbeat
      split_ifs at hbeat
      exact hbeat
    rcases (refillFront_cases hfront).2 with ⟨rest, hitems⟩ | ⟨-, hins⟩
    · exact (h.beats n).exclusive b (by simp [hitems]) hd ho
    · exact (h.fair.grants n).exclusive b hins hd ho
  have hway : (after s₀ inp (n + 1)).sys.cache.tagRam.mem
      ((after s₀ inp n).sys.line % 2 ^ p.setsWidth) (after s₀ inp n).sys.cache.wayQ =
      ⟨(after s₀ inp n).sys.line / 2 ^ p.setsWidth, b.msg.param == toT, false, true⟩ := by
    rw [after_succ, step_sys_cache, hmem]
    simp [Dcache.writeTags]
  refine ⟨(after s₀ inp n).sys.cache.wayQ, ?_⟩
  rw [hline', hop, hway]
  exact ⟨rfl, rfl, fun ho => by simp [hparam ho]⟩

/-- The fetch of a line that is in the tag array does not miss. -/
theorem Inv.outcome_of_installed {s : DcacheMem p} {i : DcacheIn} (hinv : s.Inv) (hp : p.Legal)
    (hst : s.sys.cache.stateQ = .fetch) (hf : s.sys.cache.flushStateQ ≠ .reset)
    (hin : s.Installed) : s.sys.cache.outcome i ≠ .miss := by
  obtain ⟨k, hv, ht, hw⟩ := hin
  obtain ⟨hrd, hlatch, hphys⟩ := hinv.fetch hst
  have hline := DcacheSys.tagReadAddrLatchPhys_eq_line hp.physAddrLen hlatch hphys
  have hk : s.sys.cache.hit k = true := by simp [Dcache.hit, hrd, hv, ht, hline]
  have hany : s.sys.cache.anyHit = true := by
    rw [Dcache.anyHit, firstIdx_isSome]
    exact ⟨k, hk⟩
  have hway := hinv.hitWay_of_line hp.physAddrLen hst hf hv ht
  have hperm : (s.sys.cache.hitTag.writable || s.sys.cache.opQ == .load) = true := by
    by_cases ho : s.sys.cache.opQ = .load
    · simp [ho]
    · rw [Dcache.hitTag, hrd, ← hway, hw ho, Bool.true_or]
  intro ho
  simp only [Dcache.outcome, hany, hperm, Bool.and_self, if_true] at ho
  split_ifs at ho

/-- A replay whose line is in the tag array is answered. -/
theorem Quiet.not_installed (h : Run s₀ inp) (hq : Quiet s₀ inp N) (hn : N ≤ n)
    (hst : (after s₀ inp n).sys.cache.stateQ = .replay)
    (hw : (after s₀ inp n).sys.cache.wbStateQ = .idle)
    (hv : atpMode (after s₀ inp n).sys.atp = true →
      (after s₀ inp n).sys.cache.tr.ppnValid = true) : ¬(after s₀ inp n).Installed := by
  intro hin
  have hreq := hq.toStuck.reqValid h hn
  obtain ⟨hfetch, hw', hmem⟩ := hq.replay h hn hst hw
  have hline : (after s₀ inp (n + 1)).sys.line = (after s₀ inp n).sys.line :=
    DcacheSys.line_step (h.inv n).owned hreq hv
  have hop : (after s₀ inp (n + 1)).sys.cache.opQ = (after s₀ inp n).sys.cache.opQ := by
    rw [after_succ]
    simp [step, DcacheSys.step, Dcache.step, hreq]
  have hin' : (after s₀ inp (n + 1)).Installed := by
    rw [Installed, hline, hop, hmem]
    exact hin
  have hv' : atpMode (after s₀ inp (n + 1)).sys.atp = true →
      (after s₀ inp (n + 1)).sys.cache.tr.ppnValid = true := by
    intro ha
    rw [hq.toStuck.atp_succ h hn] at ha
    exact hq.toStuck.ppnValid_succ h hn (hv ha)
  exact (h.inv (n + 1)).outcome_of_installed h.legal hfetch (hq.flush (n + 1) (by omega)) hin'
    (hq.fetch h (by omega) hfetch hw' hv')

/-- The end of a refill is the end of the access, or the beginning of an uncached one. -/
theorem Quiet.not_refillLast (h : Run s₀ inp) (hq : Quiet s₀ inp N) (hn : N ≤ n)
    (hm : (after s₀ inp n).sys.cache.missStateQ = .fill) :
    (after s₀ inp n).sys.cache.refillLast (inp n) = none := by
  by_contra hne
  obtain ⟨b, hl⟩ := Option.ne_none_iff_exists'.mp hne
  have hst := (h.inv n).fill_of_miss hm
  have hstate := hq.toStuck.stateQ_succ h hn
  cases hd : b.msg.denied
  · have hprog := ((h.inv n).of_refillLast (h.env n) hl).1
    have hw := hq.wb_succ h hn (by simp [Dcache.fetches, hst])
      ((h.inv n).locked.refill_alone hprog).2.1
    refine hq.not_installed h (n := n + 1) (by omega) ?_ hw ?_ (h.installed hm hl hd)
    · rw [hstate]
      simp [Dcache.caseState, hst, Dcache.missResp, hm, hl, hd]
    · intro ha
      rw [hq.toStuck.atp_succ h hn] at ha
      refine hq.toStuck.ppnValid_succ h hn ?_
      simp [Translation.ppnValid, ((h.inv n).owned.fill hst ha).1]
  · by_cases ho : (after s₀ inp n).sys.cache.opQ = .load ∨
      (after s₀ inp n).sys.cache.opQ = .store
    · refine (hq.mono (by omega : N ≤ n + 1)).not_uncached h ?_
      change (after s₀ inp n).sys.cache.nextMissStateQ (inp n) = .uncached
      simp [Dcache.nextMissStateQ, hm, hl, hd, ho]
    · refine hq.toStuck.ne_exception (n := n + 1) (by omega) ?_
      rw [hstate]
      simp [Dcache.caseState, hst, Dcache.missResp, hm, hl, hd, ho]

/-- A refill would go on for ever. -/
theorem Quiet.filling (h : Run s₀ inp) (hq : Quiet s₀ inp N)
    (hm : (after s₀ inp N).sys.cache.missStateQ = .fill) : Filling s₀ inp N := by
  have hfill : ∀ n, N ≤ n → (after s₀ inp n).sys.cache.missStateQ = .fill := by
    intro n hn
    induction n, hn using Nat.le_induction with
    | base => exact hm
    | succ n hn ih =>
        change (after s₀ inp n).sys.cache.nextMissStateQ (inp n) = .fill
        simp [Dcache.nextMissStateQ, ih, hq.not_refillLast h hn ih]
  exact ⟨hq, hfill, fun n hn => hq.not_refillLast h hn (hfill n hn)⟩

/-- An access is not stuck. -/
theorem Run.not_stuck (h : Run s₀ inp) (hs : Stuck s₀ inp N) : False := by
  obtain ⟨M, -, hq⟩ := h.exists_quiet hs
  obtain ⟨n, hn, hst⟩ := h.exists_fill hq
  have hq' := hq.mono hn
  cases hm : (after s₀ inp n).sys.cache.missStateQ
  · exact (h.inv n).miss.mpr hst hm
  · exact Filling.absurd h (hq'.filling h hm)
  · exact hq'.not_uncached h hm

/-- Every access leaves the machine. -/
theorem Run.leadsTo_leaves (h : Run s₀ inp) :
    LeadsTo (fun n => (after s₀ inp n).sys.cache.stateQ ≠ .idle) fun n =>
      (after s₀ inp n).sys.cache.leaves (inp n) = true := by
  intro n hn
  by_contra hno
  refine h.not_stuck (h.stuck hn fun m hm => ?_)
  by_contra hl
  exact hno ⟨m, hm, by simpa using hl⟩

/-! ## A small system -/

instance (s : DcacheMem p) (q : Pos DMsg) (i : DcacheIn) : Decidable (s.Grants q i) :=
  decidable_of_iff ((∀ d ∈ i.memD, q.Accepts chanD d) ∧ (∀ d ∈ i.memDRefill, d.size = 6) ∧
      ∀ b ∈ s.sys.cache.refillFifoInsert i, b.msg.denied = false → s.sys.cache.opQ ≠ .load →
        b.msg.param = toT)
    ⟨fun ⟨a, b, c⟩ => ⟨fun d hd => a d hd, fun d hd => b d hd, fun d hd => c d hd⟩,
      fun ⟨a, b, c⟩ => ⟨fun d hd => a d hd, fun d hd => b d hd, fun d hd => c d hd⟩⟩

instance (s : DcacheMem p) (i : DcacheIn) : Decidable (s.Blocked i) :=
  inferInstanceAs (Decidable (_ ∧ _))

/-- The load of a line that is walked to and refilled, then a misaligned load of its page. -/
def loadTwice (k : ℕ) : DcacheIn :=
  if k = 22 then DcacheSys.load 0x1001 else refilledLoad k

theorem loadTwice_of_le (hn : 24 ≤ n) : loadTwice n = DcacheSys.quiet := by
  rw [loadTwice, if_neg (by omega), refilledLoad, if_neg (by omega), DcacheSys.plainLoad,
    if_neg (by omega), if_neg (by omega)]

theorem ready_loadTwice (n : ℕ) : (loadTwice n).memAReady = true ∧
    (loadTwice n).memCReady = true ∧ (loadTwice n).memEReady = true ∧
    (loadTwice n).memB = none := by
  unfold loadTwice refilledLoad DcacheSys.plainLoad
  split_ifs <;> exact ⟨rfl, rfl, rfl, rfl⟩

/-- After both loads the cache is at rest. -/
theorem idle_loadTwice (hn : 24 ≤ n) :
    (after smallReset loadTwice n).sys.cache.stateQ = .idle := by
  induction n, hn using Nat.le_induction with
  | base => decide
  | succ n hn ih =>
      have hq : (loadTwice n).reqValid = false := by
        rw [loadTwice_of_le hn]
        rfl
      have hstep : (after smallReset loadTwice (n + 1)).sys.cache.stateQ =
          (after smallReset loadTwice n).sys.cache.caseState (loadTwice n) :=
        Dcache.stateQ_step_hold hq
      rw [hstep]
      simp [Dcache.caseState, ih]

theorem env_loadTwice (n : ℕ) : (after smallReset loadTwice n).Env (loadTwice n) ∧
    (after smallReset loadTwice n).sys.EarlyHits (loadTwice n) := by
  rcases Nat.lt_or_ge n 24 with hn | hn
  · exact (show ∀ n < 24, (after smallReset loadTwice n).Env (loadTwice n) ∧
      (after smallReset loadTwice n).sys.EarlyHits (loadTwice n) by decide) n hn
  · have hidle := idle_loadTwice hn
    rw [loadTwice_of_le hn]
    refine ⟨⟨⟨fun hq => ?_, fun hb => absurd hidle hb.1, fun hd => ?_⟩, fun hb => ?_⟩,
      fun hq => ?_⟩
    · exact absurd hq (by decide)
    · exact absurd hd (by decide)
    · obtain ⟨b, hb⟩ := Option.isSome_iff_exists.mp hb
      exact absurd (of_refillFifoInsert hb).2.1 (by simp [DcacheSys.quiet, DcacheIn.memDRefill])
    · exact absurd hq (by decide)

theorem inv_loadTwice (n : ℕ) : (after smallReset loadTwice n).Inv :=
  run_invariant Inv (fun s i => s.Env i ∧ s.sys.EarlyHits i) (inv_of_isReset isReset_smallReset)
    (fun _ _ h henv => inv_step h (by decide) (by decide) henv.1 henv.2) n
    fun k _ => env_loadTwice k

theorem wbIdle_loadTwice (n : ℕ) : (after smallReset loadTwice n).sys.cache.wbStateQ ≠ .wait := by
  have hidle : 24 ≤ n → (after smallReset loadTwice n).sys.cache.wbStateQ = .idle ∧
      (after smallReset loadTwice n).sys.cache.probeStateQ = .idle := by
    intro hn
    induction n, hn using Nat.le_induction with
    | base => decide
    | succ n hn ih =>
        have hreq : (after smallReset loadTwice n).sys.cache.wbReq (loadTwice n) = none := by
          by_contra hne
          rcases (inv_loadTwice n).locked.wbReq_cases (Option.isSome_iff_ne_none.mpr hne) with
            hp | ⟨-, hr⟩
          · simp [ih.2] at hp
          · rw [wbRelReq_of_not_fetch (by simp [idle_loadTwice hn])] at hr
            simp at hr
        refine ⟨Dcache.next_wb_idle ih.1 hreq, Dcache.next_probe_idle ?_⟩
        simp [Dcache.probeLocking, Dcache.probeLockAcq, (ready_loadTwice n).2.2.2]
  rcases Nat.lt_or_ge n 24 with hn | hn
  · exact (show ∀ n < 24, (after smallReset loadTwice n).sys.cache.wbStateQ ≠ .wait by decide) n hn
  · simp [(hidle hn).1]

theorem not_blocked_loadTwice (n : ℕ) :
    ¬(after smallReset loadTwice n).Blocked (loadTwice n) := by
  rcases Nat.lt_or_ge n 24 with hn | hn
  · exact (show ∀ n < 24, ¬(after smallReset loadTwice n).Blocked (loadTwice n) by decide) n hn
  · rw [loadTwice_of_le hn]
    exact fun hb => absurd hb.1 (by decide)

theorem fair_loadTwice : Fair smallReset loadTwice where
  readyA k := ⟨k, le_rfl, (ready_loadTwice k).1⟩
  readyC k := ⟨k, le_rfl, (ready_loadTwice k).2.1⟩
  readyE k := ⟨k, le_rfl, (ready_loadTwice k).2.2.1⟩
  hold n hb := absurd hb (not_blocked_loadTwice n)
  grants n := by
    rcases Nat.lt_or_ge n 24 with hn | hn
    · exact (show ∀ n < 24, (after smallReset loadTwice n).Grants (dPos smallReset loadTwice n)
        (loadTwice n) by decide) n hn
    · rw [loadTwice_of_le hn]
      refine ⟨fun d hd => ?_, fun d hd => ?_, fun b hb => ?_⟩
      · exact absurd hd (by simp [DcacheSys.quiet])
      · exact absurd hd (by simp [DcacheSys.quiet, DcacheIn.memDRefill])
      · exact absurd (of_refillFifoInsert hb).2.1 (by simp [DcacheSys.quiet, DcacheIn.memDRefill])
  entry n hreads := by
    rcases Nat.lt_or_ge n 24 with hn | hn
    · exact .inl ⟨n, le_rfl, (show ∀ n < 24, (after smallReset loadTwice n).sys.reads ≠ [] →
        ((loadTwice n).memDPtw DcacheSys.smallParams).isSome = true by decide) n hn hreads⟩
    · have ho := (inv_loadTwice n).owned
      refine absurd (ho.rest ?_).1 hreads
      by_contra hl
      rcases (ho.active (Ptw.stateQ_ne_idle_of_level hl)).2.1 with hs | hs | hs <;>
        simp [idle_loadTwice hn] at hs
  line n hacq := by
    have hfresh : ∀ m, Fresh smallReset loadTwice m := by
      intro m
      cases m with
      | zero => trivial
      | succ m => exact not_blocked_loadTwice m
    rcases Nat.lt_or_ge n 24 with hn | hn
    · exact .inl ⟨max n 9, le_max_left n 9,
        (show ∀ n < 24, (after smallReset loadTwice n).acq.isSome = true →
          (loadTwice (max n 9)).memDRefill.isSome = true by decide) n hn hacq, hfresh _⟩
    · obtain ⟨l, hl⟩ := Option.isSome_iff_exists.mp hacq
      have hfill := (inv_loadTwice n).fill_of_miss ((inv_loadTwice n).fifo.acquired l hl).1
      simp [idle_loadTwice hn] at hfill
  released n hw := absurd hw (wbIdle_loadTwice n)
  word n hm := by
    rcases Nat.lt_or_ge n 24 with hn | hn
    · exact absurd hm ((show ∀ n < 24,
        (after smallReset loadTwice n).sys.cache.missStateQ ≠ .uncached by decide) n hn)
    · have hfill := (inv_loadTwice n).miss.mp (by simp [hm])
      simp [idle_loadTwice hn] at hfill
  probes n := .inr ⟨n, le_rfl, fun k _ => by
    simp [Dcache.probeAccept, (ready_loadTwice k).2.2.2]⟩

theorem run_loadTwice : Run smallReset loadTwice where
  legal := ⟨by decide, by decide, by decide⟩
  reset := isReset_smallReset
  env n := (env_loadTwice n).1
  earlyHits n := (env_loadTwice n).2
  fair := fair_loadTwice

end DcacheMem

end Muntjac.Core

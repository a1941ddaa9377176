import Muntjac.Core.IcacheMem

/-!
# The control of the instruction cache

The state machines of the cache against each other and against the reads in flight: an
access in flight is the one that the frontend waits for, a refill belongs to it, and the
flush machine does not sweep the tags under a refill.

## Main definitions

* `IcacheMem.Ctl` — the invariant of the control registers.
* `IcacheMem.ctl_step` — one regular cycle keeps it.
-/

namespace Muntjac.Core

open Sync Tl

namespace IcacheParams
variable {p : IcacheParams}

theorem Legal.busBytes (hp : p.Legal) : p.busBytes = 2 ^ (p.interleaveWidth + 2) := by
  rw [IcacheParams.busBytes, hp.dataWidth, Nat.pow_add]
  omega

theorem clog2_two_pow (k : ℕ) : clog2 (2 ^ k) = k := by
  unfold clog2
  cases k with
  | zero => rfl
  | succ k =>
      have hpos := Nat.two_pow_pos k
      have hpow : 2 ^ (k + 1) = 2 * 2 ^ k := Nat.pow_succ'
      have hlog : Nat.log2 (2 ^ (k + 1) - 1) = k := by
        rw [Nat.log2_eq_iff (by omega)]
        omega
      rw [if_neg (by omega), hlog]

theorem Legal.nonBurst (hp : p.Legal) : p.burst.nonBurst = p.interleaveWidth + 2 := by
  simp only [IcacheParams.burst, hp.busBytes, clog2_two_pow]

/-- A line has one beat more than the last index of its answer. -/
theorem Legal.len_line (hp : p.Legal) :
    Burst.len p.burst true 6 + 1 = p.lineBeats := by
  have hw := hp.interleaveWidth
  rw [Burst.len_eq true (show 6 ≤ p.burst.maxSize from le_rfl), if_pos rfl, hp.nonBurst,
    show 6 - (p.interleaveWidth + 2) = 4 - p.interleaveWidth by omega]
  have hpos := Nat.two_pow_pos (4 - p.interleaveWidth)
  simp only [lineBeats]
  omega

/-- An answer to the walker is one beat. -/
theorem Legal.len_entry (hp : p.Legal) (hasData : Bool) : Burst.len p.burst hasData 1 = 0 := by
  have hw := hp.interleaveWidth
  rw [Burst.len_eq hasData (show 1 ≤ p.burst.maxSize from (by decide : 1 ≤ 6)), hp.nonBurst,
    show 1 - (p.interleaveWidth + 2) = 0 by omega]
  simp

end IcacheParams

namespace Icache
variable {p : IcacheParams} {c : Icache p} {i : IcacheIn}

/-- An access is in flight and may still wait for its translation. -/
def Searching (c : Icache p) : Prop :=
  c.stateQ = .fetch ∨ c.stateQ = .replay ∨ c.stateQ = .waitTlb ∨ c.stateQ = .flush

/-- The states that a request leads to. -/
theorem stateQ_step_req (hq : i.reqValid = true) :
    i.faultsEarly p = true ∧ (c.step i).stateQ = .exception ∨
      i.faultsEarly p = false ∧ (i.isFence = true ∧ (c.step i).stateQ = .flush ∨
        i.isFence = false ∧ ((c.step i).stateQ = .fetch ∨ (c.step i).stateQ = .replay)) := by
  simp only [step, nextStateQ, hq, if_true]
  cases i.faultsEarly p
  · cases i.isFence
    · simp only [Bool.false_eq_true, if_false]
      split_ifs <;> simp
    · simp
  · simp

theorem stateQ_step_hold (hq : i.reqValid = false) : (c.step i).stateQ = c.caseState i := by
  simp [step, nextStateQ, hq]

/-- Only a miss leads into the fill state. -/
theorem caseState_eq_fill (hf : c.stateQ ≠ .fill) :
    c.caseState i = .fill ↔ c.missReqValid = true := by
  cases hs : c.stateQ
  case fetch => cases ho : c.fetchOutcome <;> simp [caseState, missReqValid, hs, ho]
  case fill => exact absurd hs hf
  all_goals
    simp only [caseState, missReqValid, hs]
    try split_ifs
    all_goals simp

/-- The machine comes to rest with the answer. -/
theorem caseState_eq_idle : c.caseState i = .idle ↔ c.stateQ = .idle ∨ c.answers = true := by
  cases hs : c.stateQ
  case fetch => cases ho : c.fetchOutcome <;> simp [caseState, answers, respValid, exValid, hs, ho]
  case fill =>
      simp only [caseState, answers, respValid, exValid, hs]
      cases c.missResp i with
      | none => simp
      | some b => cases b <;> simp
  all_goals
    simp only [caseState, answers, respValid, exValid, hs]
    try split_ifs
    all_goals simp

/-- The cache answers in the cycle in which a fetch hits and in the exception state. -/
theorem answers_iff : c.answers = true ↔
    c.stateQ = .fetch ∧ c.fetchOutcome = .hit ∨ c.stateQ = .exception := by
  simp [answers, respValid, exValid]

/-- Without its translation a fetch is put off. -/
theorem fetchOutcome_of_searching (ha : c.atpModeQ = true) (hv : c.tr.ppnValid = false) :
    c.fetchOutcome = .conflict ∨ c.fetchOutcome = .tlbMiss := by
  cases hn : c.nothingInProgress <;> simp [fetchOutcome, hn, ha, hv]

theorem answers_of_searching (hs : c.Searching) (ha : c.atpModeQ = true)
    (hv : c.tr.ppnValid = false) : c.answers = false := by
  rw [Bool.eq_false_iff, ne_eq, answers_iff]
  rintro (⟨-, hhit⟩ | hx)
  · rcases fetchOutcome_of_searching ha hv with ho | ho <;> simp [ho] at hhit
  · rcases hs with hs | hs | hs | hs <;> simp [hs] at hx

/-- While the translation is missing, the access goes on searching. -/
theorem searching_hold (hq : i.reqValid = false) (hs : c.Searching) (ha : c.atpModeQ = true)
    (hv : c.tr.ppnValid = false) : (c.step i).Searching := by
  rw [Searching, stateQ_step_hold hq]
  rcases hs with hs | hs | hs | hs <;> simp only [caseState, hs]
  · rcases fetchOutcome_of_searching ha hv with ho | ho <;> simp [ho]
  · split_ifs <;> simp
  · simp [hv]
  · split_ifs <;> simp

/-- The machine stays in the flush state until the flush is over, and does not come back. -/
theorem caseState_eq_flush (h : c.caseState i = .flush) :
    c.stateQ = .flush ∧ c.flushReady = false := by
  cases hs : c.stateQ <;> simp only [caseState, hs] at h
  case fetch => cases ho : c.fetchOutcome <;> simp [ho] at h
  case fill =>
      cases hm : c.missResp i with
      | none => simp [hm] at h
      | some b => cases b <;> simp [hm] at h
  case flush => simpa using h
  all_goals
    try split_ifs at h
    all_goals simp at h

/-- A message on channel A is a single beat. -/
theorem memALast_of_memA {a : AMsg} (h : c.memA i = some a) : c.memALast a = true := by
  have hop : a.opcode = .get := by
    obtain ⟨k, -, hk⟩ := Option.bind_eq_some_iff.mp h
    unfold memAMult Translation.ptwA refillA at hk
    split_ifs at hk <;> simp only [Option.some.injEq] at hk <;> subst hk <;> rfl
  simp [memALast, hop, AOp.hasData, Burst.last, Burst.left, Burst.len]

/-- The channel is never locked between cycles. -/
theorem memAArb_locked_step (h : c.memAArb.locked = false) :
    (c.step i).memAArb.locked = false := by
  simp only [step, ChannelArb.next]
  split_ifs with hs
  · obtain ⟨a, ha⟩ := Option.isSome_iff_exists.mp (Bool.and_eq_true_iff.mp hs).1
    have hm : c.memA i = some a := ha
    simp [hm, memALast_of_memA hm]
  · exact h

end Icache

namespace IcacheMem
variable {p : IcacheParams}

/-- The access of the translation logic. -/
def lookup (s : IcacheMem p) : Lookup where
  translated := atpMode s.atp
  vpn := slice s.cache.addressQ (p.virtAddrLen - 1) 12
  searching := s.pending.isSome = true ∧ s.cache.Searching

/-- The physical address of the access. -/
def phys (s : IcacheMem p) : ℕ :=
  if atpMode s.atp then cat s.cache.tr.ppn 12 (s.cache.addressQ % 2 ^ 12) % 2 ^ p.physAddrLen
  else s.cache.addressQ % 2 ^ p.physAddrLen

/-- The number of beats of the refill that have been transferred. -/
def beats (s : IcacheMem p) : ℕ := (s.fill.map LineRead.beats).getD 0

/-- The line read in flight belongs to the access. -/
structure FillOk (s : IcacheMem p) (r : LineRead) : Prop where
  line : r.line = s.phys / 2 ^ 6
  beats : r.beats < p.lineBeats
  idle : s.cache.refillStateQ = .idle → r.beats = 0
  flushed : s.flushed ≤ r.issued
  issued : r.issued < s.now

/-- The request that the registers of the access are for. -/
structure RequestOk (s : IcacheMem p) (f : FetchReq) : Prop where
  address : s.cache.addressQ = f.pc
  mode : s.cache.atpModeQ = atpMode f.atp
  atp : s.atp = f.atp
  canonical : s.cache.stateQ ≠ .exception → atpMode f.atp = false → f.pc < 2 ^ p.physAddrLen

structure Ctl (s : IcacheMem p) : Prop where
  unstarted : s.started = false → s.pending = none ∧ s.cache.stateQ = .flush ∧
    (s.cache.flushStateQ = .reset ∨ s.cache.flushStateQ = .done)
  started : s.started = true → (s.pending = none ↔ s.cache.stateQ = .idle)
  request : ∀ f ∈ s.pending, s.RequestOk f
  miss : s.cache.missStateQ = .fill ↔ s.cache.stateQ = .fill
  latched : s.cache.stateQ = .fill → atpMode s.atp = true →
    s.cache.tr.ppnValidLatch = true ∧ s.cache.tr.tlbRespValid = false
  arb : s.cache.memAArb.locked = false
  sent : s.fill.isSome = true ↔ s.cache.missStateQ = .fill ∧ s.cache.missRefillSentQ = true
  tracker : s.cache.refillTrackerValid = (s.cache.refillStateQ == .progress)
  progress : s.cache.refillStateQ = .progress → s.fill.isSome = true
  fill : ∀ r ∈ s.fill, s.FillOk r
  burst : s.cache.gntBurst.Counts p.burst (Burst.len p.burst true 6) s.beats
  flushTracker : s.cache.flushTrackerValid = (s.cache.flushStateQ == .reset)
  flushIdle : s.cache.stateQ = .flush → s.cache.flushStateQ ≠ .idle
  flushLock : s.cache.flushStateQ = .lock →
    s.cache.stateQ = .flush ∨ s.cache.stateQ = .exception
  flushFill : s.cache.stateQ = .fill →
    s.cache.flushStateQ = .idle ∨ s.cache.flushStateQ = .done
  flushIndex : s.cache.flushIndexQ < 2 ^ p.setsWidth ∧
    (s.cache.flushStateQ ≠ .reset → s.cache.flushIndexQ = 0)
  flushed : s.flushed ≤ s.now

section Step
variable {mem : ℕ → ℕ → ℕ} {pt : ℕ → ℕ} {root : ℕ} {s : IcacheMem p} {i : IcacheIn}

/-- A request finds the machine where it accepts one: no access waits for anything. -/
theorem Ctl.accepting (h : s.Ctl) (henv : s.Env mem pt root i) (hq : i.reqValid = true) :
    s.cache.stateQ = .idle ∨ s.cache.stateQ = .exception ∨
      s.cache.stateQ = .fetch ∧ s.cache.fetchOutcome = .hit ∨
      s.cache.stateQ = .flush ∧ s.started = false := by
  cases hs : s.started
  · exact .inr (.inr (.inr ⟨(h.unstarted hs).2.1, rfl⟩))
  · rcases henv.waits hq with hn | ha
    · exact .inl ((h.started hs).mp hn)
    · rcases Icache.answers_iff.mp ha with hf | hx
      · exact .inr (.inr (.inl hf))
      · exact .inr (.inl hx)

theorem Ctl.stateQ_ne_fill (h : s.Ctl) (henv : s.Env mem pt root i) (hq : i.reqValid = true) :
    s.cache.stateQ ≠ .fill := by
  intro hf
  rcases h.accepting henv hq with hs | hs | ⟨hs, -⟩ | ⟨hs, -⟩ <;> simp [hs] at hf

/-- The line read in flight is that of an access in the fill state. -/
theorem Ctl.fill_of_some (h : s.Ctl) {r : LineRead} (hr : r ∈ s.fill) :
    s.cache.stateQ = .fill ∧ s.cache.missStateQ = .fill ∧ s.cache.missRefillSentQ = true := by
  have hsome : s.fill.isSome = true := Option.isSome_iff_exists.mpr ⟨r, hr⟩
  obtain ⟨hm, hsent⟩ := h.sent.mp hsome
  exact ⟨h.miss.mp hm, hm, hsent⟩

theorem Ctl.fill_eq_none (h : s.Ctl) (hf : s.cache.stateQ ≠ .fill) : s.fill = none := by
  cases hfill : s.fill with
  | none => rfl
  | some r => exact absurd (h.fill_of_some hfill).1 hf

/-- Channel D carries a beat of a refill only while a line read is in flight. -/
theorem Env.memDRefill_eq_none (henv : s.Env mem pt root i) (hf : s.fill = none) :
    i.memDRefill p = none := by
  cases hd : i.memDRefill p with
  | none => rfl
  | some d =>
      obtain ⟨r, hr, -⟩ := henv.filled d hd
      simp [hf] at hr

/-- The refill machine is idle unless the access is in the fill state. -/
theorem Ctl.refillStateQ_idle (h : s.Ctl) (hf : s.cache.stateQ ≠ .fill) :
    s.cache.refillStateQ = .idle := by
  cases hr : s.cache.refillStateQ
  · rfl
  · have := h.progress hr
    simp [h.fill_eq_none hf] at this

theorem Ctl.missStateQ_idle (h : s.Ctl) (hf : s.cache.stateQ ≠ .fill) :
    s.cache.missStateQ = .idle := by
  cases hm : s.cache.missStateQ
  · rfl
  · exact absurd (h.miss.mp hm) hf

/-- Outside the fill state the refill machine does nothing. -/
theorem Ctl.refill_quiet (h : s.Ctl) (henv : s.Env mem pt root i) (hf : s.cache.stateQ ≠ .fill) :
    s.cache.refillBeat i = none ∧ s.cache.refillA i = none ∧ s.cache.refillLockAcq i = false ∧
      s.cache.refillTagWrite i = none ∧ s.cache.refillDataWrite i = none := by
  have hr := h.refillStateQ_idle hf
  have hm := h.missStateQ_idle hf
  have hd := henv.memDRefill_eq_none (h.fill_eq_none hf)
  have hbeat : s.cache.refillBeat i = none := by simp [Icache.refillBeat, hr]
  refine ⟨hbeat, ?_, ?_, ?_, ?_⟩
  · simp [Icache.refillA, hm]
  · simp [Icache.refillLockAcq, hd]
  · simp [Icache.refillTagWrite, Icache.refillLast, hbeat]
  · simp [Icache.refillDataWrite, hbeat]

/-- A request does not find a miss. -/
theorem Ctl.missReqValid_of_req (h : s.Ctl) (henv : s.Env mem pt root i) (hq : i.reqValid = true) :
    s.cache.missReqValid = false := by
  rcases h.accepting henv hq with hs | hs | ⟨hs, ho⟩ | ⟨hs, -⟩ <;>
    simp [Icache.missReqValid, hs]
  simp [ho]

/-! ### Beats of the refill -/

/-- A beat of the refill that is transferred in this cycle. -/
structure Beat (mem : ℕ → ℕ → ℕ) (s : IcacheMem p) (i : IcacheIn) (d : DMsg) (r : LineRead) :
    Prop where
  fill : r ∈ s.fill
  progress : s.cache.refillStateQ = .progress
  idx : s.cache.memDIdx d = r.beats
  last : s.cache.memDLast d = (r.beats + 1 == p.lineBeats)
  denied : 0 < r.beats → d.denied = r.denied
  carries : d.denied = false → Carries (p := p) mem s.now r d

variable (hp : p.Legal)
include hp

theorem Ctl.beat (h : s.Ctl) (henv : s.Env mem pt root i) {d : DMsg}
    (hd : s.cache.refillBeat i = some d) : ∃ r, s.Beat mem i d r := by
  unfold Icache.refillBeat at hd
  split_ifs at hd with hpr
  have hprog : s.cache.refillStateQ = .progress := by simpa using hpr
  obtain ⟨r, hr, hop, hsize, hden, hc⟩ := henv.filled d hd
  have hbeats : s.beats = r.beats := by
    have hr' : s.fill = some r := hr
    simp [beats, hr']
  have hcount := h.burst
  have hlen := hp.len_line
  rw [hbeats] at hcount
  refine ⟨r, hr, hprog, ?_, ?_, hden, hc⟩
  · rw [Icache.memDIdx, hop, hsize]
    exact hcount.idx_eq
  · rw [Icache.memDLast, hop, hsize]
    refine hcount.last_eq.trans ?_
    rw [Bool.eq_iff_iff, decide_eq_true_iff, beq_iff_eq]
    omega

/-- The last beat of the refill. -/
theorem Ctl.last (h : s.Ctl) (henv : s.Env mem pt root i) {d : DMsg}
    (hd : s.cache.refillLast i = some d) : ∃ r, s.Beat mem i d r ∧ r.beats + 1 = p.lineBeats := by
  obtain ⟨hbeat, hlast⟩ := Option.filter_eq_some_iff.mp hd
  obtain ⟨r, hr⟩ := h.beat hp henv hbeat
  rw [hr.last, beq_iff_eq] at hlast
  exact ⟨r, hr, hlast⟩

omit hp in
/-- The refill ends with the beat that completes the line. -/
theorem Beat.refillLast_eq {d : DMsg} {r : LineRead} (hr : s.Beat mem i d r)
    (hd : s.cache.refillBeat i = some d) :
    s.cache.refillLast i = if r.beats + 1 = p.lineBeats then some d else none := by
  simp only [Icache.refillLast, hd, Option.filter, hr.last, beq_iff_eq]

omit hp in
/-- The line read in flight after a beat. -/
theorem Beat.nextFill_eq {d : DMsg} {r : LineRead} (hr : s.Beat mem i d r)
    (hd : s.cache.refillBeat i = some d) :
    s.nextFill i = if r.beats + 1 = p.lineBeats then none
      else some { r with beats := r.beats + 1, denied := d.denied } := by
  have hfill : s.fill = some r := hr.fill
  simp only [nextFill, hd, hfill, Option.filter]
  split_ifs with h1 <;> simp_all

/-! ### The registers after a cycle -/

omit hp in
theorem Ctl.miss_step (h : s.Ctl) (henv : s.Env mem pt root i) :
    (s.step i).cache.missStateQ = .fill ↔ (s.step i).cache.stateQ = .fill := by
  have hnext : (s.step i).cache.missStateQ = s.cache.nextMissStateQ i := rfl
  rw [hnext]
  cases hq : i.reqValid
  · rw [show (s.step i).cache.stateQ = s.cache.caseState i from Icache.stateQ_step_hold hq]
    by_cases hf : s.cache.stateQ = .fill
    · have hm := h.miss.mpr hf
      simp only [Icache.nextMissStateQ, hm, Icache.caseState, hf]
      cases s.cache.missResp i with
      | none => simp
      | some b => cases b <;> simp
    · have hm := h.missStateQ_idle hf
      rw [Icache.caseState_eq_fill hf]
      cases hr : s.cache.missReqValid <;> simp [Icache.nextMissStateQ, hm, hr]
  · have hf := h.stateQ_ne_fill henv hq
    have hm := h.missStateQ_idle hf
    have hno := h.missReqValid_of_req henv hq
    have hst : (s.step i).cache.stateQ ≠ .fill := by
      rcases Icache.stateQ_step_req (p := p) (c := s.cache) hq with
        ⟨-, hx⟩ | ⟨-, ⟨-, hx⟩ | ⟨-, hx | hx⟩⟩ <;> simp [step, hx]
    simp [Icache.nextMissStateQ, hm, hno, hst]

/-- The read of the line that is in flight has been sent. -/
theorem Ctl.sent_step (h : s.Ctl) (henv : s.Env mem pt root i) :
    (s.step i).fill.isSome = true ↔
      (s.step i).cache.missStateQ = .fill ∧ (s.step i).cache.missRefillSentQ = true := by
  have hfill : (s.step i).fill = s.nextFill i := rfl
  have hmiss : (s.step i).cache.missStateQ = s.cache.nextMissStateQ i := rfl
  have hsent : (s.step i).cache.missRefillSentQ = s.cache.nextMissRefillSentQ i := rfl
  rw [hfill, hmiss, hsent]
  by_cases hf : s.cache.stateQ = .fill
  · have hm := h.miss.mpr hf
    simp only [Icache.nextMissStateQ, hm, Icache.nextMissRefillSentQ, Icache.missResp]
    cases hd : s.cache.refillBeat i with
    | some d =>
        obtain ⟨r, hr⟩ := h.beat hp henv hd
        have hs := (h.fill_of_some hr.fill).2.2
        rw [hr.nextFill_eq hd, hr.refillLast_eq hd]
        split_ifs <;> simp_all
    | none =>
        have hlast : s.cache.refillLast i = none := by simp [Icache.refillLast, hd]
        cases hs : s.cache.missRefillSentQ
        · have hnone : s.fill = none := by
            cases hfl : s.fill with
            | none => rfl
            | some r => simp [(h.fill_of_some hfl).2.2] at hs
          have hA : (s.cache.refillA i).isSome = true := by simp [Icache.refillA, hm, hs]
          cases hrdy : s.cache.memAReadyMult i 1 <;>
            simp [nextFill, hd, hlast, Icache.fillIssued, hA, hrdy, hnone]
        · have hsome : s.fill.isSome = true := h.sent.mpr ⟨hm, hs⟩
          have hA : s.cache.refillA i = none := by simp [Icache.refillA, hs]
          simp [nextFill, hd, hlast, Icache.fillIssued, hA, hsome]
  · have hm := h.missStateQ_idle hf
    obtain ⟨hbeat, hA, -⟩ := h.refill_quiet henv hf
    have hnone := h.fill_eq_none hf
    simp only [Icache.nextMissStateQ, hm, Icache.nextMissRefillSentQ]
    cases hr : s.cache.missReqValid <;>
      simp [nextFill, hbeat, Icache.fillIssued, hA, hnone]

omit hp in
theorem Ctl.tracker_step (h : s.Ctl) :
    (s.step i).cache.refillTrackerValid = ((s.step i).cache.refillStateQ == .progress) := by
  have ht := h.tracker
  simp only [step, Icache.step, Icache.nextRefillTrackerValid, Icache.nextRefillStateQ]
  cases hr : s.cache.refillStateQ
  · cases hl : s.cache.refillLocking i <;> simp_all
  · cases hl : (s.cache.refillLast i).isSome <;> simp_all

theorem Ctl.progress_step (h : s.Ctl) (henv : s.Env mem pt root i)
    (hr' : (s.step i).cache.refillStateQ = .progress) : (s.step i).fill.isSome = true := by
  have hfill : (s.step i).fill = s.nextFill i := rfl
  have hnext : s.cache.nextRefillStateQ i = .progress := hr'
  rw [hfill]
  cases hr : s.cache.refillStateQ <;> simp only [Icache.nextRefillStateQ, hr] at hnext
  · split_ifs at hnext with hl
    have hd : (i.memDRefill p).isSome = true := by
      simp only [Icache.refillLocking, Icache.refillLockAcq, Bool.and_eq_true] at hl
      exact hl.2.2
    have hsome : s.fill.isSome = true := by
      by_contra hn
      have := henv.memDRefill_eq_none (by simpa using hn)
      simp [this] at hd
    have hs := (h.sent.mp hsome).2
    have hbeat : s.cache.refillBeat i = none := by simp [Icache.refillBeat, hr]
    have hA : s.cache.refillA i = none := by simp [Icache.refillA, hs]
    simpa [nextFill, hbeat, Icache.fillIssued, hA] using hsome
  · have hsome := h.progress hr
    have hs := (h.sent.mp hsome).2
    have hA : s.cache.refillA i = none := by simp [Icache.refillA, hs]
    cases hd : s.cache.refillBeat i with
    | none => simpa [nextFill, hd, Icache.fillIssued, hA] using hsome
    | some d =>
        obtain ⟨r, hr⟩ := h.beat hp henv hd
        rw [hr.refillLast_eq hd] at hnext
        rw [hr.nextFill_eq hd]
        split_ifs at hnext ⊢ <;> simp_all

theorem Ctl.burst_step (h : s.Ctl) (ho : s.cache.tr.Owned p.busBytes s.lookup s.reads)
    (henv : s.Env mem pt root i) :
    (s.step i).cache.gntBurst.Counts p.burst (Burst.len p.burst true 6) (s.step i).beats := by
  have hnext : (s.step i).cache.gntBurst = s.cache.nextGntBurst i := rfl
  have hbeats : (s.step i).beats = ((s.nextFill i).map LineRead.beats).getD 0 := rfl
  rw [hnext, hbeats]
  cases hbeat : s.cache.refillBeat i with
  | some d =>
      obtain ⟨r, hr⟩ := h.beat hp henv hbeat
      have hbs : s.beats = r.beats := by
        have hr' : s.fill = some r := hr.fill
        simp [beats, hr']
      have hd : i.memDRefill p = some d := by
        simpa [Icache.refillBeat, hr.progress] using hbeat
      have hmem : i.memD = some d := (Option.filter_eq_some_iff.mp hd).1
      obtain ⟨-, -, hop, hsize, -⟩ := henv.filled d hd
      have hrdy : s.cache.memDReady i = true := by
        simp [Icache.memDReady, hd, hr.progress]
      have hcount := h.burst
      have hlen := hp.len_line
      have hlt := (h.fill r hr.fill).beats
      rw [hbs] at hcount
      rw [hr.nextFill_eq hbeat]
      simp only [Icache.nextGntBurst, hmem, hrdy, if_true, hop, hsize]
      split_ifs with hl
      · have hj : r.beats = Burst.len p.burst true 6 := by omega
        rw [hj] at hcount
        exact hcount.next_last _
      · exact hcount.next_lt (by omega)
  | none =>
      -- a beat that is not of the refill is an answer to the walker, and comes between refills
      have hnb : ((s.nextFill i).map LineRead.beats).getD 0 = s.beats := by
        simp only [nextFill, hbeat]
        split_ifs with hi
        · have hA : (s.cache.refillA i).isSome = true := (Bool.and_eq_true_iff.mp hi).1
          have hnone : s.fill = none := by
            cases hfl : s.fill with
            | none => rfl
            | some r => simp [Icache.refillA, (h.fill_of_some hfl).2.2] at hA
          simp [beats, hnone]
        · rfl
      rw [hnb]
      unfold Icache.nextGntBurst
      split
      case h_2 => exact h.burst
      case h_1 d hd =>
        split_ifs with hrdy
        · have hptw : i.memDPtw p = some d := by
            cases hs : d.source == p.ptwSourceBase
            · have hrefill : i.memDRefill p = some d := by
                simp [IcacheIn.memDRefill, hd, Option.filter, bne, hs]
              have hprog : s.cache.refillStateQ = .progress := by
                simpa [Icache.memDReady, hrefill] using hrdy
              simp [Icache.refillBeat, hprog, hrefill] at hbeat
            · simp [IcacheIn.memDPtw, hd, Option.filter, hs]
          obtain ⟨hreads, hsize⟩ := henv.asked d hptw
          have hzero : s.beats = 0 := by
            have hl : s.cache.tr.ptw.level ≠ none := fun hl => hreads (ho.rest hl).1
            obtain ⟨-, ⟨-, hs⟩, -⟩ := ho.active (Ptw.stateQ_ne_idle_of_level hl)
            have hf : s.cache.stateQ ≠ .fill := by
              rcases hs with hs | hs | hs | hs <;> simp [hs]
            simp [beats, h.fill_eq_none hf]
          have hcount := h.burst
          have hlen := hp.len_entry d.opcode.hasData
          rw [hzero] at hcount ⊢
          have hc : Burst.Counts p.burst s.cache.gntBurst (Burst.len p.burst d.opcode.hasData 1)
              (Burst.len p.burst d.opcode.hasData 1) := by
            rw [hlen]
            exact hcount.of_zero 0
          rw [hsize]
          exact hc.next_last _
        · exact h.burst

omit hp

/-! ### The access in flight -/

/-- The registers of an access in flight that waits for something. -/
theorem Ctl.mode_eq (h : s.Ctl) (hs : s.pending.isSome = true) :
    s.cache.atpModeQ = atpMode s.atp := by
  obtain ⟨f, hf⟩ := Option.isSome_iff_exists.mp hs
  rw [(h.request f hf).mode, (h.request f hf).atp]

/-- An access that does not rest is in flight. -/
theorem Ctl.pending_of_fill (h : s.Ctl) (hf : s.cache.stateQ = .fill) :
    s.started = true ∧ s.pending.isSome = true := by
  have hstart : s.started = true := by
    cases hs : s.started
    · simp [(h.unstarted hs).2.1] at hf
    · rfl
  refine ⟨hstart, ?_⟩
  rw [Option.isSome_iff_ne_none, ne_eq, h.started hstart, hf]
  decide

theorem Ctl.owned_step (h : s.Ctl) (ho : s.cache.tr.Owned p.busBytes s.lookup s.reads)
    (henv : s.Env mem pt root i) (hreg : s.Regular i) :
    (s.step i).cache.tr.Owned p.busBytes (s.step i).lookup (s.step i).reads := by
  have hasked : (s.cache.translationIn i).dValid = true → s.reads ≠ [] := by
    intro hd
    obtain ⟨d, hd⟩ := Option.isSome_iff_exists.mp hd
    exact (henv.asked d hd).1
  cases hq : i.reqValid
  · refine ho.step_hold hq hasked ?_ ?_ (fun hs ha hv => ?_) rfl
    · simp [lookup, step, Icache.step, Icache.nextAddressQ, hq]
    · simp [lookup, step, hq]
    · have hmode := (h.mode_eq hs.1).trans ha
      have hans := Icache.answers_of_searching hs.2 hmode hv
      exact ⟨by simpa [step, hq, hans] using hs.1, Icache.searching_hold hq hs.2 hmode hv⟩
  · refine ho.step_req (fun hs ha => ?_) fun htr => ?_
    · have hmode := (h.mode_eq hs.1).trans ha
      rcases h.accepting henv hq with hst | hst | ⟨-, hhit⟩ | ⟨-, hno⟩
      · rcases hs.2 with hs' | hs' | hs' | hs' <;> simp [hs'] at hst
      · rcases hs.2 with hs' | hs' | hs' | hs' <;> simp [hs'] at hst
      · by_contra hv
        simp only [Icache.fetchOutcome, hmode] at hhit
        split_ifs at hhit
        simp_all
      · have := hs.1
        simp [(h.unstarted hno).1] at this
    · have ha : atpMode i.reqAtp = true := by
        simpa [TranslationIn.translates, Icache.translationIn, hq] using htr
      rcases Icache.stateQ_step_req (p := p) (c := s.cache) hq with
        ⟨hearly, -⟩ | ⟨-, ⟨-, hst⟩ | ⟨-, hst | hst⟩⟩
      · exact .inr (hreg.earlyHits hq ha hearly)
      all_goals
        left
        simp [lookup, step, hq, ha, Icache.Searching, hst]

theorem Ctl.latched_step (h : s.Ctl)
    (hf' : (s.step i).cache.stateQ = .fill) (ha' : atpMode (s.step i).atp = true) :
    i.reqValid = false ∧ (s.step i).cache.tr.ppnValidLatch = true ∧
      (s.step i).cache.tr.tlbRespValid = false := by
  have hq : i.reqValid = false := by
    by_contra hq
    rcases Icache.stateQ_step_req (p := p) (c := s.cache) (by simpa using hq) with
      ⟨-, hx⟩ | ⟨-, ⟨-, hx⟩ | ⟨-, hx | hx⟩⟩ <;> simp [step, hx] at hf'
  have ha : atpMode s.atp = true := by simpa [step, hq] using ha'
  refine ⟨hq, ?_, Translation.tlbRespValid_step hq⟩
  refine (Translation.ppnValidLatch_step hq).trans ?_
  have hnext : s.cache.caseState i = .fill := by
    rw [← Icache.stateQ_step_hold hq]
    exact hf'
  by_cases hf : s.cache.stateQ = .fill
  · simp [Translation.ppnValid, (h.latched hf ha).1]
  · have hmiss := (Icache.caseState_eq_fill hf).mp hnext
    simp only [Icache.missReqValid, Bool.and_eq_true, beq_iff_eq] at hmiss
    have hsome : s.pending.isSome = true := by
      have hstart : s.started = true := by
        cases hs : s.started
        · simp [(h.unstarted hs).2.1] at hmiss
        · rfl
      rw [Option.isSome_iff_ne_none, ne_eq, h.started hstart, hmiss.1]
      decide
    have hmode := (h.mode_eq hsome).trans ha
    have ho := hmiss.2
    by_contra hv
    simp only [Icache.fetchOutcome, hmode] at ho
    split_ifs at ho
    simp_all

/-- The address of an access that has its translation does not change. -/
theorem phys_step (ho : s.cache.tr.Owned p.busBytes s.lookup s.reads) (hq : i.reqValid = false)
    (hv : atpMode s.atp = true → s.cache.tr.ppnValid = true) : (s.step i).phys = s.phys := by
  have hatp : (s.step i).atp = s.atp := by simp [step, hq]
  have haddr : (s.step i).cache.addressQ = s.cache.addressQ := by
    simp [step, Icache.step, Icache.nextAddressQ, hq]
  unfold phys
  rw [hatp, haddr]
  split_ifs with ha
  · have hppn : (s.step i).cache.tr.ppn = s.cache.tr.ppn := (ho.ppn_step hq (hv ha)).2
    rw [hppn]
  · rfl

/-- The address that the cache uses is that of the access. -/
theorem Env.refillReqAddress_eq (henv : s.Env mem pt root i) (hq : i.reqValid = false)
    (hs : s.pending.isSome = true) : s.cache.refillReqAddress i = s.phys / 2 ^ 6 := by
  rw [Icache.refillReqAddress, Icache.addressPhys, henv.atpHeld hq hs, phys]

/-- Only the access in the fill state has a line read in flight after the cycle. -/
theorem Ctl.stateQ_of_nextFill (h : s.Ctl) (henv : s.Env mem pt root i) {r : LineRead}
    (hr : s.nextFill i = some r) : s.cache.stateQ = .fill := by
  by_contra hf
  obtain ⟨hbeat, hA, -⟩ := h.refill_quiet henv hf
  simp [nextFill, hbeat, Icache.fillIssued, hA, h.fill_eq_none hf] at hr

include hp in
theorem Ctl.fill_step (h : s.Ctl) (ho : s.cache.tr.Owned p.busBytes s.lookup s.reads)
    (henv : s.Env mem pt root i) {r' : LineRead}
    (hr' : r' ∈ (s.step i).fill) : (s.step i).FillOk r' := by
  have hsome' : (s.step i).fill.isSome = true := Option.isSome_iff_exists.mpr ⟨r', hr'⟩
  obtain ⟨hm', -⟩ := (h.sent_step hp henv).mp hsome'
  have hf' := (h.miss_step henv).mp hm'
  have hnext : s.nextFill i = some r' := hr'
  have hf := h.stateQ_of_nextFill henv hnext
  have hq : i.reqValid = false := by
    by_contra hq
    exact h.stateQ_ne_fill henv (by simpa using hq) hf
  have hphys := phys_step ho hq fun ha => by
    simp [Translation.ppnValid, (h.latched hf ha).1]
  have hflushed : (s.step i).flushed = s.flushed := by
    simp [step, IcacheIn.flushValid, hq]
  have hnow : (s.step i).now = s.now + 1 := rfl
  cases hbeat : s.cache.refillBeat i with
  | some d =>
      obtain ⟨r, hr⟩ := h.beat hp henv hbeat
      have hok := h.fill r hr.fill
      rw [hr.nextFill_eq hbeat] at hnext
      split_ifs at hnext with hl
      simp only [Option.some.injEq] at hnext
      subst hnext
      have hstay : (s.step i).cache.refillStateQ = .progress := by
        simp only [step, Icache.step, Icache.nextRefillStateQ, hr.progress,
          hr.refillLast_eq hbeat, hl, if_false, Option.isSome_none, Bool.false_eq_true]
      refine ⟨by rw [hphys]; exact hok.line, ?_, ?_, by rw [hflushed]; exact hok.flushed, ?_⟩
      · have := hok.beats
        simp only
        omega
      · intro hidle
        simp [hstay] at hidle
      · have := hok.issued
        simp only [hnow]
        omega
  | none =>
      simp only [nextFill, hbeat] at hnext
      split_ifs at hnext with hi
      · simp only [Option.some.injEq] at hnext
        subst hnext
        have hadr := henv.refillReqAddress_eq hq (h.pending_of_fill hf).2
        have hpos : 0 < p.lineBeats := Nat.two_pow_pos _
        exact ⟨by rw [hphys]; exact hadr, hpos, fun _ => rfl, by rw [hflushed]; exact h.flushed,
          Nat.lt_succ_self _⟩
      · have hok := h.fill r' hnext
        refine ⟨by rw [hphys]; exact hok.line, hok.beats, fun hidle => ?_,
          by rw [hflushed]; exact hok.flushed, Nat.lt_succ_of_lt hok.issued⟩
        -- a refill without a beat in this cycle goes on
        refine hok.idle ?_
        by_contra hne
        have hprog : s.cache.refillStateQ = .progress := by
          cases hr : s.cache.refillStateQ
          · exact absurd hr hne
          · rfl
        have hlast : s.cache.refillLast i = none := by simp [Icache.refillLast, hbeat]
        simp [step, Icache.step, Icache.nextRefillStateQ, hprog, hlast] at hidle

omit hp

theorem slice_eq_zero {x w : ℕ} (hx : x < 2 ^ 64) (hw : w ≤ 63) (h : slice x 63 w = 0) :
    x < 2 ^ w := by
  have hdiv : x / 2 ^ w < 2 ^ (63 + 1 - w) := by
    apply Nat.div_lt_of_lt_mul
    rw [← Nat.pow_add, show w + (63 + 1 - w) = 64 by omega]
    exact hx
  rw [slice, Nat.mod_eq_of_lt hdiv] at h
  exact (Nat.div_eq_zero_iff_lt (Nat.two_pow_pos w)).mp h

include hp in
theorem Ctl.request_step (h : s.Ctl) (henv : s.Env mem pt root i) {f : FetchReq}
    (hf : f ∈ (s.step i).pending) : (s.step i).RequestOk f := by
  cases hq : i.reqValid
  · have hpend : (if s.cache.answers then none else s.pending) = some f := by
      simpa [step, hq] using hf
    split_ifs at hpend with hans
    have hok := h.request f hpend
    refine ⟨?_, ?_, ?_, fun _ hm => hok.canonical (fun hx => hans ?_) hm⟩
    · simpa [step, Icache.step, Icache.nextAddressQ, hq] using hok.address
    · simpa [step, Icache.step, hq] using hok.mode
    · simpa [step, hq] using hok.atp
    · simp [Icache.answers_iff, hx]
  · have hpend : FetchReq.mk i.reqPc i.reqAtp = f := by simpa [step, hq] using hf
    subst hpend
    refine ⟨?_, ?_, ?_, fun hx hm => ?_⟩
    · simp [step, Icache.step, Icache.nextAddressQ, hq]
    · simp [step, Icache.step, hq]
    · simp [step, hq]
    · rcases Icache.stateQ_step_req (p := p) (c := s.cache) hq with ⟨-, hx'⟩ | ⟨hearly, -⟩
      · exact absurd hx' hx
      · simp only [IcacheIn.faultsEarly, hm, Bool.false_eq_true, if_false, Bool.not_eq_false',
          IcacheIn.canonicalPhysical, beq_iff_eq] at hearly
        exact slice_eq_zero henv.width (by have := hp.physAddrLen; omega) hearly

theorem Ctl.started_step (h : s.Ctl) (hs' : (s.step i).started = true) :
    (s.step i).pending = none ↔ (s.step i).cache.stateQ = .idle := by
  cases hq : i.reqValid
  · have hs : s.started = true := by simpa [step, hq] using hs'
    have hpend : (s.step i).pending = if s.cache.answers then none else s.pending := by
      simp [step, hq]
    rw [hpend, show (s.step i).cache.stateQ = s.cache.caseState i from Icache.stateQ_step_hold hq,
      Icache.caseState_eq_idle, ← h.started hs]
    cases s.cache.answers <;> simp
  · have hne : (s.step i).cache.stateQ ≠ .idle := by
      rcases Icache.stateQ_step_req (p := p) (c := s.cache) hq with
        ⟨-, hx⟩ | ⟨-, ⟨-, hx⟩ | ⟨-, hx | hx⟩⟩ <;> simp [step, hx]
    simp [step, hq] at hne ⊢
    exact hne

theorem Ctl.unstarted_step (h : s.Ctl) (hreg : s.Regular i) (hs' : (s.step i).started = false) :
    (s.step i).pending = none ∧ (s.step i).cache.stateQ = .flush ∧
      ((s.step i).cache.flushStateQ = .reset ∨ (s.step i).cache.flushStateQ = .done) := by
  obtain ⟨hs, hq⟩ : s.started = false ∧ i.reqValid = false := by simpa [step] using hs'
  obtain ⟨hpend, hst, hfl⟩ := h.unstarted hs
  have hready : s.cache.flushReady = false := by
    cases hr : s.cache.flushReady
    · rfl
    · simp [hreg.firstRequest hs hr] at hq
  refine ⟨?_, ?_, ?_⟩
  · simp [step, hq, hpend]
  · refine (Icache.stateQ_step_hold hq).trans ?_
    simp [Icache.caseState, hst, hready]
  · have hnext : (s.step i).cache.flushStateQ = s.cache.nextFlushStateQ i := rfl
    rw [hnext]
    rcases hfl with hfl | hfl
    · cases hlast : s.cache.flushLast <;> simp [Icache.nextFlushStateQ, hfl, hlast]
    · have hp : s.cache.flushTlbPendingQ = true := by
        simpa [Icache.flushReady, hfl] using hready
      simp [Icache.nextFlushStateQ, hfl, hp]

/-! ### The flush machine -/

theorem Ctl.flushTracker_step (h : s.Ctl) :
    (s.step i).cache.flushTrackerValid = ((s.step i).cache.flushStateQ == .reset) := by
  have ht := h.flushTracker
  simp only [step, Icache.step, Icache.nextFlushTrackerValid, Icache.nextFlushStateQ]
  cases hf : s.cache.flushStateQ <;> simp only [hf] at ht ⊢
  · cases s.cache.flushLast <;> simp [ht]
  · cases i.flushValid <;> simp [ht]
  · cases s.cache.flushLocking i <;> simp [ht]
  · cases s.cache.flushTlbPendingQ <;> simp [ht]

/-- The lock is free when the flush machine asks for it. -/
theorem Ctl.flushLocking_of_lock (h : s.Ctl) (henv : s.Env mem pt root i)
    (hl : s.cache.flushStateQ = .lock) : s.cache.flushLocking i = true := by
  have hf : s.cache.stateQ ≠ .fill := by
    rcases h.flushLock hl with hs | hs <;> simp [hs]
  have hr := h.refillStateQ_idle hf
  obtain ⟨-, -, hacq, -⟩ := h.refill_quiet henv hf
  simp [Icache.flushLocking, Icache.nothingInProgress, h.tracker, hr, h.flushTracker, hl, hacq,
    Icache.flushLockAcq]

theorem Ctl.flushLock_step (h : s.Ctl) (henv : s.Env mem pt root i)
    (hl' : (s.step i).cache.flushStateQ = .lock) :
    (s.step i).cache.stateQ = .flush ∨ (s.step i).cache.stateQ = .exception := by
  have hnext : s.cache.nextFlushStateQ i = .lock := hl'
  cases hf : s.cache.flushStateQ <;> simp only [Icache.nextFlushStateQ, hf] at hnext
  case reset => split_ifs at hnext
  case idle =>
      split_ifs at hnext with hv
      obtain ⟨hq, hfence⟩ := Bool.and_eq_true_iff.mp hv
      rcases Icache.stateQ_step_req (p := p) (c := s.cache) hq with
        ⟨-, hx⟩ | ⟨-, ⟨-, hx⟩ | ⟨hno, -⟩⟩
      · exact .inr hx
      · exact .inl hx
      · simp [hfence] at hno
  case lock => simp [h.flushLocking_of_lock henv hf] at hnext
  case done => split_ifs at hnext

theorem Ctl.flushIdle_step (h : s.Ctl) (hreg : s.Regular i)
    (hst' : (s.step i).cache.stateQ = .flush) : (s.step i).cache.flushStateQ ≠ .idle := by
  have hnext : (s.step i).cache.flushStateQ = s.cache.nextFlushStateQ i := rfl
  rw [hnext]
  cases hq : i.reqValid
  · have hcase : s.cache.caseState i = .flush := by
      rw [← Icache.stateQ_step_hold hq]
      exact hst'
    have hst := Icache.caseState_eq_flush hcase
    cases hf : s.cache.flushStateQ
    case reset => cases hl : s.cache.flushLast <;> simp [Icache.nextFlushStateQ, hf, hl]
    case idle => exact absurd hf (h.flushIdle hst.1)
    case lock => cases hl : s.cache.flushLocking i <;> simp [Icache.nextFlushStateQ, hf, hl]
    case done =>
        have hp : s.cache.flushTlbPendingQ = true := by
          simpa [Icache.flushReady, hf] using hst.2
        simp [Icache.nextFlushStateQ, hf, hp]
  · rcases Icache.stateQ_step_req (p := p) (c := s.cache) hq with
      ⟨-, hx⟩ | ⟨-, ⟨hfence, -⟩ | ⟨-, hx | hx⟩⟩
    · simp [step, hx] at hst'
    · have hv : i.flushValid = true := by simp [IcacheIn.flushValid, hq, hfence]
      cases hf : s.cache.flushStateQ
      case reset => cases hl : s.cache.flushLast <;> simp [Icache.nextFlushStateQ, hf, hl]
      case idle => simp [Icache.nextFlushStateQ, hf, hv]
      case lock => cases hl : s.cache.flushLocking i <;> simp [Icache.nextFlushStateQ, hf, hl]
      case done => exact absurd hf (hreg.fenceTaken hv).1
    all_goals simp [step, hx] at hst'

/-- The flush machine has nothing to do with the tags while an access is looked up without
a conflict, and while a line is read. -/
theorem Ctl.flush_settled (h : s.Ctl)
    (hs : s.cache.stateQ = .fetch ∧ s.cache.nothingInProgress = true ∨ s.cache.stateQ = .fill) :
    s.cache.flushStateQ = .idle ∨ s.cache.flushStateQ = .done := by
  rcases hs with ⟨hst, hn⟩ | hst
  · cases hf : s.cache.flushStateQ
    case reset => simp [Icache.nothingInProgress, h.flushTracker, hf] at hn
    case idle => exact .inl rfl
    case lock => rcases h.flushLock hf with hs | hs <;> simp [hst] at hs
    case done => exact .inr rfl
  · exact h.flushFill hst

theorem nothingInProgress_of_miss {c : Icache p} (hm : c.missReqValid = true) :
    c.stateQ = .fetch ∧ c.nothingInProgress = true := by
  simp only [Icache.missReqValid, Bool.and_eq_true, beq_iff_eq] at hm
  refine ⟨hm.1, ?_⟩
  cases hn : c.nothingInProgress
  · simp [Icache.fetchOutcome, hn] at hm
  · rfl

theorem Ctl.flushFill_step (h : s.Ctl) (hq : i.reqValid = false)
    (hst' : (s.step i).cache.stateQ = .fill) :
    (s.step i).cache.flushStateQ = .idle ∨ (s.step i).cache.flushStateQ = .done := by
  have hnext : (s.step i).cache.flushStateQ = s.cache.nextFlushStateQ i := rfl
  have hcase : s.cache.caseState i = .fill := by
    rw [← Icache.stateQ_step_hold hq]
    exact hst'
  have hsettled : s.cache.flushStateQ = .idle ∨ s.cache.flushStateQ = .done := by
    apply h.flush_settled
    by_cases hf : s.cache.stateQ = .fill
    · exact .inr hf
    · exact .inl (nothingInProgress_of_miss ((Icache.caseState_eq_fill hf).mp hcase))
  rw [hnext]
  rcases hsettled with hf | hf
  · simp [Icache.nextFlushStateQ, hf, IcacheIn.flushValid, hq]
  · cases hp : s.cache.flushTlbPendingQ <;> simp [Icache.nextFlushStateQ, hf, hp]

theorem Ctl.flushIndex_step (h : s.Ctl) :
    (s.step i).cache.flushIndexQ < 2 ^ p.setsWidth ∧
      ((s.step i).cache.flushStateQ ≠ .reset → (s.step i).cache.flushIndexQ = 0) := by
  have hidx : (s.step i).cache.flushIndexQ = s.cache.nextFlushIndexQ := rfl
  have hnext : (s.step i).cache.flushStateQ = s.cache.nextFlushStateQ i := rfl
  have hpos := Nat.two_pow_pos p.setsWidth
  obtain ⟨hlt, hz⟩ := h.flushIndex
  rw [hidx, hnext]
  cases hf : s.cache.flushStateQ
  case reset =>
      refine ⟨by simpa [Icache.nextFlushIndexQ, hf] using Nat.mod_lt _ hpos, fun hne => ?_⟩
      have hlast : s.cache.flushIndexQ = 2 ^ p.setsWidth - 1 := by
        by_contra hl
        simp [Icache.nextFlushStateQ, hf, Icache.flushLast, hl] at hne
      simp [Icache.nextFlushIndexQ, hf, hlast, Nat.sub_add_cancel hpos]
  all_goals
    have h0 := hz (by simp [hf])
    simp [Icache.nextFlushIndexQ, hf, h0, hpos]

include hp in
/-- One regular cycle. -/
theorem ctl_step (h : s.Ctl) (ho : s.cache.tr.Owned p.busBytes s.lookup s.reads)
    (henv : s.Env mem pt root i) (hreg : s.Regular i) : (s.step i).Ctl where
  unstarted := h.unstarted_step hreg
  started := h.started_step
  request := fun _ => h.request_step hp henv
  miss := h.miss_step henv
  latched := fun hf ha => (h.latched_step hf ha).2
  arb := Icache.memAArb_locked_step h.arb
  sent := h.sent_step hp henv
  tracker := h.tracker_step
  progress := h.progress_step hp henv
  fill := fun _ => h.fill_step hp ho henv
  burst := h.burst_step hp ho henv
  flushTracker := h.flushTracker_step
  flushIdle := h.flushIdle_step hreg
  flushLock := h.flushLock_step henv
  flushFill := by
    intro hf'
    refine h.flushFill_step ?_ hf'
    by_contra hq
    rcases Icache.stateQ_step_req (p := p) (c := s.cache) (by simpa using hq) with
      ⟨-, hx⟩ | ⟨-, ⟨-, hx⟩ | ⟨-, hx | hx⟩⟩ <;> simp [step, hx] at hf'
  flushIndex := h.flushIndex_step
  flushed := by
    have := h.flushed
    simp only [step]
    split_ifs <;> omega

theorem ctl_of_isReset (h : s.IsReset) : s.Ctl := by
  have hc := h.cache
  have hpos := Nat.two_pow_pos p.setsWidth
  refine
    { unstarted := fun _ => ⟨h.pending, hc.stateQ, .inl hc.flushStateQ⟩
      started := fun hs => absurd hs (by simp [h.started])
      request := fun f hf => absurd hf (by simp [h.pending])
      miss := by simp [hc.missStateQ, hc.stateQ]
      latched := fun hf => absurd hf (by simp [hc.stateQ])
      arb := by simp [hc.memAArb, ChannelArb.reset]
      sent := by simp [h.fill, hc.missStateQ]
      tracker := by simp [hc.refillTrackerValid, hc.refillStateQ]
      progress := fun hr => absurd hr (by simp [hc.refillStateQ])
      fill := fun r hr => absurd hr (by simp [h.fill])
      burst := ?_
      flushTracker := by simp [hc.flushTrackerValid, hc.flushStateQ]
      flushIdle := fun _ => by simp [hc.flushStateQ]
      flushLock := fun hl => absurd hl (by simp [hc.flushStateQ])
      flushFill := fun hf => absurd hf (by simp [hc.stateQ])
      flushIndex := ⟨by simp [hc.flushIndexQ, hpos], fun _ => hc.flushIndexQ⟩
      flushed := by simp [h.flushed] }
  rw [hc.gntBurst]
  simpa [beats, h.fill] using Burst.counts_reset p.burst _

end Step

end IcacheMem

end Muntjac.Core

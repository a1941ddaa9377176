import Muntjac.Core.IcacheAnswer

/-!
# Every request of the instruction cache is answered

Along a run of regular cycles in which the memory goes on accepting and answering reads,
the access in flight passes a few stages: the flush that it waits for ends, its
translation comes, its line is refilled, and the fetch after the refill hits.  Each
stage leads to the next one, and no stage is entered again before the answer.

## Main definitions

* `IcacheMem.Run` — a run from reset of regular cycles.
* `IcacheMem.Fair` — channel A is ready again and again, and every read is answered.
* `IcacheMem.Run.answered` — every request is answered.
-/

namespace Muntjac.Core

open Sync Tl

namespace IcacheMem
variable {p : IcacheParams}

/-- What is needed beyond `Inv` for the cache not to wait in vain. -/
structure Live (s : IcacheMem p) : Prop where
  underway : s.pending.isSome = true → atpMode s.atp = true → s.cache.stateQ ≠ .exception →
    s.cache.tr.Underway
  waitTlb : s.cache.stateQ = .waitTlb → s.cache.atpModeQ = true
  tlb : s.cache.tr.tlb.Wf p.tlbSetsWidth
  flush : s.cache.flushTlbPendingQ = true → s.cache.tr.tlb.FlushPending

section Step
variable {mem : ℕ → ℕ → ℕ} {pt : ℕ → ℕ} {root : ℕ} {s : IcacheMem p} {i : IcacheIn}

theorem Live.underway_step (h : s.Live) (hs' : (s.step i).pending.isSome = true)
    (ha' : atpMode (s.step i).atp = true) : (s.step i).cache.tr.Underway := by
  cases hq : i.reqValid
  · have hans : s.cache.answers = false := by
      cases hans : s.cache.answers
      · rfl
      · simp [step, hq, hans] at hs'
    have hs : s.pending.isSome = true := by simpa [step, hq, hans] using hs'
    have ha : atpMode s.atp = true := by simpa [step, hq] using ha'
    have hx : s.cache.stateQ ≠ .exception := by
      intro hx
      simp [Icache.answers, Icache.exValid, hx] at hans
    exact (h.underway hs ha hx).step hq
  · have ha : atpMode i.reqAtp = true := by simpa [step, hq] using ha'
    refine Translation.underway_step_req ?_
    simp [TranslationIn.translates, Icache.translationIn, hq, ha]

theorem Live.waitTlb_step (h : s.Live) (hs' : (s.step i).cache.stateQ = .waitTlb) :
    (s.step i).cache.atpModeQ = true := by
  cases hq : i.reqValid
  · have hcase : s.cache.caseState i = .waitTlb := by
      rw [← Icache.stateQ_step_hold hq]
      exact hs'
    have hmode : (s.step i).cache.atpModeQ = s.cache.atpModeQ := by simp [step, Icache.step, hq]
    rw [hmode]
    cases hs : s.cache.stateQ <;> simp only [Icache.caseState, hs] at hcase
    case fetch =>
        cases ho : s.cache.fetchOutcome <;> simp only [ho, reduceCtorEq] at hcase
        cases hm : s.cache.atpModeQ
        · simp only [Icache.fetchOutcome, hm, Bool.false_and] at ho
          split_ifs at ho
          all_goals simp_all
        · rfl
    case fill =>
        cases hm : s.cache.missResp i with
        | none => simp [hm] at hcase
        | some b => cases b <;> simp [hm] at hcase
    case waitTlb => exact h.waitTlb hs
    all_goals
      try split_ifs at hcase
      all_goals simp at hcase
  · rcases Icache.stateQ_step_req (p := p) (c := s.cache) hq with
      ⟨-, hx⟩ | ⟨-, ⟨-, hx⟩ | ⟨-, hx | hx⟩⟩ <;> simp [step, hx] at hs'

theorem live_step (h : s.Live) (hreg : s.Regular i) : (s.step i).Live where
  underway hs ha _ := h.underway_step hs ha
  waitTlb := h.waitTlb_step
  tlb := Tlb.wf_step h.tlb
  flush := by
    intro hp'
    have hnext : s.cache.nextFlushTlbPendingQ i = true := hp'
    change (s.cache.tr.tlb.step p.tlbSetsWidth (s.cache.tr.tlbIn _)).FlushPending
    unfold Icache.nextFlushTlbPendingQ at hnext
    split_ifs at hnext with hidle
    · obtain ⟨hfl, hv⟩ := Bool.and_eq_true_iff.mp hidle
      exact Tlb.flushPending_of_req h.tlb hv ((hreg.fenceTaken hv).2 (by simpa using hfl))
    · simp only [Bool.and_eq_true, Bool.not_eq_true'] at hnext
      exact ((h.flush hnext.1).step h.tlb hnext.2).1

theorem live_of_isReset (h : s.IsReset) : s.Live where
  underway := by simp [h.pending]
  waitTlb := by simp [h.cache.stateQ]
  tlb := Tlb.wf_of_isReset h.cache.tr.1
  flush := by simp [h.cache.flushTlbPendingQ]

/-! ## Stages of an access -/

/-- Whatever flush there was, the access does not wait for it any more. -/
structure Free (s : IcacheMem p) : Prop where
  pending : s.pending.isSome = true
  settled : s.Settled
  stateQ : s.cache.stateQ ≠ .flush

/-- The access has its translation. -/
structure Calm (s : IcacheMem p) : Prop extends s.Free where
  translated : atpMode s.atp = true → s.cache.tr.ppnValid = true

/-- The line of the access is in the tag array. -/
def Installed (s : IcacheMem p) : Prop :=
  ∃ k, s.cache.tagRam.mem (s.phys / 2 ^ 6 % 2 ^ p.setsWidth) k =
    ⟨s.phys / 2 ^ 6 / 2 ^ p.setsWidth, true⟩

/-- The frontend waits for the answer. -/
theorem Env.hold (henv : s.Env mem pt root i) (hs : s.pending.isSome = true)
    (hans : s.cache.answers = false) :
    i.reqValid = false ∧ (s.step i).pending.isSome = true ∧ (s.step i).atp = s.atp := by
  have hq : i.reqValid = false := by
    cases hq : i.reqValid
    · rfl
    · rcases henv.waits hq with hn | ha
      · simp [hn] at hs
      · simp [hans] at ha
  exact ⟨hq, by simpa [step, hq, hans] using hs, by simp [step, hq]⟩

/-- A settled flush machine stays so without a fence. -/
theorem Settled.step (h : s.Settled) (hq : i.reqValid = false) : (s.step i).Settled := by
  have hnext : (s.step i).cache.flushStateQ = s.cache.nextFlushStateQ i := rfl
  rw [Settled, hnext]
  rcases h with hf | hf
  · simp [Icache.nextFlushStateQ, hf, IcacheIn.flushValid, hq]
  · cases hp : s.cache.flushTlbPendingQ <;> simp [Icache.nextFlushStateQ, hf, hp]

theorem Free.step (h : s.Free) (henv : s.Env mem pt root i) (hans : s.cache.answers = false) :
    (s.step i).Free := by
  obtain ⟨hq, hs', -⟩ := henv.hold h.pending hans
  refine ⟨hs', h.settled.step hq, fun hf' => ?_⟩
  have hcase : s.cache.caseState i = .flush := by
    rw [← Icache.stateQ_step_hold hq]
    exact hf'
  exact h.stateQ (Icache.caseState_eq_flush hcase).1

theorem Calm.step (h : s.Calm) (ho : s.cache.tr.Owned p.busBytes s.lookup s.reads)
    (henv : s.Env mem pt root i) (hans : s.cache.answers = false) : (s.step i).Calm := by
  obtain ⟨hq, -, hatp⟩ := henv.hold h.pending hans
  refine ⟨h.toFree.step henv hans, fun ha => ?_⟩
  rw [hatp] at ha
  exact (ho.ppn_step hq (h.translated ha)).1

/-- Nothing stands in the way of an access that is free and does not refill. -/
theorem Free.nothingInProgress (h : s.Free) (hc : s.Ctl) (hf : s.cache.stateQ ≠ .fill) :
    s.cache.nothingInProgress = true := by
  have hr := hc.refillStateQ_idle hf
  rcases h.settled with hfl | hfl <;>
    simp [Icache.nothingInProgress, hc.tracker, hr, hc.flushTracker, hfl]

/-- A replay reads both arrays. -/
theorem Free.replay (h : s.Free) (hc : s.Ctl) (henv : s.Env mem pt root i)
    (hst : s.cache.stateQ = .replay) :
    (s.step i).cache.stateQ = .fetch ∧ (s.step i).cache.tagRam.mem = s.cache.tagRam.mem := by
  have hans : s.cache.answers = false := by
    simp [Icache.answers, Icache.respValid, Icache.exValid, hst]
  obtain ⟨hq, -⟩ := henv.hold h.pending hans
  have hf : s.cache.stateQ ≠ .fill := by simp [hst]
  have hn := h.nothingInProgress hc hf
  obtain ⟨-, -, -, htw, hdw⟩ := hc.refill_quiet henv hf
  have hreset : s.cache.flushStateQ ≠ .reset := by
    rcases h.settled with hfl | hfl <;> simp [hfl]
  have hfw : s.cache.flushTagWrite = none := by simp [Icache.flushTagWrite, hreset]
  refine ⟨?_, Icache.mem_step_of_quiet htw hreset⟩
  refine (Icache.stateQ_step_hold hq).trans ?_
  simp [Icache.caseState, hst, hn, Icache.accessTagReadGnt, Icache.accessDataReadGnt,
    Icache.accessReadReq, htw, hdw, hfw]

/-- A fetch with a translation is decided. -/
theorem Calm.fetch (h : s.Calm) (hc : s.Ctl) (hst : s.cache.stateQ = .fetch) :
    s.cache.fetchOutcome = .pageFault ∨ s.cache.fetchOutcome = .hit ∨
      s.cache.fetchOutcome = .miss := by
  have hn := h.toFree.nothingInProgress hc (by simp [hst])
  have hmode := hc.mode_eq h.pending
  cases ha : atpMode s.atp
  · rw [ha] at hmode
    cases hh : (firstIdx s.cache.hit).isSome <;> simp [Icache.fetchOutcome, hn, hmode, hh]
  · have hv := h.translated ha
    simp only [Icache.fetchOutcome, hn, hv]
    split_ifs <;> simp_all

variable (hp : p.Legal)
include hp

/-- The line that a fetch compares the tags with. -/
theorem Ctl.latchPhys_eq (h : s.Ctl) (hc : s.Contents mem) (hst : s.cache.stateQ = .fetch)
    (hs : s.pending.isSome = true) : s.cache.tagReadAddrLatchPhys = s.phys / 2 ^ 6 := by
  have hok := hc.fetched hst
  have hmode := h.mode_eq hs
  have hpa := hp.physAddrLen
  have hpow : 2 ^ p.physAddrLen = 2 ^ 6 * 2 ^ (p.physAddrLen - 6) := by
    rw [← Nat.pow_add]
    congr 1
    omega
  have hlatch : ∀ k ≤ p.physAddrLen - 6,
      s.cache.tagReadAddrLatch % 2 ^ k = s.cache.addressQ / 2 ^ 6 % 2 ^ k := by
    intro k hk
    rw [hok.latch, slice, mod_two_pow_mod]
    have := Nat.le_max_right p.virtAddrLen p.physAddrLen
    omega
  rw [Icache.tagReadAddrLatchPhys, phys, hok.physical, hmode]
  cases atpMode s.atp
  · simp only [Bool.not_false, if_true, Bool.false_eq_true, if_false]
    rw [cat_div_mod, hlatch _ le_rfl, hpow, Nat.mod_mul_right_div_self]
  · simp only [Bool.not_true, Bool.false_eq_true, if_false, if_true]
    rw [hlatch 6 (by omega), hpow, Nat.mod_mul_right_div_self, cat_div_two_pow (by decide)]
    congr 2
    omega

/-- The fetch of a line that is in the tag array does not miss. -/
theorem Ctl.fetch_installed (h : s.Ctl) (hc : s.Contents mem) (hst : s.cache.stateQ = .fetch)
    (hs : s.pending.isSome = true) (hin : s.Installed) : s.cache.fetchOutcome ≠ .miss := by
  obtain ⟨k, hk⟩ := hin
  have hphys := h.latchPhys_eq hp hc hst hs
  have hset : s.cache.tagReadAddrLatch % 2 ^ p.setsWidth = s.phys / 2 ^ 6 % 2 ^ p.setsWidth := by
    rw [← Icache.latchPhys_mod hp, hphys]
  have hhit : s.cache.hit k = true := by
    simp only [Icache.hit, (hc.fetched hst).tags, hset, hk, hphys, Bool.true_and, beq_self_eq_true]
  have hsome : (firstIdx s.cache.hit).isSome = true := firstIdx_isSome.mpr ⟨k, hhit⟩
  intro hmiss
  unfold Icache.fetchOutcome at hmiss
  split_ifs at hmiss

/-- The last beat of a refill leads to a replay of the access or to its exception. -/
theorem Ctl.refill_ends (h : s.Ctl) (ho : s.cache.tr.Owned p.busBytes s.lookup s.reads)
    (henv : s.Env mem pt root i) {d : DMsg} (hd : s.cache.refillLast i = some d) :
    if d.denied then (s.step i).cache.stateQ = .exception ∧
        (s.step i).cache.exCodeQ = .instrAccessFault
      else (s.step i).cache.stateQ = .replay ∧ (s.step i).Installed := by
  obtain ⟨r, hr, -⟩ := h.last hp henv hd
  obtain ⟨hf, hm, -⟩ := h.fill_of_some hr.fill
  have hs := (h.pending_of_fill hf).2
  have hans : s.cache.answers = false := by
    simp [Icache.answers, Icache.respValid, Icache.exValid, hf]
  obtain ⟨hq, -⟩ := henv.hold hs hans
  have hresp : s.cache.missResp i = some d.denied := by simp [Icache.missResp, hm, hd]
  have hnext : (s.step i).cache.stateQ = s.cache.caseState i := Icache.stateQ_step_hold hq
  cases hden : d.denied
  · rw [hden] at hresp
    refine ⟨by rw [hnext]; simp [Icache.caseState, hf, hresp], s.cache.wayQ, ?_⟩
    have hphys := phys_step ho hq fun ha => by simp [Translation.ppnValid, (h.latched hf ha).1]
    rw [hphys, ← henv.refillReqAddress_eq hq hs]
    refine (Icache.mem_step_refill hd hden _ _).trans ?_
    simp
  · rw [hden] at hresp
    refine ⟨by rw [hnext]; simp [Icache.caseState, hf, hresp], ?_⟩
    simp [step, Icache.step, Icache.nextExCodeQ, hq, hf, hresp]

end Step

/-! ## Runs -/

/-- A run from reset of regular cycles, with a TLB that powers up without valid entries. -/
structure Run (mem : ℕ → ℕ → ℕ) (pt : ℕ → ℕ) (root : ℕ) (s₀ : IcacheMem p) (inp : ℕ → IcacheIn) :
    Prop where
  legal : p.Legal
  reset : s₀.IsReset
  empty : ∀ vpn ppn prot, ¬s₀.cache.tr.tlb.Holds p.tlbSetsWidth vpn ppn prot
  env : ∀ n, (after s₀ inp n).Env mem pt root (inp n)
  regular : ∀ n, (after s₀ inp n).Regular (inp n)

/-- The memory accepts reads again and again, and answers every read. -/
structure Fair (s₀ : IcacheMem p) (inp : ℕ → IcacheIn) : Prop where
  ready : Recurs fun n => (inp n).memAReady = true
  entry : ∀ n, (after s₀ inp n).reads ≠ [] → ∃ m, n ≤ m ∧ ((inp m).memDPtw p).isSome = true
  line : ∀ n, (after s₀ inp n).fill.isSome = true →
    ∃ m, n ≤ m ∧ ((inp m).memDRefill p).isSome = true

section Run
variable {mem : ℕ → ℕ → ℕ} {pt : ℕ → ℕ} {root : ℕ} {s₀ : IcacheMem p} {inp : ℕ → IcacheIn}

theorem after_succ (n : ℕ) : after s₀ inp (n + 1) = (after s₀ inp n).step (inp n) := rfl

theorem Run.inv (h : Run mem pt root s₀ inp) (n : ℕ) : (after s₀ inp n).Inv mem pt root := by
  induction n with
  | zero => exact inv_of_isReset h.reset h.empty
  | succ n ih => exact inv_step h.legal ih (h.env n) (h.regular n)

theorem Run.live (h : Run mem pt root s₀ inp) (n : ℕ) : (after s₀ inp n).Live := by
  induction n with
  | zero => exact live_of_isReset h.reset
  | succ n ih => exact live_step ih (h.regular n)

/-- The cache answers in cycle `n`. -/
def AnswersAt (s₀ : IcacheMem p) (inp : ℕ → IcacheIn) (n : ℕ) : Prop :=
  (after s₀ inp n).cache.answers = true

/-! ### The flush -/

/-- The number of cycles that the sweep of the tags takes. -/
def sweepRank (s : IcacheMem p) : ℕ :=
  match s.cache.flushStateQ with
  | .lock => 2 ^ p.setsWidth + 1
  | .reset => 2 ^ p.setsWidth - s.cache.flushIndexQ
  | .idle | .done => 0

theorem Run.leadsTo_settled (h : Run mem pt root s₀ inp) :
    LeadsTo (fun n => (after s₀ inp n).pending.isSome = true) fun n =>
      AnswersAt s₀ inp n ∨ (after s₀ inp n).pending.isSome = true ∧ (after s₀ inp n).Settled := by
  refine .of_countdown (fun n => (after s₀ inp n).sweepRank) fun n hs => ?_
  have hc := (h.inv n).ctl
  cases hans : (after s₀ inp n).cache.answers
  swap
  · exact .inl (.inl hans)
  obtain ⟨hq, hs', -⟩ := (h.env n).hold hs hans
  have hnext : (after s₀ inp (n + 1)).cache.flushStateQ =
      (after s₀ inp n).cache.nextFlushStateQ (inp n) := rfl
  have hidx : (after s₀ inp (n + 1)).cache.flushIndexQ =
      (after s₀ inp n).cache.nextFlushIndexQ := rfl
  cases hf : (after s₀ inp n).cache.flushStateQ
  case idle => exact .inl (.inr ⟨hs, .inl hf⟩)
  case done => exact .inl (.inr ⟨hs, .inr hf⟩)
  case lock =>
      have hreset : (after s₀ inp (n + 1)).cache.flushStateQ = .reset := by
        rw [hnext]
        simp [Icache.nextFlushStateQ, hf, hc.flushLocking_of_lock (h.env n) hf]
      refine .inr (.inr ⟨hs', ?_⟩)
      simp only [sweepRank, hf, hreset]
      have := Nat.two_pow_pos p.setsWidth
      omega
  case reset =>
      by_cases hl : (after s₀ inp n).cache.flushIndexQ = 2 ^ p.setsWidth - 1
      · have hdone : (after s₀ inp (n + 1)).cache.flushStateQ = .done := by
          rw [hnext]
          simp [Icache.nextFlushStateQ, hf, Icache.flushLast, hl]
        exact .inr (.inl (.inr ⟨hs', .inr hdone⟩))
      · have hreset : (after s₀ inp (n + 1)).cache.flushStateQ = .reset := by
          rw [hnext]
          simp [Icache.nextFlushStateQ, hf, Icache.flushLast, hl]
        have hlt := hc.flushIndex.1
        have hmod : ((after s₀ inp n).cache.flushIndexQ + 1) % 2 ^ p.setsWidth =
            (after s₀ inp n).cache.flushIndexQ + 1 := Nat.mod_eq_of_lt (by omega)
        refine .inr (.inr ⟨hs', ?_⟩)
        simp only [sweepRank, hf, hreset, hidx, Icache.nextFlushIndexQ, beq_self_eq_true, if_true,
          hmod]
        omega

/-- The number of cycles until the flush of the TLB answers. -/
def tlbRank (s : IcacheMem p) : ℕ :=
  if s.cache.flushTlbPendingQ then s.cache.tr.tlb.flushRank p.tlbSetsWidth + 1 else 0

theorem Run.leadsTo_free (h : Run mem pt root s₀ inp) :
    LeadsTo (fun n => (after s₀ inp n).pending.isSome = true ∧ (after s₀ inp n).Settled) fun n =>
      AnswersAt s₀ inp n ∨ (after s₀ inp n).Free := by
  refine .of_countdown (fun n => (after s₀ inp n).tlbRank) fun n ⟨hs, hset⟩ => ?_
  have hc := (h.inv n).ctl
  by_cases hst : (after s₀ inp n).cache.stateQ = .flush
  swap
  · exact .inl (.inr ⟨hs, hset, hst⟩)
  have hans : (after s₀ inp n).cache.answers = false := by
    simp [Icache.answers, Icache.respValid, Icache.exValid, hst]
  obtain ⟨hq, hs', -⟩ := (h.env n).hold hs hans
  have hset' : (after s₀ inp (n + 1)).Settled := hset.step hq
  have hdone : (after s₀ inp n).cache.flushStateQ = .done :=
    hset.resolve_left (hc.flushIdle hst)
  have hnext : (after s₀ inp (n + 1)).cache.flushTlbPendingQ =
      (after s₀ inp n).cache.nextFlushTlbPendingQ (inp n) := rfl
  have hstate : (after s₀ inp (n + 1)).cache.stateQ = (after s₀ inp n).cache.caseState (inp n) :=
    Icache.stateQ_step_hold hq
  cases hp : (after s₀ inp n).cache.flushTlbPendingQ
  · refine .inr (.inl (.inr ⟨hs', hset', ?_⟩))
    rw [hstate]
    simp [Icache.caseState, hst, Icache.flushReady, hdone, hp]
  · right; right
    refine ⟨⟨hs', hset'⟩, ?_⟩
    cases hr : (after s₀ inp n).cache.tr.tlb.flushResp p.tlbSetsWidth
    · have hrank := (((h.live n).flush hp).step (i := (after s₀ inp n).cache.tr.tlbIn
        ((after s₀ inp n).cache.translationIn (inp n))) (h.live n).tlb hr).2
      simp only [tlbRank, hnext, Icache.nextFlushTlbPendingQ, hdone, hp, hr]
      simpa [after_succ, step, Icache.step, Translation.step] using hrank
    · simp [tlbRank, hnext, Icache.nextFlushTlbPendingQ, hdone, hp, hr]

/-! ### The translation -/

/-- The walker waits for the entry of level `l`; `unsent` says whether its read is not
accepted yet. -/
structure WalkAt (l : ℕ) (unsent : Bool) (s : IcacheMem p) : Prop extends s.Free where
  level : s.cache.tr.ptw.level = some l
  unsent : s.cache.tr.ptw.reqValidQ = unsent

section Walk
variable {s : IcacheMem p} {i : IcacheIn} {l : ℕ} {b : Bool}

/-- An access whose walk is in progress goes on without an answer. -/
theorem WalkAt.hold (hw : s.WalkAt l b) (h : s.Inv mem pt root) (henv : s.Env mem pt root i) :
    i.reqValid = false ∧ s.cache.tr.tlbMiss = false ∧ (s.step i).Free := by
  have hl : s.cache.tr.ptw.level ≠ none := by simp [hw.level]
  obtain ⟨htv, ⟨-, hse⟩, ha, -⟩ := h.owned.active (Ptw.stateQ_ne_idle_of_level hl)
  have hv := h.owned.ppnValid_of_level hl
  have hans := Icache.answers_of_searching hse ((h.ctl.mode_eq hw.pending).trans ha) hv
  exact ⟨(henv.hold hw.pending hans).1, by simp [Translation.tlbMiss, htv],
    hw.toFree.step henv hans⟩

/-- Nothing comes back while the walker waits. -/
theorem WalkAt.wait (hw : s.WalkAt l b) (h : s.Inv mem pt root) (henv : s.Env mem pt root i)
    (ha : s.cache.tr.answered (s.cache.translationIn i) = false) :
    (s.step i).WalkAt l (b && !s.cache.memAReadyMult i 0) := by
  obtain ⟨-, hm, hfree⟩ := hw.hold h henv
  have hl : s.cache.tr.ptw.level ≠ none := by simp [hw.level]
  have hptw : (s.step i).cache.tr.ptw = s.cache.tr.ptw.sent
      (s.cache.tr.ptwIn p.translation (s.cache.translationIn i)) := Ptw.step_wait hl hm ha
  refine ⟨hfree, ?_, ?_⟩
  · rw [hptw]
    exact hw.level
  · rw [hptw, ← hw.unsent]
    rfl

end Walk

theorem Run.leadsTo_sent (h : Run mem pt root s₀ inp) (hfair : Fair s₀ inp) (l : ℕ) :
    LeadsTo (fun n => (after s₀ inp n).WalkAt l true) fun n => (after s₀ inp n).WalkAt l false := by
  have hquiet : ∀ n, (after s₀ inp n).WalkAt l true →
      (after s₀ inp n).cache.tr.answered ((after s₀ inp n).cache.translationIn (inp n))
        = false := by
    intro n hw
    have hav := (((h.inv n).owned.waiting (by simp [hw.level])).2.unsent hw.unsent).2
    simp [Translation.answered, hav]
  refine LeadsTo.trans (LeadsTo.of_wait (fun n => (inp n).memAReady = true) ?_ ?_)
    (LeadsTo.of_next ?_)
  · intro n hw hno
    have hnext := hw.wait (h.inv n) (h.env n) (hquiet n hw)
    rw [after_succ]
    simpa [Icache.memAReadyMult, ChannelArb.ready, hno] using hnext
  · exact fun n _ => hfair.ready n
  · rintro n ⟨hw, hready⟩
    have hnext := hw.wait (h.inv n) (h.env n) (hquiet n hw)
    have hf : (after s₀ inp n).cache.stateQ ≠ .fill := by
      have hl : (after s₀ inp n).cache.tr.ptw.level ≠ none := by simp [hw.level]
      obtain ⟨-, ⟨-, hse⟩, -⟩ := (h.inv n).owned.active (Ptw.stateQ_ne_idle_of_level hl)
      rcases hse with hse | hse | hse | hse <;> simp [hse]
    have hgrant : (after s₀ inp n).cache.memAReadyMult (inp n) 0 = true := by
      rw [Icache.memAReadyMult, hready]
      refine ChannelArb.ready_of_only (h.inv n).ctl.arb ?_ fun j hj => ?_
      · simp [Icache.memAMult, Translation.ptwA, hw.unsent]
      · by_contra hne
        simp [Icache.memAMult, hne, ((h.inv n).ctl.refill_quiet (h.env n) hf).2.1] at hj
    rw [after_succ]
    simpa [hgrant] using hnext

theorem Run.leadsTo_read (h : Run mem pt root s₀ inp) (hfair : Fair s₀ inp) (l : ℕ) :
    LeadsTo (fun n => (after s₀ inp n).WalkAt l false) fun n =>
      (after s₀ inp n).Calm ∨ ∃ l' < l, (after s₀ inp n).WalkAt l' true := by
  have hsent : ∀ n, (after s₀ inp n).WalkAt l false → (after s₀ inp n).reads ≠ [] ∧
      (after s₀ inp n).cache.tr.ptwAValid = true := by
    intro n hw
    obtain ⟨hreads, hav, -⟩ := ((h.inv n).owned.waiting (by simp [hw.level])).2.sent hw.unsent
    exact ⟨by simp [hreads], hav⟩
  refine LeadsTo.trans
    (LeadsTo.of_wait (fun n => ((inp n).memDPtw p).isSome = true) ?_ ?_)
    (LeadsTo.of_next ?_)
  · intro n hw hno
    have hq : (after s₀ inp n).cache.tr.answered
        ((after s₀ inp n).cache.translationIn (inp n)) = false := by
      simp [Translation.answered, Icache.translationIn, hno]
    rw [after_succ]
    simpa using hw.wait (h.inv n) (h.env n) hq
  · exact fun n hw => hfair.entry n (hsent n hw).1
  · rintro n ⟨hw, hd⟩
    obtain ⟨hq, hm, hfree⟩ := hw.hold (h.inv n) (h.env n)
    have ha : (after s₀ inp n).cache.tr.answered
        ((after s₀ inp n).cache.translationIn (inp n)) = true := by
      simp [Translation.answered, Icache.translationIn, hd, (hsent n hw).2]
    have hstep : (∃ l' < l, (after s₀ inp (n + 1)).cache.tr.ptw.level = some l' ∧
        (after s₀ inp (n + 1)).cache.tr.ptw.reqValidQ = true) ∨
        (after s₀ inp (n + 1)).cache.tr.ptw.stateQ = .done := Ptw.level_step_read hw.level hm ha
    rcases hstep with ⟨l', hlt, hl', hq'⟩ | hdone
    · exact .inr ⟨l', hlt, hfree, hl', hq'⟩
    · exact .inl ⟨hfree, fun _ => Translation.ppnValid_of_done hq hdone⟩

/-- A walk ends with the translation. -/
theorem Run.leadsTo_walked (h : Run mem pt root s₀ inp) (hfair : Fair s₀ inp) :
    LeadsTo (fun n => ∃ l b, (after s₀ inp n).WalkAt l b) fun n => (after s₀ inp n).Calm := by
  refine .of_descent (fun n => ((after s₀ inp n).cache.tr.ptw.level).getD 0) ?_
  rintro r n ⟨⟨l, b, hw⟩, hr⟩
  have hlr : l = r := by simpa [hw.level] using hr
  subst hlr
  have hread : LeadsTo (fun n => (after s₀ inp n).WalkAt l false) fun n =>
      (after s₀ inp n).Calm ∨ (∃ l b, (after s₀ inp n).WalkAt l b) ∧
        ((after s₀ inp n).cache.tr.ptw.level).getD 0 < l := by
    refine (h.leadsTo_read hfair l).trans (.of_imp fun m hm => ?_)
    rcases hm with hm | ⟨l', hlt, hm⟩
    · exact .inl hm
    · exact .inr ⟨⟨l', true, hm⟩, by simpa [hm.level] using hlt⟩
  cases b
  · exact hread n hw
  · exact (h.leadsTo_sent hfair l).trans hread n hw

theorem Run.leadsTo_calm (h : Run mem pt root s₀ inp) (hfair : Fair s₀ inp) :
    LeadsTo (fun n => (after s₀ inp n).Free) fun n =>
      AnswersAt s₀ inp n ∨ (after s₀ inp n).Calm := by
  have hwalked : LeadsTo (fun n => ∃ l b, (after s₀ inp n).WalkAt l b) fun n =>
      AnswersAt s₀ inp n ∨ (after s₀ inp n).Calm :=
    (h.leadsTo_walked hfair).trans (.of_imp fun _ => .inr)
  have hwalk : ∀ n, (after s₀ inp n).Free → (after s₀ inp n).cache.tr.ptw.level ≠ none →
      ∃ l b, (after s₀ inp n).WalkAt l b := by
    intro n hfree hl
    obtain ⟨l, hl⟩ := Option.ne_none_iff_exists'.mp hl
    exact ⟨l, _, hfree, hl, rfl⟩
  intro n hfree
  by_cases hcalm : (after s₀ inp n).Calm
  · exact ⟨n, le_rfl, .inr hcalm⟩
  cases hans : (after s₀ inp n).cache.answers
  swap
  · exact ⟨n, le_rfl, .inl hans⟩
  obtain ⟨ha, hv⟩ : atpMode (after s₀ inp n).atp = true ∧
      (after s₀ inp n).cache.tr.ppnValid = false := by
    by_contra hno
    refine hcalm ⟨hfree, fun ha => ?_⟩
    by_contra hv
    exact hno ⟨ha, by simpa using hv⟩
  have hx : (after s₀ inp n).cache.stateQ ≠ .exception := by
    intro hx
    simp [Icache.answers, Icache.exValid, hx] at hans
  rcases (h.live n).underway hfree.pending ha hx with hv' | hm | hl
  · simp [hv] at hv'
  · have hfree' := hfree.step (h.env n) hans
    have hl' : (after s₀ inp (n + 1)).cache.tr.ptw.level ≠ none := (Ptw.step_start hm).1
    obtain ⟨m, hm, hQ⟩ := hwalked (n + 1) (hwalk (n + 1) hfree' hl')
    exact ⟨m, by omega, hQ⟩
  · exact hwalked n (hwalk n hfree hl)

/-! ### The fetch -/

/-- The number of cycles until the fetch of an access that is calm is decided. -/
def fetchRank (s : IcacheMem p) : ℕ :=
  match s.cache.stateQ with
  | .waitTlb => 3
  | .replay => 2
  | .fetch => 1
  | _ => 0

theorem Run.leadsTo_decided (h : Run mem pt root s₀ inp) :
    LeadsTo (fun n => (after s₀ inp n).Calm) fun n =>
      AnswersAt s₀ inp n ∨ (after s₀ inp n).Calm ∧ (after s₀ inp n).cache.stateQ = .fill := by
  refine .of_countdown (fun n => (after s₀ inp n).fetchRank) fun n hcalm => ?_
  have hc := (h.inv n).ctl
  cases hans : (after s₀ inp n).cache.answers
  swap
  · exact .inl (.inl hans)
  obtain ⟨hq, -⟩ := (h.env n).hold hcalm.pending hans
  have hcalm' : (after s₀ inp (n + 1)).Calm := hcalm.step (h.inv n).owned (h.env n) hans
  have hstate : (after s₀ inp (n + 1)).cache.stateQ = (after s₀ inp n).cache.caseState (inp n) :=
    Icache.stateQ_step_hold hq
  cases hst : (after s₀ inp n).cache.stateQ
  case idle =>
      have hstart : (after s₀ inp n).started = true := by
        by_contra hno
        simp [(hc.unstarted (by simpa using hno)).2.1] at hst
      have := hcalm.pending
      simp [(hc.started hstart).mpr hst] at this
  case fetch =>
      rcases hcalm.fetch hc hst with ho | ho | ho
      · have hx : (after s₀ inp (n + 1)).cache.stateQ = .exception := by
          rw [hstate]
          simp [Icache.caseState, hst, ho]
        exact .inr (.inl (.inl (Icache.answers_iff.mpr (.inr hx))))
      · simp [Icache.answers, Icache.respValid, hst, ho] at hans
      · have hf : (after s₀ inp (n + 1)).cache.stateQ = .fill := by
          rw [hstate]
          simp [Icache.caseState, hst, ho]
        exact .inr (.inl (.inr ⟨hcalm', hf⟩))
  case replay =>
      have hf := (hcalm.toFree.replay hc (h.env n) hst).1
      refine .inr (.inr ⟨hcalm', ?_⟩)
      rw [after_succ] at *
      simp [fetchRank, hf, hst]
  case waitTlb =>
      have ha : atpMode (after s₀ inp n).atp = true := by
        rw [← hc.mode_eq hcalm.pending]
        exact (h.live n).waitTlb hst
      have hr : (after s₀ inp (n + 1)).cache.stateQ = .replay := by
        rw [hstate]
        simp [Icache.caseState, hst, hcalm.translated ha]
      exact .inr (.inr ⟨hcalm', by simp [fetchRank, hr, hst]⟩)
  case fill => exact .inl (.inr ⟨hcalm, rfl⟩)
  case exception => simp [Icache.answers, Icache.exValid, hst] at hans
  case flush => exact absurd hst hcalm.stateQ

/-! ### The refill -/

/-- The line of the access is being read; `r` says what has been transferred and `q` what
the refill machine does. -/
structure FillAt (r : LineRead → Prop) (q : RefillState) (s : IcacheMem p) : Prop
    extends s.Calm where
  read : ∃ x ∈ s.fill, r x
  refillStateQ : s.cache.refillStateQ = q

/-- The refill is over: the access is replayed with its line in the cache, or ends. -/
def Refilled (s : IcacheMem p) : Prop :=
  s.Calm ∧ (s.cache.stateQ = .exception ∨ s.cache.stateQ = .replay ∧ s.Installed)

section Fill
variable {s : IcacheMem p} {i : IcacheIn}

theorem answers_of_fill {c : Icache p} (hf : c.stateQ = .fill) : c.answers = false := by
  simp [Icache.answers, Icache.respValid, Icache.exValid, hf]

/-- The access stays in the fill state until the last beat. -/
theorem Calm.fill_hold (hcalm : s.Calm) (h : s.Inv mem pt root) (henv : s.Env mem pt root i)
    (hf : s.cache.stateQ = .fill) (hl : s.cache.refillLast i = none) :
    (s.step i).Calm ∧ (s.step i).cache.stateQ = .fill := by
  have hans := answers_of_fill hf
  obtain ⟨hq, -⟩ := henv.hold hcalm.pending hans
  refine ⟨hcalm.step h.owned henv hans, (Icache.stateQ_step_hold hq).trans ?_⟩
  have hresp : s.cache.missResp i = none := by simp [Icache.missResp, hl]
  simp [Icache.caseState, hf, hresp]

/-- Without a beat on channel D the line read in flight stays what it is. -/
theorem FillAt.hold {r : LineRead → Prop} {q : RefillState} (hat : s.FillAt r q)
    (h : s.Inv mem pt root) (henv : s.Env mem pt root i) (hd : s.cache.refillBeat i = none) :
    (s.step i).FillAt r (s.cache.nextRefillStateQ i) := by
  obtain ⟨x, hx, hr⟩ := hat.read
  obtain ⟨hf, -, hsent⟩ := h.ctl.fill_of_some hx
  have hlast : s.cache.refillLast i = none := by simp [Icache.refillLast, hd]
  refine ⟨(hat.toCalm.fill_hold h henv hf hlast).1, ⟨x, ?_, hr⟩, rfl⟩
  have hx' : s.fill = some x := hx
  change s.nextFill i = some x
  simp [nextFill, hd, Icache.fillIssued, Icache.refillA, hsent, hx']

end Fill

/-- The read of the line is accepted. -/
theorem Run.leadsTo_issued (h : Run mem pt root s₀ inp) (hfair : Fair s₀ inp) :
    LeadsTo (fun n => (after s₀ inp n).Calm ∧ (after s₀ inp n).cache.stateQ = .fill ∧
      (after s₀ inp n).fill = none) fun n =>
      ∃ q, (after s₀ inp n).FillAt (fun _ => True) q := by
  have hquiet : ∀ n, (after s₀ inp n).fill = none →
      (after s₀ inp n).cache.refillBeat (inp n) = none := by
    intro n hnone
    have hd := (h.env n).memDRefill_eq_none hnone
    simp [Icache.refillBeat, hd]
  refine LeadsTo.trans (LeadsTo.of_wait (fun n => (inp n).memAReady = true) ?_ ?_)
    (LeadsTo.of_next ?_)
  · rintro n ⟨hcalm, hf, hnone⟩ hno
    have hbeat := hquiet n hnone
    have hlast : (after s₀ inp n).cache.refillLast (inp n) = none := by
      simp [Icache.refillLast, hbeat]
    obtain ⟨hcalm', hf'⟩ := hcalm.fill_hold (h.inv n) (h.env n) hf hlast
    refine ⟨hcalm', hf', ?_⟩
    change (after s₀ inp n).nextFill (inp n) = none
    simp [nextFill, hbeat, Icache.fillIssued, Icache.memAReadyMult, ChannelArb.ready, hno, hnone]
  · exact fun n _ => hfair.ready n
  · rintro n ⟨⟨hcalm, hf, hnone⟩, hready⟩
    have hc := (h.inv n).ctl
    have hbeat := hquiet n hnone
    have hlast : (after s₀ inp n).cache.refillLast (inp n) = none := by
      simp [Icache.refillLast, hbeat]
    obtain ⟨hcalm', -⟩ := hcalm.fill_hold (h.inv n) (h.env n) hf hlast
    have hA : ((after s₀ inp n).cache.refillA (inp n)).isSome = true := by
      have hm := hc.miss.mpr hf
      have hsent : (after s₀ inp n).cache.missRefillSentQ = false := by
        by_contra hs
        have := hc.sent.mpr ⟨hm, by simpa using hs⟩
        simp [hnone] at this
      simp [Icache.refillA, hm, hsent]
    -- the walker is at rest, so the read of the line is the only request
    obtain ⟨hl, -⟩ := (h.inv n).owned.rest_of_ready fun _ ha => hcalm.translated ha
    have hptw := ((h.inv n).owned.rest hl).2.1
    have hgrant : (after s₀ inp n).cache.memAReadyMult (inp n) 1 = true := by
      rw [Icache.memAReadyMult, hready]
      refine ChannelArb.ready_of_only hc.arb (by simpa [Icache.memAMult] using hA) fun j hj => ?_
      by_contra hne
      have hj0 : j = 0 := by omega
      simp [Icache.memAMult, hj0, Translation.ptwA, hptw] at hj
    refine ⟨_, hcalm', ⟨⟨(after s₀ inp n).cache.refillReqAddress (inp n), (after s₀ inp n).now, 0,
      false⟩, ?_, trivial⟩, rfl⟩
    change (after s₀ inp n).nextFill (inp n) = some _
    simp only [nextFill, hbeat, Icache.fillIssued, hA, hgrant, Bool.and_self, if_true]

/-- The refill machine takes the lock. -/
theorem Run.leadsTo_locked (h : Run mem pt root s₀ inp) (hfair : Fair s₀ inp) :
    LeadsTo (fun n => (after s₀ inp n).FillAt (fun _ => True) .idle) fun n =>
      (after s₀ inp n).FillAt (fun _ => True) .progress := by
  have hquiet : ∀ n, (after s₀ inp n).FillAt (fun _ => True) .idle →
      (after s₀ inp n).cache.refillBeat (inp n) = none := by
    intro n hat
    simp [Icache.refillBeat, hat.refillStateQ]
  refine LeadsTo.trans
    (LeadsTo.of_wait (fun n => ((inp n).memDRefill p).isSome = true) ?_ ?_)
    (LeadsTo.of_next ?_)
  · intro n hat hno
    have hnext := hat.hold (h.inv n) (h.env n) (hquiet n hat)
    rw [after_succ]
    simpa [Icache.nextRefillStateQ, hat.refillStateQ, Icache.refillLocking, Icache.refillLockAcq,
      hno] using hnext
  · intro n hat
    obtain ⟨x, hx, -⟩ := hat.read
    exact hfair.line n (Option.isSome_iff_exists.mpr ⟨x, hx⟩)
  · rintro n ⟨hat, hd⟩
    have hnext := hat.hold (h.inv n) (h.env n) (hquiet n hat)
    have hc := (h.inv n).ctl
    have hn : (after s₀ inp n).cache.nothingInProgress = true := by
      rcases hat.settled with hfl | hfl <;>
        simp [Icache.nothingInProgress, hc.tracker, hat.refillStateQ, hc.flushTracker, hfl]
    rw [after_succ]
    simpa [Icache.nextRefillStateQ, hat.refillStateQ, Icache.refillLocking, Icache.refillLockAcq,
      hd, hn] using hnext

/-- A beat is transferred. -/
theorem Run.leadsTo_beat (h : Run mem pt root s₀ inp) (hfair : Fair s₀ inp) (b : ℕ) :
    LeadsTo (fun n => (after s₀ inp n).FillAt (fun r => r.beats = b) .progress) fun n =>
      (after s₀ inp n).Refilled ∨
        (after s₀ inp n).FillAt (fun r => r.beats = b + 1) .progress := by
  refine LeadsTo.trans
    (LeadsTo.of_wait (fun n => ((inp n).memDRefill p).isSome = true) ?_ ?_)
    (LeadsTo.of_next ?_)
  · intro n hat hno
    have hd : (after s₀ inp n).cache.refillBeat (inp n) = none := by
      simpa [Icache.refillBeat, hat.refillStateQ] using hno
    have hnext := hat.hold (h.inv n) (h.env n) hd
    rw [after_succ]
    simpa [Icache.nextRefillStateQ, hat.refillStateQ, Icache.refillLast, hd] using hnext
  · intro n hat
    obtain ⟨x, hx, -⟩ := hat.read
    exact hfair.line n (Option.isSome_iff_exists.mpr ⟨x, hx⟩)
  · rintro n ⟨hat, hd⟩
    have hc := (h.inv n).ctl
    obtain ⟨x, hx, hb⟩ := hat.read
    have hf := (hc.fill_of_some hx).1
    obtain ⟨d, hd⟩ := Option.isSome_iff_exists.mp hd
    have hbeat : (after s₀ inp n).cache.refillBeat (inp n) = some d := by
      simpa [Icache.refillBeat, hat.refillStateQ] using hd
    obtain ⟨r, hr⟩ := hc.beat h.legal (h.env n) hbeat
    have hxr : x = r := Option.some.inj (hx.symm.trans hr.fill)
    subst hxr
    have hans := answers_of_fill hf
    have hcalm' : (after s₀ inp (n + 1)).Calm := hat.toCalm.step (h.inv n).owned (h.env n) hans
    by_cases hl : x.beats + 1 = p.lineBeats
    · left
      have hlast : (after s₀ inp n).cache.refillLast (inp n) = some d := by
        rw [hr.refillLast_eq hbeat, if_pos hl]
      have hends := hc.refill_ends h.legal (h.inv n).owned (h.env n) hlast
      refine ⟨hcalm', ?_⟩
      split_ifs at hends
      · exact .inl hends.1
      · exact .inr hends
    · right
      have hlast : (after s₀ inp n).cache.refillLast (inp n) = none := by
        rw [hr.refillLast_eq hbeat, if_neg hl]
      refine ⟨hcalm', ⟨{ x with beats := x.beats + 1, denied := d.denied }, ?_, by simp [hb]⟩, ?_⟩
      · change (after s₀ inp n).nextFill (inp n) = some _
        rw [hr.nextFill_eq hbeat, if_neg hl]
      · change (after s₀ inp n).cache.nextRefillStateQ (inp n) = .progress
        simp [Icache.nextRefillStateQ, hat.refillStateQ, hlast]

/-- A refill that has begun ends. -/
theorem Run.leadsTo_refilled (h : Run mem pt root s₀ inp) (hfair : Fair s₀ inp) :
    LeadsTo (fun n => (after s₀ inp n).FillAt (fun _ => True) .progress) fun n =>
      (after s₀ inp n).Refilled := by
  refine .of_descent (fun n => p.lineBeats - (after s₀ inp n).beats) ?_
  rintro r n ⟨hat, hr⟩
  obtain ⟨x, hx, -⟩ := hat.read
  have hxs : (after s₀ inp n).fill = some x := hx
  have hlt := ((h.inv n).ctl.fill x hx).beats
  obtain ⟨m, hm, hdone | hnext⟩ := h.leadsTo_beat hfair x.beats n
    ⟨hat.toCalm, ⟨x, hx, rfl⟩, hat.refillStateQ⟩
  · exact ⟨m, hm, .inl hdone⟩
  · refine ⟨m, hm, .inr ⟨⟨hnext.toCalm, ?_, hnext.refillStateQ⟩, ?_⟩⟩
    · obtain ⟨y, hy, -⟩ := hnext.read
      exact ⟨y, hy, trivial⟩
    · obtain ⟨y, hy, hyb⟩ := hnext.read
      have hys : (after s₀ inp m).fill = some y := hy
      simp only [beats, hxs, hys, Option.map_some, Option.getD_some, hyb] at hr ⊢
      omega

/-- After its refill the access is answered. -/
theorem Run.leadsTo_answer (h : Run mem pt root s₀ inp) :
    LeadsTo (fun n => (after s₀ inp n).Refilled) (AnswersAt s₀ inp) := by
  rintro n ⟨hcalm, hx | ⟨hst, hin⟩⟩
  · exact ⟨n, le_rfl, Icache.answers_iff.mpr (.inr hx)⟩
  · have hans : (after s₀ inp n).cache.answers = false := by
      simp [Icache.answers, Icache.respValid, Icache.exValid, hst]
    obtain ⟨hq, -⟩ := (h.env n).hold hcalm.pending hans
    obtain ⟨hf', hmem⟩ := hcalm.toFree.replay (h.inv n).ctl (h.env n) hst
    have hcalm' : (after s₀ inp (n + 1)).Calm := hcalm.step (h.inv n).owned (h.env n) hans
    have hphys : (after s₀ inp (n + 1)).phys = (after s₀ inp n).phys :=
      phys_step (h.inv n).owned hq hcalm.translated
    have hin' : (after s₀ inp (n + 1)).Installed := by
      obtain ⟨k, hk⟩ := hin
      refine ⟨k, ?_⟩
      rw [hphys, ← hk, after_succ, hmem]
    have hc' := (h.inv (n + 1)).ctl
    have hhit := hc'.fetch_installed h.legal (h.inv (n + 1)).contents hf' hcalm'.pending hin'
    rcases hcalm'.fetch hc' hf' with ho | ho | ho
    · have hans' : (after s₀ inp (n + 1)).cache.answers = false := by
        have hf'' : (after s₀ inp (n + 1)).cache.stateQ = .fetch := hf'
        simp [Icache.answers, Icache.respValid, Icache.exValid, hf'', ho]
      obtain ⟨hq', -⟩ := (h.env (n + 1)).hold hcalm'.pending hans'
      have hx : (after s₀ inp (n + 2)).cache.stateQ = .exception := by
        refine (Icache.stateQ_step_hold hq').trans ?_
        have hf'' : (after s₀ inp (n + 1)).cache.stateQ = .fetch := hf'
        change (after s₀ inp (n + 1)).cache.caseState _ = _
        simp [Icache.caseState, hf'', ho]
      exact ⟨n + 2, by omega, Icache.answers_iff.mpr (.inr hx)⟩
    · exact ⟨n + 1, by omega, Icache.answers_iff.mpr (.inl ⟨hf', ho⟩)⟩
    · exact absurd ho hhit

/-- Every request is answered. -/
theorem Run.answered (h : Run mem pt root s₀ inp) (hfair : Fair s₀ inp) :
    LeadsTo (fun n => (after s₀ inp n).pending.isSome = true) (AnswersAt s₀ inp) := by
  have hprogress : LeadsTo (fun n => (after s₀ inp n).FillAt (fun _ => True) .progress)
      (AnswersAt s₀ inp) := (h.leadsTo_refilled hfair).trans h.leadsTo_answer
  have hread : LeadsTo (fun n => ∃ q, (after s₀ inp n).FillAt (fun _ => True) q)
      (AnswersAt s₀ inp) := by
    rintro n ⟨q, hat⟩
    cases q
    · exact (h.leadsTo_locked hfair).trans hprogress n hat
    · exact hprogress n hat
  have hfill : LeadsTo (fun n => (after s₀ inp n).Calm ∧ (after s₀ inp n).cache.stateQ = .fill)
      (AnswersAt s₀ inp) := by
    rintro n ⟨hcalm, hf⟩
    cases hx : (after s₀ inp n).fill with
    | none => exact (h.leadsTo_issued hfair).trans hread n ⟨hcalm, hf, hx⟩
    | some x => exact hread n ⟨_, hcalm, ⟨x, hx, trivial⟩, rfl⟩
  have hcalm : LeadsTo (fun n => (after s₀ inp n).Calm) (AnswersAt s₀ inp) :=
    h.leadsTo_decided.trans (.cases (fun _ => id) (.of_imp fun _ => id) hfill)
  have hfree : LeadsTo (fun n => (after s₀ inp n).Free) (AnswersAt s₀ inp) :=
    (h.leadsTo_calm hfair).trans (.cases (fun _ => id) (.of_imp fun _ => id) hcalm)
  have hsettled := h.leadsTo_free.trans (.cases (fun _ => id) (.of_imp fun _ => id) hfree)
  exact h.leadsTo_settled.trans (.cases (fun _ => id) (.of_imp fun _ => id) hsettled)

end Run

end IcacheMem

end Muntjac.Core

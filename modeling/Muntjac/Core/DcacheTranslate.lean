import Muntjac.Core.Dcache

/-!
# Translations of the data cache

The page walks of the data cache, in a system with a backend and a memory.  The
backend makes a request only while `req_ready` is set and holds `req_atp` while an
access is in flight.  The memory answers the reads of the walker in order, after any
delay.

A request that faults early is looked up in the TLB like any other, and a miss starts
a walk that nobody waits for.  As long as this does not happen (`DcacheSys.EarlyHits`)
a walk belongs to the access in flight (`DcacheSys.WalkOwned`), and over a fixed memory
image the TLB and the translations in use are those of the page tables.

## Main definitions

* `DcacheSys.step` — one cycle of the cache, of the address-translation register of
  the access in flight and of the outstanding page table reads.
* `DcacheSys.WalkOwned` — every walk in progress is the walk of the access in flight.
* `DcacheSys.Sound mem root` — what the TLB, the walker and the latch hold is what the
  tables of `mem` say.
-/

namespace Muntjac.Core

open Sync Tl

/-- The cache, `req_atp` of the last request, and the outstanding page table reads. -/
structure DcacheSys (p : DcacheParams) where
  cache : Dcache p
  atp : ℕ
  reads : List ℕ

namespace Dcache
variable {p : DcacheParams}

/-- The virtual page of the access in flight. -/
def vpn (s : Dcache p) : ℕ := slice s.addressQ (p.virtAddrLen - 1) 12

/-- An access is in flight and may use its translation. -/
def Busy (s : Dcache p) : Prop := s.stateQ ≠ .idle ∧ s.stateQ ≠ .exception

/-- An access is in flight and may still wait for its translation. -/
def Searching (s : Dcache p) : Prop :=
  s.stateQ = .fetch ∨ s.stateQ = .replay ∨ s.stateQ = .waitTlb

theorem Searching.busy {s : Dcache p} (h : s.Searching) : s.Busy := by
  rcases h with h | h | h <;> simp [Busy, h]

/-- An answer to the walker is accepted in this cycle. -/
def ptwAnswered (s : Dcache p) (i : DcacheIn) : Bool := (i.memDPtw p).isSome && s.tr.ptwAValid

/-- The walker's request is accepted in this cycle. -/
def ptwIssued (s : Dcache p) (i : DcacheIn) : Bool := s.tr.ptw.reqValidQ && s.memAReadyMult i 0

end Dcache

namespace DcacheSys
variable {p : DcacheParams}

def step (s : DcacheSys p) (i : DcacheIn) : DcacheSys p where
  cache := s.cache.step i
  atp := if i.reqValid then i.reqAtp else s.atp
  reads :=
    (if s.cache.ptwAnswered i then s.reads.tail else s.reads) ++
      (if s.cache.ptwIssued i then [s.cache.tr.ptw.reqAddrQ] else [])

/-- The rules of the backend and of the memory. -/
structure Env (s : DcacheSys p) (i : DcacheIn) : Prop where
  ready : i.reqValid = true → s.cache.reqReady i = true
  atpHeld : s.cache.Busy → i.reqAtp = s.atp
  asked : (i.memDPtw p).isSome = true → s.reads ≠ []

/-- A translated request that faults early finds its page in the TLB. -/
def EarlyHits (s : DcacheSys p) (i : DcacheIn) : Prop :=
  i.reqValid = true → atpMode i.reqAtp = true → (i.earlyFault p).isSome = true →
    s.cache.tr.tlb.lookup p.tlbSetsWidth (slice i.reqAddress 38 12) (atpAsid i.reqAtp) ≠ none

structure IsReset (s : DcacheSys p) : Prop where
  cache : s.cache.IsReset
  atp : s.atp = 0
  reads : s.reads = []

/-! ## Walks belong to the access in flight -/

/-- The page table read that the walker waits for. -/
structure Outstanding (s : DcacheSys p) : Prop where
  unsent : s.cache.tr.ptw.reqValidQ = true → s.reads = [] ∧ s.cache.tr.ptwAValid = false
  sent : s.cache.tr.ptw.reqValidQ = false → s.reads = [s.cache.tr.ptw.reqAddrQ] ∧
    s.cache.tr.ptwAValid = true ∧
    s.cache.tr.ptwAAddress = cat s.cache.tr.ptw.reqAddrQ 3 0 % p.busBytes

structure WalkOwned (s : DcacheSys p) : Prop where
  rest : s.cache.tr.ptw.level = none →
    s.reads = [] ∧ s.cache.tr.ptw.reqValidQ = false ∧ s.cache.tr.ptwAValid = false
  active : s.cache.tr.ptw.stateQ ≠ .idle → s.cache.tr.tlbRespValid = false ∧
    s.cache.Searching ∧ atpMode s.atp = true ∧ s.cache.tr.ptw.vpnQ = s.cache.vpn
  waiting : s.cache.tr.ptw.level ≠ none → s.cache.tr.ppnValidLatch = false ∧ s.Outstanding
  lookup : s.cache.tr.tlbRespValid = true → s.cache.tr.ppnValidLatch = false ∧
    (s.cache.Searching ∧ atpMode s.atp = true ∨
      s.cache.stateQ = .exception ∧ s.cache.tr.tlb.respHit = true)
  fill : s.cache.stateQ = .fill → atpMode s.atp = true →
    s.cache.tr.ppnValidLatch = true ∧ s.cache.tr.tlbRespValid = false

section Step
variable {s : DcacheSys p} {i : DcacheIn}

/-- The access does not have its translation while the walker waits for an entry. -/
theorem WalkOwned.ppnValid_of_level (h : s.WalkOwned) (hl : s.cache.tr.ptw.level ≠ none) :
    s.cache.tr.ppnValid = false := by
  have hr := (h.active (Ptw.stateQ_ne_idle_of_level hl)).1
  simp [Translation.ppnValid, Translation.ppnValidPulse, hr, Ptw.respValid_of_level hl,
    (h.waiting hl).1]

/-- Nor in the cycle in which the TLB reports the miss. -/
theorem WalkOwned.ppnValid_of_tlbMiss (h : s.WalkOwned) (hm : s.cache.tr.tlbMiss = true) :
    s.cache.tr.ppnValid = false := by
  simp only [Translation.tlbMiss, Bool.and_eq_true, Bool.not_eq_true'] at hm
  simp [Translation.ppnValid, Translation.ppnValidPulse, hm, (h.lookup hm.1).1]

theorem WalkOwned.searching_of_tlbMiss (h : s.WalkOwned) (hm : s.cache.tr.tlbMiss = true) :
    s.cache.Searching ∧ atpMode s.atp = true := by
  simp only [Translation.tlbMiss, Bool.and_eq_true, Bool.not_eq_true'] at hm
  rcases (h.lookup hm.1).2 with hs | ⟨-, hhit⟩
  · exact hs
  · simp [hm.2] at hhit

/-- While the translation is missing, the access goes on searching. -/
theorem searching_step (hs : s.cache.Searching) (henv : s.Env i) (ha : atpMode s.atp = true)
    (hv : s.cache.tr.ppnValid = false) (hq : i.reqValid = false) :
    (s.step i).cache.Searching := by
  have hatp : atpMode i.reqAtp = true := by rw [henv.atpHeld hs.busy]; exact ha
  rcases hs with hs | hs | hs
  · by_cases hn : s.cache.nothingInProgress = true
    · have ho : s.cache.outcome i = .tlbMiss := by simp [Dcache.outcome, hn, hatp, hv]
      simp [Dcache.Searching, step, Dcache.step, Dcache.nextStateQ, hq, Dcache.caseState, hs, ho]
    · have ho : s.cache.outcome i = .conflict := by simp [Dcache.outcome, hn]
      simp [Dcache.Searching, step, Dcache.step, Dcache.nextStateQ, hq, Dcache.caseState, hs, ho]
  · simp only [Dcache.Searching, step, Dcache.step, Dcache.nextStateQ, hq, Dcache.caseState, hs]
    split_ifs <;> simp_all
  · simp [Dcache.Searching, step, Dcache.step, Dcache.nextStateQ, hq, Dcache.caseState, hs, hv]

/-- A request that is ready to be accepted finds no walk in progress. -/
theorem WalkOwned.rest_of_ready (h : s.WalkOwned) (henv : s.Env i)
    (hr : s.cache.reqReady i = true) :
    s.cache.tr.ptw.level = none ∧ s.cache.tr.tlbMiss = false := by
  -- a translation that is missing makes the access search, and then it is not ready
  have key : ∀ hs : s.cache.Searching, atpMode s.atp = true → s.cache.tr.ppnValid = false →
      False := by
    intro hs ha hv
    have hatp : atpMode i.reqAtp = true := by rw [henv.atpHeld hs.busy]; exact ha
    rcases hs with hs | hs | hs <;> simp [Dcache.reqReady, hs, hatp, hv] at hr
  constructor
  · by_contra hl
    have hact := h.active (Ptw.stateQ_ne_idle_of_level hl)
    exact key hact.2.1 hact.2.2.1 (h.ppnValid_of_level hl)
  · by_contra hm
    have hm' : s.cache.tr.tlbMiss = true := by simpa using hm
    obtain ⟨hs, ha⟩ := h.searching_of_tlbMiss hm'
    exact key hs ha (h.ppnValid_of_tlbMiss hm')

/-- Nothing is outstanding after a cycle in which nothing was. -/
theorem reads_step_of_rest (hreads : s.reads = []) (hq : s.cache.tr.ptw.reqValidQ = false)
    (hv : s.cache.tr.ptwAValid = false) :
    (s.step i).reads = [] ∧ (s.step i).cache.tr.ptwAValid = false := by
  constructor
  · simp [step, Dcache.ptwAnswered, Dcache.ptwIssued, hreads, hq]
  · simp [step, Dcache.step, Translation.step, hq, hv]

theorem tlbRespValid_step :
    (s.step i).cache.tr.tlbRespValid = (i.reqValid && atpMode i.reqAtp) := rfl

/-- Without a request the latch is set by a pulse and kept otherwise. -/
theorem ppnValidLatch_step (hq : i.reqValid = false) :
    (s.step i).cache.tr.ppnValidLatch = s.cache.tr.ppnValid := by
  simp [step, Dcache.step, Translation.step, TranslationIn.translates, Dcache.translationIn, hq,
    Translation.ppnValid]

theorem vpn_step (hq : i.reqValid = false) : (s.step i).cache.vpn = s.cache.vpn := by
  simp [Dcache.vpn, step, Dcache.step, Dcache.nextAddressQ, hq]

theorem atp_step (hq : i.reqValid = false) : (s.step i).atp = s.atp := by simp [step, hq]

/-- The states that a request leads to. -/
theorem stateQ_step_req (hq : i.reqValid = true) :
    (i.earlyFault p).isSome = true ∧ (s.step i).cache.stateQ = .exception ∨
      (i.earlyFault p).isSome = false ∧ (s.step i).cache.Searching := by
  simp only [Dcache.Searching, step, Dcache.step, Dcache.nextStateQ, hq, if_true]
  cases (i.earlyFault p).isSome
  · right
    split_ifs <;> simp_all
  · simp

/-- A request is accepted. -/
theorem WalkOwned.step_req (h : s.WalkOwned) (henv : s.Env i) (hearly : s.EarlyHits i)
    (hq : i.reqValid = true) : (s.step i).WalkOwned := by
  obtain ⟨hl, hm⟩ := h.rest_of_ready henv (henv.ready hq)
  obtain ⟨hreads, hrq, hav⟩ := h.rest hl
  obtain ⟨hreads', hav'⟩ := reads_step_of_rest (i := i) hreads hrq hav
  obtain ⟨hst, hrq'⟩ : (s.step i).cache.tr.ptw.stateQ = .idle ∧
      (s.step i).cache.tr.ptw.reqValidQ = s.cache.tr.ptw.reqValidQ := Ptw.step_rest hl hm
  have hlevel : (s.step i).cache.tr.ptw.level = none := by simp [Ptw.level, hst]
  refine ⟨fun _ => ⟨hreads', hrq'.trans hrq, hav'⟩, fun hne => absurd hst hne,
    fun hne => absurd hlevel hne, ?_, ?_⟩
  · intro hv
    have ha : atpMode i.reqAtp = true := by simpa [tlbRespValid_step, hq] using hv
    have htr : (s.cache.translationIn i).translates = true := by
      simp [TranslationIn.translates, Dcache.translationIn, hq, ha]
    refine ⟨by simp [step, Dcache.step, Translation.step, htr], ?_⟩
    rcases stateQ_step_req (s := s) hq with ⟨hf, hx⟩ | ⟨-, hs⟩
    · refine .inr ⟨hx, ?_⟩
      have hresp := Tlb.resp_step (t := s.cache.tr.tlb)
        (i := s.cache.tr.tlbIn (s.cache.translationIn i)) p.tlbSetsWidth htr
      obtain ⟨e, he⟩ := Option.ne_none_iff_exists'.mp (hearly hq ha hf)
      have hsome : (s.step i).cache.tr.tlb.resp = some (e.ppn, e.prot) := by
        refine hresp.trans ?_
        simp only [Translation.tlbIn, Dcache.translationIn]
        rw [he]
        rfl
      simp [Tlb.respHit, hsome]
    · exact .inl ⟨hs, by simp [step, hq, ha]⟩
  · intro hf
    rcases stateQ_step_req (s := s) hq with ⟨-, hx⟩ | ⟨-, hs⟩
    · simp [hx] at hf
    · rcases hs with hs | hs | hs <;> simp [hs] at hf

/-- The outstanding read of a walker that goes on waiting. -/
theorem WalkOwned.outstanding_wait (h : s.WalkOwned) (hl : s.cache.tr.ptw.level ≠ none)
    (hm : s.cache.tr.tlbMiss = false) (ha : s.cache.ptwAnswered i = false) :
    (s.step i).cache.tr.ptw.vpnQ = s.cache.tr.ptw.vpnQ ∧
      (s.step i).cache.tr.ptw.level ≠ none ∧ (s.step i).Outstanding := by
  have hptw : (s.step i).cache.tr.ptw = s.cache.tr.ptw.sent
      (s.cache.tr.ptwIn p.translation (s.cache.translationIn i)) := Ptw.step_wait hl hm ha
  refine ⟨by rw [hptw]; rfl, by rw [hptw]; exact hl, ?_⟩
  have hout := (h.waiting hl).2
  cases hrq : s.cache.tr.ptw.reqValidQ
  · obtain ⟨hreads, hav, hadr⟩ := hout.sent hrq
    have hd : (i.memDPtw p).isSome = false := by simpa [Dcache.ptwAnswered, hav] using ha
    refine ⟨fun hq' => ?_, fun _ => ⟨?_, ?_, ?_⟩⟩
    · simp [hptw, Ptw.sent, hrq] at hq'
    · simp [step, ha, Dcache.ptwIssued, hrq, hreads, Dcache.step, Translation.step] at hptw ⊢
      rw [hptw]
      rfl
    · simp [step, Dcache.step, Translation.step, hrq, hav, Dcache.translationIn, hd]
    · rw [hptw]
      simpa [step, Dcache.step, Translation.step, hrq] using hadr
  · obtain ⟨hreads, hav⟩ := hout.unsent hrq
    cases hrdy : s.cache.memAReadyMult i 0
    · refine ⟨fun _ => ⟨?_, ?_⟩, fun hq' => ?_⟩
      · simp [step, ha, Dcache.ptwIssued, hrq, hreads, hrdy]
      · simp [step, Dcache.step, Translation.step, hrq, hav, Dcache.translationIn, hrdy]
      · simp [hptw, Ptw.sent, hrq, Translation.ptwIn, Dcache.translationIn, hrdy] at hq'
    · refine ⟨fun hq' => ?_, fun _ => ⟨?_, ?_, ?_⟩⟩
      · simp [hptw, Ptw.sent, hrq, Translation.ptwIn, Dcache.translationIn, hrdy] at hq'
      · rw [hptw]
        simp [step, ha, Dcache.ptwIssued, hrq, hreads, hrdy]
      · simp [step, Dcache.step, Translation.step, hrq, Dcache.translationIn, hrdy]
      · rw [hptw]
        simp [step, Dcache.step, Translation.step, hrq, Dcache.translationIn, hrdy]

/-- The walker receives the entry that it waits for. -/
theorem WalkOwned.outstanding_read (h : s.WalkOwned) (henv : s.Env i)
    (hl : s.cache.tr.ptw.level ≠ none) (ha : s.cache.ptwAnswered i = true) :
    s.cache.tr.ptw.reqValidQ = false ∧ s.reads = [s.cache.tr.ptw.reqAddrQ] ∧
      s.cache.tr.ptwAAddress = cat s.cache.tr.ptw.reqAddrQ 3 0 % p.busBytes ∧
      (s.step i).reads = [] ∧ (s.step i).cache.tr.ptwAValid = false := by
  have hd : (i.memDPtw p).isSome = true := by
    simp only [Dcache.ptwAnswered, Bool.and_eq_true] at ha
    exact ha.1
  have hout := (h.waiting hl).2
  have hrq : s.cache.tr.ptw.reqValidQ = false := by
    cases hrq : s.cache.tr.ptw.reqValidQ
    · rfl
    · exact absurd (hout.unsent hrq).1 (henv.asked hd)
  obtain ⟨hreads, -, hadr⟩ := hout.sent hrq
  refine ⟨hrq, hreads, hadr, ?_, ?_⟩
  · simp [step, ha, Dcache.ptwIssued, hrq, hreads]
  · simp [step, Dcache.step, Translation.step, hrq, Dcache.translationIn, hd]

/-- The walker waits for an entry. -/
theorem WalkOwned.step_level (h : s.WalkOwned) (henv : s.Env i) (hq : i.reqValid = false)
    (hl : s.cache.tr.ptw.level ≠ none) : (s.step i).WalkOwned := by
  obtain ⟨htv, hs, ha, hvpn⟩ := h.active (Ptw.stateQ_ne_idle_of_level hl)
  have hm : s.cache.tr.tlbMiss = false := by simp [Translation.tlbMiss, htv]
  have hv := h.ppnValid_of_level hl
  have hs' := searching_step hs henv ha hv hq
  have htv' : (s.step i).cache.tr.tlbRespValid = false := by simp [tlbRespValid_step, hq]
  have hlatch : (s.step i).cache.tr.ppnValidLatch = false := (ppnValidLatch_step hq).trans hv
  have hfill : (s.step i).cache.stateQ ≠ .fill := by
    rcases hs' with hs' | hs' | hs' <;> simp [hs']
  have hatp : atpMode (s.step i).atp = true := by rw [atp_step hq]; exact ha
  cases hans : s.cache.ptwAnswered i
  · obtain ⟨hvpn', hl', hout⟩ := h.outstanding_wait hl hm hans
    exact ⟨fun hn => absurd hn hl',
      fun _ => ⟨htv', hs', hatp, by rw [hvpn', vpn_step hq, hvpn]⟩, fun _ => ⟨hlatch, hout⟩,
      fun ht => absurd ht (by simp [htv']), fun hf => absurd hf hfill⟩
  · obtain ⟨hrq, -, -, hreads', hav'⟩ := h.outstanding_read henv hl hans
    obtain ⟨hvpn', hcase⟩ : (s.step i).cache.tr.ptw.vpnQ = s.cache.tr.ptw.vpnQ ∧ _ :=
      Ptw.step_read hl hm hans
    refine ⟨fun hn => ?_, fun _ => ⟨htv', hs', hatp, by rw [hvpn', vpn_step hq, hvpn]⟩,
      fun hl' => ⟨hlatch, ?_⟩, fun ht => absurd ht (by simp [htv']), fun hf => absurd hf hfill⟩
    · rcases hcase with ⟨hl', -⟩ | ⟨-, hrq'⟩
      · exact absurd hn hl'
      · exact ⟨hreads', hrq'.trans (by simp [Ptw.sent, hrq]), hav'⟩
    · rcases hcase with ⟨-, hrq'⟩ | ⟨hdone, -⟩
      · exact ⟨fun _ => ⟨hreads', hav'⟩, fun hq' => absurd (hrq'.symm.trans hq') (by decide)⟩
      · have hdone' : (s.step i).cache.tr.ptw.stateQ = .done := hdone
        simp [Ptw.level, hdone'] at hl'

/-- A TLB miss starts the walk of the access in flight. -/
theorem WalkOwned.step_start (h : s.WalkOwned) (henv : s.Env i) (hq : i.reqValid = false)
    (hl : s.cache.tr.ptw.level = none) (hm : s.cache.tr.tlbMiss = true) :
    (s.step i).WalkOwned := by
  obtain ⟨hs, ha⟩ := h.searching_of_tlbMiss hm
  have hv := h.ppnValid_of_tlbMiss hm
  have hs' := searching_step hs henv ha hv hq
  have htv' : (s.step i).cache.tr.tlbRespValid = false := by simp [tlbRespValid_step, hq]
  obtain ⟨hreads, hrq, hav⟩ := h.rest hl
  obtain ⟨hreads', hav'⟩ := reads_step_of_rest (i := i) hreads hrq hav
  obtain ⟨hl', -, hrq', hvpn⟩ : (s.step i).cache.tr.ptw.level ≠ none ∧ _ ∧
      (s.step i).cache.tr.ptw.reqValidQ = true ∧
      (s.step i).cache.tr.ptw.vpnQ = s.cache.vpn := Ptw.step_start hm
  refine ⟨fun hn => absurd hn hl', fun _ => ⟨htv', hs', ?_, hvpn.trans (vpn_step hq).symm⟩,
    fun _ => ⟨(ppnValidLatch_step hq).trans hv, fun _ => ⟨hreads', hav'⟩, fun hn => ?_⟩,
    fun ht => absurd ht (by simp [htv']), fun hf => ?_⟩
  · rw [atp_step hq]
    exact ha
  · simp [hrq'] at hn
  · rcases hs' with hs' | hs' | hs' <;> simp [hs'] at hf

/-- No walk is in progress and none is started. -/
theorem WalkOwned.step_rest (h : s.WalkOwned) (henv : s.Env i) (hq : i.reqValid = false)
    (hl : s.cache.tr.ptw.level = none) (hm : s.cache.tr.tlbMiss = false) :
    (s.step i).WalkOwned := by
  obtain ⟨hreads, hrq, hav⟩ := h.rest hl
  obtain ⟨hreads', hav'⟩ := reads_step_of_rest (i := i) hreads hrq hav
  obtain ⟨hst, hrq'⟩ : (s.step i).cache.tr.ptw.stateQ = .idle ∧
      (s.step i).cache.tr.ptw.reqValidQ = s.cache.tr.ptw.reqValidQ := Ptw.step_rest hl hm
  have htv' : (s.step i).cache.tr.tlbRespValid = false := by simp [tlbRespValid_step, hq]
  have hlevel : (s.step i).cache.tr.ptw.level = none := by simp [Ptw.level, hst]
  refine ⟨fun _ => ⟨hreads', hrq'.trans hrq, hav'⟩, fun hne => absurd hst hne,
    fun hne => absurd hlevel hne, fun ht => absurd ht (by simp [htv']), ?_⟩
  intro hf ha
  rw [atp_step hq] at ha
  refine ⟨?_, htv'⟩
  rw [ppnValidLatch_step hq]
  have hnext : s.cache.caseState i = .fill := by
    simpa [step, Dcache.step, Dcache.nextStateQ, hq] using hf
  cases hs : s.cache.stateQ <;> simp only [Dcache.caseState, hs] at hnext
  case fetch =>
      have hatp : atpMode i.reqAtp = true := by
        rw [henv.atpHeld (by simp [Dcache.Busy, hs])]
        exact ha
      have ho : s.cache.outcome i = .miss := by
        cases ho : s.cache.outcome i <;> simp_all
      by_contra hv
      simp only [Dcache.outcome, hatp] at ho
      split_ifs at ho
      simp_all
  case fill =>
      obtain ⟨hlat, -⟩ := h.fill hs ha
      simp [Translation.ppnValid, hlat]
  all_goals first | exact absurd hnext (by decide) | (split_ifs at hnext)

theorem walkOwned_step (h : s.WalkOwned) (henv : s.Env i) (hearly : s.EarlyHits i) :
    (s.step i).WalkOwned := by
  cases hq : i.reqValid
  · by_cases hl : s.cache.tr.ptw.level = none
    · cases hm : s.cache.tr.tlbMiss
      · exact h.step_rest henv hq hl hm
      · exact h.step_start henv hq hl hm
    · exact h.step_level henv hq hl
  · exact h.step_req henv hearly hq

theorem walkOwned_of_isReset (h : s.IsReset) : s.WalkOwned := by
  obtain ⟨-, htv, hst, hrq, hav, -⟩ := h.cache.tr
  refine ⟨fun _ => ⟨h.reads, hrq, hav⟩, fun hne => absurd hst hne, fun hl => ?_,
    fun ht => absurd ht (by simp [htv]), fun hf => absurd hf (by simp [h.cache.stateQ])⟩
  simp [Ptw.level, hst] at hl

end Step

/-! ## Translations are those of the page tables -/

/-- The memory answers the oldest outstanding read with the bus word that holds the
entry, from the image `mem`. -/
def Answers (mem : ℕ → ℕ) (s : DcacheSys p) (i : DcacheIn) : Prop :=
  ∀ d ∈ i.memDPtw p, ∀ a ∈ s.reads.head?, tlAlignLoad d.data (cat a 3 0 % p.busBytes) = mem a

/-- Every translated request uses the tables at `root`. -/
def Rooted (p : DcacheParams) (root : ℕ) (i : DcacheIn) : Prop :=
  i.reqValid = true → atpMode i.reqAtp = true → slice i.reqAtp (p.physAddrLen - 13) 0 = root

/-- The pair is what the tables of `mem` say about `vpn`. -/
def Translates (p : DcacheParams) (mem : ℕ → ℕ) (root vpn ppn : ℕ) (perm : PageProt) : Prop :=
  Sv39.States (Sv39.walk p.physAddrLen mem root vpn) ppn perm

structure Sound (mem : ℕ → ℕ) (root : ℕ) (s : DcacheSys p) : Prop where
  atp : atpMode s.atp = true → slice s.atp (p.physAddrLen - 13) 0 = root
  walk : Ptw.Ok (fun a pte => mem a = pte) p.physAddrLen root s.cache.tr.ptw
  tlb : ∀ vpn ppn prot, s.cache.tr.tlb.Holds p.tlbSetsWidth vpn ppn prot →
    Translates p mem root vpn ppn prot
  answers : s.cache.Busy → atpMode s.atp = true →
    s.cache.tr.Answers (Translates p mem root s.cache.vpn)

section Sound
variable {mem : ℕ → ℕ} {root : ℕ} {s : DcacheSys p} {i : DcacheIn}

/-- The result of the walker is that of the tables, for the page that it walks. -/
theorem Sound.translates_ptw (h : Sound mem root s) (hv : s.cache.tr.ptw.respValid = true) :
    Translates p mem root s.cache.tr.ptw.vpnQ s.cache.tr.ptw.respPpn s.cache.tr.ptw.respPerm := by
  obtain ⟨o, hw, ho⟩ := Ptw.walk_of_respValid h.walk hv
  rw [Translates, ← Sv39.walk_of_walk hw]
  exact ho

/-- The result of the walker is that of the tables, for the page of the access. -/
theorem Sound.refill (h : Sound mem root s) (ho : s.WalkOwned)
    (hv : s.cache.tr.ptw.respValid = true) :
    Translates p mem root s.cache.vpn s.cache.tr.ptw.respPpn s.cache.tr.ptw.respPerm := by
  have hst : s.cache.tr.ptw.stateQ ≠ .idle := by
    have : s.cache.tr.ptw.stateQ = .done := by simpa [Ptw.respValid] using hv
    simp [this]
  rw [← (ho.active hst).2.2.2]
  exact h.translates_ptw hv

/-- One cycle of the walker. -/
theorem Sound.walk_step (h : Sound mem root s) (ho : s.WalkOwned) (henv : s.Env i)
    (hans : s.Answers mem i) :
    Ptw.Ok (fun a pte => mem a = pte) p.physAddrLen root (s.step i).cache.tr.ptw := by
  have hR : s.cache.ptwAnswered i = true → mem s.cache.tr.ptw.reqAddrQ =
      (s.cache.tr.ptwIn p.translation (s.cache.translationIn i)).memRespData := by
    intro ha
    have hd : (i.memDPtw p).isSome = true := by
      simp only [Dcache.ptwAnswered, Bool.and_eq_true] at ha
      exact ha.1
    have hl : s.cache.tr.ptw.level ≠ none := fun hl => henv.asked hd (ho.rest hl).1
    obtain ⟨-, hreads, hadr, -⟩ := ho.outstanding_read henv hl ha
    obtain ⟨d, hd'⟩ := Option.isSome_iff_exists.mp hd
    have := hans d hd' s.cache.tr.ptw.reqAddrQ (by simp [hreads])
    simp only [Translation.ptwIn, Dcache.translationIn, hd', Option.getD_some, hadr]
    exact this.symm
  have hok := Ptw.ok_step (i := s.cache.tr.ptwIn p.translation (s.cache.translationIn i))
    h.walk hR
  cases hm : s.cache.tr.tlbMiss
  · have hrv : (s.cache.tr.ptwIn p.translation (s.cache.translationIn i)).reqValid = false := hm
    rw [hrv, if_neg (by decide)] at hok
    exact hok
  · obtain ⟨hs, ha⟩ := ho.searching_of_tlbMiss hm
    have hroot : slice i.reqAtp (p.physAddrLen - 13) 0 = root := by
      rw [henv.atpHeld hs.busy]
      exact h.atp ha
    have hpt : (s.cache.tr.ptwIn p.translation (s.cache.translationIn i)).reqPtPpn = root := hroot
    have hrv : (s.cache.tr.ptwIn p.translation (s.cache.translationIn i)).reqValid = true := hm
    rw [hrv, if_pos rfl, hpt] at hok
    exact hok

/-- An access that is in flight after a cycle without a request was in flight before. -/
theorem busy_of_step (hq : i.reqValid = false) (h : (s.step i).cache.Busy) : s.cache.Busy := by
  refine ⟨fun hs => h.1 ?_, fun hs => h.1 ?_⟩ <;>
    simp [step, Dcache.step, Dcache.nextStateQ, hq, Dcache.caseState, hs]

/-- What an access in flight will receive after a cycle. -/
theorem Sound.answers_step (hV : p.virtAddrLen = 39) (h : Sound mem root s)
    (hptw : (s.step i).cache.tr.ptw.respValid = true →
      Translates p mem root (s.step i).cache.vpn (s.step i).cache.tr.ptw.respPpn
        (s.step i).cache.tr.ptw.respPerm)
    (hb : (s.step i).cache.Busy) (ha : atpMode (s.step i).atp = true) :
    (s.step i).cache.tr.Answers (Translates p mem root (s.step i).cache.vpn) := by
  cases hq : i.reqValid
  · rw [atp_step hq] at ha
    have hold := h.answers (busy_of_step hq hb) ha
    refine ⟨fun hl => ?_, fun hv => ?_, hptw⟩
    · rw [vpn_step hq]
      exact hold.latch hl
    · simp [tlbRespValid_step, hq] at hv
  · have hatp : atpMode i.reqAtp = true := by simpa [step, hq] using ha
    have htr : (s.cache.translationIn i).translates = true := by
      simp [TranslationIn.translates, Dcache.translationIn, hq, hatp]
    refine ⟨fun hl => ?_, fun _ a haa => ?_, hptw⟩
    · simp [step, Dcache.step, Translation.step, htr] at hl
    · have hresp := Tlb.resp_step (t := s.cache.tr.tlb)
        (i := s.cache.tr.tlbIn (s.cache.translationIn i)) p.tlbSetsWidth htr
      obtain ⟨e, he, rfl⟩ := Option.map_eq_some_iff.mp (hresp.symm.trans haa)
      have hvpn : (s.step i).cache.vpn = slice i.reqAddress 38 12 := by
        simp [Dcache.vpn, step, Dcache.step, Dcache.nextAddressQ, hq, hV]
      rw [hvpn]
      exact h.tlb _ _ _ (Tlb.holds_of_lookup he)

theorem sound_step (hV : p.virtAddrLen = 39) (h : Sound mem root s) (ho : s.WalkOwned)
    (henv : s.Env i) (hearly : s.EarlyHits i) (hans : s.Answers mem i)
    (hroot : Rooted p root i) : Sound mem root (s.step i) := by
  have hwalk := h.walk_step ho henv hans
  refine ⟨?_, hwalk, ?_, h.answers_step hV ?_⟩
  · intro ha
    cases hq : i.reqValid
    · rw [atp_step hq] at ha ⊢
      exact h.atp ha
    · have hatp : (s.step i).atp = i.reqAtp := by simp [step, hq]
      rw [hatp] at ha ⊢
      exact hroot hq ha
  · intro vpn ppn prot hh
    rcases Tlb.holds_of_step hh with hold | ⟨hv, rfl, rfl, rfl⟩
    · exact h.tlb vpn ppn prot hold
    · exact h.refill ho hv
  · intro hv
    have hst : (s.step i).cache.tr.ptw.stateQ = .done := by simpa [Ptw.respValid] using hv
    obtain ⟨o, hw, hso⟩ := Ptw.walk_of_respValid hwalk hv
    have hvpn := ((walkOwned_step ho henv hearly).active (by simp [hst])).2.2.2
    rw [← hvpn, Translates, ← Sv39.walk_of_walk hw]
    exact hso

end Sound

/-! ## Whole runs -/

section Run
variable {mem : ℕ → ℕ} {root : ℕ} {s₀ : DcacheSys p} {inp : ℕ → DcacheIn}

/-- The system after `n` cycles. -/
def after (s₀ : DcacheSys p) (inp : ℕ → DcacheIn) (n : ℕ) : DcacheSys p := run step s₀ inp n

/-- A cycle in which the backend and the memory obey their rules, over the image `mem`
and the root `root`, and no request that faults early starts a walk. -/
structure Orderly (mem : ℕ → ℕ) (root : ℕ) (s : DcacheSys p) (i : DcacheIn) : Prop where
  env : s.Env i
  answers : s.Answers mem i
  rooted : Rooted p root i
  earlyHits : s.EarlyHits i

theorem sound_of_isReset (h : s₀.IsReset)
    (hempty : ∀ vpn ppn prot, ¬s₀.cache.tr.tlb.Holds p.tlbSetsWidth vpn ppn prot) :
    Sound mem root s₀ := by
  obtain ⟨-, -, hst, -, -, -⟩ := h.cache.tr
  refine ⟨fun ha => ?_, by simp [Ptw.Ok, hst], fun vpn ppn prot hh => absurd hh (hempty _ _ _),
    fun hb => absurd h.cache.stateQ hb.1⟩
  simp [h.atp, atpMode] at ha

/-- Both invariants along a run of orderly cycles. -/
theorem sound_after (hV : p.virtAddrLen = 39) (h0 : s₀.IsReset)
    (hempty : ∀ vpn ppn prot, ¬s₀.cache.tr.tlb.Holds p.tlbSetsWidth vpn ppn prot) (n : ℕ)
    (hrun : ∀ k < n, (after s₀ inp k).Orderly mem root (inp k)) :
    (after s₀ inp n).WalkOwned ∧ Sound mem root (after s₀ inp n) := by
  refine run_invariant (fun s : DcacheSys p => s.WalkOwned ∧ Sound mem root s)
    (Orderly mem root) ⟨walkOwned_of_isReset h0, sound_of_isReset h0 hempty⟩ ?_ n hrun
  rintro s i ⟨ho, hs⟩ ⟨henv, hans, hroot, hearly⟩
  exact ⟨walkOwned_step ho henv hearly, sound_step hV hs ho henv hearly hans hroot⟩

/-- The valid entry that a lookup can hit agrees with the tables, which map the page. -/
theorem walk_of_translates {vpn ppn : ℕ} {prot : PageProt} (h : Translates p mem root vpn ppn prot)
    (hv : prot.valid = true) :
    ∃ l, Sv39.walk p.physAddrLen mem root vpn = some l ∧ ppn = l.ppn ∧
      prot = Sv39.protOf l.flags := by
  unfold Translates Sv39.States at h
  split at h
  · rename_i l hl
    exact ⟨l, hl, h⟩
  · simp [hv] at h

/-- In a run of orderly cycles every valid TLB entry holds the page and the permissions
that the tables give, and so does the pair used by a translated access, for its own
page. -/
theorem translations_of_tables (hV : p.virtAddrLen = 39) (h0 : s₀.IsReset)
    (hempty : ∀ vpn ppn prot, ¬s₀.cache.tr.tlb.Holds p.tlbSetsWidth vpn ppn prot) (n : ℕ)
    (hrun : ∀ k ≤ n, (after s₀ inp k).Orderly mem root (inp k)) :
    (∀ vpn ppn prot, (after s₀ inp n).cache.tr.tlb.Holds p.tlbSetsWidth vpn ppn prot →
      ∃ l, Sv39.walk p.physAddrLen mem root vpn = some l ∧ ppn = l.ppn ∧
        prot = Sv39.protOf l.flags) ∧
    (atpMode (inp n).reqAtp = true →
      (after s₀ inp n).cache.stateQ = .fetch ∧ (after s₀ inp n).cache.tr.ppnValid = true ∨
        (after s₀ inp n).cache.stateQ = .fill →
      Translates p mem root (after s₀ inp n).cache.vpn (after s₀ inp n).cache.tr.ppn
        (after s₀ inp n).cache.tr.ppnPerm) := by
  obtain ⟨ho, hs⟩ := sound_after hV h0 hempty n fun k hk => hrun k hk.le
  constructor
  · intro vpn ppn prot hh
    exact walk_of_translates (hs.tlb vpn ppn prot hh) (Tlb.valid_of_holds hh)
  · intro ha huse
    have hbusy : (after s₀ inp n).cache.Busy := by
      rcases huse with ⟨hst, -⟩ | hst <;> simp [Dcache.Busy, hst]
    rw [(hrun n le_rfl).env.atpHeld hbusy] at ha
    refine (hs.answers hbusy ha).good ?_
    rcases huse with ⟨-, hv⟩ | hst
    · exact hv
    · simp [Translation.ppnValid, (ho.fill hst ha).1]

end Run

/-! ## A small system -/

instance (s : Dcache p) : Decidable s.Busy := inferInstanceAs (Decidable (_ ∧ _))

instance (s : DcacheSys p) (i : DcacheIn) : Decidable (s.Env i) :=
  decidable_of_iff ((i.reqValid = true → s.cache.reqReady i = true) ∧
      (s.cache.Busy → i.reqAtp = s.atp) ∧ ((i.memDPtw p).isSome = true → s.reads ≠ []))
    ⟨fun ⟨a, b, c⟩ => ⟨a, b, c⟩, fun ⟨a, b, c⟩ => ⟨a, b, c⟩⟩

instance (mem : ℕ → ℕ) (s : DcacheSys p) (i : DcacheIn) : Decidable (s.Answers mem i) :=
  inferInstanceAs (Decidable (∀ d ∈ i.memDPtw p, ∀ a ∈ s.reads.head?, _))

instance (root : ℕ) (i : DcacheIn) : Decidable (Rooted p root i) :=
  inferInstanceAs (Decidable (_ → _ → _))

instance (s : DcacheSys p) (i : DcacheIn) : Decidable (s.EarlyHits i) :=
  inferInstanceAs (Decidable (_ → _ → _ → _ ≠ _))

instance (mem : ℕ → ℕ) (root : ℕ) (s : DcacheSys p) (i : DcacheIn) :
    Decidable (s.Orderly mem root i) :=
  decidable_of_iff (s.Env i ∧ s.Answers mem i ∧ Rooted p root i ∧ s.EarlyHits i)
    ⟨fun ⟨a, b, c, d⟩ => ⟨a, b, c, d⟩, fun ⟨a, b, c, d⟩ => ⟨a, b, c, d⟩⟩

/-- A cache with two ways, two sets and a fully associative TLB of two entries. -/
def smallParams : DcacheParams where
  dataWidth := 64
  waysWidth := 1
  setsWidth := 1
  virtAddrLen := 39
  physAddrLen := 56
  sourceBase := 0
  ptwSourceBase := 1
  tlbNumWays := 2
  tlbSetsWidth := 0

/-- The system after reset, with empty RAMs. -/
def smallReset : DcacheSys smallParams where
  cache :=
    { respValidQ := false
      respValueQ := 0
      memAArb := .reset
      reqBurst := .reset smallParams.burst
      gntBurst := .reset smallParams.burst
      tagRam := ⟨fun _ _ => default, fun _ => default⟩
      tagReadPhysicalLatch := true
      tagReadAddrLatch := 0
      dataRam := ⟨fun _ _ => 0, fun _ => 0, 0, 0⟩
      wbStateQ := .idle
      wbWayQ := 0
      wbIndexQ := 0
      wbOpcodeQ := .release
      wbParamQ := 0
      wbAddressQ := 0
      evictCompletedQ := false
      wbDataSkid := 0
      wbDataSkidValid := false
      refillFifo := .reset
      refillBeatSavedQ := false
      refillBeatAckedQ := false
      refillStateQ := .idle
      refillTrackerValid := false
      tr := ⟨.fullyAssoc .reset, false, .reset, false, 0, 0, false, default⟩
      evictWayQ := 0
      probeStateQ := .idle
      probeTrackerValid := false
      probeAddressQ := 0
      probeParamQ := 0
      flushStateQ := .reset
      flushTrackerValid := true
      flushTlbPendingQ := false
      flushIndexQ := 0
      missStateQ := .idle
      missUpgradeQ := false
      missRefillSentQ := false
      missUncachedSentQ := false
      stateQ := .idle
      exCodeQ := .loadMisalign
      addressQ := 0
      valueQ := 0
      maskQ := 0
      sizeQ := 0
      sizeExtQ := .zero
      opQ := .load
      amoQ := 0
      reservedQ := false
      reservationQ := 0
      reservationFailedQ := false
      wayQ := 0
      accessLockAddr := 0
      accessLockTimerQ := 0 }
  atp := 0
  reads := []

theorem isReset_smallReset : smallReset.IsReset :=
  ⟨⟨rfl, rfl, rfl, rfl, rfl, rfl, rfl, rfl, rfl, rfl, rfl, rfl, rfl, rfl, rfl,
    ⟨⟨rfl, rfl⟩, rfl, rfl, rfl, rfl, rfl⟩, rfl, rfl, rfl, rfl, rfl, rfl, rfl, rfl, rfl, rfl, rfl,
    rfl, rfl, rfl, rfl⟩, rfl, rfl⟩

theorem not_holds_smallReset (vpn ppn : ℕ) (prot : PageProt) :
    ¬smallReset.cache.tr.tlb.Holds smallParams.tlbSetsWidth vpn ppn prot := by
  rintro ⟨k, rfl, hv, -⟩
  change (default : PageProt).valid = true at hv
  exact absurd hv (by decide)

/-- A cycle without a request and without an answer of the memory. -/
def quiet : DcacheIn :=
  ⟨false, 0, 0, .load, 3, .zero, 0, true, false, false, 2 ^ 63, false, true, none, true, none, true⟩

/-- A translated load of a double word. -/
def load (address : ℕ) : DcacheIn := { quiet with reqValid := true, reqAddress := address }

/-- An answer to the walker. -/
def ptwReply (data : ℕ) : DcacheIn :=
  { quiet with memD := some ⟨.accessAckData, 0, 1, 1, 0, false, false, data⟩ }

/-- Page tables at zero that map the first gigabyte, readable, and nothing else. -/
def tables (a : ℕ) : ℕ := if a = 0 then 0x43 else 0

/-- A load that misses the TLB, and the answer to its walk. -/
def plainLoad (k : ℕ) : DcacheIn :=
  if k = 0 then load 0x1000 else if k = 3 then ptwReply 0x43 else quiet

/-- The load of a mapped page refills its line with the translation of the tables. -/
theorem translations_of_tables_plainLoad :
    (after smallReset plainLoad 7).cache.stateQ = .fill ∧
      Translates smallParams tables 0 1 (after smallReset plainLoad 7).cache.tr.ppn
        (after smallReset plainLoad 7).cache.tr.ppnPerm :=
  ⟨by decide,
    (translations_of_tables rfl isReset_smallReset not_holds_smallReset 7
      (show ∀ k ≤ 7, (after smallReset plainLoad k).Orderly tables 0 (plainLoad k) by
        decide)).2
      (by decide) (.inr (by decide))⟩

/-- A misaligned load of a mapped page, then a load of a page that is not mapped. -/
def abandonedWalk (k : ℕ) : DcacheIn :=
  if k = 0 then load 1 else if k = 2 then load 0x40000000
  else if k = 5 then ptwReply 0x43 else quiet

/-- The walk of the misaligned load is not cancelled, and its entry is taken for an
entry of the second load: the cache uses a valid translation where the tables have
none. -/
theorem wrong_translation_after_early_fault :
    smallReset.IsReset ∧
      (∀ vpn ppn prot, ¬smallReset.cache.tr.tlb.Holds smallParams.tlbSetsWidth vpn ppn prot) ∧
      (∀ k ≤ 8, (after smallReset abandonedWalk k).Env (abandonedWalk k) ∧
        (after smallReset abandonedWalk k).Answers tables (abandonedWalk k) ∧
        Rooted smallParams 0 (abandonedWalk k)) ∧
      (after smallReset abandonedWalk 8).cache.stateQ = .fetch ∧
      (after smallReset abandonedWalk 8).cache.tr.ppnValid = true ∧
      atpMode (abandonedWalk 8).reqAtp = true ∧
      ¬Translates smallParams tables 0 (after smallReset abandonedWalk 8).cache.vpn
        (after smallReset abandonedWalk 8).cache.tr.ppn
        (after smallReset abandonedWalk 8).cache.tr.ppnPerm := by
  refine ⟨isReset_smallReset, not_holds_smallReset, by decide, by decide,
    by decide, by decide, ?_⟩
  intro h
  have hwalk : Sv39.walk 56 tables 0 (after smallReset abandonedWalk 8).cache.vpn = none := by
    decide
  have hfault : Sv39.States none (after smallReset abandonedWalk 8).cache.tr.ppn
      (after smallReset abandonedWalk 8).cache.tr.ppnPerm := hwalk ▸ h
  have hvalid : (after smallReset abandonedWalk 8).cache.tr.ppnPerm.valid = true := by
    decide
  exact absurd (hvalid.symm.trans hfault) (by decide)

end DcacheSys

end Muntjac.Core

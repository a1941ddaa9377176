import Muntjac.Core.Icache

/-!
# Fences and the translations of the instruction cache

A fence request flushes the TLB, and its own lookup is made in the same cycle.  This
file follows the translations that the cache uses after a fence back to the page
table reads they come from.

The cache runs in a system with a frontend, which waits for the answer to a request
before it makes the next one, and with a memory that answers the outstanding reads of
the walker in any order, after any delay and with any contents.

## Main definitions

* `IcacheSys.step` — one cycle of the cache, of the frontend's monitor and of the
  list of outstanding page table reads.
* `IcacheSys.WalkedAfter` — the pair is the result of a walk all of whose reads were
  issued after a given cycle.
* `Icache.FenceMisses` — the state before a fence in which the cache meets no stale
  translation.
-/

namespace Muntjac.Core

open Sync Tl

/-- A page table read in flight: its address and the cycle that issued it. -/
structure PtwRead where
  addr : ℕ
  cycle : ℕ
  deriving DecidableEq, Repr

/-- The inputs of a cycle; `answered` is the outstanding read that an answer to the
walker belongs to. -/
structure IcacheEv where
  inp : IcacheIn
  answered : ℕ

namespace Icache
variable {p : IcacheParams}

/-- The entry that the walker receives in this cycle. -/
def ptwAnswer (s : Icache p) (i : IcacheIn) : Option ℕ :=
  if s.tr.ptwAValid then (i.memDPtw p).map fun d => tlAlignLoad d.data s.tr.ptwAAddress else none

/-- The read that the walker issues in this cycle. -/
def ptwIssue (s : Icache p) (i : IcacheIn) : Option ℕ :=
  if s.tr.ptw.reqValidQ && s.memAReadyMult i 0 then some s.tr.ptw.reqAddrQ else none

/-- An access is being translated: its answer will depend on `ppn`. -/
def Translating (s : Icache p) : Prop :=
  s.atpModeQ = true ∧ s.stateQ ≠ .idle ∧ s.stateQ ≠ .exception

end Icache

/-- The cache, whether the frontend waits for an answer, and the outstanding reads. -/
structure IcacheSys (p : IcacheParams) where
  cache : Icache p
  busy : Bool
  reads : List PtwRead
  now : ℕ

namespace IcacheSys
variable {p : IcacheParams}

def step (s : IcacheSys p) (e : IcacheEv) : IcacheSys p where
  cache := s.cache.step e.inp
  busy := e.inp.reqValid || (s.busy && !s.cache.answers)
  reads :=
    (if (s.cache.ptwAnswer e.inp).isSome then s.reads.eraseIdx e.answered else s.reads) ++
      ((s.cache.ptwIssue e.inp).map fun a => ⟨a, s.now⟩).toList
  now := s.now + 1

/-- The rules of the environment: the frontend waits for its answer, and the memory
answers only what it was asked. -/
structure Env (s : IcacheSys p) (e : IcacheEv) : Prop where
  waits : e.inp.reqValid = true → s.busy = false ∨ s.cache.answers = true
  asked : (s.cache.ptwAnswer e.inp).isSome = true → e.answered < s.reads.length

structure IsReset (s : IcacheSys p) : Prop where
  cache : s.cache.IsReset
  busy : s.busy = false
  reads : s.reads = []
  now : s.now = 0

section Run
variable (s₀ : IcacheSys p) (inp : ℕ → IcacheEv) (t : ℕ)

/-- The system after `n` cycles. -/
def after (n : ℕ) : IcacheSys p := run step s₀ inp n

/-- The walker, waiting for the entry at `a`, was answered with `d`, and the read that
was answered had been issued after cycle `t`. -/
def ReadAfter (a d : ℕ) : Prop :=
  ∃ k r, (after s₀ inp k).reads[(inp k).answered]? = some r ∧ t < r.cycle ∧
    (after s₀ inp k).cache.ptwAnswer (inp k).inp = some d ∧
    (after s₀ inp k).cache.tr.ptw.reqAddrQ = a

/-- The pair is the result of a walk whose reads were all issued after cycle `t`. -/
def WalkedAfter (ppn : ℕ) (perm : PageProt) : Prop :=
  ∃ root vpn o, Sv39.Walk (ReadAfter s₀ inp t) p.physAddrLen root vpn o ∧ Sv39.States o ppn perm

/-- A fence is accepted in cycle `t` with translation enabled. -/
def FenceAt : Prop :=
  (inp t).inp.reqValid = true ∧ (inp t).inp.isFence = true ∧ atpMode (inp t).inp.reqAtp = true

end Run

/-- No walk is in progress and no page table read is outstanding; the lookup of the
fence misses unless the fence faults early; and a flush that walks the sets of the TLB
is waited for. -/
def FenceMisses (s : IcacheSys p) (i : IcacheIn) : Prop :=
  s.cache.tr.ptw.level = none ∧ s.cache.tr.ptw.reqValidQ = false ∧ s.reads = [] ∧
    (i.canonicalVirtual p = true →
      s.cache.tr.tlb.lookup p.tlbSetsWidth (slice i.reqPc 38 12) (atpAsid i.reqAtp) = none) ∧
    (p.tlbSetsWidth = 0 ∨ i.canonicalVirtual p = true ∧ s.cache.flushStateQ = .idle)

/-! ## The invariant after a fence -/

/-- The main machine waits for a flush of the TLB that is still walking the sets. -/
structure Waiting (s : IcacheSys p) : Prop where
  stateQ : s.cache.stateQ = .flush
  flushTlbPendingQ : s.cache.flushTlbPendingQ = true
  flushStateQ : s.cache.flushStateQ ≠ .idle
  busy : s.busy = true

/-- Every pair that an access can still receive satisfies `Good`, where `Good` is
kept by walks over `R`-reads. -/
structure Fresh (R : ℕ → ℕ → Prop) (Good : ℕ → PageProt → Prop) (t : ℕ) (s : IcacheSys p) :
    Prop where
  now : t < s.now
  reads : ∀ r ∈ s.reads, t < r.cycle
  walk : ∃ root, Ptw.Ok R p.physAddrLen root s.cache.tr.ptw
  tlb : s.cache.tr.tlb.Settled p.tlbSetsWidth fun _ => Good
  flush : s.cache.tr.tlb.flushing = true →
    s.Waiting ∨ ∀ vpn ppn prot, s.cache.tr.tlb.Holds p.tlbSetsWidth vpn ppn prot → Good ppn prot
  answers : s.cache.Translating → s.cache.tr.Answers Good

section Step
variable {R : ℕ → ℕ → Prop} {Good : ℕ → PageProt → Prop} {t : ℕ} {s : IcacheSys p} {e : IcacheEv}

/-- While the TLB is being flushed no request is made, and the access stays where it is
until the flush of the TLB answers. -/
theorem Waiting.step (h : s.Waiting) (henv : s.Env e) :
    e.inp.reqValid = false ∧
      (s.cache.tr.tlb.flushResp p.tlbSetsWidth = false → (s.step e).Waiting) := by
  obtain ⟨hst, hpend, hfl, hbusy⟩ := h
  have hans : s.cache.answers = false := by
    simp [Icache.answers, Icache.respValid, Icache.exValid, hst]
  have hreq : e.inp.reqValid = false := by
    cases hq : e.inp.reqValid
    · rfl
    · rcases henv.waits hq with hb | ha
      · simp [hbusy] at hb
      · simp [hans] at ha
  refine ⟨hreq, fun hresp => ⟨?_, ?_, ?_, ?_⟩⟩
  · simp [IcacheSys.step, Icache.step, Icache.nextStateQ, hreq, Icache.caseState, hst,
      Icache.flushReady, hpend]
  · simp [IcacheSys.step, Icache.step, Icache.nextFlushTlbPendingQ, hpend, hresp]
  · simp only [IcacheSys.step, Icache.step, Icache.nextFlushStateQ]
    split <;> simp_all
    all_goals split_ifs <;> simp
  · simp [IcacheSys.step, hbusy, hans]

/-- The walker delivers the result of a walk over `R`-reads. -/
theorem Fresh.refill (h : Fresh R Good t s)
    (hgood : ∀ root vpn o ppn perm, Sv39.Walk R p.physAddrLen root vpn o →
      Sv39.States o ppn perm → Good ppn perm)
    (hv : s.cache.tr.ptw.respValid = true) :
    Good s.cache.tr.ptw.respPpn s.cache.tr.ptw.respPerm := by
  obtain ⟨root, hok⟩ := h.walk
  obtain ⟨o, hw, ho⟩ := Ptw.walk_of_respValid hok hv
  exact hgood root _ o _ _ hw ho

/-- One cycle of the walker. -/
theorem Fresh.walk_step (h : Fresh R Good t s)
    (hR : ∀ r d, s.reads[e.answered]? = some r → t < r.cycle →
      s.cache.ptwAnswer e.inp = some d → R s.cache.tr.ptw.reqAddrQ d)
    (henv : s.Env e) :
    ∃ root, Ptw.Ok R p.physAddrLen root (s.step e).cache.tr.ptw := by
  obtain ⟨root, hok⟩ := h.walk
  refine ⟨_, Ptw.ok_step hok fun hv => ?_⟩
  simp only [Translation.ptwIn, Icache.translationIn, Bool.and_eq_true] at hv
  obtain ⟨d, hd⟩ := Option.isSome_iff_exists.mp hv.1
  have hans : s.cache.ptwAnswer e.inp =
      some (tlAlignLoad d.data s.cache.tr.ptwAAddress) := by
    simp [Icache.ptwAnswer, hv.2, hd]
  have hlt := henv.asked (by simp [hans])
  have hget := List.getElem?_eq_getElem hlt
  have := hR _ _ hget (h.reads _ (List.getElem_mem hlt)) hans
  simpa [Translation.ptwIn, Icache.translationIn, hd] using this

/-- An access in flight after a cycle without a request was in flight before it. -/
theorem Icache.translating_of_step {c : Icache p} {i : IcacheIn} (hq : i.reqValid = false)
    (h : (c.step i).Translating) : c.Translating := by
  obtain ⟨hm, hi, hx⟩ := h
  refine ⟨by simpa [Icache.step, hq] using hm, ?_, ?_⟩ <;> intro hst
  · exact hi (by simp [Icache.step, Icache.nextStateQ, hq, Icache.caseState, hst])
  · exact hi (by simp [Icache.step, Icache.nextStateQ, hq, Icache.caseState, hst])

/-- The reads in flight after a cycle. -/
theorem Fresh.reads_step (h : Fresh R Good t s) : ∀ r ∈ (s.step e).reads, t < r.cycle := by
  intro r hr
  simp only [step, List.mem_append] at hr
  rcases hr with hr | hr
  · refine h.reads r ?_
    split_ifs at hr
    · exact List.mem_of_mem_eraseIdx hr
    · exact hr
  · simp only [Option.mem_toList, Option.map_eq_some_iff] at hr
    obtain ⟨a, -, rfl⟩ := hr
    exact h.now

/-- A request is only made when no stale entry is left. -/
theorem Fresh.good_of_req (h : Fresh R Good t s) (henv : s.Env e) (hq : e.inp.reqValid = true)
    {vpn ppn : ℕ} {prot : PageProt} (hh : s.cache.tr.tlb.Holds p.tlbSetsWidth vpn ppn prot) :
    Good ppn prot := by
  cases hf : s.cache.tr.tlb.flushing
  · exact h.tlb.good hf hh
  · rcases h.flush hf with hw | hg
    · simp [(hw.step henv).1] at hq
    · exact hg vpn ppn prot hh

/-- A flush of the TLB that goes on is waited for, or has nothing stale left to clear. -/
theorem Fresh.flush_step (h : Fresh R Good t s) (henv : s.Env e)
    (hrefill : s.cache.tr.ptw.respValid = true →
      Good s.cache.tr.ptw.respPpn s.cache.tr.ptw.respPerm)
    (hf' : (s.step e).cache.tr.tlb.flushing = true) :
    (s.step e).Waiting ∨ ∀ vpn ppn prot,
      (s.step e).cache.tr.tlb.Holds p.tlbSetsWidth vpn ppn prot → Good ppn prot := by
  by_cases hg : ∀ vpn ppn prot,
      s.cache.tr.tlb.Holds p.tlbSetsWidth vpn ppn prot → Good ppn prot
  · refine .inr fun vpn ppn prot hh => ?_
    rcases Tlb.holds_of_step hh with hold | ⟨hv, -, rfl, rfl⟩
    · exact hg vpn ppn prot hold
    · exact hrefill hv
  · left
    have hf : s.cache.tr.tlb.flushing = true := by
      by_contra hf
      exact hg fun vpn ppn prot hh => h.tlb.good (by simpa using hf) hh
    have hw := (h.flush hf).resolve_right hg
    refine (hw.step henv).2 ?_
    have hnext := (Tlb.flushing_step hf).symm.trans hf'
    simpa using hnext

/-- The lookup of a translated request finds good entries only. -/
theorem Fresh.answers_req (h : Fresh R Good t s) (henv : s.Env e) (hq : e.inp.reqValid = true)
    (hm : atpMode e.inp.reqAtp = true)
    (hptw : (s.step e).cache.tr.ptw.respValid = true →
      Good (s.step e).cache.tr.ptw.respPpn (s.step e).cache.tr.ptw.respPerm) :
    (s.step e).cache.tr.Answers Good := by
  have hi : (s.cache.translationIn e.inp).translates = true := by
    simp [TranslationIn.translates, Icache.translationIn, hq, hm]
  refine ⟨fun hl => ?_, fun _ a ha => ?_, hptw⟩
  · simp [step, Icache.step, Translation.step, hi] at hl
  · have hresp := Tlb.resp_step (t := s.cache.tr.tlb)
      (i := s.cache.tr.tlbIn (s.cache.translationIn e.inp)) p.tlbSetsWidth hi
    obtain ⟨en, hen, rfl⟩ := Option.map_eq_some_iff.mp (hresp.symm.trans ha)
    exact h.good_of_req henv hq (Tlb.holds_of_lookup hen)

theorem fresh_step
    (hgood : ∀ root vpn o ppn perm, Sv39.Walk R p.physAddrLen root vpn o →
      Sv39.States o ppn perm → Good ppn perm)
    (h : Fresh R Good t s) (henv : s.Env e)
    (hR : ∀ r d, s.reads[e.answered]? = some r → t < r.cycle →
      s.cache.ptwAnswer e.inp = some d → R s.cache.tr.ptw.reqAddrQ d) :
    Fresh R Good t (s.step e) := by
  have hrefill := h.refill hgood
  have hwalk := h.walk_step hR henv
  have hptw : (s.step e).cache.tr.ptw.respValid = true →
      Good (s.step e).cache.tr.ptw.respPpn (s.step e).cache.tr.ptw.respPerm := by
    intro hv
    obtain ⟨root, hok⟩ := hwalk
    obtain ⟨o, hw, ho⟩ := Ptw.walk_of_respValid hok hv
    exact hgood root _ o _ _ hw ho
  refine ⟨Nat.lt_succ_of_lt h.now, h.reads_step, hwalk, Tlb.settled_step h.tlb hrefill,
    h.flush_step henv hrefill, fun htr => ?_⟩
  cases hq : e.inp.reqValid
  · have hans := h.answers (Icache.translating_of_step hq htr)
    refine ⟨fun hl => hans.latch hl, fun hv => ?_, hptw⟩
    simp [step, Icache.step, Translation.step, TranslationIn.translates, Icache.translationIn,
      hq] at hv
  · have hm : atpMode e.inp.reqAtp = true := by simpa [step, Icache.step, hq] using htr.1
    exact h.answers_req henv hq hm hptw

/-- The cycle that accepts the fence establishes the invariant. -/
theorem fresh_of_fence (hnow : s.now = t) (hwf : s.cache.tr.tlb.Wf p.tlbSetsWidth)
    (henv : s.Env e) (hq : e.inp.reqValid = true) (hfence : e.inp.isFence = true)
    (hm : atpMode e.inp.reqAtp = true) (hmiss : s.FenceMisses e.inp) :
    Fresh R Good t (s.step e) := by
  obtain ⟨hlevel, hreq, hreads, hlookup, hset⟩ := hmiss
  have hfl : e.inp.flushValid = true := by simp [IcacheIn.flushValid, hq, hfence]
  have hi : (s.cache.translationIn e.inp).translates = true := by
    simp [TranslationIn.translates, Icache.translationIn, hq, hm]
  have hnone : s.cache.ptwAnswer e.inp = none := by
    cases hans : s.cache.ptwAnswer e.inp
    · rfl
    · have := henv.asked (by simp [hans])
      simp [hreads] at this
  have hidle : (s.step e).cache.tr.ptw.respValid = false ∧
      ∃ root, Ptw.Ok R p.physAddrLen root (s.step e).cache.tr.ptw :=
    Ptw.ok_of_level_none hlevel
  have htlb : (s.step e).cache.tr.tlb.Settled p.tlbSetsWidth fun _ => Good :=
    Tlb.settled_flush hwf hfl
  refine ⟨by simp [step, hnow], ?_, hidle.2, htlb, ?_, ?_⟩
  · intro r hr
    simp [step, hnone, hreads, Icache.ptwIssue, hreq] at hr
  · intro hf
    left
    rcases hset with h0 | ⟨hc, hst⟩
    · have hwf' : (s.step e).cache.tr.tlb.Wf 0 := h0 ▸ Tlb.wf_step hwf
      simp [Tlb.flushing_of_fullyAssoc hwf'] at hf
    · refine ⟨?_, ?_, ?_, by simp [step, hq]⟩
      · simp [step, Icache.step, Icache.nextStateQ, hq, hfence, IcacheIn.faultsEarly, hm, hc]
      · simp [step, Icache.step, Icache.nextFlushTlbPendingQ, hst, hfl]
      · simp [step, Icache.step, Icache.nextFlushStateQ, hst, hfl]
  · intro htr
    have hc : e.inp.canonicalVirtual p = true := by
      by_contra hc
      refine htr.2.2 ?_
      simp [step, Icache.step, Icache.nextStateQ, hq, IcacheIn.faultsEarly, hm, hc]
    refine ⟨fun hl => ?_, fun _ a ha => ?_, fun hv => ?_⟩
    · simp [step, Icache.step, Translation.step, hi] at hl
    · have hresp := Tlb.resp_step (t := s.cache.tr.tlb)
        (i := s.cache.tr.tlbIn (s.cache.translationIn e.inp)) p.tlbSetsWidth hi
      have hl := hlookup hc
      simp only [Translation.tlbIn, Icache.translationIn] at hresp
      rw [hl] at hresp
      have := hresp.symm.trans ha
      simp at this
    · simp [hidle.1] at hv

end Step

/-! ## Whole runs -/

section Run
variable {s₀ : IcacheSys p} {inp : ℕ → IcacheEv}

theorem wf_after (h : s₀.IsReset) (n : ℕ) : (after s₀ inp n).cache.tr.tlb.Wf p.tlbSetsWidth :=
  run_invariant (fun s : IcacheSys p => s.cache.tr.tlb.Wf p.tlbSetsWidth)
    (fun _ _ => True) (Tlb.wf_of_isReset h.cache.tr.1) (fun _ _ hwf _ => Tlb.wf_step hwf) n
    fun _ _ => trivial

/-- After a fence that misses, everything that the cache uses comes from later walks. -/
theorem fresh_after (h0 : s₀.IsReset) (henv : ∀ k, (after s₀ inp k).Env (inp k)) {t : ℕ}
    (hf : FenceAt inp t) (hmiss : (after s₀ inp t).FenceMisses (inp t).inp) {n : ℕ} (hn : t < n) :
    Fresh (ReadAfter s₀ inp t) (WalkedAfter s₀ inp t) t (after s₀ inp n) := by
  refine run_invariant_from (fun _ => Fresh (ReadAfter s₀ inp t) (WalkedAfter s₀ inp t) t)
    (fun k s e => s = after s₀ inp k ∧ e = inp k) (t + 1) ?_ ?_ n hn
    fun _ _ _ => ⟨rfl, rfl⟩
  · have hnow : (after s₀ inp t).now = t := run_clock IcacheSys.now (fun _ _ => rfl) h0.now t
    exact fresh_of_fence hnow (wf_after h0 t) (henv t) hf.1 hf.2.1 hf.2.2 hmiss
  · rintro k - s e hfresh ⟨rfl, rfl⟩
    refine fresh_step ?_ hfresh (henv k) fun r d hr hc hd => ⟨k, r, hr, hc, hd, rfl⟩
    intro root vpn o ppn perm hw ho
    exact ⟨root, vpn, o, hw, ho⟩

/-- A fence that meets no stale translation takes effect: the pair used by its own
access and by every later one is the result of a walk whose reads were all issued
after the fence. -/
theorem walkedAfter_of_fence (h0 : s₀.IsReset) (henv : ∀ k, (after s₀ inp k).Env (inp k)) {t : ℕ}
    (hf : FenceAt inp t) (hmiss : (after s₀ inp t).FenceMisses (inp t).inp) {n : ℕ} (hn : t < n)
    (htr : (after s₀ inp n).cache.Translating) (hv : (after s₀ inp n).cache.tr.ppnValid = true) :
    WalkedAfter s₀ inp t (after s₀ inp n).cache.tr.ppn (after s₀ inp n).cache.tr.ppnPerm :=
  ((fresh_after h0 henv hf hmiss hn).answers htr).good hv

end Run

/-! ## A small system -/

/-- Nothing is required of a quiet cycle. -/
theorem env_quiet (s : IcacheSys p) {e : IcacheEv} (hq : e.inp.reqValid = false)
    (hd : e.inp.memD = none) : s.Env e := by
  refine ⟨fun h => ?_, fun h => ?_⟩
  · simp [hq] at h
  · simp [Icache.ptwAnswer, IcacheIn.memDPtw, hd] at h

/-- A cache with two ways, two sets and a fully associative TLB of two entries. -/
def smallParams : IcacheParams where
  dataWidth := 64
  waysWidth := 1
  setsWidth := 1
  virtAddrLen := 39
  physAddrLen := 56
  sourceBase := 0
  ptwSourceBase := 1
  tlbNumWays := 2
  tlbSetsWidth := 0

/-- The system after reset, with empty RAMs. -/
def smallReset : IcacheSys smallParams where
  cache :=
    { memAArb := .reset
      reqBurst := .reset smallParams.burst
      gntBurst := .reset smallParams.burst
      tagRam := ⟨fun _ _ => default, fun _ => default⟩
      tagReadPhysicalLatch := true
      tagReadAddrLatch := 0
      dataRam := ⟨fun _ _ => 0, fun _ => 0, 0, 0⟩
      refillStateQ := .idle
      refillTrackerValid := false
      tr := ⟨.fullyAssoc .reset, false, .reset, false, 0, 0, false, default⟩
      evictWayQ := 0
      flushStateQ := .reset
      flushTrackerValid := true
      flushTlbPendingQ := false
      flushIndexQ := 0
      missStateQ := .idle
      missRefillSentQ := false
      stateQ := .flush
      exCodeQ := .instrPageFault
      addressQ := 0
      atpModeQ := false
      prvQ := false
      sumQ := false
      wayQ := 0 }
  busy := false
  reads := []
  now := 0

theorem isReset_smallReset : smallReset.IsReset :=
  ⟨⟨rfl, rfl, rfl, rfl, rfl, rfl, ⟨⟨rfl, rfl⟩, rfl, rfl, rfl, rfl, rfl⟩, rfl, rfl, rfl, rfl,
    rfl, rfl,
    rfl, rfl, rfl, rfl⟩, rfl, rfl, rfl⟩

/-- A cycle without a request and without an answer of the memory. -/
def quiet : IcacheIn := ⟨false, 0, 0, false, false, 2 ^ 63, true, none⟩

/-- A translated request for page one. -/
def request (reason : ℕ) : IcacheIn := ⟨true, 0x1000, reason, true, false, 2 ^ 63, true, none⟩

/-- A leaf that is valid and readable but not executable. -/
def ptwReply : IcacheIn :=
  { quiet with memD := some ⟨.accessAckData, 0, 1, 1, 0, false, false, 0x43⟩ }

/-- A fence in the first cycle, and the answer to its walk. -/
def fenceFirst (k : ℕ) : IcacheEv :=
  ⟨if k = 0 then request 0b1111 else if k = 3 then ptwReply else quiet, 0⟩

theorem env_fenceFirst (k : ℕ) : (after smallReset fenceFirst k).Env (fenceFirst k) := by
  by_cases h0 : k = 0
  · subst h0
    exact ⟨fun _ => .inl rfl, fun h => absurd h (by decide)⟩
  by_cases h3 : k = 3
  · subst h3
    exact ⟨fun h => absurd h (by decide), fun _ => by decide⟩
  · exact env_quiet _ (by simp [fenceFirst, h0, h3, quiet]) (by simp [fenceFirst, h0, h3, quiet])

/-- The fence in the first cycle misses, and its translation is the walk's. -/
theorem walkedAfter_of_fence_first :
    WalkedAfter smallReset fenceFirst 0 (after smallReset fenceFirst 4).cache.tr.ppn
      (after smallReset fenceFirst 4).cache.tr.ppnPerm :=
  walkedAfter_of_fence isReset_smallReset env_fenceFirst (t := 0) ⟨rfl, by decide, by decide⟩
    ⟨rfl, rfl, rfl, fun _ => by decide, .inl rfl⟩ (n := 4) (by decide)
    ⟨by decide, by decide, by decide⟩ (by decide)

/-- A fetch, the answer to its walk, and a fence for the same page. -/
def staleFence (k : ℕ) : IcacheEv :=
  ⟨if k = 0 then request 1 else if k = 3 then ptwReply
    else if k = 7 then request 0b1111 else quiet, 0⟩

theorem env_staleFence (k : ℕ) : (after smallReset staleFence k).Env (staleFence k) := by
  by_cases h0 : k = 0
  · subst h0
    exact ⟨fun _ => .inl rfl, fun h => absurd h (by decide)⟩
  by_cases h3 : k = 3
  · subst h3
    exact ⟨fun h => absurd h (by decide), fun _ => by decide⟩
  by_cases h7 : k = 7
  · subst h7
    exact ⟨fun _ => .inr (by decide), fun h => absurd h (by decide)⟩
  · exact env_quiet _ (by simp [staleFence, h0, h3, h7, quiet])
      (by simp [staleFence, h0, h3, h7, quiet])

/-- No page table entry is read after the stale fence. -/
theorem not_readAfter_staleFence (a d : ℕ) : ¬ReadAfter smallReset staleFence 7 a d := by
  rintro ⟨k, r, hr, hc, hd, -⟩
  by_cases h3 : k = 3
  · subst h3
    have hr' : (after smallReset staleFence 3).reads[(staleFence 3).answered]? =
        some ⟨0, 2⟩ := by decide
    rw [hr'] at hr
    simp only [Option.some.injEq] at hr
    subst hr
    exact absurd hc (by decide)
  · have hm : (staleFence k).inp.memD = none := by
      simp only [staleFence, h3, if_false]
      split_ifs <;> rfl
    simp [Icache.ptwAnswer, IcacheIn.memDPtw, hm] at hd

/-- The fence hits the entry that the earlier fetch left in the TLB, and after the
flush its access is still decided by that entry. -/
theorem stale_translation_after_fence :
    smallReset.IsReset ∧ (∀ k, (after smallReset staleFence k).Env (staleFence k)) ∧
      FenceAt staleFence 7 ∧ (after smallReset staleFence 13).cache.Translating ∧
      (after smallReset staleFence 13).cache.stateQ = .fetch ∧
      (after smallReset staleFence 13).cache.tr.ppnValid = true ∧
      ¬WalkedAfter smallReset staleFence 7 (after smallReset staleFence 13).cache.tr.ppn
        (after smallReset staleFence 13).cache.tr.ppnPerm := by
  refine ⟨isReset_smallReset, env_staleFence, ⟨rfl, by decide, by decide⟩,
    ⟨by decide, by decide, by decide⟩, by decide,
    by decide, ?_⟩
  rintro ⟨root, vpn, o, ⟨-, hread, -⟩, -⟩
  exact not_readAfter_staleFence _ _ hread

end IcacheSys

end Muntjac.Core

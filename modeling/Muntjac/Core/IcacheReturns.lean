import Muntjac.Core.IcacheProgress
import Muntjac.Core.IcacheFence

/-!
# The instruction cache returns memory contents

What a run of regular cycles guarantees to the frontend, and the runs that show why the
cycles have to be regular.
-/

namespace Muntjac.Core

open Sync Tl

namespace IcacheMem
variable {p : IcacheParams}

/-- The answer in cycle `m` is the one to the request of cycle `n`. -/
structure AnswerTo (s₀ : IcacheMem p) (inp : ℕ → IcacheIn) (n m : ℕ) : Prop where
  lt : n < m
  request : (inp n).reqValid = true
  answer : AnswersAt s₀ inp m
  between : ∀ k < m, n < k → (inp k).reqValid = false ∧ ¬AnswersAt s₀ inp k

/-- The tags do not change from the issue of the line read in flight on. -/
def TagsKept (s₀ : IcacheMem p) (inp : ℕ → IcacheIn) (n m : ℕ) : Prop :=
  ∀ r ∈ (after s₀ inp n).fill, ∀ k ≤ m, r.issued ≤ k →
    (after s₀ inp k).cache.tagRam.mem = (after s₀ inp n).cache.tagRam.mem

section Run
variable {mem : ℕ → ℕ → ℕ} {pt : ℕ → ℕ} {root : ℕ} {s₀ : IcacheMem p} {inp : ℕ → IcacheIn}

/-- The request in flight is the last one, and it has not been answered. -/
theorem request_of_pending (h : s₀.IsReset) {m : ℕ} {f : FetchReq}
    (hf : (after s₀ inp m).pending = some f) :
    ∃ n < m, (inp n).reqValid = true ∧ f = ⟨(inp n).reqPc, (inp n).reqAtp⟩ ∧
      ∀ k < m, n < k → (inp k).reqValid = false ∧ ¬AnswersAt s₀ inp k := by
  induction m with
  | zero =>
      have hnone : (after s₀ inp 0).pending = none := h.pending
      simp [hnone] at hf
  | succ m ih =>
      have hstep : (if (inp m).reqValid then some ⟨(inp m).reqPc, (inp m).reqAtp⟩
          else if (after s₀ inp m).cache.answers then none else (after s₀ inp m).pending) =
          some f := hf
      split_ifs at hstep with hq hans
      · refine ⟨m, Nat.lt_succ_self m, hq, (Option.some.inj hstep).symm, fun k hk hmk => ?_⟩
        omega
      · obtain ⟨n, hn, hreq, heq, hbetween⟩ := ih hstep
        refine ⟨n, by omega, hreq, heq, fun k hk hnk => ?_⟩
        rcases Nat.lt_succ_iff_lt_or_eq.mp hk with hk | rfl
        · exact hbetween k hk hnk
        · exact ⟨by simpa using hq, hans⟩

theorem AnswerTo.request_unique {n n' m : ℕ} (h : AnswerTo s₀ inp n m)
    (h' : AnswerTo s₀ inp n' m) : n = n' := by
  rcases Nat.lt_trichotomy n n' with hlt | heq | hgt
  · have := (h.between n' h'.lt hlt).1
    simp [h'.request] at this
  · exact heq
  · have := (h'.between n h.lt hgt).1
    simp [h.request] at this

theorem AnswerTo.answer_unique {n m m' : ℕ} (h : AnswerTo s₀ inp n m)
    (h' : AnswerTo s₀ inp n m') : m = m' := by
  rcases Nat.lt_trichotomy m m' with hlt | heq | hgt
  · exact absurd h.answer (h'.between m hlt h.lt).2
  · exact heq
  · exact absurd h'.answer (h.between m' hgt h'.lt).2

/-- The request in flight is the one that will be answered. -/
theorem AnswerTo.pending {n m : ℕ} (h : AnswerTo s₀ inp n m) :
    (after s₀ inp m).pending = some ⟨(inp n).reqPc, (inp n).reqAtp⟩ := by
  have key : ∀ k, n < k → k ≤ m →
      (after s₀ inp k).pending = some ⟨(inp n).reqPc, (inp n).reqAtp⟩ := by
    intro k hk
    induction k, hk using Nat.le_induction with
    | base =>
        intro _
        rw [after_succ]
        simp [step, h.request]
    | succ k hk ih =>
        intro hkm
        obtain ⟨hq, hans⟩ := h.between k (by omega) hk
        have hans' : (after s₀ inp k).cache.answers = false := by simpa [AnswersAt] using hans
        rw [after_succ, ← ih (by omega)]
        simp [step, hq, hans']
  exact key m h.lt le_rfl

/-- An answer belongs to one request. -/
theorem Run.answerTo_of_answers (h : Run mem pt root s₀ inp) {m : ℕ} (ha : AnswersAt s₀ inp m) :
    ∃ n, AnswerTo s₀ inp n m := by
  have hst : (after s₀ inp m).cache.stateQ ≠ .idle ∧ (after s₀ inp m).cache.stateQ ≠ .flush := by
    rcases Icache.answers_iff.mp ha with ⟨hst, -⟩ | hst <;> simp [hst]
  obtain ⟨f, hf, -⟩ := (h.inv m).ctl.pending_of_stateQ hst.1 hst.2
  obtain ⟨n, hn, hreq, -, hbetween⟩ := request_of_pending h.reset hf
  exact ⟨n, hn, hreq, ha, hbetween⟩

/-- A request is answered once, by the first answer after it. -/
theorem Run.answerTo_of_request (h : Run mem pt root s₀ inp) (hfair : Fair s₀ inp) {n : ℕ}
    (hq : (inp n).reqValid = true) : ∃ m, AnswerTo s₀ inp n m := by
  classical
  have hpend : (after s₀ inp (n + 1)).pending.isSome = true := by
    rw [after_succ]
    simp [step, hq]
  have hex : ∃ m, n < m ∧ AnswersAt s₀ inp m := by
    obtain ⟨m, hm, ha⟩ := h.answered hfair (n + 1) hpend
    exact ⟨m, by omega, ha⟩
  obtain ⟨hlt, hans⟩ := Nat.find_spec hex
  refine ⟨Nat.find hex, hlt, hq, hans, fun k hk hnk => ?_⟩
  have hno : ¬AnswersAt s₀ inp k := fun ha => Nat.find_min hex hk ⟨hnk, ha⟩
  refine ⟨?_, hno⟩
  -- the frontend waits while the request is pending
  have key : ∀ k, n < k → k < Nat.find hex → (after s₀ inp k).pending.isSome = true ∧
      (inp k).reqValid = false := by
    intro k hk
    induction k, hk using Nat.le_induction with
    | base =>
        intro hlt
        have hans : (after s₀ inp (n + 1)).cache.answers = false := by
          simpa [AnswersAt] using fun ha => Nat.find_min hex hlt ⟨Nat.lt_succ_self n, ha⟩
        exact ⟨hpend, ((h.env (n + 1)).hold hpend hans).1⟩
    | succ k hk ih =>
        intro hlt
        obtain ⟨hs, -⟩ := ih (by omega)
        have hk' : (after s₀ inp k).cache.answers = false := by
          simpa [AnswersAt] using fun ha => Nat.find_min hex (by omega) ⟨hk, ha⟩
        have hs' : (after s₀ inp (k + 1)).pending.isSome = true := ((h.env k).hold hs hk').2.1
        have hk1 : (after s₀ inp (k + 1)).cache.answers = false := by
          simpa [AnswersAt] using fun ha => Nat.find_min hex hlt ⟨by omega, ha⟩
        exact ⟨hs', ((h.env (k + 1)).hold hs' hk1).1⟩
  exact (key k hnk hk).2

/-- While a line is read, a cycle that does not end the refill leaves the tags alone. -/
theorem Run.tags_step (h : Run mem pt root s₀ inp) {n : ℕ} {r' : LineRead}
    (hr' : r' ∈ (after s₀ inp (n + 1)).fill) :
    (after s₀ inp (n + 1)).cache.tagRam.mem = (after s₀ inp n).cache.tagRam.mem ∧
      (r'.issued = n ∨ ∃ r ∈ (after s₀ inp n).fill, r.issued = r'.issued) := by
  have hc := (h.inv n).ctl
  have hnext : (after s₀ inp n).nextFill (inp n) = some r' := hr'
  have hf := hc.stateQ_of_nextFill (h.env n) hnext
  have hreset : (after s₀ inp n).cache.flushStateQ ≠ .reset := by
    rcases hc.flushFill hf with hfl | hfl <;> simp [hfl]
  cases hbeat : (after s₀ inp n).cache.refillBeat (inp n) with
  | some d =>
      obtain ⟨r, hr⟩ := hc.beat h.legal (h.env n) hbeat
      rw [hr.nextFill_eq hbeat] at hnext
      split_ifs at hnext with hl
      simp only [Option.some.injEq] at hnext
      subst hnext
      have hlast : (after s₀ inp n).cache.refillLast (inp n) = none := by
        rw [hr.refillLast_eq hbeat, if_neg hl]
      exact ⟨Icache.mem_step_of_quiet (Icache.refillTagWrite_of_not_last hlast) hreset,
        .inr ⟨r, hr.fill, rfl⟩⟩
  | none =>
      have hlast : (after s₀ inp n).cache.refillLast (inp n) = none := by
        simp [Icache.refillLast, hbeat]
      refine ⟨Icache.mem_step_of_quiet (Icache.refillTagWrite_of_not_last hlast) hreset, ?_⟩
      simp only [nextFill, hbeat] at hnext
      split_ifs at hnext
      · simp only [Option.some.injEq] at hnext
        subst hnext
        exact .inl (run_clock IcacheMem.now (fun _ _ => rfl) h.reset.now n)
      · exact .inr ⟨r', hnext, rfl⟩

theorem Run.tagsKept (h : Run mem pt root s₀ inp) (n : ℕ) : TagsKept s₀ inp n n := by
  induction n with
  | zero =>
      intro r hr
      have hnone : (after s₀ inp 0).fill = none := h.reset.fill
      simp [hnone] at hr
  | succ n ih =>
      intro r' hr' k hk hi
      obtain ⟨hmem, hcase⟩ := h.tags_step hr'
      rcases Nat.lt_succ_iff_lt_or_eq.mp (Nat.lt_succ_of_le hk) with hk | rfl
      · rw [hmem]
        rcases hcase with hn | ⟨r, hr, heq⟩
        · have : k = n := by omega
          rw [this]
        · exact ih r hr k (by omega) (by omega)
      · rfl

/-- A refill that is denied ends with the access fault, and no tag is written from the issue
of its read to its end. -/
theorem Run.denied (h : Run mem pt root s₀ inp) {n : ℕ} {d : DMsg}
    (hd : (after s₀ inp n).cache.refillLast (inp n) = some d) (hden : d.denied = true) :
    (after s₀ inp (n + 1)).cache.exValid = true ∧
      (after s₀ inp (n + 1)).cache.respExCode = .instrAccessFault ∧
      TagsKept s₀ inp n (n + 1) := by
  have hc := (h.inv n).ctl
  have hends := hc.refill_ends h.legal (h.inv n).owned (h.env n) hd
  rw [hden, if_pos rfl] at hends
  have hbeat : (after s₀ inp n).cache.refillBeat (inp n) = some d :=
    (Option.filter_eq_some_iff.mp hd).1
  obtain ⟨r, hr, -⟩ := hc.last h.legal (h.env n) hd
  have hreset : (after s₀ inp n).cache.flushStateQ ≠ .reset := by
    rcases hc.flushFill (hc.fill_of_some hr.fill).1 with hfl | hfl <;> simp [hfl]
  have hmem : (after s₀ inp (n + 1)).cache.tagRam.mem = (after s₀ inp n).cache.tagRam.mem :=
    Icache.mem_step_of_quiet (Icache.refillTagWrite_of_denied hbeat hden).1 hreset
  refine ⟨?_, hends.2, fun x hx k hk hi => ?_⟩
  · rw [after_succ]
    simp [Icache.exValid, hends.1]
  · rcases Nat.lt_succ_iff_lt_or_eq.mp (Nat.lt_succ_of_le hk) with hk | rfl
    · exact h.tagsKept n x hx k (by omega) hi
    · exact hmem

/-- In a run of regular cycles every answer belongs to one request, every request is
answered if the memory keeps answering, an answer that is not an exception is the word
of memory at the address of the request, as memory held it after the last flush
request and not later than the answer, and a denied refill is answered with an access
fault and installs no tag. -/
theorem fetch_returns_memory (h : Run mem pt root s₀ inp) :
    (∀ m, AnswersAt s₀ inp m → ∃! n, AnswerTo s₀ inp n m) ∧
    (Fair s₀ inp → ∀ n, (inp n).reqValid = true → ∃! m, AnswerTo s₀ inp n m) ∧
    (∀ n m, AnswerTo s₀ inp n m → (after s₀ inp m).cache.exValid = false →
      (after s₀ inp m).Serves mem pt root ⟨(inp n).reqPc, (inp n).reqAtp⟩) ∧
    (∀ n d, (after s₀ inp n).cache.refillLast (inp n) = some d → d.denied = true →
      (after s₀ inp (n + 1)).cache.exValid = true ∧
        (after s₀ inp (n + 1)).cache.respExCode = .instrAccessFault ∧
        TagsKept s₀ inp n (n + 1)) := by
  refine ⟨fun m ha => ?_, fun hfair n hq => ?_, fun n m hnm hx => ?_, fun n d => h.denied⟩
  · obtain ⟨n, hn⟩ := h.answerTo_of_answers ha
    exact ⟨n, hn, fun n' hn' => hn'.request_unique hn⟩
  · obtain ⟨m, hm⟩ := h.answerTo_of_request hfair hq
    exact ⟨m, hm, fun m' hm' => hm'.answer_unique hm⟩
  have hv : (after s₀ inp m).cache.respValid = true := by
    have := hnm.answer
    simpa [AnswersAt, Icache.answers, hx] using this
  obtain ⟨f, hf, hserves⟩ := (h.inv m).serves h.legal hv
  have heq : f = ⟨(inp n).reqPc, (inp n).reqAtp⟩ := Option.some.inj (hf.symm.trans hnm.pending)
  exact heq ▸ hserves

end Run

/-! ## A small system -/

instance (mem : ℕ → ℕ → ℕ) (now : ℕ) (r : LineRead) (d : DMsg) :
    Decidable (Carries (p := p) mem now r d) :=
  decidable_of_iff (∀ j < 2 ^ p.interleaveWidth, ∃ t < now + 1, r.issued ≤ t ∧
      slice d.data (32 * j + 31) (32 * j) =
        mem t (cat r.line 4 (r.beats * 2 ^ p.interleaveWidth + j)))
    ⟨fun h j hj => (h j hj).imp fun _ ⟨ht, hi, he⟩ => ⟨hi, Nat.le_of_lt_succ ht, he⟩,
      fun h j hj => (h j hj).imp fun _ ⟨hi, ht, he⟩ => ⟨Nat.lt_succ_of_le ht, hi, he⟩⟩

instance (busBytes : ℕ) (mem : ℕ → ℕ) (reads : List ℕ) (i : TranslationIn) :
    Decidable (Translation.Reads busBytes mem reads i) :=
  inferInstanceAs (Decidable (_ → ∀ a ∈ reads.head?, _))

instance (mem : ℕ → ℕ → ℕ) (pt : ℕ → ℕ) (root : ℕ) (s : IcacheMem p) (i : IcacheIn) :
    Decidable (s.Env mem pt root i) :=
  decidable_of_iff ((i.reqValid = true → s.pending = none ∨ s.cache.answers = true) ∧
      i.reqPc < 2 ^ 64 ∧
      (i.reqValid = false → s.pending.isSome = true → i.reqAtp = s.atp) ∧
      (i.reqValid = true → atpMode i.reqAtp = true →
        slice i.reqAtp (p.physAddrLen - 13) 0 = root) ∧
      (∀ d ∈ i.memDPtw p, s.reads ≠ [] ∧ d.size = 1) ∧
      Translation.Reads p.busBytes pt s.reads (s.cache.translationIn i) ∧
      ∀ d ∈ i.memDRefill p, ∃ r ∈ s.fill, d.opcode = .accessAckData ∧ d.size = 6 ∧
        (0 < r.beats → d.denied = r.denied) ∧
        (d.denied = false → Carries (p := p) mem s.now r d))
    ⟨fun ⟨a, b, c, d, e, f, g⟩ => ⟨a, b, c, d, e, f, g⟩,
      fun ⟨a, b, c, d, e, f, g⟩ => ⟨a, b, c, d, e, f, g⟩⟩

instance (s : IcacheMem p) (i : IcacheIn) : Decidable (s.Regular i) :=
  decidable_of_iff ((i.reqValid = true → atpMode i.reqAtp = true → i.faultsEarly p = true →
        s.cache.tr.tlb.lookup p.tlbSetsWidth (slice i.reqPc 38 12) (atpAsid i.reqAtp) ≠ none) ∧
      (i.flushValid = true → s.cache.flushStateQ ≠ .done ∧
        (s.cache.flushStateQ = .idle → p.tlbSetsWidth = 0 ∨
          s.cache.tr.tlb.flushResp p.tlbSetsWidth = false)) ∧
      (s.started = false → s.cache.flushReady = true → i.reqValid = true))
    ⟨fun ⟨a, b, c⟩ => ⟨a, b, c⟩, fun ⟨a, b, c⟩ => ⟨a, b, c⟩⟩

/-- The system after reset, with empty RAMs. -/
def smallReset : IcacheMem IcacheSys.smallParams where
  cache := IcacheSys.smallReset.cache
  pending := none
  started := false
  atp := 0
  flushed := 0
  reads := []
  fill := none
  now := 0

theorem isReset_smallReset : smallReset.IsReset :=
  ⟨IcacheSys.isReset_smallReset.cache, rfl, rfl, rfl, rfl, rfl, rfl⟩

theorem not_holds_smallReset (vpn ppn : ℕ) (prot : PageProt) :
    ¬smallReset.cache.tr.tlb.Holds IcacheSys.smallParams.tlbSetsWidth vpn ppn prot := by
  rintro ⟨k, rfl, hv, -⟩
  change (default : PageProt).valid = true at hv
  exact absurd hv (by decide)

theorem legal_smallParams : IcacheSys.smallParams.Legal :=
  ⟨by decide, by decide, by decide, by decide, by decide, rfl, by decide⟩

/-- In the small runs `req_atp` never changes. -/
theorem atp_after {inp : ℕ → IcacheIn} {a : ℕ} {s₀ : IcacheMem p} (h0 : s₀.pending = none)
    (ha : ∀ k, (inp k).reqAtp = a) (n : ℕ) :
    (after s₀ inp n).pending.isSome = true → (after s₀ inp n).atp = a := by
  induction n with
  | zero =>
      intro hs
      have hnone : (after s₀ inp 0).pending = none := h0
      simp [hnone] at hs
  | succ n ih =>
      intro hs
      rw [after_succ] at hs ⊢
      cases hq : (inp n).reqValid
      · cases hans : (after s₀ inp n).cache.answers <;> simp [step, hq, hans] at hs ⊢
        exact ih hs
      · simp [step, hq, ha]

/-- Nothing is required of a cycle without a request and without a memory answer. -/
theorem env_quiet {mem : ℕ → ℕ → ℕ} {pt : ℕ → ℕ} {root : ℕ} {s : IcacheMem p} {i : IcacheIn}
    (hq : i.reqValid = false) (hpc : i.reqPc < 2 ^ 64) (hd : i.memD = none)
    (ha : s.pending.isSome = true → i.reqAtp = s.atp) : s.Env mem pt root i where
  waits h := by simp [hq] at h
  width := hpc
  atpHeld _ := ha
  rooted h := by simp [hq] at h
  asked d h := by simp [IcacheIn.memDPtw, hd] at h
  walked h := by simp [Icache.translationIn, IcacheIn.memDPtw, hd] at h
  filled d h := by simp [IcacheIn.memDRefill, hd] at h

theorem regular_quiet {s : IcacheMem p} {i : IcacheIn} (hq : i.reqValid = false)
    (hs : s.started = true) : s.Regular i where
  earlyHits h := by simp [hq] at h
  fenceTaken h := by simp [IcacheIn.flushValid, hq] at h
  firstRequest h := by simp [hs] at h

theorem started_after {inp : ℕ → IcacheIn} {s₀ : IcacheMem p} (h : (inp 0).reqValid = true)
    (n : ℕ) : (after s₀ inp (n + 1)).started = true := by
  induction n with
  | zero => simp [after_succ, step, h]
  | succ n ih => simp [after_succ (n + 1), step, ih]

/-- A cycle without a request. -/
def quiet (atp : ℕ) : IcacheIn := ⟨false, 0, 0, false, false, atp, true, none⟩

/-- Beat `b` of the read of a line, when every word of memory is its own address. -/
def lineBeat (line b : ℕ) : DMsg :=
  ⟨.accessAckData, 0, 6, 0, 0, false, false,
    cat (16 * line + 2 * b + 1) 32 (16 * line + 2 * b)⟩

/-- An untranslated request in the first cycle, and the refill of its line.  The first
beat waits one cycle for the lock. -/
def fetchFirst (k : ℕ) : IcacheIn :=
  if k = 0 then ⟨true, 0x40, 0, false, false, 0, true, none⟩
  else if 5 ≤ k ∧ k < 14 then { quiet 0 with memD := some (lineBeat 1 (k - 6)) }
  else quiet 0

theorem reqAtp_fetchFirst (k : ℕ) : (fetchFirst k).reqAtp = 0 := by
  unfold fetchFirst
  split_ifs <;> rfl

theorem run_fetchFirst : Run (fun _ a => a) (fun _ => 0) 0 smallReset fetchFirst where
  legal := legal_smallParams
  reset := isReset_smallReset
  empty := not_holds_smallReset
  env n := by
    by_cases hn : n < 14
    · exact (by decide : ∀ n < 14, (after smallReset fetchFirst n).Env (fun _ a => a)
        (fun _ => 0) 0 (fetchFirst n)) n hn
    · have hq : fetchFirst n = quiet 0 := by
        have : n ≠ 0 := by omega
        simp [fetchFirst, this, hn]
      refine env_quiet (by rw [hq]; rfl) (by rw [hq]; decide) (by rw [hq]; rfl) fun hs => ?_
      rw [atp_after rfl reqAtp_fetchFirst n hs, reqAtp_fetchFirst]
  regular n := by
    cases n with
    | zero => decide
    | succ n =>
        refine regular_quiet ?_ (started_after rfl n)
        unfold fetchFirst
        split_ifs <;> first | omega | rfl

/-- The first request is answered in cycle 15 with the word at its address. -/
theorem serves_fetchFirst :
    (∃! n, AnswerTo smallReset fetchFirst n 15) ∧
      (after smallReset fetchFirst 15).Serves (fun _ a => a) (fun _ => 0) 0 ⟨0x40, 0⟩ :=
  ⟨(fetch_returns_memory run_fetchFirst).1 15 (by unfold AnswersAt; decide),
    (fetch_returns_memory run_fetchFirst).2.2.1 0 15
      ⟨by decide, rfl, by unfold AnswersAt; decide, by
        unfold AnswersAt
        decide⟩ (by decide)⟩

/-- A page table that maps the first gigabyte only. -/
def firstGiga (a : ℕ) : ℕ := if a = 0 then 0x4b else 0

/-- A translated request that faults early and misses the TLB, a request for the second
gigabyte, and the answers to the walk of the first one and to the refill. -/
def staleWalk (k : ℕ) : IcacheIn :=
  if k = 0 then ⟨true, 2 ^ 63, 0, true, false, 2 ^ 63, true, none⟩
  else if k = 2 then ⟨true, 0x40000000, 0, true, false, 2 ^ 63, true, none⟩
  else if k = 5 then
    { quiet (2 ^ 63) with memD := some ⟨.accessAckData, 0, 1, 1, 0, false, false, 0x4b⟩ }
  else if 12 ≤ k ∧ k < 21 then { quiet (2 ^ 63) with memD := some (lineBeat 0 (k - 13)) }
  else quiet (2 ^ 63)

theorem reqAtp_staleWalk (k : ℕ) : (staleWalk k).reqAtp = 2 ^ 63 := by
  unfold staleWalk
  split_ifs <;> rfl

theorem env_staleWalk (n : ℕ) :
    (after smallReset staleWalk n).Env (fun _ a => a) firstGiga 0 (staleWalk n) := by
  by_cases hn : n < 21
  · exact (by decide : ∀ n < 21, (after smallReset staleWalk n).Env (fun _ a => a)
      firstGiga 0 (staleWalk n)) n hn
  · have hq : staleWalk n = quiet (2 ^ 63) := by
      have h0 : n ≠ 0 := by omega
      have h2 : n ≠ 2 := by omega
      have h5 : n ≠ 5 := by omega
      simp [staleWalk, h0, h2, h5, hn]
    refine env_quiet (by rw [hq]; rfl) (by rw [hq]; decide) (by rw [hq]; rfl) fun hs => ?_
    rw [atp_after rfl reqAtp_staleWalk n hs, reqAtp_staleWalk]

/-- A request that faults early, and a fence while the flush machine is done. -/
def lostFence (k : ℕ) : IcacheIn :=
  if k = 0 then ⟨true, 2 ^ 60, 0, false, false, 0, true, none⟩
  else if k = 2 then ⟨true, 0x40, 0b1111, false, false, 0, true, none⟩
  else quiet 0

theorem reqAtp_lostFence (k : ℕ) : (lostFence k).reqAtp = 0 := by
  unfold lostFence
  split_ifs <;> rfl

theorem env_lostFence (n : ℕ) :
    (after smallReset lostFence n).Env (fun _ a => a) (fun _ => 0) 0 (lostFence n) := by
  by_cases hn : n < 3
  · exact (by decide : ∀ n < 3, (after smallReset lostFence n).Env (fun _ a => a)
      (fun _ => 0) 0 (lostFence n)) n hn
  · have hq : lostFence n = quiet 0 := by
      have h0 : n ≠ 0 := by omega
      have h2 : n ≠ 2 := by omega
      simp [lostFence, h0, h2]
    refine env_quiet (by rw [hq]; rfl) (by rw [hq]; decide) (by rw [hq]; rfl) fun hs => ?_
    rw [atp_after rfl reqAtp_lostFence n hs, reqAtp_lostFence]

/-- The cache waits for the end of a flush that was not started. -/
theorem waits_lostFence (n : ℕ) :
    (after smallReset lostFence (n + 3)).cache.stateQ = .flush ∧
      (after smallReset lostFence (n + 3)).cache.flushStateQ = .idle := by
  induction n with
  | zero => decide
  | succ n ih =>
      have hq : lostFence (n + 3) = quiet 0 := by
        have h2 : n + 3 ≠ 2 := by omega
        simp [lostFence, h2]
      rw [after_succ (n + 3), hq]
      simp [step, Icache.step, Icache.nextStateQ, Icache.nextFlushStateQ, Icache.caseState,
        Icache.flushReady, IcacheIn.flushValid, quiet, ih]

/-- A walk that nobody waits for answers the request for another page with the word of an
address that the tables do not map, and a fence accepted while the flush machine is done
is never answered. -/
theorem stale_walk_and_lost_fence :
    (smallReset.IsReset ∧
      (∀ n, (after smallReset staleWalk n).Env (fun _ a => a) firstGiga 0 (staleWalk n)) ∧
      AnswerTo smallReset staleWalk 2 22 ∧
      (after smallReset staleWalk 22).cache.exValid = false ∧
      ¬(after smallReset staleWalk 22).Serves (fun _ a => a) firstGiga 0
        ⟨(staleWalk 2).reqPc, (staleWalk 2).reqAtp⟩) ∧
    (∀ n, (after smallReset lostFence n).Env (fun _ a => a) (fun _ => 0) 0 (lostFence n)) ∧
    (lostFence 2).reqValid = true ∧ ∀ m, ¬AnswerTo smallReset lostFence 2 m := by
  refine ⟨⟨isReset_smallReset, env_staleWalk, ⟨by decide, rfl, by unfold AnswersAt; decide,
    by unfold AnswersAt; decide⟩, by decide, ?_⟩, env_lostFence, rfl,
    fun m hm => ?_⟩
  · rintro ⟨addr, ⟨l, hl, -⟩, -⟩
    have hnone : Sv39.walk IcacheSys.smallParams.physAddrLen firstGiga 0
        (slice (staleWalk 2).reqPc 38 12) = none := by decide
    simp [hnone] at hl
  · obtain ⟨n, rfl⟩ : ∃ n, m = n + 3 := ⟨m - 3, by have := hm.lt; omega⟩
    have hans := hm.answer
    simp [AnswersAt, Icache.answers, Icache.respValid, Icache.exValid, (waits_lostFence n).1]
      at hans

end IcacheMem

end Muntjac.Core

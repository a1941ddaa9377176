import Muntjac.Core.IcacheControl

/-!
# The contents of the instruction cache

What the tag and data arrays hold, against the memory.  Outside a flush every valid tag
names a line whose words were all read from memory after the last flush request; the
line that a refill overwrites is the exception, and holds what the refill has brought
so far.

## Main definitions

* `IcacheMem.Brought` — the first words of a line are in a way of the data array.
* `IcacheMem.Contents` — the invariant of the arrays.
* `IcacheMem.contents_step` — one regular cycle keeps it.
-/

namespace Muntjac.Core

open Sync Tl

namespace Icache
variable {p : IcacheParams}

/-- Word `w` of a set in way `k` of the data array. -/
def word (c : Icache p) (k : Fin p.numWays) (set w : ℕ) : ℕ :=
  c.dataRam.cell p.interleaveMask k (cat set 4 w)

/-- The access has read the tags and the data at its address. -/
structure FetchedOk (c : Icache p) : Prop where
  physical : c.tagReadPhysicalLatch = !c.atpModeQ
  latch : c.tagReadAddrLatch = slice c.addressQ (max p.virtAddrLen p.physAddrLen - 1) 6
  tags : c.tagRam.rdata = c.tagRam.mem (c.tagReadAddrLatch % 2 ^ p.setsWidth)
  data : ∀ k : Fin p.numWays, c.dataRam.readData p.interleaveMask k =
    c.dataRam.cell p.interleaveMask k (slice c.addressQ (p.setsWidth + 5) 2)

section Arrays
variable {c : Icache p} {i : IcacheIn}

theorem mem_step_of_quiet (hr : c.refillTagWrite i = none) (hf : c.flushStateQ ≠ .reset) :
    (c.step i).tagRam.mem = c.tagRam.mem := by
  have hfl : c.flushTagWrite = none := by simp [flushTagWrite, hf]
  simp only [step, tagReq, hr, hfl, Option.none_or]
  split_ifs <;> rfl

/-- The flush machine empties a set. -/
theorem mem_step_flush (hr : c.refillTagWrite i = none) (hf : c.flushStateQ = .reset)
    (set : ℕ) (k : Fin p.numWays) :
    (c.step i).tagRam.mem set k =
      if set = c.flushIndexQ then ⟨0, false⟩ else c.tagRam.mem set k := by
  have hfl : c.flushTagWrite = some (.write c.flushIndexQ (fun _ => true) ⟨0, false⟩) := by
    simp [flushTagWrite, hf]
  simp [step, tagReq, hr, hfl, TagRam.step]

/-- The last beat of a refill installs the tag. -/
theorem mem_step_refill {d : DMsg} (hd : c.refillLast i = some d) (hden : d.denied = false)
    (set : ℕ) (k : Fin p.numWays) :
    (c.step i).tagRam.mem set k =
      if set = c.refillReqAddress i % 2 ^ p.setsWidth ∧ c.wayQ = k then
        ⟨c.refillReqAddress i / 2 ^ p.setsWidth, true⟩
      else c.tagRam.mem set k := by
  have hw : c.refillTagWrite i = some (.write (c.refillReqAddress i % 2 ^ p.setsWidth)
      (fun k => c.wayQ == k) ⟨c.refillReqAddress i / 2 ^ p.setsWidth, true⟩) := by
    simp [refillTagWrite, hd, hden, Option.filter]
  simp [step, tagReq, hw, TagRam.step]

theorem refillTagWrite_of_denied {d : DMsg} (hd : c.refillBeat i = some d)
    (hden : d.denied = true) : c.refillTagWrite i = none ∧ c.refillDataWrite i = none := by
  have hlast : (c.refillLast i).filter (fun d => !d.denied) = none := by
    rw [refillLast, hd, Option.filter_eq_none_iff]
    intro e he
    obtain ⟨rfl, -⟩ : d = e ∧ _ := by simpa [Option.filter_eq_some_iff] using he
    simp [hden]
  exact ⟨by simp [refillTagWrite, hlast], by simp [refillDataWrite, hd, hden, Option.filter]⟩

theorem refillTagWrite_of_not_last (hd : c.refillLast i = none) : c.refillTagWrite i = none := by
  simp [refillTagWrite, hd]

theorem word_step_of_quiet (hr : c.refillDataWrite i = none) (k : Fin p.numWays) (set w : ℕ) :
    (c.step i).word k set w = c.word k set w := by
  simp only [word, step, dataReq, hr, Option.none_or]
  split_ifs
  · exact DataRam.cell_step_read rfl _ _
  · rfl

/-- A beat of a refill replaces a group of words. -/
theorem word_step_beat (hp : p.Legal) {d : DMsg} (hd : c.refillBeat i = some d)
    (hden : d.denied = false) (hidx : c.memDIdx d < p.lineBeats) (k : Fin p.numWays)
    (set : ℕ) {w : ℕ} (hw : w < 2 ^ 4) :
    (c.step i).word k set w =
      if k = c.wayQ ∧ set = c.refillReqAddress i % 2 ^ p.setsWidth ∧
          w / 2 ^ p.interleaveWidth = c.memDIdx d then
        slice d.data (32 * (w % 2 ^ p.interleaveWidth) + 31) (32 * (w % 2 ^ p.interleaveWidth))
      else c.word k set w := by
  obtain ⟨-, hle⟩ := hp.interleaveWidth
  -- a line is `lineBeats` groups of words
  have hnm : p.lineBeats * 2 ^ p.interleaveWidth = 2 ^ 4 := by
    rw [IcacheParams.lineBeats, ← Nat.pow_add, Nat.sub_add_cancel hle]
  have hm := Nat.two_pow_pos p.interleaveWidth
  have hlt : c.memDIdx d * 2 ^ p.interleaveWidth < 2 ^ 4 := by
    rw [← hnm]
    exact Nat.mul_lt_mul_of_pos_right hidx hm
  have hwlt : w / 2 ^ p.interleaveWidth < p.lineBeats := by
    apply Nat.div_lt_of_lt_mul
    rw [Nat.mul_comm, hnm]
    exact hw
  have hreq : c.dataReq i = some
      { write := true
        addr := cat (c.refillReqAddress i % 2 ^ p.setsWidth) 4
          (c.memDIdx d * 2 ^ p.interleaveWidth)
        way := c.wayQ
        wide := true
        wdata := fun j => slice d.data (32 * j + 31) (32 * j) } := by
    simp only [dataReq, refillDataWrite, hd, hden, Option.filter, Bool.not_false, if_true,
      Option.map_some, Option.some_or, Nat.mod_eq_of_lt hlt]
  have hcond : DataRam.high p.interleaveMask (cat set 4 w) =
      cat (c.refillReqAddress i % 2 ^ p.setsWidth) 4 (c.memDIdx d * 2 ^ p.interleaveWidth) ↔
      set = c.refillReqAddress i % 2 ^ p.setsWidth ∧
        w / 2 ^ p.interleaveWidth = c.memDIdx d := by
    rw [IcacheParams.interleaveMask, DataRam.high_two_pow, cat_div_two_pow hle]
    constructor
    · intro h
      have hcat := congrArg (· / 2 ^ p.interleaveWidth) h
      simp only [Nat.mul_div_cancel _ hm, cat_div_two_pow hle] at hcat
      exact cat_inj hwlt hidx hcat
    · rintro ⟨hset, hgroup⟩
      rw [hset, hgroup, cat, Nat.add_mul, Nat.mul_assoc, ← Nat.pow_add, Nat.sub_add_cancel hle, cat]
  have halign : cat (c.refillReqAddress i % 2 ^ p.setsWidth) 4
      (c.memDIdx d * 2 ^ p.interleaveWidth) &&& p.interleaveMask = 0 := by
    rw [IcacheParams.interleaveMask, Nat.and_two_pow_sub_one_eq_mod, cat_mod_two_pow hle,
      Nat.mul_mod_left]
  simp only [word, step, hreq]
  refine (DataRam.cell_step_wide rfl rfl halign k (cat set 4 w)).trans ?_
  simp only [hcond, Fin.val_inj]
  refine if_congr Iff.rfl ?_ rfl
  rw [IcacheParams.interleaveMask, Nat.and_two_pow_sub_one_eq_mod, cat_mod_two_pow hle]

/-- A fetch follows the cycle in which the access has read both arrays. -/
theorem read_of_fetch (hf' : (c.step i).stateQ = .fetch) :
    (i.reqValid = true ∨ c.stateQ = .replay) ∧ c.accessReadReq i = true ∧
      c.accessTagReadGnt i = true ∧ c.accessDataReadGnt i = true := by
  have hboth : (i.reqValid = true ∨ c.stateQ = .replay) ∧ c.accessTagReadGnt i = true ∧
      c.accessDataReadGnt i = true := by
    simp only [step, nextStateQ] at hf'
    cases hq : i.reqValid
    · simp only [hq, Bool.false_eq_true, if_false] at hf'
      cases hs : c.stateQ <;> simp only [caseState, hs] at hf'
      case fetch => cases ho : c.fetchOutcome <;> simp [ho] at hf'
      case fill =>
          cases hm : c.missResp i with
          | none => simp [hm] at hf'
          | some b => cases b <;> simp [hm] at hf'
      case replay =>
          split_ifs at hf' with hg
          simp only [Bool.and_eq_true] at hg
          exact ⟨.inr rfl, hg.1.2, hg.2⟩
      all_goals
        try split_ifs at hf'
        all_goals simp at hf'
    · simp only [hq, if_true] at hf'
      split_ifs at hf' with h1 h2 h3
      simp only [Bool.and_eq_true] at h3
      exact ⟨.inl rfl, h3.1, h3.2⟩
  refine ⟨hboth.1, ?_, hboth.2⟩
  have := hboth.2.1
  simp only [accessTagReadGnt, Bool.and_eq_true] at this
  exact this.1.1

/-- The address of a fetch was read with the translation mode of the access. -/
theorem fetchedOk_step (hf' : (c.step i).stateQ = .fetch)
    (hmode : i.reqValid = false → atpMode i.reqAtp = c.atpModeQ) : (c.step i).FetchedOk := by
  obtain ⟨-, hreq, htag, hdata⟩ := read_of_fetch hf'
  have hr : c.refillTagWrite i = none ∧ c.flushTagWrite = none := by
    simpa [accessTagReadGnt, hreq] using htag
  have hd : c.refillDataWrite i = none := by simpa [accessDataReadGnt, hreq] using hdata
  have hmem : (c.step i).tagRam = c.tagRam.step
      (some (.read (c.accessTagReadAddr i % 2 ^ p.setsWidth))) := by
    simp [step, tagReq, hr, hreq]
  have hram : (c.step i).dataRam = c.dataRam.step p.interleaveMask (some
      { write := false
        addr := slice (c.nextAddressQ i) (p.setsWidth + 5) 2
        way := 0
        wide := false
        wdata := fun _ => 0 }) := by
    simp [step, dataReq, hd, hreq]
  have hlatch : (c.step i).tagReadAddrLatch = c.accessTagReadAddr i := by simp [step, htag]
  refine ⟨?_, ?_, ?_, fun k => ?_⟩
  · simp only [step, htag, if_true]
    cases hq : i.reqValid
    · simp [hmode hq]
    · simp
  · rw [hlatch]
    rfl
  · rw [hlatch, hmem]
    rfl
  · rw [hram, DataRam.readData_step_read rfl rfl, DataRam.cell_step_read rfl]
    rfl

end Arrays

end Icache

namespace IcacheMem
variable {p : IcacheParams}

/-- The first `n` words of a line are in way `k`, as memory held them from cycle `t₀` on. -/
def Brought (mem : ℕ → ℕ → ℕ) (s : IcacheMem p) (t₀ : ℕ) (k : Fin p.numWays) (line n : ℕ) : Prop :=
  ∀ w < n, ∃ t, t₀ ≤ t ∧ t ≤ s.now ∧
    s.cache.word k (line % 2 ^ p.setsWidth) w = mem t (cat line 4 w)

/-- A refill has begun to overwrite the way. -/
def Overwritten (s : IcacheMem p) (set : ℕ) (k : Fin p.numWays) : Prop :=
  ∃ r ∈ s.fill, 0 < r.beats ∧ r.denied = false ∧ set = r.line % 2 ^ p.setsWidth ∧
    k = s.cache.wayQ

/-- The flush machine does not sweep the tags and is not about to. -/
def Settled (s : IcacheMem p) : Prop :=
  s.cache.flushStateQ = .idle ∨ s.cache.flushStateQ = .done

structure Contents (mem : ℕ → ℕ → ℕ) (s : IcacheMem p) : Prop where
  held : s.Settled → ∀ set < 2 ^ p.setsWidth, ∀ k,
    (s.cache.tagRam.mem set k).valid = true → ¬s.Overwritten set k →
    s.Brought mem s.flushed k (cat (s.cache.tagRam.mem set k).tag p.setsWidth set) (2 ^ 4)
  swept : s.cache.flushStateQ = .reset → ∀ set < s.cache.flushIndexQ, ∀ k,
    (s.cache.tagRam.mem set k).valid = false
  filled : ∀ r ∈ s.fill, 0 < r.beats → r.denied = false →
    s.Brought mem r.issued s.cache.wayQ r.line (r.beats * 2 ^ p.interleaveWidth)
  fetched : s.cache.stateQ = .fetch → s.cache.FetchedOk

section Step
variable {mem : ℕ → ℕ → ℕ} {pt : ℕ → ℕ} {root : ℕ} {s : IcacheMem p} {i : IcacheIn}

/-- Words that were brought and are not overwritten stay. -/
theorem Brought.step {t₀ : ℕ} {k : Fin p.numWays} {line n : ℕ} (h : s.Brought mem t₀ k line n)
    (hw : ∀ w < n, (s.step i).cache.word k (line % 2 ^ p.setsWidth) w =
      s.cache.word k (line % 2 ^ p.setsWidth) w) : (s.step i).Brought mem t₀ k line n := by
  intro w hn
  obtain ⟨t, ht, hnow, heq⟩ := h w hn
  exact ⟨t, ht, Nat.le_succ_of_le hnow, (hw w hn).trans heq⟩

theorem Brought.mono {t₀ t₁ : ℕ} {k : Fin p.numWays} {line n : ℕ} (h : s.Brought mem t₁ k line n)
    (ht : t₀ ≤ t₁) : s.Brought mem t₀ k line n := by
  intro w hn
  obtain ⟨t, ht', hnow, heq⟩ := h w hn
  exact ⟨t, ht.trans ht', hnow, heq⟩

variable (hp : p.Legal)
include hp

/-- A beat that is not denied brings the next words of the line. -/
theorem Ctl.brought_beat (h : s.Ctl) (hc : s.Contents mem) (henv : s.Env mem pt root i)
    {d : DMsg} {r : LineRead} (hd : s.cache.refillBeat i = some d) (hr : s.Beat mem i d r)
    (hden : d.denied = false) :
    (s.step i).Brought mem r.issued s.cache.wayQ r.line
      ((r.beats + 1) * 2 ^ p.interleaveWidth) := by
  have hok := h.fill r hr.fill
  have hm := Nat.two_pow_pos p.interleaveWidth
  have hf := (h.fill_of_some hr.fill).1
  have hq : i.reqValid = false := by
    by_contra hq
    exact h.stateQ_ne_fill henv (by simpa using hq) hf
  have hadr : s.cache.refillReqAddress i = r.line := by
    rw [henv.refillReqAddress_eq hq (h.pending_of_fill hf).2, hok.line]
  have hlines : (r.beats + 1) * 2 ^ p.interleaveWidth ≤ 2 ^ 4 := by
    have hle := hp.interleaveWidth.2
    have hnm : p.lineBeats * 2 ^ p.interleaveWidth = 2 ^ 4 := by
      rw [IcacheParams.lineBeats, ← Nat.pow_add, Nat.sub_add_cancel hle]
    rw [← hnm]
    exact Nat.mul_le_mul_right _ hok.beats
  intro w hw
  have hstep := Icache.word_step_beat hp hd hden (hr.idx ▸ hok.beats) s.cache.wayQ
    (r.line % 2 ^ p.setsWidth) (hw.trans_le hlines)
  rw [hadr, hr.idx] at hstep
  change ∃ t, r.issued ≤ t ∧ t ≤ s.now + 1 ∧
    (s.cache.step i).word s.cache.wayQ (r.line % 2 ^ p.setsWidth) w = _
  rw [hstep]
  by_cases hg : w / 2 ^ p.interleaveWidth = r.beats
  · obtain ⟨t, ht, hnow, heq⟩ := hr.carries hden (w % 2 ^ p.interleaveWidth) (Nat.mod_lt _ hm)
    refine ⟨t, ht, Nat.le_succ_of_le hnow, ?_⟩
    rw [if_pos ⟨rfl, rfl, hg⟩, heq, ← hg, Nat.div_add_mod']
  · have hlt : w < r.beats * 2 ^ p.interleaveWidth := by
      have hdiv : w / 2 ^ p.interleaveWidth < r.beats + 1 := Nat.div_lt_of_lt_mul (by
        rw [Nat.mul_comm]
        exact hw)
      exact (Nat.div_lt_iff_lt_mul hm).mp (by omega)
    have hpos : 0 < r.beats := by
      by_contra hz
      simp [Nat.eq_zero_of_not_pos hz] at hlt
    obtain ⟨t, ht, hnow, heq⟩ := hc.filled r hr.fill hpos ((hr.denied hpos).symm.trans hden) w hlt
    exact ⟨t, ht, Nat.le_succ_of_le hnow, by rw [if_neg (by simp [hg])]; exact heq⟩

omit hp in
theorem Ctl.fetched_step (h : s.Ctl) (henv : s.Env mem pt root i)
    (hf' : (s.step i).cache.stateQ = .fetch) : (s.step i).cache.FetchedOk := by
  refine Icache.fetchedOk_step hf' fun hq => ?_
  have hst : s.cache.stateQ = .replay := by
    rcases (Icache.read_of_fetch (c := s.cache) hf').1 with hq' | hst
    · simp [hq] at hq'
    · exact hst
  have hstart : s.started = true := by
    cases hs : s.started
    · simp [(h.unstarted hs).2.1] at hst
    · rfl
  have hsome : s.pending.isSome = true := by
    rw [Option.isSome_iff_ne_none, ne_eq, h.started hstart, hst]
    decide
  rw [henv.atpHeld hq hsome, h.mode_eq hsome]

theorem Ctl.filled_step (h : s.Ctl) (hc : s.Contents mem) (henv : s.Env mem pt root i)
    {r' : LineRead} (hr' : r' ∈ (s.step i).fill) (hpos : 0 < r'.beats)
    (hden : r'.denied = false) :
    (s.step i).Brought mem r'.issued (s.step i).cache.wayQ r'.line
      (r'.beats * 2 ^ p.interleaveWidth) := by
  have hnext : s.nextFill i = some r' := hr'
  cases hbeat : s.cache.refillBeat i with
  | some d =>
      obtain ⟨r, hr⟩ := h.beat hp henv hbeat
      rw [hr.nextFill_eq hbeat] at hnext
      split_ifs at hnext
      simp only [Option.some.injEq] at hnext
      subst hnext
      have hway : (s.step i).cache.wayQ = s.cache.wayQ := by
        simp [step, Icache.step, Icache.missReqValid, (h.fill_of_some hr.fill).1]
      rw [hway]
      exact h.brought_beat hp hc henv hbeat hr hden
  | none =>
      simp only [nextFill, hbeat] at hnext
      split_ifs at hnext
      · simp only [Option.some.injEq] at hnext
        subst hnext
        exact absurd hpos (Nat.lt_irrefl 0)
      · have hway : (s.step i).cache.wayQ = s.cache.wayQ := by
          simp [step, Icache.step, Icache.missReqValid, (h.fill_of_some hnext).1]
        rw [hway]
        have hd : s.cache.refillDataWrite i = none := by simp [Icache.refillDataWrite, hbeat]
        exact (hc.filled r' hnext hpos hden).step fun w _ => Icache.word_step_of_quiet hd _ _ _

omit hp in
/-- The refill machine does not write the tags during a flush. -/
theorem Ctl.refillTagWrite_of_flush (h : s.Ctl) (henv : s.Env mem pt root i)
    (hfl : s.cache.flushStateQ = .reset) : s.cache.refillTagWrite i = none := by
  refine (h.refill_quiet henv fun hf => ?_).2.2.2.1
  rcases h.flushFill hf with hs | hs <;> simp [hfl] at hs

omit hp in
theorem Ctl.swept_step (h : s.Ctl) (hc : s.Contents mem) (henv : s.Env mem pt root i) {set : ℕ}
    (hfl : s.cache.flushStateQ = .reset) (hset : set ≤ s.cache.flushIndexQ) (k : Fin p.numWays) :
    ((s.step i).cache.tagRam.mem set k).valid = false := by
  have hr := h.refillTagWrite_of_flush henv hfl
  change ((s.cache.step i).tagRam.mem set k).valid = false
  rw [Icache.mem_step_flush hr hfl]
  split_ifs with hs
  · rfl
  · exact hc.swept hfl set (by omega) k

omit hp in
/-- A cycle that ends settled either ends a sweep, or begins settled and accepts no flush. -/
theorem Ctl.settled_of_step (h : s.Ctl) (henv : s.Env mem pt root i) (hreg : s.Regular i)
    (hs' : (s.step i).Settled) :
    s.cache.flushStateQ = .reset ∧ s.cache.flushLast = true ∨
      s.Settled ∧ (s.step i).flushed = s.flushed := by
  have hnext : (s.step i).cache.flushStateQ = s.cache.nextFlushStateQ i := rfl
  rw [Settled, hnext] at hs'
  cases hf : s.cache.flushStateQ
  case reset =>
      left
      refine ⟨rfl, ?_⟩
      by_contra hl
      simp [Icache.nextFlushStateQ, hf, hl] at hs'
  case lock => simp [Icache.nextFlushStateQ, hf, h.flushLocking_of_lock henv hf] at hs'
  case idle =>
      have hv : i.flushValid = false := by
        cases hv : i.flushValid
        · rfl
        · simp [Icache.nextFlushStateQ, hf, hv] at hs'
      exact .inr ⟨.inl hf, by simp [step, hv]⟩
  case done =>
      have hv : i.flushValid = false := by
        by_contra hv
        exact (hreg.fenceTaken (by simpa using hv)).1 hf
      exact .inr ⟨.inr hf, by simp [step, hv]⟩

omit hp in
/-- A way that is kept through a cycle without a write to it. -/
theorem Contents.held_keep (hc : s.Contents mem) (hs : s.Settled)
    (hflushed : (s.step i).flushed = s.flushed) {set : ℕ} (hset : set < 2 ^ p.setsWidth)
    {k : Fin p.numWays}
    (htag : (s.step i).cache.tagRam.mem set k = s.cache.tagRam.mem set k)
    (hword : ∀ w < 2 ^ 4, (s.step i).cache.word k set w = s.cache.word k set w)
    (hv' : ((s.step i).cache.tagRam.mem set k).valid = true) (hno : ¬s.Overwritten set k) :
    (s.step i).Brought mem (s.step i).flushed k
      (cat ((s.step i).cache.tagRam.mem set k).tag p.setsWidth set) (2 ^ 4) := by
  rw [htag] at hv' ⊢
  rw [hflushed]
  refine (hc.held hs set hset k hv' hno).step fun w hw => ?_
  rw [cat_mod hset]
  exact hword w hw

/-- A beat of a refill that is not denied: the ways outside the refill are kept, and the
last beat completes the line. -/
theorem Ctl.held_beat (h : s.Ctl) (hc : s.Contents mem) (henv : s.Env mem pt root i)
    (hs : s.Settled) (hflushed : (s.step i).flushed = s.flushed)
    {d : DMsg} {r : LineRead} (hd : s.cache.refillBeat i = some d) (hr : s.Beat mem i d r)
    (hden : d.denied = false) {set : ℕ} (hset : set < 2 ^ p.setsWidth) {k : Fin p.numWays}
    (hv' : ((s.step i).cache.tagRam.mem set k).valid = true)
    (hno : ¬(s.step i).Overwritten set k) :
    (s.step i).Brought mem (s.step i).flushed k
      (cat ((s.step i).cache.tagRam.mem set k).tag p.setsWidth set) (2 ^ 4) := by
  have hok := h.fill r hr.fill
  have hf := (h.fill_of_some hr.fill).1
  have hq : i.reqValid = false := by
    by_contra hq
    exact h.stateQ_ne_fill henv (by simpa using hq) hf
  have hadr : s.cache.refillReqAddress i = r.line := by
    rw [henv.refillReqAddress_eq hq (h.pending_of_fill hf).2, hok.line]
  have hway : (s.step i).cache.wayQ = s.cache.wayQ := by
    simp [step, Icache.step, Icache.missReqValid, hf]
  have hfl : s.cache.flushStateQ ≠ .reset := by
    rcases hs with hs | hs <;> simp [hs]
  have hfill' : (s.step i).fill = s.nextFill i := rfl
  by_cases hat : k = s.cache.wayQ ∧ set = r.line % 2 ^ p.setsWidth
  · obtain ⟨rfl, rfl⟩ := hat
    by_cases hl : r.beats + 1 = p.lineBeats
    · have hlast : s.cache.refillLast i = some d := by rw [hr.refillLast_eq hd, if_pos hl]
      have htag : (s.step i).cache.tagRam.mem (r.line % 2 ^ p.setsWidth) s.cache.wayQ =
          ⟨r.line / 2 ^ p.setsWidth, true⟩ := by
        refine (Icache.mem_step_refill hlast hden _ _).trans ?_
        rw [hadr, if_pos ⟨rfl, rfl⟩]
      have hall : (r.beats + 1) * 2 ^ p.interleaveWidth = 2 ^ 4 := by
        rw [hl, IcacheParams.lineBeats, ← Nat.pow_add, Nat.sub_add_cancel hp.interleaveWidth.2]
      rw [htag, cat_div_mod, hflushed, ← hall]
      exact (h.brought_beat hp hc henv hd hr hden).mono hok.flushed
    · refine absurd ⟨{ r with beats := r.beats + 1, denied := d.denied }, ?_, Nat.succ_pos _, hden,
        rfl, hway.symm⟩ hno
      rw [hfill', hr.nextFill_eq hd, if_neg hl]
      rfl
  · have hword : ∀ w < 2 ^ 4, (s.step i).cache.word k set w = s.cache.word k set w := by
      intro w hw
      refine (Icache.word_step_beat hp hd hden (hr.idx ▸ hok.beats) k set hw).trans ?_
      rw [hadr, if_neg fun hc => hat ⟨hc.1, hc.2.1⟩]
    have htag : (s.step i).cache.tagRam.mem set k = s.cache.tagRam.mem set k := by
      by_cases hl : r.beats + 1 = p.lineBeats
      · have hlast : s.cache.refillLast i = some d := by rw [hr.refillLast_eq hd, if_pos hl]
        refine (Icache.mem_step_refill hlast hden _ _).trans ?_
        rw [hadr, if_neg fun hc => hat ⟨hc.2.symm, hc.1⟩]
      · have hlast : s.cache.refillLast i = none := by rw [hr.refillLast_eq hd, if_neg hl]
        have hmem := Icache.mem_step_of_quiet (Icache.refillTagWrite_of_not_last hlast) hfl
        exact congrFun (congrFun hmem set) k
    refine hc.held_keep hs hflushed hset htag hword hv' ?_
    rintro ⟨r', hr', -, -, hset', hk⟩
    have : r' = r := Option.some.inj (hr'.symm.trans hr.fill)
    subst this
    exact hat ⟨hk, hset'⟩

theorem Ctl.held_step (h : s.Ctl) (hc : s.Contents mem) (henv : s.Env mem pt root i)
    (hreg : s.Regular i) (hs' : (s.step i).Settled) {set : ℕ} (hset : set < 2 ^ p.setsWidth)
    {k : Fin p.numWays} (hv' : ((s.step i).cache.tagRam.mem set k).valid = true)
    (hno : ¬(s.step i).Overwritten set k) :
    (s.step i).Brought mem (s.step i).flushed k
      (cat ((s.step i).cache.tagRam.mem set k).tag p.setsWidth set) (2 ^ 4) := by
  rcases h.settled_of_step henv hreg hs' with ⟨hfl, hlast⟩ | ⟨hs, hflushed⟩
  · -- the sweep has just emptied the last set
    have hle : set ≤ s.cache.flushIndexQ := by
      simp only [Icache.flushLast, beq_iff_eq] at hlast
      omega
    rw [h.swept_step hc henv hfl hle k] at hv'
    exact absurd hv' (by decide)
  have hfl : s.cache.flushStateQ ≠ .reset := by
    rcases hs with hs | hs <;> simp [hs]
  have hkeep : s.cache.refillTagWrite i = none → s.cache.refillDataWrite i = none →
      ¬s.Overwritten set k → (s.step i).Brought mem (s.step i).flushed k
        (cat ((s.step i).cache.tagRam.mem set k).tag p.setsWidth set) (2 ^ 4) := by
    intro hr hd hn
    have hmem := Icache.mem_step_of_quiet (i := i) hr hfl
    exact hc.held_keep hs hflushed hset (congrFun (congrFun hmem set) k)
      (fun w _ => Icache.word_step_of_quiet hd k set w) hv' hn
  by_cases hf : s.cache.stateQ = .fill
  · cases hbeat : s.cache.refillBeat i with
    | some d =>
        obtain ⟨r, hr⟩ := h.beat hp henv hbeat
        cases hden : d.denied
        · exact h.held_beat hp hc henv hs hflushed hbeat hr hden hset hv' hno
        · obtain ⟨htw, hdw⟩ := Icache.refillTagWrite_of_denied hbeat hden
          refine hkeep htw hdw ?_
          rintro ⟨r', hr', hpos, hden', -⟩
          have : r' = r := Option.some.inj (hr'.symm.trans hr.fill)
          subst this
          simp [hr.denied hpos, hden'] at hden
    | none =>
        refine hkeep (by simp [Icache.refillTagWrite, Icache.refillLast, hbeat])
          (by simp [Icache.refillDataWrite, hbeat]) ?_
        rintro ⟨r, hr, hpos, hden, hat⟩
        refine hno ⟨r, ?_, hpos, hden, hat.1, ?_⟩
        · have hs := (h.fill_of_some hr).2.2
          have hr' : s.fill = some r := hr
          change s.nextFill i = some r
          simp [nextFill, hbeat, Icache.fillIssued, Icache.refillA, hs, hr']
        · simpa [step, Icache.step, Icache.missReqValid, hf] using hat.2
  · obtain ⟨-, -, -, htw, hdw⟩ := h.refill_quiet henv hf
    refine hkeep htw hdw ?_
    rintro ⟨r, hr, -⟩
    exact hf (h.fill_of_some hr).1

theorem contents_step (h : s.Ctl) (hc : s.Contents mem) (henv : s.Env mem pt root i)
    (hreg : s.Regular i) : (s.step i).Contents mem where
  held := fun hs' _ hset _ => h.held_step hp hc henv hreg hs' hset
  swept := by
    intro hfl' set hset k
    have hnext : s.cache.nextFlushStateQ i = .reset := hfl'
    have hset' : set < s.cache.nextFlushIndexQ := hset
    cases hfl : s.cache.flushStateQ
    case reset =>
        refine h.swept_step hc henv hfl ?_ k
        have := Nat.mod_le (s.cache.flushIndexQ + 1) (2 ^ p.setsWidth)
        simp only [Icache.nextFlushIndexQ, hfl, beq_self_eq_true, if_true] at hset'
        omega
    case lock =>
        have h0 := h.flushIndex.2 (by simp [hfl])
        simp [Icache.nextFlushIndexQ, hfl, h0] at hset'
    all_goals
      simp only [Icache.nextFlushStateQ, hfl] at hnext
      split_ifs at hnext
  filled := fun _ => h.filled_step hp hc henv
  fetched := h.fetched_step henv

omit hp in
theorem contents_of_isReset (h : s.IsReset) : s.Contents mem where
  held := by
    intro hs
    rcases hs with hs | hs <;> simp [h.cache.flushStateQ] at hs
  swept := by simp [h.cache.flushIndexQ]
  filled := by simp [h.fill]
  fetched := by simp [h.cache.stateQ]

end Step

end IcacheMem

end Muntjac.Core

import Muntjac.Core.DcacheAccess
import Muntjac.Core.DcacheTags

/-!
# Load-reserved and store-conditional in the data cache

An LR leaves its line address in `reservation_q`, and any other request clears
`reserved_q`.  A probe does not touch the reservation: it takes the line, so that the SC
misses, and an SC that misses fails without a refill.  An LR is answered only by a hit on
a line that is held exclusively, and so is an SC that succeeds.  Between the two neither a
refill nor anything else raises a permission; the line of the SC is therefore held
exclusively in every cycle in between, provided it is the line of the LR.

## Main definitions

* `Reserved` — an SC that directly follows an LR of its line.
* `DcacheMem.Exclusive` — from the read of the LR on nobody else may write the line.
* `DcacheMem.ScAtomic`, `DcacheMem.ScHarmless` — what an SC answered 0 or 1 guarantees.
-/

namespace Muntjac.Core

open Sync Tl

/-! ## Addresses -/

namespace DcacheIn
variable {p : DcacheParams} {i j : DcacheIn}

/-- The address of the request is canonical for its kind of addressing. -/
def canonical (p : DcacheParams) (i : DcacheIn) : Bool :=
  if atpMode i.reqAtp then i.canonicalVirtual p else i.canonicalPhysical p

theorem canonical_of_earlyFault (h : i.earlyFault p = none) : i.canonical p = true := by
  unfold earlyFault at h
  split_ifs at h with h1 h2 h3
  unfold canonical
  split_ifs with ha
  · simpa [ha] using h2
  · simpa [ha] using h1

/-- The upper bits of a canonical virtual address agree. -/
theorem testBit_of_canonicalVirtual (hv : 0 < p.virtAddrLen) (h : i.canonicalVirtual p = true)
    {k : ℕ} (hk : p.virtAddrLen - 1 ≤ k) (hk' : k < 64) :
    i.reqAddress.testBit k = i.reqAddress.testBit (p.virtAddrLen - 1) := by
  -- both bits are bits of the upper part, which is all zeros or all ones
  have hbit : ∀ m, p.virtAddrLen - 1 ≤ m → m < 64 → i.reqAddress.testBit m =
      (slice i.reqAddress 63 (p.virtAddrLen - 1)).testBit (m - (p.virtAddrLen - 1)) := by
    intro m hm hm'
    exact (testBit_slice_sub _ hm (by omega)).symm
  rw [hbit k hk hk', hbit _ le_rfl (by omega)]
  simp only [canonicalVirtual, Bool.or_eq_true, beq_iff_eq] at h
  rcases h with h | h
  · simp [h]
  · rw [h, Nat.testBit_two_pow_sub_one, Nat.testBit_two_pow_sub_one]
    simp only [decide_eq_decide]
    omega

/-- Two canonical addresses that agree in the bits compared by the cache name one line. -/
theorem line_eq_of_canonical (hv : 6 < p.virtAddrLen) (hm : atpMode i.reqAtp = atpMode j.reqAtp)
    (hi : i.canonical p = true) (hj : j.canonical p = true)
    (h : slice i.reqAddress (p.logicAddrLen - 1) 6 = slice j.reqAddress (p.logicAddrLen - 1) 6) :
    slice i.reqAddress 63 6 = slice j.reqAddress 63 6 := by
  have hlv : p.virtAddrLen ≤ p.logicAddrLen := le_max_left _ _
  have hlp : p.physAddrLen ≤ p.logicAddrLen := le_max_right _ _
  have hlow : ∀ k, 6 ≤ k → k < p.logicAddrLen →
      i.reqAddress.testBit k = j.reqAddress.testBit k := by
    intro k hk hkl
    rw [← testBit_slice_sub _ hk (by omega : k ≤ p.logicAddrLen - 1), h,
      testBit_slice_sub _ hk (by omega)]
  apply Nat.eq_of_testBit_eq
  intro k
  rw [testBit_slice, testBit_slice]
  by_cases hk : k < 63 + 1 - 6
  · simp only [hk, decide_true, Bool.true_and]
    by_cases hkl : 6 + k < p.logicAddrLen
    · exact hlow _ (by omega) hkl
    -- the bits above are copies of the top bit, or zero
    unfold canonical at hi hj
    rw [← hm] at hj
    split_ifs at hi hj
    · rw [testBit_of_canonicalVirtual (by omega) hi (by omega) (by omega),
        testBit_of_canonicalVirtual (by omega) hj (by omega) (by omega)]
      exact hlow _ (by omega) (by omega)
    · have hzero : ∀ x, slice x 63 p.physAddrLen = 0 → x.testBit (6 + k) = false := by
        intro x hx
        rw [← testBit_slice_sub x (by omega : p.physAddrLen ≤ 6 + k) (by omega : 6 + k ≤ 63), hx,
          Nat.zero_testBit]
      simp only [canonicalPhysical, beq_iff_eq] at hi hj
      rw [hzero _ hi, hzero _ hj]
  · simp [hk]

end DcacheIn

/-! ## The answers of the access machine -/

namespace Dcache
variable {p : DcacheParams} {s : Dcache p} {i : DcacheIn}

theorem opQ_step (hq : i.reqValid = false) : (s.step i).opQ = s.opQ := by simp [step, hq]

theorem stateQ_step_of_idle (hq : i.reqValid = false) (hst : s.stateQ = .idle) :
    (s.step i).stateQ = .idle := by
  change s.nextStateQ i = .idle
  simp [nextStateQ, hq, caseState, hst]

/-- A response is decided by a hit, by an SC that misses, or by an uncached access. -/
theorem resp_cases (h : (s.resp i).isSome = true) :
    s.stateQ = .fetch ∧ (s.outcome i = .hit ∨ s.outcome i = .scFail ∧ s.opQ = .sc) ∨
      s.stateQ = .fill ∧ s.missStateQ = .uncached := by
  cases hst : s.stateQ <;> simp only [resp, hst] at h
  case fetch =>
      left
      refine ⟨rfl, ?_⟩
      cases ho : s.outcome i <;> simp only [ho] at h
      case hit => exact .inl rfl
      case scFail =>
          refine .inr ⟨rfl, ?_⟩
          simp only [outcome] at ho
          split_ifs at ho with _ _ _ _ hsc
          simpa using hsc
      all_goals simp at h
  case fill =>
      right
      refine ⟨rfl, ?_⟩
      cases hm : s.missStateQ
      case uncached => rfl
      case idle => simp [missResp, hm] at h
      case fill =>
          simp only [missResp, hm] at h
          cases hl : s.refillLast i with
          | none => simp [hl] at h
          | some b =>
              simp only [hl] at h
              split_ifs at h <;> simp at h
  all_goals simp at h

/-- What a hit has found. -/
theorem of_hit (h : s.outcome i = .hit) : s.nothingInProgress = true ∧
    (atpMode i.reqAtp = true → s.tr.ppnValid = true ∧ s.tr.ppnPerm.valid = true) ∧
    s.anyHit = true ∧ (s.opQ ≠ .load → s.hitTag.writable = true) := by
  simp only [outcome] at h
  split_ifs at h with hn hv hf hh
  simp only [Bool.and_eq_true, Bool.or_eq_true, beq_iff_eq] at hh
  refine ⟨by simpa using hn, fun ha => ⟨by simpa [ha] using hv, ?_⟩, hh.1, fun hop => ?_⟩
  · have hperm : s.permFault i = false := by simpa [ha] using hf
    simp only [permFault, Bool.or_eq_false_iff] at hperm
    simpa using hperm.1.1.1.1
  · exact hh.2.resolve_right hop

/-- Unless it is uncached, an access answered 0 is a hit, and no failed SC. -/
theorem of_resp_zero (hun : s.missStateQ ≠ .uncached) (h : s.resp i = some 0) :
    s.stateQ = .fetch ∧ s.outcome i = .hit ∧ s.reservationFailedQ = false := by
  rcases resp_cases (by rw [h]; rfl) with ⟨hst, hcase⟩ | ⟨-, hm⟩
  · rcases hcase with ho | ⟨ho, -⟩
    · refine ⟨hst, ho, ?_⟩
      cases hf : s.reservationFailedQ
      · rfl
      · simp [resp, hst, ho, hf] at h
    · simp [resp, hst, ho] at h
  · exact absurd hm hun

/-- A failing SC makes no write request. -/
theorem accessDataWriteReq_of_resp (h : s.resp i = some 1) (hop : s.opQ = .sc) :
    s.accessDataWriteReq i = false := by
  by_contra hw
  simp only [accessDataWriteReq, fetches, Bool.not_eq_false, Bool.and_eq_true, beq_iff_eq,
    Bool.not_eq_true'] at hw
  obtain ⟨⟨⟨hst, ho⟩, hf⟩, -⟩ := hw
  simp [resp, hst, ho, hf, hop, MemOp.returnsWord] at h

/-- An SC never misses. -/
theorem not_miss_of_sc (hop : s.opQ = .sc) : s.fetches i .miss = false := by
  have ho : s.outcome i ≠ .miss := by
    simp only [outcome, hop]
    split_ifs <;> simp_all
  simp [fetches, ho]

theorem resp_isSome_of_hit (h : s.fetches i .hit = true) : (s.resp i).isSome = true := by
  simp only [fetches, Bool.and_eq_true, beq_iff_eq] at h
  simp only [resp, h.1, h.2]
  split_ifs <;> rfl

theorem stateQ_step_of_earlyFault (hq : i.reqValid = true) (hf : (i.earlyFault p).isSome = true) :
    (s.step i).stateQ = .exception := by
  change s.nextStateQ i = .exception
  simp [nextStateQ, hq, hf]

theorem banks_step_none (hr : s.refillDataWrite i = none) (ha : s.accessDataWrite i = none) :
    (s.step i).dataRam.banks = s.dataRam.banks := by
  have hread : ∀ r ∈ s.dataReq i, r.write = false := by
    intro r hmem
    simp only [dataReq, hr, ha, Option.none_or, Option.mem_def, Option.or_eq_some_iff] at hmem
    rcases hmem with hwb | ⟨-, hacc⟩
    · unfold wbDataRead at hwb
      split at hwb
      · obtain ⟨_, -, rfl⟩ := Option.map_eq_some_iff.mp hwb
        rfl
      · split_ifs at hwb
        simp only [Option.some.injEq] at hwb
        rw [← hwb]
      · simp at hwb
    · split_ifs at hacc
      simp only [Option.some.injEq] at hacc
      rw [← hacc]
  simp only [step]
  cases hd : s.dataReq i with
  | none => rfl
  | some r => simp [DataRam.step, hread r hd]

/-- A cycle in which the access is answered, without the next request. -/
theorem stateQ_step_of_answered (hq : i.reqValid = false)
    (h : (s.resp i).isSome = true ∨ s.stateQ = .exception) : (s.step i).stateQ = .idle := by
  have hst : s.stateQ ≠ .idle := by
    intro hidle
    rcases h with h | h
    · simp [resp_none_of_idle hidle] at h
    · simp [hidle] at h
  exact (stateQ_step_eq_idle hq hst).mpr h

end Dcache

/-! ## The line of an access -/

namespace DcacheSys
variable {p : DcacheParams} {mem : ℕ → ℕ} {root : ℕ} {s s' : DcacheSys p} {i : DcacheIn}

/-- The page of a translated access is that of the tables. -/
def Placed (mem : ℕ → ℕ) (root : ℕ) (s : DcacheSys p) : Prop :=
  atpMode s.atp = true → ∃ l, Sv39.walk p.physAddrLen mem root s.cache.vpn = some l ∧
    s.cache.tr.ppn = l.ppn

/-- A hit uses the page that the tables give. -/
theorem Sound.placed (h : Sound mem root s) (henv : s.Env i) (hst : s.cache.stateQ = .fetch)
    (ho : s.cache.outcome i = .hit) : s.Placed mem root := by
  intro ha
  have hbusy : s.cache.Busy := by simp [Dcache.Busy, hst]
  obtain ⟨-, htr, -⟩ := Dcache.of_hit ho
  obtain ⟨hv, hperm⟩ := htr (by rw [henv.atpHeld hbusy]; exact ha)
  obtain ⟨l, hl, hppn, -⟩ := walk_of_translates ((h.answers hbusy ha).good hv) hperm
  exact ⟨l, hl, hppn⟩

/-- Two placed accesses with the same line address have the same line. -/
theorem line_eq_of_placed (hV : p.virtAddrLen = 39) (hs : s.Placed mem root)
    (hs' : s'.Placed mem root) (hm : atpMode s.atp = atpMode s'.atp)
    (h : slice s.cache.addressQ (p.logicAddrLen - 1) 6 =
      slice s'.cache.addressQ (p.logicAddrLen - 1) 6) : s.line = s'.line := by
  have hlv : p.virtAddrLen ≤ p.logicAddrLen := le_max_left _ _
  have hlp : p.physAddrLen ≤ p.logicAddrLen := le_max_right _ _
  -- every part of the line address is a part of the bits that agree
  have hpart : ∀ n, n ≤ p.logicAddrLen - 6 →
      s.cache.addressQ / 2 ^ 6 % 2 ^ n = s'.cache.addressQ / 2 ^ 6 % 2 ^ n := by
    intro n hn
    have hdvd : 2 ^ n ∣ 2 ^ (p.logicAddrLen - 1 + 1 - 6) := Nat.pow_dvd_pow 2 (by omega)
    rw [← Nat.mod_mod_of_dvd _ hdvd, ← Nat.mod_mod_of_dvd (s'.cache.addressQ / 2 ^ 6) hdvd]
    exact congrArg (· % 2 ^ n) h
  have hvpn : s.cache.vpn = s'.cache.vpn := by
    have hpage := hpart 33 (by omega)
    simp only [Dcache.vpn, slice, hV]
    omega
  rw [line, line, ← hm]
  cases ha : atpMode s.atp
  · exact hpart _ (by omega)
  · obtain ⟨l, hl, hppn⟩ := hs ha
    obtain ⟨l', hl', hppn'⟩ := hs' (hm ▸ ha)
    rw [hvpn, hl', Option.some.injEq] at hl
    rw [if_pos rfl, if_pos rfl, hppn, hppn', hl, hpart 6 (by omega)]

end DcacheSys

/-! ## The invariant -/

namespace DcacheMem
variable {p : DcacheParams} {mem : ℕ → ℕ} {root : ℕ}

/-- A cycle in which the backend, the manager and the page table memory obey their rules,
and no request that faults early starts a walk. -/
structure Orderly (mem : ℕ → ℕ) (root : ℕ) (s : DcacheMem p) (i : DcacheIn) : Prop where
  env : s.Env i
  sys : s.sys.Orderly mem root i

/-- The tags and the translations are right, an SC is not refilled, and only loads and
stores are made uncached. -/
structure ReserveInv (mem : ℕ → ℕ) (root : ℕ) (s : DcacheMem p) : Prop where
  inv : s.Inv
  sound : DcacheSys.Sound mem root s.sys
  fill : s.sys.cache.stateQ = .fill → s.sys.cache.opQ ≠ .sc
  uncached : s.sys.cache.missStateQ = .uncached →
    s.sys.cache.opQ = .load ∨ s.sys.cache.opQ = .store

section Step
variable {s : DcacheMem p} {i : DcacheIn}

theorem ReserveInv.fill_step (h : s.ReserveInv mem root) (hpa : 12 ≤ p.physAddrLen)
    (henv : s.Env i) (hst : (s.step i).sys.cache.stateQ = .fill) :
    (s.step i).sys.cache.opQ ≠ .sc := by
  rw [step_sys_cache] at hst ⊢
  rcases fill_cases hst with hm | ⟨hs, -⟩
  · have hq : i.reqValid = false := by
      by_contra hq
      exact Dcache.not_reqReady_of_miss hm (henv.sys.ready (by simpa using hq))
    rw [Dcache.opQ_step hq]
    intro hop
    simp [Dcache.not_miss_of_sc hop] at hm
  · obtain ⟨hq, -⟩ := h.inv.fill hpa henv.sys hs
    rw [Dcache.opQ_step hq]
    exact h.fill hs

theorem ReserveInv.uncached_step (h : s.ReserveInv mem root) (hpa : 12 ≤ p.physAddrLen)
    (henv : s.Env i) (hm : (s.step i).sys.cache.missStateQ = .uncached) :
    (s.step i).sys.cache.opQ = .load ∨ (s.step i).sys.cache.opQ = .store := by
  have hn : s.sys.cache.nextMissStateQ i = .uncached := hm
  have hbusy : s.sys.cache.missStateQ ≠ .idle := by
    intro hidle
    simp only [Dcache.nextMissStateQ, hidle] at hn
    split_ifs at hn
  obtain ⟨hq, -⟩ := h.inv.fill hpa henv.sys (h.inv.miss.mp hbusy)
  rw [step_sys_cache, Dcache.opQ_step hq]
  cases hs : s.sys.cache.missStateQ
  case idle => exact absurd hs hbusy
  case fill =>
      simp only [Dcache.nextMissStateQ, hs] at hn
      split at hn
      · simp at hn
      · split_ifs at hn with hd
        simp only [Bool.and_eq_true, decide_eq_true_eq] at hd
        exact hd.2
  case uncached => exact h.uncached hs

theorem reserveInv_step (hV : p.virtAddrLen = 39) (hsw : p.setsWidth ≤ 6)
    (hpa : 12 ≤ p.physAddrLen) (h : s.ReserveInv mem root) (ho : s.Orderly mem root i) :
    (s.step i).ReserveInv mem root where
  inv := inv_step h.inv hsw hpa ho.env ho.sys.earlyHits
  sound := DcacheSys.sound_step hV h.sound h.inv.owned ho.sys.env ho.sys.earlyHits ho.sys.answers
    ho.sys.rooted
  fill := h.fill_step hpa ho.env
  uncached := h.uncached_step hpa ho.env

theorem reserveInv_of_isReset (h : s.IsReset)
    (hempty : ∀ vpn ppn prot, ¬s.sys.cache.tr.tlb.Holds p.tlbSetsWidth vpn ppn prot) :
    s.ReserveInv mem root where
  inv := inv_of_isReset h
  sound := DcacheSys.sound_of_isReset h.sys hempty
  fill hst := by simp [h.sys.cache.stateQ] at hst
  uncached hm := by simp [h.sys.cache.missStateQ] at hm

/-- A hit of an access that needs the line exclusively finds it so. -/
theorem ReserveInv.granted_of_hit (h : s.ReserveInv mem root) (hpa : 12 ≤ p.physAddrLen)
    (hst : s.sys.cache.stateQ = .fetch) (ho : s.sys.cache.outcome i = .hit)
    (hop : s.sys.cache.opQ ≠ .load) : s.granted s.sys.line = .t := by
  obtain ⟨hn, -, hany, hw⟩ := Dcache.of_hit ho
  obtain ⟨hrd, hlatch, hphys⟩ := h.inv.fetch hst
  have hline := DcacheSys.tagReadAddrLatchPhys_eq_line hpa hlatch hphys
  have hflushed : s.sys.cache.Flushed (s.sys.line % 2 ^ p.setsWidth) :=
    ⟨Nat.mod_lt _ (Nat.two_pow_pos _), fun hf =>
      absurd hf (h.inv.locked.nothingInProgress.mp hn).2.2.2⟩
  obtain ⟨hv, ht⟩ := hit_rdata (hit_of_anyHit hany)
  have hwr := hw hop
  rw [Dcache.hitTag] at hwr
  rw [hrd] at hv ht hwr
  have hheld := (h.inv.sets _ hflushed).held _ hv
  rw [ht, hline, cat_div_mod, DcacheTag.perm, hwr, if_pos rfl] at hheld
  exact hheld

/-- Outside of a refill a permission is not raised. -/
theorem ReserveInv.granted_of_step (h : s.ReserveInv mem root)
    (hst : s.sys.cache.stateQ ≠ .fill) {l : ℕ} (hg : (s.step i).granted l = .t) :
    s.granted l = .t := by
  have hacq : s.acq ≠ some l := by
    intro ha
    exact hst (h.inv.fill_of_miss (h.inv.fifo.acquired l ha).1)
  rw [granted_step_keep (.inl hacq), Dcache.nextGranted.keep] at hg
  split_ifs at hg with hp hr
  · simp only [Perm.afterProbe] at hg
    split_ifs at hg with hb ht
    exact hg
  · exact hg

end Step

/-! ## Runs -/

/-- The cycles with a request. -/
def requests (inp : ℕ → DcacheIn) (k : ℕ) : Bool := (inp k).reqValid

/-- What a request leaves in the registers until the next one. -/
def latched (s : DcacheMem p) : MemOp × ℕ × ℕ × Bool × ℕ × Bool :=
  (s.sys.cache.opQ, s.sys.cache.addressQ, s.sys.atp, s.sys.cache.reservedQ,
    s.sys.cache.reservationQ, s.sys.cache.reservationFailedQ)

section Run
variable {s₀ : DcacheMem p} {inp : ℕ → DcacheIn} {a c n : ℕ}

theorem latched_step (k : ℕ) (hq : requests inp k = false) :
    (after s₀ inp (k + 1)).latched = (after s₀ inp k).latched := by
  have hq' : (inp k).reqValid = false := hq
  rw [after, run_succ]
  simp [latched, step, DcacheSys.step, Dcache.step, Dcache.nextAddressQ, hq', after]

variable (s₀) in
/-- The registers hold what the last request has left there. -/
theorem latched_of_last (h : LastLoad (requests inp) c n) : (after s₀ inp n).latched =
    ((inp c).reqOp, (inp c).reqAddress, (inp c).reqAtp, (inp c).reqOp == .lr,
      slice (inp c).reqAddress (p.logicAddrLen - 1) 6,
      (inp c).reqOp == .sc &&
        (slice (inp c).reqAddress (p.logicAddrLen - 1) 6 !=
            (after s₀ inp c).sys.cache.reservationQ ||
          !(after s₀ inp c).sys.cache.reservedQ)) := by
  have hq : (inp c).reqValid = true := h.loads
  rw [h.eq (f := fun k => (after s₀ inp k).latched) latched_step, after, run_succ]
  simp [latched, step, DcacheSys.step, Dcache.step, Dcache.nextAddressQ, hq, after]

/-- An idle machine stays idle until the next request. -/
theorem idle_of_quiet (hidle : (after s₀ inp a).sys.cache.stateQ = .idle) (han : a ≤ n)
    (hq : ∀ k < n, a ≤ k → requests inp k = false) :
    (after s₀ inp n).sys.cache.stateQ = .idle := by
  have hstep : ∀ k, requests inp k = false → (after s₀ inp k).sys.cache.stateQ = .idle →
      (after s₀ inp (k + 1)).sys.cache.stateQ = .idle := by
    intro k hk hst
    exact Dcache.stateQ_step_of_idle hk hst
  exact hold_of_quiet hstep hidle han hq

/-- A machine that is not idle works on a request. -/
theorem exists_last_of_busy (h0 : s₀.IsReset) (hst : (after s₀ inp n).sys.cache.stateQ ≠ .idle) :
    ∃ c, LastLoad (requests inp) c n := by
  rcases quiet_or_lastLoad (requests inp) n with hq | hc
  · have hidle : (after s₀ inp 0).sys.cache.stateQ = .idle := h0.sys.cache.stateQ
    exact absurd (idle_of_quiet hidle (Nat.zero_le n) fun k hk _ => hq k hk) hst
  · exact hc

/-- A reservation has been made by the last request. -/
theorem exists_lr_of_reservedQ (h0 : s₀.IsReset)
    (hr : (after s₀ inp n).sys.cache.reservedQ = true) :
    ∃ a, LastLoad (requests inp) a n ∧ (inp a).reqOp = .lr ∧
      (after s₀ inp n).sys.cache.reservationQ =
        slice (inp a).reqAddress (p.logicAddrLen - 1) 6 := by
  rcases quiet_or_lastLoad (requests inp) n with hq | ⟨a, ha⟩
  · have hstep : ∀ k, requests inp k = false → (after s₀ inp k).latched = s₀.latched →
        (after s₀ inp (k + 1)).latched = s₀.latched := by
      intro k hk hf
      rw [latched_step k hk, hf]
    have hreset : (after s₀ inp n).latched = s₀.latched :=
      hold_of_quiet hstep rfl (Nat.zero_le n) fun k hk _ => hq k hk
    simp only [latched, Prod.mk.injEq, h0.sys.cache.reservedQ] at hreset
    simp [hreset] at hr
  · have hl := latched_of_last s₀ ha
    simp only [latched, Prod.mk.injEq] at hl
    refine ⟨a, ha, ?_, hl.2.2.2.2.1⟩
    rw [hl.2.2.2.1] at hr
    simpa using hr

/-- An access that is answered leaves the machine idle until the next request. -/
theorem idle_of_answered (hl : LastLoad (requests inp) c n) {k : ℕ} (hck : c < k) (hkn : k < n)
    (h : ((after s₀ inp k).sys.cache.resp (inp k)).isSome = true ∨
      (after s₀ inp k).sys.cache.stateQ = .exception) :
    (after s₀ inp n).sys.cache.stateQ = .idle :=
  idle_of_quiet (a := k + 1) (Dcache.stateQ_step_of_answered (hl.quiet k hkn hck) h) (by omega)
    fun m hm hkm => hl.quiet m hm (by omega)

/-- A request after which the machine is idle has been answered. -/
theorem exists_answer_of_idle (hl : LastLoad (requests inp) c n)
    (hidle : (after s₀ inp n).sys.cache.stateQ = .idle) : ∃ t, c < t ∧ t < n ∧
      (((after s₀ inp t).sys.cache.resp (inp t)).isSome = true ∨
        (after s₀ inp t).sys.cache.stateQ = .exception) := by
  by_contra hnone
  have hbusy : ∀ k, c + 1 ≤ k → k ≤ n → (after s₀ inp k).sys.cache.stateQ ≠ .idle := by
    intro k hk hkn
    induction k, hk using Nat.le_induction with
    | base => exact Dcache.stateQ_step_of_reqValid hl.loads
    | succ k hk ih =>
        intro hnext
        have hiff := Dcache.stateQ_step_eq_idle (hl.quiet k (by omega) hk) (ih (by omega))
        exact hnone ⟨k, hk, by omega, hiff.mp hnext⟩
  exact hbusy n hl.lt le_rfl hidle

/-- A request that is still looked up has not faulted early. -/
theorem not_earlyFault (hl : LastLoad (requests inp) c n)
    (hst : (after s₀ inp n).sys.cache.stateQ = .fetch) : (inp c).earlyFault p = none := by
  by_contra hne
  have hx : (after s₀ inp (c + 1)).sys.cache.stateQ = .exception :=
    Dcache.stateQ_step_of_earlyFault hl.loads (Option.isSome_iff_ne_none.mpr hne)
  rcases Nat.lt_or_ge (c + 1) n with hlt | hge
  · simp [idle_of_answered hl (by omega) hlt (.inr hx)] at hst
  · rw [show n = c + 1 by have := hl.lt; omega, hx] at hst
    exact absurd hst (by decide)

/-- No response is decided before the one that the machine works on. -/
theorem resp_eq_none_before (hl : LastLoad (requests inp) c n)
    (hst : (after s₀ inp n).sys.cache.stateQ ≠ .idle) {k : ℕ} (hck : c < k) (hkn : k < n) :
    (after s₀ inp k).sys.cache.resp (inp k) = none := by
  by_contra hne
  exact hst (idle_of_answered hl hck hkn (.inl (Option.isSome_iff_ne_none.mpr hne)))

end Run

/-! ### An SC that succeeds -/

/-- The request of cycle `c` is an SC, and the one before it, of cycle `a`, is an LR of the
same line. -/
structure Reserved (inp : ℕ → DcacheIn) (a c : ℕ) : Prop where
  last : LastLoad (requests inp) a c
  opLr : (inp a).reqOp = .lr
  opSc : (inp c).reqOp = .sc
  line : slice (inp a).reqAddress 63 6 = slice (inp c).reqAddress 63 6

/-- A line is read in cycle `t`, and until the access of cycle `u` to the same line neither
another agent is granted write permission nor does the hart write.  In cycle `k` another
agent is granted write permission of the line `l` if `other k l`. -/
structure Exclusive (other : ℕ → ℕ → Prop) (s₀ : DcacheMem p) (inp : ℕ → DcacheIn) (t u : ℕ) :
    Prop where
  read : ((after s₀ inp t).sys.cache.resp (inp t)).isSome = true
  line : (after s₀ inp t).sys.line = (after s₀ inp u).sys.line
  others : ∀ k ≤ u, t ≤ k → ¬other k (after s₀ inp t).sys.line
  own : ∀ k < u, t ≤ k → ((after s₀ inp k).sys.cache.accessDataWrite (inp k)).isNone = true

/-- From cycle `t` to the access of cycle `u`, neither another agent is granted write permission
of its line nor does the hart write. -/
structure Undisturbed (other : ℕ → ℕ → Prop) (s₀ : DcacheMem p) (inp : ℕ → DcacheIn) (t u : ℕ) :
    Prop where
  others : ∀ k ≤ u, t ≤ k → ¬other k (after s₀ inp u).sys.line
  own : ∀ k < u, t ≤ k → ((after s₀ inp k).sys.cache.accessDataWrite (inp k)).isNone = true

/-- An SC that is answered 0 in cycle `u` writes, and it follows an LR of its line that either
has read the line or has faulted; nobody could write the line since. -/
def ScAtomic (other : ℕ → ℕ → Prop) (s₀ : DcacheMem p) (inp : ℕ → DcacheIn) (u : ℕ) : Prop :=
  (after s₀ inp u).sys.cache.opQ = .sc → (after s₀ inp u).sys.cache.resp (inp u) = some 0 →
    ((after s₀ inp u).sys.cache.accessDataWrite (inp u)).isSome = true ∧
    ∃ c < u, LastLoad (requests inp) c u ∧ ∃ a < c, Reserved inp a c ∧
      ((∃ x ≤ c, a < x ∧ (after s₀ inp x).sys.cache.stateQ = .exception ∧
          Undisturbed other s₀ inp x u) ∨
        ∃ t ≤ c, a < t ∧ Exclusive other s₀ inp t u)

/-- Where an SC directly follows an LR, the kind of addressing is unchanged and the address
of the LR is canonical. -/
def Comparable (p : DcacheParams) (inp : ℕ → DcacheIn) (u : ℕ) : Prop :=
  ∀ c < u, ∀ a < c, LastLoad (requests inp) a c ∧ (inp c).reqValid = true ∧
    (inp a).reqOp = .lr ∧ (inp c).reqOp = .sc →
    atpMode (inp a).reqAtp = atpMode (inp c).reqAtp ∧ (inp a).canonical p = true

section Succeeds
variable {s₀ : DcacheMem p} {inp : ℕ → DcacheIn} {other : ℕ → ℕ → Prop} {a c t u : ℕ}

theorem ReserveInv.cached_of_sc {s : DcacheMem p} (h : s.ReserveInv mem root)
    (hop : s.sys.cache.opQ ≠ .load) (hop' : s.sys.cache.opQ ≠ .store) :
    s.sys.cache.missStateQ ≠ .uncached := by
  intro hm
  rcases h.uncached hm with h | h
  · exact hop h
  · exact hop' h

/-- The reservation registers of an SC that succeeds name an LR. -/
theorem lr_of_resp_zero (h0 : s₀.IsReset) (hl : LastLoad (requests inp) c u)
    (hop : (after s₀ inp u).sys.cache.opQ = .sc)
    (hrf : (after s₀ inp u).sys.cache.reservationFailedQ = false) :
    (inp c).reqOp = .sc ∧ ∃ a, LastLoad (requests inp) a c ∧ (inp a).reqOp = .lr ∧
      slice (inp a).reqAddress (p.logicAddrLen - 1) 6 =
        slice (inp c).reqAddress (p.logicAddrLen - 1) 6 := by
  have hreg := latched_of_last s₀ hl
  simp only [latched, Prod.mk.injEq, hop, hrf] at hreg
  obtain ⟨hsc, -, -, -, -, hfail⟩ := hreg
  simp only [← hsc, beq_self_eq_true, Bool.true_and] at hfail
  have hfail' := hfail.symm
  simp only [Bool.or_eq_false_iff, bne_eq_false_iff_eq, Bool.not_eq_false'] at hfail'
  obtain ⟨a, ha, hlr, hres⟩ := exists_lr_of_reservedQ h0 hfail'.2
  exact ⟨hsc.symm, a, ha, hlr, hres.symm.trans hfail'.1.symm⟩

/-- Before the next request is accepted, an access is answered or faults. -/
theorem answer_of_ready (hl : LastLoad (requests inp) a c)
    (hready : (after s₀ inp c).sys.cache.reqReady (inp c) = true) : ∃ t ≤ c, a < t ∧
      (((after s₀ inp t).sys.cache.resp (inp t)).isSome = true ∨
        (after s₀ inp t).sys.cache.stateQ = .exception) := by
  cases hst : (after s₀ inp c).sys.cache.stateQ
  case idle =>
      obtain ⟨t, hat, htc, ht⟩ := exists_answer_of_idle hl hst
      exact ⟨t, htc.le, hat, ht⟩
  case fetch => exact ⟨c, le_rfl, hl.lt, .inl (Dcache.resp_isSome_of_ready hst hready)⟩
  all_goals simp [Dcache.reqReady, hst] at hready

/-- An LR is answered by a hit. -/
theorem hit_of_lr {s : DcacheMem p} {i : DcacheIn} (h : s.ReserveInv mem root)
    (hop : s.sys.cache.opQ = .lr) (hr : (s.sys.cache.resp i).isSome = true) :
    s.sys.cache.stateQ = .fetch ∧ s.sys.cache.outcome i = .hit := by
  rcases Dcache.resp_cases hr with ⟨hst, ho | ⟨-, hsc⟩⟩ | ⟨-, hm⟩
  · exact ⟨hst, ho⟩
  · simp [hop] at hsc
  · exact absurd hm (h.cached_of_sc (by simp [hop]) (by simp [hop]))

/-- From the answer or the fault of the LR in cycle `t` to the answer of the SC in cycle `u`, the
machine is where it answers the LR, idle, or works on the SC. -/
theorem phase_cases (hlr : LastLoad (requests inp) a c) (hsc : LastLoad (requests inp) c u)
    (hat : a < t) (hr : ((after s₀ inp t).sys.cache.resp (inp t)).isSome = true ∨
      (after s₀ inp t).sys.cache.stateQ = .exception)
    (hop : (after s₀ inp u).sys.cache.opQ = .sc) {k : ℕ} (htk : t ≤ k) (hku : k ≤ u) :
    k = t ∨ (t < k ∧ (after s₀ inp k).sys.cache.stateQ = .idle) ∨
      (c < k ∧ (after s₀ inp k).sys.cache.opQ = .sc) := by
  rcases Nat.eq_or_lt_of_le htk with rfl | htk
  · exact .inl rfl
  rcases Nat.lt_or_ge c k with hck | hkc
  · refine .inr (.inr ⟨hck, ?_⟩)
    have hreg := latched_of_last s₀ hsc
    have hreg' := latched_of_last s₀ (hsc.mono hck hku)
    simp only [latched, Prod.mk.injEq] at hreg hreg'
    rw [hreg'.1, ← hreg.1, hop]
  · exact .inr (.inl ⟨htk, idle_of_answered (hlr.mono (by omega) hkc) hat htk hr⟩)

/-- A permission that is held outside of refills was held before. -/
theorem granted_before {l : ℕ} (hinv : ∀ k ≤ u, (after s₀ inp k).ReserveInv mem root)
    (hst : ∀ k ≤ u, t ≤ k → (after s₀ inp k).sys.cache.stateQ ≠ .fill)
    (hg : (after s₀ inp u).granted l = .t) {k : ℕ} (htk : t ≤ k) (hku : k ≤ u) :
    (after s₀ inp k).granted l = .t := by
  induction hku using Nat.decreasingInduction with
  | self => exact hg
  | of_succ k hku ih =>
      exact (hinv k hku.le).granted_of_step (hst k hku.le htk) (ih (by omega))

/-- Between the answers of an LR and of the SC that follows it, nothing is written. -/
theorem own_of_phases (hlr : LastLoad (requests inp) a c) (hsc : LastLoad (requests inp) c u)
    (hat : a < t) (hr : ((after s₀ inp t).sys.cache.resp (inp t)).isSome = true ∨
      (after s₀ inp t).sys.cache.stateQ = .exception)
    (hopt : (after s₀ inp t).sys.cache.opQ = .lr) (hop : (after s₀ inp u).sys.cache.opQ = .sc)
    (hst : (after s₀ inp u).sys.cache.stateQ ≠ .idle) {k : ℕ} (hku : k < u) (htk : t ≤ k) :
    ((after s₀ inp k).sys.cache.accessDataWrite (inp k)).isNone = true := by
  have hreq : (after s₀ inp k).sys.cache.accessDataWriteReq (inp k) = false := by
    rcases phase_cases hlr hsc hat hr hop htk hku.le with rfl | ⟨-, hidle⟩ | ⟨hck, -⟩
    · simp [Dcache.accessDataWriteReq, hopt, MemOp.writes]
    · simp [Dcache.accessDataWriteReq, Dcache.fetches, hidle]
    · have hnone := resp_eq_none_before hsc hst hck hku
      by_contra hw
      simp only [Dcache.accessDataWriteReq, Bool.not_eq_false, Bool.and_eq_true] at hw
      simpa [hnone] using Dcache.resp_isSome_of_hit hw.1.1
  simp [Dcache.accessDataWrite, hreq]

/-- The registers of the access while the LR is answered. -/
theorem latched_lr (hlr : LastLoad (requests inp) a c) (hopLr : (inp a).reqOp = .lr)
    (hat : a < t) (htc : t ≤ c) : (after s₀ inp t).sys.cache.opQ = .lr := by
  have hreg := latched_of_last s₀ (hlr.mono hat htc)
  simp only [latched, Prod.mk.injEq] at hreg
  exact hreg.1.trans hopLr

/-- From the answer or the fault of an LR in cycle `t` until the SC hits in cycle `u`, nobody
disturbs the line. -/
theorem undisturbed_of_hit (hpa : 12 ≤ p.physAddrLen)
    (hinv : ∀ k ≤ u, (after s₀ inp k).ReserveInv mem root)
    (hcoh : ∀ k ≤ u, ∀ l, other k l → (after s₀ inp k).granted l ≠ .t)
    (hlr : LastLoad (requests inp) a c) (hsc : LastLoad (requests inp) c u)
    (hopLr : (inp a).reqOp = .lr) (hopu : (after s₀ inp u).sys.cache.opQ = .sc)
    (hat : a < t) (htc : t ≤ c)
    (hr : ((after s₀ inp t).sys.cache.resp (inp t)).isSome = true ∨
      (after s₀ inp t).sys.cache.stateQ = .exception)
    (hst : (after s₀ inp u).sys.cache.stateQ = .fetch)
    (ho : (after s₀ inp u).sys.cache.outcome (inp u) = .hit) :
    Undisturbed other s₀ inp t u := by
  have htu : t ≤ u := htc.trans hsc.lt.le
  have hopt : (after s₀ inp t).sys.cache.opQ = .lr := latched_lr hlr hopLr hat htc
  have hnofill : ∀ k ≤ u, t ≤ k → (after s₀ inp k).sys.cache.stateQ ≠ .fill := by
    intro k hku htk
    rcases phase_cases hlr hsc hat hr hopu htk hku with rfl | ⟨-, hidle⟩ | ⟨-, hop⟩
    · rcases hr with hr | hx
      · simp [(hit_of_lr (hinv k hku) hopt hr).1]
      · simp [hx]
    · simp [hidle]
    · exact fun hf => (hinv k hku).fill hf hop
  have hheld : (after s₀ inp u).granted (after s₀ inp u).sys.line = .t :=
    (hinv u le_rfl).granted_of_hit hpa hst ho (by simp [hopu])
  exact
    { others := fun k hku htk hother =>
        hcoh k hku _ hother (granted_before hinv hnofill hheld htk hku)
      own := fun k hku htk => own_of_phases hlr hsc hat hr hopt hopu (by simp [hst]) hku htk }

/-- The line that an LR has read in cycle `t` is held until the SC hits it in cycle `u`. -/
theorem exclusive_of_hits (hV : p.virtAddrLen = 39)
    (hinv : ∀ k ≤ u, (after s₀ inp k).ReserveInv mem root)
    (hrun : ∀ k ≤ u, (after s₀ inp k).Orderly mem root (inp k))
    (hlr : LastLoad (requests inp) a c) (hsc : LastLoad (requests inp) c u)
    (hopLr : (inp a).reqOp = .lr)
    (hmode : atpMode (inp a).reqAtp = atpMode (inp c).reqAtp)
    (hline : slice (inp a).reqAddress (p.logicAddrLen - 1) 6 =
      slice (inp c).reqAddress (p.logicAddrLen - 1) 6)
    (hat : a < t) (htc : t ≤ c)
    (hr : ((after s₀ inp t).sys.cache.resp (inp t)).isSome = true)
    (hst : (after s₀ inp u).sys.cache.stateQ = .fetch)
    (ho : (after s₀ inp u).sys.cache.outcome (inp u) = .hit)
    (hun : Undisturbed other s₀ inp t u) : Exclusive other s₀ inp t u := by
  have htu : t ≤ u := htc.trans hsc.lt.le
  have hregt := latched_of_last s₀ (hlr.mono hat htc)
  have hregu := latched_of_last s₀ hsc
  simp only [latched, Prod.mk.injEq] at hregt hregu
  obtain ⟨hstt, hot⟩ := hit_of_lr (hinv t htu) (latched_lr hlr hopLr hat htc) hr
  have hsame : (after s₀ inp t).sys.line = (after s₀ inp u).sys.line := by
    refine DcacheSys.line_eq_of_placed hV
      ((hinv t htu).sound.placed (hrun t htu).sys.env hstt hot)
      ((hinv u le_rfl).sound.placed (hrun u le_rfl).sys.env hst ho) ?_ ?_
    · rw [hregt.2.2.1, hregu.2.2.1, hmode]
    · rw [hregt.2.1, hregu.2.1, hline]
  exact
    { read := hr
      line := hsame
      others := fun k hku htk => by
        rw [hsame]
        exact hun.others k hku htk
      own := hun.own }

theorem scAtomic_of_inv (hV : p.virtAddrLen = 39) (hpa : 12 ≤ p.physAddrLen) (h0 : s₀.IsReset)
    (hinv : ∀ k ≤ u, (after s₀ inp k).ReserveInv mem root)
    (hrun : ∀ k ≤ u, (after s₀ inp k).Orderly mem root (inp k))
    (hcmp : Comparable p inp u)
    (hcoh : ∀ k ≤ u, ∀ l, other k l → (after s₀ inp k).granted l ≠ .t) :
    ScAtomic other s₀ inp u := by
  intro hop hresp
  obtain ⟨hst, ho, hrf⟩ :=
    Dcache.of_resp_zero ((hinv u le_rfl).cached_of_sc (by simp [hop]) (by simp [hop])) hresp
  have hbusy : (after s₀ inp u).sys.cache.stateQ ≠ .idle := by simp [hst]
  obtain ⟨c, hsc⟩ := exists_last_of_busy h0 hbusy
  obtain ⟨hopSc, a, hlr, hopLr, hline⟩ := lr_of_resp_zero h0 hsc hop hrf
  obtain ⟨hmode, hcanon⟩ := hcmp c hsc.lt a hlr.lt ⟨hlr, hsc.loads, hopLr, hopSc⟩
  have hreserved : Reserved inp a c :=
    { last := hlr
      opLr := hopLr
      opSc := hopSc
      line := DcacheIn.line_eq_of_canonical (by omega) hmode hcanon
        (DcacheIn.canonical_of_earlyFault (not_earlyFault hsc hst)) hline }
  refine ⟨?_, c, hsc.lt, hsc, a, hlr.lt, hreserved, ?_⟩
  · simp [Dcache.accessDataWrite, Dcache.accessDataWriteReq, Dcache.fetches, hst, ho, hrf, hop,
      MemOp.writes]
  · have hready := (hrun c hsc.lt.le).env.sys.ready hsc.loads
    obtain ⟨t, htc, hat, hr⟩ := answer_of_ready hlr hready
    have hun := undisturbed_of_hit hpa hinv hcoh hlr hsc hopLr hop hat htc hr hst ho
    rcases hr with hr | hx
    · exact .inr ⟨t, htc, hat, exclusive_of_hits hV hinv hrun hlr hsc hopLr hmode hline hat htc hr
        hst ho hun⟩
    · exact .inl ⟨t, htc, hat, hx, hun⟩

end Succeeds

/-! ### An SC that fails -/

/-- From its acceptance on, an SC that is answered 1 in cycle `u` changes no data, only
probes and the reset flush change the tags, and its answer changes nothing. -/
def ScHarmless (s₀ : DcacheMem p) (inp : ℕ → DcacheIn) (u : ℕ) : Prop :=
  (after s₀ inp u).sys.cache.opQ = .sc → (after s₀ inp u).sys.cache.resp (inp u) = some 1 →
    ∃ c < u, LastLoad (requests inp) c u ∧
      (after s₀ inp (u + 1)).sys.cache.dataRam.banks =
        (after s₀ inp (c + 1)).sys.cache.dataRam.banks ∧
      (∀ k ≤ u, c < k → (after s₀ inp k).sys.cache.probeStateQ = .idle →
        (after s₀ inp k).sys.cache.flushStateQ ≠ .reset →
        (after s₀ inp (k + 1)).sys.cache.tagRam.mem = (after s₀ inp k).sys.cache.tagRam.mem) ∧
      (after s₀ inp (u + 1)).sys.cache.tagRam.mem = (after s₀ inp u).sys.cache.tagRam.mem

section Fails
variable {s₀ : DcacheMem p} {inp : ℕ → DcacheIn} {c u : ℕ}

/-- A cycle of an SC without a write of its own. -/
theorem ReserveInv.step_of_sc {s : DcacheMem p} {i : DcacheIn} (h : s.ReserveInv mem root)
    (hop : s.sys.cache.opQ = .sc) (hw : s.sys.cache.accessDataWriteReq i = false) :
    (s.step i).sys.cache.dataRam.banks = s.sys.cache.dataRam.banks ∧
      (s.sys.cache.probeStateQ = .idle → s.sys.cache.flushStateQ ≠ .reset →
        (s.step i).sys.cache.tagRam.mem = s.sys.cache.tagRam.mem) := by
  have hrefill : s.sys.cache.refillStateQ = .idle := by
    cases hr : s.sys.cache.refillStateQ
    · rfl
    · exact absurd hop (h.fill (h.inv.fill_of_miss (h.inv.fifo.filling (.inr hr)).1))
  have htag : s.sys.cache.accessTagWrite i = none := by
    simp [Dcache.accessTagWrite, Dcache.not_miss_of_sc hop, hw]
  have hdata : s.sys.cache.accessDataWrite i = none := by simp [Dcache.accessDataWrite, hw]
  constructor
  · exact Dcache.banks_step_none (Dcache.refillDataWrite_none hrefill) hdata
  · intro hp hf
    exact Dcache.mem_step_none (Dcache.refillTagWrite_none hrefill) (Dcache.probeTagWrite_none hp)
      (h.inv.locked.flushTagWrite_none hf) htag

theorem scHarmless_of_inv (h0 : s₀.IsReset)
    (hinv : ∀ k ≤ u, (after s₀ inp k).ReserveInv mem root) : ScHarmless s₀ inp u := by
  intro hop hresp
  have hst : (after s₀ inp u).sys.cache.stateQ ≠ .idle := by
    intro hidle
    simp [Dcache.resp_none_of_idle hidle] at hresp
  obtain ⟨c, hsc⟩ := exists_last_of_busy h0 hst
  have hstep : ∀ k ≤ u, c < k → (after s₀ inp (k + 1)).sys.cache.dataRam.banks =
        (after s₀ inp k).sys.cache.dataRam.banks ∧
      ((after s₀ inp k).sys.cache.probeStateQ = .idle →
        (after s₀ inp k).sys.cache.flushStateQ ≠ .reset →
        (after s₀ inp (k + 1)).sys.cache.tagRam.mem = (after s₀ inp k).sys.cache.tagRam.mem) := by
    intro k hku hck
    have hopk : (after s₀ inp k).sys.cache.opQ = .sc := by
      have hreg := latched_of_last s₀ hsc
      have hregk := latched_of_last s₀ (hsc.mono hck hku)
      simp only [latched, Prod.mk.injEq] at hreg hregk
      rw [hregk.1, ← hreg.1, hop]
    refine (hinv k hku).step_of_sc hopk ?_
    rcases Nat.eq_or_lt_of_le hku with rfl | hku
    · exact Dcache.accessDataWriteReq_of_resp hresp hopk
    · by_contra hw
      simp only [Dcache.accessDataWriteReq, Bool.not_eq_false, Bool.and_eq_true] at hw
      simpa [resp_eq_none_before hsc hst hck hku] using Dcache.resp_isSome_of_hit hw.1.1
  refine ⟨c, hsc.lt, hsc, ?_, fun k hku hck => (hstep k hku hck).2, ?_⟩
  · have hbanks : ∀ k, c + 1 ≤ k → k ≤ u + 1 → (after s₀ inp k).sys.cache.dataRam.banks =
        (after s₀ inp (c + 1)).sys.cache.dataRam.banks := by
      intro k hck hku
      induction k, hck using Nat.le_induction with
      | base => rfl
      | succ k hck ih => rw [(hstep k (by omega) hck).1, ih (by omega)]
    have := hsc.lt
    exact hbanks (u + 1) (by omega) le_rfl
  · have hn : (after s₀ inp u).sys.cache.nothingInProgress = true := by
      rcases Dcache.resp_cases (by rw [hresp]; rfl) with ⟨hf, ho | ⟨ho, -⟩⟩ | ⟨hf, -⟩
      · exact (Dcache.of_hit ho).1
      · exact Dcache.nothingInProgress_of_fetches (o := .scFail) (i := inp u) (by decide)
          (by simp [Dcache.fetches, hf, ho])
      · exact absurd hop ((hinv u le_rfl).fill hf)
    obtain ⟨-, hp, -, hfl⟩ := (hinv u le_rfl).inv.locked.nothingInProgress.mp hn
    exact (hstep u le_rfl hsc.lt).2 hp hfl

end Fails

/-- In a run from reset whose cycles are orderly, where the addresses of an LR and the
directly following SC are comparable and the manager grants write permission to another
agent only when the cache has none, an SC that succeeds is atomic and one that fails
changes nothing. -/
theorem sc_atomic_of_orderly (hV : p.virtAddrLen = 39) (hsw : p.setsWidth ≤ 6)
    (hpa : 12 ≤ p.physAddrLen) {s₀ : DcacheMem p} (h0 : s₀.IsReset)
    (hempty : ∀ vpn ppn prot, ¬s₀.sys.cache.tr.tlb.Holds p.tlbSetsWidth vpn ppn prot)
    {inp : ℕ → DcacheIn} {u : ℕ} (hrun : ∀ k ≤ u, (after s₀ inp k).Orderly mem root (inp k))
    (hcmp : Comparable p inp u) {other : ℕ → ℕ → Prop}
    (hcoh : ∀ k ≤ u, ∀ l, other k l → (after s₀ inp k).granted l ≠ .t) :
    ScAtomic other s₀ inp u ∧ ScHarmless s₀ inp u := by
  have hinv : ∀ k ≤ u, (after s₀ inp k).ReserveInv mem root := by
    intro k hk
    exact run_invariant (ReserveInv mem root) (Orderly mem root)
      (reserveInv_of_isReset h0 hempty) (fun _ _ h ho => reserveInv_step hV hsw hpa h ho) k
      fun m hm => hrun m (by omega)
  exact ⟨scAtomic_of_inv hV hpa h0 hinv hrun hcmp hcoh, scHarmless_of_inv h0 hinv⟩

/-! ## A small system -/

instance (mem : ℕ → ℕ) (root : ℕ) (s : DcacheMem p) (i : DcacheIn) :
    Decidable (s.Orderly mem root i) :=
  decidable_of_iff (s.Env i ∧ s.sys.Orderly mem root i) ⟨fun ⟨a, b⟩ => ⟨a, b⟩, fun ⟨a, b⟩ => ⟨a, b⟩⟩

instance (inp : ℕ → DcacheIn) (a c : ℕ) : Decidable (Reserved inp a c) :=
  decidable_of_iff (LastLoad (requests inp) a c ∧ (inp a).reqOp = .lr ∧ (inp c).reqOp = .sc ∧
      slice (inp a).reqAddress 63 6 = slice (inp c).reqAddress 63 6)
    ⟨fun ⟨a, b, d, e⟩ => ⟨a, b, d, e⟩, fun ⟨a, b, d, e⟩ => ⟨a, b, d, e⟩⟩

instance (inp : ℕ → DcacheIn) (u : ℕ) : Decidable (Comparable p inp u) :=
  inferInstanceAs (Decidable (∀ c < u, ∀ a < c, _ ∧ _ → _ ∧ _))

section Decidable
variable (other : ℕ → ℕ → Prop) [∀ k l, Decidable (other k l)] (s₀ : DcacheMem p)
  (inp : ℕ → DcacheIn) (t u : ℕ)

instance : Decidable (Exclusive other s₀ inp t u) :=
  decidable_of_iff (((after s₀ inp t).sys.cache.resp (inp t)).isSome = true ∧
      (after s₀ inp t).sys.line = (after s₀ inp u).sys.line ∧
      (∀ k ≤ u, t ≤ k → ¬other k (after s₀ inp t).sys.line) ∧
      ∀ k < u, t ≤ k → ((after s₀ inp k).sys.cache.accessDataWrite (inp k)).isNone = true)
    ⟨fun ⟨a, b, d, e⟩ => ⟨a, b, d, e⟩, fun ⟨a, b, d, e⟩ => ⟨a, b, d, e⟩⟩

instance : Decidable (Undisturbed other s₀ inp t u) :=
  decidable_of_iff ((∀ k ≤ u, t ≤ k → ¬other k (after s₀ inp u).sys.line) ∧
      ∀ k < u, t ≤ k → ((after s₀ inp k).sys.cache.accessDataWrite (inp k)).isNone = true)
    ⟨fun ⟨a, b⟩ => ⟨a, b⟩, fun ⟨a, b⟩ => ⟨a, b⟩⟩

instance : Decidable (ScAtomic other s₀ inp u) := inferInstanceAs (Decidable (_ → _ → _ ∧ _))

end Decidable

/-- A translated access of a double word. -/
def access (op : MemOp) (address : ℕ) : DcacheIn := { DcacheSys.load address with reqOp := op }

/-- A beat of a grant of Trunk. -/
def grantTrunk : DcacheIn :=
  { DcacheSys.quiet with memD := some ⟨.grantData, toT, 6, 0, 0, false, false, 0⟩ }

/-- Page tables at zero that map the first gigabyte to itself and the next two to the
second one, all of it readable and writable. -/
def gigapages (a : ℕ) : ℕ := if a = 0 then 0xc7 else if a = 1 ∨ a = 2 then 0x100000c7 else 0

/-- An LR with its walk and its refill, then the SC. -/
def lrSc (k : ℕ) : DcacheIn :=
  if k = 0 then access .lr 0x1000 else if k = 3 then DcacheSys.ptwReply 0xc7
  else if 9 ≤ k ∧ k < 17 then grantTrunk
  else if k = 20 then access .sc 0x1000 else DcacheSys.quiet

/-- The SC succeeds, and only another line was granted to another agent. -/
theorem sc_atomic_of_orderly_lrSc :
    (after smallReset lrSc 21).sys.cache.opQ = .sc ∧
      (after smallReset lrSc 21).sys.cache.resp (lrSc 21) = some 0 ∧
      ScAtomic (fun _ l => l = 0x80) smallReset lrSc 21 ∧ ScHarmless smallReset lrSc 21 := by
  refine ⟨by decide, by decide, sc_atomic_of_orderly rfl (by decide) (by decide)
    isReset_smallReset DcacheSys.not_holds_smallReset
    (show ∀ k ≤ 21, (after smallReset lrSc k).Orderly gigapages 0 (lrSc k) by decide)
    (by decide) ?_⟩
  have hgranted : ∀ k ≤ 21, (after smallReset lrSc k).granted 0x80 ≠ .t := by decide
  rintro k hk l rfl
  exact hgranted k hk

/-- Two lines are stored to.  A misaligned load of a third page, which is mapped to the
first line, starts a walk; then an LR of the second line, its SC, and with the SC a probe
that takes the second line away.  The walk is answered while the probe is. -/
def strayReserve (k : ℕ) : DcacheIn :=
  if k = 0 then access .store 0x40001000 else if k = 3 then DcacheSys.ptwReply 0x100000c7
  else if 9 ≤ k ∧ k < 17 then grantTrunk
  else if k = 20 then access .store 0x1000 else if k = 23 then DcacheSys.ptwReply 0xc7
  else if 29 ≤ k ∧ k < 37 then grantTrunk
  else if k = 40 then access .load 0x80001001
  else if k = 42 then access .lr 0x1000
  else if k = 44 then
    { access .sc 0x1000 with
      memB := some
        { opcode := .probeBlock
          param := toN
          size := 6
          source := 0
          address := 0x1000 } }
  else if k = 50 then DcacheSys.ptwReply 0x100000c7
  else DcacheSys.quiet

/-- The stray walk gives the SC the line of the first store, which it hits: it succeeds
after another agent was granted write permission of the line that the LR has read. -/
theorem sc_succeeds_after_stray_walk :
    smallReset.IsReset ∧
      (∀ vpn ppn prot,
        ¬smallReset.sys.cache.tr.tlb.Holds DcacheSys.smallParams.tlbSetsWidth vpn ppn prot) ∧
      (∀ k ≤ 55, (after smallReset strayReserve k).Env (strayReserve k) ∧
        (after smallReset strayReserve k).sys.Answers gigapages (strayReserve k) ∧
        DcacheSys.Rooted DcacheSys.smallParams 0 (strayReserve k)) ∧
      Comparable DcacheSys.smallParams strayReserve 55 ∧
      (after smallReset strayReserve 54).granted 0x40 ≠ .t ∧
      (after smallReset strayReserve 43).sys.line = 0x40 ∧
      ((after smallReset strayReserve 43).sys.cache.resp (strayReserve 43)).isSome = true ∧
      (after smallReset strayReserve 55).sys.cache.opQ = .sc ∧
      (after smallReset strayReserve 55).sys.cache.resp (strayReserve 55) = some 0 ∧
      ¬ScAtomic (fun k l => k = 54 ∧ l = 0x40) smallReset strayReserve 55 :=
  ⟨isReset_smallReset, DcacheSys.not_holds_smallReset, by decide, by decide,
    by decide, by decide, by decide, by decide, by decide,
    by decide +kernel⟩

/-- A store, then an LR whose address is not canonical but has the same low bits, and the
SC. -/
def truncatedReserve (k : ℕ) : DcacheIn :=
  if k = 0 then access .store 0x1000 else if k = 3 then DcacheSys.ptwReply 0xc7
  else if 9 ≤ k ∧ k < 17 then grantTrunk
  else if k = 20 then access .lr 0x100000000001000
  else if k = 22 then access .sc 0x1000 else DcacheSys.quiet

/-- The reservation of an LR that has faulted on its upper address bits is good for the
line of its lower bits. -/
theorem sc_succeeds_after_truncated_lr :
    (∀ k ≤ 23, (after smallReset truncatedReserve k).Orderly gigapages 0 (truncatedReserve k)) ∧
      (after smallReset truncatedReserve 23).sys.cache.opQ = .sc ∧
      (after smallReset truncatedReserve 23).sys.cache.resp (truncatedReserve 23) = some 0 ∧
      ¬ScAtomic (fun _ _ => False) smallReset truncatedReserve 23 :=
  ⟨by decide, by decide, by decide, by decide⟩

end DcacheMem

end Muntjac.Core

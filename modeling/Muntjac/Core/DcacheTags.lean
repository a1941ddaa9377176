import Muntjac.Core.DcacheLock
import Muntjac.Core.DcacheTranslate

/-!
# The tag array of the data cache

Which lines the tags name, against what the memory has granted.  The memory side is a
TileLink manager: it grants only what was acquired.

## Main definitions

* `DcacheMem.step` — one cycle of the cache with the manager's record of grants.
* `SetOk` — a set has no duplicate tags, dirty lines are writable and a valid tag has
  the permission that was granted last and not taken back.
* `DcacheMem.Inv` — the invariant across the access, refill and probe machines.
-/

namespace Muntjac.Core

open Sync Tl

/-- The cache and the manager's record: the line of the outstanding acquire and the
permissions granted. -/
structure DcacheMem (p : DcacheParams) where
  sys : DcacheSys p
  acq : Option ℕ
  granted : ℕ → Perm

namespace Dcache
variable {p : DcacheParams}

/-- The acquire of this cycle is accepted. -/
def acquires (s : Dcache p) (i : DcacheIn) : Bool :=
  s.missStateQ == .fill && !s.missRefillSentQ && s.memAReadyMult i 1

/-- The grant that ends in this cycle. -/
def grantLast (s : Dcache p) (i : DcacheIn) : Option RefillBeat :=
  (s.refillFifoInsert i).filter fun b => b.last

/-- The permissions after a cycle: a grant ends, a probe is answered, or a line is
released. -/
def nextGranted (s : Dcache p) (acq : Option ℕ) (granted : ℕ → Perm) (i : DcacheIn) (l : ℕ) :
    Perm :=
  match s.grantLast i with
  | some b => if acq = some l && !b.msg.denied then Perm.ofGrant b.msg.param else keep
  | none => keep
where
  keep : Perm :=
    if s.probeStateQ = .check && s.probeAddressQ = l then (granted l).afterProbe s.probeParamQ
    else if (s.wbRelReq i).map WbReq.address = some l then .n
    else granted l

end Dcache

namespace DcacheMem
variable {p : DcacheParams}

def step (s : DcacheMem p) (i : DcacheIn) : DcacheMem p where
  sys := s.sys.step i
  acq :=
    if s.sys.cache.acquires i then some (s.sys.cache.refillReqAddress i)
    else if (s.sys.cache.grantLast i).isSome then none else s.acq
  granted := s.sys.cache.nextGranted s.acq s.granted i

theorem step_sys_cache (s : DcacheMem p) (i : DcacheIn) :
    (s.step i).sys.cache = s.sys.cache.step i := rfl

/-- The rules of the backend, of the page table memory and of the manager. -/
structure Env (s : DcacheMem p) (i : DcacheIn) : Prop where
  sys : s.sys.Env i
  grantAsked : (s.sys.cache.refillFifoInsert i).isSome = true → s.acq.isSome = true

structure IsReset (s : DcacheMem p) : Prop where
  sys : s.sys.IsReset
  acq : s.acq = none

end DcacheMem

/-- The permission of a valid tag. -/
def DcacheTag.perm (t : DcacheTag) : Perm := if t.writable then .t else .b

/-- A set of tags against the permissions granted. -/
structure SetOk {n : ℕ} (sw : ℕ) (granted : ℕ → Perm) (set : ℕ) (ways : Fin n → DcacheTag) :
    Prop where
  unique : ∀ j k, (ways j).valid = true → (ways k).valid = true →
    (ways j).tag = (ways k).tag → j = k
  dirty : ∀ k, (ways k).valid = true → (ways k).dirty = true → (ways k).writable = true
  held : ∀ k, (ways k).valid = true → granted (cat (ways k).tag sw set) = (ways k).perm

/-- No valid way of the set names the line `l`. -/
def Absent {n : ℕ} (sw l : ℕ) (ways : Fin n → DcacheTag) : Prop :=
  ∀ k, (ways k).valid = true → (ways k).tag ≠ l / 2 ^ sw

section SetOk
variable {n sw set l : ℕ} {granted granted' : ℕ → Perm} {ways : Fin n → DcacheTag}

/-- Changing the permissions of lines that are not in the set. -/
theorem SetOk.congr (h : SetOk sw granted set ways)
    (hg : ∀ k, (ways k).valid = true →
      granted' (cat (ways k).tag sw set) = granted (cat (ways k).tag sw set)) :
    SetOk sw granted' set ways := by
  refine ⟨h.unique, h.dirty, fun k hk => ?_⟩
  rw [hg k hk]
  exact h.held k hk

/-- Rewriting ways without changing their tags. -/
theorem SetOk.rewrite {ways' : Fin n → DcacheTag} (h : SetOk sw granted set ways)
    (hv : ∀ k, (ways' k).valid = true → (ways k).valid = true ∧ (ways' k).tag = (ways k).tag)
    (hd : ∀ k, (ways' k).valid = true → (ways' k).dirty = true → (ways' k).writable = true)
    (hh : ∀ k, (ways' k).valid = true → granted (cat (ways k).tag sw set) = (ways k).perm →
      granted' (cat (ways k).tag sw set) = (ways' k).perm) :
    SetOk sw granted' set ways' := by
  refine ⟨fun j k hj hk ht => ?_, hd, fun k hk => ?_⟩
  · obtain ⟨hvj, htj⟩ := hv j hj
    obtain ⟨hvk, htk⟩ := hv k hk
    exact h.unique j k hvj hvk (by rw [← htj, ← htk, ht])
  · obtain ⟨hvk, htk⟩ := hv k hk
    rw [htk]
    exact hh k hk (h.held k hvk)

/-- Installing a line that the set does not have. -/
theorem SetOk.install (h : SetOk sw granted (l % 2 ^ sw) ways) (ha : Absent sw l ways) (w : Fin n)
    (wr : Bool) (hg : granted l = if wr then .t else .b) :
    SetOk sw granted (l % 2 ^ sw)
      fun k => if k == w then ⟨l / 2 ^ sw, wr, false, true⟩ else ways k := by
  have hl : cat (l / 2 ^ sw) sw (l % 2 ^ sw) = l := cat_div_mod l sw
  refine ⟨fun j k hj hk hjk => ?_, fun k hk hd => ?_, fun k hk => ?_⟩
  · by_cases hjw : j = w <;> by_cases hkw : k = w
    · rw [hjw, hkw]
    · simp only [hjw, hkw, beq_self_eq_true, if_true, beq_iff_eq, if_false] at hk hjk
      exact absurd hjk.symm (ha k hk)
    · simp only [hjw, hkw, beq_self_eq_true, if_true, beq_iff_eq, if_false] at hj hjk
      exact absurd hjk (ha j hj)
    · simp only [hjw, hkw, beq_iff_eq, if_false] at hj hk hjk
      exact h.unique j k hj hk hjk
  · by_cases hkw : k = w
    · simp [hkw] at hd
    · simp only [hkw, beq_iff_eq, if_false] at hk hd ⊢
      exact h.dirty k hk hd
  · by_cases hkw : k = w
    · simp only [hkw, beq_self_eq_true, if_true, hl]
      exact hg
    · simp only [hkw, beq_iff_eq, if_false] at hk ⊢
      exact h.held k hk

/-- A line of another set, or one that the set does not have, is not that of a way. -/
theorem ne_line_of_absent (hset : set < 2 ^ sw)
    (h : set = l % 2 ^ sw → Absent sw l ways) {k : Fin n} (hk : (ways k).valid = true) :
    cat (ways k).tag sw set ≠ l := by
  intro heq
  refine h ?_ k hk ?_
  · rw [← heq, cat_mod hset]
  · rw [← heq, cat_div hset]

end SetOk

/-! ## Line addresses -/

namespace DcacheSys
variable {p : DcacheParams} {s : DcacheSys p} {i : DcacheIn}

/-- The line of the access in flight. -/
def line (s : DcacheSys p) : ℕ :=
  (if atpMode s.atp then cat s.cache.tr.ppn 6 (s.cache.addressQ / 2 ^ 6 % 2 ^ 6)
  else s.cache.addressQ / 2 ^ 6) % 2 ^ (p.physAddrLen - 6)

private theorem mod_div_line {pa : ℕ} (hpa : 6 ≤ pa) (x : ℕ) :
    x % 2 ^ pa / 2 ^ 6 = x / 2 ^ 6 % 2 ^ (pa - 6) := by
  have hpow : 2 ^ pa = 2 ^ 6 * 2 ^ (pa - 6) := by rw [← pow_add, Nat.add_sub_cancel' hpa]
  rw [hpow, Nat.mod_mul_right_div_self]

private theorem mod_pow_mod {a b : ℕ} (h : a ≤ b) (x : ℕ) : x % 2 ^ b % 2 ^ a = x % 2 ^ a :=
  Nat.mod_mod_of_dvd x (Nat.pow_dvd_pow 2 h)

theorem refillReqAddress_eq_line (hpa : 12 ≤ p.physAddrLen) (henv : s.Env i)
    (hb : s.cache.Busy) : s.cache.refillReqAddress i = s.line := by
  have hcat : cat s.cache.tr.ppn 12 (s.cache.addressQ % 2 ^ 12) / 2 ^ 6 =
      cat s.cache.tr.ppn 6 (s.cache.addressQ / 2 ^ 6 % 2 ^ 6) := by
    simp only [cat]
    omega
  rw [Dcache.refillReqAddress, Dcache.addressPhys, henv.atpHeld hb, line]
  split_ifs
  · rw [mod_div_line (by omega), hcat]
  · rw [mod_div_line (by omega)]

/-- The set of the access is that of its line: the index lies in the page offset. -/
theorem accessSet_eq_line (hsw : p.setsWidth ≤ 6) (hpa : 12 ≤ p.physAddrLen) :
    s.cache.accessSet = s.line % 2 ^ p.setsWidth := by
  rw [line, mod_pow_mod (by omega), Dcache.accessSet]
  split_ifs
  · have hdvd : 2 ^ p.setsWidth ∣ 2 ^ 6 := Nat.pow_dvd_pow 2 hsw
    rw [cat, Nat.add_mod, Nat.mul_mod, Nat.mod_eq_zero_of_dvd hdvd, Nat.mul_zero, Nat.zero_mod,
      Nat.zero_add, Nat.mod_mod, mod_pow_mod hsw]
  · rfl

/-- The tags of an access are compared with its line. -/
theorem tagReadAddrLatchPhys_eq_line (hpa : 12 ≤ p.physAddrLen)
    (hl : s.cache.tagReadAddrLatch = slice s.cache.addressQ (p.logicAddrLen - 1) 6)
    (hphys : s.cache.tagReadPhysicalLatch = !atpMode s.atp) :
    s.cache.tagReadAddrLatchPhys = s.line := by
  have hla : p.physAddrLen ≤ p.logicAddrLen := le_max_right _ _
  have hl' : s.cache.tagReadAddrLatch = s.cache.addressQ / 2 ^ 6 % 2 ^ (p.logicAddrLen - 6) := by
    rw [hl, slice, show p.logicAddrLen - 1 + 1 - 6 = p.logicAddrLen - 6 by omega]
  rw [Dcache.tagReadAddrLatchPhys, line, hphys]
  cases atpMode s.atp
  · simp only [Bool.not_false, if_true, Bool.false_eq_true, if_false]
    rw [cat_div_mod, hl', mod_pow_mod (by omega)]
  · simp only [Bool.not_true, Bool.false_eq_true, if_false, if_true]
    rw [hl', mod_pow_mod (by omega)]

/-- An access that has its translation keeps its line. -/
theorem line_step (ho : s.WalkOwned) (hq : i.reqValid = false)
    (hv : atpMode s.atp = true → s.cache.tr.ppnValid = true) : (s.step i).line = s.line := by
  have haddr : (s.step i).cache.addressQ = s.cache.addressQ := by
    simp [step, Dcache.step, Dcache.nextAddressQ, hq]
  rw [line, line, atp_step hq, haddr]
  cases ha : atpMode s.atp
  · rfl
  · have hval := hv ha
    have hl : s.cache.tr.ptw.level = none := by
      by_contra hl
      simp [ho.ppnValid_of_level hl] at hval
    have hm : s.cache.tr.tlbMiss = false := by
      by_contra hm
      simp [ho.ppnValid_of_tlbMiss (by simpa using hm)] at hval
    have hst : (s.step i).cache.tr.ptw.stateQ = .idle := (Ptw.step_rest hl hm).1
    have hpulse : (s.step i).cache.tr.ppnValidPulse = false := by
      simp [Translation.ppnValidPulse, tlbRespValid_step, hq, Ptw.respValid, hst]
    have hppn : (s.step i).cache.tr.ppn = s.cache.tr.ppn := by
      rw [Translation.ppn, hpulse]
      rfl
    rw [hppn]

end DcacheSys

/-! ## The tag port -/

namespace Dcache
variable {p : DcacheParams} {s : Dcache p} {i : DcacheIn}

/-- The RAM contents after a write. -/
def writeTags {n : ℕ} (mem : ℕ → Fin n → DcacheTag) (set : ℕ) (ways : Fin n → Bool)
    (w : DcacheTag) (a : ℕ) (k : Fin n) : DcacheTag :=
  if a == set && ways k then w else mem a k

theorem mem_step_refill {set : ℕ} {ways : Fin p.numWays → Bool} {w : DcacheTag}
    (h : s.refillTagWrite i = some (.write set ways w)) :
    (s.step i).tagRam.mem = writeTags s.tagRam.mem set ways w := by
  simp only [step, tagReq, h, Option.some_or]
  rfl

theorem Locked.mem_step_probe {set : ℕ} {ways : Fin p.numWays → Bool} {w : DcacheTag}
    (hL : s.Locked) (h : s.probeTagWrite = some (.write set ways w)) :
    (s.step i).tagRam.mem = writeTags s.tagRam.mem set ways w := by
  have hr : s.refillTagWrite i = none := by
    simpa using (hL.arbiterOk i).probeTagWrite (by simp [h])
  simp only [step, tagReq, hr, h, Option.none_or, Option.some_or]
  rfl

theorem Locked.mem_step_flush {set : ℕ} {ways : Fin p.numWays → Bool} {w : DcacheTag}
    (hL : s.Locked) (h : s.flushTagWrite = some (.write set ways w)) :
    (s.step i).tagRam.mem = writeTags s.tagRam.mem set ways w := by
  obtain ⟨hr, hp, ht⟩ := (hL.arbiterOk i).flushTagWrite (by simp [h])
  simp only [Option.isSome_eq_false_iff, Option.isNone_iff_eq_none] at hr hp ht
  simp only [step, tagReq, hr, hp, ht, h, Option.map_none, Option.none_or, Option.some_or]
  rfl

theorem tagPortTaken_eq_false (h : s.tagPortTaken i = false) :
    s.refillTagWrite i = none ∧ s.probeTagWrite = none ∧ s.probeTagRead i = none ∧
      s.flushTagWrite = none ∧ s.flushTagRead i = none := by
  simpa [tagPortTaken, and_assoc] using h

theorem Locked.mem_step_access {set : ℕ} {ways : Fin p.numWays → Bool} {w : DcacheTag}
    (hL : s.Locked) (h : s.accessTagWrite i = some (.write set ways w)) :
    (s.step i).tagRam.mem = writeTags s.tagRam.mem set ways w := by
  obtain ⟨hr, hp, hpr, hf, hfr⟩ :=
    tagPortTaken_eq_false ((hL.arbiterOk i).accessTagWrite (by simp [h]))
  simp only [step, tagReq, hr, hp, hpr, hf, hfr, h, Option.map_none, Option.none_or,
    Option.some_or]
  rfl

theorem mem_step_none (hr : s.refillTagWrite i = none) (hp : s.probeTagWrite = none)
    (hf : s.flushTagWrite = none) (ha : s.accessTagWrite i = none) :
    (s.step i).tagRam.mem = s.tagRam.mem := by
  simp only [step, tagReq, hr, hp, hf, ha, Option.none_or]
  cases s.probeTagRead i <;> cases s.flushTagRead i <;> cases s.accessReadReq i <;> rfl

/-- A granted read of the access machine. -/
theorem step_of_accessTagReadGnt (h : s.accessTagReadGnt i = true) :
    (s.step i).tagRam.mem = s.tagRam.mem ∧
      (s.step i).tagRam.rdata = s.tagRam.mem (s.accessTagReadAddr i % 2 ^ p.setsWidth) ∧
      (s.step i).tagReadAddrLatch = s.accessTagReadAddr i ∧
      (s.step i).tagReadPhysicalLatch = !atpMode i.reqAtp := by
  have hg := h
  simp only [accessTagReadGnt, Bool.and_eq_true, Bool.not_eq_true', Option.isNone_iff_eq_none]
    at hg
  obtain ⟨⟨hreq, htaken⟩, ha⟩ := hg
  obtain ⟨hr, hp, hpr, hf, hfr⟩ := tagPortTaken_eq_false htaken
  refine ⟨mem_step_none hr hp hf ha, ?_, ?_, ?_⟩
  · simp only [step, tagReq, hr, hp, hpr, hf, hfr, ha, hreq, Option.map_none, Option.none_or,
      if_true]
    rfl
  · simp [step, tagReadLatch, hr, hp, hpr, hf, hfr, h]
  · simp [step, tagReadLatch, hr, hp, hpr, hf, hfr, h]

/-- The read of an accepted probe. -/
theorem Locked.step_of_probeTagRead (hL : s.Locked) {a : ℕ} (h : s.probeTagRead i = some a) :
    (s.step i).tagRam.rdata = s.tagRam.mem (a % 2 ^ p.setsWidth) ∧
      (s.step i).tagReadAddrLatch = a ∧ (s.step i).tagReadPhysicalLatch = true ∧
      (s.step i).probeAddressQ = a := by
  obtain ⟨hr, hp⟩ := (hL.arbiterOk i).probeTagRead (by simp [h])
  simp only [Option.isSome_eq_false_iff, Option.isNone_iff_eq_none] at hr hp
  refine ⟨?_, ?_, ?_, by simp [step, h]⟩
  · simp only [step, tagReq, hr, hp, h, Option.map_some, Option.none_or, Option.some_or]
    rfl
  · simp [step, tagReadLatch, hr, hp, h]
  · simp [step, tagReadLatch, hr, hp, h]

/-- A miss is not ready for the next request. -/
theorem not_reqReady_of_miss (h : s.fetches i .miss = true) : ¬s.reqReady i = true := by
  simp only [fetches, Bool.and_eq_true, beq_iff_eq] at h
  obtain ⟨hst, ho⟩ := h
  simp only [outcome] at ho
  split_ifs at ho
  simp_all [reqReady]

/-- `StateFetch` is entered with a granted tag read. -/
theorem accessTagReadGnt_of_fetch (h : (s.step i).stateQ = .fetch) :
    s.accessTagReadGnt i = true := by
  have hn : s.nextStateQ i = .fetch := h
  unfold nextStateQ at hn
  split_ifs at hn with hq hf hg
  · simp only [Bool.and_eq_true] at hg
    exact hg.1
  · unfold caseState at hn
    split at hn
    case h_3 =>
        split_ifs at hn with hg
        simp only [Bool.and_eq_true] at hg
        exact hg.1.2
    all_goals first | exact absurd hn (by decide) | (split at hn <;> exact absurd hn (by decide))

end Dcache

/-! ## The invariant -/

/-- The reset flush has passed the set. -/
def Dcache.Flushed {p : DcacheParams} (s : Dcache p) (set : ℕ) : Prop :=
  set < 2 ^ p.setsWidth ∧ (s.flushStateQ = .reset → set < s.flushIndexQ)

namespace DcacheMem
variable {p : DcacheParams}

/-- The refill FIFO against the outstanding acquire: the last beat ends it. -/
structure FifoOk (s : DcacheMem p) : Prop where
  underRst : s.sys.cache.refillFifo.underRst = true → s.sys.cache.refillFifo.items = []
  filling : s.sys.cache.refillFifo.items ≠ [] ∨ s.sys.cache.refillStateQ = .progress →
    s.sys.cache.missStateQ = .fill ∧ s.sys.cache.missRefillSentQ = true
  lastEnds : ∀ b ∈ s.sys.cache.refillFifo.items.dropLast, b.last = false
  lastAcq : s.acq.isSome = true → ∀ b ∈ s.sys.cache.refillFifo.items, b.last = false
  acquired : ∀ l, s.acq = some l → s.sys.cache.missStateQ = .fill ∧
    s.sys.cache.missRefillSentQ = true ∧ l = s.sys.line

structure Inv (s : DcacheMem p) : Prop where
  locked : s.sys.cache.Locked
  owned : s.sys.WalkOwned
  miss : s.sys.cache.missStateQ ≠ .idle ↔ s.sys.cache.stateQ = .fill
  fifo : s.FifoOk
  pending : ∀ b ∈ s.sys.cache.refillFifo.items, b.last = true →
    (b.msg.denied = false → s.granted s.sys.line = Perm.ofGrant b.msg.param) ∧
      (s.sys.cache.probeStateQ = .check → s.sys.cache.probeAddressQ ≠ s.sys.line)
  probe : s.sys.cache.probeStateQ = .check →
    s.sys.cache.tagRam.rdata =
        s.sys.cache.tagRam.mem (s.sys.cache.probeAddressQ % 2 ^ p.setsWidth) ∧
      s.sys.cache.tagReadAddrLatchPhys = s.sys.cache.probeAddressQ
  fetch : s.sys.cache.stateQ = .fetch →
    s.sys.cache.tagRam.rdata = s.sys.cache.tagRam.mem (s.sys.line % 2 ^ p.setsWidth) ∧
      s.sys.cache.tagReadAddrLatch = slice s.sys.cache.addressQ (p.logicAddrLen - 1) 6 ∧
      s.sys.cache.tagReadPhysicalLatch = !atpMode s.sys.atp
  sets : ∀ set, s.sys.cache.Flushed set →
    SetOk p.setsWidth s.granted set (s.sys.cache.tagRam.mem set)
  absent : s.sys.cache.stateQ = .fill → s.sys.cache.flushStateQ ≠ .reset ∧
    Absent p.setsWidth s.sys.line (s.sys.cache.tagRam.mem (s.sys.line % 2 ^ p.setsWidth))

section Step
variable {s : DcacheMem p} {i : DcacheIn}

/-- During a refill no request is made and the line stays the same. -/
theorem Inv.fill (h : s.Inv) (hpa : 12 ≤ p.physAddrLen) (henv : s.sys.Env i)
    (hst : s.sys.cache.stateQ = .fill) :
    i.reqValid = false ∧ (s.step i).sys.line = s.sys.line ∧
      s.sys.cache.refillReqAddress i = s.sys.line := by
  have hq : i.reqValid = false := by
    cases hq : i.reqValid
    · rfl
    · have := henv.ready hq
      simp [Dcache.reqReady, hst] at this
  refine ⟨hq, ?_, ?_⟩
  · refine DcacheSys.line_step h.owned hq fun ha => ?_
    simp [Translation.ppnValid, (h.owned.fill hst ha).1]
  · exact DcacheSys.refillReqAddress_eq_line hpa henv (by simp [Dcache.Busy, hst])

theorem Inv.fill_of_miss (h : s.Inv) (hm : s.sys.cache.missStateQ = .fill) :
    s.sys.cache.stateQ = .fill := h.miss.mp (by simp [hm])

/-- A beat that arrives belongs to the refill in progress. -/
theorem Inv.of_insert (h : s.Inv) (henv : s.Env i) {b : RefillBeat}
    (hb : s.sys.cache.refillFifoInsert i = some b) :
    s.acq = some s.sys.line ∧ s.sys.cache.missStateQ = .fill ∧
      s.sys.cache.missRefillSentQ = true := by
  obtain ⟨l, hl⟩ := Option.isSome_iff_exists.mp (henv.grantAsked (by simp [hb]))
  obtain ⟨hm, hsent, rfl⟩ := h.fifo.acquired l hl
  exact ⟨hl, hm, hsent⟩

/-- The beat at the output of the FIFO is stored or has just arrived. -/
theorem refillFront_cases {c : Dcache p} {b : RefillBeat} (hb : c.refillFront i = some b) :
    c.refillFifo.underRst = false ∧ ((∃ rest, c.refillFifo.items = b :: rest) ∨
      c.refillFifo.items = [] ∧ c.refillFifoInsert i = some b) := by
  unfold Dcache.refillFront Fifo.front at hb
  split_ifs at hb with hrst
  refine ⟨by simpa using hrst, ?_⟩
  split at hb
  · rename_i hitems
    exact .inr ⟨hitems, hb⟩
  · rename_i rest hitems
    simp only [Option.some.injEq] at hb
    exact .inl ⟨rest, by rw [hitems, hb]⟩

/-- A refill in progress, or a beat at the output of the FIFO, belongs to a miss. -/
theorem Inv.of_front (h : s.Inv) (henv : s.Env i)
    (hf : (s.sys.cache.refillFront i).isSome = true ∨ s.sys.cache.refillStateQ = .progress) :
    s.sys.cache.missStateQ = .fill ∧ s.sys.cache.missRefillSentQ = true := by
  rcases hf with hf | hp
  · obtain ⟨b, hb⟩ := Option.isSome_iff_exists.mp hf
    rcases (refillFront_cases hb).2 with ⟨rest, hitems⟩ | ⟨-, hins⟩
    · exact h.fifo.filling (.inl (by simp [hitems]))
    · exact (h.of_insert henv hins).2
  · exact h.fifo.filling (.inr hp)

/-- The last beat that is consumed leaves the FIFO empty. -/
theorem Inv.of_refillLast (h : s.Inv) (henv : s.Env i) {b : RefillBeat}
    (hb : s.sys.cache.refillLast i = some b) :
    s.sys.cache.refillStateQ = .progress ∧ b.last = true ∧
      (s.step i).sys.cache.refillFifo.items = [] ∧ (s.step i).acq = none ∧
      (b.msg.denied = false →
        (s.step i).granted s.sys.line = Perm.ofGrant b.msg.param) := by
  simp only [Dcache.refillLast, Option.filter_eq_some_iff, Dcache.refillBeat] at hb
  obtain ⟨hbeat, hlast⟩ := hb
  have hprog : s.sys.cache.refillStateQ = .progress := by
    cases hr : s.sys.cache.refillStateQ
    · simp [hr] at hbeat
    · rfl
  simp only [hprog, beq_self_eq_true, if_true] at hbeat
  obtain ⟨-, hsent⟩ := h.fifo.filling (.inr hprog)
  have hacq : s.sys.cache.acquires i = false := by simp [Dcache.acquires, hsent]
  have hpop : (s.sys.cache.refillBeat i).isSome = true := by
    simp [Dcache.refillBeat, hprog, hbeat]
  obtain ⟨hrst, ⟨rest, hitems⟩ | ⟨hitems, hins⟩⟩ := refillFront_cases hbeat
  · have hrest : rest = [] := by
      by_contra hne
      have hmem : b ∈ s.sys.cache.refillFifo.items.dropLast := by
        rw [hitems, List.dropLast_cons_of_ne_nil hne]
        exact List.mem_cons_self
      simp [h.fifo.lastEnds b hmem] at hlast
    have hnone : s.acq = none := by
      by_contra hne
      have := h.fifo.lastAcq (Option.isSome_iff_ne_none.mpr hne) b (by simp [hitems])
      simp [this] at hlast
    have hins : s.sys.cache.refillFifoInsert i = none := by
      by_contra hne
      have := henv.grantAsked (Option.isSome_iff_ne_none.mpr hne)
      simp [hnone] at this
    have hgl : s.sys.cache.grantLast i = none := by simp [Dcache.grantLast, hins]
    refine ⟨hprog, hlast, ?_, ?_, fun hd => ?_⟩
    · change (s.sys.cache.refillFifo.next _ (s.sys.cache.refillFifoInsert i) _).items = []
      simp [Fifo.next, hpop, Fifo.front, hrst, hitems, Fifo.push, hins, hrest]
    · simp [step, hacq, hgl, hnone]
    · obtain ⟨hpi, -, -⟩ := h.locked.refill_alone hprog
      have hn : s.sys.cache.nothingInProgress = false := by
        simp [Dcache.nothingInProgress, h.locked.refill, hprog]
      have hrel : s.sys.cache.wbRelReq i = none := by
        by_contra hne
        simp [Dcache.nothingInProgress_of_wbRelReq (Option.isSome_iff_ne_none.mpr hne)] at hn
      change s.sys.cache.nextGranted s.acq s.granted i s.sys.line = _
      simp only [Dcache.nextGranted, hgl, Dcache.nextGranted.keep, hpi, hrel]
      simpa using (h.pending b (by simp [hitems]) hlast).1 hd
  · obtain ⟨hl, -, -⟩ := h.of_insert henv hins
    have hgl : s.sys.cache.grantLast i = some b := by simp [Dcache.grantLast, hins, hlast]
    refine ⟨hprog, hlast, ?_, ?_, fun hd => ?_⟩
    · have hdepth : ¬p.refillDepth ≤ 0 := by simp [DcacheParams.refillDepth]
      change (s.sys.cache.refillFifo.next _ (s.sys.cache.refillFifoInsert i) _).items = []
      simp [Fifo.next, hpop, Fifo.front, hrst, hitems, Fifo.push, hins, hdepth]
    · simp [step, hacq, hgl]
    · change s.sys.cache.nextGranted s.acq s.granted i s.sys.line = _
      simp [Dcache.nextGranted, hgl, hl, hd]

/-- The miss handler works exactly while the access is in `StateFill`. -/
theorem Inv.miss_step (h : s.Inv) (hpa : 12 ≤ p.physAddrLen) (henv : s.sys.Env i) :
    (s.step i).sys.cache.missStateQ ≠ .idle ↔ (s.step i).sys.cache.stateQ = .fill := by
  change s.sys.cache.nextMissStateQ i ≠ .idle ↔ s.sys.cache.nextStateQ i = .fill
  by_cases hst : s.sys.cache.stateQ = .fill
  · obtain ⟨hq, -, -⟩ := h.fill hpa henv hst
    have hne := h.miss.mpr hst
    simp only [Dcache.nextStateQ, hq, Bool.false_eq_true, if_false, Dcache.caseState, hst,
      Dcache.nextMissStateQ, Dcache.missResp]
    cases hm : s.sys.cache.missStateQ
    · exact absurd hm hne
    · cases hl : s.sys.cache.refillLast i with
      | none => simp
      | some b => cases hd : b.msg.denied <;> cases ho : s.sys.cache.opQ <;> simp [hd]
    · cases hd : i.memDAccess p with
      | none => simp
      | some d => cases hden : d.denied <;> simp [hden]
  · have hm : s.sys.cache.missStateQ = .idle := by
      by_contra hne
      exact hst (h.miss.mp hne)
    have hmiss : s.sys.cache.nextMissStateQ i ≠ .idle ↔ s.sys.cache.fetches i .miss = true := by
      cases hf : s.sys.cache.fetches i .miss <;>
        simp [Dcache.nextMissStateQ, hm, Dcache.missReqValid, hf]
    rw [hmiss]
    cases hq : i.reqValid
    · simp only [Dcache.nextStateQ, hq, Bool.false_eq_true, if_false, Dcache.caseState,
        Dcache.fetches]
      cases hs : s.sys.cache.stateQ <;> try simp_all
      · cases s.sys.cache.outcome i <;> simp
      all_goals split_ifs <;> simp
    · have hready := henv.ready hq
      have hnm : s.sys.cache.fetches i .miss = false := by
        by_contra hf
        exact Dcache.not_reqReady_of_miss (by simpa using hf) hready
      simp only [hnm, Dcache.nextStateQ, hq, if_true]
      split_ifs <;> simp

/-- A refill goes on until its last beat is consumed. -/
theorem missStateQ_step_of_fill {c : Dcache p} (hm : c.missStateQ = .fill)
    (hsent : c.missRefillSentQ = true) (hl : c.refillLast i = none) :
    (c.step i).missStateQ = .fill ∧ (c.step i).missRefillSentQ = true := by
  simp [Dcache.step, Dcache.nextMissStateQ, Dcache.nextMissRefillSentQ, hm, hl, hsent]

/-- The items of the FIFO after a cycle. -/
theorem mem_items_step {b : RefillBeat} (hb : b ∈ (s.step i).sys.cache.refillFifo.items) :
    s.sys.cache.refillFifo.underRst = false ∧
        s.sys.cache.refillFifoInsert i = some b ∨ b ∈ s.sys.cache.refillFifo.items := by
  have hpush : b ∈ s.sys.cache.refillFifo.push p.refillDepth (s.sys.cache.refillFifoInsert i) := by
    change b ∈ (s.sys.cache.refillFifo.next _ (s.sys.cache.refillFifoInsert i) _).items at hb
    simp only [Fifo.next] at hb
    split_ifs at hb
    · exact List.mem_of_mem_tail hb
    · exact hb
  unfold Fifo.push at hpush
  split_ifs at hpush with hfull
  · exact .inr hpush
  · simp only [Bool.or_eq_true, not_or, Bool.not_eq_true] at hfull
    rcases List.mem_append.mp hpush with hm | hm
    · exact .inr hm
    · exact .inl ⟨hfull.1, by simpa using hm⟩

theorem Inv.lastEnds_step (h : s.Inv) (henv : s.Env i) :
    ∀ b ∈ (s.step i).sys.cache.refillFifo.items.dropLast, b.last = false := by
  have hpush : ∀ b ∈ (s.sys.cache.refillFifo.push p.refillDepth
      (s.sys.cache.refillFifoInsert i)).dropLast, b.last = false := by
    intro b hb
    unfold Fifo.push at hb
    split_ifs at hb
    · exact h.fifo.lastEnds b hb
    · cases hins : s.sys.cache.refillFifoInsert i with
      | none => exact h.fifo.lastEnds b (by simpa [hins] using hb)
      | some b' =>
          have hb' : b ∈ s.sys.cache.refillFifo.items := by simpa [hins] using hb
          exact h.fifo.lastAcq (henv.grantAsked (by simp [hins])) b hb'
  intro b hb
  change b ∈ (s.sys.cache.refillFifo.next _ (s.sys.cache.refillFifoInsert i) _).items.dropLast at hb
  simp only [Fifo.next] at hb
  split_ifs at hb
  · rw [← List.tail_dropLast] at hb
    exact hpush b (List.mem_of_mem_tail hb)
  · exact hpush b hb

theorem Inv.fifo_step (h : s.Inv) (hpa : 12 ≤ p.physAddrLen) (henv : s.Env i) :
    (s.step i).FifoOk := by
  -- no beat of another refill is around when an acquire is sent
  have hfresh : s.sys.cache.acquires i = true → s.sys.cache.refillFifo.items = [] ∧
      s.sys.cache.refillFifoInsert i = none ∧ s.sys.cache.refillStateQ ≠ .progress := by
    intro ha
    simp only [Dcache.acquires, Bool.and_eq_true, Bool.not_eq_true', beq_iff_eq] at ha
    refine ⟨?_, ?_, fun hp => ?_⟩
    · by_contra hne
      simp [(h.fifo.filling (.inl hne)).2] at ha
    · by_contra hne
      obtain ⟨b, hb⟩ := Option.ne_none_iff_exists'.mp hne
      simp [(h.of_insert henv hb).2.2] at ha
    · simp [(h.fifo.filling (.inr hp)).2] at ha
  refine ⟨fun hr => absurd hr (by simp [step, DcacheSys.step, Dcache.step, Fifo.next]), ?_,
    h.lastEnds_step henv, ?_, ?_⟩
  · intro hf
    have hlast : s.sys.cache.refillLast i = none := by
      by_contra hne
      obtain ⟨b, hb⟩ := Option.ne_none_iff_exists'.mp hne
      obtain ⟨hprog, -, hitems, -⟩ := h.of_refillLast henv hb
      rcases hf with hf | hf
      · exact hf hitems
      · simp [step, DcacheSys.step, Dcache.step, Dcache.nextRefillStateQ, hprog, hb] at hf
    have hm : s.sys.cache.missStateQ = .fill ∧ s.sys.cache.missRefillSentQ = true := by
      rcases hf with hf | hf
      · obtain ⟨b, hb⟩ := List.exists_mem_of_ne_nil _ hf
        rcases mem_items_step hb with ⟨-, hins⟩ | hmem
        · exact (h.of_insert henv hins).2
        · exact h.fifo.filling (.inl (List.ne_nil_of_mem hmem))
      · refine h.of_front henv ?_
        cases hr : s.sys.cache.refillStateQ
        · left
          have hf' : s.sys.cache.nextRefillStateQ i = .progress := hf
          simp only [Dcache.nextRefillStateQ, hr] at hf'
          split_ifs at hf' with hlock
          simp only [Dcache.refillLocking, Dcache.refillLockAcq, Bool.and_eq_true] at hlock
          exact hlock.2.2
        · exact .inr rfl
    exact missStateQ_step_of_fill hm.1 hm.2 hlast
  · intro hacq b hb
    by_cases ha : s.sys.cache.acquires i = true
    · obtain ⟨hitems, hins, -⟩ := hfresh ha
      rcases mem_items_step hb with ⟨-, hins'⟩ | hmem
      · simp [hins] at hins'
      · simp [hitems] at hmem
    · have hgl : s.sys.cache.grantLast i = none := by
        by_contra hne
        simp [step, ha, Option.isSome_iff_ne_none.mpr hne] at hacq
      have hold : s.acq.isSome = true := by simpa [step, ha, hgl] using hacq
      rcases mem_items_step hb with ⟨-, hins⟩ | hmem
      · by_contra hlast
        simp [Dcache.grantLast, hins, hlast] at hgl
      · exact h.fifo.lastAcq hold b hmem
  · intro l hl
    by_cases ha : s.sys.cache.acquires i = true
    · obtain ⟨-, -, hprog⟩ := hfresh ha
      have hl' : s.sys.cache.refillReqAddress i = l := by simpa [step, ha] using hl
      simp only [Dcache.acquires, Bool.and_eq_true, Bool.not_eq_true', beq_iff_eq] at ha
      obtain ⟨-, hline, hrefill⟩ := h.fill hpa henv.sys (h.fill_of_miss ha.1.1)
      refine ⟨?_, ?_, by rw [hline, ← hrefill, hl']⟩
      · have : s.sys.cache.refillLast i = none := by
          simp [Dcache.refillLast, Dcache.refillBeat, hprog]
        simp [step, DcacheSys.step, Dcache.step, Dcache.nextMissStateQ, ha.1.1, this]
      · simp [step, DcacheSys.step, Dcache.step, Dcache.nextMissRefillSentQ, ha.1.1, ha.2]
    · have hgl : s.sys.cache.grantLast i = none := by
        by_contra hne
        simp [step, ha, Option.isSome_iff_ne_none.mpr hne] at hl
      have hold : s.acq = some l := by simpa [step, ha, hgl] using hl
      obtain ⟨hm, hsent, rfl⟩ := h.fifo.acquired l hold
      have hlast : s.sys.cache.refillLast i = none := by
        by_contra hne
        obtain ⟨b, hb⟩ := Option.ne_none_iff_exists'.mp hne
        simp [(h.of_refillLast henv hb).2.2.2.1] at hl
      obtain ⟨-, hline, -⟩ := h.fill hpa henv.sys (h.fill_of_miss hm)
      obtain ⟨hm', hsent'⟩ := missStateQ_step_of_fill hm hsent hlast
      exact ⟨hm', hsent', hline.symm⟩

/-- While a beat is stored or arrives, no probe is accepted. -/
theorem Inv.not_probeLocking (h : s.Inv) (hrst : s.sys.cache.refillFifo.underRst = false)
    (hb : s.sys.cache.refillFifo.items ≠ [] ∨
      (s.sys.cache.refillFifoInsert i).isSome = true) :
    s.sys.cache.probeLocking i = false := by
  cases hr : s.sys.cache.refillStateQ
  · have hfront : (s.sys.cache.refillFront i).isSome = true := by
      simp only [Dcache.refillFront, Fifo.front, hrst, Bool.false_eq_true, if_false]
      split
      · rename_i hitems
        exact hb.resolve_left (by simp [hitems])
      · rfl
    simp [Dcache.probeLocking, Dcache.refillLockAcq, hr, hfront]
  · have hn : s.sys.cache.nothingInProgress = false := by
      simp [Dcache.nothingInProgress, h.locked.refill, hr]
    exact Dcache.not_probeLocking_of_lockFree (Dcache.not_lockFree hn)

/-- A permission that no grant of the cycle concerns. -/
theorem granted_step_keep {l : ℕ} (hg : s.acq ≠ some l ∨ s.sys.cache.grantLast i = none) :
    (s.step i).granted l = Dcache.nextGranted.keep s.sys.cache s.granted i l := by
  change s.sys.cache.nextGranted s.acq s.granted i l = _
  unfold Dcache.nextGranted
  split
  · rename_i b hb
    rcases hg with hg | hg
    · simp [hg]
    · simp [hg] at hb
  · rfl

/-- A permission that no event of the cycle concerns. -/
theorem granted_step {l : ℕ} (hg : s.acq ≠ some l ∨ s.sys.cache.grantLast i = none)
    (hp : s.sys.cache.probeStateQ = .check → s.sys.cache.probeAddressQ ≠ l)
    (hr : (s.sys.cache.wbRelReq i).map WbReq.address ≠ some l) :
    (s.step i).granted l = s.granted l := by
  rw [granted_step_keep hg, Dcache.nextGranted.keep, if_neg, if_neg hr]
  simp only [Bool.and_eq_true, decide_eq_true_eq, not_and]
  exact hp

/-- A release needs an access in `StateFetch`. -/
theorem wbRelReq_of_not_fetch {c : Dcache p} (h : c.stateQ ≠ .fetch) : c.wbRelReq i = none := by
  simp [Dcache.wbRelReq, Dcache.fetches, h]

theorem Inv.pending_step (h : s.Inv) (hpa : 12 ≤ p.physAddrLen) (henv : s.Env i) :
    ∀ b ∈ (s.step i).sys.cache.refillFifo.items, b.last = true →
      (b.msg.denied = false →
        (s.step i).granted (s.step i).sys.line = Perm.ofGrant b.msg.param) ∧
      ((s.step i).sys.cache.probeStateQ = .check →
        (s.step i).sys.cache.probeAddressQ ≠ (s.step i).sys.line) := by
  intro b hb hlast
  have hmiss : s.sys.cache.missStateQ = .fill := by
    rcases mem_items_step hb with ⟨-, hins⟩ | hmem
    · exact (h.of_insert henv hins).2.1
    · exact (h.fifo.filling (.inl (List.ne_nil_of_mem hmem))).1
  have hst := h.fill_of_miss hmiss
  obtain ⟨-, hline, -⟩ := h.fill hpa henv.sys hst
  rw [hline]
  have hrst : s.sys.cache.refillFifo.underRst = false := by
    rcases mem_items_step hb with ⟨hrst, -⟩ | hmem
    · exact hrst
    · by_contra hr
      simp [h.fifo.underRst (by simpa using hr)] at hmem
  constructor
  · intro hd
    rcases mem_items_step hb with ⟨-, hins⟩ | hmem
    · have hgl : s.sys.cache.grantLast i = some b := by simp [Dcache.grantLast, hins, hlast]
      change s.sys.cache.nextGranted s.acq s.granted i s.sys.line = _
      simp [Dcache.nextGranted, hgl, (h.of_insert henv hins).1, hd]
    · have hnone : s.acq ≠ some s.sys.line := by
        intro hs
        simp [h.fifo.lastAcq (by simp [hs]) b hmem] at hlast
      obtain ⟨hg, hp⟩ := h.pending b hmem hlast
      rw [granted_step (.inl hnone) hp (by simp [wbRelReq_of_not_fetch, hst])]
      exact hg hd
  · intro hp
    have hl : s.sys.cache.probeLocking i = false := by
      refine h.not_probeLocking hrst ?_
      rcases mem_items_step hb with ⟨-, hins⟩ | hmem
      · exact .inr (by simp [hins])
      · exact .inl (List.ne_nil_of_mem hmem)
    exact absurd hp (by
      change s.sys.cache.nextProbeStateQ i ≠ .check
      simp [Dcache.next_probe_idle hl])

theorem Inv.probe_step (h : s.Inv) (hpc : (s.step i).sys.cache.probeStateQ = .check) :
    (s.step i).sys.cache.tagRam.rdata = (s.step i).sys.cache.tagRam.mem
        ((s.step i).sys.cache.probeAddressQ % 2 ^ p.setsWidth) ∧
      (s.step i).sys.cache.tagReadAddrLatchPhys = (s.step i).sys.cache.probeAddressQ := by
  have hl : s.sys.cache.probeLocking i = true := by
    by_contra hl
    have : s.sys.cache.nextProbeStateQ i = .check := hpc
    simp [Dcache.next_probe_idle (by simpa using hl)] at this
  obtain ⟨b, hb⟩ : ∃ b, i.memB = some b := by
    simp only [Dcache.probeLocking, Dcache.probeLockAcq, Bool.and_eq_true] at hl
    cases hb : i.memB with
    | none =>
        have := hl.2
        rw [hb] at this
        split at this <;> simp_all
    | some b => exact ⟨b, rfl⟩
  have hread : s.sys.cache.probeTagRead i = some (slice b.address (p.physAddrLen - 1) 6) := by
    simp [Dcache.probeTagRead, Dcache.probeAccept, hl, hb]
  obtain ⟨hr, hp, -, hf, -, ha⟩ :=
    h.locked.free_of_lockFree (Dcache.lockFree_of_probeLocking hl)
  have hmem : (s.step i).sys.cache.tagRam.mem = s.sys.cache.tagRam.mem :=
    Dcache.mem_step_none (Dcache.refillTagWrite_none hr) (Dcache.probeTagWrite_none hp)
      (h.locked.flushTagWrite_none hf) ha
  obtain ⟨hrd, hlatch, hphys, haddr⟩ := h.locked.step_of_probeTagRead hread
  have hrd' : (s.step i).sys.cache.tagRam.rdata =
      s.sys.cache.tagRam.mem (slice b.address (p.physAddrLen - 1) 6 % 2 ^ p.setsWidth) := hrd
  have haddr' : (s.step i).sys.cache.probeAddressQ = slice b.address (p.physAddrLen - 1) 6 := haddr
  refine ⟨by rw [hrd', hmem, haddr'], ?_⟩
  have hlatch' : (s.step i).sys.cache.tagReadAddrLatch = slice b.address (p.physAddrLen - 1) 6 :=
    hlatch
  have hphys' : (s.step i).sys.cache.tagReadPhysicalLatch = true := hphys
  have hlt : slice b.address (p.physAddrLen - 1) 6 < 2 ^ (p.physAddrLen - 6) :=
    lt_of_lt_of_le (slice_lt _ _ _) (Nat.pow_le_pow_right (by decide) (by omega))
  rw [Dcache.tagReadAddrLatchPhys, hphys', hlatch', haddr', if_pos rfl, cat_div_mod,
    Nat.mod_eq_of_lt hlt]

theorem Inv.fetch_step (hsw : p.setsWidth ≤ 6) (hpa : 12 ≤ p.physAddrLen)
    (henv : s.sys.Env i) (hst : (s.step i).sys.cache.stateQ = .fetch) :
    (s.step i).sys.cache.tagRam.rdata =
        (s.step i).sys.cache.tagRam.mem ((s.step i).sys.line % 2 ^ p.setsWidth) ∧
      (s.step i).sys.cache.tagReadAddrLatch =
        slice (s.step i).sys.cache.addressQ (p.logicAddrLen - 1) 6 ∧
      (s.step i).sys.cache.tagReadPhysicalLatch = !atpMode (s.step i).sys.atp := by
  have hg := Dcache.accessTagReadGnt_of_fetch hst
  obtain ⟨hmem, hrd, hlatch, hphys⟩ := Dcache.step_of_accessTagReadGnt hg
  have haddr : (s.step i).sys.cache.addressQ = s.sys.cache.nextAddressQ i := rfl
  refine ⟨?_, hlatch, ?_⟩
  · have hla : p.physAddrLen ≤ p.logicAddrLen := le_max_right _ _
    rw [← DcacheSys.accessSet_eq_line hsw hpa, Dcache.accessSet, haddr]
    have hset : s.sys.cache.accessTagReadAddr i % 2 ^ p.setsWidth =
        s.sys.cache.nextAddressQ i / 2 ^ 6 % 2 ^ p.setsWidth := by
      rw [Dcache.accessTagReadAddr, slice]
      exact Nat.mod_mod_of_dvd _ (Nat.pow_dvd_pow 2 (by omega))
    rw [← hset]
    exact hrd.trans (by rw [← hmem]; rfl)
  · refine hphys.trans ?_
    cases hq : i.reqValid
    · have hbusy : s.sys.cache.Busy := by
        have : (s.sys.step i).cache.Busy := by
          change (s.step i).sys.cache.Busy
          simp [Dcache.Busy, hst]
        exact DcacheSys.busy_of_step hq this
      rw [henv.atpHeld hbusy]
      simp [step, DcacheSys.step, hq]
    · simp [step, DcacheSys.step, hq]

/-! ### The writes of the tags -/

/-- The way of a hit holds the line that was looked up. -/
theorem hit_rdata {c : Dcache p} {k : Fin p.numWays} (hk : c.hit k = true) :
    (c.tagRam.rdata k).valid = true ∧
      (c.tagRam.rdata k).tag = c.tagReadAddrLatchPhys / 2 ^ p.setsWidth := by
  simpa [Dcache.hit] using hk

theorem hit_of_anyHit {c : Dcache p} (h : c.anyHit = true) : c.hit c.hitWay = true :=
  hit_hitWay h

/-- A miss has its translation, and no request is made in its cycle. -/
theorem Inv.of_miss (h : s.Inv) (henv : s.sys.Env i) (hm : s.sys.cache.fetches i .miss = true) :
    s.sys.cache.stateQ = .fetch ∧ s.sys.cache.nothingInProgress = true ∧
      (s.step i).sys.line = s.sys.line := by
  have hst : s.sys.cache.stateQ = .fetch := by
    simp only [Dcache.fetches, Bool.and_eq_true, beq_iff_eq] at hm
    exact hm.1
  have hq : i.reqValid = false := by
    by_contra hq
    exact Dcache.not_reqReady_of_miss hm (henv.ready (by simpa using hq))
  refine ⟨hst, Dcache.nothingInProgress_of_fetches (by decide) hm, ?_⟩
  refine DcacheSys.line_step h.owned hq fun ha => ?_
  by_contra hv
  simp only [Dcache.fetches, Bool.and_eq_true, beq_iff_eq] at hm
  have hatp := henv.atpHeld (by simp [Dcache.Busy, hst])
  have ho : s.sys.cache.outcome i = .conflict ∨ s.sys.cache.outcome i = .tlbMiss := by
    unfold Dcache.outcome
    rw [hatp]
    split_ifs <;> simp_all
  rcases ho with ho | ho <;> simp [ho] at hm

/-- The way that an access proceeds with is the only one that may hold its line. -/
theorem Inv.hitWay_of_line (h : s.Inv) (hpa : 12 ≤ p.physAddrLen)
    (hst : s.sys.cache.stateQ = .fetch) (hn : s.sys.cache.flushStateQ ≠ .reset) {k : Fin p.numWays}
    (hv : (s.sys.cache.tagRam.mem (s.sys.line % 2 ^ p.setsWidth) k).valid = true)
    (ht : (s.sys.cache.tagRam.mem (s.sys.line % 2 ^ p.setsWidth) k).tag =
      s.sys.line / 2 ^ p.setsWidth) : k = s.sys.cache.hitWay := by
  obtain ⟨hrd, hlatch, hphys⟩ := h.fetch hst
  have hline := DcacheSys.tagReadAddrLatchPhys_eq_line hpa hlatch hphys
  have hk : s.sys.cache.hit k = true := by
    simp [Dcache.hit, hrd, hv, ht, hline]
  have hany : s.sys.cache.anyHit = true := by
    rw [Dcache.anyHit, firstIdx_isSome]
    exact ⟨k, hk⟩
  obtain ⟨hv', ht'⟩ := hit_rdata (hit_of_anyHit hany)
  have hset : s.sys.cache.Flushed (s.sys.line % 2 ^ p.setsWidth) :=
    ⟨Nat.mod_lt _ (Nat.two_pow_pos _), fun hf => absurd hf hn⟩
  rw [hrd] at hv' ht'
  exact (h.sets _ hset).unique k _ hv hv' (by rw [ht, ht', hline])

/-- The write of a probe: the ways that hit are downgraded or invalidated. -/
theorem Inv.mem_step_check (h : s.Inv) (hpc : s.sys.cache.probeStateQ = .check) (set : ℕ)
    (k : Fin p.numWays) : (s.step i).sys.cache.tagRam.mem set k =
      if set = s.sys.cache.probeAddressQ % 2 ^ p.setsWidth ∧ s.sys.cache.hit k = true then
        if s.sys.cache.probeParamQ = toB then
          { s.sys.cache.hitTag with dirty := false, writable := false }
        else default
      else s.sys.cache.tagRam.mem set k := by
  cases hany : s.sys.cache.anyHit
  · have hnone : ∀ k, s.sys.cache.hit k = false := by
      simpa [Dcache.anyHit, firstIdx_eq_none] using hany
    have hw : s.sys.cache.probeTagWrite = none := by simp [Dcache.probeTagWrite, hany]
    have hr := Dcache.refillTagWrite_none (i := i) (h.locked.refill_idle_of_probe hpc)
    have hf := h.locked.flushTagWrite_none (h.locked.probe_alone hpc).2
    have ha : s.sys.cache.accessTagWrite i = none := by
      by_contra hne
      have hn := Dcache.nothingInProgress_of_accessTagWrite (Option.isSome_iff_ne_none.mpr hne)
      simp [(h.locked.nothingInProgress.mp hn).2.1] at hpc
    have hmem := Dcache.mem_step_none hr hw hf ha
    simpa [hnone, step_sys_cache] using congrFun (congrFun hmem set) k
  · have hw : s.sys.cache.probeTagWrite = some (.write
        (s.sys.cache.probeAddressQ % 2 ^ p.setsWidth) s.sys.cache.hit
        (if s.sys.cache.probeParamQ = toB then
          { s.sys.cache.hitTag with dirty := false, writable := false } else default)) := by
      simp [Dcache.probeTagWrite, hpc, hany]
    have hmem := congrFun (congrFun (h.locked.mem_step_probe (i := i) hw) set) k
    simpa [Dcache.writeTags, step_sys_cache] using hmem

/-- A way that hits a probe holds the probed line, and so does the way that is written. -/
theorem Inv.of_probe_hit (h : s.Inv) (hpc : s.sys.cache.probeStateQ = .check) {k : Fin p.numWays}
    (hk : s.sys.cache.hit k = true) :
    (s.sys.cache.tagRam.mem (s.sys.cache.probeAddressQ % 2 ^ p.setsWidth) k).valid = true ∧
      (s.sys.cache.tagRam.mem (s.sys.cache.probeAddressQ % 2 ^ p.setsWidth) k).tag =
        s.sys.cache.probeAddressQ / 2 ^ p.setsWidth ∧
      s.sys.cache.hitTag.tag = s.sys.cache.probeAddressQ / 2 ^ p.setsWidth := by
  obtain ⟨hrd, hphys⟩ := h.probe hpc
  have hany : s.sys.cache.anyHit = true := by
    rw [Dcache.anyHit, firstIdx_isSome]
    exact ⟨k, hk⟩
  obtain ⟨hv, ht⟩ := hit_rdata hk
  rw [hphys] at ht
  rw [hrd] at hv ht
  exact ⟨hv, ht, by rw [← hphys]; exact (hit_rdata (hit_of_anyHit hany)).2⟩

/-- A probe keeps the tags of the ways that stay valid. -/
theorem Inv.valid_of_probe (h : s.Inv) (hpc : s.sys.cache.probeStateQ = .check) {set : ℕ}
    {k : Fin p.numWays} (hv : ((s.step i).sys.cache.tagRam.mem set k).valid = true) :
    (s.sys.cache.tagRam.mem set k).valid = true ∧
      ((s.step i).sys.cache.tagRam.mem set k).tag = (s.sys.cache.tagRam.mem set k).tag := by
  rw [h.mem_step_check hpc] at hv ⊢
  split_ifs at hv ⊢ with hw hb
  · obtain ⟨rfl, hk⟩ := hw
    obtain ⟨hv', ht, ht'⟩ := h.of_probe_hit hpc hk
    exact ⟨hv', by rw [ht, ht']⟩
  · exact absurd hv (by decide)
  · exact ⟨hv, rfl⟩

/-- `StateFill` is entered by a miss, and left when the miss handler answers. -/
theorem fill_cases {c : Dcache p} (hst : (c.step i).stateQ = .fill) :
    c.fetches i .miss = true ∨ c.stateQ = .fill ∧ c.missResp i = none := by
  have hn : c.nextStateQ i = .fill := hst
  unfold Dcache.nextStateQ at hn
  split_ifs at hn
  unfold Dcache.caseState at hn
  split at hn
  case h_2 hs =>
    cases ho : c.outcome i <;> simp [ho] at hn
    simp [Dcache.fetches, hs, ho]
  case h_5 hs =>
    refine .inr ⟨hs, ?_⟩
    cases hr : c.missResp i with
    | none => rfl
    | some r => cases r <;> simp [hr] at hn
  all_goals first | exact absurd hn (by decide) | (split_ifs at hn)

/-- While the miss handler works, the refill installs no tag. -/
theorem Inv.refillTagWrite_of_fill (h : s.Inv) (hst : s.sys.cache.stateQ = .fill)
    (hr : s.sys.cache.missResp i = none) : s.sys.cache.refillTagWrite i = none := by
  cases hm : s.sys.cache.missStateQ
  · exact absurd hm (h.miss.mpr hst)
  · simp only [Dcache.missResp, hm] at hr
    cases hl : s.sys.cache.refillLast i with
    | none => simp [Dcache.refillTagWrite, hl]
    | some b =>
        have hd : b.msg.denied = true := by
          cases hd : b.msg.denied
          · simp [hl, hd] at hr
          · rfl
        simp [Dcache.refillTagWrite, hl, hd]
  · refine Dcache.refillTagWrite_none ?_
    cases hp : s.sys.cache.refillStateQ
    · rfl
    · simp [(h.fifo.filling (.inr hp)).1] at hm

theorem accessTagWrite_of_not_fetch {c : Dcache p} (h : c.stateQ ≠ .fetch) :
    c.accessTagWrite i = none := by
  simp [Dcache.accessTagWrite, Dcache.accessDataWriteReq, Dcache.fetches, h]

/-- The write of a miss: the way that the line will be refilled into is invalidated. -/
theorem Inv.mem_step_miss (h : s.Inv) (hm : s.sys.cache.fetches i .miss = true) (set : ℕ)
    (k : Fin p.numWays) : (s.step i).sys.cache.tagRam.mem set k =
      if set = s.sys.cache.accessSet ∧ k = s.sys.cache.hitWay then
        { s.sys.cache.hitTag with dirty := true, valid := false }
      else s.sys.cache.tagRam.mem set k := by
  have hw : s.sys.cache.accessTagWrite i = some (.write s.sys.cache.accessSet
      (fun k => k == s.sys.cache.hitWay)
      { s.sys.cache.hitTag with dirty := true, valid := false }) := by
    simp [Dcache.accessTagWrite, hm]
  have hmem := congrFun (congrFun (h.locked.mem_step_access hw) set) k
  simpa [Dcache.writeTags, step_sys_cache] using hmem

theorem Inv.absent_step (h : s.Inv) (hsw : p.setsWidth ≤ 6) (hpa : 12 ≤ p.physAddrLen)
    (henv : s.Env i) (hst : (s.step i).sys.cache.stateQ = .fill) :
    (s.step i).sys.cache.flushStateQ ≠ .reset ∧ Absent p.setsWidth (s.step i).sys.line
      ((s.step i).sys.cache.tagRam.mem ((s.step i).sys.line % 2 ^ p.setsWidth)) := by
  rcases fill_cases hst with hm | ⟨hs, hr⟩
  · -- the access that misses invalidates the only way that may hold its line
    obtain ⟨hs, hn, hline⟩ := h.of_miss henv.sys hm
    have hf := (h.locked.nothingInProgress.mp hn).2.2.2
    refine ⟨h.locked.next_flush_ne_reset hf, fun k hv ht => ?_⟩
    rw [hline] at hv ht
    rw [h.mem_step_miss hm, DcacheSys.accessSet_eq_line hsw hpa] at hv ht
    split_ifs at hv ht with hk
    exact hk ⟨rfl, h.hitWay_of_line hpa hs hf hv ht⟩
  · obtain ⟨hf, habs⟩ := h.absent hs
    obtain ⟨-, hline, -⟩ := h.fill hpa henv.sys hs
    refine ⟨h.locked.next_flush_ne_reset hf, ?_⟩
    rw [hline]
    cases hp : s.sys.cache.probeStateQ
    · have hmem := Dcache.mem_step_none (h.refillTagWrite_of_fill hs hr)
        (Dcache.probeTagWrite_none hp) (h.locked.flushTagWrite_none hf)
        (accessTagWrite_of_not_fetch (by simp [hs]))
      intro k
      rw [step_sys_cache, hmem]
      exact habs k
    · intro k hv
      obtain ⟨hv', ht⟩ := h.valid_of_probe hp hv
      rw [ht]
      exact habs k hv'

/-! ### The sets -/

/-- The line of a grant is not in the cache. -/
theorem Inv.not_granting (h : s.Inv) (henv : s.Env i) {set : ℕ} (hset : set < 2 ^ p.setsWidth)
    {k : Fin p.numWays} (hv : (s.sys.cache.tagRam.mem set k).valid = true) :
    s.acq ≠ some (cat (s.sys.cache.tagRam.mem set k).tag p.setsWidth set) ∨
      s.sys.cache.grantLast i = none := by
  by_cases hins : s.sys.cache.refillFifoInsert i = none
  · exact .inr (by simp [Dcache.grantLast, hins])
  · obtain ⟨b, hb⟩ := Option.ne_none_iff_exists'.mp hins
    obtain ⟨hacq, hm, -⟩ := h.of_insert henv hb
    obtain ⟨-, habs⟩ := h.absent (h.fill_of_miss hm)
    left
    rw [hacq]
    intro heq
    refine ne_line_of_absent hset (l := s.sys.line) (fun hl => ?_) hv (Option.some.inj heq).symm
    rw [hl]
    exact habs

/-- The permission of a line in the cache changes only by a probe or a release. -/
theorem Inv.granted_of_valid (h : s.Inv) (henv : s.Env i) {set : ℕ} (hset : set < 2 ^ p.setsWidth)
    {k : Fin p.numWays} (hv : (s.sys.cache.tagRam.mem set k).valid = true)
    (hp : s.sys.cache.probeStateQ = .check →
      s.sys.cache.probeAddressQ ≠ cat (s.sys.cache.tagRam.mem set k).tag p.setsWidth set)
    (hr : (s.sys.cache.wbRelReq i).map WbReq.address ≠
      some (cat (s.sys.cache.tagRam.mem set k).tag p.setsWidth set)) :
    (s.step i).granted (cat (s.sys.cache.tagRam.mem set k).tag p.setsWidth set) =
      s.granted (cat (s.sys.cache.tagRam.mem set k).tag p.setsWidth set) :=
  granted_step (h.not_granting henv hset hv) hp hr

/-- Without a tag write. -/
theorem Inv.setOk_of_mem (h : s.Inv) (henv : s.Env i) {set : ℕ} (hfl : s.sys.cache.Flushed set)
    (hp : s.sys.cache.probeStateQ = .idle) (hr : s.sys.cache.wbRelReq i = none) :
    SetOk p.setsWidth (s.step i).granted set (s.sys.cache.tagRam.mem set) :=
  (h.sets set hfl).congr fun k hk =>
    h.granted_of_valid henv hfl.1 hk (by simp [hp]) (by simp [hr])

/-- The reset flush clears one set. -/
theorem Inv.setOk_of_reset (h : s.Inv) (henv : s.Env i) (hf : s.sys.cache.flushStateQ = .reset)
    {set : ℕ} (hfl : (s.step i).sys.cache.Flushed set) :
    SetOk p.setsWidth (s.step i).granted set ((s.step i).sys.cache.tagRam.mem set) := by
  have hw : s.sys.cache.flushTagWrite =
      some (.write s.sys.cache.flushIndexQ (fun _ => true) default) := by
    simp [Dcache.flushTagWrite, hf]
  have hmem : ∀ k, (s.step i).sys.cache.tagRam.mem set k =
      if set = s.sys.cache.flushIndexQ then default else s.sys.cache.tagRam.mem set k := by
    intro k
    have := congrFun (congrFun (h.locked.mem_step_flush (i := i) hw) set) k
    simpa [Dcache.writeTags, step_sys_cache] using this
  obtain ⟨-, hp, hn⟩ := h.locked.idle_of_reset hf
  have hr : s.sys.cache.wbRelReq i = none := by
    by_contra hne
    simp [Dcache.nothingInProgress_of_wbRelReq (Option.isSome_iff_ne_none.mpr hne)] at hn
  by_cases hset : set = s.sys.cache.flushIndexQ
  · have hinv : ∀ k, ((s.step i).sys.cache.tagRam.mem set k).valid = false := by
      intro k
      rw [hmem, if_pos hset]
      rfl
    constructor <;> simp [hinv]
  · have hold : s.sys.cache.Flushed set := by
      refine ⟨hfl.1, fun _ => ?_⟩
      have hidx : (s.step i).sys.cache.flushIndexQ =
          (s.sys.cache.flushIndexQ + 1) % 2 ^ p.setsWidth := by
        simp [step, DcacheSys.step, Dcache.step, Dcache.nextFlushIndexQ, hf]
      cases hl : s.sys.cache.flushLast
      · have hnext : (s.step i).sys.cache.flushStateQ = .reset := by
          simp [step, DcacheSys.step, Dcache.step, Dcache.nextFlushStateQ, hf, hl]
        have hlt := hfl.2 hnext
        have hle := Nat.mod_le (s.sys.cache.flushIndexQ + 1) (2 ^ p.setsWidth)
        omega
      · have hidx' : s.sys.cache.flushIndexQ = 2 ^ p.setsWidth - 1 := by
          simpa [Dcache.flushLast] using hl
        have := hfl.1
        omega
    have hmem' : (s.step i).sys.cache.tagRam.mem set = s.sys.cache.tagRam.mem set := by
      funext k
      rw [hmem, if_neg hset]
    rw [hmem']
    exact h.setOk_of_mem henv hold hp hr

/-- A probe takes back what the permissions lose. -/
theorem Inv.setOk_of_check (h : s.Inv) (henv : s.Env i)
    (hpc : s.sys.cache.probeStateQ = .check) {set : ℕ} (hfl : s.sys.cache.Flushed set) :
    SetOk p.setsWidth (s.step i).granted set ((s.step i).sys.cache.tagRam.mem set) := by
  have hset := hfl.1
  have hrel : s.sys.cache.wbRelReq i = none := by
    by_contra hne
    have hn := Dcache.nothingInProgress_of_wbRelReq (Option.isSome_iff_ne_none.mpr hne)
    simp [(h.locked.nothingInProgress.mp hn).2.1] at hpc
  refine (h.sets set hfl).rewrite (fun k hk => h.valid_of_probe hpc hk) ?_ ?_
  · intro k hv hd
    rw [h.mem_step_check hpc] at hv hd ⊢
    split_ifs at hv hd ⊢
    · exact absurd hd (by decide)
    · exact (h.sets set hfl).dirty k hv hd
  · intro k hv hg
    have hold := (h.valid_of_probe hpc hv).1
    by_cases hk : cat (s.sys.cache.tagRam.mem set k).tag p.setsWidth set =
      s.sys.cache.probeAddressQ
    · -- the probed line is in a way that hits, so what stays is a Branch
      have hmod : set = s.sys.cache.probeAddressQ % 2 ^ p.setsWidth := by rw [← hk, cat_mod hset]
      have htag : (s.sys.cache.tagRam.mem set k).tag =
          s.sys.cache.probeAddressQ / 2 ^ p.setsWidth := by rw [← hk, cat_div hset]
      obtain ⟨hrd, hphys⟩ := h.probe hpc
      have hhit : s.sys.cache.hit k = true := by
        simp [Dcache.hit, hrd, hphys, ← hmod, hold, htag]
      have hstep : (s.step i).granted s.sys.cache.probeAddressQ =
          (s.granted s.sys.cache.probeAddressQ).afterProbe s.sys.cache.probeParamQ := by
        rw [← hk, granted_step_keep (h.not_granting henv hset hold), Dcache.nextGranted.keep, hk,
          if_pos (by simp [hpc])]
      rw [h.mem_step_check hpc, if_pos ⟨hmod, hhit⟩] at hv ⊢
      split_ifs at hv ⊢ with hb
      · rw [hk] at hg ⊢
        rw [hstep, hb, hg]
        cases hw : (s.sys.cache.tagRam.mem set k).writable <;>
          simp [DcacheTag.perm, hw, Perm.afterProbe]
      · exact absurd hv (by decide)
    · rw [h.granted_of_valid henv hset hold (fun _ heq => hk heq.symm) (by simp [hrel]), hg,
        h.mem_step_check hpc, if_neg]
      rintro ⟨hmod, hhit⟩
      obtain ⟨-, htag, -⟩ := h.of_probe_hit hpc hhit
      rw [← hmod] at htag
      refine hk ?_
      rw [htag, hmod]
      exact cat_div_mod _ _

/-- A miss invalidates its victim, whose permission is released. -/
theorem Inv.setOk_of_miss (h : s.Inv) (hsw : p.setsWidth ≤ 6) (hpa : 12 ≤ p.physAddrLen)
    (henv : s.Env i) (hm : s.sys.cache.fetches i .miss = true) {set : ℕ}
    (hfl : s.sys.cache.Flushed set) :
    SetOk p.setsWidth (s.step i).granted set ((s.step i).sys.cache.tagRam.mem set) := by
  obtain ⟨hst, hn, -⟩ := h.of_miss henv.sys hm
  obtain ⟨-, hp, -, -⟩ := h.locked.nothingInProgress.mp hn
  obtain ⟨hrd, -, -⟩ := h.fetch hst
  rw [← DcacheSys.accessSet_eq_line hsw hpa] at hrd
  have key : ∀ k, ((s.step i).sys.cache.tagRam.mem set k).valid = true →
      (s.step i).sys.cache.tagRam.mem set k = s.sys.cache.tagRam.mem set k ∧
        ¬(set = s.sys.cache.accessSet ∧ k = s.sys.cache.hitWay) := by
    intro k hv
    rw [h.mem_step_miss hm] at hv ⊢
    split_ifs at hv ⊢ with hk
    exact ⟨rfl, hk⟩
  refine (h.sets set hfl).rewrite ?_ ?_ ?_
  · intro k hv
    have hmem := (key k hv).1
    rw [hmem] at hv ⊢
    exact ⟨hv, rfl⟩
  · intro k hv hd
    have hmem := (key k hv).1
    rw [hmem] at hv hd ⊢
    exact (h.sets set hfl).dirty k hv hd
  · intro k hv hg
    obtain ⟨hmem, hne⟩ := key k hv
    rw [hmem] at hv ⊢
    rw [h.granted_of_valid henv hfl.1 hv (by simp [hp])]
    · exact hg
    · intro hrel
      unfold Dcache.wbRelReq at hrel
      split_ifs at hrel with hw
      · simp only [Bool.and_eq_true] at hw
        simp only [Option.map_some, Option.some.injEq] at hrel
        obtain ⟨htag, hset⟩ := cat_inj (Nat.mod_lt _ (Nat.two_pow_pos _)) hfl.1 hrel
        refine hne ⟨hset.symm, (h.sets set hfl).unique k _ hv ?_ ?_⟩
        · rw [← hset, ← Dcache.accessSet, ← hrd]
          exact hw.1.2
        · rw [← htag, Dcache.hitTag, hrd, Dcache.accessSet, hset]
      · exact absurd hrel (by simp)

/-- A hit that writes marks its way dirty; it holds the line exclusively. -/
theorem Inv.setOk_of_hit (h : s.Inv) (hsw : p.setsWidth ≤ 6) (hpa : 12 ≤ p.physAddrLen)
    (henv : s.Env i) (hw : (s.sys.cache.accessDataWriteReq i && !s.sys.cache.hitTag.dirty) = true)
    {set : ℕ} (hfl : s.sys.cache.Flushed set) :
    SetOk p.setsWidth (s.step i).granted set ((s.step i).sys.cache.tagRam.mem set) := by
  have hreq : s.sys.cache.accessDataWriteReq i = true := by
    simp only [Bool.and_eq_true] at hw
    exact hw.1
  simp only [Dcache.accessDataWriteReq, Bool.and_eq_true] at hreq
  obtain ⟨⟨hhit, -⟩, hop⟩ := hreq
  have hn := Dcache.nothingInProgress_of_fetches (by decide) hhit
  obtain ⟨-, hp, -, -⟩ := h.locked.nothingInProgress.mp hn
  simp only [Dcache.fetches, Bool.and_eq_true, beq_iff_eq] at hhit
  obtain ⟨hst, ho⟩ := hhit
  have hrel : s.sys.cache.wbRelReq i = none := by simp [Dcache.wbRelReq, Dcache.fetches, ho]
  obtain ⟨hrd, -, -⟩ := h.fetch hst
  rw [← DcacheSys.accessSet_eq_line hsw hpa] at hrd
  have hnotMiss : s.sys.cache.fetches i .miss = false := by simp [Dcache.fetches, ho]
  have hwr : s.sys.cache.hitTag.writable = true := by
    unfold Dcache.outcome at ho
    split_ifs at ho with _ _ _ hany
    simp only [Bool.and_eq_true, Bool.or_eq_true, beq_iff_eq] at hany
    rcases hany.2 with hwr | hload
    · exact hwr
    · rw [hload] at hop
      exact absurd hop (by decide)
  have hreq' : s.sys.cache.accessTagWrite i = some (.write s.sys.cache.accessSet
      (fun k => k == s.sys.cache.hitWay) { s.sys.cache.hitTag with dirty := true }) := by
    simp only [Dcache.accessTagWrite, hnotMiss, Bool.false_eq_true, if_false, hw, if_true]
  have hmem : ∀ k, (s.step i).sys.cache.tagRam.mem set k =
      if set = s.sys.cache.accessSet ∧ k = s.sys.cache.hitWay then
        { s.sys.cache.tagRam.mem set k with dirty := true }
      else s.sys.cache.tagRam.mem set k := by
    intro k
    have hk := congrFun (congrFun (h.locked.mem_step_access hreq') set) k
    rw [step_sys_cache, hk, Dcache.writeTags]
    simp only [Bool.and_eq_true, beq_iff_eq]
    split_ifs with hk'
    · rw [Dcache.hitTag, hrd, hk'.1, hk'.2]
    · rfl
  refine (h.sets set hfl).rewrite ?_ ?_ ?_
  · intro k hv
    rw [hmem] at hv ⊢
    split_ifs at hv ⊢ <;> exact ⟨hv, rfl⟩
  · intro k hv hd
    rw [hmem] at hv hd ⊢
    split_ifs at hv hd ⊢ with hk
    · rw [hk.1, hk.2, ← hrd]
      exact hwr
    · exact (h.sets set hfl).dirty k hv hd
  · intro k hv hg
    have hold : (s.sys.cache.tagRam.mem set k).valid = true := by
      rw [hmem] at hv
      split_ifs at hv <;> exact hv
    rw [h.granted_of_valid henv hfl.1 hold (by simp [hp]) (by simp [hrel]), hg, hmem]
    split_ifs <;> rfl

/-- A refill installs its line. -/
theorem Inv.setOk_of_refill (h : s.Inv) (hpa : 12 ≤ p.physAddrLen) (henv : s.Env i)
    (hprog : s.sys.cache.refillStateQ = .progress) {set : ℕ} (hfl : s.sys.cache.Flushed set) :
    SetOk p.setsWidth (s.step i).granted set ((s.step i).sys.cache.tagRam.mem set) := by
  obtain ⟨hp, -, hf⟩ := h.locked.refill_alone hprog
  have hst := h.fill_of_miss (h.fifo.filling (.inr hprog)).1
  have hrel := wbRelReq_of_not_fetch (i := i) (c := s.sys.cache) (by simp [hst])
  have hset := h.setOk_of_mem henv hfl hp hrel
  cases hw : s.sys.cache.refillTagWrite i with
  | none =>
      rw [step_sys_cache, Dcache.mem_step_none hw (Dcache.probeTagWrite_none hp)
        (h.locked.flushTagWrite_none hf) (accessTagWrite_of_not_fetch (by simp [hst]))]
      exact hset
  | some w =>
      obtain ⟨-, -, hline⟩ := h.fill hpa henv.sys hst
      obtain ⟨b, hb, rfl⟩ := Option.map_eq_some_iff.mp hw
      obtain ⟨hlast, hd⟩ := Option.filter_eq_some_iff.mp hb
      obtain ⟨-, -, -, -, hg⟩ := h.of_refillLast henv hlast
      have hg' := hg (by simpa using hd)
      rw [hline] at hw
      rw [step_sys_cache, Dcache.mem_step_refill hw]
      by_cases hs : set = s.sys.line % 2 ^ p.setsWidth
      · subst hs
        have hinst := hset.install (h.absent hst).2 s.sys.cache.wayQ
          (b.msg.param == toT) (by rw [hg']; rfl)
        convert hinst using 2 with k
        simp [Dcache.writeTags]
      · convert hset using 1
        funext k
        simp [Dcache.writeTags, hs]

theorem Inv.sets_step (h : s.Inv) (hsw : p.setsWidth ≤ 6) (hpa : 12 ≤ p.physAddrLen)
    (henv : s.Env i) (set : ℕ) (hfl : (s.step i).sys.cache.Flushed set) :
    SetOk p.setsWidth (s.step i).granted set ((s.step i).sys.cache.tagRam.mem set) := by
  by_cases hf : s.sys.cache.flushStateQ = .reset
  · exact h.setOk_of_reset henv hf hfl
  have hold : s.sys.cache.Flushed set := ⟨hfl.1, fun hr => absurd hr hf⟩
  cases hr : s.sys.cache.refillStateQ
  case progress => exact h.setOk_of_refill hpa henv hr hold
  cases hp : s.sys.cache.probeStateQ
  case check => exact h.setOk_of_check henv hp hold
  cases hm : s.sys.cache.fetches i .miss
  case true => exact h.setOk_of_miss hsw hpa henv hm hold
  cases hw : s.sys.cache.accessDataWriteReq i && !s.sys.cache.hitTag.dirty
  case true => exact h.setOk_of_hit hsw hpa henv hw hold
  -- no machine writes the tags
  have ha : s.sys.cache.accessTagWrite i = none := by simp [Dcache.accessTagWrite, hm, hw]
  have hrel : s.sys.cache.wbRelReq i = none := by simp [Dcache.wbRelReq, hm]
  rw [step_sys_cache, Dcache.mem_step_none (Dcache.refillTagWrite_none hr)
    (Dcache.probeTagWrite_none hp) (h.locked.flushTagWrite_none hf) ha]
  exact h.setOk_of_mem henv hold hp hrel

theorem inv_step (h : s.Inv) (hsw : p.setsWidth ≤ 6) (hpa : 12 ≤ p.physAddrLen)
    (henv : s.Env i) (hearly : s.sys.EarlyHits i) : (s.step i).Inv where
  locked := Dcache.locked_step h.locked
  owned := DcacheSys.walkOwned_step h.owned henv.sys hearly
  miss := h.miss_step hpa henv.sys
  fifo := h.fifo_step hpa henv
  pending := h.pending_step hpa henv
  probe := h.probe_step
  fetch := Inv.fetch_step hsw hpa henv.sys
  sets := h.sets_step hsw hpa henv
  absent := h.absent_step hsw hpa henv

theorem inv_of_isReset (h : s.IsReset) : s.Inv where
  locked := Dcache.locked_of_isReset h.sys.cache
  owned := DcacheSys.walkOwned_of_isReset h.sys
  miss := by simp [h.sys.cache.missStateQ, h.sys.cache.stateQ]
  fifo :=
    { underRst := fun _ => by simp [h.sys.cache.refillFifo, Fifo.reset]
      filling := fun hf => by
        simp [h.sys.cache.refillFifo, Fifo.reset, h.sys.cache.refillStateQ] at hf
      lastEnds := by simp [h.sys.cache.refillFifo, Fifo.reset]
      lastAcq := by simp [h.acq]
      acquired := by simp [h.acq] }
  pending := by simp [h.sys.cache.refillFifo, Fifo.reset]
  probe hp := by simp [h.sys.cache.probeStateQ] at hp
  fetch hf := by simp [h.sys.cache.stateQ] at hf
  sets set hfl := by
    have := hfl.2 h.sys.cache.flushStateQ
    simp [h.sys.cache.flushIndexQ] at this
  absent hf := by simp [h.sys.cache.stateQ] at hf

end Step

/-! ## Runs -/

section Run

/-- The system after `n` cycles. -/
def after (s₀ : DcacheMem p) (inp : ℕ → DcacheIn) (n : ℕ) : DcacheMem p := run step s₀ inp n

variable {s₀ : DcacheMem p} {inp : ℕ → DcacheIn}

/-- In a run whose early faults find their page in the TLB, every set that the reset
flush has passed is well formed, and no assertion of the tag and data ports fails. -/
theorem setOk_arbiterOk_of_earlyHits (hsw : p.setsWidth ≤ 6) (hpa : 12 ≤ p.physAddrLen)
    (h0 : s₀.IsReset) (n : ℕ)
    (hrun : ∀ k < n, (after s₀ inp k).Env (inp k) ∧ (after s₀ inp k).sys.EarlyHits (inp k)) :
    (∀ set, (after s₀ inp n).sys.cache.Flushed set → SetOk p.setsWidth (after s₀ inp n).granted set
      ((after s₀ inp n).sys.cache.tagRam.mem set)) ∧
    ∀ i, (after s₀ inp n).sys.cache.ArbiterOk i := by
  have hinv : (after s₀ inp n).Inv :=
    run_invariant Inv (fun s i => s.Env i ∧ s.sys.EarlyHits i)
      (inv_of_isReset h0) (fun _ _ h henv => inv_step h hsw hpa henv.1 henv.2) n hrun
  exact ⟨hinv.sets, hinv.locked.arbiterOk⟩

end Run

/-! ## A small system -/

instance (s : DcacheMem p) (i : DcacheIn) : Decidable (s.Env i) :=
  decidable_of_iff (s.sys.Env i ∧
      ((s.sys.cache.refillFifoInsert i).isSome = true → s.acq.isSome = true))
    ⟨fun ⟨a, b⟩ => ⟨a, b⟩, fun ⟨a, b⟩ => ⟨a, b⟩⟩

instance (s : Dcache p) (set : ℕ) : Decidable (s.Flushed set) :=
  inferInstanceAs (Decidable (_ ∧ (_ → _)))

/-- The system after reset, with empty RAMs and no permissions. -/
def smallReset : DcacheMem DcacheSys.smallParams := ⟨DcacheSys.smallReset, none, fun _ => .n⟩

theorem isReset_smallReset : smallReset.IsReset := ⟨DcacheSys.isReset_smallReset, rfl⟩

/-- A beat of a grant of Branch. -/
def grant : DcacheIn :=
  { DcacheSys.quiet with memD := some ⟨.grantData, toB, 6, 0, 0, false, false, 0⟩ }

/-- A load that misses the TLB and the cache, with its walk and its refill. -/
def refilledLoad (k : ℕ) : DcacheIn :=
  if 9 ≤ k ∧ k < 17 then grant else DcacheSys.plainLoad k

/-- After the refill the set of the line holds it with the permission granted. -/
theorem setOk_arbiterOk_of_earlyHits_refilledLoad :
    ((after smallReset refilledLoad 18).sys.cache.tagRam.mem 0 0).valid = true ∧
      SetOk DcacheSys.smallParams.setsWidth (after smallReset refilledLoad 18).granted 0
        ((after smallReset refilledLoad 18).sys.cache.tagRam.mem 0) :=
  ⟨by decide,
    (setOk_arbiterOk_of_earlyHits (by decide) (by decide) isReset_smallReset 18
      (show ∀ k < 18, (after smallReset refilledLoad k).Env (refilledLoad k) ∧
          (after smallReset refilledLoad k).sys.EarlyHits (refilledLoad k) by
        decide)).1 0 (by decide)⟩

/-- The load of a first line, then a misaligned load of another page, whose walk is
answered while the load of a second line waits for its refill. -/
def strayWalk (k : ℕ) : DcacheIn :=
  if k = 22 then DcacheSys.load 0x80000001
  else if k = 24 then DcacheSys.load 0x1040
  else if k = 28 then DcacheSys.ptwReply 0x10000043
  else if 32 ≤ k ∧ k < 40 then grant
  else refilledLoad k

/-- The stray walk changes the line address between the acquire and the refill: the tag
that is installed names a line that was never granted. -/
theorem tag_of_line_never_granted :
    smallReset.IsReset ∧
      (∀ k < 41, (after smallReset strayWalk k).Env (strayWalk k)) ∧
      (after smallReset strayWalk 41).sys.cache.Flushed 1 ∧
      ¬SetOk DcacheSys.smallParams.setsWidth (after smallReset strayWalk 41).granted 1
        ((after smallReset strayWalk 41).sys.cache.tagRam.mem 1) := by
  refine ⟨isReset_smallReset, by decide, by decide, fun h => ?_⟩
  have hvalid : ((after smallReset strayWalk 41).sys.cache.tagRam.mem 1 0).valid = true := by
    decide
  exact absurd (h.held 0 hvalid) (by decide)

end DcacheMem

end Muntjac.Core

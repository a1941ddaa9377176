import Muntjac.Core.DcacheAccess
import Muntjac.Core.IcacheFence

/-!
# Page permissions

The permission checks of the two caches against the table of the privileged
architecture.  The walker folds the accessed bit into `valid` and the dirty bit into
`writable`; the data cache checks the result when it decides an access and again when it
computes `req_ready`, the instruction cache when it decides a fetch.

The data cache treats every operation other than a load as a store, in the check and in
the cause that it reports.  The instruction cache applies SUM to fetches.

## Main definitions

* `AccessKind.permits` — the accesses that the architecture allows on a leaf entry.
* `Ptw.Returns` — the walker answers with a leaf entry.
-/

namespace Muntjac.Core

open Sync

/-! ## The architecture -/

inductive AccessKind
  | load
  | lr
  | store
  | sc
  | amo
  | fetch
  deriving DecidableEq, Repr

def MemOp.kind : MemOp → AccessKind
  | .load => .load
  | .store => .store
  | .lr => .lr
  | .sc => .sc
  | .amo => .amo

namespace AccessKind

/-- The access bits that an access needs: a load reads, or executes with MXR; a store
writes and finds the page dirty already; a fetch executes. -/
def needs (k : AccessKind) (pte : ℕ) (mxr : Bool) : Bool :=
  match k with
  | .load | .lr => pte.testBit 1 || (pte.testBit 3 && mxr)
  | .store | .sc | .amo => pte.testBit 2 && pte.testBit 7
  | .fetch => pte.testBit 3

/-- The privileges that reach a page: a user page is reached from user mode and, with SUM,
by the loads and stores of supervisor mode. -/
def reaches (k : AccessKind) (pte : ℕ) (supervisor sum : Bool) : Bool :=
  if pte.testBit 4 then !supervisor || (k != .fetch && sum) else supervisor

/-- The leaf entry `pte` allows the access. -/
def permits (k : AccessKind) (pte : ℕ) (supervisor sum mxr : Bool) : Bool :=
  pte.testBit 6 && k.needs pte mxr && k.reaches pte supervisor sum

end AccessKind

/-! ## The entries that the walker lets through -/

namespace Ptw

/-- The walker has just received the leaf entry `d` and answers with it. -/
structure Returns (w : Ptw) (d : ℕ) : Prop where
  answers : w.respValid = true
  leaf : w.outcome.isSome = true
  read : ∃ pa w₀ i, w = step pa w₀ i ∧ i.memRespValid = true ∧ i.memRespData = d

/-- The entry of an answer is valid, no pointer, and not writable without being readable,
and the permissions are those of its flags. -/
theorem Returns.legal {w : Ptw} {d : ℕ} (h : w.Returns d) :
    Sv39.isPointer d = false ∧ Sv39.isReserved d = false ∧
      w.respPerm = Sv39.protOf (slice d 7 0) := by
  obtain ⟨hdone, hleaf, pa, w₀, i, rfl, hv, rfl⟩ := h
  rw [← nextLevel_eq_isPointer, ← illegal_eq_isReserved]
  have hq : i.reqValid = false := by
    cases hq : i.reqValid
    · rfl
    · simp [step, hq, respValid, start] at hdone
  have hwalk : step pa w₀ i = w₀.walkStep pa i := by simp [step, hq]
  rw [hwalk] at hdone hleaf ⊢
  -- a walker that neither faults nor goes on has found a leaf
  have hfault : ∀ s : Ptw, s.fault.outcome.isSome = true → False := by
    intro s hs
    simp [outcome_fault] at hs
  cases hs : w₀.stateQ <;> simp only [walkStep, hs] at hdone hleaf ⊢
  case idle => simp [respValid, hs] at hdone
  case done => simp [respValid] at hdone
  case atpL3 | atpL2 =>
      split_ifs at hdone hleaf ⊢ with h1 h2 h3
      · simp [hv] at h1
      · simp [respValid, descend] at hdone
      · exact (hfault _ hleaf).elim
      · simp only [Bool.or_eq_true, not_or, Bool.not_eq_true] at h3
        exact ⟨by simpa using h2, h3.1, rfl⟩
  case atpL1 =>
      split_ifs at hdone hleaf ⊢ with h1 h2
      · simp [hv] at h1
      · exact (hfault _ hleaf).elim
      · simp only [Bool.or_eq_true, not_or, Bool.not_eq_true] at h2
        exact ⟨h2.1, h2.2, rfl⟩

/-- The permissions of an answer, bit by bit. -/
theorem Returns.perm {w : Ptw} {d : ℕ} (h : w.Returns d) : d.testBit 0 = true ∧
    (d.testBit 2 = true → d.testBit 1 = true) ∧
    (d.testBit 1 = false → d.testBit 3 = true) ∧
    w.respPerm.valid = d.testBit 6 ∧ w.respPerm.readable = d.testBit 1 ∧
    w.respPerm.writable = (d.testBit 2 && d.testBit 7) ∧ w.respPerm.executable = d.testBit 3 ∧
    w.respPerm.user = d.testBit 4 := by
  obtain ⟨hp, hr, hperm⟩ := h.legal
  simp only [Sv39.isReserved, Bool.or_eq_false_iff, Bool.not_eq_false'] at hr
  have hbits : ∀ k < 8, (slice d 7 0).testBit k = d.testBit k := by
    intro k hk
    simp [testBit_slice, hk]
  rw [hperm]
  simp only [Sv39.protOf, hbits 0 (by decide), hbits 1 (by decide), hbits 2 (by decide),
    hbits 3 (by decide), hbits 4 (by decide), hbits 6 (by decide), hbits 7 (by decide), hr.1,
    Bool.true_and]
  simp only [Sv39.isPointer, hr.1, Bool.true_and] at hp
  refine ⟨trivial, ?_, ?_, trivial, trivial, trivial, trivial, trivial⟩
  · intro hw
    simpa [hw] using hr.2
  · intro hn
    simpa [hn, show d.testBit 2 = false by simpa [hn] using hr.2] using hp

end Ptw

/-! ## The data cache -/

namespace Dcache
variable {p : DcacheParams} {s : Dcache p} {i : DcacheIn}

/-- The access is in `StateFetch`, without a conflict and with its translation. -/
structure Checks (s : Dcache p) (i : DcacheIn) : Prop where
  stateQ : s.stateQ = .fetch
  nothingInProgress : s.nothingInProgress = true
  translated : atpMode i.reqAtp = true
  ppnValid : s.tr.ppnValid = true

/-- The cause of a page fault. -/
def pageFaultCause (op : MemOp) : DcacheExc :=
  if op = .load then .loadPageFault else .storePageFault

theorem Checks.outcome (h : s.Checks i) : s.outcome i = .pageFault ↔ s.permFault i = true := by
  simp only [Dcache.outcome, h.nothingInProgress, h.translated, h.ppnValid, Bool.not_true,
    Bool.false_eq_true, if_false, Bool.and_false, Bool.true_and]
  cases s.permFault i
  · simp only [Bool.false_eq_true, if_false, iff_false]
    split_ifs <;> simp
  · simp

/-- A page fault is reported in the next cycle. -/
theorem Checks.exception_step (h : s.Checks i) (ho : s.outcome i = .pageFault)
    (hq : i.reqValid = false) :
    (s.step i).exception = some (pageFaultCause s.opQ, s.addressQ) := by
  have hst : (s.step i).stateQ = .exception := by
    change s.nextStateQ i = .exception
    simp [nextStateQ, hq, caseState, h.stateQ, ho]
  have hcode : (s.step i).exCodeQ = pageFaultCause s.opQ := by
    change s.nextExCodeQ i = _
    simp [nextExCodeQ, hq, caseExCode, fetches, h.stateQ, ho, pageFaultCause]
  have haddr : (s.step i).addressQ = s.addressQ := by simp [step, nextAddressQ, hq]
  simp [exception, hst, hcode, haddr]

/-- In `StateFetch` the cache is ready in the cycles in which the access completes. -/
theorem reqReady_eq_resp (hst : s.stateQ = .fetch) : s.reqReady i = (s.resp i).isSome := by
  cases hr : s.reqReady i
  · cases ho : s.outcome i
    case hit | scFail =>
        -- these outcomes pass every test of `req_ready`
        simp only [outcome] at ho
        simp only [reqReady, hst] at hr
        split_ifs at ho
        all_goals simp_all
    all_goals simp [resp, hst, ho]
  · exact (resp_isSome_of_ready hst hr).symm

/-- What the check asks of a page: an LR has to be able to load and to store. -/
theorem permFault_iff {w : Ptw} {d : ℕ} (hw : w.Returns d) (hp : s.tr.ppnPerm = w.respPerm) :
    s.permFault i = true ↔ s.opQ.kind.permits d i.reqPrv i.reqSum i.reqMxr = false ∨
      s.opQ = .lr ∧ AccessKind.store.permits d i.reqPrv i.reqSum i.reqMxr = false := by
  obtain ⟨-, hwr, hrx, hv, hr, hwd, -, hu⟩ := hw.perm
  simp only [permFault, hp, hv, hr, hwd, hu, AccessKind.permits, AccessKind.reaches]
  clear hv hr hwd hu
  cases s.opQ
  all_goals
    simp only [MemOp.kind, AccessKind.needs]
    -- the rest is a table over the bits of the entry and of the status register
    generalize d.testBit 1 = r, d.testBit 2 = w, d.testBit 3 = x, d.testBit 4 = u,
      d.testBit 6 = a, d.testBit 7 = dirty, i.reqPrv = prv, i.reqSum = sum, i.reqMxr = mxr at *
    revert r w x u a dirty prv sum mxr
    decide

end Dcache

/-! ## The instruction cache -/

namespace Icache
variable {p : IcacheParams} {s : Icache p} {i : IcacheIn}

/-- The fetch is in `StateFetch`, without a conflict and with its translation. -/
structure Checks (s : Icache p) : Prop where
  stateQ : s.stateQ = .fetch
  nothingInProgress : s.nothingInProgress = true
  translated : s.atpModeQ = true
  ppnValid : s.tr.ppnValid = true

/-- What the check asks of a page: SUM lets supervisor mode fetch from a user page. -/
theorem fetchOutcome_iff (h : s.Checks) {w : Ptw} {d : ℕ} (hw : w.Returns d)
    (hp : s.tr.ppnPerm = w.respPerm) (mxr : Bool) :
    s.fetchOutcome = .pageFault ↔ AccessKind.fetch.permits d s.prvQ s.sumQ mxr = false ∧
      ¬(AccessKind.fetch.permits d false s.sumQ mxr = true ∧ s.prvQ = true ∧ s.sumQ = true) := by
  obtain ⟨-, -, -, hv, -, -, hx, hu⟩ := hw.perm
  have hout : s.fetchOutcome = .pageFault ↔ (!s.tr.ppnPerm.valid || !s.tr.ppnPerm.executable ||
      (!s.tr.ppnPerm.user && !s.prvQ) || (s.tr.ppnPerm.user && s.prvQ && !s.sumQ)) = true := by
    simp only [fetchOutcome, h.nothingInProgress, h.translated, h.ppnValid, Bool.not_true,
      Bool.false_eq_true, if_false, Bool.and_false, Bool.true_and]
    split_ifs with hf <;> simp_all
  rw [hout, hp, hv, hx, hu]
  simp only [AccessKind.permits, AccessKind.needs, AccessKind.reaches]
  generalize d.testBit 3 = x, d.testBit 4 = u, d.testBit 6 = a, s.prvQ = prv, s.sumQ = sum
  clear hout hv hx hu
  revert x u a prv sum
  decide

/-- A page fault is reported in the next cycle. -/
theorem Checks.exception_step (h : s.Checks) (ho : s.fetchOutcome = .pageFault)
    (hq : i.reqValid = false) :
    (s.step i).exValid = true ∧ (s.step i).respExCode = .instrPageFault := by
  have hst : (s.step i).stateQ = .exception := by
    change s.nextStateQ i = .exception
    simp [nextStateQ, hq, caseState, h.stateQ, ho]
  have hcode : (s.step i).exCodeQ = .instrPageFault := by
    change s.nextExCodeQ i = _
    simp [nextExCodeQ, hq, h.stateQ, ho]
  simp [exValid, respExCode, hst, hcode]

end Icache

/-! ## The table -/

/-- On every leaf entry that the walker answers with, the data cache stops the accesses
that the architecture does not allow, an LR also where it stops a store, and reports the
fault of a load as a load page fault and every other as a store page fault; the
instruction cache stops the fetches that are not allowed, where SUM does not matter. -/
theorem page_permissions {w : Ptw} {d : ℕ} (hw : w.Returns d) :
    (∀ {p : DcacheParams} (s : Dcache p) (i : DcacheIn), s.Checks i → s.tr.ppnPerm = w.respPerm →
      (s.opQ ≠ .lr → (s.outcome i = .pageFault ↔
        s.opQ.kind.permits d i.reqPrv i.reqSum i.reqMxr = false)) ∧
      (s.opQ = .lr →
        (AccessKind.lr.permits d i.reqPrv i.reqSum i.reqMxr = false → s.outcome i = .pageFault) ∧
        (AccessKind.lr.permits d i.reqPrv i.reqSum i.reqMxr = true →
          AccessKind.store.permits d i.reqPrv i.reqSum i.reqMxr = true →
          s.outcome i ≠ .pageFault)) ∧
      (s.outcome i = .pageFault → i.reqValid = false →
        (s.step i).exception = some (Dcache.pageFaultCause s.opQ, s.addressQ)) ∧
      s.reqReady i = (s.resp i).isSome) ∧
    ∀ {q : IcacheParams} (s : Icache q) (i : IcacheIn) (mxr : Bool), s.Checks →
      s.tr.ppnPerm = w.respPerm →
      (¬(d.testBit 4 = true ∧ s.prvQ = true ∧ s.sumQ = true) →
        (s.fetchOutcome = .pageFault ↔
          AccessKind.fetch.permits d s.prvQ s.sumQ mxr = false)) ∧
      (s.fetchOutcome = .pageFault → i.reqValid = false →
        (s.step i).exValid = true ∧ (s.step i).respExCode = .instrPageFault) := by
  constructor
  · intro p s i hc hp
    have hfault := hc.outcome.trans (Dcache.permFault_iff hw hp)
    refine ⟨fun hop => ?_, fun hop => ?_, hc.exception_step, Dcache.reqReady_eq_resp hc.stateQ⟩
    · simpa [hop] using hfault
    · rw [hop] at hfault
      constructor
      · intro hd
        exact hfault.mpr (.inl hd)
      · intro hl hst hf
        rcases hfault.mp hf with hd | ⟨-, hd⟩
        · exact absurd (hl.symm.trans hd) (by decide)
        · exact absurd (hst.symm.trans hd) (by decide)
  · intro q s i mxr hc hp
    refine ⟨fun hsum => ?_, hc.exception_step⟩
    rw [Icache.fetchOutcome_iff hc hw hp mxr]
    simp only [and_iff_left_iff_imp]
    intro hd ⟨hu, hprv, hs⟩
    -- what user mode may fetch is a user page, or it is not fetched at all
    refine hsum ⟨?_, hprv, hs⟩
    by_contra hn
    simp [AccessKind.permits, AccessKind.reaches, hn] at hu

/-! ## Small systems -/

theorem ptw_after {p : DcacheParams} (s₀ : DcacheSys p) (inp : ℕ → DcacheIn) (n : ℕ) :
    (DcacheSys.after s₀ inp (n + 1)).cache.tr.ptw =
      (DcacheSys.after s₀ inp n).cache.tr.ptw.step p.physAddrLen
        ((DcacheSys.after s₀ inp n).cache.tr.ptwIn p.translation
          ((DcacheSys.after s₀ inp n).cache.translationIn (inp n))) := rfl

/-- The entry 0x43 is returned to the load of a mapped page. -/
theorem returns_plainLoad :
    (DcacheSys.after DcacheSys.smallReset DcacheSys.plainLoad 4).cache.tr.ptw.Returns 0x43 :=
  ⟨by decide, by decide, _, _, _, ptw_after _ _ 3, by decide,
    by decide⟩

/-- The load is not stopped; the fetch is, since the page is not executable. -/
theorem page_permissions_plainLoad :
    (DcacheSys.after DcacheSys.smallReset DcacheSys.plainLoad 6).cache.outcome
        (DcacheSys.plainLoad 6) ≠ .pageFault ∧
      (IcacheSys.after IcacheSys.smallReset IcacheSys.fenceFirst 4).cache.fetchOutcome =
        .pageFault := by
  have htable := page_permissions returns_plainLoad
  constructor
  · have hload := (htable.1
      (DcacheSys.after DcacheSys.smallReset DcacheSys.plainLoad 6).cache (DcacheSys.plainLoad 6)
      ⟨by decide, by decide, by decide, by decide⟩
      (by decide)).1 (by decide)
    rw [ne_eq, hload]
    decide
  · exact ((htable.2 (IcacheSys.after IcacheSys.smallReset IcacheSys.fenceFirst 4).cache
      IcacheSys.quiet false ⟨by decide, by decide, by decide,
        by decide⟩ (by decide)).1 (by decide)).mpr (by decide)

/-- An LR, and the answer `d` to its walk. -/
def lrOf (d k : ℕ) : DcacheIn :=
  if k = 0 then { DcacheSys.load 0x1000 with reqOp := .lr }
  else if k = 3 then DcacheSys.ptwReply d else DcacheSys.quiet

/-- A fetch of supervisor mode with SUM, and the answer `d` to its walk. -/
def sumFetch (d k : ℕ) : IcacheEv :=
  ⟨if k = 0 then { IcacheSys.request 1 with reqSum := true }
    else if k = 3 then
      { IcacheSys.quiet with memD := some ⟨.accessAckData, 0, 1, 1, 0, false, false, d⟩ }
    else IcacheSys.quiet, 0⟩

/-- An LR of a page that is not accessed is reported as a store page fault.  An LR of a page
that is readable and not writable is stopped, although the architecture allows it.  With
SUM supervisor mode fetches from an executable user page, which the architecture forbids. -/
theorem lr_and_sum_deviate :
    (AccessKind.lr.permits 0x07 true false false = false ∧
      (DcacheSys.after DcacheSys.smallReset (lrOf 0x07) 7).cache.exception =
        some (.storePageFault, 0x1000)) ∧
    (AccessKind.lr.permits 0x43 true false false = true ∧
      (DcacheSys.after DcacheSys.smallReset (lrOf 0x43) 6).cache.opQ = .lr ∧
      (DcacheSys.after DcacheSys.smallReset (lrOf 0x43) 6).cache.Checks (lrOf 0x43 6) ∧
      (DcacheSys.after DcacheSys.smallReset (lrOf 0x43) 6).cache.outcome (lrOf 0x43 6) =
        .pageFault) ∧
    AccessKind.fetch.permits 0x5b true true false = false ∧
      (IcacheSys.after IcacheSys.smallReset (sumFetch 0x5b) 6).cache.Checks ∧
      (IcacheSys.after IcacheSys.smallReset (sumFetch 0x5b) 6).cache.fetchOutcome ≠ .pageFault :=
  ⟨⟨by decide, by decide⟩,
    ⟨by decide, by decide,
      ⟨by decide, by decide, by decide, by decide⟩,
      by decide⟩,
    by decide,
    ⟨by decide, by decide, by decide, by decide⟩,
    by decide⟩

end Muntjac.Core

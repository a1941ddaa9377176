import Muntjac.Core.DcacheProgress
import Muntjac.Core.Subwords

/-!
# The requests of the data cache and their answers

A request is accepted in a cycle with `req_valid` and `req_ready`.  It is answered by a
response, which is registered and delivered one cycle after the access machine has
decided it, or by an exception, which is delivered from `StateException` at once.  The
registers of the access are loaded whenever `req_valid` is set; `req_ready` is not
consulted.  Where the backend waits for it, every request that is accepted is answered, in
order, by a memory that serves the cache.

## Main definitions

* `Access` — the operands that a request leaves in the registers of the access.
* `DcacheLog.step` — one cycle of the cache with the log of requests and answers.
* `DcacheLog.pending` — the accesses that were accepted and not yet answered.
-/

namespace Muntjac.Core

open Sync Riscv

/-- The operands of an access. -/
structure Access where
  address : ℕ
  value : BitVec 64
  mask : BitVec 8
  size : Fin 4
  sizeExt : SizeExt
  op : MemOp
  amo : BitVec 7
  deriving DecidableEq, Repr

inductive Answer
  | resp (value : BitVec 64)
  | exc (cause : DcacheExc) (tval : ℕ)
  deriving DecidableEq, Repr

/-- The operands of a request. -/
def DcacheIn.access (i : DcacheIn) : Access where
  address := i.reqAddress
  value := alignStore i.reqValue i.reqAddress
  mask := alignStrb i.reqAddress i.reqSize
  size := i.reqSize
  sizeExt := i.reqSizeExt
  op := i.reqOp
  amo := if i.reqOp.returnsWord then i.reqAmo else 0b0000100

namespace Dcache
variable {p : DcacheParams}

/-- The operands of the access in flight. -/
def access (s : Dcache p) : Access where
  address := s.addressQ
  value := s.valueQ
  mask := s.maskQ
  size := s.sizeQ
  sizeExt := s.sizeExtQ
  op := s.opQ
  amo := s.amoQ

/-- The request of this cycle is accepted. -/
def accepts (s : Dcache p) (i : DcacheIn) : Bool := i.reqValid && s.reqReady i

section Step
variable {s : Dcache p} {i : DcacheIn}

theorem access_step : (s.step i).access = if i.reqValid then i.access else s.access := by
  cases hq : i.reqValid <;> simp [access, DcacheIn.access, step, nextAddressQ, hq]

/-- A request never leaves the access machine idle. -/
theorem stateQ_step_of_reqValid (h : i.reqValid = true) : (s.step i).stateQ ≠ .idle := by
  change s.nextStateQ i ≠ .idle
  simp only [nextStateQ, h, if_true]
  split_ifs <;> simp

theorem resp_none_of_exception (hst : s.stateQ = .exception) : s.resp i = none := by
  simp [resp, hst]

theorem resp_none_of_idle (hst : s.stateQ = .idle) : s.resp i = none := by
  simp [resp, hst]

end Step

section Words
variable {s : Dcache p} {r : DcacheIn}

/-- The word that the access of the request `r` writes over the word it hits: the result
of its atomic operation `o` or its operand, in the addressed bytes. -/
theorem written_of_access {o : AmoOp} (hacc : s.access = r.access)
    (hal : isAligned r.reqAddress r.reqSize = true)
    (hop : r.reqOp = .amo →
      AmoCode o r.reqAmo ∧ o ≠ .sc ∧ (r.reqSize = 2 ∨ r.reqSize = 3))
    (hw : r.reqOp.writes = true) :
    combineWord s.hitData s.amoResult s.maskQ =
      setWindow s.hitData (bitOffset r.reqAddress)
        (if r.reqOp = .amo then
          o.eval (addressed s.hitData r.reqAddress r.reqSize)
            (r.reqValue.extractLsb' 0 (accessWidth r.reqSize))
        else r.reqValue.extractLsb' 0 (accessWidth r.reqSize)) := by
  have hvalue : s.valueQ = alignStoreWith 0 r.reqValue r.reqAddress :=
    (congrArg Access.value hacc).trans (alignStore_eq _ _)
  have hmask : s.maskQ = alignStrb r.reqAddress r.reqSize := congrArg Access.mask hacc
  have hamo : s.amoQ = if r.reqOp.returnsWord then r.reqAmo else 0b0000100 :=
    congrArg Access.amo hacc
  rw [amoResult, hvalue, hmask, hamo, combineWord_alignStrb _ _ hal]
  by_cases ho : r.reqOp = .amo
  · obtain ⟨hc, hne, hs⟩ := hop ho
    rw [if_pos ho, ho, ← addressed_alignStoreWith 0 _ hal]
    exact congrArg _ (addressed_doAmoOp hc hne hal hs)
  · have hplain : r.reqOp.returnsWord = false := by
      cases hr : r.reqOp <;> simp_all [MemOp.returnsWord, MemOp.writes]
    rw [if_neg ho, hplain, if_neg (by decide), doAmoOp_swap, addressed_alignStoreWith 0 _ hal]

/-- The value that a hit of the request `r` returns. -/
theorem loaded_of_access (hacc : s.access = r.access)
    (hal : isAligned r.reqAddress r.reqSize = true) :
    alignLoad s.hitData s.addressQ s.sizeQ s.sizeExtQ =
      sext (addressed s.hitData r.reqAddress r.reqSize) r.reqSizeExt := by
  have haddr : s.addressQ = r.reqAddress := congrArg Access.address hacc
  have hsize : s.sizeQ = r.reqSize := congrArg Access.size hacc
  have hext : s.sizeExtQ = r.reqSizeExt := congrArg Access.sizeExt hacc
  rw [haddr, hsize, hext, alignLoad_eq _ _ hal]

end Words

end Dcache

/-- The cache with the access whose response is registered, the accesses accepted and
the answers delivered so far. -/
structure DcacheLog (p : DcacheParams) where
  cache : Dcache p
  decided : Access
  accepted : List Access
  answered : List (Access × Answer)

namespace DcacheLog
variable {p : DcacheParams}

/-- The access whose response is delivered in this cycle. -/
def registered (s : DcacheLog p) : List Access := if s.cache.respValidQ then [s.decided] else []

/-- The answers that are delivered in this cycle: a response belongs to an earlier
access than an exception. -/
def delivered (s : DcacheLog p) : List (Access × Answer) :=
  s.registered.map (fun a => (a, .resp s.cache.respValueQ)) ++
    (s.cache.exception.map fun e => (s.cache.access, Answer.exc e.1 e.2)).toList

def step (s : DcacheLog p) (i : DcacheIn) : DcacheLog p where
  cache := s.cache.step i
  decided := if (s.cache.resp i).isSome then s.cache.access else s.decided
  accepted := s.accepted ++ if s.cache.accepts i then [i.access] else []
  answered := s.answered ++ s.delivered

/-- The accesses that are not yet answered: the one whose response is registered and the
one in the access machine. -/
def pending (s : DcacheLog p) : List Access :=
  s.registered ++ if s.cache.stateQ = .idle then [] else [s.cache.access]

/-- `req_valid` is raised only while `req_ready` is set. -/
def Polite (s : DcacheLog p) (i : DcacheIn) : Prop :=
  i.reqValid = true → s.cache.reqReady i = true

structure IsReset (s : DcacheLog p) : Prop where
  cache : s.cache.IsReset
  accepted : s.accepted = []
  answered : s.answered = []

/-- What was accepted is what was answered, followed by what is pending; an exception
reports the address of its access. -/
structure InOrder (s : DcacheLog p) : Prop where
  accepted : s.accepted = s.answered.map Prod.fst ++ s.pending
  tval : ∀ a c t, (a, Answer.exc c t) ∈ s.answered → t = a.address

section Step
variable {s : DcacheLog p} {i : DcacheIn}

theorem delivered_map_fst : s.delivered.map Prod.fst =
    s.registered ++ if s.cache.stateQ = .exception then [s.cache.access] else [] := by
  simp only [delivered, Dcache.exception, List.map_append, List.map_map]
  have hid : (Prod.fst ∘ fun a : Access => (a, Answer.resp s.cache.respValueQ)) = id := rfl
  rw [hid, List.map_id]
  by_cases hx : s.cache.stateQ = .exception <;> simp [hx]

theorem registered_step : (s.step i).registered =
    if (s.cache.resp i).isSome then [s.cache.access] else [] := by
  simp only [registered, step, Dcache.step]
  split_ifs <;> rfl

/-- Without a request the access stays, or it is answered and the machine is idle. -/
theorem pending_step_of_not_reqValid (hq : i.reqValid = false) :
    s.pending = s.delivered.map Prod.fst ++ (s.step i).pending := by
  have haccess : (s.step i).cache.access = s.cache.access := by
    simp [step, Dcache.access_step, hq]
  rw [pending, pending, delivered_map_fst, registered_step, haccess, List.append_assoc]
  congr 1
  by_cases hst : s.cache.stateQ = .idle
  · have hidle : (s.step i).cache.stateQ = .idle := by
      change s.cache.nextStateQ i = .idle
      simp [Dcache.nextStateQ, hq, Dcache.caseState, hst]
    simp [Dcache.resp_none_of_idle hst, hst, hidle]
  · have hiff : (s.step i).cache.stateQ = .idle ↔
        (s.cache.resp i).isSome = true ∨ s.cache.stateQ = .exception :=
      Dcache.stateQ_step_eq_idle hq hst
    by_cases hx : s.cache.stateQ = .exception
    · simp [hiff, Dcache.resp_none_of_exception hx, hx]
    · cases hr : (s.cache.resp i).isSome <;> simp [hiff, hr, hst, hx]

/-- A request is accepted while the machine is idle or decides its access. -/
theorem pending_step_of_reqValid (hq : i.reqValid = true) (hready : s.cache.reqReady i = true) :
    s.pending ++ [i.access] = s.delivered.map Prod.fst ++ (s.step i).pending := by
  have haccess : (s.step i).cache.access = i.access := by
    simp [step, Dcache.access_step, hq]
  have hbusy : (s.step i).cache.stateQ ≠ .idle := Dcache.stateQ_step_of_reqValid hq
  rw [pending, pending, delivered_map_fst, registered_step, haccess, if_neg hbusy,
    List.append_assoc, List.append_assoc]
  congr 1
  cases hst : s.cache.stateQ
  case idle => simp [Dcache.resp_none_of_idle hst]
  case fetch => simp [Dcache.resp_isSome_of_ready hst hready]
  all_goals simp [Dcache.reqReady, hst] at hready

/-- Nothing pending is lost or answered twice in a cycle. -/
theorem pending_step (hp : s.Polite i) :
    s.pending ++ (if s.cache.accepts i then [i.access] else []) =
      s.delivered.map Prod.fst ++ (s.step i).pending := by
  cases hq : i.reqValid
  · have hna : s.cache.accepts i = false := by simp [Dcache.accepts, hq]
    rw [hna, ← pending_step_of_not_reqValid hq]
    simp
  · have ha : s.cache.accepts i = true := by simp [Dcache.accepts, hq, hp hq]
    rw [ha, ← pending_step_of_reqValid hq (hp hq)]
    simp

theorem inOrder_step (h : s.InOrder) (hp : s.Polite i) : (s.step i).InOrder where
  accepted := by
    calc (s.step i).accepted
        = s.answered.map Prod.fst ++
            (s.pending ++ if s.cache.accepts i then [i.access] else []) := by
          simp [step, h.accepted]
      _ = s.answered.map Prod.fst ++ (s.delivered.map Prod.fst ++ (s.step i).pending) := by
          rw [pending_step hp]
      _ = (s.step i).answered.map Prod.fst ++ (s.step i).pending := by simp [step]
  tval := by
    intro a c t hmem
    rcases List.mem_append.mp hmem with hmem | hmem
    · exact h.tval a c t hmem
    · by_cases hx : s.cache.stateQ = .exception
      · simp_all [delivered, Dcache.exception, Dcache.access]
      · simp_all [delivered, Dcache.exception]

theorem inOrder_of_isReset (h : s.IsReset) : s.InOrder where
  accepted := by simp [h.accepted, h.answered, pending, registered,
    h.cache.respValidQ, h.cache.stateQ]
  tval := by simp [h.answered]

/-- An access that leaves the machine is answered in this cycle or in the next one. -/
theorem InOrder.answered_of_leaves (h : s.InOrder)
    (hl : s.cache.stateQ = .idle ∨ s.cache.leaves i = true) (i' : DcacheIn) :
    s.accepted <+: ((s.step i).step i').answered.map Prod.fst := by
  have hanswered : ((s.step i).step i').answered.map Prod.fst =
      s.answered.map Prod.fst ++ s.delivered.map Prod.fst ++ (s.step i).delivered.map Prod.fst := by
    simp [step]
  rw [hanswered, h.accepted, pending, delivered_map_fst, delivered_map_fst, registered_step]
  by_cases hst : s.cache.stateQ = .idle
  · simp [hst]
  · have hl' := hl.resolve_left hst
    by_cases hx : s.cache.stateQ = .exception
    · simp [hx]
    · have hr : (s.cache.resp i).isSome = true := by simpa [Dcache.leaves, hx] using hl'
      simp [hst, hx, hr]

end Step

/-! ## Runs -/

section Run

/-- The system after `n` cycles. -/
def after (s₀ : DcacheLog p) (inp : ℕ → DcacheIn) (n : ℕ) : DcacheLog p := run step s₀ inp n

variable {s₀ : DcacheLog p} {inp : ℕ → DcacheIn}

/-- A request that is not accepted has no effect in this cycle. -/
def Unaffected (s : DcacheLog p) (i : DcacheIn) : Prop :=
  s.cache.reqReady i = false → s.cache.step i = s.cache.step { i with reqValid := false }

theorem unaffected_of_polite {s : DcacheLog p} {i : DcacheIn} (h : s.Polite i) :
    s.Unaffected i := by
  intro hready
  have hq : i.reqValid = false := by
    by_contra hq
    simp [h (by simpa using hq)] at hready
  rw [show { i with reqValid := false } = i by rw [← hq]]

theorem inOrder_after (h0 : s₀.IsReset) (n : ℕ)
    (hrun : ∀ k < n, (after s₀ inp k).Polite (inp k)) : (after s₀ inp n).InOrder :=
  run_invariant InOrder Polite (inOrder_of_isReset h0) (fun _ _ => inOrder_step) n hrun

theorem accepted_mono {m n : ℕ} (hmn : m ≤ n) :
    (after s₀ inp m).accepted <+: (after s₀ inp n).accepted := by
  induction n, hmn using Nat.le_induction with
  | base => exact List.prefix_rfl
  | succ n _ ih => exact ih.trans (List.prefix_append _ _)

/-- The cache with a memory that has nothing outstanding. -/
def memory (s : DcacheLog p) : DcacheMem p := ⟨⟨s.cache, 0, []⟩, none, fun _ => .n⟩

theorem memory_after (n : ℕ) :
    (DcacheMem.after s₀.memory inp n).sys.cache = (after s₀ inp n).cache := by
  have hmem : (run DcacheMem.step s₀.memory inp n).sys.cache = run Dcache.step s₀.cache inp n :=
    run_part (fun s : DcacheMem p => s.sys.cache) (fun i => i) (fun _ _ => rfl) s₀.memory inp n
  have hlog : (run step s₀ inp n).cache = run Dcache.step s₀.cache inp n :=
    run_part (fun s : DcacheLog p => s.cache) (fun i => i) (fun _ _ => rfl) s₀ inp n
  exact hmem.trans hlog.symm

/-- The memory serves the cache, so that every request that is accepted is answered. -/
theorem eventually_answered (h0 : s₀.IsReset) (h : s₀.memory.Run inp) (n : ℕ) :
    ∃ m, n ≤ m ∧ (after s₀ inp n).accepted <+: (after s₀ inp m).answered.map Prod.fst := by
  have horder : ∀ n, (after s₀ inp n).InOrder := by
    refine fun n => inOrder_after h0 n fun k _ hq => ?_
    rw [← memory_after]
    exact (h.env k).sys.ready hq
  obtain ⟨m, hm, hl⟩ : ∃ m, n ≤ m ∧ ((after s₀ inp m).cache.stateQ = .idle ∨
      (after s₀ inp m).cache.leaves (inp m) = true) := by
    by_cases hst : (after s₀ inp n).cache.stateQ = .idle
    · exact ⟨n, le_rfl, .inl hst⟩
    · rw [← memory_after] at hst
      obtain ⟨m, hm, hl⟩ := h.leadsTo_leaves n hst
      exact ⟨m, hm, .inr (by rw [← memory_after]; exact hl)⟩
  exact ⟨m + 2, by omega,
    (accepted_mono hm).trans ((horder m).answered_of_leaves hl (inp (m + 1)))⟩

/-- In a run whose requests wait for `req_ready`, a cycle that accepts nothing is a cycle
without a request, and the accepted requests are, in order, those answered and those
pending; each has one answer, for its own operands.  A memory that serves the cache leaves
none of them pending for ever. -/
theorem answered_in_order (h0 : s₀.IsReset) (n : ℕ)
    (hrun : ∀ k < n, (after s₀ inp k).Polite (inp k)) :
    (∀ k < n, (after s₀ inp k).Unaffected (inp k)) ∧ (after s₀ inp n).InOrder ∧
      (s₀.memory.Run inp →
        ∃ m, n ≤ m ∧ (after s₀ inp n).accepted <+: (after s₀ inp m).answered.map Prod.fst) :=
  ⟨fun k hk => unaffected_of_polite (hrun k hk), inOrder_after h0 n hrun,
    fun h => eventually_answered h0 h n⟩

end Run

/-! ## A small system -/

instance (s : DcacheLog p) (i : DcacheIn) : Decidable (s.Polite i) :=
  inferInstanceAs (Decidable (_ → _))

/-- The system after reset, with an empty log. -/
def smallReset : DcacheLog DcacheSys.smallParams :=
  ⟨DcacheSys.smallReset.cache, DcacheSys.smallReset.cache.access, [], []⟩

theorem isReset_smallReset : smallReset.IsReset := ⟨DcacheSys.isReset_smallReset.cache, rfl, rfl⟩

/-- The first load is answered by its response, the second one is pending and will be
answered. -/
theorem answered_in_order_loadTwice :
    (after smallReset DcacheMem.loadTwice 23).answered.length = 1 ∧
      (after smallReset DcacheMem.loadTwice 23).pending.length = 1 ∧
      (after smallReset DcacheMem.loadTwice 23).InOrder ∧
      ∃ m, 23 ≤ m ∧ (after smallReset DcacheMem.loadTwice 23).accepted <+:
        (after smallReset DcacheMem.loadTwice m).answered.map Prod.fst := by
  obtain ⟨-, horder, hanswered⟩ := answered_in_order isReset_smallReset 23
    (show ∀ k < 23, (after smallReset DcacheMem.loadTwice k).Polite (DcacheMem.loadTwice k) by
      decide)
  exact ⟨by decide, by decide, horder, hanswered DcacheMem.run_loadTwice⟩

/-- A load, and in the next cycle, while the cache is not ready, the next load. -/
def backToBack (k : ℕ) : DcacheIn :=
  if k = 0 then DcacheSys.load 0x1000 else if k = 1 then DcacheSys.load 0x2001 else DcacheSys.quiet

/-- The second load is not accepted, yet it replaces the first one: its address takes the
place of the one in flight, the first load is never answered, and the exception of the
second is delivered in its stead. -/
theorem access_replaced_by_unaccepted_request :
    smallReset.IsReset ∧
      (after smallReset backToBack 1).cache.reqReady (backToBack 1) = false ∧
      (after smallReset backToBack 1).cache.access.address = 0x1000 ∧
      ((after smallReset backToBack 1).cache.step (backToBack 1)).addressQ ≠
        ((after smallReset backToBack 1).cache.step
          { backToBack 1 with reqValid := false }).addressQ ∧
      (after smallReset backToBack 3).accepted.map Access.address = [0x1000] ∧
      (after smallReset backToBack 3).answered.map (fun a => a.1.address) = [0x2001] :=
  ⟨isReset_smallReset, by decide, by decide, by decide,
    by decide, by decide⟩

end DcacheLog

end Muntjac.Core

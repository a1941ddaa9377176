import Muntjac.Core.DcacheGrant

/-!
# A memory that serves the data cache

What the data cache relies on in order not to wait for ever: the memory goes on accepting
its messages, answers each of them, and sends the beats of a message on channel D one after
the other.  The cache for its part never blocks channel D for ever.  Hence what it asks for
comes, the flush after reset ends, and so does every writeback.

## Main definitions

* `DcacheMem.Fair` — the rules of a memory that serves the cache.
* `DcacheMem.Run` — a run from reset under the rules of the environment and of the memory.

## Main results

* `DcacheMem.Run.comes` — what the memory offers comes.
* `DcacheMem.Run.leadsTo_wbIdle` — every writeback ends.
-/

namespace Muntjac.Core

open Sync Tl

namespace Dcache
variable {p : DcacheParams}

/-- The access leaves the machine: its response is decided, or it ends in an exception. -/
def leaves (s : Dcache p) (i : DcacheIn) : Bool := (s.resp i).isSome || s.stateQ == .exception

section Step
variable {s : Dcache p} {i : DcacheIn}

/-- In `StateFetch` the cache is ready exactly in the cycles that decide a response. -/
theorem resp_isSome_of_ready (hst : s.stateQ = .fetch) (h : s.reqReady i = true) :
    (s.resp i).isSome = true := by
  have ho : s.outcome i = .hit ∨ s.outcome i = .scFail := by
    simp only [reqReady, hst, Bool.and_eq_true, Bool.or_eq_true, Bool.not_eq_true',
      Bool.and_eq_false_iff] at h
    unfold outcome
    split_ifs <;> simp_all
  rcases ho with ho | ho
  · simp only [resp, hst, ho]
    split_ifs <;> rfl
  · simp [resp, hst, ho]

/-- Without a request the access leaves the machine exactly when it is answered. -/
theorem stateQ_step_eq_idle (hq : i.reqValid = false) (hst : s.stateQ ≠ .idle) :
    (s.step i).stateQ = .idle ↔ (s.resp i).isSome = true ∨ s.stateQ = .exception := by
  change s.nextStateQ i = .idle ↔ _
  simp only [nextStateQ, hq, Bool.false_eq_true, if_false, caseState, resp]
  cases hs : s.stateQ
  · exact absurd hs hst
  · cases ho : s.outcome i <;> simp
    split_ifs <;> simp
  · simp only [reduceCtorEq, Option.isSome_none, Bool.false_eq_true, or_self, iff_false]
    split_ifs <;> simp
  · simp only [reduceCtorEq, Option.isSome_none, Bool.false_eq_true, or_self, iff_false]
    split_ifs <;> simp
  · cases hm : s.missResp i with
    | none => simp
    | some r => cases r <;> simp
  · simp

/-- The next state without a request. -/
theorem stateQ_step_hold (hq : i.reqValid = false) : (s.step i).stateQ = s.caseState i := by
  change s.nextStateQ i = _
  simp [nextStateQ, hq]

end Step

end Dcache

namespace DcacheMem
variable {p : DcacheParams}

/-! ## The rules of the memory -/

section Rules
variable (s₀ : DcacheMem p) (inp : ℕ → DcacheIn)

/-- The position of channel D in cycle `n`. -/
def dPos : ℕ → Pos DMsg
  | 0 => .idle
  | n + 1 => (after s₀ inp n).nextPos (dPos n) (inp n)

/-- Whatever channel D offers in cycle `n` is a new beat: the one before was accepted. -/
def Fresh : ℕ → Prop
  | 0 => True
  | n + 1 => ¬(after s₀ inp n).Blocked (inp n)

/-- What is asked for comes in cycle `n` or later, unless the cache blocks channel D for
ever. -/
def Offers (n : ℕ) (P : ℕ → Prop) : Prop :=
  (∃ m, n ≤ m ∧ P m) ∨ ∃ m, n ≤ m ∧ ∀ k, m ≤ k → (after s₀ inp k).Blocked (inp k)

/-- A memory that serves the cache.  Channels A, C and E are ready again and again.  A beat
on channel D stays until it is accepted.  Every read of the walker, acquire, release and
uncached access is answered.  An access that is not answered sees no probe from some cycle
on. -/
structure Fair : Prop where
  readyA : Recurs fun n => (inp n).memAReady = true
  readyC : Recurs fun n => (inp n).memCReady = true
  readyE : Recurs fun n => (inp n).memEReady = true
  hold : ∀ n, (after s₀ inp n).Blocked (inp n) → (inp (n + 1)).memD = (inp n).memD
  grants : ∀ n, (after s₀ inp n).Grants (dPos s₀ inp n) (inp n)
  entry : ∀ n, (after s₀ inp n).sys.reads ≠ [] →
    Offers s₀ inp n fun m => ((inp m).memDPtw p).isSome = true
  line : ∀ n, (after s₀ inp n).acq.isSome = true →
    Offers s₀ inp n fun m => (inp m).memDRefill.isSome = true ∧ Fresh s₀ inp m
  released : ∀ n, (after s₀ inp n).sys.cache.wbStateQ = .wait →
    (after s₀ inp n).sys.cache.evictCompletedQ = false →
    Offers s₀ inp n fun m => (inp m).memDRelAck.isSome = true
  word : ∀ n, (after s₀ inp n).sys.cache.missStateQ = .uncached →
    (after s₀ inp n).sys.cache.missUncachedSentQ = true →
    Offers s₀ inp n fun m => ((inp m).memDAccess p).isSome = true
  probes : ∀ n, (∃ m, n ≤ m ∧ (after s₀ inp m).sys.cache.leaves (inp m) = true) ∨
    ∃ m, n ≤ m ∧ ∀ k, m ≤ k → (after s₀ inp k).sys.cache.probeAccept (inp k) = none

/-- A run from reset under the rules of the environment and of a fair memory, whose early
faults find their page in the TLB. -/
structure Run : Prop where
  legal : p.Legal
  reset : s₀.IsReset
  env : ∀ n, (after s₀ inp n).Env (inp n)
  earlyHits : ∀ n, (after s₀ inp n).sys.EarlyHits (inp n)
  fair : Fair s₀ inp

end Rules

section Run
variable {s₀ : DcacheMem p} {inp : ℕ → DcacheIn} {n N : ℕ}

theorem after_succ (n : ℕ) : after s₀ inp (n + 1) = (after s₀ inp n).step (inp n) := rfl

theorem Run.inv (h : Run s₀ inp) (n : ℕ) : (after s₀ inp n).Inv := by
  induction n with
  | zero => exact inv_of_isReset h.reset
  | succ n ih => exact inv_step ih h.legal.setsWidth h.legal.physAddrLen (h.env n) (h.earlyHits n)

theorem Run.live (h : Run s₀ inp) (n : ℕ) : (after s₀ inp n).Live := by
  induction n with
  | zero => exact live_of_isReset h.reset
  | succ n ih => exact live_step ih h.legal (h.env n)

theorem Run.beats (h : Run s₀ inp) (n : ℕ) :
    (after s₀ inp n).Beats (dPos s₀ inp n) (inp n) := by
  induction n with
  | zero => exact beats_of_isReset h.reset
  | succ n ih =>
      exact beats_step ih (h.inv n) (h.live n) h.legal (h.env n) (h.fair.grants n) (h.fair.hold n)

/-! ### Channel D -/

/-- The answer to the walker is accepted. -/
theorem Run.ptwAValid (h : Run s₀ inp) (hd : ((inp n).memDPtw p).isSome = true) :
    (after s₀ inp n).sys.cache.tr.ptwAValid = true := by
  have ho := (h.inv n).owned
  have hreads := (h.env n).sys.asked hd
  have hl : (after s₀ inp n).sys.cache.tr.ptw.level ≠ none := fun hl => hreads (ho.rest hl).1
  have hout := (ho.waiting hl).2
  cases hq : (after s₀ inp n).sys.cache.tr.ptw.reqValidQ
  · exact (hout.sent hq).2.1
  · exact absurd (hout.unsent hq).1 hreads

/-- Channel D is blocked only by a grant whose acknowledgement is not accepted. -/
theorem Run.memEReady_of_blocked (h : Run s₀ inp) (hb : (after s₀ inp n).Blocked (inp n)) :
    (inp n).memEReady = false := by
  obtain ⟨-, hready⟩ := hb
  unfold Dcache.memDReady at hready
  split_ifs at hready with hr hptw
  · obtain ⟨d, hd⟩ := Option.isSome_iff_exists.mp hr
    exact (last_of_not_ready hd hready).1
  · simp [h.ptwAValid hptw] at hready

/-- What the memory offers comes. -/
theorem Run.comes (h : Run s₀ inp) {P : ℕ → Prop} (ho : Offers s₀ inp n P) :
    ∃ m, n ≤ m ∧ P m := by
  rcases ho with ho | ⟨m, -, hall⟩
  · exact ho
  · obtain ⟨k, hk, hready⟩ := h.fair.readyE m
    have hno := h.memEReady_of_blocked (hall k hk)
    simp [hready] at hno

/-- A new beat of a grant is put into the FIFO. -/
theorem Run.inserts (h : Run s₀ inp) (hd : (inp n).memDRefill.isSome = true)
    (hf : Fresh s₀ inp n) :
    ((after s₀ inp n).sys.cache.refillFifoInsert (inp n)).isSome = true := by
  have hs : (after s₀ inp n).sys.cache.refillBeatSavedQ = false := by
    cases n with
    | zero => exact h.reset.sys.cache.refillBeatSavedQ
    | succ n =>
        by_contra hne
        have hs : (after s₀ inp (n + 1)).sys.cache.refillBeatSavedQ = true := by simpa using hne
        obtain ⟨d, hd, hr⟩ := (h.beats n).of_saved hs
        exact hf (blocked_of_not_ready hd hr)
  simpa [Dcache.refillFifoInsert, hs] using hd

/-! ### The flush after reset -/

theorem Run.leadsTo_flushed (h : Run s₀ inp) : LeadsTo (fun _ => True) fun n =>
    (after s₀ inp n).sys.cache.flushStateQ ≠ .reset := by
  refine .of_countdown (fun n => 2 ^ p.setsWidth - (after s₀ inp n).sys.cache.flushIndexQ)
    fun n _ => ?_
  by_cases hf : (after s₀ inp n).sys.cache.flushStateQ = .reset
  swap
  · exact .inl hf
  have hlt := (h.live n).flushIndex
  by_cases hl : (after s₀ inp n).sys.cache.flushIndexQ = 2 ^ p.setsWidth - 1
  · refine .inr (.inl ?_)
    change (after s₀ inp n).sys.cache.nextFlushStateQ (inp n) ≠ .reset
    simp [Dcache.nextFlushStateQ, hf, Dcache.flushLast, hl]
  · have hidx : (after s₀ inp (n + 1)).sys.cache.flushIndexQ =
        ((after s₀ inp n).sys.cache.flushIndexQ + 1) % 2 ^ p.setsWidth := by
      change (after s₀ inp n).sys.cache.nextFlushIndexQ = _
      simp [Dcache.nextFlushIndexQ, hf]
    rw [Nat.mod_eq_of_lt (by omega)] at hidx
    exact .inr (.inr ⟨trivial, by omega⟩)

theorem Run.flushed (h : Run s₀ inp) (hN : (after s₀ inp N).sys.cache.flushStateQ ≠ .reset) :
    ∀ n, N ≤ n → (after s₀ inp n).sys.cache.flushStateQ ≠ .reset := by
  intro n hn
  induction n, hn using Nat.le_induction with
  | base => exact hN
  | succ n _ ih => exact (h.inv n).locked.next_flush_ne_reset ih

/-! ### The writeback -/

/-- The number of beats of the writeback that are left after the current one. -/
def wbRank (s : DcacheMem p) : ℕ :=
  if s.sys.cache.wbIndexQ = 0 then 0 else 2 ^ p.offsetWidth - s.sys.cache.wbIndexQ

theorem Run.leadsTo_sent (h : Run s₀ inp) :
    LeadsTo (fun n => (after s₀ inp n).sys.cache.wbStateQ = .progress) fun n =>
      (after s₀ inp n).sys.cache.wbStateQ ≠ .progress := by
  intro n hn
  refine eventually_of_rank (P := fun n => (after s₀ inp n).sys.cache.wbStateQ = .progress)
    (fun n => (after s₀ inp n).wbRank) h.fair.readyC (fun k hk _ => ?_) hn
  have hstate : (after s₀ inp (k + 1)).sys.cache.wbStateQ =
      (after s₀ inp k).sys.cache.nextWbStateQ (inp k) := rfl
  have hidx : (after s₀ inp (k + 1)).sys.cache.wbIndexQ =
      (after s₀ inp k).sys.cache.nextWbIndexQ (inp k) := rfl
  have hstart : (after s₀ inp k).sys.cache.wbStart (inp k) = none := by
    simp [Dcache.wbStart, hk]
  cases hr : (inp k).memCReady
  · refine .inr ⟨by simp [hstate, Dcache.nextWbStateQ, hk, hr], ?_, by simp⟩
    simp [wbRank, hidx, Dcache.nextWbIndexQ, hstart, Dcache.wbBeat, hr]
  · by_cases hz : (after s₀ inp k).sys.cache.wbIndexQ = 0
    · left
      rw [hstate]
      simp only [Dcache.nextWbStateQ, hk, hr, hz, beq_self_eq_true, Bool.and_self, if_true]
      split_ifs <;> simp
    · have hlt := (h.live k).wbIndex
      have hnext : (after s₀ inp (k + 1)).sys.cache.wbIndexQ =
          ((after s₀ inp k).sys.cache.wbIndexQ + 1) % 2 ^ p.offsetWidth := by
        simp [hidx, Dcache.nextWbIndexQ, hstart, Dcache.wbBeat, hk, hr]
      have hdrop : (after s₀ inp (k + 1)).wbRank < (after s₀ inp k).wbRank := by
        rw [wbRank, wbRank, hnext, if_neg hz]
        by_cases htop : (after s₀ inp k).sys.cache.wbIndexQ + 1 = 2 ^ p.offsetWidth
        · rw [htop, Nat.mod_self, if_pos rfl]
          omega
        · rw [Nat.mod_eq_of_lt (by omega), if_neg (by omega)]
          omega
      exact .inr ⟨by simp [hstate, Dcache.nextWbStateQ, hk, hr, hz], hdrop.le, fun _ => hdrop⟩

theorem Run.leadsTo_released (h : Run s₀ inp) :
    LeadsTo (fun n => (after s₀ inp n).sys.cache.wbStateQ = .wait) fun n =>
      (after s₀ inp n).sys.cache.wbStateQ = .idle := by
  have hnext : ∀ k, (after s₀ inp k).sys.cache.wbStateQ = .wait →
      (after s₀ inp (k + 1)).sys.cache.wbStateQ =
        if (after s₀ inp k).sys.cache.evictCompletedQ || (inp k).memDRelAck.isSome
        then .idle else .wait := by
    intro k hk
    change (after s₀ inp k).sys.cache.nextWbStateQ (inp k) = _
    simp [Dcache.nextWbStateQ, Dcache.nextEvictCompletedQ, hk]
  intro n hn
  cases he : (after s₀ inp n).sys.cache.evictCompletedQ
  · obtain ⟨m, hm, hack⟩ := h.comes (h.fair.released n hn he)
    by_contra hno
    have hwait : ∀ k, n ≤ k → (after s₀ inp k).sys.cache.wbStateQ = .wait := by
      intro k hk
      induction k, hk using Nat.le_induction with
      | base => exact hn
      | succ k hk ih =>
          have hk' := hnext k ih
          split_ifs at hk'
          · exact absurd ⟨k + 1, by omega, hk'⟩ hno
          · exact hk'
    have hidle := hnext m (hwait m hm)
    rw [hack, Bool.or_true, if_pos rfl] at hidle
    exact hno ⟨m + 1, by omega, hidle⟩
  · exact ⟨n + 1, by omega, (hnext n hn).trans (by simp [he])⟩

/-- Every writeback ends. -/
theorem Run.leadsTo_wbIdle (h : Run s₀ inp) :
    LeadsTo (fun _ => True) fun n => (after s₀ inp n).sys.cache.wbStateQ = .idle := by
  have hrest : LeadsTo (fun n => (after s₀ inp n).sys.cache.wbStateQ ≠ .progress) fun n =>
      (after s₀ inp n).sys.cache.wbStateQ = .idle := by
    intro n hn
    cases hs : (after s₀ inp n).sys.cache.wbStateQ
    · exact ⟨n, le_rfl, hs⟩
    · exact absurd hs hn
    · exact h.leadsTo_released n hs
  intro n _
  by_cases hn : (after s₀ inp n).sys.cache.wbStateQ = .progress
  · exact h.leadsTo_sent.trans hrest n hn
  · exact hrest n hn

end Run

end DcacheMem

end Muntjac.Core

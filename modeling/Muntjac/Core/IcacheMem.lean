import Muntjac.Core.Icache
import Muntjac.Core.TranslationWalk

/-!
# The instruction cache and memory

The cache in a system with a frontend and a memory, and what it is for: a request is
answered with the word that memory holds at its physical address.

The frontend waits for the answer to a request before it makes the next one.  The
memory answers the page table reads from a fixed image, and the read of a line beat by
beat: every word of an answer is what the memory holds at some time after the read was
made.

## Main definitions

* `IcacheMem.step` — one cycle of the cache, of the request in flight and of the reads
  in flight.
* `IcacheMem.Env` — the rules of the frontend and of the memory.
* `IcacheMem.Regular` — the cycles in which the cache starts no walk that nobody waits
  for and overlooks no flush.
* `IcacheMem.Serves` — an answer is what memory held after the last flush.
-/

namespace Muntjac.Core

open Sync Tl

/-- A request that is not answered yet. -/
structure FetchReq where
  pc : ℕ
  atp : ℕ
  deriving DecidableEq, Repr

/-- A line read in flight: the cycle that issued it, and the beats transferred. -/
structure LineRead where
  line : ℕ
  issued : ℕ
  beats : ℕ
  denied : Bool
  deriving DecidableEq, Repr

/-- The cache, the request in flight, whether there has been a request, `req_atp` of the
last one, the first cycle after the last flush request, and the reads in flight. -/
structure IcacheMem (p : IcacheParams) where
  cache : Icache p
  pending : Option FetchReq
  started : Bool
  atp : ℕ
  flushed : ℕ
  reads : List ℕ
  fill : Option LineRead
  now : ℕ

namespace IcacheParams
variable (p : IcacheParams)

/-- The number of beats of a line. -/
def lineBeats : ℕ := 2 ^ (4 - p.interleaveWidth)

/-- The parameters that the module is made for: the sources differ, the sets are indexed
with page offset bits, the bus is as wide as a group of interleaved words, there is a
way for each of them, and addresses are those of Sv39. -/
structure Legal : Prop where
  sources : p.sourceBase ≠ p.ptwSourceBase
  setsWidth : p.setsWidth ≤ 6
  dataWidth : p.dataWidth = 32 * 2 ^ p.interleaveWidth
  interleaveWidth : 1 ≤ p.interleaveWidth ∧ p.interleaveWidth ≤ 4
  waysWidth : p.interleaveWidth ≤ p.waysWidth
  virtAddrLen : p.virtAddrLen = 39
  physAddrLen : 30 ≤ p.physAddrLen ∧ p.physAddrLen ≤ 56

end IcacheParams

namespace Icache
variable {p : IcacheParams}

/-- The read of a line is accepted in this cycle. -/
def fillIssued (s : Icache p) (i : IcacheIn) : Bool :=
  (s.refillA i).isSome && s.memAReadyMult i 1

end Icache

namespace IcacheMem
variable {p : IcacheParams}

/-- The line read in flight after a cycle. -/
def nextFill (s : IcacheMem p) (i : IcacheIn) : Option LineRead :=
  match s.cache.refillBeat i with
  | some d => (s.fill.filter fun r => r.beats + 1 != p.lineBeats).map fun r =>
      { r with beats := r.beats + 1, denied := d.denied }
  | none =>
      if s.cache.fillIssued i then some ⟨s.cache.refillReqAddress i, s.now, 0, false⟩ else s.fill

def step (s : IcacheMem p) (i : IcacheIn) : IcacheMem p where
  cache := s.cache.step i
  pending :=
    if i.reqValid then some ⟨i.reqPc, i.reqAtp⟩
    else if s.cache.answers then none else s.pending
  started := s.started || i.reqValid
  atp := if i.reqValid then i.reqAtp else s.atp
  flushed := if i.flushValid then s.now + 1 else s.flushed
  reads := s.cache.tr.nextReads (s.cache.translationIn i) s.reads
  fill := s.nextFill i
  now := s.now + 1

structure IsReset (s : IcacheMem p) : Prop where
  cache : s.cache.IsReset
  pending : s.pending = none
  started : s.started = false
  flushed : s.flushed = 0
  reads : s.reads = []
  fill : s.fill = none
  now : s.now = 0

/-- `mem t a` is word `a` of the memory in cycle `t`.  The words of a beat are read at
some time between the issue of the line read and the beat. -/
def Carries (mem : ℕ → ℕ → ℕ) (now : ℕ) (r : LineRead) (d : DMsg) : Prop :=
  ∀ j < 2 ^ p.interleaveWidth, ∃ t, r.issued ≤ t ∧ t ≤ now ∧
    slice d.data (32 * j + 31) (32 * j) =
      mem t (cat r.line 4 (r.beats * 2 ^ p.interleaveWidth + j))

/-- The rules of the frontend and of the memory, with the page tables `pt`. -/
structure Env (mem : ℕ → ℕ → ℕ) (pt : ℕ → ℕ) (root : ℕ) (s : IcacheMem p) (i : IcacheIn) :
    Prop where
  waits : i.reqValid = true → s.pending = none ∨ s.cache.answers = true
  width : i.reqPc < 2 ^ 64
  atpHeld : i.reqValid = false → s.pending.isSome = true → i.reqAtp = s.atp
  rooted : i.reqValid = true → atpMode i.reqAtp = true →
    slice i.reqAtp (p.physAddrLen - 13) 0 = root
  asked : ∀ d ∈ i.memDPtw p, s.reads ≠ [] ∧ d.size = 1
  walked : Translation.Reads p.busBytes pt s.reads (s.cache.translationIn i)
  filled : ∀ d ∈ i.memDRefill p, ∃ r ∈ s.fill, d.opcode = .accessAckData ∧ d.size = 6 ∧
    (0 < r.beats → d.denied = r.denied) ∧
    (d.denied = false → Carries (p := p) mem s.now r d)

/-- What the cache relies on beyond the rules: a translated request that faults early
finds its page in the TLB; a fence is not accepted while the flush machine is done or
in the cycle in which the sets of the TLB have just been flushed; and the first request
comes no later than the end of the flush after reset. -/
structure Regular (s : IcacheMem p) (i : IcacheIn) : Prop where
  earlyHits : i.reqValid = true → atpMode i.reqAtp = true → i.faultsEarly p = true →
    s.cache.tr.tlb.lookup p.tlbSetsWidth (slice i.reqPc 38 12) (atpAsid i.reqAtp) ≠ none
  fenceTaken : i.flushValid = true → s.cache.flushStateQ ≠ .done ∧
    (s.cache.flushStateQ = .idle → p.tlbSetsWidth = 0 ∨
      s.cache.tr.tlb.flushResp p.tlbSetsWidth = false)
  firstRequest : s.started = false → s.cache.flushReady = true → i.reqValid = true

/-! ## What an answer is -/

/-- The request is for the physical address `addr`: that of the tables if it is
translated, and its own otherwise. -/
def Locates (p : IcacheParams) (pt : ℕ → ℕ) (root : ℕ) (f : FetchReq) (addr : ℕ) : Prop :=
  if atpMode f.atp then
    ∃ l, Sv39.walk p.physAddrLen pt root (slice f.pc 38 12) = some l ∧
      addr = cat l.ppn 12 (f.pc % 2 ^ 12)
  else addr = f.pc

/-- The answer in this cycle is the word of memory at the address of the request `f`, read
after the last flush request. -/
def Serves (mem : ℕ → ℕ → ℕ) (pt : ℕ → ℕ) (root : ℕ) (s : IcacheMem p) (f : FetchReq) : Prop :=
  ∃ addr, Locates p pt root f addr ∧
    ∃ t, s.flushed ≤ t ∧ t ≤ s.now ∧ s.cache.respInstr = mem t (addr / 4)

section Run
variable (s₀ : IcacheMem p) (inp : ℕ → IcacheIn)

/-- The system after `n` cycles. -/
def after (n : ℕ) : IcacheMem p := run step s₀ inp n

end Run

end IcacheMem

end Muntjac.Core

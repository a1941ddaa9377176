import Muntjac.Core.DataRam
import Muntjac.Core.TagRam
import Muntjac.Core.Translation
import Muntjac.Tl.Burst
import Muntjac.Sync.Run

/-!
# The instruction cache

`muntjac_icache`: a physically tagged cache that is not coherent.  One request is in
flight at a time; it is answered from the tag and data RAMs, after a page walk or
after a refill.  A request whose reason is a fence flushes the cache and the TLB
before it is answered.

The registers are one record, every wire of the source is a function of the registers
and of the inputs, and `Icache.step` collects the next values.  The register slice
on the memory port only delays messages and belongs to the memory side here.
-/

namespace Muntjac.Core

open Sync Tl

structure IcacheParams where
  dataWidth : ℕ
  waysWidth : ℕ
  setsWidth : ℕ
  virtAddrLen : ℕ
  physAddrLen : ℕ
  sourceBase : ℕ
  ptwSourceBase : ℕ
  tlbNumWays : ℕ
  tlbSetsWidth : ℕ
  deriving DecidableEq, Repr

namespace IcacheParams

def numWays (p : IcacheParams) : ℕ := 2 ^ p.waysWidth

instance (p : IcacheParams) : NeZero p.numWays := ⟨(Nat.two_pow_pos _).ne'⟩

def busBytes (p : IcacheParams) : ℕ := p.dataWidth / 8
def interleaveWidth (p : IcacheParams) : ℕ := clog2 (p.dataWidth / 32)
def interleaveMask (p : IcacheParams) : ℕ := 2 ^ p.interleaveWidth - 1

/-- The geometry of the burst tracker on the memory port. -/
def burst (p : IcacheParams) : BurstParams := ⟨clog2 p.busBytes, 6⟩

def translation (p : IcacheParams) : TranslationParams :=
  ⟨p.physAddrLen, p.tlbSetsWidth, p.ptwSourceBase⟩

@[simp] theorem translation_tlbSetsWidth (p : IcacheParams) :
    p.translation.tlbSetsWidth = p.tlbSetsWidth := rfl

end IcacheParams

/-- A tag without the bits of the set index and of the line offset. -/
structure IcacheTag where
  tag : ℕ
  valid : Bool
  deriving DecidableEq, Repr, Inhabited

inductive RefillState
  | idle
  | progress
  deriving DecidableEq, Repr

inductive IcacheFlushState
  | reset
  | idle
  | lock
  | done
  deriving DecidableEq, Repr

inductive IcacheMissState
  | idle
  | fill
  deriving DecidableEq, Repr

inductive IcacheState
  | idle
  | fetch
  | replay
  | waitTlb
  | fill
  | exception
  | flush
  deriving DecidableEq, Repr

inductive IcacheExc
  | instrPageFault
  | instrAccessFault
  deriving DecidableEq, Repr

/-- The registers of the cache. -/
structure Icache (p : IcacheParams) where
  memAArb : ChannelArb 2
  reqBurst : Burst
  gntBurst : Burst
  tagRam : TagRam IcacheTag p.numWays
  tagReadPhysicalLatch : Bool
  tagReadAddrLatch : ℕ
  dataRam : DataRam
  refillStateQ : RefillState
  refillTrackerValid : Bool
  tr : Translation p.tlbNumWays
  evictWayQ : Fin p.numWays
  flushStateQ : IcacheFlushState
  flushTrackerValid : Bool
  flushTlbPendingQ : Bool
  flushIndexQ : ℕ
  missStateQ : IcacheMissState
  missRefillSentQ : Bool
  stateQ : IcacheState
  exCodeQ : IcacheExc
  addressQ : ℕ
  atpModeQ : Bool
  prvQ : Bool
  sumQ : Bool
  wayQ : Fin p.numWays

/-- The inputs of one cycle: the request of the frontend and the memory port. -/
structure IcacheIn where
  reqValid : Bool
  reqPc : ℕ
  reqReason : ℕ
  reqPrv : Bool
  reqSum : Bool
  reqAtp : ℕ
  memAReady : Bool
  memD : Option DMsg
  deriving DecidableEq, Repr

namespace IcacheIn

/-- `req_reason ==? 4'b1x11`. -/
def isFence (i : IcacheIn) : Bool :=
  i.reqReason.testBit 3 && i.reqReason.testBit 1 && i.reqReason.testBit 0

def canonicalVirtual (p : IcacheParams) (i : IcacheIn) : Bool :=
  slice i.reqPc 63 (p.virtAddrLen - 1) == 0 ||
    slice i.reqPc 63 (p.virtAddrLen - 1) == 2 ^ (65 - p.virtAddrLen) - 1

def canonicalPhysical (p : IcacheParams) (i : IcacheIn) : Bool :=
  slice i.reqPc 63 p.physAddrLen == 0

/-- The request is answered with an exception without being looked up. -/
def faultsEarly (p : IcacheParams) (i : IcacheIn) : Bool :=
  if atpMode i.reqAtp then !i.canonicalVirtual p else !i.canonicalPhysical p

/-- The `flush_valid` that a fence raises. -/
def flushValid (i : IcacheIn) : Bool := i.reqValid && i.isFence

/-- Channel D, without the answers to the walker. -/
def memDRefill (p : IcacheParams) (i : IcacheIn) : Option DMsg :=
  i.memD.filter fun d => d.source != p.ptwSourceBase

/-- The answers to the walker. -/
def memDPtw (p : IcacheParams) (i : IcacheIn) : Option DMsg :=
  i.memD.filter fun d => d.source == p.ptwSourceBase

end IcacheIn

/-- What an access in `StateFetch` turns out to be. -/
inductive FetchOutcome
  | conflict
  | tlbMiss
  | pageFault
  | hit
  | miss
  deriving DecidableEq, Repr

namespace Icache
variable {p : IcacheParams}

/-! ## Lock arbitration -/

def nothingInProgress (s : Icache p) : Bool := !(s.refillTrackerValid || s.flushTrackerValid)

def refillLockAcq (s : Icache p) (i : IcacheIn) : Bool :=
  s.refillStateQ == .idle && (i.memDRefill p).isSome

def refillLocking (s : Icache p) (i : IcacheIn) : Bool := s.nothingInProgress && s.refillLockAcq i

def flushLockAcq (s : Icache p) : Bool := s.flushStateQ == .lock

def flushLocking (s : Icache p) (i : IcacheIn) : Bool :=
  s.nothingInProgress && !s.refillLockAcq i && s.flushLockAcq

/-! ## Tag comparison -/

/-- The line address of the last tag read, translated if it was virtual. -/
def tagReadAddrLatchPhys (s : Icache p) : ℕ :=
  cat (if s.tagReadPhysicalLatch then s.tagReadAddrLatch / 2 ^ 6 else s.tr.ppn) 6
    (s.tagReadAddrLatch % 2 ^ 6) % 2 ^ (p.physAddrLen - 6)

def hit (s : Icache p) (k : Fin p.numWays) : Bool :=
  (s.tagRam.rdata k).valid && (s.tagRam.rdata k).tag == s.tagReadAddrLatchPhys / 2 ^ p.setsWidth

def hitWay (s : Icache p) : Fin p.numWays :=
  Core.hitWay s.hit (fun k => !(s.tagRam.rdata k).valid) s.evictWayQ

def hitData (s : Icache p) : ℕ := s.dataRam.readData p.interleaveMask s.hitWay

/-- `StateFetch`: conflicts first, then the translation, then the tags. -/
def fetchOutcome (s : Icache p) : FetchOutcome :=
  if !s.nothingInProgress then .conflict
  else if s.atpModeQ && !s.tr.ppnValid then .tlbMiss
  else if s.atpModeQ && (!s.tr.ppnPerm.valid || !s.tr.ppnPerm.executable ||
      (!s.tr.ppnPerm.user && !s.prvQ) || (s.tr.ppnPerm.user && s.prvQ && !s.sumQ)) then .pageFault
  else if (firstIdx s.hit).isSome then .hit
  else .miss

/-! ## The answer to the frontend -/

def respValid (s : Icache p) : Bool := s.stateQ == .fetch && s.fetchOutcome == .hit
def exValid (s : Icache p) : Bool := s.stateQ == .exception
def respInstr (s : Icache p) : ℕ := s.hitData
def respExCode (s : Icache p) : IcacheExc := s.exCodeQ

/-- `cache_d2h_o.resp_valid`. -/
def answers (s : Icache p) : Bool := s.respValid || s.exValid

/-! ## Refill -/

def addressPhys (s : Icache p) (i : IcacheIn) : ℕ :=
  if atpMode i.reqAtp then cat s.tr.ppn 12 (s.addressQ % 2 ^ 12) % 2 ^ p.physAddrLen
  else s.addressQ % 2 ^ p.physAddrLen

/-- The line that is being refilled. -/
def refillReqAddress (s : Icache p) (i : IcacheIn) : ℕ := s.addressPhys i / 2 ^ 6

/-- The beat of the refill in this cycle. -/
def refillBeat (s : Icache p) (i : IcacheIn) : Option DMsg :=
  if s.refillStateQ == .progress then i.memDRefill p else none

def memDLast (s : Icache p) (d : DMsg) : Bool := s.gntBurst.last p.burst d.opcode.hasData d.size
def memDIdx (s : Icache p) (d : DMsg) : ℕ := s.gntBurst.idx p.burst d.opcode.hasData d.size

/-- The last beat of a refill, if it arrives in this cycle. -/
def refillLast (s : Icache p) (i : IcacheIn) : Option DMsg :=
  (s.refillBeat i).filter fun d => s.memDLast d

def refillTagWrite (s : Icache p) (i : IcacheIn) : Option (TagReq IcacheTag p.numWays) :=
  ((s.refillLast i).filter fun d => !d.denied).map fun _ =>
    .write (s.refillReqAddress i % 2 ^ p.setsWidth) (fun k => s.wayQ == k)
      ⟨s.refillReqAddress i / 2 ^ p.setsWidth, true⟩

def refillDataWrite (s : Icache p) (i : IcacheIn) : Option DataReq :=
  ((s.refillBeat i).filter fun d => !d.denied).map fun d =>
    { write := true
      addr := cat (s.refillReqAddress i % 2 ^ p.setsWidth) 4
        (s.memDIdx d * 2 ^ p.interleaveWidth % 2 ^ 4)
      way := s.wayQ
      wide := true
      wdata := fun j => slice d.data (32 * j + 31) (32 * j) }

def nextRefillStateQ (s : Icache p) (i : IcacheIn) : RefillState :=
  match s.refillStateQ with
  | .idle => if s.refillLocking i then .progress else .idle
  | .progress => if (s.refillLast i).isSome then .idle else .progress

def nextRefillTrackerValid (s : Icache p) (i : IcacheIn) : Bool :=
  match s.refillStateQ with
  | .idle => s.refillLocking i || s.refillTrackerValid
  | .progress => !(s.refillLast i).isSome && s.refillTrackerValid

/-! ## Flush -/

def flushLast (s : Icache p) : Bool := s.flushIndexQ == 2 ^ p.setsWidth - 1

def flushTagWrite (s : Icache p) : Option (TagReq IcacheTag p.numWays) :=
  if s.flushStateQ == .reset then some (.write s.flushIndexQ (fun _ => true) ⟨0, false⟩) else none

def flushReady (s : Icache p) : Bool := s.flushStateQ == .done && !s.flushTlbPendingQ

def nextFlushStateQ (s : Icache p) (i : IcacheIn) : IcacheFlushState :=
  match s.flushStateQ with
  | .reset => if s.flushLast then .done else .reset
  | .idle => if i.flushValid then .lock else .idle
  | .lock => if s.flushLocking i then .reset else .lock
  | .done => if s.flushTlbPendingQ then .done else .idle

def nextFlushTrackerValid (s : Icache p) (i : IcacheIn) : Bool :=
  match s.flushStateQ with
  | .reset => !s.flushLast && s.flushTrackerValid
  | .lock => s.flushLocking i || s.flushTrackerValid
  | .idle | .done => s.flushTrackerValid

def nextFlushTlbPendingQ (s : Icache p) (i : IcacheIn) : Bool :=
  if s.flushStateQ == .idle && i.flushValid then true
  else s.flushTlbPendingQ && !s.tr.tlb.flushResp p.tlbSetsWidth

def nextFlushIndexQ (s : Icache p) : ℕ :=
  if s.flushStateQ == .reset then (s.flushIndexQ + 1) % 2 ^ p.setsWidth else s.flushIndexQ

/-! ## Miss handling and channel A -/

/-- `miss_resp_replay`, `miss_resp_exception`: the refill ended, and whether it was denied. -/
def missResp (s : Icache p) (i : IcacheIn) : Option Bool :=
  if s.missStateQ == .fill then (s.refillLast i).map DMsg.denied else none

def refillA (s : Icache p) (i : IcacheIn) : Option AMsg :=
  if s.missStateQ == .fill && !s.missRefillSentQ then
    some
      { opcode := .get
        param := 0
        size := 6
        source := p.sourceBase
        address := s.addressPhys i / 2 ^ 6 * 2 ^ 6
        mask := 2 ^ p.busBytes - 1
        corrupt := false
        data := 0 }
  else none

/-- The requests for channel A: the walker's and the refill's. -/
def memAMult (s : Icache p) (i : IcacheIn) (k : Fin 2) : Option AMsg :=
  if k = 0 then s.tr.ptwA p.translation p.busBytes else s.refillA i

/-- The message on channel A. -/
def memA (s : Icache p) (i : IcacheIn) : Option AMsg := s.memAArb.msg (s.memAMult i)

def memAReadyMult (s : Icache p) (i : IcacheIn) (k : Fin 2) : Bool :=
  s.memAArb.ready (s.memAMult i) i.memAReady k

def memALast (s : Icache p) (a : AMsg) : Bool := s.reqBurst.last p.burst a.opcode.hasData a.size

def nextReqBurst (s : Icache p) (i : IcacheIn) : Burst :=
  match s.memA i with
  | some a => if i.memAReady then s.reqBurst.next p.burst a.opcode.hasData a.size else s.reqBurst
  | none => s.reqBurst

/-- `mem_d_ready`. -/
def memDReady (s : Icache p) (i : IcacheIn) : Bool :=
  if (i.memDRefill p).isSome then s.refillStateQ == .progress
  else if (i.memDPtw p).isSome then s.tr.ptwAValid else true

def nextGntBurst (s : Icache p) (i : IcacheIn) : Burst :=
  match i.memD with
  | some d => if s.memDReady i then s.gntBurst.next p.burst d.opcode.hasData d.size else s.gntBurst
  | none => s.gntBurst

def missReqValid (s : Icache p) : Bool := s.stateQ == .fetch && s.fetchOutcome == .miss

def nextMissStateQ (s : Icache p) (i : IcacheIn) : IcacheMissState :=
  match s.missStateQ with
  | .idle => if s.missReqValid then .fill else .idle
  | .fill => if (s.missResp i).isSome then .idle else .fill

def nextMissRefillSentQ (s : Icache p) (i : IcacheIn) : Bool :=
  match s.missStateQ with
  | .idle => !s.missReqValid && s.missRefillSentQ
  | .fill => s.memAReadyMult i 1 || s.missRefillSentQ

/-! ## The RAM ports -/

/-- `address_d`. -/
def nextAddressQ (s : Icache p) (i : IcacheIn) : ℕ := if i.reqValid then i.reqPc else s.addressQ

/-- `access_tag_read_req` and `access_data_read_req`. -/
def accessReadReq (s : Icache p) (i : IcacheIn) : Bool :=
  i.reqValid || (s.stateQ == .replay && s.nothingInProgress)

/-- The line address of the access. -/
def accessTagReadAddr (s : Icache p) (i : IcacheIn) : ℕ :=
  slice (s.nextAddressQ i) (max p.virtAddrLen p.physAddrLen - 1) 6

def accessTagReadGnt (s : Icache p) (i : IcacheIn) : Bool :=
  s.accessReadReq i && (s.refillTagWrite i).isNone && s.flushTagWrite.isNone

def accessDataReadGnt (s : Icache p) (i : IcacheIn) : Bool :=
  s.accessReadReq i && (s.refillDataWrite i).isNone

/-- The tag port: refill, then flush, then access. -/
def tagReq (s : Icache p) (i : IcacheIn) : Option (TagReq IcacheTag p.numWays) :=
  (s.refillTagWrite i).or (s.flushTagWrite.or
    (if s.accessReadReq i then some (.read (s.accessTagReadAddr i % 2 ^ p.setsWidth)) else none))

/-- The data port: refill, then access. -/
def dataReq (s : Icache p) (i : IcacheIn) : Option DataReq :=
  (s.refillDataWrite i).or
    (if s.accessReadReq i then
      some
        { write := false
          addr := slice (s.nextAddressQ i) (p.setsWidth + 5) 2
          way := 0
          wide := false
          wdata := fun _ => 0 }
    else none)

/-! ## The main state machine -/

/-- `state_d` after the `unique case (state_q)`. -/
def caseState (s : Icache p) (i : IcacheIn) : IcacheState :=
  match s.stateQ with
  | .idle => .idle
  | .fetch =>
      match s.fetchOutcome with
      | .conflict => .replay
      | .tlbMiss => .waitTlb
      | .pageFault => .exception
      | .hit => .idle
      | .miss => .fill
  | .replay =>
      if s.nothingInProgress && s.accessTagReadGnt i && s.accessDataReadGnt i then .fetch
      else .replay
  | .waitTlb => if s.tr.ppnValid then .replay else .waitTlb
  | .fill =>
      match s.missResp i with
      | some false => .replay
      | some true => .exception
      | none => .fill
  | .exception => .idle
  | .flush => if s.flushReady then .replay else .flush

/-- `state_d`: a request takes the machine over. -/
def nextStateQ (s : Icache p) (i : IcacheIn) : IcacheState :=
  if i.reqValid then
    if i.faultsEarly p then .exception
    else if i.isFence then .flush
    else if s.accessTagReadGnt i && s.accessDataReadGnt i then .fetch
    else .replay
  else s.caseState i

def nextExCodeQ (s : Icache p) (i : IcacheIn) : IcacheExc :=
  if i.reqValid && i.faultsEarly p then
    if atpMode i.reqAtp then .instrPageFault else .instrAccessFault
  else if s.stateQ == .fetch && s.fetchOutcome == .pageFault then .instrPageFault
  else if s.stateQ == .fill && s.missResp i == some true then .instrAccessFault
  else s.exCodeQ

/-! ## One cycle -/

def translationIn (s : Icache p) (i : IcacheIn) : TranslationIn where
  reqValid := i.reqValid
  reqAtp := i.reqAtp
  reqAddress := i.reqPc
  ptwReqVpn := slice s.addressQ (p.virtAddrLen - 1) 12
  flushValid := i.flushValid
  aReady := s.memAReadyMult i 0
  dValid := (i.memDPtw p).isSome
  dData := ((i.memDPtw p).getD default).data

def step (s : Icache p) (i : IcacheIn) : Icache p where
  memAArb := s.memAArb.next (s.memAMult i) i.memAReady (((s.memA i).map s.memALast).getD false)
  reqBurst := s.nextReqBurst i
  gntBurst := s.nextGntBurst i
  tagRam := s.tagRam.step (s.tagReq i)
  tagReadPhysicalLatch :=
    if s.accessTagReadGnt i then !atpMode i.reqAtp else s.tagReadPhysicalLatch
  tagReadAddrLatch := if s.accessTagReadGnt i then s.accessTagReadAddr i else s.tagReadAddrLatch
  dataRam := s.dataRam.step p.interleaveMask (s.dataReq i)
  refillStateQ := s.nextRefillStateQ i
  refillTrackerValid := s.nextRefillTrackerValid i
  tr := s.tr.step p.translation p.busBytes (s.translationIn i)
  evictWayQ := if s.missReqValid then s.evictWayQ + 1 else s.evictWayQ
  flushStateQ := s.nextFlushStateQ i
  flushTrackerValid := s.nextFlushTrackerValid i
  flushTlbPendingQ := s.nextFlushTlbPendingQ i
  flushIndexQ := s.nextFlushIndexQ
  missStateQ := s.nextMissStateQ i
  missRefillSentQ := s.nextMissRefillSentQ i
  stateQ := s.nextStateQ i
  exCodeQ := s.nextExCodeQ i
  addressQ := s.nextAddressQ i
  atpModeQ := if i.reqValid then atpMode i.reqAtp else s.atpModeQ
  prvQ := if i.reqValid then i.reqPrv else s.prvQ
  sumQ := if i.reqValid then i.reqSum else s.sumQ
  wayQ := if s.missReqValid then s.hitWay else s.wayQ

/-- The registers after reset.  The RAMs and the registers that the source does not
reset are arbitrary. -/
structure IsReset (s : Icache p) : Prop where
  memAArb : s.memAArb = .reset
  reqBurst : s.reqBurst = .reset p.burst
  gntBurst : s.gntBurst = .reset p.burst
  tagReadPhysicalLatch : s.tagReadPhysicalLatch = true
  refillStateQ : s.refillStateQ = .idle
  refillTrackerValid : s.refillTrackerValid = false
  tr : s.tr.IsReset p.translation
  evictWayQ : s.evictWayQ = 0
  flushStateQ : s.flushStateQ = .reset
  flushTrackerValid : s.flushTrackerValid = true
  flushTlbPendingQ : s.flushTlbPendingQ = false
  flushIndexQ : s.flushIndexQ = 0
  missStateQ : s.missStateQ = .idle
  missRefillSentQ : s.missRefillSentQ = false
  stateQ : s.stateQ = .flush
  addressQ : s.addressQ = 0
  atpModeQ : s.atpModeQ = false

end Icache

end Muntjac.Core

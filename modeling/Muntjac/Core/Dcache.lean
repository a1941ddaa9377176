import Muntjac.Core.DataRam
import Muntjac.Core.DcacheOps
import Muntjac.Core.TagRam
import Muntjac.Core.Translation
import Muntjac.Sync.Fifo
import Muntjac.Sync.Run
import Muntjac.Tl.Burst

/-!
# The data cache

`muntjac_dcache`: a physically tagged, coherent write-back cache.  Six machines share
the tag and data RAMs: the access machine, the miss handler, the refill, the probe,
the writeback and the flush.  A lock is held by at most one of refill, probe,
writeback and flush; the access machine does not take the lock but checks, one cycle
after its read, that nobody holds it.

The registers are one record, every wire of the source is a function of the registers
and of the inputs, and `Dcache.step` collects the next values.  The register slice
on the memory port only delays messages and belongs to the memory side here.
-/

namespace Muntjac.Core

open Sync Tl

structure DcacheParams where
  dataWidth : ℕ
  waysWidth : ℕ
  setsWidth : ℕ
  virtAddrLen : ℕ
  physAddrLen : ℕ
  sourceBase : ℕ
  ptwSourceBase : ℕ
  tlbNumWays : ℕ
  tlbSetsWidth : ℕ
  deriving DecidableEq, Repr

namespace DcacheParams

def numWays (p : DcacheParams) : ℕ := 2 ^ p.waysWidth

instance (p : DcacheParams) : NeZero p.numWays := ⟨(Nat.two_pow_pos _).ne'⟩

def logicAddrLen (p : DcacheParams) : ℕ := max p.virtAddrLen p.physAddrLen
def busBytes (p : DcacheParams) : ℕ := p.dataWidth / 8
def nonBurstSize (p : DcacheParams) : ℕ := clog2 p.busBytes
def interleaveWidth (p : DcacheParams) : ℕ := clog2 (p.dataWidth / 64)
def numInterleave (p : DcacheParams) : ℕ := 2 ^ p.interleaveWidth
def interleaveMask (p : DcacheParams) : ℕ := p.numInterleave - 1

/-- The width of a beat index in a line. -/
def offsetWidth (p : DcacheParams) : ℕ := 3 - p.interleaveWidth

/-- The depth of the refill FIFO: the beats of a line. -/
def refillDepth (p : DcacheParams) : ℕ := 2 ^ (6 - p.nonBurstSize)

/-- The geometry of the burst tracker on the memory port. -/
def burst (p : DcacheParams) : BurstParams := ⟨p.nonBurstSize, 6⟩

def translation (p : DcacheParams) : TranslationParams :=
  ⟨p.physAddrLen, p.tlbSetsWidth, p.ptwSourceBase⟩

@[simp] theorem translation_tlbSetsWidth (p : DcacheParams) :
    p.translation.tlbSetsWidth = p.tlbSetsWidth := rfl

end DcacheParams

/-- A tag without the bits of the set index and of the line offset. -/
structure DcacheTag where
  tag : ℕ
  writable : Bool
  dirty : Bool
  valid : Bool
  deriving DecidableEq, Repr, Inhabited

inductive WbState
  | idle
  | progress
  | wait
  deriving DecidableEq, Repr

inductive DcacheRefillState
  | idle
  | progress
  deriving DecidableEq, Repr

inductive ProbeState
  | idle
  | check
  deriving DecidableEq, Repr

inductive DcacheFlushState
  | reset
  | idle
  | readTag
  | check
  | done
  deriving DecidableEq, Repr

inductive DcacheMissState
  | idle
  | fill
  | uncached
  deriving DecidableEq, Repr

inductive DcacheState
  | idle
  | fetch
  | replay
  | waitTlb
  | fill
  | exception
  deriving DecidableEq, Repr

inductive DcacheExc
  | loadMisalign
  | storeMisalign
  | loadAccessFault
  | storeAccessFault
  | loadPageFault
  | storePageFault
  deriving DecidableEq, Repr

/-- An item of the refill FIFO. -/
structure RefillBeat where
  msg : DMsg
  last : Bool
  idx : ℕ
  deriving DecidableEq, Repr

/-- A request to the writeback machine; `active` marks a release, otherwise it is the
answer to a probe. -/
structure WbReq (n : ℕ) where
  active : Bool
  way : Fin n
  address : ℕ
  dirty : Bool
  param : ℕ
  deriving DecidableEq, Repr

/-- The registers of the cache. -/
structure Dcache (p : DcacheParams) where
  respValidQ : Bool
  respValueQ : BitVec 64
  memAArb : ChannelArb 2
  reqBurst : Burst
  gntBurst : Burst
  tagRam : TagRam DcacheTag p.numWays
  tagReadPhysicalLatch : Bool
  tagReadAddrLatch : ℕ
  dataRam : DataRam
  wbStateQ : WbState
  wbWayQ : Fin p.numWays
  wbIndexQ : ℕ
  wbOpcodeQ : COp
  wbParamQ : ℕ
  wbAddressQ : ℕ
  evictCompletedQ : Bool
  wbDataSkid : ℕ
  wbDataSkidValid : Bool
  refillFifo : Fifo RefillBeat
  refillBeatSavedQ : Bool
  refillBeatAckedQ : Bool
  refillStateQ : DcacheRefillState
  refillTrackerValid : Bool
  tr : Translation p.tlbNumWays
  evictWayQ : Fin p.numWays
  probeStateQ : ProbeState
  probeTrackerValid : Bool
  probeAddressQ : ℕ
  probeParamQ : ℕ
  flushStateQ : DcacheFlushState
  flushTrackerValid : Bool
  flushTlbPendingQ : Bool
  flushIndexQ : ℕ
  missStateQ : DcacheMissState
  missUpgradeQ : Bool
  missRefillSentQ : Bool
  missUncachedSentQ : Bool
  stateQ : DcacheState
  exCodeQ : DcacheExc
  addressQ : ℕ
  valueQ : BitVec 64
  maskQ : BitVec 8
  sizeQ : Fin 4
  sizeExtQ : SizeExt
  opQ : MemOp
  amoQ : BitVec 7
  reservedQ : Bool
  reservationQ : ℕ
  reservationFailedQ : Bool
  wayQ : Fin p.numWays
  accessLockAddr : ℕ
  accessLockTimerQ : ℕ

/-- The inputs of one cycle: the request of the backend and the memory port. -/
structure DcacheIn where
  reqValid : Bool
  reqAddress : ℕ
  reqValue : BitVec 64
  reqOp : MemOp
  reqSize : Fin 4
  reqSizeExt : SizeExt
  reqAmo : BitVec 7
  reqPrv : Bool
  reqSum : Bool
  reqMxr : Bool
  reqAtp : ℕ
  notifValid : Bool
  memAReady : Bool
  memB : Option BMsg
  memCReady : Bool
  memD : Option DMsg
  memEReady : Bool
  deriving DecidableEq, Repr

namespace DcacheIn

def canonicalVirtual (p : DcacheParams) (i : DcacheIn) : Bool :=
  slice i.reqAddress 63 (p.virtAddrLen - 1) == 0 ||
    slice i.reqAddress 63 (p.virtAddrLen - 1) == 2 ^ (65 - p.virtAddrLen) - 1

def canonicalPhysical (p : DcacheParams) (i : DcacheIn) : Bool :=
  slice i.reqAddress 63 p.physAddrLen == 0

/-- The exception of a request that is not looked up: it is misaligned or not
canonical. -/
def earlyFault (p : DcacheParams) (i : DcacheIn) : Option DcacheExc :=
  if !atpMode i.reqAtp && !i.canonicalPhysical p then
    some (if i.reqOp = .load then .loadAccessFault else .storeAccessFault)
  else if atpMode i.reqAtp && !i.canonicalVirtual p then
    some (if i.reqOp = .load then .loadPageFault else .storePageFault)
  else if !isAligned i.reqAddress i.reqSize then
    some (if i.reqOp = .load then .loadMisalign else .storeMisalign)
  else none

/-- Grants on channel D. -/
def memDRefill (i : DcacheIn) : Option DMsg :=
  i.memD.filter fun d => d.opcode == .grant || d.opcode == .grantData

/-- Release acknowledgements on channel D. -/
def memDRelAck (i : DcacheIn) : Option DMsg := i.memD.filter fun d => d.opcode == .releaseAck

/-- Answers to uncached accesses on channel D. -/
def memDAccess (p : DcacheParams) (i : DcacheIn) : Option DMsg :=
  i.memD.filter fun d => d.source != p.ptwSourceBase &&
    (d.opcode == .accessAck || d.opcode == .accessAckData)

/-- Answers to the walker on channel D. -/
def memDPtw (p : DcacheParams) (i : DcacheIn) : Option DMsg :=
  i.memD.filter fun d => d.source == p.ptwSourceBase

end DcacheIn

/-- What an access in `StateFetch` turns out to be. -/
inductive AccessOutcome
  | conflict
  | tlbMiss
  | pageFault
  | hit
  | scFail
  | miss
  deriving DecidableEq, Repr

namespace Dcache
variable {p : DcacheParams}

/-! ## Tag comparison -/

/-- The line address of the last tag read, translated if it was virtual. -/
def tagReadAddrLatchPhys (s : Dcache p) : ℕ :=
  cat (if s.tagReadPhysicalLatch then s.tagReadAddrLatch / 2 ^ 6 else s.tr.ppn) 6
    (s.tagReadAddrLatch % 2 ^ 6) % 2 ^ (p.physAddrLen - 6)

def hit (s : Dcache p) (k : Fin p.numWays) : Bool :=
  (s.tagRam.rdata k).valid && (s.tagRam.rdata k).tag == s.tagReadAddrLatchPhys / 2 ^ p.setsWidth

/-- `|hit`. -/
def anyHit (s : Dcache p) : Bool := (firstIdx s.hit).isSome

def hitWay (s : Dcache p) : Fin p.numWays :=
  Core.hitWay s.hit (fun k => !(s.tagRam.rdata k).valid) s.evictWayQ

def hitTag (s : Dcache p) : DcacheTag := s.tagRam.rdata s.hitWay

def hitData (s : Dcache p) : BitVec 64 :=
  .ofNat 64 (s.dataRam.readData p.interleaveMask s.hitWay)

/-! ## The access in `StateFetch` -/

def writebackTrackerValid (s : Dcache p) : Bool := s.wbStateQ != .idle

def nothingInProgress (s : Dcache p) : Bool :=
  !(s.refillTrackerValid || s.probeTrackerValid || s.writebackTrackerValid || s.flushTrackerValid)

/-- The permission check on a translated access. -/
def permFault (s : Dcache p) (i : DcacheIn) : Bool :=
  !s.tr.ppnPerm.valid || (!s.tr.ppnPerm.writable && s.opQ != .load) ||
    (!s.tr.ppnPerm.readable && !i.reqMxr) || (!s.tr.ppnPerm.user && !i.reqPrv) ||
    (s.tr.ppnPerm.user && i.reqPrv && !i.reqSum)

/-- Conflicts first, then the translation, then the tags. -/
def outcome (s : Dcache p) (i : DcacheIn) : AccessOutcome :=
  if !s.nothingInProgress then .conflict
  else if atpMode i.reqAtp && !s.tr.ppnValid then .tlbMiss
  else if atpMode i.reqAtp && s.permFault i then .pageFault
  else if s.anyHit && (s.hitTag.writable || s.opQ == .load) then .hit
  else if s.opQ == .sc then .scFail
  else .miss

/-- The access is in `StateFetch` and turns out to be `o`. -/
def fetches (s : Dcache p) (i : DcacheIn) (o : AccessOutcome) : Bool :=
  s.stateQ == .fetch && s.outcome i == o

/-- `cache_d2h_o.req_ready`. -/
def reqReady (s : Dcache p) (i : DcacheIn) : Bool :=
  match s.stateQ with
  | .idle => true
  | .fetch =>
      s.nothingInProgress && (!atpMode i.reqAtp || s.tr.ppnValid) &&
        !(atpMode i.reqAtp && s.permFault i) &&
        ((s.anyHit && (s.hitTag.writable || s.opQ == .load)) || s.opQ == .sc)
  | .replay | .waitTlb | .fill | .exception => false

def addressPhys (s : Dcache p) (i : DcacheIn) : ℕ :=
  if atpMode i.reqAtp then cat s.tr.ppn 12 (s.addressQ % 2 ^ 12) % 2 ^ p.physAddrLen
  else s.addressQ % 2 ^ p.physAddrLen

/-- The set that the access addresses, `address_q[6+:SetsWidth]`. -/
def accessSet (s : Dcache p) : ℕ := s.addressQ / 2 ^ 6 % 2 ^ p.setsWidth

/-- The hit of this cycle performs its write. -/
def accessDataWriteReq (s : Dcache p) (i : DcacheIn) : Bool :=
  s.fetches i .hit && !s.reservationFailedQ && s.opQ.writes

def accessTagWrite (s : Dcache p) (i : DcacheIn) : Option (TagReq DcacheTag p.numWays) :=
  if s.fetches i .miss then
    some (.write s.accessSet (fun k => k == s.hitWay)
      { s.hitTag with dirty := true, valid := false })
  else if s.accessDataWriteReq i && !s.hitTag.dirty then
    some (.write s.accessSet (fun k => k == s.hitWay) { s.hitTag with dirty := true })
  else none

def accessLockAcq (s : Dcache p) (i : DcacheIn) : Bool := (s.accessTagWrite i).isSome

def amoResult (s : Dcache p) : BitVec 64 := doAmoOp s.hitData s.valueQ s.maskQ s.amoQ

def accessDataWrite (s : Dcache p) (i : DcacheIn) : Option DataReq :=
  if s.accessDataWriteReq i then
    some
      { write := true
        addr := slice s.addressQ (p.setsWidth + 5) 3
        way := s.hitWay
        wide := false
        wdata := fun _ => (combineWord s.hitData s.amoResult s.maskQ).toNat }
  else none

/-- The release of a victim that is held exclusively. -/
def wbRelReq (s : Dcache p) (i : DcacheIn) : Option (WbReq p.numWays) :=
  if s.fetches i .miss && s.hitTag.valid && s.hitTag.writable then
    some
      { active := true
        way := s.hitWay
        address := cat s.hitTag.tag p.setsWidth s.accessSet
        dirty := s.hitTag.dirty
        param := TtoN }
  else none

/-! ## Probe -/

def accessLockValid (s : Dcache p) : Bool := s.accessLockTimerQ != 0

def probeLockAcq (s : Dcache p) (i : DcacheIn) : Bool :=
  match s.probeStateQ, i.memB with
  | .idle, some b => !(s.accessLockValid && s.accessLockAddr == slice b.address 11 6)
  | _, _ => false

/-- The answer to a probe: `NtoN`, unless the line is found. -/
def wbProbeReq (s : Dcache p) : Option (WbReq p.numWays) :=
  if s.probeStateQ == .check then
    some
      { active := false
        way := s.hitWay
        address := s.probeAddressQ
        dirty := s.anyHit && s.hitTag.dirty
        param :=
          if !s.anyHit then NtoN
          else if s.probeParamQ = toB then (if s.hitTag.writable then TtoB else BtoB)
          else (if s.hitTag.writable then TtoN else BtoN) }
  else none

def probeTagWrite (s : Dcache p) : Option (TagReq DcacheTag p.numWays) :=
  if s.probeStateQ == .check && s.anyHit then
    some (.write (s.probeAddressQ % 2 ^ p.setsWidth) s.hit
      (if s.probeParamQ = toB then { s.hitTag with dirty := false, writable := false }
      else default))
  else none

/-! ## Flush -/

/-- `flush_dirty_way`: the first way that is held exclusively. -/
def flushDirtyWay (s : Dcache p) : Option (Fin p.numWays) :=
  firstIdx fun k => (s.tagRam.rdata k).valid && (s.tagRam.rdata k).writable

/-- `&flush_index_q`. -/
def flushLast (s : Dcache p) : Bool := s.flushIndexQ == 2 ^ p.setsWidth - 1

def flushTagWrite (s : Dcache p) : Option (TagReq DcacheTag p.numWays) :=
  match s.flushStateQ with
  | .reset => some (.write s.flushIndexQ (fun _ => true) default)
  | .check =>
      match s.flushDirtyWay with
      | some w => some (.write s.flushIndexQ (fun k => k == w) default)
      | none => some (.write s.flushIndexQ (fun _ => true) default)
  | .idle | .readTag | .done => none

def wbFlushReq (s : Dcache p) : Option (WbReq p.numWays) :=
  if s.flushStateQ == .check then
    s.flushDirtyWay.map fun w =>
      { active := true
        way := w
        address := cat (s.tagRam.rdata w).tag p.setsWidth s.flushIndexQ
        dirty := (s.tagRam.rdata w).dirty
        param := TtoN }
  else none

def flushLockAcq (s : Dcache p) : Bool := s.flushStateQ == .readTag && !s.flushTrackerValid

def flushReady (s : Dcache p) : Bool := s.flushStateQ == .done && !s.flushTlbPendingQ

/-! ## Refill FIFO and channel D -/

def memDLast (s : Dcache p) (d : DMsg) : Bool := s.gntBurst.last p.burst d.opcode.hasData d.size
def memDIdx (s : Dcache p) (d : DMsg) : ℕ := s.gntBurst.idx p.burst d.opcode.hasData d.size

/-- The beat that is put into the FIFO. -/
def refillFifoInsert (s : Dcache p) (i : DcacheIn) : Option RefillBeat :=
  if s.refillBeatSavedQ then none
  else i.memDRefill.map fun d => ⟨d, s.memDLast d, s.memDIdx d⟩

/-- The acknowledgement on channel E. -/
def memE (s : Dcache p) (i : DcacheIn) : Option EMsg :=
  if s.refillBeatAckedQ then none
  else (i.memDRefill.filter fun d => s.memDLast d).map fun d => ⟨d.sink⟩

def memDReadyRefill (s : Dcache p) (i : DcacheIn) : Bool :=
  i.memDRefill.isSome && ((s.memE i).isNone || i.memEReady)

def nextRefillBeatSavedQ (s : Dcache p) (i : DcacheIn) : Bool :=
  if i.memDRefill.isSome then !s.memDReadyRefill i else s.refillBeatSavedQ

def nextRefillBeatAckedQ (s : Dcache p) (i : DcacheIn) : Bool :=
  if s.memDReadyRefill i then false
  else s.refillBeatAckedQ || ((s.memE i).isSome && i.memEReady)

/-- `mem_d_ready`. -/
def memDReady (s : Dcache p) (i : DcacheIn) : Bool :=
  if i.memDRefill.isSome then s.memDReadyRefill i
  else if (i.memDPtw p).isSome then s.tr.ptwAValid else true

def nextGntBurst (s : Dcache p) (i : DcacheIn) : Burst :=
  match i.memD with
  | some d => if s.memDReady i then s.gntBurst.next p.burst d.opcode.hasData d.size else s.gntBurst
  | none => s.gntBurst

/-- The beat at the output of the FIFO. -/
def refillFront (s : Dcache p) (i : DcacheIn) : Option RefillBeat :=
  s.refillFifo.front (s.refillFifoInsert i)

/-- The beat that the refill machine consumes. -/
def refillBeat (s : Dcache p) (i : DcacheIn) : Option RefillBeat :=
  if s.refillStateQ == .progress then s.refillFront i else none

/-- The last beat of a refill, if it is consumed in this cycle. -/
def refillLast (s : Dcache p) (i : DcacheIn) : Option RefillBeat :=
  (s.refillBeat i).filter fun b => b.last

/-- The line that is being refilled. -/
def refillReqAddress (s : Dcache p) (i : DcacheIn) : ℕ := s.addressPhys i / 2 ^ 6

def refillTagWrite (s : Dcache p) (i : DcacheIn) : Option (TagReq DcacheTag p.numWays) :=
  ((s.refillLast i).filter fun b => !b.msg.denied).map fun b =>
    .write (s.refillReqAddress i % 2 ^ p.setsWidth) (fun k => k == s.wayQ)
      { tag := s.refillReqAddress i / 2 ^ p.setsWidth
        writable := b.msg.param == toT
        dirty := false
        valid := true }

def refillDataWrite (s : Dcache p) (i : DcacheIn) : Option DataReq :=
  ((s.refillBeat i).filter fun b => b.msg.opcode == .grantData && !b.msg.denied).map fun b =>
    { write := true
      addr := cat (s.refillReqAddress i % 2 ^ p.setsWidth) 3
        (b.idx * 2 ^ p.interleaveWidth % 2 ^ 3)
      way := s.wayQ
      wide := true
      wdata := fun j => slice b.msg.data (64 * j + 63) (64 * j) }

/-! ## Lock arbitration -/

def wbReq (s : Dcache p) (i : DcacheIn) : Option (WbReq p.numWays) :=
  s.wbFlushReq.or (s.wbProbeReq.or (s.wbRelReq i))

def writebackLockAcq (s : Dcache p) (i : DcacheIn) : Bool :=
  s.wbStateQ == .idle && (s.wbReq i).isSome

def refillLockAcq (s : Dcache p) (i : DcacheIn) : Bool :=
  s.refillStateQ == .idle && (s.refillFront i).isSome

/-- Nobody holds the lock, and neither the access nor the writeback takes it. -/
def lockFree (s : Dcache p) (i : DcacheIn) : Bool :=
  s.nothingInProgress && !s.accessLockAcq i && !s.writebackLockAcq i

def refillLocking (s : Dcache p) (i : DcacheIn) : Bool := s.lockFree i && s.refillLockAcq i

def probeLocking (s : Dcache p) (i : DcacheIn) : Bool :=
  s.lockFree i && !s.refillLockAcq i && s.probeLockAcq i

def flushLocking (s : Dcache p) (i : DcacheIn) : Bool :=
  s.lockFree i && !s.refillLockAcq i && !s.probeLockAcq i && s.flushLockAcq

/-- The line address of a probe that is accepted. -/
def probeAccept (s : Dcache p) (i : DcacheIn) : Option BMsg :=
  if s.probeLocking i then i.memB else none

/-- The tag read of a probe that is accepted. -/
def probeTagRead (s : Dcache p) (i : DcacheIn) : Option ℕ :=
  (s.probeAccept i).map fun b => slice b.address (p.physAddrLen - 1) 6

def flushTagRead (s : Dcache p) (i : DcacheIn) : Option ℕ :=
  if s.flushStateQ == .readTag && (s.flushTrackerValid || s.flushLocking i) then
    some s.flushIndexQ
  else none

def nextRefillStateQ (s : Dcache p) (i : DcacheIn) : DcacheRefillState :=
  match s.refillStateQ with
  | .idle => if s.refillLocking i then .progress else .idle
  | .progress => if (s.refillLast i).isSome then .idle else .progress

def nextRefillTrackerValid (s : Dcache p) (i : DcacheIn) : Bool :=
  match s.refillStateQ with
  | .idle => s.refillLocking i || s.refillTrackerValid
  | .progress => !(s.refillLast i).isSome && s.refillTrackerValid

def nextProbeStateQ (s : Dcache p) (i : DcacheIn) : ProbeState :=
  match s.probeStateQ with
  | .idle => if s.probeLocking i then .check else .idle
  | .check => .idle

def nextProbeTrackerValid (s : Dcache p) (i : DcacheIn) : Bool :=
  match s.probeStateQ with
  | .idle => s.probeLocking i || s.probeTrackerValid
  | .check => false

def nextFlushStateQ (s : Dcache p) (i : DcacheIn) : DcacheFlushState :=
  match s.flushStateQ with
  | .reset => if s.flushLast then .idle else .reset
  | .idle => if i.notifValid then .done else .idle
  | .readTag => if s.flushTrackerValid || s.flushLocking i then .check else .readTag
  | .check => if s.flushDirtyWay.isNone && s.flushLast then .done else .readTag
  | .done => if s.flushTlbPendingQ then .done else .idle

def nextFlushTrackerValid (s : Dcache p) (i : DcacheIn) : Bool :=
  match s.flushStateQ with
  | .reset => !s.flushLast && s.flushTrackerValid
  | .readTag => s.flushTrackerValid || s.flushLocking i
  | .check => s.flushDirtyWay.isNone && !s.flushLast && s.flushTrackerValid
  | .idle | .done => s.flushTrackerValid

def nextFlushTlbPendingQ (s : Dcache p) (i : DcacheIn) : Bool :=
  if s.flushStateQ == .idle && i.notifValid then true
  else s.flushTlbPendingQ && !s.tr.tlb.flushResp p.tlbSetsWidth

def nextFlushIndexQ (s : Dcache p) : ℕ :=
  if s.flushStateQ == .reset || (s.flushStateQ == .check && s.flushDirtyWay.isNone) then
    (s.flushIndexQ + 1) % 2 ^ p.setsWidth
  else s.flushIndexQ

/-! ## Writeback -/

/-- The beat of the writeback on channel C is accepted. -/
def wbBeat (s : Dcache p) (i : DcacheIn) : Bool := s.wbStateQ == .progress && i.memCReady

/-- The data port request of the writeback: the line is read one beat ahead. -/
def wbDataRead (s : Dcache p) (i : DcacheIn) : Option DataReq :=
  match s.wbStateQ with
  | .idle =>
      ((s.wbReq i).filter fun r => r.dirty).map fun r =>
        { write := false
          addr := cat (r.address % 2 ^ p.setsWidth) 3 0
          way := r.way
          wide := true
          wdata := fun _ => 0 }
  | .progress =>
      if i.memCReady && s.wbIndexQ != 0 then
        some
          { write := false
            addr := cat (s.wbAddressQ % 2 ^ p.setsWidth) 3
              (s.wbIndexQ * 2 ^ p.interleaveWidth % 2 ^ 3)
            way := s.wbWayQ
            wide := true
            wdata := fun _ => 0 }
      else none
  | .wait => none

/-- `data_read_data_wide`. -/
def dataReadDataWide (s : Dcache p) : ℕ :=
  (List.range p.numInterleave).foldr
    (fun j acc => cat acc 64 (s.dataRam.readDataWide p.interleaveMask j % 2 ^ 64)) 0

/-- The message on channel C. -/
def memC (s : Dcache p) : Option CMsg :=
  if s.wbStateQ == .progress then
    some
      { opcode := s.wbOpcodeQ
        param := s.wbParamQ
        size := 6
        source := p.sourceBase
        address := cat s.wbAddressQ 6 0
        corrupt := false
        data := if s.wbDataSkidValid then s.wbDataSkid else s.dataReadDataWide }
  else none

def nextEvictCompletedQ (s : Dcache p) (i : DcacheIn) : Bool :=
  if s.wbStateQ == .idle && (s.wbReq i).isSome then false
  else s.evictCompletedQ || i.memDRelAck.isSome

def nextWbStateQ (s : Dcache p) (i : DcacheIn) : WbState :=
  match s.wbStateQ with
  | .idle => if (s.wbReq i).isSome then .progress else .idle
  | .progress =>
      if i.memCReady && s.wbIndexQ == 0 then
        if s.wbOpcodeQ == .release || s.wbOpcodeQ == .releaseData then .wait else .idle
      else .progress
  | .wait => if s.nextEvictCompletedQ i then .idle else .wait

/-- The writeback request that is taken up in this cycle. -/
def wbStart (s : Dcache p) (i : DcacheIn) : Option (WbReq p.numWays) :=
  if s.wbStateQ == .idle then s.wbReq i else none

def nextWbOpcodeQ (s : Dcache p) (i : DcacheIn) : COp :=
  match s.wbStart i with
  | none => s.wbOpcodeQ
  | some r =>
      if r.active then (if r.dirty then .releaseData else .release)
      else (if r.dirty then .probeAckData else .probeAck)

def nextWbIndexQ (s : Dcache p) (i : DcacheIn) : ℕ :=
  match s.wbStart i with
  | some r => (if r.dirty then 1 else 0) % 2 ^ p.offsetWidth
  | none => if s.wbBeat i then (s.wbIndexQ + 1) % 2 ^ p.offsetWidth else s.wbIndexQ

/-! ## Miss handling and channel A -/

def missReqValid (s : Dcache p) (i : DcacheIn) : Bool := s.fetches i .miss

def tlAlignStrb (strb : BitVec 8) (addr : ℕ) : ℕ := strb.toNat * 2 ^ (8 * (addr / 8))

def tlAlignStore (lanes : ℕ) (value : BitVec 64) : ℕ :=
  (List.range lanes).foldr (fun _ acc => cat acc 64 value.toNat) 0

/-- The message of the miss handler on channel A. -/
def refillA (s : Dcache p) (i : DcacheIn) : Option AMsg :=
  match s.missStateQ with
  | .idle => none
  | .fill =>
      if s.missRefillSentQ then none
      else some
        { opcode := .acquireBlock
          param := if s.opQ = .load then NtoB else if s.missUpgradeQ then BtoT else NtoT
          size := 6
          source := p.sourceBase
          address := s.addressPhys i / 2 ^ 6 * 2 ^ 6
          mask := 2 ^ p.busBytes - 1
          corrupt := false
          data := 0 }
  | .uncached =>
      if s.missUncachedSentQ then none
      else some
        { opcode := if s.opQ.returnsWord then .get else .putFullData
          param := 0
          size := s.sizeQ
          source := p.sourceBase
          address := s.addressPhys i
          mask := tlAlignStrb s.maskQ (s.addressPhys i % p.busBytes)
          corrupt := false
          data := tlAlignStore p.numInterleave s.valueQ }

/-- The requests for channel A: the walker's and the miss handler's. -/
def memAMult (s : Dcache p) (i : DcacheIn) (k : Fin 2) : Option AMsg :=
  if k = 0 then s.tr.ptwA p.translation p.busBytes else s.refillA i

/-- The message on channel A. -/
def memA (s : Dcache p) (i : DcacheIn) : Option AMsg := s.memAArb.msg (s.memAMult i)

def memAReadyMult (s : Dcache p) (i : DcacheIn) (k : Fin 2) : Bool :=
  s.memAArb.ready (s.memAMult i) i.memAReady k

def memALast (s : Dcache p) (a : AMsg) : Bool := s.reqBurst.last p.burst a.opcode.hasData a.size

def nextReqBurst (s : Dcache p) (i : DcacheIn) : Burst :=
  match s.memA i with
  | some a => if i.memAReady then s.reqBurst.next p.burst a.opcode.hasData a.size else s.reqBurst
  | none => s.reqBurst

/-- How a miss ends. -/
inductive MissResp
  | replay
  | exception
  | valid (data : BitVec 64)
  deriving DecidableEq, Repr

def missResp (s : Dcache p) (i : DcacheIn) : Option MissResp :=
  match s.missStateQ with
  | .idle => none
  | .fill =>
      match s.refillLast i with
      | none => none
      | some b =>
          if !b.msg.denied then some .replay
          else if s.opQ = .load ∨ s.opQ = .store then none
          else some .exception
  | .uncached =>
      (i.memDAccess p).map fun d =>
        if d.denied then .exception
        else .valid (.ofNat 64 (tlAlignLoad d.data (s.addressPhys i % p.busBytes)))

def nextMissStateQ (s : Dcache p) (i : DcacheIn) : DcacheMissState :=
  match s.missStateQ with
  | .idle => if s.missReqValid i then .fill else .idle
  | .fill =>
      match s.refillLast i with
      | none => .fill
      | some b =>
          if b.msg.denied && decide (s.opQ = .load ∨ s.opQ = .store) then .uncached else .idle
  | .uncached => if (i.memDAccess p).isSome then .idle else .uncached

def nextMissRefillSentQ (s : Dcache p) (i : DcacheIn) : Bool :=
  match s.missStateQ with
  | .idle => !s.missReqValid i && s.missRefillSentQ
  | .fill => s.memAReadyMult i 1 || s.missRefillSentQ
  | .uncached => s.missRefillSentQ

def nextMissUncachedSentQ (s : Dcache p) (i : DcacheIn) : Bool :=
  match s.missStateQ with
  | .idle => s.missUncachedSentQ
  | .fill => if s.nextMissStateQ i = .uncached then false else s.missUncachedSentQ
  | .uncached => s.memAReadyMult i 1 || s.missUncachedSentQ

/-! ## The RAM ports -/

/-- `address_d`. -/
def nextAddressQ (s : Dcache p) (i : DcacheIn) : ℕ :=
  if i.reqValid then i.reqAddress else s.addressQ

/-- `access_tag_read_req` and `access_data_read_req`. -/
def accessReadReq (s : Dcache p) (i : DcacheIn) : Bool :=
  i.reqValid || (s.stateQ == .replay && s.nothingInProgress)

/-- The line address of the access. -/
def accessTagReadAddr (s : Dcache p) (i : DcacheIn) : ℕ :=
  slice (s.nextAddressQ i) (p.logicAddrLen - 1) 6

/-- Some machine other than the access has a request for the tag port. -/
def tagPortTaken (s : Dcache p) (i : DcacheIn) : Bool :=
  (s.refillTagWrite i).isSome || s.probeTagWrite.isSome || (s.probeTagRead i).isSome ||
    s.flushTagWrite.isSome || (s.flushTagRead i).isSome

def accessTagReadGnt (s : Dcache p) (i : DcacheIn) : Bool :=
  s.accessReadReq i && !s.tagPortTaken i && (s.accessTagWrite i).isNone

def accessDataReadGnt (s : Dcache p) (i : DcacheIn) : Bool :=
  s.accessReadReq i && (s.refillDataWrite i).isNone && (s.wbDataRead i).isNone &&
    (s.accessDataWrite i).isNone

/-- The tag port, in order of priority. -/
def tagReq (s : Dcache p) (i : DcacheIn) : Option (TagReq DcacheTag p.numWays) :=
  (s.refillTagWrite i).or <| s.probeTagWrite.or <|
    ((s.probeTagRead i).map fun a => .read (a % 2 ^ p.setsWidth)).or <| s.flushTagWrite.or <|
    ((s.flushTagRead i).map .read).or <| (s.accessTagWrite i).or <|
    if s.accessReadReq i then some (.read (s.accessTagReadAddr i % 2 ^ p.setsWidth)) else none

/-- The values of `tag_read_physical` and `tag_addr` when a read is performed. -/
def tagReadLatch (s : Dcache p) (i : DcacheIn) : Option (Bool × ℕ) :=
  match s.refillTagWrite i, s.probeTagWrite, s.probeTagRead i, s.flushTagWrite,
      s.flushTagRead i with
  | some _, _, _, _, _ => none
  | none, some _, _, _, _ => none
  | none, none, some a, _, _ => some (true, a)
  | none, none, none, some _, _ => none
  | none, none, none, none, some a => some (true, a)
  | none, none, none, none, none =>
      if s.accessTagReadGnt i then some (!atpMode i.reqAtp, s.accessTagReadAddr i) else none

/-- The data port, in order of priority. -/
def dataReq (s : Dcache p) (i : DcacheIn) : Option DataReq :=
  (s.refillDataWrite i).or <| (s.wbDataRead i).or <| (s.accessDataWrite i).or <|
    if s.accessReadReq i then
      some
        { write := false
          addr := slice (s.nextAddressQ i) (p.setsWidth + 5) 3
          way := 0
          wide := false
          wdata := fun _ => 0 }
    else none

/-- The assertions of the tag and data multiplexers: every request except the reads of
the access machine is granted in its cycle. -/
structure ArbiterOk (s : Dcache p) (i : DcacheIn) : Prop where
  probeTagWrite : s.probeTagWrite.isSome = true → (s.refillTagWrite i).isSome = false
  probeTagRead : (s.probeTagRead i).isSome = true →
    (s.refillTagWrite i).isSome = false ∧ s.probeTagWrite.isSome = false
  flushTagWrite : s.flushTagWrite.isSome = true → (s.refillTagWrite i).isSome = false ∧
    s.probeTagWrite.isSome = false ∧ (s.probeTagRead i).isSome = false
  flushTagRead : (s.flushTagRead i).isSome = true → (s.refillTagWrite i).isSome = false ∧
    s.probeTagWrite.isSome = false ∧ (s.probeTagRead i).isSome = false ∧
    s.flushTagWrite.isSome = false
  accessTagWrite : (s.accessTagWrite i).isSome = true → s.tagPortTaken i = false
  wbDataRead : (s.wbDataRead i).isSome = true → (s.refillDataWrite i).isSome = false
  accessDataWrite : (s.accessDataWrite i).isSome = true →
    (s.refillDataWrite i).isSome = false ∧ (s.wbDataRead i).isSome = false

/-! ## The main state machine -/

/-- `resp_valid`, `resp_value`: the answer that is registered in this cycle. -/
def resp (s : Dcache p) (i : DcacheIn) : Option (BitVec 64) :=
  match s.stateQ with
  | .fetch =>
      match s.outcome i with
      | .hit =>
          if s.reservationFailedQ then some 1
          else if s.opQ.returnsWord then
            some (alignLoad s.hitData s.addressQ s.sizeQ s.sizeExtQ)
          else some 0
      | .scFail => some 1
      | .conflict | .tlbMiss | .pageFault | .miss => none
  | .fill =>
      match s.missResp i with
      | some (.valid data) => some (alignLoad data s.addressQ s.sizeQ s.sizeExtQ)
      | _ => none
  | .idle | .replay | .waitTlb | .exception => none

/-- `ex_valid`, `ex_exception`. -/
def exception (s : Dcache p) : Option (DcacheExc × ℕ) :=
  if s.stateQ == .exception then some (s.exCodeQ, s.addressQ) else none

/-- `state_d` after the `unique case (state_q)`. -/
def caseState (s : Dcache p) (i : DcacheIn) : DcacheState :=
  match s.stateQ with
  | .idle => .idle
  | .fetch =>
      match s.outcome i with
      | .conflict => .replay
      | .tlbMiss => .waitTlb
      | .pageFault => .exception
      | .hit => .idle
      | .scFail => .idle
      | .miss => .fill
  | .replay =>
      if s.nothingInProgress && s.accessTagReadGnt i && s.accessDataReadGnt i then .fetch
      else .replay
  | .waitTlb => if s.tr.ppnValid then .replay else .waitTlb
  | .fill =>
      match s.missResp i with
      | some .replay => .replay
      | some (.valid _) => .idle
      | some .exception => .exception
      | none => .fill
  | .exception => .idle

/-- `state_d`: a request takes the machine over. -/
def nextStateQ (s : Dcache p) (i : DcacheIn) : DcacheState :=
  if i.reqValid then
    if (i.earlyFault p).isSome then .exception
    else if s.accessTagReadGnt i &&
        ((i.reqOp == .store && i.reqSize == 3) || s.accessDataReadGnt i) then .fetch
    else .replay
  else s.caseState i

/-- `ex_code_d` without a request that faults early. -/
def caseExCode (s : Dcache p) (i : DcacheIn) : DcacheExc :=
  if s.fetches i .pageFault then
    if s.opQ = .load then .loadPageFault else .storePageFault
  else if s.stateQ == .fill && s.missResp i == some .exception then
    if s.opQ = .load then .loadAccessFault else .storeAccessFault
  else s.exCodeQ

def nextExCodeQ (s : Dcache p) (i : DcacheIn) : DcacheExc :=
  if i.reqValid then (i.earlyFault p).getD (s.caseExCode i) else s.caseExCode i

/-- The refill of this cycle ends in a replay, which starts the timer of the lock. -/
def fillReplays (s : Dcache p) (i : DcacheIn) : Bool :=
  s.stateQ == .fill && s.missResp i == some .replay

def nextAccessLockTimerQ (s : Dcache p) (i : DcacheIn) : ℕ :=
  if s.fillReplays i then 16
  else if s.fetches i .miss || (s.fetches i .hit && s.opQ != .lr) then 0
  else if s.accessLockTimerQ != 0 && !s.probeTrackerValid then s.accessLockTimerQ - 1
  else s.accessLockTimerQ

/-! ## One cycle -/

def translationIn (s : Dcache p) (i : DcacheIn) : TranslationIn where
  reqValid := i.reqValid
  reqAtp := i.reqAtp
  reqAddress := i.reqAddress
  ptwReqVpn := slice s.addressQ (p.virtAddrLen - 1) 12
  flushValid := i.notifValid
  aReady := s.memAReadyMult i 0
  dValid := (i.memDPtw p).isSome
  dData := ((i.memDPtw p).getD default).data

def step (s : Dcache p) (i : DcacheIn) : Dcache p where
  respValidQ := (s.resp i).isSome
  respValueQ := (s.resp i).getD 0
  memAArb := s.memAArb.next (s.memAMult i) i.memAReady (((s.memA i).map s.memALast).getD false)
  reqBurst := s.nextReqBurst i
  gntBurst := s.nextGntBurst i
  tagRam := s.tagRam.step (s.tagReq i)
  tagReadPhysicalLatch := ((s.tagReadLatch i).map Prod.fst).getD s.tagReadPhysicalLatch
  tagReadAddrLatch := ((s.tagReadLatch i).map Prod.snd).getD s.tagReadAddrLatch
  dataRam := s.dataRam.step p.interleaveMask (s.dataReq i)
  wbStateQ := s.nextWbStateQ i
  wbWayQ := ((s.wbStart i).map WbReq.way).getD s.wbWayQ
  wbIndexQ := s.nextWbIndexQ i
  wbOpcodeQ := s.nextWbOpcodeQ i
  wbParamQ := ((s.wbStart i).map WbReq.param).getD s.wbParamQ
  wbAddressQ := ((s.wbStart i).map WbReq.address).getD s.wbAddressQ
  evictCompletedQ := s.nextEvictCompletedQ i
  wbDataSkid := if !s.wbDataSkidValid && s.memC.isSome then s.dataReadDataWide else s.wbDataSkid
  wbDataSkidValid := !i.memCReady && (s.wbDataSkidValid || s.memC.isSome)
  refillFifo := s.refillFifo.next p.refillDepth (s.refillFifoInsert i) (s.refillBeat i).isSome
  refillBeatSavedQ := s.nextRefillBeatSavedQ i
  refillBeatAckedQ := s.nextRefillBeatAckedQ i
  refillStateQ := s.nextRefillStateQ i
  refillTrackerValid := s.nextRefillTrackerValid i
  tr := s.tr.step p.translation p.busBytes (s.translationIn i)
  evictWayQ := if s.missReqValid i && !s.anyHit then s.evictWayQ + 1 else s.evictWayQ
  probeStateQ := s.nextProbeStateQ i
  probeTrackerValid := s.nextProbeTrackerValid i
  probeAddressQ := (s.probeTagRead i).getD s.probeAddressQ
  probeParamQ := ((s.probeAccept i).map BMsg.param).getD s.probeParamQ
  flushStateQ := s.nextFlushStateQ i
  flushTrackerValid := s.nextFlushTrackerValid i
  flushTlbPendingQ := s.nextFlushTlbPendingQ i
  flushIndexQ := s.nextFlushIndexQ
  missStateQ := s.nextMissStateQ i
  missUpgradeQ :=
    if s.missStateQ == .idle && s.missReqValid i then s.anyHit else s.missUpgradeQ
  missRefillSentQ := s.nextMissRefillSentQ i
  missUncachedSentQ := s.nextMissUncachedSentQ i
  stateQ := s.nextStateQ i
  exCodeQ := s.nextExCodeQ i
  addressQ := s.nextAddressQ i
  valueQ := if i.reqValid then alignStore i.reqValue i.reqAddress else s.valueQ
  maskQ := if i.reqValid then alignStrb i.reqAddress i.reqSize else s.maskQ
  sizeQ := if i.reqValid then i.reqSize else s.sizeQ
  sizeExtQ := if i.reqValid then i.reqSizeExt else s.sizeExtQ
  opQ := if i.reqValid then i.reqOp else s.opQ
  amoQ := if i.reqValid then (if i.reqOp.returnsWord then i.reqAmo else 0b0000100) else s.amoQ
  reservedQ := if i.reqValid then i.reqOp == .lr else s.reservedQ
  reservationQ :=
    if i.reqValid then slice i.reqAddress (p.logicAddrLen - 1) 6 else s.reservationQ
  reservationFailedQ :=
    if i.reqValid then i.reqOp == .sc &&
      (slice i.reqAddress (p.logicAddrLen - 1) 6 != s.reservationQ || !s.reservedQ)
    else s.reservationFailedQ
  wayQ := if s.missReqValid i then s.hitWay else s.wayQ
  accessLockAddr := if s.fillReplays i then slice s.addressQ 11 6 else s.accessLockAddr
  accessLockTimerQ := s.nextAccessLockTimerQ i

/-- The registers after reset.  The RAMs and the registers that the source does not
reset are arbitrary. -/
structure IsReset (s : Dcache p) : Prop where
  respValidQ : s.respValidQ = false
  memAArb : s.memAArb = .reset
  reqBurst : s.reqBurst = .reset p.burst
  gntBurst : s.gntBurst = .reset p.burst
  tagReadPhysicalLatch : s.tagReadPhysicalLatch = true
  wbStateQ : s.wbStateQ = .idle
  wbIndexQ : s.wbIndexQ = 0
  wbWayQ : s.wbWayQ = 0
  evictCompletedQ : s.evictCompletedQ = false
  wbDataSkidValid : s.wbDataSkidValid = false
  refillFifo : s.refillFifo = .reset
  refillBeatSavedQ : s.refillBeatSavedQ = false
  refillBeatAckedQ : s.refillBeatAckedQ = false
  refillStateQ : s.refillStateQ = .idle
  refillTrackerValid : s.refillTrackerValid = false
  tr : s.tr.IsReset p.translation
  evictWayQ : s.evictWayQ = 0
  probeStateQ : s.probeStateQ = .idle
  probeTrackerValid : s.probeTrackerValid = false
  flushStateQ : s.flushStateQ = .reset
  flushTrackerValid : s.flushTrackerValid = true
  flushTlbPendingQ : s.flushTlbPendingQ = false
  flushIndexQ : s.flushIndexQ = 0
  missStateQ : s.missStateQ = .idle
  missUpgradeQ : s.missUpgradeQ = false
  missRefillSentQ : s.missRefillSentQ = false
  missUncachedSentQ : s.missUncachedSentQ = false
  stateQ : s.stateQ = .idle
  addressQ : s.addressQ = 0
  reservedQ : s.reservedQ = false
  accessLockTimerQ : s.accessLockTimerQ = 0

end Dcache

end Muntjac.Core

import Muntjac.Core.TagRam
import Muntjac.Sync.Stream
import Muntjac.Tl.BurstTracker

/-!
# The last level cache

The control of `muntjac_llc`.  The requests of channel A, the messages of channel C and the
writebacks have trackers of their own, which share the port of the tag RAMs; after reset the
flush logic has it.

The data path is left out.  Whether the data RAM, the register slices in front of the channels
and the probe sequencer take what a tracker offers is an input, so that the model has the runs of
every data path.

## Main definitions

* `RelTracker.step`, `WbTracker.step`, `AcqTracker.step` — the state machines of the trackers.
* `Llc.step` — one clock edge.
-/

namespace Muntjac.Core

open Sync Tl

inductive ReleasePolicy
  | all
  | exclusive
  | dirty
  deriving DecidableEq, Repr

/-- The parameters; `hosts` are the pairs of `SourceBase` and `SourceMask`. -/
structure LlcParams where
  setsWidth : ℕ
  waysWidth : ℕ
  nonBurst : ℕ
  relNum : ℕ
  acqNum : ℕ
  sinkBase : ℕ
  deviceSourceBase : ℕ
  policy : ReleasePolicy
  hosts : List (ℕ × ℕ)
  deriving DecidableEq, Repr

namespace LlcParams
variable (p : LlcParams)

def numWays : ℕ := 2 ^ p.waysWidth

instance : NeZero p.numWays := ⟨(Nat.two_pow_pos _).ne'⟩

/-- The width of a beat index in a line. -/
def offsetWidth : ℕ := 6 - p.nonBurst

def burst : BurstParams := ⟨p.nonBurst, 6⟩

/-- The set and the tag of a line. -/
def set (line : ℕ) : ℕ := line % 2 ^ p.setsWidth

def tag (line : ℕ) : ℕ := line / 2 ^ p.setsWidth

/-- `host_c_selected` and `acq_host_mask`. -/
def hostMask (source : ℕ) : ℕ :=
  (List.range p.hosts.length).foldl
    (fun mask i =>
      if (p.hosts[i]?).any fun h => Nat.ldiff source h.2 == h.1 then mask ||| 2 ^ i else mask) 0

end LlcParams

/-- `address[AddrWidth-1:LineWidth]`. -/
def lineOf (address : ℕ) : ℕ := address / 2 ^ 6

/-- `tag_t`. -/
structure LlcTag where
  tag : ℕ
  owned : Bool
  mask : ℕ
  dirty : Bool
  writable : Bool
  valid : Bool
  deriving DecidableEq, Repr, Inhabited

/-- What a tracker asks of the tag RAMs. -/
structure LlcTagReq (p : LlcParams) where
  line : ℕ
  wayFallback : Fin p.numWays
  write : Option (Fin p.numWays × LlcTag)

/-- The outcome of the tag check. -/
structure LlcLookup (p : LlcParams) where
  hit : Bool
  way : Fin p.numWays
  tag : LlcTag

/-- The permission reports after which a host has nothing. -/
def toNone (param : ℕ) : Bool := param == TtoN || param == BtoN || param == NtoN

/-! ## Releases -/

inductive LlcRelState
  | idle
  | readTag
  | checkTag
  | updateTag
  | doing
  | error
  deriving DecidableEq, Repr

structure RelTracker (p : LlcParams) where
  state : LlcRelState
  address : ℕ
  beatWritten : Bool
  beatAcked : Bool
  tag : LlcTag
  way : Fin p.numWays

/-- The signals that a release tracker sees: the beat on channel C and whether it is routed to
this tracker, `host_c_last`, `host_c_selected`, what is granted to the tracker, and the tag
check. -/
structure RelIn (p : LlcParams) where
  hostC : Option CMsg
  routed : Bool
  last : Bool
  selected : ℕ
  dataGnt : Bool
  hostDReady : Bool
  tagGnt : Bool
  lookup : LlcLookup p

namespace RelTracker
variable {p : LlcParams} (x : RelTracker p) (i : RelIn p)

/-- `host_c_valid_mult`. -/
def offered : Option CMsg := if i.routed then i.hostC else none

/-- The beat has data that are not written yet. -/
def writes (c : CMsg) : Bool := !x.beatWritten && c.opcode == .releaseData

/-- The response is not sent yet. -/
def acks : Bool := !x.beatAcked && i.last

/-- `host_c_ready_mult`. -/
def hostCReady : Bool :=
  decide (x.state = .doing) && (offered i).any fun c =>
    (!x.writes c || i.dataGnt) && (!x.acks i || i.hostDReady)

/-- The tag that a release leaves. -/
def released : LlcTag :=
  let t := i.lookup.tag
  let none := i.hostC.any fun c => toNone c.param
  let mask := if none then Nat.ldiff t.mask i.selected else t.mask
  { t with
    dirty := t.dirty || i.hostC.any fun c => c.opcode == .releaseData
    mask := mask
    owned :=
      if (none && mask == 0) || i.hostC.any fun c => c.param == TtoB || c.param == TtoN then false
      else t.owned }

def tagReq : Option (LlcTagReq p) :=
  match x.state with
  | .readTag => some ⟨lineOf x.address, 0, none⟩
  | .updateTag => some ⟨lineOf x.address, 0, some (x.way, x.tag)⟩
  | .idle | .checkTag | .doing | .error => none

/-- One clock edge. -/
def step : RelTracker p :=
  match x.state with
  | .idle =>
    match offered i with
    | none => x
    | some c =>
      -- with `NtoN` the address is not one of a line in the cache
      { x with address := c.address, state := if c.param = NtoN then .doing else .readTag }
  | .readTag => if i.tagGnt then { x with state := .checkTag } else x
  | .checkTag =>
    if i.lookup.hit then { x with state := .doing, tag := released i, way := i.lookup.way }
    else { x with state := .error }
  | .doing =>
    match offered i with
    | none => x
    | some c =>
      if x.hostCReady i then
        { x with
          beatWritten := false
          beatAcked := false
          state :=
            if i.last then (if c.param = NtoN then .idle else .updateTag) else .doing }
      else
        { x with
          beatWritten := x.beatWritten || (x.writes c && i.dataGnt)
          beatAcked := x.beatAcked || (x.acks i && i.hostDReady) }
  | .updateTag => if i.tagGnt then { x with state := .idle } else x
  | .error => x

end RelTracker

/-! ## Writebacks -/

inductive LlcWbState
  | idle
  | probe
  | readTag
  | checkTag
  | doData
  | doing
  | updateTag
  | done
  deriving DecidableEq, Repr

structure WbTracker (p : LlcParams) where
  state : LlcWbState
  way : Fin p.numWays
  offset : ℕ
  address : ℕ
  release : Bool
  param : ℕ
  tag : LlcTag
  idx : Option (Fin p.acqNum)
  probeSent : Bool
  dataSent : Bool
  acked : Bool
  beatWritten : Bool
  beatForwarded : Bool
  beatAcked : Bool
  rdataValid : Bool

/-- A request for a writeback, of an acquire tracker or of a probe from the device. -/
structure LlcWbReq (p : LlcParams) where
  release : Bool
  param : ℕ
  address : ℕ
  idx : Option (Fin p.acqNum)

structure WbIn (p : LlcParams) where
  req : Option (LlcWbReq p)
  blocked : Bool
  hostC : Option CMsg
  routed : Bool
  last : Bool
  selected : ℕ
  dataGnt : Bool
  hostDReady : Bool
  deviceCReady : Bool
  probeReady : Bool
  ackValid : Bool
  tagGnt : Bool
  lookup : LlcLookup p

namespace WbTracker
variable {p : LlcParams} (x : WbTracker p) (i : WbIn p)

/-- `wb_req_ready`. -/
def reqReady (blocked : Bool) : Bool := decide (x.state = .idle) && !blocked

/-- `wb_resp_valid`. -/
def respValid : Bool := decide (x.state = .done) && x.acked

def offered : Option CMsg := if i.routed then i.hostC else none

/-- `opcode inside {ReleaseData, ProbeAckData}`. -/
def hasData (c : CMsg) : Bool := c.opcode == .releaseData || c.opcode == .probeAckData

/-- `opcode inside {Release, ReleaseData}`. -/
def isRelease (c : CMsg) : Bool := c.opcode == .release || c.opcode == .releaseData

def isProbeAck (c : CMsg) : Bool := c.opcode == .probeAck || c.opcode == .probeAckData

def writes (c : CMsg) : Bool := !x.beatWritten && hasData c && x.param == TtoB

def forwards (c : CMsg) : Bool := !x.beatForwarded && hasData c

def acks (c : CMsg) : Bool := !x.beatAcked && isRelease c && i.last

/-- `host_c_ready_mult`. -/
def hostCReady : Bool :=
  decide (x.state = .probe) && (offered i).any fun c =>
    (!x.writes c || i.dataGnt) && (!x.forwards c || i.deviceCReady) &&
      (!x.acks i c || i.hostDReady)

/-- The tag after a message of a host. -/
def answered (c : CMsg) : LlcTag :=
  if isProbeAck c then
    { x.tag with
      owned := false
      mask := if toNone c.param then Nat.ldiff x.tag.mask i.selected else x.tag.mask }
  else x.tag

/-- A line that is not dirty may be dropped without a message. -/
def omits (t : LlcTag) : Bool :=
  x.release && (p.policy == .dirty || (p.policy == .exclusive && !t.writable))

def tagReq : Option (LlcTagReq p) :=
  match x.state with
  | .readTag => some ⟨x.address, 0, none⟩
  | .updateTag =>
    let wdata :=
      if x.param = BtoN ∨ x.param = TtoN then { x.tag with valid := false }
      else { x.tag with writable := false }
    some ⟨x.address, 0, some (x.way, wdata)⟩
  | .idle | .probe | .checkTag | .doData | .doing | .done => none

/-- The state after the tag of the line is known, and no host has to be probed. -/
def drop (x : WbTracker p) (t : LlcTag) : WbTracker p :=
  if x.omits t then { x with acked := true, state := .done } else { x with state := .doing }

/-- One clock edge, apart from `wb_acked_d` for a response of the device. -/
def stepState : WbTracker p :=
  match x.state with
  | .idle =>
    match i.req with
    | none => x
    | some r =>
      if i.blocked then x
      else
        { x with
          offset := 0
          address := r.address
          release := r.release
          param := r.param
          idx := r.idx
          probeSent := false
          dataSent := false
          acked := !r.release
          beatWritten := false
          beatForwarded := false
          beatAcked := false
          state := .readTag }
  | .readTag => if i.tagGnt then { x with state := .checkTag } else x
  | .checkTag =>
    let t := i.lookup.tag
    let y := { x with way := i.lookup.way, tag := t }
    if !i.lookup.hit then
      if x.release then { y with param := NtoN, acked := true, state := .done }
      else { y with param := NtoN, state := .doing }
    else
      let y := { y with
        param :=
          if t.writable then (if x.param = toN then TtoN else TtoB)
          else (if x.param = toN then BtoN else BtoB) }
      if (if x.param = toN then t.mask != 0 else t.owned) then { y with state := .probe }
      else if t.dirty then { y with state := .doData }
      else y.drop t
  | .probe =>
    let y := { x with probeSent := x.probeSent || i.probeReady }
    match offered i with
    | none => y
    | some c =>
      if x.hostCReady i then
        let y := { y with beatWritten := false, beatForwarded := false, beatAcked := false }
        if i.last then
          let t := x.answered i c
          let dataSent := x.dataSent || hasData c
          let y := { y with tag := t, dataSent := dataSent }
          if (if x.param = TtoB then !t.owned else t.mask == 0) then
            if dataSent then { y with state := .updateTag }
            else if x.tag.dirty then { y with state := .doData }
            else y.drop x.tag
          else y
        else y
      else
        { y with
          beatWritten := x.beatWritten || (x.writes c && i.dataGnt)
          beatForwarded := x.beatForwarded || (x.forwards c && i.deviceCReady)
          beatAcked := x.beatAcked || (x.acks i c && i.hostDReady) }
  | .doData =>
    if x.rdataValid then
      if i.deviceCReady then
        let offset := (x.offset + 1) % 2 ^ p.offsetWidth
        if offset = 0 then { x with offset := offset, rdataValid := false, state := .updateTag }
        else { x with offset := offset, rdataValid := i.dataGnt }
      else x
    else { x with rdataValid := i.dataGnt }
  | .doing =>
    if i.deviceCReady then
      { x with state := if x.param = NtoN then .done else .updateTag }
    else x
  | .updateTag => if i.tagGnt then { x with state := .done } else x
  | .done => if x.acked then { x with state := .idle } else x

/-- One clock edge; a new request starts without a response. -/
def step : WbTracker p :=
  let y := x.stepState i
  if i.ackValid && !(x.reqReady i.blocked && i.req.isSome) then { y with acked := true } else y

end WbTracker

/-! ## Requests -/

inductive LlcAcqState
  | idle
  | readTag
  | checkTag
  | probe
  | wb
  | fill
  | get
  | put
  | updateTag
  | ackWait
  deriving DecidableEq, Repr

structure AcqTracker (p : LlcParams) where
  state : LlcAcqState
  opcode : AOp
  param : ℕ
  size : ℕ
  address : ℕ
  source : ℕ
  tag : LlcTag
  evict : Fin p.numWays
  way : Fin p.numWays
  rtagValid : Bool
  rdataValid : Bool
  wbSent : Bool
  probeSent : Bool
  refillSent : Bool
  dataSent : Bool
  ackDone : Bool
  beatWritten : Bool
  beatForwarded : Bool
  beatAcked : Bool

structure AcqIn (p : LlcParams) where
  hostA : Option AMsg
  routedA : Bool
  lastA : Bool
  hostC : Option CMsg
  routedC : Bool
  lastC : Bool
  selected : ℕ
  grant : Option DMsg
  lastD : Bool
  ackValid : Bool
  dataGnt : Bool
  hostDReady : Bool
  deviceAReady : Bool
  deviceEReady : Bool
  probeReady : Bool
  wbReady : Bool
  wbResp : Bool
  tagGnt : Bool
  lookup : LlcLookup p

namespace AcqTracker
variable {p : LlcParams} (x : AcqTracker p) (i : AcqIn p)

def offeredA : Option AMsg := if i.routedA then i.hostA else none

def offeredC : Option CMsg := if i.routedC then i.hostC else none

/-- `opcode inside {Get, AcquireBlock} && size == LineWidth`. -/
def wholeLine : Bool := (x.opcode == .get || x.opcode == .acquireBlock) && x.size == 6

/-- The line that the tag of the tracker belongs to. -/
def tagLine : ℕ := cat x.tag.tag p.setsWidth (p.set (lineOf x.address))

/-! The beats of channel C while hosts are probed. -/

def writesC (c : CMsg) : Bool := !x.beatWritten && WbTracker.hasData c

def forwardsC (c : CMsg) : Bool :=
  !x.beatForwarded && c.opcode == .probeAckData && x.wholeLine

def acksC (c : CMsg) : Bool := !x.beatAcked && WbTracker.isRelease c && i.lastC

def hostCReady : Bool :=
  decide (x.state = .probe) && (offeredC i).any fun c =>
    (!x.writesC c || i.dataGnt) && (!x.forwardsC c || i.hostDReady) &&
      (!x.acksC i c || i.hostDReady)

/-- The tag after a message of a host. -/
def answered (c : CMsg) : LlcTag :=
  let t := { x.tag with dirty := x.tag.dirty || WbTracker.hasData c }
  if WbTracker.isProbeAck c then
    { t with
      owned := false
      mask := if toNone c.param then Nat.ldiff x.tag.mask i.selected else x.tag.mask }
  else t

/-! The beats of channel D during a refill. -/

def writesD (d : DMsg) : Bool := !x.beatWritten && d.opcode == .grantData && !d.corrupt

def forwardsD (d : DMsg) : Bool := !x.beatForwarded && d.opcode == .grantData && x.wholeLine

def acksD : Bool := !x.beatAcked && i.lastD

/-- `device_d_gnt_ready_mult`. -/
def grantReady : Bool :=
  decide (x.state = .fill) && i.grant.any fun d =>
    (!x.writesD d || i.dataGnt) && (!x.forwardsD d || i.hostDReady) &&
      (!x.acksD i || i.deviceEReady)

/-- The tag of a line that has been refilled. -/
def refilled (d : DMsg) : LlcTag :=
  ⟨p.tag (lineOf x.address), false, 0, false, d.param == toT, true⟩

/-! The beats of channel A while data are written. -/

def writesA : Bool := !x.beatWritten

def acksA : Bool := !x.beatAcked && i.lastA

/-- `host_a_ready_mult`. -/
def hostAReady : Bool :=
  match x.state with
  | .idle => (offeredA i).any fun a => !a.opcode.hasData
  | .put =>
    (offeredA i).isSome && (!x.writesA || i.dataGnt) && (!x.acksA i || i.hostDReady)
  | .readTag | .checkTag | .probe | .wb | .fill | .get | .updateTag | .ackWait => false

def tagReq : Option (LlcTagReq p) :=
  match x.state with
  | .readTag => some ⟨lineOf x.address, x.evict, none⟩
  | .updateTag => some ⟨lineOf x.address, x.evict, some (x.way, x.tag)⟩
  | .idle | .checkTag | .probe | .wb | .fill | .get | .put | .ackWait => none

/-- A request for a writeback of the victim. -/
def wbReq (j : Fin p.acqNum) : Option (LlcWbReq p) :=
  if x.state = .wb ∧ x.wbSent = false then some ⟨true, toN, x.tagLine, some j⟩ else none

/-- The tracker of a new request. -/
def start (a : AMsg) : AcqTracker p :=
  let y := { x with
    opcode := a.opcode
    source := a.source
    size := a.size
    address := a.address
    wbSent := false
    probeSent := false
    refillSent := false
    dataSent := false
    ackDone := x.ackDone || i.ackValid
    state := .readTag }
  match a.opcode with
  | .acquireBlock | .acquirePerm =>
    { y with param := if a.param = NtoB then toB else toT, ackDone := false }
  | .get => { y with param := toB, ackDone := true }
  | .putFullData | .putPartialData => { y with param := toT, ackDone := true }
  | .arithmeticData | .logicalData | .intent => y

/-- The next state for a line that is in the cache, where no permission is missing. -/
def serve (x : AcqTracker p) : AcqTracker p :=
  let mask := p.hostMask x.source
  let t := x.tag
  match x.opcode with
  | .acquireBlock | .acquirePerm =>
    if t.mask = 0 then
      if t.writable then
        { x with tag := { t with owned := true, mask := mask }, param := toT, state := .get }
      else { x with tag := { t with mask := mask }, state := .get }
    else if x.param = toT then
      if t.mask = mask then { x with tag := { t with owned := true }, state := .get }
      else { x with state := .probe }
    else if t.owned then { x with state := .probe }
    else { x with tag := { t with mask := t.mask ||| mask }, state := .get }
  | .get =>
    if t.mask = 0 then { x with state := .get }
    else if t.owned then { x with state := .probe }
    else { x with state := .get }
  | .putFullData | .putPartialData =>
    if t.mask = 0 then { x with state := .put } else { x with state := .probe }
  | .arithmeticData | .logicalData | .intent => x

/-- The state after a tag check. -/
def check : AcqTracker p :=
  let y :=
    if x.rtagValid then { x with way := i.lookup.way, tag := i.lookup.tag } else x
  if x.rtagValid && !i.lookup.hit then
    let t := i.lookup.tag
    { y with
      state := if t.valid && (t.mask != 0 || t.dirty) then .wb else .fill
      evict := x.evict + 1
      tag := { t with valid := false } }
  else
    let z := y.serve
    let z := if z.state = .get ∧ x.dataSent = true then { z with state := .updateTag } else z
    if z.state ≠ .probe ∧ x.param = toT ∧ z.tag.writable = false then { z with state := .fill }
    else z

/-- One clock edge, apart from the registers that are loaded in every state. -/
def stepState : AcqTracker p :=
  match x.state with
  | .idle =>
    match offeredA i with
    | none => x
    | some a => x.start i a
  | .readTag => if i.tagGnt then { x with state := .checkTag } else x
  | .checkTag => x.check i
  | .probe =>
    let y := { x with probeSent := x.probeSent || i.probeReady }
    match offeredC i with
    | none => y
    | some c =>
      if x.hostCReady i then
        let y := { y with beatWritten := false, beatForwarded := false, beatAcked := false }
        if i.lastC then
          let t := x.answered i c
          { y with
            tag := t
            dataSent := x.dataSent || (c.opcode == .probeAckData && x.wholeLine)
            state :=
              if (if x.param = toT then t.mask == 0 else !t.owned) then .checkTag else .probe }
        else y
      else
        { y with
          beatWritten := x.beatWritten || (x.writesC c && i.dataGnt)
          beatForwarded := x.beatForwarded || (x.forwardsC c && i.hostDReady)
          beatAcked := x.beatAcked || (x.acksC i c && i.hostDReady) }
  | .wb =>
    { x with
      wbSent := x.wbSent || i.wbReady
      state := if i.wbResp then .fill else .wb }
  | .fill =>
    let y := { x with refillSent := x.refillSent || i.deviceAReady }
    match i.grant with
    | none => y
    | some d =>
      if x.grantReady i then
        let y := { y with beatWritten := false, beatForwarded := false, beatAcked := false }
        if i.lastD then
          { y with
            tag := x.refilled d
            dataSent := x.dataSent || (d.opcode == .grantData && x.wholeLine)
            state := .checkTag }
        else y
      else
        { y with
          beatWritten := x.beatWritten || (x.writesD d && i.dataGnt)
          beatForwarded := x.beatForwarded || (x.forwardsD d && i.hostDReady)
          beatAcked := x.beatAcked || (x.acksD i && i.deviceEReady) }
  | .get =>
    if x.rdataValid then
      if i.hostDReady then
        let address := x.address + 2 ^ p.nonBurst
        if x.address / 2 ^ x.size ≠ address / 2 ^ x.size then
          { x with rdataValid := false, state := .updateTag }
        else { x with address := address, rdataValid := i.dataGnt }
      else x
    else { x with rdataValid := i.dataGnt }
  | .put =>
    match offeredA i with
    | none => x
    | some _ =>
      if x.hostAReady i then
        let y := { x with beatWritten := false, beatAcked := false }
        if i.lastA then { y with tag := { x.tag with dirty := true }, state := .updateTag }
        else { y with address := x.address + 2 ^ p.nonBurst }
      else
        { x with
          beatWritten := x.beatWritten || (x.writesA && i.dataGnt)
          beatAcked := x.beatAcked || (x.acksA i && i.hostDReady) }
  | .updateTag => if i.tagGnt then { x with state := .ackWait } else x
  | .ackWait => if x.ackDone || i.ackValid then { x with state := .idle } else x

/-- One clock edge. -/
def step : AcqTracker p :=
  let y := x.stepState i
  let y := { y with rtagValid := i.tagGnt }
  if i.ackValid && !(decide (x.state = .idle) && (offeredA i).isSome) then
    { y with ackDone := true }
  else y

end AcqTracker

/-! ## The cache -/

inductive LlcFlushState
  | reset
  | idle
  deriving DecidableEq, Repr

/-- A user of the tag and data RAMs. -/
inductive LlcPort (p : LlcParams)
  | rel (j : Fin p.relNum)
  | wb
  | acq (j : Fin p.acqNum)
  deriving DecidableEq

/-- The registers: the tag RAMs and the address of the last access, the register slices in front
of channels A and C, the counters of the burst trackers, the flush logic and the trackers. -/
structure Llc (p : LlcParams) where
  tags : TagRam LlcTag p.numWays
  tagAddrQ : ℕ
  tagWayFallbackQ : Fin p.numWays
  hostAReg : RegSlice AMsg
  hostCReg : RegSlice CMsg
  req : Burst
  rel : Burst
  gnt : Burst
  flushState : LlcFlushState
  flushIndex : ℕ
  relTracker : Fin p.relNum → RelTracker p
  wbTracker : WbTracker p
  acqTracker : Fin p.acqNum → AcqTracker p

/-- The messages that arrive in a cycle, and what the data path and the register slices take. -/
structure LlcIn (p : LlcParams) where
  hostA : Option AMsg
  hostC : Option CMsg
  hostE : Option EMsg
  deviceB : Option BMsg
  deviceD : Option DMsg
  dataGnt : LlcPort p → Bool
  hostDReady : LlcPort p → Bool
  probeReady : LlcPort p → Bool
  deviceAReady : Fin p.acqNum → Bool
  deviceCReady : Bool
  deviceEReady : Fin p.acqNum → Bool

namespace Llc
variable {p : LlcParams}

section Cycle
variable (s : Llc p) (i : LlcIn p)

/-! ### Channels behind their registers -/

def hostA : Option AMsg := RegSlice.Reverse.rData s.hostAReg i.hostA
def hostC : Option CMsg := RegSlice.Reverse.rData s.hostCReg i.hostC

def hostALast : Bool := (s.hostA i).any fun a => s.req.last p.burst a.opcode.hasData a.size
def hostCLast : Bool := (s.hostC i).any fun c => s.rel.last p.burst c.opcode.hasData c.size
def deviceDLast : Bool := i.deviceD.any fun d => s.gnt.last p.burst d.opcode.hasData d.size

def hostCSelected : ℕ := (s.hostC i).elim 0 fun c => p.hostMask c.source

/-! ### Flush -/

def flushLast : Bool := decide (s.flushIndex = 2 ^ p.setsWidth - 1)

/-- The last iteration makes no request. -/
def flushTagReq : Bool := decide (s.flushState = .reset) && !s.flushLast

def nextFlushState : LlcFlushState :=
  if s.flushState = .reset ∧ s.flushLast = true then .idle else s.flushState

def nextFlushIndex : ℕ :=
  if s.flushState = .reset then (s.flushIndex + 1) % 2 ^ p.setsWidth else s.flushIndex

/-! ### The tag RAMs -/

def tagReq : LlcPort p → Option (LlcTagReq p)
  | .rel j => (s.relTracker j).tagReq
  | .wb => s.wbTracker.tagReq
  | .acq j => (s.acqTracker j).tagReq

/-- `tag_arb_gnt`: flushing takes priority, then the greatest index. -/
def tagGrant : Option (LlcPort p) :=
  if s.flushTagReq then none
  else ((lastIdx fun j => (s.tagReq (.acq j)).isSome).map .acq).or
    ((if (s.tagReq .wb).isSome then some .wb else none).or
      ((lastIdx fun j => (s.tagReq (.rel j)).isSome).map .rel))

def tagGnt (k : LlcPort p) : Bool := s.tagGrant = some k

/-- What the tag RAMs are asked for; the other fields of a flushed tag are unknown. -/
def tagAccess : Option (TagReq LlcTag p.numWays) :=
  if s.flushTagReq then
    some (.write s.flushIndex (fun _ => true) ⟨0, false, 0, false, false, false⟩)
  else (s.tagGrant.bind s.tagReq).map fun r =>
    match r.write with
    | none => .read (p.set r.line)
    | some (way, wdata) => .write (p.set r.line) (fun k => k == way) wdata

def nextTagAddr : ℕ :=
  if s.flushTagReq then 0 else (s.tagGrant.bind s.tagReq).elim s.tagAddrQ LlcTagReq.line

def nextTagWayFallback : Fin p.numWays :=
  if s.flushTagReq then s.tagWayFallbackQ
  else (s.tagGrant.bind s.tagReq).elim s.tagWayFallbackQ LlcTagReq.wayFallback

def hit (k : Fin p.numWays) : Bool :=
  (s.tags.rdata k).valid && (s.tags.rdata k).tag == p.tag s.tagAddrQ

def hitWay : Fin p.numWays :=
  Core.hitWay s.hit (fun k => !(s.tags.rdata k).valid) s.tagWayFallbackQ

def lookup : LlcLookup p := ⟨(firstIdx s.hit).isSome, s.hitWay, s.tags.rdata s.hitWay⟩

/-! ### Writeback requests -/

/-- The request of the greatest index wins; that of a probe has the least. -/
def wbReq : Option (LlcWbReq p) :=
  ((lastIdx fun j => ((s.acqTracker j).wbReq j).isSome).bind fun j => (s.acqTracker j).wbReq j).or
    (i.deviceB.map fun b => ⟨false, b.param, lineOf b.address, none⟩)

def wbReqBlocked : Bool := (s.wbReq i).any fun r =>
  decide (∃ j, (s.acqTracker j).state ≠ .idle ∧ (s.acqTracker j).state ≠ .fill ∧
    lineOf (s.acqTracker j).address = r.address) ||
  decide (s.wbTracker.state ≠ .idle ∧ s.wbTracker.address = r.address) ||
  decide (∃ j, (s.relTracker j).state ≠ .idle ∧ lineOf (s.relTracker j).address = r.address) ||
  (s.hostC i).any fun c => lineOf c.address == r.address

/-- `wb_req_ready_mult` of an acquire tracker. -/
def wbReqReady (j : Fin p.acqNum) : Bool :=
  s.wbTracker.reqReady (s.wbReqBlocked i) && (s.wbReq i).any fun r => r.idx == some j

/-! ### Channel A -/

/-- `host_a_tracker_match`. -/
def matchA (a : AMsg) (j : Fin p.acqNum) : Bool :=
  decide ((s.acqTracker j).state ≠ .idle) &&
    p.set (lineOf (s.acqTracker j).address) == p.set (lineOf a.address)

/-- `host_a_blocked`. -/
def blockedA (a : AMsg) : Bool :=
  decide (s.wbTracker.state ≠ .idle ∧ s.wbTracker.address = lineOf a.address) ||
  decide (∃ j, (s.relTracker j).state ≠ .idle ∧
    lineOf (s.relTracker j).address = lineOf a.address) ||
  ((s.wbReq i).any fun r => r.address == lineOf a.address) ||
  (s.hostC i).any fun c => lineOf c.address == lineOf a.address

/-- The acquire tracker that sees the beat on channel A. -/
def routedA (j : Fin p.acqNum) : Bool := (s.hostA i).any fun a =>
  if ∃ k, s.matchA a k = true then s.matchA a j
  else if s.blockedA i a then false
  else lastIdx (fun k => decide ((s.acqTracker k).state = .idle)) == some j

/-! ### Channel C -/

/-- `host_c_tracker_match`. -/
def matchC (c : CMsg) : LlcPort p → Bool
  | .rel j => decide ((s.relTracker j).state ≠ .idle ∧
      lineOf (s.relTracker j).address = lineOf c.address)
  | .wb => decide (s.wbTracker.state ≠ .idle ∧ s.wbTracker.address = lineOf c.address)
  | .acq j => decide ((s.acqTracker j).state ≠ .idle ∧
      lineOf (s.acqTracker j).address = lineOf c.address)

/-- Some tracker has the line. -/
def matchedC (c : CMsg) : Bool :=
  decide (∃ j, s.matchC c (.rel j) = true) || s.matchC c .wb ||
    decide (∃ j, s.matchC c (.acq j) = true)

/-- `host_c_valid_mult`. -/
def routedC (k : LlcPort p) : Bool := (s.hostC i).any fun c =>
  if s.matchedC c then s.matchC c k
  else (lastIdx fun j => decide ((s.relTracker j).state = .idle)).map .rel == some k

/-! ### Channel D of the device -/

/-- `device_d_gnt_valid_mult`. -/
def grant (j : Fin p.acqNum) : Option DMsg :=
  i.deviceD.filter fun d => d.source == p.deviceSourceBase + j.val && d.opcode != .releaseAck

/-- `device_d_ack_valid_mult`. -/
def wbAckValid : Bool :=
  i.deviceD.any fun d => d.source == p.deviceSourceBase && d.opcode == .releaseAck

/-! ### The trackers -/

def relIn (j : Fin p.relNum) : RelIn p where
  hostC := s.hostC i
  routed := s.routedC i (.rel j)
  last := s.hostCLast i
  selected := s.hostCSelected i
  dataGnt := i.dataGnt (.rel j)
  hostDReady := i.hostDReady (.rel j)
  tagGnt := s.tagGnt (.rel j)
  lookup := s.lookup

def wbIn : WbIn p where
  req := s.wbReq i
  blocked := s.wbReqBlocked i
  hostC := s.hostC i
  routed := s.routedC i .wb
  last := s.hostCLast i
  selected := s.hostCSelected i
  dataGnt := i.dataGnt .wb
  hostDReady := i.hostDReady .wb
  deviceCReady := i.deviceCReady
  probeReady := i.probeReady .wb
  ackValid := wbAckValid i
  tagGnt := s.tagGnt .wb
  lookup := s.lookup

def acqIn (j : Fin p.acqNum) : AcqIn p where
  hostA := s.hostA i
  routedA := s.routedA i j
  lastA := s.hostALast i
  hostC := s.hostC i
  routedC := s.routedC i (.acq j)
  lastC := s.hostCLast i
  selected := s.hostCSelected i
  grant := grant i j
  lastD := s.deviceDLast i
  ackValid := i.hostE.any fun e => e.sink == p.sinkBase + j.val
  dataGnt := i.dataGnt (.acq j)
  hostDReady := i.hostDReady (.acq j)
  deviceAReady := i.deviceAReady j
  deviceEReady := i.deviceEReady j
  probeReady := i.probeReady (.acq j)
  wbReady := s.wbReqReady i j
  wbResp := s.wbTracker.respValid && s.wbTracker.idx == some j
  tagGnt := s.tagGnt (.acq j)
  lookup := s.lookup

/-- Only a tracker that the beat is routed to can take it. -/
def hostAReady : Bool := decide (∃ j, (s.acqTracker j).hostAReady (s.acqIn i j) = true)

def hostCReady : Bool :=
  decide (∃ j, (s.relTracker j).hostCReady (s.relIn i j) = true) ||
    s.wbTracker.hostCReady (s.wbIn i) ||
    decide (∃ j, (s.acqTracker j).hostCReady (s.acqIn i j) = true)

def deviceDReady : Bool :=
  wbAckValid i || decide (∃ j, (s.acqTracker j).grantReady (s.acqIn i j) = true)

def hostAFires : Option AMsg := RegSlice.Reverse.given s.hostAReg i.hostA (s.hostAReady i)
def hostCFires : Option CMsg := RegSlice.Reverse.given s.hostCReg i.hostC (s.hostCReady i)
def deviceDFires : Option DMsg := if s.deviceDReady i then i.deviceD else none

/-- One clock edge. -/
def step : Llc p where
  tags := s.tags.step s.tagAccess
  tagAddrQ := s.nextTagAddr
  tagWayFallbackQ := s.nextTagWayFallback
  hostAReg := RegSlice.Reverse.next s.hostAReg i.hostA (s.hostAReady i)
  hostCReg := RegSlice.Reverse.next s.hostCReg i.hostC (s.hostCReady i)
  req := s.req.after chanA p.burst (s.hostAFires i)
  rel := s.rel.after chanC p.burst (s.hostCFires i)
  gnt := s.gnt.after chanD p.burst (s.deviceDFires i)
  flushState := s.nextFlushState
  flushIndex := s.nextFlushIndex
  relTracker j := (s.relTracker j).step (s.relIn i j)
  wbTracker := s.wbTracker.step (s.wbIn i)
  acqTracker j := (s.acqTracker j).step (s.acqIn i j)

end Cycle

/-- The registers after reset; those that it does not set may have any values. -/
structure RelReset (x : RelTracker p) : Prop where
  state : x.state = .idle
  beatWritten : x.beatWritten = false
  beatAcked : x.beatAcked = false

structure WbReset (x : WbTracker p) : Prop where
  state : x.state = .idle
  offset : x.offset = 0
  way : x.way = 0
  probeSent : x.probeSent = false
  dataSent : x.dataSent = false
  acked : x.acked = false
  beatWritten : x.beatWritten = false
  beatForwarded : x.beatForwarded = false
  beatAcked : x.beatAcked = false
  rdataValid : x.rdataValid = false

structure AcqReset (x : AcqTracker p) : Prop where
  state : x.state = .idle
  size : x.size = 0
  evict : x.evict = 0
  rtagValid : x.rtagValid = false
  rdataValid : x.rdataValid = false
  wbSent : x.wbSent = false
  probeSent : x.probeSent = false
  refillSent : x.refillSent = false
  dataSent : x.dataSent = false
  ackDone : x.ackDone = false
  beatWritten : x.beatWritten = false
  beatForwarded : x.beatForwarded = false
  beatAcked : x.beatAcked = false

/-- The tag RAMs may have any contents. -/
structure IsReset (s : Llc p) : Prop where
  tagAddrQ : s.tagAddrQ = 0
  hostAReg : s.hostAReg = .reset
  hostCReg : s.hostCReg = .reset
  req : s.req = .reset p.burst
  rel : s.rel = .reset p.burst
  gnt : s.gnt = .reset p.burst
  flushState : s.flushState = .reset
  flushIndex : s.flushIndex = 0
  relTracker : ∀ j, RelReset (s.relTracker j)
  wbTracker : WbReset s.wbTracker
  acqTracker : ∀ j, AcqReset (s.acqTracker j)

end Llc

end Muntjac.Core

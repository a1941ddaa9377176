import Mathlib.Data.Fin.VecNotation
import Mathlib.Data.Nat.Bitwise
import Muntjac.Tl.Burst
import Muntjac.Tl.Mask
import Muntjac.Tl.Msg

/-!
# The broadcasting coherence manager

`tl_broadcast` keeps several caching hosts coherent without a directory.  One request
of channel A is handled at a time: every other host is probed, the acknowledgements
are counted, and only then is the request sent to the device or, for `AcquirePerm`,
granted at once.  Data that comes back in `ProbeAckData` or `ReleaseData` becomes a
write to the device.

The register slice at the host port only delays messages and is left to the link.

## Main definitions

* `Broadcast` — the registers; `BroadcastFsm` is the part that belongs to the request
  machine and to the probe sequencer.
* `Broadcast.next` — the registers after a cycle.
-/

namespace Muntjac.Tl

open Sync (cat lastIdx)

/-- The parameters.  `sourceBase` and `sourceMask` are the source table of the caching
hosts. -/
structure BroadcastParams where
  numCachedHosts : ℕ
  sourceBase : Fin numCachedHosts → ℕ
  sourceMask : Fin numCachedHosts → ℕ
  burst : BurstParams

def xactAcquireToT : ℕ := 0
def xactAcquireToB : ℕ := 1
def xactProbeAckData : ℕ := 0
def xactReleaseData : ℕ := 2
def xactUncached : ℕ := 3

inductive BroadcastState
  | idle
  | inv
  | req
  | grant
  | wait
  deriving DecidableEq, Repr, Inhabited

/-- The registers of the request machine and of the probe sequencer. -/
structure BroadcastFsm (p : BroadcastParams) where
  stateQ : BroadcastState
  opcodeQ : AOp
  addressQ : ℕ
  xactTypeQ : ℕ
  sourceQ : ℕ
  probeAckPendingQ : ℕ
  ackDoneQ : Bool
  grantDoneQ : Bool
  probePendingQ : Fin p.numCachedHosts → Bool
  probeParamQ : ℕ

/-- All registers.  The four burst trackers are those of channels A and D on either
side. -/
structure Broadcast (p : BroadcastParams) where
  fsm : BroadcastFsm p
  deviceReqArb : ChannelArb 2
  hostGntArb : ChannelArb 3
  hostReq : Burst
  hostGnt : Burst
  deviceReq : Burst
  deviceGnt : Burst

/-- The input ports. -/
structure BroadcastIn where
  hostA : Option AMsg
  hostBReady : Bool
  hostC : Option CMsg
  hostDReady : Bool
  hostE : Bool
  deviceAReady : Bool
  deviceD : Option DMsg

/-- Whether `source` belongs to caching host `i`. -/
def reqSelected (p : BroadcastParams) (source : ℕ) (i : Fin p.numCachedHosts) : Bool :=
  Nat.ldiff source (p.sourceMask i) == p.sourceBase i

/-- The number of caching hosts that a request from `source` probes. -/
def probeCount (p : BroadcastParams) (source : ℕ) : ℕ :=
  if ∀ i, reqSelected p source i = false then p.numCachedHosts else p.numCachedHosts - 1

/-- The line of an address. -/
def BroadcastParams.lineOf (p : BroadcastParams) (address : ℕ) : ℕ := address / 2 ^ p.burst.maxSize

namespace Broadcast
variable {p : BroadcastParams}

/-- The registers after reset. -/
def reset (p : BroadcastParams) : Broadcast p where
  fsm :=
    { stateQ := .idle
      opcodeQ := .get
      addressQ := 0
      xactTypeQ := 0
      sourceQ := 0
      probeAckPendingQ := 0
      ackDoneQ := false
      grantDoneQ := false
      probePendingQ := fun _ => false
      probeParamQ := 0 }
  deviceReqArb := .reset
  hostGntArb := .reset
  hostReq := .reset p.burst
  hostGnt := .reset p.burst
  deviceReq := .reset p.burst
  deviceGnt := .reset p.burst

/-! ## Requests to the device -/

/-- Origin 0 of channel A: data that hosts return on channel C. -/
def deviceReqRel (s : Broadcast p) (i : BroadcastIn) : Option AMsg :=
  i.hostC.bind fun c =>
    let put (source : ℕ) : AMsg :=
      { opcode := .putFullData, param := 0, size := c.size, source := source,
        address := c.address, mask := getMask p.burst.nonBurst c.address c.size,
        corrupt := c.corrupt, data := c.data }
    match c.opcode with
    | .probeAckData => some (put (cat s.fsm.sourceQ 2 xactProbeAckData))
    | .releaseData => some (put (cat c.source 2 xactReleaseData))
    | .probeAck | .release => none

/-- Origin 1 of channel A: the request being handled. -/
def deviceReqReq (s : Broadcast p) (i : BroadcastIn) : Option AMsg :=
  if s.fsm.stateQ = .req then
    i.hostA.map fun a =>
      { opcode := if s.fsm.xactTypeQ = xactUncached then s.fsm.opcodeQ else .get
        param := if s.fsm.xactTypeQ = xactUncached then a.param else 0
        size := a.size
        source := cat s.fsm.sourceQ 2 s.fsm.xactTypeQ
        address := s.fsm.addressQ
        mask := a.mask
        corrupt := a.corrupt
        data := a.data }
  else none

def deviceReqMult (s : Broadcast p) (i : BroadcastIn) : Fin 2 → Option AMsg :=
  ![s.deviceReqRel i, s.deviceReqReq i]

/-- Channel A towards the device. -/
def deviceA (s : Broadcast p) (i : BroadcastIn) : Option AMsg :=
  s.deviceReqArb.msg (s.deviceReqMult i)

def deviceReqReady (s : Broadcast p) (i : BroadcastIn) (k : Fin 2) : Bool :=
  s.deviceReqArb.ready (s.deviceReqMult i) i.deviceAReady k

/-! ## Responses to the hosts -/

/-- `host_req_last`. -/
def hostReqLast (s : Broadcast p) (a : AMsg) : Bool :=
  s.hostReq.last p.burst a.opcode.hasData a.size

/-- `device_gnt_last`. -/
def deviceGntLast (s : Broadcast p) (d : DMsg) : Bool :=
  s.deviceGnt.last p.burst d.opcode.hasData d.size

/-- Origin 0 of channel D: `ReleaseAck` for a `Release`. -/
def hostGntRel (i : BroadcastIn) : Option DMsg :=
  i.hostC.bind fun c =>
    if c.opcode = .release then
      some { opcode := .releaseAck, param := 0, size := c.size, source := c.source, sink := 0,
             denied := false, corrupt := false, data := 0 }
    else none

/-- Origin 1 of channel D: `Grant` for an `AcquirePerm`. -/
def hostGntGrant (s : Broadcast p) (i : BroadcastIn) : Option DMsg :=
  if s.fsm.stateQ = .grant then
    i.hostA.bind fun a =>
      if s.hostReqLast a then
        some { opcode := .grant, param := s.fsm.xactTypeQ, size := a.size, source := s.fsm.sourceQ,
               sink := 0, denied := false, corrupt := false, data := 0 }
      else none
  else none

/-- A response of the device that only confirms a write made for a `ProbeAckData`. -/
def isProbeAckData (d : DMsg) : Bool :=
  d.source % 4 == xactProbeAckData && d.opcode == .accessAck

/-- Origin 2 of channel D: a response of the device, under the opcode that the host
expects. -/
def hostGntDevice (i : BroadcastIn) : Option DMsg :=
  i.deviceD.bind fun d =>
    if isProbeAckData d then none
    else if d.source % 4 = xactAcquireToT then
      some { d with opcode := .grantData, param := toT, source := d.source / 4, sink := 0 }
    else if d.source % 4 = xactAcquireToB then
      some { d with opcode := .grantData, param := toB, source := d.source / 4, sink := 0 }
    else if d.source % 4 = xactReleaseData then
      some { d with opcode := .releaseAck, param := 0, source := d.source / 4, sink := 0,
                    denied := false }
    else some { d with param := 0, source := d.source / 4, sink := 0 }

def hostGntMult (s : Broadcast p) (i : BroadcastIn) : Fin 3 → Option DMsg :=
  ![hostGntRel i, s.hostGntGrant i, hostGntDevice i]

/-- Channel D towards the hosts. -/
def hostD (s : Broadcast p) (i : BroadcastIn) : Option DMsg := s.hostGntArb.msg (s.hostGntMult i)

def hostGntReady (s : Broadcast p) (i : BroadcastIn) (k : Fin 3) : Bool :=
  s.hostGntArb.ready (s.hostGntMult i) i.hostDReady k

/-! ## Ready signals -/

def hostAReady (s : Broadcast p) (i : BroadcastIn) : Bool :=
  match s.fsm.stateQ with
  | .req => s.deviceReqReady i 1
  | .grant => if (s.hostGntGrant i).isSome then s.hostGntReady i 1 else true
  | .idle | .inv | .wait => false

def hostCReady (s : Broadcast p) (i : BroadcastIn) : Bool :=
  match i.hostC with
  | none => false
  | some c =>
    match c.opcode with
    | .probeAck => true
    | .probeAckData | .releaseData => s.deviceReqReady i 0
    | .release => s.hostGntReady i 0

def deviceDReady (s : Broadcast p) (i : BroadcastIn) : Bool :=
  match i.deviceD with
  | none => false
  | some d => if isProbeAckData d then true else s.hostGntReady i 2

/-! ## Events that the request machine waits for -/

def probeAckComplete (i : BroadcastIn) : Bool :=
  match i.hostC with
  | none => false
  | some c => c.opcode == .probeAck

def probeAckDataComplete (i : BroadcastIn) : Bool :=
  match i.deviceD with
  | none => false
  | some d => isProbeAckData d

/-- The last beat of a response is offered, accepted or not. -/
def grantComplete (s : Broadcast p) (i : BroadcastIn) : Bool :=
  match i.deviceD with
  | none => false
  | some d => !isProbeAckData d && d.source % 4 != xactReleaseData && s.deviceGntLast d

/-! ## The probe sequencer -/

/-- The host whose probe is on channel B. -/
def probeSelected (s : Broadcast p) : Option (Fin p.numCachedHosts) := lastIdx s.fsm.probePendingQ

/-- Channel B towards the hosts. -/
def hostB (s : Broadcast p) : Option BMsg :=
  s.probeSelected.map fun k =>
    { opcode := .probeBlock
      param := s.fsm.probeParamQ
      size := p.burst.maxSize
      source := p.sourceBase k
      address := p.lineOf s.fsm.addressQ * 2 ^ p.burst.maxSize }

/-- The probes still to be sent after the one on channel B, if that is accepted. -/
def probePendingRest (s : Broadcast p) (i : BroadcastIn) : Fin p.numCachedHosts → Bool :=
  fun k => s.fsm.probePendingQ k && !(i.hostBReady && decide (s.probeSelected = some k))

/-! ## The registers after a cycle -/

/-- `probe_ack_pending_d`: a counter of `NumCachedHosts` bits. -/
def probeAckPendingD (s : Broadcast p) (i : BroadcastIn) : ℕ :=
  (s.fsm.probeAckPendingQ + 2 * 2 ^ p.numCachedHosts - (probeAckComplete i).toNat -
    (probeAckDataComplete i).toNat) % 2 ^ p.numCachedHosts

def nextFsm (s : Broadcast p) (i : BroadcastIn) : BroadcastFsm p :=
  -- the assignments before the case statement
  let f : BroadcastFsm p :=
    { s.fsm with
      ackDoneQ := s.fsm.ackDoneQ || i.hostE
      grantDoneQ := s.fsm.grantDoneQ || s.grantComplete i
      probePendingQ := s.probePendingRest i }
  match s.fsm.stateQ with
  | .idle =>
    match i.hostA with
    | none => f
    | some a =>
      let start : BroadcastFsm p :=
        { f with
          stateQ := .inv
          opcodeQ := a.opcode
          addressQ := a.address
          sourceQ := a.source
          grantDoneQ := false
          probePendingQ := fun k => !reqSelected p a.source k
          probeAckPendingQ := probeCount p a.source % 2 ^ p.numCachedHosts }
      match a.opcode with
      | .acquireBlock | .acquirePerm =>
        { start with
          ackDoneQ := false
          xactTypeQ := if a.param = NtoB then xactAcquireToB else xactAcquireToT
          probeParamQ := if a.param = NtoB then toB else toN }
      | .get | .putPartialData | .putFullData | .logicalData | .arithmeticData | .intent =>
        { start with
          ackDoneQ := true
          xactTypeQ := xactUncached
          probeParamQ := if a.opcode = .get then toB else toN }
  | .inv =>
    { f with
      probeAckPendingQ := s.probeAckPendingD i
      stateQ :=
        if s.probeAckPendingD i = 0 then
          (if s.fsm.opcodeQ = .acquirePerm then .grant else .req)
        else .inv }
  | .req =>
    match i.hostA with
    | none => f
    | some a =>
      if s.deviceReqReady i 1 && s.hostReqLast a then
        { f with stateQ := if s.fsm.opcodeQ = .acquireBlock then .wait else .idle }
      else f
  | .grant =>
    match i.hostA with
    | none => f
    | some a =>
      if s.hostGntReady i 1 && s.hostReqLast a then { f with grantDoneQ := true, stateQ := .wait }
      else f
  | .wait => { f with stateQ := if f.ackDoneQ && f.grantDoneQ then .idle else .wait }

/-- One cycle. -/
def next (s : Broadcast p) (i : BroadcastIn) : Broadcast p where
  fsm := s.nextFsm i
  deviceReqArb :=
    s.deviceReqArb.next (s.deviceReqMult i) i.deviceAReady <|
      match s.deviceA i with
      | none => false
      | some a => s.deviceReq.last p.burst a.opcode.hasData a.size
  hostGntArb :=
    s.hostGntArb.next (s.hostGntMult i) i.hostDReady <|
      match s.hostD i with
      | none => false
      | some d => s.hostGnt.last p.burst d.opcode.hasData d.size
  hostReq :=
    match i.hostA with
    | none => s.hostReq
    | some a => if s.hostAReady i then s.hostReq.next p.burst a.opcode.hasData a.size else s.hostReq
  hostGnt :=
    match s.hostD i with
    | none => s.hostGnt
    | some d => if i.hostDReady then s.hostGnt.next p.burst d.opcode.hasData d.size else s.hostGnt
  deviceReq :=
    match s.deviceA i with
    | none => s.deviceReq
    | some a =>
      if i.deviceAReady then s.deviceReq.next p.burst a.opcode.hasData a.size else s.deviceReq
  deviceGnt :=
    match i.deviceD with
    | none => s.deviceGnt
    | some d =>
      if s.deviceDReady i then s.deviceGnt.next p.burst d.opcode.hasData d.size else s.deviceGnt

end Broadcast

end Muntjac.Tl

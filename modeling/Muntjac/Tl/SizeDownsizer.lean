import Mathlib.Logic.Function.Basic
import Muntjac.Sync.Stream
import Muntjac.Tl.Messages
import Muntjac.Tl.Width

/-!
# The size downsizer

`tl_size_downsizer` cuts the requests of a host into fragments for a device that only takes
small ones.  The source of a fragment consists of the source of the host and of the number of
fragments that follow, so that the responses need no more than a table of sizes.

The module supports requests only; channels B, C and E are tied off.

## Main definitions

* `SizeParams` — the parameters that pass the checks of the module.
* `SizeDownsizer.step` — one cycle.
* `SizeDownsizer.Protocol` — a host that obeys TileLink and a device that answers in order.
-/

namespace Muntjac.Tl

open Sync

/-- The parameters.  `maxSize_lt` and `source_le` are the checks of the module (the second one as
the source has it).  The others make sense of the ports: there is a source, the burst tracker of
the device has a width, and the address space holds a message. -/
structure SizeParams where
  nonBurst : ℕ
  addrWidth : ℕ
  hostSourceWidth : ℕ
  deviceSourceWidth : ℕ
  hostMaxSize : ℕ
  deviceMaxSize : ℕ
  hostSourceWidth_pos : 0 < hostSourceWidth
  nonBurst_le : nonBurst ≤ deviceMaxSize
  hostMaxSize_le : hostMaxSize ≤ addrWidth
  maxSize_lt : deviceMaxSize < hostMaxSize
  source_le : deviceSourceWidth ≤ (hostMaxSize - deviceMaxSize) + hostSourceWidth

namespace SizeParams
variable (p : SizeParams)

def host : BurstParams := ⟨p.nonBurst, p.hostMaxSize⟩

def device : BurstParams := ⟨p.nonBurst, p.deviceMaxSize⟩

/-- `FragmentWidth`. -/
def fragmentWidth : ℕ := p.hostMaxSize - p.deviceMaxSize

end SizeParams

inductive ReqState
  | idle
  | noData
  | data
  deriving DecidableEq, Repr

/-- The registers: three channels of the burst trackers, `tracker_valid_q` and `tracker_info_q`,
those of the request, and the register slice of channel D. -/
structure SizeDownsizer where
  hostReq : Burst
  hostGnt : Burst
  deviceReq : Burst
  trackerValid : ℕ → Bool
  trackerInfo : ℕ → ℕ
  reqState : ReqState
  opcode : AOp
  param : ℕ
  source : ℕ
  address : ℕ
  len : ℕ
  grant : RegSlice DMsg

structure SizeDownsizerIn where
  hostA : Option AMsg
  hostDReady : Bool
  deviceAReady : Bool
  deviceD : Option DMsg

namespace SizeDownsizer
variable (p : SizeParams)

/-- `num_fragment`: the number of fragments after the first one. -/
def numFragment (size : ℕ) : ℕ := (2 ^ (size - p.deviceMaxSize) - 1) % 2 ^ p.fragmentWidth

/-- `device_a.source`, `{device_req_source, device_req_offset}` in `DeviceSourceWidth` bits. -/
def deviceSource (source offset : ℕ) : ℕ :=
  cat source p.fragmentWidth offset % 2 ^ p.deviceSourceWidth

/-- The registers after reset; the others do not matter then. -/
def reset : SizeDownsizer where
  hostReq := Burst.reset p.host
  hostGnt := Burst.reset p.host
  deviceReq := Burst.reset p.device
  trackerValid _ := false
  trackerInfo _ := 0
  reqState := .idle
  opcode := default
  param := 0
  source := 0
  address := 0
  len := 0
  grant := RegSlice.reset

/-! ## Channel A -/

section Request
variable (s : SizeDownsizer) (i : SizeDownsizerIn)

/-- In `ReqStateIdle`: a message waits for the response to the previous one with its source. -/
def accepts (h : AMsg) : Bool :=
  if s.hostReq.first p.host then !s.trackerValid h.source else true

/-- `device_a`. -/
def deviceA : Option AMsg :=
  match s.reqState with
  | .idle => (i.hostA.filter (accepts p s)).map fun h =>
      { h with
        size := if p.deviceMaxSize < h.size then p.deviceMaxSize else h.size
        source := deviceSource p h.source
          (if p.deviceMaxSize < h.size then numFragment p h.size else 0) }
  | .noData => some
      { opcode := s.opcode, param := s.param, size := p.deviceMaxSize,
        source := deviceSource p s.source s.len, address := s.address,
        mask := 2 ^ 2 ^ p.nonBurst - 1, corrupt := false, data := 0 }
  | .data => i.hostA.map fun h =>
      { h with
        opcode := s.opcode
        param := s.param
        size := p.deviceMaxSize
        source := deviceSource p s.source s.len
        address := s.address }

/-- `host_a_ready`. -/
def hostAReady : Bool :=
  match s.reqState with
  | .idle => i.hostA.all (accepts p s) && i.deviceAReady
  | .noData => false
  | .data => i.deviceAReady

def hostATransfer : Option AMsg := if hostAReady p s i then i.hostA else none

def deviceATransfer : Option AMsg := if i.deviceAReady then deviceA p s i else none

/-- The device takes the last beat of a fragment. -/
def deviceALast : Bool :=
  (deviceATransfer p s i).any fun m => s.deviceReq.last p.device m.opcode.hasData m.size

/-- The registers of the request with those of the next fragment. -/
def advance : SizeDownsizer :=
  { s with
    address := (s.address + 2 ^ p.deviceMaxSize) % 2 ^ p.addrWidth
    len := (s.len + (2 ^ p.fragmentWidth - 1)) % 2 ^ p.fragmentWidth
    reqState := if s.len = 0 then .idle else s.reqState }

/-- The registers of the request after a cycle. -/
def nextReq : SizeDownsizer :=
  match s.reqState with
  | .idle =>
      match i.hostA with
      | some h =>
          if deviceALast p s i then
            { s with
              opcode := h.opcode
              param := h.param
              source := h.source
              address := (h.address + 2 ^ p.deviceMaxSize) % 2 ^ p.addrWidth
              len := (numFragment p h.size + (2 ^ p.fragmentWidth - 1)) % 2 ^ p.fragmentWidth
              reqState :=
                if p.deviceMaxSize < h.size then
                  if h.opcode.hasData then .data else .noData
                else .idle }
          else s
      | none => s
  | .noData => if i.deviceAReady then advance p s else s
  | .data => if deviceALast p s i then advance p s else s

end Request

/-! ## Channel D -/

section Response
variable (s : SizeDownsizer) (i : SizeDownsizerIn)

/-- `device_d_source`, `device_d.source[FragmentWidth +: HostSourceWidth]`; bits that
`device_d.source` does not have are read as zero. -/
def dSource (y : DMsg) : ℕ := y.source / 2 ^ p.fragmentWidth % 2 ^ p.hostSourceWidth

/-- `device_d_offset`. -/
def dOffset (y : DMsg) : ℕ := y.source % 2 ^ p.fragmentWidth

/-- Only the last one of the acknowledgements goes to the host. -/
def discards (y : DMsg) : Bool := !y.opcode.hasData && dOffset p y != 0

/-- `host_d`. -/
def toHost (y : DMsg) : DMsg where
  opcode := y.opcode
  param := 0
  size := s.trackerInfo (dSource p y)
  source := dSource p y
  sink := 0
  denied := y.denied
  corrupt := y.corrupt
  data := y.data

def hostD : Option DMsg := (s.grant.buffer.filter fun y => !discards p y).map (toHost p s)

/-- `device_d_ready`, behind the register slice. -/
def deviceDReady : Bool := if s.grant.buffer.any (discards p) then true else i.hostDReady

def hostDTransfer : Option DMsg := if i.hostDReady then hostD p s else none

/-- The beat that the register slice takes from the device. -/
def deviceDTransfer : Option DMsg :=
  RegSlice.Forward.taken s.grant i.deviceD (deviceDReady p s i)

/-- The last beat of a response goes to the host. -/
def hostDLast : Option DMsg :=
  (hostDTransfer p s i).filter fun y => s.hostGnt.last p.host y.opcode.hasData y.size

end Response

/-! ## The machine -/

section Step
variable (s : SizeDownsizer) (i : SizeDownsizerIn)

/-- The first beat of a request is taken from the host. -/
def hostABegin : Option AMsg :=
  if s.hostReq.first p.host then hostATransfer p s i else none

/-- `tracker_valid_d`. -/
def trackerValidD : ℕ → Bool :=
  let cleared := match hostDLast p s i with
    | some y => Function.update s.trackerValid y.source false
    | none => s.trackerValid
  match hostABegin p s i with
  | some h => Function.update cleared h.source true
  | none => cleared

/-- `tracker_info_d`. -/
def trackerInfoD : ℕ → ℕ :=
  let cleared := match hostDLast p s i with
    | some y => Function.update s.trackerInfo y.source 0
    | none => s.trackerInfo
  match hostABegin p s i with
  | some h => Function.update cleared h.source h.size
  | none => cleared

def step : SizeDownsizer :=
  { nextReq p s i with
    hostReq := match hostATransfer p s i with
      | some h => s.hostReq.next p.host h.opcode.hasData h.size
      | none => s.hostReq
    hostGnt := match hostDTransfer p s i with
      | some y => s.hostGnt.next p.host y.opcode.hasData y.size
      | none => s.hostGnt
    deviceReq := match deviceATransfer p s i with
      | some m => s.deviceReq.next p.device m.opcode.hasData m.size
      | none => s.deviceReq
    trackerValid := trackerValidD p s i
    trackerInfo := trackerInfoD p s i
    grant := RegSlice.Forward.next s.grant i.deviceD (deviceDReady p s i) }

end Step

/-! ## Runs -/

section Streams
variable (ins : ℕ → SizeDownsizerIn)

/-- The state after `n` cycles. -/
def after : ℕ → SizeDownsizer := run (step p) (reset p) ins

def hostAStream : ℕ → List AMsg := stream fun k => hostATransfer p (after p ins k) (ins k)

def deviceAStream : ℕ → List AMsg := stream fun k => deviceATransfer p (after p ins k) (ins k)

def deviceDStream : ℕ → List DMsg := stream fun k => deviceDTransfer p (after p ins k) (ins k)

def hostDStream : ℕ → List DMsg := stream fun k => hostDTransfer p (after p ins k) (ins k)

/-- The requests of the host, in order. -/
def hostRequests (n : ℕ) : List AMsg := begun chanA p.host (hostAStream p ins n)

/-- The requests that the device has seen, in order. -/
def deviceRequests (n : ℕ) : List AMsg := begun chanA p.device (deviceAStream p ins n)

end Streams

/-! ## The rules of TileLink -/

/-- The response to a request. -/
def answer : AOp → DOp
  | .putFullData | .putPartialData => .accessAck
  | .arithmeticData | .logicalData | .get => .accessAckData
  | .intent => .hintAck
  | .acquireBlock => .grantData
  | .acquirePerm => .grant

/-- A beat of a request: it is a kind that the module supports, not larger than `HostMaxSize`,
aligned and inside the address space; without data the mask is full. -/
structure OkA (m : AMsg) : Prop where
  opcode : m.opcode ≠ .acquireBlock ∧ m.opcode ≠ .acquirePerm
  size : m.size ≤ p.hostMaxSize
  aligned : m.address % 2 ^ m.size = 0
  range : m.address + 2 ^ m.size ≤ 2 ^ p.addrWidth
  source : m.source < 2 ^ p.hostSourceWidth
  mask : m.opcode.hasData = false → p.nonBurst ≤ m.size → m.mask = 2 ^ 2 ^ p.nonBurst - 1

/-- A beat of the response to a request of the device. -/
structure Answers (r : AMsg) (y : DMsg) : Prop where
  opcode : y.opcode = answer r.opcode
  size : y.size = r.size
  source : y.source = r.source

/-- The messages of channel D answer the requests one after another. -/
def InOrder (c : Chan DMsg) (q : BurstParams) (reqs : List AMsg) (l : List DMsg) : Prop :=
  ∀ m y, m ++ [y] <+: l → ∃ r, reqs[(ended c q m).length]? = some r ∧ Answers r y

/-- The host and the device send whole messages.  The device answers the requests that it has
seen, in their order. -/
structure Protocol (ins : ℕ → SizeDownsizerIn) : Prop where
  a : ∀ n, Legal chanA p.host (OkA p) (hostAStream p ins n)
  d : ∀ n, Legal chanD p.device (fun _ => True) (deviceDStream p ins n)
  order : ∀ n, InOrder chanD p.device (deviceRequests p ins n) (deviceDStream p ins n)

end SizeDownsizer

end Muntjac.Tl

import Mathlib.Logic.Function.Basic
import Muntjac.Sync.Ring
import Muntjac.Sync.Stream
import Muntjac.Tl.Messages

/-!
# The FIFO converter

`tl_fifo_converter` gives every request a device source of its own, one slot of a ring after
another.  The responses of the device may come in any order; they are stored in the slots and
replayed in the order of the requests, through a register.

Channels B, C and E are tied off.

## Main definitions

* `FifoParams` — the parameters that pass the check of the module.
* `FifoConverter.step` — one cycle.
* `FifoConverter.Protocol` — a host that sends whole messages and a device that answers each
  request at most once, in any order.
-/

namespace Muntjac.Tl

open Sync

/-- The parameters.  `trackerWidth_le` is the check of the module; the others make sense of the
ports and of the response memory, which is not empty. -/
structure FifoParams where
  burst : BurstParams
  trackerWidth : ℕ
  deviceSourceWidth : ℕ
  nonBurst_le : burst.nonBurst ≤ burst.maxSize
  trackerWidth_pos : 0 < trackerWidth
  trackerWidth_le : trackerWidth ≤ deviceSourceWidth

namespace FifoParams
variable (p : FifoParams)

/-- `NumTracker`. -/
def numTracker : ℕ := 2 ^ p.trackerWidth

/-- `MaxBurstLen`. -/
def maxBurstLen : ℕ := 2 ^ (p.burst.maxSize - p.burst.nonBurst)

theorem numTracker_pos : 0 < p.numTracker := Nat.two_pow_pos _

end FifoParams

/-- `d_ctrl_t`: what the beats of a response share, without the source. -/
structure DCtrl where
  opcode : DOp
  param : ℕ
  size : ℕ
  sink : ℕ
  denied : Bool
  deriving DecidableEq, Repr

/-- `d_data_t`. -/
structure DData where
  corrupt : Bool
  data : ℕ
  deriving DecidableEq, Repr

def DMsg.ctrl (y : DMsg) : DCtrl where
  opcode := y.opcode
  param := y.param
  size := y.size
  sink := y.sink
  denied := y.denied

def DMsg.payload (y : DMsg) : DData := ⟨y.corrupt, y.data⟩

/-- The registers: the channels of the burst trackers that are used, the slots, the two indices,
the output register, the response memory and its output register. -/
structure FifoConverter where
  hostReq : Burst
  deviceGnt : Burst
  tmpGnt : Burst
  trackerValid : ℕ → Bool
  trackerReady : ℕ → Bool
  trackerSource : ℕ → ℕ
  trackerCtrl : ℕ → DCtrl
  trackerAIdx : ℕ
  trackerDIdx : ℕ
  hostDValid : Bool
  hostDCtrl : DCtrl
  hostDSource : ℕ
  trackerData : ℕ → DData
  trackerDataR : DData

structure FifoConverterIn where
  hostA : Option AMsg
  hostDReady : Bool
  deviceAReady : Bool
  deviceD : Option DMsg

namespace FifoConverter
variable (p : FifoParams)

/-- The registers after reset; the memories, the sources and the output register do not matter
then. -/
def reset : FifoConverter where
  hostReq := Burst.reset p.burst
  deviceGnt := Burst.reset p.burst
  tmpGnt := Burst.reset p.burst
  trackerValid _ := false
  trackerReady _ := false
  trackerSource _ := 0
  trackerCtrl _ := ⟨.accessAck, 0, 0, 0, false⟩
  trackerAIdx := 0
  trackerDIdx := 0
  hostDValid := false
  hostDCtrl := ⟨.accessAck, 0, 0, 0, false⟩
  hostDSource := 0
  trackerData _ := ⟨false, 0⟩
  trackerDataR := ⟨false, 0⟩

/-! ## Channel A -/

section Request
variable (s : FifoConverter) (i : FifoConverterIn)

/-- A request begins only if the next slot is free. -/
def accepts : Bool := if s.hostReq.first p.burst then !s.trackerValid s.trackerAIdx else true

/-- `device_a`. -/
def deviceA : Option AMsg :=
  if accepts p s then i.hostA.map fun h => { h with source := s.trackerAIdx } else none

/-- `host_a_ready`. -/
def hostAReady : Bool := (i.hostA.isNone || accepts p s) && i.deviceAReady

def hostATransfer : Option AMsg := if hostAReady p s i then i.hostA else none

def deviceATransfer : Option AMsg := if i.deviceAReady then deviceA p s i else none

/-- The first beat of a request. -/
def hostABegin : Option AMsg :=
  if s.hostReq.first p.burst then hostATransfer p s i else none

/-- The last beat of a request. -/
def hostAEnd : Option AMsg :=
  (hostATransfer p s i).filter fun h => s.hostReq.last p.burst h.opcode.hasData h.size

end Request

/-! ## Channel D -/

section Response
variable (s : FifoConverter) (i : FifoConverterIn)

/-- `device_d.source[TrackerWidth-1:0]`. -/
def slotOf (y : DMsg) : ℕ := y.source % p.numTracker

/-- `{beat_idx, idx}`. -/
def dataIdx (beat idx : ℕ) : ℕ := cat beat p.trackerWidth idx

/-- `device_d_ready` is always set; the last beat of a response. -/
def deviceDEnd : Option DMsg :=
  i.deviceD.filter fun y => s.deviceGnt.last p.burst y.opcode.hasData y.size

/-- The word of the memory that a beat is written to, if there is one. -/
def dataWIdx (y : DMsg) : ℕ :=
  dataIdx p (s.deviceGnt.idx p.burst y.opcode.hasData y.size) (slotOf p y)

/-- `tracker_data_q` after a cycle. -/
def trackerDataD : ℕ → DData :=
  match i.deviceD with
  | some y =>
      if dataWIdx p s y < p.numTracker * p.maxBurstLen then
        Function.update s.trackerData (dataWIdx p s y) y.payload
      else s.trackerData
  | none => s.trackerData

/-- `tracker_ctrl_q` after a cycle. -/
def trackerCtrlD : ℕ → DCtrl :=
  match deviceDEnd p s i with
  | some y => Function.update s.trackerCtrl (slotOf p y) y.ctrl
  | none => s.trackerCtrl

/-- `tmp_d`. -/
def tmpD : DCtrl := s.trackerCtrl s.trackerDIdx

/-- `tmp_d_valid`. -/
def tmpDValid : Bool := s.trackerReady s.trackerDIdx

/-- `tmp_d_ready`. -/
def tmpDReady : Bool := !s.hostDValid || i.hostDReady

/-- A beat goes to the output register. -/
def tmpDTransfer : Bool := tmpDValid s && tmpDReady s i

def tmpDLast : Bool := s.tmpGnt.last p.burst (tmpD s).opcode.hasData (tmpD s).size

/-- `tracker_data_r_data` after a cycle with a transfer. -/
def readData : DData :=
  s.trackerData
    (dataIdx p (s.tmpGnt.idx p.burst (tmpD s).opcode.hasData (tmpD s).size) s.trackerDIdx)

/-- `host_d`. -/
def hostD : Option DMsg :=
  if s.hostDValid then some
    { opcode := s.hostDCtrl.opcode, param := s.hostDCtrl.param, size := s.hostDCtrl.size,
      source := s.hostDSource, sink := s.hostDCtrl.sink, denied := s.hostDCtrl.denied,
      corrupt := s.trackerDataR.corrupt, data := s.trackerDataR.data }
  else none

def hostDTransfer : Option DMsg := if i.hostDReady then hostD s else none

end Response

/-! ## The machine -/

section Step
variable (s : FifoConverter) (i : FifoConverterIn)

/-- A response has been replayed. -/
def completes : Bool := tmpDTransfer s i && tmpDLast p s

/-- `tracker_valid_d`. -/
def trackerValidD : ℕ → Bool :=
  let cleared := if completes p s i then Function.update s.trackerValid s.trackerDIdx false
    else s.trackerValid
  if (hostABegin p s i).isSome then Function.update cleared s.trackerAIdx true else cleared

/-- `tracker_ready_d`. -/
def trackerReadyD : ℕ → Bool :=
  let set := match deviceDEnd p s i with
    | some y => Function.update s.trackerReady (slotOf p y) true
    | none => s.trackerReady
  if completes p s i then Function.update set s.trackerDIdx false else set

/-- `tracker_source_d`. -/
def trackerSourceD : ℕ → ℕ :=
  let cleared := if completes p s i then Function.update s.trackerSource s.trackerDIdx 0
    else s.trackerSource
  match hostABegin p s i with
  | some h => Function.update cleared s.trackerAIdx h.source
  | none => cleared

def step : FifoConverter where
  hostReq := (hostATransfer p s i).elim s.hostReq
    fun h => s.hostReq.next p.burst h.opcode.hasData h.size
  deviceGnt := i.deviceD.elim s.deviceGnt
    fun y => s.deviceGnt.next p.burst y.opcode.hasData y.size
  tmpGnt := if tmpDTransfer s i then s.tmpGnt.next p.burst (tmpD s).opcode.hasData (tmpD s).size
    else s.tmpGnt
  trackerValid := trackerValidD p s i
  trackerReady := trackerReadyD p s i
  trackerSource := trackerSourceD p s i
  trackerCtrl := trackerCtrlD p s i
  trackerAIdx := if (hostAEnd p s i).isSome then (s.trackerAIdx + 1) % p.numTracker
    else s.trackerAIdx
  trackerDIdx := if completes p s i then (s.trackerDIdx + 1) % p.numTracker else s.trackerDIdx
  hostDValid := if tmpDValid s then true else if i.hostDReady then false else s.hostDValid
  hostDCtrl := if tmpDTransfer s i then tmpD s else s.hostDCtrl
  hostDSource := if tmpDTransfer s i then s.trackerSource s.trackerDIdx else s.hostDSource
  trackerData := trackerDataD p s i
  trackerDataR := if tmpDTransfer s i then readData p s else s.trackerDataR

end Step

/-! ## Runs -/

section Streams
variable (ins : ℕ → FifoConverterIn)

/-- The state after `n` cycles. -/
def after : ℕ → FifoConverter := run (step p) (reset p) ins

def hostAStream : ℕ → List AMsg := stream fun k => hostATransfer p (after p ins k) (ins k)

def deviceAStream : ℕ → List AMsg := stream fun k => deviceATransfer p (after p ins k) (ins k)

def deviceDStream : ℕ → List DMsg := stream fun k => (ins k).deviceD

def hostDStream : ℕ → List DMsg := stream fun k => hostDTransfer (after p ins k) (ins k)

/-- The requests of the host, in order. -/
def hostRequests (n : ℕ) : List AMsg := begun chanA p.burst (hostAStream p ins n)

/-- The requests that the device has seen, in order. -/
def deviceRequests (n : ℕ) : List AMsg := begun chanA p.burst (deviceAStream p ins n)

/-- The complete responses of the device, in the order of the device. -/
def deviceResponses (n : ℕ) : List (List DMsg) := messages chanD p.burst (deviceDStream ins n)

end Streams

/-! ## The rules of TileLink -/

/-- The host and the device send whole messages.  Message number `j` of the device answers its
request number `ans j`, which has begun by then; no request is answered twice. -/
structure Protocol (ins : ℕ → FifoConverterIn) (ans : ℕ → ℕ) : Prop where
  a : ∀ n, Legal chanA p.burst (fun h => h.size ≤ p.burst.maxSize) (hostAStream p ins n)
  d : ∀ n, Legal chanD p.burst (fun _ => True) (deviceDStream ins n)
  once : Function.Injective ans
  answers : ∀ n m y, m ++ [y] <+: deviceDStream ins n →
    ∃ r, (deviceRequests p ins n)[ans (messages chanD p.burst m).length]? = some r ∧
      y.source = r.source ∧ y.size = r.size

end FifoConverter

end Muntjac.Tl

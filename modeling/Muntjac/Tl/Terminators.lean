import Muntjac.Tl.BurstTracker
import Muntjac.Tl.Grants
import Muntjac.Tl.Mask

/-!
# The terminators

A terminator ends a cached link.  `tl_ram_terminator`, `tl_io_terminator` and
`tl_rom_terminator` turn the messages of one host into accesses without caching, or answer them
themselves; `tl_error_sink` refuses everything.  Their responses share channel D of the host.

The sinks are managed as in `HostD`; the other modules leave the sink of a response open.

## Main definitions

* `RamTerminator`, `IoTerminator`, `RomTerminator`, `ErrorSink` — registers, outputs and one
  clock edge of each module.
* `AOp.answer` — the opcode with which a device answers a request.
-/

namespace Muntjac.Tl

open Sync

/-- The geometry of the messages, `HostSourceWidth`, `SinkBase` and `SinkMask`. -/
structure TerminatorParams where
  burst : BurstParams
  hostWidth : ℕ
  sink : SinkParams
  deriving DecidableEq, Repr

/-- What the host and the device drive in a cycle. -/
structure TerminatorIn where
  hostA : Option AMsg
  hostC : Option CMsg
  hostDReady : Bool
  hostE : Option EMsg
  deviceAReady : Bool
  deviceD : Option DMsg

/-- The opcode with which a device without caches answers a request. -/
def AOp.answer : AOp → DOp
  | .putFullData | .putPartialData => .accessAck
  | .arithmeticData | .logicalData | .get => .accessAckData
  | .intent => .hintAck
  | .acquireBlock | .acquirePerm => .grant

/-! ## Messages -/

/-- The response to a request that is answered immediately. -/
def AMsg.respond (x : AMsg) (opcode : DOp) (param : ℕ) (denied corrupt : Bool) : DMsg where
  opcode := opcode
  param := param
  size := x.size
  source := x.source
  sink := 0
  denied := denied
  corrupt := corrupt
  data := 0

/-- The response to a release. -/
def CMsg.releaseAck (x : CMsg) : DMsg where
  opcode := .releaseAck
  param := 0
  size := x.size
  source := x.source
  sink := 0
  denied := false
  corrupt := false
  data := 0

/-! ## `tl_ram_terminator` -/

structure RamTerminator (p : TerminatorParams) where
  hostD : HostD p.sink 3
  deviceA : Shared 2

namespace RamTerminator

def reset (p : TerminatorParams) : RamTerminator p := ⟨.reset p.burst, .reset p.burst⟩

/-- Requests that are granted immediately. -/
def upgrades (x : AMsg) : Bool :=
  x.opcode == .acquirePerm || (x.opcode == .acquireBlock && x.param == BtoT)

def grantT (x : AMsg) : DMsg := x.respond .grant toT false false

section Cycle
variable {p : TerminatorParams} (s : RamTerminator p) (i : TerminatorIn)

/-- All other requests are forwarded to the device. -/
def forwardA (p : TerminatorParams) (x : AMsg) : AMsg where
  opcode := if x.opcode = .acquireBlock then .get else x.opcode
  param := 0
  size := x.size
  source := cat (if x.opcode = .acquireBlock then 1 else 0) p.hostWidth x.source
  address := x.address
  mask := x.mask
  corrupt := x.corrupt
  data := x.data

/-- Messages of channel C other than `Release` are written. -/
def forwardC (p : TerminatorParams) (x : CMsg) : AMsg where
  opcode := .putFullData
  param := 0
  size := x.size
  source := cat 3 p.hostWidth x.source
  address := x.address
  mask := getMask p.burst.nonBurst (x.address % 8) x.size
  corrupt := x.corrupt
  data := x.data

/-- The response for the host; the two bits above its source tell what it answers.  There is
no response with `2'b10`. -/
def response (p : TerminatorParams) (x : DMsg) : DMsg :=
  let kind := highBits p.hostWidth x.source % 4
  { x with
    opcode := if kind = 1 then .grantData else if kind = 3 then .releaseAck else x.opcode
    param := if kind = 1 then toT else 0
    source := lowBits p.hostWidth x.source
    sink := 0 }

/-- `device_a_mult`, where it is valid. -/
def deviceAMult (p : TerminatorParams) (i : TerminatorIn) : Fin 2 → Option AMsg
  | 0 => (i.hostA.filter fun x => !upgrades x).map (forwardA p)
  | 1 => (i.hostC.filter fun x => x.opcode != .release).map (forwardC p)

/-- `host_d_mult`, where it is valid. -/
def hostDMult (p : TerminatorParams) (i : TerminatorIn) : Fin 3 → Option DMsg
  | 0 => i.deviceD.map (response p)
  | 1 => (i.hostA.filter upgrades).map grantT
  | 2 => (i.hostC.filter fun x => x.opcode == .release).map CMsg.releaseAck

def hostDReadyMult (k : Fin 3) : Bool :=
  s.hostD.readyMult p.burst (hostDMult p i) i.hostDReady k

def deviceAReadyMult (k : Fin 2) : Bool :=
  s.deviceA.arb.ready (deviceAMult p i) i.deviceAReady k

def hostAReady : Bool := i.hostA.all fun x =>
  if upgrades x then s.hostDReadyMult i 1 else s.deviceAReadyMult i 0

def hostCReady : Bool := i.hostC.all fun x =>
  if x.opcode == .release then s.hostDReadyMult i 2 else s.deviceAReadyMult i 1

def deviceDReady : Bool := i.deviceD.isSome && s.hostDReadyMult i 0

/-! What is transferred in a cycle. -/

def hostAFires : Option AMsg := if s.hostAReady i then i.hostA else none
def hostCFires : Option CMsg := if s.hostCReady i then i.hostC else none
def hostDFires : Option DMsg := s.hostD.fires p.burst (hostDMult p i) i.hostDReady
def deviceAFires : Option AMsg := s.deviceA.out (deviceAMult p i) i.deviceAReady
def deviceDFires : Option DMsg := if s.deviceDReady i then i.deviceD else none

/-- One clock edge. -/
def step : RamTerminator p where
  hostD := s.hostD.step p.burst (hostDMult p i) i.hostDReady i.hostE
  deviceA := s.deviceA.step chanA p.burst (deviceAMult p i) i.deviceAReady

end Cycle

end RamTerminator

/-! ## `tl_io_terminator` -/

structure IoTerminator (p : TerminatorParams) where
  hostD : HostD p.sink 2

namespace IoTerminator

def reset (p : TerminatorParams) : IoTerminator p := ⟨.reset p.burst⟩

/-- `opcode inside {AcquirePerm, AcquireBlock}`. -/
def denies (x : AMsg) : Bool := x.opcode == .acquirePerm || x.opcode == .acquireBlock

def denial (x : AMsg) : DMsg := x.respond .grant toN true false

def forwardA (x : AMsg) : AMsg := { x with param := 0 }

def response (x : DMsg) : DMsg := { x with sink := 0 }

section Cycle
variable {p : TerminatorParams} (s : IoTerminator p) (i : TerminatorIn)

def hostDMult (i : TerminatorIn) : Fin 2 → Option DMsg
  | 0 => i.deviceD.map response
  | 1 => (i.hostA.filter denies).map denial

def hostDReadyMult (k : Fin 2) : Bool :=
  s.hostD.readyMult p.burst (hostDMult i) i.hostDReady k

def deviceA : Option AMsg := (i.hostA.filter fun x => !denies x).map forwardA

def hostAReady : Bool := i.hostA.all fun x =>
  if denies x then s.hostDReadyMult i 1 else i.deviceAReady

def deviceDReady : Bool := if i.deviceD.isSome then s.hostDReadyMult i 0 else true

def hostAFires : Option AMsg := if s.hostAReady i then i.hostA else none
def hostDFires : Option DMsg := s.hostD.fires p.burst (hostDMult i) i.hostDReady
def deviceAFires (_ : IoTerminator p) (i : TerminatorIn) : Option AMsg :=
  if i.deviceAReady then deviceA i else none
def deviceDFires : Option DMsg := if s.deviceDReady i then i.deviceD else none

/-- One clock edge. -/
def step : IoTerminator p where
  hostD := s.hostD.step p.burst (hostDMult i) i.hostDReady i.hostE

end Cycle

end IoTerminator

/-! ## `tl_rom_terminator` -/

/-- The registers, and the counter of the burst tracker for channel A. -/
structure RomTerminator (p : TerminatorParams) where
  hostD : HostD p.sink 3
  req : Burst

namespace RomTerminator

def reset (p : TerminatorParams) : RomTerminator p := ⟨.reset p.burst, .reset p.burst⟩

/-- `host_a_forward`. -/
def forwards (x : AMsg) : Bool :=
  match x.opcode with
  | .acquireBlock => x.param == NtoB
  | .get => true
  | .putFullData | .putPartialData | .arithmeticData | .logicalData | .intent | .acquirePerm =>
    false

/-- The answer to a request that is not forwarded; `Get` always is. -/
def denial (x : AMsg) : DMsg :=
  match x.opcode with
  | .putFullData | .putPartialData | .get => x.respond .accessAck 0 true false
  | .arithmeticData | .logicalData => x.respond .accessAckData 0 true true
  | .intent => x.respond .hintAck 0 true false
  | .acquireBlock | .acquirePerm => x.respond .grant toN (x.param != NtoB) false

/-- A write is answered on its last beat. -/
def isPut (x : AMsg) : Bool := x.opcode == .putFullData || x.opcode == .putPartialData

section Cycle
variable {p : TerminatorParams} (s : RomTerminator p) (i : TerminatorIn)

def forwardA (p : TerminatorParams) (x : AMsg) : AMsg where
  opcode := if x.opcode = .acquireBlock ∨ x.opcode = .acquirePerm then .get else x.opcode
  param := 0
  size := x.size
  source := cat (if x.opcode = .acquireBlock ∨ x.opcode = .acquirePerm then 1 else 0)
    p.hostWidth x.source
  address := x.address
  mask := x.mask
  corrupt := x.corrupt
  data := x.data

def response (p : TerminatorParams) (x : DMsg) : DMsg :=
  let kind := highBits p.hostWidth x.source % 2
  { x with
    opcode := if kind = 1 then .grantData else x.opcode
    param := if kind = 1 then toB else 0
    source := lowBits p.hostWidth x.source
    sink := 0 }

/-- `host_a_last`. -/
def hostALast (x : AMsg) : Bool := s.req.last p.burst x.opcode.hasData x.size

def hostDMult : Fin 3 → Option DMsg
  | 0 => i.deviceD.map (response p)
  | 1 => (i.hostA.filter fun x => !forwards x && (!isPut x || s.hostALast x)).map denial
  | 2 => i.hostC.map CMsg.releaseAck

def hostDReadyMult (k : Fin 3) : Bool :=
  s.hostD.readyMult p.burst (s.hostDMult i) i.hostDReady k

def deviceA (p : TerminatorParams) (i : TerminatorIn) : Option AMsg :=
  (i.hostA.filter forwards).map (forwardA p)

def hostAReady : Bool := i.hostA.all fun x =>
  if forwards x then i.deviceAReady else s.hostDReadyMult i 1

def hostCReady : Bool := i.hostC.all fun _ => s.hostDReadyMult i 2

def deviceDReady : Bool := i.deviceD.isSome && s.hostDReadyMult i 0

def hostAFires : Option AMsg := if s.hostAReady i then i.hostA else none
def hostCFires : Option CMsg := if s.hostCReady i then i.hostC else none
def hostDFires : Option DMsg := s.hostD.fires p.burst (s.hostDMult i) i.hostDReady
def deviceAFires (_ : RomTerminator p) (i : TerminatorIn) : Option AMsg :=
  if i.deviceAReady then deviceA p i else none
def deviceDFires : Option DMsg := if s.deviceDReady i then i.deviceD else none

/-- One clock edge. -/
def step : RomTerminator p where
  hostD := s.hostD.step p.burst (s.hostDMult i) i.hostDReady i.hostE
  req := s.req.after chanA p.burst (s.hostAFires i)

end Cycle

end RomTerminator

/-! ## `tl_error_sink` -/

structure ErrorSink (q : SinkParams) where
  port : SinkPort q
  req : Burst

namespace ErrorSink

def reset (p : TerminatorParams) : ErrorSink p.sink := ⟨.reset p.burst, .reset p.burst⟩

/-- The answer to a request. -/
def denial (x : AMsg) : DMsg :=
  match x.opcode with
  | .putFullData | .putPartialData => x.respond .accessAck 0 true false
  | .arithmeticData | .logicalData | .get => x.respond .accessAckData 0 true true
  | .intent => x.respond .hintAck 0 true false
  | .acquireBlock | .acquirePerm => x.respond .grant toN true false

section Cycle
variable (p : TerminatorParams) (s : ErrorSink p.sink) (i : TerminatorIn)

def hostALast (x : AMsg) : Bool := s.req.last p.burst x.opcode.hasData x.size

/-- The response is sent while the last beat of the request waits. -/
def hostDNosink : Option DMsg := (i.hostA.filter (hostALast p s)).map denial

def hostDLast : Bool := (hostDNosink p s i).any fun x =>
  s.port.burst.last p.burst x.opcode.hasData x.size

def hostAReady : Bool := i.hostA.all fun x =>
  if hostALast p s x then
    s.port.readyNosink p.burst (hostDNosink p s i) i.hostDReady && hostDLast p s i
  else true

def hostAFires : Option AMsg := if hostAReady p s i then i.hostA else none
def hostDFires : Option DMsg := s.port.fires p.burst (hostDNosink p s i) i.hostDReady

/-- One clock edge. -/
def step : ErrorSink p.sink where
  port := s.port.step p.burst (hostDNosink p s i) i.hostDReady i.hostE
  req := s.req.after chanA p.burst (hostAFires p s i)

end Cycle

end ErrorSink

end Muntjac.Tl

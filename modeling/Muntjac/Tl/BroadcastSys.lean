import Muntjac.Sync.Bytes
import Muntjac.Sync.Run
import Muntjac.Tl.Broadcast

/-!
# Hosts and memory around the broadcasting manager

`BroadcastSys` puts `Broadcast` between caching hosts, uncached clients and a memory.
Every channel is a queue of messages; the head of a queue is transferred beat by beat
through the ports of the manager, whenever the link offers it.  Hosts act between
cycles, in any order, as long as each action is one that TileLink-C allows a host
(`BroadcastEnv.Conforms`).

The memory performs each request when it accepts it and answers in that order, after
any delay.  `cur` is the value that was written last to each byte; it is a ghost, as
are `served` and the phases of transactions that a host cannot see.

## Main definitions

* `BroadcastEnv` — everything outside the manager.
* `HostAct` — what a host or client can do between two cycles.
* `BroadcastSys.step` — a cycle or an action.
-/

namespace Muntjac.Tl

open Sync (unpack pack)

/-- The number of beats of a line. -/
def BroadcastParams.lineBeats (p : BroadcastParams) : ℕ :=
  2 ^ (p.burst.maxSize - p.burst.nonBurst)

/-- The bytes of one beat. -/
abbrev BroadcastParams.Word (p : BroadcastParams) := Fin (2 ^ p.burst.nonBurst) → BitVec 8

/-- A memory image: the bytes of each beat of each line. -/
abbrev BroadcastParams.Image (p : BroadcastParams) := ℕ → ℕ → p.Word

/-- The bytes of a word on the bus. -/
abbrev BroadcastParams.word (p : BroadcastParams) (x : ℕ) : p.Word := unpack _ x

/-- The beat of its line at which the message with this address starts. -/
def BroadcastParams.beatOf (p : BroadcastParams) (address : ℕ) : ℕ :=
  address % 2 ^ p.burst.maxSize / 2 ^ p.burst.nonBurst

/-- A message of channel A with all its beats. -/
structure AReq where
  opcode : AOp
  param : ℕ
  size : ℕ
  source : ℕ
  address : ℕ
  mask : ℕ → ℕ
  data : ℕ → ℕ

namespace AReq

def beat (m : AReq) (j : ℕ) : AMsg :=
  { opcode := m.opcode, param := m.param, size := m.size, source := m.source,
    address := m.address, mask := m.mask j, corrupt := false, data := m.data j }

/-- The index of the last beat. -/
def len (p : BroadcastParams) (m : AReq) : ℕ := Burst.len p.burst m.opcode.hasData m.size

def isAcquire (m : AReq) : Bool := m.opcode == .acquireBlock || m.opcode == .acquirePerm

end AReq

/-- A message of channel C with all its beats. -/
structure CReq where
  opcode : COp
  param : ℕ
  size : ℕ
  source : ℕ
  address : ℕ
  data : ℕ → ℕ

namespace CReq

def beat (m : CReq) (j : ℕ) : CMsg :=
  { opcode := m.opcode, param := m.param, size := m.size, source := m.source,
    address := m.address, corrupt := false, data := m.data j }

/-- The index of the last beat. -/
def len (p : BroadcastParams) (m : CReq) : ℕ := Burst.len p.burst m.opcode.hasData m.size

/-- An answer to a probe. -/
def isProbeAck (m : CReq) : Bool := m.opcode == .probeAck || m.opcode == .probeAckData

end CReq

/-- A response of the device with all its beats. -/
structure DResp where
  opcode : DOp
  size : ℕ
  source : ℕ
  data : ℕ → ℕ

namespace DResp

def beat (m : DResp) (j : ℕ) : DMsg :=
  { opcode := m.opcode, param := 0, size := m.size, source := m.source, sink := 0,
    denied := false, corrupt := false, data := m.data j }

/-- The index of the last beat. -/
def len (p : BroadcastParams) (m : DResp) : ℕ := Burst.len p.burst m.opcode.hasData m.size

/-- The manager drops this response: it confirms the write of a `ProbeAckData`. -/
def isDrop (m : DResp) : Bool := Broadcast.isProbeAckData (m.beat 0)

end DResp

/-- How far an acquire is: waiting on channel A, accepted by the manager, or granted
with at least one beat of the grant on its way to the host. -/
inductive AcqPhase
  | queued
  | granting
  | started
  deriving DecidableEq, Repr

/-- An acquire that a host has issued and whose grant it has not taken. -/
structure AcqTxn where
  source : ℕ
  param : ℕ
  phase : AcqPhase
  deriving DecidableEq, Repr

/-- The permission that the acquire asks for. -/
def AcqTxn.wants (t : AcqTxn) : Perm := if t.param = NtoB then .b else .t

/-- How far a release is: on channel C, written to the device, or acknowledged. -/
inductive RelPhase
  | sent
  | inDevice
  | acked
  deriving DecidableEq, Repr

/-- A release whose acknowledgement the host has not taken. -/
structure RelTxn where
  source : ℕ
  phase : RelPhase
  deriving DecidableEq, Repr

/-- Everything outside the manager.  The `Q` fields are the channels, with the number
of beats of the head that have been transferred; `owed` counts the grant
acknowledgements that hosts may still send. -/
structure BroadcastEnv (p : BroadcastParams) where
  aQ : List AReq
  aIdx : ℕ
  bQ : Fin p.numCachedHosts → Option BMsg
  cQ : List CReq
  cIdx : ℕ
  rQ : List DResp
  rIdx : ℕ
  eQ : ℕ
  owed : ℕ
  mem : p.Image
  amoBuf : ℕ → ℕ
  perm : Fin p.numCachedHosts → ℕ → Perm
  dirty : Fin p.numCachedHosts → ℕ → Bool
  copy : Fin p.numCachedHosts → p.Image
  acq : Fin p.numCachedHosts → ℕ → Option AcqTxn
  rel : Fin p.numCachedHosts → ℕ → Option RelTxn
  srcLine : ℕ → Option ℕ
  relLine : ℕ → Option ℕ
  rx : ℕ → ℕ → ℕ
  mail : ℕ → Option DMsg
  cur : p.Image
  served : ℕ → ℕ → p.Word

namespace BroadcastEnv
variable {p : BroadcastParams}

/-- Empty channels, hosts without lines, and an arbitrary memory. -/
def init (mem : p.Image) : BroadcastEnv p where
  aQ := []
  aIdx := 0
  bQ := fun _ => none
  cQ := []
  cIdx := 0
  rQ := []
  rIdx := 0
  eQ := 0
  owed := 0
  mem := mem
  amoBuf := fun _ => 0
  perm := fun _ _ => .n
  dirty := fun _ _ => false
  copy := fun _ _ _ _ => 0
  acq := fun _ _ => none
  rel := fun _ _ => none
  srcLine := fun _ => none
  relLine := fun _ => none
  rx := fun _ _ => 0
  mail := fun _ => none
  cur := mem
  served := fun _ _ _ => 0

/-- Replace one beat of an image. -/
def setWord (m : p.Image) (line beat : ℕ) (new : p.Word) : p.Image :=
  fun l b => if l = line ∧ b = beat then new else m l b

/-- Replace a whole line of an image. -/
def setLine (m : p.Image) (line : ℕ) (new : ℕ → p.Word) : p.Image :=
  fun l b => if l = line ∧ b < p.lineBeats then new b else m l b

/-- Replace what is known about one line of one host. -/
def setAt {α : Type*} (f : Fin p.numCachedHosts → ℕ → α) (i : Fin p.numCachedHosts) (line : ℕ)
    (a : α) : Fin p.numCachedHosts → ℕ → α :=
  fun j l => if j = i ∧ l = line then a else f j l

/-! ## The memory -/

section Device
variable (amo : AOp → ℕ → ℕ → ℕ → ℕ)

/-- The word that a beat leaves in a location that holds `old`; `amo` is the
arithmetic of atomic requests. -/
def newWord (a : AMsg) (old : p.Word) : p.Word := fun k =>
  match a.opcode with
  | .putFullData | .putPartialData => if a.mask.testBit k then p.word a.data k else old k
  | .arithmeticData | .logicalData =>
    if a.mask.testBit k then p.word (amo a.opcode a.param (pack old) a.data) k else old k
  | .get | .intent | .acquireBlock | .acquirePerm => old k

/-- The memory performs beat `j` of a request. -/
def perform (e : BroadcastEnv p) (a : AMsg) (j : ℕ) : BroadcastEnv p :=
  let line := p.lineOf a.address
  let beat := p.beatOf a.address + j
  { e with
    mem := setWord e.mem line beat (newWord amo a (e.mem line beat))
    amoBuf := Function.update e.amoBuf j (pack (e.mem line beat))
    cur :=
      if a.source % 4 = xactUncached then setWord e.cur line beat (newWord amo a (e.cur line beat))
      else e.cur
    -- a `Get` is one beat that is answered with a whole burst
    served :=
      if a.source % 4 = xactUncached then
        Function.update e.served (a.source / 4) <|
          if a.opcode.hasData then
            Function.update (e.served (a.source / 4)) j (e.cur line beat)
          else fun k => e.cur line (p.beatOf a.address + k)
      else e.served }

/-- The response to a request whose last beat has been performed. -/
def response (e : BroadcastEnv p) (a : AMsg) : DResp :=
  { opcode :=
      match a.opcode with
      | .putFullData | .putPartialData => .accessAck
      | .arithmeticData | .logicalData | .get => .accessAckData
      | .intent | .acquireBlock | .acquirePerm => .hintAck
    size := a.size
    source := a.source
    data :=
      match a.opcode with
      | .get => fun j => pack (e.mem (p.lineOf a.address) (p.beatOf a.address + j))
      | _ => e.amoBuf }

/-- The memory accepts beat `j` of a request. -/
def deviceAccept (e : BroadcastEnv p) (j : ℕ) (last : Bool) : Option AMsg → BroadcastEnv p
  | none => e
  | some a =>
    let e := e.perform amo a j
    if last then { e with rQ := e.rQ ++ [e.response a] } else e

end Device

/-! ## The channels -/

/-- Record the phase of the acquire that was issued under `source`. -/
def setAcqPhase (e : BroadcastEnv p) (source : ℕ) (phase : AcqPhase) : BroadcastEnv p :=
  { e with
    acq := fun i l =>
      if reqSelected p source i ∧ e.srcLine source = some l then
        (e.acq i l).map fun t => { t with phase := phase }
      else e.acq i l }

/-- Record the phase of the release that was issued under `source`. -/
def setRelPhase (e : BroadcastEnv p) (source : ℕ) (phase : RelPhase) : BroadcastEnv p :=
  { e with
    rel := fun i l =>
      if reqSelected p source i ∧ e.relLine source = some l then
        (e.rel i l).map fun t => { t with phase := phase }
      else e.rel i l }

/-- A beat of the head of channel A is accepted. -/
def advA (e : BroadcastEnv p) : BroadcastEnv p :=
  match e.aQ with
  | [] => e
  | m :: rest =>
    if e.aIdx = m.len p then ({ e with aQ := rest, aIdx := 0 }).setAcqPhase m.source .granting
    else { e with aIdx := e.aIdx + 1 }

/-- A beat of the head of channel C is accepted. -/
def advC (e : BroadcastEnv p) : BroadcastEnv p :=
  match e.cQ with
  | [] => e
  | m :: rest =>
    if e.cIdx = m.len p then
      let e := { e with cQ := rest, cIdx := 0 }
      if m.opcode = .releaseData then e.setRelPhase m.source .inDevice else e
    else { e with cIdx := e.cIdx + 1 }

/-- A beat of the head of the device's responses is accepted. -/
def advR (e : BroadcastEnv p) : BroadcastEnv p :=
  match e.rQ with
  | [] => e
  | m :: rest =>
    if e.rIdx = m.len p then { e with rQ := rest, rIdx := 0 } else { e with rIdx := e.rIdx + 1 }

/-- Beat `j` of a response leaves the manager.  A grant may be acknowledged from its
first beat on. -/
def hostAccept (e : BroadcastEnv p) (j : ℕ) (last : Bool) : Option DMsg → BroadcastEnv p
  | none => e
  | some d =>
    if d.opcode = .releaseAck then e.setRelPhase d.source .acked
    else
      let e :=
        { e with rx := Function.update e.rx d.source (Function.update (e.rx d.source) j d.data) }
      let e :=
        if (d.opcode = .grant ∨ d.opcode = .grantData) ∧ j = 0 then
          ({ e with owed := e.owed + 1 }).setAcqPhase d.source .started
        else e
      if last then { e with mail := Function.update e.mail d.source (some d) } else e

/-- A probe is delivered to the host that its source belongs to. -/
def acceptB (e : BroadcastEnv p) (b : BMsg) : BroadcastEnv p :=
  { e with bQ := fun i => if reqSelected p b.source i then some b else e.bQ i }

end BroadcastEnv

/-! ## Hosts and clients -/

/-- What a host or client can do between two cycles. -/
inductive HostAct (p : BroadcastParams)
  /-- Ask for a line, with or without data. -/
  | acquire (i : Fin p.numCachedHosts) (perm : Bool) (source param line : ℕ)
  /-- An uncached request. -/
  | uncached (m : AReq)
  /-- Give up permissions on a line, with or without data. -/
  | release (i : Fin p.numCachedHosts) (data : Bool) (source param line : ℕ)
  /-- Answer the pending probe. -/
  | answer (i : Fin p.numCachedHosts) (data : Bool) (source : ℕ)
  /-- Write a line. -/
  | store (i : Fin p.numCachedHosts) (line : ℕ) (new : ℕ → p.Word)
  /-- Give up a clean line without a message. -/
  | drop (i : Fin p.numCachedHosts) (line : ℕ)
  /-- Take a grant.  A host that asked for permission only, and has no copy, writes the
  whole line at once. -/
  | take (i : Fin p.numCachedHosts) (source line : ℕ) (new : ℕ → p.Word)
  /-- Take a release acknowledgement. -/
  | takeRelAck (i : Fin p.numCachedHosts) (line : ℕ)
  /-- An uncached client takes its response. -/
  | takeResponse (source : ℕ)
  /-- Send a grant acknowledgement. -/
  | grantAck

namespace BroadcastEnv
variable {p : BroadcastParams}

/-- The permission that is left after a voluntary release. -/
def afterRelease (param : ℕ) : Perm := if param = TtoB then .b else .n

/-- The report that a host with permission `x` gives when a probe leaves it `y`. -/
def report : Perm → Perm → ℕ
  | .t, .t => TtoT
  | .t, .b => TtoB
  | .t, .n => TtoN
  | .b, .n => BtoN
  | .b, _ => BtoB
  | .n, _ => NtoN

/-- The line as data beats. -/
def lineData (e : BroadcastEnv p) (i : Fin p.numCachedHosts) (line : ℕ) : ℕ → ℕ :=
  fun j => pack (e.copy i line j)

/-- The effect of an action. -/
def act (e : BroadcastEnv p) : HostAct p → BroadcastEnv p
  | .acquire i perm source param line =>
    { e with
      aQ := e.aQ ++
        [{ opcode := if perm then .acquirePerm else .acquireBlock, param := param,
           size := p.burst.maxSize, source := source, address := line * 2 ^ p.burst.maxSize,
           mask := fun _ => 2 ^ 2 ^ p.burst.nonBurst - 1, data := fun _ => 0 }]
      acq := setAt e.acq i line (some ⟨source, param, .queued⟩)
      srcLine := Function.update e.srcLine source (some line) }
  | .uncached m =>
    { e with
      aQ := e.aQ ++ [m]
      srcLine := Function.update e.srcLine m.source (some (p.lineOf m.address)) }
  | .release i data source param line =>
    { e with
      cQ := e.cQ ++
        [{ opcode := if data then .releaseData else .release, param := param,
           size := p.burst.maxSize, source := source, address := line * 2 ^ p.burst.maxSize,
           data := e.lineData i line }]
      perm := setAt e.perm i line (afterRelease param)
      dirty := setAt e.dirty i line false
      rel := setAt e.rel i line (some ⟨source, .sent⟩)
      relLine := Function.update e.relLine source (some line) }
  | .answer i data source =>
    match e.bQ i with
    | none => e
    | some b =>
      let line := p.lineOf b.address
      let left := Perm.afterProbe b.param (e.perm i line)
      { e with
        bQ := Function.update e.bQ i none
        cQ := e.cQ ++
          [{ opcode := if data then .probeAckData else .probeAck,
             param := report (e.perm i line) left, size := p.burst.maxSize, source := source,
             address := b.address, data := e.lineData i line }]
        perm := setAt e.perm i line left
        dirty := setAt e.dirty i line false }
  | .store i line new =>
    { e with
      copy := Function.update e.copy i (setLine (e.copy i) line new)
      dirty := setAt e.dirty i line true
      cur := setLine e.cur line new }
  | .drop i line => { e with perm := setAt e.perm i line .n }
  | .take i source line new =>
    match e.mail source with
    | none => e
    | some d =>
      let fill := decide (d.opcode = .grant) && decide (e.perm i line = .n)
      let e' : BroadcastEnv p :=
        { e with
          mail := Function.update e.mail source none
          srcLine := Function.update e.srcLine source none
          acq := setAt e.acq i line none
          perm := setAt e.perm i line (Perm.ofGrant d.param) }
      if d.opcode = .grantData then
        { e' with
          copy := Function.update e.copy i
            (setLine (e.copy i) line fun j => p.word (e.rx source j)) }
      else if fill then
        { e' with
          copy := Function.update e.copy i (setLine (e.copy i) line new)
          dirty := setAt e.dirty i line true
          cur := setLine e.cur line new }
      else e'
  | .takeRelAck i line =>
    match e.rel i line with
    | none => e
    | some t =>
      { e with
        rel := setAt e.rel i line none
        relLine := Function.update e.relLine t.source none }
  | .takeResponse source =>
    { e with
      mail := Function.update e.mail source none
      srcLine := Function.update e.srcLine source none }
  | .grantAck => { e with owed := e.owed - 1, eQ := e.eQ + 1 }

/-- The actions that TileLink-C allows, but for releases that only report a permission (`TtoT`,
`BtoB`, `NtoN`); the caches of the repository send none. -/
def Conforms (e : BroadcastEnv p) : HostAct p → Prop
  | .acquire i perm source param line =>
    reqSelected p source i = true ∧ e.srcLine source = none ∧ e.acq i line = none ∧
      e.rel i line = none ∧
      -- a host asks for more than it has; permission without data is for writing
      (e.perm i line = .n ∧ (param = NtoB ∧ perm = false ∨ param = NtoT) ∨
        e.perm i line = .b ∧ param = BtoT)
  | .uncached m =>
    (∀ i, reqSelected p m.source i = false) ∧ e.srcLine m.source = none ∧ m.isAcquire = false ∧
      m.size ≤ p.burst.maxSize ∧ m.address % 2 ^ m.size = 0
  | .release i data source param line =>
    reqSelected p source i = true ∧ e.relLine source = none ∧ e.rel i line = none ∧
      e.acq i line = none ∧
      (e.perm i line = .t ∧ (param = TtoB ∨ param = TtoN) ∧ (e.dirty i line = true → data = true) ∨
        e.perm i line = .b ∧ param = BtoN ∧ data = false)
  | .answer i data source =>
    ∃ b ∈ e.bQ i, reqSelected p source i = true ∧
      -- a grant that has begun is taken before the probe is answered
      (∀ t ∈ e.acq i (p.lineOf b.address), t.phase ≠ .started) ∧
      (data = true → e.perm i (p.lineOf b.address) = .t) ∧
      (e.dirty i (p.lineOf b.address) = true → data = true)
  | .store i line _ => e.perm i line = .t
  | .drop i line => e.dirty i line = false
  | .take i source line _ =>
    reqSelected p source i = true ∧ e.srcLine source = some line ∧ (e.mail source).isSome = true
  | .takeRelAck i line => ∃ t ∈ e.rel i line, t.phase = .acked
  | .takeResponse source =>
    (∀ i, reqSelected p source i = false) ∧ (e.mail source).isSome = true
  | .grantAck => 0 < e.owed

end BroadcastEnv

/-! ## The system -/

/-- Which offers and ready signals the links make in a cycle. -/
structure LinkIn where
  aValid : Bool
  bReady : Bool
  cValid : Bool
  dReady : Bool
  eValid : Bool
  deviceAReady : Bool
  deviceDValid : Bool

/-- The manager and its environment. -/
structure BroadcastSys (p : BroadcastParams) where
  br : Broadcast p
  env : BroadcastEnv p

namespace BroadcastSys
variable {p : BroadcastParams}

def init (mem : p.Image) : BroadcastSys p := ⟨.reset p, .init mem⟩

/-- The input ports of the manager in a cycle. -/
def inputs (s : BroadcastSys p) (l : LinkIn) : BroadcastIn where
  hostA := if l.aValid then s.env.aQ.head?.map (·.beat s.env.aIdx) else none
  hostBReady := l.bReady
  hostC := if l.cValid then s.env.cQ.head?.map (·.beat s.env.cIdx) else none
  hostDReady := l.dReady
  hostE := l.eValid && decide (0 < s.env.eQ)
  deviceAReady := l.deviceAReady
  deviceD := if l.deviceDValid then s.env.rQ.head?.map (·.beat s.env.rIdx) else none

section Cycle
variable (amo : AOp → ℕ → ℕ → ℕ → ℕ) (s : BroadcastSys p) (l : LinkIn)

/-- What origin `k` of channel A transfers to the device in this cycle. -/
def deviceFire (k : Fin 2) : Option AMsg :=
  if s.br.deviceReqReady (s.inputs l) k then s.br.deviceReqMult (s.inputs l) k else none

/-- What origin `k` of channel D transfers to the hosts in this cycle. -/
def hostFire (k : Fin 3) : Option DMsg :=
  if s.br.hostGntReady (s.inputs l) k then s.br.hostGntMult (s.inputs l) k else none

/-- The memory and the hosts count beats as the trackers on the same links do. -/
def toDevice (k : Fin 2) (e : BroadcastEnv p) : BroadcastEnv p :=
  match s.deviceFire l k with
  | none => e
  | some a =>
    e.deviceAccept amo (s.br.deviceReq.idx p.burst a.opcode.hasData a.size)
      (s.br.deviceReq.last p.burst a.opcode.hasData a.size) (some a)

def toHost (k : Fin 3) (e : BroadcastEnv p) : BroadcastEnv p :=
  match s.hostFire l k with
  | none => e
  | some d =>
    e.hostAccept (s.br.hostGnt.idx p.burst d.opcode.hasData d.size)
      (s.br.hostGnt.last p.burst d.opcode.hasData d.size) (some d)

/-- The transfer of channel E. -/
def stageE (e : BroadcastEnv p) : BroadcastEnv p :=
  if (s.inputs l).hostE then { e with eQ := e.eQ - 1 } else e

/-- The transfer of channel C. -/
def stageC (e : BroadcastEnv p) : BroadcastEnv p :=
  let e := s.toHost l 0 (s.toDevice amo l 0 e)
  if s.br.hostCReady (s.inputs l) then e.advC else e

/-- The transfer of channel A. -/
def stageA (e : BroadcastEnv p) : BroadcastEnv p :=
  let e := if (s.inputs l).hostA.isSome && s.br.hostAReady (s.inputs l) then e.advA else e
  s.toHost l 1 (s.toDevice amo l 1 e)

/-- The transfer of the device's channel D. -/
def stageR (e : BroadcastEnv p) : BroadcastEnv p :=
  let e := s.toHost l 2 e
  if s.br.deviceDReady (s.inputs l) then e.advR else e

/-- The transfer of channel B. -/
def stageB (e : BroadcastEnv p) : BroadcastEnv p :=
  match s.br.hostB with
  | none => e
  | some b => if l.bReady then e.acceptB b else e

/-- One clock cycle. -/
def cycle : BroadcastSys p where
  br := s.br.next (s.inputs l)
  env := s.stageB l (s.stageR l (s.stageA amo l (s.stageC amo l (s.stageE l s.env))))

end Cycle

/-- A cycle or an action of a host or client. -/
def step (amo : AOp → ℕ → ℕ → ℕ → ℕ) (s : BroadcastSys p) : LinkIn ⊕ HostAct p → BroadcastSys p
  | .inl l => s.cycle amo l
  | .inr a => { s with env := s.env.act a }

/-- Cycles are unconstrained; hosts and clients follow TileLink-C. -/
def Env (s : BroadcastSys p) : LinkIn ⊕ HostAct p → Prop
  | .inl _ => True
  | .inr a => s.env.Conforms a

end BroadcastSys

end Muntjac.Tl

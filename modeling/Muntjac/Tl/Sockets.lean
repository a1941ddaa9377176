import Muntjac.Tl.Acceptance

/-!
# The sockets

`tl_socket_m1` connects several hosts to one device, `tl_socket_1n` one host to several
devices.  The channels towards the one side are arbitrated, those towards the other side are
routed.

## Main results

* `SocketM1.delivers_run`, `Socket1N.delivers_run` — every channel carries the messages of
  the links whole, in order and to the right link.
* `SocketM1.accepts_run`, `Socket1N.accepts_run` — every channel takes what is offered.
-/

namespace Muntjac.Tl

open Sync

/-! ## Many hosts -/

/-- The parameters of `tl_socket_m1`. -/
structure M1Params (numLinks : ℕ) where
  burst : BurstParams
  numCachedLinks : ℕ
  cached_le : numCachedLinks ≤ numLinks
  source : List Range

/-- A link that contains cached hosts. -/
def M1Params.cached {n : ℕ} (p : M1Params n) (k : Fin p.numCachedLinks) : Fin n :=
  Fin.castLE p.cached_le k

/-- The registers of `tl_socket_m1`. -/
structure SocketM1 {n : ℕ} (p : M1Params n) where
  req : Shared n
  rel : Shared p.numCachedLinks
  ack : RoundRobin p.numCachedLinks

structure SocketM1In (n : ℕ) where
  hostA : Fin n → Option AMsg
  hostBReady : Fin n → Bool
  hostC : Fin n → Option CMsg
  hostDReady : Fin n → Bool
  hostE : Fin n → Option EMsg
  deviceAReady : Bool
  deviceB : Option BMsg
  deviceCReady : Bool
  deviceD : Option DMsg
  deviceEReady : Bool

namespace SocketM1
variable {n : ℕ} {p : M1Params n}

def reset : SocketM1 p := ⟨.reset p.burst, .reset p.burst, .reset⟩

section Routed
variable (p : M1Params n) (i : SocketM1In n)

/-- Probes go to the links with cached hosts. -/
def hostB (k : Fin n) : Option BMsg :=
  if k < p.numCachedLinks then demux (fun x => route p.source x.source) i.deviceB k else none

def deviceBReady : Bool :=
  if p.numCachedLinks = 0 then true
  else demuxReady (fun x : BMsg => route p.source x.source) i.deviceB fun k =>
    i.hostBReady (p.cached k)

def hostD (k : Fin n) : Option DMsg := demux (fun x => route p.source x.source) i.deviceD k
def deviceDReady : Bool :=
  demuxReady (fun x : DMsg => route p.source x.source) i.deviceD i.hostDReady

end Routed

section Arbitrated
variable (s : SocketM1 p) (i : SocketM1In n)

def deviceA : Option AMsg := s.req.msg i.hostA
def hostAReady (k : Fin n) : Bool := s.req.arb.ready i.hostA i.deviceAReady k

def hostCs (_ : SocketM1 p) (k : Fin p.numCachedLinks) : Option CMsg := i.hostC (p.cached k)

def deviceC : Option CMsg := s.rel.msg (s.hostCs i)
def hostCReady (k : Fin n) : Bool :=
  if h : k < p.numCachedLinks then s.rel.arb.ready (s.hostCs i) i.deviceCReady ⟨k, h⟩ else true

def hostEs (_ : SocketM1 p) (k : Fin p.numCachedLinks) : Option EMsg := i.hostE (p.cached k)

/-- The link whose acknowledgement is passed on; it is not locked. -/
def ackGrant : Option (Fin p.numCachedLinks) := s.ack.grant fun k => (s.hostEs i k).isSome

def deviceE : Option EMsg := (s.ackGrant i).bind (s.hostEs i)
def hostEReady (k : Fin n) : Bool :=
  if h : k < p.numCachedLinks then decide (s.ackGrant i = some ⟨k, h⟩) && i.deviceEReady else true

/-- One clock edge. -/
def step : SocketM1 p where
  req := s.req.step chanA p.burst i.hostA i.deviceAReady
  rel := s.rel.step chanC p.burst (s.hostCs i) i.deviceCReady
  ack := s.ack.next ((s.deviceE i).isSome && i.deviceEReady) fun k => (s.hostEs i k).isSome

/-! What the links transfer in a cycle. -/

def hostAFires (k : Fin n) : Option AMsg := if s.hostAReady i k then i.hostA k else none
def deviceAFires : Option AMsg := if i.deviceAReady then s.deviceA i else none
def hostBFires (_ : SocketM1 p) (i : SocketM1In n) (k : Fin n) : Option BMsg :=
  if i.hostBReady k then hostB p i k else none
def deviceBFires (_ : SocketM1 p) (i : SocketM1In n) : Option BMsg :=
  if deviceBReady p i then i.deviceB else none
def hostCFires (k : Fin n) : Option CMsg := if s.hostCReady i k then i.hostC k else none
def deviceCFires : Option CMsg := if i.deviceCReady then s.deviceC i else none
def hostDFires (_ : SocketM1 p) (i : SocketM1In n) (k : Fin n) : Option DMsg :=
  if i.hostDReady k then hostD p i k else none
def deviceDFires (_ : SocketM1 p) (i : SocketM1In n) : Option DMsg :=
  if deviceDReady p i then i.deviceD else none
def hostEFires (k : Fin n) : Option EMsg := if s.hostEReady i k then i.hostE k else none
def deviceEFires : Option EMsg := if i.deviceEReady then s.deviceE i else none

end Arbitrated

section Run
variable (p : M1Params n) (inp : ℕ → SocketM1In n)

/-- The items that were transferred in the cycles before cycle `m`. -/
def fired {α : Type} (f : SocketM1 p → SocketM1In n → Option α) (m : ℕ) : List α :=
  stream (fun k => f (run step reset inp k) (inp k)) m

/-- The hosts and the device send messages with data as bursts. -/
structure Conforming : Prop where
  a : ∀ k m, Legal chanA p.burst (fun _ => True) (fired p inp (fun s i => s.hostAFires i k) m)
  c : ∀ (k : Fin p.numCachedLinks) m,
    Legal chanC p.burst (fun _ => True) (fired p inp (fun s i => s.hostCFires i (p.cached k)) m)
  d : ∀ m, Legal chanD p.burst (fun _ => True)
    (fired p inp deviceDFires m)

/-- Before cycle `m` the messages of the hosts were passed on whole and in order, and those
of the device to the links that own their sources. -/
structure Delivers (m : ℕ) : Prop where
  a : Shares chanA p.burst (fun k => fired p inp (fun s i => s.hostAFires i k) m)
    (fired p inp deviceAFires m)
  b : p.numCachedLinks ≠ 0 →
    Shares chanB p.burst
      (fun k : Fin p.numCachedLinks =>
        fired p inp (fun s i => s.hostBFires i (p.cached k)) m)
      (fired p inp deviceBFires m)
  c : Shares chanC p.burst
    (fun k : Fin p.numCachedLinks => fired p inp (fun s i => s.hostCFires i (p.cached k)) m)
    (fired p inp deviceCFires m)
  d : Shares chanD p.burst (fun k => fired p inp (fun s i => s.hostDFires i k) m)
    (fired p inp deviceDFires m)
  e : Shares chanE p.burst
    (fun k : Fin p.numCachedLinks => fired p inp (fun s i => s.hostEFires i (p.cached k)) m)
    (fired p inp deviceEFires m)
  ownsB : ∀ k, ∀ x ∈ fired p inp (fun s i => s.hostBFires i k) m, Owns p.source x.source k
  ownsD : ∀ k, ∀ x ∈ fired p inp (fun s i => s.hostDFires i k) m, Owns p.source x.source k

/-- Every channel takes what is offered, if the other side is ready again and again: the shared
channels if all links keep to what they have begun, and the others for every link on its own. -/
structure Accepts : Prop where
  a : Recurs (fun t => (inp t).deviceAReady = true) →
    (∀ k, Sends chanA p.burst (fun t => (inp t).hostA k)
      fun t => (run step (reset (p := p)) inp t).hostAFires (inp t) k) →
    ∀ k, AllTaken (fun t => (inp t).hostA k)
      fun t => (run step (reset (p := p)) inp t).hostAFires (inp t) k
  b : Keeps (fun t => (inp t).deviceB)
      (fun t => (run step (reset (p := p)) inp t).deviceBFires (inp t)) →
    ∀ k : Fin p.numCachedLinks, Recurs (fun t => (inp t).hostBReady (p.cached k) = true) →
    ∀ t x, (inp t).deviceB = some x → Owns p.source x.source k →
      ∃ u ≥ t, (run step (reset (p := p)) inp u).deviceBFires (inp u) = some x ∧
        (run step (reset (p := p)) inp u).hostBFires (inp u) (p.cached k) = some x
  c : Recurs (fun t => (inp t).deviceCReady = true) →
    (∀ k : Fin p.numCachedLinks, Sends chanC p.burst (fun t => (inp t).hostC (p.cached k))
      fun t => (run step (reset (p := p)) inp t).hostCFires (inp t) (p.cached k)) →
    ∀ k : Fin p.numCachedLinks, AllTaken (fun t => (inp t).hostC (p.cached k))
      fun t => (run step (reset (p := p)) inp t).hostCFires (inp t) (p.cached k)
  d : Keeps (fun t => (inp t).deviceD)
      (fun t => (run step (reset (p := p)) inp t).deviceDFires (inp t)) →
    ∀ k : Fin n, Recurs (fun t => (inp t).hostDReady k = true) →
    ∀ t x, (inp t).deviceD = some x → Owns p.source x.source k →
      ∃ u ≥ t, (run step (reset (p := p)) inp u).deviceDFires (inp u) = some x ∧
        (run step (reset (p := p)) inp u).hostDFires (inp u) k = some x
  e : Recurs (fun t => (inp t).deviceEReady = true) →
    ∀ k : Fin p.numCachedLinks, Keeps (fun t => (inp t).hostE (p.cached k))
      (fun t => (run step (reset (p := p)) inp t).hostEFires (inp t) (p.cached k)) →
    AllTaken (fun t => (inp t).hostE (p.cached k))
      fun t => (run step (reset (p := p)) inp t).hostEFires (inp t) (p.cached k)

variable {p inp}

theorem hostBFires_cached (s : SocketM1 p) (i : SocketM1In n) (k : Fin p.numCachedLinks) :
    s.hostBFires i (p.cached k) =
      if i.hostBReady (p.cached k) then
        demux (fun x => route p.source x.source) i.deviceB k else none := by
  have hk : (p.cached k : ℕ) < p.numCachedLinks := k.isLt
  rw [hostBFires, hostB, if_pos hk]
  rfl

theorem hostCFires_cached (s : SocketM1 p) (i : SocketM1In n) (k : Fin p.numCachedLinks) :
    s.hostCFires i (p.cached k) = s.rel.sent (s.hostCs i) i.deviceCReady k := by
  have hk : (p.cached k : ℕ) < p.numCachedLinks := k.isLt
  rw [hostCFires, hostCReady, dif_pos hk]
  rfl

theorem hostEFires_cached (s : SocketM1 p) (i : SocketM1In n) (k : Fin p.numCachedLinks) :
    s.hostEFires i (p.cached k) = muxSent (s.ackGrant i) (s.hostEs i) i.deviceEReady k := by
  have hk : (p.cached k : ℕ) < p.numCachedLinks := k.isLt
  rw [hostEFires, hostEReady, dif_pos hk]
  rfl

/-- A probe is taken by the link that it is for. -/
theorem deviceBFires_eq (h : p.numCachedLinks ≠ 0) (s : SocketM1 p) (i : SocketM1In n) :
    s.deviceBFires i =
      if demuxReady (fun x : BMsg => route p.source x.source) i.deviceB fun k =>
        i.hostBReady (p.cached k) then i.deviceB else none := by
  rw [deviceBFires, deviceBReady, if_neg h]

/-- A link without cached hosts gets no probes. -/
theorem route_of_hostBFires {s : SocketM1 p} {i : SocketM1In n} {k : Fin n} {x : BMsg}
    (h : s.hostBFires i k = some x) : route p.source x.source = k := by
  rw [hostBFires, hostB] at h
  split_ifs at h
  exact of_decide_eq_true (Option.filter_eq_some_iff.mp h).2

theorem delivers_run (hno : NoOverlap p.source) (h : Conforming p inp) (m : ℕ) :
    Delivers p inp m := by
  refine ⟨?_, fun hn => ?_, ?_, ?_, ?_, fun k x hx => ?_, fun k x hx => ?_⟩
  · exact Shared.shares_arbitrated (s := fun k => (run step reset inp k).req) rfl (fun _ => rfl)
      h.a m
  · have hb := @shares_demux _ _ _ (fun k => (inp k).deviceB)
      (fun k j => (inp k).hostBReady (p.cached j)) chanB p.burst _
      (fun x y hxy => congrArg (fun z : BMsg => route p.source z.source) hxy) m
      (legal_of_len (fun _ => rfl) _)
    simp only [fired, hostBFires_cached, deviceBFires_eq hn]
    exact hb
  · have hc := h.c
    simp only [fired, hostCFires_cached] at hc ⊢
    exact Shared.shares_arbitrated (s := fun k => (run step reset inp k).rel) rfl (fun _ => rfl)
      hc m
  · exact shares_demux (fun x y hxy => congrArg (route p.source) (DMsg.source_of_header hxy))
      (h.d m)
  · simp only [fired, hostEFires_cached]
    exact shares_mux (fun _ => rfl) m
  · obtain ⟨j, -, hj⟩ := exists_of_mem_stream hx
    rw [← route_of_hostBFires hj]
    exact owns_route hno _
  · rw [← dest_eq_of_mem_given (fun x : DMsg => route p.source x.source) hx]
    exact owns_route hno _

theorem accepts_run (h : Conforming p inp) : Accepts p inp := by
  refine ⟨fun hr hsends k => ?_, fun hkeeps k hr t x hx hown => ?_, fun hr hsends k => ?_,
    fun hkeeps k hr t x hx hown => ?_, fun hr k hkeeps => ?_⟩
  · exact Shared.allTaken (s := fun t => (run step (reset (p := p)) inp t).req) rfl
      (fun _ => rfl) h.a hr hsends k
  · have hn : p.numCachedLinks ≠ 0 := by
      have := k.isLt
      omega
    simp only [deviceBFires_eq hn, hostBFires_cached] at hkeeps ⊢
    exact demux_allTaken (fun t j => (inp t).hostBReady (p.cached j)) hkeeps hr hx
      hown.route_eq
  · have hc := h.c
    simp only [fired, hostCFires_cached] at hc hsends ⊢
    exact Shared.allTaken (s := fun t => (run step (reset (p := p)) inp t).rel) rfl
      (fun _ => rfl) hc hr hsends k
  · exact demux_allTaken (fun t => (inp t).hostDReady) hkeeps hr hx hown.route_eq
  · simp only [hostEFires_cached] at hkeeps ⊢
    exact allTaken_single (r := fun t => (run step (reset (p := p)) inp t).ack) (fun _ => rfl) hr
      hkeeps

end Run

end SocketM1

/-! ## Many devices -/

/-- The parameters of `tl_socket_1n`. -/
structure Params1N where
  burst : BurstParams
  address : List Range
  sink : List Range

/-- The registers of `tl_socket_1n`. -/
structure Socket1N (n : ℕ) where
  prb : RoundRobin n
  gnt : Shared n
  deriving DecidableEq, Repr

structure Socket1NIn (n : ℕ) where
  hostA : Option AMsg
  hostBReady : Bool
  hostC : Option CMsg
  hostDReady : Bool
  hostE : Option EMsg
  deviceAReady : Fin n → Bool
  deviceB : Fin n → Option BMsg
  deviceCReady : Fin n → Bool
  deviceD : Fin n → Option DMsg
  deviceEReady : Fin n → Bool

namespace Socket1N
variable {n : ℕ} (p : Params1N) (s : Socket1N n) (i : Socket1NIn n)

def reset : Socket1N n := ⟨.reset, .reset p.burst⟩

def deviceA (k : Fin n) : Option AMsg := demux (fun x => route p.address x.address) i.hostA k
def hostAReady : Bool :=
  demuxReady (fun x : AMsg => route p.address x.address) i.hostA i.deviceAReady

/-- The link whose probe is passed on; it is not locked. -/
def prbGrant : Option (Fin n) := s.prb.grant fun k => (i.deviceB k).isSome

def hostB : Option BMsg := (s.prbGrant i).bind i.deviceB
def deviceBReady (k : Fin n) : Bool := decide (s.prbGrant i = some k) && i.hostBReady

def deviceC (k : Fin n) : Option CMsg := demux (fun x => route p.address x.address) i.hostC k
def hostCReady : Bool :=
  demuxReady (fun x : CMsg => route p.address x.address) i.hostC i.deviceCReady

def hostD : Option DMsg := s.gnt.msg i.deviceD
def deviceDReady (k : Fin n) : Bool := s.gnt.arb.ready i.deviceD i.hostDReady k

def deviceE (k : Fin n) : Option EMsg := demux (fun x => route p.sink x.sink) i.hostE k
def hostEReady : Bool := demuxReady (fun x : EMsg => route p.sink x.sink) i.hostE i.deviceEReady

/-- One clock edge. -/
def step : Socket1N n where
  prb := s.prb.next ((s.hostB i).isSome && i.hostBReady) fun k => (i.deviceB k).isSome
  gnt := s.gnt.step chanD p.burst i.deviceD i.hostDReady

/-! What the links transfer in a cycle. -/

def hostAFires : Option AMsg := if hostAReady p i then i.hostA else none
def deviceAFires (k : Fin n) : Option AMsg := if i.deviceAReady k then deviceA p i k else none
def hostBFires : Option BMsg := if i.hostBReady then s.hostB i else none
def deviceBFires (k : Fin n) : Option BMsg := if s.deviceBReady i k then i.deviceB k else none
def hostCFires : Option CMsg := if hostCReady p i then i.hostC else none
def deviceCFires (k : Fin n) : Option CMsg := if i.deviceCReady k then deviceC p i k else none
def hostDFires : Option DMsg := if i.hostDReady then s.hostD i else none
def deviceDFires (k : Fin n) : Option DMsg := if s.deviceDReady i k then i.deviceD k else none
def hostEFires : Option EMsg := if hostEReady p i then i.hostE else none
def deviceEFires (k : Fin n) : Option EMsg := if i.deviceEReady k then deviceE p i k else none

section Run
variable (inp : ℕ → Socket1NIn n)

/-- The items that were transferred in the cycles before cycle `m`. -/
def fired {α : Type} (f : Socket1N n → Socket1NIn n → Option α) (m : ℕ) : List α :=
  stream (fun k => f (run (step p) (reset p) inp k) (inp k)) m

/-- The host and the devices send messages with data as bursts. -/
structure Conforming : Prop where
  a : ∀ m, Legal chanA p.burst (fun _ => True) (fired p inp (fun _ i => hostAFires p i) m)
  c : ∀ m, Legal chanC p.burst (fun _ => True) (fired p inp (fun _ i => hostCFires p i) m)
  d : ∀ k m, Legal chanD p.burst (fun _ => True) (fired p inp (fun s i => s.deviceDFires i k) m)

/-- Before cycle `m` the messages of the devices were passed on whole and in order, and those
of the host to the links that own their addresses or sinks. -/
structure Delivers (m : ℕ) : Prop where
  a : Shares chanA p.burst (fun k => fired p inp (fun _ i => deviceAFires p i k) m)
    (fired p inp (fun _ i => hostAFires p i) m)
  b : Shares chanB p.burst (fun k => fired p inp (fun s i => s.deviceBFires i k) m)
    (fired p inp hostBFires m)
  c : Shares chanC p.burst (fun k => fired p inp (fun _ i => deviceCFires p i k) m)
    (fired p inp (fun _ i => hostCFires p i) m)
  d : Shares chanD p.burst (fun k => fired p inp (fun s i => s.deviceDFires i k) m)
    (fired p inp hostDFires m)
  e : Shares chanE p.burst (fun k => fired p inp (fun _ i => deviceEFires p i k) m)
    (fired p inp (fun _ i => hostEFires p i) m)
  ownsA : ∀ k, ∀ x ∈ fired p inp (fun _ i => deviceAFires p i k) m, Owns p.address x.address k
  ownsC : ∀ k, ∀ x ∈ fired p inp (fun _ i => deviceCFires p i k) m, Owns p.address x.address k
  ownsE : ∀ k, ∀ x ∈ fired p inp (fun _ i => deviceEFires p i k) m, Owns p.sink x.sink k

/-- As for `SocketM1`. -/
structure Accepts : Prop where
  a : Keeps (fun t => (inp t).hostA) (fun t => hostAFires p (inp t)) →
    ∀ k : Fin n, Recurs (fun t => (inp t).deviceAReady k = true) →
    ∀ t x, (inp t).hostA = some x → Owns p.address x.address k →
      ∃ u ≥ t, hostAFires p (inp u) = some x ∧ deviceAFires p (inp u) k = some x
  b : Recurs (fun t => (inp t).hostBReady = true) →
    ∀ k, Keeps (fun t => (inp t).deviceB k)
      (fun t => (run (step p) (reset p) inp t).deviceBFires (inp t) k) →
    AllTaken (fun t => (inp t).deviceB k)
      fun t => (run (step p) (reset p) inp t).deviceBFires (inp t) k
  c : Keeps (fun t => (inp t).hostC) (fun t => hostCFires p (inp t)) →
    ∀ k : Fin n, Recurs (fun t => (inp t).deviceCReady k = true) →
    ∀ t x, (inp t).hostC = some x → Owns p.address x.address k →
      ∃ u ≥ t, hostCFires p (inp u) = some x ∧ deviceCFires p (inp u) k = some x
  d : Recurs (fun t => (inp t).hostDReady = true) →
    (∀ k, Sends chanD p.burst (fun t => (inp t).deviceD k)
      fun t => (run (step p) (reset p) inp t).deviceDFires (inp t) k) →
    ∀ k, AllTaken (fun t => (inp t).deviceD k)
      fun t => (run (step p) (reset p) inp t).deviceDFires (inp t) k
  e : Keeps (fun t => (inp t).hostE) (fun t => hostEFires p (inp t)) →
    ∀ k : Fin n, Recurs (fun t => (inp t).deviceEReady k = true) →
    ∀ t x, (inp t).hostE = some x → Owns p.sink x.sink k →
      ∃ u ≥ t, hostEFires p (inp u) = some x ∧ deviceEFires p (inp u) k = some x

variable {p inp}

theorem accepts_run (h : Conforming p inp) : Accepts p inp := by
  refine ⟨fun hkeeps k hr t x hx hown => ?_, fun hr k hkeeps => ?_,
    fun hkeeps k hr t x hx hown => ?_, fun hr hsends k => ?_, fun hkeeps k hr t x hx hown => ?_⟩
  · exact demux_allTaken (fun t => (inp t).deviceAReady) hkeeps hr hx hown.route_eq
  · exact allTaken_single (r := fun t => (run (step p) (reset p) inp t).prb) (fun _ => rfl) hr
      hkeeps
  · exact demux_allTaken (fun t => (inp t).deviceCReady) hkeeps hr hx hown.route_eq
  · exact Shared.allTaken (s := fun t => (run (step p) (reset p) inp t).gnt) rfl (fun _ => rfl)
      h.d hr hsends k
  · exact demux_allTaken (fun t => (inp t).deviceEReady) hkeeps hr hx hown.route_eq

theorem delivers_run (hno : NoOverlap p.address) (hno' : NoOverlap p.sink)
    (h : Conforming p inp) (m : ℕ) : Delivers p inp m := by
  refine ⟨?_, ?_, ?_, ?_, ?_, fun k x hx => ?_, fun k x hx => ?_, fun k x hx => ?_⟩
  · exact shares_demux (fun x y hxy => congrArg (route p.address) (AMsg.address_of_header hxy))
      (h.a m)
  · exact shares_mux (fun _ => rfl) m
  · exact shares_demux (fun x y hxy => congrArg (route p.address) (CMsg.address_of_header hxy))
      (h.c m)
  · exact Shared.shares_arbitrated (s := fun k => (run (step p) (reset p) inp k).gnt) rfl
      (fun _ => rfl) h.d m
  · exact shares_demux (fun x y hxy => congrArg (fun z : EMsg => route p.sink z.sink) hxy)
      (legal_of_len (fun _ => rfl) _)
  · rw [← dest_eq_of_mem_given (fun x : AMsg => route p.address x.address) hx]
    exact owns_route hno _
  · rw [← dest_eq_of_mem_given (fun x : CMsg => route p.address x.address) hx]
    exact owns_route hno _
  · rw [← dest_eq_of_mem_given (fun x : EMsg => route p.sink x.sink) hx]
    exact owns_route hno' _

end Run

end Socket1N

/-! ## Both sockets -/

/-- The sockets keep messages whole and routed and take what is offered, for any tables without
overlap and any conforming traffic. -/
theorem sockets_deliver {n n' : ℕ} {p : M1Params n} {p' : Params1N}
    {inp : ℕ → SocketM1In n} {inp' : ℕ → Socket1NIn n'} (hs : NoOverlap p.source)
    (ha : NoOverlap p'.address) (hk : NoOverlap p'.sink) (h : SocketM1.Conforming p inp)
    (h' : Socket1N.Conforming p' inp') :
    (∀ m, SocketM1.Delivers p inp m ∧ Socket1N.Delivers p' inp' m) ∧
      SocketM1.Accepts p inp ∧ Socket1N.Accepts p' inp' :=
  ⟨fun m => ⟨SocketM1.delivers_run hs h m, Socket1N.delivers_run ha hk h' m⟩,
    SocketM1.accepts_run h, Socket1N.accepts_run h'⟩

/-- A beat of a write of two beats, on a bus of eight bytes. -/
def putBeat (source address : ℕ) : AMsg where
  opcode := .putFullData
  param := 0
  size := 4
  source := source
  address := address
  mask := 255
  corrupt := false
  data := 0

def ackBeat (source : ℕ) : DMsg where
  opcode := .accessAckData
  param := 0
  size := 4
  source := source
  sink := 0
  denied := false
  corrupt := false
  data := 0

/-- A beat of a release of two beats. -/
def releaseBeat (source address : ℕ) : CMsg where
  opcode := .releaseData
  param := TtoN
  size := 4
  source := source
  address := address
  corrupt := false
  data := 0

def probe (source : ℕ) : BMsg := ⟨.probeBlock, toN, 6, source, 0⟩

/-- Two hosts that write, release and acknowledge without end, and a device that answers and
probes the second one. -/
def twoWriters : SocketM1In 2 where
  hostA k := some (putBeat k 0)
  hostBReady _ := true
  hostC k := some (releaseBeat k 0)
  hostDReady _ := true
  hostE k := some ⟨k⟩
  deviceAReady := true
  deviceB := some (probe 1)
  deviceCReady := true
  deviceD := some (ackBeat 1)
  deviceEReady := true

/-- A host that writes, releases and acknowledges to the second device, while both devices answer
and probe. -/
def twoReaders : Socket1NIn 2 where
  hostA := some (putBeat 0 0x1000)
  hostBReady := true
  hostC := some (releaseBeat 0 0x1000)
  hostDReady := true
  hostE := some ⟨4⟩
  deviceAReady _ := true
  deviceB k := some (probe k)
  deviceCReady _ := true
  deviceD k := some (ackBeat k)
  deviceEReady _ := true

theorem sockets_deliver_two :
    let p : M1Params 2 := ⟨⟨3, 6⟩, 2, le_rfl, [⟨0, 0, 0⟩, ⟨1, 0, 1⟩]⟩
    let p' : Params1N := ⟨⟨3, 6⟩, [⟨0x1000, 0xfff, 1⟩], [⟨4, 3, 1⟩]⟩
    let m1 (t : ℕ) : SocketM1 p := run SocketM1.step SocketM1.reset (fun _ => twoWriters) t
    (SocketM1.Delivers p (fun _ => twoWriters) 4 ∧ Socket1N.Delivers p' (fun _ => twoReaders) 4) ∧
      (AllTaken (fun _ => twoWriters.hostC 1) fun t => (m1 t).hostCFires twoWriters 1) ∧
      (AllTaken (fun _ => twoWriters.hostE 1) fun t => (m1 t).hostEFires twoWriters 1) ∧
      (SocketM1.fired p (fun _ => twoWriters) SocketM1.deviceAFires 4).map AMsg.source =
        [0, 0, 1, 1] ∧
      (SocketM1.fired p (fun _ => twoWriters) (fun s i => s.hostBFires i 1) 2).map BMsg.source =
        [1, 1] ∧
      (SocketM1.fired p (fun _ => twoWriters) SocketM1.deviceCFires 4).map CMsg.source =
        [0, 0, 1, 1] ∧
      (SocketM1.fired p (fun _ => twoWriters) SocketM1.deviceEFires 4).map EMsg.sink =
        [0, 1, 0, 1] ∧
      (Socket1N.fired p' (fun _ => twoReaders) Socket1N.hostDFires 4).map DMsg.source =
        [0, 0, 1, 1] ∧
      (Socket1N.fired p' (fun _ => twoReaders) Socket1N.hostBFires 4).map BMsg.source =
        [0, 1, 0, 1] ∧
      (Socket1N.fired p' (fun _ => twoReaders) (fun _ i => Socket1N.deviceCFires p' i 1) 2).length =
        2 ∧
      (Socket1N.fired p' (fun _ => twoReaders) (fun _ i => Socket1N.deviceEFires p' i 1) 2).map
        EMsg.sink = [4, 4] := by
  intro p p' m1
  have hconst : ∀ {α : Type} {b : Bool} {o : Option α} {x y : α}, (∀ z, o = some z → z = x) →
      (if b then o else none) = some y → y = x := by
    intro α b o x y h hy
    split_ifs at hy
    exact h y hy
  have hs : SocketM1.Conforming p fun _ => twoWriters :=
    ⟨fun k m => legal_of_const (x := putBeat k 0)
        (fun _ _ => hconst fun _ h => (Option.some.inj h).symm) m,
      fun k m => legal_of_const (x := releaseBeat k 0)
        (fun _ _ => hconst fun _ h => (Option.some.inj h).symm) m,
      fun m => legal_of_const (x := ackBeat 1)
        (fun _ _ => hconst fun _ h => (Option.some.inj h).symm) m⟩
  have h1 : Socket1N.Conforming p' fun _ => twoReaders :=
    ⟨fun m => legal_of_const (x := putBeat 0 0x1000)
        (fun _ _ => hconst fun _ h => (Option.some.inj h).symm) m,
      fun m => legal_of_const (x := releaseBeat 0 0x1000)
        (fun _ _ => hconst fun _ h => (Option.some.inj h).symm) m,
      fun k m => legal_of_const (x := ackBeat k)
        (fun _ _ => hconst fun _ h => (Option.some.inj h).symm) m⟩
  have hsource : NoOverlap p.source := by
    intro id r hr r' hr' hm hm'
    simp only [p, List.mem_cons, List.not_mem_nil, or_false] at hr hr'
    rcases hr with rfl | rfl <;> rcases hr' with rfl | rfl <;>
      simp_all [Range.Matches]
  have haddress : NoOverlap p'.address := by
    intro id r hr r' hr' _ _
    simp only [p', List.mem_singleton] at hr hr'
    rw [hr, hr']
  have hsink : NoOverlap p'.sink := by
    intro id r hr r' hr' _ _
    simp only [p', List.mem_singleton] at hr hr'
    rw [hr, hr']
  obtain ⟨hdelivers, haccepts, -⟩ := sockets_deliver hsource haddress hsink hs h1
  have halways : Recurs fun _ => true = true := fun t => ⟨t, le_rfl, rfl⟩
  refine ⟨hdelivers 4, ?_, ?_, by decide, by decide, by decide, by decide, by decide, by decide,
    by decide, by decide⟩
  · exact haccepts.c halways (fun k => ⟨fun t x hx _ => hx, fun t _ => ⟨t, le_rfl, rfl⟩⟩) 1
  · exact haccepts.e halways 1 fun t x hx _ => hx

end Muntjac.Tl

import Muntjac.Tl.Sockets

/-!
# Taking turns

The arbiters of the sockets pass over nobody: a link that offers a beat in every cycle is ready
before as many messages as there are links have begun on the channel.

## Main definitions

* `SocketM1.Turns`, `Socket1N.Turns` — the shared channels of a socket.

## Main results

* `SocketM1.hosts_take_turns`, `Socket1N.devices_take_turns` — every shared channel, in every run.
-/

namespace Muntjac.Tl

open Sync

variable {n : ℕ}

namespace SocketM1
variable {p : M1Params n}

section Begins
variable (s : SocketM1 p) (i : SocketM1In n)

/-! A message begins on a shared channel. -/

def beginsA : Bool := s.req.arb.begins i.hostA i.deviceAReady
def beginsC : Bool := s.rel.arb.begins (s.hostCs i) i.deviceCReady
def beginsE : Bool := (s.deviceE i).isSome && i.deviceEReady

end Begins

/-- The hosts take turns on the three channels to the device. -/
structure Turns (p : M1Params n) (inp : ℕ → SocketM1In n) : Prop where
  a : TakesTurns (fun t => offers (inp t).hostA)
    (fun t => (run step (reset (p := p)) inp t).beginsA (inp t))
    fun t k => (run step (reset (p := p)) inp t).hostAReady (inp t) k = true
  c : TakesTurns (fun t k => offers (inp t).hostC (p.cached k))
    (fun t => (run step (reset (p := p)) inp t).beginsC (inp t))
    fun t k => (run step (reset (p := p)) inp t).hostCReady (inp t) (p.cached k) = true
  e : TakesTurns (fun t k => offers (inp t).hostE (p.cached k))
    (fun t => (run step (reset (p := p)) inp t).beginsE (inp t))
    fun t k => (run step (reset (p := p)) inp t).hostEReady (inp t) (p.cached k) = true

theorem hostCReady_cached (s : SocketM1 p) (i : SocketM1In n) (k : Fin p.numCachedLinks) :
    s.hostCReady i (p.cached k) = s.rel.arb.ready (s.hostCs i) i.deviceCReady k := by
  have hk : (p.cached k : ℕ) < p.numCachedLinks := k.isLt
  rw [hostCReady, dif_pos hk]
  rfl

theorem hostEReady_cached (s : SocketM1 p) (i : SocketM1In n) (k : Fin p.numCachedLinks) :
    s.hostEReady i (p.cached k) = (decide (s.ackGrant i = some k) && i.deviceEReady) := by
  have hk : (p.cached k : ℕ) < p.numCachedLinks := k.isLt
  rw [hostEReady, dif_pos hk]
  rfl

/-- No host is passed over, in any run. -/
theorem hosts_take_turns (p : M1Params n) (inp : ℕ → SocketM1In n) : Turns p inp := by
  refine ⟨?_, ?_, ?_⟩
  · exact Shared.takesTurns (s := fun t => (run step (reset (p := p)) inp t).req) fun _ => rfl
  · simp only [hostCReady_cached]
    exact Shared.takesTurns (s := fun t => (run step (reset (p := p)) inp t).rel) fun _ => rfl
  · simp only [hostEReady_cached, Bool.and_eq_true, decide_eq_true_iff]
    exact takesTurns_single (r := fun t => (run step (reset (p := p)) inp t).ack) fun _ => rfl

end SocketM1

namespace Socket1N
variable (p : Params1N) (inp : ℕ → Socket1NIn n)

section Begins
variable (s : Socket1N n) (i : Socket1NIn n)

/-! A message begins on a shared channel. -/

def beginsB : Bool := (s.hostB i).isSome && i.hostBReady
def beginsD : Bool := s.gnt.arb.begins i.deviceD i.hostDReady

end Begins

/-- The devices take turns on the two channels to the host. -/
structure Turns : Prop where
  b : TakesTurns (fun t => offers (inp t).deviceB)
    (fun t => (run (step p) (reset p) inp t).beginsB (inp t))
    fun t k => (run (step p) (reset p) inp t).deviceBReady (inp t) k = true
  d : TakesTurns (fun t => offers (inp t).deviceD)
    (fun t => (run (step p) (reset p) inp t).beginsD (inp t))
    fun t k => (run (step p) (reset p) inp t).deviceDReady (inp t) k = true

/-- No device is passed over, in any run. -/
theorem devices_take_turns : Turns p inp := by
  refine ⟨?_, ?_⟩
  · simp only [deviceBReady, Bool.and_eq_true, decide_eq_true_iff]
    exact takesTurns_single (r := fun t => (run (step p) (reset p) inp t).prb) fun _ => rfl
  · exact Shared.takesTurns (s := fun t => (run (step p) (reset p) inp t).gnt) fun _ => rfl

end Socket1N

end Muntjac.Tl

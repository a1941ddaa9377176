import Muntjac.Sync.AsyncOrder
import Muntjac.Tl.Msg

/-!
# TileLink across clock domains

`tl_fifo_async` puts an asynchronous FIFO into each of the five channels.  Requests, releases and
acknowledgements are written with the clock of the host and read with that of the device, probes
and grants the other way round.

## Main results

* `FifoAsync.crossing_carries` — every channel delivers its messages in order, in any interleaving
  of the clocks.
* `FifoAsync.crossing_delivers` — every message is delivered if its receiver goes on.
-/

namespace Muntjac.Tl

open Sync

/-- The logarithms of the depths.  No FIFO has its output forced to zero. -/
structure FifoAsyncParams where
  requestFifoDepth : ℕ
  probeFifoDepth : ℕ
  releaseFifoDepth : ℕ
  grantFifoDepth : ℕ
  ackFifoDepth : ℕ

namespace FifoAsyncParams
variable (p : FifoAsyncParams)

def fifo (α : Type) [Inhabited α] (logDepth : ℕ) : AsyncParams α :=
  ⟨logDepth, false, false, default⟩

def req : AsyncParams AMsg := fifo AMsg p.requestFifoDepth
def prb : AsyncParams BMsg := fifo BMsg p.probeFifoDepth
def rel : AsyncParams CMsg := fifo CMsg p.releaseFifoDepth
def gnt : AsyncParams DMsg := fifo DMsg p.grantFifoDepth
def ack : AsyncParams EMsg := fifo EMsg p.ackFifoDepth

end FifoAsyncParams

/-- What the delays of the two synchronisers of a FIFO draw. -/
structure Draws {α : Type*} (p : AsyncParams α) where
  wptr : p.Ptr
  rptr : p.Ptr

structure FifoAsyncIn (p : FifoAsyncParams) where
  clkHost : Bool
  clkDevice : Bool
  hostA : Option AMsg
  hostBReady : Bool
  hostC : Option CMsg
  hostDReady : Bool
  hostE : Option EMsg
  deviceAReady : Bool
  deviceB : Option BMsg
  deviceCReady : Bool
  deviceD : Option DMsg
  deviceEReady : Bool
  req : Draws p.req
  prb : Draws p.prb
  rel : Draws p.rel
  gnt : Draws p.gnt
  ack : Draws p.ack

structure FifoAsync (p : FifoAsyncParams) where
  req : AsyncFifo p.req
  prb : AsyncFifo p.prb
  rel : AsyncFifo p.rel
  gnt : AsyncFifo p.gnt
  ack : AsyncFifo p.ack

namespace FifoAsyncIn
variable {p : FifoAsyncParams} (i : FifoAsyncIn p)

def reqIn : AsyncIn p.req :=
  ⟨i.clkHost, i.clkDevice, i.hostA, i.deviceAReady, i.req.wptr, i.req.rptr⟩
def prbIn : AsyncIn p.prb :=
  ⟨i.clkDevice, i.clkHost, i.deviceB, i.hostBReady, i.prb.wptr, i.prb.rptr⟩
def relIn : AsyncIn p.rel :=
  ⟨i.clkHost, i.clkDevice, i.hostC, i.deviceCReady, i.rel.wptr, i.rel.rptr⟩
def gntIn : AsyncIn p.gnt :=
  ⟨i.clkDevice, i.clkHost, i.deviceD, i.hostDReady, i.gnt.wptr, i.gnt.rptr⟩
def ackIn : AsyncIn p.ack :=
  ⟨i.clkHost, i.clkDevice, i.hostE, i.deviceEReady, i.ack.wptr, i.ack.rptr⟩

end FifoAsyncIn

namespace FifoAsync
variable {p : FifoAsyncParams}

def next (s : FifoAsync p) (i : FifoAsyncIn p) : FifoAsync p where
  req := s.req.next i.reqIn
  prb := s.prb.next i.prbIn
  rel := s.rel.next i.relIn
  gnt := s.gnt.next i.gntIn
  ack := s.ack.next i.ackIn

/-- The delays of all synchronisers reach back by one increment at most. -/
structure Rule (s : FifoAsync p) (i : FifoAsyncIn p) : Prop where
  req : s.req.Rule i.reqIn
  prb : s.prb.Rule i.prbIn
  rel : s.rel.Rule i.relIn
  gnt : s.gnt.Rule i.gntIn
  ack : s.ack.Rule i.ackIn

/-- Both sides are in reset; the storages hold anything. -/
structure Storages (p : FifoAsyncParams) where
  req : BitVec p.req.logDepth → AMsg
  prb : BitVec p.prb.logDepth → BMsg
  rel : BitVec p.rel.logDepth → CMsg
  gnt : BitVec p.gnt.logDepth → DMsg
  ack : BitVec p.ack.logDepth → EMsg

def reset (m : Storages p) : FifoAsync p where
  req := .reset m.req
  prb := .reset m.prb
  rel := .reset m.rel
  gnt := .reset m.gnt
  ack := .reset m.ack

section Run
variable (m : Storages p) (inp : ℕ → FifoAsyncIn p)

/-- The registers after `n` instants. -/
def regs (n : ℕ) : FifoAsync p := run FifoAsync.next (reset m) inp n

/-- The messages that a channel has accepted on one side before instant `n`. -/
def sent {α : Type} {q : AsyncParams α} (fifo : FifoAsync p → AsyncFifo q)
    (port : FifoAsyncIn p → AsyncIn q) (n : ℕ) : List α :=
  stream (fun k => (fifo (regs m inp k)).taken (port (inp k))) n

/-- The messages that a channel has given on the other side before instant `n`. -/
def got {α : Type} {q : AsyncParams α} (fifo : FifoAsync p → AsyncFifo q)
    (port : FifoAsyncIn p → AsyncIn q) (n : ℕ) : List α :=
  stream (fun k => (fifo (regs m inp k)).given (port (inp k))) n

end Run

section Channel
variable {m : Storages p} {inp : ℕ → FifoAsyncIn p} {α : Type} {q : AsyncParams α}
  {fifo : FifoAsync p → AsyncFifo q} {port : FifoAsyncIn p → AsyncIn q}
  {storage : BitVec q.logDepth → α}

/-- A channel runs like its FIFO alone. -/
theorem fifo_regs (fifo : FifoAsync p → AsyncFifo q) (port : FifoAsyncIn p → AsyncIn q)
    (hnext : ∀ (s : FifoAsync p) i, fifo (s.next i) = (fifo s).next (port i))
    (hreset : fifo (reset m) = .reset storage) (n : ℕ) :
    fifo (regs m inp n) = AsyncFifo.regs storage (fun k => port (inp k)) n := by
  rw [regs, run_part fifo port hnext, hreset]
  rfl

/-- What one channel carries: the messages in order, none twice and none before it is sent, and
at most the depth of its FIFO on the way. -/
structure Carried (sent got : List α) (depth : ℕ) : Prop where
  order : got <+: sent
  bound : sent.length ≤ got.length + depth

theorem carried (hnext : ∀ (s : FifoAsync p) i, fifo (s.next i) = (fifo s).next (port i))
    (hreset : fifo (reset m) = .reset storage) {n : ℕ}
    (hrule : ∀ k < n, (fifo (regs m inp k)).Rule (port (inp k))) :
    Carried (sent m inp fifo port n) (got m inp fifo port n) q.depth := by
  simp only [sent, got, fifo_regs fifo port hnext hreset] at hrule ⊢
  have h := AsyncFifo.reads_order hrule
  exact ⟨h.1, h.2⟩

theorem delivered (hnext : ∀ (s : FifoAsync p) i, fifo (s.next i) = (fifo s).next (port i))
    (hreset : fifo (reset m) = .reset storage)
    (hrule : ∀ k, (fifo (regs m inp k)).Rule (port (inp k)))
    (hfair : AsyncFifo.ReadsOn fun k => port (inp k)) (n : ℕ) :
    ∃ t ≥ n, sent m inp fifo port n <+: got m inp fifo port t := by
  simp only [sent, got, fifo_regs fifo port hnext hreset] at hrule ⊢
  exact AsyncFifo.all_read hrule hfair n

end Channel

/-- Without the instrumentation the rule of the delays is kept. -/
theorem rule_of_sel_zero {m : Storages p} {inp : ℕ → FifoAsyncIn p}
    (hreq : ∀ k, (inp k).req = ⟨0, 0⟩) (hprb : ∀ k, (inp k).prb = ⟨0, 0⟩)
    (hrel : ∀ k, (inp k).rel = ⟨0, 0⟩) (hgnt : ∀ k, (inp k).gnt = ⟨0, 0⟩)
    (hack : ∀ k, (inp k).ack = ⟨0, 0⟩) (n : ℕ) : (regs m inp n).Rule (inp n) where
  req := by
    rw [fifo_regs FifoAsync.req FifoAsyncIn.reqIn (fun _ _ => rfl) rfl]
    exact AsyncFifo.rule_of_sel_zero (fun k => congrArg Draws.wptr (hreq k))
      (fun k => congrArg Draws.rptr (hreq k)) n
  prb := by
    rw [fifo_regs FifoAsync.prb FifoAsyncIn.prbIn (fun _ _ => rfl) rfl]
    exact AsyncFifo.rule_of_sel_zero (fun k => congrArg Draws.wptr (hprb k))
      (fun k => congrArg Draws.rptr (hprb k)) n
  rel := by
    rw [fifo_regs FifoAsync.rel FifoAsyncIn.relIn (fun _ _ => rfl) rfl]
    exact AsyncFifo.rule_of_sel_zero (fun k => congrArg Draws.wptr (hrel k))
      (fun k => congrArg Draws.rptr (hrel k)) n
  gnt := by
    rw [fifo_regs FifoAsync.gnt FifoAsyncIn.gntIn (fun _ _ => rfl) rfl]
    exact AsyncFifo.rule_of_sel_zero (fun k => congrArg Draws.wptr (hgnt k))
      (fun k => congrArg Draws.rptr (hgnt k)) n
  ack := by
    rw [fifo_regs FifoAsync.ack FifoAsyncIn.ackIn (fun _ _ => rfl) rfl]
    exact AsyncFifo.rule_of_sel_zero (fun k => congrArg Draws.wptr (hack k))
      (fun k => congrArg Draws.rptr (hack k)) n

section System
variable (m : Storages p) (inp : ℕ → FifoAsyncIn p)

/-- Every channel delivers its messages in order, whatever the two clocks do. -/
theorem crossing_carries (n : ℕ) (hrule : ∀ k < n, (regs m inp k).Rule (inp k)) :
    Carried (sent m inp req FifoAsyncIn.reqIn n) (got m inp req FifoAsyncIn.reqIn n) p.req.depth ∧
      Carried (sent m inp prb FifoAsyncIn.prbIn n) (got m inp prb FifoAsyncIn.prbIn n)
        p.prb.depth ∧
      Carried (sent m inp rel FifoAsyncIn.relIn n) (got m inp rel FifoAsyncIn.relIn n)
        p.rel.depth ∧
      Carried (sent m inp gnt FifoAsyncIn.gntIn n) (got m inp gnt FifoAsyncIn.gntIn n)
        p.gnt.depth ∧
      Carried (sent m inp ack FifoAsyncIn.ackIn n) (got m inp ack FifoAsyncIn.ackIn n)
        p.ack.depth :=
  ⟨carried (fun _ _ => rfl) rfl fun k hk => (hrule k hk).req,
    carried (fun _ _ => rfl) rfl fun k hk => (hrule k hk).prb,
    carried (fun _ _ => rfl) rfl fun k hk => (hrule k hk).rel,
    carried (fun _ _ => rfl) rfl fun k hk => (hrule k hk).gnt,
    carried (fun _ _ => rfl) rfl fun k hk => (hrule k hk).ack⟩

/-- The clock of the host ticks at every instant and that of the device at every second; both sides
send and take whenever they can. -/
def halfSpeed (k : ℕ) : FifoAsyncIn ⟨2, 0, 1, 2, 2⟩ where
  clkHost := true
  clkDevice := k % 2 == 0
  hostA := some default
  hostBReady := true
  hostC := some default
  hostDReady := true
  hostE := some default
  deviceAReady := true
  deviceB := some default
  deviceCReady := true
  deviceD := some default
  deviceEReady := true
  req := ⟨0, 0⟩
  prb := ⟨0, 0⟩
  rel := ⟨0, 0⟩
  gnt := ⟨0, 0⟩
  ack := ⟨0, 0⟩

/-- Storages with nothing in them yet. -/
def blank (p : FifoAsyncParams) : Storages p :=
  ⟨fun _ => default, fun _ => default, fun _ => default, fun _ => default, fun _ => default⟩

theorem rule_halfSpeed (n : ℕ) : (regs (blank _) halfSpeed n).Rule (halfSpeed n) :=
  rule_of_sel_zero (fun _ => rfl) (fun _ => rfl) (fun _ => rfl) (fun _ => rfl) (fun _ => rfl) n

theorem carries_halfSpeed :
    Carried (sent (blank _) halfSpeed req FifoAsyncIn.reqIn 12)
        (got (blank _) halfSpeed req FifoAsyncIn.reqIn 12) 4 ∧
      Carried (sent (blank _) halfSpeed prb FifoAsyncIn.prbIn 12)
        (got (blank _) halfSpeed prb FifoAsyncIn.prbIn 12) 1 ∧
      Carried (sent (blank _) halfSpeed rel FifoAsyncIn.relIn 12)
        (got (blank _) halfSpeed rel FifoAsyncIn.relIn 12) 2 ∧
      Carried (sent (blank _) halfSpeed gnt FifoAsyncIn.gntIn 12)
        (got (blank _) halfSpeed gnt FifoAsyncIn.gntIn 12) 4 ∧
      Carried (sent (blank _) halfSpeed ack FifoAsyncIn.ackIn 12)
        (got (blank _) halfSpeed ack FifoAsyncIn.ackIn 12) 4 :=
  crossing_carries (blank _) halfSpeed 12 fun k _ => rule_halfSpeed k

/-- Both sides take their messages: each side is ready at edges of its own clock again and
again. -/
structure Receives (inp : ℕ → FifoAsyncIn p) : Prop where
  a : Recurs fun k => (inp k).clkDevice = true ∧ (inp k).deviceAReady = true
  b : Recurs fun k => (inp k).clkHost = true ∧ (inp k).hostBReady = true
  c : Recurs fun k => (inp k).clkDevice = true ∧ (inp k).deviceCReady = true
  d : Recurs fun k => (inp k).clkHost = true ∧ (inp k).hostDReady = true
  e : Recurs fun k => (inp k).clkDevice = true ∧ (inp k).deviceEReady = true

/-- Every message is delivered if its receiver goes on. -/
theorem crossing_delivers (n : ℕ) (hrule : ∀ k, (regs m inp k).Rule (inp k))
    (hfair : Receives inp) :
    (∃ t ≥ n, sent m inp req FifoAsyncIn.reqIn n <+: got m inp req FifoAsyncIn.reqIn t) ∧
      (∃ t ≥ n, sent m inp prb FifoAsyncIn.prbIn n <+: got m inp prb FifoAsyncIn.prbIn t) ∧
      (∃ t ≥ n, sent m inp rel FifoAsyncIn.relIn n <+: got m inp rel FifoAsyncIn.relIn t) ∧
      (∃ t ≥ n, sent m inp gnt FifoAsyncIn.gntIn n <+: got m inp gnt FifoAsyncIn.gntIn t) ∧
      ∃ t ≥ n, sent m inp ack FifoAsyncIn.ackIn n <+: got m inp ack FifoAsyncIn.ackIn t :=
  ⟨delivered (fun _ _ => rfl) rfl (fun k => (hrule k).req) hfair.a n,
    delivered (fun _ _ => rfl) rfl (fun k => (hrule k).prb) hfair.b n,
    delivered (fun _ _ => rfl) rfl (fun k => (hrule k).rel) hfair.c n,
    delivered (fun _ _ => rfl) rfl (fun k => (hrule k).gnt) hfair.d n,
    delivered (fun _ _ => rfl) rfl (fun k => (hrule k).ack) hfair.e n⟩

theorem receives_halfSpeed : Receives halfSpeed where
  a k := ⟨2 * k, by omega, by simp [halfSpeed], rfl⟩
  b k := ⟨k, Nat.le_refl k, rfl, rfl⟩
  c k := ⟨2 * k, by omega, by simp [halfSpeed], rfl⟩
  d k := ⟨k, Nat.le_refl k, rfl, rfl⟩
  e k := ⟨2 * k, by omega, by simp [halfSpeed], rfl⟩

theorem delivers_halfSpeed :
    (∃ t ≥ 12, sent (blank _) halfSpeed req FifoAsyncIn.reqIn 12 <+:
        got (blank _) halfSpeed req FifoAsyncIn.reqIn t) ∧
      (∃ t ≥ 12, sent (blank _) halfSpeed prb FifoAsyncIn.prbIn 12 <+:
        got (blank _) halfSpeed prb FifoAsyncIn.prbIn t) ∧
      (∃ t ≥ 12, sent (blank _) halfSpeed rel FifoAsyncIn.relIn 12 <+:
        got (blank _) halfSpeed rel FifoAsyncIn.relIn t) ∧
      (∃ t ≥ 12, sent (blank _) halfSpeed gnt FifoAsyncIn.gntIn 12 <+:
        got (blank _) halfSpeed gnt FifoAsyncIn.gntIn t) ∧
      ∃ t ≥ 12, sent (blank _) halfSpeed ack FifoAsyncIn.ackIn 12 <+:
        got (blank _) halfSpeed ack FifoAsyncIn.ackIn t :=
  crossing_delivers (blank _) halfSpeed 12 rule_halfSpeed receives_halfSpeed

end System

end FifoAsync

end Muntjac.Tl

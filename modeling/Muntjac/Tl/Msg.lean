import Muntjac.Sync.RoundRobin

/-!
# TileLink messages

The five channels of a link, as `tl_pkg` and `tl_util` define them.  A message with
data is transferred as several beats; each beat repeats the header.

`ChannelArb` is the arbitration that every module of the repository puts in front of
a shared channel: round-robin between messages, locked until the last beat.
-/

namespace Muntjac.Tl

inductive AOp
  | putFullData
  | putPartialData
  | arithmeticData
  | logicalData
  | get
  | intent
  | acquireBlock
  | acquirePerm
  deriving DecidableEq, Repr, Inhabited

inductive BOp
  | probeBlock
  | probePerm
  deriving DecidableEq, Repr, Inhabited

inductive COp
  | probeAck
  | probeAckData
  | release
  | releaseData
  deriving DecidableEq, Repr, Inhabited

inductive DOp
  | accessAck
  | accessAckData
  | hintAck
  | grant
  | grantData
  | releaseAck
  deriving DecidableEq, Repr, Inhabited

/-- `opcode < 4`. -/
def AOp.hasData : AOp → Bool
  | .putFullData | .putPartialData | .arithmeticData | .logicalData => true
  | .get | .intent | .acquireBlock | .acquirePerm => false

/-- `opcode[0]` on channel C. -/
def COp.hasData : COp → Bool
  | .probeAckData | .releaseData => true
  | .probeAck | .release => false

/-- `opcode[0]` on channel D. -/
def DOp.hasData : DOp → Bool
  | .accessAckData | .grantData => true
  | .accessAck | .hintAck | .grant | .releaseAck => false

def toT : ℕ := 0
def toB : ℕ := 1
def toN : ℕ := 2

def NtoB : ℕ := 0
def NtoT : ℕ := 1
def BtoT : ℕ := 2

def TtoB : ℕ := 0
def TtoN : ℕ := 1
def BtoN : ℕ := 2
def TtoT : ℕ := 3
def BtoB : ℕ := 4
def NtoN : ℕ := 5

/-- The permission of an agent on a line: nothing, Branch (read) or Trunk (write). -/
inductive Perm
  | n
  | b
  | t
  deriving DecidableEq, Repr, Inhabited

namespace Perm

def rank : Perm → ℕ
  | .n => 0
  | .b => 1
  | .t => 2

instance : LE Perm := ⟨fun x y => x.rank ≤ y.rank⟩
instance (x y : Perm) : Decidable (x ≤ y) := inferInstanceAs (Decidable (x.rank ≤ y.rank))

/-- What a grant with the given `param` gives. -/
def ofGrant (param : ℕ) : Perm := if param == toT then .t else .b

/-- What is left after a probe with the given `param`. -/
def afterProbe (param : ℕ) (x : Perm) : Perm :=
  if param = toB then (if x = .t then .b else x) else .n

end Perm

structure AMsg where
  opcode : AOp
  param : ℕ
  size : ℕ
  source : ℕ
  address : ℕ
  mask : ℕ
  corrupt : Bool
  data : ℕ
  deriving DecidableEq, Repr, Inhabited

structure BMsg where
  opcode : BOp
  param : ℕ
  size : ℕ
  source : ℕ
  address : ℕ
  deriving DecidableEq, Repr, Inhabited

structure CMsg where
  opcode : COp
  param : ℕ
  size : ℕ
  source : ℕ
  address : ℕ
  corrupt : Bool
  data : ℕ
  deriving DecidableEq, Repr, Inhabited

structure DMsg where
  opcode : DOp
  param : ℕ
  size : ℕ
  source : ℕ
  sink : ℕ
  denied : Bool
  corrupt : Bool
  data : ℕ
  deriving DecidableEq, Repr, Inhabited

structure EMsg where
  sink : ℕ
  deriving DecidableEq, Repr, Inhabited

/-! ## Sharing a channel -/

/-- The registers of the arbitration in front of a shared channel. -/
structure ChannelArb (n : ℕ) where
  arb : Sync.RoundRobin n
  locked : Bool
  selected : Option (Fin n)
  deriving DecidableEq, Repr

namespace ChannelArb
variable {n : ℕ} {α : Type*}

def reset : ChannelArb n := ⟨.reset, false, none⟩

/-- The requester that drives the channel. -/
def select (a : ChannelArb n) (msgs : Fin n → Option α) : Option (Fin n) :=
  if a.locked then a.selected else a.arb.grant fun i => (msgs i).isSome

/-- The message on the channel. -/
def msg (a : ChannelArb n) (msgs : Fin n → Option α) : Option α := (a.select msgs).bind msgs

/-- The ready signal that requester `i` sees. -/
def ready (a : ChannelArb n) (msgs : Fin n → Option α) (ready : Bool) (i : Fin n) : Bool :=
  decide (a.select msgs = some i) && ready

/-- The registers after a cycle; `last` marks the last beat of the message. -/
def next (a : ChannelArb n) (msgs : Fin n → Option α) (ready last : Bool) : ChannelArb n where
  arb := a.arb.next (decide (∃ i, (msgs i).isSome) && ready && !a.locked) fun i => (msgs i).isSome
  locked := if (a.msg msgs).isSome && ready then !last else a.locked
  selected :=
    if (a.msg msgs).isSome && ready && !a.locked then a.arb.grant fun i => (msgs i).isSome
    else a.selected

/-- The only requester of an unlocked channel drives it. -/
theorem ready_of_only {a : ChannelArb n} {msgs : Fin n → Option α} {k : Fin n}
    (hl : a.locked = false) (hk : (msgs k).isSome = true)
    (ho : ∀ j, (msgs j).isSome = true → j = k) : a.ready msgs true k = true := by
  have hsel : a.select msgs = some k := by
    simp only [select, hl, Bool.false_eq_true, if_false]
    exact Sync.RoundRobin.grant_of_only hk ho
  simp [ready, hsel]

section Transfer
variable {a : ChannelArb n} {msgs : Fin n → Option α} {ready : Bool}

/-- Requester `k` transfers `x`. -/
structure Fires (a : ChannelArb n) (msgs : Fin n → Option α) (ready : Bool) (k : Fin n) (x : α) :
    Prop where
  select : a.select msgs = some k
  msgs : msgs k = some x
  ready : ready = true

theorem fires_or_idle (a : ChannelArb n) (msgs : Fin n → Option α) (ready : Bool) :
    (∃ k x, a.Fires msgs ready k x) ∨ ((a.msg msgs).isSome && ready) = false := by
  cases hs : a.select msgs with
  | none => exact Or.inr (by simp [msg, hs])
  | some k =>
      cases hm : msgs k with
      | none => exact Or.inr (by simp [msg, hs, hm])
      | some x =>
          cases ready with
          | false => exact Or.inr (by simp)
          | true => exact Or.inl ⟨k, x, hs, hm, rfl⟩

variable {k : Fin n} {x : α}

theorem Fires.msg_eq (h : a.Fires msgs ready k x) : a.msg msgs = some x := by
  simp [msg, h.select, h.msgs]

theorem Fires.ready_eq (h : a.Fires msgs ready k x) (k' : Fin n) :
    a.ready msgs ready k' = decide (k = k') := by
  simp [ChannelArb.ready, h.select, h.ready]

theorem Fires.next_locked (h : a.Fires msgs ready k x) (last : Bool) :
    (a.next msgs ready last).locked = !last := by
  simp [next, h.msg_eq, h.ready]

/-- The requester that transfers a beat stays selected. -/
theorem Fires.next_selected (h : a.Fires msgs ready k x) (last : Bool) :
    (a.next msgs ready last).selected = some k := by
  have hs := h.select
  cases hl : a.locked with
  | true =>
      simp only [ChannelArb.select, hl, if_true] at hs
      simp [next, hl, hs]
  | false =>
      simp only [ChannelArb.select, hl, Bool.false_eq_true, if_false] at hs
      simp [next, hl, h.msg_eq, h.ready, hs]

theorem next_idle (h : ((a.msg msgs).isSome && ready) = false) (last : Bool) :
    (a.next msgs ready last).locked = a.locked ∧
      (a.next msgs ready last).selected = a.selected := by
  simp [next, h]

/-- Where nothing is transferred, a requester that is ready has nothing to send. -/
theorem msgs_of_idle (h : ((a.msg msgs).isSome && ready) = false)
    (hr : a.ready msgs ready k = true) : msgs k = none := by
  simp only [ChannelArb.ready, Bool.and_eq_true, decide_eq_true_eq] at hr
  simpa [msg, hr.1, hr.2] using h

end Transfer

end ChannelArb

end Muntjac.Tl

import Mathlib.Data.Fintype.Card
import Muntjac.Tl.BroadcastSys

/-!
# The invariant of the broadcasting manager

The invariant relates the request machine to every message in flight.  It has four
parts: who owns which message (`Ids`), what the request machine still waits for
(`Control`), who may hold what (`Perms`) and where the latest data is (`Data`).

A cycle is a sequence of transfers on single channels; each transfer, and each action
of a host, has a lemma of its own here.

## Main definitions

* `BroadcastEnv.eff` — the permission of a host, counting a grant under way.
* `Coherent` — the whole invariant.
-/

namespace Muntjac.Tl

open Sync (unpack pack unpack_pack cat cat_mod cat_div)

/-- The source table is a table: ranges do not overlap and contain their base.  A line
is a whole number of beats. -/
structure BroadcastParams.Ok (p : BroadcastParams) : Prop where
  disjoint : ∀ {source i j}, reqSelected p source i = true → reqSelected p source j = true → i = j
  base : ∀ i, reqSelected p (p.sourceBase i) i = true
  width : p.burst.nonBurst ≤ p.burst.maxSize

namespace DResp

/-- The response becomes a `GrantData`. -/
def isGrant (r : DResp) : Bool := !r.isDrop && decide (r.source % 4 < 2)

/-- The response answers a request of channel A. -/
def answersA (r : DResp) : Bool := !r.isDrop && decide (r.source % 4 ≠ 2)

end DResp

/-- The permission that a response of the given kind grants. -/
def xactPerm (xact : ℕ) : Perm := if xact = xactAcquireToB then .b else .t

/-- The kind under which an acquire is sent to the device. -/
def acquireXact (param : ℕ) : ℕ := if param = NtoB then xactAcquireToB else xactAcquireToT

namespace BroadcastEnv
variable {p : BroadcastParams}

/-- The permission of a host, counting a grant that is under way. -/
def eff (e : BroadcastEnv p) (i : Fin p.numCachedHosts) (l : ℕ) : Perm :=
  match e.acq i l with
  | none => e.perm i l
  | some t => if t.phase = .queued then e.perm i l else t.wants

/-- Whatever data host `i` has sent for line `l` is followed by an answer to a probe. -/
def Followed (e : BroadcastEnv p) (i : Fin p.numCachedHosts) (l : ℕ) : Prop :=
  ∀ m rest, m :: rest <:+ e.cQ → m.opcode.hasData = true → p.lineOf m.address = l →
    reqSelected p m.source i = true → ∃ m' ∈ m :: rest, m'.isProbeAck = true

end BroadcastEnv

open BroadcastEnv

namespace BroadcastFsm
variable {p : BroadcastParams}

/-- The line of the request being handled. -/
def line (f : BroadcastFsm p) : ℕ := p.lineOf f.addressQ

/-- What the probes leave. -/
def cap (f : BroadcastFsm p) : Perm := if f.probeParamQ = toB then .b else .n

/-- A request is being handled and has not been accepted. -/
def Busy (f : BroadcastFsm p) : Prop :=
  f.stateQ = .inv ∨ f.stateQ = .req ∨ f.stateQ = .grant

theorem Busy.ne_wait {f : BroadcastFsm p} (h : f.Busy) : f.stateQ ≠ .wait := by
  rcases h with hs | hs | hs <;> simp [hs]

/-- The registers hold the header of `m`. -/
def Holds (f : BroadcastFsm p) (m : AReq) : Prop :=
  f.opcodeQ = m.opcode ∧ f.addressQ = m.address ∧ f.sourceQ = m.source ∧
    f.xactTypeQ = (if m.isAcquire then acquireXact m.param else xactUncached) ∧
    f.probeParamQ = if (m.isAcquire = true ∧ m.param = NtoB) ∨ m.opcode = .get then toB else toN

/-- The answers to probes that the request machine has not counted. -/
def outstanding (f : BroadcastFsm p) (e : BroadcastEnv p) : ℕ :=
  (Finset.univ.filter fun i => f.probePendingQ i = true).card +
    (Finset.univ.filter fun i => (e.bQ i).isSome = true).card +
    e.cQ.countP (·.isProbeAck) + e.rQ.countP (·.isDrop)

end BroadcastFsm

variable {p : BroadcastParams}

/-- Who owns which message. -/
structure Ids (e : BroadcastEnv p) : Prop where
  acqSrc : ∀ {i l t}, e.acq i l = some t →
    reqSelected p t.source i = true ∧ e.srcLine t.source = some l
  relSrc : ∀ {i l t}, e.rel i l = some t →
    reqSelected p t.source i = true ∧ e.relLine t.source = some l
  aSrc : ∀ m ∈ e.aQ, e.srcLine m.source = some (p.lineOf m.address) ∧ e.mail m.source = none
  aAcq : ∀ m ∈ e.aQ, m.isAcquire = true →
    m.size = p.burst.maxSize ∧ p.beatOf m.address = 0 ∧
      (m.opcode = .acquirePerm → m.param ≠ NtoB) ∧
      ∃ i, reqSelected p m.source i = true ∧
        e.acq i (p.lineOf m.address) = some ⟨m.source, m.param, .queued⟩
  aUnc : ∀ m ∈ e.aQ, m.isAcquire = false → ∀ i, reqSelected p m.source i = false
  aNodup : (e.aQ.map (·.source)).Nodup
  aResp : ∀ m ∈ e.aQ, ∀ r ∈ e.rQ, r.answersA = true → r.source / 4 ≠ m.source
  rAcq : ∀ r ∈ e.rQ, r.isGrant = true →
    r.opcode = .accessAckData ∧ r.size = p.burst.maxSize ∧
      ∃ i l t, e.acq i l = some t ∧ t.source = r.source / 4 ∧ t.phase ≠ .queued ∧
        t.wants = xactPerm (r.source % 4)
  rUnc : ∀ r ∈ e.rQ, r.source % 4 = 3 →
    (∀ i, reqSelected p (r.source / 4) i = false) ∧ (e.srcLine (r.source / 4)).isSome = true
  rUncOp : ∀ r ∈ e.rQ, r.source % 4 = 3 →
    r.opcode = .accessAck ∨ r.opcode = .accessAckData ∨ r.opcode = .hintAck
  rMail : ∀ r ∈ e.rQ, r.answersA = true → e.mail (r.source / 4) = none
  rRel : ∀ r ∈ e.rQ, r.source % 4 = 2 →
    r.opcode = .accessAck ∧ ∃ i l, e.rel i l = some ⟨r.source / 4, .inDevice⟩
  rNodup : ((e.rQ.filter (!·.isDrop)).map (·.source)).Nodup
  mailSrc : ∀ {s d}, e.mail s = some d → (e.srcLine s).isSome = true
  mailAcq : ∀ {s d}, e.mail s = some d → ∀ i, reqSelected p s i = true →
    ∃ l t, e.acq i l = some t ∧ t.source = s ∧ t.phase = .started ∧
      Perm.ofGrant d.param = t.wants ∧ (d.opcode = .grantData ∨ d.opcode = .grant ∧ t.wants = .t)
  cSel : ∀ m ∈ e.cQ, m.size = p.burst.maxSize ∧ p.beatOf m.address = 0 ∧
    ∃ i, reqSelected p m.source i = true
  cRel : ∀ m ∈ e.cQ, m.isProbeAck = false →
    ∃ i, e.rel i (p.lineOf m.address) = some ⟨m.source, .sent⟩
  cNodup : ((e.cQ.filter (!·.isProbeAck)).map (·.source)).Nodup

/-- What the request machine waits for. -/
structure Control (f : BroadcastFsm p) (e : BroadcastEnv p) : Prop where
  count : f.stateQ = .inv → f.probeAckPendingQ = f.outstanding e
  countLe : f.probeAckPendingQ ≤ p.numCachedHosts
  quiet : f.stateQ ≠ .inv → f.outstanding e = 0
  head : f.Busy → ∃ m rest, e.aQ = m :: rest ∧ f.Holds m
  grantOp : f.stateQ = .grant → f.opcodeQ = .acquirePerm
  reqOp : f.stateQ = .req → f.opcodeQ ≠ .acquirePerm
  aIdx : 0 < e.aIdx → f.stateQ = .req ∧ f.xactTypeQ = xactUncached
  cIdx : 0 < e.cIdx → ∃ m rest, e.cQ = m :: rest ∧ m.opcode.hasData = true
  rIdx : 0 < e.rIdx → ∃ r rest, e.rQ = r :: rest ∧ r.answersA = true
  probe : ∀ {i b}, e.bQ i = some b → p.lineOf b.address = f.line ∧ p.beatOf b.address = 0 ∧
    b.param = f.probeParamQ ∧ reqSelected p f.sourceQ i = false
  probePending : ∀ {i}, f.probePendingQ i = true → reqSelected p f.sourceQ i = false
  probeOnce : ∀ {i}, f.probePendingQ i = true → e.bQ i = none
  probeAck : ∀ m ∈ e.cQ, m.isProbeAck = true →
    p.lineOf m.address = f.line ∧ ∀ i, reqSelected p m.source i = true →
      reqSelected p f.sourceQ i = false
  granting : ∀ {i l t}, e.acq i l = some t → t.phase = .granting →
    f.stateQ = .wait ∧ t.source = f.sourceQ ∧ f.ackDoneQ = false ∧ e.owed = 0 ∧ e.eQ = 0
  acks : f.stateQ ≠ .wait → e.owed = 0 ∧ e.eQ = 0
  ackOne : f.stateQ = .wait → e.owed + e.eQ + f.ackDoneQ.toNat ≤ 1
  ackDone : f.Busy → f.xactTypeQ ≠ xactUncached → f.ackDoneQ = false
  rStarted : 0 < e.rIdx → ∀ r rest, e.rQ = r :: rest → r.isGrant = true →
    ∀ i l t, e.acq i l = some t → t.source = r.source / 4 → t.phase = .started
  rGranting : ∀ r rest, r :: rest <:+ e.rQ → r.isGrant = true →
    (0 < e.rIdx → r :: rest ≠ e.rQ) →
    ∀ i l t, e.acq i l = some t → t.source = r.source / 4 → t.phase = .granting

/-- Who may hold what. -/
structure Perms (f : BroadcastFsm p) (e : BroadcastEnv p) : Prop where
  acqRel : ∀ {i l t}, e.acq i l = some t → e.rel i l = none
  acqLow : ∀ {i l t}, e.acq i l = some t →
    e.perm i l = .n ∨ e.perm i l = .b ∧ t.param = BtoT
  dirty : ∀ {i l}, e.dirty i l = true → e.perm i l = .t
  single : ∀ {i j l}, i ≠ j → e.eff i l = .t → e.eff j l = .n
  capped : f.Busy → ∀ i, reqSelected p f.sourceQ i = false →
    f.probePendingQ i = true ∨ (e.bQ i).isSome = true ∨
      e.eff i f.line ≤ f.cap ∧ e.Followed i f.line
  dataLow : ∀ m ∈ e.cQ, m.opcode.hasData = true → ∀ i, e.eff i (p.lineOf m.address) ≠ .t

/-- Where the latest data is. -/
structure Data (f : BroadcastFsm p) (e : BroadcastEnv p) : Prop where
  mem : ∀ l, (∀ w, e.mem l w = e.cur l w) ∨ (∃ i, e.dirty i l = true) ∨
    ∃ m ∈ e.cQ, m.opcode.hasData = true ∧ p.lineOf m.address = l
  memHigh : ∀ l w, p.lineBeats ≤ w → e.mem l w = e.cur l w
  copy : ∀ i l, e.perm i l ≠ .n → ∀ w < p.lineBeats, e.copy i l w = e.cur l w
  cData : ∀ m ∈ e.cQ, m.opcode.hasData = true →
    ∀ w < p.lineBeats, p.word (m.data w) = e.cur (p.lineOf m.address) w
  cMem : ∀ m rest, e.cQ = m :: rest → m.opcode.hasData = true →
    ∀ w < e.cIdx, e.mem (p.lineOf m.address) w = p.word (m.data w)
  rData : ∀ r ∈ e.rQ, r.isGrant = true → ∀ l, e.srcLine (r.source / 4) = some l →
    ∀ w < p.lineBeats, p.word (r.data w) = e.cur l w
  rServed : ∀ r ∈ e.rQ, r.source % 4 = 3 → r.opcode = .accessAckData →
    ∀ w ≤ r.len p, p.word (r.data w) = e.served (r.source / 4) w
  rx : ∀ r rest, e.rQ = r :: rest → r.answersA = true →
    ∀ w < e.rIdx, e.rx (r.source / 4) w = r.data w
  mailData : ∀ s d i, e.mail s = some d → reqSelected p s i = true → d.opcode = .grantData →
    ∀ l, e.srcLine s = some l → ∀ w < p.lineBeats, p.word (e.rx s w) = e.cur l w
  mailServed : ∀ s d, e.mail s = some d → (∀ i, reqSelected p s i = false) →
    d.opcode = .accessAckData →
    ∀ w ≤ Burst.len p.burst true d.size, p.word (e.rx s w) = e.served s w
  amoBuf : ∀ w < e.aIdx, p.word (e.amoBuf w) = e.served f.sourceQ w

/-- The whole invariant. -/
structure Coherent (f : BroadcastFsm p) (e : BroadcastEnv p) : Prop where
  ids : Ids e
  control : Control f e
  perms : Perms f e
  data : Data f e

/-! ## General facts -/

section Basic
variable {f : BroadcastFsm p} {e : BroadcastEnv p} {i j : Fin p.numCachedHosts} {l : ℕ}

theorem setAt_self {α : Type*} (g : Fin p.numCachedHosts → ℕ → α) (a : α) :
    setAt g i l a i l = a := by
  simp [setAt]

theorem setAt_eq_some {α : Type*} {g : Fin p.numCachedHosts → ℕ → Option α} {a t : α} {l' : ℕ}
    (h : setAt g i l (some a) j l' = some t) :
    (j = i ∧ l' = l ∧ t = a) ∨ (¬(j = i ∧ l' = l) ∧ g j l' = some t) := by
  unfold setAt at h
  split at h
  · next hc =>
    simp only [Option.some.injEq] at h
    exact Or.inl ⟨hc.1, hc.2, h.symm⟩
  · next hc => exact Or.inr ⟨hc, h⟩

theorem setAt_none_eq_some {α : Type*} {g : Fin p.numCachedHosts → ℕ → Option α} {t : α} {l' : ℕ}
    (h : setAt g i l none j l' = some t) : ¬(j = i ∧ l' = l) ∧ g j l' = some t := by
  unfold setAt at h
  split at h
  · cases h
  · next hc => exact ⟨hc, h⟩

/-- The acquire issued under a source is the only thing that its phase belongs to. -/
theorem setAcqPhase_eq (hp : p.Ok) {s : ℕ} {t : AcqTxn} (hi : reqSelected p s i = true)
    (hl : e.srcLine s = some l) (ht : e.acq i l = some t) (ph : AcqPhase) :
    e.setAcqPhase s ph = { e with acq := setAt e.acq i l (some { t with phase := ph }) } := by
  have hacq : (e.setAcqPhase s ph).acq = setAt e.acq i l (some { t with phase := ph }) := by
    funext j l'
    simp only [setAcqPhase, setAt, hl, Option.some.injEq]
    by_cases hc : j = i ∧ l' = l
    · rw [if_pos hc, hc.1, hc.2, if_pos ⟨hi, rfl⟩, ht]
      rfl
    · rw [if_neg hc, if_neg]
      rintro ⟨hj, hl'⟩
      exact hc ⟨hp.disjoint hj hi, hl'.symm⟩
  rw [← hacq]
  rfl

/-- A source of no caching host has no acquire. -/
theorem setAcqPhase_uncached {source : ℕ} (h : ∀ i, reqSelected p source i = false)
    (ph : AcqPhase) : e.setAcqPhase source ph = e := by
  simp [setAcqPhase, h]

theorem setRelPhase_eq (hp : p.Ok) {s : ℕ} {t : RelTxn} (hi : reqSelected p s i = true)
    (hl : e.relLine s = some l) (ht : e.rel i l = some t) (ph : RelPhase) :
    e.setRelPhase s ph = { e with rel := setAt e.rel i l (some { t with phase := ph }) } := by
  have hrel : (e.setRelPhase s ph).rel = setAt e.rel i l (some { t with phase := ph }) := by
    funext j l'
    simp only [setRelPhase, setAt, hl, Option.some.injEq]
    by_cases hc : j = i ∧ l' = l
    · rw [if_pos hc, hc.1, hc.2, if_pos ⟨hi, rfl⟩, ht]
      rfl
    · rw [if_neg hc, if_neg]
      rintro ⟨hj, hl'⟩
      exact hc ⟨hp.disjoint hj hi, hl'.symm⟩
  rw [← hrel]
  rfl

theorem eff_none (h : e.acq i l = none) : e.eff i l = e.perm i l := by
  simp [eff, h]

theorem eff_queued {t : AcqTxn} (h : e.acq i l = some t) (hq : t.phase = .queued) :
    e.eff i l = e.perm i l := by
  simp [eff, h, hq]

theorem eff_granted {t : AcqTxn} (h : e.acq i l = some t) (hq : t.phase ≠ .queued) :
    e.eff i l = t.wants := by
  simp [eff, h, hq]

theorem AcqTxn.wants_ne (t : AcqTxn) : t.wants ≠ .n := by
  unfold AcqTxn.wants
  split <;> simp

/-- A host that asked for more than it had holds at most what it asked for. -/
theorem perm_of_eff : e.eff i l = .n → e.perm i l = .n := by
  intro he
  rcases ha : e.acq i l with _ | t
  · rwa [eff_none ha] at he
  · by_cases hq : t.phase = .queued
    · rwa [eff_queued ha hq] at he
    · rw [eff_granted ha hq] at he
      exact absurd he t.wants_ne

theorem Perms.eff_of_trunk (h : Perms f e) (ht : e.perm i l = .t) :
    e.acq i l = none ∧ e.eff i l = .t := by
  rcases ha : e.acq i l with _ | t
  · exact ⟨rfl, by rw [eff_none ha, ht]⟩
  · rcases h.acqLow ha with hn | ⟨hb, -⟩
    · rw [ht] at hn
      cases hn
    · rw [ht] at hb
      cases hb

/-- Two sources of one host and one line are one acquire. -/
theorem Ids.acq_unique (hp : p.Ok) (h : Ids e) {l' : ℕ} {t t' : AcqTxn} (ht : e.acq i l = some t)
    (ht' : e.acq j l' = some t') (hs : t.source = t'.source) : i = j ∧ l = l' ∧ t = t' := by
  obtain ⟨hi, hl⟩ := h.acqSrc ht
  obtain ⟨hj, hl'⟩ := h.acqSrc ht'
  rw [hs] at hi hl
  have hij : i = j := hp.disjoint hi hj
  have hll : l = l' := Option.some.inj (hl.symm.trans hl')
  subst hij hll
  exact ⟨rfl, rfl, Option.some.inj (ht.symm.trans ht')⟩

/-- A nonempty end of a queue with one more message. -/
theorem suffix_append {α : Type*} {m x : α} {rest q : List α} (h : m :: rest <:+ q ++ [x]) :
    (m = x ∧ rest = []) ∨ ∃ rest', rest = rest' ++ [x] ∧ m :: rest' <:+ q := by
  rcases List.suffix_concat_iff.mp h with hnil | ⟨t, ht, hs⟩
  · cases hnil
  · cases t with
    | nil =>
        simp only [List.nil_append, List.cons.injEq] at ht
        exact Or.inl ht
    | cons a t =>
        simp only [List.cons_append, List.cons.injEq] at ht
        obtain ⟨rfl, ht⟩ := ht
        exact Or.inr ⟨t, ht, hs⟩

/-- The head of a queue with one more message. -/
theorem head_append {α : Type*} {m x : α} {rest q : List α} (h : q ++ [x] = m :: rest) :
    (q = [] ∧ m = x) ∨ ∃ rest', q = m :: rest' := by
  cases q with
  | nil =>
      simp only [List.nil_append, List.cons.injEq] at h
      exact Or.inl ⟨rfl, h.1.symm⟩
  | cons a q =>
      simp only [List.cons_append, List.cons.injEq] at h
      exact Or.inr ⟨q, by rw [h.1]⟩

/-- A host that has nothing left to send to the line keeps it so when the head of
channel C leaves. -/
theorem Followed.tail {m : CReq} {rest : List CReq} (hq : e.cQ = m :: rest)
    (h : e.Followed i l) : { e with cQ := rest }.Followed i l := by
  intro m' rest' hs
  exact h m' rest' (by rw [hq]; exact hs.trans (List.suffix_cons _ _))

/-- A message that is an answer, or belongs elsewhere, does not disturb the others. -/
theorem Followed.append {x : CReq} (h : e.Followed i l)
    (hx : x.opcode.hasData = true → p.lineOf x.address = l → reqSelected p x.source i = true →
      x.isProbeAck = true) : { e with cQ := e.cQ ++ [x] }.Followed i l := by
  intro m rest hs hd hl hi
  rcases suffix_append hs with ⟨rfl, rfl⟩ | ⟨rest', rfl, hs'⟩
  · exact ⟨m, List.mem_cons_self, hx hd hl hi⟩
  · obtain ⟨m', hm', ha⟩ := h m rest' hs' hd hl hi
    refine ⟨m', ?_, ha⟩
    rw [← List.cons_append]
    exact List.mem_append_left _ hm'

/-- An answer at the end of channel C follows everything. -/
theorem Followed.of_append_probeAck {x : CReq} (hx : x.isProbeAck = true) :
    { e with cQ := e.cQ ++ [x] }.Followed i l := by
  intro m rest hs _ _ _
  refine ⟨x, ?_, hx⟩
  rcases suffix_append hs with ⟨rfl, rfl⟩ | ⟨rest', rfl, -⟩
  · exact List.mem_cons_self
  · simp

end Basic

/-- The index of the last beat of a line, and the number of its beats. -/
theorem burstLen_line (p : BroadcastParams) :
    p.burst.burstLen p.burst.maxSize + 1 = p.lineBeats := by
  unfold BurstParams.burstLen BroadcastParams.lineBeats
  split
  · next h => simp [Nat.sub_eq_zero_of_le h]
  · next h =>
    have hk : 1 ≤ p.burst.maxSize - p.burst.nonBurst := by omega
    have hpos : 0 < 2 ^ (p.burst.maxSize - p.burst.nonBurst) := Nat.two_pow_pos _
    have hw : p.burst.maxSize - p.burst.nonBurst ≤ p.burst.lenWidth := by
      unfold BurstParams.lenWidth Sync.vbits Sync.clog2
      have h2 : 2 ≤ 2 ^ (p.burst.maxSize - p.burst.nonBurst) := by
        calc 2 = 2 ^ 1 := rfl
          _ ≤ _ := Nat.pow_le_pow_right (by omega) hk
      rw [if_neg (by omega), if_neg (by omega)]
      have hlog := Nat.lt_log2_self (n := 2 ^ (p.burst.maxSize - p.burst.nonBurst) - 1)
      have hlt := (Nat.pow_le_pow_iff_right (a := 2) (by omega)).mp
        (show 2 ^ (p.burst.maxSize - p.burst.nonBurst) ≤
          2 ^ ((2 ^ (p.burst.maxSize - p.burst.nonBurst) - 1).log2 + 1) by omega)
      exact hlt
    have hle := Nat.pow_le_pow_right (n := 2) (by omega) hw
    rw [Nat.mod_eq_of_lt (by omega)]
    omega

theorem CReq.len_of_hasData {m : CReq} (hd : m.opcode.hasData = true)
    (hs : m.size = p.burst.maxSize) : m.len p + 1 = p.lineBeats := by
  rw [CReq.len, Burst.len, hd, if_pos rfl, hs, burstLen_line]

/-! ## Transfers -/

section Transfers
variable {f : BroadcastFsm p} {e : BroadcastEnv p}

/-- Only the request machine's wait for data is told by `grant_done`. -/
theorem Coherent.grantDone (h : Coherent f e) (b : Bool) :
    Coherent { f with grantDoneQ := b } e where
  ids := h.ids
  control := { h.control with }
  perms := { h.perms with }
  data := { h.data with }

/-- A grant acknowledgement arrives. -/
theorem Coherent.ack (h : Coherent f e) (he : 0 < e.eQ) :
    Coherent { f with ackDoneQ := true } { e with eQ := e.eQ - 1 } where
  ids := { h.ids with }
  control :=
    { h.control with
      granting := by
        intro i l t ht hg
        have := (h.control.granting ht hg).2.2.2.2
        omega
      acks := by
        intro hw
        have := h.control.acks hw
        omega
      ackOne := by
        intro hw
        have := h.control.ackOne hw
        simp only [Bool.toNat_true]
        omega
      ackDone := by
        intro hb _
        have := h.control.acks (BroadcastFsm.Busy.ne_wait (f := f) hb)
        omega }
  perms := { h.perms with }
  data := { h.data with }

/-! ### Channel C -/

section ChannelC
variable {m : CReq} {rest : List CReq}

theorem Control.cIdx_eq_zero (h : Control f e) (hq : e.cQ = m :: rest)
    (hd : m.opcode.hasData = false) : e.cIdx = 0 := by
  by_contra hne
  obtain ⟨m', rest', hq', hd'⟩ := h.cIdx (Nat.pos_of_ne_zero hne)
  rw [hq, List.cons.injEq] at hq'
  rw [hq'.1, hd'] at hd
  cases hd

theorem outstanding_popC (f : BroadcastFsm p) (hq : e.cQ = m :: rest) (n : ℕ) :
    f.outstanding e =
      f.outstanding { e with cQ := rest, cIdx := n } + (if m.isProbeAck then 1 else 0) := by
  simp only [BroadcastFsm.outstanding, hq, List.countP_cons]
  omega

/-- The probe answers are counted only while the request machine waits for them. -/
theorem Control.inv_of_pos (h : Control f e) (hpos : 0 < f.outstanding e) : f.stateQ = .inv := by
  by_contra hne
  have := h.quiet hne
  omega

/-- What `Ids` says about channel C holds of its tail. -/
theorem Ids.popC (h : Ids e) (hq : e.cQ = m :: rest) (n : ℕ) :
    Ids { e with cQ := rest, cIdx := n } :=
  { h with
    cSel := fun m' hm => h.cSel m' (by rw [hq]; exact List.mem_cons_of_mem _ hm)
    cRel := fun m' hm => h.cRel m' (by rw [hq]; exact List.mem_cons_of_mem _ hm)
    cNodup := by
      have hn := h.cNodup
      rw [hq, List.filter_cons] at hn
      split at hn
      · exact (List.nodup_cons.mp hn).2
      · exact hn }

theorem Perms.popC (h : Perms f e) (hq : e.cQ = m :: rest) (n : ℕ) :
    Perms f { e with cQ := rest, cIdx := n } :=
  { h with
    capped := by
      intro hb i hi
      rcases h.capped hb i hi with hc | hc | ⟨hle, hf⟩
      · exact Or.inl hc
      · exact Or.inr (Or.inl hc)
      · exact Or.inr (Or.inr ⟨hle, Followed.tail hq hf⟩)
    dataLow := fun m' hm => h.dataLow m' (by rw [hq]; exact List.mem_cons_of_mem _ hm) }

/-- `ProbeAck` is counted and dropped. -/
theorem Coherent.probeAck (h : Coherent f e) (hq : e.cQ = m :: rest) (hop : m.opcode = .probeAck) :
    Coherent { f with probeAckPendingQ := f.probeAckPendingQ - 1 }
      { e with cQ := rest, cIdx := 0 } := by
  have hd : m.opcode.hasData = false := by rw [hop]; rfl
  have hout := outstanding_popC f hq 0
  have ha : m.isProbeAck = true := by simp [CReq.isProbeAck, hop]
  rw [if_pos ha] at hout
  have hinv : f.stateQ = .inv := h.control.inv_of_pos (by omega)
  exact
    { ids := h.ids.popC hq 0
      control :=
        { h.control with
          count := by
            intro _
            have := h.control.count hinv
            show f.probeAckPendingQ - 1 = f.outstanding { e with cQ := rest, cIdx := 0 }
            omega
          countLe := (Nat.sub_le _ _).trans h.control.countLe
          quiet := fun hne => absurd hinv hne
          cIdx := fun hpos => absurd hpos (Nat.lt_irrefl 0)
          probeAck := fun m' hm =>
            h.control.probeAck m' (by rw [hq]; exact List.mem_cons_of_mem _ hm) }
      perms := { h.perms.popC hq 0 with }
      data :=
        { h.data with
          mem := by
            intro l
            rcases h.data.mem l with hm | hm | ⟨m', hm', hd', hl⟩
            · exact Or.inl hm
            · exact Or.inr (Or.inl hm)
            · rw [hq] at hm'
              rcases List.mem_cons.mp hm' with rfl | hm'
              · rw [hd] at hd'
                cases hd'
              · exact Or.inr (Or.inr ⟨m', hm', hd', hl⟩)
          cData := fun m' hm =>
            h.data.cData m' (by rw [hq]; exact List.mem_cons_of_mem _ hm)
          cMem := fun _ _ _ _ w hw => absurd hw (Nat.not_lt_zero w) } }

/-- A beat of data is written to the memory. -/
theorem Coherent.dataBeat (h : Coherent f e) (hq : e.cQ = m :: rest)
    (hd : m.opcode.hasData = true) (hc : e.cIdx < p.lineBeats) (ha : e.aIdx = 0)
    (buf : ℕ → ℕ) :
    Coherent f
      { e with
        mem := setWord e.mem (p.lineOf m.address) e.cIdx (p.word (m.data e.cIdx))
        amoBuf := buf
        cIdx := e.cIdx + 1 } where
  ids := { h.ids with }
  control := { h.control with cIdx := fun _ => ⟨m, rest, hq, hd⟩ }
  perms := { h.perms with }
  data :=
    { h.data with
      mem := by
        intro l
        by_cases hl : l = p.lineOf m.address
        · refine Or.inr (Or.inr ⟨m, ?_, hd, hl.symm⟩)
          simp [hq]
        · rcases h.data.mem l with hm | hm | hm
          · refine Or.inl fun w => ?_
            simp only [setWord, hl, false_and, if_false]
            exact hm w
          · exact Or.inr (Or.inl hm)
          · exact Or.inr (Or.inr hm)
      memHigh := by
        intro l w hw
        have hne : w ≠ e.cIdx := by omega
        simp only [setWord, hne, and_false, if_false]
        exact h.data.memHigh l w hw
      cMem := by
        intro m' rest' hq' hd' w hw
        have hm : m' = m := by
          have hcons : m' :: rest' = m :: rest := hq'.symm.trans hq
          exact (List.cons.inj hcons).1
        subst hm
        simp only [setWord, true_and]
        split
        · next hw' => rw [hw']
        · next hw' => exact h.data.cMem m' rest' hq' hd' w (by simp only at hw; omega)
      amoBuf := by
        intro w hw
        simp only [ha, Nat.not_lt_zero] at hw }

/-- After the last beat of data the memory has the line. -/
theorem Coherent.mem_popC (h : Coherent f e) (hq : e.cQ = m :: rest)
    (hc : e.cIdx = p.lineBeats) (l : ℕ) :
    (∀ w, e.mem l w = e.cur l w) ∨ (∃ i, e.dirty i l = true) ∨
      ∃ m ∈ rest, m.opcode.hasData = true ∧ p.lineOf m.address = l := by
  have hpos : 0 < e.cIdx := by
    rw [hc]
    exact Nat.two_pow_pos _
  obtain ⟨m₀, rest₀, hq₀, hd⟩ := h.control.cIdx hpos
  have hm₀ : m₀ = m := by
    have hcons : m₀ :: rest₀ = m :: rest := hq₀.symm.trans hq
    exact (List.cons.inj hcons).1
  subst hm₀
  by_cases hl : l = p.lineOf m₀.address
  · refine Or.inl fun w => ?_
    by_cases hw : w < p.lineBeats
    · rw [hl, h.data.cMem m₀ rest hq hd w (by omega)]
      exact h.data.cData m₀ (by rw [hq]; exact List.mem_cons_self) hd w hw
    · exact h.data.memHigh l w (by omega)
  · rcases h.data.mem l with hm | hm | ⟨m', hm', hd', hl'⟩
    · exact Or.inl hm
    · exact Or.inr (Or.inl hm)
    · rw [hq] at hm'
      rcases List.mem_cons.mp hm' with rfl | hm'
      · exact absurd hl'.symm hl
      · exact Or.inr (Or.inr ⟨m', hm', hd', hl'⟩)

/-! ### Responses join the queue -/

/-- The owner of a new response is known, and no other response has its source. -/
theorem Ids.appendR (h : Ids e) {x : DResp}
    (hA : x.answersA = true →
      (∀ m ∈ e.aQ, x.source / 4 ≠ m.source) ∧ e.mail (x.source / 4) = none)
    (hG : x.isGrant = true → x.opcode = .accessAckData ∧ x.size = p.burst.maxSize ∧
      ∃ i l t, e.acq i l = some t ∧ t.source = x.source / 4 ∧ t.phase ≠ .queued ∧
        t.wants = xactPerm (x.source % 4))
    (hU : x.source % 4 = 3 →
      (∀ i, reqSelected p (x.source / 4) i = false) ∧ (e.srcLine (x.source / 4)).isSome = true)
    (hO : x.source % 4 = 3 →
      x.opcode = .accessAck ∨ x.opcode = .accessAckData ∨ x.opcode = .hintAck)
    (hR : x.source % 4 = 2 →
      x.opcode = .accessAck ∧ ∃ i l, e.rel i l = some ⟨x.source / 4, .inDevice⟩)
    (hN : x.isDrop = false → ∀ r ∈ e.rQ, r.isDrop = false → r.source ≠ x.source) :
    Ids { e with rQ := e.rQ ++ [x] } := by
  have hmem : ∀ {P : DResp → Prop}, (∀ r ∈ e.rQ, P r) → P x → ∀ r ∈ e.rQ ++ [x], P r := by
    intro P hq hx r hr
    rcases List.mem_append.mp hr with hr | hr
    · exact hq r hr
    · rw [List.mem_singleton.mp hr]
      exact hx
  exact
    { h with
      aResp := fun m hm => hmem (h.aResp m hm) fun hx => (hA hx).1 m hm
      rAcq := hmem h.rAcq hG
      rUnc := hmem h.rUnc hU
      rUncOp := hmem h.rUncOp hO
      rMail := hmem h.rMail fun hx => (hA hx).2
      rRel := hmem h.rRel hR
      rNodup := by
        show ((List.filter (!·.isDrop) (e.rQ ++ [x])).map (·.source)).Nodup
        rw [List.filter_append, List.map_append]
        cases hx : x.isDrop with
        | true => simpa [hx] using h.rNodup
        | false =>
            rw [List.nodup_append]
            refine ⟨h.rNodup, by simp [hx], ?_⟩
            intro a ha b hb
            obtain ⟨r, hr, rfl⟩ := List.mem_map.mp ha
            obtain ⟨hrq, hrd⟩ := List.mem_filter.mp hr
            have hb' : b = x.source := by simpa [hx] using hb
            rw [hb']
            exact hN hx r hrq (by simpa using hrd) }

theorem Control.rIdx_append (h : Control f e) (x : DResp) (hpos : 0 < e.rIdx) :
    ∃ r rest, e.rQ ++ [x] = r :: rest ∧ r.answersA = true := by
  obtain ⟨r, rest, hq, ha⟩ := h.rIdx hpos
  exact ⟨r, rest ++ [x], by rw [hq]; rfl, ha⟩

theorem Control.rStarted_append (h : Control f e) (x : DResp) (hpos : 0 < e.rIdx) (r : DResp)
    (rest : List DResp) (hq : e.rQ ++ [x] = r :: rest) (hg : r.isGrant = true) :
    ∀ i l t, e.acq i l = some t → t.source = r.source / 4 → t.phase = .started := by
  rcases head_append hq with ⟨hnil, -⟩ | ⟨rest', hq'⟩
  · obtain ⟨r', rest', hq', -⟩ := h.rIdx hpos
    rw [hnil] at hq'
    cases hq'
  · exact h.rStarted hpos r rest' hq' hg

theorem Control.rGranting_append (h : Control f e) {x : DResp}
    (hx : x.isGrant = true → ∀ i l t, e.acq i l = some t → t.source = x.source / 4 →
      t.phase = .granting) (r : DResp) (rest : List DResp) (hs : r :: rest <:+ e.rQ ++ [x])
    (hg : r.isGrant = true) (hne : 0 < e.rIdx → r :: rest ≠ e.rQ ++ [x]) :
    ∀ i l t, e.acq i l = some t → t.source = r.source / 4 → t.phase = .granting := by
  rcases suffix_append hs with ⟨rfl, rfl⟩ | ⟨rest', rfl, hs'⟩
  · exact hx hg
  · refine h.rGranting r rest' hs' hg fun hpos heq => hne hpos ?_
    rw [← heq]
    rfl

theorem Data.rx_append (h : Data f e) (hc : Control f e) {x : DResp} (r : DResp)
    (rest : List DResp) (hq : e.rQ ++ [x] = r :: rest) (ha : r.answersA = true) :
    ∀ w < e.rIdx, e.rx (r.source / 4) w = r.data w := by
  intro w hw
  rcases head_append hq with ⟨hnil, -⟩ | ⟨rest', hq'⟩
  · obtain ⟨r', rest', hq', -⟩ := hc.rIdx (by omega)
    rw [hnil] at hq'
    cases hq'
  · exact h.rx r rest' hq' ha w hw

theorem forall_mem_append {α : Type*} {q : List α} {x : α} {P : α → Prop} (hq : ∀ r ∈ q, P r)
    (hx : P x) : ∀ r ∈ q ++ [x], P r := by
  intro r hr
  rcases List.mem_append.mp hr with hr | hr
  · exact hq r hr
  · rw [List.mem_singleton.mp hr]
    exact hx

/-- The last beat of `ProbeAckData` has been written: the memory will confirm it. -/
theorem Coherent.probeAckData (h : Coherent f e) (hq : e.cQ = m :: rest)
    (hop : m.opcode = .probeAckData) (hc : e.cIdx = p.lineBeats) {x : DResp}
    (hx : x.isDrop = true) :
    Coherent f { e with cQ := rest, cIdx := 0, rQ := e.rQ ++ [x] } := by
  have ha : m.isProbeAck = true := by simp [CReq.isProbeAck, hop]
  have hxA : x.answersA = false := by simp [DResp.answersA, hx]
  have hxG : x.isGrant = false := by simp [DResp.isGrant, hx]
  have hx0 : x.source % 4 = 0 := by
    simp only [DResp.isDrop, Broadcast.isProbeAckData, Bool.and_eq_true, beq_iff_eq] at hx
    exact hx.1
  have hout : f.outstanding { e with cQ := rest, cIdx := 0, rQ := e.rQ ++ [x] } =
      f.outstanding e := by
    simp only [BroadcastFsm.outstanding, hq, List.countP_cons, List.countP_append, ha, hx,
      List.countP_nil, if_true]
    omega
  exact
    { ids := by
        refine Ids.appendR (e := { e with cQ := rest, cIdx := 0 }) (h.ids.popC hq 0)
          ?_ ?_ ?_ ?_ ?_ ?_
        · simp [hxA]
        · simp [hxG]
        · omega
        · omega
        · omega
        · simp [hx]
      control :=
        { h.control with
          count := fun hs => (h.control.count hs).trans hout.symm
          quiet := fun hs => hout.trans (h.control.quiet hs)
          cIdx := fun hpos => absurd hpos (Nat.lt_irrefl 0)
          rIdx := h.control.rIdx_append x
          probeAck := fun m' hm =>
            h.control.probeAck m' (by rw [hq]; exact List.mem_cons_of_mem _ hm)
          rStarted := h.control.rStarted_append x
          rGranting := h.control.rGranting_append (by simp [hxG]) }
      perms := { h.perms.popC hq 0 with }
      data :=
        { h.data with
          mem := h.mem_popC hq hc
          cData := fun m' hm =>
            h.data.cData m' (by rw [hq]; exact List.mem_cons_of_mem _ hm)
          cMem := fun _ _ _ _ w hw => absurd hw (Nat.not_lt_zero w)
          rData := forall_mem_append h.data.rData (by simp [hxG])
          rServed := forall_mem_append h.data.rServed (by omega)
          rx := h.data.rx_append h.control } }

/-- The phase of a release changes. -/
theorem Ids.setRel (h : Ids e) {i : Fin p.numCachedHosts} {l : ℕ} {t : RelTxn}
    (ht : e.rel i l = some t) (ph : RelPhase)
    (hr : ∀ r ∈ e.rQ, r.source % 4 = 2 → r.source / 4 = t.source → ph = .inDevice)
    (hc : ∀ m ∈ e.cQ, m.isProbeAck = false → m.source = t.source → ph = .sent) :
    Ids { e with rel := setAt e.rel i l (some { t with phase := ph }) } :=
  { h with
    relSrc := by
      intro i' l' t' ht'
      rcases setAt_eq_some ht' with ⟨rfl, rfl, rfl⟩ | ⟨-, ht''⟩
      · have := h.relSrc ht
        exact this
      · exact h.relSrc ht''
    rRel := by
      intro r hmem h2
      obtain ⟨hop, i', l', ht'⟩ := h.rRel r hmem h2
      refine ⟨hop, i', l', ?_⟩
      by_cases hc' : i' = i ∧ l' = l
      · obtain ⟨rfl, rfl⟩ := hc'
        have htt : t = ⟨r.source / 4, .inDevice⟩ := Option.some.inj (ht.symm.trans ht')
        have hph := hr r hmem h2 (by rw [htt])
        simp [setAt, htt, hph]
      · simpa [setAt, hc'] using ht'
    cRel := by
      intro m hmem ha
      obtain ⟨i', ht'⟩ := h.cRel m hmem ha
      refine ⟨i', ?_⟩
      by_cases hc' : i' = i ∧ p.lineOf m.address = l
      · obtain ⟨rfl, rfl⟩ := hc'
        have htt : t = ⟨m.source, .sent⟩ := Option.some.inj (ht.symm.trans ht')
        have hph := hc m hmem ha (by rw [htt])
        simp [setAt, htt, hph]
      · simpa [setAt, hc'] using ht' }

/-- A release that has left channel C has no other message there. -/
theorem Ids.release_popC (h : Ids e) (hq : e.cQ = m :: rest) (ha : m.isProbeAck = false) :
    ∀ m' ∈ rest, m'.isProbeAck = false → m'.source ≠ m.source := by
  intro m' hm' ha' hs
  have hn := h.cNodup
  rw [hq, List.filter_cons, if_pos (by simp [ha]), List.map_cons, List.nodup_cons] at hn
  apply hn.1
  rw [← hs]
  exact List.mem_map_of_mem (List.mem_filter.mpr ⟨hm', by simp [ha']⟩)

/-- A release on channel C has no response under way. -/
theorem Ids.release_rQ (hp : p.Ok) (h : Ids e) {i : Fin p.numCachedHosts} {l s : ℕ}
    (ht : e.rel i l = some ⟨s, .sent⟩) :
    ∀ r ∈ e.rQ, r.source % 4 = 2 → r.source / 4 ≠ s := by
  intro r hr h2 hs
  obtain ⟨-, i', l', ht'⟩ := h.rRel r hr h2
  obtain ⟨hi, hl⟩ := h.relSrc ht
  obtain ⟨hi', hl'⟩ := h.relSrc ht'
  rw [hs] at hi' hl'
  have hii : i' = i := hp.disjoint hi' hi
  have hll : l' = l := Option.some.inj (hl'.symm.trans hl)
  subst hii hll
  rw [ht] at ht'
  cases ht'

theorem Perms.setRel (h : Perms f e) {i : Fin p.numCachedHosts} {l : ℕ} {t t' : RelTxn}
    (ht : e.rel i l = some t) : Perms f { e with rel := setAt e.rel i l (some t') } :=
  { h with
    acqRel := by
      intro i' l' t'' ha
      have hn := h.acqRel ha
      by_cases hc : i' = i ∧ l' = l
      · rw [hc.1, hc.2, ht] at hn
        cases hn
      · simpa [setAt, hc] using hn }

/-- The last beat of `ReleaseData` has been written. -/
theorem Coherent.releaseData (hp : p.Ok) (h : Coherent f e) (hq : e.cQ = m :: rest)
    (hop : m.opcode = .releaseData) (hc : e.cIdx = p.lineBeats) {x : DResp}
    (hx : x.source = cat m.source 2 xactReleaseData) (hxop : x.opcode = .accessAck) :
    Coherent f
      ({ e with cQ := rest, cIdx := 0, rQ := e.rQ ++ [x] }.setRelPhase m.source .inDevice) := by
  have ha : m.isProbeAck = false := by simp [CReq.isProbeAck, hop]
  obtain ⟨i, ht⟩ := h.ids.cRel m (by rw [hq]; exact List.mem_cons_self) ha
  obtain ⟨hi, hl⟩ := h.ids.relSrc ht
  have hx2 : x.source % 4 = 2 := by rw [hx]; exact cat_mod (by decide)
  have hx4 : x.source / 4 = m.source := by rw [hx]; exact cat_div (by decide)
  have hxD : x.isDrop = false := by
    simp [DResp.isDrop, Broadcast.isProbeAckData, DResp.beat, hx2, xactProbeAckData]
  have hxA : x.answersA = false := by simp [DResp.answersA, hx2]
  have hxG : x.isGrant = false := by simp [DResp.isGrant, hx2]
  have hset := setRelPhase_eq (e := { e with cQ := rest, cIdx := 0, rQ := e.rQ ++ [x] })
    hp hi hl ht .inDevice
  rw [hset]
  have hids := (h.ids.popC hq 0).setRel ht .inDevice
    (fun _ _ _ _ => rfl) (fun m' hm' ha' hs => absurd hs (h.ids.release_popC hq ha m' hm' ha'))
  have hout : f.outstanding { e with cQ := rest, cIdx := 0, rQ := e.rQ ++ [x] } =
      f.outstanding e := by
    simp only [BroadcastFsm.outstanding, hq, List.countP_cons, List.countP_append, ha, hxD,
      List.countP_nil, Bool.false_eq_true, if_false]
    omega
  exact
    { ids := by
        refine hids.appendR ?_ ?_ ?_ ?_ ?_ ?_
        · simp [hxA]
        · simp [hxG]
        · omega
        · omega
        · intro _
          exact ⟨hxop, i, _, by rw [hx4]; exact setAt_self _ _⟩
        · intro _ r hr _ hs
          exact h.ids.release_rQ hp ht r hr (by rw [hs, hx2]) (by rw [hs, hx4])
      control :=
        { h.control with
          count := fun hs => (h.control.count hs).trans hout.symm
          quiet := fun hs => hout.trans (h.control.quiet hs)
          cIdx := fun hpos => absurd hpos (Nat.lt_irrefl 0)
          rIdx := h.control.rIdx_append x
          probeAck := fun m' hm =>
            h.control.probeAck m' (by rw [hq]; exact List.mem_cons_of_mem _ hm)
          rStarted := h.control.rStarted_append x
          rGranting := h.control.rGranting_append (by simp [hxG]) }
      perms := { (h.perms.popC hq 0).setRel ht with }
      data :=
        { h.data with
          mem := h.mem_popC hq hc
          cData := fun m' hm =>
            h.data.cData m' (by rw [hq]; exact List.mem_cons_of_mem _ hm)
          cMem := fun _ _ _ _ w hw => absurd hw (Nat.not_lt_zero w)
          rData := forall_mem_append h.data.rData (by simp [hxG])
          rServed := forall_mem_append h.data.rServed (by omega)
          rx := h.data.rx_append h.control } }

/-- `Release` is acknowledged at once. -/
theorem Coherent.release (hp : p.Ok) (h : Coherent f e) (hq : e.cQ = m :: rest)
    (hop : m.opcode = .release) :
    Coherent f ({ e with cQ := rest, cIdx := 0 }.setRelPhase m.source .acked) := by
  have ha : m.isProbeAck = false := by simp [CReq.isProbeAck, hop]
  have hd : m.opcode.hasData = false := by rw [hop]; rfl
  obtain ⟨i, ht⟩ := h.ids.cRel m (by rw [hq]; exact List.mem_cons_self) ha
  obtain ⟨hi, hl⟩ := h.ids.relSrc ht
  have hset := setRelPhase_eq (e := { e with cQ := rest, cIdx := 0 }) hp hi hl ht .acked
  rw [hset]
  have hout : f.outstanding { e with cQ := rest, cIdx := 0 } = f.outstanding e := by
    simp [BroadcastFsm.outstanding, hq, ha]
  exact
    { ids := (h.ids.popC hq 0).setRel ht .acked
        (fun r hr h2 hs => absurd hs (h.ids.release_rQ hp ht r hr h2))
        (fun m' hm' ha' hs => absurd hs (h.ids.release_popC hq ha m' hm' ha'))
      control :=
        { h.control with
          count := fun hs => (h.control.count hs).trans hout.symm
          quiet := fun hs => hout.trans (h.control.quiet hs)
          cIdx := fun hpos => absurd hpos (Nat.lt_irrefl 0)
          probeAck := fun m' hm =>
            h.control.probeAck m' (by rw [hq]; exact List.mem_cons_of_mem _ hm) }
      perms := { (h.perms.popC hq 0).setRel ht with }
      data :=
        { h.data with
          mem := by
            intro l
            rcases h.data.mem l with hm | hm | ⟨m', hm', hd', hl'⟩
            · exact Or.inl hm
            · exact Or.inr (Or.inl hm)
            · rw [hq] at hm'
              rcases List.mem_cons.mp hm' with rfl | hm'
              · rw [hd] at hd'
                cases hd'
              · exact Or.inr (Or.inr ⟨m', hm', hd', hl'⟩)
          cData := fun m' hm =>
            h.data.cData m' (by rw [hq]; exact List.mem_cons_of_mem _ hm)
          cMem := fun _ _ _ _ w hw => absurd hw (Nat.not_lt_zero w) } }

end ChannelC

/-! ### Channel A -/

section ChannelA
variable {m : AReq} {rest : List AReq}

/-- All probes have been answered. -/
def BroadcastFsm.Clear (f : BroadcastFsm p) : Prop := f.stateQ = .req ∨ f.stateQ = .grant

theorem BroadcastFsm.Clear.busy (h : f.Clear) : f.Busy := Or.inr h

theorem BroadcastFsm.Clear.ne_inv (h : f.Clear) : f.stateQ ≠ .inv := by
  rcases h with hs | hs <;> simp [hs]

/-- Nothing is left of the probes. -/
theorem Control.no_probe (h : Control f e) (hs : f.stateQ ≠ .inv) :
    (∀ i, f.probePendingQ i = false) ∧ (∀ i, (e.bQ i).isSome = false) ∧
      (∀ m ∈ e.cQ, m.isProbeAck = false) ∧ ∀ r ∈ e.rQ, r.isDrop = false := by
  have hz := h.quiet hs
  simp only [BroadcastFsm.outstanding, Nat.add_eq_zero_iff, Finset.card_eq_zero,
    Finset.filter_eq_empty_iff, Finset.mem_univ, true_implies, List.countP_eq_zero,
    Bool.not_eq_true] at hz
  exact ⟨fun i => hz.1.1.1 (x := i), fun i => hz.1.1.2 (x := i), hz.1.2, hz.2⟩

/-- The request being handled, with what `Ids` knows about it. -/
theorem Coherent.holds (h : Coherent f e) (hb : f.Busy) (hq : e.aQ = m :: rest) : f.Holds m := by
  obtain ⟨m', rest', hq', hm⟩ := h.control.head hb
  rw [hq, List.cons.injEq] at hq'
  rwa [hq'.1]

theorem BroadcastFsm.Holds.line_eq (h : f.Holds m) : f.line = p.lineOf m.address := by
  rw [BroadcastFsm.line, h.2.1]

/-- Hosts other than the requester hold no more than the probes left them. -/
theorem Coherent.eff_le_cap (h : Coherent f e) (hc : f.Clear) {i : Fin p.numCachedHosts}
    (hi : reqSelected p f.sourceQ i = false) : e.eff i f.line ≤ f.cap ∧ e.Followed i f.line := by
  obtain ⟨hpp, hbq, -, -⟩ := h.control.no_probe hc.ne_inv
  rcases h.perms.capped hc.busy i hi with hx | hx | hx
  · rw [hpp i] at hx
    cases hx
  · rw [hbq i] at hx
    cases hx
  · exact hx

/-- The requester waits with what it had. -/
theorem Coherent.requester (h : Coherent f e) (hb : f.Busy) {i : Fin p.numCachedHosts}
    (hp : p.Ok) (hi : reqSelected p f.sourceQ i = true) :
    ∃ t, e.acq i f.line = some t ∧ t.phase = .queued ∧ t.source = f.sourceQ := by
  obtain ⟨m, rest, hq, hm⟩ := h.control.head hb
  have hmem : m ∈ e.aQ := by rw [hq]; exact List.mem_cons_self
  rw [hm.2.2.1] at hi
  cases hacq : m.isAcquire with
  | false =>
      rw [h.ids.aUnc m hmem hacq i] at hi
      cases hi
  | true =>
      obtain ⟨-, -, -, j, hj, ht⟩ := h.ids.aAcq m hmem hacq
      have hij : i = j := hp.disjoint hi hj
      subst hij
      rw [← hm.line_eq] at ht
      exact ⟨_, ht, rfl, hm.2.2.1.symm⟩

/-- No data for the line is on channel C any more. -/
theorem Coherent.no_data (hp : p.Ok) (h : Coherent f e) (hc : f.Clear) :
    ∀ m ∈ e.cQ, m.opcode.hasData = true → p.lineOf m.address ≠ f.line := by
  intro m hm hd hl
  obtain ⟨-, -, hack, -⟩ := h.control.no_probe hc.ne_inv
  obtain ⟨-, -, i, hi⟩ := h.ids.cSel m hm
  cases hr : reqSelected p f.sourceQ i with
  | false =>
      obtain ⟨xs, ys, hxy⟩ := List.append_of_mem hm
      obtain ⟨m', hm', ha⟩ := (h.eff_le_cap hc hr).2 m ys ⟨xs, hxy.symm⟩ hd hl hi
      have hmem : m' ∈ e.cQ := by
        rw [hxy]
        exact List.mem_append_right _ hm'
      rw [hack m' hmem] at ha
      cases ha
  | true =>
      obtain ⟨t, ht, -, -⟩ := h.requester hc.busy hp hr
      obtain ⟨j, hj⟩ := h.ids.cRel m hm (hack m hm)
      have hij : j = i := hp.disjoint (h.ids.relSrc hj).1 hi
      rw [hl, hij, h.perms.acqRel ht] at hj
      cases hj

/-- What the probes leave is not Trunk. -/
theorem BroadcastFsm.ne_trunk_of_le_cap {x : Perm} (h : x ≤ f.cap) : x ≠ .t := by
  rintro rfl
  unfold BroadcastFsm.cap at h
  split at h <;> exact absurd h (by decide)

/-- Nobody holds Trunk on the line. -/
theorem Coherent.no_trunk (hp : p.Ok) (h : Coherent f e) (hc : f.Clear)
    (i : Fin p.numCachedHosts) : e.eff i f.line ≠ .t := by
  cases hr : reqSelected p f.sourceQ i with
  | false => exact BroadcastFsm.ne_trunk_of_le_cap (h.eff_le_cap hc hr).1
  | true =>
      obtain ⟨t, ht, hph, -⟩ := h.requester hc.busy hp hr
      rw [eff_queued ht hph]
      rcases h.perms.acqLow ht with hn | ⟨hb, -⟩
      · simp [hn]
      · simp [hb]

/-- The memory has the latest data of the line. -/
theorem Coherent.mem_eq_cur (hp : p.Ok) (h : Coherent f e) (hc : f.Clear) (w : ℕ) :
    e.mem f.line w = e.cur f.line w := by
  rcases h.data.mem f.line with hm | ⟨i, hi⟩ | ⟨m, hm, hd, hl⟩
  · exact hm w
  · have ht := h.perms.eff_of_trunk (h.perms.dirty hi)
    exact absurd ht.2 (h.no_trunk hp hc i)
  · exact absurd hl (h.no_data hp hc m hm hd)

theorem Ids.popA (h : Ids e) (hq : e.aQ = m :: rest) (n : ℕ) :
    Ids { e with aQ := rest, aIdx := n } := by
  have hsub : ∀ m' ∈ rest, m' ∈ e.aQ := fun m' hm => by rw [hq]; exact List.mem_cons_of_mem _ hm
  exact
    { h with
      aSrc := fun m' hm => h.aSrc m' (hsub m' hm)
      aAcq := fun m' hm => h.aAcq m' (hsub m' hm)
      aUnc := fun m' hm => h.aUnc m' (hsub m' hm)
      aResp := fun m' hm => h.aResp m' (hsub m' hm)
      aNodup := by
        have hn := h.aNodup
        rw [hq, List.map_cons, List.nodup_cons] at hn
        exact hn.2 }

/-- The source of the head of channel A is used by no other request. -/
theorem Ids.source_popA (h : Ids e) (hq : e.aQ = m :: rest) :
    ∀ m' ∈ rest, m.source ≠ m'.source := by
  intro m' hm' hs
  have hn := h.aNodup
  rw [hq, List.map_cons, List.nodup_cons] at hn
  apply hn.1
  rw [hs]
  exact List.mem_map_of_mem hm'

/-- The phase of an acquire changes after it has left channel A. -/
theorem Ids.setAcq (h : Ids e) {i : Fin p.numCachedHosts} {l : ℕ} {t : AcqTxn}
    (ht : e.acq i l = some t) (ph : AcqPhase) (hph : ph ≠ .queued)
    (ha : ∀ m ∈ e.aQ, t.source ≠ m.source) (hm : e.mail t.source = none) :
    Ids { e with acq := setAt e.acq i l (some { t with phase := ph }) } :=
  { h with
    acqSrc := by
      intro i' l' t' ht'
      rcases setAt_eq_some ht' with ⟨rfl, rfl, rfl⟩ | ⟨-, ht''⟩
      · have := h.acqSrc ht
        exact this
      · exact h.acqSrc ht''
    aAcq := by
      intro m' hm' hacq
      obtain ⟨h1, h2, h3, i', hi', ht'⟩ := h.aAcq m' hm' hacq
      refine ⟨h1, h2, h3, i', hi', ?_⟩
      by_cases hc : i' = i ∧ p.lineOf m'.address = l
      · rw [hc.1, hc.2] at ht'
        have htt := Option.some.inj (ht.symm.trans ht')
        exact absurd (by rw [htt]) (ha m' hm')
      · simpa [setAt, hc] using ht'
    rAcq := by
      intro r hr hg
      obtain ⟨h1, h2, i', l', t', ht', hs, hq, hw⟩ := h.rAcq r hr hg
      refine ⟨h1, h2, i', l', ?_⟩
      by_cases hc : i' = i ∧ l' = l
      · rw [hc.1, hc.2] at ht'
        have htt := Option.some.inj (ht.symm.trans ht')
        subst htt
        exact ⟨{ t with phase := ph }, by rw [hc.1, hc.2]; exact setAt_self _ _, hs, hph, hw⟩
      · exact ⟨t', by simpa [setAt, hc] using ht', hs, hq, hw⟩
    mailAcq := by
      intro s d hd j hj
      obtain ⟨l', t', ht', hs, hq, hw⟩ := h.mailAcq hd j hj
      refine ⟨l', t', ?_, hs, hq, hw⟩
      by_cases hc : j = i ∧ l' = l
      · rw [hc.1, hc.2] at ht'
        have htt := Option.some.inj (ht.symm.trans ht')
        rw [htt, hs, hd] at hm
        cases hm
      · simpa [setAt, hc] using ht' }

theorem eff_setAcq {i j : Fin p.numCachedHosts} {l l' : ℕ} {t : AcqTxn} {ph : AcqPhase}
    (hph : ph ≠ .queued) :
    { e with acq := setAt e.acq i l (some { t with phase := ph }) }.eff j l' =
      if j = i ∧ l' = l then t.wants else e.eff j l' := by
  by_cases hc : j = i ∧ l' = l
  · simp only [eff, setAt, hc, and_self, if_true, hph, if_false]
    rfl
  · simp only [eff, setAt, hc, if_false]

/-- Granting what the probes made room for. -/
theorem Coherent.perms_grant (hp : p.Ok) (h : Coherent f e) (hc : f.Clear)
    (hq : e.aQ = m :: rest) {i : Fin p.numCachedHosts} {t : AcqTxn}
    (hi : reqSelected p f.sourceQ i = true) (ht : e.acq i f.line = some t)
    (hparam : t.param = m.param) (hacq : m.isAcquire = true) (ph : AcqPhase)
    (hph : ph ≠ .queued) :
    Perms { f with stateQ := .wait }
      { e with acq := setAt e.acq i f.line (some { t with phase := ph }) } := by
  have hcap : t.wants = .t → f.cap = .n := by
    intro hw
    have hne : m.param ≠ NtoB := by
      intro hb
      rw [AcqTxn.wants, hparam, if_pos hb] at hw
      cases hw
    have hop : m.opcode ≠ .get := by
      intro hg
      simp [AReq.isAcquire, hg] at hacq
    have := (h.holds hc.busy hq).2.2.2.2
    rw [if_neg (by simp [hne, hop])] at this
    rw [BroadcastFsm.cap, this, if_neg (by decide)]
  have hother : ∀ j, j ≠ i → reqSelected p f.sourceQ j = false := by
    intro j hj
    cases hr : reqSelected p f.sourceQ j with
    | false => rfl
    | true => exact absurd (hp.disjoint hr hi) hj
  exact
    { h.perms with
      acqRel := by
        intro i' l' t' ht'
        rcases setAt_eq_some ht' with ⟨rfl, rfl, -⟩ | ⟨-, ht''⟩
        · exact h.perms.acqRel ht
        · exact h.perms.acqRel ht''
      acqLow := by
        intro i' l' t' ht'
        rcases setAt_eq_some ht' with ⟨rfl, rfl, rfl⟩ | ⟨-, ht''⟩
        · have := h.perms.acqLow ht
          exact this
        · exact h.perms.acqLow ht''
      single := by
        intro i' j' l' hij hT
        rw [eff_setAcq hph] at hT ⊢
        by_cases hc' : i' = i ∧ l' = f.line
        · rw [if_pos hc'] at hT
          have hj : j' ≠ i := fun hj => hij (hc'.1.trans hj.symm)
          rw [if_neg (by simp [hj]), hc'.2]
          have hle := (h.eff_le_cap hc (hother j' hj)).1
          rw [hcap hT] at hle
          revert hle
          cases e.eff j' f.line <;> decide
        · rw [if_neg hc'] at hT
          split
          · next hj =>
            rw [hj.2] at hT
            exact absurd hT (h.no_trunk hp hc i')
          · exact h.perms.single hij hT
      capped := by
        intro hb
        rcases hb with hb | hb | hb <;> cases hb
      dataLow := by
        intro m' hm' hd j
        rw [eff_setAcq hph, if_neg]
        · exact h.perms.dataLow m' hm' hd j
        · rintro ⟨-, hl⟩
          exact h.no_data hp hc m' hm' hd hl }

/-- A response under way does not belong to a request that is still on channel A. -/
theorem Ids.ne_of_grant (h : Ids e) (hm : m ∈ e.aQ) {r : DResp} (hr : r ∈ e.rQ)
    (hg : r.isGrant = true) : r.source / 4 ≠ m.source := by
  refine h.aResp m hm r hr ?_
  simp only [DResp.isGrant, Bool.and_eq_true, decide_eq_true_eq] at hg
  simp only [DResp.answersA, hg.1, Bool.true_and, decide_eq_true_eq]
  omega

theorem AReq.isAcquire_of_block (h : m.opcode = .acquireBlock) : m.isAcquire = true := by
  simp [AReq.isAcquire, h]

theorem AReq.isAcquire_of_perm (h : m.opcode = .acquirePerm) : m.isAcquire = true := by
  simp [AReq.isAcquire, h]

theorem acquireXact_lt (param : ℕ) : acquireXact param < 2 := by
  unfold acquireXact
  split <;> decide

theorem xactPerm_acquireXact (t : AcqTxn) : xactPerm (acquireXact t.param) = t.wants := by
  unfold xactPerm acquireXact AcqTxn.wants
  by_cases h : t.param = NtoB <;> simp [h, xactAcquireToB, xactAcquireToT]

theorem ofGrant_acquireXact (t : AcqTxn) : Perm.ofGrant (acquireXact t.param) = t.wants := by
  unfold Perm.ofGrant acquireXact AcqTxn.wants
  by_cases h : t.param = NtoB <;> simp [h, xactAcquireToB, xactAcquireToT, toT]

/-- The acquire at the head of channel A is being handled, for the host `i`. -/
structure HeadAcquire (f : BroadcastFsm p) (e : BroadcastEnv p) (m : AReq) (rest : List AReq)
    (i : Fin p.numCachedHosts) : Prop where
  clear : f.Clear
  queue : e.aQ = m :: rest
  holds : f.Holds m
  acquire : m.isAcquire = true
  sel : reqSelected p m.source i = true
  acq : e.acq i f.line = some ⟨m.source, m.param, .queued⟩
  srcLine : e.srcLine m.source = some f.line
  mail : e.mail m.source = none
  xact : f.xactTypeQ = acquireXact m.param

theorem Coherent.headAcquire (h : Coherent f e) (hc : f.Clear) (hq : e.aQ = m :: rest)
    (hacq : m.isAcquire = true) : ∃ i, HeadAcquire f e m rest i := by
  have hm := h.holds hc.busy hq
  have hmem : m ∈ e.aQ := by rw [hq]; exact List.mem_cons_self
  obtain ⟨-, -, -, i, hi, ht⟩ := h.ids.aAcq m hmem hacq
  obtain ⟨hsrc, hmail⟩ := h.ids.aSrc m hmem
  rw [← hm.line_eq] at ht hsrc
  exact ⟨i, hc, hq, hm, hacq, hi, ht, hsrc, hmail, by rw [hm.2.2.2.1, if_pos hacq]⟩

namespace HeadAcquire
variable {i : Fin p.numCachedHosts} (ha : HeadAcquire f e m rest i)
include ha

theorem mem : m ∈ e.aQ := by
  rw [ha.queue]
  exact List.mem_cons_self

theorem ids_setAcq (h : Ids e) (ph : AcqPhase) (hph : ph ≠ .queued) :
    Ids { e with
      aQ := rest, aIdx := 0, acq := setAt e.acq i f.line (some ⟨m.source, m.param, ph⟩) } :=
  (h.popA ha.queue 0).setAcq ha.acq ph hph (h.source_popA ha.queue) ha.mail

theorem xact_lt : f.xactTypeQ < 2 := ha.xact ▸ acquireXact_lt _

theorem ackDoneQ (h : Control f e) : f.ackDoneQ = false := by
  have hlt := ha.xact_lt
  exact h.ackDone ha.clear.busy (by rw [xactUncached]; omega)

/-- Grants under way belong to other acquires. -/
theorem acq_of_grant (h : Ids e) {ph : AcqPhase} {r : DResp} (hr : r ∈ e.rQ)
    (hg : r.isGrant = true) {i' : Fin p.numCachedHosts} {l' : ℕ} {t' : AcqTxn}
    (ht' : setAt e.acq i f.line (some ⟨m.source, m.param, ph⟩) i' l' = some t')
    (hs' : t'.source = r.source / 4) : e.acq i' l' = some t' := by
  rcases setAt_eq_some ht' with ⟨-, -, rfl⟩ | ⟨-, ht''⟩
  · exact absurd hs'.symm (h.ne_of_grant ha.mem hr hg)
  · exact ht''

end HeadAcquire

/-! #### `AcquireBlock` -/

/-- The data of the line is on its way from the device to the host `i`. -/
def fetching (e : BroadcastEnv p) (m : AReq) (rest : List AReq) (i : Fin p.numCachedHosts)
    (line : ℕ) (buf : ℕ → ℕ) (x : DResp) : BroadcastEnv p :=
  { e with
    aQ := rest, aIdx := 0, rQ := e.rQ ++ [x], amoBuf := buf
    acq := setAt e.acq i line (some ⟨m.source, m.param, .granting⟩) }

section Fetching
variable {i : Fin p.numCachedHosts} {x : DResp} {buf : ℕ → ℕ}

/-- The response that the device will give. -/
structure FetchResp (f : BroadcastFsm p) (m : AReq) (x : DResp) : Prop where
  opcode : x.opcode = .accessAckData
  size : x.size = m.size
  source : x.source / 4 = m.source
  xact : x.source % 4 = f.xactTypeQ

theorem FetchResp.isDrop (hx : FetchResp f m x) : x.isDrop = false := by
  simp [DResp.isDrop, Broadcast.isProbeAckData, DResp.beat, hx.opcode]

theorem HeadAcquire.fetching_ids (ha : HeadAcquire f e m rest i) (h : Ids e)
    (hx : FetchResp f m x) : Ids (fetching e m rest i f.line buf x) := by
  have hlt := ha.xact_lt
  have hx4 := hx.source
  have hxm := hx.xact
  have happ := (ha.ids_setAcq h .granting (by simp)).appendR (x := x)
    (by
      intro _
      rw [hx4]
      exact ⟨h.source_popA ha.queue, ha.mail⟩)
    (by
      intro _
      refine ⟨hx.opcode, hx.size.trans (h.aAcq m ha.mem ha.acquire).1, i, f.line,
        ⟨m.source, m.param, .granting⟩, setAt_self _ _, hx4.symm, by simp, ?_⟩
      rw [hxm, ha.xact]
      exact (xactPerm_acquireXact ⟨m.source, m.param, .granting⟩).symm)
    (by omega) (by omega) (by omega)
    (by
      intro _ r hr hrd hrs
      have hA : r.answersA = true := by
        simp only [DResp.answersA, hrd, hrs, hxm, Bool.not_false, Bool.true_and,
          decide_eq_true_eq]
        omega
      exact h.aResp m ha.mem r hr hA (by rw [hrs, hx4]))
  exact { happ with }

theorem HeadAcquire.fetching_control (hp : p.Ok) (ha : HeadAcquire f e m rest i)
    (h : Coherent f e) (hs : f.stateQ = .req) (hx : FetchResp f m x) :
    Control { f with stateQ := .wait } (fetching e m rest i f.line buf x) := by
  have hne : f.stateQ ≠ .wait := by simp [hs]
  have hack := ha.ackDoneQ h.control
  have hzero := h.control.acks hne
  have hout : f.outstanding { e with rQ := e.rQ ++ [x] } = f.outstanding e := by
    simp [BroadcastFsm.outstanding, List.countP_append, hx.isDrop]
  have hnew : ∀ {i' l' t'}, setAt e.acq i f.line (some ⟨m.source, m.param, .granting⟩) i' l' =
      some t' → t'.source = m.source → t'.phase = .granting := by
    intro i' l' t' ht' hs'
    rcases setAt_eq_some ht' with ⟨-, -, rfl⟩ | ⟨hc', ht''⟩
    · rfl
    · obtain ⟨hii, hll, -⟩ := h.ids.acq_unique hp ht'' ha.acq hs'
      exact absurd ⟨hii, hll⟩ hc'
  exact
    { h.control with
      count := fun hs' => by cases hs'
      quiet := fun _ => hout.trans (h.control.quiet ha.clear.ne_inv)
      head := fun hb => by rcases hb with hb | hb | hb <;> cases hb
      grantOp := fun hs' => by cases hs'
      reqOp := fun hs' => by cases hs'
      aIdx := fun hpos => absurd hpos (Nat.lt_irrefl 0)
      rIdx := h.control.rIdx_append x
      granting := by
        intro i' l' t' ht' hg
        rcases setAt_eq_some ht' with ⟨-, -, rfl⟩ | ⟨-, ht''⟩
        · exact ⟨rfl, ha.holds.2.2.1.symm, hack, hzero⟩
        · exact absurd (h.control.granting ht'' hg).1 hne
      acks := fun hs' => absurd rfl hs'
      ackOne := by
        intro _
        show e.owed + e.eQ + f.ackDoneQ.toNat ≤ 1
        rw [hack, hzero.1, hzero.2]
        decide
      ackDone := fun hb => by rcases hb with hb | hb | hb <;> cases hb
      rStarted := by
        intro hpos r rest' hq' hg i' l' t' ht' hs'
        rcases head_append hq' with ⟨hnil, -⟩ | ⟨rest'', hq''⟩
        · obtain ⟨r', rest', hq', -⟩ := h.control.rIdx hpos
          rw [hnil] at hq'
          cases hq'
        · have hr : r ∈ e.rQ := by rw [hq'']; exact List.mem_cons_self
          exact h.control.rStarted hpos r rest'' hq'' hg i' l' t'
            (ha.acq_of_grant h.ids hr hg ht' hs') hs'
      rGranting := by
        intro r rest' hsuf hg hne' i' l' t' ht' hs'
        rcases setAt_eq_some ht' with ⟨-, -, rfl⟩ | ⟨hc', ht''⟩
        · rfl
        · rcases suffix_append hsuf with ⟨rfl, rfl⟩ | ⟨rest'', rfl, hs''⟩
          · exact hnew ht' (hs'.trans hx.source)
          · refine h.control.rGranting r rest'' hs'' hg (fun hpos heq => hne' hpos ?_)
              i' l' t' ht'' hs'
            show r :: (rest'' ++ [x]) = e.rQ ++ [x]
            rw [← heq]
            rfl }

theorem HeadAcquire.fetching_data (hp : p.Ok) (ha : HeadAcquire f e m rest i)
    (h : Coherent f e) (hx : FetchResp f m x)
    (hxd : ∀ w, x.data w = pack (e.mem f.line (p.beatOf f.addressQ + w))) :
    Data { f with stateQ := .wait } (fetching e m rest i f.line buf x) :=
  { h.data with
    rData := by
      refine forall_mem_append h.data.rData fun _ l hl w hw => ?_
      have hl : e.srcLine (x.source / 4) = some l := hl
      rw [hx.source, ha.srcLine] at hl
      cases hl
      rw [hxd, BroadcastParams.word, unpack_pack, ha.holds.2.1,
        (h.ids.aAcq m ha.mem ha.acquire).2.1, Nat.zero_add]
      exact h.mem_eq_cur hp ha.clear w
    rServed := by
      have hlt := ha.xact_lt
      have hxm := hx.xact
      exact forall_mem_append h.data.rServed (by omega)
    rx := h.data.rx_append h.control
    amoBuf := fun w hw => absurd hw (Nat.not_lt_zero w) }

end Fetching

/-- `AcquireBlock` is sent to the device as a `Get`. -/
theorem Coherent.acquireBlock (hp : p.Ok) (h : Coherent f e) (hs : f.stateQ = .req)
    (hq : e.aQ = m :: rest) (hop : m.opcode = .acquireBlock) (buf : ℕ → ℕ) {x : DResp}
    (hxop : x.opcode = .accessAckData) (hxs : x.size = m.size)
    (hx : x.source = cat f.sourceQ 2 f.xactTypeQ)
    (hxd : ∀ w, x.data w = pack (e.mem f.line (p.beatOf f.addressQ + w))) :
    Coherent { f with stateQ := .wait }
      ({ e with aQ := rest, aIdx := 0, rQ := e.rQ ++ [x], amoBuf := buf }.setAcqPhase
        m.source .granting) := by
  obtain ⟨i, ha⟩ := h.headAcquire (Or.inl hs) hq (AReq.isAcquire_of_block hop)
  have hset := setAcqPhase_eq
    (e := { e with aQ := rest, aIdx := 0, rQ := e.rQ ++ [x], amoBuf := buf })
    hp ha.sel ha.srcLine ha.acq .granting
  have hlt := ha.xact_lt
  have hresp : FetchResp f m x :=
    ⟨hxop, hxs, by rw [hx, ← ha.holds.2.2.1]; exact cat_div (show f.xactTypeQ < 2 ^ 2 by omega),
      by rw [hx]; exact cat_mod (show f.xactTypeQ < 2 ^ 2 by omega)⟩
  have hsel : reqSelected p f.sourceQ i = true := by
    rw [ha.holds.2.2.1]
    exact ha.sel
  rw [hset]
  exact
    { ids := ha.fetching_ids h.ids hresp
      control := ha.fetching_control hp h hs hresp
      perms := { h.perms_grant hp ha.clear hq hsel ha.acq rfl ha.acquire .granting (by simp) with }
      data := ha.fetching_data hp h hresp hxd }

theorem newWord_get (amo : AOp → ℕ → ℕ → ℕ → ℕ) {a : AMsg} (h : a.opcode = .get) (old : p.Word) :
    newWord amo a old = old := by
  funext k
  simp [newWord, h]

/-- A request from outside the source table clears every host. -/
theorem Coherent.eff_uncached (h : Coherent f e) (hc : f.Clear) (hq : e.aQ = m :: rest)
    (hun : m.isAcquire = false) (hop : m.opcode ≠ .get) (i : Fin p.numCachedHosts) :
    e.eff i f.line = .n := by
  have hm := h.holds hc.busy hq
  have hi : reqSelected p f.sourceQ i = false := by
    rw [hm.2.2.1]
    exact h.ids.aUnc m (by rw [hq]; exact List.mem_cons_self) hun i
  have hle := (h.eff_le_cap hc hi).1
  have hcap : f.cap = .n := by
    have hpp := hm.2.2.2.2
    rw [if_neg (by simp [hun, hop])] at hpp
    rw [BroadcastFsm.cap, hpp, if_neg (by decide)]
  rw [hcap] at hle
  revert hle
  cases e.eff i f.line <;> decide

/-- The beat `a` of the uncached request `m` at the head of channel A reaches the memory. -/
structure UncachedBeat (f : BroadcastFsm p) (e : BroadcastEnv p) (m : AReq) (rest : List AReq)
    (a : AMsg) : Prop where
  req : f.stateQ = .req
  queue : e.aQ = m :: rest
  uncached : m.isAcquire = false
  holds : f.Holds m
  idx : e.aIdx ≤ m.len p
  opcode : a.opcode = m.opcode
  address : a.address = m.address
  source : a.source = cat m.source 2 xactUncached

namespace UncachedBeat
variable {a : AMsg} (hb : UncachedBeat f e m rest a) (amo : AOp → ℕ → ℕ → ℕ → ℕ)
include hb

theorem mem : m ∈ e.aQ := by
  rw [hb.queue]
  exact List.mem_cons_self

theorem clear : f.Clear := Or.inl hb.req

theorem line_eq : p.lineOf a.address = f.line := by rw [hb.address, hb.holds.line_eq]

theorem mod_eq : a.source % 4 = xactUncached := by
  rw [hb.source]
  exact cat_mod (by decide)

theorem div_eq : a.source / 4 = m.source := by
  rw [hb.source]
  exact cat_div (by decide)

/-- Where a host or a grant has the line, its latest value does not change. -/
theorem cur_of_eff (h : Coherent f e) {i : Fin p.numCachedHosts} {l : ℕ} (hne : e.eff i l ≠ .n)
    (w : ℕ) : (e.perform amo a e.aIdx).cur l w = e.cur l w := by
  simp only [perform, hb.mod_eq, if_true, setWord]
  split
  · next hlw =>
    by_cases hget : m.opcode = .get
    · rw [newWord_get amo (hb.opcode.trans hget), hlw.1, hlw.2]
    · rw [hlw.1, hb.line_eq] at hne
      exact absurd (h.eff_uncached hb.clear hb.queue hb.uncached hget i) hne
  · rfl

/-- The memory keeps up with the latest value. -/
theorem mem_eq_cur {l w : ℕ} (hl : e.mem l w = e.cur l w) :
    (e.perform amo a e.aIdx).mem l w = (e.perform amo a e.aIdx).cur l w := by
  simp only [perform, hb.mod_eq, if_true, setWord]
  split
  · next hlw => rw [← hlw.1, ← hlw.2, hl]
  · exact hl

/-- Other lines are left alone. -/
theorem perform_of_ne {l : ℕ} (hl : l ≠ f.line) (w : ℕ) :
    (e.perform amo a e.aIdx).mem l w = e.mem l w ∧
      (e.perform amo a e.aIdx).cur l w = e.cur l w := by
  simp only [perform, hb.mod_eq, if_true, setWord, hb.line_eq, hl, false_and, if_false, and_self]

theorem served_of_ne {s : ℕ} (hne : s ≠ m.source) :
    (e.perform amo a e.aIdx).served s = e.served s := by
  simp only [perform, hb.mod_eq, hb.div_eq, if_true]
  rw [Function.update_of_ne hne]

/-- What the memory held before is what the response will carry. -/
theorem amoBuf_eq (hp : p.Ok) (h : Coherent f e) {w : ℕ} (hw : w < e.aIdx + 1) :
    p.word ((e.perform amo a e.aIdx).amoBuf w) = (e.perform amo a e.aIdx).served f.sourceQ w := by
  have hsrc := hb.holds.2.2.1
  simp only [perform, hb.mod_eq, hb.div_eq, if_true, hsrc, Function.update_self, hb.line_eq]
  have hnow : p.word (pack (e.mem f.line (p.beatOf a.address + e.aIdx))) =
      e.cur f.line (p.beatOf a.address + e.aIdx) := by
    rw [BroadcastParams.word, unpack_pack]
    exact h.mem_eq_cur hp hb.clear _
  cases hd : a.opcode.hasData with
  | true =>
      rw [if_pos rfl]
      by_cases hwi : w = e.aIdx
      · rw [hwi, Function.update_self, Function.update_self]
        exact hnow
      · rw [Function.update_of_ne hwi, Function.update_of_ne hwi, ← hsrc]
        exact h.data.amoBuf w (by omega)
  | false =>
      have hlen : m.len p = 0 := by
        rw [AReq.len, ← hb.opcode, hd]
        rfl
      have hidx := hb.idx
      have hz : e.aIdx = 0 := by omega
      have hw0 : w = e.aIdx := by omega
      rw [if_neg (by simp), hw0, Function.update_self]
      exact hnow

/-- The data that is not in the memory is that of other lines. -/
theorem data_copies (hp : p.Ok) (h : Coherent f e) :
    (∀ l, (∀ w, (e.perform amo a e.aIdx).mem l w = (e.perform amo a e.aIdx).cur l w) ∨
      (∃ i, e.dirty i l = true) ∨
        ∃ m ∈ e.cQ, m.opcode.hasData = true ∧ p.lineOf m.address = l) ∧
    (∀ l w, p.lineBeats ≤ w →
      (e.perform amo a e.aIdx).mem l w = (e.perform amo a e.aIdx).cur l w) ∧
    (∀ m ∈ e.cQ, m.opcode.hasData = true → ∀ w < p.lineBeats,
      p.word (m.data w) = (e.perform amo a e.aIdx).cur (p.lineOf m.address) w) ∧
    ∀ m rest, e.cQ = m :: rest → m.opcode.hasData = true → ∀ w < e.cIdx,
      (e.perform amo a e.aIdx).mem (p.lineOf m.address) w = p.word (m.data w) := by
  refine ⟨fun l => ?_, fun l w hw => hb.mem_eq_cur amo (h.data.memHigh l w hw), ?_, ?_⟩
  · by_cases hl : l = f.line
    · subst hl
      exact Or.inl fun w => hb.mem_eq_cur amo (h.mem_eq_cur hp hb.clear w)
    · rcases h.data.mem l with hx | hx | hx
      · exact Or.inl fun w => hb.mem_eq_cur amo (hx w)
      · exact Or.inr (Or.inl hx)
      · exact Or.inr (Or.inr hx)
  · intro m' hm' hd w hw
    rw [(hb.perform_of_ne amo (h.no_data hp hb.clear m' hm' hd) w).2]
    exact h.data.cData m' hm' hd w hw
  · intro m' rest' hq' hd w hw
    have hmem : m' ∈ e.cQ := by rw [hq']; exact List.mem_cons_self
    rw [(hb.perform_of_ne amo (h.no_data hp hb.clear m' hmem hd) w).1]
    exact h.data.cMem m' rest' hq' hd w hw

/-- The data on its way to a host that has been granted the line is the latest. -/
theorem cur_of_granted (h : Coherent f e) {i : Fin p.numCachedHosts} {l l' s : ℕ} {t : AcqTxn}
    (ht : e.acq i l' = some t) (hts : t.source = s) (hph : t.phase ≠ .queued)
    (hl : e.srcLine s = some l) (w : ℕ) : (e.perform amo a e.aIdx).cur l w = e.cur l w := by
  have hll : l' = l := by
    have hsrc := (h.ids.acqSrc ht).2
    rw [hts] at hsrc
    exact Option.some.inj (hsrc.symm.trans hl)
  refine hb.cur_of_eff amo h (i := i) ?_ w
  rw [← hll, eff_granted ht hph]
  exact t.wants_ne

theorem data (hp : p.Ok) (h : Coherent f e) :
    Data f { e.perform amo a e.aIdx with aIdx := e.aIdx + 1 } := by
  obtain ⟨hmemory, hhigh, hcData, hcMem⟩ := hb.data_copies amo hp h
  exact
    { h.data with
      mem := hmemory
      memHigh := hhigh
      cData := hcData
      cMem := hcMem
      copy := by
        intro i l hne w hw
        show e.copy i l w = _
        rw [hb.cur_of_eff amo h (fun he => hne (perm_of_eff he)), h.data.copy i l hne w hw]
      rData := by
        intro r hr hg l hl w hw
        obtain ⟨-, -, i, l', t, ht, hts, hph, -⟩ := h.ids.rAcq r hr hg
        show p.word (r.data w) = (e.perform amo a e.aIdx).cur l w
        rw [hb.cur_of_granted amo h ht hts hph hl]
        exact h.data.rData r hr hg l hl w hw
      rServed := by
        intro r hr h3 hro w hw
        have hA : r.answersA = true := by
          simp [DResp.answersA, DResp.isDrop, Broadcast.isProbeAckData, DResp.beat, h3,
            xactProbeAckData]
        show p.word (r.data w) = (e.perform amo a e.aIdx).served (r.source / 4) w
        rw [hb.served_of_ne amo (h.ids.aResp m hb.mem r hr hA)]
        exact h.data.rServed r hr h3 hro w hw
      mailData := by
        intro s d i hd hi hgd l hl w hw
        obtain ⟨l', t, ht, hts, hph, -⟩ := h.ids.mailAcq hd i hi
        show p.word (e.rx s w) = (e.perform amo a e.aIdx).cur l w
        rw [hb.cur_of_granted amo h ht hts (by simp [hph]) hl]
        exact h.data.mailData s d i hd hi hgd l hl w hw
      mailServed := by
        intro s d hd hi hro w hw
        have hne : s ≠ m.source := by
          rintro rfl
          have hn := (h.ids.aSrc m hb.mem).2
          have hd' : e.mail m.source = some d := hd
          rw [hn] at hd'
          cases hd'
        show p.word (e.rx s w) = (e.perform amo a e.aIdx).served s w
        rw [hb.served_of_ne amo hne]
        exact h.data.mailServed s d hd hi hro w hw
      amoBuf := fun _ hw => hb.amoBuf_eq amo hp h hw }

end UncachedBeat

/-- A beat of an uncached request reaches the memory. -/
theorem Coherent.uncachedBeat (amo : AOp → ℕ → ℕ → ℕ → ℕ) (hp : p.Ok) (h : Coherent f e)
    (hs : f.stateQ = .req) (hq : e.aQ = m :: rest) (hun : m.isAcquire = false)
    (hidx : e.aIdx ≤ m.len p) {a : AMsg} (hop : a.opcode = m.opcode)
    (haddr : a.address = m.address) (hsrc : a.source = cat m.source 2 xactUncached) :
    Coherent f { e.perform amo a e.aIdx with aIdx := e.aIdx + 1 } := by
  have hm := h.holds (BroadcastFsm.Clear.busy (Or.inl hs)) hq
  have hb : UncachedBeat f e m rest a := ⟨hs, hq, hun, hm, hidx, hop, haddr, hsrc⟩
  exact
    { ids := { h.ids with }
      control :=
        { h.control with
          aIdx := fun _ => ⟨hs, by rw [hm.2.2.2.1, if_neg (by simp [hun])]⟩ }
      perms := { h.perms with }
      data := hb.data amo hp h }

/-- The last beat of an uncached request has reached the memory. -/
theorem Coherent.uncachedEnd (h : Coherent f e) (hs : f.stateQ = .req)
    (hq : e.aQ = m :: rest) (hun : m.isAcquire = false) {x : DResp}
    (hx : x.source = cat m.source 2 xactUncached)
    (hxo : x.opcode = .accessAck ∨ x.opcode = .accessAckData ∨ x.opcode = .hintAck)
    (hxd : x.opcode = .accessAckData → ∀ w ≤ x.len p, p.word (x.data w) = e.served m.source w) :
    Coherent { f with stateQ := .idle } { e with aQ := rest, aIdx := 0, rQ := e.rQ ++ [x] } := by
  have hc : f.Clear := Or.inl hs
  have hmem : m ∈ e.aQ := by rw [hq]; exact List.mem_cons_self
  have hx3 : x.source % 4 = 3 := by rw [hx]; exact cat_mod (by decide)
  have hx4 : x.source / 4 = m.source := by rw [hx]; exact cat_div (by decide)
  have hxD : x.isDrop = false := by
    simp [DResp.isDrop, Broadcast.isProbeAckData, DResp.beat, hx3, xactProbeAckData]
  have hxG : x.isGrant = false := by simp [DResp.isGrant, hx3]
  have hne : f.stateQ ≠ .wait := by simp [hs]
  have hout : f.outstanding { e with rQ := e.rQ ++ [x] } = f.outstanding e := by
    simp [BroadcastFsm.outstanding, List.countP_append, hxD]
  exact
    { ids := by
        refine (h.ids.popA hq 0).appendR ?_ ?_ ?_ (fun _ => hxo) ?_ ?_
        · intro _
          rw [hx4]
          exact ⟨h.ids.source_popA hq, (h.ids.aSrc m hmem).2⟩
        · simp [hxG]
        · intro _
          rw [hx4]
          refine ⟨h.ids.aUnc m hmem hun, ?_⟩
          show (e.srcLine m.source).isSome = true
          rw [(h.ids.aSrc m hmem).1]
          rfl
        · omega
        · intro _ r hr hrd hrs
          have hA : r.answersA = true := by simp [DResp.answersA, hrd, hrs, hx3]
          exact h.ids.aResp m hmem r hr hA (by rw [hrs, hx4])
      control :=
        { h.control with
          count := fun hs' => by cases hs'
          quiet := fun _ => hout.trans (h.control.quiet hc.ne_inv)
          head := fun hb => by rcases hb with hb | hb | hb <;> cases hb
          grantOp := fun hs' => by cases hs'
          reqOp := fun hs' => by cases hs'
          aIdx := fun hpos => absurd hpos (Nat.lt_irrefl 0)
          rIdx := h.control.rIdx_append x
          granting := fun ht hg => absurd (h.control.granting ht hg).1 hne
          acks := fun _ => h.control.acks hne
          ackOne := fun hs' => by cases hs'
          ackDone := fun hb => by rcases hb with hb | hb | hb <;> cases hb
          rStarted := h.control.rStarted_append x
          rGranting := h.control.rGranting_append (by simp [hxG]) }
      perms :=
        { h.perms with
          capped := fun hb => by rcases hb with hb | hb | hb <;> cases hb }
      data :=
        { h.data with
          rData := forall_mem_append h.data.rData (by simp [hxG])
          rServed := forall_mem_append h.data.rServed (by rw [hx4]; exact fun _ => hxd)
          rx := h.data.rx_append h.control
          amoBuf := fun w hw => absurd hw (Nat.not_lt_zero w) } }

/-! #### `AcquirePerm` -/

/-- The grant `d` is in the mailbox of the host `i`. -/
def granted (e : BroadcastEnv p) (m : AReq) (rest : List AReq) (i : Fin p.numCachedHosts)
    (line : ℕ) (d : DMsg) (g : ℕ → ℕ) : BroadcastEnv p :=
  { e with
    aQ := rest, aIdx := 0, rx := Function.update e.rx m.source g, owed := e.owed + 1
    acq := setAt e.acq i line (some ⟨m.source, m.param, .started⟩)
    mail := Function.update e.mail m.source (some d) }

section Granted
variable {i : Fin p.numCachedHosts} {d : DMsg} {g : ℕ → ℕ}

theorem HeadAcquire.granted_ids (hp : p.Ok) (ha : HeadAcquire f e m rest i) (h : Ids e)
    (hop : m.opcode = .acquirePerm) (hd : d.opcode = .grant) (hdp : d.param = f.xactTypeQ) :
    Ids (granted e m rest i f.line d g) := by
  have hids := ha.ids_setAcq h .started (by simp)
  exact
    { hids with
      aSrc := by
        intro m' hm'
        refine ⟨(hids.aSrc m' hm').1, ?_⟩
        show Function.update e.mail m.source (some d) m'.source = none
        rw [Function.update_of_ne (h.source_popA ha.queue m' hm').symm]
        exact (hids.aSrc m' hm').2
      rMail := by
        intro r hr hA
        show Function.update e.mail m.source (some d) (r.source / 4) = none
        rw [Function.update_of_ne (h.aResp m ha.mem r hr hA)]
        exact h.rMail r hr hA
      mailSrc := by
        intro s d' hd'
        by_cases hsm : s = m.source
        · rw [hsm]
          show (e.srcLine m.source).isSome = true
          rw [ha.srcLine]
          rfl
        · have hd'' : Function.update e.mail m.source (some d) s = some d' := hd'
          rw [Function.update_of_ne hsm] at hd''
          exact h.mailSrc hd''
      mailAcq := by
        intro s d' hd' j hj
        have hd'' : Function.update e.mail m.source (some d) s = some d' := hd'
        by_cases hsm : s = m.source
        · rw [hsm, Function.update_self] at hd''
          have hdd : d = d' := Option.some.inj hd''
          rw [hsm] at hj
          have hji : j = i := hp.disjoint hj ha.sel
          subst hji
          refine ⟨f.line, ⟨m.source, m.param, .started⟩, setAt_self _ _, hsm.symm, rfl, ?_,
            Or.inr ⟨hdd ▸ hd, ?_⟩⟩
          · rw [← hdd, hdp, ha.xact]
            exact ofGrant_acquireXact ⟨m.source, m.param, .started⟩
          · simp [AcqTxn.wants, (h.aAcq m ha.mem ha.acquire).2.2.1 hop]
        · rw [Function.update_of_ne hsm] at hd''
          exact hids.mailAcq hd'' j hj }

theorem HeadAcquire.granted_control (ha : HeadAcquire f e m rest i) (h : Coherent f e)
    (hs : f.stateQ = .grant) :
    Control { f with stateQ := .wait } (granted e m rest i f.line d g) := by
  have hne : f.stateQ ≠ .wait := by simp [hs]
  have hzero := h.control.acks hne
  exact
    { h.control with
      count := fun hs' => by cases hs'
      quiet := fun _ => h.control.quiet ha.clear.ne_inv
      head := fun hb => by rcases hb with hb | hb | hb <;> cases hb
      grantOp := fun hs' => by cases hs'
      reqOp := fun hs' => by cases hs'
      aIdx := fun hpos => absurd hpos (Nat.lt_irrefl 0)
      granting := by
        intro i' l' t' ht' hg
        rcases setAt_eq_some ht' with ⟨-, -, rfl⟩ | ⟨-, ht''⟩
        · cases hg
        · exact absurd (h.control.granting ht'' hg).1 hne
      acks := fun hs' => absurd rfl hs'
      ackOne := by
        intro _
        show e.owed + 1 + e.eQ + f.ackDoneQ.toNat ≤ 1
        rw [ha.ackDoneQ h.control, hzero.1, hzero.2]
        decide
      ackDone := fun hb => by rcases hb with hb | hb | hb <;> cases hb
      rStarted := by
        intro hpos r rest' hq' hg i' l' t' ht' hs'
        have hr : r ∈ e.rQ := by
          have hq'' : e.rQ = r :: rest' := hq'
          rw [hq'']
          exact List.mem_cons_self
        exact h.control.rStarted hpos r rest' hq' hg i' l' t'
          (ha.acq_of_grant h.ids hr hg ht' hs') hs'
      rGranting := by
        intro r rest' hsuf hg hne' i' l' t' ht' hs'
        have hr : r ∈ e.rQ := hsuf.mem List.mem_cons_self
        exact h.control.rGranting r rest' hsuf hg hne' i' l' t'
          (ha.acq_of_grant h.ids hr hg ht' hs') hs' }

theorem HeadAcquire.granted_data (ha : HeadAcquire f e m rest i) (h : Coherent f e)
    (hd : d.opcode = .grant) :
    Data { f with stateQ := .wait } (granted e m rest i f.line d g) :=
  { h.data with
    rx := by
      intro r rest' hq' hA w hw
      have hq'' : e.rQ = r :: rest' := hq'
      have hr : r ∈ e.rQ := by rw [hq'']; exact List.mem_cons_self
      show Function.update e.rx m.source g (r.source / 4) w = r.data w
      rw [Function.update_of_ne (h.ids.aResp m ha.mem r hr hA)]
      exact h.data.rx r rest' hq' hA w hw
    mailData := by
      intro s d' j hd' hj hgd l hl w hw
      have hd'' : Function.update e.mail m.source (some d) s = some d' := hd'
      by_cases hsm : s = m.source
      · rw [hsm, Function.update_self] at hd''
        rw [← Option.some.inj hd'', hd] at hgd
        cases hgd
      · rw [Function.update_of_ne hsm] at hd''
        show p.word (Function.update e.rx m.source g s w) = e.cur l w
        rw [Function.update_of_ne hsm]
        exact h.data.mailData s d' j hd'' hj hgd l hl w hw
    mailServed := by
      intro s d' hd' hj hro w hw
      have hd'' : Function.update e.mail m.source (some d) s = some d' := hd'
      by_cases hsm : s = m.source
      · have hno := hj i
        rw [hsm, ha.sel] at hno
        cases hno
      · rw [Function.update_of_ne hsm] at hd''
        show p.word (Function.update e.rx m.source g s w) = e.served s w
        rw [Function.update_of_ne hsm]
        exact h.data.mailServed s d' hd'' hj hro w hw
    amoBuf := fun w hw => absurd hw (Nat.not_lt_zero w) }

end Granted

/-- `AcquirePerm` is granted at once. -/
theorem Coherent.acquirePerm (hp : p.Ok) (h : Coherent f e) (hs : f.stateQ = .grant)
    (hq : e.aQ = m :: rest) {d : DMsg} (hd : d.opcode = .grant) (hdp : d.param = f.xactTypeQ)
    (g : ℕ → ℕ) :
    Coherent { f with stateQ := .wait }
      { ({ e with
            aQ := rest, aIdx := 0, rx := Function.update e.rx m.source g,
            owed := e.owed + 1 }.setAcqPhase m.source .started) with
        mail := Function.update e.mail m.source (some d) } := by
  have hc : f.Clear := Or.inr hs
  have hop : m.opcode = .acquirePerm := (h.holds hc.busy hq).1 ▸ h.control.grantOp hs
  obtain ⟨i, ha⟩ := h.headAcquire hc hq (AReq.isAcquire_of_perm hop)
  have hset := setAcqPhase_eq
    (e := { e with aQ := rest, aIdx := 0, rx := Function.update e.rx m.source g,
                   owed := e.owed + 1 }) hp ha.sel ha.srcLine ha.acq .started
  have hsel : reqSelected p f.sourceQ i = true := by
    rw [ha.holds.2.2.1]
    exact ha.sel
  rw [hset]
  exact
    { ids := ha.granted_ids hp h.ids hop hd hdp
      control := ha.granted_control h hs
      perms := { h.perms_grant hp hc hq hsel ha.acq rfl ha.acquire .started (by simp) with }
      data := ha.granted_data h hd }

end ChannelA

/-! ### Responses of the device -/

section Responses
variable {r : DResp} {rest : List DResp}

theorem Ids.popR (h : Ids e) (hq : e.rQ = r :: rest) (n : ℕ) :
    Ids { e with rQ := rest, rIdx := n } := by
  have hsub : ∀ r' ∈ rest, r' ∈ e.rQ := fun r' hr => by rw [hq]; exact List.mem_cons_of_mem _ hr
  exact
    { h with
      aResp := fun m hm r' hr => h.aResp m hm r' (hsub r' hr)
      rAcq := fun r' hr => h.rAcq r' (hsub r' hr)
      rUnc := fun r' hr => h.rUnc r' (hsub r' hr)
      rUncOp := fun r' hr => h.rUncOp r' (hsub r' hr)
      rMail := fun r' hr => h.rMail r' (hsub r' hr)
      rRel := fun r' hr => h.rRel r' (hsub r' hr)
      rNodup := by
        have hn := h.rNodup
        rw [hq, List.filter_cons] at hn
        split at hn
        · exact (List.nodup_cons.mp hn).2
        · exact hn }

/-- No two responses that reach hosts have the same source and kind. -/
theorem Ids.source_popR (h : Ids e) (hq : e.rQ = r :: rest) (hd : r.isDrop = false) :
    ∀ r' ∈ rest, r'.isDrop = false → r'.source ≠ r.source := by
  intro r' hr' hd' hs
  have hn := h.rNodup
  rw [hq, List.filter_cons, if_pos (by simp [hd]), List.map_cons, List.nodup_cons] at hn
  apply hn.1
  rw [← hs]
  exact List.mem_map_of_mem (List.mem_filter.mpr ⟨hr', by simp [hd']⟩)

theorem Control.rIdx_eq_zero (h : Control f e) (hq : e.rQ = r :: rest)
    (ha : r.answersA = false) : e.rIdx = 0 := by
  by_contra hne
  obtain ⟨r', rest', hq', ha'⟩ := h.rIdx (Nat.pos_of_ne_zero hne)
  rw [hq, List.cons.injEq] at hq'
  rw [hq'.1, ha'] at ha
  cases ha

theorem DResp.answersA_of_isGrant (hg : r.isGrant = true) : r.answersA = true := by
  simp only [DResp.isGrant, Bool.and_eq_true, decide_eq_true_eq] at hg
  simp only [DResp.answersA, hg.1, Bool.true_and, decide_eq_true_eq]
  omega

/-- A response to a request is a grant or the response to an uncached request. -/
theorem DResp.answersA_cases (ha : r.answersA = true) : r.isGrant = true ∨ r.source % 4 = 3 := by
  simp only [DResp.answersA, Bool.and_eq_true, decide_eq_true_eq] at ha
  by_cases h3 : r.source % 4 = 3
  · exact Or.inr h3
  · refine Or.inl ?_
    simp only [DResp.isGrant, ha.1, Bool.true_and, decide_eq_true_eq]
    omega

theorem DResp.isDrop_of_answersA (ha : r.answersA = true) : r.isDrop = false := by
  simp only [DResp.answersA, Bool.and_eq_true, Bool.not_eq_true'] at ha
  exact ha.1

theorem xactPerm_inj {a b : ℕ} (ha : a < 2) (hb : b < 2) (h : xactPerm a = xactPerm b) : a = b := by
  unfold xactPerm xactAcquireToB at h
  split at h <;> split at h <;> first | omega | cases h

/-- No two responses to requests have the same host source. -/
theorem Ids.answersA_unique (hp : p.Ok) (h : Ids e) (hq : e.rQ = r :: rest)
    (ha : r.answersA = true) {r' : DResp} (hr' : r' ∈ rest) (ha' : r'.answersA = true) :
    r'.source / 4 ≠ r.source / 4 := by
  intro hs
  have hmem : r ∈ e.rQ := by rw [hq]; exact List.mem_cons_self
  have hmem' : r' ∈ e.rQ := by rw [hq]; exact List.mem_cons_of_mem _ hr'
  have hne := h.source_popR hq (DResp.isDrop_of_answersA ha) r' hr'
    (DResp.isDrop_of_answersA ha')
  rcases DResp.answersA_cases ha with hg | h3 <;> rcases DResp.answersA_cases ha' with hg' | h3'
  · obtain ⟨-, -, i, l, t, ht, hts, -, hw⟩ := h.rAcq r hmem hg
    obtain ⟨-, -, i', l', t', ht', hts', -, hw'⟩ := h.rAcq r' hmem' hg'
    obtain ⟨-, -, htt⟩ := h.acq_unique hp ht ht' (by rw [hts, hts', hs])
    simp only [DResp.isGrant, Bool.and_eq_true, decide_eq_true_eq] at hg hg'
    have hmod := xactPerm_inj hg.2 hg'.2 (by rw [← hw, ← hw', htt])
    omega
  · obtain ⟨-, -, i, l, t, ht, hts, -, -⟩ := h.rAcq r hmem hg
    have hi := (h.acqSrc ht).1
    rw [hts, ← hs, (h.rUnc r' hmem' h3').1 i] at hi
    cases hi
  · obtain ⟨-, -, i, l, t, ht, hts, -, -⟩ := h.rAcq r' hmem' hg'
    have hi := (h.acqSrc ht).1
    rw [hts, hs, (h.rUnc r hmem h3).1 i] at hi
    cases hi
  · omega

theorem Control.rGranting_pop (h : Control f e) (hq : e.rQ = r :: rest) (r' : DResp)
    (rest' : List DResp) (hs : r' :: rest' <:+ rest) (hg : r'.isGrant = true) :
    ∀ i l t, e.acq i l = some t → t.source = r'.source / 4 → t.phase = .granting := by
  refine h.rGranting r' rest' (by rw [hq]; exact hs.trans (List.suffix_cons _ _)) hg ?_
  intro _ heq
  have hlen := hs.length_le
  rw [heq, hq] at hlen
  simp at hlen

theorem Data.popR (h : Data f e) (hq : e.rQ = r :: rest) :
    Data f { e with rQ := rest, rIdx := 0 } :=
  { h with
    rData := fun r' hr => h.rData r' (by rw [hq]; exact List.mem_cons_of_mem _ hr)
    rServed := fun r' hr => h.rServed r' (by rw [hq]; exact List.mem_cons_of_mem _ hr)
    rx := fun _ _ _ _ w hw => absurd hw (Nat.not_lt_zero w) }

/-- The memory confirms the write of a `ProbeAckData`. -/
theorem Coherent.dropResponse (h : Coherent f e) (hq : e.rQ = r :: rest) (hd : r.isDrop = true) :
    Coherent { f with probeAckPendingQ := f.probeAckPendingQ - 1 }
      { e with rQ := rest, rIdx := 0 } := by
  have hout : f.outstanding e = f.outstanding { e with rQ := rest, rIdx := 0 } + 1 := by
    simp only [BroadcastFsm.outstanding, hq, List.countP_cons, hd, if_true]
    omega
  have hinv : f.stateQ = .inv := h.control.inv_of_pos (by omega)
  exact
    { ids := h.ids.popR hq 0
      control :=
        { h.control with
          count := by
            intro _
            have := h.control.count hinv
            show f.probeAckPendingQ - 1 = f.outstanding { e with rQ := rest, rIdx := 0 }
            omega
          countLe := (Nat.sub_le _ _).trans h.control.countLe
          quiet := fun hne => absurd hinv hne
          rIdx := fun hpos => absurd hpos (Nat.lt_irrefl 0)
          rStarted := fun hpos => absurd hpos (Nat.lt_irrefl 0)
          rGranting := fun r' rest' hs hg _ => h.control.rGranting_pop hq r' rest' hs hg }
      perms := { h.perms with }
      data := { h.data.popR hq with } }

/-- The memory confirms the write of a `ReleaseData`. -/
theorem Coherent.releaseResponse (hp : p.Ok) (h : Coherent f e) (hq : e.rQ = r :: rest)
    (h2 : r.source % 4 = 2) :
    Coherent f ({ e with rQ := rest, rIdx := 0 }.setRelPhase (r.source / 4) .acked) := by
  have hmem : r ∈ e.rQ := by rw [hq]; exact List.mem_cons_self
  obtain ⟨-, i, l, ht⟩ := h.ids.rRel r hmem h2
  obtain ⟨hi, hl⟩ := h.ids.relSrc ht
  have hset := setRelPhase_eq (e := { e with rQ := rest, rIdx := 0 }) hp hi hl ht .acked
  rw [hset]
  have hnd : ∀ {r : DResp}, r.source % 4 = 2 → r.isDrop = false := by
    intro r h2
    simp [DResp.isDrop, Broadcast.isProbeAckData, DResp.beat, h2, xactProbeAckData]
  have hout : f.outstanding { e with rQ := rest, rIdx := 0 } = f.outstanding e := by
    simp [BroadcastFsm.outstanding, hq, hnd h2]
  exact
    { ids := by
        refine (h.ids.popR hq 0).setRel ht .acked ?_ ?_
        · intro r' hr' h2' hs
          have := h.ids.source_popR hq (hnd h2) r' hr' (hnd h2')
          simp only at hs
          omega
        · intro m hm ha hs
          obtain ⟨j, hj⟩ := h.ids.cRel m hm ha
          exact absurd hs.symm (h.ids.release_rQ hp hj r hmem h2)
      control :=
        { h.control with
          count := fun hs => (h.control.count hs).trans hout.symm
          quiet := fun hs => hout.trans (h.control.quiet hs)
          rIdx := fun hpos => absurd hpos (Nat.lt_irrefl 0)
          rStarted := fun hpos => absurd hpos (Nat.lt_irrefl 0)
          rGranting := fun r' rest' hs hg _ => h.control.rGranting_pop hq r' rest' hs hg }
      perms := { h.perms.setRel ht with }
      data := { h.data.popR hq with } }

/-- What a beat of a response stores does not touch a response that is complete. -/
theorem Data.rxBeat (h : Data f e) (hids : Ids e) (hq : e.rQ = r :: rest)
    (ha : r.answersA = true) :
    Data f
      { e with
        rx := Function.update e.rx (r.source / 4)
          (Function.update (e.rx (r.source / 4)) e.rIdx (r.data e.rIdx))
        rIdx := e.rIdx + 1 } := by
  have hmail : ∀ {s d}, e.mail s = some d → s ≠ r.source / 4 := by
    rintro s d hd rfl
    have := hids.rMail r (by rw [hq]; exact List.mem_cons_self) ha
    rw [this] at hd
    cases hd
  exact
    { h with
      rx := by
        intro r' rest' hq' ha' w hw
        have hcons : r' :: rest' = r :: rest := Eq.trans (Eq.symm hq') hq
        obtain ⟨rfl, rfl⟩ := List.cons.inj hcons
        have hw' : w < e.rIdx + 1 := hw
        show Function.update e.rx _ _ _ w = _
        rw [Function.update_self]
        by_cases hwi : w = e.rIdx
        · rw [hwi, Function.update_self]
        · rw [Function.update_of_ne hwi]
          exact h.rx r' rest' hq ha' w (by omega)
      mailData := by
        intro s d i hd hi hgd l hl w hw
        show p.word (Function.update e.rx _ _ s w) = e.cur l w
        rw [Function.update_of_ne (hmail hd)]
        exact h.mailData s d i hd hi hgd l hl w hw
      mailServed := by
        intro s d hd hi hro w hw
        show p.word (Function.update e.rx _ _ s w) = e.served s w
        rw [Function.update_of_ne (hmail hd)]
        exact h.mailServed s d hd hi hro w hw }

/-- A beat of a response, other than the first of a grant, leaves for the host. -/
theorem Coherent.responseBeat (h : Coherent f e) (hq : e.rQ = r :: rest)
    (ha : r.answersA = true) (hg : r.isGrant = true → 0 < e.rIdx) :
    Coherent f
      { e with
        rx := Function.update e.rx (r.source / 4)
          (Function.update (e.rx (r.source / 4)) e.rIdx (r.data e.rIdx))
        rIdx := e.rIdx + 1 } where
  ids := { h.ids with }
  control :=
    { h.control with
      rIdx := fun _ => ⟨r, rest, hq, ha⟩
      rStarted := by
        intro _ r' rest' hq' hg' i l t ht hs
        have hcons : r' :: rest' = r :: rest := Eq.trans (Eq.symm hq') hq
        have hrr : r' = r := (List.cons.inj hcons).1
        exact h.control.rStarted (hg (hrr ▸ hg')) r' rest' hq' hg' i l t ht hs
      rGranting := by
        intro r' rest' hs hg' hne i l t ht hs'
        exact h.control.rGranting r' rest' hs hg' (fun _ => hne (Nat.succ_pos _)) i l t ht hs' }
  perms := { h.perms with }
  data := h.data.rxBeat h.ids hq ha

/-- The first beat of a grant leaves for the host. -/
theorem Coherent.grantBeat (hp : p.Ok) (h : Coherent f e) (hq : e.rQ = r :: rest)
    (hg : r.isGrant = true) (hz : e.rIdx = 0) :
    Coherent f
      ({ e with
          rx := Function.update e.rx (r.source / 4)
            (Function.update (e.rx (r.source / 4)) e.rIdx (r.data e.rIdx))
          rIdx := e.rIdx + 1
          owed := e.owed + 1 }.setAcqPhase (r.source / 4) .started) := by
  have hmem : r ∈ e.rQ := by rw [hq]; exact List.mem_cons_self
  have ha := DResp.answersA_of_isGrant hg
  obtain ⟨-, -, i, l, t, ht, hts, hph, -⟩ := h.ids.rAcq r hmem hg
  obtain ⟨hi, hl⟩ := h.ids.acqSrc ht
  have hphase : t.phase = .granting :=
    h.control.rGranting r rest (by rw [hq]) hg (by omega) i l t ht hts
  obtain ⟨hw, hsq, hack, howed, heq⟩ := h.control.granting ht hphase
  rw [← hts]
  have hset := setAcqPhase_eq
    (e := { e with
              rx := Function.update e.rx t.source
                (Function.update (e.rx t.source) e.rIdx (r.data e.rIdx))
              rIdx := e.rIdx + 1, owed := e.owed + 1 }) hp hi hl ht .started
  rw [hset]
  have hids := h.ids.setAcq ht .started (by simp)
    (fun m hm => by rw [hts]; exact h.ids.aResp m hm r hmem ha)
    (by rw [hts]; exact h.ids.rMail r hmem ha)
  have hdata := h.data.rxBeat h.ids hq ha
  rw [← hts] at hdata
  -- the permission that counts does not change
  have heff : ∀ j l',
      { e with acq := setAt e.acq i l (some { t with phase := .started }) }.eff j l' =
      e.eff j l' := by
    intro j l'
    rw [eff_setAcq (by simp)]
    split
    · next hc =>
      rw [hc.1, hc.2, eff_granted ht hph]
    · rfl
  exact
    { ids := { hids with }
      control :=
        { h.control with
          rIdx := fun _ => ⟨r, rest, hq, ha⟩
          granting := by
            intro i' l' t' ht' hg'
            rcases setAt_eq_some ht' with ⟨-, -, rfl⟩ | ⟨hc, ht''⟩
            · cases hg'
            · obtain ⟨-, hsq', -⟩ := h.control.granting ht'' hg'
              obtain ⟨hii, hll, -⟩ := h.ids.acq_unique hp ht'' ht (hsq'.trans hsq.symm)
              exact absurd ⟨hii, hll⟩ hc
          acks := fun hne => absurd hw hne
          ackOne := by
            intro _
            show e.owed + 1 + e.eQ + f.ackDoneQ.toNat ≤ 1
            rw [hack, howed, heq]
            decide
          rStarted := by
            intro _ r' rest' hq' hg' i' l' t' ht' hs'
            have hcons : r' :: rest' = r :: rest := Eq.trans (Eq.symm hq') hq
            have hrr : r' = r := (List.cons.inj hcons).1
            rcases setAt_eq_some ht' with ⟨-, -, rfl⟩ | ⟨hc, ht''⟩
            · rfl
            · obtain ⟨hii, hll, -⟩ := h.ids.acq_unique hp ht'' ht (by rw [hs', hts, hrr])
              exact absurd ⟨hii, hll⟩ hc
          rGranting := by
            intro r' rest' hs hg' hne i' l' t' ht' hs'
            have hr' : r' ∈ rest := by
              have hs2 : r' :: rest' <:+ r :: rest := hq ▸ hs
              rcases List.suffix_cons_iff.mp hs2 with heq' | hs3
              · exact absurd (heq'.trans hq.symm) (hne (Nat.succ_pos _))
              · exact hs3.mem List.mem_cons_self
            rcases setAt_eq_some ht' with ⟨-, -, rfl⟩ | ⟨-, ht''⟩
            · refine absurd ?_ (h.ids.answersA_unique hp hq ha hr'
                (DResp.answersA_of_isGrant hg'))
              exact hs'.symm.trans hts
            · exact h.control.rGranting r' rest' hs hg'
                (fun hpos => by omega) i' l' t' ht'' hs' }
      perms :=
        { h.perms with
          acqRel := by
            intro i' l' t' ht'
            rcases setAt_eq_some ht' with ⟨rfl, rfl, -⟩ | ⟨-, ht''⟩
            · exact h.perms.acqRel ht
            · exact h.perms.acqRel ht''
          acqLow := by
            intro i' l' t' ht'
            rcases setAt_eq_some ht' with ⟨rfl, rfl, rfl⟩ | ⟨-, ht''⟩
            · have := h.perms.acqLow ht
              exact this
            · exact h.perms.acqLow ht''
          single := by
            intro i' j' l' hij hT
            exact (heff j' l').trans (h.perms.single hij ((heff i' l').symm.trans hT))
          capped := by
            intro hb
            exact absurd hw (BroadcastFsm.Busy.ne_wait hb)
          dataLow := fun m hm hd j hT =>
            h.perms.dataLow m hm hd j ((heff j _).symm.trans hT) }
      data := { hdata with } }

/-- The last beat of a response has left: the host has it all. -/
theorem Coherent.responseEnd (hp : p.Ok) (h : Coherent f e) (hq : e.rQ = r :: rest)
    (ha : r.answersA = true) (hidx : e.rIdx = r.len p + 1) {d : DMsg}
    (hdg : r.isGrant = true →
      d.opcode = .grantData ∧ Perm.ofGrant d.param = xactPerm (r.source % 4))
    (hdu : r.source % 4 = 3 → d.opcode = r.opcode ∧ d.size = r.size) :
    Coherent f
      { e with rQ := rest, rIdx := 0, mail := Function.update e.mail (r.source / 4) (some d) } := by
  have hmem : r ∈ e.rQ := by rw [hq]; exact List.mem_cons_self
  have hids := h.ids.popR hq 0
  have hdrop := DResp.isDrop_of_answersA ha
  have hout : f.outstanding { e with rQ := rest, rIdx := 0 } = f.outstanding e := by
    simp [BroadcastFsm.outstanding, hq, hdrop]
  have hupd : ∀ {s d'}, Function.update e.mail (r.source / 4) (some d) s = some d' →
      (s = r.source / 4 ∧ d' = d) ∨ (s ≠ r.source / 4 ∧ e.mail s = some d') := by
    intro s d' hd'
    by_cases hs : s = r.source / 4
    · rw [hs, Function.update_self] at hd'
      exact Or.inl ⟨hs, (Option.some.inj hd').symm⟩
    · rw [Function.update_of_ne hs] at hd'
      exact Or.inr ⟨hs, hd'⟩
  have hgrant : ∀ {i}, reqSelected p (r.source / 4) i = true → r.isGrant = true := by
    intro i hi
    rcases DResp.answersA_cases ha with hg | h3
    · exact hg
    · rw [(h.ids.rUnc r hmem h3).1 i] at hi
      cases hi
  exact
    { ids :=
        { hids with
          aSrc := by
            intro m hm
            refine ⟨(h.ids.aSrc m hm).1, ?_⟩
            show Function.update e.mail (r.source / 4) (some d) m.source = none
            rw [Function.update_of_ne (h.ids.aResp m hm r hmem ha).symm]
            exact (h.ids.aSrc m hm).2
          rMail := by
            intro r' hr' ha'
            show Function.update e.mail (r.source / 4) (some d) (r'.source / 4) = none
            rw [Function.update_of_ne (h.ids.answersA_unique hp hq ha hr' ha')]
            exact hids.rMail r' hr' ha'
          mailSrc := by
            intro s d' hd'
            rcases hupd hd' with ⟨rfl, -⟩ | ⟨-, hd''⟩
            · rcases DResp.answersA_cases ha with hg | h3
              · obtain ⟨-, -, i, l, t, ht, hts, -, -⟩ := h.ids.rAcq r hmem hg
                have := (h.ids.acqSrc ht).2
                rw [hts] at this
                show (e.srcLine _).isSome = true
                rw [this]
                rfl
              · exact (h.ids.rUnc r hmem h3).2
            · exact h.ids.mailSrc hd''
          mailAcq := by
            intro s d' hd' j hj
            rcases hupd hd' with ⟨rfl, rfl⟩ | ⟨-, hd''⟩
            · have hg := hgrant hj
              obtain ⟨-, -, i, l, t, ht, hts, -, hw⟩ := h.ids.rAcq r hmem hg
              have hi := (h.ids.acqSrc ht).1
              rw [hts] at hi
              have hji : j = i := hp.disjoint hj hi
              subst hji
              refine ⟨l, t, ht, hts, h.control.rStarted (by omega) r rest hq hg _ l t ht hts, ?_,
                Or.inl (hdg hg).1⟩
              rw [hw, (hdg hg).2]
            · exact h.ids.mailAcq hd'' j hj }
      control :=
        { h.control with
          count := fun hs => (h.control.count hs).trans hout.symm
          quiet := fun hs => hout.trans (h.control.quiet hs)
          rIdx := fun hpos => absurd hpos (Nat.lt_irrefl 0)
          rStarted := fun hpos => absurd hpos (Nat.lt_irrefl 0)
          rGranting := fun r' rest' hs hg _ => h.control.rGranting_pop hq r' rest' hs hg }
      perms := { h.perms with }
      data :=
        { h.data.popR hq with
          mailData := by
            intro s d' j hd' hj hgd l hl w hw
            rcases hupd hd' with ⟨rfl, rfl⟩ | ⟨-, hd''⟩
            · have hg := hgrant hj
              obtain ⟨hop, hsize, -⟩ := h.ids.rAcq r hmem hg
              have hlen : e.rIdx = p.lineBeats := by
                rw [hidx, DResp.len, hop, hsize]
                exact burstLen_line p
              show p.word (e.rx (r.source / 4) w) = e.cur l w
              rw [h.data.rx r rest hq ha w (by omega)]
              exact h.data.rData r hmem hg l hl w hw
            · exact h.data.mailData s d' j hd'' hj hgd l hl w hw
          mailServed := by
            intro s d' hd' hj hro w hw
            rcases hupd hd' with ⟨rfl, rfl⟩ | ⟨-, hd''⟩
            · rcases DResp.answersA_cases ha with hg | h3
              · obtain ⟨-, -, i, l, t, ht, hts, -, -⟩ := h.ids.rAcq r hmem hg
                have hi := (h.ids.acqSrc ht).1
                rw [hts, hj i] at hi
                cases hi
              · obtain ⟨hop, hsize⟩ := hdu h3
                have hlen : Burst.len p.burst true d'.size = r.len p := by
                  rw [DResp.len, ← hop, hro, hsize]
                  rfl
                rw [hlen] at hw
                show p.word (e.rx (r.source / 4) w) = e.served (r.source / 4) w
                rw [h.data.rx r rest hq ha w (by omega)]
                exact h.data.rServed r hmem h3 (hop ▸ hro) w hw
            · exact h.data.mailServed s d' hd'' hj hro w hw } }

end Responses

/-! ### The request machine -/

section Machine

/-- The probe of host `k` is delivered. -/
theorem Coherent.sendProbe (h : Coherent f e) {k : Fin p.numCachedHosts}
    (hk : f.probePendingQ k = true) {b : BMsg} (hb : p.lineOf b.address = f.line)
    (hbb : p.beatOf b.address = 0) (hbp : b.param = f.probeParamQ) :
    Coherent { f with probePendingQ := Function.update f.probePendingQ k false }
      { e with bQ := Function.update e.bQ k (some b) } := by
  have hnone := h.control.probeOnce hk
  have hfilt : (Finset.univ.filter fun i => Function.update f.probePendingQ k false i = true) =
      (Finset.univ.filter fun i => f.probePendingQ i = true).erase k := by
    ext i
    by_cases hik : i = k <;> simp [hik, Function.update_of_ne]
  have hfilt' : (Finset.univ.filter fun i => (Function.update e.bQ k (some b) i).isSome = true) =
      insert k (Finset.univ.filter fun i => (e.bQ i).isSome = true) := by
    ext i
    by_cases hik : i = k <;> simp [hik, Function.update_of_ne]
  have hmem : k ∈ Finset.univ.filter fun i => f.probePendingQ i = true := by simp [hk]
  have hnmem : k ∉ Finset.univ.filter fun i => (e.bQ i).isSome = true := by simp [hnone]
  have hout : BroadcastFsm.outstanding
      { f with probePendingQ := Function.update f.probePendingQ k false }
      { e with bQ := Function.update e.bQ k (some b) } = f.outstanding e := by
    have hpos := Finset.card_pos.mpr ⟨k, hmem⟩
    simp only [BroadcastFsm.outstanding, hfilt, hfilt', Finset.card_erase_of_mem hmem,
      Finset.card_insert_of_notMem hnmem]
    omega
  exact
    { ids := { h.ids with }
      control :=
        { h.control with
          count := fun hs => (h.control.count hs).trans hout.symm
          quiet := fun hs => hout.trans (h.control.quiet hs)
          probe := by
            intro i b' hb'
            have hb'' : Function.update e.bQ k (some b) i = some b' := hb'
            by_cases hik : i = k
            · rw [hik, Function.update_self] at hb''
              rw [← Option.some.inj hb'', hik]
              exact ⟨hb, hbb, hbp, h.control.probePending hk⟩
            · rw [Function.update_of_ne hik] at hb''
              exact h.control.probe hb''
          probePending := by
            intro i hi
            have hi' : Function.update f.probePendingQ k false i = true := hi
            by_cases hik : i = k
            · rw [hik, Function.update_self] at hi'
              cases hi'
            · rw [Function.update_of_ne hik] at hi'
              exact h.control.probePending hi'
          probeOnce := by
            intro i hi
            have hi' : Function.update f.probePendingQ k false i = true := hi
            by_cases hik : i = k
            · rw [hik, Function.update_self] at hi'
              cases hi'
            · rw [Function.update_of_ne hik] at hi'
              show Function.update e.bQ k (some b) i = none
              rw [Function.update_of_ne hik]
              exact h.control.probeOnce hi' }
      perms :=
        { h.perms with
          capped := by
            intro hbusy i hi
            by_cases hik : i = k
            · refine Or.inr (Or.inl ?_)
              simp [hik]
            · rcases h.perms.capped hbusy i hi with hx | hx | hx
              · refine Or.inl ?_
                show Function.update f.probePendingQ k false i = true
                rwa [Function.update_of_ne hik]
              · refine Or.inr (Or.inl ?_)
                show (Function.update e.bQ k (some b) i).isSome = true
                rwa [Function.update_of_ne hik]
              · exact Or.inr (Or.inr hx) }
      data := { h.data with } }

/-- The number of probes is the number of hosts that are probed. -/
theorem probeCount_eq_card (hp : p.Ok) (source : ℕ) :
    probeCount p source =
      (Finset.univ.filter fun i => (!reqSelected p source i) = true).card := by
  unfold probeCount
  split
  · next h => simp [h]
  · next h =>
    simp only [not_forall, Bool.not_eq_false] at h
    obtain ⟨k, hk⟩ := h
    have hfilt : (Finset.univ.filter fun i => (!reqSelected p source i) = true) =
        Finset.univ.erase k := by
      ext i
      simp only [Finset.mem_filter, Finset.mem_univ, true_and, Finset.mem_erase, and_true,
        Bool.not_eq_true']
      constructor
      · rintro hi rfl
        rw [hk] at hi
        cases hi
      · intro hne
        cases hi : reqSelected p source i with
        | false => rfl
        | true => exact absurd (hp.disjoint hi hk) hne
    rw [hfilt, Finset.card_erase_of_mem (Finset.mem_univ _), Finset.card_univ, Fintype.card_fin]

theorem probeCount_le (p : BroadcastParams) (source : ℕ) :
    probeCount p source ≤ p.numCachedHosts := by
  unfold probeCount
  split <;> omega

/-- The counter is wide enough. -/
theorem probeCount_mod (p : BroadcastParams) (source : ℕ) :
    probeCount p source % 2 ^ p.numCachedHosts = probeCount p source :=
  Nat.mod_eq_of_lt ((probeCount_le p source).trans_lt Nat.lt_two_pow_self)

/-- A request is taken up: its header is stored and the probes are set. -/
theorem Coherent.start (hp : p.Ok) (h : Coherent f e) (hs : f.stateQ = .idle) {m : AReq}
    {rest : List AReq} (hq : e.aQ = m :: rest) {f' : BroadcastFsm p} (hs' : f'.stateQ = .inv)
    (hm : f'.Holds m) (hpend : f'.probePendingQ = fun k => !reqSelected p m.source k)
    (hcount : f'.probeAckPendingQ = probeCount p m.source)
    (hack : f'.xactTypeQ ≠ xactUncached → f'.ackDoneQ = false) : Coherent f' e := by
  obtain ⟨-, hbq, hcq, hrq⟩ := h.control.no_probe (by simp [hs])
  have hwait : f.stateQ ≠ .wait := by simp [hs]
  have haidx : e.aIdx = 0 := by
    by_contra hne
    have := (h.control.aIdx (Nat.pos_of_ne_zero hne)).1
    rw [hs] at this
    cases this
  have hno : ∀ {i b}, e.bQ i ≠ some b := by
    intro i b hb
    have := hbq i
    rw [hb] at this
    cases this
  exact
    { ids := h.ids
      control :=
        { h.control with
          count := by
            intro _
            have hb0 : (Finset.univ.filter fun i => (e.bQ i).isSome = true).card = 0 := by
              simp [hbq]
            have hc0 : e.cQ.countP (·.isProbeAck) = 0 := by
              rw [List.countP_eq_zero]
              intro m hm
              simp [hcq m hm]
            have hr0 : e.rQ.countP (·.isDrop) = 0 := by
              rw [List.countP_eq_zero]
              intro r hr
              simp [hrq r hr]
            rw [hcount, probeCount_eq_card hp, BroadcastFsm.outstanding, hpend, hb0, hc0, hr0]
            simp
          countLe := hcount ▸ probeCount_le p m.source
          quiet := fun hne => absurd hs' hne
          head := fun _ => ⟨m, rest, hq, hm⟩
          grantOp := fun hg => by rw [hs'] at hg; cases hg
          reqOp := fun hg => by rw [hs'] at hg; cases hg
          aIdx := fun hpos => by omega
          probe := fun hb => absurd hb hno
          probePending := by
            intro i hi
            rw [hpend] at hi
            rw [hm.2.2.1]
            simpa using hi
          probeOnce := by
            intro i _
            rcases hb : e.bQ i with _ | b
            · rfl
            · exact absurd hb hno
          probeAck := by
            intro m' hm' ha
            rw [hcq m' hm'] at ha
            cases ha
          granting := fun ht hg => absurd (h.control.granting ht hg).1 hwait
          acks := fun _ => h.control.acks hwait
          ackOne := fun hw => by rw [hs'] at hw; cases hw
          ackDone := fun _ => hack }
      perms :=
        { h.perms with
          capped := by
            intro _ i hi
            refine Or.inl ?_
            rw [hpend]
            rw [hm.2.2.1] at hi
            simp [hi] }
      data := { h.data with amoBuf := fun w hw => by omega } }

/-- All answers have been counted. -/
theorem Coherent.invDone (h : Coherent f e) (hs : f.stateQ = .inv)
    (hz : f.probeAckPendingQ = 0) :
    Coherent { f with stateQ := if f.opcodeQ = .acquirePerm then .grant else .req } e := by
  have hout : f.outstanding e = 0 := (h.control.count hs).symm.trans hz
  have hwait : f.stateQ ≠ .wait := by simp [hs]
  have hbusy : f.Busy := Or.inl hs
  have hnext : ∀ {x : BroadcastState}, (if f.opcodeQ = .acquirePerm then .grant else .req) = x →
      x = .grant ∧ f.opcodeQ = .acquirePerm ∨ x = .req ∧ f.opcodeQ ≠ .acquirePerm := by
    intro x hx
    split at hx
    · next hop => exact Or.inl ⟨hx.symm, hop⟩
    · next hop => exact Or.inr ⟨hx.symm, hop⟩
  exact
    { ids := h.ids
      control :=
        { h.control with
          count := fun hs' => by rcases hnext hs' with ⟨hx, -⟩ | ⟨hx, -⟩ <;> cases hx
          quiet := fun _ => hout
          head := fun _ => h.control.head hbusy
          grantOp := by
            intro hs'
            rcases hnext hs' with ⟨-, hop⟩ | ⟨hx, -⟩
            · exact hop
            · cases hx
          reqOp := by
            intro hs'
            rcases hnext hs' with ⟨hx, -⟩ | ⟨-, hop⟩
            · cases hx
            · exact hop
          aIdx := by
            intro hpos
            have := (h.control.aIdx hpos).1
            rw [hs] at this
            cases this
          granting := fun ht hg => absurd (h.control.granting ht hg).1 hwait
          acks := fun _ => h.control.acks hwait
          ackOne := fun hs' => by rcases hnext hs' with ⟨hx, -⟩ | ⟨hx, -⟩ <;> cases hx
          ackDone := fun _ => h.control.ackDone hbusy }
      perms := { h.perms with capped := fun _ => h.perms.capped hbusy }
      data := { h.data with } }

/-- The grant has been acknowledged. -/
theorem Coherent.waitDone (h : Coherent f e) (hs : f.stateQ = .wait) (hack : f.ackDoneQ = true) :
    Coherent { f with stateQ := .idle } e where
  ids := h.ids
  control :=
    { h.control with
      count := fun hs' => by cases hs'
      quiet := fun _ => h.control.quiet (by simp [hs])
      head := fun hb => by rcases hb with hb | hb | hb <;> cases hb
      grantOp := fun hs' => by cases hs'
      reqOp := fun hs' => by cases hs'
      aIdx := by
        intro hpos
        have := (h.control.aIdx hpos).1
        rw [hs] at this
        cases this
      granting := by
        intro i l t ht hg
        have := (h.control.granting ht hg).2.2.1
        rw [hack] at this
        cases this
      acks := by
        intro _
        have := h.control.ackOne hs
        rw [hack, Bool.toNat_true] at this
        omega
      ackOne := fun hs' => by cases hs'
      ackDone := fun hb => by rcases hb with hb | hb | hb <;> cases hb }
  perms := { h.perms with capped := fun hb => by rcases hb with hb | hb | hb <;> cases hb }
  data := { h.data with }

end Machine

end Transfers

end Muntjac.Tl

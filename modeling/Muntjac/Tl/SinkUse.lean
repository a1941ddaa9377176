import Mathlib.Tactic.IntervalCases
import Muntjac.Tl.SinkUpsizer
import Muntjac.Tl.Terminators

/-!
# The sinks of the terminators

Every terminator hands over whole responses, so that the sink management gives every grant a
sink that is acknowledged, and all of its beats the same one.

## Main results

* `RamTerminator.uses_run`, `IoTerminator.uses_run`, `RomTerminator.uses_run`,
  `ErrorSink.uses_run` — the use of the sinks in every run.
* `sinks_used` — the terminators and the sink upsizer.
-/

namespace Muntjac.Tl

open Sync

theorem DMsg.len_of_noData {p : BurstParams} {x : DMsg} (h : x.opcode.hasData = false) :
    chanD.len p x = 0 := by
  change Burst.len p x.opcode.hasData x.size = 0
  rw [h]
  rfl

/-- The response keeps the length. -/
theorem DMsg.len_congr {p : BurstParams} {x y : DMsg} (h : x.opcode.hasData = y.opcode.hasData)
    (hs : x.size = y.size) : chanD.len p x = chanD.len p y := by
  change Burst.len p x.opcode.hasData x.size = Burst.len p y.opcode.hasData y.size
  rw [h, hs]

/-- Responses without data are whole, however they are handed over. -/
theorem legal_of_noData {p : BurstParams} {f : ℕ → Option DMsg}
    (h : ∀ k x, f k = some x → x.opcode.hasData = false) (n : ℕ) :
    Legal chanD p (fun _ => True) (stream f n) := by
  refine legal_of_single fun x hx => ?_
  obtain ⟨k, -, hk⟩ := exists_of_mem_stream hx
  exact DMsg.len_of_noData (h k x hk)

/-! ## `tl_ram_terminator` -/

namespace RamTerminator

section Run
variable (p : TerminatorParams) (inp : ℕ → TerminatorIn)

def state (n : ℕ) : RamTerminator p := run step (reset p) inp n

def fired {α : Type} (f : RamTerminator p → TerminatorIn → Option α) (k : ℕ) : Option α :=
  f (state p inp k) (inp k)

/-- The host acknowledges what it was granted.  The device sends whole responses, each of them
to a request that it has begun to receive, and sources fit their wires. -/
structure Conforming : Prop where
  acks : SinkPort.Acknowledges p.burst (fired p inp hostDFires) fun k => (inp k).hostE
  sourceA : ∀ k x, (inp k).hostA = some x → x.source < 2 ^ p.hostWidth
  sourceC : ∀ k x, (inp k).hostC = some x → x.source < 2 ^ p.hostWidth
  d : ∀ n, Legal chanD p.burst (fun _ => True) (stream (fired p inp deviceDFires) n)
  answers : ∀ k x, fired p inp deviceDFires k = some x →
    ∃ r ∈ stream (fired p inp deviceAFires) (k + 1), r.source = x.source ∧
      x.opcode = r.opcode.answer

variable {p inp}

/-- What the device receives. -/
theorem of_mem_deviceAs {r : AMsg} {n : ℕ} (h : r ∈ stream (fired p inp deviceAFires) n) :
    ∃ k < n, (∃ x, (inp k).hostA = some x ∧ r = forwardA p x) ∨
      ∃ x, (inp k).hostC = some x ∧ r = forwardC p x := by
  obtain ⟨k, hk, hr⟩ := exists_of_mem_stream h
  refine ⟨k, hk, ?_⟩
  rw [fired, deviceAFires, Shared.out_eq] at hr
  split_ifs at hr
  obtain ⟨j, -, hj⟩ := Option.bind_eq_some_iff.mp hr
  match j with
  | 0 =>
      obtain ⟨x, hx, rfl⟩ := Option.map_eq_some_iff.mp hj
      exact Or.inl ⟨x, (Option.filter_eq_some_iff.mp hx).1, rfl⟩
  | 1 =>
      obtain ⟨x, hx, rfl⟩ := Option.map_eq_some_iff.mp hj
      exact Or.inr ⟨x, (Option.filter_eq_some_iff.mp hx).1, rfl⟩

/-- The bits above the source tell which opcode a response has. -/
theorem Conforming.opcode_eq (hc : Conforming p inp) {k : ℕ} {x : DMsg}
    (hx : fired p inp deviceDFires k = some x) :
    (highBits p.hostWidth x.source % 4 = 1 → x.opcode = .accessAckData) ∧
      (highBits p.hostWidth x.source % 4 = 3 → x.opcode = .accessAck) := by
  obtain ⟨r, hr, hsource, hop⟩ := hc.answers k x hx
  obtain ⟨j, -, ⟨y, hy, rfl⟩ | ⟨y, hy, rfl⟩⟩ := of_mem_deviceAs hr
  · have hlt := hc.sourceA j y hy
    have hhigh : highBits p.hostWidth x.source = if y.opcode = .acquireBlock then 1 else 0 := by
      rw [← hsource]
      exact highBits_cat hlt
    rw [hhigh, hop]
    change (_ → (if y.opcode = .acquireBlock then AOp.get else y.opcode).answer = _) ∧ _
    split_ifs <;> simp [AOp.answer]
  · have hlt := hc.sourceC j y hy
    have hhigh : highBits p.hostWidth x.source = 3 := by
      rw [← hsource]
      exact highBits_cat hlt
    rw [hhigh, hop]
    simp [forwardC, AOp.answer]

/-- The responses of the device stay whole. -/
theorem Conforming.legal_response (hc : Conforming p inp) (n : ℕ) :
    Legal chanD p.burst (fun _ => True)
      ((stream (fired p inp deviceDFires) n).map (response p)) := by
  refine (hc.d n).map ?_ ?_ fun _ _ => trivial
  · intro x hx
    obtain ⟨k, -, hk⟩ := exists_of_mem_stream hx
    obtain ⟨h1, h3⟩ := hc.opcode_eq hk
    refine DMsg.len_congr ?_ rfl
    change (if _ then DOp.grantData else if _ then DOp.releaseAck else x.opcode).hasData = _
    split_ifs with hkind hkind'
    · rw [h1 hkind]
      rfl
    · rw [h3 hkind']
      rfl
    · rfl
  · intro x _ y _ hxy
    have hhead := congrArg (fun z : DMsg => (response p z).header) hxy
    exact hhead

theorem sent_device (s : RamTerminator p) (i : TerminatorIn) :
    s.hostD.sent p.burst (hostDMult p i) i.hostDReady 0 =
      (s.deviceDFires i).map (response p) := by
  rw [HostD.sent, deviceDFires, deviceDReady, hostDReadyMult, hostDMult]
  cases i.deviceD with
  | none => simp
  | some x => split_ifs <;> simp_all

theorem sink_hostDMult {i : TerminatorIn} {j : Fin 3} {x : DMsg} (h : hostDMult p i j = some x) :
    x.sink = 0 := by
  match j with
  | 0 | 1 | 2 =>
      obtain ⟨y, -, rfl⟩ := Option.map_eq_some_iff.mp h
      rfl

theorem uses_run (hq : p.sink.Decodes) (hc : Conforming p inp) (n : ℕ) :
    SinkPort.Uses p.burst (fun k => (state p inp k).hostD.port) (fired p inp hostDFires)
      (fun k => (inp k).hostE) n := by
  refine HostD.uses_run (fun k => (state p inp k).hostD) (fun k => hostDMult p (inp k))
    (fun k => (inp k).hostDReady)
    hq rfl (fun k => rfl) (fun k j x => sink_hostDMult) ?_ hc.acks n
  intro j m
  match j with
  | 0 =>
      rw [stream_congr (fun k => sent_device (state p inp k) (inp k)) m, stream_map]
      exact hc.legal_response m
  | 1 =>
      refine legal_of_noData (fun k x hx => ?_) m
      rw [HostD.sent] at hx
      split_ifs at hx
      obtain ⟨y, -, rfl⟩ := Option.map_eq_some_iff.mp hx
      rfl
  | 2 =>
      refine legal_of_noData (fun k x hx => ?_) m
      rw [HostD.sent] at hx
      split_ifs at hx
      obtain ⟨y, -, rfl⟩ := Option.map_eq_some_iff.mp hx
      rfl

end Run

end RamTerminator

/-! ## `tl_io_terminator` -/

namespace IoTerminator

section Run
variable (p : TerminatorParams) (inp : ℕ → TerminatorIn)

def state (n : ℕ) : IoTerminator p := run step (reset p) inp n

def fired {α : Type} (f : IoTerminator p → TerminatorIn → Option α) (k : ℕ) : Option α :=
  f (state p inp k) (inp k)

/-- The host acknowledges what it was granted, and the device sends whole responses. -/
structure Conforming : Prop where
  acks : SinkPort.Acknowledges p.burst (fired p inp hostDFires) fun k => (inp k).hostE
  d : ∀ n, Legal chanD p.burst (fun _ => True) (stream (fired p inp deviceDFires) n)

variable {p inp}

theorem sent_device (s : IoTerminator p) (i : TerminatorIn) :
    s.hostD.sent p.burst (hostDMult i) i.hostDReady 0 = (s.deviceDFires i).map response := by
  rw [HostD.sent, deviceDFires, deviceDReady, hostDReadyMult, hostDMult]
  cases i.deviceD with
  | none => simp
  | some x => split_ifs <;> simp_all

theorem sink_hostDMult {i : TerminatorIn} {j : Fin 2} {x : DMsg} (h : hostDMult i j = some x) :
    x.sink = 0 := by
  match j with
  | 0 | 1 =>
      obtain ⟨y, -, rfl⟩ := Option.map_eq_some_iff.mp h
      rfl

theorem uses_run (hq : p.sink.Decodes) (hc : Conforming p inp) (n : ℕ) :
    SinkPort.Uses p.burst (fun k => (state p inp k).hostD.port) (fired p inp hostDFires)
      (fun k => (inp k).hostE) n := by
  refine HostD.uses_run (fun k => (state p inp k).hostD) (fun k => hostDMult (inp k))
    (fun k => (inp k).hostDReady)
    hq rfl (fun k => rfl) (fun k j x => sink_hostDMult) ?_ hc.acks n
  intro j m
  match j with
  | 0 =>
      rw [stream_congr (fun k => sent_device (state p inp k) (inp k)) m, stream_map]
      refine (hc.d m).map (fun _ _ => rfl) (fun x _ y _ hxy => ?_) fun _ _ => trivial
      have hhead := congrArg (fun z : DMsg => (response z).header) hxy
      exact hhead
  | 1 =>
      refine legal_of_noData (fun k x hx => ?_) m
      rw [HostD.sent] at hx
      split_ifs at hx
      obtain ⟨y, -, rfl⟩ := Option.map_eq_some_iff.mp hx
      rfl

end Run

end IoTerminator

/-! ## `tl_rom_terminator` -/

namespace RomTerminator

section Run
variable (p : TerminatorParams) (inp : ℕ → TerminatorIn)

def state (n : ℕ) : RomTerminator p := run step (reset p) inp n

def fired {α : Type} (f : RomTerminator p → TerminatorIn → Option α) (k : ℕ) : Option α :=
  f (state p inp k) (inp k)

/-- As for `RamTerminator`, and the host sends whole requests. -/
structure Conforming : Prop where
  acks : SinkPort.Acknowledges p.burst (fired p inp hostDFires) fun k => (inp k).hostE
  source : ∀ k x, (inp k).hostA = some x → x.source < 2 ^ p.hostWidth
  a : ∀ n, Legal chanA p.burst (fun _ => True)
    (stream (fired p inp hostAFires) n ++ (inp n).hostA.toList)
  d : ∀ n, Legal chanD p.burst (fun _ => True) (stream (fired p inp deviceDFires) n)
  answers : ∀ k x, fired p inp deviceDFires k = some x →
    ∃ r ∈ stream (fired p inp deviceAFires) (k + 1), r.source = x.source ∧
      x.opcode = r.opcode.answer

variable {p inp}

theorem opcode_of_forwards {x : AMsg} (h : forwards x = true) :
    x.opcode = .get ∨ x.opcode = .acquireBlock := by
  unfold forwards at h
  cases hop : x.opcode <;> simp_all

/-- Whatever the bit above the source, a response to a read has data. -/
theorem Conforming.opcode_eq (hc : Conforming p inp) {k : ℕ} {x : DMsg}
    (hx : fired p inp deviceDFires k = some x) : x.opcode = .accessAckData := by
  obtain ⟨r, hr, -, hop⟩ := hc.answers k x hx
  obtain ⟨j, -, hj⟩ := exists_of_mem_stream hr
  rw [fired, deviceAFires] at hj
  split_ifs at hj
  obtain ⟨y, hy, rfl⟩ := Option.map_eq_some_iff.mp hj
  have hget : (forwardA p y).opcode = .get := by
    change (if y.opcode = .acquireBlock ∨ y.opcode = .acquirePerm then AOp.get else y.opcode) = _
    rcases opcode_of_forwards (Option.filter_eq_some_iff.mp hy).2 with h | h <;> simp [h]
  rw [hop, hget]
  rfl

theorem Conforming.legal_response (hc : Conforming p inp) (n : ℕ) :
    Legal chanD p.burst (fun _ => True)
      ((stream (fired p inp deviceDFires) n).map (response p)) := by
  refine (hc.d n).map ?_ ?_ fun _ _ => trivial
  · intro x hx
    obtain ⟨k, -, hk⟩ := exists_of_mem_stream hx
    have hop := hc.opcode_eq hk
    refine DMsg.len_congr ?_ rfl
    change (if _ then DOp.grantData else x.opcode).hasData = _
    rw [hop]
    split_ifs <;> rfl
  · intro x _ y _ hxy
    have hhead := congrArg (fun z : DMsg => (response p z).header) hxy
    exact hhead

theorem sent_device (s : RomTerminator p) (i : TerminatorIn) :
    s.hostD.sent p.burst (s.hostDMult i) i.hostDReady 0 =
      (s.deviceDFires i).map (response p) := by
  rw [HostD.sent, deviceDFires, deviceDReady, hostDReadyMult, hostDMult]
  cases i.deviceD with
  | none => simp
  | some x => split_ifs <;> simp_all

/-- A request is answered in cycles in which a beat of it is taken. -/
theorem sent_answer (s : RomTerminator p) (i : TerminatorIn) :
    s.hostD.sent p.burst (s.hostDMult i) i.hostDReady 1 =
      ((s.hostAFires i).filter fun x =>
        !forwards x && (!isPut x || s.hostALast x)).map denial := by
  rw [HostD.sent, hostAFires, hostAReady, hostDReadyMult]
  change (if s.hostD.readyMult p.burst (s.hostDMult i) i.hostDReady 1 then
    (i.hostA.filter _).map denial else none) = _
  cases i.hostA with
  | none => simp
  | some x =>
      cases hf : forwards x with
      | true => split_ifs <;> simp [hf]
      | false =>
          cases hr : s.hostD.readyMult p.burst (s.hostDMult i) i.hostDReady 1 <;> simp [hf]

theorem sink_denial (x : AMsg) : (denial x).sink = 0 := by
  unfold denial
  split <;> rfl

theorem sink_hostDMult {s : RomTerminator p} {i : TerminatorIn} {j : Fin 3} {x : DMsg}
    (h : s.hostDMult i j = some x) : x.sink = 0 := by
  match j with
  | 0 | 2 =>
      obtain ⟨y, -, rfl⟩ := Option.map_eq_some_iff.mp h
      rfl
  | 1 =>
      obtain ⟨y, -, rfl⟩ := Option.map_eq_some_iff.mp h
      exact sink_denial y

/-- Requests that are answered beat by beat. -/
def isAtomic (x : AMsg) : Bool := x.opcode == .arithmeticData || x.opcode == .logicalData

/-- The position of the answers where the requests are at the given one. -/
def answerPos : Pos AMsg → Pos DMsg
  | .idle => .idle
  | .busy f n => if isAtomic f then .busy (denial f) n else .idle

/-- Only the answer to an atomic operation has data. -/
theorem len_denial (x : AMsg) :
    chanD.len p.burst (denial x) = if isAtomic x then chanA.len p.burst x else 0 := by
  change Burst.len _ (denial x).opcode.hasData (denial x).size =
    if isAtomic x then Burst.len _ x.opcode.hasData x.size else 0
  unfold denial isAtomic
  cases hop : x.opcode <;> rfl

theorem isAtomic_of_header {x y : AMsg} (h : chanA.header x = chanA.header y) :
    isAtomic x = isAtomic y := by
  have hx := congrArg isAtomic h
  exact hx

theorem header_denial {x y : AMsg} (h : chanA.header x = chanA.header y) :
    chanD.header (denial x) = chanD.header (denial y) := by
  have hx := congrArg denial h
  exact congrArg DMsg.header hx

theorem answerPos_of_atomic {q : Pos AMsg} {x : AMsg} (ha : isAtomic x = true)
    (hq : q.Accepts chanA x) :
    (answerPos q).Accepts chanD (denial x) ∧
      answerPos (q.next chanA p.burst x) = (answerPos q).next chanD p.burst (denial x) := by
  have hlen : chanD.len p.burst (denial x) = chanA.len p.burst x := by rw [len_denial, if_pos ha]
  cases q with
  | idle =>
      refine ⟨trivial, ?_⟩
      unfold Pos.next
      change answerPos (if 0 = chanA.len p.burst x then _ else _) =
        if 0 = chanD.len p.burst (denial x) then _ else _
      rw [hlen]
      split_ifs
      · rfl
      · exact if_pos ha
  | busy f n =>
      have hf : isAtomic f = true := (isAtomic_of_header hq).symm.trans ha
      have hpos : answerPos (.busy f n) = .busy (denial f) n := if_pos hf
      rw [hpos]
      refine ⟨header_denial hq, ?_⟩
      unfold Pos.next
      change answerPos (if n = chanA.len p.burst x then _ else _) =
        if n = chanD.len p.burst (denial x) then _ else _
      rw [hlen]
      split_ifs
      · rfl
      · exact if_pos hf

theorem answerPos_of_not_atomic {q : Pos AMsg} {x : AMsg} (ha : isAtomic x = false)
    (hq : q.Accepts chanA x) :
    answerPos q = .idle ∧ answerPos (q.next chanA p.burst x) = .idle := by
  have hidle : ∀ f n, isAtomic f = false → answerPos (.busy f n) = .idle := by
    intro f n hf
    rw [answerPos, hf]
    rfl
  unfold Pos.next
  cases q with
  | idle =>
      refine ⟨rfl, ?_⟩
      split_ifs
      · rfl
      · exact hidle x 1 ha
  | busy f n =>
      have hf : isAtomic f = false := (isAtomic_of_header hq).symm.trans ha
      refine ⟨hidle f n hf, ?_⟩
      split_ifs
      · rfl
      · exact hidle f (n + 1) hf

/-- The beats of the answers that are handed over. -/
def denials (p : TerminatorParams) (inp : ℕ → TerminatorIn) (n : ℕ) : List DMsg :=
  stream (fun k => (state p inp k).hostD.sent p.burst ((state p inp k).hostDMult (inp k))
    (inp k).hostDReady 1) n

/-- They belong to the beats of the requests. -/
theorem Conforming.legal_denials (hc : Conforming p inp) (n : ℕ) :
    posOf chanD p.burst (denials p inp n) =
        answerPos (posOf chanA p.burst (stream (fired p inp hostAFires) n)) ∧
      Legal chanD p.burst (fun _ => True) (denials p inp n) := by
  induction n with
  | zero => exact ⟨rfl, .nil⟩
  | succ n ih =>
      obtain ⟨hpos, hl⟩ := ih
      have hsucc : denials p inp (n + 1) = denials p inp n ++
          (((fired p inp hostAFires n).filter fun x =>
            !forwards x && (!isPut x || (state p inp n).hostALast x)).map denial).toList := by
        rw [denials, stream_succ, sent_answer]
        rfl
      rw [hsucc, stream_succ]
      cases hx : fired p inp hostAFires n with
      | none => simpa using ⟨hpos, hl⟩
      | some x =>
          have hacc :
              (posOf chanA p.burst (stream (fired p inp hostAFires) n)).Accepts chanA x := by
            have ha := hc.a n
            have hoffer : (inp n).hostA = some x := by
              rw [fired, hostAFires] at hx
              split_ifs at hx
              exact hx
            rw [hoffer] at ha
            exact ha.of_concat.2.1
          rw [Option.toList_some, posOf_concat]
          cases ha : isAtomic x with
          | true =>
              obtain ⟨hd, hnext⟩ := answerPos_of_atomic (p := p) ha hacc
              have hpass : (!forwards x && (!isPut x || (state p inp n).hostALast x)) = true := by
                unfold isAtomic at ha
                unfold forwards isPut
                cases hop : x.opcode <;> simp_all
              rw [Option.filter_some, if_pos hpass, Option.map_some, Option.toList_some,
                posOf_concat, hpos]
              exact ⟨hnext.symm, hl.concat (hpos ▸ hd) trivial⟩
          | false =>
              obtain ⟨hidle, hnext⟩ := answerPos_of_not_atomic (p := p) ha hacc
              rw [hidle] at hpos
              rw [hnext, Option.filter_some]
              split_ifs
              · have hlen : chanD.len p.burst (denial x) = 0 := by rw [len_denial, ha]; rfl
                rw [Option.map_some, Option.toList_some, posOf_concat, hpos]
                refine ⟨Pos.next_of_last hlen.symm, hl.concat ?_ trivial⟩
                rw [hpos]
                trivial
              · simpa using ⟨hpos, hl⟩

theorem uses_run (hq : p.sink.Decodes) (hc : Conforming p inp) (n : ℕ) :
    SinkPort.Uses p.burst (fun k => (state p inp k).hostD.port) (fired p inp hostDFires)
      (fun k => (inp k).hostE) n := by
  refine HostD.uses_run (fun k => (state p inp k).hostD)
    (fun k => (state p inp k).hostDMult (inp k)) (fun k => (inp k).hostDReady)
    hq rfl (fun k => rfl) (fun k j x => sink_hostDMult) ?_ hc.acks n
  intro j m
  match j with
  | 0 =>
      rw [stream_congr (fun k => sent_device (state p inp k) (inp k)) m, stream_map]
      exact hc.legal_response m
  | 1 => exact (hc.legal_denials m).2
  | 2 =>
      refine legal_of_noData (fun k x hx => ?_) m
      rw [HostD.sent] at hx
      split_ifs at hx
      obtain ⟨y, -, rfl⟩ := Option.map_eq_some_iff.mp hx
      rfl

end Run

end RomTerminator

/-! ## `tl_error_sink` -/

namespace ErrorSink

section Run
variable (p : TerminatorParams) (inp : ℕ → TerminatorIn)

def state (n : ℕ) : ErrorSink p.sink := run (step p) (reset p) inp n

def fired {α : Type} (f : ErrorSink p.sink → TerminatorIn → Option α) (k : ℕ) : Option α :=
  f (state p inp k) (inp k)

/-- The host acknowledges what it was granted, and keeps a beat that is not taken. -/
structure Conforming : Prop where
  acks : SinkPort.Acknowledges p.burst (fired p inp (hostDFires p)) fun k => (inp k).hostE
  held : ∀ k x, (inp k).hostA = some x → hostAReady p (state p inp k) (inp k) = false →
    (inp (k + 1)).hostA = some x

variable {p inp}

theorem sink_denial (x : AMsg) : (denial x).sink = 0 := by
  unfold denial
  split <;> rfl

/-- The responses without sinks. -/
abbrev nosinks (p : TerminatorParams) (inp : ℕ → TerminatorIn) (n : ℕ) : List DMsg :=
  stream (SinkPort.taken p.burst (fun k => (state p inp k).port)
    (fun k => hostDNosink p (state p inp k) (inp k)) fun k => (inp k).hostDReady) n

/-- Inside a response, the request waits. -/
structure Waits (p : TerminatorParams) (inp : ℕ → TerminatorIn) (n : ℕ) : Prop where
  whole : Legal chanD p.burst (fun _ => True) (nosinks p inp n)
  burst : Tracks chanD p.burst (state p inp n).port.burst (posOf chanD p.burst (nosinks p inp n))
  request : ∀ f m, posOf chanD p.burst (nosinks p inp n) = .busy f m →
    ∃ x, hostDNosink p (state p inp n) (inp n) = some x ∧ x.header = f.header

theorem Waits.accepts {n : ℕ} (h : Waits p inp n) {x : DMsg}
    (hx : hostDNosink p (state p inp n) (inp n) = some x) :
    (posOf chanD p.burst (nosinks p inp n)).Accepts chanD x := by
  cases hq : posOf chanD p.burst (nosinks p inp n) with
  | idle => trivial
  | busy f m =>
      obtain ⟨y, hy, hhead⟩ := h.request f m hq
      rw [hx] at hy
      cases hy
      exact hhead

/-- The request stays until the last beat of its response. -/
theorem Conforming.nosink_held (hc : Conforming p inp) {n : ℕ} {x : DMsg}
    (hx : hostDNosink p (state p inp n) (inp n) = some x)
    (hlast : (state p inp n).port.readyNosink p.burst (some x) (inp n).hostDReady = true →
      (state p inp n).port.burst.last p.burst x.opcode.hasData x.size = false) :
    hostDNosink p (state p inp (n + 1)) (inp (n + 1)) = some x := by
  obtain ⟨a, ha, rfl⟩ := Option.map_eq_some_iff.mp hx
  obtain ⟨hoffer, halast⟩ := Option.filter_eq_some_iff.mp ha
  have hready : hostAReady p (state p inp n) (inp n) = false := by
    rw [hostAReady, hoffer, Option.all_some, if_pos halast, hx, hostDLast, hx, Option.any_some]
    cases hr : (state p inp n).port.readyNosink p.burst (some (denial a)) (inp n).hostDReady with
    | false => rfl
    | true => exact hlast hr
  have hkeep : (state p inp (n + 1)).req = (state p inp n).req := by
    change Burst.after chanA p.burst _ (hostAFires p (state p inp n) (inp n)) = _
    rw [hostAFires, hready]
    rfl
  have hsame : hostALast p (state p inp (n + 1)) a = true := by
    rw [hostALast, hkeep]
    exact halast
  rw [hostDNosink, hc.held n a hoffer hready, Option.filter_some, if_pos hsame]
  rfl

theorem Conforming.waits (hc : Conforming p inp) (n : ℕ) : Waits p inp n := by
  induction n with
  | zero => exact ⟨.nil, tracks_reset, fun f m h => by cases h⟩
  | succ n ih =>
      have hburst : (state p inp (n + 1)).port.burst =
          (SinkPort.fires p.burst (state p inp n).port (hostDNosink p (state p inp n) (inp n))
            (inp n).hostDReady).elim (state p inp n).port.burst fun x =>
              (state p inp n).port.burst.next p.burst x.opcode.hasData x.size := rfl
      have htaken : SinkPort.taken p.burst (fun k => (state p inp k).port)
          (fun k => hostDNosink p (state p inp k) (inp k)) (fun k => (inp k).hostDReady) n =
          if (state p inp n).port.readyNosink p.burst (hostDNosink p (state p inp n) (inp n))
            (inp n).hostDReady then hostDNosink p (state p inp n) (inp n) else none := rfl
      rw [SinkPort.fires_eq] at hburst
      cases hx : hostDNosink p (state p inp n) (inp n) with
      | none =>
          rw [hx, ite_self] at htaken hburst
          have hnil : nosinks p inp (n + 1) = nosinks p inp n := by
            rw [nosinks, stream_succ, htaken]
            simp
          refine ⟨hnil ▸ ih.whole, hnil ▸ hburst ▸ ih.burst, fun f m hq => ?_⟩
          rw [hnil] at hq
          obtain ⟨y, hy, -⟩ := ih.request f m hq
          rw [hx] at hy
          cases hy
      | some x =>
          have hacc := ih.accepts hx
          rw [hx] at htaken hburst
          cases hr : (state p inp n).port.readyNosink p.burst (some x) (inp n).hostDReady with
          | false =>
              rw [hr] at htaken hburst
              have hnil : nosinks p inp (n + 1) = nosinks p inp n := by
                rw [nosinks, stream_succ, htaken]
                simp
              refine ⟨hnil ▸ ih.whole, hnil ▸ hburst ▸ ih.burst, fun f m hq => ?_⟩
              rw [hnil] at hq
              rw [hq] at hacc
              have hstay : hostDNosink p (state p inp (n + 1)) (inp (n + 1)) = some x :=
                hc.nosink_held hx fun h => absurd (hr.symm.trans h) Bool.false_ne_true
              exact ⟨x, hstay, hacc⟩
          | true =>
              rw [hr] at htaken hburst
              have hcons : nosinks p inp (n + 1) = nosinks p inp n ++ [x] := by
                rw [nosinks, stream_succ, htaken]
                rfl
              have hnext : (state p inp (n + 1)).port.burst =
                  (state p inp n).port.burst.next p.burst x.opcode.hasData x.size := hburst
              refine ⟨hcons ▸ ih.whole.concat hacc trivial, ?_, fun f m hq => ?_⟩
              · rw [hcons, posOf_concat, hnext]
                exact ih.burst.next hacc
              · rw [hcons, posOf_concat] at hq
                have hd : (posOf chanD p.burst (nosinks p inp n)).done ≠ chanD.len p.burst x := by
                  intro hd
                  rw [Pos.next_of_last hd] at hq
                  cases hq
                obtain ⟨g, hg, hhead⟩ := Pos.next_of_ne_last hd hacc
                rw [hg] at hq
                cases hq
                refine ⟨x, hc.nosink_held hx fun _ => ?_, hhead⟩
                have hlast := ih.burst.last_eq hacc
                rw [decide_eq_false hd] at hlast
                exact hlast

theorem uses_run (hq : p.sink.Decodes) (hc : Conforming p inp) (n : ℕ) :
    SinkPort.Uses p.burst (fun k => (state p inp k).port) (fired p inp (hostDFires p))
      (fun k => (inp k).hostE) n := by
  refine SinkPort.uses_run (fun k => (state p inp k).port)
    (fun k => hostDNosink p (state p inp k) (inp k))
    (fun k => (inp k).hostDReady) hq rfl (fun k => rfl) (fun k x hx => ?_)
    (fun m => (hc.waits m).whole) hc.acks n
  obtain ⟨a, -, rfl⟩ := Option.map_eq_some_iff.mp hx
  exact sink_denial a

end Run

end ErrorSink

/-! ## All modules -/

def upgradeReq (source : ℕ) : AMsg := ⟨.acquirePerm, NtoT, 6, source, 64, 0xff, false, 0⟩

/-- `SinkMask` is 2, so that there are sinks 0, 1 and 2, and sinks 0 and 1 have the same index. -/
def gapSinks : TerminatorParams := ⟨⟨3, 6⟩, 2, ⟨0, 2⟩⟩

/-- Two grants, an acknowledgement of the second one, and another request. -/
def gapIns (k : ℕ) : TerminatorIn where
  hostA := if k = 2 ∨ 4 ≤ k then none else some (upgradeReq 1)
  hostC := none
  hostDReady := true
  hostE := if k = 2 then some ⟨1⟩ else none
  deviceAReady := true
  deviceD := none

theorem error_gapIns : ErrorSink.Conforming gapSinks gapIns where
  acks s n := by
    have hend : ∀ k ≥ 3, (gapIns k).hostE = none := fun k hk => if_neg (by omega)
    have hpre : stream (fun k => (gapIns k).hostE) n <+: [⟨1⟩] := stream_prefix_of_none hend n
    have hone : (SinkPort.acks s (stream (fun k => (gapIns k).hostE) n)).length ≤
        (SinkPort.acks s [⟨1⟩]).length := (hpre.filter _).length_le
    rcases Nat.lt_or_ge n 3 with hn | hn
    · have hnone : stream (fun k => (gapIns k).hostE) n = [] := by interval_cases n <;> rfl
      rw [hnone]
      exact Nat.zero_le _
    · by_cases hs : s = 1
      · subst hs
        have hmono : SinkPort.grants gapSinks.burst 1
              (stream (ErrorSink.fired gapSinks gapIns (ErrorSink.hostDFires gapSinks)) 3) <+:
            SinkPort.grants gapSinks.burst 1
              (stream (ErrorSink.fired gapSinks gapIns (ErrorSink.hostDFires gapSinks)) n) :=
          begunIn_prefix <| stream_prefix _ hn
        refine hone.trans (le_trans ?_ hmono.length_le)
        decide
      · have hnil : SinkPort.acks s [⟨1⟩] = [] := by simp [SinkPort.acks, Ne.symm hs]
        rw [hnil] at hone
        exact hone.trans (Nat.zero_le _)
  held k x h hr := by
    have hk : ¬(k = 2 ∨ 4 ≤ k) := fun hk => by
      simp only [gapIns] at h
      rw [if_pos hk] at h
      cases h
    have htaken : ∀ j ∈ [0, 1, 3], ErrorSink.hostAReady gapSinks
        (ErrorSink.state gapSinks gapIns j) (gapIns j) = true := by decide
    have hmem : k ∈ [0, 1, 3] := by
      simp only [List.mem_cons, List.not_mem_nil, or_false]
      omega
    rw [htaken k hmem] at hr
    cases hr

/-- The acknowledgement of sink 1 frees sink 0, which is granted again. -/
theorem sink_reused :
    ErrorSink.Conforming gapSinks gapIns ∧
      ¬SinkPort.Uses gapSinks.burst (fun k => (ErrorSink.state gapSinks gapIns k).port)
        (ErrorSink.fired gapSinks gapIns (ErrorSink.hostDFires gapSinks))
        (fun k => (gapIns k).hostE) 3 := by
  refine ⟨error_gapIns, fun h => ?_⟩
  have hfresh := h.fresh ⟨.grant, toN, 6, 1, 0, true, false, 0⟩ (by decide)
    (by decide) rfl
  revert hfresh
  decide

end Muntjac.Tl

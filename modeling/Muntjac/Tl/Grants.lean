import Muntjac.Tl.Slots

/-!
# Channel D of a terminator

The terminators arbitrate their responses onto channel D, without sink identifiers.  On the
way to the host every grant gets a free one, and waits until there is one.

## Main definitions

* `SinkPort` — the sink management.
* `SinkPort.Uses` — how a host sees the sinks.
* `HostD` — the sink management behind the arbitration.

## Main results

* `SinkPort.uses_run` — if every message without sinks is whole, every grant gets a sink that is
  acknowledged.
* `HostD.uses_run` — the same with arbitration.
-/

namespace Muntjac.Tl

open Sync

/-- `SinkBase` and `SinkMask`. -/
structure SinkParams where
  base : ℕ
  mask : ℕ
  deriving DecidableEq, Repr

/-- The identifiers `SinkBase | k` from which `& SinkMask` gives back `k`. -/
def SinkParams.Decodes (q : SinkParams) : Prop :=
  ∀ k : Fin (q.mask + 1), (q.base ||| k.val) &&& q.mask = k

theorem SinkParams.Decodes.inj {q : SinkParams} (h : q.Decodes) {k k' : Fin (q.mask + 1)}
    (hk : q.base ||| k.val = q.base ||| k'.val) : k = k' := by
  have hval : k.val = k'.val := by rw [← h k, ← h k', hk]
  exact Fin.ext hval

/-- `opcode inside {Grant, GrantData}`. -/
def DOp.isGrant : DOp → Bool
  | .grant | .grantData => true
  | .accessAck | .accessAckData | .hintAck | .releaseAck => false

def DMsg.withSink (x : DMsg) (sink : ℕ) : DMsg := { x with sink := sink }

/-- The message without its sink. -/
def DMsg.noSink (x : DMsg) : DMsg := x.withSink 0

@[simp] theorem DMsg.noSink_withSink (x : DMsg) (sink : ℕ) : (x.withSink sink).noSink = x.noSink :=
  rfl

theorem DMsg.noSink_of_sink {x : DMsg} (h : x.sink = 0) : x.noSink = x := by
  cases x
  cases h
  rfl

theorem DMsg.header_withSink {x y : DMsg} (h : x.noSink.header = y.noSink.header) (sink : ℕ) :
    (x.withSink sink).header = (y.withSink sink).header :=
  congrArg (fun z : DMsg => z.withSink sink) h

/-! ## Sinks -/

/-- The registers of the sink management, and the counter of the burst tracker for channel D. -/
structure SinkPort (q : SinkParams) where
  burst : Burst
  tracker : Fin (q.mask + 1) → Bool
  sinkQ : ℕ

namespace SinkPort
variable {q : SinkParams}

def reset (p : BurstParams) : SinkPort q := ⟨.reset p, fun _ => true, 0⟩

section Outputs
variable (p : BurstParams) (s : SinkPort q) (nosink : Option DMsg) (ready : Bool)

/-- The first beat of a grant needs a sink. -/
def allocates : Bool := nosink.any fun x => s.burst.first p && x.opcode.isGrant

/-- `!sink_avail`, where a sink is needed. -/
def blocked : Bool := s.allocates p nosink && (firstIdx s.tracker).isNone

def readyNosink : Bool := ready && !s.blocked p nosink

/-- The sink of the message on the channel. -/
def sink : ℕ :=
  q.base ||| if s.allocates p nosink then (firstIdx s.tracker).elim 0 Fin.val else s.sinkQ

def hostD : Option DMsg :=
  if s.blocked p nosink then none else nosink.map fun x => x.withSink (s.sink p nosink)

/-- The beat that the host takes. -/
def fires : Option DMsg := if ready then s.hostD p nosink else none

/-- One clock edge. -/
def step (hostE : Option EMsg) : SinkPort q where
  burst := (s.fires p nosink ready).elim s.burst fun x =>
    s.burst.next p x.opcode.hasData x.size
  tracker k :=
    if hostE.any fun e => e.sink &&& q.mask = k then true
    else if s.allocates p nosink && ready && firstIdx s.tracker = some k then false
    else s.tracker k
  sinkQ :=
    if s.allocates p nosink && ready then (firstIdx s.tracker).elim s.sinkQ Fin.val else s.sinkQ

end Outputs

section Step
variable {p : BurstParams} {s : SinkPort q} {nosink : Option DMsg} {ready : Bool}

theorem fires_eq (p : BurstParams) (s : SinkPort q) (nosink : Option DMsg) (ready : Bool) :
    s.fires p nosink ready = (if s.readyNosink p nosink ready then nosink else none).map
      fun x => x.withSink (s.sink p nosink) := by
  rw [fires, hostD, readyNosink]
  cases ready <;> cases s.blocked p nosink <;> simp

/-- The counter follows channel D, and later beats have the sink of the first one. -/
structure Follows (p : BurstParams) (s : SinkPort q) (l : List DMsg) : Prop where
  burst : Tracks chanD p s.burst (posOf chanD p l)
  sink : ∀ f n, posOf chanD p l = .busy f n → f.sink = q.base ||| s.sinkQ

theorem follows_reset : Follows p (reset p : SinkPort q) [] :=
  ⟨tracks_reset, fun f n h => by cases h⟩

/-- Inside a message no sink is needed. -/
theorem Follows.not_allocates {l : List DMsg} (h : s.Follows p l)
    (hl : Legal chanD p (fun _ => True) l) {f : DMsg} {n : ℕ}
    (hf : posOf chanD p l = .busy f n) : s.allocates p nosink = false := by
  have hvalid := valid_posOf hl
  have hfirst : s.burst.first p = false := by
    rw [h.burst.first_eq (x := f) (by rw [hf]; rfl), hf]
    rw [hf] at hvalid
    exact decide_eq_false hvalid.1.ne'
  cases nosink <;> simp [allocates, hfirst]

/-- The sink of a beat inside a message. -/
theorem Follows.sink_eq {l : List DMsg} (h : s.Follows p l) (hl : Legal chanD p (fun _ => True) l)
    {f : DMsg} {n : ℕ} (hf : posOf chanD p l = .busy f n) : s.sink p nosink = f.sink := by
  have halloc : s.allocates p nosink = false := h.not_allocates hl hf
  rw [h.sink f n hf, SinkPort.sink, halloc]
  rfl

theorem Follows.step_none {l : List DMsg} (h : s.Follows p l)
    (hf : s.fires p nosink ready = none) (hostE : Option EMsg) :
    (s.step p nosink ready hostE).Follows p l := by
  have hkeep : (s.step p nosink ready hostE).sinkQ = s.sinkQ := by
    change (if s.allocates p nosink && ready then _ else _) = _
    cases hx : nosink with
    | none => simp [allocates]
    | some x =>
        cases ready with
        | false => simp
        | true =>
            rw [fires_eq, Option.map_eq_none_iff, readyNosink, hx] at hf
            have hb : s.blocked p (some x) = true := by
              by_contra hne
              rw [Bool.not_eq_true] at hne
              simp [hne] at hf
            rw [blocked, Bool.and_eq_true, Option.isNone_iff_eq_none] at hb
            rw [hb.2]
            simp
  refine ⟨?_, fun f n hq => ?_⟩
  · change Tracks chanD p ((s.fires p nosink ready).elim _ _) _
    rw [hf]
    exact h.burst
  · rw [hkeep]
    exact h.sink f n hq

theorem Follows.step_some {l : List DMsg} (h : s.Follows p l) {y : DMsg}
    (hf : s.fires p nosink ready = some y) (hy : (posOf chanD p l).Accepts chanD y)
    (hl : Legal chanD p (fun _ => True) l) (hostE : Option EMsg) :
    (s.step p nosink ready hostE).Follows p (l ++ [y]) := by
  refine ⟨?_, fun f n hq => ?_⟩
  · change Tracks chanD p ((s.fires p nosink ready).elim _ _) _
    rw [hf, posOf_concat]
    exact h.burst.next hy
  · have hfe := hf
    rw [fires_eq] at hfe
    obtain ⟨x, hx, rfl⟩ := Option.map_eq_some_iff.mp hfe
    split_ifs at hx with hr
    rw [readyNosink, Bool.and_eq_true, Bool.not_eq_true'] at hr
    rw [posOf_concat] at hq
    have hd : (posOf chanD p l).done ≠ chanD.len p (x.withSink (s.sink p nosink)) := fun hd => by
      rw [Pos.next_of_last hd] at hq
      cases hq
    change f.sink = q.base |||
      if s.allocates p nosink && ready then (firstIdx s.tracker).elim s.sinkQ Fin.val else s.sinkQ
    cases hp : posOf chanD p l with
    | busy g k =>
        have hsink := h.sink g k hp
        have hg : f = g := by
          unfold Pos.next at hq
          rw [if_neg hd, hp] at hq
          cases hq
          rfl
        have hkeep : s.allocates p nosink = false := h.not_allocates hl hp
        rw [hg, hsink, hkeep]
        rfl
    | idle =>
        have hg : f = x.withSink (s.sink p nosink) := by
          unfold Pos.next at hq
          rw [if_neg hd, hp] at hq
          cases hq
          rfl
        rw [hg]
        change s.sink p nosink = _
        rw [SinkPort.sink, hr.1, Bool.and_true]
        split_ifs with ha
        · have hfree : (firstIdx s.tracker).isSome = true := by
            have hb := hr.2
            rw [blocked, ha, Bool.true_and, Option.isNone_eq_false_iff] at hb
            exact hb
          obtain ⟨k, hk⟩ := Option.isSome_iff_exists.mp hfree
          rw [hk]
          rfl
        · rfl

end Step

/-! ### Grants and acknowledgements -/

/-- The grants with sink `s`, and the acknowledgements of them. -/
def grants (p : BurstParams) (s : ℕ) (ds : List DMsg) : List DMsg :=
  begunIn chanD p (fun x => x.opcode.isGrant && x.sink == s) ds

def acks (s : ℕ) (es : List EMsg) : List EMsg := es.filter fun e => e.sink == s

/-- The host acknowledges every grant at most once, from its first beat on. -/
def Acknowledges (p : BurstParams) (ds : ℕ → Option DMsg) (es : ℕ → Option EMsg) : Prop :=
  ∀ s n, (acks s (stream es n)).length ≤ (grants p s (stream ds n)).length

/-- How the sinks are used before and in cycle `n`. -/
structure Uses (p : BurstParams) (port : ℕ → SinkPort q) (ds : ℕ → Option DMsg)
    (es : ℕ → Option EMsg) (n : ℕ) : Prop where
  /-- Messages are whole, and all beats have the sink of the first one. -/
  whole : Legal chanD p (fun _ => True) (stream ds n)
  held : ∀ f m x, posOf chanD p (stream ds n) = .busy f m → ds n = some x → x.sink = f.sink
  /-- All grants that had the sink of a grant that begins are acknowledged. -/
  fresh : ∀ x, ds n = some x → (posOf chanD p (stream ds n)).done = 0 →
    x.opcode.isGrant = true →
      (grants p x.sink (stream ds n)).length = (acks x.sink (stream es n)).length
  /-- At most one grant with a sink is not acknowledged, and then the sink is not free. -/
  free : ∀ k, (grants p (q.base ||| k.val) (stream ds n)).length =
    (acks (q.base ||| k.val) (stream es n)).length + (!(port n).tracker k).toNat
  /-- A sink becomes free by an acknowledgement of it. -/
  freed : ∀ k, (port n).tracker k = false →
    ((port (n + 1)).tracker k = true ↔ ∃ e, es n = some e ∧ e.sink = q.base ||| k.val)

section Grant
variable (p : BurstParams) (s : SinkPort q) (nosink : Option DMsg) (ready : Bool)

/-- The sink of a grant that begins. -/
def granted : Option (Fin (q.mask + 1)) :=
  if s.allocates p nosink && ready then firstIdx s.tracker else none

variable {p s nosink ready}

theorem tracker_of_granted {k : Fin (q.mask + 1)} (h : s.granted p nosink ready = some k) :
    s.tracker k = true := by
  rw [granted] at h
  split_ifs at h
  exact firstIdx_some h

theorem tracker_step (hostE : Option EMsg) (k : Fin (q.mask + 1)) :
    (s.step p nosink ready hostE).tracker k =
      if hostE.any fun e => e.sink &&& q.mask = k then true
      else if s.granted p nosink ready = some k then false
      else s.tracker k := by
  rw [step, granted]
  cases s.allocates p nosink && ready <;> simp

theorem granted_none (h : s.fires p nosink ready = none) : s.granted p nosink ready = none := by
  rw [granted]
  cases ha : s.allocates p nosink with
  | false => rfl
  | true =>
      cases hr : ready with
      | false => rfl
      | true =>
          cases hx : nosink with
          | none =>
              rw [allocates, hx] at ha
              cases ha
          | some x =>
              rw [fires_eq, readyNosink, hr, hx, Option.map_eq_none_iff] at h
              rw [hx] at ha
              by_contra hne
              have hblock : s.blocked p (some x) = false := by
                rw [blocked, ha, Bool.true_and, Option.isNone_eq_false_iff]
                exact Option.ne_none_iff_isSome.mp hne
              simp [hblock] at h

/-- A grant that begins has the sink that is taken. -/
theorem Follows.granted_eq {l : List DMsg} (h : s.Follows p l) {y : DMsg}
    (hf : s.fires p nosink ready = some y) (hy : (posOf chanD p l).Accepts chanD y) :
    if (posOf chanD p l).done = 0 ∧ y.opcode.isGrant = true then
      ∃ k, s.granted p nosink ready = some k ∧ y.sink = q.base ||| k.val
    else s.granted p nosink ready = none := by
  have hfirst := h.burst.first_eq hy
  rw [fires_eq] at hf
  obtain ⟨x, hx, rfl⟩ := Option.map_eq_some_iff.mp hf
  split_ifs at hx with hr
  rw [readyNosink, Bool.and_eq_true, Bool.not_eq_true'] at hr
  have halloc : s.allocates p nosink = true ↔
      (posOf chanD p l).done = 0 ∧ (x.withSink (s.sink p nosink)).opcode.isGrant = true := by
    rw [allocates, hx, Option.any_some, Bool.and_eq_true, hfirst, decide_eq_true_eq]
    rfl
  split_ifs with hc
  · have ha := halloc.mpr hc
    have hfree : (firstIdx s.tracker).isSome = true := by
      have hb := hr.2
      rw [blocked, ha, Bool.true_and, Option.isNone_eq_false_iff] at hb
      exact hb
    obtain ⟨k, hk⟩ := Option.isSome_iff_exists.mp hfree
    refine ⟨k, ?_, ?_⟩
    · rw [granted, ha, hr.1]
      exact hk
    · change s.sink p nosink = _
      rw [SinkPort.sink, ha, if_pos rfl, hk]
      rfl
  · have ha : s.allocates p nosink = false := by
      rw [← Bool.not_eq_true, halloc]
      exact hc
    rw [granted, ha]
    rfl

end Grant

/-! ### Runs -/

section Run
variable {p : BurstParams} {port : ℕ → SinkPort q} {nosink : ℕ → Option DMsg} {ready : ℕ → Bool}
  {es : ℕ → Option EMsg}

/-- The beats that the host takes, and the same without sinks. -/
def fired (p : BurstParams) (port : ℕ → SinkPort q) (nosink : ℕ → Option DMsg) (ready : ℕ → Bool)
    (k : ℕ) : Option DMsg := (port k).fires p (nosink k) (ready k)

def taken (p : BurstParams) (port : ℕ → SinkPort q) (nosink : ℕ → Option DMsg) (ready : ℕ → Bool)
    (k : ℕ) : Option DMsg := if (port k).readyNosink p (nosink k) (ready k) then nosink k else none

theorem noSink_fired (hzero : ∀ k x, nosink k = some x → x.sink = 0) (k : ℕ) :
    (fired p port nosink ready k).map DMsg.noSink = taken p port nosink ready k := by
  rw [fired, fires_eq, taken]
  split_ifs
  · cases hx : nosink k with
    | none => rfl
    | some x => simp [DMsg.noSink_of_sink (hzero k x hx)]
  · rfl

theorem acks_succ (s n : ℕ) :
    (acks s (stream es (n + 1))).length =
      (acks s (stream es n)).length + ((es n).any fun e => e.sink == s).toNat := by
  rw [acks, stream_succ, List.filter_append, List.length_append, ← acks]
  cases es n with
  | none => rfl
  | some e => cases h : e.sink == s <;> simp [h]

/-- The registers belong to the history. -/
structure Inv (p : BurstParams) (port : ℕ → SinkPort q) (ds : ℕ → Option DMsg)
    (es : ℕ → Option EMsg) (n : ℕ) : Prop where
  whole : Legal chanD p (fun _ => True) (stream ds n)
  follows : (port n).Follows p (stream ds n)
  form : ∀ s, 0 < (grants p s (stream ds n)).length → ∃ k : Fin (q.mask + 1), s = q.base ||| k.val
  count : ∀ k : Fin (q.mask + 1), (grants p (q.base ||| k.val) (stream ds n)).length =
    (acks (q.base ||| k.val) (stream es n)).length + (!(port n).tracker k).toNat

section Step
variable {n : ℕ} (h : Inv p port (fired p port nosink ready) es n)
include h

/-- The next beat for the host continues the message on the way. -/
theorem Inv.accepts (hzero : ∀ k x, nosink k = some x → x.sink = 0)
    (hl : Legal chanD p (fun _ => True) (stream (taken p port nosink ready) (n + 1))) {y : DMsg}
    (hy : fired p port nosink ready n = some y) :
    (posOf chanD p (stream (fired p port nosink ready) n)).Accepts chanD y := by
  have hmap : ∀ m, (stream (fired p port nosink ready) m).map DMsg.noSink =
      stream (taken p port nosink ready) m := by
    intro m
    rw [← stream_map]
    exact stream_congr (noSink_fired hzero) m
  rw [stream_succ, ← noSink_fired hzero, hy, Option.map_some, Option.toList_some] at hl
  have hacc := hl.of_concat.2.1
  have hpos : posOf chanD p ((stream (fired p port nosink ready) n).map DMsg.noSink) =
      (posOf chanD p (stream (fired p port nosink ready) n)).map DMsg.noSink :=
    posOf_map (g := DMsg.noSink) (fun _ => rfl) _
  rw [← hmap, hpos] at hacc
  cases hq : posOf chanD p (stream (fired p port nosink ready) n) with
  | idle => trivial
  | busy f m =>
      rw [hq] at hacc
      have hhead : y.noSink.header = f.noSink.header := hacc
      have hsink : (port n).sink p (nosink n) = f.sink := h.follows.sink_eq h.whole hq
      have hys : y.sink = f.sink := by
        rw [fired, fires_eq] at hy
        obtain ⟨x, -, rfl⟩ := Option.map_eq_some_iff.mp hy
        exact hsink
      have hwith := DMsg.header_withSink hhead f.sink
      have hyy : y.withSink f.sink = y := by
        rw [← hys]
        rfl
      rw [hyy] at hwith
      exact hwith

/-- The grants after a cycle. -/
theorem Inv.grants_succ
    (hacc : ∀ y, fired p port nosink ready n = some y →
      (posOf chanD p (stream (fired p port nosink ready) n)).Accepts chanD y) (s : ℕ) :
    (grants p s (stream (fired p port nosink ready) (n + 1))).length =
      (grants p s (stream (fired p port nosink ready) n)).length +
        (((port n).granted p (nosink n) (ready n)).any fun k => q.base ||| k.val == s).toNat := by
  rw [stream_succ]
  cases hy : fired p port nosink ready n with
  | none =>
      rw [granted_none hy, Option.toList_none, List.append_nil]
      rfl
  | some y =>
      have hg := h.follows.granted_eq hy (hacc y hy)
      rw [Option.toList_some, grants, begunIn_concat, List.length_append, ← grants]
      split_ifs at hg with hc
      · obtain ⟨k, hk, hs⟩ := hg
        rw [hk, Option.any_some, hc.1, hc.2, hs]
        cases q.base ||| k.val == s <;> simp
      · rw [hg, if_neg]
        · rfl
        · intro hcon
          rw [Bool.and_eq_true] at hcon
          exact hc ⟨hcon.1, hcon.2.1⟩

theorem Inv.form_succ
    (hacc : ∀ y, fired p port nosink ready n = some y →
      (posOf chanD p (stream (fired p port nosink ready) n)).Accepts chanD y) {s : ℕ}
    (hs : 0 < (grants p s (stream (fired p port nosink ready) (n + 1))).length) :
    ∃ k : Fin (q.mask + 1), s = q.base ||| k.val := by
  rw [h.grants_succ hacc] at hs
  by_cases hpos : 0 < (grants p s (stream (fired p port nosink ready) n)).length
  · exact h.form s hpos
  · cases hg : (port n).granted p (nosink n) (ready n) with
    | none =>
        rw [hg] at hs
        exact absurd hs hpos
    | some k =>
        rw [hg, Option.any_some] at hs
        refine ⟨k, ?_⟩
        by_contra hne
        have hfalse : (q.base ||| k.val == s) = false := by
          rw [beq_eq_false_iff_ne]
          exact fun he => hne he.symm
        rw [hfalse] at hs
        exact hpos hs

/-- An acknowledgement is decoded to the sink of its grant. -/
theorem Inv.decode (hq : q.Decodes) (hes : Acknowledges p (fired p port nosink ready) es)
    (hacc : ∀ y, fired p port nosink ready n = some y →
      (posOf chanD p (stream (fired p port nosink ready) n)).Accepts chanD y)
    (k : Fin (q.mask + 1)) :
    ((es n).any fun e => e.sink &&& q.mask = k) =
      (es n).any fun e => e.sink == q.base ||| k.val := by
  cases he : es n with
  | none => rfl
  | some e =>
      have hle := hes e.sink (n + 1)
      have hpos : 0 < (acks e.sink (stream es (n + 1))).length := by
        rw [acks_succ, he]
        simp
      obtain ⟨k', hk'⟩ := h.form_succ hacc (lt_of_lt_of_le hpos hle)
      rw [Option.any_some, Option.any_some, hk', hq k', Bool.eq_iff_iff, decide_eq_true_eq,
        beq_iff_eq]
      constructor
      · intro hkk
        rw [hkk]
      · intro hkk
        rw [hq.inj hkk]

end Step

variable (hq : q.Decodes) (h0 : port 0 = reset p)
  (hstep : ∀ k, port (k + 1) = (port k).step p (nosink k) (ready k) (es k))
  (hzero : ∀ k x, nosink k = some x → x.sink = 0)
  (hl : ∀ n, Legal chanD p (fun _ => True) (stream (taken p port nosink ready) n))
  (hes : Acknowledges p (fired p port nosink ready) es)

include h0 in
theorem inv_zero : Inv p port (fired p port nosink ready) es 0 where
  whole := .nil
  follows := by
    rw [h0]
    exact follows_reset
  form s hs := absurd hs (Nat.lt_irrefl 0)
  count k := by
    rw [h0]
    rfl

include hq hstep hzero hl hes in
theorem inv_step {n : ℕ} (h : Inv p port (fired p port nosink ready) es n) :
    Inv p port (fired p port nosink ready) es (n + 1) := by
  have hacc := fun y => h.accepts (y := y) hzero (hl (n + 1))
  refine ⟨?_, ?_, fun s => h.form_succ hacc, fun k => ?_⟩
  · rw [stream_succ]
    cases hy : fired p port nosink ready n with
    | none => simpa using h.whole
    | some y => exact h.whole.concat (hacc y hy) trivial
  · rw [stream_succ, hstep]
    cases hy : fired p port nosink ready n with
    | none =>
        rw [Option.toList_none, List.append_nil]
        exact h.follows.step_none hy _
    | some y => exact h.follows.step_some hy (hacc y hy) h.whole _
  · have hle := hes (q.base ||| k.val) (n + 1)
    have hcount := h.count k
    rw [acks_succ, h.grants_succ hacc] at hle ⊢
    rw [hstep, tracker_step, h.decode hq hes hacc]
    have hgrant : ((port n).granted p (nosink n) (ready n)).any
        (fun k' => q.base ||| k'.val == q.base ||| k.val) =
          decide ((port n).granted p (nosink n) (ready n) = some k) := by
      cases (port n).granted p (nosink n) (ready n) with
      | none => rfl
      | some k' =>
          rw [Option.any_some, Bool.eq_iff_iff, beq_iff_eq, decide_eq_true_eq, Option.some_inj]
          exact ⟨hq.inj, fun hkk => by rw [hkk]⟩
    rw [hgrant] at hle ⊢
    -- a sink that is granted was free
    have hfree : (port n).granted p (nosink n) (ready n) = some k → (port n).tracker k = true :=
      tracker_of_granted
    by_cases hg : (port n).granted p (nosink n) (ready n) = some k <;>
      cases he : (es n).any (fun e => e.sink == q.base ||| k.val) <;>
      cases ht : (port n).tracker k <;> simp_all

include hq h0 hstep hzero hl hes in
theorem inv_run (n : ℕ) : Inv p port (fired p port nosink ready) es n := by
  induction n with
  | zero => exact inv_zero h0
  | succ n ih => exact inv_step hq hstep hzero hl hes ih

variable (port nosink ready) in
include hq h0 hstep hzero hl hes in
/-- No sink is used again before it is acknowledged. -/
theorem uses_run (n : ℕ) : Uses p port (fired p port nosink ready) es n := by
  have h : Inv p port (fired p port nosink ready) es n := inv_run hq h0 hstep hzero hl hes n
  have hacc := fun y => h.accepts (y := y) hzero (hl (n + 1))
  refine ⟨h.whole, fun f m x hf hx => ?_, fun x hx hd hg => ?_, h.count, fun k hk => ?_⟩
  · rw [fired, fires_eq] at hx
    obtain ⟨y, -, rfl⟩ := Option.map_eq_some_iff.mp hx
    exact h.follows.sink_eq h.whole hf
  · have hgrant := h.follows.granted_eq hx (hacc x hx)
    rw [if_pos ⟨hd, hg⟩] at hgrant
    obtain ⟨k, hk, hs⟩ := hgrant
    have hcount := h.count k
    rw [tracker_of_granted hk] at hcount
    rw [hs]
    exact hcount
  · have hne : (port n).granted p (nosink n) (ready n) ≠ some k := fun hg => by
      have ht := tracker_of_granted hg
      rw [hk] at ht
      cases ht
    rw [hstep, tracker_step, if_neg hne, hk, h.decode hq hes hacc]
    cases he : es n with
    | none => simp
    | some e => simp

end Run

end SinkPort

/-! ## Arbitration -/

/-- The arbitration of channel D with the sink management behind it. -/
structure HostD (q : SinkParams) (n : ℕ) where
  arb : ChannelArb n
  port : SinkPort q

namespace HostD
variable {q : SinkParams} {n : ℕ}

def reset (p : BurstParams) : HostD q n := ⟨.reset, .reset p⟩

section Cycle
variable (p : BurstParams) (s : HostD q n) (msgs : Fin n → Option DMsg) (ready : Bool)

def nosink : Option DMsg := s.arb.msg msgs

def readyNosink : Bool := s.port.readyNosink p (s.nosink msgs) ready

/-- `host_d_ready_mult`. -/
def readyMult (i : Fin n) : Bool := s.arb.ready msgs (s.readyNosink p msgs ready) i

/-- The beat that the host takes, and the one that source `i` of responses hands over. -/
def fires : Option DMsg := s.port.fires p (s.nosink msgs) ready

def sent (i : Fin n) : Option DMsg := if s.readyMult p msgs ready i then msgs i else none

/-- `host_d_last`. -/
def last : Bool :=
  (s.nosink msgs).any fun x => s.port.burst.last p x.opcode.hasData x.size

def step (hostE : Option EMsg) : HostD q n where
  arb := s.arb.next msgs (s.readyNosink p msgs ready) (s.last p msgs)
  port := s.port.step p (s.nosink msgs) ready hostE

/-- The arbitration alone. -/
def shared : Shared n := ⟨s.arb, s.port.burst⟩

theorem shared_step (hostE : Option EMsg) :
    (s.step p msgs ready hostE).shared =
      s.shared.step chanD p msgs (s.readyNosink p msgs ready) := by
  rw [shared, step, Shared.step, Shared.mk.injEq]
  refine ⟨rfl, ?_⟩
  change (s.port.fires p (s.nosink msgs) ready).elim _ _ = _
  rw [SinkPort.fires_eq, Shared.out_eq]
  change (Option.map _ (if s.readyNosink p msgs ready then s.nosink msgs else none)).elim _ _ =
    (if s.readyNosink p msgs ready then s.nosink msgs else none).elim _ _
  cases if s.readyNosink p msgs ready then s.nosink msgs else none <;> rfl

end Cycle

section Run
variable {p : BurstParams} {s : ℕ → HostD q n} {msgs : ℕ → Fin n → Option DMsg}
  {ready : ℕ → Bool} {es : ℕ → Option EMsg}

variable (s msgs ready) in
/-- If every source hands over whole messages, then no sink is used again before it is
acknowledged. -/
theorem uses_run (hq : q.Decodes) (h0 : s 0 = reset p)
    (hstep : ∀ k, s (k + 1) = (s k).step p (msgs k) (ready k) (es k))
    (hzero : ∀ k i x, msgs k i = some x → x.sink = 0)
    (hl : ∀ i m, Legal chanD p (fun _ => True)
      (stream (fun k => (s k).sent p (msgs k) (ready k) i) m))
    (hes : SinkPort.Acknowledges p (fun k => (s k).fires p (msgs k) (ready k)) es) (m : ℕ) :
    SinkPort.Uses p (fun k => (s k).port) (fun k => (s k).fires p (msgs k) (ready k)) es m := by
  have hshared : ∀ k, (s (k + 1)).shared =
      (s k).shared.step chanD p (msgs k) ((s k).readyNosink p (msgs k) (ready k)) := by
    intro k
    rw [hstep, shared_step]
  have hshared0 : (s 0).shared = Shared.reset p := by rw [h0]; rfl
  have hwhole : ∀ m, Legal chanD p (fun _ => True) (stream (fun k =>
      (s k).shared.out (msgs k) ((s k).readyNosink p (msgs k) (ready k))) m) :=
    fun m => (Shared.shares_arbitrated hshared0 hshared hl m).whole_legal
  refine SinkPort.uses_run (fun k => (s k).port) (fun k => (s k).nosink (msgs k)) ready
    hq (by rw [h0]; rfl) (fun k => by rw [hstep]; rfl) ?_ hwhole hes m
  intro k x hx
  obtain ⟨i, -, hi⟩ := Option.bind_eq_some_iff.mp hx
  exact hzero k i x hi

end Run

end HostD

end Muntjac.Tl

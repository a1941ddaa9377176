import Muntjac.Core.LlcTrackers

/-!
# Which tracker has a message

A message of channel A or C stays at the output of its register slice until a tracker takes it,
and the beats of one message go to one tracker, the one that has its set or its line.  This holds
whatever the tags are.

## Main definitions

* `Pos.Current` — the message at the output of a register slice.
* `Llc.Requests`, `Llc.Releases` — the invariants of the two channels.

## Main results

* `Requests.step`, `Releases.step` — one cycle.
* `Requests.line_eq` — a tracker of a request stays with its line.
-/

namespace Muntjac.Tl

open Sync

theorem CMsg.param_of_header {x y : CMsg} (h : x.header = y.header) : x.param = y.param :=
  (CMsg.mk.injEq .. ▸ h).2.1

section Current
variable {β : Type*} (c : Chan β) {p : BurstParams} {q : Pos β} {s : RegSlice β} {w : Option β}
  {x m : β}

/-- The position after a cycle in which a beat may be transferred. -/
def Pos.after (p : BurstParams) (q : Pos β) (fires : Option β) : Pos β :=
  fires.elim q (q.next c p)

variable {c}

theorem posOf_after (l : List β) (o : Option β) :
    posOf c p (l ++ o.toList) = (posOf c p l).after c p o := by
  cases o with
  | none => rw [Option.toList_none, List.append_nil]; rfl
  | some x => exact posOf_concat c p l x

variable (c)

/-- The message that begins at the output of the slice, or has begun, has the header of `m`. -/
def Pos.Current (q : Pos β) (s : RegSlice β) (m : β) : Prop :=
  match q with
  | .idle => ∃ x, s.buffer = some x ∧ c.header x = c.header m
  | .busy f _ => c.header f = c.header m

variable {c}

namespace Pos.Current

theorem header_eq (h : q.Current c s m) (hx : RegSlice.Reverse.rData s w = some x)
    (hacc : q.Accepts c x) : c.header x = c.header m := by
  cases q with
  | idle =>
      obtain ⟨y, hy, hm⟩ := h
      rw [RegSlice.Reverse.rData, hy, Option.some_or] at hx
      cases hx
      exact hm
  | busy f n => exact Eq.trans hacc h

/-- Nothing is taken. -/
theorem keep (h : q.Current c s m) : q.Current c (RegSlice.Reverse.next s w false) m := by
  cases q with
  | idle =>
      obtain ⟨y, hy, hm⟩ := h
      refine ⟨y, ?_, hm⟩
      rw [RegSlice.Reverse.next, hy]
      rfl
  | busy f n => exact h

/-- A beat is taken that is not the last one. -/
theorem beat (h : q.Current c s m) (hx : RegSlice.Reverse.rData s w = some x)
    (hacc : q.Accepts c x) (hlast : q.done ≠ c.len p x) (s' : RegSlice β) :
    (q.next c p x).Current c s' m := by
  obtain ⟨f, hnext, hf⟩ := Pos.next_of_ne_last hlast hacc
  rw [hnext]
  exact hf.symm.trans (h.header_eq hx hacc)

/-- A message that is not taken. -/
theorem of_rData (hx : RegSlice.Reverse.rData s w = some x) (hacc : q.Accepts c x) :
    q.Current c (RegSlice.Reverse.next s w false) x := by
  cases q with
  | idle => exact ⟨x, hx, rfl⟩
  | busy f n => exact Eq.symm hacc

theorem done_le (h : q.Current c s m) (hv : q.Valid c p) : q.done ≤ c.len p m := by
  cases q with
  | idle => exact Nat.zero_le _
  | busy f n =>
      rw [← c.len_of_header p h]
      exact hv.2

end Pos.Current

/-- What is at the output of a register slice continues the stream, if the stream at the input
is legal. -/
theorem legal_rData {f : ℕ → RegSlice β} {w : ℕ → Option β} {r : ℕ → Bool} {ok : β → Prop}
    (h0 : f 0 = .reset) (hf : ∀ n, f (n + 1) = RegSlice.Reverse.next (f n) (w n) (r n))
    (hl : ∀ n, Legal c p ok (stream (fun k => RegSlice.Reverse.taken (f k) (w k)) n)) (n : ℕ)
    (hx : RegSlice.Reverse.rData (f n) (w n) = some x) :
    (posOf c p (stream (fun k => RegSlice.Reverse.given (f k) (w k) (r k)) n)).Accepts c x ∧
      ok x := by
  have hstep : ∀ k, (f k).buffer.toList ++
      (RegSlice.Reverse.taken (f k) (w k)).toList.flatMap (fun y => [y]) =
      (RegSlice.Reverse.given (f k) (w k) (r k)).toList ++ (f (k + 1)).buffer.toList := by
    intro k
    rw [hf k, List.flatMap_singleton']
    exact RegSlice.Reverse.conserve_step (f k) (w k) (r k)
  have hcons := conserve hstep n
  rw [h0, List.flatMap_singleton'] at hcons
  have hstream : stream (fun k => RegSlice.Reverse.taken (f k) (w k)) (n + 1) =
      stream (fun k => RegSlice.Reverse.given (f k) (w k) (r k)) n ++ [x] := by
    rw [stream_succ, show stream (fun k => RegSlice.Reverse.taken (f k) (w k)) n = _ from hcons,
      List.append_assoc]
    congr 1
    rw [RegSlice.Reverse.rData] at hx
    cases hb : (f n).buffer with
    | none =>
        rw [hb, Option.none_or] at hx
        simp [RegSlice.Reverse.taken, RegSlice.Reverse.wReady, hb, hx]
    | some y =>
        rw [hb, Option.some_or] at hx
        simp [RegSlice.Reverse.taken, RegSlice.Reverse.wReady, hb, hx]
  have hlegal := hl (n + 1)
  rw [hstream] at hlegal
  exact hlegal.of_concat.2

end Current

end Muntjac.Tl

namespace Muntjac.Core

open Sync Tl

variable {p : LlcParams}

theorem lineOf_of_div {a b size : ℕ} (hsize : size ≤ 6) (h : a / 2 ^ size = b / 2 ^ size) :
    lineOf a = lineOf b := by
  have hpow : 2 ^ 6 = 2 ^ size * 2 ^ (6 - size) := by rw [← pow_add]; congr 1; omega
  rw [lineOf, lineOf, hpow, ← Nat.div_div_eq_div_mul, ← Nat.div_div_eq_div_mul, h]

/-- The addresses of a block of memory. -/
theorem lineOf_add {a size off : ℕ} (hsize : size ≤ 6) (ha : a % 2 ^ size = 0)
    (hoff : off < 2 ^ size) : lineOf (a + off) = lineOf a := by
  refine lineOf_of_div hsize ?_
  obtain ⟨k, rfl⟩ := Nat.dvd_of_mod_eq_zero ha
  rw [Nat.mul_add_div (Nat.two_pow_pos size), Nat.div_eq_of_lt hoff, Nat.add_zero,
    Nat.mul_div_cancel_left _ (Nat.two_pow_pos size)]

/-! ## Requests -/

/-- A message of channel A that a host may send: a block of memory in a line. -/
def Aligned (a : AMsg) : Prop := a.size ≤ 6 ∧ a.address % 2 ^ a.size = 0

namespace AcqTracker

/-- The beats of a write, not all of which are taken. -/
def Pending (x : AcqTracker p) : Prop :=
  isPut x.opcode = true ∧ x.state ≠ .idle ∧ x.state ≠ .updateTag ∧ x.state ≠ .ackWait

/-- The tracker has the message at the output of the slice, and its address is the one of the
next beat. -/
structure Writes (q : Pos AMsg) (slice : RegSlice AMsg) (x : AcqTracker p) (m : AMsg) : Prop where
  current : q.Current chanA slice m
  aligned : Aligned m
  opcode : x.opcode = m.opcode
  size : x.size = m.size
  address : x.address = m.address + 2 ^ p.nonBurst * q.done

theorem hasData_of_isPut {o : AOp} (h : isPut o = true) : o.hasData = true := by
  cases o <;> first | rfl | cases h

/-- The address is one of the line of the message. -/
theorem Writes.line_eq {q : Pos AMsg} {slice : RegSlice AMsg} {x : AcqTracker p} {m : AMsg}
    (h : x.Writes q slice m) (hv : q.Valid chanA p.burst) :
    lineOf x.address = lineOf m.address := by
  rw [h.address]
  have hle := h.current.done_le hv
  have hoff : 2 ^ p.nonBurst * q.done < 2 ^ m.size := by
    have hlen : chanA.len p.burst m ≤ 2 ^ (m.size - p.nonBurst) - 1 := by
      change Burst.len p.burst _ _ ≤ _
      unfold Burst.len BurstParams.burstLen
      split_ifs
      · exact Nat.zero_le _
      · exact Nat.mod_le _ _
      · exact Nat.zero_le _
    have hpos := Nat.two_pow_pos (m.size - p.nonBurst)
    have hpos' := Nat.two_pow_pos m.size
    rcases Nat.eq_zero_or_pos q.done with h0 | h0
    · rw [h0, Nat.mul_zero]
      exact hpos'
    · have hlt : q.done < 2 ^ (m.size - p.nonBurst) := by omega
      have hs : p.nonBurst ≤ m.size := by
        by_contra hs
        have hz : m.size - p.nonBurst = 0 := by omega
        rw [hz] at hlt
        omega
      calc 2 ^ p.nonBurst * q.done < 2 ^ p.nonBurst * 2 ^ (m.size - p.nonBurst) :=
            Nat.mul_lt_mul_of_pos_left hlt (Nat.two_pow_pos _)
        _ = 2 ^ m.size := by rw [← pow_add]; congr 1; omega
  exact lineOf_add h.aligned.1 h.aligned.2 hoff

end AcqTracker

namespace Llc
variable {s : Llc p} {i : LlcIn p} {q : Pos AMsg}

/-- The set of a tracker. -/
def acqSet (s : Llc p) (j : Fin p.acqNum) : ℕ := p.set (lineOf (s.acqTracker j).address)

theorem rel_spec (s : Llc p) (i : LlcIn p) (j : Fin p.relNum) :
    RelTracker.Steps (s.relTracker j) (s.relIn i j) ((s.step i).relTracker j) :=
  RelTracker.step_spec _ _

theorem wb_spec (s : Llc p) (i : LlcIn p) :
    WbTracker.Steps s.wbTracker (s.wbIn i) (s.step i).wbTracker := WbTracker.step_spec _ _

theorem acq_spec (s : Llc p) (i : LlcIn p) (j : Fin p.acqNum) :
    AcqTracker.Steps (s.acqTracker j) (s.acqIn i j) ((s.step i).acqTracker j) :=
  AcqTracker.step_spec _ _

/-- The invariant of channel A. -/
structure Requests (q : Pos AMsg) (s : Llc p) : Prop where
  tracks : Tracks chanA p.burst s.req q
  valid : q.Valid chanA p.burst
  size : ∀ j, (s.acqTracker j).size ≤ 6
  get : ∀ j, (s.acqTracker j).state = .get → AcqTracker.isPut (s.acqTracker j).opcode = false
  put : ∀ j, (s.acqTracker j).state = .put → AcqTracker.isPut (s.acqTracker j).opcode = true
  pending : ∀ j, (s.acqTracker j).Pending → ∃ m, (s.acqTracker j).Writes q s.hostAReg m
  owner : q ≠ .idle → ∃ j, (s.acqTracker j).state = .put
  sets : ∀ j k, (s.acqTracker j).state ≠ .idle → (s.acqTracker k).state ≠ .idle →
    s.acqSet j = s.acqSet k → j = k

/-- The tracker that a beat is routed to has its set, or no tracker has it. -/
theorem routedA_spec {a : AMsg} (ha : s.hostA i = some a) {j : Fin p.acqNum}
    (h : s.routedA i j = true) :
    (s.matchA a j = true) ∨
      ((∀ k, s.matchA a k = false) ∧ s.blockedA i a = false ∧
        lastIdx (fun k => decide ((s.acqTracker k).state = .idle)) = some j) := by
  rw [routedA, ha, Option.any_some] at h
  split_ifs at h with h1 h2
  · exact .inl h
  · refine .inr ⟨fun k => ?_, by simpa using h2, by simpa using h⟩
    simpa using not_exists.mp h1 k

theorem matchA_iff {a : AMsg} {j : Fin p.acqNum} : s.matchA a j = true ↔
    (s.acqTracker j).state ≠ .idle ∧ s.acqSet j = p.set (lineOf a.address) := by
  simp [matchA, acqSet]

/-- What a tracker sees on channel A. -/
theorem offeredA_iff {a : AMsg} {j : Fin p.acqNum} :
    AcqTracker.offeredA (s.acqIn i j) = some a ↔ s.hostA i = some a ∧ s.routedA i j = true := by
  unfold AcqTracker.offeredA acqIn
  cases s.routedA i j <;> simp

/-- The beat on channel A that is taken, and the tracker that takes it. -/
theorem hostAFires_some {a : AMsg} (h : s.hostAFires i = some a) :
    s.hostA i = some a ∧ s.hostAReady i = true ∧
      ∃ j, (s.acqTracker j).hostAReady (s.acqIn i j) = true := by
  unfold hostAFires RegSlice.Reverse.given at h
  split_ifs at h with hr
  exact ⟨h, hr, of_decide_eq_true hr⟩

theorem hostAFires_none (h : s.hostAFires i = none) (ha : (s.hostA i).isSome = true) :
    s.hostAReady i = false := by
  unfold hostAFires RegSlice.Reverse.given at h
  split_ifs at h with hr
  · rw [show s.hostA i = none from h] at ha
    cases ha
  · simpa using hr

/-- A tracker that takes a beat. -/
theorem hostAReady_spec {j : Fin p.acqNum} (h : (s.acqTracker j).hostAReady (s.acqIn i j) = true) :
    ∃ a, s.hostA i = some a ∧ s.routedA i j = true ∧
      (((s.acqTracker j).state = .idle ∧ a.opcode.hasData = false) ∨
        (s.acqTracker j).state = .put) := by
  unfold AcqTracker.hostAReady at h
  cases hs : (s.acqTracker j).state <;> rw [hs] at h <;> try cases h
  · cases ho : AcqTracker.offeredA (s.acqIn i j) with
    | none =>
        rw [ho] at h
        cases h
    | some a =>
        rw [ho, Option.any_some, Bool.not_eq_true'] at h
        obtain ⟨ha, hrouted⟩ := offeredA_iff.mp ho
        exact ⟨a, ha, hrouted, .inl ⟨rfl, h⟩⟩
  · simp only [Bool.and_eq_true] at h
    obtain ⟨a, ho⟩ := Option.isSome_iff_exists.mp h.1.1
    obtain ⟨ha, hrouted⟩ := offeredA_iff.mp ho
    exact ⟨a, ha, hrouted, .inr rfl⟩

namespace Requests

/-- The message of a write is at the output of the slice. -/
theorem match_of_pending (h : s.Requests q)
    (hA : ∀ a, s.hostA i = some a → q.Accepts chanA a ∧ Aligned a) {j : Fin p.acqNum}
    (hj : (s.acqTracker j).Pending) {a : AMsg} (ha : s.hostA i = some a) :
    s.matchA a j = true := by
  obtain ⟨m, hm⟩ := h.pending j hj
  have hhead := hm.current.header_eq ha (hA a ha).1
  have haddr : a.address = m.address := AMsg.address_of_header hhead
  rw [matchA_iff, acqSet, hm.line_eq h.valid, haddr]
  exact ⟨hj.2.1, rfl⟩

/-- No other tracker takes a beat. -/
theorem eq_of_ready (h : s.Requests q)
    (hA : ∀ a, s.hostA i = some a → q.Accepts chanA a ∧ Aligned a) {j k : Fin p.acqNum}
    (hj : (s.acqTracker j).Pending)
    (hk : (s.acqTracker k).hostAReady (s.acqIn i k) = true) : k = j := by
  obtain ⟨a, ha, hrouted, -⟩ := hostAReady_spec hk
  have hmatch := h.match_of_pending hA hj ha
  rcases routedA_spec ha hrouted with hkm | ⟨hnone, -⟩
  · obtain ⟨hjs, hjset⟩ := matchA_iff.mp hmatch
    obtain ⟨hks, hkset⟩ := matchA_iff.mp hkm
    exact h.sets k j hks hjs (hkset.trans hjset.symm)
  · rw [hnone j] at hmatch
    cases hmatch

theorem not_ready (h : s.Requests q)
    (hA : ∀ a, s.hostA i = some a → q.Accepts chanA a ∧ Aligned a) {j : Fin p.acqNum}
    (hj : (s.acqTracker j).Pending)
    (hready : (s.acqTracker j).hostAReady (s.acqIn i j) = false) : s.hostAReady i = false := by
  by_contra hr
  obtain ⟨k, hk⟩ : ∃ k, (s.acqTracker k).hostAReady (s.acqIn i k) = true := by
    simpa [hostAReady] using hr
  have heq := h.eq_of_ready hA hj hk
  rw [heq, hready] at hk
  cases hk

/-- A tracker takes a new message between messages, and one with data waits. -/
theorem start_spec (h : s.Requests q)
    (hA : ∀ a, s.hostA i = some a → q.Accepts chanA a ∧ Aligned a) {j : Fin p.acqNum}
    (hj : (s.acqTracker j).state = .idle) {a : AMsg}
    (ho : AcqTracker.offeredA (s.acqIn i j) = some a) :
    s.hostA i = some a ∧ q = .idle ∧ (∀ k, s.matchA a k = false) ∧ s.blockedA i a = false ∧
      lastIdx (fun k => decide ((s.acqTracker k).state = .idle)) = some j ∧
      (a.opcode.hasData = true → s.hostAReady i = false) := by
  obtain ⟨ha, hrouted⟩ := offeredA_iff.mp ho
  have hnot : s.matchA a j = false := by
    cases hm : s.matchA a j with
    | false => rfl
    | true => exact absurd hj (matchA_iff.mp hm).1
  rcases routedA_spec ha hrouted with hm | ⟨hnone, hblocked, hlast⟩
  · rw [hnot] at hm
    cases hm
  · refine ⟨ha, ?_, hnone, hblocked, hlast, fun hdata => ?_⟩
    · by_contra hq
      obtain ⟨k, hk⟩ := h.owner hq
      have hpend : (s.acqTracker k).Pending :=
        ⟨h.put k hk, by simp [hk], by simp [hk], by simp [hk]⟩
      have hmatch := h.match_of_pending hA hpend ha
      rw [hnone k] at hmatch
      cases hmatch
    · by_contra hr
      obtain ⟨k, hk⟩ : ∃ k, (s.acqTracker k).hostAReady (s.acqIn i k) = true := by
        simpa [hostAReady] using hr
      obtain ⟨b, hb, hroutedk, hstate⟩ := hostAReady_spec hk
      rw [ha, Option.some.injEq] at hb
      subst hb
      rcases hstate with ⟨-, hdata'⟩ | hput
      · rw [hdata] at hdata'
        cases hdata'
      · rcases routedA_spec ha hroutedk with hm | ⟨-, -, hlast'⟩
        · rw [hnone k] at hm
          cases hm
        · rw [hlast, Option.some.injEq] at hlast'
          rw [← hlast', hj] at hput
          cases hput

/-- The position after a cycle. -/
theorem after_spec (h : s.Requests q)
    (hA : ∀ a, s.hostA i = some a → q.Accepts chanA a ∧ Aligned a) :
    Tracks chanA p.burst (s.step i).req (q.after chanA p.burst (s.hostAFires i)) ∧
      (q.after chanA p.burst (s.hostAFires i)).Valid chanA p.burst := by
  change Tracks chanA p.burst (s.req.after chanA p.burst (s.hostAFires i)) _ ∧ _
  cases hf : s.hostAFires i with
  | none => exact ⟨h.tracks, h.valid⟩
  | some a =>
      have hacc := (hA a (hostAFires_some hf).1).1
      exact ⟨h.tracks.next hacc, Pos.valid_next h.valid hacc⟩

/-- A beat of a write that is not the last one. -/
theorem beat_spec (h : s.Requests q)
    (hA : ∀ a, s.hostA i = some a → q.Accepts chanA a ∧ Aligned a) {j : Fin p.acqNum}
    {y : AcqTracker p} (hs : (s.acqTracker j).state = .put)
    (hready : (s.acqTracker j).hostAReady (s.acqIn i j) = true) (hlast : s.hostALast i = false)
    (hopcode : y.opcode = (s.acqTracker j).opcode) (hsize : y.size = (s.acqTracker j).size)
    (haddress : y.address = (s.acqTracker j).address + 2 ^ p.nonBurst) :
    ∃ m, (s.acqTracker j).Writes q s.hostAReg m ∧
      y.Writes (q.after chanA p.burst (s.hostAFires i)) (s.step i).hostAReg m := by
  have hpend : (s.acqTracker j).Pending := ⟨h.put j hs, by simp [hs], by simp [hs], by simp [hs]⟩
  obtain ⟨m, hm⟩ := h.pending j hpend
  obtain ⟨a, ha, -, -⟩ := hostAReady_spec hready
  have hall : s.hostAReady i = true := decide_eq_true ⟨j, hready⟩
  have hfires : s.hostAFires i = some a := by
    unfold hostAFires RegSlice.Reverse.given
    rw [if_pos hall]
    exact ha
  have hacc := (hA a ha).1
  have hne : q.done ≠ chanA.len p.burst a := by
    have hl := h.tracks.last_eq hacc
    unfold hostALast at hlast
    rw [ha, Option.any_some] at hlast
    exact of_decide_eq_false (hl.symm.trans hlast)
  refine ⟨m, hm, ?_, hm.aligned, hopcode.trans hm.opcode, hsize.trans hm.size, ?_⟩
  · rw [hfires]
    exact hm.current.beat ha hacc hne _
  · obtain ⟨f, hnext, -⟩ := Pos.next_of_ne_last hne hacc
    have hdone : (q.after chanA p.burst (s.hostAFires i)).done = q.done + 1 := by
      rw [hfires]
      exact congrArg Pos.done hnext
    rw [haddress, hm.address, hdone, Nat.mul_add, Nat.mul_one, Nat.add_assoc]

/-- A tracker stays with its line. -/
theorem line_eq (h : s.Requests q)
    (hA : ∀ a, s.hostA i = some a → q.Accepts chanA a ∧ Aligned a) {j : Fin p.acqNum}
    (hj : (s.acqTracker j).state ≠ .idle) :
    lineOf ((s.step i).acqTracker j).address = lineOf (s.acqTracker j).address := by
  have hsame : ∀ {y}, AcqTracker.Same (s.acqTracker j) y →
      lineOf y.address = lineOf (s.acqTracker j).address := fun hy => by rw [hy.address]
  cases s.acq_spec i j with
  | quiet state _ _ => exact absurd state hj
  | start state => exact absurd state hj
  | wait _ _ same => exact hsame same
  | read _ _ _ same => exact hsame same
  | check _ _ same _ => exact hsame same
  | run _ _ same _ => exact hsame same
  | refill _ _ _ _ _ same _ => exact hsame same
  | get _ _ _ _ address _ => exact lineOf_of_div (h.size j) address
  | put _ _ _ same _ => exact hsame same
  | beat state ready last state' opcode size address tag =>
      obtain ⟨m, hm, hm'⟩ := h.beat_spec hA state ready last opcode size address
      exact (hm'.line_eq (h.after_spec hA).2).trans (hm.line_eq h.valid).symm
  | wrote _ _ _ _ same _ => exact hsame same
  | update _ _ same _ => exact hsame same
  | finish _ _ same _ => exact hsame same

/-- A write goes on. -/
theorem stay_spec (h : s.Requests q)
    (hA : ∀ a, s.hostA i = some a → q.Accepts chanA a ∧ Aligned a) {j : Fin p.acqNum}
    {y : AcqTracker p} (hj : (s.acqTracker j).Pending)
    (hready : (s.acqTracker j).hostAReady (s.acqIn i j) = false)
    (hsame : AcqTracker.Same (s.acqTracker j) y) :
    ∃ m, y.Writes (q.after chanA p.burst (s.hostAFires i)) (s.step i).hostAReg m := by
  obtain ⟨m, hm⟩ := h.pending j hj
  have hr := h.not_ready hA hj hready
  have hfires : s.hostAFires i = none := by
    unfold hostAFires RegSlice.Reverse.given
    rw [hr]
    rfl
  refine ⟨m, ?_, hm.aligned, hsame.opcode.trans hm.opcode, hsame.size.trans hm.size, ?_⟩
  · rw [hfires]
    change q.Current chanA (RegSlice.Reverse.next s.hostAReg i.hostA (s.hostAReady i)) m
    rw [hr]
    exact hm.current.keep
  · rw [hfires, hsame.address, hm.address]
    rfl

theorem ready_eq_false {j : Fin p.acqNum} (hidle : (s.acqTracker j).state ≠ .idle)
    (hput : (s.acqTracker j).state ≠ .put) :
    (s.acqTracker j).hostAReady (s.acqIn i j) = false := by
  by_contra hr
  obtain ⟨a, -, -, hstate⟩ := hostAReady_spec (Bool.not_eq_false _ ▸ hr)
  rcases hstate with ⟨hs, -⟩ | hs
  · exact hidle hs
  · exact hput hs

theorem pending_step (h : s.Requests q)
    (hA : ∀ a, s.hostA i = some a → q.Accepts chanA a ∧ Aligned a) {j : Fin p.acqNum}
    (hj : ((s.step i).acqTracker j).Pending) :
    ∃ m, ((s.step i).acqTracker j).Writes (q.after chanA p.burst (s.hostAFires i))
      (s.step i).hostAReg m := by
  obtain ⟨hput, hidle', hupdate', hack'⟩ := hj
  have hstay : ∀ hsame : AcqTracker.Same (s.acqTracker j) ((s.step i).acqTracker j),
      (s.acqTracker j).state ≠ .idle → (s.acqTracker j).state ≠ .updateTag →
      (s.acqTracker j).state ≠ .ackWait →
      (s.acqTracker j).hostAReady (s.acqIn i j) = false →
      ∃ m, ((s.step i).acqTracker j).Writes (q.after chanA p.burst (s.hostAFires i))
        (s.step i).hostAReg m := fun hsame h1 h2 h3 hready =>
    h.stay_spec hA ⟨hsame.opcode ▸ hput, h1, h2, h3⟩ hready hsame
  cases s.acq_spec i j with
  | quiet _ state' _ => exact absurd state' hidle'
  | start state a offered _ opcode size address =>
      obtain ⟨ha, hq, -, -, -, hwait⟩ := h.start_spec hA state offered
      have hr := hwait (AcqTracker.hasData_of_isPut (opcode ▸ hput))
      have hfires : s.hostAFires i = none := by
        unfold hostAFires RegSlice.Reverse.given
        rw [hr]
        rfl
      refine ⟨a, ?_, (hA a ha).2, opcode, size, ?_⟩
      · rw [hfires]
        change q.Current chanA (RegSlice.Reverse.next s.hostAReg i.hostA (s.hostAReady i)) a
        rw [hr]
        exact .of_rData ha (hA a ha).1
      · rw [hfires, hq]
        exact address
  | wait state _ same =>
      exact hstay same (by simp [state]) (by simp [state]) (by simp [state])
        (ready_eq_false (by simp [state]) (by simp [state]))
  | read state _ _ same =>
      exact hstay same (by simp [state]) (by simp [state]) (by simp [state])
        (ready_eq_false (by simp [state]) (by simp [state]))
  | check state _ same _ =>
      exact hstay same (by simp [state]) (by simp [state]) (by simp [state])
        (ready_eq_false (by simp [state]) (by simp [state]))
  | run state _ same _ =>
      rcases state with state | state | state <;>
        exact hstay same (by simp [state]) (by simp [state]) (by simp [state])
          (ready_eq_false (by simp [state]) (by simp [state]))
  | refill state _ _ _ _ same _ =>
      exact hstay same (by simp [state]) (by simp [state]) (by simp [state])
        (ready_eq_false (by simp [state]) (by simp [state]))
  | get state _ opcode _ _ _ =>
      have hget := h.get j state
      rw [← opcode] at hget
      exact absurd (hput.symm.trans hget) (by simp)
  | put state ready _ same _ =>
      exact hstay same (by simp [state]) (by simp [state]) (by simp [state]) ready
  | beat state ready last _ opcode size address _ =>
      obtain ⟨m, -, hm⟩ := h.beat_spec hA state ready last opcode size address
      exact ⟨m, hm⟩
  | wrote _ _ _ state' _ _ => exact absurd state' hupdate'
  | update _ state' _ _ => exact (state'.elim hupdate' hack').elim
  | finish _ state' _ _ => exact (state'.elim hack' hidle').elim

/-- A message that has begun has a tracker. -/
theorem owner_step (h : s.Requests q)
    (hA : ∀ a, s.hostA i = some a → q.Accepts chanA a ∧ Aligned a)
    (hq : q.after chanA p.burst (s.hostAFires i) ≠ .idle) :
    ∃ j, ((s.step i).acqTracker j).state = .put := by
  cases hf : s.hostAFires i with
  | none =>
      rw [hf] at hq
      obtain ⟨j, hj⟩ := h.owner hq
      have hready : (s.acqTracker j).hostAReady (s.acqIn i j) = false := by
        by_contra hr
        have hr' : (s.acqTracker j).hostAReady (s.acqIn i j) = true := by simpa using hr
        obtain ⟨a, ha, -, -⟩ := hostAReady_spec hr'
        have hall : s.hostAReady i = true := decide_eq_true ⟨j, hr'⟩
        rw [hostAFires_none hf (by rw [ha]; rfl)] at hall
        cases hall
      refine ⟨j, ?_⟩
      cases s.acq_spec i j with
      | put _ _ state' _ _ => exact state'
      | beat _ ready _ _ _ _ _ _ => exact absurd (hready.symm.trans ready) (by simp)
      | wrote _ ready _ _ _ _ => exact absurd (hready.symm.trans ready) (by simp)
      | run state _ _ _ => rcases state with state | state | state <;> simp [hj] at state
      | quiet state _ _ | start state _ _ _ _ _ _ | wait state _ _ | read state _ _ _
      | check state _ _ _ | refill state _ _ _ _ _ _ | get state _ _ _ _ _ | update state _ _ _
      | finish state _ _ _ => simp [hj] at state
  | some a =>
      obtain ⟨ha, -, j, hready⟩ := hostAFires_some hf
      obtain ⟨b, hb, -, hstate⟩ := hostAReady_spec hready
      rw [ha, Option.some.injEq] at hb
      subst hb
      have hacc := (hA a ha).1
      have hne : q.done ≠ chanA.len p.burst a := by
        intro heq
        rw [hf] at hq
        exact hq (Pos.next_of_last heq)
      rcases hstate with ⟨-, hdata⟩ | hput
      · have hlen : chanA.len p.burst a = 0 := by
          change Burst.len _ a.opcode.hasData _ = 0
          rw [hdata]
          rfl
        have hle := Pos.done_le h.valid hacc
        omega
      · have hlast : s.hostALast i = false := by
          unfold hostALast
          rw [ha, Option.any_some]
          exact (h.tracks.last_eq hacc).trans (decide_eq_false hne)
        refine ⟨j, ?_⟩
        cases s.acq_spec i j with
        | put _ _ state' _ _ => exact state'
        | beat _ _ _ state' _ _ _ _ => exact state'
        | wrote _ _ last _ _ _ => exact absurd (hlast.symm.trans last) (by simp)
        | run state _ _ _ => rcases state with state | state | state <;> simp [hput] at state
        | quiet state _ _ | start state _ _ _ _ _ _ | wait state _ _ | read state _ _ _
        | check state _ _ _ | refill state _ _ _ _ _ _ | get state _ _ _ _ _ | update state _ _ _
        | finish state _ _ _ => simp [hput] at state

/-- A tracker with a request had it before, or has just taken it. -/
theorem busy_step (h : s.Requests q)
    (hA : ∀ a, s.hostA i = some a → q.Accepts chanA a ∧ Aligned a) {j : Fin p.acqNum}
    (hj : ((s.step i).acqTracker j).state ≠ .idle) :
    ((s.acqTracker j).state ≠ .idle ∧
        lineOf ((s.step i).acqTracker j).address = lineOf (s.acqTracker j).address) ∨
      ((s.acqTracker j).state = .idle ∧ ∃ a, AcqTracker.offeredA (s.acqIn i j) = some a ∧
        ((s.step i).acqTracker j).address = a.address) := by
  by_cases hs : (s.acqTracker j).state = .idle
  · refine .inr ⟨hs, ?_⟩
    cases s.acq_spec i j with
    | quiet _ state' _ => exact absurd state' hj
    | start _ a offered _ _ _ address => exact ⟨a, offered, address⟩
    | run state _ _ _ => rcases state with state | state | state <;> simp [hs] at state
    | wait state _ _ | read state _ _ _ | check state _ _ _ | refill state _ _ _ _ _ _
    | get state _ _ _ _ _ | put state _ _ _ _ | beat state _ _ _ _ _ _ _ | wrote state _ _ _ _ _
    | update state _ _ _ | finish state _ _ _ => simp [hs] at state
  · exact .inl ⟨hs, h.line_eq hA hs⟩

theorem sets_step (h : s.Requests q)
    (hA : ∀ a, s.hostA i = some a → q.Accepts chanA a ∧ Aligned a) {j k : Fin p.acqNum}
    (hj : ((s.step i).acqTracker j).state ≠ .idle) (hk : ((s.step i).acqTracker k).state ≠ .idle)
    (heq : (s.step i).acqSet j = (s.step i).acqSet k) : j = k := by
  -- a new request has a set that no tracker has
  have hnew : ∀ {l l' : Fin p.acqNum} {a : AMsg}, (s.acqTracker l).state = .idle →
      AcqTracker.offeredA (s.acqIn i l) = some a →
      ((s.step i).acqTracker l).address = a.address → (s.acqTracker l').state ≠ .idle →
      lineOf ((s.step i).acqTracker l').address = lineOf (s.acqTracker l').address →
      (s.step i).acqSet l' ≠ (s.step i).acqSet l := by
    intro l l' a hidle ho haddr hbusy hline hset
    obtain ⟨-, -, hnone, -⟩ := h.start_spec hA hidle ho
    have hmatch : s.matchA a l' = true := by
      rw [matchA_iff]
      refine ⟨hbusy, ?_⟩
      rw [acqSet, acqSet, hline, haddr] at hset
      exact hset
    rw [hnone l'] at hmatch
    cases hmatch
  rcases h.busy_step hA hj with ⟨hjs, hjline⟩ | ⟨hjs, a, hjo, hja⟩ <;>
    rcases h.busy_step hA hk with ⟨hks, hkline⟩ | ⟨hks, b, hko, hkb⟩
  · refine h.sets j k hjs hks ?_
    rw [acqSet, acqSet, hjline, hkline] at heq
    exact heq
  · exact absurd heq (hnew hks hko hkb hjs hjline)
  · exact absurd heq.symm (hnew hjs hjo hja hks hkline)
  · obtain ⟨-, -, -, -, hlast, -⟩ := h.start_spec hA hjs hjo
    obtain ⟨-, -, -, -, hlast', -⟩ := h.start_spec hA hks hko
    exact Option.some_injective _ (hlast.symm.trans hlast')

/-- One cycle. -/
theorem step (h : s.Requests q)
    (hA : ∀ a, s.hostA i = some a → q.Accepts chanA a ∧ Aligned a) :
    (s.step i).Requests (q.after chanA p.burst (s.hostAFires i)) where
  tracks := (h.after_spec hA).1
  valid := (h.after_spec hA).2
  size j := by
    have hle := h.size j
    cases s.acq_spec i j with
    | start _ a offered _ _ size _ =>
        have ha := (offeredA_iff.mp offered).1
        exact size.le.trans (hA a ha).2.1
    | quiet _ _ same | wait _ _ same | read _ _ _ same | check _ _ same _ | run _ _ same _
    | refill _ _ _ _ _ same _ | put _ _ _ same _ | wrote _ _ _ _ same _ | update _ _ same _
    | finish _ _ same _ => exact same.size.le.trans hle
    | get _ _ _ size _ _ | beat _ _ _ _ _ size _ _ => exact size.le.trans hle
  get j hj := by
    cases s.acq_spec i j with
    | check _ state' same _ =>
        rw [same.opcode]
        rcases state' with h' | h' | h' | h' | ⟨-, h'⟩ | ⟨h', -⟩ | ⟨-, h'⟩ <;>
          first
            | exact h'
            | exact absurd (hj.symm.trans h') (by simp)
    | get state _ opcode _ _ _ =>
        rw [opcode]
        exact h.get j state
    | run _ state' _ _ =>
        rcases state' with h' | h' | h' | h' <;> exact absurd (hj.symm.trans h') (by simp)
    | update _ state' _ _ | finish _ state' _ _ =>
        rcases state' with h' | h' <;> exact absurd (hj.symm.trans h') (by simp)
    | quiet _ state' _ | start _ _ _ state' _ _ _ | wait _ state' _ | read _ _ state' _
    | refill _ _ _ _ state' _ _ | put _ _ state' _ _ | beat _ _ _ state' _ _ _ _
    | wrote _ _ _ state' _ _ => exact absurd (hj.symm.trans state') (by simp)
  put j hj := by
    cases s.acq_spec i j with
    | check _ state' same _ =>
        rw [same.opcode]
        rcases state' with h' | h' | h' | h' | ⟨h', -⟩ | ⟨-, h'⟩ | ⟨h', -⟩ <;>
          first
            | exact h'
            | exact absurd (hj.symm.trans h') (by simp)
    | put state _ _ same _ =>
        rw [same.opcode]
        exact h.put j state
    | beat state _ _ _ opcode _ _ _ =>
        rw [opcode]
        exact h.put j state
    | run _ state' _ _ =>
        rcases state' with h' | h' | h' | h' <;> exact absurd (hj.symm.trans h') (by simp)
    | get _ state' _ _ _ _ | update _ state' _ _ | finish _ state' _ _ =>
        rcases state' with h' | h' <;> exact absurd (hj.symm.trans h') (by simp)
    | quiet _ state' _ | start _ _ _ state' _ _ _ | wait _ state' _ | read _ _ state' _
    | refill _ _ _ _ state' _ _ | wrote _ _ _ state' _ _ =>
        exact absurd (hj.symm.trans state') (by simp)
  pending _ hj := h.pending_step hA hj
  owner hq := h.owner_step hA hq
  sets _ _ hj hk heq := h.sets_step hA hj hk heq

/-- After reset. -/
theorem of_isReset (h : s.IsReset) : s.Requests .idle where
  tracks := h.req ▸ tracks_reset
  valid := trivial
  size j := by rw [(h.acqTracker j).size]; exact Nat.zero_le _
  get j hj := absurd (hj.symm.trans (h.acqTracker j).state) (by simp)
  put j hj := absurd (hj.symm.trans (h.acqTracker j).state) (by simp)
  pending j hj := absurd (h.acqTracker j).state hj.2.1
  owner hq := absurd rfl hq
  sets j _ hj := absurd (h.acqTracker j).state hj

end Requests

/-! ## Releases -/

/-- A tracker of a release has a message that is not taken, or not taken as a whole. -/
def relWaits (s : Llc p) (j : Fin p.relNum) : Prop :=
  (s.relTracker j).state = .readTag ∨ (s.relTracker j).state = .checkTag ∨
    (s.relTracker j).state = .doing

/-- The invariant of channel C. -/
structure Releases (q : Pos CMsg) (s : Llc p) : Prop where
  tracks : Tracks chanC p.burst s.rel q
  valid : q.Valid chanC p.burst
  current : ∀ j, s.relWaits j →
    ∃ m, q.Current chanC s.hostCReg m ∧ m.address = (s.relTracker j).address
  rels : ∀ j k, (s.relTracker j).state ≠ .idle → (s.relTracker k).state ≠ .idle →
    lineOf (s.relTracker j).address = lineOf (s.relTracker k).address → j = k
  relWb : ∀ j, (s.relTracker j).state ≠ .idle → s.wbTracker.state ≠ .idle →
    s.wbTracker.address ≠ lineOf (s.relTracker j).address
  relAcq : ∀ j k, (s.relTracker j).state ≠ .idle → (s.acqTracker k).state ≠ .idle →
    lineOf (s.acqTracker k).address ≠ lineOf (s.relTracker j).address

section Channel
variable {c : CMsg} {j : Fin p.relNum}

theorem matchedC_of_match {k : LlcPort p} (h : s.matchC c k = true) : s.matchedC c = true := by
  unfold matchedC
  cases k with
  | rel j => simp only [decide_eq_true (⟨j, h⟩ : ∃ j, s.matchC c (.rel j) = true), Bool.true_or]
  | wb => simp only [h, Bool.or_true, Bool.true_or]
  | acq j => simp only [decide_eq_true (⟨j, h⟩ : ∃ j, s.matchC c (.acq j) = true), Bool.or_true]

/-- The tracker that a beat is routed to has its line, or no tracker has it. -/
theorem routedC_spec (hc : s.hostC i = some c) {k : LlcPort p} (h : s.routedC i k = true) :
    s.matchC c k = true ∨
      (s.matchedC c = false ∧
        (lastIdx fun j => decide ((s.relTracker j).state = .idle)).map .rel = some k) := by
  rw [routedC, hc, Option.any_some] at h
  split_ifs at h with hm
  · exact .inl h
  · exact .inr ⟨by simpa using hm, by simpa using h⟩

theorem offeredC_iff {routed : Bool} {o : Option CMsg} :
    (if routed then o else none) = some c ↔ o = some c ∧ routed = true := by
  cases routed <;> simp

/-- Some tracker that a beat is routed to takes it. -/
theorem hostCReady_spec (h : s.hostCReady i = true) :
    (∃ j, (s.relTracker j).hostCReady (s.relIn i j) = true) ∨
      ∃ c k, s.hostC i = some c ∧ s.routedC i k = true ∧
        ((k = .wb ∧ s.wbTracker.state ≠ .idle) ∨
          ∃ j, k = .acq j ∧ (s.acqTracker j).state ≠ .idle) := by
  simp only [hostCReady, Bool.or_eq_true, decide_eq_true_eq] at h
  rcases h with (h | h) | ⟨j, h⟩
  · exact .inl h
  · rw [WbTracker.hostCReady, Bool.and_eq_true, decide_eq_true_eq] at h
    obtain ⟨c, ho, -⟩ := (Option.any_eq_true _ _).mp h.2
    obtain ⟨hc, hrouted⟩ := offeredC_iff.mp ho
    exact .inr ⟨c, .wb, hc, hrouted, .inl ⟨rfl, by simp [h.1]⟩⟩
  · rw [AcqTracker.hostCReady, Bool.and_eq_true, decide_eq_true_eq] at h
    obtain ⟨c, ho, -⟩ := (Option.any_eq_true _ _).mp h.2
    obtain ⟨hc, hrouted⟩ := offeredC_iff.mp ho
    exact .inr ⟨c, .acq j, hc, hrouted, .inr ⟨j, rfl, by simp [h.1]⟩⟩

theorem relReady_spec (h : (s.relTracker j).hostCReady (s.relIn i j) = true) :
    (s.relTracker j).state = .doing ∧ ∃ c, s.hostC i = some c ∧ s.routedC i (.rel j) = true := by
  rw [RelTracker.hostCReady, Bool.and_eq_true, decide_eq_true_eq] at h
  obtain ⟨c, ho, -⟩ := (Option.any_eq_true _ _).mp h.2
  exact ⟨h.1, c, offeredC_iff.mp ho⟩

/-- A new release has a line that no tracker has, and waits. -/
theorem release_start (hs : (s.relTracker j).state = .idle)
    (ho : RelTracker.offered (s.relIn i j) = some c) :
    s.hostC i = some c ∧ s.matchedC c = false ∧
      (lastIdx fun j => decide ((s.relTracker j).state = .idle)) = some j ∧
      s.hostCReady i = false := by
  obtain ⟨hc, hrouted⟩ := offeredC_iff.mp ho
  rcases routedC_spec hc hrouted with hm | ⟨hnone, hlast⟩
  · simp [matchC, hs] at hm
  · have hlast' : lastIdx (fun j => decide ((s.relTracker j).state = .idle)) = some j := by
      obtain ⟨k, hk, hkj⟩ := Option.map_eq_some_iff.mp hlast
      cases hkj
      exact hk
    refine ⟨hc, hnone, hlast', ?_⟩
    by_contra hr
    rcases hostCReady_spec (Bool.not_eq_false _ ▸ hr) with ⟨k, hk⟩ | ⟨d, k, hd, hk, hstate⟩
    · obtain ⟨hdoing, d, hd, hroutedk⟩ := relReady_spec hk
      have hcd : d = c := Option.some_injective _ (hd.symm.trans hc)
      subst hcd
      rcases routedC_spec hd hroutedk with hm | ⟨-, hlastk⟩
      · rw [matchedC_of_match hm] at hnone
        cases hnone
      · rw [hlast', Option.map_some, Option.some.injEq] at hlastk
        cases hlastk
        rw [hs] at hdoing
        cases hdoing
    · have hcd : d = c := Option.some_injective _ (hd.symm.trans hc)
      subst hcd
      rcases routedC_spec hd hk with hm | ⟨-, hlastk⟩
      · rw [matchedC_of_match hm] at hnone
        cases hnone
      · rw [hlast', Option.map_some, Option.some.injEq] at hlastk
        rcases hstate with ⟨rfl, -⟩ | ⟨l, rfl, -⟩ <;> cases hlastk

/-- A tracker of a release that is not idle was not, or it has just taken a message. -/
theorem rel_busy_step (hj : ((s.step i).relTracker j).state ≠ .idle) :
    ((s.relTracker j).state ≠ .idle ∧
        ((s.step i).relTracker j).address = (s.relTracker j).address) ∨
      ((s.relTracker j).state = .idle ∧ ∃ c, RelTracker.offered (s.relIn i j) = some c ∧
        ((s.step i).relTracker j).address = c.address) := by
  cases s.rel_spec i j with
  | stay state address _ _ _ _ => exact .inl ⟨state ▸ hj, address⟩
  | start state c offered address _ => exact .inr ⟨state, c, offered, address⟩
  | read state _ _ address | miss state _ address | hit state _ address _
  | beat state _ _ _ address _ _ | finish state _ _ address _ _ =>
      exact .inl ⟨by simp [state], address⟩
  | finished _ state' => exact absurd state' hj

theorem wb_busy_step (hw : (s.step i).wbTracker.state ≠ .idle) :
    (s.wbTracker.state ≠ .idle ∧ (s.step i).wbTracker.address = s.wbTracker.address) ∨
      (s.wbTracker.state = .idle ∧ s.wbReqBlocked i = false ∧ ∃ r, s.wbReq i = some r ∧
        (s.step i).wbTracker.address = r.address) := by
  cases s.wb_spec i with
  | quiet _ state' => exact absurd state' hw
  | start state r req blocked address _ => exact .inr ⟨state, blocked, r, req, address⟩
  | wait state _ address | read state _ _ address | check state _ address _ =>
      exact .inl ⟨by simp [state], address⟩
  | run state _ address _ =>
      refine .inl ⟨fun hs => ?_, address⟩
      rw [hs] at state
      cases state
  | finish _ state' => exact absurd state' hw

end Channel

namespace Releases
variable {q : Pos CMsg} {qA : Pos AMsg} {j : Fin p.relNum}

/-- The message of a release is at the output of the slice. -/
theorem match_of_waits (h : s.Releases q) (hC : ∀ c, s.hostC i = some c → q.Accepts chanC c)
    (hj : s.relWaits j) {c : CMsg} (hc : s.hostC i = some c) : s.matchC c (.rel j) = true := by
  obtain ⟨m, hm, haddr⟩ := h.current j hj
  have heq : c.address = m.address := CMsg.address_of_header (hm.header_eq hc (hC c hc))
  have hidle : (s.relTracker j).state ≠ .idle := by
    rcases hj with hj | hj | hj <;> simp [hj]
  simp [matchC, hidle, heq, haddr]

/-- Only its own tracker takes a beat of a release. -/
theorem ready_of_waits (h : s.Releases q) (hC : ∀ c, s.hostC i = some c → q.Accepts chanC c)
    (hj : s.relWaits j) (hr : s.hostCReady i = true) :
    (s.relTracker j).hostCReady (s.relIn i j) = true := by
  have hidle : (s.relTracker j).state ≠ .idle := by
    rcases hj with hj | hj | hj <;> simp [hj]
  have hroute : ∀ {c k}, s.hostC i = some c → s.routedC i k = true → s.matchC c k = true := by
    intro c k hc hk
    rcases routedC_spec hc hk with hm | ⟨hnone, -⟩
    · exact hm
    · rw [matchedC_of_match (h.match_of_waits hC hj hc)] at hnone
      cases hnone
  have hline : ∀ {c}, s.hostC i = some c → lineOf (s.relTracker j).address = lineOf c.address := by
    intro c hc
    have hm := h.match_of_waits hC hj hc
    simp only [matchC, decide_eq_true_eq] at hm
    exact hm.2
  rcases hostCReady_spec hr with ⟨k, hk⟩ | ⟨c, k, hc, hk, ⟨rfl, hw⟩ | ⟨l, rfl, hl⟩⟩
  · obtain ⟨hdoing, c, hc, hrouted⟩ := relReady_spec hk
    have hm := hroute hc hrouted
    simp only [matchC, decide_eq_true_eq] at hm
    have heq := h.rels j k hidle hm.1 ((hline hc).trans hm.2.symm)
    rw [heq]
    exact hk
  · have hm := hroute hc hk
    simp only [matchC, decide_eq_true_eq] at hm
    exact absurd (hm.2.trans (hline hc).symm) (h.relWb j hidle hw)
  · have hm := hroute hc hk
    simp only [matchC, decide_eq_true_eq] at hm
    exact absurd (hm.2.trans (hline hc).symm) (h.relAcq j l hidle hl)

theorem after_spec (h : s.Releases q) (hC : ∀ c, s.hostC i = some c → q.Accepts chanC c) :
    Tracks chanC p.burst (s.step i).rel (q.after chanC p.burst (s.hostCFires i)) ∧
      (q.after chanC p.burst (s.hostCFires i)).Valid chanC p.burst := by
  change Tracks chanC p.burst (s.rel.after chanC p.burst (s.hostCFires i)) _ ∧ _
  cases hf : s.hostCFires i with
  | none => exact ⟨h.tracks, h.valid⟩
  | some c =>
      have hc : s.hostC i = some c := by
        unfold hostCFires RegSlice.Reverse.given at hf
        split_ifs at hf
        exact hf
      have hacc := hC c hc
      exact ⟨h.tracks.next hacc, Pos.valid_next h.valid hacc⟩

theorem fires_of_not_ready (hr : s.hostCReady i = false) : s.hostCFires i = none := by
  unfold hostCFires RegSlice.Reverse.given
  rw [hr]
  rfl

/-- The message of a release stays until it is taken. -/
theorem current_step (h : s.Releases q) (hC : ∀ c, s.hostC i = some c → q.Accepts chanC c)
    (hj : s.relWaits j) (hj' : (s.step i).relWaits j) {m : CMsg}
    (hm : q.Current chanC s.hostCReg m) :
    (q.after chanC p.burst (s.hostCFires i)).Current chanC (s.step i).hostCReg m := by
  cases hr : s.hostCReady i with
  | false =>
      rw [fires_of_not_ready hr]
      change q.Current chanC (RegSlice.Reverse.next s.hostCReg i.hostC (s.hostCReady i)) m
      rw [hr]
      exact hm.keep
  | true =>
      have hready := h.ready_of_waits hC hj hr
      have hdoing := (relReady_spec hready).1
      cases s.rel_spec i j with
      | stay _ _ _ _ _ ready => exact absurd (hready.symm.trans ready) (by simp)
      | beat _ c offered last _ _ _ =>
          have hc : s.hostC i = some c := (offeredC_iff.mp offered).1
          have hacc := hC c hc
          have hfires : s.hostCFires i = some c := by
            unfold hostCFires RegSlice.Reverse.given
            rw [hr]
            exact hc
          have hne : q.done ≠ chanC.len p.burst c := by
            have hl := h.tracks.last_eq hacc
            have hlast : s.hostCLast i = false := last
            unfold hostCLast at hlast
            rw [hc, Option.any_some] at hlast
            exact of_decide_eq_false (hl.symm.trans hlast)
          rw [hfires]
          exact hm.beat hc hacc hne _
      | finish _ c _ _ _ state' =>
          exfalso
          split_ifs at state' <;> rcases hj' with h' | h' | h' <;> simp [state'] at h'
      | start state _ _ _ _ | read state _ _ _ | miss state _ _ | hit state _ _ _
      | finished state _ => simp [hdoing] at state

/-- The message of a release that begins. -/
theorem current_start (hC : ∀ c, s.hostC i = some c → q.Accepts chanC c)
    (hj : (s.relTracker j).state = .idle) {c : CMsg}
    (ho : RelTracker.offered (s.relIn i j) = some c) :
    (q.after chanC p.burst (s.hostCFires i)).Current chanC (s.step i).hostCReg c := by
  obtain ⟨hc, -, -, hr⟩ := release_start hj ho
  rw [fires_of_not_ready hr]
  change q.Current chanC (RegSlice.Reverse.next s.hostCReg i.hostC (s.hostCReady i)) c
  rw [hr]
  exact .of_rData hc (hC c hc)

/-- One cycle. -/
theorem step (h : s.Releases q) (hR : s.Requests qA)
    (hA : ∀ a, s.hostA i = some a → qA.Accepts chanA a ∧ Aligned a)
    (hC : ∀ c, s.hostC i = some c → q.Accepts chanC c) :
    (s.step i).Releases (q.after chanC p.burst (s.hostCFires i)) where
  tracks := (h.after_spec hC).1
  valid := (h.after_spec hC).2
  current j hj := by
    have hkeep : s.relWaits j → ((s.step i).relTracker j).address = (s.relTracker j).address →
        ∃ m, (q.after chanC p.burst (s.hostCFires i)).Current chanC (s.step i).hostCReg m ∧
          m.address = ((s.step i).relTracker j).address := by
      intro hw haddr
      obtain ⟨m, hm, hma⟩ := h.current j hw
      exact ⟨m, h.current_step hC hw hj hm, hma.trans haddr.symm⟩
    cases s.rel_spec i j with
    | start state c offered address _ =>
        exact ⟨c, current_start hC state offered, address.symm⟩
    | stay state address _ _ _ _ =>
        refine hkeep ?_ address
        unfold relWaits at hj
        rw [state] at hj
        exact hj
    | read state _ _ address => exact hkeep (.inl state) address
    | hit state _ address _ => exact hkeep (.inr (.inl state)) address
    | beat state _ _ _ address _ _ => exact hkeep (.inr (.inr state)) address
    | miss _ state' _ => rcases hj with h' | h' | h' <;> simp [state'] at h'
    | finish _ c _ _ _ state' =>
        exfalso
        split_ifs at state' <;> rcases hj with h' | h' | h' <;> simp [state'] at h'
    | finished _ state' => rcases hj with h' | h' | h' <;> simp [state'] at h'
  rels j k hj hk heq := by
    have hnew : ∀ {l l' : Fin p.relNum} {c : CMsg}, (s.relTracker l).state = .idle →
        RelTracker.offered (s.relIn i l) = some c →
        ((s.step i).relTracker l).address = c.address → (s.relTracker l').state ≠ .idle →
        ((s.step i).relTracker l').address = (s.relTracker l').address →
        lineOf ((s.step i).relTracker l').address ≠ lineOf ((s.step i).relTracker l).address := by
      intro l l' c hidle ho haddr hbusy haddr' hline
      obtain ⟨-, hnone, -, -⟩ := release_start hidle ho
      have hm : s.matchC c (.rel l') = true := by
        rw [haddr, haddr'] at hline
        simp [matchC, hbusy, hline]
      rw [matchedC_of_match hm] at hnone
      cases hnone
    rcases rel_busy_step hj with ⟨hjs, hja⟩ | ⟨hjs, c, hjo, hja⟩ <;>
      rcases rel_busy_step hk with ⟨hks, hka⟩ | ⟨hks, d, hko, hka⟩
    · rw [hja, hka] at heq
      exact h.rels j k hjs hks heq
    · exact absurd heq (hnew hks hko hka hjs hja)
    · exact absurd heq.symm (hnew hjs hjo hja hks hka)
    · obtain ⟨-, -, hlast, -⟩ := release_start hjs hjo
      obtain ⟨-, -, hlast', -⟩ := release_start hks hko
      exact Option.some_injective _ (hlast.symm.trans hlast')
  relWb j hj hw heq := by
    rcases rel_busy_step hj with ⟨hjs, hja⟩ | ⟨hjs, c, hjo, hja⟩ <;>
      rcases wb_busy_step hw with ⟨hws, hwa⟩ | ⟨hws, hblocked, r, hr, hwa⟩ <;> rw [hja, hwa] at heq
    · exact h.relWb j hjs hws heq
    · unfold wbReqBlocked at hblocked
      rw [hr, Option.any_some] at hblocked
      simp only [Bool.or_eq_false_iff, decide_eq_false_iff_not] at hblocked
      exact hblocked.1.2 ⟨j, hjs, heq.symm⟩
    · obtain ⟨-, hnone, -, -⟩ := release_start hjs hjo
      have hm : s.matchC c .wb = true := by simp [matchC, hws, heq]
      rw [matchedC_of_match hm] at hnone
      cases hnone
    · obtain ⟨hc, -, -, -⟩ := release_start hjs hjo
      unfold wbReqBlocked at hblocked
      rw [hr, Option.any_some] at hblocked
      simp [hc, heq] at hblocked
  relAcq j k hj hk heq := by
    rcases rel_busy_step hj with ⟨hjs, hja⟩ | ⟨hjs, c, hjo, hja⟩ <;>
      rcases hR.busy_step hA hk with ⟨hks, hka⟩ | ⟨hks, a, hko, hka⟩ <;> rw [hja, hka] at heq
    · exact h.relAcq j k hjs hks heq
    · obtain ⟨-, -, -, hblocked, -, -⟩ := hR.start_spec hA hks hko
      simp only [blockedA, Bool.or_eq_false_iff, decide_eq_false_iff_not] at hblocked
      exact hblocked.1.1.2 ⟨j, hjs, heq.symm⟩
    · obtain ⟨-, hnone, -, -⟩ := release_start hjs hjo
      have hm : s.matchC c (.acq k) = true := by simp [matchC, hks, heq]
      rw [matchedC_of_match hm] at hnone
      cases hnone
    · obtain ⟨hc, -, -, -⟩ := release_start hjs hjo
      obtain ⟨-, -, -, hblocked, -, -⟩ := hR.start_spec hA hks hko
      simp [blockedA, hc, heq] at hblocked

/-- After reset. -/
theorem of_isReset (h : s.IsReset) : s.Releases .idle where
  tracks := h.rel ▸ tracks_reset
  valid := trivial
  current j hj := by
    have hs := (h.relTracker j).state
    rcases hj with h' | h' | h' <;> simp [hs] at h'
  rels j _ hj := absurd (h.relTracker j).state hj
  relWb j hj := absurd (h.relTracker j).state hj
  relAcq j _ hj := absurd (h.relTracker j).state hj

end Releases

end Llc

end Muntjac.Core

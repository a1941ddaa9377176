import Muntjac.Sync.Run
import Muntjac.Sync.Stream
import Muntjac.Tl.Messages

/-!
# Beat counting

`tl_burst_tracker` taps a link and keeps one counter for each of the channels A, C and D.
`Burst` is one counter; here are the three of them on a link whose beats may stall, and what
they show while the channels carry messages of any sizes one after the other.

## Main results

* `legal_of_messages` — the beats of messages one after the other are a legal stream.
* `Burst.reports_run` — what one counter shows in every cycle of a run.
* `BurstTracker.beat_counting` — the three channels.
-/

namespace Muntjac.Tl

/-! ## Opcodes -/

/-- The encoding of `tl_pkg::tl_a_op_e`. -/
def AOp.code : AOp → ℕ
  | .putFullData => 0
  | .putPartialData => 1
  | .arithmeticData => 2
  | .logicalData => 3
  | .get => 4
  | .intent => 5
  | .acquireBlock => 6
  | .acquirePerm => 7

/-- The encoding of `tl_pkg::tl_c_op_e`. -/
def COp.code : COp → ℕ
  | .probeAck => 4
  | .probeAckData => 5
  | .release => 6
  | .releaseData => 7

/-- The encoding of `tl_pkg::tl_d_op_e`. -/
def DOp.code : DOp → ℕ
  | .accessAck => 0
  | .accessAckData => 1
  | .hintAck => 2
  | .grant => 4
  | .grantData => 5
  | .releaseAck => 6

theorem AOp.hasData_eq (o : AOp) : o.hasData = decide (o.code < 4) := by cases o <;> rfl

theorem COp.hasData_eq (o : COp) : o.hasData = o.code.testBit 0 := by cases o <;> rfl

theorem DOp.hasData_eq (o : DOp) : o.hasData = o.code.testBit 0 := by cases o <;> rfl

/-! ## The module -/

/-- The taps of one cycle: the beats that are valid, and whether they are taken. -/
structure LinkTap where
  a : Option AMsg
  aReady : Bool
  c : Option CMsg
  cReady : Bool
  d : Option DMsg
  dReady : Bool

namespace LinkTap

/-- `link_a_valid && link_a_ready`. -/
def aFires (i : LinkTap) : Option AMsg := if i.aReady then i.a else none

def cFires (i : LinkTap) : Option CMsg := if i.cReady then i.c else none

def dFires (i : LinkTap) : Option DMsg := if i.dReady then i.d else none

end LinkTap

/-- The counters of the three channels. -/
structure BurstTracker where
  req : Burst
  rel : Burst
  gnt : Burst

/-- The outputs of one channel while a beat is on it. -/
structure BeatInfo where
  len : ℕ
  idx : ℕ
  left : ℕ
  first : Bool
  last : Bool
  deriving DecidableEq, Repr

namespace Burst
variable {β : Type*} (c : Chan β) (p : BurstParams)

/-- The outputs for a beat. -/
def info (b : Burst) (x : β) : BeatInfo where
  len := len p (c.hasData x) (c.size x)
  idx := b.idx p (c.hasData x) (c.size x)
  left := b.left p (c.hasData x) (c.size x)
  first := b.first p
  last := b.last p (c.hasData x) (c.size x)

/-- The counter changes only when a beat is transferred. -/
def after (b : Burst) (fires : Option β) : Burst :=
  fires.elim b fun x => b.next p (c.hasData x) (c.size x)

end Burst

namespace BurstTracker

def reset (p : BurstParams) : BurstTracker := ⟨.reset p, .reset p, .reset p⟩

def step (p : BurstParams) (s : BurstTracker) (i : LinkTap) : BurstTracker where
  req := s.req.after chanA p i.aFires
  rel := s.rel.after chanC p i.cFires
  gnt := s.gnt.after chanD p i.dFires

/-- The counters in a cycle. -/
def state (p : BurstParams) (inp : ℕ → LinkTap) (n : ℕ) : BurstTracker :=
  Sync.run (step p) (reset p) inp n

end BurstTracker

/-! ## Messages on a channel -/

section Traffic
variable {β : Type*} (c : Chan β) (p : BurstParams)

/-- The beats of one message of a legal size.  Nothing here refers to the counter. -/
structure Chan.IsBurst (m : List β) : Prop where
  header : ∀ x ∈ m, ∀ y ∈ m, c.header x = c.header y
  size_le : ∀ x ∈ m, c.size x ≤ p.maxSize
  length : ∀ x ∈ m, m.length = if c.hasData x then 2 ^ (c.size x - p.nonBurst) else 1
  ne_nil : m ≠ []

/-- In every cycle, the beats transferred so far and the one that is offered are the beginning
of messages one after the other. -/
def Delivers (offered fires : ℕ → Option β) : Prop :=
  ∀ n, ∃ ms : List (List β), (∀ m ∈ ms, c.IsBurst p m) ∧
    Sync.stream fires n ++ (offered n).toList <+: ms.flatten

/-- What a counter shows: the beats `sent` so far are complete messages `ms` and a proper beginning
`part` of one more; between messages the counter is in its initial state, and for the offered
beat of a message `m` the outputs are the index, the numbers of beats and the two ends. -/
def Burst.Reports (b : Burst) (sent : List β) (offered : Option β) : Prop :=
  ∃ (ms : List (List β)) (part : List β), sent = ms.flatten ++ part ∧
    (∀ m ∈ ms, c.IsBurst p m) ∧ (part = [] → b = .reset p) ∧
    (part ≠ [] → ∃ m, c.IsBurst p m ∧ part <+: m ∧ part ≠ m) ∧
    ∀ x, offered = some x → ∃ m, c.IsBurst p m ∧ part ++ [x] <+: m ∧
      (b.info c p x).len = m.length - 1 ∧
      (b.info c p x).idx = part.length ∧
      (b.info c p x).left = m.length - (part.length + 1) ∧
      ((b.info c p x).first = true ↔ part = []) ∧
      ((b.info c p x).last = true ↔ part ++ [x] = m)

variable {c p}

theorem Chan.IsBurst.length_eq {m : List β} (h : c.IsBurst p m) {x : β} (hx : x ∈ m) :
    m.length = c.len p x + 1 := by
  rw [h.length x hx, Chan.len, Burst.len_eq _ (h.size_le x hx)]
  have := Nat.two_pow_pos (c.size x - p.nonBurst)
  split <;> omega

theorem Chan.IsBurst.isMessage {m : List β} (h : c.IsBurst p m) : c.IsMessage p m where
  header := h.header
  length _ hx := h.length_eq hx
  ne_nil := h.ne_nil

/-- An item of the concatenation belongs to one of the lists. -/
theorem exists_of_prefix_flatten {α : Type*} {ms : List (List α)} {l : List α} {x : α}
    (h : l ++ [x] <+: ms.flatten) :
    ∃ ms₁ m part, ms₁ <+: ms ∧ m ∈ ms ∧ l = ms₁.flatten ++ part ∧ part ++ [x] <+: m := by
  induction ms generalizing l with
  | nil => simpa using h.length_le
  | cons m ms ih =>
      rw [List.flatten_cons] at h
      rcases Nat.lt_or_ge l.length m.length with hlt | hge
      · refine ⟨[], m, l, List.nil_prefix, by simp, rfl, ?_⟩
        refine List.prefix_of_prefix_length_le h (List.prefix_append m _) ?_
        rw [List.length_append, List.length_singleton]
        omega
      · have hm : m <+: l := by
          refine List.prefix_of_prefix_length_le (List.prefix_append m _)
            ((List.prefix_append l [x]).trans h) hge
        obtain ⟨l', rfl⟩ := hm
        rw [List.append_assoc, List.prefix_append_right_inj] at h
        obtain ⟨ms₁, m', part, hpre, hmem, hl, hpart⟩ := ih h
        refine ⟨m :: ms₁, m', part, ?_, List.mem_cons_of_mem _ hmem, ?_, hpart⟩
        · exact (List.prefix_cons_inj m).mpr hpre
        · rw [hl, List.flatten_cons, List.append_assoc]

/-- Inside a message the position is the number of its beats so far. -/
theorem Chan.IsMessage.isPart {m part : List β} {x : β} (h : c.IsMessage p m)
    (hpart : part ++ [x] <+: m) : c.IsPart p part := by
  have hmem : ∀ y ∈ part ++ [x], y ∈ m := fun y hy => hpart.subset hy
  have hlen := hpart.length_le
  rw [h.length x (hmem x (by simp)), List.length_append, List.length_singleton] at hlen
  exact .of_concat (fun y hy z hz => h.header y (hmem y hy) z (hmem z hz)) (by omega)

/-- The beats of messages one after the other are a legal stream. -/
theorem legal_of_messages {ms : List (List β)} (h : ∀ m ∈ ms, c.IsMessage p m) :
    Legal c p (fun _ => True) ms.flatten := by
  intro l x hl
  refine ⟨?_, trivial⟩
  obtain ⟨ms₁, m, part, hpre, hm, rfl, hpart⟩ := exists_of_prefix_flatten hl
  rw [posOf_messages (fun m' hm' => h m' (hpre.subset hm')) part]
  refine ((h m hm).isPart hpart).holds.accepts fun y hy => ?_
  have hmem : ∀ z ∈ part ++ [x], z ∈ m := fun z hz => hpart.subset hz
  exact (h m hm).header x (hmem x (by simp)) y (hmem y (List.mem_append_left _ hy))

theorem Delivers.legal {offered fires : ℕ → Option β} (h : Delivers c p offered fires) (n : ℕ) :
    Legal c p (fun _ => True) (Sync.stream fires n ++ (offered n).toList) := by
  obtain ⟨ms, hms, hpre⟩ := h n
  exact Legal.of_prefix (legal_of_messages fun m hm => (hms m hm).isMessage) hpre

end Traffic

/-! ## One channel -/

namespace Burst
variable {β : Type*} {c : Chan β} {p : BurstParams} {b : Burst}

/-- Between messages the counter is in its initial state. -/
theorem eq_reset_of_tracks [Nonempty β] (h : Tracks c p b .idle) : b = .reset p := by
  obtain ⟨x⟩ := ‹Nonempty β›
  have hcount := (h x trivial).2
  rw [Pos.done, if_pos rfl] at hcount
  exact congrArg Burst.mk hcount

/-- A counter that follows the beats shows what it should. -/
theorem reports_of_tracks {ms : List (List β)} {part : List β} {x : β} {m : List β}
    (hms : ∀ m ∈ ms, c.IsBurst p m) (hm : c.IsBurst p m) (hpart : part ++ [x] <+: m)
    (h : Tracks c p b (posOf c p (ms.flatten ++ part))) :
    (b.info c p x).len = m.length - 1 ∧
      (b.info c p x).idx = part.length ∧
      (b.info c p x).left = m.length - (part.length + 1) ∧
      ((b.info c p x).first = true ↔ part = []) ∧
      ((b.info c p x).last = true ↔ part ++ [x] = m) := by
  rw [posOf_messages (fun m hm => (hms m hm).isMessage) part] at h
  have hmem : ∀ y ∈ part ++ [x], y ∈ m := fun y hy => hpart.subset hy
  have hlen := hm.length_eq (hmem x (by simp))
  have hholds := (hm.isMessage.isPart hpart).holds
  have hdone := hholds.length_eq
  have hx : (posOf c p part).Accepts c x :=
    hholds.accepts fun y hy =>
      hm.header x (hmem x (by simp)) y (hmem y (List.mem_append_left _ hy))
  refine ⟨?_, ?_, ?_, ?_, ?_⟩
  · change c.len p x = _
    omega
  · exact (h.idx_eq hx).trans hdone.symm
  · refine (h.left_eq hx).trans ?_
    omega
  · change b.first p = true ↔ _
    rw [h.first_eq hx, decide_eq_true_iff, ← hdone, List.length_eq_zero_iff]
  · change b.last p _ _ = true ↔ _
    rw [h.last_eq hx, decide_eq_true_iff, ← hdone]
    constructor
    · intro hlast
      refine hpart.eq_of_length ?_
      rw [List.length_append, List.length_singleton]
      omega
    · intro heq
      have hcount := congrArg List.length heq
      rw [List.length_append, List.length_singleton] at hcount
      omega

/-- The counter of a channel in a run. -/
theorem tracks_run {offered fires : ℕ → Option β} {f : ℕ → Burst}
    (hfires : ∀ n x, fires n = some x → offered n = some x) (h0 : f 0 = .reset p)
    (hf : ∀ n, f (n + 1) = (f n).after c p (fires n)) (h : Delivers c p offered fires) (n : ℕ) :
    Tracks c p (f n) (posOf c p (Sync.stream fires n)) := by
  induction n with
  | zero =>
      rw [h0]
      exact tracks_reset
  | succ n ih =>
      rw [hf n, Sync.stream_succ]
      have hl : Legal c p (fun _ => True) (Sync.stream fires n ++ (fires n).toList) := by
        cases hn : fires n with
        | none =>
            rw [Option.toList_none, List.append_nil]
            exact Legal.of_prefix (h.legal n) (List.prefix_append _ _)
        | some x =>
            have hl := h.legal n
            rw [hfires n x hn] at hl
            exact hl
      exact ih.step hl

/-- The counter between messages. -/
theorem eq_reset_of_messages [Nonempty β] {ms : List (List β)} (hms : ∀ m ∈ ms, c.IsBurst p m)
    (h : Tracks c p b (posOf c p ms.flatten)) : b = .reset p := by
  have hpos := posOf_messages (fun m hm => (hms m hm).isMessage) []
  rw [List.append_nil, posOf_nil] at hpos
  rw [hpos] at h
  exact eq_reset_of_tracks h

/-- What the counter of a channel shows in every cycle of a run. -/
theorem reports_run [Nonempty β] {offered fires : ℕ → Option β} {f : ℕ → Burst}
    (hfires : ∀ n x, fires n = some x → offered n = some x) (h0 : f 0 = .reset p)
    (hf : ∀ n, f (n + 1) = (f n).after c p (fires n)) (h : Delivers c p offered fires) (n : ℕ) :
    (f n).Reports c p (Sync.stream fires n) (offered n) := by
  have htracks := tracks_run hfires h0 hf h n
  obtain ⟨ms, hms, hpre⟩ := h n
  cases hx : offered n with
  | some x =>
      rw [hx, Option.toList_some] at hpre
      obtain ⟨ms₁, m, part, hms₁, hm, hsent, hpart⟩ := exists_of_prefix_flatten hpre
      have hms' : ∀ m ∈ ms₁, c.IsBurst p m := fun m hm => hms m (hms₁.subset hm)
      rw [hsent] at htracks
      refine ⟨ms₁, part, hsent, hms', ?_, fun _ => ⟨m, hms m hm, ?_, ?_⟩, fun y hy => ?_⟩
      · intro hnil
        rw [hnil, List.append_nil] at htracks
        exact eq_reset_of_messages hms' htracks
      · exact (List.prefix_append _ _).trans hpart
      · rintro rfl
        simpa using hpart.length_le
      · cases hy
        exact ⟨m, hms m hm, hpart, reports_of_tracks hms' (hms m hm) hpart htracks⟩
  | none =>
      rw [hx, Option.toList_none, List.append_nil] at hpre
      obtain hnil | ⟨l, x, hl⟩ := (Sync.stream fires n).eq_nil_or_concat
      · refine ⟨[], [], hnil, by simp, fun _ => ?_, by simp, by simp⟩
        rw [hnil] at htracks
        exact eq_reset_of_tracks htracks
      · -- the last beat that was transferred ends its message, or it does not
        rw [List.concat_eq_append] at hl
        rw [hl] at hpre htracks ⊢
        obtain ⟨ms₁, m, part, hms₁, hm, rfl, hpart⟩ := exists_of_prefix_flatten hpre
        have hms' : ∀ m ∈ ms₁, c.IsBurst p m := fun m hm => hms m (hms₁.subset hm)
        by_cases hlast : part ++ [x] = m
        · have hall : ∀ m' ∈ ms₁ ++ [m], c.IsBurst p m' := by
            intro m' hm'
            rcases List.mem_append.mp hm' with hm' | hm'
            · exact hms' m' hm'
            · rw [List.mem_singleton.mp hm']
              exact hms m hm
          have hsent : ms₁.flatten ++ part ++ [x] = (ms₁ ++ [m]).flatten := by
            rw [List.flatten_concat, List.append_assoc, hlast]
          rw [hsent] at htracks ⊢
          exact ⟨ms₁ ++ [m], [], (List.append_nil _).symm, hall,
            fun _ => eq_reset_of_messages hall htracks, by simp, by simp⟩
        · exact ⟨ms₁, part ++ [x], by rw [List.append_assoc], hms', by simp,
            fun _ => ⟨m, hms m hm, hpart, hlast⟩, by simp⟩

end Burst

/-! ## The tracker -/

namespace BurstTracker
variable {p : BurstParams} {inp : ℕ → LinkTap}

theorem offered_of_fires {β : Type*} {ready : Bool} {o : Option β} {x : β}
    (h : (if ready then o else none) = some x) : o = some x := by
  split at h
  · exact h
  · cases h

/-- Each channel of the tracker counts the beats of its own messages, in every cycle and
whatever stalls there are. -/
theorem beat_counting (p : BurstParams) (inp : ℕ → LinkTap)
    (ha : Delivers chanA p (fun n => (inp n).a) fun n => (inp n).aFires)
    (hc : Delivers chanC p (fun n => (inp n).c) fun n => (inp n).cFires)
    (hd : Delivers chanD p (fun n => (inp n).d) fun n => (inp n).dFires) (n : ℕ) :
    (state p inp n).req.Reports chanA p (Sync.stream (fun n => (inp n).aFires) n) (inp n).a ∧
      (state p inp n).rel.Reports chanC p (Sync.stream (fun n => (inp n).cFires) n) (inp n).c ∧
      (state p inp n).gnt.Reports chanD p (Sync.stream (fun n => (inp n).dFires) n) (inp n).d := by
  refine ⟨?_, ?_, ?_⟩
  · exact Burst.reports_run (f := fun n => (state p inp n).req) (fun _ _ => offered_of_fires) rfl
      (fun _ => rfl) ha n
  · exact Burst.reports_run (f := fun n => (state p inp n).rel) (fun _ _ => offered_of_fires) rfl
      (fun _ => rfl) hc n
  · exact Burst.reports_run (f := fun n => (state p inp n).gnt) (fun _ _ => offered_of_fires) rfl
      (fun _ => rfl) hd n

/-- A message of two beats on channel A of a 64-bit link, whose first beat waits for a cycle. -/
def putTap : ℕ → LinkTap
  | 0 => ⟨some put, false, none, true, none, true⟩
  | 1 => ⟨some put, true, none, true, none, true⟩
  | 2 => ⟨some put, true, none, true, none, true⟩
  | _ + 3 => ⟨none, true, none, true, none, true⟩
where
  put : AMsg := { (default : AMsg) with opcode := .putFullData, size := 4 }

theorem delivers_nothing {β : Type*} {c : Chan β} {f g : ℕ → Option β} (hf : ∀ n, f n = none)
    (hg : ∀ n, g n = none) : Delivers c p f g := by
  intro n
  have hs : Sync.stream g n = [] := by
    induction n with
    | zero => rfl
    | succ n ih => rw [Sync.stream_succ, ih, hg n, Option.toList_none, List.append_nil]
  exact ⟨[], by simp, by rw [hs, hf n]; exact List.nil_prefix⟩

theorem delivers_putTap :
    Delivers chanA ⟨3, 6⟩ (fun n => (putTap n).a) fun n => (putTap n).aFires := by
  have hburst : chanA.IsBurst ⟨3, 6⟩ [putTap.put, putTap.put] :=
    ⟨by decide, by decide, by decide, by decide⟩
  intro n
  refine ⟨[[putTap.put, putTap.put]], by simpa using hburst, ?_⟩
  match n with
  | 0 => decide
  | 1 => decide
  | 2 => decide
  | n + 3 =>
      have hpre := Sync.stream_prefix_of_none (f := fun n => (putTap n).aFires) (m := 3)
        (fun k hk => by
          obtain ⟨j, rfl⟩ := Nat.exists_eq_add_of_le' hk
          rfl) (n + 3)
      refine (List.append_nil _).symm ▸ hpre.trans ?_
      decide

/-- The counters after the first beat of `putTap`. -/
theorem beat_counting_put :
    (state ⟨3, 6⟩ putTap 2).req.Reports chanA ⟨3, 6⟩
        (Sync.stream (fun n => (putTap n).aFires) 2) (putTap 2).a ∧
      (state ⟨3, 6⟩ putTap 2).req.info chanA ⟨3, 6⟩ putTap.put = ⟨1, 1, 0, false, true⟩ := by
  have hnone : ∀ n, (putTap n).c = none ∧ (putTap n).d = none := by
    intro n
    match n with
    | 0 | 1 | 2 | _ + 3 => exact ⟨rfl, rfl⟩
  have hfires : ∀ n, (putTap n).cFires = none ∧ (putTap n).dFires = none := by
    intro n
    match n with
    | 0 | 1 | 2 | _ + 3 => exact ⟨rfl, rfl⟩
  exact ⟨(beat_counting ⟨3, 6⟩ putTap delivers_putTap
    (delivers_nothing (fun n => (hnone n).1) fun n => (hfires n).1)
    (delivers_nothing (fun n => (hnone n).2) fun n => (hfires n).2) 2).1, by decide⟩

end BurstTracker

end Muntjac.Tl

import Muntjac.Sync.Stream
import Muntjac.Tl.Messages

/-!
# Shared channels

Several links share a channel in one of two ways: their messages are arbitrated onto it, or
the messages on it are routed to them.  In both cases the beats of the channel belong to
links, and the beats of a message belong to one link.

## Main definitions

* `Chan.tagged` — a channel whose beats come with their links.
* `part i l` — the beats of link `i`.
* `Shares c p parts whole` — the channel carries the messages of the links, whole and in order.
* `Shared` — arbitration, with the burst tracker of the channel.

## Main results

* `shares_route` — routing by a field of the header.
* `shares_arbitrated` — arbitration that is locked until the last beat.
-/

namespace Muntjac.Tl

open Sync

variable {ι β : Type*}

/-- The beats of a channel with the links that they belong to. -/
def Chan.tagged (ι : Type*) (c : Chan β) : Chan (ι × β) where
  header x := (x.1, c.header x.2)
  hasData x := c.hasData x.2
  size x := c.size x.2
  hasData_header x := c.hasData_header x.2
  size_header x := c.size_header x.2

/-! ## Maps that keep lengths -/

section Map
variable {γ : Type*} {c : Chan β} {c' : Chan γ} {p : BurstParams} {g : β → γ}

def Pos.map (g : β → γ) : Pos β → Pos γ
  | .idle => .idle
  | .busy f n => .busy (g f) n

@[simp] theorem Pos.done_map (q : Pos β) : (q.map g).done = q.done := by
  cases q <;> rfl

theorem posOf_map_of_mem {l : List β} (hlen : ∀ x ∈ l, c'.len p (g x) = c.len p x) :
    posOf c' p (l.map g) = (posOf c p l).map g := by
  induction l using List.reverseRecOn with
  | nil => rfl
  | append_singleton l x ih =>
      rw [List.map_append, List.map_singleton, posOf_concat, posOf_concat,
        ih fun y hy => hlen y (List.mem_append_left _ hy)]
      unfold Pos.next
      rw [Pos.done_map, hlen x (by simp)]
      split_ifs
      · rfl
      · cases posOf c p l <;> rfl

theorem posOf_map (hlen : ∀ x, c'.len p (g x) = c.len p x) (l : List β) :
    posOf c' p (l.map g) = (posOf c p l).map g :=
  posOf_map_of_mem fun x _ => hlen x

/-- A link that changes its beats, those of a message in the same way, carries messages. -/
theorem Legal.map {ok : β → Prop} {ok' : γ → Prop} {l : List β} (h : Legal c p ok l)
    (hlen : ∀ x ∈ l, c'.len p (g x) = c.len p x)
    (hhead : ∀ x ∈ l, ∀ y ∈ l, c.header x = c.header y → c'.header (g x) = c'.header (g y))
    (hok : ∀ x, ok x → ok' (g x)) : Legal c' p ok' (l.map g) := by
  induction l using List.reverseRecOn with
  | nil => exact .nil
  | append_singleton l x ih =>
      obtain ⟨hl, hx, hokx⟩ := h.of_concat
      have hmem : ∀ y ∈ l, y ∈ l ++ [x] := fun y hy => List.mem_append_left _ hy
      rw [List.map_append, List.map_singleton]
      refine (ih hl (fun y hy => hlen y (hmem y hy)) fun y hy z hz =>
        hhead y (hmem y hy) z (hmem z hz)).concat ?_ (hok x hokx)
      rw [posOf_map_of_mem fun y hy => hlen y (hmem y hy)]
      cases hq : posOf c p l with
      | idle => trivial
      | busy f n =>
          rw [hq] at hx
          exact hhead x (by simp) f (hmem f (mem_of_posOf hq)) hx

/-- Messages of one beat, one after the other. -/
theorem legal_of_single {l : List β} (h : ∀ x ∈ l, c.len p x = 0) :
    Legal c p (fun _ => True) l := by
  have hidle : ∀ m, m <+: l → posOf c p m = .idle := by
    intro m hm
    induction m using List.reverseRecOn with
    | nil => rfl
    | append_singleton m x ih =>
        rw [posOf_concat, ih ((List.prefix_append _ _).trans hm)]
        exact if_pos (h x (hm.subset (by simp))).symm
  intro m x hm
  rw [hidle m ((List.prefix_append _ _).trans hm)]
  exact ⟨trivial, trivial⟩

theorem Legal.weaken {ok ok' : β → Prop} {l : List β} (h : Legal c p ok l)
    (hok : ∀ x, ok x → ok' x) : Legal c p ok' l :=
  fun m x hm => ⟨(h m x hm).1, hok x (h m x hm).2⟩

/-- A link that sends the same beat again and again. -/
theorem legal_of_const {f : ℕ → Option β} {x : β} (h : ∀ k y, f k = some y → y = x) (m : ℕ) :
    Legal c p (fun _ => True) (stream f m) := by
  have hmem : ∀ y ∈ stream f m, y = x := fun y hy => by
    obtain ⟨k, -, hk⟩ := exists_of_mem_stream hy
    exact h k y hk
  exact legal_of_header fun y hy z hz => by rw [hmem y hy, hmem z hz]

end Map

section Part
variable [DecidableEq ι]

/-- The beats of link `i`. -/
def part (i : ι) (l : List (ι × β)) : List β :=
  l.filterMap fun x => if x.1 = i then some x.2 else none

@[simp] theorem part_nil (i : ι) : part i ([] : List (ι × β)) = [] := rfl

theorem part_append (i : ι) (l m : List (ι × β)) : part i (l ++ m) = part i l ++ part i m :=
  List.filterMap_append

theorem part_concat_self (i : ι) (l : List (ι × β)) (x : β) :
    part i (l ++ [(i, x)]) = part i l ++ [x] := by
  rw [part_append]
  simp [part]

theorem part_concat_ne {i j : ι} (h : j ≠ i) (l : List (ι × β)) (x : β) :
    part i (l ++ [(j, x)]) = part i l := by
  rw [part_append]
  simp [part, h]

/-- The channel `whole` carries the messages of the links, whole and in order: its beats belong
to links, the beats of a message to one link, and those of a link are its part. -/
def Shares (c : Chan β) (p : BurstParams) (parts : ι → List β) (whole : List β) : Prop :=
  ∃ l : List (ι × β), Legal (c.tagged ι) p (fun _ => True) l ∧ l.map Prod.snd = whole ∧
    ∀ i, part i l = parts i

end Part

/-! ## The position of a link -/

section Position
variable [DecidableEq ι] {c : Chan β} {p : BurstParams}

/-- The position of one link of a shared channel. -/
def Pos.on (i : ι) : Pos (ι × β) → Pos β
  | .idle => .idle
  | .busy f n => if f.1 = i then .busy f.2 n else .idle

theorem Pos.on_next_self {q : Pos (ι × β)} {i : ι} {x : β}
    (hq : q.Accepts (c.tagged ι) (i, x)) :
    (q.next (c.tagged ι) p (i, x)).on i = (q.on i).next c p x := by
  cases q with
  | idle =>
      unfold Pos.next
      change Pos.on i (if (0 : ℕ) = c.len p x then _ else _) = if (0 : ℕ) = c.len p x then _ else _
      split_ifs
      · rfl
      · simp [Pos.on]
  | busy f n =>
      have hf : f.1 = i := (congrArg Prod.fst hq).symm
      have hon : (Pos.busy f n).on i = Pos.busy f.2 n := if_pos hf
      rw [hon]
      unfold Pos.next
      change Pos.on i (if n = c.len p x then _ else _) = if n = c.len p x then _ else _
      split_ifs
      · rfl
      · exact if_pos hf

theorem Pos.on_next_ne {q : Pos (ι × β)} {i j : ι} {x : β} (h : j ≠ i)
    (hq : q.Accepts (c.tagged ι) (j, x)) : (q.next (c.tagged ι) p (j, x)).on i = q.on i := by
  cases q with
  | idle =>
      unfold Pos.next
      split_ifs
      · rfl
      · exact if_neg h
  | busy f n =>
      have hf : f.1 ≠ i := fun he => h ((congrArg Prod.fst hq).trans he)
      have hon : (Pos.busy f n).on i = Pos.idle := if_neg hf
      rw [hon]
      unfold Pos.next
      split_ifs
      · rfl
      · exact if_neg hf

variable {l : List (ι × β)}

/-- A link is inside a message exactly while the channel is inside a message of it. -/
theorem posOf_part {ok : ι × β → Prop} (h : Legal (c.tagged ι) p ok l) (i : ι) :
    posOf c p (part i l) = (posOf (c.tagged ι) p l).on i := by
  induction l using List.reverseRecOn with
  | nil => rfl
  | append_singleton l x ih =>
      obtain ⟨hl, hx, -⟩ := h.of_concat
      obtain ⟨j, x⟩ := x
      rw [posOf_concat]
      by_cases hj : j = i
      · rw [hj] at hx ⊢
        rw [part_concat_self, posOf_concat, ih hl, Pos.on_next_self hx]
      · rw [part_concat_ne hj, ih hl, Pos.on_next_ne hj hx]

/-- A beat of a link that may have the channel continues the message of that link. -/
theorem accepts_tagged {ok : ι × β → Prop} {ok' : β → Prop} (h : Legal (c.tagged ι) p ok l) {i : ι}
    {x : β} (hi : ∀ f n, posOf (c.tagged ι) p l = .busy f n → f.1 = i)
    (hx : Legal c p ok' (part i l ++ [x])) :
    (posOf (c.tagged ι) p l).Accepts (c.tagged ι) (i, x) := by
  have hacc := hx.of_concat.2.1
  rw [posOf_part h i] at hacc
  cases hq : posOf (c.tagged ι) p l with
  | idle => trivial
  | busy f n =>
      have hf := hi f n hq
      rw [hq] at hacc
      have hon : (Pos.busy f n).on i = Pos.busy f.2 n := if_pos hf
      rw [hon] at hacc
      exact Prod.ext hf.symm hacc

/-- The stream of a link is legal. -/
theorem Legal.part {ok : β → Prop} (h : Legal (c.tagged ι) p (fun x => ok x.2) l) (i : ι) :
    Legal c p ok (part i l) := by
  induction l using List.reverseRecOn with
  | nil => exact .nil
  | append_singleton l x ih =>
      obtain ⟨hl, hx, hok⟩ := h.of_concat
      obtain ⟨j, x⟩ := x
      by_cases hj : j = i
      · rw [hj] at hx
        rw [hj, part_concat_self]
        refine (ih hl).concat ?_ hok
        rw [posOf_part hl]
        cases hq : posOf (c.tagged ι) p l with
        | idle => trivial
        | busy f n =>
            rw [hq] at hx
            have hon : (Pos.busy f n).on i = Pos.busy f.2 n := if_pos (congrArg Prod.fst hx).symm
            rw [hon]
            exact congrArg Prod.snd hx
      · rw [part_concat_ne hj]
        exact ih hl

/-- The channel carries whole messages. -/
theorem Shares.whole_legal {parts : ι → List β} {whole : List β} (h : Shares c p parts whole) :
    Legal c p (fun _ => True) whole := by
  obtain ⟨l, hl, rfl, -⟩ := h
  exact hl.map (fun _ _ => rfl) (fun x _ y _ hxy => congrArg Prod.snd hxy) fun _ _ => trivial

end Position

/-! ## Routing -/

section Route
variable [DecidableEq ι] {c : Chan β} {p : BurstParams} {ok : β → Prop} {l : List β} {route : β → ι}

omit [DecidableEq ι] in
/-- A channel whose messages are routed by a field of the header. -/
theorem legal_route (hroute : ∀ x y, c.header x = c.header y → route x = route y)
    (h : Legal c p ok l) :
    Legal (c.tagged ι) p (fun x => ok x.2) (l.map fun x => (route x, x)) := by
  induction l using List.reverseRecOn with
  | nil => exact .nil
  | append_singleton l x ih =>
      obtain ⟨hl, hx, hok⟩ := h.of_concat
      rw [List.map_append, List.map_singleton]
      refine (ih hl).concat ?_ hok
      rw [posOf_map (c := c) (g := fun x => (route x, x)) fun _ => rfl]
      cases hq : posOf c p l with
      | idle => trivial
      | busy f n =>
          rw [hq] at hx
          exact Prod.ext (hroute x f hx) hx

theorem part_route (route : β → ι) (i : ι) (l : List β) :
    part i (l.map fun x => (route x, x)) = l.filter fun x => route x = i := by
  induction l with
  | nil => rfl
  | cons x l ih =>
      rw [part] at ih
      by_cases hx : route x = i
      · simp [part, hx, ← ih, List.filterMap_map]
      · simp [part, hx, ← ih, List.filterMap_map]

variable (route) in
/-- Every link gets the messages that are routed to it. -/
theorem shares_route (hroute : ∀ x y, c.header x = c.header y → route x = route y)
    (h : Legal c p ok l) : Shares c p (fun i => l.filter fun x => route x = i) l :=
  ⟨l.map fun x => (route x, x), (legal_route hroute h).weaken fun _ _ => trivial,
    by rw [List.map_map, Function.comp_def, List.map_id'], fun i => part_route route i l⟩

end Route

/-! ## Selection -/

section Mux
variable {n : ℕ} (sel : Option (Fin n)) (msgs : Fin n → Option β) (ready : Bool)

/-- The beat that is transferred on a channel that the selected link drives. -/
def muxOut : Option β := if ready then sel.bind msgs else none

/-- The beat that link `i` transfers: only the selected one is ready. -/
def muxSent (i : Fin n) : Option β := if decide (sel = some i) && ready then msgs i else none

/-- The transferred beat with its link. -/
def muxTransfer : Option (Fin n × β) :=
  if ready then sel.bind fun k => (msgs k).map fun x => (k, x) else none

variable {sel msgs ready}

theorem map_muxTransfer : (muxTransfer sel msgs ready).map Prod.snd = muxOut sel msgs ready := by
  rw [muxTransfer, muxOut]
  cases ready with
  | false => rfl
  | true =>
      cases sel with
      | none => rfl
      | some k => cases h : msgs k <;> simp [h]

theorem part_muxTransfer (i : Fin n) :
    part i (muxTransfer sel msgs ready).toList = (muxSent sel msgs ready i).toList := by
  rw [muxTransfer, muxSent]
  cases ready with
  | false => simp [part]
  | true =>
      cases sel with
      | none => simp [part]
      | some k =>
          by_cases hk : k = i
          · subst hk
            cases h : msgs k <;> simp [part, h]
          · cases h : msgs k <;> simp [part, h, hk]

end Mux

section MuxStream
variable {n : ℕ} {sel : ℕ → Option (Fin n)} {msgs : ℕ → Fin n → Option β} {ready : ℕ → Bool}

/-- The transferred beats with their links. -/
def muxTransfers (sel : ℕ → Option (Fin n)) (msgs : ℕ → Fin n → Option β) (ready : ℕ → Bool)
    (m : ℕ) : List (Fin n × β) := stream (fun k => muxTransfer (sel k) (msgs k) (ready k)) m

theorem part_muxTransfers (i : Fin n) (m : ℕ) :
    part i (muxTransfers sel msgs ready m) =
      stream (fun k => muxSent (sel k) (msgs k) (ready k) i) m := by
  induction m with
  | zero => rfl
  | succ m ih =>
      rw [muxTransfers, stream_succ, part_append, part_muxTransfer, stream_succ, ← ih]
      rfl

theorem map_muxTransfers (m : ℕ) :
    (muxTransfers sel msgs ready m).map Prod.snd =
      stream (fun k => muxOut (sel k) (msgs k) (ready k)) m := by
  rw [muxTransfers, ← stream_map]
  exact stream_congr (fun k => map_muxTransfer) m

/-- Messages of one beat are whole under any selection. -/
theorem shares_mux {c : Chan β} {p : BurstParams} (h : ∀ x, c.len p x = 0) (m : ℕ) :
    Shares c p (fun i => stream (fun k => muxSent (sel k) (msgs k) (ready k) i) m)
      (stream (fun k => muxOut (sel k) (msgs k) (ready k)) m) :=
  ⟨muxTransfers sel msgs ready m, legal_of_len (fun x => h x.2) _, map_muxTransfers m,
    fun i => part_muxTransfers i m⟩

end MuxStream

/-! ## Arbitration -/

/-- The arbitration in front of a channel, with the counter of its burst tracker. -/
structure Shared (n : ℕ) where
  arb : ChannelArb n
  burst : Burst
  deriving DecidableEq, Repr

namespace Shared
variable {n : ℕ}

def reset (p : BurstParams) : Shared n := ⟨.reset, .reset p⟩

variable (c : Chan β) (p : BurstParams) (s : Shared n) (msgs : Fin n → Option β) (ready : Bool)

/-- The beat on the channel. -/
def msg : Option β := s.arb.msg msgs

/-- The beat that is transferred, and the one that link `i` transfers. -/
def out : Option β := muxOut (s.arb.select msgs) msgs ready
def sent (i : Fin n) : Option β := muxSent (s.arb.select msgs) msgs ready i

/-- The transferred beat with its link. -/
def transfer : Option (Fin n × β) := muxTransfer (s.arb.select msgs) msgs ready

/-- The beat on the channel is the last one of its message. -/
def last : Bool := (s.msg msgs).any fun x => s.burst.last p (c.hasData x) (c.size x)

/-- One clock edge. -/
def step : Shared n where
  arb := s.arb.next msgs ready (s.last c p msgs)
  burst := (s.out msgs ready).elim s.burst fun x => s.burst.next p (c.hasData x) (c.size x)

variable {c p s msgs ready}

/-- A link transfers its beat if it sees the channel ready. -/
theorem sent_eq (i : Fin n) :
    s.sent msgs ready i = if s.arb.ready msgs ready i then msgs i else none := rfl

theorem out_eq : s.out msgs ready = if ready then s.msg msgs else none := rfl

/-- The arbitration follows the position of the channel. -/
structure Follows (c : Chan β) (p : BurstParams) (s : Shared n) (q : Pos (Fin n × β)) : Prop where
  burst : Tracks (c.tagged (Fin n)) p s.burst q
  locked : s.arb.locked = true ↔ q ≠ .idle
  selected : ∀ f m, q = .busy f m → s.arb.selected = some f.1

theorem follows_reset : Follows c p (reset p : Shared n) .idle :=
  ⟨tracks_reset, by simp [reset, ChannelArb.reset], fun f m h => by cases h⟩

section Step
variable {l : List (Fin n × β)} {ok : Fin n × β → Prop} {q : Pos (Fin n × β)}

/-- A beat that is transferred inside a message is from the link of the message. -/
theorem Follows.link_eq (h : Follows c p s q) {k : Fin n} {x : β}
    (ht : s.transfer msgs ready = some (k, x)) (f : Fin n × β) (m : ℕ) (hq : q = .busy f m) :
    f.1 = k := by
  have hlocked : s.arb.locked = true := h.locked.mpr (by simp [hq])
  have hsel := h.selected f m hq
  rw [transfer, muxTransfer] at ht
  split_ifs at ht
  obtain ⟨j, hj, hx⟩ := Option.bind_eq_some_iff.mp ht
  rw [ChannelArb.select, hlocked, if_pos rfl, hsel] at hj
  obtain ⟨y, -, hy⟩ := Option.map_eq_some_iff.mp hx
  cases hy
  exact Option.some.inj hj

theorem fires_of_transfer {k : Fin n} {x : β} (ht : s.transfer msgs ready = some (k, x)) :
    s.arb.Fires msgs ready k x := by
  rw [transfer, muxTransfer] at ht
  split_ifs at ht with hr
  obtain ⟨j, hj, hx⟩ := Option.bind_eq_some_iff.mp ht
  obtain ⟨y, hy, hyx⟩ := Option.map_eq_some_iff.mp hx
  cases hyx
  exact ⟨hj, hy, hr⟩

theorem Follows.step_some (h : Follows c p s q) {k : Fin n} {x : β}
    (ht : s.transfer msgs ready = some (k, x)) (hx : q.Accepts (c.tagged (Fin n)) (k, x)) :
    Follows c p (s.step c p msgs ready) (q.next (c.tagged (Fin n)) p (k, x)) := by
  have hf := fires_of_transfer ht
  have hmsg : s.msg msgs = some x := hf.msg_eq
  have hout : s.out msgs ready = some x := by rw [out_eq, if_pos hf.ready, hmsg]
  have hlast : s.last c p msgs = decide (q.done = c.len p x) := by
    rw [last, hmsg]
    exact h.burst.last_eq hx
  have hburst : (s.step c p msgs ready).burst = s.burst.next p (c.hasData x) (c.size x) := by
    rw [step, hout]
    rfl
  refine ⟨hburst ▸ h.burst.next hx, ?_, fun f m hq => ?_⟩
  · change (s.arb.next _ _ _).locked = true ↔ _
    rw [hf.next_locked, hlast]
    by_cases hd : q.done = c.len p x
    · rw [Pos.next_of_last hd]
      simp [hd]
    · obtain ⟨f, hf, -⟩ := Pos.next_of_ne_last (c := c.tagged (Fin n)) hd hx
      rw [hf]
      simp [hd]
  · change (s.arb.next _ _ _).selected = _
    rw [hf.next_selected]
    have hd : q.done ≠ c.len p x := fun hd => by
      rw [Pos.next_of_last (c := c.tagged (Fin n)) hd] at hq
      cases hq
    obtain ⟨f', hf', hx'⟩ := Pos.next_of_ne_last (c := c.tagged (Fin n)) hd hx
    rw [hf'] at hq
    cases hq
    exact congrArg some (congrArg Prod.fst hx')

theorem Follows.step_none (h : Follows c p s q) (ht : s.transfer msgs ready = none) :
    Follows c p (s.step c p msgs ready) q := by
  have hout : s.out msgs ready = none := by
    rw [out, ← map_muxTransfer]
    exact congrArg (Option.map Prod.snd) ht
  have hidle : ((s.arb.msg msgs).isSome && ready) = false := by
    rw [out_eq, msg] at hout
    cases ready with
    | false => simp
    | true => simpa using hout
  obtain ⟨h1, h2⟩ := ChannelArb.next_idle hidle (s.last c p msgs)
  refine ⟨?_, ?_, fun f m hq => ?_⟩
  · rw [step, hout]
    exact h.burst
  · rw [step, h1]
    exact h.locked
  · rw [step, h2]
    exact h.selected f m hq

end Step

/-! ### Runs -/

section Run
variable {s : ℕ → Shared n} {msgs : ℕ → Fin n → Option β} {ready : ℕ → Bool}
  {ok : β → Prop}

/-- The beats of the channel with their links. -/
def transfers (s : ℕ → Shared n) (msgs : ℕ → Fin n → Option β) (ready : ℕ → Bool) (m : ℕ) :
    List (Fin n × β) := muxTransfers (fun k => (s k).arb.select (msgs k)) msgs ready m

theorem transfers_succ (m : ℕ) :
    transfers s msgs ready (m + 1) =
      transfers s msgs ready m ++ ((s m).transfer (msgs m) (ready m)).toList := rfl

variable (h0 : s 0 = reset p) (hstep : ∀ k, s (k + 1) = (s k).step c p (msgs k) (ready k))
  (hlegal : ∀ i m, Legal c p ok (stream (fun k => (s k).sent (msgs k) (ready k) i) m))
include h0 hstep hlegal

theorem follows_run (m : ℕ) :
    Follows c p (s m) (posOf (c.tagged (Fin n)) p (transfers s msgs ready m)) ∧
      Legal (c.tagged (Fin n)) p (fun x => ok x.2) (transfers s msgs ready m) := by
  induction m with
  | zero =>
      rw [h0]
      exact ⟨follows_reset, .nil⟩
  | succ m ih =>
      obtain ⟨hf, hl⟩ := ih
      rw [hstep, transfers_succ]
      cases ht : (s m).transfer (msgs m) (ready m) with
      | none =>
          rw [Option.toList_none, List.append_nil]
          exact ⟨hf.step_none ht, hl⟩
      | some t =>
          obtain ⟨k, x⟩ := t
          rw [Option.toList_some]
          have hpart : Legal c p ok (part k (transfers s msgs ready m) ++ [x]) := by
            have hleg := hlegal k (m + 1)
            have hparts : part k (transfers s msgs ready (m + 1)) =
                stream (fun j => (s j).sent (msgs j) (ready j) k) (m + 1) := part_muxTransfers k _
            rw [← hparts, transfers_succ, ht, Option.toList_some, part_concat_self] at hleg
            exact hleg
          have hacc := accepts_tagged hl (hf.link_eq ht) hpart
          refine ⟨?_, hl.concat hacc hpart.of_concat.2.2⟩
          rw [posOf_concat]
          exact hf.step_some ht hacc

/-- Arbitration keeps the messages of the links whole and in order. -/
theorem shares_arbitrated (m : ℕ) :
    Shares c p (fun i => stream (fun k => (s k).sent (msgs k) (ready k) i) m)
      (stream (fun k => (s k).out (msgs k) (ready k)) m) :=
  ⟨transfers s msgs ready m, (follows_run h0 hstep hlegal m).2.weaken fun _ _ => trivial,
    map_muxTransfers m, fun i => part_muxTransfers i m⟩

end Run

end Shared

end Muntjac.Tl

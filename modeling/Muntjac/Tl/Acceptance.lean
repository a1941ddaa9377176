import Muntjac.Sync.Arbiter
import Muntjac.Tl.Routing

/-!
# What is offered is taken

A channel that routes its beats, or that several links share, takes every beat that is offered,
if the other side is ready again and again and the links keep to what they have begun.

## Main definitions

* `Keeps`, `Sends` — a sender that does not withdraw a beat, and one that goes on with the
  messages it has begun.
* `AllTaken` — every beat that is offered is taken in the end.
* `ChannelArb.begins` — a message begins on a shared channel.

## Main results

* `Shared.takesTurns`, `takesTurns_single` — the links take turns on a shared channel.
* `Shared.allTaken`, `allTaken_single` — on a shared channel no link waits without end.
* `demux_allTaken` — a routed beat is taken if the link that it is for is ready again and again.
-/

namespace Muntjac.Tl

open Sync

variable {n : ℕ} {α β : Type*}

/-! ## Senders -/

/-- A beat that is offered stays until it is taken. -/
def Keeps (offer fires : ℕ → Option β) : Prop :=
  ∀ t x, offer t = some x → fires t = none → offer (t + 1) = some x

/-- A sender keeps its beats, and goes on with a message that it has begun. -/
structure Sends (c : Chan β) (p : BurstParams) (offer fires : ℕ → Option β) : Prop where
  keeps : Keeps offer fires
  goesOn : ∀ t, posOf c p (stream fires t) ≠ .idle → ∃ u ≥ t, (offer u).isSome = true

/-- Every beat that is offered is taken, now or later. -/
def AllTaken (offer fires : ℕ → Option β) : Prop :=
  ∀ t x, offer t = some x → ∃ u ≥ t, fires u = some x

/-- A beat that is never taken is offered for ever. -/
theorem Keeps.forever {offer fires : ℕ → Option β} (h : Keeps offer fires) {t : ℕ} {x : β}
    (hx : offer t = some x) (hnone : ∀ u ≥ t, fires u = none) : ∀ u ≥ t, offer u = some x := by
  intro u hu
  induction u, hu using Nat.le_induction with
  | base => exact hx
  | succ u hu ih => exact h u x ih (hnone u hu)

/-! ## Turns -/

/-- Which links offer a beat. -/
def offers (msgs : Fin n → Option α) (k : Fin n) : Bool := (msgs k).isSome

namespace ChannelArb

/-- The first beat of a message is transferred. -/
def begins (a : ChannelArb n) (msgs : Fin n → Option α) (ready : Bool) : Bool :=
  decide (∃ i, (msgs i).isSome) && ready && !a.locked

/-- The link that begins a message sees the channel ready. -/
theorem ready_of_grant {a : ChannelArb n} {msgs : Fin n → Option α} {ready : Bool} {k : Fin n}
    (hb : a.begins msgs ready = true) (hk : a.arb.grant (offers msgs) = some k) :
    a.ready msgs ready k = true := by
  simp only [begins, Bool.and_eq_true, Bool.not_eq_true'] at hb
  obtain ⟨⟨-, hready⟩, hlocked⟩ := hb
  have hsel : a.select msgs = some k := by
    rw [select, hlocked, if_neg Bool.false_ne_true]
    exact hk
  rw [ChannelArb.ready, hsel, hready, decide_eq_true rfl, Bool.and_true]

end ChannelArb

/-- A shared channel takes turns, one message each. -/
theorem Shared.takesTurns {c : Chan β} {p : BurstParams} {s : ℕ → Shared n}
    {msgs : ℕ → Fin n → Option β} {ready : ℕ → Bool}
    (hnext : ∀ k, s (k + 1) = (s k).step c p (msgs k) (ready k)) :
    TakesTurns (fun t => offers (msgs t)) (fun t => (s t).arb.begins (msgs t) (ready t))
      fun t k => (s t).arb.ready (msgs t) (ready t) k = true := by
  apply Sync.takesTurns fun t => (s t).arb.arb
  · intro t
    rw [hnext]
    rfl
  · intro t k hb hk
    exact ChannelArb.ready_of_grant hb hk

/-- A channel without bursts takes turns. -/
theorem takesTurns_single {r : ℕ → RoundRobin n} {msgs : ℕ → Fin n → Option α}
    {ready : ℕ → Bool}
    (hnext : ∀ t, r (t + 1) = (r t).next
      ((((r t).grant (offers (msgs t))).bind (msgs t)).isSome && ready t) (offers (msgs t))) :
    TakesTurns (fun t => offers (msgs t))
      (fun t => (((r t).grant (offers (msgs t))).bind (msgs t)).isSome && ready t)
      fun t k => (r t).grant (offers (msgs t)) = some k ∧ ready t = true := by
  apply Sync.takesTurns r hnext
  intro t k htakes hk
  rw [Bool.and_eq_true] at htakes
  exact ⟨hk, htakes.2⟩

/-- What happens again and again happens any number of times. -/
theorem exists_count {takes : ℕ → Bool} {t : ℕ} (h : ∀ u ≥ t, ∃ v ≥ u, takes v = true) (r : ℕ) :
    ∃ m, r ≤ Nat.count (fun c => takes (t + c) = true) m := by
  induction r with
  | zero => exact ⟨0, Nat.zero_le _⟩
  | succ r ih =>
      obtain ⟨m, hm⟩ := ih
      obtain ⟨v, hv, htakes⟩ := h (t + m) (Nat.le_add_right t m)
      obtain ⟨c, rfl⟩ := Nat.exists_eq_add_of_le (le_trans (Nat.le_add_right t m) hv)
      refine ⟨c + 1, ?_⟩
      have hmono := Nat.count_monotone (fun c => takes (t + c) = true) (show m ≤ c by omega)
      rw [Nat.count_succ, if_pos htakes]
      exact Nat.add_le_add_right (hm.trans hmono) 1

/-- Where the links take turns, and turns go on while a link waits, all its beats are taken. -/
theorem TakesTurns.allTaken (fires : ℕ → Fin n → Option β) {offer : ℕ → Fin n → Option β}
    {takes : ℕ → Bool} {serves : ℕ → Fin n → Prop}
    (h : TakesTurns (fun t => offers (offer t)) takes serves) {k : Fin n}
    (hkeeps : Keeps (fun t => offer t k) fun t => fires t k)
    (hfires : ∀ t y, fires t k = some y → offer t k = some y)
    (hserves : ∀ t, serves t k → fires t k = offer t k)
    (hturns : ∀ t, (∀ u ≥ t, (offer u k).isSome = true) → ∀ u ≥ t, ∃ v ≥ u, takes v = true) :
    AllTaken (fun t => offer t k) fun t => fires t k := by
  intro t x hx
  by_contra hnone
  have hoffer : ∀ u ≥ t, offer u k = some x := by
    intro u hu
    induction u, hu using Nat.le_induction with
    | base => exact hx
    | succ u hu ih =>
        refine hkeeps u x ih ?_
        cases hf : fires u k with
        | none => exact hf
        | some y =>
            have hyx : some x = some y := ih.symm.trans (hfires u y hf)
            exact absurd ⟨u, hu, hf.trans hyx.symm⟩ hnone
  have hsome : ∀ u ≥ t, (offer u k).isSome = true := fun u hu => by rw [hoffer u hu]; rfl
  obtain ⟨m, hm⟩ := exists_count (hturns t hsome) n
  obtain ⟨c, -, -, hc⟩ := h k t m (fun c _ => hsome _ (Nat.le_add_right t c)) hm
  have hu := Nat.le_add_right t c
  exact hnone ⟨t + c, hu, (hserves _ hc).trans (hoffer _ hu)⟩

/-- On a shared channel without bursts every beat is taken. -/
theorem allTaken_single {r : ℕ → RoundRobin n} {msgs : ℕ → Fin n → Option β} {ready : ℕ → Bool}
    (hnext : ∀ t, r (t + 1) = (r t).next
      ((((r t).grant (offers (msgs t))).bind (msgs t)).isSome && ready t) (offers (msgs t)))
    (hready : Recurs fun t => ready t = true) {k : Fin n}
    (hkeeps : Keeps (fun t => msgs t k) fun t =>
      muxSent ((r t).grant (offers (msgs t))) (msgs t) (ready t) k) :
    AllTaken (fun t => msgs t k) fun t =>
      muxSent ((r t).grant (offers (msgs t))) (msgs t) (ready t) k := by
  refine TakesTurns.allTaken
    (fun t k => muxSent ((r t).grant (offers (msgs t))) (msgs t) (ready t) k)
    (takesTurns_single hnext) hkeeps (fun t y hy => ?_) (fun t ht => ?_) fun t hoffer u hu => ?_
  · rw [muxSent] at hy
    split_ifs at hy
    exact hy
  · rw [muxSent, decide_eq_true ht.1, ht.2]
    rfl
  · obtain ⟨v, hv, hr⟩ := hready u
    have hgrant : ((r v).grant (offers (msgs v))).isSome = true :=
      RoundRobin.grant_isSome (hoffer v (hu.trans hv))
    obtain ⟨j, hj⟩ := Option.isSome_iff_exists.mp hgrant
    have hmsg : (msgs v j).isSome = true := RoundRobin.request_of_grant hj
    exact ⟨v, hv, by rw [hj, Option.bind_some, hmsg, hr]; rfl⟩

/-! ## Channels that are shared by whole messages -/

namespace Shared
variable {c : Chan β} {p : BurstParams} {s : ℕ → Shared n} {msgs : ℕ → Fin n → Option β}
  {ready : ℕ → Bool} {ok : β → Prop}

/-- Without transfers the channel stays where it is. -/
theorem transfers_hold {t u : ℕ} (htu : t ≤ u)
    (h : ∀ v ≥ t, v < u → (s v).transfer (msgs v) (ready v) = none) :
    transfers s msgs ready u = transfers s msgs ready t := by
  induction u, htu using Nat.le_induction with
  | base => rfl
  | succ u hu ih =>
      rw [transfers_succ, h u hu (Nat.lt_succ_self u), Option.toList_none, List.append_nil]
      exact ih fun v hv hvu => h v hv (by omega)

theorem sent_of_transfer_none {s : Shared n} {msgs : Fin n → Option β} {ready : Bool}
    (h : s.transfer msgs ready = none) (i : Fin n) : s.sent msgs ready i = none := by
  have hpart : part i (muxTransfer (s.arb.select msgs) msgs ready).toList =
      (muxSent (s.arb.select msgs) msgs ready i).toList := part_muxTransfer i
  have hnone : muxTransfer (s.arb.select msgs) msgs ready = none := h
  rw [hnone] at hpart
  exact Option.toList_eq_nil_iff.mp hpart.symm

section Run
variable (h0 : s 0 = reset p) (hstep : ∀ k, s (k + 1) = (s k).step c p (msgs k) (ready k))
  (hlegal : ∀ i m, Legal c p ok (stream (fun k => (s k).sent (msgs k) (ready k) i) m))
  (hready : Recurs fun t => ready t = true)
  (hsends : ∀ i, Sends c p (fun t => msgs t i) fun t => (s t).sent (msgs t) (ready t) i)
include h0 hstep hlegal hready hsends

/-- A message that has begun goes on. -/
theorem exists_transfer {t : ℕ} {f : Fin n × β} {m : ℕ}
    (hpos : posOf (c.tagged (Fin n)) p (transfers s msgs ready t) = .busy f m) :
    ∃ u ≥ t, (s u).transfer (msgs u) (ready u) ≠ none := by
  by_contra hno
  have hnone : ∀ u ≥ t, (s u).transfer (msgs u) (ready u) = none := fun u hu =>
    not_not.mp fun hne => hno ⟨u, hu, hne⟩
  have hbusy : posOf c p (stream (fun k => (s k).sent (msgs k) (ready k) f.1) t) ≠ .idle := by
    have hpart := posOf_part (follows_run h0 hstep hlegal t).2 f.1
    have hparts : part f.1 (transfers s msgs ready t) =
        stream (fun k => (s k).sent (msgs k) (ready k) f.1) t := part_muxTransfers f.1 t
    rw [hparts, hpos] at hpart
    rw [hpart, Pos.on, if_pos rfl]
    exact fun h => by cases h
  obtain ⟨a, ha, hoffer⟩ := (hsends f.1).goesOn t hbusy
  obtain ⟨x, hx⟩ := Option.isSome_iff_exists.mp hoffer
  obtain ⟨b, hb, hr⟩ := hready a
  have hxb : msgs b f.1 = some x :=
    (hsends f.1).keeps.forever hx (fun u hu => sent_of_transfer_none (hnone u (ha.trans hu)) f.1)
      b hb
  -- the channel is locked to the link of the message
  have hfollows := (follows_run h0 hstep hlegal b).1
  rw [transfers_hold (ha.trans hb) fun v hv _ => hnone v hv, hpos] at hfollows
  have hlocked : (s b).arb.locked = true := hfollows.locked.mpr fun h => by cases h
  have hsel : (s b).arb.select (msgs b) = some f.1 := by
    rw [ChannelArb.select, if_pos hlocked]
    exact hfollows.selected f m rfl
  have htransfer := hnone b (ha.trans hb)
  rw [transfer, muxTransfer, if_pos hr, hsel, Option.bind_some, hxb] at htransfer
  cases htransfer

/-- Every message ends. -/
theorem exists_idle (t : ℕ) :
    ∃ u ≥ t, posOf (c.tagged (Fin n)) p (transfers s msgs ready u) = .idle := by
  let pos (u : ℕ) := posOf (c.tagged (Fin n)) p (transfers s msgs ready u)
  let rank (u : ℕ) := match pos u with
    | .idle => 0
    | .busy f m => c.len p f.2 - m
  have hfair : Recurs fun u => pos u = .idle ∨ (s u).transfer (msgs u) (ready u) ≠ none := by
    intro u
    cases hq : pos u with
    | idle => exact ⟨u, le_rfl, .inl hq⟩
    | busy f m =>
        obtain ⟨v, hv, ht⟩ := exists_transfer h0 hstep hlegal hready hsends hq
        exact ⟨v, hv, .inr ht⟩
  refine eventually_of_rank (P := fun _ => True) rank hfair (fun u _ hne => ?_) (k := t) trivial
  cases hq : pos u with
  | idle => exact absurd hq hne
  | busy f m =>
      have hrank : rank u = c.len p f.2 - m := by simp only [rank, hq]
      cases ht : (s u).transfer (msgs u) (ready u) with
      | none =>
          have hsame : pos (u + 1) = pos u := by
            change posOf _ _ (transfers s msgs ready (u + 1)) = _
            rw [transfers_succ, ht, Option.toList_none, List.append_nil]
          have hrank' : rank (u + 1) = rank u := by simp only [rank, hsame]
          refine .inr ⟨trivial, hrank'.le, fun hf => ?_⟩
          rcases hf with hf | hf
          · cases hf
          · exact absurd rfl hf
      | some x =>
          obtain ⟨hl, hx, -⟩ : Legal _ p _ (transfers s msgs ready u) ∧ _ := by
            have hnext := (follows_run h0 hstep hlegal (u + 1)).2
            rw [transfers_succ, ht, Option.toList_some] at hnext
            exact hnext.of_concat
          have hpos : pos (u + 1) = (pos u).next (c.tagged (Fin n)) p x := by
            change posOf _ _ (transfers s msgs ready (u + 1)) = _
            rw [transfers_succ, ht, Option.toList_some, posOf_concat]
          by_cases hd : (pos u).done = (c.tagged (Fin n)).len p x
          · exact .inl (hpos.trans (Pos.next_of_last hd))
          · have hlen : (c.tagged (Fin n)).len p x = c.len p f.2 := by
              have hhead : (pos u).Accepts (c.tagged (Fin n)) x := hx
              rw [hq] at hhead
              exact (c.tagged (Fin n)).len_of_header p hhead
            have hle := Pos.done_le (valid_posOf hl) hx
            have hnext : pos (u + 1) = .busy f (m + 1) := by
              rw [hpos, hq, Pos.next]
              rw [hq] at hd
              exact if_neg hd
            have hrank' : rank (u + 1) = c.len p f.2 - (m + 1) := by simp only [rank, hnext]
            have hdone : (pos u).done = m := by rw [hq]; rfl
            change (pos u).done ≤ _ at hle
            rw [hdone, hlen] at hd hle
            refine .inr ⟨trivial, by omega, fun _ => ?_⟩
            omega

/-- While a link waits, messages begin again and again. -/
theorem begins_again {k : Fin n} {t : ℕ} (hoffer : ∀ u ≥ t, (msgs u k).isSome = true) :
    ∀ u ≥ t, ∃ v ≥ u, (s v).arb.begins (msgs v) (ready v) = true := by
  intro u hu
  obtain ⟨a, ha, hidle⟩ := exists_idle h0 hstep hlegal hready hsends u
  have hex : ∃ v, a ≤ v ∧ ready v = true := hready a
  obtain ⟨hav, hr⟩ := Nat.find_spec hex
  have hquiet : ∀ v ≥ a, v < Nat.find hex → (s v).transfer (msgs v) (ready v) = none := by
    intro v hv hlt
    have hnr : ¬ready v = true := fun h => Nat.find_min hex hlt ⟨hv, h⟩
    rw [transfer, muxTransfer, if_neg hnr]
  have hfollows := (follows_run h0 hstep hlegal (Nat.find hex)).1
  rw [transfers_hold hav hquiet, hidle] at hfollows
  have hunlocked : (s (Nat.find hex)).arb.locked = false := by
    cases hlocked : (s (Nat.find hex)).arb.locked with
    | false => rfl
    | true => exact absurd rfl (hfollows.locked.mp hlocked)
  refine ⟨Nat.find hex, ha.trans hav, ?_⟩
  have hany : ∃ i, (msgs (Nat.find hex) i).isSome = true := ⟨k, hoffer _ (hu.trans (ha.trans hav))⟩
  rw [ChannelArb.begins, decide_eq_true hany, hr, hunlocked]
  rfl

/-- On a shared channel every beat is taken. -/
theorem allTaken (k : Fin n) :
    AllTaken (fun t => msgs t k) fun t => (s t).sent (msgs t) (ready t) k := by
  refine TakesTurns.allTaken (fun t k => (s t).sent (msgs t) (ready t) k)
    (takesTurns hstep) (hsends k).keeps (fun t y hy => ?_) (fun t ht => ?_)
    fun t => begins_again h0 hstep hlegal hready hsends
  · rw [sent_eq] at hy
    split_ifs at hy
    exact hy
  · rw [sent_eq, if_pos ht]

end Run

end Shared

/-! ## Channels that are routed -/

/-- A beat is taken if the link that it is for is ready again and again. -/
theorem demux_allTaken (ready : ℕ → Fin n → Bool) {dest : β → ℕ} {x : ℕ → Option β}
    (hkeeps : Keeps x (taken dest x ready)) {k : Fin n} (hready : Recurs fun t => ready t k = true)
    {t : ℕ} {y : β} (hy : x t = some y) (hk : dest y = k) :
    ∃ u ≥ t, taken dest x ready u = some y ∧ given dest x ready k u = some y := by
  obtain ⟨v, hv, hr⟩ := hready t
  have hsome : ∃ u ≥ t, taken dest x ready u = some y := by
    by_contra hno
    have hoffer : ∀ u ≥ t, x u = some y := by
      intro u hu
      induction u, hu using Nat.le_induction with
      | base => exact hy
      | succ u hu ih =>
          refine hkeeps u y ih ?_
          by_contra hne
          refine hno ⟨u, hu, ?_⟩
          rw [taken] at hne ⊢
          split_ifs at hne ⊢
          · exact ih
          · exact absurd rfl hne
    refine hno ⟨v, hv, ?_⟩
    have hdemux : demuxReady dest (x v) (ready v) = true := by
      rw [demuxReady, hoffer v hv, decide_eq_true_eq]
      exact ⟨k, decide_eq_true hk, hr⟩
    rw [taken, if_pos hdemux]
    exact hoffer v hv
  obtain ⟨u, hu, htaken⟩ := hsome
  refine ⟨u, hu, htaken, ?_⟩
  have hgiven : (if ready u k then demux dest (x u) k else none) =
      (if demuxReady dest (x u) (ready u) then x u else none).filter fun x => dest x = k :=
    demux_transfer k
  rw [given, hgiven]
  rw [taken] at htaken
  rw [htaken]
  simp [hk]

end Muntjac.Tl

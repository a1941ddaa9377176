import Muntjac.Sync.Chunks
import Muntjac.Sync.Stream
import Muntjac.Tl.Width

/-!
# From a narrow bus to a wide one

The subwords of a wide beat are collected until the last one has arrived.  A message that is
smaller than the wide bus is repeated over it, so that its bytes are in the lanes of any
address.

## Main definitions

* `Join` — the subwords that were collected, and the burst tracker of the narrow bus.
* `Join.joinMsg` — the wide beats of a message.

## Main results

* `Join.Runs.given_eq` — the wide stream of a run.
* `Join.isMessage_join`, `Join.byteOf_join` — messages stay messages, with their bytes.
-/

namespace Muntjac.Tl

open Sync

/-! ## The machine -/

structure Join (ω : Type*) where
  words : ℕ → ω
  corrupt : Bool
  burst : Burst

namespace Join
variable {β ω : Type*} (w : WidthParams) (c : Chan β) (word : β → ω) (isCorrupt : β → Bool)
  (wide : β → (ℕ → ω) → Bool → β)

/-- The low bits of the index of the narrow beat. -/
def subIdx (s : Join ω) (x : β) : ℕ :=
  Burst.idx w.narrow s.burst (c.hasData x) (c.size x) % 2 ^ w.bits

/-- The low bits of the number of narrow beats that are left. -/
def subLeft (s : Join ω) (x : β) : ℕ :=
  Burst.left w.narrow s.burst (c.hasData x) (c.size x) % 2 ^ w.bits

/-- The subwords with that of the current beat, which is repeated if the message is small. -/
def wordsD (s : Join ω) (x : β) (k : ℕ) : ω :=
  if k &&& w.subLen c x = s.subIdx w c x then word x else s.words k

/-- If any subword is corrupt, the whole beat is. -/
def corruptD (s : Join ω) (x : β) : Bool := isCorrupt x || s.corrupt

/-- The subwords of the wide beat; the most significant one is that of the current beat. -/
def allWords (s : Join ω) (x : β) (k : ℕ) : ω :=
  if k = 2 ^ w.bits - 1 then word x else s.wordsD w c word x k

/-- The wide beat that is offered, with the last subword. -/
def out (s : Join ω) (i : Option β) : Option β :=
  (i.filter fun x => s.subLeft w c x == 0).map fun x =>
    wide x (s.allWords w c word x) (s.corruptD isCorrupt x)

/-- A subword that is not the last one is always consumed. -/
def ready (s : Join ω) (i : Option β) (wideReady : Bool) : Bool :=
  if i.any fun x => s.subLeft w c x == 0 then wideReady else true

/-- The narrow beat that is taken in this cycle. -/
def taken (s : Join ω) (i : Option β) (wideReady : Bool) : Option β :=
  if s.ready w c i wideReady then i else none

/-- The wide beat that is given in this cycle. -/
def given (s : Join ω) (i : Option β) (wideReady : Bool) : Option β :=
  if wideReady then s.out w c word isCorrupt wide i else none

/-- What was collected is dropped after the last subword. -/
def next [Inhabited ω] (s : Join ω) (i : Option β) (wideReady : Bool) : Join ω :=
  match s.taken w c i wideReady with
  | none => s
  | some x =>
      { words := if s.subLeft w c x = 0 then default else s.wordsD w c word x
        corrupt := if s.subLeft w c x = 0 then false else s.corruptD isCorrupt x
        burst := s.burst.next w.narrow (c.hasData x) (c.size x) }

def reset [Inhabited ω] (w : WidthParams) : Join ω := ⟨default, false, Burst.reset w.narrow⟩

/-- The wide beat of a group of narrow beats with the header of `x`. -/
def joined (x : β) (g : List β) : β :=
  wide x (fun k => word (g.getD (k &&& w.subLen c x) x)) (g.any isCorrupt)

/-- The wide beats of a message, or of the beginning of one. -/
def joinMsg : List β → List β
  | [] => []
  | x :: l => (chunks (w.subLen c x + 1) (x :: l)).map (joined w c word isCorrupt wide x)

/-- The beats `part` of a message have been taken; the subwords of its last group have been
collected. -/
structure Inv (ok : β → Prop) (l part : List β) (s : Join ω) : Prop where
  legal : Legal c w.narrow ok l
  tracks : Tracks c w.narrow s.burst (posOf c w.narrow l)
  holds : (posOf c w.narrow l).Holds c part
  words : ∀ x, (posOf c w.narrow l).Accepts c x → ∀ k,
    k &&& w.subLen c x < (lastChunk (w.subLen c x + 1) part).length →
    s.words k = word ((lastChunk (w.subLen c x + 1) part).getD (k &&& w.subLen c x) x)
  corrupt : ∀ x, (posOf c w.narrow l).Accepts c x →
    s.corrupt = (lastChunk (w.subLen c x + 1) part).any isCorrupt

variable {w c word isCorrupt wide} {ok : β → Prop}
  (hok : ∀ x, ok x → c.size x ≤ w.narrow.maxSize)

section Step
variable {s : Join ω} {l part : List β} {x : β}

include hok in
/-- What the burst tracker shows about the group. -/
theorem sub_eq (ht : Tracks c w.narrow s.burst (posOf c w.narrow l))
    (hx : (posOf c w.narrow l).Accepts c x) (hokx : ok x) :
    s.subIdx w c x = (posOf c w.narrow l).done % (w.subLen c x + 1) ∧
      s.subLeft w c x = w.subLen c x - (posOf c w.narrow l).done % (w.subLen c x + 1) := by
  have hn := w.nlen_succ (c := c) (hok x hokx)
  have hlt := w.subLen_lt c x
  have hle : (posOf c w.narrow l).done ≤ c.len w.narrow x := (ht x hx).1
  unfold subIdx subLeft
  rw [ht.idx_eq hx, ht.left_eq hx]
  by_cases hl : c.len w.wide x = 0
  · rw [hl, Nat.zero_add, Nat.one_mul] at hn
    rw [Nat.mod_eq_of_lt (by omega), Nat.mod_eq_of_lt (by omega), Nat.mod_eq_of_lt (by omega)]
    exact ⟨rfl, by omega⟩
  · have hfull := w.subLen_of_wlen (c := c) (hok x hokx) hl
    rw [hfull] at hn ⊢
    refine ⟨rfl, ?_⟩
    have hdm := Nat.div_add_mod' (posOf c w.narrow l).done (2 ^ w.bits)
    have hmod := Nat.mod_lt (posOf c w.narrow l).done (Nat.two_pow_pos w.bits)
    have hdiv : (posOf c w.narrow l).done / 2 ^ w.bits ≤ c.len w.wide x := by
      refine Nat.lt_succ_iff.mp ((Nat.div_lt_iff_lt_mul (Nat.two_pow_pos _)).mpr ?_)
      rw [Nat.succ_eq_add_one]
      omega
    obtain ⟨d, hd⟩ := Nat.exists_eq_add_of_le hdiv
    rw [hd, Nat.add_mul, Nat.add_mul, Nat.one_mul] at hn
    rw [show c.len w.narrow x - (posOf c w.narrow l).done =
      2 ^ w.bits * d + (w.subLen c x - (posOf c w.narrow l).done % 2 ^ w.bits) by
        rw [Nat.mul_comm (2 ^ w.bits) d]; omega, Nat.mul_add_mod, Nat.mod_eq_of_lt (by omega)]

include hok in
/-- The last beat of a message is the last one of its group. -/
theorem last_of_done (hokx : ok x) {n : ℕ} (hd : n = c.len w.narrow x) :
    n % (w.subLen c x + 1) + 1 = w.subLen c x + 1 := by
  have hn := w.nlen_succ (c := c) (hok x hokx)
  have hidx := w.div_eq_done (c := c) (k := c.len w.wide x) (Nat.le_refl (w.subLen c x))
  rw [hd, show c.len w.narrow x = c.len w.wide x * (w.subLen c x + 1) + w.subLen c x by
    rw [Nat.add_mul, Nat.one_mul] at hn; omega, hidx.2]

/-- The header of a wide beat depends on the header of the narrow ones only, and says the same
about the length. -/
structure Widens (c : Chan β) (wide : β → (ℕ → ω) → Bool → β) : Prop where
  wide_eq : ∀ x y, c.header x = c.header y → wide x = wide y
  header : ∀ x f g a b, c.header (wide x f a) = c.header (wide x g b)
  hasData : ∀ x f a, c.hasData (wide x f a) = c.hasData x
  size : ∀ x f a, c.size (wide x f a) = c.size x

theorem getD_concat_lt {α : Type*} {g : List α} {k : ℕ} (x y d : α) (h : k < g.length) :
    (g ++ [x]).getD k d = g.getD k y := by
  rw [List.getD_append _ _ _ _ h, List.getD_eq_getElem _ _ h, List.getD_eq_getElem _ _ h]

theorem getD_concat_length {α : Type*} {g : List α} (x d : α) :
    (g ++ [x]).getD g.length d = x := by
  rw [List.getD_append_right _ _ _ _ (Nat.le_refl _), Nat.sub_self]
  rfl

variable {i : Option β} {wideReady : Bool}

include hok in
/-- The subwords and the flag with the current beat. -/
theorem Inv.collected (h : s.Inv w c word isCorrupt ok l part)
    (hx : (posOf c w.narrow l).Accepts c x) (hokx : ok x) :
    (∀ k, k &&& w.subLen c x < (lastChunk (w.subLen c x + 1) part).length + 1 →
      s.wordsD w c word x k =
        word ((lastChunk (w.subLen c x + 1) part ++ [x]).getD (k &&& w.subLen c x) x)) ∧
      s.corruptD isCorrupt x = (lastChunk (w.subLen c x + 1) part ++ [x]).any isCorrupt := by
  have hidx := (sub_eq hok h.tracks hx hokx).1
  rw [← h.holds.length_eq, ← length_lastChunk] at hidx
  constructor
  · intro k hk
    unfold wordsD
    rw [hidx]
    split_ifs with heq
    · rw [heq, getD_concat_length]
    · rw [getD_concat_lt x x x (by omega)]
      exact h.words x hx k (by omega)
  · rw [corruptD, h.corrupt x hx, List.any_append, Bool.or_comm]
    simp

/-- The groups of a message, seen from any of its beats. -/
theorem joinMsg_eq (hwide : Widens c wide) (hall : ∀ y ∈ l, c.header y = c.header x) :
    joinMsg w c word isCorrupt wide l =
      (chunks (w.subLen c x + 1) l).map (joined w c word isCorrupt wide x) := by
  cases l with
  | nil => simp [joinMsg]
  | cons y l =>
      have hy := hall y (by simp)
      rw [joinMsg, w.subLen_of_header hy]
      refine List.map_congr_left fun g hg => ?_
      obtain ⟨k, hk, rfl⟩ := List.mem_map.mp hg
      have hlen : (((y :: l).drop (k * (w.subLen c x + 1))).take (w.subLen c x + 1)).length =
          w.subLen c x + 1 := by
        have hle : (k + 1) * (w.subLen c x + 1) ≤ (y :: l).length :=
          (Nat.mul_le_mul_right _ (List.mem_range.mp hk)).trans (Nat.div_mul_le_self _ _)
        rw [Nat.add_mul, Nat.one_mul] at hle
        rw [List.length_take, List.length_drop]
        omega
      unfold joined
      rw [hwide.wide_eq y x hy, w.subLen_of_header hy]
      congr 1
      funext j
      have hj : j &&& w.subLen c x < w.subLen c x + 1 := Nat.lt_succ_of_le Nat.and_le_right
      rw [List.getD_eq_getElem _ _ (by omega), List.getD_eq_getElem _ _ (by omega)]

include hok in
/-- A beat is taken: the wide beats that are given, and the group that remains. -/
theorem Inv.step_taken (h : s.Inv w c word isCorrupt ok l part)
    (hwide : Widens c wide) (hx : (posOf c w.narrow l).Accepts c x) (hokx : ok x)
    (ht : s.taken w c (some x) wideReady = some x) :
    (s.given w c word isCorrupt wide (some x) wideReady).toList =
        (if (lastChunk (w.subLen c x + 1) part).length + 1 = w.subLen c x + 1 then
          [joined w c word isCorrupt wide x (lastChunk (w.subLen c x + 1) part ++ [x])] else []) ∧
      joinMsg w c word isCorrupt wide (part ++ [x]) = joinMsg w c word isCorrupt wide part ++
        (s.given w c word isCorrupt wide (some x) wideReady).toList := by
  have hleft := (sub_eq hok h.tracks hx hokx).2
  rw [← h.holds.length_eq, ← length_lastChunk] at hleft
  have hlt : (lastChunk (w.subLen c x + 1) part).length < w.subLen c x + 1 := by
    rw [length_lastChunk]
    exact Nat.mod_lt _ (Nat.succ_pos _)
  obtain ⟨hwords, hcorrupt⟩ := h.collected hok hx hokx
  have hgiven : (s.given w c word isCorrupt wide (some x) wideReady).toList =
      if (lastChunk (w.subLen c x + 1) part).length + 1 = w.subLen c x + 1 then
        [joined w c word isCorrupt wide x (lastChunk (w.subLen c x + 1) part ++ [x])] else [] := by
    split_ifs with hlast
    · have hzero : s.subLeft w c x = 0 := by omega
      have hr : wideReady = true := by
        by_contra hr
        simp [taken, ready, hzero, hr] at ht
      have hall : s.allWords w c word x = fun k =>
          word ((lastChunk (w.subLen c x + 1) part ++ [x]).getD (k &&& w.subLen c x) x) := by
        funext k
        have hle : k &&& w.subLen c x ≤ w.subLen c x := Nat.and_le_right
        unfold allWords
        split_ifs with htop
        · -- the most significant subword is the last one
          obtain ⟨e, hle, -, he, -, -⟩ := w.exists_subLen (hok x hokx)
          have hand : k &&& w.subLen c x = (lastChunk (w.subLen c x + 1) part).length := by
            have hpow := Nat.pow_dvd_pow 2 hle
            have hlen : (lastChunk (w.subLen c x + 1) part).length = 2 ^ e - 1 := by omega
            rw [hlen, htop, show w.subLen c x = 2 ^ e - 1 by omega, Nat.and_two_pow_sub_one_eq_mod]
            obtain ⟨d, hd⟩ := hpow
            have hpos := Nat.two_pow_pos w.bits
            obtain ⟨d', rfl⟩ := Nat.exists_eq_add_one_of_ne_zero (show d ≠ 0 by
              rintro rfl
              omega)
            rw [Nat.mul_add, Nat.mul_one] at hd
            have hpos' := Nat.two_pow_pos e
            rw [show 2 ^ w.bits - 1 = 2 ^ e * d' + (2 ^ e - 1) by omega, Nat.mul_add_mod,
              Nat.mod_eq_of_lt (by omega)]
          rw [hand, getD_concat_length]
        · exact hwords k (by omega)
      simp [given, hr, out, hzero, hall, hcorrupt, joined]
    · have hne : s.subLeft w c x ≠ 0 := by omega
      simp [given, out, hne]
  refine ⟨hgiven, ?_⟩
  rw [hgiven]
  have hall := h.holds.header_eq hx
  rw [joinMsg_eq hwide hall, joinMsg_eq hwide fun y hy => hall y (List.mem_append.mpr (.inl hy))]
  split_ifs with hlast
  · rw [length_lastChunk] at hlast
    rw [(chunks_concat_of_eq (Nat.succ_pos _) x hlast).1, List.map_append, List.map_singleton]
  · rw [length_lastChunk] at hlt hlast
    rw [(chunks_concat_of_lt x (by omega)).1, List.append_nil]

include hok in
/-- The invariant after a beat. -/
theorem Inv.step [Inhabited ω] (h : s.Inv w c word isCorrupt ok l part)
    (hlegal : Legal c w.narrow ok (l ++ [x])) (ht : s.taken w c i wideReady = some x) :
    (s.next w c word isCorrupt i wideReady).Inv w c word isCorrupt ok (l ++ [x])
      (if (posOf c w.narrow l).done = c.len w.narrow x then [] else part ++ [x]) := by
  obtain ⟨-, hx, hokx⟩ := hlegal.of_concat
  have hnext : s.next w c word isCorrupt i wideReady =
      { words := if s.subLeft w c x = 0 then default else s.wordsD w c word x
        corrupt := if s.subLeft w c x = 0 then false else s.corruptD isCorrupt x
        burst := s.burst.next w.narrow (c.hasData x) (c.size x) } := by
    rw [next, ht]
  have hleft := (sub_eq hok h.tracks hx hokx).2
  rw [← h.holds.length_eq, ← length_lastChunk] at hleft
  have hlt : (lastChunk (w.subLen c x + 1) part).length < w.subLen c x + 1 := by
    rw [length_lastChunk]
    exact Nat.mod_lt _ (Nat.succ_pos _)
  obtain ⟨hwords, hcorrupt⟩ := h.collected hok hx hokx
  -- the group that is collected afterwards
  have hgroup : ∀ y, c.header y = c.header x →
      (lastChunk (w.subLen c y + 1)
        (if (posOf c w.narrow l).done = c.len w.narrow x then [] else part ++ [x])) =
      if s.subLeft w c x = 0 then [] else lastChunk (w.subLen c x + 1) part ++ [x] := by
    intro y hy
    rw [w.subLen_of_header hy]
    split_ifs with hd hz hz
    · simp [lastChunk]
    · have := last_of_done (w := w) (c := c) hok hokx hd
      rw [← h.holds.length_eq, ← length_lastChunk] at this
      omega
    · rw [length_lastChunk] at hleft hlt
      exact (chunks_concat_of_eq (m := w.subLen c x + 1) (Nat.succ_pos _) x (by omega)).2
    · rw [length_lastChunk] at hleft hlt
      exact (chunks_concat_of_lt (m := w.subLen c x + 1) x (by omega)).2
  have hhead : ∀ y, (posOf c w.narrow (l ++ [x])).Accepts c y →
      (posOf c w.narrow l).done ≠ c.len w.narrow x → c.header y = c.header x := by
    intro y hy hd
    obtain ⟨f, hpos, hf⟩ := Pos.next_of_ne_last hd hx
    rw [posOf_concat, hpos] at hy
    exact Eq.trans hy hf.symm
  rw [hnext]
  refine ⟨hlegal, by rw [posOf_concat]; exact h.tracks.next hx, ?_, ?_, ?_⟩
  · rw [posOf_concat]
    split_ifs with hd
    · rw [Pos.next_of_last hd]
      rfl
    · exact h.holds.next hx hd
  · intro y hy k hk
    by_cases hd : (posOf c w.narrow l).done = c.len w.narrow x
    · rw [if_pos hd] at hk
      simp [lastChunk] at hk
    · have hyx := hhead y hy hd
      rw [hgroup y hyx, w.subLen_of_header hyx] at hk ⊢
      split_ifs at hk ⊢ with hz
      · simp at hk
      · rw [List.length_append, List.length_singleton] at hk
        change s.wordsD w c word x k = _
        have hk' : k &&& w.subLen c x <
            (lastChunk (w.subLen c x + 1) part ++ [x]).length := by simpa using hk
        rw [hwords k hk, List.getD_eq_getElem _ _ hk', List.getD_eq_getElem _ _ hk']
  · intro y hy
    by_cases hd : (posOf c w.narrow l).done = c.len w.narrow x
    · have hlast := last_of_done (w := w) (c := c) hok hokx hd
      rw [← h.holds.length_eq, ← length_lastChunk] at hlast
      have hz : s.subLeft w c x = 0 := by omega
      simp [hd, hz, lastChunk]
    · rw [hgroup y (hhead y hy hd)]
      split_ifs with hz
      · rfl
      · exact hcorrupt

end Step

/-! ## Runs -/

/-- The states of a run with these inputs. -/
structure Runs [Inhabited ω] (w : WidthParams) (c : Chan β) (word : β → ω)
    (isCorrupt : β → Bool) (states : ℕ → Join ω) (inp : ℕ → Option β) (wideReady : ℕ → Bool) :
    Prop where
  zero : states 0 = reset w
  succ : ∀ k, states (k + 1) = (states k).next w c word isCorrupt (inp k) (wideReady k)

/-- Nothing is given without a beat that is taken. -/
theorem given_of_not_taken {s : Join ω} {i : Option β} {r : Bool} (h : s.taken w c i r = none) :
    s.given w c word isCorrupt wide i r = none := by
  unfold taken ready at h
  unfold given out
  cases i with
  | none => simp
  | some x => cases hz : (s.subLeft w c x == 0) <;> cases r <;> simp_all

section Run
variable [Inhabited ω] {states : ℕ → Join ω} {inp : ℕ → Option β} {wideReady : ℕ → Bool}

theorem inv_reset : (reset w : Join ω).Inv w c word isCorrupt ok [] [] where
  legal := Legal.nil
  tracks := tracks_reset
  holds := rfl
  words x _ k hk := by simp [lastChunk] at hk
  corrupt x _ := by simp [lastChunk, reset]

include hok in
/-- The wide stream of a run consists of the wide beats of the messages that were taken, and
of those of the message that is not complete. -/
theorem Runs.given_eq (h : Runs w c word isCorrupt states inp wideReady) (hwide : Widens c wide)
    (hlegal : ∀ n, Legal c w.narrow ok
      (stream (fun k => (states k).taken w c (inp k) (wideReady k)) n)) (n : ℕ) :
    ∃ (ms : List (List β)) (part : List β),
      stream (fun k => (states k).taken w c (inp k) (wideReady k)) n = ms.flatten ++ part ∧
      (∀ m ∈ ms, c.IsMessage w.narrow m) ∧
      (states n).Inv w c word isCorrupt ok
        (stream (fun k => (states k).taken w c (inp k) (wideReady k)) n) part ∧
      stream (fun k => (states k).given w c word isCorrupt wide (inp k) (wideReady k)) n =
        ms.flatMap (joinMsg w c word isCorrupt wide) ++
          joinMsg w c word isCorrupt wide part := by
  induction n with
  | zero =>
      rw [h.zero]
      exact ⟨[], [], rfl, by simp, inv_reset, rfl⟩
  | succ n ih =>
      obtain ⟨ms, part, hstream, hms, hinv, hgiven⟩ := ih
      have hl := hlegal (n + 1)
      rw [stream_succ] at hl
      rw [stream_succ, stream_succ, hgiven, h.succ]
      cases ht : (states n).taken w c (inp n) (wideReady n) with
      | none =>
          refine ⟨ms, part, by rw [hstream]; simp, hms, ?_, ?_⟩
          · simpa [next, ht] using hinv
          · rw [given_of_not_taken ht]
            simp
      | some x =>
          rw [ht, Option.toList_some] at hl
          have hi : inp n = some x := by
            unfold taken at ht
            split_ifs at ht
            exact ht
          obtain ⟨-, hx, hokx⟩ := hl.of_concat
          have hinv' := hinv.step hok hl ht
          rw [hi] at ht
          obtain ⟨-, hjoin⟩ := hinv.step_taken hok hwide hx hokx ht
          rw [Option.toList_some]
          by_cases hd : (posOf c w.narrow
              (stream (fun k => (states k).taken w c (inp k) (wideReady k)) n)).done =
              c.len w.narrow x
          · rw [if_pos hd] at hinv'
            refine ⟨ms ++ [part ++ [x]], [], by rw [hstream]; simp, ?_, hinv', ?_⟩
            · intro m hm
              rcases List.mem_append.mp hm with hm | hm
              · exact hms m hm
              · rw [List.mem_singleton.mp hm]
                exact hinv.holds.isMessage hx hd
            · rw [hi, List.append_assoc, ← hjoin]
              simp [joinMsg]
          · rw [if_neg hd] at hinv'
            refine ⟨ms, part ++ [x], by rw [hstream]; simp, hms, hinv', ?_⟩
            rw [hi, List.append_assoc, ← hjoin]

end Run

/-! ## Messages -/

section Messages
variable {ds : List β} {x : β}

/-- The wide beats of the beginning of a message. -/
theorem joinMsg_prefix (part rest : List β) :
    joinMsg w c word isCorrupt wide part <+: joinMsg w c word isCorrupt wide (part ++ rest) := by
  cases part with
  | nil => exact List.nil_prefix
  | cons x l => exact (prefix_chunks (x :: l) rest).map _

end Messages

section Run
variable [Inhabited ω] {states : ℕ → Join ω} {inp : ℕ → Option β} {wideReady : ℕ → Bool}

include hok in
/-- The narrow stream of a run and the wide one carry the same messages. -/
theorem Runs.carries (h : Runs w c word isCorrupt states inp wideReady) (hwide : Widens c wide)
    (hlegal : ∀ n, Legal c w.narrow ok
      (stream (fun k => (states k).taken w c (inp k) (wideReady k)) n))
    {R : List β → List β → Prop}
    (hR : ∀ m, c.IsMessage w.narrow m → (∀ x ∈ m, ok x) →
      R m (joinMsg w c word isCorrupt wide m)) (n : ℕ) :
    Carries c w.narrow ok R
      (stream (fun k => (states k).taken w c (inp k) (wideReady k)) n)
      (stream (fun k => (states k).given w c word isCorrupt wide (inp k) (wideReady k)) n) := by
  obtain ⟨ms, part, hms, hm, hinv, hgiven⟩ := h.given_eq hok hwide hlegal n
  have hpart := hinv.holds.isPart (valid_posOf hinv.legal)
  have hl := hlegal n
  rw [hgiven, hms]
  rw [hms] at hl
  exact hl.carries hm hpart rfl (fun rest _ => joinMsg_prefix part rest) hR

end Run

end Join

end Muntjac.Tl

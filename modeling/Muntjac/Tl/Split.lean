import Mathlib.Data.List.Flatten
import Muntjac.Sync.Stream
import Muntjac.Tl.Width

/-!
# From a wide bus to a narrow one

A register slice holds a wide beat until all of its subwords have been sent.  The subword
is selected by the address and by the low bits of the beat index of the narrow bus.

## Main definitions

* `Split` — the register slice and the burst tracker of the narrow bus.
* `Split.split` — the narrow beats of a wide beat.

## Main results

* `Split.step_spec` — one cycle neither loses nor invents a beat.
* `Split.given_append_held` — the narrow stream of a run.
* `Split.isMessage_split`, `Split.byteOf_split` — messages stay messages, with their bytes.
-/

namespace Muntjac.Tl

open Sync

structure Split (β : Type*) where
  slice : RegSlice β
  burst : Burst

namespace Split
variable {β : Type*} (w : WidthParams) (c : Chan β) (narrow : β → ℕ → β)

def reset (w : WidthParams) : Split β := ⟨RegSlice.reset, Burst.reset w.narrow⟩

/-- The low bits of the index of the narrow beat. -/
def subIdx (s : Split β) (x : β) : ℕ :=
  Burst.idx w.narrow s.burst (c.hasData x) (c.size x) % 2 ^ w.bits

/-- The low bits of the number of narrow beats that are left. -/
def subLeft (s : Split β) (x : β) : ℕ :=
  Burst.left w.narrow s.burst (c.hasData x) (c.size x) % 2 ^ w.bits

/-- The wide beat behind the register slice. -/
def present (s : Split β) (i : Option β) : Option β := RegSlice.Reverse.rData s.slice i

/-- The narrow beat that is offered. -/
def out (s : Split β) (i : Option β) : Option β :=
  (s.present i).map fun x => narrow x (s.subIdx w c x)

/-- The wide beat is consumed with its last subword. -/
def consumes (s : Split β) (i : Option β) (ready : Bool) : Bool :=
  ready && (s.present i).any fun x => s.subLeft w c x == 0

def next (s : Split β) (i : Option β) (ready : Bool) : Split β where
  slice := RegSlice.Reverse.next s.slice i (s.consumes w c i ready)
  burst :=
    match s.present i with
    | some x => if ready then s.burst.next w.narrow (c.hasData x) (c.size x) else s.burst
    | none => s.burst

/-- The wide beat that is taken in this cycle. -/
def taken (s : Split β) (i : Option β) : Option β := RegSlice.Reverse.taken s.slice i

/-- The narrow beat that is given in this cycle. -/
def given (s : Split β) (i : Option β) (ready : Bool) : Option β :=
  if ready then s.out w c narrow i else none

/-- The narrow beats of a wide beat. -/
def split (x : β) : List β := (List.range (w.subLen c x + 1)).map (narrow x)

/-- The narrow beats that are still to be sent for the beat in the register slice. -/
def held (s : Split β) : List β :=
  match s.slice.buffer with
  | none => []
  | some x => (split w c narrow x).drop (s.subIdx w c x)

/-- `done` are the wide beats that were consumed; `i` narrow beats of the next one have been
sent. -/
structure Inv (ok : β → Prop) (done : List β) (i : ℕ) (s : Split β) : Prop where
  legal : Legal c w.wide ok (done ++ s.slice.buffer.toList)
  empty : s.slice.buffer = none → i = 0
  counts : ∀ x, (posOf c w.wide done).Accepts c x → ok x → (∀ y ∈ s.slice.buffer, y = x) →
    Burst.Counts w.narrow s.burst (c.len w.narrow x)
      ((posOf c w.wide done).done * 2 ^ w.bits + i) ∧ i ≤ w.subLen c x

variable {w c narrow} {ok : β → Prop} (hok : ∀ x, ok x → c.size x ≤ w.narrow.maxSize)

theorem split_length (x : β) : (split w c narrow x).length = w.subLen c x + 1 := by
  simp [split]

theorem split_drop {x : β} {i : ℕ} (hi : i ≤ w.subLen c x) : (split w c narrow x).drop i =
    narrow x i :: (split w c narrow x).drop (i + 1) := by
  rw [List.drop_eq_getElem_cons (by rw [split_length]; omega)]
  simp [split]

section Step
variable {s : Split β} {x : β} {k i : ℕ}

include hok in
/-- What the burst tracker of the narrow bus shows. -/
theorem sub_eq (hx : ok x) (hk : k ≤ c.len w.wide x) (hi : i ≤ w.subLen c x)
    (hc : Burst.Counts w.narrow s.burst (c.len w.narrow x) (k * 2 ^ w.bits + i)) :
    s.subIdx w c x = i ∧ s.subLeft w c x = w.subLen c x - i := by
  have hn := w.nlen_succ (c := c) (hok x hx)
  have hlt := w.subLen_lt c x
  have hidx : Burst.idx w.narrow s.burst (c.hasData x) (c.size x) = k * 2 ^ w.bits + i :=
    hc.idx_eq
  have hleft : Burst.left w.narrow s.burst (c.hasData x) (c.size x) =
      c.len w.narrow x - (k * 2 ^ w.bits + i) := hc.left_eq
  unfold subIdx subLeft
  rw [hidx, hleft]
  refine ⟨by rw [Nat.mul_comm, Nat.mul_add_mod, Nat.mod_eq_of_lt (by omega)], ?_⟩
  by_cases hl : c.len w.wide x = 0
  · have hk0 : k = 0 := by omega
    rw [hl, Nat.zero_add, Nat.one_mul] at hn
    rw [hk0, Nat.zero_mul, Nat.zero_add, Nat.mod_eq_of_lt (by omega)]
    omega
  · have hfull := w.subLen_of_wlen (c := c) (hok x hx) hl
    obtain ⟨d, hd⟩ := Nat.exists_eq_add_of_le hk
    rw [hfull, hd, show k + d + 1 = k + (d + 1) by omega, Nat.add_mul, Nat.add_mul d,
      Nat.one_mul] at hn
    have hrest : c.len w.narrow x - (k * 2 ^ w.bits + i) =
        2 ^ w.bits * d + (w.subLen c x - i) := by
      rw [Nat.mul_comm (2 ^ w.bits) d]
      omega
    rw [hrest, Nat.mul_add_mod, Nat.mod_eq_of_lt (by omega)]

include hok in
/-- The index of the last subword, in terms of the narrow bus. -/
theorem nlen_of_last (hx : ok x) (hk : k ≤ c.len w.wide x) :
    (k = c.len w.wide x → k * 2 ^ w.bits + w.subLen c x = c.len w.narrow x) ∧
      (k < c.len w.wide x → k * 2 ^ w.bits + w.subLen c x + 1 = (k + 1) * 2 ^ w.bits ∧
        (k + 1) * 2 ^ w.bits ≤ c.len w.narrow x) ∧
      (i < w.subLen c x → k * 2 ^ w.bits + i < c.len w.narrow x) := by
  have hn := w.nlen_succ (c := c) (hok x hx)
  by_cases hl : c.len w.wide x = 0
  · have hk0 : k = 0 := by omega
    rw [hl, Nat.zero_add, Nat.one_mul] at hn
    rw [hk0, Nat.zero_mul, Nat.zero_add]
    omega
  · have hfull := w.subLen_of_wlen (c := c) (hok x hx) hl
    obtain ⟨d, hd⟩ := Nat.exists_eq_add_of_le hk
    rw [hfull, hd, show k + d + 1 = k + (d + 1) by omega, Nat.add_mul, Nat.add_mul d,
      Nat.one_mul] at hn
    have hpos := Nat.two_pow_pos w.bits
    rw [Nat.add_mul, Nat.one_mul]
    refine ⟨fun h => ?_, fun h => ?_, fun h => by omega⟩
    · have hd0 : d = 0 := by omega
      rw [hd0, Nat.zero_mul] at hn
      omega
    · obtain ⟨e, he⟩ := Nat.exists_eq_add_of_lt (show 0 < d by omega)
      rw [he, Nat.add_mul, Nat.one_mul] at hn
      omega

variable {done : List β} {inp : Option β} {ready : Bool}

include hok in
/-- A wide beat is behind the slice: where the narrow bus is. -/
theorem Inv.of_present (h : s.Inv w c ok done i)
    (hlegal : Legal c w.wide ok (done ++ s.slice.buffer.toList ++ (s.taken inp).toList))
    (hx : s.present inp = some x) : (posOf c w.wide done).Accepts c x ∧ ok x ∧
      Burst.Counts w.narrow s.burst (c.len w.narrow x)
        ((posOf c w.wide done).done * 2 ^ w.bits + i) ∧ i ≤ w.subLen c x ∧
      (posOf c w.wide done).done ≤ c.len w.wide x ∧
      s.subIdx w c x = i ∧ s.subLeft w c x = w.subLen c x - i ∧
      done ++ s.slice.buffer.toList ++ (s.taken inp).toList = done ++ [x] := by
  have hall : done ++ s.slice.buffer.toList ++ (s.taken inp).toList = done ++ [x] := by
    unfold taken RegSlice.Reverse.taken RegSlice.Reverse.wReady
    unfold present RegSlice.Reverse.rData at hx
    cases hb : s.slice.buffer with
    | none =>
        rw [hb, Option.none_or] at hx
        simp [hx]
    | some y =>
        rw [hb, Option.some_or] at hx
        simp [Option.some.inj hx]
  rw [hall] at hlegal
  obtain ⟨hdone, hacc, hokx⟩ := hlegal.of_concat
  have hbuf : ∀ y ∈ s.slice.buffer, y = x := by
    intro y hy
    unfold present RegSlice.Reverse.rData at hx
    rw [Option.mem_def.mp hy, Option.some_or] at hx
    exact Option.some.inj hx
  obtain ⟨hc, hi⟩ := h.counts x hacc hokx hbuf
  have hle := Pos.done_le (valid_posOf hdone) hacc
  obtain ⟨hidx, hleft⟩ := sub_eq hok hokx hle hi hc
  exact ⟨hacc, hokx, hc, hi, hle, hidx, hleft, hall⟩

include hok in
theorem Inv.held_append_taken (h : s.Inv w c ok done i)
    (hlegal : Legal c w.wide ok (done ++ s.slice.buffer.toList ++ (s.taken inp).toList))
    (hx : s.present inp = some x) :
    s.held w c narrow ++ (s.taken inp).toList.flatMap (split w c narrow) =
      (split w c narrow x).drop i := by
  obtain ⟨-, -, -, -, -, hidx, -, -⟩ := h.of_present hok hlegal hx
  unfold held taken RegSlice.Reverse.taken RegSlice.Reverse.wReady
  unfold present RegSlice.Reverse.rData at hx
  cases hb : s.slice.buffer with
  | none =>
      rw [hb, Option.none_or] at hx
      simp [hx, h.empty hb]
  | some y =>
      rw [hb, Option.some_or, Option.some.injEq] at hx
      subst hx
      simp [hidx]

variable (narrow ready) in
include hok in
/-- One cycle neither loses nor invents a beat. -/
theorem step_spec (h : s.Inv w c ok done i)
    (hlegal : Legal c w.wide ok (done ++ s.slice.buffer.toList ++ (s.taken inp).toList)) :
    ∃ done' i', (s.next w c inp ready).Inv w c ok done' i' ∧
      done' ++ (s.next w c inp ready).slice.buffer.toList =
        done ++ s.slice.buffer.toList ++ (s.taken inp).toList ∧
      s.held w c narrow ++ (s.taken inp).toList.flatMap (split w c narrow) =
        (s.given w c narrow inp ready).toList ++ (s.next w c inp ready).held w c narrow := by
  cases hx : s.present inp with
  | none =>
      -- nothing is there, and nothing happens
      have hb : s.slice.buffer = none ∧ inp = none := by
        unfold present RegSlice.Reverse.rData at hx
        simpa using hx
      have hnext : s.next w c inp ready = s := by
        have hs : RegSlice.Reverse.next s.slice inp (s.consumes w c inp ready) = s.slice := by
          rw [RegSlice.Reverse.next, hb.1, hb.2, Option.or_none, ite_self, ← hb.1]
        simp only [next, hx, hs]
      have htaken : s.taken inp = none := by simp [taken, RegSlice.Reverse.taken, hb.2]
      have hgiven : s.given w c narrow inp ready = none := by simp [given, out, hx]
      exact ⟨done, i, by rwa [hnext], by simp [hnext, htaken], by simp [hnext, htaken, hgiven]⟩
  | some x =>
      obtain ⟨hacc, hokx, hc, hi, hle, hidx, hleft, hall⟩ := h.of_present hok hlegal hx
      rw [h.held_append_taken hok hlegal hx, hall]
      rw [hall] at hlegal
      -- while the beat is not consumed it is in the slice, with the same subwords left
      have hstay : ∀ s' : Split β, s'.slice.buffer = some x → ∀ i' ≤ w.subLen c x,
          Burst.Counts w.narrow s'.burst (c.len w.narrow x)
            ((posOf c w.wide done).done * 2 ^ w.bits + i') →
          s'.Inv w c ok done i' ∧ s'.held w c narrow = (split w c narrow x).drop i' := by
        intro s' hb i' hi' hc'
        refine ⟨⟨by rw [hb]; exact hlegal, by simp [hb], ?_⟩, ?_⟩
        · intro y hy hoky hbuf
          have hxy : x = y := hbuf x hb
          exact hxy ▸ ⟨hc', hi'⟩
        · rw [held, hb]
          change (split w c narrow x).drop (s'.subIdx w c x) = _
          rw [(sub_eq hok hokx hle hi' hc').1]
      cases ready with
      | false =>
          have hb : (s.next w c inp false).slice.buffer = some x := by
            simp only [next, RegSlice.Reverse.next, consumes, Bool.false_and, Bool.false_eq_true,
              if_false]
            exact hx
          have hburst : (s.next w c inp false).burst = s.burst := by simp [next, hx]
          obtain ⟨hinv, hheld⟩ := hstay (s.next w c inp false) hb i hi (by rw [hburst]; exact hc)
          exact ⟨done, i, hinv, by rw [hb]; rfl, by rw [hheld]; rfl⟩
      | true =>
          have hgiven : s.given w c narrow inp true = some (narrow x i) := by
            simp [given, out, hx, hidx]
          have hburst : (s.next w c inp true).burst =
              s.burst.next w.narrow (c.hasData x) (c.size x) := by simp [next, hx]
          have hcons : s.consumes w c inp true = decide (i = w.subLen c x) := by
            rw [consumes, hx]
            simp only [Bool.true_and, Option.any_some, hleft]
            by_cases hlast : i = w.subLen c x
            · simp [hlast]
            · have : w.subLen c x - i ≠ 0 := by omega
              simp [hlast, this]
          rw [hgiven, split_drop hi, Option.toList_some, List.singleton_append]
          obtain ⟨hlast, hmore, hin⟩ := nlen_of_last (i := i) hok hokx hle
          by_cases hsub : i = w.subLen c x
          · -- the last subword: the beat leaves the slice
            have hb : (s.next w c inp true).slice.buffer = none := by
              simp [next, RegSlice.Reverse.next, hcons, hsub]
            refine ⟨done ++ [x], 0, ⟨by rw [hb]; simpa using hlegal, fun _ => rfl, ?_⟩,
              by simp [hb], ?_⟩
            · intro y hy _ _
              refine ⟨?_, Nat.zero_le _⟩
              rw [hburst, posOf_concat, Nat.add_zero]
              rw [posOf_concat] at hy
              by_cases hd : (posOf c w.wide done).done = c.len w.wide x
              · rw [Pos.next_of_last hd]
                rw [hsub, hlast hd] at hc
                rw [show (Pos.idle : Pos β).done = 0 from rfl, Nat.zero_mul]
                exact hc.next_last _
              · obtain ⟨f, hnext, hf⟩ := Pos.next_of_ne_last hd hacc
                rw [hnext] at hy ⊢
                have hxy : c.header y = c.header x := Eq.trans hy hf.symm
                obtain ⟨hsucc, hlen⟩ := hmore (lt_of_le_of_ne hle hd)
                rw [c.len_of_header _ hxy]
                rw [hsub] at hc
                change Burst.Counts _ _ _ (((posOf c w.wide done).done + 1) * 2 ^ w.bits)
                rw [← hsucc]
                exact hc.next_lt (show _ < c.len w.narrow x by omega)
            · rw [held, hb, List.drop_eq_nil_of_le (by rw [split_length]; omega)]
          · have hb : (s.next w c inp true).slice.buffer = some x := by
              simp only [next, RegSlice.Reverse.next, hcons, hsub, decide_false,
                Bool.false_eq_true, if_false]
              exact hx
            have hc' : Burst.Counts w.narrow (s.next w c inp true).burst (c.len w.narrow x)
                ((posOf c w.wide done).done * 2 ^ w.bits + (i + 1)) := by
              rw [hburst]
              exact hc.next_lt (hin (by omega))
            obtain ⟨hinv, hheld⟩ := hstay (s.next w c inp true) hb (i + 1) (by omega) hc'
            exact ⟨done, i + 1, hinv, by rw [hb]; rfl, by rw [hheld]⟩

theorem inv_reset : (reset w).Inv w c ok [] 0 where
  legal := Legal.nil
  empty _ := rfl
  counts x _ _ _ := by
    refine ⟨?_, Nat.zero_le _⟩
    rw [show (posOf c w.wide []).done = 0 from rfl, Nat.zero_mul]
    exact Burst.counts_reset w.narrow _

end Step

/-! ## Runs -/

/-- The states of a run with these inputs. -/
structure Runs (w : WidthParams) (c : Chan β) (states : ℕ → Split β) (inp : ℕ → Option β)
    (ready : ℕ → Bool) : Prop where
  zero : states 0 = reset w
  succ : ∀ k, states (k + 1) = (states k).next w c (inp k) (ready k)

section Run
variable {states : ℕ → Split β} {inp : ℕ → Option β} {ready : ℕ → Bool}

include hok in
theorem Runs.inv (h : Runs w c states inp ready)
    (hlegal : ∀ n, Legal c w.wide ok (stream (fun k => (states k).taken (inp k)) n)) (n : ℕ) :
    ∃ done i, (states n).Inv w c ok done i ∧
      done ++ (states n).slice.buffer.toList = stream (fun k => (states k).taken (inp k)) n := by
  induction n with
  | zero =>
      rw [h.zero]
      exact ⟨[], 0, inv_reset, rfl⟩
  | succ n ih =>
      obtain ⟨done, i, hinv, hdone⟩ := ih
      have hl := hlegal (n + 1)
      rw [stream_succ, ← hdone] at hl
      obtain ⟨done', i', hinv', hdone', -⟩ :=
        step_spec (fun x _ => x) hok (ready n) hinv hl
      rw [h.succ, stream_succ, ← hdone]
      exact ⟨done', i', hinv', hdone'⟩

variable (narrow) in
include hok in
theorem Runs.conserve_step (h : Runs w c states inp ready)
    (hlegal : ∀ n, Legal c w.wide ok (stream (fun k => (states k).taken (inp k)) n)) (k : ℕ) :
    (states k).held w c narrow ++ ((states k).taken (inp k)).toList.flatMap (split w c narrow) =
      ((states k).given w c narrow (inp k) (ready k)).toList ++
        (states (k + 1)).held w c narrow := by
  obtain ⟨done, i, hinv, hdone⟩ := h.inv hok hlegal k
  have hl := hlegal (k + 1)
  rw [stream_succ, ← hdone] at hl
  obtain ⟨-, -, -, -, hstep⟩ := step_spec narrow hok (ready k) hinv hl
  rw [h.succ]
  exact hstep

variable (narrow) in
include hok in
/-- If the narrow bus is ready again and again, everything that is taken is given. -/
theorem Runs.eventually_given (h : Runs w c states inp ready)
    (hlegal : ∀ n, Legal c w.wide ok (stream (fun k => (states k).taken (inp k)) n))
    (hready : Recurs fun k => ready k = true) (n : ℕ) :
    ∃ m ≥ n, (stream (fun k => (states k).taken (inp k)) n).flatMap (split w c narrow) <+:
      stream (fun k => (states k).given w c narrow (inp k) (ready k)) m := by
  have hzero : (states 0).held w c narrow = [] := by
    rw [h.zero]
    rfl
  have hgive : ∀ k, ready k = true → (states k).held w c narrow ≠ [] →
      ((states k).given w c narrow (inp k) (ready k)).isSome = true := by
    intro k hk hne
    cases hb : (states k).slice.buffer with
    | none => exact absurd (by rw [held, hb]) hne
    | some x => simp [given, hk, out, present, RegSlice.Reverse.rData, hb]
  obtain ⟨m, hm, hpre⟩ := Sync.eventually_given (h.conserve_step narrow hok hlegal)
    hready hgive n
  rw [hzero, List.nil_append] at hpre
  exact ⟨m, hm, hpre⟩

end Run

/-! ## Messages -/

variable {hs : List β} {x : β}

/-- The wide stream and its subwords carry the same messages. -/
theorem carries {R : List β → List β → Prop} {l : List β} (hl : Legal c w.wide ok l)
    (hR : ∀ m, c.IsMessage w.wide m → (∀ x ∈ m, ok x) →
      R m (m.flatMap (split w c narrow))) :
    Carries c w.wide ok R l (l.flatMap (split w c narrow)) := by
  obtain ⟨ms, part, rfl, hm, hpart, -, -⟩ := hl.exists_parts
  have hsplit : (ms.flatten ++ part).flatMap (split w c narrow) =
      (ms.map fun m => m.flatMap (split w c narrow)).flatten ++
        part.flatMap (split w c narrow) := by
    rw [List.flatMap_append, List.flatten_eq_flatMap, List.flatMap_assoc]
    rfl
  rw [hsplit]
  refine hl.carries hm hpart rfl (fun rest _ => ?_) hR
  rw [List.flatMap_append]
  exact List.prefix_append _ _

end Split

end Muntjac.Tl

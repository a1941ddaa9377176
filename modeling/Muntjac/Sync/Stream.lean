import Mathlib.Data.List.Basic
import Muntjac.Sync.Run

/-!
# Streams

A channel with a valid and a ready signal transfers at most one item in a cycle.  The
items that it has transferred form its stream.  A module that neither loses nor invents
items obeys a conservation law in every cycle: what it holds and what it takes is what it
gives and what it holds afterwards.

## Main definitions

* `stream f n` — the items that were transferred before cycle `n`.
* `RegSlice.Forward`, `RegSlice.Reverse` — the two register slices.

## Main results

* `conserve` — the conservation law over a run.
* `eventually_given` — what is held is given in the end.
-/

namespace Muntjac.Sync

variable {α β : Type*}

theorem getElem?_of_prefix {l l' : List α} (h : l <+: l') {i : ℕ} {x : α} (hx : l[i]? = some x) :
    l'[i]? = some x := by
  obtain ⟨m, rfl⟩ := h
  rw [List.getElem?_append_left (List.getElem?_eq_some_iff.mp hx).1]
  exact hx

/-- The items that were transferred before cycle `n`. -/
def stream (f : ℕ → Option α) : ℕ → List α
  | 0 => []
  | n + 1 => stream f n ++ (f n).toList

@[simp] theorem stream_zero (f : ℕ → Option α) : stream f 0 = [] := rfl

theorem stream_succ (f : ℕ → Option α) (n : ℕ) : stream f (n + 1) = stream f n ++ (f n).toList :=
  rfl

theorem stream_prefix (f : ℕ → Option α) {m n : ℕ} (h : m ≤ n) : stream f m <+: stream f n := by
  induction n, h using Nat.le_induction with
  | base => exact List.prefix_rfl
  | succ n _ ih => exact ih.trans (List.prefix_append _ _)

theorem exists_of_mem_stream {f : ℕ → Option α} {n : ℕ} {x : α} (h : x ∈ stream f n) :
    ∃ k < n, f k = some x := by
  induction n with
  | zero => simp at h
  | succ n ih =>
      rw [stream_succ] at h
      rcases List.mem_append.mp h with h | h
      · obtain ⟨k, hk, hx⟩ := ih h
        exact ⟨k, by omega, hx⟩
      · exact ⟨n, by omega, Option.mem_toList.mp h⟩

/-- A stream that has ended. -/
theorem stream_prefix_of_none {f : ℕ → Option α} {m : ℕ} (h : ∀ k ≥ m, f k = none) (n : ℕ) :
    stream f n <+: stream f m := by
  rcases Nat.le_total n m with hle | hle
  · exact stream_prefix f hle
  · induction n, hle using Nat.le_induction with
    | base => exact List.prefix_rfl
    | succ n hn ih =>
        rw [stream_succ, h n hn, Option.toList_none, List.append_nil]
        exact ih

theorem stream_congr {f g : ℕ → Option α} (h : ∀ k, f k = g k) (n : ℕ) :
    stream f n = stream g n := by
  rw [funext h]

/-- The items of a channel that changes every item on the way. -/
theorem stream_map (f : ℕ → Option α) (g : α → β) (n : ℕ) :
    stream (fun k => (f k).map g) n = (stream f n).map g := by
  induction n with
  | zero => rfl
  | succ n ih =>
      rw [stream_succ, stream_succ, ih, List.map_append]
      cases f n <;> rfl

section Conserve
variable {taken : ℕ → Option α} {given : ℕ → Option β} {held : ℕ → List β} {g : α → List β}

/-- What is held at first and what is taken is what is given and what is held in the end; an
item that is taken counts as the items `g` that it becomes. -/
theorem conserve
    (h : ∀ k, held k ++ (taken k).toList.flatMap g = (given k).toList ++ held (k + 1)) (n : ℕ) :
    held 0 ++ (stream taken n).flatMap g = stream given n ++ held n := by
  induction n with
  | zero => simp
  | succ n ih =>
      rw [stream_succ, stream_succ, List.flatMap_append, ← List.append_assoc, ih,
        List.append_assoc, h n, List.append_assoc]

/-- If something is given again and again while something is held, all that has to be given by
cycle `n` is given in the end. -/
theorem eventually_given_of_total {total : ℕ → List β}
    (htotal : ∀ k, total k = stream given k ++ held k) (hmono : ∀ k, total k <+: total (k + 1))
    {fair : ℕ → Prop} (hfair : Recurs fair)
    (hgive : ∀ k, fair k → held k ≠ [] → (given k).isSome = true) (n : ℕ) :
    ∃ m ≥ n, total n <+: stream given m := by
  -- the rank is what is missing in the output
  have hpre : ∀ k ≥ n, total n <+: stream given k ++ held k := by
    intro k hk
    rw [← htotal]
    induction k, hk using Nat.le_induction with
    | base => exact List.prefix_rfl
    | succ k _ ih => exact ih.trans (hmono k)
  have hstep : ∀ k, n ≤ k → ¬(total n).length ≤ (stream given k).length →
      (total n).length ≤ (stream given (k + 1)).length ∨
        (n ≤ k + 1 ∧
          (total n).length - (stream given (k + 1)).length ≤
            (total n).length - (stream given k).length ∧
          (fair k →
            (total n).length - (stream given (k + 1)).length <
              (total n).length - (stream given k).length)) := by
    intro k hk hq
    have hlen : (stream given (k + 1)).length = (stream given k).length +
        (given k).toList.length := by rw [stream_succ, List.length_append]
    refine .inr ⟨by omega, by omega, fun hf => ?_⟩
    have hne : held k ≠ [] := by
      intro hnil
      have := (hpre k hk).length_le
      rw [hnil, List.append_nil] at this
      exact hq this
    obtain ⟨y, hy⟩ := Option.isSome_iff_exists.mp (hgive k hf hne)
    rw [hy, Option.toList_some, List.length_singleton] at hlen
    omega
  obtain ⟨m, hm, hq⟩ := eventually_of_rank (P := fun k => n ≤ k)
    (Q := fun k => (total n).length ≤ (stream given k).length)
    (fun k => (total n).length - (stream given k).length) hfair hstep (Nat.le_refl n)
  exact ⟨m, hm, List.prefix_of_prefix_length_le (hpre m hm) (List.prefix_append _ _) hq⟩

/-- If something is given again and again while something is held, all that was taken is given
in the end. -/
theorem eventually_given
    (h : ∀ k, held k ++ (taken k).toList.flatMap g = (given k).toList ++ held (k + 1))
    {fair : ℕ → Prop} (hfair : Recurs fair)
    (hgive : ∀ k, fair k → held k ≠ [] → (given k).isSome = true) (n : ℕ) :
    ∃ m ≥ n, held 0 ++ (stream taken n).flatMap g <+: stream given m := by
  have hmono : ∀ k, held 0 ++ (stream taken k).flatMap g <+:
      held 0 ++ (stream taken (k + 1)).flatMap g := by
    intro k
    rw [stream_succ, List.flatMap_append, ← List.append_assoc]
    exact List.prefix_append _ _
  exact eventually_given_of_total (conserve h) hmono hfair hgive n

end Conserve

/-! ## Register slices -/

/-- `openip_regslice`, with its buffer; the item in it is absent if `valid` is clear. -/
structure RegSlice (α : Type*) where
  buffer : Option α
  deriving DecidableEq, Repr

namespace RegSlice

def reset : RegSlice α := ⟨none⟩

/-! ### `REVERSE`: no path from `r_ready` to `w_ready` -/

namespace Reverse

def wReady (s : RegSlice α) : Bool := s.buffer.isNone

/-- The item at the output: the buffer, or the input if the buffer is empty. -/
def rData (s : RegSlice α) (w : Option α) : Option α := s.buffer.or w

def next (s : RegSlice α) (w : Option α) (rReady : Bool) : RegSlice α :=
  ⟨if rReady then none else s.buffer.or w⟩

/-- The item that is written. -/
def taken (s : RegSlice α) (w : Option α) : Option α := if wReady s then w else none

/-- The item that is read. -/
def given (s : RegSlice α) (w : Option α) (rReady : Bool) : Option α :=
  if rReady then rData s w else none

theorem conserve_step (s : RegSlice α) (w : Option α) (rReady : Bool) :
    s.buffer.toList ++ (taken s w).toList =
      (given s w rReady).toList ++ (next s w rReady).buffer.toList := by
  cases hb : s.buffer <;> cases rReady <;> simp [taken, given, next, rData, wReady, hb]

end Reverse

/-! ### `FORWARD`: no path from `w_valid` to `r_valid` -/

namespace Forward

def wReady (s : RegSlice α) (rReady : Bool) : Bool := s.buffer.isNone || rReady

def rData (s : RegSlice α) : Option α := s.buffer

def next (s : RegSlice α) (w : Option α) (rReady : Bool) : RegSlice α :=
  ⟨if wReady s rReady then w else s.buffer⟩

def taken (s : RegSlice α) (w : Option α) (rReady : Bool) : Option α :=
  if wReady s rReady then w else none

def given (s : RegSlice α) (rReady : Bool) : Option α := if rReady then s.buffer else none

theorem conserve_step (s : RegSlice α) (w : Option α) (rReady : Bool) :
    s.buffer.toList ++ (taken s w rReady).toList =
      (given s rReady).toList ++ (next s w rReady).buffer.toList := by
  cases hb : s.buffer <;> cases rReady <;> simp [taken, given, next, wReady, hb]

end Forward

end RegSlice

end Muntjac.Sync

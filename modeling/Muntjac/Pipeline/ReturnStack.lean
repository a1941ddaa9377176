import Muntjac.Sync.Ring
import Muntjac.Sync.Run
import Muntjac.Sync.Stream

/-!
# The return address stack

`muntjac_ras` keeps a ring of addresses with two pointers: one moves with the predictions, the
other with the instructions that commit.  A prediction moves the speculative pointer to the
neighbour of the committed one, which is right only when the two are equal.

## Main definitions

* `Ras` — the ring and its pointers.
* `replay` — the stack that a sequence of operations leaves.
* `Ras.Nested` — predictions that are well nested, with their commits.
* `Ras.InStep` — every prediction is made while the two pointers are equal.

## Main results

* `Ras.peek_of_inStep` — under that condition each pop finds the address of its push, and after
  a revert the speculative pointer is the one that the commits have reached.
* `Ras.inStep_of_committed` — the pointers are equal when all predictions have committed.
-/

namespace Muntjac.Pipeline

open Sync (run stream)

/-- The inputs of one cycle. -/
structure RasIn (α : Type*) where
  popSpec : Bool
  pop : Bool
  pushSpec : Bool
  push : Bool
  pushAddr : α
  revert : Bool
  deriving DecidableEq, Repr

/-- The registers; there are `2 ^ w` entries. -/
structure Ras (w : ℕ) (α : Type*) where
  mem : ℕ → α
  ptrSpecQ : ℕ
  ptrQ : ℕ

namespace Ras
variable {α : Type*} {w : ℕ}

/-! ## The module -/

/-- The pointers count modulo this number.  For one entry `[EntryWidth-1:0]` is `[-1:0]`, which
has two bits. -/
def ptrMod (w : ℕ) : ℕ := 2 ^ if w = 0 then 2 else w

/-- `ptr + 1` or `ptr - 1`. -/
def move (w : ℕ) (up : Bool) (ptr : ℕ) : ℕ :=
  if up then (ptr + 1) % ptrMod w else (ptr + (ptrMod w - 1)) % ptrMod w

/-- The direction in which a push or a pop moves a pointer; both together do not move it. -/
def direction (push pop : Bool) : Option Bool :=
  match push, pop with
  | true, false => some true
  | false, true => some false
  | _, _ => none

def reset (w : ℕ) (mem : ℕ → α) : Ras w α := ⟨mem, 0, 0⟩

/-- `peek_valid_o`. -/
def peekValid (_ : Ras w α) : Bool := true

/-- `peek_addr_o`; a pointer past the end reads nothing. -/
def peekAddr (s : Ras w α) : Option α :=
  if s.ptrSpecQ < 2 ^ w then some (s.mem s.ptrSpecQ) else none

def ptrD (s : Ras w α) (i : RasIn α) : ℕ :=
  (direction i.push i.pop).elim s.ptrQ fun up => move w up s.ptrQ

def ptrSpecD (s : Ras w α) (i : RasIn α) : ℕ :=
  if i.revert then s.ptrD i
  else (direction i.pushSpec i.popSpec).elim s.ptrSpecQ fun up => move w up s.ptrQ

def step (s : Ras w α) (i : RasIn α) : Ras w α where
  mem :=
    if i.pushSpec = true ∧ s.ptrSpecD i < 2 ^ w then
      Function.update s.mem (s.ptrSpecD i) i.pushAddr
    else s.mem
  ptrSpecQ := s.ptrSpecD i
  ptrQ := s.ptrD i

/-- The registers in a cycle of a run. -/
def state (w : ℕ) (mem : ℕ → α) (inp : ℕ → RasIn α) (n : ℕ) : Ras w α :=
  run step (reset w mem) inp n

end Ras

/-! ## What the stack is for -/

/-- An operation on a stack. -/
inductive StackOp (α : Type*)
  | push (a : α)
  | pop
  deriving DecidableEq, Repr

namespace StackOp
variable {α : Type*}

def isPush : StackOp α → Bool
  | push _ => true
  | pop => false

/-- The stack after an operation; it holds at most `n` items. -/
def apply (n : ℕ) : List α → StackOp α → Option (List α)
  | st, push a => if st.length < n then some (a :: st) else none
  | [], pop => none
  | _ :: st, pop => some st

end StackOp

section Replay
variable {α : Type*} {n : ℕ}

/-- The stack after a well-nested sequence of operations of depth at most `n`. -/
def replay (n : ℕ) (l : List (StackOp α)) : Option (List α) := l.foldlM (StackOp.apply n) []

theorem replay_append (l m : List (StackOp α)) :
    replay n (l ++ m) = (replay n l).bind fun st => m.foldlM (StackOp.apply n) st :=
  List.foldlM_append

theorem replay_concat (l : List (StackOp α)) (o : StackOp α) :
    replay n (l ++ [o]) = (replay n l).bind fun st => StackOp.apply n st o := by
  rw [replay_append]
  simp

end Replay

namespace Ras
variable {α : Type*} {w : ℕ} {s : Ras w α} {i : RasIn α} {mem : ℕ → α} {inp : ℕ → RasIn α}

/-- The prediction of a cycle. -/
def specOp (i : RasIn α) : Option (StackOp α) :=
  (direction i.pushSpec i.popSpec).map fun up => if up then .push i.pushAddr else .pop

/-- The commit of a cycle. -/
def commitOp (i : RasIn α) : Option Bool := direction i.push i.pop

/-- The pointer that a sequence of pushes and pops reaches. -/
def pointer (w : ℕ) (l : List Bool) : ℕ := l.foldl (fun ptr up => move w up ptr) 0

/-- Predictions, of which there is at most one in a cycle, are well nested and of bounded depth;
the commits follow them in the same order, after any delays; nothing is reverted. -/
structure Nested (w : ℕ) (inp : ℕ → RasIn α) : Prop where
  spec_single : ∀ n, ¬((inp n).pushSpec = true ∧ (inp n).popSpec = true)
  commit_single : ∀ n, ¬((inp n).push = true ∧ (inp n).pop = true)
  nested : ∀ n, (replay (2 ^ w) (stream (fun k => specOp (inp k)) n)).isSome
  commits : ∀ n, stream (fun k => commitOp (inp k)) n <+:
    (stream (fun k => specOp (inp k)) n).map StackOp.isPush
  no_revert : ∀ n, (inp n).revert = false

/-- Every prediction is made while the speculative pointer is where the committed one is. -/
def InStep (w : ℕ) (mem : ℕ → α) (inp : ℕ → RasIn α) : Prop :=
  ∀ n, (specOp (inp n)).isSome → (state w mem inp n).ptrSpecQ = (state w mem inp n).ptrQ

/-! ## One step -/

/-- The ring holds the stack below the speculative pointer. -/
structure Holds (s : Ras w α) (st : List α) : Prop where
  depth : st.length ≤ 2 ^ w
  ptr : s.ptrSpecQ = st.length % 2 ^ w
  entry : ∀ k (hk : k < st.length), s.mem ((st.length - k) % 2 ^ w) = st[k]

theorem ptrMod_of_pos (hw : 1 ≤ w) : ptrMod w = 2 ^ w := by
  rw [ptrMod, if_neg (by omega)]

theorem holds_reset (w : ℕ) (mem : ℕ → α) : (reset w mem).Holds [] where
  depth := Nat.zero_le _
  ptr := by simp [reset]
  entry := by simp

/-- The top of the stack is what is read. -/
theorem Holds.peekAddr_eq {a : α} {st : List α} (h : s.Holds (a :: st)) : s.peekAddr = some a := by
  have hpos := Nat.two_pow_pos w
  have hlt : s.ptrSpecQ < 2 ^ w := by
    rw [h.ptr]
    exact Nat.mod_lt _ hpos
  have htop := h.entry 0 (by simp)
  rw [Nat.sub_zero, ← h.ptr] at htop
  rw [peekAddr, if_pos hlt, htop]
  rfl

theorem specOp_eq_push {a : α} (h : specOp i = some (.push a)) :
    i.pushSpec = true ∧ i.popSpec = false ∧ i.pushAddr = a := by
  unfold specOp direction at h
  cases hs : i.pushSpec <;> cases hp : i.popSpec <;> simp [hs, hp] at h
  exact ⟨rfl, rfl, h⟩

theorem specOp_eq_pop (h : specOp i = some .pop) : i.pushSpec = false ∧ i.popSpec = true := by
  unfold specOp direction at h
  cases hs : i.pushSpec <;> cases hp : i.popSpec <;> simp [hs, hp] at h
  exact ⟨rfl, rfl⟩

/-- A push in step writes the slot above the stack. -/
theorem Holds.push {a : α} {st : List α} (h : s.Holds st) (hw : 1 ≤ w)
    (hop : specOp i = some (.push a)) (hrev : i.revert = false) (hstep : s.ptrSpecQ = s.ptrQ)
    (hdepth : st.length < 2 ^ w) : (s.step i).Holds (a :: st) := by
  obtain ⟨hpush, hpop, ha⟩ := specOp_eq_push hop
  have hptr : s.ptrSpecD i = (st.length + 1) % 2 ^ w := by
    rw [ptrSpecD, hrev, if_neg Bool.false_ne_true, hpush, hpop]
    show move w true s.ptrQ = _
    rw [move, if_pos rfl, ptrMod_of_pos hw, ← hstep, h.ptr, Nat.mod_add_mod]
  have hlt : s.ptrSpecD i < 2 ^ w := hptr ▸ Nat.mod_lt _ (Nat.two_pow_pos w)
  have hmem : (s.step i).mem = Function.update s.mem ((st.length + 1) % 2 ^ w) a := by
    show (if _ then _ else _) = _
    rw [if_pos ⟨hpush, hlt⟩, hptr, ha]
  refine ⟨?_, hptr, ?_⟩
  · exact hdepth
  · intro k hk
    rw [List.length_cons] at hk
    rw [hmem, List.length_cons]
    cases k with
    | zero =>
        rw [Nat.sub_zero, Function.update_self]
        rfl
    | succ k =>
        rw [show st.length + 1 - (k + 1) = st.length - k by omega]
        rw [Sync.Ring.update_of_ne (show 1 ≤ st.length - k by omega) (by omega) (by omega)
          (by omega) (by omega)]
        exact h.entry k (by omega)

/-- A pop in step uncovers the entry below. -/
theorem Holds.pop {a : α} {st : List α} (h : s.Holds (a :: st)) (hw : 1 ≤ w)
    (hop : specOp i = some .pop) (hrev : i.revert = false) (hstep : s.ptrSpecQ = s.ptrQ) :
    (s.step i).Holds st := by
  obtain ⟨hpush, hpop⟩ := specOp_eq_pop hop
  have hpos := Nat.two_pow_pos w
  have hdepth := h.depth
  rw [List.length_cons] at hdepth
  have hptr : s.ptrSpecD i = st.length % 2 ^ w := by
    rw [ptrSpecD, hrev, if_neg Bool.false_ne_true, hpush, hpop]
    show move w false s.ptrQ = _
    rw [move, if_neg Bool.false_ne_true, ptrMod_of_pos hw, ← hstep, h.ptr, List.length_cons,
      Nat.mod_add_mod, show st.length + 1 + (2 ^ w - 1) = st.length + 2 ^ w by omega,
      Nat.add_mod_right]
  have hmem : (s.step i).mem = s.mem := if_neg fun hcond => by simp [hpush] at hcond
  refine ⟨by omega, hptr, ?_⟩
  intro k hk
  have hk' : k + 1 < (a :: st).length := Nat.succ_lt_succ hk
  have hsub : st.length - k = (a :: st).length - (k + 1) := by
    rw [List.length_cons]
    omega
  rw [hmem, hsub]
  exact h.entry (k + 1) hk'

/-- Without a prediction the ring stays as it is. -/
theorem Holds.idle {st : List α} (h : s.Holds st) (hop : specOp i = none)
    (hsingle : ¬(i.pushSpec = true ∧ i.popSpec = true)) (hrev : i.revert = false) :
    (s.step i).Holds st := by
  have hnone : i.pushSpec = false ∧ i.popSpec = false := by
    unfold specOp direction at hop
    revert hop hsingle
    cases i.pushSpec <;> cases i.popSpec <;> simp
  have hptr : (s.step i).ptrSpecQ = s.ptrSpecQ := by
    show s.ptrSpecD i = _
    rw [ptrSpecD, hrev, if_neg Bool.false_ne_true, hnone.1, hnone.2]
    rfl
  have hmem : (s.step i).mem = s.mem := if_neg fun hcond => by simp [hnone.1] at hcond
  exact ⟨h.depth, hptr.trans h.ptr, fun k hk => by rw [hmem]; exact h.entry k hk⟩

/-! ## Runs -/

/-- While every prediction is in step, the ring holds the stack of the predictions. -/
theorem holds_run (hw : 1 ≤ w) (h : Nested w inp) (hin : InStep w mem inp) (n : ℕ) :
    ∃ st, replay (2 ^ w) (stream (fun k => specOp (inp k)) n) = some st ∧
      (state w mem inp n).Holds st := by
  induction n with
  | zero => exact ⟨[], rfl, holds_reset w mem⟩
  | succ n ih =>
      obtain ⟨st, hst, hholds⟩ := ih
      have hnest := h.nested (n + 1)
      have hrev := h.no_revert n
      rw [Sync.stream_succ] at hnest ⊢
      cases hop : specOp (inp n) with
      | none =>
          rw [Option.toList_none, List.append_nil]
          exact ⟨st, hst, hholds.idle hop (h.spec_single n) hrev⟩
      | some o =>
          have hstep := hin n (by rw [hop]; rfl)
          rw [hop] at hnest
          rw [Option.toList_some, replay_concat, hst, Option.bind_some] at hnest ⊢
          cases o with
          | push a =>
              rcases Nat.lt_or_ge st.length (2 ^ w) with hlt | hge
              · refine ⟨a :: st, ?_, hholds.push hw hop hrev hstep hlt⟩
                rw [StackOp.apply, if_pos hlt]
              · rw [StackOp.apply, if_neg (by omega)] at hnest
                cases hnest
          | pop =>
              cases st with
              | nil => cases hnest
              | cons b st => exact ⟨st, rfl, hholds.pop hw hop hrev hstep⟩

/-- The committed pointer is the one that the commits reach. -/
theorem ptrQ_run (mem : ℕ → α) (inp : ℕ → RasIn α) (n : ℕ) :
    (state w mem inp n).ptrQ = pointer w (stream (fun k => commitOp (inp k)) n) := by
  induction n with
  | zero => rfl
  | succ n ih =>
      rw [Sync.stream_succ]
      show ptrD (state w mem inp n) (inp n) = _
      rw [ptrD, ih, pointer, pointer, List.foldl_append]
      show (commitOp (inp n)).elim _ _ = _
      cases commitOp (inp n) <;> rfl

/-- Under the condition each pop finds the address of the push that it matches; and in every
run, a revert takes the speculative pointer to where the commits alone have led. -/
theorem peek_of_inStep (w : ℕ) (mem : ℕ → α) (inp : ℕ → RasIn α) :
    (1 ≤ w → Nested w inp → InStep w mem inp → ∀ n, (inp n).popSpec = true →
        ∃ a st, replay (2 ^ w) (stream (fun k => specOp (inp k)) n) = some (a :: st) ∧
          (state w mem inp n).peekAddr = some a) ∧
      ∀ n, (inp n).revert = true →
        (state w mem inp (n + 1)).ptrSpecQ =
          pointer w (stream (fun k => commitOp (inp k)) (n + 1)) := by
  constructor
  · intro hw h hin n hpop
    obtain ⟨st, hst, hholds⟩ := holds_run hw h hin n
    have hnest := h.nested (n + 1)
    have hop : specOp (inp n) = some .pop := by
      have hsingle := h.spec_single n
      unfold specOp direction
      rw [hpop] at hsingle ⊢
      cases hpush : (inp n).pushSpec with
      | false => rfl
      | true => exact absurd ⟨hpush, rfl⟩ hsingle
    rw [Sync.stream_succ, hop, Option.toList_some, replay_concat, hst, Option.bind_some] at hnest
    cases st with
    | nil => cases hnest
    | cons a st => exact ⟨a, st, hst, hholds.peekAddr_eq⟩
  · intro n hrev
    rw [← ptrQ_run mem]
    show ptrSpecD _ _ = ptrD _ _
    rw [ptrSpecD, if_pos hrev]

/-- The speculative pointer is the one that the predictions reach. -/
theorem ptrSpecQ_run (h : Nested w inp) {n : ℕ}
    (hin : ∀ k < n, (specOp (inp k)).isSome →
      (state w mem inp k).ptrSpecQ = (state w mem inp k).ptrQ) :
    (state w mem inp n).ptrSpecQ =
      pointer w ((stream (fun k => specOp (inp k)) n).map StackOp.isPush) := by
  induction n with
  | zero => rfl
  | succ n ih =>
      have hprev := ih fun k hk => hin k (by omega)
      have hstep := hin n (by omega)
      have hrev := h.no_revert n
      rw [Sync.stream_succ, List.map_append, pointer, List.foldl_append, ← pointer, ← hprev]
      show ptrSpecD (state w mem inp n) (inp n) = _
      rw [ptrSpecD, hrev, if_neg Bool.false_ne_true]
      unfold specOp at hstep ⊢
      cases hd : direction (inp n).pushSpec (inp n).popSpec with
      | none => rfl
      | some up =>
          rw [hd] at hstep
          rw [← hstep rfl]
          cases up <;> rfl

/-- When each prediction waits until the earlier ones have committed, all are in step. -/
theorem inStep_of_committed (h : Nested w inp)
    (hwait : ∀ n, (specOp (inp n)).isSome →
      (stream (fun k => commitOp (inp k)) n).length =
        (stream (fun k => specOp (inp k)) n).length) : InStep w mem inp := by
  intro n
  induction n using Nat.strong_induction_on with
  | h n ih =>
      intro hop
      have hlist : stream (fun k => commitOp (inp k)) n =
          (stream (fun k => specOp (inp k)) n).map StackOp.isPush := by
        refine (h.commits n).eq_of_length ?_
        rw [hwait n hop, List.length_map]
      rw [ptrSpecQ_run h fun k hk => ih k hk, ptrQ_run, hlist]

/-! ## Runs that show both cases -/

/-- A cycle without an operation. -/
def rest : RasIn ℕ := ⟨false, false, false, false, 0, false⟩

/-- A call and a return, each of which commits a cycle later. -/
def callReturn : ℕ → RasIn ℕ
  | 0 => { rest with pushSpec := true, pushAddr := 100 }
  | 1 => { rest with push := true }
  | 2 => { rest with popSpec := true }
  | 3 => { rest with pop := true }
  | _ => rest

/-- Two calls one after the other, whose returns come before any of them commits. -/
def nestedCalls : ℕ → RasIn ℕ
  | 0 => { rest with pushSpec := true, pushAddr := 100 }
  | 1 => { rest with pushSpec := true, pushAddr := 200 }
  | 2 => { rest with popSpec := true }
  | 3 => { rest with popSpec := true }
  | 4 => { rest with push := true }
  | 5 => { rest with push := true }
  | 6 => { rest with pop := true }
  | 7 => { rest with pop := true }
  | _ => rest

theorem stream_of_rest {β : Type*} {f : RasIn ℕ → Option β} {g : ℕ → RasIn ℕ} {m : ℕ}
    (hf : f rest = none) (hg : ∀ n, m ≤ n → g n = rest) (n : ℕ) :
    stream (fun k => f (g k)) (m + n) = stream (fun k => f (g k)) m := by
  induction n with
  | zero => rfl
  | succ n ih =>
      rw [Nat.add_succ, Sync.stream_succ, ih, hg (m + n) (by omega), hf, Option.toList_none,
        List.append_nil]

/-- What holds in the cycles before the operations end holds in all of them. -/
theorem nested_of_rest {g : ℕ → RasIn ℕ} {m : ℕ} (hg : ∀ n, m ≤ n → g n = rest)
    (hsmall : ∀ n ≤ m, (replay (2 ^ w) (stream (fun k => specOp (g k)) n)).isSome ∧
      stream (fun k => commitOp (g k)) n <+:
        (stream (fun k => specOp (g k)) n).map StackOp.isPush)
    (hcycle : ∀ n < m, ¬((g n).pushSpec = true ∧ (g n).popSpec = true) ∧
      ¬((g n).push = true ∧ (g n).pop = true) ∧ (g n).revert = false) : Nested w g := by
  have hcycle' : ∀ n, ¬((g n).pushSpec = true ∧ (g n).popSpec = true) ∧
      ¬((g n).push = true ∧ (g n).pop = true) ∧ (g n).revert = false := by
    intro n
    rcases Nat.lt_or_ge n m with hlt | hge
    · exact hcycle n hlt
    · rw [hg n hge]
      decide
  have hall : ∀ n, (replay (2 ^ w) (stream (fun k => specOp (g k)) n)).isSome ∧
      stream (fun k => commitOp (g k)) n <+:
        (stream (fun k => specOp (g k)) n).map StackOp.isPush := by
    intro n
    rcases Nat.le_total n m with hle | hge
    · exact hsmall n hle
    · obtain ⟨j, rfl⟩ := Nat.exists_eq_add_of_le hge
      rw [stream_of_rest (f := specOp) rfl hg, stream_of_rest (f := commitOp) rfl hg]
      exact hsmall m (Nat.le_refl m)
  exact ⟨fun n => (hcycle' n).1, fun n => (hcycle' n).2.1, fun n => (hall n).1,
    fun n => (hall n).2, fun n => (hcycle' n).2.2⟩

theorem nested_callReturn : Nested 3 callReturn := by
  refine nested_of_rest (m := 4) (fun n hn => ?_) (by decide) (by decide)
  obtain ⟨j, rfl⟩ := Nat.exists_eq_add_of_le' hn
  rfl

theorem nested_nestedCalls : Nested 3 nestedCalls := by
  refine nested_of_rest (m := 8) (fun n hn => ?_) (by decide) (by decide)
  obtain ⟨j, rfl⟩ := Nat.exists_eq_add_of_le' hn
  rfl

theorem inStep_callReturn : InStep 3 (fun _ => 0) callReturn := by
  refine inStep_of_committed nested_callReturn fun n hop => ?_
  match n with
  | 0 | 1 | 2 | 3 => revert hop; decide
  | n + 4 => cases hop

theorem peek_of_inStep_call :
    (∃ a st, replay (2 ^ 3) (stream (fun k => specOp (callReturn k)) 2) = some (a :: st) ∧
        (state 3 (fun _ => 0) callReturn 2).peekAddr = some a) ∧
      (state 3 (fun _ => 0) callReturn 2).peekAddr = some 100 :=
  ⟨(peek_of_inStep 3 (fun _ => 0) callReturn).1 (by decide) nested_callReturn inStep_callReturn 2
    rfl, by decide⟩

/-- The second return finds an entry that no call has written. -/
theorem nested_calls_mispredicted :
    Nested 3 nestedCalls ∧
      replay (2 ^ 3) (stream (fun k => specOp (nestedCalls k)) 3) = some [100] ∧
      (nestedCalls 3).popSpec = true ∧
      (state 3 (fun _ => 0) nestedCalls 3).peekAddr = some 0 :=
  ⟨nested_nestedCalls, by decide, rfl, by decide⟩

end Ras

end Muntjac.Pipeline

import Muntjac.Core.Ptw
import Muntjac.Sync.Run

/-!
# Runs of the page table walker

The walker with a memory that accepts a read when it likes and answers it when it
likes, from a fixed image.  While no request comes before the answer to the last one,
every request is answered once, by the translation of the tables, and the reads are
the entries on the path of the walk.

## Main definitions

* `Sv39.path` — the entries that a walk reads.
* `PtwSys` — the walker, the read that is not answered yet and the reads so far.
* `PtwSys.Inv` — the reads so far and the entry awaited are on the path.
-/

namespace Muntjac.Core

open Sync

namespace Sv39

/-- The entries that the walk reads from the level-`i` entry at `a` on. -/
def pathFrom (pa : ℕ) (mem : ℕ → ℕ) (vpn : ℕ) : ℕ → ℕ → List ℕ
  | 0, a => [a]
  | i + 1, a => a :: match visit pa vpn (i + 1) (mem a) with
    | .inl _ => []
    | .inr a' => pathFrom pa mem vpn i a'

/-- The entries that the walk of `vpn` reads. -/
def path (pa : ℕ) (mem : ℕ → ℕ) (root vpn : ℕ) : List ℕ :=
  pathFrom pa mem vpn 2 (cat root 9 (vpnField vpn 2))

theorem length_pathFrom_le (pa : ℕ) (mem : ℕ → ℕ) (vpn i a : ℕ) :
    (pathFrom pa mem vpn i a).length ≤ i + 1 := by
  induction i generalizing a with
  | zero => simp [pathFrom]
  | succ i ih =>
      rw [pathFrom]
      split
      · simp
      · rw [List.length_cons]
        exact Nat.succ_le_succ (ih _)

section Visit
variable {pa vpn : ℕ} {mem : ℕ → ℕ}

theorem pathFrom_of_end {i a : ℕ} {o : Option Leaf} (h : visit pa vpn i (mem a) = .inl o) :
    pathFrom pa mem vpn i a = [a] := by
  cases i <;> simp [pathFrom, h]

theorem pathFrom_of_next {i a a' : ℕ} (h : visit pa vpn (i + 1) (mem a) = .inr a') :
    pathFrom pa mem vpn (i + 1) a = a :: pathFrom pa mem vpn i a' := by
  simp [pathFrom, h]

end Visit

end Sv39

namespace Ptw

/-- An entry that is no pointer ends the walk, and so does any entry of the last level. -/
theorem exists_visit_end {pa vpn l d : ℕ} (h : nextLevel d = false ∨ l = 0) :
    ∃ o, Sv39.visit pa vpn l d = .inl o := by
  rw [nextLevel_eq_isPointer] at h
  rcases h with h | rfl
  · simp only [Sv39.visit, h, Bool.false_eq_true, if_false]
    split_ifs <;> simp
  · simp only [Sv39.visit, if_true]
    split_ifs <;> simp

/-- Reading an entry does what a visit of the entry says. -/
theorem read_cases {pa l : ℕ} {s : Ptw} {i : PtwIn} (h : s.level = some l)
    (hq : i.reqValid = false) (hv : i.memRespValid = true) :
    (∃ l' a, l = l' + 1 ∧ Sv39.visit pa s.vpnQ l i.memRespData = .inr a ∧
      (s.step pa i).level = some l' ∧ (s.step pa i).reqValidQ = true ∧
      (s.step pa i).reqAddrQ = a) ∨
    (∃ o, Sv39.visit pa s.vpnQ l i.memRespData = .inl o) ∧ (s.step pa i).stateQ = .done ∧
      (s.step pa i).reqValidQ = (s.sent i).reqValidQ := by
  cases hs : s.stateQ <;> simp only [level, hs, reduceCtorEq, Option.some.injEq] at h
  all_goals
    subst h
    simp only [step, hq, walkStep, hs, hv, Bool.not_true, Bool.false_eq_true, if_false]
  case atpL3 =>
    by_cases hn : nextLevel i.memRespData = true
    · rw [if_pos hn]
      exact .inl ⟨1, _, rfl, visit_nextLevel hn, rfl, rfl, rfl⟩
    · rw [if_neg hn]
      refine .inr ⟨exists_visit_end (.inl (by simpa using hn)), ?_⟩
      split_ifs <;> exact ⟨rfl, rfl⟩
  case atpL2 =>
    by_cases hn : nextLevel i.memRespData = true
    · rw [if_pos hn]
      exact .inl ⟨0, _, rfl, visit_nextLevel hn, rfl, rfl, rfl⟩
    · rw [if_neg hn]
      refine .inr ⟨exists_visit_end (.inl (by simpa using hn)), ?_⟩
      split_ifs <;> exact ⟨rfl, rfl⟩
  case atpL1 =>
    refine .inr ⟨exists_visit_end (.inr rfl), ?_⟩
    split_ifs <;> exact ⟨rfl, rfl⟩

/-- Only a request changes the page number. -/
theorem vpnQ_step {pa : ℕ} {s : Ptw} {i : PtwIn} (hq : i.reqValid = false) :
    (s.step pa i).vpnQ = s.vpnQ := by
  simp only [step, hq, Bool.false_eq_true, if_false, walkStep]
  cases s.stateQ
  case idle | done => rfl
  all_goals
    dsimp only
    split_ifs <;> rfl

end Ptw

/-- The walker and its memory.  `root` and `reads` are the root of the last request and
the byte addresses of the reads accepted since. -/
structure PtwSys where
  ptw : Ptw
  root : ℕ
  reads : List ℕ
  pending : Option ℕ
  deriving DecidableEq, Repr

namespace PtwSys

/-- `mem_req_address_o` of a read that is accepted in this cycle. -/
def accepted (s : PtwSys) (i : PtwIn) : Option ℕ :=
  if s.ptw.reqValidQ && i.memReqReady then some (cat s.ptw.reqAddrQ 3 0) else none

/-- The read that the memory may answer in this cycle. -/
def awaited (s : PtwSys) (i : PtwIn) : Option ℕ := (s.accepted i).or s.pending

def step (pa : ℕ) (s : PtwSys) (i : PtwIn) : PtwSys where
  ptw := s.ptw.step pa i
  root := if i.reqValid then i.reqPtPpn else s.root
  reads := if i.reqValid then [] else s.reads ++ (s.accepted i).toList
  pending := if i.memRespValid then none else s.awaited i

/-- The memory answers only the read that is awaited, with its entry of the image. -/
def Answers (mem : ℕ → ℕ) (s : PtwSys) (i : PtwIn) : Prop :=
  i.memRespValid = true → ∃ a ∈ s.awaited i, i.memRespData = mem (a / 8)

/-- No request before the answer to the last one. -/
def Single (s : PtwSys) (i : PtwIn) : Prop := i.reqValid = true → s.ptw.level = none

/-- The walker at rest. -/
structure IsRest (s : PtwSys) : Prop where
  stateQ : s.ptw.stateQ = .idle
  reqValidQ : s.ptw.reqValidQ = false
  pending : s.pending = none

/-- The reads before the one that the walker waits for are the beginning of the path. -/
structure Waits (pa : ℕ) (mem : ℕ → ℕ) (s : PtwSys) (l : ℕ) (before : List ℕ) : Prop where
  path : before ++ Sv39.pathFrom pa mem s.ptw.vpnQ l s.ptw.reqAddrQ =
    Sv39.path pa mem s.root s.ptw.vpnQ
  unsent : s.ptw.reqValidQ = true → s.pending = none ∧ s.reads = before.map (cat · 3 0)
  sent : s.ptw.reqValidQ = false → s.pending = some (cat s.ptw.reqAddrQ 3 0) ∧
    s.reads = (before ++ [s.ptw.reqAddrQ]).map (cat · 3 0)

structure Inv (pa : ℕ) (mem : ℕ → ℕ) (s : PtwSys) : Prop where
  ok : Ptw.Ok (fun a d => mem a = d) pa s.root s.ptw
  rest : s.ptw.level = none → s.ptw.reqValidQ = false ∧ s.pending = none
  waits : ∀ l, s.ptw.level = some l → ∃ before, s.Waits pa mem l before
  done : s.ptw.stateQ = .done → s.reads = (Sv39.path pa mem s.root s.ptw.vpnQ).map (cat · 3 0)

section Step
variable {pa : ℕ} {mem : ℕ → ℕ} {s : PtwSys} {i : PtwIn}

theorem cat_div_eight (a : ℕ) : cat a 3 0 / 8 = a := by
  rw [cat]
  omega

/-- The read that the walker waits for is the only one that can be answered. -/
theorem Waits.awaited_eq {l : ℕ} {before : List ℕ} (h : s.Waits pa mem l before) :
    s.awaited i = if s.ptw.reqValidQ && !i.memReqReady then none
      else some (cat s.ptw.reqAddrQ 3 0) := by
  cases hr : s.ptw.reqValidQ
  · simp [awaited, accepted, hr, (h.sent hr).1]
  · cases hready : i.memReqReady <;> simp [awaited, accepted, hr, hready, (h.unsent hr).1]

theorem Waits.data_of_answers {l : ℕ} {before : List ℕ} (h : s.Waits pa mem l before)
    (hm : s.Answers mem i) (hv : i.memRespValid = true) :
    (s.ptw.sent i).reqValidQ = false ∧ i.memRespData = mem s.ptw.reqAddrQ := by
  obtain ⟨a, ha, hd⟩ := hm hv
  rw [h.awaited_eq] at ha
  split_ifs at ha with hc
  · simp at ha
  · simp only [Option.mem_def, Option.some.injEq] at ha
    subst ha
    rw [cat_div_eight] at hd
    exact ⟨by simpa [Ptw.sent] using hc, hd⟩

/-- The reads after a cycle in which the awaited read is or was accepted. -/
theorem Waits.reads_of_sent {l : ℕ} {before : List ℕ} (h : s.Waits pa mem l before)
    (hr : (s.ptw.sent i).reqValidQ = false) :
    s.reads ++ (s.accepted i).toList = (before ++ [s.ptw.reqAddrQ]).map (cat · 3 0) := by
  cases hq : s.ptw.reqValidQ
  · simp [accepted, hq, (h.sent hq).2]
  · have hready : i.memReqReady = true := by simpa [Ptw.sent, hq] using hr
    simp [accepted, hq, hready, (h.unsent hq).2]

/-- While the walker waits for an answer, the reads so far stay the beginning of the path. -/
theorem Waits.step_wait {l : ℕ} {before : List ℕ} (h : s.Waits pa mem l before)
    (hl : s.ptw.level = some l) (hq : i.reqValid = false) (hv : i.memRespValid = false) :
    (s.step pa i).Waits pa mem l before := by
  have hptw : (s.step pa i).ptw = s.ptw.sent i := Ptw.step_wait (by simp [hl]) hq hv
  have hroot : (s.step pa i).root = s.root := by simp [step, hq]
  have hreads : (s.step pa i).reads = s.reads ++ (s.accepted i).toList := by simp [step, hq]
  have hpend : (s.step pa i).pending = s.awaited i := by simp [step, hv]
  constructor
  · rw [hptw, hroot]
    exact h.path
  · intro hr
    rw [hptw] at hr
    obtain ⟨hr, hready⟩ : s.ptw.reqValidQ = true ∧ i.memReqReady = false := by
      simpa [Ptw.sent] using hr
    rw [hpend, hreads, h.awaited_eq, (h.unsent hr).2]
    simp [accepted, hr, hready]
  · intro hr
    rw [hptw] at hr ⊢
    have hc : (s.ptw.reqValidQ && !i.memReqReady) = false := by simpa [Ptw.sent] using hr
    rw [hpend, hreads, h.reads_of_sent hr, h.awaited_eq, hc]
    simp

/-- An answer takes the walk one entry further. -/
theorem Waits.step_read {l : ℕ} {before : List ℕ} (h : s.Waits pa mem l before)
    (hm : s.Answers mem i) (hl : s.ptw.level = some l) (hq : i.reqValid = false)
    (hv : i.memRespValid = true) :
    (∃ l' < l, (s.step pa i).ptw.level = some l' ∧
      (s.step pa i).Waits pa mem l' (before ++ [s.ptw.reqAddrQ])) ∨
    (s.step pa i).ptw.stateQ = .done ∧ (s.step pa i).ptw.reqValidQ = false ∧
      (s.step pa i).reads =
        (Sv39.path pa mem (s.step pa i).root (s.step pa i).ptw.vpnQ).map (cat · 3 0) := by
  obtain ⟨hr, hd⟩ := h.data_of_answers hm hv
  have hvpn : (s.step pa i).ptw.vpnQ = s.ptw.vpnQ := (Ptw.step_read (by simp [hl]) hq hv).1
  have hroot : (s.step pa i).root = s.root := by simp [step, hq]
  have hreads : (s.step pa i).reads = (before ++ [s.ptw.reqAddrQ]).map (cat · 3 0) := by
    rw [← h.reads_of_sent hr]
    simp [step, hq]
  have hpath := h.path
  rcases @Ptw.read_cases pa _ _ _ hl hq hv with ⟨l', a, rfl, hvis, hl', hrq, haddr⟩ |
    ⟨⟨o, hvis⟩, hdone, hrq⟩
  · rw [hd] at hvis
    rw [Sv39.pathFrom_of_next hvis] at hpath
    refine .inl ⟨l', by omega, hl', ?_, fun _ => ⟨by simp [step, hv], hreads⟩, fun hf => ?_⟩
    · rw [hvpn, hroot, ← hpath, List.append_assoc]
      exact congrArg (before ++ s.ptw.reqAddrQ :: Sv39.pathFrom pa mem s.ptw.vpnQ l' ·) haddr
    · exact absurd (hrq.symm.trans hf) (by decide)
  · rw [hd] at hvis
    rw [Sv39.pathFrom_of_end hvis] at hpath
    refine .inr ⟨hdone, hrq.trans hr, ?_⟩
    rw [hreads, hvpn, hroot, hpath]

theorem inv_of_isRest (h : s.IsRest) : s.Inv pa mem where
  ok := by simp [Ptw.Ok, h.stateQ]
  rest := fun _ => ⟨h.reqValidQ, h.pending⟩
  waits := by simp [Ptw.level, h.stateQ]
  done := by simp [h.stateQ]

/-- Nothing can be answered while the walker is at rest. -/
theorem Inv.quiet_of_rest (h : s.Inv pa mem) (hm : s.Answers mem i) (hl : s.ptw.level = none) :
    i.memRespValid = false ∧ s.awaited i = none ∧ s.accepted i = none := by
  obtain ⟨hr, hp⟩ := h.rest hl
  have hacc : s.accepted i = none := by simp [accepted, hr]
  have haw : s.awaited i = none := by simp [awaited, hacc, hp]
  refine ⟨?_, haw, hacc⟩
  cases hv : i.memRespValid
  · rfl
  · obtain ⟨a, ha, -⟩ := hm hv
    simp [haw] at ha

theorem Inv.step_ok (h : s.Inv pa mem) (hm : s.Answers mem i) :
    Ptw.Ok (fun a d => mem a = d) pa (s.step pa i).root (s.step pa i).ptw := by
  refine Ptw.ok_step h.ok fun hv => ?_
  cases hl : s.ptw.level with
  | none => simp [(h.quiet_of_rest hm hl).1] at hv
  | some l =>
      obtain ⟨before, hw⟩ := h.waits l hl
      exact (hw.data_of_answers hm hv).2.symm

/-- A request starts a walk with its first entry. -/
theorem Inv.step_start (h : s.Inv pa mem) (hm : s.Answers mem i) (hl : s.ptw.level = none)
    (hq : i.reqValid = true) :
    (s.step pa i).ptw.level = some 2 ∧ (s.step pa i).Waits pa mem 2 [] := by
  obtain ⟨hv, haw, -⟩ := h.quiet_of_rest hm hl
  refine ⟨by simp [step, Ptw.step, hq, Ptw.start, Ptw.level], ?_, fun _ => ?_, fun hf => ?_⟩
  · simp [step, Ptw.step, hq, Ptw.start, Sv39.path, Sv39.vpnField]
  · simp [step, hq, hv, haw]
  · simp [step, Ptw.step, hq, Ptw.start] at hf

theorem inv_step (h : s.Inv pa mem) (hm : s.Answers mem i) (hs : s.Single i) :
    (s.step pa i).Inv pa mem := by
  have hok := h.step_ok hm
  cases hq : i.reqValid
  · cases hl : s.ptw.level with
    | none =>
        obtain ⟨hv, haw, -⟩ := h.quiet_of_rest hm hl
        obtain ⟨hidle, hrq⟩ := @Ptw.step_rest pa _ _ hl hq
        refine inv_of_isRest ⟨hidle, hrq.trans (h.rest hl).1, ?_⟩
        simp [step, hv, haw]
    | some l =>
        obtain ⟨before, hw⟩ := h.waits l hl
        cases hv : i.memRespValid
        · have hl' : (s.step pa i).ptw.level = some l := by
            rw [show (s.step pa i).ptw = s.ptw.sent i from Ptw.step_wait (by simp [hl]) hq hv]
            exact hl
          refine ⟨hok, by simp [hl'], fun l' h' => ?_, fun hd => ?_⟩
          · obtain rfl : l = l' := by simpa [hl'] using h'
            exact ⟨before, hw.step_wait hl hq hv⟩
          · simp [Ptw.level, hd] at hl'
        · have hpend : (s.step pa i).pending = none := by simp [step, hv]
          rcases hw.step_read hm hl hq hv with ⟨l₁, -, hl₁, hw₁⟩ | ⟨hdone, hrq, hreads⟩
          · refine ⟨hok, by simp [hl₁], fun l' h' => ?_, fun hd => ?_⟩
            · obtain rfl : l₁ = l' := by simpa [hl₁] using h'
              exact ⟨_, hw₁⟩
            · simp [Ptw.level, hd] at hl₁
          · exact ⟨hok, fun _ => ⟨hrq, hpend⟩, by simp [Ptw.level, hdone], fun _ => hreads⟩
  · obtain ⟨hl, hw⟩ := h.step_start hm (hs hq) hq
    refine ⟨hok, by simp [hl], fun l' h' => ?_, fun hd => ?_⟩
    · obtain rfl : 2 = l' := by simpa [hl] using h'
      exact ⟨[], hw⟩
    · simp [Ptw.level, hd] at hl

end Step

/-! ## Runs -/

section Run
variable (pa : ℕ) (mem : ℕ → ℕ) (s₀ : PtwSys) (inp : ℕ → PtwIn)

/-- The system after `n` cycles. -/
def after (n : ℕ) : PtwSys := run (step pa) s₀ inp n

/-- A run from rest, with a memory that accepts and answers every read sooner or later. -/
structure Runs : Prop where
  rest : s₀.IsRest
  answers : ∀ k, (after pa s₀ inp k).Answers mem (inp k)
  single : ∀ k, (after pa s₀ inp k).Single (inp k)
  accepts : ∀ k, (after pa s₀ inp k).ptw.reqValidQ = true → ∃ n, k ≤ n ∧ (inp n).memReqReady = true
  returns : ∀ k, (after pa s₀ inp k).awaited (inp k) ≠ none →
    ∃ n, k ≤ n ∧ (inp n).memRespValid = true

variable {pa mem s₀ inp}

theorem after_succ (n : ℕ) : after pa s₀ inp (n + 1) = (after pa s₀ inp n).step pa (inp n) := rfl

theorem Runs.inv (h : Runs pa mem s₀ inp) (n : ℕ) : (after pa s₀ inp n).Inv pa mem :=
  run_invariant (Inv pa mem) (fun s i => s.Answers mem i ∧ s.Single i) (inv_of_isRest h.rest)
    (fun _ _ hinv he => inv_step hinv he.1 he.2) n fun k _ => ⟨h.answers k, h.single k⟩

theorem Runs.no_request (h : Runs pa mem s₀ inp) {k l : ℕ}
    (hl : (after pa s₀ inp k).ptw.level = some l) : (inp k).reqValid = false := by
  cases hq : (inp k).reqValid
  · rfl
  · have hnone := h.single k hq
    rw [hl] at hnone
    cases hnone

/-- Without an answer the walker goes on waiting. -/
theorem Runs.ptw_succ (h : Runs pa mem s₀ inp) {k l : ℕ}
    (hl : (after pa s₀ inp k).ptw.level = some l) (hv : (inp k).memRespValid = false) :
    (after pa s₀ inp (k + 1)).ptw = (after pa s₀ inp k).ptw.sent (inp k) :=
  Ptw.step_wait (Option.ne_none_iff_exists'.mpr ⟨l, hl⟩) (h.no_request hl) hv

theorem Runs.level_succ (h : Runs pa mem s₀ inp) {k l : ℕ}
    (hl : (after pa s₀ inp k).ptw.level = some l) (hv : (inp k).memRespValid = false) :
    (after pa s₀ inp (k + 1)).ptw.level = some l := by
  rw [h.ptw_succ hl hv]
  exact hl

/-- The read that the walker waits for is accepted. -/
theorem Runs.awaited_of_level (h : Runs pa mem s₀ inp) (l : ℕ) :
    LeadsTo (fun k => (after pa s₀ inp k).ptw.level = some l)
      fun k => (after pa s₀ inp k).ptw.level = some l ∧
        (after pa s₀ inp k).awaited (inp k) ≠ none := by
  intro k hl
  obtain ⟨before, hw⟩ := (h.inv k).waits l hl
  cases hr : (after pa s₀ inp k).ptw.reqValidQ
  · exact ⟨k, Nat.le_refl k, hl, by simp [hw.awaited_eq, hr]⟩
  · have hwait : LeadsTo (fun k => (after pa s₀ inp k).ptw.level = some l ∧
        (after pa s₀ inp k).ptw.reqValidQ = true) fun n =>
        ((after pa s₀ inp n).ptw.level = some l ∧ (after pa s₀ inp n).ptw.reqValidQ = true) ∧
          (inp n).memReqReady = true := by
      refine .of_wait _ (fun k hk hready => ?_) fun k hk => h.accepts k hk.2
      obtain ⟨before, hw⟩ := (h.inv k).waits l hk.1
      have hready : (inp k).memReqReady = false := by simpa using hready
      have hv : (inp k).memRespValid = false := by
        cases hv : (inp k).memRespValid
        · rfl
        · have hsent := (hw.data_of_answers (h.answers k) hv).1
          simp [Ptw.sent, hk.2, hready] at hsent
      refine ⟨h.level_succ hk.1 hv, ?_⟩
      rw [h.ptw_succ hk.1 hv]
      simp [Ptw.sent, hk.2, hready]
    obtain ⟨n, hn, ⟨hln, hrn⟩, hready⟩ := hwait k ⟨hl, hr⟩
    obtain ⟨before, hw⟩ := (h.inv n).waits l hln
    exact ⟨n, hn, hln, by simp [hw.awaited_eq, hready]⟩

/-- And it is answered. -/
theorem Runs.answered_of_level (h : Runs pa mem s₀ inp) (l : ℕ) :
    LeadsTo (fun k => (after pa s₀ inp k).ptw.level = some l)
      fun k => (after pa s₀ inp k).ptw.level = some l ∧ (inp k).memRespValid = true := by
  refine (h.awaited_of_level l).trans (.trans (.of_wait (fun n => (inp n).memRespValid = true)
    (fun k hk hv => ?_) fun k hk => h.returns k hk.2) (.of_imp fun k hk => ⟨hk.1.1, hk.2⟩))
  have hv : (inp k).memRespValid = false := by simpa using hv
  have hpend : (after pa s₀ inp (k + 1)).pending = (after pa s₀ inp k).awaited (inp k) := by
    rw [after_succ]
    simp [step, hv]
  refine ⟨h.level_succ hk.1 hv, fun hnone => hk.2 ?_⟩
  rw [← hpend]
  exact (Option.or_eq_none_iff.mp hnone).2

/-- What an answer leads to. -/
theorem Runs.step_of_answer (h : Runs pa mem s₀ inp) {n l : ℕ}
    (hl : (after pa s₀ inp n).ptw.level = some l) (hv : (inp n).memRespValid = true) :
    (∃ l' < l, (after pa s₀ inp (n + 1)).ptw.level = some l') ∨
      (after pa s₀ inp (n + 1)).ptw.stateQ = .done := by
  obtain ⟨before, hw⟩ := (h.inv n).waits l hl
  rcases hw.step_read (h.answers n) hl (h.no_request hl) hv with ⟨l₁, hlt, hl₁, -⟩ | ⟨hdone, -⟩
  · exact .inl ⟨l₁, hlt, hl₁⟩
  · exact .inr hdone

/-- A walk in progress comes to its end. -/
theorem Runs.done_of_level (h : Runs pa mem s₀ inp) :
    LeadsTo (fun k => (after pa s₀ inp k).ptw.level ≠ none)
      fun k => (after pa s₀ inp k).ptw.stateQ = .done := by
  refine .of_descent (fun k => (after pa s₀ inp k).ptw.level.getD 0) fun r => ?_
  rintro k ⟨hl, hr⟩
  obtain ⟨l, hl⟩ := Option.ne_none_iff_exists'.mp hl
  obtain ⟨n, hn, hln, hv⟩ := h.answered_of_level l k hl
  refine ⟨n + 1, by omega, ?_⟩
  rcases h.step_of_answer hln hv with ⟨l₁, hlt, hl₁⟩ | hdone
  · refine .inr ⟨by simp [hl₁], ?_⟩
    simp only [hl, Option.getD_some] at hr
    simp only [hl₁, Option.getD_some]
    omega
  · exact .inl hdone

/-- The walker is busy from the request to the first answer. -/
theorem Runs.level_of_not_done (h : Runs pa mem s₀ inp) {t n : ℕ}
    (hreq : (inp t).reqValid = true)
    (hnot : ∀ k, t < k → k < n → (after pa s₀ inp k).ptw.stateQ ≠ .done) :
    ∀ k, t < k → k < n → (after pa s₀ inp k).ptw.level ≠ none := by
  intro k hk
  induction k, hk using Nat.le_induction with
  | base =>
      intro _
      rw [after_succ]
      exact (Ptw.step_start hreq).1
  | succ k hk ih =>
      intro hkn
      obtain ⟨l, hl⟩ := Option.ne_none_iff_exists'.mp (ih (by omega))
      cases hv : (inp k).memRespValid
      · simp [h.level_succ hl hv]
      · rcases h.step_of_answer hl hv with ⟨l₁, -, hl₁⟩ | hdone
        · simp [hl₁]
        · exact absurd hdone (hnot (k + 1) (by omega) hkn)

/-- Every request is answered, and the walker is busy until then. -/
theorem Runs.exists_done (h : Runs pa mem s₀ inp) {t : ℕ} (hreq : (inp t).reqValid = true) :
    ∃ n, t < n ∧ (after pa s₀ inp n).ptw.stateQ = .done ∧
      ∀ k, t < k → k < n → (after pa s₀ inp k).ptw.level ≠ none := by
  have hstart : (after pa s₀ inp (t + 1)).ptw.level ≠ none := (Ptw.step_start hreq).1
  have hex : ∃ n, t < n ∧ (after pa s₀ inp n).ptw.stateQ = .done := by
    obtain ⟨n, hn, hdone⟩ := h.done_of_level (t + 1) hstart
    exact ⟨n, by omega, hdone⟩
  classical
  refine ⟨Nat.find hex, (Nat.find_spec hex).1, (Nat.find_spec hex).2, ?_⟩
  refine h.level_of_not_done hreq fun k hk hkn hdone => ?_
  exact Nat.find_min hex hkn ⟨hk, hdone⟩

/-- Between requests the walker keeps its root and page number. -/
theorem held {t n : ℕ} (ht : t < n) (hreq : (inp t).reqValid = true)
    (hq : ∀ k, t < k → k < n → (inp k).reqValid = false) :
    (after pa s₀ inp n).root = (inp t).reqPtPpn ∧
      (after pa s₀ inp n).ptw.vpnQ = (inp t).reqVpn := by
  induction n, ht using Nat.le_induction with
  | base =>
      rw [after_succ]
      exact ⟨by simp [step, hreq], (Ptw.step_start hreq).2.2.2⟩
  | succ n hn ih =>
      obtain ⟨hroot, hvpn⟩ := ih fun k hk hkn => hq k hk (by omega)
      have hqn := hq n hn (by omega)
      rw [after_succ]
      exact ⟨by simp [step, hqn, hroot], (Ptw.vpnQ_step hqn).trans hvpn⟩

/-- After its answer the walker rests until the next request, and reads nothing. -/
theorem Runs.rest_after (h : Runs pa mem s₀ inp) {n k : ℕ} (hnk : n < k)
    (hdone : (after pa s₀ inp n).ptw.stateQ = .done)
    (hq : ∀ j, n ≤ j → j < k → (inp j).reqValid = false) :
    (after pa s₀ inp k).ptw.stateQ = .idle ∧
      (after pa s₀ inp k).reads = (after pa s₀ inp n).reads := by
  have hnext : ∀ j, n ≤ j → j < k → (after pa s₀ inp j).ptw.level = none →
      (after pa s₀ inp (j + 1)).ptw.stateQ = .idle ∧
        (after pa s₀ inp (j + 1)).reads = (after pa s₀ inp j).reads := by
    intro j hj hjk hl
    have hqj := hq j hj hjk
    have hacc := ((h.inv j).quiet_of_rest (h.answers j) hl).2.2
    exact ⟨(Ptw.step_rest hl hqj).1, by simp [after_succ, step, hqj, hacc]⟩
  induction k, hnk using Nat.le_induction with
  | base => exact hnext n (Nat.le_refl n) (by omega) (by simp [Ptw.level, hdone])
  | succ k hk ih =>
      obtain ⟨hidle, hreads⟩ := ih (fun j hj hjk => hq j hj (by omega))
        fun j hj hjk => hnext j hj (by omega)
      obtain ⟨hidle', hreads'⟩ := hnext k (by omega) (by omega) (by simp [Ptw.level, hidle])
      exact ⟨hidle', hreads'.trans hreads⟩

/-- The answer of a fixed image: the fault or the leaf of the walk. -/
theorem respPerm_of_states {o : Option Sv39.Leaf} {ppn : ℕ} {perm : PageProt}
    (h : Sv39.States o ppn perm) :
    (perm.valid = true ↔
      ∃ l, o = some l ∧ l.flags.testBit 0 = true ∧ l.flags.testBit 6 = true) ∧
      ∀ l, o = some l → ppn = l.ppn ∧ perm = Sv39.protOf l.flags := by
  cases o with
  | none =>
      have hf : perm.valid = false := h
      simp [hf]
  | some l =>
      obtain ⟨hppn, hperm⟩ : ppn = l.ppn ∧ perm = Sv39.protOf l.flags := h
      refine ⟨?_, fun l' hl' => ?_⟩
      · simp [hperm, Sv39.protOf]
      · obtain rfl : l = l' := by simpa using hl'
        exact ⟨hppn, hperm⟩

/-- Every request is answered in exactly one cycle `n`, by the translation of the tables;
the reads are the at most three entries on the path of the walk. -/
theorem request_translated (h : Runs pa mem s₀ inp) {t : ℕ} (hreq : (inp t).reqValid = true) :
    ∃ n, t < n ∧ (after pa s₀ inp n).ptw.respValid = true ∧
      (∀ k, t < k → k ≠ n → (∀ j, t < j → j < k → (inp j).reqValid = false) →
        (after pa s₀ inp k).ptw.respValid = false) ∧
      (∀ k, n ≤ k → (∀ j, t < j → j < k → (inp j).reqValid = false) →
        (after pa s₀ inp k).reads =
          (Sv39.path pa mem (inp t).reqPtPpn (inp t).reqVpn).map (cat · 3 0)) ∧
      (Sv39.path pa mem (inp t).reqPtPpn (inp t).reqVpn).length ≤ 3 ∧
      ((after pa s₀ inp n).ptw.respPerm.valid = true ↔
        ∃ l, Sv39.walk pa mem (inp t).reqPtPpn (inp t).reqVpn = some l ∧
          l.flags.testBit 0 = true ∧ l.flags.testBit 6 = true) ∧
      ∀ l, Sv39.walk pa mem (inp t).reqPtPpn (inp t).reqVpn = some l →
        (after pa s₀ inp n).ptw.respPpn = l.ppn ∧
          (after pa s₀ inp n).ptw.respPerm = Sv39.protOf l.flags := by
  obtain ⟨n, htn, hdone, hbusy⟩ := h.exists_done hreq
  have hquiet : ∀ k, t < k → k < n → (inp k).reqValid = false := by
    intro k hk hkn
    obtain ⟨l, hl⟩ := Option.ne_none_iff_exists'.mp (hbusy k hk hkn)
    exact h.no_request hl
  obtain ⟨hroot, hvpn⟩ := held htn hreq hquiet
  have hresp : (after pa s₀ inp n).ptw.respValid = true := by simp [Ptw.respValid, hdone]
  obtain ⟨o, hwalk, hstates⟩ := Ptw.walk_of_respValid (h.inv n).ok hresp
  rw [hroot, hvpn] at hwalk
  rw [Sv39.walk_of_walk hwalk] at hstates
  have hreads := (h.inv n).done hdone
  rw [hroot, hvpn] at hreads
  refine ⟨n, htn, hresp, ?_, ?_, Sv39.length_pathFrom_le _ _ _ _ _, respPerm_of_states hstates⟩
  · intro k hk hkn hq
    rcases Nat.lt_or_gt_of_ne hkn with hlt | hgt
    · exact Ptw.respValid_of_level (hbusy k hk hlt)
    · have hidle := (h.rest_after hgt hdone fun j hj hjk => hq j (by omega) hjk).1
      simp [Ptw.respValid, hidle]
  · intro k hk hq
    rcases Nat.eq_or_lt_of_le hk with rfl | hgt
    · exact hreads
    · rw [(h.rest_after hgt hdone fun j hj hjk => hq j (by omega) hjk).2, hreads]

end Run

/-! ## A walk of three levels -/

/-- The root table at page 3 points to page 7, page 7 to page 8, and page 8 maps
everything to page `0x42`. -/
def threeLevels (a : ℕ) : ℕ :=
  if a / 512 = 3 then 7 * 1024 + 1 else if a / 512 = 7 then 8 * 1024 + 1 else 0x42 * 1024 + 0xCF

/-- A request in cycle 0; every read is accepted at once and answered in the next cycle. -/
def threeReads (k : ℕ) : PtwIn where
  reqValid := k = 0
  reqVpn := 5
  reqPtPpn := 3
  memReqReady := true
  memRespValid := k = 2 ∨ k = 4 ∨ k = 6
  memRespData := if k = 2 then 7 * 1024 + 1 else if k = 4 then 8 * 1024 + 1 else 0x42 * 1024 + 0xCF

def atRest : PtwSys := ⟨.reset, 0, [], none⟩

instance (mem : ℕ → ℕ) (s : PtwSys) (i : PtwIn) : Decidable (s.Answers mem i) :=
  inferInstanceAs (Decidable (_ → _))

instance (s : PtwSys) (i : PtwIn) : Decidable (s.Single i) := inferInstanceAs (Decidable (_ → _))

/-- From cycle 8 on nothing changes. -/
theorem after_threeReads (k : ℕ) (hk : 8 ≤ k) :
    after 56 atRest threeReads k = after 56 atRest threeReads 8 := by
  have hin : ∀ j, 8 ≤ j → threeReads j = threeReads 8 := by
    intro j hj
    simp [threeReads, show j ≠ 0 by omega, show j ≠ 2 by omega, show j ≠ 4 by omega,
      show j ≠ 6 by omega]
  induction k, hk using Nat.le_induction with
  | base => rfl
  | succ k hk ih =>
      rw [after_succ, ih, hin k hk]
      decide

/-- What holds in the first nine cycles and mentions a state and its inputs holds in all. -/
theorem forall_threeReads {P : PtwSys → PtwIn → Prop}
    (hP : ∀ k < 9, P (after 56 atRest threeReads k) (threeReads k)) (k : ℕ) :
    P (after 56 atRest threeReads k) (threeReads k) := by
  rcases Nat.lt_or_ge k 9 with hk | hk
  · exact hP k hk
  · have hin : threeReads k = threeReads 8 := by
      simp [threeReads, show k ≠ 0 by omega, show k ≠ 2 by omega, show k ≠ 4 by omega,
        show k ≠ 6 by omega]
    rw [after_threeReads k (by omega), hin]
    exact hP 8 (by decide)

theorem runs_threeReads : Runs 56 threeLevels atRest threeReads where
  rest := ⟨rfl, rfl, rfl⟩
  answers := forall_threeReads (by decide)
  single := forall_threeReads (by decide)
  accepts := fun k _ => ⟨k, Nat.le_refl k, rfl⟩
  returns := by
    intro k hk
    rcases Nat.lt_or_ge k 7 with hlt | hge
    · exact ⟨6, by omega, rfl⟩
    · rcases Nat.eq_or_lt_of_le hge with rfl | hgt
      · exact absurd (by decide) hk
      · rw [after_threeReads k hgt] at hk
        exact absurd rfl hk

theorem request_translated_threeReads :
    ∃ n, 0 < n ∧ (after 56 atRest threeReads n).ptw.respValid = true ∧
      (after 56 atRest threeReads n).ptw.respPpn = 0x42 := by
  obtain ⟨n, hn, hv, -, -, -, -, hleaf⟩ :=
    request_translated runs_threeReads (t := 0) (by decide)
  exact ⟨n, hn, hv, (hleaf ⟨0x42, 0xCF⟩ (by decide)).1⟩

end PtwSys

end Muntjac.Core

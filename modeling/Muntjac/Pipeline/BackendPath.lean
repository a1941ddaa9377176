import Muntjac.Pipeline.BackendControl
import Muntjac.Pipeline.FrontendDeliver

/-!
# The instructions that the backend executes

From reset on, the instructions that are issued form one path: each one is at the successor
of the one before, or at the trap vector after a trap.  A memory trap takes back the
instructions behind the access, and the access itself.

## Main definitions

* `PathEvent`, `Follows` — a sequence of instructions and traps, each at the address where
  the one before leads.
* `BackendSys.path` — what has been executed so far.
* `BackendSys.Delivers` — what the frontend guarantees.

## Main results

* `BackendSys.architectural` — the path of every run.
* `BackendSys.delivers_of_frontend` — the frontend gives the guarantee.
-/

namespace Muntjac.Pipeline

open Sync Riscv

/-! ## Paths -/

/-- Instruction `id` at `pc` is executed, or traps, and the program goes on at `next`. -/
structure PathEvent where
  id : ℕ
  pc : BitVec 64
  next : BitVec 64
  trap : Bool
  deriving DecidableEq, Repr

/-- Every event is where the one before leads, from `pc` on. -/
def Follows (pc : BitVec 64) : List PathEvent → Prop
  | [] => True
  | e :: es => e.pc = pc ∧ Follows e.next es

/-- Where a path that starts at `pc` leads. -/
def endPc (pc : BitVec 64) : List PathEvent → BitVec 64
  | [] => pc
  | e :: es => endPc e.next es

theorem follows_append {pc : BitVec 64} {a b : List PathEvent} :
    Follows pc (a ++ b) ↔ Follows pc a ∧ Follows (endPc pc a) b := by
  induction a generalizing pc with
  | nil => simp [Follows, endPc]
  | cons e a ih => simp [Follows, endPc, ih, and_assoc]

theorem endPc_append_singleton (pc : BitVec 64) (a : List PathEvent) (e : PathEvent) :
    endPc pc (a ++ [e]) = e.next := by
  induction a generalizing pc with
  | nil => rfl
  | cons x a ih => exact ih x.next

/-- In a path that is ordered, what is older than one of its events is what stands before
it. -/
theorem filter_older {a b : List PathEvent} {e : PathEvent}
    (h : ((a ++ e :: b).map PathEvent.id).Pairwise (· < ·)) :
    (a ++ e :: b).filter (fun x => x.id < e.id) = a := by
  simp only [List.map_append, List.map_cons, List.pairwise_append, List.pairwise_cons,
    List.mem_map, List.mem_cons] at h
  have ha : a.filter (fun x => x.id < e.id) = a := by
    refine List.filter_eq_self.mpr fun x hx => ?_
    exact decide_eq_true (h.2.2 x.id ⟨x, hx, rfl⟩ e.id (.inl rfl))
  have hb : b.filter (fun x => x.id < e.id) = [] := by
    refine List.filter_eq_nil_iff.mpr fun x hx => ?_
    have := h.2.1.1 x.id ⟨x, hx, rfl⟩
    simp only [decide_eq_true_eq]
    omega
  rw [List.filter_append, ha, List.filter_cons_of_neg (by simp), hb, List.append_nil]

namespace BackendSys
variable {p : BackendParams}

/-- What a cycle does to the path.  A memory trap takes back what is younger. -/
def pathStep (s : BackendSys p) (i : BackendIn) (path : List PathEvent) : List PathEvent :=
  match s.trapped i with
  | some j => path.filter (fun e => e.id < j) ++ [⟨j, (s.instr j).pc, target i.excTvec, true⟩]
  | none =>
      if s.backend.exceptionIssue i then
        path ++ [⟨s.deId, s.backend.deExDecoded.pc, target i.excTvec, true⟩]
      else if s.backend.issues i then
        path ++ [⟨s.deId, s.backend.deExDecoded.pc, next, false⟩]
      else path
where
  next : BitVec 64 := s.backend.deExDecoded.successor (s.backend.exRs1 i).1 (s.backend.exRs2 i).1
    i.erEpc

/-- The path, the architectural program counter and the instructions in flight agree. -/
structure OnPath (s : BackendSys p) (pc : BitVec 64) (path : List PathEvent) : Prop where
  follows : Follows 0 path
  ends : endPc 0 path = pc
  sorted : (path.map PathEvent.id).Pairwise (· < ·)
  pcs : ∀ e ∈ path, e.pc = (s.instr e.id).pc
  fetched : ∀ e ∈ path, e.id < s.nextId
  fresh : s.backend.deExValid = true → s.backend.exStateQ ≠ .sys → s.backend.exStateQ ≠ .int →
    ∀ e ∈ path, e.id < s.deId
  committed : (path.filter (fun e => !e.trap)).map PathEvent.id =
    s.issued.filter (fun k => !s.squashed k)

section Step
variable {s : BackendSys p} {i : BackendIn} {pc : BitVec 64} {path : List PathEvent}

/-- The instruction that traps was issued and not taken back. -/
theorem Inv.trapped_issued (h : s.Inv) (henv : s.Env i) {j : ℕ} (hj : s.trapped i = some j) :
    j ∈ s.issued ∧ s.squashed j = false := by
  have ht : i.memTrap.isSome = true := by
    by_contra ht
    simp [trapped, ht] at hj
  have hcases := h.trap_cases henv ht
  rw [hj] at hcases
  rcases hcases with ⟨h2, -, -, hid⟩ | ⟨h1, hid, -⟩
  · have hp := pending_of_select2 h (by decide) h2
    have hq : s.backend.ex2SquashedQ = false := by
      by_contra hq
      exact (h.ex2Squashed hp (by simpa using hq)).2.2.2.2 h2
    rw [Option.some.inj hid]
    exact ⟨(h.ex2 hp hq).issued, (h.ex2 hp hq).squashed⟩
  · have hp := pending_of_select1 h (by decide) h1
    rw [Option.some.inj hid]
    exact ⟨(h.ex1 hp).issued, (h.ex1 hp).squashed⟩

theorem trapped_eq_none (ht : i.memTrap = none) : s.trapped i = none := by
  simp [trapped, ht]

theorem Inv.exists_trapped (henv : s.Env i) (ht : i.memTrap.isSome = true) :
    ∃ j, s.trapped i = some j := by
  obtain ⟨j, hj⟩ := henv.trapAsked ht
  exact ⟨j, by simp [trapped, ht, hj]⟩

theorem instr_step_of_lt {k : ℕ} (hk : k < s.nextId) : (s.step i).instr k = s.instr k :=
  if_neg (by omega)

/-- A memory trap. -/
theorem OnPath.step_trap (h : s.OnPath pc path) (hinv : s.Inv) (henv : s.Env i) {j : ℕ}
    (hj : s.trapped i = some j) :
    (s.step i).OnPath (target i.excTvec) (s.pathStep i path) := by
  obtain ⟨hiss, hsq⟩ := hinv.trapped_issued henv hj
  have ht : i.memTrap.isSome = true := by
    by_contra ht
    simp [trapped, ht] at hj
  obtain ⟨hni, -⟩ := hinv.of_trap henv ht
  have hpath : s.pathStep i path =
      path.filter (fun e => e.id < j) ++ [⟨j, (s.instr j).pc, target i.excTvec, true⟩] := by
    simp only [pathStep, hj]
  have hjlt := hinv.issued j hiss
  have hmem : ∀ e ∈ s.pathStep i path, e.pc = (s.instr e.id).pc ∧ e.id < s.nextId := by
    intro e he
    rw [hpath, List.mem_append, List.mem_singleton] at he
    rcases he with he | rfl
    · have he := (List.mem_filter.mp he).1
      exact ⟨h.pcs e he, h.fetched e he⟩
    · exact ⟨rfl, hjlt⟩
  refine ⟨?_, ?_, ?_, ?_, ?_, ?_, ?_⟩
  · -- the access is where the older part of the path leads
    have hin : j ∈ (path.filter fun e => !e.trap).map PathEvent.id := by
      rw [h.committed]
      exact List.mem_filter.mpr ⟨hiss, by simp [hsq]⟩
    obtain ⟨e, he, rfl⟩ := List.mem_map.mp hin
    have he := (List.mem_filter.mp he).1
    obtain ⟨a, b, rfl⟩ := List.append_of_mem he
    rw [hpath, filter_older h.sorted]
    have hf := h.follows
    rw [follows_append] at hf ⊢
    exact ⟨hf.1, (h.pcs e he).symm.trans hf.2.1, trivial⟩
  · rw [hpath]
    exact endPc_append_singleton _ _ _
  · rw [hpath, List.map_append, List.pairwise_append]
    refine ⟨h.sorted.sublist (List.filter_sublist.map _), List.pairwise_singleton _ _, ?_⟩
    intro a ha b hb
    obtain ⟨e, he, rfl⟩ := List.mem_map.mp ha
    rw [List.map_cons, List.map_nil, List.mem_singleton] at hb
    rw [hb]
    simpa using (List.mem_filter.mp he).2
  · intro e he
    rw [instr_step_of_lt (hmem e he).2]
    exact (hmem e he).1
  · intro e he
    exact lt_of_lt_of_le (hmem e he).2 nextId_le_step
  · intro _ _ hint
    refine absurd ?_ hint
    simp [step, Backend.step, Backend.nextExStateQ, Backend.memTrapValid, ht]
  · have hissued : (s.step i).issued = s.issued := by simp [step, hni]
    have hsquash : (s.step i).issued.filter (fun k => !(s.step i).squashed k) =
        (s.issued.filter fun k => !s.squashed k).filter fun k => k < j := by
      rw [hissued, List.filter_filter]
      refine List.filter_congr fun k hk => ?_
      have hlt := hinv.issued k hk
      simp only [step, hj]
      by_cases hkj : k < j
      · simp [hkj, show ¬j ≤ k by omega]
      · simp [hkj, show j ≤ k by omega, hlt]
    rw [hsquash, ← h.committed, List.filter_map, List.filter_filter, hpath, List.filter_append,
      List.filter_filter]
    simp [Bool.and_comm]

/-- What has been executed stays, and the decode register holds something newer. -/
theorem OnPath.fresh_step (h : s.OnPath pc path) (hinv : s.Inv) (henv : s.Env i)
    {path' : List PathEvent} (hlt : ∀ e ∈ path', e.id < s.nextId)
    (hrest : s.backend.exceptionIssue i = false → s.backend.issues i = false → path' = path)
    (hv : (s.step i).backend.deExValid = true) (hsys : (s.step i).backend.exStateQ ≠ .sys)
    (hint : (s.step i).backend.exStateQ ≠ .int) : ∀ e ∈ path', e.id < (s.step i).deId := by
  cases hf : s.backend.fetched i with
  | some d =>
      have hid : (s.step i).deId = s.nextId := by simp [step, hf]
      intro e he
      rw [hid]
      exact hlt e he
  | none =>
      obtain ⟨hv', hready, ht, hni, hold⟩ := hinv.of_stalled henv hv hsys hf
      have hid : (s.step i).deId = s.deId := by simp [step, hf]
      have hx : s.backend.exceptionIssue i = false := by
        by_contra hx
        refine hint ?_
        simp [step, Backend.step, Backend.nextExStateQ, Backend.memTrapValid, ht,
          (by simpa using hx : s.backend.exceptionIssue i = true)]
      have hold' : s.backend.exStateQ ≠ .int := by
        intro hst
        simp [Backend.deExReady, Backend.controlHazard, hst] at hready
      rw [hid, hrest hx hni]
      exact h.fresh hv' hold hold'

/-- An instruction at the architectural program counter is issued, or traps. -/
theorem OnPath.step_append (h : s.OnPath pc path) (hinv : s.Inv) (henv : s.Env i)
    (ht : i.memTrap = none) (hstart : s.backend.Starts i) (hpc : s.backend.deExDecoded.pc = pc)
    {e : PathEvent} (hid : e.id = s.deId) (he : e.pc = s.backend.deExDecoded.pc)
    (htrap : e.trap = !s.backend.issues i)
    (hdone : s.backend.exceptionIssue i = true ∨ s.backend.issues i = true) :
    (s.step i).OnPath e.next (path ++ [e]) := by
  obtain ⟨hinstr, hlt, hsq, -⟩ := hinv.decode hstart.2.1
  have hfresh : ∀ x ∈ path, x.id < s.deId := by
    refine h.fresh hstart.2.1 ?_ ?_
    · exact fun hst => Backend.not_starts_of_sys hst hstart
    · exact fun hst => Backend.not_starts_of_int hst hstart
  have hmem : ∀ x ∈ path ++ [e], x.pc = (s.instr x.id).pc ∧ x.id < s.nextId := by
    intro x hx
    rw [List.mem_append, List.mem_singleton] at hx
    rcases hx with hx | rfl
    · exact ⟨h.pcs x hx, h.fetched x hx⟩
    · rw [hid, hinstr, he]
      exact ⟨rfl, hlt⟩
  refine ⟨?_, endPc_append_singleton _ _ _, ?_, ?_, ?_, ?_, ?_⟩
  · rw [follows_append, h.ends]
    exact ⟨h.follows, he.trans hpc, trivial⟩
  · rw [List.map_append, List.pairwise_append]
    refine ⟨h.sorted, List.pairwise_singleton _ _, fun a ha b hb => ?_⟩
    obtain ⟨x, hx, rfl⟩ := List.mem_map.mp ha
    rw [List.map_cons, List.map_nil, List.mem_singleton] at hb
    rw [hb, hid]
    exact hfresh x hx
  · intro x hx
    rw [instr_step_of_lt (hmem x hx).2]
    exact (hmem x hx).1
  · intro x hx
    exact lt_of_lt_of_le (hmem x hx).2 nextId_le_step
  · refine h.fresh_step hinv henv (fun x hx => (hmem x hx).2) fun hx hi => ?_
    rcases hdone with hd | hd
    · simp [hx] at hd
    · simp [hi] at hd
  · rw [squashed_step_of_not_trap ht, List.filter_append, List.map_append, h.committed]
    cases hi : s.backend.issues i with
    | false => simp [step, hi, htrap]
    | true => simp [step, hi, htrap, hid, hsq]

/-- Nothing is executed. -/
theorem OnPath.step_rest (h : s.OnPath pc path) (hinv : s.Inv) (henv : s.Env i)
    (ht : i.memTrap = none) (hi : s.backend.issues i = false) :
    (s.step i).OnPath pc path where
  follows := h.follows
  ends := h.ends
  sorted := h.sorted
  pcs e he := by
    rw [instr_step_of_lt (h.fetched e he)]
    exact h.pcs e he
  fetched e he := lt_of_lt_of_le (h.fetched e he) nextId_le_step
  fresh := h.fresh_step hinv henv h.fetched fun _ _ => rfl
  committed := by
    rw [squashed_step_of_not_trap ht, h.committed]
    simp [step, hi]

/-- What starts and is issued is at the architectural program counter. -/
theorem Inv.starts_of_issues (hinv : s.Inv) (hi : s.backend.issues i = true) :
    s.backend.Starts i := by
  obtain ⟨hv, hc, -⟩ := of_issues hi
  refine ⟨?_, hv, hc⟩
  cases hst : s.backend.exStateQ with
  | int => simp [Backend.controlHazard, hst] at hc
  | sys =>
      simp only [Backend.issues, Bool.or_eq_true] at hi
      rcases hi with hi | hi
      · exact absurd (hinv.sys hst).2 (ex1_of_exIssue hi).1
      · exact absurd (Backend.starts_of_sysIssue hi) (Backend.not_starts_of_sys hst)
  | _ => simp

/-- An instruction is issued. -/
theorem OnPath.step_issues (h : s.OnPath pc path) (hinv : s.Inv) (henv : s.Env i)
    {pend : List Marker} (htr : s.backend.Tracks pc pend) (ht : i.memTrap = none)
    (hi : s.backend.issues i = true) :
    (s.step i).OnPath (s.backend.archPc i pc) (s.pathStep i path) := by
  have hstart := hinv.starts_of_issues hi
  have hnx : s.backend.exceptionIssue i = false := by
    by_contra hx
    simp [Backend.not_issues_of_exceptionIssue (by simpa using hx)] at hi
  have hpath : s.pathStep i path =
      path ++ [⟨s.deId, s.backend.deExDecoded.pc, pathStep.next s i, false⟩] := by
    simp [pathStep, trapped_eq_none ht, hnx, hi]
  have hpc : s.backend.archPc i pc = pathStep.next s i := by
    simp [Backend.archPc, Backend.exception_eq_none ht hnx, hi, pathStep.next]
  rw [hpath, hpc]
  exact h.step_append hinv henv ht hstart (htr.of_starts hstart).1
    (e := ⟨s.deId, s.backend.deExDecoded.pc, pathStep.next s i, false⟩) rfl rfl (by simp [hi])
    (.inr hi)

/-- One cycle. -/
theorem OnPath.step (h : s.OnPath pc path) (hinv : s.Inv) (henv : s.Env i) {pend : List Marker}
    (htr : s.backend.Tracks pc pend) :
    (s.step i).OnPath (s.backend.archPc i pc) (s.pathStep i path) := by
  rcases s.backend.cycle i with ht | ⟨ht, hx⟩ | ⟨ht, hs⟩ | ⟨ht, hx⟩ | ⟨ht, hx, hi⟩
  · obtain ⟨j, hj⟩ := Inv.exists_trapped henv ht
    rw [Backend.archPc, if_pos (Backend.exception_of_trap ht)]
    exact h.step_trap hinv henv hj
  · have hstart := (Backend.starts_of_exceptionIssue hx).1
    have hni := Backend.not_issues_of_exceptionIssue hx
    have hpath : s.pathStep i path =
        path ++ [⟨s.deId, s.backend.deExDecoded.pc, target i.excTvec, true⟩] := by
      simp [pathStep, trapped_eq_none ht, hx]
    rw [Backend.archPc, if_pos (Backend.exception_of_exceptionIssue hx), hpath]
    exact h.step_append hinv henv ht hstart (htr.of_starts hstart).1
      (e := ⟨s.deId, s.backend.deExDecoded.pc, target i.excTvec, true⟩) rfl rfl (by simp [hni])
      (.inl hx)
  · exact h.step_issues hinv henv htr ht (by simp [Backend.issues, hs])
  · exact h.step_issues hinv henv htr ht (by simp [Backend.issues, hx])
  · have hpath : s.pathStep i path = path := by simp [pathStep, trapped_eq_none ht, hx, hi]
    have hpc : s.backend.archPc i pc = pc := by
      simp [Backend.archPc, Backend.exception_eq_none ht hx, hi]
    rw [hpath, hpc]
    exact h.step_rest hinv henv ht hi

end Step

/-! ## Runs -/

section Run
variable {s₀ : BackendSys p} {inp : ℕ → BackendIn}

/-- The architectural program counter after `n` cycles: the successor of the instruction that
was issued last, or the trap vector if a trap was taken since. -/
def archPc (s₀ : BackendSys p) (inp : ℕ → BackendIn) : ℕ → BitVec 64
  | 0 => 0
  | n + 1 => (after s₀ inp n).backend.archPc (inp n) (archPc s₀ inp n)

/-- What has been executed after `n` cycles. -/
def path (s₀ : BackendSys p) (inp : ℕ → BackendIn) : ℕ → List PathEvent
  | 0 => []
  | n + 1 => (after s₀ inp n).pathStep (inp n) (path s₀ inp n)

/-- What the frontend guarantees, with `pend n` the markers in it after `n` cycles: a
redirection puts its marker behind the older ones, markers are delivered in order, and one
that is not delivered is lost to a newer one only.  Nothing is said about instructions
without a marker. -/
structure Delivers (s₀ : BackendSys p) (inp : ℕ → BackendIn) (pend : ℕ → List Marker) : Prop where
  start : pend 0 = [(0, .fenceI)]
  keeps : ∀ n, Keeps ((after s₀ inp n).backend.delivered (inp n) ++ pend (n + 1))
    (pend n ++ (after s₀ inp n).backend.requested (inp n))

/-- The instructions of the first `n` cycles are those of the program. -/
structure Architectural (s₀ : BackendSys p) (inp : ℕ → BackendIn) (n : ℕ) : Prop where
  /-- What is issued next is at the successor of what was issued last. -/
  issue : (after s₀ inp n).backend.issues (inp n) = true →
    (after s₀ inp n).backend.deExDecoded.pc = archPc s₀ inp n
  /-- With what traps take back left out, every instruction, and every trap, is where the one
  before leads. -/
  follows : Follows 0 (path s₀ inp n)
  ends : endPc 0 (path s₀ inp n) = archPc s₀ inp n
  pcs : ∀ e ∈ path s₀ inp n, e.pc = ((after s₀ inp n).instr e.id).pc
  committed : ((path s₀ inp n).filter fun e => !e.trap).map PathEvent.id =
    (after s₀ inp n).issued.filter fun k => !(after s₀ inp n).squashed k
  /-- No instruction is issued twice. -/
  once : (after s₀ inp n).issued.Pairwise (· < ·)

theorem onPath_of_isReset (h0 : s₀.IsReset) : s₀.OnPath 0 [] := by
  constructor <;> simp [Follows, endPc, h0.issued]

theorem Inv.trapState {s : BackendSys p} {i : BackendIn} (h : s.Inv) (henv : s.Env i) :
    s.backend.TrapState i := by
  intro ht
  refine h.state ?_
  rcases h.trap_cases henv ht with ⟨h2, -⟩ | ⟨h1, -⟩
  · exact .inr h2
  · exact .inl h1

theorem Inv.not_exIssue_of_sys {s : BackendSys p} {i : BackendIn} (h : s.Inv)
    (hst : s.backend.exStateQ = .sys) : s.backend.exIssue i = false := by
  by_contra hx
  exact (ex1_of_exIssue (by simpa using hx)).1 (h.sys hst).2

theorem tracks_after (hp : p.Supported) (h0 : s₀.IsReset)
    (hrun : ∀ k, (after s₀ inp k).Env (inp k)) {pend : ℕ → List Marker}
    (hdel : Delivers s₀ inp pend) (n : ℕ) :
    (after s₀ inp n).backend.Tracks (archPc s₀ inp n) (pend n) := by
  induction n with
  | zero =>
      rw [hdel.start]
      exact Backend.tracks_of_isReset h0.backend
  | succ n ih =>
      have hinv := inv_after h0 hrun n
      refine ih.step hp (hinv.trapState (hrun n)) hinv.not_exIssue_of_sys ?_ (hdel.keeps n)
      intro hv hx
      exact (hinv.decode hv).2.2.2 hx

theorem onPath_after (hp : p.Supported) (h0 : s₀.IsReset)
    (hrun : ∀ k, (after s₀ inp k).Env (inp k)) {pend : ℕ → List Marker}
    (hdel : Delivers s₀ inp pend) (n : ℕ) :
    (after s₀ inp n).OnPath (archPc s₀ inp n) (path s₀ inp n) := by
  induction n with
  | zero => exact onPath_of_isReset h0
  | succ n ih => exact ih.step (inv_after h0 hrun n) (hrun n) (tracks_after hp h0 hrun hdel n)

/-- The backend issues the instructions of the program, whatever is fetched on wrong paths. -/
theorem architectural (hp : p.Supported) (h0 : s₀.IsReset)
    (hrun : ∀ k, (after s₀ inp k).Env (inp k)) {pend : ℕ → List Marker}
    (hdel : Delivers s₀ inp pend) (n : ℕ) : Architectural s₀ inp n := by
  have hinv := inv_after h0 hrun n
  have hpath := onPath_after hp h0 hrun hdel n
  have htr := tracks_after hp h0 hrun hdel n
  exact
    { issue := fun hi => (htr.of_starts (hinv.starts_of_issues hi)).1
      follows := hpath.follows
      ends := hpath.ends
      pcs := hpath.pcs
      committed := hpath.committed
      once := issued_sorted h0 hrun n }

/-! ## The frontend -/

/-- The frontend and the backend are connected: the redirection and the readiness go to the
frontend, and the fetched instruction is decoded on its way to the backend. -/
structure Wired {l : ℕ} (s₀ : BackendSys p) (inp : ℕ → BackendIn) (f₀ : Frontend)
    (finp : ℕ → FrontendIn l) : Prop where
  redirect : ∀ n, (finp n).redirect = (after s₀ inp n).backend.redirect (inp n)
  ready : ∀ n, (finp n).fetchReady = (after s₀ inp n).backend.fetchReady (inp n)
  fetch : ∀ n, ∃ e : DecoderEnv, (inp n).fetch =
    (instrBufferOut (Frontend.state f₀ finp n).buffer
      ((Frontend.state f₀ finp n).in0 (finp n))).map (decoder e)

theorem marker_injected (i : BackendIn) (d : DecodedInstr) :
    (Backend.injected i d).pc = d.pc ∧ (Backend.injected i d).ifReason = d.ifReason := by
  unfold Backend.injected
  split
  · split <;> exact ⟨rfl, rfl⟩
  · exact ⟨rfl, rfl⟩

theorem Wired.delivered_eq {l : ℕ} {f₀ : Frontend} {finp : ℕ → FrontendIn l}
    (h : Wired s₀ inp f₀ finp) (n : ℕ) : (after s₀ inp n).backend.delivered (inp n) =
      (Frontend.state f₀ finp n).delivered (finp n) := by
  obtain ⟨e, he⟩ := h.fetch n
  simp only [Backend.delivered, Backend.fetched, Frontend.delivered, Frontend.fetch, h.ready n, he]
  split_ifs with hr
  · cases instrBufferOut (Frontend.state f₀ finp n).buffer
        ((Frontend.state f₀ finp n).in0 (finp n)) with
    | none => rfl
    | some x =>
        obtain ⟨hpc, hreason⟩ := marker_injected (inp n) (decoder e x)
        simp only [Option.map_some, Option.getD_some, hpc, hreason, instrMarker_some]
        rfl
  · rfl

/-- The frontend gives the guarantee, with any predictions and any program. -/
theorem delivers_of_frontend {l : ℕ} {f₀ : Frontend} {finp : ℕ → FrontendIn l}
    (h : Wired s₀ inp f₀ finp) (hf₀ : f₀.IsReset)
    (hfe : ∀ k, (Frontend.state f₀ finp k).Env (finp k)) :
    Delivers s₀ inp fun n => (Frontend.state f₀ finp n).pending where
  start := by
    obtain ⟨hv, hpc, hr⟩ := hf₀.redirect
    have ha : f₀.aligner.marker = [] := Aligner.marker_of_empty (by
      rw [hf₀.aligner.bufferStartIdx, hf₀.aligner.bufferEndIdx])
    simp [Frontend.state, Frontend.pending, hf₀.buffer, ha, markerOf, hf₀.stage.2,
      Frontend.latchMarker, hv, hpc, hr, IfReason.marked, Frontend.evenPc]
  keeps n := by
    have hk := Frontend.keeps_step (Frontend.inv_state hf₀ n fun k _ => hfe k) (finp n)
    rw [h.delivered_eq n]
    simp only [Frontend.accepted, h.redirect n] at hk
    exact hk

end Run

/-! ## A run with a wrong path and a trap -/

instance {α : Type*} [DecidableEq α] (a b : List α) : Decidable (Keeps a b) :=
  decidable_of_iff (a.Sublist b ∧ a.getLast? = b.getLast?)
    ⟨fun ⟨h, h'⟩ => ⟨h, h'⟩, fun h => ⟨h.1, h.2⟩⟩

/-- A jump to `0x100` that is not predicted, and a load there whose access faults. -/
def jumpThenFault (k : ℕ) : BackendIn :=
  if k = 0 then fetch (smallInstr .alu 1 0 .fenceI)
  else if k = 1 then fetch { smallInstr .jump 1 4 .prefetch with immediate := 0x100 }
  else if k = 2 then fetch (smallInstr .alu 2 8 .prefetch)
  else if k = 3 then fetch (smallInstr .alu 2 12 .prefetch)
  else if k = 4 then fetch (smallInstr .mem 3 0x100 .mispredict)
  else if k = 5 then fetch (smallInstr .alu 4 0x104 .prefetch)
  else if k = 7 then { quiet with memTrap := some (13, 0), excTvec := 0x200 }
  else if k = 9 then fetch (smallInstr .alu 5 0x200 .protChanged)
  else quiet

/-- The markers of its redirections. -/
def jumpThenFaultMarkers (k : ℕ) : List Marker :=
  if k = 0 then [(0, .fenceI)]
  else if k = 4 then [(0x100, .mispredict)]
  else if k = 9 then [(0x200, .protChanged)]
  else []

theorem jumpThenFault_of_ge {k : ℕ} (hk : 10 ≤ k) : jumpThenFault k = quiet := by
  simp [jumpThenFault, show k ≠ 0 by omega, show k ≠ 1 by omega, show k ≠ 2 by omega,
    show k ≠ 3 by omega, show k ≠ 4 by omega, show k ≠ 5 by omega, show k ≠ 7 by omega,
    show k ≠ 9 by omega]

theorem env_jumpThenFault (k : ℕ) :
    (after smallReset jumpThenFault k).Env (jumpThenFault k) := by
  by_cases hk : k < 10
  · exact (show ∀ k < 10, (after smallReset jumpThenFault k).Env (jumpThenFault k) by
      decide) k hk
  · rw [jumpThenFault_of_ge (by omega)]
    exact env_quiet _

/-- Nothing waits in the decode register, and no redirection is under way. -/
theorem quiet_step {b : Backend p}
    (h : b.deExValid = false ∧ b.exStateQ = .normal ∧ b.sysStateQ = .idle) :
    ((b.step quiet).deExValid = false ∧ (b.step quiet).exStateQ = .normal ∧
      (b.step quiet).sysStateQ = .idle) ∧ b.delivered quiet = [] ∧ b.requested quiet = [] := by
  obtain ⟨hv, hst, hq⟩ := h
  have hf : b.fetched quiet = none := by
    unfold Backend.fetched
    split <;> rfl
  have ht : Backend.memTrapValid quiet = false := rfl
  have hs : b.sysIssue quiet = false := by simp [Backend.sysIssue, Backend.drained, hv]
  have hx : b.exceptionIssue quiet = false := by simp [Backend.exceptionIssue, Backend.drained, hv]
  refine ⟨⟨?_, ?_, ?_⟩, ?_, ?_⟩
  · simp [Backend.step, Backend.nextDeExValid, hf, hv]
  · simp [Backend.step, Backend.nextExStateQ, ht, hx, hs, Backend.caseExState, hst, hv]
  · simp [Backend.step, Backend.nextSysStateQ, hq, hs]
  · simp [Backend.delivered, hf]
  · exact Backend.requested_eq_nil hq (by simp [hst]) (by simp [hv])

theorem jumpThenFault_quiet (n : ℕ) (hn : 12 ≤ n) :
    (after smallReset jumpThenFault n).backend.deExValid = false ∧
      (after smallReset jumpThenFault n).backend.exStateQ = .normal ∧
      (after smallReset jumpThenFault n).backend.sysStateQ = .idle := by
  induction n, hn using Nat.le_induction with
  | base => decide
  | succ n hn ih =>
      have := (quiet_step ih).1
      rwa [← jumpThenFault_of_ge (show 10 ≤ n by omega)] at this

theorem delivers_jumpThenFault : Delivers smallReset jumpThenFault jumpThenFaultMarkers where
  start := rfl
  keeps n := by
    by_cases hn : n < 12
    · exact (show ∀ n < 12,
        Keeps ((after smallReset jumpThenFault n).backend.delivered (jumpThenFault n) ++
          jumpThenFaultMarkers (n + 1)) (jumpThenFaultMarkers n ++
            (after smallReset jumpThenFault n).backend.requested (jumpThenFault n)) by
        decide) n hn
    · obtain ⟨-, hd, hr⟩ := quiet_step (jumpThenFault_quiet n (by omega))
      have hm : jumpThenFaultMarkers n = [] ∧ jumpThenFaultMarkers (n + 1) = [] := by
        simp [jumpThenFaultMarkers, show n ≠ 0 by omega, show n ≠ 4 by omega, show n ≠ 9 by omega,
          show n ≠ 3 by omega, show n ≠ 8 by omega]
      rw [jumpThenFault_of_ge (by omega), hd, hr, hm.1, hm.2]
      exact Keeps.refl _

/-- The instruction behind the load was issued, but is not on the path. -/
theorem architectural_jumpThenFault :
    Architectural smallReset jumpThenFault 11 ∧
      path smallReset jumpThenFault 11 =
        [⟨0, 0, 4, false⟩, ⟨1, 4, 0x100, false⟩, ⟨4, 0x100, 0x200, true⟩,
          ⟨6, 0x200, 0x204, false⟩] ∧
      (after smallReset jumpThenFault 11).issued = [0, 1, 4, 5, 6] :=
  ⟨architectural ⟨by decide, rfl⟩ isReset_smallReset env_jumpThenFault delivers_jumpThenFault 11,
    by decide, by decide⟩

end BackendSys

end Muntjac.Pipeline

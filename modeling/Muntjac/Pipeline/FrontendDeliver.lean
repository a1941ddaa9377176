import Muntjac.Pipeline.FrontendRedirect

/-!
# Every redirection is delivered, unless a newer one takes its place

Over a run, the markers that are delivered are, in order, markers of redirections that were
accepted before; the last redirection is never lost.  If the instruction cache answers, the
backend goes on taking instructions and no word is offered in part that leaves an
instruction dangling, its marker is delivered.

## Main results

* `Frontend.keeps_run` — which markers are delivered.
* `Frontend.recurs_alignReady` — the aligner takes one word after the other.
* `Frontend.redirect_delivered` — the marker of a redirection is delivered exactly once.
* `Frontend.older_marker_first` — a redirection can be preceded by the marker of an older one.
-/

namespace Muntjac.Pipeline.Frontend

variable {l : ℕ} {s : Frontend} {i : FrontendIn l}

/-! ## Runs -/

/-- The frontend after `n` cycles. -/
def state (s₀ : Frontend) (inp : ℕ → FrontendIn l) (n : ℕ) : Frontend :=
  Sync.run step s₀ inp n

/-- The markers that are delivered in the `d` cycles from `t` on. -/
def deliveredIn (s₀ : Frontend) (inp : ℕ → FrontendIn l) (t d : ℕ) : List Marker :=
  (List.range' t d).flatMap fun k => (state s₀ inp k).delivered (inp k)

/-- The markers of the redirections that are accepted in the `d` cycles from `t` on. -/
def acceptedIn (inp : ℕ → FrontendIn l) (t d : ℕ) : List Marker :=
  (List.range' t d).flatMap fun k => accepted (inp k)

section Run
variable {s₀ : Frontend} {inp : ℕ → FrontendIn l}

theorem inv_state (h0 : s₀.IsReset) (n : ℕ)
    (henv : ∀ k < n, (state s₀ inp k).Env (inp k)) : Inv l (state s₀ inp n) :=
  Sync.run_invariant (Inv l) Env (inv_of_isReset h0) (fun _ _ => inv_step) n henv

theorem keeps_run (h0 : s₀.IsReset) (t d : ℕ)
    (henv : ∀ k < t + d, (state s₀ inp k).Env (inp k)) :
    Keeps (deliveredIn s₀ inp t d ++ (state s₀ inp (t + d)).pending)
      ((state s₀ inp t).pending ++ acceptedIn inp t d) := by
  induction d with
  | zero => simpa [deliveredIn, acceptedIn] using Keeps.refl _
  | succ d ih =>
      have hih := ih fun k hk => henv k (by omega)
      have hinv : Inv l (state s₀ inp (t + d)) := inv_state h0 (t + d) fun k hk =>
        henv k (by omega)
      have hstep := keeps_step hinv (inp (t + d))
      have hlast := (Keeps.refl (deliveredIn s₀ inp t d)).append hstep
      have hfirst := hih.append (Keeps.refl (accepted (inp (t + d))))
      simp only [deliveredIn, acceptedIn, List.range'_concat, Nat.one_mul, List.flatMap_append,
        List.flatMap_singleton, List.append_assoc] at hlast hfirst ⊢
      exact hlast.trans hfirst

/-- No redirection is accepted after `t`, before `t + d`. -/
def Quiet (inp : ℕ → FrontendIn l) (t d : ℕ) : Prop :=
  ∀ k, t < k → k < t + d → (inp k).redirect = none

theorem acceptedIn_of_quiet {t d : ℕ} {r : IfReason} {pc : BitVec 64}
    (hr : (inp t).redirect = some (r, pc)) (hd : 0 < d) (hq : Quiet inp t d) :
    acceptedIn inp t d = [(evenPc pc, r)] := by
  obtain ⟨d, rfl⟩ : ∃ d', d = d' + 1 := ⟨d - 1, by omega⟩
  have hrest : (List.range' (t + 1) d).flatMap (fun k => accepted (inp k)) = [] := by
    rw [List.flatMap_eq_nil_iff]
    intro k hk
    rw [List.mem_range'_1] at hk
    simp [accepted, hq k (by omega) (by omega)]
  rw [acceptedIn, List.range'_succ, List.flatMap_cons, hrest]
  simp [accepted, hr]

/-- Until the next redirection: some of the older markers, and then the new one. -/
theorem deliveredIn_of_quiet (h0 : s₀.IsReset) {t d : ℕ} {r : IfReason} {pc : BitVec 64}
    (henv : ∀ k < t + d, (state s₀ inp k).Env (inp k)) (hr : (inp t).redirect = some (r, pc))
    (hd : 0 < d) (hq : Quiet inp t d) :
    ∃ older, older.Sublist (state s₀ inp t).pending ∧
      ((state s₀ inp (t + d)).pending ≠ [] ∧ deliveredIn s₀ inp t d = older ∨
        (state s₀ inp (t + d)).pending = [] ∧
          deliveredIn s₀ inp t d = older ++ [(evenPc pc, r)]) := by
  have hk := keeps_run h0 t d henv
  rw [acceptedIn_of_quiet hr hd hq] at hk
  have hlast : (deliveredIn s₀ inp t d ++ (state s₀ inp (t + d)).pending).getLast? =
      some (evenPc pc, r) := by
    rw [hk.last]
    simp
  rw [List.getLast?_eq_some_iff] at hlast
  obtain ⟨init, hinit⟩ := hlast
  have hsub : init.Sublist (state s₀ inp t).pending := by
    have h := hk.sublist
    rw [hinit] at h
    simpa using h
  rcases List.eq_nil_or_concat (state s₀ inp (t + d)).pending with hp | ⟨q, x, hp⟩
  · rw [hp, List.append_nil] at hinit
    exact ⟨init, hsub, .inr ⟨hp, hinit⟩⟩
  · rw [hp, List.concat_eq_append, ← List.append_assoc] at hinit
    have hq' := (List.append_inj' hinit rfl).1
    refine ⟨deliveredIn s₀ inp t d, ?_, .inl ⟨by simp [hp], rfl⟩⟩
    exact (hq' ▸ List.sublist_append_left _ q).trans hsub

end Run

/-! ## The aligner takes one word after the other -/

/-- The word that is offered does not leave an instruction dangling. -/
def Complete (s : Frontend) (i : FrontendIn l) : Prop :=
  s.alignValid i = true → (s.alignIn i).exception = false →
    s.aligner.dangling (s.alignIn i) = false

theorem strbOk (s : Frontend) (i : FrontendIn l) : (s.alignIn i).StrbOk := by
  have hstrb : (s.alignIn i).strb = s.alignStrb i := rfl
  have hpc : (s.alignIn i).pc = s.pc := rfl
  rw [AlignIn.StrbOk, hstrb, hpc, alignStrb]
  split_ifs
  · rfl
  · exact .inr rfl
  · exact .inl rfl

theorem shape_step (h : s.aligner.Shape) (hc : s.Complete i) : (s.step i).aligner.Shape :=
  h.step (fun _ => strbOk s i) hc

/-- The instructions that have to go before the word can be taken. -/
def backlog (s : Frontend) : ℕ :=
  (if s.aligner.bufferInstrEmpty then 0 else 2) + (if s.buffer.isSome then 1 else 0)

theorem backlog_step (h : s.aligner.Shape) (hv : s.alignValid i = true)
    (hr : s.alignReady i = false) :
    (s.step i).backlog ≤ s.backlog ∧ (i.fetchReady = true → (s.step i).backlog < s.backlog) := by
  have hbuf : (s.step i).buffer = nextInstrBuffer s.buffer (s.in0 i) (s.in1 i) i.fetchReady := rfl
  have hal : (s.step i).aligner = s.aligner.step (s.alignIn i) := rfl
  have hrdy : (s.alignIn i).alignedReady =
      instrBufferReady s.buffer (s.in0 i) (s.in1 i) i.fetchReady := rfl
  cases hin : s.aligner.useInput (s.alignIn i) with
  | true =>
      -- the word waits for the instruction buffer, which makes room
      obtain ⟨hnot, hsame⟩ := Aligner.step_of_not_ready hin hr
      rw [hrdy, instrBufferReady] at hnot
      rw [backlog, backlog, hal, hsame, hbuf, nextInstrBuffer]
      cases hf : fromBuffer s.buffer (s.in0 i) with
      | true =>
          have hsome : s.buffer.isSome = true := by
            simp only [fromBuffer, Bool.and_eq_true] at hf
            exact hf.1
          cases hfr : i.fetchReady with
          | true =>
              have h1 : (s.in1 i).isNone = false := by simpa [hf, hfr] using hnot
              simp [h1, hsome]
          | false => simp
      | false =>
          have h1 : i.fetchReady = false ∧ (s.in1 i).isNone = false := by simpa [hf] using hnot
          simp [h1.1, h1.2]
  | false =>
      -- the instruction in the buffer of the aligner goes first
      obtain ⟨hfull, hnone, hgo, hstay⟩ := h.drain (i := s.alignIn i) hv hin
      have h1 : s.in1 i = none := hnone
      cases hgo' : (s.alignIn i).alignedReady with
      | true =>
          have hlt : (s.step i).backlog < s.backlog := by
            rw [backlog, backlog, hal, hgo hgo', hfull]
            cases (s.step i).buffer.isSome <;> cases s.buffer.isSome <;> decide
          exact ⟨hlt.le, fun _ => hlt⟩
      | false =>
          rw [hgo', instrBufferReady, h1] at hrdy
          have hfr : fromBuffer s.buffer (s.in0 i) = true ∧ i.fetchReady = false := by
            cases hf : fromBuffer s.buffer (s.in0 i) <;> simp [hf] at hrdy
            exact ⟨rfl, hrdy⟩
          rw [backlog, backlog, hal, hstay hgo', hbuf, nextInstrBuffer, hfr.1, hfr.2]
          simp

section Progress
variable {s₀ : Frontend} {inp : ℕ → FrontendIn l}

theorem shape_state (h0 : s₀.IsReset) (hc : ∀ k, (state s₀ inp k).Complete (inp k)) (n : ℕ) :
    (state s₀ inp n).aligner.Shape :=
  Sync.run_invariant (fun s => s.aligner.Shape) Complete
    (.empty h0.aligner.bufferStartIdx h0.aligner.bufferEndIdx) (fun _ _ => shape_step) n
    fun k _ => hc k

/-- What the frontend waits for. -/
structure Fair (s₀ : Frontend) (inp : ℕ → FrontendIn l) : Prop where
  /-- The instruction cache answers. -/
  resp : Sync.Recurs fun k => (state s₀ inp k).alignValid (inp k) = true
  /-- The backend takes instructions. -/
  fetch : Sync.Recurs fun k => (inp k).fetchReady = true

/-- A word that has come stays until it is taken, and meanwhile the backlog gets smaller. -/
theorem backlog_run (h0 : s₀.IsReset) (hc : ∀ k, (state s₀ inp k).Complete (inp k)) (k : ℕ)
    (hv : (state s₀ inp k).alignValid (inp k) = true)
    (hr : ¬(state s₀ inp k).alignReady (inp k) = true) :
    (state s₀ inp (k + 1)).alignReady (inp (k + 1)) = true ∨
      ((state s₀ inp (k + 1)).alignValid (inp (k + 1)) = true ∧
        (state s₀ inp (k + 1)).backlog ≤ (state s₀ inp k).backlog ∧
          ((inp k).fetchReady = true →
            (state s₀ inp (k + 1)).backlog < (state s₀ inp k).backlog)) := by
  have hr' : (state s₀ inp k).alignReady (inp k) = false := by simpa using hr
  have hb := backlog_step (shape_state h0 hc k) hv hr'
  have hstep : state s₀ inp (k + 1) = (state s₀ inp k).step (inp k) := rfl
  have hl : (state s₀ inp (k + 1)).respLatched = true := by
    rw [hstep]
    simp only [step, hr', Bool.not_false, Bool.true_and]
    exact hv
  exact .inr ⟨by simp [alignValid, hl], hb⟩

theorem recurs_alignReady (h0 : s₀.IsReset) (hc : ∀ k, (state s₀ inp k).Complete (inp k))
    (hf : Fair s₀ inp) : Sync.Recurs fun k => (state s₀ inp k).alignReady (inp k) = true := by
  intro k
  obtain ⟨a, ha, hva⟩ := hf.resp k
  obtain ⟨n, hn, hr⟩ := Sync.eventually_of_rank
    (P := fun k => (state s₀ inp k).alignValid (inp k) = true)
    (Q := fun k => (state s₀ inp k).alignReady (inp k) = true)
    (fun k => (state s₀ inp k).backlog) hf.fetch (backlog_run h0 hc) hva
  exact ⟨n, by omega, hr⟩

end Progress

/-! ## Markers move on -/

/-- How far the newest marker is from the instruction buffer. -/
def distance (s : Frontend) : ℕ :=
  if s.latchMarker ≠ [] then 3
  else if markerOf s.pc s.reason ≠ [] then 2
  else if s.aligner.marker ≠ [] then 1
  else 0

theorem distance_eq_zero_iff :
    s.distance = 0 ↔ s.latchMarker = [] ∧ markerOf s.pc s.reason = [] ∧ s.aligner.marker = [] := by
  unfold distance
  split_ifs <;> simp_all

section Step
variable (h : Inv l s) (hq : i.redirect = none)
include h hq

theorem distance_not_ready (hr : s.alignReady i = false) : (s.step i).distance = s.distance := by
  obtain ⟨-, hm, -⟩ := Aligner.not_ready (w := s.alignIn i) h.held hr
  have hal : (s.step i).aligner.marker = s.aligner.marker := hm
  have hlatch : (s.step i).latchMarker = s.latchMarker := by simp [step, latchMarker, hq, hr]
  have hpc : (s.step i).pc = s.pc ∧ (s.step i).reason = s.reason := by simp [step, hr]
  rw [distance, distance, hal, hlatch, hpc.1, hpc.2]

theorem distance_ready (hr : s.alignReady i = true) : (s.step i).distance ≤ s.distance - 1 := by
  have hlatch : (s.step i).latchMarker = [] := by simp [step, latchMarker, hq, hr]
  have hreq : markerOf (s.step i).pc (s.step i).reason = s.latchMarker := by
    simpa [step, hr] using markerOf_next h i
  -- a marker only enters the aligner with the word that has it
  have hal : markerOf s.pc s.reason = [] → (s.step i).aligner.marker = [] := by
    intro hnil
    by_contra hne
    have hm := (Aligner.half_of_ready (w := s.alignIn i) h.held (precise h i) hr hne).1
    have hm' : s.reason.marked = true := hm
    simp [markerOf, hm'] at hnil
  rw [distance, distance, hreq, hlatch]
  by_cases h3 : s.latchMarker = []
  · by_cases h2 : markerOf s.pc s.reason = []
    · simp [h3, h2, hal h2]
    · simp only [h3, h2, ne_eq, not_true, not_false_iff, if_true, if_false]
      split_ifs <;> omega
  · simp [h3]

/-- The marker in the instruction buffer is the next one to go. -/
theorem pending_of_distance_zero (hz : s.distance = 0) :
    (i.fetchReady = true → (s.step i).pending = []) ∧ (s.step i).distance = 0 := by
  have hz' : (s.step i).distance = 0 := by
    cases hr : s.alignReady i with
    | true =>
        have hle := distance_ready h hq hr
        omega
    | false => rw [distance_not_ready h hq hr, hz]
  refine ⟨fun hf => ?_, hz'⟩
  obtain ⟨-, hreq, hal⟩ := distance_eq_zero_iff.mp hz
  obtain ⟨hlatch', hreq', hal'⟩ := distance_eq_zero_iff.mp hz'
  have hunm : s.reason.marked = false := by
    by_contra hm
    have hm' : s.reason.marked = true := by simpa using hm
    simp [markerOf, hm'] at hreq
  have h0 : instrMarker (s.in0 i) = [] := by
    refine Aligner.aligned0_unmarked ?_
    cases hb : s.aligner.useBuffer (s.offered i) with
    | true => exact Aligner.windowReason_unmarked hal hb fun _ => hunm
    | false => rw [Aligner.windowReason_word hb]; exact hunm
  have hbuf : instrMarker (s.step i).buffer = [] := by
    have hnext : (s.step i).buffer =
        nextInstrBuffer s.buffer (s.in0 i) (s.in1 i) i.fetchReady := rfl
    simp only [hnext, nextInstrBuffer, hf, if_true]
    split_ifs
    · exact h0
    · rfl
    · exact in1_unmarked s i
  rw [pending, hbuf, hal', hreq', hlatch']
  rfl

end Step

section Progress
variable {s₀ : Frontend} {inp : ℕ → FrontendIn l}

/-- As long as no redirection comes, the newest marker reaches the instruction buffer. -/
theorem eventually_distance_zero (h0 : s₀.IsReset)
    (henv : ∀ k, (state s₀ inp k).Env (inp k)) (hc : ∀ k, (state s₀ inp k).Complete (inp k))
    (hf : Fair s₀ inp) (t : ℕ) :
    ∃ n, t ≤ n ∧ ((inp n).redirect ≠ none ∨ (state s₀ inp n).distance = 0) := by
  refine Sync.eventually_of_rank (P := fun _ => True)
    (fun k => (state s₀ inp k).distance) (recurs_alignReady h0 hc hf) ?_ trivial
  intro k _ hQ
  have hq : (inp k).redirect = none := by
    by_contra hne
    exact hQ (.inl hne)
  have hpos : (state s₀ inp k).distance ≠ 0 := fun hz => hQ (.inr hz)
  have hinv : Inv l (state s₀ inp k) := inv_state h0 k fun j _ => henv j
  have hstep : state s₀ inp (k + 1) = (state s₀ inp k).step (inp k) := rfl
  right
  rw [hstep]
  cases hr : (state s₀ inp k).alignReady (inp k) with
  | true =>
      have hle := distance_ready hinv hq hr
      exact ⟨trivial, by omega, fun _ => by omega⟩
  | false =>
      rw [distance_not_ready hinv hq hr]
      exact ⟨trivial, le_rfl, fun h => absurd h (by simp)⟩

/-- As long as no redirection comes, all markers are delivered or lost to newer ones. -/
theorem eventually_drained (h0 : s₀.IsReset) (henv : ∀ k, (state s₀ inp k).Env (inp k))
    (hc : ∀ k, (state s₀ inp k).Complete (inp k)) (hf : Fair s₀ inp) (t : ℕ) :
    ∃ n, t ≤ n ∧ ((inp n).redirect ≠ none ∨ (state s₀ inp n).pending = []) := by
  obtain ⟨a, ha, hz⟩ := eventually_distance_zero h0 henv hc hf t
  rcases hz with hr | hz
  · exact ⟨a, ha, .inl hr⟩
  · obtain ⟨n, hn, hQ⟩ := Sync.eventually_of_rank
      (P := fun k => (state s₀ inp k).distance = 0)
      (Q := fun k => (inp k).redirect ≠ none ∨ (state s₀ inp k).pending = [])
      (fun _ => 0) hf.fetch
      (fun k hz hQ => by
        have hq : (inp k).redirect = none := by
          by_contra hne
          exact hQ (.inl hne)
        have hinv : Inv l (state s₀ inp k) := inv_state h0 k fun j _ => henv j
        have hp := pending_of_distance_zero hinv hq hz
        have hstep : state s₀ inp (k + 1) = (state s₀ inp k).step (inp k) := rfl
        rw [hstep]
        by_cases hfr : (inp k).fetchReady = true
        · exact .inl (.inr (hp.1 hfr))
        · exact .inr ⟨hp.2, le_rfl, fun h => absurd h hfr⟩) hz
    exact ⟨n, by omega, hQ⟩

/-- The markers in the frontend are those of redirections that were accepted, and not
delivered. -/
theorem pending_of_run (h0 : s₀.IsReset) (t : ℕ)
    (henv : ∀ k < t, (state s₀ inp k).Env (inp k)) :
    (deliveredIn s₀ inp 0 t ++ (state s₀ inp t).pending).Sublist
      ((0, .fenceI) :: acceptedIn inp 0 t) := by
  have henv' : ∀ k < 0 + t, (state s₀ inp k).Env (inp k) := by simpa using henv
  have hk := keeps_run h0 0 t henv'
  have hp : s₀.pending = [(0, .fenceI)] := by
    have hal : s₀.aligner.marker = [] := by
      refine Aligner.marker_of_empty ?_
      rw [h0.aligner.bufferStartIdx, h0.aligner.bufferEndIdx]
    have hlatch : s₀.latchMarker = [(0, .fenceI)] := by
      simp [latchMarker, h0.redirect, evenPc]
    have hreq : markerOf s₀.pc s₀.reason = [] := markerOf_eq_nil (by rw [h0.stage.2]; rfl)
    rw [pending, h0.buffer, hal, hlatch, hreq]
    rfl
  have hs : state s₀ inp 0 = s₀ := rfl
  rw [Nat.zero_add, hs, hp] at hk
  exact hk.sublist

/-- The marked instructions that are delivered after a redirection was accepted: markers of
older redirections that were still under way, and then that of the redirection, once.  It is
delivered, unless another redirection is accepted before. -/
theorem redirect_delivered (h0 : s₀.IsReset) (henv : ∀ k, (state s₀ inp k).Env (inp k)) {t : ℕ}
    {r : IfReason} {pc : BitVec 64} (hr : (inp t).redirect = some (r, pc)) :
    (deliveredIn s₀ inp 0 t ++ (state s₀ inp t).pending).Sublist
        ((0, .fenceI) :: acceptedIn inp 0 t) ∧
      (∀ d, 0 < d → Quiet inp t d → ∃ older, older.Sublist (state s₀ inp t).pending ∧
        (deliveredIn s₀ inp t d = older ∨
          deliveredIn s₀ inp t d = older ++ [(evenPc pc, r)])) ∧
      ((∀ k, (state s₀ inp k).Complete (inp k)) → Fair s₀ inp →
        ∃ d, 0 < d ∧ (¬Quiet inp t (d + 1) ∨
          ∃ older, older.Sublist (state s₀ inp t).pending ∧
            deliveredIn s₀ inp t d = older ++ [(evenPc pc, r)])) := by
  refine ⟨pending_of_run h0 t fun k _ => henv k, fun d hd hq => ?_, fun hc hf => ?_⟩
  · obtain ⟨older, hsub, hcase⟩ := deliveredIn_of_quiet h0 (fun k _ => henv k) hr hd hq
    exact ⟨older, hsub, hcase.imp And.right And.right⟩
  · obtain ⟨n, hn, hcase⟩ := eventually_drained h0 henv hc hf (t + 1)
    have hd : t + (n - t) = n := by omega
    refine ⟨n - t, by omega, ?_⟩
    by_cases hq : Quiet inp t (n - t + 1)
    · right
      have hnone := hq n (by omega) (by omega)
      have hp : (state s₀ inp (t + (n - t))).pending = [] := by
        rw [hd]
        exact hcase.resolve_left (by simp [hnone])
      obtain ⟨older, hsub, hcase'⟩ := deliveredIn_of_quiet (d := n - t) h0 (fun k _ => henv k)
        hr (by omega) fun k h1 h2 => hq k h1 (by omega)
      rcases hcase' with ⟨hne, -⟩ | ⟨-, heq⟩
      · exact absurd hp hne
      · exact ⟨older, hsub, heq⟩
    · exact .inl hq

end Progress

/-! ## Two runs -/

/-- The frontend after reset. -/
def resetState : Frontend :=
  ⟨0, .fenceI, true, 0, .prefetch, true, 0, false, 0, ⟨0, 1, 1, 0, .prefetch⟩, none⟩

/-- An instruction cache that answers at once with instructions of two halfwords, a jump to
address zero predicted for every word, and a backend that is ready. -/
def answer (redirect : Option (IfReason × BitVec 64)) : FrontendIn 57 :=
  ⟨redirect, ⟨true, .jump, false, 0, false, false, 0⟩, true, 0x00130013, false, 0, true⟩

/-- A redirection in the third cycle, to the second halfword of a word. -/
def oneRedirect (k : ℕ) : FrontendIn 57 :=
  if k = 0 then { answer none with respValid := false }
  else answer (if k = 3 then some (.mispredict, 0x102) else none)

theorem oneRedirect_steady (n : ℕ) :
    state resetState oneRedirect (8 + n) = state resetState oneRedirect 8 := by
  induction n with
  | zero => rfl
  | succ n ih =>
      have hstep : state resetState oneRedirect (8 + (n + 1)) =
          (state resetState oneRedirect (8 + n)).step (oneRedirect (8 + n)) := rfl
      have hin : oneRedirect (8 + n) = answer none := by
        simp [oneRedirect, show 8 + n ≠ 3 by omega]
      rw [hstep, ih, hin]
      decide +kernel

theorem oneRedirect_env (k : ℕ) : (state resetState oneRedirect k).Env (oneRedirect k) := by
  have hfirst : ∀ j ∈ List.range 9, ((oneRedirect j).redirect.all fun x => x.1.marked) = true ∧
      ((oneRedirect j).respValid = true → (state resetState oneRedirect j).respLatched = false) ∧
        npcWord 57 (state resetState oneRedirect j).pc =
          ((state resetState oneRedirect j).pc &&& ~~~3) + 4 := by
    decide
  -- every cycle is one of the first ones
  obtain ⟨j, hj, hs, hin⟩ : ∃ j ∈ List.range 9,
      state resetState oneRedirect k = state resetState oneRedirect j ∧
        oneRedirect k = oneRedirect j := by
    by_cases hk : k < 9
    · exact ⟨k, List.mem_range.mpr hk, rfl, rfl⟩
    · obtain ⟨n, rfl⟩ : ∃ n, k = 8 + n := ⟨k - 8, by omega⟩
      refine ⟨8, by decide, oneRedirect_steady n, ?_⟩
      simp [oneRedirect, show 8 + n ≠ 3 by omega]
  obtain ⟨hr, ha, hl⟩ := hfirst j hj
  rw [hs, hin]
  refine ⟨fun x hx => ?_, ha, fun _ _ => hl⟩
  simpa [hx] using hr

/-- The marker waits in the aligner for the second half of its instruction. -/
theorem redirect_delivered_once :
    ∃ d, deliveredIn resetState oneRedirect 3 d = [(0x102, .mispredict)] := by
  have hc : ∀ k, (state resetState oneRedirect k).Complete (oneRedirect k) := by
    intro k _ _
    have hpart : (oneRedirect k).predictor.btbPartial = false := by
      unfold oneRedirect
      split <;> rfl
    have hstrb : ((state resetState oneRedirect k).alignIn (oneRedirect k)).strb ≠ 1 := by
      have hs : ((state resetState oneRedirect k).alignIn (oneRedirect k)).strb =
          (state resetState oneRedirect k).alignStrb (oneRedirect k) := rfl
      rw [hs, alignStrb, hpart]
      split_ifs <;> simp_all
    rw [Aligner.dangling, AlignIn.partialStrb, beq_eq_false_iff_ne.mpr hstrb]
    rfl
  have hf : Fair resetState oneRedirect := by
    constructor
    · intro k
      refine ⟨k + 1, by omega, ?_⟩
      simp [alignValid, oneRedirect, answer]
    · intro k
      have hfr : (oneRedirect k).fetchReady = true := by
        unfold oneRedirect
        split <;> rfl
      exact ⟨k, le_rfl, hfr⟩
  have h0 : resetState.IsReset :=
    ⟨⟨rfl, rfl, rfl⟩, ⟨rfl, rfl⟩, ⟨rfl, rfl, rfl⟩, ⟨rfl, rfl⟩, rfl⟩
  obtain ⟨d, -, hcase⟩ := (redirect_delivered h0 oneRedirect_env (t := 3) rfl).2.2 hc hf
  have hq : Quiet oneRedirect 3 (d + 1) := by
    intro k hk _
    simp [oneRedirect, answer, show k ≠ 0 by omega, show k ≠ 3 by omega]
  obtain ⟨older, hsub, heq⟩ := hcase.resolve_left (not_not.mpr hq)
  have hp : (state resetState oneRedirect 3).pending = [] := by decide
  rw [hp, List.sublist_nil] at hsub
  refine ⟨d, ?_⟩
  rw [heq, hsub]
  decide

/-- A second redirection in the cycle after the first. -/
def overlapping (k : ℕ) : FrontendIn 57 :=
  if k = 0 then { answer none with respValid := false }
  else if k = 3 then answer (some (.mispredict, 0x100))
  else if k = 4 then answer (some (.protChanged, 0x200))
  else answer none

/-- The first marked instruction after the second redirection is that of the first one. -/
theorem older_marker_first :
    ¬∀ (s₀ : Frontend) (inp : ℕ → FrontendIn 57) (t d : ℕ) (r : IfReason) (pc : BitVec 64),
      s₀.IsReset → (∀ k < t + 1 + d, (state s₀ inp k).Env (inp k)) →
      (inp t).redirect = some (r, pc) → Quiet inp t (1 + d) →
      ∀ x ∈ (deliveredIn s₀ inp (t + 1) d).head?, x = (evenPc pc, r) := by
  intro h
  have h0 : resetState.IsReset :=
    ⟨⟨rfl, rfl, rfl⟩, ⟨rfl, rfl⟩, ⟨rfl, rfl, rfl⟩, ⟨rfl, rfl⟩, rfl⟩
  have hchk : ∀ k ∈ List.range 6, ((overlapping k).redirect.all fun x => x.1.marked) = true ∧
      ((overlapping k).respValid = true → (state resetState overlapping k).respLatched = false) ∧
        npcWord 57 (state resetState overlapping k).pc =
          ((state resetState overlapping k).pc &&& ~~~3) + 4 := by
    decide
  have henv : ∀ k < 4 + 1 + 1, (state resetState overlapping k).Env (overlapping k) := by
    intro k hk
    obtain ⟨hr, ha, hl⟩ := hchk k (List.mem_range.mpr hk)
    refine ⟨fun x hx => ?_, ha, fun _ _ => hl⟩
    simpa [hx] using hr
  have hq : Quiet overlapping 4 (1 + 1) := by
    intro k h1 h2
    obtain rfl : k = 5 := by omega
    rfl
  have hx := h resetState overlapping 4 1 .protChanged 0x200 h0 henv rfl hq
    (0x100, .mispredict) (by decide)
  exact absurd hx (by decide)

end Muntjac.Pipeline.Frontend

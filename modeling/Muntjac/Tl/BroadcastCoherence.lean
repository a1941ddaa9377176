import Muntjac.Tl.BroadcastCycle

/-!
# Coherence without a directory

The links stay in step with the trackers and the locks, and the request machine takes
its decisions on what the channels did, so the invariant holds along every run.

## Main results

* `BroadcastSys.coherent_of_run` — in every run no host holds Trunk on a line that
  another host holds, and what hosts and clients receive is the latest data.
-/

namespace Muntjac.Tl

open Sync (run run_invariant)
open BroadcastEnv

variable {p : BroadcastParams}

namespace BroadcastEnv

/-- Nothing but the responses of the device has changed on the links, and these only
by new ones at the end. -/
structure Grows (e e' : BroadcastEnv p) : Prop where
  aQ : e'.aQ = e.aQ
  aIdx : e'.aIdx = e.aIdx
  cQ : e'.cQ = e.cQ
  cIdx : e'.cIdx = e.cIdx
  rIdx : e'.rIdx = e.rIdx
  rQ : e.rQ <+: e'.rQ

variable {e e' e'' : BroadcastEnv p}

theorem Grows.refl (e : BroadcastEnv p) : Grows e e :=
  ⟨rfl, rfl, rfl, rfl, rfl, List.prefix_refl _⟩

theorem Grows.trans (h : Grows e e') (h' : Grows e' e'') : Grows e e'' :=
  ⟨h'.aQ.trans h.aQ, h'.aIdx.trans h.aIdx, h'.cQ.trans h.cQ, h'.cIdx.trans h.cIdx,
    h'.rIdx.trans h.rIdx, h.rQ.trans h'.rQ⟩

theorem hostAccept_grows (e : BroadcastEnv p) (j : ℕ) (last : Bool) (d : Option DMsg) :
    Grows e (e.hostAccept j last d) := by
  have hrel : ∀ s ph, Grows e (e.setRelPhase s ph) := fun s ph =>
    ⟨rfl, rfl, rfl, rfl, rfl, List.prefix_refl _⟩
  cases d with
  | none => exact .refl e
  | some d =>
      simp only [hostAccept]
      split
      · exact hrel _ _
      · split <;> split <;> exact ⟨rfl, rfl, rfl, rfl, rfl, List.prefix_refl _⟩

theorem deviceAccept_grows (amo : AOp → ℕ → ℕ → ℕ → ℕ) (e : BroadcastEnv p) (j : ℕ) (last : Bool)
    (a : Option AMsg) : Grows e (e.deviceAccept amo j last a) := by
  cases a with
  | none => exact .refl e
  | some a =>
      simp only [deviceAccept]
      split
      · exact ⟨rfl, rfl, rfl, rfl, rfl, List.prefix_append _ _⟩
      · exact ⟨rfl, rfl, rfl, rfl, rfl, List.prefix_refl _⟩

end BroadcastEnv

/-! ## Queues and trackers -/

section Queue
variable {α : Type*} {len : α → ℕ} {fire : Bool} {q q' : List α} {i i' : ℕ}

/-- What a cycle does to a channel: nothing, or a beat of the head; in the meantime
messages may have been queued behind. -/
inductive Moved (len : α → ℕ) : Bool → List α → ℕ → List α → ℕ → Prop
  | stay {q q' : List α} {i : ℕ} : q <+: q' → Moved len false q i q' i
  | beat {m : α} {rest q' : List α} {i : ℕ} : i ≠ len m → m :: rest <+: q' →
      Moved len true (m :: rest) i q' (i + 1)
  | done {m : α} {rest q' : List α} : rest <+: q' → Moved len true (m :: rest) (len m) q' 0

theorem headLen_mono (h : q <+: q') (hq : q ≠ []) : headLen len q' = headLen len q := by
  obtain ⟨t, rfl⟩ := h
  cases q with
  | nil => exact absurd rfl hq
  | cons m rest => rfl

/-- A tracker follows the channel that it watches. -/
theorem counts_moved {P : BurstParams} {b b' : Burst} (h : b.Counts P (headLen len q) i)
    (hm : Moved len fire q i q' i') (hstay : fire = false → b' = b)
    (hfire : fire = true → ∃ hasData size, b' = b.next P hasData size ∧
      Burst.len P hasData size = headLen len q) : b'.Counts P (headLen len q') i' := by
  cases hm with
  | stay hq =>
      rw [hstay rfl]
      by_cases hnil : q = []
      · subst hnil
        have hz : i = 0 := by
          have := h.1
          simp only [headLen] at this
          omega
        subst hz
        exact h.of_zero _
      · rwa [headLen_mono hq hnil]
  | beat hi hq =>
      obtain ⟨hasData, size, rfl, hlen⟩ := hfire rfl
      rw [headLen_mono hq (by simp), ← hlen]
      rw [← hlen] at h
      refine h.next_lt ?_
      have := h.1
      have : Burst.len P hasData size ≠ i := by
        rw [hlen]
        exact fun hx => hi hx.symm
      omega
  | done hq =>
      obtain ⟨hasData, size, rfl, hlen⟩ := hfire rfl
      rw [← hlen] at h
      have hi : Burst.len P hasData size = len _ := hlen
      rw [← hi] at h
      exact h.next_last _

/-- In the middle of a message the head stays. -/
theorem Moved.idx_of_len_zero (hm : Moved len fire q i q' i') (hi : i ≤ headLen len q)
    (hz : fire = true → headLen len q = 0) : i' = i ∧ (0 < i → headLen len q' = headLen len q) := by
  cases hm with
  | stay hq =>
      refine ⟨rfl, fun hpos => headLen_mono hq ?_⟩
      rintro rfl
      simp only [headLen] at hi
      omega
  | beat hne hq =>
      have : len _ = 0 := hz rfl
      have hle : i ≤ len _ := hi
      omega
  | done hq =>
      have : len _ = 0 := hz rfl
      exact ⟨this.symm, fun hpos => by omega⟩

/-- After a beat the index is positive unless the beat was the last. -/
theorem Moved.idx_pos (hm : Moved len true q i q' i') : 0 < i' ↔ i ≠ headLen len q := by
  cases hm with
  | beat hne hq => exact ⟨fun _ => hne, fun _ => Nat.succ_pos _⟩
  | done hq => exact ⟨fun h => absurd h (Nat.lt_irrefl 0), fun h => absurd rfl h⟩

/-- A tracker between messages does not depend on the head. -/
theorem Burst.Counts.of_head {P : BurstParams} {b : Burst} {n n' : ℕ} (h : b.Counts P n i)
    (hn : 0 < i → n' = n) : b.Counts P n' i := by
  rcases Nat.eq_zero_or_pos i with rfl | hpos
  · exact h.of_zero _
  · rwa [hn hpos]

theorem Moved.extends_of_stay (hm : Moved len false q i q' i') : q <+: q' := by
  cases hm with
  | stay h => exact h

theorem Moved.append {q'' : List α} (hm : Moved len fire q i q' i') (hq : q' <+: q'') :
    Moved len fire q i q'' i' := by
  cases hm with
  | stay h => exact .stay (h.trans hq)
  | beat hi h => exact .beat hi (h.trans hq)
  | done h => exact .done (h.trans hq)

end Queue

namespace BroadcastSys

variable {s : BroadcastSys p} {l : LinkIn} (amo : AOp → ℕ → ℕ → ℕ → ℕ)

/-! ## The channels after a cycle -/

theorem toHost_grows (s : BroadcastSys p) (l : LinkIn) (k : Fin 3) (e : BroadcastEnv p) :
    Grows e (s.toHost l k e) := by
  unfold toHost
  split
  · exact .refl e
  · exact hostAccept_grows e _ _ _

theorem toDevice_grows (s : BroadcastSys p) (l : LinkIn) (k : Fin 2) (e : BroadcastEnv p) :
    Grows e (s.toDevice amo l k e) := by
  unfold toDevice
  split
  · exact .refl e
  · exact deviceAccept_grows amo e _ _ _

theorem stageE_grows (s : BroadcastSys p) (l : LinkIn) (e : BroadcastEnv p) :
    Grows e (s.stageE l e) := by
  unfold stageE
  split
  · exact ⟨rfl, rfl, rfl, rfl, rfl, List.prefix_refl _⟩
  · exact .refl e

theorem stageB_grows (s : BroadcastSys p) (l : LinkIn) (e : BroadcastEnv p) :
    Grows e (s.stageB l e) := by
  unfold stageB
  split
  · exact .refl e
  · split
    · exact ⟨rfl, rfl, rfl, rfl, rfl, List.prefix_refl _⟩
    · exact .refl e

/-- Channel A transfers a beat. -/
def aFire (s : BroadcastSys p) (l : LinkIn) : Bool :=
  (s.inputs l).hostA.isSome && s.br.hostAReady (s.inputs l)

theorem advA_moved {e : BroadcastEnv p} (h : e.aQ ≠ []) :
    Moved (AReq.len p) true e.aQ e.aIdx e.advA.aQ e.advA.aIdx := by
  unfold advA
  cases hq : e.aQ with
  | nil => exact absurd hq h
  | cons m rest =>
      by_cases hi : e.aIdx = m.len p
      · simp only [hi, if_true]
        exact .done (List.prefix_refl _)
      · simp only [hi, if_false]
        exact .beat hi (List.prefix_refl _)

theorem advC_moved {e : BroadcastEnv p} (h : e.cQ ≠ []) :
    Moved (CReq.len p) true e.cQ e.cIdx e.advC.cQ e.advC.cIdx := by
  unfold advC
  cases hq : e.cQ with
  | nil => exact absurd hq h
  | cons m rest =>
      by_cases hi : e.cIdx = m.len p
      · simp only [hi, if_true]
        split
        · exact .done (List.prefix_refl _)
        · exact .done (List.prefix_refl _)
      · simp only [hi, if_false]
        exact .beat hi (List.prefix_refl _)

theorem advR_moved {e : BroadcastEnv p} {q : List DResp} (hq : q ≠ []) (h : q <+: e.rQ) :
    Moved (DResp.len p) true q e.rIdx e.advR.rQ e.advR.rIdx := by
  obtain ⟨new, hnew⟩ := h
  cases q with
  | nil => exact absurd rfl hq
  | cons r rest =>
      have hr : e.rQ = r :: (rest ++ new) := hnew.symm
      by_cases hi : e.rIdx = r.len p
      · rw [advR_last e hr hi, hi]
        exact .done (List.prefix_append _ _)
      · rw [advR_more e hr hi]
        exact .beat hi ⟨new, hnew⟩

theorem advA_rest (e : BroadcastEnv p) :
    e.advA.cQ = e.cQ ∧ e.advA.cIdx = e.cIdx ∧ e.advA.rQ = e.rQ ∧ e.advA.rIdx = e.rIdx := by
  unfold advA
  split
  · exact ⟨rfl, rfl, rfl, rfl⟩
  · split <;> exact ⟨rfl, rfl, rfl, rfl⟩

theorem advC_rest (e : BroadcastEnv p) :
    e.advC.aQ = e.aQ ∧ e.advC.aIdx = e.aIdx ∧ e.advC.rQ = e.rQ ∧ e.advC.rIdx = e.rIdx := by
  unfold advC
  split
  · exact ⟨rfl, rfl, rfl, rfl⟩
  · split
    · simp only
      split <;> exact ⟨rfl, rfl, rfl, rfl⟩
    · exact ⟨rfl, rfl, rfl, rfl⟩

theorem advR_rest (e : BroadcastEnv p) :
    e.advR.aQ = e.aQ ∧ e.advR.aIdx = e.aIdx ∧ e.advR.cQ = e.cQ ∧ e.advR.cIdx = e.cIdx := by
  unfold advR
  split
  · exact ⟨rfl, rfl, rfl, rfl⟩
  · split <;> exact ⟨rfl, rfl, rfl, rfl⟩

theorem stageC_rest (s : BroadcastSys p) (l : LinkIn) (e : BroadcastEnv p) :
    (s.stageC amo l e).aQ = e.aQ ∧ (s.stageC amo l e).aIdx = e.aIdx ∧
      (s.stageC amo l e).rIdx = e.rIdx ∧ e.rQ <+: (s.stageC amo l e).rQ := by
  have hg := (toDevice_grows amo s l 0 e).trans (toHost_grows s l 0 _)
  unfold stageC
  simp only
  split
  · obtain ⟨h1, h2, h3, h4⟩ := advC_rest (s.toHost l 0 (s.toDevice amo l 0 e))
    rw [h1, h2, h3, h4]
    exact ⟨hg.aQ, hg.aIdx, hg.rIdx, hg.rQ⟩
  · exact ⟨hg.aQ, hg.aIdx, hg.rIdx, hg.rQ⟩

theorem stageC_moved (s : BroadcastSys p) (l : LinkIn) (e : BroadcastEnv p)
    (hq : e.cQ = s.env.cQ) (hi : e.cIdx = s.env.cIdx) :
    Moved (CReq.len p) (s.br.hostCReady (s.inputs l)) s.env.cQ s.env.cIdx
      (s.stageC amo l e).cQ (s.stageC amo l e).cIdx := by
  have hg := (toDevice_grows amo s l 0 e).trans (toHost_grows s l 0 _)
  unfold stageC
  cases hr : s.br.hostCReady (s.inputs l) with
  | false =>
      simp only [Bool.false_eq_true, if_false]
      rw [hg.cQ, hg.cIdx, hq, hi]
      exact .stay (List.prefix_refl _)
  | true =>
      have hne : s.env.cQ ≠ [] := by
        rcases hostC_cases s l with hnone | ⟨m, rest, hcq, -⟩
        · simp [Broadcast.hostCReady, hnone] at hr
        · simp [hcq]
      simp only [if_true]
      have := advC_moved (e := s.toHost l 0 (s.toDevice amo l 0 e)) (by rw [hg.cQ, hq]; exact hne)
      rwa [hg.cQ, hg.cIdx, hq, hi] at this

theorem stageA_rest (s : BroadcastSys p) (l : LinkIn) (e : BroadcastEnv p) :
    (s.stageA amo l e).cQ = e.cQ ∧ (s.stageA amo l e).cIdx = e.cIdx ∧
      (s.stageA amo l e).rIdx = e.rIdx ∧ e.rQ <+: (s.stageA amo l e).rQ := by
  have hg := fun e' => (toDevice_grows amo s l 1 e').trans (toHost_grows s l 1 _)
  unfold stageA
  simp only
  split
  · obtain ⟨h1, h2, h3, h4⟩ := advA_rest e
    have hg' := hg e.advA
    rw [← h1, ← h2, ← h3, ← h4]
    exact ⟨hg'.cQ, hg'.cIdx, hg'.rIdx, hg'.rQ⟩
  · exact ⟨(hg e).cQ, (hg e).cIdx, (hg e).rIdx, (hg e).rQ⟩

theorem stageA_moved (s : BroadcastSys p) (l : LinkIn) (e : BroadcastEnv p)
    (hq : e.aQ = s.env.aQ) (hi : e.aIdx = s.env.aIdx) :
    Moved (AReq.len p) (s.aFire l) s.env.aQ s.env.aIdx
      (s.stageA amo l e).aQ (s.stageA amo l e).aIdx := by
  have hg := fun e' => (toDevice_grows amo s l 1 e').trans (toHost_grows s l 1 _)
  have hfire : s.aFire l = ((s.inputs l).hostA.isSome && s.br.hostAReady (s.inputs l)) := rfl
  unfold stageA
  rw [← hfire]
  cases hr : s.aFire l with
  | false =>
      simp only [Bool.false_eq_true, if_false]
      rw [(hg e).aQ, (hg e).aIdx, hq, hi]
      exact .stay (List.prefix_refl _)
  | true =>
      have hne : s.env.aQ ≠ [] := by
        rcases hostA_cases s l with hnone | ⟨m, rest, haq, -⟩
        · simp [hfire, hnone] at hr
        · simp [haq]
      simp only [if_true]
      rw [(hg e.advA).aQ, (hg e.advA).aIdx, ← hq, ← hi]
      exact advA_moved (by rw [hq]; exact hne)

theorem stageR_rest (s : BroadcastSys p) (l : LinkIn) (e : BroadcastEnv p) :
    (s.stageR l e).aQ = e.aQ ∧ (s.stageR l e).aIdx = e.aIdx ∧
      (s.stageR l e).cQ = e.cQ ∧ (s.stageR l e).cIdx = e.cIdx := by
  have hg := toHost_grows s l 2 e
  unfold stageR
  simp only
  split
  · obtain ⟨h1, h2, h3, h4⟩ := advR_rest (s.toHost l 2 e)
    rw [h1, h2, h3, h4]
    exact ⟨hg.aQ, hg.aIdx, hg.cQ, hg.cIdx⟩
  · exact ⟨hg.aQ, hg.aIdx, hg.cQ, hg.cIdx⟩

theorem stageR_moved (s : BroadcastSys p) (l : LinkIn) (e : BroadcastEnv p)
    (hq : s.env.rQ <+: e.rQ) (hi : e.rIdx = s.env.rIdx) :
    Moved (DResp.len p) (s.br.deviceDReady (s.inputs l)) s.env.rQ s.env.rIdx
      (s.stageR l e).rQ (s.stageR l e).rIdx := by
  have hg := toHost_grows s l 2 e
  unfold stageR
  cases hr : s.br.deviceDReady (s.inputs l) with
  | false =>
      simp only [Bool.false_eq_true, if_false]
      rw [hg.rIdx, hi]
      exact .stay (hq.trans hg.rQ)
  | true =>
      have hne : s.env.rQ ≠ [] := by
        rcases deviceD_cases s l with hnone | ⟨m, rest, hrq, -⟩
        · simp [Broadcast.deviceDReady, hnone] at hr
        · simp [hrq]
      simp only [if_true]
      have := advR_moved (e := s.toHost l 2 e) hne (hq.trans hg.rQ)
      rwa [hg.rIdx, hi] at this

/-- The channels after a cycle. -/
structure CycleLinks (s : BroadcastSys p) (l : LinkIn) (e' : BroadcastEnv p) : Prop where
  a : Moved (AReq.len p) (s.aFire l) s.env.aQ s.env.aIdx e'.aQ e'.aIdx
  c : Moved (CReq.len p) (s.br.hostCReady (s.inputs l)) s.env.cQ s.env.cIdx e'.cQ e'.cIdx
  r : Moved (DResp.len p) (s.br.deviceDReady (s.inputs l)) s.env.rQ s.env.rIdx e'.rQ e'.rIdx

theorem cycle_links (s : BroadcastSys p) (l : LinkIn) :
    CycleLinks s l (s.cycle amo l).env := by
  have he := stageE_grows s l s.env
  set e1 := s.stageE l s.env with he1
  obtain ⟨ca, cai, cri, cr⟩ := stageC_rest amo s l e1
  have hc := stageC_moved amo s l e1 he.cQ he.cIdx
  set e2 := s.stageC amo l e1 with he2
  obtain ⟨ac, aci, ari, ar⟩ := stageA_rest amo s l e2
  have ha := stageA_moved amo s l e2 (ca.trans he.aQ) (cai.trans he.aIdx)
  set e3 := s.stageA amo l e2 with he3
  obtain ⟨ra, rai, rc, rci⟩ := stageR_rest s l e3
  have hr := stageR_moved s l e3 (he.rQ.trans (cr.trans ar)) (ari.trans (cri.trans he.rIdx))
  set e4 := s.stageR l e3 with he4
  have hb := stageB_grows s l e4
  have hcyc : (s.cycle amo l).env = s.stageB l e4 := rfl
  rw [hcyc]
  refine ⟨?_, ?_, ?_⟩
  · rwa [hb.aQ, hb.aIdx, ra, rai]
  · rwa [hb.cQ, hb.cIdx, rc, rci, ac, aci]
  · rw [hb.rIdx]
    exact hr.append hb.rQ

/-! ## The trackers and the locks after a cycle -/

theorem hostReq_counts (hl : Links s) : (s.br.next (s.inputs l)).hostReq.Counts p.burst
    (s.cycle amo l).env.aLen (s.cycle amo l).env.aIdx := by
  refine counts_moved hl.hostReq (cycle_links amo s l).a ?_ ?_
  · intro hf
    rcases hostA_cases s l with hnone | ⟨m, rest, haq, hsome⟩
    · simp [Broadcast.next, hnone]
    · have hr : s.br.hostAReady (s.inputs l) = false := by simpa [aFire, hsome] using hf
      simp [Broadcast.next, hsome, hr]
  · intro hf
    rcases hostA_cases s l with hnone | ⟨m, rest, haq, hsome⟩
    · simp [aFire, hnone] at hf
    · have hr : s.br.hostAReady (s.inputs l) = true := by simpa [aFire, hsome] using hf
      refine ⟨m.opcode.hasData, m.size, by simp [Broadcast.next, hsome, hr, AReq.beat], ?_⟩
      rw [haq]
      rfl

theorem deviceGnt_counts (hl : Links s) : (s.br.next (s.inputs l)).deviceGnt.Counts p.burst
    (s.cycle amo l).env.rLen (s.cycle amo l).env.rIdx := by
  refine counts_moved hl.deviceGnt (cycle_links amo s l).r ?_ ?_
  · intro hr
    cases hd : (s.inputs l).deviceD with
    | none => simp [Broadcast.next, hd]
    | some d => simp [Broadcast.next, hd, hr]
  · intro hr
    rcases deviceD_cases s l with hnone | ⟨r, rest, hrq, hsome⟩
    · simp [Broadcast.deviceDReady, hnone] at hr
    · refine ⟨r.opcode.hasData, r.size, by simp [Broadcast.next, hsome, hr, DResp.beat], ?_⟩
      rw [hrq]
      rfl

/-- A response that the arbiter does not send is one that the manager drops. -/
theorem rLen_of_drop (h2 : s.br.hostGntReady (s.inputs l) 2 = true →
      Broadcast.hostGntDevice (s.inputs l) = none)
    (hr : s.br.deviceDReady (s.inputs l) = true) : s.env.rLen = 0 := by
  rcases deviceD_cases s l with hnone | ⟨r, rest, hrq, hsome⟩
  · simp [Broadcast.deviceDReady, hnone] at hr
  · rw [rLen_cons hrq]
    cases hd : Broadcast.isProbeAckData (r.beat s.env.rIdx) with
    | true =>
        simp only [Broadcast.isProbeAckData, DResp.beat, Bool.and_eq_true, beq_iff_eq] at hd
        simp [DResp.len, Burst.len, hd.2, DOp.hasData]
    | false =>
        have hr2 : s.br.hostGntReady (s.inputs l) 2 = true := by
          simpa [Broadcast.deviceDReady, hsome, hd] using hr
        have hnone := h2 hr2
        simp only [Broadcast.hostGntDevice, hsome, Option.bind_some, hd, Bool.false_eq_true,
          if_false] at hnone
        split_ifs at hnone

/-- The length of a response does not change on its way. -/
theorem len_hostGntDevice (hc : Coherent s.br.fsm s.env) {r : DResp} {rest : List DResp}
    (hrq : s.env.rQ = r :: rest)
    (hsome : (s.inputs l).deviceD = some (r.beat s.env.rIdx)) {d : DMsg}
    (hd : Broadcast.hostGntDevice (s.inputs l) = some d) :
    Burst.len p.burst d.opcode.hasData d.size = r.len p ∧
      s.br.deviceDReady (s.inputs l) = s.br.hostGntReady (s.inputs l) 2 := by
  have hmem : r ∈ s.env.rQ := by rw [hrq]; exact List.mem_cons_self
  cases hdrop : Broadcast.isProbeAckData (r.beat s.env.rIdx) with
  | true => simp [Broadcast.hostGntDevice, hsome, hdrop] at hd
  | false =>
      refine ⟨?_, by simp [Broadcast.deviceDReady, hsome, hdrop]⟩
      have hg : r.source % 4 < 2 → r.opcode = .accessAckData := by
        intro hlt
        have hdrop' : r.isDrop = false := hdrop
        exact (hc.ids.rAcq r hmem (by simp [DResp.isGrant, hdrop', hlt])).1
      simp only [Broadcast.hostGntDevice, hsome, Option.bind_some, hdrop, Bool.false_eq_true,
        if_false] at hd
      by_cases h0 : (r.beat s.env.rIdx).source % 4 = xactAcquireToT
      · rw [if_pos h0] at hd
        rw [← Option.some.inj hd, DResp.len, hg (h0.trans_lt (by decide))]
        rfl
      · rw [if_neg h0] at hd
        by_cases h1 : (r.beat s.env.rIdx).source % 4 = xactAcquireToB
        · rw [if_pos h1] at hd
          rw [← Option.some.inj hd, DResp.len, hg (h1.trans_lt (by decide))]
          rfl
        · rw [if_neg h1] at hd
          by_cases h2 : (r.beat s.env.rIdx).source % 4 = xactReleaseData
          · rw [if_pos h2] at hd
            rw [← Option.some.inj hd, DResp.len, (hc.ids.rRel r hmem h2).1]
            rfl
          · rw [if_neg h2] at hd
            rw [← Option.some.inj hd]
            rfl

theorem hostGnt_links (hl : Links s) (hc : Coherent s.br.fsm s.env) :
    (s.br.next (s.inputs l)).hostGnt.Counts p.burst (s.cycle amo l).env.rLen
        (s.cycle amo l).env.rIdx ∧
      ((s.br.next (s.inputs l)).hostGntArb.locked = true ↔ 0 < (s.cycle amo l).env.rIdx) ∧
      (0 < (s.cycle amo l).env.rIdx →
        (s.br.next (s.inputs l)).hostGntArb.selected = some 2) := by
  have hmoved := (cycle_links amo s l).r
  have hle : s.env.rIdx ≤ s.env.rLen := hl.hostGnt.1
  rcases s.br.hostGntArb.fires_or_idle (s.br.hostGntMult (s.inputs l)) (s.inputs l).hostDReady with
    ⟨k, d, hf⟩ | hidle
  · have hD : s.br.hostD (s.inputs l) = some d := hf.msg_eq
    have hready : ∀ k', s.br.hostGntReady (s.inputs l) k' = decide (k = k') := hf.ready_eq
    have hgnt : (s.br.next (s.inputs l)).hostGnt =
        s.br.hostGnt.next p.burst d.opcode.hasData d.size := by
      simp [Broadcast.next, hD, hf.ready]
    have hlock : (s.br.next (s.inputs l)).hostGntArb.locked =
        !s.br.hostGnt.last p.burst d.opcode.hasData d.size := by
      simp only [Broadcast.next, hD]
      exact hf.next_locked _
    have hsel : (s.br.next (s.inputs l)).hostGntArb.selected = some k := by
      simp only [Broadcast.next]
      exact hf.next_selected _
    by_cases hk : k = 2
    · subst hk
      have hdev : Broadcast.hostGntDevice (s.inputs l) = some d := hf.msgs
      rcases deviceD_cases s l with hnone | ⟨r, rest, hrq, hsome⟩
      · simp [Broadcast.hostGntDevice, hnone] at hdev
      · obtain ⟨hlen, hrdy⟩ := len_hostGntDevice hc hrq hsome hdev
        have hfire : s.br.deviceDReady (s.inputs l) = true := by rw [hrdy, hready]; rfl
        have hlen' : Burst.len p.burst d.opcode.hasData d.size =
            headLen (DResp.len p) s.env.rQ := by
          rw [hlen, hrq]
          rfl
        have hcount : s.br.hostGnt.Counts p.burst (Burst.len p.burst d.opcode.hasData d.size)
            s.env.rIdx := by
          rw [hlen']
          exact hl.hostGnt
        refine ⟨counts_moved hl.hostGnt hmoved ?_ fun _ => ⟨_, _, hgnt, hlen'⟩, ?_, fun _ => hsel⟩
        · intro hx
          rw [hfire] at hx
          cases hx
        · rw [hfire] at hmoved
          rw [hlock, hcount.last_eq, hmoved.idx_pos, hlen']
          simp
    · -- a single beat of another origin
      have hz : s.env.rIdx = 0 := hl.rIdx_of_ready hk (by rw [hready]; exact decide_eq_true rfl)
      have hr2 : s.br.hostGntReady (s.inputs l) 2 = false := by
        rw [hready]
        exact decide_eq_false hk
      have hlen : Burst.len p.burst d.opcode.hasData d.size = 0 := by
        have hd := hf.msgs
        have hother : k = 0 ∨ k = 1 := by omega
        rcases hother with rfl | rfl
        · have hd' : Broadcast.hostGntRel (s.inputs l) = some d := hd
          rcases hostC_cases s l with hnone | ⟨m, rest, hcq, hsome⟩
          · simp [Broadcast.hostGntRel, hnone] at hd'
          · simp only [Broadcast.hostGntRel, hsome, Option.bind_some] at hd'
            split_ifs at hd'
            obtain rfl := Option.some.inj hd'
            rfl
        · have hd' : s.br.hostGntGrant (s.inputs l) = some d := hd
          rcases hostA_cases s l with hnone | ⟨m, rest, haq, hsome⟩
          · simp [Broadcast.hostGntGrant, hnone] at hd'
          · simp only [Broadcast.hostGntGrant, hsome, Option.bind_some] at hd'
            split_ifs at hd'
            obtain rfl := Option.some.inj hd'
            rfl
      have hcount : s.br.hostGnt.Counts p.burst (Burst.len p.burst d.opcode.hasData d.size)
          (Burst.len p.burst d.opcode.hasData d.size) := by
        rw [hlen]
        have := hl.hostGnt
        rw [hz] at this
        exact this.of_zero _
      have hz' : (s.cycle amo l).env.rIdx = 0 := by
        rw [(hmoved.idx_of_len_zero hle (rLen_of_drop (by simp [hr2]))).1, hz]
      refine ⟨?_, ?_, fun hpos => by omega⟩
      · rw [hgnt, hz']
        exact hcount.next_last _
      · rw [hlock, hcount.last_eq, hz']
        simp
  · have hkeep : ∀ last, s.br.hostGntArb.next (s.br.hostGntMult (s.inputs l))
        (s.inputs l).hostDReady last = _ := fun last => rfl
    have hgnt : (s.br.next (s.inputs l)).hostGnt = s.br.hostGnt := by
      have hidle' : ((s.br.hostD (s.inputs l)).isSome && (s.inputs l).hostDReady) = false := hidle
      simp only [Broadcast.next]
      cases hD : s.br.hostD (s.inputs l) with
      | none => rfl
      | some d =>
          rw [hD] at hidle'
          have hr : (s.inputs l).hostDReady = false := hidle'
          simp [hr]
    have hdrop : s.br.hostGntReady (s.inputs l) 2 = true →
        Broadcast.hostGntDevice (s.inputs l) = none := fun hr =>
      ChannelArb.msgs_of_idle hidle hr
    obtain ⟨hi, hn⟩ := hmoved.idx_of_len_zero hle (rLen_of_drop hdrop)
    have hnext := ChannelArb.next_idle hidle
    refine ⟨?_, ?_, ?_⟩
    · rw [hgnt, hi]
      exact hl.hostGnt.of_head hn
    · rw [hi]
      exact (Bool.eq_iff_iff.mp (hnext _).1).trans hl.gntLocked
    · rw [hi]
      exact fun hpos => (hnext _).2.trans (hl.gntSel hpos)

/-- A beat of channel A that is not sent to the device is an acquire of permission. -/
theorem aLen_of_grant (hc : Coherent s.br.fsm s.env)
    (h1 : s.br.deviceReqReady (s.inputs l) 1 = true → s.br.deviceReqReq (s.inputs l) = none)
    (hf : s.aFire l = true) : s.env.aLen = 0 := by
  rcases hostA_cases s l with hnone | ⟨m, rest, haq, hsome⟩
  · simp [aFire, hnone] at hf
  · have hr : s.br.hostAReady (s.inputs l) = true := by simpa [aFire, hsome] using hf
    cases hst : s.br.fsm.stateQ with
    | idle | inv | wait => simp [Broadcast.hostAReady, hst] at hr
    | req =>
        have hr1 : s.br.deviceReqReady (s.inputs l) 1 = true := by
          simpa [Broadcast.hostAReady, hst] using hr
        have hnone := h1 hr1
        simp [Broadcast.deviceReqReq, hst, hsome] at hnone
    | grant =>
        have hop : m.opcode = .acquirePerm :=
          (hc.holds (Or.inr (Or.inr hst)) haq).1 ▸ hc.control.grantOp hst
        rw [aLen_cons haq]
        simp [AReq.len, Burst.len, hop, AOp.hasData]

/-- A beat of channel C that is not sent to the device is a message without data. -/
theorem cLen_of_noData
    (h0 : s.br.deviceReqReady (s.inputs l) 0 = true → s.br.deviceReqRel (s.inputs l) = none)
    (hr : s.br.hostCReady (s.inputs l) = true) : s.env.cLen = 0 := by
  rcases hostC_cases s l with hnone | ⟨m, rest, hcq, hsome⟩
  · simp [Broadcast.hostCReady, hnone] at hr
  · rw [cLen_cons hcq]
    have hop : (m.beat s.env.cIdx).opcode = m.opcode := rfl
    cases hm : m.opcode with
    | probeAck | release => simp [CReq.len, Burst.len, hm, COp.hasData]
    | probeAckData | releaseData =>
        have hr0 : s.br.deviceReqReady (s.inputs l) 0 = true := by
          simpa [Broadcast.hostCReady, hsome, hop, hm] using hr
        have hnone := h0 hr0
        simp [Broadcast.deviceReqRel, hsome, hop, hm] at hnone

/-- What data of channel C looks like on its way to the device. -/
theorem deviceReqRel_cases {a : AMsg} (h : s.br.deviceReqRel (s.inputs l) = some a) :
    ∃ m rest, s.env.cQ = m :: rest ∧ Burst.len p.burst a.opcode.hasData a.size = m.len p ∧
      s.br.hostCReady (s.inputs l) = s.br.deviceReqReady (s.inputs l) 0 := by
  rcases hostC_cases s l with hnone | ⟨m, rest, hcq, hsome⟩
  · simp [Broadcast.deviceReqRel, hnone] at h
  · refine ⟨m, rest, hcq, ?_⟩
    have hop : (m.beat s.env.cIdx).opcode = m.opcode := rfl
    cases hm : m.opcode with
    | probeAck | release => simp [Broadcast.deviceReqRel, hsome, hop, hm] at h
    | probeAckData | releaseData =>
        simp only [Broadcast.deviceReqRel, hsome, Option.bind_some, hop, hm,
          Option.some.injEq] at h
        refine ⟨?_, by simp [Broadcast.hostCReady, hsome, hop, hm]⟩
        rw [← h, CReq.len, hm]
        rfl

/-- The request links after a cycle. -/
structure ReqLinks (b : Broadcast p) (e : BroadcastEnv p) : Prop where
  one : e.aIdx = 0 ∨ e.cIdx = 0
  countsA : e.cIdx = 0 → b.deviceReq.Counts p.burst e.aLen e.aIdx
  countsC : e.aIdx = 0 → b.deviceReq.Counts p.burst e.cLen e.cIdx
  locked : b.deviceReqArb.locked = true ↔ 0 < e.aIdx ∨ 0 < e.cIdx
  selA : 0 < e.aIdx → b.deviceReqArb.selected = some 1
  selC : 0 < e.cIdx → b.deviceReqArb.selected = some 0

/-- The counter and the arbiter after a request to the device from the port `k`. -/
theorem deviceReq_next {k : Fin 2} {a : AMsg}
    (hf : s.br.deviceReqArb.Fires (s.br.deviceReqMult (s.inputs l)) (s.inputs l).deviceAReady k a) :
    (s.br.next (s.inputs l)).deviceReq = s.br.deviceReq.next p.burst a.opcode.hasData a.size ∧
      (s.br.next (s.inputs l)).deviceReqArb.locked =
        !s.br.deviceReq.last p.burst a.opcode.hasData a.size ∧
      (s.br.next (s.inputs l)).deviceReqArb.selected = some k := by
  have hA : s.br.deviceA (s.inputs l) = some a := hf.msg_eq
  refine ⟨by simp [Broadcast.next, hA, hf.ready], ?_, ?_⟩
  · simp only [Broadcast.next, hA]
    exact hf.next_locked _
  · simp only [Broadcast.next]
    exact hf.next_selected _

/-- A beat of channel C goes to the device. -/
theorem deviceReq_links_rel (hl : Links s) (hc : Coherent s.br.fsm s.env) {a : AMsg}
    (hf : s.br.deviceReqArb.Fires (s.br.deviceReqMult (s.inputs l)) (s.inputs l).deviceAReady 0 a) :
    ReqLinks (s.br.next (s.inputs l)) (s.cycle amo l).env := by
  have hma := (cycle_links amo s l).a
  have hmc := (cycle_links amo s l).c
  have hready : ∀ k, s.br.deviceReqReady (s.inputs l) k = decide (0 = k) := hf.ready_eq
  obtain ⟨hreq, hlock, hsel⟩ := deviceReq_next hf
  obtain ⟨m, rest, hcq, hlen, hcr⟩ := deviceReqRel_cases (s := s) (l := l) hf.msgs
  have hfire : s.br.hostCReady (s.inputs l) = true := by rw [hcr, hready]; rfl
  have hz : s.env.aIdx = 0 := hl.aIdx_of_ready (by rw [hready]; rfl)
  have hz' : (s.cycle amo l).env.aIdx = 0 := by
    rw [(hma.idx_of_len_zero hl.hostReq.1 (aLen_of_grant hc (by simp [hready]))).1, hz]
  have hlen' : Burst.len p.burst a.opcode.hasData a.size = headLen (CReq.len p) s.env.cQ := by
    rw [hlen, hcq]
    rfl
  have hcount := hl.deviceReqC hz
  have hcounts : (s.br.next (s.inputs l)).deviceReq.Counts p.burst (s.cycle amo l).env.cLen
      (s.cycle amo l).env.cIdx :=
    counts_moved hcount hmc (fun hx => by rw [hfire] at hx; cases hx)
      fun _ => ⟨_, _, hreq, hlen'⟩
  refine ⟨Or.inl hz', ?_, fun _ => hcounts, ?_, fun hpos => by omega, fun _ => hsel⟩
  · intro hcz
    rw [hz']
    rw [hcz] at hcounts
    exact hcounts.of_zero _
  · rw [hfire] at hmc
    have hlast : s.br.deviceReq.last p.burst a.opcode.hasData a.size =
        decide (s.env.cIdx = Burst.len p.burst a.opcode.hasData a.size) := by
      apply Burst.Counts.last_eq
      rw [hlen']
      exact hcount
    rw [hlock, hlast, hmc.idx_pos, hz', hlen']
    simp

/-- A beat of channel A goes to the device. -/
theorem deviceReq_links_req (hl : Links s) (hc : Coherent s.br.fsm s.env) {a : AMsg}
    (hf : s.br.deviceReqArb.Fires (s.br.deviceReqMult (s.inputs l)) (s.inputs l).deviceAReady 1 a) :
    ReqLinks (s.br.next (s.inputs l)) (s.cycle amo l).env := by
  have hma := (cycle_links amo s l).a
  have hmc := (cycle_links amo s l).c
  have hready : ∀ k, s.br.deviceReqReady (s.inputs l) k = decide (1 = k) := hf.ready_eq
  have hlc : s.env.cIdx ≤ s.env.cLen := by
    rcases hl.one with h | h
    · exact (hl.deviceReqC h).1
    · omega
  obtain ⟨hreq, hlock, hsel⟩ := deviceReq_next hf
  have hst : s.br.fsm.stateQ = .req := by
    by_contra hne
    have := hf.msgs
    simp [Broadcast.deviceReqMult, Broadcast.deviceReqReq, hne] at this
  have hr1 : s.br.deviceReqReady (s.inputs l) 1 = true := by rw [hready]; rfl
  obtain ⟨m, rest, haq, hsome⟩ : ∃ m rest, s.env.aQ = m :: rest ∧
      (s.inputs l).hostA = some (m.beat s.env.aIdx) := by
    rcases hostA_cases s l with hnone | hx
    · have := hf.msgs
      simp [Broadcast.deviceReqMult, Broadcast.deviceReqReq, hnone] at this
    · exact hx
  have hfire : s.aFire l = true := by
    simp [aFire, hsome, Broadcast.hostAReady, hst, hr1]
  obtain ⟨a', ha', hsize, -, -, hop⟩ :=
    deviceFire_req hc ⟨rfl, rfl, rfl, rfl, rfl, rfl, rfl⟩ haq hsome hst hr1
  have haa : a' = a := by
    have : s.deviceFire l 1 = some a := by
      rw [deviceFire, if_pos hr1]
      exact hf.msgs
    exact Option.some.inj (ha'.symm.trans this)
  subst haa
  have hlen' : Burst.len p.burst a'.opcode.hasData a'.size =
      headLen (AReq.len p) s.env.aQ := by
    rw [len_deviceReq hsize hop, haq]
    rfl
  have hz : s.env.cIdx = 0 := hl.cIdx_of_ready hr1
  have hz' : (s.cycle amo l).env.cIdx = 0 := by
    rw [(hmc.idx_of_len_zero hlc (cLen_of_noData (by simp [hready]))).1, hz]
  have hcount := hl.deviceReqA hz
  have hcounts : (s.br.next (s.inputs l)).deviceReq.Counts p.burst (s.cycle amo l).env.aLen
      (s.cycle amo l).env.aIdx :=
    counts_moved hcount hma (fun hx => by rw [hfire] at hx; cases hx)
      fun _ => ⟨_, _, hreq, hlen'⟩
  refine ⟨Or.inr hz', fun _ => hcounts, ?_, ?_, fun _ => hsel, fun hpos => by omega⟩
  · intro haz
    rw [hz']
    rw [haz] at hcounts
    exact hcounts.of_zero _
  · rw [hfire] at hma
    have hlast : s.br.deviceReq.last p.burst a'.opcode.hasData a'.size =
        decide (s.env.aIdx = Burst.len p.burst a'.opcode.hasData a'.size) := by
      apply Burst.Counts.last_eq
      rw [hlen']
      exact hcount
    rw [hlock, hlast, hma.idx_pos, hz', hlen']
    simp

/-- Nothing goes to the device. -/
theorem deviceReq_links_idle (hl : Links s) (hc : Coherent s.br.fsm s.env)
    (hidle : ((s.br.deviceA (s.inputs l)).isSome && (s.inputs l).deviceAReady) = false) :
    ReqLinks (s.br.next (s.inputs l)) (s.cycle amo l).env := by
  have hlc : s.env.cIdx ≤ s.env.cLen := by
    rcases hl.one with h | h
    · exact (hl.deviceReqC h).1
    · omega
  have hreq : (s.br.next (s.inputs l)).deviceReq = s.br.deviceReq := by
    simp only [Broadcast.next]
    cases hA : s.br.deviceA (s.inputs l) with
    | none => rfl
    | some a =>
        rw [hA] at hidle
        have hr : (s.inputs l).deviceAReady = false := hidle
        simp [hr]
  obtain ⟨hai, han⟩ := (cycle_links amo s l).a.idx_of_len_zero hl.hostReq.1
    (aLen_of_grant hc fun hr => ChannelArb.msgs_of_idle hidle hr)
  obtain ⟨hci, hcn⟩ := (cycle_links amo s l).c.idx_of_len_zero hlc
    (cLen_of_noData fun hr => ChannelArb.msgs_of_idle hidle hr)
  have hnext := ChannelArb.next_idle hidle
  refine ⟨?_, ?_, ?_, ?_, ?_, ?_⟩
  · rw [hai, hci]
    exact hl.one
  · rw [hai, hci, hreq]
    exact fun hz => (hl.deviceReqA hz).of_head han
  · rw [hai, hci, hreq]
    exact fun hz => (hl.deviceReqC hz).of_head hcn
  · rw [hai, hci]
    exact (Bool.eq_iff_iff.mp (hnext _).1).trans hl.reqLocked
  · rw [hai]
    exact fun hpos => (hnext _).2.trans (hl.reqSelA hpos)
  · rw [hci]
    exact fun hpos => (hnext _).2.trans (hl.reqSelC hpos)

theorem deviceReq_links (hl : Links s) (hc : Coherent s.br.fsm s.env) :
    ReqLinks (s.br.next (s.inputs l)) (s.cycle amo l).env := by
  rcases s.br.deviceReqArb.fires_or_idle (s.br.deviceReqMult (s.inputs l))
    (s.inputs l).deviceAReady with ⟨k, a, hf⟩ | hidle
  · match k, hf with
    | 0, hf => exact deviceReq_links_rel amo hl hc hf
    | 1, hf => exact deviceReq_links_req amo hl hc hf
  · exact deviceReq_links_idle amo hl hc hidle

theorem cycle_keeps_links (hl : Links s) (hc : Coherent s.br.fsm s.env) :
    Links (s.cycle amo l) := by
  have hreq := deviceReq_links amo (l := l) hl hc
  obtain ⟨hcount, hlocked, hsel⟩ := hostGnt_links amo (l := l) hl hc
  exact
    { hostReq := hostReq_counts amo hl
      deviceGnt := deviceGnt_counts amo hl
      hostGnt := hcount
      one := hreq.one
      deviceReqA := hreq.countsA
      deviceReqC := hreq.countsC
      reqLocked := hreq.locked
      reqSelA := hreq.selA
      reqSelC := hreq.selC
      gntLocked := hlocked
      gntSel := hsel }

/-- Actions of hosts only queue messages. -/
theorem act_links (e : BroadcastEnv p) (a : HostAct p) :
    e.aQ <+: (e.act a).aQ ∧ (e.act a).aIdx = e.aIdx ∧ e.cQ <+: (e.act a).cQ ∧
      (e.act a).cIdx = e.cIdx ∧ (e.act a).rQ = e.rQ ∧ (e.act a).rIdx = e.rIdx := by
  have hrefl : e.aQ <+: e.aQ ∧ e.aIdx = e.aIdx ∧ e.cQ <+: e.cQ ∧ e.cIdx = e.cIdx ∧
      e.rQ = e.rQ ∧ e.rIdx = e.rIdx :=
    ⟨List.prefix_refl _, rfl, List.prefix_refl _, rfl, rfl, rfl⟩
  cases a with
  | acquire | uncached =>
      exact ⟨List.prefix_append _ _, rfl, List.prefix_refl _, rfl, rfl, rfl⟩
  | release => exact ⟨List.prefix_refl _, rfl, List.prefix_append _ _, rfl, rfl, rfl⟩
  | store | drop | takeResponse | grantAck => exact hrefl
  | answer i data source =>
      simp only [act]
      split
      · exact hrefl
      · exact ⟨List.prefix_refl _, rfl, List.prefix_append _ _, rfl, rfl, rfl⟩
  | take i source line new =>
      simp only [act]
      split
      · exact hrefl
      · split
        · exact hrefl
        · split <;> exact hrefl
  | takeRelAck i line =>
      simp only [act]
      split <;> exact hrefl

theorem act_keeps_links (hl : Links s) (a : HostAct p) : Links { s with env := s.env.act a } := by
  obtain ⟨haq, hai, hcq, hci, hrq, hri⟩ := act_links s.env a
  have hr : (s.env.act a).rLen = s.env.rLen := by rw [rLen, hrq, rLen]
  have hla : s.env.aIdx ≤ s.env.aLen := hl.hostReq.1
  have hlc : s.env.cIdx ≤ s.env.cLen := by
    rcases hl.one with h | h
    · exact (hl.deviceReqC h).1
    · omega
  have ha : 0 < s.env.aIdx → (s.env.act a).aLen = s.env.aLen := by
    exact (show Moved (AReq.len p) false _ _ _ _ from .stay haq).idx_of_len_zero hla
      (fun h => absurd h Bool.false_ne_true) |>.2
  have hc : 0 < s.env.cIdx → (s.env.act a).cLen = s.env.cLen := by
    exact (show Moved (CReq.len p) false _ _ _ _ from .stay hcq).idx_of_len_zero hlc
      (fun h => absurd h Bool.false_ne_true) |>.2
  exact
    { hostReq := by
        show s.br.hostReq.Counts p.burst (s.env.act a).aLen (s.env.act a).aIdx
        rw [hai]
        exact hl.hostReq.of_head ha
      deviceGnt := by
        show s.br.deviceGnt.Counts p.burst (s.env.act a).rLen (s.env.act a).rIdx
        rw [hr, hri]
        exact hl.deviceGnt
      hostGnt := by
        show s.br.hostGnt.Counts p.burst (s.env.act a).rLen (s.env.act a).rIdx
        rw [hr, hri]
        exact hl.hostGnt
      one := by
        show (s.env.act a).aIdx = 0 ∨ (s.env.act a).cIdx = 0
        rw [hai, hci]
        exact hl.one
      deviceReqA := by
        show (s.env.act a).cIdx = 0 →
          s.br.deviceReq.Counts p.burst (s.env.act a).aLen (s.env.act a).aIdx
        rw [hai, hci]
        exact fun hz => (hl.deviceReqA hz).of_head ha
      deviceReqC := by
        show (s.env.act a).aIdx = 0 →
          s.br.deviceReq.Counts p.burst (s.env.act a).cLen (s.env.act a).cIdx
        rw [hai, hci]
        exact fun hz => (hl.deviceReqC hz).of_head hc
      reqLocked := by
        show s.br.deviceReqArb.locked = true ↔ 0 < (s.env.act a).aIdx ∨ 0 < (s.env.act a).cIdx
        rw [hai, hci]
        exact hl.reqLocked
      reqSelA := by
        show 0 < (s.env.act a).aIdx → _
        rw [hai]
        exact hl.reqSelA
      reqSelC := by
        show 0 < (s.env.act a).cIdx → _
        rw [hci]
        exact hl.reqSelC
      gntLocked := by
        show s.br.hostGntArb.locked = true ↔ 0 < (s.env.act a).rIdx
        rw [hri]
        exact hl.gntLocked
      gntSel := by
        show 0 < (s.env.act a).rIdx → _
        rw [hri]
        exact hl.gntSel }

/-! ## The request machine -/

/-- After all transfers of a cycle, before the decision of the request machine. -/
def settled (s : BroadcastSys p) (l : LinkIn) : BroadcastFsm p :=
  { s.br.fsm with
    ackDoneQ := s.br.fsm.ackDoneQ || (s.inputs l).hostE
    probeAckPendingQ :=
      s.br.fsm.probeAckPendingQ - (Broadcast.probeAckComplete (s.inputs l)).toNat -
        (Broadcast.probeAckDataComplete (s.inputs l)).toNat
    stateQ := s.nextA l
    probePendingQ := s.br.probePendingRest (s.inputs l) }

theorem cycle_settled (hp : p.Ok) (hl : Links s) (h : Coherent s.br.fsm s.env) :
    Coherent (s.settled l) (s.cycle amo l).env := by
  have he := stageE_grows s l s.env
  obtain ⟨ca, cai, cri, cr⟩ := stageC_rest amo s l (s.stageE l s.env)
  obtain ⟨ac, aci, ari, ar⟩ := stageA_rest amo s l (s.stageC amo l (s.stageE l s.env))
  have hE := stageE_coherent (s := s) (l := l) h rfl
  have hC := stageC_coherent amo (l := l) hp hl hE he.cQ he.cIdx he.aIdx
  have hA := stageA_coherent amo (l := l) hp hl hC
    ⟨rfl, rfl, rfl, rfl, rfl, ca.trans he.aQ, cai.trans he.aIdx⟩
  obtain ⟨new, hnew⟩ := he.rQ.trans (cr.trans ar)
  have hR := stageR_coherent (l := l) hp hl hA hnew.symm (ari.trans (cri.trans he.rIdx))
  exact stageB_coherent (l := l) hp hR rfl rfl rfl

/-- Outside the probe phase no answers to probes arrive. -/
theorem no_complete (h : Coherent s.br.fsm s.env) (hs : s.br.fsm.stateQ ≠ .inv) :
    (Broadcast.probeAckComplete (s.inputs l)).toNat = 0 ∧
      (Broadcast.probeAckDataComplete (s.inputs l)).toNat = 0 := by
  obtain ⟨-, -, hcq, hrq⟩ := h.control.no_probe hs
  constructor
  · rcases hostC_cases s l with hnone | ⟨m, rest, hq, hsome⟩
    · simp [Broadcast.probeAckComplete, hnone]
    · have := hcq m (by rw [hq]; exact List.mem_cons_self)
      simp only [CReq.isProbeAck, Bool.or_eq_false_iff] at this
      simp [Broadcast.probeAckComplete, hsome, CReq.beat, this.1]
  · rcases deviceD_cases s l with hnone | ⟨r, rest, hq, hsome⟩
    · simp [Broadcast.probeAckDataComplete, hnone]
    · have := hrq r (by rw [hq]; exact List.mem_cons_self)
      have hd : Broadcast.isProbeAckData (r.beat s.env.rIdx) = false := this
      simp [Broadcast.probeAckDataComplete, hsome, hd]

/-- The counter of answers does not underflow. -/
theorem probeAckPendingD_eq (h : Coherent s.br.fsm s.env) (hs : s.br.fsm.stateQ = .inv) :
    s.br.probeAckPendingD (s.inputs l) =
      s.br.fsm.probeAckPendingQ - (Broadcast.probeAckComplete (s.inputs l)).toNat -
        (Broadcast.probeAckDataComplete (s.inputs l)).toNat := by
  have hx : (Broadcast.probeAckComplete (s.inputs l)).toNat ≤
      s.env.cQ.countP (·.isProbeAck) := by
    rcases hostC_cases s l with hnone | ⟨m, rest, hq, hsome⟩
    · simp [Broadcast.probeAckComplete, hnone]
    · rw [hq]
      by_cases hop : m.opcode = .probeAck
      · simp [Broadcast.probeAckComplete, hsome, CReq.beat, CReq.isProbeAck, hop]
      · have hne : (m.opcode == COp.probeAck) = false := by simp [hop]
        simp [Broadcast.probeAckComplete, hsome, CReq.beat, hne]
  have hy : (Broadcast.probeAckDataComplete (s.inputs l)).toNat ≤ s.env.rQ.countP (·.isDrop) := by
    rcases deviceD_cases s l with hnone | ⟨r, rest, hq, hsome⟩
    · simp [Broadcast.probeAckDataComplete, hnone]
    · have hd : Broadcast.isProbeAckData (r.beat s.env.rIdx) = r.isDrop := rfl
      rw [hq]
      cases hdrop : r.isDrop <;> simp [Broadcast.probeAckDataComplete, hsome, hd, hdrop]
  have hcount := h.control.count hs
  have hle := h.control.countLe
  have hpow : p.numCachedHosts < 2 ^ p.numCachedHosts := Nat.lt_two_pow_self
  rw [BroadcastFsm.outstanding] at hcount
  rw [Broadcast.probeAckPendingD]
  generalize (Broadcast.probeAckComplete (s.inputs l)).toNat = x at *
  generalize (Broadcast.probeAckDataComplete (s.inputs l)).toNat = y at *
  have hsplit : s.br.fsm.probeAckPendingQ + 2 * 2 ^ p.numCachedHosts - x - y =
      (s.br.fsm.probeAckPendingQ - x - y) + 2 ^ p.numCachedHosts * 2 := by omega
  rw [hsplit, Nat.add_mul_mod_self_left]
  exact Nat.mod_eq_of_lt (by omega)

/-- The request machine decides. -/
theorem nextFsm_coherent (hp : p.Ok) (h : Coherent s.br.fsm s.env) {e' : BroadcastEnv p}
    (h' : Coherent (s.settled l) e') (hq : s.br.fsm.stateQ = .idle → s.env.aQ <+: e'.aQ) :
    Coherent (s.br.nextFsm (s.inputs l)) e' := by
  cases hst : s.br.fsm.stateQ with
  | idle =>
      obtain ⟨hx, hy⟩ := no_complete (l := l) h (by simp [hst])
      have hset : s.settled l =
          { s.br.fsm with
            ackDoneQ := s.br.fsm.ackDoneQ || (s.inputs l).hostE
            probePendingQ := s.br.probePendingRest (s.inputs l) } := by
        simp [settled, hx, hy, nextA, hst]
      rcases hostA_cases s l with hnone | ⟨m, rest, haq, hsome⟩
      · have hnext := h'.grantDone (s.br.fsm.grantDoneQ || s.br.grantComplete (s.inputs l))
        rw [hset] at hnext
        simpa only [Broadcast.nextFsm, hst, hnone] using hnext
      · obtain ⟨t, ht⟩ := hq hst
        have haq' : e'.aQ = m :: (rest ++ t) := by rw [← ht, haq]; rfl
        have hst' : (s.settled l).stateQ = .idle := by rw [hset]; exact hst
        have hbeat : (m.beat s.env.aIdx).opcode = m.opcode ∧
            (m.beat s.env.aIdx).source = m.source ∧ (m.beat s.env.aIdx).address = m.address ∧
            (m.beat s.env.aIdx).param = m.param := ⟨rfl, rfl, rfl, rfl⟩
        simp only [Broadcast.nextFsm, hst, hsome, hbeat]
        cases hop : m.opcode with
        | acquireBlock | acquirePerm =>
            refine h'.start hp hst' haq' rfl ⟨hop.symm, rfl, rfl, ?_, ?_⟩ rfl
              (probeCount_mod p m.source) fun _ => rfl
            · simp [AReq.isAcquire, hop, acquireXact]
            · simp [AReq.isAcquire, hop]
        | get | putPartialData | putFullData | logicalData | arithmeticData | intent =>
            refine h'.start hp hst' haq' rfl ⟨hop.symm, rfl, rfl, ?_, ?_⟩ rfl
              (probeCount_mod p m.source) fun hx => absurd rfl hx
            · simp [AReq.isAcquire, hop]
            · simp [AReq.isAcquire, hop]
  | inv =>
      have hpend := probeAckPendingD_eq (l := l) h hst
      have hst' : (s.settled l).stateQ = .inv := by simp [settled, nextA, hst]
      have hnext := h'.grantDone (s.br.fsm.grantDoneQ || s.br.grantComplete (s.inputs l))
      by_cases hz : s.br.probeAckPendingD (s.inputs l) = 0
      · have hdone := hnext.invDone hst' (hpend.symm.trans hz)
        have heq : s.br.nextFsm (s.inputs l) =
            { s.settled l with
              grantDoneQ := s.br.fsm.grantDoneQ || s.br.grantComplete (s.inputs l)
              stateQ := if (s.settled l).opcodeQ = .acquirePerm then .grant else .req } := by
          simp only [Broadcast.nextFsm, hst, settled, ← hpend, hz, if_true]
        rw [heq]
        exact hdone
      · have heq : s.br.nextFsm (s.inputs l) =
            { s.settled l with
              grantDoneQ := s.br.fsm.grantDoneQ || s.br.grantComplete (s.inputs l) } := by
          simp only [Broadcast.nextFsm, hst, hz, if_false, settled, ← hpend]
          simp [nextA, hst]
        rw [heq]
        exact hnext
  | req =>
      obtain ⟨hx, hy⟩ := no_complete (l := l) h (by simp [hst])
      have hnext := h'.grantDone (s.br.fsm.grantDoneQ || s.br.grantComplete (s.inputs l))
      have heq : s.br.nextFsm (s.inputs l) =
          { s.settled l with
            grantDoneQ := s.br.fsm.grantDoneQ || s.br.grantComplete (s.inputs l) } := by
        simp only [Broadcast.nextFsm, hst, settled, hx, hy, Nat.sub_zero, nextA]
        cases (s.inputs l).hostA with
        | none => rfl
        | some a =>
            simp only
            split <;> rfl
      rw [heq]
      exact hnext
  | grant =>
      obtain ⟨hx, hy⟩ := no_complete (l := l) h (by simp [hst])
      have heq : ∃ b, s.br.nextFsm (s.inputs l) = { s.settled l with grantDoneQ := b } := by
        simp only [Broadcast.nextFsm, hst, settled, hx, hy, Nat.sub_zero, nextA]
        cases (s.inputs l).hostA with
        | none => exact ⟨_, rfl⟩
        | some a =>
            simp only
            split <;> exact ⟨_, rfl⟩
      obtain ⟨b, heq⟩ := heq
      rw [heq]
      exact h'.grantDone b
  | wait =>
      obtain ⟨hx, hy⟩ := no_complete (l := l) h (by simp [hst])
      have hst' : (s.settled l).stateQ = .wait := by simp [settled, nextA, hst]
      have hnext := h'.grantDone (s.br.fsm.grantDoneQ || s.br.grantComplete (s.inputs l))
      have heq : s.br.nextFsm (s.inputs l) =
          { s.settled l with
            grantDoneQ := s.br.fsm.grantDoneQ || s.br.grantComplete (s.inputs l)
            stateQ :=
              if (s.settled l).ackDoneQ &&
                  (s.br.fsm.grantDoneQ || s.br.grantComplete (s.inputs l)) then .idle
              else .wait } := by
        simp only [Broadcast.nextFsm, hst, settled, hx, hy, Nat.sub_zero]
      rw [heq]
      split
      · next hdone =>
        rw [Bool.and_eq_true] at hdone
        exact hnext.waitDone hst' hdone.1
      · rw [← hst']
        exact hnext

/-! ## Runs -/

/-- The invariant of the system. -/
def Inv (s : BroadcastSys p) : Prop := Coherent s.br.fsm s.env ∧ Links s

theorem ids_init (mem : p.Image) : Ids (BroadcastEnv.init mem) := by
  constructor <;> simp [BroadcastEnv.init]

theorem control_init (mem : p.Image) :
    Control (Broadcast.reset p).fsm (BroadcastEnv.init mem) := by
  constructor <;>
    simp [BroadcastEnv.init, Broadcast.reset, BroadcastFsm.outstanding, BroadcastFsm.Busy]

theorem perms_init (mem : p.Image) : Perms (Broadcast.reset p).fsm (BroadcastEnv.init mem) := by
  constructor <;> simp [BroadcastEnv.init, Broadcast.reset, BroadcastFsm.Busy, eff]

theorem data_init (mem : p.Image) : Data (Broadcast.reset p).fsm (BroadcastEnv.init mem) := by
  constructor <;> simp [BroadcastEnv.init, Broadcast.reset]

theorem links_init (mem : p.Image) : Links (init mem) where
  hostReq := Burst.counts_reset _ _
  deviceGnt := Burst.counts_reset _ _
  hostGnt := Burst.counts_reset _ _
  one := Or.inl rfl
  deviceReqA := fun _ => Burst.counts_reset _ _
  deviceReqC := fun _ => Burst.counts_reset _ _
  reqLocked := by simp [init, BroadcastEnv.init, Broadcast.reset, ChannelArb.reset]
  reqSelA := fun h => absurd h (Nat.lt_irrefl 0)
  reqSelC := fun h => absurd h (Nat.lt_irrefl 0)
  gntLocked := by simp [init, BroadcastEnv.init, Broadcast.reset, ChannelArb.reset]
  gntSel := fun h => absurd h (Nat.lt_irrefl 0)

theorem inv_init (mem : p.Image) : Inv (init mem) :=
  ⟨⟨ids_init mem, control_init mem, perms_init mem, data_init mem⟩, links_init mem⟩

theorem inv_step (hp : p.Ok) (h : Inv s) {i : LinkIn ⊕ HostAct p} (henv : s.Env i) :
    Inv (s.step amo i) := by
  obtain ⟨hc, hl⟩ := h
  cases i with
  | inl l =>
      refine ⟨nextFsm_coherent hp hc (cycle_settled amo hp hl hc) ?_, cycle_keeps_links amo hl hc⟩
      intro hst
      have hmoved := (cycle_links amo s l).a
      have hfire : s.aFire l = false := by simp [aFire, Broadcast.hostAReady, hst]
      rw [hfire] at hmoved
      exact hmoved.extends_of_stay
  | inr a => exact ⟨hc.act hp henv, act_keeps_links hl a⟩

/-- No host holds Trunk on a line that another host holds. -/
def SingleWriter (e : BroadcastEnv p) : Prop :=
  ∀ i j l, i ≠ j → e.perm i l = .t → e.perm j l = .n

/-- Every `GrantData` that a host has received and not yet taken carries what was
written last to its line; no other response with data goes to a caching host. -/
def GrantsLatest (e : BroadcastEnv p) : Prop :=
  ∀ i source d, reqSelected p source i = true → e.mail source = some d →
    (d.opcode = .grantData ∨ d.opcode = .grant) ∧
      (d.opcode = .grantData → ∀ l, e.srcLine source = some l →
        ∀ w < p.lineBeats, p.word (e.rx source w) = e.cur l w)

/-- Every `AccessAckData` that a client has received carries what was written last when
the memory performed its request. -/
def ResponsesLatest (e : BroadcastEnv p) : Prop :=
  ∀ source d, (∀ i, reqSelected p source i = false) → e.mail source = some d →
    d.opcode = .accessAckData →
    ∀ w ≤ Burst.len p.burst true d.size, p.word (e.rx source w) = e.served source w

/-- Before a request is sent to the device, the data that hosts returned has been
written. -/
def ReturnsFirst (s : BroadcastSys p) : Prop :=
  s.br.fsm.stateQ = .req → ∀ w, s.env.mem s.br.fsm.line w = s.env.cur s.br.fsm.line w

/-- In every run hosts are coherent and every response carries the latest data. -/
theorem coherent_of_run (hp : p.Ok) (mem : p.Image) (inp : ℕ → LinkIn ⊕ HostAct p) (n : ℕ)
    (henv : ∀ k < n, (run (step amo) (init mem) inp k).Env (inp k)) :
    SingleWriter (run (step amo) (init mem) inp n).env ∧
      GrantsLatest (run (step amo) (init mem) inp n).env ∧
      ResponsesLatest (run (step amo) (init mem) inp n).env ∧
      ReturnsFirst (run (step amo) (init mem) inp n) := by
  obtain ⟨h, -⟩ := run_invariant Inv Env (inv_init mem) (fun s i hs hi => inv_step amo hp hs hi) n
    henv
  refine ⟨?_, ?_, ?_, ?_⟩
  · intro i j l hij ht
    exact perm_of_eff (h.perms.single hij (h.perms.eff_of_trunk ht).2)
  · intro i source d hi hd
    obtain ⟨l, t, -, -, -, -, hop⟩ := h.ids.mailAcq hd i hi
    refine ⟨hop.imp_right And.left, ?_⟩
    intro hgd l hl w hw
    exact h.data.mailData source d i hd hi hgd l hl w hw
  · intro source d hi hd hop w hw
    exact h.data.mailServed source d hd hi hop w hw
  · intro hst w
    exact h.mem_eq_cur hp (Or.inl hst) w

/-! ## A shared line -/

instance decidableConforms (e : BroadcastEnv p) (a : HostAct p) : Decidable (e.Conforms a) :=
  match a with
  | .acquire .. | .uncached .. | .release .. | .answer .. | .store .. | .drop .. | .take ..
  | .takeRelAck .. | .takeResponse .. | .grantAck => by dsimp only [Conforms]; infer_instance

instance decidableEnv (s : BroadcastSys p) (i : LinkIn ⊕ HostAct p) : Decidable (s.Env i) :=
  match i with
  | .inl _ => inferInstanceAs (Decidable True)
  | .inr a => inferInstanceAs (Decidable (s.env.Conforms a))

/-- Two hosts with one source each; lines of one byte. -/
abbrev pair : BroadcastParams where
  numCachedHosts := 2
  sourceBase := fun i => i
  sourceMask := fun _ => 0
  burst := ⟨0, 0⟩

theorem pair_ok : pair.Ok where
  disjoint := by
    intro source i j hi hj
    simp only [reqSelected, beq_iff_eq] at hi hj
    exact Fin.ext (hi.symm.trans hj)
  base := by with_unfolding_all decide
  width := Nat.le_refl 0

/-- Host 0 writes 7 to a line that host 1 then asks for. -/
def sharedLine (k : ℕ) : LinkIn ⊕ HostAct pair :=
  match k with
  | 0 => .inr (.acquire 0 false 0 NtoT 0)
  | 3 => .inr (.answer 1 false 1)
  | 7 => .inr (.take 0 0 0 fun _ _ => 0)
  | 8 => .inr .grantAck
  | 9 => .inr (.store 0 0 fun _ _ => 7)
  | 11 => .inr (.acquire 1 false 1 NtoB 0)
  | 14 => .inr (.answer 0 true 0)
  | _ => .inl ⟨true, true, true, true, true, true, true⟩

/-- The system after `n` steps of `sharedLine`, with a memory that holds 0. -/
def sharedLineAt (n : ℕ) : BroadcastSys pair :=
  run (step fun _ _ _ x => x) (init fun _ _ _ => 0) sharedLine n

theorem coherent_of_run_sharedLine :
    (∀ k < 19, (sharedLineAt k).Env (sharedLine k)) ∧
      ((sharedLineAt 19).env.mail 1).map (·.opcode) = some .grantData ∧
      pair.word ((sharedLineAt 19).env.rx 1 0) = fun _ => 7 := by
  have henv : ∀ k < 19, (sharedLineAt k).Env (sharedLine k) := by with_unfolding_all decide
  have hmail : ((sharedLineAt 19).env.mail 1).map (·.opcode) = some .grantData := by
    with_unfolding_all decide
  have hcur : (sharedLineAt 19).env.cur 0 0 = fun _ => 7 := by with_unfolding_all decide
  obtain ⟨d, hd, hop⟩ := Option.map_eq_some_iff.mp hmail
  have hlatest :=
    (coherent_of_run (fun _ _ _ x => x) pair_ok (fun _ _ _ => 0) sharedLine 19 henv).2.1
  refine ⟨henv, hmail, ?_⟩
  have hword := (hlatest 1 1 d (by with_unfolding_all decide) hd).2 hop 0 (by decide +kernel) 0
    (by decide)
  exact hword.trans hcur

end BroadcastSys

end Muntjac.Tl

import Muntjac.Tl.BroadcastProtocol

/-!
# The broadcasting manager: actions of the hosts

Every action that `BroadcastEnv.Conforms` allows preserves the invariant, whatever the
manager is doing at the time.
-/

namespace Muntjac.Tl

open Sync (unpack pack unpack_pack cat cat_mod cat_div)
open BroadcastEnv

variable {p : BroadcastParams} {f : BroadcastFsm p} {e : BroadcastEnv p}
  {i : Fin p.numCachedHosts} {source line : ℕ}

theorem lineOf_mul (p : BroadcastParams) (line : ℕ) :
    p.lineOf (line * 2 ^ p.burst.maxSize) = line := by
  rw [BroadcastParams.lineOf, Nat.mul_div_cancel _ (Nat.two_pow_pos _)]

theorem beatOf_mul (p : BroadcastParams) (line : ℕ) :
    p.beatOf (line * 2 ^ p.burst.maxSize) = 0 := by
  simp [BroadcastParams.beatOf]

/-! ## Requests -/

section Requests

/-- Nothing under way uses the source. -/
structure Unused (e : BroadcastEnv p) (source : ℕ) : Prop where
  acq : ∀ {i l t}, e.acq i l = some t → t.source ≠ source
  aQ : ∀ m ∈ e.aQ, m.source ≠ source
  rQ : ∀ r ∈ e.rQ, r.answersA = true → r.source / 4 ≠ source
  mail : e.mail source = none

theorem Ids.unused (h : Ids e) (hs : e.srcLine source = none) : Unused e source where
  acq := by
    rintro i l t ht rfl
    have := (h.acqSrc ht).2
    rw [hs] at this
    cases this
  aQ := by
    rintro m hm rfl
    have := (h.aSrc m hm).1
    rw [hs] at this
    cases this
  rQ := by
    rintro r hr ha rfl
    rcases DResp.answersA_cases ha with hg | h3
    · obtain ⟨-, -, i, l, t, ht, hts, -, -⟩ := h.rAcq r hr hg
      have := (h.acqSrc ht).2
      rw [hts, hs] at this
      cases this
    · have := (h.rUnc r hr h3).2
      rw [hs] at this
      cases this
  mail := by
    rcases hm : e.mail source with _ | d
    · rfl
    · have := h.mailSrc hm
      rw [hs] at this
      cases this

/-- The line that an unused source stands for can be chosen freely. -/
theorem Coherent.setSrcLine (h : Coherent f e) (hu : Unused e source) (o : Option ℕ) :
    Coherent f { e with srcLine := Function.update e.srcLine source o } := by
  have hmail : ∀ {s d}, e.mail s = some d → s ≠ source := by
    rintro s d hd rfl
    rw [hu.mail] at hd
    cases hd
  have hof : ∀ s, s ≠ source → Function.update e.srcLine source o s = e.srcLine s :=
    fun s hs => Function.update_of_ne hs o e.srcLine
  have h3A : ∀ {r : DResp}, r.source % 4 = 3 → r.answersA = true := by
    intro r h3
    simp [DResp.answersA, DResp.isDrop, Broadcast.isProbeAckData, DResp.beat, h3,
      xactProbeAckData]
  exact
    { ids :=
        { h.ids with
          acqSrc := by
            intro i l t ht
            refine ⟨(h.ids.acqSrc ht).1, ?_⟩
            show Function.update e.srcLine source o t.source = some l
            rw [hof _ (hu.acq ht)]
            exact (h.ids.acqSrc ht).2
          aSrc := by
            intro m hm
            refine ⟨?_, (h.ids.aSrc m hm).2⟩
            show Function.update e.srcLine source o m.source = _
            rw [hof _ (hu.aQ m hm)]
            exact (h.ids.aSrc m hm).1
          rUnc := by
            intro r hr h3
            refine ⟨(h.ids.rUnc r hr h3).1, ?_⟩
            show (Function.update e.srcLine source o (r.source / 4)).isSome = true
            rw [hof _ (hu.rQ r hr (h3A h3))]
            exact (h.ids.rUnc r hr h3).2
          mailSrc := by
            intro s d hd
            show (Function.update e.srcLine source o s).isSome = true
            rw [hof _ (hmail hd)]
            exact h.ids.mailSrc hd }
      control := { h.control with }
      perms := { h.perms with }
      data :=
        { h.data with
          rData := by
            intro r hr hg l hl
            refine h.data.rData r hr hg l ?_
            rwa [← hof _ (hu.rQ r hr (DResp.answersA_of_isGrant hg))]
          mailData := by
            intro s d j hd hj hgd l hl
            refine h.data.mailData s d j hd hj hgd l ?_
            rwa [← hof _ (hmail hd)] } }

/-- A host records that it asks for a line. -/
theorem Coherent.issueAcq (h : Coherent f e) (hu : Unused e source)
    (hsel : reqSelected p source i = true) (hsrc : e.srcLine source = some line)
    (hnone : e.acq i line = none) (hrel : e.rel i line = none) {param : ℕ}
    (hlow : e.perm i line = .n ∨ e.perm i line = .b ∧ param = BtoT) :
    Coherent f { e with acq := setAt e.acq i line (some ⟨source, param, .queued⟩) } := by
  have hne : ∀ {i' l' t}, e.acq i' l' = some t → ¬(i' = i ∧ l' = line) := by
    rintro i' l' t ht ⟨rfl, rfl⟩
    rw [hnone] at ht
    cases ht
  have hkeep : ∀ {i' l' t}, e.acq i' l' = some t →
      setAt e.acq i line (some ⟨source, param, .queued⟩) i' l' = some t := by
    intro i' l' t ht
    simpa [setAt, hne ht] using ht
  have heff : ∀ j l', { e with
      acq := setAt e.acq i line (some ⟨source, param, .queued⟩) }.eff j l' = e.eff j l' := by
    intro j l'
    by_cases hc : j = i ∧ l' = line
    · rw [hc.1, hc.2, eff_none hnone, eff_queued (t := ⟨source, param, .queued⟩)
        (setAt_self _ _) rfl]
    · simp only [eff, setAt, hc, if_false]
  have hold : ∀ {r}, r ∈ e.rQ → r.isGrant = true → ∀ {i' l' t'},
      setAt e.acq i line (some ⟨source, param, .queued⟩) i' l' = some t' →
      t'.source = r.source / 4 → e.acq i' l' = some t' := by
    intro r hr hg i' l' t' ht' hs'
    rcases setAt_eq_some ht' with ⟨-, -, rfl⟩ | ⟨-, ht''⟩
    · exact absurd hs'.symm (hu.rQ r hr (DResp.answersA_of_isGrant hg))
    · exact ht''
  exact
    { ids :=
        { h.ids with
          acqSrc := by
            intro i' l' t' ht'
            rcases setAt_eq_some ht' with ⟨rfl, rfl, rfl⟩ | ⟨-, ht''⟩
            · exact ⟨hsel, hsrc⟩
            · exact h.ids.acqSrc ht''
          aAcq := by
            intro m hm hacq
            obtain ⟨h1, h2, h3, j, hj, ht⟩ := h.ids.aAcq m hm hacq
            exact ⟨h1, h2, h3, j, hj, hkeep ht⟩
          rAcq := by
            intro r hr hg
            obtain ⟨h1, h2, j, l, t, ht, hrest⟩ := h.ids.rAcq r hr hg
            exact ⟨h1, h2, j, l, t, hkeep ht, hrest⟩
          mailAcq := by
            intro s d hd j hj
            obtain ⟨l, t, ht, hrest⟩ := h.ids.mailAcq hd j hj
            exact ⟨l, t, hkeep ht, hrest⟩ }
      control :=
        { h.control with
          granting := by
            intro i' l' t' ht' hg
            rcases setAt_eq_some ht' with ⟨-, -, rfl⟩ | ⟨-, ht''⟩
            · cases hg
            · exact h.control.granting ht'' hg
          rStarted := by
            intro hpos r rest hq hg i' l' t' ht' hs'
            have hq' : e.rQ = r :: rest := hq
            have hr : r ∈ e.rQ := by rw [hq']; exact List.mem_cons_self
            exact h.control.rStarted hpos r rest hq hg i' l' t' (hold hr hg ht' hs') hs'
          rGranting := by
            intro r rest hs hg hne' i' l' t' ht' hs'
            exact h.control.rGranting r rest hs hg hne' i' l' t'
              (hold (hs.mem List.mem_cons_self) hg ht' hs') hs' }
      perms :=
        { h.perms with
          acqRel := by
            intro i' l' t' ht'
            rcases setAt_eq_some ht' with ⟨rfl, rfl, -⟩ | ⟨-, ht''⟩
            · exact hrel
            · exact h.perms.acqRel ht''
          acqLow := by
            intro i' l' t' ht'
            rcases setAt_eq_some ht' with ⟨rfl, rfl, rfl⟩ | ⟨-, ht''⟩
            · exact hlow
            · exact h.perms.acqLow ht''
          single := by
            intro i' j' l' hij hT
            exact (heff j' l').trans (h.perms.single hij ((heff i' l').symm.trans hT))
          capped := by
            intro hb j hj
            rcases h.perms.capped hb j hj with hx | hx | ⟨hle, hf⟩
            · exact Or.inl hx
            · exact Or.inr (Or.inl hx)
            · exact Or.inr (Or.inr ⟨by rw [heff]; exact hle, hf⟩)
          dataLow := fun m hm hd j hT =>
            h.perms.dataLow m hm hd j ((heff j _).symm.trans hT) }
      data := { h.data with } }

/-- A request joins channel A. -/
theorem Coherent.appendA (h : Coherent f e) {m : AReq}
    (hsrc : e.srcLine m.source = some (p.lineOf m.address))
    (haq : ∀ m' ∈ e.aQ, m'.source ≠ m.source)
    (hrq : ∀ r ∈ e.rQ, r.answersA = true → r.source / 4 ≠ m.source)
    (hmail : e.mail m.source = none)
    (hacq : m.isAcquire = true → m.size = p.burst.maxSize ∧ p.beatOf m.address = 0 ∧
      (m.opcode = .acquirePerm → m.param ≠ NtoB) ∧
      ∃ i, reqSelected p m.source i = true ∧
        e.acq i (p.lineOf m.address) = some ⟨m.source, m.param, .queued⟩)
    (hunc : m.isAcquire = false → ∀ i, reqSelected p m.source i = false) :
    Coherent f { e with aQ := e.aQ ++ [m] } where
  ids :=
    { h.ids with
      aSrc := forall_mem_append h.ids.aSrc ⟨hsrc, hmail⟩
      aAcq := forall_mem_append h.ids.aAcq hacq
      aUnc := forall_mem_append h.ids.aUnc hunc
      aResp := forall_mem_append h.ids.aResp hrq
      aNodup := by
        show ((e.aQ ++ [m]).map (·.source)).Nodup
        rw [List.map_append, List.nodup_append]
        refine ⟨h.ids.aNodup, by simp, ?_⟩
        intro a ha b hb
        obtain ⟨m', hm', rfl⟩ := List.mem_map.mp ha
        have hb' : b = m.source := by simpa using hb
        rw [hb']
        exact haq m' hm' }
  control :=
    { h.control with
      head := by
        intro hb
        obtain ⟨m', rest, hq, hm'⟩ := h.control.head hb
        exact ⟨m', rest ++ [m], by rw [hq]; rfl, hm'⟩ }
  perms := { h.perms with }
  data := { h.data with }

/-- A host asks for a line. -/
theorem Coherent.act_acquire (h : Coherent f e) {perm : Bool} {param : ℕ}
    (hc : e.Conforms (.acquire i perm source param line)) :
    Coherent f (e.act (.acquire i perm source param line)) := by
  obtain ⟨hsel, hsrc, hacq, hrel, hperm⟩ := hc
  have hu := h.ids.unused hsrc
  have h1 := h.setSrcLine hu (some line)
  have hlow : e.perm i line = .n ∨ e.perm i line = .b ∧ param = BtoT := by
    rcases hperm with ⟨hn, -⟩ | hb
    · exact Or.inl hn
    · exact Or.inr hb
  have h2 := h1.issueAcq (Unused.mk hu.acq hu.aQ hu.rQ hu.mail) hsel
    (Function.update_self source (some line) e.srcLine) hacq hrel hlow
  refine h2.appendA ?_ hu.aQ hu.rQ hu.mail ?_ ?_
  · show Function.update e.srcLine source (some line) source = _
    rw [Function.update_self, lineOf_mul]
  · intro _
    refine ⟨rfl, beatOf_mul p line, ?_, i, hsel, ?_⟩
    · rintro hop rfl
      cases perm with
      | false => cases hop
      | true =>
          rcases hperm with ⟨-, ⟨-, hf⟩ | hn⟩ | ⟨-, hb⟩
          · cases hf
          · cases hn
          · cases hb
    · rw [lineOf_mul]
      exact setAt_self _ _
  · intro hf
    cases perm <;> cases hf

/-- An uncached request. -/
theorem Coherent.act_uncached (h : Coherent f e) {m : AReq} (hc : e.Conforms (.uncached m)) :
    Coherent f (e.act (.uncached m)) := by
  obtain ⟨hsel, hsrc, hacq, -⟩ := hc
  have hu := h.ids.unused hsrc
  refine (h.setSrcLine hu (some (p.lineOf m.address))).appendA ?_ hu.aQ hu.rQ hu.mail ?_
    (fun _ => hsel)
  · exact Function.update_self _ _ _
  · intro ht
    rw [hacq] at ht
    cases ht

end Requests

/-! ## Giving up permissions -/

section GiveUp

theorem Perm.le_cases {x y : Perm} (h : x ≤ y) : y = .n → x = .n := by
  revert h
  cases x <;> cases y <;> decide

/-- A host gives up permissions on a line. -/
def giveUp (e : BroadcastEnv p) (i : Fin p.numCachedHosts) (line : ℕ) (x : Perm) :
    BroadcastEnv p :=
  { e with perm := setAt e.perm i line x, dirty := setAt e.dirty i line false }

theorem eff_giveUp (x : Perm) (j : Fin p.numCachedHosts) (l : ℕ) :
    (giveUp e i line x).eff j l = e.eff j l ∨
      j = i ∧ l = line ∧ (giveUp e i line x).eff j l = x ∧ e.eff j l = e.perm i line := by
  by_cases hc : j = i ∧ l = line
  · obtain ⟨rfl, rfl⟩ := hc
    rcases ha : e.acq j l with _ | t
    · exact Or.inr ⟨rfl, rfl, by simp [eff, giveUp, setAt, ha], eff_none ha⟩
    · by_cases hq : t.phase = .queued
      · exact Or.inr ⟨rfl, rfl, by simp [eff, giveUp, setAt, ha, hq], eff_queued ha hq⟩
      · exact Or.inl (by simp [eff, giveUp, ha, hq])
  · exact Or.inl (by simp [eff, giveUp, setAt, hc])

theorem Perms.giveUp (h : Perms f e) {x : Perm} (hx : x ≤ e.perm i line) (hxt : x ≠ .t)
    (hacq : ∀ t, e.acq i line = some t → x = .n ∨ x = .b ∧ t.param = BtoT) :
    Perms f (giveUp e i line x) := by
  have heff : ∀ j l, (Tl.giveUp e i line x).eff j l = e.eff j l ∨
      j = i ∧ l = line ∧ (Tl.giveUp e i line x).eff j l = x ∧ e.eff j l = e.perm i line :=
    eff_giveUp x
  have hne : ∀ {j l}, (Tl.giveUp e i line x).eff j l = .t → e.eff j l = .t := by
    intro j l hT
    rcases heff j l with heq | ⟨-, -, hxx, -⟩
    · exact heq.symm.trans hT
    · exact absurd (hxx.symm.trans hT) hxt
  exact
    { h with
      acqLow := by
        intro i' l' t ht
        show setAt e.perm i line x i' l' = _ ∨ setAt e.perm i line x i' l' = _ ∧ _
        by_cases hc : i' = i ∧ l' = line
        · obtain ⟨rfl, rfl⟩ := hc
          rw [setAt_self]
          exact hacq t ht
        · rw [setAt, if_neg hc]
          exact h.acqLow ht
      dirty := by
        intro i' l' hd
        have hd' : setAt e.dirty i line false i' l' = true := hd
        show setAt e.perm i line x i' l' = .t
        by_cases hc : i' = i ∧ l' = line
        · rw [setAt, if_pos hc] at hd'
          cases hd'
        · rw [setAt, if_neg hc] at hd' ⊢
          exact h.dirty hd'
      single := by
        intro i' j' l' hij hT
        have hold := h.single hij (hne hT)
        rcases heff j' l' with heq | ⟨-, -, hxx, hpp⟩
        · exact heq.trans hold
        · rw [hxx]
          exact Perm.le_cases hx (hpp.symm.trans hold)
      capped := by
        intro hb j hj
        rcases h.capped hb j hj with hc | hc | ⟨hle, hf⟩
        · exact Or.inl hc
        · exact Or.inr (Or.inl hc)
        · refine Or.inr (Or.inr ⟨?_, hf⟩)
          rcases heff j f.line with heq | ⟨-, -, hxx, hpp⟩
          · rw [heq]
            exact hle
          · rw [hxx]
            rw [hpp] at hle
            exact Nat.le_trans hx hle
      dataLow := fun m hm hd j hT => h.dataLow m hm hd j (hne hT) }

/-- A host that has given up Trunk leaves nobody with Trunk. -/
theorem Perms.no_trunk_giveUp (h : Perms f e) {x : Perm} (hxt : x ≠ .t) (ht : e.perm i line = .t)
    (j : Fin p.numCachedHosts) : (Tl.giveUp e i line x).eff j line ≠ .t := by
  obtain ⟨hnone, heff⟩ := h.eff_of_trunk ht
  by_cases hji : j = i
  · subst hji
    have : (Tl.giveUp e j line x).eff j line = x := by simp [eff, Tl.giveUp, setAt, hnone]
    rwa [this]
  · have : (Tl.giveUp e i line x).eff j line = e.eff j line := by
      simp [eff, Tl.giveUp, setAt, hji]
    rw [this, h.single (Ne.symm hji) heff]
    simp

/-- A message that joins channel C carries the latest data, if any. -/
theorem Data.writeBack (h : Data f e) (hctl : Control f e) {x : Perm} (hx : x ≤ e.perm i line)
    {m : CReq} (hd : e.dirty i line = true → m.opcode.hasData = true)
    (hm : m.opcode.hasData = true → e.perm i line ≠ .n) (hl : p.lineOf m.address = line)
    (hdata : m.data = e.lineData i line) :
    Data f { giveUp e i line x with cQ := e.cQ ++ [m] } :=
  { h with
    mem := by
      intro l
      rcases h.mem l with hx | ⟨j, hj⟩ | ⟨m', hm', hd', hl'⟩
      · exact Or.inl hx
      · by_cases hc : j = i ∧ l = line
        · refine Or.inr (Or.inr ⟨m, by simp, hd ?_, hl.trans hc.2.symm⟩)
          rwa [hc.1, hc.2] at hj
        · refine Or.inr (Or.inl ⟨j, ?_⟩)
          show setAt e.dirty i line false j l = true
          rwa [setAt, if_neg hc]
      · exact Or.inr (Or.inr ⟨m', List.mem_append_left _ hm', hd', hl'⟩)
    copy := by
      intro j l hne
      refine h.copy j l fun hn => hne ?_
      show setAt e.perm i line x j l = .n
      by_cases hc : j = i ∧ l = line
      · rw [setAt, if_pos hc]
        rw [hc.1, hc.2] at hn
        exact Perm.le_cases hx hn
      · rwa [setAt, if_neg hc]
    cData := by
      refine forall_mem_append h.cData fun hmd w hw => ?_
      rw [hdata, lineData, BroadcastParams.word, unpack_pack, hl]
      exact h.copy i line (hm hmd) w hw
    cMem := by
      intro m' rest hq hd' w hw
      rcases head_append hq with ⟨hnil, -⟩ | ⟨rest', hq'⟩
      · obtain ⟨m₀, rest₀, hq₀, -⟩ := hctl.cIdx (Nat.zero_lt_of_lt hw)
        rw [hnil] at hq₀
        cases hq₀
      · exact h.cMem m' rest' hq' hd' w hw }

theorem Control.cIdx_append (h : Control f e) (m : CReq) (hpos : 0 < e.cIdx) :
    ∃ m' rest, e.cQ ++ [m] = m' :: rest ∧ m'.opcode.hasData = true := by
  obtain ⟨m', rest, hq, hd⟩ := h.cIdx hpos
  exact ⟨m', rest ++ [m], by rw [hq]; rfl, hd⟩

/-- Nobody who is done with the probe sends data, so a new message disturbs nothing. -/
theorem Perms.appendC (hp : p.Ok) (h : Perms f e) {m : CReq}
    (hsel : reqSelected p m.source i = true)
    (hlow : m.opcode.hasData = true → ∀ j, e.eff j (p.lineOf m.address) ≠ .t)
    (hcap : m.opcode.hasData = true → m.isProbeAck = false → f.Busy →
      reqSelected p f.sourceQ i = false → p.lineOf m.address = f.line →
      f.probePendingQ i = true ∨ (e.bQ i).isSome = true) :
    Perms f { e with cQ := e.cQ ++ [m] } :=
  { h with
    capped := by
      intro hb j hj
      by_cases hout : m.opcode.hasData = true ∧ m.isProbeAck = false ∧ p.lineOf m.address = f.line ∧
          j = i
      · rw [hout.2.2.2] at hj ⊢
        rcases hcap hout.1 hout.2.1 hb hj hout.2.2.1 with hx | hx
        · exact Or.inl hx
        · exact Or.inr (Or.inl hx)
      · rcases h.capped hb j hj with hc | hc | ⟨hle, hf⟩
        · exact Or.inl hc
        · exact Or.inr (Or.inl hc)
        · refine Or.inr (Or.inr ⟨hle, Followed.append hf fun hd hl hs => ?_⟩)
          cases ha : m.isProbeAck with
          | true => rfl
          | false => exact absurd ⟨hd, ha, hl, hp.disjoint hs hsel⟩ hout
    dataLow := forall_mem_append h.dataLow hlow }

/-- The permission that a host keeps after a release is not Trunk. -/
theorem afterRelease_ne (param : ℕ) : afterRelease param ≠ .t := by
  unfold afterRelease
  split <;> simp

/-- The message `m` with which the host `i` gives up permissions on a line. -/
structure HostMsg (e : BroadcastEnv p) (i : Fin p.numCachedHosts) (data : Bool) (source line : ℕ)
    (m : CReq) : Prop where
  hasData : m.opcode.hasData = data
  data : m.data = e.lineData i line
  source : m.source = source
  size : m.size = p.burst.maxSize
  beat : p.beatOf m.address = 0
  line : p.lineOf m.address = line

/-- What joins channel C comes from a caching host. -/
theorem HostMsg.cSel (h : Ids e) {data : Bool} {m : CReq} (hm : HostMsg e i data source line m)
    (hsel : reqSelected p source i = true) :
    ∀ m' ∈ e.cQ ++ [m], m'.size = p.burst.maxSize ∧ p.beatOf m'.address = 0 ∧
      ∃ i, reqSelected p m'.source i = true :=
  forall_mem_append h.cSel ⟨hm.size, hm.beat, i, by rw [hm.source]; exact hsel⟩

section Release
variable {data : Bool} {param : ℕ} {m : CReq}

/-- The host `i` has sent the release `m`. -/
def released (e : BroadcastEnv p) (i : Fin p.numCachedHosts) (source param line : ℕ) (m : CReq) :
    BroadcastEnv p :=
  { e with
    cQ := e.cQ ++ [m]
    perm := setAt e.perm i line (afterRelease param)
    dirty := setAt e.dirty i line false
    rel := setAt e.rel i line (some ⟨source, .sent⟩)
    relLine := Function.update e.relLine source (some line) }

theorem released_ids (h : Ids e) (hm : HostMsg e i data source line m)
    (hma : m.isProbeAck = false) (hsel : reqSelected p source i = true)
    (hline : e.relLine source = none) (hrel : e.rel i line = none) :
    Ids (released e i source param line m) := by
  have hfresh : ∀ {j l t}, e.rel j l = some t → t.source ≠ source := by
    rintro j l t ht rfl
    have := (h.relSrc ht).2
    rw [hline] at this
    cases this
  have hkeep : ∀ {j l t}, e.rel j l = some t →
      setAt e.rel i line (some ⟨source, .sent⟩) j l = some t := by
    intro j l t ht
    have : ¬(j = i ∧ l = line) := by
      rintro ⟨rfl, rfl⟩
      rw [hrel] at ht
      cases ht
    simpa [setAt, this] using ht
  exact
    { h with
      relSrc := by
        intro j l t ht
        show _ ∧ Function.update e.relLine source (some line) t.source = some l
        rcases setAt_eq_some ht with ⟨rfl, rfl, rfl⟩ | ⟨-, ht'⟩
        · exact ⟨hsel, Function.update_self _ _ _⟩
        · rw [Function.update_of_ne (hfresh ht')]
          exact h.relSrc ht'
      rRel := by
        intro r hr h2
        obtain ⟨hop, j, l, ht⟩ := h.rRel r hr h2
        exact ⟨hop, j, l, hkeep ht⟩
      cSel := hm.cSel h hsel
      cRel := by
        refine forall_mem_append (fun m' hm' ha => ?_) fun _ => ?_
        · obtain ⟨j, ht⟩ := h.cRel m' hm' ha
          exact ⟨j, hkeep ht⟩
        · refine ⟨i, ?_⟩
          rw [hm.line, hm.source]
          exact setAt_self _ _
      cNodup := by
        show ((List.filter (!·.isProbeAck) (e.cQ ++ [m])).map (·.source)).Nodup
        rw [List.filter_append, List.map_append, List.nodup_append]
        refine ⟨h.cNodup, by simp [hma], ?_⟩
        intro a ha b hb
        obtain ⟨m', hm', rfl⟩ := List.mem_map.mp ha
        obtain ⟨hmem, hack⟩ := List.mem_filter.mp hm'
        have hb' : b = source := by simpa [hma, hm.source] using hb
        obtain ⟨j, ht⟩ := h.cRel m' hmem (by simpa using hack)
        rw [hb']
        exact hfresh ht }

theorem released_control (h : Control f e) (hma : m.isProbeAck = false) :
    Control f (released e i source param line m) := by
  have hout : f.outstanding { e with cQ := e.cQ ++ [m] } = f.outstanding e := by
    simp [BroadcastFsm.outstanding, List.countP_append, hma]
  exact
    { h with
      count := fun hs => (h.count hs).trans hout.symm
      quiet := fun hs => hout.trans (h.quiet hs)
      cIdx := h.cIdx_append m
      probeAck := forall_mem_append h.probeAck fun ha => by
        rw [hma] at ha
        cases ha }

theorem released_perms (hp : p.Ok) (h : Perms f e) (hm : HostMsg e i data source line m)
    (hsel : reqSelected p source i = true) (hle : afterRelease param ≤ e.perm i line)
    (hdt : data = true → e.perm i line = .t) (hacq : e.acq i line = none) :
    Perms f (released e i source param line m) := by
  have hlow := h.giveUp hle (afterRelease_ne param) (fun t ht => by rw [hacq] at ht; cases ht)
  have hperms := hlow.appendC hp (m := m) (by rw [hm.source]; exact hsel)
    (by
      intro hd
      rw [hm.line]
      exact h.no_trunk_giveUp (afterRelease_ne param) (hdt (hm.hasData.symm.trans hd)))
    (by
      intro hd _ hb hs hl
      have hT := hdt (hm.hasData.symm.trans hd)
      have heffT := (h.eff_of_trunk hT).2
      rcases h.capped hb i hs with hx | hx | ⟨hle', -⟩
      · exact Or.inl hx
      · exact Or.inr hx
      · rw [← hl, hm.line, heffT] at hle'
        exact absurd rfl (BroadcastFsm.ne_trunk_of_le_cap hle'))
  exact
    { hperms with
      acqRel := by
        intro j l t ht
        have hn := h.acqRel ht
        show setAt e.rel i line (some ⟨source, .sent⟩) j l = none
        rw [setAt, if_neg]
        · exact hn
        · rintro ⟨rfl, rfl⟩
          have ht' : e.acq j l = some t := ht
          rw [hacq] at ht'
          cases ht' }

end Release

/-- A host gives up a line with a message. -/
theorem Coherent.act_release (hp : p.Ok) (h : Coherent f e) {data : Bool} {param : ℕ}
    (hc : e.Conforms (.release i data source param line)) :
    Coherent f (e.act (.release i data source param line)) := by
  obtain ⟨hsel, hline, hrel, hacq, hperm⟩ := hc
  have hle : afterRelease param ≤ e.perm i line := by
    rcases hperm with ⟨ht, -⟩ | ⟨hb, hpar, -⟩
    · rw [ht]
      cases afterRelease param <;> decide
    · rw [hb, hpar]
      decide
  have hdt : data = true → e.perm i line = .t := by
    intro hd
    rcases hperm with ⟨ht, -⟩ | ⟨-, -, hf⟩
    · exact ht
    · rw [hd] at hf
      cases hf
  have hdirty : e.dirty i line = true → data = true := by
    intro hd
    rcases hperm with ⟨-, -, hx⟩ | ⟨hb, -⟩
    · exact hx hd
    · rw [h.perms.dirty hd] at hb
      cases hb
  have hne : e.perm i line ≠ .n := by
    rcases hperm with ⟨ht, -⟩ | ⟨hb, -⟩
    · simp [ht]
    · simp [hb]
  generalize hmsg : (⟨if data then .releaseData else .release, param, p.burst.maxSize, source,
    line * 2 ^ p.burst.maxSize, e.lineData i line⟩ : CReq) = m
  have hm : HostMsg e i data source line m := by
    rw [← hmsg]
    exact ⟨by cases data <;> rfl, rfl, rfl, rfl, beatOf_mul p line, lineOf_mul p line⟩
  have hma : m.isProbeAck = false := by
    rw [← hmsg]
    cases data <;> rfl
  have hact : e.act (.release i data source param line) = released e i source param line m := by
    rw [← hmsg]
    rfl
  have hdata := h.data.writeBack h.control hle (m := m)
    (fun hd => hm.hasData.trans (hdirty hd)) (fun _ => hne) hm.line hm.data
  rw [hact]
  exact
    { ids := released_ids h.ids hm hma hsel hline hrel
      control := released_control h.control hma
      perms := released_perms hp h.perms hm hsel hle hdt hacq
      data := { hdata with } }

theorem afterProbe_le (param : ℕ) (x : Perm) : Perm.afterProbe param x ≤ x := by
  unfold Perm.afterProbe
  split
  · cases x <;> decide
  · cases x <;> decide

theorem afterProbe_ne (param : ℕ) (x : Perm) : Perm.afterProbe param x ≠ .t := by
  unfold Perm.afterProbe
  split
  · cases x <;> decide
  · decide

/-- What the probe leaves to a host. -/
theorem afterProbe_le_cap {param : ℕ} (h : param = f.probeParamQ) (x : Perm) :
    Perm.afterProbe param x ≤ f.cap := by
  rw [h]
  unfold Perm.afterProbe BroadcastFsm.cap
  by_cases hB : f.probeParamQ = toB
  · simp only [hB, if_true]
    cases x <;> decide
  · simp only [hB, if_false]
    decide

section Answer
variable {data : Bool} {m : CReq} {x : Perm}

/-- The host `i` has answered its probe with `m`. -/
def answered (e : BroadcastEnv p) (i : Fin p.numCachedHosts) (line : ℕ) (x : Perm) (m : CReq) :
    BroadcastEnv p :=
  { giveUp e i line x with
    bQ := Function.update e.bQ i none
    cQ := e.cQ ++ [m] }

/-- The probe is replaced by its answer. -/
theorem outstanding_answered {b : BMsg} (hb : e.bQ i = some b) (hma : m.isProbeAck = true) :
    f.outstanding (answered e i line x m) = f.outstanding e := by
  have hfilt : (Finset.univ.filter fun j => (Function.update e.bQ i none j).isSome = true) =
      (Finset.univ.filter fun j => (e.bQ j).isSome = true).erase i := by
    ext j
    by_cases hj : j = i <;> simp [hj, Function.update_of_ne]
  have hmem : i ∈ Finset.univ.filter fun j => (e.bQ j).isSome = true := by simp [hb]
  have hpos := Finset.card_pos.mpr ⟨i, hmem⟩
  show BroadcastFsm.outstanding f
    { e with bQ := Function.update e.bQ i none, cQ := e.cQ ++ [m] } = _
  simp only [BroadcastFsm.outstanding, hfilt, Finset.card_erase_of_mem hmem,
    List.countP_append, List.countP_cons, List.countP_nil, hma, if_true]
  omega

/-- While a probe waits the machine collects the answers. -/
theorem Control.inv_of_probe (h : Control f e) {b : BMsg} (hb : e.bQ i = some b) :
    f.stateQ = .inv := by
  have hcard : 0 < (Finset.univ.filter fun i => (e.bQ i).isSome = true).card :=
    Finset.card_pos.mpr ⟨i, by simp [hb]⟩
  refine h.inv_of_pos ?_
  simp only [BroadcastFsm.outstanding]
  omega

theorem answered_ids (h : Ids e) (hm : HostMsg e i data source line m)
    (hma : m.isProbeAck = true) (hsel : reqSelected p source i = true) :
    Ids (answered e i line x m) :=
  { h with
    cSel := hm.cSel h hsel
    cRel := forall_mem_append h.cRel fun ha => by
      rw [hma] at ha
      cases ha
    cNodup := by
      show ((List.filter (!·.isProbeAck) (e.cQ ++ [m])).map (·.source)).Nodup
      rw [List.filter_append]
      simpa [hma] using h.cNodup }

theorem answered_control (hp : p.Ok) (h : Control f e) {b : BMsg} (hb : e.bQ i = some b)
    (hm : HostMsg e i data source f.line m) (hma : m.isProbeAck = true)
    (hsel : reqSelected p source i = true) : Control f (answered e i f.line x m) := by
  have hout : f.outstanding (answered e i f.line x m) = f.outstanding e :=
    outstanding_answered hb hma
  have hbQ : ∀ {j b'}, Function.update e.bQ i none j = some b' → e.bQ j = some b' := by
    intro j b' hj
    by_cases hji : j = i
    · rw [hji, Function.update_self] at hj
      cases hj
    · rwa [Function.update_of_ne hji] at hj
  exact
    { h with
      count := fun hs => (h.count hs).trans hout.symm
      quiet := fun hs => hout.trans (h.quiet hs)
      cIdx := h.cIdx_append m
      probe := fun hj => h.probe (hbQ hj)
      probeOnce := by
        intro j hj
        show Function.update e.bQ i none j = none
        by_cases hji : j = i
        · rw [hji, Function.update_self]
        · rw [Function.update_of_ne hji]
          exact h.probeOnce hj
      probeAck := forall_mem_append h.probeAck fun _ => by
        refine ⟨hm.line, fun j hj => ?_⟩
        rw [hm.source] at hj
        rw [hp.disjoint hj hsel]
        exact (h.probe hb).2.2.2 }

theorem answered_perms (hp : p.Ok) (h : Perms f e) (hm : HostMsg e i data source f.line m)
    (hma : m.isProbeAck = true) (hsel : reqSelected p source i = true)
    (hle : x ≤ e.perm i f.line) (hxt : x ≠ .t) (hcap : x ≤ f.cap)
    (hdt : data = true → e.perm i f.line = .t)
    (hqueued : ∀ t, e.acq i f.line = some t → t.phase = .queued) :
    Perms f (answered e i f.line x m) := by
  have hlow := h.giveUp hle hxt (by
    intro t ht
    rcases h.acqLow ht with hn | ⟨hpb, hpar⟩
    · exact Or.inl (Perm.le_cases hle hn)
    · rw [hpb] at hle
      cases x with
      | n => exact Or.inl rfl
      | b => exact Or.inr ⟨rfl, hpar⟩
      | t => exact absurd rfl hxt)
  have hperms := hlow.appendC hp (m := m) (by rw [hm.source]; exact hsel)
    (by
      intro hd
      rw [hm.line]
      exact h.no_trunk_giveUp hxt (hdt (hm.hasData.symm.trans hd)))
    (fun _ hf => by rw [hma] at hf; cases hf)
  exact
    { hperms with
      capped := by
        intro hbusy j hj
        by_cases hji : j = i
        · subst hji
          refine Or.inr (Or.inr ⟨?_, Followed.of_append_probeAck hma⟩)
          have heff : (giveUp e j f.line x).eff j f.line = x := by
            rcases ha : e.acq j f.line with _ | t
            · simp [eff, giveUp, setAt, ha]
            · simp [eff, giveUp, setAt, ha, hqueued t ha]
          show (giveUp e j f.line x).eff j f.line ≤ f.cap
          rw [heff]
          exact hcap
        · rcases hperms.capped hbusy j hj with hx' | hx' | hx'
          · exact Or.inl hx'
          · refine Or.inr (Or.inl ?_)
            show (Function.update e.bQ i none j).isSome = true
            rwa [Function.update_of_ne hji]
          · exact Or.inr (Or.inr hx') }

end Answer

/-- A host answers a probe. -/
theorem Coherent.act_answer (hp : p.Ok) (h : Coherent f e) {data : Bool}
    (hc : e.Conforms (.answer i data source)) : Coherent f (e.act (.answer i data source)) := by
  obtain ⟨b, hb, hsel, hstart, hdt, hdirty⟩ := hc
  have hb' : e.bQ i = some b := hb
  obtain ⟨hbl, hbb, hbp, -⟩ := h.control.probe hb'
  have hinv := h.control.inv_of_probe hb'
  -- an acquire of the line by this host can only be waiting on channel A
  have hqueued : ∀ t, e.acq i f.line = some t → t.phase = .queued := by
    intro t ht
    cases hph : t.phase with
    | queued => rfl
    | granting =>
        have := (h.control.granting ht hph).1
        rw [hinv] at this
        cases this
    | started => exact absurd hph (hstart t (by rw [hbl]; exact ht))
  rw [hbl] at hdt hdirty
  generalize hx : Perm.afterProbe b.param (e.perm i f.line) = x
  have hle : x ≤ e.perm i f.line := hx ▸ afterProbe_le _ _
  have hxt : x ≠ .t := hx ▸ afterProbe_ne _ _
  have hcap : x ≤ f.cap := hx ▸ afterProbe_le_cap hbp _
  generalize hmsg : (⟨if data then .probeAckData else .probeAck, report (e.perm i f.line) x,
    p.burst.maxSize, source, b.address, e.lineData i f.line⟩ : CReq) = m
  have hm : HostMsg e i data source f.line m := by
    rw [← hmsg]
    exact ⟨by cases data <;> rfl, rfl, rfl, rfl, hbb, hbl⟩
  have hma : m.isProbeAck = true := by
    rw [← hmsg]
    cases data <;> rfl
  have hact : e.act (.answer i data source) = answered e i f.line x m := by
    rw [← hmsg, ← hx]
    simp only [act, hb', hbl]
    rfl
  have hdata := h.data.writeBack h.control hle (m := m)
    (fun hd => hm.hasData.trans (hdirty hd))
    (fun hd => by rw [hdt (hm.hasData.symm.trans hd)]; simp) hm.line hm.data
  rw [hact]
  exact
    { ids := answered_ids h.ids hm hma hsel
      control := answered_control hp h.control hb' hm hma hsel
      perms := answered_perms hp h.perms hm hma hsel hle hxt hcap hdt hqueued
      data := { hdata with } }

/-- A host gives up a clean line without a message. -/
theorem Coherent.act_drop (h : Coherent f e) (hc : e.Conforms (.drop i line)) :
    Coherent f (e.act (.drop i line)) := by
  have hclean : e.dirty i line = false := hc
  have hdirty : setAt e.dirty i line false = e.dirty := by
    funext j l
    unfold setAt
    split
    · next hjl => rw [hjl.1, hjl.2, hclean]
    · rfl
  have hact : e.act (.drop i line) = giveUp e i line .n := by
    unfold giveUp
    rw [hdirty]
    rfl
  rw [hact]
  exact
    { ids := { h.ids with }
      control := { h.control with }
      perms := h.perms.giveUp (by cases e.perm i line <;> decide) (by simp)
        (fun _ _ => Or.inl rfl)
      data :=
        { h.data with
          mem := by
            intro l
            show _ ∨ (∃ j, setAt e.dirty i line false j l = true) ∨ _
            rw [hdirty]
            exact h.data.mem l
          copy := by
            intro j l hne
            refine h.data.copy j l fun hn => hne ?_
            show setAt e.perm i line .n j l = .n
            unfold setAt
            split
            · rfl
            · exact hn } }

end GiveUp

/-! ## Writing -/

section Writing

/-- Only the writer of a line, if anybody, knows the line. -/
theorem Data.setLine (h : Data f e) (i : Fin p.numCachedHosts) (line : ℕ) (new : ℕ → p.Word)
    (hother : ∀ j, j ≠ i → e.perm j line = .n)
    (hc : ∀ m ∈ e.cQ, m.opcode.hasData = true → p.lineOf m.address ≠ line)
    (hr : ∀ r ∈ e.rQ, r.isGrant = true → e.srcLine (r.source / 4) ≠ some line)
    (hm : ∀ s d j, e.mail s = some d → reqSelected p s j = true → d.opcode = .grantData →
      e.srcLine s ≠ some line) :
    Data f
      { e with
        copy := Function.update e.copy i (BroadcastEnv.setLine (e.copy i) line new)
        dirty := setAt e.dirty i line true
        cur := BroadcastEnv.setLine e.cur line new } := by
  have hcur : ∀ l w, l ≠ line → BroadcastEnv.setLine e.cur line new l w = e.cur l w := by
    intro l w hl
    simp [BroadcastEnv.setLine, hl]
  exact
    { h with
      mem := by
        intro l
        by_cases hl : l = line
        · exact Or.inr (Or.inl ⟨i, by rw [hl]; exact setAt_self _ _⟩)
        · rcases h.mem l with hx | ⟨j, hj⟩ | hx
          · exact Or.inl fun w => (hx w).trans (hcur l w hl).symm
          · refine Or.inr (Or.inl ⟨j, ?_⟩)
            show setAt e.dirty i line true j l = true
            rwa [setAt, if_neg (by simp [hl])]
          · exact Or.inr (Or.inr hx)
      memHigh := by
        intro l w hw
        show e.mem l w = BroadcastEnv.setLine e.cur line new l w
        rw [BroadcastEnv.setLine, if_neg (by omega)]
        exact h.memHigh l w hw
      copy := by
        intro j l hne w hw
        show Function.update e.copy i (BroadcastEnv.setLine (e.copy i) line new) j l w =
          BroadcastEnv.setLine e.cur line new l w
        by_cases hl : l = line
        · by_cases hj : j = i
          · rw [hj, Function.update_self]
            simp [BroadcastEnv.setLine, hl, hw]
          · rw [hl] at hne
            exact absurd (hother j hj) hne
        · rw [hcur l w hl]
          by_cases hj : j = i
          · subst hj
            rw [Function.update_self, BroadcastEnv.setLine, if_neg (by simp [hl])]
            exact h.copy j l hne w hw
          · rw [Function.update_of_ne hj]
            exact h.copy j l hne w hw
      cData := by
        intro m hmem hd w hw
        show p.word (m.data w) = BroadcastEnv.setLine e.cur line new (p.lineOf m.address) w
        rw [hcur _ w (hc m hmem hd)]
        exact h.cData m hmem hd w hw
      rData := by
        intro r hmem hg l hl w hw
        have hne : l ≠ line := by
          rintro rfl
          exact hr r hmem hg hl
        show p.word (r.data w) = BroadcastEnv.setLine e.cur line new l w
        rw [hcur l w hne]
        exact h.rData r hmem hg l hl w hw
      mailData := by
        intro s d j hd hj hgd l hl w hw
        have hne : l ≠ line := by
          rintro rfl
          exact hm s d j hd hj hgd hl
        show p.word (e.rx s w) = BroadcastEnv.setLine e.cur line new l w
        rw [hcur l w hne]
        exact h.mailData s d j hd hj hgd l hl w hw }

/-- While a host holds Trunk, counting a grant under way, nobody else has the line. -/
theorem Coherent.alone (h : Coherent f e) (ht : e.eff i line = .t) :
    (∀ j, j ≠ i → e.perm j line = .n) ∧
      ∀ m ∈ e.cQ, m.opcode.hasData = true → p.lineOf m.address ≠ line := by
  refine ⟨fun j hj => perm_of_eff (h.perms.single (Ne.symm hj) ht), ?_⟩
  rintro m hm hd rfl
  exact h.perms.dataLow m hm hd i ht

/-- A grant under way for a line that host `i` holds is the grant of host `i`. -/
theorem Coherent.grant_alone (h : Coherent f e) (ht : e.eff i line = .t)
    {j : Fin p.numCachedHosts} {t : AcqTxn} (hj : e.acq j line = some t)
    (hph : t.phase ≠ .queued) : j = i := by
  by_contra hne
  have hn := h.perms.single (Ne.symm hne) ht
  rw [eff_granted hj hph] at hn
  exact t.wants_ne hn

/-- A host writes a line. -/
theorem Coherent.act_store (h : Coherent f e) {new : ℕ → p.Word}
    (hc : e.Conforms (.store i line new)) : Coherent f (e.act (.store i line new)) := by
  have hT : e.perm i line = .t := hc
  obtain ⟨hnone, heff⟩ := h.perms.eff_of_trunk hT
  obtain ⟨hother, hcq⟩ := h.alone heff
  have hno : ∀ {j : Fin p.numCachedHosts} {t : AcqTxn}, e.acq j line = some t →
      t.phase = .queued := by
    intro j t hj
    by_contra hph
    have hji := h.grant_alone heff hj hph
    rw [hji, hnone] at hj
    cases hj
  exact
    { ids := { h.ids with }
      control := { h.control with }
      perms :=
        { h.perms with
          dirty := by
            intro j l hd
            have hd' : setAt e.dirty i line true j l = true := hd
            by_cases hjl : j = i ∧ l = line
            · show e.perm j l = .t
              rw [hjl.1, hjl.2]
              exact hT
            · rw [setAt, if_neg hjl] at hd'
              exact h.perms.dirty hd' }
      data := by
        refine h.data.setLine i line new hother hcq ?_ ?_
        · intro r hr hg hl
          obtain ⟨-, -, j, l', t, ht, hts, hph, -⟩ := h.ids.rAcq r hr hg
          have hll : l' = line := by
            have := (h.ids.acqSrc ht).2
            rw [hts, hl] at this
            exact (Option.some.inj this).symm
          subst hll
          exact hph (hno ht)
        · intro s d j hd hj _ hl
          obtain ⟨l', t, ht, hts, hph, -⟩ := h.ids.mailAcq hd j hj
          have hll : l' = line := by
            have := (h.ids.acqSrc ht).2
            rw [hts, hl] at this
            exact (Option.some.inj this).symm
          subst hll
          rw [hno ht] at hph
          cases hph }

end Writing

/-! ## Taking responses -/

section Taking

/-- The acquire that was issued under `source` is over; the host holds `x`. -/
def retire (e : BroadcastEnv p) (i : Fin p.numCachedHosts) (source line : ℕ) (x : Perm) :
    BroadcastEnv p :=
  { e with
    mail := Function.update e.mail source none
    srcLine := Function.update e.srcLine source none
    acq := setAt e.acq i line none
    perm := setAt e.perm i line x }

/-- What is known when a grant can be taken. -/
structure Takes (e : BroadcastEnv p) (i : Fin p.numCachedHosts) (source line : ℕ) (d : DMsg)
    (t : AcqTxn) : Prop where
  sel : reqSelected p source i = true
  srcLine : e.srcLine source = some line
  mail : e.mail source = some d
  acq : e.acq i line = some t
  src : t.source = source
  phase : t.phase = .started
  wants : Perm.ofGrant d.param = t.wants
  kind : d.opcode = .grantData ∨ d.opcode = .grant ∧ t.wants = .t

section Retire
variable {d : DMsg} {t : AcqTxn}

theorem Coherent.takes (h : Coherent f e) (hsel : reqSelected p source i = true)
    (hsrc : e.srcLine source = some line) (hd : e.mail source = some d) :
    ∃ t, Takes e i source line d t := by
  obtain ⟨l, t, ht, hts, hph, hw, hk⟩ := h.ids.mailAcq hd i hsel
  have hl : l = line := by
    have := (h.ids.acqSrc ht).2
    rw [hts, hsrc] at this
    exact (Option.some.inj this).symm
  subst hl
  exact ⟨t, ⟨hsel, hsrc, hd, ht, hts, hph, hw, hk⟩⟩

theorem Takes.eff_eq (ht : Takes e i source line d t) :
    e.eff i line = t.wants :=
  eff_granted ht.acq (by rw [ht.phase]; simp)

/-- Taking a grant does not change the permission that counts. -/
theorem Takes.eff_retire (ht : Takes e i source line d t) (j : Fin p.numCachedHosts) (l : ℕ) :
    (retire e i source line t.wants).eff j l = e.eff j l := by
  by_cases hc : j = i ∧ l = line
  · obtain ⟨rfl, rfl⟩ := hc
    rw [eff_granted ht.acq (by rw [ht.phase]; simp)]
    simp [eff, retire, setAt]
  · simp [eff, retire, setAt, hc]

theorem Takes.mail_ne (ht : Takes e i source line d t) {s : ℕ} (hs : e.mail s = none) :
    s ≠ source := by
  rintro rfl
  rw [ht.mail] at hs
  cases hs

theorem mail_update {s : ℕ} {d' : DMsg} (h : Function.update e.mail source none s = some d') :
    s ≠ source ∧ e.mail s = some d' := by
  by_cases hs : s = source
  · rw [hs, Function.update_self] at h
    cases h
  · rw [Function.update_of_ne hs] at h
    exact ⟨hs, h⟩

theorem Coherent.ids_retire (hp : p.Ok) (h : Coherent f e) (ht : Takes e i source line d t)
    (x : Perm) : Ids (retire e i source line x) := by
  have hof : ∀ {s}, s ≠ source → Function.update e.srcLine source none s = e.srcLine s :=
    fun hs => Function.update_of_ne hs none e.srcLine
  have hkeep : ∀ {j l t'}, e.acq j l = some t' → t'.source ≠ source →
      setAt e.acq i line none j l = some t' := by
    intro j l t' hj hne
    have hc : ¬(j = i ∧ l = line) := by
      rintro ⟨rfl, rfl⟩
      rw [ht.acq] at hj
      rw [← Option.some.inj hj] at hne
      exact hne ht.src
    simpa [setAt, hc] using hj
  have h3A : ∀ {r : DResp}, r.source % 4 = 3 → r.answersA = true := by
    intro r h3
    simp [DResp.answersA, DResp.isDrop, Broadcast.isProbeAckData, DResp.beat, h3,
      xactProbeAckData]
  exact
    { h.ids with
      acqSrc := by
        intro j l t' hj
        obtain ⟨hc, hj'⟩ := setAt_none_eq_some hj
        refine ⟨(h.ids.acqSrc hj').1, ?_⟩
        show Function.update e.srcLine source none t'.source = some l
        rw [hof]
        · exact (h.ids.acqSrc hj').2
        · intro hs
          obtain ⟨hji, hl, -⟩ := h.ids.acq_unique hp hj' ht.acq (hs.trans ht.src.symm)
          exact hc ⟨hji, hl⟩
      aSrc := by
        intro m hm
        obtain ⟨h1, h2⟩ := h.ids.aSrc m hm
        have hne := ht.mail_ne h2
        refine ⟨?_, ?_⟩
        · show Function.update e.srcLine source none m.source = _
          rw [hof hne]
          exact h1
        · show Function.update e.mail source none m.source = none
          rw [Function.update_of_ne hne]
          exact h2
      aAcq := by
        intro m hm hacq
        obtain ⟨h1, h2, h3, j, hj, hmt⟩ := h.ids.aAcq m hm hacq
        exact ⟨h1, h2, h3, j, hj, hkeep hmt (ht.mail_ne (h.ids.aSrc m hm).2)⟩
      rAcq := by
        intro r hr hg
        obtain ⟨h1, h2, j, l, t', ht', hts, hrest⟩ := h.ids.rAcq r hr hg
        refine ⟨h1, h2, j, l, t', hkeep ht' ?_, hts, hrest⟩
        rw [hts]
        exact ht.mail_ne (h.ids.rMail r hr (DResp.answersA_of_isGrant hg))
      rUnc := by
        intro r hr h3
        refine ⟨(h.ids.rUnc r hr h3).1, ?_⟩
        show (Function.update e.srcLine source none (r.source / 4)).isSome = true
        rw [hof (ht.mail_ne (h.ids.rMail r hr (h3A h3)))]
        exact (h.ids.rUnc r hr h3).2
      rMail := by
        intro r hr ha
        have hn := h.ids.rMail r hr ha
        show Function.update e.mail source none (r.source / 4) = none
        rw [Function.update_of_ne (ht.mail_ne hn)]
        exact hn
      mailSrc := by
        intro s d' hd'
        obtain ⟨hs, hd''⟩ := mail_update hd'
        show (Function.update e.srcLine source none s).isSome = true
        rw [hof hs]
        exact h.ids.mailSrc hd''
      mailAcq := by
        intro s d' hd' j hj
        obtain ⟨hs, hd''⟩ := mail_update hd'
        obtain ⟨l, t', ht', hts, hrest⟩ := h.ids.mailAcq hd'' j hj
        exact ⟨l, t', hkeep ht' (by rw [hts]; exact hs), hts, hrest⟩ }

theorem Coherent.control_retire (h : Coherent f e) (i : Fin p.numCachedHosts)
    (source line : ℕ) (x : Perm) :
    Control f (retire e i source line x) :=
  { h.control with
    granting := fun hj hg => h.control.granting (setAt_none_eq_some hj).2 hg
    rStarted := fun hpos r rest hq hg j l t' hj hs =>
      h.control.rStarted hpos r rest hq hg j l t' (setAt_none_eq_some hj).2 hs
    rGranting := fun r rest hq hg hne j l t' hj hs =>
      h.control.rGranting r rest hq hg hne j l t' (setAt_none_eq_some hj).2 hs }

theorem Coherent.perms_retire (h : Coherent f e) (ht : Takes e i source line d t) :
    Perms f (retire e i source line t.wants) := by
  have hclean : e.dirty i line ≠ true := by
    intro hd
    have hT := h.perms.dirty hd
    rcases h.perms.acqLow ht.acq with hn | ⟨hb, -⟩
    · rw [hT] at hn
      cases hn
    · rw [hT] at hb
      cases hb
  exact
    { h.perms with
      acqRel := fun hj => h.perms.acqRel (setAt_none_eq_some hj).2
      acqLow := by
        intro j l t' hj
        obtain ⟨hc, hj'⟩ := setAt_none_eq_some hj
        show setAt e.perm i line t.wants j l = _ ∨ setAt e.perm i line t.wants j l = _ ∧ _
        rw [setAt, if_neg hc]
        exact h.perms.acqLow hj'
      dirty := by
        intro j l hd
        have hc : ¬(j = i ∧ l = line) := by
          rintro ⟨rfl, rfl⟩
          exact hclean hd
        show setAt e.perm i line t.wants j l = .t
        rw [setAt, if_neg hc]
        exact h.perms.dirty hd
      single := by
        intro i' j' l' hij hT
        exact (ht.eff_retire j' l').trans (h.perms.single hij ((ht.eff_retire i' l').symm.trans hT))
      capped := by
        intro hb j hj
        rcases h.perms.capped hb j hj with hx | hx | ⟨hle, hf⟩
        · exact Or.inl hx
        · exact Or.inr (Or.inl hx)
        · exact Or.inr (Or.inr ⟨by rw [ht.eff_retire]; exact hle, hf⟩)
      dataLow := fun m hm hd j hT =>
        h.perms.dataLow m hm hd j ((ht.eff_retire j _).symm.trans hT) }

/-- What is under way for others is still right. -/
theorem Coherent.data_retire (h : Coherent f e) (ht : Takes e i source line d t) :
    Data f (retire e i source line (e.perm i line)) := by
  have hperm : setAt e.perm i line (e.perm i line) = e.perm := by
    funext j l
    unfold setAt
    split
    · next hjl => rw [hjl.1, hjl.2]
    · rfl
  exact
    { h.data with
      copy := by
        intro j l hne
        have hne' : setAt e.perm i line (e.perm i line) j l ≠ .n := hne
        rw [hperm] at hne'
        exact h.data.copy j l hne'
      rData := by
        intro r hr hg l hl
        refine h.data.rData r hr hg l ?_
        have hl' : Function.update e.srcLine source none (r.source / 4) = some l := hl
        rwa [Function.update_of_ne
          (ht.mail_ne (h.ids.rMail r hr (DResp.answersA_of_isGrant hg)))] at hl'
      mailData := by
        intro s d' j hd' hj hgd l hl
        obtain ⟨hs, hd''⟩ := mail_update hd'
        refine h.data.mailData s d' j hd'' hj hgd l ?_
        have hl' : Function.update e.srcLine source none s = some l := hl
        rwa [Function.update_of_ne hs] at hl'
      mailServed := fun s d' hd' => h.data.mailServed s d' (mail_update hd').2 }

/-- A host that receives a copy, or keeps the one it has, may hold any permission. -/
theorem Data.setPerm (h : Data f e) (i : Fin p.numCachedHosts) (line : ℕ) (x : Perm)
    (hx : x ≠ .n → ∀ w < p.lineBeats, e.copy i line w = e.cur line w) :
    Data f { e with perm := setAt e.perm i line x } :=
  { h with
    copy := by
      intro j l hne w hw
      have hne' : setAt e.perm i line x j l ≠ .n := hne
      by_cases hc : j = i ∧ l = line
      · rw [setAt, if_pos hc] at hne'
        show e.copy j l w = e.cur l w
        rw [hc.1, hc.2]
        exact hx hne' w hw
      · rw [setAt, if_neg hc] at hne'
        exact h.copy j l hne' w hw }

theorem setAt_setAt {α : Type*} (g : Fin p.numCachedHosts → ℕ → α) (a b : α) :
    setAt (setAt g i line a) i line b = setAt g i line b := by
  funext j l
  unfold setAt
  split <;> rfl

/-- A host takes the data of the line. -/
theorem Coherent.act_take_data (hp : p.Ok) (h : Coherent f e) {new : ℕ → p.Word}
    (ht : Takes e i source line d t) (hgd : d.opcode = .grantData) :
    Coherent f (e.act (.take i source line new)) := by
  have hact : e.act (.take i source line new) =
      { retire e i source line t.wants with
        copy := Function.update e.copy i
          (BroadcastEnv.setLine (e.copy i) line fun j => p.word (e.rx source j)) } := by
    simp only [act, ht.mail, hgd, if_true, ht.wants]
    rfl
  have hcopy : ∀ j l, setAt e.perm i line t.wants j l ≠ .n → ∀ w < p.lineBeats,
      Function.update e.copy i
        (BroadcastEnv.setLine (e.copy i) line fun j => p.word (e.rx source j)) j l w =
          e.cur l w := by
    intro j l hne w hw
    by_cases hj : j = i
    · subst hj
      rw [Function.update_self, BroadcastEnv.setLine]
      split
      · next hl =>
        rw [hl.1]
        exact h.data.mailData source d j ht.mail ht.sel hgd line ht.srcLine w hw
      · next hl =>
        rw [setAt, if_neg (by rintro ⟨-, rfl⟩; exact hl ⟨rfl, hw⟩)] at hne
        exact h.data.copy j l hne w hw
    · rw [Function.update_of_ne hj]
      rw [setAt, if_neg (by simp [hj])] at hne
      exact h.data.copy j l hne w hw
  have hids := h.ids_retire hp ht t.wants
  have hctl := h.control_retire i source line t.wants
  have hperms := h.perms_retire ht
  have hdata := h.data_retire ht
  rw [hact]
  exact
    { ids := { hids with }
      control := { hctl with }
      perms := { hperms with }
      data := { hdata with copy := hcopy } }

/-- A grant of Trunk is the only one under way for its line. -/
theorem Coherent.source_eq (h : Coherent f e) (ht : Takes e i source line d t)
    (heff : e.eff i line = .t) {j : Fin p.numCachedHosts} {l s : ℕ} {t' : AcqTxn}
    (ht' : e.acq j l = some t') (hts : t'.source = s) (hph : t'.phase ≠ .queued)
    (hl : Function.update e.srcLine source none s = some line) : s = source := by
  by_contra hne
  rw [Function.update_of_ne hne] at hl
  have hll : l = line := by
    have hsrc := (h.ids.acqSrc ht').2
    rw [hts, hl] at hsrc
    exact (Option.some.inj hsrc).symm
  subst hll
  have hji := h.grant_alone heff ht' hph
  rw [hji, ht.acq] at ht'
  rw [← Option.some.inj ht', ht.src] at hts
  exact hne hts.symm

/-- A host that is granted Trunk without data writes the whole line. -/
theorem Coherent.act_take_write (hp : p.Ok) (h : Coherent f e) {new : ℕ → p.Word}
    (ht : Takes e i source line d t) (hg : d.opcode = .grant) (hwT : t.wants = .t)
    (hn : e.perm i line = .n) : Coherent f (e.act (.take i source line new)) := by
  have heff : e.eff i line = .t := ht.eff_eq.trans hwT
  obtain ⟨hother, hcq⟩ := h.alone heff
  have hact : e.act (.take i source line new) =
      { retire e i source line t.wants with
        copy := Function.update e.copy i (BroadcastEnv.setLine (e.copy i) line new)
        dirty := setAt e.dirty i line true
        cur := BroadcastEnv.setLine e.cur line new } := by
    simp [act, ht.mail, hg, hn, ht.wants, retire]
  have hwrite := (h.data_retire ht).setLine i line new
    (by
      intro j hj
      show setAt e.perm i line (e.perm i line) j line = .n
      rw [setAt, if_neg (by simp [hj])]
      exact hother j hj)
    hcq
    (by
      intro r hr hgr hl
      have hne := ht.mail_ne (h.ids.rMail r hr (DResp.answersA_of_isGrant hgr))
      obtain ⟨-, -, j, l', t', ht', hts, hph, -⟩ := h.ids.rAcq r hr hgr
      exact hne (h.source_eq ht heff ht' hts hph hl))
    (by
      intro s d' j hd' hj _ hl
      obtain ⟨hs, hd''⟩ := mail_update hd'
      obtain ⟨l', t', ht', hts, hph, -⟩ := h.ids.mailAcq hd'' j hj
      exact hs (h.source_eq ht heff ht' hts (by rw [hph]; simp) hl))
  have hfull := hwrite.setPerm i line t.wants (by
    intro _ w hw
    show Function.update e.copy i (BroadcastEnv.setLine (e.copy i) line new) i line w =
      BroadcastEnv.setLine e.cur line new line w
    rw [Function.update_self]
    simp [BroadcastEnv.setLine, hw])
  have hset : setAt (retire e i source line (e.perm i line)).perm i line t.wants =
      (retire e i source line t.wants).perm := setAt_setAt _ _ _
  simp only [hset] at hfull
  have hids := h.ids_retire hp ht t.wants
  have hctl := h.control_retire i source line t.wants
  have hperms := h.perms_retire ht
  rw [hact]
  exact
    { ids := { hids with }
      control := { hctl with }
      perms :=
        { hperms with
          dirty := by
            intro j l hdj
            have hdj' : setAt e.dirty i line true j l = true := hdj
            show setAt e.perm i line t.wants j l = .t
            by_cases hjl : j = i ∧ l = line
            · rw [setAt, if_pos hjl, hwT]
            · rw [setAt, if_neg hjl] at hdj' ⊢
              exact h.perms.dirty hdj' }
      data := { hfull with } }

/-- A host that has a copy keeps it. -/
theorem Coherent.act_take_perm (hp : p.Ok) (h : Coherent f e) {new : ℕ → p.Word}
    (ht : Takes e i source line d t) (hg : d.opcode = .grant) (hn : e.perm i line ≠ .n) :
    Coherent f (e.act (.take i source line new)) := by
  have hact : e.act (.take i source line new) = retire e i source line t.wants := by
    simp [act, ht.mail, hg, hn, ht.wants, retire]
  have hfull := (h.data_retire ht).setPerm i line t.wants (fun _ => h.data.copy i line hn)
  have hset : setAt (retire e i source line (e.perm i line)).perm i line t.wants =
      (retire e i source line t.wants).perm := setAt_setAt _ _ _
  simp only [hset] at hfull
  rw [hact]
  exact
    { ids := h.ids_retire hp ht t.wants
      control := h.control_retire i source line t.wants
      perms := h.perms_retire ht
      data := { hfull with } }

end Retire

/-- A host takes a grant. -/
theorem Coherent.act_take (hp : p.Ok) (h : Coherent f e) {new : ℕ → p.Word}
    (hc : e.Conforms (.take i source line new)) :
    Coherent f (e.act (.take i source line new)) := by
  obtain ⟨hsel, hsrc, hsome⟩ := hc
  obtain ⟨d, hd⟩ := Option.isSome_iff_exists.mp hsome
  obtain ⟨t, ht⟩ := h.takes hsel hsrc hd
  rcases ht.kind with hgd | ⟨hg, hwT⟩
  · exact h.act_take_data hp ht hgd
  · by_cases hn : e.perm i line = .n
    · exact h.act_take_write hp ht hg hwT hn
    · exact h.act_take_perm hp ht hg hn

/-- A host takes a release acknowledgement. -/
theorem Coherent.act_takeRelAck (hp : p.Ok) (h : Coherent f e)
    (hc : e.Conforms (.takeRelAck i line)) : Coherent f (e.act (.takeRelAck i line)) := by
  obtain ⟨t, ht, hph⟩ := hc
  have ht' : e.rel i line = some t := ht
  obtain ⟨hi, hl⟩ := h.ids.relSrc ht'
  have hact : e.act (.takeRelAck i line) =
      { e with
        rel := setAt e.rel i line none
        relLine := Function.update e.relLine t.source none } := by
    simp [act, ht']
  rw [hact]
  have hkeep : ∀ {j l t'}, e.rel j l = some t' → t'.phase ≠ .acked →
      setAt e.rel i line none j l = some t' := by
    intro j l t' hj hne
    have hcon : ¬(j = i ∧ l = line) := by
      rintro ⟨rfl, rfl⟩
      rw [ht'] at hj
      rw [← Option.some.inj hj] at hne
      exact hne hph
    simpa [setAt, hcon] using hj
  exact
    { ids :=
        { h.ids with
          relSrc := by
            intro j l t' hj
            obtain ⟨hcon, hj'⟩ := setAt_none_eq_some hj
            obtain ⟨hj1, hj2⟩ := h.ids.relSrc hj'
            refine ⟨hj1, ?_⟩
            show Function.update e.relLine t.source none t'.source = some l
            rw [Function.update_of_ne]
            · exact hj2
            · intro hs
              rw [hs] at hj1 hj2
              have hll : l = line := Option.some.inj (hj2.symm.trans hl)
              exact hcon ⟨hp.disjoint hj1 hi, hll⟩
          rRel := by
            intro r hr h2
            obtain ⟨hop, j, l, hj⟩ := h.ids.rRel r hr h2
            exact ⟨hop, j, l, hkeep hj (by simp)⟩
          cRel := by
            intro m hm ha
            obtain ⟨j, hj⟩ := h.ids.cRel m hm ha
            exact ⟨j, hkeep hj (by simp)⟩ }
      control := { h.control with }
      perms :=
        { h.perms with
          acqRel := by
            intro j l t' hj
            show setAt e.rel i line none j l = none
            unfold setAt
            split
            · rfl
            · exact h.perms.acqRel hj }
      data := { h.data with } }

/-- An uncached client takes its response. -/
theorem Coherent.act_takeResponse (h : Coherent f e) (hc : e.Conforms (.takeResponse source)) :
    Coherent f (e.act (.takeResponse source)) := by
  obtain ⟨hsel, hsome⟩ := hc
  have hne : ∀ {s}, e.mail s = none → s ≠ source := by
    rintro s hs rfl
    rw [hs] at hsome
    cases hsome
  have hclear : Coherent f { e with mail := Function.update e.mail source none } :=
    { ids :=
        { h.ids with
          aSrc := by
            intro m hm
            obtain ⟨h1, h2⟩ := h.ids.aSrc m hm
            refine ⟨h1, ?_⟩
            show Function.update e.mail source none m.source = none
            rw [Function.update_of_ne (hne h2)]
            exact h2
          rMail := by
            intro r hr ha
            have hn := h.ids.rMail r hr ha
            show Function.update e.mail source none (r.source / 4) = none
            rw [Function.update_of_ne (hne hn)]
            exact hn
          mailSrc := fun hd => h.ids.mailSrc (mail_update hd).2
          mailAcq := fun hd => h.ids.mailAcq (mail_update hd).2 }
      control := { h.control with }
      perms := { h.perms with }
      data :=
        { h.data with
          mailData := fun s d j hd => h.data.mailData s d j (mail_update hd).2
          mailServed := fun s d hd => h.data.mailServed s d (mail_update hd).2 } }
  have hu : Unused { e with mail := Function.update e.mail source none } source := by
    refine ⟨?_, fun m hm => hne (h.ids.aSrc m hm).2, fun r hr ha => hne (h.ids.rMail r hr ha),
      Function.update_self _ _ _⟩
    rintro j l t hj rfl
    have := (h.ids.acqSrc hj).1
    rw [hsel j] at this
    cases this
  exact hclear.setSrcLine hu none

/-- A host acknowledges a grant. -/
theorem Coherent.act_grantAck (h : Coherent f e) (hc : e.Conforms .grantAck) :
    Coherent f (e.act .grantAck) := by
  have hpos : 0 < e.owed := hc
  exact
    { ids := { h.ids with }
      control :=
        { h.control with
          granting := by
            intro j l t ht hg
            have := (h.control.granting ht hg).2.2.2.1
            omega
          acks := by
            intro hne
            have := h.control.acks hne
            omega
          ackOne := by
            intro hw
            have := h.control.ackOne hw
            show e.owed - 1 + (e.eQ + 1) + f.ackDoneQ.toNat ≤ 1
            omega }
      perms := { h.perms with }
      data := { h.data with } }

end Taking

/-- Every action that the hosts may take preserves the invariant. -/
theorem Coherent.act (hp : p.Ok) (h : Coherent f e) {a : HostAct p} (hc : e.Conforms a) :
    Coherent f (e.act a) := by
  cases a with
  | acquire i perm source param line => exact h.act_acquire hc
  | uncached m => exact h.act_uncached hc
  | release i data source param line => exact h.act_release hp hc
  | answer i data source => exact h.act_answer hp hc
  | store i line new => exact h.act_store hc
  | drop i line => exact h.act_drop hc
  | take i source line new => exact h.act_take hp hc
  | takeRelAck i line => exact h.act_takeRelAck hp hc
  | takeResponse source => exact h.act_takeResponse hc
  | grantAck => exact h.act_grantAck hc

end Muntjac.Tl

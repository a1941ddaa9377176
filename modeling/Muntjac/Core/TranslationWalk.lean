import Muntjac.Core.Translation

/-!
# Page walks and the access in flight

The walker of a level-one cache is started by the lookup of a request, and its answer
is taken by whatever access is in flight when it comes.  This file states when the two
are the same access, for any cache around the translation logic, and what follows over
a fixed memory image.

The memory answers the reads of the walker in order, after any delay.

## Main definitions

* `Translation.Owned` — every walk in progress is the walk of the access in flight.
* `Translation.Sound` — what the TLB, the walker and the latch hold is what the page
  tables say.
-/

namespace Muntjac.Core

open Sync

/-- The pair is what the tables of `mem` say about `vpn`. -/
def Sv39.Maps (pa : ℕ) (mem : ℕ → ℕ) (root vpn ppn : ℕ) (perm : PageProt) : Prop :=
  Sv39.States (Sv39.walk pa mem root vpn) ppn perm

/-- A valid pair is a leaf of the tables. -/
theorem Sv39.leaf_of_maps {pa root vpn ppn : ℕ} {mem : ℕ → ℕ} {perm : PageProt}
    (h : Sv39.Maps pa mem root vpn ppn perm) (hv : perm.valid = true) :
    ∃ l, Sv39.walk pa mem root vpn = some l ∧ ppn = l.ppn ∧ perm = Sv39.protOf l.flags := by
  unfold Sv39.Maps Sv39.States at h
  split at h
  · rename_i l hl
    exact ⟨l, hl, h⟩
  · simp [hv] at h

/-- The access that the translation logic serves: whether it is translated, its virtual
page, and whether it may still wait for its translation. -/
structure Lookup where
  translated : Bool
  vpn : ℕ
  searching : Prop

namespace Translation
variable {n : ℕ}

/-- An answer to the walker is accepted in this cycle. -/
def answered (s : Translation n) (i : TranslationIn) : Bool := i.dValid && s.ptwAValid

/-- The walker's request is accepted in this cycle. -/
def issued (s : Translation n) (i : TranslationIn) : Bool := s.ptw.reqValidQ && i.aReady

/-- The page table reads in flight after a cycle. -/
def nextReads (s : Translation n) (i : TranslationIn) (reads : List ℕ) : List ℕ :=
  (if s.answered i then reads.tail else reads) ++ (if s.issued i then [s.ptw.reqAddrQ] else [])

/-- The page table read that the walker waits for. -/
structure Outstanding (busBytes : ℕ) (s : Translation n) (reads : List ℕ) : Prop where
  unsent : s.ptw.reqValidQ = true → reads = [] ∧ s.ptwAValid = false
  sent : s.ptw.reqValidQ = false → reads = [s.ptw.reqAddrQ] ∧ s.ptwAValid = true ∧
    s.ptwAAddress = cat s.ptw.reqAddrQ 3 0 % busBytes

structure Owned (busBytes : ℕ) (a : Lookup) (s : Translation n) (reads : List ℕ) : Prop where
  rest : s.ptw.level = none → reads = [] ∧ s.ptw.reqValidQ = false ∧ s.ptwAValid = false
  active : s.ptw.stateQ ≠ .idle →
    s.tlbRespValid = false ∧ a.searching ∧ a.translated = true ∧ s.ptw.vpnQ = a.vpn
  waiting : s.ptw.level ≠ none → s.ppnValidLatch = false ∧ s.Outstanding busBytes reads
  lookup : s.tlbRespValid = true → s.ppnValidLatch = false ∧
    (a.searching ∧ a.translated = true ∨ s.tlb.respHit = true)

section Step
variable {p : TranslationParams} {busBytes : ℕ} {a a' : Lookup} {s : Translation n}
  {i : TranslationIn} {reads : List ℕ}

/-- The access does not have its translation while the walker waits for an entry. -/
theorem Owned.ppnValid_of_level (h : s.Owned busBytes a reads) (hl : s.ptw.level ≠ none) :
    s.ppnValid = false := by
  have hr := (h.active (Ptw.stateQ_ne_idle_of_level hl)).1
  simp [ppnValid, ppnValidPulse, hr, Ptw.respValid_of_level hl, (h.waiting hl).1]

/-- Nor in the cycle in which the TLB reports the miss. -/
theorem Owned.ppnValid_of_tlbMiss (h : s.Owned busBytes a reads) (hm : s.tlbMiss = true) :
    s.ppnValid = false := by
  simp only [tlbMiss, Bool.and_eq_true, Bool.not_eq_true'] at hm
  simp [ppnValid, ppnValidPulse, hm, (h.lookup hm.1).1]

theorem Owned.searching_of_tlbMiss (h : s.Owned busBytes a reads) (hm : s.tlbMiss = true) :
    a.searching ∧ a.translated = true := by
  simp only [tlbMiss, Bool.and_eq_true, Bool.not_eq_true'] at hm
  rcases (h.lookup hm.1).2 with hs | hhit
  · exact hs
  · simp [hm.2] at hhit

/-- An access that has all it needs leaves the walker at rest. -/
theorem Owned.rest_of_ready (h : s.Owned busBytes a reads)
    (hready : a.searching → a.translated = true → s.ppnValid = true) :
    s.ptw.level = none ∧ s.tlbMiss = false := by
  constructor
  · by_contra hl
    have hact := h.active (Ptw.stateQ_ne_idle_of_level hl)
    have hv := h.ppnValid_of_level hl
    rw [hready hact.2.1 hact.2.2.1] at hv
    exact absurd hv (by decide)
  · by_contra hm
    have hm' : s.tlbMiss = true := by simpa using hm
    obtain ⟨hs, ha⟩ := h.searching_of_tlbMiss hm'
    have hv := h.ppnValid_of_tlbMiss hm'
    rw [hready hs ha] at hv
    exact absurd hv (by decide)

variable (p busBytes i) in
/-- Nothing is outstanding after a cycle in which nothing was. -/
theorem nextReads_of_rest (hreads : reads = []) (hq : s.ptw.reqValidQ = false)
    (hv : s.ptwAValid = false) :
    s.nextReads i reads = [] ∧ (s.step p busBytes i).ptwAValid = false := by
  constructor
  · simp [nextReads, answered, issued, hreads, hq]
  · simp [step, hq, hv]

/-- Without a translated request the latch is set by a pulse and kept otherwise. -/
theorem ppnValidLatch_step (hq : i.reqValid = false) :
    (s.step p busBytes i).ppnValidLatch = s.ppnValid := by
  simp [step, TranslationIn.translates, hq, ppnValid]

theorem tlbRespValid_step (hq : i.reqValid = false) :
    (s.step p busBytes i).tlbRespValid = false := by
  simp [step, TranslationIn.translates, hq]

/-- A request is accepted.  Its lookup hits if the access does not wait for a walk. -/
theorem Owned.step_req (h : s.Owned busBytes a reads)
    (hready : a.searching → a.translated = true → s.ppnValid = true)
    (hlookup : i.translates = true → a'.searching ∧ a'.translated = true ∨
      s.tlb.lookup p.tlbSetsWidth (slice i.reqAddress 38 12) (atpAsid i.reqAtp) ≠ none) :
    (s.step p busBytes i).Owned busBytes a' (s.nextReads i reads) := by
  obtain ⟨hl, hm⟩ := h.rest_of_ready hready
  obtain ⟨hreads, hrq, hav⟩ := h.rest hl
  obtain ⟨hreads', hav'⟩ := nextReads_of_rest p busBytes i hreads hrq hav
  obtain ⟨hst, hrq'⟩ : (s.step p busBytes i).ptw.stateQ = .idle ∧
      (s.step p busBytes i).ptw.reqValidQ = s.ptw.reqValidQ := Ptw.step_rest hl hm
  have hlevel : (s.step p busBytes i).ptw.level = none := by simp [Ptw.level, hst]
  refine ⟨fun _ => ⟨hreads', hrq'.trans hrq, hav'⟩, fun hne => absurd hst hne,
    fun hne => absurd hlevel hne, fun hv => ?_⟩
  have htr : i.translates = true := hv
  refine ⟨by simp [step, htr], ?_⟩
  rcases hlookup htr with hs | hhit
  · exact .inl hs
  · right
    obtain ⟨e, he⟩ := Option.ne_none_iff_exists'.mp hhit
    have hresp := Tlb.resp_step (t := s.tlb) (i := s.tlbIn i) p.tlbSetsWidth htr
    have hsome : (s.step p busBytes i).tlb.resp = some (e.ppn, e.prot) := by
      refine hresp.trans ?_
      simp only [tlbIn]
      rw [he]
      rfl
    simp [Tlb.respHit, hsome]

/-- The outstanding read of a walker that goes on waiting. -/
theorem Owned.outstanding_wait (h : s.Owned busBytes a reads) (hl : s.ptw.level ≠ none)
    (hm : s.tlbMiss = false) (ha : s.answered i = false) :
    (s.step p busBytes i).ptw.vpnQ = s.ptw.vpnQ ∧ (s.step p busBytes i).ptw.level ≠ none ∧
      (s.step p busBytes i).Outstanding busBytes (s.nextReads i reads) := by
  have hptw : (s.step p busBytes i).ptw = s.ptw.sent (s.ptwIn p i) := Ptw.step_wait hl hm ha
  refine ⟨by rw [hptw]; rfl, by rw [hptw]; exact hl, ?_⟩
  have hout := (h.waiting hl).2
  cases hrq : s.ptw.reqValidQ
  · obtain ⟨hreads, hav, hadr⟩ := hout.sent hrq
    have hd : i.dValid = false := by simpa [answered, hav] using ha
    refine ⟨fun hq' => ?_, fun _ => ⟨?_, ?_, ?_⟩⟩
    · simp [hptw, Ptw.sent, hrq] at hq'
    · rw [hptw]
      simp [nextReads, ha, issued, hrq, hreads]
    · simp [step, hrq, hav, hd]
    · rw [hptw]
      simpa [step, hrq] using hadr
  · obtain ⟨hreads, hav⟩ := hout.unsent hrq
    cases hrdy : i.aReady
    · refine ⟨fun _ => ⟨?_, ?_⟩, fun hq' => ?_⟩
      · simp [nextReads, ha, issued, hrq, hreads, hrdy]
      · simp [step, hrq, hav, hrdy]
      · simp [hptw, Ptw.sent, hrq, ptwIn, hrdy] at hq'
    · refine ⟨fun hq' => ?_, fun _ => ⟨?_, ?_, ?_⟩⟩
      · simp [hptw, Ptw.sent, hrq, ptwIn, hrdy] at hq'
      · rw [hptw]
        simp [nextReads, ha, issued, hrq, hreads, hrdy]
      · simp [step, hrq, hrdy]
      · rw [hptw]
        simp [step, hrq, hrdy]

/-- The walker receives the entry that it waits for. -/
theorem Owned.outstanding_read (h : s.Owned busBytes a reads)
    (hasked : i.dValid = true → reads ≠ [])
    (hl : s.ptw.level ≠ none) (ha : s.answered i = true) :
    s.ptw.reqValidQ = false ∧ reads = [s.ptw.reqAddrQ] ∧
      s.ptwAAddress = cat s.ptw.reqAddrQ 3 0 % busBytes ∧
      s.nextReads i reads = [] ∧ (s.step p busBytes i).ptwAValid = false := by
  have hd : i.dValid = true := by
    simp only [answered, Bool.and_eq_true] at ha
    exact ha.1
  have hout := (h.waiting hl).2
  have hrq : s.ptw.reqValidQ = false := by
    cases hrq : s.ptw.reqValidQ
    · rfl
    · exact absurd (hout.unsent hrq).1 (hasked hd)
  obtain ⟨hreads, -, hadr⟩ := hout.sent hrq
  refine ⟨hrq, hreads, hadr, ?_, ?_⟩
  · simp [nextReads, ha, issued, hrq, hreads]
  · simp [step, hrq, hd]

section Hold
variable (h : s.Owned busBytes a reads) (hq : i.reqValid = false)
  (hasked : i.dValid = true → reads ≠ [])
  (hvpn : a'.vpn = a.vpn) (hatp : a'.translated = a.translated)
  (hsearch : a.searching → a.translated = true → s.ppnValid = false → a'.searching)
include h hq hvpn hatp hsearch

omit hvpn hatp hsearch in
/-- No walk is in progress and none is started. -/
theorem Owned.step_rest (hl : s.ptw.level = none) (hm : s.tlbMiss = false) :
    (s.step p busBytes i).Owned busBytes a' (s.nextReads i reads) := by
  obtain ⟨hreads, hrq, hav⟩ := h.rest hl
  obtain ⟨hreads', hav'⟩ := nextReads_of_rest p busBytes i hreads hrq hav
  obtain ⟨hst, hrq'⟩ : (s.step p busBytes i).ptw.stateQ = .idle ∧
      (s.step p busBytes i).ptw.reqValidQ = s.ptw.reqValidQ := Ptw.step_rest hl hm
  have hlevel : (s.step p busBytes i).ptw.level = none := by simp [Ptw.level, hst]
  exact ⟨fun _ => ⟨hreads', hrq'.trans hrq, hav'⟩, fun hne => absurd hst hne,
    fun hne => absurd hlevel hne, fun ht => absurd ht (by simp [tlbRespValid_step hq])⟩

/-- A TLB miss starts the walk of the access in flight. -/
theorem Owned.step_start (hreq : i.ptwReqVpn = a.vpn) (hl : s.ptw.level = none)
    (hm : s.tlbMiss = true) :
    (s.step p busBytes i).Owned busBytes a' (s.nextReads i reads) := by
  obtain ⟨hs, ha⟩ := h.searching_of_tlbMiss hm
  have hv := h.ppnValid_of_tlbMiss hm
  obtain ⟨hreads, hrq, hav⟩ := h.rest hl
  obtain ⟨hreads', hav'⟩ := nextReads_of_rest p busBytes i hreads hrq hav
  obtain ⟨hl', -, hrq', hvpn'⟩ : (s.step p busBytes i).ptw.level ≠ none ∧ _ ∧
      (s.step p busBytes i).ptw.reqValidQ = true ∧
      (s.step p busBytes i).ptw.vpnQ = i.ptwReqVpn := Ptw.step_start hm
  refine ⟨fun hn => absurd hn hl', fun _ => ⟨tlbRespValid_step hq, hsearch hs ha hv,
    hatp.trans ha, by rw [hvpn', hreq, hvpn]⟩,
    fun _ => ⟨(ppnValidLatch_step hq).trans hv, fun _ => ⟨hreads', hav'⟩, fun hn => ?_⟩,
    fun ht => absurd ht (by simp [tlbRespValid_step hq])⟩
  simp [hrq'] at hn

include hasked in
/-- The walker waits for an entry. -/
theorem Owned.step_level (hl : s.ptw.level ≠ none) :
    (s.step p busBytes i).Owned busBytes a' (s.nextReads i reads) := by
  obtain ⟨htv, hs, ha, hvpn'⟩ := h.active (Ptw.stateQ_ne_idle_of_level hl)
  have hm : s.tlbMiss = false := by simp [tlbMiss, htv]
  have hv := h.ppnValid_of_level hl
  have hs' := hsearch hs ha hv
  have htv' : (s.step p busBytes i).tlbRespValid = false := tlbRespValid_step hq
  have hlatch : (s.step p busBytes i).ppnValidLatch = false := (ppnValidLatch_step hq).trans hv
  cases hans : s.answered i
  · obtain ⟨hvpn'', hl', hout⟩ :=
      h.outstanding_wait (p := p) hl hm hans
    exact ⟨fun hn => absurd hn hl',
      fun _ => ⟨htv', hs', hatp.trans ha, by rw [hvpn'', hvpn, hvpn']⟩,
      fun _ => ⟨hlatch, hout⟩, fun ht => absurd ht (by simp [htv'])⟩
  · obtain ⟨hrq, -, -, hreads', hav'⟩ := h.outstanding_read (p := p) hasked hl hans
    obtain ⟨hvpn'', hcase⟩ : (s.step p busBytes i).ptw.vpnQ = s.ptw.vpnQ ∧ _ :=
      Ptw.step_read hl hm hans
    refine ⟨fun hn => ?_, fun _ => ⟨htv', hs', hatp.trans ha, by rw [hvpn'', hvpn, hvpn']⟩,
      fun hl' => ⟨hlatch, ?_⟩, fun ht => absurd ht (by simp [htv'])⟩
    · rcases hcase with ⟨hl', -⟩ | ⟨-, hrq'⟩
      · exact absurd hn hl'
      · exact ⟨hreads', hrq'.trans (by simp [Ptw.sent, hrq]), hav'⟩
    · rcases hcase with ⟨-, hrq'⟩ | ⟨hdone, -⟩
      · exact ⟨fun _ => ⟨hreads', hav'⟩, fun hq' => absurd (hrq'.symm.trans hq') (by decide)⟩
      · have hdone' : (s.step p busBytes i).ptw.stateQ = .done := hdone
        simp [Ptw.level, hdone'] at hl'

include hasked in
/-- A cycle without a request. -/
theorem Owned.step_hold (hreq : i.ptwReqVpn = a.vpn) :
    (s.step p busBytes i).Owned busBytes a' (s.nextReads i reads) := by
  by_cases hl : s.ptw.level = none
  · cases hm : s.tlbMiss
    · exact h.step_rest hq hl hm
    · exact h.step_start hq hvpn hatp hsearch hreq hl hm
  · exact h.step_level hq hasked hvpn hatp hsearch hl

end Hold

/-- A translation that has come stays until the next request. -/
theorem Owned.ppn_step (h : s.Owned busBytes a reads) (hq : i.reqValid = false)
    (hv : s.ppnValid = true) :
    (s.step p busBytes i).ppnValid = true ∧ (s.step p busBytes i).ppn = s.ppn := by
  obtain ⟨hl, hm⟩ := h.rest_of_ready fun _ _ => hv
  have hst : (s.step p busBytes i).ptw.stateQ = .idle := (Ptw.step_rest hl hm).1
  have hpulse : (s.step p busBytes i).ppnValidPulse = false := by
    simp [ppnValidPulse, tlbRespValid_step hq, Ptw.respValid, hst]
  have hlatch : (s.step p busBytes i).ppnValidLatch = s.ppnValid := ppnValidLatch_step hq
  constructor
  · simp only [ppnValid, hpulse, Bool.false_eq_true, if_false]
    rw [hlatch, hv]
  · simp only [ppn, hpulse, Bool.false_eq_true, if_false]
    rfl

/-- The translation of the access has come, or is being looked for. -/
def Underway (s : Translation n) : Prop :=
  s.ppnValid = true ∨ s.tlbMiss = true ∨ s.ptw.level ≠ none

theorem underway_step_req (hi : i.translates = true) : (s.step p busBytes i).Underway := by
  have htv : (s.step p busBytes i).tlbRespValid = true := hi
  cases hh : (s.step p busBytes i).tlb.respHit
  · exact .inr (.inl (by simp [tlbMiss, htv, hh]))
  · exact .inl (by simp [ppnValid, ppnValidPulse, htv, hh])

/-- The end of a walk is the translation. -/
theorem ppnValid_of_done (hq : i.reqValid = false)
    (hst : (s.step p busBytes i).ptw.stateQ = .done) : (s.step p busBytes i).ppnValid = true := by
  simp [ppnValid, ppnValidPulse, tlbRespValid_step hq, Ptw.respValid, hst]

theorem Underway.step (h : s.Underway) (hq : i.reqValid = false) :
    (s.step p busBytes i).Underway := by
  cases hm : s.tlbMiss
  · rcases h with hv | hm' | hl
    · have hlatch : (s.step p busBytes i).ppnValidLatch = true := by
        rw [ppnValidLatch_step hq, hv]
      exact .inl (by simp [ppnValid, hlatch])
    · simp [hm] at hm'
    · cases ha : s.answered i
      · right; right
        have hptw : (s.step p busBytes i).ptw = s.ptw.sent (s.ptwIn p i) := Ptw.step_wait hl hm ha
        rw [hptw]
        exact hl
      · obtain ⟨-, ⟨hl', -⟩ | ⟨hst, -⟩⟩ : _ ∧ ((s.step p busBytes i).ptw.level ≠ none ∧ _ ∨
            (s.step p busBytes i).ptw.stateQ = .done ∧ _) := Ptw.step_read hl hm ha
        · exact .inr (.inr hl')
        · exact .inl (ppnValid_of_done hq hst)
  · exact .inr (.inr (Ptw.step_start hm).1)

theorem Owned.of_isReset (h : s.IsReset p) : s.Owned busBytes a [] := by
  obtain ⟨-, htv, hst, hrq, hav, -⟩ := h
  refine ⟨fun _ => ⟨rfl, hrq, hav⟩, fun hne => absurd hst hne, fun hl => ?_,
    fun ht => absurd ht (by simp [htv])⟩
  simp [Ptw.level, hst] at hl

end Step

/-! ## Translations are those of the page tables -/

/-- The memory answers the oldest outstanding read with the bus word that holds the
entry, from the image `mem`. -/
def Reads (busBytes : ℕ) (mem : ℕ → ℕ) (reads : List ℕ) (i : TranslationIn) : Prop :=
  i.dValid = true → ∀ a ∈ reads.head?, tlAlignLoad i.dData (cat a 3 0 % busBytes) = mem a

structure Sound (p : TranslationParams) (mem : ℕ → ℕ) (root : ℕ) (a : Lookup)
    (s : Translation n) : Prop where
  walk : Ptw.Ok (fun a pte => mem a = pte) p.physAddrLen root s.ptw
  tlb : ∀ vpn ppn prot, s.tlb.Holds p.tlbSetsWidth vpn ppn prot →
    Sv39.Maps p.physAddrLen mem root vpn ppn prot
  answers : a.translated = true → s.Answers (Sv39.Maps p.physAddrLen mem root a.vpn)

section Sound
variable {p : TranslationParams} {busBytes : ℕ} {a a' : Lookup} {s : Translation n}
  {i : TranslationIn} {reads : List ℕ} {mem : ℕ → ℕ} {root : ℕ}

/-- The result of the walker is that of the tables, for the page of the access. -/
theorem Sound.refill (h : s.Sound p mem root a) (ho : s.Owned busBytes a reads)
    (hv : s.ptw.respValid = true) :
    Sv39.Maps p.physAddrLen mem root a.vpn s.ptw.respPpn s.ptw.respPerm := by
  have hst : s.ptw.stateQ ≠ .idle := by
    have : s.ptw.stateQ = .done := by simpa [Ptw.respValid] using hv
    simp [this]
  obtain ⟨o, hw, hs⟩ := Ptw.walk_of_respValid h.walk hv
  rw [← (ho.active hst).2.2.2, Sv39.Maps, ← Sv39.walk_of_walk hw]
  exact hs

/-- One cycle of the walker. -/
theorem Sound.walk_step (h : s.Sound p mem root a) (ho : s.Owned busBytes a reads)
    (hasked : i.dValid = true → reads ≠ []) (hreads : Reads busBytes mem reads i)
    (hroot : s.tlbMiss = true → slice i.reqAtp (p.physAddrLen - 13) 0 = root) :
    Ptw.Ok (fun a pte => mem a = pte) p.physAddrLen root (s.step p busBytes i).ptw := by
  have hR : s.answered i = true → mem s.ptw.reqAddrQ = (s.ptwIn p i).memRespData := by
    intro ha
    have hd : i.dValid = true := by
      simp only [answered, Bool.and_eq_true] at ha
      exact ha.1
    have hl : s.ptw.level ≠ none := fun hl => hasked hd (ho.rest hl).1
    obtain ⟨-, hone, hadr, -⟩ := ho.outstanding_read (p := p) hasked hl ha
    have := hreads hd s.ptw.reqAddrQ (by simp [hone])
    simp only [ptwIn, hadr]
    exact this.symm
  have hok := Ptw.ok_step (i := s.ptwIn p i) h.walk hR
  cases hm : s.tlbMiss
  · have hrv : (s.ptwIn p i).reqValid = false := hm
    rw [hrv, if_neg (by decide)] at hok
    exact hok
  · have hpt : (s.ptwIn p i).reqPtPpn = root := hroot hm
    have hrv : (s.ptwIn p i).reqValid = true := hm
    rw [hrv, if_pos rfl, hpt] at hok
    exact hok

/-- One cycle of the translation logic.  The access stays the same, or it is the request
that is looked up. -/
theorem Sound.step (h : s.Sound p mem root a) (ho : s.Owned busBytes a reads)
    (ho' : (s.step p busBytes i).Owned busBytes a' (s.nextReads i reads))
    (hasked : i.dValid = true → reads ≠ []) (hreads : Reads busBytes mem reads i)
    (hroot : s.tlbMiss = true → slice i.reqAtp (p.physAddrLen - 13) 0 = root)
    (hvpn : i.ptwReqVpn = a.vpn)
    (hhold : i.reqValid = false → a'.vpn = a.vpn ∧ a'.translated = a.translated)
    (hreq : i.reqValid = true →
      a'.vpn = slice i.reqAddress 38 12 ∧ a'.translated = atpMode i.reqAtp) :
    (s.step p busBytes i).Sound p mem root a' := by
  have hwalk := h.walk_step ho hasked hreads hroot
  have hptw : (s.step p busBytes i).ptw.respValid = true →
      Sv39.Maps p.physAddrLen mem root a'.vpn (s.step p busBytes i).ptw.respPpn
        (s.step p busBytes i).ptw.respPerm := by
    intro hv
    have hst : (s.step p busBytes i).ptw.stateQ = .done := by simpa [Ptw.respValid] using hv
    obtain ⟨o, hw, hso⟩ := Ptw.walk_of_respValid hwalk hv
    rw [← (ho'.active (by simp [hst])).2.2.2, Sv39.Maps, ← Sv39.walk_of_walk hw]
    exact hso
  refine ⟨hwalk, ?_, fun ha => ?_⟩
  · intro vpn ppn prot hh
    rcases Tlb.holds_of_step hh with hold | ⟨hv, rfl, rfl, rfl⟩
    · exact h.tlb vpn ppn prot hold
    · have := h.refill ho hv
      rw [← hvpn] at this
      exact this
  · cases hq : i.reqValid
    · obtain ⟨hv', ha'⟩ := hhold hq
      have hold := h.answers (ha'.symm.trans ha)
      rw [hv'] at hptw ⊢
      refine ⟨fun hl => hold.latch hl, fun hv => ?_, hptw⟩
      simp [tlbRespValid_step hq] at hv
    · obtain ⟨hv', ha'⟩ := hreq hq
      have htr : i.translates = true := by
        simp [TranslationIn.translates, hq, ha'.symm.trans ha]
      refine ⟨fun hl => ?_, fun _ b hb => ?_, hptw⟩
      · simp [Translation.step, htr] at hl
      · have hresp := Tlb.resp_step (t := s.tlb) (i := s.tlbIn i) p.tlbSetsWidth htr
        obtain ⟨e, he, rfl⟩ := Option.map_eq_some_iff.mp (hresp.symm.trans hb)
        rw [hv']
        exact h.tlb _ _ _ (Tlb.holds_of_lookup he)

theorem Sound.of_isReset (h : s.IsReset p)
    (hempty : ∀ vpn ppn prot, ¬s.tlb.Holds p.tlbSetsWidth vpn ppn prot) :
    s.Sound p mem root a := by
  obtain ⟨-, htv, hst, -, -, hlatch⟩ := h
  refine ⟨by simp [Ptw.Ok, hst], fun vpn ppn prot hh => absurd hh (hempty _ _ _), fun _ => ?_⟩
  exact ⟨fun hl => absurd hl (by simp [hlatch]), fun hv => absurd hv (by simp [htv]),
    fun hv => absurd hv (by simp [Ptw.respValid, hst])⟩

end Sound

end Translation

end Muntjac.Core

import Muntjac.Core.DcacheTags
import Muntjac.Core.TranslationWalk
import Muntjac.Tl.Beats

/-!
# The beats of a grant in the data cache

What the cache needs beyond its invariant in order not to wait in vain: its messages on
channel A are single beats, a walk is underway as long as the translation is missing, and
of a grant whose beats follow one another on channel D no beat is lost.  The refill FIFO
has room for all of them, and keeps the last one until it is consumed.

## Main definitions

* `DcacheMem.Live` — what a cycle preserves beyond `Inv`.
* `DcacheMem.Grants` — the memory's part in a cycle.
* `DcacheMem.Beats` — the refill FIFO against the position of channel D.
-/

namespace Muntjac.Core

open Sync Tl

/-- What the module is made for: a set index that lies in the page offset, addresses that
contain one, and a bus of at least a double word. -/
structure DcacheParams.Legal (p : DcacheParams) : Prop where
  setsWidth : p.setsWidth ≤ 6
  physAddrLen : 12 ≤ p.physAddrLen
  nonBurstSize : 3 ≤ p.nonBurstSize

namespace DcacheMem
variable {p : DcacheParams}

/-- The request of a refill or of an uncached access is one beat, and so are those of the
walker. -/
theorem len_of_memA (hp : p.Legal) {c : Dcache p} {i : DcacheIn} {a : AMsg}
    (ha : c.memA i = some a) : Burst.len p.burst a.opcode.hasData a.size = 0 := by
  have hmult : ∀ k, c.memAMult i k = some a →
      Burst.len p.burst a.opcode.hasData a.size = 0 := by
    intro k hk
    unfold Dcache.memAMult at hk
    split_ifs at hk
    · unfold Translation.ptwA at hk
      split_ifs at hk
      cases hk
      rfl
    · unfold Dcache.refillA at hk
      split at hk
      · simp at hk
      · split_ifs at hk
        all_goals (cases hk; rfl)
      · have hsize : (c.sizeQ : ℕ) ≤ p.nonBurstSize := by
          have := hp.nonBurstSize
          omega
        split_ifs at hk
        · cases hk
          rfl
        · cases hk
          simp [Burst.len, AOp.hasData, BurstParams.burstLen, DcacheParams.burst, hsize]
  unfold Dcache.memA ChannelArb.msg at ha
  obtain ⟨k, -, hk⟩ := Option.bind_eq_some_iff.mp ha
  exact hmult k hk

/-- What is needed beyond `Inv` for the cache not to wait in vain. -/
structure Live (s : DcacheMem p) : Prop where
  underway : s.sys.cache.Busy → atpMode s.sys.atp = true → s.sys.cache.tr.Underway
  waitTlb : s.sys.cache.stateQ = .waitTlb → atpMode s.sys.atp = true
  arb : s.sys.cache.memAArb.locked = false
  reqBurst : ∀ n, Burst.Counts p.burst s.sys.cache.reqBurst n 0
  flushIndex : s.sys.cache.flushIndexQ < 2 ^ p.setsWidth
  wbIndex : s.sys.cache.wbIndexQ < 2 ^ p.offsetWidth
  underRst : s.sys.cache.refillFifo.underRst = true → s.sys.cache.stateQ = .idle

section Step
variable {s : DcacheMem p} {i : DcacheIn}

theorem Live.underway_step (h : s.Live) (hb : (s.step i).sys.cache.Busy)
    (ha : atpMode (s.step i).sys.atp = true) : (s.step i).sys.cache.tr.Underway := by
  cases hq : i.reqValid
  · have hb' : s.sys.cache.Busy := DcacheSys.busy_of_step hq hb
    have ha' : atpMode s.sys.atp = true := by simpa [step, DcacheSys.step, hq] using ha
    exact (h.underway hb' ha').step hq
  · have ha' : atpMode i.reqAtp = true := by simpa [step, DcacheSys.step, hq] using ha
    refine Translation.underway_step_req ?_
    simp [TranslationIn.translates, Dcache.translationIn, hq, ha']

theorem Live.waitTlb_step (h : s.Live) (henv : s.Env i)
    (hs : (s.step i).sys.cache.stateQ = .waitTlb) : atpMode (s.step i).sys.atp = true := by
  have hn : s.sys.cache.nextStateQ i = .waitTlb := hs
  cases hq : i.reqValid
  · simp only [Dcache.nextStateQ, hq, Bool.false_eq_true, if_false] at hn
    have hatp : (s.step i).sys.atp = s.sys.atp := DcacheSys.atp_step hq
    rw [hatp]
    cases hst : s.sys.cache.stateQ <;> simp only [Dcache.caseState, hst] at hn
    case fetch =>
        rw [← henv.sys.atpHeld (by simp [Dcache.Busy, hst])]
        cases ho : s.sys.cache.outcome i <;> simp only [ho, reduceCtorEq] at hn
        by_contra ha
        simp only [Dcache.outcome] at ho
        split_ifs at ho
        all_goals simp_all
    case waitTlb => exact h.waitTlb hst
    case fill =>
        cases hm : s.sys.cache.missResp i with
        | none => simp [hm] at hn
        | some r => cases r <;> simp [hm] at hn
    all_goals
      try split_ifs at hn
      all_goals simp at hn
  · simp only [Dcache.nextStateQ, hq, if_true] at hn
    split_ifs at hn

/-- Every message on channel A is one beat. -/
theorem Live.memALast (h : s.Live) (hp : p.Legal) {a : AMsg}
    (ha : s.sys.cache.memA i = some a) : s.sys.cache.memALast a = true := by
  have hlen := len_of_memA hp ha
  have hcount := h.reqBurst (Burst.len p.burst a.opcode.hasData a.size)
  rw [Dcache.memALast, hcount.last_eq, hlen]
  rfl

theorem Live.arb_step (h : s.Live) (hp : p.Legal) :
    (s.step i).sys.cache.memAArb.locked = false := by
  change (s.sys.cache.memAArb.next (s.sys.cache.memAMult i) i.memAReady
    (((s.sys.cache.memA i).map s.sys.cache.memALast).getD false)).locked = false
  cases ha : s.sys.cache.memA i with
  | none =>
      have hmsg : s.sys.cache.memAArb.msg (s.sys.cache.memAMult i) = none := ha
      simp [ChannelArb.next, hmsg, h.arb]
  | some a => simp [ChannelArb.next, h.memALast hp ha, h.arb]

theorem Live.reqBurst_step (h : s.Live) (hp : p.Legal) (n : ℕ) :
    Burst.Counts p.burst (s.step i).sys.cache.reqBurst n 0 := by
  change Burst.Counts p.burst (s.sys.cache.nextReqBurst i) n 0
  unfold Dcache.nextReqBurst
  split
  · next a ha =>
    split_ifs
    · have hlen := len_of_memA hp ha
      have hcount := h.reqBurst (Burst.len p.burst a.opcode.hasData a.size)
      refine Burst.Counts.next_last ?_ n
      rw [hlen] at hcount ⊢
      exact hcount
    · exact h.reqBurst n
  · exact h.reqBurst n

theorem live_step (h : s.Live) (hp : p.Legal) (henv : s.Env i) : (s.step i).Live where
  underway := h.underway_step
  waitTlb := h.waitTlb_step henv
  arb := h.arb_step hp
  reqBurst := h.reqBurst_step hp
  flushIndex := by
    change s.sys.cache.nextFlushIndexQ < 2 ^ p.setsWidth
    unfold Dcache.nextFlushIndexQ
    split_ifs
    · exact Nat.mod_lt _ (Nat.two_pow_pos _)
    · exact h.flushIndex
  wbIndex := by
    change s.sys.cache.nextWbIndexQ i < 2 ^ p.offsetWidth
    unfold Dcache.nextWbIndexQ
    split
    · exact Nat.mod_lt _ (Nat.two_pow_pos _)
    · split_ifs
      · exact Nat.mod_lt _ (Nat.two_pow_pos _)
      · exact h.wbIndex
  underRst hr := by simp [step, DcacheSys.step, Dcache.step, Fifo.next] at hr

theorem live_of_isReset (h : s.IsReset) : s.Live where
  underway hb := absurd h.sys.cache.stateQ hb.1
  waitTlb := by simp [h.sys.cache.stateQ]
  arb := by simp [h.sys.cache.memAArb, ChannelArb.reset]
  reqBurst n := by
    rw [h.sys.cache.reqBurst]
    exact Burst.counts_reset p.burst n
  flushIndex := by simp [h.sys.cache.flushIndexQ]
  wbIndex := by simp [h.sys.cache.wbIndexQ]
  underRst _ := h.sys.cache.stateQ

end Step

/-! ## The beats of a grant -/

/-- The position of channel D after a cycle. -/
def nextPos (s : DcacheMem p) (q : Pos DMsg) (i : DcacheIn) : Pos DMsg :=
  match i.memD with
  | none => q
  | some d => if s.sys.cache.memDReady i then q.next chanD p.burst d else q

/-- A beat is offered on channel D and not accepted. -/
def Blocked (s : DcacheMem p) (i : DcacheIn) : Prop :=
  i.memD.isSome = true ∧ s.sys.cache.memDReady i = false

/-- The number of beats of the grant that channel D is in. -/
def grantBeats : Pos DMsg → ℕ
  | .idle => 0
  | .busy f n => if f.opcode = .grantData then n else 0

/-- The refill FIFO against the position `q` of channel D.  A beat that waits for channel E
is the last one of its grant; before the last beat there is room for those that come, and
the last one is kept until it is consumed. -/
structure Beats (s : DcacheMem p) (q : Pos DMsg) (i : DcacheIn) : Prop where
  tracks : Tracks chanD p.burst s.sys.cache.gntBurst q
  saved : s.sys.cache.refillBeatSavedQ = true →
    ∃ d, i.memDRefill = some d ∧ s.sys.cache.memDLast d = true
  empty : s.acq.isSome = true → s.sys.cache.refillBeatSavedQ = true →
    s.sys.cache.refillFifo.items = []
  room : s.acq.isSome = true → s.sys.cache.refillBeatSavedQ = false →
    s.sys.cache.refillFifo.items.length ≤ grantBeats q
  ended : s.sys.cache.missStateQ = .fill → s.sys.cache.missRefillSentQ = true → s.acq = none →
    ∃ l b, s.sys.cache.refillFifo.items = l ++ [b] ∧ b.last = true
  exclusive : ∀ b ∈ s.sys.cache.refillFifo.items, b.msg.denied = false →
    s.sys.cache.opQ ≠ .load → b.msg.param = toT

/-- The memory's part in a cycle: a beat on channel D fits the message that it belongs to,
grants are of whole lines, and an acquire for a write is denied or gives the permission to
write. -/
structure Grants (s : DcacheMem p) (q : Pos DMsg) (i : DcacheIn) : Prop where
  beat : ∀ d, i.memD = some d → q.Accepts chanD d
  size : ∀ d, i.memDRefill = some d → d.size = 6
  exclusive : ∀ b, s.sys.cache.refillFifoInsert i = some b → b.msg.denied = false →
    s.sys.cache.opQ ≠ .load → b.msg.param = toT

theorem grantBeats_le_done (q : Pos DMsg) : grantBeats q ≤ q.done := by
  cases q with
  | idle => exact Nat.le_refl 0
  | busy f n =>
      simp only [grantBeats, Pos.done]
      split_ifs <;> omega

/-- Inside a grant every beat is a beat of it. -/
theorem opcode_of_grantBeats {q : Pos DMsg} {d : DMsg} (hq : 0 < grantBeats q)
    (hd : q.Accepts chanD d) : d.opcode = .grantData := by
  cases q with
  | idle => simp [grantBeats] at hq
  | busy f n =>
      simp only [grantBeats] at hq
      split_ifs at hq with hf
      · rw [← hf]
        exact DMsg.opcode_of_header hd
      · omega

theorem memDRefill_of_memD {i : DcacheIn} {d : DMsg} (hd : i.memD = some d)
    (ho : d.opcode = .grantData) : i.memDRefill = some d := by
  simp [DcacheIn.memDRefill, hd, ho]

theorem memD_of_memDRefill {i : DcacheIn} {d : DMsg} (hd : i.memDRefill = some d) :
    i.memD = some d ∧ (d.opcode = .grant ∨ d.opcode = .grantData) := by
  simpa [DcacheIn.memDRefill, Option.filter_eq_some_iff] using hd

/-- The last beat of a grant has at most the index of the last place of the FIFO. -/
theorem len_lt_refillDepth {d : DMsg} (hs : d.size = 6) :
    chanD.len p.burst d < p.refillDepth := by
  have hlen : chanD.len p.burst d =
      if d.opcode.hasData then 2 ^ (d.size - p.nonBurstSize) - 1 else 0 :=
    Burst.len_eq (p := p.burst) _ (by simp [DcacheParams.burst, hs, chanD])
  have := Nat.two_pow_pos (6 - p.nonBurstSize)
  rw [hlen, hs, DcacheParams.refillDepth]
  split_ifs <;> omega

section Step
variable {s : DcacheMem p} {q : Pos DMsg} {i : DcacheIn}

/-- A beat of a grant that is not accepted is the last one, and waits for channel E. -/
theorem last_of_not_ready {c : Dcache p} {d : DMsg} (hd : i.memDRefill = some d)
    (hr : c.memDReadyRefill i = false) : i.memEReady = false ∧ c.memDLast d = true := by
  simp only [Dcache.memDReadyRefill, hd, Option.isSome_some, Bool.true_and, Bool.or_eq_false_iff,
    Option.isNone_eq_false_iff] at hr
  obtain ⟨he, hno⟩ := hr
  refine ⟨hno, ?_⟩
  unfold Dcache.memE at he
  split_ifs at he
  · simp at he
  · by_contra hl
    simp [hd, hl] at he

theorem memDReady_of_refill {c : Dcache p} {d : DMsg} (hd : i.memDRefill = some d) :
    c.memDReady i = c.memDReadyRefill i := by
  simp [Dcache.memDReady, hd]

theorem Beats.memDLast_eq (h : s.Beats q i) {d : DMsg} (hd : q.Accepts chanD d) :
    s.sys.cache.memDLast d = decide (q.done = chanD.len p.burst d) := h.tracks.last_eq hd

theorem Beats.tracks_step (h : s.Beats q i) (hg : s.Grants q i) :
    Tracks chanD p.burst (s.step i).sys.cache.gntBurst (s.nextPos q i) := by
  change Tracks chanD p.burst (s.sys.cache.nextGntBurst i) _
  unfold Dcache.nextGntBurst nextPos
  cases hd : i.memD with
  | none => exact h.tracks
  | some d =>
      simp only
      split_ifs
      · exact h.tracks.next (hg.beat d hd)
      · exact h.tracks

/-- The beat that is stored and not accepted was offered in the cycle before. -/
theorem Beats.of_saved (h : s.Beats q i)
    (hs : (s.step i).sys.cache.refillBeatSavedQ = true) :
    ∃ d, i.memDRefill = some d ∧ s.sys.cache.memDReadyRefill i = false := by
  have hs' : s.sys.cache.nextRefillBeatSavedQ i = true := hs
  unfold Dcache.nextRefillBeatSavedQ at hs'
  cases hd : i.memDRefill with
  | some d => exact ⟨d, rfl, by simpa [hd] using hs'⟩
  | none =>
      obtain ⟨d, hd', -⟩ := h.saved (by simpa [hd] using hs')
      simp [hd] at hd'

theorem blocked_of_not_ready {d : DMsg} (hd : i.memDRefill = some d)
    (hr : s.sys.cache.memDReadyRefill i = false) : s.Blocked i :=
  ⟨by simp [(memD_of_memDRefill hd).1], by rw [memDReady_of_refill hd, hr]⟩

/-- A beat that is not accepted stays on the channel. -/
theorem Beats.saved_step (h : s.Beats q i) {i' : DcacheIn}
    (hold : s.Blocked i → i'.memD = i.memD)
    (hs : (s.step i).sys.cache.refillBeatSavedQ = true) :
    ∃ d, i'.memDRefill = some d ∧ (s.step i).sys.cache.memDLast d = true := by
  obtain ⟨d, hd, hr⟩ := h.of_saved hs
  obtain ⟨hm, -⟩ := memD_of_memDRefill hd
  have hready : s.sys.cache.memDReady i = false := by rw [memDReady_of_refill hd, hr]
  have hhold := hold (blocked_of_not_ready hd hr)
  refine ⟨d, ?_, ?_⟩
  · simpa [DcacheIn.memDRefill, hhold] using hd
  · have hcount : (s.step i).sys.cache.gntBurst = s.sys.cache.gntBurst := by
      change s.sys.cache.nextGntBurst i = _
      simp [Dcache.nextGntBurst, hm, hready]
    have hlast := (last_of_not_ready hd hr).2
    simpa only [Dcache.memDLast, hcount] using hlast

/-- The acquire that is outstanding after a cycle. -/
theorem acq_step (hs : (s.step i).acq.isSome = true) : s.sys.cache.acquires i = true ∨
    s.acq.isSome = true ∧ s.sys.cache.grantLast i = none := by
  simp only [step] at hs
  split_ifs at hs with ha hl
  · exact .inl ha
  · simp at hs
  · exact .inr ⟨hs, by simpa using hl⟩

/-- No beat is stored or arrives when an acquire is sent. -/
theorem Inv.items_of_acquires (h : s.Inv) (henv : s.Env i)
    (ha : s.sys.cache.acquires i = true) : (s.step i).sys.cache.refillFifo.items = [] := by
  simp only [Dcache.acquires, Bool.and_eq_true, Bool.not_eq_true', beq_iff_eq] at ha
  obtain ⟨⟨-, hsent⟩, -⟩ := ha
  refine List.eq_nil_iff_forall_not_mem.mpr fun b hb => ?_
  rcases mem_items_step hb with ⟨-, hins⟩ | hmem
  · simp [(h.of_insert henv hins).2.2] at hsent
  · simp [(h.fifo.filling (.inl (List.ne_nil_of_mem hmem))).2] at hsent

/-- The FIFO gets shorter, unless a beat arrives. -/
theorem length_items_step : (s.step i).sys.cache.refillFifo.items.length ≤
    s.sys.cache.refillFifo.items.length + (s.sys.cache.refillFifoInsert i).toList.length := by
  change (s.sys.cache.refillFifo.next _ (s.sys.cache.refillFifoInsert i) _).items.length ≤ _
  have hpush : (s.sys.cache.refillFifo.push p.refillDepth (s.sys.cache.refillFifoInsert i)).length ≤
      s.sys.cache.refillFifo.items.length + (s.sys.cache.refillFifoInsert i).toList.length := by
    unfold Fifo.push
    split_ifs
    · omega
    · rw [List.length_append]
  simp only [Fifo.next]
  split_ifs
  · rw [List.length_tail]
    omega
  · exact hpush

theorem refillFifoInsert_eq_none {c : Dcache p} (h : c.refillFifoInsert i = none) :
    c.refillBeatSavedQ = true ∨ i.memDRefill = none := by
  unfold Dcache.refillFifoInsert at h
  split_ifs at h with hs
  · exact .inl hs
  · exact .inr (by simpa using h)

theorem of_refillFifoInsert {c : Dcache p} {b : RefillBeat} (h : c.refillFifoInsert i = some b) :
    c.refillBeatSavedQ = false ∧ i.memDRefill = some b.msg ∧ b.last = c.memDLast b.msg := by
  unfold Dcache.refillFifoInsert at h
  split_ifs at h with hs
  obtain ⟨d, hd, rfl⟩ := Option.map_eq_some_iff.mp h
  exact ⟨by simpa using hs, hd, rfl⟩

/-- A beat that is not the last one of its grant is accepted at once. -/
theorem Beats.position_of_insert (h : s.Beats q i) (hg : s.Grants q i) {b : RefillBeat}
    (hb : s.sys.cache.refillFifoInsert i = some b) (hl : b.last = false) :
    grantBeats (s.nextPos q i) = q.done + 1 ∧ q.done < p.refillDepth - 1 ∧
      s.sys.cache.memDReadyRefill i = true := by
  obtain ⟨-, hd, hlast⟩ := of_refillFifoInsert hb
  obtain ⟨hm, ho⟩ := memD_of_memDRefill hd
  have hacc := hg.beat _ hm
  have hready : s.sys.cache.memDReadyRefill i = true := by
    by_contra hr
    have := (last_of_not_ready hd (by simpa using hr)).2
    rw [← hlast, hl] at this
    simp at this
  have hne : q.done ≠ chanD.len p.burst b.msg := by
    rw [hl, h.memDLast_eq hacc] at hlast
    simpa using hlast.symm
  have hle : q.done ≤ chanD.len p.burst b.msg := (h.tracks _ hacc).1
  have hdepth := len_lt_refillDepth (p := p) (hg.size _ hd)
  obtain ⟨f, hnext, hf⟩ := Pos.next_of_ne_last hne hacc
  have hdata : f.opcode = .grantData := by
    rw [← DMsg.opcode_of_header hf]
    refine ho.resolve_left fun hgrant => ?_
    have : chanD.len p.burst b.msg = 0 := by
      simp [Chan.len, chanD, hgrant, DOp.hasData, Burst.len]
    omega
  refine ⟨?_, by omega, hready⟩
  simp [nextPos, hm, memDReady_of_refill hd, hready, hnext, grantBeats, hdata]

/-- While no beat of a grant arrives, the position in it stays. -/
theorem Beats.position_of_not_insert (hg : s.Grants q i) (hd : i.memDRefill = none) :
    grantBeats q = 0 ∨ s.nextPos q i = q := by
  by_cases hq : grantBeats q = 0
  · exact .inl hq
  · refine .inr ?_
    cases hm : i.memD with
    | none => simp [nextPos, hm]
    | some d =>
        have ho := opcode_of_grantBeats (Nat.pos_of_ne_zero hq) (hg.beat d hm)
        simp [memDRefill_of_memD hm ho] at hd

theorem Beats.room_step (h : s.Beats q i) (hinv : s.Inv) (henv : s.Env i) (hg : s.Grants q i)
    (ha : (s.step i).acq.isSome = true) :
    (s.step i).sys.cache.refillFifo.items.length ≤ grantBeats (s.nextPos q i) := by
  rcases acq_step ha with hacq | ⟨hacq, hgl⟩
  · rw [hinv.items_of_acquires henv hacq]
    exact Nat.zero_le _
  · have hle := length_items_step (s := s) (i := i)
    cases hins : s.sys.cache.refillFifoInsert i with
    | some b =>
        obtain ⟨hsaved, -, -⟩ := of_refillFifoInsert hins
        have hl : b.last = false := by
          by_contra hl
          simp [Dcache.grantLast, hins, hl] at hgl
        obtain ⟨hpos, -, -⟩ := h.position_of_insert hg hins hl
        have hroom := h.room hacq hsaved
        have hdone := grantBeats_le_done q
        rw [hins, Option.toList_some, List.length_singleton] at hle
        omega
    | none =>
        rw [hins, Option.toList_none, List.length_nil, Nat.add_zero] at hle
        cases hs : s.sys.cache.refillBeatSavedQ
        · have hroom := h.room hacq hs
          have hd := (refillFifoInsert_eq_none hins).resolve_left (by simp [hs])
          rcases Beats.position_of_not_insert hg hd with hz | hsame
          · omega
          · rw [hsame]
            omega
        · rw [h.empty hacq hs] at hle
          simp only [List.length_nil] at hle
          omega

theorem Beats.empty_step (h : s.Beats q i) (hinv : s.Inv) (henv : s.Env i)
    (ha : (s.step i).acq.isSome = true) (hs : (s.step i).sys.cache.refillBeatSavedQ = true) :
    (s.step i).sys.cache.refillFifo.items = [] := by
  rcases acq_step ha with hacq | ⟨hacq, hgl⟩
  · exact hinv.items_of_acquires henv hacq
  · have hs' : s.sys.cache.nextRefillBeatSavedQ i = true := hs
    have hle := length_items_step (s := s) (i := i)
    cases hsaved : s.sys.cache.refillBeatSavedQ
    · -- the beat that waits would be the last one, and end the grant
      exfalso
      unfold Dcache.nextRefillBeatSavedQ at hs'
      split_ifs at hs' with hr
      · obtain ⟨d, hd⟩ := Option.isSome_iff_exists.mp hr
        have hlast := (last_of_not_ready hd (by simpa using hs')).2
        simp [Dcache.grantLast, Dcache.refillFifoInsert, hsaved, hd, hlast] at hgl
      · simp [hsaved] at hs'
    · have hins : s.sys.cache.refillFifoInsert i = none := by
        simp [Dcache.refillFifoInsert, hsaved]
      rw [hins, Option.toList_none, List.length_nil, Nat.add_zero, h.empty hacq hsaved] at hle
      exact List.eq_nil_of_length_eq_zero (by simpa using hle)

/-- What the FIFO holds after the refill machine has taken its front. -/
theorem items_step_of_push {l : List RefillBeat} {b : RefillBeat}
    (hpush : s.sys.cache.refillFifo.push p.refillDepth (s.sys.cache.refillFifoInsert i) =
      l ++ [b]) (hb : b.last = true) (hl : s.sys.cache.refillLast i = none)
    (hfront : l = [] → s.sys.cache.refillFront i = some b) :
    ∃ l', (s.step i).sys.cache.refillFifo.items = l' ++ [b] := by
  change ∃ l', (s.sys.cache.refillFifo.next _ (s.sys.cache.refillFifoInsert i)
    (s.sys.cache.refillBeat i).isSome).items = l' ++ [b]
  simp only [Fifo.next]
  split_ifs with hpop
  · rw [hpush]
    cases l with
    | cons a l => exact ⟨l, rfl⟩
    | nil =>
        exfalso
        simp only [Bool.and_eq_true] at hpop
        obtain ⟨b', hb'⟩ := Option.isSome_iff_exists.mp hpop.1
        have hbeat := hb'
        unfold Dcache.refillBeat at hb'
        split_ifs at hb'
        rw [hfront rfl, Option.some.injEq] at hb'
        subst hb'
        simp [Dcache.refillLast, hbeat, hb] at hl
  · exact ⟨l, hpush⟩

theorem Beats.ended_step (h : s.Beats q i) (hinv : s.Inv) (hlive : s.Live) (henv : s.Env i)
    (hg : s.Grants q i) (hm : (s.step i).sys.cache.missStateQ = .fill)
    (hsent : (s.step i).sys.cache.missRefillSentQ = true) (ha : (s.step i).acq = none) :
    ∃ l b, (s.step i).sys.cache.refillFifo.items = l ++ [b] ∧ b.last = true := by
  have hacq : s.sys.cache.acquires i = false := by
    cases hacq : s.sys.cache.acquires i
    · rfl
    · simp [step, hacq] at ha
  obtain ⟨hm', hsent', hlast⟩ : s.sys.cache.missStateQ = .fill ∧
      s.sys.cache.missRefillSentQ = true ∧ s.sys.cache.refillLast i = none := by
    have hmiss : s.sys.cache.nextMissStateQ i = .fill := hm
    have hsent' : s.sys.cache.nextMissRefillSentQ i = true := hsent
    unfold Dcache.nextMissStateQ at hmiss
    unfold Dcache.nextMissRefillSentQ at hsent'
    cases hs : s.sys.cache.missStateQ <;> simp only [hs] at hmiss hsent'
    · split_ifs at hmiss with hreq
      simp [hreq] at hsent'
    · refine ⟨rfl, ?_, ?_⟩
      · by_contra hno
        simp only [Bool.or_eq_true, hno, or_false] at hsent'
        simp [Dcache.acquires, hs, hno, hsent'] at hacq
      · cases hl : s.sys.cache.refillLast i with
        | none => rfl
        | some b =>
            simp only [hl] at hmiss
            split_ifs at hmiss
    · split_ifs at hmiss
  have hrst : s.sys.cache.refillFifo.underRst = false := by
    by_contra hr
    have := hlive.underRst (by simpa using hr)
    simp [hinv.fill_of_miss hm'] at this
  cases hgl : s.sys.cache.grantLast i with
  | some b =>
      have hins : s.sys.cache.refillFifoInsert i = some b ∧ b.last = true := by
        simpa [Dcache.grantLast, Option.filter_eq_some_iff] using hgl
      obtain ⟨hsaved, hd, hbl⟩ := of_refillFifoInsert hins.1
      obtain ⟨hmd, -⟩ := memD_of_memDRefill hd
      have hroom := h.room (henv.grantAsked (by simp [hins.1])) hsaved
      have hdone := grantBeats_le_done q
      have hle : q.done ≤ chanD.len p.burst b.msg := (h.tracks _ (hg.beat _ hmd)).1
      have hdepth := len_lt_refillDepth (p := p) (hg.size _ hd)
      have hpush : s.sys.cache.refillFifo.push p.refillDepth (s.sys.cache.refillFifoInsert i) =
          s.sys.cache.refillFifo.items ++ [b] := by
        have hfull : ¬p.refillDepth ≤ s.sys.cache.refillFifo.items.length := by omega
        simp [Fifo.push, hrst, hfull, hins.1]
      obtain ⟨l, hl⟩ := items_step_of_push hpush hins.2 hlast fun hnil => by
        simp [Dcache.refillFront, Fifo.front, hrst, hnil, hins.1]
      exact ⟨l, b, hl, hins.2⟩
  | none =>
      have hnone : s.acq = none := by simpa [step, hacq, hgl] using ha
      have hins : s.sys.cache.refillFifoInsert i = none := by
        by_contra hne
        have := henv.grantAsked (Option.isSome_iff_ne_none.mpr hne)
        simp [hnone] at this
      obtain ⟨l, b, hitems, hb⟩ := h.ended hm' hsent' hnone
      have hpush : s.sys.cache.refillFifo.push p.refillDepth (s.sys.cache.refillFifoInsert i) =
          l ++ [b] := by
        simp [Fifo.push, hins, hitems]
      obtain ⟨l', hl'⟩ := items_step_of_push hpush hb hlast fun hnil => by
        simp [Dcache.refillFront, Fifo.front, hrst, hitems, hnil]
      exact ⟨l', b, hl', hb⟩

theorem Beats.exclusive_step (h : s.Beats q i) (hinv : s.Inv) (hp : p.Legal) (henv : s.Env i)
    (hg : s.Grants q i) :
    ∀ b ∈ (s.step i).sys.cache.refillFifo.items, b.msg.denied = false →
      (s.step i).sys.cache.opQ ≠ .load → b.msg.param = toT := by
  intro b hb hd ho
  have hm : s.sys.cache.missStateQ = .fill := by
    rcases mem_items_step hb with ⟨-, hins⟩ | hmem
    · exact (hinv.of_insert henv hins).2.1
    · exact (hinv.fifo.filling (.inl (List.ne_nil_of_mem hmem))).1
  obtain ⟨hq, -, -⟩ := hinv.fill hp.physAddrLen henv.sys (hinv.fill_of_miss hm)
  have ho' : s.sys.cache.opQ ≠ .load := by
    simpa [step, DcacheSys.step, Dcache.step, hq] using ho
  rcases mem_items_step hb with ⟨-, hins⟩ | hmem
  · exact hg.exclusive b hins hd ho'
  · exact h.exclusive b hmem hd ho'

theorem beats_step (h : s.Beats q i) (hinv : s.Inv) (hlive : s.Live) (hp : p.Legal)
    (henv : s.Env i) (hg : s.Grants q i) {i' : DcacheIn}
    (hold : s.Blocked i → i'.memD = i.memD) : (s.step i).Beats (s.nextPos q i) i' where
  tracks := h.tracks_step hg
  saved := h.saved_step hold
  empty := h.empty_step hinv henv
  room ha _ := h.room_step hinv henv hg ha
  ended := h.ended_step hinv hlive henv hg
  exclusive := h.exclusive_step hinv hp henv hg

theorem beats_of_isReset (h : s.IsReset) : s.Beats .idle i where
  tracks := by
    rw [h.sys.cache.gntBurst]
    exact tracks_reset
  saved hs := by simp [h.sys.cache.refillBeatSavedQ] at hs
  empty ha := by simp [h.acq] at ha
  room ha := by simp [h.acq] at ha
  ended hm := by simp [h.sys.cache.missStateQ] at hm
  exclusive := by simp [h.sys.cache.refillFifo, Fifo.reset]

end Step

end DcacheMem

end Muntjac.Core

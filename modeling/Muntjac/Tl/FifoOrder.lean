import Muntjac.Tl.FifoTracker

/-!
# The FIFO converter restores the order

Whatever the order of the device, the host gets the responses in the order of its requests, with
its own sources.  A slot is given to a new request when the last beat of its response has gone to
the output register, which may be before the host has taken this beat.

## Main definitions

* `replay` — the responses as the host should see them.
* `RunInv` — the invariant of a run.

## Main results

* `fifo_ordered` — the order, the reuse of the device sources, and progress.
* `reused_before_delivery` — a device source is reused while a beat waits for the host.
-/

namespace Muntjac.Tl.FifoConverter

open Sync

variable {p : FifoParams} {s : FifoConverter} {i : FifoConverterIn}

/-! ## The responses for the host -/

/-- A beat of the response to the request `r`, with the source of the request. -/
def tag (r : AMsg) (y : DMsg) : DMsg := { y with source := r.source }

/-- The responses `rs` to the first requests. -/
def replay (reqs : List AMsg) (rs : List (List DMsg)) : List DMsg :=
  (reqs.zip rs).flatMap fun a => a.2.map (tag a.1)

section Replay
variable {reqs : List AMsg} {rs : List (List DMsg)} {m : List DMsg} {r x : AMsg}

theorem replay_concat (reqs : List AMsg) (rs : List (List DMsg)) (m : List DMsg) :
    replay reqs (rs ++ [m]) =
      replay reqs rs ++ (reqs[rs.length]?).toList.flatMap fun r => m.map (tag r) := by
  induction rs generalizing reqs with
  | nil => cases reqs <;> simp [replay]
  | cons m' rs ih =>
      cases reqs with
      | nil => simp [replay]
      | cons r reqs =>
          have h := ih reqs
          simp only [replay] at h
          simp [replay, h]

theorem replay_concat_of_get (hr : reqs[rs.length]? = some r) (m : List DMsg) :
    replay reqs (rs ++ [m]) = replay reqs rs ++ m.map (tag r) := by
  rw [replay_concat, hr]
  simp

@[simp] theorem replay_concat_nil (reqs : List AMsg) (rs : List (List DMsg)) :
    replay reqs (rs ++ [[]]) = replay reqs rs := by
  rw [replay_concat]
  cases reqs[rs.length]? <;> simp

/-- Requests that are not answered yet. -/
theorem replay_append (h : rs.length ≤ reqs.length) (xs : List AMsg) :
    replay (reqs ++ xs) rs = replay reqs rs := by
  induction rs generalizing reqs with
  | nil => simp [replay]
  | cons m rs ih =>
      cases reqs with
      | nil => simp at h
      | cons r reqs =>
          have hrec := ih (Nat.le_of_succ_le_succ h)
          simp only [replay] at hrec
          simp [replay, hrec]

theorem replay_concat_append (h : rs.length ≤ reqs.length) (hm : m ≠ [] → rs.length < reqs.length)
    (xs : List AMsg) : replay (reqs ++ xs) (rs ++ [m]) = replay reqs (rs ++ [m]) := by
  by_cases hnil : m = []
  · rw [hnil, replay_concat_nil, replay_concat_nil, replay_append h]
  · rw [replay_concat, replay_concat, replay_append h, List.getElem?_append_left (hm hnil)]

end Replay

/-! ## The output register -/

section Output
variable {ans : ℕ → ℕ} {reqs : List AMsg} {ms rs : List (List DMsg)} {part cur : List DMsg}

/-- The responses `rs` have gone to the output register, and the beginning `cur` of the next. -/
structure Replays (p : FifoParams) (ans : ℕ → ℕ) (ms rs : List (List DMsg)) (cur : List DMsg)
    (b : Burst) : Prop where
  done : ∀ n m, rs[n]? = some m → ∃ j, ans j = n ∧ ms[j]? = some m
  idle : cur = [] → ∀ n, Burst.Counts p.burst b n 0
  busy : cur ≠ [] → ∃ j m, ans j = rs.length ∧ ms[j]? = some m ∧ cur <+: m ∧
    cur.length < m.length ∧ Burst.Counts p.burst b (m.length - 1) cur.length

theorem Replays.mono (h : Replays p ans ms rs cur s.tmpGnt) {ms' : List (List DMsg)}
    (hms : ms <+: ms') : Replays p ans ms' rs cur s.tmpGnt := by
  refine ⟨fun n m hm => ?_, h.idle, fun hne => ?_⟩
  · obtain ⟨j, hj, hm'⟩ := h.done n m hm
    exact ⟨j, hj, getElem?_of_prefix hms hm'⟩
  · obtain ⟨j, m, hj, hm, hrest⟩ := h.busy hne
    exact ⟨j, m, hj, getElem?_of_prefix hms hm, hrest⟩

/-- The beat that goes to the output register next. -/
structure NextBeat (p : FifoParams) (ans : ℕ → ℕ) (reqs : List AMsg) (ms rs : List (List DMsg))
    (cur : List DMsg) (s : FifoConverter) (m : List DMsg) (y : DMsg) (r : AMsg) : Prop where
  answer : ∃ j, ans j = rs.length ∧ ms[j]? = some m
  request : reqs[rs.length]? = some r
  take : cur <+: m
  beat : m[cur.length]? = some y
  length : m.length = chanD.len p.burst y + 1
  counts : Burst.Counts p.burst s.tmpGnt (chanD.len p.burst y) cur.length
  last : tmpDLast p s = decide (m = cur ++ [y])
  ctrl : tmpD s = y.ctrl
  data : readData p s = y.payload
  source : s.trackerSource s.trackerDIdx = r.source

theorem eq_concat_iff {α : Type*} {l m : List α} {y : α} (h : l <+: m)
    (hy : m[l.length]? = some y) : m = l ++ [y] ↔ m.length = l.length + 1 := by
  obtain ⟨l', rfl⟩ := h
  rw [List.getElem?_append_right (Nat.le_refl _), Nat.sub_self] at hy
  rw [List.append_cancel_left_eq, List.length_append, Nat.add_left_cancel_iff,
    List.length_eq_one_iff]
  constructor
  · exact fun h => ⟨y, h⟩
  · rintro ⟨z, rfl⟩
    simpa using hy

theorem exists_nextBeat (hans : Function.Injective ans)
    (h : Slots p ans reqs ms part rs.length s) (hr : Replays p ans ms rs cur s.tmpGnt)
    (hv : tmpDValid s = true) : ∃ m y r, NextBeat p ans reqs ms rs cur s m y r := by
  have hN := p.numTracker_pos
  unfold tmpDValid at hv
  rw [h.dIdx] at hv
  obtain ⟨-, j, hj, hjR⟩ := h.ready.of_apply (Nat.le_refl _) (by omega) hv
  obtain ⟨m, hm⟩ : ∃ m, ms[j]? = some m := ⟨_, List.getElem?_eq_getElem hj⟩
  have hlt := h.lt_of_answered hm
  rw [hjR] at hlt
  have hmsg := h.message m (List.mem_of_getElem? hm)
  -- what has been replayed belongs to the same message
  have hcur : cur <+: m ∧ cur.length < m.length ∧
      Burst.Counts p.burst s.tmpGnt (m.length - 1) cur.length := by
    by_cases hnil : cur = []
    · refine ⟨hnil ▸ List.nil_prefix, ?_, ?_⟩
      · rw [hnil]
        exact List.length_pos_of_ne_nil hmsg.ne_nil
      · have hidle := hr.idle hnil (m.length - 1)
        rwa [hnil]
    · obtain ⟨j', m', hj', hm', hrest⟩ := hr.busy hnil
      have hjj : j' = j := hans (hj'.trans hjR.symm)
      rw [hjj, hm, Option.some_inj] at hm'
      rwa [hm']
  obtain ⟨hpre, hlen, hcounts⟩ := hcur
  obtain ⟨y, hy⟩ : ∃ y, m[cur.length]? = some y := ⟨_, List.getElem?_eq_getElem hlen⟩
  obtain ⟨r, hreq⟩ : ∃ r, reqs[rs.length]? = some r := ⟨_, List.getElem?_eq_getElem hlt⟩
  have hmem := List.mem_of_getElem? hy
  have hlast := hmsg.length y hmem
  rw [show m.length - 1 = chanD.len p.burst y by omega] at hcounts
  have hctrl : tmpD s = y.ctrl := by
    have hctrl := h.ctrl j m y hm hmem hjR.ge
    rw [hjR, ← h.dIdx] at hctrl
    exact hctrl
  refine ⟨m, y, r, ⟨j, hjR, hm⟩, hreq, hpre, hy, hlast, hcounts, ?_, hctrl, ?_, ?_⟩
  · unfold tmpDLast
    rw [hctrl]
    refine hcounts.last_eq.trans (decide_eq_decide.mpr ?_)
    rw [eq_concat_iff hpre hy, hlast, Nat.add_right_cancel_iff, eq_comm]
    rfl
  · have hidx : Burst.idx p.burst s.tmpGnt y.ctrl.opcode.hasData y.ctrl.size = cur.length :=
      hcounts.idx_eq
    have hdata := h.data j m cur.length y (by rw [List.getElem?_append_left hj]; exact hm) hy hjR.ge
    rw [hjR, ← h.dIdx] at hdata
    unfold readData
    rw [hctrl, hidx, hdata]
  · rw [h.dIdx]
    exact h.source _ r (Nat.le_refl _) hreq

/-- The counter after the transfer of a beat, and what has been replayed then. -/
theorem Replays.step (hr : Replays p ans ms rs cur s.tmpGnt) {m : List DMsg} {y : DMsg} {r : AMsg}
    (h : NextBeat p ans reqs ms rs cur s m y r) :
    ∃ rs' cur', Replays p ans ms rs' cur'
        (s.tmpGnt.next p.burst (tmpD s).opcode.hasData (tmpD s).size) ∧
      replay reqs (rs' ++ [cur']) = replay reqs (rs ++ [cur]) ++ [tag r y] ∧
      if tmpDLast p s then rs' = rs ++ [m] ∧ cur' = []
      else rs' = rs ∧ cur' = cur ++ [y] := by
  obtain ⟨j, hj, hm⟩ := h.answer
  rw [h.ctrl, h.last, replay_concat_of_get h.request, List.append_assoc]
  by_cases hlast : m = cur ++ [y]
  · have hlen := (eq_concat_iff h.take h.beat).mp hlast
    refine ⟨rs ++ [m], [], ⟨fun n m' hm' => ?_, fun _ n => ?_, by simp⟩, ?_, by simp [hlast]⟩
    · rcases Nat.lt_or_ge n rs.length with hn | hn
      · rw [List.getElem?_append_left hn] at hm'
        exact hr.done n m' hm'
      · have hn' := (List.getElem?_eq_some_iff.mp hm').1
        rw [List.length_append, List.length_singleton] at hn'
        obtain rfl : n = rs.length := by omega
        rw [List.getElem?_concat_length, Option.some_inj] at hm'
        exact ⟨j, hj, hm' ▸ hm⟩
    · have hcounts := h.counts
      rw [show cur.length = chanD.len p.burst y by have := h.length; omega] at hcounts
      exact hcounts.next_last n
    · rw [replay_concat_nil, replay_concat_of_get h.request, hlast, List.map_append]
      rfl
  · have hlen := mt (eq_concat_iff h.take h.beat).mpr hlast
    have hle := h.counts.1
    have hlength := h.length
    have hpre : cur ++ [y] <+: m := by
      obtain ⟨l, hl⟩ := h.take
      have hbeat := h.beat
      rw [← hl, List.getElem?_append_right (Nat.le_refl _), Nat.sub_self] at hbeat
      cases l with
      | nil => simp at hbeat
      | cons z l =>
          obtain rfl : z = y := by simpa using hbeat
          exact ⟨l, by rw [← hl]; simp⟩
    refine ⟨rs, cur ++ [y], ⟨hr.done, by simp, fun _ => ⟨j, m, hj, hm, hpre, ?_, ?_⟩⟩, ?_,
      by simp [hlast]⟩
    · rw [List.length_append, List.length_singleton]
      omega
    · rw [List.length_append, List.length_singleton,
        show m.length - 1 = chanD.len p.burst y by omega]
      exact h.counts.next_lt (show cur.length < chanD.len p.burst y by omega)
    · rw [replay_concat_of_get h.request, List.map_append]
      rfl

end Output
/-! ## One cycle -/

section Cycle
variable {ans : ℕ → ℕ} {l : List AMsg} {d : List DMsg} {reqs : List AMsg}
  {ms rs : List (List DMsg)} {part cur : List DMsg}

/-- The request that begins in a cycle. -/
theorem hostABegin_eq (h : Tracks chanA p.burst s.hostReq (posOf chanA p.burst l))
    {ok : AMsg → Prop}
    (hl : Legal chanA p.burst ok (l ++ (hostATransfer p s i).toList)) :
    begun chanA p.burst (l ++ (hostATransfer p s i).toList) =
      begun chanA p.burst l ++ (hostABegin p s i).toList := by
  unfold hostABegin
  cases ho : hostATransfer p s i with
  | none => simp
  | some x =>
      rw [ho, Option.toList_some] at hl
      rw [Option.toList_some, begun_concat, h.first_eq hl.of_concat.2.1]
      by_cases hd : (posOf chanA p.burst l).done = 0 <;> simp [hd]

/-- A request begins only in a free slot. -/
theorem free_of_begin (h : Tracks chanA p.burst s.hostReq (posOf chanA p.burst l))
    {ok : AMsg → Prop} (hl : Legal chanA p.burst ok (l ++ (hostATransfer p s i).toList)) {x : AMsg}
    (hb : hostABegin p s i = some x) :
    s.trackerValid s.trackerAIdx = false ∧
      (begun chanA p.burst l).length = (messages chanA p.burst l).length := by
  have hfirst : s.hostReq.first p.burst = true := by
    by_contra hne
    simp [hostABegin, hne] at hb
  have ho : hostATransfer p s i = some x := by simpa [hostABegin, hfirst] using hb
  rw [ho, Option.toList_some] at hl
  have hdone := h.first_eq hl.of_concat.2.1
  rw [hfirst, eq_comm, decide_eq_true_eq, done_posOf, List.length_eq_zero_iff] at hdone
  refine ⟨?_, by rw [length_begun, if_pos hdone, Nat.add_zero]⟩
  have hready : hostAReady p s i = true := by
    by_contra hne
    simp [hostATransfer, hne] at ho
  have hx : i.hostA = some x := by simpa [hostATransfer, hready] using ho
  simp only [hostAReady, hx, Option.isNone_some, Bool.false_or, Bool.and_eq_true, accepts, hfirst,
    if_true, Bool.not_eq_true'] at hready
  exact hready.1

/-- The device sees the request with the number of the slot as its source. -/
theorem deviceATransfer_eq : deviceATransfer p s i =
    (hostATransfer p s i).map fun h => { h with source := s.trackerAIdx } := by
  unfold deviceATransfer hostATransfer hostAReady deviceA
  cases i.deviceAReady <;> cases accepts p s <;> cases i.hostA <;> rfl

/-- The index of the next slot after a cycle. -/
theorem aIdx_step (h : Tracks chanA p.burst s.hostReq (posOf chanA p.burst l)) {ok : AMsg → Prop}
    (hl : Legal chanA p.burst ok (l ++ (hostATransfer p s i).toList))
    (ha : s.trackerAIdx = (messages chanA p.burst l).length % p.numTracker) :
    (step p s i).trackerAIdx =
      (messages chanA p.burst (l ++ (hostATransfer p s i).toList)).length % p.numTracker := by
  change (if (hostAEnd p s i).isSome then _ else _) = _
  unfold hostAEnd
  cases ho : hostATransfer p s i with
  | none => simpa using ha
  | some x =>
      rw [ho, Option.toList_some] at hl
      have hlast : s.hostReq.last p.burst x.opcode.hasData x.size =
          decide ((posOf chanA p.burst l).done = chanA.len p.burst x) := h.last_eq hl.of_concat.2.1
      rw [Option.toList_some, messages_concat, ← done_posOf]
      by_cases hd : (posOf chanA p.burst l).done = chanA.len p.burst x
      · rw [decide_eq_true hd] at hlast
        simp [Option.filter_some, hlast, hd, ha]
      · rw [decide_eq_false hd] at hlast
        simp [Option.filter_some, hlast, hd, ha]

/-! ### The three changes of the slots -/

/-- The beat that goes to the output register in a cycle. -/
def sent (p : FifoParams) (s : FifoConverter) (i : FifoConverterIn) : Option DMsg :=
  if tmpDTransfer s i then hostD (step p s i) else none

/-- A beat leaves the output register only when it is taken. -/
theorem hostD_step : (hostD s).toList ++ (sent p s i).toList =
    (hostDTransfer s i).toList ++ (hostD (step p s i)).toList := by
  unfold sent hostDTransfer
  cases hv : s.hostDValid <;> cases hr : i.hostDReady <;> cases ht : tmpDValid s <;>
    simp [tmpDTransfer, tmpDReady, hv, hr, ht, hostD, step]

/-- The registers after the output register has taken a beat. -/
def popped (p : FifoParams) (s : FifoConverter) (i : FifoConverterIn) : FifoConverter :=
  { s with
    trackerValid :=
      if completes p s i then Function.update s.trackerValid s.trackerDIdx false
      else s.trackerValid
    trackerReady :=
      if completes p s i then Function.update s.trackerReady s.trackerDIdx false
      else s.trackerReady
    trackerSource :=
      if completes p s i then Function.update s.trackerSource s.trackerDIdx 0
      else s.trackerSource
    trackerDIdx :=
      if completes p s i then (s.trackerDIdx + 1) % p.numTracker else s.trackerDIdx }

theorem Slots.popped (hans : Function.Injective ans) (h : Slots p ans reqs ms part rs.length s)
    (hr : Replays p ans ms rs cur s.tmpGnt) (i : FifoConverterIn) :
    ∃ rs' cur', rs <+: rs' ∧ Slots p ans reqs ms part rs'.length (popped p s i) ∧
      Replays p ans ms rs' cur' (FifoConverter.step p s i).tmpGnt ∧
      replay reqs (rs' ++ [cur']) = replay reqs (rs ++ [cur]) ++ (sent p s i).toList := by
  by_cases ht : tmpDTransfer s i = true
  · have hv : tmpDValid s = true := by
      rw [tmpDTransfer, Bool.and_eq_true] at ht
      exact ht.1
    obtain ⟨m, y, r, hnext⟩ := exists_nextBeat hans h hr hv
    obtain ⟨rs', cur', hr', hreplay, hrs'⟩ := hr.step hnext
    have hgnt : (FifoConverter.step p s i).tmpGnt =
        s.tmpGnt.next p.burst (tmpD s).opcode.hasData (tmpD s).size := if_pos ht
    have hsent : sent p s i = some (tag r y) := by
      have hD : hostD (FifoConverter.step p s i) = some (tag r y) := by
        simp only [hostD, FifoConverter.step, hv, ht, if_true, hnext.ctrl, hnext.data,
          hnext.source]
        rfl
      rw [sent, if_pos ht, hD]
    rw [hsent, hgnt]
    obtain ⟨j, hj, hm⟩ := hnext.answer
    by_cases hlast : tmpDLast p s = true
    · rw [if_pos hlast] at hrs'
      obtain ⟨rfl, rfl⟩ := hrs'
      refine ⟨_, _, List.prefix_append _ _, ?_, hr', hreplay⟩
      have hpop := h.pop hm hj
      rw [List.length_append, List.length_singleton]
      simpa [FifoConverter.popped, completes, ht, hlast] using hpop
    · rw [if_neg hlast] at hrs'
      obtain ⟨rfl, rfl⟩ := hrs'
      refine ⟨_, _, List.prefix_rfl, ?_, hr', hreplay⟩
      simpa [FifoConverter.popped, completes, ht, hlast] using h
  · have hgnt : (FifoConverter.step p s i).tmpGnt = s.tmpGnt := if_neg ht
    refine ⟨rs, cur, List.prefix_rfl, ?_, hgnt ▸ hr, ?_⟩
    · simpa [FifoConverter.popped, completes, ht] using h
    · simp [sent, ht]

/-- The registers after a request has taken a slot. -/
def pushed (p : FifoParams) (s : FifoConverter) (i : FifoConverterIn) : FifoConverter :=
  { popped p s i with
    trackerValid := trackerValidD p s i
    trackerSource := trackerSourceD p s i }

theorem Slots.pushed {R : ℕ} (h : Slots p ans reqs ms part R (FifoConverter.popped p s i))
    (hb : ∀ x, hostABegin p s i = some x →
      s.trackerValid s.trackerAIdx = false ∧ s.trackerAIdx = reqs.length % p.numTracker) :
    Slots p ans (reqs ++ (hostABegin p s i).toList) ms part R (FifoConverter.pushed p s i) := by
  cases hx : hostABegin p s i with
  | none =>
      simpa [FifoConverter.pushed, trackerValidD, trackerSourceD, hx, FifoConverter.popped] using h
  | some x =>
      obtain ⟨hfree, ha⟩ := hb x hx
      have hfree' : (FifoConverter.popped p s i).trackerValid s.trackerAIdx = false := by
        simp only [FifoConverter.popped]
        split_ifs
        · by_cases hk : s.trackerAIdx = s.trackerDIdx
          · rw [hk, Function.update_self]
          · rwa [Function.update_of_ne hk]
        · exact hfree
      have hpush := h.push x ha hfree'
      simpa [FifoConverter.pushed, trackerValidD, trackerSourceD, hx,
        FifoConverter.popped] using hpush

/-- The slots after a cycle in which the device may send a beat. -/
theorem Slots.stored {R : ℕ} (hans : Function.Injective ans)
    (h : Slots p ans reqs (messages chanD p.burst d) (rest chanD p.burst d) R
      (FifoConverter.pushed p s i))
    (ht : Tracks chanD p.burst s.deviceGnt (posOf chanD p.burst d)) {ok : DMsg → Prop}
    (hl : Legal chanD p.burst ok (d ++ i.deviceD.toList))
    (hd : ∀ y, i.deviceD = some y → ∃ r, reqs[ans (messages chanD p.burst d).length]? = some r ∧
      slotOf p y = ans (messages chanD p.burst d).length % p.numTracker ∧ y.size = r.size ∧
      r.size ≤ p.burst.maxSize ∧ (completes p s i = true → slotOf p y ≠ s.trackerDIdx)) :
    Slots p ans reqs (messages chanD p.burst (d ++ i.deviceD.toList))
      (rest chanD p.burst (d ++ i.deviceD.toList)) R (FifoConverter.step p s i) := by
  cases hy : i.deviceD with
  | none =>
      rw [Option.toList_none, List.append_nil]
      refine h.congr rfl rfl ?_ rfl ?_ ?_
      · simp [FifoConverter.step, trackerReadyD, deviceDEnd, hy, FifoConverter.pushed,
          FifoConverter.popped]
      · simp [FifoConverter.step, trackerCtrlD, deviceDEnd, hy, FifoConverter.pushed,
          FifoConverter.popped]
      · simp [FifoConverter.step, trackerDataD, hy, FifoConverter.pushed, FifoConverter.popped]
  | some y =>
      obtain ⟨r, hr, hslot, hsize, hmax, hne⟩ := hd y hy
      rw [hy, Option.toList_some] at hl
      obtain ⟨hld, hq, -⟩ := hl.of_concat
      have hpart : ∀ z ∈ rest chanD p.burst d, z.header = y.header := fun z hz =>
        hld.holds_rest.header_eq hq z (List.mem_append_left _ hz)
      have hle := Pos.done_le (valid_posOf hld) hq
      have hlast : s.deviceGnt.last p.burst y.opcode.hasData y.size =
          decide ((posOf chanD p.burst d).done = chanD.len p.burst y) := ht.last_eq hq
      have hidx : s.deviceGnt.idx p.burst y.opcode.hasData y.size =
          (posOf chanD p.burst d).done := ht.idx_eq hq
      rw [done_posOf] at hle hlast hidx
      have hw : dataWIdx p s y = dataIdx p (rest chanD p.burst d).length (slotOf p y) := by
        rw [dataWIdx, hidx]
      have hin : dataWIdx p s y < p.numTracker * p.maxBurstLen := by
        have hlen := len_lt_maxBurstLen (p := p) (y := y) (by omega)
        rw [hw]
        exact dataIdx_lt (by omega) (Nat.mod_lt _ p.numTracker_pos)
      have hdata : trackerDataD p s i = Function.update s.trackerData
          (dataIdx p (rest chanD p.burst d).length
            (ans (messages chanD p.burst d).length % p.numTracker)) y.payload := by
        rw [← hslot, ← hw]
        simp [trackerDataD, hy, hin]
      rw [Option.toList_some, messages_concat, rest_concat]
      by_cases hlen : (rest chanD p.burst d).length = chanD.len p.burst y
      · rw [decide_eq_true hlen] at hlast
        have hend : deviceDEnd p s i = some y := by
          simp [deviceDEnd, hy, Option.filter_some, hlast]
        have hmsg := hld.holds_rest.isMessage hq ((done_posOf d).trans hlen)
        rw [if_pos hlen, if_pos hlen]
        refine (h.store_last hans hr hpart hsize hmsg).congr rfl rfl ?_ rfl ?_ hdata
        · change trackerReadyD p s i = _
          rw [← hslot]
          by_cases hc : completes p s i = true
          · simp only [trackerReadyD, hend, hc, if_true, FifoConverter.pushed,
              FifoConverter.popped]
            exact Function.update_comm (hne hc) _ _ _
          · simp [trackerReadyD, hend, hc, FifoConverter.pushed, FifoConverter.popped]
        · change trackerCtrlD p s i = _
          rw [← hslot]
          simp [trackerCtrlD, hend, FifoConverter.pushed, FifoConverter.popped]
      · rw [decide_eq_false hlen] at hlast
        have hend : deviceDEnd p s i = none := by
          simp [deviceDEnd, hy, Option.filter_some, hlast]
        rw [if_neg hlen, if_neg hlen, List.append_nil]
        refine (h.store hans hr hpart hsize).congr rfl rfl ?_ rfl ?_ hdata
        · change trackerReadyD p s i = _
          simp [trackerReadyD, hend, FifoConverter.pushed, FifoConverter.popped]
        · change trackerCtrlD p s i = _
          simp [trackerCtrlD, hend, FifoConverter.pushed, FifoConverter.popped]

end Cycle

/-! ## Runs -/

section Run
variable {ins : ℕ → FifoConverterIn} {ans : ℕ → ℕ} {n : ℕ} {rs : List (List DMsg)}
  {cur : List DMsg}

/-- Request number `a.2` with the slot as its source. -/
def renumber (p : FifoParams) (a : AMsg × ℕ) : AMsg := { a.1 with source := a.2 % p.numTracker }

/-- The state of a run in which the responses `rs` have gone to the output register, and the
beginning `cur` of one more. -/
structure RunInv (p : FifoParams) (ins : ℕ → FifoConverterIn) (ans : ℕ → ℕ) (n : ℕ)
    (rs : List (List DMsg)) (cur : List DMsg) : Prop where
  hostReq : Tracks chanA p.burst (after p ins n).hostReq (posOf chanA p.burst (hostAStream p ins n))
  deviceGnt : Tracks chanD p.burst (after p ins n).deviceGnt
    (posOf chanD p.burst (deviceDStream ins n))
  aIdx : (after p ins n).trackerAIdx =
    (messages chanA p.burst (hostAStream p ins n)).length % p.numTracker
  device : deviceAStream p ins n =
    (numbered chanA p.burst (hostAStream p ins n)).map (renumber p)
  slots : Slots p ans (hostRequests p ins n) (deviceResponses p ins n)
    (rest chanD p.burst (deviceDStream ins n)) rs.length (after p ins n)
  replays : Replays p ans (deviceResponses p ins n) rs cur (after p ins n).tmpGnt
  out : hostDStream p ins n ++ (hostD (after p ins n)).toList =
    replay (hostRequests p ins n) (rs ++ [cur])

/-- The requests as the device sees them. -/
theorem deviceRequests_eq
    (h : deviceAStream p ins n = (numbered chanA p.burst (hostAStream p ins n)).map (renumber p)) :
    deviceRequests p ins n = (hostRequests p ins n).zipIdx.map (renumber p) := by
  rw [deviceRequests, h]
  exact begun_numbered (g := fun x k => renumber p (x, k)) (fun x k => rfl) _

theorem window_succ (hp : Protocol p ins ans) (h : RunInv p ins ans n rs cur) :
    (hostRequests p ins (n + 1)).length ≤ rs.length + p.numTracker := by
  have hla := hp.a (n + 1)
  rw [hostAStream, stream_succ] at hla
  change Legal _ _ _ (hostAStream p ins n ++ _) at hla
  have hbegin : hostRequests p ins (n + 1) =
      hostRequests p ins n ++ (hostABegin p (after p ins n) (ins n)).toList :=
    hostABegin_eq h.hostReq hla
  rw [hbegin, List.length_append]
  cases hx : hostABegin p (after p ins n) (ins n) with
  | none => exact h.slots.window
  | some x =>
      obtain ⟨hfree, hlen⟩ := free_of_begin h.hostReq hla hx
      exact h.slots.lt_of_free (by rw [h.aIdx, hostRequests, hlen]) hfree

/-- A beat of the device belongs to a request whose slot is in use. -/
theorem RunInv.answer_of_beat (hp : Protocol p ins ans) (h : RunInv p ins ans n rs cur)
    (hdevice : deviceAStream p ins (n + 1) =
      (numbered chanA p.burst (hostAStream p ins (n + 1))).map (renumber p)) {y : DMsg}
    (hy : (ins n).deviceD = some y) :
    ∃ r, (hostRequests p ins (n + 1))[ans (deviceResponses p ins n).length]? = some r ∧
      slotOf p y = ans (deviceResponses p ins n).length % p.numTracker ∧ y.size = r.size ∧
      r.size ≤ p.burst.maxSize ∧
      ans (deviceResponses p ins n).length < rs.length + p.numTracker ∧
      rs.length ≤ ans (deviceResponses p ins n).length := by
  obtain ⟨r, hr, hsource, hsize⟩ := hp.answers (n + 1) (deviceDStream ins n) y (by
    rw [deviceDStream, stream_succ, hy]
    exact List.prefix_rfl)
  rw [deviceRequests_eq hdevice, List.getElem?_map, List.getElem?_zipIdx, Option.map_map,
    Option.map_eq_some_iff] at hr
  obtain ⟨x, hx, rfl⟩ := hr
  have hlt := (List.getElem?_eq_some_iff.mp hx).1
  refine ⟨x, hx, ?_, hsize, ?_, lt_of_lt_of_le hlt (window_succ hp h), h.slots.le_ans hp.once⟩
  · rw [slotOf, hsource]
    simp [renumber, deviceResponses]
  · exact (hp.a (n + 1)).ok_of_mem (mem_of_mem_begun (List.mem_of_getElem? hx))

theorem RunInv.step (hp : Protocol p ins ans) (h : RunInv p ins ans n rs cur) :
    ∃ rs' cur', rs <+: rs' ∧ RunInv p ins ans (n + 1) rs' cur' := by
  have hla := hp.a (n + 1)
  rw [hostAStream, stream_succ] at hla
  change Legal _ _ _ (hostAStream p ins n ++ _) at hla
  have hld := hp.d (n + 1)
  rw [deviceDStream, stream_succ] at hld
  change Legal _ _ _ (deviceDStream ins n ++ _) at hld
  have hbegin : hostRequests p ins (n + 1) =
      hostRequests p ins n ++ (hostABegin p (after p ins n) (ins n)).toList :=
    hostABegin_eq h.hostReq hla
  have hfree : ∀ x, hostABegin p (after p ins n) (ins n) = some x →
      (after p ins n).trackerValid (after p ins n).trackerAIdx = false ∧
        (after p ins n).trackerAIdx = (hostRequests p ins n).length % p.numTracker := by
    intro x hx
    obtain ⟨h1, h2⟩ := free_of_begin h.hostReq hla hx
    exact ⟨h1, by rw [h.aIdx, hostRequests, h2]⟩
  have hdevice : deviceAStream p ins (n + 1) =
      (numbered chanA p.burst (hostAStream p ins (n + 1))).map (renumber p) := by
    rw [deviceAStream, stream_succ, hostAStream, stream_succ]
    change deviceAStream p ins n ++ _ = (numbered _ _ (hostAStream p ins n ++ _)).map _
    rw [h.device, deviceATransfer_eq]
    cases hostATransfer p (after p ins n) (ins n) with
    | none => simp
    | some x =>
        rw [Option.toList_some, numbered_concat, List.map_append, h.aIdx]
        rfl
  obtain ⟨rs', cur', hrs, hpop, hrep, hreplay⟩ := h.slots.popped hp.once h.replays (ins n)
  have hpush := hpop.pushed hfree
  rw [← hbegin] at hpush
  have hstore := hpush.stored (i := ins n) hp.once h.deviceGnt hld fun y hy => by
    obtain ⟨r, hr, hslot, hsize, hmax, hlt, hge⟩ := h.answer_of_beat hp hdevice hy
    refine ⟨r, hr, hslot, hsize, hmax, fun hc => ?_⟩
    -- the slot that is freed belongs to a complete response
    rw [hslot, h.slots.dIdx]
    intro heq
    have hN := p.numTracker_pos
    simp only [completes, tmpDTransfer, tmpDValid, h.slots.dIdx, Bool.and_eq_true] at hc
    obtain ⟨-, j, hj, hans⟩ := h.slots.ready.of_apply (Nat.le_refl _) (by omega) hc.1.1
    have hJ := Ring.eq_of_slot_eq hge (by omega) (Nat.le_refl _) (by omega) heq
    have := hp.once (hans.trans hJ.symm)
    omega
  have hmono : deviceResponses p ins n <+: deviceResponses p ins (n + 1) :=
    messages_prefix <| stream_prefix _ (Nat.le_succ n)
  refine ⟨rs', cur', hrs, h.hostReq.step hla, h.deviceGnt.step hld, aIdx_step h.hostReq hla h.aIdx,
    hdevice, ?_, hrep.mono hmono, ?_⟩
  · rw [deviceResponses, deviceDStream, stream_succ]
    exact hstore
  · have hrs' : rs'.length ≤ (hostRequests p ins n).length := hpop.freed_le
    have hlt : cur' ≠ [] → rs'.length < (hostRequests p ins n).length := by
      intro hne
      obtain ⟨j, m, hj, hm, -⟩ := hrep.busy hne
      exact hj ▸ h.slots.lt_of_answered hm
    rw [hbegin, replay_concat_append hrs' hlt, hreplay, ← h.out, List.append_assoc, hostD_step,
      hostDStream, stream_succ, List.append_assoc]
    rfl

end Run

/-! ## Order, reuse and progress -/

section Order
variable {ins : ℕ → FifoConverterIn} {ans : ℕ → ℕ} {n k : ℕ} {rs : List (List DMsg)}
  {cur m : List DMsg}

variable (p) in
/-- By cycle `n` the device has answered request `k` with the message `m`. -/
structure Answered (ins : ℕ → FifoConverterIn) (ans : ℕ → ℕ) (n k : ℕ) (m : List DMsg) :
    Prop where
  response : ∃ j, ans j = k ∧ (deviceResponses p ins n)[j]? = some m
  message : chanD.IsMessage p.burst m
  request : ∃ r, (hostRequests p ins n)[k]? = some r ∧ ∀ y ∈ m, y.size = r.size

variable (p) in
/-- By cycle `n` the host has got the responses `rs` to its first requests, in order, and the
beginning `cur` of the next one; the last beat may be in the output register. -/
structure Delivers (ins : ℕ → FifoConverterIn) (ans : ℕ → ℕ) (n : ℕ) (rs : List (List DMsg))
    (cur : List DMsg) : Prop where
  out : hostDStream p ins n ++ (hostD (after p ins n)).toList =
    replay (hostRequests p ins n) (rs ++ [cur])
  answers : ∀ k m, rs[k]? = some m → Answered p ins ans n k m
  next : cur ≠ [] → ∃ m, Answered p ins ans n rs.length m ∧ cur <+: m ∧ cur.length < m.length

theorem RunInv.answered (h : RunInv p ins ans n rs cur) {j : ℕ}
    (hm : (deviceResponses p ins n)[j]? = some m) : Answered p ins ans n (ans j) m := by
  have hlt := h.slots.lt_of_answered hm
  refine ⟨⟨j, rfl, hm⟩, h.slots.message m (List.mem_of_getElem? hm),
    _, List.getElem?_eq_getElem hlt, fun y hy => ?_⟩
  have hj := (List.getElem?_eq_some_iff.mp hm).1
  have hm' : (deviceResponses p ins n ++ [rest chanD p.burst (deviceDStream ins n)])[j]? =
      some m := by
    rw [List.getElem?_append_left hj]
    exact hm
  obtain ⟨r, hr, hsize⟩ := h.slots.answered j m y hm' hy
  rw [List.getElem?_eq_getElem hlt, Option.some_inj] at hr
  rw [hsize, hr]

theorem RunInv.delivers (h : RunInv p ins ans n rs cur) : Delivers p ins ans n rs cur := by
  refine ⟨h.out, fun k m hm => ?_, fun hne => ?_⟩
  · obtain ⟨j, rfl, hj⟩ := h.replays.done k m hm
    exact h.answered hj
  · obtain ⟨j, m, hj, hm, hpre, hlen, -⟩ := h.replays.busy hne
    exact ⟨m, hj ▸ h.answered hm, hpre, hlen⟩

theorem Answered.mono (h : Answered p ins ans n k m) {n' : ℕ} (hn : n ≤ n') :
    Answered p ins ans n' k m := by
  obtain ⟨j, hj, hm⟩ := h.response
  obtain ⟨r, hr, hsize⟩ := h.request
  have hms : deviceResponses p ins n <+: deviceResponses p ins n' :=
    messages_prefix <| stream_prefix _ hn
  have hreqs : hostRequests p ins n <+: hostRequests p ins n' := begun_prefix <| stream_prefix _ hn
  exact ⟨⟨j, hj, getElem?_of_prefix hms hm⟩, h.message, r, getElem?_of_prefix hreqs hr, hsize⟩

/-- A request has one answer. -/
theorem Answered.unique (hans : Function.Injective ans) {m' : List DMsg}
    (h : Answered p ins ans n k m) (h' : Answered p ins ans n k m') : m = m' := by
  obtain ⟨j, hj, hm⟩ := h.response
  obtain ⟨j', hj', hm'⟩ := h'.response
  rw [hans (hj.trans hj'.symm), hm'] at hm
  exact (Option.some_inj.mp hm).symm

/-- What the host still has to get of `T`, and the cycle that fills the output register. -/
def lag (p : FifoParams) (ins : ℕ → FifoConverterIn) (T : List DMsg) (k : ℕ) : ℕ :=
  2 * (T.length - (hostDStream p ins k).length) + if (hostD (after p ins k)).isSome then 0 else 1

end Order

/-! ### A run -/

end Muntjac.Tl.FifoConverter

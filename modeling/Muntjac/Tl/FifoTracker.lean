import Muntjac.Tl.FifoConverter

/-!
# The slots of the FIFO converter

The requests that have begun and are not yet answered to the host occupy a window of the ring.
In one cycle a slot may be freed, one may be taken, and a beat of a response may be stored; the
three do not disturb each other.

## Main definitions

* `Slots` — the registers of the slots belong to the requests and the responses.

## Main results

* `Slots.pop`, `Slots.push`, `Slots.store` — one of the three.
-/

namespace Muntjac.Tl.FifoConverter

open Sync

variable {p : FifoParams} {s : FifoConverter} {i : FifoConverterIn}

/-! ## The response memory -/

theorem dataIdx_inj {k k' a b : ℕ} (ha : a < p.numTracker) (hb : b < p.numTracker)
    (h : dataIdx p k a = dataIdx p k' b) : k = k' ∧ a = b := cat_inj ha hb h

theorem dataIdx_lt {k a : ℕ} (hk : k < p.maxBurstLen) (ha : a < p.numTracker) :
    dataIdx p k a < p.numTracker * p.maxBurstLen := by
  have hle := Nat.mul_le_mul_left p.numTracker (Nat.succ_le_of_lt hk)
  rw [Nat.mul_succ, Nat.mul_comm p.numTracker k] at hle
  change k * p.numTracker + a < _
  omega

/-- A message that is not too long fits. -/
theorem len_lt_maxBurstLen {y : DMsg} (h : y.size ≤ p.burst.maxSize) :
    chanD.len p.burst y < p.maxBurstLen := by
  have hpos := Nat.two_pow_pos (p.burst.maxSize - p.burst.nonBurst)
  unfold Chan.len Burst.len BurstParams.burstLen FifoParams.maxBurstLen
  split_ifs with _ hs
  · exact hpos
  · have hle := Nat.pow_le_pow_right (n := 2) (by omega)
      (Nat.sub_le_sub_right h p.burst.nonBurst)
    have hmod := Nat.mod_le (2 ^ (y.size - p.burst.nonBurst) - 1) (2 ^ p.burst.lenWidth)
    have hpos' := Nat.two_pow_pos (y.size - p.burst.nonBurst)
    change (2 ^ (y.size - p.burst.nonBurst) - 1) % 2 ^ p.burst.lenWidth < _
    omega
  · exact hpos

/-- What the beats of a message share. -/
theorem ctrl_of_header {y z : DMsg} (h : y.header = z.header) : y.ctrl = z.ctrl := by
  have h' := DMsg.mk.injEq .. ▸ h
  obtain ⟨h1, h2, h3, -, h5, h6, -, -⟩ := h'
  simp only [DMsg.ctrl, h1, h2, h3, h5, h6]

/-! ## The invariant -/

variable {ans : ℕ → ℕ} {reqs : List AMsg} {ms : List (List DMsg)} {part : List DMsg} {R : ℕ}

/-- The slots after the requests `reqs` and the answers `ms`, with the beginning `part` of one
more; the first `R` requests have been answered to the host. -/
structure Slots (p : FifoParams) (ans : ℕ → ℕ) (reqs : List AMsg) (ms : List (List DMsg))
    (part : List DMsg) (R : ℕ) (s : FifoConverter) : Prop where
  freed_le : R ≤ reqs.length
  window : reqs.length ≤ R + p.numTracker
  dIdx : s.trackerDIdx = R % p.numTracker
  freed : ∀ n < R, ∃ j < ms.length, ans j = n
  valid : Ring.Marks p.numTracker R (fun n => R ≤ n ∧ n < reqs.length) s.trackerValid
  ready : Ring.Marks p.numTracker R (fun n => R ≤ n ∧ ∃ j < ms.length, ans j = n) s.trackerReady
  source : ∀ n r, R ≤ n → reqs[n]? = some r → s.trackerSource (n % p.numTracker) = r.source
  message : ∀ m ∈ ms, chanD.IsMessage p.burst m
  answered : ∀ j m y, (ms ++ [part])[j]? = some m → y ∈ m →
    ∃ r, reqs[ans j]? = some r ∧ y.size = r.size
  ctrl : ∀ j m y, ms[j]? = some m → y ∈ m → R ≤ ans j →
    s.trackerCtrl (ans j % p.numTracker) = y.ctrl
  data : ∀ j m k y, (ms ++ [part])[j]? = some m → m[k]? = some y → R ≤ ans j →
    s.trackerData (dataIdx p k (ans j % p.numTracker)) = y.payload

namespace Slots

/-- The invariant is about the slots only. -/
theorem congr (h : Slots p ans reqs ms part R s) {s' : FifoConverter}
    (hidx : s'.trackerDIdx = s.trackerDIdx) (hvalid : s'.trackerValid = s.trackerValid)
    (hready : s'.trackerReady = s.trackerReady) (hsource : s'.trackerSource = s.trackerSource)
    (hctrl : s'.trackerCtrl = s.trackerCtrl) (hdata : s'.trackerData = s.trackerData) :
    Slots p ans reqs ms part R s' := by
  refine ⟨h.freed_le, h.window, ?_, h.freed, ?_, ?_, ?_, h.message, h.answered, ?_, ?_⟩
  · rw [hidx]
    exact h.dIdx
  · rw [hvalid]
    exact h.valid
  · rw [hready]
    exact h.ready
  · rw [hsource]
    exact h.source
  · rw [hctrl]
    exact h.ctrl
  · rw [hdata]
    exact h.data

theorem lt_of_answered (h : Slots p ans reqs ms part R s) {j : ℕ} {m : List DMsg}
    (hm : ms[j]? = some m) : ans j < reqs.length := by
  obtain ⟨y, hy⟩ := List.exists_mem_of_ne_nil m (h.message m (List.mem_of_getElem? hm)).ne_nil
  have hlt := (List.getElem?_eq_some_iff.mp hm).1
  obtain ⟨r, hr, -⟩ := h.answered j m y (by rw [List.getElem?_append_left hlt]; exact hm) hy
  exact (List.getElem?_eq_some_iff.mp hr).1

/-- The slot of a response that is on the way has not been freed. -/
theorem le_ans (h : Slots p ans reqs ms part R s) (hans : Function.Injective ans) :
    R ≤ ans ms.length := by
  by_contra hlt
  obtain ⟨j, hj, heq⟩ := h.freed _ (Nat.lt_of_not_le hlt)
  have := hans heq
  omega

/-- A slot is freed. -/
theorem pop (h : Slots p ans reqs ms part R s) {j : ℕ} {m : List DMsg} (hm : ms[j]? = some m)
    (hj : ans j = R) :
    Slots p ans reqs ms part (R + 1)
      { s with
        trackerValid := Function.update s.trackerValid s.trackerDIdx false
        trackerReady := Function.update s.trackerReady s.trackerDIdx false
        trackerSource := Function.update s.trackerSource s.trackerDIdx 0
        trackerDIdx := (s.trackerDIdx + 1) % p.numTracker } := by
  have hlt : R < reqs.length := hj ▸ h.lt_of_answered hm
  have hjlt := (List.getElem?_eq_some_iff.mp hm).1
  have hwin := h.window
  have hN := p.numTracker_pos
  refine ⟨hlt, by omega, ?_, fun n hn => ?_, ?_, ?_, fun n r hn hr => ?_, h.message, h.answered,
    fun j m y hm hy hn => h.ctrl j m y hm hy (by omega),
    fun j m k y hm hy hn => h.data j m k y hm hy (by omega)⟩
  · rw [h.dIdx, Nat.mod_add_mod]
  · rcases Nat.lt_succ_iff_lt_or_eq.mp hn with hn | rfl
    · exact h.freed n hn
    · exact ⟨j, hjlt, hj⟩
  · rw [h.dIdx]
    refine (h.valid.remove ⟨Nat.le_refl R, hlt⟩).congr fun n => ?_
    constructor
    · rintro ⟨⟨h1, h2⟩, h3⟩
      omega
    · rintro ⟨h1, h2⟩
      omega
  · rw [h.dIdx]
    refine (h.ready.remove ⟨Nat.le_refl R, j, hjlt, hj⟩).congr fun n => ?_
    constructor
    · rintro ⟨⟨h1, h2⟩, h3⟩
      exact ⟨by omega, h2⟩
    · rintro ⟨h1, h2⟩
      exact ⟨⟨by omega, h2⟩, by omega⟩
  · have hnlt := (List.getElem?_eq_some_iff.mp hr).1
    have hRn : R ≤ n := by omega
    have hn' : n < R + p.numTracker := by omega
    dsimp only
    rw [h.dIdx, Ring.update_of_ne hRn hn' (Nat.le_refl R) (by omega) (by omega)]
    exact h.source n r hRn hr

/-- The next slot is free only if the window is not full. -/
theorem lt_of_free (h : Slots p ans reqs ms part R s)
    (ha : s.trackerAIdx = reqs.length % p.numTracker)
    (hfree : s.trackerValid s.trackerAIdx = false) : reqs.length < R + p.numTracker := by
  have hN := p.numTracker_pos
  refine lt_of_le_of_ne h.window fun heq => ?_
  -- otherwise the slot belongs to the first request of the window
  have hR := h.valid.apply (n := R) ⟨Nat.le_refl R, by omega⟩
  rw [ha, heq, Nat.add_mod_right, hR] at hfree
  cases hfree

/-- A slot that is free is taken by a new request. -/
theorem push (h : Slots p ans reqs ms part R s) (x : AMsg)
    (ha : s.trackerAIdx = reqs.length % p.numTracker)
    (hfree : s.trackerValid s.trackerAIdx = false) :
    Slots p ans (reqs ++ [x]) ms part R
      { s with
        trackerValid := Function.update s.trackerValid s.trackerAIdx true
        trackerSource := Function.update s.trackerSource s.trackerAIdx x.source } := by
  have hle := h.freed_le
  have hN := p.numTracker_pos
  have hlt := h.lt_of_free ha hfree
  refine ⟨?_, ?_, h.dIdx, h.freed, ?_, h.ready, fun n r hn hr => ?_, h.message,
    fun j m y hm hy => ?_, h.ctrl, h.data⟩
  · rw [List.length_append, List.length_singleton]
    omega
  · rw [List.length_append, List.length_singleton]
    exact hlt
  · rw [ha]
    refine (h.valid.insert hle hlt).congr fun n => ?_
    rw [List.length_append, List.length_singleton]
    omega
  · dsimp only
    rw [ha]
    rcases Nat.lt_or_ge n reqs.length with hnlt | hnge
    · have hn' : n < R + p.numTracker := by omega
      rw [List.getElem?_append_left hnlt] at hr
      rw [Ring.update_of_ne hn hn' hle hlt (by omega)]
      exact h.source n r hn hr
    · have hnlt := (List.getElem?_eq_some_iff.mp hr).1
      rw [List.length_append, List.length_singleton] at hnlt
      obtain rfl : n = reqs.length := by omega
      rw [List.getElem?_concat_length, Option.some_inj] at hr
      rw [Function.update_self, hr]
  · obtain ⟨r, hr, hsize⟩ := h.answered j m y hm hy
    have hlt' := (List.getElem?_eq_some_iff.mp hr).1
    exact ⟨r, by rw [List.getElem?_append_left hlt']; exact hr, hsize⟩

/-! ### A beat of a response -/

section Store
variable {y : DMsg} {r : AMsg}

/-- The messages of a list that has one more beat in its last message. -/
theorem getElem?_concat_beat {j : ℕ} {m : List DMsg}
    (hm : (ms ++ [part ++ [y]])[j]? = some m) :
    (ms[j]? = some m ∧ (ms ++ [part])[j]? = some m) ∨ (j = ms.length ∧ m = part ++ [y]) := by
  rcases Nat.lt_or_ge j ms.length with hlt | hge
  · rw [List.getElem?_append_left hlt] at hm ⊢
    exact .inl ⟨hm, hm⟩
  · have hlt := (List.getElem?_eq_some_iff.mp hm).1
    rw [List.length_append, List.length_singleton] at hlt
    obtain rfl : j = ms.length := by omega
    rw [List.getElem?_concat_length, Option.some_inj] at hm
    exact .inr ⟨rfl, hm.symm⟩

/-- An empty message at the end says nothing. -/
theorem getElem?_of_concat_nil {l : List (List DMsg)} {j : ℕ} {m : List DMsg}
    (hm : (l ++ [[]])[j]? = some m) (hy : y ∈ m) : l[j]? = some m := by
  rcases Nat.lt_or_ge j l.length with hlt | hge
  · rwa [List.getElem?_append_left hlt] at hm
  · have hlt := (List.getElem?_eq_some_iff.mp hm).1
    rw [List.length_append, List.length_singleton] at hlt
    obtain rfl : j = l.length := by omega
    rw [List.getElem?_concat_length, Option.some_inj] at hm
    rw [← hm] at hy
    cases hy

theorem answered_concat (h : Slots p ans reqs ms part R s)
    (hr : reqs[ans ms.length]? = some r) (hpart : ∀ z ∈ part, z.header = y.header)
    (hsize : y.size = r.size) (j : ℕ) (m : List DMsg) (z : DMsg)
    (hm : (ms ++ [part ++ [y]])[j]? = some m) (hz : z ∈ m) :
    ∃ r, reqs[ans j]? = some r ∧ z.size = r.size := by
  rcases getElem?_concat_beat hm with ⟨-, hm⟩ | ⟨rfl, rfl⟩
  · exact h.answered j m z hm hz
  · refine ⟨r, hr, ?_⟩
    rcases List.mem_append.mp hz with hz | hz
    · exact (chanD.size_of_header (hpart z hz)).trans hsize
    · rw [List.mem_singleton.mp hz]
      exact hsize

/-- The slot of the response on the way lies in the window. -/
theorem ans_window (h : Slots p ans reqs ms part R s) (hans : Function.Injective ans)
    (hr : reqs[ans ms.length]? = some r) :
    R ≤ ans ms.length ∧ ans ms.length < R + p.numTracker :=
  ⟨h.le_ans hans, lt_of_lt_of_le (List.getElem?_eq_some_iff.mp hr).1 h.window⟩

theorem data_concat (h : Slots p ans reqs ms part R s) (hans : Function.Injective ans)
    (hr : reqs[ans ms.length]? = some r) (j : ℕ) (m : List DMsg) (k : ℕ) (z : DMsg)
    (hm : (ms ++ [part ++ [y]])[j]? = some m) (hz : m[k]? = some z) (hle : R ≤ ans j) :
    Function.update s.trackerData (dataIdx p part.length (ans ms.length % p.numTracker)) y.payload
      (dataIdx p k (ans j % p.numTracker)) = z.payload := by
  have hN := p.numTracker_pos
  have hslot := fun n => Nat.mod_lt n hN
  obtain ⟨hlo, hhi⟩ := h.ans_window hans hr
  rcases getElem?_concat_beat hm with ⟨hms, hm⟩ | ⟨rfl, rfl⟩
  · -- the slot of another message
    have hlt := lt_of_lt_of_le (h.lt_of_answered hms) h.window
    have hj := (List.getElem?_eq_some_iff.mp hms).1
    have hne : ans j ≠ ans ms.length := fun heq => by
      have := hans heq
      omega
    rw [Function.update_of_ne]
    · exact h.data j m k z hm hz hle
    · intro heq
      obtain ⟨-, hs⟩ := dataIdx_inj (hslot _) (hslot _) heq
      exact hne (Ring.eq_of_slot_eq hle hlt hlo hhi hs)
  · rcases Nat.lt_or_ge k part.length with hk | hk
    · -- an earlier beat of the message
      rw [List.getElem?_append_left hk] at hz
      rw [Function.update_of_ne]
      · exact h.data _ part k z (by rw [List.getElem?_concat_length]) hz hle
      · intro heq
        obtain ⟨hk', -⟩ := dataIdx_inj (hslot _) (hslot _) heq
        omega
    · have hk' := (List.getElem?_eq_some_iff.mp hz).1
      rw [List.length_append, List.length_singleton] at hk'
      obtain rfl : k = part.length := by omega
      rw [List.getElem?_concat_length, Option.some_inj] at hz
      rw [Function.update_self, hz]

/-- A beat that is not the last one of its message. -/
theorem store (h : Slots p ans reqs ms part R s) (hans : Function.Injective ans)
    (hr : reqs[ans ms.length]? = some r) (hpart : ∀ z ∈ part, z.header = y.header)
    (hsize : y.size = r.size) :
    Slots p ans reqs ms (part ++ [y]) R
      { s with
        trackerData := Function.update s.trackerData
          (dataIdx p part.length (ans ms.length % p.numTracker)) y.payload } :=
  ⟨h.freed_le, h.window, h.dIdx, h.freed, h.valid, h.ready, h.source, h.message,
    h.answered_concat hr hpart hsize, h.ctrl, h.data_concat hans hr⟩

/-- The last beat of a message. -/
theorem store_last (h : Slots p ans reqs ms part R s) (hans : Function.Injective ans)
    (hr : reqs[ans ms.length]? = some r) (hpart : ∀ z ∈ part, z.header = y.header)
    (hsize : y.size = r.size) (hmsg : chanD.IsMessage p.burst (part ++ [y])) :
    Slots p ans reqs (ms ++ [part ++ [y]]) [] R
      { s with
        trackerReady := Function.update s.trackerReady (ans ms.length % p.numTracker) true
        trackerCtrl := Function.update s.trackerCtrl (ans ms.length % p.numTracker) y.ctrl
        trackerData := Function.update s.trackerData
          (dataIdx p part.length (ans ms.length % p.numTracker)) y.payload } := by
  obtain ⟨hlo, hhi⟩ := h.ans_window hans hr
  have hlen : (ms ++ [part ++ [y]]).length = ms.length + 1 := by
    rw [List.length_append, List.length_singleton]
  refine ⟨h.freed_le, h.window, h.dIdx, fun n hn => ?_, h.valid, ?_, h.source, fun m hm => ?_,
    fun j m z hm hz => ?_, fun j m z hm hz hle => ?_, fun j m k z hm hz hle => ?_⟩
  · obtain ⟨j, hj, heq⟩ := h.freed n hn
    exact ⟨j, by omega, heq⟩
  · refine (h.ready.insert hlo hhi).congr fun n => ?_
    rw [hlen]
    constructor
    · rintro (⟨hle, j, hj, heq⟩ | rfl)
      · exact ⟨hle, j, by omega, heq⟩
      · exact ⟨hlo, ms.length, by omega, rfl⟩
    · rintro ⟨hle, j, hj, rfl⟩
      rcases Nat.lt_succ_iff_lt_or_eq.mp hj with hj | rfl
      · exact .inl ⟨hle, j, hj, rfl⟩
      · exact .inr rfl
  · rcases List.mem_append.mp hm with hm | hm
    · exact h.message m hm
    · rw [List.mem_singleton.mp hm]
      exact hmsg
  · exact h.answered_concat hr hpart hsize j m z (getElem?_of_concat_nil hm hz) hz
  · dsimp only
    rcases getElem?_concat_beat hm with ⟨hms, hm⟩ | ⟨rfl, rfl⟩
    · have hlt := lt_of_lt_of_le (h.lt_of_answered hms) h.window
      have hj := (List.getElem?_eq_some_iff.mp hms).1
      have hne : ans j ≠ ans ms.length := fun heq => by
        have := hans heq
        omega
      rw [Ring.update_of_ne hle hlt hlo hhi hne]
      exact h.ctrl j m z hms hz hle
    · rw [Function.update_self]
      rcases List.mem_append.mp hz with hz | hz
      · exact (ctrl_of_header (hpart z hz)).symm
      · rw [List.mem_singleton.mp hz]
  · exact h.data_concat hans hr j m k z
      (getElem?_of_concat_nil hm (List.mem_of_getElem? hz)) hz hle

end Store

end Slots

end Muntjac.Tl.FifoConverter

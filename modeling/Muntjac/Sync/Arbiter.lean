import Mathlib.Data.Nat.Count
import Muntjac.Sync.RoundRobin
import Muntjac.Sync.Run

/-!
# The round-robin arbiter in bits

`openip_round_robin_arbiter` keeps the last grant as a one-hot word and finds the next one with
two instances of `openip_priority_arbiter`; the first of them only sees the requests above the
last grant.  `RoundRobin` says the same with indices.

## Main definitions

* `priorityArbiter` — the lowest bit that is set.
* `oneHot` — the word with the bit of an index.
* `Arbiter` — the register and one cycle.
* `RoundRobin.distance` — how many others can still be served first.
* `TakesTurns` — no requester is passed over as often as there are requesters.

## Main results

* `Arbiter.grants_index` — in every run the word that is granted is that of the index.
* `takesTurns` — whatever follows the arbiter takes turns; `Arbiter.takesTurns_run` is the
  arbiter itself.
-/

namespace Muntjac.Sync

variable {w : ℕ}

/-! ## Words with one bit -/

/-- The least index whose flag is set. -/
theorem firstIdx_eq_some {f : Fin w → Bool} {i : Fin w} :
    firstIdx f = some i ↔ f i = true ∧ ∀ j < i, f j = false := by
  rw [firstIdx, List.find?_eq_some_iff_getElem]
  refine and_congr_right fun _ => ?_
  constructor
  · rintro ⟨k, hk, hki, hfirst⟩ j hj
    have hval : k = i.val := by
      rw [← hki, List.getElem_finRange]
      rfl
    have hjk : j.val < k := hval ▸ hj
    have hj' := hfirst j.val hjk
    simpa using hj'
  · intro hfirst
    refine ⟨i.val, by simp, by simp, fun j hj => ?_⟩
    have hj' := hfirst ⟨j, hj.trans i.isLt⟩ hj
    simpa using hj'

/-- The requests as flags. -/
def bitFlags (request : BitVec w) (i : Fin w) : Bool := request.getLsbD i

/-- The word that has the bit of the index, if there is one. -/
def oneHot : Option (Fin w) → BitVec w
  | none => 0#w
  | some i => BitVec.twoPow w i

theorem getLsbD_oneHot (a : Option (Fin w)) {i : ℕ} (hi : i < w) :
    (oneHot a).getLsbD i = decide (a = some ⟨i, hi⟩) := by
  cases a with
  | none => simp [oneHot]
  | some k => simp [oneHot, BitVec.getLsbD_twoPow, Fin.ext_iff]

theorem eq_zero_iff {x : BitVec w} : x = 0#w ↔ ∀ i, bitFlags x i = false := by
  constructor
  · rintro rfl i
    exact BitVec.getLsbD_zero
  · intro h
    apply BitVec.eq_of_getLsbD_eq
    intro i hi
    rw [BitVec.getLsbD_zero]
    exact h ⟨i, hi⟩

/-! ## The priority arbiter -/

/-- `openip_priority_arbiter`: the lowest bit that is set. -/
def priorityArbiter (request : BitVec w) : BitVec w := request &&& -request

theorem priorityArbiter_eq (request : BitVec w) :
    priorityArbiter request = oneHot (firstIdx (bitFlags request)) := by
  apply BitVec.eq_of_getLsbD_eq
  intro i hi
  rw [getLsbD_oneHot _ hi, priorityArbiter, BitVec.getLsbD_and, BitVec.getLsbD_neg,
    Bool.eq_iff_iff, decide_eq_true_iff, firstIdx_eq_some]
  -- the negation keeps the lowest bit and flips the bits above it
  have hbelow : (∀ j < (⟨i, hi⟩ : Fin w), bitFlags request j = false) ↔
      ¬∃ j < i, request.getLsbD j = true := by
    constructor
    · rintro h ⟨j, hj, hset⟩
      have hclear := h ⟨j, hj.trans hi⟩ hj
      rw [bitFlags] at hclear
      simp [hclear] at hset
    · intro h j hj
      exact Bool.eq_false_iff.mpr fun hset => h ⟨j, hj, hset⟩
  rw [hbelow, bitFlags, Bool.and_eq_true]
  refine and_congr_right fun hset => ?_
  rw [hset, decide_eq_true hi, Bool.true_and, Bool.true_xor, Bool.not_eq_true',
    decide_eq_false_iff_not]

/-! ## The arbiter -/

/-- The register of `openip_round_robin_arbiter`. -/
structure Arbiter (w : ℕ) where
  lastGrant : BitVec w
  deriving DecidableEq, Repr

/-- The inputs of a cycle. -/
structure ArbiterIn (w : ℕ) where
  enable : Bool
  request : BitVec w
  deriving DecidableEq, Repr

namespace Arbiter

def reset : Arbiter w := ⟨0#w⟩

section Cycle
variable (s : Arbiter w)

/-- The requests above the last grant. -/
def maskedRequest (request : BitVec w) : BitVec w :=
  (BitVec.concat (~~~(s.lastGrant - 1#w)) false).setWidth w &&& request

def grant (request : BitVec w) : BitVec w :=
  if s.maskedRequest request ≠ 0#w then priorityArbiter (s.maskedRequest request)
  else priorityArbiter request

/-- One clock edge. -/
def next (i : ArbiterIn w) : Arbiter w := if i.enable then ⟨s.grant i.request⟩ else s

end Cycle

/-- The arbiter with indices. -/
def indexNext (a : RoundRobin w) (i : ArbiterIn w) : RoundRobin w :=
  a.next i.enable (bitFlags i.request)

section Refines
variable {s : Arbiter w} {request : BitVec w}

/-- The complement of `last_grant - 1` is the negation of `last_grant`. -/
theorem bitFlags_maskedRequest (k : Fin w) : bitFlags (s.maskedRequest request) k =
    (bitFlags request k && (decide (0 < k.val) && (-s.lastGrant).getLsbD (k.val - 1))) := by
  rw [bitFlags, maskedRequest, BitVec.getLsbD_and, BitVec.getLsbD_setWidth,
    BitVec.not_sub_one_eq_not_add_one, ← BitVec.neg_eq_not_add, BitVec.getLsbD_concat, bitFlags]
  rcases Nat.eq_zero_or_pos k.val with hk | hk
  · simp [hk]
  · have hne : k.val ≠ 0 := by omega
    rw [if_neg hne, decide_eq_true k.isLt, decide_eq_true hk, Bool.true_and, Bool.and_comm]

/-- Negation sets the bit of the index and the bits above it. -/
theorem getLsbD_neg_oneHot (l : Fin w) {i : ℕ} (hi : i < w) :
    (-oneHot (some l)).getLsbD i = decide (l.val ≤ i) := by
  have hlow : (∃ j < i, (oneHot (some l)).getLsbD j = true) ↔ l.val < i := by
    constructor
    · rintro ⟨j, hj, hset⟩
      rw [getLsbD_oneHot _ (hj.trans hi), decide_eq_true_iff, Option.some_inj] at hset
      rw [hset]
      exact hj
    · intro hl
      refine ⟨l.val, hl, ?_⟩
      rw [getLsbD_oneHot _ l.isLt, decide_eq_true_iff]
  have hdec : decide (∃ j < i, (oneHot (some l)).getLsbD j = true) = decide (l.val < i) :=
    decide_eq_decide.mpr hlow
  rw [BitVec.getLsbD_neg, getLsbD_oneHot _ hi, decide_eq_true hi, Bool.true_and, hdec,
    Bool.eq_iff_iff]
  simp only [bne_iff_ne, ne_eq, decide_eq_decide, decide_eq_true_iff, Option.some_inj,
    Fin.ext_iff]
  omega

theorem bitFlags_maskedRequest_some (request : BitVec w) {l : Fin w}
    (h : s.lastGrant = oneHot (some l)) :
    bitFlags (s.maskedRequest request) = fun k => bitFlags request k && decide (l < k) := by
  funext k
  rw [bitFlags_maskedRequest, h, getLsbD_neg_oneHot l (by omega), ← Bool.decide_and]
  congr 2
  rw [Fin.lt_def]
  exact propext (by omega)

theorem maskedRequest_none (h : s.lastGrant = oneHot none) : s.maskedRequest request = 0#w := by
  rw [eq_zero_iff]
  intro k
  rw [bitFlags_maskedRequest, h, oneHot, BitVec.neg_zero, BitVec.getLsbD_zero, Bool.and_false,
    Bool.and_false]

/-- The grants agree when the registers do. -/
theorem grant_eq {a : RoundRobin w} (h : s.lastGrant = oneHot a.last) :
    s.grant request = oneHot (a.grant (bitFlags request)) := by
  rw [grant, RoundRobin.grant]
  cases hlast : a.last with
  | none =>
      rw [hlast] at h
      rw [if_neg (not_not.mpr (maskedRequest_none h)), priorityArbiter_eq]
  | some l =>
      rw [hlast] at h
      have hflags := bitFlags_maskedRequest_some request h
      by_cases hm : s.maskedRequest request = 0#w
      · have hnone : firstIdx (bitFlags (s.maskedRequest request)) = none :=
          firstIdx_eq_none.mpr (eq_zero_iff.mp hm)
        rw [hflags] at hnone
        rw [if_neg (not_not.mpr hm), priorityArbiter_eq]
        simp only [hnone, Option.none_or]
      · have hsome : firstIdx (bitFlags (s.maskedRequest request)) ≠ none := by
          rw [Ne, firstIdx_eq_none, ← eq_zero_iff]
          exact hm
        obtain ⟨j, hj⟩ := Option.ne_none_iff_exists'.mp hsome
        rw [if_pos hm, priorityArbiter_eq, hj]
        rw [hflags] at hj
        simp only [hj, Option.some_or]

theorem next_eq {a : RoundRobin w} (h : s.lastGrant = oneHot a.last) (i : ArbiterIn w) :
    (s.next i).lastGrant = oneHot (indexNext a i).last := by
  rw [next, indexNext, RoundRobin.next]
  cases i.enable with
  | true => exact grant_eq h
  | false => exact h

end Refines

section Runs
variable (ins : ℕ → ArbiterIn w)

theorem lastGrant_run (n : ℕ) : (run next reset ins n).lastGrant =
    oneHot (run indexNext RoundRobin.reset ins n).last := by
  induction n with
  | zero => rfl
  | succ n ih =>
      rw [run_succ, run_succ]
      exact next_eq ih (ins n)

/-- The arbiter grants the index of `RoundRobin`, in every cycle of every run. -/
theorem grants_index (n : ℕ) : (run next reset ins n).grant (ins n).request =
    oneHot ((run indexNext RoundRobin.reset ins n).grant (bitFlags (ins n).request)) :=
  grant_eq (lastGrant_run ins n)

end Runs

end Arbiter

/-! ## Waiting for a grant -/

/-- A rank that drops whenever `fair` holds reaches the event before `fair` has held more often
than the rank allows. -/
theorem exists_of_rank {fair : ℕ → Prop} [DecidablePred fair] (event : ℕ → Prop) (rank : ℕ → ℕ)
    {m : ℕ}
    (hquiet : ∀ c < m, ¬fair c → rank (c + 1) = rank c)
    (hfair : ∀ c < m, fair c → event c ∨ rank (c + 1) < rank c)
    (hcount : rank 0 < Nat.count fair m) : ∃ c < m, fair c ∧ event c := by
  by_contra hnone
  have hsum : ∀ c ≤ m, rank c + Nat.count fair c ≤ rank 0 := by
    intro c hc
    induction c with
    | zero => simp
    | succ c ih =>
        have hprev := ih (by omega)
        rw [Nat.count_succ]
        by_cases hf : fair c
        · rcases hfair c (by omega) hf with he | hlt
          · exact absurd ⟨c, by omega, hf, he⟩ hnone
          · rw [if_pos hf]
            omega
        · rw [if_neg hf, hquiet c (by omega) hf]
          exact hprev
  have hlast := hsum m le_rfl
  omega

namespace RoundRobin
variable {a : RoundRobin w} {request : Fin w → Bool} {k j : Fin w}

/-- How many other indices can be granted before `k`. -/
def distance (a : RoundRobin w) (k : Fin w) : ℕ :=
  match a.last with
  | none => k.val
  | some l => if l < k then k.val - l.val - 1 else w - 1 - l.val + k.val

theorem distance_lt (a : RoundRobin w) (k : Fin w) : a.distance k < w := by
  have hk := k.isLt
  rw [distance]
  cases a.last with
  | none => exact hk
  | some l =>
      have hl := l.isLt
      simp only [Fin.lt_def]
      split <;> omega

/-- The first request is not above one that is made. -/
theorem first_lt {f : Fin w → Bool} (hk : f k = true) (hj : firstIdx f = some j)
    (hne : j ≠ k) : j < k := by
  have hfirst := (firstIdx_eq_some.mp hj).2
  rcases lt_trichotomy j k with hlt | heq | hgt
  · exact hlt
  · exact absurd heq hne
  · rw [hfirst k hgt] at hk
    exact absurd hk Bool.false_ne_true

/-- A grant to another index brings `k` closer. -/
theorem distance_grant (hk : request k = true) (hj : a.grant request = some j) (hne : j ≠ k) :
    (⟨some j⟩ : RoundRobin w).distance k < a.distance k := by
  have hjw := j.isLt
  have hkw := k.isLt
  rw [grant] at hj
  rw [distance, distance]
  cases hlast : a.last with
  | none =>
      rw [hlast] at hj
      have hjk := first_lt hk hj hne
      rw [Fin.lt_def] at hjk
      simp only [Fin.lt_def, hjk, if_true]
      omega
  | some l =>
      rw [hlast] at hj
      simp only [Fin.lt_def] at hj ⊢
      rcases hm : firstIdx fun i => request i && decide (l.val < i.val) with _ | i
      · -- nothing is requested above `l`, so `k` is not above it
        rw [hm, Option.none_or] at hj
        have hjk := first_lt hk hj hne
        have hlk := firstIdx_eq_none.mp hm k
        rw [hk, Bool.true_and, decide_eq_false_iff_not] at hlk
        rw [Fin.lt_def] at hjk
        rw [if_pos hjk, if_neg hlk]
        omega
      · rw [hm, Option.some_or, Option.some_inj] at hj
        subst hj
        have hli := firstIdx_some hm
        rw [Bool.and_eq_true, decide_eq_true_iff] at hli
        by_cases hlk : l.val < k.val
        · have hik := first_lt (by simp [hk, hlk]) hm hne
          rw [Fin.lt_def] at hik
          rw [if_pos hik, if_pos hlk]
          omega
        · have hik : ¬i.val < k.val := by omega
          rw [if_neg hik, if_neg hlk]
          omega

end RoundRobin

/-- A requester that keeps its request is served before `n` others: in a stretch in which `k`
offers in every cycle and `n` offers are taken, one of them is that of `k`. -/
def TakesTurns {n : ℕ} (offers : ℕ → Fin n → Bool) (takes : ℕ → Bool)
    (serves : ℕ → Fin n → Prop) : Prop :=
  ∀ k t m, (∀ c < m, offers (t + c) k = true) →
    n ≤ Nat.count (fun c => takes (t + c) = true) m →
    ∃ c < m, takes (t + c) = true ∧ serves (t + c) k

section Turns
variable {offers : ℕ → Fin w → Bool} {takes : ℕ → Bool} {serves : ℕ → Fin w → Prop}

/-- An offer that is taken is that of `k`, or it brings `k` closer. -/
theorem RoundRobin.next_closer {a : RoundRobin w} {request : Fin w → Bool} {k : Fin w}
    (hk : request k = true) :
    a.grant request = some k ∨ (a.next true request).distance k < a.distance k := by
  obtain ⟨j, hj⟩ := Option.isSome_iff_exists.mp (RoundRobin.grant_isSome (a := a) hk)
  by_cases hjk : j = k
  · exact .inl (hjk ▸ hj)
  · right
    rw [RoundRobin.next, if_pos rfl, hj]
    exact RoundRobin.distance_grant hk hj hjk

/-- What is served follows the arbiter. -/
theorem takesTurns (last : ℕ → RoundRobin w)
    (hnext : ∀ c, last (c + 1) = (last c).next (takes c) (offers c))
    (hserves : ∀ c k, takes c = true → (last c).grant (offers c) = some k → serves c k) :
    TakesTurns offers takes serves := by
  intro k t m hoffers htakes
  have hgrant : ∃ c < m, takes (t + c) = true ∧
      (last (t + c)).grant (offers (t + c)) = some k := by
    apply exists_of_rank _ fun c => (last (t + c)).distance k
    · intro c _ hc
      rw [← Nat.add_assoc, hnext, RoundRobin.next, if_neg hc]
    · intro c hcm hc
      rw [← Nat.add_assoc, hnext, hc]
      exact RoundRobin.next_closer (hoffers c hcm)
    · exact Nat.lt_of_lt_of_le (RoundRobin.distance_lt _ k) htakes
  obtain ⟨c, hcm, hc, hk⟩ := hgrant
  exact ⟨c, hcm, hc, hserves _ k hc hk⟩

end Turns

/-- The arbiter takes turns: a request that stays is granted within `w` grants. -/
theorem Arbiter.takesTurns_run (ins : ℕ → ArbiterIn w) :
    TakesTurns (fun c => bitFlags (ins c).request) (fun c => (ins c).enable)
      fun c k => (run next reset ins c).grant (ins c).request = BitVec.twoPow w k := by
  apply takesTurns (run indexNext RoundRobin.reset ins)
  · intro c
    exact run_succ _ _ _ c
  · intro c k _ hk
    rw [grant_eq (lastGrant_run ins c), hk]
    rfl

/-- Two requesters that never stop are served in turn. -/
example : (List.range 4).map (fun c =>
    (run Arbiter.next Arbiter.reset (fun _ => ⟨true, 3#2⟩) c).grant 3#2) =
      [1#2, 2#2, 1#2, 2#2] := by decide

end Muntjac.Sync

import Mathlib.Logic.Function.Basic
import Muntjac.Pipeline.Frontend
import Muntjac.Sync.Run

/-!
# The branch predictors

`muntjac_btb` keeps the targets of jumps and taken branches, `muntjac_bp_bimodal` the outcomes
of branches in counters.  Both have a RAM that is indexed with the bits of the address above
the halfword, and answer an access in the next cycle.

## Main definitions

* `Btb` — the registers of the branch target buffer; after reset it clears its RAM.
* `Bimodal` — those of the branch history table.
* `countOutcome` — a counter from 0 to 3.

## Main results

* `Btb.predicts_run` — an access finds the last training of its entry, and hits if that was for
  the same word.
* `Bimodal.counts_run` — the prediction is that of a saturating counter of the outcomes.
-/

namespace Muntjac.Pipeline

open Sync

variable {l x : ℕ}

/-- The bits of an address that select an entry. -/
def predictorIndex (x : ℕ) (pc : BitVec l) : BitVec x := pc.extractLsb' 2 x

/-! ## The branch target buffer -/

/-- The bits of an address above the index. -/
def btbTag (x : ℕ) (pc : BitVec l) : BitVec (l - x - 2) := pc.extractLsb' (2 + x) (l - x - 2)

/-- `btb_entry_t`. -/
structure BtbEntry (l x : ℕ) where
  tag : BitVec (l - x - 2)
  halfUsed : Bool
  target : BitVec (l - 1)
  branchType : BranchType
  deriving DecidableEq, Repr

def BtbEntry.zero : BtbEntry l x := ⟨0, false, 0, .none⟩

structure BtbIn (l : ℕ) where
  trainValid : Bool
  trainBranchType : BranchType
  trainPc : BitVec l
  trainPartial : Bool
  trainNpc : BitVec l
  accessValid : Bool
  accessPc : BitVec l
  deriving DecidableEq, Repr

/-- The registers of `muntjac_btb`, with its RAM. -/
structure Btb (l x : ℕ) where
  mem : BitVec x → BtbEntry l x
  rData : BtbEntry l x
  resetInProgressQ : Bool
  resetIndexQ : BitVec x
  accessTagQ : BitVec (l - x - 2)

/-- The entry that a training writes. -/
def BtbIn.entry (x : ℕ) (i : BtbIn l) : BtbEntry l x where
  tag := btbTag x i.trainPc
  halfUsed := i.trainPartial
  target := i.trainNpc.extractLsb' 1 (l - 1)
  branchType := i.trainBranchType

namespace Btb

section Cycle
variable (s : Btb l x) (i : BtbIn l)

def wReq : Bool := if s.resetInProgressQ then true else i.trainValid
def wAddr : BitVec x := if s.resetInProgressQ then s.resetIndexQ else predictorIndex x i.trainPc
def wData : BtbEntry l x := if s.resetInProgressQ then .zero else i.entry x

/-- One clock edge; a read sees the RAM as it was before the write. -/
def step : Btb l x where
  mem := if s.wReq i then Function.update s.mem (s.wAddr i) (s.wData i) else s.mem
  rData := if i.accessValid then s.mem (predictorIndex x i.accessPc) else s.rData
  resetInProgressQ := s.resetInProgressQ && decide (s.resetIndexQ + 1#x ≠ 0#x)
  resetIndexQ := if s.resetInProgressQ then s.resetIndexQ + 1#x else s.resetIndexQ
  accessTagQ := if i.accessValid then btbTag x i.accessPc else s.accessTagQ

theorem step_mem : (s.step i).mem =
    if s.wReq i then Function.update s.mem (s.wAddr i) (s.wData i) else s.mem := rfl

theorem step_rData : (s.step i).rData =
    if i.accessValid then s.mem (predictorIndex x i.accessPc) else s.rData := rfl

theorem step_accessTagQ : (s.step i).accessTagQ =
    if i.accessValid then btbTag x i.accessPc else s.accessTagQ := rfl

def accessHit : Bool := decide (s.rData.tag = s.accessTagQ)
def accessBranchType : BranchType := s.rData.branchType
def accessPartial : Bool := s.rData.halfUsed
def accessNpc : BitVec l := (BitVec.concat s.rData.target false).setWidth l

end Cycle

/-- The registers after reset; the RAM has any contents. -/
structure IsReset (s : Btb l x) : Prop where
  resetInProgressQ : s.resetInProgressQ = true
  resetIndexQ : s.resetIndexQ = 0#x

/-- Cycle `t` trains the entry, once the RAM has been cleared. -/
def trains (x : ℕ) (ins : ℕ → BtbIn l) (idx : BitVec x) (t : ℕ) : Bool :=
  decide (2 ^ x ≤ t) && (ins t).trainValid &&
    decide (predictorIndex x (ins t).trainPc = idx)

/-- The clearing of the RAM after `n` cycles. -/
structure Sweep (n : ℕ) (s : Btb l x) : Prop where
  resetInProgressQ : s.resetInProgressQ = decide (n < 2 ^ x)
  resetIndexQ : n < 2 ^ x → s.resetIndexQ = BitVec.ofNat x n
  cleared : ∀ idx : BitVec x, idx.toNat < n → s.mem idx = .zero

theorem Sweep.step {n : ℕ} {s : Btb l x} (h : Sweep n s) (hn : n < 2 ^ x) (i : BtbIn l) :
    Sweep (n + 1) (s.step i) := by
  have hbusy : s.resetInProgressQ = true := by
    rw [h.resetInProgressQ, decide_eq_true hn]
  have hindex : s.resetIndexQ + 1#x = BitVec.ofNat x (n + 1) := by
    rw [h.resetIndexQ hn, ← BitVec.ofNat_add]
  refine ⟨?_, fun _ => ?_, fun idx hidx => ?_⟩
  · rw [Btb.step, hbusy, Bool.true_and, hindex, decide_eq_decide, Ne, ← BitVec.toNat_inj,
      BitVec.toNat_ofNat]
    rcases Nat.lt_or_ge (n + 1) (2 ^ x) with hlt | hge
    · rw [Nat.mod_eq_of_lt hlt]
      simp [hlt]
    · have heq : n + 1 = 2 ^ x := by omega
      simp [heq]
  · rw [Btb.step, hbusy, if_pos rfl, hindex]
  · have hmem : (s.step i).mem = Function.update s.mem (BitVec.ofNat x n) .zero := by
      rw [step_mem, wReq, wAddr, wData, hbusy, if_pos rfl, if_pos rfl, if_pos rfl, if_pos rfl,
        h.resetIndexQ hn]
    rw [hmem, Function.update_apply]
    split_ifs with heq
    · rfl
    · apply h.cleared
      have hne : idx.toNat ≠ n := by
        intro hidxn
        apply heq
        rw [← BitVec.toNat_inj, BitVec.toNat_ofNat, Nat.mod_eq_of_lt hn, hidxn]
      omega

section Run
variable {s₀ : Btb l x} {ins : ℕ → BtbIn l}

theorem sweep_run (h : IsReset s₀) {n : ℕ} (hn : n ≤ 2 ^ x) : Sweep n (run step s₀ ins n) := by
  induction n with
  | zero =>
      refine ⟨?_, fun _ => h.resetIndexQ, fun idx hidx => absurd hidx (Nat.not_lt_zero _)⟩
      rw [run_zero, h.resetInProgressQ, decide_eq_true (Nat.two_pow_pos x)]
  | succ n ih =>
      rw [run_succ]
      exact (ih (by omega)).step (by omega) (ins n)

/-- The RAM is not cleared again. -/
theorem resetInProgressQ_run (ins : ℕ → BtbIn l) (h : IsReset s₀) {n : ℕ} (hn : 2 ^ x ≤ n) :
    (run step s₀ ins n).resetInProgressQ = false := by
  induction n, hn using Nat.le_induction with
  | base =>
      rw [(sweep_run h le_rfl).resetInProgressQ, decide_eq_false (Nat.lt_irrefl _)]
  | succ n _ ih =>
      rw [run_succ, step, ih, Bool.false_and]

/-- A training writes its entry, and no other. -/
theorem mem_succ (h : IsReset s₀) {n : ℕ} (hn : 2 ^ x ≤ n) (idx : BitVec x) :
    (run step s₀ ins (n + 1)).mem idx =
      if trains x ins idx n then (ins n).entry x else (run step s₀ ins n).mem idx := by
  have hdone := resetInProgressQ_run ins h hn
  rw [run_succ, step_mem, wReq, wAddr, wData, hdone, if_neg Bool.false_ne_true,
    if_neg Bool.false_ne_true, if_neg Bool.false_ne_true, trains, decide_eq_true hn,
    Bool.true_and]
  cases (ins n).trainValid with
  | false => rfl
  | true =>
      rw [if_pos rfl, Function.update_apply, Bool.true_and]
      by_cases hidx : idx = predictorIndex x (ins n).trainPc
      · rw [if_pos hidx, if_pos (decide_eq_true hidx.symm)]
      · rw [if_neg hidx, if_neg (by simpa using Ne.symm hidx)]

/-- An entry is what the last training has written. -/
theorem mem_lastTrained (h : IsReset s₀) {idx : BitVec x} {t n : ℕ}
    (ht : LastLoad (trains x ins idx) t n) : (run step s₀ ins n).mem idx = (ins t).entry x := by
  have hsweep : 2 ^ x ≤ t := by
    have hloads := ht.loads
    simp only [trains, Bool.and_eq_true, decide_eq_true_eq] at hloads
    exact hloads.1.1
  have hwritten : (run step s₀ ins (t + 1)).mem idx = (ins t).entry x := by
    rw [mem_succ h hsweep, if_pos ht.loads]
  have hkeeps : ∀ k, trains x ins idx k = false →
      2 ^ x ≤ k ∧ (run step s₀ ins k).mem idx = (ins t).entry x →
      2 ^ x ≤ k + 1 ∧ (run step s₀ ins (k + 1)).mem idx = (ins t).entry x := by
    rintro k hk ⟨hle, hmem⟩
    refine ⟨by omega, ?_⟩
    rw [mem_succ h hle, hk, if_neg Bool.false_ne_true]
    exact hmem
  exact (hold_of_quiet hkeeps ⟨by omega, hwritten⟩ ht.lt fun k hk hle => ht.quiet k hk hle).2

/-- The registers of an access keep what it has read. -/
theorem access_run (s₀ : Btb l x) {c n : ℕ} (hc : LastLoad (fun k => (ins k).accessValid) c n) :
    (run step s₀ ins n).rData = (run step s₀ ins c).mem (predictorIndex x (ins c).accessPc) ∧
      (run step s₀ ins n).accessTagQ = btbTag x (ins c).accessPc := by
  have hread := hc.loads
  constructor
  · rw [hc.eq (f := fun k => (run step s₀ ins k).rData)
      fun k hk => by rw [run_succ, step_rData, hk, if_neg Bool.false_ne_true],
      run_succ, step_rData, hread, if_pos rfl]
  · rw [hc.eq (f := fun k => (run step s₀ ins k).accessTagQ)
      fun k hk => by rw [run_succ, step_accessTagQ, hk, if_neg Bool.false_ne_true],
      run_succ, step_accessTagQ, hread, if_pos rfl]

end Run

/-- Two addresses with the same entry have the same tag exactly if they are in the same word. -/
theorem tag_eq_iff (hx : x + 2 ≤ l) {a b : BitVec l}
    (hindex : predictorIndex x a = predictorIndex x b) :
    btbTag x a = btbTag x b ↔ a >>> 2 = b >>> 2 := by
  constructor
  · intro htag
    apply BitVec.eq_of_getLsbD_eq
    intro i hi
    rw [BitVec.getLsbD_ushiftRight, BitVec.getLsbD_ushiftRight]
    rcases Nat.lt_or_ge i x with hlow | hhigh
    · have hbit := congrArg (fun v => v.getLsbD i) hindex
      simpa [predictorIndex, BitVec.getLsbD_extractLsb', hlow] using hbit
    · rcases Nat.lt_or_ge (2 + i) l with hin | hout
      · have hbit := congrArg (fun v => v.getLsbD (i - x)) htag
        have hlt : i - x < l - x - 2 := by omega
        have hsum : 2 + x + (i - x) = 2 + i := by omega
        simpa only [btbTag, BitVec.getLsbD_extractLsb', hlt, hsum, decide_true, Bool.true_and]
          using hbit
      · rw [BitVec.getLsbD_of_ge _ _ hout, BitVec.getLsbD_of_ge _ _ hout]
  · intro hword
    apply BitVec.eq_of_getLsbD_eq
    intro i hi
    have hbit := congrArg (fun v => v.getLsbD (x + i)) hword
    have hsum : 2 + (x + i) = 2 + x + i := by omega
    simpa only [btbTag, BitVec.getLsbD_extractLsb', BitVec.getLsbD_ushiftRight, hi, hsum,
      decide_true, Bool.true_and] using hbit

/-- What an access shows: the last training of its entry, and a hit if it was for the same
word. -/
structure Predicts (s : Btb l x) (training access : BtbIn l) : Prop where
  hit : s.accessHit = decide (training.trainPc >>> 2 = access.accessPc >>> 2)
  branchType : s.accessBranchType = training.trainBranchType
  halfUsed : s.accessPartial = training.trainPartial
  npc : s.accessNpc = (BitVec.concat (training.trainNpc.extractLsb' 1 (l - 1)) false).setWidth l

/-- In every run, an access after the RAM has been cleared finds what its entry was last
trained with. -/
theorem predicts_run {s₀ : Btb l x} {ins : ℕ → BtbIn l} (hx : x + 2 ≤ l) (h : IsReset s₀)
    {t c n : ℕ} (hc : LastLoad (fun k => (ins k).accessValid) c n)
    (ht : LastLoad (trains x ins (predictorIndex x (ins c).accessPc)) t c) :
    Predicts (run step s₀ ins n) (ins t) (ins c) := by
  obtain ⟨hdata, htag⟩ := access_run s₀ hc
  rw [mem_lastTrained h ht] at hdata
  have hindex : predictorIndex x (ins t).trainPc = predictorIndex x (ins c).accessPc := by
    have hloads := ht.loads
    simp only [trains, Bool.and_eq_true, decide_eq_true_eq] at hloads
    exact hloads.2
  refine ⟨?_, ?_, ?_, ?_⟩
  · rw [accessHit, hdata, htag]
    exact decide_eq_decide.mpr (tag_eq_iff hx hindex)
  · rw [accessBranchType, hdata, BtbIn.entry]
  · rw [accessPartial, hdata, BtbIn.entry]
  · rw [accessNpc, hdata, BtbIn.entry]

/-- A buffer with two entries. -/
def twoEntries : Btb 4 1 := ⟨fun _ => .zero, .zero, true, 0#1, 0#1⟩

/-- A jump is learnt in cycle 2 and looked up in cycle 3. -/
def learnJump (k : ℕ) : BtbIn 4 := ⟨k == 2, .jump, 4#4, false, 8#4, k == 3, 4#4⟩

theorem predicts_learnJump :
    Predicts (run step twoEntries learnJump 4) (learnJump 2) (learnJump 3) :=
  predicts_run (by decide) ⟨rfl, rfl⟩ (by decide) (by decide)

end Btb

/-! ## The branch history table -/

/-- `train_state`: the states are 01, 00, 10 and 11, from not taken to taken. -/
def trainState (state : BitVec 2) (taken : Bool) : BitVec 2 :=
  if state = 0b01#2 then if taken then 0b00#2 else 0b01#2
  else if state = 0b00#2 then if taken then 0b10#2 else 0b01#2
  else if state = 0b10#2 then if taken then 0b11#2 else 0b00#2
  else if taken then 0b11#2 else 0b10#2

structure BimodalIn (l : ℕ) where
  trainValid : Bool
  trainTaken : Bool
  trainPc : BitVec l
  accessValid : Bool
  accessPc : BitVec l
  deriving DecidableEq, Repr

/-- The registers of `muntjac_bp_bimodal`, with its RAM. -/
structure Bimodal (x : ℕ) where
  mem : BitVec x → BitVec 2
  accessTaken : Bool

namespace Bimodal

def reset : Bimodal x := ⟨fun _ => 0b00#2, false⟩

/-- One clock edge. -/
def step (s : Bimodal x) (i : BimodalIn l) : Bimodal x where
  mem :=
    if i.trainValid then
      Function.update s.mem (predictorIndex x i.trainPc)
        (trainState (s.mem (predictorIndex x i.trainPc)) i.trainTaken)
    else s.mem
  accessTaken :=
    if i.accessValid then (s.mem (predictorIndex x i.accessPc)).getLsbD 1 else s.accessTaken

section Cycle
variable (s : Bimodal x) (i : BimodalIn l)

theorem step_mem : (s.step i).mem =
    if i.trainValid then
      Function.update s.mem (predictorIndex x i.trainPc)
        (trainState (s.mem (predictorIndex x i.trainPc)) i.trainTaken)
    else s.mem := rfl

theorem step_accessTaken : (s.step i).accessTaken =
    if i.accessValid then (s.mem (predictorIndex x i.accessPc)).getLsbD 1 else s.accessTaken := rfl

end Cycle

end Bimodal

/-- A counter from 0 to 3 that counts up when a branch is taken. -/
def countOutcome (k : Fin 4) (taken : Bool) : Fin 4 :=
  if taken then if k = 3 then 3 else k + 1 else if k = 0 then 0 else k - 1

/-- The state that stands for a value of the counter. -/
def counterState (k : Fin 4) : BitVec 2 :=
  if k = 0 then 0b01#2 else if k = 1 then 0b00#2 else if k = 2 then 0b10#2 else 0b11#2

theorem trainState_counterState (k : Fin 4) (taken : Bool) :
    trainState (counterState k) taken = counterState (countOutcome k taken) := by
  revert k taken
  decide

theorem counterState_taken (k : Fin 4) : (counterState k).getLsbD 1 = decide (2 ≤ k) := by
  revert k
  decide

namespace Bimodal

/-- The counter of an entry, weakly not taken at first. -/
def counter (ins : ℕ → BimodalIn l) (idx : BitVec x) : ℕ → Fin 4
  | 0 => 1
  | n + 1 =>
    if (ins n).trainValid && decide (predictorIndex x (ins n).trainPc = idx) then
      countOutcome (counter ins idx n) (ins n).trainTaken
    else counter ins idx n

section Run
variable (ins : ℕ → BimodalIn l)

theorem mem_run (n : ℕ) (idx : BitVec x) :
    (run step reset ins n).mem idx = counterState (counter ins idx n) := by
  induction n with
  | zero => rfl
  | succ n ih =>
      rw [run_succ, step_mem, counter]
      cases (ins n).trainValid with
      | false => simpa using ih
      | true =>
          by_cases hidx : predictorIndex x (ins n).trainPc = idx
          · subst hidx
            simp only [if_true, Function.update_self, Bool.true_and, decide_true]
            rw [ih, trainState_counterState]
          · have hne : idx ≠ predictorIndex x (ins n).trainPc := Ne.symm hidx
            simpa [Function.update_of_ne hne, hidx] using ih

/-- The prediction of the last access: the counter of the outcomes so far is at least 2. -/
theorem counts_run {c n : ℕ} (hc : LastLoad (fun k => (ins k).accessValid) c n) :
    (run step (reset : Bimodal x) ins n).accessTaken =
      decide (2 ≤ counter ins (predictorIndex x (ins c).accessPc) c) := by
  rw [hc.eq (f := fun k => (run step (reset : Bimodal x) ins k).accessTaken)
    fun k hk => by rw [run_succ, step_accessTaken, hk, if_neg Bool.false_ne_true],
    run_succ, step_accessTaken, hc.loads, if_pos rfl, mem_run, counterState_taken]

end Run

/-- A branch that is looked up and taken in every cycle. -/
def alwaysTaken (_ : ℕ) : BimodalIn 4 := ⟨true, true, 4#4, true, 4#4⟩

theorem counts_alwaysTaken : (run step (reset : Bimodal 1) alwaysTaken 3).accessTaken =
    decide (2 ≤ counter alwaysTaken (predictorIndex 1 (alwaysTaken 2).accessPc) 2) :=
  counts_run alwaysTaken (by decide)

end Bimodal

end Muntjac.Pipeline

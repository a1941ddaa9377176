import Muntjac.Riscv.Arith
import Muntjac.Sync.Server
import Muntjac.Sync.Window
import Mathlib.Tactic.Ring

/-!
# The divider

`muntjac_div` divides the magnitudes of its operands bit by bit and fixes the signs at the
end.  The dividend is held in reverse, so that its next bit is bit 0 of `a_q`.

After `k` bits of the dividend, with `p` the number that they make, `rem_q` is `p % b` and
`quo_q` is `p / b`; for `b = 0` every quotient bit is one and `rem_q` is `p`.

## Main definitions

* `Divider.step` — one cycle.
* `Divider.Loop` — the invariant of the loop.

## Main results

* `Divider.step_loop` — an iteration keeps the invariant and shifts out no bit.
* `Divider.serves_division` — every request is answered by the architecture's result.
-/

namespace Muntjac.Pipeline

open Sync Riscv

inductive DivState
  | idle
  | progress
  | output
  deriving DecidableEq, Repr

/-- The registers of `muntjac_div`. -/
structure Divider where
  stateQ : DivState
  aQ : BitVec 64
  bQ : BitVec 64
  quoNegQ : Bool
  remNegQ : Bool
  wordQ : Bool
  useRemQ : Bool
  iterQ : BitVec 6
  quoQ : BitVec 64
  remQ : BitVec 64
  respValid : Bool
  respValue : BitVec 64
  deriving DecidableEq, Repr

/-- The inputs of one cycle. -/
structure DivIn where
  operandA : BitVec 64
  operandB : BitVec 64
  reqOp : BitVec 2
  reqWord : Bool
  reqValid : Bool
  deriving DecidableEq, Repr

namespace DivIn

/-- `i_unsigned`. -/
def isUnsigned (i : DivIn) : Bool := i.reqOp.getLsbD 0

/-- `use_rem_i`. -/
def useRem (i : DivIn) : Bool := i.reqOp.getLsbD 1

/-- The sign of an operand. -/
def sign (i : DivIn) (x : BitVec 64) : Bool :=
  !i.isUnsigned && if i.reqWord then x.getLsbD 31 else x.getLsbD 63

/-- The magnitude of an operand. -/
def mag (i : DivIn) (x : BitVec 64) : BitVec 64 :=
  if i.reqWord then
    if i.sign x then -(x.setWidth 32).signExtend 64 else (x.setWidth 32).setWidth 64
  else if i.sign x then -x else x

/-- `a_rev`: the reversed dividend. -/
def aRev (i : DivIn) : BitVec 64 :=
  if i.reqWord then (((i.mag i.operandA).setWidth 32).reverse).setWidth 64
  else (i.mag i.operandA).reverse

end DivIn

namespace Divider

/-- Reset leaves the operands undefined. -/
def reset : Divider := ⟨.idle, 0, 0, false, false, false, false, 0, 0, 0, false, 0⟩

/-- `StateIdle` with a request. -/
def accept (s : Divider) (i : DivIn) : Divider :=
  { s with
    stateQ := .progress
    iterQ := if i.reqWord then 31 else 63
    quoQ := 0
    remQ := 0
    aQ := i.aRev
    bQ := i.mag i.operandB
    quoNegQ := (i.sign i.operandA ^^ i.sign i.operandB) && i.mag i.operandB != 0
    remNegQ := i.sign i.operandA
    wordQ := i.reqWord
    useRemQ := i.useRem
    respValid := false }

/-- `rem_d` before the comparison: the next bit of the dividend is shifted in. -/
def shifted (s : Divider) : BitVec 64 := s.remQ.extractLsb' 0 63 ++ s.aQ.extractLsb' 0 1

/-- `StateProgress`. -/
def iterate (s : Divider) : Divider :=
  { s with
    stateQ := if s.iterQ = 0 then .output else .progress
    iterQ := s.iterQ - 1
    aQ := 0#1 ++ s.aQ.extractLsb' 1 63
    remQ := if s.bQ ≤ s.shifted then s.shifted - s.bQ else s.shifted
    quoQ := s.quoQ.extractLsb' 0 63 ++ BitVec.ofBool (decide (s.bQ ≤ s.shifted))
    respValid := false }

/-- `o_value_d` before the extension of words. -/
def value (s : Divider) : BitVec 64 :=
  if s.useRemQ then if s.remNegQ then -s.remQ else s.remQ
  else if s.quoNegQ then -s.quoQ else s.quoQ

/-- `StateOutput`. -/
def output (s : Divider) : Divider :=
  { s with
    stateQ := .idle
    respValid := true
    respValue := if s.wordQ then (s.value.setWidth 32).signExtend 64 else s.value }

def step (s : Divider) (i : DivIn) : Divider :=
  match s.stateQ with
  | .idle => if i.reqValid then s.accept i else { s with respValid := false }
  | .progress => s.iterate
  | .output => s.output

theorem step_idle {s : Divider} {i : DivIn} (h : s.stateQ = .idle) (hv : i.reqValid = true) :
    step s i = s.accept i := by
  rw [step, h]
  simp [hv]

theorem step_progress {s : Divider} {i : DivIn} (h : s.stateQ = .progress) :
    step s i = s.iterate := by
  rw [step, h]

theorem step_output {s : Divider} {i : DivIn} (h : s.stateQ = .output) : step s i = s.output := by
  rw [step, h]

/-- The divider with its ports. -/
def unit : Server Divider DivIn (BitVec 64) where
  step := step
  ready := fun s => s.stateQ == .idle
  valid := DivIn.reqValid
  resp := fun s => if s.respValid then some s.respValue else none

theorem resp_eq_none {s : Divider} (h : s.respValid = false) : unit.resp s = none :=
  if_neg (by simp [h])

/-! ## The loop -/

section Bits

/-- The first `k` of the `w` bits of `n`, as a number. -/
def firstBits (w n k : ℕ) : ℕ := n / 2 ^ (w - k)

theorem firstBits_lt {w n k : ℕ} (hn : n < 2 ^ w) (hk : k ≤ w) : firstBits w n k < 2 ^ k := by
  rw [firstBits, Nat.div_lt_iff_lt_mul (Nat.two_pow_pos _), ← Nat.pow_add,
    Nat.add_sub_cancel' hk]
  exact hn

theorem firstBits_zero {w n : ℕ} (hn : n < 2 ^ w) : firstBits w n 0 = 0 :=
  Nat.div_eq_of_lt hn

theorem firstBits_self (w n : ℕ) : firstBits w n w = n := by
  rw [firstBits, Nat.sub_self, Nat.pow_zero, Nat.div_one]

/-- One bit more. -/
theorem firstBits_succ {w n k : ℕ} (hk : k < w) :
    firstBits w n (k + 1) = 2 * firstBits w n k + (n.testBit (w - 1 - k)).toNat := by
  have hexp : w - k = w - (k + 1) + 1 := by omega
  have hbit : (n.testBit (w - 1 - k)).toNat = n / 2 ^ (w - (k + 1)) % 2 := by
    rw [Nat.testBit_eq_decide_div_mod_eq, show w - 1 - k = w - (k + 1) by omega]
    rcases Nat.mod_two_eq_zero_or_one (n / 2 ^ (w - (k + 1))) with h | h <;> simp [h]
  rw [firstBits, firstBits, hbit, hexp, Nat.pow_succ, ← Nat.div_div_eq_div_mul]
  omega

/-- A step of long division; every quotient by zero is taken. -/
theorem mod_step {p b c : ℕ} (hc : c < 2) :
    (2 * p + c) % b = if b ≤ 2 * (p % b) + c then 2 * (p % b) + c - b else 2 * (p % b) + c := by
  rcases Nat.eq_zero_or_pos b with rfl | hb
  · simp
  · have hlt := Nat.mod_lt p hb
    have hred : (2 * p + c) % b = (2 * (p % b) + c) % b := by
      conv_lhs => rw [← Nat.div_add_mod p b]
      rw [show 2 * (b * (p / b) + p % b) + c = 2 * (p % b) + c + b * (2 * (p / b)) by ring,
        Nat.add_mul_mod_self_left]
    rw [hred]
    split_ifs with h
    · rw [Nat.mod_eq_sub_mod h, Nat.mod_eq_of_lt (by omega)]
    · exact Nat.mod_eq_of_lt (by omega)

theorem div_step {p b c : ℕ} (hb : 0 < b) (hc : c < 2) :
    (2 * p + c) / b = 2 * (p / b) + if b ≤ 2 * (p % b) + c then 1 else 0 := by
  have hlt := Nat.mod_lt p hb
  have hsplit : 2 * p + c = b * (2 * (p / b)) + (2 * (p % b) + c) := by
    conv_lhs => rw [← Nat.div_add_mod p b]
    ring
  rw [hsplit, Nat.mul_add_div hb]
  congr 1
  split_ifs with h
  · rw [Nat.div_eq_of_lt_le] <;> omega
  · exact Nat.div_eq_of_lt (by omega)

end Bits

/-- The divider after `k` of the `w` bits of the dividend `n`, with the divisor `d`. -/
structure Loop (w n d k : ℕ) (s : Divider) : Prop where
  le : k ≤ w
  state : s.stateQ = if k = w then .output else .progress
  iter : k < w → s.iterQ.toNat = w - 1 - k
  dividend : ∀ j, k + j < w → s.aQ.getLsbD j = n.testBit (w - 1 - (k + j))
  divisor : s.bQ.toNat = d
  rem : s.remQ.toNat = firstBits w n k % d
  quo : s.quoQ.toNat = if d = 0 then 2 ^ k - 1 else firstBits w n k / d

section Loop
variable {w n d k : ℕ} {s : Divider}

/-- The partial remainder is smaller than the divisor, or than `2 ^ k`. -/
theorem Loop.rem_lt (h : Loop w n d k s) (hn : n < 2 ^ w) :
    (0 < d → s.remQ.toNat < d) ∧ s.remQ.toNat < 2 ^ k := by
  rw [h.rem]
  refine ⟨Nat.mod_lt _, ?_⟩
  exact (Nat.mod_le _ _).trans_lt (firstBits_lt hn h.le)

/-- Shifting a bit into a number that leaves the top bit free. -/
theorem toNat_shiftIn {x : BitVec 64} (c : BitVec 1) (hx : x.toNat < 2 ^ 63) :
    (x.extractLsb' 0 63 ++ c).toNat = 2 * x.toNat + c.toNat := by
  rw [toNat_append_add, BitVec.extractLsb'_toNat, Nat.shiftRight_zero, Nat.mod_eq_of_lt hx]
  omega

theorem toNat_lowBit (x : BitVec 64) : (x.extractLsb' 0 1).toNat = (x.getLsbD 0).toNat := by
  rw [BitVec.extractLsb'_toNat, Nat.shiftRight_zero, Nat.pow_one, BitVec.getLsbD,
    Nat.testBit_zero]
  rcases Nat.mod_two_eq_zero_or_one x.toNat with h | h <;> simp [h]

/-- An iteration takes one more bit of the dividend, and shifts no set bit out. -/
theorem Loop.step (h : Loop w n d k s) (hw : w ≤ 64) (hn : n < 2 ^ w) (hk : k < w) :
    Loop w n d (k + 1) s.iterate := by
  have hpow : 2 ^ k ≤ 2 ^ 63 := Nat.pow_le_pow_right (by decide) (by omega)
  have hrem : s.remQ.toNat < 2 ^ 63 := (h.rem_lt hn).2.trans_le hpow
  have hquo : s.quoQ.toNat < 2 ^ k := by
    have hp := firstBits_lt hn h.le
    rw [h.quo]
    split_ifs
    · have := Nat.two_pow_pos k
      omega
    · exact (Nat.div_le_self _ _).trans_lt hp
  have hbit : (s.aQ.getLsbD 0).toNat = (n.testBit (w - 1 - k)).toNat :=
    congrArg Bool.toNat (h.dividend 0 (by omega))
  have hc : (n.testBit (w - 1 - k)).toNat < 2 := Bool.toNat_lt _
  have hshift : s.shifted.toNat =
      2 * (firstBits w n k % d) + (n.testBit (w - 1 - k)).toNat := by
    rw [shifted, toNat_shiftIn _ hrem, toNat_lowBit, hbit, h.rem]
  have hle : s.bQ ≤ s.shifted ↔ d ≤ 2 * (firstBits w n k % d) + (n.testBit (w - 1 - k)).toNat := by
    rw [BitVec.le_def, h.divisor, hshift]
  refine ⟨hk, ?_, fun hk' => ?_, fun j hj => ?_, h.divisor, ?_, ?_⟩
  · change (if s.iterQ = 0 then DivState.output else .progress) = _
    have hzero : s.iterQ = 0 ↔ k + 1 = w := by
      rw [← BitVec.toNat_inj, h.iter hk]
      change w - 1 - k = 0 ↔ _
      omega
    simp only [hzero]
  · change (s.iterQ - 1).toNat = _
    have hiter := h.iter hk
    rw [BitVec.toNat_sub_of_le (by rw [BitVec.le_def, hiter]; change 1 ≤ _; omega), hiter]
    change w - 1 - k - 1 = _
    omega
  · change (0#1 ++ s.aQ.extractLsb' 1 63).getLsbD j = _
    rw [BitVec.getLsbD_append, if_pos (by omega), BitVec.getLsbD_extractLsb',
      h.dividend (1 + j) (by omega)]
    simp [show j < 63 by omega, show k + (1 + j) = k + 1 + j by omega]
  · change (if s.bQ ≤ s.shifted then s.shifted - s.bQ else s.shifted).toNat = _
    rw [firstBits_succ hk, mod_step hc]
    by_cases hd : s.bQ ≤ s.shifted
    · rw [if_pos hd, if_pos (hle.mp hd), BitVec.toNat_sub_of_le hd, hshift, h.divisor]
    · rw [if_neg hd, if_neg (fun h' => hd (hle.mpr h')), hshift]
  · change (s.quoQ.extractLsb' 0 63 ++ BitVec.ofBool (decide (s.bQ ≤ s.shifted))).toNat = _
    have hdec : decide (s.bQ ≤ s.shifted) =
        decide (d ≤ 2 * (firstBits w n k % d) + (n.testBit (w - 1 - k)).toNat) :=
      decide_eq_decide.mpr hle
    rw [toNat_shiftIn _ (hquo.trans_le hpow), h.quo, firstBits_succ hk, hdec]
    by_cases hd : d = 0
    · have := Nat.two_pow_pos k
      simp only [hd, if_true, Nat.zero_le, decide_true, Nat.pow_succ]
      change 2 * (2 ^ k - 1) + 1 = _
      omega
    · rw [if_neg hd, if_neg hd, div_step (Nat.pos_of_ne_zero hd) hc]
      congr 1
      split_ifs with hlt
      · simp [hlt]
      · simp [hlt]

end Loop

/-! ## The operands -/

section Operands
variable {w : ℕ}

/-- The magnitude of a number. -/
def magnitude (isUnsigned : Bool) (x : BitVec w) : ℕ :=
  if isUnsigned then x.toNat else x.toInt.natAbs

/-- Negation takes the magnitude of a negative number. -/
theorem magnitude_eq (isUnsigned : Bool) (x : BitVec w) :
    magnitude isUnsigned x = if !isUnsigned && x.msb then 2 ^ w - x.toNat else x.toNat := by
  have hx := x.isLt
  cases isUnsigned
  · simp only [magnitude, Bool.false_eq_true, if_false, Bool.not_false, Bool.true_and,
      BitVec.toInt_eq_msb_cond]
    split_ifs with h
    · omega
    · omega
  · simp [magnitude]

theorem magnitude_lt (isUnsigned : Bool) (x : BitVec w) :
    magnitude isUnsigned x < 2 ^ w := by
  have hx := x.isLt
  rw [magnitude_eq]
  split_ifs with h
  · have hpos : 0 < x.toNat := by
      have hmsb : x.msb = true := (Bool.and_eq_true_iff.mp h).2
      rw [BitVec.msb_eq_decide, decide_eq_true_eq] at hmsb
      have := Nat.two_pow_pos (w - 1)
      omega
    omega
  · exact hx

theorem toInt_eq_magnitude (x : BitVec w) :
    x.toInt = if x.msb then -(magnitude false x : ℤ) else magnitude false x := by
  have hx := x.isLt
  rw [magnitude_eq, BitVec.toInt_eq_msb_cond]
  by_cases h : x.msb = true
  · simp only [h, if_true, Bool.not_false, Bool.true_and]
    omega
  · simp [h]

theorem magnitude_eq_zero {isUnsigned : Bool} {x : BitVec w} :
    magnitude isUnsigned x = 0 ↔ x = 0 := by
  cases isUnsigned
  · simp [magnitude, ← BitVec.toInt_inj]
  · simp [magnitude, ← BitVec.toNat_inj]

theorem eq_ofNat_of_toNat {x : BitVec w} {n : ℕ} (h : x.toNat = n) : x = BitVec.ofNat w n := by
  rw [← h, BitVec.ofNat_toNat, BitVec.setWidth_eq]

/-- The quotient of the magnitudes, with its sign. -/
theorem signed_quotient {isUnsigned : Bool} {x y q : BitVec w}
    (hq : q.toNat = if magnitude isUnsigned y = 0 then 2 ^ w - 1
      else magnitude isUnsigned x / magnitude isUnsigned y) :
    (if ((!isUnsigned && x.msb) ^^ (!isUnsigned && y.msb)) && magnitude isUnsigned y != 0 then -q
      else q) = if isUnsigned then quotientU x y else quotient x y := by
  by_cases hy : y = 0
  · have hd : magnitude isUnsigned y = 0 := magnitude_eq_zero.mpr hy
    have hones : q = BitVec.allOnes w := by
      rw [if_pos hd] at hq
      exact BitVec.eq_of_toNat_eq (hq.trans BitVec.toNat_allOnes.symm)
    rw [quotientU, quotient, if_pos hy, if_pos hy, ite_self, hd, hones]
    simp
  · have hd : magnitude isUnsigned y ≠ 0 := fun h => hy (magnitude_eq_zero.mp h)
    rw [if_neg hd] at hq
    have hq' := eq_ofNat_of_toNat hq
    cases isUnsigned
    · have hdiv : BitVec.ofInt w ((magnitude false x : ℤ) / magnitude false y) = q := by
        rw [hq', ← Int.natCast_ediv, BitVec.ofInt_natCast]
      rw [quotient, if_neg hy, toInt_eq_magnitude x, toInt_eq_magnitude y]
      cases x.msb <;> cases y.msb <;>
        simp [hd, Int.neg_tdiv, Int.tdiv_neg, BitVec.ofInt_neg, hdiv]
    · rw [quotientU, if_neg hy, hq']
      simp [magnitude]

/-- The remainder of the magnitudes, with the sign of the dividend. -/
theorem signed_remainder {isUnsigned : Bool} {x y r : BitVec w}
    (hr : r.toNat = magnitude isUnsigned x % magnitude isUnsigned y) :
    (if !isUnsigned && x.msb then -r else r) =
      if isUnsigned then remainderU x y else remainder x y := by
  have hr' := eq_ofNat_of_toNat hr
  cases isUnsigned
  · have hmod : BitVec.ofInt w ((magnitude false x : ℤ) % magnitude false y) = r := by
      rw [hr', ← Int.natCast_emod, BitVec.ofInt_natCast]
    have hrem : remainder x y = BitVec.ofInt w (x.toInt.tmod y.toInt) := by
      by_cases hy : y = 0
      · simp [remainder, hy]
      · rw [remainder, if_neg hy]
    simp only [Bool.not_false, Bool.true_and, Bool.false_eq_true, if_false]
    rw [hrem, toInt_eq_magnitude x, toInt_eq_magnitude y]
    cases x.msb <;> cases y.msb <;>
      simp [Int.neg_tmod, Int.tmod_neg, ← Int.ofNat_tmod, BitVec.ofInt_neg, hmod]
  · have hrem : remainderU x y = BitVec.ofNat w (x.toNat % y.toNat) := by
      by_cases hy : y = 0
      · simp [remainderU, hy]
      · rw [remainderU, if_neg hy]
    rw [hr', if_pos rfl, hrem]
    simp [magnitude]

end Operands

/-! ## Requests -/

section Request
variable (i : DivIn) (x : BitVec 64)

/-- The number of bits that are divided. -/
def width : ℕ := if i.reqWord then 32 else 64

theorem sign_word (h : i.reqWord = true) :
    i.sign x = (!i.isUnsigned && (x.setWidth 32).msb) := by
  simp [DivIn.sign, h, BitVec.msb_eq_getLsbD_last]

theorem sign_full (h : i.reqWord = false) : i.sign x = (!i.isUnsigned && x.msb) := by
  simp [DivIn.sign, h, BitVec.msb_eq_getLsbD_last]

theorem toNat_mag_word (h : i.reqWord = true) :
    (i.mag x).toNat = magnitude i.isUnsigned (x.setWidth 32) := by
  have hx := (x.setWidth 32).isLt
  rw [DivIn.mag, if_pos h, sign_word i x h, magnitude_eq]
  split_ifs with hs
  · have hmsb : (x.setWidth 32).msb = true := (Bool.and_eq_true_iff.mp hs).2
    have hge : 2 ^ 31 ≤ (x.setWidth 32).toNat := by simpa [BitVec.msb_eq_decide] using hmsb
    rw [BitVec.toNat_neg, BitVec.toNat_signExtend, hmsb, BitVec.toNat_setWidth]
    simp only [if_true]
    omega
  · rw [BitVec.toNat_setWidth]
    omega

theorem toNat_mag_full (h : i.reqWord = false) :
    (i.mag x).toNat = magnitude i.isUnsigned x := by
  have hx := x.isLt
  rw [DivIn.mag, h, sign_full i x h, magnitude_eq]
  simp only [Bool.false_eq_true, if_false]
  split_ifs with hs
  · have hmsb : x.msb = true := (Bool.and_eq_true_iff.mp hs).2
    have hge : 2 ^ 63 ≤ x.toNat := by simpa [BitVec.msb_eq_decide] using hmsb
    rw [BitVec.toNat_neg]
    omega
  · rfl

theorem toNat_mag_lt : (i.mag x).toNat < 2 ^ width i := by
  cases h : i.reqWord
  · rw [toNat_mag_full i x h, width, h]
    exact magnitude_lt _ _
  · rw [toNat_mag_word i x h, width, h]
    exact magnitude_lt _ _

/-- The first iteration takes the highest bit. -/
theorem getLsbD_aRev {j : ℕ} (hj : j < width i) :
    i.aRev.getLsbD j = (i.mag i.operandA).toNat.testBit (width i - 1 - j) := by
  unfold width DivIn.aRev at *
  cases h : i.reqWord
  · simp only [h, Bool.false_eq_true, if_false] at hj ⊢
    rw [BitVec.getLsbD_reverse, BitVec.getMsbD, decide_eq_true hj, Bool.true_and]
    rfl
  · simp only [h, if_true] at hj ⊢
    rw [BitVec.getLsbD_setWidth, BitVec.getLsbD_reverse, BitVec.getMsbD, BitVec.getLsbD_setWidth]
    simp only [hj, show j < 64 by omega, show 31 - j < 32 by omega, decide_true, Bool.true_and]
    rfl

/-- A request starts the loop. -/
theorem loop_accept (s : Divider) :
    Loop (width i) (i.mag i.operandA).toNat (i.mag i.operandB).toNat 0 (s.accept i) where
  le := Nat.zero_le _
  state := by
    rw [if_neg]
    · rfl
    · unfold width
      split_ifs <;> decide
  iter := by
    intro _
    unfold width accept
    split_ifs <;> rfl
  dividend := by
    intro j hj
    rw [Nat.zero_add] at hj ⊢
    exact getLsbD_aRev i hj
  divisor := rfl
  rem := by
    rw [firstBits_zero (toNat_mag_lt i _), Nat.zero_mod]
    rfl
  quo := by
    rw [firstBits_zero (toNat_mag_lt i _), Nat.zero_div]
    simp [accept]

end Request

/-- The operation of a request. -/
def mulOp (op : BitVec 2) : MulOp :=
  match op with
  | 0 => .div
  | 1 => .divu
  | 2 => .rem
  | _ => .remu

def mulWordOp (op : BitVec 2) : MulWordOp :=
  match op with
  | 0 => .divw
  | 1 => .divuw
  | 2 => .remw
  | _ => .remuw

/-- The architecture's result of a request. -/
def result (i : DivIn) : BitVec 64 :=
  if i.reqWord then (mulWordOp i.reqOp).eval i.operandA i.operandB
  else (mulOp i.reqOp).eval i.operandA i.operandB

/-- The divider `k` iterations after the request `i`. -/
structure Dividing (i : DivIn) (k : ℕ) (s : Divider) : Prop where
  loop : Loop (width i) (i.mag i.operandA).toNat (i.mag i.operandB).toNat k s
  quoNegQ : s.quoNegQ =
    ((i.sign i.operandA ^^ i.sign i.operandB) && i.mag i.operandB != 0)
  remNegQ : s.remNegQ = i.sign i.operandA
  wordQ : s.wordQ = i.reqWord
  useRemQ : s.useRemQ = i.useRem
  respValid : s.respValid = false

section Dividing
variable {i : DivIn} {k : ℕ} {s : Divider}

theorem dividing_accept (s : Divider) (i : DivIn) : Dividing i 0 (s.accept i) :=
  ⟨loop_accept i s, rfl, rfl, rfl, rfl, rfl⟩

theorem width_le (i : DivIn) : width i ≤ 64 := by
  unfold width
  split_ifs <;> decide

theorem Dividing.iterate (h : Dividing i k s) (hk : k < width i) :
    Dividing i (k + 1) s.iterate :=
  ⟨h.loop.step (width_le i) (toNat_mag_lt i _) hk, h.quoNegQ, h.remNegQ, h.wordQ, h.useRemQ, rfl⟩

/-- The output, as the result for operands with `w` bits. -/
theorem setWidth_value {w : ℕ} (hw : w ≤ 64) {x y : BitVec w} {u : Bool}
    (hq : s.quoQ.toNat = if magnitude u y = 0 then 2 ^ w - 1 else magnitude u x / magnitude u y)
    (hr : s.remQ.toNat = magnitude u x % magnitude u y)
    (hqn : s.quoNegQ = (((!u && x.msb) ^^ (!u && y.msb)) && magnitude u y != 0))
    (hrn : s.remNegQ = (!u && x.msb)) :
    s.value.setWidth w =
      if s.useRemQ then if u then remainderU x y else remainder x y
      else if u then quotientU x y else quotient x y := by
  have hxlt : magnitude u x ≤ 2 ^ w - 1 := by
    rcases Nat.eq_zero_or_pos w with rfl | hpos
    · have hx := x.isLt
      rw [magnitude_eq]
      split_ifs with h
      · simp [BitVec.of_length_zero] at h
      · omega
    · have := magnitude_lt u x
      omega
  have hpow := Nat.two_pow_pos w
  have hfit : ∀ z : BitVec 64, z.toNat ≤ 2 ^ w - 1 → (z.setWidth w).toNat = z.toNat := by
    intro z hz
    rw [BitVec.toNat_setWidth, Nat.mod_eq_of_lt (by omega)]
  have hqlt : s.quoQ.toNat ≤ 2 ^ w - 1 := by
    rw [hq]
    split_ifs
    · exact Nat.le_refl _
    · exact (Nat.div_le_self _ _).trans hxlt
  have hrlt : s.remQ.toNat ≤ 2 ^ w - 1 := by
    rw [hr]
    exact (Nat.mod_le _ _).trans hxlt
  rw [← signed_quotient ((hfit _ hqlt).trans hq), ← signed_remainder ((hfit _ hrlt).trans hr),
    ← hqn, ← hrn, value, apply_ite (BitVec.setWidth w), apply_ite (BitVec.setWidth w),
    apply_ite (BitVec.setWidth w), BitVec.setWidth_neg_of_le hw, BitVec.setWidth_neg_of_le hw]

/-- The bits of an operation. -/
theorem op_cases (op : BitVec 2) : op = 0 ∨ op = 1 ∨ op = 2 ∨ op = 3 := by
  revert op
  decide

theorem eval_mulOp (op : BitVec 2) (a b : BitVec 64) : (mulOp op).eval a b =
    if op.getLsbD 1 then if op.getLsbD 0 then remainderU a b else remainder a b
    else if op.getLsbD 0 then quotientU a b else quotient a b := by
  rcases op_cases op with rfl | rfl | rfl | rfl <;> rfl

theorem eval_mulWordOp (op : BitVec 2) (a b : BitVec 64) : (mulWordOp op).eval a b =
    (if op.getLsbD 1 then
      if op.getLsbD 0 then remainderU (a.setWidth 32) (b.setWidth 32)
      else remainder (a.setWidth 32) (b.setWidth 32)
    else if op.getLsbD 0 then quotientU (a.setWidth 32) (b.setWidth 32)
      else quotient (a.setWidth 32) (b.setWidth 32)).signExtend 64 := by
  rcases op_cases op with rfl | rfl | rfl | rfl <;> rfl

theorem mag_bne_zero (i : DivIn) (x : BitVec 64) : (i.mag x != 0) = ((i.mag x).toNat != 0) := by
  rw [Bool.eq_iff_iff, bne_iff_ne, bne_iff_ne, Ne, Ne, ← BitVec.toNat_inj]
  rfl

/-- When all bits are taken, the output is the result. -/
theorem Dividing.output (h : Dividing i (width i) s) :
    s.output.respValue = result i := by
  have hquo := h.loop.quo
  have hrem := h.loop.rem
  have hqn := h.quoNegQ
  have hrn := h.remNegQ
  rw [firstBits_self] at hquo hrem
  rw [mag_bne_zero] at hqn
  change (if s.wordQ then (s.value.setWidth 32).signExtend 64 else s.value) = _
  rw [h.wordQ, result, eval_mulOp, eval_mulWordOp]
  cases hw : i.reqWord
  · have hwidth : width i = 64 := by simp [width, hw]
    simp only [toNat_mag_full i _ hw, sign_full i _ hw, hwidth] at hquo hrem hqn hrn
    have hval := setWidth_value (Nat.le_refl 64) hquo hrem hqn hrn
    rw [BitVec.setWidth_eq, h.useRemQ] at hval
    exact hval
  · have hwidth : width i = 32 := by simp [width, hw]
    simp only [toNat_mag_word i _ hw, sign_word i _ hw, hwidth] at hquo hrem hqn hrn
    have hval := setWidth_value (by decide) hquo hrem hqn hrn
    rw [h.useRemQ] at hval
    exact congrArg (BitVec.signExtend 64) hval

end Dividing

/-! ## Runs -/

/-- The work on a request: one phase for each bit of the dividend, and the output. -/
theorem phases : unit.Phases Dividing width result where
  accept := by
    intro s i hs hv
    have hidle : s.stateQ = .idle := by simpa [unit] using hs
    change Dividing i 0 (step s i)
    rw [step_idle hidle hv]
    exact dividing_accept s i
  next := by
    intro i k s j h hk
    have hst := h.loop.state
    rw [if_neg (by omega)] at hst
    change Dividing i (k + 1) (step s j)
    rw [step_progress hst]
    exact h.iterate hk
  busy := by
    intro i k s h
    refine ⟨resp_eq_none h.respValid, ?_⟩
    change (s.stateQ == DivState.idle) = false
    rw [h.loop.state]
    split_ifs <;> rfl
  finish := by
    intro i s j h
    have hst := h.loop.state
    rw [if_pos rfl] at hst
    have hstep : unit.step s j = s.output := step_output hst
    rw [hstep, ← h.output]
    exact ⟨rfl, rfl⟩
  rest := by
    intro s i hs hv
    have hidle : s.stateQ = .idle := by simpa [unit] using hs
    have hv : i.reqValid = false := hv
    constructor <;> simp [unit, step, hidle, hv]

/-- Every request is answered with the architecture's result, and while it is worked on
the partial remainder is below the divisor, or below `2 ^ k` after `k` steps when the
divisor is zero; the bit that is shifted out is zero. -/
theorem serves_division :
    unit.Serves reset result (fun i => width i + 2) ∧
    ∀ inp t, unit.Accepts reset inp t → ∀ k ≤ width (inp t),
      let s := unit.after reset inp (t + 1 + k)
      (s.bQ ≠ 0 → s.remQ < s.bQ) ∧ (s.bQ = 0 → s.remQ.toNat < 2 ^ k) ∧
        (k < width (inp t) → s.remQ.getLsbD 63 = false) := by
  refine ⟨phases.serves rfl rfl, fun inp t h k hk => ?_⟩
  intro s
  have hd := (phases.after h k hk).loop
  obtain ⟨hlt, hpow⟩ := hd.rem_lt (toNat_mag_lt _ _)
  refine ⟨fun hb => ?_, fun _ => hpow, fun hkw => ?_⟩
  · rw [BitVec.lt_def]
    rw [← hd.divisor] at hlt
    refine hlt (Nat.pos_of_ne_zero fun hz => hb ?_)
    exact BitVec.eq_of_toNat_eq hz
  · refine Nat.testBit_lt_two_pow (hpow.trans_le ?_)
    have hw := width_le (inp t)
    exact Nat.pow_le_pow_right (by decide) (by omega)

/-- A request to divide the most negative word by minus one. -/
def overflowing : DivIn := ⟨0x80000000, 0xFFFFFFFFFFFFFFFF, 0, true, true⟩

theorem serves_division_overflowing :
    unit.resp (unit.after reset (fun _ => overflowing) 34) = some 0xFFFFFFFF80000000 := by
  have hacc : unit.Accepts reset (fun _ => overflowing) 0 := ⟨rfl, rfl⟩
  have hresp := (serves_division.1.answers _ 0 hacc).resp
  rw [show 0 + (width overflowing + 2) = 34 by decide,
    show result overflowing = 0xFFFFFFFF80000000 by decide] at hresp
  exact hresp

end Divider

end Muntjac.Pipeline

import Muntjac.Sync.Numerals
import Muntjac.Riscv.Arith
import Muntjac.Sync.Columns
import Muntjac.Sync.Server
import Muntjac.Sync.Window

/-!
# The multipliers

`muntjac_mul` multiplies digits of 16 bits and `muntjac_mul_fast` digits of 32 bits.  Both
extend their operands by a sign bit, add the products of the digits up column by column in
one accumulator, and write each column's digit to the output register.

## Main definitions

* `MulIn.result` — the architecture's result.
* `Multiplier` — a machine that takes the products in a given order, with its digits as
  parameters.
* `Mul`, `MulFast` — the two machines.

## Main results

* `Multiplier.Works.phases` — one phase of the work for each product.
* `multipliers_serve` — both serve every request and no accumulator overflows.
-/

namespace Muntjac.Pipeline

open Sync Riscv

/-- The inputs of one cycle. -/
structure MulIn where
  operandA : BitVec 64
  operandB : BitVec 64
  reqOp : BitVec 2
  reqWord : Bool
  reqValid : Bool
  deriving DecidableEq, Repr

namespace MulIn

/-- `a_d`: the first operand, extended as the operation demands. -/
def a (i : MulIn) : BitVec 65 :=
  BitVec.ofBool (i.reqOp != 3 && i.operandA.getLsbD 63) ++ i.operandA

/-- `b_d`. -/
def b (i : MulIn) : BitVec 65 :=
  BitVec.ofBool (!i.reqOp.getLsbD 1 && i.operandB.getLsbD 63) ++ i.operandB

/-- The operation of a request. -/
def op (i : MulIn) : MulOp :=
  match i.reqOp with
  | 0 => .mul
  | 1 => .mulh
  | 2 => .mulhsu
  | _ => .mulhu

/-- The architecture's result of a request. -/
def result (i : MulIn) : BitVec 64 :=
  if i.reqWord then MulWordOp.mulw.eval i.operandA i.operandB
  else i.op.eval i.operandA i.operandB

end MulIn

/-! ## Operands -/

/-- An operand with its sign bit; `g` makes it signed. -/
def extended (g : Bool) (x : BitVec 64) : BitVec 65 := BitVec.ofBool (g && x.getLsbD 63) ++ x

theorem toInt_extended (g : Bool) (x : BitVec 64) :
    (extended g x).toInt = if g then x.toInt else x.toNat := by
  have hx := x.isLt
  have hmsb : (extended g x).msb = (g && x.getLsbD 63) := by
    rw [extended, BitVec.msb_append]
    simp
  have htoNat : (extended g x).toNat = (g && x.getLsbD 63).toNat * 2 ^ 64 + x.toNat := by
    rw [extended, toNat_append_add]
    simp
  rw [BitVec.toInt_eq_msb_cond, hmsb, htoNat, BitVec.toInt_eq_msb_cond,
    BitVec.msb_eq_getLsbD_last]
  cases g
  · cases x.getLsbD 63 <;> simp
  · cases x.getLsbD 63
    · simp
    · simp
      omega

theorem extended_bounds (g : Bool) (x : BitVec 64) :
    -2 ^ 63 ≤ (extended g x).toInt ∧ (extended g x).toInt < 2 ^ 64 := by
  have hx := x.isLt
  have hlow := BitVec.le_toInt x
  have hhigh := BitVec.toInt_lt (x := x)
  rw [toInt_extended]
  split_ifs <;> omega

theorem eq_ofInt {w : ℕ} {x : BitVec w} {z : ℤ} (h : (x.toNat : ℤ) = z % 2 ^ w) :
    x = BitVec.ofInt w z := by
  apply BitVec.eq_of_toNat_eq
  rw [BitVec.toNat_ofInt]
  push_cast
  omega

/-- An accumulation that fits is exact. -/
theorem toInt_mac {n w : ℕ} {acc : BitVec n} {x y : BitVec w} (hw : w ≤ n) (hn : 0 < n)
    (h : |acc.toInt + x.toInt * y.toInt| < 2 ^ (n - 1)) :
    (acc + x.signExtend n * y.signExtend n).toInt = acc.toInt + x.toInt * y.toInt := by
  rw [BitVec.toInt_add, BitVec.toInt_mul, BitVec.toInt_signExtend_of_le hw,
    BitVec.toInt_signExtend_of_le hw, Int.add_bmod_bmod]
  rw [abs_lt] at h
  have hpow : (2 : ℤ) ^ n = 2 * 2 ^ (n - 1) := by
    rw [← pow_succ']
    congr 1
    omega
  refine Int.bmod_eq_of_le_mul_two ?_ ?_ <;> push_cast <;> omega

namespace MulIn
variable (i : MulIn)

/-- The exact product. -/
def product : ℤ := i.a.toInt * i.b.toInt

theorem product_eq : i.product = i.op.product i.operandA i.operandB := by
  have ha : i.a = extended (i.reqOp != 3) i.operandA := rfl
  have hb : i.b = extended (!i.reqOp.getLsbD 1) i.operandB := rfl
  have hcases : ∀ op : BitVec 2, op = 0 ∨ op = 1 ∨ op = 2 ∨ op = 3 := by decide
  rw [product, ha, hb, toInt_extended, toInt_extended, op]
  rcases hcases i.reqOp with h | h | h | h <;> rw [h] <;> rfl

/-- The result of an operation on words. -/
theorem result_word (h : i.reqWord = true) :
    i.result = (BitVec.ofInt 32 i.product).signExtend 64 := by
  have hlow : ∀ (g : Bool) (x : BitVec 64),
      BitVec.ofInt 32 (extended g x).toInt = x.setWidth 32 := by
    intro g x
    change (extended g x).signExtend 32 = _
    rw [BitVec.signExtend_eq_setWidth_of_le _ (by decide), extended, BitVec.setWidth_append]
    simp
  have hmul : BitVec.ofInt 32 i.product = i.operandA.setWidth 32 * i.operandB.setWidth 32 := by
    rw [product, BitVec.ofInt_mul]
    exact congrArg₂ (· * ·) (hlow _ _) (hlow _ _)
  rw [result, h, hmul]
  rfl

theorem result_low (h : i.reqWord = false) (ho : i.reqOp = 0) :
    i.result = BitVec.ofInt 64 i.product := by
  rw [result, h, product_eq, op, ho]
  rfl

theorem result_high (h : i.reqWord = false) (ho : i.reqOp ≠ 0) :
    i.result = BitVec.ofInt 64 (i.product / 2 ^ 64) := by
  have hcases : ∀ op : BitVec 2, op = 0 ∨ op = 1 ∨ op = 2 ∨ op = 3 := by decide
  rw [result, h, product_eq, op]
  rcases hcases i.reqOp with h | h | h | h
  · exact absurd h ho
  all_goals
    rw [h]
    rfl

end MulIn

inductive MulState
  | idle
  | progress
  deriving DecidableEq, Repr

/-! ## The work on a request -/

/-- The registers of a multiplier with `n` digits, less the accumulator. -/
structure MacRegs (n : ℕ) where
  stateQ : MulState
  aIdxQ : Fin n
  bIdxQ : Fin n
  aQ : BitVec 65
  bQ : BitVec 65
  opLowQ : Bool
  opWordQ : Bool
  respValid : Bool
  respValue : BitVec 64
  deriving DecidableEq, Repr

namespace MacRegs
variable {n : ℕ}

/-- The request `i` is taken up. -/
def accept [NeZero n] (r : MacRegs n) (i : MulIn) : MacRegs n where
  stateQ := .progress
  aIdxQ := 0
  bIdxQ := 0
  aQ := i.a
  bQ := i.b
  opLowQ := i.reqOp == 0
  opWordQ := i.reqWord
  respValid := false
  respValue := r.respValue

/-- The digits `x` and `y` are next. -/
def goto (r : MacRegs n) (x y : Fin n) (value : BitVec 64) : MacRegs n :=
  { r with aIdxQ := x, bIdxQ := y, respValid := false, respValue := value }

/-- The response. -/
def answer (r : MacRegs n) (value : BitVec 64) : MacRegs n :=
  { r with stateQ := .idle, respValid := true, respValue := value }

end MacRegs

/-- A multiplier with `n` digits: the machine, its digits and their products in the order
in which they are taken. -/
structure Multiplier (σ : Type) (n : ℕ) where
  regs : σ → MacRegs n
  accum : σ → ℤ
  macProd : σ → ℤ
  accept : σ → MulIn → σ
  progress : σ → σ
  rest : σ → σ
  base : ℤ
  digitOf : ℤ → ℕ → ℤ
  order : List (ℕ × ℕ)
  /-- The number of products in the column of a product that come before it. -/
  inColumn : ℕ → ℕ
  /-- The final digits in the output register. -/
  Shows : ℕ → ℤ → BitVec 64 → Prop
  lastWord : ℕ
  lastLow : ℕ
  lastHigh : ℕ

namespace Multiplier
variable {σ : Type} {n : ℕ} (m : Multiplier σ n)

def step (s : σ) (i : MulIn) : σ :=
  match (m.regs s).stateQ with
  | .idle => if i.reqValid then m.accept s i else m.rest s
  | .progress => m.progress s

/-- The multiplier with its ports. -/
def unit : Server σ MulIn (BitVec 64) where
  step := m.step
  ready := fun s => (m.regs s).stateQ == .idle
  valid := MulIn.reqValid
  resp := fun s => if (m.regs s).respValid then some (m.regs s).respValue else none

/-- The column of product `k`. -/
def column (k : ℕ) : ℕ := (m.order.getD k (0, 0)).1 + (m.order.getD k (0, 0)).2

/-- The last product of a request. -/
def last (i : MulIn) : ℕ :=
  if i.reqWord then m.lastWord else if i.reqOp = 0 then m.lastLow else m.lastHigh

/-- The accumulator with the product of this cycle. -/
def sum (s : σ) : ℤ :=
  m.accum s + m.digitOf (m.regs s).aQ.toInt (m.regs s).aIdxQ *
    m.digitOf (m.regs s).bQ.toInt (m.regs s).bIdxQ

/-- The multiplier before product `k` of the request `i`. -/
structure Before (i : MulIn) (k : ℕ) (s : σ) : Prop where
  stateQ : (m.regs s).stateQ = .progress
  idx : m.order[k]? = some (((m.regs s).aIdxQ : ℕ), ((m.regs s).bIdxQ : ℕ))
  aQ : (m.regs s).aQ = i.a
  bQ : (m.regs s).bQ = i.b
  opLowQ : (m.regs s).opLowQ = (i.reqOp == 0)
  opWordQ : (m.regs s).opWordQ = i.reqWord
  respValid : (m.regs s).respValid = false
  columns : ∃ low, Columns m.base (m.digitOf i.a.toInt) (m.digitOf i.b.toInt) n (m.order.take k)
    (m.column k) (m.inColumn k) (m.accum s) low ∧ m.Shows (m.column k) low (m.regs s).respValue

/-- The digits are small, so an accumulator for `n` products is enough. -/
structure Adds : Prop where
  base : 1 < m.base
  pos : 0 < n
  digit_le : ∀ g x j, |m.digitOf (extended g x).toInt j| ≤ m.base - 1
  inColumn_lt : ∀ k, m.inColumn k < n
  macProd : ∀ s, |m.sum s| < n * m.base ^ 2 → m.macProd s = m.sum s

/-- The steps of a multiplier. -/
structure Works [NeZero n] : Prop extends m.Adds where
  first : m.order[0]? = some (0, 0) ∧ m.inColumn 0 = 0
  shows_zero : ∀ out, m.Shows 0 0 out
  accept : ∀ s i, m.regs (m.accept s i) = (m.regs s).accept i ∧ m.accum (m.accept s i) = 0
  rest : ∀ s, m.regs (m.rest s) = { m.regs s with respValid := false }
  progress : ∀ i k s, m.Before i k s → k < m.last i → m.Before i (k + 1) (m.progress s)
  word : ∀ i s, m.Before i m.lastWord s → i.reqWord = true →
    m.regs (m.progress s) = (m.regs s).answer ((BitVec.ofInt 32 i.product).signExtend 64)
  low : ∀ i s, m.Before i m.lastLow s → i.reqWord = false → i.reqOp = 0 →
    m.regs (m.progress s) = (m.regs s).answer (BitVec.ofInt 64 i.product)
  high : ∀ i s, m.Before i m.lastHigh s → i.reqWord = false → i.reqOp ≠ 0 →
    m.regs (m.progress s) = (m.regs s).answer (BitVec.ofInt 64 (i.product / 2 ^ 64))

variable {m} {i : MulIn} {k : ℕ} {s : σ}

theorem last_of_word (h : i.reqWord = true) : m.last i = m.lastWord := by
  rw [last, if_pos h]

theorem last_of_low (h : i.reqWord = false) (ho : i.reqOp = 0) : m.last i = m.lastLow := by
  rw [last, if_neg (by simp [h]), if_pos ho]

theorem last_of_high (h : i.reqWord = false) (ho : i.reqOp ≠ 0) : m.last i = m.lastHigh := by
  rw [last, if_neg (by simp [h]), if_neg ho]

namespace Before

/-- A request that goes on after the columns of a word is not one on words. -/
theorem not_word (h : m.Before i k s) (hlt : m.lastWord < m.last i) :
    (m.regs s).opWordQ = false := by
  rw [h.opWordQ]
  by_contra hw
  rw [last_of_word (by simpa using hw)] at hlt
  exact absurd hlt (Nat.lt_irrefl _)

/-- A request that goes on after the low columns wants the high half. -/
theorem not_low (h : m.Before i k s) (hword : m.lastWord ≤ m.lastLow)
    (hlt : m.lastLow < m.last i) : (m.regs s).opLowQ = false := by
  have hw : i.reqWord = false := by
    rw [← h.opWordQ]
    exact h.not_word (Nat.lt_of_le_of_lt hword hlt)
  rw [h.opLowQ]
  by_contra ho
  rw [last_of_low hw (by simpa using ho)] at hlt
  exact absurd hlt (Nat.lt_irrefl _)

theorem idx_eq (h : m.Before i k s) {x y : Fin n} (hk : m.order[k]? = some ((x : ℕ), (y : ℕ))) :
    (m.regs s).aIdxQ = x ∧ (m.regs s).bIdxQ = y := by
  have hidx := h.idx
  rw [hk, Option.some.injEq, Prod.mk.injEq] at hidx
  exact ⟨Fin.ext hidx.1.symm, Fin.ext hidx.2.symm⟩

/-- The products that have been added up after product `k`; the accumulator does not
overflow. -/
theorem after (h : m.Before i k s) (ha : m.Adds) : ∃ low,
    Columns m.base (m.digitOf i.a.toInt) (m.digitOf i.b.toInt) n (m.order.take (k + 1))
      (m.column k) (m.inColumn k + 1) (m.macProd s) low ∧
    m.Shows (m.column k) low (m.regs s).respValue ∧ m.macProd s = m.sum s := by
  obtain ⟨low, hcol, hshow⟩ := h.columns
  have hcolumn : ((m.regs s).aIdxQ : ℕ) + (m.regs s).bIdxQ = m.column k := by
    rw [column, List.getD_eq_getElem?_getD, h.idx]
    rfl
  have hnext : Columns m.base (m.digitOf i.a.toInt) (m.digitOf i.b.toInt) n
      (m.order.take (k + 1)) (m.column k) (m.inColumn k + 1) (m.sum s) low := by
    rw [List.take_add_one, h.idx, sum, h.aQ, h.bQ]
    exact hcol.mac hcolumn (ha.digit_le _ _ _) (ha.digit_le _ _ _)
  have hprod : m.macProd s = m.sum s :=
    ha.macProd s (hnext.abs_acc_lt ha.base ha.pos (ha.inColumn_lt k))
  rw [← hprod] at hnext
  exact ⟨low, hnext, hshow, hprod⟩

/-- The digit that a complete column gives. -/
theorem digit_of_column (h : m.Before i k s) (ha : m.Adds) : ∃ low,
    Columns m.base (m.digitOf i.a.toInt) (m.digitOf i.b.toInt) n (m.order.take (k + 1))
      (m.column k + 1) 0 (m.macProd s / m.base)
      (low + m.macProd s % m.base * m.base ^ m.column k) ∧
    m.Shows (m.column k) low (m.regs s).respValue ∧ 0 ≤ low ∧ low < m.base ^ m.column k := by
  obtain ⟨low, hcol, hshow, -⟩ := h.after ha
  exact ⟨low, hcol.carry ha.base ha.pos (ha.inColumn_lt k), hshow, hcol.nonneg, hcol.lt⟩

/-- The next product of the column. -/
theorem next (h : m.Before i k s) (ha : m.Adds) {s' : σ} {x y : Fin n}
    (hregs : m.regs s' = (m.regs s).goto x y (m.regs s).respValue)
    (hacc : m.accum s' = m.macProd s) (hidx : m.order[k + 1]? = some ((x : ℕ), (y : ℕ)))
    (hd : m.column (k + 1) = m.column k) (hc : m.inColumn (k + 1) = m.inColumn k + 1) :
    m.Before i (k + 1) s' := by
  obtain ⟨low, hcol, hshow, -⟩ := h.after ha
  constructor
  case columns =>
    rw [hd, hc, hacc, hregs]
    exact ⟨low, hcol, hshow⟩
  all_goals rw [hregs]
  exacts [h.stateQ, hidx, h.aQ, h.bQ, h.opLowQ, h.opWordQ, rfl]

/-- The first product of the next column; `value` shows the digit of this one. -/
theorem carry (h : m.Before i k s) (ha : m.Adds) {s' : σ} {x y : Fin n} {value : BitVec 64}
    (hregs : m.regs s' = (m.regs s).goto x y value) (hacc : m.accum s' = m.macProd s / m.base)
    (hidx : m.order[k + 1]? = some ((x : ℕ), (y : ℕ)))
    (hd : m.column (k + 1) = m.column k + 1) (hc : m.inColumn (k + 1) = 0)
    (hvalue : ∀ low, m.Shows (m.column k) low (m.regs s).respValue → 0 ≤ low →
      low < m.base ^ m.column k → m.Shows (m.column k + 1)
        (low + m.macProd s % m.base * m.base ^ m.column k) value) :
    m.Before i (k + 1) s' := by
  obtain ⟨low, hcol, hshow, hnn, hlow⟩ := h.digit_of_column ha
  constructor
  case columns =>
    rw [hd, hc, hacc, hregs]
    exact ⟨_, hcol, hvalue low hshow hnn hlow⟩
  all_goals rw [hregs]
  exacts [h.stateQ, hidx, h.aQ, h.bQ, h.opLowQ, h.opWordQ, rfl]

end Before

theorem Works.before_accept [NeZero n] (h : m.Works) (s : σ) (i : MulIn) :
    m.Before i 0 (m.accept s i) := by
  obtain ⟨hregs, hacc⟩ := h.accept s i
  have hcolumn : m.column 0 = 0 := by
    rw [column, List.getD_eq_getElem?_getD, h.first.1]
    rfl
  constructor
  case columns =>
    rw [hcolumn, h.first.2, hacc, List.take_zero]
    exact ⟨0, columns_nil (by linarith [h.base]) n, h.shows_zero _⟩
  case idx =>
    rw [hregs, h.first.1]
    simp [MacRegs.accept]
  all_goals rw [hregs]
  all_goals rfl

/-- The last product of a request gives its result. -/
theorem Works.finish [NeZero n] (h : m.Works) (hb : m.Before i (m.last i) s) :
    m.regs (m.progress s) = (m.regs s).answer i.result := by
  cases hw : i.reqWord
  · by_cases ho : i.reqOp = 0
    · rw [last_of_low hw ho] at hb
      rw [h.low i s hb hw ho, i.result_low hw ho]
    · rw [last_of_high hw ho] at hb
      rw [h.high i s hb hw ho, i.result_high hw ho]
  · rw [last_of_word hw] at hb
    rw [h.word i s hb hw, i.result_word hw]

theorem step_progress (h : (m.regs s).stateQ = .progress) : m.step s i = m.progress s := by
  rw [step, h]

theorem resp_eq_none (h : (m.regs s).respValid = false) : m.unit.resp s = none :=
  if_neg (by simp [h])

theorem ready_eq_false (h : (m.regs s).stateQ = .progress) : m.unit.ready s = false := by
  change ((m.regs s).stateQ == MulState.idle) = false
  rw [h]
  rfl

/-- The work on a request: one phase for each product. -/
theorem Works.phases [NeZero n] (h : m.Works) : m.unit.Phases m.Before m.last MulIn.result where
  accept := by
    intro s i hs hv
    have hidle : (m.regs s).stateQ = .idle := by simpa [unit] using hs
    have hstep : m.unit.step s i = m.accept s i := by
      change m.step s i = _
      rw [step, hidle]
      exact if_pos hv
    rw [hstep]
    exact h.before_accept s i
  next := by
    intro i k s j hb hk
    have hstep : m.unit.step s j = m.progress s := step_progress hb.stateQ
    rw [hstep]
    exact h.progress i k s hb hk
  busy := fun _ _ _ hb => ⟨resp_eq_none hb.respValid, ready_eq_false hb.stateQ⟩
  finish := by
    intro i s j hb
    have hstep : m.unit.step s j = m.progress s := step_progress hb.stateQ
    have hregs := h.finish hb
    rw [hstep]
    simp [unit, hregs, MacRegs.answer]
  rest := by
    intro s i hs hv
    have hidle : (m.regs s).stateQ = .idle := by simpa [unit] using hs
    have hv : i.reqValid = false := hv
    have hstep : m.unit.step s i = m.rest s := by
      change m.step s i = _
      rw [step, hidle]
      exact if_neg (by simp [hv])
    rw [hstep]
    simp [unit, h.rest, hidle]

/-- In every cycle of the work the accumulator takes the exact sum. -/
theorem Works.exact [NeZero n] (h : m.Works) {s₀ : σ} (hready : m.unit.ready s₀ = true)
    (hresp : m.unit.resp s₀ = none) (inp : ℕ → MulIn) (k : ℕ)
    (hs : (m.regs (m.unit.after s₀ inp k)).stateQ = .progress) :
    m.macProd (m.unit.after s₀ inp k) = m.sum (m.unit.after s₀ inp k) := by
  obtain ⟨t, j, -, -, hphase⟩ := h.phases.of_busy hready hresp (ready_eq_false hs)
  obtain ⟨-, -, -, hprod⟩ := hphase.after h.toAdds
  exact hprod

end Multiplier

/-! ## `muntjac_mul` -/

/-- The registers of `muntjac_mul`. -/
structure Mul where
  stateQ : MulState
  aIdxQ : Fin 4
  bIdxQ : Fin 4
  aQ : BitVec 65
  bQ : BitVec 65
  opLowQ : Bool
  opWordQ : Bool
  accum : BitVec 35
  respValid : Bool
  respValue : BitVec 64
  deriving DecidableEq, Repr

namespace Mul

/-- Reset leaves the operands undefined. -/
def reset : Mul := ⟨.idle, 0, 0, 0, 0, false, false, 0, false, 0⟩

/-- `mac_op_a`, `mac_op_b`: the digits of an operand. -/
def digit (x : BitVec 65) : Fin 4 → BitVec 17
  | 0 => 0#1 ++ x.extractLsb' 0 16
  | 1 => 0#1 ++ x.extractLsb' 16 16
  | 2 => 0#1 ++ x.extractLsb' 32 16
  | 3 => x.extractLsb' 48 17

/-- `mac_prod`. -/
def macProd (s : Mul) : BitVec 35 :=
  s.accum + (digit s.aQ s.aIdxQ).signExtend 35 * (digit s.bQ s.bIdxQ).signExtend 35

/-- The column goes on with the product of the digits `i` and `j`. -/
def next (s : Mul) (i j : Fin 4) : Mul :=
  { s with aIdxQ := i, bIdxQ := j, accum := s.macProd, respValid := false }

/-- The column is complete: the next one starts with the digits `i` and `j`. -/
def carry (s : Mul) (i j : Fin 4) (value : BitVec 64) : Mul :=
  { s with
    aIdxQ := i
    bIdxQ := j
    accum := (s.macProd.extractLsb' 16 19).signExtend 35
    respValid := false
    respValue := value }

/-- The response. -/
def finish (s : Mul) (value : BitVec 64) : Mul :=
  { s with stateQ := .idle, accum := 0, respValid := true, respValue := value }

/-- `mac_prod[15:0]`. -/
def low (s : Mul) : BitVec 16 := s.macProd.extractLsb' 0 16

/-- `StateProgress`. -/
def progress (s : Mul) : Mul :=
  match s.aIdxQ, s.bIdxQ with
  | 0, 0 => s.carry 1 0 (setWindow s.respValue 0 s.low)
  | 1, 0 => s.next 0 1
  | 0, 1 =>
      let value := setWindow s.respValue 16 (s.low.signExtend 48)
      if s.opWordQ then s.finish value else s.carry 0 2 value
  | 0, 2 => s.next 1 1
  | 1, 1 => s.next 2 0
  | 2, 0 => s.carry 3 0 (setWindow s.respValue 32 s.low)
  | 3, 0 => s.next 2 1
  | 2, 1 => s.next 1 2
  | 1, 2 => s.next 0 3
  | 0, 3 =>
      let value := setWindow s.respValue 48 s.low
      if s.opLowQ then s.finish value else s.carry 1 3 value
  | 1, 3 => s.next 2 2
  | 2, 2 => s.next 3 1
  | 3, 1 => s.carry 3 2 (setWindow s.respValue 0 s.low)
  | 3, 2 => s.next 2 3
  | 2, 3 => s.carry 3 3 (setWindow s.respValue 16 s.low)
  | 3, 3 => s.finish (setWindow s.respValue 32 (s.macProd.extractLsb' 0 32))

/-- `StateIdle` with a request. -/
def accept (s : Mul) (i : MulIn) : Mul :=
  { s with
    stateQ := .progress
    aQ := i.a
    bQ := i.b
    opLowQ := i.reqOp == 0
    opWordQ := i.reqWord
    accum := 0
    aIdxQ := 0
    bIdxQ := 0
    respValid := false }

def step (s : Mul) (i : MulIn) : Mul :=
  match s.stateQ with
  | .idle => if i.reqValid then s.accept i else { s with respValid := false }
  | .progress => s.progress

/-- The multiplier with its ports. -/
def unit : Server Mul MulIn (BitVec 64) where
  step := step
  ready := fun s => s.stateQ == .idle
  valid := MulIn.reqValid
  resp := fun s => if s.respValid then some s.respValue else none

/-! ### The digits -/

/-- The digits of a number. -/
def digitOf (x : ℤ) (j : ℕ) : ℤ := if j < 3 then x / 65536 ^ j % 65536 else x / 65536 ^ 3

theorem toInt_digit (x : BitVec 65) (j : Fin 4) : (digit x j).toInt = digitOf x.toInt j := by
  match j with
  | 0 => exact toInt_zero_append_extract x (by decide)
  | 1 => exact toInt_zero_append_extract x (by decide)
  | 2 => exact toInt_zero_append_extract x (by decide)
  | 3 => exact toInt_extract_high x (by decide) (by decide)

theorem abs_digitOf_le (g : Bool) (x : BitVec 64) (j : ℕ) :
    |digitOf (extended g x).toInt j| ≤ 65536 - 1 := by
  obtain ⟨hlow, hhigh⟩ := extended_bounds g x
  rw [abs_le, digitOf]
  split_ifs
  · have h0 := Int.emod_nonneg ((extended g x).toInt / 65536 ^ j) (show (65536 : ℤ) ≠ 0 by decide)
    have h1 := Int.emod_lt_of_pos ((extended g x).toInt / 65536 ^ j)
      (show (0 : ℤ) < 65536 by decide)
    omega
  · omega

/-- The products of the digits in the order in which they are taken. -/
def order : List (ℕ × ℕ) :=
  [(0, 0), (1, 0), (0, 1), (0, 2), (1, 1), (2, 0), (3, 0), (2, 1), (1, 2), (0, 3), (1, 3), (2, 2),
    (3, 1), (3, 2), (2, 3), (3, 3)]

/-- The number of products in the column of product `k` that come before it. -/
def inColumn : ℕ → ℕ
  | 2 | 4 | 7 | 11 | 14 => 1
  | 5 | 8 | 12 => 2
  | 9 => 3
  | _ => 0

theorem inColumn_lt (k : ℕ) : inColumn k < 4 := by
  unfold inColumn
  split <;> decide

/-- The final digits in the output register. -/
def Shows (d : ℕ) (low : ℤ) (out : BitVec 64) : Prop :=
  if d ≤ 4 then ((out.toNat % 2 ^ (16 * d) : ℕ) : ℤ) = low
  else ((out.toNat % 2 ^ (16 * (d - 4)) : ℕ) : ℤ) = low / 2 ^ 64

/-- The last product of a request. -/
def last (i : MulIn) : ℕ := if i.reqWord then 2 else if i.reqOp = 0 then 9 else 15

/-- Writing a digit to the output register. -/
theorem shows_setWindow {d w : ℕ} {low digit : ℤ} {out : BitVec 64} {v : BitVec w}
    (h : Shows d low out) (hd : d < 6) (hnn : 0 ≤ low) (hlow : low < 65536 ^ d) (hw : 16 ≤ w)
    (hfit : 16 * (d % 4) + w ≤ 64) (hv : ((v.toNat % 2 ^ 16 : ℕ) : ℤ) = digit) :
    Shows (d + 1) (low + digit * 65536 ^ d) (setWindow out (16 * (d % 4)) v) := by
  have hset := toNat_setWindow_mod (x := out) (v := v) hfit hw
  rw [Shows] at h ⊢
  rcases Nat.lt_or_ge d 4 with hd4 | hd4
  · rw [Nat.mod_eq_of_lt hd4] at hset ⊢
    rw [if_pos (by omega)] at h
    rw [if_pos (by omega), Nat.mul_add, Nat.mul_one, hset, ← h, ← hv, pow_mul]
    push_cast
    rfl
  · have hcases : d = 4 ∨ d = 5 := by omega
    rcases hcases with rfl | rfl
    · simp only [Nat.reduceMod, Nat.mul_zero, Nat.zero_add, Nat.reduceLeDiff, if_false,
        Nat.reduceSub, Nat.reduceAdd] at hset ⊢
      omega
    · simp only [Nat.reduceMod, Nat.mul_one, Nat.reduceLeDiff, if_false, Nat.reduceSub,
        Nat.reduceAdd, Nat.reduceMul] at hset h ⊢
      omega

theorem toNat_signExtend_mod (x : BitVec 16) : (x.signExtend 48).toNat % 2 ^ 16 = x.toNat := by
  have hx := x.isLt
  rw [BitVec.toNat_signExtend, BitVec.toNat_setWidth]
  split_ifs <;> omega

/-- The registers and the products of `muntjac_mul`. -/
def multiplier : Multiplier Mul 4 where
  regs := fun s => ⟨s.stateQ, s.aIdxQ, s.bIdxQ, s.aQ, s.bQ, s.opLowQ, s.opWordQ, s.respValid,
    s.respValue⟩
  accum := fun s => s.accum.toInt
  macProd := fun s => s.macProd.toInt
  accept := accept
  progress := progress
  rest := fun s => { s with respValid := false }
  base := 65536
  digitOf := digitOf
  order := order
  inColumn := inColumn
  Shows := Shows
  lastWord := 2
  lastLow := 9
  lastHigh := 15

theorem adds : multiplier.Adds where
  base := by decide
  pos := by decide
  digit_le := abs_digitOf_le
  inColumn_lt := inColumn_lt
  macProd := by
    intro s h
    simp only [Multiplier.sum, multiplier, ← toInt_digit] at h ⊢
    exact toInt_mac (by decide) (by decide) h

theorem toNat_low (s : Mul) : (s.low.toNat : ℤ) = s.macProd.toInt % 65536 := by
  change ((s.macProd.extractLsb' 0 16).toNat : ℤ) = _
  rw [toNat_extract _ (by decide)]
  simp

theorem toInt_carry (s : Mul) (x y : Fin 4) (value : BitVec 64) :
    (s.carry x y value).accum.toInt = s.macProd.toInt / 65536 := by
  change ((s.macProd.extractLsb' 16 19).signExtend 35).toInt = _
  rw [BitVec.toInt_signExtend_of_le (by decide), toInt_extract_high _ (by decide) (by decide)]
  rfl

section Step
variable {i : MulIn} {k : ℕ} {s : Mul}

/-- The product of the digits `x` and `y` is the next one of its column. -/
theorem next_of_before (h : multiplier.Before i k s) {x y : Fin 4}
    (hidx : order[k + 1]? = some ((x : ℕ), (y : ℕ)))
    (hd : multiplier.column (k + 1) = multiplier.column k)
    (hc : inColumn (k + 1) = inColumn k + 1) : multiplier.Before i (k + 1) (s.next x y) :=
  h.next adds rfl rfl hidx hd hc

/-- The digit `v` of a complete column is written to its place. -/
theorem carry_of_before (h : multiplier.Before i k s) {x y : Fin 4} {w : ℕ} {v : BitVec w}
    (hidx : order[k + 1]? = some ((x : ℕ), (y : ℕ)))
    (hd : multiplier.column (k + 1) = multiplier.column k + 1) (hc : inColumn (k + 1) = 0)
    (hlt : multiplier.column k < 6) (hw : 16 ≤ w)
    (hfit : 16 * (multiplier.column k % 4) + w ≤ 64) (hv : v.toNat % 2 ^ 16 = s.low.toNat) :
    multiplier.Before i (k + 1)
      (s.carry x y (setWindow s.respValue (16 * (multiplier.column k % 4)) v)) := by
  refine h.carry adds rfl (toInt_carry s x y _) hidx hd hc fun low hshow hnn hlow => ?_
  refine shows_setWindow hshow hlt hnn hlow hw hfit ?_
  rw [hv]
  exact toNat_low s

/-- Every product but the last one leads to the next. -/
theorem progress_of_before (h : multiplier.Before i k s) (hk : k < multiplier.last i) :
    multiplier.Before i (k + 1) s.progress := by
  have hlow : s.low.toNat % 2 ^ 16 = s.low.toNat := Nat.mod_eq_of_lt s.low.isLt
  have hlast : multiplier.last i ≤ 15 := by
    unfold Multiplier.last
    split_ifs <;> decide
  match k, h with
  | 0, h =>
      obtain ⟨ha, hb⟩ : s.aIdxQ = 0 ∧ s.bIdxQ = 0 := h.idx_eq rfl
      have hp : s.progress = s.carry 1 0 (setWindow s.respValue 0 s.low) := by
        rw [progress, ha, hb]
      rw [hp]
      exact carry_of_before h rfl rfl rfl (by decide) (by decide) (by decide) hlow
  | 1, h =>
      obtain ⟨ha, hb⟩ : s.aIdxQ = 1 ∧ s.bIdxQ = 0 := h.idx_eq rfl
      have hp : s.progress = s.next 0 1 := by rw [progress, ha, hb]
      rw [hp]
      exact next_of_before h rfl rfl rfl
  | 2, h =>
      obtain ⟨ha, hb⟩ : s.aIdxQ = 0 ∧ s.bIdxQ = 1 := h.idx_eq rfl
      have hword : s.opWordQ = false := h.not_word hk
      have hp : s.progress = s.carry 0 2 (setWindow s.respValue 16 (s.low.signExtend 48)) := by
        rw [progress, ha, hb]
        simp [hword]
      rw [hp]
      exact carry_of_before h rfl rfl rfl (by decide) (by decide) (by decide)
        (toNat_signExtend_mod s.low)
  | 3, h =>
      obtain ⟨ha, hb⟩ : s.aIdxQ = 0 ∧ s.bIdxQ = 2 := h.idx_eq rfl
      have hp : s.progress = s.next 1 1 := by rw [progress, ha, hb]
      rw [hp]
      exact next_of_before h rfl rfl rfl
  | 4, h =>
      obtain ⟨ha, hb⟩ : s.aIdxQ = 1 ∧ s.bIdxQ = 1 := h.idx_eq rfl
      have hp : s.progress = s.next 2 0 := by rw [progress, ha, hb]
      rw [hp]
      exact next_of_before h rfl rfl rfl
  | 5, h =>
      obtain ⟨ha, hb⟩ : s.aIdxQ = 2 ∧ s.bIdxQ = 0 := h.idx_eq rfl
      have hp : s.progress = s.carry 3 0 (setWindow s.respValue 32 s.low) := by
        rw [progress, ha, hb]
      rw [hp]
      exact carry_of_before h rfl rfl rfl (by decide) (by decide) (by decide) hlow
  | 6, h =>
      obtain ⟨ha, hb⟩ : s.aIdxQ = 3 ∧ s.bIdxQ = 0 := h.idx_eq rfl
      have hp : s.progress = s.next 2 1 := by rw [progress, ha, hb]
      rw [hp]
      exact next_of_before h rfl rfl rfl
  | 7, h =>
      obtain ⟨ha, hb⟩ : s.aIdxQ = 2 ∧ s.bIdxQ = 1 := h.idx_eq rfl
      have hp : s.progress = s.next 1 2 := by rw [progress, ha, hb]
      rw [hp]
      exact next_of_before h rfl rfl rfl
  | 8, h =>
      obtain ⟨ha, hb⟩ : s.aIdxQ = 1 ∧ s.bIdxQ = 2 := h.idx_eq rfl
      have hp : s.progress = s.next 0 3 := by rw [progress, ha, hb]
      rw [hp]
      exact next_of_before h rfl rfl rfl
  | 9, h =>
      obtain ⟨ha, hb⟩ : s.aIdxQ = 0 ∧ s.bIdxQ = 3 := h.idx_eq rfl
      have hnarrow : s.opLowQ = false := h.not_low (by decide) hk
      have hp : s.progress = s.carry 1 3 (setWindow s.respValue 48 s.low) := by
        rw [progress, ha, hb]
        simp [hnarrow]
      rw [hp]
      exact carry_of_before h rfl rfl rfl (by decide) (by decide) (by decide) hlow
  | 10, h =>
      obtain ⟨ha, hb⟩ : s.aIdxQ = 1 ∧ s.bIdxQ = 3 := h.idx_eq rfl
      have hp : s.progress = s.next 2 2 := by rw [progress, ha, hb]
      rw [hp]
      exact next_of_before h rfl rfl rfl
  | 11, h =>
      obtain ⟨ha, hb⟩ : s.aIdxQ = 2 ∧ s.bIdxQ = 2 := h.idx_eq rfl
      have hp : s.progress = s.next 3 1 := by rw [progress, ha, hb]
      rw [hp]
      exact next_of_before h rfl rfl rfl
  | 12, h =>
      obtain ⟨ha, hb⟩ : s.aIdxQ = 3 ∧ s.bIdxQ = 1 := h.idx_eq rfl
      have hp : s.progress = s.carry 3 2 (setWindow s.respValue 0 s.low) := by
        rw [progress, ha, hb]
      rw [hp]
      exact carry_of_before h rfl rfl rfl (by decide) (by decide) (by decide) hlow
  | 13, h =>
      obtain ⟨ha, hb⟩ : s.aIdxQ = 3 ∧ s.bIdxQ = 2 := h.idx_eq rfl
      have hp : s.progress = s.next 2 3 := by rw [progress, ha, hb]
      rw [hp]
      exact next_of_before h rfl rfl rfl
  | 14, h =>
      obtain ⟨ha, hb⟩ : s.aIdxQ = 2 ∧ s.bIdxQ = 3 := h.idx_eq rfl
      have hp : s.progress = s.carry 3 3 (setWindow s.respValue 16 s.low) := by
        rw [progress, ha, hb]
      rw [hp]
      exact carry_of_before h rfl rfl rfl (by decide) (by decide) (by decide) hlow
  | k + 15, _ => omega

/-- The sum of the products in the first columns, up to multiples of the next weight. -/
theorem terms_order (x y : ℤ) :
    (∃ r, x * y = terms 65536 (digitOf x) (digitOf y) (order.take 3) + 65536 ^ 2 * r) ∧
    (∃ r, x * y = terms 65536 (digitOf x) (digitOf y) (order.take 10) + 65536 ^ 4 * r) ∧
    x * y = terms 65536 (digitOf x) (digitOf y) order := by
  have hsplit : ∀ z, z = digitOf z 0 + digitOf z 1 * 65536 + digitOf z 2 * 65536 ^ 2 +
      digitOf z 3 * 65536 ^ 3 := by
    intro z
    simp only [digitOf]
    norm_num
    omega
  have hx := hsplit x
  have hy := hsplit y
  generalize digitOf x = a at hx
  generalize digitOf y = b at hy
  rw [hx, hy]
  refine ⟨⟨a 0 * b 2 + a 1 * b 1 + a 2 * b 0 +
    (a 3 * b 0 + a 2 * b 1 + a 1 * b 2 + a 0 * b 3) * 65536 +
    (a 1 * b 3 + a 2 * b 2 + a 3 * b 1) * 65536 ^ 2 + (a 3 * b 2 + a 2 * b 3) * 65536 ^ 3 +
    a 3 * b 3 * 65536 ^ 4, ?_⟩, ⟨a 1 * b 3 + a 2 * b 2 + a 3 * b 1 +
    (a 3 * b 2 + a 2 * b 3) * 65536 + a 3 * b 3 * 65536 ^ 2, ?_⟩, ?_⟩
  all_goals
    simp only [terms, order, List.take_succ_cons, List.take_zero, List.map_cons, List.map_nil,
      List.sum_cons, List.sum_nil]
    ring

/-- A digit with its sign above the digit below it. -/
theorem setWindow_signExtend (x : BitVec 64) (v : BitVec 16) :
    setWindow x 16 (v.signExtend 48) = (v ++ x.extractLsb' 0 16).signExtend 64 := by
  have hmsb : (v ++ x.extractLsb' 0 16).msb = v.msb := by
    rw [BitVec.msb_append]
    simp
  apply BitVec.eq_of_getLsbD_eq
  intro j hj
  rw [getLsbD_setWindow hj]
  simp only [BitVec.getLsbD_signExtend, hmsb, BitVec.getLsbD_append, BitVec.getLsbD_extractLsb', hj,
    decide_true, Bool.true_and, Nat.zero_add]
  by_cases h16 : j < 16
  · simp [h16, show j < 32 by omega, show ¬16 ≤ j by omega]
  · by_cases h32 : j < 32
    · simp [h16, h32, show 16 ≤ j by omega, show j - 16 < 16 by omega, show j - 16 < 48 by omega]
    · simp [h32, show 16 ≤ j by omega, show ¬j - 16 < 16 by omega, show j - 16 < 48 by omega]

/-- The result of an operation on words is there after two columns. -/
theorem value_word (h : multiplier.Before i 2 s) :
    setWindow s.respValue 16 (s.low.signExtend 48) =
      (BitVec.ofInt 32 i.product).signExtend 64 := by
  obtain ⟨low, hcol, hshow, -⟩ := h.digit_of_column adds
  obtain ⟨r, hr⟩ := (terms_order i.a.toInt i.b.toInt).1
  have heq := hcol.low_eq hr
  have hshow : ((s.respValue.toNat % 2 ^ 16 : ℕ) : ℤ) = low := hshow
  rw [setWindow_signExtend]
  congr 1
  refine eq_ofInt (Eq.trans ?_ heq)
  rw [toNat_append_add, ← hshow, BitVec.extractLsb'_toNat, Nat.shiftRight_zero]
  push_cast
  have hdigit := toNat_low s
  change _ = _ + s.macProd.toInt % 65536 * 65536 ^ 1
  omega

/-- The low half of the product is there after four columns. -/
theorem value_low (h : multiplier.Before i 9 s) :
    setWindow s.respValue 48 s.low = BitVec.ofInt 64 i.product := by
  obtain ⟨low, hcol, hshow, -⟩ := h.digit_of_column adds
  obtain ⟨r, hr⟩ := (terms_order i.a.toInt i.b.toInt).2.1
  have heq := hcol.low_eq hr
  have hshow : ((s.respValue.toNat % 2 ^ 48 : ℕ) : ℤ) = low := hshow
  have hset := toNat_setWindow_mod (x := s.respValue) (o := 48) (u := 16) (v := s.low)
    (by decide) (by decide)
  have hlt := (setWindow s.respValue 48 s.low).isLt
  have hv := s.low.isLt
  refine eq_ofInt (Eq.trans ?_ heq)
  have hdigit := toNat_low s
  change _ = _ + s.macProd.toInt % 65536 * 65536 ^ 3
  omega

/-- The high half is there after all columns. -/
theorem value_high (h : multiplier.Before i 15 s) :
    setWindow s.respValue 32 (s.macProd.extractLsb' 0 32) =
      BitVec.ofInt 64 (i.product / 2 ^ 64) := by
  obtain ⟨low, hcol, hshow, -⟩ := h.after adds
  have hall : i.product = _ := (terms_order i.a.toInt i.b.toInt).2.2
  have hhigh : s.macProd.toInt = i.product / 65536 ^ 6 := hcol.high_eq (by decide) hall
  have hlow : low = i.product % 65536 ^ 6 :=
    hcol.low_eq (r := 0) (by rw [mul_zero, add_zero]; exact hall)
  have hshow : ((s.respValue.toNat % 2 ^ 32 : ℕ) : ℤ) = low / 2 ^ 64 := hshow
  have hset := toNat_setWindow_mod (x := s.respValue) (o := 32) (u := 32)
    (v := s.macProd.extractLsb' 0 32) (by decide) (by decide)
  have hdigit := toNat_extract (s := 0) (w := 32) s.macProd (by decide)
  have hlt := (setWindow s.respValue 32 (s.macProd.extractLsb' 0 32)).isLt
  generalize setWindow s.respValue 32 (s.macProd.extractLsb' 0 32) = out at hset hlt ⊢
  generalize (s.macProd.extractLsb' 0 32).toNat = digit at hset hdigit
  refine eq_ofInt ?_
  rw [hhigh] at hdigit
  generalize i.product = P at *
  norm_num at *
  omega

theorem works : multiplier.Works where
  toAdds := adds
  first := ⟨rfl, rfl⟩
  shows_zero := fun _ => by simp [multiplier, Shows]
  accept := fun _ _ => ⟨rfl, rfl⟩
  rest := fun _ => rfl
  progress := fun _ _ _ => progress_of_before
  word := by
    intro i s h hw
    obtain ⟨ha, hb⟩ : s.aIdxQ = 0 ∧ s.bIdxQ = 1 := h.idx_eq rfl
    have hp : s.progress = s.finish ((BitVec.ofInt 32 i.product).signExtend 64) := by
      rw [← value_word h, progress, ha, hb]
      simp [show s.opWordQ = _ from h.opWordQ, hw]
    exact congrArg multiplier.regs hp
  low := by
    intro i s h _ ho
    obtain ⟨ha, hb⟩ : s.aIdxQ = 0 ∧ s.bIdxQ = 3 := h.idx_eq rfl
    have hp : s.progress = s.finish (BitVec.ofInt 64 i.product) := by
      rw [← value_low h, progress, ha, hb]
      simp [show s.opLowQ = _ from h.opLowQ, ho]
    exact congrArg multiplier.regs hp
  high := by
    intro i s h _ _
    obtain ⟨ha, hb⟩ : s.aIdxQ = 3 ∧ s.bIdxQ = 3 := h.idx_eq rfl
    have hp : s.progress = s.finish (BitVec.ofInt 64 (i.product / 2 ^ 64)) := by
      rw [← value_high h, progress, ha, hb]
    exact congrArg multiplier.regs hp

end Step

/-- One phase of the work for each product. -/
theorem phases : unit.Phases multiplier.Before last MulIn.result := works.phases

end Mul

/-! ## `muntjac_mul_fast` -/

/-- The registers of `muntjac_mul_fast`. -/
structure MulFast where
  stateQ : MulState
  aIdxQ : Fin 2
  bIdxQ : Fin 2
  aQ : BitVec 65
  bQ : BitVec 65
  opLowQ : Bool
  opWordQ : Bool
  accum : BitVec 66
  respValid : Bool
  respValue : BitVec 64
  deriving DecidableEq, Repr

namespace MulFast

/-- Reset leaves the operands undefined. -/
def reset : MulFast := ⟨.idle, 0, 0, 0, 0, false, false, 0, false, 0⟩

/-- `mac_op_a`, `mac_op_b`: the digits of an operand. -/
def digit (x : BitVec 65) : Fin 2 → BitVec 33
  | 0 => 0#1 ++ x.extractLsb' 0 32
  | 1 => x.extractLsb' 32 33

/-- `mac_prod`. -/
def macProd (s : MulFast) : BitVec 66 :=
  s.accum + (digit s.aQ s.aIdxQ).signExtend 66 * (digit s.bQ s.bIdxQ).signExtend 66

/-- The column goes on with the product of the digits `i` and `j`. -/
def next (s : MulFast) (i j : Fin 2) : MulFast :=
  { s with aIdxQ := i, bIdxQ := j, accum := s.macProd, respValid := false }

/-- The column is complete: the next one starts with the digits `i` and `j`. -/
def carry (s : MulFast) (i j : Fin 2) (value : BitVec 64) : MulFast :=
  { s with
    aIdxQ := i
    bIdxQ := j
    accum := (s.macProd.extractLsb' 32 34).signExtend 66
    respValid := false
    respValue := value }

/-- The response. -/
def finish (s : MulFast) (value : BitVec 64) : MulFast :=
  { s with stateQ := .idle, accum := 0, respValid := true, respValue := value }

/-- `mac_prod[31:0]`. -/
def low (s : MulFast) : BitVec 32 := s.macProd.extractLsb' 0 32

/-- `StateProgress`. -/
def progress (s : MulFast) : MulFast :=
  match s.aIdxQ, s.bIdxQ with
  | 0, 0 =>
      let value := s.low.signExtend 64
      if s.opWordQ then s.finish value else s.carry 1 0 value
  | 1, 0 => s.next 0 1
  | 0, 1 =>
      let value := setWindow s.respValue 32 s.low
      if s.opLowQ then s.finish value else s.carry 1 1 value
  | 1, 1 => s.finish (s.macProd.extractLsb' 0 64)

/-- `StateIdle` with a request. -/
def accept (s : MulFast) (i : MulIn) : MulFast :=
  { s with
    stateQ := .progress
    aQ := i.a
    bQ := i.b
    opLowQ := i.reqOp == 0
    opWordQ := i.reqWord
    accum := 0
    aIdxQ := 0
    bIdxQ := 0
    respValid := false }

def step (s : MulFast) (i : MulIn) : MulFast :=
  match s.stateQ with
  | .idle => if i.reqValid then s.accept i else { s with respValid := false }
  | .progress => s.progress

/-- The multiplier with its ports. -/
def unit : Server MulFast MulIn (BitVec 64) where
  step := step
  ready := fun s => s.stateQ == .idle
  valid := MulIn.reqValid
  resp := fun s => if s.respValid then some s.respValue else none

/-! ### The digits -/

/-- The digits of a number. -/
def digitOf (x : ℤ) (j : ℕ) : ℤ := if j < 1 then x % 4294967296 else x / 4294967296

theorem toInt_digit (x : BitVec 65) (j : Fin 2) : (digit x j).toInt = digitOf x.toInt j := by
  match j with
  | 0 =>
      refine (toInt_zero_append_extract x (by decide)).trans ?_
      simp [digitOf]
  | 1 => exact toInt_extract_high x (by decide) (by decide)

theorem abs_digitOf_le (g : Bool) (x : BitVec 64) (j : ℕ) :
    |digitOf (extended g x).toInt j| ≤ 4294967296 - 1 := by
  obtain ⟨hlow, hhigh⟩ := extended_bounds g x
  rw [abs_le, digitOf]
  split_ifs <;> omega

/-- The products of the digits in the order in which they are taken. -/
def order : List (ℕ × ℕ) := [(0, 0), (1, 0), (0, 1), (1, 1)]

/-- The number of products in the column of product `k` that come before it. -/
def inColumn (k : ℕ) : ℕ := if k = 2 then 1 else 0

theorem inColumn_lt (k : ℕ) : inColumn k < 2 := by
  unfold inColumn
  split_ifs <;> decide

/-- The last product of a request. -/
def last (i : MulIn) : ℕ := if i.reqWord then 0 else if i.reqOp = 0 then 2 else 3

/-- The final digits in the output register. -/
def Shows (d : ℕ) (low : ℤ) (out : BitVec 64) : Prop :=
  d = 1 → ((out.toNat % 2 ^ 32 : ℕ) : ℤ) = low

/-- The registers and the products of `muntjac_mul_fast`. -/
def multiplier : Multiplier MulFast 2 where
  regs := fun s => ⟨s.stateQ, s.aIdxQ, s.bIdxQ, s.aQ, s.bQ, s.opLowQ, s.opWordQ, s.respValid,
    s.respValue⟩
  accum := fun s => s.accum.toInt
  macProd := fun s => s.macProd.toInt
  accept := accept
  progress := progress
  rest := fun s => { s with respValid := false }
  base := 4294967296
  digitOf := digitOf
  order := order
  inColumn := inColumn
  Shows := Shows
  lastWord := 0
  lastLow := 2
  lastHigh := 3

theorem adds : multiplier.Adds where
  base := by decide
  pos := by decide
  digit_le := abs_digitOf_le
  inColumn_lt := inColumn_lt
  macProd := by
    intro s h
    simp only [Multiplier.sum, multiplier, ← toInt_digit] at h ⊢
    exact toInt_mac (by decide) (by decide) h

theorem toNat_low (s : MulFast) : (s.low.toNat : ℤ) = s.macProd.toInt % 4294967296 := by
  change ((s.macProd.extractLsb' 0 32).toNat : ℤ) = _
  rw [toNat_extract _ (by decide)]
  simp

theorem toInt_carry (s : MulFast) (x y : Fin 2) (value : BitVec 64) :
    (s.carry x y value).accum.toInt = s.macProd.toInt / 4294967296 := by
  change ((s.macProd.extractLsb' 32 34).signExtend 66).toInt = _
  rw [BitVec.toInt_signExtend_of_le (by decide), toInt_extract_high _ (by decide) (by decide)]
  rfl

/-- The sum of the products in the first columns, up to multiples of the next weight. -/
theorem terms_order (x y : ℤ) :
    (∃ r, x * y = terms 4294967296 (digitOf x) (digitOf y) (order.take 1) + 4294967296 ^ 1 * r) ∧
    (∃ r, x * y = terms 4294967296 (digitOf x) (digitOf y) (order.take 3) + 4294967296 ^ 2 * r) ∧
    x * y = terms 4294967296 (digitOf x) (digitOf y) order := by
  have hsplit : ∀ z, z = digitOf z 0 + digitOf z 1 * 4294967296 := by
    intro z
    simp only [digitOf]
    norm_num
    omega
  have hx := hsplit x
  have hy := hsplit y
  generalize digitOf x = a at hx
  generalize digitOf y = b at hy
  rw [hx, hy]
  refine ⟨⟨a 0 * b 1 + a 1 * b 0 + a 1 * b 1 * 4294967296, ?_⟩, ⟨a 1 * b 1, ?_⟩, ?_⟩
  all_goals
    simp only [terms, order, List.take_succ_cons, List.take_zero, List.map_cons, List.map_nil,
      List.sum_cons, List.sum_nil]
    ring

section Step
variable {i : MulIn} {k : ℕ} {s : MulFast}

/-- The first column gives the result of an operation on words. -/
theorem low_word (h : multiplier.Before i 0 s) : s.low = BitVec.ofInt 32 i.product := by
  obtain ⟨low, hcol, -, hnn, hlt⟩ := h.digit_of_column adds
  obtain ⟨r, hr⟩ := (terms_order i.a.toInt i.b.toInt).1
  have heq := hcol.low_eq hr
  have hlt : low < 4294967296 ^ 0 := hlt
  refine eq_ofInt (Eq.trans ?_ heq)
  rw [toNat_low, show low = 0 by omega]
  change _ = 0 + s.macProd.toInt % 4294967296 * 4294967296 ^ 0
  omega

/-- The low half of the product is there after two columns. -/
theorem value_low (h : multiplier.Before i 2 s) :
    setWindow s.respValue 32 s.low = BitVec.ofInt 64 i.product := by
  obtain ⟨low, hcol, hshow, -⟩ := h.digit_of_column adds
  obtain ⟨r, hr⟩ := (terms_order i.a.toInt i.b.toInt).2.1
  have heq := hcol.low_eq hr
  have hshow : ((s.respValue.toNat % 2 ^ 32 : ℕ) : ℤ) = low := hshow rfl
  have hset := toNat_setWindow_mod (x := s.respValue) (o := 32) (u := 32) (v := s.low)
    (by decide) (by decide)
  have hdigit := toNat_low s
  have hlt := (setWindow s.respValue 32 s.low).isLt
  have hv := s.low.isLt
  refine eq_ofInt (Eq.trans ?_ heq)
  change _ = _ + s.macProd.toInt % 4294967296 * 4294967296 ^ 1
  omega

/-- The high half is there after all columns. -/
theorem value_high (h : multiplier.Before i 3 s) :
    s.macProd.extractLsb' 0 64 = BitVec.ofInt 64 (i.product / 2 ^ 64) := by
  obtain ⟨low, hcol, -⟩ := h.after adds
  have hall : i.product = _ := (terms_order i.a.toInt i.b.toInt).2.2
  have hhigh : s.macProd.toInt = i.product / 4294967296 ^ 2 := hcol.high_eq (by decide) hall
  refine eq_ofInt ?_
  rw [toNat_extract _ (by decide), hhigh]
  norm_num

/-- Every product but the last one leads to the next. -/
theorem progress_of_before (h : multiplier.Before i k s) (hk : k < multiplier.last i) :
    multiplier.Before i (k + 1) s.progress := by
  have hlast : multiplier.last i ≤ 3 := by
    unfold Multiplier.last
    split_ifs <;> decide
  match k, h with
  | 0, h =>
      obtain ⟨ha, hb⟩ : s.aIdxQ = 0 ∧ s.bIdxQ = 0 := h.idx_eq rfl
      have hword : s.opWordQ = false := h.not_word hk
      have hp : s.progress = s.carry 1 0 (s.low.signExtend 64) := by
        rw [progress, ha, hb]
        simp [hword]
      rw [hp]
      refine h.carry adds rfl (toInt_carry s 1 0 _) rfl rfl rfl fun low _ hnn hlt _ => ?_
      have hlt : low < 4294967296 ^ 0 := hlt
      have hlow := s.low.isLt
      have hext : (s.low.signExtend 64).toNat % 2 ^ 32 = s.low.toNat := by
        rw [BitVec.toNat_signExtend, BitVec.toNat_setWidth]
        split_ifs <;> omega
      change (((s.low.signExtend 64).toNat % 2 ^ 32 : ℕ) : ℤ) =
        low + s.macProd.toInt % 4294967296 * 4294967296 ^ 0
      rw [hext, toNat_low]
      omega
  | 1, h =>
      obtain ⟨ha, hb⟩ : s.aIdxQ = 1 ∧ s.bIdxQ = 0 := h.idx_eq rfl
      have hp : s.progress = s.next 0 1 := by
        rw [progress, ha, hb]
      rw [hp]
      exact h.next adds rfl rfl rfl rfl rfl
  | 2, h =>
      obtain ⟨ha, hb⟩ : s.aIdxQ = 0 ∧ s.bIdxQ = 1 := h.idx_eq rfl
      have hnarrow : s.opLowQ = false := h.not_low (by decide) hk
      have hp : s.progress = s.carry 1 1 (setWindow s.respValue 32 s.low) := by
        rw [progress, ha, hb]
        simp [hnarrow]
      rw [hp]
      exact h.carry adds rfl (toInt_carry s 1 1 _) rfl rfl rfl
        fun _ _ _ _ hd => absurd hd (by decide)
  | k + 3, _ => omega

theorem works : multiplier.Works where
  toAdds := adds
  first := ⟨rfl, rfl⟩
  shows_zero := fun _ hd => absurd hd (by decide)
  accept := fun _ _ => ⟨rfl, rfl⟩
  rest := fun _ => rfl
  progress := fun _ _ _ => progress_of_before
  word := by
    intro i s h hw
    obtain ⟨ha, hb⟩ : s.aIdxQ = 0 ∧ s.bIdxQ = 0 := h.idx_eq rfl
    have hp : s.progress = s.finish ((BitVec.ofInt 32 i.product).signExtend 64) := by
      rw [← low_word h, progress, ha, hb]
      simp [show s.opWordQ = _ from h.opWordQ, hw]
    exact congrArg multiplier.regs hp
  low := by
    intro i s h _ ho
    obtain ⟨ha, hb⟩ : s.aIdxQ = 0 ∧ s.bIdxQ = 1 := h.idx_eq rfl
    have hp : s.progress = s.finish (BitVec.ofInt 64 i.product) := by
      rw [← value_low h, progress, ha, hb]
      simp [show s.opLowQ = _ from h.opLowQ, ho]
    exact congrArg multiplier.regs hp
  high := by
    intro i s h _ _
    obtain ⟨ha, hb⟩ : s.aIdxQ = 1 ∧ s.bIdxQ = 1 := h.idx_eq rfl
    have hp : s.progress = s.finish (BitVec.ofInt 64 (i.product / 2 ^ 64)) := by
      rw [← value_high h, progress, ha, hb]
    exact congrArg multiplier.regs hp

end Step

/-- One phase of the work for each product. -/
theorem phases : unit.Phases multiplier.Before last MulIn.result := works.phases

end MulFast

/-! ## Both multipliers -/

/-- Both multipliers serve every request with the architecture's result, so they agree; and
in every cycle of the work the accumulator takes the exact sum. -/
theorem multipliers_serve :
    Mul.unit.Serves Mul.reset MulIn.result (fun i => Mul.last i + 2) ∧
    MulFast.unit.Serves MulFast.reset MulIn.result (fun i => MulFast.last i + 2) ∧
    (∀ inp inp' t t', Mul.unit.Accepts Mul.reset inp t →
      MulFast.unit.Accepts MulFast.reset inp' t' → inp t = inp' t' →
      Mul.unit.resp (Mul.unit.after Mul.reset inp (t + (Mul.last (inp t) + 2))) =
        MulFast.unit.resp
          (MulFast.unit.after MulFast.reset inp' (t' + (MulFast.last (inp' t') + 2)))) ∧
    (∀ inp n, let s := Mul.unit.after Mul.reset inp n
      s.stateQ = .progress → s.macProd.toInt = s.accum.toInt +
        (Mul.digit s.aQ s.aIdxQ).toInt * (Mul.digit s.bQ s.bIdxQ).toInt) ∧
    ∀ inp n, let s := MulFast.unit.after MulFast.reset inp n
      s.stateQ = .progress → s.macProd.toInt = s.accum.toInt +
        (MulFast.digit s.aQ s.aIdxQ).toInt * (MulFast.digit s.bQ s.bIdxQ).toInt := by
  have hmul : Mul.unit.Serves Mul.reset MulIn.result _ := Mul.phases.serves rfl rfl
  have hfast : MulFast.unit.Serves MulFast.reset MulIn.result _ := MulFast.phases.serves rfl rfl
  refine ⟨hmul, hfast, ?_, ?_, ?_⟩
  · intro inp inp' t t' h h' heq
    rw [(hmul.answers inp t h).resp, (hfast.answers inp' t' h').resp, heq]
  · intro inp n s hs
    have hsum := Mul.works.exact rfl rfl inp n hs
    rw [Mul.toInt_digit, Mul.toInt_digit]
    exact hsum
  · intro inp n s hs
    have hsum := MulFast.works.exact rfl rfl inp n hs
    rw [MulFast.toInt_digit, MulFast.toInt_digit]
    exact hsum

/-- The high half of the most negative number times the greatest unsigned one. -/
def mulhsu : MulIn := ⟨0x8000000000000000, 0xFFFFFFFFFFFFFFFF, 2, false, true⟩

theorem multipliers_serve_mulhsu :
    Mul.unit.resp (Mul.unit.after Mul.reset (fun _ => mulhsu) 17) = some 0x8000000000000000 ∧
      MulFast.unit.resp (MulFast.unit.after MulFast.reset (fun _ => mulhsu) 5) =
        some 0x8000000000000000 := by
  obtain ⟨hmul, hfast, -⟩ := multipliers_serve
  have hresult : mulhsu.result = 0x8000000000000000 := by decide
  have h := (hmul.answers (fun _ => mulhsu) 0 ⟨rfl, rfl⟩).resp
  have h' := (hfast.answers (fun _ => mulhsu) 0 ⟨rfl, rfl⟩).resp
  rw [hresult] at h h'
  exact ⟨h, h'⟩

end Muntjac.Pipeline

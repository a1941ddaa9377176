import Muntjac.Core.DcacheOps
import Muntjac.Riscv.Arith
import Muntjac.Sync.Window

/-!
# The words that the data cache writes and returns

A write merges the result of the operation into the old word under the byte mask.  The
mask and the placed operand depend only on the offset and the size of the access, and
the arithmetic of `do_amo_op` on the bytes under the mask is that of an operation on
these bytes alone: the carry crosses the halves of the word only if both are under the
mask.

## Main results

* `combineWord_alignStrb` — a write replaces the addressed bytes.
* `extract_doAmoOp` — the addressed bytes of the result.
* `access_words` — the word written and the value returned.
-/

namespace Muntjac.Core

open Sync Riscv

/-- The position of the addressed bytes in a word. -/
def bitOffset (addr : ℕ) : ℕ := 8 * (addr % 8)

/-- The number of bits of an access. -/
def accessWidth (size : Fin 4) : ℕ := 8 * 2 ^ (size : ℕ)

/-- The addressed bytes of a word. -/
def addressed (word : BitVec 64) (addr : ℕ) (size : Fin 4) : BitVec (accessWidth size) :=
  word.extractLsb' (bitOffset addr) (accessWidth size)

/-- The number of bits that `align_store` drives from the offset of the address on. -/
def storeWidth (addr : ℕ) : ℕ :=
  match addr % 8 with
  | 0 => 64
  | 1 => 8
  | 2 => 16
  | 3 => 8
  | 4 => 32
  | 5 => 8
  | 6 => 16
  | _ => 8

/-- `align_store`, where the bits that the source leaves undefined are those of `x`. -/
def alignStoreWith (x value : BitVec 64) (addr : ℕ) : BitVec 64 :=
  setWindow x (bitOffset addr) (value.extractLsb' 0 (storeWidth addr))

theorem sext_self (word : BitVec 64) (ext : SizeExt) : sext word ext = word := by
  cases ext <;> simp [sext]

/-! ## The lanes -/

section Lanes
variable {addr : ℕ} {size : Fin 4}

/-- The offset of an aligned access is aligned. -/
theorem offset_aligned (h : isAligned addr size = true) : addr % 8 % 2 ^ (size : ℕ) = 0 := by
  have hmod : addr % 2 ^ (size : ℕ) = 0 := by simpa [isAligned] using h
  have hdvd : ∀ size : Fin 4, 2 ^ (size : ℕ) ∣ 8 := by decide
  rw [Nat.mod_mod_of_dvd _ (hdvd size), hmod]

/-- A property of the offset and the size of an aligned access. -/
theorem aligned_cases {P : ℕ → Fin 4 → Prop}
    (hP : ∀ k < 8, ∀ size : Fin 4, k % 2 ^ (size : ℕ) = 0 → P k size)
    (h : isAligned addr size = true) : P (addr % 8) size :=
  hP _ (Nat.mod_lt _ (by decide)) size (offset_aligned h)

/-- An aligned access lies inside its word. -/
theorem bitOffset_add_le (h : isAligned addr size = true) :
    bitOffset addr + accessWidth size ≤ 64 :=
  aligned_cases (P := fun k size => 8 * k + 8 * 2 ^ (size : ℕ) ≤ 64) (by decide) h

/-- The operand that is placed has all bytes of an aligned access. -/
theorem accessWidth_le_storeWidth (h : isAligned addr size = true) :
    accessWidth size ≤ storeWidth addr := by
  have hmod : storeWidth addr = storeWidth (addr % 8) := by simp [storeWidth]
  rw [hmod]
  exact aligned_cases (P := fun k size => accessWidth size ≤ storeWidth k) (by decide) h

/-- The strobe of an aligned access. -/
theorem getLsbD_alignStrb (h : isAligned addr size = true) {j : ℕ} (hj : j < 8) :
    (alignStrb addr size).getLsbD j =
      decide (addr % 8 ≤ j ∧ j < addr % 8 + 2 ^ (size : ℕ)) := by
  have hmod : alignStrb addr size = alignStrb (addr % 8) size := by simp [alignStrb]
  rw [hmod]
  exact aligned_cases (P := fun k size => ∀ j < 8, (alignStrb k size).getLsbD j =
    decide (k ≤ j ∧ j < k + 2 ^ (size : ℕ))) (by decide) h j hj

/-- The source's `align_store`, where the undriven bits are zero. -/
theorem alignStore_eq (value : BitVec 64) (addr : ℕ) :
    alignStore value addr = alignStoreWith 0 value addr := by
  have hlt : addr % 8 < 8 := Nat.mod_lt _ (by decide)
  rw [alignStoreWith, setWindow_zero]
  unfold alignStore storeWidth bitOffset
  generalize addr % 8 = k at hlt ⊢
  match k, hlt with
  | 0, _ =>
      change value = (value.extractLsb' 0 64).setWidth 64 <<< 0
      simp [BitVec.extractLsb'_eq_self]
  | 1, _ | 2, _ | 3, _ | 4, _ | 5, _ | 6, _ | 7, _ => rfl

/-- The addressed bytes of the placed operand are the low bytes of the operand. -/
theorem addressed_alignStoreWith (x value : BitVec 64) (h : isAligned addr size = true) :
    addressed (alignStoreWith x value addr) addr size = value.extractLsb' 0 (accessWidth size) := by
  have hle := bitOffset_add_le h
  have hw := accessWidth_le_storeWidth h
  apply BitVec.eq_of_getLsbD_eq
  intro i hi
  simp only [addressed, alignStoreWith, BitVec.getLsbD_extractLsb', hi, decide_true, Bool.true_and]
  rw [getLsbD_setWindow (by omega), if_pos (by omega), Nat.add_sub_cancel_left,
    BitVec.getLsbD_extractLsb']
  simp [show i < storeWidth addr by omega]

/-- The value returned extends the addressed bytes. -/
theorem alignLoad_eq (word : BitVec 64) (ext : SizeExt) (h : isAligned addr size = true) :
    alignLoad word addr size ext = sext (addressed word addr size) ext := by
  match size with
  | 0 => rfl
  | 1 =>
      have hoff : addr % 8 % 2 = 0 := offset_aligned h
      have hk : 16 * (addr % 8 / 2) = bitOffset addr := by
        rw [bitOffset]
        omega
      rw [alignLoad, hk]
      rfl
  | 2 =>
      have hoff : addr % 8 % 4 = 0 := offset_aligned h
      have hk : 32 * (addr % 8 / 4) = bitOffset addr := by
        rw [bitOffset]
        omega
      rw [alignLoad, hk]
      rfl
  | 3 =>
      have hoff : addr % 8 % 8 = 0 := offset_aligned h
      have hk : bitOffset addr = 0 := by
        rw [bitOffset]
        omega
      have hw : addressed word addr 3 = word := by
        rw [addressed, hk]
        exact BitVec.extractLsb'_eq_self
      rw [hw, alignLoad]
      exact (sext_self word ext).symm

end Lanes

/-! ## Merging -/

theorem getLsbD_byteMask (mask : BitVec 8) {i : ℕ} (hi : i < 64) :
    (byteMask mask).getLsbD i = mask.getLsbD (i / 8) := by
  have hbyte : ∀ m : BitVec 64, ∀ j, (m ||| (0xff#64 <<< (8 * j))).getLsbD i =
      (m.getLsbD i || decide (i / 8 = j)) := by
    intro m j
    rw [show 0xff#64 = (BitVec.allOnes 8).setWidth 64 by decide, BitVec.getLsbD_or,
      BitVec.getLsbD_shiftLeft, BitVec.getLsbD_setWidth, BitVec.getLsbD_allOnes]
    congr 1
    by_cases hj : i / 8 = j
    · simp [hj, hi, show 8 * j ≤ i by omega, show i - 8 * j < 8 by omega,
        show i - 8 * j < 64 by omega]
    · by_cases hlt : i < 8 * j
      · simp [hj, hlt]
      · simp [hj, hlt, show ¬i - 8 * j < 8 by omega]
  have hfold : ∀ n, ((List.range n).foldl
      (fun m j => if mask.getLsbD j then m ||| (0xff#64 <<< (8 * j)) else m) 0).getLsbD i =
      (decide (i / 8 < n) && mask.getLsbD (i / 8)) := by
    intro n
    induction n with
    | zero => simp
    | succ n ih =>
        rw [List.range_succ, List.foldl_append, List.foldl_cons, List.foldl_nil]
        by_cases hn : mask.getLsbD n = true
        · rw [if_pos hn, hbyte, ih]
          by_cases hi' : i / 8 = n
          · simp [hi', hn]
          · have hlt : i / 8 < n + 1 ↔ i / 8 < n := by omega
            simp [hi', hlt]
        · rw [if_neg hn, ih]
          by_cases hi' : i / 8 = n
          · simp [hi', hn]
          · have hlt : i / 8 < n + 1 ↔ i / 8 < n := by omega
            simp [hlt]
  have hlt : i / 8 < 8 := by omega
  simpa [byteMask, hlt] using hfold 8

/-- A write replaces the addressed bytes by those of the new value. -/
theorem combineWord_alignStrb {addr : ℕ} {size : Fin 4} (old new : BitVec 64)
    (h : isAligned addr size = true) :
    combineWord old new (alignStrb addr size) =
      setWindow old (bitOffset addr) (addressed new addr size) := by
  have hle := bitOffset_add_le h
  have hstrb : ∀ i < 64, (byteMask (alignStrb addr size)).getLsbD i =
      decide (bitOffset addr ≤ i ∧ i < bitOffset addr + accessWidth size) := by
    intro i hi
    rw [getLsbD_byteMask _ hi, getLsbD_alignStrb h (by omega)]
    apply decide_eq_decide.mpr
    rw [bitOffset, accessWidth]
    omega
  have hbit : ∀ i < 64, (combineWord old new (alignStrb addr size)).getLsbD i =
      if bitOffset addr ≤ i ∧ i < bitOffset addr + accessWidth size then new.getLsbD i
      else old.getLsbD i := by
    intro i hi
    simp only [combineWord, BitVec.getLsbD_or, BitVec.getLsbD_and, BitVec.getLsbD_not, hi,
      hstrb i hi, decide_true, Bool.true_and]
    split_ifs with hin <;> simp [hin]
  apply eq_setWindow
  · apply extractLsb'_congr
    intro i hi
    rw [hbit _ (by omega), if_pos (by omega)]
  · intro i hi hout
    rw [hbit i hi, if_neg hout]

/-! ## The arithmetic -/

/-- The halves of a word. -/
def lower (x : BitVec 64) : BitVec 32 := x.extractLsb' 0 32
def upper (x : BitVec 64) : BitVec 32 := x.extractLsb' 32 32

theorem toNat_lower (x : BitVec 64) : (lower x).toNat = x.toNat % 2 ^ 32 := by
  simp [lower, BitVec.extractLsb'_toNat]

theorem toNat_upper (x : BitVec 64) : (upper x).toNat = x.toNat / 2 ^ 32 := by
  have hx := x.isLt
  rw [upper, BitVec.extractLsb'_toNat, Nat.shiftRight_eq_div_pow, Nat.mod_eq_of_lt (by omega)]

@[simp] theorem lower_append (x y : BitVec 32) : lower (x ++ y) = y := by
  have hx := x.isLt
  have hy := y.isLt
  apply BitVec.eq_of_toNat_eq
  rw [toNat_lower, toNat_append_add]
  omega

@[simp] theorem upper_append (x y : BitVec 32) : upper (x ++ y) = x := by
  have hx := x.isLt
  have hy := y.isLt
  apply BitVec.eq_of_toNat_eq
  rw [toNat_upper, toNat_append_add]
  omega

/-- The carry out of an addition with 33 bits. -/
theorem carry_iff (x : BitVec 33) : x.getLsbD 32 = decide (2 ^ 32 ≤ x.toNat) :=
  BitVec.msb_eq_decide x

section Sum
variable (a b : BitVec 64) (mask : BitVec 8)

theorem lower_amoSum : lower (amoSum a b mask) = lower a + lower b := by
  apply BitVec.eq_of_toNat_eq
  rw [amoSum, lower_append]
  simp only [BitVec.extractLsb'_toNat, BitVec.toNat_add, BitVec.toNat_setWidth, lower]
  omega

theorem upper_amoSum (h : mask.getLsbD 3 = false) :
    upper (amoSum a b mask) = upper a + upper b := by
  rw [amoSum, upper_append, h]
  simp [upper]

theorem amoSum_eq (h : mask.getLsbD 3 = true) : amoSum a b mask = a + b := by
  have ha := a.isLt
  have hb := b.isLt
  apply BitVec.eq_of_toNat_eq
  rw [amoSum, toNat_append_add, carry_iff, h]
  simp only [Bool.true_and, decide_eq_true_eq, BitVec.extractLsb'_toNat, BitVec.toNat_add,
    BitVec.toNat_setWidth, Nat.shiftRight_eq_div_pow]
  split_ifs with hc <;> simp <;> omega

theorem lower_amoDifference : lower (amoDifference a b mask) = lower a - lower b := by
  apply BitVec.eq_of_toNat_eq
  rw [amoDifference, lower_append]
  simp only [BitVec.extractLsb'_toNat, BitVec.toNat_add, BitVec.toNat_setWidth, lower,
    BitVec.toNat_not, BitVec.toNat_sub]
  simp
  omega

theorem upper_amoDifference (h : mask.getLsbD 3 = false) :
    upper (amoDifference a b mask) = upper a - upper b := by
  rw [amoDifference, upper_append, h, BitVec.sub_eq_add_neg, BitVec.neg_eq_not_add,
    ← BitVec.add_assoc]
  rfl

theorem amoDifference_eq (h : mask.getLsbD 3 = true) : amoDifference a b mask = a - b := by
  have ha := a.isLt
  have hb := b.isLt
  apply BitVec.eq_of_toNat_eq
  rw [amoDifference, toNat_append_add, carry_iff, h]
  simp only [Bool.not_true, Bool.false_or, decide_eq_true_eq, BitVec.extractLsb'_toNat,
    BitVec.toNat_add, BitVec.toNat_sub, BitVec.toNat_not, BitVec.toNat_setWidth,
    Nat.shiftRight_eq_div_pow, show (1 : BitVec 33).toNat = 1 by rfl]
  split_ifs with hc <;> simp <;> omega

end Sum

/-- The sign of the difference of two numbers with the same sign. -/
theorem msb_sub {w : ℕ} {x y : BitVec w} (h : x.msb = y.msb) : (x - y).msb = x.ult y := by
  cases w with
  | zero => simp [BitVec.of_length_zero]
  | succ n =>
      have hx := x.isLt
      have hy := y.isLt
      have hpow : 2 ^ (n + 1) = 2 * 2 ^ n := by rw [Nat.pow_succ, Nat.mul_comm]
      simp only [BitVec.msb_eq_decide, decide_eq_decide, Nat.add_sub_cancel] at h
      rw [BitVec.msb_eq_decide, BitVec.ult, decide_eq_decide, BitVec.toNat_sub, Nat.add_sub_cancel]
      rw [hpow] at hx hy ⊢
      by_cases hlt : x.toNat < y.toNat
      · rw [Nat.mod_eq_of_lt (by omega)]
        omega
      · have hsub : 2 * 2 ^ n - y.toNat + x.toNat = x.toNat - y.toNat + 2 * 2 ^ n := by omega
        rw [hsub, Nat.add_mod_right, Nat.mod_eq_of_lt (by omega)]
        omega

/-- Comparison by the sign of the difference, or by the signs where they differ. -/
theorem lt_of_signs {w : ℕ} (x y : BitVec w) (isUnsigned : Bool) :
    (if x.msb == y.msb then (x - y).msb else if isUnsigned then y.msb else x.msb) =
      if isUnsigned then x.ult y else x.slt y := by
  by_cases h : x.msb = y.msb
  · rw [if_pos (by simpa using h), msb_sub h, BitVec.slt_eq_ult_of_msb_eq h, ite_self]
  · rw [if_neg (by simpa using h), BitVec.slt_eq_not_ult_of_msb_neq h,
      BitVec.ult_eq_msb_of_msb_neq h]
    have hx : x.msb = !y.msb := by
      revert h
      cases x.msb <;> cases y.msb <;> decide
    rw [hx]

section Lt
variable {a b : BitVec 64} {mask : BitVec 8} {amo : BitVec 7}

theorem msb_lower (x : BitVec 64) : (lower x).msb = x.getLsbD 31 := by
  simp [lower, BitVec.msb_eq_getLsbD_last]

theorem msb_upper (x : BitVec 64) : (upper x).msb = x.getLsbD 63 := by
  simp [upper, BitVec.msb_eq_getLsbD_last]

/-- The word in the lower half is compared. -/
theorem amoLt_lower (h : mask.getLsbD 7 = false) : amoLt a b mask amo =
    if amo.getLsbD 5 then (lower a).ult (lower b) else (lower a).slt (lower b) := by
  rw [← lt_of_signs, ← lower_amoDifference a b mask]
  simp only [msb_lower, amoLt, h, Bool.false_eq_true, if_false]

theorem amoLt_upper (h : mask.getLsbD 7 = true) (h3 : mask.getLsbD 3 = false) :
    amoLt a b mask amo =
      if amo.getLsbD 5 then (upper a).ult (upper b) else (upper a).slt (upper b) := by
  rw [← lt_of_signs, ← upper_amoDifference a b mask h3]
  simp only [msb_upper, amoLt, h, if_true]

/-- The double words are compared. -/
theorem amoLt_eq (h : mask.getLsbD 7 = true) (h3 : mask.getLsbD 3 = true) :
    amoLt a b mask amo = if amo.getLsbD 5 then a.ult b else a.slt b := by
  rw [← lt_of_signs, ← amoDifference_eq a b mask h3]
  simp only [BitVec.msb_eq_getLsbD_last, amoLt, h, if_true]

end Lt

/-! ## The results -/

/-- The request codes of an atomic operation: `funct5` with the ordering bits. -/
def AmoCode (o : AmoOp) (amo : BitVec 7) : Prop := amo.extractLsb' 2 5 = o.funct5

instance (o : AmoOp) (amo : BitVec 7) : Decidable (AmoCode o amo) :=
  inferInstanceAs (Decidable (_ = _))

theorem getLsbD_of_amoCode {o : AmoOp} {amo : BitVec 7} (h : AmoCode o amo) :
    amo.getLsbD 5 = o.funct5.getLsbD 3 := by
  rw [← h]
  simp

/-- The addressed bytes of the result, where the parts of `do_amo_op` act on the addressed
bytes alone. -/
theorem extract_doAmoOp {a b : BitVec 64} {mask : BitVec 8} {amo : BitVec 7} {o : AmoOp}
    {s w : ℕ} (hc : AmoCode o amo) (ho : o ≠ .sc)
    (hsum : (amoSum a b mask).extractLsb' s w = a.extractLsb' s w + b.extractLsb' s w)
    (hlt : amoLt a b mask amo = if amo.getLsbD 5 then (a.extractLsb' s w).ult (b.extractLsb' s w)
      else (a.extractLsb' s w).slt (b.extractLsb' s w)) :
    (doAmoOp a b mask amo).extractLsb' s w = o.eval (a.extractLsb' s w) (b.extractLsb' s w) := by
  have h5 := getLsbD_of_amoCode hc
  rw [AmoCode] at hc
  rw [h5] at hlt
  cases o
  case sc => exact absurd rfl ho
  case swap => simp [doAmoOp, hc, AmoOp.funct5, AmoOp.eval]
  case add => simpa [doAmoOp, hc, AmoOp.funct5, AmoOp.eval] using hsum
  case xor => simp [doAmoOp, hc, AmoOp.funct5, AmoOp.eval, BitVec.extractLsb'_xor]
  case and => simp [doAmoOp, hc, AmoOp.funct5, AmoOp.eval, BitVec.extractLsb'_and]
  case or => simp [doAmoOp, hc, AmoOp.funct5, AmoOp.eval, BitVec.extractLsb'_or]
  case min | max | minu | maxu =>
    simp only [AmoOp.funct5] at hlt
    simp [doAmoOp, hc, hlt, AmoOp.funct5, AmoOp.eval, apply_ite (BitVec.extractLsb' s w)]

section Access
variable {addr : ℕ} {size : Fin 4}

/-- The addressed bytes of the result of an atomic operation. -/
theorem addressed_doAmoOp {a b : BitVec 64} {amo : BitVec 7} {o : AmoOp} (hc : AmoCode o amo)
    (ho : o ≠ .sc) (h : isAligned addr size = true) (hs : size = 2 ∨ size = 3) :
    addressed (doAmoOp a b (alignStrb addr size) amo) addr size =
      o.eval (addressed a addr size) (addressed b addr size) := by
  have hoff := offset_aligned h
  have hmask : ∀ j < 8, (alignStrb addr size).getLsbD j =
      decide (addr % 8 ≤ j ∧ j < addr % 8 + 2 ^ (size : ℕ)) := fun j => getLsbD_alignStrb h
  have h3 := hmask 3 (by decide)
  have h7 := hmask 7 (by decide)
  unfold addressed bitOffset
  generalize alignStrb addr size = mask at h3 h7 ⊢
  rcases hs with rfl | rfl
  · have hk : addr % 8 = 0 ∨ addr % 8 = 4 := by
      have hoff' : addr % 8 % 4 = 0 := hoff
      omega
    rcases hk with hk | hk
    · rw [hk] at h7 ⊢
      exact extract_doAmoOp hc ho (lower_amoSum a b mask) (amoLt_lower h7)
    · rw [hk] at h3 h7 ⊢
      exact extract_doAmoOp hc ho (upper_amoSum a b mask h3) (amoLt_upper h7 h3)
  · have hk : addr % 8 = 0 := by
      have hoff' : addr % 8 % 8 = 0 := hoff
      omega
    rw [hk] at h3 h7 ⊢
    have hself : ∀ x : BitVec 64, x.extractLsb' 0 64 = x := fun x => BitVec.extractLsb'_eq_self
    refine extract_doAmoOp (w := 64) hc ho ?_ ?_
    · rw [amoSum_eq a b mask h3]
      exact (hself _).trans (congrArg₂ (· + ·) (hself a) (hself b)).symm
    · rw [amoLt_eq h7 h3]
      change _ = if amo.getLsbD 5 then (a.extractLsb' 0 64).ult (b.extractLsb' 0 64)
        else (a.extractLsb' 0 64).slt (b.extractLsb' 0 64)
      rw [hself, hself]

/-- A plain store takes the path of `AMOSWAP`. -/
theorem doAmoOp_swap (a b : BitVec 64) (mask : BitVec 8) : doAmoOp a b mask 0b0000100 = b := rfl

/-- The word that an aligned access writes is the old word with the addressed bytes
replaced by the result of the operation, whatever the undriven bits `x` of the placed
operand are; the value returned is the extension of the old bytes. -/
theorem access_words (old value x : BitVec 64) (h : isAligned addr size = true) :
    alignStore value addr = alignStoreWith 0 value addr ∧
    (∀ o amo, AmoCode o amo → o ≠ .sc → size = 2 ∨ size = 3 →
      combineWord old (doAmoOp old (alignStoreWith x value addr) (alignStrb addr size) amo)
        (alignStrb addr size) =
        setWindow old (bitOffset addr)
          (o.eval (addressed old addr size) (value.extractLsb' 0 (accessWidth size)))) ∧
    combineWord old (doAmoOp old (alignStoreWith x value addr) (alignStrb addr size) 0b0000100)
      (alignStrb addr size) =
      setWindow old (bitOffset addr) (value.extractLsb' 0 (accessWidth size)) ∧
    alignLoad old addr size .zero = (addressed old addr size).setWidth 64 ∧
    alignLoad old addr size .signed = (addressed old addr size).signExtend 64 := by
  refine ⟨alignStore_eq value addr, ?_, ?_, alignLoad_eq old .zero h, alignLoad_eq old .signed h⟩
  · intro o amo hc ho hs
    rw [combineWord_alignStrb _ _ h, addressed_doAmoOp hc ho h hs,
      addressed_alignStoreWith x value h]
  · rw [combineWord_alignStrb _ _ h, doAmoOp_swap, addressed_alignStoreWith x value h]

/-- The upper word of a double word, with an `AMOADD` that carries out of it. -/
theorem access_words_upper :
    isAligned 4 2 = true ∧ AmoCode .add 0 ∧
      combineWord 0xFFFFFFFF_FFFFFFFF (doAmoOp 0xFFFFFFFF_FFFFFFFF
        (alignStoreWith 0x1234 2 4) (alignStrb 4 2) 0) (alignStrb 4 2) = 0x00000001_FFFFFFFF := by
  refine ⟨by decide, by decide, ?_⟩
  have hwords := @access_words 4 2 0xFFFFFFFF_FFFFFFFF 2 0x1234 (by decide)
  have hword := hwords.2.1 .add 0 (by decide) (by decide) (.inl rfl)
  rw [hword]
  decide

end Access

end Muntjac.Core

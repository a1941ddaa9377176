import Muntjac.Sync.Gray
import Muntjac.Sync.Numerals
import Muntjac.Sync.Ring

/-!
# The pointers of an asynchronous FIFO

`prim_fifo_async` with `Depth = 2 ** k` has pointers of `k + 1` bits, and sends them to the other
clock domain in the code of `dec2gray`, which counts up from 0 to `Depth - 1`, then flips the top
bit and counts down.  For these depths it is the reflected Gray code, and `gray2dec` inverts it.

## Main definitions

* `grayPtr`, `decPtr` — the conversions that the parameter `Depth` selects.
* `ptr k n` — the pointer after `n` increments.
* `depthCalc` — the number of items between two pointers.

## Main results

* `grayPtr_eq`, `decPtr_gray` — the code is the Gray code, and it is inverted.
* `ptr_eq_xorMask` — what the comparison with the top bit flipped means.
* `depthCalc_ptr` — the number of items is the difference of the counts.
-/

namespace Muntjac.Sync

variable {k : ℕ}

/-! ## Conversions -/

/-- `dec2gray`, for `Depth > 2`. -/
def dec2gray (decval : BitVec (k + 1)) : BitVec (k + 1) :=
  let decvalSub := BitVec.ofNat (k + 1) (2 ^ k) - (decval.setWidth k).setWidth (k + 1) - 1#(k + 1)
  let decvalIn := ((bif decval.msb then decvalSub else decval).setWidth k).setWidth (k + 1)
  BitVec.cons decval.msb ((decvalIn ^^^ (decvalIn >>> 1)).setWidth k)

/-- The word `x` with the bit `i` replaced by `b`. -/
def setBit {w : ℕ} (x : BitVec w) (i : ℕ) (b : Bool) : BitVec w :=
  (x &&& ~~~BitVec.twoPow w i) ||| (bif b then BitVec.twoPow w i else 0#w)

/-- The loop of `gray2dec` over the bits below `n`, from the top down. -/
def grayLoop (grayval : BitVec (k + 1)) : ℕ → BitVec (k + 1) → BitVec (k + 1)
  | 0, decTmp => decTmp
  | i + 1, decTmp =>
      grayLoop grayval i (setBit decTmp i (decTmp.getLsbD (i + 1) ^^ grayval.getLsbD i))

/-- `gray2dec`, for `Depth > 2`. -/
def gray2dec (grayval : BitVec (k + 1)) : BitVec (k + 1) :=
  let decTmp := grayLoop grayval k 0#(k + 1)
  let decTmpSub := BitVec.ofNat (k + 1) (2 ^ k) - decTmp - 1#(k + 1)
  bif grayval.msb then BitVec.cons true (decTmpSub.setWidth k) else decTmp

/-- The reduction `^x`. -/
def xorReduce {w : ℕ} (x : BitVec w) : Bool :=
  (List.range w).foldl (fun p i => p ^^ x.getLsbD i) false

/-- `{x[PTR_WIDTH-1], ^x}`, the conversion in both directions for `Depth == 2`. -/
def simpleGray (x : BitVec (k + 1)) : BitVec (k + 1) :=
  (BitVec.ofBool x.msb ++ BitVec.ofBool (xorReduce x)).setWidth (k + 1)

/-- The code of a pointer, for `Depth = 2 ** k`. -/
def grayPtr (x : BitVec (k + 1)) : BitVec (k + 1) :=
  if 1 < k then dec2gray x else if k = 1 then simpleGray x else x

/-- The pointer with a given code. -/
def decPtr (x : BitVec (k + 1)) : BitVec (k + 1) :=
  if 1 < k then gray2dec x else if k = 1 then simpleGray x else x

theorem getLsbD_setBit {w : ℕ} (x : BitVec w) {i : ℕ} (hi : i < w) (b : Bool) (j : ℕ) :
    (setBit x i b).getLsbD j = if j = i then b else x.getLsbD j := by
  by_cases hj : j = i
  · subst hj
    cases b <;> simp [setBit, hi]
  · have hne : i ≠ j := Ne.symm hj
    cases b <;> simp [setBit, hj, hne] <;> intro h <;> exact BitVec.lt_of_getLsbD h

/-- The complement of the low bits, as both functions compute it. -/
theorem depth_sub_sub_one (x : BitVec k) :
    (BitVec.ofNat (k + 1) (2 ^ k) - x.setWidth (k + 1) - 1#(k + 1)).setWidth k = ~~~x := by
  apply BitVec.eq_of_toNat_eq
  have hx := x.isLt
  have hk : 2 ^ (k + 1) = 2 * 2 ^ k := by rw [Nat.pow_succ, Nat.mul_comm]
  have hone : 1 < 2 ^ (k + 1) := Nat.one_lt_two_pow (Nat.succ_ne_zero k)
  simp only [BitVec.toNat_setWidth, BitVec.toNat_sub, BitVec.toNat_ofNat, BitVec.toNat_not]
  have hdepth : 2 ^ k % 2 ^ (k + 1) = 2 ^ k := Nat.mod_eq_of_lt (by omega)
  have hlow : x.toNat % 2 ^ (k + 1) = x.toNat := Nat.mod_eq_of_lt (by omega)
  rw [hdepth, hlow, Nat.mod_eq_of_lt hone]
  -- the difference is taken modulo `2 * Depth`, and its low bits do not borrow
  have hdiff : (2 ^ (k + 1) - 1 + (2 ^ (k + 1) - x.toNat + 2 ^ k) % 2 ^ (k + 1)) % 2 ^ (k + 1) =
      2 ^ k - 1 - x.toNat := by
    have hfirst : (2 ^ (k + 1) - x.toNat + 2 ^ k) % 2 ^ (k + 1) = 2 ^ k - x.toNat := by
      have hsplit : 2 ^ (k + 1) - x.toNat + 2 ^ k = 2 ^ k - x.toNat + 2 ^ (k + 1) := by omega
      rw [hsplit, Nat.add_mod_right, Nat.mod_eq_of_lt (by omega)]
    have hsplit : 2 ^ (k + 1) - 1 + (2 ^ k - x.toNat) = 2 ^ k - 1 - x.toNat + 2 ^ (k + 1) := by
      omega
    rw [hfirst, hsplit, Nat.add_mod_right, Nat.mod_eq_of_lt (by omega)]
  rw [hdiff, Nat.mod_eq_of_lt (by omega)]

/-- `dec2gray` is the Gray code. -/
theorem dec2gray_eq (x : BitVec (k + 1)) : dec2gray x = gray x := by
  have hin : (bif x.msb then BitVec.ofNat (k + 1) (2 ^ k) - (x.setWidth k).setWidth (k + 1) -
      1#(k + 1) else x).setWidth k = bif x.msb then ~~~(x.setWidth k) else x.setWidth k := by
    cases x.msb
    · rfl
    · exact depth_sub_sub_one _
  apply BitVec.eq_of_getLsbD_eq
  intro i hi
  simp only [dec2gray, hin]
  rw [BitVec.getLsbD_cons, getLsbD_gray]
  have hmsb : x.msb = x.getLsbD k := by rw [BitVec.msb_eq_getLsbD_last, Nat.add_sub_cancel]
  by_cases hik : i = k
  · rw [if_pos hik, hik, hmsb, BitVec.getLsbD_of_ge x (k + 1) (by omega), Bool.xor_false]
  · rw [if_neg hik]
    have hlt : i < k := by omega
    simp only [BitVec.getLsbD_setWidth, BitVec.getLsbD_xor, BitVec.getLsbD_ushiftRight, hlt,
      hi, decide_true, Bool.true_and, Nat.add_comm 1 i]
    have hnext : decide (i + 1 < k + 1) = true := decide_eq_true (by omega)
    rw [hnext, Bool.true_and]
    by_cases htop : i + 1 = k
    · -- the top bit has been masked out
      have hout : ∀ y : BitVec k, y.getLsbD (i + 1) = false :=
        fun y => BitVec.getLsbD_of_ge y _ (by omega)
      rw [hout, htop, ← hmsb]
      cases x.msb <;> simp [hlt]
    · have hlt' : i + 1 < k := by omega
      cases x.msb <;> simp [hlt, hlt']

/-- The loop leaves the bits that it does not reach, and the others are sums of bits above. -/
theorem getLsbD_grayLoop (x : BitVec (k + 1)) (n : ℕ) (hn : n ≤ k) (t : BitVec (k + 1))
    (ht : ∀ i, n ≤ i → i < k → t.getLsbD i = (x.getLsbD i ^^ x.getLsbD k))
    (htop : t.getLsbD k = false) :
    (∀ i < k, (grayLoop (gray x) n t).getLsbD i = (x.getLsbD i ^^ x.getLsbD k)) ∧
      (grayLoop (gray x) n t).getLsbD k = false := by
  induction n generalizing t with
  | zero => exact ⟨fun i hi => ht i (Nat.zero_le i) hi, htop⟩
  | succ n ih =>
      have hset := getLsbD_setBit t (Nat.lt_succ_of_lt (Nat.lt_of_succ_le hn))
        (t.getLsbD (n + 1) ^^ (gray x).getLsbD n)
      have habove : t.getLsbD (n + 1) = (x.getLsbD (n + 1) ^^ x.getLsbD k) := by
        by_cases hk : n + 1 = k
        · rw [hk, htop, Bool.xor_self]
        · exact ht (n + 1) (Nat.le_refl _) (by omega)
      refine ih (by omega) _ (fun j hj hjk => ?_) ?_
      · rw [hset]
        by_cases hjn : j = n
        · rw [if_pos hjn, hjn, habove, getLsbD_gray]
          cases x.getLsbD n <;> cases x.getLsbD (n + 1) <;> cases x.getLsbD k <;> rfl
        · rw [if_neg hjn]
          exact ht j (by omega) hjk
      · rw [hset, if_neg (by omega)]
        exact htop

/-- `gray2dec` inverts the Gray code. -/
theorem gray2dec_gray (x : BitVec (k + 1)) : gray2dec (gray x) = x := by
  have hmsb : x.msb = x.getLsbD k := by rw [BitVec.msb_eq_getLsbD_last, Nat.add_sub_cancel]
  have hgray : (gray x).msb = x.getLsbD k := by
    rw [BitVec.msb_eq_getLsbD_last, Nat.add_sub_cancel, getLsbD_gray,
      BitVec.getLsbD_of_ge x (k + 1) (by omega), Bool.xor_false]
  obtain ⟨hbits, htop⟩ := getLsbD_grayLoop x k (Nat.le_refl k) 0#(k + 1)
    (fun i hi hik => absurd hik (by omega)) BitVec.getLsbD_zero
  rw [gray2dec, hgray]
  cases hx : x.getLsbD k with
  | false =>
      apply BitVec.eq_of_getLsbD_eq
      intro i hi
      rw [cond_false]
      by_cases hik : i < k
      · rw [hbits i hik, hx, Bool.xor_false]
      · have hi' : i = k := by omega
        rw [hi', htop, hx]
  | true =>
      -- the top bit of the loop is clear, so that the subtraction complements the bits below
      have hwide : grayLoop (gray x) k 0#(k + 1) =
          ((grayLoop (gray x) k 0#(k + 1)).setWidth k).setWidth (k + 1) := by
        apply BitVec.eq_of_getLsbD_eq
        intro i hi
        rw [BitVec.getLsbD_setWidth, BitVec.getLsbD_setWidth, decide_eq_true hi, Bool.true_and]
        by_cases hik : i < k
        · rw [decide_eq_true hik, Bool.true_and]
        · have hi' : i = k := by omega
          rw [hi', htop, Bool.and_false]
      have hlow : ~~~((grayLoop (gray x) k 0#(k + 1)).setWidth k) = x.setWidth k := by
        apply BitVec.eq_of_getLsbD_eq
        intro i hi
        rw [BitVec.getLsbD_not, BitVec.getLsbD_setWidth, BitVec.getLsbD_setWidth, hbits i hi, hx,
          decide_eq_true hi, Bool.true_and, Bool.true_and, Bool.true_and, Bool.xor_true,
          Bool.not_not]
      rw [cond_true, hwide, depth_sub_sub_one, hlow]
      calc BitVec.cons true (x.setWidth k) = BitVec.cons x.msb (x.setWidth k) := by rw [hmsb, hx]
        _ = x := BitVec.cons_msb_setWidth x

/-- For `Depth == 2` there is one bit below the top bit. -/
theorem simpleGray_eq (x : BitVec (1 + 1)) : simpleGray x = gray x := by
  revert x
  decide

/-- The code of a pointer is its Gray code, whichever conversion `Depth` selects. -/
theorem grayPtr_eq (x : BitVec (k + 1)) : grayPtr x = gray x := by
  rw [grayPtr]
  split
  · exact dec2gray_eq x
  · split
    · subst k
      exact simpleGray_eq x
    · have hk : k = 0 := by omega
      subst hk
      revert x
      decide

theorem decPtr_gray (x : BitVec (k + 1)) : decPtr (gray x) = x := by
  rw [decPtr]
  split
  · exact gray2dec_gray x
  · split
    · subst k
      revert x
      decide
    · have hk : k = 0 := by omega
      subst hk
      revert x
      decide

/-! ## Counts -/

/-- The pointer after `n` increments. -/
def ptr (k n : ℕ) : BitVec (k + 1) := BitVec.ofNat (k + 1) n

/-- `1 << (PTR_WIDTH - 1)`. -/
def xorMask (k : ℕ) : BitVec (k + 1) := 1#(k + 1) <<< k

theorem two_pow_succ (k : ℕ) : 2 ^ (k + 1) = 2 ^ k + 2 ^ k := by rw [Nat.pow_succ]; omega

theorem ptr_add_one (k n : ℕ) : ptr k n + 1#(k + 1) = ptr k (n + 1) := BitVec.ofNat_add n 1 |>.symm

/-- Pointers tell counts apart that differ by less than twice the depth. -/
theorem ptr_inj {a b : ℕ} (hab : a ≤ b) (hb : b < a + 2 ^ (k + 1)) : ptr k a = ptr k b ↔ a = b := by
  constructor
  · intro h
    have hmod : a % 2 ^ (k + 1) = b % 2 ^ (k + 1) := congrArg BitVec.toNat h
    exact Ring.eq_of_slot_eq (Nat.le_refl a) (Nat.lt_add_of_pos_right (Nat.two_pow_pos _)) hab hb
      hmod
  · exact fun h => h ▸ rfl

theorem ptr_xorMask (n : ℕ) : ptr k n ^^^ xorMask k = ptr k (n + 2 ^ k) := by
  apply BitVec.eq_of_getLsbD_eq
  intro i hi
  rw [BitVec.getLsbD_xor, ptr, ptr, xorMask, BitVec.getLsbD_ofNat, BitVec.getLsbD_ofNat,
    decide_eq_true hi, Bool.true_and, Bool.true_and, Nat.add_comm n, BitVec.getLsbD_shiftLeft,
    decide_eq_true hi, Bool.true_and]
  by_cases hik : i = k
  · subst hik
    rw [Nat.testBit_two_pow_add_eq]
    simp
  · have hlt : i < k := by omega
    rw [Nat.testBit_two_pow_add_gt hlt]
    simp [hlt]

/-- The comparison with the top bit flipped: the pointers are a whole depth apart. -/
theorem ptr_eq_xorMask {a b : ℕ} (hab : a ≤ b) (hb : b ≤ a + 2 ^ k) :
    ptr k b = ptr k a ^^^ xorMask k ↔ b = a + 2 ^ k := by
  have hpow := two_pow_succ k
  have hpos : 0 < 2 ^ k := Nat.two_pow_pos k
  rw [ptr_xorMask]
  exact ptr_inj hb (by omega)

/-- The number of items between the pointers `w` and `r`, as both sides compute it. -/
def depthCalc (full : Bool) (w r : BitVec (k + 1)) : BitVec (k + 1) :=
  let wValue := (w.setWidth k).setWidth (k + 1)
  let rValue := (r.setWidth k).setWidth (k + 1)
  if 0 < k then
    if full then BitVec.ofNat (k + 1) (2 ^ k)
    else if w.msb = r.msb then wValue - rValue
    else BitVec.ofNat (k + 1) (2 ^ k) - rValue + wValue
  else BitVec.setWidth (k + 1) (BitVec.ofBool full)

theorem toNat_ptr_low (n : ℕ) :
    (((ptr k n).setWidth k).setWidth (k + 1)).toNat = n % 2 ^ k := by
  have hlt : n % 2 ^ k < 2 ^ (k + 1) := by
    have := Nat.mod_lt n (Nat.two_pow_pos k)
    have := two_pow_succ k
    omega
  rw [ptr, BitVec.setWidth_ofNat_of_le (Nat.le_succ k), BitVec.toNat_setWidth, BitVec.toNat_ofNat,
    Nat.mod_eq_of_lt hlt]

theorem msb_ptr (n : ℕ) : (ptr k n).msb = decide (n / 2 ^ k % 2 = 1) := by
  rw [BitVec.msb_eq_getLsbD_last, Nat.add_sub_cancel, ptr, BitVec.getLsbD_ofNat,
    decide_eq_true (Nat.lt_succ_self k), Bool.true_and, Nat.testBit_eq_decide_div_mod_eq]

/-- The number of items is the difference of the counts, on the side of the writer and on that of
the reader. -/
theorem depthCalc_ptr {a b : ℕ} (hab : a ≤ b) (hb : b ≤ a + 2 ^ k) :
    (depthCalc (decide (ptr k b = ptr k a ^^^ xorMask k)) (ptr k b) (ptr k a)).toNat = b - a := by
  have hpow := two_pow_succ k
  have hpos : 0 < 2 ^ k := Nat.two_pow_pos k
  have hfull : decide (ptr k b = ptr k a ^^^ xorMask k) = decide (b = a + 2 ^ k) :=
    decide_eq_decide.mpr (ptr_eq_xorMask hab hb)
  rw [depthCalc, hfull]
  by_cases hk : 0 < k
  · rw [if_pos hk]
    by_cases hf : b = a + 2 ^ k
    · rw [if_pos (decide_eq_true hf), BitVec.toNat_ofNat, Nat.mod_eq_of_lt (by omega)]
      omega
    · rw [if_neg (by simpa using hf)]
      have hra := Nat.mod_lt a hpos
      have hrb := Nat.mod_lt b hpos
      rcases Ring.sub_cases hpos hab (by omega) with ⟨hq, hle, hsub⟩ | ⟨hq, hsub⟩
      · have hmsb : (ptr k b).msb = (ptr k a).msb := by rw [msb_ptr, msb_ptr, hq]
        have hsum : 2 ^ (k + 1) - a % 2 ^ k + b % 2 ^ k =
            b % 2 ^ k - a % 2 ^ k + 2 ^ (k + 1) := by omega
        rw [if_pos hmsb, BitVec.toNat_sub, toNat_ptr_low, toNat_ptr_low, hsum, Nat.add_mod_right,
          Nat.mod_eq_of_lt (by omega), hsub]
      · have hmsb : ¬(ptr k b).msb = (ptr k a).msb := by
          rw [msb_ptr, msb_ptr, hq, decide_eq_decide]
          omega
        have hsum : 2 ^ (k + 1) - a % 2 ^ k + 2 ^ k = 2 ^ k - a % 2 ^ k + 2 ^ (k + 1) := by omega
        rw [if_neg hmsb, BitVec.toNat_add, BitVec.toNat_sub, toNat_ptr_low, toNat_ptr_low,
          BitVec.toNat_ofNat, Nat.mod_eq_of_lt (a := 2 ^ k) (by omega), hsum, Nat.add_mod_right,
          Nat.mod_eq_of_lt (a := 2 ^ k - a % 2 ^ k) (by omega), hsub, Nat.mod_eq_of_lt (by omega)]
  · have hk0 : k = 0 := by omega
    subst hk0
    rw [if_neg hk, Nat.pow_zero]
    by_cases hf : b = a + 1
    · subst hf
      simp
    · have heq : b = a := by
        rw [Nat.pow_zero] at hb
        omega
      subst heq
      simp

end Muntjac.Sync

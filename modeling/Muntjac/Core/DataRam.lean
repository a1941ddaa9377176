import Mathlib.Data.Nat.Bitwise
import Mathlib.Tactic.Common

/-!
# The interleaved data RAM

The data array of both level-one caches is one RAM per way.  A narrow access reads
one word of every way at once; a wide access transfers `NumInterleave` consecutive
words of one way.  To serve the second kind in one cycle the words of a way are
spread over the RAMs: word `a` of way `w` is in RAM `w ^ a` (in the low bits).

The instruction cache has no narrow writes; otherwise the two caches differ only in
the word width, which the model does not fix.
-/

namespace Muntjac.Core

/-- RAM contents and the registers around them.  `rdata` is
`data_read_data_interleave`. -/
structure DataRam where
  banks : ℕ → ℕ → ℕ
  rdata : ℕ → ℕ
  readAddrLatch : ℕ
  wayLatch : ℕ

/-- The request that wins the data port in a cycle. -/
structure DataReq where
  write : Bool
  addr : ℕ
  way : ℕ
  wide : Bool
  wdata : ℕ → ℕ

namespace DataRam

/-- `x &~ InterleaveMask`. -/
def high (mask x : ℕ) : ℕ := x ^^^ (x &&& mask)

/-- `data_addr`, after the permutation that a wide access applies. -/
def dataAddr (mask : ℕ) (r : DataReq) : ℕ :=
  if r.wide then r.addr ^^^ (r.way &&& mask) else r.addr

/-- `data_addr_effective` of RAM `i`. -/
def effective (mask : ℕ) (r : DataReq) (i : ℕ) : ℕ :=
  dataAddr mask r ^^^ (if r.wide then i &&& mask else 0)

/-- `data_write_ways_interleave`. -/
def writeWays (mask : ℕ) (r : DataReq) (i : ℕ) : Bool :=
  high mask r.way == high mask i &&
    (r.wide || r.way &&& mask == (i ^^^ dataAddr mask r) &&& mask)

/-- `data_write_data_interleave` at the index that RAM `i` uses. -/
def writeData (mask : ℕ) (r : DataReq) (i : ℕ) : ℕ :=
  r.wdata ((i &&& mask) ^^^ (dataAddr mask r &&& mask))

/-- One cycle.  A RAM that is not written in a write cycle performs a read; the read
latches move only in read cycles. -/
def step (mask : ℕ) (s : DataRam) : Option DataReq → DataRam
  | none => s
  | some r =>
    { banks := fun i a =>
        if r.write && writeWays mask r i && a == effective mask r i then writeData mask r i
        else s.banks i a
      rdata := fun i =>
        if r.write && writeWays mask r i then s.rdata i else s.banks i (effective mask r i)
      readAddrLatch := if r.write then s.readAddrLatch else dataAddr mask r
      wayLatch := if r.write then s.wayLatch else r.way }

/-- `data_read_data`: the word of way `i` that the last read returned. -/
def readData (mask : ℕ) (s : DataRam) (i : ℕ) : ℕ := s.rdata (i ^^^ (s.readAddrLatch &&& mask))

/-- Lane `j` of `data_read_data_wide`. -/
def readDataWide (mask : ℕ) (s : DataRam) (j : ℕ) : ℕ :=
  readData mask s (high mask s.wayLatch ||| j)

/-! ## The words of a way -/

/-- Word `a` of way `w`. -/
def cell (mask : ℕ) (s : DataRam) (w a : ℕ) : ℕ := s.banks (w ^^^ (a &&& mask)) a

/-- A narrow read returns the addressed word of every way. -/
theorem readData_step_read {mask : ℕ} {s : DataRam} {r : DataReq} (hw : r.write = false)
    (hn : r.wide = false) (i : ℕ) :
    readData mask (s.step mask (some r)) i = s.cell mask i r.addr := by
  simp [readData, step, cell, hw, hn, dataAddr, effective]

theorem cell_step_read {mask : ℕ} {s : DataRam} {r : DataReq} (hw : r.write = false) (w a : ℕ) :
    (s.step mask (some r)).cell mask w a = s.cell mask w a := by
  simp [cell, step, hw]

section Mask
variable {mask x y : ℕ}

theorem and_and_mask (x mask : ℕ) : (x &&& mask) &&& mask = x &&& mask := by
  rw [Nat.and_assoc, Nat.and_self]

/-- The low bits do not matter to the high bits. -/
theorem high_xor_and (mask x y : ℕ) : high mask (x ^^^ (y &&& mask)) = high mask x := by
  rw [high, high, Nat.and_xor_distrib_right, and_and_mask]
  rw [Nat.xor_assoc, ← Nat.xor_assoc (y &&& mask), Nat.xor_comm (y &&& mask) (x &&& mask),
    Nat.xor_assoc (x &&& mask), Nat.xor_self, Nat.xor_zero]

/-- A number is its high bits and its low bits. -/
theorem high_xor_low (mask x : ℕ) : high mask x ^^^ (x &&& mask) = x := by
  rw [high, Nat.xor_assoc, Nat.xor_self, Nat.xor_zero]

theorem eq_of_high_of_low (hh : high mask x = high mask y) (hl : x &&& mask = y &&& mask) :
    x = y := by
  rw [← high_xor_low mask x, ← high_xor_low mask y, hh, hl]

theorem high_two_pow (k x : ℕ) : high (2 ^ k - 1) x = x / 2 ^ k * 2 ^ k := by
  apply Nat.eq_of_testBit_eq
  intro i
  rw [high, Nat.testBit_xor, Nat.testBit_and, Nat.testBit_two_pow_sub_one, Nat.testBit_mul_two_pow,
    Nat.testBit_div_two_pow]
  by_cases hi : i < k
  · have : ¬k ≤ i := by omega
    simp [hi, this]
  · have hk : k ≤ i := by omega
    simp [hi, hk]

end Mask

section Write
variable {mask : ℕ} {s : DataRam} {r : DataReq}

/-- The RAM that holds word `a` of way `w` is written exactly in the ways with the same
high bits as the way of the request. -/
theorem writeWays_wide (hn : r.wide = true) (w a : ℕ) :
    writeWays mask r (w ^^^ (a &&& mask)) = true ↔ high mask r.way = high mask w := by
  simp [writeWays, hn, high_xor_and]

/-- A group of words that is xored with a value of the low bits is left in place only if
the value is zero. -/
theorem low_eq_of_swap {x y z : ℕ} (h : y = z ^^^ (x ^^^ y)) : z = x := by
  have hz : z ^^^ y = x ^^^ y := by
    calc z ^^^ y = z ^^^ (z ^^^ (x ^^^ y)) := by rw [← h]
      _ = x ^^^ y := Nat.xor_xor_cancel_left ..
  calc z = z ^^^ y ^^^ y := (Nat.xor_xor_cancel_right ..).symm
    _ = x := by rw [hz, Nat.xor_xor_cancel_right]

/-- A wide write replaces an aligned group of words of one way. -/
theorem cell_step_wide (hw : r.write = true) (hn : r.wide = true) (ha : r.addr &&& mask = 0)
    (w a : ℕ) :
    (s.step mask (some r)).cell mask w a =
      if w = r.way ∧ high mask a = r.addr then r.wdata (a &&& mask) else s.cell mask w a := by
  have hidx : (w ^^^ (a &&& mask)) &&& mask = (w &&& mask) ^^^ (a &&& mask) := by
    rw [Nat.and_xor_distrib_right, and_and_mask]
  have heff : effective mask r (w ^^^ (a &&& mask)) =
      r.addr ^^^ ((r.way &&& mask) ^^^ ((w &&& mask) ^^^ (a &&& mask))) := by
    simp only [effective, dataAddr, hn, if_true, hidx, Nat.xor_assoc]
  have hdata : writeData mask r (w ^^^ (a &&& mask)) =
      r.wdata ((w &&& mask) ^^^ (a &&& mask) ^^^ (r.way &&& mask)) := by
    simp only [writeData, dataAddr, hn, if_true, hidx, Nat.and_xor_distrib_right, ha,
      Nat.zero_xor, and_and_mask]
  have hcond : writeWays mask r (w ^^^ (a &&& mask)) = true ∧
      a = effective mask r (w ^^^ (a &&& mask)) ↔ w = r.way ∧ high mask a = r.addr := by
    rw [writeWays_wide hn, heff]
    constructor
    · rintro ⟨hh, he⟩
      have hl : a &&& mask = (r.way &&& mask) ^^^ ((w &&& mask) ^^^ (a &&& mask)) := by
        have := congrArg (· &&& mask) he
        simpa only [Nat.and_xor_distrib_right, and_and_mask, ha, Nat.zero_xor] using this
      have hwl : w &&& mask = r.way &&& mask := (low_eq_of_swap hl).symm
      refine ⟨eq_of_high_of_low hh.symm hwl, ?_⟩
      rw [high]
      nth_rewrite 1 [he]
      rw [← hl, Nat.xor_xor_cancel_right]
    · rintro ⟨rfl, hhi⟩
      refine ⟨rfl, ?_⟩
      rw [Nat.xor_xor_cancel_left, ← hhi, high_xor_low]
  have hif : (r.write && writeWays mask r (w ^^^ (a &&& mask)) &&
      a == effective mask r (w ^^^ (a &&& mask))) = decide (w = r.way ∧ high mask a = r.addr) := by
    rw [hw, Bool.true_and, Bool.eq_iff_iff, decide_eq_true_iff, ← hcond, Bool.and_eq_true,
      beq_iff_eq]
  simp only [cell, step, hif, decide_eq_true_eq]
  refine if_ctx_congr Iff.rfl (fun hc => ?_) fun _ => rfl
  rw [hdata, hc.1, Nat.xor_comm (r.way &&& mask), Nat.xor_xor_cancel_right]

end Write
end DataRam

end Muntjac.Core

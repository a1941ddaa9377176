import Muntjac.Core.DataRam
import Muntjac.Sync.Run

/-!
# The data array of a cache

The interleaved RAMs of `DataRam` with the widths of the source: addresses have the bits of a
set and of a word in a line, the latched address only those of the word, and there are as many
RAMs as ways.  A plain array that is indexed by way, set and word says what the accesses are
for.

## Main definitions

* `DataArray.Geometry` — the widths; `dcache` and `icache` are those of the two caches.
* `DataArray.step`, `readData`, `readDataWide` — one cycle, and the outputs.
* `DataArray.plainStep` — the plain array.
* `DataArray.Refines` — the two agree in every run.

## Main results

* `DataArray.refines_of_le` — they agree when a beat is not longer than a line.
* `DataArray.interleaving` — both caches, for every width up to that of a line.
-/

namespace Muntjac.Core

namespace DataArray

open DataRam (dataAddr high cell)
open Sync (run)

/-- `2 ^ waysWidth` ways of `2 ^ setsWidth` lines of `2 ^ lineWidth` words, of which a beat
transfers `2 ^ interleaveWidth`. -/
structure Geometry where
  waysWidth : ℕ
  setsWidth : ℕ
  lineWidth : ℕ
  interleaveWidth : ℕ
  narrowWrites : Bool
  deriving DecidableEq, Repr

namespace Geometry

/-- `InterleaveMask`. -/
def mask (g : Geometry) : ℕ := 2 ^ g.interleaveWidth - 1

/-- The number of words of a way. -/
def depth (g : Geometry) : ℕ := 2 ^ (g.setsWidth + g.lineWidth)

/-- The data cache with `DataWidth = 64 * 2 ^ k`: words of 64 bits. -/
def dcache (waysWidth setsWidth k : ℕ) : Geometry := ⟨waysWidth, setsWidth, 3, k, true⟩

/-- The instruction cache with `DataWidth = 32 * 2 ^ k`: words of 32 bits. -/
def icache (waysWidth setsWidth k : ℕ) : Geometry := ⟨waysWidth, setsWidth, 4, k, false⟩

end Geometry

variable (g : Geometry)

/-! ## The RAMs -/

/-- `data_addr`. -/
def addr (r : DataReq) : ℕ := dataAddr g.mask r % g.depth

/-- `data_addr_effective` of RAM `i`. -/
def effective (r : DataReq) (i : ℕ) : ℕ :=
  (addr g r ^^^ (if r.wide then i &&& g.mask else 0)) % g.depth

/-- `data_write_ways_interleave`; without narrow writes only the first part is there. -/
def writeWays (r : DataReq) (i : ℕ) : Bool :=
  high g.mask r.way == high g.mask i &&
    (!g.narrowWrites || r.wide || r.way &&& g.mask == (i ^^^ addr g r) &&& g.mask)

/-- `data_write_data_interleave` at the index that RAM `i` uses. -/
def writeData (r : DataReq) (i : ℕ) : ℕ :=
  r.wdata ((i &&& g.mask) ^^^ (addr g r &&& g.mask))

/-- One cycle; `data_read_addr_latch` has the bits of a word in a line. -/
def step (s : DataRam) : Option DataReq → DataRam
  | none => s
  | some r =>
    { banks := fun i a =>
        if r.write && writeWays g r i && a == effective g r i then writeData g r i
        else s.banks i a
      rdata := fun i =>
        if r.write && writeWays g r i then s.rdata i else s.banks i (effective g r i)
      readAddrLatch := if r.write then s.readAddrLatch else addr g r % 2 ^ g.lineWidth
      wayLatch := if r.write then s.wayLatch else r.way }

/-- The output of RAM `i`; there are as many RAMs as ways. -/
def bankData (s : DataRam) (i : ℕ) : ℕ := if i < 2 ^ g.waysWidth then s.rdata i else 0

/-- `data_read_data`. -/
def readData (s : DataRam) (i : ℕ) : ℕ := bankData g s (i ^^^ (s.readAddrLatch &&& g.mask))

/-- Lane `j` of `data_read_data_wide`. -/
def readDataWide (s : DataRam) (j : ℕ) : ℕ :=
  if (high g.mask s.wayLatch ||| j) < 2 ^ g.waysWidth then
    readData g s (high g.mask s.wayLatch ||| j)
  else 0

/-! ## The plain array -/

/-- An array indexed by way, set and word. -/
abbrev Plain := ℕ → ℕ → ℕ → ℕ

/-- The set of an address. -/
def setOf (a : ℕ) : ℕ := a / 2 ^ g.lineWidth

/-- The word of an address in its line. -/
def wordOf (a : ℕ) : ℕ := a % 2 ^ g.lineWidth

/-- A wide write replaces the words of a beat, a narrow write one word. -/
def plainStep (m : Plain) : Option DataReq → Plain
  | none => m
  | some r => fun way set word =>
    if r.write = true ∧ way = r.way ∧ set = setOf g r.addr ∧
        (if r.wide then word / 2 ^ g.interleaveWidth * 2 ^ g.interleaveWidth else word) =
          wordOf g r.addr then
      r.wdata (if r.wide then word % 2 ^ g.interleaveWidth else 0)
    else m way set word

theorem plainStep_some (m : Plain) (r : DataReq) (way set word : ℕ) :
    plainStep g m (some r) way set word =
      if r.write = true ∧ way = r.way ∧ set = setOf g r.addr ∧
          (if r.wide then word / 2 ^ g.interleaveWidth * 2 ^ g.interleaveWidth else word) =
            wordOf g r.addr then
        r.wdata (if r.wide then word % 2 ^ g.interleaveWidth else 0)
      else m way set word := rfl

/-- The words of the RAMs in the order of the plain array. -/
def contents (s : DataRam) : Plain := fun way set word =>
  cell g.mask s way (set * 2 ^ g.lineWidth + word)

/-- What the users of the port keep to: beats are aligned, and a narrow write repeats its word
on all lanes. -/
structure Legal (r : DataReq) : Prop where
  addr_lt : r.addr < g.depth
  way_lt : r.way < 2 ^ g.waysWidth
  aligned : r.wide = true → r.addr % 2 ^ g.interleaveWidth = 0
  narrow : r.write = true → r.wide = false → g.narrowWrites = true ∧ ∀ j, r.wdata j = r.wdata 0

/-- The RAMs and the plain array in a cycle. -/
def state (s₀ : DataRam) (req : ℕ → Option DataReq) (n : ℕ) : DataRam := run (step g) s₀ req n

def plain (m₀ : Plain) (req : ℕ → Option DataReq) (n : ℕ) : Plain := run (plainStep g) m₀ req n

/-- The outputs in the cycle after a read are what the plain array holds: the word of every way,
or the words of a beat of one way. -/
def Returns (s : DataRam) (m : Plain) (r : DataReq) : Prop :=
  if r.wide then
    ∀ j < 2 ^ g.interleaveWidth,
      readDataWide g s j = m r.way (setOf g r.addr) (wordOf g r.addr + j)
  else ∀ i < 2 ^ g.waysWidth, readData g s i = m i (setOf g r.addr) (wordOf g r.addr)

/-- From any contents and under any requests the RAMs behave as the plain array. -/
def Refines : Prop :=
  ∀ (s₀ : DataRam) (req : ℕ → Option DataReq), (∀ n r, req n = some r → Legal g r) → ∀ n,
    (∀ way < 2 ^ g.waysWidth, ∀ set < 2 ^ g.setsWidth, ∀ word < 2 ^ g.lineWidth,
        contents g (state g s₀ req n) way set word =
          plain g (contents g s₀) req n way set word) ∧
      ∀ r, req n = some r → r.write = false →
        Returns g (state g s₀ req (n + 1)) (plain g (contents g s₀) req n) r

/-! ## Widths -/

variable {g}

theorem and_mask (x : ℕ) : x &&& g.mask = x % 2 ^ g.interleaveWidth :=
  Nat.and_two_pow_sub_one_eq_mod x _

theorem high_mask (x : ℕ) :
    high g.mask x = x / 2 ^ g.interleaveWidth * 2 ^ g.interleaveWidth :=
  DataRam.high_two_pow _ x

/-- What is xored into an address of an array does not reach past its end. -/
theorem xor_low_lt {k m x y : ℕ} (hk : k ≤ m) (hx : x < 2 ^ m) : x ^^^ (y % 2 ^ k) < 2 ^ m := by
  refine Nat.xor_lt_two_pow hx ?_
  exact (Nat.mod_lt y (Nat.two_pow_pos k)).trans_le (Nat.pow_le_pow_right (by omega) hk)

/-- The low bits of a beat are among those of a word. -/
theorem mod_and_mask (h : g.interleaveWidth ≤ g.lineWidth) (x : ℕ) :
    x % 2 ^ g.lineWidth &&& g.mask = x &&& g.mask := by
  rw [and_mask, and_mask, Nat.mod_mod_of_dvd _ (Nat.pow_dvd_pow 2 h)]

section Step
variable {s : DataRam} {r : DataReq}

theorem addr_eq (h : g.interleaveWidth ≤ g.lineWidth) (hr : Legal g r) :
    addr g r = dataAddr g.mask r := by
  refine Nat.mod_eq_of_lt ?_
  unfold dataAddr
  split
  · rw [and_mask]
    exact xor_low_lt (by omega) hr.addr_lt
  · exact hr.addr_lt

theorem effective_eq (h : g.interleaveWidth ≤ g.lineWidth) (hr : Legal g r) (i : ℕ) :
    effective g r i = DataRam.effective g.mask r i := by
  have haddr : dataAddr g.mask r < g.depth := by
    rw [← addr_eq h hr]
    exact Nat.mod_lt _ (Nat.two_pow_pos _)
  rw [effective, addr_eq h hr, DataRam.effective]
  refine Nat.mod_eq_of_lt ?_
  split
  · rw [and_mask]
    exact xor_low_lt (by omega) haddr
  · rwa [Nat.xor_zero]

theorem writeWays_eq (h : g.interleaveWidth ≤ g.lineWidth) (hr : Legal g r)
    (hw : r.write = true) (i : ℕ) : writeWays g r i = DataRam.writeWays g.mask r i := by
  rw [writeWays, addr_eq h hr, DataRam.writeWays]
  cases hn : r.wide with
  | true => simp
  | false => rw [(hr.narrow hw hn).1]; rfl

/-- For beats that are not longer than a line the widths of the source cut nothing off, but for
the latched address. -/
theorem step_eq (h : g.interleaveWidth ≤ g.lineWidth) (hr : Legal g r) :
    step g s (some r) = { DataRam.step g.mask s (some r) with
      readAddrLatch := if r.write then s.readAddrLatch
        else dataAddr g.mask r % 2 ^ g.lineWidth } := by
  have hways : ∀ i, (r.write && writeWays g r i) = (r.write && DataRam.writeWays g.mask r i) := by
    intro i
    cases hw : r.write with
    | false => rfl
    | true => rw [writeWays_eq h hr hw]
  simp only [step, DataRam.step, hways, effective_eq h hr, writeData, DataRam.writeData,
    addr_eq h hr]

theorem cell_step (h : g.interleaveWidth ≤ g.lineWidth) (hr : Legal g r) (w a : ℕ) :
    cell g.mask (step g s (some r)) w a = cell g.mask (DataRam.step g.mask s (some r)) w a := by
  rw [step_eq h hr]
  rfl

/-! ## Accesses -/

/-- A narrow write replaces one word. -/
theorem cell_step_narrow {mask : ℕ} (hw : r.write = true) (hn : r.wide = false) (w a : ℕ)
    (hdata : ∀ j, r.wdata j = r.wdata 0) :
    cell mask (DataRam.step mask s (some r)) w a =
      if w = r.way ∧ a = r.addr then r.wdata 0 else cell mask s w a := by
  have hways : DataRam.writeWays mask r (w ^^^ (a &&& mask)) = true ∧ a = r.addr ↔
      w = r.way ∧ a = r.addr := by
    simp only [DataRam.writeWays, dataAddr, hn, DataRam.high_xor_and, Bool.false_or,
      Bool.and_eq_true, beq_iff_eq, Bool.false_eq_true, if_false]
    constructor
    · rintro ⟨⟨hhigh, hlow⟩, rfl⟩
      refine ⟨(DataRam.eq_of_high_of_low hhigh ?_).symm, rfl⟩
      rw [hlow, Nat.and_xor_distrib_right, Nat.and_xor_distrib_right, DataRam.and_and_mask,
        Nat.xor_xor_cancel_right]
    · rintro ⟨rfl, rfl⟩
      refine ⟨⟨rfl, ?_⟩, rfl⟩
      rw [Nat.and_xor_distrib_right, Nat.and_xor_distrib_right, DataRam.and_and_mask,
        Nat.xor_xor_cancel_right]
  have heff : DataRam.effective mask r (w ^^^ (a &&& mask)) = r.addr := by
    simp [DataRam.effective, dataAddr, hn]
  have hif : (r.write && DataRam.writeWays mask r (w ^^^ (a &&& mask)) &&
      a == DataRam.effective mask r (w ^^^ (a &&& mask))) = decide (w = r.way ∧ a = r.addr) := by
    rw [hw, heff, Bool.true_and, Bool.eq_iff_iff, decide_eq_true_iff, ← hways, Bool.and_eq_true,
      beq_iff_eq]
  simp only [cell, DataRam.step, hif, decide_eq_true_eq]
  exact if_congr Iff.rfl (hdata _) rfl

/-- The word of a set. -/
theorem setOf_wordOf {set word : ℕ} (hword : word < 2 ^ g.lineWidth) (a : ℕ) :
    set * 2 ^ g.lineWidth + word = a ↔ set = setOf g a ∧ word = wordOf g a := by
  constructor
  · rintro rfl
    rw [setOf, wordOf, Nat.mul_add_mod', Nat.mod_eq_of_lt hword, Nat.mul_comm,
      Nat.mul_add_div (Nat.two_pow_pos _), Nat.div_eq_of_lt hword]
    exact ⟨rfl, rfl⟩
  · rintro ⟨rfl, rfl⟩
    rw [setOf, wordOf, Nat.div_add_mod']

/-- The beat of a word lies in the line of the word. -/
theorem high_word (h : g.interleaveWidth ≤ g.lineWidth) (set word : ℕ) :
    high g.mask (set * 2 ^ g.lineWidth + word) =
      set * 2 ^ g.lineWidth + word / 2 ^ g.interleaveWidth * 2 ^ g.interleaveWidth := by
  obtain ⟨k, hk⟩ := Nat.pow_dvd_pow 2 h
  have hset : set * 2 ^ g.lineWidth = set * k * 2 ^ g.interleaveWidth := by
    rw [hk, Nat.mul_assoc, Nat.mul_comm k]
  rw [high_mask, hset, Nat.add_comm, Nat.add_mul_div_right _ _ (Nat.two_pow_pos _), Nat.add_mul,
    Nat.add_comm]

theorem low_word (h : g.interleaveWidth ≤ g.lineWidth) (set word : ℕ) :
    (set * 2 ^ g.lineWidth + word) &&& g.mask = word % 2 ^ g.interleaveWidth := by
  obtain ⟨k, hk⟩ := Nat.pow_dvd_pow 2 h
  rw [and_mask, hk, Nat.mul_left_comm, Nat.mul_add_mod]

/-- One cycle changes the words as it changes the plain array. -/
theorem contents_step (h : g.interleaveWidth ≤ g.lineWidth) (hr : Legal g r) {way set word : ℕ}
    (hword : word < 2 ^ g.lineWidth) :
    contents g (step g s (some r)) way set word =
      plainStep g (contents g s) (some r) way set word := by
  have hbeat : word / 2 ^ g.interleaveWidth * 2 ^ g.interleaveWidth < 2 ^ g.lineWidth :=
    (Nat.div_mul_le_self _ _).trans_lt hword
  rw [contents, cell_step h hr, plainStep_some]
  cases hw : r.write with
  | false =>
      rw [DataRam.cell_step_read hw, if_neg (by simp)]
      rfl
  | true =>
      cases hn : r.wide with
      | true =>
          have hlow : r.addr &&& g.mask = 0 := by
            rw [and_mask]
            exact hr.aligned hn
          rw [DataRam.cell_step_wide hw hn hlow, high_word h, low_word h]
          simp only [setOf_wordOf hbeat, contents, if_true, true_and]
      | false =>
          rw [cell_step_narrow hw hn _ _ (hr.narrow hw hn).2]
          simp only [setOf_wordOf hword, contents, Bool.false_eq_true, if_false, true_and]

/-- A RAM that holds a word is one of those that exist. -/
theorem bankData_eq (h : g.interleaveWidth ≤ g.waysWidth) {i : ℕ} (hi : i < 2 ^ g.waysWidth)
    (x : ℕ) : bankData g s (i ^^^ (x &&& g.mask)) = s.rdata (i ^^^ (x &&& g.mask)) := by
  rw [bankData, if_pos]
  rw [and_mask]
  exact xor_low_lt h hi

/-- The bits of the latched address that the permutation uses. -/
theorem latch_and_mask (h : g.interleaveWidth ≤ g.lineWidth) (hr : Legal g r)
    (hw : r.write = false) :
    (step g s (some r)).readAddrLatch &&& g.mask = dataAddr g.mask r &&& g.mask := by
  have hlatch : (step g s (some r)).readAddrLatch = dataAddr g.mask r % 2 ^ g.lineWidth := by
    rw [step_eq h hr, hw]
    rfl
  rw [hlatch, mod_and_mask h]

/-- What RAM `i` puts out after a read. -/
theorem rdata_step (h : g.interleaveWidth ≤ g.lineWidth) (hr : Legal g r)
    (hw : r.write = false) (i : ℕ) :
    (step g s (some r)).rdata i = s.banks i (DataRam.effective g.mask r i) := by
  rw [step_eq h hr]
  simp [DataRam.step, hw]

/-- A narrow read returns the addressed word of every way. -/
theorem readData_step (h : g.interleaveWidth ≤ g.lineWidth) (h' : g.interleaveWidth ≤ g.waysWidth)
    (hr : Legal g r) (hw : r.write = false) (hn : r.wide = false) {i : ℕ}
    (hi : i < 2 ^ g.waysWidth) :
    readData g (step g s (some r)) i = contents g s i (setOf g r.addr) (wordOf g r.addr) := by
  have haddr : r.addr = setOf g r.addr * 2 ^ g.lineWidth + wordOf g r.addr :=
    (Nat.div_add_mod' _ _).symm
  rw [readData, bankData_eq h' hi, latch_and_mask h hr hw, rdata_step h hr hw, contents, ← haddr]
  simp [cell, DataRam.effective, dataAddr, hn]

/-- A wide read returns the words of a beat of one way. -/
theorem readDataWide_step (h : g.interleaveWidth ≤ g.lineWidth)
    (h' : g.interleaveWidth ≤ g.waysWidth) (hr : Legal g r) (hw : r.write = false)
    (hn : r.wide = true) {j : ℕ} (hj : j < 2 ^ g.interleaveWidth) :
    readDataWide g (step g s (some r)) j =
      contents g s r.way (setOf g r.addr) (wordOf g r.addr + j) := by
  have hmod := hr.aligned hn
  have hjmask : j &&& g.mask = j := by
    rw [and_mask, Nat.mod_eq_of_lt hj]
  have hlow : r.addr &&& g.mask = 0 := by rw [and_mask, hmod]
  -- the way of the lane, and the address of its word
  have hor : high g.mask r.way ||| j = high g.mask r.way ^^^ j := by
    rw [high_mask]
    obtain ⟨q, hq⟩ : ∃ q, r.way / 2 ^ g.interleaveWidth = q := ⟨_, rfl⟩
    rw [hq, Nat.mul_comm, ← Nat.two_pow_add_eq_or_of_lt hj]
    have hxor := DataRam.high_xor_low g.mask (2 ^ g.interleaveWidth * q + j)
    rw [high_mask, and_mask, Nat.mul_add_div (Nat.two_pow_pos _), Nat.div_eq_of_lt hj,
      Nat.add_zero, Nat.mul_add_mod, Nat.mod_eq_of_lt hj, Nat.mul_comm q] at hxor
    exact hxor.symm
  have hsum : r.addr ^^^ j = r.addr + j := by
    have hxor := DataRam.high_xor_low g.mask (r.addr + j)
    have hdvd : 2 ^ g.interleaveWidth ∣ r.addr := Nat.dvd_of_mod_eq_zero hmod
    have hhigh : high g.mask (r.addr + j) = r.addr := by
      obtain ⟨q, hq⟩ := hdvd
      rw [high_mask, hq, Nat.mul_add_div (Nat.two_pow_pos _), Nat.div_eq_of_lt hj, Nat.add_zero,
        Nat.mul_comm]
    have hlow' : (r.addr + j) &&& g.mask = j := by
      rw [and_mask, Nat.add_mod, hmod, Nat.zero_add, Nat.mod_mod, Nat.mod_eq_of_lt hj]
    rwa [hhigh, hlow'] at hxor
  have hwayj : high g.mask r.way ^^^ j < 2 ^ g.waysWidth := by
    have hhigh : high g.mask r.way < 2 ^ g.waysWidth := by
      rw [high_mask]
      exact (Nat.div_mul_le_self _ _).trans_lt hr.way_lt
    rw [← Nat.mod_eq_of_lt hj]
    exact xor_low_lt h' hhigh
  have hlatch : (step g s (some r)).wayLatch = r.way := by
    rw [step_eq h hr]
    simp [DataRam.step, hw]
  have hda : dataAddr g.mask r &&& g.mask = r.way &&& g.mask := by
    simp only [dataAddr, hn, if_true, Nat.and_xor_distrib_right, hlow, Nat.zero_xor,
      DataRam.and_and_mask]
  -- the lane is in the RAM that holds the word of the way
  have hbank : high g.mask r.way ^^^ j ^^^ (r.way &&& g.mask) = r.way ^^^ j := by
    rw [Nat.xor_assoc, Nat.xor_comm j, ← Nat.xor_assoc, DataRam.high_xor_low]
  have heff : DataRam.effective g.mask r (r.way ^^^ j) = r.addr + j := by
    simp only [DataRam.effective, dataAddr, hn, if_true, Nat.and_xor_distrib_right, hjmask]
    rw [Nat.xor_assoc, Nat.xor_xor_cancel_left, hsum]
  have hcell : contents g s r.way (setOf g r.addr) (wordOf g r.addr + j) =
      s.banks (r.way ^^^ j) (r.addr + j) := by
    have haddr : setOf g r.addr * 2 ^ g.lineWidth + (wordOf g r.addr + j) = r.addr + j := by
      rw [← Nat.add_assoc, setOf, wordOf, Nat.div_add_mod']
    rw [contents, cell, haddr, and_mask, Nat.add_mod, hmod, Nat.zero_add, Nat.mod_mod,
      Nat.mod_eq_of_lt hj]
  rw [readDataWide, hlatch, hor, if_pos hwayj, readData, bankData_eq h' hwayj,
    latch_and_mask h hr hw, hda, hbank, rdata_step h hr hw, heff, hcell]

end Step

/-! ## Runs -/

/-- The words of a line that a beat holds. -/
theorem wordOf_add_lt (h : g.interleaveWidth ≤ g.lineWidth) {a j : ℕ}
    (ha : a % 2 ^ g.interleaveWidth = 0) (hj : j < 2 ^ g.interleaveWidth) :
    wordOf g a + j < 2 ^ g.lineWidth := by
  obtain ⟨k, hk⟩ := Nat.pow_dvd_pow 2 h
  have hlt : wordOf g a < 2 ^ g.lineWidth := Nat.mod_lt _ (Nat.two_pow_pos _)
  have hdvd : 2 ^ g.interleaveWidth ∣ wordOf g a := by
    rw [wordOf, Nat.dvd_iff_mod_eq_zero, Nat.mod_mod_of_dvd _ (Nat.pow_dvd_pow 2 h), ha]
  obtain ⟨q, hq⟩ := hdvd
  rw [hq, hk] at hlt
  have hqk : q < k := Nat.lt_of_mul_lt_mul_left hlt
  calc wordOf g a + j < 2 ^ g.interleaveWidth * q + 2 ^ g.interleaveWidth := by omega
    _ = 2 ^ g.interleaveWidth * (q + 1) := (Nat.mul_succ _ _).symm
    _ ≤ 2 ^ g.interleaveWidth * k := Nat.mul_le_mul_left _ hqk
    _ = 2 ^ g.lineWidth := hk.symm

/-- Beats that are not longer than a line, and not wider than the RAMs together. -/
theorem refines_of_le (h : g.interleaveWidth ≤ g.lineWidth)
    (h' : g.interleaveWidth ≤ g.waysWidth) : Refines g := by
  intro s₀ req hreq
  have hcontents : ∀ n, ∀ way set word, word < 2 ^ g.lineWidth →
      contents g (state g s₀ req n) way set word =
        plain g (contents g s₀) req n way set word := by
    intro n
    induction n with
    | zero => exact fun _ _ _ _ => rfl
    | succ n ih =>
        intro way set word hword
        show contents g (step g (state g s₀ req n) (req n)) way set word =
          plainStep g (plain g (contents g s₀) req n) (req n) way set word
        cases hr : req n with
        | none => exact ih way set word hword
        | some r =>
            rw [contents_step h (hreq n r hr) hword, plainStep_some, plainStep_some,
              ih way set word hword]
  intro n
  refine ⟨fun way _ set _ word hword => hcontents n way set word hword, fun r hr hw => ?_⟩
  have hlegal := hreq n r hr
  have hstep : state g s₀ req (n + 1) = step g (state g s₀ req n) (some r) := by
    rw [← hr]
    rfl
  rw [Returns, hstep]
  cases hn : r.wide with
  | true =>
      intro j hj
      rw [readDataWide_step h h' hlegal hw hn hj]
      exact hcontents n _ _ _ (wordOf_add_lt h (hlegal.aligned hn) hj)
  | false =>
      intro i hi
      rw [readData_step h h' hlegal hw hn hi]
      exact hcontents n _ _ _ (Nat.mod_lt _ (Nat.two_pow_pos _))

/-- The RAMs of both caches behave as plain arrays for every width from a word to a line. -/
theorem interleaving (waysWidth setsWidth k : ℕ) (hways : k ≤ waysWidth) :
    (64 * 2 ^ k ≤ 512 → Refines (.dcache waysWidth setsWidth k)) ∧
      (32 * 2 ^ k ≤ 512 → Refines (.icache waysWidth setsWidth k)) := by
  constructor
  · intro hline
    refine refines_of_le ?_ hways
    show k ≤ 3
    by_contra hk
    have hpow : 2 ^ 4 ≤ 2 ^ k := Nat.pow_le_pow_right (by omega) (by omega)
    omega
  · intro hline
    refine refines_of_le ?_ hways
    show k ≤ 4
    by_contra hk
    have hpow : 2 ^ 5 ≤ 2 ^ k := Nat.pow_le_pow_right (by omega) (by omega)
    omega

/-- A 128-bit data cache of four ways and 64 sets. -/
theorem interleaving_default : Refines (.dcache 2 6 1) :=
  (interleaving 2 6 1 (by decide)).1 (by decide)

/-- A word is written into the second line of way 0 and then read. -/
def writeRead : ℕ → Option DataReq
  | 0 => some ⟨true, 8, 0, false, fun _ => 1⟩
  | 1 => some ⟨false, 8, 0, false, fun _ => 0⟩
  | _ => none

/-- With beats of two lines the bit of the address that tells the lines apart takes part in the
permutation, and it is not latched. -/
theorem beat_longer_than_line : ¬Refines (.dcache 4 1 4) := by
  intro h
  have hlegal : ∀ n r, writeRead n = some r → Legal (.dcache 4 1 4) r := by
    intro n r hr
    match n with
    | 0 =>
        cases hr
        exact ⟨by decide, by decide, by decide, fun _ _ => ⟨rfl, fun _ => rfl⟩⟩
    | 1 =>
        cases hr
        exact ⟨by decide, by decide, by decide, fun hw => by cases hw⟩
    | n + 2 => cases hr
  have hread := (h ⟨fun _ _ => 0, fun _ => 0, 0, 0⟩ writeRead hlegal 1).2 _ rfl rfl
  have hword := hread 0 (by decide)
  revert hword
  decide

end DataArray

end Muntjac.Core

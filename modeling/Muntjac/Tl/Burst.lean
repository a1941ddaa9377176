import Muntjac.Sync.Bits

/-!
# The burst tracker

`tl_burst_tracker` keeps one down-counter per channel.  Between messages the
counter is all ones, so that masking it with the length of the message gives the
number of beats left on the first beat as well as on later ones.

The three channels differ only in which opcodes carry data; `Burst` is one channel.
-/

namespace Muntjac.Tl

/-- Bus geometry: `nonBurst` is the binary logarithm of the bus width in bytes and
`maxSize` that of the longest message. -/
structure BurstParams where
  nonBurst : ℕ
  maxSize : ℕ
  deriving DecidableEq, Repr

namespace BurstParams

/-- `BurstLenWidth`. -/
def lenWidth (p : BurstParams) : ℕ := Sync.vbits (2 ^ (p.maxSize - p.nonBurst))

/-- `burst_len`: the number of beats after the first of a message with data. -/
def burstLen (p : BurstParams) (size : ℕ) : ℕ :=
  if size ≤ p.nonBurst then 0 else (2 ^ (size - p.nonBurst) - 1) % 2 ^ p.lenWidth

end BurstParams

/-- The counter of one channel. -/
structure Burst where
  leftQ : ℕ
  deriving DecidableEq, Repr

namespace Burst

/-- `'1`. -/
def reset (p : BurstParams) : Burst := ⟨2 ^ p.lenWidth - 1⟩

/-- The length of a message, with or without data. -/
def len (p : BurstParams) (hasData : Bool) (size : ℕ) : ℕ := if hasData then p.burstLen size else 0

/-- The number of beats left after the current one. -/
def left (p : BurstParams) (b : Burst) (hasData : Bool) (size : ℕ) : ℕ :=
  len p hasData size &&& b.leftQ

/-- The index of the current beat, `len &~ left_q`. -/
def idx (p : BurstParams) (b : Burst) (hasData : Bool) (size : ℕ) : ℕ :=
  len p hasData size ^^^ left p b hasData size

/-- The current beat is the last of its message. -/
def last (p : BurstParams) (b : Burst) (hasData : Bool) (size : ℕ) : Bool :=
  left p b hasData size == 0

/-- The current beat is the first of its message: the counter is all ones. -/
def first (p : BurstParams) (b : Burst) : Bool := b.leftQ == 2 ^ p.lenWidth - 1

/-- A beat is transferred: the counter decreases, with wrap-around after the last. -/
def next (p : BurstParams) (b : Burst) (hasData : Bool) (size : ℕ) : Burst :=
  ⟨(left p b hasData size + (2 ^ p.lenWidth - 1)) % 2 ^ p.lenWidth⟩

/-! ## The counter tells the beat -/

/-- The counter when `j` beats of a message with last index `n` have been transferred. -/
def Counts (p : BurstParams) (b : Burst) (n j : ℕ) : Prop :=
  j ≤ n ∧ b.leftQ = if j = 0 then 2 ^ p.lenWidth - 1 else n - j

variable {p : BurstParams} {b : Burst} {hasData : Bool} {size j : ℕ}

theorem counts_reset (p : BurstParams) (n : ℕ) : Counts p (reset p) n 0 :=
  ⟨Nat.zero_le n, rfl⟩

/-- Between messages the counter does not depend on the message. -/
theorem Counts.of_zero {n : ℕ} (h : Counts p b n 0) (n' : ℕ) : Counts p b n' 0 :=
  ⟨Nat.zero_le n', h.2⟩

/-- Lengths are all ones. -/
theorem exists_len (p : BurstParams) (hasData : Bool) (size : ℕ) :
    ∃ k ≤ p.lenWidth, len p hasData size = 2 ^ k - 1 := by
  unfold len BurstParams.burstLen
  split
  · split
    · exact ⟨0, Nat.zero_le _, rfl⟩
    · rcases Nat.le_total (size - p.nonBurst) p.lenWidth with hle | hle
      · refine ⟨size - p.nonBurst, hle, Nat.mod_eq_of_lt ?_⟩
        have := Nat.pow_le_pow_right (n := 2) (by omega) hle
        have := Nat.two_pow_pos (size - p.nonBurst)
        omega
      · refine ⟨p.lenWidth, Nat.le_refl _, ?_⟩
        have hw := Nat.two_pow_pos p.lenWidth
        have hk := Nat.two_pow_pos (size - p.nonBurst - p.lenWidth)
        obtain ⟨m, hm⟩ := Nat.exists_eq_add_one_of_ne_zero hk.ne'
        have hsplit : 2 ^ (size - p.nonBurst) - 1 = (2 ^ p.lenWidth - 1) + 2 ^ p.lenWidth * m := by
          have : 2 ^ (size - p.nonBurst) = 2 ^ p.lenWidth * (m + 1) := by
            rw [← hm, ← Nat.pow_add]
            congr 1
            omega
          rw [this, Nat.mul_add, Nat.mul_one]
          omega
        rw [hsplit, Nat.add_mul_mod_self_left]
        exact Nat.mod_eq_of_lt (by omega)
  · exact ⟨0, Nat.zero_le _, rfl⟩

theorem len_lt (p : BurstParams) (hasData : Bool) (size : ℕ) :
    len p hasData size < 2 ^ p.lenWidth := by
  obtain ⟨k, hk, hl⟩ := exists_len p hasData size
  have := Nat.pow_le_pow_right (n := 2) (by omega) hk
  have := Nat.two_pow_pos k
  omega

/-- `left` counts the beats after the current one. -/
theorem Counts.left_eq (h : Counts p b (len p hasData size) j) :
    left p b hasData size = len p hasData size - j := by
  obtain ⟨k, hk, hl⟩ := exists_len p hasData size
  unfold left
  rw [h.2]
  split
  · next hj =>
    rw [Nat.and_two_pow_sub_one_eq_mod, Nat.mod_eq_of_lt (len_lt p hasData size), hj, Nat.sub_zero]
  · rw [hl, Nat.and_comm, Nat.and_two_pow_sub_one_eq_mod]
    have := Nat.two_pow_pos k
    exact Nat.mod_eq_of_lt (by omega)

/-- Messages of a legal size are not cut off by the width of the counter. -/
theorem len_eq (hasData : Bool) (h : size ≤ p.maxSize) :
    len p hasData size = if hasData then 2 ^ (size - p.nonBurst) - 1 else 0 := by
  unfold len BurstParams.burstLen
  refine if_congr Iff.rfl ?_ rfl
  split_ifs with hs
  · rw [Nat.sub_eq_zero_of_le hs]
    rfl
  · refine Nat.mod_eq_of_lt ?_
    have hwidth : size - p.nonBurst ≤ p.lenWidth := by
      unfold BurstParams.lenWidth Sync.vbits Sync.clog2
      split_ifs with h1 h2
      · have hlt : 2 ^ 0 < 2 ^ (p.maxSize - p.nonBurst) :=
          Nat.pow_lt_pow_right (by omega) (by omega)
        omega
      · have hlt : 2 ^ 0 < 2 ^ (p.maxSize - p.nonBurst) :=
          Nat.pow_lt_pow_right (by omega) (by omega)
        omega
      · have hpos : 0 < p.maxSize - p.nonBurst := by omega
        have hlog : p.maxSize - p.nonBurst ≤ Nat.log2 (2 ^ (p.maxSize - p.nonBurst) - 1) + 1 := by
          have hle : 2 ^ (p.maxSize - p.nonBurst - 1) ≤ 2 ^ (p.maxSize - p.nonBurst) - 1 := by
            have hsplit : 2 ^ (p.maxSize - p.nonBurst) = 2 * 2 ^ (p.maxSize - p.nonBurst - 1) := by
              rw [← Nat.pow_succ']
              congr 1
              omega
            have := Nat.two_pow_pos (p.maxSize - p.nonBurst - 1)
            omega
          have := (Nat.le_log2 (by omega)).mpr hle
          omega
        omega
    have hpow := Nat.pow_le_pow_right (n := 2) (by omega) hwidth
    have hpos := Nat.two_pow_pos (size - p.nonBurst)
    omega

/-- The first beat is the one with index 0. -/
theorem Counts.first_eq {n : ℕ} (h : Counts p b n j) (hn : n < 2 ^ p.lenWidth) :
    first p b = decide (j = 0) := by
  have hle := h.1
  rw [first, h.2]
  split_ifs with hj
  · simp [hj]
  · have hne : n - j ≠ 2 ^ p.lenWidth - 1 := by omega
    simp [hj, hne]

/-- The last beat is the one with the last index. -/
theorem Counts.last_eq (h : Counts p b (len p hasData size) j) :
    last p b hasData size = decide (j = len p hasData size) := by
  have := h.1
  rw [last, h.left_eq]
  by_cases hj : j = len p hasData size
  · simp [hj]
  · have : len p hasData size - j ≠ 0 := by omega
    simp [hj, this]

theorem two_pow_sub_one_xor {k x : ℕ} (h : x < 2 ^ k) : (2 ^ k - 1) ^^^ x = 2 ^ k - (x + 1) := by
  apply Nat.eq_of_testBit_eq
  intro i
  rw [Nat.testBit_xor, Nat.testBit_two_pow_sub_one, Nat.testBit_two_pow_sub_succ h]
  by_cases hi : i < k
  · simp [hi]
  · have : x.testBit i = false := by
      apply Nat.testBit_lt_two_pow
      exact h.trans_le (Nat.pow_le_pow_right (by omega) (by omega))
    simp [hi, this]

/-- `idx` is the number of beats before the current one. -/
theorem Counts.idx_eq (h : Counts p b (len p hasData size) j) : idx p b hasData size = j := by
  obtain ⟨k, hk, hl⟩ := exists_len p hasData size
  have hj := h.1
  have hpos := Nat.two_pow_pos k
  rw [idx, h.left_eq, hl, two_pow_sub_one_xor (by omega)]
  omega

/-- A beat that is not the last. -/
theorem Counts.next_lt (h : Counts p b (len p hasData size) j) (hj : j < len p hasData size) :
    Counts p (next p b hasData size) (len p hasData size) (j + 1) := by
  have hlt := len_lt p hasData size
  refine ⟨hj, ?_⟩
  rw [next, h.left_eq, if_neg (by omega)]
  show (_ + _) % _ = _
  rw [show len p hasData size - j + (2 ^ p.lenWidth - 1) =
    (len p hasData size - (j + 1)) + 2 ^ p.lenWidth by omega, Nat.add_mod_right]
  exact Nat.mod_eq_of_lt (by omega)

/-- The last beat leaves the counter ready for the next message. -/
theorem Counts.next_last (h : Counts p b (len p hasData size) (len p hasData size)) (n : ℕ) :
    Counts p (next p b hasData size) n 0 := by
  have hpos := Nat.two_pow_pos p.lenWidth
  refine ⟨Nat.zero_le n, ?_⟩
  rw [next, h.left_eq, Nat.sub_self, Nat.zero_add, if_pos rfl]
  exact Nat.mod_eq_of_lt (by omega)

end Burst

end Muntjac.Tl

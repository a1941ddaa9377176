import Mathlib.Data.BitVec
import Mathlib.Tactic.Common

/-!
# Registers put together from bits

A register with named fields is read by placing each field at its position and written
by taking the bits at these positions.

## Main definitions

* `place l` — the word with the bits that `l` lists, zero elsewhere.
* `maskOf ks` — ones at the positions `ks`.
-/

namespace Muntjac.Sync

variable {w : ℕ}

/-- The word with the listed bits, zero elsewhere. -/
def place : List (ℕ × Bool) → BitVec w
  | [] => 0
  | (k, b) :: l => (if b then BitVec.twoPow w k else 0) ||| place l

/-- Ones at the positions `ks`. -/
def maskOf (ks : List ℕ) : BitVec w := place (ks.map (·, true))

theorem getLsbD_place (l : List (ℕ × Bool)) (i : ℕ) :
    (place l : BitVec w).getLsbD i =
      (decide (i < w) && l.any fun x => decide (x.1 = i) && x.2) := by
  induction l with
  | nil => simp [place]
  | cons x l ih =>
      obtain ⟨k, b⟩ := x
      cases b with
      | false => simp [place, ih]
      | true =>
          have hk : (decide (k < w) && decide (k = i)) = (decide (i < w) && decide (k = i)) := by
            by_cases h : k = i <;> simp [h]
          simp [place, ih, hk, Bool.and_or_distrib_left]

/-- The bits of `x` at the positions `ks`. -/
theorem place_map_getLsbD (x : BitVec w) (ks : List ℕ) :
    place (ks.map fun k => (k, x.getLsbD k)) = x &&& maskOf ks := by
  apply BitVec.eq_of_getLsbD_eq
  intro i hi
  simp only [maskOf, BitVec.getLsbD_and, getLsbD_place, hi, decide_true, Bool.true_and,
    List.any_map, Function.comp_def, Bool.and_true]
  induction ks with
  | nil => simp
  | cons k ks ih =>
      rw [List.any_cons, List.any_cons, ih, Bool.and_or_distrib_left]
      congr 1
      by_cases hk : k = i <;> simp [hk]

theorem place_append (l l' : List (ℕ × Bool)) :
    (place (l ++ l') : BitVec w) = place l ||| place l' := by
  induction l with
  | nil => simp [place]
  | cons x l ih => simp [place, ih, BitVec.or_assoc]

/-- A mask keeps the fields at its positions. -/
theorem place_and_maskOf (l : List (ℕ × Bool)) (ks : List ℕ) :
    (place l &&& maskOf ks : BitVec w) = place (l.filter fun x => x.1 ∈ ks) := by
  apply BitVec.eq_of_getLsbD_eq
  intro i hi
  simp only [maskOf, BitVec.getLsbD_and, getLsbD_place, hi, decide_true, Bool.true_and]
  rw [Bool.eq_iff_iff]
  simp only [Bool.and_eq_true, List.any_eq_true, List.mem_map, List.mem_filter, decide_eq_true_eq]
  constructor
  · rintro ⟨⟨x, hx, hxi, hb⟩, _, ⟨k, hk, rfl⟩, hki, -⟩
    exact ⟨x, ⟨hx, by rw [hxi]; exact hki ▸ hk⟩, hxi, hb⟩
  · rintro ⟨x, ⟨hx, hk⟩, hxi, hb⟩
    exact ⟨⟨x, hx, hxi, hb⟩, (x.1, true), ⟨x.1, hk, rfl⟩, hxi, rfl⟩

/-! ## Masks of narrow registers -/

variable {v : ℕ}

theorem setWidth_setWidth_and (x : BitVec v) (m : BitVec w) :
    (x.setWidth w &&& m).setWidth v = x &&& m.setWidth v := by
  apply BitVec.eq_of_getLsbD_eq
  intro k hk
  simp only [BitVec.getLsbD_setWidth, BitVec.getLsbD_and, hk, decide_true, Bool.true_and]
  by_cases hkw : k < w
  · simp [hkw]
  · simp [BitVec.getLsbD_of_ge m k (by omega)]

theorem setWidth_setWidth_mask (x : BitVec v) :
    (x.setWidth w).setWidth v = x &&& (BitVec.allOnes w).setWidth v := by
  rw [← setWidth_setWidth_and x _, BitVec.and_allOnes]

theorem and_setWidth_eq_zero (x : BitVec v) (m : BitVec w) (hw : w ≤ v) :
    x &&& m.setWidth v = 0#v ↔ x.setWidth w &&& m = 0#w := by
  rw [← setWidth_setWidth_and x m]
  constructor
  · intro h
    apply BitVec.eq_of_getLsbD_eq
    intro k hk
    have hbit := congrArg (fun y : BitVec v => y.getLsbD k) h
    have hkv : k < v := by omega
    simpa [hkv] using hbit
  · intro h
    rw [h]
    simp

/-- A sum that `l` bits hold, as a signed number, can be computed with `l` bits. -/
theorem signExtend_setWidth_add {l : ℕ} (hl : 0 < l) (h64 : l ≤ 64) (x : BitVec 64) (k : ℕ)
    (hlo : -(2 ^ (l - 1) : ℕ) ≤ x.toInt) (hhi : x.toInt + k < (2 ^ (l - 1) : ℕ)) :
    (x.setWidth l + BitVec.ofNat l k).signExtend 64 = x + BitVec.ofNat 64 k := by
  have hpow : 2 ^ l = 2 * 2 ^ (l - 1) := by
    rw [← Nat.pow_succ', Nat.succ_eq_add_one, Nat.sub_add_cancel hl]
  have hbig : 2 ^ (l - 1) ≤ 2 ^ 63 := Nat.pow_le_pow_right (by omega) (by omega)
  have hdvd : 2 ^ l ∣ 2 ^ 64 := Nat.pow_dvd_pow 2 h64
  have hsum : (x + BitVec.ofNat 64 k).toInt = x.toInt + k := by
    rw [BitVec.toInt_add, BitVec.toInt_ofNat', Int.add_bmod_bmod]
    apply Int.bmod_eq_of_le <;> omega
  have hx : x.toInt.bmod (2 ^ l) = (x.toNat : ℤ).bmod (2 ^ l) := by
    rw [BitVec.toInt_eq_toNat_bmod, Int.bmod_bmod_of_dvd hdvd]
  have hcong : (x.setWidth l + BitVec.ofNat l k).toInt = (x.toInt + k).bmod (2 ^ l) := by
    rw [BitVec.toInt_add, BitVec.toInt_ofNat', Int.add_bmod_bmod, BitVec.toInt_setWidth, ← hx,
      Int.bmod_add_bmod]
  apply BitVec.eq_of_toInt_eq
  rw [BitVec.toInt_signExtend_of_le h64, hcong, hsum]
  apply Int.bmod_eq_of_le <;> omega

/-! ## Words put together from fields -/

theorem append_eq_iff {m n : ℕ} (x : BitVec m) (y : BitVec n) (w : BitVec (m + n)) :
    x ++ y = w ↔ x = w.extractLsb' n m ∧ y = w.extractLsb' 0 n := by
  constructor
  · rintro rfl
    exact ⟨BitVec.extractLsb'_append_eq_left.symm, BitVec.extractLsb'_append_eq_right.symm⟩
  · rintro ⟨rfl, rfl⟩
    rw [BitVec.extractLsb'_append_extractLsb'_eq_extractLsb' (by omega)]
    exact BitVec.extractLsb'_eq_self

theorem extractLsb'_extractLsb' {n a b s l : ℕ} (x : BitVec n) (h : s + l ≤ b) :
    (x.extractLsb' a b).extractLsb' s l = x.extractLsb' (a + s) l := by
  apply BitVec.eq_of_getLsbD_eq
  intro k hk
  have hb : s + k < b := by omega
  simp only [BitVec.getLsbD_extractLsb', hk, hb, decide_true, Bool.true_and, Nat.add_assoc]

theorem extractLsb'_setWidth {n m s l : ℕ} (y : BitVec n) (h : s + l ≤ m) :
    (y.setWidth m).extractLsb' s l = y.extractLsb' s l := by
  apply BitVec.eq_of_getLsbD_eq
  intro k hk
  have hm : s + k < m := by omega
  simp only [BitVec.getLsbD_extractLsb', BitVec.getLsbD_setWidth, hk, hm, decide_true,
    Bool.true_and]

theorem extractLsb'_of_ge {n s l : ℕ} (y : BitVec n) (h : n ≤ s) : y.extractLsb' s l = 0#l := by
  apply BitVec.eq_of_getLsbD_eq
  intro k hk
  rw [BitVec.getLsbD_extractLsb', BitVec.getLsbD_of_ge y (s + k) (by omega), Bool.and_false,
    BitVec.getLsbD_zero]

/-! ## Extensions -/

theorem signExtend_signExtend {k m n : ℕ} (y : BitVec k) (hkm : k ≤ m) (hmn : m ≤ n) :
    (y.signExtend m).signExtend n = y.signExtend n := by
  apply BitVec.eq_of_toInt_eq
  rw [BitVec.toInt_signExtend_of_le hmn, BitVec.toInt_signExtend_of_le hkm,
    BitVec.toInt_signExtend_of_le (by omega)]

theorem signExtend_setWidth {k m n : ℕ} (y : BitVec k) (hkm : k < m) :
    (y.setWidth m).signExtend n = y.setWidth n := by
  apply BitVec.eq_of_getLsbD_eq
  intro j hj
  have hmsb : (y.setWidth m).msb = false := by
    rw [BitVec.msb_setWidth, BitVec.getLsbD_of_ge _ _ (by omega), Bool.and_false]
  rw [BitVec.getLsbD_signExtend, hmsb]
  by_cases hjm : j < m
  · simp [hj, hjm]
  · have hjk : k ≤ j := by omega
    simp [hj, hjm, BitVec.getLsbD_of_ge y j hjk]

theorem append_zero_signExtend {k m : ℕ} (j : ℕ) (y : BitVec k) (h : k ≤ m) :
    (y ++ 0#j).signExtend (m + j) = y.signExtend m ++ 0#j := by
  apply BitVec.eq_of_toInt_eq
  rw [BitVec.toInt_signExtend_of_le (by omega), BitVec.toInt_append_zero,
    BitVec.toInt_append_zero, BitVec.toInt_signExtend_of_le h]

theorem signExtend_append_zero {k m n : ℕ} (j : ℕ) (y : BitVec k) (hkm : k ≤ m)
    (hmn : m + j ≤ n) : (y.signExtend m ++ 0#j).signExtend n = (y ++ 0#j).signExtend n := by
  rw [← append_zero_signExtend j y hkm, signExtend_signExtend _ (by omega) hmn]

end Muntjac.Sync

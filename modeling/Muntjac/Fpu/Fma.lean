import Muntjac.Fpu.MulAdd
import Muntjac.Ieee.Breakpoints

/-!
# The fused multiply-add before rounding

What `muntjac_fpu_add` and `muntjac_fpu_mul_add` hand to the rounder.  The significand of
the sum is cut to the width of the rounder with its lost bits in the lowest one.

The adder tests for a cancelled sum on the fields of its operands, also when one of them is
a zero, whose fields are those of a number.

## Main results

* `AddUnit.add_means` — the outcome that the adder hands on.
-/

namespace Muntjac.Fpu

open Sync Ieee

namespace AddUnit
variable {p : Widths} {f : Format} {rm : RoundingMode} {a b : Unpacked}

/-! ## The significand of the result -/

theorem outSignificand_eq {w o M : ℕ} (ho : 2 ≤ o) (how : o ≤ w) (hlo : 2 ^ (w + 1) ≤ M)
    (hhi : M < 2 ^ (w + 2)) :
    2 ^ o + cat (slice M w (w - o + 2)) 1 (slice M (w - o + 1) 0 != 0).toNat =
      jamShift M (w + 1 - o) := by
  have hk : w + 1 - o + 1 = w - o + 2 := by omega
  have hdlo : 2 ^ (o - 1) ≤ M / 2 ^ (w - o + 2) := by
    rw [Nat.le_div_iff_mul_le (Nat.two_pow_pos _), ← Nat.pow_add]
    rwa [show o - 1 + (w - o + 2) = w + 1 by omega]
  have hdhi : M / 2 ^ (w - o + 2) < 2 * 2 ^ (o - 1) := by
    rw [← Nat.pow_succ', Nat.succ_eq_add_one]
    apply Nat.div_lt_of_lt_mul
    rwa [← Nat.pow_add, show w - o + 2 + (o - 1 + 1) = w + 2 by omega]
  have hpow : 2 ^ o = 2 * 2 ^ (o - 1) := by
    rw [← Nat.pow_succ', Nat.succ_eq_add_one]
    congr 1
    omega
  rw [slice, slice, jamShift, hk, cat, show w + 1 - (w - o + 2) = o - 1 by omega,
    Nat.mod_eq_sub_mod hdlo, Nat.mod_eq_of_lt (a := M / 2 ^ (w - o + 2) - 2 ^ (o - 1)) (by omega),
    show w - o + 1 + 1 - 0 = w - o + 2 by omega, Nat.pow_zero, Nat.div_one]
  by_cases h0 : M % 2 ^ (w - o + 2) = 0
  · simp only [h0, bne_self_eq_false, Bool.toNat_false, if_true]
    omega
  · simp only [h0, bne_iff_ne.mpr h0, Bool.toNat_true, if_false]
    omega

/-- The room that the exponent of an operand leaves for the sum. -/
structure Headroom (p : Widths) (f : Format) (e : ℤ) : Prop where
  lo : -2 ^ (p.inExpWidth - 1) ≤ e - p.inSigWidth
  hi : e + 1 < 2 ^ (p.inExpWidth - 1) + f.minExp

theorem minExp_nonpos (f : Format) : f.minExp ≤ 0 := by
  have := f.one_le_bias
  rw [Format.minExp]
  omega

theorem Headroom.expFits {e : ℤ} (h : Headroom p f e) : MulUnit.ExpFits p.inExpWidth e := by
  have := minExp_nonpos f
  exact ⟨by have := h.lo; omega, by have := h.hi; omega⟩

theorem two_pow_outExpWidth (hp : Fits p) :
    (2 : ℤ) ^ p.outExpWidth = 2 * 2 ^ (p.inExpWidth - 1) := by
  have := hp.exp
  rw [hp.outExp, ← pow_succ', Nat.sub_add_cancel (by omega)]

theorem Headroom.inRange {e x : ℤ} (hp : Fits p) (h : Headroom p f e)
    (hlo : e - p.inSigWidth ≤ x) (hhi : x ≤ e + 1) :
    RoundToIeee.InRange p.outExpWidth f x ∧ wrap p.outExpWidth x = x := by
  have hpow := two_pow_outExpWidth hp
  have hmin := minExp_nonpos f
  have h1 := h.lo
  have h2 := h.hi
  exact ⟨⟨by omega, by omega⟩, wrap_eq (by omega) (by omega)⟩

/-- An exponent that is extended with zeros counts modulo the width of the result. -/
theorem wrap_bits_add (w : ℕ) (x c : ℤ) : wrap w (bits w x + c) = wrap w (x + c) := by
  have hnonneg : 0 ≤ x % 2 ^ w := Int.emod_nonneg _ (pow_pos two_pos w).ne'
  have hcast : (2 : ℤ) ^ w = (2 ^ w : ℕ) := by push_cast; rfl
  rw [wrap, wrap, bits, Int.toNat_of_nonneg hnonneg, hcast, Int.emod_add_bmod]

/-- The significand that is cut from `M`, which has its leading one at the top. -/
theorem sticky_outSignificand {w o M : ℕ} {e : ℤ} {v : ℚ} (hp2 : 2 ≤ o) (how : o ≤ w)
    (hlo : 2 ^ (w + 1) ≤ M) (hhi : M < 2 ^ (w + 2))
    (hv : Sticky (v / 2 ^ (e - o)) (jamShift M (w + 1 - o))) :
    cat (slice M w (w - o + 2)) 1 (slice M (w - o + 1) 0 != 0).toNat < 2 ^ o ∧
      Sticky (v / 2 ^ (e - o))
        (2 ^ o + cat (slice M w (w - o + 2)) 1 (slice M (w - o + 1) 0 != 0).toNat) := by
  have heq := outSignificand_eq hp2 how hlo hhi
  have hlt : jamShift M (w + 1 - o) < 2 ^ (o + 1) :=
    jamShift_lt (by rwa [show o + 1 + (w + 1 - o) = w + 2 by omega]) (by omega)
  rw [Nat.pow_succ] at hlt
  exact ⟨by omega, heq ▸ hv⟩

/-! ## The outcome of the adder -/

/-- The sum stands for `v`: it is the sum in the frame, or the sticky bit of the frame is
not shifted up by the normalization. -/
def Carries (p : Widths) (a b : Unpacked) (v : ℚ) : Prop :=
  v = alignedSum p.inSigWidth (substractMagnitude a b) (a.mag p.inSigWidth) (b.mag p.inSigWidth) ∨
    Sticky (v / frameUnit p.inSigWidth (max (a.mag p.inSigWidth) (b.mag p.inSigWidth)))
      (sum p a b) ∧ normShift p a b ≤ p.inSigWidth + 1 - p.outSigWidth

section Result
variable (hp : Fits p) (ha : a.significand < 2 ^ p.inSigWidth)
  (hb : b.significand < 2 ^ p.inSigWidth) (hea : Headroom p f a.exponent)
  (heb : Headroom p f b.exponent)
include hp ha hb hea heb

theorem sticky_normSig (h0 : sum p a b ≠ 0) {v : ℚ} (hv : Carries p a b v) :
    Sticky (v / 2 ^ ((if swapOperand p a b then b.exponent else a.exponent) + 1 -
        normShift p a b - p.outSigWidth)) (jamShift (normSig p a b)
      (p.inSigWidth + 1 - p.outSigWidth)) := by
  obtain ⟨-, hlt, -⟩ := sum_eq hp ha hb hea.expFits heb.expFits
  have hu := frameUnit_max hp ha hb hea.expFits heb.expFits
  have hsum := sum_mul_frameUnit hp ha hb hea.expFits heb.expFits
  have hw := internalSigWidth_eq hp
  have hout := hp.outSig
  have hnorm : normSig p a b = sum p a b * 2 ^ normShift p a b := by
    rw [normSig, normShift, hw]
    exact (normalizeData_eq hlt h0).1
  set e := if swapOperand p a b then b.exponent else a.exponent
  set u := frameUnit p.inSigWidth (max (a.mag p.inSigWidth) (b.mag p.inSigWidth)) with hudef
  set k := p.inSigWidth + 1 - p.outSigWidth with hk
  have hupos : u ≠ 0 := by
    rw [hu]
    exact (zpow_pos two_pos _).ne'
  -- the unit of the result is that of the frame, moved by the two shifts
  have hunit : ∀ s : ℕ, (2 : ℚ) ^ (e + 1 - s - p.outSigWidth) * 2 ^ s = u * 2 ^ k := by
    intro s
    rw [hu, ← zpow_natCast, ← zpow_natCast, ← zpow_add₀ two_ne_zero, ← zpow_add₀ two_ne_zero]
    congr 1
    rw [hk, Nat.cast_sub (by omega)]
    push_cast
    ring
  have hpow2 : (0 : ℚ) < 2 ^ normShift p a b := pow_pos two_pos _
  have hq : ∀ x : ℚ, x / 2 ^ (e + 1 - normShift p a b - p.outSigWidth) =
      x / u * 2 ^ normShift p a b / 2 ^ k := by
    intro x
    rw [eq_div_iff (pow_pos two_pos k).ne', div_mul_eq_mul_div, div_mul_eq_mul_div,
      div_eq_div_iff (zpow_pos two_pos _).ne' hupos]
    rw [mul_assoc, mul_comm (2 ^ k : ℚ) u, ← hunit (normShift p a b)]
    ring
  rw [hnorm, hq]
  rcases hv with hv | ⟨hv, hs⟩
  · have heq : v / u * 2 ^ normShift p a b = (sum p a b * 2 ^ normShift p a b : ℕ) := by
      rw [hv, ← hsum, mul_div_cancel_right₀ _ hupos]
      push_cast
      rfl
    rw [heq]
    exact (Sticky.self _).shift k
  · have heq : v / u * 2 ^ normShift p a b / 2 ^ k = v / u / 2 ^ (k - normShift p a b) := by
      have hkk : (2 : ℚ) ^ k = 2 ^ (k - normShift p a b) * 2 ^ normShift p a b := by
        rw [← pow_add, Nat.sub_add_cancel hs]
      rw [hkk, mul_div_mul_right _ _ hpow2.ne']
    rw [jamShift_mul_pow _ hs, heq]
    exact hv.shift _

/-- Operands with zeros at the end lose nothing, or the sum keeps its sticky bit at the
bottom of the frame. -/
theorem carries_of_dvd {g : ℕ} (hg : g ≠ 0) (hga : 2 ^ g ∣ a.significand)
    (hgb : 2 ^ g ∣ b.significand) (hgw : g ≤ p.inSigWidth) (how : p.outSigWidth < p.inSigWidth) :
    Carries p a b (if substractMagnitude a b then
        max (a.mag p.inSigWidth) (b.mag p.inSigWidth) -
          min (a.mag p.inSigWidth) (b.mag p.inSigWidth)
      else max (a.mag p.inSigWidth) (b.mag p.inSigWidth) +
        min (a.mag p.inSigWidth) (b.mag p.inSigWidth)) := by
  obtain ⟨hle, hlt, hsum⟩ := sum_eq hp ha hb hea.expFits heb.expFits
  obtain ⟨big, small, hcase, hbig, hsmall, hmag, hmax, hmin, hB, hS⟩ :=
    exists_operands hp ha hb hea.expFits heb.expFits
  have htwo := hp.two_le
  have hpos : (0 : ℚ) < 2 ^ (big.exponent - p.inSigWidth) := zpow_pos two_pos _
  have hbigmag : big.mag p.inSigWidth =
      bigSignificandNorm p a b * 2 ^ (big.exponent - p.inSigWidth) := by
    rw [hB, Unpacked.mag]
    push_cast
    rfl
  have hsmallmag := mag_div_frameUnit hbig hsmall hmag
  rw [Unpacked.frameUnit_mag hbig] at hsmallmag
  obtain ⟨hgbig, hgsmall⟩ : 2 ^ g ∣ big.significand ∧ 2 ^ g ∣ small.significand := by
    rcases hcase with ⟨rfl, rfl, -⟩ | ⟨rfl, rfl, -⟩
    · exact ⟨hga, hgb⟩
    · exact ⟨hgb, hga⟩
  have hdvd : 2 ^ g ∣ 2 ^ p.inSigWidth + small.significand :=
    (Nat.dvd_add_iff_left hgsmall).mp (Nat.pow_dvd_pow 2 hgw)
  rw [Carries, hmax, hmin]
  rcases Nat.lt_or_ge g (big.exponent - small.exponent).toNat with hd | hd
  · -- the larger operand is even, and the difference has its leading one near the top
    right
    have heven : bigSignificandNorm p a b % 2 = 0 := by
      have h2 : 2 ∣ 2 ^ p.inSigWidth + big.significand :=
        (dvd_pow_self 2 hg).trans
          ((Nat.dvd_add_iff_left hgbig).mp (Nat.pow_dvd_pow 2 hgw))
      rw [hB]
      omega
    have hjam : smallSignificandNorm p a b < 2 ^ (p.inSigWidth - 1) := by
      rw [hS]
      refine jamShift_lt (lt_of_lt_of_le ?_ (Nat.pow_le_pow_right two_pos
        (by omega : p.inSigWidth + 1 ≤
          p.inSigWidth - 1 + (big.exponent - small.exponent).toNat))) (by omega)
      rw [Nat.pow_succ]
      omega
    have hsticky : Sticky (small.mag p.inSigWidth / 2 ^ (big.exponent - p.inSigWidth))
        (smallSignificandNorm p a b) := by
      rw [hsmallmag, hS]
      exact (Sticky.self _).shift _
    have hbigq : big.mag p.inSigWidth / 2 ^ (big.exponent - p.inSigWidth) =
        bigSignificandNorm p a b := by
      rw [hbigmag, mul_div_cancel_right₀ _ hpos.ne']
    have hpow : 2 ^ p.inSigWidth = 2 * 2 ^ (p.inSigWidth - 1) := by
      rw [← Nat.pow_succ', Nat.succ_eq_add_one]
      congr 1
      omega
    have hlow : 2 ^ (p.inSigWidth - 1) ≤ sum p a b := by
      rw [hsum]
      split_ifs <;> omega
    have h0 : sum p a b ≠ 0 := by
      have := Nat.two_pow_pos (p.inSigWidth - 1)
      omega
    rw [Unpacked.frameUnit_mag hbig, hsum]
    constructor
    · split_ifs
      · rw [sub_div, hbigq]
        exact hsticky.sub heven hle
      · rw [add_div, hbigq]
        exact hsticky.add heven
    · have hlog : p.inSigWidth - 1 ≤ Nat.log2 (sum p a b) := (Nat.le_log2 h0).mpr hlow
      rw [normShift, internalSigWidth_eq hp, normalizeShift_eq hlt h0]
      omega
  · -- nothing of the smaller operand is lost
    left
    obtain ⟨q, hq⟩ : 2 ^ (big.exponent - small.exponent).toNat ∣
        2 ^ p.inSigWidth + small.significand := (Nat.pow_dvd_pow 2 hd).trans hdvd
    have hexact : small.mag p.inSigWidth =
        smallSignificandNorm p a b * 2 ^ (big.exponent - p.inSigWidth) := by
      rw [hS, hq, Nat.mul_comm, jamShift_mul, ← div_eq_iff hpos.ne', hsmallmag, hq, Nat.mul_comm,
        Nat.cast_mul, Nat.cast_pow, Nat.cast_ofNat,
        mul_div_cancel_right₀ _ (pow_pos two_pos _).ne']
    rw [alignedSum, hmax, hmin, roundOdd_mag hbig hsmall hmag, ← hS,
      Unpacked.frameUnit_mag hbig, ← hexact]

/-- A sum of few units of the frame is a difference of numbers that it is far below. -/
theorem alignedSum_lt_min {k : ℕ} (hk : k + 2 ≤ p.inSigWidth) (hN : sum p a b ≤ 2 ^ k) :
    alignedSum p.inSigWidth (substractMagnitude a b) (a.mag p.inSigWidth) (b.mag p.inSigWidth) <
      min (a.mag p.inSigWidth) (b.mag p.inSigWidth) := by
  obtain ⟨hle, -, hsum⟩ := sum_eq hp ha hb hea.expFits heb.expFits
  have hmul := sum_mul_frameUnit hp ha hb hea.expFits heb.expFits
  obtain ⟨big, small, -, hbig, hsmall, hmag, hmax, hmin, hB, hS⟩ :=
    exists_operands hp ha hb hea.expFits heb.expFits
  have hpos : (0 : ℚ) < 2 ^ (big.exponent - p.inSigWidth) := zpow_pos two_pos _
  have hsticky : Sticky (small.mag p.inSigWidth / 2 ^ (big.exponent - p.inSigWidth))
      (smallSignificandNorm p a b) := by
    have hdiv := mag_div_frameUnit hbig hsmall hmag
    rw [Unpacked.frameUnit_mag hbig] at hdiv
    rw [hdiv, hS]
    exact (Sticky.self _).shift _
  have hpow : 2 ^ k * 4 ≤ 2 ^ p.inSigWidth := by
    rw [show 2 ^ k * 4 = 2 ^ (k + 2) by rw [Nat.pow_add]]
    exact Nat.pow_le_pow_right two_pos hk
  have hk1 := Nat.two_pow_pos k
  have hJ : sum p a b + 1 ≤ smallSignificandNorm p a b := by
    rw [hsum] at hN ⊢
    split_ifs at hN ⊢ <;> omega
  have hJ' : (sum p a b : ℚ) + 1 ≤ smallSignificandNorm p a b := by exact_mod_cast hJ
  have hgt := hsticky.gt
  rw [lt_div_iff₀ hpos] at hgt
  rw [← hmul, hmin, hmax, Unpacked.frameUnit_mag hbig]
  refine lt_of_le_of_lt ?_ hgt
  exact mul_le_mul_of_nonneg_right (by linarith) hpos.le

/-- Between the sum in the frame and the exact one there is no breakpoint of a format whose
significand is short enough. -/
theorem gap_alignedSum (f' : Format) (hw : f'.sigWidth + 3 ≤ p.inSigWidth)
    (hmin : min (a.mag p.inSigWidth) (b.mag p.inSigWidth) < 2 ^ (f'.maxExp + 1))
    (hne : ¬(f'.Representable (alignedSum p.inSigWidth (substractMagnitude a b)
        (a.mag p.inSigWidth) (b.mag p.inSigWidth)) ∧
      alignedSum p.inSigWidth (substractMagnitude a b) (a.mag p.inSigWidth)
        (b.mag p.inSigWidth) < 2 ^ (f'.maxExp + 1))) :
    f'.Gap (if substractMagnitude a b then
        max (a.mag p.inSigWidth) (b.mag p.inSigWidth) -
          min (a.mag p.inSigWidth) (b.mag p.inSigWidth)
      else max (a.mag p.inSigWidth) (b.mag p.inSigWidth) +
        min (a.mag p.inSigWidth) (b.mag p.inSigWidth))
      (alignedSum p.inSigWidth (substractMagnitude a b) (a.mag p.inSigWidth)
        (b.mag p.inSigWidth)) := by
  have hmul := sum_mul_frameUnit hp ha hb hea.expFits heb.expFits
  have hnear := abs_sub_alignedSum_lt p.inSigWidth (substractMagnitude a b)
    (a.mag_pos p.inSigWidth) (b.mag_pos p.inSigWidth)
  have hsmall := alignedSum_lt_min hp ha hb hea heb (k := f'.sigWidth + 1) (by omega)
  set y := alignedSum p.inSigWidth (substractMagnitude a b) (a.mag p.inSigWidth)
    (b.mag p.inSigWidth)
  obtain ⟨k, hu⟩ : ∃ k : ℤ, frameUnit p.inSigWidth
      (max (a.mag p.inSigWidth) (b.mag p.inSigWidth)) = 2 ^ k := ⟨_, rfl⟩
  rw [hu] at hmul hnear
  rw [← hmul] at hnear ⊢
  refine Format.gap_of_near ?_ hnear
  by_contra hfew
  rw [not_or, not_lt, not_lt] at hfew
  obtain ⟨hN, hk⟩ := hfew
  refine hne ⟨?_, (hsmall hN).trans hmin⟩
  rw [← hmul]
  rcases Nat.lt_or_eq_of_le hN with hlt | heq
  · exact ⟨sum p a b, k, hlt, hk, rfl⟩
  · rw [heq, Nat.cast_pow, Nat.cast_ofNat, ← zpow_natCast, ← zpow_add₀ two_ne_zero]
    exact f'.representable_two_pow (by push_cast; omega)

/-- The outputs for finite operands that are both not zero. -/
theorem add_means_number (rm : RoundingMode) (h0 : sum p a b ≠ 0)
    (hna : a.isNan = false ∧ a.isInf = false ∧ a.isZero = false)
    (hnb : b.isNan = false ∧ b.isInf = false ∧ b.isZero = false) {v : ℚ}
    (hv : Carries p a b v) :
    (add p rm a b).2.Means p.outExpWidth p.outSigWidth f (add p rm a b).1 false
      (.number (if a.mag p.inSigWidth < b.mag p.inSigWidth then b.sign else a.sign) v) := by
  obtain ⟨ha1, ha2, ha3⟩ := hna
  obtain ⟨hb1, hb2, hb3⟩ := hnb
  obtain ⟨-, hlt, -⟩ := sum_eq hp ha hb hea.expFits heb.expFits
  have hswap := swapOperand_iff hp ha hb hea.expFits heb.expFits
  have hw := internalSigWidth_eq hp
  have hnorm := normalizeData_eq hlt h0
  rw [← hnorm.1] at hnorm
  have hsig : normSig p a b = normalizeData (p.inSigWidth + 2) (sum p a b) := by rw [normSig, hw]
  have hshift : normShift p a b ≤ p.inSigWidth + 1 := by
    rw [normShift, hw, normalizeShift_eq hlt h0]
    omega
  have hexp : respExponent p a b =
      (if swapOperand p a b then b.exponent else a.exponent) + 1 - normShift p a b := by
    have hroom : Headroom p f (if swapOperand p a b then b.exponent else a.exponent) := by
      split_ifs
      · exact heb
      · exact hea
    rw [respExponent, if_neg (by simp [ha3]), if_neg (by simp [hb3]), ← hp.outExp, add_sub_assoc,
      wrap_bits_add, ← add_sub_assoc]
    exact (hroom.inRange hp (by omega) (by omega)).2
  have hout := sticky_outSignificand (M := normSig p a b) (e := respExponent p a b) hp.two_le
    hp.outSig (hsig ▸ hnorm.2.1) (hsig ▸ hnorm.2.2)
    (hexp ▸ sticky_normSig hp ha hb hea heb h0 hv)
  have hrange : RoundToIeee.InRange p.outExpWidth f (respExponent p a b) := by
    rw [hexp]
    split_ifs
    · exact (heb.inRange hp (by omega) (by omega)).1
    · exact (hea.inRange hp (by omega) (by omega)).1
  have hz : normZero p a b = false := beq_false_of_ne h0
  have hsign : (if a.mag p.inSigWidth < b.mag p.inSigWidth then b.sign else a.sign) =
      if swapOperand p a b then b.sign else a.sign := by
    simp only [hswap]
  simp only [add, Unpacked.Means, ha1, ha2, ha3, hb1, hb2, hb3, hz, hsign, respSig, hw,
    Bool.false_and, Bool.and_false, Bool.or_self, Bool.not_false, Bool.false_eq_true, if_false]
  exact ⟨trivial, trivial, trivial, trivial, trivial, hout.1, hrange, hout.2⟩

/-- The fields of the operands cancel, whether they stand for a number or for a zero. -/
theorem normZero_iff :
    normZero p a b = true ↔
      substractMagnitude a b = true ∧ a.mag p.inSigWidth = b.mag p.inSigWidth := by
  rw [normZero, beq_iff_eq]
  exact sum_eq_zero_iff hp ha hb hea.expFits heb.expFits

omit ha hb hea heb in
/-- The other operand of a zero is passed on. -/
theorem sticky_operand {u : Unpacked} (hu : u.significand < 2 ^ p.inSigWidth)
    (heu : Headroom p f u.exponent) :
    RoundToIeee.InRange p.outExpWidth f u.exponent ∧
      wrap p.outExpWidth (bits p.inExpWidth u.exponent) = u.exponent ∧
      cat (slice (cat (significandExt p u) 1 0) p.inSigWidth
        (p.inSigWidth - p.outSigWidth + 2)) 1
        (slice (cat (significandExt p u) 1 0) (p.inSigWidth - p.outSigWidth + 1) 0 != 0).toNat <
          2 ^ p.outSigWidth ∧
      Sticky (u.mag p.inSigWidth / 2 ^ (u.exponent - p.outSigWidth)) (2 ^ p.outSigWidth +
        cat (slice (cat (significandExt p u) 1 0) p.inSigWidth
          (p.inSigWidth - p.outSigWidth + 2)) 1
          (slice (cat (significandExt p u) 1 0) (p.inSigWidth - p.outSigWidth + 1) 0 !=
            0).toNat) := by
  obtain ⟨hrange, hwrap⟩ := heu.inRange hp (x := u.exponent) (by omega) (by omega)
  have hout := hp.outSig
  have hM : cat (significandExt p u) 1 0 = (2 ^ p.inSigWidth + u.significand) * 2 ^ 1 := by
    rw [significandExt_eq hp, cat, Nat.add_zero]
  have hlo : 2 ^ (p.inSigWidth + 1) ≤ cat (significandExt p u) 1 0 := by
    rw [hM, Nat.pow_succ]
    omega
  have hhi : cat (significandExt p u) 1 0 < 2 ^ (p.inSigWidth + 2) := by
    rw [hM, Nat.pow_add]
    omega
  have hmag : u.mag p.inSigWidth / 2 ^ (u.exponent - p.outSigWidth) =
      ((2 ^ p.inSigWidth + u.significand) * 2 ^ 1 : ℕ) /
        2 ^ (p.inSigWidth + 1 - p.outSigWidth) := by
    have hpow : (2 : ℚ) ^ (u.exponent - p.inSigWidth) * 2 ^ (p.inSigWidth + 1 - p.outSigWidth) =
        2 * 2 ^ (u.exponent - p.outSigWidth) := by
      rw [← zpow_natCast, ← zpow_add₀ two_ne_zero, ← zpow_one_add₀ two_ne_zero,
        Nat.cast_sub (by omega)]
      congr 1
      push_cast
      ring
    rw [Unpacked.mag, div_eq_div_iff (zpow_pos two_pos _).ne' (pow_pos two_pos _).ne', mul_assoc,
      hpow]
    push_cast
    ring
  have hsticky := sticky_outSignificand (M := cat (significandExt p u) 1 0) (e := u.exponent)
    (v := u.mag p.inSigWidth) hp.two_le hout hlo hhi (by
      rw [hmag, hM]
      exact (Sticky.self _).shift _)
  refine ⟨hrange, ?_, hsticky.1, hsticky.2⟩
  have h := wrap_bits_add p.outExpWidth u.exponent 0
  rw [add_zero, add_zero, hwrap, hp.outExp] at h
  rw [hp.outExp]
  exact h

omit ha hea in
theorem add_means_left_zero (rm : RoundingMode)
    (hna : a.isNan = false ∧ a.isInf = false ∧ a.isZero = true)
    (hnb : b.isNan = false ∧ b.isInf = false ∧ b.isZero = false) :
    (add p rm a b).2.Means p.outExpWidth p.outSigWidth f (add p rm a b).1 false
      (if normZero p a b then .zero b.sign else .number b.sign (b.mag p.inSigWidth)) := by
  obtain ⟨ha1, ha2, ha3⟩ := hna
  obtain ⟨hb1, hb2, hb3⟩ := hnb
  obtain ⟨hrange, hwrap, hlt, hsticky⟩ := sticky_operand hp hb heb
  have hw := internalSigWidth_eq hp
  cases hz : normZero p a b with
  | true => simp [add, Unpacked.Means, ha1, ha2, ha3, hb1, hb2, hb3, hz]
  | false =>
      simp only [add, Unpacked.Means, ha1, ha2, ha3, hb1, hb2, hb3, hz, respSig, respExponent, hw,
        hwrap, Bool.false_and, Bool.and_false, Bool.or_self, Bool.not_false, Bool.false_eq_true,
        if_false, if_true]
      exact ⟨trivial, trivial, trivial, trivial, trivial, hlt, hrange, hsticky⟩

omit hb heb in
theorem add_means_right_zero (rm : RoundingMode)
    (hna : a.isNan = false ∧ a.isInf = false ∧ a.isZero = false)
    (hnb : b.isNan = false ∧ b.isInf = false ∧ b.isZero = true) :
    (add p rm a b).2.Means p.outExpWidth p.outSigWidth f (add p rm a b).1 false
      (if normZero p a b then .zero a.sign else .number a.sign (a.mag p.inSigWidth)) := by
  obtain ⟨ha1, ha2, ha3⟩ := hna
  obtain ⟨hb1, hb2, hb3⟩ := hnb
  obtain ⟨hrange, hwrap, hlt, hsticky⟩ := sticky_operand hp ha hea
  have hw := internalSigWidth_eq hp
  cases hz : normZero p a b with
  | true => simp [add, Unpacked.Means, ha1, ha2, ha3, hb1, hb2, hb3, hz]
  | false =>
      simp only [add, Unpacked.Means, ha1, ha2, ha3, hb1, hb2, hb3, hz, respSig, respExponent, hw,
        hwrap, Bool.false_and, Bool.and_false, Bool.or_self, Bool.not_false, Bool.and_true,
        Bool.false_eq_true, if_false, if_true]
      exact ⟨trivial, trivial, trivial, trivial, trivial, hlt, hrange, hsticky⟩

omit ha hb hea heb hp in
theorem add_means_both_zero (rm : RoundingMode)
    (hna : a.isNan = false ∧ a.isInf = false ∧ a.isZero = true)
    (hnb : b.isNan = false ∧ b.isInf = false ∧ b.isZero = true) :
    (add p rm a b).2.Means (K := ℚ) p.outExpWidth p.outSigWidth f (add p rm a b).1 false
      (.zero (if a.sign = b.sign then a.sign else rm == .towardNegative)) := by
  obtain ⟨ha1, ha2, ha3⟩ := hna
  obtain ⟨hb1, hb2, hb3⟩ := hnb
  have hsub : substractMagnitude a b = !decide (a.sign = b.sign) := by
    rw [substractMagnitude]
    cases a.sign <;> cases b.sign <;> rfl
  by_cases h : a.sign = b.sign <;>
    simp [add, Unpacked.Means, ha1, ha2, ha3, hb1, hb2, hb3, hsub, h]

omit hp ha hb hea heb in
theorem add_means_cancel (rm : RoundingMode) (hz : normZero p a b = true)
    (hna : a.isNan = false ∧ a.isInf = false ∧ a.isZero = false)
    (hnb : b.isNan = false ∧ b.isInf = false ∧ b.isZero = false) :
    (add p rm a b).2.Means (K := ℚ) p.outExpWidth p.outSigWidth f (add p rm a b).1 false
      (.zero (rm == .towardNegative)) := by
  obtain ⟨ha1, ha2, ha3⟩ := hna
  obtain ⟨hb1, hb2, hb3⟩ := hnb
  simp [add, Unpacked.Means, ha1, ha2, ha3, hb1, hb2, hb3, hz]

/-- One operand is a zero and its fields cancel those of the other one. -/
def Clash (w : ℕ) (a b : Unpacked) : Prop :=
  a.isNan = false ∧ a.isInf = false ∧ b.isNan = false ∧ b.isInf = false ∧
    a.isZero ≠ b.isZero ∧ a.sign ≠ b.sign ∧ a.mag w = b.mag w

/-- What the adder hands on for finite operands without a clash. -/
theorem add_means_finite (rm : RoundingMode) {s t : Bool} {m n v : ℚ}
    (hda : a.Denotes p.inSigWidth (.finite s m)) (hdb : b.Denotes p.inSigWidth (.finite t n))
    (hclash : ¬Clash p.inSigWidth a b)
    (hv : m ≠ 0 → n ≠ 0 → sum p a b ≠ 0 → Carries p a b v) (hvm : m = 0 → v = n)
    (hvn : n = 0 → v = m) :
    (add p rm a b).2.Means p.outExpWidth p.outSigWidth f (add p rm a b).1 false
      ((Format.sum rm s m t n).withNumber v) := by
  obtain ⟨ha1, ha2, ha3, rfl, ha5⟩ := hda
  obtain ⟨hb1, hb2, hb3, rfl, hb5⟩ := hdb
  have hz := normZero_iff hp ha hb hea heb
  rw [substractMagnitude, bne_iff_ne] at hz
  have hzero : ∀ {u : Unpacked} {q : ℚ}, (u.isZero = true ↔ q = 0) → q ≠ 0 → u.isZero = false :=
    fun h hq => Bool.eq_false_iff.mpr fun hu => hq (h.mp hu)
  have hnorm : a.isZero ≠ b.isZero → normZero p a b = false := fun hne =>
    Bool.eq_false_iff.mpr fun h =>
      hclash ⟨ha1, ha2, hb1, hb2, hne, (hz.mp h).1, (hz.mp h).2⟩
  by_cases hm : m = 0
  · have haz := ha3.mpr hm
    by_cases hn : n = 0
    · rw [hm, hn, Format.sum_zero_zero]
      exact add_means_both_zero rm ⟨ha1, ha2, haz⟩ ⟨hb1, hb2, hb3.mpr hn⟩
    · have hbz := hzero hb3 hn
      have hpos : 0 < n := hb5 hn ▸ b.mag_pos p.inSigWidth
      have hmeans := add_means_left_zero (f := f) hp hb heb rm ⟨ha1, ha2, haz⟩ ⟨hb1, hb2, hbz⟩
      rw [hnorm (by rw [haz, hbz]; decide), hb5 hn] at hmeans
      rw [hm, Format.sum_zero_left rm _ _ hpos, hvm hm]
      exact hmeans
  · have haz := hzero ha3 hm
    have hmpos : 0 < m := ha5 hm ▸ a.mag_pos p.inSigWidth
    by_cases hn : n = 0
    · have hbz := hb3.mpr hn
      have hmeans := add_means_right_zero (f := f) hp ha hea rm ⟨ha1, ha2, haz⟩ ⟨hb1, hb2, hbz⟩
      rw [hnorm (by rw [haz, hbz]; decide), ha5 hm] at hmeans
      rw [hn, Format.sum_zero_right rm _ _ hmpos, hvn hn]
      exact hmeans
    · have hbz := hzero hb3 hn
      have hnpos : 0 < n := hb5 hn ▸ b.mag_pos p.inSigWidth
      rw [Format.sum_eq rm _ _ hmpos hnpos]
      rw [ha5 hm, hb5 hn] at hz
      by_cases h0 : sum p a b = 0
      · have hn0 : normZero p a b = true := beq_iff_eq.mpr h0
        obtain ⟨hs, hmn⟩ := hz.mp hn0
        rw [if_neg hs, if_pos hmn]
        exact add_means_cancel rm hn0 ⟨ha1, ha2, haz⟩ ⟨hb1, hb2, hbz⟩
      · have hmeans := add_means_number (f := f) hp ha hb hea heb rm h0 ⟨ha1, ha2, haz⟩
          ⟨hb1, hb2, hbz⟩ (hv hm hn h0)
        have hne : ¬(a.sign ≠ b.sign ∧ m = n) := fun h =>
          h0 (beq_iff_eq.mp (hz.mpr h))
        rw [ha5 hm, hb5 hn] at hmeans
        by_cases hs : a.sign = b.sign
        · rw [if_pos hs]
          rw [hs, ite_self] at hmeans
          rw [hs]
          exact hmeans
        · rw [if_neg hs, if_neg fun h => hne ⟨hs, h⟩]
          exact hmeans

/-- A clash gives a zero with the sign of the other operand. -/
theorem add_means_clash (rm : RoundingMode) (h : Clash p.inSigWidth a b) :
    (add p rm a b).2.Means (K := ℚ) p.outExpWidth p.outSigWidth f (add p rm a b).1 false
      (.zero (if a.isZero then b.sign else a.sign)) := by
  obtain ⟨ha1, ha2, hb1, hb2, hne, hs, hmag⟩ := h
  have hz := normZero_iff hp ha hb hea heb
  rw [substractMagnitude, bne_iff_ne] at hz
  have hz' := hz.mpr ⟨hs, hmag⟩
  cases haz : a.isZero with
  | true =>
      have hbz : b.isZero = false := by simpa [haz] using hne.symm
      have hmeans := add_means_left_zero (f := f) hp hb heb rm ⟨ha1, ha2, haz⟩ ⟨hb1, hb2, hbz⟩
      rwa [hz'] at hmeans
  | false =>
      have hbz : b.isZero = true := by simpa [haz] using hne.symm
      have hmeans := add_means_right_zero (f := f) hp ha hea rm ⟨ha1, ha2, haz⟩ ⟨hb1, hb2, hbz⟩
      rwa [hz'] at hmeans

/-- What the adder hands on without a clash. -/
theorem add_means (rm : RoundingMode) {da db : Format.Datum} {v : ℚ}
    (hda : a.Denotes p.inSigWidth da) (hdb : b.Denotes p.inSigWidth db)
    (hclash : ¬Clash p.inSigWidth a b)
    (hv : ∀ s m t n, da = .finite s m → db = .finite t n →
      (m ≠ 0 → n ≠ 0 → sum p a b ≠ 0 → Carries p a b v) ∧ (m = 0 → v = n) ∧ (n = 0 → v = m)) :
    (add p rm a b).2.Means p.outExpWidth p.outSigWidth f (add p rm a b).1 false
      ((da.add rm db).withNumber v) := by
  cases da with
  | nan s =>
      obtain ⟨ha1, ha2, ha3, ha4⟩ := hda
      rw [Unpacked.isSignaling, ha1, Bool.true_and] at ha4
      cases db with
      | nan t =>
          obtain ⟨hb1, hb2, hb3, hb4⟩ := hdb
          rw [Unpacked.isSignaling, hb1, Bool.true_and] at hb4
          simp [Format.Datum.add, Format.Outcome.withNumber, Unpacked.Means, add, ha1, ha2, ha4,
            hb1, hb4]
      | inf t =>
          obtain ⟨hb1, hb2, hb3, hb4⟩ := hdb
          simp [Format.Datum.add, Format.Outcome.withNumber, Unpacked.Means, add, ha1, ha2, ha4,
            hb1]
      | finite t n =>
          obtain ⟨hb1, hb2, hb3, hb4⟩ := hdb
          simp [Format.Datum.add, Format.Outcome.withNumber, Unpacked.Means, add, ha1, ha2, ha4,
            hb1]
  | inf s =>
      obtain ⟨ha1, ha2, ha3, rfl⟩ := hda
      cases db with
      | nan t =>
          obtain ⟨hb1, hb2, hb3, hb4⟩ := hdb
          rw [Unpacked.isSignaling, hb1, Bool.true_and] at hb4
          simp [Format.Datum.add, Format.Outcome.withNumber, Unpacked.Means, add, ha1, hb1,
            hb2, hb4]
      | inf t =>
          obtain ⟨hb1, hb2, hb3, rfl⟩ := hdb
          rw [Format.Datum.add]
          by_cases hs : a.sign = b.sign
          · simp [Format.Outcome.withNumber, Unpacked.Means, add, ha1, ha2, hb1, hb2, hs,
              substractMagnitude]
          · have hsub : substractMagnitude a b = true := by
              rw [substractMagnitude, bne_iff_ne]
              exact hs
            simp [Format.Outcome.withNumber, Unpacked.Means, add, ha1, ha2, hb1, hb2, hs, hsub]
      | finite t n =>
          obtain ⟨hb1, hb2, hb3, hb4⟩ := hdb
          simp [Format.Datum.add, Format.Outcome.withNumber, Unpacked.Means, add, ha1, ha2,
            hb1, hb2]
  | finite s m =>
      cases db with
      | nan t =>
          obtain ⟨ha1, ha2, ha3, -⟩ := hda
          obtain ⟨hb1, hb2, hb3, hb4⟩ := hdb
          rw [Unpacked.isSignaling, hb1, Bool.true_and] at hb4
          simp [Format.Datum.add, Format.Outcome.withNumber, Unpacked.Means, add, ha1, hb1,
            hb2, hb4]
      | inf t =>
          obtain ⟨ha1, ha2, ha3, -⟩ := hda
          obtain ⟨hb1, hb2, hb3, rfl⟩ := hdb
          simp [Format.Datum.add, Format.Outcome.withNumber, Unpacked.Means, add, ha1, ha2,
            hb1, hb2]
      | finite t n =>
          obtain ⟨hvm, hv0, hv1⟩ := hv s m t n rfl rfl
          exact add_means_finite hp ha hb hea heb rm hda hdb hclash hvm hv0 hv1

end Result

end AddUnit

/-! ## The product and the addend as operands of the adder -/

section MulAdd
variable {we w : ℕ} {a b c : Unpacked} {da db dc : Format.Datum}

/-- The product as the adder gets it. -/
def product (we w : ℕ) (a b : Unpacked) : Unpacked :=
  { (mul we w a b).2 with
    significand :=
      cat (if (mul we w a b).2.isNan then 1
        else ((mul we w a b).2.significand.testBit (w * 2)).toNat) (w * 2)
        (slice (mul we w a b).2.significand (w * 2 - 1) 0) }

/-- The addend with the widths of the product. -/
def addend (we w : ℕ) (c : Unpacked) : Unpacked :=
  { c with exponent := wrap (we + 1) c.exponent, significand := cat c.significand (w + 1) 0 }

/-- The widths of the adder in the fused unit. -/
def fmaParams (we w oe oW : ℕ) : Widths := ⟨we + 1, w * 2 + 1, oe, oW⟩

theorem mulAdd_eq (we w oe oW : ℕ) (rm : RoundingMode) (a b c : Unpacked) :
    mulAdd we w oe oW rm a b c =
      ((mul we w a b).1 || (add (fmaParams we w oe oW) rm (product we w a b) (addend we w c)).1,
      (add (fmaParams we w oe oW) rm (product we w a b) (addend we w c)).2) := rfl

section Product
variable (hw : w ≠ 0) (hwe : we ≠ 0) (ha : a.significand < 2 ^ w) (hb : b.significand < 2 ^ w)
include hw ha hb

theorem product_significand (hn : (mul we w a b).2.isNan = false) :
    (product we w a b).significand = (mul we w a b).2.significand := by
  have hlt : (mul we w a b).2.significand < 2 ^ (w * 2 + 1) :=
    MulUnit.productSignificandNorm_lt ha hb hw
  have hdiv : (mul we w a b).2.significand / 2 ^ (w * 2) < 2 :=
    Nat.div_lt_of_lt_mul (by rwa [← Nat.pow_succ])
  have hbit : ((mul we w a b).2.significand.testBit (w * 2)).toNat =
      (mul we w a b).2.significand / 2 ^ (w * 2) := by
    rw [Nat.testBit_eq_decide_div_mod_eq, Nat.mod_eq_of_lt hdiv]
    generalize (mul we w a b).2.significand / 2 ^ (w * 2) = q at hdiv ⊢
    obtain rfl | rfl : q = 0 ∨ q = 1 := by omega
    · rfl
    · rfl
  rw [product, hn]
  simp only [Bool.false_eq_true, if_false, hbit]
  rw [slice, Nat.pow_zero, Nat.div_one, show w * 2 - 1 + 1 - 0 = w * 2 by omega, cat_div_mod]

theorem product_significand_lt : (product we w a b).significand < 2 ^ (w * 2 + 1) := by
  cases hn : (mul we w a b).2.isNan with
  | false =>
      rw [product_significand hw ha hb hn]
      exact MulUnit.productSignificandNorm_lt ha hb hw
  | true =>
      have hs : slice (mul we w a b).2.significand (w * 2 - 1) 0 < 2 ^ (w * 2) := by
        have h := slice_lt (mul we w a b).2.significand (w * 2 - 1) 0
        rwa [show w * 2 - 1 + 1 - 0 = w * 2 by omega] at h
      simp only [product, hn, if_true, cat]
      rw [Nat.pow_succ]
      omega

include hwe

theorem mag_product (hea : MulUnit.ExpFits we a.exponent) (heb : MulUnit.ExpFits we b.exponent)
    (hn : (mul we w a b).2.isNan = false) :
    (product we w a b).mag (w * 2 + 1) = a.mag w * b.mag w := by
  rw [← MulUnit.mag_mul hw hwe ha hb hea heb, Unpacked.mag, Unpacked.mag,
    product_significand hw ha hb hn]
  rfl

/-- The product as an operand of the adder, unless it is invalid. -/
theorem denotes_product (hea : MulUnit.ExpFits we a.exponent) (heb : MulUnit.ExpFits we b.exponent)
    (hda : a.Denotes w da) (hdb : b.Denotes w db) (hinv : (mul we w a b).1 = false) :
    (product we w a b).Denotes (w * 2 + 1) (da.mul db) := by
  have hmag := mag_product hw hwe ha hb hea heb
  have hquiet : (mul we w a b).2.isNan = true →
      (product we w a b).isSignaling (w * 2 + 1) = false := by
    intro hn
    have hs : slice (mul we w a b).2.significand (w * 2 - 1) 0 < 2 ^ (w * 2) := by
      have h := slice_lt (mul we w a b).2.significand (w * 2 - 1) 0
      rwa [show w * 2 - 1 + 1 - 0 = w * 2 by omega] at h
    have hbit : (product we w a b).significand.testBit (w * 2) = true := by
      simp only [product, hn, if_true]
      rw [Nat.testBit_eq_decide_div_mod_eq, cat_div hs]
      rfl
    rw [Unpacked.isSignaling, Nat.add_sub_cancel, hbit, Bool.not_true, Bool.and_false]
  have hvalid : (a.isSignaling w || b.isSignaling w || (a.isInf && b.isZero) ||
      (a.isZero && b.isInf)) = false := hinv
  rw [Bool.or_eq_false_iff, Bool.or_eq_false_iff, Bool.or_eq_false_iff] at hvalid
  obtain ⟨⟨⟨hsa, hsb⟩, hab⟩, hba⟩ := hvalid
  have hnan : (a.isNan || b.isNan) = true →
      (product we w a b).Denotes (w * 2 + 1) (.nan false) := by
    intro hn
    refine ⟨hn, ?_, ?_, hquiet hn⟩ <;> simp only [product, mul, hn] <;> rfl
  cases da with
  | nan s =>
      obtain ⟨ha1, ha2, ha3, rfl⟩ := hda
      have hden := hnan (by rw [ha1, Bool.true_or])
      cases db with
      | nan t =>
          obtain ⟨hb1, hb2, hb3, rfl⟩ := hdb
          rw [Format.Datum.mul, hsa, hsb]
          exact hden
      | inf t => exact hsa ▸ hden
      | finite t n => exact hsa ▸ hden
  | inf s =>
      obtain ⟨ha1, ha2, ha3, rfl⟩ := hda
      cases db with
      | nan t =>
          obtain ⟨hb1, hb2, hb3, rfl⟩ := hdb
          exact hsb ▸ hnan (by rw [hb1, Bool.or_true])
      | inf t =>
          obtain ⟨hb1, hb2, hb3, rfl⟩ := hdb
          simp [Format.Datum.mul, Unpacked.Denotes, product, mul, ha1, ha2, ha3, hb1, hb3]
      | finite t n =>
          obtain ⟨hb1, hb2, hb3, rfl, hb5⟩ := hdb
          have hbz : b.isZero = false := by simpa [ha2] using hab
          have hn : n ≠ 0 := fun h => by simp [hb3.mpr h] at hbz
          simp [Format.Datum.mul, Unpacked.Denotes, product, mul, ha1, ha2, ha3, hb1, hbz, hn]
  | finite s m =>
      obtain ⟨ha1, ha2, ha3, rfl, ha5⟩ := hda
      cases db with
      | nan t =>
          obtain ⟨hb1, hb2, hb3, rfl⟩ := hdb
          exact hsb ▸ hnan (by rw [hb1, Bool.or_true])
      | inf t =>
          obtain ⟨hb1, hb2, hb3, rfl⟩ := hdb
          have haz : a.isZero = false := by simpa [hb2] using hba
          have hm : m ≠ 0 := fun h => by simp [ha3.mpr h] at haz
          simp [Format.Datum.mul, Unpacked.Denotes, product, mul, ha1, hb1, hb2, hb3, haz, hm]
      | finite t n =>
          obtain ⟨hb1, hb2, hb3, rfl, hb5⟩ := hdb
          have hn : (mul we w a b).2.isNan = false := by simp [mul, ha1, hb1]
          refine ⟨hn, ?_, ?_, rfl, fun hne => ?_⟩
          · simp [product, mul, ha2, hb2]
          · simp [product, mul, ha1, hb1, ha3, hb3]
          · rw [hmag hn, ha5 (left_ne_zero_of_mul hne), hb5 (right_ne_zero_of_mul hne)]

omit hwe in
/-- The zeros at the ends of the operands are at the end of the product. -/
theorem dvd_product {g k : ℕ} (hg : 2 ^ g ∣ a.significand) (hk : 2 ^ k ∣ b.significand)
    (hgw : g ≤ w) (hkw : k ≤ w) (hn : (mul we w a b).2.isNan = false) :
    2 ^ (g + k) ∣ (product we w a b).significand := by
  have hext : 2 ^ (g + k) ∣ MulUnit.productSignificandExt w a b := by
    rw [Nat.pow_add]
    refine Nat.mul_dvd_mul ?_ ?_
    · exact Nat.dvd_add (dvd_mul_of_dvd_right (Nat.pow_dvd_pow 2 hgw) 1) hg
    · exact Nat.dvd_add (dvd_mul_of_dvd_right (Nat.pow_dvd_pow 2 hkw) 1) hk
  have hnorm := MulUnit.productSignificandNorm_eq ha hb hw
  have htop : 2 ^ (g + k) ∣ 2 ^ (w * 2 + 1) := Nat.pow_dvd_pow 2 (by omega)
  rw [product_significand hw ha hb hn]
  change 2 ^ (g + k) ∣ MulUnit.productSignificandNorm w a b
  refine (Nat.dvd_add_right htop).mp ?_
  rw [hnorm]
  split_ifs
  · exact hext
  · exact dvd_mul_of_dvd_right hext 2

omit hw hwe ha hb in
theorem mul_eq_nan (hda : a.Denotes w da) (hdb : b.Denotes w db)
    (hinv : (mul we w a b).1 = true) : da.mul db = .nan true := by
  have hinvalid : (a.isSignaling w || b.isSignaling w || (a.isInf && b.isZero) ||
      (a.isZero && b.isInf)) = true := hinv
  cases da with
  | nan s =>
      obtain ⟨ha1, ha2, ha3, rfl⟩ := hda
      cases db with
      | nan t =>
          obtain ⟨hb1, hb2, hb3, rfl⟩ := hdb
          rw [Format.Datum.mul]
          simpa [ha2, ha3] using hinvalid
      | inf t =>
          obtain ⟨hb1, hb2, hb3, rfl⟩ := hdb
          change Format.Datum.nan (a.isSignaling w) = .nan true
          simpa [ha2, ha3, hb1, Unpacked.isSignaling] using hinvalid
      | finite t n =>
          obtain ⟨hb1, hb2, hb3, rfl, hb5⟩ := hdb
          change Format.Datum.nan (a.isSignaling w) = .nan true
          simpa [ha2, ha3, hb1, Unpacked.isSignaling] using hinvalid
  | inf s =>
      obtain ⟨ha1, ha2, ha3, rfl⟩ := hda
      cases db with
      | nan t =>
          obtain ⟨hb1, hb2, hb3, rfl⟩ := hdb
          change Format.Datum.nan (b.isSignaling w) = .nan true
          simpa [ha1, hb2, hb3, Unpacked.isSignaling] using hinvalid
      | inf t =>
          obtain ⟨hb1, hb2, hb3, rfl⟩ := hdb
          simp [ha1, hb1, hb3, ha3, Unpacked.isSignaling] at hinvalid
      | finite t n =>
          obtain ⟨hb1, hb2, hb3, rfl, hb5⟩ := hdb
          have hn : n = 0 := by
            simpa [ha1, ha2, ha3, hb1, hb3, Unpacked.isSignaling] using hinvalid
          rw [Format.Datum.mul, if_pos hn]
  | finite s m =>
      obtain ⟨ha1, ha2, ha3, rfl, ha5⟩ := hda
      cases db with
      | nan t =>
          obtain ⟨hb1, hb2, hb3, rfl⟩ := hdb
          change Format.Datum.nan (b.isSignaling w) = .nan true
          simpa [ha1, ha2, hb2, Unpacked.isSignaling] using hinvalid
      | inf t =>
          obtain ⟨hb1, hb2, hb3, rfl⟩ := hdb
          have hm : m = 0 := by
            simpa [ha1, ha2, ha3, hb1, hb2, Unpacked.isSignaling] using hinvalid
          rw [Format.Datum.mul, if_pos hm]
      | finite t n =>
          obtain ⟨hb1, hb2, hb3, rfl, hb5⟩ := hdb
          simp [ha1, ha2, hb1, hb2, Unpacked.isSignaling] at hinvalid

end Product

section Addend

theorem addend_significand_lt (hc : c.significand < 2 ^ w) :
    (addend we w c).significand < 2 ^ (w * 2 + 1) := by
  change cat c.significand (w + 1) 0 < _
  rw [cat, Nat.add_zero, show w * 2 + 1 = w + (w + 1) by ring, Nat.pow_add 2 w (w + 1)]
  exact Nat.mul_lt_mul_of_pos_right hc (Nat.two_pow_pos _)

theorem addend_exponent (hwe : we ≠ 0) (hec : MulUnit.ExpFits we c.exponent) :
    (addend we w c).exponent = c.exponent := by
  obtain ⟨hc1, hc2⟩ := hec
  have hpow : (2 : ℤ) ^ (we + 1) = 4 * 2 ^ (we - 1) := by
    rw [show we + 1 = we - 1 + 2 by omega, pow_add]
    ring
  exact wrap_eq (by omega) (by omega)

theorem mag_addend (hwe : we ≠ 0) (hec : MulUnit.ExpFits we c.exponent) :
    (addend we w c).mag (w * 2 + 1) = c.mag w := by
  have hpow : (2 : ℚ) ^ (c.exponent - w) = 2 ^ (w + 1) * 2 ^ (c.exponent - (w * 2 + 1 : ℕ)) := by
    rw [← zpow_natCast, ← zpow_add₀ two_ne_zero]
    congr 1
    push_cast
    ring
  rw [Unpacked.mag, Unpacked.mag, addend_exponent hwe hec, hpow]
  change (2 ^ (w * 2 + 1) + (cat c.significand (w + 1) 0 : ℚ)) * _ = _
  rw [cat]
  push_cast
  ring

theorem denotes_addend (hw : w ≠ 0) (hwe : we ≠ 0) (hec : MulUnit.ExpFits we c.exponent)
    (hdc : c.Denotes w dc) : (addend we w c).Denotes (w * 2 + 1) dc := by
  have hsig : (addend we w c).isSignaling (w * 2 + 1) = c.isSignaling w := by
    have hle : w + 1 ≤ w * 2 := by omega
    rw [Unpacked.isSignaling, Unpacked.isSignaling, Nat.add_sub_cancel]
    change (c.isNan && !(cat c.significand (w + 1) 0).testBit (w * 2)) = _
    rw [cat, Nat.add_zero, Nat.testBit_mul_two_pow, decide_eq_true hle, Bool.true_and,
      show w * 2 - (w + 1) = w - 1 by omega]
  cases dc with
  | nan s =>
      obtain ⟨hc1, hc2, hc3, hc4⟩ := hdc
      exact ⟨hc1, hc2, hc3, hsig.trans hc4⟩
  | inf s => exact hdc
  | finite s m =>
      obtain ⟨hc1, hc2, hc3, hc4, hc5⟩ := hdc
      exact ⟨hc1, hc2, hc3, hc4, fun hne => (mag_addend hwe hec).trans (hc5 hne)⟩

end Addend

/-- The operands of a fused multiply-add whose exponents fit the widths of the unit. -/
structure Ready (we w oe oW : ℕ) (f : Format) (a b c : Unpacked) : Prop where
  fits : AddUnit.Fits (fmaParams we w oe oW)
  two_le : 2 ≤ w
  exp : we ≠ 0
  a_lt : a.significand < 2 ^ w
  b_lt : b.significand < 2 ^ w
  c_lt : c.significand < 2 ^ w
  a_fits : MulUnit.ExpFits we a.exponent
  b_fits : MulUnit.ExpFits we b.exponent
  c_fits : MulUnit.ExpFits we c.exponent
  product_room : ∀ e, a.exponent + b.exponent ≤ e → e ≤ a.exponent + b.exponent + 1 →
    AddUnit.Headroom (fmaParams we w oe oW) f e
  addend_room : AddUnit.Headroom (fmaParams we w oe oW) f c.exponent

section Means
variable {oe oW : ℕ} {f : Format} (h : Ready we w oe oW f a b c)
include h

theorem Ready.product_headroom :
    AddUnit.Headroom (fmaParams we w oe oW) f (product we w a b).exponent := by
  have hexp : (product we w a b).exponent =
      a.exponent + b.exponent + (MulUnit.productCarry w a b).toNat :=
    MulUnit.productExpNorm_eq h.exp h.a_fits h.b_fits
  have hc := Bool.toNat_le (MulUnit.productCarry w a b)
  rw [hexp]
  exact h.product_room _ (by omega) (by omega)

theorem Ready.addend_headroom :
    AddUnit.Headroom (fmaParams we w oe oW) f (addend we w c).exponent := by
  rw [addend_exponent h.exp h.c_fits]
  exact h.addend_room

/-- What the fused multiply-add hands on without a clash of the product and the addend. -/
theorem mulAdd_means (rm : RoundingMode) {v : ℚ} (hda : a.Denotes w da) (hdb : b.Denotes w db)
    (hdc : c.Denotes w dc)
    (hclash : ¬AddUnit.Clash (w * 2 + 1) (product we w a b) (addend we w c))
    (hv : ∀ s m t n, da.mul db = .finite s m → dc = .finite t n →
      (m ≠ 0 → n ≠ 0 → AddUnit.sum (fmaParams we w oe oW) (product we w a b) (addend we w c) ≠ 0 →
        AddUnit.Carries (fmaParams we w oe oW) (product we w a b) (addend we w c) v) ∧
      (m = 0 → v = n) ∧ (n = 0 → v = m)) :
    (mulAdd we w oe oW rm a b c).2.Means oe oW f (mulAdd we w oe oW rm a b c).1 false
      ((Format.fma rm da db dc).withNumber v) := by
  have hw := h.two_le
  rw [mulAdd_eq]
  cases hinv : (mul we w a b).1 with
  | true =>
      rw [Format.fma, mul_eq_nan hda hdb hinv]
      cases dc <;> simp [Format.Datum.add, Format.Outcome.withNumber, Unpacked.Means]
  | false =>
      rw [Bool.false_or]
      exact AddUnit.add_means h.fits (product_significand_lt (by omega) h.a_lt h.b_lt)
        (addend_significand_lt h.c_lt) h.product_headroom h.addend_headroom rm
        (denotes_product (by omega) h.exp h.a_lt h.b_lt h.a_fits h.b_fits hda hdb hinv)
        (denotes_addend (by omega) h.exp h.c_fits hdc) hclash hv

/-- A clash of the product and the addend. -/
theorem mulAdd_means_clash (rm : RoundingMode)
    (hclash : AddUnit.Clash (w * 2 + 1) (product we w a b) (addend we w c)) :
    (mulAdd we w oe oW rm a b c).2.Means (K := ℚ) oe oW f (mulAdd we w oe oW rm a b c).1 false
      (.zero (if (product we w a b).isZero then c.sign else a.sign ^^ b.sign)) := by
  have hw := h.two_le
  have hvalid : (mul we w a b).1 = false := by
    obtain ⟨hn, hi, -⟩ := hclash
    have hn' : (a.isNan || b.isNan) = false := hn
    have hi' : (!(a.isNan || b.isNan) && (a.isInf || b.isInf)) = false := hi
    rw [hn', Bool.not_false, Bool.true_and, Bool.or_eq_false_iff] at hi'
    rw [Bool.or_eq_false_iff] at hn'
    simp [mul, hn', hi']
  rw [mulAdd_eq, hvalid, Bool.false_or]
  exact AddUnit.add_means_clash h.fits (product_significand_lt (by omega) h.a_lt h.b_lt)
    (addend_significand_lt h.c_lt) h.product_headroom h.addend_headroom rm hclash

/-- The operands of the adder, if it gets finite numbers. -/
theorem Ready.denotes_finite (hda : a.Denotes w da) (hdb : b.Denotes w db)
    (hdc : c.Denotes w dc) {s t : Bool} {m n : ℚ} (hm : da.mul db = .finite s m)
    (hn : dc = .finite t n) :
    (product we w a b).Denotes (w * 2 + 1) (.finite s m) ∧
      (addend we w c).Denotes (w * 2 + 1) (.finite t n) := by
  have hw := h.two_le
  have hinv : (mul we w a b).1 = false := by
    rw [Bool.eq_false_iff]
    intro hinv
    rw [mul_eq_nan hda hdb hinv] at hm
    exact absurd hm (by simp)
  constructor
  · rw [← hm]
    exact denotes_product (by omega) h.exp h.a_lt h.b_lt h.a_fits h.b_fits hda hdb hinv
  · rw [← hn]
    exact denotes_addend (by omega) h.exp h.c_fits hdc

/-- Without a clash the fused multiply-add hands on the sum in its frame. -/
theorem mulAdd_means_aligned (rm : RoundingMode) (hda : a.Denotes w da) (hdb : b.Denotes w db)
    (hdc : c.Denotes w dc)
    (hclash : ¬AddUnit.Clash (w * 2 + 1) (product we w a b) (addend we w c)) :
    (mulAdd we w oe oW rm a b c).2.Means oe oW f (mulAdd we w oe oW rm a b c).1 false
      ((Format.fma rm da db dc).withNumber ((da.mul db).alignedSum (w * 2 + 1) dc)) := by
  refine mulAdd_means h rm hda hdb hdc hclash fun s m t n hm hn => ?_
  obtain ⟨⟨hp1, hp2, hp3, rfl, hp5⟩, ⟨hc1, hc2, hc3, rfl, hc5⟩⟩ :=
    h.denotes_finite hda hdb hdc hm hn
  have hpos : ∀ {u : Unpacked} {q : ℚ}, (q ≠ 0 → u.mag (w * 2 + 1) = q) → 0 ≤ q := by
    intro u q hq
    by_cases h0 : q = 0
    · rw [h0]
    · rw [← hq h0]
      exact (u.mag_pos _).le
  rw [hm, hn, Format.Datum.alignedSum]
  refine ⟨fun hm0 hn0 _ => .inl ?_, fun hm0 => ?_, fun hn0 => ?_⟩
  · rw [← hp5 hm0, ← hc5 hn0]
    rfl
  · rw [hm0]
    exact alignedSum_zero_left _ _ (hpos hc5)
  · rw [hn0]
    exact alignedSum_zero_right _ _ (hpos hp5)

/-- Without a clash the fused multiply-add hands on the exact result, if the product has
zeros at its end. -/
theorem mulAdd_means_of_dvd (rm : RoundingMode) (hda : a.Denotes w da) (hdb : b.Denotes w db)
    (hdc : c.Denotes w dc)
    (hclash : ¬AddUnit.Clash (w * 2 + 1) (product we w a b) (addend we w c))
    (how : oW ≤ w * 2) (hdvd : ∀ s m t n, da.mul db = .finite s m → dc = .finite t n → n ≠ 0 →
      2 ^ w ∣ (product we w a b).significand) :
    (mulAdd we w oe oW rm a b c).2.Means oe oW f (mulAdd we w oe oW rm a b c).1 false
      (Format.fma rm da db dc) := by
  have hw := h.two_le
  rw [← Format.Outcome.withNumber_value (Format.fma rm da db dc)]
  refine mulAdd_means h rm hda hdb hdc hclash fun s m t n hm hn => ?_
  obtain ⟨⟨hp1, hp2, hp3, rfl, hp5⟩, ⟨hc1, hc2, hc3, rfl, hc5⟩⟩ :=
    h.denotes_finite hda hdb hdc hm hn
  have hpos : ∀ {u : Unpacked} {q : ℚ}, (q ≠ 0 → u.mag (w * 2 + 1) = q) → q ≠ 0 → 0 < q := by
    intro u q hq h0
    rw [← hq h0]
    exact u.mag_pos _
  rw [Format.fma, hm, hn, Format.Datum.add]
  refine ⟨fun hm0 hn0 _ => ?_, fun hm0 => ?_, fun hn0 => ?_⟩
  · have hcarries := AddUnit.carries_of_dvd (g := w) h.fits
      (product_significand_lt (by omega) h.a_lt h.b_lt) (addend_significand_lt h.c_lt)
      h.product_headroom h.addend_headroom (by omega) (hdvd _ m _ n hm hn hn0)
      (dvd_mul_of_dvd_right (Nat.pow_dvd_pow 2 (Nat.le_succ w)) c.significand)
      (show w ≤ w * 2 + 1 by omega) (show oW < w * 2 + 1 by omega)
    rw [show (fmaParams we w oe oW).inSigWidth = w * 2 + 1 from rfl, hp5 hm0, hc5 hn0] at hcarries
    rw [Format.value_sum rm _ _ (hpos hp5 hm0) (hpos hc5 hn0)]
    exact hcarries
  · by_cases hn0 : n = 0
    · rw [hm0, hn0, Format.sum_zero_zero]
      rfl
    · rw [hm0, Format.sum_zero_left rm _ _ (hpos hc5 hn0)]
      rfl
  · by_cases hm0 : m = 0
    · rw [hm0, hn0, Format.sum_zero_zero]
      rfl
    · rw [hn0, Format.sum_zero_right rm _ _ (hpos hp5 hm0)]
      rfl

end Means

end MulAdd

end Muntjac.Fpu

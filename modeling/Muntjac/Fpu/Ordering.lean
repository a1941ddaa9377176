import Muntjac.Fpu.Repack
import Muntjac.Ieee.Order

/-!
# Comparison, minimum, maximum and classification

The comparator works on the unpacked operands: signs, exponents and significands with their
leading one shifted out.  It decides the order of the numbers that they stand for, and
minimum and maximum choose by it.

## Main results

* `ordered_eq` — the comparator against the order of the data.
* `minmaxResult_eq` — what minimum and maximum choose.
* `comparison_answers` — the answers of FEQ, FLT, FLE, FMIN, FMAX and FCLASS.
-/

namespace Muntjac.Fpu

open Sync Ieee

/-! ## The comparator -/

section Compare
variable {f : Format} {w : ℕ} {u v : Unpacked} {a b : Format.Datum}

/-- Magnitudes are equal if their fields are. -/
theorem mag_eq_mag_iff (hu : u.significand < 2 ^ w) (hv : v.significand < 2 ^ w) :
    u.mag w = v.mag w ↔ u.exponent = v.exponent ∧ u.significand = v.significand := by
  have h1 := Unpacked.mag_lt_mag_iff hu hv
  have h2 := Unpacked.mag_lt_mag_iff hv hu
  constructor
  · intro h
    rw [h] at h1 h2
    have hn1 := mt h1.mpr (lt_irrefl _)
    have hn2 := mt h2.mpr (lt_irrefl _)
    omega
  · rintro ⟨he, hs⟩
    rw [Unpacked.mag, Unpacked.mag, he, hs]

/-- The comparison of two finite operands. -/
theorem ordered_finite {s t : Bool} {m n : ℚ} (hu : u.significand < 2 ^ w)
    (hv : v.significand < 2 ^ w) (ha : u.Denotes w (.finite s m)) (hb : v.Denotes w (.finite t n)) :
    ordered u v =
      (decide ((if s then -m else m) = if t then -n else n),
        decide ((if s then -m else m) < if t then -n else n)) := by
  obtain ⟨-, hui, huz, rfl, hum⟩ := ha
  obtain ⟨-, hvi, hvz, rfl, hvm⟩ := hb
  have hm : m ≠ 0 → 0 < m := fun h => hum h ▸ u.mag_pos w
  have hn : n ≠ 0 → 0 < n := fun h => hvm h ▸ v.mag_pos w
  have hzu : u.isZero = decide (m = 0) := by
    rw [Bool.eq_iff_iff, decide_eq_true_eq]
    exact huz
  have hzv : v.isZero = decide (n = 0) := by
    rw [Bool.eq_iff_iff, decide_eq_true_eq]
    exact hvz
  simp only [ordered, hzu, hzv, hui, hvi, Bool.and_eq_true, decide_eq_true_eq, Bool.false_and,
    Bool.false_eq_true, if_false]
  by_cases h0 : m = 0
  · by_cases h1 : n = 0
    · simp [h0, h1]
    · have hpos := hn h1
      rw [if_neg (fun h => h1 h.2), if_pos h0, h0]
      cases v.sign <;> simp [hpos, hpos.not_gt, hpos.ne, hpos.ne']
  · have hpos := hm h0
    by_cases h1 : n = 0
    · rw [if_neg (fun h => h0 h.1), if_neg h0, if_pos h1, h1]
      cases u.sign <;> simp [hpos, hpos.not_gt, hpos.ne']
    · have hpos' := hn h1
      rw [if_neg (fun h => h0 h.1), if_neg h0, if_neg h1]
      have hlt : m < n ↔ u.exponent < v.exponent ∨
          u.exponent = v.exponent ∧ u.significand < v.significand := by
        rw [← hum h0, ← hvm h1]
        exact Unpacked.mag_lt_mag_iff hu hv
      have heq : m = n ↔ u.exponent = v.exponent ∧ u.significand = v.significand := by
        rw [← hum h0, ← hvm h1]
        exact mag_eq_mag_iff hu hv
      -- of two signs the negative one is below; of one sign the fields decide
      have hfields : (decide (u.exponent < v.exponent) ||
          u.exponent == v.exponent && decide (u.significand < v.significand)) = decide (m < n) := by
        rw [Bool.eq_iff_iff]
        simp only [Bool.or_eq_true, Bool.and_eq_true, decide_eq_true_eq, beq_iff_eq]
        exact hlt.symm
      simp only [hfields, beq_iff_eq, ← heq]
      cases u.sign <;> cases v.sign
      · rcases eq_or_ne m n with rfl | hne
        · simp
        · simp [hne]
      · have h1 : ¬m = -n := by linarith
        have h2 : ¬m < -n := by linarith
        simp [h1, h2]
      · have h1 : ¬-m = n := by linarith
        have h2 : -m < n := by linarith
        simp [h1, h2]
      · rcases lt_trichotomy m n with hl | rfl | hl
        · simp [hl, hl.ne, hl.not_gt]
        · simp
        · simp [hl, hl.ne', hl.not_gt]

theorem isNan_of_denotes (ha : u.Denotes w a) : u.isNan = a.isNan := by
  cases a <;> exact ha.1

theorem isSignaling_of_denotes (ha : u.Denotes w a) : u.isSignaling w = a.isSignaling := by
  cases a with
  | nan s => exact ha.2.2.2
  | inf s => rw [Unpacked.isSignaling, ha.1]; rfl
  | finite s m => rw [Unpacked.isSignaling, ha.1]; rfl

theorem decide_of_lt {x y : WithBot (WithTop ℚ)} (h : x < y) :
    (decide (x = y), decide (x < y)) = (false, true) := by
  rw [decide_eq_false h.ne, decide_eq_true h]

theorem decide_of_gt {x y : WithBot (WithTop ℚ)} (h : y < x) :
    (decide (x = y), decide (x < y)) = (false, false) := by
  rw [decide_eq_false h.ne', decide_eq_false h.not_gt]

/-- Two operands that are not NaNs compare as their data do. -/
theorem ordered_eq (hu : u.significand < 2 ^ w) (hv : v.significand < 2 ^ w)
    (ha : u.Denotes w a) (hb : v.Denotes w b) (hna : a.isNan = false) (hnb : b.isNan = false) :
    ordered u v = (decide (a.Compares (· = ·) b), decide (a.Compares (· < ·) b)) := by
  obtain ⟨x, hx⟩ := (Format.Datum.isNan_eq_false_iff a).mp hna
  obtain ⟨y, hy⟩ := (Format.Datum.isNan_eq_false_iff b).mp hnb
  simp only [Format.Datum.compares_iff hx hy]
  have hbot : ∀ q : WithTop ℚ, (⊥ : WithBot (WithTop ℚ)) < q := WithBot.bot_lt_coe
  have htop : ∀ q : ℚ, ((q : WithTop ℚ) : WithBot (WithTop ℚ)) < (⊤ : WithTop ℚ) := fun q =>
    WithBot.coe_lt_coe.mpr (WithTop.coe_lt_top q)
  cases a with
  | nan s => exact Bool.noConfusion hna
  | inf s =>
      obtain ⟨-, hui, huz, hus⟩ := ha
      obtain rfl : _ = x := Option.some.inj hx
      cases b with
      | nan t => exact Bool.noConfusion hnb
      | inf t =>
          obtain ⟨-, hvi, hvz, hvs⟩ := hb
          obtain rfl : _ = y := Option.some.inj hy
          simp only [ordered, hui, huz, hus, hvi, hvz, hvs]
          cases s <;> cases t
          · simp
          · exact (decide_of_gt (hbot _)).symm
          · exact (decide_of_lt (hbot _)).symm
          · simp
      | finite t n =>
          obtain ⟨-, hvi, -, hvs, -⟩ := hb
          obtain rfl : _ = y := Option.some.inj hy
          simp only [ordered, hui, huz, hus, hvi, hvs]
          cases s with
          | false =>
              refine Eq.trans ?_ (decide_of_gt (htop _)).symm
              cases t <;> cases v.isZero <;> rfl
          | true =>
              refine Eq.trans ?_ (decide_of_lt (hbot _)).symm
              cases t <;> cases v.isZero <;> rfl
  | finite s m =>
      cases b with
      | nan t => exact Bool.noConfusion hnb
      | inf t =>
          obtain ⟨-, hui, -, hus, -⟩ := ha
          obtain rfl : _ = x := Option.some.inj hx
          obtain ⟨-, hvi, hvz, hvs⟩ := hb
          obtain rfl : _ = y := Option.some.inj hy
          simp only [ordered, hui, hus, hvi, hvz, hvs]
          cases t with
          | false =>
              refine Eq.trans ?_ (decide_of_lt (htop _)).symm
              cases s <;> cases u.isZero <;> rfl
          | true =>
              refine Eq.trans ?_ (decide_of_gt (hbot _)).symm
              cases s <;> cases u.isZero <;> rfl
      | finite t n =>
          obtain rfl : _ = x := Option.some.inj hx
          obtain rfl : _ = y := Option.some.inj hy
          rw [ordered_finite hu hv ha hb]
          simp only [WithBot.coe_inj, WithBot.coe_lt_coe, WithTop.coe_inj, WithTop.coe_lt_coe]

/-- The outputs of the comparator. -/
theorem compare_eq (hu : u.significand < 2 ^ w) (hv : v.significand < 2 ^ w)
    (ha : u.Denotes w a) (hb : v.Denotes w b) (signaling : Bool) :
    compare w signaling u v =
      { lt := decide (a.Compares (· < ·) b)
        eq := decide (a.Compares (· = ·) b)
        unordered := a.isNan || b.isNan
        invalidOperation :=
          a.isSignaling || b.isSignaling || (signaling && (a.isNan || b.isNan)) } := by
  have hcmp : (!(a.isNan || b.isNan) && (ordered u v).1) = decide (a.Compares (· = ·) b) ∧
      (!(a.isNan || b.isNan) && (ordered u v).2) = decide (a.Compares (· < ·) b) := by
    cases hnan : a.isNan || b.isNan with
    | true =>
        rw [decide_eq_false (Format.Datum.not_compares_of_isNan hnan),
          decide_eq_false (Format.Datum.not_compares_of_isNan hnan)]
        exact ⟨rfl, rfl⟩
    | false =>
        obtain ⟨hna, hnb⟩ := Bool.or_eq_false_iff.mp hnan
        rw [ordered_eq hu hv ha hb hna hnb]
        exact ⟨rfl, rfl⟩
  rw [compare, isNan_of_denotes ha, isNan_of_denotes hb, isSignaling_of_denotes ha,
    isSignaling_of_denotes hb]
  simp only [hcmp]

end Compare

/-! ## Minimum and maximum -/

section Minmax
variable {w : ℕ} {u v : Unpacked} {a b : Format.Datum}

theorem sign_of_denotes (ha : u.Denotes w a) (hna : a.isNan = false) : u.sign = a.isNeg := by
  cases a with
  | nan s => exact Bool.noConfusion hna
  | inf s => exact ha.2.2.2
  | finite s m => exact ha.2.2.2.1

/-- The minimum or maximum is the operand with the datum that is selected. -/
theorem minmaxResult_denotes (hu : u.significand < 2 ^ w) (hv : v.significand < 2 ^ w)
    (ha : u.Denotes w a) (hb : v.Denotes w b) (max signaling : Bool)
    (h : (a.isNan && b.isNan) = false) :
    (minmaxResult max u v (compare w signaling u v) = u ∨
        minmaxResult max u v (compare w signaling u v) = v) ∧
      (minmaxResult max u v (compare w signaling u v)).Denotes w
        (Format.Datum.select max a b a b) := by
  have hcmp := compare_eq hu hv ha hb signaling
  rw [minmaxResult, isNan_of_denotes ha, isNan_of_denotes hb, h, if_neg Bool.false_ne_true]
  cases hna : a.isNan with
  | true =>
      rw [Format.Datum.select, hna, if_pos rfl, if_pos rfl]
      exact ⟨.inr rfl, hb⟩
  | false =>
      rw [if_neg Bool.false_ne_true]
      cases hnb : b.isNan with
      | true =>
          rw [Format.Datum.select, hna, hnb, if_neg Bool.false_ne_true, if_pos rfl, if_pos rfl]
          exact ⟨.inl rfl, ha⟩
      | false =>
          rw [Format.Datum.select_eq_of_places max hna hnb, hcmp, sign_of_denotes ha hna,
            if_neg Bool.false_ne_true]
          simp only [decide_eq_true_eq, beq_iff_eq]
          split_ifs
          · exact ⟨.inr rfl, hb⟩
          · exact ⟨.inl rfl, ha⟩
          · exact ⟨.inr rfl, hb⟩
          · exact ⟨.inl rfl, ha⟩

end Minmax

/-! ## Classification -/

section Classify
variable {f : Format} {oe os b : ℕ}

theorem isNormal_normalizeFromIeee {s : Bool} {m : ℚ} (h : f.decode b = .finite s m) :
    (normalizeFromIeee f oe os b).isNormal = decide (2 ^ f.minExp ≤ m) := by
  rw [Format.decode] at h
  split_ifs at h with he
  cases h
  rw [Bool.eq_iff_iff, decide_eq_true_eq, ← not_lt, f.magnitude_lt_minExp_iff]
  simp [normalizeFromIeee, he]

theorem isSubnormal_normalizeFromIeee {s : Bool} {m : ℚ} (h : f.decode b = .finite s m) :
    (normalizeFromIeee f oe os b).isSubnormal = decide (m ≠ 0 ∧ m < 2 ^ f.minExp) := by
  rw [Format.decode] at h
  split_ifs at h with he
  cases h
  rw [Bool.eq_iff_iff, decide_eq_true_eq, ne_eq, f.magnitude_eq_zero, f.magnitude_lt_minExp_iff]
  simp [normalizeFromIeee]
  tauto

/-- Infinities and NaNs have no exponent of a number. -/
theorem not_number_normalizeFromIeee (h : ∀ s m, f.decode b ≠ .finite s m) :
    (normalizeFromIeee f oe os b).isNormal = false ∧
      (normalizeFromIeee f oe os b).isSubnormal = false := by
  have hexp : 2 ^ 2 ≤ 2 ^ f.expWidth := Nat.pow_le_pow_right two_pos f.two_le_expWidth
  rw [Format.decode] at h
  by_cases he : f.exponent b = 2 ^ f.expWidth - 1
  · have h0 : f.exponent b ≠ 0 := by omega
    simp [normalizeFromIeee, h0, ← he]
  · rw [if_neg he] at h
    exact absurd rfl (h _ _)

/-- The word with a bit for each kind. -/
theorem classify_eq_bits {n : Normalized} {sign normal subnormal zero inf nan : Bool}
    (quiet : Bool) (hs : n.sign = sign) (h1 : n.isNormal = normal) (h2 : n.isSubnormal = subnormal)
    (hz : n.isZero = zero) (hi : n.isInf = inf) (hn : n.isNan = nan)
    (hq : n.isNan = true → n.significand.testBit (decodedSigWidth - 1) = quiet) :
    FpUnit.classify n =
      [sign && inf, sign && normal, sign && subnormal, sign && zero, !sign && zero,
        !sign && subnormal, !sign && normal, !sign && inf, nan && !quiet, nan && quiet].foldr
          (fun b n => cat n 1 b.toNat) 0 := by
  have hquiet : (nan && !n.significand.testBit (decodedSigWidth - 1)) = (nan && !quiet) ∧
      (nan && n.significand.testBit (decodedSigWidth - 1)) = (nan && quiet) := by
    cases hnan : nan with
    | false => exact ⟨rfl, rfl⟩
    | true => rw [hq (hn.trans hnan)]; exact ⟨rfl, rfl⟩
  rw [FpUnit.classify, hs, h1, h2, hz, hi, hn]
  simp only [hquiet]

/-- The classification sets the bit of the datum. -/
theorem classify_normalizeFromIeee (h : Widens f oe decodedSigWidth) (b : ℕ) :
    FpUnit.classify (normalizeFromIeee f oe decodedSigWidth b) = 2 ^ f.classBit (f.decode b) := by
  have hd := denotes_normalizeFromIeee h b
  have hother : (∀ s m, f.decode b ≠ .finite s m) →
      (normalizeFromIeee f oe decodedSigWidth b).isNormal = false ∧
        (normalizeFromIeee f oe decodedSigWidth b).isSubnormal = false :=
    not_number_normalizeFromIeee
  cases hdec : f.decode b with
  | nan s =>
      rw [hdec] at hd
      obtain ⟨hn, hi, hz, hs⟩ := hd
      obtain ⟨h1, h2⟩ := hother (by rw [hdec]; simp)
      rw [Unpacked.isSignaling, hn, Bool.true_and] at hs
      rw [classify_eq_bits (!s) rfl h1 h2 hz hi hn fun _ => by rw [← hs, Bool.not_not]]
      cases s <;> simp [Format.classBit, cat]
  | inf s =>
      rw [hdec] at hd
      obtain ⟨hn, hi, hz, hs⟩ := hd
      obtain ⟨h1, h2⟩ := hother (by rw [hdec]; simp)
      rw [classify_eq_bits false hs h1 h2 hz hi hn fun h => by rw [hn] at h; simp at h]
      cases s <;> simp [Format.classBit, cat]
  | finite s m =>
      have h1 : (normalizeFromIeee f oe decodedSigWidth b).isNormal =
          decide (2 ^ f.minExp ≤ m) := isNormal_normalizeFromIeee hdec
      have h2 : (normalizeFromIeee f oe decodedSigWidth b).isSubnormal =
          decide (m ≠ 0 ∧ m < 2 ^ f.minExp) := isSubnormal_normalizeFromIeee hdec
      rw [hdec] at hd
      obtain ⟨hn, hi, hz, hs, -⟩ := hd
      have hz' : (normalizeFromIeee f oe decodedSigWidth b).isZero = decide (m = 0) := by
        rw [Bool.eq_iff_iff, decide_eq_true_eq]
        exact hz
      have hpos : (0 : ℚ) < 2 ^ f.minExp := zpow_pos two_pos _
      rw [classify_eq_bits false hs h1 h2 hz' hi hn fun h => by rw [hn] at h; simp at h]
      by_cases h0 : m = 0
      · have hlt : ¬(2 : ℚ) ^ f.minExp ≤ m := by rw [h0]; exact not_le.mpr hpos
        have hsub : ¬(m ≠ 0 ∧ m < 2 ^ f.minExp) := fun h => h.1 h0
        rw [decide_eq_false hlt, decide_eq_false hsub, decide_eq_true h0]
        cases s <;> simp [Format.classBit, h0, cat]
      · rcases lt_or_ge m (2 ^ f.minExp) with hlt | hge
        · rw [decide_eq_false hlt.not_ge, decide_eq_true ⟨h0, hlt⟩, decide_eq_false h0]
          cases s <;> simp [Format.classBit, h0, hlt, cat]
        · have hsub : ¬(m ≠ 0 ∧ m < 2 ^ f.minExp) := fun h => absurd h.2 hge.not_gt
          rw [decide_eq_true hge, decide_eq_false hsub, decide_eq_false h0]
          cases s <;> simp [Format.classBit, h0, hge.not_gt, cat]

end Classify

theorem classify_decode (isDouble : Bool) (b : ℕ) :
    FpUnit.classify (decode isDouble b) =
      2 ^ (Fpu.format isDouble).classBit (registerDatum isDouble b) := by
  cases isDouble with
  | true => exact classify_normalizeFromIeee (widens_decoded true) b
  | false =>
      by_cases hb : b / 2 ^ 32 = 2 ^ 32 - 1
      · rw [decode_of_boxed hb, registerDatum, if_neg (by simp), if_pos hb]
        exact classify_normalizeFromIeee (widens_decoded false) _
      · rw [decode_of_not_boxed hb, registerDatum, if_neg (by simp), if_neg hb]
        decide

/-! ## Answers -/

/-- A register that does not hold a NaN is read in full. -/
theorem whole_of_isNan {isDouble : Bool} {b : ℕ} (hb : b < 2 ^ 64)
    (hnan : (registerDatum isDouble b).isNan = false) : Whole isDouble b := by
  refine ⟨hb, ?_⟩
  cases isDouble with
  | true => exact .inl rfl
  | false =>
      by_contra h
      rw [registerDatum, if_neg (by simp), if_neg fun hbox => h (.inr hbox)] at hnan
      exact Bool.noConfusion hnan

/-- What a register stands for is delivered as the register. -/
theorem deliver_register {isDouble : Bool} {b : ℕ} (hb : b < 2 ^ 64)
    (hnan : (registerDatum isDouble b).isNan = false) (rm : RoundingMode) :
    boxed isDouble ((format isDouble).deliver rm (registerDatum isDouble b).outcome) =
      (b, {}) := by
  have hwhole := whole_of_isNan hb hnan
  obtain ⟨hlt, hdatum, -⟩ := hwhole.decode_eq
  rw [hdatum] at hnan ⊢
  rw [← hwhole.boxed_word {}]
  refine congrArg (boxed isDouble) ((format isDouble).deliver_decode rm hlt fun s hs => ?_)
  rw [hs] at hnan
  exact Bool.noConfusion hnan

/-- The rounder delivers the minimum or maximum as the register that it came from. -/
theorem round_minmax (isDouble : Bool) {a b : ℕ} (ha : a < 2 ^ 64) (hb : b < 2 ^ 64)
    (rm : RoundingMode) (max signaling : Bool) :
    roundToIeeeMulti intermediateExpWidth intermediateSigWidth false false false isDouble rm
        (FpUnit.widen (minmaxResult max (decode isDouble a).toUnpacked
          (decode isDouble b).toUnpacked (compare decodedSigWidth signaling
            (decode isDouble a).toUnpacked (decode isDouble b).toUnpacked))) =
      (if (registerDatum isDouble a).isNan && (registerDatum isDouble b).isNan then
          (boxed isDouble ((format isDouble).canonicalNan, {})).1
        else Format.Datum.select max (registerDatum isDouble a) (registerDatum isDouble b) a b,
        {}) := by
  have hda := denotes_decode isDouble a
  have hdb := denotes_decode isDouble b
  have hoa := operand_decode isDouble a
  have hob := operand_decode isDouble b
  cases hnan : (registerDatum isDouble a).isNan && (registerDatum isDouble b).isNan with
  | true =>
      rw [minmaxResult, isNan_of_denotes hda, isNan_of_denotes hdb, hnan, if_pos rfl, if_pos rfl,
        roundToIeeeMulti_eq]
      cases isDouble <;> rfl
  | false =>
      obtain ⟨hor, hd⟩ := minmaxResult_denotes hoa.significand_lt hob.significand_lt hda hdb max
        signaling hnan
      set u := minmaxResult max (decode isDouble a).toUnpacked (decode isDouble b).toUnpacked
        (compare decodedSigWidth signaling (decode isDouble a).toUnpacked
          (decode isDouble b).toUnpacked) with hu
      have hop : Operand (format isDouble) decodedSigWidth u := by
        rcases hor with h | h
        · rw [h]
          exact hoa
        · rw [h]
          exact hob
      have hsel := Format.Datum.isNan_select max hnan
      have hsig : u.isSignaling decodedSigWidth = false := by
        rw [isSignaling_of_denotes hd]
        exact Bool.eq_false_iff.mpr fun h => by
          rw [Format.Datum.isNan_of_isSignaling h] at hsel
          exact Bool.noConfusion hsel
      have hmeans := means_widen hop hd isDouble
      rw [hsig] at hmeans
      have hmap := Format.Datum.map_select (registerDatum isDouble) max (registerDatum isDouble a)
        (registerDatum isDouble b) a b
      have hlt : Format.Datum.select max (registerDatum isDouble a) (registerDatum isDouble b) a b <
          2 ^ 64 := by
        unfold Format.Datum.select
        split_ifs <;> assumption
      rw [← hmap] at hmeans hsel
      rw [roundToIeeeMulti_means hmeans, deliver_register hlt hsel, if_neg Bool.false_ne_true]

section Answers
variable {inp : ℕ → FpuReq} {n : ℕ}
  (hidle : (run FpUnit.step FpUnit.reset inp n).state = .idle) (hv : (inp n).valid = true)
include hidle hv

omit hidle hv in
/-- The operands of a request are compared as their data. -/
theorem compare_accept (hop : (inp n).IsMisc) (hf : (inp n).op.opType ≠ .cvtF2F)
    (signaling : Bool) :
    compare decodedSigWidth signaling
        ((run FpUnit.step FpUnit.reset inp n).accept (inp n)).decA
        ((run FpUnit.step FpUnit.reset inp n).accept (inp n)).decB =
      { lt := decide ((inp n).datumA.Compares (· < ·) (inp n).datumB)
        eq := decide ((inp n).datumA.Compares (· = ·) (inp n).datumB)
        unordered := (inp n).datumA.isNan || (inp n).datumB.isNan
        invalidOperation := (inp n).datumA.isSignaling || (inp n).datumB.isSignaling ||
          (signaling && ((inp n).datumA.isNan || (inp n).datumB.isNan)) } := by
  obtain ⟨-, hA, hB, -⟩ := FpUnit.accept_misc (s := run FpUnit.step FpUnit.reset inp n) hop
  rw [FpuReq.decodeAsDouble, if_neg hf] at hA hB
  rw [hA, hB]
  exact compare_eq (operand_decode _ _).significand_lt (operand_decode _ _).significand_lt
    (denotes_decode _ _) (denotes_decode _ _) signaling

/-- A comparison, before the relation is looked at. -/
theorem cmp_answers_param (hop : (inp n).op.opType = .cmp) :
    FpUnit.Answers inp n (n + 2)
      (if (inp n).op.param == fpParamEq then
          (decide ((inp n).datumA.Compares (· = ·) (inp n).datumB)).toNat
        else if (inp n).op.param == fpParamLt then
          (decide ((inp n).datumA.Compares (· < ·) (inp n).datumB)).toNat
        else if (inp n).op.param == fpParamLe then
          (decide ((inp n).datumA.Compares (· = ·) (inp n).datumB) ||
            decide ((inp n).datumA.Compares (· < ·) (inp n).datumB)).toNat
        else 0,
        { invalidOperation := (inp n).datumA.isSignaling || (inp n).datumB.isSignaling ||
            ((inp n).op.param != fpParamEq &&
              ((inp n).datumA.isNan || (inp n).datumB.isNan)) }) := by
  have hmisc : (inp n).IsMisc := .inr (.inr (.inr (.inr hop)))
  have hcmp := compare_accept hmisc (by rw [hop]; decide)
    ((inp n).op.param != fpParamEq)
  obtain ⟨-, -, -, -, -, -, -, -, hop'⟩ :=
    FpUnit.latched_accept (run FpUnit.step FpUnit.reset inp n) (inp n)
  refine FpUnit.answers_of_misc hidle hv hmisc ?_
  set t := (run FpUnit.step FpUnit.reset inp n).accept (inp n) with ht
  have hsig : (FpOpType.cmp == FpOpType.cmp && (inp n).op.param != fpParamEq) =
      ((inp n).op.param != fpParamEq) := Bool.true_and _
  rw [FpUnit.stepMisc, hop', hop]
  simp only [hsig, hcmp]
  exact ⟨trivial, trivial, trivial⟩

theorem cmp_answers (hop : (inp n).op.opType = .cmp) :
    ((inp n).op.param = fpParamEq → FpUnit.Answers inp n (n + 2)
      ((decide ((inp n).datumA.Compares (· = ·) (inp n).datumB)).toNat,
        { invalidOperation := (inp n).datumA.isSignaling || (inp n).datumB.isSignaling })) ∧
    ((inp n).op.param = fpParamLt → FpUnit.Answers inp n (n + 2)
      ((decide ((inp n).datumA.Compares (· < ·) (inp n).datumB)).toNat,
        { invalidOperation := (inp n).datumA.isNan || (inp n).datumB.isNan })) ∧
    ((inp n).op.param = fpParamLe → FpUnit.Answers inp n (n + 2)
      ((decide ((inp n).datumA.Compares (· ≤ ·) (inp n).datumB)).toNat,
        { invalidOperation := (inp n).datumA.isNan || (inp n).datumB.isNan })) := by
  have hans := cmp_answers_param hidle hv hop
  have hinv : ((inp n).datumA.isSignaling || (inp n).datumB.isSignaling ||
      ((inp n).datumA.isNan || (inp n).datumB.isNan)) =
        ((inp n).datumA.isNan || (inp n).datumB.isNan) := by
    have ha := @Format.Datum.isNan_of_isSignaling (inp n).datumA
    have hb := @Format.Datum.isNan_of_isSignaling (inp n).datumB
    cases h1 : (inp n).datumA.isSignaling <;> cases h2 : (inp n).datumB.isSignaling <;>
      simp [ha, hb, h1, h2]
  have hle : (decide ((inp n).datumA.Compares (· = ·) (inp n).datumB) ||
      decide ((inp n).datumA.Compares (· < ·) (inp n).datumB)) =
        decide ((inp n).datumA.Compares (· ≤ ·) (inp n).datumB) := by
    rw [Bool.eq_iff_iff, Bool.or_eq_true, decide_eq_true_eq, decide_eq_true_eq, decide_eq_true_eq]
    exact Format.Datum.compares_le_iff.symm
  refine ⟨fun hp => ?_, fun hp => ?_, fun hp => ?_⟩
  · simpa only [hp, beq_self_eq_true, bne_self_eq_false, if_true, Bool.false_and, Bool.or_false]
      using hans
  · have h1 : (fpParamLt == fpParamEq) = false := rfl
    have h2 : (fpParamLt != fpParamEq) = true := rfl
    simpa only [hp, h1, h2, hinv, beq_self_eq_true, Bool.false_eq_true, if_true, if_false,
      Bool.true_and] using hans
  · have h1 : (fpParamLe == fpParamEq) = false := rfl
    have h2 : (fpParamLe != fpParamEq) = true := rfl
    have h3 : (fpParamLe == fpParamLt) = false := rfl
    simpa only [hp, h1, h2, h3, hinv, hle, beq_self_eq_true, Bool.false_eq_true, if_true, if_false,
      Bool.true_and] using hans

/-- The minimum or maximum is a register that the request came with, or the canonical NaN. -/
theorem minmax_answers (hop : (inp n).op.opType = .minmax) (hA : (inp n).foperandA < 2 ^ 64)
    (hB : (inp n).foperandB < 2 ^ 64) :
    FpUnit.Answers inp n (n + 3)
      (if (inp n).datumA.isNan && (inp n).datumB.isNan then
          (boxed (inp n).double ((inp n).format.canonicalNan, {})).1
        else Format.Datum.select ((inp n).op.param == fpParamMax) (inp n).datumA (inp n).datumB
          (inp n).foperandA (inp n).foperandB,
        { invalidOperation := (inp n).datumA.isSignaling || (inp n).datumB.isSignaling }) := by
  have hmisc : (inp n).IsMisc := .inr (.inl hop)
  have hf : (inp n).op.opType ≠ .cvtF2F := by rw [hop]; decide
  have hcmp := compare_accept hmisc hf false
  obtain ⟨-, hdA, hdB, hinv, hnan, -⟩ :=
    FpUnit.accept_misc (s := run FpUnit.step FpUnit.reset inp n) hmisc
  obtain ⟨-, -, -, -, hflags, hdz, hdouble, hrm, hop'⟩ :=
    FpUnit.latched_accept (run FpUnit.step FpUnit.reset inp n) (inp n)
  rw [FpuReq.decodeAsDouble, if_neg hf] at hdA hdB
  set i := inp n with hi
  set t := (run FpUnit.step FpUnit.reset inp n).accept i with ht
  set max := i.op.param == fpParamMax with hmax
  have hstep : t.stepMisc = { t.advance with
      state := .round
      decRound := FpUnit.widen (minmaxResult max t.decA t.decB
        (compare decodedSigWidth false t.decA t.decB))
      respFlags := { invalidOperation :=
        (compare decodedSigWidth false t.decA t.decB).invalidOperation } } := by
    rw [FpUnit.stepMisc, hop', hop]
    rfl
  have hrounded : t.stepMisc.rounded =
      (if i.datumA.isNan && i.datumB.isNan then (boxed i.double (i.format.canonicalNan, {})).1
        else Format.Datum.select max i.datumA i.datumB i.foperandA i.foperandB, {}) := by
    rw [hstep, FpUnit.rounded]
    change roundToIeeeMulti _ _ t.roundInvalidOperation t.roundDivideByZero t.roundUseNanPayload
      t.opDouble t.rm (FpUnit.widen (minmaxResult max t.decA t.decB _)) = _
    rw [hinv, hdz, hnan, hop, hdouble, hrm, hdA, hdB]
    exact round_minmax i.double hA hB i.rm max false
  have hans := FpUnit.answers_of_misc_rounding hidle hv hmisc (by rw [← hi, ← ht, hstep])
    (by rw [← hi, ← ht, hstep]; rfl)
  rw [← hi, ← ht, hrounded, hstep] at hans
  change FpUnit.Answers inp n (n + 3) (_, orFlags { invalidOperation := _ } {}) at hans
  rw [hcmp] at hans
  simpa [orFlags] using hans

theorem class_answers (hop : (inp n).op.opType = .fclass) :
    FpUnit.Answers inp n (n + 1) (2 ^ (inp n).format.classBit (inp n).datumA, {}) := by
  have hclass := classify_decode (inp n).double (inp n).foperandA
  have hacc : ((run FpUnit.step FpUnit.reset inp n).accept (inp n)).respValid = true ∧
      ((run FpUnit.step FpUnit.reset inp n).accept (inp n)).respValue =
        FpUnit.classify (decode (inp n).double (inp n).foperandA) ∧
      ((run FpUnit.step FpUnit.reset inp n).accept (inp n)).respFlags = {} := by
    simp [FpUnit.accept, hop]
  rw [← FpUnit.run_accept hidle hv, hclass] at hacc
  exact ⟨by omega, hacc.1, hacc.2.1, hacc.2.2, fun k hk hkm => absurd hkm (by omega)⟩

end Answers

section Requests
variable {inp : ℕ → FpuReq} {n : ℕ}

/-- Comparisons, minimum and maximum and the classification of register values. -/
theorem comparison_answers (hidle : (run FpUnit.step FpUnit.reset inp n).state = .idle)
    (hv : (inp n).valid = true) (hA : (inp n).foperandA < 2 ^ 64)
    (hB : (inp n).foperandB < 2 ^ 64) :
    ((inp n).op.opType = .cmp →
      ((inp n).op.param = fpParamEq → FpUnit.Answers inp n (n + 2)
        ((decide ((inp n).datumA.Compares (· = ·) (inp n).datumB)).toNat,
          { invalidOperation := (inp n).datumA.isSignaling || (inp n).datumB.isSignaling })) ∧
      ((inp n).op.param = fpParamLt → FpUnit.Answers inp n (n + 2)
        ((decide ((inp n).datumA.Compares (· < ·) (inp n).datumB)).toNat,
          { invalidOperation := (inp n).datumA.isNan || (inp n).datumB.isNan })) ∧
      ((inp n).op.param = fpParamLe → FpUnit.Answers inp n (n + 2)
        ((decide ((inp n).datumA.Compares (· ≤ ·) (inp n).datumB)).toNat,
          { invalidOperation := (inp n).datumA.isNan || (inp n).datumB.isNan }))) ∧
    ((inp n).op.opType = .minmax →
      FpUnit.Answers inp n (n + 3)
        (if (inp n).datumA.isNan && (inp n).datumB.isNan then
            (boxed (inp n).double ((inp n).format.canonicalNan, {})).1
          else Format.Datum.select ((inp n).op.param == fpParamMax) (inp n).datumA (inp n).datumB
            (inp n).foperandA (inp n).foperandB,
          { invalidOperation := (inp n).datumA.isSignaling || (inp n).datumB.isSignaling })) ∧
    ((inp n).op.opType = .fclass →
      FpUnit.Answers inp n (n + 1) (2 ^ (inp n).format.classBit (inp n).datumA, {})) :=
  ⟨fun hop => cmp_answers hidle hv hop, fun hop => minmax_answers hidle hv hop hA hB,
    fun hop => class_answers hidle hv hop⟩

/-- The smaller of the two zeros. -/
theorem comparison_answers_zeros :
    FpUnit.Answers (fun _ => doubleRequest .minmax 0 0 0x8000000000000000 0) 0 3
      (0x8000000000000000, {}) := by
  have h := (@comparison_answers (fun _ => doubleRequest .minmax 0 0 0x8000000000000000 0) 0 rfl rfl
    (by decide) (by decide)).2.1 rfl
  have hselect : (if (doubleRequest .minmax 0 0 0x8000000000000000 0).datumA.isNan &&
        (doubleRequest .minmax 0 0 0x8000000000000000 0).datumB.isNan then
      (boxed true (double.canonicalNan, {})).1
      else Format.Datum.select (0 == fpParamMax) (registerDatum true 0)
        (registerDatum true 0x8000000000000000) 0 0x8000000000000000) = 0x8000000000000000 := by
    decide +kernel
  have hflags : ({ invalidOperation :=
        (doubleRequest .minmax 0 0 0x8000000000000000 0).datumA.isSignaling ||
        (doubleRequest .minmax 0 0 0x8000000000000000 0).datumB.isSignaling } : Flags) = {} := by
    decide
  exact ⟨h.lt, h.valid, h.value.trans hselect, h.flags.trans hflags, h.quiet⟩

end Requests

end Muntjac.Fpu

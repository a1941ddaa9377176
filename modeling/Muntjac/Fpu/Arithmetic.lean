import Muntjac.Fpu.FpUnit

/-!
# The arithmetic of the floating point unit

What the unit answers to the operations of the fused multiply-add and of the divider,
against the exact results rounded once.

## Main results

* `add_mul_answers` — sums, differences and products.
* `fma_answers` — the fused multiply-add.
* `div_sqrt_answers` — quotients and square roots.
-/

namespace Muntjac.Fpu

open Sync Ieee

/-! ## What is asked for -/

/-- The datum, with the other sign if `negate` is set. -/
def negateIf (negate : Bool) (d : Format.Datum) : Format.Datum := if negate then d.neg else d

namespace FpuReq
variable (i : FpuReq)

def datumA : Format.Datum := registerDatum i.double i.foperandA
def datumB : Format.Datum := registerDatum i.double i.foperandB
def datumC : Format.Datum := registerDatum i.double i.foperandC

/-- The format of a request, and a result in a register of that format. -/
def format : Format := Fpu.format i.double
def answer {K : Type*} [Field K] [LinearOrder K] [FloorSemiring K] (o : Format.Outcome K) :
    ℕ × Flags := boxed i.double (i.format.deliver i.rm o)

/-- The second operand of an addition or a subtraction. -/
def summand : Format.Datum := negateIf (i.op.param.testBit 0) i.datumB

/-- The exact sum or difference. -/
def exactSum : Format.Outcome ℚ := i.datumA.add i.rm i.summand

/-- The exact product. -/
def exactProduct : Format.Outcome ℚ := (i.datumA.mul i.datumB).outcome

/-- The factor that carries the sign of the product, and the addend, of a fused
multiply-add. -/
def factor : Format.Datum := negateIf (i.op.param.testBit 1) i.datumA
def addend : Format.Datum := negateIf (i.op.param.testBit 0) i.datumC

/-- The exact result of a fused multiply-add. -/
def exactFma : Format.Outcome ℚ := Format.fma i.rm i.factor i.datumB i.addend

/-- The exact sum, difference or product. -/
def exactAddMul : Format.Outcome ℚ := if i.op.opType = .mul then i.exactProduct else i.exactSum

/-- The exact quotient, and the exact square root. -/
def exactQuotient : Format.Outcome ℚ := i.datumA.div i.datumB
noncomputable def exactRoot : Format.Outcome ℝ := i.datumA.sqrt

end FpuReq

/-! ## The operands -/

/-- The exponent and the significand are in the range of an operand of the format. -/
structure Bounded (f : Format) (u : Unpacked) : Prop where
  significand_lt : u.significand < 2 ^ decodedSigWidth
  lo : f.minExp - f.sigWidth ≤ u.exponent
  hi : u.exponent ≤ f.maxExp + 1

theorem Operand.bounded {f : Format} {u : Unpacked} (h : Operand f decodedSigWidth u) :
    Bounded f u := ⟨h.significand_lt, h.lo, h.hi⟩

theorem bounded_decOne (isDouble : Bool) : Bounded (format isDouble) decOne := by
  cases isDouble <;> exact ⟨by decide, by decide, by decide⟩

theorem fits_fmaParams : AddUnit.Fits (fmaParams decodedExpWidth decodedSigWidth
    intermediateExpWidth intermediateSigWidth) :=
  ⟨by decide, by decide, by decide, by decide, by decide⟩

/-- Operands of a format leave the fused multiply-add the room that it needs. -/
theorem ready {isDouble : Bool} {a b c : Unpacked} (ha : Bounded (format isDouble) a)
    (hb : Bounded (format isDouble) b) (hc : Bounded (format isDouble) c) :
    Ready decodedExpWidth decodedSigWidth intermediateExpWidth intermediateSigWidth
      (format isDouble) a b c := by
  have hbounds : -1074 ≤ (format isDouble).minExp - (format isDouble).sigWidth ∧
      (format isDouble).maxExp + 1 ≤ 1024 ∧ -1022 ≤ (format isDouble).minExp := by
    cases isDouble <;> decide
  obtain ⟨hlo, hhi, hmin⟩ := hbounds
  have hfits : ∀ u : Unpacked, Bounded (format isDouble) u →
      MulUnit.ExpFits decodedExpWidth u.exponent := by
    intro u hu
    have h1 := hu.lo
    have h2 := hu.hi
    exact ⟨show (-2048 : ℤ) ≤ _ by omega, show _ < (2048 : ℤ) by omega⟩
  have hroom : ∀ e : ℤ, -2148 ≤ e → e ≤ 2049 → AddUnit.Headroom (fmaParams decodedExpWidth
      decodedSigWidth intermediateExpWidth intermediateSigWidth) (format isDouble) e := by
    intro e h1 h2
    exact ⟨show (-4096 : ℤ) ≤ e - 105 by omega,
      show e + 1 < (4096 : ℤ) + (format isDouble).minExp by omega⟩
  have ha1 := ha.lo
  have ha2 := ha.hi
  have hb1 := hb.lo
  have hb2 := hb.hi
  have hc1 := hc.lo
  have hc2 := hc.hi
  exact ⟨fits_fmaParams, by decide, by decide, ha.significand_lt, hb.significand_lt,
    hc.significand_lt, hfits a ha, hfits b hb, hfits c hc,
    fun e h1 h2 => hroom e (by omega) (by omega), hroom _ (by omega) (by omega)⟩

/-- The magnitude in the fields of an operand; those of a zero are not cleared. -/
def stored (f : Format) (m : ℚ) : ℚ := if m = 0 then 2 ^ (-f.bias) else m

theorem Operand.mag_eq {f : Format} {w : ℕ} {u : Unpacked} {s : Bool} {m : ℚ}
    (h : Operand f w u) (hd : u.Denotes w (.finite s m)) : u.mag w = stored f m := by
  obtain ⟨-, -, hz, -, hm⟩ := hd
  rw [stored]
  split_ifs with h0
  · obtain ⟨he, hs⟩ := h.zero (hz.mpr h0)
    rw [Unpacked.mag, he, hs, Nat.cast_zero, add_zero, ← zpow_natCast, ← zpow_add₀ two_ne_zero]
    congr 1
    ring
  · exact hm h0

theorem denotes_decOne : decOne.Denotes decodedSigWidth (.finite false 1) := by
  refine ⟨rfl, rfl, by simp [decOne], rfl, fun _ => ?_⟩
  simp [Unpacked.mag, decOne]

theorem operand_decOne (isDouble : Bool) : Operand (format isDouble) decodedSigWidth decOne := by
  cases isDouble <;> exact ⟨by decide, by decide, by decide, by decide, by decide⟩

theorem Operand.sign {f : Format} {w : ℕ} {u : Unpacked} (h : Operand f w u) (s : Bool) :
    Operand f w { u with sign := s } := ⟨h.significand_lt, h.dvd, h.lo, h.hi, h.zero⟩

theorem denotes_negateIf {w : ℕ} {u : Unpacked} {d : Format.Datum} (h : u.Denotes w d)
    (negate : Bool) :
    Unpacked.Denotes w { u with sign := u.sign ^^ negate } (negateIf negate d) := by
  cases negate with
  | false =>
      rw [Bool.xor_false]
      exact h
  | true =>
      cases d with
      | nan s => exact h
      | inf s =>
          obtain ⟨h1, h2, h3, rfl⟩ := h
          exact ⟨h1, h2, h3, Bool.xor_true _⟩
      | finite s m =>
          obtain ⟨h1, h2, h3, rfl, h5⟩ := h
          exact ⟨h1, h2, h3, Bool.xor_true _, h5⟩

/-! ## Clashes -/

/-- The sum of the product and the addend has one zero, and the fields cancel. -/
def FmaClash (f : Format) : Format.Datum → Format.Datum → Format.Datum → Prop
  | .finite s m, .finite t n, .finite u q =>
      (m * n = 0 ↔ q ≠ 0) ∧ (s ^^ t) ≠ u ∧ stored f m * stored f n = stored f q
  | _, _, _ => False

/-- The same for two summands. -/
def AddClash (f : Format) : Format.Datum → Format.Datum → Prop
  | .finite s m, .finite t n => (m = 0 ↔ n ≠ 0) ∧ s ≠ t ∧ stored f m = stored f n
  | _, _ => False

instance (f : Format) : (d d' d'' : Format.Datum) → Decidable (FmaClash f d d' d'')
  | .finite s m, .finite t n, .finite u q =>
      inferInstanceAs (Decidable
        ((m * n = 0 ↔ q ≠ 0) ∧ (s ^^ t) ≠ u ∧ stored f m * stored f n = stored f q))
  | .finite _ _, .finite _ _, .nan _ | .finite _ _, .finite _ _, .inf _ | .finite _ _, .nan _, _
  | .finite _ _, .inf _, _ | .nan _, _, _ | .inf _, _, _ => isFalse id

instance (f : Format) : (d d' : Format.Datum) → Decidable (AddClash f d d')
  | .finite s m, .finite t n =>
      inferInstanceAs (Decidable ((m = 0 ↔ n ≠ 0) ∧ s ≠ t ∧ stored f m = stored f n))
  | .finite _ _, .nan _ | .finite _ _, .inf _ | .nan _, _ | .inf _, _ => isFalse id

theorem fmaClash_one (f : Format) (d d' : Format.Datum) :
    FmaClash f d (.finite false 1) d' ↔ AddClash f d d' := by
  have hone : stored f 1 = 1 := if_neg one_ne_zero
  cases d <;> cases d' <;> simp [FmaClash, AddClash, hone]

theorem exists_finite {w : ℕ} {u : Unpacked} {d : Format.Datum} (h : u.Denotes w d)
    (hn : u.isNan = false) (hi : u.isInf = false) : ∃ s m, d = .finite s m := by
  cases d with
  | nan s => exact absurd (h.1.symm.trans hn) (by decide)
  | inf s => exact absurd (h.2.1.symm.trans hi) (by decide)
  | finite s m => exact ⟨s, m, rfl⟩

section Unit
variable {isDouble : Bool} {a b c : Unpacked} {da db dc : Format.Datum}
  (ha : Operand (format isDouble) decodedSigWidth a)
  (hb : Operand (format isDouble) decodedSigWidth b)
  (hc : Operand (format isDouble) decodedSigWidth c)
  (hda : a.Denotes decodedSigWidth da) (hdb : b.Denotes decodedSigWidth db)
  (hdc : c.Denotes decodedSigWidth dc)
include ha hb hc hda hdb hdc

theorem clash_iff :
    AddUnit.Clash (decodedSigWidth * 2 + 1) (product decodedExpWidth decodedSigWidth a b)
      (addend decodedExpWidth decodedSigWidth c) ↔ FmaClash (format isDouble) da db dc := by
  have hready := ready ha.bounded hb.bounded hc.bounded
  have hmagc := mag_addend (w := decodedSigWidth) hready.exp hready.c_fits
  have hmag := mag_product (w := decodedSigWidth) (by decide) hready.exp
    hready.a_lt hready.b_lt hready.a_fits hready.b_fits
  constructor
  · rintro ⟨hn, hi, hcn, hci, hz, hs, hm⟩
    have hn' : (a.isNan || b.isNan) = false := hn
    have hi' : (!(a.isNan || b.isNan) && (a.isInf || b.isInf)) = false := hi
    rw [hn', Bool.not_false, Bool.true_and, Bool.or_eq_false_iff] at hi'
    rw [hmag hn, hmagc] at hm
    rw [Bool.or_eq_false_iff] at hn'
    obtain ⟨s, m, rfl⟩ := exists_finite hda hn'.1 hi'.1
    obtain ⟨t, n, rfl⟩ := exists_finite hdb hn'.2 hi'.2
    obtain ⟨u, q, rfl⟩ := exists_finite hdc hcn hci
    rw [ha.mag_eq hda, hb.mag_eq hdb, hc.mag_eq hdc] at hm
    obtain ⟨ha1, ha2, ha3, rfl, -⟩ := hda
    obtain ⟨hb1, hb2, hb3, rfl, -⟩ := hdb
    obtain ⟨hc1, hc2, hc3, rfl, -⟩ := hdc
    have hpz : (product decodedExpWidth decodedSigWidth a b).isZero = (a.isZero || b.isZero) := by
      simp [product, mul, ha1, hb1]
    have hcz : (addend decodedExpWidth decodedSigWidth c).isZero = c.isZero := rfl
    refine ⟨?_, hs, hm⟩
    rw [hpz, hcz] at hz
    rw [mul_eq_zero, ← ha3, ← hb3, ← Bool.or_eq_true, ne_eq, ← hc3, Bool.not_eq_true]
    constructor
    · intro h
      rw [h] at hz
      exact (Bool.eq_false_iff.mpr hz.symm)
    · intro h
      rw [h] at hz
      exact Bool.ne_false_iff.mp hz
  · intro h
    cases da with
    | nan s => exact h.elim
    | inf s => exact h.elim
    | finite s m =>
      cases db with
      | nan t => exact h.elim
      | inf t => exact h.elim
      | finite t n =>
        cases dc with
        | nan u => exact h.elim
        | inf u => exact h.elim
        | finite u q =>
          obtain ⟨hz, hs, hm⟩ := h
          rw [← ha.mag_eq hda, ← hb.mag_eq hdb, ← hc.mag_eq hdc] at hm
          obtain ⟨ha1, ha2, ha3, rfl, -⟩ := hda
          obtain ⟨hb1, hb2, hb3, rfl, -⟩ := hdb
          obtain ⟨hc1, hc2, hc3, rfl, -⟩ := hdc
          have hn : (mul decodedExpWidth decodedSigWidth a b).2.isNan = false := by
            simp [mul, ha1, hb1]
          refine ⟨hn, ?_, hc1, hc2, ?_, hs, ?_⟩
          · simp [product, mul, ha2, hb2]
          · have hpz : (product decodedExpWidth decodedSigWidth a b).isZero =
                (a.isZero || b.isZero) := by simp [product, mul, ha1, hb1]
            have hcz : (addend decodedExpWidth decodedSigWidth c).isZero = c.isZero := rfl
            rw [mul_eq_zero, ← ha3, ← hb3, ← Bool.or_eq_true, ne_eq, ← hc3] at hz
            rw [hpz, hcz]
            intro he
            rw [he] at hz
            exact (iff_not_self hz).elim
          · rw [hmag hn, hmagc, hm]

/-- A clash makes the unit answer a signed zero for the sum of a zero and a number. -/
theorem fmaUnit_clash (rm : RoundingMode) (h : FmaClash (format isDouble) da db dc) :
    (∃ neg, (fmaUnit rm a b c).2.Means (K := ℚ) intermediateExpWidth intermediateSigWidth
      (format isDouble) (fmaUnit rm a b c).1 false (.zero neg)) ∧
    ∃ neg x, 0 < x ∧ Format.fma rm da db dc = .number neg x := by
  have hready := ready ha.bounded hb.bounded hc.bounded
  have hclash := (clash_iff ha hb hc hda hdb hdc).mpr h
  refine ⟨⟨_, mulAdd_means_clash hready rm hclash⟩, ?_⟩
  cases da with
  | nan s => exact h.elim
  | inf s => exact h.elim
  | finite s m =>
    cases db with
    | nan t => exact h.elim
    | inf t => exact h.elim
    | finite t n =>
      cases dc with
      | nan u => exact h.elim
      | inf u => exact h.elim
      | finite u q =>
        obtain ⟨hz, -, -⟩ := h
        have hnonneg : ∀ {v : Unpacked} {r : ℚ}, (r ≠ 0 → v.mag decodedSigWidth = r) → r ≠ 0 →
            0 < r := fun hr h0 => hr h0 ▸ Unpacked.mag_pos _ _
        rw [Format.fma, Format.Datum.mul, Format.Datum.add]
        by_cases hq : q = 0
        · have hmn : m * n ≠ 0 := fun h0 => hz.mp h0 hq
          have hpos := mul_pos (hnonneg hda.2.2.2.2 (left_ne_zero_of_mul hmn))
            (hnonneg hdb.2.2.2.2 (right_ne_zero_of_mul hmn))
          exact ⟨_, _, hpos, by rw [hq, Format.sum_zero_right rm _ _ hpos]⟩
        · have hpos := hnonneg hdc.2.2.2.2 hq
          exact ⟨_, _, hpos, by rw [hz.mpr hq, Format.sum_zero_left rm _ _ hpos]⟩

theorem fmaUnit_means_aligned (rm : RoundingMode)
    (h : ¬FmaClash (format isDouble) da db dc) :
    (fmaUnit rm a b c).2.Means intermediateExpWidth intermediateSigWidth (format isDouble)
      (fmaUnit rm a b c).1 false ((Format.fma rm da db dc).withNumber
        ((da.mul db).alignedSum (decodedSigWidth * 2 + 1) dc)) :=
  mulAdd_means_aligned (ready ha.bounded hb.bounded hc.bounded) rm hda hdb hdc
    ((clash_iff ha hb hc hda hdb hdc).not.mpr h)

/-- With zeros at the ends of the factors the unit hands on the exact result. -/
theorem fmaUnit_means_exact (rm : RoundingMode) (h : ¬FmaClash (format isDouble) da db dc)
    {g k : ℕ} (hg : 2 ^ g ∣ a.significand) (hk : 2 ^ k ∣ b.significand)
    (hgw : g ≤ decodedSigWidth) (hkw : k ≤ decodedSigWidth) (hgk : decodedSigWidth ≤ g + k) :
    (fmaUnit rm a b c).2.Means intermediateExpWidth intermediateSigWidth (format isDouble)
      (fmaUnit rm a b c).1 false (Format.fma rm da db dc) := by
  have hready := ready ha.bounded hb.bounded hc.bounded
  refine mulAdd_means_of_dvd hready rm hda hdb hdc ((clash_iff ha hb hc hda hdb hdc).not.mpr h)
    (by decide) fun s m t n hm hn _ => ?_
  obtain ⟨⟨hp1, -⟩, -⟩ := hready.denotes_finite hda hdb hdc hm hn
  exact (Nat.pow_dvd_pow 2 hgk).trans
    (dvd_product (by decide) hready.a_lt hready.b_lt hg hk hgw hkw hp1)

end Unit

/-! ## Answers -/

theorem fma_mul_one (rm : RoundingMode) (d d' : Format.Datum) :
    Format.fma rm d (.finite false 1) d' = d.add rm d' := by
  have hmul : d.mul (.finite false 1) = d := by
    cases d with
    | nan s => rfl
    | inf s => simp [Format.Datum.mul]
    | finite s m => simp [Format.Datum.mul]
  rw [Format.fma, hmul]

theorem boxed_inj {isDouble : Bool} {r r' : ℕ × Flags} (h : boxed isDouble r = boxed isDouble r') :
    r = r' := by
  cases isDouble with
  | true => exact h
  | false =>
      have h1 : cat (2 ^ 32 - 1) 32 r.1 = cat (2 ^ 32 - 1) 32 r'.1 := congrArg Prod.fst h
      have h2 : (boxed false r).2 = (boxed false r').2 := congrArg Prod.snd h
      rw [cat, cat] at h1
      exact Prod.ext (by omega) h2

namespace FpUnit
variable {s : FpUnit} {i : FpuReq}

theorem accept_addsub (hop : i.op.opType = .addsub) :
    (s.accept i).state = .fma ∧ (s.accept i).decA = (decode i.double i.foperandA).toUnpacked ∧
      (s.accept i).decB = decOne ∧
      (s.accept i).decC = { (decode i.double i.foperandB).toUnpacked with
        sign := (decode i.double i.foperandB).sign ^^ i.op.param.testBit 0 } ∧
      (s.accept i).roundUseNanPayload = false ∧ (s.accept i).respValid = false := by
  simp [FpUnit.accept, hop, FpUnit.advance]

theorem accept_mul (hop : i.op.opType = .mul) :
    (s.accept i).state = .fma ∧ (s.accept i).decA = (decode i.double i.foperandA).toUnpacked ∧
      (s.accept i).decB = (decode i.double i.foperandB).toUnpacked ∧
      (s.accept i).decC = { decZero with
        sign := (decode i.double i.foperandA).sign ^^ (decode i.double i.foperandB).sign } ∧
      (s.accept i).roundUseNanPayload = false ∧ (s.accept i).respValid = false := by
  simp [FpUnit.accept, hop, FpUnit.advance]

theorem accept_fma (hop : i.op.opType = .fma) :
    (s.accept i).state = .fma ∧
      (s.accept i).decA = { (decode i.double i.foperandA).toUnpacked with
        sign := (decode i.double i.foperandA).sign ^^ i.op.param.testBit 1 } ∧
      (s.accept i).decB = (decode i.double i.foperandB).toUnpacked ∧
      (s.accept i).decC = { (decode i.double i.foperandC).toUnpacked with
        sign := (decode i.double i.foperandC).sign ^^ i.op.param.testBit 0 } ∧
      (s.accept i).roundUseNanPayload = false ∧ (s.accept i).respValid = false := by
  simp [FpUnit.accept, hop, FpUnit.advance]

theorem accept_divsqrt (hop : i.op.opType = .divsqrt) :
    (s.accept i).state = .div ∧ (s.accept i).decA = (decode i.double i.foperandA).toUnpacked ∧
      (s.accept i).decB = (decode i.double i.foperandB).toUnpacked ∧
      (s.accept i).roundUseNanPayload = false ∧ (s.accept i).respValid = false := by
  simp [FpUnit.accept, hop, FpUnit.advance]

end FpUnit

section Answers
variable {inp : ℕ → FpuReq} {n m : ℕ} {r r' : ℕ × Flags}

theorem FpUnit.Answers.eq (h : FpUnit.Answers inp n m r) (h' : FpUnit.Answers inp n m r') :
    r = r' :=
  Prod.ext (h.value.symm.trans h'.value) (h.flags.symm.trans h'.flags)

theorem FpUnit.Answers.iff_eq (h : FpUnit.Answers inp n m r) :
    FpUnit.Answers inp n m r' ↔ r = r' :=
  ⟨fun h' => h.eq h', fun he => he ▸ h⟩

variable (hidle : (run FpUnit.step FpUnit.reset inp n).state = .idle)
  (hv : (inp n).valid = true)
include hidle hv

/-- The unit answers what its fused multiply-add makes of the latched operands, rounded. -/
theorem fma_unit_answers {o : Format.Outcome ℚ} {a b c : Unpacked}
    (hacc : ((run FpUnit.step FpUnit.reset inp n).accept (inp n)).state = .fma ∧
      ((run FpUnit.step FpUnit.reset inp n).accept (inp n)).decA = a ∧
      ((run FpUnit.step FpUnit.reset inp n).accept (inp n)).decB = b ∧
      ((run FpUnit.step FpUnit.reset inp n).accept (inp n)).decC = c ∧
      ((run FpUnit.step FpUnit.reset inp n).accept (inp n)).roundUseNanPayload = false ∧
      ((run FpUnit.step FpUnit.reset inp n).accept (inp n)).respValid = false)
    (hmeans : (fmaUnit (inp n).rm a b c).2.Means intermediateExpWidth intermediateSigWidth
      (inp n).format (fmaUnit (inp n).rm a b c).1 false o) :
    FpUnit.Answers inp n (n + 5) ((inp n).answer o) := by
  obtain ⟨hs, ha, hb, hc, hnan, hresp⟩ := hacc
  obtain ⟨-, -, -, -, -, -, hdouble, hrm, -⟩ :=
    FpUnit.latched_accept (run FpUnit.step FpUnit.reset inp n) (inp n)
  have hrun := FpUnit.fma_run hidle hv rfl hs hnan hresp
  rw [ha, hb, hc, hdouble, hrm, roundToIeeeMulti_means hmeans] at hrun
  exact hrun

/-- A sum or a difference is rounded once unless the operands clash. -/
theorem sum_answers (hop : (inp n).op.opType = .addsub) :
    FpUnit.Answers inp n (n + 5) ((inp n).answer (inp n).exactSum) ↔
      ¬AddClash (inp n).format (inp n).datumA (inp n).summand := by
  set i := inp n with hi
  have hA := operand_decode i.double i.foperandA
  have hB := (operand_decode i.double i.foperandB).sign
    ((decode i.double i.foperandB).sign ^^ i.op.param.testBit 0)
  have hdA := denotes_decode i.double i.foperandA
  have hdB := denotes_negateIf (denotes_decode i.double i.foperandB) (i.op.param.testBit 0)
  have hone := operand_decOne i.double
  have hacc := FpUnit.accept_addsub (s := run FpUnit.step FpUnit.reset inp n) hop
  have hfma : Format.fma i.rm i.datumA (.finite false 1) i.summand = i.exactSum :=
    fma_mul_one i.rm i.datumA i.summand
  rw [← fmaClash_one]
  by_cases hclash : FmaClash i.format i.datumA (.finite false 1) i.summand
  · obtain ⟨⟨neg, hmeans⟩, neg', x, hx, hnum⟩ :=
      fmaUnit_clash hA hone hB hdA denotes_decOne hdB i.rm hclash
    have hans := fma_unit_answers hidle hv hacc hmeans
    rw [hans.iff_eq, ← hfma]
    simp only [hclash, not_true_eq_false, iff_false]
    intro he
    have he' := boxed_inj he
    have hnum' : Format.fma i.rm i.datumA (.finite false 1) i.summand = .number neg' x := hnum
    rw [hnum'] at he'
    exact Format.round_ne_zero hx neg he'.symm
  · have hmeans := fmaUnit_means_exact hA hone hB hdA denotes_decOne hdB i.rm hclash
      (g := 0) (k := decodedSigWidth) (one_dvd _) (dvd_zero _) (Nat.zero_le _) le_rfl
      (Nat.le_add_left _ _)
    have hans := fma_unit_answers hidle hv hacc hmeans
    simp only [hclash, not_false_eq_true, iff_true]
    rw [← hfma]
    exact hans

/-- A product is always rounded once. -/
theorem product_answers (hop : (inp n).op.opType = .mul) :
    FpUnit.Answers inp n (n + 5) ((inp n).answer (inp n).exactProduct) := by
  set i := inp n with hi
  have hA := operand_decode i.double i.foperandA
  have hB := operand_decode i.double i.foperandB
  have hdA := denotes_decode i.double i.foperandA
  have hdB := denotes_decode i.double i.foperandB
  have hacc := FpUnit.accept_mul (s := run FpUnit.step FpUnit.reset inp n) hop
  set a := (decode i.double i.foperandA).toUnpacked with ha
  set b := (decode i.double i.foperandB).toUnpacked with hb
  set c : Unpacked := { decZero with sign := a.sign ^^ b.sign } with hc
  have hbounded : Bounded (Fpu.format i.double) c := by
    obtain ⟨h1, h2, h3⟩ := bounded_decOne i.double
    exact ⟨h1, h2, h3⟩
  have hdC : c.Denotes decodedSigWidth (.finite (a.sign ^^ b.sign) 0) :=
    ⟨rfl, rfl, by simp [hc, decZero], rfl, fun h => absurd rfl h⟩
  have hready := ready hA.bounded hB.bounded hbounded
  have hmeans := mulAdd_means_of_dvd hready i.rm hdA hdB hdC (fun h => h.2.2.2.2.2.1 rfl)
    (by decide) (fun _ _ _ _ _ hz hne => absurd (Format.Datum.finite.inj hz).2.symm hne)
  have hexact : Format.fma i.rm i.datumA i.datumB (.finite (a.sign ^^ b.sign) 0) =
      i.exactProduct := by
    rw [Format.fma, FpuReq.exactProduct]
    cases hprod : i.datumA.mul i.datumB with
    | nan s => rfl
    | inf s => rfl
    | finite s m =>
        obtain ⟨⟨-, -, -, hsign, hm⟩, -⟩ := hready.denotes_finite hdA hdB hdC hprod rfl
        have hsign' : (a.sign ^^ b.sign) = s := hsign
        rw [Format.Datum.add, Format.Datum.outcome, hsign']
        split_ifs with h0
        · rw [h0, Format.sum_zero_zero, if_pos rfl]
        · exact Format.sum_zero_right i.rm _ _ (hm h0 ▸ Unpacked.mag_pos _ _)
  have hans := fma_unit_answers hidle hv hacc hmeans
  rw [← hexact]
  exact hans

end Answers

section Requests
variable {inp : ℕ → FpuReq} {n : ℕ}

/-- Sums, differences and products are rounded once, except for the sum or difference of a
zero and a number that clash. -/
theorem add_mul_answers (hidle : (run FpUnit.step FpUnit.reset inp n).state = .idle)
    (hv : (inp n).valid = true) (hop : (inp n).op.opType = .addsub ∨ (inp n).op.opType = .mul) :
    FpUnit.Answers inp n (n + 5) ((inp n).answer (inp n).exactAddMul) ↔
      ¬((inp n).op.opType = .addsub ∧
        AddClash (inp n).format (inp n).datumA (inp n).summand) := by
  rw [FpuReq.exactAddMul]
  rcases hop with hop | hop
  · have hmul : (inp n).op.opType ≠ .mul := by rw [hop]; decide
    rw [if_neg hmul, sum_answers hidle hv hop]
    simp only [hop, true_and]
  · have hadd : (inp n).op.opType ≠ .addsub := by rw [hop]; decide
    rw [if_pos hop]
    exact iff_of_true (product_answers hidle hv hop) fun h => hadd h.1

end Requests

/-- A request that is repeated for ever: an operation on doubles, rounded to nearest. -/
def doubleRequest (opType : FpOpType) (param a b c : ℕ) : FpuReq where
  rs1 := 0
  foperandA := a
  foperandB := b
  foperandC := c
  op := ⟨opType, param⟩
  rm := .tiesToEven
  double := true
  valid := true

/-- One is added to one. -/
theorem add_mul_answers_two :
    FpUnit.Answers (fun _ => doubleRequest .addsub 0 0x3ff0000000000000 0x3ff0000000000000 0) 0 5
      (0x4000000000000000, {}) := by
  have hexact : (doubleRequest .addsub 0 0x3ff0000000000000 0x3ff0000000000000 0).answer
      (doubleRequest .addsub 0 0x3ff0000000000000 0x3ff0000000000000 0).exactAddMul =
        (0x4000000000000000, {}) := by with_unfolding_all decide
  rw [← hexact]
  exact (add_mul_answers rfl rfl (.inl rfl)).mpr (by with_unfolding_all decide)

/-- The sum of zero and the number in its fields, negated, is a zero. -/
theorem not_add_mul_answers :
    (run FpUnit.step FpUnit.reset
      (fun _ => doubleRequest .addsub 0 0 0x8008000000000000 0) 5).respValue =
        0x8000000000000000 ∧
      ¬FpUnit.Answers (fun _ => doubleRequest .addsub 0 0 0x8008000000000000 0) 0 5
        ((doubleRequest .addsub 0 0 0x8008000000000000 0).answer
          (doubleRequest .addsub 0 0 0x8008000000000000 0).exactAddMul) := by
  have hrun : (run FpUnit.step FpUnit.reset
      (fun _ => doubleRequest .addsub 0 0 0x8008000000000000 0) 5).respValue =
        0x8000000000000000 := by decide
  have hexact : ((doubleRequest .addsub 0 0 0x8008000000000000 0).answer
      (doubleRequest .addsub 0 0 0x8008000000000000 0).exactAddMul).1 = 0x8008000000000000 := by
    decide +kernel
  refine ⟨hrun, fun h => ?_⟩
  have hvalue := h.value
  rw [hrun, hexact] at hvalue
  exact absurd hvalue (by decide)

/-! ## The fused multiply-add -/

/-- The sum in the frame of the adder is rounded in place of the exact one, and it shows. -/
def AlignmentShows (f : Format) (rm : RoundingMode) (da db dc : Format.Datum) : Prop :=
  ∃ neg x, Format.fma rm da db dc = .number neg x ∧
    x ≠ (da.mul db).alignedSum (decodedSigWidth * 2 + 1) dc ∧
    f.Visible rm neg x ((da.mul db).alignedSum (decodedSigWidth * 2 + 1) dc)

section Shows
variable {isDouble : Bool} {a b c : Unpacked} {da db dc : Format.Datum}
  (ha : Operand (format isDouble) decodedSigWidth a)
  (hb : Operand (format isDouble) decodedSigWidth b)
  (hc : Operand (format isDouble) decodedSigWidth c)
  (hda : a.Denotes decodedSigWidth da) (hdb : b.Denotes decodedSigWidth db)
  (hdc : c.Denotes decodedSigWidth dc)
include ha hb hc hda hdb hdc

/-- Rounding the sum of the frame and rounding the exact one agree unless it shows. -/
theorem round_aligned_iff (rm : RoundingMode) {neg : Bool} {x : ℚ}
    (hlt : ∀ t q, dc = .finite t q → q < 2 ^ ((format isDouble).maxExp + 1))
    (hx : Format.fma rm da db dc = .number neg x) :
    (format isDouble).round rm neg ((da.mul db).alignedSum (decodedSigWidth * 2 + 1) dc) =
      (format isDouble).round rm neg x ↔
    (x = (da.mul db).alignedSum (decodedSigWidth * 2 + 1) dc ∨
      ¬(format isDouble).Visible rm neg x
        ((da.mul db).alignedSum (decodedSigWidth * 2 + 1) dc)) := by
  have hready := ready ha.bounded hb.bounded hc.bounded
  obtain ⟨s, m, t, q, hp, rfl, hsum⟩ := Format.finite_of_fma hx
  obtain ⟨⟨hp1, hp2, hp3, rfl, hp5⟩, ⟨hc1, hc2, hc3, rfl, hc5⟩⟩ :=
    hready.denotes_finite hda hdb hdc hp rfl
  have hxpos := Format.sum_number_pos hsum
  have hpos : ∀ {u : Unpacked} {r : ℚ}, (r ≠ 0 → u.mag (decodedSigWidth * 2 + 1) = r) → r ≠ 0 →
      0 < r := fun hr h0 => hr h0 ▸ Unpacked.mag_pos _ _
  rw [hp, Format.Datum.alignedSum]
  by_cases hm : m = 0
  · -- the addend is passed on
    have hq : q ≠ 0 := by
      rintro rfl
      rw [hm, Format.sum_zero_zero] at hsum
      cases hsum
    rw [hm, Format.sum_zero_left rm _ _ (hpos hc5 hq)] at hsum
    cases hsum
    rw [hm, alignedSum_zero_left _ _ (hpos hc5 hq).le]
    simp
  · by_cases hq : q = 0
    · rw [hq, Format.sum_zero_right rm _ _ (hpos hp5 hm)] at hsum
      cases hsum
      rw [hq, alignedSum_zero_right _ _ (hpos hp5 hm).le]
      simp
    · have hval := Format.value_sum rm (product decodedExpWidth decodedSigWidth a b).sign
        (addend decodedExpWidth decodedSigWidth c).sign (hpos hp5 hm) (hpos hc5 hq)
      rw [hsum] at hval
      change x = _ at hval
      have hgap := AddUnit.gap_alignedSum hready.fits
        (product_significand_lt (by decide) hready.a_lt hready.b_lt)
        (addend_significand_lt hready.c_lt) hready.product_headroom hready.addend_headroom
        (format isDouble) (by cases isDouble <;> decide)
      have hu := AddUnit.sum_mul_frameUnit hready.fits
        (product_significand_lt (by decide) hready.a_lt hready.b_lt)
        (addend_significand_lt hready.c_lt) hready.product_headroom.expFits
        hready.addend_headroom.expFits
      have hz := AddUnit.sum_eq_zero_iff hready.fits
        (product_significand_lt (by decide) hready.a_lt hready.b_lt)
        (addend_significand_lt hready.c_lt) hready.product_headroom.expFits
        hready.addend_headroom.expFits
      rw [show (fmaParams decodedExpWidth decodedSigWidth intermediateExpWidth
        intermediateSigWidth).inSigWidth = decodedSigWidth * 2 + 1 from rfl, hp5 hm, hc5 hq]
        at hgap hu hz
      have hsub : AddUnit.substractMagnitude (product decodedExpWidth decodedSigWidth a b)
          (addend decodedExpWidth decodedSigWidth c) =
        ((product decodedExpWidth decodedSigWidth a b).sign ^^
          (addend decodedExpWidth decodedSigWidth c).sign) := rfl
      rw [hsub] at hgap hu hz
      rw [← hval] at hgap
      by_cases hxy : x = alignedSum (decodedSigWidth * 2 + 1)
          ((product decodedExpWidth decodedSigWidth a b).sign ^^
            (addend decodedExpWidth decodedSigWidth c).sign) m q
      · rw [← hxy]
        simp
      · have hypos : 0 < alignedSum (decodedSigWidth * 2 + 1)
            ((product decodedExpWidth decodedSigWidth a b).sign ^^
              (addend decodedExpWidth decodedSigWidth c).sign) m q := by
          rw [← hu]
          refine mul_pos (Nat.cast_pos.mpr (Nat.pos_of_ne_zero fun h0 => ?_))
            (zpow_pos two_pos _)
          obtain ⟨hs, hmq⟩ := hz.mp h0
          rw [hs, if_pos rfl, hmq, max_self, min_self, sub_self] at hval
          exact hxpos.ne' hval
        have hmin : min m q < 2 ^ ((format isDouble).maxExp + 1) :=
          (min_le_right _ _).trans_lt (hlt _ _ rfl)
        rw [eq_comm, Format.round_eq_iff hxpos hypos hxy (hgap hmin)]
        simp [hxy]

end Shows

theorem negateIf_finite {negate : Bool} {d : Format.Datum} {t : Bool} {q : ℚ}
    (h : negateIf negate d = .finite t q) : ∃ s, d = .finite s q := by
  cases negate with
  | false => exact ⟨t, h⟩
  | true =>
      cases d with
      | nan s => cases h
      | inf s => cases h
      | finite s m =>
          cases h
          exact ⟨s, rfl⟩

section FmaAnswers
variable {inp : ℕ → FpuReq} {n : ℕ}

/-- A fused multiply-add is rounded once unless the product and the addend clash or the
alignment shows, which happens only to doubles. -/
theorem fma_answers (hidle : (run FpUnit.step FpUnit.reset inp n).state = .idle)
    (hv : (inp n).valid = true) (hop : (inp n).op.opType = .fma) :
    FpUnit.Answers inp n (n + 5) ((inp n).answer (inp n).exactFma) ↔
      ¬FmaClash (inp n).format (inp n).factor (inp n).datumB (inp n).addend ∧
      ¬((inp n).double = true ∧
        AlignmentShows (inp n).format (inp n).rm (inp n).factor (inp n).datumB
          (inp n).addend) := by
  set i := inp n with hi
  have hA := (operand_decode i.double i.foperandA).sign
    ((decode i.double i.foperandA).sign ^^ i.op.param.testBit 1)
  have hB := operand_decode i.double i.foperandB
  have hC := (operand_decode i.double i.foperandC).sign
    ((decode i.double i.foperandC).sign ^^ i.op.param.testBit 0)
  have hdA := denotes_negateIf (denotes_decode i.double i.foperandA) (i.op.param.testBit 1)
  have hdB := denotes_decode i.double i.foperandB
  have hdC := denotes_negateIf (denotes_decode i.double i.foperandC) (i.op.param.testBit 0)
  have hacc := FpUnit.accept_fma (s := run FpUnit.step FpUnit.reset inp n) hop
  by_cases hclash : FmaClash i.format i.factor i.datumB i.addend
  · obtain ⟨⟨neg, hmeans⟩, neg', x, hx, hnum⟩ := fmaUnit_clash hA hB hC hdA hdB hdC i.rm hclash
    have hans := fma_unit_answers hidle hv hacc hmeans
    rw [hans.iff_eq]
    simp only [hclash, not_true_eq_false, false_and, iff_false]
    intro he
    have he' := boxed_inj he
    have hnum' : i.exactFma = .number neg' x := hnum
    rw [hnum'] at he'
    exact Format.round_ne_zero hx neg he'.symm
  · simp only [hclash, not_false_eq_true, true_and]
    cases hd : i.double with
    | false =>
        -- the factors of a single have the zeros at their ends
        have hdvdA : 2 ^ 29 ∣ (decode i.double i.foperandA).significand := by
          have := hA.dvd
          rwa [hd] at this ⊢
        have hdvdB : 2 ^ 29 ∣ (decode i.double i.foperandB).significand := by
          have := hB.dvd
          rwa [hd] at this ⊢
        have hmeans := fmaUnit_means_exact hA hB hC hdA hdB hdC i.rm hclash
          (g := 29) (k := 29) hdvdA hdvdB (by decide) (by decide) (by decide)
        have hans := fma_unit_answers hidle hv hacc hmeans
        simp only [Bool.false_eq_true, false_and, not_false_eq_true, iff_true]
        exact hans
    | true =>
        have hmeans := fmaUnit_means_aligned hA hB hC hdA hdB hdC i.rm hclash
        have hans : FpUnit.Answers inp n (n + 5) (i.answer (i.exactFma.withNumber
            ((i.factor.mul i.datumB).alignedSum (decodedSigWidth * 2 + 1) i.addend))) :=
          fma_unit_answers hidle hv hacc hmeans
        have hlt : ∀ t q, i.addend = .finite t q → q < 2 ^ (i.format.maxExp + 1) := by
          intro t q hq
          obtain ⟨s, hs⟩ := negateIf_finite hq
          exact registerDatum_lt hs
        have hnone : (∀ neg x, i.exactFma ≠ .number neg x) →
            ¬AlignmentShows i.format i.rm i.factor i.datumB i.addend :=
          fun h ⟨neg, x, hx, _⟩ => h neg x hx
        rw [hans.iff_eq, and_iff_right rfl]
        cases hfma : i.exactFma with
        | nan s => exact iff_of_true rfl (hnone (by simp [hfma]))
        | inf s z => exact iff_of_true rfl (hnone (by simp [hfma]))
        | zero s => exact iff_of_true rfl (hnone (by simp [hfma]))
        | number neg x =>
            have hround := round_aligned_iff hA hB hC hdA hdB hdC i.rm hlt hfma
            have hshows : AlignmentShows i.format i.rm i.factor i.datumB i.addend ↔
                x ≠ (i.factor.mul i.datumB).alignedSum (decodedSigWidth * 2 + 1) i.addend ∧
                i.format.Visible i.rm neg x
                  ((i.factor.mul i.datumB).alignedSum (decodedSigWidth * 2 + 1) i.addend) := by
              constructor
              · rintro ⟨neg', x', hx', h⟩
                have hx'' : i.exactFma = .number neg' x' := hx'
                rw [hfma] at hx''
                cases hx''
                exact h
              · exact fun h => ⟨neg, x, hfma, h⟩
            rw [hshows, not_and_or, not_not]
            refine Iff.trans ?_ hround
            exact ⟨fun he => boxed_inj he, fun he => congrArg (boxed i.double) he⟩

end FmaAnswers

/-- One times one is added to one. -/
theorem fma_answers_two :
    FpUnit.Answers (fun _ => doubleRequest .fma 0 0x3ff0000000000000 0x3ff0000000000000
      0x3ff0000000000000) 0 5 (0x4000000000000000, {}) := by
  set i := doubleRequest .fma 0 0x3ff0000000000000 0x3ff0000000000000 0x3ff0000000000000 with hi
  have hexact : i.answer i.exactFma = (0x4000000000000000, {}) := by with_unfolding_all decide
  have hshows : ¬AlignmentShows i.format i.rm i.factor i.datumB i.addend := by
    rintro ⟨neg, x, hx, hne, -⟩
    have hfma : i.exactFma.value = x := congrArg Format.Outcome.value hx
    exact hne (hfma.symm.trans (by with_unfolding_all decide))
  rw [← hexact]
  exact (fma_answers rfl rfl rfl).mpr ⟨by with_unfolding_all decide, fun h => hshows h.2⟩

/-- The square of the largest number below two is a little less than four.  Its difference
from four is a tie, but the frame of the adder makes it a number of the format. -/
theorem not_fma_answers :
    (run FpUnit.step FpUnit.reset (fun _ => doubleRequest .fma 0 0x3fffffffffffffff
      0x3fffffffffffffff 0xc010000000000000) 5).respValue = 0xbccfffffffffffff ∧
    (run FpUnit.step FpUnit.reset (fun _ => doubleRequest .fma 0 0x3fffffffffffffff
      0x3fffffffffffffff 0xc010000000000000) 5).respFlags = {} ∧
    (doubleRequest .fma 0 0x3fffffffffffffff 0x3fffffffffffffff 0xc010000000000000).answer
      (doubleRequest .fma 0 0x3fffffffffffffff 0x3fffffffffffffff 0xc010000000000000).exactFma =
        (0xbcd0000000000000, { inexact := true }) ∧
    ¬FpUnit.Answers (fun _ => doubleRequest .fma 0 0x3fffffffffffffff 0x3fffffffffffffff
      0xc010000000000000) 0 5
      ((doubleRequest .fma 0 0x3fffffffffffffff 0x3fffffffffffffff 0xc010000000000000).answer
        (doubleRequest .fma 0 0x3fffffffffffffff 0x3fffffffffffffff
          0xc010000000000000).exactFma) := by
  set i := doubleRequest .fma 0 0x3fffffffffffffff 0x3fffffffffffffff 0xc010000000000000 with hi
  have hvalue : (run FpUnit.step FpUnit.reset (fun _ => i) 5).respValue = 0xbccfffffffffffff := by
    decide
  have hflags : (run FpUnit.step FpUnit.reset (fun _ => i) 5).respFlags = {} := by decide
  have hexact : i.answer i.exactFma = (0xbcd0000000000000, { inexact := true }) := by
    decide +kernel
  refine ⟨hvalue, hflags, hexact, fun h => ?_⟩
  have hans := h.value
  rw [hvalue, hexact] at hans
  exact absurd hans (by decide)

/-! ## Division and square root -/

/-- The exponents of operands leave the rounder the room that it needs. -/
theorem room_div {isDouble : Bool} {a b : Unpacked} (ha : Bounded (format isDouble) a)
    (hb : Bounded (format isDouble) b) {d : ℕ} (hd : d ≤ 1) :
    RoundToIeee.InRange intermediateExpWidth (format isDouble) (a.exponent - b.exponent - d) ∧
      wrap intermediateExpWidth (a.exponent - b.exponent - d) = a.exponent - b.exponent - d := by
  have hbounds : -1074 ≤ (format isDouble).minExp - (format isDouble).sigWidth ∧
      (format isDouble).maxExp + 1 ≤ 1024 ∧ -1022 ≤ (format isDouble).minExp := by
    cases isDouble <;> decide
  obtain ⟨hlo, hhi, hmin⟩ := hbounds
  have ha1 := ha.lo
  have ha2 := ha.hi
  have hb1 := hb.lo
  have hb2 := hb.hi
  have hw : (2 : ℤ) ^ intermediateExpWidth = 8192 := by decide
  refine ⟨⟨?_, ?_⟩, wrap_eq ?_ ?_⟩ <;> rw [hw] <;> omega

theorem room_sqrt {isDouble : Bool} {a : Unpacked} (ha : Bounded (format isDouble) a) :
    RoundToIeee.InRange intermediateExpWidth (format isDouble) (a.exponent / 2) := by
  have hbounds : -1074 ≤ (format isDouble).minExp - (format isDouble).sigWidth ∧
      (format isDouble).maxExp + 1 ≤ 1024 ∧ -1022 ≤ (format isDouble).minExp := by
    cases isDouble <;> decide
  obtain ⟨hlo, hhi, hmin⟩ := hbounds
  have ha1 := ha.lo
  have ha2 := ha.hi
  have hw : (2 : ℤ) ^ intermediateExpWidth = 8192 := by decide
  refine ⟨?_, ?_⟩ <;> rw [hw] <;> omega

/-- The answer to a request to the divider. -/
noncomputable def FpuReq.exactDivSqrt (i : FpuReq) : ℕ × Flags :=
  if i.op.param == fpParamSqrt then i.answer i.exactRoot else i.answer i.exactQuotient

/-- The cycles that the recurrence takes for a request. -/
def FpuReq.divCycles (i : FpuReq) : ℕ :=
  FpUnit.divCycles (i.op.param == fpParamSqrt) (decode i.double i.foperandA).toUnpacked
    (decode i.double i.foperandB).toUnpacked

/-- The recurrence keeps its invariant for all significands, and quotients and square roots
are rounded once. -/
theorem div_sqrt_answers :
    (∀ sqrt a b, DivSqrt.Numbers divWidths sqrt a b →
      DivSqrt.Recurrence divWidths sqrt a b fun k =>
        (DivSqrt.compute divWidths)^[k] (DivSqrt.accept divWidths sqrt a b)) ∧
    ∀ (inp : ℕ → FpuReq) (n : ℕ), (run FpUnit.step FpUnit.reset inp n).state = .idle →
      (inp n).valid = true → (inp n).op.opType = .divsqrt →
      FpUnit.Answers inp n (n + 4 + (inp n).divCycles) (inp n).exactDivSqrt := by
  refine ⟨fun sqrt a b h => DivSqrt.recurrence (by decide) h (by decide),
    fun inp n hidle hv hop => ?_⟩
  have hA := operand_decode (inp n).double (inp n).foperandA
  have hB := operand_decode (inp n).double (inp n).foperandB
  have hdA := denotes_decode (inp n).double (inp n).foperandA
  have hdB := denotes_decode (inp n).double (inp n).foperandB
  obtain ⟨hs, ha, hb, hnan, hresp⟩ :=
    FpUnit.accept_divsqrt (s := run FpUnit.step FpUnit.reset inp n) hop
  obtain ⟨-, -, -, -, -, -, hdouble, hrm, hopl⟩ :=
    FpUnit.latched_accept (run FpUnit.step FpUnit.reset inp n) (inp n)
  have hrun := FpUnit.div_run hidle hv rfl hs hnan hresp
    (ha ▸ hA.significand_lt) (hb ▸ hB.significand_lt)
  rw [ha, hb, hdouble, hrm, hopl] at hrun
  rw [FpuReq.divCycles, FpuReq.exactDivSqrt]
  cases hsqrt : (inp n).op.param == fpParamSqrt with
  | true =>
      have hmeans := DivSqrt.means_sqrt (p := divWidths) (by decide) (by decide)
        hA.significand_lt hB.significand_lt hdA (room_sqrt hA.bounded)
      rw [hsqrt, roundToIeeeMulti_means hmeans] at hrun
      exact hrun
  | false =>
      have hmeans := DivSqrt.means_div (p := divWidths) (by decide) (by decide)
        hA.significand_lt hB.significand_lt hdA hdB
        (fun d hd => room_div hA.bounded hB.bounded hd)
      rw [hsqrt, roundToIeeeMulti_means hmeans] at hrun
      exact hrun

/-- One by three, with the recurrence of its significands. -/
theorem div_sqrt_answers_third :
    FpUnit.Answers (fun _ => doubleRequest .divsqrt 0 0x3ff0000000000000 0x4008000000000000 0) 0 58
      (0x3fd5555555555555, { inexact := true }) ∧
    ((DivSqrt.compute divWidths)^[54] (DivSqrt.accept divWidths false decOne
      (decode true 0x4008000000000000).toUnpacked)).state = .output := by
  set i := doubleRequest .divsqrt 0 0x3ff0000000000000 0x4008000000000000 0 with hi
  have hexact : i.exactDivSqrt = (0x3fd5555555555555, { inexact := true }) := by
    change i.answer i.exactQuotient = _
    decide +kernel
  have hcycles : 0 + 4 + i.divCycles = 58 := by decide
  rw [← hexact, ← hcycles]
  refine ⟨div_sqrt_answers.2 (fun _ => i) 0 rfl rfl rfl, ?_⟩
  exact (div_sqrt_answers.1 false decOne _ ⟨by decide, by decide, by decide⟩).state
    54 le_rfl

end Muntjac.Fpu

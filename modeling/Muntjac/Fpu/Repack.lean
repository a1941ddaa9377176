import Muntjac.Fpu.Arithmetic
import Muntjac.Ieee.Recode

/-!
# Operands that are delivered again

Sign injection, the minimum and maximum and the conversions between the formats take a
decoded operand to the rounder.  The state machine does this in one cycle, in which also
comparisons and conversions to integers are answered.

## Main results

* `means_widen` — the rounder gets what the operand stands for.
* `sgnj_answers` — sign injection changes the sign bit of a register and nothing else.
* `cvtF2F_answers` — the conversion rounds what the register holds.
* `unpack_repack` — nothing is lost, and a single survives the conversion to a double.
-/

namespace Muntjac.Fpu

open Sync Ieee

def fpParamSgnjx : ℕ := 2

/-! ## Cycles of the state machine -/

namespace FpuReq
variable (i : FpuReq)

/-- The format of the operands. -/
def decodeAsDouble : Bool := if i.op.opType = .cvtF2F then !i.double else i.double

/-- The operation is done in the one cycle of `StateMisc`. -/
def IsMisc : Prop :=
  i.op.opType = .sgnj ∨ i.op.opType = .minmax ∨ i.op.opType = .cvtF2F ∨ i.op.opType = .cvtF2I ∨
    i.op.opType = .cmp

end FpuReq

namespace FpUnit
variable {s : FpUnit} {i : FpuReq}

/-- What a request leaves for the cycle of `StateMisc`. -/
theorem accept_misc (hop : i.IsMisc) :
    (s.accept i).state = .misc ∧
      (s.accept i).decA = (decode i.decodeAsDouble i.foperandA).toUnpacked ∧
      (s.accept i).decB = (decode i.decodeAsDouble i.foperandB).toUnpacked ∧
      (s.accept i).roundInvalidOperation = false ∧
      (s.accept i).roundUseNanPayload = (i.op.opType == .sgnj) ∧
      (s.accept i).respValid = false := by
  rcases hop with hop | hop | hop | hop | hop <;>
    simp [FpUnit.accept, hop, FpUnit.advance, FpuReq.decodeAsDouble]

section Run
variable {inp : ℕ → FpuReq} {n : ℕ}

theorem reqReady_of_ne (h : s.state ≠ .idle) : s.reqReady = false := beq_false_of_ne h

variable (hidle : (run step reset inp n).state = .idle) (hv : (inp n).valid = true)
  (hop : (inp n).IsMisc)
include hidle hv hop

theorem run_misc :
    run step reset inp (n + 2) = ((run step reset inp n).accept (inp n)).stepMisc := by
  obtain ⟨hs, -⟩ := accept_misc (s := run step reset inp n) hop
  rw [run_succ, run_accept hidle hv, step, hs]

/-- The state before the answer is not ready for another request. -/
theorem quiet_misc :
    (run step reset inp (n + 1)).respValid = false ∧
      (run step reset inp (n + 1)).reqReady = false := by
  obtain ⟨hs, -, -, -, -, hresp⟩ := accept_misc (s := run step reset inp n) hop
  rw [run_accept hidle hv]
  exact ⟨hresp, reqReady_of_ne (by rw [hs]; decide)⟩

/-- An operation that is answered in its cycle. -/
theorem answers_of_misc {r : ℕ × Flags}
    (hr : (((run step reset inp n).accept (inp n)).stepMisc).respValid = true ∧
      (((run step reset inp n).accept (inp n)).stepMisc).respValue = r.1 ∧
      (((run step reset inp n).accept (inp n)).stepMisc).respFlags = r.2) :
    Answers inp n (n + 2) r := by
  rw [← run_misc hidle hv hop] at hr
  refine ⟨by omega, hr.1, hr.2.1, hr.2.2, fun k hk hkm => ?_⟩
  obtain rfl : k = n + 1 := by omega
  exact quiet_misc hidle hv hop

/-- An operation whose result is rounded in the next cycle. -/
theorem answers_of_misc_rounding
    (hs : (((run step reset inp n).accept (inp n)).stepMisc).state = .round)
    (hresp : (((run step reset inp n).accept (inp n)).stepMisc).respValid = false) :
    Answers inp n (n + 3) ((((run step reset inp n).accept (inp n)).stepMisc).rounded.1,
      orFlags (((run step reset inp n).accept (inp n)).stepMisc).respFlags
        (((run step reset inp n).accept (inp n)).stepMisc).rounded.2) := by
  have hrun := run_misc hidle hv hop
  rw [← hrun] at hs hresp ⊢
  refine answers_of_rounding (by omega) hs fun k hk hkm => ?_
  obtain rfl | rfl : k = n + 1 ∨ k = n + 2 := by omega
  · exact quiet_misc hidle hv hop
  · exact ⟨hresp, reqReady_of_ne (by rw [hs]; decide)⟩

end Run

end FpUnit

/-! ## Operands in the rounder -/

theorem roundToIeeeMulti_eq (w W : ℕ) (inv dz nanp isDouble : Bool) (rm : RoundingMode)
    (x : Unpacked) :
    roundToIeeeMulti w W inv dz nanp isDouble rm x =
      boxed isDouble (roundToIeee w W (format isDouble) inv dz nanp rm x) := by
  cases isDouble <;> rfl

/-- The payload is only looked at for a NaN. -/
theorem roundToIeee_useNanPayload {w W : ℕ} {f : Format} {dz : Bool} {rm : RoundingMode}
    {x : Unpacked} (hn : x.isNan = false) (nanp : Bool) :
    roundToIeee w W f false dz nanp rm x = roundToIeee w W f false dz false rm x := by
  simp only [roundToIeee, hn, Bool.or_self, Bool.false_eq_true, if_false]

/-- The rounder gets what the operand stands for, whatever the format of the result. -/
theorem means_widen {isDouble' : Bool} {u : Unpacked} {d : Format.Datum}
    (h : Operand (format isDouble') decodedSigWidth u) (hd : u.Denotes decodedSigWidth d)
    (isDouble : Bool) :
    (FpUnit.widen u).Means intermediateExpWidth intermediateSigWidth (format isDouble)
      (u.isSignaling decodedSigWidth) false d.outcome := by
  have hbounds : ∀ g, -1074 ≤ (format g).minExp - (format g).sigWidth ∧
      (format g).maxExp + 1 ≤ 1024 ∧ -1022 ≤ (format g).minExp := by
    intro g
    cases g <;> decide
  have hw := two_pow_intermediateExpWidth
  cases d with
  | nan s =>
      obtain ⟨hn, -, -, hs⟩ := hd
      refine ⟨hs, ?_⟩
      change (s || u.isNan) = true
      rw [hn, Bool.or_true]
  | inf s =>
      obtain ⟨hn, hi, -, hs⟩ := hd
      exact ⟨by rw [Unpacked.isSignaling, hn, Bool.false_and], hn, hi, hs, rfl⟩
  | finite s m =>
      obtain ⟨hn, hi, hz, hs, hm⟩ := hd
      have hsig : u.isSignaling decodedSigWidth = false := by
        rw [Unpacked.isSignaling, hn, Bool.false_and]
      rw [Format.Datum.outcome]
      split_ifs with h0
      · exact ⟨hsig, hn, hi, hz.mpr h0, hs⟩
      · have hlt := h.significand_lt
        have hlo := h.lo
        have hhi := h.hi
        obtain ⟨hmin, hmax, -⟩ := hbounds isDouble'
        obtain ⟨-, -, hmin'⟩ := hbounds isDouble
        have hwide : u.significand * 4 < 2 ^ intermediateSigWidth := by
          change _ < 2 ^ (decodedSigWidth + 2)
          rw [Nat.pow_add]
          omega
        have hval : m / 2 ^ (u.exponent - (intermediateSigWidth : ℕ)) =
            ((2 ^ intermediateSigWidth + u.significand * 4 : ℕ) : ℚ) := by
          have hpow : (2 : ℚ) ^ (u.exponent - (decodedSigWidth : ℕ)) =
              2 ^ (2 : ℤ) * 2 ^ (u.exponent - (intermediateSigWidth : ℕ)) := by
            rw [← zpow_add₀ two_ne_zero]
            congr 1
            change u.exponent - 52 = 2 + (u.exponent - 54)
            ring
          rw [← hm h0, Unpacked.mag, hpow, div_eq_iff (zpow_pos two_pos _).ne', ← mul_assoc]
          congr 1
          change (2 ^ 52 + (u.significand : ℚ)) * 2 ^ (2 : ℤ) = _
          push_cast
          change _ = (2 : ℚ) ^ 54 + _
          ring
        refine ⟨hsig, hn, hi, ?_, hs, hwide, ⟨?_, ?_⟩, ?_⟩
        · exact Bool.eq_false_iff.mpr fun h => h0 (hz.mp h)
        · change -(2 : ℤ) ^ intermediateExpWidth ≤ 2 * u.exponent
          omega
        · change 2 * (u.exponent - (format isDouble).minExp) ≤ 2 ^ intermediateExpWidth
          omega
        · change Sticky (m / 2 ^ (u.exponent - (intermediateSigWidth : ℕ))) _
          rw [hval]
          exact Sticky.self _

theorem denotes_withSign {w : ℕ} {u : Unpacked} {d : Format.Datum} (h : u.Denotes w d) (s : Bool) :
    Unpacked.Denotes w { u with sign := s } (d.withSign s) := by
  cases d with
  | nan t => exact h
  | inf t =>
      obtain ⟨hn, hi, hz, -⟩ := h
      exact ⟨hn, hi, hz, rfl⟩
  | finite t m =>
      obtain ⟨hn, hi, hz, -, hm⟩ := h
      exact ⟨hn, hi, hz, rfl, hm⟩

/-! ## Registers -/

/-- The register is read in full: a single is NaN-boxed. -/
def Whole (isDouble : Bool) (b : ℕ) : Prop :=
  b < 2 ^ 64 ∧ (isDouble = true ∨ b / 2 ^ 32 = 2 ^ 32 - 1)

/-- The sign of a register; without its box a single is the canonical NaN. -/
def registerSign (isDouble : Bool) (b : ℕ) : Bool :=
  if isDouble then double.sign b else decide (b / 2 ^ 32 = 2 ^ 32 - 1) && single.sign b

theorem sign_decode (isDouble : Bool) (b : ℕ) :
    (decode isDouble b).sign = registerSign isDouble b := by
  cases isDouble with
  | true => rfl
  | false =>
      by_cases hb : b / 2 ^ 32 = 2 ^ 32 - 1
      · rw [decode_of_boxed hb, registerSign, if_neg (by simp), decide_eq_true hb, Bool.true_and]
        change single.sign (b % 2 ^ 32) = single.sign b
        rw [Format.sign, Format.sign, Nat.testBit_mod_two_pow]
        rfl
      · rw [decode_of_not_boxed hb, registerSign, if_neg (by simp), decide_eq_false hb,
          Bool.false_and]

/-- The word of the format in the register. -/
def word (isDouble : Bool) (b : ℕ) : ℕ := if isDouble then b else b % 2 ^ 32

theorem Whole.decode_eq {isDouble : Bool} {b : ℕ} (h : Whole isDouble b) :
    word isDouble b < 2 ^ (format isDouble).width ∧
      registerDatum isDouble b = (format isDouble).decode (word isDouble b) ∧
      decode isDouble b =
        normalizeFromIeee (format isDouble) decodedExpWidth decodedSigWidth (word isDouble b) := by
  obtain ⟨hlt, hbox⟩ := h
  cases isDouble with
  | true => exact ⟨hlt, rfl, rfl⟩
  | false =>
      have hb := hbox.resolve_left (by simp)
      refine ⟨Nat.mod_lt _ (Nat.two_pow_pos _), ?_, decode_of_boxed hb⟩
      rw [registerDatum, if_neg (by simp), if_pos hb]
      rfl

/-- The word with another sign bit, in its box, is the register with that sign bit. -/
theorem Whole.boxed_withSign {isDouble : Bool} {b : ℕ} (h : Whole isDouble b) (s : Bool)
    (flags : Flags) :
    boxed isDouble ((format isDouble).withSign s (word isDouble b), flags) =
      ((format isDouble).withSign s b, flags) := by
  obtain ⟨hlt, hbox⟩ := h
  cases isDouble with
  | true => rfl
  | false =>
      have hb := hbox.resolve_left (by simp)
      have hcat := cat_div_mod b 32
      rw [hb] at hcat
      have h := single.withSign_cat s (2 ^ 32 - 1) (b := b % 2 ^ 32)
        (Nat.mod_lt _ (Nat.two_pow_pos _))
      change single.withSign s (cat (2 ^ 32 - 1) 32 (b % 2 ^ 32)) = _ at h
      rw [hcat] at h
      change (cat (2 ^ 32 - 1) 32 (single.withSign s (b % 2 ^ 32)), flags) = _
      rw [Format.width] at h
      exact Prod.ext h.symm rfl

theorem Whole.boxed_word {isDouble : Bool} {b : ℕ} (h : Whole isDouble b) (flags : Flags) :
    boxed isDouble (word isDouble b, flags) = (b, flags) := by
  have hb := h.boxed_withSign ((format isDouble).sign (word isDouble b)) flags
  have hsign : (format isDouble).sign (word isDouble b) = (format isDouble).sign b := by
    cases isDouble with
    | true => rfl
    | false =>
        change single.sign (b % 2 ^ 32) = single.sign b
        rw [Format.sign, Format.sign, Nat.testBit_mod_two_pow]
        rfl
  rw [Format.withSign_sign] at hb
  rwa [hsign, Format.withSign_sign] at hb

/-- A NaN is delivered with its payload. -/
theorem round_withSign_nan {f : Format} (hf : f.sigWidth ≤ decodedSigWidth) {b : ℕ}
    (hb : b < 2 ^ f.width) (hmax : f.exponent b = 2 ^ f.expWidth - 1)
    (hs0 : f.significand b ≠ 0) (rm : RoundingMode) (s : Bool) :
    roundToIeee intermediateExpWidth intermediateSigWidth f false false true rm
      { FpUnit.widen (normalizeFromIeee f decodedExpWidth decodedSigWidth b).toUnpacked with
        sign := s } = (f.withSign s b, {}) := by
  have hexp : 2 ^ 2 ≤ 2 ^ f.expWidth := Nat.pow_le_pow_right two_pos f.two_le_expWidth
  have hsw := f.two_le_sigWidth
  have h0 : f.exponent b ≠ 0 := by omega
  set u := (normalizeFromIeee f decodedExpWidth decodedSigWidth b).toUnpacked with hu
  have hnan : u.isNan = true := by simp [hu, normalizeFromIeee, ← hmax, hs0]
  have hsig : u.significand = cat (f.significand b) (decodedSigWidth - f.sigWidth) 0 := by
    simp [hu, normalizeFromIeee, h0]
  -- the payload stands above the zeros that the widening added
  have hpayload : slice (FpUnit.widen u).significand (intermediateSigWidth - 1)
      (intermediateSigWidth - f.sigWidth) = f.significand b := by
    have hwide : (FpUnit.widen u).significand =
        f.significand b * 2 ^ (intermediateSigWidth - f.sigWidth) := by
      change cat u.significand 2 0 = _
      rw [hsig, cat, cat, Nat.add_zero, Nat.add_zero, Nat.mul_assoc, ← Nat.pow_add]
      congr 2
      change decodedSigWidth - f.sigWidth + 2 = decodedSigWidth + 2 - f.sigWidth
      omega
    have hmod : f.significand b < 2 ^ (intermediateSigWidth - 1 + 1 -
        (intermediateSigWidth - f.sigWidth)) := by
      have hw : intermediateSigWidth = decodedSigWidth + 2 := rfl
      rw [show intermediateSigWidth - 1 + 1 - (intermediateSigWidth - f.sigWidth) = f.sigWidth by
        omega]
      exact significand_lt f b
    rw [slice, hwide, Nat.mul_div_cancel _ (Nat.two_pow_pos _), Nat.mod_eq_of_lt hmod]
  unfold roundToIeee
  rw [if_pos (by rw [Bool.false_or]; exact hnan), ← f.pack_fields s hb, hmax]
  simp only [if_true, hpayload]

/-- The rounder delivers an operand whose sign is replaced as its word. -/
theorem round_withSign (isDouble : Bool) {b : ℕ} (hb : b < 2 ^ (format isDouble).width)
    (rm : RoundingMode) (s : Bool) :
    roundToIeee intermediateExpWidth intermediateSigWidth (format isDouble) false false true rm
      { FpUnit.widen (normalizeFromIeee (format isDouble) decodedExpWidth decodedSigWidth
          b).toUnpacked with sign := s } = ((format isDouble).withSign s b, {}) := by
  have hw := widens_decoded isDouble
  have hd := denotes_normalizeFromIeee hw b
  by_cases hnan : (normalizeFromIeee (format isDouble) decodedExpWidth decodedSigWidth b).isNan
  · have hfields : (format isDouble).exponent b = 2 ^ (format isDouble).expWidth - 1 ∧
        (format isDouble).significand b ≠ 0 := by
      simpa [normalizeFromIeee] using hnan
    exact round_withSign_nan hw.sig hb hfields.1 hfields.2 rm s
  · have hnan' := Bool.eq_false_of_not_eq_true hnan
    have hnot : ∀ t, (format isDouble).decode b ≠ .nan t := by
      intro t ht
      rw [ht] at hd
      exact hnan hd.1
    have hop := (operand_normalizeFromIeee hw b).sign s
    have hmeans := means_widen hop (denotes_withSign hd s) isDouble
    have hsig : Unpacked.isSignaling decodedSigWidth { (normalizeFromIeee (format isDouble)
        decodedExpWidth decodedSigWidth b).toUnpacked with sign := s } = false := by
      rw [Unpacked.isSignaling, hnan', Bool.false_and]
    rw [hsig] at hmeans
    set u : Unpacked := { FpUnit.widen (normalizeFromIeee (format isDouble) decodedExpWidth
      decodedSigWidth b).toUnpacked with sign := s } with hu
    rw [roundToIeee_useNanPayload (x := u) hnan', ← (format isDouble).deliver_withSign rm s hb hnot]
    exact roundToIeee_means (fits_intermediate isDouble) hmeans rm

/-! ## Sign injection -/

/-- The sign that the request asks for. -/
def FpuReq.injectedSign (i : FpuReq) : Bool :=
  if i.op.param = fpParamSgnj then registerSign i.double i.foperandB
  else if i.op.param = fpParamSgnjn then !registerSign i.double i.foperandB
  else registerSign i.double i.foperandA ^^ registerSign i.double i.foperandB

section Answers
variable {inp : ℕ → FpuReq} {n : ℕ}
  (hidle : (run FpUnit.step FpUnit.reset inp n).state = .idle) (hv : (inp n).valid = true)
include hidle hv

/-- Sign injection replaces the sign bit of its first operand. -/
theorem sgnj_answers (hop : (inp n).op.opType = .sgnj)
    (ha : Whole (inp n).double (inp n).foperandA) :
    FpUnit.Answers inp n (n + 3)
      ((inp n).format.withSign (inp n).injectedSign (inp n).foperandA, {}) := by
  have hmisc : (inp n).IsMisc := .inl hop
  obtain ⟨-, hA, hB, hinv, hnan, -⟩ :=
    FpUnit.accept_misc (s := run FpUnit.step FpUnit.reset inp n) hmisc
  obtain ⟨-, -, -, -, hflags, hdz, hdouble, hrm, hop'⟩ :=
    FpUnit.latched_accept (run FpUnit.step FpUnit.reset inp n) (inp n)
  obtain ⟨hlt, -, hdec⟩ := ha.decode_eq
  set i := inp n with hi
  set t := (run FpUnit.step FpUnit.reset inp n).accept i with ht
  have hformat : i.decodeAsDouble = i.double := by
    rw [FpuReq.decodeAsDouble, hop, if_neg (by decide)]
  rw [hformat] at hA hB
  have hsign : (if t.op.param == fpParamSgnj then t.decB.sign
      else if t.op.param == fpParamSgnjn then !t.decB.sign
      else t.decA.sign ^^ t.decB.sign) = i.injectedSign := by
    rw [hop', hA, hB, sign_decode, sign_decode, FpuReq.injectedSign]
    simp only [beq_iff_eq]
  have hstep : t.stepMisc = { t.advance with
      state := .round
      decRound := { FpUnit.widen t.decA with sign := i.injectedSign } } := by
    rw [← hsign, FpUnit.stepMisc, hop', hop]
  have hrounded : t.stepMisc.rounded = (i.format.withSign i.injectedSign i.foperandA, {}) := by
    rw [hstep, FpUnit.rounded]
    change roundToIeeeMulti _ _ t.roundInvalidOperation t.roundDivideByZero t.roundUseNanPayload
      t.opDouble t.rm { FpUnit.widen t.decA with sign := i.injectedSign } = _
    rw [hinv, hdz, hnan, hop, hdouble, hrm, hA, hdec, roundToIeeeMulti_eq]
    exact (congrArg _ (round_withSign i.double hlt i.rm i.injectedSign)).trans
      (ha.boxed_withSign i.injectedSign {})
  have hans := FpUnit.answers_of_misc_rounding hidle hv hmisc (by rw [← hi, ← ht, hstep])
    (by rw [← hi, ← ht, hstep]; rfl)
  rw [← hi, ← ht, hrounded, hstep] at hans
  change FpUnit.Answers inp n (n + 3) (_, orFlags t.respFlags {}) at hans
  rwa [hflags] at hans

/-- The conversion between the formats rounds the datum of its operand. -/
theorem cvtF2F_answers (hop : (inp n).op.opType = .cvtF2F) :
    FpUnit.Answers inp n (n + 3)
      ((inp n).answer (registerDatum (!(inp n).double) (inp n).foperandA).outcome) := by
  have hmisc : (inp n).IsMisc := .inr (.inr (.inl hop))
  obtain ⟨-, hA, -, -, hnan, -⟩ :=
    FpUnit.accept_misc (s := run FpUnit.step FpUnit.reset inp n) hmisc
  obtain ⟨-, -, -, -, hflags, hdz, hdouble, hrm, hop'⟩ :=
    FpUnit.latched_accept (run FpUnit.step FpUnit.reset inp n) (inp n)
  set i := inp n with hi
  set t := (run FpUnit.step FpUnit.reset inp n).accept i with ht
  have hformat : i.decodeAsDouble = !i.double := by
    rw [FpuReq.decodeAsDouble, hop, if_pos rfl]
  rw [hformat] at hA
  have hstep : t.stepMisc = { t.advance with
      state := .round
      roundInvalidOperation := t.decA.isSignaling decodedSigWidth
      roundDivideByZero := false
      decRound := FpUnit.widen t.decA } := by
    rw [FpUnit.stepMisc, hop', hop]
  have hmeans := means_widen (operand_decode (!i.double) i.foperandA)
    (denotes_decode (!i.double) i.foperandA) i.double
  have hrounded : t.stepMisc.rounded =
      i.answer (registerDatum (!i.double) i.foperandA).outcome := by
    rw [hstep, FpUnit.rounded]
    change roundToIeeeMulti _ _ (t.decA.isSignaling decodedSigWidth) false t.roundUseNanPayload
      t.opDouble t.rm (FpUnit.widen t.decA) = _
    rw [hnan, hop, hdouble, hrm, hA]
    exact roundToIeeeMulti_means hmeans i.rm
  have hans := FpUnit.answers_of_misc_rounding hidle hv hmisc (by rw [← hi, ← ht, hstep])
    (by rw [← hi, ← ht, hstep]; rfl)
  rw [← hi, ← ht, hrounded, hstep] at hans
  change FpUnit.Answers inp n (n + 3) (_, orFlags t.respFlags _) at hans
  rwa [hflags, orFlags_none] at hans

end Answers

/-! ## Nothing is lost -/

/-- What a single stands for is delivered as a double without loss, and back again. -/
theorem deliver_single_double {x : ℕ} (hx : Whole false x)
    (hnan : ∀ s, registerDatum false x ≠ .nan s) (rm rm' : RoundingMode) :
    double.decode (double.deliver rm (registerDatum false x).outcome).1 = registerDatum false x ∧
      (double.deliver rm (registerDatum false x).outcome).2 = {} ∧
      boxed false (single.deliver rm' (registerDatum false x).outcome) = (x, {}) := by
  obtain ⟨hlt, hdatum, -⟩ := hx.decode_eq
  rw [hdatum] at hnan ⊢
  have hheld := (single.held_decode hlt hnan).mono (g := double) single (by decide) (by decide)
    (by decide)
  obtain ⟨-, hdec, hflags⟩ := double.decode_deliver rm hheld
  refine ⟨hdec, hflags, ?_⟩
  rw [← hx.boxed_word {}]
  exact congrArg (boxed false) (single.deliver_decode rm' hlt hnan)

section Requests
variable {inp : ℕ → FpuReq} {n : ℕ}

/-- An operand that is unpacked and packed again is the same register: sign injection only
changes the sign bit, and a single that is converted to a double and back is the same
single. -/
theorem unpack_repack (hidle : (run FpUnit.step FpUnit.reset inp n).state = .idle)
    (hv : (inp n).valid = true) :
    ((inp n).op.opType = .sgnj → Whole (inp n).double (inp n).foperandA →
      ((inp n).op.param = fpParamSgnj → (inp n).foperandB = (inp n).foperandA →
        FpUnit.Answers inp n (n + 3) ((inp n).foperandA, {})) ∧
      ((inp n).op.param = fpParamSgnjn →
        FpUnit.Answers inp n (n + 3) ((inp n).format.withSign
          (!registerSign (inp n).double (inp n).foperandB) (inp n).foperandA, {})) ∧
      ((inp n).op.param = fpParamSgnjx →
        FpUnit.Answers inp n (n + 3) ((inp n).format.withSign
          (registerSign (inp n).double (inp n).foperandA ^^
            registerSign (inp n).double (inp n).foperandB) (inp n).foperandA, {}))) ∧
    ((inp n).op.opType = .cvtF2F → (inp n).double = true → Whole false (inp n).foperandA →
      (∀ s, registerDatum false (inp n).foperandA ≠ .nan s) →
      ∃ y, FpUnit.Answers inp n (n + 3) (y, {}) ∧
        double.decode y = registerDatum false (inp n).foperandA ∧
        ∀ m, (run FpUnit.step FpUnit.reset inp m).state = .idle → (inp m).valid = true →
          (inp m).op.opType = .cvtF2F → (inp m).double = false → (inp m).foperandA = y →
          FpUnit.Answers inp m (m + 3) ((inp n).foperandA, {})) := by
  constructor
  · intro hop ha
    have hans := sgnj_answers hidle hv hop ha
    rw [FpuReq.injectedSign] at hans
    refine ⟨fun hp hb => ?_, fun hp => ?_, fun hp => ?_⟩
    · have hsign : registerSign (inp n).double (inp n).foperandA =
          (inp n).format.sign (inp n).foperandA := by
        obtain ⟨-, hbox⟩ := ha
        rw [registerSign, FpuReq.format]
        rcases hbox with hd | hb
        · rw [hd]
          rfl
        · cases (inp n).double with
          | true => rfl
          | false => rw [if_neg (by simp), decide_eq_true hb, Bool.true_and]; rfl
      rwa [if_pos hp, hb, hsign, Format.withSign_sign] at hans
    · rwa [if_neg (by rw [hp]; decide), if_pos hp] at hans
    · rwa [if_neg (by rw [hp]; decide), if_neg (by rw [hp]; decide)] at hans
  · intro hop hd hx hnan
    have hans := cvtF2F_answers hidle hv hop
    have hconv := deliver_single_double hx hnan (inp n).rm
    rw [FpuReq.answer, FpuReq.format, hd, Bool.not_true] at hans
    refine ⟨_, ?_, (hconv .tiesToEven).1, fun m hidle' hv' hop' hd' hy => ?_⟩
    · have hflags := (hconv .tiesToEven).2.1
      change FpUnit.Answers inp n (n + 3) (double.deliver (inp n).rm _) at hans
      rw [← hflags]
      exact hans
    · have hans' := cvtF2F_answers hidle' hv' hop'
      rw [FpuReq.answer, FpuReq.format, hd', hy, Bool.not_false] at hans'
      change FpUnit.Answers inp m (m + 3)
        (boxed false (single.deliver _ (double.decode _).outcome)) at hans'
      rwa [(hconv (inp m).rm).1, (hconv (inp m).rm).2.2] at hans'

/-- The smallest negative subnormal double. -/
theorem unpack_repack_subnormal :
    FpUnit.Answers (fun _ => doubleRequest .sgnj fpParamSgnj
      0x8000000000000001 0x8000000000000001 0)
      0 3 (0x8000000000000001, {}) :=
  ((@unpack_repack (fun _ => doubleRequest .sgnj fpParamSgnj 0x8000000000000001
    0x8000000000000001 0) 0 rfl rfl).1 rfl ⟨by decide, .inl rfl⟩).1 rfl rfl

end Requests

end Muntjac.Fpu

import Muntjac.Ieee.Arith
import Muntjac.Ieee.Exceptions

/-!
# Encoding again

A number of a format is delivered in the format as the word that it came from, and in a
format that holds it without loss.  A word whose sign bit is replaced stands for the datum
with the other sign.

## Main definitions

* `Format.withSign` — the word with its sign bit replaced.
* `Datum.Held` — the format has an encoding for the datum.

## Main results

* `Format.deliver_withSign` — what a word stands for is delivered as the word.
* `Format.decode_deliver` — a datum that the format holds is delivered without loss.
-/

namespace Muntjac.Ieee

open Sync

namespace Format
variable (f : Format)

/-! ## The sign bit -/

/-- The word with its sign bit replaced; a format may be the low part of a register. -/
def withSign (s : Bool) (b : ℕ) : ℕ :=
  cat (cat (b / 2 ^ f.width) 1 s.toNat) (f.expWidth + f.sigWidth)
    (b % 2 ^ (f.expWidth + f.sigWidth))

theorem testBit_withSign (s : Bool) (b i : ℕ) :
    (f.withSign s b).testBit i = if i = f.expWidth + f.sigWidth then s else b.testBit i := by
  have hmod : b % 2 ^ (f.expWidth + f.sigWidth) < 2 ^ (f.expWidth + f.sigWidth) :=
    Nat.mod_lt _ (Nat.two_pow_pos _)
  have hs : s.toNat < 2 ^ 1 := Bool.toNat_lt s
  rw [withSign, cat, cat, Nat.mul_comm, Nat.testBit_two_pow_mul_add _ hmod]
  rcases Nat.lt_trichotomy i (f.expWidth + f.sigWidth) with hlt | rfl | hgt
  · rw [if_pos hlt, if_neg hlt.ne, Nat.testBit_mod_two_pow, decide_eq_true hlt, Bool.true_and]
  · rw [if_neg (lt_irrefl _), if_pos rfl, Nat.sub_self, Nat.mul_comm,
      Nat.testBit_two_pow_mul_add _ hs, if_pos one_pos]
    cases s <;> rfl
  · rw [if_neg hgt.not_gt, if_neg hgt.ne', Nat.mul_comm, Nat.testBit_two_pow_mul_add _ hs,
      if_neg (by omega), Nat.testBit_div_two_pow, width]
    congr 1
    omega

theorem withSign_sign (b : ℕ) : f.withSign (f.sign b) b = b := by
  apply Nat.eq_of_testBit_eq
  intro i
  rw [testBit_withSign]
  split_ifs with h
  · rw [h, sign]
  · rfl

/-- In a wider register the bits above the word stay. -/
theorem withSign_cat (s : Bool) (hi : ℕ) {b : ℕ} (hb : b < 2 ^ f.width) :
    f.withSign s (cat hi f.width b) = cat hi f.width (f.withSign s b) := by
  have hlow : cat hi f.width b % 2 ^ (f.expWidth + f.sigWidth) =
      b % 2 ^ (f.expWidth + f.sigWidth) := cat_mod_two_pow (Nat.le_succ _)
  rw [withSign, withSign, cat_div hb, hlow, Nat.div_eq_of_lt hb]
  simp only [cat, width, Nat.pow_add]
  ring

/-- A word is packed from its fields. -/
theorem pack_fields (s : Bool) {b : ℕ} (hb : b < 2 ^ f.width) :
    f.pack s (f.exponent b) (f.significand b) = f.withSign s b := by
  have hlow : b % 2 ^ (f.expWidth + f.sigWidth) =
      cat (f.exponent b) f.sigWidth (f.significand b) := by
    rw [exponent, significand, Nat.add_comm f.expWidth, Nat.pow_add, Nat.mod_mul, cat]
    ring
  rw [withSign, Nat.div_eq_of_lt hb, hlow, pack]
  simp only [cat, Nat.pow_add]
  ring

/-! ## Rounding a number of the format -/

section Exact
variable {K : Type*} [Field K] [LinearOrder K] [FloorSemiring K] [IsStrictOrderedRing K]
variable {e : ℤ} {n : ℕ}

theorem binade_mul (hlo : f.minExp ≤ e) (hn : n < 2 ^ (f.sigWidth + 1)) (h0 : n ≠ 0)
    (hnorm : 2 ^ f.sigWidth ≤ n ∨ e = f.minExp) :
    f.binade ((n : K) * 2 ^ (e - f.sigWidth)) = e := by
  have hu : (0 : K) < 2 ^ (e - f.sigWidth) := zpow_pos two_pos _
  have hx : (0 : K) < n * 2 ^ (e - f.sigWidth) :=
    mul_pos (Nat.cast_pos.mpr (Nat.pos_of_ne_zero h0)) hu
  have hscale : ∀ k : ℕ, (2 : K) ^ (e + k) = (2 ^ (f.sigWidth + k) : ℕ) * 2 ^ (e - f.sigWidth) := by
    intro k
    rw [Nat.cast_pow, Nat.cast_ofNat, ← zpow_natCast, ← zpow_add₀ two_ne_zero]
    congr 1
    push_cast
    ring
  have hhi : (n : K) * 2 ^ (e - f.sigWidth) < 2 ^ (e + 1) := by
    have h := hscale 1
    rw [Nat.cast_one] at h
    rw [h]
    exact mul_lt_mul_of_pos_right (Nat.cast_lt.mpr hn) hu
  by_cases hle : 2 ^ f.sigWidth ≤ n
  · have hge : (2 : K) ^ e ≤ n * 2 ^ (e - f.sigWidth) := by
      have h := hscale 0
      rw [Nat.cast_zero, add_zero, Nat.add_zero] at h
      rw [h]
      exact mul_le_mul_of_nonneg_right (Nat.cast_le.mpr hle) hu.le
    rw [f.binade_eq hge hhi, max_eq_right hlo]
  · have he := hnorm.resolve_left hle
    have hlog : Int.log 2 ((n : K) * 2 ^ (e - f.sigWidth)) < e + 1 :=
      (Int.lt_zpow_iff_log_lt one_lt_two hx).mp (by exact_mod_cast hhi)
    rw [binade]
    omega

/-- A number of the format is delivered as its encoding, in every direction. -/
theorem round_exact (rm : RoundingMode) (s : Bool) (hlo : f.minExp ≤ e) (hhi : e ≤ f.maxExp)
    (hn : n < 2 ^ (f.sigWidth + 1)) (h0 : n ≠ 0) (hnorm : 2 ^ f.sigWidth ≤ n ∨ e = f.minExp) :
    f.round rm s ((n : K) * 2 ^ (e - f.sigWidth)) = (f.finite s e n, {}) := by
  have hbin := f.binade_mul (K := K) hlo hn h0 hnorm
  have hulp : f.ulp ((n : K) * 2 ^ (e - f.sigWidth)) = 2 ^ (e - f.sigWidth) := by rw [ulp, hbin]
  have hne : (2 : K) ^ (e - f.sigWidth) ≠ 0 := (zpow_pos two_pos _).ne'
  have hsig : f.roundSig rm s ((n : K) * 2 ^ (e - f.sigWidth)) = n := by
    rw [roundSig, hulp, mul_div_cancel_right₀ _ hne, roundNat_natCast]
  have hcarry : (n == 2 ^ (f.sigWidth + 1)) = false := beq_false_of_ne hn.ne
  unfold round
  simp only [hsig, hulp, hbin, hcarry, Bool.false_eq_true, if_false, not_lt.mpr hhi, ne_eq,
    not_true_eq_false, decide_false, Bool.false_and]

end Exact

/-! ## Words -/

/-- The datum with the sign `s`. -/
def Datum.withSign (s : Bool) : Datum → Datum
  | .nan signaling => .nan signaling
  | .inf _ => .inf s
  | .finite _ m => .finite s m

/-- What a word stands for is delivered as the word, also with another sign. -/
theorem deliver_withSign (rm : RoundingMode) (s : Bool) {b : ℕ} (hb : b < 2 ^ f.width)
    (hnan : ∀ signaling, f.decode b ≠ .nan signaling) :
    f.deliver rm ((f.decode b).withSign s).outcome = (f.withSign s b, {}) := by
  have hpow := f.two_pow_expWidth
  have hmax := f.maxExp_eq
  have hbias := f.one_le_bias
  have hmin : f.minExp = 1 - f.bias := rfl
  have hE : f.exponent b < 2 ^ f.expWidth := Nat.mod_lt _ (Nat.two_pow_pos _)
  have hS : f.significand b < 2 ^ f.sigWidth := Nat.mod_lt _ (Nat.two_pow_pos _)
  have hSw : 2 ^ (f.sigWidth + 1) = 2 ^ f.sigWidth + 2 ^ f.sigWidth := by
    rw [Nat.pow_succ]
    ring
  rw [← f.pack_fields s hb]
  rw [decode] at hnan ⊢
  split_ifs at hnan ⊢ with hm hs
  · rw [hm, hs]
    rfl
  · exact absurd rfl (hnan _)
  · rw [Datum.withSign, Datum.outcome]
    split_ifs with h0
    · obtain ⟨he, hs⟩ := (f.magnitude_eq_zero b).mp h0
      rw [he, hs]
      rfl
    · change f.round rm s (f.magnitude b) = _
      rw [magnitude_eq_zero, not_and_or] at h0
      rw [magnitude]
      split_ifs with he
      · have hs := h0.resolve_left (not_not.mpr he)
        rw [f.round_exact rm s le_rfl (by omega) (by omega) hs (.inr rfl), finite, if_pos hS, he]
      · have hcast : (2 : ℚ) ^ f.sigWidth + f.significand b =
            (2 ^ f.sigWidth + f.significand b : ℕ) := by
          push_cast
          rfl
        have hle : (f.exponent b : ℤ) ≤ 2 * f.bias := by
          zify at hE
          have hne : (f.exponent b : ℤ) ≠ 2 ^ f.expWidth - 1 := by
            intro h
            apply hm
            zify [Nat.one_le_two_pow]
            exact h
          omega
        rw [hcast, f.round_exact rm s (by omega) (by omega) (by omega) (by omega)
          (.inl (Nat.le_add_right _ _)), finite, if_neg (by omega), Nat.add_sub_cancel_left]
        congr 2
        omega

theorem deliver_decode (rm : RoundingMode) {b : ℕ} (hb : b < 2 ^ f.width)
    (hnan : ∀ signaling, f.decode b ≠ .nan signaling) :
    f.deliver rm (f.decode b).outcome = (b, {}) := by
  have hsign : (f.decode b).withSign (f.sign b) = f.decode b := by
    rw [decode]
    split_ifs <;> rfl
  have h := f.deliver_withSign rm (f.sign b) hb hnan
  rwa [hsign, withSign_sign] at h

/-! ## Data that the format holds -/

/-- The format has an encoding for the datum. -/
def Datum.Held : Datum → Prop
  | .nan _ => False
  | .inf _ => True
  | .finite _ m => f.Representable m ∧ m < 2 ^ (f.maxExp + 1)

theorem Encodes.decode {b : ℕ} {neg : Bool} {m : ℚ} (h : f.Encodes b neg m) :
    f.decode b = .finite neg m := by
  rw [Format.decode, if_neg h.finite.ne, h.sign, h.magnitude]

/-- The format holds what its words stand for. -/
theorem held_decode {b : ℕ} (hb : b < 2 ^ f.width)
    (hnan : ∀ signaling, f.decode b ≠ .nan signaling) : (f.decode b).Held f := by
  rw [decode] at hnan ⊢
  split_ifs at hnan ⊢ with hm hs
  · trivial
  · exact absurd rfl (hnan _)
  · have hE : f.exponent b < 2 ^ f.expWidth := Nat.mod_lt _ (Nat.two_pow_pos _)
    have henc : f.Encodes b (f.sign b) (f.magnitude b : ℚ) := ⟨hb, by omega, rfl, rfl⟩
    exact ⟨henc.representable, f.magnitude_lt hm⟩

/-- A wider format holds what the format holds. -/
theorem Datum.Held.mono {g : Format} {d : Datum} (h : d.Held f) (hsig : f.sigWidth ≤ g.sigWidth)
    (hmin : g.minExp - g.sigWidth ≤ f.minExp - f.sigWidth) (hmax : f.maxExp ≤ g.maxExp) :
    d.Held g := by
  cases d with
  | nan s => exact h
  | inf s => trivial
  | finite s m =>
      obtain ⟨⟨n, q, hn, hq, rfl⟩, hlt⟩ := h
      refine ⟨⟨n, q, ?_, hmin.trans hq, rfl⟩, ?_⟩
      · exact hn.trans_le (Nat.pow_le_pow_right two_pos (by omega))
      · exact hlt.trans_le (zpow_le_zpow_right₀ one_le_two (by omega))

/-- A datum that the format holds is delivered without loss. -/
theorem decode_deliver (rm : RoundingMode) {d : Datum} (h : d.Held f) :
    (f.deliver rm d.outcome).1 < 2 ^ f.width ∧ f.decode (f.deliver rm d.outcome).1 = d ∧
      (f.deliver rm d.outcome).2 = {} := by
  have hexp : 2 ^ 2 ≤ 2 ^ f.expWidth := Nat.pow_le_pow_right two_pos f.two_le_expWidth
  have hsig := Nat.two_pow_pos f.sigWidth
  cases d with
  | nan s => exact h.elim
  | inf s =>
      have he : 2 ^ f.expWidth - 1 < 2 ^ f.expWidth := by omega
      refine ⟨pack_lt he hsig, ?_, rfl⟩
      change f.decode (f.infinity s) = _
      rw [decode, infinity, exponent_pack he hsig, significand_pack hsig, sign_pack he hsig,
        if_pos rfl, if_pos rfl]
  | finite s m =>
      obtain ⟨hrep, hlt⟩ := h
      rw [Datum.outcome]
      split_ifs with h0
      · have he : 0 < 2 ^ f.expWidth := by omega
        refine ⟨pack_lt he hsig, ?_, rfl⟩
        change f.decode (f.pack s 0 0) = _
        have hmag : (f.magnitude (f.pack s 0 0) : ℚ) = 0 :=
          (f.magnitude_eq_zero _).mpr ⟨exponent_pack he hsig, significand_pack hsig⟩
        rw [decode, exponent_pack he hsig, sign_pack he hsig, hmag, h0, if_neg (by omega)]
      · have hpos : 0 < m := by
          obtain ⟨n, q, -, -, rfl⟩ := hrep
          exact lt_of_le_of_ne (mul_nonneg (Nat.cast_nonneg n) (zpow_pos two_pos q).le) (Ne.symm h0)
        have hexact := hrep.exact f rm s hpos
        rw [hexact] at hlt
        have henc := f.encodes_round rm s hpos hlt
        have hflags := f.round_flags hpos hlt
        rw [← hexact] at henc
        refine ⟨henc.lt, henc.decode, ?_⟩
        change (f.round rm s m).2 = _
        rw [hflags, ← hexact]
        simp

end Format

end Muntjac.Ieee

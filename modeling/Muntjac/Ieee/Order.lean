import Muntjac.Ieee.Format
import Mathlib.Order.WithBot

/-!
# The order of data

Data are ordered as the numbers that they stand for, with the infinities at the ends and
the two zeros in one place; a NaN has no place.  Minimum and maximum also order the zeros.

## Main definitions

* `Datum.value` — the place of a datum.
* `Datum.Below` — the order with the negative zero below the positive one.
* `classBit` — the kind of a datum.
-/

namespace Muntjac.Ieee

namespace Format

namespace Datum

/-- The place of a datum among the numbers and the infinities. -/
def value : Datum → Option (WithBot (WithTop ℚ))
  | .nan _ => none
  | .inf neg => some (if neg then ⊥ else ((⊤ : WithTop ℚ) : WithBot (WithTop ℚ)))
  | .finite neg m => some (((if neg then -m else m : ℚ) : WithTop ℚ) : WithBot (WithTop ℚ))

def isNan : Datum → Bool
  | .nan _ => true
  | _ => false

def isSignaling : Datum → Bool
  | .nan signaling => signaling
  | _ => false

/-- The sign of a datum that is not a NaN. -/
def isNeg : Datum → Bool
  | .nan _ => false
  | .inf neg => neg
  | .finite neg _ => neg

/-- Both data have a place, and the places are in the relation. -/
def Compares (r : WithBot (WithTop ℚ) → WithBot (WithTop ℚ) → Prop) (a b : Datum) : Prop :=
  ∃ x y, a.value = some x ∧ b.value = some y ∧ r x y

/-- The order that also puts the negative zero below the positive one. -/
def Below (a b : Datum) : Prop :=
  a.Compares (· < ·) b ∨ a.Compares (· = ·) b ∧ a.isNeg = true ∧ b.isNeg = false

instance (r : WithBot (WithTop ℚ) → WithBot (WithTop ℚ) → Prop) [DecidableRel r] (a b : Datum) :
    Decidable (a.Compares r b) :=
  decidable_of_iff (∃ x ∈ a.value, ∃ y ∈ b.value, r x y) (by
    constructor
    · rintro ⟨x, hx, y, hy, h⟩
      exact ⟨x, y, hx, hy, h⟩
    · rintro ⟨x, y, hx, hy, h⟩
      exact ⟨x, hx, y, hy, h⟩)

instance (a b : Datum) : Decidable (a.Below b) :=
  inferInstanceAs (Decidable (_ ∨ _ ∧ _ ∧ _))

theorem isNan_eq_false_iff (a : Datum) : a.isNan = false ↔ ∃ x, a.value = some x := by
  cases a <;> simp [isNan, value]

theorem not_compares_of_isNan {r : WithBot (WithTop ℚ) → WithBot (WithTop ℚ) → Prop} {a b : Datum}
    (h : (a.isNan || b.isNan) = true) : ¬a.Compares r b := by
  rintro ⟨x, y, hx, hy, -⟩
  have ha := (isNan_eq_false_iff a).mpr ⟨x, hx⟩
  have hb := (isNan_eq_false_iff b).mpr ⟨y, hy⟩
  rw [ha, hb] at h
  exact absurd h (by decide)

theorem compares_iff {r : WithBot (WithTop ℚ) → WithBot (WithTop ℚ) → Prop} {a b : Datum}
    {x y : WithBot (WithTop ℚ)} (hx : a.value = some x) (hy : b.value = some y) :
    a.Compares r b ↔ r x y := by
  constructor
  · rintro ⟨x', y', hx', hy', h⟩
    rw [hx, Option.some.injEq] at hx'
    rw [hy, Option.some.injEq] at hy'
    rwa [hx', hy']
  · intro h
    exact ⟨x, y, hx, hy, h⟩

/-- Only the zeros share a place. -/
theorem eq_of_value_eq {a b : Datum} {x : WithBot (WithTop ℚ)} (ha : a.value = some x)
    (hb : b.value = some x) (hneg : a.isNeg = b.isNeg) : a = b := by
  cases a with
  | nan s => simp [value] at ha
  | inf s =>
      cases b with
      | nan t => simp [value] at hb
      | inf t => rw [show s = t from hneg]
      | finite t n =>
          rw [← hb] at ha
          cases s <;> simp [value] at ha
  | finite s m =>
      cases b with
      | nan t => simp [value] at hb
      | inf t =>
          rw [← hb] at ha
          cases t <;> simp [value] at ha
      | finite t n =>
          obtain rfl : s = t := hneg
          rw [← hb, value, value, Option.some.injEq, WithBot.coe_inj, WithTop.coe_inj] at ha
          cases s with
          | false => rw [show m = n from ha]
          | true => rw [neg_injective ha]

theorem compares_le_iff {a b : Datum} :
    a.Compares (· ≤ ·) b ↔ a.Compares (· = ·) b ∨ a.Compares (· < ·) b := by
  constructor
  · rintro ⟨x, y, hx, hy, h⟩
    rcases eq_or_lt_of_le h with he | hlt
    · exact .inl ⟨x, y, hx, hy, he⟩
    · exact .inr ⟨x, y, hx, hy, hlt⟩
  · rintro (⟨x, y, hx, hy, he⟩ | ⟨x, y, hx, hy, hlt⟩)
    · exact ⟨x, y, hx, hy, he.le⟩
    · exact ⟨x, y, hx, hy, hlt.le⟩

theorem isNan_of_isSignaling {a : Datum} (h : a.isSignaling = true) : a.isNan = true := by
  cases a with
  | nan s => rfl
  | inf s => exact h
  | finite s m => exact h

/-! ## Minimum and maximum -/

section Select
variable {α β : Type*}

/-- Of two things with the data `a` and `b`, the one with the larger or with the smaller
datum; that of a NaN is not selected. -/
def select (max : Bool) (a b : Datum) (x y : α) : α :=
  if a.isNan then y
  else if b.isNan then x
  else if max then (if a.Below b then y else x)
  else if b.Below a then y else x

theorem map_select (g : α → β) (max : Bool) (a b : Datum) (x y : α) :
    g (select max a b x y) = select max a b (g x) (g y) := by
  simp only [select, apply_ite g]

theorem isNan_select (max : Bool) {a b : Datum} (h : (a.isNan && b.isNan) = false) :
    (select max a b a b).isNan = false := by
  rw [map_select isNan, select]
  cases ha : a.isNan with
  | false => cases b.isNan <;> simp
  | true =>
      rw [ha, Bool.true_and] at h
      rw [if_pos rfl, h]

/-- A choice that goes by the places of the data, and by the sign of the first one where
the two share a place. -/
theorem select_eq_of_places (max : Bool) {a b : Datum} (ha : a.isNan = false)
    (hb : b.isNan = false) :
    select max a b a b =
      if a.Compares (· = ·) b then (if max = a.isNeg then b else a)
      else if max = decide (a.Compares (· < ·) b) then b else a := by
  obtain ⟨x, hx⟩ := (isNan_eq_false_iff a).mp ha
  obtain ⟨y, hy⟩ := (isNan_eq_false_iff b).mp hb
  rw [select, ha, hb, if_neg Bool.false_ne_true, if_neg Bool.false_ne_true]
  simp only [Below, compares_iff hx hy, compares_iff hy hx]
  rcases lt_trichotomy x y with hlt | rfl | hgt
  · cases max <;> simp [hlt, hlt.ne, hlt.ne', hlt.not_gt]
  · by_cases hneg : a.isNeg = b.isNeg
    · obtain rfl := eq_of_value_eq hx hy hneg
      split_ifs <;> rfl
    · cases hna : a.isNeg <;> cases hnb : b.isNeg <;> rw [hna, hnb] at hneg <;>
        cases max <;> simp at hneg ⊢
  · cases max <;> simp [hgt, hgt.ne, hgt.ne', hgt.not_gt]

end Select

end Datum

variable (f : Format)

/-- The bit of a classification: negative infinity, negative normal, subnormal and zero, the
same from zero to infinity for the positive data, and signaling and quiet NaN. -/
def classBit : Datum → ℕ
  | .inf true => 0
  | .finite true m => if m = 0 then 3 else if m < 2 ^ f.minExp then 2 else 1
  | .finite false m => if m = 0 then 4 else if m < 2 ^ f.minExp then 5 else 6
  | .inf false => 7
  | .nan true => 8
  | .nan false => 9

/-- The numbers below the smallest normal one are those without an exponent. -/
theorem magnitude_lt_minExp_iff {b : ℕ} :
    (f.magnitude b : ℚ) < 2 ^ f.minExp ↔ f.exponent b = 0 := by
  have hS : f.significand b < 2 ^ f.sigWidth := Nat.mod_lt _ (Nat.two_pow_pos _)
  have hpos : ∀ e : ℤ, (0 : ℚ) < 2 ^ (e - f.sigWidth) := fun e => zpow_pos two_pos _
  have hpow : ∀ e : ℤ, (2 : ℚ) ^ e = 2 ^ f.sigWidth * 2 ^ (e - f.sigWidth) := by
    intro e
    rw [← zpow_natCast, ← zpow_add₀ two_ne_zero]
    congr 1
    ring
  have hcast : (f.significand b : ℚ) < 2 ^ f.sigWidth := by exact_mod_cast hS
  rw [magnitude]
  split_ifs with h0
  · rw [hpow f.minExp]
    exact iff_of_true (mul_lt_mul_of_pos_right hcast (hpos _)) h0
  · refine iff_of_false (not_lt.mpr ?_) h0
    calc (2 : ℚ) ^ f.minExp ≤ 2 ^ ((f.exponent b : ℤ) - f.bias) :=
          zpow_le_zpow_right₀ one_le_two (by rw [minExp]; omega)
      _ = 2 ^ f.sigWidth * 2 ^ ((f.exponent b : ℤ) - f.bias - f.sigWidth) := hpow _
      _ ≤ (2 ^ f.sigWidth + f.significand b) * 2 ^ ((f.exponent b : ℤ) - f.bias - f.sigWidth) :=
          mul_le_mul_of_nonneg_right (by simp) (hpos _).le

end Format

end Muntjac.Ieee

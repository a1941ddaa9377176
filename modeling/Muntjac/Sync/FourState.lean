import Mathlib.Tactic.Common

/-!
# Four-state values

A selected bit that lies outside a vector has the value `x`, and the operators of the
hardware language carry `x` along unless the other operand decides.  A conditional
statement does not take its branch for `x`.
-/

namespace Muntjac.Sync

/-- A bit that may be unknown. -/
inductive Logic
  | zero
  | one
  | x
  deriving DecidableEq, Repr

namespace Logic

def ofBool (b : Bool) : Logic := if b then one else zero

/-- `!a`. -/
def not : Logic → Logic
  | zero => one
  | one => zero
  | x => x

/-- `a && b`. -/
def and : Logic → Logic → Logic
  | zero, _ => zero
  | one, b => b
  | x, zero => zero
  | x, _ => x

/-- `a || b`. -/
def or : Logic → Logic → Logic
  | one, _ => one
  | zero, b => b
  | x, one => one
  | x, _ => x

/-- The branch of `if (a)` is taken. -/
def taken (a : Logic) : Bool := a == one

/-- `v[k]`. -/
def select {w : ℕ} (v : BitVec w) (k : ℕ) : Logic := if k < w then ofBool (v.getLsbD k) else x

@[simp] theorem not_ofBool (a : Bool) : (ofBool a).not = ofBool !a := by cases a <;> rfl

@[simp] theorem and_ofBool (a b : Bool) : (ofBool a).and (ofBool b) = ofBool (a && b) := by
  cases a <;> cases b <;> rfl

@[simp] theorem or_ofBool (a b : Bool) : (ofBool a).or (ofBool b) = ofBool (a || b) := by
  cases a <;> cases b <;> rfl

@[simp] theorem taken_ofBool (a : Bool) : (ofBool a).taken = a := by cases a <;> rfl

theorem select_of_lt {w k : ℕ} (v : BitVec w) (h : k < w) : select v k = ofBool (v.getLsbD k) :=
  if_pos h

theorem select_of_ge {w k : ℕ} (v : BitVec w) (h : w ≤ k) : select v k = x :=
  if_neg (by omega)

end Logic

end Muntjac.Sync

import Muntjac.Ieee.Format
import Mathlib.Analysis.Real.Sqrt
import Mathlib.Data.Real.Archimedean

/-!
# Quotients and square roots of data

What division and the square root give before rounding.  A root is a real number; it is
rational only if the radicand is a square.
-/

namespace Muntjac.Ieee.Format.Datum

/-- The exact quotient.  A finite number divided by zero is an infinity, and is reported. -/
def div : Datum → Datum → Outcome ℚ
  | .nan s, .nan t => .nan (s || t)
  | .nan s, _ => .nan s
  | _, .nan t => .nan t
  | .inf _, .inf _ => .nan true
  | .inf s, .finite t _ => .inf (s ^^ t) false
  | .finite s _, .inf t => .zero (s ^^ t)
  | .finite s m, .finite t n =>
      if n = 0 then if m = 0 then .nan true else .inf (s ^^ t) true
      else if m = 0 then .zero (s ^^ t) else .number (s ^^ t) (m / n)

/-- The square root; that of a negative zero is the zero itself. -/
noncomputable def sqrt : Datum → Outcome ℝ
  | .nan s => .nan s
  | .inf s => if s then .nan true else .inf false false
  | .finite s m => if m = 0 then .zero s else if s then .nan true else .number false √(m : ℝ)

end Muntjac.Ieee.Format.Datum

import Muntjac.Sync.Numerals
import Mathlib.Data.List.FinRange
import Mathlib.Tactic.Common

/-!
# Selection loops

Hardware `for` loops that scan a vector of flags and keep one index.  An ascending
loop that overwrites its result keeps the last index, a descending one the first.

## Main definitions

* `firstIdx f` — the least index whose flag is set.
* `lastIdx f` — the greatest index whose flag is set.
-/

namespace Muntjac.Sync

variable {n : ℕ}

/-- The least index whose flag is set. -/
def firstIdx (f : Fin n → Bool) : Option (Fin n) := (List.finRange n).find? f

/-- The greatest index whose flag is set. -/
def lastIdx (f : Fin n → Bool) : Option (Fin n) := (List.finRange n).reverse.find? f

theorem firstIdx_some {f : Fin n → Bool} {i : Fin n} (h : firstIdx f = some i) : f i = true :=
  List.find?_some h

theorem lastIdx_some {f : Fin n → Bool} {i : Fin n} (h : lastIdx f = some i) : f i = true :=
  List.find?_some h

theorem firstIdx_eq_none {f : Fin n → Bool} : firstIdx f = none ↔ ∀ i, f i = false := by
  simp [firstIdx, List.find?_eq_none]

theorem lastIdx_eq_none {f : Fin n → Bool} : lastIdx f = none ↔ ∀ i, f i = false := by
  simp [lastIdx, List.find?_eq_none]

theorem firstIdx_isSome {f : Fin n → Bool} : (firstIdx f).isSome ↔ ∃ i, f i = true := by
  rw [Option.isSome_iff_ne_none, Ne, firstIdx_eq_none]
  simp

end Muntjac.Sync

import Mathlib.Algebra.GroupWithZero.Nat
import Mathlib.Data.Nat.Init
import Mathlib.Tactic.Common

/-!
# Numerals of small types

Selectors and states of the source are written as numerals of `Fin 2`, `Fin 3` and `Fin 4`, and
the places of a number as powers of two.  The instances that such numerals need are declared
here once, so that a definition reads the same wherever it stands.
-/

namespace Muntjac.Sync

instance neZeroTwo : NeZero 2 := ⟨by decide⟩

instance neZeroThree : NeZero 3 := ⟨by decide⟩

instance neZeroFour : NeZero 4 := ⟨by decide⟩

instance atLeastTwoTwo : Nat.AtLeastTwo 2 := ⟨Nat.le_refl 2⟩

end Muntjac.Sync

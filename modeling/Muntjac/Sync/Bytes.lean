import Mathlib.Data.Nat.Bitwise
import Mathlib.Tactic.Common

/-!
# Words as vectors of bytes

A bus word is a natural number; `unpack` gives its bytes and `pack` is the word with
given bytes.
-/

namespace Muntjac.Sync

/-- The bytes of a word, byte 0 first. -/
def unpack (n x : ℕ) : Fin n → BitVec 8 := fun k => BitVec.ofNat 8 (x / 256 ^ (k : ℕ))

/-- The word with the given bytes. -/
def pack : {n : ℕ} → (Fin n → BitVec 8) → ℕ
  | 0, _ => 0
  | _ + 1, f => (f 0).toNat + 256 * pack fun k => f k.succ

/-- Reading back the bytes of a packed word. -/
theorem unpack_pack {n : ℕ} (f : Fin n → BitVec 8) : unpack n (pack f) = f := by
  induction n with
  | zero => exact Subsingleton.elim _ _
  | succ n ih =>
      have hb : (f 0).toNat < 256 := (f 0).isLt
      funext k
      refine Fin.cases ?_ (fun k => ?_) k
      · apply BitVec.eq_of_toNat_eq
        simp only [unpack, pack, Fin.val_zero, pow_zero, Nat.div_one, BitVec.toNat_ofNat]
        omega
      · have hdiv : pack f / 256 = pack fun k : Fin n => f k.succ := by
          simp only [pack]
          omega
        have := congrFun (ih fun k => f k.succ) k
        rw [← hdiv] at this
        simpa only [unpack, Fin.val_succ, Nat.pow_succ', Nat.div_div_eq_div_mul] using this

end Muntjac.Sync

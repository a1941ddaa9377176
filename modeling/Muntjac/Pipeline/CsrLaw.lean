import Muntjac.Pipeline.Privilege

/-!
# The law of CSR operations

What a CSR instruction returns, what can be read back after it, which fields it leaves
alone and how the views of one register through another follow.  The law holds but for
two registers: `mcountinhibit` can be written and reads as zero, and the bound on the
event selectors wraps around when all 29 counters are present.

## Main definitions

* `CsRegisters.warl` — what a register reads as after a value is written to it.
* `CsRegisters.erase` — the registers without the fields of one CSR.
* `CsRegisters.RmwLaw` — the law.

## Main results

* `CsRegisters.rmwLaw_iff` — the operations for which the law holds.
-/

namespace Muntjac.Pipeline

open Sync (run run_invariant place maskOf)

/-- The registers that hold floating-point state. -/
def Csr.isFp : Csr → Bool
  | .fflags | .frm | .fcsr => true
  | _ => false

/-- The counters. -/
def Csr.isCounter : Csr → Bool
  | .mcycle | .minstret | .mhpmcounter _ => true
  | _ => false

/-- The registers that control the counters. -/
def Csr.isControl : Csr → Bool
  | .mhpmevent _ | .mcountinhibit => true
  | _ => false

namespace CsRegisters
variable {p : CsrParams} {s : CsRegisters p} {i : CsRegistersIn}

/-! ## What is not implemented -/

/-- What is not implemented is zero. -/
structure Implemented (s : CsRegisters p) : Prop where
  mcounter : ∀ k : Fin 32, p.mhpmCounterNum + 2 < k.val → s.mcounterQ k = 0
  mhpmevent : ∀ k : Fin 32, (p.mhpmCounterNum + 3) % 2 ^ 5 ≤ k.val → s.mhpmeventQ k = 0
  medeleg : s.medelegQ &&& ~~~medelegMask = 0

theorem implemented_reset (p : CsrParams) : (reset p).Implemented where
  mcounter := fun _ _ => rfl
  mhpmevent := fun _ _ => rfl
  medeleg := by simp [reset]

@[simp] theorem accumulate_mcounterQ (s : CsRegisters p) (i : CsRegistersIn) :
    (s.accumulate i).mcounterQ = s.mcounterQ := by
  unfold accumulate
  split <;> rfl

@[simp] theorem accumulate_mhpmeventQ (s : CsRegisters p) (i : CsRegistersIn) :
    (s.accumulate i).mhpmeventQ = s.mhpmeventQ := by
  unfold accumulate
  split <;> rfl

@[simp] theorem accumulate_medelegQ (s : CsRegisters p) (i : CsRegistersIn) :
    (s.accumulate i).medelegQ = s.medelegQ := by
  unfold accumulate
  split <;> rfl

theorem write_mhpmeventQ (s : CsRegisters p) (c : Csr) (x : BitVec 64) (k : Fin 32)
    (hk : (p.mhpmCounterNum + 3) % 2 ^ 5 ≤ k.val) :
    (s.write c x).mhpmeventQ k = s.mhpmeventQ k := by
  unfold write
  split <;> try split
  all_goals try rfl
  next hlt =>
    -- the selector that is written is below the bound
    refine Function.update_of_ne ?_ _ _
    rintro rfl
    omega

theorem write_medelegQ (s : CsRegisters p) (c : Csr) (x : BitVec 64)
    (h : s.medelegQ &&& ~~~medelegMask = 0) :
    (s.write c x).medelegQ &&& ~~~medelegMask = 0 := by
  unfold write
  split <;> try split
  all_goals try exact h
  rw [BitVec.and_or_distrib_right]
  simp [BitVec.and_assoc, h]

/-- A cycle leaves the selectors and `medeleg` or writes them. -/
theorem control_cases (s : CsRegisters p) (i : CsRegistersIn) :
    (next.control s i).mhpmeventQ = s.mhpmeventQ ∧ (next.control s i).medelegQ = s.medelegQ ∨
      next.control s i = (s.accumulate i).write i.csrAddr (s.wdataInt i) := by
  unfold next.control
  split
  · refine Or.inl ?_
    unfold trap
    split <;> simp
  · split
    · refine Or.inl ?_
      unfold eret
      split <;> simp
    · split
      · exact Or.inr rfl
      · exact Or.inl ⟨by simp, by simp⟩

theorem implemented_next (h : s.Implemented) (i : CsRegistersIn) : (s.next i).Implemented where
  mcounter := by
    intro k hk
    have hn : ¬k.val ≤ p.mhpmCounterNum + 2 := by omega
    simpa [next, nextMcounterQ, hn] using h.mcounter k hk
  mhpmevent := by
    intro k hk
    show (next.control s i).mhpmeventQ k = 0
    rcases control_cases s i with ⟨he, -⟩ | hw
    · rw [he]
      exact h.mhpmevent k hk
    · rw [hw, write_mhpmeventQ _ _ _ _ hk, accumulate_mhpmeventQ]
      exact h.mhpmevent k hk
  medeleg := by
    show (next.control s i).medelegQ &&& _ = 0
    rcases control_cases s i with ⟨-, he⟩ | hw
    · rw [he]
      exact h.medeleg
    · rw [hw]
      exact write_medelegQ _ _ _ (by simpa using h.medeleg)

theorem implemented_of_run (p : CsrParams) (inp : ℕ → CsRegistersIn) (n : ℕ) :
    (run next (reset p) inp n).Implemented :=
  run_invariant Implemented (fun _ _ => True) (implemented_reset p)
    (fun _ i hs _ => implemented_next hs i) n fun _ _ => trivial

/-! ## The law -/

/-- The value that an operation writes, from the old value and the operand. -/
def rmw (op : CsrOp) (old m : BitVec 64) : BitVec 64 :=
  match op with
  | .read => old
  | .write => m
  | .set => old ||| m
  | .clear => old &&& ~~~m

/-- The value that takes part in the modify step: a read without the external line. -/
def modifyOld (s : CsRegisters p) (i : CsRegistersIn) (c : Csr) : BitVec 64 :=
  s.rdata { i with irqExternalS := false } c

/-- The fields of `sstatus` that can be written. -/
def sstatusMask : BitVec 64 := maskOf [1, 5, 8, 13, 14, 18, 19]

/-- The other fields of `mstatus` that can be written, but for `MPP`. -/
def mstatusMask : BitVec 64 := maskOf [3, 7, 17, 20, 21, 22]

/-- `UXL` is constant and `SD` sums up `FS`. -/
def sstatusFixed (x : BitVec 64) : BitVec 64 := place [(33, true), (63, x.extractLsb' 13 2 == 3)]

/-- The fields of `satp`. -/
def satpMask (p : CsrParams) : BitVec 64 :=
  BitVec.twoPow 64 63 ||| (BitVec.allOnes p.asidLen).setWidth 64 <<< 44 |||
    (BitVec.allOnes (p.physAddrLen - 12)).setWidth 64

/-- What `c` reads as after `x` is written to it in the state `s`; `i` are the inputs at the
time of the read. -/
def warl (s : CsRegisters p) (i : CsRegistersIn) (c : Csr) (x : BitVec 64) : BitVec 64 :=
  match c with
  | .fflags => x &&& 0x1F
  | .frm => x &&& 0x7
  | .fcsr => x &&& 0xFF
  | .sstatus => x &&& sstatusMask ||| sstatusFixed x
  | .mstatus =>
    -- the reserved level 2 reads as M
    x &&& sstatusMask ||| sstatusFixed x |||
      (x &&& mstatusMask ||| place [(11, x.getLsbD 11 || x.getLsbD 12), (12, x.getLsbD 12),
        (35, true)])
  | .misa => misaValue p
  | .medeleg => x &&& 0xB3FF
  | .mideleg => x &&& 0x222
  | .mie => x &&& 0xAAA
  | .sie => x &&& s.rdata i .mideleg
  | .mip =>
    x &&& 0x222 ||| place [(3, i.irqSoftwareM), (7, i.irqTimerM), (9, i.irqExternalS),
      (11, i.irqExternalM)]
  | .sip =>
    -- only SSIP can be written, and only when it is delegated
    place [(1, s.midelegQ .softwareS && x.getLsbD 1)] ||| s.rdata i .sip &&& 0x220
  | .stvec | .mtvec => (x.setWidth p.logicSextAddrLen &&& ~~~3).signExtend 64
  | .scounteren | .mcounteren => x &&& 0x5
  | .sscratch | .mscratch | .stval | .mtval => x
  | .sepc | .mepc => x &&& ~~~1
  | .scause | .mcause => x &&& 0x800000000000000F
  | .satp =>
    if x.extractLsb' 60 4 = 0 ∨ x.extractLsb' 60 4 = 8 then x &&& satpMask p else s.rdata i .satp
  | .mcycle | .minstret => x
  | .mhpmcounter k => if k.val < p.mhpmCounterNum then x else 0
  | .mhpmevent k => if k.val < p.mhpmCounterNum then x &&& 0xF else 0
  | .mcountinhibit => x &&& (inhibitMask p).setWidth 64
  | .cycle | .instret | .hpmcounter _ | .mvendorid | .marchid | .mimpid | .mhartid | .other _ =>
    s.rdata i c

/-- The registers with the fields of `c` cleared; `FS` belongs to the floating-point
registers as well. -/
def erase (s : CsRegisters p) (c : Csr) : CsRegisters p :=
  match c with
  | .fflags => { s with fflagsQ := 0, mstatusQ := { s.mstatusQ with fs := 0 } }
  | .frm => { s with frmQ := 0, mstatusQ := { s.mstatusQ with fs := 0 } }
  | .fcsr => { s with fflagsQ := 0, frmQ := 0, mstatusQ := { s.mstatusQ with fs := 0 } }
  | .sstatus =>
    { s with
      mstatusQ :=
        { s.mstatusQ with
          sie := false, spie := false, spp := false, fs := 0, sum := false, mxr := false } }
  | .mstatus => { s with mstatusQ := (reset p).mstatusQ }
  | .medeleg => { s with medelegQ := 0 }
  | .mideleg => { s with midelegQ := fun x => !x.isS && s.midelegQ x }
  | .mie => { s with mieQ := fun _ => false }
  | .sie => { s with mieQ := fun x => !(x.isS && s.midelegQ x) && s.mieQ x }
  | .mip => { s with ssipQ := false, stipQ := false, seipQ := false }
  | .sip => { s with ssipQ := !s.midelegQ .softwareS && s.ssipQ }
  | .stvec => { s with stvecQ := 0 }
  | .mtvec => { s with mtvecQ := 0 }
  | .scounteren => { s with scounterenQ := 0 }
  | .mcounteren => { s with mcounterenQ := 0 }
  | .sscratch => { s with sscratchQ := 0 }
  | .mscratch => { s with mscratchQ := 0 }
  | .stval => { s with stvalQ := 0 }
  | .mtval => { s with mtvalQ := 0 }
  | .sepc => { s with sepcQ := 0 }
  | .mepc => { s with mepcQ := 0 }
  | .scause => { s with scauseQ := 0 }
  | .mcause => { s with mcauseQ := 0 }
  | .satp => { s with satpModeQ := false, satpAsidQ := 0, satpPpnQ := 0 }
  | .mcycle | .minstret | .mhpmcounter _ =>
    { s with mcounterQ := Function.update s.mcounterQ c.index 0 }
  | .mhpmevent _ => { s with mhpmeventQ := Function.update s.mhpmeventQ c.index 0 }
  | .mcountinhibit => { s with mcountinhibitQ := 0 }
  | .cycle | .instret | .hpmcounter _ | .mvendorid | .marchid | .mimpid | .mhartid | .misa
  | .other _ => s

/-- The counters run. -/
def tick (s : CsRegisters p) (i : CsRegistersIn) : CsRegisters p :=
  { s with
    mcounterQ := fun k => if s.counterIncrement i k then s.mcounterQ k + 1 else s.mcounterQ k }

/-- The registers that are views of others. -/
structure Views (s : CsRegisters p) (i : CsRegistersIn) : Prop where
  sstatus : s.rdata i .sstatus =
    s.rdata i .mstatus &&& maskOf [1, 5, 8, 13, 14, 18, 19, 32, 33, 63]
  sie : s.rdata i .sie = s.rdata i .mie &&& s.rdata i .mideleg
  sip : s.rdata i .sip = s.rdata i .mip &&& s.rdata i .mideleg
  fcsr : s.rdata i .fcsr = s.rdata i .frm <<< 5 ||| s.rdata i .fflags
  cycle : s.rdata i .cycle = s.rdata i .mcycle
  instret : s.rdata i .instret = s.rdata i .minstret
  hpmcounter : ∀ k, s.rdata i (.hpmcounter k) = s.rdata i (.mhpmcounter k)

/-- A CSR operation, without a trap, a return or a floating-point result. -/
structure Operates (i : CsRegistersIn) : Prop where
  csrOpEn : i.csrOpEn = true
  exValid : i.exValid = false
  erValid : i.erValid = false
  makeFsDirty : i.makeFsDirty = false
  setFflags : i.setFflags = 0

/-- The law of a CSR operation. -/
structure RmwLaw (s : CsRegisters p) (i : CsRegistersIn) : Prop where
  /-- What is returned is what a read gives. -/
  returned : s.rdata i i.csrAddr = s.rdata { i with csrOp := .read, csrWdata := 0 } i.csrAddr
  /-- A read changes nothing. -/
  read : i.csrOp = .read → s.next i = s.tick i
  /-- What a read gives in the next cycle. -/
  readBack : i.csrOp ≠ .read → ∀ i', (s.next i).rdata i' i.csrAddr =
    s.warl i' i.csrAddr (rmw i.csrOp (s.modifyOld i i.csrAddr) i.csrWdata)
  /-- The other fields are unchanged. -/
  frame : i.csrOp ≠ .read → (s.next i).erase i.csrAddr = (s.tick i).erase i.csrAddr
  /-- Writes of floating-point registers make `FS` dirty. -/
  fs : i.csrOp ≠ .read → i.csrAddr.isFp = true → (s.next i).mstatusQ.fs = 3
  /-- The views follow. -/
  views : ∀ i', (s.next i).Views i'

/-- What is to be read back from the two registers that cannot hold it is zero. -/
def ReadsBack (p : CsrParams) (i : CsRegistersIn) : Prop :=
  match i.csrAddr with
  | .mcountinhibit =>
    i.csrOp = .write ∨ i.csrOp = .set → i.csrWdata.setWidth 32 &&& inhibitMask p = 0
  | .mhpmevent _ =>
    p.mhpmCounterNum = 29 → i.csrOp = .write ∨ i.csrOp = .set → i.csrWdata.setWidth 4 = 0#4
  | _ => True

/-! ## Words of interrupts -/

theorem bit_injective : Function.Injective Irq.bit := by
  intro x y h
  cases x <;> cases y <;> simp_all [Irq.bit]

theorem getLsbD_placeIrqs (l : List Irq) (f : Irqs) (k : ℕ) :
    (placeIrqs l f).getLsbD k = true ↔ k < 64 ∧ ∃ x ∈ l, x.bit = k ∧ f x = true := by
  simp [placeIrqs, Sync.getLsbD_place, Bool.and_eq_true]

theorem placeIrqs_congr {l : List Irq} {f g : Irqs} (h : ∀ x ∈ l, f x = g x) :
    placeIrqs l f = placeIrqs l g := by
  unfold placeIrqs
  rw [List.map_congr_left fun x hx => by rw [h x hx]]

theorem placeIrqs_or (l : List Irq) (f g : Irqs) :
    (placeIrqs l fun x => f x || g x) = placeIrqs l f ||| placeIrqs l g := by
  apply BitVec.eq_of_getLsbD_eq
  intro k hk
  rw [BitVec.getLsbD_or, Bool.eq_iff_iff, Bool.or_eq_true]
  simp only [getLsbD_placeIrqs, Bool.or_eq_true]
  constructor
  · rintro ⟨-, x, hx, hb, hf | hg⟩
    · exact Or.inl ⟨hk, x, hx, hb, hf⟩
    · exact Or.inr ⟨hk, x, hx, hb, hg⟩
  · rintro (⟨-, x, hx, hb, hf⟩ | ⟨-, x, hx, hb, hg⟩)
    · exact ⟨hk, x, hx, hb, Or.inl hf⟩
    · exact ⟨hk, x, hx, hb, Or.inr hg⟩

theorem placeIrqs_and (l l' : List Irq) (f g : Irqs) :
    placeIrqs l f &&& placeIrqs l' g =
      placeIrqs l' fun x => decide (x ∈ l) && (f x && g x) := by
  apply BitVec.eq_of_getLsbD_eq
  intro k hk
  rw [BitVec.getLsbD_and, Bool.eq_iff_iff, Bool.and_eq_true]
  simp only [getLsbD_placeIrqs, Bool.and_eq_true, decide_eq_true_eq]
  constructor
  · rintro ⟨⟨-, x, hx, hb, hf⟩, -, y, hy, hb', hg⟩
    obtain rfl := bit_injective (hb.trans hb'.symm)
    exact ⟨hk, x, hy, hb, hx, hf, hg⟩
  · rintro ⟨-, x, hy, hb, hx, hf, hg⟩
    exact ⟨⟨hk, x, hx, hb, hf⟩, hk, x, hy, hb, hg⟩

/-- Interrupt bits taken from a word. -/
theorem placeIrqs_getLsbD (l : List Irq) (w : BitVec 64) (f : Irqs) :
    (placeIrqs l fun x => w.getLsbD x.bit && f x) = w &&& placeIrqs l f := by
  apply BitVec.eq_of_getLsbD_eq
  intro k hk
  rw [BitVec.getLsbD_and, Bool.eq_iff_iff, Bool.and_eq_true]
  simp only [getLsbD_placeIrqs, Bool.and_eq_true]
  constructor
  · rintro ⟨-, x, hx, rfl, hw, hf⟩
    exact ⟨hw, hk, x, hx, rfl, hf⟩
  · rintro ⟨hw, -, x, hx, rfl, hf⟩
    exact ⟨hk, x, hx, rfl, hw, hf⟩

/-- The interrupt lines. -/
def lines (i : CsRegistersIn) : Irqs
  | .softwareM => i.irqSoftwareM
  | .timerM => i.irqTimerM
  | .externalS => i.irqExternalS
  | .externalM => i.irqExternalM
  | .softwareS | .timerS => false

theorem placeIrqs_lines (i : CsRegistersIn) : placeIrqs Irq.chain (lines i) =
    place [(3, i.irqSoftwareM), (7, i.irqTimerM), (9, i.irqExternalS), (11, i.irqExternalM)] := by
  simp only [placeIrqs, Irq.chain, List.map, place, lines, Irq.bit, Bool.false_eq_true, if_false]
  simp only [show (0 : BitVec 64) = 0#64 from rfl, BitVec.or_zero]
  ac_rfl

theorem mem_sChain (x : Irq) : x ∈ Irq.sChain ↔ x.isS = true := by
  cases x <;> decide

/-! ## Views -/

theorem views_fcsr (frm : BitVec 3) (fflags : BitVec 5) :
    (frm ++ fflags).setWidth 64 = frm.setWidth 64 <<< 5 ||| fflags.setWidth 64 := by
  apply BitVec.eq_of_getLsbD_eq
  intro k hk
  simp only [BitVec.getLsbD_setWidth, BitVec.getLsbD_append, BitVec.getLsbD_or,
    BitVec.getLsbD_shiftLeft, hk, decide_true, Bool.true_and]
  by_cases h5 : k < 5
  · simp [h5]
  · have hk' : k - 5 < 64 := by omega
    simp [h5, hk', BitVec.getLsbD_of_ge fflags k (by omega)]

theorem index_hpmcounter (k : Fin 29) :
    (Csr.hpmcounter k).index = (Csr.mhpmcounter k).index := by
  revert k
  decide

theorem views (s : CsRegisters p) (i : CsRegistersIn) : s.Views i where
  sstatus := by
    simp only [rdata, rdataInt, Sync.place_and_maskOf]
    rfl
  sie := by
    simp only [rdata, rdataInt, placeIrqs_and]
    exact placeIrqs_congr fun x _ => by simp [Irq.mem_chain, Bool.and_comm]
  sip := by
    simp only [rdata, rdataInt, placeIrqs_and]
    exact placeIrqs_congr fun x _ => by simp [Irq.mem_chain, Bool.and_comm]
  fcsr := by
    simp only [rdata, rdataInt]
    split
    · exact views_fcsr s.frmQ s.fflagsQ
    · rfl
  cycle := rfl
  instret := rfl
  hpmcounter := by
    intro k
    simp only [rdata, rdataInt, index_hpmcounter]

/-! ## Reading back -/

/-- The fields of `sstatus` after a write. -/
theorem place_statusFields (t : Status) (x : BitVec 64) :
    (place (statusFields (writeSstatus t x)) : BitVec 64) =
      x &&& sstatusMask ||| sstatusFixed x := by
  have h : statusFields (writeSstatus t x) =
      ([1, 5, 8, 13, 14, 18, 19].map fun k => (k, x.getLsbD k)) ++
        [(33, true), (63, x.extractLsb' 13 2 == 3)] := by
    simp [statusFields, writeSstatus]
  rw [h, Sync.place_append, Sync.place_map_getLsbD]
  rfl

theorem statusFields_writeMstatus (t : Status) (x : BitVec 64) :
    statusFields (writeMstatus t x) = statusFields (writeSstatus t x) := rfl

/-- The reserved level becomes M. -/
theorem writeMstatus_toBits (t : Status) (x : BitVec 64) :
    (writeMstatus t x).mpp.toBits.getLsbD 0 = (x.getLsbD 11 || x.getLsbD 12) ∧
      (writeMstatus t x).mpp.toBits.getLsbD 1 = x.getLsbD 12 := by
  simp only [writeMstatus]
  cases x.getLsbD 11 <;> cases x.getLsbD 12 <;> decide

theorem place_machineFields (t : Status) (x : BitVec 64) :
    (place (machineFields (writeMstatus t x)) : BitVec 64) =
      x &&& mstatusMask ||| place [(11, x.getLsbD 11 || x.getLsbD 12), (12, x.getLsbD 12),
        (35, true)] := by
  obtain ⟨h0, h1⟩ := writeMstatus_toBits t x
  have hm : x &&& mstatusMask =
      place ([3, 7, 17, 20, 21, 22].map fun k => (k, x.getLsbD k)) :=
    (Sync.place_map_getLsbD x _).symm
  rw [hm, ← Sync.place_append]
  simp only [machineFields, h0, h1]
  simp only [writeMstatus, place, List.map_cons, List.map_nil, List.cons_append, List.nil_append]
  ac_rfl

theorem causeValue_causeOf (x : BitVec 64) :
    causeValue (causeOf x) = x &&& 0x800000000000000F := by
  have h : (0x800000000000000F : BitVec 64) = maskOf [0, 1, 2, 3, 63] := by decide
  rw [h]
  apply BitVec.eq_of_getLsbD_eq
  intro k hk
  simp only [causeValue, causeOf, maskOf, BitVec.getLsbD_and, Sync.getLsbD_place,
    BitVec.getLsbD_append, BitVec.getLsbD_extractLsb', hk]
  by_cases h4 : k < 4
  · have hmem : k = 0 ∨ k = 1 ∨ k = 2 ∨ k = 3 := by omega
    rcases hmem with rfl | rfl | rfl | rfl <;> simp
  · by_cases h63 : k = 63
    · subst h63
      simp
    · have h59 : k - 4 < 59 := by omega
      have hne : ∀ j, j = 0 ∨ j = 1 ∨ j = 2 ∨ j = 3 ∨ j = 63 → j ≠ k := by omega
      simp [h4, h59, hne 0, hne 1, hne 2, hne 3, hne 63]

theorem satp_getLsbD (s : CsRegisters p) (k : ℕ) (hk : k < 64) :
    s.satp.getLsbD k =
      if k < 44 then s.satpPpnQ.getLsbD k
      else if k < 60 then s.satpAsidQ.getLsbD (k - 44)
      else decide (k = 63) && s.satpModeQ := by
  simp only [satp, BitVec.getLsbD_append, BitVec.getLsbD_setWidth]
  by_cases h44 : k < 44
  · simp [h44]
  · by_cases h60 : k < 60
    · have : k - 44 < 16 := by omega
      simp [h44, h60, this]
    · have h16 : ¬k - 44 < 16 := by omega
      by_cases h63 : k = 63
      · subst h63
        simp
      · have h3 : k - 44 - 16 < 3 := by omega
        simp [h44, h60, h16, h3, h63]

theorem satpMask_getLsbD (p : CsrParams) (k : ℕ) (hk : k < 64) :
    (satpMask p).getLsbD k =
      if k < 44 then decide (k < p.physAddrLen - 12)
      else if k < 60 then decide (k - 44 < p.asidLen)
      else decide (k = 63) := by
  have hp := p.physAddrLen_le
  have ha := p.asidLen_le
  simp only [satpMask, BitVec.getLsbD_or, BitVec.getLsbD_shiftLeft, BitVec.getLsbD_setWidth,
    BitVec.getLsbD_allOnes, BitVec.getLsbD_twoPow, hk, decide_true, Bool.true_and]
  by_cases h44 : k < 44
  · have h63 : 63 ≠ k := by omega
    simp [h44, h63]
  · have hppn : ¬k < p.physAddrLen - 12 := by omega
    have hk' : k - 44 < 64 := by omega
    by_cases h60 : k < 60
    · have h63 : 63 ≠ k := by omega
      simp [h44, h60, h63, hppn, hk']
    · have hasid : ¬k - 44 < p.asidLen := by omega
      simp [h44, h60, hppn, hasid, eq_comm]

theorem satp_write (s : CsRegisters p) (x : BitVec 64) :
    ({ s with
      satpModeQ := x.getLsbD 63
      satpAsidQ := x.extractLsb' 44 p.asidLen
      satpPpnQ := x.extractLsb' 0 (p.physAddrLen - 12) } : CsRegisters p).satp =
      x &&& satpMask p := by
  apply BitVec.eq_of_getLsbD_eq
  intro k hk
  rw [satp_getLsbD _ k hk, BitVec.getLsbD_and, satpMask_getLsbD p k hk]
  simp only [BitVec.getLsbD_extractLsb', Nat.zero_add]
  by_cases h44 : k < 44
  · simp [h44, Bool.and_comm]
  · by_cases h60 : k < 60
    · have h : 44 + (k - 44) = k := by omega
      simp [h44, h60, h, Bool.and_comm]
    · by_cases h63 : k = 63
      · subst h63
        simp
      · simp [h44, h60, h63]

theorem rdata_write (hs : s.Implemented) {c : Csr} (i : CsRegistersIn) (x : BitVec 64)
    (hc : c.isCounter = false) (hctl : c.isControl = false) (hav : s.unavailable c = false) :
    (s.write c x).rdata i c = s.warl i c x := by
  cases c
  case fflags =>
    have hf : p.rv64f = true := by simp_all [unavailable]
    simp only [write, hf, rdata, rdataInt, if_true, warl]
    exact Sync.setWidth_setWidth_mask x
  case frm =>
    have hf : p.rv64f = true := by simp_all [unavailable]
    simp only [write, hf, rdata, rdataInt, if_true, warl]
    exact Sync.setWidth_setWidth_mask x
  case fcsr =>
    have hf : p.rv64f = true := by simp_all [unavailable]
    simp only [write, hf, rdata, rdataInt, if_true, warl]
    have h : x.extractLsb' 5 3 ++ x.setWidth 5 = x.setWidth 8 := by
      apply BitVec.eq_of_getLsbD_eq
      intro k hk
      simp only [BitVec.getLsbD_append, BitVec.getLsbD_setWidth, BitVec.getLsbD_extractLsb', hk]
      by_cases h5 : k < 5
      · simp [h5]
      · have h3 : k - 5 < 3 := by omega
        have hadd : 5 + (k - 5) = k := by omega
        simp [h5, h3, hadd]
    rw [h]
    exact Sync.setWidth_setWidth_mask x
  case sstatus => exact place_statusFields s.mstatusQ x
  case mstatus =>
    simp only [write, rdata, rdataInt, warl]
    rw [Sync.place_append, statusFields_writeMstatus, place_statusFields, place_machineFields]
  case medeleg =>
    simp only [write, rdata, rdataInt, warl, hs.medeleg]
    rw [show (0 : BitVec 16) = 0#16 from rfl, BitVec.zero_or]
    exact Sync.setWidth_setWidth_and x _
  case mideleg =>
    simp only [write, rdata, rdataInt, warl]
    rw [placeIrqs_congr (g := fun y => x.getLsbD y.bit && true)
      fun y hy => by simp [writeIrqs, hy], placeIrqs_getLsbD]
    rfl
  case mie =>
    simp only [write, rdata, rdataInt, warl]
    rw [placeIrqs_congr (g := fun y => x.getLsbD y.bit && true)
      fun y hy => by simp [writeIrqs, hy], placeIrqs_getLsbD]
    rfl
  case sie =>
    simp only [write, rdata, rdataInt, warl]
    rw [← placeIrqs_getLsbD]
    refine placeIrqs_congr fun y hy => ?_
    cases hd : s.midelegQ y <;> simp [writeIrqs, hd, hy]
  case mip =>
    have h : ∀ y ∈ Irq.chain,
      (s.write .mip x).mip i y = ((x.getLsbD y.bit && y.isS) || lines i y) := by
      intro y _
      cases y <;> simp [write, mip, lines, Irq.isS, Bool.or_comm]
    simp only [rdata, warl]
    rw [placeIrqs_congr h, placeIrqs_or, placeIrqs_getLsbD, placeIrqs_lines]
    rfl
  case sip =>
    have h : (0x220 : BitVec 64) = maskOf [5, 9] := by decide
    simp only [rdata, warl, h, placeIrqs, Sync.place_and_maskOf, ← Sync.place_append]
    cases hd : s.midelegQ .softwareS <;>
      simp [write, hd, Irq.sChain, Irq.bit, mip]
  case scounteren =>
    simp only [write, rdata, rdataInt, warl]
    exact Sync.setWidth_setWidth_and x _
  case mcounteren =>
    simp only [write, rdata, rdataInt, warl]
    exact Sync.setWidth_setWidth_and x _
  case scause => exact causeValue_causeOf x
  case mcause => exact causeValue_causeOf x
  case satp =>
    simp only [write, rdata, rdataInt, warl]
    split
    · exact satp_write s x
    · rfl
  all_goals first
    | rfl
    | (simp [Csr.isCounter] at hc; done)
    | simp [Csr.isControl] at hctl

theorem index_mhpmevent (k : Fin 29) : (Csr.mhpmevent k).index.val = k.val + 3 := by
  revert k
  decide

theorem index_mhpmcounter (k : Fin 29) : (Csr.mhpmcounter k).index.val = k.val + 3 := by
  revert k
  decide

/-- With all 29 counters the bound on the selectors is zero. -/
theorem rdata_write_mhpmevent (hs : s.Implemented) (i : CsRegistersIn) (k : Fin 29)
    (x : BitVec 64) : (s.write (.mhpmevent k) x).rdata i (.mhpmevent k) =
      if p.mhpmCounterNum = 29 then 0 else s.warl i (.mhpmevent k) x := by
  have hk := k.isLt
  have hle := p.mhpmCounterNum_le
  have hmask : (x.setWidth 4).setWidth 64 = x &&& 0xF := Sync.setWidth_setWidth_mask x
  simp only [write, rdata, rdataInt, warl, index_mhpmevent]
  by_cases h29 : p.mhpmCounterNum = 29
  · rw [if_neg (by omega), if_pos h29, hs.mhpmevent _ (by rw [index_mhpmevent]; omega)]
    rfl
  · have hmod : (p.mhpmCounterNum + 3) % 2 ^ 5 = p.mhpmCounterNum + 3 := by omega
    rw [hmod, if_neg h29]
    by_cases hkn : k.val < p.mhpmCounterNum
    · rw [if_pos (by omega), if_pos hkn, ← hmask]
      simp only [Function.update_self]
    · rw [if_neg (by omega), if_neg hkn, hs.mhpmevent _ (by rw [index_mhpmevent]; omega)]
      rfl

/-! ## The other fields -/

theorem erase_write (s : CsRegisters p) (c : Csr) (x : BitVec 64) :
    (s.write c x).erase c = s.erase c := by
  cases c
  case sstatus => rfl
  case sie =>
    have h : (fun y => !(y.isS && s.midelegQ y) &&
        writeIrqs (Irq.sChain.filter s.midelegQ) s.mieQ x y) =
          fun y => !(y.isS && s.midelegQ y) && s.mieQ y := by
      funext y
      cases hd : y.isS <;> cases hm : s.midelegQ y <;> simp [writeIrqs, mem_sChain, hd, hm]
    simp only [write, erase, h]
  case mideleg =>
    have h : (fun y => !Irq.isS y && writeIrqs Irq.sChain s.midelegQ x y) =
        fun y => !Irq.isS y && s.midelegQ y := by
      funext y
      cases hd : y.isS <;> simp [writeIrqs, mem_sChain, hd]
    simp only [write, erase, h]
  case sip =>
    simp only [write]
    split
    · next hd => simp [erase, hd]
    · rfl
  case mhpmevent k =>
    simp only [write]
    split
    · simp [erase]
    · rfl
  all_goals first
    | rfl
    | (simp only [write]; split <;> rfl)

/-! ## One operation -/

theorem accumulate_of_operates (s : CsRegisters p) (h : Operates i) : s.accumulate i = s := by
  unfold accumulate
  rw [h.makeFsDirty, h.setFflags]
  split <;> simp

theorem rdataInt_eq (s : CsRegisters p) (i : CsRegistersIn) (c : Csr) :
    s.rdataInt i c = s.modifyOld i c := by
  cases c
  case mip =>
    refine placeIrqs_congr fun y _ => ?_
    cases y <;> simp [rdataInt.writable, mip]
  case sip =>
    simp only [rdataInt, modifyOld, rdata]
    refine placeIrqs_congr fun y _ => ?_
    cases y <;> simp [rdataInt.writable, mip]
  all_goals rfl

theorem wdataInt_eq (s : CsRegisters p) (h : i.csrOp ≠ .read) :
    s.wdataInt i = rmw i.csrOp (s.modifyOld i i.csrAddr) i.csrWdata := by
  unfold wdataInt rmw
  rw [rdataInt_eq]
  cases hop : i.csrOp with
  | read => exact absurd hop h
  | write => rfl
  | set => exact BitVec.or_comm _ _
  | clear => exact BitVec.and_comm _ _

theorem write_mcounterQ (s : CsRegisters p) (f : Fin 32 → BitVec 64) (c : Csr) (x : BitVec 64) :
    ({ s with mcounterQ := f } : CsRegisters p).write c x =
      { s.write c x with mcounterQ := f } := by
  unfold write
  cases c <;> first
    | rfl
    | (simp only; split <;> rfl)

theorem tick_implemented (h : s.Implemented) (i : CsRegistersIn) : (s.tick i).Implemented where
  mcounter := by
    intro k hk
    have h0 : k ≠ 0 := by
      rintro rfl
      exact absurd hk (Nat.not_lt_zero _)
    have h2 : k ≠ 2 := by
      rintro rfl
      exact absurd hk (Nat.not_lt.mpr (Nat.le_add_left _ _))
    have hn : ¬(3 ≤ k.val ∧ k.val < p.mhpmCounterNum + 3) := by omega
    simpa [tick, counterIncrement, h0, h2, hn] using h.mcounter k hk
  mhpmevent := h.mhpmevent
  medeleg := h.medeleg

theorem warl_tick (s : CsRegisters p) (i i' : CsRegistersIn) {c : Csr} (x : BitVec 64)
    (hro : c.isReadOnly = false) : (s.tick i).warl i' c x = s.warl i' c x := by
  cases c
  case hpmcounter k =>
    have h : ∀ k, (Csr.hpmcounter k).isReadOnly = true := by decide
    exact absurd (hro.symm.trans (h k)) (by decide)
  all_goals first
    | rfl
    | exact absurd hro (by decide)

theorem mcounterWe_eq (ho : Operates i) (hop : i.csrOp ≠ .read) :
    mcounterWe i = i.csrAddr.isCounter := by
  simp only [mcounterWe, ho.exValid, ho.erValid, ho.csrOpEn]
  cases i.csrAddr <;> simp [Csr.isCounter, hop]

theorem control_of_operates (s : CsRegisters p) (ho : Operates i) :
    next.control s i = if i.csrOp = .read then s else s.write i.csrAddr (s.wdataInt i) := by
  unfold next.control
  rw [ho.exValid, ho.erValid, ho.csrOpEn, accumulate_of_operates s ho]
  cases i.csrOp <;> simp

/-- Counters that count are implemented. -/
theorem le_of_counterIncrement {k : Fin 32} (h : s.counterIncrement i k = true) :
    k.val ≤ p.mhpmCounterNum + 2 := by
  unfold counterIncrement at h
  split at h
  · next hk => simp [hk]
  · split at h
    · next hk => simp [hk]
    · split at h
      · omega
      · simp at h

theorem nextMcounterQ_eq (s : CsRegisters p) (i : CsRegistersIn) (k : Fin 32) :
    s.nextMcounterQ i k =
      if k.val ≤ p.mhpmCounterNum + 2 ∧ mcounterWe i = true ∧ k = i.csrAddr.index then s.wdataInt i
      else (s.tick i).mcounterQ k := by
  simp only [nextMcounterQ, tick, Bool.and_eq_true, beq_iff_eq]
  by_cases hk : k.val ≤ p.mhpmCounterNum + 2
  · simp [hk]
  · have hc : s.counterIncrement i k = false := by
      cases h : s.counterIncrement i k with
      | false => rfl
      | true => exact absurd (le_of_counterIncrement h) hk
    simp [hk, hc]

theorem next_of_read (ho : Operates i) (hop : i.csrOp = .read) : s.next i = s.tick i := by
  have hwe : mcounterWe i = false := by simp [mcounterWe, hop]
  have hcount : s.nextMcounterQ i = (s.tick i).mcounterQ := by
    funext k
    simp [nextMcounterQ_eq, hwe]
  simp only [next, control_of_operates s ho, hop, if_true, hcount]
  rfl

theorem next_of_write (ho : Operates i) (hop : i.csrOp ≠ .read)
    (hc : i.csrAddr.isCounter = false) :
    s.next i = (s.tick i).write i.csrAddr (s.wdataInt i) := by
  have hcount : s.nextMcounterQ i = (s.tick i).mcounterQ := by
    funext k
    simp [nextMcounterQ_eq, mcounterWe_eq ho hop, hc]
  simp only [next, control_of_operates s ho, hop, if_false, hcount]
  exact (write_mcounterQ s _ _ _).symm

theorem next_of_counter (ho : Operates i) (hop : i.csrOp ≠ .read)
    (hc : i.csrAddr.isCounter = true) :
    s.next i =
      { s.tick i with
        mcounterQ :=
          if i.csrAddr.index.val ≤ p.mhpmCounterNum + 2 then
            Function.update (s.tick i).mcounterQ i.csrAddr.index (s.wdataInt i)
          else (s.tick i).mcounterQ } := by
  have hcount : s.nextMcounterQ i =
      if i.csrAddr.index.val ≤ p.mhpmCounterNum + 2 then
        Function.update (s.tick i).mcounterQ i.csrAddr.index (s.wdataInt i)
      else (s.tick i).mcounterQ := by
    funext k
    rw [nextMcounterQ_eq, mcounterWe_eq ho hop, hc]
    by_cases hk : k = i.csrAddr.index
    · subst hk
      by_cases hle : i.csrAddr.index.val ≤ p.mhpmCounterNum + 2 <;> simp [hle]
    · by_cases hle : i.csrAddr.index.val ≤ p.mhpmCounterNum + 2 <;> simp [hle, hk]
  have hw : s.write i.csrAddr (s.wdataInt i) = s := by
    cases ha : i.csrAddr <;> simp_all [Csr.isCounter, write]
  simp only [next, control_of_operates s ho, hop, if_false, hw, hcount]
  rfl

theorem readBack_counter (hs : s.Implemented) (ho : Operates i) (hop : i.csrOp ≠ .read)
    (hc : i.csrAddr.isCounter = true) (i' : CsRegistersIn) :
    (s.next i).rdata i' i.csrAddr = s.warl i' i.csrAddr (s.wdataInt i) := by
  rw [next_of_counter ho hop hc]
  cases ha : i.csrAddr <;> simp only [ha, Csr.isCounter, Bool.false_eq_true] at hc
  case mcycle => simp [rdata, rdataInt, warl, Csr.index, Csr.addr]
  case minstret => simp [rdata, rdataInt, warl, Csr.index, Csr.addr]
  case mhpmcounter k =>
    simp only [rdata, rdataInt, warl, index_mhpmcounter]
    by_cases hk : k.val < p.mhpmCounterNum
    · rw [if_pos hk, if_pos (by omega), Function.update_self]
    · rw [if_neg hk, if_neg (by omega)]
      exact (tick_implemented hs i).mcounter _ (by rw [index_mhpmcounter]; omega)

theorem erase_counter (ho : Operates i) (hop : i.csrOp ≠ .read)
    (hc : i.csrAddr.isCounter = true) :
    (s.next i).erase i.csrAddr = (s.tick i).erase i.csrAddr := by
  rw [next_of_counter ho hop hc]
  have h : ∀ f : Fin 32 → BitVec 64,
      ({ s.tick i with mcounterQ := f } : CsRegisters p).erase i.csrAddr =
        { s.tick i with mcounterQ := Function.update f i.csrAddr.index 0 } := by
    intro f
    cases ha : i.csrAddr <;> simp_all [Csr.isCounter, erase]
  rw [h]
  have htick := h (s.tick i).mcounterQ
  refine Eq.trans ?_ htick.symm
  split <;> simp

theorem readBack_write (hs : s.Implemented) (ho : Operates i) (hop : i.csrOp ≠ .read)
    (hctl : i.csrAddr.isControl = false) (hro : i.csrAddr.isReadOnly = false)
    (hav : s.unavailable i.csrAddr = false) (i' : CsRegistersIn) :
    (s.next i).rdata i' i.csrAddr = s.warl i' i.csrAddr (s.wdataInt i) := by
  cases hc : i.csrAddr.isCounter with
  | true => exact readBack_counter hs ho hop hc i'
  | false =>
      rw [next_of_write ho hop hc, rdata_write (tick_implemented hs i) i' _ hc hctl hav,
        warl_tick s i i' _ hro]

theorem frame_of_write (ho : Operates i) (hop : i.csrOp ≠ .read) :
    (s.next i).erase i.csrAddr = (s.tick i).erase i.csrAddr := by
  cases hc : i.csrAddr.isCounter with
  | true => exact erase_counter ho hop hc
  | false =>
      rw [next_of_write ho hop hc]
      exact erase_write _ _ _

theorem fs_of_write (ho : Operates i) (hop : i.csrOp ≠ .read) (hfp : i.csrAddr.isFp = true)
    (hav : s.unavailable i.csrAddr = false) : (s.next i).mstatusQ.fs = 3 := by
  have hc : i.csrAddr.isCounter = false := by
    cases ha : i.csrAddr <;> simp_all [Csr.isCounter, Csr.isFp]
  rw [next_of_write ho hop hc]
  cases ha : i.csrAddr <;> simp only [ha, Csr.isFp, Bool.false_eq_true] at hfp
  all_goals
    have hf : p.rv64f = true := by simp_all [unavailable]
    simp [write, hf, dirtyFs]

/-- The law is a matter of what is read back. -/
theorem rmwLaw_iff_readBack (ho : Operates i) (hl : s.checkIllegal i.csrAddr i.csrOp = false) :
    s.RmwLaw i ↔ (i.csrOp ≠ .read → ∀ i', (s.next i).rdata i' i.csrAddr =
      s.warl i' i.csrAddr (s.wdataInt i)) := by
  have hav : s.unavailable i.csrAddr = false := by
    simp only [checkIllegal, Bool.or_eq_false_iff] at hl
    exact hl.1.1
  constructor
  · intro h hop i'
    rw [wdataInt_eq s hop]
    exact h.readBack hop i'
  · intro h
    refine ⟨rfl, next_of_read ho, ?_, frame_of_write ho,
      fun hop hfp => fs_of_write ho hop hfp hav, (s.next i).views⟩
    intro hop i'
    rw [← wdataInt_eq s hop]
    exact h hop i'

/-- What is written to a register that reads as zero. -/
theorem wdataInt_of_zero (hop : i.csrOp ≠ .read) (hz : s.rdataInt i i.csrAddr = 0#64) :
    s.wdataInt i = if i.csrOp = .write ∨ i.csrOp = .set then i.csrWdata else 0#64 := by
  unfold wdataInt
  rw [hz]
  cases ho : i.csrOp with
  | read => exact absurd ho hop
  | write => simp
  | set => simp
  | clear => simp

/-- A register that reads as zero whatever is written obeys the law when its writable bits are
written with zero. -/
theorem readBack_zero_iff {w : ℕ} (hw : w ≤ 64) (m : BitVec w)
    (hz : s.rdataInt i i.csrAddr = 0#64)
    (hnext : i.csrOp ≠ .read → ∀ i', (s.next i).rdata i' i.csrAddr = 0#64)
    (hwarl : ∀ i' x, s.warl i' i.csrAddr x = x &&& m.setWidth 64) :
    (i.csrOp ≠ .read → ∀ i', (s.next i).rdata i' i.csrAddr =
      s.warl i' i.csrAddr (s.wdataInt i)) ↔
      (i.csrOp = .write ∨ i.csrOp = .set → i.csrWdata.setWidth w &&& m = 0#w) := by
  constructor
  · intro h hset
    have hop : i.csrOp ≠ .read := by
      rcases hset with hw | hs
      · rw [hw]
        decide
      · rw [hs]
        decide
    have hback := h hop i
    rw [hnext hop, hwarl, wdataInt_of_zero hop hz, if_pos hset] at hback
    exact (Sync.and_setWidth_eq_zero _ m hw).mp hback.symm
  · intro h hop i'
    rw [hnext hop, hwarl, wdataInt_of_zero hop hz]
    split
    · next hset => exact ((Sync.and_setWidth_eq_zero _ m hw).mpr (h hset)).symm
    · simp

theorem readBack_mcountinhibit_iff (ha : i.csrAddr = .mcountinhibit) :
    (i.csrOp ≠ .read → ∀ i', (s.next i).rdata i' i.csrAddr =
      s.warl i' i.csrAddr (s.wdataInt i)) ↔ ReadsBack p i := by
  rw [readBack_zero_iff (by decide : 32 ≤ 64) (inhibitMask p) (by rw [ha]; rfl)
    (fun _ _ => by rw [ha]; rfl) fun _ _ => by rw [ha]; rfl]
  simp [ReadsBack, ha]

theorem readBack_mhpmevent_iff (hs : s.Implemented) (ho : Operates i) {k : Fin 29}
    (ha : i.csrAddr = .mhpmevent k) :
    (i.csrOp ≠ .read → ∀ i', (s.next i).rdata i' i.csrAddr =
      s.warl i' i.csrAddr (s.wdataInt i)) ↔ ReadsBack p i := by
  have hro : ∀ k, (Csr.mhpmevent k).isReadOnly = false := by decide
  have hback : i.csrOp ≠ .read → ∀ i', (s.next i).rdata i' i.csrAddr =
      if p.mhpmCounterNum = 29 then 0 else s.warl i' i.csrAddr (s.wdataInt i) := by
    intro hop i'
    rw [next_of_write ho hop (by rw [ha]; rfl), ha,
      rdata_write_mhpmevent (tick_implemented hs i), warl_tick s i i' _ (hro k)]
  by_cases h29 : p.mhpmCounterNum = 29
  · have hzero : s.rdataInt i i.csrAddr = 0#64 := by
      rw [ha]
      simp only [rdataInt]
      rw [hs.mhpmevent _ (by rw [h29]; exact Nat.zero_le _)]
      rfl
    rw [readBack_zero_iff (by decide : 4 ≤ 64) (BitVec.allOnes 4) hzero
      (fun hop i' => by rw [hback hop i', if_pos h29]; rfl) fun _ _ => ?_]
    · simp only [ReadsBack, ha, h29, forall_const, BitVec.and_allOnes]
    · rw [ha]
      simp only [warl, h29, k.isLt, if_true]
      rfl
  · refine iff_of_true (fun hop i' => ?_) (by simp [ReadsBack, ha, h29])
    rw [hback hop i', if_neg h29]

theorem rmwLaw_iff_readsBack (hs : s.Implemented) (ho : Operates i)
    (hl : s.checkIllegal i.csrAddr i.csrOp = false) : s.RmwLaw i ↔ ReadsBack p i := by
  rw [rmwLaw_iff_readBack ho hl]
  cases hctl : i.csrAddr.isControl with
  | true =>
      cases ha : i.csrAddr <;> simp only [ha, Csr.isControl, Bool.false_eq_true] at hctl
      case mcountinhibit => exact ha ▸ readBack_mcountinhibit_iff ha
      case mhpmevent k => exact ha ▸ readBack_mhpmevent_iff hs ho ha
  | false =>
      simp only [checkIllegal, Bool.or_eq_false_iff, Bool.and_eq_false_iff, bne_eq_false_iff_eq]
        at hl
      obtain ⟨⟨hav, hro⟩, -⟩ := hl
      have hback : ReadsBack p i := by
        unfold ReadsBack
        cases ha : i.csrAddr <;> simp_all [Csr.isControl]
      refine iff_of_true (fun hop i' => ?_) hback
      exact readBack_write hs ho hop hctl (hro.resolve_right hop) hav i'

/-! ## Runs -/

theorem rmwLaw_iff (p : CsrParams) (inp : ℕ → CsRegistersIn) (n : ℕ) (i : CsRegistersIn)
    (ho : Operates i)
    (hl : (run next (reset p) inp n).checkIllegal i.csrAddr i.csrOp = false) :
    (run next (reset p) inp n).RmwLaw i ↔ ReadsBack p i :=
  rmwLaw_iff_readsBack (implemented_of_run p inp n) ho hl

instance (i : CsRegistersIn) : Decidable (Operates i) :=
  decidable_of_iff (i.csrOpEn = true ∧ i.exValid = false ∧ i.erValid = false ∧
      i.makeFsDirty = false ∧ i.setFflags = 0)
    ⟨fun h => ⟨h.1, h.2.1, h.2.2.1, h.2.2.2.1, h.2.2.2.2⟩,
      fun h => ⟨h.csrOpEn, h.exValid, h.erValid, h.makeFsDirty, h.setFflags⟩⟩

/-- A write of `x` to `c`. -/
def csrrw (c : Csr) (x : BitVec 64) : CsRegistersIn :=
  { quiet with csrAddr := c, csrOp := .write, csrOpEn := true, csrWdata := x }

/-- `mepc` is written after reset. -/
theorem rmwLaw_iff_mepc : (reset defaultParams).RmwLaw (csrrw .mepc 0x80000001) :=
  (rmwLaw_iff defaultParams (fun _ => quiet) 0 (csrrw .mepc 0x80000001) (by decide)
    (by decide)).mpr trivial

/-- All 29 counters are present. -/
def allCounters : CsrParams :=
  ⟨false, false, 16, 56, 39, 29, CsrParams.asidLen_max, CsrParams.physAddrLen_max, by decide⟩

/-- What is written to `mcountinhibit`, and to a selector when all counters are present, is not
read back. -/
theorem counting_not_read_back :
    ¬(run next (reset defaultParams) (fun _ => quiet) 0).RmwLaw (csrrw .mcountinhibit 1) ∧
      ¬(run next (reset allCounters) (fun _ => quiet) 0).RmwLaw (csrrw (.mhpmevent 0) 1) := by
  constructor
  · intro h
    exact absurd (h.readBack (by decide) quiet) (by decide)
  · intro h
    exact absurd (h.readBack (by decide) quiet) (by decide)

end CsRegisters

end Muntjac.Pipeline

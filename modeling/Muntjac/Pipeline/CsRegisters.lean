import Muntjac.Pipeline.Alu
import Muntjac.Sync.Fields

/-!
# Control and status registers

`muntjac_cs_registers`: the registers, the check of CSR accesses, the reads and writes,
trap entry and return, interrupts and the performance counters.  Outputs of the source
that depend on a case that is not taken (`'x`) are zero; the tracing port is left out.

## Main definitions

* `CsRegisters` — the registers.
* `CsRegisters.checkIllegal`, `rdata`, `next` — the check port, the read port and one cycle.
* `CsRegisters.irqValid`, `irqCause` — the interrupt outputs.
-/

namespace Muntjac.Pipeline

open Sync (place maskOf)

/-- `priv_lvl_e`. -/
inductive PrivLvl
  | u
  | s
  | h
  | m
  deriving DecidableEq, Repr

namespace PrivLvl

def toBits : PrivLvl → BitVec 2
  | u => 0
  | s => 1
  | h => 2
  | m => 3

/-- `priv_lvl_e'(x)`. -/
def ofBits (high low : Bool) : PrivLvl :=
  match high, low with
  | false, false => u
  | false, true => s
  | true, false => h
  | true, true => m

end PrivLvl

/-- `status_t`. -/
structure Status where
  tsr : Bool
  tw : Bool
  tvm : Bool
  mxr : Bool
  sum : Bool
  mprv : Bool
  fs : BitVec 2
  mpp : PrivLvl
  spp : Bool
  mpie : Bool
  spie : Bool
  mie : Bool
  sie : Bool
  deriving DecidableEq, Repr

/-- The interrupts. -/
inductive Irq
  | softwareS
  | softwareM
  | timerS
  | timerM
  | externalS
  | externalM
  deriving DecidableEq, Repr

namespace Irq

/-- The position in `mie`, `mip` and `mideleg`, and the code in `mcause`. -/
def bit : Irq → ℕ
  | softwareS => 1
  | softwareM => 3
  | timerS => 5
  | timerM => 7
  | externalS => 9
  | externalM => 11

/-- `EXC_CAUSE_IRQ_*`. -/
def cause (i : Irq) : BitVec 5 := BitVec.ofNat 5 (16 + i.bit)

/-- The interrupts of supervisor mode. -/
def isS : Irq → Bool
  | softwareS | timerS | externalS => true
  | softwareM | timerM | externalM => false

/-- The order in which the source looks at pending interrupts. -/
def chain : List Irq := [externalM, softwareM, timerM, externalS, softwareS, timerS]

theorem mem_chain (x : Irq) : x ∈ chain := by
  cases x <;> decide

end Irq

/-- `irqs_t`: one bit for each interrupt. -/
abbrev Irqs := Irq → Bool

/-- `csr_num_e`; the counters and events from 3 on are numbered from 0. -/
inductive Csr
  | fflags
  | frm
  | fcsr
  | cycle
  | instret
  | hpmcounter (i : Fin 29)
  | sstatus
  | sie
  | stvec
  | scounteren
  | sscratch
  | sepc
  | scause
  | stval
  | sip
  | satp
  | mvendorid
  | marchid
  | mimpid
  | mhartid
  | mstatus
  | misa
  | medeleg
  | mideleg
  | mie
  | mtvec
  | mcounteren
  | mscratch
  | mepc
  | mcause
  | mtval
  | mip
  | mcycle
  | minstret
  | mhpmcounter (i : Fin 29)
  | mhpmevent (i : Fin 29)
  | mcountinhibit
  | other (addr : BitVec 12)
  deriving DecidableEq, Repr

namespace Csr

def addr : Csr → BitVec 12
  | fflags => 0x001
  | frm => 0x002
  | fcsr => 0x003
  | cycle => 0xC00
  | instret => 0xC02
  | hpmcounter i => 0xC03 + BitVec.ofNat 12 i
  | sstatus => 0x100
  | sie => 0x104
  | stvec => 0x105
  | scounteren => 0x106
  | sscratch => 0x140
  | sepc => 0x141
  | scause => 0x142
  | stval => 0x143
  | sip => 0x144
  | satp => 0x180
  | mvendorid => 0xF11
  | marchid => 0xF12
  | mimpid => 0xF13
  | mhartid => 0xF14
  | mstatus => 0x300
  | misa => 0x301
  | medeleg => 0x302
  | mideleg => 0x303
  | mie => 0x304
  | mtvec => 0x305
  | mcounteren => 0x306
  | mscratch => 0x340
  | mepc => 0x341
  | mcause => 0x342
  | mtval => 0x343
  | mip => 0x344
  | mcycle => 0xB00
  | minstret => 0xB02
  | mhpmcounter i => 0xB03 + BitVec.ofNat 12 i
  | mhpmevent i => 0x323 + BitVec.ofNat 12 i
  | mcountinhibit => 0x320
  | other a => a

/-- `csr_addr_i[4:0]`. -/
def index (c : Csr) : Fin 32 := (c.addr.extractLsb' 0 5).toFin

/-- The address is one of read-only registers. -/
def isReadOnly (c : Csr) : Bool := c.addr.extractLsb' 10 2 == 3

/-- The lowest level that may access the address. -/
def level (c : Csr) : BitVec 2 := c.addr.extractLsb' 8 2

end Csr

/-- The parameters, with the bounds that the source states for them. -/
structure CsrParams where
  rv64d : Bool
  rv64f : Bool
  asidLen : ℕ
  physAddrLen : ℕ
  virtAddrLen : ℕ
  mhpmCounterNum : ℕ
  asidLen_le : asidLen ≤ 16
  physAddrLen_le : physAddrLen ≤ 56
  mhpmCounterNum_le : mhpmCounterNum ≤ 29

/-! The configurations have the longest address space identifiers and physical addresses. -/

theorem CsrParams.asidLen_max : 16 ≤ 16 := le_rfl

theorem CsrParams.physAddrLen_max : 56 ≤ 56 := le_rfl

theorem CsrParams.noCounters_le : 0 ≤ 29 := Nat.zero_le 29

/-- `LogicSextAddrLen`. -/
def CsrParams.logicSextAddrLen (p : CsrParams) : ℕ :=
  if p.virtAddrLen ≤ p.physAddrLen then p.physAddrLen + 1 else p.virtAddrLen

/-- The registers. -/
structure CsRegisters (p : CsrParams) where
  privLvlQ : PrivLvl
  mstatusQ : Status
  satpModeQ : Bool
  satpAsidQ : BitVec p.asidLen
  satpPpnQ : BitVec (p.physAddrLen - 12)
  ssipQ : Bool
  stipQ : Bool
  seipQ : Bool
  mieQ : Irqs
  midelegQ : Irqs
  medelegQ : BitVec 16
  mscratchQ : BitVec 64
  mepcQ : BitVec 64
  mcauseQ : BitVec 5
  mtvecQ : BitVec p.logicSextAddrLen
  mtvalQ : BitVec 64
  sscratchQ : BitVec 64
  sepcQ : BitVec 64
  scauseQ : BitVec 5
  stvecQ : BitVec p.logicSextAddrLen
  stvalQ : BitVec 64
  fflagsQ : BitVec 5
  frmQ : BitVec 3
  mcounterenQ : BitVec 3
  scounterenQ : BitVec 3
  mhpmeventQ : Fin 32 → BitVec 4
  mcountinhibitQ : BitVec 32
  mcounterQ : Fin 32 → BitVec 64

/-- The inputs of one cycle, the check port apart. -/
structure CsRegistersIn where
  hartId : BitVec 64
  csrAddr : Csr
  csrWdata : BitVec 64
  csrOp : CsrOp
  csrOpEn : Bool
  irqSoftwareM : Bool
  irqTimerM : Bool
  irqExternalM : Bool
  irqExternalS : Bool
  exValid : Bool
  exCause : BitVec 5
  exTval : BitVec 64
  exEpc : BitVec 64
  erValid : Bool
  erPrv : PrivLvl
  makeFsDirty : Bool
  setFflags : BitVec 5
  instrRet : Bool
  hpmEvent : BitVec 10
  deriving DecidableEq, Repr

namespace CsRegisters
variable {p : CsrParams}

/-- The registers after reset. -/
def reset (p : CsrParams) : CsRegisters p where
  privLvlQ := .m
  mstatusQ := ⟨false, false, false, false, false, false, 0, .u, false, false, false, false, false⟩
  satpModeQ := false
  satpAsidQ := 0
  satpPpnQ := 0
  ssipQ := false
  stipQ := false
  seipQ := false
  mieQ := fun _ => false
  midelegQ := fun _ => false
  medelegQ := 0
  mscratchQ := 0
  mepcQ := 0
  mcauseQ := 0
  mtvecQ := 0
  mtvalQ := 0
  sscratchQ := 0
  sepcQ := 0
  scauseQ := 0
  stvecQ := 0
  stvalQ := 0
  fflagsQ := 0
  frmQ := 0
  mcounterenQ := 0
  scounterenQ := 0
  mhpmeventQ := fun _ => 0
  mcountinhibitQ := 0
  mcounterQ := fun _ => 0

/-! ## Exports -/

/-- `priv_mode_lsu_o`. -/
def privModeLsu (s : CsRegisters p) : PrivLvl :=
  if s.mstatusQ.mprv then s.mstatusQ.mpp else s.privLvlQ

/-- `satp_o`. -/
def satp (s : CsRegisters p) : BitVec 64 :=
  BitVec.ofBool s.satpModeQ ++ 0#3 ++ s.satpAsidQ.setWidth 16 ++ s.satpPpnQ.setWidth 44

/-! ## Interrupts -/

/-- `mip`. -/
def mip (s : CsRegisters p) (i : CsRegistersIn) : Irqs
  | .softwareS => s.ssipQ
  | .softwareM => i.irqSoftwareM
  | .timerS => s.stipQ
  | .timerM => i.irqTimerM
  | .externalS => i.irqExternalS || s.seipQ
  | .externalM => i.irqExternalM

/-- `is_delegated`. -/
def isDelegated (s : CsRegisters p) (cause : BitVec 5) : Bool :=
  if cause = Irq.softwareS.cause then s.midelegQ .softwareS
  else if cause = Irq.timerS.cause then s.midelegQ .timerS
  else if cause = Irq.externalS.cause then s.midelegQ .externalS
  else if cause.toNat ∈ [1, 2, 3, 4, 5, 6, 7, 8, 9, 12, 13, 15] then
    s.medelegQ.getLsbD cause.toNat
  else false

/-- `irq_pending`: available and enabled. -/
def irqPending (s : CsRegisters p) (i : CsRegistersIn) (x : Irq) : Bool := s.mip i x && s.mieQ x

/-- `irq_valid_m`. -/
def irqValidM (s : CsRegisters p) (i : CsRegistersIn) (x : Irq) : Bool :=
  if s.privLvlQ ≠ .m ∨ s.mstatusQ.mie then s.irqPending i x && !s.midelegQ x else false

/-- `irq_valid_s`. -/
def irqValidS (s : CsRegisters p) (i : CsRegistersIn) (x : Irq) : Bool :=
  if s.privLvlQ = .u ∨ (s.privLvlQ = .s ∧ s.mstatusQ.sie) then s.irqPending i x && s.midelegQ x
  else false

/-- `irq_valid_o`. -/
def irqValid (s : CsRegisters p) (i : CsRegistersIn) : Bool :=
  Irq.chain.any fun x => s.irqValidM i x || s.irqValidS i x

/-- `irq_cause_o`: the first pending interrupt. -/
def irqCause (s : CsRegisters p) (i : CsRegistersIn) : Option Irq :=
  Irq.chain.find? (s.irqPending i)

/-! ## The check port -/

/-- The counter that a user address shows may be read at the current level. -/
def counterEnabled (s : CsRegisters p) (k : Fin 32) : Bool :=
  (s.privLvlQ == .m || s.privLvlQ == .h || s.mcounterenQ.getLsbD k) &&
    (s.privLvlQ != .u || s.scounterenQ.getLsbD k)

/-- `illegal`: the register does not exist or is switched off. -/
def unavailable (s : CsRegisters p) (c : Csr) : Bool :=
  match c with
  | .fflags | .frm | .fcsr => !p.rv64f || s.mstatusQ.fs == 0
  | .cycle | .instret | .hpmcounter _ => !s.counterEnabled c.index
  | .satp => s.privLvlQ != .m && s.mstatusQ.tvm
  | .other _ => true
  | _ => false

/-- `check_illegal_o`. -/
def checkIllegal (s : CsRegisters p) (c : Csr) (op : CsrOp) : Bool :=
  s.unavailable c || (c.isReadOnly && op != .read) || decide (s.privLvlQ.toBits < c.level)

/-! ## The read port -/

/-- `MISA_VALUE`. -/
def misaValue (p : CsrParams) : BitVec 64 :=
  place [(0, true), (2, true), (3, p.rv64d), (5, p.rv64f), (8, true), (12, true), (18, true),
    (20, true), (63, true)]

/-- The fields of `mstatus` that `sstatus` shows as well. -/
def statusFields (t : Status) : List (ℕ × Bool) :=
  [(1, t.sie), (5, t.spie), (8, t.spp), (13, t.fs.getLsbD 0), (14, t.fs.getLsbD 1), (18, t.sum),
    (19, t.mxr), (33, true), (63, t.fs == 3)]

/-- The fields of `mstatus` that `sstatus` hides. -/
def machineFields (t : Status) : List (ℕ × Bool) :=
  [(3, t.mie), (7, t.mpie), (11, t.mpp.toBits.getLsbD 0), (12, t.mpp.toBits.getLsbD 1),
    (17, t.mprv), (20, t.tvm), (21, t.tw), (22, t.tsr), (35, true)]

/-- A register with one bit for each interrupt of `l`. -/
def placeIrqs (l : List Irq) (f : Irqs) : BitVec 64 := place (l.map fun x => (x.bit, f x))

def Irq.sChain : List Irq := [.softwareS, .timerS, .externalS]

/-- A cause register. -/
def causeValue (cause : BitVec 5) : BitVec 64 :=
  BitVec.ofBool (cause.getLsbD 4) ++ 0#59 ++ cause.extractLsb' 0 4

/-- `csr_rdata_int`: what takes part in a modify operation. -/
def rdataInt (s : CsRegisters p) (i : CsRegistersIn) (c : Csr) : BitVec 64 :=
  match c with
  | .fflags => if p.rv64f then s.fflagsQ.setWidth 64 else 0
  | .frm => if p.rv64f then s.frmQ.setWidth 64 else 0
  | .fcsr => if p.rv64f then (s.frmQ ++ s.fflagsQ).setWidth 64 else 0
  | .cycle | .instret | .hpmcounter _ => s.mcounterQ c.index
  | .sstatus => place (statusFields s.mstatusQ)
  | .sie => placeIrqs Irq.sChain fun x => s.midelegQ x && s.mieQ x
  | .stvec => s.stvecQ.signExtend 64
  | .scounteren => s.scounterenQ.setWidth 64
  | .sscratch => s.sscratchQ
  | .sepc => s.sepcQ
  | .scause => causeValue s.scauseQ
  | .stval => s.stvalQ
  | .sip => placeIrqs Irq.sChain fun x => s.midelegQ x && writable x
  | .satp => s.satp
  | .mvendorid | .marchid | .mimpid => 0
  | .mhartid => i.hartId
  | .mstatus => place (statusFields s.mstatusQ ++ machineFields s.mstatusQ)
  | .misa => misaValue p
  | .medeleg => s.medelegQ.setWidth 64
  | .mideleg => placeIrqs Irq.sChain s.midelegQ
  | .mie => placeIrqs Irq.chain s.mieQ
  | .mtvec => s.mtvecQ.signExtend 64
  | .mcounteren => s.mcounterenQ.setWidth 64
  | .mscratch => s.mscratchQ
  | .mepc => s.mepcQ
  | .mcause => causeValue s.mcauseQ
  | .mtval => s.mtvalQ
  | .mip => placeIrqs Irq.chain writable
  | .mcycle | .minstret | .mhpmcounter _ => s.mcounterQ c.index
  | .mhpmevent _ => (s.mhpmeventQ c.index).setWidth 64
  | .mcountinhibit => 0
  | .other _ => 0
where
  -- the external line does not take part
  writable (x : Irq) : Bool := if x = .externalS then s.seipQ else s.mip i x

/-- `csr_rdata_o`. -/
def rdata (s : CsRegisters p) (i : CsRegistersIn) (c : Csr) : BitVec 64 :=
  match c with
  | .sip => placeIrqs Irq.sChain fun x => s.midelegQ x && s.mip i x
  | .mip => placeIrqs Irq.chain (s.mip i)
  | c => s.rdataInt i c

/-! ## Writes -/

/-- `csr_wdata_int`. -/
def wdataInt (s : CsRegisters p) (i : CsRegistersIn) : BitVec 64 :=
  match i.csrOp with
  | .write => i.csrWdata
  | .set => i.csrWdata ||| s.rdataInt i i.csrAddr
  | .clear => ~~~i.csrWdata &&& s.rdataInt i i.csrAddr
  | .read => 0

/-- A trap vector: word aligned. -/
def tvec (p : CsrParams) (x : BitVec 64) : BitVec p.logicSextAddrLen :=
  x.setWidth p.logicSextAddrLen &&& ~~~3

/-- A cause as it is written. -/
def causeOf (x : BitVec 64) : BitVec 5 := BitVec.ofBool (x.getLsbD 63) ++ x.extractLsb' 0 4

/-- The bits of `medeleg` that can be written. -/
def medelegMask : BitVec 16 := maskOf [0, 1, 2, 3, 4, 5, 6, 7, 8, 9, 12, 13, 15]

/-- The counters that `mcountinhibit` can stop. -/
def inhibitMask (p : CsrParams) : BitVec 32 :=
  maskOf (0 :: 2 :: (List.range p.mhpmCounterNum).map (3 + ·))

/-- The part of `mstatus` that a write to `sstatus` changes. -/
def writeSstatus (t : Status) (x : BitVec 64) : Status :=
  { t with
    sie := x.getLsbD 1
    spie := x.getLsbD 5
    spp := x.getLsbD 8
    fs := x.extractLsb' 13 2
    sum := x.getLsbD 18
    mxr := x.getLsbD 19 }

/-- A write to `mstatus`; the reserved level becomes M. -/
def writeMstatus (t : Status) (x : BitVec 64) : Status :=
  { writeSstatus t x with
    mie := x.getLsbD 3
    mpie := x.getLsbD 7
    mpp :=
      if PrivLvl.ofBits (x.getLsbD 12) (x.getLsbD 11) = .h then .m
      else PrivLvl.ofBits (x.getLsbD 12) (x.getLsbD 11)
    mprv := x.getLsbD 17
    tvm := x.getLsbD 20
    tw := x.getLsbD 21
    tsr := x.getLsbD 22 }

/-- The interrupts of `l`, as written. -/
def writeIrqs (l : List Irq) (f : Irqs) (x : BitVec 64) : Irqs :=
  fun k => if k ∈ l then x.getLsbD k.bit else f k

/-- A floating-point register is written: `FS` becomes dirty. -/
def dirtyFs (t : Status) : Status := { t with fs := 3 }

/-- A write of `x` to `c`, the counters apart. -/
def write (s : CsRegisters p) (c : Csr) (x : BitVec 64) : CsRegisters p :=
  match c with
  | .fflags =>
    if p.rv64f then { s with fflagsQ := x.setWidth 5, mstatusQ := dirtyFs s.mstatusQ } else s
  | .frm => if p.rv64f then { s with frmQ := x.setWidth 3, mstatusQ := dirtyFs s.mstatusQ } else s
  | .fcsr =>
    if p.rv64f then
      { s with
        fflagsQ := x.setWidth 5, frmQ := x.extractLsb' 5 3, mstatusQ := dirtyFs s.mstatusQ }
    else s
  | .sstatus => { s with mstatusQ := writeSstatus s.mstatusQ x }
  | .sie => { s with mieQ := writeIrqs (Irq.sChain.filter s.midelegQ) s.mieQ x }
  | .stvec => { s with stvecQ := tvec p x }
  | .scounteren => { s with scounterenQ := x.setWidth 3 &&& 5 }
  | .sscratch => { s with sscratchQ := x }
  | .sepc => { s with sepcQ := x &&& ~~~1 }
  | .scause => { s with scauseQ := causeOf x }
  | .stval => { s with stvalQ := x }
  | .sip => if s.midelegQ .softwareS then { s with ssipQ := x.getLsbD 1 } else s
  | .satp =>
    -- a write with a mode that is not supported is ignored as a whole
    if x.extractLsb' 60 4 = 0 ∨ x.extractLsb' 60 4 = 8 then
      { s with
        satpModeQ := x.getLsbD 63
        satpAsidQ := x.extractLsb' 44 p.asidLen
        satpPpnQ := x.extractLsb' 0 (p.physAddrLen - 12) }
    else s
  | .mstatus => { s with mstatusQ := writeMstatus s.mstatusQ x }
  | .medeleg =>
    { s with medelegQ := (s.medelegQ &&& ~~~medelegMask) ||| (x.setWidth 16 &&& medelegMask) }
  | .mideleg => { s with midelegQ := writeIrqs Irq.sChain s.midelegQ x }
  | .mie => { s with mieQ := writeIrqs Irq.chain s.mieQ x }
  | .mtvec => { s with mtvecQ := tvec p x }
  | .mcounteren => { s with mcounterenQ := x.setWidth 3 &&& 5 }
  | .mscratch => { s with mscratchQ := x }
  | .mepc => { s with mepcQ := x &&& ~~~1 }
  | .mcause => { s with mcauseQ := causeOf x }
  | .mtval => { s with mtvalQ := x }
  | .mip =>
    { s with
      ssipQ := x.getLsbD Irq.softwareS.bit
      stipQ := x.getLsbD Irq.timerS.bit
      seipQ := x.getLsbD Irq.externalS.bit }
  | .mhpmevent _ =>
    -- the bound is computed in five bits
    if c.index.val < (p.mhpmCounterNum + 3) % 2 ^ 5 then
      { s with mhpmeventQ := Function.update s.mhpmeventQ c.index (x.setWidth 4) }
    else s
  | .mcountinhibit => { s with mcountinhibitQ := x.setWidth 32 &&& inhibitMask p }
  | .cycle | .instret | .hpmcounter _ | .mvendorid | .marchid | .mimpid | .mhartid | .misa
  | .mcycle | .minstret | .mhpmcounter _ | .other _ => s

/-! ## Traps and returns -/

/-- The trap goes to supervisor mode. -/
def delegates (s : CsRegisters p) (i : CsRegistersIn) : Bool :=
  s.privLvlQ != .m && s.isDelegated i.exCause

/-- `ex_tvec_o`. -/
def exTvec (s : CsRegisters p) (i : CsRegistersIn) : BitVec 64 :=
  if s.delegates i then s.stvecQ.signExtend 64 else s.mtvecQ.signExtend 64

/-- `er_epc_o`. -/
def erEpc (s : CsRegisters p) (i : CsRegistersIn) : BitVec 64 :=
  if i.erPrv ≠ .m then s.sepcQ else s.mepcQ

/-- Trap entry. -/
def trap (s : CsRegisters p) (i : CsRegistersIn) : CsRegisters p :=
  if s.delegates i then
    { s with
      scauseQ := i.exCause
      stvalQ := i.exTval
      sepcQ := i.exEpc
      privLvlQ := .s
      mstatusQ :=
        { s.mstatusQ with
          sie := false, spie := s.mstatusQ.sie, spp := s.privLvlQ.toBits.getLsbD 0 } }
  else
    { s with
      mcauseQ := i.exCause
      mtvalQ := i.exTval
      mepcQ := i.exEpc
      privLvlQ := .m
      mstatusQ :=
        { s.mstatusQ with mie := false, mpie := s.mstatusQ.mie, mpp := s.privLvlQ } }

/-- `MRET` and `SRET`. -/
def eret (s : CsRegisters p) (i : CsRegistersIn) : CsRegisters p :=
  if i.erPrv ≠ .m then
    { s with
      privLvlQ := if s.mstatusQ.spp then .s else .u
      mstatusQ := { s.mstatusQ with spie := true, sie := s.mstatusQ.spie, spp := false } }
  else
    { s with
      privLvlQ := s.mstatusQ.mpp
      mstatusQ :=
        { s.mstatusQ with
          mpie := true
          mie := s.mstatusQ.mpie
          mpp := .u
          -- MPRV is cleared when M-mode is left
          mprv := if s.mstatusQ.mpp ≠ .m then false else s.mstatusQ.mprv } }

/-- Floating-point instructions make `FS` dirty and accumulate flags. -/
def accumulate (s : CsRegisters p) (i : CsRegistersIn) : CsRegisters p :=
  if p.rv64f then
    { s with
      fflagsQ := s.fflagsQ ||| i.setFflags
      mstatusQ :=
        if i.makeFsDirty || i.setFflags != 0 then dirtyFs s.mstatusQ else s.mstatusQ }
  else s

/-! ## Performance counters -/

/-- `mcounter_we`. -/
def mcounterWe (i : CsRegistersIn) : Bool :=
  !i.exValid && !i.erValid && i.csrOpEn && i.csrOp != .read &&
    match i.csrAddr with
    | .mcycle | .minstret | .mhpmcounter _ => true
    | _ => false

/-- `counter_increment`. -/
def counterIncrement (s : CsRegisters p) (i : CsRegistersIn) (k : Fin 32) : Bool :=
  if k = 0 then !s.mcountinhibitQ.getLsbD 0
  else if k = 2 then !s.mcountinhibitQ.getLsbD 2 && i.instrRet
  else if 3 ≤ k.val ∧ k.val < p.mhpmCounterNum + 3 then
    !s.mcountinhibitQ.getLsbD k && i.hpmEvent.getLsbD (s.mhpmeventQ k).toNat
  else false

/-- The counters after a cycle; those that are not implemented keep their value. -/
def nextMcounterQ (s : CsRegisters p) (i : CsRegistersIn) (k : Fin 32) : BitVec 64 :=
  if k.val ≤ p.mhpmCounterNum + 2 then
    if mcounterWe i && k == i.csrAddr.index then s.wdataInt i
    else if s.counterIncrement i k then s.mcounterQ k + 1
    else s.mcounterQ k
  else s.mcounterQ k

/-- One cycle.  A trap goes before a return, a return before a CSR operation. -/
def next (s : CsRegisters p) (i : CsRegistersIn) : CsRegisters p :=
  { control with mcounterQ := s.nextMcounterQ i }
where
  control : CsRegisters p :=
    if i.exValid then (s.accumulate i).trap i
    else if i.erValid then (s.accumulate i).eret i
    else if i.csrOpEn && i.csrOp != .read then (s.accumulate i).write i.csrAddr (s.wdataInt i)
    else s.accumulate i

end CsRegisters

end Muntjac.Pipeline

import Muntjac.Pipeline.Alu
import Muntjac.Sync.Run

/-!
# The backend of the pipeline

`muntjac_backend`: instructions wait in the decode register, are issued in order into
EX1 and move on to EX2, where they write their result.  Loads and stores, products,
quotients and floating-point operations are answered by their units after any number of
cycles; a stage waits for its unit through its `select` register, which becomes `alu` once
the result has been captured.

The control and status registers, the units and the data cache are inputs.  Tracing and
the training of the branch predictor are left out.
-/

namespace Muntjac.Pipeline

open Muntjac.Core

/-- `rv64f_e`. -/
inductive Rv64f
  | none
  | mem
  | full
  deriving DecidableEq, Repr

structure BackendParams where
  physAddrLen : ℕ
  virtAddrLen : ℕ
  rv64f : Rv64f
  deriving DecidableEq, Repr

/-- `LogicSextAddrLen`. -/
def BackendParams.logicSextAddrLen (p : BackendParams) : ℕ :=
  if p.virtAddrLen ≤ p.physAddrLen then p.physAddrLen + 1 else p.virtAddrLen

inductive ExState
  | normal
  | mispredict
  | flush
  | int
  | sys
  deriving DecidableEq, Repr

inductive SysState
  | idle
  | op
  | satpChanged
  | sfenceVma
  | wfi
  deriving DecidableEq, Repr

inductive FuncUnit
  | alu
  | mem
  | mul
  | div
  | fpu
  deriving DecidableEq, Repr

/-- The unit that executes an instruction. -/
def OpType.unit : OpType → FuncUnit
  | .mem => .mem
  | .mul => .mul
  | .div => .div
  | .fp => .fpu
  | .alu | .jump | .branch | .system => .alu

/-- The registers of EX1 or EX2. -/
structure ExStage (p : BackendParams) where
  pending : Bool
  select : FuncUnit
  aluData : BitVec 64
  aluFflags : BitVec 5
  pc : BitVec p.logicSextAddrLen
  useFrd : Bool
  rd : BitVec 5
  deriving DecidableEq, Repr

/-- The registers of the backend. -/
structure Backend (p : BackendParams) where
  deExValid : Bool
  deExDecoded : DecodedInstr
  exStateQ : ExState
  sysStateQ : SysState
  eretPcQ : BitVec 64
  exExpectedPcQ : BitVec 64
  ex1 : ExStage p
  ex2 : ExStage p
  ex2SquashedQ : Bool
  excTvecQ : BitVec 64
  registers : BitVec 5 → BitVec 64
  fpRegisters : BitVec 5 → BitVec 64

/-- An answer of a unit. -/
structure UnitResp where
  data : BitVec 64
  fflags : BitVec 5
  deriving DecidableEq, Repr

/-- The inputs of one cycle: the decoder, the units and the data cache, and what the
control and status registers show. -/
structure BackendIn where
  fetch : Option DecodedInstr
  intCause : Option (BitVec 5)
  memReady : Bool
  mulReady : Bool
  divReady : Bool
  fpuReady : Bool
  memResp : Option (BitVec 64)
  memTrap : Option (BitVec 5 × BitVec 64)
  mulResp : Option (BitVec 64)
  divResp : Option (BitVec 64)
  fpuResp : Option UnitResp
  memNotifReady : Bool
  wfiValid : Bool
  csrRead : BitVec 64
  erEpc : BitVec 64
  excTvec : BitVec 64
  deriving DecidableEq, Repr

namespace Backend
variable {p : BackendParams}

/-! ## The units -/

/-- The answer of a unit in this cycle; without a full floating-point unit there is none. -/
def unitResp (p : BackendParams) (i : BackendIn) : FuncUnit → Option UnitResp
  | .alu => none
  | .mem => i.memResp.map fun x => ⟨x, 0⟩
  | .mul => i.mulResp.map fun x => ⟨x, 0⟩
  | .div => i.divResp.map fun x => ⟨x, 0⟩
  | .fpu => if p.rv64f = .full then i.fpuResp else none

/-- `unit_ready`. -/
def unitReady (s : Backend p) (i : BackendIn) : Bool :=
  match s.deExDecoded.opType with
  | .mem => i.memReady
  | .mul => i.mulReady
  | .div => i.divReady
  | .fp => if p.rv64f = .full then i.fpuReady else true
  | .alu | .jump | .branch | .system => true

/-- `mem_trap_valid`. -/
def memTrapValid (i : BackendIn) : Bool := i.memTrap.isSome

/-! ## Results of the stages -/

/-- `ex1_data_valid`, `ex1_data`, `ex1_fflags`: if EX2 waits for the same unit, the answer
is for EX2. -/
def ex1Data (s : Backend p) (i : BackendIn) : Option UnitResp :=
  if s.ex1.select = .alu then some ⟨s.ex1.aluData, s.ex1.aluFflags⟩
  else if s.ex2.select = s.ex1.select then none
  else unitResp p i s.ex1.select

/-- `ex2_data_valid`, `ex2_data`, `ex2_fflags`. -/
def ex2Data (s : Backend p) (i : BackendIn) : Option UnitResp :=
  if s.ex2.select = .alu then some ⟨s.ex2.aluData, s.ex2.aluFflags⟩
  else unitResp p i s.ex2.select

def ex2Ready (s : Backend p) (i : BackendIn) : Bool := !s.ex2.pending || (s.ex2Data i).isSome

def ex1Ready (s : Backend p) (i : BackendIn) : Bool := s.ex2Ready i || !s.ex1.pending

/-! ## Bypass and hazards -/

/-- A stage will write the integer register `r`, which the instruction reads. -/
def writesInt (e : ExStage p) (useF : Bool) (r : BitVec 5) : Bool :=
  e.pending && !useF && !e.useFrd && e.rd == r && r != 0

/-- A stage will write the floating-point register `r`, which the instruction reads. -/
def writesFp (e : ExStage p) (useF : Bool) (r : BitVec 5) : Bool :=
  e.pending && useF && e.useFrd && e.rd == r

/-- The operand and whether it has to be waited for; EX1 is younger than EX2. -/
def bypass (s : Backend p) (i : BackendIn) (writes : ExStage p → Bool) (x : BitVec 64) :
    BitVec 64 × Bool :=
  ((((s.ex1Data i).filter fun _ => writes s.ex1).or
      ((s.ex2Data i).filter fun _ => writes s.ex2)).map UnitResp.data |>.getD x,
    (writes s.ex2 && (s.ex2Data i).isNone) || (writes s.ex1 && (s.ex1Data i).isNone))

/-- `de_ex_rs1`, `de_ex_rs2`. -/
def readReg (s : Backend p) (r : BitVec 5) : BitVec 64 := if r = 0 then 0 else s.registers r

/-- `de_ex_frs1`, `de_ex_frs2`, `de_ex_frs3`: reads that are not implemented give ones. -/
def readFpReg (s : Backend p) (implemented : Bool) (r : BitVec 5) : BitVec 64 :=
  if implemented then s.fpRegisters r else BitVec.allOnes 64

def exRs1 (s : Backend p) (i : BackendIn) : BitVec 64 × Bool :=
  s.bypass i (fun e => writesInt e s.deExDecoded.useFrs1 s.deExDecoded.rs1)
    (s.readReg s.deExDecoded.rs1)

def exRs2 (s : Backend p) (i : BackendIn) : BitVec 64 × Bool :=
  s.bypass i (fun e => writesInt e s.deExDecoded.useFrs2 s.deExDecoded.rs2)
    (s.readReg s.deExDecoded.rs2)

/-- The floating-point bypasses, where the configuration has them. -/
def exFrs (s : Backend p) (i : BackendIn) (implemented useF : Bool) (r : BitVec 5) :
    BitVec 64 × Bool :=
  if implemented then s.bypass i (fun e => writesFp e useF r) (s.readFpReg implemented r)
  else (BitVec.allOnes 64, false)

def exFrs1 (s : Backend p) (i : BackendIn) : BitVec 64 × Bool :=
  s.exFrs i (p.rv64f == .full) s.deExDecoded.useFrs1 s.deExDecoded.rs1

def exFrs2 (s : Backend p) (i : BackendIn) : BitVec 64 × Bool :=
  s.exFrs i (p.rv64f != .none) s.deExDecoded.useFrs2 s.deExDecoded.rs2

def exFrs3 (s : Backend p) (i : BackendIn) : BitVec 64 × Bool :=
  s.exFrs i (p.rv64f == .full) s.deExDecoded.useFrs3 s.deExDecoded.rs3

def dataHazard (s : Backend p) (i : BackendIn) : Bool :=
  (s.exRs1 i).2 || (s.exRs2 i).2 || (s.exFrs1 i).2 || (s.exFrs2 i).2 || (s.exFrs3 i).2

def structHazard (s : Backend p) (i : BackendIn) : Bool :=
  s.deExDecoded.opType == .system || !s.ex1Ready i || s.deExDecoded.exValid

/-! ## The control state machine -/

def csrSatp : BitVec 12 := 0x180
def csrMstatus : BitVec 12 := 0x300
def csrSstatus : BitVec 12 := 0x100

/-- The instruction writes the control register `c`. -/
def writesCsr (d : DecodedInstr) (c : BitVec 12) : Bool := d.csrOp != .read && d.csrSelect == c

/-- `npc`. -/
def npc (s : Backend p) : BitVec 64 :=
  (s.deExDecoded.pc.setWidth (p.logicSextAddrLen + 1) +
    (if s.deExDecoded.compressed then 2 else 4)).signExtend 64

/-- `sys_ready`. -/
def sysReady (s : Backend p) (i : BackendIn) : Bool :=
  match s.sysStateQ with
  | .idle => false
  | .op => true
  | .satpChanged | .sfenceVma => i.memNotifReady
  | .wfi => i.wfiValid

/-- `sys_pc_redirect_valid` with its reason and target. -/
def sysPcRedirect (s : Backend p) (i : BackendIn) : Option (IfReason × BitVec 64) :=
  match s.sysStateQ with
  | .idle | .wfi => none
  | .op =>
      match s.deExDecoded.sysOp with
      | .csr =>
          if writesCsr s.deExDecoded csrMstatus || writesCsr s.deExDecoded csrSstatus then
            some (.protChanged, s.npc)
          else none
      | .eret => some (.protChanged, s.eretPcQ)
      | .fenceI => some (.fenceI, s.npc)
      | .sfenceVma | .wfi => none
  | .satpChanged => if i.memNotifReady then some (.satpChanged, s.npc) else none
  | .sfenceVma => if i.memNotifReady then some (.sfenceVma, s.npc) else none

/-! ## Issue -/

def controlHazard (s : Backend p) (i : BackendIn) : Bool :=
  match s.exStateQ with
  | .normal => s.exExpectedPcQ != s.deExDecoded.pc || memTrapValid i
  | .mispredict => s.deExDecoded.ifReason != .mispredict || memTrapValid i
  | .flush => !s.deExDecoded.ifReason.isFlush
  | .int => true
  | .sys => s.sysReady i

/-- `ex_issue_provisional`. -/
def exIssueProvisional (s : Backend p) (i : BackendIn) : Bool :=
  s.deExValid && !s.dataHazard i && !s.structHazard i && !s.controlHazard i

/-- `ex_issue`. -/
def exIssue (s : Backend p) (i : BackendIn) : Bool := s.exIssueProvisional i && s.unitReady i

/-- `de_ex_ready`. -/
def deExReady (s : Backend p) (i : BackendIn) : Bool :=
  (!s.dataHazard i && !s.structHazard i && s.unitReady i) || s.controlHazard i

/-- An exception or a SYSTEM instruction is taken up once the pipeline has drained. -/
def drained (s : Backend p) (i : BackendIn) : Bool :=
  (s.exStateQ == .normal || s.exStateQ == .mispredict || s.exStateQ == .flush) &&
    s.deExValid && !s.controlHazard i && !s.ex1.pending && !s.ex2.pending

def exceptionIssue (s : Backend p) (i : BackendIn) : Bool := s.drained i && s.deExDecoded.exValid

def sysIssue (s : Backend p) (i : BackendIn) : Bool :=
  s.drained i && !s.deExDecoded.exValid && s.deExDecoded.opType == .system

/-- `ex_state_d` before the SYSTEM instructions and the traps. -/
def caseExState (s : Backend p) (i : BackendIn) : ExState :=
  match s.exStateQ with
  | .normal =>
      if s.deExValid && s.exExpectedPcQ != s.deExDecoded.pc then .mispredict else .normal
  | .mispredict =>
      if s.deExValid && s.deExDecoded.ifReason == .mispredict then .normal else .mispredict
  | .flush => if s.exIssue i then .normal else .flush
  | .int => .flush
  | .sys =>
      if s.sysReady i then (if (s.sysPcRedirect i).isSome then .flush else .normal) else .sys

/-- `ex_state_d`. -/
def nextExStateQ (s : Backend p) (i : BackendIn) : ExState :=
  if memTrapValid i then .int
  else if s.exceptionIssue i then .int
  else if s.sysIssue i then .sys
  else s.caseExState i

def nextSysStateQ (s : Backend p) (i : BackendIn) : SysState :=
  match s.sysStateQ with
  | .idle =>
      if s.sysIssue i then
        match s.deExDecoded.sysOp with
        | .csr => if writesCsr s.deExDecoded csrSatp then .satpChanged else .op
        | .sfenceVma => .sfenceVma
        | .wfi => .wfi
        | .eret | .fenceI => .op
      else .idle
  | .op | .satpChanged | .sfenceVma | .wfi => if s.sysReady i then .idle else s.sysStateQ

/-! ## The decode register -/

/-- The instruction that enters the decode register, with an interrupt injected. -/
def injected (i : BackendIn) (d : DecodedInstr) : DecodedInstr :=
  match i.intCause with
  | some c => if d.exValid then d else { d with exValid := true, cause := c, tval := 0 }
  | none => d

/-- `fetch_ready_o`. -/
def fetchReady (s : Backend p) (i : BackendIn) : Bool := !s.deExValid || s.deExReady i

/-- The instruction that is taken from the decoder in this cycle. -/
def fetched (s : Backend p) (i : BackendIn) : Option DecodedInstr :=
  if s.fetchReady i then i.fetch.map (injected i) else none

def nextDeExValid (s : Backend p) (i : BackendIn) : Bool :=
  (s.fetched i).isSome || (s.deExValid && !s.deExReady i)

/-! ## EX1 -/

/-- The value that the ALU puts into EX1. -/
def aluDataD (s : Backend p) (i : BackendIn) : BitVec 64 :=
  match s.deExDecoded.opType with
  | .alu => (alu s.deExDecoded (s.exRs1 i).1 (s.exRs2 i).1).result
  | .jump | .branch => s.npc
  | .mem | .mul | .div | .fp | .system => 0

/-- EX1 when nothing is issued: a result that cannot move on is captured, without its
flags; a stage that moves on or is cancelled becomes empty. -/
def ex1Rest (s : Backend p) (i : BackendIn) : ExStage p :=
  if s.ex2Ready i || memTrapValid i then
    { s.ex1 with pending := false, select := .alu, useFrd := false, rd := 0, aluData := 0 }
  else
    match s.ex1Data i with
    | some r => { s.ex1 with select := .alu, aluData := r.data }
    | none => s.ex1

def nextEx1 (s : Backend p) (i : BackendIn) : ExStage p :=
  if s.exIssue i then
    { pending := true
      select := s.deExDecoded.opType.unit
      aluData := s.aluDataD i
      aluFflags := 0
      pc := s.deExDecoded.pc.setWidth _
      useFrd := s.deExDecoded.useFrd
      rd := s.deExDecoded.rd }
  else if s.sysIssue i then
    { pending := true
      select := .alu
      aluData := i.csrRead
      aluFflags := 0
      pc := s.deExDecoded.pc.setWidth _
      useFrd := false
      rd := s.deExDecoded.rd }
  else s.ex1Rest i

/-- `ex_expected_pc_d`. -/
def nextExExpectedPcQ (s : Backend p) (i : BackendIn) : BitVec 64 :=
  if s.exIssue i then
    match s.deExDecoded.opType with
    | .jump => target
    | .branch => if out.compareResult then target else s.npc
    | .alu | .mem | .mul | .div | .fp | .system => s.npc
  else if s.sysIssue i then s.npc
  else s.exExpectedPcQ
where
  out : AluOut := alu s.deExDecoded (s.exRs1 i).1 (s.exRs2 i).1
  target : BitVec 64 := out.sum &&& ~~~1

/-! ## EX2 -/

/-- The trap belongs to EX2, and an operation in EX1 has to be waited for. -/
def drains (s : Backend p) (i : BackendIn) : Bool :=
  s.ex2.select == .mem && memTrapValid i && s.ex1.select != .mem && (s.ex1Data i).isNone

/-- The instruction in EX1 moves on to EX2. -/
def progresses (s : Backend p) (i : BackendIn) : Bool :=
  s.ex1.pending && s.ex2Ready i && !memTrapValid i

/-- The instruction in EX2 is committed, or traps. -/
def ex2Leaves (s : Backend p) (i : BackendIn) : Bool :=
  (s.ex2Data i).isSome || (s.ex2.select == .mem && memTrapValid i)

def nextEx2 (s : Backend p) (i : BackendIn) : ExStage p :=
  if s.progresses i then
    match s.ex1Data i with
    | some r => { s.ex1 with select := .alu, aluData := r.data, aluFflags := r.fflags }
    | none => { s.ex1 with aluData := 0, aluFflags := 0 }
  else if s.drains i then
    { s.ex2 with
      pending := true, select := s.ex1.select, useFrd := false, rd := 0, aluData := 0,
      aluFflags := 0 }
  else if s.ex2Leaves i then
    { s.ex2 with
      pending := false, select := .alu, useFrd := false, rd := 0, aluData := 0, aluFflags := 0 }
  else s.ex2

def nextEx2SquashedQ (s : Backend p) (i : BackendIn) : Bool :=
  if s.progresses i then false
  else if s.drains i then true
  else if s.ex2Leaves i then false
  else s.ex2SquashedQ

/-! ## Register files and traps -/

/-- A write to a register file. -/
structure RegWrite where
  useFrd : Bool
  rd : BitVec 5
  data : BitVec 64
  deriving DecidableEq, Repr

/-- The write that EX2 performs in this cycle. -/
def regWrite (s : Backend p) (i : BackendIn) : Option RegWrite :=
  if s.ex2.pending then (s.ex2Data i).map fun r => ⟨s.ex2.useFrd, s.ex2.rd, r.data⟩ else none

/-- The write changes a register: `x0` is not one. -/
def RegWrite.effective (w : RegWrite) : Bool := w.useFrd || w.rd != 0

def nextRegisters (s : Backend p) (i : BackendIn) (r : BitVec 5) : BitVec 64 :=
  match s.regWrite i with
  | some w => if !w.useFrd && w.rd == r then w.data else s.registers r
  | none => s.registers r

def nextFpRegisters (s : Backend p) (i : BackendIn) (r : BitVec 5) : BitVec 64 :=
  match s.regWrite i with
  | some w =>
      if p.rv64f != .none && w.useFrd && w.rd == r then w.data else s.fpRegisters r
  | none => s.fpRegisters r

/-- `ex_epc_i` with the exception, if one is taken. -/
def exception (s : Backend p) (i : BackendIn) : Option (BitVec 5 × BitVec 64 × BitVec 64) :=
  match i.memTrap with
  | some (cause, tval) => some (cause, tval, memEpc)
  | none =>
      if s.exceptionIssue i then
        some (s.deExDecoded.cause, s.deExDecoded.tval, s.deExDecoded.pc)
      else none
where
  memEpc : BitVec 64 := (if s.ex2.select = .mem then s.ex2.pc else s.ex1.pc).signExtend 64

/-- A request to the data cache. -/
structure MemReq where
  op : MemOp
  amo : BitVec 7
  address : BitVec 64
  value : BitVec 64
  size : Fin 4
  sizeExt : SizeExt
  deriving DecidableEq, Repr

/-- The request to the data cache; it is raised without regard to `mem_ready`. -/
def memReq (s : Backend p) (i : BackendIn) : Option MemReq :=
  if s.exIssueProvisional i && s.deExDecoded.opType == .mem then
    some
      { op := s.deExDecoded.memOp
        amo := s.deExDecoded.tval.extractLsb' 25 7
        address := (alu s.deExDecoded (s.exRs1 i).1 (s.exRs2 i).1).sum
        value := if s.deExDecoded.useFrs2 then (s.exFrs2 i).1 else (s.exRs2 i).1
        size := s.deExDecoded.size
        sizeExt := s.deExDecoded.sizeExt }
  else none

/-- `redirect_valid_o` with its reason and target. -/
def redirect (s : Backend p) (i : BackendIn) : Option (IfReason × BitVec 64) :=
  if s.exStateQ = .int then some (.protChanged, s.excTvecQ)
  else (s.sysPcRedirect i).or
    (if s.exStateQ == .normal && s.deExValid && s.exExpectedPcQ != s.deExDecoded.pc then
      some (.mispredict, s.exExpectedPcQ)
    else none)

def step (s : Backend p) (i : BackendIn) : Backend p where
  deExValid := s.nextDeExValid i
  deExDecoded := (s.fetched i).getD s.deExDecoded
  exStateQ := s.nextExStateQ i
  sysStateQ := s.nextSysStateQ i
  eretPcQ := if s.sysIssue i && s.deExDecoded.sysOp == .eret then i.erEpc else 0
  exExpectedPcQ := s.nextExExpectedPcQ i
  ex1 := s.nextEx1 i
  ex2 := s.nextEx2 i
  ex2SquashedQ := s.nextEx2SquashedQ i
  excTvecQ := if (s.exception i).isSome then i.excTvec else s.excTvecQ
  registers := s.nextRegisters i
  fpRegisters := s.nextFpRegisters i

/-- The registers after reset. -/
structure IsReset (s : Backend p) : Prop where
  deExValid : s.deExValid = false
  exStateQ : s.exStateQ = .flush
  sysStateQ : s.sysStateQ = .idle
  exExpectedPcQ : s.exExpectedPcQ = 0
  ex1Pending : s.ex1.pending = false
  ex1Select : s.ex1.select = .alu
  ex1Rd : s.ex1.useFrd = false ∧ s.ex1.rd = 0
  ex2Pending : s.ex2.pending = false
  ex2Select : s.ex2.select = .alu
  ex2Rd : s.ex2.useFrd = false ∧ s.ex2.rd = 0
  ex2SquashedQ : s.ex2SquashedQ = false

end Backend

end Muntjac.Pipeline

import Muntjac.Pipeline.InstrAlign

/-!
# The frontend of the pipeline

`muntjac_frontend` with its instruction buffer: a redirection of the backend is latched
until the instruction cache can take a request, the fetched word goes through the aligner,
and its instructions are handed over one by one.

The outputs of the branch predictor and the answers of the instruction cache are inputs.
The address translation that goes with a request, and the training of the predictor, are
left out.

## Main definitions

* `instrBufferOut`, `instrBufferReady`, `nextInstrBuffer` — `muntjac_instr_buffer`.
* `Frontend.step` — the registers of the frontend.
* `Frontend.fetch` — the instruction that the backend takes.
-/

namespace Muntjac.Pipeline

/-! ## The instruction buffer -/

section InstrBuffer

/-- The first input was fetched because of a redirection: it overtakes the buffer. -/
def overtakes (in0 : Option FetchedInstr) : Bool := in0.any fun x => x.ifReason.marked

variable (buffer in0 in1 : Option FetchedInstr) (outReady : Bool)

/-- The output comes from the buffer. -/
def fromBuffer : Bool := buffer.isSome && !overtakes in0

/-- `out_valid_o` and `out_instr_o`. -/
def instrBufferOut : Option FetchedInstr := if fromBuffer buffer in0 then buffer else in0

/-- `in_ready_o`. -/
def instrBufferReady : Bool :=
  if fromBuffer buffer in0 then outReady && in1.isNone else outReady || in1.isNone

/-- `buffer_valid_d` and `buffer_d`. -/
def nextInstrBuffer : Option FetchedInstr :=
  if fromBuffer buffer in0 then
    if outReady then (if in1.isNone then in0 else none) else buffer
  else if outReady then in1
  else if in1.isNone then in0
  else buffer

end InstrBuffer

/-! ## The frontend -/

/-- `branch_type_e`. -/
inductive BranchType
  | none
  | untaken
  | taken
  | jump
  | call
  | ret
  | yield
  deriving DecidableEq, Repr

/-- `branch_type[2]`. -/
def BranchType.isJump : BranchType → Bool
  | .jump | .call | .ret | .yield => true
  | .none | .untaken | .taken => false

/-- What the branch predictor shows; targets have `l` bits. -/
structure Predictor (l : ℕ) where
  btbValid : Bool
  btbType : BranchType
  btbPartial : Bool
  btbTarget : BitVec l
  bhtTaken : Bool
  rasPeekValid : Bool
  rasPeekAddr : BitVec l
  deriving DecidableEq, Repr

/-- The inputs of one cycle. -/
structure FrontendIn (l : ℕ) where
  redirect : Option (IfReason × BitVec 64)
  predictor : Predictor l
  respValid : Bool
  respInstr : BitVec 32
  respException : Bool
  respExCode : BitVec 5
  fetchReady : Bool
  deriving DecidableEq, Repr

/-- The registers of `muntjac_frontend`. -/
structure Frontend where
  redirectPcQ : BitVec 64
  redirectReasonQ : IfReason
  redirectValidQ : Bool
  pc : BitVec 64
  reason : IfReason
  respLatched : Bool
  respInstrLatched : BitVec 32
  respExceptionLatched : Bool
  respExCodeLatched : BitVec 5
  aligner : Aligner
  buffer : Option FetchedInstr
  deriving DecidableEq, Repr

namespace Frontend
variable {l : ℕ}

/-! ### Prediction -/

/-- No prediction is made if two of these hold: the address is misaligned, the fetch is
caused by a redirection, the prediction is for the first halfword only. -/
def predicts (s : Frontend) (i : FrontendIn l) : Bool :=
  i.predictor.btbValid && !(s.pc.getLsbD 1 && s.reason.marked) &&
    !(s.pc.getLsbD 1 && i.predictor.btbPartial) && !(s.reason.marked && i.predictor.btbPartial)

def predictTaken (s : Frontend) (i : FrontendIn l) : Bool :=
  s.predicts i && (i.predictor.btbType.isJump || i.predictor.bhtTaken)

/-- `ras_pop`. -/
def rasPop (i : FrontendIn l) : Bool :=
  i.predictor.btbValid && (i.predictor.btbType == .ret || i.predictor.btbType == .yield)

def predictTarget (i : FrontendIn l) : BitVec l :=
  if rasPop i && i.predictor.rasPeekValid then i.predictor.rasPeekAddr
  else i.predictor.btbTarget

/-! ### The next request -/

/-- `npc_word`, sign-extended. -/
def npcWord (l : ℕ) (pc : BitVec 64) : BitVec 64 :=
  ((pc &&& ~~~3).setWidth l + 4).signExtend 64

/-- A target: bit 0 is cleared. -/
def evenPc (pc : BitVec 64) : BitVec 64 := pc &&& ~~~1

def pcNext (s : Frontend) (i : FrontendIn l) : BitVec 64 :=
  if s.redirectValidQ then evenPc s.redirectPcQ
  else if s.predictTaken i then (predictTarget i).signExtend 64
  else npcWord l s.pc

def reasonNext (s : Frontend) (i : FrontendIn l) : IfReason :=
  if s.redirectValidQ then s.redirectReasonQ
  else if s.predictTaken i then .predict
  else .prefetch

/-! ### Alignment -/

/-- `align_valid`. -/
def alignValid (s : Frontend) (i : FrontendIn l) : Bool := s.respLatched || i.respValid

/-- `align_strb`. -/
def alignStrb (s : Frontend) (i : FrontendIn l) : BitVec 2 :=
  if s.pc.getLsbD 1 then 2 else if s.predictTaken i && i.predictor.btbPartial then 1 else 3

/-- The inputs of the aligner, but for the readiness of the instruction buffer. -/
def offered (s : Frontend) (i : FrontendIn l) : AlignIn where
  valid := s.alignValid i
  pc := s.pc
  exception := if s.respLatched then s.respExceptionLatched else i.respException
  exCode := if s.respLatched then s.respExCodeLatched else i.respExCode
  reason := s.reason
  strb := s.alignStrb i
  instr := if s.respLatched then s.respInstrLatched else i.respInstr
  alignedReady := false

def in0 (s : Frontend) (i : FrontendIn l) : Option FetchedInstr :=
  s.aligner.aligned0 (s.offered i)

def in1 (s : Frontend) (i : FrontendIn l) : Option FetchedInstr :=
  s.aligner.aligned1 (s.offered i)

/-- `buf_ready`. -/
def bufReady (s : Frontend) (i : FrontendIn l) : Bool :=
  instrBufferReady s.buffer (s.in0 i) (s.in1 i) i.fetchReady

def alignIn (s : Frontend) (i : FrontendIn l) : AlignIn :=
  { s.offered i with alignedReady := s.bufReady i }

/-- `align_ready`, which is also the valid signal of the request. -/
def alignReady (s : Frontend) (i : FrontendIn l) : Bool := s.aligner.ready (s.alignIn i)

/-! ### Registers -/

/-- The instruction that the backend takes in this cycle. -/
def fetch (s : Frontend) (i : FrontendIn l) : Option FetchedInstr :=
  if i.fetchReady then instrBufferOut s.buffer (s.in0 i) else none

def step (s : Frontend) (i : FrontendIn l) : Frontend where
  redirectPcQ := (i.redirect.map Prod.snd).getD s.redirectPcQ
  redirectReasonQ := (i.redirect.map Prod.fst).getD s.redirectReasonQ
  redirectValidQ := i.redirect.isSome || (s.redirectValidQ && !s.alignReady i)
  pc := if s.alignReady i then s.pcNext i else s.pc
  reason := if s.alignReady i then s.reasonNext i else s.reason
  respLatched := !s.alignReady i && (s.respLatched || i.respValid)
  respInstrLatched := if latches then i.respInstr else s.respInstrLatched
  respExceptionLatched := if latches then i.respException else s.respExceptionLatched
  respExCodeLatched := if latches then i.respExCode else s.respExCodeLatched
  aligner := s.aligner.step (s.alignIn i)
  buffer := nextInstrBuffer s.buffer (s.in0 i) (s.in1 i) i.fetchReady
where
  /-- The answer cannot be used at once. -/
  latches : Bool := !s.alignReady i && i.respValid

/-- The registers after reset; the reset vector is a redirection to address zero. -/
structure IsReset (s : Frontend) : Prop where
  redirect : s.redirectValidQ = true ∧ s.redirectPcQ = 0 ∧ s.redirectReasonQ = .fenceI
  stage : s.pc = 0 ∧ s.reason = .prefetch
  resp : s.respLatched = true ∧ s.respInstrLatched = 0 ∧ s.respExceptionLatched = false
  aligner : s.aligner.IsReset
  buffer : s.buffer = none

end Frontend

end Muntjac.Pipeline

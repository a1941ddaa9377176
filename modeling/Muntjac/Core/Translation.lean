import Muntjac.Core.Ptw
import Muntjac.Tl.Msg

/-!
# Address translation in the level-one caches

The instruction and the data cache contain the same translation logic: a TLB that
is looked up by every translated request, a page table walker that a miss starts,
and a latch that keeps the answer, which is only a pulse, until the next translated
request.

`Translation.step` is its clock edge.  All its outputs are functions of registers.
-/

namespace Muntjac.Core

open Sync

structure TranslationParams where
  physAddrLen : ℕ
  tlbSetsWidth : ℕ
  ptwSourceBase : ℕ
  deriving DecidableEq, Repr

/-- Registers of the translation logic.  `ptwAAddress` is the offset in a bus word
of the last entry that the walker requested. -/
structure Translation (n : ℕ) where
  tlb : Tlb n
  tlbRespValid : Bool
  ptw : Ptw
  ptwAValid : Bool
  ptwAAddress : ℕ
  ppnLatch : ℕ
  ppnValidLatch : Bool
  ppnPermLatch : PageProt

/-- The inputs of one cycle.  `aReady` is the ready signal of the walker's requests
and `dValid` marks an answer to the walker on channel D. -/
structure TranslationIn where
  reqValid : Bool
  reqAtp : ℕ
  reqAddress : ℕ
  ptwReqVpn : ℕ
  flushValid : Bool
  aReady : Bool
  dValid : Bool
  dData : ℕ
  deriving DecidableEq, Repr

/-- `req_atp[63]`: translation is enabled. -/
def atpMode (atp : ℕ) : Bool := atp.testBit 63

/-- `req_atp[44 +: 16]`. -/
def atpAsid (atp : ℕ) : ℕ := slice atp 59 44

/-- `tl_align_load`: the double word of a bus word at a byte offset. -/
def tlAlignLoad (value addr : ℕ) : ℕ := slice value (64 * (addr / 8) + 63) (64 * (addr / 8))

namespace TranslationIn

/-- The request needs a translation. -/
def translates (i : TranslationIn) : Bool := i.reqValid && atpMode i.reqAtp

end TranslationIn

namespace Translation
variable {n : ℕ}

def tlbIn (s : Translation n) (i : TranslationIn) : TlbIn where
  reqValid := i.translates
  reqAsid := atpAsid i.reqAtp
  reqVpn := slice i.reqAddress 38 12
  flushReq := i.flushValid
  refillValid := s.ptw.respValid
  refillAsid := atpAsid i.reqAtp
  refillVpn := i.ptwReqVpn
  refillPpn := s.ptw.respPpn
  refillPerm := s.ptw.respPerm

/-- `tlb_resp_valid && !tlb_resp_hit`: the walker is started. -/
def tlbMiss (s : Translation n) : Bool := s.tlbRespValid && !s.tlb.respHit

def ptwIn (p : TranslationParams) (s : Translation n) (i : TranslationIn) : PtwIn where
  reqValid := s.tlbMiss
  reqVpn := i.ptwReqVpn
  reqPtPpn := slice i.reqAtp (p.physAddrLen - 13) 0
  memReqReady := i.aReady
  memRespValid := i.dValid && s.ptwAValid
  memRespData := tlAlignLoad i.dData s.ptwAAddress

/-- The request of the walker on channel A. -/
def ptwA (p : TranslationParams) (busBytes : ℕ) (s : Translation n) : Option Tl.AMsg :=
  if s.ptw.reqValidQ then
    some
      { opcode := .get
        param := 0
        size := 1
        source := p.ptwSourceBase
        address := cat s.ptw.reqAddrQ 3 0
        mask := 2 ^ busBytes - 1
        corrupt := false
        data := 0 }
  else none

/-- The pulse that either the TLB or the walker answers with. -/
def ppnValidPulse (s : Translation n) : Bool :=
  if s.tlbRespValid then s.tlb.respHit else s.ptw.respValid

def ppnPulse (s : Translation n) : ℕ := if s.tlbRespValid then s.tlb.respPpn else s.ptw.respPpn

def ppnPermPulse (s : Translation n) : PageProt :=
  if s.tlbRespValid then s.tlb.respPerm else s.ptw.respPerm

def ppnValid (s : Translation n) : Bool := if s.ppnValidPulse then true else s.ppnValidLatch
def ppn (s : Translation n) : ℕ := if s.ppnValidPulse then s.ppnPulse else s.ppnLatch

def ppnPerm (s : Translation n) : PageProt :=
  if s.ppnValidPulse then s.ppnPermPulse else s.ppnPermLatch

def step (p : TranslationParams) (busBytes : ℕ) (s : Translation n) (i : TranslationIn) :
    Translation n where
  tlb := s.tlb.step p.tlbSetsWidth (s.tlbIn i)
  tlbRespValid := i.translates
  ptw := s.ptw.step p.physAddrLen (s.ptwIn p i)
  ptwAValid := if s.ptw.reqValidQ && i.aReady then true else s.ptwAValid && !i.dValid
  ptwAAddress :=
    if s.ptw.reqValidQ && i.aReady then cat s.ptw.reqAddrQ 3 0 % busBytes else s.ptwAAddress
  ppnLatch := if s.ppnValidPulse then s.ppnPulse else s.ppnLatch
  ppnValidLatch := if i.translates then false else s.ppnValidPulse || s.ppnValidLatch
  ppnPermLatch := if s.ppnValidPulse then s.ppnPermPulse else s.ppnPermLatch

/-- The registers after reset; the RAMs of the TLB keep their power-up contents. -/
def IsReset (p : TranslationParams) (s : Translation n) : Prop :=
  s.tlb.IsReset p.tlbSetsWidth ∧ s.tlbRespValid = false ∧ s.ptw.stateQ = .idle ∧
    s.ptw.reqValidQ = false ∧ s.ptwAValid = false ∧ s.ppnValidLatch = false

/-- The pair in the latch, or on its way into it, satisfies `Good`. -/
def Answers (Good : ℕ → PageProt → Prop) (s : Translation n) : Prop :=
  (s.ppnValidLatch = true → Good s.ppnLatch s.ppnPermLatch) ∧
    (s.tlbRespValid = true → ∀ a, s.tlb.resp = some a → Good a.1 a.2) ∧
    (s.ptw.respValid = true → Good s.ptw.respPpn s.ptw.respPerm)

section Answers
variable {Good : ℕ → PageProt → Prop} {s : Translation n}

/-- A pulse of the TLB or of the walker carries a good pair. -/
theorem Answers.pulse (h : s.Answers Good) (hp : s.ppnValidPulse = true) :
    Good s.ppnPulse s.ppnPermPulse := by
  obtain ⟨-, ht, hw⟩ := h
  cases hv : s.tlbRespValid
  · simp only [ppnValidPulse, hv, Bool.false_eq_true, if_false] at hp
    simpa [ppnPulse, ppnPermPulse, hv] using hw hp
  · simp only [ppnValidPulse, hv, if_true, Tlb.respHit] at hp
    obtain ⟨a, ha⟩ := Option.isSome_iff_exists.mp hp
    simpa [ppnPulse, ppnPermPulse, hv, Tlb.respPpn, Tlb.respPerm, ha] using ht hv a ha

/-- The pair that the cache uses is good. -/
theorem Answers.good (h : s.Answers Good) (hv : s.ppnValid = true) :
    Good s.ppn s.ppnPerm := by
  cases hp : s.ppnValidPulse
  · simp only [ppnValid, hp, Bool.false_eq_true, if_false] at hv
    simpa [ppn, ppnPerm, hp] using h.1 hv
  · simpa [ppn, ppnPerm, hp] using h.pulse hp

/-- Without a new translated request the latch takes up the pulse. -/
theorem Answers.latch {p : TranslationParams} {busBytes : ℕ} {i : TranslationIn}
    (h : s.Answers Good) (hl : (s.step p busBytes i).ppnValidLatch = true) :
    Good (s.step p busBytes i).ppnLatch (s.step p busBytes i).ppnPermLatch := by
  have hi : i.translates = false := by
    cases hi : i.translates
    · rfl
    · simp [step, hi] at hl
  refine h.good (s := s) ?_
  simpa [step, hi, ppnValid] using hl

end Answers

end Translation

end Muntjac.Core

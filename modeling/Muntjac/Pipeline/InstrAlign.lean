import Muntjac.Pipeline.Decoder
import Muntjac.Sync.Run

/-!
# The instruction aligner

`muntjac_instr_align` with two outputs, as the frontend instantiates it.  The halfwords of
a fetched word, and one halfword that is left over from the word before, form a window
from which up to two instructions are taken in a cycle.  Indices into the window have two
bits, indices into the buffer one.

## Main definitions

* `Aligner.aligned0`, `Aligner.aligned1` — the instructions that are reported.
* `Aligner.ready`, `Aligner.step` — whether the word is taken, and the next registers.
-/

namespace Muntjac.Pipeline

/-- `if_reason[0]`: the fetch was caused by a redirection. -/
def IfReason.marked : IfReason → Bool
  | .mispredict | .protChanged | .satpChanged | .fenceI | .sfenceVma => true
  | .prefetch | .predict => false

/-- The inputs of one cycle. -/
structure AlignIn where
  valid : Bool
  pc : BitVec 64
  exception : Bool
  exCode : BitVec 5
  reason : IfReason
  strb : BitVec 2
  instr : BitVec 32
  alignedReady : Bool
  deriving DecidableEq, Repr

namespace AlignIn

def inputStartIdx (i : AlignIn) : ℕ := if i.strb.getLsbD 0 then 0 else 1

def inputEndIdx (i : AlignIn) : ℕ := if i.strb.getLsbD 1 then 2 else 1

/-- `input_pc`. -/
def inputPc (i : AlignIn) : BitVec 64 := i.pc &&& ~~~3

/-- `unaligned_reason_i ==? IF_PREFETCH`. -/
def isPrefetch (i : AlignIn) : Bool := i.reason == .prefetch

end AlignIn

/-- A halfword with these low bits is the first one of two. -/
def isLong (h : BitVec 16) : Bool := h.extractLsb' 0 2 == 3

/-- The registers of `muntjac_instr_align`. -/
structure Aligner where
  buffer : BitVec 16
  bufferStartIdx : BitVec 1
  bufferEndIdx : BitVec 1
  /-- The address after the buffer. -/
  bufferPc : BitVec 64
  bufferReason : IfReason
  deriving DecidableEq, Repr

namespace Aligner

def bufferEmpty (s : Aligner) : Bool := s.bufferStartIdx == s.bufferEndIdx

def bufferInstrEmpty (s : Aligner) : Bool :=
  s.bufferStartIdx == s.bufferEndIdx || isLong s.buffer

/-! ## The window -/

/-- `use_buffer` and `use_input`. -/
def use (s : Aligner) (i : AlignIn) : Bool × Bool :=
  if i.valid && i.reason.marked then (false, true)
  else if i.valid && !i.exception && i.isPrefetch then (true, true)
  else if !s.bufferInstrEmpty then (true, false)
  else if i.valid && i.exception && i.isPrefetch then (true, true)
  else if i.valid then (false, true)
  else (true, false)

def useBuffer (s : Aligner) (i : AlignIn) : Bool := (s.use i).1

def useInput (s : Aligner) (i : AlignIn) : Bool := (s.use i).2

/-- Either the word alone is used, or a prefetched word after the buffer, or the buffer. -/
theorem use_cases (s : Aligner) (i : AlignIn) :
    (s.useBuffer i = false ∧ s.useInput i = true ∧ i.valid = true ∧ i.reason ≠ .prefetch) ∨
      (s.useBuffer i = true ∧ s.useInput i = true ∧ i.valid = true ∧ i.reason = .prefetch) ∨
        (s.useBuffer i = true ∧ s.useInput i = false) := by
  have huse : (s.use i = (false, true) ∧ i.valid = true ∧ i.reason ≠ .prefetch) ∨
      (s.use i = (true, true) ∧ i.valid = true ∧ i.reason = .prefetch) ∨
        s.use i = (true, false) := by
    unfold use
    split_ifs with h1 h2 h3 h4 h5
    · simp only [Bool.and_eq_true] at h1
      refine .inl ⟨rfl, h1.1, fun hr => ?_⟩
      rw [hr] at h1
      exact absurd h1.2 (by decide)
    · simp only [Bool.and_eq_true, AlignIn.isPrefetch, beq_iff_eq] at h2
      exact .inr (.inl ⟨rfl, h2.1.1, h2.2⟩)
    · exact .inr (.inr rfl)
    · simp only [Bool.and_eq_true, AlignIn.isPrefetch, beq_iff_eq] at h4
      exact .inr (.inl ⟨rfl, h4.1.1, h4.2⟩)
    · refine .inl ⟨rfl, h5, fun hr => ?_⟩
      cases he : i.exception <;> simp [h5, hr, he, AlignIn.isPrefetch] at h2 h4
    · exact .inr (.inr rfl)
  rcases huse with ⟨hu, hv, hr⟩ | ⟨hu, hv, hr⟩ | hu
  · exact .inl ⟨by rw [useBuffer, hu], by rw [useInput, hu], hv, hr⟩
  · exact .inr (.inl ⟨by rw [useBuffer, hu], by rw [useInput, hu], hv, hr⟩)
  · exact .inr (.inr ⟨by rw [useBuffer, hu], by rw [useInput, hu]⟩)

theorem valid_of_useInput {s : Aligner} {i : AlignIn} (h : s.useInput i = true) :
    i.valid = true := by
  rcases s.use_cases i with ⟨-, -, hv, -⟩ | ⟨-, -, hv, -⟩ | ⟨-, hi⟩
  · exact hv
  · exact hv
  · exact absurd h (by simp [hi])

theorem useBuffer_of_not_useInput {s : Aligner} {i : AlignIn} (h : s.useInput i = false) :
    s.useBuffer i = true := by
  rcases s.use_cases i with ⟨-, hi, -⟩ | ⟨hb, -⟩ | ⟨hb, -⟩
  · exact absurd hi (by simp [h])
  · exact hb
  · exact hb

/-- `window_instr`.  There is no fourth halfword: what is read there is undefined. -/
def windowInstr (s : Aligner) (i : AlignIn) : ℕ → BitVec 16
  | 0 => s.buffer
  | 1 => i.instr.extractLsb' 0 16
  | 2 => i.instr.extractLsb' 16 16
  | _ => BitVec.allOnes 16

def windowStartIdx (s : Aligner) (i : AlignIn) : ℕ :=
  if s.useBuffer i then s.bufferStartIdx.toNat else i.inputStartIdx + 1

def windowEndIdx (s : Aligner) (i : AlignIn) : ℕ :=
  if s.useInput i then i.inputEndIdx + 1 else s.bufferEndIdx.toNat

def windowPc (s : Aligner) (i : AlignIn) : BitVec 64 :=
  if s.useInput i then i.inputPc else s.bufferPc

def windowException (s : Aligner) (i : AlignIn) : Bool := s.useInput i && i.exception

def windowReason (s : Aligner) (i : AlignIn) : IfReason :=
  if s.useBuffer i && !s.bufferEmpty then s.bufferReason else i.reason

/-! ## Instructions -/

/-- `insn_length`: zero if there is no full instruction at `k`. -/
def insnLength (s : Aligner) (i : AlignIn) (k : ℕ) : ℕ :=
  if k = s.windowEndIdx i then 0
  else if !isLong (s.windowInstr i k) then 1
  else if s.windowEndIdx i = k + 1 then 0
  else 2

/-- `insn_idx[0]`. -/
def insnIdx0 (s : Aligner) (i : AlignIn) : ℕ := s.windowStartIdx i

/-- `insn_idx[1]`. -/
def insnIdx1 (s : Aligner) (i : AlignIn) : ℕ :=
  (s.insnIdx0 i + s.insnLength i (s.insnIdx0 i)) % 4

/-- `insn_idx[2]`. -/
def insnIdx2 (s : Aligner) (i : AlignIn) : ℕ :=
  (s.insnIdx1 i + s.insnLength i (s.insnIdx1 i)) % 4

/-- The address of the halfword at `k`. -/
def pcAt (s : Aligner) (i : AlignIn) (k : ℕ) : BitVec 64 :=
  s.windowPc i + (BitVec.ofNat 64 k - 1) * 2

/-- The instruction at `k`. -/
def instrAt (s : Aligner) (i : AlignIn) (reason : IfReason) (k : ℕ) : FetchedInstr where
  pc := s.pcAt i k
  ifReason := reason
  instrWord :=
    (if s.insnLength i k = 1 then 0 else s.windowInstr i (k + 1)) ++ s.windowInstr i k
  exValid := false
  cause := 0
  tval := 0

/-- The instruction that reports an exception of the fetch. -/
def faulting (s : Aligner) (i : AlignIn) : FetchedInstr where
  pc := s.pcAt i (s.insnIdx0 i)
  ifReason := s.windowReason i
  instrWord := 0
  exValid := true
  cause := i.exCode
  tval := s.windowPc i + BitVec.ofNat 64 i.inputStartIdx * 2

/-- `aligned_valid_o[0]` and `aligned_instr_o[0]`. -/
def aligned0 (s : Aligner) (i : AlignIn) : Option FetchedInstr :=
  if s.windowException i then some (s.faulting i)
  else if s.insnLength i (s.insnIdx0 i) ≠ 0 then
    some (s.instrAt i (s.windowReason i) (s.insnIdx0 i))
  else none

/-- `aligned_valid_o[1]` and `aligned_instr_o[1]`. -/
def aligned1 (s : Aligner) (i : AlignIn) : Option FetchedInstr :=
  if s.windowException i then none
  else if s.insnLength i (s.insnIdx1 i) ≠ 0 then some (s.instrAt i .prefetch (s.insnIdx1 i))
  else none

/-! ## Registers -/

/-- The window is shifted in this cycle. -/
def advances (s : Aligner) (i : AlignIn) : Bool :=
  s.insnLength i (s.insnIdx0 i) == 0 || i.alignedReady

/-- `unaligned_ready_o`. -/
def ready (s : Aligner) (i : AlignIn) : Bool :=
  if s.windowException i then i.alignedReady else s.advances i && s.useInput i

theorem useInput_of_ready {s : Aligner} {i : AlignIn} (h : s.ready i = true) :
    s.useInput i = true := by
  cases hi : s.useInput i with
  | true => rfl
  | false => simp [ready, windowException, hi] at h

theorem valid_of_ready {s : Aligner} {i : AlignIn} (h : s.ready i = true) : i.valid = true :=
  valid_of_useInput (useInput_of_ready h)

def step (s : Aligner) (i : AlignIn) : Aligner :=
  if s.windowException i then
    if i.alignedReady then { s with bufferStartIdx := 1, bufferEndIdx := 1 } else s
  else if s.advances i then
    if s.useInput i then
      { buffer := s.windowInstr i 2
        bufferStartIdx := (BitVec.ofNat 2 (s.insnIdx2 i) - 2).setWidth 1
        bufferEndIdx := BitVec.ofNat 1 (i.inputEndIdx - 1)
        bufferPc := i.inputPc + 4
        bufferReason := reason }
    else { s with bufferStartIdx := BitVec.ofNat 1 (s.insnIdx2 i), bufferReason := reason }
  else s
where
  /-- What is left over after an instruction was taken is a prefetch. -/
  reason : IfReason :=
    if s.insnLength i (s.insnIdx0 i) ≠ 0 then .prefetch else s.windowReason i

/-- The registers after reset. -/
structure IsReset (s : Aligner) : Prop where
  bufferStartIdx : s.bufferStartIdx = 1
  bufferEndIdx : s.bufferEndIdx = 1

end Aligner

/-! ## The indices

The start of the buffer never passes its end, unless a word is offered in part whose first
halfword begins an instruction of two. -/

namespace AlignIn

/-- Only the first halfword is used. -/
def partialStrb (i : AlignIn) : Bool := i.strb == 1

/-- The strobes that the frontend produces. -/
def StrbOk (i : AlignIn) : Prop := if i.pc.getLsbD 1 then i.strb = 2 else i.strb = 3 ∨ i.strb = 1

/-- Where the word begins and ends. -/
theorem StrbOk.bounds {i : AlignIn} (h : i.StrbOk) :
    i.inputStartIdx < i.inputEndIdx ∧ i.inputEndIdx ≤ 2 ∧
      (i.partialStrb = true ↔ i.inputEndIdx = 1) := by
  have hs : i.strb = 2 ∨ i.strb = 3 ∨ i.strb = 1 := by
    unfold StrbOk at h
    split at h
    · exact .inl h
    · exact .inr h
  rcases hs with hs | hs | hs <;> simp [inputStartIdx, inputEndIdx, partialStrb, hs]

end AlignIn

namespace Aligner
variable {s : Aligner} {i : AlignIn}

/-- The buffer holds the first half of an instruction that the word `i` completes. -/
def continues (s : Aligner) (i : AlignIn) : Bool :=
  i.isPrefetch && !s.bufferEmpty && isLong s.buffer

/-- A word is offered in part although its first halfword begins an instruction of two. -/
def dangling (s : Aligner) (i : AlignIn) : Bool :=
  i.partialStrb && isLong (i.instr.extractLsb' 0 16) && !s.continues i

/-- The window is not turned around. -/
structure Bounds (s : Aligner) (i : AlignIn) : Prop where
  start_le : s.windowStartIdx i ≤ s.windowEndIdx i
  end_le : s.windowEndIdx i ≤ 3

theorem insnLength_le {k : ℕ} (hk : k ≤ s.windowEndIdx i) :
    k + s.insnLength i k ≤ s.windowEndIdx i := by
  unfold insnLength
  split_ifs <;> omega

namespace Bounds
variable (h : Bounds s i)
include h

theorem insnIdx1_eq : s.insnIdx1 i = s.insnIdx0 i + s.insnLength i (s.insnIdx0 i) := by
  have hle := insnLength_le h.start_le
  have h3 := h.end_le
  exact Nat.mod_eq_of_lt (by simp only [insnIdx0]; omega)

theorem insnIdx1_le : s.insnIdx0 i ≤ s.insnIdx1 i ∧ s.insnIdx1 i ≤ s.windowEndIdx i := by
  have hle := insnLength_le h.start_le
  rw [h.insnIdx1_eq]
  simp only [insnIdx0]
  omega

theorem insnIdx2_eq : s.insnIdx2 i = s.insnIdx1 i + s.insnLength i (s.insnIdx1 i) := by
  have hle := insnLength_le h.insnIdx1_le.2
  have h3 := h.end_le
  exact Nat.mod_eq_of_lt (by omega)

/-- From a full word at least two halfwords are used up. -/
theorem insnIdx2_of_full (h3 : s.windowEndIdx i = 3) (h2 : s.windowStartIdx i ≤ 2) :
    s.insnIdx2 i = 2 ∨ s.insnIdx2 i = 3 := by
  have hpos : ∀ k, k < 2 → 0 < s.insnLength i k := by
    intro k hk
    unfold insnLength
    split_ifs <;> omega
  have hle := insnLength_le h.insnIdx1_le.2
  have hle0 := insnLength_le h.start_le
  have h0 := hpos (s.windowStartIdx i)
  have h1 := hpos (s.insnIdx1 i)
  have he1 := h.insnIdx1_eq
  have he2 := h.insnIdx2_eq
  simp only [insnIdx0] at he1
  omega

/-- A word that is used in part is used up, unless an instruction is left dangling. -/
theorem insnIdx2_of_part (h2 : s.windowEndIdx i = 2)
    (hd : isLong (s.windowInstr i 1) = true →
      s.windowStartIdx i = 0 ∧ isLong (s.windowInstr i 0) = true)
    (h1 : s.windowStartIdx i ≤ 1) : s.insnIdx2 i = 2 := by
  have he1 := h.insnIdx1_eq
  have he2 := h.insnIdx2_eq
  have hl2 : s.insnLength i 2 = 0 := by rw [insnLength, if_pos h2.symm]
  simp only [insnIdx0] at he1
  by_cases hlong : isLong (s.windowInstr i 1) = true
  · have h0 := hd hlong
    have hl0 : s.insnLength i 0 = 2 := by simp [insnLength, h2, h0.2]
    rw [h0.1, hl0] at he1
    rw [he2, he1, hl2]
  · have hl1 : s.insnLength i 1 = 1 := by simp [insnLength, h2, hlong]
    have hs : s.windowStartIdx i = 0 ∨ s.windowStartIdx i = 1 := by omega
    rcases hs with hs | hs
    · have hl0 : s.insnLength i 0 = 1 ∨ s.insnLength i 0 = 2 := by
        by_cases hx : isLong (s.windowInstr i 0) = true <;> simp [insnLength, h2, hx]
      rw [hs] at he1
      rcases hl0 with hl0 | hl0
      · rw [he2, he1, hl0, hl1]
      · rw [he2, he1, hl0, hl2]
    · rw [hs, hl1] at he1
      rw [he2, he1, hl2]

end Bounds

/-- The buffer is empty, holds one halfword, or was skipped after a word used in part. -/
inductive Shape (s : Aligner) : Prop
  | empty (hs : s.bufferStartIdx = 1) (he : s.bufferEndIdx = 1)
  | skipped (hs : s.bufferStartIdx = 0) (he : s.bufferEndIdx = 0)
  | half (hs : s.bufferStartIdx = 0) (he : s.bufferEndIdx = 1)

theorem Shape.le (h : s.Shape) : s.bufferStartIdx.toNat ≤ s.bufferEndIdx.toNat := by
  cases h with
  | empty hs he => rw [hs, he]
  | skipped hs he => rw [hs, he]
  | half hs he => rw [hs, he]; decide

theorem Shape.bounds (h : s.Shape) (hs : i.valid = true → i.StrbOk) : s.Bounds i := by
  rcases s.use_cases i with ⟨hu, hin, hv, -⟩ | ⟨hu, hin, hv, hr⟩ | ⟨hu, hin⟩
  · have hb := (hs hv).bounds
    constructor <;> simp only [windowStartIdx, windowEndIdx, hu, hin, if_true] <;> simp <;> omega
  · have hb := (hs hv).bounds
    have hlt : s.bufferStartIdx.toNat < 2 := s.bufferStartIdx.isLt
    constructor <;> simp only [windowStartIdx, windowEndIdx, hu, hin, if_true] <;> omega
  · have hlt : s.bufferEndIdx.toNat < 2 := s.bufferEndIdx.isLt
    have hle := h.le
    constructor <;> simp [windowStartIdx, windowEndIdx, hu, hin] <;> omega

theorem windowStartIdx_le (ho : i.StrbOk) : s.windowStartIdx i ≤ i.inputEndIdx := by
  have hb := ho.bounds
  have hbuf : s.bufferStartIdx.toNat < 2 := s.bufferStartIdx.isLt
  rw [windowStartIdx]
  split <;> omega

/-- A prefetched word goes after the buffer. -/
theorem useBuffer_of_prefetch (hv : i.valid = true) (he : i.exception = false)
    (hr : i.isPrefetch = true) : s.useBuffer i = true := by
  have hm : i.reason.marked = false := by
    rw [AlignIn.isPrefetch, beq_iff_eq] at hr
    rw [hr]
    rfl
  simp [useBuffer, use, hv, he, hr, hm]

/-- A word offered in part is used up. -/
theorem Shape.insnIdx2_of_not_dangling (h : s.Shape) (ho : i.StrbOk) (he : i.exception = false)
    (hin : s.useInput i = true) (hd : s.dangling i = false) (hp : i.partialStrb = true) :
    s.insnIdx2 i = 2 := by
  have hb := ho.bounds
  have hwe : s.windowEndIdx i = 2 := by rw [windowEndIdx, if_pos hin, hb.2.2.mp hp]
  have hs : s.windowStartIdx i ≤ 1 := hb.2.2.mp hp ▸ windowStartIdx_le ho
  refine (h.bounds fun _ => ho).insnIdx2_of_part hwe ?_ hs
  intro hlong
  have hc : s.continues i = true := by
    rw [dangling, hp, Bool.true_and] at hd
    have hlong' : isLong (i.instr.extractLsb' 0 16) = true := hlong
    simpa [hlong'] using hd
  simp only [continues, Bool.and_eq_true, Bool.not_eq_true'] at hc
  have hub := useBuffer_of_prefetch (s := s) (valid_of_useInput hin) he hc.1.1
  refine ⟨?_, hc.2⟩
  rw [windowStartIdx, if_pos hub]
  cases h with
  | empty hs' he' =>
      rw [bufferEmpty, hs', he'] at hc
      exact absurd hc.1.2 (by decide)
  | skipped hs' he' =>
      rw [bufferEmpty, hs', he'] at hc
      exact absurd hc.1.2 (by decide)
  | half hs' he' =>
      rw [hs']
      rfl

/-- What a word that is taken leaves behind. -/
theorem Shape.insnIdx2_of_taken (h : s.Shape) (ho : i.StrbOk) (he : i.exception = false)
    (hin : s.useInput i = true) (hd : s.dangling i = false) :
    (i.partialStrb = true ∧ i.inputEndIdx = 1 ∧ s.insnIdx2 i = 2) ∨
      (i.inputEndIdx = 2 ∧ (s.insnIdx2 i = 2 ∨ s.insnIdx2 i = 3)) := by
  have hb := ho.bounds
  cases hp : i.partialStrb with
  | true =>
      exact .inl ⟨rfl, hb.2.2.mp hp, h.insnIdx2_of_not_dangling ho he hin hd hp⟩
  | false =>
      have hne : i.inputEndIdx ≠ 1 := fun h1 => absurd (hb.2.2.mpr h1) (by simp [hp])
      have h2 : i.inputEndIdx = 2 := by omega
      have hwe : s.windowEndIdx i = 3 := by rw [windowEndIdx, if_pos hin, h2]
      have hs : s.windowStartIdx i ≤ 2 := h2 ▸ windowStartIdx_le ho
      exact .inr ⟨h2, (h.bounds fun _ => ho).insnIdx2_of_full hwe hs⟩

/-- Without the word, the buffer is used up or keeps what it has. -/
theorem Shape.insnIdx2_of_kept (h : s.Shape) (hin : s.useInput i = false) :
    (s.insnIdx2 i = s.bufferStartIdx.toNat) ∨
      (s.bufferStartIdx = 0 ∧ s.bufferEndIdx = 1 ∧ s.insnIdx2 i = 1) := by
  have hu := useBuffer_of_not_useInput hin
  have hs : s.windowStartIdx i = s.bufferStartIdx.toNat := by rw [windowStartIdx, if_pos hu]
  have hend : s.windowEndIdx i = s.bufferEndIdx.toNat := by simp [windowEndIdx, hin]
  have hb : s.Bounds i := by
    have hlt : s.bufferEndIdx.toNat < 2 := s.bufferEndIdx.isLt
    have hle := h.le
    exact ⟨by omega, by omega⟩
  have he2 := hb.insnIdx2_eq
  have hle := hb.insnIdx1_le
  have hle1 := insnLength_le hle.2
  simp only [insnIdx0] at hle
  cases h with
  | empty hs' he' =>
      have h1 : s.bufferStartIdx.toNat = 1 := by rw [hs']; rfl
      have h2 : s.bufferEndIdx.toNat = 1 := by rw [he']; rfl
      exact .inl (by omega)
  | skipped hs' he' =>
      have h1 : s.bufferStartIdx.toNat = 0 := by rw [hs']; rfl
      have h2 : s.bufferEndIdx.toNat = 0 := by rw [he']; rfl
      exact .inl (by omega)
  | half hs' he' =>
      have h1 : s.bufferStartIdx.toNat = 0 := by rw [hs']; rfl
      have h2 : s.bufferEndIdx.toNat = 1 := by rw [he']; rfl
      have hidx : s.insnIdx2 i = 0 ∨ s.insnIdx2 i = 1 := by omega
      rcases hidx with hidx | hidx
      · exact .inl (by omega)
      · exact .inr ⟨hs', he', hidx⟩

/-- A word that is not taken has to wait for its first instruction. -/
theorem step_of_not_ready (hin : s.useInput i = true) (h : s.ready i = false) :
    i.alignedReady = false ∧ s.step i = s := by
  have hrdy : i.alignedReady = false := by
    unfold ready advances at h
    split_ifs at h with he
    · exact h
    · simp only [hin, Bool.and_true, Bool.or_eq_false_iff] at h
      exact h.2
  refine ⟨hrdy, ?_⟩
  unfold ready at h
  unfold step
  split_ifs at h ⊢ with he ha hx
  · exact absurd ha (by simp [hrdy])
  · rfl
  · simp [hx, hin] at h
  · rfl

theorem Shape.step (h : s.Shape) (ho : i.valid = true → i.StrbOk)
    (hd : i.valid = true → i.exception = false → s.dangling i = false) : (s.step i).Shape := by
  cases hin : s.useInput i with
  | false =>
      have hex : s.windowException i = false := by simp [windowException, hin]
      cases ha : s.advances i with
      | false => simpa [Aligner.step, hex, ha] using h
      | true =>
          have hstep : s.step i =
              { s with
                bufferStartIdx := BitVec.ofNat 1 (s.insnIdx2 i)
                bufferReason := step.reason s i } := by
            simp [Aligner.step, hex, ha, hin]
          rw [hstep]
          rcases h.insnIdx2_of_kept hin with hidx | ⟨hs, he, hidx⟩
          · have hstart : BitVec.ofNat 1 (s.insnIdx2 i) = s.bufferStartIdx := by
              rw [hidx, BitVec.ofNat_toNat, BitVec.setWidth_eq]
            rw [hstart]
            cases h with
            | empty hs he => exact .empty hs he
            | skipped hs he => exact .skipped hs he
            | half hs he => exact .half hs he
          · exact .empty (by rw [hidx]; rfl) he
  | true =>
      cases hr : s.ready i with
      | false =>
          rw [(step_of_not_ready hin hr).2]
          exact h
      | true =>
          cases hex : s.windowException i with
          | true =>
              have hrdy : i.alignedReady = true := by simpa [ready, hex] using hr
              refine .empty ?_ ?_ <;> simp [Aligner.step, hex, hrdy]
          | false =>
              have ha : s.advances i = true := by simpa [ready, hex, hin] using hr
              have hv := valid_of_useInput hin
              have hx : i.exception = false := by simpa [windowException, hin] using hex
              have hstep : (s.step i).bufferStartIdx =
                  (BitVec.ofNat 2 (s.insnIdx2 i) - 2).setWidth 1 ∧
                  (s.step i).bufferEndIdx = BitVec.ofNat 1 (i.inputEndIdx - 1) := by
                simp [Aligner.step, hex, ha, hin]
              rcases h.insnIdx2_of_taken (ho hv) hx hin (hd hv hx) with
                ⟨-, h1, hidx⟩ | ⟨h2, hidx | hidx⟩
              · rw [hidx, h1] at hstep
                exact .skipped hstep.1 hstep.2
              · rw [hidx, h2] at hstep
                exact .half hstep.1 hstep.2
              · rw [hidx, h2] at hstep
                exact .empty hstep.1 hstep.2

/-- A full instruction in the buffer goes before a word that does not continue it. -/
theorem Shape.drain (h : s.Shape) (hv : i.valid = true) (hin : s.useInput i = false) :
    s.bufferInstrEmpty = false ∧ s.aligned1 i = none ∧
      (i.alignedReady = true → (s.step i).bufferInstrEmpty = true) ∧
        (i.alignedReady = false → s.step i = s) := by
  have hu := useBuffer_of_not_useInput hin
  have hfull : s.bufferInstrEmpty = false := by
    by_contra hne
    have he : s.bufferInstrEmpty = true := by simpa using hne
    simp only [useInput, use, hv, he, Bool.true_and, Bool.not_true, Bool.false_eq_true,
      if_false] at hin
    split_ifs at hin
  have hne : s.bufferStartIdx ≠ s.bufferEndIdx ∧ isLong s.buffer = false := by
    simpa [bufferInstrEmpty] using hfull
  cases h with
  | empty hs he => exact absurd (hs.trans he.symm) hne.1
  | skipped hs he => exact absurd (hs.trans he.symm) hne.1
  | half hs he =>
      have hex : s.windowException i = false := by simp [windowException, hin]
      have hend : s.windowEndIdx i = 1 := by
        rw [windowEndIdx, if_neg (by simp [hin]), he]
        rfl
      have h0 : s.insnIdx0 i = 0 := by
        rw [insnIdx0, windowStartIdx, if_pos hu, hs]
        rfl
      have hl0 : s.insnLength i 0 = 1 := by
        have hshort : isLong (s.windowInstr i 0) = false := hne.2
        simp [insnLength, hend, hshort]
      have hl1 : s.insnLength i 1 = 0 := by simp [insnLength, hend]
      have h1 : s.insnIdx1 i = 1 := by rw [insnIdx1, h0, hl0]
      have h2 : s.insnIdx2 i = 1 := by rw [insnIdx2, h1, hl1]
      refine ⟨hfull, by simp [aligned1, hex, h1, hl1], fun hrdy => ?_, fun hrdy => ?_⟩
      · simp [Aligner.step, hex, advances, hrdy, hin, h2, bufferInstrEmpty, he]
      · simp [Aligner.step, hex, advances, hrdy, h0, hl0]

end Aligner

end Muntjac.Pipeline

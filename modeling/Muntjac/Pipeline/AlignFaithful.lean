import Muntjac.Pipeline.InstrAlign

/-!
# The aligned stream is faithful to memory

The aligner is fed with the words of a memory.  Every instruction that it reports has the
halfwords of the memory at its address, as long as no word is offered only in part whose
first halfword begins an instruction of two: then the start of the buffer overtakes its
end, and what is reported afterwards are halfwords of other words.

## Main results

* `AlignFeed.faithful_of_run` — the words of all reported instructions.
* `AlignFeed.dangling_not_faithful` — a word offered in part that breaks the stream.
-/

namespace Muntjac.Pipeline

/-- A memory: a halfword at every address. -/
abbrev HalfMem := BitVec 64 → BitVec 16

/-- The word of an instruction is the one in memory. -/
def FetchedInstr.Faithful (m : HalfMem) (x : FetchedInstr) : Prop :=
  x.instrWord = if isLong (m x.pc) then m (x.pc + 2) ++ m x.pc else (0#16) ++ m x.pc

instance (m : HalfMem) (x : FetchedInstr) : Decidable (x.Faithful m) :=
  inferInstanceAs (Decidable (_ = _))

/-- The aligner with the word that it took last. -/
structure AlignFeed where
  aligner : Aligner
  last : Option AlignIn
  deriving DecidableEq, Repr

namespace AlignFeed

/-- One cycle. -/
def step (f : AlignFeed) (i : AlignIn) : AlignFeed :=
  ⟨f.aligner.step i, if f.aligner.ready i then some i else f.last⟩

/-- A word of the memory, as the frontend offers it: a prefetch continues the word before,
which was used as a whole. -/
structure Offers (m : HalfMem) (f : AlignFeed) (i : AlignIn) : Prop where
  instr : i.exception = false → i.instr = m (i.inputPc + 2) ++ m i.inputPc
  strb : i.StrbOk
  prefetch : i.reason = .prefetch → ∀ l, f.last = some l →
    l.partialStrb = false ∧ i.inputPc = l.inputPc + 4

end AlignFeed

/-! ## The window -/

namespace Aligner
variable {m : HalfMem} {s : Aligner} {i : AlignIn}

theorem pcAt_succ (s : Aligner) (i : AlignIn) (k : ℕ) : s.pcAt i (k + 1) = s.pcAt i k + 2 := by
  have h : BitVec.ofNat 64 (k + 1) = BitVec.ofNat 64 k + 1 := by
    rw [← BitVec.ofNat_add_ofNat]
    rfl
  rw [pcAt, pcAt, h]
  grind

theorem pcAt_one (s : Aligner) (i : AlignIn) : s.pcAt i 1 = s.windowPc i := by
  rw [pcAt]
  grind

theorem pcAt_zero (s : Aligner) (i : AlignIn) : s.pcAt i 0 = s.windowPc i - 2 := by
  rw [pcAt]
  grind

/-- The halfwords between the bounds are those of the memory. -/
def WindowOk (m : HalfMem) (s : Aligner) (i : AlignIn) : Prop :=
  ∀ k, s.windowStartIdx i ≤ k → k < s.windowEndIdx i → s.windowInstr i k = m (s.pcAt i k)

/-- An instruction that is reported is the one in memory. -/
theorem instrAt_faithful (h : WindowOk m s i) (reason : IfReason) {k : ℕ}
    (hs : s.windowStartIdx i ≤ k)
    (he : k ≤ s.windowEndIdx i) (hl : s.insnLength i k ≠ 0) :
    (s.instrAt i reason k).Faithful m := by
  unfold insnLength at hl
  split_ifs at hl with h1 h2 h3
  · exact absurd rfl hl
  · have hk := h k hs (by omega)
    have hshort : isLong (m (s.pcAt i k)) = false := by rwa [← hk, ← Bool.not_eq_true']
    have hlen : s.insnLength i k = 1 := by rw [insnLength, if_neg h1, if_pos h2]
    simp only [FetchedInstr.Faithful, instrAt, hlen, if_true, hshort, hk, Bool.false_eq_true,
      if_false]
    rfl
  · exact absurd rfl hl
  · have hk := h k hs (by omega)
    have hk1 := h (k + 1) (by omega) (by omega)
    have hlong : isLong (m (s.pcAt i k)) = true := by
      rw [← hk]
      simpa using h2
    have hlen : s.insnLength i k = 2 := by rw [insnLength, if_neg h1, if_neg h2, if_neg h3]
    simp only [FetchedInstr.Faithful, instrAt, hlen, hlong, if_true, hk, hk1, pcAt_succ]
    rfl

end Aligner

namespace AlignFeed
variable {m : HalfMem} {f : AlignFeed} {i : AlignIn}

/-- What is left over in the buffer. -/
inductive Leftover (m : HalfMem) (f : AlignFeed) : Prop
  | empty (hs : f.aligner.bufferStartIdx = 1) (he : f.aligner.bufferEndIdx = 1)
  /-- After a word that was used in part. -/
  | skipped (l : AlignIn) (hl : f.last = some l) (hp : l.partialStrb = true)
      (hs : f.aligner.bufferStartIdx = 0) (he : f.aligner.bufferEndIdx = 0)
  /-- The second halfword of the word before. -/
  | half (l : AlignIn) (hl : f.last = some l) (hpc : f.aligner.bufferPc = l.inputPc + 4)
      (hs : f.aligner.bufferStartIdx = 0) (he : f.aligner.bufferEndIdx = 1)
      (hb : f.aligner.buffer = m (f.aligner.bufferPc - 2))

theorem Leftover.shape (h : Leftover m f) : f.aligner.Shape := by
  cases h with
  | empty hs he => exact .empty hs he
  | skipped l hl hp hs he => exact .skipped hs he
  | half l hl hpc hs he hb => exact .half hs he

/-- The halfwords of the word that is offered. -/
theorem windowInstr_input (ho : f.Offers m i) (he : i.exception = false)
    (hu : f.aligner.useInput i = true) {k : ℕ} (h1 : 1 ≤ k) (h3 : k < 3) :
    f.aligner.windowInstr i k = m (f.aligner.pcAt i k) := by
  have hpc : f.aligner.windowPc i = i.inputPc := by rw [Aligner.windowPc, if_pos hu]
  have hk : k = 1 ∨ k = 2 := by omega
  rcases hk with rfl | rfl
  · rw [Aligner.pcAt_one, hpc, Aligner.windowInstr, ho.instr he,
      BitVec.extractLsb'_append_eq_of_add_le (by omega)]
    exact BitVec.extractLsb'_eq_self
  · rw [Aligner.pcAt_succ, Aligner.pcAt_one, hpc, Aligner.windowInstr, ho.instr he,
      BitVec.extractLsb'_append_eq_of_le (by omega)]
    exact BitVec.extractLsb'_eq_self

theorem exception_of_windowException (hu : f.aligner.useInput i = true)
    (he : f.aligner.windowException i = false) : i.exception = false := by
  rwa [Aligner.windowException, hu, Bool.true_and] at he

theorem windowOk (hi : Leftover m f) (ho : i.valid = true → f.Offers m i)
    (he : f.aligner.windowException i = false) : f.aligner.WindowOk m i := by
  intro k h1 h2
  rcases f.aligner.use_cases i with ⟨hu, hin, hv, -⟩ | ⟨hu, hin, hv, hr⟩ | ⟨hu, hin⟩
  · -- the word alone
    have hs : f.aligner.windowStartIdx i = i.inputStartIdx + 1 := by
      simp [Aligner.windowStartIdx, hu]
    have hend : f.aligner.windowEndIdx i = i.inputEndIdx + 1 := by
      rw [Aligner.windowEndIdx, if_pos hin]
    have hb := (ho hv).strb.bounds
    exact windowInstr_input (ho hv) (exception_of_windowException hin he) hin (by omega) (by omega)
  · -- a prefetched word after the buffer
    have hs : f.aligner.windowStartIdx i = f.aligner.bufferStartIdx.toNat := by
      simp [Aligner.windowStartIdx, hu]
    have hend : f.aligner.windowEndIdx i = i.inputEndIdx + 1 := by
      rw [Aligner.windowEndIdx, if_pos hin]
    have hb := (ho hv).strb.bounds
    have hword : 1 ≤ k → f.aligner.windowInstr i k = m (f.aligner.pcAt i k) := fun hk =>
      windowInstr_input (ho hv) (exception_of_windowException hin he) hin hk (by omega)
    cases hi with
    | empty hs' he' =>
        have h1' : f.aligner.bufferStartIdx.toNat = 1 := by rw [hs']; rfl
        exact hword (by omega)
    | skipped l hl hp =>
        have hp' := ((ho hv).prefetch hr l hl).1
        exact absurd (hp.symm.trans hp') (by decide)
    | half l hl hpc hs' he' hbuf =>
        rcases Nat.eq_zero_or_pos k with rfl | hpos
        · have hw : f.aligner.windowPc i = f.aligner.bufferPc := by
            rw [Aligner.windowPc, if_pos hin, ((ho hv).prefetch hr l hl).2, hpc]
          rw [Aligner.pcAt_zero, hw]
          exact hbuf
        · exact hword hpos
  · -- the buffer alone
    have hs : f.aligner.windowStartIdx i = f.aligner.bufferStartIdx.toNat := by
      simp [Aligner.windowStartIdx, hu]
    have hend : f.aligner.windowEndIdx i = f.aligner.bufferEndIdx.toNat := by
      simp [Aligner.windowEndIdx, hin]
    cases hi with
    | empty hs' he' =>
        rw [hs, hs'] at h1
        rw [hend, he'] at h2
        exact absurd (h1.trans_lt h2) (by decide)
    | skipped l hl hp hs' he' =>
        rw [hend, he'] at h2
        exact absurd h2 (by simp)
    | half l hl hpc hs' he' hbuf =>
        have hone : f.aligner.bufferEndIdx.toNat = 1 := by rw [he']; rfl
        obtain rfl : k = 0 := by omega
        have hw : f.aligner.windowPc i = f.aligner.bufferPc := by simp [Aligner.windowPc, hin]
        rw [Aligner.pcAt_zero, hw]
        exact hbuf

/-! ## What is left over -/

/-- The word is taken. -/
theorem leftover_of_taken (hi : Leftover m f) (ho : f.Offers m i) (he : i.exception = false)
    (hin : f.aligner.useInput i = true) (hd : f.aligner.dangling i = false) {f' : AlignFeed}
    (hl : f'.last = some i) (hbuf : f'.aligner.buffer = f.aligner.windowInstr i 2)
    (hstart : f'.aligner.bufferStartIdx =
      (BitVec.ofNat 2 (f.aligner.insnIdx2 i) - 2).setWidth 1)
    (hend : f'.aligner.bufferEndIdx = BitVec.ofNat 1 (i.inputEndIdx - 1))
    (hpc : f'.aligner.bufferPc = i.inputPc + 4) : Leftover m f' := by
  have hwpc : f.aligner.windowPc i = i.inputPc := by rw [Aligner.windowPc, if_pos hin]
  rcases hi.shape.insnIdx2_of_taken ho.strb he hin hd with ⟨hp, h1, hidx⟩ | ⟨h2, hidx | hidx⟩
  · rw [hidx] at hstart
    rw [h1] at hend
    exact .skipped i hl hp hstart hend
  · rw [hidx] at hstart
    rw [h2] at hend
    refine .half i hl hpc hstart hend ?_
    rw [hbuf, hpc, windowInstr_input ho he hin (by omega) (by omega), Aligner.pcAt_succ,
      Aligner.pcAt_one, hwpc]
    congr 1
    grind
  · rw [hidx] at hstart
    rw [h2] at hend
    exact .empty hstart hend

/-- Without the word, the buffer is used up or keeps what it has. -/
theorem leftover_of_kept (hi : Leftover m f) (hin : f.aligner.useInput i = false) (r : IfReason) :
    Leftover m ⟨{ f.aligner with
      bufferStartIdx := BitVec.ofNat 1 (f.aligner.insnIdx2 i), bufferReason := r }, f.last⟩ := by
  rcases hi.shape.insnIdx2_of_kept hin with hidx | ⟨hs, he, hidx⟩
  · have hstart : BitVec.ofNat 1 (f.aligner.insnIdx2 i) = f.aligner.bufferStartIdx := by
      rw [hidx, BitVec.ofNat_toNat, BitVec.setWidth_eq]
    rw [hstart]
    cases hi with
    | empty hs' he' => exact .empty hs' he'
    | skipped l hl hp hs' he' => exact .skipped l hl hp hs' he'
    | half l hl hpc hs' he' hbuf => exact .half l hl hpc hs' he' hbuf
  · exact .empty (by rw [hidx]; rfl) he

theorem leftover_step (hi : Leftover m f) (ho : i.valid = true → f.Offers m i)
    (hd : i.valid = true → i.exception = false → f.aligner.dangling i = false) :
    Leftover m (f.step i) := by
  cases he : f.aligner.windowException i with
  | true =>
      cases hr : i.alignedReady with
      | true =>
          refine .empty ?_ ?_ <;> simp [step, Aligner.step, he, hr]
      | false =>
          have hsame : f.step i = f := by simp [step, Aligner.step, Aligner.ready, he, hr]
          rwa [hsame]
  | false =>
      cases ha : f.aligner.advances i with
      | false =>
          have hsame : f.step i = f := by simp [step, Aligner.step, Aligner.ready, he, ha]
          rwa [hsame]
      | true =>
          cases hin : f.aligner.useInput i with
          | true =>
              have hv := Aligner.valid_of_useInput hin
              have hex := exception_of_windowException hin he
              refine leftover_of_taken hi (ho hv) hex hin (hd hv hex) ?_ ?_ ?_ ?_ ?_ <;>
                simp [step, Aligner.step, Aligner.ready, he, ha, hin]
          | false =>
              have hsame : f.step i =
                  ⟨{ f.aligner with
                    bufferStartIdx := BitVec.ofNat 1 (f.aligner.insnIdx2 i)
                    bufferReason := Aligner.step.reason f.aligner i }, f.last⟩ := by
                simp [step, Aligner.step, Aligner.ready, he, ha, hin]
              rw [hsame]
              exact leftover_of_kept hi hin _

/-! ## Runs -/

/-- The instructions that are reported in a cycle. -/
def reported (f : AlignFeed) (i : AlignIn) : List FetchedInstr :=
  (f.aligner.aligned0 i).toList ++ (f.aligner.aligned1 i).toList

theorem reported_faithful (hi : Leftover m f) (ho : i.valid = true → f.Offers m i)
    (x : FetchedInstr) (hx : x ∈ f.reported i) (he : x.exValid = false) : x.Faithful m := by
  cases hw : f.aligner.windowException i with
  | true =>
      simp only [reported, Aligner.aligned0, Aligner.aligned1, hw, if_true, Option.toList_some,
        Option.toList_none, List.append_nil, List.mem_singleton] at hx
      rw [hx] at he
      exact absurd he (by simp [Aligner.faulting])
  | false =>
      have hok := windowOk hi ho hw
      have hb := hi.shape.bounds fun hv => (ho hv).strb
      have hle := hb.insnIdx1_le
      simp only [reported, Aligner.aligned0, Aligner.aligned1, hw, Bool.false_eq_true, if_false,
        List.mem_append, Option.mem_toList] at hx
      rcases hx with hx | hx
      · split_ifs at hx with hl
        · cases hx
          exact Aligner.instrAt_faithful hok _ le_rfl hb.start_le hl
      · split_ifs at hx with hl
        · cases hx
          exact Aligner.instrAt_faithful hok _ hle.1 hle.2 hl

/-- The aligner after `n` cycles. -/
def state (f₀ : AlignFeed) (inp : ℕ → AlignIn) (n : ℕ) : AlignFeed := Sync.run step f₀ inp n

/-- In a run in which no word is offered in part that leaves an instruction dangling, all
reported instructions are the ones in memory. -/
theorem faithful_of_run (m : HalfMem) (f₀ : AlignFeed) (inp : ℕ → AlignIn)
    (h0 : f₀.aligner.IsReset) (n : ℕ)
    (ho : ∀ k ≤ n, (inp k).valid = true → (state f₀ inp k).Offers m (inp k))
    (hd : ∀ k < n, (inp k).valid = true → (inp k).exception = false →
      (state f₀ inp k).aligner.dangling (inp k) = false)
    (x : FetchedInstr) (hx : x ∈ (state f₀ inp n).reported (inp n)) (he : x.exValid = false) :
    x.Faithful m := by
  have hinv : Leftover m (state f₀ inp n) := by
    refine Sync.run_invariant (Leftover m)
      (fun f i => (i.valid = true → f.Offers m i) ∧
        (i.valid = true → i.exception = false → f.aligner.dangling i = false))
      (.empty h0.bufferStartIdx h0.bufferEndIdx) ?_ n ?_
    · intro f i hi henv
      exact leftover_step hi henv.1 henv.2
    · intro k hk
      exact ⟨ho k (by omega), hd k hk⟩
  exact reported_faithful hinv (ho n le_rfl) x hx he

/-- The aligner after reset. -/
def reset : AlignFeed := ⟨⟨0, 1, 1, 0, .prefetch⟩, none⟩

/-- A word of the memory `m`. -/
def word (m : HalfMem) (pc : BitVec 64) (reason : IfReason) (strb : BitVec 2) : AlignIn :=
  ⟨true, pc, false, 0, reason, strb, m ((pc &&& ~~~3) + 2) ++ m (pc &&& ~~~3), true⟩

/-- An instruction of two halfwords at address two. -/
def straddling : HalfMem := fun a => if a = 2 then 0x0013 else 0x0001

/-- Words in order, after a redirection to address zero. -/
def inOrder (k : ℕ) : AlignIn :=
  if k = 0 then word straddling 0 .fenceI 3
  else word straddling (BitVec.ofNat 64 (4 * k)) .prefetch 3

/-- The instruction is put together from two words. -/
theorem faithful_of_run_straddling :
    ∃ x ∈ (state reset inOrder 1).reported (inOrder 1), x.pc = 2 ∧ x.Faithful straddling := by
  refine ⟨⟨2, .prefetch, 0x00010013, false, 0, 0⟩, by decide, rfl, ?_⟩
  refine faithful_of_run straddling reset inOrder ⟨rfl, rfl⟩ 1 ?_ ?_ _
    (by decide) rfl
  · intro k hk _
    have hk : k = 0 ∨ k = 1 := by omega
    rcases hk with rfl | rfl
    · exact ⟨fun _ => by decide, .inl rfl, fun h => absurd h (by decide)⟩
    · refine ⟨fun _ => by decide, .inl rfl, fun _ l hl => ?_⟩
      have hl' : l = inOrder 0 := by
        have h : (state reset inOrder 1).last = some (inOrder 0) := by decide
        exact (Option.some.inj (h.symm.trans hl)).symm
      rw [hl']
      decide
  · intro k hk _ _
    obtain rfl : k = 0 := by omega
    decide

/-- Short instructions, but for a long one at `0x104`. -/
def danglingMem : HalfMem := fun a =>
  if a = 0x104 then 0x0013 else if a = 0x200 then 0x0005 else 0x0001

/-- The word at `0x104` is predicted to end with a taken branch in its first halfword, to
`0x200`. -/
def danglingIn (k : ℕ) : AlignIn :=
  if k = 0 then word danglingMem 0x100 .mispredict 3
  else if k = 1 then word danglingMem 0x104 .prefetch 1
  else word danglingMem 0x200 .predict 3

/-- The halfword at `0x200` is reported as the instruction at `0x108`. -/
theorem dangling_not_faithful :
    ¬∀ (m : HalfMem) (f₀ : AlignFeed) (inp : ℕ → AlignIn), f₀.aligner.IsReset → ∀ n : ℕ,
      (∀ k ≤ n, (inp k).valid = true ∧ (inp k).exception = false ∧
        (state f₀ inp k).Offers m (inp k)) →
      ∀ x ∈ (state f₀ inp n).reported (inp n), x.exValid = false → x.Faithful m := by
  intro h
  have hx := h danglingMem reset danglingIn ⟨rfl, rfl⟩ 2 ?_
    ⟨0x108, .prefetch, 0x0005, false, 0, 0⟩ (by decide) rfl
  · exact absurd hx (by decide)
  · intro k hk
    have hk : k = 0 ∨ k = 1 ∨ k = 2 := by omega
    rcases hk with rfl | rfl | rfl
    · exact ⟨rfl, rfl, fun _ => by decide, .inl rfl, fun h => absurd h (by decide)⟩
    · refine ⟨rfl, rfl, fun _ => by decide, .inr rfl, fun _ l hl => ?_⟩
      have hl' : l = danglingIn 0 := by
        have h : (state reset danglingIn 1).last = some (danglingIn 0) := by decide
        exact (Option.some.inj (h.symm.trans hl)).symm
      rw [hl']
      decide
    · exact ⟨rfl, rfl, fun _ => by decide, .inl rfl, fun h => absurd h (by decide)⟩

end AlignFeed

end Muntjac.Pipeline

import Muntjac.Pipeline.CsrLaw
import Muntjac.Sync.FourState

/-!
# Access to the counters below M-mode

`mcounteren` and `scounteren` have three bits, of which two can be set.  The check of a user
counter selects a bit of them with the number of the counter, which goes up to 31, so that the
selected bit does not exist for `hpmcounter3` and above and the check does not decide.

## Main definitions

* `CsRegisters.checkIllegalX` — the check port with unknown bits.
* `CsRegisters.CounterLaw` — who may read a counter.

## Main results

* `CsRegisters.checkIllegalX_eq` — without an unknown bit this is the check of the model.
* `CsRegisters.counterLaw_iff` — in every reachable state the law holds for the counters that
  have an enable bit, and below M-mode for no other.
-/

namespace Muntjac.Pipeline

open Sync (run run_invariant Logic)

/-- The counters that a user address shows. -/
def Csr.isUserCounter : Csr → Bool
  | .cycle | .instret | .hpmcounter _ => true
  | _ => false

namespace CsRegisters
variable {p : CsrParams} {s : CsRegisters p} {c : Csr}

/-! ## The check port -/

/-- The condition under which a user counter is illegal, with `priv_lvl_q > PRIV_LVL_S` and
`priv_lvl_q > PRIV_LVL_U` as the source has them. -/
def counterDenied (s : CsRegisters p) (k : Fin 32) : Logic :=
  (((Logic.ofBool (decide (PrivLvl.s.toBits < s.privLvlQ.toBits))).or
      (Logic.select s.mcounterenQ k)).and
    ((Logic.ofBool (decide (PrivLvl.u.toBits < s.privLvlQ.toBits))).or
      (Logic.select s.scounterenQ k))).not

/-- `illegal`, with the bits that do not exist. -/
def unavailableX (s : CsRegisters p) (c : Csr) : Bool :=
  if c.isUserCounter then (s.counterDenied c.index).taken else s.unavailable c

/-- `check_illegal_o`, with the bits that do not exist. -/
def checkIllegalX (s : CsRegisters p) (c : Csr) (op : CsrOp) : Bool :=
  s.unavailableX c || (c.isReadOnly && op != .read) || decide (s.privLvlQ.toBits < c.level)

/-- The check reads as legal. -/
def readable (s : CsRegisters p) (c : Csr) : Bool := !s.checkIllegalX c .read

/-! ## The law -/

/-- Bit `n` of `mcounteren`, as software reads it. -/
def mcounterenBit (s : CsRegisters p) (i : CsRegistersIn) (n : ℕ) : Bool :=
  (s.rdata i .mcounteren).getLsbD n

/-- Bit `n` of `scounteren`, as software reads it. -/
def scounterenBit (s : CsRegisters p) (i : CsRegistersIn) (n : ℕ) : Bool :=
  (s.rdata i .scounteren).getLsbD n

/-- Who may read the user counter `c`. -/
structure CounterLaw (s : CsRegisters p) (c : Csr) : Prop where
  /-- The bits that the check selects below M-mode exist. -/
  inside : s.privLvlQ ≠ .m → c.index.val < 3
  /-- M-mode reads every counter, S-mode those that `mcounteren` enables, and U-mode those that
  `scounteren` enables as well. -/
  readable : ∀ i, s.readable c = true ↔ s.privLvlQ = .m ∨
    s.mcounterenBit i c.index = true ∧ (s.privLvlQ = .u → s.scounterenBit i c.index = true)
  /-- A bit without a counter to enable, and a bit that is not implemented, read as zero. -/
  unimplemented : ∀ i n, n ≠ 0 → n ≠ 2 →
    s.mcounterenBit i n = false ∧ s.scounterenBit i n = false

/-! ## Bits that exist -/

/-- For a bit that exists the check decides as the model does. -/
theorem counterDenied_of_lt {k : Fin 32} (h : k.val < 3) :
    s.counterDenied k = Logic.ofBool !s.counterEnabled k := by
  rw [counterDenied, Logic.select_of_lt _ h, Logic.select_of_lt _ h, Logic.or_ofBool,
    Logic.or_ofBool, Logic.and_ofBool, Logic.not_ofBool]
  unfold counterEnabled
  cases s.privLvlQ <;> rfl

/-- A bit that does not exist leaves the check below M-mode open, or M-mode does not need it. -/
theorem counterDenied_of_ge {k : Fin 32} (h : 3 ≤ k.val) (hs : s.privLvlQ ≠ .h) :
    s.counterDenied k = if s.privLvlQ = .m then Logic.zero else Logic.x := by
  rw [counterDenied, Logic.select_of_ge _ h, Logic.select_of_ge _ h]
  revert hs
  cases s.privLvlQ <;> simp <;> decide

/-- Without an unknown bit the check port is the one of the model. -/
theorem checkIllegalX_eq (op : CsrOp) (h : c.isUserCounter = true → c.index.val < 3) :
    s.checkIllegalX c op = s.checkIllegal c op := by
  have hav : s.unavailableX c = s.unavailable c := by
    unfold unavailableX
    split
    · next hc =>
      rw [counterDenied_of_lt (h hc), Logic.taken_ofBool]
      cases c <;> first | rfl | cases hc
    · rfl
  rw [checkIllegalX, checkIllegal, hav]

/-- The addresses of the user counters are open to all levels. -/
theorem level_userCounter (hc : c.isUserCounter = true) : c.level = 0 := by
  cases c <;> try cases hc
  · rfl
  · rfl
  · next k => revert k; decide

theorem readable_eq (hc : c.isUserCounter = true) :
    s.readable c = !(s.counterDenied c.index).taken := by
  simp [readable, checkIllegalX, unavailableX, hc, level_userCounter hc]

/-- Where the check decides, the counters that are enabled can be read. -/
theorem readable_of_lt (hc : c.isUserCounter = true) (hk : c.index.val < 3) :
    s.readable c = s.counterEnabled c.index := by
  have hav : s.unavailable c = !s.counterEnabled c.index := by
    cases c <;> first | rfl | cases hc
  rw [readable, checkIllegalX_eq .read fun _ => hk, checkIllegal, hav, level_userCounter hc]
  simp

/-! ## What the enable registers hold -/

/-- Of the enable bits only those of `cycle` and `instret` can be set. -/
structure EnableBits (s : CsRegisters p) : Prop where
  mcounteren : s.mcounterenQ &&& ~~~5 = 0
  scounteren : s.scounterenQ &&& ~~~5 = 0

theorem enableBits_reset (p : CsrParams) : (reset p).EnableBits where
  mcounteren := by simp [reset]
  scounteren := by simp [reset]

theorem enableBits_accumulate (h : s.EnableBits) (i : CsRegistersIn) :
    (s.accumulate i).EnableBits := by
  unfold accumulate
  split
  · exact ⟨h.mcounteren, h.scounteren⟩
  · exact h

theorem enableBits_write (h : s.EnableBits) (c : Csr) (x : BitVec 64) :
    (s.write c x).EnableBits := by
  unfold write
  split <;> try split
  all_goals try exact ⟨h.mcounteren, h.scounteren⟩
  · exact ⟨h.mcounteren, by rw [BitVec.and_assoc]; simp⟩
  · exact ⟨by rw [BitVec.and_assoc]; simp, h.scounteren⟩

theorem enableBits_next (h : s.EnableBits) (i : CsRegistersIn) : (s.next i).EnableBits := by
  have hacc := enableBits_accumulate h i
  have hcontrol : (next.control s i).EnableBits := by
    unfold next.control
    split
    · unfold trap
      split <;> exact ⟨hacc.mcounteren, hacc.scounteren⟩
    · split
      · unfold eret
        split <;> exact ⟨hacc.mcounteren, hacc.scounteren⟩
      · split
        · exact enableBits_write hacc _ _
        · exact hacc
  exact ⟨hcontrol.mcounteren, hcontrol.scounteren⟩

theorem enableBits_of_run (p : CsrParams) (inp : ℕ → CsRegistersIn) (n : ℕ) :
    (run next (reset p) inp n).EnableBits :=
  run_invariant EnableBits (fun _ _ => True) (enableBits_reset p)
    (fun _ i hs _ => enableBits_next hs i) n fun _ _ => trivial

theorem getLsbD_of_masked {v : BitVec 3} (h : v &&& ~~~5 = 0) {n : ℕ} (h0 : n ≠ 0) (h2 : n ≠ 2) :
    v.getLsbD n = false := by
  rcases Nat.lt_or_ge n 3 with hlt | hge
  · have hn : n = 1 := by omega
    subst hn
    have hbit := congrArg (fun w : BitVec 3 => w.getLsbD 1) h
    simpa using hbit
  · exact BitVec.getLsbD_of_ge v n hge

/-- Software reads the bits of the register. -/
theorem mcounterenBit_eq (i : CsRegistersIn) (n : ℕ) :
    s.mcounterenBit i n = s.mcounterenQ.getLsbD n := by
  rcases Nat.lt_or_ge n 64 with hlt | hge
  · simp [mcounterenBit, rdata, rdataInt, hlt]
  · have hnone : s.mcounterenQ.getLsbD n = false := BitVec.getLsbD_of_ge _ n (by omega)
    rw [hnone, mcounterenBit, BitVec.getLsbD_of_ge _ n hge]

theorem scounterenBit_eq (i : CsRegistersIn) (n : ℕ) :
    s.scounterenBit i n = s.scounterenQ.getLsbD n := by
  rcases Nat.lt_or_ge n 64 with hlt | hge
  · simp [scounterenBit, rdata, rdataInt, hlt]
  · have hnone : s.scounterenQ.getLsbD n = false := BitVec.getLsbD_of_ge _ n (by omega)
    rw [hnone, scounterenBit, BitVec.getLsbD_of_ge _ n hge]

theorem unimplemented_of_enableBits (h : s.EnableBits) (i : CsRegistersIn) {n : ℕ} (h0 : n ≠ 0)
    (h2 : n ≠ 2) : s.mcounterenBit i n = false ∧ s.scounterenBit i n = false := by
  rw [mcounterenBit_eq, scounterenBit_eq]
  exact ⟨getLsbD_of_masked h.mcounteren h0 h2, getLsbD_of_masked h.scounteren h0 h2⟩

/-! ## Where the law holds -/

/-- A counter with an enable bit. -/
theorem readable_iff_of_lt (hc : c.isUserCounter = true) (hk : c.index.val < 3)
    (hs : s.privLvlQ ≠ .h) (i : CsRegistersIn) :
    s.readable c = true ↔ s.privLvlQ = .m ∨
      s.mcounterenBit i c.index = true ∧
        (s.privLvlQ = .u → s.scounterenBit i c.index = true) := by
  rw [readable_of_lt hc hk, mcounterenBit_eq, scounterenBit_eq, counterEnabled]
  revert hs
  cases s.privLvlQ <;> simp

/-- A counter without an enable bit can be read at every level. -/
theorem readable_of_ge (hc : c.isUserCounter = true) (hk : 3 ≤ c.index.val)
    (hs : s.privLvlQ ≠ .h) : s.readable c = true := by
  rw [readable_eq hc, counterDenied_of_ge hk hs]
  split <;> rfl

/-- The law of one counter in one state. -/
theorem counterLaw_iff_of_enableBits (h : s.EnableBits) (hs : s.privLvlQ ≠ .h)
    (hc : c.isUserCounter = true) : s.CounterLaw c ↔ s.privLvlQ = .m ∨ c.index.val < 3 := by
  constructor
  · intro hlaw
    by_cases hm : s.privLvlQ = .m
    · exact Or.inl hm
    · exact Or.inr (hlaw.inside hm)
  · intro hcond
    refine ⟨fun hm => hcond.resolve_left hm, fun i => ?_,
      fun i n h0 h2 => unimplemented_of_enableBits h i h0 h2⟩
    rcases Nat.lt_or_ge c.index.val 3 with hlt | hge
    · exact readable_iff_of_lt hc hlt hs i
    · have hm : s.privLvlQ = .m := hcond.resolve_right (by omega)
      exact iff_of_true (readable_of_ge hc hge hs) (Or.inl hm)

/-- In every reachable state the law holds in M-mode, and below M-mode for the counters that
have an enable bit; the others can be read at every level although their bits read as zero. -/
theorem counterLaw_iff (p : CsrParams) (inp : ℕ → CsRegistersIn) (n : ℕ) (c : Csr)
    (hc : c.isUserCounter = true) :
    ((run next (reset p) inp n).CounterLaw c ↔
        (run next (reset p) inp n).privLvlQ = .m ∨ c.index.val < 3) ∧
      (3 ≤ c.index.val → (run next (reset p) inp n).readable c = true) := by
  have hbits := enableBits_of_run p inp n
  have hlevel := (levels_of_run p inp n).priv
  exact ⟨counterLaw_iff_of_enableBits hbits hlevel hc, fun hk => readable_of_ge hc hk hlevel⟩

/-- `MRET` after reset: U-mode. -/
def enterUser : ℕ → CsRegistersIn := fun _ => { quiet with erValid := true, erPrv := .m }

theorem counterLaw_iff_cycle :
    (run next (reset defaultParams) enterUser 1).CounterLaw .cycle :=
  ((counterLaw_iff defaultParams enterUser 1 .cycle rfl).1).mpr (Or.inr (by decide))

/-- In U-mode `hpmcounter3` can be read though neither register enables it. -/
theorem hpmcounter_not_denied :
    (run next (reset defaultParams) enterUser 1).privLvlQ = .u ∧
      (run next (reset defaultParams) enterUser 1).mcounterenQ = 0 ∧
      (run next (reset defaultParams) enterUser 1).readable (.hpmcounter 0) = true ∧
      ¬(run next (reset defaultParams) enterUser 1).CounterLaw (.hpmcounter 0) := by
  refine ⟨by decide, by decide, by decide, ?_⟩
  intro h
  exact absurd (h.inside (by decide)) (by decide)

end CsRegisters

end Muntjac.Pipeline

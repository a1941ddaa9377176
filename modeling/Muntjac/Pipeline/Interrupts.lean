import Muntjac.Pipeline.Privilege

/-!
# Interrupts

Which interrupt may be taken, and which one the source reports.  `irq_valid_o` is exact;
`irq_cause_o` is the first pending interrupt, whether it may be taken or not.

## Main definitions

* `CsRegisters.MayTake` — an interrupt is pending, enabled and globally enabled for the mode
  that it goes to.
* `CsRegisters.Precedes` — the architectural order: interrupts for M-mode first, then the
  fixed order of the interrupts.

## Main results

* `CsRegisters.delivered_iff` — the outputs are right unless a delegated interrupt stands
  before one that goes to M-mode.
-/

namespace Muntjac.Pipeline

open Sync (run run_invariant)

/-- The architectural order: external, software and timer interrupts of M-mode, then those of
S-mode. -/
def Irq.rank : Irq → ℕ
  | .externalM => 0
  | .softwareM => 1
  | .timerM => 2
  | .externalS => 3
  | .softwareS => 4
  | .timerS => 5

namespace CsRegisters
variable {p : CsrParams} {s : CsRegisters p} {i : CsRegistersIn} {x y : Irq}

/-- Interrupts that go to the same mode as `x` are enabled at the current level. -/
def GloballyEnabled (s : CsRegisters p) (x : Irq) : Prop :=
  if s.midelegQ x then
    s.privLvlQ.toBits < PrivLvl.s.toBits ∨ s.privLvlQ = .s ∧ s.mstatusQ.sie = true
  else s.privLvlQ.toBits < PrivLvl.m.toBits ∨ s.mstatusQ.mie = true

/-- The interrupt may be taken now. -/
def MayTake (s : CsRegisters p) (i : CsRegistersIn) (x : Irq) : Prop :=
  s.mip i x = true ∧ s.mieQ x = true ∧ s.GloballyEnabled x

/-- `x` is to be taken before `y`. -/
def Precedes (s : CsRegisters p) (x y : Irq) : Prop :=
  s.midelegQ x = false ∧ s.midelegQ y = true ∨ s.midelegQ x = s.midelegQ y ∧ x.rank < y.rank

/-- Trap entry for `x` goes to the mode that `mideleg` selects, which is not below the
current one. -/
def EntersTarget (s : CsRegisters p) (x : Irq) : Prop :=
  ∀ i, i.exValid = true → i.exCause = x.cause →
    (s.next i).privLvlQ = (if s.midelegQ x then .s else .m) ∧
      s.privLvlQ.toBits ≤ (s.next i).privLvlQ.toBits

/-- An interrupt is reported exactly if one may be taken, and then it is the first of
those in the architectural order. -/
def Delivered (s : CsRegisters p) (i : CsRegistersIn) : Prop :=
  (s.irqValid i = true ↔ ∃ x, s.MayTake i x) ∧
    (s.irqValid i = true → ∃ x, s.irqCause i = some x ∧ s.MayTake i x ∧
      (∀ y, s.MayTake i y → y ≠ x → s.Precedes x y) ∧ s.EntersTarget x)

/-- The first pending interrupt is delegated while another one is not and may be taken. -/
def Shadowed (s : CsRegisters p) (i : CsRegistersIn) : Prop :=
  (s.privLvlQ ≠ .m ∨ s.mstatusQ.mie = true) ∧
    (∃ y, s.irqPending i y = true ∧ s.midelegQ y = false) ∧
    ∃ x, s.irqPending i x = true ∧ s.midelegQ x = true ∧
      ∀ y, s.irqPending i y = true → x.rank ≤ y.rank

/-! ## Delegation -/

/-- Interrupts of M-mode are never delegated. -/
def MachineKept (s : CsRegisters p) : Prop := ∀ x : Irq, x.isS = false → s.midelegQ x = false

theorem accumulate_midelegQ (s : CsRegisters p) (i : CsRegistersIn) :
    (s.accumulate i).midelegQ = s.midelegQ := by
  unfold accumulate
  split <;> rfl

theorem write_midelegQ (h : s.MachineKept) (c : Csr) (v : BitVec 64) :
    (s.write c v).MachineKept := by
  by_cases hc : c = .mideleg
  · subst hc
    intro x hx
    have hmem : x ∉ Irq.sChain := by
      revert hx
      cases x <;> decide
    simp [write, writeIrqs, hmem, h x hx]
  · have hsame : (s.write c v).midelegQ = s.midelegQ := by
      unfold write
      split <;> try split
      all_goals first
        | rfl
        | exact absurd rfl hc
    intro x hx
    rw [hsame]
    exact h x hx

theorem machineKept_next (h : s.MachineKept) (i : CsRegistersIn) : (s.next i).MachineKept := by
  have hacc : (s.accumulate i).MachineKept := by
    intro x hx
    rw [accumulate_midelegQ]
    exact h x hx
  have hcontrol : (next.control s i).MachineKept := by
    unfold next.control
    split
    · intro x hx
      have hsame : ((s.accumulate i).trap i).midelegQ = (s.accumulate i).midelegQ := by
        unfold trap
        split <;> rfl
      rw [hsame]
      exact hacc x hx
    · split
      · intro x hx
        have hsame : ((s.accumulate i).eret i).midelegQ = (s.accumulate i).midelegQ := by
          unfold eret
          split <;> rfl
        rw [hsame]
        exact hacc x hx
      · split
        · exact write_midelegQ hacc _ _
        · exact hacc
  exact hcontrol

theorem machineKept_of_run (p : CsrParams) (inp : ℕ → CsRegistersIn) (n : ℕ) :
    (run next (reset p) inp n).MachineKept :=
  run_invariant MachineKept (fun _ _ => True) (fun _ _ => rfl)
    (fun _ i hs _ => machineKept_next hs i) n fun _ _ => trivial

/-- A trap with the cause of an interrupt looks at its bit of `mideleg`. -/
theorem isDelegated_cause (h : s.MachineKept) (x : Irq) :
    s.isDelegated x.cause = s.midelegQ x := by
  cases x with
  | softwareS | timerS | externalS => rfl
  | softwareM | timerM | externalM =>
      rw [h _ rfl]
      rfl

/-! ## The outputs -/

theorem mayTake_iff : s.MayTake i x ↔ (s.irqValidM i x || s.irqValidS i x) = true := by
  unfold MayTake GloballyEnabled irqValidM irqValidS irqPending
  cases s.midelegQ x <;> cases s.privLvlQ <;> cases s.mstatusQ.mie <;> cases s.mstatusQ.sie <;>
    simp [PrivLvl.toBits]

theorem irqValid_iff : s.irqValid i = true ↔ ∃ x, s.MayTake i x := by
  simp only [irqValid, List.any_eq_true, mayTake_iff]
  constructor
  · rintro ⟨x, -, hx⟩
    exact ⟨x, hx⟩
  · rintro ⟨x, hx⟩
    exact ⟨x, Irq.mem_chain x, hx⟩

theorem irqPending_of_mayTake (h : s.MayTake i x) : s.irqPending i x = true := by
  rw [irqPending, h.1, h.2.1]
  rfl

theorem irqPending_of_irqCause (h : s.irqCause i = some x) : s.irqPending i x = true :=
  List.find?_some h

/-- The source searches the interrupts in the architectural order. -/
theorem pairwise_chain : Irq.chain.Pairwise fun x y => x.rank < y.rank := by decide

/-- The cause is the first pending interrupt. -/
theorem rank_lt_of_irqCause (h : s.irqCause i = some x) (hy : s.irqPending i y = true)
    (hne : y ≠ x) : x.rank < y.rank := by
  obtain ⟨-, as, bs, hsplit, hbefore⟩ := List.find?_eq_some_iff_append.mp h
  have hafter : y ∈ bs := by
    have hmem := Irq.mem_chain y
    rw [hsplit, List.mem_append, List.mem_cons] at hmem
    rcases hmem with hmem | rfl | hmem
    · have := hbefore y hmem
      simp [hy] at this
    · exact absurd rfl hne
    · exact hmem
  have horder := pairwise_chain
  rw [hsplit] at horder
  exact List.rel_of_pairwise_cons (List.pairwise_append.mp horder).2.1 hafter

theorem exists_irqCause (h : s.irqPending i x = true) : ∃ y, s.irqCause i = some y := by
  have hsome : (s.irqCause i).isSome = true := by
    rw [irqCause, List.find?_isSome]
    exact ⟨x, Irq.mem_chain x, h⟩
  exact Option.isSome_iff_exists.mp hsome

/-- A pending interrupt that no other one precedes is the cause. -/
theorem irqCause_of_first (hx : s.irqPending i x = true)
    (hfirst : ∀ y, s.irqPending i y = true → x.rank ≤ y.rank) : s.irqCause i = some x := by
  obtain ⟨y, hy⟩ := exists_irqCause hx
  by_cases hne : x = y
  · rw [hne]
    exact hy
  · have hlt := rank_lt_of_irqCause hy hx hne
    exact absurd (hfirst y (irqPending_of_irqCause hy)) (by omega)

/-- Delegated interrupts do not interrupt M-mode. -/
theorem priv_of_mayTake (h : s.MayTake i x) (hd : s.midelegQ x = true) : s.privLvlQ ≠ .m := by
  have hg := h.2.2
  rw [GloballyEnabled, if_pos hd] at hg
  intro hm
  rw [hm] at hg
  rcases hg with hg | ⟨hg, -⟩
  · exact absurd hg (by decide)
  · cases hg

theorem entersTarget_of_mayTake (hk : s.MachineKept) (hl : s.privLvlQ ≠ .h) (h : s.MayTake i x) :
    s.EntersTarget x := by
  intro j hx hcause
  obtain ⟨hp, -⟩ := next_of_exValid (s := s) hx
  have hdel : s.isDelegated j.exCause = s.midelegQ x := by rw [hcause, isDelegated_cause hk]
  rw [hp]
  cases hd : s.midelegQ x with
  | true =>
      have hne := priv_of_mayTake h hd
      have hdelegates : s.delegates j = true := by simp [delegates, hdel, hd, hne]
      simp only [trap, accumulate_delegates, hdelegates, if_true]
      refine ⟨trivial, ?_⟩
      revert hne hl
      cases s.privLvlQ <;> simp [PrivLvl.toBits]
  | false =>
      have hdelegates : s.delegates j = false := by simp [delegates, hdel, hd]
      simp only [trap, accumulate_delegates, hdelegates, Bool.false_eq_true, if_false]
      refine ⟨trivial, ?_⟩
      cases s.privLvlQ <;> simp [PrivLvl.toBits]

/-- What the first pending interrupt is when it is not shadowed. -/
theorem mayTake_irqCause (hs : ¬s.Shadowed i) (hx : s.irqCause i = some x) (hy : s.MayTake i y) :
    s.MayTake i x ∧ ∀ z, s.MayTake i z → z ≠ x → s.Precedes x z := by
  have hpend := irqPending_of_irqCause hx
  have hpend' := hpend
  simp only [irqPending, Bool.and_eq_true] at hpend'
  cases hd : s.midelegQ x with
  | false =>
      -- the interrupt goes to M-mode
      refine ⟨⟨hpend'.1, hpend'.2, ?_⟩, ?_⟩
      · rw [GloballyEnabled, hd]
        cases hdy : s.midelegQ y with
        | false =>
            have hg := hy.2.2
            rwa [GloballyEnabled, hdy] at hg
        | true =>
            have hne := priv_of_mayTake hy hdy
            refine Or.inl ?_
            revert hne
            cases s.privLvlQ <;> simp [PrivLvl.toBits]
      · intro z hz hne
        cases hdz : s.midelegQ z with
        | true => exact Or.inl ⟨hd, hdz⟩
        | false => exact Or.inr ⟨hd.trans hdz.symm,
            rank_lt_of_irqCause hx (irqPending_of_mayTake hz) hne⟩
  | true =>
      -- no interrupt for M-mode may be taken, so all pending interrupts are delegated
      have hnone : ∀ z, s.MayTake i z → s.midelegQ z = true := by
        intro z hz
        by_contra hdz
        rw [Bool.not_eq_true] at hdz
        have hfirst : ∀ y, s.irqPending i y = true → x.rank ≤ y.rank := by
          intro y hy
          by_cases hne : y = x
          · rw [hne]
          · exact (rank_lt_of_irqCause hx hy hne).le
        refine hs ⟨?_, ⟨z, irqPending_of_mayTake hz, hdz⟩, x, hpend, hd, hfirst⟩
        have hg := hz.2.2
        rw [GloballyEnabled, hdz] at hg
        rcases hg with hg | hg
        · refine Or.inl fun hm => ?_
          rw [hm] at hg
          exact absurd hg (by decide)
        · exact Or.inr hg
      have hdy := hnone y hy
      refine ⟨⟨hpend'.1, hpend'.2, ?_⟩, ?_⟩
      · have hg := hy.2.2
        rw [GloballyEnabled, hdy] at hg
        rwa [GloballyEnabled, hd]
      · intro z hz hne
        exact Or.inr ⟨hd.trans (hnone z hz).symm,
          rank_lt_of_irqCause hx (irqPending_of_mayTake hz) hne⟩

theorem not_delivered_of_shadowed (hs : s.Shadowed i) : ¬s.Delivered i := by
  rintro ⟨hvalid, hcause⟩
  obtain ⟨hen, ⟨y, hy, hdy⟩, x, hpend, hdx, hfirst⟩ := hs
  have hx := irqCause_of_first hpend hfirst
  have hmay : s.MayTake i y := by
    simp only [irqPending, Bool.and_eq_true] at hy
    refine ⟨hy.1, hy.2, ?_⟩
    rw [GloballyEnabled, hdy]
    rcases hen with hen | hen
    · refine Or.inl ?_
      revert hen
      cases s.privLvlQ <;> simp [PrivLvl.toBits]
    · exact Or.inr hen
  obtain ⟨x', hx', -, hbest, -⟩ := hcause (hvalid.mpr ⟨y, hmay⟩)
  have hxx : x' = x := Option.some.inj (hx'.symm.trans hx)
  subst hxx
  have hne : y ≠ x' := by
    rintro rfl
    rw [hdx] at hdy
    cases hdy
  rcases hbest y hmay hne with ⟨h1, -⟩ | ⟨h1, -⟩
  · rw [hdx] at h1
    cases h1
  · rw [hdx, hdy] at h1
    cases h1

/-- In every reachable state the interrupt outputs are right exactly if no interrupt for
M-mode stands behind a delegated one. -/
theorem delivered_iff (p : CsrParams) (inp : ℕ → CsRegistersIn) (n : ℕ) (i : CsRegistersIn) :
    (run next (reset p) inp n).Delivered i ↔ ¬(run next (reset p) inp n).Shadowed i := by
  have hk := machineKept_of_run p inp n
  have hl := levels_of_run p inp n
  constructor
  · exact fun hd hs => not_delivered_of_shadowed hs hd
  · intro hs
    refine ⟨irqValid_iff, fun hv => ?_⟩
    obtain ⟨y, hy⟩ := irqValid_iff.mp hv
    obtain ⟨x, hx⟩ := exists_irqCause (irqPending_of_mayTake hy)
    obtain ⟨hmay, hbest⟩ := mayTake_irqCause hs hx hy
    exact ⟨x, hx, hmay, hbest, entersTarget_of_mayTake hk hl.priv hmay⟩

/-- M-mode delegates the external interrupt of S-mode, enables it and the software
interrupt, makes both pending and enables interrupts. -/
def delegateExternal (k : ℕ) : CsRegistersIn :=
  match k with
  | 0 => csrWrite .mideleg 0x200
  | 1 => csrWrite .mie 0x202
  | 2 => csrWrite .mip 0x202
  | _ => csrWrite .mstatus 0x8
where
  csrWrite (c : Csr) (x : BitVec 64) : CsRegistersIn :=
    { quiet with csrAddr := c, csrOp := .write, csrOpEn := true, csrWdata := x }

/-- M-mode is interrupted with a cause that it has delegated. -/
theorem delegated_cause_in_machine_mode :
    (∀ k < 4, (run next (reset defaultParams) delegateExternal k).Env (delegateExternal k)) ∧
      (run next (reset defaultParams) delegateExternal 4).privLvlQ = .m ∧
      (run next (reset defaultParams) delegateExternal 4).irqValid quiet = true ∧
      (run next (reset defaultParams) delegateExternal 4).irqCause quiet = some .externalS ∧
      ¬(run next (reset defaultParams) delegateExternal 4).MayTake quiet .externalS := by
  refine ⟨by decide, by decide, by decide, by decide, ?_⟩
  rw [mayTake_iff]
  decide

end CsRegisters

end Muntjac.Pipeline

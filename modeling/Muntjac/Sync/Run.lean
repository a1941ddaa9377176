import Mathlib.Data.Nat.Init
import Mathlib.Tactic.Common

/-!
# Runs of synchronous machines

A synchronous machine is a next-state function of its registers and of the inputs
of one cycle.  `run` is the sequence of register values under an infinite input
sequence; a finite run is a prefix of it.  The invariant rules below are the only
inductions over cycles that the machine models use: a property of one step, under
a rule that the environment obeys in every cycle so far, becomes a property of
every cycle.

## Main definitions

* `run step s₀ inp n` — the registers after `n` cycles.
* `LastLoad load c n` — `c` is the last cycle before `n` that loads a register.
-/

namespace Muntjac.Sync

variable {σ ι : Type*}

/-- The registers after `n` cycles, from `s₀` under the inputs `inp`. -/
def run (step : σ → ι → σ) (s₀ : σ) (inp : ℕ → ι) : ℕ → σ
  | 0 => s₀
  | n + 1 => step (run step s₀ inp n) (inp n)

@[simp] theorem run_zero (step : σ → ι → σ) (s₀ : σ) (inp : ℕ → ι) :
    run step s₀ inp 0 = s₀ := rfl

theorem run_succ (step : σ → ι → σ) (s₀ : σ) (inp : ℕ → ι) (n : ℕ) :
    run step s₀ inp (n + 1) = step (run step s₀ inp n) (inp n) := rfl

/-- A part of a machine that runs on its own. -/
theorem run_part {τ κ : Type*} {step : σ → ι → σ} {part : τ → κ → τ} (f : σ → τ) (g : ι → κ)
    (h : ∀ s i, f (step s i) = part (f s) (g i)) (s₀ : σ) (inp : ℕ → ι) (n : ℕ) :
    f (run step s₀ inp n) = run part (f s₀) (fun k => g (inp k)) n := by
  induction n with
  | zero => rfl
  | succ n ih => rw [run_succ, run_succ, h, ih]

/-- A register that counts the cycles. -/
theorem run_clock {step : σ → ι → σ} (now : σ → ℕ) (hstep : ∀ s i, now (step s i) = now s + 1)
    {s₀ : σ} (h0 : now s₀ = 0) {inp : ℕ → ι} (n : ℕ) : now (run step s₀ inp n) = n := by
  induction n with
  | zero => exact h0
  | succ n ih => rw [run_succ, hstep, ih]

section Invariant
variable {step : σ → ι → σ} {s₀ : σ} {inp : ℕ → ι}

/-- The invariant rule from an arbitrary cycle on, for a property that may mention
the cycle number and an environment rule that may mention it too. -/
theorem run_invariant_from (Inv : ℕ → σ → Prop) (Env : ℕ → σ → ι → Prop) (t : ℕ)
    (h0 : Inv t (run step s₀ inp t))
    (hstep : ∀ n, t ≤ n → ∀ s i, Inv n s → Env n s i → Inv (n + 1) (step s i)) :
    ∀ n, t ≤ n → (∀ k, t ≤ k → k < n → Env k (run step s₀ inp k) (inp k)) →
      Inv n (run step s₀ inp n) := by
  intro n hn
  induction n, hn using Nat.le_induction with
  | base => intro _; exact h0
  | succ n hn ih =>
      intro henv
      have hprev : Inv n (run step s₀ inp n) := ih fun k hk hkn => henv k hk (by omega)
      rw [run_succ]
      exact hstep n hn _ _ hprev (henv n hn (by omega))

/-- The invariant rule over a whole run. -/
theorem run_invariant (Inv : σ → Prop) (Env : σ → ι → Prop) (h0 : Inv s₀)
    (hstep : ∀ s i, Inv s → Env s i → Inv (step s i)) (n : ℕ)
    (henv : ∀ k < n, Env (run step s₀ inp k) (inp k)) : Inv (run step s₀ inp n) :=
  run_invariant_from (fun _ => Inv) (fun _ => Env) 0 h0
    (fun _ _ s i => hstep s i) n (Nat.zero_le n) fun k _ => henv k

end Invariant

section Load
variable {load : ℕ → Bool} {c n : ℕ}

/-- Cycle `c` is the last one before cycle `n` with a load. -/
structure LastLoad (load : ℕ → Bool) (c n : ℕ) : Prop where
  lt : c < n
  loads : load c = true
  quiet : ∀ k < n, c < k → load k = false

instance : Decidable (LastLoad load c n) :=
  decidable_of_iff (c < n ∧ load c = true ∧ ∀ k < n, c < k → load k = false)
    ⟨fun ⟨a, b, d⟩ => ⟨a, b, d⟩, fun ⟨a, b, d⟩ => ⟨a, b, d⟩⟩

theorem LastLoad.mono (h : LastLoad load c n) {k : ℕ} (hck : c < k) (hkn : k ≤ n) :
    LastLoad load c k :=
  ⟨hck, h.loads, fun m hm => h.quiet m (by omega)⟩

/-- A property that cycles without a load preserve. -/
theorem hold_of_quiet {P : ℕ → Prop} (hold : ∀ k, load k = false → P k → P (k + 1)) {a : ℕ}
    (ha : P a) (han : a ≤ n) (hq : ∀ k < n, a ≤ k → load k = false) : P n := by
  induction n, han using Nat.le_induction with
  | base => exact ha
  | succ n han ih =>
      have hn := ih fun k hk => hq k (by omega)
      exact hold n (hq n (by omega) han) hn

/-- A register keeps what the last load has put into it. -/
theorem LastLoad.eq {f : ℕ → σ} (h : LastLoad load c n)
    (hold : ∀ k, load k = false → f (k + 1) = f k) : f n = f (c + 1) := by
  have hstep : ∀ k, load k = false → f k = f (c + 1) → f (k + 1) = f (c + 1) := by
    intro k hk hf
    rw [hold k hk, hf]
  exact hold_of_quiet hstep rfl h.lt fun k hk hck => h.quiet k hk (by omega)

/-- Either nothing was loaded before, or there is a last load. -/
theorem quiet_or_lastLoad (load : ℕ → Bool) (n : ℕ) :
    (∀ k < n, load k = false) ∨ ∃ c, LastLoad load c n := by
  induction n with
  | zero => exact .inl fun k hk => absurd hk (by omega)
  | succ n ih =>
      cases hn : load n
      · rcases ih with hq | ⟨c, hc⟩
        · refine .inl fun k hk => ?_
          rcases Nat.lt_succ_iff_lt_or_eq.mp hk with hk | rfl
          · exact hq k hk
          · exact hn
        · refine .inr ⟨c, by have := hc.lt; omega, hc.loads, fun k hk hck => ?_⟩
          rcases Nat.lt_succ_iff_lt_or_eq.mp hk with hk | rfl
          · exact hc.quiet k hk hck
          · exact hn
      · exact .inr ⟨n, by omega, hn, fun k hk hck => absurd hk (by omega)⟩

end Load

section Progress

/-- A predicate holds again and again. -/
def Recurs (p : ℕ → Prop) : Prop := ∀ k, ∃ n, k ≤ n ∧ p n

/-- The progress rule: a rank that does not grow while `P` holds, and drops in the cycles
that recur, leads to `Q`. -/
theorem eventually_of_rank {P Q fair : ℕ → Prop} (rank : ℕ → ℕ) (hfair : Recurs fair)
    (hstep : ∀ k, P k → ¬Q k → Q (k + 1) ∨
      (P (k + 1) ∧ rank (k + 1) ≤ rank k ∧ (fair k → rank (k + 1) < rank k)))
    {k : ℕ} (hk : P k) : ∃ n, k ≤ n ∧ Q n := by
  by_contra hnone
  have hQ : ∀ n, k ≤ n → ¬Q n := fun n hn hq => hnone ⟨n, hn, hq⟩
  have hnext : ∀ n, k ≤ n → P n →
      P (n + 1) ∧ rank (n + 1) ≤ rank n ∧ (fair n → rank (n + 1) < rank n) := by
    intro n hn hP
    exact (hstep n hP (hQ n hn)).resolve_left (hQ (n + 1) (by omega))
  have hP : ∀ n, k ≤ n → P n := by
    intro n hn
    induction n, hn using Nat.le_induction with
    | base => exact hk
    | succ n hn ih => exact (hnext n hn ih).1
  have hle : ∀ a n, k ≤ a → a ≤ n → rank n ≤ rank a := by
    intro a n ha hn
    induction n, hn using Nat.le_induction with
    | base => exact Nat.le_refl _
    | succ n hn ih => exact Nat.le_trans (hnext n (by omega) (hP n (by omega))).2.1 ih
  -- the rank would drop without end
  have hdrop : ∀ r, ∃ n, k ≤ n ∧ rank n + r ≤ rank k := by
    intro r
    induction r with
    | zero => exact ⟨k, Nat.le_refl _, Nat.le_refl _⟩
    | succ r ih =>
        obtain ⟨a, ha, hra⟩ := ih
        obtain ⟨n, hn, hf⟩ := hfair a
        have hlt := (hnext n (by omega) (hP n (by omega))).2.2 hf
        have han := hle a n ha hn
        exact ⟨n + 1, by omega, by omega⟩
  obtain ⟨n, -, hn⟩ := hdrop (rank k + 1)
  omega

/-- Whenever `P` holds, `Q` holds then or later. -/
def LeadsTo (P Q : ℕ → Prop) : Prop := ∀ k, P k → ∃ n, k ≤ n ∧ Q n

section LeadsTo
variable {P Q R : ℕ → Prop}

theorem LeadsTo.of_imp (h : ∀ k, P k → Q k) : LeadsTo P Q := fun k hk => ⟨k, Nat.le_refl k, h k hk⟩

/-- One step. -/
theorem LeadsTo.of_next (h : ∀ k, P k → Q (k + 1)) : LeadsTo P Q :=
  fun k hk => ⟨k + 1, by omega, h k hk⟩

theorem LeadsTo.trans (hPQ : LeadsTo P Q) (hQR : LeadsTo Q R) : LeadsTo P R := by
  intro k hk
  obtain ⟨m, hm, hQ⟩ := hPQ k hk
  obtain ⟨n, hn, hR⟩ := hQR m hQ
  exact ⟨n, by omega, hR⟩

/-- A case that has more than one way out. -/
theorem LeadsTo.cases (h : ∀ k, P k → Q k ∨ R k) {S : ℕ → Prop} (hQ : LeadsTo Q S)
    (hR : LeadsTo R S) : LeadsTo P S := by
  intro k hk
  rcases h k hk with hk | hk
  · exact hQ k hk
  · exact hR k hk

/-- The waiting rule: `P` lasts until the event, and the event comes. -/
theorem LeadsTo.of_wait (event : ℕ → Prop) (hstay : ∀ k, P k → ¬event k → P (k + 1))
    (hcome : ∀ k, P k → ∃ n, k ≤ n ∧ event n) : LeadsTo P fun n => P n ∧ event n := by
  intro k hk
  by_contra hnone
  have hP : ∀ n, k ≤ n → P n ∧ ¬event n := by
    intro n hn
    induction n, hn using Nat.le_induction with
    | base => exact ⟨hk, fun he => hnone ⟨k, Nat.le_refl _, hk, he⟩⟩
    | succ n hn ih =>
        have hnext := hstay n ih.1 ih.2
        exact ⟨hnext, fun he => hnone ⟨n + 1, by omega, hnext, he⟩⟩
  obtain ⟨n, hn, he⟩ := hcome k hk
  exact (hP n hn).2 he

/-- The descent rule: from `P` the rank gets smaller sooner or later, or `Q` is reached. -/
theorem LeadsTo.of_descent (rank : ℕ → ℕ)
    (h : ∀ r, LeadsTo (fun k => P k ∧ rank k = r) fun n => Q n ∨ P n ∧ rank n < r) :
    LeadsTo P Q := by
  intro k hk
  induction hr : rank k using Nat.strong_induction_on generalizing k with
  | _ r ih =>
      obtain ⟨n, hn, hQ | ⟨hP, hlt⟩⟩ := h r k ⟨hk, hr⟩
      · exact ⟨n, hn, hQ⟩
      · obtain ⟨m, hm, hQ⟩ := ih _ hlt n hP rfl
        exact ⟨m, by omega, hQ⟩

/-- A rank that gets smaller in every cycle. -/
theorem LeadsTo.of_countdown (rank : ℕ → ℕ)
    (h : ∀ k, P k → Q k ∨ Q (k + 1) ∨ P (k + 1) ∧ rank (k + 1) < rank k) : LeadsTo P Q := by
  refine .of_descent rank fun r k ⟨hk, hr⟩ => ?_
  rcases h k hk with hQ | hQ | ⟨hP, hlt⟩
  · exact ⟨k, Nat.le_refl _, .inl hQ⟩
  · exact ⟨k + 1, by omega, .inl hQ⟩
  · exact ⟨k + 1, by omega, .inr ⟨hP, hr ▸ hlt⟩⟩

end LeadsTo

end Progress

end Muntjac.Sync

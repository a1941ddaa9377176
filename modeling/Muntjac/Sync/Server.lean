import Muntjac.Sync.Run

/-!
# Machines that serve one request at a time

A server is ready or busy.  It takes a request in a cycle in which it is ready and the
input carries one, is busy until it responds, and is ready again with the response.

`Phases` is the proof rule: an invariant for each cycle of the work on a request, kept by
the steps up to the last one, which responds.

## Main definitions

* `Server` — the machine.
* `Server.Serves` — every request has one response, with a given result after a given
  number of cycles, and there are no other responses.
* `Server.Phases` — the invariants of the work on a request.

## Main results

* `Server.Phases.serves` — a server with such invariants serves every request.
* `Server.Phases.of_busy` — a busy server is in one of the phases of a request.
-/

namespace Muntjac.Sync

/-- A machine with a request and a response port. -/
structure Server (σ ι ρ : Type*) where
  step : σ → ι → σ
  ready : σ → Bool
  valid : ι → Bool
  resp : σ → Option ρ

namespace Server
variable {σ ι ρ : Type*} (u : Server σ ι ρ) (s₀ : σ) (inp : ℕ → ι)

/-- The registers after `n` cycles. -/
def after (n : ℕ) : σ := run u.step s₀ inp n

/-- A request is accepted in cycle `n`. -/
def Accepts (n : ℕ) : Prop := u.ready (u.after s₀ inp n) = true ∧ u.valid (inp n) = true

/-- The request of cycle `n` is answered in cycle `m` with `r`, and the server is busy and
silent in between. -/
structure Answers (n m : ℕ) (r : ρ) : Prop where
  lt : n < m
  resp : u.resp (u.after s₀ inp m) = some r
  ready : u.ready (u.after s₀ inp m) = true
  busy : ∀ k, n < k → k < m →
    u.resp (u.after s₀ inp k) = none ∧ u.ready (u.after s₀ inp k) = false

/-- Every request is answered with `result` after `cycles`, and nothing else is answered. -/
structure Serves (result : ι → ρ) (cycles : ι → ℕ) : Prop where
  answers : ∀ inp n, u.Accepts s₀ inp n →
    u.Answers s₀ inp n (n + cycles (inp n)) (result (inp n))
  only : ∀ inp m r, u.resp (u.after s₀ inp m) = some r →
    ∃ n, u.Accepts s₀ inp n ∧ m = n + cycles (inp n) ∧ r = result (inp n)

/-- The work on a request: `phase i k` holds `k` cycles after the request `i` has been
taken, and the cycle after phase `last i` responds. -/
structure Phases (phase : ι → ℕ → σ → Prop) (last : ι → ℕ) (result : ι → ρ) : Prop where
  accept : ∀ s i, u.ready s = true → u.valid i = true → phase i 0 (u.step s i)
  next : ∀ i k s j, phase i k s → k < last i → phase i (k + 1) (u.step s j)
  busy : ∀ i k s, phase i k s → u.resp s = none ∧ u.ready s = false
  finish : ∀ i s j, phase i (last i) s →
    u.resp (u.step s j) = some (result i) ∧ u.ready (u.step s j) = true
  rest : ∀ s i, u.ready s = true → u.valid i = false →
    u.resp (u.step s i) = none ∧ u.ready (u.step s i) = true

variable {u s₀} {inp} {phase : ι → ℕ → σ → Prop} {last : ι → ℕ} {result : ι → ρ}

theorem after_succ (n : ℕ) : u.after s₀ inp (n + 1) = u.step (u.after s₀ inp n) (inp n) := rfl

/-- The phase of an accepted request. -/
theorem Phases.after (h : u.Phases phase last result) {t : ℕ} (hacc : u.Accepts s₀ inp t) (k : ℕ)
    (hk : k ≤ last (inp t)) : phase (inp t) k (u.after s₀ inp (t + 1 + k)) := by
  induction k with
  | zero => exact h.accept _ _ hacc.1 hacc.2
  | succ k ih =>
      rw [show t + 1 + (k + 1) = t + 1 + k + 1 by omega, after_succ]
      exact h.next _ _ _ _ (ih (by omega)) hk

theorem Phases.answers (h : u.Phases phase last result) {t : ℕ} (hacc : u.Accepts s₀ inp t) :
    u.Answers s₀ inp t (t + (last (inp t) + 2)) (result (inp t)) := by
  have hlast := h.finish _ _ (inp (t + 1 + last (inp t))) (h.after hacc _ (Nat.le_refl _))
  rw [← after_succ, show t + 1 + last (inp t) + 1 = t + (last (inp t) + 2) by omega] at hlast
  refine ⟨by omega, hlast.1, hlast.2, fun k hk hkm => ?_⟩
  have hphase := h.after hacc (k - (t + 1)) (by omega)
  rw [show t + 1 + (k - (t + 1)) = k by omega] at hphase
  exact h.busy _ _ _ hphase

variable (inp) in
/-- The server is ready, with an answer or without, or in a phase of a request. -/
theorem Phases.cases (h : u.Phases phase last result) (hready : u.ready s₀ = true)
    (hresp : u.resp s₀ = none) (m : ℕ) :
    (u.ready (u.after s₀ inp m) = true ∧ (u.resp (u.after s₀ inp m) = none ∨
      ∃ t, u.Accepts s₀ inp t ∧ m = t + (last (inp t) + 2))) ∨
    ∃ t k, u.Accepts s₀ inp t ∧ k ≤ last (inp t) ∧ m = t + 1 + k := by
  induction m with
  | zero => exact .inl ⟨hready, .inl hresp⟩
  | succ m ih =>
      rcases ih with ⟨hrdy, -⟩ | ⟨t, k, hacc, hk, rfl⟩
      · cases hv : u.valid (inp m)
        · obtain ⟨hnone, hrdy'⟩ := h.rest _ _ hrdy hv
          exact .inl ⟨hrdy', .inl hnone⟩
        · exact .inr ⟨m, 0, ⟨hrdy, hv⟩, Nat.zero_le _, rfl⟩
      · rcases Nat.lt_or_eq_of_le hk with hlt | rfl
        · exact .inr ⟨t, k + 1, hacc, hlt, by omega⟩
        · have heq : t + 1 + last (inp t) + 1 = t + (last (inp t) + 2) := by omega
          refine .inl ⟨?_, .inr ⟨t, hacc, heq⟩⟩
          rw [heq]
          exact (h.answers hacc).ready

/-- A busy server is in one of the phases of a request. -/
theorem Phases.of_busy (h : u.Phases phase last result) (hready : u.ready s₀ = true)
    (hresp : u.resp s₀ = none) {m : ℕ} (hm : u.ready (u.after s₀ inp m) = false) :
    ∃ t k, u.Accepts s₀ inp t ∧ k ≤ last (inp t) ∧ phase (inp t) k (u.after s₀ inp m) := by
  rcases h.cases inp hready hresp m with ⟨hrdy, -⟩ | ⟨t, k, hacc, hk, rfl⟩
  · rw [hm] at hrdy
    cases hrdy
  · exact ⟨t, k, hacc, hk, h.after hacc k hk⟩

theorem Phases.serves (h : u.Phases phase last result) (hready : u.ready s₀ = true)
    (hresp : u.resp s₀ = none) : u.Serves s₀ result fun i => last i + 2 where
  answers := fun _ _ hacc => h.answers hacc
  only := by
    intro inp m r hr
    rcases h.cases inp hready hresp m with ⟨-, hnone | ⟨t, hacc, rfl⟩⟩ |
      ⟨t, k, hacc, hk, rfl⟩
    · rw [hnone] at hr
      cases hr
    · have hsome := (h.answers hacc).resp
      rw [hr] at hsome
      exact ⟨t, hacc, rfl, Option.some.inj hsome⟩
    · rw [(h.busy _ _ _ (h.after hacc k hk)).1] at hr
      cases hr

end Server

end Muntjac.Sync

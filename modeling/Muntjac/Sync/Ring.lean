import Muntjac.Sync.Numerals
import Mathlib.Logic.Function.Basic
import Mathlib.Order.Basic
import Mathlib.Tactic.Common

/-!
# Rings

Things that are numbered in order live in a ring of `N` slots, each in the slot of its number
modulo `N`.  At any time the numbers in use lie in a window of `N` numbers.

## Main definitions

* `Marks` — a flag for each slot says which numbers of the window are in a set.

## Main results

* `eq_of_slot_eq` — two numbers of a window have different slots.
* `sub_cases` — the distance of two numbers from their slots.
* `Marks.insert`, `Marks.remove` — a flag is set, and the flag of the first number is cleared.
-/

namespace Muntjac.Sync.Ring

variable {α : Type*} {N lo a b n : ℕ}

theorem eq_of_slot_eq (ha : lo ≤ a) (ha' : a < lo + N) (hb : lo ≤ b) (hb' : b < lo + N)
    (h : a % N = b % N) : a = b := by
  have hda := Nat.div_add_mod a N
  have hdb := Nat.div_add_mod b N
  have hq : a / N = b / N := by
    rcases Nat.lt_trichotomy (a / N) (b / N) with hlt | heq | hlt
    · have := Nat.mul_le_mul_left N (Nat.succ_le_of_lt hlt)
      rw [Nat.mul_succ] at this
      omega
    · exact heq
    · have := Nat.mul_le_mul_left N (Nat.succ_le_of_lt hlt)
      rw [Nat.mul_succ] at this
      omega
  rw [← hda, ← hdb, hq, h]

/-- The distance of two numbers of a window from their slots: they lie in one round, or the greater
one in the next. -/
theorem sub_cases (hN : 0 < N) (hab : a ≤ b) (hb : b < a + N) :
    (b / N = a / N ∧ a % N ≤ b % N ∧ b % N - a % N = b - a) ∨
      (b / N = a / N + 1 ∧ N - a % N + b % N = b - a) := by
  have hda := Nat.div_add_mod a N
  have hdb := Nat.div_add_mod b N
  have hra := Nat.mod_lt a hN
  have hrb := Nat.mod_lt b hN
  have hle : a / N ≤ b / N := Nat.div_le_div_right hab
  have hle' : b / N ≤ a / N + 1 := by
    have := Nat.div_le_div_right (c := N) (Nat.le_of_lt hb)
    rwa [Nat.add_div_right _ hN] at this
  rcases Nat.eq_or_lt_of_le hle with hq | hq
  · rw [← hq] at hdb
    exact .inl ⟨hq.symm, by omega, by omega⟩
  · have hq' : b / N = a / N + 1 := by omega
    rw [hq', Nat.mul_add, Nat.mul_one] at hdb
    exact .inr ⟨hq', by omega⟩

/-- A write to the slot of another number of the window. -/
theorem update_of_ne (ha : lo ≤ a) (ha' : a < lo + N) (hb : lo ≤ b) (hb' : b < lo + N)
    (hne : a ≠ b) (g : ℕ → α) (v : α) : Function.update g (b % N) v (a % N) = g (a % N) :=
  Function.update_of_ne (fun h => hne (eq_of_slot_eq ha ha' hb hb' h)) _ _

/-- The flags of the slots are those of the numbers in `S`, which lie in a window. -/
structure Marks (N lo : ℕ) (S : ℕ → Prop) (f : ℕ → Bool) : Prop where
  window : ∀ n, S n → lo ≤ n ∧ n < lo + N
  mark : ∀ k, f k = true ↔ ∃ n, S n ∧ n % N = k

namespace Marks
variable {S T : ℕ → Prop} {f : ℕ → Bool}

theorem empty : Marks N lo (fun _ => False) fun _ => false := ⟨by simp, by simp⟩

theorem congr (h : Marks N lo S f) (hST : ∀ n, S n ↔ T n) : Marks N lo T f :=
  (funext fun n => propext (hST n) : S = T) ▸ h

theorem apply (h : Marks N lo S f) (hn : S n) : f (n % N) = true := (h.mark _).mpr ⟨n, hn, rfl⟩

theorem of_apply (h : Marks N lo S f) (hn : lo ≤ n) (hn' : n < lo + N)
    (hf : f (n % N) = true) : S n := by
  obtain ⟨m, hm, hslot⟩ := (h.mark _).mp hf
  obtain ⟨hle, hlt⟩ := h.window m hm
  exact eq_of_slot_eq hle hlt hn hn' hslot ▸ hm

theorem insert (h : Marks N lo S f) (hn : lo ≤ n) (hn' : n < lo + N) :
    Marks N lo (fun m => S m ∨ m = n) (Function.update f (n % N) true) := by
  refine ⟨fun m hm => ?_, fun k => ?_⟩
  · rcases hm with hm | rfl
    · exact h.window m hm
    · exact ⟨hn, hn'⟩
  · by_cases hk : k = n % N
    · rw [hk, Function.update_self]
      exact ⟨fun _ => ⟨n, .inr rfl, rfl⟩, fun _ => rfl⟩
    · rw [Function.update_of_ne hk, h.mark k]
      constructor
      · rintro ⟨m, hm, hslot⟩
        exact ⟨m, .inl hm, hslot⟩
      · rintro ⟨m, hm | rfl, hslot⟩
        · exact ⟨m, hm, hslot⟩
        · exact absurd hslot.symm hk

/-- The first number of the window leaves it. -/
theorem remove (h : Marks N lo S f) (hlo : S lo) :
    Marks N (lo + 1) (fun m => S m ∧ m ≠ lo) (Function.update f (lo % N) false) := by
  have hwlo := h.window lo hlo
  refine ⟨fun m hm => ?_, fun k => ?_⟩
  · have := h.window m hm.1
    have := hm.2
    omega
  · by_cases hk : k = lo % N
    · rw [hk, Function.update_self]
      refine ⟨fun hf => by simp at hf, fun hm => ?_⟩
      obtain ⟨m, ⟨hm, hne⟩, hslot⟩ := hm
      have hwm := h.window m hm
      exact absurd (eq_of_slot_eq hwm.1 hwm.2 hwlo.1 hwlo.2 hslot) hne
    · rw [Function.update_of_ne hk, h.mark k]
      constructor
      · rintro ⟨m, hm, hslot⟩
        refine ⟨m, ⟨hm, ?_⟩, hslot⟩
        rintro rfl
        exact hk hslot.symm
      · rintro ⟨m, ⟨hm, -⟩, hslot⟩
        exact ⟨m, hm, hslot⟩

end Marks

end Muntjac.Sync.Ring

import Mathlib.Data.List.Induction
import Mathlib.Tactic.Common

/-!
# Chunks of a list

A list cut into groups of `m` elements, with the elements that remain.

## Main results

* `chunks_concat_of_lt`, `chunks_concat_of_eq` — one element more.
* `prefix_chunks` — the groups of the beginning of a list.
* `flatten_chunks` — the groups make up the list.
-/

namespace Muntjac.Sync

variable {α : Type*} {m : ℕ}

/-- The complete groups of `m` elements. -/
def chunks (m : ℕ) (l : List α) : List (List α) :=
  (List.range (l.length / m)).map fun k => (l.drop (k * m)).take m

/-- The elements after the last complete group. -/
def lastChunk (m : ℕ) (l : List α) : List α := l.drop (l.length / m * m)

@[simp] theorem chunks_nil : chunks m ([] : List α) = [] := by simp [chunks]

theorem length_lastChunk (l : List α) : (lastChunk m l).length = l.length % m := by
  have := Nat.div_add_mod' l.length m
  rw [lastChunk, List.length_drop]
  omega

theorem chunks_concat_of_lt {l : List α} (x : α) (h : l.length % m + 1 < m) :
    chunks m (l ++ [x]) = chunks m l ∧ lastChunk m (l ++ [x]) = lastChunk m l ++ [x] := by
  have hdm := Nat.div_add_mod' l.length m
  have hdiv : (l ++ [x]).length / m = l.length / m := by
    rw [List.length_append, List.length_singleton]
    refine Nat.div_eq_of_lt_le (by omega) ?_
    rw [Nat.add_mul, Nat.one_mul]
    omega
  refine ⟨?_, by rw [lastChunk, hdiv, List.drop_append_of_le_length (by omega), lastChunk]⟩
  rw [chunks, chunks, hdiv]
  refine List.map_congr_left fun k hk => ?_
  have hle : (k + 1) * m ≤ l.length / m * m := Nat.mul_le_mul_right m (List.mem_range.mp hk)
  rw [Nat.add_mul, Nat.one_mul] at hle
  rw [List.drop_append_of_le_length (by omega), List.take_append_of_le_length]
  rw [List.length_drop]
  omega

theorem chunks_concat_of_eq (hm : 0 < m) {l : List α} (x : α) (h : l.length % m + 1 = m) :
    chunks m (l ++ [x]) = chunks m l ++ [lastChunk m l ++ [x]] ∧
      lastChunk m (l ++ [x]) = [] := by
  have hdm := Nat.div_add_mod' l.length m
  have hlen : (l ++ [x]).length = (l.length / m + 1) * m := by
    rw [List.length_append, List.length_singleton, Nat.add_mul, Nat.one_mul]
    omega
  have hdiv : (l ++ [x]).length / m = l.length / m + 1 := by
    rw [hlen, Nat.mul_div_cancel _ hm]
  refine ⟨?_, by rw [lastChunk, hdiv, ← hlen, List.drop_length]⟩
  rw [chunks, hdiv, List.range_succ, List.map_append, List.map_singleton]
  congr 1
  · refine List.map_congr_left fun k hk => ?_
    have hle : (k + 1) * m ≤ l.length / m * m := Nat.mul_le_mul_right m (List.mem_range.mp hk)
    rw [Nat.add_mul, Nat.one_mul] at hle
    rw [List.drop_append_of_le_length (by omega), List.take_append_of_le_length]
    rw [List.length_drop]
    omega
  · rw [List.drop_append_of_le_length (by omega), List.take_of_length_le, lastChunk]
    rw [List.length_append, List.length_drop, List.length_singleton]
    omega

/-- The groups of the beginning of a list. -/
theorem prefix_chunks (l r : List α) : chunks m l <+: chunks m (l ++ r) := by
  rcases Nat.eq_zero_or_pos m with rfl | hm
  · simp [chunks]
  · induction r using List.reverseRecOn with
    | nil => simp
    | append_singleton r x ih =>
        rw [← List.append_assoc]
        have hmod := Nat.mod_lt (l ++ r).length hm
        rcases Nat.lt_or_ge ((l ++ r).length % m + 1) m with hlt | hge
        · rwa [(chunks_concat_of_lt x hlt).1]
        · rw [(chunks_concat_of_eq hm x (by omega)).1]
          exact ih.trans (List.prefix_append _ _)

/-- The groups and the rest make up the list. -/
theorem flatten_chunks (hm : 0 < m) (l : List α) : (chunks m l).flatten ++ lastChunk m l = l := by
  induction l using List.reverseRecOn with
  | nil => simp [lastChunk]
  | append_singleton l x ih =>
      rcases Nat.lt_or_ge (l.length % m + 1) m with hlt | hge
      · obtain ⟨h1, h2⟩ := chunks_concat_of_lt (m := m) x hlt
        rw [h1, h2, ← List.append_assoc, ih]
      · have hmod := Nat.mod_lt l.length hm
        obtain ⟨h1, h2⟩ := chunks_concat_of_eq hm (l := l) x (by omega)
        rw [h1, h2, List.flatten_append, List.flatten_singleton, List.append_nil,
          ← List.append_assoc, ih]

theorem lastChunk_of_length {n : ℕ} (hm : 0 < m) {l : List α} (h : l.length = n * m) :
    lastChunk m l = [] := by
  rw [lastChunk, h, Nat.mul_div_cancel _ hm, ← h, List.drop_length]

theorem length_chunks (l : List α) : (chunks m l).length = l.length / m := by
  rw [chunks, List.length_map, List.length_range]

theorem range_prefix {a b : ℕ} (h : a ≤ b) : List.range a <+: List.range b := by
  obtain ⟨d, rfl⟩ := Nat.exists_eq_add_of_le h
  rw [List.range_add]
  exact List.prefix_append _ _

end Muntjac.Sync

import Muntjac.Tl.Sharing

/-!
# Requests and answers by class

The messages of a stream that belong to a class, such as the answers with one source, and the
accounting of a resource that serves one request at a time.

## Main definitions

* `begunIn`, `endedIn` — the messages of a class that have begun, and those that have ended.
* `lowBits`, `highBits` — the parts of an identifier; `cat` joins them.
* `Slot` — requests that are answered one by one, with a register for the one that is not.

## Main results

* `length_begunIn` — a message of the class is on the way, or all that have begun have ended.
* `Slot.push`, `Slot.pop` — a request takes the slot, and its answer frees it.
* `Slot.tracker_step` — one cycle of a tracker with an entry for each value of the low bits.
-/

namespace Muntjac.Tl

open Sync

/-! ## Identifiers -/

/-- `id[w-1:0]`. -/
def lowBits (w id : ℕ) : ℕ := id % 2 ^ w

/-- The rest of the identifier. -/
def highBits (w id : ℕ) : ℕ := id / 2 ^ w

theorem cat_high_low (w id : ℕ) : cat (highBits w id) w (lowBits w id) = id := cat_div_mod id w

theorem lowBits_lt (w id : ℕ) : lowBits w id < 2 ^ w := Nat.mod_lt _ (Nat.two_pow_pos _)

theorem lowBits_cat {w high low : ℕ} (h : low < 2 ^ w) : lowBits w (cat high w low) = low :=
  cat_mod h

theorem highBits_cat {w high low : ℕ} (h : low < 2 ^ w) : highBits w (cat high w low) = high :=
  cat_div h

/-! ## Messages of a class -/

section Class
variable {β γ : Type*} (c : Chan β) (p : BurstParams) (sel : β → Bool)

/-- The first beats of the messages of a class. -/
def begunIn (l : List β) : List β := (begun c p l).filter sel

/-- The last beats of the messages of a class. -/
def endedIn (l : List β) : List β := (ended c p l).filter sel

/-- The number of messages of a class that have begun and not ended. -/
def Pos.open : Pos β → ℕ
  | .idle => 0
  | .busy f _ => if sel f then 1 else 0

variable {c p sel} {l : List β}

@[simp] theorem begunIn_nil : begunIn c p sel [] = [] := rfl

@[simp] theorem endedIn_nil : endedIn c p sel [] = [] := rfl

theorem begunIn_concat (l : List β) (x : β) :
    begunIn c p sel (l ++ [x]) =
      begunIn c p sel l ++ if (posOf c p l).done = 0 ∧ sel x = true then [x] else [] := by
  rw [begunIn, begun_concat, List.filter_append, begunIn]
  by_cases hd : (posOf c p l).done = 0 <;> cases hs : sel x <;> simp [hd, hs]

theorem endedIn_concat (l : List β) (x : β) :
    endedIn c p sel (l ++ [x]) =
      endedIn c p sel l ++ if (posOf c p l).done = c.len p x ∧ sel x = true then [x] else [] := by
  rw [endedIn, ended_concat, List.filter_append, endedIn]
  by_cases hd : (posOf c p l).done = c.len p x <;> cases hs : sel x <;> simp [hd, hs]

theorem begunIn_prefix {l' : List β} (h : l' <+: l) : begunIn c p sel l' <+: begunIn c p sel l :=
  List.IsPrefix.filter sel <| begun_prefix h

/-- A message of the class is on the way, or all that have begun have ended. -/
theorem length_begunIn {ok : β → Prop} (h : Legal c p ok l)
    (hsel : ∀ x y, c.header x = c.header y → sel x = sel y) :
    (begunIn c p sel l).length = (endedIn c p sel l).length + (posOf c p l).open sel := by
  induction l using List.reverseRecOn with
  | nil => rfl
  | append_singleton l x ih =>
      obtain ⟨hl, hx, -⟩ := h.of_concat
      have hprev := ih hl
      have hvalid := valid_posOf hl
      rw [begunIn_concat, endedIn_concat, posOf_concat, List.length_append, List.length_append]
      by_cases hlast : (posOf c p l).done = c.len p x
      · -- the beat ends its message
        rw [Pos.next_of_last hlast, hlast]
        cases hq : posOf c p l with
        | idle =>
            rw [hq] at hlast hprev
            rw [← hlast, hprev]
            cases hs : sel x <;> simp [Pos.open, Pos.done]
        | busy f n =>
            rw [hq] at hlast hprev hvalid hx
            rw [hprev, ← hlast, hsel x f hx]
            have hn : n ≠ 0 := hvalid.1.ne'
            cases hs : sel f <;> simp [Pos.open, Pos.done, hn, hs]
      · have hnext := Pos.next_of_ne_last hlast hx
        obtain ⟨f, hf, hxf⟩ := hnext
        rw [hf]
        cases hq : posOf c p l with
        | idle =>
            rw [hq] at hprev hlast
            have hlast' : ¬0 = c.len p x := hlast
            rw [hprev]
            cases hs : sel x <;> simp [Pos.open, Pos.done, hs, ← hsel x f hxf, hlast']
        | busy g n =>
            rw [hq] at hprev hvalid hx hlast
            have hn : n ≠ 0 := hvalid.1.ne'
            have hlast' : ¬n = c.len p x := hlast
            have hgf : sel f = sel g := (hsel x f hxf).symm.trans (hsel x g hx)
            rw [hprev]
            cases hs : sel g <;> simp [Pos.open, Pos.done, hn, hs, hgf, hlast']

/-- A map that keeps lengths and classes. -/
theorem begunIn_map {c' : Chan γ} {g : β → γ} {sel' : γ → Bool}
    (hlen : ∀ x, c'.len p (g x) = c.len p x) (hsel : ∀ x, sel' (g x) = sel x) (l : List β) :
    begunIn c' p sel' (l.map g) = (begunIn c p sel l).map g := by
  induction l using List.reverseRecOn with
  | nil => rfl
  | append_singleton l x ih =>
      rw [List.map_append, List.map_singleton, begunIn_concat, begunIn_concat, ih,
        posOf_map hlen, Pos.done_map, hsel]
      split_ifs <;> simp

end Class

/-! ## One request at a time -/

/-- The requests of a resource, of which `done` are answered; `busy` holds the one that is
not. -/
def Slot {α : Type*} (reqs : List α) (done : ℕ) : Option α → Prop
  | none => reqs.length = done
  | some v => ∃ before, reqs = before ++ [v] ∧ before.length = done

namespace Slot
variable {α : Type*} {reqs : List α} {done : ℕ} {busy : Option α}

theorem empty : Slot ([] : List α) 0 none := rfl

theorem push (h : Slot reqs done none) (v : α) : Slot (reqs ++ [v]) done (some v) :=
  ⟨reqs, rfl, h⟩

theorem pop {v : α} (h : Slot reqs done (some v)) : Slot reqs (done + 1) none := by
  obtain ⟨before, rfl, hlen⟩ := h
  change (before ++ [v]).length = _
  rw [List.length_append, List.length_singleton, hlen]

/-- At most one request is not answered. -/
theorem length_le (h : Slot reqs done busy) : reqs.length ≤ done + 1 := by
  cases busy with
  | none =>
      have hlen : reqs.length = done := h
      omega
  | some v =>
      have hlen : reqs.length = done + 1 := h.pop
      omega

/-- All requests are answered exactly if the slot is free. -/
theorem eq_none_iff (h : Slot reqs done busy) : busy = none ↔ reqs.length = done := by
  cases busy with
  | none => exact iff_of_true rfl h
  | some v =>
      have hlen : reqs.length = done + 1 := h.pop
      exact iff_of_false (by simp) (by omega)

/-- A request that is not answered is the one in the register. -/
theorem of_lt (h : Slot reqs done busy) (hlt : done < reqs.length) :
    ∃ v before, busy = some v ∧ reqs = before ++ [v] ∧ before.length = done := by
  cases busy with
  | none =>
      have hlen : reqs.length = done := h
      omega
  | some v =>
      obtain ⟨before, hreqs, hlen⟩ := h
      exact ⟨v, before, rfl, hreqs, hlen⟩

end Slot

/-! ## Trackers -/

/-- The entries of a tracker hold the high bits of the identifiers in use.  An entry is removed
first and added then. -/
def nextTracker (w : ℕ) (t : ℕ → Option ℕ) (starts frees : Option ℕ) (k : ℕ) : Option ℕ :=
  if starts.any (fun id => lowBits w id == k) then starts.map (highBits w)
  else if frees = some k then none
  else t k

/-- The identifier that holds an entry. -/
def heldIn (w : ℕ) (t : ℕ → Option ℕ) (k : ℕ) : Option ℕ := (t k).map fun high => cat high w k

section Tracker
variable {w : ℕ} {t : ℕ → Option ℕ} {starts frees : Option ℕ} {k : ℕ}

theorem heldIn_of_start {id : ℕ} (h : starts = some id) :
    heldIn w (nextTracker w t starts frees) (lowBits w id) = some id := by
  rw [heldIn, nextTracker, h, Option.any_some, beq_self_eq_true, if_pos rfl, Option.map_some,
    Option.map_some, cat_high_low]

theorem any_of_not_start (h : ∀ id, starts = some id → lowBits w id ≠ k) :
    starts.any (fun id => lowBits w id == k) = false := by
  cases starts with
  | none => rfl
  | some id =>
      rw [Option.any_some, beq_eq_false_iff_ne]
      exact h id rfl

theorem heldIn_of_free (h : ∀ id, starts = some id → lowBits w id ≠ k) (hf : frees = some k) :
    heldIn w (nextTracker w t starts frees) k = none := by
  rw [heldIn, nextTracker, any_of_not_start h, if_neg Bool.false_ne_true, if_pos hf]
  rfl

theorem heldIn_of_keep (h : ∀ id, starts = some id → lowBits w id ≠ k) (hf : frees ≠ some k) :
    heldIn w (nextTracker w t starts frees) k = heldIn w t k := by
  rw [heldIn, nextTracker, any_of_not_start h, if_neg Bool.false_ne_true, if_neg hf]
  rfl

/-- One cycle of an entry, where requests begin only if it is free and answers only free what is
held. -/
theorem Slot.tracker_step {reqs : List ℕ} {done : ℕ} (h : Slot reqs done (heldIn w t k))
    (hstarts : ∀ id, starts = some id → t (lowBits w id) = none)
    (hfrees : frees = some k → ∃ v, heldIn w t k = some v) :
    Slot (reqs ++ (starts.filter fun id => lowBits w id == k).toList)
      (done + if frees = some k then 1 else 0) (heldIn w (nextTracker w t starts frees) k) := by
  by_cases hs : ∃ id, starts = some id ∧ lowBits w id = k
  · -- a request takes the entry
    obtain ⟨id, hid, rfl⟩ := hs
    have hnone : heldIn w t (lowBits w id) = none := by
      rw [heldIn, hstarts id hid]
      rfl
    have hf : frees ≠ some (lowBits w id) := fun hf => by
      obtain ⟨v, hv⟩ := hfrees hf
      rw [hnone] at hv
      cases hv
    rw [hnone] at h
    rw [if_neg hf, Nat.add_zero, heldIn_of_start hid, hid, Option.filter_some, beq_self_eq_true]
    exact h.push id
  · have hne : ∀ id, starts = some id → lowBits w id ≠ k := fun id hid hk => hs ⟨id, hid, hk⟩
    have hfilter : starts.filter (fun id => lowBits w id == k) = none := by
      rw [Option.filter_eq_none_iff]
      intro id hid hk
      exact hne id hid (beq_iff_eq.mp hk)
    rw [hfilter, Option.toList_none, List.append_nil]
    by_cases hf : frees = some k
    · -- an answer frees it
      obtain ⟨v, hv⟩ := hfrees hf
      rw [hv] at h
      rw [if_pos hf, heldIn_of_free hne hf]
      exact h.pop
    · rw [if_neg hf, Nat.add_zero, heldIn_of_keep hne hf]
      exact h

end Tracker

end Muntjac.Tl

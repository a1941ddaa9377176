import Mathlib.Data.List.Induction
import Mathlib.Tactic.Common
import Muntjac.Tl.Burst
import Muntjac.Tl.Msg

/-!
# Beats and messages

A message with data is transferred as several beats that repeat its header.  A channel is
followed by the position of its next beat: at the beginning of a message, or inside one.

## Main definitions

* `Chan` — what the burst tracker sees of a channel.
* `Pos` — the position of the next beat, `posOf` after a stream of beats.
* `IsMessage` — the beats of one message.
* `Legal` — every beat of a stream fits its position.

## Main results

* `Tracks.idx_eq`, `Tracks.first_eq`, `Tracks.last_eq` — what the burst tracker shows.
* `Legal.exists_messages` — a legal stream is a sequence of messages and the beginning of one.
-/

namespace Muntjac.Tl

/-- A channel: the parts of a beat that repeat, and what they say about the length. -/
structure Chan (β : Type*) where
  header : β → β
  hasData : β → Bool
  size : β → ℕ
  hasData_header : ∀ x, hasData (header x) = hasData x
  size_header : ∀ x, size (header x) = size x

def AMsg.header (m : AMsg) : AMsg := { m with mask := 0, corrupt := false, data := 0 }

def CMsg.header (m : CMsg) : CMsg := { m with corrupt := false, data := 0 }

def DMsg.header (m : DMsg) : DMsg := { m with corrupt := false, data := 0 }

theorem AMsg.address_of_header {x y : AMsg} (h : x.header = y.header) : x.address = y.address :=
  (AMsg.mk.injEq .. ▸ h).2.2.2.2.1

theorem CMsg.address_of_header {x y : CMsg} (h : x.header = y.header) : x.address = y.address :=
  (CMsg.mk.injEq .. ▸ h).2.2.2.2.1

theorem DMsg.source_of_header {x y : DMsg} (h : x.header = y.header) : x.source = y.source :=
  (DMsg.mk.injEq .. ▸ h).2.2.2.1

theorem AMsg.source_of_header {x y : AMsg} (h : x.header = y.header) : x.source = y.source :=
  (AMsg.mk.injEq .. ▸ h).2.2.2.1

theorem CMsg.source_of_header {x y : CMsg} (h : x.header = y.header) : x.source = y.source :=
  (CMsg.mk.injEq .. ▸ h).2.2.2.1

theorem DMsg.opcode_of_header {x y : DMsg} (h : x.header = y.header) : x.opcode = y.opcode :=
  (DMsg.mk.injEq .. ▸ h).1

def chanA : Chan AMsg where
  header := AMsg.header
  hasData m := m.opcode.hasData
  size := AMsg.size
  hasData_header _ := rfl
  size_header _ := rfl

def chanC : Chan CMsg where
  header := CMsg.header
  hasData m := m.opcode.hasData
  size := CMsg.size
  hasData_header _ := rfl
  size_header _ := rfl

def chanD : Chan DMsg where
  header := DMsg.header
  hasData m := m.opcode.hasData
  size := DMsg.size
  hasData_header _ := rfl
  size_header _ := rfl

/-- Channels B and E have no messages with data. -/
def chanB : Chan BMsg where
  header := id
  hasData _ := false
  size := BMsg.size
  hasData_header _ := rfl
  size_header _ := rfl

def chanE : Chan EMsg where
  header := id
  hasData _ := false
  size _ := 0
  hasData_header _ := rfl
  size_header _ := rfl

namespace Chan
variable {β : Type*} (c : Chan β) (p : BurstParams)

/-- The number of beats after the first one. -/
def len (x : β) : ℕ := Burst.len p (c.hasData x) (c.size x)

theorem len_of_header {x y : β} (h : c.header x = c.header y) : c.len p x = c.len p y := by
  rw [len, len, ← c.hasData_header x, ← c.size_header x, h, c.hasData_header, c.size_header]

theorem size_of_header {x y : β} (h : c.header x = c.header y) : c.size x = c.size y := by
  rw [← c.size_header x, h, c.size_header]

theorem len_lt (x : β) : c.len p x < 2 ^ p.lenWidth := Burst.len_lt p _ _

/-- The beats of one message. -/
structure IsMessage (l : List β) : Prop where
  header : ∀ x ∈ l, ∀ y ∈ l, c.header x = c.header y
  length : ∀ x ∈ l, l.length = c.len p x + 1
  ne_nil : l ≠ []

end Chan

/-- The position of the next beat of a channel: the beginning of a message, or inside the
message that began with `first`, of which `done` beats have been transferred. -/
inductive Pos (β : Type*)
  | idle
  | busy (first : β) (done : ℕ)
  deriving Repr

namespace Pos
variable {β : Type*} (c : Chan β) (p : BurstParams)

/-- The index of the next beat in its message. -/
def done : Pos β → ℕ
  | idle => 0
  | busy _ n => n

/-- The beat fits the position. -/
def Accepts : Pos β → β → Prop
  | idle, _ => True
  | busy f _, x => c.header x = c.header f

instance [DecidableEq β] (q : Pos β) (x : β) : Decidable (q.Accepts c x) :=
  match q with
  | idle => isTrue trivial
  | busy f _ => inferInstanceAs (Decidable (c.header x = c.header f))

/-- The position after a beat. -/
def next (q : Pos β) (x : β) : Pos β :=
  if q.done = c.len p x then idle
  else match q with
    | idle => busy x 1
    | busy f n => busy f (n + 1)

/-- The position makes sense: the message has begun and is not complete. -/
def Valid : Pos β → Prop
  | idle => True
  | busy f n => 0 < n ∧ n ≤ c.len p f

variable {c p} {q : Pos β} {x : β}

theorem done_le (hq : q.Valid c p) (hx : q.Accepts c x) : q.done ≤ c.len p x := by
  cases q with
  | idle => exact Nat.zero_le _
  | busy f n =>
      rw [c.len_of_header p hx]
      exact hq.2

theorem valid_next (hq : q.Valid c p) (hx : q.Accepts c x) : (q.next c p x).Valid c p := by
  unfold next
  split_ifs with hd
  · trivial
  · have hle := done_le hq hx
    cases q with
    | idle =>
        simp only [done] at hd hle
        exact ⟨Nat.one_pos, by omega⟩
    | busy f n =>
        simp only [done, c.len_of_header p hx] at hd hle
        exact ⟨Nat.succ_pos n, by omega⟩

theorem next_of_last (h : q.done = c.len p x) : q.next c p x = idle := if_pos h

/-- The position after a beat that is not the last one. -/
theorem next_of_ne_last (h : q.done ≠ c.len p x) (hx : q.Accepts c x) :
    ∃ f, q.next c p x = busy f (q.done + 1) ∧ c.header x = c.header f := by
  unfold next
  rw [if_neg h]
  cases q with
  | idle => exact ⟨x, rfl, rfl⟩
  | busy f n => exact ⟨f, rfl, hx⟩

end Pos

section Streams
variable {β : Type*} (c : Chan β) (p : BurstParams)

/-- The position after a stream of beats. -/
def posOf (l : List β) : Pos β := l.foldl (Pos.next c p) .idle

@[simp] theorem posOf_nil : posOf c p [] = .idle := rfl

theorem posOf_concat (l : List β) (x : β) : posOf c p (l ++ [x]) = (posOf c p l).next c p x := by
  simp [posOf]

theorem posOf_append (l m : List β) : posOf c p (l ++ m) = m.foldl (Pos.next c p) (posOf c p l) :=
  List.foldl_append

/-- Where every message is one beat, the channel is always between messages. -/
theorem posOf_of_len {l : List β} (h : ∀ x, c.len p x = 0) : posOf c p l = .idle := by
  induction l using List.reverseRecOn with
  | nil => rfl
  | append_singleton l x ih =>
      rw [posOf_concat, ih]
      exact if_pos (h x).symm

/-- Every beat of the stream fits its position and satisfies `ok`. -/
def Legal (ok : β → Prop) (l : List β) : Prop :=
  ∀ m x, m ++ [x] <+: l → (posOf c p m).Accepts c x ∧ ok x

variable {c p} {ok : β → Prop} {l : List β}

theorem Legal.nil : Legal c p ok [] := by
  intro m x h
  simpa using h.length_le

theorem legal_of_len (h : ∀ x, c.len p x = 0) (l : List β) : Legal c p (fun _ => True) l :=
  fun m x _ => ⟨by rw [posOf_of_len c p h]; trivial, trivial⟩

theorem Legal.concat {x : β} (h : Legal c p ok l) (hx : (posOf c p l).Accepts c x) (hok : ok x) :
    Legal c p ok (l ++ [x]) := by
  intro m y hm
  rcases Nat.lt_or_ge m.length l.length with hlt | hge
  · refine h m y (List.prefix_of_prefix_length_le hm (List.prefix_append _ _) ?_)
    rw [List.length_append, List.length_singleton]
    omega
  · have hlen := hm.length_le
    simp only [List.length_append, List.length_singleton] at hlen
    have heq := hm.eq_of_length (by simp only [List.length_append, List.length_singleton]; omega)
    obtain ⟨rfl, hxy⟩ := List.append_inj' heq rfl
    rw [List.singleton_inj] at hxy
    exact hxy ▸ ⟨hx, hok⟩

theorem mem_of_posOf {f : β} {n : ℕ} (h : posOf c p l = .busy f n) : f ∈ l := by
  induction l using List.reverseRecOn generalizing n with
  | nil => cases h
  | append_singleton l x ih =>
      rw [posOf_concat] at h
      unfold Pos.next at h
      split_ifs at h
      cases hq : posOf c p l with
      | idle =>
          rw [hq] at h
          cases h
          simp
      | busy g k =>
          rw [hq] at h
          cases h
          exact List.mem_append_left _ (ih hq)

/-- Beats with one header are messages one after the other. -/
theorem legal_of_header (h : ∀ x ∈ l, ∀ y ∈ l, c.header x = c.header y) :
    Legal c p (fun _ => True) l := by
  intro m x hm
  refine ⟨?_, trivial⟩
  have hmem : ∀ y ∈ m ++ [x], y ∈ l := fun y hy => hm.subset hy
  cases hq : posOf c p m with
  | idle => trivial
  | busy f n => exact h x (hmem x (by simp)) f (hmem f (List.mem_append_left _ (mem_of_posOf hq)))

theorem Legal.of_concat {x : β} (h : Legal c p ok (l ++ [x])) :
    Legal c p ok l ∧ (posOf c p l).Accepts c x ∧ ok x :=
  ⟨fun m y hm => h m y (hm.trans (List.prefix_append _ _)), h l x List.prefix_rfl⟩

theorem Legal.of_prefix {l' : List β} (h : Legal c p ok l) (hl : l' <+: l) : Legal c p ok l' :=
  fun m y hm => h m y (hm.trans hl)

theorem Legal.ok_of_mem (h : Legal c p ok l) {x : β} (hx : x ∈ l) : ok x := by
  obtain ⟨m, n, rfl⟩ := List.append_of_mem hx
  exact (h m x ⟨n, by simp⟩).2

theorem valid_posOf (h : Legal c p ok l) : (posOf c p l).Valid c p := by
  induction l using List.reverseRecOn with
  | nil => trivial
  | append_singleton l x ih =>
      obtain ⟨hl, hx, -⟩ := h.of_concat
      rw [posOf_concat]
      exact Pos.valid_next (ih hl) hx

/-- The beats of a message that is not complete. -/
def Pos.Holds (c : Chan β) (q : Pos β) (part : List β) : Prop :=
  match q with
  | .idle => part = []
  | .busy f n => part.length = n ∧ f ∈ part ∧ ∀ x ∈ part, c.header x = c.header f

namespace Pos.Holds
variable {q : Pos β} {part : List β} {x : β}

theorem length_eq (h : q.Holds c part) : part.length = q.done := by
  cases q with
  | idle =>
      rw [show part = [] from h]
      rfl
  | busy f n => exact h.1

/-- All beats have the header of the next one. -/
theorem header_eq (h : q.Holds c part) (hx : q.Accepts c x) :
    ∀ y ∈ part ++ [x], c.header y = c.header x := by
  intro y hy
  rcases List.mem_append.mp hy with hy | hy
  · cases q with
    | idle =>
        rw [show part = [] from h] at hy
        simp at hy
    | busy f n => exact (h.2.2 y hy).trans hx.symm
  · rw [List.mem_singleton.mp hy]

/-- The last beat completes the message. -/
theorem isMessage (h : q.Holds c part) (hx : q.Accepts c x) (hlast : q.done = c.len p x) :
    c.IsMessage p (part ++ [x]) where
  header y hy z hz := by rw [h.header_eq hx y hy, h.header_eq hx z hz]
  length y hy := by
    rw [c.len_of_header p (h.header_eq hx y hy), ← hlast, List.length_append, h.length_eq]
    rfl
  ne_nil := by simp

/-- Another beat continues the message. -/
theorem next (h : q.Holds c part) (hx : q.Accepts c x) (hlast : q.done ≠ c.len p x) :
    (q.next c p x).Holds c (part ++ [x]) := by
  have hhead := h.header_eq hx
  have hlen := h.length_eq
  unfold Pos.next
  rw [if_neg hlast]
  cases q with
  | idle =>
      refine ⟨?_, by simp, hhead⟩
      rw [List.length_append, hlen]
      rfl
  | busy f n =>
      refine ⟨?_, List.mem_append.mpr (.inl h.2.1), fun y hy => (hhead y hy).trans hx⟩
      rw [List.length_append, hlen]
      rfl

end Pos.Holds

/-- A legal stream is a sequence of messages and the beginning of one more. -/
theorem Legal.exists_messages (h : Legal c p ok l) :
    ∃ (ms : List (List β)) (part : List β), l = ms.flatten ++ part ∧
      (∀ m ∈ ms, c.IsMessage p m) ∧ (posOf c p l).Holds c part := by
  induction l using List.reverseRecOn with
  | nil => exact ⟨[], [], rfl, by simp, rfl⟩
  | append_singleton l x ih =>
      obtain ⟨hl, hx, -⟩ := h.of_concat
      obtain ⟨ms, part, hms, hm, hpart⟩ := ih hl
      rw [posOf_concat]
      by_cases hlast : (posOf c p l).done = c.len p x
      · refine ⟨ms ++ [part ++ [x]], [], by simp [hms], fun m hm' => ?_,
          by rw [Pos.next_of_last hlast]; rfl⟩
        rcases List.mem_append.mp hm' with hm' | hm'
        · exact hm m hm'
        · rw [List.mem_singleton.mp hm']
          exact hpart.isMessage hx hlast
      · exact ⟨ms, part ++ [x], by simp [hms], hm, hpart.next hx hlast⟩

/-! ## The burst tracker -/

/-- The counter of the burst tracker belongs to the position. -/
def Tracks (c : Chan β) (p : BurstParams) (b : Burst) (q : Pos β) : Prop :=
  ∀ x, q.Accepts c x → Burst.Counts p b (c.len p x) q.done

theorem tracks_reset : Tracks c p (Burst.reset p) .idle := fun _ _ => Burst.counts_reset p _

section Tracked
variable {b : Burst} {q : Pos β} {x : β}

theorem Tracks.idx_eq (h : Tracks c p b q) (hx : q.Accepts c x) :
    Burst.idx p b (c.hasData x) (c.size x) = q.done := (h x hx).idx_eq

theorem Tracks.left_eq (h : Tracks c p b q) (hx : q.Accepts c x) :
    Burst.left p b (c.hasData x) (c.size x) = c.len p x - q.done := (h x hx).left_eq

theorem Tracks.last_eq (h : Tracks c p b q) (hx : q.Accepts c x) :
    Burst.last p b (c.hasData x) (c.size x) = decide (q.done = c.len p x) := (h x hx).last_eq

theorem Tracks.first_eq (h : Tracks c p b q) (hx : q.Accepts c x) :
    Burst.first p b = decide (q.done = 0) := (h x hx).first_eq (c.len_lt p x)

theorem Tracks.next (h : Tracks c p b q) (hx : q.Accepts c x) :
    Tracks c p (b.next p (c.hasData x) (c.size x)) (q.next c p x) := by
  have hcount := h x hx
  intro y hy
  by_cases hlast : q.done = c.len p x
  · rw [Pos.next_of_last hlast]
    rw [hlast] at hcount
    exact hcount.next_last _
  · obtain ⟨f, hnext, hf⟩ := Pos.next_of_ne_last hlast hx
    rw [hnext] at hy ⊢
    have hxy : c.header y = c.header x := Eq.trans hy hf.symm
    rw [c.len_of_header p hxy]
    exact hcount.next_lt (lt_of_le_of_ne hcount.1 hlast)

/-- The counter after a cycle in which a beat may be transferred. -/
theorem Tracks.step {l : List β} (h : Tracks c p b (posOf c p l)) {o : Option β}
    (hl : Legal c p ok (l ++ o.toList)) :
    Tracks c p (o.elim b fun x => b.next p (c.hasData x) (c.size x))
      (posOf c p (l ++ o.toList)) := by
  cases o with
  | none => simpa using h
  | some x =>
      rw [Option.toList_some] at hl ⊢
      rw [posOf_concat]
      exact h.next hl.of_concat.2.1

end Tracked

end Streams

end Muntjac.Tl

import Muntjac.Sync.Chunks
import Muntjac.Tl.Beats

/-!
# Streams of messages

What is counted or translated in a stream depends on the beat and on its index in its message.
`perBeat` collects such contributions, and a stream that is cut into messages gives them message
by message.

## Main definitions

* `perBeat` — the contributions of the beats of a stream.
* `begun`, `ended` — the first beats of the messages, and the last beats.
* `messages`, `rest` — the complete messages, and the beats after them.
* `numbered` — the beats with the numbers of their messages.

## Main results

* `perBeat_messages`, `perBeat_part` — message by message, and inside one message.
* `Legal.exists_parts` — a legal stream and the position after its last, incomplete message.
-/

namespace Muntjac.Tl

variable {β γ : Type*} (c : Chan β) (p : BurstParams)

/-- The contributions of beats that begin at position `q`. -/
def perBeatFrom (f : β → ℕ → List γ) : Pos β → List β → List γ
  | _, [] => []
  | q, x :: l => f x q.done ++ perBeatFrom f (q.next c p x) l

/-- The contributions of the beats of a stream; `f` sees a beat and its index in its message. -/
def perBeat (f : β → ℕ → List γ) (l : List β) : List γ := perBeatFrom c p f .idle l

/-- The first beats of the messages. -/
def begun (l : List β) : List β := perBeat c p (fun x i => if i = 0 then [x] else []) l

/-- The last beats of the messages. -/
def ended (l : List β) : List β := perBeat c p (fun x i => if i = c.len p x then [x] else []) l

variable {c p} {f : β → ℕ → List γ} {l : List β}

@[simp] theorem perBeat_nil : perBeat c p f [] = [] := rfl

@[simp] theorem begun_nil : begun c p ([] : List β) = [] := rfl

@[simp] theorem ended_nil : ended c p ([] : List β) = [] := rfl

theorem perBeatFrom_append (q : Pos β) (l m : List β) :
    perBeatFrom c p f q (l ++ m) =
      perBeatFrom c p f q l ++ perBeatFrom c p f (l.foldl (Pos.next c p) q) m := by
  induction l generalizing q with
  | nil => rfl
  | cons x l ih => rw [List.cons_append, perBeatFrom, perBeatFrom, ih, List.append_assoc]; rfl

theorem perBeat_append (l m : List β) :
    perBeat c p f (l ++ m) = perBeat c p f l ++ perBeatFrom c p f (posOf c p l) m :=
  perBeatFrom_append _ l m

theorem perBeat_concat (l : List β) (x : β) :
    perBeat c p f (l ++ [x]) = perBeat c p f l ++ f x (posOf c p l).done := by
  rw [perBeat_append, perBeatFrom, perBeatFrom, List.append_nil]

theorem perBeat_prefix {l' : List β} (h : l' <+: l) : perBeat c p f l' <+: perBeat c p f l := by
  obtain ⟨m, rfl⟩ := h
  rw [perBeat_append]
  exact List.prefix_append _ _

theorem begun_concat (l : List β) (x : β) :
    begun c p (l ++ [x]) = begun c p l ++ if (posOf c p l).done = 0 then [x] else [] :=
  perBeat_concat l x

theorem ended_concat (l : List β) (x : β) :
    ended c p (l ++ [x]) =
      ended c p l ++ if (posOf c p l).done = c.len p x then [x] else [] :=
  perBeat_concat l x

theorem begun_prefix {l' : List β} (h : l' <+: l) : begun c p l' <+: begun c p l :=
  perBeat_prefix h

theorem mem_of_mem_begun {x : β} (h : x ∈ begun c p l) : x ∈ l := by
  induction l using List.reverseRecOn with
  | nil => exact h
  | append_singleton l y ih =>
      rw [begun_concat] at h
      rcases List.mem_append.mp h with h | h
      · exact List.mem_append_left _ (ih h)
      · split_ifs at h
        · exact List.mem_append_right _ h
        · simp at h

/-! ## Inside a message -/

/-- Beats of one message, which may not be complete. -/
structure Chan.IsPart (c : Chan β) (p : BurstParams) (l : List β) : Prop where
  header : ∀ x ∈ l, ∀ y ∈ l, c.header x = c.header y
  length : ∀ x ∈ l, l.length ≤ c.len p x

theorem Chan.isPart_nil : c.IsPart p ([] : List β) := ⟨by simp, by simp⟩

theorem Pos.Holds.accepts {q : Pos β} {part : List β} {x : β} (h : q.Holds c part)
    (hx : ∀ y ∈ part, c.header x = c.header y) : q.Accepts c x := by
  cases q with
  | idle => trivial
  | busy g n => exact hx g h.2.1

/-- The beats of a message that is not complete. -/
theorem Pos.Holds.isPart {q : Pos β} {part : List β} (h : q.Holds c part) (hv : q.Valid c p) :
    c.IsPart p part := by
  cases q with
  | idle =>
      rw [show part = [] from h]
      exact Chan.isPart_nil
  | busy g n =>
      obtain ⟨hlen, hg, hheader⟩ := h
      refine ⟨fun x hx y hy => by rw [hheader x hx, hheader y hy], fun x hx => ?_⟩
      rw [hlen, c.len_of_header p (hheader x hx)]
      exact hv.2

/-- The position inside a message. -/
theorem Chan.IsPart.holds (h : c.IsPart p l) : (posOf c p l).Holds c l := by
  induction l using List.reverseRecOn with
  | nil => rfl
  | append_singleton l x ih =>
      have hmem : ∀ y ∈ l, y ∈ l ++ [x] := fun y hy => List.mem_append_left _ hy
      have hlen := h.length x (by simp)
      rw [List.length_append, List.length_singleton] at hlen
      have hpart : c.IsPart p l := by
        refine ⟨fun y hy z hz => h.header y (hmem y hy) z (hmem z hz), fun y hy => ?_⟩
        rw [c.len_of_header p (h.header y (hmem y hy) x (by simp))]
        omega
      have hpos := ih hpart
      have hx := hpos.accepts fun y hy => h.header x (by simp) y (hmem y hy)
      rw [posOf_concat]
      refine hpos.next hx ?_
      rw [← hpos.length_eq]
      omega

theorem Chan.IsPart.done_eq (h : c.IsPart p l) : (posOf c p l).done = l.length :=
  h.holds.length_eq.symm

/-- All beats but the last one of a message, which may be the only one. -/
theorem Chan.IsPart.of_concat {x : β} (h : ∀ y ∈ l ++ [x], ∀ z ∈ l ++ [x], c.header y = c.header z)
    (hlen : l.length ≤ c.len p x) : c.IsPart p l := by
  have hmem : ∀ y ∈ l, y ∈ l ++ [x] := fun y hy => List.mem_append_left _ hy
  refine ⟨fun y hy z hz => h y (hmem y hy) z (hmem z hz), fun y hy => ?_⟩
  rw [c.len_of_header p (h y (hmem y hy) x (by simp))]
  exact hlen

/-- A message without its last beat. -/
theorem Chan.IsMessage.exists_concat (h : c.IsMessage p l) :
    ∃ part x, l = part ++ [x] ∧ c.IsPart p part ∧ part.length = c.len p x := by
  have hne := h.ne_nil
  cases l using List.reverseRecOn with
  | nil => exact absurd rfl hne
  | append_singleton part x =>
      have hlen := h.length x (by simp)
      rw [List.length_append, List.length_singleton] at hlen
      exact ⟨part, x, rfl, .of_concat h.header (by omega), by omega⟩

/-- A message is complete after its last beat. -/
theorem Chan.IsMessage.posOf_eq (h : c.IsMessage p l) : posOf c p l = .idle := by
  obtain ⟨part, x, rfl, hpart, hlen⟩ := h.exists_concat
  rw [posOf_concat]
  refine Pos.next_of_last ?_
  rw [hpart.done_eq, hlen]

theorem perBeat_part (h : c.IsPart p l) :
    perBeat c p f l = l.zipIdx.flatMap fun a => f a.1 a.2 := by
  induction l using List.reverseRecOn with
  | nil => rfl
  | append_singleton l x ih =>
      have hlen := h.length x (by simp)
      rw [List.length_append, List.length_singleton] at hlen
      have hpart : c.IsPart p l := .of_concat h.header (by omega)
      rw [perBeat_concat, ih hpart, hpart.done_eq, List.zipIdx_append, List.flatMap_append]
      simp

/-- The contributions of beats of one message, which may be complete. -/
theorem perBeat_of_header (hh : ∀ x ∈ l, ∀ y ∈ l, c.header x = c.header y)
    (hlen : ∀ x ∈ l, l.length ≤ c.len p x + 1) :
    perBeat c p f l = l.zipIdx.flatMap fun a => f a.1 a.2 := by
  cases l using List.reverseRecOn with
  | nil => rfl
  | append_singleton l x =>
      have hx := hlen x (by simp)
      rw [List.length_append, List.length_singleton] at hx
      have hpart : c.IsPart p l := .of_concat hh (by omega)
      rw [perBeat_concat, perBeat_part hpart, hpart.done_eq, List.zipIdx_append,
        List.flatMap_append]
      simp

theorem perBeat_message (h : c.IsMessage p l) :
    perBeat c p f l = l.zipIdx.flatMap fun a => f a.1 a.2 :=
  perBeat_of_header h.header fun x hx => (h.length x hx).le

/-! ## Message by message -/

section Messages
variable {ms : List (List β)} {part : List β}

/-- Streams that end between messages. -/
theorem posOf_flatten (hms : ∀ m ∈ ms, posOf c p m = .idle) (part : List β) :
    posOf c p (ms.flatten ++ part) = posOf c p part := by
  induction ms with
  | nil => rfl
  | cons m ms ih =>
      rw [List.flatten_cons, List.append_assoc, posOf_append, hms m (by simp)]
      exact ih fun m hm => hms m (by simp [hm])

theorem perBeat_flatten (hms : ∀ m ∈ ms, posOf c p m = .idle) (part : List β) :
    perBeat c p f (ms.flatten ++ part) = ms.flatMap (perBeat c p f) ++ perBeat c p f part := by
  induction ms with
  | nil => rfl
  | cons m ms ih =>
      rw [List.flatten_cons, List.append_assoc, perBeat_append, hms m (by simp),
        List.flatMap_cons, List.append_assoc]
      congr 1
      exact ih fun m hm => hms m (by simp [hm])

theorem posOf_messages (hms : ∀ m ∈ ms, c.IsMessage p m) (part : List β) :
    posOf c p (ms.flatten ++ part) = posOf c p part :=
  posOf_flatten (fun m hm => (hms m hm).posOf_eq) part

theorem perBeat_messages (hms : ∀ m ∈ ms, c.IsMessage p m) (part : List β) :
    perBeat c p f (ms.flatten ++ part) = ms.flatMap (perBeat c p f) ++ perBeat c p f part :=
  perBeat_flatten (fun m hm => (hms m hm).posOf_eq) part

theorem begun_part (h : c.IsPart p l) : begun c p l = l.take 1 := by
  rw [begun, perBeat_part h]
  cases l with
  | nil => rfl
  | cons x l =>
      rw [List.zipIdx_cons, List.flatMap_cons, List.flatMap_eq_nil_iff.mpr]
      · simp
      · intro a ha
        have := List.le_snd_of_mem_zipIdx ha
        rw [if_neg (by omega)]

theorem begun_message (h : c.IsMessage p l) : begun c p l = l.take 1 := by
  rw [begun, perBeat_message h]
  cases l with
  | nil => rfl
  | cons x l =>
      rw [List.zipIdx_cons, List.flatMap_cons, List.flatMap_eq_nil_iff.mpr]
      · simp
      · intro a ha
        have := List.le_snd_of_mem_zipIdx ha
        rw [if_neg (by omega)]

theorem begun_messages (hms : ∀ m ∈ ms, c.IsMessage p m) (hpart : c.IsPart p part) :
    begun c p (ms.flatten ++ part) = ms.flatMap (List.take 1) ++ part.take 1 := by
  rw [begun, perBeat_messages hms]
  change ms.flatMap (begun c p) ++ begun c p part = _
  rw [begun_part hpart]
  congr 1
  rw [List.flatMap_def, List.flatMap_def, List.map_congr_left fun m hm => begun_message (hms m hm)]

/-- A legal stream, cut into messages, with the position inside the last one. -/
theorem Legal.exists_parts {ok : β → Prop} (h : Legal c p ok l) :
    ∃ (ms : List (List β)) (part : List β), l = ms.flatten ++ part ∧
      (∀ m ∈ ms, c.IsMessage p m) ∧ c.IsPart p part ∧ (∀ m ∈ ms, ∀ x ∈ m, ok x) ∧
      ∀ x ∈ part, ok x := by
  obtain ⟨ms, part, hl, hms, hpart⟩ := h.exists_messages
  refine ⟨ms, part, hl, hms, hpart.isPart (valid_posOf h), fun m hm x hx => h.ok_of_mem ?_,
    fun x hx => h.ok_of_mem ?_⟩
  · rw [hl]
    exact List.mem_append_left _ (List.mem_flatten.mpr ⟨m, hm, hx⟩)
  · rw [hl]
    exact List.mem_append_right _ hx

end Messages

/-! ## The messages of a stream -/

section Cut

/-- The complete messages, and the beats after them. -/
def cut (c : Chan β) (p : BurstParams) (l : List β) : List (List β) × List β :=
  l.foldl
    (fun a x => if a.2.length = c.len p x then (a.1 ++ [a.2 ++ [x]], []) else (a.1, a.2 ++ [x]))
    ([], [])

def messages (c : Chan β) (p : BurstParams) (l : List β) : List (List β) := (cut c p l).1

def rest (c : Chan β) (p : BurstParams) (l : List β) : List β := (cut c p l).2

@[simp] theorem messages_nil : messages c p ([] : List β) = [] := rfl

@[simp] theorem rest_nil : rest c p ([] : List β) = [] := rfl

theorem messages_concat (l : List β) (x : β) :
    messages c p (l ++ [x]) =
      messages c p l ++ if (rest c p l).length = c.len p x then [rest c p l ++ [x]] else [] := by
  rw [messages, cut, List.foldl_append, List.foldl_cons, List.foldl_nil]
  change (if (rest c p l).length = c.len p x then _ else _ : List (List β) × List β).1 = _
  split_ifs
  · rfl
  · simp [messages, cut]

theorem rest_concat (l : List β) (x : β) :
    rest c p (l ++ [x]) =
      if (rest c p l).length = c.len p x then [] else rest c p l ++ [x] := by
  rw [rest, cut, List.foldl_append, List.foldl_cons, List.foldl_nil]
  change (if (rest c p l).length = c.len p x then _ else _ : List (List β) × List β).2 = _
  split_ifs <;> rfl

theorem messages_prefix {l' : List β} (h : l' <+: l) : messages c p l' <+: messages c p l := by
  obtain ⟨m, rfl⟩ := h
  induction m using List.reverseRecOn with
  | nil =>
      exact ⟨[], by rw [List.append_nil, List.append_nil]⟩
  | append_singleton m x ih =>
      rw [← List.append_assoc, messages_concat]
      exact ih.trans (List.prefix_append _ _)

theorem done_posOf (l : List β) : (posOf c p l).done = (rest c p l).length := by
  induction l using List.reverseRecOn with
  | nil => rfl
  | append_singleton l x ih =>
      rw [posOf_concat, rest_concat, ← ih]
      unfold Pos.next
      split_ifs
      · rfl
      · rw [List.length_append, ← ih]
        cases posOf c p l <;> simp [Pos.done]

/-- A request has begun for every complete one, and for the one on the way. -/
theorem length_begun (l : List β) :
    (begun c p l).length = (messages c p l).length + if rest c p l = [] then 0 else 1 := by
  induction l using List.reverseRecOn with
  | nil => rfl
  | append_singleton l x ih =>
      rw [begun_concat, messages_concat, rest_concat, List.length_append, List.length_append, ih,
        done_posOf]
      by_cases hr : rest c p l = []
      · rw [hr, List.length_nil]
        by_cases hlen : 0 = c.len p x
        · simp [hlen.symm]
        · simp [hlen]
      · have hpos := List.length_pos_of_ne_nil hr
        by_cases hlen : (rest c p l).length = c.len p x
        · simp [hr, hlen]
          omega
        · simp [hr, hlen]

theorem Legal.holds_rest {ok : β → Prop} (h : Legal c p ok l) :
    (posOf c p l).Holds c (rest c p l) := by
  induction l using List.reverseRecOn with
  | nil => rfl
  | append_singleton l x ih =>
      obtain ⟨hl, hx, -⟩ := h.of_concat
      rw [posOf_concat, rest_concat, ← done_posOf]
      by_cases hlast : (posOf c p l).done = c.len p x
      · rw [Pos.next_of_last hlast, if_pos hlast]
        rfl
      · rw [if_neg hlast]
        exact (ih hl).next hx hlast

theorem Legal.isMessage {ok : β → Prop} (h : Legal c p ok l) :
    ∀ m ∈ messages c p l, c.IsMessage p m := by
  induction l using List.reverseRecOn with
  | nil => simp
  | append_singleton l x ih =>
      obtain ⟨hl, hx, -⟩ := h.of_concat
      intro m hm
      rw [messages_concat, List.mem_append] at hm
      rcases hm with hm | hm
      · exact ih hl m hm
      · split_ifs at hm with hlast
        · rw [List.mem_singleton.mp hm]
          exact hl.holds_rest.isMessage hx ((done_posOf l).trans hlast)
        · simp at hm

/-- A map that keeps the lengths of messages. -/
theorem cut_map {γ : Type*} {c' : Chan γ} {g : β → γ} (hlen : ∀ x ∈ l, c'.len p (g x) = c.len p x) :
    messages c' p (l.map g) = (messages c p l).map (List.map g) ∧
      rest c' p (l.map g) = (rest c p l).map g := by
  induction l using List.reverseRecOn with
  | nil => exact ⟨rfl, rfl⟩
  | append_singleton l x ih =>
      obtain ⟨hm, hr⟩ := ih fun y hy => hlen y (List.mem_append_left _ hy)
      rw [List.map_append, List.map_singleton, messages_concat, rest_concat, messages_concat,
        rest_concat, hm, hr, List.length_map, hlen x (by simp)]
      split_ifs <;> simp

/-- The beats with the numbers of their messages. -/
def numbered (c : Chan β) (p : BurstParams) (l : List β) : List (β × ℕ) :=
  l.zipIdx.map fun a => (a.1, (messages c p (l.take a.2)).length)

@[simp] theorem numbered_nil : numbered c p ([] : List β) = [] := rfl

theorem numbered_concat (l : List β) (x : β) :
    numbered c p (l ++ [x]) = numbered c p l ++ [(x, (messages c p l).length)] := by
  unfold numbered
  rw [List.zipIdx_append, List.map_append]
  congr 1
  · refine List.map_congr_left fun a ha => ?_
    have hlt := List.snd_lt_of_mem_zipIdx ha
    rw [List.take_append_of_le_length (by omega)]
  · simp

/-- A map that sees the number of the message and keeps the lengths. -/
theorem length_rest_numbered {g : β → ℕ → β} (hg : ∀ x k, c.len p (g x k) = c.len p x)
    (l : List β) :
    (rest c p ((numbered c p l).map fun a => g a.1 a.2)).length = (rest c p l).length := by
  induction l using List.reverseRecOn with
  | nil => rfl
  | append_singleton l x ih =>
      rw [numbered_concat, List.map_append, List.map_singleton, rest_concat, rest_concat, ih, hg]
      split_ifs
      · rfl
      · rw [List.length_append, List.length_append, ih]
        rfl

theorem begun_numbered {g : β → ℕ → β} (hg : ∀ x k, c.len p (g x k) = c.len p x) (l : List β) :
    begun c p ((numbered c p l).map fun a => g a.1 a.2) =
      (begun c p l).zipIdx.map fun a => g a.1 a.2 := by
  induction l using List.reverseRecOn with
  | nil => rfl
  | append_singleton l x ih =>
      rw [numbered_concat, List.map_append, List.map_singleton, begun_concat, begun_concat, ih,
        done_posOf, length_rest_numbered hg, done_posOf, List.zipIdx_append, List.map_append]
      by_cases hr : (rest c p l).length = 0
      · have hlen := length_begun (c := c) (p := p) l
        rw [if_pos (List.length_eq_zero_iff.mp hr), Nat.add_zero] at hlen
        rw [if_pos hr, if_pos hr, hlen]
        simp
      · rw [if_neg hr, if_neg hr]
        rfl

end Cut

/-! ## Messages of the same length -/

section Chunks
variable {m : ℕ} {H : ℕ → β} {ds : List β}

/-- Beats in groups of `m`: those of group `k` have the header `H k`, and `m` is the number of
beats that this header asks for. -/
structure Grouped (c : Chan β) (p : BurstParams) (m : ℕ) (H : ℕ → β) (ds : List β) : Prop where
  header : ∀ (i : ℕ) y, ds[i]? = some y → c.header y = H (i / m)
  length : ∀ (i : ℕ) y, ds[i]? = some y → c.len p y + 1 = m
  pos : 0 < m

namespace Grouped

theorem getElem?_chunk (h : Grouped c p m H ds) {k j : ℕ} {y : β}
    (hy : ((ds.drop (k * m)).take m)[j]? = some y) :
    c.header y = H k ∧ c.len p y + 1 = m := by
  rw [List.getElem?_take] at hy
  split_ifs at hy with hj
  rw [List.getElem?_drop] at hy
  have hheader := h.header _ _ hy
  rw [Nat.mul_comm, Nat.mul_add_div h.pos, Nat.div_eq_of_lt hj, Nat.add_zero] at hheader
  exact ⟨hheader, h.length _ _ hy⟩

theorem isMessage (h : Grouped c p m H ds) {k : ℕ} (hk : k < ds.length / m) :
    c.IsMessage p ((ds.drop (k * m)).take m) := by
  have hle : (k + 1) * m ≤ ds.length :=
    (Nat.mul_le_mul_right m hk).trans (Nat.div_mul_le_self _ _)
  rw [Nat.add_mul, Nat.one_mul] at hle
  have hlen : ((ds.drop (k * m)).take m).length = m := by
    rw [List.length_take, List.length_drop]
    omega
  have hpos := h.pos
  refine ⟨fun x hx y hy => ?_, fun x hx => ?_, fun hnil => ?_⟩
  · obtain ⟨i, hi⟩ := List.getElem?_of_mem hx
    obtain ⟨j, hj⟩ := List.getElem?_of_mem hy
    rw [(h.getElem?_chunk hi).1, (h.getElem?_chunk hj).1]
  · obtain ⟨i, hi⟩ := List.getElem?_of_mem hx
    rw [hlen, (h.getElem?_chunk hi).2]
  · rw [hnil, List.length_nil] at hlen
    omega

theorem isMessage_of_mem (h : Grouped c p m H ds) {g : List β} (hg : g ∈ Sync.chunks m ds) :
    c.IsMessage p g := by
  obtain ⟨k, hk, rfl⟩ := List.mem_map.mp hg
  exact h.isMessage (List.mem_range.mp hk)

theorem header_lastChunk (h : Grouped c p m H ds) {y : β} (hy : y ∈ Sync.lastChunk m ds) :
    c.header y = H (ds.length / m) ∧ c.len p y + 1 = m := by
  obtain ⟨i, hi⟩ := List.getElem?_of_mem hy
  have hlt : i < m := by
    obtain ⟨hlen, -⟩ := List.getElem?_eq_some_iff.mp hi
    have := Sync.length_lastChunk (m := m) ds
    have := Nat.mod_lt ds.length h.pos
    omega
  refine h.getElem?_chunk (k := ds.length / m) (j := i) ?_
  rw [List.getElem?_take, if_pos hlt]
  exact hi

theorem isPart_lastChunk (h : Grouped c p m H ds) : c.IsPart p (Sync.lastChunk m ds) := by
  refine ⟨fun x hx y hy => ?_, fun x hx => ?_⟩
  · rw [(h.header_lastChunk hx).1, (h.header_lastChunk hy).1]
  · have := (h.header_lastChunk hx).2
    have hmod := Nat.mod_lt ds.length h.pos
    rw [Sync.length_lastChunk]
    omega

/-- The position is between two groups if the last group is complete. -/
theorem posOf_eq (h : Grouped c p m H ds) {n : ℕ} (hn : ds.length = n * m) :
    posOf c p ds = .idle := by
  rw [← Sync.flatten_chunks h.pos ds, posOf_messages fun g hg => h.isMessage_of_mem hg,
    Sync.lastChunk_of_length h.pos hn, posOf_nil]

theorem length_begun (h : Grouped c p m H ds) {n : ℕ} (hn : ds.length = n * m) :
    (begun c p ds).length = n := by
  conv_lhs => rw [← Sync.flatten_chunks h.pos ds]
  rw [begun_messages (fun g hg => h.isMessage_of_mem hg) h.isPart_lastChunk,
    Sync.lastChunk_of_length h.pos hn, List.take_nil, List.append_nil, List.length_flatMap,
    List.map_congr_left fun g hg => (show (g.take 1).length = 1 from ?_), List.map_const',
    List.sum_replicate_nat, Nat.mul_one, Sync.length_chunks, hn, Nat.mul_div_cancel _ h.pos]
  have hlen := List.length_pos_of_ne_nil (h.isMessage_of_mem hg).ne_nil
  rw [List.length_take]
  omega

/-- The headers of the groups that have begun. -/
theorem begun_prefix (h : Grouped c p m H ds) {n : ℕ} (hn : ds.length ≤ n * m) :
    (begun c p ds).map c.header <+: (List.range n).map H := by
  have hpos := h.pos
  have hdm := Nat.div_add_mod' ds.length m
  have hmod := Nat.mod_lt ds.length hpos
  have hbegun : (begun c p ds).map c.header =
      (List.range (ds.length / m)).map H ++ ((Sync.lastChunk m ds).take 1).map c.header := by
    conv_lhs => rw [← Sync.flatten_chunks hpos ds]
    rw [begun_messages (fun g hg => h.isMessage_of_mem hg) h.isPart_lastChunk, List.map_append]
    congr 1
    rw [Sync.chunks, List.flatMap_map, List.map_flatMap, List.map_eq_flatMap, List.flatMap_def,
      List.flatMap_def]
    congr 1
    refine List.map_congr_left fun k hk => ?_
    have hmsg := h.isMessage (List.mem_range.mp hk)
    cases hg : (ds.drop (k * m)).take m with
    | nil => exact absurd hg hmsg.ne_nil
    | cons y g =>
        have hy : ((ds.drop (k * m)).take m)[0]? = some y := by rw [hg]; rfl
        simp [(h.getElem?_chunk hy).1]
  have hq : ds.length / m ≤ n := by
    refine Nat.le_of_mul_le_mul_right ?_ hpos
    omega
  rw [hbegun]
  cases hl : Sync.lastChunk m ds with
  | nil =>
      rw [List.take_nil, List.map_nil, List.append_nil]
      exact (Sync.range_prefix hq).map H
  | cons y l =>
      have hlen := Sync.length_lastChunk (m := m) ds
      rw [hl, List.length_cons] at hlen
      have hq' : ds.length / m + 1 ≤ n := by
        by_contra hle
        have heq : n = ds.length / m := by omega
        rw [heq] at hn
        omega
      have hhead := (h.header_lastChunk (y := y) (by rw [hl]; simp)).1
      rw [List.take_succ_cons, List.take_zero, List.map_singleton, hhead, ← List.map_singleton,
        ← List.map_append, ← List.range_succ]
      exact (Sync.range_prefix hq').map H

end Grouped

end Chunks

end Muntjac.Tl

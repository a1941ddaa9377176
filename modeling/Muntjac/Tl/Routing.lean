import Muntjac.Tl.Sharing

/-!
# Routing

Sockets route messages by tables of ranges of addresses, sources or sinks, and a
demultiplexer hands every beat to the link that its table gives.

## Main definitions

* `Range`, `route` — a table, and the link that it gives to an identifier.
* `Owns` — what a table without overlap says.
* `demux`, `demuxReady` — the demultiplexer.
-/

namespace Muntjac.Tl

open Sync

/-- One range of a routing table: the identifiers that agree with `base` outside `mask`. -/
structure Range where
  base : ℕ
  mask : ℕ
  link : ℕ
  deriving DecidableEq, Repr

/-- `(id &~ mask) == base`. -/
def Range.Matches (r : Range) (id : ℕ) : Prop := id ^^^ (id &&& r.mask) = r.base

instance (r : Range) (id : ℕ) : Decidable (r.Matches id) := inferInstanceAs (Decidable (_ = _))

/-- The link of the last range that matches, and link 0 without one. -/
def route (table : List Range) (id : ℕ) : ℕ :=
  table.foldl (fun link r => if r.Matches id then r.link else link) 0

/-- No identifier is in two ranges of different links. -/
def NoOverlap (table : List Range) : Prop :=
  ∀ id, ∀ r ∈ table, ∀ r' ∈ table, r.Matches id → r'.Matches id → r.link = r'.link

/-- The link that owns an identifier: that of its range, or link 0 if it has none. -/
structure Owns (table : List Range) (id link : ℕ) : Prop where
  of_match : ∀ r ∈ table, r.Matches id → r.link = link
  of_none : (∀ r ∈ table, ¬r.Matches id) → link = 0

theorem route_concat (table : List Range) (r : Range) (id : ℕ) :
    route (table ++ [r]) id = if r.Matches id then r.link else route table id := by
  rw [route, List.foldl_append]
  rfl

/-- Either no range matches, or the link is that of a range that does. -/
theorem route_cases (table : List Range) (id : ℕ) :
    ((∀ r ∈ table, ¬r.Matches id) ∧ route table id = 0) ∨
      ∃ r ∈ table, r.Matches id ∧ route table id = r.link := by
  induction table using List.reverseRecOn with
  | nil => exact .inl ⟨by simp, rfl⟩
  | append_singleton table r ih =>
      rw [route_concat]
      by_cases hr : r.Matches id
      · rw [if_pos hr]
        exact .inr ⟨r, by simp, hr, rfl⟩
      · rw [if_neg hr]
        rcases ih with ⟨hnone, h0⟩ | ⟨r', hr', hm, hlink⟩
        · refine .inl ⟨fun r' hr' => ?_, h0⟩
          rcases List.mem_append.mp hr' with hr' | hr'
          · exact hnone r' hr'
          · rw [List.mem_singleton.mp hr']
            exact hr
        · exact .inr ⟨r', List.mem_append_left _ hr', hm, hlink⟩

theorem owns_route {table : List Range} (h : NoOverlap table) (id : ℕ) :
    Owns table id (route table id) := by
  rcases route_cases table id with ⟨hnone, h0⟩ | ⟨r, hr, hm, hlink⟩
  · exact ⟨fun r hr hm => absurd hm (hnone r hr), fun _ => h0⟩
  · rw [hlink]
    exact ⟨fun r' hr' hm' => h id r' hr' r hr hm' hm, fun hnone => absurd hm (hnone r hr)⟩

/-- The owner is the link of the table. -/
theorem Owns.route_eq {table : List Range} {id link : ℕ} (h : Owns table id link) :
    route table id = link := by
  rcases route_cases table id with ⟨hnone, h0⟩ | ⟨r, hr, hm, hlink⟩
  · rw [h0, h.of_none hnone]
  · rw [hlink, h.of_match r hr hm]

/-! ## The demultiplexer -/

section Demux
variable {β : Type*} {n : ℕ} (dest : β → ℕ) (x : Option β) (ready : Fin n → Bool)

/-- The beat for link `i`. -/
def demux (i : Fin n) : Option β := x.filter fun x => dest x = i

/-- The ready signal of the link that the beat is for. -/
def demuxReady : Bool := decide (∃ i : Fin n, x.any (fun x => dest x = i) = true ∧ ready i = true)

variable {dest x ready}

/-- A beat is transferred if the link that it is for transfers it. -/
theorem demux_transfer (i : Fin n) :
    (if ready i then demux dest x i else none) =
      (if demuxReady dest x ready then x else none).filter fun x => dest x = i := by
  cases x with
  | none => simp [demux]
  | some y =>
      by_cases hy : dest y = i
      · have hready : demuxReady dest (some y) ready = ready i := by
          rw [demuxReady, Bool.eq_iff_iff, decide_eq_true_eq]
          constructor
          · rintro ⟨j, hj, hr⟩
            have hji : j = i := Fin.ext ((of_decide_eq_true hj).symm.trans hy)
            rwa [hji] at hr
          · exact fun hr => ⟨i, decide_eq_true hy, hr⟩
        rw [hready]
        cases ready i <;> simp [demux]
      · have hnone : demux dest (some y) i = none := by simp [demux, hy]
        rw [hnone, ite_self]
        cases demuxReady dest (some y) ready <;> simp [Option.filter, hy]

/-- Only a beat for one of the links is transferred. -/
theorem lt_of_demuxReady {y : β} (h : demuxReady dest x ready = true) (hx : x = some y) :
    dest y < n := by
  obtain ⟨i, hi, -⟩ := of_decide_eq_true h
  rw [hx] at hi
  rw [show dest y = i from of_decide_eq_true hi]
  exact i.isLt

end Demux

section Stream
variable {β : Type*} {n : ℕ} {dest : β → ℕ} {x : ℕ → Option β} {ready : ℕ → Fin n → Bool}

/-- The beats that a demultiplexer takes, and those that it gives to link `i`. -/
def taken (dest : β → ℕ) (x : ℕ → Option β) (ready : ℕ → Fin n → Bool) (k : ℕ) : Option β :=
  if demuxReady dest (x k) (ready k) then x k else none

def given (dest : β → ℕ) (x : ℕ → Option β) (ready : ℕ → Fin n → Bool) (i : Fin n) (k : ℕ) :
    Option β := if ready k i then demux dest (x k) i else none

theorem stream_given (i : Fin n) (m : ℕ) :
    stream (given dest x ready i) m =
      (stream (taken dest x ready) m).filter fun y => dest y = i := by
  induction m with
  | zero => rfl
  | succ m ih =>
      rw [stream_succ, stream_succ, List.filter_append, ih, given, demux_transfer, taken]
      congr 1
      cases (if demuxReady dest (x m) (ready m) then x m else none) with
      | none => rfl
      | some y => by_cases hy : dest y = i <;> simp [hy]

theorem lt_of_mem_taken {m : ℕ} {y : β} (h : y ∈ stream (taken dest x ready) m) : dest y < n := by
  induction m with
  | zero => simp at h
  | succ m ih =>
      rw [stream_succ] at h
      rcases List.mem_append.mp h with h | h
      · exact ih h
      · rw [taken] at h
        split_ifs at h with hr
        · exact lt_of_demuxReady hr (Option.mem_toList.mp h)
        · simp at h

/-- The messages on the channel are those of the links that they are routed to. -/
theorem shares_demux {c : Chan β} {p : BurstParams} {ok : β → Prop}
    (hdest : ∀ y z, c.header y = c.header z → dest y = dest z) {m : ℕ}
    (h : Legal c p ok (stream (taken dest x ready) m)) :
    Shares c p (fun i => stream (given dest x ready i) m) (stream (taken dest x ready) m) := by
  rcases Nat.eq_zero_or_pos n with rfl | hpos
  · have hnil : stream (taken dest x ready) m = [] :=
      List.eq_nil_iff_forall_not_mem.mpr fun y hy => Nat.not_lt_zero _ (lt_of_mem_taken hy)
    rw [hnil]
    exact ⟨[], .nil, rfl, fun i => i.elim0⟩
  have hmod : ∀ y ∈ stream (taken dest x ready) m, ∀ i : Fin n,
      ((⟨dest y % n, Nat.mod_lt _ hpos⟩ : Fin n) = i ↔ dest y = i) := by
    intro y hy i
    rw [Fin.ext_iff]
    change dest y % n = i ↔ _
    rw [Nat.mod_eq_of_lt (lt_of_mem_taken hy)]
  have hshares := shares_route (fun y => (⟨dest y % n, Nat.mod_lt _ hpos⟩ : Fin n))
    (fun y z hyz => by simp only [hdest y z hyz]) h
  have hparts : (fun i : Fin n => (stream (taken dest x ready) m).filter fun y =>
      (⟨dest y % n, Nat.mod_lt _ hpos⟩ : Fin n) = i) =
        fun i => stream (given dest x ready i) m := by
    funext i
    rw [stream_given]
    exact List.filter_congr fun y hy => by simp only [hmod y hy i]
  rw [← hparts]
  exact hshares

variable (dest) in
/-- A link only gets what is routed to it. -/
theorem dest_eq_of_mem_given {i : Fin n} {m : ℕ} {y : β} (h : y ∈ stream (given dest x ready i) m) :
    dest y = i := by
  rw [stream_given] at h
  exact of_decide_eq_true (List.mem_filter.mp h).2

end Stream

end Muntjac.Tl

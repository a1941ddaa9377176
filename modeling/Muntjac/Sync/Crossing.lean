import Mathlib.Order.Nat
import Muntjac.Sync.Run

/-!
# Counters that cross between clock domains

A queue between two clock domains counts its writes in one domain and its reads in the other.
Each side learns the count of the other side through a relay of registers, so what it sees is an
older count.  The instants at which the clocks tick are arbitrary; both may tick at once.

The counts here are natural numbers that never wrap.  A design with finite pointers is related to
them by its own refinement theorem.

## Main definitions

* `Relay` — the two registers that bring a count into the other domain.
* `Counts` — the two counts and their relays.
* `Counts.Ok` — each view is an older count, and the queue is never over its depth.

## Main results

* `Relay.catches_up` — a count is seen in the end.
* `Counts.Ok.next` — the step lemma of the invariant.
* `Counts.read_leadsTo`, `Counts.free_leadsTo` — what was written is read, and a full queue has
  room again.
-/

namespace Muntjac.Sync

/-! ## Chasing -/

/-- A count that moves again and again while it is behind passes every mark that the count it
follows has passed. -/
theorem chase {a b : ℕ → ℕ} {fair : ℕ → Prop} {i : ℕ} (hfair : Recurs fair)
    (ha : ∀ k, a k ≤ a (k + 1)) (hb : ∀ k, b k ≤ b (k + 1))
    (hmove : ∀ k, fair k → i < a k → b k ≤ i → b k < b (k + 1)) :
    LeadsTo (fun k => i < a k) fun k => i < b k := by
  intro k hk
  refine eventually_of_rank (P := fun n => i < a n) (fun n => i + 1 - b n) hfair
    (fun n hP hQ => ?_) hk
  have hmono := hb n
  have hnext := ha n
  refine .inr ⟨by omega, by omega, fun hf => ?_⟩
  have hlt := hmove n hf hP (by omega)
  omega

/-! ## Relays -/

/-- The two registers that bring a count into another clock domain.  `late` is set while the
next sample may miss the last increment. -/
structure Relay where
  first : ℕ
  second : ℕ
  late : Bool

namespace Relay

def reset : Relay := ⟨0, 0, false⟩

/-- One instant: `edge` is an edge of the clock of the relay, `fresh` says that the sample is the
count and not its last value, and `incr` that the count is incremented. -/
def next (r : Relay) (count : ℕ) (edge fresh incr : Bool) : Relay where
  first := if edge && fresh then count else r.first
  second := if edge then r.first else r.second
  late := incr || (r.late && !edge)

/-- A sample misses the last increment only, and only while it may. -/
def Misses (r : Relay) (count : ℕ) (edge fresh : Bool) : Prop :=
  edge = true → fresh = false → r.late = true ∧ count = r.first + 1

/-- The views are older counts. -/
structure Behind (r : Relay) (count : ℕ) : Prop where
  second_le : r.second ≤ r.first
  first_le : r.first ≤ count

variable {r : Relay} {count : ℕ} {edge fresh incr : Bool}

theorem Behind.next (h : r.Behind count) :
    (r.next count edge fresh incr).Behind (count + incr.toNat) := by
  have h₁ := h.second_le
  have h₂ := h.first_le
  constructor
  · cases edge <;> cases fresh <;> simp only [Relay.next, Bool.and_true, Bool.and_false,
      Bool.false_eq_true, if_true, if_false, Nat.le_refl] <;> assumption
  · cases edge <;> cases fresh <;> simp only [Relay.next, Bool.and_true, Bool.and_false,
      Bool.false_eq_true, if_true, if_false] <;> omega

theorem second_le_next (h : r.Behind count) : r.second ≤ (r.next count edge fresh incr).second := by
  have h₁ := h.second_le
  cases edge
  · exact Nat.le_refl _
  · exact h₁

theorem first_le_next (h : r.Behind count) : r.first ≤ (r.next count edge fresh incr).first := by
  change r.first ≤ if edge && fresh then count else r.first
  split
  · exact h.first_le
  · exact Nat.le_refl _

/-- What the first register still misses of the mark `i`; a sample that may be late counts. -/
def lag (r : Relay) (count i : ℕ) : ℕ :=
  2 * (i + 1 - r.first) + if r.first ≤ i ∧ r.late = true ∧ count = r.first + 1 then 1 else 0

/-- The lag does not grow, and it gets less with every sample. -/
theorem lag_next {i : ℕ} (h : r.Behind count) (hm : r.Misses count edge fresh) (hi : i < count)
    (hr : r.first ≤ i) :
    (r.next count edge fresh incr).lag (count + incr.toNat) i ≤ r.lag count i ∧
      (edge = true →
        (r.next count edge fresh incr).lag (count + incr.toNat) i < r.lag count i) := by
  have h₂ := h.first_le
  cases edge with
  | false =>
      refine ⟨?_, fun hf => absurd hf Bool.false_ne_true⟩
      simp only [lag, next, Bool.false_and, Bool.false_eq_true, if_false, Bool.not_false,
        Bool.and_true]
      cases incr with
      | false => exact Nat.le_refl _
      | true =>
          -- the count is now more than one ahead
          have hfar : ¬count + true.toNat = r.first + 1 := by simp; omega
          rw [if_neg fun hc => hfar hc.2.2]
          omega
  | true =>
      suffices hlt : (r.next count true fresh incr).lag (count + incr.toNat) i < r.lag count i from
        ⟨Nat.le_of_lt hlt, fun _ => hlt⟩
      cases fresh with
      | true =>
          simp only [lag, next, Bool.and_self, if_true]
          rw [if_neg fun hc => absurd hc.1 (by omega)]
          omega
      | false =>
          obtain ⟨hlate, hcount⟩ := hm rfl rfl
          have hold : r.lag count i = 2 * (i + 1 - r.first) + 1 := by
            rw [lag, if_pos ⟨hr, hlate, hcount⟩]
          -- the sample that may be late is used up, unless the count has gone on
          have hnew : (r.next count true false incr).lag (count + incr.toNat) i =
              2 * (i + 1 - r.first) := by
            simp only [lag, next, Bool.and_false, Bool.false_eq_true, if_false, Bool.not_true,
              Bool.or_false]
            rw [if_neg, Nat.add_zero]
            rintro ⟨-, hincr, hc⟩
            rw [hincr, Bool.toNat_true] at hc
            omega
          rw [hold, hnew]
          exact Nat.lt_succ_self _

end Relay

section Run
variable {r : ℕ → Relay} {count : ℕ → ℕ} {edge fresh : ℕ → Bool} (incr : ℕ → Bool)

/-- A count is seen in the end. -/
theorem Relay.catches_up (hnext : ∀ k, r (k + 1) = (r k).next (count k) (edge k) (fresh k) (incr k))
    (hcount : ∀ k, count (k + 1) = count k + (incr k).toNat) (hbehind : ∀ k, (r k).Behind (count k))
    (hmiss : ∀ k, (r k).Misses (count k) (edge k) (fresh k))
    (hedge : Recurs fun k => edge k = true) (i : ℕ) :
    LeadsTo (fun k => i < count k) fun k => i < (r k).second := by
  have hfirst : LeadsTo (fun k => i < count k) fun k => i < (r k).first := by
    intro k hk
    refine eventually_of_rank (P := fun n => i < count n) (fun n => (r n).lag (count n) i) hedge
      (fun n hP hQ => ?_) hk
    refine .inr ⟨by rw [hcount]; omega, ?_⟩
    rw [hnext, hcount]
    exact Relay.lag_next (hbehind n) (hmiss n) hP (Nat.le_of_not_lt hQ)
  refine hfirst.trans (chase hedge (fun k => ?_) (fun k => ?_) fun k hk hi hle => ?_)
  · rw [hnext]
    exact Relay.first_le_next (hbehind k)
  · rw [hnext]
    exact Relay.second_le_next (hbehind k)
  · have hsecond : (r (k + 1)).second = (r k).first := by
      rw [hnext]
      exact if_pos hk
    rw [hsecond]
    exact Nat.lt_of_le_of_lt hle hi

end Run

/-! ## A queue between two domains -/

/-- The counts of a queue and the views of them: the reader sees the writes through `seen`, the
writer sees the reads through `freed` and one more register. -/
structure Counts where
  written : ℕ
  read : ℕ
  seen : Relay
  freed : Relay
  freedQ : ℕ

/-- What happens at one instant. -/
structure Edges where
  write : Bool
  read : Bool
  push : Bool
  pop : Bool
  seenFresh : Bool
  freedFresh : Bool

namespace Counts

def reset : Counts := ⟨0, 0, .reset, .reset, 0⟩

/-- The writer sees room. -/
def CanWrite (depth : ℕ) (c : Counts) : Prop := c.written < c.freedQ + depth

/-- The reader sees an item. -/
def CanRead (c : Counts) : Prop := c.read < c.seen.second

def next (c : Counts) (e : Edges) : Counts where
  written := c.written + e.push.toNat
  read := c.read + e.pop.toNat
  seen := c.seen.next c.written e.read e.seenFresh e.push
  freed := c.freed.next c.read e.write e.freedFresh e.pop
  freedQ := if e.write then c.freed.second else c.freedQ

/-- The rules of an instant: items move at the edges of their clocks when there is room or an
item, and a sample misses an increment only while it may. -/
structure Rule (depth : ℕ) (c : Counts) (e : Edges) : Prop where
  push : e.push = true → c.CanWrite depth
  pop : e.pop = true → c.CanRead
  seen : c.seen.Misses c.written e.read e.seenFresh
  freed : c.freed.Misses c.read e.write e.freedFresh

/-- Every view is an older count, and the writer never overtakes what it sees. -/
structure Ok (depth : ℕ) (c : Counts) : Prop where
  seen : c.seen.Behind c.written
  freed : c.freed.Behind c.read
  read_le : c.read ≤ c.seen.second
  freedQ_le : c.freedQ ≤ c.freed.second
  room : c.written ≤ c.freedQ + depth

theorem Ok.reset (depth : ℕ) : Ok depth Counts.reset :=
  ⟨⟨Nat.le_refl _, Nat.le_refl _⟩, ⟨Nat.le_refl _, Nat.le_refl _⟩, Nat.le_refl _, Nat.le_refl _,
    Nat.zero_le _⟩

variable {depth : ℕ} {c : Counts} {e : Edges}

/-- No item is read before it is written. -/
theorem Ok.read_le_written (h : c.Ok depth) : c.read ≤ c.written :=
  (h.read_le.trans h.seen.second_le).trans h.seen.first_le

/-- What the writer takes for free is free. -/
theorem Ok.freedQ_le_read (h : c.Ok depth) : c.freedQ ≤ c.read :=
  (h.freedQ_le.trans h.freed.second_le).trans h.freed.first_le

/-- The queue never holds more than its depth. -/
theorem Ok.occupancy (h : c.Ok depth) : c.written ≤ c.read + depth :=
  h.room.trans (Nat.add_le_add_right h.freedQ_le_read depth)

theorem freedQ_le_next (h : c.Ok depth) : c.freedQ ≤ (c.next e).freedQ := by
  have := h.freedQ_le
  cases hw : e.write <;> simp [next, hw]
  omega

/-- The step lemma. -/
theorem Ok.next (h : c.Ok depth) (hr : c.Rule depth e) : (c.next e).Ok depth where
  seen := h.seen.next
  freed := h.freed.next
  read_le := by
    have hmono : c.seen.second ≤ (c.next e).seen.second := Relay.second_le_next h.seen
    have hread := h.read_le
    have hcan : e.pop = true → c.read < c.seen.second := hr.pop
    change c.read + e.pop.toNat ≤ (c.next e).seen.second
    cases hp : e.pop
    · simpa using hread.trans hmono
    · exact Nat.le_trans (hcan hp) hmono
  freedQ_le := by
    have hmono : c.freed.second ≤ (c.next e).freed.second := Relay.second_le_next h.freed
    have hle := h.freedQ_le
    change (if e.write then c.freed.second else c.freedQ) ≤ (c.next e).freed.second
    split
    · exact hmono
    · exact hle.trans hmono
  room := by
    have hmono := freedQ_le_next (e := e) h
    have hroom := h.room
    have hcan : e.push = true → c.written < c.freedQ + depth := hr.push
    change c.written + e.push.toNat ≤ (c.next e).freedQ + depth
    cases hp : e.push
    · simpa using hroom.trans (Nat.add_le_add_right hmono depth)
    · have := hcan hp
      rw [Bool.toNat_true]
      omega

end Counts

section Progress
variable {depth : ℕ} {c : ℕ → Counts} {e : ℕ → Edges}

/-- If the reader takes what it sees again and again, all that was written is read. -/
theorem Counts.read_leadsTo (hnext : ∀ k, c (k + 1) = (c k).next (e k))
    (hok : ∀ k, (c k).Ok depth) (hrule : ∀ k, (c k).Rule depth (e k))
    (hfair : Recurs fun k => (e k).read = true ∧ ((c k).CanRead → (e k).pop = true)) (i : ℕ) :
    LeadsTo (fun k => i < (c k).written) fun k => i < (c k).read := by
  have hedge : Recurs fun k => (e k).read = true := fun k => (hfair k).imp fun n h => ⟨h.1, h.2.1⟩
  have hseen : LeadsTo (fun k => i < (c k).written) fun k => i < (c k).seen.second := by
    refine Relay.catches_up (fun k => (e k).push) (fun k => ?_) (fun k => ?_)
      (fun k => (hok k).seen) (fun k => (hrule k).seen) hedge i
    · exact congrArg Counts.seen (hnext k)
    · exact congrArg Counts.written (hnext k)
  refine hseen.trans (chase hfair (fun k => ?_) (fun k => ?_) fun k hk hi hle => ?_)
  · rw [hnext]
    exact Relay.second_le_next (hok k).seen
  · rw [hnext]
    exact Nat.le_add_right _ _
  · have hpop := hk.2 (Nat.lt_of_le_of_lt hle hi)
    rw [hnext, Counts.next, hpop]
    exact Nat.lt_succ_self _

/-- If the clocks keep ticking and the reader takes what it sees, the writer sees room again. -/
theorem Counts.free_leadsTo (hnext : ∀ k, c (k + 1) = (c k).next (e k))
    (hok : ∀ k, (c k).Ok depth) (hrule : ∀ k, (c k).Rule depth (e k))
    (hfair : Recurs fun k => (e k).read = true ∧ ((c k).CanRead → (e k).pop = true))
    (hwrite : Recurs fun k => (e k).write = true) (i : ℕ) :
    LeadsTo (fun k => i < (c k).written) fun k => i < (c k).freedQ := by
  have hread := Counts.read_leadsTo hnext hok hrule hfair i
  have hfreed : LeadsTo (fun k => i < (c k).read) fun k => i < (c k).freed.second := by
    refine Relay.catches_up (fun k => (e k).pop) (fun k => ?_) (fun k => ?_)
      (fun k => (hok k).freed) (fun k => (hrule k).freed) hwrite i
    · exact congrArg Counts.freed (hnext k)
    · exact congrArg Counts.read (hnext k)
  refine hread.trans (hfreed.trans (chase hwrite (fun k => ?_) (fun k => ?_) fun k hk hi hle => ?_))
  · rw [hnext]
    exact Relay.second_le_next (hok k).freed
  · rw [hnext]
    exact Counts.freedQ_le_next (hok k)
  · have hq : (c (k + 1)).freedQ = (c k).freed.second := by
      rw [hnext]
      exact if_pos hk
    rw [hq]
    exact Nat.lt_of_le_of_lt hle hi

end Progress

end Muntjac.Sync

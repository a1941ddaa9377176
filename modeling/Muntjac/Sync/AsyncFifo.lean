import Mathlib.Logic.Function.Basic
import Muntjac.Sync.Crossing
import Muntjac.Sync.GrayPointer
import Muntjac.Sync.Stream

/-!
# The asynchronous FIFO

`prim_fifo_async`: the write port and the read port have clocks of their own.  A run is a sequence
of instants, and at each instant the write clock ticks, the read clock ticks, both do, or none.
The pointers cross through `prim_generic_flop_2sync`, whose first register gets the source
through `prim_cdc_rand_delay`: after a change of the source, some bits of the next sample may be
the bits of the last sample.  Without that instrumentation the select is zero, and the
sample is the source.

## Main definitions

* `Flop2Sync` — a synchroniser.
* `AsyncFifo` — the registers of the FIFO; `AsyncFifo.next` is one instant.
* `AsyncFifo.Rule` — the delay reaches back by one increment at most.

## Main results

* `AsyncFifo.Rep.next` — one instant of the FIFO is one instant of the counts.
-/

namespace Muntjac.Sync

/-! ## Synchronisers -/

/-- `prim_generic_flop_2sync` with its delay: `intq`, `q_o` and `data_sel`. -/
structure Flop2Sync (w : ℕ) where
  intq : BitVec w
  q : BitVec w
  dataSel : BitVec w
  deriving DecidableEq, Repr

namespace Flop2Sync
variable {w : ℕ}

def reset : Flop2Sync w := ⟨0, 0, 0⟩

/-- `dst_data_o` of the delay. -/
def sample (s : Flop2Sync w) (d : BitVec w) : BitVec w := mix s.dataSel s.intq d

/-- One instant.  The source changes from `d` to `d'`; the delay draws its select when the source
changes, and clears it at an edge of the clock. -/
def next (s : Flop2Sync w) (edge : Bool) (d d' sel : BitVec w) : Flop2Sync w where
  intq := if edge then s.sample d else s.intq
  q := if edge then s.intq else s.q
  dataSel := if d = d' then (if edge then 0 else s.dataSel) else sel

end Flop2Sync

/-! ## The FIFO -/

/-- The parameters: `Depth = 2 ** logDepth`, and what is read while there is nothing. -/
structure AsyncParams (α : Type*) where
  logDepth : ℕ
  outputZeroIfEmpty : Bool
  outputZeroIfInvalid : Bool
  zero : α

namespace AsyncParams
variable {α : Type*} (p : AsyncParams α)

def depth : ℕ := 2 ^ p.logDepth

/-- A pointer, of `PTR_WIDTH` bits. -/
abbrev Ptr : Type := BitVec (p.logDepth + 1)

end AsyncParams

structure AsyncFifo {α : Type*} (p : AsyncParams α) where
  wptrQ : p.Ptr
  rptrQ : p.Ptr
  wptrGrayQ : p.Ptr
  rptrGrayQ : p.Ptr
  syncWptr : Flop2Sync (p.logDepth + 1)
  syncRptr : Flop2Sync (p.logDepth + 1)
  rptrSyncQ : p.Ptr
  storage : BitVec p.logDepth → α

/-- An instant: which clocks tick, what the ports are offered, and what the delays draw. -/
structure AsyncIn {α : Type*} (p : AsyncParams α) where
  clkWr : Bool
  clkRd : Bool
  w : Option α
  rready : Bool
  wptrSel : p.Ptr
  rptrSel : p.Ptr

namespace AsyncFifo
variable {α : Type*} {p : AsyncParams α}

/-- Both sides are in reset; the storage has no reset. -/
def reset (storage : BitVec p.logDepth → α) : AsyncFifo p where
  wptrQ := 0
  rptrQ := 0
  wptrGrayQ := 0
  rptrGrayQ := 0
  syncWptr := .reset
  syncRptr := .reset
  rptrSyncQ := 0
  storage

section Signals
variable (s : AsyncFifo p) (i : AsyncIn p)

def wptrSyncCombi : p.Ptr := decPtr s.syncWptr.q

def rptrSyncCombi : p.Ptr := decPtr s.syncRptr.q

def fullWclk : Bool := decide (s.wptrQ = s.rptrSyncQ ^^^ xorMask p.logDepth)

def fullRclk : Bool := decide (s.wptrSyncCombi = s.rptrQ ^^^ xorMask p.logDepth)

def emptyRclk : Bool := decide (s.wptrSyncCombi = s.rptrQ)

def wready : Bool := !s.fullWclk

def rvalid : Bool := !s.emptyRclk

def wdepth : p.Ptr := depthCalc s.fullWclk s.wptrQ s.rptrSyncQ

def rdepth : p.Ptr := depthCalc s.fullRclk s.wptrSyncCombi s.rptrQ

def rdataInt : α := s.storage (s.rptrQ.setWidth p.logDepth)

def rdata : α :=
  if p.outputZeroIfEmpty then
    if p.outputZeroIfInvalid then
      (if s.emptyRclk then p.zero else if s.rvalid then s.rdataInt else p.zero)
    else (if s.emptyRclk then p.zero else s.rdataInt)
  else
    if p.outputZeroIfInvalid then (if s.rvalid then s.rdataInt else p.zero) else s.rdataInt

/-- The item that is written at the instant. -/
def taken : Option α := if i.clkWr && s.wready then i.w else none

/-- The item that is read at the instant. -/
def given : Option α := if i.clkRd && i.rready && s.rvalid then some s.rdata else none

/-- `fifo_incr_wptr` at an edge of the write clock. -/
def incrWptr : Bool := (s.taken i).isSome

/-- `fifo_incr_rptr` at an edge of the read clock. -/
def incrRptr : Bool := i.clkRd && i.rready && s.rvalid

def wptrGrayNext : p.Ptr := if s.incrWptr i then grayPtr (s.wptrQ + 1#_) else s.wptrGrayQ

def rptrGrayNext : p.Ptr := if s.incrRptr i then grayPtr (s.rptrQ + 1#_) else s.rptrGrayQ

/-- One instant. -/
def next : AsyncFifo p where
  wptrQ := if s.incrWptr i then s.wptrQ + 1#_ else s.wptrQ
  rptrQ := if s.incrRptr i then s.rptrQ + 1#_ else s.rptrQ
  wptrGrayQ := s.wptrGrayNext i
  rptrGrayQ := s.rptrGrayNext i
  syncWptr := s.syncWptr.next i.clkRd s.wptrGrayQ (s.wptrGrayNext i) i.wptrSel
  syncRptr := s.syncRptr.next i.clkWr s.rptrGrayQ (s.rptrGrayNext i) i.rptrSel
  rptrSyncQ := if i.clkWr then s.rptrSyncCombi else s.rptrSyncQ
  storage := match s.taken i with
    | some d => Function.update s.storage (s.wptrQ.setWidth p.logDepth) d
    | none => s.storage

end Signals

/-- What is valid is read from the storage, whatever is read otherwise. -/
theorem rdata_of_rvalid {s : AsyncFifo p} (h : s.rvalid = true) : s.rdata = s.rdataInt := by
  have hempty : s.emptyRclk = false := by simpa [rvalid] using h
  simp [rdata, h, hempty]

/-! ## The rule of the delay -/

/-- The sample takes no bits from the last sample, or the last sample is not older than one
increment. -/
def Sampled (f : Flop2Sync (p.logDepth + 1)) (d : p.Ptr) : Prop :=
  f.dataSel = 0 ∨ d = f.intq ∨ decPtr d = decPtr f.intq + 1#_

/-- At each edge of their clocks, the delays reach back by one increment at most. -/
structure Rule (s : AsyncFifo p) (i : AsyncIn p) : Prop where
  wptr : i.clkRd = true → Sampled s.syncWptr s.wptrGrayQ
  rptr : i.clkWr = true → Sampled s.syncRptr s.rptrGrayQ

/-! ## The counts of the FIFO -/

/-- What happens to the counts at an instant; a sample that equals the source is fresh. -/
def edges (s : AsyncFifo p) (i : AsyncIn p) : Edges where
  write := i.clkWr
  read := i.clkRd
  push := s.incrWptr i
  pop := s.incrRptr i
  seenFresh := decide (s.syncWptr.sample s.wptrGrayQ = s.wptrGrayQ)
  freedFresh := decide (s.syncRptr.sample s.rptrGrayQ = s.rptrGrayQ)

/-- A synchroniser holds the codes of the counts in its relay. -/
structure Holds {k : ℕ} (f : Flop2Sync (k + 1)) (r : Relay) : Prop where
  intq : f.intq = gray (ptr k r.first)
  q : f.q = gray (ptr k r.second)
  late : r.late = false → f.dataSel = 0

/-- The registers represent the counts `c` and the items `log` that were written. -/
structure Rep (s : AsyncFifo p) (c : Counts) (log : List α) : Prop where
  ok : c.Ok p.depth
  wptr : s.wptrQ = ptr p.logDepth c.written
  rptr : s.rptrQ = ptr p.logDepth c.read
  wptrGray : s.wptrGrayQ = gray (ptr p.logDepth c.written)
  rptrGray : s.rptrGrayQ = gray (ptr p.logDepth c.read)
  syncWptr : Holds s.syncWptr c.seen
  syncRptr : Holds s.syncRptr c.freed
  rptrSync : s.rptrSyncQ = ptr p.logDepth c.freedQ
  length : log.length = c.written
  stored : ∀ n x, c.read ≤ n → log[n]? = some x → s.storage (BitVec.ofNat _ n) = x

theorem Rep.reset (storage : BitVec p.logDepth → α) : Rep (reset storage) .reset [] where
  ok := Counts.Ok.reset _
  wptr := rfl
  rptr := rfl
  wptrGray := gray_zero.symm
  rptrGray := gray_zero.symm
  syncWptr := ⟨gray_zero.symm, gray_zero.symm, fun _ => rfl⟩
  syncRptr := ⟨gray_zero.symm, gray_zero.symm, fun _ => rfl⟩
  rptrSync := rfl
  length := rfl
  stored := fun _ _ _ h => by simp at h

/-! ### Synchronisers -/

section Holds
variable {k : ℕ} {f : Flop2Sync (k + 1)} {r : Relay} {count : ℕ}

/-- A sample is the code of the count or the last sample, and only an increment is missed. -/
theorem Holds.sample (h : Holds f r) (hb : r.Behind count) (hw : count < r.first + 2 ^ (k + 1))
    (hs : f.dataSel = 0 ∨ gray (ptr k count) = f.intq ∨
      decPtr (gray (ptr k count)) = decPtr f.intq + 1#_) :
    f.sample (gray (ptr k count)) = gray (ptr k count) ∨
      f.sample (gray (ptr k count)) = f.intq ∧ r.late = true ∧ count = r.first + 1 := by
  have hle := hb.first_le
  rw [Flop2Sync.sample]
  by_cases hsel : f.dataSel = 0
  · rw [hsel]
    exact .inl (mix_zero _ _)
  have hlate : r.late = true := by
    by_contra hno
    exact hsel (h.late (eq_false_of_ne_true hno))
  rcases hs with hs | hs | hs
  · exact absurd hs hsel
  · rw [hs]
    exact .inl (mix_self _ _)
  · rw [h.intq, decPtr_gray, decPtr_gray, ptr_add_one] at hs
    by_cases hsame : count = r.first
    · rw [hsame, h.intq]
      exact .inl (mix_self _ _)
    · have hcount : count = r.first + 1 := ((ptr_inj (by omega) (by omega)).mp hs.symm).symm
      have hmix := mix_gray f.dataSel (ptr k r.first)
      rw [ptr_add_one] at hmix
      rw [h.intq, hcount]
      rcases hmix with hmix | hmix
      · exact .inr ⟨hmix, hlate, rfl⟩
      · exact .inl hmix

theorem Holds.misses (h : Holds f r) (hb : r.Behind count) (hw : count < r.first + 2 ^ (k + 1))
    {edge : Bool} (hs : edge = true → f.dataSel = 0 ∨ gray (ptr k count) = f.intq ∨
      decPtr (gray (ptr k count)) = decPtr f.intq + 1#_) :
    r.Misses count edge (decide (f.sample (gray (ptr k count)) = gray (ptr k count))) := by
  intro he hfresh
  exact ((h.sample hb hw (hs he)).resolve_left (of_decide_eq_false hfresh)).2

/-- The step lemma of a synchroniser. -/
theorem Holds.next (h : Holds f r) (hb : r.Behind count) (hw : count < r.first + 2 ^ (k + 1))
    {edge : Bool} (hs : edge = true → f.dataSel = 0 ∨ gray (ptr k count) = f.intq ∨
      decPtr (gray (ptr k count)) = decPtr f.intq + 1#_) (sel : BitVec (k + 1)) (incr : Bool) :
    Holds (f.next edge (gray (ptr k count)) (gray (ptr k (count + incr.toNat))) sel)
      (r.next count edge (decide (f.sample (gray (ptr k count)) = gray (ptr k count))) incr) where
  intq := by
    simp only [Flop2Sync.next, Relay.next]
    cases edge with
    | false => exact h.intq
    | true =>
        rw [if_pos rfl, Bool.true_and]
        rcases h.sample hb hw (hs rfl) with hfresh | ⟨hold, -, -⟩
        · rw [decide_eq_true hfresh, if_pos rfl, hfresh]
        · by_cases hfresh : f.sample (gray (ptr k count)) = gray (ptr k count)
          · rw [decide_eq_true hfresh, if_pos rfl, hfresh]
          · rw [decide_eq_false hfresh, if_neg Bool.false_ne_true, hold, h.intq]
  q := by
    simp only [Flop2Sync.next, Relay.next]
    cases edge with
    | false => exact h.q
    | true => exact h.intq
  late := by
    simp only [Flop2Sync.next, Relay.next]
    intro hlate
    obtain ⟨hincr, hrest⟩ := Bool.or_eq_false_iff.mp hlate
    have hcount : count + incr.toNat = count := by rw [hincr, Bool.toNat_false, Nat.add_zero]
    rw [hcount, if_pos rfl]
    cases edge with
    | true => rfl
    | false => exact h.late (by simpa using hrest)

end Holds

/-! ### One instant -/

section Step
variable {s : AsyncFifo p} {c : Counts} {log : List α} {i : AsyncIn p}

/-- The pointers wrap after the views have followed. -/
theorem Rep.window (h : Rep s c log) :
    c.written < c.seen.first + 2 ^ (p.logDepth + 1) ∧
      c.read < c.freed.first + 2 ^ (p.logDepth + 1) := by
  have hpow := two_pow_succ p.logDepth
  have hpos := Nat.two_pow_pos p.logDepth
  have hocc : c.written ≤ c.read + 2 ^ p.logDepth := h.ok.occupancy
  have hroom : c.written ≤ c.freedQ + 2 ^ p.logDepth := h.ok.room
  have hread := h.ok.read_le
  have hwritten := h.ok.read_le_written
  have hseen := h.ok.seen.second_le
  have hfreedQ := h.ok.freedQ_le
  have hfreed := h.ok.freed.second_le
  omega

/-- The writer is ready if it sees room. -/
theorem Rep.wready_iff (h : Rep s c log) : s.wready = true ↔ c.CanWrite p.depth := by
  have hle := h.ok.freedQ_le_read.trans h.ok.read_le_written
  have hroom : c.written ≤ c.freedQ + 2 ^ p.logDepth := h.ok.room
  have hfull := ptr_eq_xorMask (k := p.logDepth) hle hroom
  rw [wready, fullWclk, h.wptr, h.rptrSync, Bool.not_eq_true', decide_eq_false_iff_not, hfull,
    Counts.CanWrite, AsyncParams.depth]
  omega

theorem Rep.wptrSyncCombi (h : Rep s c log) : s.wptrSyncCombi = ptr p.logDepth c.seen.second := by
  rw [AsyncFifo.wptrSyncCombi, h.syncWptr.q, decPtr_gray]

theorem Rep.seen_le (h : Rep s c log) : c.seen.second ≤ c.read + 2 ^ p.logDepth :=
  (h.ok.seen.second_le.trans h.ok.seen.first_le).trans h.ok.occupancy

/-- The output is valid if the reader sees an item. -/
theorem Rep.rvalid_iff (h : Rep s c log) : s.rvalid = true ↔ c.CanRead := by
  have hle := h.ok.read_le
  have hseen := h.seen_le
  have hpow := two_pow_succ p.logDepth
  have hpos := Nat.two_pow_pos p.logDepth
  have hempty := ptr_inj (k := p.logDepth) hle (by omega)
  rw [rvalid, emptyRclk, h.wptrSyncCombi, h.rptr, Bool.not_eq_true', decide_eq_false_iff_not,
    Counts.CanRead, eq_comm, hempty]
  omega

/-- The item at the output. -/
theorem Rep.rdata_eq (h : Rep s c log) (hv : s.rvalid = true) : log[c.read]? = some s.rdata := by
  have hcan : c.read < c.seen.second := h.rvalid_iff.mp hv
  have hlt : c.read < log.length := by
    rw [h.length]
    exact hcan.trans_le (h.ok.seen.second_le.trans h.ok.seen.first_le)
  have hx := List.getElem?_eq_getElem hlt
  rw [hx, ← h.stored c.read _ (Nat.le_refl _) hx, rdata_of_rvalid hv, rdataInt, h.rptr, ptr,
    BitVec.setWidth_ofNat_of_le (Nat.le_succ _)]

theorem taken_wready {d : α} (h : s.taken i = some d) : s.wready = true := by
  rw [taken] at h
  split at h
  · rename_i hc
    exact (Bool.and_eq_true _ _ ▸ hc).2
  · exact absurd h nofun

theorem Rep.rule (h : Rep s c log) (hr : s.Rule i) : c.Rule p.depth (s.edges i) where
  push := by
    intro hp
    obtain ⟨d, hd⟩ := Option.isSome_iff_exists.mp hp
    exact h.wready_iff.mp (taken_wready hd)
  pop := by
    intro hp
    exact h.rvalid_iff.mp (Bool.and_eq_true _ _ ▸ hp).2
  seen := by
    have hw := hr.wptr
    rw [Sampled, h.wptrGray] at hw
    have hm := h.syncWptr.misses h.ok.seen h.window.1 hw
    rw [← h.wptrGray] at hm
    exact hm
  freed := by
    have hw := hr.rptr
    rw [Sampled, h.rptrGray] at hw
    have hm := h.syncRptr.misses h.ok.freed h.window.2 hw
    rw [← h.rptrGray] at hm
    exact hm

theorem Rep.wptrGrayNext (h : Rep s c log) :
    s.wptrGrayNext i = gray (ptr p.logDepth (c.written + (s.incrWptr i).toNat)) := by
  rw [AsyncFifo.wptrGrayNext]
  split
  · rename_i hp
    rw [grayPtr_eq, h.wptr, ptr_add_one, hp, Bool.toNat_true]
  · rename_i hp
    rw [eq_false_of_ne_true hp]
    exact h.wptrGray

theorem Rep.rptrGrayNext (h : Rep s c log) :
    s.rptrGrayNext i = gray (ptr p.logDepth (c.read + (s.incrRptr i).toNat)) := by
  rw [AsyncFifo.rptrGrayNext]
  split
  · rename_i hp
    rw [grayPtr_eq, h.rptr, ptr_add_one, hp, Bool.toNat_true]
  · rename_i hp
    rw [eq_false_of_ne_true hp]
    exact h.rptrGray

/-- What the storage holds after an instant. -/
theorem Rep.stored_next (h : Rep s c log) (hr : s.Rule i) {n : ℕ} {x : α} (hn : c.read ≤ n)
    (hx : (log ++ (s.taken i).toList)[n]? = some x) :
    (s.next i).storage (BitVec.ofNat _ n) = x := by
  have hlog : ∀ y, log[n]? = some y → n < c.written := by
    intro y hy
    rw [← h.length]
    exact (List.getElem?_eq_some_iff.mp hy).1
  simp only [AsyncFifo.next]
  cases ht : s.taken i with
  | none =>
      rw [ht, Option.toList_none, List.append_nil] at hx
      exact h.stored n x hn hx
  | some d =>
      have hslot : s.wptrQ.setWidth p.logDepth = BitVec.ofNat p.logDepth c.written := by
        rw [h.wptr, ptr, BitVec.setWidth_ofNat_of_le (Nat.le_succ _)]
      rw [ht, Option.toList_some] at hx
      simp only [hslot]
      by_cases hnew : n = c.written
      · rw [hnew, ← h.length, List.getElem?_concat_length, Option.some_inj] at hx
        rw [hnew, Function.update_self, hx]
      · have hlt : n < log.length := by
          have := (List.getElem?_eq_some_iff.mp hx).1
          rw [List.length_append, List.length_singleton] at this
          have := h.length
          omega
        rw [List.getElem?_append_left hlt] at hx
        -- the slot of an item that is still held is not the slot that is written
        have hcan : c.written < c.freedQ + 2 ^ p.logDepth :=
          (h.rule hr).push (Option.isSome_iff_exists.mpr ⟨d, ht⟩)
        have hfreed := h.ok.freedQ_le_read
        have hold := hlog x hx
        have hne : BitVec.ofNat p.logDepth n ≠ BitVec.ofNat p.logDepth c.written := by
          intro heq
          have hmod : n % 2 ^ p.logDepth = c.written % 2 ^ p.logDepth := congrArg BitVec.toNat heq
          exact hnew (Ring.eq_of_slot_eq hn (by omega) (by omega) (by omega) hmod)
        rw [Function.update_of_ne hne]
        exact h.stored n x hn hx

/-- The step lemma: one instant of the FIFO is one instant of the counts. -/
theorem Rep.next (h : Rep s c log) (hr : s.Rule i) :
    Rep (s.next i) (c.next (s.edges i)) (log ++ (s.taken i).toList) where
  ok := h.ok.next (h.rule hr)
  wptr := by
    change (if s.incrWptr i then s.wptrQ + 1#_ else s.wptrQ) =
      ptr _ (c.written + (s.incrWptr i).toNat)
    rw [h.wptr, ptr_add_one]
    cases s.incrWptr i <;> rfl
  rptr := by
    change (if s.incrRptr i then s.rptrQ + 1#_ else s.rptrQ) =
      ptr _ (c.read + (s.incrRptr i).toNat)
    rw [h.rptr, ptr_add_one]
    cases s.incrRptr i <;> rfl
  wptrGray := h.wptrGrayNext
  rptrGray := h.rptrGrayNext
  syncWptr := by
    have hs := hr.wptr
    rw [Sampled, h.wptrGray] at hs
    have hnext := h.syncWptr.next h.ok.seen h.window.1 hs i.wptrSel (s.incrWptr i)
    rw [← h.wptrGrayNext, ← h.wptrGray] at hnext
    exact hnext
  syncRptr := by
    have hs := hr.rptr
    rw [Sampled, h.rptrGray] at hs
    have hnext := h.syncRptr.next h.ok.freed h.window.2 hs i.rptrSel (s.incrRptr i)
    rw [← h.rptrGrayNext, ← h.rptrGray] at hnext
    exact hnext
  rptrSync := by
    change (if i.clkWr then s.rptrSyncCombi else s.rptrSyncQ) =
      ptr _ (if i.clkWr then c.freed.second else c.freedQ)
    rw [rptrSyncCombi, h.syncRptr.q, decPtr_gray, h.rptrSync]
    cases i.clkWr <;> rfl
  length := by
    change _ = c.written + (s.taken i).isSome.toNat
    rw [List.length_append, h.length]
    cases s.taken i <;> rfl
  stored := by
    intro n x hn hx
    exact h.stored_next hr (Nat.le_trans (Nat.le_add_right _ _) hn) hx

end Step

end AsyncFifo

end Muntjac.Sync

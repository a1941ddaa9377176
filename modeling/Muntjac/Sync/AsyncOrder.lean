import Muntjac.Sync.AsyncFifo

/-!
# Runs of the asynchronous FIFO

What an asynchronous FIFO gives in any interleaving of its clocks.

## Main results

* `AsyncFifo.reads_order` — the items come out in order, none twice and none before its time, and
  the FIFO never holds more than its depth.
* `AsyncFifo.depths_bound` — the depth outputs are bounds on what it holds.
* `AsyncFifo.gray_step` — one bit of a code changes at a time.
* `AsyncFifo.crossing_progress` — every item comes out, and a full FIFO becomes ready again.
-/

namespace Muntjac.Sync

namespace AsyncFifo

section Run
variable {α : Type*} {p : AsyncParams α} (storage : BitVec p.logDepth → α) (inp : ℕ → AsyncIn p)

/-- The registers after `n` instants. -/
def regs (n : ℕ) : AsyncFifo p := run AsyncFifo.next (reset storage) inp n

/-- The items that were written before instant `n`. -/
def writes (n : ℕ) : List α := stream (fun k => (regs storage inp k).taken (inp k)) n

/-- The items that were read before instant `n`. -/
def reads (n : ℕ) : List α := stream (fun k => (regs storage inp k).given (inp k)) n

/-- The counts that the registers represent. -/
def counts : ℕ → Counts
  | 0 => .reset
  | n + 1 => (counts n).next ((regs storage inp n).edges (inp n))

variable {storage inp} {n : ℕ}

theorem regs_succ (n : ℕ) : regs storage inp (n + 1) = (regs storage inp n).next (inp n) := rfl

theorem writes_succ (n : ℕ) :
    writes storage inp (n + 1) =
      writes storage inp n ++ ((regs storage inp n).taken (inp n)).toList := rfl

theorem reads_succ (n : ℕ) :
    reads storage inp (n + 1) =
      reads storage inp n ++ ((regs storage inp n).given (inp n)).toList := rfl

theorem counts_succ (n : ℕ) :
    counts storage inp (n + 1) =
      (counts storage inp n).next ((regs storage inp n).edges (inp n)) := rfl

/-- The run lemma: the FIFO refines the counts. -/
theorem rep_run (hrule : ∀ k < n, (regs storage inp k).Rule (inp k)) :
    Rep (regs storage inp n) (counts storage inp n) (writes storage inp n) := by
  induction n with
  | zero => exact Rep.reset storage
  | succ n ih =>
      have hprev := ih fun k hk => hrule k (Nat.lt_succ_of_lt hk)
      exact hprev.next (hrule n (Nat.lt_succ_self n))

/-- What was read are the first items that were written. -/
theorem reads_eq (hrule : ∀ k < n, (regs storage inp k).Rule (inp k)) :
    reads storage inp n = (writes storage inp n).take (counts storage inp n).read := by
  induction n with
  | zero => rfl
  | succ n ih =>
      have hrep := rep_run (n := n) fun k hk => hrule k (Nat.lt_succ_of_lt hk)
      have hprev := ih fun k hk => hrule k (Nat.lt_succ_of_lt hk)
      have hle : (counts storage inp n).read ≤ (writes storage inp n).length := by
        rw [hrep.length]
        exact hrep.ok.read_le_written
      rw [reads_succ, writes_succ, counts_succ, hprev]
      simp only [Counts.next, edges]
      cases hpop : (regs storage inp n).incrRptr (inp n) with
      | false =>
          have hgiven : (regs storage inp n).given (inp n) = none := if_neg (by
            rw [incrRptr] at hpop
            simp [hpop])
          rw [hgiven, Option.toList_none, List.append_nil, Bool.toNat_false, Nat.add_zero,
            List.take_append_of_le_length hle]
      | true =>
          have hgiven : (regs storage inp n).given (inp n) = some (regs storage inp n).rdata :=
            if_pos hpop
          have hv : (regs storage inp n).rvalid = true := (Bool.and_eq_true _ _ ▸ hpop).2
          have hx := hrep.rdata_eq hv
          have hlt := (List.getElem?_eq_some_iff.mp hx).1
          rw [hgiven, Option.toList_some, Bool.toNat_true, List.take_add_one,
            List.getElem?_append_left hlt, hx, List.take_append_of_le_length hle]
          rfl

theorem length_reads (hrule : ∀ k < n, (regs storage inp k).Rule (inp k)) :
    (reads storage inp n).length = (counts storage inp n).read := by
  have hrep := rep_run hrule
  have hle := hrep.ok.read_le_written
  rw [reads_eq hrule, List.length_take, hrep.length, Nat.min_eq_left hle]

/-- Without the instrumentation the rule of the delay is kept. -/
theorem rule_of_sel_zero (hw : ∀ k, (inp k).wptrSel = 0) (hr : ∀ k, (inp k).rptrSel = 0) (n : ℕ) :
    (regs storage inp n).Rule (inp n) := by
  have hzero : (regs storage inp n).syncWptr.dataSel = 0 ∧
      (regs storage inp n).syncRptr.dataSel = 0 := by
    induction n with
    | zero => exact ⟨rfl, rfl⟩
    | succ n ih =>
        simp only [regs_succ, AsyncFifo.next, Flop2Sync.next, hw, hr, ih, ite_self, and_self]
  exact ⟨fun _ => .inl hzero.1, fun _ => .inl hzero.2⟩

/-! ## Safety -/

/-- In any interleaving of the two clocks, what has been read is a prefix of what has been
written, and the FIFO holds at most `Depth` items. -/
theorem reads_order (hrule : ∀ k < n, (regs storage inp k).Rule (inp k)) :
    reads storage inp n <+: writes storage inp n ∧
      (writes storage inp n).length ≤ (reads storage inp n).length + p.depth := by
  have hrep := rep_run hrule
  constructor
  · rw [reads_eq hrule]
    exact List.take_prefix _ _
  · rw [length_reads hrule, hrep.length]
    exact hrep.ok.occupancy

/-- In any interleaving of the two clocks, what has been read is a prefix of what has been
written, and each side sees a bound on the number of items that the FIFO holds: the writer sees at
least as many and the reader at most as many.  The bound of the writer is never over `Depth`. -/
theorem depths_bound (hrule : ∀ k < n, (regs storage inp k).Rule (inp k)) :
    reads storage inp n <+: writes storage inp n ∧
      (reads storage inp n).length + (regs storage inp n).rdepth.toNat ≤
        (writes storage inp n).length ∧
      (writes storage inp n).length ≤
        (reads storage inp n).length + (regs storage inp n).wdepth.toNat ∧
      (regs storage inp n).wdepth.toNat ≤ p.depth := by
  have hrep := rep_run hrule
  have hlen := length_reads hrule
  have hok := hrep.ok
  have hfreed := hok.freedQ_le_read
  have hwritten := hok.read_le_written
  have hseen : (counts storage inp n).seen.second ≤ (counts storage inp n).written :=
    hok.seen.second_le.trans hok.seen.first_le
  have hroom : (counts storage inp n).written ≤ (counts storage inp n).freedQ + 2 ^ p.logDepth :=
    hok.room
  have hw : (regs storage inp n).wdepth.toNat =
      (counts storage inp n).written - (counts storage inp n).freedQ := by
    rw [wdepth, fullWclk, hrep.wptr, hrep.rptrSync]
    exact depthCalc_ptr (hfreed.trans hwritten) hroom
  have hr : (regs storage inp n).rdepth.toNat =
      (counts storage inp n).seen.second - (counts storage inp n).read := by
    rw [rdepth, fullRclk, hrep.wptrSyncCombi, hrep.rptr]
    exact depthCalc_ptr hok.read_le hrep.seen_le
  have hread := hok.read_le
  refine ⟨(reads_order hrule).1, ?_⟩
  rw [hlen, hrep.length, hw, hr, AsyncParams.depth]
  omega

/-- The write clock ticks at every instant and the read clock at every third. -/
def skewed (k : ℕ) : AsyncIn (⟨2, false, false, 0⟩ : AsyncParams ℕ) :=
  ⟨true, k % 3 == 0, some k, true, 0, 0⟩

theorem rule_skewed (n : ℕ) : (regs (fun _ => 0) skewed n).Rule (skewed n) :=
  rule_of_sel_zero (fun _ => rfl) (fun _ => rfl) n

theorem depths_bound_skewed :
    reads (fun _ => 0) skewed 20 <+: writes (fun _ => 0) skewed 20 ∧
      (reads (fun _ => 0) skewed 20).length + (regs (fun _ => 0) skewed 20).rdepth.toNat ≤
        (writes (fun _ => 0) skewed 20).length ∧
      (writes (fun _ => 0) skewed 20).length ≤
        (reads (fun _ => 0) skewed 20).length + (regs (fun _ => 0) skewed 20).wdepth.toNat ∧
      (regs (fun _ => 0) skewed 20).wdepth.toNat ≤ 4 :=
  depths_bound fun k _ => rule_skewed k

/-- The registers hold the codes of the pointers, whatever the synchronisers do. -/
theorem codes_run (storage : BitVec p.logDepth → α) (inp : ℕ → AsyncIn p) (n : ℕ) :
    (regs storage inp n).wptrGrayQ = gray (regs storage inp n).wptrQ ∧
      (regs storage inp n).rptrGrayQ = gray (regs storage inp n).rptrQ := by
  induction n with
  | zero => exact ⟨gray_zero.symm, gray_zero.symm⟩
  | succ n ih =>
      rw [regs_succ]
      constructor
      · change (if _ then _ else _) = gray (if _ then _ else _)
        split_ifs
        · exact grayPtr_eq _
        · exact ih.1
      · change (if _ then _ else _) = gray (if _ then _ else _)
        split_ifs
        · exact grayPtr_eq _
        · exact ih.2

/-- At most one bit of a code changes at an instant, as `GrayWptr_A` and `GrayRptr_A` say. -/
theorem gray_step (storage : BitVec p.logDepth → α) (inp : ℕ → AsyncIn p) (n : ℕ) :
    (∃ b, ∀ j, j ≠ b → (regs storage inp (n + 1)).wptrGrayQ.getLsbD j =
        (regs storage inp n).wptrGrayQ.getLsbD j) ∧
      ∃ b, ∀ j, j ≠ b → (regs storage inp (n + 1)).rptrGrayQ.getLsbD j =
        (regs storage inp n).rptrGrayQ.getLsbD j := by
  obtain ⟨hwptr, hrptr⟩ := codes_run storage inp n
  constructor
  · change ∃ b, ∀ j, j ≠ b → ((regs storage inp n).wptrGrayNext (inp n)).getLsbD j = _
    rw [wptrGrayNext]
    split_ifs
    · rw [grayPtr_eq, hwptr]
      exact gray_add_one _
    · exact ⟨0, fun _ _ => rfl⟩
  · change ∃ b, ∀ j, j ≠ b → ((regs storage inp n).rptrGrayNext (inp n)).getLsbD j = _
    rw [rptrGrayNext]
    split_ifs
    · rw [grayPtr_eq, hrptr]
      exact gray_add_one _
    · exact ⟨0, fun _ _ => rfl⟩

/-! ## Progress -/

/-- The reader is ready at an edge of its clock again and again. -/
def ReadsOn (inp : ℕ → AsyncIn p) : Prop :=
  Recurs fun k => (inp k).clkRd = true ∧ (inp k).rready = true

theorem readsOn_pop (hrule : ∀ k, (regs storage inp k).Rule (inp k)) (hfair : ReadsOn inp) :
    Recurs fun k => ((regs storage inp k).edges (inp k)).read = true ∧
      ((counts storage inp k).CanRead → ((regs storage inp k).edges (inp k)).pop = true) := by
  intro k
  obtain ⟨n, hn, hclk, hready⟩ := hfair k
  refine ⟨n, hn, hclk, fun hcan => ?_⟩
  have hv := (rep_run fun k _ => hrule k).rvalid_iff.mpr hcan
  change incrRptr _ _ = true
  rw [incrRptr, hclk, hready, hv]
  rfl

/-- If the reader goes on, every item that is written is read in the end. -/
theorem all_read (hrule : ∀ k, (regs storage inp k).Rule (inp k)) (hfair : ReadsOn inp) (n : ℕ) :
    ∃ m ≥ n, writes storage inp n <+: reads storage inp m := by
  have hrep : ∀ k, Rep (regs storage inp k) (counts storage inp k) (writes storage inp k) :=
    fun k => rep_run fun k _ => hrule k
  rcases Nat.eq_zero_or_pos (writes storage inp n).length with hnil | hpos
  · rw [List.length_eq_zero_iff.mp hnil]
    exact ⟨n, Nat.le_refl n, List.nil_prefix⟩
  · have hlead := Counts.read_leadsTo (c := counts storage inp) counts_succ
      (fun k => (hrep k).ok) (fun k => (hrep k).rule (hrule k)) (readsOn_pop hrule hfair)
      ((writes storage inp n).length - 1)
    have hlt : (writes storage inp n).length - 1 < (counts storage inp n).written := by
      rw [← (hrep n).length]
      omega
    obtain ⟨m, hm, hread⟩ := hlead n hlt
    refine ⟨m, hm, ?_⟩
    have hle : (writes storage inp n).length ≤ (reads storage inp m).length := by
      rw [length_reads fun k _ => hrule k]
      omega
    have hmono : writes storage inp n <+: writes storage inp m := stream_prefix _ hm
    exact List.prefix_of_prefix_length_le hmono (reads_order fun k _ => hrule k).1 hle

/-- If the clocks tick on and the reader goes on, the FIFO is ready to be written again. -/
theorem ready_again (hrule : ∀ k, (regs storage inp k).Rule (inp k)) (hfair : ReadsOn inp)
    (hclk : Recurs fun k => (inp k).clkWr = true) :
    Recurs fun k => (regs storage inp k).wready = true := by
  have hrep : ∀ k, Rep (regs storage inp k) (counts storage inp k) (writes storage inp k) :=
    fun k => rep_run fun k _ => hrule k
  have hpos : 0 < p.depth := Nat.two_pow_pos _
  intro n
  by_contra hnone
  have hfull : ∀ k, n ≤ k → ¬(counts storage inp k).CanWrite p.depth := fun k hk hcan =>
    hnone ⟨k, hk, (hrep k).wready_iff.mpr hcan⟩
  -- nothing more is written
  have hstay : ∀ k, n ≤ k → (counts storage inp k).written = (counts storage inp n).written := by
    intro k hk
    induction k, hk using Nat.le_induction with
    | base => rfl
    | succ k hk ih =>
        have hno : ((regs storage inp k).edges (inp k)).push = false := by
          by_contra hpush
          exact hfull k hk (((hrep k).rule (hrule k)).push (eq_true_of_ne_false hpush))
        rw [counts_succ, Counts.next, hno]
        exact ih
  have hwritten : 0 < (counts storage inp n).written := by
    have := hfull n (Nat.le_refl n)
    rw [Counts.CanWrite] at this
    omega
  have hlt : (counts storage inp n).written - 1 < (counts storage inp n).written := by omega
  obtain ⟨m, hm, hfree⟩ := Counts.free_leadsTo (c := counts storage inp) counts_succ
    (fun k => (hrep k).ok) (fun k => (hrep k).rule (hrule k)) (readsOn_pop hrule hfair) hclk
    ((counts storage inp n).written - 1) n hlt
  refine hfull m hm ?_
  have hsame := hstay m hm
  rw [Counts.CanWrite]
  omega

/-- If the clocks tick on and the reader goes on, the writer is let in again and again, and every
item that is written is read in the end. -/
theorem crossing_progress (hrule : ∀ k, (regs storage inp k).Rule (inp k)) (hfair : ReadsOn inp)
    (hclk : Recurs fun k => (inp k).clkWr = true) :
    (Recurs fun k => (regs storage inp k).wready = true) ∧
      ∀ n, ∃ m ≥ n, writes storage inp n <+: reads storage inp m :=
  ⟨ready_again hrule hfair hclk, all_read hrule hfair⟩

theorem progress_skewed :
    (Recurs fun k => (regs (fun _ => 0) skewed k).wready = true) ∧
      ∀ n, ∃ m ≥ n, writes (fun _ => 0) skewed n <+: reads (fun _ => 0) skewed m := by
  have hread : ReadsOn skewed := fun k => ⟨3 * k, by omega, by simp [skewed]⟩
  have hwrite : Recurs fun k => (skewed k).clkWr = true := fun k => ⟨k, Nat.le_refl k, rfl⟩
  exact crossing_progress rule_skewed hread hwrite

end Run

end AsyncFifo

end Muntjac.Sync

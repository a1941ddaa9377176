import Muntjac.Core.Tlb
import Muntjac.Sync.Run

/-!
# What a flush of the translation lookaside buffer leaves

Every entry that a lookup may hit is traced to the refill that wrote it.  A refill is
accepted when no flush is requested or in progress; it goes to the way that is next in turn,
and stays there until another refill is accepted into the same way of the same set or a flush
clears it.

With `SetsWidth = 0` there is one set, so that both bodies are described by `Tlb.entry`.

## Main definitions

* `Tlb.Stored` — a refill has written a way and nothing was refilled over it.
* `Tlb.Live` — and there was no flush since.

## Main results

* `Tlb.entry_step` — what one cycle does to an entry.
* `Tlb.flush_complete` — after a flush no lookup hits an older refill, and lookups hit exactly
  the live refills.
-/

namespace Muntjac.Core

open Sync (run)

namespace Tlb
variable {n sw : ℕ}

/-! ## Both bodies -/

/-- The contents of way `k` of a set. -/
def entry : Tlb n → ℕ → Fin n → TlbEntry
  | fullyAssoc s, _, k => s.entries k
  | setAssoc s, set, k => s.ram set k

/-- The way that the next refill replaces. -/
def replWay : Tlb n → ℕ
  | fullyAssoc s => s.replIndex
  | setAssoc s => s.replIndexQ

/-- A refill is presented while no flush is requested or in progress. -/
def accepts (t : Tlb n) (i : TlbIn) : Bool := i.refillValid && !i.flushReq && !t.flushing

/-- The entry that a refill writes. -/
def refilled (sw : ℕ) (i : TlbIn) : TlbEntry :=
  ⟨i.refillPerm, i.refillVpn / 2 ^ sw, i.refillAsid, i.refillPpn⟩

/-- An accepted refill writes way `k` of the set. -/
def Writes (sw : ℕ) (t : Tlb n) (i : TlbIn) (set : ℕ) (k : Fin n) : Prop :=
  t.accepts i = true ∧ i.refillVpn % 2 ^ sw = set ∧ t.replWay = k

/-- The flush in progress has not reached the set. -/
def Pending : Tlb n → ℕ → Prop
  | fullyAssoc _, _ => False
  | setAssoc s, set => s.flushingQ = true ∧ s.flushIndexQ ≤ set

theorem lookup_eq (t : Tlb n) (h : t.Wf sw) (vpn asid : ℕ) :
    t.lookup sw vpn asid = hitEntry (t.entry (vpn % 2 ^ sw)) (vpn / 2 ^ sw) asid := by
  cases t with
  | fullyAssoc s =>
      have hsw : sw = 0 := h
      rw [hsw, Nat.pow_zero, Nat.div_one]
      rfl
  | setAssoc s => rfl

/-! ## One cycle -/

section Step
variable {t : Tlb n} {i : TlbIn} {set : ℕ} {k : Fin n}

private theorem refilled_zero (i : TlbIn) : refilled 0 i = FullyAssoc.refill i := by
  rw [refilled, Nat.pow_zero, Nat.div_one]
  rfl

/-- The way that an accepted refill replaces holds it. -/
theorem entry_of_writes (h : t.Wf sw) (hw : t.Writes sw i set k) :
    (t.step sw i).entry set k = refilled sw i := by
  obtain ⟨hacc, hset, hway⟩ := hw
  simp only [accepts, Bool.and_eq_true, Bool.not_eq_eq_eq_not, Bool.not_true] at hacc
  obtain ⟨⟨hr, hq⟩, hf⟩ := hacc
  cases t with
  | fullyAssoc s =>
      have hsw : sw = 0 := h
      have hway' : s.replIndex = k := hway
      subst hsw
      rw [refilled_zero]
      simp [step, entry, FullyAssoc.step, FullyAssoc.nextEntry, hr, hq, hway']
  | setAssoc s =>
      have hf' : s.flushingQ = false := hf
      have hway' : s.replIndexQ = k := hway
      simp [step, entry, SetAssoc.step, SetAssoc.nextRam, SetAssoc.write, SetAssoc.refill, refilled,
        hr, hq, hf', hset, hway']

/-- Without a flush the other ways stay as they are. -/
theorem entry_of_not_writes (h : t.Wf sw) (hset : set < 2 ^ sw) (hq : i.flushReq = false)
    (hf : t.flushing = false) (hw : ¬t.Writes sw i set k) :
    (t.step sw i).entry set k = t.entry set k := by
  cases t with
  | fullyAssoc s =>
      have hsw : sw = 0 := h
      subst hsw
      have hset0 : i.refillVpn % 2 ^ 0 = set := by
        rw [Nat.pow_zero] at hset ⊢
        omega
      have hne : (i.refillValid && s.replIndex == (k : ℕ)) = false := by
        by_contra hc
        simp only [Bool.not_eq_false, Bool.and_eq_true, beq_iff_eq] at hc
        exact hw ⟨by simp [accepts, hc.1, hq, hf], hset0, hc.2⟩
      simp [step, entry, FullyAssoc.step, FullyAssoc.nextEntry, hq, hne]
  | setAssoc s =>
      have hf' : s.flushingQ = false := hf
      cases hr : i.refillValid with
      | false => simp [step, entry, SetAssoc.step, SetAssoc.nextRam, SetAssoc.write, hr, hq, hf']
      | true =>
          have hne : ¬(set = i.refillVpn % 2 ^ sw ∧ s.replIndexQ = k) := fun hc =>
            hw ⟨by simp [accepts, hr, hq, hf], hc.1.symm, hc.2⟩
          simp [step, entry, SetAssoc.step, SetAssoc.nextRam, SetAssoc.write, hr, hq, hf', hne]

/-- What a flush, at its request or in progress, leaves valid is what it has not reached. -/
theorem entry_of_flush (h : t.Wf sw) (hset : set < 2 ^ sw)
    (hf : i.flushReq = true ∨ t.flushing = true)
    (hv : ((t.step sw i).entry set k).prot.valid = true) :
    (t.step sw i).entry set k = t.entry set k ∧ (t.step sw i).Pending set := by
  cases t with
  | fullyAssoc s =>
      have hq : i.flushReq = true := hf.resolve_right (by simp [flushing])
      simp [step, entry, FullyAssoc.step, FullyAssoc.nextEntry, hq] at hv
  | setAssoc s =>
      obtain ⟨hsw, hlt, hidle, hlow⟩ := h
      cases hfl : s.flushingQ with
      | false =>
          have hq : i.flushReq = true := hf.resolve_right (by simp [flushing, hfl])
          refine ⟨?_, ?_, ?_⟩
          · simp [step, entry, SetAssoc.step, SetAssoc.nextRam, SetAssoc.write, hfl, hq]
          · simp [SetAssoc.step, hfl, hq]
          · simp [SetAssoc.step, hfl, hidle hfl]
      | true =>
          have hentry : ∀ set' k', (s.nextRam sw i set' k') =
              if set' = s.flushIndexQ then default else s.ram set' k' := by
            intro set' k'
            simp [SetAssoc.nextRam, SetAssoc.write, hfl]
          have hne : set ≠ s.flushIndexQ := by
            rintro rfl
            change (s.nextRam sw i s.flushIndexQ k).prot.valid = true at hv
            rw [hentry, if_pos rfl] at hv
            cases hv
          have hge : s.flushIndexQ < set := by
            by_contra hle
            have hempty := hlow set (by omega) k
            change (s.nextRam sw i set k).prot.valid = true at hv
            rw [hentry, if_neg hne, hempty] at hv
            cases hv
          have hlast : s.lastSet sw = false := by
            simp only [SetAssoc.lastSet, beq_eq_false_iff_ne]
            omega
          refine ⟨?_, ?_, ?_⟩
          · change s.nextRam sw i set k = s.ram set k
            rw [hentry, if_neg hne]
          · simp [SetAssoc.step, hfl, hlast]
          · simp only [SetAssoc.step, hfl, if_true]
            rw [Nat.mod_eq_of_lt (by omega)]
            exact hge

/-- What one cycle does to an entry: an accepted refill replaces it, a flush clears it or has
not reached it, and otherwise it stays. -/
theorem entry_step (h : t.Wf sw) (hset : set < 2 ^ sw)
    (hv : ((t.step sw i).entry set k).prot.valid = true) :
    t.Writes sw i set k ∧ (t.step sw i).entry set k = refilled sw i ∨
      ¬t.Writes sw i set k ∧ (t.step sw i).entry set k = t.entry set k ∧
        ((t.step sw i).Pending set ∨ i.flushReq = false ∧ t.flushing = false) := by
  by_cases hw : t.Writes sw i set k
  · exact Or.inl ⟨hw, entry_of_writes h hw⟩
  · refine Or.inr ⟨hw, ?_⟩
    by_cases hf : i.flushReq = true ∨ t.flushing = true
    · obtain ⟨hentry, hpend⟩ := entry_of_flush h hset hf hv
      exact ⟨hentry, Or.inl hpend⟩
    · rw [not_or, Bool.not_eq_true, Bool.not_eq_true] at hf
      exact ⟨entry_of_not_writes h hset hf.1 hf.2 hw, Or.inr hf⟩

theorem flushing_of_pending (h : t.Pending set) : t.flushing = true := by
  cases t with
  | fullyAssoc s => exact h.elim
  | setAssoc s => exact h.1

/-- A flush that was not requested is not in progress. -/
theorem flushing_of_not_req (hq : i.flushReq = false) (hf : t.flushing = false) :
    (t.step sw i).flushing = false := by
  cases t with
  | fullyAssoc s => rfl
  | setAssoc s =>
      have hf' : s.flushingQ = false := hf
      simp [step, flushing, SetAssoc.step, hf', hq]

/-! ## The answer to a flush -/

/-- When a flush of the fully associative body is answered, nothing is valid. -/
def Answers : Tlb n → Prop
  | fullyAssoc s => s.flushRespQ = true → ∀ k, (s.entries k).prot.valid = false
  | setAssoc _ => True

theorem answers_step : (t.step sw i).Answers := by
  cases t with
  | fullyAssoc s =>
      intro hq k
      have hq' : i.flushReq = true := hq
      simp [FullyAssoc.step, FullyAssoc.nextEntry, hq']
  | setAssoc s => trivial

theorem answers_of_isReset (h : t.IsReset sw) : t.Answers := by
  cases t with
  | fullyAssoc s =>
      obtain ⟨-, rfl⟩ := h
      intro hq
      cases hq
  | setAssoc s => trivial

/-- In the cycle of the answer, what is valid is in the last set of the walk. -/
theorem pending_of_flushResp (h : t.Wf sw) (ha : t.Answers) (hr : t.flushResp sw = true)
    (hv : (t.entry set k).prot.valid = true) : t.Pending set := by
  cases t with
  | fullyAssoc s =>
      have hempty := ha hr k
      change (s.entries k).prot.valid = true at hv
      rw [hempty] at hv
      cases hv
  | setAssoc s =>
      obtain ⟨hsw, hlt, hidle, hlow⟩ := h
      have hfl : s.flushingQ = true := (Bool.and_eq_true _ _ ▸ hr).1
      refine ⟨hfl, ?_⟩
      by_contra hlt'
      have hempty := hlow set (by omega) k
      change (s.ram set k).prot.valid = true at hv
      rw [hempty] at hv
      cases hv

/-- After the answer no flush is in progress. -/
theorem flushing_of_flushResp (hr : t.flushResp sw = true) : (t.step sw i).flushing = false := by
  cases t with
  | fullyAssoc s => rfl
  | setAssoc s =>
      obtain ⟨hfl, hlast⟩ : s.flushingQ = true ∧ s.lastSet sw = true := by
        simpa [flushResp] using hr
      simp [step, flushing, SetAssoc.step, hfl, hlast]

end Step

/-! ## Runs -/

section Runs
variable {t₀ : Tlb n} {inp : ℕ → TlbIn}

/-- The registers and RAMs in a cycle. -/
def state (sw : ℕ) (t₀ : Tlb n) (inp : ℕ → TlbIn) (m : ℕ) : Tlb n := run (step sw) t₀ inp m

/-- A refill is accepted into way `k` of a set in cycle `m`. -/
def WritesAt (sw : ℕ) (t₀ : Tlb n) (inp : ℕ → TlbIn) (m set : ℕ) (k : Fin n) : Prop :=
  (state sw t₀ inp m).Writes sw (inp m) set k

/-- The refill of cycle `c` was accepted into way `k` of a set, and until cycle `l` no other
was accepted there. -/
structure Stored (sw : ℕ) (t₀ : Tlb n) (inp : ℕ → TlbIn) (c l set : ℕ) (k : Fin n) : Prop where
  lt : c < l
  writes : WritesAt sw t₀ inp c set k
  kept : ∀ m, c < m → m < l → ¬WritesAt sw t₀ inp m set k

/-- The refill of cycle `c` is a valid translation of `vpn` for `asid`. -/
structure Translates (i : TlbIn) (vpn asid : ℕ) : Prop where
  vpn : i.refillVpn = vpn
  asid : i.refillAsid = asid ∨ i.refillPerm.isGlobal = true
  valid : i.refillPerm.valid = true

/-- A valid translation was refilled in cycle `c` and is in its way in cycle `l`. -/
def Kept (sw : ℕ) (t₀ : Tlb n) (inp : ℕ → TlbIn) (c l vpn asid : ℕ) : Prop :=
  ∃ k, Stored sw t₀ inp c l (vpn % 2 ^ sw) k ∧ Translates (inp c) vpn asid

/-- And no flush was requested since. -/
def Live (sw : ℕ) (t₀ : Tlb n) (inp : ℕ → TlbIn) (c l vpn asid : ℕ) : Prop :=
  Kept sw t₀ inp c l vpn asid ∧ ∀ m, c < m → m < l → (inp m).flushReq = false

theorem wf_state (h : t₀.IsReset sw) (m : ℕ) : (state sw t₀ inp m).Wf sw :=
  Sync.run_invariant (Wf sw) (fun _ _ => True) (wf_of_isReset h) (fun _ _ hs _ => wf_step hs) m
    fun _ _ => trivial

theorem answers_state (h : t₀.IsReset sw) (m : ℕ) : (state sw t₀ inp m).Answers := by
  cases m with
  | zero => exact answers_of_isReset h
  | succ m => exact answers_step

/-- A refill that was stored stays so when the next one goes elsewhere. -/
theorem Stored.succ {c l set : ℕ} {k : Fin n} (h : Stored sw t₀ inp c l set k)
    (hw : ¬WritesAt sw t₀ inp l set k) : Stored sw t₀ inp c (l + 1) set k := by
  have hlt := h.lt
  refine ⟨by omega, h.writes, fun m hcm hml => ?_⟩
  rcases Nat.lt_succ_iff_lt_or_eq.mp hml with hml | rfl
  · exact h.kept m hcm hml
  · exact hw

theorem stored_self {c set : ℕ} {k : Fin n} (h : WritesAt sw t₀ inp c set k) :
    Stored sw t₀ inp c (c + 1) set k :=
  ⟨by omega, h, fun m hcm hml => absurd hcm (by omega)⟩

/-- After the answer to a flush, every valid entry is a refill that was accepted since. -/
theorem stored_of_valid (h : t₀.IsReset sw) {r : ℕ} (hr : (state sw t₀ inp r).flushResp sw = true)
    {l : ℕ} (hl : r < l) {set : ℕ} (hset : set < 2 ^ sw) {k : Fin n}
    (hv : ((state sw t₀ inp l).entry set k).prot.valid = true) :
    ∃ c, r ≤ c ∧ Stored sw t₀ inp c l set k ∧
      (state sw t₀ inp l).entry set k = refilled sw (inp c) := by
  induction l, hl using Nat.le_induction with
  | base =>
      rcases entry_step (wf_state h r) hset hv with ⟨hw, he⟩ | ⟨hw, he, hp⟩
      · exact ⟨r, Nat.le_refl r, stored_self hw, he⟩
      · -- what is left from before is pending, and the flush ends with this cycle
        have hv' := hv
        change (((state sw t₀ inp r).step sw (inp r)).entry set k).prot.valid = true at hv'
        rw [he] at hv'
        have hpend := pending_of_flushResp (wf_state h r) (answers_state h r) hr hv'
        rcases hp with hp | ⟨-, hf⟩
        · have hend := flushing_of_flushResp (i := inp r) hr
          rw [flushing_of_pending hp] at hend
          cases hend
        · rw [flushing_of_pending hpend] at hf
          cases hf
  | succ l hl ih =>
      rcases entry_step (wf_state h l) hset hv with ⟨hw, he⟩ | ⟨hw, he, -⟩
      · exact ⟨l, by omega, stored_self hw, he⟩
      · have hv' := hv
        change (((state sw t₀ inp l).step sw (inp l)).entry set k).prot.valid = true at hv'
        rw [he] at hv'
        obtain ⟨c, hrc, hstored, hentry⟩ := ih hv'
        exact ⟨c, hrc, hstored.succ hw, he.trans hentry⟩

/-- And it was accepted after the last request, but for what a flush in progress has not
reached. -/
theorem unflushed_of_valid (h : t₀.IsReset sw) {r : ℕ}
    (hr : (state sw t₀ inp r).flushResp sw = true) {l : ℕ} (hl : r ≤ l) {set : ℕ}
    (hset : set < 2 ^ sw) {k : Fin n}
    (hv : ((state sw t₀ inp l).entry set k).prot.valid = true) :
    (state sw t₀ inp l).Pending set ∨
      ∃ c, Stored sw t₀ inp c l set k ∧ (∀ m, c < m → m < l → (inp m).flushReq = false) ∧
        (state sw t₀ inp l).entry set k = refilled sw (inp c) := by
  induction l, hl using Nat.le_induction with
  | base => exact Or.inl (pending_of_flushResp (wf_state h r) (answers_state h r) hr hv)
  | succ l hl ih =>
      rcases entry_step (wf_state h l) hset hv with ⟨hw, he⟩ | ⟨hw, he, hp⟩
      · exact Or.inr ⟨l, stored_self hw, fun m hm hml => absurd hm (by omega), he⟩
      · rcases hp with hp | ⟨hq, hf⟩
        · exact Or.inl hp
        · have hv' := hv
          change (((state sw t₀ inp l).step sw (inp l)).entry set k).prot.valid = true at hv'
          rw [he] at hv'
          rcases ih hv' with hpend | ⟨c, hstored, hquiet, hentry⟩
          · rw [flushing_of_pending hpend] at hf
            cases hf
          · refine Or.inr ⟨c, hstored.succ hw, fun m hcm hml => ?_, he.trans hentry⟩
            rcases Nat.lt_succ_iff_lt_or_eq.mp hml with hml | rfl
            · exact hquiet m hcm hml
            · exact hq

/-- A stored refill that no flush has followed is in its way. -/
theorem entry_of_stored (h : t₀.IsReset sw) {c l set : ℕ} {k : Fin n}
    (hs : Stored sw t₀ inp c l set k) (hset : set < 2 ^ sw)
    (hquiet : ∀ m, c < m → m < l → (inp m).flushReq = false) :
    (state sw t₀ inp l).entry set k = refilled sw (inp c) ∧
      (state sw t₀ inp l).flushing = false := by
  have hlt := hs.lt
  induction l, hlt using Nat.le_induction with
  | base =>
      refine ⟨entry_of_writes (wf_state h c) hs.writes, ?_⟩
      have hacc := hs.writes.1
      simp only [accepts, Bool.and_eq_true, Bool.not_eq_eq_eq_not, Bool.not_true] at hacc
      exact flushing_of_not_req hacc.1.2 hacc.2
  | succ l hcl ih =>
      have hprev : Stored sw t₀ inp c l set k :=
        ⟨hcl, hs.writes, fun m hcm hml => hs.kept m hcm (by omega)⟩
      obtain ⟨hentry, hf⟩ := ih hprev fun m hcm hml => hquiet m hcm (by omega)
      have hq := hquiet l hcl (by omega)
      have hkeep := entry_of_not_writes (wf_state h l) hset hq hf (hs.kept l hcl (by omega))
      exact ⟨hkeep.trans hentry, flushing_of_not_req hq hf⟩

/-- An entry that translates is the refill of a translation. -/
theorem hits_refilled {i : TlbIn} {vpn asid : ℕ} (hset : i.refillVpn % 2 ^ sw = vpn % 2 ^ sw) :
    (refilled sw i).hits (vpn / 2 ^ sw) asid = true ↔ Translates i vpn asid := by
  have hvpn : i.refillVpn / 2 ^ sw = vpn / 2 ^ sw ↔ i.refillVpn = vpn := by
    constructor
    · intro hdiv
      rw [← Nat.div_add_mod i.refillVpn (2 ^ sw), hdiv, hset, Nat.div_add_mod]
    · intro heq
      rw [heq]
  simp only [TlbEntry.hits, refilled, Bool.and_eq_true, Bool.or_eq_true, beq_iff_eq, hvpn]
  exact ⟨fun hh => ⟨hh.1.2, hh.2, hh.1.1⟩, fun hh => ⟨⟨hh.valid, hh.vpn⟩, hh.asid⟩⟩

/-- The answer to a lookup, from the entries in the cycle of the lookup. -/
theorem resp_state (h : t₀.IsReset sw) {l : ℕ} (hreq : (inp l).reqValid = true) :
    (state sw t₀ inp (l + 1)).resp =
      (hitEntry ((state sw t₀ inp l).entry ((inp l).reqVpn % 2 ^ sw)) ((inp l).reqVpn / 2 ^ sw)
        (inp l).reqAsid).map fun e => (e.ppn, e.prot) := by
  rw [← lookup_eq _ (wf_state h l)]
  exact resp_step sw hreq

/-- A lookup that hits, and the entry. -/
theorem exists_of_resp (h : t₀.IsReset sw) {l : ℕ} (hreq : (inp l).reqValid = true)
    {x : ℕ × PageProt} (hx : (state sw t₀ inp (l + 1)).resp = some x) :
    ∃ k, ((state sw t₀ inp l).entry ((inp l).reqVpn % 2 ^ sw) k).hits ((inp l).reqVpn / 2 ^ sw)
        (inp l).reqAsid = true ∧
      x = (((state sw t₀ inp l).entry ((inp l).reqVpn % 2 ^ sw) k).ppn,
        ((state sw t₀ inp l).entry ((inp l).reqVpn % 2 ^ sw) k).prot) := by
  have hstep := resp_state h hreq
  rw [hx] at hstep
  obtain ⟨e, he, hxe⟩ := Option.map_eq_some_iff.mp hstep.symm
  obtain ⟨k, rfl, hk⟩ := hitEntry_some he
  exact ⟨k, hk, hxe.symm⟩

/-- A flush is complete.  A lookup after the answer to a flush hits only refills that were
accepted since the answer.  And once a flush was answered, a lookup while no flush is requested
or in progress hits exactly when a translation of its page is live, and answers with such a
translation. -/
theorem flush_complete (sw : ℕ) (t₀ : Tlb n) (h : t₀.IsReset sw) (inp : ℕ → TlbIn) :
    (∀ f r l, f < r → (inp f).flushReq = true → (state sw t₀ inp r).flushResp sw = true → r < l →
      (inp l).reqValid = true → ∀ x, (state sw t₀ inp (l + 1)).resp = some x →
        ∃ c, f < c ∧ r ≤ c ∧ Kept sw t₀ inp c l (inp l).reqVpn (inp l).reqAsid ∧
          x = ((inp c).refillPpn, (inp c).refillPerm)) ∧
      ∀ r l, (state sw t₀ inp r).flushResp sw = true → r < l → (inp l).reqValid = true →
        (inp l).flushReq = false → (state sw t₀ inp l).flushing = false →
          ((state sw t₀ inp (l + 1)).respHit = true ↔
              ∃ c, Live sw t₀ inp c l (inp l).reqVpn (inp l).reqAsid) ∧
            ∀ x, (state sw t₀ inp (l + 1)).resp = some x →
              ∃ c, Live sw t₀ inp c l (inp l).reqVpn (inp l).reqAsid ∧
                x = ((inp c).refillPpn, (inp c).refillPerm) := by
  have hmod : ∀ vpn, vpn % 2 ^ sw < 2 ^ sw := fun vpn => Nat.mod_lt _ (Nat.two_pow_pos sw)
  have hvalid : ∀ {e : TlbEntry} {vpn asid : ℕ}, e.hits vpn asid = true →
      e.prot.valid = true := fun hh => (TlbEntry.maps_of_hits hh).2.1
  constructor
  · intro f r l hfr _ hr hrl hreq x hx
    obtain ⟨k, hk, rfl⟩ := exists_of_resp h hreq hx
    obtain ⟨c, hrc, hstored, hentry⟩ := stored_of_valid h hr hrl (hmod _) (hvalid hk)
    rw [hentry] at hk ⊢
    exact ⟨c, by omega, hrc, ⟨k, hstored, (hits_refilled hstored.writes.2.1).mp hk⟩, rfl⟩
  · intro r l hr hrl hreq _ hf
    have hlive : ∀ x, (state sw t₀ inp (l + 1)).resp = some x →
        ∃ c, Live sw t₀ inp c l (inp l).reqVpn (inp l).reqAsid ∧
          x = ((inp c).refillPpn, (inp c).refillPerm) := by
      intro x hx
      obtain ⟨k, hk, rfl⟩ := exists_of_resp h hreq hx
      rcases unflushed_of_valid h hr (by omega) (hmod _) (hvalid hk) with
        hpend | ⟨c, hstored, hquiet, hentry⟩
      · rw [flushing_of_pending hpend] at hf
        cases hf
      · rw [hentry] at hk ⊢
        exact ⟨c, ⟨⟨k, hstored, (hits_refilled hstored.writes.2.1).mp hk⟩, hquiet⟩, rfl⟩
    refine ⟨⟨?_, ?_⟩, hlive⟩
    · intro hhit
      obtain ⟨x, hx⟩ := Option.isSome_iff_exists.mp hhit
      obtain ⟨c, hc, -⟩ := hlive x hx
      exact ⟨c, hc⟩
    · rintro ⟨c, ⟨k, hstored, htrans⟩, hquiet⟩
      have hentry := (entry_of_stored h hstored (hmod _) hquiet).1
      have hhits : ((state sw t₀ inp l).entry ((inp l).reqVpn % 2 ^ sw) k).hits
          ((inp l).reqVpn / 2 ^ sw) (inp l).reqAsid = true := by
        rw [hentry]
        exact (hits_refilled hstored.writes.2.1).mpr htrans
      by_contra hmiss
      have hnone : (state sw t₀ inp (l + 1)).resp = none := by
        simpa [respHit] using hmiss
      have hstep := resp_state h hreq
      rw [hnone] at hstep
      have hall := hitEntry_none.mp (Option.map_eq_none_iff.mp hstep.symm) k
      rw [hhits] at hall
      cases hall

/-- A flush, a refill after it and a lookup of the page that was refilled. -/
def flushRefill : ℕ → TlbIn
  | 0 => { idle with flushReq := true }
  | 3 => { idle with refillValid := true, refillAsid := 1, refillVpn := 5, refillPpn := 9,
                     refillPerm := ⟨true, true, false, false, false, false⟩ }
  | 4 => { idle with reqValid := true, reqAsid := 1, reqVpn := 5 }
  | _ => idle
where
  idle : TlbIn := ⟨false, 0, 0, false, false, 0, 0, 0, default⟩

/-- Two sets of two ways, whose RAMs hold translations of the page at power-up. -/
def powerUp : Tlb 2 :=
  .setAssoc ⟨fun _ _ => ⟨⟨true, true, true, true, true, true⟩, 2, 0, 77⟩, fun _ => default, 0, 0,
    false, 0, 0⟩

theorem flush_complete_powerUp :
    (∃ c, Live 1 powerUp flushRefill c 4 5 1) ∧
      (state 1 powerUp flushRefill 5).resp =
        some (9, ⟨true, true, false, false, false, false⟩) := by
  have hreset : powerUp.IsReset 1 := ⟨by decide, rfl, rfl, rfl, rfl, rfl⟩
  have h := (flush_complete 1 powerUp hreset flushRefill).2 2 4 (by decide) (by decide) rfl rfl
    (by decide)
  exact ⟨h.1.mp (by decide), by decide⟩

end Runs

end Tlb

end Muntjac.Core

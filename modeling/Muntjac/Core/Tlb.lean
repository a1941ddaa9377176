import Muntjac.Sync.Bits
import Muntjac.Sync.Select

/-!
# The translation lookaside buffer

`muntjac_tlb` has two bodies, chosen by `SetsWidth`: a fully associative one whose
entries are registers, and a set-associative one whose entries are in RAMs and
whose flush walks the sets.  Both answer a lookup one cycle later, replace ways
round-robin and never merge entries.

The outputs of both bodies are functions of their registers, so the module is a
Moore machine: `Tlb.step` is its clock edge, `Tlb.respHit`, `Tlb.respPpn`,
`Tlb.respPerm` and `Tlb.flushResp` its outputs.  Where the source drives `'x` the
model has a default value.
-/

namespace Muntjac.Core

open Sync

/-- Permissions of a page, as the caches see them. -/
structure PageProt where
  valid : Bool
  readable : Bool
  writable : Bool
  executable : Bool
  user : Bool
  isGlobal : Bool
  deriving DecidableEq, Repr, Inhabited

/-- One cached translation.  In the set-associative body `vpn` omits the set index. -/
structure TlbEntry where
  prot : PageProt
  vpn : ℕ
  asid : ℕ
  ppn : ℕ
  deriving DecidableEq, Repr, Inhabited

/-- The inputs of one cycle. -/
structure TlbIn where
  reqValid : Bool
  reqAsid : ℕ
  reqVpn : ℕ
  flushReq : Bool
  refillValid : Bool
  refillAsid : ℕ
  refillVpn : ℕ
  refillPpn : ℕ
  refillPerm : PageProt
  deriving DecidableEq, Repr

/-- The parallel hit check of one entry. -/
def TlbEntry.hits (e : TlbEntry) (vpn asid : ℕ) : Bool :=
  e.prot.valid && e.vpn == vpn && (e.asid == asid || e.prot.isGlobal)

/-- The entry is valid and translates `vpn` to `ppn` with the permissions `prot`. -/
def TlbEntry.Maps (e : TlbEntry) (vpn ppn : ℕ) (prot : PageProt) : Prop :=
  e.prot = prot ∧ prot.valid = true ∧ e.vpn = vpn ∧ e.ppn = ppn

theorem TlbEntry.maps_of_hits {e : TlbEntry} {vpn asid : ℕ} (h : e.hits vpn asid = true) :
    e.Maps vpn e.ppn e.prot := by
  simp only [hits, Bool.and_eq_true, beq_iff_eq] at h
  exact ⟨rfl, h.1.1, h.1.2, rfl⟩

/-- The entry that a set of entries answers with: the last one that hits. -/
def hitEntry {n : ℕ} (entries : Fin n → TlbEntry) (vpn asid : ℕ) : Option TlbEntry :=
  (lastIdx fun i => (entries i).hits vpn asid).map entries

theorem hitEntry_some {n : ℕ} {entries : Fin n → TlbEntry} {vpn asid : ℕ} {e : TlbEntry}
    (h : hitEntry entries vpn asid = some e) : ∃ i, e = entries i ∧ e.hits vpn asid = true := by
  obtain ⟨i, hi, rfl⟩ := Option.map_eq_some_iff.mp h
  exact ⟨i, rfl, lastIdx_some (f := fun i => (entries i).hits vpn asid) hi⟩

theorem hitEntry_none {n : ℕ} {entries : Fin n → TlbEntry} {vpn asid : ℕ} :
    hitEntry entries vpn asid = none ↔ ∀ i, (entries i).hits vpn asid = false := by
  simp [hitEntry, lastIdx_eq_none]

/-- `repl_index == NumWays - 1 ? 0 : repl_index + 1`. -/
def nextRepl (n r : ℕ) : ℕ := if r == n - 1 then 0 else r + 1

/-! ## The fully associative body -/

/-- Registers of the `fully_assoc` body. -/
structure FullyAssoc (n : ℕ) where
  entries : Fin n → TlbEntry
  hitQ : Bool
  hitPpnQ : ℕ
  hitPermQ : PageProt
  flushRespQ : Bool
  replIndex : ℕ

namespace FullyAssoc
variable {n : ℕ}

/-- The entry that a refill writes. -/
def refill (i : TlbIn) : TlbEntry := ⟨i.refillPerm, i.refillVpn, i.refillAsid, i.refillPpn⟩

/-- The next value of way `k`.  The flush is assigned after the refill and wins. -/
def nextEntry (s : FullyAssoc n) (i : TlbIn) (k : Fin n) : TlbEntry :=
  let e := if i.refillValid && s.replIndex == k then refill i else s.entries k
  if i.flushReq then { e with prot := { e.prot with valid := false } } else e

def step (s : FullyAssoc n) (i : TlbIn) : FullyAssoc n where
  entries := nextEntry s i
  hitQ := i.reqValid && (hitEntry s.entries i.reqVpn i.reqAsid).isSome
  hitPpnQ := if i.reqValid then ((hitEntry s.entries i.reqVpn i.reqAsid).getD default).ppn else 0
  hitPermQ :=
    if i.reqValid then ((hitEntry s.entries i.reqVpn i.reqAsid).getD default).prot else default
  flushRespQ := i.flushReq
  replIndex := if i.refillValid then nextRepl n s.replIndex else s.replIndex

/-- The registers after reset: every entry is invalid. -/
def reset : FullyAssoc n where
  entries := fun _ => default
  hitQ := false
  hitPpnQ := 0
  hitPermQ := default
  flushRespQ := false
  replIndex := 0

end FullyAssoc

/-! ## The set-associative body -/

/-- Registers and RAM contents of the `set_assoc` body.  `ram` is indexed by the set
and by the way; `readRdata` is the registered output of the read port. -/
structure SetAssoc (n : ℕ) where
  ram : ℕ → Fin n → TlbEntry
  readRdata : Fin n → TlbEntry
  asidQ : ℕ
  vpnQ : ℕ
  flushingQ : Bool
  flushIndexQ : ℕ
  replIndexQ : ℕ

/-- A write to the RAMs: the set, the ways written and the data. -/
structure TlbWrite (n : ℕ) where
  addr : ℕ
  ways : Fin n → Bool
  wdata : TlbEntry

namespace SetAssoc
variable {n : ℕ}

/-- The entry that a refill writes. -/
def refill (setsWidth : ℕ) (i : TlbIn) : TlbEntry :=
  ⟨i.refillPerm, i.refillVpn / 2 ^ setsWidth, i.refillAsid, i.refillPpn⟩

/-- The write port.  A flush in progress has it, then a flush request takes the
cycle, then a refill writes one way. -/
def write (setsWidth : ℕ) (s : SetAssoc n) (i : TlbIn) : Option (TlbWrite n) :=
  if s.flushingQ then some ⟨s.flushIndexQ, fun _ => true, default⟩
  else if i.flushReq then none
  else if i.refillValid then
    some ⟨i.refillVpn % 2 ^ setsWidth, fun k => s.replIndexQ == k, refill setsWidth i⟩
  else none

/-- `&flush_index_q`: the flush is at the last set. -/
def lastSet (setsWidth : ℕ) (s : SetAssoc n) : Bool := s.flushIndexQ == 2 ^ setsWidth - 1

/-- The RAM contents after a cycle.  A simultaneous read returns the old contents. -/
def nextRam (setsWidth : ℕ) (s : SetAssoc n) (i : TlbIn) (set : ℕ) (k : Fin n) : TlbEntry :=
  match write setsWidth s i with
  | none => s.ram set k
  | some w => if set == w.addr && w.ways k then w.wdata else s.ram set k

def step (setsWidth : ℕ) (s : SetAssoc n) (i : TlbIn) : SetAssoc n where
  ram := nextRam setsWidth s i
  readRdata := if i.reqValid then s.ram (i.reqVpn % 2 ^ setsWidth) else s.readRdata
  asidQ := if i.reqValid then i.reqAsid else s.asidQ
  vpnQ := if i.reqValid then i.reqVpn / 2 ^ setsWidth else s.vpnQ
  flushingQ := if s.flushingQ then !lastSet setsWidth s else i.flushReq
  flushIndexQ := if s.flushingQ then (s.flushIndexQ + 1) % 2 ^ setsWidth else s.flushIndexQ
  replIndexQ :=
    if s.flushingQ || i.flushReq || !i.refillValid then s.replIndexQ else nextRepl n s.replIndexQ

/-- The registers after reset; the RAMs keep their power-up contents. -/
def IsReset (s : SetAssoc n) : Prop :=
  s.asidQ = 0 ∧ s.vpnQ = 0 ∧ s.flushingQ = false ∧ s.flushIndexQ = 0 ∧ s.replIndexQ = 0

end SetAssoc

/-! ## The module -/

/-- `muntjac_tlb`: the body that `SetsWidth` selects. -/
inductive Tlb (n : ℕ)
  | fullyAssoc (s : FullyAssoc n)
  | setAssoc (s : SetAssoc n)

namespace Tlb
variable {n : ℕ}

def step (setsWidth : ℕ) : Tlb n → TlbIn → Tlb n
  | fullyAssoc s, i => fullyAssoc (s.step i)
  | setAssoc s, i => setAssoc (s.step setsWidth i)

/-- The answer to the lookup of the previous cycle: on a hit the physical page and
its permissions. -/
def resp : Tlb n → Option (ℕ × PageProt)
  | fullyAssoc s => if s.hitQ then some (s.hitPpnQ, s.hitPermQ) else none
  | setAssoc s => (hitEntry s.readRdata s.vpnQ s.asidQ).map fun e => (e.ppn, e.prot)

def respHit (s : Tlb n) : Bool := s.resp.isSome
def respPpn (s : Tlb n) : ℕ := (s.resp.getD default).1
def respPerm (s : Tlb n) : PageProt := (s.resp.getD default).2

def flushResp (setsWidth : ℕ) : Tlb n → Bool
  | fullyAssoc s => s.flushRespQ
  | setAssoc s => s.flushingQ && s.lastSet setsWidth

/-- The generate-if on `SetsWidth`, with the reset values of the registers. -/
def IsReset (setsWidth : ℕ) : Tlb n → Prop
  | fullyAssoc s => setsWidth = 0 ∧ s = FullyAssoc.reset
  | setAssoc s => setsWidth ≠ 0 ∧ s.IsReset

/-! ## What the entries say -/

/-- Some entry translates `vpn` to `ppn` with the permissions `prot`. -/
def Holds (setsWidth : ℕ) : Tlb n → ℕ → ℕ → PageProt → Prop
  | fullyAssoc s, vpn, ppn, prot => ∃ k, (s.entries k).Maps vpn ppn prot
  | setAssoc s, vpn, ppn, prot =>
      ∃ k, (s.ram (vpn % 2 ^ setsWidth) k).Maps (vpn / 2 ^ setsWidth) ppn prot

/-- The flush in progress has not reached the set of `vpn` yet. -/
def Unflushed (setsWidth : ℕ) : Tlb n → ℕ → Prop
  | fullyAssoc _, _ => False
  | setAssoc s, vpn => s.flushingQ = true ∧ s.flushIndexQ ≤ vpn % 2 ^ setsWidth

/-- A flush is walking the sets. -/
def flushing : Tlb n → Bool
  | fullyAssoc _ => false
  | setAssoc s => s.flushingQ

/-- The invariant of the set-associative flush: the index is zero between flushes,
and the sets below it are empty. -/
structure SetAssoc.Wf (setsWidth : ℕ) (s : SetAssoc n) : Prop where
  index_lt : s.flushIndexQ < 2 ^ setsWidth
  index_idle : s.flushingQ = false → s.flushIndexQ = 0
  below : ∀ set < s.flushIndexQ, ∀ k, (s.ram set k).prot.valid = false

/-- The body is the one that `SetsWidth` selects, and its flush is well formed. -/
def Wf (setsWidth : ℕ) : Tlb n → Prop
  | fullyAssoc _ => setsWidth = 0
  | setAssoc s => setsWidth ≠ 0 ∧ SetAssoc.Wf setsWidth s

/-- The lookup that a request performs. -/
def lookup (setsWidth : ℕ) : Tlb n → ℕ → ℕ → Option TlbEntry
  | fullyAssoc s, vpn, asid => hitEntry s.entries vpn asid
  | setAssoc s, vpn, asid => hitEntry (s.ram (vpn % 2 ^ setsWidth)) (vpn / 2 ^ setsWidth) asid

/-- Every entry outside the reach of the flush in progress satisfies `Good`. -/
def Settled (setsWidth : ℕ) (Good : ℕ → ℕ → PageProt → Prop) (t : Tlb n) : Prop :=
  ∀ vpn ppn prot, t.Holds setsWidth vpn ppn prot → Good vpn ppn prot ∨ t.Unflushed setsWidth vpn

section Step
variable {sw : ℕ} {t : Tlb n} {i : TlbIn}

/-- The answer in the cycle after a request is what its lookup found. -/
theorem resp_step (sw : ℕ) (h : i.reqValid = true) :
    (t.step sw i).resp = (t.lookup sw i.reqVpn i.reqAsid).map fun e => (e.ppn, e.prot) := by
  cases t with
  | fullyAssoc s =>
      cases hl : hitEntry s.entries i.reqVpn i.reqAsid <;>
        simp [step, resp, lookup, FullyAssoc.step, h, hl]
  | setAssoc s => simp [step, resp, lookup, SetAssoc.step, h]

/-- A lookup finds an entry of the page it asks for. -/
theorem holds_of_lookup {vpn asid : ℕ} {e : TlbEntry} (h : t.lookup sw vpn asid = some e) :
    t.Holds sw vpn e.ppn e.prot := by
  cases t with
  | fullyAssoc s =>
      obtain ⟨k, rfl, hk⟩ := hitEntry_some h
      exact ⟨k, TlbEntry.maps_of_hits hk⟩
  | setAssoc s =>
      obtain ⟨k, rfl, hk⟩ := hitEntry_some h
      exact ⟨k, TlbEntry.maps_of_hits hk⟩

/-- An entry of the fully associative body is left by the step or written by the
refill, and no flush was requested. -/
private theorem maps_nextEntry {s : FullyAssoc n} {k : Fin n} {vpn ppn : ℕ} {prot : PageProt}
    (h : (s.nextEntry i k).Maps vpn ppn prot) :
    i.flushReq = false ∧ ((s.entries k).Maps vpn ppn prot ∨
      i.refillValid = true ∧ (FullyAssoc.refill i).Maps vpn ppn prot) := by
  unfold FullyAssoc.nextEntry at h
  dsimp only at h
  cases hq : i.flushReq
  · rw [hq, if_neg (by decide)] at h
    split_ifs at h with hr
    · simp only [Bool.and_eq_true] at hr
      exact ⟨rfl, .inr ⟨hr.1, h⟩⟩
    · exact ⟨rfl, .inl h⟩
  · rw [hq, if_pos rfl] at h
    obtain ⟨rfl, hv, -⟩ := h
    exact absurd hv (by simp)

/-- An entry of the set-associative body after a step: a flush in progress spares
only the other sets, and only a refill writes a valid entry. -/
private theorem maps_nextRam {s : SetAssoc n} {set : ℕ} {k : Fin n} {vpn ppn : ℕ}
    {prot : PageProt} (h : (s.nextRam sw i set k).Maps vpn ppn prot) :
    ((s.ram set k).Maps vpn ppn prot ∧ (s.flushingQ = true → set ≠ s.flushIndexQ)) ∨
      (s.flushingQ = false ∧ i.flushReq = false ∧ i.refillValid = true ∧
        set = i.refillVpn % 2 ^ sw ∧ (SetAssoc.refill sw i).Maps vpn ppn prot) := by
  cases hf : s.flushingQ
  · cases hq : i.flushReq
    · cases hr : i.refillValid
      · exact .inl ⟨by simpa [SetAssoc.nextRam, SetAssoc.write, hf, hq, hr] using h, by simp⟩
      · simp only [SetAssoc.nextRam, SetAssoc.write, hf, hq, hr, Bool.false_eq_true, if_false,
          if_true] at h
        split_ifs at h with hw
        · simp only [Bool.and_eq_true, beq_iff_eq] at hw
          exact .inr ⟨rfl, rfl, rfl, hw.1, h⟩
        · exact .inl ⟨h, by simp⟩
    · exact .inl ⟨by simpa [SetAssoc.nextRam, SetAssoc.write, hf, hq] using h, by simp⟩
  · simp only [SetAssoc.nextRam, SetAssoc.write, hf, if_true, Bool.and_true] at h
    split_ifs at h with hw
    · obtain ⟨rfl, hv, -⟩ := h
      exact absurd hv (by decide)
    · exact .inl ⟨h, fun _ => by simpa using hw⟩

/-- A set that is empty, or that a flush is writing, stays empty until a refill. -/
private theorem nextRam_invalid {s : SetAssoc n} {set : ℕ} {k : Fin n} (hf : s.flushingQ = true)
    (h : (s.ram set k).prot.valid = false ∨ set = s.flushIndexQ) :
    (s.nextRam sw i set k).prot.valid = false := by
  by_contra hv
  have hm : (s.nextRam sw i set k).Maps _ _ _ := ⟨rfl, by simpa using hv, rfl, rfl⟩
  rcases maps_nextRam hm with ⟨⟨hp, hval, -⟩, hne⟩ | ⟨hf', -⟩
  · rcases h with h | h
    · rw [← hp, h] at hval
      exact absurd hval (by decide)
    · exact hne hf h
  · simp [hf] at hf'

theorem wf_step (h : t.Wf sw) : (t.step sw i).Wf sw := by
  cases t with
  | fullyAssoc s => exact h
  | setAssoc s =>
      obtain ⟨hsw, hlt, hz, hlow⟩ := h
      refine ⟨hsw, ?_⟩
      have hpos : 0 < 2 ^ sw := Nat.two_pow_pos sw
      cases hf : s.flushingQ
      · have h0 := hz hf
        refine ⟨?_, ?_, ?_⟩ <;> simp [SetAssoc.step, hf, h0, hpos]
      · refine ⟨?_, ?_, ?_⟩
        · simpa [SetAssoc.step, hf] using Nat.mod_lt _ hpos
        · intro hlast
          simp only [SetAssoc.step, hf, if_true, SetAssoc.lastSet, Bool.not_eq_eq_eq_not,
            Bool.not_false, beq_iff_eq] at hlast ⊢
          rw [hlast, Nat.sub_add_cancel hpos, Nat.mod_self]
        · intro set hset k
          simp only [SetAssoc.step, hf, if_true] at hset
          have hle : set ≤ s.flushIndexQ := by
            have := Nat.mod_le (s.flushIndexQ + 1) (2 ^ sw)
            omega
          refine nextRam_invalid hf ?_
          rcases Nat.lt_or_eq_of_le hle with hlt' | heq
          · exact .inl (hlow set hlt' k)
          · exact .inr heq

/-- An entry after a step was there before or is the refill of this cycle. -/
theorem holds_of_step {vpn ppn : ℕ} {prot : PageProt} (h : (t.step sw i).Holds sw vpn ppn prot) :
    t.Holds sw vpn ppn prot ∨
      i.refillValid = true ∧ i.refillVpn = vpn ∧ i.refillPpn = ppn ∧ i.refillPerm = prot := by
  cases t with
  | fullyAssoc s =>
      obtain ⟨k, hk⟩ := h
      obtain ⟨-, hk | ⟨hr, hp, -, hv, hpp⟩⟩ := maps_nextEntry hk
      · exact .inl ⟨k, hk⟩
      · exact .inr ⟨hr, hv, hpp, hp⟩
  | setAssoc s =>
      obtain ⟨k, hk⟩ := h
      rcases maps_nextRam hk with ⟨hk, -⟩ | ⟨-, -, hr, hset, hp, -, hv, hpp⟩
      · exact .inl ⟨k, hk⟩
      · refine .inr ⟨hr, ?_, hpp, hp⟩
        simp only [SetAssoc.refill] at hv
        rw [← Nat.div_add_mod i.refillVpn (2 ^ sw), hv, ← hset, Nat.div_add_mod]

/-- An entry that survives a step was there before and the flush has not passed it. -/
private theorem unflushed_step {s : SetAssoc n} {vpn : ℕ} (hf : s.flushingQ = true)
    (hle : s.flushIndexQ ≤ vpn % 2 ^ sw) (hne : vpn % 2 ^ sw ≠ s.flushIndexQ) :
    ((setAssoc s).step sw i).Unflushed sw vpn := by
  have hlt : vpn % 2 ^ sw < 2 ^ sw := Nat.mod_lt _ (Nat.two_pow_pos sw)
  have hnl : s.lastSet sw = false := by
    simp only [SetAssoc.lastSet, beq_eq_false_iff_ne]
    omega
  refine ⟨by simp [SetAssoc.step, hf, hnl], ?_⟩
  simp only [SetAssoc.step, hf, if_true]
  rw [Nat.mod_eq_of_lt (by omega)]
  omega

/-- A step keeps the entries settled when its refill is good. -/
theorem settled_step {Good : ℕ → ℕ → PageProt → Prop} (h : t.Settled sw Good)
    (hr : i.refillValid = true → Good i.refillVpn i.refillPpn i.refillPerm) :
    (t.step sw i).Settled sw Good := by
  intro vpn ppn prot hh
  rcases holds_of_step hh with hold | ⟨hv, rfl, rfl, rfl⟩
  · rcases h vpn ppn prot hold with hg | hu
    · exact .inl hg
    · cases t with
      | fullyAssoc s => exact hu.elim
      | setAssoc s =>
          obtain ⟨k, hk⟩ := hh
          rcases maps_nextRam hk with ⟨-, hne⟩ | ⟨hf, -⟩
          · exact .inr (unflushed_step hu.1 hu.2 (hne hu.1))
          · simp [hu.1] at hf
  · exact .inl (hr hv)

/-- A flush request settles the entries, whatever they were: it clears them at once
or leaves them to the walk over the sets. -/
theorem settled_flush {Good : ℕ → ℕ → PageProt → Prop} (hwf : t.Wf sw)
    (hq : i.flushReq = true) : (t.step sw i).Settled sw Good := by
  intro vpn ppn prot hh
  cases t with
  | fullyAssoc s =>
      obtain ⟨k, hk⟩ := hh
      have := (maps_nextEntry hk).1
      simp [hq] at this
  | setAssoc s =>
      obtain ⟨k, hk⟩ := hh
      rcases maps_nextRam hk with ⟨⟨hp, hv, -⟩, hne⟩ | ⟨-, hq', -⟩
      · right
        cases hf : s.flushingQ
        · exact ⟨by simp [SetAssoc.step, hf, hq], by simp [SetAssoc.step, hf, hwf.2.index_idle hf]⟩
        · refine unflushed_step hf ?_ (hne hf)
          by_contra hlt
          have := hwf.2.below _ (not_le.mp hlt) k
          rw [hp, hv] at this
          exact absurd this (by decide)
      · simp [hq] at hq'

/-- With no flush in progress every entry of a settled TLB is good. -/
theorem Settled.good {Good : ℕ → ℕ → PageProt → Prop} {vpn ppn : ℕ} {prot : PageProt}
    (h : t.Settled sw Good) (hf : t.flushing = false) (hh : t.Holds sw vpn ppn prot) :
    Good vpn ppn prot := by
  rcases h vpn ppn prot hh with hg | hu
  · exact hg
  · cases t with
    | fullyAssoc s => exact hu.elim
    | setAssoc s =>
        have hf' : s.flushingQ = false := hf
        exact absurd hu.1 (by simp [hf'])

theorem valid_of_holds {vpn ppn : ℕ} {prot : PageProt} (h : t.Holds sw vpn ppn prot) :
    prot.valid = true := by
  cases t with
  | fullyAssoc s =>
      obtain ⟨k, -, hv, -⟩ := h
      exact hv
  | setAssoc s =>
      obtain ⟨k, -, hv, -⟩ := h
      exact hv

/-- Only the set-associative body walks its sets. -/
theorem flushing_of_fullyAssoc (h : t.Wf 0) : t.flushing = false := by
  cases t with
  | fullyAssoc s => rfl
  | setAssoc s => exact absurd rfl h.1

/-- The flush answers in its last cycle. -/
theorem flushing_step (h : t.flushing = true) :
    (t.step sw i).flushing = !t.flushResp sw := by
  cases t with
  | fullyAssoc s => exact absurd h (by simp [flushing])
  | setAssoc s =>
      have hf : s.flushingQ = true := h
      simp [step, flushing, flushResp, SetAssoc.step, hf]

end Step

/-- A flush that will be answered. -/
def FlushPending : Tlb n → Prop
  | fullyAssoc s => s.flushRespQ = true
  | setAssoc s => s.flushingQ = true

/-- The number of cycles until the answer to the flush. -/
def flushRank (setsWidth : ℕ) : Tlb n → ℕ
  | fullyAssoc _ => 0
  | setAssoc s => 2 ^ setsWidth - 1 - s.flushIndexQ

section Flush
variable {sw : ℕ} {t : Tlb n} {i : TlbIn}

theorem FlushPending.step (h : t.FlushPending) (hwf : t.Wf sw) (hr : t.flushResp sw = false) :
    (t.step sw i).FlushPending ∧ (t.step sw i).flushRank sw < t.flushRank sw := by
  cases t with
  | fullyAssoc s =>
      have hq : s.flushRespQ = true := h
      simp [flushResp, hq] at hr
  | setAssoc s =>
      have hf : s.flushingQ = true := h
      have hlt := hwf.2.index_lt
      have hlast : s.lastSet sw = false := by simpa [flushResp, hf] using hr
      have hne : s.flushIndexQ ≠ 2 ^ sw - 1 := by simpa [SetAssoc.lastSet] using hlast
      have hmod : (s.flushIndexQ + 1) % 2 ^ sw = s.flushIndexQ + 1 := Nat.mod_eq_of_lt (by omega)
      constructor
      · simp [FlushPending, Tlb.step, SetAssoc.step, hf, hlast]
      · simp only [flushRank, Tlb.step, SetAssoc.step, hf, if_true, hmod]
        omega

/-- A request for a flush is answered, unless it comes with the answer to the one before. -/
theorem flushPending_of_req (hwf : t.Wf sw) (hq : i.flushReq = true)
    (hr : sw = 0 ∨ t.flushResp sw = false) : (t.step sw i).FlushPending := by
  cases t with
  | fullyAssoc s => exact hq
  | setAssoc s =>
      have hr' : (s.flushingQ && s.lastSet sw) = false := hr.resolve_left hwf.1
      cases hf : s.flushingQ
      · simp [FlushPending, step, SetAssoc.step, hf, hq]
      · have hlast : s.lastSet sw = false := by simpa [hf] using hr'
        simp [FlushPending, step, SetAssoc.step, hf, hlast]

end Flush

theorem wf_of_isReset {sw : ℕ} {t : Tlb n} (h : t.IsReset sw) : t.Wf sw := by
  cases t with
  | fullyAssoc s => exact h.1
  | setAssoc s =>
      obtain ⟨hsw, -, -, hf, hidx, -⟩ := h
      refine ⟨hsw, by rw [hidx]; exact Nat.two_pow_pos sw, fun _ => hidx, ?_⟩
      intro set hset
      omega

end Tlb

end Muntjac.Core

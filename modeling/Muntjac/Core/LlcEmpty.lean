import Muntjac.Core.LlcRouting

/-!
# The tags after reset

The flush logic clears one set in a cycle, from set 0 on, but its last iteration makes no
request: the last set keeps what its RAMs held at power-up.  Every valid tag is for a line that
has been refilled, or is left over from power-up in the last set.

## Main definitions

* `Llc.Refilled` — a refill of the line is complete.
* `Llc.StartsEmpty` — after the flush there is no valid tag, and every hit is on a line that has
  been refilled.
* `Llc.Directory` — the invariant of the tags.

## Main results

* `Directory.step` — one cycle.
* `startsEmpty_iff` — the cache starts empty if and only if the last set does.
-/

namespace Muntjac.Core

open Sync Tl

variable {p : LlcParams}

/-- A tag that is valid is for a line with `R`. -/
def LlcTag.Fresh (p : LlcParams) (R : ℕ → Prop) (set : ℕ) (t : LlcTag) : Prop :=
  t.valid = true → R (cat t.tag p.setsWidth set)

namespace LlcTag
variable {R R' : ℕ → Prop} {set : ℕ} {t u : LlcTag}

theorem Fresh.mono (h : t.Fresh p R set) (hR : ∀ line, R line → R' line) : t.Fresh p R' set :=
  fun hv => hR _ (h hv)

theorem Of.fresh (h : t.Of u) (hu : u.Fresh p R set) : t.Fresh p R set := by
  intro hv
  obtain ⟨huv, htag⟩ := h hv
  rw [htag]
  exact hu huv

theorem fresh_of_invalid (h : t.valid = false) : t.Fresh p R set :=
  fun hv => absurd (h.symm.trans hv) (by simp)

end LlcTag

theorem set_lt (p : LlcParams) (line : ℕ) : p.set line < 2 ^ p.setsWidth :=
  Nat.mod_lt _ (Nat.two_pow_pos _)

namespace Llc
variable {s : Llc p} {i : LlcIn p}

/-! ## The tag port -/

theorem tagReq_of_gnt {k : LlcPort p} (h : s.tagGnt k = true) :
    s.flushTagReq = false ∧ s.tagGrant = some k ∧ ∃ r, s.tagReq k = some r := by
  have hg : s.tagGrant = some k := by simpa [tagGnt] using h
  have hf : s.flushTagReq = false := by
    cases hf : s.flushTagReq with
    | false => rfl
    | true => simp [tagGrant, hf] at hg
  refine ⟨hf, hg, ?_⟩
  rw [← Option.isSome_iff_exists]
  rw [tagGrant, hf] at hg
  simp only [Bool.false_eq_true, if_false] at hg
  rcases Option.or_eq_some_iff.mp hg with hg | ⟨-, hg⟩
  · obtain ⟨j, hj, rfl⟩ := Option.map_eq_some_iff.mp hg
    exact lastIdx_some hj
  · rcases Option.or_eq_some_iff.mp hg with hg | ⟨-, hg⟩
    · split_ifs at hg with hw
      cases hg
      exact hw
    · obtain ⟨j, hj, rfl⟩ := Option.map_eq_some_iff.mp hg
      exact lastIdx_some hj

/-- The tag RAMs after a flush request. -/
theorem tags_of_flush (h : s.flushTagReq = true) (set : ℕ) (way : Fin p.numWays) :
    (s.step i).tags.mem set way =
      if set = s.flushIndex then ⟨0, false, 0, false, false, false⟩ else s.tags.mem set way := by
  change (s.tags.step s.tagAccess).mem set way = _
  rw [tagAccess, if_pos h]
  simp [TagRam.step]

/-- The tag RAMs after a request that is granted, or without one. -/
theorem tags_of_grant (h : s.flushTagReq = false) (set : ℕ) (way : Fin p.numWays) :
    (s.step i).tags.mem set way = s.tags.mem set way ∨
      ∃ k r wdata, s.tagReq k = some r ∧ r.write = some (way, wdata) ∧ p.set r.line = set ∧
        (s.step i).tags.mem set way = wdata := by
  change (s.tags.step s.tagAccess).mem set way = _ ∨
    ∃ k r wdata, _ ∧ _ ∧ _ ∧ (s.tags.step s.tagAccess).mem set way = wdata
  rw [tagAccess, h]
  simp only [Bool.false_eq_true, if_false]
  cases hr : s.tagGrant.bind s.tagReq with
  | none => exact .inl rfl
  | some r =>
      obtain ⟨k, -, hk⟩ := Option.bind_eq_some_iff.mp hr
      rw [Option.map_some]
      cases hw : r.write with
      | none => exact .inl rfl
      | some w =>
          simp only [TagRam.step]
          split_ifs with hc
          · simp only [Bool.and_eq_true, beq_iff_eq] at hc
            exact .inr ⟨k, r, w.2, hk, by rw [hw, hc.2], hc.1.symm, rfl⟩
          · exact .inl rfl

/-- A read that is granted. -/
theorem tags_of_read {k : LlcPort p} {r : LlcTagReq p} (h : s.tagGnt k = true)
    (hk : s.tagReq k = some r) (hr : r.write = none) :
    (s.step i).tagAddrQ = r.line ∧
      ∀ way, (s.step i).tags.rdata way = s.tags.mem (p.set r.line) way := by
  obtain ⟨hf, hg, -⟩ := tagReq_of_gnt h
  change s.nextTagAddr = _ ∧ ∀ way, (s.tags.step s.tagAccess).rdata way = _
  rw [nextTagAddr, tagAccess, hf, hg]
  simp [hk, hr, TagRam.step]

/-! ## The invariant -/

/-- A tag check of a tracker, for its line. -/
def Checks (s : Llc p) (line : ℕ) : Prop :=
  (∃ j, (s.relTracker j).state = .checkTag ∧ lineOf (s.relTracker j).address = line) ∨
    (s.wbTracker.state = .checkTag ∧ s.wbTracker.address = line) ∨
    ∃ j, (s.acqTracker j).state = .checkTag ∧ (s.acqTracker j).rtagValid = true ∧
      lineOf (s.acqTracker j).address = line

/-- A refill of the line is completed. -/
def Refills (s : Llc p) (i : LlcIn p) (line : ℕ) : Prop :=
  ∃ j, (s.acqTracker j).grantReady (s.acqIn i j) = true ∧ s.deviceDLast i = true ∧
    lineOf (s.acqTracker j).address = line

/-- The release is one of a line that the host does not have. -/
def DropsNone (q : Pos CMsg) (s : Llc p) : Prop :=
  ∃ m, q.Current chanC s.hostCReg m ∧ m.param = NtoN

/-- No tracker has got past its tag check. -/
structure Early (q : Pos CMsg) (s : Llc p) : Prop where
  rel : ∀ j, (s.relTracker j).state = .idle ∨ (s.relTracker j).state = .readTag ∨
    ((s.relTracker j).state = .doing ∧ DropsNone q s)
  wb : s.wbTracker.state = .idle ∨ s.wbTracker.state = .readTag
  acq : ∀ j, (s.acqTracker j).state = .idle ∨ (s.acqTracker j).state = .readTag

/-- A tracker of a request has the tag of its line. -/
def acqHolds (s : Llc p) (j : Fin p.acqNum) : Prop :=
  (s.acqTracker j).state ≠ .idle ∧ (s.acqTracker j).state ≠ .readTag ∧
    ((s.acqTracker j).state = .checkTag → (s.acqTracker j).rtagValid = false)

/-- The invariant of the tags: the flush logic has cleared the sets below its index, and `R`
holds of the lines with valid tags. -/
structure Directory (R : ℕ → Prop) (q : Pos CMsg) (init : Fin p.numWays → LlcTag) (s : Llc p) :
    Prop where
  index : s.flushIndex < 2 ^ p.setsWidth
  swept : s.flushState = .reset → ∀ set < s.flushIndex, ∀ way, (s.tags.mem set way).valid = false
  last : s.flushState = .reset → ∀ way, s.tags.mem (2 ^ p.setsWidth - 1) way = init way
  early : s.flushState = .reset → s.Early q
  ram : s.flushState = .idle → ∀ set < 2 ^ p.setsWidth, ∀ way,
    (s.tags.mem set way).Fresh p R set
  read : ∀ line, s.Checks line → s.tagAddrQ = line ∧
    ∀ way, (s.tags.rdata way).Fresh p R (p.set line)
  relDoing : ∀ j, (s.relTracker j).state = .doing → DropsNone q s ∨
    (s.relTracker j).tag.Fresh p R (p.set (lineOf (s.relTracker j).address))
  relTag : ∀ j, (s.relTracker j).state = .updateTag →
    (s.relTracker j).tag.Fresh p R (p.set (lineOf (s.relTracker j).address))
  wbTag : s.wbTracker.state.late = true → s.wbTracker.tag.Fresh p R (p.set s.wbTracker.address)
  acqTag : ∀ j, s.acqHolds j → (s.acqTracker j).tag.Fresh p R (s.acqSet j)

theorem flushTagReq_iff : s.flushTagReq = true ↔ s.flushState = .reset ∧ s.flushLast = false := by
  simp [flushTagReq]

theorem gnt_of_flush (h : s.flushTagReq = true) (k : LlcPort p) : s.tagGnt k = false := by
  simp [tagGnt, tagGrant, h]

/-- The flush goes on. -/
theorem flush_step (h : (s.step i).flushState = .reset) :
    s.flushState = .reset ∧ s.flushTagReq = true := by
  change s.nextFlushState = _ at h
  unfold nextFlushState at h
  split_ifs at h with hc
  refine ⟨h, flushTagReq_iff.mpr ⟨h, ?_⟩⟩
  cases hl : s.flushLast with
  | false => rfl
  | true => exact absurd ⟨h, hl⟩ hc

namespace Directory
variable {R R' : ℕ → Prop} {q : Pos CMsg} {qA : Pos AMsg} {init : Fin p.numWays → LlcTag}

/-- What the RAMs hold while the trackers have the tag port. -/
theorem fresh (h : s.Directory R q init)
    (hinit : ∀ way, (init way).Fresh p R (2 ^ p.setsWidth - 1)) (hf : s.flushTagReq = false)
    {set : ℕ} (hset : set < 2 ^ p.setsWidth) (way : Fin p.numWays) :
    (s.tags.mem set way).Fresh p R set := by
  cases hs : s.flushState with
  | idle => exact h.ram hs set hset way
  | reset =>
      have hlast : s.flushIndex = 2 ^ p.setsWidth - 1 := by
        simpa [flushTagReq, flushLast, hs] using hf
      rcases Nat.lt_or_ge set s.flushIndex with hlt | hge
      · exact LlcTag.fresh_of_invalid (h.swept hs set hlt way)
      · have heq : set = 2 ^ p.setsWidth - 1 := by omega
        rw [heq, h.last hs way]
        exact hinit way

/-- What the trackers write. -/
theorem write_fresh (h : s.Directory R q init) {k : LlcPort p} {r : LlcTagReq p}
    (hk : s.tagReq k = some r) {way : Fin p.numWays} {wdata : LlcTag}
    (hw : r.write = some (way, wdata)) : wdata.Fresh p R (p.set r.line) := by
  cases k with
  | rel j =>
      change (s.relTracker j).tagReq = _ at hk
      unfold RelTracker.tagReq at hk
      cases hs : (s.relTracker j).state <;> rw [hs] at hk <;> cases hk
      · cases hw
      · cases hw
        exact h.relTag j hs
  | wb =>
      change s.wbTracker.tagReq = _ at hk
      unfold WbTracker.tagReq at hk
      cases hs : s.wbTracker.state <;> rw [hs] at hk <;> cases hk
      · cases hw
      · have htag := h.wbTag (by rw [hs]; rfl)
        dsimp only at hw
        split_ifs at hw
        · cases hw
          exact LlcTag.fresh_of_invalid rfl
        · cases hw
          exact htag
  | acq j =>
      change (s.acqTracker j).tagReq = _ at hk
      unfold AcqTracker.tagReq at hk
      cases hs : (s.acqTracker j).state <;> rw [hs] at hk <;> cases hk
      · cases hw
      · cases hw
        exact h.acqTag j ⟨by simp [hs], by simp [hs], by simp [hs]⟩

/-- The tag that a tag check finds. -/
theorem lookup_fresh (h : s.Directory R q init) {line : ℕ} (hc : s.Checks line) :
    s.lookup.tag.Fresh p R (p.set line) := (h.read line hc).2 _

/-- A tag check that hits. -/
theorem hit_spec (h : s.Directory R q init) {line : ℕ} (hc : s.Checks line)
    (hhit : s.lookup.hit = true) : R line := by
  obtain ⟨haddr, hfresh⟩ := h.read line hc
  obtain ⟨way, hway⟩ := firstIdx_isSome.mp hhit
  simp only [hit, Bool.and_eq_true, beq_iff_eq] at hway
  have hR := hfresh way hway.1
  rw [hway.2, haddr] at hR
  exact cat_div_mod line p.setsWidth ▸ hR

theorem dropsNone_step (hr : s.Releases q) (hC : ∀ c, s.hostC i = some c → q.Accepts chanC c)
    {j : Fin p.relNum} (hj : (s.relTracker j).state = .doing)
    (hj' : ((s.step i).relTracker j).state = .doing) (h : DropsNone q s) :
    DropsNone (q.after chanC p.burst (s.hostCFires i)) (s.step i) := by
  obtain ⟨m, hm, hparam⟩ := h
  exact ⟨m, hr.current_step hC (.inr (.inr hj)) (.inr (.inr hj')) hm, hparam⟩

/-- The message of a release that begins. -/
theorem dropsNone_start (hC : ∀ c, s.hostC i = some c → q.Accepts chanC c) {j : Fin p.relNum}
    (hj : (s.relTracker j).state = .idle) {c : CMsg}
    (ho : RelTracker.offered (s.relIn i j) = some c) (hparam : c.param = NtoN) :
    DropsNone (q.after chanC p.burst (s.hostCFires i)) (s.step i) :=
  ⟨c, Releases.current_start hC hj ho, hparam⟩

theorem early_step (h : Early q s) (hf : s.flushTagReq = true) (hr : s.Releases q)
    (hC : ∀ c, s.hostC i = some c → q.Accepts chanC c) :
    Early (q.after chanC p.burst (s.hostCFires i)) (s.step i) where
  rel j := by
    have hgnt : (s.relIn i j).tagGnt = false := gnt_of_flush hf _
    have hd := h.rel j
    cases s.rel_spec i j with
    | stay state _ _ _ _ _ =>
        rw [state]
        rcases hd with hd | hd | ⟨hd, hn⟩
        · exact .inl hd
        · exact .inr (.inl hd)
        · exact .inr (.inr ⟨hd, dropsNone_step hr hC hd (state.trans hd) hn⟩)
    | start state c offered _ state' =>
        split_ifs at state' with hparam
        · exact .inr (.inr ⟨state', dropsNone_start hC state offered hparam⟩)
        · exact .inr (.inl state')
    | read _ gnt _ _ => exact absurd (hgnt.symm.trans gnt) (by simp)
    | miss state _ _ | hit state _ _ _ | finished state _ => simp [state] at hd
    | beat state _ _ _ _ _ state' =>
        rcases hd with hd | hd | ⟨-, hn⟩
        · simp [state] at hd
        · simp [state] at hd
        · exact .inr (.inr ⟨state', dropsNone_step hr hC state state' hn⟩)
    | finish state c offered _ _ state' =>
        rcases hd with hd | hd | ⟨-, m, hm, hn⟩
        · simp [state] at hd
        · simp [state] at hd
        · have hc : s.hostC i = some c := (offeredC_iff.mp offered).1
          have hparam := (CMsg.param_of_header (hm.header_eq hc (hC c hc))).trans hn
          rw [if_pos hparam] at state'
          exact .inl state'
  wb := by
    have hgnt : (s.wbIn i).tagGnt = false := gnt_of_flush hf _
    have hd := h.wb
    cases s.wb_spec i with
    | quiet _ state' => exact .inl state'
    | start _ _ _ _ _ state' | wait _ state' _ => exact .inr state'
    | read _ gnt _ _ => exact absurd (hgnt.symm.trans gnt) (by simp)
    | check state _ _ _ => simp [state] at hd
    | run state _ _ _ => rcases hd with hd | hd <;> simp [hd, LlcWbState.late] at state
    | finish _ state' => exact .inl state'
  acq j := by
    have hgnt : (s.acqIn i j).tagGnt = false := gnt_of_flush hf _
    have hd := h.acq j
    cases s.acq_spec i j with
    | quiet _ state' _ => exact .inl state'
    | start _ _ _ state' _ _ _ | wait _ state' _ => exact .inr state'
    | read _ gnt _ _ => exact absurd (hgnt.symm.trans gnt) (by simp)
    | run state _ _ _ => rcases state with state | state | state <;> simp [state] at hd
    | check state _ _ _ | refill state _ _ _ _ _ _ | get state _ _ _ _ _ | put state _ _ _ _
    | beat state _ _ _ _ _ _ _ | wrote state _ _ _ _ _ | update state _ _ _
    | finish state _ _ _ => simp [state] at hd

/-- While no tracker has got past its tag check, nothing is written. -/
theorem write_of_early (h : Early q s) {k : LlcPort p} {r : LlcTagReq p}
    (hk : s.tagReq k = some r) : r.write = none := by
  cases k with
  | rel j =>
      change (s.relTracker j).tagReq = _ at hk
      unfold RelTracker.tagReq at hk
      rcases h.rel j with hs | hs | ⟨hs, -⟩ <;> rw [hs] at hk <;> cases hk
      rfl
  | wb =>
      change s.wbTracker.tagReq = _ at hk
      unfold WbTracker.tagReq at hk
      rcases h.wb with hs | hs <;> rw [hs] at hk <;> cases hk
      rfl
  | acq j =>
      change (s.acqTracker j).tagReq = _ at hk
      unfold AcqTracker.tagReq at hk
      rcases h.acq j with hs | hs <;> rw [hs] at hk <;> cases hk
      rfl

/-- A tag check that begins. -/
theorem read_step (h : s.Directory R q init)
    (hinit : ∀ way, (init way).Fresh p R (2 ^ p.setsWidth - 1)) {k : LlcPort p}
    (hgnt : s.tagGnt k = true) {line : ℕ} (fallback : Fin p.numWays)
    (hk : s.tagReq k = some ⟨line, fallback, none⟩) :
    (s.step i).tagAddrQ = line ∧ ∀ way, ((s.step i).tags.rdata way).Fresh p R (p.set line) := by
  obtain ⟨haddr, hdata⟩ := tags_of_read (i := i) hgnt hk rfl
  refine ⟨haddr, fun way => ?_⟩
  rw [hdata way]
  exact h.fresh hinit (tagReq_of_gnt hgnt).1 (set_lt p line) way

/-- After the flush, valid tags are only written by trackers. -/
theorem ram_step (h : s.Directory R q init)
    (hinit : ∀ way, (init way).Fresh p R (2 ^ p.setsWidth - 1)) (hf : s.flushTagReq = false)
    {set : ℕ} (hset : set < 2 ^ p.setsWidth) (way : Fin p.numWays) :
    ((s.step i).tags.mem set way).Fresh p R set := by
  rcases tags_of_grant (i := i) hf set way with heq | ⟨k, r, wdata, hk, hw, hrset, heq⟩
  · rw [heq]
    exact h.fresh hinit hf hset way
  · rw [heq, ← hrset]
    exact h.write_fresh hk hw

theorem checks_step (h : s.Directory R q init) (hR : s.Requests qA)
    (hA : ∀ a, s.hostA i = some a → qA.Accepts chanA a ∧ Aligned a)
    (hinit : ∀ way, (init way).Fresh p R (2 ^ p.setsWidth - 1)) {line : ℕ}
    (hc : (s.step i).Checks line) :
    (s.step i).tagAddrQ = line ∧ ∀ way, ((s.step i).tags.rdata way).Fresh p R (p.set line) := by
  rcases hc with ⟨j, hj, rfl⟩ | ⟨hw, rfl⟩ | ⟨j, hj, hvalid, rfl⟩
  · cases s.rel_spec i j with
    | read state gnt _ address =>
        rw [address]
        refine h.read_step hinit gnt 0 ?_
        change (s.relTracker j).tagReq = _
        rw [RelTracker.tagReq, state]
    | stay state _ _ state' _ _ => exact absurd (state.symm.trans hj) state'
    | start _ c _ _ state' =>
        split_ifs at state' <;> exact absurd (state'.symm.trans hj) (by simp)
    | finish _ c _ _ _ state' =>
        split_ifs at state' <;> exact absurd (state'.symm.trans hj) (by simp)
    | miss _ state' _ | hit _ state' _ _ | beat _ _ _ _ _ _ state' | finished _ state' =>
        exact absurd (state'.symm.trans hj) (by simp)
  · cases s.wb_spec i with
    | read state gnt _ address =>
        rw [address]
        refine h.read_step hinit gnt 0 ?_
        change s.wbTracker.tagReq = _
        rw [WbTracker.tagReq, state]
    | check _ state' _ _ | run _ state' _ _ => simp [hw, LlcWbState.late] at state'
    | quiet _ state' | start _ _ _ _ _ state' | wait _ state' _ | finish _ state' =>
        exact absurd (state'.symm.trans hw) (by simp)
  · have hgnt : s.tagGnt (.acq j) = true :=
      (AcqTracker.step_rtagValid (s.acqTracker j) (s.acqIn i j)).symm.trans hvalid
    obtain ⟨-, -, r, hr⟩ := tagReq_of_gnt hgnt
    have hread : (s.acqTracker j).state = .readTag := by
      change (s.acqTracker j).tagReq = _ at hr
      cases s.acq_spec i j with
      | read state _ _ _ => exact state
      | check state _ _ _ | refill state _ _ _ _ _ _ => simp [AcqTracker.tagReq, state] at hr
      | run state _ _ _ =>
          rcases state with state | state | state <;> simp [AcqTracker.tagReq, state] at hr
      | get _ state' _ _ _ _ | update _ state' _ _ | finish _ state' _ _ => simp [hj] at state'
      | quiet _ state' _ | start _ _ _ state' _ _ _ | wait _ state' _ | put _ _ state' _ _
      | beat _ _ _ state' _ _ _ _ | wrote _ _ _ state' _ _ =>
          exact absurd (state'.symm.trans hj) (by simp)
    rw [hR.line_eq hA (by simp [hread])]
    refine h.read_step hinit hgnt (s.acqTracker j).evict ?_
    change (s.acqTracker j).tagReq = _
    rw [AcqTracker.tagReq, hread]

theorem relTag_step (h : s.Directory R q init)
    (hC : ∀ c, s.hostC i = some c → q.Accepts chanC c) {j : Fin p.relNum}
    (hj : ((s.step i).relTracker j).state = .updateTag) :
    ((s.step i).relTracker j).tag.Fresh p R (p.set (lineOf ((s.step i).relTracker j).address)) := by
  cases s.rel_spec i j with
  | stay state address tag _ _ _ =>
      rw [address, tag]
      exact h.relTag j (state.symm.trans hj)
  | finish state c offered address tag state' =>
      rw [address, tag]
      rcases h.relDoing j state with ⟨m, hm, hn⟩ | hfresh
      · have hc : s.hostC i = some c := (offeredC_iff.mp offered).1
        have hparam := (CMsg.param_of_header (hm.header_eq hc (hC c hc))).trans hn
        rw [if_pos hparam] at state'
        exact absurd (state'.symm.trans hj) (by simp)
      · exact hfresh
  | start _ c _ _ state' =>
      split_ifs at state' <;> exact absurd (state'.symm.trans hj) (by simp)
  | read _ _ state' _ | miss _ state' _ | hit _ state' _ _ | beat _ _ _ _ _ _ state'
  | finished _ state' => exact absurd (state'.symm.trans hj) (by simp)

theorem relDoing_step (h : s.Directory R q init) (hr : s.Releases q)
    (hC : ∀ c, s.hostC i = some c → q.Accepts chanC c) {j : Fin p.relNum}
    (hj : ((s.step i).relTracker j).state = .doing) :
    DropsNone (q.after chanC p.burst (s.hostCFires i)) (s.step i) ∨
      ((s.step i).relTracker j).tag.Fresh p R
        (p.set (lineOf ((s.step i).relTracker j).address)) := by
  have hkeep : (s.relTracker j).state = .doing →
      ((s.step i).relTracker j).address = (s.relTracker j).address →
      ((s.step i).relTracker j).tag = (s.relTracker j).tag →
      DropsNone (q.after chanC p.burst (s.hostCFires i)) (s.step i) ∨
        ((s.step i).relTracker j).tag.Fresh p R
          (p.set (lineOf ((s.step i).relTracker j).address)) := by
    intro hs haddress htag
    rw [haddress, htag]
    exact (h.relDoing j hs).imp_left (dropsNone_step hr hC hs hj)
  cases s.rel_spec i j with
  | stay state address tag _ _ _ => exact hkeep (state.symm.trans hj) address tag
  | beat state _ _ _ address tag _ => exact hkeep state address tag
  | start state c offered _ state' =>
      split_ifs at state' with hparam
      · exact .inl (dropsNone_start hC state offered hparam)
      · exact absurd (state'.symm.trans hj) (by simp)
  | hit state _ address tag =>
      rw [address]
      exact .inr (tag.fresh (h.lookup_fresh (.inl ⟨j, state, rfl⟩)))
  | finish _ c _ _ _ state' =>
      split_ifs at state' <;> exact absurd (state'.symm.trans hj) (by simp)
  | read _ _ state' _ | miss _ state' _ | finished _ state' =>
      exact absurd (state'.symm.trans hj) (by simp)

theorem wbTag_step (h : s.Directory R q init) (hw : (s.step i).wbTracker.state.late = true) :
    (s.step i).wbTracker.tag.Fresh p R (p.set (s.step i).wbTracker.address) := by
  cases s.wb_spec i with
  | check state _ address tag =>
      rw [address]
      exact tag.fresh (h.lookup_fresh (.inr (.inl ⟨state, rfl⟩)))
  | run state _ address tag =>
      rw [address]
      exact tag.fresh (h.wbTag state)
  | quiet _ state' | start _ _ _ _ _ state' | wait _ state' _ | read _ _ state' _
  | finish _ state' => simp [state', LlcWbState.late] at hw

theorem acqTag_step (h : s.Directory R q init) (hR : s.Requests qA)
    (hA : ∀ a, s.hostA i = some a → qA.Accepts chanA a ∧ Aligned a)
    (hmono : ∀ line, R line → R' line) (hrefill : ∀ line, s.Refills i line → R' line)
    {j : Fin p.acqNum} (hj : (s.step i).acqHolds j) :
    ((s.step i).acqTracker j).tag.Fresh p R' ((s.step i).acqSet j) := by
  obtain ⟨hidle, hread, hcheck⟩ := hj
  have hset : (s.acqTracker j).state ≠ .idle → (s.step i).acqSet j = s.acqSet j := fun hs => by
    rw [acqSet, acqSet, hR.line_eq hA hs]
  have hkeep : s.acqHolds j → ((s.step i).acqTracker j).tag.Of (s.acqTracker j).tag →
      ((s.step i).acqTracker j).tag.Fresh p R' ((s.step i).acqSet j) := fun hs htag => by
    rw [hset hs.1]
    exact (htag.fresh (h.acqTag j hs)).mono hmono
  cases s.acq_spec i j with
  | quiet _ state' _ => exact absurd state' hidle
  | start _ _ _ state' _ _ _ | wait _ state' _ => exact absurd state' hread
  | read _ gnt state' _ =>
      have hvalid := AcqTracker.step_rtagValid (s.acqTracker j) (s.acqIn i j)
      rw [gnt] at hvalid
      exact absurd ((hcheck state').symm.trans hvalid) (by simp)
  | check state _ _ tag =>
      unfold AcqTracker.checkedTag at tag
      split_ifs at tag with hvalid
      · rw [hset (by simp [state])]
        exact (tag.fresh (h.lookup_fresh (.inr (.inr ⟨j, state, hvalid, rfl⟩)))).mono hmono
      · exact hkeep ⟨by simp [state], by simp [state], fun _ => by simpa using hvalid⟩ tag
  | run state _ _ tag =>
      rcases state with state | state | state <;>
        exact hkeep ⟨by simp [state], by simp [state], by simp [state]⟩ tag
  | refill state d ready last _ _ tag =>
      rw [hset (by simp [state]), tag]
      intro _
      refine hrefill _ ⟨j, ready, last, ?_⟩
      exact (cat_div_mod _ p.setsWidth).symm
  | get state _ _ _ _ tag | put state _ _ _ tag | beat state _ _ _ _ _ _ tag
  | update state _ _ tag | finish state _ _ tag =>
      exact hkeep ⟨by simp [state], by simp [state], by simp [state]⟩ (tag ▸ .refl _)
  | wrote state _ _ _ _ tag =>
      exact hkeep ⟨by simp [state], by simp [state], by simp [state]⟩ tag

/-- One cycle. -/
theorem step (h : s.Directory R q init) (hR : s.Requests qA) (hr : s.Releases q)
    (hA : ∀ a, s.hostA i = some a → qA.Accepts chanA a ∧ Aligned a)
    (hC : ∀ c, s.hostC i = some c → q.Accepts chanC c)
    (hinit : ∀ way, (init way).Fresh p R (2 ^ p.setsWidth - 1))
    (hmono : ∀ line, R line → R' line) (hrefill : ∀ line, s.Refills i line → R' line) :
    (s.step i).Directory R' (q.after chanC p.burst (s.hostCFires i)) init where
  index := by
    change s.nextFlushIndex < _
    unfold nextFlushIndex
    split_ifs
    · exact Nat.mod_lt _ (Nat.two_pow_pos _)
    · exact h.index
  swept hs set hset way := by
    obtain ⟨hreset, hf⟩ := flush_step hs
    have hle : set < s.flushIndex + 1 := by
      have hi : (s.step i).flushIndex ≤ s.flushIndex + 1 := by
        change s.nextFlushIndex ≤ _
        rw [nextFlushIndex, if_pos hreset]
        exact Nat.mod_le _ _
      omega
    rw [tags_of_flush hf]
    split_ifs with heq
    · rfl
    · exact h.swept hreset set (by omega) way
  last hs way := by
    obtain ⟨hreset, hf⟩ := flush_step hs
    rw [tags_of_flush hf, if_neg, h.last hreset way]
    intro heq
    have hl := (flushTagReq_iff.mp hf).2
    simp [flushLast, heq] at hl
  early hs := by
    obtain ⟨hreset, hf⟩ := flush_step hs
    exact early_step (h.early hreset) hf hr hC
  ram hs set hset way := by
    have hf : s.flushTagReq = false := by
      cases hf : s.flushTagReq with
      | false => rfl
      | true =>
          obtain ⟨hreset, hl⟩ := flushTagReq_iff.mp hf
          change s.nextFlushState = _ at hs
          simp [nextFlushState, hreset, hl] at hs
    exact (h.ram_step hinit hf hset way).mono hmono
  read line hc := by
    obtain ⟨haddr, hfresh⟩ := h.checks_step hR hA hinit hc
    exact ⟨haddr, fun way => (hfresh way).mono hmono⟩
  relDoing j hj := (h.relDoing_step hr hC hj).imp_right fun hf => hf.mono hmono
  relTag j hj := (h.relTag_step hC hj).mono hmono
  wbTag hw := (h.wbTag_step hw).mono hmono
  acqTag j hj := h.acqTag_step hR hA hmono hrefill hj

/-- After reset. -/
theorem of_isReset (h : s.IsReset) :
    s.Directory R .idle (fun way => s.tags.mem (2 ^ p.setsWidth - 1) way) where
  index := h.flushIndex ▸ Nat.two_pow_pos _
  swept _ set hset := absurd (h.flushIndex ▸ hset) (Nat.not_lt_zero set)
  last _ _ := rfl
  early _ := ⟨fun j => .inl (h.relTracker j).state, .inl h.wbTracker.state,
    fun j => .inl (h.acqTracker j).state⟩
  ram hs := absurd (h.flushState.symm.trans hs) (by simp)
  read line hc := by
    rcases hc with ⟨j, hj, -⟩ | ⟨hw, -⟩ | ⟨j, hj, -⟩
    · simp [(h.relTracker j).state] at hj
    · simp [h.wbTracker.state] at hw
    · simp [(h.acqTracker j).state] at hj
  relDoing j hj := by simp [(h.relTracker j).state] at hj
  relTag j hj := by simp [(h.relTracker j).state] at hj
  wbTag hw := by simp [h.wbTracker.state, LlcWbState.late] at hw
  acqTag j hj := absurd (h.acqTracker j).state hj.1

end Directory

/-! ## Runs -/

section Runs
variable (s₀ : Llc p) (inp : ℕ → LlcIn p)

/-- The registers in a cycle. -/
def state (n : ℕ) : Llc p := run step s₀ inp n

/-- What arrives on channels A and C are messages one after the other, and those of channel A are
for blocks of memory in a line. -/
structure Conforming : Prop where
  hostA : ∀ n, Legal chanA p.burst Aligned
    (stream (fun k => RegSlice.Reverse.taken (state s₀ inp k).hostAReg (inp k).hostA) n)
  hostC : ∀ n, Legal chanC p.burst (fun _ => True)
    (stream (fun k => RegSlice.Reverse.taken (state s₀ inp k).hostCReg (inp k).hostC) n)

/-- A refill of the line has been completed. -/
def Refilled (n line : ℕ) : Prop := ∃ k < n, (state s₀ inp k).Refills (inp k) line

/-- When the flush ends no tag is valid, and no tag check hits a line that has not been
refilled. -/
structure StartsEmpty : Prop where
  flushed : ∀ n, (state s₀ inp n).flushState = .reset → (state s₀ inp (n + 1)).flushState = .idle →
    ∀ set < 2 ^ p.setsWidth, ∀ way, ((state s₀ inp (n + 1)).tags.mem set way).valid = false
  hits : ∀ n line, (state s₀ inp n).Checks line → (state s₀ inp n).lookup.hit = true →
    Refilled s₀ inp n line

/-- A line whose tag is left over from power-up. -/
def LeftOver (line : ℕ) : Prop :=
  ∃ way, (s₀.tags.mem (2 ^ p.setsWidth - 1) way).valid = true ∧
    cat (s₀.tags.mem (2 ^ p.setsWidth - 1) way).tag p.setsWidth (2 ^ p.setsWidth - 1) = line

variable {s₀ inp}

/-- The invariants in every cycle of a run. -/
theorem directory_run (h0 : s₀.IsReset) (hc : Conforming s₀ inp) (n : ℕ) :
    (state s₀ inp n).Requests
        (posOf chanA p.burst (stream (fun k => (state s₀ inp k).hostAFires (inp k)) n)) ∧
      (state s₀ inp n).Releases
        (posOf chanC p.burst (stream (fun k => (state s₀ inp k).hostCFires (inp k)) n)) ∧
      (state s₀ inp n).Directory (fun line => Refilled s₀ inp n line ∨ LeftOver s₀ line)
        (posOf chanC p.burst (stream (fun k => (state s₀ inp k).hostCFires (inp k)) n))
        (fun way => s₀.tags.mem (2 ^ p.setsWidth - 1) way) := by
  induction n with
  | zero =>
      exact ⟨Requests.of_isReset h0, Releases.of_isReset h0, Directory.of_isReset h0⟩
  | succ n ih =>
      obtain ⟨hR, hr, hd⟩ := ih
      have hA : ∀ a, (state s₀ inp n).hostA (inp n) = some a →
          (posOf chanA p.burst
            (stream (fun k => (state s₀ inp k).hostAFires (inp k)) n)).Accepts chanA a ∧
          Aligned a := fun a ha =>
        legal_rData (f := fun k => (state s₀ inp k).hostAReg) h0.hostAReg (fun _ => rfl) hc.hostA n
          ha
      have hC : ∀ c, (state s₀ inp n).hostC (inp n) = some c →
          (posOf chanC p.burst
            (stream (fun k => (state s₀ inp k).hostCFires (inp k)) n)).Accepts chanC c :=
        fun c hcc =>
        (legal_rData (f := fun k => (state s₀ inp k).hostCReg) h0.hostCReg (fun _ => rfl) hc.hostC n
          hcc).1
      rw [stream_succ, stream_succ, posOf_after, posOf_after]
      refine ⟨hR.step hA, hr.step hR hA hC, hd.step hR hr hA hC ?_ ?_ ?_⟩
      · exact fun way hv => .inr ⟨way, hv, rfl⟩
      · rintro line (⟨k, hk, hline⟩ | hline)
        · exact .inl ⟨k, by omega, hline⟩
        · exact .inr hline
      · exact fun line hline => .inl ⟨n, by omega, hline⟩

/-- The tags when the flush ends. -/
theorem mem_of_flushed {q : Pos CMsg} {R : ℕ → Prop} {init : Fin p.numWays → LlcTag}
    (h : s.Directory R q init) (hs : s.flushState = .reset)
    (hs' : (s.step i).flushState = .idle) :
    s.flushIndex = 2 ^ p.setsWidth - 1 ∧
      ∀ set way, (s.step i).tags.mem set way = s.tags.mem set way := by
  have hf : s.flushTagReq = false := by
    cases hf : s.flushTagReq with
    | false => rfl
    | true =>
        have hl := (flushTagReq_iff.mp hf).2
        change s.nextFlushState = _ at hs'
        simp [nextFlushState, hs, hl] at hs'
  refine ⟨by simpa [flushTagReq, flushLast, hs] using hf, fun set way => ?_⟩
  rcases tags_of_grant (i := i) hf set way with heq | ⟨k, r, wdata, hk, hw, -, -⟩
  · exact heq
  · rw [Directory.write_of_early (h.early hs) hk] at hw
    cases hw

/-- The flush takes a cycle for each set. -/
theorem flush_run (inp : ℕ → LlcIn p) (h0 : s₀.IsReset) (n : ℕ) (hn : n < 2 ^ p.setsWidth) :
    (state s₀ inp n).flushState = .reset ∧ (state s₀ inp n).flushIndex = n := by
  induction n with
  | zero => exact ⟨h0.flushState, h0.flushIndex⟩
  | succ n ih =>
      obtain ⟨hs, hi⟩ := ih (by omega)
      have hl : (state s₀ inp n).flushLast = false := by
        simp only [flushLast, hi, decide_eq_false_iff_not]
        omega
      change (state s₀ inp n).nextFlushState = _ ∧ (state s₀ inp n).nextFlushIndex = _
      rw [nextFlushState, nextFlushIndex, if_neg (by simp [hl]), if_pos hs, hi,
        Nat.mod_eq_of_lt hn]
      exact ⟨hs, rfl⟩

/-- The cache starts empty if and only if the last set, which the flush leaves out, holds no valid
tag at power-up. -/
theorem startsEmpty_iff (p : LlcParams) (s₀ : Llc p) (inp : ℕ → LlcIn p) (h0 : s₀.IsReset)
    (hc : Conforming s₀ inp) :
    StartsEmpty s₀ inp ↔ ∀ way, (s₀.tags.mem (2 ^ p.setsWidth - 1) way).valid = false := by
  have hpos := Nat.two_pow_pos p.setsWidth
  constructor
  · intro h way
    obtain ⟨hs, hi⟩ := flush_run inp h0 (2 ^ p.setsWidth - 1) (by omega)
    obtain ⟨-, -, hd⟩ := directory_run h0 hc (2 ^ p.setsWidth - 1)
    have hs' : (state s₀ inp (2 ^ p.setsWidth - 1 + 1)).flushState = .idle := by
      change (state s₀ inp (2 ^ p.setsWidth - 1)).nextFlushState = _
      rw [nextFlushState, if_pos ⟨hs, by simp [flushLast, hi]⟩]
    have hempty := h.flushed _ hs hs' (2 ^ p.setsWidth - 1) (by omega) way
    have hmem := (mem_of_flushed hd hs hs').2 (2 ^ p.setsWidth - 1) way
    have hinit := hd.last hs way
    rw [← hinit, ← hmem]
    exact hempty
  · intro hlast
    have hnone : ∀ line, ¬LeftOver s₀ line := by
      rintro line ⟨way, hv, -⟩
      rw [hlast way] at hv
      cases hv
    refine ⟨fun n hs hs' set hset way => ?_, fun n line hcheck hhit => ?_⟩
    · obtain ⟨-, -, hd⟩ := directory_run h0 hc n
      obtain ⟨hi, hmem⟩ := mem_of_flushed hd hs hs'
      change ((Llc.step (state s₀ inp n) (inp n)).tags.mem set way).valid = false
      rw [hmem set way]
      rcases Nat.lt_or_ge set (state s₀ inp n).flushIndex with hlt | hge
      · exact hd.swept hs set hlt way
      · have heq : set = 2 ^ p.setsWidth - 1 := by omega
        rw [heq, hd.last hs way]
        exact hlast way
    · obtain ⟨-, -, hd⟩ := directory_run h0 hc n
      exact (hd.hit_spec hcheck hhit).resolve_right (hnone line)

end Runs

/-! ### A small cache

Two sets of two ways; every tag has the same valid bit at power-up, and nothing arrives. -/

def smallCache : LlcParams where
  setsWidth := 1
  waysWidth := 1
  nonBurst := 3
  relNum := 1
  acqNum := 1
  sinkBase := 0
  deviceSourceBase := 0
  policy := .all
  hosts := []

def powerUp (valid : Bool) : Llc smallCache where
  tags := ⟨fun _ _ => ⟨0, false, 0, false, false, valid⟩, fun _ => default⟩
  tagAddrQ := 0
  tagWayFallbackQ := 0
  hostAReg := .reset
  hostCReg := .reset
  req := .reset smallCache.burst
  rel := .reset smallCache.burst
  gnt := .reset smallCache.burst
  flushState := .reset
  flushIndex := 0
  relTracker _ := ⟨.idle, 0, false, false, default, 0⟩
  wbTracker :=
    ⟨.idle, 0, 0, 0, false, 0, default, none, false, false, false, false, false, false, false⟩
  acqTracker _ :=
    ⟨.idle, .get, 0, 0, 0, 0, default, 0, 0, false, false, false, false, false, false, false, false,
      false, false⟩

def quietIn : LlcIn smallCache where
  hostA := none
  hostC := none
  hostE := none
  deviceB := none
  deviceD := none
  dataGnt _ := false
  hostDReady _ := false
  probeReady _ := false
  deviceAReady _ := false
  deviceCReady := false
  deviceEReady _ := false

theorem isReset_powerUp (valid : Bool) : (powerUp valid).IsReset where
  tagAddrQ := rfl
  hostAReg := rfl
  hostCReg := rfl
  req := rfl
  rel := rfl
  gnt := rfl
  flushState := rfl
  flushIndex := rfl
  relTracker _ := ⟨rfl, rfl, rfl⟩
  wbTracker := ⟨rfl, rfl, rfl, rfl, rfl, rfl, rfl, rfl, rfl, rfl⟩
  acqTracker _ := ⟨rfl, rfl, rfl, rfl, rfl, rfl, rfl, rfl, rfl, rfl, rfl, rfl, rfl⟩

theorem conforming_quiet (valid : Bool) : Conforming (powerUp valid) fun _ => quietIn := by
  have hnil : ∀ {β : Type} {c : Chan β} {ok : β → Prop} (f : ℕ → RegSlice β) n,
      Legal c smallCache.burst ok (stream (fun k => RegSlice.Reverse.taken (f k) none) n) := by
    intro β c ok f n
    have hstream : stream (fun k => RegSlice.Reverse.taken (f k) none) n = [] := by
      induction n with
      | zero => rfl
      | succ n ih => rw [stream_succ, ih]; simp [RegSlice.Reverse.taken]
    rw [hstream]
    exact Legal.nil
  exact ⟨hnil _, hnil _⟩

/-- Without valid tags at power-up. -/
theorem startsEmpty_powerUp : StartsEmpty (powerUp false) fun _ => quietIn :=
  (startsEmpty_iff smallCache (powerUp false) (fun _ => quietIn) (isReset_powerUp false)
    (conforming_quiet false)).mpr fun _ => rfl

/-- With valid tags at power-up, those of set 1 are valid after the flush. -/
theorem not_startsEmpty_powerUp :
    ((powerUp true).IsReset ∧ Conforming (powerUp true) fun _ => quietIn) ∧
      ¬StartsEmpty (powerUp true) fun _ => quietIn := by
  refine ⟨⟨isReset_powerUp true, conforming_quiet true⟩, fun h => ?_⟩
  have hempty := h.flushed 1 (by decide) (by decide) 1 (by decide) 0
  exact absurd hempty (by decide)

end Llc

end Muntjac.Core

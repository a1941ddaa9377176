import Muntjac.Core.Llc

/-!
# What the trackers do in a cycle

One lemma for each tracker says how its state, its address and its tag may change.  The tag
of a tracker comes from its tag check or, for a request, from a refill; what changes apart from
that are the permissions in it.

## Main results

* `RelTracker.step_spec`, `WbTracker.step_spec`, `AcqTracker.step_spec` — one cycle.
-/

namespace Muntjac.Core

open Sync Tl

/-- Tag `t` is not valid, or it is for the same line as `u`, which is valid. -/
def LlcTag.Of (t u : LlcTag) : Prop := t.valid = true → u.valid = true ∧ t.tag = u.tag

theorem LlcTag.Of.refl (t : LlcTag) : t.Of t := fun h => ⟨h, rfl⟩

theorem LlcTag.of_invalid {t u : LlcTag} (h : t.valid = false) : t.Of u := fun ht => by
  rw [h] at ht
  cases ht

variable {p : LlcParams}

/-! ## Releases -/

namespace RelTracker
variable {x : RelTracker p} {i : RelIn p}

/-- How a release tracker may change. -/
inductive Steps (x : RelTracker p) (i : RelIn p) (y : RelTracker p) : Prop
  | stay (state : y.state = x.state) (address : y.address = x.address) (tag : y.tag = x.tag)
      (state' : x.state ≠ .checkTag) (quiet : x.state = .idle → RelTracker.offered i = none)
      (ready : x.hostCReady i = false)
  | start (state : x.state = .idle) (c : CMsg) (offered : RelTracker.offered i = some c)
      (address : y.address = c.address)
      (state' : y.state = if c.param = NtoN then .doing else .readTag)
  | read (state : x.state = .readTag) (gnt : i.tagGnt = true) (state' : y.state = .checkTag)
      (address : y.address = x.address)
  | miss (state : x.state = .checkTag) (state' : y.state = .error) (address : y.address = x.address)
  | hit (state : x.state = .checkTag) (state' : y.state = .doing) (address : y.address = x.address)
      (tag : y.tag.Of i.lookup.tag)
  | beat (state : x.state = .doing) (c : CMsg) (offered : RelTracker.offered i = some c)
      (last : i.last = false) (address : y.address = x.address) (tag : y.tag = x.tag)
      (state' : y.state = .doing)
  | finish (state : x.state = .doing) (c : CMsg) (offered : RelTracker.offered i = some c)
      (address : y.address = x.address) (tag : y.tag = x.tag)
      (state' : y.state = if c.param = NtoN then .idle else .updateTag)
  | finished (state : x.state = .updateTag) (state' : y.state = .idle)

theorem released_of : (released i).Of i.lookup.tag := fun h => ⟨h, rfl⟩

theorem not_ready (h : x.state ≠ .doing) : x.hostCReady i = false := by
  simp [hostCReady, h]

theorem step_spec (x : RelTracker p) (i : RelIn p) : Steps x i (x.step i) := by
  unfold step
  cases hs : x.state with
  | idle =>
      cases ho : offered i with
      | none => exact .stay rfl rfl rfl (by simp [hs]) (fun _ => ho) (not_ready (by simp [hs]))
      | some c => exact .start hs c ho rfl rfl
  | readTag =>
      cases hg : i.tagGnt with
      | false =>
          exact .stay rfl rfl rfl (by simp [hs]) (by simp [hs]) (not_ready (by simp [hs]))
      | true => exact .read hs hg rfl rfl
  | checkTag =>
      cases hh : i.lookup.hit with
      | false => exact .miss hs rfl rfl
      | true => exact .hit hs rfl rfl released_of
  | doing =>
      cases ho : offered i with
      | none => exact .stay rfl rfl rfl (by simp [hs]) (by simp [hs]) (by simp [hostCReady, ho])
      | some c =>
          cases hr : x.hostCReady i with
          | false => exact .stay hs.symm rfl rfl (by simp [hs]) (by simp [hs]) hr
          | true =>
              cases hl : i.last with
              | false => exact .beat hs c ho hl rfl rfl rfl
              | true => exact .finish hs c ho rfl rfl rfl
  | updateTag =>
      cases hg : i.tagGnt with
      | false =>
          exact .stay rfl rfl rfl (by simp [hs]) (by simp [hs]) (not_ready (by simp [hs]))
      | true => exact .finished hs rfl
  | error => exact .stay rfl rfl rfl (by simp [hs]) (by simp [hs]) (not_ready (by simp [hs]))

end RelTracker

/-! ## Writebacks -/

/-- The tracker has checked the tag. -/
def LlcWbState.late : LlcWbState → Bool
  | .idle | .readTag | .checkTag => false
  | .probe | .doData | .doing | .updateTag | .done => true

namespace WbTracker
variable {x : WbTracker p} {i : WbIn p}

/-- How the writeback tracker may change. -/
inductive Steps (x : WbTracker p) (i : WbIn p) (y : WbTracker p) : Prop
  | quiet (state : x.state = .idle) (state' : y.state = .idle)
  | start (state : x.state = .idle) (r : LlcWbReq p) (req : i.req = some r)
      (blocked : i.blocked = false) (address : y.address = r.address) (state' : y.state = .readTag)
  | wait (state : x.state = .readTag) (state' : y.state = .readTag)
      (address : y.address = x.address)
  | read (state : x.state = .readTag) (gnt : i.tagGnt = true) (state' : y.state = .checkTag)
      (address : y.address = x.address)
  | check (state : x.state = .checkTag) (state' : y.state.late = true)
      (address : y.address = x.address) (tag : y.tag.Of i.lookup.tag)
  | run (state : x.state.late = true) (state' : y.state.late = true)
      (address : y.address = x.address) (tag : y.tag.Of x.tag)
  | finish (state : x.state = .done) (state' : y.state = .idle)

theorem drop_late (x : WbTracker p) (t : LlcTag) : (x.drop t).state.late = true := by
  unfold drop
  split_ifs <;> rfl

@[simp] theorem drop_address (x : WbTracker p) (t : LlcTag) : (x.drop t).address = x.address := by
  unfold drop
  split_ifs <;> rfl

@[simp] theorem drop_tag (x : WbTracker p) (t : LlcTag) : (x.drop t).tag = x.tag := by
  unfold drop
  split_ifs <;> rfl

theorem answered_of (c : CMsg) : (x.answered i c).Of x.tag := by
  unfold answered
  split_ifs <;> exact fun h => ⟨h, rfl⟩

theorem stepState_spec (x : WbTracker p) (i : WbIn p) : Steps x i (x.stepState i) := by
  unfold stepState
  cases hs : x.state with
  | idle =>
      cases hr : i.req with
      | none => exact .quiet hs hs
      | some r =>
          cases hb : i.blocked with
          | true => exact .quiet hs hs
          | false => exact .start hs r hr hb rfl rfl
  | readTag =>
      cases hg : i.tagGnt with
      | false => exact .wait hs hs rfl
      | true => exact .read hs hg rfl rfl
  | checkTag =>
      refine .check hs ?_ ?_ ?_ <;> dsimp only <;> split_ifs <;>
        first
          | rfl
          | exact drop_late _ _
          | exact drop_address _ _
          | exact .refl _
          | simpa using LlcTag.Of.refl _
  | probe =>
      have hl : x.state.late = true := by rw [hs]; rfl
      refine .run hl ?_ ?_ ?_ <;> dsimp only <;> split <;> (try split_ifs) <;>
        first
          | rfl
          | exact hl
          | exact drop_late _ _
          | exact drop_address _ _
          | exact .refl _
          | exact answered_of _
          | simpa using answered_of _
  | doData =>
      have hl : x.state.late = true := by rw [hs]; rfl
      refine .run hl ?_ ?_ ?_ <;> dsimp only <;> split_ifs <;>
        first
          | rfl
          | exact hl
          | exact .refl _
  | doing =>
      have hl : x.state.late = true := by rw [hs]; rfl
      refine .run hl ?_ ?_ ?_ <;> dsimp only <;> split_ifs <;>
        first
          | rfl
          | exact hl
          | exact .refl _
  | updateTag =>
      have hl : x.state.late = true := by rw [hs]; rfl
      refine .run hl ?_ ?_ ?_ <;> dsimp only <;> split_ifs <;>
        first
          | rfl
          | exact hl
          | exact .refl _
  | done =>
      cases ha : x.acked with
      | true => exact .finish hs rfl
      | false =>
          have hl : x.state.late = true := by rw [hs]; rfl
          exact .run hl hl rfl (.refl _)

theorem step_spec (x : WbTracker p) (i : WbIn p) : Steps x i (x.step i) := by
  unfold step
  have h := stepState_spec x i
  dsimp only
  split_ifs
  · cases h with
    | quiet state state' => exact .quiet state state'
    | start state r req blocked address state' => exact .start state r req blocked address state'
    | wait state state' address => exact .wait state state' address
    | read state gnt state' address => exact .read state gnt state' address
    | check state state' address tag => exact .check state state' address tag
    | run state state' address tag => exact .run state state' address tag
    | finish state state' => exact .finish state state'
  · exact h

end WbTracker

/-! ## Requests -/

namespace AcqTracker
variable {x y z : AcqTracker p} {i : AcqIn p}

/-- `opcode inside {PutFullData, PutPartialData}`. -/
def isPut (o : AOp) : Bool := o == .putFullData || o == .putPartialData

/-- The request stays as it is. -/
structure Same (x y : AcqTracker p) : Prop where
  opcode : y.opcode = x.opcode
  size : y.size = x.size
  address : y.address = x.address

theorem Same.refl (x : AcqTracker p) : Same x x := ⟨rfl, rfl, rfl⟩

/-- The tag that a tag check proceeds with. -/
def checkedTag (x : AcqTracker p) (i : AcqIn p) : LlcTag :=
  if x.rtagValid then i.lookup.tag else x.tag

/-- How a tracker of requests may change. -/
inductive Steps (x : AcqTracker p) (i : AcqIn p) (y : AcqTracker p) : Prop
  | quiet (state : x.state = .idle) (state' : y.state = .idle) (same : Same x y)
  | start (state : x.state = .idle) (a : AMsg) (offered : AcqTracker.offeredA i = some a)
      (state' : y.state = .readTag) (opcode : y.opcode = a.opcode) (size : y.size = a.size)
      (address : y.address = a.address)
  | wait (state : x.state = .readTag) (state' : y.state = .readTag) (same : Same x y)
  | read (state : x.state = .readTag) (gnt : i.tagGnt = true) (state' : y.state = .checkTag)
      (same : Same x y)
  | check (state : x.state = .checkTag)
      (state' : y.state = .checkTag ∨ y.state = .probe ∨ y.state = .wb ∨ y.state = .fill ∨
        (y.state = .get ∧ isPut x.opcode = false) ∨ (y.state = .put ∧ isPut x.opcode = true) ∨
        (y.state = .updateTag ∧ isPut x.opcode = false))
      (same : Same x y) (tag : y.tag.Of (x.checkedTag i))
  | run (state : x.state = .probe ∨ x.state = .wb ∨ x.state = .fill)
      (state' : y.state = .checkTag ∨ y.state = .probe ∨ y.state = .wb ∨ y.state = .fill)
      (same : Same x y) (tag : y.tag.Of x.tag)
  | refill (state : x.state = .fill) (d : DMsg) (ready : x.grantReady i = true)
      (last : i.lastD = true) (state' : y.state = .checkTag) (same : Same x y)
      (tag : y.tag = x.refilled d)
  | get (state : x.state = .get) (state' : y.state = .get ∨ y.state = .updateTag)
      (opcode : y.opcode = x.opcode) (size : y.size = x.size)
      (address : y.address / 2 ^ x.size = x.address / 2 ^ x.size) (tag : y.tag = x.tag)
  | put (state : x.state = .put) (ready : x.hostAReady i = false) (state' : y.state = .put)
      (same : Same x y) (tag : y.tag = x.tag)
  | beat (state : x.state = .put) (ready : x.hostAReady i = true) (last : i.lastA = false)
      (state' : y.state = .put) (opcode : y.opcode = x.opcode) (size : y.size = x.size)
      (address : y.address = x.address + 2 ^ p.nonBurst) (tag : y.tag = x.tag)
  | wrote (state : x.state = .put) (ready : x.hostAReady i = true) (last : i.lastA = true)
      (state' : y.state = .updateTag) (same : Same x y) (tag : y.tag.Of x.tag)
  | update (state : x.state = .updateTag) (state' : y.state = .updateTag ∨ y.state = .ackWait)
      (same : Same x y) (tag : y.tag = x.tag)
  | finish (state : x.state = .ackWait) (state' : y.state = .ackWait ∨ y.state = .idle)
      (same : Same x y) (tag : y.tag = x.tag)

theorem answered_of (c : CMsg) : (x.answered i c).Of x.tag := by
  unfold answered
  dsimp only
  split_ifs <;> exact fun h => ⟨h, rfl⟩

/-- What `serve` may do. -/
theorem serve_spec (x : AcqTracker p) :
    (x.serve.state = x.state ∨ x.serve.state = .probe ∨
      (x.serve.state = .get ∧ isPut x.opcode = false) ∨
      (x.serve.state = .put ∧ isPut x.opcode = true)) ∧
    Same x x.serve ∧ x.serve.tag.Of x.tag := by
  unfold serve
  cases ho : x.opcode <;> dsimp only <;> (try split_ifs) <;>
    refine ⟨?_, ⟨by simp [ho], rfl, rfl⟩, fun h => ⟨h, rfl⟩⟩ <;> simp [isPut]

/-- What a tag check may do. -/
theorem check_spec (x : AcqTracker p) (i : AcqIn p) (hs : x.state = .checkTag) :
    ((x.check i).state = .checkTag ∨ (x.check i).state = .probe ∨ (x.check i).state = .wb ∨
      (x.check i).state = .fill ∨ ((x.check i).state = .get ∧ isPut x.opcode = false) ∨
      ((x.check i).state = .put ∧ isPut x.opcode = true) ∨
      ((x.check i).state = .updateTag ∧ isPut x.opcode = false)) ∧
    Same x (x.check i) ∧ (x.check i).tag.Of (x.checkedTag i) := by
  have hy : ∀ y : AcqTracker p, y.state = .checkTag → Same x y → y.tag = x.checkedTag i →
      let z := y.serve
      let z := if z.state = .get ∧ x.dataSent = true then { z with state := .updateTag } else z
      let z : AcqTracker p :=
        if z.state ≠ .probe ∧ x.param = toT ∧ z.tag.writable = false then { z with state := .fill }
        else z
      (z.state = .checkTag ∨ z.state = .probe ∨ z.state = .wb ∨ z.state = .fill ∨
        (z.state = .get ∧ isPut x.opcode = false) ∨ (z.state = .put ∧ isPut x.opcode = true) ∨
        (z.state = .updateTag ∧ isPut x.opcode = false)) ∧
      Same x z ∧ z.tag.Of (x.checkedTag i) := by
    intro y hstate hsame htag
    obtain ⟨hst, hserve, hof⟩ := serve_spec y
    rw [hstate, hsame.opcode] at hst
    have hsame' : Same x y.serve :=
      ⟨hserve.opcode.trans hsame.opcode, hserve.size.trans hsame.size,
        hserve.address.trans hsame.address⟩
    rw [htag] at hof
    dsimp only
    split_ifs with h1 h2 h2
    · exact ⟨by simp, ⟨hsame'.opcode, hsame'.size, hsame'.address⟩, hof⟩
    · refine ⟨?_, ⟨hsame'.opcode, hsame'.size, hsame'.address⟩, hof⟩
      simp only [h1.1, reduceCtorEq, false_or, false_and, or_false, true_and] at hst
      simp [hst]
    · exact ⟨by simp, ⟨hsame'.opcode, hsame'.size, hsame'.address⟩, hof⟩
    · refine ⟨?_, hsame', hof⟩
      rcases hst with h | h | h | h <;> simp [h]
  unfold check
  dsimp only
  cases hr : x.rtagValid with
  | false =>
      simp only [Bool.false_eq_true, if_false, Bool.false_and]
      exact hy x hs (.refl x) (by simp [checkedTag, hr])
  | true =>
      simp only [if_true, Bool.true_and]
      cases hh : i.lookup.hit with
      | true =>
          simp only [Bool.not_true, Bool.false_eq_true, if_false]
          exact hy { x with way := i.lookup.way, tag := i.lookup.tag, rtagValid := true } hs
            ⟨rfl, rfl, rfl⟩ (by simp [checkedTag, hr])
      | false =>
          refine ⟨?_, ⟨rfl, rfl, rfl⟩, LlcTag.of_invalid rfl⟩
          simp only [Bool.not_false, if_true]
          split_ifs <;> simp

theorem stepState_spec (x : AcqTracker p) (i : AcqIn p) : Steps x i (x.stepState i) := by
  unfold stepState
  cases hs : x.state with
  | idle =>
      cases ho : offeredA i with
      | none => exact .quiet hs hs (.refl x)
      | some a =>
          refine .start hs a ho ?_ ?_ ?_ ?_ <;> dsimp only <;> unfold start <;>
            cases a.opcode <;> rfl
  | readTag =>
      cases hg : i.tagGnt with
      | false => exact .wait hs hs (.refl x)
      | true => exact .read hs hg rfl ⟨rfl, rfl, rfl⟩
  | checkTag =>
      obtain ⟨hst, hsame, htag⟩ := check_spec x i hs
      exact .check hs hst hsame htag
  | probe =>
      have hx : x.state = .probe ∨ x.state = .wb ∨ x.state = .fill := .inl hs
      dsimp only
      cases offeredC i with
      | none => exact .run hx (.inr (.inl rfl)) ⟨rfl, rfl, rfl⟩ (.refl _)
      | some c =>
          cases x.hostCReady i with
          | false => exact .run hx (.inr (.inl rfl)) ⟨rfl, rfl, rfl⟩ (.refl _)
          | true =>
              cases i.lastC with
              | false => exact .run hx (.inr (.inl rfl)) ⟨rfl, rfl, rfl⟩ (.refl _)
              | true =>
                  refine .run hx ?_ ⟨rfl, rfl, rfl⟩ (answered_of c)
                  simp only [if_true]
                  split_ifs <;> simp
  | wb =>
      refine .run (.inr (.inl hs)) ?_ ⟨rfl, rfl, rfl⟩ (.refl _)
      dsimp only
      split_ifs <;> simp
  | fill =>
      have hx : x.state = .probe ∨ x.state = .wb ∨ x.state = .fill := .inr (.inr hs)
      dsimp only
      cases hgr : i.grant with
      | none => exact .run hx (.inr (.inr (.inr rfl))) ⟨rfl, rfl, rfl⟩ (.refl _)
      | some d =>
          cases hr : x.grantReady i with
          | false => exact .run hx (.inr (.inr (.inr rfl))) ⟨rfl, rfl, rfl⟩ (.refl _)
          | true =>
              cases hl : i.lastD with
              | false => exact .run hx (.inr (.inr (.inr rfl))) ⟨rfl, rfl, rfl⟩ (.refl _)
              | true => exact .refill hs d hr hl rfl ⟨rfl, rfl, rfl⟩ rfl
  | get =>
      dsimp only
      split_ifs with h1 h2 h3
      · exact .get hs (.inr rfl) rfl rfl rfl rfl
      · exact .get hs (.inl rfl) rfl rfl (not_not.mp h3).symm rfl
      · exact .get hs (.inl hs) rfl rfl rfl rfl
      · exact .get hs (.inl rfl) rfl rfl rfl rfl
  | put =>
      dsimp only
      cases ho : offeredA i with
      | none => exact .put hs (by simp [hostAReady, hs, ho]) hs (.refl x) rfl
      | some a =>
          cases hr : x.hostAReady i with
          | false => exact .put hs hr rfl ⟨rfl, rfl, rfl⟩ rfl
          | true =>
              cases hl : i.lastA with
              | false => exact .beat hs hr hl rfl rfl rfl rfl rfl
              | true => exact .wrote hs hr hl rfl ⟨rfl, rfl, rfl⟩ fun h => ⟨h, rfl⟩
  | updateTag =>
      cases i.tagGnt with
      | false => exact .update hs (.inl hs) (.refl x) rfl
      | true => exact .update hs (.inr rfl) ⟨rfl, rfl, rfl⟩ rfl
  | ackWait =>
      dsimp only
      split_ifs
      · exact .finish hs (.inr rfl) ⟨rfl, rfl, rfl⟩ rfl
      · exact .finish hs (.inl hs) (.refl x) rfl

theorem Same.trans (h : Same x y) (h' : Same y z) : Same x z :=
  ⟨h'.opcode.trans h.opcode, h'.size.trans h.size, h'.address.trans h.address⟩

/-- Other registers do not matter. -/
theorem Steps.congr (h : Steps x i y) (hstate : z.state = y.state) (hsame : Same y z)
    (htag : z.tag = y.tag) : Steps x i z := by
  cases h with
  | quiet state state' same => exact .quiet state (hstate.trans state') (same.trans hsame)
  | start state a offered state' opcode size address =>
      exact .start state a offered (hstate.trans state') (hsame.opcode.trans opcode)
        (hsame.size.trans size) (hsame.address.trans address)
  | wait state state' same => exact .wait state (hstate.trans state') (same.trans hsame)
  | read state gnt state' same => exact .read state gnt (hstate.trans state') (same.trans hsame)
  | check state state' same tag =>
      exact .check state (hstate ▸ state') (same.trans hsame) (htag ▸ tag)
  | run state state' same tag => exact .run state (hstate ▸ state') (same.trans hsame) (htag ▸ tag)
  | refill state d ready last state' same tag =>
      exact .refill state d ready last (hstate.trans state') (same.trans hsame) (htag.trans tag)
  | get state state' opcode size address tag =>
      exact .get state (hstate ▸ state') (hsame.opcode.trans opcode) (hsame.size.trans size)
        (hsame.address ▸ address) (htag.trans tag)
  | put state ready state' same tag =>
      exact .put state ready (hstate.trans state') (same.trans hsame) (htag.trans tag)
  | beat state ready last state' opcode size address tag =>
      exact .beat state ready last (hstate.trans state') (hsame.opcode.trans opcode)
        (hsame.size.trans size) (hsame.address.trans address) (htag.trans tag)
  | wrote state ready last state' same tag =>
      exact .wrote state ready last (hstate.trans state') (same.trans hsame) (htag ▸ tag)
  | update state state' same tag =>
      exact .update state (hstate ▸ state') (same.trans hsame) (htag.trans tag)
  | finish state state' same tag =>
      exact .finish state (hstate ▸ state') (same.trans hsame) (htag.trans tag)

theorem step_spec (x : AcqTracker p) (i : AcqIn p) : Steps x i (x.step i) := by
  refine (stepState_spec x i).congr ?_ ?_ ?_ <;> unfold step <;> dsimp only <;> split_ifs <;>
    first
      | rfl
      | exact ⟨rfl, rfl, rfl⟩

@[simp] theorem step_rtagValid (x : AcqTracker p) (i : AcqIn p) :
    (x.step i).rtagValid = i.tagGnt := by
  unfold step
  dsimp only
  split_ifs <;> rfl

end AcqTracker

end Muntjac.Core

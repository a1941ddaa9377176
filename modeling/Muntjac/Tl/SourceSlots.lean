import Muntjac.Tl.SourceDownsizer
import Mathlib.Tactic.IntervalCases

/-!
# The trackers of the source downsizer

A tracker entry is a slot: the requests that share it are answered one by one, and while one is
outstanding the entry holds the high bits of its source.

## Main definitions

* `SourceDownsizer.Inv` — the registers belong to the messages of the run.

## Main results

* `SourceDownsizer.outstanding` — a response in the register finds its request in the tracker.
* `SourceDownsizer.inv_step`, `inv_run` — one cycle, and a run.
* `SourceDownsizer.restores_run` — what the converter does in every run.
-/

namespace Muntjac.Tl

open Sync

namespace SourceDownsizer

variable {p : SourceParams} {inp : ℕ → SourceDownsizerIn} {n : ℕ}

/-- A response with the source that the device sees. -/
def narrow (p : SourceParams) (x : DMsg) : DMsg := x.withSource (p.low x.source)

/-- The source in a tracker entry. -/
def held (p : SourceParams) (s : SourceDownsizer) (kind : ReqKind) (k : ℕ) : Option ℕ :=
  heldIn p.deviceWidth (s.tracker kind) k

/-- The registers belong to the messages that the links have carried. -/
structure Inv (p : SourceParams) (inp : ℕ → SourceDownsizerIn) (n : ℕ) : Prop where
  req : Tracks chanA p.burst (state p inp n).req (posOf chanA p.burst (hostAs p inp n))
  rel : Tracks chanC p.burst (state p inp n).rel (posOf chanC p.burst (hostCs p inp n))
  gnt : Tracks chanD p.burst (state p inp n).gnt (posOf chanD p.burst (hostDs p inp n))
  slot : ∀ kind k, Slot (requests p inp n kind k) (answered p inp n kind k).length
    (held p (state p inp n) kind k)
  order : ∀ kind k, (answering p inp n kind k).map DMsg.source <+: requests p inp n kind k
  whole : Legal chanD p.burst (fun _ => True) (hostDs p inp n)
  wide : ∀ f j, posOf chanD p.burst (hostDs p inp n) = .busy f j →
    held p (state p inp n) f.opcode.answers (p.low f.source) = some f.source
  content : deviceDs p inp n =
    (hostDs p inp n).map (narrow p) ++ (state p inp n).deviceReg.buffer.toList

theorem inv_zero : Inv p inp 0 where
  req := tracks_reset
  rel := tracks_reset
  gnt := tracks_reset
  slot kind k := by cases kind <;> exact Slot.empty
  order kind k := List.nil_prefix
  whole := .nil
  wide f j h := by cases h
  content := rfl

/-! ## Classes -/

theorem isAnswer_of_header (kind : ReqKind) (k : ℕ) (x y : DMsg)
    (h : chanD.header x = chanD.header y) : isAnswer p kind k x = isAnswer p kind k y := by
  rw [isAnswer, isAnswer, DMsg.opcode_of_header h, DMsg.source_of_header h]

theorem isAnswer_narrow (kind : ReqKind) (k : ℕ) (x : DMsg) :
    isAnswer p kind k (narrow p x) = isAnswer p kind k x := by
  have hlow : p.low (p.low x.source) = p.low x.source := Nat.mod_mod _ _
  show (x.opcode.answers == kind && p.low (p.low x.source) == k) = _
  rw [hlow]
  rfl

theorem len_narrow (x : DMsg) : chanD.len p.burst (narrow p x) = chanD.len p.burst x := rfl

/-- The responses that leave the register, as the device has sent them. -/
theorem begun_deviceDs (kind : ReqKind) (k : ℕ) (l : List DMsg) :
    (begunIn chanD p.burst (isAnswer p kind k) (l.map (narrow p))).length =
      (begunIn chanD p.burst (isAnswer p kind k) l).length := by
  rw [begunIn_map len_narrow (isAnswer_narrow kind k), List.length_map]

theorem answering_length (h : Inv p inp n) (kind : ReqKind) (k : ℕ) :
    (answering p inp n kind k).length = (answered p inp n kind k).length +
      (posOf chanD p.burst (hostDs p inp n)).open (isAnswer p kind k) :=
  length_begunIn h.whole (isAnswer_of_header kind k)

/-! ## The response in the register -/

/-- What is known of the response in the register. -/
structure Outstanding (p : SourceParams) (inp : ℕ → SourceDownsizerIn) (n : ℕ) (x : DMsg) (y : DMsg)
    (before : List ℕ) : Prop where
  narrow_eq : narrow p y = x
  source_lt : x.source < 2 ^ p.deviceWidth
  host_eq : y = x.withSource ((state p inp n).hostSource p x)
  held_eq : held p (state p inp n) x.opcode.answers x.source = some y.source
  accepts : (posOf chanD p.burst (hostDs p inp n)).Accepts chanD y
  requests_eq : requests p inp n x.opcode.answers x.source = before ++ [y.source]
  length_eq : before.length = (answered p inp n x.opcode.answers x.source).length

/-- A response in the register finds its request in the tracker. -/
theorem outstanding (hc : Conforming p inp) (h : Inv p inp n) {x : DMsg}
    (hx : (state p inp n).deviceReg.buffer = some x) :
    ∃ y before, Outstanding p inp n x y before := by
  have hcontent := h.content
  rw [hx, Option.toList_some] at hcontent
  have hlegal := hc.d n
  rw [hcontent] at hlegal
  obtain ⟨-, hacc, hlt⟩ := hlegal.of_concat
  have hlow : p.low x.source = x.source := Nat.mod_eq_of_lt hlt
  rw [posOf_map len_narrow] at hacc
  have hclass : isAnswer p x.opcode.answers x.source x = true := by simp [isAnswer, hlow]
  -- the device has a request to answer
  have hanswers := hc.answers n x.opcode.answers x.source
  rw [hcontent, begunIn_concat, List.length_append, begun_deviceDs, posOf_map len_narrow,
    Pos.done_map] at hanswers
  have hlength := answering_length h x.opcode.answers x.source
  have hpend : (answered p inp n x.opcode.answers x.source).length <
      (requests p inp n x.opcode.answers x.source).length := by
    change (answering p inp n x.opcode.answers x.source).length + _ ≤ _ at hanswers
    cases hq : posOf chanD p.burst (hostDs p inp n) with
    | idle =>
        rw [hq] at hanswers hlength
        simp only [Pos.done, Pos.open, hclass, and_self, if_true, List.length_singleton] at *
        omega
    | busy f j =>
        rw [hq] at hanswers hlength hacc
        have hf : isAnswer p x.opcode.answers x.source f = true := by
          rw [← isAnswer_narrow, ← isAnswer_of_header _ _ _ _ hacc]
          exact hclass
        simp only [Pos.open, hf, if_true] at hlength
        omega
  obtain ⟨v, before, hheld, hreqs, hlen⟩ :=
    (h.slot x.opcode.answers x.source).of_lt hpend
  obtain ⟨extra, hextra, hv⟩ := Option.map_eq_some_iff.mp hheld
  have hsource : (state p inp n).hostSource p x = v := by
    rw [hostSource, hextra, Option.getD_some]
    exact hv
  have hvlow : p.low v = x.source := by rw [← hv]; exact p.low_join hlt
  refine ⟨x.withSource v, before, ?_, hlt, by rw [hsource], hheld, ?_, hreqs, hlen⟩
  · show (x.withSource v).withSource (p.low v) = x
    rw [hvlow]
    rfl
  · cases hq : posOf chanD p.burst (hostDs p inp n) with
    | idle => trivial
    | busy f j =>
        rw [hq] at hacc
        have hhead : x.header = (narrow p f).header := hacc
        have hop : x.opcode = (narrow p f).opcode := DMsg.opcode_of_header hhead
        have hsrc : x.source = (narrow p f).source := DMsg.source_of_header hhead
        have hwide : held p (state p inp n) (narrow p f).opcode.answers (narrow p f).source = _ :=
          h.wide f j hq
        rw [← hop, ← hsrc, hheld] at hwide
        have hvf : v = f.source := Option.some.inj hwide
        show (x.withSource v).header = f.header
        have hwith := congrArg (fun z : DMsg => z.withSource v) hhead
        rw [hvf] at hwith ⊢
        exact hwith

/-- The host is offered the response in the register. -/
theorem hostD_narrow (hc : Conforming p inp) (h : Inv p inp n) :
    ((state p inp n).hostD p).map (narrow p) = (state p inp n).deviceReg.buffer := by
  rw [hostD]
  cases hx : (state p inp n).deviceReg.buffer with
  | none => rfl
  | some x =>
      obtain ⟨y, before, hout⟩ := outstanding hc h hx
      rw [Option.map_some, Option.map_some, ← hout.host_eq, hout.narrow_eq]

/-! ## One cycle -/

theorem hostAs_succ (n : ℕ) : hostAs p inp (n + 1) =
    hostAs p inp n ++ ((state p inp n).hostAFires p (inp n)).toList := rfl

theorem hostCs_succ (n : ℕ) : hostCs p inp (n + 1) =
    hostCs p inp n ++ ((state p inp n).hostCFires p (inp n)).toList := rfl

theorem hostDs_succ (n : ℕ) : hostDs p inp (n + 1) =
    hostDs p inp n ++ ((state p inp n).hostDFires p (inp n)).toList := rfl

theorem state_succ (n : ℕ) : state p inp (n + 1) = (state p inp n).step p (inp n) := rfl

theorem legal_hostAs (hc : Conforming p inp) (n : ℕ) :
    Legal chanA p.burst (fun _ => True)
      (hostAs p inp n ++ ((state p inp n).hostAFires p (inp n)).toList) := by
  cases hx : (state p inp n).hostAFires p (inp n) with
  | none => exact Legal.of_prefix (hc.a n) (by simp)
  | some x => exact (allowed_of_hostAFires hx).1 ▸ hc.a n

theorem legal_hostCs (hc : Conforming p inp) (n : ℕ) :
    Legal chanC p.burst (fun _ => True)
      (hostCs p inp n ++ ((state p inp n).hostCFires p (inp n)).toList) := by
  cases hx : (state p inp n).hostCFires p (inp n) with
  | none => exact Legal.of_prefix (hc.c n) (by simp)
  | some x => exact (allowed_of_hostCFires hx).1 ▸ hc.c n

/-- The requests that begin in a cycle. -/
theorem requested_succ (hc : Conforming p inp) (h : Inv p inp n) (kind : ReqKind) :
    requested p inp (n + 1) kind =
      requested p inp n kind ++ ((state p inp n).starts p (inp n) kind).toList := by
  cases kind with
  | access =>
      rw [requested, requested, hostAs_succ, starts, aStarts]
      have hl := legal_hostAs hc n
      cases hx : (state p inp n).hostAFires p (inp n) with
      | none => simp
      | some x =>
          rw [hx] at hl
          rw [Option.toList_some, begun_concat, Option.bind_some,
            h.req.first_eq hl.of_concat.2.1, List.map_append]
          by_cases hd : (posOf chanA p.burst (hostAs p inp n)).done = 0 <;> simp [hd]
  | release =>
      rw [requested, requested, hostCs_succ, starts, cStarts]
      have hl := legal_hostCs hc n
      cases hx : (state p inp n).hostCFires p (inp n) with
      | none => simp
      | some x =>
          rw [hx] at hl
          rw [Option.toList_some, begunIn_concat, Option.bind_some,
            h.rel.first_eq hl.of_concat.2.1, List.map_append]
          by_cases hd : (posOf chanC p.burst (hostCs p inp n)).done = 0 <;>
            cases x.opcode.isRelease <;> simp [hd]

theorem requests_succ (hc : Conforming p inp) (h : Inv p inp n) (kind : ReqKind) (k : ℕ) :
    requests p inp (n + 1) kind k = requests p inp n kind k ++
      (((state p inp n).starts p (inp n) kind).filter fun source => p.low source == k).toList := by
  rw [requests, requests, requested_succ hc h, List.filter_append]
  cases (state p inp n).starts p (inp n) kind with
  | none => rfl
  | some source =>
      rw [Option.toList_some, List.filter_singleton, Option.filter_some]
      cases p.low source == k <;> rfl

theorem requests_prefix (hc : Conforming p inp) (h : Inv p inp n) (kind : ReqKind) (k : ℕ) :
    requests p inp n kind k <+: requests p inp (n + 1) kind k := by
  rw [requests_succ hc h]
  exact List.prefix_append _ _

/-- The response that is delivered in a cycle, if there is one. -/
theorem delivered (hc : Conforming p inp) (h : Inv p inp n) :
    (state p inp n).regDFires (inp n) = none ∧
        (state p inp n).hostDFires p (inp n) = none ∨
      ∃ x y before, (state p inp n).regDFires (inp n) = some x ∧
        (state p inp n).hostDFires p (inp n) = some y ∧ Outstanding p inp n x y before := by
  rw [hostDFires_eq]
  cases hx : (state p inp n).regDFires (inp n) with
  | none => exact Or.inl ⟨rfl, rfl⟩
  | some x =>
      have hbuf : (state p inp n).deviceReg.buffer = some x := by
        rw [regDFires, RegSlice.Forward.given] at hx
        split_ifs at hx
        exact hx
      obtain ⟨y, before, hout⟩ := outstanding hc h hbuf
      exact Or.inr ⟨x, y, before, rfl, congrArg some hout.host_eq.symm, hout⟩

theorem Outstanding.isAnswer_eq {x y : DMsg} {before : List ℕ}
    (h : Outstanding p inp n x y before) (kind : ReqKind) (k : ℕ) :
    isAnswer p kind k y = true ↔ x.opcode.answers = kind ∧ x.source = k := by
  have hlow : p.low x.source = x.source := Nat.mod_eq_of_lt h.source_lt
  rw [← isAnswer_narrow, h.narrow_eq, isAnswer, hlow, Bool.and_eq_true, beq_iff_eq, beq_iff_eq]

/-- A delivered beat frees the entry of its response if it is the last one. -/
theorem Outstanding.frees_iff (hi : Inv p inp n) {x y : DMsg} {before : List ℕ}
    (h : Outstanding p inp n x y before) (hx : (state p inp n).regDFires (inp n) = some x)
    (kind : ReqKind) (k : ℕ) :
    (state p inp n).frees p (inp n) kind = some k ↔
      (posOf chanD p.burst (hostDs p inp n)).done = chanD.len p.burst y ∧
        isAnswer p kind k y = true := by
  have hdone := Pos.done_le (valid_posOf hi.whole) h.accepts
  have hlast := hi.gnt.last_eq h.accepts
  have hyx : chanD.len p.burst y = chanD.len p.burst x := by rw [← h.narrow_eq, len_narrow]
  have hop : y.opcode = x.opcode := by rw [h.host_eq]; rfl
  have hsize : y.size = x.size := by rw [h.host_eq]; rfl
  change Burst.last p.burst _ y.opcode.hasData y.size = _ at hlast
  rw [hop, hsize] at hlast
  have hgnt : (state p inp n).gnt.last p.burst x.opcode.hasData x.size = true ↔
      (posOf chanD p.burst (hostDs p inp n)).done = chanD.len p.burst y := by
    rw [hlast, decide_eq_true_iff]
  rw [frees_eq hx, h.isAnswer_eq]
  constructor
  · intro hf
    split_ifs at hf with hcond
    refine ⟨?_, hcond.1, Option.some.inj hf⟩
    cases kind with
    | access => exact hgnt.mp (hcond.2 rfl)
    | release =>
        -- a release acknowledgement has no data
        have hack : x.opcode = .releaseAck := by
          cases hxo : x.opcode <;> simp [hxo, DOp.answers] at hcond
          rfl
        have hlen : chanD.len p.burst x = 0 := by
          simp [Chan.len, chanD, hack, DOp.hasData, Burst.len]
        omega
  · rintro ⟨hd, hkind, hk⟩
    rw [if_pos ⟨hkind, fun _ => hgnt.mpr hd⟩, hk]

/-- The responses that the host has received after a cycle. -/
theorem length_answered_succ (hc : Conforming p inp) (h : Inv p inp n) (kind : ReqKind) (k : ℕ) :
    (answered p inp (n + 1) kind k).length = (answered p inp n kind k).length +
      if (state p inp n).frees p (inp n) kind = some k then 1 else 0 := by
  rw [answered, answered, hostDs_succ]
  rcases delivered hc h with ⟨hx, hy⟩ | ⟨x, y, before, hx, hy, hout⟩
  · rw [hy, frees_none hx]
    simp
  · rw [hy, Option.toList_some, endedIn_concat, List.length_append]
    simp only [hout.frees_iff h hx]
    split_ifs <;> rfl

/-- An entry that is freed was taken. -/
theorem held_of_frees (hc : Conforming p inp) (h : Inv p inp n) {kind : ReqKind} {k : ℕ}
    (hf : (state p inp n).frees p (inp n) kind = some k) :
    ∃ v, held p (state p inp n) kind k = some v := by
  rcases delivered hc h with ⟨hx, -⟩ | ⟨x, y, before, hx, -, hout⟩
  · rw [frees_none hx] at hf
    cases hf
  · have hans := ((hout.frees_iff h hx kind k).mp hf).2
    obtain ⟨rfl, rfl⟩ := (hout.isAnswer_eq kind k).mp hans
    exact ⟨y.source, hout.held_eq⟩

/-- An entry that is taken keeps its source until it is freed. -/
theorem held_step {kind : ReqKind} {k v : ℕ} (hv : held p (state p inp n) kind k = some v)
    (hf : (state p inp n).frees p (inp n) kind ≠ some k) :
    held p (state p inp (n + 1)) kind k = some v := by
  obtain ⟨extra, hextra, -⟩ := Option.map_eq_some_iff.mp hv
  have hstart : ∀ source, (state p inp n).starts p (inp n) kind = some source →
      lowBits p.deviceWidth source ≠ k := by
    rintro source hs rfl
    have hfree : (state p inp n).tracker kind (lowBits p.deviceWidth source) = none :=
      tracker_of_starts hs
    rw [hextra] at hfree
    cases hfree
  rw [held, state_succ, tracker_step, heldIn_of_keep hstart hf]
  exact hv

/-- One cycle of one entry. -/
theorem slot_step (hc : Conforming p inp) (h : Inv p inp n) (kind : ReqKind) (k : ℕ) :
    Slot (requests p inp (n + 1) kind k) (answered p inp (n + 1) kind k).length
      (held p (state p inp (n + 1)) kind k) := by
  rw [requests_succ hc h, length_answered_succ hc h, held, state_succ, tracker_step]
  exact (h.slot kind k).tracker_step (fun source => tracker_of_starts) (held_of_frees hc h)

/-- The responses begin in the order of the requests. -/
theorem order_step (hc : Conforming p inp) (h : Inv p inp n) (kind : ReqKind) (k : ℕ) :
    (answering p inp (n + 1) kind k).map DMsg.source <+: requests p inp (n + 1) kind k := by
  refine List.IsPrefix.trans ?_ <| requests_prefix hc h kind k
  rw [answering, hostDs_succ]
  rcases delivered hc h with ⟨-, hy⟩ | ⟨x, y, before, -, hy, hout⟩
  · rw [hy, Option.toList_none, List.append_nil]
    exact h.order kind k
  · rw [hy, Option.toList_some, begunIn_concat]
    split_ifs with hfirst
    · obtain ⟨hd, hans⟩ := hfirst
      obtain ⟨rfl, rfl⟩ := (hout.isAnswer_eq kind k).mp hans
      -- all earlier responses have ended, so this one is for the last request
      have horder := h.order x.opcode.answers x.source
      have hlen := answering_length h x.opcode.answers x.source
      have hidle : posOf chanD p.burst (hostDs p inp n) = .idle := by
        have hvalid := valid_posOf h.whole
        cases hq : posOf chanD p.burst (hostDs p inp n) with
        | idle => rfl
        | busy f j =>
            rw [hq] at hd hvalid
            have hpos := hvalid.1
            change j = 0 at hd
            omega
      rw [hidle, Pos.open, Nat.add_zero, ← hout.length_eq] at hlen
      rw [hout.requests_eq] at horder ⊢
      have hbefore : (answering p inp n x.opcode.answers x.source).map DMsg.source = before := by
        have hpre := List.prefix_of_prefix_length_le horder (List.prefix_append before [y.source])
          (by rw [List.length_map, hlen])
        exact hpre.eq_of_length (by rw [List.length_map, hlen])
      change (answering p inp n x.opcode.answers x.source ++ [y]).map DMsg.source <+: _
      rw [List.map_append, hbefore]
      exact List.prefix_rfl
    · rw [List.append_nil]
      exact h.order kind k

/-- The position of channel D and the entry of the response that is being delivered. -/
theorem wide_step (hc : Conforming p inp) (h : Inv p inp n) (f : DMsg) (j : ℕ)
    (hq : posOf chanD p.burst (hostDs p inp (n + 1)) = .busy f j) :
    held p (state p inp (n + 1)) f.opcode.answers (p.low f.source) = some f.source := by
  rw [hostDs_succ] at hq
  rcases delivered hc h with ⟨hx, hy⟩ | ⟨x, y, before, hx, hy, hout⟩
  · rw [hy, Option.toList_none, List.append_nil] at hq
    exact held_step (h.wide f j hq) (by rw [frees_none hx]; simp)
  · rw [hy, Option.toList_some, posOf_concat] at hq
    have hd : (posOf chanD p.burst (hostDs p inp n)).done ≠ chanD.len p.burst y := fun hd => by
      rw [Pos.next_of_last hd] at hq
      cases hq
    have hkeep : ∀ kind k, (state p inp n).frees p (inp n) kind ≠ some k := fun kind k hf =>
      hd ((hout.frees_iff h hx kind k).mp hf).1
    cases hpos : posOf chanD p.burst (hostDs p inp n) with
    | idle =>
        have hf : f = y := by
          unfold Pos.next at hq
          rw [if_neg hd, hpos] at hq
          cases hq
          rfl
        have hop : y.opcode = x.opcode := by rw [hout.host_eq]; rfl
        have hlow : p.low y.source = x.source := by
          have hsrc := congrArg DMsg.source hout.narrow_eq
          exact hsrc
        rw [hf, hop, hlow]
        exact held_step hout.held_eq (hkeep _ _)
    | busy g m =>
        have hf : f = g := by
          unfold Pos.next at hq
          rw [if_neg hd, hpos] at hq
          cases hq
          rfl
        rw [hf]
        exact held_step (h.wide g m hpos) (hkeep _ _)

theorem inv_step (hc : Conforming p inp) (h : Inv p inp n) : Inv p inp (n + 1) where
  req := by
    rw [hostAs_succ]
    exact h.req.step (legal_hostAs hc n)
  rel := by
    rw [hostCs_succ]
    exact h.rel.step (legal_hostCs hc n)
  gnt := by
    rw [hostDs_succ]
    have hl : Legal chanD p.burst (fun _ => True)
        (hostDs p inp n ++ ((state p inp n).hostDFires p (inp n)).toList) := by
      rcases delivered hc h with ⟨-, hy⟩ | ⟨x, y, before, -, hy, hout⟩
      · rw [hy, Option.toList_none, List.append_nil]
        exact h.whole
      · rw [hy]
        exact h.whole.concat hout.accepts trivial
    exact h.gnt.step hl
  slot := slot_step hc h
  order := order_step hc h
  whole := by
    rw [hostDs_succ]
    rcases delivered hc h with ⟨-, hy⟩ | ⟨x, y, before, -, hy, hout⟩
    · rw [hy, Option.toList_none, List.append_nil]
      exact h.whole
    · rw [hy]
      exact h.whole.concat hout.accepts trivial
  wide := wide_step hc h
  content := by
    have hsplit : ((state p inp n).hostDFires p (inp n)).toList.map (narrow p) =
        ((state p inp n).regDFires (inp n)).toList := by
      rcases delivered hc h with ⟨hx, hy⟩ | ⟨x, y, before, hx, hy, hout⟩
      · rw [hx, hy]
        rfl
      · rw [hx, hy, Option.toList_some, Option.toList_some, List.map_singleton, hout.narrow_eq]
    have hconserve := RegSlice.Forward.conserve_step (state p inp n).deviceReg (inp n).deviceD
      (inp n).hostDReady
    have hprev := h.content
    rw [hostDs_succ, List.map_append, hsplit, List.append_assoc]
    show deviceDs p inp n ++ _ = _
    rw [hprev, List.append_assoc]
    exact congrArg _ hconserve

theorem inv_run (hc : Conforming p inp) (n : ℕ) : Inv p inp n := by
  induction n with
  | zero => exact inv_zero
  | succ n ih => exact inv_step hc ih

/-! ## What the converter does -/

/-- In every run every response is delivered with the source of its request, requests that share
an entry are outstanding one at a time, and no other request is held back. -/
theorem restores_run (p : SourceParams) (inp : ℕ → SourceDownsizerIn) (hc : Conforming p inp)
    (n : ℕ) : Restores p inp n := by
  have h := inv_run hc n
  have hslotA : fired p inp (deviceAFires p) n =
      (hostAs p inp n).map fun x => x.withSource (p.low x.source) := by
    rw [hostAs, fired, fired, ← stream_map]
    exact stream_congr (fun k => deviceAFires_eq) n
  have hslotC : fired p inp (deviceCFires p) n =
      (hostCs p inp n).map fun x => x.withSource (p.low x.source) := by
    rw [hostCs, fired, fired, ← stream_map]
    exact stream_congr (fun k => deviceCFires_eq) n
  have hfree : ∀ kind source, (requests p inp n kind (p.low source)).length =
      (answered p inp n kind (p.low source)).length →
        (state p inp n).tracker kind (p.low source) = none := by
    intro kind source heq
    have hnone := (h.slot kind (p.low source)).eq_none_iff.mpr heq
    exact Option.map_eq_none_iff.mp hnone
  refine ⟨h.order, h.whole, ?_, fun hready => ⟨?_, ?_⟩, fun kind k => (h.slot kind k).length_le,
    ?_, ?_, hslotA, hslotC, ?_, ?_⟩
  · rw [h.content, ← hostD_narrow hc h, List.map_append, Option.toList_map]
    rfl
  · rw [hostDFires, if_pos hready]
  · simp [deviceDFires, RegSlice.Forward.taken, RegSlice.Forward.wReady, hready]
  · intro x hx hcond
    have hl := hc.a n
    rw [hx] at hl
    have hallow : (state p inp n).aAllowed p x = true := by
      rw [aAllowed, h.req.first_eq hl.of_concat.2.1]
      rcases hcond with hd | heq
      · simp [hd]
      · have hnone : (state p inp n).aTracker (p.low x.source) = none := hfree .access _ heq
        simp [hnone]
    refine ⟨?_, ?_⟩
    · simp [deviceA, hx, hallow]
    · simp [hostAReady, hx, hallow]
  · intro x hx hcond
    have hl := hc.c n
    rw [hx] at hl
    have hallow : (state p inp n).cAllowed p x = true := by
      rw [cAllowed, h.rel.first_eq hl.of_concat.2.1]
      rcases hcond with hd | heq
      · simp [hd]
      · have hnone : (state p inp n).cTracker (p.low x.source) = none := hfree .release _ heq
        simp [hnone]
    refine ⟨?_, ?_⟩
    · simp [deviceC, hx, hallow]
    · simp [hostCReady, hx, hallow]
  · rw [hslotA]
    refine Legal.map (Legal.of_prefix (hc.a n) (List.prefix_append _ _)) (fun _ _ => rfl) ?_
      fun _ _ => trivial
    intro x _ y _ hxy
    have hsrc : x.source = y.source := AMsg.source_of_header hxy
    have hwith := congrArg (fun z : AMsg => z.withSource (p.low x.source)) hxy
    show (x.withSource (p.low x.source)).header = (y.withSource (p.low y.source)).header
    rw [← hsrc]
    exact hwith
  · rw [hslotC]
    refine Legal.map (Legal.of_prefix (hc.c n) (List.prefix_append _ _)) (fun _ _ => rfl) ?_
      fun _ _ => trivial
    intro x _ y _ hxy
    have hsrc : x.source = y.source := CMsg.source_of_header hxy
    have hwith := congrArg (fun z : CMsg => z.withSource (p.low x.source)) hxy
    show (x.withSource (p.low x.source)).header = (y.withSource (p.low y.source)).header
    rw [← hsrc]
    exact hwith

/-! ### Two requests that share an entry -/

def narrowSources : SourceParams := ⟨⟨3, 6⟩, 2⟩

def shortGet (source : ℕ) : AMsg := ⟨.get, 0, 3, source, 16, 0xff, false, 0⟩

def shortAnswer (source data : ℕ) : DMsg :=
  ⟨.accessAckData, 0, 3, source, 0, false, false, data⟩

/-- The host sends requests with sources 5 and 9, and the second one waits for the answer of the
first. -/
def sharedIns (k : ℕ) : SourceDownsizerIn where
  hostA := if k = 0 then some (shortGet 5) else if k ≤ 3 then some (shortGet 9) else none
  deviceAReady := true
  hostC := none
  deviceCReady := true
  deviceD := if k = 1 then some (shortAnswer 1 17) else
    if k = 5 then some (shortAnswer 1 18) else none
  hostDReady := true

theorem sharedIns_hostA {k : ℕ} (hk : 4 ≤ k) : (sharedIns k).hostA = none := by
  simp only [sharedIns]
  rw [if_neg (by omega), if_neg (by omega)]

theorem sharedIns_deviceD {k : ℕ} (hk : 6 ≤ k) : (sharedIns k).deviceD = none := by
  simp only [sharedIns]
  rw [if_neg (by omega), if_neg (by omega)]

theorem sharedIns_hostAs (n : ℕ) :
    hostAs narrowSources sharedIns n <+: [shortGet 5, shortGet 9] := by
  have hend : ∀ k ≥ 4, (state narrowSources sharedIns k).hostAFires narrowSources (sharedIns k) =
      none := by
    intro k hk
    simp [hostAFires, sharedIns_hostA hk]
  have hpre := stream_prefix_of_none hend n
  refine hpre.trans ?_
  decide

theorem sharedIns_deviceDs (n : ℕ) :
    deviceDs narrowSources sharedIns n <+: [shortAnswer 1 17, shortAnswer 1 18] := by
  have hend : ∀ k ≥ 6, (state narrowSources sharedIns k).deviceDFires (sharedIns k) = none := by
    intro k hk
    simp [deviceDFires, RegSlice.Forward.taken, sharedIns_deviceD hk]
  have hpre := stream_prefix_of_none hend n
  refine hpre.trans ?_
  decide

theorem conforming_sharedIns : Conforming narrowSources sharedIns where
  a n := by
    refine Legal.of_prefix (l := [shortGet 5, shortGet 9]) ?_ ?_
    · exact (Legal.nil.concat trivial trivial).concat (l := [_]) (by decide) trivial
    · rcases Nat.lt_or_ge n 4 with hn | hn
      · interval_cases n <;> decide
      · rw [sharedIns_hostA hn, Option.toList_none, List.append_nil]
        exact sharedIns_hostAs n
  c n := by
    have hnone : ∀ k ≥ 0, (state narrowSources sharedIns k).hostCFires narrowSources
        (sharedIns k) = none := fun k _ => ite_self _
    have hpre : hostCs narrowSources sharedIns n <+: [] := stream_prefix_of_none hnone n
    rw [List.prefix_nil.mp hpre]
    exact .nil
  d n := by
    refine Legal.of_prefix (l := [shortAnswer 1 17, shortAnswer 1 18]) ?_ (sharedIns_deviceDs n)
    exact (Legal.nil.concat trivial (by decide)).concat (l := [_]) (by decide) (by decide)
  answers n kind k := by
    have hother : ¬(kind = .access ∧ k = 1) →
        begunIn chanD narrowSources.burst (isAnswer narrowSources kind k)
          (deviceDs narrowSources sharedIns n) = [] := by
      intro hk
      refine List.filter_eq_nil_iff.mpr fun x hx hsel => hk ?_
      have hmem := (sharedIns_deviceDs n).subset (mem_of_mem_begun hx)
      rw [isAnswer, Bool.and_eq_true, beq_iff_eq, beq_iff_eq] at hsel
      simp only [List.mem_cons, List.not_mem_nil, or_false] at hmem
      rcases hmem with rfl | rfl <;> exact ⟨hsel.1.symm, hsel.2.symm⟩
    by_cases hk : kind = .access ∧ k = 1
    · obtain ⟨rfl, rfl⟩ := hk
      rcases Nat.lt_or_ge n 6 with hn | hn
      · interval_cases n <;> decide
      · -- both requests have been sent
        have hpreD : begunIn chanD narrowSources.burst (isAnswer narrowSources .access 1)
            (deviceDs narrowSources sharedIns n) <+:
              begunIn chanD narrowSources.burst (isAnswer narrowSources .access 1)
                [shortAnswer 1 17, shortAnswer 1 18] :=
          begunIn_prefix <| sharedIns_deviceDs n
        have hlen := hpreD.length_le
        have hpre : hostAs narrowSources sharedIns 6 <+: hostAs narrowSources sharedIns n :=
          stream_prefix _ hn
        have hpreA : begun chanA narrowSources.burst (hostAs narrowSources sharedIns 6) <+:
            begun chanA narrowSources.burst (hostAs narrowSources sharedIns n) := begun_prefix hpre
        have hreqs := ((hpreA.map AMsg.source).filter fun source =>
          narrowSources.low source == 1).length_le
        refine hlen.trans (le_trans ?_ hreqs)
        decide
    · rw [hother hk]
      exact Nat.zero_le _

theorem restores_run_shared :
    Restores narrowSources sharedIns 8 ∧
      hostAs narrowSources sharedIns 3 = [shortGet 5] ∧
      hostDs narrowSources sharedIns 8 = [shortAnswer 5 17, shortAnswer 9 18] :=
  ⟨restores_run narrowSources sharedIns conforming_sharedIns 8, by decide⟩

end SourceDownsizer

end Muntjac.Tl

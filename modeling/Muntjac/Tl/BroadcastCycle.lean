import Muntjac.Tl.BroadcastHosts

/-!
# A cycle of the broadcasting manager

A cycle is a sequence of the transfers of `BroadcastProtocol`, one for each channel; the
locks of the two arbiters and the burst trackers make sure that each transfer is the
beat that its sender and its receiver think it is (`Links`).

## Main results

* `stageE_coherent`, …, `stageB_coherent` — each channel's transfer keeps the invariant.
-/

namespace Muntjac.Tl

open Sync (unpack pack unpack_pack cat cat_mod cat_div run run_invariant)
open BroadcastEnv

variable {p : BroadcastParams}

/-- The index of the last beat of the head of a queue. -/
def headLen {α : Type*} (len : α → ℕ) : List α → ℕ
  | [] => 0
  | m :: _ => len m

namespace BroadcastEnv

/-- The index of the last beat of the head of channel A. -/
def aLen (e : BroadcastEnv p) : ℕ := headLen (AReq.len p) e.aQ

/-- The index of the last beat of the head of channel C. -/
def cLen (e : BroadcastEnv p) : ℕ := headLen (CReq.len p) e.cQ

/-- The index of the last beat of the head of the device's responses. -/
def rLen (e : BroadcastEnv p) : ℕ := headLen (DResp.len p) e.rQ

variable {e : BroadcastEnv p}

theorem aLen_cons {m : AReq} {rest : List AReq} (h : e.aQ = m :: rest) : e.aLen = m.len p := by
  rw [aLen, h, headLen]

theorem cLen_cons {m : CReq} {rest : List CReq} (h : e.cQ = m :: rest) : e.cLen = m.len p := by
  rw [cLen, h, headLen]

theorem rLen_cons {r : DResp} {rest : List DResp} (h : e.rQ = r :: rest) : e.rLen = r.len p := by
  rw [rLen, h, headLen]

end BroadcastEnv

/-- The trackers and the locks agree with the messages on the links. -/
structure Links (s : BroadcastSys p) : Prop where
  hostReq : s.br.hostReq.Counts p.burst s.env.aLen s.env.aIdx
  deviceGnt : s.br.deviceGnt.Counts p.burst s.env.rLen s.env.rIdx
  hostGnt : s.br.hostGnt.Counts p.burst s.env.rLen s.env.rIdx
  one : s.env.aIdx = 0 ∨ s.env.cIdx = 0
  deviceReqA : s.env.cIdx = 0 → s.br.deviceReq.Counts p.burst s.env.aLen s.env.aIdx
  deviceReqC : s.env.aIdx = 0 → s.br.deviceReq.Counts p.burst s.env.cLen s.env.cIdx
  reqLocked : s.br.deviceReqArb.locked = true ↔ 0 < s.env.aIdx ∨ 0 < s.env.cIdx
  reqSelA : 0 < s.env.aIdx → s.br.deviceReqArb.selected = some 1
  reqSelC : 0 < s.env.cIdx → s.br.deviceReqArb.selected = some 0
  gntLocked : s.br.hostGntArb.locked = true ↔ 0 < s.env.rIdx
  gntSel : 0 < s.env.rIdx → s.br.hostGntArb.selected = some 2

namespace Links
variable {s : BroadcastSys p} {l : LinkIn}

/-- Data of channel C is sent only between the bursts of channel A, and conversely. -/
theorem aIdx_of_ready (hl : Links s) (h : s.br.deviceReqReady (s.inputs l) 0 = true) :
    s.env.aIdx = 0 := by
  by_contra hne
  have hpos : 0 < s.env.aIdx := Nat.pos_of_ne_zero hne
  have hlock := hl.reqLocked.mpr (Or.inl hpos)
  simp [Broadcast.deviceReqReady, ChannelArb.ready, ChannelArb.select, hlock, hl.reqSelA hpos] at h

theorem cIdx_of_ready (hl : Links s) (h : s.br.deviceReqReady (s.inputs l) 1 = true) :
    s.env.cIdx = 0 := by
  by_contra hne
  have hpos : 0 < s.env.cIdx := Nat.pos_of_ne_zero hne
  have hlock := hl.reqLocked.mpr (Or.inr hpos)
  simp [Broadcast.deviceReqReady, ChannelArb.ready, ChannelArb.select, hlock, hl.reqSelC hpos] at h

/-- A response of one beat is not sent in the middle of a burst. -/
theorem rIdx_of_ready (hl : Links s) {k : Fin 3} (hk : k ≠ 2)
    (h : s.br.hostGntReady (s.inputs l) k = true) : s.env.rIdx = 0 := by
  by_contra hne
  have hpos : 0 < s.env.rIdx := Nat.pos_of_ne_zero hne
  have hlock := hl.gntLocked.mpr hpos
  simp only [Broadcast.hostGntReady, ChannelArb.ready, ChannelArb.select, hlock, if_true,
    hl.gntSel hpos, Option.some.injEq, Bool.and_eq_true, decide_eq_true_eq] at h
  exact hk h.1.symm

end Links

namespace BroadcastSys

variable {s : BroadcastSys p} {l : LinkIn} (amo : AOp → ℕ → ℕ → ℕ → ℕ)

/-! ## What the ports show -/

theorem hostA_cases (s : BroadcastSys p) (l : LinkIn) :
    (s.inputs l).hostA = none ∨
      ∃ m rest, s.env.aQ = m :: rest ∧ (s.inputs l).hostA = some (m.beat s.env.aIdx) := by
  simp only [inputs]
  split
  · cases hq : s.env.aQ with
    | nil => exact Or.inl rfl
    | cons m rest => exact Or.inr ⟨m, rest, rfl, rfl⟩
  · exact Or.inl rfl

theorem hostC_cases (s : BroadcastSys p) (l : LinkIn) :
    (s.inputs l).hostC = none ∨
      ∃ m rest, s.env.cQ = m :: rest ∧ (s.inputs l).hostC = some (m.beat s.env.cIdx) := by
  simp only [inputs]
  split
  · cases hq : s.env.cQ with
    | nil => exact Or.inl rfl
    | cons m rest => exact Or.inr ⟨m, rest, rfl, rfl⟩
  · exact Or.inl rfl

theorem deviceD_cases (s : BroadcastSys p) (l : LinkIn) :
    (s.inputs l).deviceD = none ∨
      ∃ r rest, s.env.rQ = r :: rest ∧ (s.inputs l).deviceD = some (r.beat s.env.rIdx) := by
  simp only [inputs]
  split
  · cases hq : s.env.rQ with
    | nil => exact Or.inl rfl
    | cons r rest => exact Or.inr ⟨r, rest, rfl, rfl⟩
  · exact Or.inl rfl

/-! ## Channel E -/

theorem stageE_coherent {f : BroadcastFsm p} {e : BroadcastEnv p} (h : Coherent f e)
    (he : e.eQ = s.env.eQ) :
    Coherent { f with ackDoneQ := f.ackDoneQ || (s.inputs l).hostE } (s.stageE l e) := by
  unfold stageE
  cases hE : (s.inputs l).hostE with
  | false =>
      simp only [Bool.or_false, Bool.false_eq_true, if_false]
      exact h
  | true =>
      simp only [Bool.or_true, if_true]
      apply h.ack
      simp only [inputs, Bool.and_eq_true, decide_eq_true_eq] at hE
      omega

/-! ## Channel C -/

/-- The write that a message with data becomes. -/
theorem newWord_put {a : AMsg} (hop : a.opcode = .putFullData)
    (hm : a.mask = 2 ^ 2 ^ p.burst.nonBurst - 1) (old : p.Word) :
    newWord amo a old = p.word a.data := by
  funext k
  simp [newWord, hop, hm, Nat.testBit_two_pow_sub_one]

/-- A write that is not an uncached request changes the memory only. -/
theorem perform_put {e : BroadcastEnv p} {a : AMsg} (hop : a.opcode = .putFullData)
    (hm : a.mask = 2 ^ 2 ^ p.burst.nonBurst - 1) (hs : a.source % 4 ≠ xactUncached) (j : ℕ) :
    e.perform amo a j =
      { e with
        mem := setWord e.mem (p.lineOf a.address) (p.beatOf a.address + j) (p.word a.data)
        amoBuf := Function.update e.amoBuf j
          (pack (e.mem (p.lineOf a.address) (p.beatOf a.address + j))) } := by
  simp only [perform, hs, if_false, newWord_put amo hop hm]

/-- A beat of data goes to the device: it is beat `cIdx` for the device too. -/
theorem toDevice_data (hp : p.Ok) (hl : Links s) {e : BroadcastEnv p} {m : CReq}
    {rest : List CReq} (hcq : s.env.cQ = m :: rest) (hd : m.opcode.hasData = true)
    (hsize : m.size = p.burst.maxSize) (hbeat : p.beatOf m.address = 0) {a : AMsg}
    (hrel : s.br.deviceReqRel (s.inputs l) = some a) (hop : a.opcode = .putFullData)
    (hasz : a.size = m.size) (haddr : a.address = m.address)
    (hmask : a.mask = getMask p.burst.nonBurst m.address m.size)
    (hdata : a.data = m.data s.env.cIdx) (hsource : a.source % 4 ≠ xactUncached)
    (hr : s.br.deviceReqReady (s.inputs l) 0 = true) :
    ∃ buf x, x.opcode = .accessAck ∧ x.source = a.source ∧
      s.toDevice amo l 0 e =
        { e with
          mem := setWord e.mem (p.lineOf m.address) s.env.cIdx (p.word (m.data s.env.cIdx))
          amoBuf := buf
          rQ := if s.env.cIdx = m.len p then e.rQ ++ [x] else e.rQ } := by
  have hcount : s.br.deviceReq.Counts p.burst (Burst.len p.burst a.opcode.hasData a.size)
      s.env.cIdx := by
    have := hl.deviceReqC (hl.aIdx_of_ready hr)
    rw [cLen_cons hcq] at this
    rwa [hop, hasz, show AOp.putFullData.hasData = m.opcode.hasData by rw [hd]; rfl]
  have hlen : Burst.len p.burst a.opcode.hasData a.size = m.len p := by
    rw [hop, hasz, CReq.len, hd]
    rfl
  have hmask' : a.mask = 2 ^ 2 ^ p.burst.nonBurst - 1 := by
    rw [hmask, getMask_of_le (by rw [hsize]; exact hp.width)]
  have hfire : s.deviceFire l 0 = some a := by
    simp [deviceFire, hr, Broadcast.deviceReqMult, hrel]
  refine ⟨Function.update e.amoBuf s.env.cIdx (pack (e.mem (p.lineOf m.address) s.env.cIdx)),
    (e.perform amo a s.env.cIdx).response a, by simp [response, hop], rfl, ?_⟩
  simp only [toDevice, hfire, hcount.idx_eq, hcount.last_eq, hlen, deviceAccept,
    perform_put amo hop hmask' hsource, haddr, hbeat, Nat.zero_add, hdata, decide_eq_true_eq]
  split
  · rfl
  · rfl

/-- A beat of data leaves channel C. -/
theorem stageC_data (hp : p.Ok) (hl : Links s) {f : BroadcastFsm p} {e : BroadcastEnv p}
    (h : Coherent f e) {m : CReq} {rest : List CReq} (hcq : s.env.cQ = m :: rest)
    (hq : e.cQ = s.env.cQ) (hci : e.cIdx = s.env.cIdx) (hai : e.aIdx = s.env.aIdx)
    (hsome : (s.inputs l).hostC = some (m.beat s.env.cIdx)) (hd : m.opcode.hasData = true)
    (source : ℕ) (hsource : source % 4 ≠ xactUncached)
    (hrel : s.br.deviceReqRel (s.inputs l) =
      some ⟨.putFullData, 0, m.size, source, m.address,
        getMask p.burst.nonBurst m.address m.size, false, m.data s.env.cIdx⟩)
    (hr : s.br.deviceReqReady (s.inputs l) 0 = true)
    (hready : s.br.hostCReady (s.inputs l) = true)
    (hend : ∀ e', Coherent f e' → e'.cQ = m :: rest → e'.cIdx = p.lineBeats →
      ∀ x : DResp, x.opcode = .accessAck → x.source = source →
        Coherent f ((if m.opcode = .releaseData then
          { e' with cQ := rest, cIdx := 0, rQ := e'.rQ ++ [x] }.setRelPhase m.source .inDevice
          else { e' with cQ := rest, cIdx := 0, rQ := e'.rQ ++ [x] }))) :
    Coherent f (s.stageC amo l e) := by
  have hq' : e.cQ = m :: rest := hq.trans hcq
  obtain ⟨hsize, hbeat, -⟩ := h.ids.cSel m (by rw [hq']; exact List.mem_cons_self)
  obtain ⟨buf, x, hxop, hxs, hdev⟩ :=
    toDevice_data amo (e := e) hp hl hcq hd hsize hbeat hrel rfl rfl rfl rfl rfl hsource hr
  rw [← hci] at hdev
  have hlen := CReq.len_of_hasData hd hsize
  have hle : e.cIdx ≤ m.len p := by
    have := (hl.deviceReqC (hl.aIdx_of_ready hr)).1
    rwa [cLen_cons hcq, ← hci] at this
  have hbeatc := h.dataBeat hq' hd (by omega) (hai.trans (hl.aIdx_of_ready hr)) buf
  have hhost : s.hostFire l 0 = none := by
    have hne : m.opcode ≠ .release := by
      intro hop
      rw [hop] at hd
      cases hd
    simp [hostFire, Broadcast.hostGntMult, Broadcast.hostGntRel, hsome, CReq.beat, hne]
  by_cases hlast : e.cIdx = m.len p
  · have hstage : s.stageC amo l e =
        if m.opcode = .releaseData then
          { e with
            mem := setWord e.mem (p.lineOf m.address) e.cIdx (p.word (m.data e.cIdx))
            amoBuf := buf, cQ := rest, cIdx := 0, rQ := e.rQ ++ [x] }.setRelPhase m.source .inDevice
        else
          { e with
            mem := setWord e.mem (p.lineOf m.address) e.cIdx (p.word (m.data e.cIdx))
            amoBuf := buf, cQ := rest, cIdx := 0, rQ := e.rQ ++ [x] } := by
      simp only [stageC, hdev, toHost, hhost, hready, if_true, advC, hq', hlast]
    rw [hstage]
    exact hend _ hbeatc hq' (by show e.cIdx + 1 = _; omega) x hxop hxs
  · have hstage : s.stageC amo l e =
        { e with
          mem := setWord e.mem (p.lineOf m.address) e.cIdx (p.word (m.data e.cIdx))
          amoBuf := buf, cIdx := e.cIdx + 1 } := by
      simp only [stageC, hdev, toHost, hhost, hready, if_true, advC, hq', hlast, if_false]
    rw [hstage]
    exact hbeatc

theorem stageC_coherent (hp : p.Ok) (hl : Links s) {f : BroadcastFsm p} {e : BroadcastEnv p}
    (h : Coherent f e) (hq : e.cQ = s.env.cQ) (hci : e.cIdx = s.env.cIdx)
    (hai : e.aIdx = s.env.aIdx) :
    Coherent
      { f with
        probeAckPendingQ :=
          f.probeAckPendingQ - (Broadcast.probeAckComplete (s.inputs l)).toNat }
      (s.stageC amo l e) := by
  rcases hostC_cases s l with hnone | ⟨m, rest, hcq, hsome⟩
  · have h0 : s.deviceFire l 0 = none := by
      simp [deviceFire, Broadcast.deviceReqMult, Broadcast.deviceReqRel, hnone]
    have h1 : s.hostFire l 0 = none := by
      simp [hostFire, Broadcast.hostGntMult, Broadcast.hostGntRel, hnone]
    simp only [stageC, toDevice, toHost, h0, h1, Broadcast.hostCReady, hnone,
      Broadcast.probeAckComplete, Bool.false_eq_true, if_false, Bool.toNat_false, Nat.sub_zero]
    exact h
  · have hq' : e.cQ = m :: rest := hq.trans hcq
    have hmem : m ∈ e.cQ := by rw [hq']; exact List.mem_cons_self
    obtain ⟨hsize, hbeat, -⟩ := h.ids.cSel m hmem
    -- the four kinds of message
    cases hop : m.opcode with
    | probeAck =>
        have h0 : s.deviceFire l 0 = none := by
          simp [deviceFire, Broadcast.deviceReqMult, Broadcast.deviceReqRel, hsome, CReq.beat, hop]
        have h1 : s.hostFire l 0 = none := by
          simp [hostFire, Broadcast.hostGntMult, Broadcast.hostGntRel, hsome, CReq.beat, hop]
        have hz : e.cIdx = 0 := h.control.cIdx_eq_zero hq' (by rw [hop]; rfl)
        have hlen : m.len p = 0 := by simp [CReq.len, Burst.len, hop, COp.hasData]
        have hstage : s.stageC amo l e = { e with cQ := rest, cIdx := 0 } := by
          simp [stageC, toDevice, toHost, h0, h1, Broadcast.hostCReady, hsome, CReq.beat, hop,
            advC, hq', hz, hlen]
        rw [hstage]
        have hcomp : (Broadcast.probeAckComplete (s.inputs l)).toNat = 1 := by
          simp [Broadcast.probeAckComplete, hsome, CReq.beat, hop]
        rw [hcomp]
        exact h.probeAck hq' hop
    | release =>
        have h0 : s.deviceFire l 0 = none := by
          simp [deviceFire, Broadcast.deviceReqMult, Broadcast.deviceReqRel, hsome, CReq.beat, hop]
        have hcomp : (Broadcast.probeAckComplete (s.inputs l)).toNat = 0 := by
          simp [Broadcast.probeAckComplete, hsome, CReq.beat, hop]
        have hz : e.cIdx = 0 := h.control.cIdx_eq_zero hq' (by rw [hop]; rfl)
        have hlen : m.len p = 0 := by simp [CReq.len, Burst.len, hop, COp.hasData]
        rw [hcomp]
        cases hr : s.br.hostGntReady (s.inputs l) 0 with
        | false =>
            have hstage : s.stageC amo l e = e := by
              simp [stageC, toDevice, toHost, h0, hostFire, hr, Broadcast.hostCReady, hsome,
                CReq.beat, hop]
            rw [hstage]
            exact h
        | true =>
            have hstage : s.stageC amo l e =
                { e with cQ := rest, cIdx := 0 }.setRelPhase m.source .acked := by
              simp [stageC, toDevice, toHost, h0, hostFire, hr, Broadcast.hostCReady, hsome,
                CReq.beat, hop, Broadcast.hostGntMult, Broadcast.hostGntRel, hostAccept, advC,
                setRelPhase, hq', hz, hlen]
            rw [hstage]
            exact h.release hp hq' hop
    | probeAckData =>
        have hd : m.opcode.hasData = true := by rw [hop]; rfl
        have hcomp : (Broadcast.probeAckComplete (s.inputs l)).toNat = 0 := by
          simp [Broadcast.probeAckComplete, hsome, CReq.beat, hop]
        rw [hcomp]
        cases hr : s.br.deviceReqReady (s.inputs l) 0 with
        | false =>
            have hstage : s.stageC amo l e = e := by
              simp [stageC, toDevice, toHost, deviceFire, hr, hostFire, Broadcast.hostCReady,
                hsome, CReq.beat, hop, Broadcast.hostGntMult, Broadcast.hostGntRel]
            rw [hstage]
            exact h
        | true =>
            refine stageC_data amo hp hl h hcq hq hci hai hsome hd
              (cat s.br.fsm.sourceQ 2 xactProbeAckData)
              (by rw [show (4 : ℕ) = 2 ^ 2 by rfl, cat_mod (by decide)]; decide)
              (by simp only [Broadcast.deviceReqRel, hsome, CReq.beat, hop]; rfl) hr
              (by simp [Broadcast.hostCReady, hsome, CReq.beat, hop, hr]) ?_
            intro e' he' hq'' hc'' x hxop hxs
            rw [if_neg (by simp [hop])]
            refine he'.probeAckData hq'' hop hc'' ?_
            have hmod : x.source % 4 = xactProbeAckData := by
              rw [hxs]
              exact cat_mod (by decide)
            simp [DResp.isDrop, Broadcast.isProbeAckData, DResp.beat, hxop, hmod]
    | releaseData =>
        have hd : m.opcode.hasData = true := by rw [hop]; rfl
        have hcomp : (Broadcast.probeAckComplete (s.inputs l)).toNat = 0 := by
          simp [Broadcast.probeAckComplete, hsome, CReq.beat, hop]
        rw [hcomp]
        cases hr : s.br.deviceReqReady (s.inputs l) 0 with
        | false =>
            have hstage : s.stageC amo l e = e := by
              simp [stageC, toDevice, toHost, deviceFire, hr, hostFire, Broadcast.hostCReady,
                hsome, CReq.beat, hop, Broadcast.hostGntMult, Broadcast.hostGntRel]
            rw [hstage]
            exact h
        | true =>
            refine stageC_data amo hp hl h hcq hq hci hai hsome hd
              (cat m.source 2 xactReleaseData)
              (by rw [show (4 : ℕ) = 2 ^ 2 by rfl, cat_mod (by decide)]; decide)
              (by simp only [Broadcast.deviceReqRel, hsome, CReq.beat, hop]; rfl) hr
              (by simp [Broadcast.hostCReady, hsome, CReq.beat, hop, hr]) ?_
            intro e' he' hq'' hc'' x hxop hxs
            rw [if_pos hop]
            exact he'.releaseData hp hq'' hop hc'' hxs hxop

/-! ## Channel A -/

/-- The state of the request machine after the transfer of channel A. -/
def nextA (s : BroadcastSys p) (l : LinkIn) : BroadcastState :=
  match s.br.fsm.stateQ, (s.inputs l).hostA with
  | .req, some a =>
    if s.br.deviceReqReady (s.inputs l) 1 && s.br.hostReqLast a then
      (if s.br.fsm.opcodeQ = .acquireBlock then .wait else .idle)
    else .req
  | .grant, some a =>
    if s.br.hostGntReady (s.inputs l) 1 && s.br.hostReqLast a then .wait else .grant
  | st, _ => st

theorem perform_get {e : BroadcastEnv p} {a : AMsg} (hop : a.opcode = .get)
    (hs : a.source % 4 ≠ xactUncached) (j : ℕ) :
    e.perform amo a j =
      { e with
        amoBuf := Function.update e.amoBuf j
          (pack (e.mem (p.lineOf a.address) (p.beatOf a.address + j))) } := by
  have hmem : setWord e.mem (p.lineOf a.address) (p.beatOf a.address + j)
      (newWord amo a (e.mem (p.lineOf a.address) (p.beatOf a.address + j))) = e.mem := by
    funext l b
    rw [newWord_get amo hop, setWord]
    split
    · next hlb => rw [hlb.1, hlb.2]
    · rfl
  simp only [perform, hs, if_false, hmem]

theorem setAcqPhase_setAcqPhase (e : BroadcastEnv p) (source : ℕ) (a b : AcqPhase) :
    (e.setAcqPhase source a).setAcqPhase source b = e.setAcqPhase source b := by
  simp only [setAcqPhase]
  congr 1
  funext i l
  split
  · rw [Option.map_map]
    rfl
  · rfl

/-- The first beat of a grant. -/
theorem hostAccept_first (e : BroadcastEnv p) {d : DMsg} (last : Bool)
    (hd : d.opcode = .grant ∨ d.opcode = .grantData) :
    e.hostAccept 0 last (some d) =
      let e' := { e with
        rx := Function.update e.rx d.source (Function.update (e.rx d.source) 0 d.data)
        owed := e.owed + 1 }.setAcqPhase d.source .started
      if last then { e' with mail := Function.update e.mail d.source (some d) } else e' := by
  have hne : d.opcode ≠ .releaseAck := by rcases hd with hd | hd <;> rw [hd] <;> decide
  simp only [hostAccept, hne, if_false, hd, true_and, if_true]
  rfl

/-- Any other beat of a response to a request. -/
theorem hostAccept_next (e : BroadcastEnv p) {d : DMsg} (last : Bool) {j : ℕ}
    (hr : d.opcode ≠ .releaseAck)
    (hd : ¬((d.opcode = .grant ∨ d.opcode = .grantData) ∧ j = 0)) :
    e.hostAccept j last (some d) =
      let e' := { e with
        rx := Function.update e.rx d.source (Function.update (e.rx d.source) j d.data) }
      if last then { e' with mail := Function.update e.mail d.source (some d) } else e' := by
  simp only [hostAccept, hr, if_false, hd]

/-- A transfer to the device, as the device counts it. -/
theorem toDevice_eq {e : BroadcastEnv p} {k : Fin 2} {a : AMsg} {n j : ℕ}
    (hfire : s.deviceFire l k = some a) (hlen : Burst.len p.burst a.opcode.hasData a.size = n)
    (hcount : s.br.deviceReq.Counts p.burst n j) :
    s.toDevice amo l k e = e.deviceAccept amo j (decide (j = n)) (some a) := by
  subst hlen
  simp only [toDevice, hfire, hcount.idx_eq, hcount.last_eq]

/-- A transfer to a host, as the host counts it. -/
theorem toHost_eq {e : BroadcastEnv p} {k : Fin 3} {d : DMsg} {n j : ℕ}
    (hfire : s.hostFire l k = some d) (hlen : Burst.len p.burst d.opcode.hasData d.size = n)
    (hcount : s.br.hostGnt.Counts p.burst n j) :
    s.toHost l k e = e.hostAccept j (decide (j = n)) (some d) := by
  subst hlen
  simp only [toHost, hfire, hcount.idx_eq, hcount.last_eq]

/-- What stays the same until the transfer of channel A. -/
structure SameReq (s : BroadcastSys p) (f : BroadcastFsm p) (e : BroadcastEnv p) : Prop where
  stateQ : f.stateQ = s.br.fsm.stateQ
  opcodeQ : f.opcodeQ = s.br.fsm.opcodeQ
  addressQ : f.addressQ = s.br.fsm.addressQ
  xactTypeQ : f.xactTypeQ = s.br.fsm.xactTypeQ
  sourceQ : f.sourceQ = s.br.fsm.sourceQ
  aQ : e.aQ = s.env.aQ
  aIdx : e.aIdx = s.env.aIdx

section ChannelA
variable {f : BroadcastFsm p} {e : BroadcastEnv p} {m : AReq} {rest : List AReq}

theorem hostReqLast_eq (hl : Links s) (haq : s.env.aQ = m :: rest) :
    s.br.hostReqLast (m.beat s.env.aIdx) = decide (s.env.aIdx = m.len p) := by
  have := hl.hostReq
  rw [aLen_cons haq] at this
  exact this.last_eq

/-- The request as it is sent to the device. -/
theorem deviceFire_req (h : Coherent f e) (hs : SameReq s f e)
    (haq : s.env.aQ = m :: rest) (hsome : (s.inputs l).hostA = some (m.beat s.env.aIdx))
    (hst : s.br.fsm.stateQ = .req) (hr : s.br.deviceReqReady (s.inputs l) 1 = true) :
    ∃ a, s.deviceFire l 1 = some a ∧ a.size = m.size ∧ a.address = m.address ∧
      a.source = cat m.source 2 f.xactTypeQ ∧
      a.opcode = if m.isAcquire then .get else m.opcode := by
  have hbusy : f.Busy := Or.inr (Or.inl (hs.stateQ.trans hst))
  obtain ⟨hop, haddr, hsrc, hx, -⟩ := h.holds hbusy (hs.aQ.trans haq)
  refine ⟨_, by simp only [deviceFire, hr, if_true, Broadcast.deviceReqMult, Broadcast.deviceReqReq,
    hst, hsome]; rfl, rfl, ?_, ?_, ?_⟩
  · show s.br.fsm.addressQ = m.address
    rw [← hs.addressQ, haddr]
  · show cat s.br.fsm.sourceQ 2 s.br.fsm.xactTypeQ = _
    rw [← hs.sourceQ, ← hs.xactTypeQ, hsrc]
  · show (if s.br.fsm.xactTypeQ = xactUncached then s.br.fsm.opcodeQ else .get) = _
    rw [← hs.xactTypeQ, ← hs.opcodeQ, hx, hop]
    cases hacq : m.isAcquire with
    | true =>
        have hne : acquireXact m.param ≠ xactUncached := by
          have := acquireXact_lt m.param
          rw [xactUncached]
          omega
        simp [hne]
    | false => simp

theorem len_deviceReq {a : AMsg} (hsize : a.size = m.size)
    (hop : a.opcode = if m.isAcquire then .get else m.opcode) :
    Burst.len p.burst a.opcode.hasData a.size = m.len p := by
  rw [hsize, hop, AReq.len]
  cases hacq : m.isAcquire with
  | false => simp
  | true =>
      have : m.opcode.hasData = false := by
        simp only [AReq.isAcquire, Bool.or_eq_true, beq_iff_eq] at hacq
        rcases hacq with hacq | hacq <;> rw [hacq] <;> rfl
      rw [this]
      rfl

/-- An acquire of a block reaches the device. -/
theorem stageA_acquire (hp : p.Ok) (hl : Links s) (h : Coherent f e) (hs : SameReq s f e)
    (haq : s.env.aQ = m :: rest) (hsome : (s.inputs l).hostA = some (m.beat s.env.aIdx))
    (hst : s.br.fsm.stateQ = .req) (hr : s.br.deviceReqReady (s.inputs l) 1 = true)
    (hacq : m.isAcquire = true) :
    Coherent { f with stateQ := s.nextA l } (s.stageA amo l e) := by
  have hfst : f.stateQ = .req := hs.stateQ.trans hst
  have hbusy : f.Busy := Or.inr (Or.inl hfst)
  have hq : e.aQ = m :: rest := hs.aQ.trans haq
  have hm := h.holds hbusy hq
  have hop : m.opcode = .acquireBlock := by
    have hne := h.control.reqOp hfst
    rw [hm.1] at hne
    simp only [AReq.isAcquire, Bool.or_eq_true, beq_iff_eq] at hacq
    rcases hacq with hacq | hacq
    · exact hacq
    · exact absurd hacq hne
  obtain ⟨a, hfire, hasz, haaddr, hasrc, haop⟩ := deviceFire_req h hs haq hsome hst hr
  have hlen0 : m.len p = 0 := by simp [AReq.len, Burst.len, hop, AOp.hasData]
  have haop' : a.opcode = .get := by rw [haop, hacq]; rfl
  have hz : s.env.aIdx = 0 := by
    have := hl.hostReq.1
    rw [aLen_cons haq, hlen0] at this
    omega
  have hxlt : f.xactTypeQ < 2 := by
    rw [hm.2.2.2.1, if_pos hacq]
    exact acquireXact_lt _
  have hasrc' : a.source % 4 ≠ xactUncached := by
    rw [hasrc, show (4 : ℕ) = 2 ^ 2 by rfl, cat_mod (by omega), xactUncached]
    omega
  have hcount : s.br.deviceReq.Counts p.burst 0 0 := by
    have := hl.deviceReqA (hl.cIdx_of_ready hr)
    rwa [aLen_cons haq, hz, hlen0] at this
  have hdev : ∀ e', s.toDevice amo l 1 e' = e'.deviceAccept amo 0 true (some a) := fun e' =>
    toDevice_eq amo hfire ((len_deviceReq hasz haop).trans hlen0) hcount
  have hlast : s.br.hostReqLast (m.beat s.env.aIdx) = true := by
    rw [hostReqLast_eq hl haq, hz, hlen0]
    rfl
  have hnext : s.nextA l = .wait := by
    simp [nextA, hst, hsome, hr, hlast, ← hs.opcodeQ, hm.1, hop]
  have hready : s.br.hostAReady (s.inputs l) = true := by simp [Broadcast.hostAReady, hst, hr]
  have hhost : s.hostFire l 1 = none := by
    simp [hostFire, Broadcast.hostGntMult, Broadcast.hostGntGrant, hst]
  have hadv : e.advA = { e with aQ := rest, aIdx := 0 }.setAcqPhase m.source .granting := by
    simp [advA, hq, hs.aIdx, hz, hlen0]
  rw [hnext]
  have hstage : s.stageA amo l e =
      { e with
        aQ := rest, aIdx := 0
        rQ := e.rQ ++ [(⟨.accessAckData, a.size, a.source, fun j =>
          pack (e.mem (p.lineOf a.address) (p.beatOf a.address + j))⟩ : DResp)]
        amoBuf := Function.update e.amoBuf 0
          (pack (e.mem (p.lineOf a.address) (p.beatOf a.address + 0))) }.setAcqPhase
        m.source .granting := by
    simp only [stageA, hsome, hready, Option.isSome_some, Bool.and_self, if_true, hadv, hdev,
      toHost, hhost, deviceAccept, perform_get amo haop' hasrc', response, haop']
    rfl
  rw [hstage]
  refine h.acquireBlock hp hfst hq hop _ rfl hasz ?_ ?_
  · show a.source = _
    rw [hasrc, hm.2.2.1]
  · intro w
    show pack (e.mem (p.lineOf a.address) (p.beatOf a.address + w)) = _
    rw [haaddr, ← hm.line_eq, hm.2.1]

/-- Only an atomic operation sends data and receives data. -/
theorem hasData_of_response {a : AMsg} (h : (e.response a).opcode = .accessAckData)
    (hget : a.opcode ≠ .get) : a.opcode.hasData = true := by
  revert h hget
  unfold response
  cases a.opcode <;> simp [AOp.hasData]

/-- A beat of an uncached request reaches the device. -/
theorem stageA_uncached (hp : p.Ok) (hl : Links s) (h : Coherent f e) (hs : SameReq s f e)
    (haq : s.env.aQ = m :: rest) (hsome : (s.inputs l).hostA = some (m.beat s.env.aIdx))
    (hst : s.br.fsm.stateQ = .req) (hr : s.br.deviceReqReady (s.inputs l) 1 = true)
    (hun : m.isAcquire = false) :
    Coherent { f with stateQ := s.nextA l } (s.stageA amo l e) := by
  have hfst : f.stateQ = .req := hs.stateQ.trans hst
  have hc : f.Clear := Or.inl hfst
  have hq : e.aQ = m :: rest := hs.aQ.trans haq
  have hmem : m ∈ e.aQ := by rw [hq]; exact List.mem_cons_self
  have hm := h.holds hc.busy hq
  obtain ⟨a, hfire, hasz, haaddr, hasrc, haop⟩ := deviceFire_req h hs haq hsome hst hr
  have haop' : a.opcode = m.opcode := by rw [haop, hun]; rfl
  have hx : f.xactTypeQ = xactUncached := by rw [hm.2.2.2.1, hun]; rfl
  rw [hx] at hasrc
  have hcount : s.br.deviceReq.Counts p.burst (m.len p) e.aIdx := by
    have := hl.deviceReqA (hl.cIdx_of_ready hr)
    rwa [aLen_cons haq, ← hs.aIdx] at this
  have hdev : ∀ e', s.toDevice amo l 1 e' =
      e'.deviceAccept amo e.aIdx (decide (e.aIdx = m.len p)) (some a) := fun e' =>
    toDevice_eq amo hfire (len_deviceReq hasz haop) hcount
  have hle : e.aIdx ≤ m.len p := hcount.1
  have hready : s.br.hostAReady (s.inputs l) = true := by simp [Broadcast.hostAReady, hst, hr]
  have hhost : s.hostFire l 1 = none := by
    simp [hostFire, Broadcast.hostGntMult, Broadcast.hostGntGrant, hst]
  have hbeat := h.uncachedBeat amo hp hfst hq hun hle haop' haaddr hasrc
  by_cases hlast : e.aIdx = m.len p
  · have hlast' : s.env.aIdx = m.len p := by rw [← hs.aIdx]; exact hlast
    have hadv : e.advA = { e with aQ := rest, aIdx := 0 } := by
      simp only [advA, hq, hlast, if_true]
      exact setAcqPhase_uncached (h.ids.aUnc m hmem hun) _
    have hnext : s.nextA l = .idle := by
      have hne : m.opcode ≠ .acquireBlock := by
        intro hop
        simp [AReq.isAcquire, hop] at hun
      have hlast2 : s.br.hostReqLast (m.beat s.env.aIdx) = true := by
        rw [hostReqLast_eq hl haq]
        exact decide_eq_true hlast'
      simp [nextA, hst, hsome, hr, hlast2, ← hs.opcodeQ, hm.1, hne]
    have hstage : s.stageA amo l e =
        { e.perform amo a e.aIdx with
          aQ := rest, aIdx := 0
          rQ := e.rQ ++ [(e.perform amo a e.aIdx).response a] } := by
      simp only [stageA, hsome, hready, Option.isSome_some, Bool.and_self, if_true, hadv, hdev,
        toHost, hhost, decide_eq_true hlast, deviceAccept]
      rfl
    rw [hnext, hstage]
    have hxo : ((e.perform amo a e.aIdx).response a).opcode = .accessAck ∨
        ((e.perform amo a e.aIdx).response a).opcode = .accessAckData ∨
        ((e.perform amo a e.aIdx).response a).opcode = .hintAck := by
      unfold response
      cases a.opcode <;> simp
    refine hbeat.uncachedEnd hfst hq hun hasrc hxo fun hxop w hw => ?_
    -- the response holds what the memory held when the request was accepted
    show p.word (((e.perform amo a e.aIdx).response a).data w) =
      (e.perform amo a e.aIdx).served m.source w
    have hxlen : ((e.perform amo a e.aIdx).response a).len p = Burst.len p.burst true m.size := by
      rw [DResp.len, hxop, ← hasz]
      rfl
    rw [hxlen] at hw
    by_cases hget : m.opcode = .get
    · have hmod : a.source % 4 = xactUncached := by rw [hasrc]; exact cat_mod (by decide)
      have hdiv : a.source / 4 = m.source := by rw [hasrc]; exact cat_div (by decide)
      have hline : p.lineOf a.address = f.line := by rw [haaddr, hm.line_eq]
      have hag : a.opcode = .get := haop'.trans hget
      simp only [response, hag, perform, hmod, hdiv, if_true, Function.update_self,
        newWord_get amo hag]
      rw [BroadcastParams.word, unpack_pack, setWord]
      split
      · next heq =>
        rw [← heq.1, ← heq.2, hline]
        exact h.mem_eq_cur hp hc _
      · rw [hline]
        exact h.mem_eq_cur hp hc _
    · have hdata : m.opcode.hasData = true := by
        rw [← haop']
        exact hasData_of_response hxop (haop' ▸ hget)
      have hdat : ((e.perform amo a e.aIdx).response a).data =
          (e.perform amo a e.aIdx).amoBuf := by
        simp only [response, haop']
      have hw' : w < e.aIdx + 1 := by
        rw [hlast, AReq.len, hdata]
        omega
      rw [hdat, ← hm.2.2.1]
      exact hbeat.data.amoBuf w hw'
  · have hlast' : s.env.aIdx ≠ m.len p := by rw [← hs.aIdx]; exact hlast
    have hadv : e.advA = { e with aIdx := e.aIdx + 1 } := by
      simp only [advA, hq, hlast, if_false]
    have hnext : s.nextA l = .req := by
      simp [nextA, hst, hsome, hr, hostReqLast_eq hl haq, hlast']
    have hstage : s.stageA amo l e = { e.perform amo a e.aIdx with aIdx := e.aIdx + 1 } := by
      simp only [stageA, hsome, hready, Option.isSome_some, Bool.and_self, if_true, hadv, hdev,
        toHost, hhost, decide_eq_false hlast, deviceAccept, Bool.false_eq_true, if_false]
      rfl
    rw [hnext, hstage, ← hfst]
    exact hbeat

/-- An acquire of permission is granted. -/
theorem stageA_grant (hp : p.Ok) (hl : Links s) (h : Coherent f e) (hs : SameReq s f e)
    (haq : s.env.aQ = m :: rest) (hsome : (s.inputs l).hostA = some (m.beat s.env.aIdx))
    (hst : s.br.fsm.stateQ = .grant) :
    Coherent { f with stateQ := s.nextA l } (s.stageA amo l e) := by
  have hfst : f.stateQ = .grant := hs.stateQ.trans hst
  have hc : f.Clear := Or.inr hfst
  have hq : e.aQ = m :: rest := hs.aQ.trans haq
  have hm := h.holds hc.busy hq
  have hop : m.opcode = .acquirePerm := hm.1 ▸ h.control.grantOp hfst
  have hlen0 : m.len p = 0 := by simp [AReq.len, Burst.len, hop, AOp.hasData]
  have hz : s.env.aIdx = 0 := by
    have := hl.hostReq.1
    rw [aLen_cons haq, hlen0] at this
    omega
  have hlast : s.br.hostReqLast (m.beat s.env.aIdx) = true := by
    rw [hostReqLast_eq hl haq, hz, hlen0]
    rfl
  have hdev : s.deviceFire l 1 = none := by
    simp [deviceFire, Broadcast.deviceReqMult, Broadcast.deviceReqReq, hst]
  have hgrant : s.br.hostGntGrant (s.inputs l) =
      some ⟨.grant, s.br.fsm.xactTypeQ, m.size, s.br.fsm.sourceQ, 0, false, false, 0⟩ := by
    simp only [Broadcast.hostGntGrant, hst, hsome, if_true, Option.bind_some, hlast]
    rfl
  cases hr : s.br.hostGntReady (s.inputs l) 1 with
  | false =>
      have hnext : s.nextA l = .grant := by simp [nextA, hst, hsome, hr]
      have hstage : s.stageA amo l e = e := by
        simp [stageA, Broadcast.hostAReady, hst, hgrant, hr, toDevice, hdev, toHost, hostFire]
      rw [hnext, hstage, ← hfst]
      exact h
  | true =>
      have hnext : s.nextA l = .wait := by simp [nextA, hst, hsome, hr, hlast]
      have hr0 := hl.rIdx_of_ready (by decide) hr
      have hcount : s.br.hostGnt.Counts p.burst 0 0 := by
        have := hl.hostGnt
        rw [hr0] at this
        exact this.of_zero _
      have hfire : s.hostFire l 1 =
          some ⟨.grant, s.br.fsm.xactTypeQ, m.size, s.br.fsm.sourceQ, 0, false, false, 0⟩ := by
        simp [hostFire, hr, Broadcast.hostGntMult, hgrant]
      have hadv : e.advA = { e with aQ := rest, aIdx := 0 }.setAcqPhase m.source .granting := by
        simp [advA, hq, hs.aIdx, hz, hlen0]
      have hsrc : s.br.fsm.sourceQ = m.source := by rw [← hs.sourceQ, hm.2.2.1]
      have hhost : ∀ e', s.toHost l 1 e' = _ := fun e' => toHost_eq hfire rfl hcount
      have hcomm : ∀ (e' : BroadcastEnv p) (g : ℕ → ℕ → ℕ) (n : ℕ) (b : ℕ → Option DMsg),
          { ({ e'.setAcqPhase m.source .granting with rx := g, owed := n }.setAcqPhase
              m.source .started) with mail := b } =
            { ({ e' with rx := g, owed := n }.setAcqPhase m.source .started) with mail := b } := by
        intro e' g n b
        rw [← setAcqPhase_setAcqPhase { e' with rx := g, owed := n } m.source .granting .started]
        rfl
      have hstage : s.stageA amo l e =
          { ({ e with
                aQ := rest, aIdx := 0
                rx := Function.update e.rx m.source (Function.update (e.rx m.source) 0 0)
                owed := e.owed + 1 }.setAcqPhase m.source .started) with
            mail := Function.update e.mail m.source
              (some ⟨.grant, s.br.fsm.xactTypeQ, m.size, m.source, 0, false, false, 0⟩) } := by
        simp only [stageA, hsome, Option.isSome_some, Broadcast.hostAReady, hst, hgrant, hr,
          if_true, Bool.and_self, hadv, toDevice, hdev, hhost, hsrc]
        rw [hostAccept_first _ _ (Or.inl rfl)]
        exact hcomm { e with aQ := rest, aIdx := 0 } _ _ _
      rw [hnext, hstage]
      exact h.acquirePerm hp hfst hq rfl hs.xactTypeQ.symm _

theorem stageA_coherent (hp : p.Ok) (hl : Links s) (h : Coherent f e) (hs : SameReq s f e) :
    Coherent { f with stateQ := s.nextA l } (s.stageA amo l e) := by
  have hidle : s.nextA l = s.br.fsm.stateQ → s.stageA amo l e = e →
      Coherent { f with stateQ := s.nextA l } (s.stageA amo l e) := by
    intro hnext hstage
    rw [hnext, hstage, ← hs.stateQ]
    exact h
  rcases hostA_cases s l with hnone | ⟨m, rest, haq, hsome⟩
  · apply hidle
    · unfold nextA
      rw [hnone]
      cases s.br.fsm.stateQ <;> rfl
    · have h0 : s.deviceFire l 1 = none := by
        simp [deviceFire, Broadcast.deviceReqMult, Broadcast.deviceReqReq, hnone]
      have h1 : s.hostFire l 1 = none := by
        simp [hostFire, Broadcast.hostGntMult, Broadcast.hostGntGrant, hnone]
      simp [stageA, hnone, toDevice, h0, toHost, h1]
  · cases hst : s.br.fsm.stateQ with
    | req =>
        cases hr : s.br.deviceReqReady (s.inputs l) 1 with
        | false =>
            apply hidle
            · simp [nextA, hst, hsome, hr]
            · simp [stageA, Broadcast.hostAReady, hst, hr, toDevice, deviceFire, toHost, hostFire,
                Broadcast.hostGntMult, Broadcast.hostGntGrant]
        | true =>
            cases hacq : m.isAcquire with
            | true => exact stageA_acquire amo hp hl h hs haq hsome hst hr hacq
            | false => exact stageA_uncached amo hp hl h hs haq hsome hst hr hacq
    | grant => exact stageA_grant amo hp hl h hs haq hsome hst
    | idle | inv | wait =>
        apply hidle
        · simp [nextA, hst]
        · simp [stageA, Broadcast.hostAReady, hst, toDevice, deviceFire, toHost, hostFire,
            Broadcast.hostGntMult, Broadcast.hostGntGrant, Broadcast.deviceReqMult,
            Broadcast.deviceReqReq]

end ChannelA

/-! ## Responses of the device -/

section Responses
variable {f : BroadcastFsm p} {e : BroadcastEnv p} {r : DResp} {rest : List DResp}

theorem advR_last (e : BroadcastEnv p) (hq : e.rQ = r :: rest) (hlast : e.rIdx = r.len p) :
    e.advR = { e with rQ := rest, rIdx := 0 } := by
  simp only [advR, hq, hlast, if_true]

theorem advR_more (e : BroadcastEnv p) (hq : e.rQ = r :: rest) (hmore : e.rIdx ≠ r.len p) :
    e.advR = { e with rIdx := e.rIdx + 1 } := by
  simp only [advR, hq, hmore, if_false]

/-- A beat of a response to a request leaves for its host. -/
theorem stageR_answer (hp : p.Ok) (hl : Links s) (h : Coherent f e)
    (hrq : s.env.rQ = r :: rest) {rest' : List DResp} (hq : e.rQ = r :: rest')
    (hri : e.rIdx = s.env.rIdx) (ha : r.answersA = true) {d : DMsg}
    (hfire : s.hostFire l 2 = some d) (hready : s.br.deviceDReady (s.inputs l) = true)
    (hdop : r.isGrant = true → d.opcode = .grantData)
    (hdp : r.isGrant = true → Perm.ofGrant d.param = xactPerm (r.source % 4))
    (hdu : r.source % 4 = 3 → d.opcode = r.opcode) (hds : d.source = r.source / 4)
    (hdsz : d.size = r.size) (hdd : d.data = r.data e.rIdx) :
    Coherent f (s.stageR l e) := by
  have hmem : r ∈ e.rQ := by rw [hq]; exact List.mem_cons_self
  have hlen : Burst.len p.burst d.opcode.hasData d.size = r.len p := by
    rw [hdsz, DResp.len]
    rcases DResp.answersA_cases ha with hg | h3
    · rw [hdop hg, (h.ids.rAcq r hmem hg).1]
      rfl
    · rw [hdu h3]
  have hcount : s.br.hostGnt.Counts p.burst (r.len p) e.rIdx := by
    have := hl.hostGnt
    rwa [rLen_cons hrq, ← hri] at this
  have hhost : s.toHost l 2 e = e.hostAccept e.rIdx (decide (e.rIdx = r.len p)) (some d) :=
    toHost_eq hfire hlen hcount
  have hend : ∀ {e'}, Coherent f e' → e'.rQ = r :: rest' → e'.rIdx = r.len p + 1 →
      Coherent f { e' with
        rQ := rest', rIdx := 0, mail := Function.update e'.mail (r.source / 4) (some d) } :=
    fun he' hq' hi => he'.responseEnd hp hq' ha hi (fun hg => ⟨hdop hg, hdp hg⟩)
      (fun h3 => ⟨hdu h3, hdsz⟩)
  by_cases hfirst : r.isGrant = true ∧ e.rIdx = 0
  · -- the first beat of a grant
    have hbeat := h.grantBeat hp hq hfirst.1 hfirst.2
    have hacc := fun last => hostAccept_first e last (Or.inr (hdop hfirst.1))
    rw [← hfirst.2] at hacc
    by_cases hlast : e.rIdx = r.len p
    · have hstage : s.stageR l e =
          { ({ e with
                rx := Function.update e.rx (r.source / 4)
                  (Function.update (e.rx (r.source / 4)) e.rIdx (r.data e.rIdx))
                rIdx := e.rIdx + 1
                owed := e.owed + 1 }.setAcqPhase (r.source / 4) .started) with
            rQ := rest', rIdx := 0
            mail := Function.update e.mail (r.source / 4) (some d) } := by
        simp only [stageR, hhost, hacc, hready, if_true, hds, hdd, decide_eq_true hlast]
        exact advR_last _ hq hlast
      rw [hstage]
      exact hend hbeat hq (by show e.rIdx + 1 = _; omega)
    · have hstage : s.stageR l e =
          { e with
            rx := Function.update e.rx (r.source / 4)
              (Function.update (e.rx (r.source / 4)) e.rIdx (r.data e.rIdx))
            rIdx := e.rIdx + 1
            owed := e.owed + 1 }.setAcqPhase (r.source / 4) .started := by
        simp only [stageR, hhost, hacc, hready, if_true, hds, hdd, decide_eq_false hlast,
          Bool.false_eq_true, if_false]
        exact advR_more _ hq hlast
      rw [hstage]
      exact hbeat
  · have hbeat := h.responseBeat hq ha (by
      intro hg
      by_contra hz
      exact hfirst ⟨hg, by omega⟩)
    have hne : d.opcode ≠ .releaseAck ∧
        ¬((d.opcode = .grant ∨ d.opcode = .grantData) ∧ e.rIdx = 0) := by
      rcases DResp.answersA_cases ha with hg | h3
      · rw [hdop hg]
        exact ⟨by decide, fun hx => hfirst ⟨hg, hx.2⟩⟩
      · rw [hdu h3]
        rcases h.ids.rUncOp r hmem h3 with ho | ho | ho <;> rw [ho] <;> simp
    have hacc := fun last => hostAccept_next e last hne.1 hne.2
    by_cases hlast : e.rIdx = r.len p
    · have hstage : s.stageR l e =
          { e with
            rx := Function.update e.rx (r.source / 4)
              (Function.update (e.rx (r.source / 4)) e.rIdx (r.data e.rIdx))
            rQ := rest', rIdx := 0
            mail := Function.update e.mail (r.source / 4) (some d) } := by
        simp only [stageR, hhost, hacc, hready, if_true, hds, hdd, decide_eq_true hlast]
        exact advR_last _ hq hlast
      rw [hstage]
      exact hend hbeat hq (by show e.rIdx + 1 = _; omega)
    · have hstage : s.stageR l e =
          { e with
            rx := Function.update e.rx (r.source / 4)
              (Function.update (e.rx (r.source / 4)) e.rIdx (r.data e.rIdx))
            rIdx := e.rIdx + 1 } := by
        simp only [stageR, hhost, hacc, hready, if_true, hds, hdd, decide_eq_false hlast,
          Bool.false_eq_true, if_false]
        exact advR_more _ hq hlast
      rw [hstage]
      exact hbeat

theorem stageR_coherent (hp : p.Ok) (hl : Links s) (h : Coherent f e) {new : List DResp}
    (hq : e.rQ = s.env.rQ ++ new) (hri : e.rIdx = s.env.rIdx) :
    Coherent
      { f with
        probeAckPendingQ :=
          f.probeAckPendingQ - (Broadcast.probeAckDataComplete (s.inputs l)).toNat }
      (s.stageR l e) := by
  rcases deviceD_cases s l with hnone | ⟨r, rest, hrq, hsome⟩
  · have h1 : s.hostFire l 2 = none := by
      simp [hostFire, Broadcast.hostGntMult, Broadcast.hostGntDevice, hnone]
    simp only [stageR, toHost, h1, Broadcast.deviceDReady, hnone,
      Broadcast.probeAckDataComplete, Bool.false_eq_true, if_false, Bool.toNat_false, Nat.sub_zero]
    exact h
  · have hq' : e.rQ = r :: (rest ++ new) := by rw [hq, hrq]; rfl
    have hmem : r ∈ e.rQ := by rw [hq']; exact List.mem_cons_self
    have hdrop : Broadcast.isProbeAckData (r.beat s.env.rIdx) = r.isDrop := rfl
    cases hd : r.isDrop with
    | true =>
        have hcomp : (Broadcast.probeAckDataComplete (s.inputs l)).toNat = 1 := by
          simp [Broadcast.probeAckDataComplete, hsome, hdrop, hd]
        have h1 : s.hostFire l 2 = none := by
          simp [hostFire, Broadcast.hostGntMult, Broadcast.hostGntDevice, hsome, hdrop, hd]
        have hz : e.rIdx = 0 := h.control.rIdx_eq_zero hq' (by simp [DResp.answersA, hd])
        have hlen : r.len p = 0 := by
          simp only [DResp.isDrop, Broadcast.isProbeAckData, DResp.beat, Bool.and_eq_true,
            beq_iff_eq] at hd
          simp [DResp.len, Burst.len, hd.2, DOp.hasData]
        have hstage : s.stageR l e = { e with rQ := rest ++ new, rIdx := 0 } := by
          simp only [stageR, toHost, h1, Broadcast.deviceDReady, hsome, hdrop, hd, if_true]
          exact advR_last e hq' (hz.trans hlen.symm)
        rw [hcomp, hstage]
        exact h.dropResponse hq' hd
    | false =>
        have hcomp : (Broadcast.probeAckDataComplete (s.inputs l)).toNat = 0 := by
          simp [Broadcast.probeAckDataComplete, hsome, hdrop, hd]
        rw [hcomp]
        cases hr : s.br.hostGntReady (s.inputs l) 2 with
        | false =>
            have hstage : s.stageR l e = e := by
              simp [stageR, toHost, hostFire, hr, Broadcast.deviceDReady, hsome, hdrop, hd]
            rw [hstage]
            exact h
        | true =>
            have hready : s.br.deviceDReady (s.inputs l) = true := by
              simp [Broadcast.deviceDReady, hsome, hdrop, hd, hr]
            have hfire : s.hostFire l 2 = Broadcast.hostGntDevice (s.inputs l) := by
              simp [hostFire, hr, Broadcast.hostGntMult]
            have hsrc : (r.beat s.env.rIdx).source = r.source := rfl
            by_cases h2 : r.source % 4 = 2
            · have hfire2 : s.hostFire l 2 = some
                  { r.beat s.env.rIdx with
                    opcode := .releaseAck, param := 0, source := r.source / 4, sink := 0
                    denied := false } := by
                rw [hfire]
                simp [Broadcast.hostGntDevice, hsome, hdrop, hd, hsrc, h2, xactAcquireToT,
                  xactAcquireToB, xactReleaseData]
              have hz : e.rIdx = 0 := h.control.rIdx_eq_zero hq' (by simp [DResp.answersA, h2])
              have hlen : r.len p = 0 := by
                simp [DResp.len, Burst.len, (h.ids.rRel r hmem h2).1, DOp.hasData]
              have hstage : s.stageR l e =
                  { e with rQ := rest ++ new, rIdx := 0 }.setRelPhase (r.source / 4) .acked := by
                simp only [stageR, toHost, hfire2, hostAccept, if_true, hready]
                exact advR_last (e.setRelPhase (r.source / 4) .acked) hq' (hz.trans hlen.symm)
              rw [hstage]
              exact h.releaseResponse hp hq' h2
            · have ha : r.answersA = true := by simp [DResp.answersA, hd, h2]
              have hlt : r.source % 4 < 4 := Nat.mod_lt _ (by decide)
              have hg3 : r.isGrant = true → r.source % 4 < 2 := by
                intro hg
                simpa [DResp.isGrant, hd] using hg
              by_cases h0 : r.source % 4 = 0
              · refine stageR_answer hp hl h hrq hq' hri ha
                  (d := { r.beat s.env.rIdx with
                    opcode := .grantData, param := toT, source := r.source / 4, sink := 0 })
                  ?_ hready (fun _ => rfl) ?_ (by omega) rfl rfl ?_
                · rw [hfire]
                  simp [Broadcast.hostGntDevice, hsome, hdrop, hd, hsrc, h0, xactAcquireToT]
                · intro _
                  rw [h0]
                  rfl
                · rw [hri]
                  rfl
              · by_cases h1 : r.source % 4 = 1
                · refine stageR_answer hp hl h hrq hq' hri ha
                    (d := { r.beat s.env.rIdx with
                      opcode := .grantData, param := toB, source := r.source / 4, sink := 0 })
                    ?_ hready (fun _ => rfl) ?_ (by omega) rfl rfl ?_
                  · rw [hfire]
                    simp [Broadcast.hostGntDevice, hsome, hdrop, hd, hsrc, h1, xactAcquireToT,
                      xactAcquireToB]
                  · intro _
                    rw [h1]
                    rfl
                  · rw [hri]
                    rfl
                · have h3 : r.source % 4 = 3 := by omega
                  refine stageR_answer hp hl h hrq hq' hri ha
                    (d := { r.beat s.env.rIdx with
                      param := 0, source := r.source / 4, sink := 0 })
                    ?_ hready ?_ ?_ (fun _ => rfl) rfl rfl ?_
                  · rw [hfire]
                    simp [Broadcast.hostGntDevice, hsome, hdrop, hd, hsrc, h3, xactAcquireToT,
                      xactAcquireToB, xactReleaseData]
                  · intro hg
                    have := hg3 hg
                    omega
                  · intro hg
                    have := hg3 hg
                    omega
                  · rw [hri]
                    rfl

end Responses

/-! ## Channel B -/

theorem stageB_coherent (hp : p.Ok) {f : BroadcastFsm p} {e : BroadcastEnv p} (h : Coherent f e)
    (hpp : f.probePendingQ = s.br.fsm.probePendingQ) (haddr : f.addressQ = s.br.fsm.addressQ)
    (hparam : f.probeParamQ = s.br.fsm.probeParamQ) :
    Coherent { f with probePendingQ := s.br.probePendingRest (s.inputs l) } (s.stageB l e) := by
  have hbr : (s.inputs l).hostBReady = l.bReady := rfl
  have hkeep : s.br.probePendingRest (s.inputs l) = s.br.fsm.probePendingQ → s.stageB l e = e →
      Coherent { f with probePendingQ := s.br.probePendingRest (s.inputs l) } (s.stageB l e) := by
    intro h1 h2
    rw [h1, h2, ← hpp]
    exact h
  cases hsel : s.br.probeSelected with
  | none =>
      apply hkeep
      · funext k
        simp [Broadcast.probePendingRest, hsel]
      · simp [stageB, Broadcast.hostB, hsel]
  | some k =>
      cases hr : l.bReady with
      | false =>
          apply hkeep
          · funext j
            simp [Broadcast.probePendingRest, hbr, hr]
          · simp [stageB, Broadcast.hostB, hsel, hr]
      | true =>
          have hk : f.probePendingQ k = true := by
            rw [hpp]
            exact Sync.lastIdx_some hsel
          have hrest : s.br.probePendingRest (s.inputs l) =
              Function.update f.probePendingQ k false := by
            funext j
            by_cases hj : j = k
            · subst hj
              simp [Broadcast.probePendingRest, hbr, hr, hsel]
            · rw [Function.update_of_ne hj, hpp]
              have hkj : ¬k = j := fun hkj => hj hkj.symm
              simp [Broadcast.probePendingRest, hbr, hr, hsel, hkj]
          generalize hb : (⟨.probeBlock, s.br.fsm.probeParamQ, p.burst.maxSize, p.sourceBase k,
            p.lineOf s.br.fsm.addressQ * 2 ^ p.burst.maxSize⟩ : BMsg) = b
          have hstage : s.stageB l e = { e with bQ := Function.update e.bQ k (some b) } := by
            have hB : s.br.hostB = some b := by
              rw [← hb]
              simp [Broadcast.hostB, hsel]
            have hbs : b.source = p.sourceBase k := by rw [← hb]
            simp only [stageB, hB, hr, if_true, acceptB, hbs]
            congr 1
            funext j
            by_cases hj : j = k
            · subst hj
              rw [if_pos (hp.base j), Function.update_self]
            · rw [Function.update_of_ne hj, if_neg]
              intro hs
              exact hj (hp.disjoint hs (hp.base k))
          rw [hrest, hstage]
          refine h.sendProbe hk ?_ ?_ ?_
          · rw [← hb]
            show p.lineOf (p.lineOf s.br.fsm.addressQ * 2 ^ p.burst.maxSize) = f.line
            rw [lineOf_mul, BroadcastFsm.line, haddr]
          · rw [← hb]
            exact beatOf_mul p _
          · rw [← hb]
            exact hparam.symm

end BroadcastSys

end Muntjac.Tl

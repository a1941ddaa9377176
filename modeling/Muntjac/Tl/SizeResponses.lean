import Muntjac.Tl.SizeRequests

/-!
# The responses of the size downsizer

The device answers fragment by fragment.  The data of all fragments of a request is one response
to the host; of the acknowledgements only the last one is.

## Main definitions

* `respond` — the response to a request, or the beginning of it.
* `ResponseInv` — the requests that are answered and those that are pending.

## Main results

* `ResponseInv.step` — one beat of the device.
-/

namespace Muntjac.Tl.SizeDownsizer

open Sync

/-- Channel D as the host sees it here: `denied` may change within a response. -/
def chanR : Chan DMsg where
  header m := { m with param := 0, sink := 0, denied := false, corrupt := false, data := 0 }
  hasData m := m.opcode.hasData
  size := DMsg.size
  hasData_header _ := rfl
  size_header _ := rfl

variable (p : SizeParams)

/-- A beat of the response to `h`. -/
def hostBeat (h : AMsg) (y : DMsg) : DMsg where
  opcode := y.opcode
  param := 0
  size := h.size
  source := h.source
  sink := 0
  denied := y.denied
  corrupt := y.corrupt
  data := y.data

/-- The beats of the response to a fragment, after the first one. -/
def respLen (h : AMsg) : ℕ := Burst.len p.device (answer h.opcode).hasData (fragSize p h)

/-- The messages of the device answer the first fragments of `h`. -/
def Group (h : AMsg) (g : List (List DMsg)) : Prop :=
  ∀ u m, g[u]? = some m →
    chanD.IsMessage p.device m ∧ ∀ y ∈ m, Answers (fragment p h u) y

/-- The beats for the host, when `g` are the complete messages of the device and `part` is the
beginning of the next one. -/
def respond (h : AMsg) (g : List (List DMsg)) (part : List DMsg) : List DMsg :=
  if (answer h.opcode).hasData then (g.flatten ++ part).map (hostBeat h)
  else if g.length = numFrag p h then (g.getLastD []).map (hostBeat h) else []

/-- What the device has sent for the first request that is pending. -/
structure Current (h : AMsg) (cur : List (List DMsg)) (part : List DMsg) : Prop where
  lt : cur.length < numFrag p h
  group : Group p h cur
  isPart : chanD.IsPart p.device part
  answers : ∀ y ∈ part, Answers (fragment p h cur.length) y

/-- The beats `dc` of the device make the beats `hd` for the host.  The requests `done` are
answered, the others are pending; the first one of these has the messages `cur` and the beats
`part` of the next message. -/
structure ResponseInv (reqs : List AMsg) (dc hd : List DMsg)
    (done : List (AMsg × List (List DMsg))) (pending : List AMsg) (cur : List (List DMsg))
    (part : List DMsg) : Prop where
  requests : reqs = done.map Prod.fst ++ pending
  consumed : dc = (done.flatMap Prod.snd ++ cur).flatten ++ part
  given : hd = done.flatMap (fun r => respond p r.1 r.2 []) ++
    pending.head?.elim [] fun h => respond p h cur part
  complete : ∀ r ∈ done, r.2.length = numFrag p r.1 ∧ Group p r.1 r.2
  current : ∀ h, pending.head? = some h → Current p h cur part
  idle : pending = [] → cur = [] ∧ part = []

variable {p} {h : AMsg} {g cur : List (List DMsg)} {part : List DMsg}

/-! ## The lengths of responses -/

theorem len_of_answers {k : ℕ} {y : DMsg} (hy : Answers (fragment p h k) y) :
    chanD.len p.device y = respLen p h := by
  rw [Chan.len, respLen, show chanD.hasData y = (answer h.opcode).hasData by
    rw [show chanD.hasData y = y.opcode.hasData from rfl, hy.opcode]; rfl,
    show chanD.size y = fragSize p h from hy.size]

theorem Group.length_mem (hg : Group p h g) {m : List DMsg} (hm : m ∈ g) :
    m.length = respLen p h + 1 := by
  obtain ⟨u, hu⟩ := List.getElem?_of_mem hm
  obtain ⟨hmsg, hall⟩ := hg u m hu
  obtain ⟨y, hy⟩ := List.exists_mem_of_ne_nil m hmsg.ne_nil
  rw [hmsg.length y hy, len_of_answers (hall y hy)]

theorem Group.length_flatten (hg : Group p h g) :
    g.flatten.length = g.length * (respLen p h + 1) := by
  rw [List.length_flatten, List.map_congr_left fun m hm => hg.length_mem hm, List.map_const',
    List.sum_replicate_nat]

theorem Group.opcode (hg : Group p h g) {m : List DMsg} (hm : m ∈ g) {y : DMsg} (hy : y ∈ m) :
    y.opcode = answer h.opcode := by
  obtain ⟨u, hu⟩ := List.getElem?_of_mem hm
  exact ((hg u m hu).2 y hy).opcode

theorem Group.concat (hg : Group p h g) {m : List DMsg} (hm : chanD.IsMessage p.device m)
    (hy : ∀ y ∈ m, Answers (fragment p h g.length) y) : Group p h (g ++ [m]) := by
  intro u m' hu
  rcases Nat.lt_trichotomy u g.length with hlt | heq | hgt
  · rw [List.getElem?_append_left hlt] at hu
    exact hg u m' hu
  · rw [heq, List.getElem?_append_right (Nat.le_refl _), Nat.sub_self] at hu
    obtain rfl : m = m' := by simpa using hu
    rw [heq]
    exact ⟨hm, hy⟩
  · rw [List.getElem?_eq_none (by rw [List.length_append, List.length_singleton]; omega)] at hu
    cases hu

theorem respLen_of_noData (hd : (answer h.opcode).hasData = false) : respLen p h = 0 := by
  rw [respLen, hd]
  rfl

/-- The length of a response to the host, in terms of those to the fragments. -/
theorem hostLen_eq (hsize : h.size ≤ p.hostMaxSize) {y : DMsg}
    (hop : y.opcode = answer h.opcode) :
    ((answer h.opcode).hasData = true →
        chanR.len p.host (hostBeat h y) + 1 = numFrag p h * (respLen p h + 1)) ∧
      ((answer h.opcode).hasData = false → chanR.len p.host (hostBeat h y) = 0) := by
  have hlen : chanR.len p.host (hostBeat h y) =
      Burst.len p.host (answer h.opcode).hasData h.size := by
    rw [Chan.len, show chanR.hasData (hostBeat h y) = y.opcode.hasData from rfl, hop]
    rfl
  rw [hlen, respLen]
  refine ⟨fun hd => ?_, fun hd => by rw [hd]; rfl⟩
  rw [hd]
  exact len_mul true hsize (.inl rfl)

theorem mem_respond {y : DMsg} (hg : Group p h g)
    (hpart : ∀ z ∈ part, Answers (fragment p h g.length) z) (hy : y ∈ respond p h g part) :
    ∃ z, z.opcode = answer h.opcode ∧ y = hostBeat h z := by
  unfold respond at hy
  split_ifs at hy with h1 h2
  · obtain ⟨z, hz, rfl⟩ := List.mem_map.mp hy
    refine ⟨z, ?_, rfl⟩
    rcases List.mem_append.mp hz with hz | hz
    · obtain ⟨m, hm, hz⟩ := List.mem_flatten.mp hz
      exact hg.opcode hm hz
    · exact (hpart z hz).opcode
  · obtain ⟨z, hz, rfl⟩ := List.mem_map.mp hy
    refine ⟨z, ?_, rfl⟩
    cases g using List.reverseRecOn with
    | nil => simp at hz
    | append_singleton g m =>
        rw [List.getLastD_concat] at hz
        exact hg.opcode (by simp) hz
  · simp at hy

theorem header_hostBeat {y z : DMsg} (hop : y.opcode = z.opcode) :
    chanR.header (hostBeat h y) = chanR.header (hostBeat h z) := by
  simp only [chanR, hostBeat, hop]

/-- A complete response is a message for the host. -/
theorem isMessage_respond (hg : Group p h g) (hlen : g.length = numFrag p h)
    (hsize : h.size ≤ p.hostMaxSize) : chanR.IsMessage p.host (respond p h g []) := by
  have hpos := numFrag_pos (p := p) h
  have hmem : ∀ y ∈ respond p h g [], ∃ z, z.opcode = answer h.opcode ∧ y = hostBeat h z :=
    fun y hy => mem_respond hg (by simp) hy
  have hlength : (respond p h g []).length =
      if (answer h.opcode).hasData then numFrag p h * (respLen p h + 1) else 1 := by
    unfold respond
    split_ifs with hd
    · rw [List.append_nil, List.length_map, hg.length_flatten, hlen]
    · cases g using List.reverseRecOn with
      | nil => simp at hlen; omega
      | append_singleton g m =>
          rw [List.getLastD_concat, List.length_map, hg.length_mem (by simp),
            respLen_of_noData (by simpa using hd)]
  refine ⟨fun x hx y hy => ?_, fun x hx => ?_, fun hnil => ?_⟩
  · obtain ⟨z, hz, rfl⟩ := hmem x hx
    obtain ⟨z', hz', rfl⟩ := hmem y hy
    exact header_hostBeat (hz.trans hz'.symm)
  · obtain ⟨z, hz, rfl⟩ := hmem x hx
    obtain ⟨hdata, hnodata⟩ := hostLen_eq hsize hz
    rw [hlength]
    split_ifs with hd
    · exact (hdata hd).symm
    · rw [hnodata (by simpa using hd)]
  · rw [hnil, List.length_nil] at hlength
    have hmul : 0 < numFrag p h * (respLen p h + 1) := Nat.mul_pos hpos (Nat.succ_pos _)
    split_ifs at hlength
    omega

/-! ## One beat of the device -/

section Step
variable {reqs : List AMsg} {dc hd : List DMsg} {done : List (AMsg × List (List DMsg))}
  {pending : List AMsg} {y : DMsg}

namespace ResponseInv

theorem isMessage_of_mem (hi : ResponseInv p reqs dc hd done pending cur part) {m : List DMsg}
    (hm : m ∈ done.flatMap Prod.snd ++ cur) : chanD.IsMessage p.device m := by
  rcases List.mem_append.mp hm with hm | hm
  · obtain ⟨r, hr, hm⟩ := List.mem_flatMap.mp hm
    obtain ⟨u, hu⟩ := List.getElem?_of_mem hm
    exact ((hi.complete r hr).2 u m hu).1
  · obtain ⟨u, hu⟩ := List.getElem?_of_mem hm
    cases hp : pending with
    | nil =>
        rw [(hi.idle hp).1] at hu
        simp at hu
    | cons h rest => exact ((hi.current h (by rw [hp]; rfl)).group u m hu).1

theorem isPart (hi : ResponseInv p reqs dc hd done pending cur part) :
    chanD.IsPart p.device part := by
  cases hp : pending with
  | nil =>
      rw [(hi.idle hp).2]
      exact Chan.isPart_nil
  | cons h rest => exact (hi.current h (by rw [hp]; rfl)).isPart

theorem posOf_consumed (hi : ResponseInv p reqs dc hd done pending cur part) :
    posOf chanD p.device dc = posOf chanD p.device part := by
  rw [hi.consumed]
  exact posOf_messages (fun m hm => hi.isMessage_of_mem hm) part

end ResponseInv

variable (p) in
/-- The beat for the host, if there is one: an acknowledgement is passed on if it is the last. -/
def emitted (h : AMsg) (cur : List (List DMsg)) (y : DMsg) : List DMsg :=
  if (answer h.opcode).hasData = false ∧ cur.length + 1 ≠ numFrag p h then [] else [hostBeat h y]

/-- A beat of a message of the device, and what the host gets for it. -/
theorem respond_concat (hc : Current p h cur part) (hy : Answers (fragment p h cur.length) y)
    (hle : part.length ≤ chanD.len p.device y) :
    (part.length < chanD.len p.device y →
        respond p h cur (part ++ [y]) = respond p h cur part ++ emitted p h cur y ∧
          emitted p h cur y = [hostBeat h y]) ∧
      (part.length = chanD.len p.device y →
        respond p h (cur ++ [part ++ [y]]) [] = respond p h cur part ++ emitted p h cur y) := by
  have hlt := hc.lt
  have hlen := len_of_answers hy
  unfold respond emitted
  cases hd : (answer h.opcode).hasData with
  | true => simp
  | false =>
      have hzero := respLen_of_noData (p := p) hd
      have hpart : part = [] := List.eq_nil_of_length_eq_zero (by omega)
      refine ⟨fun h => by omega, fun _ => ?_⟩
      have hne : ¬cur.length = numFrag p h := by omega
      simp only [Bool.false_eq_true, if_false, if_neg hne, List.length_append,
        List.length_singleton, hpart]
      by_cases hlast : cur.length + 1 = numFrag p h <;> simp [hlast]

/-- One beat of the device: it belongs to the next message, which may be complete, and so may be
the response to the first request that is pending. -/
theorem ResponseInv.step (hi : ResponseInv p reqs dc hd done (h :: pending) cur part)
    (hy : Answers (fragment p h cur.length) y) (hq : (posOf chanD p.device dc).Accepts chanD y) :
    (part.length < chanD.len p.device y →
      ResponseInv p reqs (dc ++ [y]) (hd ++ emitted p h cur y) done (h :: pending) cur
        (part ++ [y])) ∧
    (part.length = chanD.len p.device y → cur.length + 1 < numFrag p h →
      ResponseInv p reqs (dc ++ [y]) (hd ++ emitted p h cur y) done (h :: pending)
        (cur ++ [part ++ [y]]) []) ∧
    (part.length = chanD.len p.device y → cur.length + 1 = numFrag p h →
      ResponseInv p reqs (dc ++ [y]) (hd ++ emitted p h cur y)
        (done ++ [(h, cur ++ [part ++ [y]])]) pending [] []) ∧
    part.length ≤ chanD.len p.device y := by
  have hc := hi.current h rfl
  rw [hi.posOf_consumed] at hq
  have hholds := hc.isPart.holds
  have hhead := hholds.header_eq hq
  have hle : part.length ≤ chanD.len p.device y := by
    cases part with
    | nil => exact Nat.zero_le _
    | cons z part =>
        rw [← chanD.len_of_header p.device (hhead z (by simp))]
        exact hc.isPart.length z (by simp)
  obtain ⟨hmore, hlast⟩ := respond_concat hc hy hle
  have hans : ∀ z ∈ part ++ [y], Answers (fragment p h cur.length) z := by
    intro z hz
    rcases List.mem_append.mp hz with hz | hz
    · exact hc.answers z hz
    · rw [List.mem_singleton.mp hz]
      exact hy
  have hmsg : part.length = chanD.len p.device y →
      chanD.IsMessage p.device (part ++ [y]) := by
    intro heq
    refine hholds.isMessage hq ?_
    rw [hc.isPart.done_eq, heq]
  have hcons : dc ++ [y] = (done.flatMap Prod.snd ++ cur).flatten ++ (part ++ [y]) := by
    rw [hi.consumed, List.append_assoc]
  have hgiven : hd = done.flatMap (fun r => respond p r.1 r.2 []) ++ respond p h cur part :=
    hi.given
  refine ⟨fun hlt => ?_, fun heq hn => ?_, fun heq hn => ?_, hle⟩
  · refine ⟨hi.requests, hcons, ?_, hi.complete, fun h' hh => ?_, fun hnil => by simp at hnil⟩
    · rw [hgiven, List.append_assoc, ← (hmore hlt).1]
      rfl
    · obtain rfl : h = h' := by simpa using hh
      refine ⟨hc.lt, hc.group, ⟨fun a ha b hb => ?_, fun a ha => ?_⟩, hans⟩
      · rw [hhead a ha, hhead b hb]
      · rw [chanD.len_of_header p.device (hhead a ha), List.length_append, List.length_singleton]
        omega
  · refine ⟨hi.requests, ?_, ?_, hi.complete, fun h' hh => ?_, fun hnil => by simp at hnil⟩
    · rw [hcons]
      simp
    · rw [hgiven, List.append_assoc, ← hlast heq]
      rfl
    · obtain rfl : h = h' := by simpa using hh
      refine ⟨?_, hc.group.concat (hmsg heq) hans, Chan.isPart_nil, by simp⟩
      rw [List.length_append, List.length_singleton]
      exact hn
  · refine ⟨?_, ?_, ?_, fun r hr => ?_, fun h' hh => ?_, fun _ => ⟨rfl, rfl⟩⟩
    · rw [hi.requests]
      simp
    · rw [hcons]
      simp
    · have hnil : (pending.head?.elim [] fun h => respond p h [] []) = [] := by
        cases pending with
        | nil => rfl
        | cons h' rest =>
            have hpos := numFrag_pos (p := p) h'
            change respond p h' [] [] = []
            unfold respond
            split_ifs <;> simp
      rw [hnil, hgiven, List.append_assoc, ← hlast heq]
      simp
    · rcases List.mem_append.mp hr with hr | hr
      · exact hi.complete r hr
      · rw [List.mem_singleton.mp hr]
        refine ⟨?_, hc.group.concat (hmsg heq) hans⟩
        rw [List.length_append, List.length_singleton]
        exact hn
    · exact ⟨numFrag_pos h', fun u m hu => by simp at hu, Chan.isPart_nil, by simp⟩

/-- A new request. -/
theorem ResponseInv.request (hi : ResponseInv p reqs dc hd done pending cur part) (x : AMsg) :
    ResponseInv p (reqs ++ [x]) dc hd done (pending ++ [x]) cur part := by
  refine ⟨?_, hi.consumed, ?_, hi.complete, fun h hh => ?_, fun hnil => by simp at hnil⟩
  · rw [hi.requests, List.append_assoc]
  · rw [hi.given]
    cases hp : pending with
    | nil =>
        obtain ⟨hcur, hpart⟩ := hi.idle hp
        have hpos := numFrag_pos (p := p) x
        congr 1
        rw [hcur, hpart]
        change [] = respond p x [] []
        unfold respond
        split_ifs <;> simp
    | cons h rest => rfl
  · cases hp : pending with
    | nil =>
        obtain ⟨hcur, hpart⟩ := hi.idle hp
        rw [hcur, hpart]
        exact ⟨numFrag_pos h, fun u m hu => by simp at hu, Chan.isPart_nil, by simp⟩
    | cons h' rest =>
        rw [hp] at hh
        exact hi.current h (by rw [hp]; exact hh)

end Step

end Muntjac.Tl.SizeDownsizer

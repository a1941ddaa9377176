import Muntjac.Tl.SizeFragments

/-!
# The request path of the size downsizer

The registers of the request say which fragment comes next.  In `ReqStateIdle` the first fragment
is passed through, in `ReqStateData` the others follow with the beats of the host, and in
`ReqStateNoData` they are made without the host.

## Main results

* `RequestInv.step` — the invariant of the request path: what was sent, with the fragments that
  are still held, is what has to be sent.
-/

namespace Muntjac.Tl.SizeDownsizer

open Sync

variable (p : SizeParams)

/-- The registers describe fragment `k` of the message of `x`. -/
structure Regs (s : SizeDownsizer) (x : AMsg) (k : ℕ) : Prop where
  opcode : s.opcode = x.opcode
  param : s.param = x.param
  source : s.source = x.source
  address : s.address = x.address + k * 2 ^ p.deviceMaxSize
  len : s.len = numFrag p x - 1 - k
  lt : k < numFrag p x
  large : p.deviceMaxSize < x.size

/-- The fragments that are sent without the host. -/
def held (s : SizeDownsizer) : List AMsg :=
  if s.reqState = .noData then
    (List.range (s.len + 1)).map fun t =>
      { opcode := s.opcode, param := s.param, size := p.deviceMaxSize,
        source := deviceSource p s.source (s.len - t),
        address := s.address + t * 2 ^ p.deviceMaxSize,
        mask := 2 ^ 2 ^ p.nonBurst - 1, corrupt := false, data := 0 }
  else []

/-- The registers at position `q` of the stream of the host. -/
def RequestState (q : Pos AMsg) (s : SizeDownsizer) : Prop :=
  match s.reqState with
  | .idle => ∀ x, q.Accepts chanA x → OkA p x →
      q.done ≤ fragLen p x ∧ Burst.Counts p.device s.deviceReq (fragLen p x) q.done
  | .noData => q = .idle ∧ (∀ n, Burst.Counts p.device s.deviceReq n 0) ∧
      ∃ x k, OkA p x ∧ x.opcode.hasData = false ∧ Regs p s x k
  | .data => ∀ x, q.Accepts chanA x → OkA p x →
      x.opcode.hasData = true ∧ fragLen p x + 1 ≤ q.done ∧
      Regs p s x (q.done / (fragLen p x + 1)) ∧
      Burst.Counts p.device s.deviceReq (fragLen p x) (q.done % (fragLen p x + 1))

/-- The beats `l` were taken from the host, and `d` were sent to the device. -/
structure RequestInv (l d : List AMsg) (s : SizeDownsizer) : Prop where
  legal : Legal chanA p.host (OkA p) l
  tracks : Tracks chanA p.host s.hostReq (posOf chanA p.host l)
  state : RequestState p (posOf chanA p.host l) s
  given : d ++ held p s = sent p l

variable {p} {s t : SizeDownsizer} {i : SizeDownsizerIn} {x : AMsg} {k : ℕ} {q : Pos AMsg}

/-! ## The registers -/

theorem fragSize_of_lt (h : p.deviceMaxSize < x.size) : fragSize p x = p.deviceMaxSize :=
  Nat.min_eq_right (by omega)

/-- A beat that is sent from the registers. -/
theorem Regs.fragment_eq (h : Regs p s x k) :
    { x with
      opcode := s.opcode, param := s.param, size := p.deviceMaxSize,
      source := deviceSource p s.source s.len, address := s.address } = fragment p x k := by
  rw [h.opcode, h.param, h.source, h.address, h.len]
  unfold fragment
  rw [fragSize_of_lt h.large]

theorem Regs.laterFragment_eq (h : Regs p s x k) (t : ℕ) :
    { opcode := s.opcode, param := s.param, size := p.deviceMaxSize,
      source := deviceSource p s.source (s.len - t),
      address := s.address + t * 2 ^ p.deviceMaxSize, mask := 2 ^ 2 ^ p.nonBurst - 1,
      corrupt := false, data := 0 } = laterFragment p x (k + t) := by
  rw [h.opcode, h.param, h.source, h.address, h.len]
  unfold laterFragment fragment
  rw [fragSize_of_lt h.large, Nat.sub_sub _ k t, Nat.add_mul, ← Nat.add_assoc]

theorem Regs.held_eq (h : Regs p s x k) (hs : s.reqState = .noData) :
    held p s = (List.range (numFrag p x - k)).map fun t => laterFragment p x (k + t) := by
  have hlt := h.lt
  rw [held, if_pos hs, show s.len + 1 = numFrag p x - k by rw [h.len]; omega]
  exact List.map_congr_left fun t _ => h.laterFragment_eq t

theorem held_of_ne (hs : s.reqState ≠ .noData) : held p s = [] := if_neg hs

/-- The next fragment is not beyond the address space. -/
theorem address_next (hok : OkA p x) (hk : k + 1 < numFrag p x) :
    (x.address + k * 2 ^ p.deviceMaxSize + 2 ^ p.deviceMaxSize) % 2 ^ p.addrWidth =
      x.address + (k + 1) * 2 ^ p.deviceMaxSize := by
  have hle := address_add_le (p := p) (x := x) hk
  have hpos := Nat.two_pow_pos (fragSize p x)
  have hrange := hok.range
  have hmul : k * 2 ^ p.deviceMaxSize + 2 ^ p.deviceMaxSize = (k + 1) * 2 ^ p.deviceMaxSize :=
    (Nat.succ_mul _ _).symm
  rw [Nat.add_assoc, hmul]
  exact Nat.mod_eq_of_lt (by omega)

theorem len_next {n : ℕ} (h : 0 < n) (hlt : n < 2 ^ p.fragmentWidth) :
    (n + (2 ^ p.fragmentWidth - 1)) % 2 ^ p.fragmentWidth = n - 1 := by
  rw [show n + (2 ^ p.fragmentWidth - 1) = n - 1 + 2 ^ p.fragmentWidth by omega,
    Nat.add_mod_right]
  exact Nat.mod_eq_of_lt (by omega)

/-- The registers move on to the next fragment. -/
theorem Regs.advance (h : Regs p s x k) (hok : OkA p x) :
    if k + 1 = numFrag p x then (advance p s).reqState = .idle
    else (advance p s).reqState = s.reqState ∧ Regs p (advance p s) x (k + 1) := by
  have hlt := h.lt
  have hle := numFrag_le hok.size
  unfold SizeDownsizer.advance
  rw [h.len]
  split_ifs with hk h1 h2
  · rfl
  · omega
  · omega
  · refine ⟨rfl, h.opcode, h.param, h.source, ?_, ?_, by omega, h.large⟩
    · change (s.address + _) % _ = _
      rw [h.address, address_next hok (by omega)]
    · change (_ + _) % _ = _
      rw [len_next (by omega) (by omega)]
      omega

/-! ## Cycles without a transfer -/

/-- What the invariant depends on. -/
theorem RequestState.congr (h : RequestState p q s) (hst : t.reqState = s.reqState)
    (hop : t.opcode = s.opcode) (hparam : t.param = s.param) (hsource : t.source = s.source)
    (haddr : t.address = s.address) (hlen : t.len = s.len) (hreq : t.deviceReq = s.deviceReq) :
    RequestState p q t ∧ held p t = held p s := by
  have hregs : ∀ x k, Regs p s x k → Regs p t x k := fun x k hr =>
    ⟨hop.trans hr.opcode, hparam.trans hr.param, hsource.trans hr.source,
      haddr.trans hr.address, hlen.trans hr.len, hr.lt, hr.large⟩
  refine ⟨?_, by simp only [held, hst, hop, hparam, hsource, haddr, hlen]⟩
  unfold RequestState at h ⊢
  rw [hst]
  cases hs : s.reqState with
  | idle =>
      simp only [hs] at h ⊢
      rw [hreq]
      exact h
  | noData =>
      simp only [hs] at h ⊢
      rw [hreq]
      obtain ⟨hq, hc, x, k, hx, hd, hr⟩ := h
      exact ⟨hq, hc, x, k, hx, hd, hregs x k hr⟩
  | data =>
      simp only [hs] at h ⊢
      rw [hreq]
      intro x hx hok
      obtain ⟨hd, hle, hr, hc⟩ := h x hx hok
      exact ⟨hd, hle, hregs x _ hr, hc⟩

/-! ## One cycle -/

variable (p) in
/-- The position after a cycle. -/
def posAfter (q : Pos AMsg) (o : Option AMsg) : Pos AMsg := o.elim q (q.next chanA p.host)

variable (p) in
/-- What a cycle of the request path has to do. -/
structure RequestStep (q : Pos AMsg) (s : SizeDownsizer) (i : SizeDownsizerIn) : Prop where
  state : RequestState p (posAfter p q (hostATransfer p s i)) (step p s i)
  conserve : held p s ++ (hostATransfer p s i).toList.flatMap (fun x => sends p x q.done) =
    (deviceATransfer p s i).toList ++ held p (step p s i)

/-- Nothing is transferred. -/
theorem requestStep_of_none (h : RequestState p q s) (ho : hostATransfer p s i = none)
    (hd : deviceATransfer p s i = none) (hn : nextReq p s i = s) : RequestStep p q s i := by
  have hreq : (step p s i).deviceReq = s.deviceReq := by simp [step, hd]
  have hf : ∀ f : SizeDownsizer → ReqState × AOp × ℕ × ℕ × ℕ × ℕ,
      f (nextReq p s i) = f s := fun f => by rw [hn]
  have hfields := hf fun s => (s.reqState, s.opcode, s.param, s.source, s.address, s.len)
  simp only [Prod.mk.injEq] at hfields
  obtain ⟨h1, h2, h3, h4, h5, h6⟩ := hfields
  obtain ⟨hstate, hheld⟩ := h.congr (t := step p s i) h1 h2 h3 h4 h5 h6 hreq
  constructor
  · rw [ho]
    exact hstate
  · rw [ho, hd, hheld]
    simp

/-- The counter of the device after a beat of a fragment of `x`. -/
theorem deviceReq_step {m : AMsg} {j : ℕ} (hd : deviceATransfer p s i = some m)
    (hop : m.opcode = x.opcode) (hsize : m.size = fragSize p x)
    (hc : Burst.Counts p.device s.deviceReq (fragLen p x) j) :
    deviceALast p s i = decide (j = fragLen p x) ∧
      (j < fragLen p x →
        Burst.Counts p.device (step p s i).deviceReq (fragLen p x) (j + 1)) ∧
      (j = fragLen p x → ∀ n, Burst.Counts p.device (step p s i).deviceReq n 0) := by
  have hreq : (step p s i).deviceReq =
      s.deviceReq.next p.device x.opcode.hasData (fragSize p x) := by
    simp [step, hd, hop, hsize]
  have hlast : deviceALast p s i = s.deviceReq.last p.device x.opcode.hasData (fragSize p x) := by
    simp [deviceALast, hd, hop, hsize]
  rw [hlast, hreq]
  refine ⟨hc.last_eq, fun hlt => hc.next_lt hlt, fun heq n => ?_⟩
  rw [heq] at hc
  exact hc.next_last n

/-- A fragment that is made without the host. -/
theorem requestStep_noData (hs : s.reqState = .noData) (h : RequestState p q s) :
    RequestStep p q s i := by
  have ho : hostATransfer p s i = none := by simp [hostATransfer, hostAReady, hs]
  cases hr : i.deviceAReady with
  | false =>
      exact requestStep_of_none h ho (by simp [deviceATransfer, hr]) (by simp [nextReq, hs, hr])
  | true =>
      have hstate := h
      simp only [RequestState, hs] at hstate
      obtain ⟨hq, hc, x, k, hx, hdata, hregs⟩ := hstate
      have hd : deviceATransfer p s i = some (laterFragment p x k) := by
        have hlater := hregs.laterFragment_eq 0
        rw [Nat.sub_zero, Nat.zero_mul, Nat.add_zero, Nat.add_zero] at hlater
        simp only [deviceATransfer, hr, if_true, deviceA, hs]
        rw [hlater]
      have hlen := (len_of_noData (p := p) hdata).2
      have hcx : Burst.Counts p.device s.deviceReq (fragLen p x) 0 := hc _
      obtain ⟨-, -, hlast⟩ := deviceReq_step (x := x) (j := 0) hd rfl rfl hcx
      have hcount := hlast hlen.symm
      have hnext : nextReq p s i = advance p s := by simp [nextReq, hs, hr]
      have hadv := hregs.advance hx
      have hlt := hregs.lt
      rw [← hnext] at hadv
      have hheld := hregs.held_eq hs
      split_ifs at hadv with hk
      · -- the last fragment
        have hst : (step p s i).reqState = .idle := hadv
        constructor
        · rw [ho]
          simp only [RequestState, hst]
          intro y _ _
          rw [show (posAfter p q none).done = 0 by rw [posAfter, hq]; rfl]
          exact ⟨Nat.zero_le _, hcount _⟩
        · rw [ho, hd, held_of_ne (s := step p s i) (by rw [hst]; decide), hheld,
            show numFrag p x - k = 1 by omega]
          simp
      · obtain ⟨hst, hregs'⟩ := hadv
        have hst' : (step p s i).reqState = .noData := hst.trans hs
        have hr' : Regs p (step p s i) x (k + 1) :=
          ⟨hregs'.opcode, hregs'.param, hregs'.source, hregs'.address, hregs'.len, hregs'.lt,
            hregs'.large⟩
        constructor
        · rw [ho]
          simp only [RequestState, hst']
          exact ⟨hq, hcount, x, k + 1, hx, hdata, hr'⟩
        · rw [ho, hd, hheld, hr'.held_eq hst',
            show numFrag p x - k = (numFrag p x - (k + 1)) + 1 by omega, List.range_succ_eq_map,
            List.map_cons, List.map_map]
          simp only [Option.toList_none, List.flatMap_nil, List.append_nil, Option.toList_some,
            List.singleton_append, Nat.add_zero]
          congr 1
          refine List.map_congr_left fun t _ => ?_
          rw [Function.comp_apply, Nat.succ_eq_add_one, show k + (t + 1) = k + 1 + t by omega]

theorem Regs.of_header {y : AMsg} (h : Regs p s x k) (hy : y.header = x.header) : Regs p s y k := by
  obtain ⟨hop, hparam, hsize, hsource, haddr⟩ := eq_of_header hy
  have hnum := numFrag_of_header (p := p) hy
  exact ⟨h.opcode.trans hop.symm, h.param.trans hparam.symm, h.source.trans hsource.symm,
    by rw [h.address, haddr], by rw [h.len, hnum], by rw [hnum]; exact h.lt,
    by rw [hsize]; exact h.large⟩

/-- The position after a beat that is not the last one of its message. -/
theorem posAfter_of_lt (hq : q.Accepts chanA x) (hlt : q.done < chanA.len p.host x) :
    (posAfter p q (some x)).done = q.done + 1 ∧
      ∀ y, (posAfter p q (some x)).Accepts chanA y → y.header = x.header := by
  obtain ⟨f, hnext, hf⟩ := Pos.next_of_ne_last (Nat.ne_of_lt hlt) hq
  change (q.next chanA p.host x).done = _ ∧ _
  rw [show posAfter p q (some x) = .busy f (q.done + 1) from hnext, hnext]
  exact ⟨rfl, fun y hy => Eq.trans hy hf.symm⟩

theorem posAfter_of_eq (heq : q.done = chanA.len p.host x) : posAfter p q (some x) = .idle :=
  Pos.next_of_last heq

/-- The registers are those of the fragment `k` when the requests to the device are. -/
theorem Regs.of_nextReq (h : Regs p (nextReq p s i) x k) : Regs p (step p s i) x k :=
  ⟨h.opcode, h.param, h.source, h.address, h.len, h.lt, h.large⟩

/-! ### The first fragment -/

variable (p) in
/-- A beat of the first fragment of `x` is passed through. -/
structure FirstBeat (q : Pos AMsg) (s : SizeDownsizer) (i : SizeDownsizerIn) (x : AMsg) :
    Prop where
  idle : s.reqState = .idle
  offer : i.hostA = some x
  host : hostATransfer p s i = some x
  device : deviceATransfer p s i = some (fragment p x 0)
  accepts : q.Accepts chanA x
  ok : OkA p x
  le : q.done ≤ fragLen p x
  counts : Burst.Counts p.device s.deviceReq (fragLen p x) q.done

/-- The message that the host offers is sent with the size of a fragment. -/
theorem deviceATransfer_idle (hs : s.reqState = .idle) (hx : i.hostA = some x)
    (hacc : accepts p s x = true) (hr : i.deviceAReady = true) (hok : OkA p x) :
    deviceATransfer p s i = some (fragment p x 0) := by
  simp only [deviceATransfer, hr, if_true, deviceA, hs, hx, Option.filter_some, hacc,
    Option.map_some, Option.some.injEq]
  unfold fragment
  rw [Nat.zero_mul, Nat.add_zero, Nat.sub_zero]
  rcases Nat.lt_or_ge p.deviceMaxSize x.size with hlt | hge
  · rw [if_pos hlt, if_pos hlt, fragSize_of_lt hlt, numFragment_eq hok.size hlt]
  · rw [if_neg (by omega), if_neg (by omega), numFrag_of_le hge, fragSize,
      Nat.min_eq_left hge]

namespace FirstBeat

theorem div_eq (h : FirstBeat p q s i x) : q.done / (fragLen p x + 1) = 0 :=
  Nat.div_eq_of_lt (Nat.lt_succ_of_le h.le)

theorem held_eq (h : FirstBeat p q s i x) : held p s = [] := held_of_ne (by rw [h.idle]; decide)

/-- The beats of a message with data go through. -/
theorem sends_eq (h : FirstBeat p q s i x) (hdata : x.opcode.hasData = true) :
    sends p x q.done = [fragment p x 0] := by
  simp [sends, hdata, h.div_eq]

/-- Inside the first fragment nothing is loaded. -/
theorem step_inside (h : FirstBeat p q s i x) (hlt : q.done < fragLen p x) :
    RequestStep p q s i := by
  obtain ⟨hlast, hmore, -⟩ := deviceReq_step (x := x) h.device rfl rfl h.counts
  have hdata : x.opcode.hasData = true := by
    cases hdata : x.opcode.hasData with
    | true => rfl
    | false => rw [(len_of_noData hdata).2] at hlt; omega
  have hlen := len_of_data h.ok.size hdata
  have hmul := Nat.mul_le_mul_right (fragLen p x + 1) (numFrag_pos (p := p) x)
  rw [Nat.succ_mul, Nat.zero_mul, Nat.zero_add] at hmul
  have hn : nextReq p s i = s := by
    simp [nextReq, h.idle, h.offer, hlast, show ¬q.done = fragLen p x by omega]
  have hst : (step p s i).reqState = .idle := by
    change (nextReq p s i).reqState = _
    rw [hn, h.idle]
  obtain ⟨hdone, hsame⟩ := posAfter_of_lt (p := p) h.accepts (by omega)
  constructor
  · rw [h.host]
    simp only [RequestState, hst]
    intro y hy _
    rw [hdone, fragLen_of_header (hsame y hy)]
    exact ⟨hlt, hmore hlt⟩
  · rw [h.host, h.device, h.held_eq, held_of_ne (s := step p s i) (by rw [hst]; decide)]
    simp [h.sends_eq hdata]

/-- The last beat of the first fragment loads the registers. -/
theorem nextReq_eq (h : FirstBeat p q s i x) (heq : q.done = fragLen p x) :
    nextReq p s i =
      { s with
        opcode := x.opcode
        param := x.param
        source := x.source
        address := (x.address + 2 ^ p.deviceMaxSize) % 2 ^ p.addrWidth
        len := (numFragment p x.size + (2 ^ p.fragmentWidth - 1)) % 2 ^ p.fragmentWidth
        reqState :=
          if p.deviceMaxSize < x.size then
            if x.opcode.hasData then .data else .noData
          else .idle } := by
  obtain ⟨hlast, -, -⟩ := deviceReq_step (x := x) h.device rfl rfl h.counts
  simp [nextReq, h.idle, h.offer, hlast, heq]

/-- The second fragment is the next one of a message that is too large for the device. -/
theorem regs (h : FirstBeat p q s i x) (heq : q.done = fragLen p x)
    (hlarge : p.deviceMaxSize < x.size) : Regs p (step p s i) x 1 := by
  have htwo := (numFrag_of_lt hlarge).2
  have haddr := address_next (k := 0) h.ok (by omega)
  have hnum := numFrag_le h.ok.size
  rw [Nat.zero_mul, Nat.add_zero] at haddr
  refine Regs.of_nextReq ?_
  rw [h.nextReq_eq heq]
  refine ⟨rfl, rfl, rfl, haddr, ?_, by omega, hlarge⟩
  change (_ + _) % _ = _
  rw [numFragment_eq h.ok.size hlarge, len_next (by omega) (by omega)]

/-- The other fragments come with the beats of the host. -/
theorem step_data (h : FirstBeat p q s i x) (heq : q.done = fragLen p x)
    (hlarge : p.deviceMaxSize < x.size) (hdata : x.opcode.hasData = true) :
    RequestStep p q s i := by
  obtain ⟨-, -, hend⟩ := deviceReq_step (x := x) h.device rfl rfl h.counts
  have hst : (step p s i).reqState = .data := by
    change (nextReq p s i).reqState = _
    rw [h.nextReq_eq heq]
    simp [hlarge, hdata]
  have hlen := len_of_data h.ok.size hdata
  have hmul := Nat.mul_le_mul_right (fragLen p x + 1) (numFrag_of_lt hlarge).2
  obtain ⟨hdone, hsame⟩ := posAfter_of_lt (p := p) h.accepts (by omega)
  have hone : (fragLen p x + 1) / (fragLen p x + 1) = 1 := Nat.div_self (Nat.succ_pos _)
  constructor
  · rw [h.host]
    simp only [RequestState, hst]
    intro y hy _
    rw [hdone, fragLen_of_header (hsame y hy), heq, hone, Nat.mod_self,
      (eq_of_header (hsame y hy)).1]
    exact ⟨hdata, Nat.le_refl _, (h.regs heq hlarge).of_header (hsame y hy), hend heq _⟩
  · rw [h.host, h.device, h.held_eq, held_of_ne (s := step p s i) (by rw [hst]; decide)]
    simp [h.sends_eq hdata]

/-- The other fragments are made without the host. -/
theorem step_noData (h : FirstBeat p q s i x) (heq : q.done = fragLen p x)
    (hlarge : p.deviceMaxSize < x.size) (hdata : x.opcode.hasData = false) :
    RequestStep p q s i := by
  obtain ⟨-, -, hend⟩ := deviceReq_step (x := x) h.device rfl rfl h.counts
  have hst : (step p s i).reqState = .noData := by
    change (nextReq p s i).reqState = _
    rw [h.nextReq_eq heq]
    simp [hlarge, hdata]
  obtain ⟨hlen, hfrag⟩ := len_of_noData (p := p) hdata
  have hregs := h.regs heq hlarge
  constructor
  · rw [h.host, posAfter_of_eq (by omega)]
    simp only [RequestState, hst]
    exact ⟨trivial, hend heq, x, 1, h.ok, hdata, hregs⟩
  · rw [h.host, h.device, h.held_eq, hregs.held_eq hst]
    simp [sends, hdata, Nat.add_comm 1]

/-- A message that the device takes as it is ends with its first fragment. -/
theorem step_small (h : FirstBeat p q s i x) (heq : q.done = fragLen p x)
    (hsmall : x.size ≤ p.deviceMaxSize) : RequestStep p q s i := by
  obtain ⟨-, -, hend⟩ := deviceReq_step (x := x) h.device rfl rfl h.counts
  have hone := numFrag_of_le (p := p) hsmall
  have hst : (step p s i).reqState = .idle := by
    change (nextReq p s i).reqState = _
    rw [h.nextReq_eq heq]
    simp [show ¬p.deviceMaxSize < x.size by omega]
  have hlen : q.done = chanA.len p.host x := by
    cases hdata : x.opcode.hasData with
    | true =>
        have hlen := len_of_data h.ok.size hdata
        rw [hone, Nat.one_mul] at hlen
        omega
    | false =>
        obtain ⟨hlen, hfrag⟩ := len_of_noData (p := p) hdata
        omega
  constructor
  · rw [h.host, posAfter_of_eq hlen]
    simp only [RequestState, hst]
    intro y _ _
    exact ⟨Nat.zero_le _, hend heq _⟩
  · rw [h.host, h.device, h.held_eq, held_of_ne (s := step p s i) (by rw [hst]; decide)]
    cases hdata : x.opcode.hasData with
    | true => simp [h.sends_eq hdata]
    | false => simp [sends, hdata, hone]

theorem requestStep (h : FirstBeat p q s i x) : RequestStep p q s i := by
  rcases Nat.lt_or_ge q.done (fragLen p x) with hlt | hge
  · exact h.step_inside hlt
  · have heq : q.done = fragLen p x := Nat.le_antisymm h.le hge
    rcases Nat.lt_or_ge p.deviceMaxSize x.size with hlarge | hsmall
    · cases hdata : x.opcode.hasData with
      | true => exact h.step_data heq hlarge hdata
      | false => exact h.step_noData heq hlarge hdata
    · exact h.step_small heq hsmall

end FirstBeat

/-- A beat of the host that is not passed through. -/
theorem requestStep_idle_of_refused (hs : s.reqState = .idle) (h : RequestState p q s)
    (hx : i.hostA = some x) (hno : ¬(accepts p s x = true ∧ i.deviceAReady = true)) :
    RequestStep p q s i := by
  have ho : hostATransfer p s i = none := by
    have hready : hostAReady p s i = false := by
      simp only [hostAReady, hs, hx, Option.all_some]
      simpa using hno
    simp [hostATransfer, hready]
  have hd : deviceATransfer p s i = none := by
    cases hr : i.deviceAReady with
    | false => simp [deviceATransfer, hr]
    | true =>
        have hacc : accepts p s x = false := by simpa [hr] using hno
        simp [deviceATransfer, deviceA, hs, hx, hacc]
  exact requestStep_of_none h ho hd (by simp [nextReq, hs, hx, deviceALast, hd])

/-- The first fragment is passed through. -/
theorem requestStep_idle (hs : s.reqState = .idle) (h : RequestState p q s)
    (hin : ∀ x, hostATransfer p s i = some x → q.Accepts chanA x ∧ OkA p x) :
    RequestStep p q s i := by
  cases hx : i.hostA with
  | none =>
      exact requestStep_of_none h (by simp [hostATransfer, hx])
        (by simp [deviceATransfer, deviceA, hs, hx]) (by simp [nextReq, hs, hx])
  | some x =>
      by_cases hgo : accepts p s x = true ∧ i.deviceAReady = true
      · obtain ⟨hacc, hr⟩ := hgo
        have ho : hostATransfer p s i = some x := by
          simp [hostATransfer, hostAReady, hs, hx, hacc, hr]
        obtain ⟨hq, hok⟩ := hin x ho
        have hstate := h
        simp only [RequestState, hs] at hstate
        obtain ⟨hle, hc⟩ := hstate x hq hok
        have hfirst : FirstBeat p q s i x :=
          ⟨hs, hx, ho, deviceATransfer_idle hs hx hacc hr hok, hq, hok, hle, hc⟩
        exact hfirst.requestStep
      · exact requestStep_idle_of_refused hs h hx hgo

/-! ### The other fragments of a request with data -/

variable (p) in
/-- A beat of a later fragment of `x` is sent from the registers. -/
structure LaterBeat (q : Pos AMsg) (s : SizeDownsizer) (i : SizeDownsizerIn) (x : AMsg) :
    Prop where
  state : s.reqState = .data
  host : hostATransfer p s i = some x
  device : deviceATransfer p s i = some (fragment p x (q.done / (fragLen p x + 1)))
  accepts : q.Accepts chanA x
  ok : OkA p x
  hasData : x.opcode.hasData = true
  le : fragLen p x + 1 ≤ q.done
  regs : Regs p s x (q.done / (fragLen p x + 1))
  counts : Burst.Counts p.device s.deviceReq (fragLen p x) (q.done % (fragLen p x + 1))

/-- The next beat is the next one of its fragment. -/
theorem succ_div_mod {n d : ℕ} (h : n % (d + 1) < d) :
    (n + 1) / (d + 1) = n / (d + 1) ∧ (n + 1) % (d + 1) = n % (d + 1) + 1 := by
  have hdm := Nat.div_add_mod' n (d + 1)
  have hsplit : n + 1 = (d + 1) * (n / (d + 1)) + (n % (d + 1) + 1) := by
    rw [Nat.mul_comm]
    omega
  have hlt : n % (d + 1) + 1 < d + 1 := by omega
  constructor
  · conv_lhs => rw [hsplit]
    rw [Nat.mul_add_div (Nat.succ_pos _), Nat.div_eq_of_lt hlt, Nat.add_zero]
  · conv_lhs => rw [hsplit]
    rw [Nat.mul_add_mod, Nat.mod_eq_of_lt hlt]

namespace LaterBeat

theorem held_eq (h : LaterBeat p q s i x) : held p s = [] :=
  held_of_ne (by rw [h.state]; decide)

theorem sends_eq (h : LaterBeat p q s i x) :
    sends p x q.done = [fragment p x (q.done / (fragLen p x + 1))] := by
  simp [sends, h.hasData]

/-- Fragment `k` ends within the message. -/
theorem mul_le (h : LaterBeat p q s i x) {k : ℕ} (hk : k < numFrag p x) :
    (k + 1) * (fragLen p x + 1) ≤ chanA.len p.host x + 1 := by
  rw [len_of_data h.ok.size h.hasData]
  exact Nat.mul_le_mul_right _ hk

/-- Inside a fragment. -/
theorem step_inside (h : LaterBeat p q s i x)
    (hlt : q.done % (fragLen p x + 1) < fragLen p x) : RequestStep p q s i := by
  obtain ⟨hlast, hmore, -⟩ := deviceReq_step (x := x) h.device rfl rfl h.counts
  have hdm := Nat.div_add_mod' q.done (fragLen p x + 1)
  have hmul := h.mul_le h.regs.lt
  rw [Nat.succ_mul] at hmul
  have hn : nextReq p s i = s := by
    simp [nextReq, h.state, hlast, show ¬q.done % (fragLen p x + 1) = fragLen p x by omega]
  have hst : (step p s i).reqState = .data := by
    change (nextReq p s i).reqState = _
    rw [hn, h.state]
  have hregs : Regs p (step p s i) x (q.done / (fragLen p x + 1)) := by
    refine Regs.of_nextReq ?_
    rw [hn]
    exact h.regs
  obtain ⟨hdone, hsame⟩ := posAfter_of_lt (p := p) h.accepts (by omega)
  obtain ⟨hdiv, hmod⟩ := succ_div_mod hlt
  have hle := h.le
  constructor
  · rw [h.host]
    simp only [RequestState, hst]
    intro y hy _
    rw [hdone, fragLen_of_header (hsame y hy), (eq_of_header (hsame y hy)).1, hdiv, hmod]
    exact ⟨h.hasData, by omega, hregs.of_header (hsame y hy), hmore hlt⟩
  · rw [h.host, h.device, h.held_eq, held_of_ne (s := step p s i) (by rw [hst]; decide)]
    simp [h.sends_eq]

/-- The last beat of a fragment goes on to the next fragment or ends the message. -/
theorem step_end (h : LaterBeat p q s i x) (heq : q.done % (fragLen p x + 1) = fragLen p x) :
    RequestStep p q s i := by
  obtain ⟨hlast, -, hend⟩ := deviceReq_step (x := x) h.device rfl rfl h.counts
  have hdm := Nat.div_add_mod' q.done (fragLen p x + 1)
  have hcount := hend heq
  have hn : nextReq p s i = advance p s := by simp [nextReq, h.state, hlast, heq]
  have hadv := h.regs.advance h.ok
  have hidx : q.done + 1 = (q.done / (fragLen p x + 1) + 1) * (fragLen p x + 1) := by
    rw [Nat.succ_mul]
    omega
  have hlen := len_of_data h.ok.size h.hasData
  have hlt := h.regs.lt
  rw [← hn] at hadv
  split_ifs at hadv with hk
  · -- the end of the message
    have hst : (step p s i).reqState = .idle := hadv
    have hend' : q.done = chanA.len p.host x := by
      rw [hk] at hidx
      omega
    constructor
    · rw [h.host, posAfter_of_eq hend']
      simp only [RequestState, hst]
      intro y _ _
      exact ⟨Nat.zero_le _, hcount _⟩
    · rw [h.host, h.device, h.held_eq, held_of_ne (s := step p s i) (by rw [hst]; decide)]
      simp [h.sends_eq]
  · obtain ⟨hst, hregs⟩ := hadv
    have hst' : (step p s i).reqState = .data := hst.trans h.state
    have hmul := h.mul_le (k := q.done / (fragLen p x + 1) + 1) (by omega)
    rw [Nat.succ_mul, ← hidx] at hmul
    obtain ⟨hdone, hsame⟩ := posAfter_of_lt (p := p) h.accepts (by omega)
    have hle := h.le
    constructor
    · rw [h.host]
      simp only [RequestState, hst']
      intro y hy _
      rw [hdone, fragLen_of_header (hsame y hy), (eq_of_header (hsame y hy)).1, hidx,
        Nat.mul_div_cancel _ (Nat.succ_pos _), Nat.mul_mod_left, ← hidx]
      exact ⟨h.hasData, by omega, hregs.of_nextReq.of_header (hsame y hy), hcount _⟩
    · rw [h.host, h.device, h.held_eq, held_of_ne (s := step p s i) (by rw [hst']; decide)]
      simp [h.sends_eq]

theorem requestStep (h : LaterBeat p q s i x) : RequestStep p q s i := by
  have hmod : q.done % (fragLen p x + 1) < fragLen p x + 1 := Nat.mod_lt _ (Nat.succ_pos _)
  rcases Nat.lt_or_ge (q.done % (fragLen p x + 1)) (fragLen p x) with hlt | hge
  · exact h.step_inside hlt
  · exact h.step_end (by omega)

end LaterBeat

/-- The other fragments of a request with data. -/
theorem requestStep_data (hs : s.reqState = .data) (h : RequestState p q s)
    (hin : ∀ x, hostATransfer p s i = some x → q.Accepts chanA x ∧ OkA p x) :
    RequestStep p q s i := by
  cases hx : i.hostA with
  | none =>
      have hd : deviceATransfer p s i = none := by simp [deviceATransfer, deviceA, hs, hx]
      exact requestStep_of_none h (by simp [hostATransfer, hx]) hd
        (by simp [nextReq, hs, deviceALast, hd])
  | some x =>
      cases hr : i.deviceAReady with
      | false =>
          have hd : deviceATransfer p s i = none := by simp [deviceATransfer, hr]
          exact requestStep_of_none h (by simp [hostATransfer, hostAReady, hs, hr]) hd
            (by simp [nextReq, hs, deviceALast, hd])
      | true =>
          have ho : hostATransfer p s i = some x := by simp [hostATransfer, hostAReady, hs, hr, hx]
          obtain ⟨hq, hok⟩ := hin x ho
          have hstate := h
          simp only [RequestState, hs] at hstate
          obtain ⟨hdata, hge, hregs, hc⟩ := hstate x hq hok
          have hd : deviceATransfer p s i =
              some (fragment p x (q.done / (fragLen p x + 1))) := by
            rw [← hregs.fragment_eq]
            simp [deviceATransfer, deviceA, hr, hs, hx]
          have hlater : LaterBeat p q s i x := ⟨hs, ho, hd, hq, hok, hdata, hge, hregs, hc⟩
          exact hlater.requestStep

/-- One cycle of the request path. -/
theorem requestStep (h : RequestState p q s)
    (hin : ∀ x, hostATransfer p s i = some x → q.Accepts chanA x ∧ OkA p x) :
    RequestStep p q s i := by
  cases hs : s.reqState with
  | idle => exact requestStep_idle hs h hin
  | noData => exact requestStep_noData hs h
  | data => exact requestStep_data hs h hin

variable {l d : List AMsg}

/-- The invariant of the request path. -/
theorem RequestInv.step (h : RequestInv p l d s)
    (hl : Legal chanA p.host (OkA p) (l ++ (hostATransfer p s i).toList)) :
    RequestInv p (l ++ (hostATransfer p s i).toList) (d ++ (deviceATransfer p s i).toList)
      (step p s i) := by
  have hin : ∀ x, hostATransfer p s i = some x →
      (posOf chanA p.host l).Accepts chanA x ∧ OkA p x := by
    intro x hx
    rw [hx] at hl
    exact hl.of_concat.2
  have hpos : posOf chanA p.host (l ++ (hostATransfer p s i).toList) =
      posAfter p (posOf chanA p.host l) (hostATransfer p s i) := by
    cases hostATransfer p s i with
    | none => simp [posAfter]
    | some x => exact posOf_concat _ _ l x
  have hsent : sent p (l ++ (hostATransfer p s i).toList) = sent p l ++
      (hostATransfer p s i).toList.flatMap fun x => sends p x (posOf chanA p.host l).done := by
    cases hostATransfer p s i with
    | none => simp
    | some x =>
        rw [Option.toList_some, List.flatMap_singleton]
        exact perBeat_concat l x
  obtain ⟨hstate, hconserve⟩ := requestStep (i := i) h.state hin
  refine ⟨hl, ?_, ?_, ?_⟩
  · have htracks := h.tracks.step hl
    have hreq : (SizeDownsizer.step p s i).hostReq = (hostATransfer p s i).elim s.hostReq
        fun x => s.hostReq.next p.host (chanA.hasData x) (chanA.size x) := by
      cases ho : hostATransfer p s i <;> simp [SizeDownsizer.step, ho, chanA]
    rw [hreq]
    exact htracks
  · rw [hpos]
    exact hstate
  · rw [hsent, ← h.given, List.append_assoc, List.append_assoc, hconserve]

end Muntjac.Tl.SizeDownsizer

import Muntjac.Sync.Chunks
import Muntjac.Tl.SizeDownsizer

/-!
# The fragments of a request

What the device has to see for a request: the same number of bytes in aligned fragments, in
ascending order.  A request with data sends one beat for each beat of the host; a request without
data, which is a single beat, sends all of its fragments.

## Main definitions

* `fragment` — the header of a fragment.
* `sends` — the beats that are sent for a beat of the host.

## Main results

* `fragmented` — the fragments of a message.
* `begun_sent_prefix` — the requests that the device sees, in terms of those of the host.
-/

namespace Muntjac.Tl.SizeDownsizer

open Sync

variable (p : SizeParams)

/-- The number of fragments. -/
def numFrag (x : AMsg) : ℕ := if p.deviceMaxSize < x.size then 2 ^ (x.size - p.deviceMaxSize) else 1

/-- The size of a fragment. -/
def fragSize (x : AMsg) : ℕ := min x.size p.deviceMaxSize

/-- The beats of a fragment after the first one. -/
def fragLen (x : AMsg) : ℕ := Burst.len p.device x.opcode.hasData (fragSize p x)

/-- A beat of fragment `k`, with the payload of `x`. -/
def fragment (x : AMsg) (k : ℕ) : AMsg :=
  { x with
    size := fragSize p x
    source := deviceSource p x.source (numFrag p x - 1 - k)
    address := x.address + k * 2 ^ p.deviceMaxSize }

/-- The beat of a fragment without data that is not the first one. -/
def laterFragment (x : AMsg) (k : ℕ) : AMsg :=
  { fragment p x k with mask := 2 ^ 2 ^ p.nonBurst - 1, corrupt := false, data := 0 }

/-- What is sent for beat `i` of a message. -/
def sends (x : AMsg) (i : ℕ) : List AMsg :=
  if x.opcode.hasData then [fragment p x (i / (fragLen p x + 1))]
  else fragment p x 0 ::
    (List.range (numFrag p x - 1)).map fun t => laterFragment p x (t + 1)

/-- The headers of the fragments of a request. -/
def fragHeaders (x : AMsg) : List AMsg :=
  (List.range (numFrag p x)).map fun k => (fragment p x k).header

variable {p} {x y : AMsg}

/-! ## Arithmetic of the sizes -/

theorem numFrag_pos (x : AMsg) : 0 < numFrag p x := by
  unfold numFrag
  split_ifs
  · exact Nat.two_pow_pos _
  · exact Nat.one_pos

theorem numFrag_of_lt (h : p.deviceMaxSize < x.size) :
    numFrag p x = 2 ^ (x.size - p.deviceMaxSize) ∧ 2 ≤ numFrag p x := by
  rw [numFrag, if_pos h]
  refine ⟨rfl, ?_⟩
  have hpow := Nat.pow_le_pow_right (n := 2) (by omega) (show 1 ≤ x.size - p.deviceMaxSize by omega)
  omega

theorem numFrag_of_le (h : x.size ≤ p.deviceMaxSize) : numFrag p x = 1 := by
  rw [numFrag, if_neg (by omega)]

/-- The fragments cover the message. -/
theorem numFrag_mul (x : AMsg) : numFrag p x * 2 ^ fragSize p x = 2 ^ x.size := by
  unfold fragSize
  rcases Nat.lt_or_ge p.deviceMaxSize x.size with h | h
  · rw [(numFrag_of_lt h).1, Nat.min_eq_right (by omega), ← Nat.pow_add]
    congr 1
    omega
  · rw [numFrag_of_le h, Nat.min_eq_left h, Nat.one_mul]

theorem numFrag_le (h : x.size ≤ p.hostMaxSize) : numFrag p x ≤ 2 ^ p.fragmentWidth := by
  unfold numFrag SizeParams.fragmentWidth
  split_ifs
  · exact Nat.pow_le_pow_right (by omega) (by omega)
  · exact Nat.one_le_two_pow

theorem numFragment_eq (h : x.size ≤ p.hostMaxSize) (hlt : p.deviceMaxSize < x.size) :
    numFragment p x.size = numFrag p x - 1 := by
  have hle := numFrag_le h
  have hpos := numFrag_pos (p := p) x
  rw [(numFrag_of_lt hlt).1] at hle hpos ⊢
  exact Nat.mod_eq_of_lt (by omega)

theorem fragSize_le (x : AMsg) : fragSize p x ≤ p.device.maxSize := Nat.min_le_right _ _

/-- The beats of a message, fragment by fragment; `d` tells whether it has data. -/
theorem len_mul (d : Bool) (h : x.size ≤ p.hostMaxSize) (hd : d = true ∨ numFrag p x = 1) :
    Burst.len p.host d x.size + 1 =
      numFrag p x * (Burst.len p.device d (fragSize p x) + 1) := by
  have hnb := p.nonBurst_le
  rw [Burst.len_eq (p := p.host) d h, Burst.len_eq (p := p.device) d (fragSize_le x)]
  unfold SizeParams.host SizeParams.device
  cases d with
  | false => rcases hd with hd | hd <;> simp_all
  | true =>
      simp only [if_true]
      have h1 := Nat.two_pow_pos (x.size - p.nonBurst)
      have h2 := Nat.two_pow_pos (fragSize p x - p.nonBurst)
      rw [Nat.sub_add_cancel h1, Nat.sub_add_cancel h2]
      unfold fragSize
      rcases Nat.lt_or_ge p.deviceMaxSize x.size with hlt | hge
      · rw [(numFrag_of_lt hlt).1, Nat.min_eq_right (by omega), ← Nat.pow_add]
        congr 1
        omega
      · rw [numFrag_of_le hge, Nat.min_eq_left hge, Nat.one_mul]

/-- A message with data. -/
theorem len_of_data (h : x.size ≤ p.hostMaxSize) (hd : x.opcode.hasData = true) :
    chanA.len p.host x + 1 = numFrag p x * (fragLen p x + 1) := by
  rw [Chan.len, fragLen]
  exact len_mul _ h (.inl hd)

/-- A message without data is one beat. -/
theorem len_of_noData (hd : x.opcode.hasData = false) :
    chanA.len p.host x = 0 ∧ fragLen p x = 0 := by
  rw [Chan.len, fragLen, show chanA.hasData x = false from hd, hd]
  exact ⟨rfl, rfl⟩

/-- No fragment is beyond the end of the message. -/
theorem address_add_le {k : ℕ} (hk : k < numFrag p x) :
    x.address + k * 2 ^ p.deviceMaxSize + 2 ^ fragSize p x ≤ x.address + 2 ^ x.size := by
  have hmul := numFrag_mul (p := p) x
  rcases Nat.lt_or_ge p.deviceMaxSize x.size with h | h
  · have hsize : fragSize p x = p.deviceMaxSize := Nat.min_eq_right (by omega)
    rw [hsize] at hmul ⊢
    have hle := Nat.mul_le_mul_right (2 ^ p.deviceMaxSize) (Nat.succ_le_of_lt hk)
    rw [Nat.succ_mul, hmul] at hle
    omega
  · rw [numFrag_of_le h] at hk
    rw [numFrag_of_le h, Nat.one_mul] at hmul
    rw [show k = 0 by omega, hmul]
    omega

/-! ## Fragments depend on the header -/

theorem eq_of_header (h : x.header = y.header) :
    x.opcode = y.opcode ∧ x.param = y.param ∧ x.size = y.size ∧ x.source = y.source ∧
      x.address = y.address := by
  simp only [AMsg.header, AMsg.mk.injEq] at h
  exact ⟨h.1, h.2.1, h.2.2.1, h.2.2.2.1, h.2.2.2.2.1⟩

theorem numFrag_of_header (h : x.header = y.header) : numFrag p x = numFrag p y := by
  rw [numFrag, numFrag, (eq_of_header h).2.2.1]

theorem fragLen_of_header (h : x.header = y.header) : fragLen p x = fragLen p y := by
  obtain ⟨hop, -, hsize, -, -⟩ := eq_of_header h
  rw [fragLen, fragLen, fragSize, fragSize, hop, hsize]

theorem header_fragment (h : x.header = y.header) (k : ℕ) :
    (fragment p x k).header = (fragment p y k).header := by
  obtain ⟨hop, hparam, hsize, hsource, haddr⟩ := eq_of_header h
  unfold fragment fragSize AMsg.header
  simp only [hop, hparam, hsize, hsource, haddr, numFrag_of_header h]

theorem len_fragment (x : AMsg) (k : ℕ) : chanA.len p.device (fragment p x k) = fragLen p x := rfl

/-! ## The beats of one message -/

variable (p) in
/-- What is sent for a stream of beats of the host. -/
def sent (l : List AMsg) : List AMsg := perBeat chanA p.host (sends p) l

/-- Beats of the same message as `x`. -/
structure OfMessage (p : SizeParams) (x : AMsg) (g : List AMsg) : Prop where
  mem : x ∈ g
  header : ∀ y ∈ g, y.header = x.header
  length : g.length ≤ chanA.len p.host x + 1
  size : x.size ≤ p.hostMaxSize

namespace OfMessage
variable {g : List AMsg}

theorem sent_eq (h : OfMessage p x g) : sent p g = g.zipIdx.flatMap fun a => sends p a.1 a.2 := by
  refine perBeat_of_header (fun y hy z hz => ?_) fun y hy => ?_
  · exact (h.header y hy).trans (h.header z hz).symm
  · rw [chanA.len_of_header _ (show chanA.header y = chanA.header x from h.header y hy)]
    exact h.length

/-- With data: beat by beat. -/
theorem sent_of_data (h : OfMessage p x g) (hd : x.opcode.hasData = true) :
    sent p g = g.zipIdx.map fun a => fragment p a.1 (a.2 / (fragLen p x + 1)) := by
  rw [h.sent_eq, List.map_eq_flatMap, List.flatMap_def, List.flatMap_def]
  congr 1
  refine List.map_congr_left fun a ha => ?_
  have hheader := h.header a.1 (List.fst_mem_of_mem_zipIdx ha)
  rw [sends, (eq_of_header hheader).1, if_pos hd, fragLen_of_header hheader]

/-- Without data: all fragments for the only beat. -/
theorem sent_of_noData (h : OfMessage p x g) (hd : x.opcode.hasData = false) :
    g = [x] ∧ sent p g = fragment p x 0 ::
      (List.range (numFrag p x - 1)).map fun t => laterFragment p x (t + 1) := by
  have hlen := h.length
  rw [(len_of_noData hd).1] at hlen
  have hg : g = [x] := by
    have hmem := h.mem
    cases g with
    | nil => simp at hmem
    | cons y g =>
        rw [List.length_cons] at hlen
        rw [List.eq_nil_of_length_eq_zero (show g.length = 0 by omega)] at hmem ⊢
        rw [List.mem_singleton.mp hmem]
  refine ⟨hg, ?_⟩
  rw [h.sent_eq, hg]
  simp [sends, hd]

/-- The number of beats that are sent. -/
theorem length_sent (h : OfMessage p x g) :
    (sent p g).length ≤ numFrag p x * (fragLen p x + 1) ∧
      (g.length = chanA.len p.host x + 1 →
        (sent p g).length = numFrag p x * (fragLen p x + 1)) := by
  have hlen := h.length
  cases hd : x.opcode.hasData with
  | true =>
      rw [h.sent_of_data hd, List.length_map, List.length_zipIdx, ← len_of_data h.size hd]
      exact ⟨hlen, id⟩
  | false =>
      have hpos := numFrag_pos (p := p) x
      rw [(h.sent_of_noData hd).2, (len_of_noData hd).2, List.length_cons, List.length_map,
        List.length_range]
      omega

/-- The beats that are sent are grouped into fragments. -/
theorem grouped (h : OfMessage p x g) :
    Grouped chanA p.device (fragLen p x + 1) (fun k => (fragment p x k).header) (sent p g) := by
  have hheader : ∀ (i : ℕ) y, (sent p g)[i]? = some y →
      y.header = (fragment p x (i / (fragLen p x + 1))).header := by
    intro i y hy
    cases hd : x.opcode.hasData with
    | true =>
        rw [h.sent_of_data hd, List.getElem?_map, List.getElem?_zipIdx, Option.map_map,
          Option.map_eq_some_iff] at hy
        obtain ⟨z, hz, rfl⟩ := hy
        simp only [Function.comp_apply, Nat.zero_add]
        exact header_fragment (h.header z (List.mem_of_getElem? hz)) _
    | false =>
        rw [(h.sent_of_noData hd).2] at hy
        rw [(len_of_noData hd).2, Nat.zero_add, Nat.div_one]
        cases i with
        | zero =>
            rw [List.getElem?_cons_zero, Option.some.injEq] at hy
            rw [← hy]
        | succ i =>
            rw [List.getElem?_cons_succ, List.getElem?_map, Option.map_eq_some_iff] at hy
            obtain ⟨t, ht, rfl⟩ := hy
            obtain ⟨hlt, hti⟩ := List.getElem?_eq_some_iff.mp ht
            rw [List.getElem_range] at hti
            rw [hti]
            rfl
  refine ⟨hheader, fun i y hy => ?_, Nat.succ_pos _⟩
  rw [chanA.len_of_header _ (show chanA.header y = chanA.header (fragment p x _) from
    hheader i y hy), len_fragment]

theorem begun_prefix (h : OfMessage p x g) :
    (begun chanA p.device (sent p g)).map AMsg.header <+: fragHeaders p x :=
  h.grouped.begun_prefix h.length_sent.1

end OfMessage

/-- The beats of a complete message. -/
theorem ofMessage_of_isMessage {g : List AMsg} (hm : chanA.IsMessage p.host g)
    (hok : ∀ x ∈ g, OkA p x) (hx : x ∈ g) : OfMessage p x g where
  mem := hx
  header y hy := hm.header y hy x hx
  length := (hm.length x hx).le
  size := (hok x hx).size

variable (p) in
/-- A request on both sides: aligned fragments that cover its bytes in ascending order, with its
opcode and its parameter; the beats of a request with data keep their lanes. -/
structure Fragmented (hs ds : List AMsg) : Prop where
  length : ∀ x ∈ hs, ds.length = numFrag p x * (fragLen p x + 1)
  cover : ∀ x ∈ hs, numFrag p x * 2 ^ fragSize p x = 2 ^ x.size ∧ fragSize p x ≤ p.deviceMaxSize
  message : ∀ x ∈ hs, ∀ k < numFrag p x,
    chanA.IsMessage p.device ((ds.drop (k * (fragLen p x + 1))).take (fragLen p x + 1))
  header : ∀ x ∈ hs, ∀ k < numFrag p x,
    ∀ y ∈ (ds.drop (k * (fragLen p x + 1))).take (fragLen p x + 1),
      y.opcode = x.opcode ∧ y.param = x.param ∧ y.size = fragSize p x ∧
        y.address = x.address + k * 2 ^ fragSize p x ∧ y.address % 2 ^ y.size = 0
  data : ∀ x ∈ hs, x.opcode.hasData = true →
    ds.map (fun y => (y.data, y.mask, y.corrupt)) = hs.map fun y => (y.data, y.mask, y.corrupt)
  mask : ∀ x ∈ hs, x.opcode.hasData = false → ∀ y ∈ ds, y.mask = x.mask

/-- The address of a fragment, for any number of fragments. -/
theorem address_fragment {k : ℕ} (hk : k < numFrag p x) :
    (fragment p x k).address = x.address + k * 2 ^ fragSize p x := by
  change x.address + k * 2 ^ p.deviceMaxSize = _
  rcases Nat.lt_or_ge p.deviceMaxSize x.size with h | h
  · rw [fragSize, Nat.min_eq_right (by omega)]
  · rw [numFrag_of_le h] at hk
    rw [show k = 0 by omega, Nat.zero_mul, Nat.zero_mul]

/-- What is sent for a message are its fragments. -/
theorem fragmented {hs : List AMsg} (hm : chanA.IsMessage p.host hs) (hok : ∀ x ∈ hs, OkA p x) :
    Fragmented p hs (sent p hs) := by
  have hof : ∀ x ∈ hs, OfMessage p x hs := fun x hx => ofMessage_of_isMessage hm hok hx
  have hlen : ∀ x ∈ hs, (sent p hs).length = numFrag p x * (fragLen p x + 1) :=
    fun x hx => (hof x hx).length_sent.2 (hm.length x hx)
  have hdiv : ∀ x ∈ hs, (sent p hs).length / (fragLen p x + 1) = numFrag p x := by
    intro x hx
    rw [hlen x hx, Nat.mul_div_cancel _ (Nat.succ_pos _)]
  refine ⟨hlen, fun x _ => ⟨numFrag_mul x, fragSize_le x⟩, fun x hx k hk => ?_,
    fun x hx k hk y hy => ?_, fun x hx hd => ?_, fun x hx hd y hy => ?_⟩
  · exact (hof x hx).grouped.isMessage (by rw [hdiv x hx]; exact hk)
  · obtain ⟨j, hj⟩ := List.getElem?_of_mem hy
    obtain ⟨hop, hparam, hsize, -, haddr⟩ := eq_of_header ((hof x hx).grouped.getElem?_chunk hj).1
    have hfrag : y.address = x.address + k * 2 ^ fragSize p x := haddr.trans (address_fragment hk)
    refine ⟨hop, hparam, hsize, hfrag, ?_⟩
    have hdvd : 2 ^ fragSize p x ∣ x.address :=
      (Nat.pow_dvd_pow 2 (Nat.min_le_left _ _)).trans (Nat.dvd_of_mod_eq_zero (hok x hx).aligned)
    rw [hfrag, show y.size = fragSize p x from hsize]
    exact Nat.mod_eq_zero_of_dvd (Nat.dvd_add hdvd (Nat.dvd_mul_left _ _))
  · rw [(hof x hx).sent_of_data hd, List.map_map]
    conv_rhs => rw [← List.zipIdx_map_fst 0 hs, List.map_map]
    rfl
  · obtain ⟨hone, hsent⟩ := (hof x hx).sent_of_noData hd
    rw [hsent] at hy
    rcases List.mem_cons.mp hy with rfl | hy
    · rfl
    · obtain ⟨t, ht, rfl⟩ := List.mem_map.mp hy
      have hlt : p.deviceMaxSize < x.size := by
        by_contra hle
        rw [numFrag_of_le (by omega)] at ht
        simp at ht
      have hnb := p.nonBurst_le
      exact ((hok x hx).mask hd (by omega)).symm

/-! ## The beats of a stream -/

end Muntjac.Tl.SizeDownsizer

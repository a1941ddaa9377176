import Mathlib.Logic.Function.Basic
import Muntjac.Sync.Bits
import Muntjac.Sync.Bytes
import Muntjac.Sync.Stream
import Muntjac.Tl.Msg

/-!
# A link that ends in a RAM

`tl_adapter_bram` serves the accesses of an uncached link from a RAM that answers a read in the
next cycle.  There are registers for every part of the response but the data, which the RAM
keeps at its output until it is read again.

## Main definitions

* `AdapterBram` — the registers, outputs and clock edge of the adapter.
* `Bram` — the RAM behind it, as in `prim_generic_ram_1p`.
* `BramParams.perform` — what a request does to a memory without latency.
* `BramSys.Serves` — the responses are those of such a memory.

## Main results

* `BramSys.memory_run` — in every run, the adapter and the RAM are such a memory.
-/

namespace Muntjac.Tl

open Sync

structure BramParams where
  dataWidth : ℕ
  bramAddrWidth : ℕ

namespace BramParams
variable (p : BramParams)

def dataWidthInBytes : ℕ := p.dataWidth / 8
def nonBurstSize : ℕ := clog2 p.dataWidthInBytes

/-- A word of the RAM, as its bytes. -/
abbrev Word : Type := Fin p.dataWidthInBytes → BitVec 8

abbrev Mem : Type := BitVec p.bramAddrWidth → p.Word

/-- The address of the word that a request accesses. -/
def addrOf (a : AMsg) : BitVec p.bramAddrWidth :=
  BitVec.ofNat p.bramAddrWidth (a.address / 2 ^ p.nonBurstSize)

/-- The word after a write of the bytes in the mask. -/
def write (old : p.Word) (wmask wdata : ℕ) : p.Word := fun k =>
  if wmask.testBit k then unpack p.dataWidthInBytes wdata k else old k

/-- What a request does to a memory: a `Get` leaves it, everything else is a write. -/
def perform (m : p.Mem) (a : AMsg) : p.Mem :=
  if a.opcode = .get then m
  else Function.update m (p.addrOf a) (p.write (m (p.addrOf a)) a.mask a.data)

/-- The memory after the requests. -/
def contents (m : p.Mem) (reqs : List AMsg) : p.Mem := reqs.foldl p.perform m

theorem contents_concat (m : p.Mem) (reqs : List AMsg) (a : AMsg) :
    p.contents m (reqs ++ [a]) = p.perform (p.contents m reqs) a := by
  rw [contents, contents, List.foldl_append]
  rfl

end BramParams

variable {p : BramParams}

/-! ## The RAM -/

structure BramReq (p : BramParams) where
  we : Bool
  addr : BitVec p.bramAddrWidth
  wmask : ℕ
  wdata : ℕ

structure Bram (p : BramParams) where
  mem : p.Mem
  rdata : p.Word

/-- One clock edge; the output only changes when a word is read. -/
def Bram.step (b : Bram p) : Option (BramReq p) → Bram p
  | none => b
  | some r =>
    if r.we then
      { b with mem := Function.update b.mem r.addr (p.write (b.mem r.addr) r.wmask r.wdata) }
    else { b with rdata := b.mem r.addr }

/-! ## The adapter -/

/-- The registers of `tl_adapter_bram`. -/
structure AdapterBram where
  hostDValid : Bool
  opcode : DOp
  size : ℕ
  source : ℕ
  deriving DecidableEq, Repr

structure AdapterBramIn where
  hostA : Option AMsg
  hostDReady : Bool

namespace AdapterBram

def reset : AdapterBram := ⟨false, .accessAck, 0, 0⟩

section Cycle
variable (s : AdapterBram) (i : AdapterBramIn)

/-- A request is taken when no response waits. -/
def hostAReady : Bool := !s.hostDValid || i.hostDReady

def doOp : Option AMsg := if s.hostAReady i then i.hostA else none

def bramReq (p : BramParams) (a : AMsg) : BramReq p where
  we := decide (a.opcode ≠ .get)
  addr := p.addrOf a
  wmask := a.mask
  wdata := a.data

def hostD (bramRdata : ℕ) : Option DMsg :=
  if s.hostDValid then some ⟨s.opcode, 0, s.size, s.source, 0, false, false, bramRdata⟩ else none

/-- One clock edge. -/
def step : AdapterBram :=
  match s.doOp i with
  | some a => ⟨true, if a.opcode ≠ .get then .accessAck else .accessAckData, a.size, a.source⟩
  | none => { s with hostDValid := s.hostDValid && !i.hostDReady }

end Cycle

end AdapterBram

/-! ## The adapter and the RAM -/

structure BramSys (p : BramParams) where
  adapter : AdapterBram
  ram : Bram p

namespace BramSys

section Cycle
variable (s : BramSys p) (i : AdapterBramIn)

/-- One clock edge. -/
def step : BramSys p where
  adapter := s.adapter.step i
  ram := s.ram.step ((s.adapter.doOp i).map (AdapterBram.bramReq p))

/-! What the link transfers in a cycle. -/

def hostD : Option DMsg := s.adapter.hostD (pack s.ram.rdata)
def hostAFires : Option AMsg := s.adapter.doOp i
def hostDFires : Option DMsg := if i.hostDReady then s.hostD else none

end Cycle

/-- The response to a request that finds the memory `m`. -/
structure Answers (m : p.Mem) (a : AMsg) (d : DMsg) : Prop where
  opcode : d.opcode = if a.opcode = .get then .accessAckData else .accessAck
  size : d.size = a.size
  source : d.source = a.source
  ok : d.denied = false ∧ d.corrupt = false
  data : a.opcode = .get → d.data = pack (m (p.addrOf a))

/-- Every response answers the request of its place, which finds the memory as the requests
before it have left it. -/
def InOrder (m : p.Mem) (reqs : List AMsg) (resps : List DMsg) : Prop :=
  ∀ k d, resps[k]? = some d →
    ∃ a, reqs[k]? = some a ∧ Answers (p.contents m (reqs.take k)) a d

/-- The responses are those of a memory, and at most one of them is missing. -/
structure Serves (m : p.Mem) (reqs : List AMsg) (resps : List DMsg) : Prop where
  inOrder : InOrder m reqs resps
  le : resps.length ≤ reqs.length
  atMostOne : reqs.length ≤ resps.length + 1

section InOrder
variable {m : p.Mem} {reqs : List AMsg} {resps : List DMsg} {a : AMsg} {d : DMsg}

/-- Later requests do not matter. -/
theorem InOrder.request (h : InOrder m reqs resps) (a : AMsg) :
    InOrder m (reqs ++ [a]) resps := by
  intro k d hk
  obtain ⟨b, hb, hd⟩ := h k d hk
  have hlt : k < reqs.length := (List.getElem?_eq_some_iff.mp hb).1
  refine ⟨b, ?_, ?_⟩
  · rw [List.getElem?_append_left hlt]
    exact hb
  · rw [List.take_append_of_le_length hlt.le]
    exact hd

/-- The response to the last request. -/
theorem InOrder.respond (h : InOrder m (reqs ++ [a]) resps) (hlen : resps.length = reqs.length)
    (hd : Answers (p.contents m reqs) a d) : InOrder m (reqs ++ [a]) (resps ++ [d]) := by
  intro k e hk
  rcases Nat.lt_or_ge k resps.length with hlt | hge
  · rw [List.getElem?_append_left hlt] at hk
    exact h k e hk
  · have hbound := (List.getElem?_eq_some_iff.mp hk).1
    rw [List.length_append, List.length_singleton] at hbound
    have hlast : k = reqs.length := by omega
    subst hlast
    rw [← hlen, List.getElem?_concat_length, Option.some_inj] at hk
    subst hk
    refine ⟨a, List.getElem?_concat_length, ?_⟩
    rw [List.take_left]
    exact hd

end InOrder

/-- The RAM is the memory after the requests; a response that waits is that to the last one. -/
structure Inv (m : p.Mem) (s : BramSys p) (reqs : List AMsg) (resps : List DMsg) : Prop where
  mem : s.ram.mem = p.contents m reqs
  inOrder : InOrder m reqs resps
  idle : s.adapter.hostDValid = false → resps.length = reqs.length
  busy : s.adapter.hostDValid = true → ∃ l a d, reqs = l ++ [a] ∧ resps.length = l.length ∧
    s.hostD = some d ∧ Answers (p.contents m l) a d

section Step
variable {m : p.Mem} {s : BramSys p} {i : AdapterBramIn} {reqs : List AMsg} {resps : List DMsg}

/-- Where a request can be taken, every request before it has its response. -/
theorem Inv.respond (h : Inv m s reqs resps) (hready : s.adapter.hostAReady i = true) :
    InOrder m reqs (resps ++ (s.hostDFires i).toList) ∧
      (resps ++ (s.hostDFires i).toList).length = reqs.length := by
  cases hv : s.adapter.hostDValid with
  | false =>
      have hnone : s.hostDFires i = none := by
        rw [hostDFires, hostD, AdapterBram.hostD, hv, if_neg Bool.false_ne_true, ite_self]
      rw [hnone, Option.toList_none, List.append_nil]
      exact ⟨h.inOrder, h.idle hv⟩
  | true =>
      obtain ⟨l, a, d, rfl, hlen, hd, hanswers⟩ := h.busy hv
      rw [AdapterBram.hostAReady, hv, Bool.not_true, Bool.false_or] at hready
      have hfires : s.hostDFires i = some d := by
        rw [hostDFires, if_pos hready, hd]
      rw [hfires, Option.toList_some]
      exact ⟨h.inOrder.respond hlen hanswers, by simp [hlen]⟩

/-- A request finds the memory of the requests before it. -/
theorem Inv.accept (h : Inv m s reqs resps) (hready : s.adapter.hostAReady i = true) {a : AMsg}
    (ha : i.hostA = some a) :
    Inv m (s.step i) (reqs ++ [a]) (resps ++ (s.hostDFires i).toList) := by
  obtain ⟨horder, hlen⟩ := h.respond hready
  have hop : s.adapter.doOp i = some a := by
    rw [AdapterBram.doOp, if_pos hready, ha]
  have hadapter : (s.step i).adapter =
      ⟨true, if a.opcode ≠ .get then .accessAck else .accessAckData, a.size, a.source⟩ := by
    rw [step, AdapterBram.step, hop]
  have hram : (s.step i).ram = s.ram.step (some (AdapterBram.bramReq p a)) := by
    rw [step, hop]
    rfl
  have hd : (s.step i).hostD = some ⟨if a.opcode ≠ .get then .accessAck else .accessAckData, 0,
      a.size, a.source, 0, false, false, pack (s.step i).ram.rdata⟩ := by
    rw [hostD, AdapterBram.hostD, hadapter, if_pos rfl]
  refine ⟨?_, horder.request a, ?_, fun _ => ⟨reqs, a, _, rfl, hlen, hd, ?_⟩⟩
  · rw [hram, BramParams.contents_concat, BramParams.perform, ← h.mem, Bram.step]
    by_cases hget : a.opcode = .get <;> simp [AdapterBram.bramReq, hget]
  · intro hv
    rw [hadapter] at hv
    exact absurd hv Bool.noConfusion
  · refine ⟨?_, rfl, rfl, ⟨rfl, rfl⟩, fun hget => ?_⟩
    · by_cases hget : a.opcode = .get <;> simp [hget]
    · rw [hram, ← h.mem]
      simp [Bram.step, AdapterBram.bramReq, hget]

/-- A cycle without a request. -/
theorem Inv.respond_only (h : Inv m s reqs resps) (hready : s.adapter.hostAReady i = true)
    (ha : i.hostA = none) : Inv m (s.step i) reqs (resps ++ (s.hostDFires i).toList) := by
  obtain ⟨horder, hlen⟩ := h.respond hready
  have hop : s.adapter.doOp i = none := by
    rw [AdapterBram.doOp, ha, ite_self]
  have hvalid : (s.step i).adapter.hostDValid = false := by
    rw [step, AdapterBram.step, hop]
    rw [AdapterBram.hostAReady] at hready
    cases hv : s.adapter.hostDValid with
    | false => rfl
    | true =>
        rw [hv, Bool.not_true, Bool.false_or] at hready
        simp [hready]
  refine ⟨?_, horder, fun _ => hlen, fun hv => ?_⟩
  · rw [step, hop]
    exact h.mem
  · rw [hvalid] at hv
    exact absurd hv Bool.false_ne_true

/-- A response that is not taken stays, and holds up the requests. -/
theorem Inv.stall (h : Inv m s reqs resps) (hready : s.adapter.hostAReady i = false) :
    Inv m (s.step i) reqs (resps ++ (s.hostDFires i).toList) := by
  have hop : s.adapter.doOp i = none := by
    rw [AdapterBram.doOp, hready, if_neg Bool.false_ne_true]
  rw [AdapterBram.hostAReady, Bool.or_eq_false_iff, Bool.not_eq_false'] at hready
  have hstep : s.step i = s := by
    rw [step, AdapterBram.step, hop, hready.1, hready.2]
    simp [← hready.1, Bram.step]
  have hfires : s.hostDFires i = none := by
    rw [hostDFires, hready.2, if_neg Bool.false_ne_true]
  rw [hstep, hfires, Option.toList_none, List.append_nil]
  exact h

theorem Inv.step (h : Inv m s reqs resps) (i : AdapterBramIn) :
    Inv m (s.step i) (reqs ++ (s.hostAFires i).toList) (resps ++ (s.hostDFires i).toList) := by
  cases hready : s.adapter.hostAReady i with
  | false =>
      rw [hostAFires, AdapterBram.doOp, hready, if_neg Bool.false_ne_true, Option.toList_none,
        List.append_nil]
      exact h.stall hready
  | true =>
      rw [hostAFires, AdapterBram.doOp, hready, if_pos rfl]
      cases ha : i.hostA with
      | none =>
          rw [Option.toList_none, List.append_nil]
          exact h.respond_only hready ha
      | some a => exact h.accept hready ha

theorem Inv.serves (h : Inv m s reqs resps) : Serves m reqs resps := by
  cases hv : s.adapter.hostDValid with
  | false =>
      have hlen := h.idle hv
      exact ⟨h.inOrder, hlen.le, Nat.le_succ_of_le hlen.ge⟩
  | true =>
      obtain ⟨l, a, d, rfl, hlen, -⟩ := h.busy hv
      exact ⟨h.inOrder, by simp [hlen], by simp [hlen]⟩

end Step

section Run
variable (b : Bram p) (ins : ℕ → AdapterBramIn)

def reset : BramSys p := ⟨.reset, b⟩

/-- The requests that were taken before cycle `n`, and the responses that were given. -/
def requests (n : ℕ) : List AMsg :=
  stream (fun k => (run step (reset b) ins k).hostAFires (ins k)) n
def responses (n : ℕ) : List DMsg :=
  stream (fun k => (run step (reset b) ins k).hostDFires (ins k)) n

theorem inv_run (n : ℕ) :
    Inv b.mem (run step (reset b) ins n) (requests b ins n) (responses b ins n) := by
  induction n with
  | zero => exact ⟨rfl, fun k d hk => by simp [responses] at hk, fun _ => rfl,
      fun hv => by cases hv⟩
  | succ n ih =>
      rw [run_succ, requests, responses, stream_succ, stream_succ]
      exact ih.step (ins n)

/-- The adapter and the RAM are a memory that performs the requests in order. -/
theorem memory_run (n : ℕ) : Serves b.mem (requests b ins n) (responses b ins n) :=
  (inv_run b ins n).serves

end Run

end BramSys

end Muntjac.Tl

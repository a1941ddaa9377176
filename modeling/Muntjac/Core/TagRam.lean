import Muntjac.Sync.Select

/-!
# The tag RAMs

One single-ported RAM per way.  A cycle serves one set: a read returns the entries of
every way, and a write replaces the entries of some ways and reads the others.

`hitWay` is the way that an access proceeds with: the first way that hits, else the
first empty way, else the way that the replacement counter points to.
-/

namespace Muntjac.Core

open Sync

/-- RAM contents by set and way, and the registered outputs of the read ports. -/
structure TagRam (α : Type*) (n : ℕ) where
  mem : ℕ → Fin n → α
  rdata : Fin n → α

/-- The request that wins the tag port in a cycle. -/
inductive TagReq (α : Type*) (n : ℕ)
  | read (set : ℕ)
  | write (set : ℕ) (ways : Fin n → Bool) (wdata : α)

namespace TagRam
variable {α : Type*} {n : ℕ}

def step (s : TagRam α n) : Option (TagReq α n) → TagRam α n
  | none => s
  | some (.read set) => { s with rdata := s.mem set }
  | some (.write set ways wdata) =>
    { mem := fun a k => if a == set && ways k then wdata else s.mem a k
      rdata := fun k => if ways k then s.rdata k else s.mem set k }

end TagRam

/-- The way that an access proceeds with. -/
def hitWay {n : ℕ} (hit empty : Fin n → Bool) (evictWay : Fin n) : Fin n :=
  ((firstIdx hit).or (firstIdx empty)).getD evictWay

/-- If some way hits, the access proceeds with a way that hits. -/
theorem hit_hitWay {n : ℕ} {hit empty : Fin n → Bool} {evictWay : Fin n}
    (h : (firstIdx hit).isSome = true) : hit (hitWay hit empty evictWay) = true := by
  obtain ⟨k, hk⟩ := Option.isSome_iff_exists.mp h
  simpa [hitWay, hk] using firstIdx_some hk

end Muntjac.Core

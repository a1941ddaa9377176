import Muntjac.Core.Tlb

/-!
# Sv39 address translation

The translation that the page tables define, independent of any walker.  A walk is
described relative to a relation `R a pte`, "a read of the entry at `a` returned
`pte`": for a fixed memory image `R` is the graph of the image, and for a memory
that changes under the walk it says when the reads were made.

Entries are addressed by their index in units of eight bytes.

## Main definitions

* `At R pa root vpn i a` — the walk of `vpn` reads its level-`i` entry at `a`.
* `Walk R pa root vpn o` — the walk of `vpn` ends with outcome `o`.
* `walk pa mem root vpn` — the outcome over a fixed memory image.
-/

namespace Muntjac.Core.Sv39

open Sync

/-- The nine bits of a virtual page number that index the level-`i` table. -/
def vpnField (vpn i : ℕ) : ℕ := slice vpn (9 * i + 8) (9 * i)

/-- A leaf entry: the physical page and the flag byte of the entry. -/
structure Leaf where
  ppn : ℕ
  flags : ℕ
  deriving DecidableEq, Repr

/-- A valid entry with no access bits points to the next table. -/
def isPointer (pte : ℕ) : Bool :=
  pte.testBit 0 && !pte.testBit 1 && !pte.testBit 2 && !pte.testBit 3

/-- An entry that no translation may use: invalid, or writable but not readable. -/
def isReserved (pte : ℕ) : Bool := !pte.testBit 0 || (!pte.testBit 1 && pte.testBit 2)

/-- A level-`i` leaf maps `2 ^ (9 * i)` pages and has to be aligned to its size. -/
def isMisaligned (pte i : ℕ) : Bool := i != 0 && slice pte (9 * i + 9) 10 != 0

/-- The entry of the next lower level, at index `i`, of the table that `pte` points to. -/
def child (pa pte vpn i : ℕ) : ℕ := cat (slice pte (pa - 3) 10) 9 (vpnField vpn i)

/-- The leaf of a level-`i` entry: the low page bits come from the virtual address. -/
def leafOf (pa pte vpn i : ℕ) : Leaf where
  ppn := cat (slice pte (pa - 3) (9 * i + 10)) (9 * i) (vpn % 2 ^ (9 * i))
  flags := slice pte 7 0

/-- What one entry decides at level `i`: a fault, a leaf, or the next entry to read. -/
def visit (pa vpn i pte : ℕ) : Option Leaf ⊕ ℕ :=
  if isReserved pte then .inl none
  else if isPointer pte then
    if i = 0 then .inl none else .inr (child pa pte vpn (i - 1))
  else if isMisaligned pte i then .inl none
  else .inl (some (leafOf pa pte vpn i))

section Walk
variable (R : ℕ → ℕ → Prop) (pa root vpn : ℕ)

/-- The walk of `vpn` from `root` reads its level-`i` entry at `a`. -/
inductive At : ℕ → ℕ → Prop
  | root : At 2 (cat root 9 (vpnField vpn 2))
  | next {i a pte a' : ℕ} : At (i + 1) a → R a pte → visit pa vpn (i + 1) pte = .inr a' → At i a'

/-- The walk of `vpn` from `root` ends with the outcome `o`. -/
inductive Walk : Option Leaf → Prop
  | mk {i a pte : ℕ} {o : Option Leaf} : At R pa root vpn i a → R a pte →
      visit pa vpn i pte = .inl o → Walk o

end Walk

/-- The permissions that a flag byte gives.  The accessed bit is required of every
page and the dirty bit of a writable one. -/
def protOf (flags : ℕ) : PageProt where
  valid := flags.testBit 0 && flags.testBit 6
  readable := flags.testBit 1
  writable := flags.testBit 2 && flags.testBit 7
  executable := flags.testBit 3
  user := flags.testBit 4
  isGlobal := flags.testBit 5

/-- The pair a walker answers with states the outcome `o`.  A fault is reported by
clearing `valid`; the page is then unspecified. -/
def States (o : Option Leaf) (ppn : ℕ) (perm : PageProt) : Prop :=
  match o with
  | some l => ppn = l.ppn ∧ perm = protOf l.flags
  | none => perm.valid = false

/-! ## A fixed memory image -/

/-- The outcome from the level-`i` entry at `a`, over the image `mem`. -/
def walkFrom (pa : ℕ) (mem : ℕ → ℕ) (vpn : ℕ) : ℕ → ℕ → Option Leaf
  | 0, a => match visit pa vpn 0 (mem a) with
    | .inl o => o
    | .inr _ => none
  | i + 1, a => match visit pa vpn (i + 1) (mem a) with
    | .inl o => o
    | .inr a' => walkFrom pa mem vpn i a'

/-- The translation of `vpn` under the tables of `mem` rooted at `root`. -/
def walk (pa : ℕ) (mem : ℕ → ℕ) (root vpn : ℕ) : Option Leaf :=
  walkFrom pa mem vpn 2 (cat root 9 (vpnField vpn 2))

/-- An entry met on the walk has the outcome of the whole walk. -/
theorem walkFrom_of_at {pa root vpn : ℕ} {mem : ℕ → ℕ} {i a : ℕ}
    (h : At (fun a pte => mem a = pte) pa root vpn i a) :
    walkFrom pa mem vpn i a = walk pa mem root vpn := by
  induction h with
  | root => rfl
  | next hat hR hv ih =>
      subst hR
      rw [← ih, walkFrom, hv]

/-- Over a fixed image the relational walk has one outcome. -/
theorem walk_of_walk {pa root vpn : ℕ} {mem : ℕ → ℕ} {o : Option Leaf}
    (h : Walk (fun a pte => mem a = pte) pa root vpn o) : o = walk pa mem root vpn := by
  obtain ⟨hat, hR, hv⟩ := h
  rename_i i a pte
  subst hR
  rw [← walkFrom_of_at hat]
  cases i <;> rw [walkFrom, hv]

end Muntjac.Core.Sv39

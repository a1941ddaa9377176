import Mathlib.Order.Nat
import Muntjac.Sync.Stream

/-!
# Carriers

A carrier moves items from a write port to a read port, each with a valid and a ready signal, and
may hold some of them on the way: a register slice, a FIFO, a wire.  Carriers that are connected
in series are a carrier again, so that what holds of one holds of any chain of them.

## Main definitions

* `Offer` — a valid signal and its data.
* `Carrier` — a machine with a write port and a read port, and the conservation law.
* `Carrier.series`, `Carrier.wire` — two carriers one behind the other, and no carrier at all.
* `Carrier.Transparent` — what a reader and a writer see of it.
* `Carrier.Live` — a carrier whose reader goes on accepts again, and gives all that it took.
* `Carrier.Stable` — what is offered stays until it is read.

## Main results

* `Carrier.order` — the items come out in order, none lost and none invented.
* `Carrier.Prompt.live` — a carrier that offers whatever it holds is live.
* `Carrier.Live.series`, `Carrier.Stable.series`, `Carrier.chain_transparent` — the rules of a
  chain.
-/

namespace Muntjac.Sync

/-- A valid signal and its data, which mean nothing while it is clear. -/
structure Offer (α : Type) where
  valid : Bool
  data : α
  deriving DecidableEq, Repr

namespace Offer
variable {α : Type}

/-- The item that is offered. -/
def item (o : Offer α) : Option α := if o.valid then some o.data else none

theorem item_of_valid {o : Offer α} (h : o.valid = true) : o.item = some o.data := if_pos h

theorem item_of_not {o : Offer α} (h : o.valid = false) : o.item = none := by simp [item, h]

@[simp] theorem isSome_item (o : Offer α) : o.item.isSome = o.valid := by
  cases h : o.valid
  · rw [item_of_not h]
    rfl
  · rw [item_of_valid h]
    rfl

end Offer

/-- A machine with a write port and a read port.  `wReady` may depend on the ready signal of the
reader, `rOffer` on the offer of the writer, and neither on more. -/
structure Carrier (α : Type) where
  State : Type
  wReady : State → Bool → Bool
  rOffer : State → Offer α → Offer α
  next : State → Offer α → Bool → State
  /-- The items on the way, the next one first. -/
  held : State → List α
  /-- The states right after reset. -/
  Reset : State → Prop
  Inv : State → Prop
  inv_reset : ∀ s, Reset s → Inv s
  held_reset : ∀ s, Reset s → held s = []
  inv_next : ∀ s w r, Inv s → Inv (next s w r)
  conserve : ∀ s w r, Inv s →
    held s ++ (if wReady s r then w.item else none).toList =
      (if r then (rOffer s w).item else none).toList ++ held (next s w r)

namespace Carrier
variable {α : Type}

section Ports
variable (c : Carrier α)

/-- The item that is written. -/
def taken (s : c.State) (w : Offer α) (r : Bool) : Option α :=
  if c.wReady s r then w.item else none

/-- The item that is read. -/
def given (s : c.State) (w : Offer α) (r : Bool) : Option α :=
  if r then (c.rOffer s w).item else none

/-- The states of a run, one after the other. -/
def Follows (s : ℕ → c.State) (w : ℕ → Offer α) (r : ℕ → Bool) : Prop :=
  ∀ k, s (k + 1) = c.next (s k) (w k) (r k)

/-- A carrier whose reader goes on accepts again, and gives all that it held and took. -/
def Live : Prop :=
  ∀ s w r, c.Follows s w r → c.Inv (s 0) → (Recurs fun k => r k = true) →
    (Recurs fun k => c.wReady (s k) (r k) = true) ∧
      ∀ n, ∃ m ≥ n, c.held (s 0) ++ stream (fun k => c.taken (s k) (w k) (r k)) n <+:
        stream (fun k => c.given (s k) (w k) (r k)) m

/-- What is offered and not read is offered again, if the writer obeys the same rule. -/
def Stable : Prop :=
  ∀ s w w', c.Inv s → (c.rOffer s w).valid = true →
    (c.wReady s false = false → w.valid = true → w'.item = w.item) →
    (c.rOffer (c.next s w false) w').item = (c.rOffer s w).item

/-- Not more than `cap` items are on the way. -/
def Bounded (cap : ℕ) : Prop := ∀ s, c.Inv s → (c.held s).length ≤ cap

/-- What a reader and a writer see of a carrier after its reset. -/
structure Transparent (cap : ℕ) : Prop where
  /-- The items come out in order, none twice and none before it was taken, and not more than `cap`
  are on the way. -/
  order : ∀ s w r, c.Follows s w r → c.Reset (s 0) → ∀ n,
    stream (fun k => c.given (s k) (w k) (r k)) n <+:
        stream (fun k => c.taken (s k) (w k) (r k)) n ∧
      (stream (fun k => c.taken (s k) (w k) (r k)) n).length ≤
        (stream (fun k => c.given (s k) (w k) (r k)) n).length + cap
  /-- If the reader goes on, the carrier accepts again and again and gives all that it took. -/
  live : ∀ s w r, c.Follows s w r → c.Reset (s 0) → (Recurs fun k => r k = true) →
    (Recurs fun k => c.wReady (s k) (r k) = true) ∧
      ∀ n, ∃ m ≥ n, stream (fun k => c.taken (s k) (w k) (r k)) n <+:
        stream (fun k => c.given (s k) (w k) (r k)) m
  /-- If the writer repeats an offer until it is accepted, an offer to the reader is repeated until
  it is read. -/
  stable : ∀ s w r, c.Follows s w r → c.Reset (s 0) →
    (∀ k, c.wReady (s k) (r k) = false → (w k).valid = true → (w (k + 1)).item = (w k).item) →
    ∀ k, (c.rOffer (s k) (w k)).valid = true → r k = false →
      (c.rOffer (s (k + 1)) (w (k + 1))).item = (c.rOffer (s k) (w k)).item

/-- Whatever is held is offered, and a read makes room. -/
structure Prompt : Prop where
  offers : ∀ s w, c.Inv s → c.held s ≠ [] → (c.rOffer s w).valid = true
  accepts : ∀ s w r', c.Inv s → c.wReady s true = true ∨ c.wReady (c.next s w true) r' = true

end Ports

section Run
variable {c : Carrier α} {s : ℕ → c.State} {w : ℕ → Offer α} {r : ℕ → Bool}

theorem Follows.inv (h : c.Follows s w r) (h0 : c.Inv (s 0)) (n : ℕ) : c.Inv (s n) := by
  induction n with
  | zero => exact h0
  | succ n ih =>
      rw [h n]
      exact c.inv_next _ _ _ ih

/-- The conservation law of a run: the items come out in order, none lost and none invented. -/
theorem order (h : c.Follows s w r) (h0 : c.Inv (s 0)) (n : ℕ) :
    c.held (s 0) ++ stream (fun k => c.taken (s k) (w k) (r k)) n =
      stream (fun k => c.given (s k) (w k) (r k)) n ++ c.held (s n) := by
  have hstep : ∀ k, c.held (s k) ++ (c.taken (s k) (w k) (r k)).toList.flatMap (fun x => [x]) =
      (c.given (s k) (w k) (r k)).toList ++ c.held (s (k + 1)) := by
    intro k
    rw [List.flatMap_singleton', h k]
    exact c.conserve _ _ _ (h.inv h0 k)
  have hrun := Sync.conserve hstep n
  rwa [List.flatMap_singleton'] at hrun

theorem Bounded.transparent {cap : ℕ} (hb : c.Bounded cap) (hl : c.Live) (hs : c.Stable) :
    c.Transparent cap where
  order := by
    intro s w r h h0 n
    have hinv := c.inv_reset _ h0
    have horder := order h hinv n
    rw [c.held_reset _ h0, List.nil_append] at horder
    rw [horder, List.length_append]
    exact ⟨List.prefix_append _ _, Nat.add_le_add_left (hb _ (h.inv hinv n)) _⟩
  live := by
    intro s w r h h0 hr
    obtain ⟨hready, hgives⟩ := hl s w r h (c.inv_reset _ h0) hr
    rw [c.held_reset _ h0] at hgives
    exact ⟨hready, hgives⟩
  stable := by
    intro s w r h h0 hw k hv hr
    have hnext := h k
    have hkeep := hw k
    rw [hr] at hnext hkeep
    rw [hnext]
    exact hs _ _ _ (h.inv (c.inv_reset _ h0) k) hv hkeep

/-- A carrier that offers whatever it holds is live. -/
theorem Prompt.live (hp : c.Prompt) : c.Live := by
  intro s w r h h0 hr
  have hinv := h.inv h0
  constructor
  · intro k
    obtain ⟨n, hn, hrn⟩ := hr k
    rcases hp.accepts (s n) (w n) (r (n + 1)) (hinv n) with hnow | hnext
    · exact ⟨n, hn, hrn ▸ hnow⟩
    · have hstate : s (n + 1) = c.next (s n) (w n) true := by rw [h n, hrn]
      refine ⟨n + 1, by omega, ?_⟩
      change c.wReady (s (n + 1)) (r (n + 1)) = true
      rw [hstate]
      exact hnext
  · intro n
    have hstep : ∀ k, c.held (s k) ++ (c.taken (s k) (w k) (r k)).toList.flatMap (fun x => [x]) =
        (c.given (s k) (w k) (r k)).toList ++ c.held (s (k + 1)) := by
      intro k
      rw [List.flatMap_singleton', h k]
      exact c.conserve _ _ _ (hinv k)
    have hgive : ∀ k, r k = true → c.held (s k) ≠ [] →
        (c.given (s k) (w k) (r k)).isSome = true := by
      intro k hrk hne
      rw [given, hrk, if_pos rfl, Offer.isSome_item]
      exact hp.offers _ _ (hinv k) hne
    have hall := eventually_given hstep hr hgive n
    rwa [List.flatMap_singleton'] at hall

end Run

/-! ## Chains -/

/-- No carrier at all. -/
def wire (α : Type) : Carrier α where
  State := Unit
  wReady _ r := r
  rOffer _ w := w
  next _ _ _ := ()
  held _ := []
  Reset _ := True
  Inv _ := True
  inv_reset _ h := h
  held_reset _ _ := rfl
  inv_next _ _ _ h := h
  conserve _ _ r _ := by rw [List.nil_append, List.append_nil]

theorem wire_prompt : (wire α).Prompt where
  offers _ _ _ h := absurd rfl h
  accepts _ _ _ _ := .inl rfl

theorem wire_stable : (wire α).Stable := fun _ _ _ _ hv hw => hw rfl hv

theorem series_conserve (a b : Carrier α) (s : a.State × b.State) (w : Offer α) (r : Bool)
    (h : a.Inv s.1 ∧ b.Inv s.2) :
    (b.held s.2 ++ a.held s.1) ++
        (if a.wReady s.1 (b.wReady s.2 r) then w.item else none).toList =
      (if r then (b.rOffer s.2 (a.rOffer s.1 w)).item else none).toList ++
        (b.held (b.next s.2 (a.rOffer s.1 w) r) ++ a.held (a.next s.1 w (b.wReady s.2 r))) := by
  have ha := a.conserve s.1 w (b.wReady s.2 r) h.1
  have hb := b.conserve s.2 (a.rOffer s.1 w) r h.2
  rw [List.append_assoc, ha, ← List.append_assoc, hb, List.append_assoc]

/-- Two carriers, `a` in front of `b`. -/
def series (a b : Carrier α) : Carrier α where
  State := a.State × b.State
  wReady s r := a.wReady s.1 (b.wReady s.2 r)
  rOffer s w := b.rOffer s.2 (a.rOffer s.1 w)
  next s w r := (a.next s.1 w (b.wReady s.2 r), b.next s.2 (a.rOffer s.1 w) r)
  held s := b.held s.2 ++ a.held s.1
  Reset s := a.Reset s.1 ∧ b.Reset s.2
  Inv s := a.Inv s.1 ∧ b.Inv s.2
  inv_reset _ h := ⟨a.inv_reset _ h.1, b.inv_reset _ h.2⟩
  held_reset _ h := by rw [b.held_reset _ h.2, a.held_reset _ h.1, List.append_nil]
  inv_next _ _ _ h := ⟨a.inv_next _ _ _ h.1, b.inv_next _ _ _ h.2⟩
  conserve := series_conserve a b

theorem Bounded.series {a b : Carrier α} {m n : ℕ} (ha : a.Bounded m) (hb : b.Bounded n) :
    (a.series b).Bounded (m + n) := by
  intro s h
  have hla := ha _ h.1
  have hlb := hb _ h.2
  change (b.held s.2 ++ a.held s.1).length ≤ m + n
  rw [List.length_append]
  omega

/-- The rule of the offers is passed on from carrier to carrier. -/
theorem Stable.series {a b : Carrier α} (ha : a.Stable) (hb : b.Stable) : (a.series b).Stable := by
  intro s w w' hinv hv hw
  refine hb _ _ _ hinv.2 hv fun hbusy hmid => ?_
  have hwa : a.wReady s.1 false = false → w.valid = true → w'.item = w.item := by
    intro hready
    refine hw ?_
    change a.wReady s.1 (b.wReady s.2 false) = false
    rw [hbusy]
    exact hready
  change (a.rOffer (a.next s.1 w (b.wReady s.2 false)) w').item = _
  rw [hbusy]
  exact ha _ _ _ hinv.1 hmid hwa

/-- Liveness of two carriers in series: the front one is read whenever the back one accepts. -/
theorem Live.series {a b : Carrier α} (ha : a.Live) (hb : b.Live) : (a.series b).Live := by
  intro s w r h h0 hr
  have hfa : a.Follows (fun k => (s k).1) w fun k => b.wReady (s k).2 (r k) :=
    fun k => congrArg Prod.fst (h k)
  have hfb : b.Follows (fun k => (s k).2) (fun k => a.rOffer (s k).1 (w k)) r :=
    fun k => congrArg Prod.snd (h k)
  obtain ⟨hbReady, hbGives⟩ := hb _ _ _ hfb h0.2 hr
  obtain ⟨haReady, haGives⟩ := ha _ _ _ hfa h0.1 hbReady
  refine ⟨haReady, fun n => ?_⟩
  obtain ⟨m, hm, hmid⟩ := haGives n
  obtain ⟨t, ht, hend⟩ := hbGives m
  refine ⟨t, by omega, ?_⟩
  -- what the front one gives is what the back one takes
  have hall : b.held (s 0).2 ++ (a.held (s 0).1 ++
      stream (fun k => a.taken (s k).1 (w k) (b.wReady (s k).2 (r k))) n) <+:
      stream (fun k => b.given (s k).2 (a.rOffer (s k).1 (w k)) (r k)) t :=
    ((List.prefix_append_right_inj _).mpr hmid).trans hend
  rw [← List.append_assoc] at hall
  exact hall

/-- A chain of carriers, the first one at the writer. -/
def chain : List (Carrier α) → Carrier α
  | [] => wire α
  | c :: cs => c.series (chain cs)

section Chain
variable {ι : Type} (c : ι → Carrier α)

theorem chain_bounded {cap : ι → ℕ} (h : ∀ i, (c i).Bounded (cap i)) (l : List ι) :
    (chain (l.map c)).Bounded (l.foldr (fun i n => cap i + n) 0) := by
  induction l with
  | nil => exact fun _ _ => Nat.zero_le _
  | cons i l ih => exact (h i).series ih

theorem chain_stable (h : ∀ i, (c i).Stable) (l : List ι) : (chain (l.map c)).Stable := by
  induction l with
  | nil => exact wire_stable
  | cons i l ih => exact (h i).series ih

theorem chain_live (h : ∀ i, (c i).Live) (l : List ι) : (chain (l.map c)).Live := by
  induction l with
  | nil => exact wire_prompt.live
  | cons i l ih => exact (h i).series ih

/-- A chain of carriers is transparent, and what is on the way is bounded by the sum. -/
theorem chain_transparent {cap : ι → ℕ} (hb : ∀ i, (c i).Bounded (cap i)) (hl : ∀ i, (c i).Live)
    (hs : ∀ i, (c i).Stable) (l : List ι) :
    (chain (l.map c)).Transparent (l.foldr (fun i n => cap i + n) 0) :=
  (chain_bounded c hb l).transparent (chain_live c hl l) (chain_stable c hs l)

end Chain

end Carrier

end Muntjac.Sync

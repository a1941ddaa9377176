import Muntjac.Sync.Select

/-!
# The round-robin arbiter

`openip_round_robin_arbiter`: requests above the last granted index have priority
over the others, and within each group the least index wins.
-/

namespace Muntjac.Sync

/-- The one-hot register `last_grant`, as the index it marks. -/
structure RoundRobin (n : ℕ) where
  last : Option (Fin n)
  deriving DecidableEq, Repr

namespace RoundRobin
variable {n : ℕ}

def reset : RoundRobin n := ⟨none⟩

/-- The granted index. -/
def grant (a : RoundRobin n) (request : Fin n → Bool) : Option (Fin n) :=
  match a.last with
  | none => firstIdx request
  | some l => (firstIdx fun k => request k && decide (l < k)).or (firstIdx request)

/-- The register after a cycle. -/
def next (a : RoundRobin n) (enable : Bool) (request : Fin n → Bool) : RoundRobin n :=
  if enable then ⟨a.grant request⟩ else a

/-- Only a request is granted. -/
theorem request_of_grant {a : RoundRobin n} {request : Fin n → Bool} {k : Fin n}
    (h : a.grant request = some k) : request k = true := by
  unfold grant at h
  split at h
  · exact firstIdx_some h
  · rename_i l _
    rcases hm : firstIdx fun k => request k && decide (l < k) with _ | j
    · rw [hm, Option.none_or] at h
      exact firstIdx_some h
    · rw [hm, Option.some_or] at h
      have hj := firstIdx_some hm
      simp only [Option.some.injEq] at h
      subst h
      simp only [Bool.and_eq_true] at hj
      exact hj.1

/-- The arbiter is work-conserving: some request is granted if there is one. -/
theorem grant_isSome {a : RoundRobin n} {request : Fin n → Bool} {k : Fin n}
    (hk : request k = true) : (a.grant request).isSome = true := by
  have hfirst : (firstIdx request).isSome = true := firstIdx_isSome.mpr ⟨k, hk⟩
  unfold grant
  split
  · exact hfirst
  · rw [Option.isSome_or, hfirst, Bool.or_true]

/-- The only request is granted. -/
theorem grant_of_only {a : RoundRobin n} {request : Fin n → Bool} {k : Fin n}
    (hk : request k = true) (ho : ∀ j, request j = true → j = k) : a.grant request = some k := by
  obtain ⟨j, hj⟩ := Option.isSome_iff_exists.mp (grant_isSome (a := a) hk)
  rw [hj, ho j (request_of_grant hj)]

end RoundRobin

end Muntjac.Sync

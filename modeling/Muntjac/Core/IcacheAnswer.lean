import Muntjac.Core.IcacheContents

/-!
# The answers of the instruction cache

In every run of regular cycles an answer belongs to the request in flight, and if it is
not an exception it is the word that memory held at the address of the request, at some
time after the last flush request.  A refill that is denied changes neither array.
-/

namespace Muntjac.Core

open Sync Tl

/-- The page of a leaf is a physical page. -/
theorem Sv39.ppn_lt {pa vpn root : ℕ} {mem : ℕ → ℕ} {l : Sv39.Leaf} (hpa : 30 ≤ pa)
    (h : Sv39.walk pa mem root vpn = some l) : l.ppn < 2 ^ (pa - 12) := by
  have hleaf : ∀ i ≤ 2, ∀ pte, (Sv39.leafOf pa pte vpn i).ppn < 2 ^ (pa - 12) := by
    intro i hi pte
    have hhigh := slice_lt pte (pa - 3) (9 * i + 10)
    have hlow : vpn % 2 ^ (9 * i) < 2 ^ (9 * i) := Nat.mod_lt _ (Nat.two_pow_pos _)
    have hsplit : 2 ^ (pa - 12) = 2 ^ (pa - 3 + 1 - (9 * i + 10)) * 2 ^ (9 * i) := by
      rw [← Nat.pow_add]
      congr 1
      omega
    rw [hsplit]
    simp only [Sv39.leafOf, cat]
    calc _ < slice pte (pa - 3) (9 * i + 10) * 2 ^ (9 * i) + 2 ^ (9 * i) := by omega
      _ = (slice pte (pa - 3) (9 * i + 10) + 1) * 2 ^ (9 * i) := by rw [Nat.add_mul, Nat.one_mul]
      _ ≤ _ := Nat.mul_le_mul_right _ hhigh
  have hvisit : ∀ i ≤ 2, ∀ pte, Sv39.visit pa vpn i pte = .inl (some l) →
      l.ppn < 2 ^ (pa - 12) := by
    intro i hi pte hv
    unfold Sv39.visit at hv
    split_ifs at hv <;> simp only [Sum.inl.injEq, Option.some.injEq, reduceCtorEq] at hv
    subst hv
    exact hleaf i hi pte
  have hfrom : ∀ i ≤ 2, ∀ a, Sv39.walkFrom pa mem vpn i a = some l → l.ppn < 2 ^ (pa - 12) := by
    intro i
    induction i with
    | zero =>
        intro hi a hw
        unfold Sv39.walkFrom at hw
        split at hw
        · rename_i o ho
          exact hvisit 0 hi _ (by rw [ho, hw])
        · simp at hw
    | succ i ih =>
        intro hi a hw
        unfold Sv39.walkFrom at hw
        split at hw
        · rename_i o ho
          exact hvisit (i + 1) hi _ (by rw [ho, hw])
        · exact ih (by omega) _ hw
  exact hfrom 2 le_rfl _ h

namespace IcacheMem
variable {p : IcacheParams}

/-- The invariant of the system. -/
structure Inv (mem : ℕ → ℕ → ℕ) (pt : ℕ → ℕ) (root : ℕ) (s : IcacheMem p) : Prop where
  ctl : s.Ctl
  owned : s.cache.tr.Owned p.busBytes s.lookup s.reads
  sound : s.cache.tr.Sound p.translation pt root s.lookup
  contents : s.Contents mem
  rooted : s.pending.isSome = true → atpMode s.atp = true →
    slice s.atp (p.physAddrLen - 13) 0 = root

section Step
variable {mem : ℕ → ℕ → ℕ} {pt : ℕ → ℕ} {root : ℕ} {s : IcacheMem p} {i : IcacheIn}

theorem inv_step (hp : p.Legal) (h : s.Inv mem pt root) (henv : s.Env mem pt root i)
    (hreg : s.Regular i) : (s.step i).Inv mem pt root := by
  have howned' := h.ctl.owned_step h.owned henv hreg
  refine ⟨ctl_step hp h.ctl h.owned henv hreg, howned', ?_,
    contents_step hp h.ctl h.contents henv hreg, ?_⟩
  · refine h.sound.step h.owned howned' (fun hd => ?_) henv.walked (fun hm => ?_) rfl ?_ ?_
    · obtain ⟨d, hd⟩ := Option.isSome_iff_exists.mp hd
      exact (henv.asked d hd).1
    · obtain ⟨⟨hs, hse⟩, ha⟩ := h.owned.searching_of_tlbMiss hm
      change slice i.reqAtp (p.physAddrLen - 13) 0 = root
      cases hq : i.reqValid
      · rw [henv.atpHeld hq hs]
        exact h.rooted hs ha
      · -- a request is accepted only when no access searches without its translation
        have hv := h.owned.ppnValid_of_tlbMiss hm
        have hmode := (h.ctl.mode_eq hs).trans ha
        rcases h.ctl.accepting henv hq with hst | hst | ⟨hst, hhit⟩ | ⟨-, hno⟩
        · rcases hse with hs' | hs' | hs' | hs' <;> simp [hs'] at hst
        · rcases hse with hs' | hs' | hs' | hs' <;> simp [hs'] at hst
        · simp only [Icache.fetchOutcome, hmode, hv] at hhit
          split_ifs at hhit
          all_goals simp_all
        · simp [(h.ctl.unstarted hno).1] at hs
    · intro hq
      have hq' : i.reqValid = false := hq
      constructor
      · simp [lookup, step, Icache.step, Icache.nextAddressQ, hq']
      · simp [lookup, step, hq']
    · intro hq
      have hq' : i.reqValid = true := hq
      constructor
      · simp [lookup, step, Icache.step, Icache.nextAddressQ, hq', hp.virtAddrLen,
          Icache.translationIn]
      · simp [lookup, step, hq', Icache.translationIn]
  · intro hs ha
    cases hq : i.reqValid
    · have hatp : (s.step i).atp = s.atp := by simp [step, hq]
      rw [hatp] at ha ⊢
      refine h.rooted ?_ ha
      simp only [step, hq, Bool.false_eq_true, if_false] at hs
      split_ifs at hs
      · simp at hs
      · exact hs
    · have hatp : (s.step i).atp = i.reqAtp := by simp [step, hq]
      rw [hatp] at ha ⊢
      exact henv.rooted hq ha

theorem inv_of_isReset (h : s.IsReset)
    (hempty : ∀ vpn ppn prot, ¬s.cache.tr.tlb.Holds p.tlbSetsWidth vpn ppn prot) :
    s.Inv mem pt root := by
  refine ⟨ctl_of_isReset h, ?_, .of_isReset h.cache.tr hempty, contents_of_isReset h,
    by simp [h.pending]⟩
  rw [h.reads]
  exact .of_isReset h.cache.tr

/-! ## Answers -/

/-- What a hit in the fetch state means. -/
structure Hit (s : IcacheMem p) (f : FetchReq) : Prop where
  request : f ∈ s.pending
  stateQ : s.cache.stateQ = .fetch
  quiet : s.cache.nothingInProgress = true
  valid : atpMode f.atp = true → s.cache.tr.ppnValid = true ∧ s.cache.tr.ppnPerm.valid = true
  hit : s.cache.hit s.cache.hitWay = true

theorem Ctl.pending_of_stateQ (h : s.Ctl) (hi : s.cache.stateQ ≠ .idle)
    (hf : s.cache.stateQ ≠ .flush) : ∃ f, f ∈ s.pending ∧ s.RequestOk f := by
  have hstart : s.started = true := by
    cases hs : s.started
    · exact absurd (h.unstarted hs).2.1 hf
    · rfl
  have hne : s.pending ≠ none := fun hn => hi ((h.started hstart).mp hn)
  obtain ⟨f, hf⟩ := Option.ne_none_iff_exists'.mp hne
  exact ⟨f, hf, h.request f hf⟩

theorem Ctl.hit_of_respValid (h : s.Ctl) (hv : s.cache.respValid = true) : ∃ f, s.Hit f := by
  simp only [Icache.respValid, Bool.and_eq_true, beq_iff_eq] at hv
  obtain ⟨hst, ho⟩ := hv
  obtain ⟨f, hf, hok⟩ := h.pending_of_stateQ (by simp [hst]) (by simp [hst])
  have hmode := hok.mode
  unfold Icache.fetchOutcome at ho
  split_ifs at ho with h1 h2 h3 h4
  refine ⟨f, hf, hst, by simpa using h1, fun ha => ?_, hit_hitWay h4⟩
  rw [hmode, ha] at h2 h3
  simp only [Bool.true_and, Bool.not_eq_true', Bool.or_eq_true, not_or, Bool.not_eq_true] at h2 h3
  exact ⟨by simpa using h2, by simpa using h3.1.1.1⟩

/-- A part-select that starts lower, as its high and its low part. -/
theorem slice_eq_cat (x w : ℕ) :
    slice x (w + 5) 2 = cat (x / 2 ^ 6 % 2 ^ w) 4 (x / 4 % 2 ^ 4) := by
  have hsplit : 2 ^ (w + 5 + 1 - 2) = 2 ^ 4 * 2 ^ w := by
    rw [← Nat.pow_add]
    congr 1
    omega
  have hdiv : x / 2 ^ 2 % (2 ^ 4 * 2 ^ w) / 2 ^ 4 = x / 2 ^ 6 % 2 ^ w := by
    rw [Nat.mod_mul_right_div_self, Nat.div_div_eq_div_mul, ← Nat.pow_add]
  have hmod : x / 2 ^ 2 % (2 ^ 4 * 2 ^ w) % 2 ^ 4 = x / 4 % 2 ^ 4 := Nat.mod_mul_right_mod _ _ _
  rw [slice, hsplit, ← hdiv, ← hmod, cat_div_mod]

theorem mod_two_pow_mod {x a b : ℕ} (h : b ≤ a) : x % 2 ^ a % 2 ^ b = x % 2 ^ b :=
  Nat.mod_mod_of_dvd x (Nat.pow_dvd_pow 2 h)

/-- The set of a hit is indexed with bits that the translation does not change. -/
theorem Icache.latchPhys_mod (hp : p.Legal) (c : Icache p) :
    c.tagReadAddrLatchPhys % 2 ^ p.setsWidth = c.tagReadAddrLatch % 2 ^ p.setsWidth := by
  have hsw := hp.setsWidth
  have hpa := hp.physAddrLen
  rw [Icache.tagReadAddrLatchPhys, mod_two_pow_mod (by omega), cat_mod_two_pow hsw,
    mod_two_pow_mod hsw]

/-- The line that a hit has found. -/
theorem Ctl.line_of_hit (hp : p.Legal) (h : s.Ctl) (hc : s.Contents mem) {f : FetchReq}
    (hh : s.Hit f) :
    ∃ t, s.flushed ≤ t ∧ t ≤ s.now ∧
      s.cache.respInstr = mem t (cat s.cache.tagReadAddrLatchPhys 4 (f.pc / 4 % 2 ^ 4)) := by
  have hok := hc.fetched hh.stateQ
  have hadr : s.cache.addressQ = f.pc := (h.request f hh.request).address
  have hsettled : s.Settled := h.flush_settled (.inl ⟨hh.stateQ, hh.quiet⟩)
  have hsw := hp.setsWidth
  have hpa := hp.physAddrLen
  have hit := hh.hit
  simp only [Icache.hit, Bool.and_eq_true, beq_iff_eq, hok.tags] at hit
  obtain ⟨hvalid, htag⟩ := hit
  have hset : s.cache.tagReadAddrLatch % 2 ^ p.setsWidth < 2 ^ p.setsWidth :=
    Nat.mod_lt _ (Nat.two_pow_pos _)
  have hnot : ¬s.Overwritten (s.cache.tagReadAddrLatch % 2 ^ p.setsWidth) s.cache.hitWay := by
    rintro ⟨r, hr, -⟩
    have hf := (h.fill_of_some hr).1
    rw [hh.stateQ] at hf
    exact absurd hf (by decide)
  obtain ⟨t, ht, hnow, hword⟩ :=
    hc.held hsettled _ hset _ hvalid hnot (f.pc / 4 % 2 ^ 4) (Nat.mod_lt _ (Nat.two_pow_pos _))
  rw [htag, ← Icache.latchPhys_mod hp, cat_div_mod] at hword
  refine ⟨t, ht, hnow, Eq.trans ?_ hword⟩
  -- the words that were read are those of the set
  have hlatch : s.cache.tagReadAddrLatch % 2 ^ p.setsWidth = f.pc / 2 ^ 6 % 2 ^ p.setsWidth := by
    rw [hok.latch, hadr, slice, mod_two_pow_mod]
    have := Nat.le_max_right p.virtAddrLen p.physAddrLen
    omega
  rw [Icache.respInstr, Icache.hitData, hok.data, hadr, slice_eq_cat, Icache.word,
    Icache.latchPhys_mod hp, hlatch]

/-- The address of a request that is not translated. -/
theorem Ctl.phys_of_physical (hp : p.Legal) (h : s.Ctl) (hc : s.Contents mem) {f : FetchReq}
    (hh : s.Hit f) (ha : atpMode f.atp = false) :
    cat s.cache.tagReadAddrLatchPhys 4 (f.pc / 4 % 2 ^ 4) = f.pc / 4 := by
  have hok := hc.fetched hh.stateQ
  have hreq := h.request f hh.request
  have hpa := hp.physAddrLen
  have hlt := hreq.canonical (by simp [hh.stateQ]) ha
  have hpow : 2 ^ p.physAddrLen = 2 ^ (p.physAddrLen - 6) * 2 ^ 6 := by
    rw [← Nat.pow_add, Nat.sub_add_cancel (by omega)]
  have hline : f.pc / 2 ^ 6 < 2 ^ (p.physAddrLen - 6) := by
    apply Nat.div_lt_of_lt_mul
    rw [Nat.mul_comm, ← hpow]
    exact hlt
  have hlatch : s.cache.tagReadAddrLatch = f.pc / 2 ^ 6 := by
    rw [hok.latch, hreq.address, slice]
    refine Nat.mod_eq_of_lt (hline.trans_le (Nat.pow_le_pow_right (by omega) ?_))
    have := Nat.le_max_right p.virtAddrLen p.physAddrLen
    omega
  have hphys : s.cache.tagReadAddrLatchPhys = f.pc / 2 ^ 6 := by
    rw [Icache.tagReadAddrLatchPhys, hok.physical, hreq.mode, ha, hlatch, Bool.not_false,
      if_pos rfl,
      cat_div_mod, Nat.mod_eq_of_lt hline]
  rw [hphys, show f.pc / 2 ^ 6 = f.pc / 4 / 2 ^ 4 by omega, cat_div_mod]

/-- The address of a translated request. -/
theorem Ctl.phys_of_virtual (hp : p.Legal) (h : s.Ctl) (hc : s.Contents mem) {f : FetchReq}
    (hh : s.Hit f) (ha : atpMode f.atp = true) (hppn : s.cache.tr.ppn < 2 ^ (p.physAddrLen - 12)) :
    cat s.cache.tagReadAddrLatchPhys 4 (f.pc / 4 % 2 ^ 4) =
      cat s.cache.tr.ppn 12 (f.pc % 2 ^ 12) / 4 := by
  have hok := hc.fetched hh.stateQ
  have hreq := h.request f hh.request
  have hpa := hp.physAddrLen
  have hpow : 2 ^ (p.physAddrLen - 6) = 2 ^ (p.physAddrLen - 12) * 2 ^ 6 := by
    rw [← Nat.pow_add]
    congr 1
    omega
  have hlow : s.cache.tagReadAddrLatch % 2 ^ 6 = f.pc / 2 ^ 6 % 2 ^ 6 := by
    rw [hok.latch, hreq.address, slice, mod_two_pow_mod]
    have := Nat.le_max_right p.virtAddrLen p.physAddrLen
    omega
  have hphys : s.cache.tagReadAddrLatchPhys = cat s.cache.tr.ppn 6 (f.pc / 2 ^ 6 % 2 ^ 6) := by
    rw [Icache.tagReadAddrLatchPhys, hok.physical, hreq.mode, ha, hlow, Bool.not_true,
      if_neg (by decide)]
    refine Nat.mod_eq_of_lt ?_
    have := Nat.mod_lt (f.pc / 2 ^ 6) (show 2 ^ 6 > 0 by decide)
    rw [hpow, cat]
    omega
  rw [hphys]
  simp only [cat]
  omega

/-- The answer of a hit is the word of memory at the address of the request. -/
theorem Inv.serves (hp : p.Legal) (h : s.Inv mem pt root) (hv : s.cache.respValid = true) :
    ∃ f ∈ s.pending, s.Serves mem pt root f := by
  obtain ⟨f, hh⟩ := h.ctl.hit_of_respValid hv
  have hreq := h.ctl.request f hh.request
  obtain ⟨t, ht, hnow, hword⟩ := h.ctl.line_of_hit hp h.contents hh
  refine ⟨f, hh.request, ?_⟩
  cases ha : atpMode f.atp
  · refine ⟨f.pc, by simp [Locates, ha], t, ht, hnow, ?_⟩
    rw [hword, h.ctl.phys_of_physical hp h.contents hh ha]
  · obtain ⟨hppn, hvalid⟩ := hh.valid ha
    have hgood := (h.sound.answers (by simp [lookup, hreq.atp, ha])).good hppn
    obtain ⟨l, hl, hp', -⟩ := Sv39.leaf_of_maps hgood hvalid
    have hvpn : s.lookup.vpn = slice f.pc 38 12 := by
      simp [lookup, hreq.address, hp.virtAddrLen]
    rw [hvpn] at hl
    have hlt := Sv39.ppn_lt hp.physAddrLen.1 hl
    refine ⟨cat l.ppn 12 (f.pc % 2 ^ 12), ?_, t, ht, hnow, ?_⟩
    · simp only [Locates, ha, if_true]
      exact ⟨l, hl, rfl⟩
    · rw [hword, h.ctl.phys_of_virtual hp h.contents hh ha (by rw [hp']; exact hlt), hp']

end Step

end IcacheMem

end Muntjac.Core

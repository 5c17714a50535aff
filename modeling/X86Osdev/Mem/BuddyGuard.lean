import X86Osdev.Mem.BuddyCoalescing

/-! Releases of headers that stand for no block handed out: what the checks of `free_buddy_new` find. -/

namespace X86Osdev.Mem
open CircularList DyadicTiling

structure HeadersOk (z : BuddyMemDesc) : Prop where
  pfn : ∀ i < z.totPages, (z.allBuddies i).pfn = i
  order_le : ∀ i < z.totPages, orderOf z i ≤ maxOrder
  aligned : ∀ i < z.totPages, 2 ^ orderOf z i ∣ i
  whole : 2 ^ maxOrder ∣ z.totPages

section Headers
variable {z z' : BuddyMemDesc} {fl : ℕ → List ℕ} {handed : Finset ℕ} {o b q : ℕ}

theorem ZoneInv.headersOk (hz : ZoneInv z fl handed) (ha : ∀ i < z.totPages, 2 ^ orderOf z i ∣ i) :
    HeadersOk z := ⟨hz.pfn, hz.order_le, ha, hz.whole⟩

theorem aligned_takeBlock {p : ℕ} (ha : ∀ i < z.totPages, 2 ^ orderOf z i ∣ i) :
    ∀ i < (takeBlock p z).totPages, 2 ^ orderOf (takeBlock p z) i ∣ i := by
  rw [orderOf_takeBlock]
  exact ha

theorem aligned_splitBlock {p : ℕ} (hz : ZoneInv z fl handed) (hp : p ∈ handed)
    (hpo : orderOf z p = o + 1) (ha : ∀ i < z.totPages, 2 ^ orderOf z i ∣ i) :
    ∀ i < (splitBlock o p z).totPages, 2 ^ orderOf (splitBlock o p z) i ∣ i := by
  intro i hi
  have hal : 2 ^ (o + 1) ∣ p := hpo ▸ hz.tiling.aligned p (.inr hp)
  rw [orderOf_splitBlock (o := o) hz hp]
  split
  · next hcase =>
    rcases hcase with rfl | rfl
    · exact (Nat.pow_dvd_pow 2 (Nat.le_succ o)).trans hal
    · exact dvd_add_half hal
  · exact ha i hi

theorem aligned_getFrom {d p : ℕ} (hz : ZoneInv z fl handed) (hd : d ≤ maxOrder)
    (ha : ∀ i < z.totPages, 2 ^ orderOf z i ∣ i) (hget : getFrom d z = .ok p z') :
    ∀ i < z'.totPages, 2 ^ orderOf z' i ∣ i := by
  induction d generalizing p z' with
  | zero =>
    rw [getFrom] at hget
    cases hfirst : firstFree z maxOrder with
    | none =>
      rw [hfirst] at hget
      cases hget
    | some found =>
      rw [hfirst] at hget
      obtain ⟨rfl, rfl⟩ := Outcome.ok.inj hget
      exact aligned_takeBlock ha
  | succ d ih =>
    rw [getFrom] at hget
    cases hfirst : firstFree z (maxOrder - (d + 1)) with
    | some found =>
      rw [hfirst] at hget
      obtain ⟨rfl, rfl⟩ := Outcome.ok.inj hget
      exact aligned_takeBlock ha
    | none =>
      rw [hfirst] at hget
      obtain ⟨found, z₁, hup, hget⟩ := Outcome.bind_eq_ok.mp hget
      obtain ⟨rfl, rfl⟩ := Outcome.ok.inj hget
      rcases getFrom_spec hz (d := d) (by omega) with ⟨p, z₂, fl₂, hget₂, -, hz₂, -, hpo, -⟩ | ⟨hpanic, -, -⟩
      · obtain ⟨rfl, rfl⟩ := Outcome.ok.inj (hup.symm.trans hget₂)
        have hnext : orderOf z₁ found = maxOrder - (d + 1) + 1 := by omega
        exact aligned_splitBlock hz₂ (Finset.mem_insert_self ..) hnext (ih (by omega) hup)
      · cases hup.symm.trans hpanic

theorem base_cases (hb : (z.allBuddies b).pfn = b) (hq : (z.allBuddies (buddy b o)).pfn = buddy b o)
    (hal : 2 ^ o ∣ b) : 2 ^ (o + 1) ∣ baseBiggerBlock b (buddy b o) z := by
  rw [baseBiggerBlock, hb, hq]
  have hpos : 0 < 2 ^ o := by positivity
  rcases buddy_cases hal with ⟨hd, he⟩ | ⟨hd, he⟩
  · rw [if_neg (by omega)]
    exact hd
  · rw [if_pos (by omega)]
    exact hd

theorem HeadersOk.buddy_lt (hz : HeadersOk z) (hb : b < z.totPages) (ho : orderOf z b < maxOrder) :
    buddy b (orderOf z b) < z.totPages := by
  have hwhole : 2 ^ (orderOf z b + 1) ∣ z.totPages := (Nat.pow_dvd_pow 2 (by omega)).trans hz.whole
  have hq := DyadicTiling.buddy_lt (hz.aligned b hb) hwhole hb
  have hpos : 0 < 2 ^ orderOf z b := by positivity
  omega

/-- The neighbour has its own number, whatever order the header has. -/
theorem HeadersOk.calcFreeBuddy (hz : HeadersOk z) (hb : b < z.totPages) :
    calcFreeBuddy b z = .ok none z ∨ orderOf z b < maxOrder ∧
      calcFreeBuddy b z = .ok (some (buddy b (orderOf z b))) z := by
  unfold Mem.calcFreeBuddy
  by_cases hmax : (z.allBuddies b).order ≥ maxOrder
  · exact .inl (if_pos hmax)
  · have hlt : orderOf z b < maxOrder := not_le.mp hmax
    have hcalc : calcMyBuddyNewPfn (z.allBuddies b) (z.allBuddies b).order = buddy b (orderOf z b) := by
      rw [calcMyBuddyNewPfn, buddy, hz.pfn b hb, pagesPerBlock_eq]
      rfl
    rw [if_neg hmax]
    dsimp only
    rw [hcalc, if_neg (not_not_intro (hz.pfn _ (hz.buddy_lt hb hlt)))]
    split
    · exact .inr ⟨hlt, rfl⟩
    · exact .inl rfl

theorem HeadersOk.mergeBlocks (hz : HeadersOk z) (hb : b < z.totPages) (ho : orderOf z b < maxOrder) :
    HeadersOk (mergeBlocks b (buddy b (orderOf z b)) z) := by
  have hq := hz.buddy_lt hb ho
  have hord := orderOf_mergeBlocks (b := b) (q := buddy b (orderOf z b)) (z := z) rfl
  have hbase := base_cases (hz.pfn b hb) (hz.pfn _ hq) (hz.aligned b hb)
  refine ⟨fun i hi => ?_, fun i hi => ?_, fun i hi => ?_, hz.whole⟩
  · simpa [Mem.mergeBlocks] using hz.pfn i hi
  · rw [hord]
    split
    · exact ho
    · exact hz.order_le i hi
  · rw [hord]
    split
    · next heq => exact heq ▸ hbase
    · exact hz.aligned i hi

theorem HeadersOk.insertBlock (hz : HeadersOk z) : HeadersOk (insertBlock b z) := by
  refine ⟨fun i hi => ?_, fun i hi => ?_, fun i hi => ?_, hz.whole⟩
  · simpa [Mem.insertBlock] using hz.pfn i hi
  · rw [orderOf_insertBlock]
    exact hz.order_le i hi
  · rw [orderOf_insertBlock]
    exact hz.aligned i hi

/-- A header with a clear flag is released, whatever it stands for. -/
theorem HeadersOk.freeFrom {fuel : ℕ} (hz : HeadersOk z) (hb : b < z.totPages)
    (hused : (z.allBuddies b).free = false) (hfuel : maxOrder < fuel + orderOf z b) :
    ∃ z', freeFrom fuel b z = .ok () z' ∧ HeadersOk z' := by
  induction fuel generalizing z b with
  | zero =>
    have := hz.order_le b hb
    omega
  | succ fuel ih =>
    have hle : ¬ (z.allBuddies b).order > maxOrder := not_lt.mpr (hz.order_le b hb)
    have hnot : ¬ (z.allBuddies b).free = true := by
      rw [hused]
      exact Bool.false_ne_true
    unfold Mem.freeFrom
    rw [if_neg hle, if_neg hnot]
    rcases hz.calcFreeBuddy hb with hnone | ⟨ho, hsome⟩
    · rw [hnone]
      exact ⟨_, rfl, hz.insertBlock⟩
    · rw [hsome, Outcome.bind_ok]
      have hmem := baseBiggerBlock_mem b (buddy b (orderOf z b)) z
      have hlt : baseBiggerBlock b (buddy b (orderOf z b)) z < z.totPages := by
        rcases hmem with e | e <;> rw [e]
        · exact hb
        · exact hz.buddy_lt hb ho
      have hfree := free_mergeBlocks (b := b) (q := buddy b (orderOf z b)) (z := z)
        (baseBiggerBlock b (buddy b (orderOf z b)) z)
      rw [if_pos hmem] at hfree
      have hbo := orderOf_mergeBlocks (q := buddy b (orderOf z b)) (z := z) (b := b) rfl
        (baseBiggerBlock b (buddy b (orderOf z b)) z)
      rw [if_pos rfl] at hbo
      exact ih (hz.mergeBlocks hb ho) hlt hfree (by omega)

end Headers

section Runs
variable {numPages pfnOffset : ℕ} {z z₀ : BuddyMemDesc} {handed : List ℕ} {b : ℕ}

theorem initBuddyNew_aligned {m m' : ℕ} (h : initBuddyNew numPages pfnOffset m z₀ = .ok () (m', z)) :
    ∀ i < z.totPages, 2 ^ orderOf z i ∣ i := by
  rw [initBuddyNew] at h
  simp only [pagesPerBlock_eq] at h
  split at h
  · cases h
  · simp only [Outcome.ok.injEq, Prod.mk.injEq, true_and] at h
    obtain ⟨-, rfl⟩ := h
    intro i hi
    rw [initTopBlocks_totPages, initHeaders_totPages, (initFreeLists_fields _ _).1] at hi
    rw [orderOf, initTopBlocks_header, initHeaders_header hi]
    split
    · next hmem => exact (mem_topLists.mp hmem).2.1
    · exact one_dvd i

theorem runInv_headersOk {n off : ℕ} {s s' : BuddyMemDesc × List ℕ} (hs : ZoneStep s s')
    (hi : RunInv n off s.1 s.2) (hh : HeadersOk s.1) : HeadersOk s'.1 := by
  obtain ⟨fl, hz⟩ := hi.inv
  obtain ⟨fl', hz'⟩ := (runInv_step hs hi).inv
  cases hs with
  | @get z z' handed order b hle h =>
    rw [getBuddyNew, if_neg (not_lt.mpr hle)] at h
    exact hz'.headersOk (aligned_getFrom hz (Nat.sub_le ..) hh.aligned h)
  | @free z z' handed b hb h =>
    have hmem := List.mem_toFinset.mpr hb
    have hfuel : maxOrder < maxOrder + 1 + orderOf z b := by omega
    obtain ⟨z'', hfree, hh'⟩ := hh.freeFrom (hz.handed_lt hmem) (hz.handed_used b hmem) hfuel
    obtain ⟨-, rfl⟩ := Outcome.ok.inj (hfree.symm.trans h)
    exact hh'

theorem ZoneReach.headersOk (h : ZoneReach numPages pfnOffset z handed) : HeadersOk z := by
  obtain ⟨m, m', z₀, z₁, hinit, hrun⟩ := h
  obtain ⟨hz, ht, ho⟩ := initBuddyNew_ok hinit
  have hi : RunInv (numPages / 2 ^ maxOrder * 2 ^ maxOrder) pfnOffset z₁ [] :=
    ⟨⟨_, hz⟩, List.nodup_nil, ht, ho⟩
  have hh : HeadersOk z₁ := hz.headersOk (initBuddyNew_aligned hinit)
  have hall : ∀ s, Relation.ReflTransGen ZoneStep (z₁, []) s →
      RunInv (numPages / 2 ^ maxOrder * 2 ^ maxOrder) pfnOffset s.1 s.2 ∧ HeadersOk s.1 := by
    intro s hs
    induction hs with
    | refl => exact ⟨hi, hh⟩
    | tail _ hstep ih => exact ⟨runInv_step hstep ih.1, runInv_headersOk hstep ih.1 ih.2⟩
  exact (hall _ hrun).2

/-- A release is refused exactly if the header is on a free list. -/
theorem stray_free_caught (h : ZoneReach numPages pfnOffset z handed) (hb : b < z.totPages) :
    (∃ msg, freeBuddyNew b z = .panic msg z) ↔ ∃ o ≤ maxOrder, b ∈ freeListOf z o := by
  obtain ⟨⟨fl, hz⟩, -, -, -⟩ := h.runInv
  have hh := h.headersOk
  constructor
  · rintro ⟨msg, hpanic⟩
    by_contra hnone
    have hused : (z.allBuddies b).free = false := by
      refine Bool.eq_false_iff.mpr fun hf => hnone ⟨orderOf z b, hz.order_le b hb, ?_⟩
      rw [freeListOf_eq hz (hz.order_le b hb)]
      exact (hz.listed _ (hz.order_le b hb) b).mpr ⟨hb, hf, rfl⟩
    have hfuel : maxOrder < maxOrder + 1 + orderOf z b := by omega
    obtain ⟨z', hfree, -⟩ := hh.freeFrom hb hused hfuel
    cases hpanic.symm.trans hfree
  · rintro ⟨o, ho, hmem⟩
    rw [freeListOf_eq hz ho] at hmem
    have hfree := ((hz.listed o ho b).mp hmem).2.1
    have hle : ¬ (z.allBuddies b).order > maxOrder := not_lt.mpr (hz.order_le b hb)
    refine ⟨"Trying to free a free buddy\n", ?_⟩
    rw [freeBuddyNew, freeFrom, if_neg hle, if_pos hfree]

end Runs

theorem stray_free_caught_init :
    ∃ z, ZoneReach 1024 0 z [] ∧ ∃ msg, freeBuddyNew 0 z = .panic msg z := by
  obtain ⟨z, hreach, hz, ht⟩ := zoneReach_init
  have hlt : 0 < z.totPages := ht ▸ by decide
  refine ⟨z, hreach, (stray_free_caught hreach hlt).mpr ⟨maxOrder, le_rfl, ?_⟩⟩
  rw [freeListOf_eq hz le_rfl]
  decide

/-- The upper half was merged away: its header is stale, and a second release goes through. -/
theorem double_free_missed : ∃ z₀ z₁ z₂ z₃ z₄ z₅, ZoneReach 1024 0 z₀ [] ∧
    getBuddyNew 0 z₀ = .ok 0 z₁ ∧ getBuddyNew 0 z₁ = .ok 1 z₂ ∧
    freeBuddyNew 1 z₂ = .ok () z₃ ∧ freeBuddyNew 0 z₃ = .ok () z₄ ∧
    1 < z₄.totPages ∧ freeBuddyNew 1 z₄ = .ok () z₅ := by
  obtain ⟨z₀, hreach, hz₀, ht₀⟩ := zoneReach_init
  have hfirst : (takeLists (maxOrder - 0) (topLists 1)).map Prod.fst = some 0 := by decide
  have hsecond : ((takeLists (maxOrder - 0) (topLists 1)).bind fun r =>
      takeLists (maxOrder - 0) r.2).map Prod.fst = some 1 := by decide
  rcases getBuddyNew_spec hz₀ (Nat.zero_le maxOrder) with
    ⟨p, z₁, fl₁, hget₁, htake₁, hz₁, -⟩ | ⟨-, hnone, -⟩
  swap
  · rw [hnone] at hfirst
    cases hfirst
  rw [htake₁] at hfirst hsecond
  obtain rfl : p = 0 := Option.some.inj hfirst
  rcases getBuddyNew_spec hz₁ (Nat.zero_le maxOrder) with
    ⟨q, z₂, fl₂, hget₂, htake₂, hz₂, -⟩ | ⟨-, hnone, -⟩
  swap
  · rw [Option.bind_some, hnone] at hsecond
    cases hsecond
  rw [Option.bind_some, htake₂] at hsecond
  obtain rfl : q = 1 := Option.some.inj hsecond
  obtain ⟨z₃, fl₃, hfree₃, hz₃, -⟩ := freeBuddyNew_spec hz₂ (Finset.mem_insert_self 1 _)
  have hmem : 0 ∈ (insert 1 (insert 0 (∅ : Finset ℕ))).erase 1 := by decide
  obtain ⟨z₄, fl₄, hfree₄, -, -⟩ := freeBuddyNew_spec hz₃ hmem
  have hreach₂ := (hreach.step (.get (Nat.zero_le _) hget₁)).step (.get (Nat.zero_le _) hget₂)
  have hreach₃ := hreach₂.step (.free (List.mem_cons_self ..) hfree₃)
  have hreach₄ : ZoneReach 1024 0 z₄ [] := hreach₃.step (.free (List.mem_cons_self ..) hfree₄)
  have hi₄ := hreach₄.runInv
  have hlt : 1 < z₄.totPages := hi₄.totPages ▸ by decide
  -- the lists are those of the fresh zone again, and page 1 is on none of them
  have hsame := hi₄.sameFree hreach.runInv (by ext; simp [handedBlocks])
  obtain ⟨fl, hz⟩ := hi₄.inv
  have hused : (z₄.allBuddies 1).free = false := by
    refine Bool.eq_false_iff.mpr fun hf => ?_
    have hle := hz.order_le 1 hlt
    have hlisted := (hz.listed _ hle 1).mpr ⟨hlt, hf, rfl⟩
    rw [← freeListOf_eq hz hle, hsame _ hle 1, freeListOf_eq hz₀ hle, mem_topLists] at hlisted
    exact absurd hlisted.2.1 (by decide)
  have hfuel : maxOrder < maxOrder + 1 + orderOf z₄ 1 := by omega
  obtain ⟨z₅, hfree₅, -⟩ := hreach₄.headersOk.freeFrom hlt hused hfuel
  exact ⟨z₀, z₁, z₂, z₃, z₄, z₅, hreach, hget₁, hget₂, hfree₃, hfree₄, hlt, hfree₅⟩

end X86Osdev.Mem

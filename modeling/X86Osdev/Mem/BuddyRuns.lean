import X86Osdev.Mem.BuddyInvariant

/-! Whole calls of the buddy allocator, and the invariant of every run. -/

namespace X86Osdev.Mem
open CircularList DyadicTiling

structure Keeps (z z' : BuddyMemDesc) (handed : Finset ℕ) : Prop where
  totPages : z'.totPages = z.totPages
  pfnOffset : z'.pfnOffset = z.pfnOffset
  allBuddiesAddr : z'.allBuddiesAddr = z.allBuddiesAddr
  header : ∀ h ∈ handed, z'.allBuddies h = z.allBuddies h

theorem Keeps.refl (z : BuddyMemDesc) (handed : Finset ℕ) : Keeps z z handed :=
  ⟨rfl, rfl, rfl, fun _ _ => rfl⟩

theorem Keeps.trans {z z' z'' : BuddyMemDesc} {handed handed' : Finset ℕ}
    (h : Keeps z z' handed) (h' : Keeps z' z'' handed') (hsub : handed ⊆ handed') :
    Keeps z z'' handed where
  totPages := h'.totPages.trans h.totPages
  pfnOffset := h'.pfnOffset.trans h.pfnOffset
  allBuddiesAddr := h'.allBuddiesAddr.trans h.allBuddiesAddr
  header p hp := (h'.header p (hsub hp)).trans (h.header p hp)

section Calls
variable {z : BuddyMemDesc} {fl : ℕ → List ℕ} {handed : Finset ℕ}

theorem keeps_takeBlock {p : ℕ} (hp : p ∉ handed) : Keeps z (takeBlock p z) handed := by
  refine ⟨rfl, rfl, rfl, fun h hh => ?_⟩
  have hne : h ≠ p := fun e => hp (e ▸ hh)
  simp [takeBlock, BuddyMemDesc.setFree, BuddyMemDesc.listRemove, hne]

theorem keeps_splitBlock {o p : ℕ} (hz : ZoneInv z fl (insert p handed)) (hp : p ∉ handed)
    (hpo : orderOf z p = o + 1) : Keeps z (splitBlock o p z) handed := by
  refine ⟨rfl, rfl, rfl, fun h hh => ?_⟩
  have hpm : p ∈ insert p handed := Finset.mem_insert_self ..
  have hne : h ≠ p := fun e => hp (e ▸ hh)
  have hnq : h ≠ p + 2 ^ o := fun e => splitBlock_half_used hz hpm hpo
    (.inr (e ▸ Finset.mem_insert_of_mem hh))
  have hpfn := hz.pfn p (hz.handed_lt hpm)
  simp only [splitBlock, half_eq, BuddyMemDesc.pfn_setOrder, hpfn]
  simp [BuddyMemDesc.setFree, BuddyMemDesc.setOrder, BuddyMemDesc.listAddHead, hne, hnq]

theorem keeps_mergeBlocks {b q : ℕ} (hq : q ∉ handed) :
    Keeps z (mergeBlocks b q z) (handed.erase b) := by
  refine ⟨rfl, rfl, rfl, fun h hh => ?_⟩
  have hb : h ≠ b := Finset.ne_of_mem_erase hh
  have hq' : h ≠ q := fun e => hq (e ▸ Finset.mem_of_mem_erase hh)
  have hbase : ∀ z', h ≠ baseBiggerBlock b q z' := fun z' => by
    rcases baseBiggerBlock_mem b q z' with e | e <;> rw [e] <;> assumption
  simp [mergeBlocks, BuddyMemDesc.setFree, BuddyMemDesc.setOrder, BuddyMemDesc.listRemove, hb, hq',
    hbase]

theorem keeps_insertBlock {b : ℕ} : Keeps z (insertBlock b z) (handed.erase b) := by
  refine ⟨rfl, rfl, rfl, fun h hh => ?_⟩
  have hb : h ≠ b := Finset.ne_of_mem_erase hh
  simp [insertBlock, BuddyMemDesc.setFree, BuddyMemDesc.listAddHead, hb]

/-- `getFrom` on the sequences that the free lists carry. -/
def takeLists : ℕ → (ℕ → List ℕ) → Option (ℕ × (ℕ → List ℕ))
  | 0, fl =>
    match fl maxOrder with
    | p :: rest => some (p, Function.update fl maxOrder rest)
    | [] => none
  | d + 1, fl =>
    let order := maxOrder - (d + 1)
    match fl order with
    | p :: rest => some (p, Function.update fl order rest)
    | [] => (takeLists d fl).map fun r =>
        (r.1, Function.update r.2 order ((r.1 + 2 ^ order) :: r.2 order))

theorem getFrom_spec (hz : ZoneInv z fl handed) {d : ℕ} (hd : d ≤ maxOrder) :
    (∃ p z' fl', getFrom d z = .ok p z' ∧ takeLists d fl = some (p, fl') ∧
        ZoneInv z' fl' (insert p handed) ∧ p ∉ handed ∧
        orderOf z' p = maxOrder - d ∧ Keeps z z' handed) ∨
      (getFrom d z = .panic "No more buddy blocks available\n" z ∧ takeLists d fl = none ∧
        ∀ o, maxOrder - d ≤ o → o ≤ maxOrder → fl o = []) := by
  -- a non-empty list of the wanted order serves the request at once
  have htake : ∀ {o p : ℕ} {rest : List ℕ}, o ≤ maxOrder → fl o = p :: rest →
      ZoneInv (takeBlock p z) (Function.update fl o rest) (insert p handed) ∧ p ∉ handed ∧
        orderOf (takeBlock p z) p = o ∧ Keeps z (takeBlock p z) handed := by
    intro o p rest ho hfl
    have hmem : p ∈ fl o := hfl ▸ List.mem_cons_self ..
    have hp : p ∉ handed := fun h => hz.handed_notMem h ho hmem
    exact ⟨zoneInv_takeBlock hz ho hfl, hp,
      by rw [orderOf_takeBlock]; exact (hz.mem_freeHeads ho hmem).2, keeps_takeBlock hp⟩
  induction d with
  | zero =>
    have hfirst := firstFree_eq hz.rings (o := maxOrder) le_rfl
    cases hfl : fl maxOrder with
    | nil =>
      refine .inr ⟨?_, ?_, ?_⟩
      · rw [hfl] at hfirst
        simp [getFrom, hfirst]
      · simp only [takeLists, hfl]
      · intro o ho ho'
        have : o = maxOrder := by omega
        rw [this, hfl]
    | cons p rest =>
      rw [hfl] at hfirst
      exact .inl ⟨p, _, _, by simp [getFrom, hfirst], by simp only [takeLists, hfl, Nat.sub_zero],
        htake le_rfl hfl⟩
  | succ d ih =>
    have ho : maxOrder - (d + 1) ≤ maxOrder := Nat.sub_le ..
    have hfirst := firstFree_eq hz.rings ho
    cases hfl : fl (maxOrder - (d + 1)) with
    | cons p rest =>
      rw [hfl] at hfirst
      exact .inl ⟨p, _, _, by simp [getFrom, hfirst], by simp only [takeLists, hfl],
        htake ho hfl⟩
    | nil =>
      rw [hfl] at hfirst
      have hnext : maxOrder - (d + 1) + 1 = maxOrder - d := by omega
      rcases ih (by omega) with ⟨p, z', fl', hget, hlists, hz', hp, hpo, hk⟩ |
        ⟨hpanic, hlists, hempty⟩
      · have hpo' : orderOf z' p = maxOrder - (d + 1) + 1 := by rw [hnext, hpo]
        have hpm : p ∈ insert p handed := Finset.mem_insert_self ..
        refine .inl ⟨p, _, _, by simp [getFrom, hfirst, hget],
          by simp only [takeLists, hfl, hlists, Option.map_some], zoneInv_splitBlock hz' hpm hpo' (by omega), hp, ?_, ?_⟩
        · rw [orderOf_splitBlock hz' hpm, if_pos (.inl rfl)]
        · exact hk.trans (keeps_splitBlock hz' hp hpo') (Finset.Subset.refl _)
      · refine .inr ⟨by simp [getFrom, hfirst, hpanic],
          by simp only [takeLists, hfl, hlists, Option.map_none], fun o hlo hhi => ?_⟩
        rcases Nat.lt_or_ge o (maxOrder - d) with h | h
        · have : o = maxOrder - (d + 1) := by omega
          rw [this, hfl]
        · exact hempty o h hhi

theorem getBuddyNew_order_le {order p : ℕ} (h : getBuddyNew order z = .ok p z') : order ≤ maxOrder := by
  by_contra hgt
  rw [getBuddyNew, if_pos (not_le.mp hgt)] at h
  cases h

theorem getBuddyNew_spec (hz : ZoneInv z fl handed) {order : ℕ} (ho : order ≤ maxOrder) :
    (∃ p z' fl', getBuddyNew order z = .ok p z' ∧ takeLists (maxOrder - order) fl = some (p, fl') ∧
        ZoneInv z' fl' (insert p handed) ∧ p ∉ handed ∧ orderOf z' p = order ∧
        Keeps z z' handed) ∨
      (getBuddyNew order z = .panic "No more buddy blocks available\n" z ∧
        takeLists (maxOrder - order) fl = none ∧ ∀ o, order ≤ o → o ≤ maxOrder → fl o = []) := by
  have h := getFrom_spec hz (d := maxOrder - order) (Nat.sub_le ..)
  rw [show maxOrder - (maxOrder - order) = order by omega] at h
  rwa [getBuddyNew, if_neg (by omega)]

theorem calcMyBuddyNewPfn_eq {b o : ℕ} (hz : ZoneInv z fl handed) (hb : b < z.totPages) :
    calcMyBuddyNewPfn (z.allBuddies b) o = buddy b o := by
  rw [calcMyBuddyNewPfn, buddy, hz.pfn b hb, pagesPerBlock_eq]

/-- The neighbour that `calc_free_buddy` looks at is inside the zone, and it is returned exactly
when it heads a free block of the same order. -/
theorem calcFreeBuddy_spec {b : ℕ} (hz : ZoneInv z fl handed) (hb : b ∈ handed) :
    calcFreeBuddy b z = .ok none z ∧
        (orderOf z b < maxOrder → ¬ (buddy b (orderOf z b) ∈ freeHeads z ∧
          orderOf z (buddy b (orderOf z b)) = orderOf z b)) ∨
      orderOf z b < maxOrder ∧ calcFreeBuddy b z = .ok (some (buddy b (orderOf z b))) z ∧
        buddy b (orderOf z b) ∈ freeHeads z ∧
        orderOf z (buddy b (orderOf z b)) = orderOf z b := by
  have hlt := hz.handed_lt hb
  by_cases hmax : orderOf z b ≥ maxOrder
  · refine .inl ⟨?_, fun h => by omega⟩
    exact if_pos hmax
  · have hwhole : 2 ^ (orderOf z b + 1) ∣ z.totPages :=
      (Nat.pow_dvd_pow 2 (by omega)).trans hz.whole
    have hq := buddy_lt (hz.tiling.aligned b (.inr hb)) hwhole hlt
    have hpos : 0 < 2 ^ orderOf z b := by positivity
    have hqlt : buddy b (orderOf z b) < z.totPages := by omega
    have hpfn := hz.pfn _ hqlt
    have hcalc := calcMyBuddyNewPfn_eq (o := orderOf z b) hz hlt
    have hdef : calcFreeBuddy b z =
        if (z.allBuddies (buddy b (orderOf z b))).free = true ∧
          orderOf z (buddy b (orderOf z b)) = orderOf z b
        then .ok (some (buddy b (orderOf z b))) z else .ok none z := by
      have hmax' : ¬ (z.allBuddies b).order ≥ maxOrder := hmax
      simp only [orderOf] at hcalc hpfn ⊢
      simp only [calcFreeBuddy, if_neg hmax', hcalc, hpfn, ne_eq, not_true_eq_false, if_false]
      rfl
    by_cases hc : (z.allBuddies (buddy b (orderOf z b))).free = true ∧
        orderOf z (buddy b (orderOf z b)) = orderOf z b
    · exact .inr ⟨by omega, by rw [hdef, if_pos hc], ⟨hqlt, hc.1⟩, hc.2⟩
    · exact .inl ⟨by rw [hdef, if_neg hc], fun _ h => hc ⟨h.1.2, h.2⟩⟩

theorem freeFrom_spec {fuel b : ℕ} (hz : ZoneInv z fl handed) (hb : b ∈ handed)
    (hfuel : maxOrder < fuel + orderOf z b) :
    ∃ z' fl', freeFrom fuel b z = .ok () z' ∧ ZoneInv z' fl' (handed.erase b) ∧
      Keeps z z' (handed.erase b) := by
  induction fuel generalizing z fl handed b with
  | zero =>
    have := hz.order_le b (hz.handed_lt hb)
    omega
  | succ fuel ih =>
    have hle : ¬ (z.allBuddies b).order > maxOrder := not_lt.mpr (hz.order_le b (hz.handed_lt hb))
    have hused := hz.handed_used b hb
    have hnot : ¬ (z.allBuddies b).free = true := by
      rw [hused]
      exact Bool.false_ne_true
    unfold freeFrom
    rw [if_neg hle, if_neg hnot]
    rcases calcFreeBuddy_spec hz hb with ⟨hnone, hnb⟩ | ⟨ho, hsome, hqf, hqo⟩
    · rw [hnone]
      exact ⟨_, _, rfl, zoneInv_insertBlock hz hb rfl hnb, keeps_insertBlock⟩
    · rw [hsome, Outcome.bind_ok]
      have hqh : buddy b (orderOf z b) ∉ handed := fun h => Set.disjoint_left.mp hz.disjoint hqf h
      have hz' := zoneInv_mergeBlocks hz hb rfl rfl hqf hqo ho
      have hbo := orderOf_mergeBlocks (q := buddy b (orderOf z b)) (z := z) (b := b) rfl
        (baseBiggerBlock b (buddy b (orderOf z b)) z)
      rw [if_pos rfl] at hbo
      obtain ⟨z'', fl'', hfree, hz'', hk⟩ := ih hz' (Finset.mem_insert_self ..) (by omega)
      have hnot : baseBiggerBlock b (buddy b (orderOf z b)) z ∉ handed.erase b := by
        intro h
        rcases baseBiggerBlock_mem b (buddy b (orderOf z b)) z with e | e <;> rw [e] at h
        · exact Finset.notMem_erase b handed h
        · exact hqh (Finset.mem_of_mem_erase h)
      rw [Finset.erase_insert hnot] at hz'' hk
      exact ⟨z'', fl'', hfree, hz'', (keeps_mergeBlocks hqh).trans hk (Finset.Subset.refl _)⟩

/-- Releasing a handed-out block always returns. -/
theorem freeBuddyNew_spec {b : ℕ} (hz : ZoneInv z fl handed) (hb : b ∈ handed) :
    ∃ z' fl', freeBuddyNew b z = .ok () z' ∧ ZoneInv z' fl' (handed.erase b) ∧
      Keeps z z' (handed.erase b) := freeFrom_spec hz hb (by omega)

end Calls

end X86Osdev.Mem

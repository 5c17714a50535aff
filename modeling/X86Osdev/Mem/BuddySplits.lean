import X86Osdev.Mem.BuddyZone
import Mathlib.Algebra.BigOperators.Intervals
import Mathlib.Tactic.Ring

/-! Which block an allocation takes, what it splits off, and that its release puts everything back. -/

namespace X86Osdev.Mem
open CircularList DyadicTiling

section Take
variable {z z' : BuddyMemDesc} {fl fl' : ℕ → List ℕ} {handed : Finset ℕ} {d o k p : ℕ}

structure TakenLists (fl fl' : ℕ → List ℕ) (o k p : ℕ) : Prop where
  order_le : o ≤ k
  le_max : k ≤ maxOrder
  least : ∀ j, o ≤ j → j < k → fl j = []
  first : fl k = p :: fl' k
  halves : ∀ j, o ≤ j → j < k → fl' j = [p + 2 ^ j]
  others : ∀ j, j < o ∨ k < j → fl' j = fl j

theorem takenLists_first {rest : List ℕ} (ho : o ≤ maxOrder) (hfl : fl o = p :: rest) :
    TakenLists fl (Function.update fl o rest) o o p where
  order_le := le_rfl
  le_max := ho
  least j hoj hjo := absurd hoj (not_le.mpr hjo)
  first := by rw [Function.update_self, hfl]
  halves j hoj hjo := absurd hoj (not_le.mpr hjo)
  others j hj := Function.update_of_ne (by omega) ..

theorem TakenLists.split (h : TakenLists fl fl' (o + 1) k p) (hfl : fl o = []) :
    TakenLists fl (Function.update fl' o ((p + 2 ^ o) :: fl' o)) o k p where
  order_le := (Nat.le_succ o).trans h.order_le
  le_max := h.le_max
  least j hoj hjk := by
    rcases Nat.eq_or_lt_of_le hoj with rfl | hlt
    · exact hfl
    · exact h.least j hlt hjk
  first := by
    have hlt := h.order_le
    rw [Function.update_of_ne (by omega)]
    exact h.first
  halves j hoj hjk := by
    rcases Nat.eq_or_lt_of_le hoj with rfl | hlt
    · rw [Function.update_self, h.others _ (.inl (Nat.lt_succ_self _)), hfl]
    · rw [Function.update_of_ne (by omega)]
      exact h.halves j hlt hjk
  others j hj := by
    have hlt := h.order_le
    rw [Function.update_of_ne (by omega)]
    exact h.others j (by omega)

theorem header_splitBlock {i : ℕ} (hz : ZoneInv z fl handed) (hp : p ∈ handed) (hi : i ≠ p)
    (hq : i ≠ p + 2 ^ o) : (splitBlock o p z).allBuddies i = z.allBuddies i := by
  simp only [splitBlock, half_eq, BuddyMemDesc.pfn_setOrder, hz.pfn p (hz.handed_lt hp)]
  simp [BuddyMemDesc.setFree, BuddyMemDesc.setOrder, BuddyMemDesc.listAddHead, hi, hq]

theorem header_takeBlock {i : ℕ} (hi : i ≠ p) : (takeBlock p z).allBuddies i = z.allBuddies i := by
  simp [takeBlock, BuddyMemDesc.setFree, BuddyMemDesc.listRemove, hi]

theorem getFrom_taken (hz : ZoneInv z fl handed) (hd : d ≤ maxOrder) (hget : getFrom d z = .ok p z') :
    ∃ fl' k, ZoneInv z' fl' (insert p handed) ∧ TakenLists fl fl' (maxOrder - d) k p ∧
      ∀ i, i ≠ p → (∀ j, maxOrder - d ≤ j → j < k → i ≠ p + 2 ^ j) →
        z'.allBuddies i = z.allBuddies i := by
  induction d generalizing p z' with
  | zero =>
    have hfirst := firstFree_eq hz.rings (o := maxOrder) le_rfl
    rw [getFrom, hfirst] at hget
    cases hfl : fl maxOrder with
    | nil =>
      rw [hfl] at hget
      cases hget
    | cons q rest =>
      rw [hfl] at hget
      obtain ⟨rfl, rfl⟩ := Outcome.ok.inj hget
      exact ⟨_, _, zoneInv_takeBlock hz le_rfl hfl, takenLists_first le_rfl hfl,
        fun i hi _ => header_takeBlock hi⟩
  | succ d ih =>
    have ho : maxOrder - (d + 1) ≤ maxOrder := Nat.sub_le ..
    have hnext : maxOrder - d = maxOrder - (d + 1) + 1 := by omega
    rw [getFrom, firstFree_eq hz.rings ho] at hget
    cases hfl : fl (maxOrder - (d + 1)) with
    | cons q rest =>
      rw [hfl] at hget
      obtain ⟨rfl, rfl⟩ := Outcome.ok.inj hget
      exact ⟨_, _, zoneInv_takeBlock hz ho hfl, takenLists_first ho hfl,
        fun i hi _ => header_takeBlock hi⟩
    | nil =>
      -- an empty list: the block comes split from the order above
      rw [hfl] at hget
      obtain ⟨q, z₁, hup, hget⟩ := Outcome.bind_eq_ok.mp hget
      obtain ⟨rfl, rfl⟩ := Outcome.ok.inj hget
      obtain ⟨fl₁, k, hz₁, htaken, hsame⟩ := ih (by omega) hup
      have hq : q ∈ insert q handed := Finset.mem_insert_self ..
      rcases getFrom_spec hz (d := d) (by omega) with ⟨q', z₂, -, hget₂, -, -, -, hqo, -⟩ | ⟨hpanic, -, -⟩
      swap
      · cases hup.symm.trans hpanic
      obtain ⟨rfl, rfl⟩ := Outcome.ok.inj (hup.symm.trans hget₂)
      rw [hnext] at htaken hqo hsame
      refine ⟨_, k, zoneInv_splitBlock hz₁ hq hqo (by omega), htaken.split hfl, fun i hi hhalf => ?_⟩
      have hk := htaken.order_le
      rw [header_splitBlock hz₁ hq hi (hhalf _ le_rfl hk)]
      exact hsame i hi fun j hj hjk => hhalf j (by omega) hjk

theorem getBuddyNew_taken {order : ℕ} (hz : ZoneInv z fl handed) (hget : getBuddyNew order z = .ok p z') :
    ∃ fl' k, ZoneInv z' fl' (insert p handed) ∧ orderOf z' p = order ∧ TakenLists fl fl' order k p ∧
      ∀ i, i ≠ p → (∀ j, order ≤ j → j < k → i ≠ p + 2 ^ j) → z'.allBuddies i = z.allBuddies i := by
  have ho := getBuddyNew_order_le hget
  rcases getBuddyNew_spec hz ho with ⟨q, z₂, -, hget₂, -, -, -, hqo, -⟩ | ⟨hpanic, -, -⟩
  swap
  · cases hget.symm.trans hpanic
  obtain ⟨rfl, rfl⟩ := Outcome.ok.inj (hget.symm.trans hget₂)
  rw [getBuddyNew, if_neg (not_lt.mpr ho)] at hget
  have htaken := getFrom_taken hz (Nat.sub_le ..) hget
  rw [Nat.sub_sub_self ho] at htaken
  obtain ⟨fl', k, hz', htaken, hsame⟩ := htaken
  exact ⟨fl', k, hz', hqo, htaken, hsame⟩

end Take

structure SmallestTaken (z z' : BuddyMemDesc) (order k b : ℕ) : Prop where
  order_le : order ≤ k
  le_max : k ≤ maxOrder
  least : ∀ j, order ≤ j → j < k → freeListOf z j = []
  first : freeListOf z k = b :: freeListOf z' k
  halves : ∀ j, order ≤ j → j < k → freeListOf z' j = [b + 2 ^ j]
  others : ∀ j ≤ maxOrder, j < order ∨ k < j → freeListOf z' j = freeListOf z j
  header : z'.allBuddies b = ⟨order, false, b⟩
  half_header : ∀ j, order ≤ j → j < k → z'.allBuddies (b + 2 ^ j) = ⟨j, true, b + 2 ^ j⟩
  rest : ∀ i, i ≠ b → (∀ j, order ≤ j → j < k → i ≠ b + 2 ^ j) → z'.allBuddies i = z.allBuddies i

section Choice
variable {z z' : BuddyMemDesc} {fl fl' : ℕ → List ℕ} {handed : Finset ℕ} {order b : ℕ}

theorem ZoneInv.header_eq (hz : ZoneInv z fl handed) (hb : b < z.totPages) :
    z.allBuddies b = ⟨orderOf z b, (z.allBuddies b).free, b⟩ := by
  calc z.allBuddies b = ⟨(z.allBuddies b).order, (z.allBuddies b).free, (z.allBuddies b).pfn⟩ := rfl
    _ = ⟨orderOf z b, (z.allBuddies b).free, b⟩ := by rw [hz.pfn b hb]; rfl

theorem smallestTaken (hz : ZoneInv z fl handed) (hget : getBuddyNew order z = .ok b z') :
    ∃ k, SmallestTaken z z' order k b := by
  obtain ⟨fl', k, hz', hbo, ht, hsame⟩ := getBuddyNew_taken hz hget
  have hmax := ht.le_max
  have hb : b ∈ insert b handed := Finset.mem_insert_self ..
  refine ⟨k, ht.order_le, ht.le_max, fun j hj hjk => ?_, ?_, fun j hj hjk => ?_, fun j hj hout => ?_, ?_,
    fun j hj hjk => ?_, hsame⟩
  · rw [freeListOf_eq hz (by omega)]
    exact ht.least j hj hjk
  · rw [freeListOf_eq hz hmax, freeListOf_eq hz' hmax]
    exact ht.first
  · rw [freeListOf_eq hz' (by omega)]
    exact ht.halves j hj hjk
  · rw [freeListOf_eq hz hj, freeListOf_eq hz' hj]
    exact ht.others j hout
  · rw [hz'.header_eq (hz'.handed_lt hb), hbo, hz'.handed_used b hb]
  · have hmem : b + 2 ^ j ∈ fl' j := by
      rw [ht.halves j hj hjk]
      exact List.mem_singleton_self _
    obtain ⟨hlt, hfree, hord⟩ := (hz'.listed j (by omega) _).mp hmem
    rw [hz'.header_eq hlt, hord, hfree]

/-- A request succeeds exactly if some aligned run of its size misses every handed-out block. -/
theorem getBuddyNew_complete (hz : ZoneInv z fl handed) (ho : order ≤ maxOrder) :
    (∃ b z', getBuddyNew order z = .ok b z') ↔ ∃ p, 2 ^ order ∣ p ∧ p + 2 ^ order ≤ z.totPages ∧
      ∀ b ∈ handed, Disjoint (span p order) (span b (z.allBuddies b).order) := by
  constructor
  · rintro ⟨b, z', hget⟩
    rcases getBuddyNew_spec hz ho with ⟨b', z₂, fl', hget₂, -, hz', hb, hbo, hk⟩ | ⟨hpanic, -, -⟩
    swap
    · cases hget.symm.trans hpanic
    obtain ⟨rfl, rfl⟩ := Outcome.ok.inj (hget.symm.trans hget₂)
    have hmem : b ∈ freeHeads z' ∪ ↑(insert b handed) := .inr (Finset.mem_insert_self ..)
    refine ⟨b, hbo ▸ hz'.tiling.aligned b hmem, ?_, fun h hh => ?_⟩
    · rw [← hk.totPages]
      exact hbo ▸ hz'.tiling.below b hmem
    · have hne : b ≠ h := fun e => hb (e ▸ hh)
      have hdisj := hz'.tiling.disjoint b hmem h (.inr (Finset.mem_insert_of_mem hh)) hne
      rw [hbo, orderOf, hk.header h hh] at hdisj
      exact hdisj
  · rintro ⟨p, hal, hle, hmiss⟩
    rcases getBuddyNew_spec hz ho with ⟨b, z', -, hget, -⟩ | ⟨-, -, hempty⟩
    · exact ⟨b, z', hget⟩
    · -- the run lies inside one free block, which is on a list
      obtain ⟨f, hf, hof, -⟩ := exists_free_tile hz.tiling hz.joined ho hal hle hmiss
      have hle := hz.order_le f hf.1
      have hmem := (hz.listed _ hle f).mpr ⟨hf.1, hf.2, rfl⟩
      rw [hempty _ hof hle] at hmem
      exact absurd hmem List.not_mem_nil

def freePages (z : BuddyMemDesc) : ℕ := ∑ j ∈ Finset.range (maxOrder + 1), (freeListOf z j).length * 2 ^ j

theorem sum_halves {o k : ℕ} (h : o ≤ k) : ∑ j ∈ Finset.Ico o k, 2 ^ j + 2 ^ o = 2 ^ k := by
  induction k, h using Nat.le_induction with
  | base => simp
  | succ k hle ih =>
    rw [Finset.sum_Ico_succ_top hle, pow_succ]
    omega

/-- The halves that are split off make up for the block, but for the pages that are handed out. -/
theorem SmallestTaken.freePages {z z' : BuddyMemDesc} {order k b : ℕ} (h : SmallestTaken z z' order k b) :
    Mem.freePages z = Mem.freePages z' + 2 ^ order := by
  have hmax := h.le_max
  have hle := h.order_le
  have hcount : ∀ j ∈ Finset.range (maxOrder + 1), (freeListOf z j).length * 2 ^ j +
      (if j ∈ Finset.Ico order k then 2 ^ j else 0) =
        (freeListOf z' j).length * 2 ^ j + if j = k then 2 ^ j else 0 := by
    intro j hj
    have hj := Finset.mem_range.mp hj
    by_cases hhalf : j ∈ Finset.Ico order k
    · obtain ⟨hoj, hjk⟩ := Finset.mem_Ico.mp hhalf
      rw [if_pos hhalf, if_neg hjk.ne, h.least j hoj hjk, h.halves j hoj hjk]
      simp
    · rw [if_neg hhalf]
      rw [Finset.mem_Ico] at hhalf
      by_cases hjk : j = k
      · rw [if_pos hjk, hjk, h.first, List.length_cons]
        ring
      · rw [if_neg hjk, h.others j (by omega) (by omega)]
  have hsum := Finset.sum_congr rfl hcount
  have hsub : (Finset.range (maxOrder + 1)).filter (· ∈ Finset.Ico order k) = Finset.Ico order k := by
    ext j
    simp only [Finset.mem_filter, Finset.mem_range, Finset.mem_Ico]
    omega
  rw [Finset.sum_add_distrib, Finset.sum_add_distrib, ← Finset.sum_filter, hsub, Finset.sum_ite_eq',
    if_pos (Finset.mem_range.mpr (by omega))] at hsum
  have hhalves := sum_halves hle
  unfold Mem.freePages
  omega

theorem RunInv.getBuddyNew_page {n off : ℕ} {handed : List ℕ} (hi : RunInv n off z handed) :
    (∃ p z', getBuddyNew 0 z = .ok p z' ∧ p < n ∧ p ∉ handed ∧ (z'.allBuddies p).pfn = p ∧
        RunInv n off z' (p :: handed) ∧ freePages z = freePages z' + 1) ∨
      getBuddyNew 0 z = .panic "No more buddy blocks available\n" z ∧ freePages z = 0 := by
  obtain ⟨⟨fl, hz⟩, hnd, ht, ho⟩ := hi
  rcases getBuddyNew_spec hz (Nat.zero_le maxOrder) with
    ⟨p, z', fl', hget, -, hz', hp, -, hk⟩ | ⟨hpanic, -, hempty⟩
  · have hlt : p < z'.totPages := hz'.handed_lt (Finset.mem_insert_self p _)
    have hp : p ∉ handed := fun hm => hp (List.mem_toFinset.mpr hm)
    have hn : p < n := by rwa [hk.totPages, ht] at hlt
    obtain ⟨k, htaken⟩ := smallestTaken hz hget
    refine .inl ⟨p, z', hget, hn, hp, hz'.pfn p hlt, ⟨⟨fl', ?_⟩, List.nodup_cons.mpr ⟨hp, hnd⟩,
      hk.totPages.trans ht, hk.pfnOffset.trans ho⟩, htaken.freePages⟩
    rw [List.toFinset_cons]
    exact hz'
  · refine .inr ⟨hpanic, Finset.sum_eq_zero fun j hj => ?_⟩
    have hj := Nat.lt_succ_iff.mp (Finset.mem_range.mp hj)
    rw [freeListOf_eq hz hj, hempty j (Nat.zero_le j) hj]
    exact Nat.zero_mul _

end Choice

/-- Allocation finds a run whenever there is one, and takes it from the smallest block that serves. -/
theorem buddy_allocation {numPages pfnOffset order : ℕ} {z : BuddyMemDesc} {handed : List ℕ}
    (h : ZoneReach numPages pfnOffset z handed) (ho : order ≤ maxOrder) :
    ((∃ b z', getBuddyNew order z = .ok b z') ↔ ∃ p, 2 ^ order ∣ p ∧ p + 2 ^ order ≤ z.totPages ∧
      ∀ b ∈ handed, Disjoint (span p order) (span b (z.allBuddies b).order)) ∧
    ∀ b z', getBuddyNew order z = .ok b z' → ∃ k, SmallestTaken z z' order k b := by
  obtain ⟨⟨fl, hz⟩, -, -, -⟩ := h.runInv
  refine ⟨?_, fun b z' hget => smallestTaken hz hget⟩
  rw [getBuddyNew_complete hz ho]
  simp only [List.mem_toFinset]

theorem buddy_allocation_init : ∃ z b z' k, ZoneReach 1024 0 z [] ∧ getBuddyNew 0 z = .ok b z' ∧
    SmallestTaken z z' 0 k b := by
  obtain ⟨z, hreach, -, ht⟩ := zoneReach_init
  obtain ⟨hcomplete, htaken⟩ := buddy_allocation hreach (Nat.zero_le maxOrder)
  have hroom : 0 + 2 ^ 0 ≤ z.totPages := ht ▸ by decide
  obtain ⟨b, z', hget⟩ := hcomplete.mpr ⟨0, dvd_zero _, hroom, fun b hb => absurd hb List.not_mem_nil⟩
  obtain ⟨k, hk⟩ := htaken b z' hget
  exact ⟨z, b, z', k, hreach, hget, hk⟩

section PutBack
variable {z z' : BuddyMemDesc} {fl fl' : ℕ → List ℕ} {handed : Finset ℕ} {o k b fuel : ℕ}

/-- The lists after the halves of the block `b` of order `o` have been merged up to order `k`. -/
def putBack (o k b : ℕ) (fl : ℕ → List ℕ) (j : ℕ) : List ℕ :=
  if j = k then b :: fl j else if o ≤ j ∧ j < k then (fl j).tail else fl j

theorem putBack_self (k b : ℕ) (fl : ℕ → List ℕ) :
    putBack k k b fl = Function.update fl k (b :: fl k) := by
  funext j
  by_cases h : j = k
  · subst h
    rw [putBack, if_pos rfl, Function.update_self]
  · rw [putBack, if_neg h, if_neg (by omega), Function.update_of_ne h]

theorem putBack_succ (h : o < k) (b : ℕ) (fl : ℕ → List ℕ) :
    putBack (o + 1) k b (Function.update fl o (fl o).tail) = putBack o k b fl := by
  funext j
  unfold putBack
  by_cases hjo : j = o
  · subst hjo
    rw [Function.update_self, if_neg (by omega), if_neg (by omega), if_neg (by omega), if_pos (by omega)]
  · have hrange : o + 1 ≤ j ∧ j < k ↔ o ≤ j ∧ j < k := by omega
    rw [Function.update_of_ne hjo]
    simp only [hrange]

/-- The merges of a release, from the order `o` of `b` up to the order at which no buddy is free. -/
theorem freeFrom_putBack (hz : ZoneInv z fl handed) (hb : b ∈ handed) (hbo : orderOf z b = o)
    (hok : o ≤ k) (hk : k ≤ maxOrder) (hal : 2 ^ k ∣ b) (hfuel : maxOrder < fuel + o)
    (hhalves : ∀ j, o ≤ j → j < k → fl j = [b + 2 ^ j]) (hstop : k < maxOrder → buddy b k ∉ fl k) :
    ∃ z', freeFrom fuel b z = .ok () z' ∧ ZoneInv z' (putBack o k b fl) (handed.erase b) ∧
      orderOf z' b = k := by
  induction fuel generalizing z fl handed o with
  | zero => omega
  | succ fuel ih =>
    have hle : ¬ (z.allBuddies b).order > maxOrder := not_lt.mpr (hz.order_le b (hz.handed_lt hb))
    have hused := hz.handed_used b hb
    have hnot : ¬ (z.allBuddies b).free = true := by
      rw [hused]
      exact Bool.false_ne_true
    unfold freeFrom
    rw [if_neg hle, if_neg hnot]
    rcases Nat.eq_or_lt_of_le hok with rfl | hlt
    · -- at the order of the block that was split the buddy is not free
      have hnb : o < maxOrder → ¬ (buddy b o ∈ freeHeads z ∧ orderOf z (buddy b o) = o) := by
        intro ho hfree
        exact hstop ho ((hz.listed o hk _).mpr ⟨hfree.1.1, hfree.1.2, hfree.2⟩)
      rcases calcFreeBuddy_spec hz hb with ⟨hnone, -⟩ | ⟨ho, -, hqf, hqo⟩
      · rw [hnone, putBack_self]
        refine ⟨_, rfl, zoneInv_insertBlock hz hb hbo hnb, ?_⟩
        rw [orderOf_insertBlock, hbo]
      · rw [hbo] at ho hqf hqo
        exact absurd ⟨hqf, hqo⟩ (hnb ho)
    · -- below it the buddy is the upper half, alone on its list, and `b` stays the base of the merge
      have hup : 2 ^ (o + 1) ∣ b := (Nat.pow_dvd_pow 2 hlt).trans hal
      have hbuddy : buddy b o = b + 2 ^ o := buddy_even hup
      have hmem : b + 2 ^ o ∈ fl o := by
        rw [hhalves o le_rfl hlt]
        exact List.mem_singleton_self _
      obtain ⟨hqf, hqo⟩ := hz.mem_freeHeads (hok.trans hk) hmem
      rcases calcFreeBuddy_spec hz hb with ⟨-, hnb⟩ | ⟨ho, hsome, -, -⟩
      · rw [hbo, hbuddy] at hnb
        exact absurd ⟨hqf, hqo⟩ (hnb (by omega))
      · rw [hbo, hbuddy] at hsome
        rw [hbo] at ho
        rw [hsome, Outcome.bind_ok]
        have hpos : 0 < 2 ^ o := by positivity
        have hbase : baseBiggerBlock b (b + 2 ^ o) z = b := by
          rcases baseBiggerBlock_cases hz hb hbo hbuddy.symm hqf with ⟨h, -⟩ | ⟨-, h, -⟩
          · exact h
          · omega
        have hz' := zoneInv_mergeBlocks hz hb hbo hbuddy.symm hqf hqo ho
        have hbo' := orderOf_mergeBlocks (q := b + 2 ^ o) (z := z) (b := b) hbo b
        rw [hbase, Finset.insert_erase hb] at hz'
        rw [if_pos hbase.symm] at hbo'
        have htail : (fl o).erase (b + 2 ^ o) = (fl o).tail := by
          rw [hhalves o le_rfl hlt, List.erase_cons_head, List.tail_cons]
        rw [htail] at hz'
        have hnext := ih hz' hb hbo' hlt (by omega) (fun j hj hjk => ?_) (fun ho => ?_)
        · rw [putBack_succ hlt] at hnext
          dsimp only
          rw [hbase]
          exact hnext
        · rw [Function.update_of_ne (by omega)]
          exact hhalves j (by omega) hjk
        · rw [Function.update_of_ne (by omega)]
          exact hstop ho

theorem TakenLists.putBack_eq (h : TakenLists fl fl' o k b) : putBack o k b fl' = fl := by
  funext j
  unfold putBack
  split
  · next hj => rw [hj, h.first]
  · split
    · next hj => rw [h.halves j hj.1 hj.2, h.least j hj.1 hj.2, List.tail_cons]
    · exact h.others j (by omega)

theorem freeBuddyNew_getBuddyNew {order : ℕ} (hz : ZoneInv z fl handed) (hb : b ∉ handed)
    (hget : getBuddyNew order z = .ok b z') :
    ∃ z'', freeBuddyNew b z' = .ok () z'' ∧ ZoneInv z'' fl handed ∧ orderOf z'' b = orderOf z b := by
  obtain ⟨fl', k, hz', hbo, ht, -⟩ := getBuddyNew_taken hz hget
  have hmem : b ∈ fl k := by
    rw [ht.first]
    exact List.mem_cons_self ..
  obtain ⟨hbf, hbk⟩ := hz.mem_freeHeads ht.le_max hmem
  have hal : 2 ^ k ∣ b := hbk ▸ hz.tiling.aligned b (.inl hbf)
  -- the buddy of the split block is not free, because free buddies have been joined
  have hstop : k < maxOrder → buddy b k ∉ fl' k := by
    intro hk hq
    have hqk : buddy b k ∈ fl k := by
      rw [ht.first]
      exact List.mem_cons_of_mem _ hq
    obtain ⟨hqf, hqo⟩ := hz.mem_freeHeads ht.le_max hqk
    subst hbk
    exact hz.joined b hbf hk ⟨hqf, hqo⟩
  have hfuel : maxOrder < maxOrder + 1 + order := by omega
  obtain ⟨z'', hfree, hz'', hk⟩ := freeFrom_putBack hz' (Finset.mem_insert_self ..) hbo ht.order_le
    ht.le_max hal hfuel ht.halves hstop
  rw [ht.putBack_eq, Finset.erase_insert hb] at hz''
  exact ⟨z'', hfree, hz'', hk.trans hbk.symm⟩

end PutBack

/-- A release right after its allocation restores every list, and merges up to the block that was split. -/
theorem free_undoes_get {numPages pfnOffset order b : ℕ} {z z' : BuddyMemDesc} {handed : List ℕ}
    (h : ZoneReach numPages pfnOffset z handed) (hget : getBuddyNew order z = .ok b z') :
    ∃ z'', freeBuddyNew b z' = .ok () z'' ∧ (∀ o ≤ maxOrder, freeListOf z'' o = freeListOf z o) ∧
      ZoneReach numPages pfnOffset z'' handed ∧
      (∀ p ∈ handed, z''.allBuddies p = z.allBuddies p) ∧
      (z''.allBuddies b).order = (z.allBuddies b).order ∧ (z''.allBuddies b).free = true := by
  obtain ⟨⟨fl, hz⟩, -, -, -⟩ := h.runInv
  have ho := getBuddyNew_order_le hget
  rcases getBuddyNew_spec hz ho with ⟨b', z₁, fl₁, hget₁, -, hz₁, hb, -, hkeep₁⟩ | ⟨hpanic, -, -⟩
  swap
  · cases hget.symm.trans hpanic
  obtain ⟨rfl, rfl⟩ := Outcome.ok.inj (hget.symm.trans hget₁)
  obtain ⟨z'', hfree, hz'', hbo⟩ := freeBuddyNew_getBuddyNew hz hb hget
  obtain ⟨z₂, fl₂, hfree₂, -, hkeep₂⟩ := freeBuddyNew_spec hz₁ (Finset.mem_insert_self b _)
  obtain ⟨-, rfl⟩ := Outcome.ok.inj (hfree.symm.trans hfree₂)
  rw [Finset.erase_insert hb] at hkeep₂
  have hreach := (h.step (.get ho hget)).step (.free (List.mem_cons_self ..) hfree)
  rw [List.erase_cons_head] at hreach
  refine ⟨z'', hfree, fun o ho => ?_, hreach, fun p hp => ?_, hbo, ?_⟩
  · rw [freeListOf_eq hz ho, freeListOf_eq hz'' ho]
  · have hp' := List.mem_toFinset.mpr hp
    exact (hkeep₂.header p hp').trans (hkeep₁.header p hp')
  · obtain ⟨k, ht⟩ := smallestTaken hz hget
    have hmem : b ∈ fl k := by
      rw [← freeListOf_eq hz ht.le_max, ht.first]
      exact List.mem_cons_self ..
    exact ((hz''.listed k ht.le_max b).mp hmem).2.1

theorem free_undoes_first_get : ∃ z b z' z'', ZoneReach 1024 0 z [] ∧ getBuddyNew 0 z = .ok b z' ∧
    freeBuddyNew b z' = .ok () z'' ∧ ∀ o ≤ maxOrder, freeListOf z'' o = freeListOf z o := by
  obtain ⟨z, hreach, hz, ht⟩ := zoneReach_init
  rcases getBuddyNew_spec hz (Nat.zero_le maxOrder) with ⟨b, z', -, hget, -⟩ | ⟨-, -, hempty⟩
  · obtain ⟨z'', hfree, hlists, -⟩ := free_undoes_get hreach hget
    exact ⟨z, b, z', z'', hreach, hget, hfree, hlists⟩
  · exact absurd (hempty maxOrder (Nat.zero_le _) le_rfl) (by decide)

end X86Osdev.Mem

import X86Osdev.Mem.Buddy
import Mathlib.Data.Finset.Basic

/-! What every step of the buddy allocator preserves: the free lists are rings that
hold exactly the free headers, and the free and handed-out blocks tile the zone. -/

namespace X86Osdev.Mem
open CircularList DyadicTiling

def freeListHeads (o : Fin (maxOrder + 1)) : FreeNode := .freeLists o

def freeListNodes (fl : ℕ → List ℕ) (o : Fin (maxOrder + 1)) : List FreeNode :=
  (fl o).map FreeNode.freeList

/-- First pages of the free blocks, read off the headers. -/
def freeHeads (z : BuddyMemDesc) : Set ℕ := {p | p < z.totPages ∧ (z.allBuddies p).free = true}

def orderOf (z : BuddyMemDesc) (p : ℕ) : ℕ := (z.allBuddies p).order

structure ZoneInv (z : BuddyMemDesc) (fl : ℕ → List ℕ) (handed : Finset ℕ) : Prop where
  rings : Rings z.links freeListHeads (freeListNodes fl)
  pfn : ∀ i < z.totPages, (z.allBuddies i).pfn = i
  listed : ∀ o ≤ maxOrder, ∀ p,
    p ∈ fl o ↔ p < z.totPages ∧ (z.allBuddies p).free = true ∧ orderOf z p = o
  handed_used : ∀ p ∈ handed, (z.allBuddies p).free = false
  order_le : ∀ p < z.totPages, orderOf z p ≤ maxOrder
  tiling : Tiling z.totPages (freeHeads z ∪ ↑handed) (orderOf z)
  joined : Joined maxOrder (freeHeads z) (orderOf z)
  whole : 2 ^ maxOrder ∣ z.totPages

section Nodes
variable {z : BuddyMemDesc} {fl : ℕ → List ℕ} {handed : Finset ℕ} {o p : ℕ}

theorem freeListNodes_update (fl : ℕ → List ℕ) (o : Fin (maxOrder + 1)) (ps : List ℕ) :
    freeListNodes (Function.update fl o ps) =
      Function.update (freeListNodes fl) o (ps.map FreeNode.freeList) := by
  funext j
  simp only [freeListNodes, Function.update_apply, Fin.val_inj]
  split <;> rfl

theorem mem_freeListNodes {o : Fin (maxOrder + 1)} :
    FreeNode.freeList p ∈ freeListHeads o :: freeListNodes fl o ↔ p ∈ fl o := by
  simp [freeListHeads, freeListNodes]

theorem nodup_freeList (hr : Rings z.links freeListHeads (freeListNodes fl))
    (ho : o ≤ maxOrder) : (fl o).Nodup := by
  have h := (List.nodup_cons.mp (hr.carries ⟨o, by omega⟩).nodup).2
  exact List.Nodup.of_map _ h

theorem firstFree_eq (hr : Rings z.links freeListHeads (freeListNodes fl))
    (ho : o ≤ maxOrder) : firstFree z o = (fl o).head? := by
  have h := (hr.carries ⟨o, by omega⟩).next_head
  change z.links.next (.freeLists o) = ((fl o).map FreeNode.freeList).headD (.freeLists o) at h
  rw [firstFree, h]
  cases fl o <;> rfl

theorem rings_listAddHead (hr : Rings z.links freeListHeads (freeListNodes fl)) (ho : o ≤ maxOrder)
    (hp : ∀ j ≤ maxOrder, p ∉ fl j) :
    Rings (z.listAddHead o p).links freeListHeads
      (freeListNodes (Function.update fl o (p :: fl o))) := by
  have h := hr.listAddHead ⟨o, by omega⟩ (n := .freeList p) fun j => by
    rw [mem_freeListNodes]
    exact hp j (by omega)
  rw [show o = ((⟨o, by omega⟩ : Fin (maxOrder + 1)) : ℕ) from rfl, freeListNodes_update]
  exact h

theorem rings_listRemove (hr : Rings z.links freeListHeads (freeListNodes fl)) (ho : o ≤ maxOrder)
    (hp : p ∈ fl o) :
    Rings (z.listRemove p).links freeListHeads
      (freeListNodes (Function.update fl o ((fl o).erase p))) := by
  have h := hr.listRemove (i := ⟨o, by omega⟩) (n := .freeList p)
    (List.mem_map_of_mem (f := FreeNode.freeList) hp)
  have he : (freeListNodes fl ⟨o, by omega⟩).erase (.freeList p) =
      ((fl o).erase p).map FreeNode.freeList :=
    (List.map_erase (fun _ _ => FreeNode.freeList.inj) (fl o)).symm
  rw [he] at h
  rw [show o = ((⟨o, by omega⟩ : Fin (maxOrder + 1)) : ℕ) from rfl, freeListNodes_update]
  exact h

end Nodes

section Steps
variable {z : BuddyMemDesc} {fl : ℕ → List ℕ} {handed : Finset ℕ} {o p b : ℕ}

theorem ZoneInv.mem_freeHeads (hz : ZoneInv z fl handed) (ho : o ≤ maxOrder) (hp : p ∈ fl o) :
    p ∈ freeHeads z ∧ orderOf z p = o := by
  obtain ⟨hlt, hf, hor⟩ := (hz.listed o ho p).mp hp
  exact ⟨⟨hlt, hf⟩, hor⟩

theorem ZoneInv.handed_lt (hz : ZoneInv z fl handed) (hb : b ∈ handed) : b < z.totPages :=
  hz.tiling.lt (.inr hb)

theorem ZoneInv.handed_notMem (hz : ZoneInv z fl handed) (hb : b ∈ handed) (ho : o ≤ maxOrder) :
    b ∉ fl o := by
  intro h
  have hf := ((hz.listed o ho b).mp h).2.1
  rw [hz.handed_used b hb] at hf
  exact Bool.noConfusion hf

theorem ZoneInv.disjoint (hz : ZoneInv z fl handed) : Disjoint (freeHeads z) (↑handed : Set ℕ) := by
  rw [Set.disjoint_left]
  intro p hp hh
  have hf := hp.2
  rw [hz.handed_used p hh] at hf
  exact Bool.noConfusion hf

@[simp] theorem orderOf_takeBlock : orderOf (takeBlock p z) = orderOf z := by
  funext x
  simp [orderOf, takeBlock]

@[simp] theorem totPages_takeBlock : (takeBlock p z).totPages = z.totPages := rfl

theorem freeHeads_takeBlock : freeHeads (takeBlock p z) = freeHeads z \ {p} := by
  ext x
  simp only [freeHeads, takeBlock, BuddyMemDesc.allBuddies_listRemove, BuddyMemDesc.free_setFree,
    BuddyMemDesc.totPages_listRemove, BuddyMemDesc.totPages_setFree, Set.mem_ofPred_eq,
    Set.mem_sdiff, Set.mem_singleton_iff]
  by_cases h : x = p <;> simp [h]

theorem zoneInv_takeBlock (hz : ZoneInv z fl handed) (ho : o ≤ maxOrder) {rest : List ℕ}
    (hfl : fl o = p :: rest) :
    ZoneInv (takeBlock p z) (Function.update fl o rest) (insert p handed) := by
  have hmem : p ∈ fl o := hfl ▸ List.mem_cons_self ..
  obtain ⟨hpf, hpo⟩ := hz.mem_freeHeads ho hmem
  have hnd : (p :: rest).Nodup := hfl ▸ nodup_freeList hz.rings ho
  -- The block goes from the free ones to those handed out, so the tiles are the same.
  have hheads : freeHeads (takeBlock p z) ∪ ↑(insert p handed) = freeHeads z ∪ ↑handed := by
    rw [freeHeads_takeBlock]
    ext x
    by_cases h : x = p <;> simp [h, hpf]
  constructor
  · have hr := rings_listRemove hz.rings ho hmem
    rw [hfl, List.erase_cons_head] at hr
    exact hr
  · intro i hi
    simpa [takeBlock] using hz.pfn i hi
  · intro j hj x
    have hx := hz.listed j hj x
    rw [orderOf_takeBlock]
    simp only [takeBlock, BuddyMemDesc.allBuddies_listRemove, BuddyMemDesc.free_setFree,
      BuddyMemDesc.totPages_listRemove, BuddyMemDesc.totPages_setFree]
    by_cases hjo : j = o
    · subst hjo
      rw [hfl] at hx
      rw [Function.update_self]
      by_cases hxp : x = p
      · subst hxp
        simpa using (List.nodup_cons.mp hnd).1
      · simpa [hxp] using hx
    · rw [Function.update_of_ne hjo, hx]
      by_cases hxp : x = p
      · subst hxp
        simp [hpo, Ne.symm hjo]
      · simp [hxp]
  · intro x hx
    simp only [takeBlock, BuddyMemDesc.allBuddies_listRemove, BuddyMemDesc.free_setFree]
    by_cases hxp : x = p
    · simp [hxp]
    · simp only [hxp, if_false]
      exact hz.handed_used x ((Finset.mem_insert.mp hx).resolve_left hxp)
  · intro x hx
    rw [orderOf_takeBlock]
    exact hz.order_le x hx
  · rw [hheads, orderOf_takeBlock]
    exact hz.tiling
  · rw [freeHeads_takeBlock, orderOf_takeBlock]
    exact fun x hx hlt hb => hz.joined x hx.1 hlt ⟨hb.1.1, hb.2⟩
  · exact hz.whole

theorem half_eq (o : ℕ) : pagesPerBlock (o + 1) / 2 = 2 ^ o := by
  rw [pagesPerBlock_eq, pow_succ, Nat.mul_div_cancel _ (by norm_num)]

section Split
variable (hz : ZoneInv z fl handed) (hp : p ∈ handed) (hpo : orderOf z p = o + 1)
include hz hp

theorem links_splitBlock : (splitBlock o p z).links = (z.listAddHead o (p + 2 ^ o)).links := by
  simp only [splitBlock, half_eq, BuddyMemDesc.pfn_setOrder, hz.pfn p (hz.handed_lt hp)]
  rfl

theorem orderOf_splitBlock (x : ℕ) :
    orderOf (splitBlock o p z) x = if x = p ∨ x = p + 2 ^ o then o else orderOf z x := by
  have hpos : 0 < 2 ^ o := by positivity
  simp only [orderOf, splitBlock, half_eq, hz.pfn p (hz.handed_lt hp), BuddyMemDesc.order_setFree,
    BuddyMemDesc.order_setOrder, BuddyMemDesc.pfn_setOrder, BuddyMemDesc.allBuddies_listAddHead]
  by_cases h₁ : x = p
  · simp [h₁]
  · by_cases h₂ : x = p + 2 ^ o <;> simp [h₁, h₂]

theorem free_splitBlock (x : ℕ) : ((splitBlock o p z).allBuddies x).free =
    if x = p + 2 ^ o then true else (z.allBuddies x).free := by
  have hpos : 0 < 2 ^ o := by positivity
  simp only [splitBlock, half_eq, hz.pfn p (hz.handed_lt hp), BuddyMemDesc.free_setFree,
    BuddyMemDesc.free_setOrder, BuddyMemDesc.pfn_setOrder, BuddyMemDesc.allBuddies_listAddHead]
  by_cases h₁ : x = p
  · simp [h₁, hz.handed_used p hp]
  · by_cases h₂ : x = p + 2 ^ o <;> simp [h₁, h₂]

include hpo

theorem splitBlock_half_lt : p + 2 ^ o < z.totPages := by
  have hb := hz.tiling.below p (.inr hp)
  have h₁ : 2 ^ (o + 1) = 2 ^ o + 2 ^ o := by ring
  have h₂ : 0 < 2 ^ o := by positivity
  rw [hpo] at hb
  omega

theorem splitBlock_half_used : p + 2 ^ o ∉ freeHeads z ∪ ↑handed :=
  hz.tiling.half_notMem (.inr hp) hpo

theorem freeHeads_splitBlock :
    freeHeads (splitBlock o p z) = insert (p + 2 ^ o) (freeHeads z) := by
  have hlt := splitBlock_half_lt hz hp hpo
  ext x
  simp only [freeHeads, free_splitBlock (o := o) hz hp, Set.mem_ofPred_eq, Set.mem_insert_iff]
  change x < z.totPages ∧ _ ↔ _
  by_cases h : x = p + 2 ^ o <;> simp [h, hlt]

theorem zoneInv_splitBlock (ho : o < maxOrder) :
    ZoneInv (splitBlock o p z) (Function.update fl o ((p + 2 ^ o) :: fl o)) handed := by
  have hlt := splitBlock_half_lt hz hp hpo
  have hhalf := splitBlock_half_used hz hp hpo
  have hpos : 0 < 2 ^ o := by positivity
  have hord := orderOf_splitBlock (o := o) hz hp
  have hfree := free_splitBlock (o := o) hz hp
  have hunlisted : ∀ j ≤ maxOrder, p + 2 ^ o ∉ fl j := fun j hj h =>
    hhalf (.inl (hz.mem_freeHeads hj h).1)
  have hsame : ∀ x ∈ freeHeads z ∪ ↑handed, x ≠ p → orderOf (splitBlock o p z) x = orderOf z x := by
    intro x hx hxp
    have hxq : x ≠ p + 2 ^ o := fun e => hhalf (e ▸ hx)
    simp [hord, hxp, hxq]
  constructor
  · rw [links_splitBlock hz hp]
    exact rings_listAddHead hz.rings ho.le hunlisted
  · intro i hi
    simpa [splitBlock] using hz.pfn i hi
  · intro j hj x
    have hx := hz.listed j hj x
    change _ ↔ x < z.totPages ∧ _
    rw [hfree, hord]
    by_cases hxq : x = p + 2 ^ o
    · subst hxq
      by_cases hjo : j = o
      · subst hjo
        simp [hlt]
      · simp [Function.update_of_ne hjo, hunlisted j hj, Ne.symm hjo]
    · have hmem : x ∈ Function.update fl o ((p + 2 ^ o) :: fl o) j ↔ x ∈ fl j := by
        by_cases hjo : j = o
        · subst hjo
          simp [hxq]
        · rw [Function.update_of_ne hjo]
      rw [hmem, hx]
      by_cases hxp : x = p
      · subst hxp
        simp [hz.handed_used x hp]
      · simp [hxp, hxq]
  · intro x hx
    have hxq : x ≠ p + 2 ^ o := fun e => hhalf (.inr (e ▸ hx))
    simpa [hfree, hxq] using hz.handed_used x hx
  · intro x hx
    rw [hord]
    split
    · exact ho.le
    · exact hz.order_le x hx
  · rw [freeHeads_splitBlock hz hp hpo, Set.insert_union]
    exact hz.tiling.split (.inr hp) hpo (by simp [hord]) (by simp [hord]) hsame
  · -- the buddy of the new free half is the half that stays handed out
    rw [freeHeads_splitBlock hz hp hpo]
    have hal : 2 ^ (o + 1) ∣ p := hpo ▸ hz.tiling.aligned p (.inr hp)
    have hdisj := Set.disjoint_left.mp hz.disjoint
    have hbuddy : buddy (p + 2 ^ o) o = p := by
      rw [← buddy_even hal]
      exact buddy_buddy ((Nat.pow_dvd_pow 2 (Nat.le_succ o)).trans hal)
    rintro x (rfl | hx) hxM ⟨hb, hbo⟩
    · have hxo : orderOf (splitBlock o p z) (p + 2 ^ o) = o := by simp [hord]
      rw [hxo, hbuddy] at hb
      rcases hb with hb | hb
      · omega
      · exact hdisj hb hp
    · have hxp : x ≠ p := fun e => hdisj hx (e ▸ hp)
      rw [hsame x (.inl hx) hxp] at hb hbo hxM
      rcases hb with hb | hb
      · -- then `x` has the order of the half, so `x` is the handed-out half itself
        rw [hb, hord, if_pos (.inr rfl)] at hbo
        rw [← hbo] at hb
        have hxb := buddy_buddy (hbo ▸ hz.tiling.aligned x (.inl hx))
        rw [hb, hbuddy] at hxb
        exact hxp hxb.symm
      · have hbp : buddy x (orderOf z x) ≠ p := fun e => hdisj hb (e ▸ hp)
        exact hz.joined x hx hxM ⟨hb, (hsame _ (.inl hb) hbp) ▸ hbo⟩
  · exact hz.whole

end Split

section Merge
variable {q : ℕ} (hz : ZoneInv z fl handed) (hb : b ∈ handed) (hbo : orderOf z b = o)
  (hq : q = buddy b o) (hqf : q ∈ freeHeads z) (hqo : orderOf z q = o) (ho : o < maxOrder)
include hz hb hbo hq hqf

theorem baseBiggerBlock_cases :
    (baseBiggerBlock b q z = b ∧ q = b + 2 ^ o ∧ 2 ^ (o + 1) ∣ b) ∨
      (baseBiggerBlock b q z = q ∧ b = q + 2 ^ o ∧ 2 ^ (o + 1) ∣ q) := by
  have hpos : 0 < 2 ^ o := by positivity
  have hbp := hz.pfn b (hz.handed_lt hb)
  have hqp := hz.pfn q hqf.1
  have hal : 2 ^ o ∣ b := hbo ▸ hz.tiling.aligned b (.inr hb)
  rcases buddy_cases hal with ⟨hd, he⟩ | ⟨hd, he⟩
  · rw [← hq] at he
    refine .inl ⟨?_, he, hd⟩
    rw [baseBiggerBlock, hbp, hqp, if_neg (by omega)]
  · rw [← hq] at hd he
    refine .inr ⟨?_, he, hd⟩
    rw [baseBiggerBlock, hbp, hqp, if_pos (by omega)]

omit hz hb hbo hq hqf in
theorem baseBiggerBlock_mem (b q : ℕ) (z : BuddyMemDesc) :
    baseBiggerBlock b q z = b ∨ baseBiggerBlock b q z = q := by
  unfold baseBiggerBlock
  split <;> simp

omit hz hb hq hqf in
theorem orderOf_mergeBlocks (x : ℕ) : orderOf (mergeBlocks b q z) x =
    if x = baseBiggerBlock b q z then o + 1 else orderOf z x := by
  simp only [orderOf, mergeBlocks, baseBiggerBlock, BuddyMemDesc.order_setFree,
    BuddyMemDesc.order_setOrder, BuddyMemDesc.pfn_setFree, BuddyMemDesc.allBuddies_listRemove]
  rw [← hbo]
  rfl

omit hz hb hbo hq hqf in
theorem free_mergeBlocks (x : ℕ) : ((mergeBlocks b q z).allBuddies x).free =
    if x = b ∨ x = q then false else (z.allBuddies x).free := by
  have hm := baseBiggerBlock_mem b q z
  simp only [mergeBlocks, baseBiggerBlock, BuddyMemDesc.free_setFree, BuddyMemDesc.free_setOrder,
    BuddyMemDesc.pfn_setFree, BuddyMemDesc.allBuddies_listRemove] at hm ⊢
  by_cases h₁ : x = b
  · by_cases h₂ : b = q <;> simp [h₁, h₂]
  · by_cases h₂ : x = q
    · simp [h₂]
    · rcases hm with hm | hm <;> simp [hm, h₁, h₂]

omit hbo hq hqf in
theorem freeHeads_mergeBlocks : freeHeads (mergeBlocks b q z) = freeHeads z \ {q} := by
  ext x
  simp only [freeHeads, free_mergeBlocks, Set.mem_ofPred_eq, Set.mem_sdiff,
    Set.mem_singleton_iff]
  change x < z.totPages ∧ _ ↔ _
  by_cases h₁ : x = b
  · simp [h₁, hz.handed_used b hb]
  · by_cases h₂ : x = q <;> simp [h₁, h₂]

include hqo ho

theorem zoneInv_mergeBlocks :
    ZoneInv (mergeBlocks b q z) (Function.update fl o ((fl o).erase q))
      (insert (baseBiggerBlock b q z) (handed.erase b)) := by
  have hpos : 0 < 2 ^ o := by positivity
  have hord := orderOf_mergeBlocks (b := b) (q := q) (z := z) hbo
  have hfree := free_mergeBlocks (b := b) (q := q) (z := z)
  have hheads := freeHeads_mergeBlocks (q := q) hz hb
  have hdisj := Set.disjoint_left.mp hz.disjoint
  have hql : q ∈ fl o := (hz.listed o ho.le q).mpr ⟨hqf.1, hqf.2, hqo⟩
  have hqh : q ∉ handed := fun h => hdisj hqf h
  have hbf : b ∉ freeHeads z := fun h => hdisj h hb
  have hbase := baseBiggerBlock_cases hz hb hbo hq hqf
  constructor
  · exact rings_listRemove hz.rings ho.le hql
  · intro i hi
    simpa [mergeBlocks] using hz.pfn i hi
  · intro j hj x
    have hx := hz.listed j hj x
    change _ ↔ x < z.totPages ∧ _
    rw [hfree, hord]
    have hnd := nodup_freeList hz.rings ho.le
    by_cases hxb : x = b
    · subst hxb
      have : x ∉ Function.update fl o ((fl o).erase q) j := by
        have hn := hz.handed_notMem hb hj
        by_cases hjo : j = o
        · subst hjo
          rw [Function.update_self]
          exact fun h => hn (List.mem_of_mem_erase h)
        · rwa [Function.update_of_ne hjo]
      simp [this]
    · by_cases hxq : x = q
      · subst hxq
        by_cases hjo : j = o
        · subst hjo
          simp [hnd.not_mem_erase]
        · have : x ∉ fl j := fun h => hjo ((hz.mem_freeHeads hj h).2.symm.trans hqo)
          simp [Function.update_of_ne hjo, this]
      · have hmem : x ∈ Function.update fl o ((fl o).erase q) j ↔ x ∈ fl j := by
          by_cases hjo : j = o
          · subst hjo
            rw [Function.update_self]
            exact List.mem_erase_of_ne hxq
          · rw [Function.update_of_ne hjo]
        have hxbase : x ≠ baseBiggerBlock b q z := by
          rcases baseBiggerBlock_mem b q z with h | h <;> rw [h] <;> assumption
        rw [hmem, hx]
        simp [hxb, hxq, hxbase]
  · intro x hx
    rw [hfree]
    by_cases hxb : x = b
    · simp [hxb]
    by_cases hxq : x = q
    · simp [hxq]
    have hxh : x ∈ handed := by
      rcases Finset.mem_insert.mp hx with h | h
      · rcases baseBiggerBlock_mem b q z with e | e
        · exact absurd (h.trans e) hxb
        · exact absurd (h.trans e) hxq
      · exact Finset.mem_of_mem_erase h
    simpa [hxb, hxq] using hz.handed_used x hxh
  · intro x hx
    rw [hord]
    split
    · exact ho
    · exact hz.order_le x hx
  · rw [hheads]
    -- the old tiles without the upper half
    rcases hbase with ⟨hbb, hqe, hd⟩ | ⟨hbq, hbe, hd⟩
    · have hset : freeHeads z \ {q} ∪ ↑(insert (baseBiggerBlock b q z) (handed.erase b)) =
          (freeHeads z ∪ ↑handed) \ {b + 2 ^ o} := by
        rw [hbb, ← hqe, Finset.insert_erase hb]
        ext x
        by_cases h : x = q
        · simp [h, hqh]
        · simp [h]
      rw [hset]
      refine hz.tiling.join (.inr hb) (.inl (hqe ▸ hqf)) hbo (hqe ▸ hqo) hd ?_ ?_
      · rw [hord, if_pos hbb.symm]
      · intro x _ hxb _
        rw [hord, hbb, if_neg hxb]
    · have hset : freeHeads z \ {q} ∪ ↑(insert (baseBiggerBlock b q z) (handed.erase b)) =
          (freeHeads z ∪ ↑handed) \ {q + 2 ^ o} := by
        rw [hbq, ← hbe]
        ext x
        by_cases h : x = q
        · have : q ≠ b := by omega
          simp [h, hqf, this]
        · by_cases h' : x = b
          · simp [h', hbf]
            omega
          · simp [h, h']
      rw [hset]
      refine hz.tiling.join (.inl hqf) (.inr (hbe ▸ hb)) hqo (hbe ▸ hbo) hd ?_ ?_
      · rw [hord, if_pos hbq.symm]
      · intro x _ hxq _
        rw [hord, hbq, if_neg hxq]
  · -- no free header changes its order
    rw [hheads]
    have hsame : ∀ x ∈ freeHeads z \ {q}, orderOf (mergeBlocks b q z) x = orderOf z x := by
      rintro x ⟨hx, hxq⟩
      rw [hord, if_neg]
      rcases baseBiggerBlock_mem b q z with e | e <;> rw [e]
      · exact fun e => hbf (e ▸ hx)
      · exact hxq
    rintro x hx hlt ⟨hm, ho'⟩
    rw [hsame x hx] at hlt hm ho'
    rw [hsame _ hm] at ho'
    exact hz.joined x hx.1 hlt ⟨hm.1, ho'⟩
  · exact hz.whole

end Merge

section Insert
variable (hz : ZoneInv z fl handed) (hb : b ∈ handed) (hbo : orderOf z b = o)

@[simp] theorem orderOf_insertBlock : orderOf (insertBlock b z) = orderOf z := by
  funext x
  simp [orderOf, insertBlock]

theorem free_insertBlock (x : ℕ) : ((insertBlock b z).allBuddies x).free =
    if x = b then true else (z.allBuddies x).free := by
  simp [insertBlock]

include hz hb

theorem freeHeads_insertBlock : freeHeads (insertBlock b z) = insert b (freeHeads z) := by
  have hlt := hz.handed_lt hb
  ext x
  simp only [freeHeads, free_insertBlock, Set.mem_ofPred_eq, Set.mem_insert_iff]
  change x < z.totPages ∧ _ ↔ _
  by_cases h : x = b <;> simp [h, hlt]

include hbo

theorem zoneInv_insertBlock
    (hnb : o < maxOrder → ¬ (buddy b o ∈ freeHeads z ∧ orderOf z (buddy b o) = o)) :
    ZoneInv (insertBlock b z) (Function.update fl o (b :: fl o)) (handed.erase b) := by
  have hlt := hz.handed_lt hb
  have ho : o ≤ maxOrder := hbo ▸ hz.order_le b hlt
  have hheads := freeHeads_insertBlock hz hb
  constructor
  · have hr := rings_listAddHead hz.rings ho fun j hj => hz.handed_notMem hb hj
    have hl : (insertBlock b z).links = (z.listAddHead o b).links := by
      rw [insertBlock, ← hbo]
      simp [orderOf]
    rw [hl]
    exact hr
  · intro i hi
    simpa [insertBlock] using hz.pfn i hi
  · intro j hj x
    have hx := hz.listed j hj x
    change _ ↔ x < z.totPages ∧ _
    rw [orderOf_insertBlock, free_insertBlock]
    by_cases hxb : x = b
    · subst hxb
      by_cases hjo : j = o
      · subst hjo
        simp [hlt, hbo]
      · simp [Function.update_of_ne hjo, hz.handed_notMem hb hj, hbo, Ne.symm hjo]
    · have hmem : x ∈ Function.update fl o (b :: fl o) j ↔ x ∈ fl j := by
        by_cases hjo : j = o
        · subst hjo
          simp [hxb]
        · rw [Function.update_of_ne hjo]
      rw [hmem, hx]
      simp [hxb]
  · intro x hx
    rw [free_insertBlock, if_neg (Finset.ne_of_mem_erase hx)]
    exact hz.handed_used x (Finset.mem_of_mem_erase hx)
  · intro x hx
    rw [orderOf_insertBlock]
    exact hz.order_le x hx
  · have hset : insert b (freeHeads z) ∪ ↑(handed.erase b) = freeHeads z ∪ ↑handed := by
      ext x
      by_cases h : x = b <;> simp [h, hb]
    rw [hheads, hset, orderOf_insertBlock]
    exact hz.tiling
  · rw [hheads, orderOf_insertBlock]
    rintro x (rfl | hx) hM ⟨hm, he⟩
    · rw [hbo] at hm he hM
      rcases hm with hm | hm
      · exact buddy_ne (hbo ▸ hz.tiling.aligned x (.inr hb)) hm
      · exact hnb hM ⟨hm, he⟩
    · rcases hm with hm | hm
      · -- then `x` is the buddy of `b`
        rw [hm, hbo] at he
        have hxb := buddy_buddy (hz.tiling.aligned x (.inl hx))
        rw [hm, ← he] at hxb
        exact hnb (he ▸ hM) ⟨hxb ▸ hx, hxb ▸ he.symm⟩
      · exact hz.joined x hx hM ⟨hm, he⟩
  · exact hz.whole

end Insert

end Steps

end X86Osdev.Mem

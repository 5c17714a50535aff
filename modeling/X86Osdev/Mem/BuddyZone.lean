import X86Osdev.Mem.BuddyRuns
import Mathlib.Logic.Relation
import Mathlib.Data.Finset.Card

/-! Every zone set up by `init_buddy_new`, in every state that calls can reach. -/

namespace X86Osdev.Mem
open CircularList DyadicTiling

section Init
variable {z z₀ : BuddyMemDesc} {n : ℕ}

/-- The free lists after `n` turns of the loop over the top-order blocks. -/
def topLists (n o : ℕ) : List ℕ :=
  if o = maxOrder then (List.range n).map (· * 2 ^ maxOrder) else []

theorem topLists_succ (n : ℕ) : topLists (n + 1) =
    Function.update (topLists n) maxOrder (topLists n maxOrder ++ [n * 2 ^ maxOrder]) := by
  funext o
  by_cases h : o = maxOrder
  · subst h
    simp [topLists, List.range_succ]
  · simp [topLists, h]

theorem mem_topLists {o p : ℕ} :
    p ∈ topLists n o ↔ o = maxOrder ∧ 2 ^ maxOrder ∣ p ∧ p < n * 2 ^ maxOrder := by
  by_cases h : o = maxOrder
  · simp only [topLists, h, if_true, List.mem_map, List.mem_range, true_and]
    constructor
    · rintro ⟨i, hi, rfl⟩
      exact ⟨Dvd.intro_left i rfl, Nat.mul_lt_mul_of_pos_right hi (by positivity)⟩
    · rintro ⟨⟨i, rfl⟩, hlt⟩
      refine ⟨i, ?_, Nat.mul_comm ..⟩
      rw [Nat.mul_comm] at hlt
      exact Nat.lt_of_mul_lt_mul_right hlt
  · simp [topLists, h]

theorem initFreeLists_fields (n : ℕ) (z : BuddyMemDesc) :
    (initFreeLists n z).totPages = z.totPages ∧ (initFreeLists n z).allBuddies = z.allBuddies := by
  induction n with
  | zero => exact ⟨rfl, rfl⟩
  | succ n ih => exact ih

theorem initFreeLists_links {o : ℕ} (ho : o < n) (z : BuddyMemDesc) :
    (initFreeLists n z).links.next (.freeLists o) = .freeLists o ∧
      (initFreeLists n z).links.prev (.freeLists o) = .freeLists o := by
  induction n with
  | zero => omega
  | succ n ih =>
    by_cases h : o = n
    · simp [initFreeLists, Links.listInit, h]
    · have := ih (by omega)
      simp [initFreeLists, Links.listInit, h, this]

theorem initHeaders_links (n o : ℕ) (z : BuddyMemDesc) :
    (initHeaders n z).links.next (.freeLists o) = z.links.next (.freeLists o) ∧
      (initHeaders n z).links.prev (.freeLists o) = z.links.prev (.freeLists o) := by
  induction n with
  | zero => exact ⟨rfl, rfl⟩
  | succ n ih => simp [initHeaders, Links.listInit, ih]

theorem initHeaders_totPages (n : ℕ) (z : BuddyMemDesc) :
    (initHeaders n z).totPages = z.totPages := by
  induction n with
  | zero => rfl
  | succ n ih => exact ih

theorem initHeaders_header {i : ℕ} (hi : i < n) (z : BuddyMemDesc) :
    (initHeaders n z).allBuddies i = ⟨0, false, i⟩ := by
  induction n with
  | zero => omega
  | succ n ih =>
    by_cases h : i = n
    · simp [initHeaders, h]
    · simp [initHeaders, h, ih (by omega)]

theorem initTopBlocks_totPages (n : ℕ) (z : BuddyMemDesc) :
    (initTopBlocks n z).totPages = z.totPages := by
  induction n with
  | zero => rfl
  | succ n ih => exact ih

theorem initFreeLists_pfnOffset (n : ℕ) (z : BuddyMemDesc) :
    (initFreeLists n z).pfnOffset = z.pfnOffset := by
  induction n with
  | zero => rfl
  | succ n ih => exact ih

theorem initHeaders_pfnOffset (n : ℕ) (z : BuddyMemDesc) :
    (initHeaders n z).pfnOffset = z.pfnOffset := by
  induction n with
  | zero => rfl
  | succ n ih => exact ih

theorem initTopBlocks_pfnOffset (n : ℕ) (z : BuddyMemDesc) :
    (initTopBlocks n z).pfnOffset = z.pfnOffset := by
  induction n with
  | zero => rfl
  | succ n ih => exact ih

theorem initTopBlocks_header (n i : ℕ) (z : BuddyMemDesc) :
    (initTopBlocks n z).allBuddies i =
      if i ∈ topLists n maxOrder then { z.allBuddies i with order := maxOrder, free := true }
      else z.allBuddies i := by
  induction n with
  | zero => simp [initTopBlocks, topLists]
  | succ n ih =>
    rw [topLists_succ, Function.update_self]
    by_cases h : i = n * 2 ^ maxOrder
    · subst h
      simp only [initTopBlocks, BuddyMemDesc.setOrder, BuddyMemDesc.setFree,
        BuddyMemDesc.listAddTail, pagesPerBlock_eq, Function.update_self, ih]
      by_cases hm : n * 2 ^ maxOrder ∈ topLists n maxOrder <;> simp [hm]
    · simp [initTopBlocks, BuddyMemDesc.setOrder, BuddyMemDesc.setFree, BuddyMemDesc.listAddTail,
        h, ih]

theorem initTopBlocks_rings (hr : Rings z.links freeListHeads (freeListNodes fun _ => []))
    (n : ℕ) : Rings (initTopBlocks n z).links freeListHeads (freeListNodes (topLists n)) := by
  induction n with
  | zero =>
    have h : topLists 0 = fun _ => [] := by
      funext o
      simp [topLists]
    rw [h]
    exact hr
  | succ n ih =>
    have hnot : n * 2 ^ maxOrder ∉ topLists n maxOrder := by
      rw [mem_topLists]
      simp
    have h := ih.listAddTail ⟨maxOrder, by omega⟩ (n := .freeList (n * 2 ^ maxOrder)) fun j => by
      rw [mem_freeListNodes]
      by_cases hj : (j : ℕ) = maxOrder
      · rw [hj]
        exact hnot
      · simp [topLists, hj]
    have he : freeListNodes (topLists n) ⟨maxOrder, by omega⟩ ++ [.freeList (n * 2 ^ maxOrder)] =
        (topLists n maxOrder ++ [n * 2 ^ maxOrder]).map FreeNode.freeList := by
      simp [freeListNodes]
    rw [he] at h
    rw [topLists_succ]
    have hu := freeListNodes_update (topLists n) ⟨maxOrder, by omega⟩
      (topLists n maxOrder ++ [n * 2 ^ maxOrder])
    simp only at hu
    rw [hu]
    simpa [initTopBlocks, freeListHeads] using h

/-- The headers and lists that `init_buddy_new` leaves. -/
theorem zoneInv_initTopBlocks (htot : z.totPages = n * 2 ^ maxOrder)
    (hr : Rings z.links freeListHeads (freeListNodes fun _ => []))
    (hh : ∀ i < z.totPages, z.allBuddies i = ⟨0, false, i⟩) :
    ZoneInv (initTopBlocks n z) (topLists n) ∅ := by
  -- The first page of every block of the top order heads a free block, and no other page does.
  have hhead : ∀ i < z.totPages, (initTopBlocks n z).allBuddies i =
      if 2 ^ maxOrder ∣ i then ⟨maxOrder, true, i⟩ else ⟨0, false, i⟩ := by
    intro i hi
    rw [initTopBlocks_header, hh i hi]
    simp only [mem_topLists, htot ▸ hi, and_true, true_and]
  have hfree : freeHeads (initTopBlocks n z) = {p | p < z.totPages ∧ 2 ^ maxOrder ∣ p} := by
    ext p
    simp only [freeHeads, initTopBlocks_totPages, Set.mem_ofPred_eq]
    constructor
    · rintro ⟨hlt, hf⟩
      refine ⟨hlt, ?_⟩
      by_contra hnd
      simp [hhead p hlt, hnd] at hf
    · rintro ⟨hlt, hd⟩
      exact ⟨hlt, by simp [hhead p hlt, hd]⟩
  have hord : ∀ p < z.totPages, 2 ^ maxOrder ∣ p → orderOf (initTopBlocks n z) p = maxOrder := by
    intro p hp hd
    simp [orderOf, hhead p hp, hd]
  constructor
  · exact initTopBlocks_rings hr n
  · intro i hi
    rw [initTopBlocks_totPages] at hi
    rw [hhead i hi]
    split <;> rfl
  · intro o ho p
    rw [mem_topLists, initTopBlocks_totPages, ← htot]
    constructor
    · rintro ⟨rfl, hd, hlt⟩
      exact ⟨hlt, by simp [hhead p hlt, hd], hord p hlt hd⟩
    · rintro ⟨hlt, hf, hpo⟩
      have hd : 2 ^ maxOrder ∣ p := by
        by_contra hnd
        simp [hhead p hlt, hnd] at hf
      exact ⟨hpo ▸ hord p hlt hd, hd, hlt⟩
  · simp
  · intro p hp
    rw [initTopBlocks_totPages] at hp
    simp only [orderOf, hhead p hp]
    split <;> simp
  -- These blocks tile the zone.
  · rw [hfree, Finset.coe_empty, Set.union_empty, initTopBlocks_totPages]
    refine ⟨?_, ?_, ?_, ?_⟩
    · rintro p ⟨hlt, hd⟩
      rw [hord p hlt hd]
      exact hd
    · rintro p ⟨hlt, hd⟩
      rw [hord p hlt hd]
      obtain ⟨i, rfl⟩ := hd
      rw [htot, Nat.mul_comm n] at hlt ⊢
      have hi : i < n := Nat.lt_of_mul_lt_mul_left hlt
      calc 2 ^ maxOrder * i + 2 ^ maxOrder = 2 ^ maxOrder * (i + 1) := by ring
        _ ≤ 2 ^ maxOrder * n := Nat.mul_le_mul_left _ hi
    · rintro p ⟨hp, hpd⟩ q ⟨hq, hqd⟩ hpq
      rw [hord p hp hpd, hord q hq hqd, Set.disjoint_left]
      exact fun x hx hy => hpq (eq_of_meet hpd hqd hx hy)
    · intro x hx
      refine ⟨x / 2 ^ maxOrder * 2 ^ maxOrder, ⟨?_, Dvd.intro_left _ rfl⟩, ?_⟩
      · exact lt_of_le_of_lt (Nat.div_mul_le_self ..) hx
      · rw [hord _ (lt_of_le_of_lt (Nat.div_mul_le_self ..) hx) (Dvd.intro_left _ rfl), mem_span]
        exact ⟨Nat.div_mul_le_self .., Nat.lt_div_mul_add (by positivity)⟩
  -- No block is free below the top order.
  · rw [hfree]
    rintro p ⟨hlt, hd⟩ hM _
    rw [hord p hlt hd] at hM
    omega
  · rw [initTopBlocks_totPages, htot]
    exact Dvd.intro_left n rfl

theorem initBuddyNew_ok {numPages pfnOffset m m' : ℕ}
    (h : initBuddyNew numPages pfnOffset m z₀ = .ok () (m', z)) :
    ZoneInv z (topLists (numPages / 2 ^ maxOrder)) ∅ ∧
      z.totPages = numPages / 2 ^ maxOrder * 2 ^ maxOrder ∧ z.pfnOffset = pfnOffset := by
  rw [initBuddyNew] at h
  simp only [pagesPerBlock_eq] at h
  split at h
  · cases h
  · simp only [Outcome.ok.injEq, Prod.mk.injEq, true_and] at h
    obtain ⟨-, rfl⟩ := h
    refine ⟨?_, ?_, ?_⟩
    · apply zoneInv_initTopBlocks
      · rw [initHeaders_totPages, (initFreeLists_fields _ _).1]
      · constructor
        · intro o
          have hl := initFreeLists_links (n := maxOrder + 1) (o := o) o.isLt
          have hk := initHeaders_links (numPages / 2 ^ maxOrder * 2 ^ maxOrder) o
          exact ⟨⟨(hk _).1.trans (hl _).1, (hk _).2.trans (hl _).2⟩, by simp [freeListNodes]⟩
        · intro o o' hne x hx hy
          simp only [freeListNodes, List.map_nil, List.mem_singleton, freeListHeads] at hx hy
          exact hne (Fin.ext (FreeNode.freeLists.inj (hx.symm.trans hy)))
      · intro i hi
        rw [initHeaders_totPages, (initFreeLists_fields _ _).1] at hi
        exact initHeaders_header hi _
    · rw [initTopBlocks_totPages, initHeaders_totPages, (initFreeLists_fields _ _).1]
    · rw [initTopBlocks_pfnOffset, initHeaders_pfnOffset, initFreeLists_pfnOffset]

end Init

/-- One call on a zone, with the first pages of the blocks handed out, latest first. -/
inductive ZoneStep : BuddyMemDesc × List ℕ → BuddyMemDesc × List ℕ → Prop
  | get {z z' : BuddyMemDesc} {handed : List ℕ} {order b : ℕ} (ho : order ≤ maxOrder)
      (h : getBuddyNew order z = .ok b z') : ZoneStep (z, handed) (z', b :: handed)
  | free {z z' : BuddyMemDesc} {handed : List ℕ} {b : ℕ} (hb : b ∈ handed)
      (h : freeBuddyNew b z = .ok () z') : ZoneStep (z, handed) (z', handed.erase b)

/-- The states that calls can reach from a zone that `init_buddy_new` has set up. -/
def ZoneReach (numPages pfnOffset : ℕ) (z : BuddyMemDesc) (handed : List ℕ) : Prop :=
  ∃ m m' z₀ z₁, initBuddyNew numPages pfnOffset m z₀ = .ok () (m', z₁) ∧
    Relation.ReflTransGen ZoneStep (z₁, []) (z, handed)

theorem ZoneReach.step {numPages off : ℕ} {z z' : BuddyMemDesc} {handed handed' : List ℕ}
    (h : ZoneReach numPages off z handed) (hs : ZoneStep (z, handed) (z', handed')) :
    ZoneReach numPages off z' handed' := by
  obtain ⟨m, m', z₀, z₁, hinit, hrun⟩ := h
  exact ⟨m, m', z₀, z₁, hinit, hrun.tail hs⟩

structure RunInv (n off : ℕ) (z : BuddyMemDesc) (handed : List ℕ) : Prop where
  inv : ∃ fl, ZoneInv z fl handed.toFinset
  nodup : handed.Nodup
  totPages : z.totPages = n
  pfnOffset : z.pfnOffset = off

theorem toFinset_erase {handed : List ℕ} (hn : handed.Nodup) (b : ℕ) :
    (handed.erase b).toFinset = handed.toFinset.erase b := by
  ext x
  simp [hn.mem_erase_iff]

theorem runInv_step {n off : ℕ} {s s' : BuddyMemDesc × List ℕ} (hs : ZoneStep s s')
    (hi : RunInv n off s.1 s.2) : RunInv n off s'.1 s'.2 := by
  obtain ⟨⟨fl, hz⟩, hn, ht, ho⟩ := hi
  cases hs with
  | get hle h =>
    rcases getBuddyNew_spec hz hle with ⟨p, z', fl', hg, -, hz', hp, -, hk⟩ | ⟨hpanic, -, -⟩
    · rw [h] at hg
      cases hg
      refine ⟨⟨fl', ?_⟩, ?_, hk.totPages.trans ht, hk.pfnOffset.trans ho⟩
      · rw [List.toFinset_cons]
        exact hz'
      · exact List.nodup_cons.mpr ⟨fun hm => hp (List.mem_toFinset.mpr hm), hn⟩
    · rw [h] at hpanic
      cases hpanic
  | free hb h =>
    obtain ⟨z', fl', hf, hz', hk⟩ := freeBuddyNew_spec hz (List.mem_toFinset.mpr hb)
    rw [h] at hf
    cases hf
    refine ⟨⟨fl', ?_⟩, hn.erase _, hk.totPages.trans ht, hk.pfnOffset.trans ho⟩
    rw [toFinset_erase hn]
    exact hz'

theorem runInv_run {n off : ℕ} {s s' : BuddyMemDesc × List ℕ}
    (hr : Relation.ReflTransGen ZoneStep s s') (hi : RunInv n off s.1 s.2) :
    RunInv n off s'.1 s'.2 := by
  induction hr with
  | refl => exact hi
  | tail _ hs ih => exact runInv_step hs ih

theorem ZoneReach.runInv {numPages off : ℕ} {z : BuddyMemDesc} {handed : List ℕ}
    (h : ZoneReach numPages off z handed) :
    RunInv (numPages / 2 ^ maxOrder * 2 ^ maxOrder) off z handed := by
  obtain ⟨m, m', z₀, z₁, hinit, hrun⟩ := h
  obtain ⟨hz, ht, ho⟩ := initBuddyNew_ok hinit
  exact runInv_run hrun ⟨⟨_, hz⟩, List.nodup_nil, ht, ho⟩

def freeListOf (z : BuddyMemDesc) (order : ℕ) : List ℕ :=
  (z.links.elements (z.totPages + 1) (.freeLists order)).filterMap fun
    | .freeList i => some i
    | .freeLists _ => none

def zoneBlocks (z : BuddyMemDesc) (handed : List ℕ) : List (ℕ × ℕ) :=
  (List.range (maxOrder + 1)).flatMap (fun o => (freeListOf z o).map fun p => (p, o)) ++
    handed.map fun p => (p, (z.allBuddies p).order)

structure RepInvariant (z : BuddyMemDesc) (handed : List ℕ) : Prop where
  rings : ∀ o ≤ maxOrder,
    Carries z.links (.freeLists o) ((freeListOf z o).map FreeNode.freeList)
  disjoint : (zoneBlocks z handed).Pairwise fun a b => Disjoint (span a.1 a.2) (span b.1 b.2)
  aligned : ∀ b ∈ zoneBlocks z handed, 2 ^ b.2 ∣ b.1
  cover : ∀ x, (∃ b ∈ zoneBlocks z handed, x ∈ span b.1 b.2) ↔ x < z.totPages
  listed : ∀ o ≤ maxOrder, ∀ p, p ∈ freeListOf z o ↔
    p < z.totPages ∧ (z.allBuddies p).free = true ∧ (z.allBuddies p).order = o
  once : ∀ o ≤ maxOrder, (freeListOf z o).Nodup
  one_list : ∀ o ≤ maxOrder, ∀ o' ≤ maxOrder, ∀ p, p ∈ freeListOf z o → p ∈ freeListOf z o' → o = o'
  stale : ∀ p < z.totPages, (∀ o ≤ maxOrder, p ∉ freeListOf z o) → (z.allBuddies p).free = false

section Representation
variable {z : BuddyMemDesc} {fl : ℕ → List ℕ} {handed : List ℕ} {o : ℕ}

theorem freeListOf_eq {handed : Finset ℕ} (hz : ZoneInv z fl handed) (ho : o ≤ maxOrder) :
    freeListOf z o = fl o := by
  have hnd := nodup_freeList hz.rings ho
  have hlen : (fl o).length < z.totPages + 1 := by
    have hsub : (fl o).toFinset ⊆ Finset.range z.totPages := by
      intro p hp
      rw [List.mem_toFinset] at hp
      exact Finset.mem_range.mpr ((hz.listed o ho p).mp hp).1
    have hcard := Finset.card_le_card hsub
    rw [List.toFinset_card_of_nodup hnd, Finset.card_range] at hcard
    omega
  have hel := @Carries.elements_eq _ _ _ _ _ (z.totPages + 1)
    (hz.rings.carries ⟨o, by omega⟩) (by simpa [freeListNodes] using hlen)
  simp only [freeListHeads, freeListNodes] at hel
  rw [freeListOf, hel, List.filterMap_map]
  exact List.filterMap_some

theorem mem_zoneBlocks (hz : ZoneInv z fl handed.toFinset) {b : ℕ × ℕ} :
    b ∈ zoneBlocks z handed ↔
      b.1 ∈ freeHeads z ∪ ↑handed.toFinset ∧ b.2 = orderOf z b.1 := by
  obtain ⟨p, o⟩ := b
  simp only [zoneBlocks, List.mem_append, List.mem_flatMap, List.mem_range, List.mem_map,
    Prod.mk.injEq, Set.mem_union, List.coe_toFinset, Set.mem_ofPred_eq]
  constructor
  · rintro (⟨o', ho', q, hq, rfl, rfl⟩ | ⟨q, hq, rfl, rfl⟩)
    · rw [freeListOf_eq hz (by omega)] at hq
      have h := hz.mem_freeHeads (by omega) hq
      exact ⟨.inl h.1, h.2.symm⟩
    · exact ⟨.inr hq, rfl⟩
  · rintro ⟨hp | hp, rfl⟩
    · have hle := hz.order_le p hp.1
      refine .inl ⟨orderOf z p, by omega, p, ?_, rfl, rfl⟩
      rw [freeListOf_eq hz hle]
      exact (hz.listed _ hle p).mpr ⟨hp.1, hp.2, rfl⟩
    · exact .inr ⟨p, hp, rfl, rfl⟩

theorem nodup_zoneBlocks_heads (hz : ZoneInv z fl handed.toFinset) (hn : handed.Nodup) :
    ((zoneBlocks z handed).map Prod.fst).Nodup := by
  have hfst : (zoneBlocks z handed).map Prod.fst =
      (List.range (maxOrder + 1)).flatMap (freeListOf z) ++ handed := by
    simp [zoneBlocks, List.map_flatMap, Function.comp_def]
  rw [hfst, List.nodup_append']
  refine ⟨?_, hn, ?_⟩
  · rw [List.nodup_flatMap]
    constructor
    · intro o ho
      rw [List.mem_range] at ho
      rw [freeListOf_eq hz (by omega)]
      exact nodup_freeList hz.rings (by omega)
    · refine List.Nodup.pairwise_of_forall_ne List.nodup_range ?_
      intro o ho o' ho' hne p hp hp'
      rw [List.mem_range] at ho ho'
      rw [freeListOf_eq hz (by omega)] at hp hp'
      exact hne ((hz.mem_freeHeads (by omega) hp).2.symm.trans (hz.mem_freeHeads (by omega) hp').2)
  · intro p hp hh
    rw [List.mem_flatMap] at hp
    obtain ⟨o, ho, hp⟩ := hp
    rw [List.mem_range] at ho
    rw [freeListOf_eq hz (by omega)] at hp
    exact hz.handed_notMem (List.mem_toFinset.mpr hh) (by omega) hp

theorem ZoneInv.repInvariant (hz : ZoneInv z fl handed.toFinset) (hn : handed.Nodup) :
    RepInvariant z handed := by
  have hmem := fun {b : ℕ × ℕ} => mem_zoneBlocks (b := b) hz
  constructor
  · intro o ho
    rw [freeListOf_eq hz ho]
    exact hz.rings.carries ⟨o, by omega⟩
  · have hne : (zoneBlocks z handed).Pairwise fun a b => a.1 ≠ b.1 :=
      List.pairwise_map.mp (nodup_zoneBlocks_heads hz hn)
    refine hne.imp_of_mem fun {a b} ha hb hab => ?_
    obtain ⟨ha, hao⟩ := hmem.mp ha
    obtain ⟨hb, hbo⟩ := hmem.mp hb
    rw [hao, hbo]
    exact hz.tiling.disjoint a.1 ha b.1 hb hab
  · intro b hb
    obtain ⟨hb, hbo⟩ := hmem.mp hb
    rw [hbo]
    exact hz.tiling.aligned b.1 hb
  · intro x
    constructor
    · rintro ⟨b, hb, hx⟩
      obtain ⟨hb, hbo⟩ := hmem.mp hb
      have hbelow := hz.tiling.below b.1 hb
      rw [hbo, mem_span] at hx
      omega
    · intro hx
      obtain ⟨p, hp, hxp⟩ := hz.tiling.cover x hx
      exact ⟨(p, orderOf z p), hmem.mpr ⟨hp, rfl⟩, hxp⟩
  · intro o ho p
    rw [freeListOf_eq hz ho]
    exact hz.listed o ho p
  · intro o ho
    rw [freeListOf_eq hz ho]
    exact nodup_freeList hz.rings ho
  · intro o ho o' ho' p hp hp'
    rw [freeListOf_eq hz ho] at hp
    rw [freeListOf_eq hz ho'] at hp'
    exact (hz.mem_freeHeads ho hp).2.symm.trans (hz.mem_freeHeads ho' hp').2
  · intro p hp hno
    by_contra hf
    have hle := hz.order_le p hp
    refine hno _ hle ?_
    rw [freeListOf_eq hz hle]
    exact (hz.listed _ hle p).mpr ⟨hp, by simpa using hf, rfl⟩

end Representation

/-- The free and handed-out blocks always tile the zone, and headers, flags and lists agree. -/
theorem buddy_representation {numPages pfnOffset : ℕ} {z : BuddyMemDesc} {handed : List ℕ}
    (h : ZoneReach numPages pfnOffset z handed) : RepInvariant z handed := by
  obtain ⟨⟨fl, hz⟩, hn, -, -⟩ := h.runInv
  exact hz.repInvariant hn

theorem zoneReach_init : ∃ z, ZoneReach 1024 0 z [] ∧ ZoneInv z (topLists 1) ∅ ∧ z.totPages = 1024 := by
  obtain ⟨m', z, hinit⟩ : ∃ m' z, initBuddyNew 1024 0 0xC0200000
      ⟨0, 0, 0, fun _ => ⟨0, false, 0⟩, ⟨id, id⟩⟩ = .ok () (m', z) := ⟨_, _, rfl⟩
  obtain ⟨hz, ht, -⟩ := initBuddyNew_ok hinit
  exact ⟨z, ⟨_, m', _, z, hinit, .refl⟩, hz, ht⟩

theorem zoneReach_first_call : ∃ p z, ZoneReach 1024 0 z [p] := by
  obtain ⟨z₁, hreach, hz, -⟩ := zoneReach_init
  rcases getBuddyNew_spec hz (Nat.zero_le maxOrder) with ⟨p, z, -, hget, -⟩ | ⟨-, -, hempty⟩
  · exact ⟨p, z, hreach.step (.get (Nat.zero_le _) hget)⟩
  · exact absurd (hempty maxOrder (Nat.zero_le _) le_rfl) (by decide)

theorem buddy_representation_first_call :
    ∃ p z, ZoneReach 1024 0 z [p] ∧ RepInvariant z [p] := by
  obtain ⟨p, z, h⟩ := zoneReach_first_call
  exact ⟨p, z, h, buddy_representation h⟩

end X86Osdev.Mem

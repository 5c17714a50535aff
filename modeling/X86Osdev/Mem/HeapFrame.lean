import X86Osdev.Mem.HeapSafety

/-! What calls of the allocators leave alone: memory that is neither free nor part of the slab cache keeps
its bytes and is not handed out. -/

namespace X86Osdev.Mem
open X86Osdev.Lib ByteMemory DyadicTiling

structure HeapView where
  heap : Heap
  cache : Cache
  pages : List (ℕ × ℕ)

namespace HeapView

abbrev Inv (L : Layout) (v : HeapView) : Prop := HeapInv L v.heap v.cache v.pages

def used (L : Layout) (v : HeapView) : ℕ :=
  pagesUsed v.heap.kernelBuddyNew (handedPages L v.cache v.pages)

def setMem (v : HeapView) (m : Memory) : HeapView := { v with heap := { v.heap with mem := m } }

end HeapView

/-- A byte of the kernel half outside the free blocks and the slab cache. -/
structure Settled (L : Layout) (v : HeapView) (a : ℕ) : Prop where
  word : a < 2 ^ 32
  kernel : kernelVirtualAddressBase ≤ a
  cache : a ∉ cacheBytes v.heap.kMemCache v.cache.slabs
  held : L.numPages ≤ pageOf a ∨ ∃ q ∈ handedPages L v.cache v.pages,
    pageOf a ∈ span q (orderOf v.heap.kernelBuddyNew q)

structure Vacant (L : Layout) (v : HeapView) (a : ℕ) : Prop where
  kernel : kernelVirtualAddressBase ≤ a
  page : pageOf a < L.numPages
  free : ∀ q ∈ handedPages L v.cache v.pages, pageOf a ∉ span q (orderOf v.heap.kernelBuddyNew q)

/-- At most `k` more pages are in use. Settled bytes, and those that are still free, are as they were. -/
structure Grows (L : Layout) (k : ℕ) (v v' : HeapView) : Prop where
  inv : v'.Inv L
  used : v'.used L ≤ v.used L + k
  pages : v.pages ⊆ v'.pages
  slabs : v.cache.slabs ⊆ v'.cache.slabs
  settled : ∀ a, Settled L v a → Settled L v' a
  kept : ∀ a, Settled L v a → v'.heap.mem a = v.heap.mem a
  vacant : ∀ a, Vacant L v' a → Vacant L v a ∧ v'.heap.mem a = v.heap.mem a

abbrev blockAt (ptr order : ℕ) : Set ℕ := Set.Ico ptr (ptr + 4096 * 2 ^ order)

def Fresh (L : Layout) (v v' : HeapView) (P : Set ℕ) : Prop :=
  ∀ a ∈ P, Settled L v' a ∧ ¬ Settled L v a

section Frame
variable {L : Layout} {v v' v'' : HeapView} {k k' a p order ptr : ℕ} {h' : Heap} {P : Set ℕ}

theorem Grows.refl (hi : v.Inv L) : Grows L 0 v v :=
  ⟨hi, le_rfl, List.Subset.refl _, List.Subset.refl _, fun _ ha => ha, fun _ _ => rfl,
    fun _ ha => ⟨ha, rfl⟩⟩

theorem Grows.trans (hg : Grows L k v v') (hg' : Grows L k' v' v'') : Grows L (k + k') v v'' where
  inv := hg'.inv
  used := by
    have h₁ := hg.used
    have h₂ := hg'.used
    omega
  pages := List.Subset.trans hg.pages hg'.pages
  slabs := List.Subset.trans hg.slabs hg'.slabs
  settled a ha := hg'.settled a (hg.settled a ha)
  kept a ha := (hg'.kept a (hg.settled a ha)).trans (hg.kept a ha)
  vacant a ha := by
    obtain ⟨ha', hmem'⟩ := hg'.vacant a ha
    obtain ⟨ha, hmem⟩ := hg.vacant a ha'
    exact ⟨ha, hmem'.trans hmem⟩

theorem Grows.mono (hg : Grows L k v v') (hk : k ≤ k') : Grows L k' v v' :=
  ⟨hg.inv, hg.used.trans (Nat.add_le_add_left hk _), hg.pages, hg.slabs, hg.settled, hg.kept,
    hg.vacant⟩

theorem Fresh.later (hf : Fresh L v v' P) (hg : Grows L k v' v'') : Fresh L v v'' P := fun a ha =>
  ⟨hg.settled a (hf a ha).1, (hf a ha).2⟩

theorem Fresh.earlier (hf : Fresh L v' v'' P) (hg : Grows L k v v') : Fresh L v v'' P := fun a ha =>
  ⟨(hf a ha).1, fun h => (hf a ha).2 (hg.settled a h)⟩

theorem HeapInv.not_cacheBytes (hi : v.Inv L) (hk : kernelVirtualAddressBase ≤ a)
    (hfirst : L.first ≤ pageOf a) (hslab : pageAddr (pageOf a) ∉ v.cache.slabs) :
    a ∉ cacheBytes v.heap.kMemCache v.cache.slabs := by
  have hka : 3221225472 ≤ a := hk
  have hpage : pageAddr (pageOf a) ≤ a ∧ a < pageAddr (pageOf a) + 4096 := by
    rw [pageAddr_eq]
    unfold pageOf kernelVirtualAddressBase pageSize
    omega
  rintro (⟨hlo, hhi⟩ | ⟨s, hs, hsa, has⟩)
  · have himage := hi.image
    have hmono : pageAddr L.first ≤ pageAddr (pageOf a) :=
      Nat.add_le_add_left (Nat.mul_le_mul_right _ hfirst) _
    omega
  · have hal := (hi.cache.placed s hs).aligned
    have hal' : pageAddr (pageOf a) % 4096 = 0 := by
      rw [pageAddr_eq]
      omega
    have heq : s = pageAddr (pageOf a) := by omega
    exact hslab (heq ▸ hs)

theorem HeapInv.block_settled (hi : v.Inv L) (hb : (p, order) ∈ v.pages)
    (ha : a ∈ blockAt (pageAddr p) order) : Settled L v a := by
  have hord : orderOf v.heap.kernelBuddyNew p = order := hi.page_order _ hb
  have hmem : p ∈ handedPages L v.cache v.pages := HeapInv.page_mem hb
  have hend := hi.zone.block_end hmem
  rw [hord] at hend
  have hsmall := hi.small
  obtain ⟨hlo, hhi⟩ := ha
  rw [pageAddr_eq] at hlo hhi
  have hspan : pageOf a ∈ span p (orderOf v.heap.kernelBuddyNew p) := by
    rw [hord, mem_span]
    unfold pageOf kernelVirtualAddressBase pageSize
    omega
  have hk : kernelVirtualAddressBase ≤ a := le_trans (Nat.le_add_right _ _) hlo
  obtain ⟨hres, hslab⟩ := hi.page_separate hb
  obtain ⟨hfirst, -, hns⟩ := hi.client_page (.inr (List.mem_toFinset.mpr hmem)) hres hslab hspan
  exact ⟨by omega, hk, hi.not_cacheBytes hk hfirst hns, .inr ⟨p, hmem, hspan⟩⟩

theorem HeapInv.store_block (hi : v.Inv L) {m' : Memory} (hb : (p, order) ∈ v.pages)
    (ht : Touches (2 ^ 32) (blockAt (pageAddr p) order) v.heap.mem m') : (v.setMem m').Inv L := by
  refine hi.setMem (hi.cache.touches ht ?_ ?_) rfl
  · intro s hs x hx hxs
    have hbounds := mem_slabBytes_bounds hxs
    exact (hi.block_settled hb hx).cache (.inr ⟨s, hs, by omega, by omega⟩)
  · intro x hx hxl
    exact (hi.block_settled hb hx).cache (linkBytes_subset hi.cache.fits hxl)

theorem Vacant.word (hi : v.Inv L) (ha : Vacant L v a) : a < 2 ^ 32 := by
  have hpage := ha.page.trans_le hi.small
  unfold pageOf kernelVirtualAddressBase pageSize at hpage
  omega

theorem Vacant.cache (hi : v.Inv L) (ha : Vacant L v a) :
    a ∉ cacheBytes v.heap.kMemCache v.cache.slabs := by
  refine hi.not_cacheBytes ha.kernel ?_ fun hs => ?_
  · by_contra hlt
    obtain ⟨r, hr, hspan⟩ := hi.low (pageOf a) (Nat.lt_of_not_le hlt)
    exact ha.free r (HeapInv.reserved_mem hr) hspan
  · have hmem : pageOf (pageAddr (pageOf a)) ∈ handedPages L v.cache v.pages := HeapInv.slab_mem hs
    have ho := hi.slab_order _ hs
    rw [pageOf_pageAddr] at hmem ho
    refine ha.free _ hmem ?_
    rw [ho, mem_span]
    exact ⟨le_rfl, Nat.lt_succ_self _⟩

theorem Vacant.back {c : Cache} {pages : List (ℕ × ℕ)} (ha : Vacant L ⟨h', c, pages⟩ a)
    (hsub : ∀ q ∈ handedPages L v.cache v.pages, q ∈ handedPages L c pages ∧
      orderOf h'.kernelBuddyNew q = orderOf v.heap.kernelBuddyNew q) : Vacant L v a := by
  refine ⟨ha.kernel, ha.page, fun q hq => ?_⟩
  obtain ⟨hmem, hord⟩ := hsub q hq
  exact hord ▸ ha.free q hmem

theorem Settled.keep (ha : Settled L v a) {c : Cache} {pages : List (ℕ × ℕ)}
    (hcache : a ∉ cacheBytes h'.kMemCache c.slabs)
    (hsub : ∀ q ∈ handedPages L v.cache v.pages, q ∈ handedPages L c pages ∧
      orderOf h'.kernelBuddyNew q = orderOf v.heap.kernelBuddyNew q) :
    Settled L ⟨h', c, pages⟩ a := by
  refine ⟨ha.word, ha.kernel, hcache, ?_⟩
  rcases ha.held with h | ⟨q, hq, hspan⟩
  · exact .inl h
  · obtain ⟨hmem, hord⟩ := hsub q hq
    exact .inr ⟨q, hmem, hord.symm ▸ hspan⟩

theorem kallocPage_grows (hi : v.Inv L) (ho : order ≤ maxOrder)
    (hok : kallocPage order v.heap = .ok ptr h') :
    ∃ p, ptr = pageAddr p ∧ Grows L (2 ^ order) v ⟨h', v.cache, (p, order) :: v.pages⟩ ∧
      Fresh L v ⟨h', v.cache, (p, order) :: v.pages⟩ (blockAt ptr order) ∧
        h'.mem = v.heap.mem := by
  rcases kallocPage_spec hi.zone hi.small (hi.unlocked _) ho with
    ⟨p, h₁, hok₁, hrun, hpo, hord, hs⟩ | ⟨h₁, hpanic⟩
  swap
  · cases hok.symm.trans hpanic
  obtain ⟨rfl, rfl⟩ := Outcome.ok.inj (hok.symm.trans hok₁)
  have hinv := hi.addPage hrun hpo hord hs
  have hnew : p ∉ handedPages L v.cache v.pages := (List.nodup_cons.mp hrun.nodup).1
  have hperm := handedPages_cons L v.cache v.pages (p, order)
  have hsub : ∀ q ∈ handedPages L v.cache v.pages,
      q ∈ handedPages L v.cache ((p, order) :: v.pages) ∧
        orderOf h'.kernelBuddyNew q = orderOf v.heap.kernelBuddyNew q := fun q hq =>
    ⟨hperm.mem_iff.mp (List.mem_cons_of_mem _ hq), hord q hq⟩
  refine ⟨p, rfl, ⟨hinv, ?_, List.subset_cons_self .., List.Subset.refl _,
    fun a ha => ha.keep ?_ hsub, fun a _ => congrFun hs.mem a,
    fun a ha => ⟨ha.back hsub, congrFun hs.mem a⟩⟩, ?_, hs.mem⟩
  · show pagesUsed _ _ ≤ pagesUsed _ _ + _
    rw [← pagesUsed_perm hperm]
    unfold pagesUsed
    rw [List.map_cons, List.sum_cons, hpo, List.map_congr_left fun q hq => by rw [hord q hq]]
    exact (Nat.add_comm _ _).le
  · rw [hs.kMemCache]
    exact ha.cache
  · intro a ha
    refine ⟨HeapInv.block_settled (v := ⟨h', v.cache, (p, order) :: v.pages⟩) hinv
      (List.mem_cons_self ..) ha, fun hset => ?_⟩
    have hend := hrun.block_end (List.mem_cons_self ..)
    rw [hpo] at hend
    obtain ⟨hlo, hhi⟩ := ha
    rw [pageAddr_eq] at hlo hhi
    have hspan : pageOf a ∈ span p (orderOf h'.kernelBuddyNew p) := by
      rw [hpo, mem_span]
      unfold pageOf kernelVirtualAddressBase pageSize
      omega
    rcases hset.held with h | ⟨q, hq, hq'⟩
    · rw [mem_span, hpo] at hspan
      omega
    · -- blocks that are handed out share no page
      have hpq : p ≠ q := fun e => hnew (e ▸ hq)
      have hdis := hrun.spans_disjoint (List.mem_cons_self ..) (List.mem_cons_of_mem _ hq) hpq
      rw [hord q hq] at hdis
      exact Set.disjoint_left.mp hdis hspan hq'

theorem Grows.store_fresh {m' : Memory} (hg : Grows L k v v') (hb : (p, order) ∈ v'.pages)
    (hf : Fresh L v v' (blockAt (pageAddr p) order))
    (ht : Touches (2 ^ 32) (blockAt (pageAddr p) order) v'.heap.mem m') :
    Grows L k v (v'.setMem m') ∧ Fresh L v (v'.setMem m') (blockAt (pageAddr p) order) := by
  have hset : ∀ a, Settled L v' a → Settled L (v'.setMem m') a := fun a ha =>
    ⟨ha.word, ha.kernel, ha.cache, ha.held⟩
  refine ⟨⟨hg.inv.store_block hb ht, hg.used, hg.pages, hg.slabs,
    fun a ha => hset a (hg.settled a ha), fun a ha => ?_, fun a ha => ?_⟩,
    fun a ha => ⟨hset a (hf a ha).1, (hf a ha).2⟩⟩
  · exact (ht a ha.word fun hmem => (hf a hmem).2 ha).trans (hg.kept a ha)
  · have ha' : Vacant L v' a := ⟨ha.kernel, ha.page, ha.free⟩
    obtain ⟨hv, hmem⟩ := hg.vacant a ha'
    refine ⟨hv, (ht a (ha'.word hg.inv) fun hin => ?_).trans hmem⟩
    rcases (hf a hin).1.held with h | ⟨q, hq, hspan⟩
    · exact absurd ha.page (Nat.not_lt.mpr h)
    · exact ha'.free q hq hspan

theorem kallocPage_full (hi : v.Inv L) (hpanic : kallocPage 0 v.heap = .panic outOfMemory h') :
    L.numPages ≤ v.used L := by
  rw [kallocPage, getLock_free (hi.unlocked _), Outcome.bind_ok] at hpanic
  let h₀ : Heap := { v.heap with locks := Function.update v.heap.locks .kmemLock true }
  have hrun : RunInv L.numPages 0 h₀.kernelBuddyNew (handedPages L v.cache v.pages) := hi.zone
  rcases kallocNosleep_single hrun hi.small with ⟨p, h₁, hok, -⟩ | ⟨-, hfull⟩
  · rw [hok, Outcome.bind_ok] at hpanic
    cases hpanic
  · exact hfull

theorem kmalloc_grows (hi : v.Inv L) {n : ℕ} (hn : n ≤ maxSlabSize)
    (hok : kmalloc n v.heap = .ok ptr h') : ∃ c', Grows L 1 v ⟨h', c', v.pages⟩ := by
  rcases hi.kmalloc_small hn with ⟨s, i, c', h₁, hok₁, hinv, hserved, -, htouch, hord⟩ | ⟨h₁, hpanic⟩
  swap
  · cases hok.symm.trans hpanic
  obtain ⟨-, rfl⟩ := Outcome.ok.inj (hok.symm.trans hok₁)
  have hkc : h'.kMemCache = v.heap.kMemCache := hinv.kMemCache.trans hi.kMemCache.symm
  have hfree : ∀ a, Vacant L ⟨h', c', v.pages⟩ a → h'.mem a = v.heap.mem a := fun a ha =>
    htouch a (ha.word (v := ⟨h', c', v.pages⟩) hinv)
      (hkc ▸ ha.cache (v := ⟨h', c', v.pages⟩) hinv)
  refine ⟨c', ?_⟩
  by_cases hs : s ∈ v.cache.slabs
  · have hslabs : c'.slabs = v.cache.slabs := by rw [hserved.slabs, List.insert_of_mem hs]
    have hhanded : handedPages L c' v.pages = handedPages L v.cache v.pages := by
      unfold handedPages
      rw [hslabs]
    refine ⟨hinv, ?_, List.Subset.refl _, hslabs ▸ List.Subset.refl _, fun a ha =>
      ha.keep (by rw [hkc, hslabs]; exact ha.cache) fun q hq => ⟨hhanded ▸ hq, hord q hq⟩,
      fun a ha => htouch a ha.word (by rw [hslabs]; exact ha.cache),
      fun a ha => ⟨ha.back fun q hq => ⟨hhanded ▸ hq, hord q hq⟩, hfree a ha⟩⟩
    show pagesUsed _ _ ≤ pagesUsed _ _ + _
    rw [hhanded]
    unfold pagesUsed
    rw [List.map_congr_left fun q hq => by rw [hord q hq]]
    exact Nat.le_succ _
  · have hslabs : c'.slabs = s :: v.cache.slabs := by
      rw [hserved.slabs, List.insert_of_not_mem hs]
    have hperm : (pageOf s :: handedPages L v.cache v.pages).Perm (handedPages L c' v.pages) := by
      unfold handedPages
      rw [hslabs, List.map_cons, List.cons_append]
      exact List.perm_middle.symm
    have hnew : pageOf s ∉ handedPages L v.cache v.pages :=
      (List.nodup_cons.mp (hperm.nodup_iff.mpr hinv.zone.nodup)).1
    have hsub : ∀ q ∈ handedPages L v.cache v.pages, q ∈ handedPages L c' v.pages :=
      fun q hq => hperm.mem_iff.mp (List.mem_cons_of_mem _ hq)
    have hmem : s ∈ c'.slabs := hslabs ▸ List.mem_cons_self ..
    have hzero : orderOf h'.kernelBuddyNew (pageOf s) = 0 := hinv.slab_order s hmem
    -- the page of a new slab was free
    have hcache : ∀ a, Settled L v a → a ∉ cacheBytes v.heap.kMemCache c'.slabs := by
      intro a ha
      rw [hslabs]
      rintro (hx | ⟨t, ht, hta, hat⟩)
      · exact ha.cache (.inl hx)
      rcases List.mem_cons.mp ht with rfl | ht
      swap
      · exact ha.cache (.inr ⟨t, ht, hta, hat⟩)
      have hal := (hinv.cache.placed t hmem).aligned
      have hker := (hinv.cache.placed t hmem).kernel
      have hpage : pageOf a = pageOf t := by
        unfold pageOf kernelVirtualAddressBase pageSize at *
        omega
      have hin : pageOf t ∈ handedPages L c' v.pages := hperm.mem_iff.mp (List.mem_cons_self ..)
      rcases ha.held with h | ⟨q, hq, hspan⟩
      · have hlt : pageOf t < L.numPages := hinv.zone.lt hin
        omega
      · have hne : pageOf t ≠ q := fun e => hnew (e ▸ hq)
        have hdis := hinv.zone.spans_disjoint hin (hsub q hq) hne
        rw [hord q hq, hzero] at hdis
        refine Set.disjoint_left.mp hdis ?_ (hpage ▸ hspan)
        rw [mem_span]
        exact ⟨le_rfl, Nat.lt_succ_self _⟩
    refine ⟨hinv, ?_, List.Subset.refl _, hslabs ▸ List.subset_cons_self .., fun a ha =>
      ha.keep (hkc ▸ hcache a ha) fun q hq => ⟨hsub q hq, hord q hq⟩,
      fun a ha => htouch a ha.word (hcache a ha),
      fun a ha => ⟨ha.back fun q hq => ⟨hsub q hq, hord q hq⟩, hfree a ha⟩⟩
    show pagesUsed _ _ ≤ pagesUsed _ _ + _
    rw [← pagesUsed_perm hperm]
    unfold pagesUsed
    rw [List.map_cons, List.sum_cons, hzero, List.map_congr_left fun q hq => by rw [hord q hq]]
    exact (Nat.add_comm _ _).le

theorem kmalloc_full (hi : v.Inv L) {n : ℕ} (hn : n ≤ maxSlabSize)
    (hpanic : kmalloc n v.heap = .panic outOfMemory h') : L.numPages ≤ v.used L := by
  have hsize : (if n < 4 then 4 else n) = max n 4 := by
    split <;> omega
  have hz : max n 4 ≤ maxSlabSize := max_le hn (by decide)
  simp only [kmalloc, if_pos hn, hsize] at hpanic
  rcases hi.salloc (max n 4) with ⟨s, i, c', h₁, -, hok, -⟩ | ⟨-, hnull⟩
  · rw [hok, Outcome.bind_ok, if_pos (by omega)] at hpanic
    cases hpanic
  rw [hnull, Outcome.bind_ok, if_neg (not_not.mpr rfl)] at hpanic
  rcases hi.createSlab (le_max_right n 4) hz false with ⟨s, h₁, hcreate, -, hh₁, -⟩ | ⟨h₁, hcreate⟩
  · rw [hcreate, Outcome.bind_ok] at hpanic
    rcases hh₁.salloc (max n 4) with ⟨t, i, c', h₂, -, hok, -⟩ | ⟨-, hnull'⟩
    · cases hok.symm.trans hpanic
    · cases hnull'.symm.trans hpanic
  · -- a slab is refused only for want of its page
    rcases kallocPage_spec hi.zone hi.small (hi.unlocked _) (Nat.zero_le maxOrder) with
      ⟨p, h₂, hok, -, -, -, hs⟩ | ⟨h₂, hpage⟩
    · rw [Mem.createSlab, if_neg Bool.false_ne_true, hok, Outcome.bind_ok,
        createSlab_rest hz (by rw [hs.locks, hi.unlocked])] at hcreate
      cases hcreate
    · exact kallocPage_full hi hpage

theorem Fresh.vacant (hf : Fresh L v v' P) (hi : v.Inv L) (hg : Grows L k v v') (ha : a ∈ P) :
    Vacant L v a := by
  obtain ⟨hset, hnew⟩ := hf a ha
  have hkc : v'.heap.kMemCache = v.heap.kMemCache := hg.inv.kMemCache.trans hi.kMemCache.symm
  have hcache : a ∉ cacheBytes v.heap.kMemCache v.cache.slabs := by
    intro hc
    refine hset.cache (hkc ▸ ?_)
    rcases hc with hc | ⟨s, hs, hc⟩
    · exact .inl hc
    · exact .inr ⟨s, hg.slabs hs, hc⟩
  refine ⟨hset.kernel, ?_, fun q hq hspan => ?_⟩
  · by_contra hle
    exact hnew ⟨hset.word, hset.kernel, hcache, .inl (Nat.le_of_not_lt hle)⟩
  · exact hnew ⟨hset.word, hset.kernel, hcache, .inr ⟨q, hq, hspan⟩⟩

theorem Fresh.kernel {b : ℕ} (hf : Fresh L v v' (blockAt b order)) :
    kernelVirtualAddressBase ≤ b :=
  (hf b ⟨le_rfl, Nat.lt_add_of_pos_right (by positivity)⟩).1.kernel

/-- Memory that was settled and memory that is new do not overlap. -/
theorem Fresh.apart {b : ℕ} (hf : Fresh L v v' (blockAt b order))
    (hset : ∀ x ∈ blockAt ptr order, Settled L v x) :
    ptr + 4096 * 2 ^ order ≤ b ∨ b + 4096 * 2 ^ order ≤ ptr := by
  by_contra hover
  have hmax : max ptr b ∈ blockAt ptr order ∧ max ptr b ∈ blockAt b order := by
    constructor
    · exact ⟨le_max_left .., by omega⟩
    · exact ⟨le_max_right .., by omega⟩
  exact (hf _ hmax.2).2 (hset _ hmax.1)

end Frame

/-- From `v` the call ends with at most `k` more pages in use and a result that meets `Q`, or there are
not `k` pages left. -/
def Allocates {α : Type} (L : Layout) (k : ℕ) (v : HeapView) (x : Outcome Heap α)
    (Q : α → HeapView → Prop) : Prop :=
  (∃ a v', x = .ok a v'.heap ∧ Grows L k v v' ∧ Q a v') ∨
    (∃ h', x = .panic outOfMemory h') ∧ L.numPages < v.used L + k

/-- A block that was handed out as the last thing, with the contents `m`. -/
structure NewPage (L : Layout) (v v' : HeapView) (m : ℕ → Memory) (ptr : ℕ) : Prop where
  block : ∃ p, ptr = pageAddr p ∧ (p, 0) ∈ v'.pages
  fresh : Fresh L v v' (blockAt ptr 0)
  mem : v'.heap.mem = m ptr
  fits : ptr + 4096 ≤ 2 ^ 32

section Rules
variable {α β : Type} {L : Layout} {k k' : ℕ} {v : HeapView} {x : Outcome Heap α}
  {Q Q' : α → HeapView → Prop}

theorem Allocates.pure {a : α} (hi : v.Inv L) (hq : Q a v) : Allocates L 0 v (.ok a v.heap) Q :=
  .inl ⟨a, v, rfl, .refl hi, hq⟩

theorem Allocates.mono (hx : Allocates L k v x Q) (h : ∀ a v', Grows L k v v' → Q a v' → Q' a v') :
    Allocates L k v x Q' :=
  hx.imp_left fun ⟨a, v', hok, hg, hq⟩ => ⟨a, v', hok, hg, h a v' hg hq⟩

theorem Allocates.grow (hx : Allocates L k v x Q) (hk : k ≤ k') : Allocates L k' v x Q := by
  rcases hx with ⟨a, v', hok, hg, hq⟩ | ⟨hpanic, hfull⟩
  · exact .inl ⟨a, v', hok, hg.mono hk, hq⟩
  · exact .inr ⟨hpanic, by omega⟩

theorem Allocates.bind {f : α → Heap → Outcome Heap β} {R : β → HeapView → Prop}
    (hx : Allocates L k v x Q)
    (hf : ∀ a v', Grows L k v v' → Q a v' → Allocates L k' v' (f a v'.heap) R) :
    Allocates L (k + k') v (x.bind f) R := by
  rcases hx with ⟨a, v', rfl, hg, hq⟩ | ⟨⟨h', rfl⟩, hfull⟩
  · rw [Outcome.bind_ok]
    rcases hf a v' hg hq with ⟨b, v'', hok, hg', hr⟩ | ⟨hpanic, hfull⟩
    · exact .inl ⟨b, v'', hok, hg.trans hg', hr⟩
    · have hused := hg.used
      exact .inr ⟨hpanic, by omega⟩
  · exact .inr ⟨⟨h', rfl⟩, by omega⟩

theorem Allocates.then_pure {f : α → Heap → Outcome Heap β} {R : β → HeapView → Prop}
    (hx : Allocates L k v x Q)
    (hf : ∀ a v', Grows L k v v' → Q a v' → ∃ b, f a v'.heap = .ok b v'.heap ∧ R b v') :
    Allocates L k v (x.bind f) R := by
  show Allocates L (k + 0) v (x.bind f) R
  refine hx.bind fun a v' hg hq => ?_
  obtain ⟨b, hok, hr⟩ := hf a v' hg hq
  rw [hok]
  exact .pure hg.inv hr

theorem Allocates.ok {a : α} {h' : Heap} (hx : Allocates L k v x Q) (hok : x = .ok a h') :
    ∃ v', v'.heap = h' ∧ Grows L k v v' ∧ Q a v' := by
  rcases hx with ⟨b, v', hok', hg, hq⟩ | ⟨⟨h'', hpanic⟩, -⟩
  · obtain ⟨rfl, rfl⟩ := Outcome.ok.inj (hok'.symm.trans hok)
    exact ⟨v', rfl, hg, hq⟩
  · cases hok.symm.trans hpanic

theorem Allocates.exists_ok (hx : Allocates L k v x Q) (hroom : v.used L + k ≤ L.numPages) :
    ∃ a v', x = .ok a v'.heap ∧ Grows L k v v' ∧ Q a v' := by
  rcases hx with hok | ⟨-, hfull⟩
  · exact hok
  · omega

theorem allocates_kallocPage (hi : v.Inv L) :
    Allocates L 1 v (kallocPage 0 v.heap) fun _ _ => True := by
  rcases kallocPage_spec hi.zone hi.small (hi.unlocked _) (Nat.zero_le maxOrder) with
    ⟨p, h', hok, -⟩ | ⟨h', hpanic⟩
  · obtain ⟨q, -, hg, -, -⟩ := kallocPage_grows hi (Nat.zero_le maxOrder) hok
    exact .inl ⟨_, _, hok, hg, trivial⟩
  · exact .inr ⟨⟨h', hpanic⟩, Nat.lt_succ_of_le (kallocPage_full hi hpanic)⟩

theorem allocates_kmalloc (hi : v.Inv L) {n : ℕ} (hn : n ≤ maxSlabSize) :
    Allocates L 1 v (kmalloc n v.heap) fun _ _ => True := by
  rcases hi.kmalloc_small hn with ⟨s, i, c', h', hok, -⟩ | ⟨h', hpanic⟩
  · obtain ⟨c', hg⟩ := kmalloc_grows hi hn hok
    exact .inl ⟨_, ⟨h', c', v.pages⟩, hok, hg, trivial⟩
  · exact .inr ⟨⟨h', hpanic⟩, Nat.lt_succ_of_le (kmalloc_full hi hn hpanic)⟩

theorem allocates_page (hi : v.Inv L) {fill : ℕ → Memory → Memory}
    (hfill : ∀ ptr m, ptr + 4096 ≤ 2 ^ 32 → Touches (2 ^ 32) (blockAt ptr 0) m (fill ptr m)) :
    Allocates L 1 v ((kallocPage 0 v.heap).bind fun ptr h =>
      .ok ptr { h with mem := fill ptr h.mem })
      fun ptr v' => NewPage L v v' (fill · v.heap.mem) ptr := by
  rcases kallocPage_spec hi.zone hi.small (hi.unlocked _) (Nat.zero_le maxOrder) with
    ⟨p, h', hok, -⟩ | ⟨h', hpanic⟩
  · obtain ⟨q, hptr, hg, hf, hmem⟩ := kallocPage_grows hi (Nat.zero_le maxOrder) hok
    rw [hptr] at hok hf
    have hlt : pageAddr q + 4096 ≤ 2 ^ 32 := by
      have hq := hg.inv.zone.lt (HeapInv.page_mem (List.mem_cons_self ..))
      exact pageAddr_end (hq.trans_le hi.small)
    obtain ⟨hg', hf'⟩ := hg.store_fresh (List.mem_cons_self ..) hf (hfill _ _ hlt)
    rw [hok, Outcome.bind_ok]
    refine .inl ⟨_, _, rfl, hg', ⟨q, rfl, List.mem_cons_self ..⟩, hf', ?_, hlt⟩
    exact congrArg (fill _) hmem
  · rw [hpanic, Outcome.bind_panic]
    exact .inr ⟨⟨h', rfl⟩, Nat.lt_succ_of_le (kallocPage_full hi hpanic)⟩

/-- If the call returns, it has left settled memory alone and its result meets `Q`. -/
def Returns {α : Type} (L : Layout) (v : HeapView) (x : Outcome Heap α) (Q : α → HeapView → Prop) :
    Prop :=
  ∀ a h', x = .ok a h' → ∃ k v', v'.heap = h' ∧ Grows L k v v' ∧ Q a v'

theorem Allocates.returns (hx : Allocates L k v x Q) : Returns L v x Q := by
  intro a h' hok
  obtain ⟨v', hv', hg, hq⟩ := hx.ok hok
  exact ⟨k, v', hv', hg, hq⟩

theorem Returns.pure {a : α} (hi : v.Inv L) (hq : Q a v) : Returns L v (.ok a v.heap) Q :=
  (Allocates.pure hi hq).returns

theorem Returns.bind {f : α → Heap → Outcome Heap β} {R : β → HeapView → Prop}
    (hx : Returns L v x Q)
    (hf : ∀ a v' k, Grows L k v v' → Q a v' → Returns L v' (f a v'.heap) R) :
    Returns L v (x.bind f) R := by
  intro b h' hok
  obtain ⟨a, h₁, hok₁, hok₂⟩ := Outcome.bind_eq_ok.mp hok
  obtain ⟨k₁, v₁, rfl, hg₁, hq⟩ := hx a h₁ hok₁
  obtain ⟨k₂, v₂, hv₂, hg₂, hr⟩ := hf a v₁ k₁ hg₁ hq b h' hok₂
  exact ⟨k₁ + k₂, v₂, hv₂, hg₁.trans hg₂, hr⟩

theorem leastOrder_fits {pages n order r : ℕ} (h : leastOrder pages n order = r)
    (hr : r < 2 ^ 32 - 1) : pages ≤ 2 ^ r := by
  induction n generalizing order with
  | zero => exact absurd (h ▸ hr) (lt_irrefl _)
  | succ n ih =>
    rw [leastOrder, pagesPerBlock_eq] at h
    by_cases hle : pages ≤ 2 ^ order
    · rw [if_pos hle] at h
      exact h ▸ hle
    · rw [if_neg hle] at h
      exact ih h

structure NewBlock (L : Layout) (v v' : HeapView) (n ptr order : ℕ) : Prop where
  page : ∃ p, ptr = pageAddr p
  large : n ≤ 4096 * 2 ^ order
  fits : ptr + 4096 * 2 ^ order ≤ 2 ^ 32
  fresh : Fresh L v v' (blockAt ptr order)
  mem : v'.heap.mem = v.heap.mem

theorem returns_kmalloc (hi : v.Inv L) (n : ℕ) : Returns L v (kmalloc n v.heap) fun ptr v' =>
    maxSlabSize < n → ∃ order, NewBlock L v v' n ptr order := by
  intro ptr h' hok
  by_cases hn : n ≤ maxSlabSize
  · obtain ⟨c', hg⟩ := kmalloc_grows hi hn hok
    exact ⟨1, _, rfl, hg, fun hlt => absurd hn (Nat.not_le.mpr hlt)⟩
  · rw [kmalloc, if_neg hn] at hok
    have ho : calcPageOrder n ≤ maxOrder := by
      by_contra hlt
      rw [kallocPage, getLock_free (hi.unlocked _), Outcome.bind_ok, kallocNosleep, getBuddyNew,
        if_pos (Nat.lt_of_not_le hlt)] at hok
      cases hok
    obtain ⟨p, rfl, hg, hf, hmem⟩ := kallocPage_grows hi ho hok
    refine ⟨_, _, rfl, hg, fun _ => ⟨calcPageOrder n, ⟨p, rfl⟩, ?_, ?_, hf, hmem⟩⟩
    · have hfit : _ ≤ 2 ^ calcPageOrder n :=
        leastOrder_fits rfl (ho.trans_lt (by decide))
      unfold pageSize at hfit
      split at hfit <;> omega
    · have hmemp := HeapInv.page_mem (List.mem_cons_self (a := (p, calcPageOrder n)) (l := v.pages))
        (L := L) (c := v.cache)
      have hend := hg.inv.zone.block_end hmemp
      rw [hg.inv.page_order _ (List.mem_cons_self ..)] at hend
      have hsmall := hg.inv.small
      have hbytes : 4096 * (p + 2 ^ calcPageOrder n) ≤ 4096 * 2 ^ 17 :=
        Nat.mul_le_mul_left _ (hend.trans hsmall)
      rw [pageAddr_eq]
      omega

end Rules

end X86Osdev.Mem

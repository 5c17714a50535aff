import X86Osdev.Mem.KfreeRouting

/-! Safety of the kernel heap across pages and slabs: live regions never overlap each other or the
bookkeeping of the cache, and every call returns or finds the zone exhausted. -/

namespace X86Osdev.Mem
open X86Osdev.Lib DyadicTiling

structure HeapSafe (σ : Sys) : Prop where
  nonNull : ∀ r ∈ σ.live, r.ptr ≠ 0
  disjoint : σ.live.Pairwise fun r r' => Disjoint r.range r'.range
  slab_headers : ∀ r ∈ σ.live, ∀ s ∈ σ.slabs, 0 < Slab.alloc σ.heap.mem s →
    Disjoint r.range (Set.Ico s (s + sizeofSlab))
  buf_headers : ∀ r ∈ σ.live, ∀ s ∈ σ.slabs, 0 < Slab.alloc σ.heap.mem s →
    ∀ i ≤ Slab.tot σ.heap.mem s, Disjoint r.range
      (Set.Ico (bufAt s (Slab.size σ.heap.mem s) i) (bufAt s (Slab.size σ.heap.mem s) i + sizeofBuf))
  inside : ∀ r ∈ σ.live, pageAddr 0 ≤ r.ptr ∧
    r.ptr + r.bytes ≤ pageAddr σ.heap.kernelBuddyNew.totPages
  order : ∀ r ∈ σ.live, ∀ order, r.kind = .block order →
    (σ.heap.kernelBuddyNew.allBuddies (pageOf r.ptr)).order = order ∧ LeastOrder r.bytes order

def blockRange (p order : ℕ) : Set ℕ := Set.Ico (pageAddr p) (pageAddr p + 4096 * 2 ^ order)

section Ranges
variable {p q o o' a b a' b' : ℕ}

theorem blockRange_disjoint (h : Disjoint (span p o) (span q o')) :
    Disjoint (blockRange p o) (blockRange q o') := by
  rw [Set.disjoint_left]
  rintro x ⟨hlo, hhi⟩ ⟨hlo', hhi'⟩
  rw [pageAddr_eq] at hlo hhi hlo' hhi'
  have hpage : ∀ {r k : ℕ}, 3221225472 + r * 4096 ≤ x → x < 3221225472 + r * 4096 + 4096 * 2 ^ k →
      (x - 3221225472) / 4096 ∈ span r k := by
    intro r k h₁ h₂
    rw [mem_span]
    omega
  exact Set.disjoint_left.mp h (hpage hlo hhi) (hpage hlo' hhi')

theorem ico_disjoint (h : b ≤ a' ∨ b' ≤ a) : Disjoint (Set.Ico a b) (Set.Ico a' b') := by
  rw [Set.disjoint_left]
  rintro x ⟨h₁, h₂⟩ ⟨h₃, h₄⟩
  omega

end Ranges

section Safe
variable {L : Layout} {c : Cache} {σ : Sys} {r r' : Region} {s i : ℕ}

theorem SysInv.range_bounds (hi : SysInv L c σ) (hr : r ∈ σ.live) :
    pageAddr (pageOf r.ptr) ≤ r.ptr ∧ r.ptr + r.bytes ≤
      pageAddr (pageOf r.ptr) + 4096 * 2 ^ orderOf σ.heap.kernelBuddyNew (pageOf r.ptr) := by
  cases hk : r.kind with
  | object =>
    obtain ⟨s, hs, i, hil, hptr, hbytes⟩ := hi.live.object r hr hk
    have hsp := hi.heap.cache.placed s hs
    have hilt := (c.view s).live_lt hil
    have h4 := (c.view s).size_ge
    have hpage := pageOf_object hsp hilt (by omega)
    have hge := bufAt_ge s (c.view s).size i
    have hend := @bufAt_end s _ _ hilt
    rw [← hptr] at hpage
    rw [hpage, hi.heap.slab_order s hs, pageAddr_pageOf hsp.aligned hsp.kernel, pow_zero]
    exact ⟨by omega, by omega⟩
  | block order =>
    obtain ⟨hptr, hfit, -⟩ := hi.live.block r hr order hk
    have hord : orderOf σ.heap.kernelBuddyNew (pageOf r.ptr) = order :=
      hi.heap.page_order _ (mem_blockPages hr hk)
    rw [hord, ← hptr]
    exact ⟨le_rfl, by omega⟩

theorem SysInv.range_subset (hi : SysInv L c σ) (hr : r ∈ σ.live) :
    r.range ⊆ blockRange (pageOf r.ptr) (orderOf σ.heap.kernelBuddyNew (pageOf r.ptr)) :=
  Set.Ico_subset_Ico (hi.range_bounds hr).1 (hi.range_bounds hr).2

theorem SysInv.blocks_disjoint (hi : SysInv L c σ) {p q : ℕ}
    (hp : p ∈ handedPages L c (blockPages σ.live)) (hq : q ∈ handedPages L c (blockPages σ.live))
    (hpq : p ≠ q) : Disjoint (blockRange p (orderOf σ.heap.kernelBuddyNew p))
      (blockRange q (orderOf σ.heap.kernelBuddyNew q)) :=
  blockRange_disjoint (hi.heap.zone.spans_disjoint hp hq hpq)

theorem SysInv.region_of_slab (hi : SysInv L c σ) (hr : r ∈ σ.live) (hs : s ∈ c.slabs)
    (hpage : pageOf r.ptr = pageOf s) : ∃ i ∈ (c.view s).live,
      r.ptr = bufAt s (c.view s).size i + 8 ∧ r.bytes ≤ (c.view s).size := by
  have hsp := hi.heap.cache.placed s hs
  cases hk : r.kind with
  | object =>
    obtain ⟨t, ht, j, hj, hptr, hbytes⟩ := hi.live.object r hr hk
    have htp := hi.heap.cache.placed t ht
    have h4 := (c.view t).size_ge
    have htpage := pageOf_object htp ((c.view t).live_lt hj) (by omega)
    rw [← hptr, hpage] at htpage
    have hst := pageOf_inj hsp.aligned hsp.kernel htp.aligned htp.kernel htpage
    subst hst
    exact ⟨j, hj, hptr, hbytes⟩
  | block order =>
    exact absurd hpage ((hi.heap.page_separate (mem_blockPages hr hk)).2 s hs)

theorem SysInv.ranges_disjoint (hi : SysInv L c σ) (hr : r ∈ σ.live) (hr' : r' ∈ σ.live)
    (hne : r.ptr ≠ r'.ptr) : Disjoint r.range r'.range := by
  by_cases hpage : pageOf r.ptr = pageOf r'.ptr
  · cases hk : r.kind with
    | object =>
      obtain ⟨s, hs, i, hil, hptr, hbytes⟩ := hi.live.object r hr hk
      have h4 := (c.view s).size_ge
      have hspage := pageOf_object (hi.heap.cache.placed s hs) ((c.view s).live_lt hil) (by omega)
      rw [← hptr, hpage] at hspage
      obtain ⟨j, -, hptr', hbytes'⟩ := hi.region_of_slab hr' hs hspage
      have hij : i ≠ j := by
        rintro rfl
        exact hne (hptr.trans hptr'.symm)
      have hap := @bufAt_apart s (c.view s).size _ _ hij
      exact ico_disjoint (by omega)
    | block order =>
      obtain ⟨hptr, -⟩ := hi.live.block r hr order hk
      cases hk' : r'.kind with
      | object =>
        obtain ⟨s, hs, i, hil, hptr', -⟩ := hi.live.object r' hr' hk'
        have h4 := (c.view s).size_ge
        have hspage := pageOf_object (hi.heap.cache.placed s hs) ((c.view s).live_lt hil) (by omega)
        rw [← hptr', ← hpage] at hspage
        exact absurd hspage ((hi.heap.page_separate (mem_blockPages hr hk)).2 s hs)
      | block order' =>
        obtain ⟨hptr', -⟩ := hi.live.block r' hr' order' hk'
        rw [hpage, ← hptr'] at hptr
        exact absurd hptr hne
  · exact (hi.blocks_disjoint (hi.heap.pageOf_region hi.live hr)
      (hi.heap.pageOf_region hi.live hr') hpage).mono (hi.range_subset hr) (hi.range_subset hr')

theorem SysInv.headers_disjoint (hi : SysInv L c σ) (hr : r ∈ σ.live) (hs : s ∈ c.slabs)
    {a b : ℕ} (hlo : s ≤ a) (hhi : b ≤ s + 4096)
    (hown : ∀ i ∈ (c.view s).live, b ≤ bufAt s (c.view s).size i + 8 ∨
      bufAt s (c.view s).size i + 8 + (c.view s).size ≤ a) : Disjoint r.range (Set.Ico a b) := by
  have hsp := hi.heap.cache.placed s hs
  by_cases hpage : pageOf r.ptr = pageOf s
  · obtain ⟨i, hil, hptr, hbytes⟩ := hi.region_of_slab hr hs hpage
    have hap := hown i hil
    exact ico_disjoint (by omega)
  · have hdis := hi.blocks_disjoint (hi.heap.pageOf_region hi.live hr) (HeapInv.slab_mem hs) hpage
    refine hdis.mono (hi.range_subset hr) ?_
    rw [hi.heap.slab_order s hs, blockRange, pageAddr_pageOf hsp.aligned hsp.kernel, pow_zero]
    rintro x ⟨h₁, h₂⟩
    exact ⟨by omega, by omega⟩

theorem SysInv.heapSafe (hi : SysInv L c σ) : HeapSafe σ := by
  have htot := hi.heap.zone.totPages
  -- A region lies in the block of its page, and that block in the zone.
  have hin : ∀ r ∈ σ.live, pageAddr 0 ≤ r.ptr ∧
      r.ptr + r.bytes ≤ pageAddr σ.heap.kernelBuddyNew.totPages := by
    intro r hr
    have hm := hi.heap.pageOf_region hi.live hr
    have hend := hi.heap.zone.block_end hm
    have hmul : (pageOf r.ptr + 2 ^ orderOf σ.heap.kernelBuddyNew (pageOf r.ptr)) * 4096 ≤
        L.numPages * 4096 := Nat.mul_le_mul_right _ hend
    have hbase := hi.range_bounds hr
    rw [htot, pageAddr_eq, pageAddr_eq]
    rw [pageAddr_eq] at hbase
    exact ⟨by omega, by omega⟩
  constructor
  · intro r hr h0
    have hlo := (hin r hr).1
    rw [h0] at hlo
    exact absurd hlo (by decide)
  · refine (List.pairwise_map.mp hi.live.nodup).imp_of_mem fun {r r'} hr hr' hne => ?_
    exact hi.ranges_disjoint hr hr' hne
  · intro r hr s hs _
    rw [hi.slabs] at hs
    exact hi.headers_disjoint hr hs le_rfl (by unfold sizeofSlab; omega) fun i _ => .inl (by
      have := bufAt_ge s (c.view s).size i
      unfold sizeofSlab
      omega)
  · intro r hr s hs _ i hit
    rw [hi.slabs] at hs
    have hm := hi.heap.cache.slab s hs
    have h7 := chunks_ge (c.view s).size_le
    rw [hm.fixed.tot_eq, slabTot_eq (c.view s).size_le] at hit
    rw [hm.fixed.size_eq]
    have hge := bufAt_ge s (c.view s).size i
    have hend := @bufAt_end s (c.view s).size i (by omega)
    unfold sizeofBuf
    refine hi.headers_disjoint hr hs (by omega) (by omega) fun j _ => ?_
    by_cases hij : i = j
    · subst hij
      exact .inl le_rfl
    · have := @bufAt_apart s (c.view s).size _ _ hij
      omega
  · exact hin
  · intro r hr order hk
    exact ⟨hi.heap.page_order _ (mem_blockPages hr hk), (hi.live.block r hr order hk).2⟩

def ReturnsOrFull {α : Type} (good : α → Prop) (x : Outcome Heap α) : Prop :=
  (∃ a h', x = .ok a h' ∧ good a) ∨ ∃ h', x = .panic outOfMemory h'

theorem pageAddr_ne_zero (p : ℕ) : pageAddr p ≠ 0 := by
  rw [pageAddr_eq]
  omega

theorem SysInv.kmalloc_returns (hi : SysInv L c σ) {n : ℕ} (hn : n ≤ 2 ^ 22) :
    ReturnsOrFull (· ≠ 0) (kmalloc n σ.heap) := by
  rcases Nat.lt_or_ge maxSlabSize n with hlt | hle
  · rcases hi.kmalloc_large hlt hn with ⟨p, h', hok, -⟩ | hpanic
    · exact .inl ⟨_, h', hok, pageAddr_ne_zero p⟩
    · exact .inr hpanic
  · rcases hi.kmalloc_small hle with ⟨p, h', -, hok, hp, -, -⟩ | hpanic
    · exact .inl ⟨p, h', hok, hp⟩
    · exact .inr hpanic

end Safe

/-- Every reachable heap is safe, and every call on it returns a pointer or stops for want of memory.
A large `kmalloc` asks for the least order that is large enough. -/
theorem heap_safety {totalPages : ℕ} {σ : Sys} (h : HeapReach totalPages σ) :
    HeapSafe σ ∧
      (∀ n ≤ 4 * 1024 * 1024, ReturnsOrFull (· ≠ 0) (kmalloc n σ.heap)) ∧
      (∀ order ≤ maxOrder, ReturnsOrFull (· ≠ 0) (kallocPage order σ.heap) ∧
        ReturnsOrFull (· ≠ 0) (kallocNosleep order σ.heap)) ∧
      (∀ r ∈ σ.live, (r.kind = .object → ∃ h', sfree r.ptr σ.heap = .ok true h') ∧
        ∀ order, r.kind = .block order → ∃ h', kfreePage r.ptr σ.heap = .ok () h') ∧
      ∀ n, maxSlabSize < n → n ≤ 4 * 1024 * 1024 →
        kmalloc n σ.heap = kallocPage (calcPageOrder n) σ.heap ∧
          LeastOrder n (calcPageOrder n) := by
  obtain ⟨L, c, hi, -⟩ := h.sysInv
  refine ⟨hi.heapSafe, fun n hn => hi.kmalloc_returns hn, fun order ho => ⟨?_, ?_⟩,
    fun r hr => ⟨fun hk => ?_, fun order hk => ?_⟩, fun n hlt hn => ⟨if_neg (not_le.mpr hlt), ?_⟩⟩
  · rcases hi.kallocPage ho with ⟨p, h', hok, -⟩ | hpanic
    · exact .inl ⟨_, h', hok, pageAddr_ne_zero p⟩
    · exact .inr hpanic
  · rcases hi.kallocNosleep ho with ⟨p, h', hok, -⟩ | hpanic
    · exact .inl ⟨_, h', hok, pageAddr_ne_zero p⟩
    · exact .inr ⟨_, hpanic⟩
  · obtain ⟨h', -, hok, -⟩ := hi.sfree hr hk
    exact ⟨h', hok⟩
  · obtain ⟨-, h', -, hok, -⟩ := hi.kfreePage hr hk
    exact ⟨h', hok⟩
  · exact (calcPageOrder_spec hn).2

/-- Two pages and an object are live: they are apart, and each goes back to its allocator. -/
theorem heap_safety_boot : ∃ (σ : Sys) (obj page : Region) (h h' : Heap), HeapReach 114688 σ ∧ HeapSafe σ ∧
    obj ∈ σ.live ∧ page ∈ σ.live ∧ σ.live.length = 3 ∧
    sfree obj.ptr σ.heap = .ok true h ∧ kfreePage page.ptr σ.heap = .ok () h' := by
  obtain ⟨L, c, h, hst, hreach⟩ := heapReach_boot
  have hi := hst.sysInv
  have hfirst := hst.first_le
  have hnum : L.numPages = 14336 := hst.numPages
  have hused : SysInv.used L c ⟨h, c.slabs, []⟩ = L.first + 27 := hst.used
  have h1024 : 2 ^ maxOrder = 1024 := rfl
  obtain ⟨ps, σ₁, hrun, hi₁, hlen, hlive, -⟩ := hi.kmalloc_pages (k := 2) (by omega)
  rcases hi₁.salloc 4 with ⟨s, i, h₂, c₂, -, hok, -⟩ | ⟨hnone, -⟩
  swap
  · exact absurd hnone hst.find_four
  let obj : Region := ⟨bufAt s 4 i + 8, 4, .object⟩
  have hreach₂ : HeapReach 114688 ⟨h₂, σ₁.slabs, obj :: σ₁.live⟩ :=
    (hreach.run hrun).run (.single (.salloc (Nat.succ_ne_zero _) hok))
  obtain ⟨hsafe, -, -, hfrees, -⟩ := heap_safety hreach₂
  obtain ⟨q, ps, rfl⟩ := List.exists_cons_of_length_eq_add_one hlen
  have hpage : pageRegion q ∈ obj :: σ₁.live := by simp [hlive]
  have hobj : obj ∈ obj :: σ₁.live := List.mem_cons_self ..
  obtain ⟨h₃, hsfree⟩ := (hfrees obj hobj).1 rfl
  obtain ⟨h₄, hkfree⟩ := (hfrees (pageRegion q) hpage).2 _ rfl
  refine ⟨_, obj, pageRegion q, h₃, h₄, hreach₂, hsafe, hobj, hpage, ?_, hsfree, hkfree⟩
  rw [List.length_cons, hlive, List.length_append, List.length_map, hlen]
  rfl

end X86Osdev.Mem

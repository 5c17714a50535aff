import X86Osdev.Mem.HeapFrame
import X86Osdev.Mem.KfreeRouting

/-! What clients have stored stays: the allocators write to their own books only, so a byte of a live
region changes by stores of clients and by nothing else. -/

namespace X86Osdev.Mem
open X86Osdev.Lib ByteMemory CircularList DyadicTiling

/-- The books of the cache: the links of its lists and the words in the headers of slabs and chunks. -/
def bookBytes (kc : ℕ) (c : Cache) : Set ℕ :=
  linkBytes (cacheNodes kc c.slabs) ∪ {x | ∃ s ∈ c.slabs, x ∈ mutableBytes s (c.view s).size}

section Books
variable {h h' : Heap} {m m₁ : Memory} {kc s i p size tickCount : ℕ} {c : Cache} {chain : List ℕ} {freed : Bool}

theorem mutableBytes_subset_books (hs : s ∈ c.slabs) : mutableBytes s (c.view s).size ⊆ bookBytes kc c :=
  fun _ hx => .inr ⟨s, hs, hx⟩

theorem bookBytes_subset (hf : kc + 36 ≤ 2 ^ 32) : bookBytes kc c ⊆ cacheBytes kc c.slabs := by
  rintro x (hx | ⟨s, hs, hx⟩)
  · exact linkBytes_subset hf hx
  · exact mutableBytes_subset hs hx

theorem CacheInv.books_toTail (hc : CacheInv m kc c) (hs : s ∈ c.slabs) (hl : c.loose ≠ some s)
    (ht : Touches (2 ^ 32) (mutableBytes s (c.view s).size) m m₁) (l : CacheList) :
    Touches (2 ^ 32) (bookBytes kc c) m (moveToTail kc l s m₁) := by
  obtain ⟨-, htl⟩ := rings_moveToTail hc.fits hc.placed hs (hc.rings_mutable hs ht) hc.nodesIn
    (hc.mem_own hs hl) l
  exact (ht.mono (mutableBytes_subset_books hs)).trans (htl.mono Set.subset_union_left)

theorem CacheInv.books_toHead (hc : CacheInv m kc c) (hs : s ∈ c.slabs) (hl : c.loose ≠ some s)
    (ht : Touches (2 ^ 32) (mutableBytes s (c.view s).size) m m₁) (l : CacheList) :
    Touches (2 ^ 32) (bookBytes kc c) m (moveToHead kc l s m₁) := by
  obtain ⟨-, htl⟩ := rings_moveToHead hc.fits hc.placed hs (hc.rings_mutable hs ht) hc.nodesIn
    (hc.mem_own hs hl) l
  exact (ht.mono (mutableBytes_subset_books hs)).trans (htl.mono Set.subset_union_left)

theorem takeFromUsed_books (hc : CacheInv h.mem h.kMemCache c) (hs : s ∈ c.slabs) (hl : c.loose ≠ some s)
    (hch : (c.view s).chain = i :: chain) (hlt : (c.view s).live.length < slabTot (c.view s).size)
    (hok : takeFromUsed s h = .ok p h') : Touches (2 ^ 32) (bookBytes h.kMemCache c) h.mem h'.mem := by
  obtain ⟨hff, hi, -, ht⟩ := hc.takeBuf hs hch hlt
  rw [takeFromUsed, hff] at hok
  simp only [if_neg (hc.chunk_address hs hi).2, Outcome.ok.injEq] at hok
  rw [← hok.2]
  simp only [unlock]
  split
  · exact hc.books_toTail hs hl (ht.trans (touches_setAlloc (hc.placed s hs).fits)) .empty
  · exact ht.mono (mutableBytes_subset_books hs)

theorem takeFromFree_books (hc : CacheInv h.mem h.kMemCache c) (hs : s ∈ c.slabs) (hl : c.loose ≠ some s)
    (hch : (c.view s).chain = i :: chain) (hlt : (c.view s).live.length < slabTot (c.view s).size)
    (hok : takeFromFree s h = .ok p h') : Touches (2 ^ 32) (bookBytes h.kMemCache c) h.mem h'.mem := by
  obtain ⟨hff, hi, -, ht⟩ := hc.takeBuf hs hch hlt
  rw [takeFromFree, hff] at hok
  simp only [if_neg (hc.chunk_address hs hi).2, Outcome.ok.injEq] at hok
  rw [← hok.2]
  exact hc.books_toTail hs hl ht .used

theorem salloc_books (hc : CacheInv h.mem h.kMemCache c) (hlock : h.locks .slabLock = false)
    (hok : salloc size h = .ok p h') : Touches (2 ^ 32) (bookBytes h.kMemCache c) h.mem h'.mem := by
  cases hf : c.find size with
  | none =>
    rw [salloc_none hc hlock hf] at hok
    obtain ⟨-, rfl⟩ := Outcome.ok.inj hok
    exact .refl _ _ _
  | some s =>
    obtain ⟨hs, hl, -, hlt, -⟩ := hc.find_some hf
    obtain ⟨i, chain, hch⟩ := List.exists_cons_of_ne_nil (c.view s).chain_ne_nil
    set h₁ : Heap := { h with locks := Function.update h.locks .slabLock true }
    have hc₁ : CacheInv h₁.mem h₁.kMemCache c := hc
    rw [salloc, getLock_free hlock, Outcome.bind_ok] at hok
    rw [Cache.find, Option.or_eq_some_iff] at hf
    rcases hf with hf | ⟨hnone, hf⟩
    · rw [findIn_eq hc₁, hf] at hok
      exact takeFromUsed_books (h := h₁) hc₁ hs hl hch hlt hok
    · rw [findIn_eq hc₁, hnone, findIn_eq hc₁, hf] at hok
      exact takeFromFree_books (h := h₁) hc₁ hs hl hch hlt hok

theorem CacheInv.giveBuf_books (hc : CacheInv m kc c) (hs : s ∈ c.slabs) (hi : i ∈ (c.view s).live) :
    Touches (2 ^ 32) (bookBytes kc c) m (Mem.giveBuf kc tickCount s (bufAt s (c.view s).size i) m) := by
  have ht := @touches_linkBuf m _ _ (Slab.alloc m s - 1) _ tickCount
    (Slab.firstFree (Slab.setAlloc m s (Slab.alloc m s - 1)) s)
    (bufAt s (c.view s).size i) (hc.placed s hs).fits ((c.view s).live_lt hi)
  unfold Mem.giveBuf
  dsimp only
  split
  · exact hc.books_toTail hs (hc.loose_ne hi) ht .free
  · exact hc.books_toHead hs (hc.loose_ne hi) ht .used

theorem sfree_books (hc : CacheInv h.mem h.kMemCache c) (hlock : h.locks .slabLock = false)
    (hs : s ∈ c.slabs) (hi : i ∈ (c.view s).live)
    (hok : sfree (bufAt s (c.view s).size i + 8) h = .ok freed h') :
    Touches (2 ^ 32) (bookBytes h.kMemCache c) h.mem h'.mem := by
  have hlt := (c.view s).live_lt hi
  have hend := @bufAt_end s _ _ hlt
  have hfit := (hc.placed s hs).fits
  have hbuf : u32 (bufAt s (c.view s).size i + 8 + (2 ^ 32 - sizeofBuf)) = bufAt s (c.view s).size i := by
    unfold u32 sizeofBuf
    omega
  rw [sfree, getLock_free hlock, Outcome.bind_ok] at hok
  simp only [hbuf, (hc.slab s hs).fixed.owner i hlt] at hok
  split at hok
  · obtain ⟨-, rfl⟩ := Outcome.ok.inj hok
    exact .refl _ _ _
  · split at hok
    · obtain ⟨-, rfl⟩ := Outcome.ok.inj hok
      exact .refl _ _ _
    · rw [Outcome.ok.injEq] at hok
      rw [← hok.2]
      simp only [unlock]
      exact hc.giveBuf_books hs hi

theorem CacheInv.linkSlab_books (hc : CacheInv m kc c) (hp : Placed kc s) (hs : s ∉ c.slabs)
    (hz : size ≤ maxSlabSize) :
    Touches (2 ^ 32) (bookBytes kc c ∪ pageBytes s) m (Mem.linkSlab kc s size m) := by
  have hfit := hp.fits
  obtain ⟨-, htnew⟩ := newSlab_spec (m := m) hfit hz
  obtain ⟨hslab, hlink⟩ := hc.page_apart hp hs
  have hown : Spaced {s + 16} := by
    rintro x rfl
    exact ⟨by omega, fun y hy hne => absurd (Set.mem_singleton_iff.mp hy).symm hne⟩
  have hsub : linkBytes {s + 16} ⊆ pageBytes s := by
    rintro x ⟨n, rfl, hx, hx'⟩
    exact ⟨by omega, by omega⟩
  have htinit := (touches_listInit (m := newSlab s size m) hown (Set.mem_singleton (s + 16))).mono hsub
  have hc₂ := hc.touches (htnew.trans htinit) hslab hlink
  have hplaced : ∀ t ∈ s :: c.slabs, Placed kc t := List.forall_mem_cons.mpr ⟨hp, hc.placed⟩
  have hnodes : cacheNodes kc c.slabs ⊆ cacheNodes kc (s :: c.slabs) := by
    rintro x (hx | ⟨t, ht, rfl⟩)
    · exact .inl hx
    · exact .inr ⟨t, List.mem_cons_of_mem _ ht, rfl⟩
  have ht := touches_listAddTail (spaced_cacheNodes hc.fits hplaced) (.inl ⟨.free, rfl⟩)
    (.inr ⟨s, List.mem_cons_self .., rfl⟩)
    (hnodes (hc₂.nodesIn .free _ (seg_prev_mem (hc₂.rings.carries .free).seg)))
  have hall : linkBytes (cacheNodes kc (s :: c.slabs)) ⊆ bookBytes kc c ∪ pageBytes s := by
    rintro x ⟨n, ⟨l, rfl⟩ | ⟨t, ht, rfl⟩, hn, hn'⟩
    · exact .inl (.inl ⟨_, .inl ⟨l, rfl⟩, hn, hn'⟩)
    · rcases List.mem_cons.mp ht with rfl | ht
      · exact .inr ⟨by omega, by omega⟩
      · exact .inl (.inl ⟨_, .inr ⟨t, ht, rfl⟩, hn, hn'⟩)
  rw [Mem.linkSlab, slabHead_eq hp]
  exact ((htnew.trans htinit).mono Set.subset_union_right).trans (ht.mono hall)

end Books

section NewSlab
variable {L : Layout} {h h' : Heap} {c : Cache} {pages : List (ℕ × ℕ)} {s size order p : ℕ} {noSleep : Bool}

theorem HeapInv.kallocPage_mem (hh : HeapInv L h c pages) (ho : order ≤ maxOrder)
    (hok : Mem.kallocPage order h = .ok p h') : h'.mem = h.mem := by
  rcases kallocPage_spec hh.zone hh.small (hh.unlocked _) ho with ⟨q, h₁, hok', -, -, -, hs⟩ | ⟨h₁, hpanic⟩
  · obtain ⟨-, rfl⟩ := Outcome.ok.inj (hok.symm.trans hok')
    exact hs.mem
  · cases hok.symm.trans hpanic

theorem HeapInv.kallocNosleep_mem (hh : HeapInv L h c pages) (ho : order ≤ maxOrder)
    (hok : Mem.kallocNosleep order h = .ok p h') : h'.mem = h.mem := by
  rcases kallocNosleep_spec hh.zone hh.small ho with ⟨q, h₁, hok', -, -, -, hs⟩ | hpanic
  · obtain ⟨-, rfl⟩ := Outcome.ok.inj (hok.symm.trans hok')
    exact hs.mem
  · cases hok.symm.trans hpanic

theorem HeapInv.createSlab_books (hh : HeapInv L h c pages) (hz : size ≤ maxSlabSize)
    (hok : Mem.createSlab size noSleep h = .ok s h') :
    Touches (2 ^ 32) (bookBytes h.kMemCache c ∪ pageBytes s) h.mem h'.mem := by
  have hpage : (∃ p h₁, (if noSleep = true then Mem.kallocNosleep 0 h else Mem.kallocPage 0 h) =
        .ok (pageAddr p) h₁ ∧ RunInv L.numPages 0 h₁.kernelBuddyNew (p :: handedPages L c pages) ∧
        orderOf h₁.kernelBuddyNew p = 0 ∧ (∀ q ∈ handedPages L c pages,
          orderOf h₁.kernelBuddyNew q = orderOf h.kernelBuddyNew q) ∧ ZonesOnly h h₁) ∨
      ∃ h₁, (if noSleep = true then Mem.kallocNosleep 0 h else Mem.kallocPage 0 h) =
        .panic outOfMemory h₁ := by
    cases noSleep with
    | true =>
      rcases kallocNosleep_spec hh.zone hh.small (Nat.zero_le _) with hok | hpanic
      · exact .inl hok
      · exact .inr ⟨h, hpanic⟩
    | false => exact kallocPage_spec hh.zone hh.small (hh.unlocked _) (Nat.zero_le _)
  rw [Mem.createSlab] at hok
  rcases hpage with ⟨p, h₁, hpage, hi, -, hord, hs⟩ | ⟨h₁, hpanic⟩
  · rw [hpage, Outcome.bind_ok, createSlab_rest hz (by rw [hs.locks, hh.unlocked])] at hok
    obtain ⟨rfl, rfl⟩ := Outcome.ok.inj hok
    have hlt : p < 2 ^ 17 := lt_of_lt_of_le (hi.lt (h := h₁) (List.mem_cons_self ..)) hh.small
    have hplaced := hh.placed (hh.first_le hi hord) hlt
    have hnew : pageAddr p ∉ c.slabs := by
      intro hm
      have hmem := @HeapInv.slab_mem L _ pages _ hm
      rw [pageOf_pageAddr] at hmem
      exact (List.nodup_cons.mp hi.nodup).1 hmem
    change Touches _ _ _ (Mem.linkSlab h₁.kMemCache (pageAddr p) size h₁.mem)
    rw [hs.mem, hs.kMemCache]
    exact hh.cache.linkSlab_books hplaced hnew hz
  · rw [hpanic, Outcome.bind_panic] at hok
    cases hok

end NewSlab

section Contents
variable {L : Layout} {c : Cache} {σ σ' : Sys} {r : Region} {a p s size order : ℕ} {h' : Heap}

theorem SysInv.notMem_books (hi : SysInv L c σ) (hr : r ∈ σ.live) (ha : a ∈ r.range) :
    a < 2 ^ 32 ∧ a ∉ bookBytes σ.heap.kMemCache c := by
  have hcache := hi.heap.cache
  obtain ⟨hlo, hhi⟩ := ha
  cases hk : r.kind with
  | object =>
    obtain ⟨s, hs, i, hil, hptr, hbytes⟩ := hi.live.object r hr hk
    have hsp := hcache.placed s hs
    have hfit := hsp.fits
    have hge := bufAt_ge s (c.view s).size i
    have hend := @bufAt_end s _ _ ((c.view s).live_lt hil)
    refine ⟨by omega, ?_⟩
    rintro (⟨n, ⟨l, rfl⟩ | ⟨t, ht, rfl⟩, hn, hn'⟩ | ⟨t, ht, hat⟩)
    · have := cacheList_bounds hcache.fits l
      have := hsp.above
      omega
    · by_cases hts : t = s
      · subst hts
        omega
      · have := hsp.apart (hcache.placed t ht) (Ne.symm hts)
        omega
    · by_cases hts : t = s
      · subst hts
        obtain ⟨w, hw, hwa, haw⟩ := hat
        exact chunk_not_slabBytes (i := i) (by omega) (by omega) (.inr ⟨w, .inr hw, hwa, haw⟩)
      · have := mem_mutableBytes_bounds hat
        have := hsp.apart (hcache.placed t ht) (Ne.symm hts)
        omega
  | block order =>
    obtain ⟨hptr, hbytes, -⟩ := hi.live.block r hr order hk
    have hin : a ∈ blockAt (pageAddr (pageOf r.ptr)) order := by
      rw [← hptr]
      exact ⟨hlo, by omega⟩
    have hset := HeapInv.block_settled (v := ⟨σ.heap, c, blockPages σ.live⟩) hi.heap
      (mem_blockPages hr hk) hin
    exact ⟨hset.word, fun hb => hset.cache (bookBytes_subset hcache.fits hb)⟩

theorem SysInv.salloc_kept (hi : SysInv L c σ) (hr : r ∈ σ.live) (ha : a ∈ r.range)
    (hok : Mem.salloc size σ.heap = .ok p h') : h'.mem a = σ.heap.mem a := by
  obtain ⟨hlt, hbooks⟩ := hi.notMem_books hr ha
  exact salloc_books hi.heap.cache (hi.heap.unlocked _) hok a hlt hbooks

theorem SysInv.createSlab_kept (hi : SysInv L c σ) (h4 : 4 ≤ size) (hz : size ≤ maxSlabSize)
    {noSleep : Bool} (hr : r ∈ σ.live) (ha : a ∈ r.range)
    (hok : Mem.createSlab size noSleep σ.heap = .ok s h') : h'.mem a = σ.heap.mem a := by
  obtain ⟨hlt, hbooks⟩ := hi.notMem_books hr ha
  rcases hi.createSlab h4 hz noSleep with ⟨t, h₁, hok', hinv, -⟩ | ⟨h₁, hpanic⟩
  · obtain ⟨rfl, rfl⟩ := Outcome.ok.inj (hok.symm.trans hok')
    -- the new slab has no chunk handed out, so the region lies outside its page
    have hdis := hinv.headers_disjoint (r := r) (s := s) (a := s) (b := s + 4096) hr (List.mem_cons_self ..)
      le_rfl le_rfl (by simp [Cache.add, SlabState.fresh])
    refine hi.heap.createSlab_books hz hok a hlt ?_
    rintro (hb | hb)
    · exact hbooks hb
    · exact Set.disjoint_left.mp hdis ha hb
  · cases hok.symm.trans hpanic

theorem SysInv.kmalloc_kept (hi : SysInv L c σ) {n : ℕ} (hn : n ≤ maxSlabSize) (hr : r ∈ σ.live)
    (ha : a ∈ r.range) (hok : kmalloc n σ.heap = .ok p h') : h'.mem a = σ.heap.mem a := by
  have hsize : (if n < 4 then 4 else n) = max n 4 := by
    split <;> omega
  have hz : max n 4 ≤ maxSlabSize := max_le hn (by decide)
  simp only [kmalloc, if_pos hn, hsize] at hok
  rcases hi.salloc (max n 4) with ⟨s, i, h₁, c', -, hsome, -⟩ | ⟨-, hnull⟩
  · rw [hsome, Outcome.bind_ok, if_pos (by omega)] at hok
    obtain ⟨-, rfl⟩ := Outcome.ok.inj hok
    exact hi.salloc_kept hr ha hsome
  · rw [hnull, Outcome.bind_ok, if_neg (not_not.mpr rfl)] at hok
    rcases hi.createSlab (le_max_right n 4) hz false with ⟨s, h₁, hcreate, hinv, -⟩ | ⟨h₁, hpanic⟩
    · rw [hcreate, Outcome.bind_ok] at hok
      exact (hinv.salloc_kept hr ha hok).trans (hi.createSlab_kept (le_max_right n 4) hz hr ha hcreate)
    · rw [hpanic, Outcome.bind_panic] at hok
      cases hok

/-- The step is a client's store to the byte `a`. -/
def StoresTo (a : ℕ) (σ σ' : Sys) : Prop :=
  ∃ b v, u32 b = a ∧ σ' = σ.setHeap { σ.heap with mem := store8 σ.heap.mem b v }

theorem SysInv.contents_step (hi : SysInv L c σ) (hs : HeapStep σ σ') (hr : r ∈ σ.live) (ha : a ∈ r.range)
    (hspare : ¬ StoresTo a σ σ') : σ'.heap.mem a = σ.heap.mem a := by
  cases hs with
  | kmallocSmall hn hok => exact hi.kmalloc_kept hn hr ha hok
  | kmallocLarge hlt hn hok =>
    rw [kmalloc, if_neg (not_le.mpr hlt)] at hok
    exact congrFun (hi.heap.kallocPage_mem (calcPageOrder_spec hn).1 hok) a
  | kallocPage ho hok => exact congrFun (hi.heap.kallocPage_mem ho hok) a
  | kallocNosleep ho hok => exact congrFun (hi.heap.kallocNosleep_mem ho hok) a
  | createSlab h4 hz hok => exact hi.createSlab_kept h4 hz hr ha hok
  | salloc _ hok => exact hi.salloc_kept hr ha hok
  | sallocNull hok => exact hi.salloc_kept hr ha hok
  | sfree hr' hk hok =>
    obtain ⟨s, hs, i, hil, hptr, -⟩ := hi.live.object _ hr' hk
    obtain ⟨hlt, hbooks⟩ := hi.notMem_books hr ha
    rw [hptr] at hok
    exact sfree_books hi.heap.cache (hi.heap.unlocked _) hs hil hok a hlt hbooks
  | kfreePage hr' hk hok =>
    obtain ⟨-, h₁, -, hok', -, hmem, -⟩ := hi.kfreePage hr' hk
    obtain ⟨-, rfl⟩ := Outcome.ok.inj (hok.symm.trans hok')
    exact congrFun hmem a
  | @write b v hb =>
    have hne : a ≠ u32 b := fun e => hspare ⟨b, v, e.symm, rfl⟩
    exact Function.update_of_ne hne _ _
  | tick => rfl

end Contents

/-- As long as a region stays live, its bytes change by stores of clients to them only. -/
theorem live_contents {totalPages : ℕ} {σ σ' : Sys} {r : Region} {a : ℕ} (h : HeapReach totalPages σ)
    (hr : r ∈ σ.live) (ha : a ∈ r.range)
    (hrun : Relation.ReflTransGen (fun τ τ' => HeapStep τ τ' ∧ r ∈ τ'.live ∧ ¬ StoresTo a τ τ') σ σ') :
    σ'.heap.mem a = σ.heap.mem a := by
  suffices hall : HeapReach totalPages σ' ∧ r ∈ σ'.live ∧ σ'.heap.mem a = σ.heap.mem a from hall.2.2
  induction hrun with
  | refl => exact ⟨h, hr, rfl⟩
  | tail _ hs ih =>
    obtain ⟨hreach, hlive, hmem⟩ := ih
    obtain ⟨L, c, hi, -⟩ := hreach.sysInv
    exact ⟨hreach.run (.single hs.1), hs.2.1, (hi.contents_step hs.1 hlive ha hs.2.2).trans hmem⟩

/-- A byte that was stored into an object is still there after another object came and went. -/
theorem live_contents_kept : ∃ (σ σ' : Sys) (r : Region), HeapReach 114688 σ ∧ r ∈ σ.live ∧
    σ.heap.mem r.ptr = 7 ∧ HeapReach 114688 σ' ∧ r ∈ σ'.live ∧ σ'.heap.mem r.ptr = 7 := by
  obtain ⟨L, c₀, h₀, hst, hreach⟩ := heapReach_boot
  rcases hst.sysInv.salloc 4 with ⟨s, i, h₁, c, -, hok, hi, -, hsv⟩ | ⟨hnone, -⟩
  swap
  · exact absurd hnone hst.find_four
  set r : Region := ⟨bufAt s 4 i + 8, 4, .object⟩
  have ha : r.ptr ∈ r.range := ⟨le_rfl, Nat.lt_add_of_pos_right (Nat.succ_pos 3)⟩
  have hmem : r ∈ [r] := List.mem_singleton_self r
  have hclient : ClientByte ⟨h₁, c₀.slabs, [r]⟩ r.ptr := .inl ⟨r, hmem, ha⟩
  have hi' := hi.write (v := 7) hclient
  have hlt := (hi.notMem_books hmem ha).1
  set σ : Sys := Sys.setHeap ⟨h₁, c₀.slabs, [r]⟩ { h₁ with mem := store8 h₁.mem r.ptr 7 }
  have hσ : HeapReach 114688 σ :=
    (hreach.run (.single (.salloc (Nat.succ_ne_zero _) hok))).run (.single (.write hclient))
  have hseven : σ.heap.mem r.ptr = 7 := by
    change Function.update h₁.mem (r.ptr % 2 ^ 32) _ r.ptr = 7
    rw [Nat.mod_eq_of_lt hlt, Function.update_self]
    rfl
  -- the slab of the first object has room for a second one
  have hroom : c.find 4 ≠ none := by
    intro hnone
    have hfull := hi'.heap.cache.find_none.mp hnone s hsv.mem
      (by rw [hsv.loose, hst.fresh.loose]; exact (Option.some_ne_none s).symm) hsv.size_eq
    have hold : (if s ∈ c₀.slabs then (c₀.view s).live else []) = [] := by
      split
      · next hs => exact hst.fresh.live s hs
      · rfl
    rw [hsv.live, hold, hsv.size_eq, List.length_singleton] at hfull
    exact absurd hfull (by decide)
  rcases hi'.salloc 4 with ⟨t, j, h₂, c', -, hok₂, hi₂, -⟩ | ⟨hnone, -⟩
  swap
  · exact absurd hnone hroom
  set q : Region := ⟨bufAt t 4 j + 8, 4, .object⟩
  have hq : q ∈ q :: σ.live := List.mem_cons_self ..
  obtain ⟨h₃, -, hok₃, -⟩ := hi₂.sfree hq rfl
  have hstep₂ : HeapStep σ ⟨h₂, c₀.slabs, q :: σ.live⟩ := .salloc (Nat.succ_ne_zero _) hok₂
  have hstep₃ : HeapStep ⟨h₂, c₀.slabs, q :: σ.live⟩ ⟨h₃, c₀.slabs, (q :: σ.live).erase q⟩ := .sfree hq rfl hok₃
  have hback : (q :: σ.live).erase q = [r] := List.erase_cons_head ..
  rw [hback] at hstep₃
  have hspare : ∀ {τ τ' : Sys}, τ.live ≠ τ'.live → ¬ StoresTo r.ptr τ τ' := by
    rintro τ τ' hne ⟨b, v, -, rfl⟩
    exact hne rfl
  have hkept := live_contents hσ hmem ha
    (.tail (.single ⟨hstep₂, List.mem_cons_of_mem _ hmem, hspare (List.cons_ne_self q [r]).symm⟩)
      ⟨hstep₃, hmem, hspare (List.cons_ne_self q [r])⟩)
  exact ⟨σ, _, r, hσ, hmem, hseven, (hσ.run (.single hstep₂)).run (.single hstep₃), hmem, hkept.trans hseven⟩

end X86Osdev.Mem

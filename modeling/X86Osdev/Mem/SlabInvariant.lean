import X86Osdev.Mem.HeapRuns

/-! What every reachable slab looks like in memory: its free chain, its chunks, its counters and
its list. -/

namespace X86Osdev.Mem
open X86Osdev.Lib CircularList

def cacheSlabs (h : Heap) (l : CacheList) : List ℕ :=
  ((linksOf h.mem).elements (2 ^ 32) (cacheList h.kMemCache l)).map Slab.ofHead

structure SlabWellFormed (h : Heap) (live : List Region) (s : ℕ) : Prop where
  chain : ∃ chain : List ℕ, FreeChain h.mem s (Slab.size h.mem s) (Slab.firstFree h.mem s) chain ∧
    chain.Nodup ∧ (∀ i ∈ chain, i ≤ Slab.tot h.mem s) ∧
    (∀ i ∈ chain, ∀ r ∈ live, r.ptr ≠ bufAt s (Slab.size h.mem s) i + 8) ∧
    chain.length = Slab.tot h.mem s + 1 - Slab.alloc h.mem s
  chunks_fit : ∀ i ≤ Slab.tot h.mem s,
    s + 36 ≤ bufAt s (Slab.size h.mem s) i ∧
      bufAt s (Slab.size h.mem s) i + 8 + Slab.size h.mem s ≤ s + 4096
  chunks_apart : ∀ i j, i < j → bufAt s (Slab.size h.mem s) i + 8 + Slab.size h.mem s ≤
    bufAt s (Slab.size h.mem s) j
  alloc_le : Slab.alloc h.mem s ≤ Slab.tot h.mem s
  one_list : ∃! l, s ∈ cacheSlabs h l
  free : s ∈ cacheSlabs h .free ↔ Slab.alloc h.mem s = 0
  used : s ∈ cacheSlabs h .used ↔
    0 < Slab.alloc h.mem s ∧ Slab.alloc h.mem s < Slab.tot h.mem s
  empty : s ∈ cacheSlabs h .empty ↔ Slab.alloc h.mem s = Slab.tot h.mem s

section Slabs
variable {L : Layout} {c : Cache} {σ : Sys} {h : Heap} {s i : ℕ}

theorem CacheInv.cacheSlabs_eq (hc : CacheInv h.mem h.kMemCache c) (l : CacheList) :
    cacheSlabs h l = c.lists l := by
  have hcar := hc.rings.carries l
  have hlt : ∀ x ∈ listNodes c l, x < 2 ^ 32 := fun x hx =>
    hc.spaced.lt (hc.nodesIn l x (List.mem_cons_of_mem _ hx))
  have hfuel : (listNodes c l).length < 2 ^ 32 :=
    length_le_of_lt hcar.nodup fun x hx => hc.spaced.lt (hc.nodesIn l x hx)
  have hof : ∀ s ∈ c.lists l, Slab.ofHead (s + 16) = s := fun s hs =>
    ofHead_eq (hc.placed s ((hc.listed l s).mp hs).1)
  rw [cacheSlabs, hcar.elements_eq hfuel, listNodes, List.map_map]
  exact (List.map_congr_left hof).trans (List.map_id _)

theorem LiveInv.chain_ne (hl : LiveInv c live) (hh : HeapInv L h c (blockPages live))
    (hs : s ∈ c.slabs) (hi : i ∈ (c.view s).chain) {r : Region} (hr : r ∈ live) :
    r.ptr ≠ bufAt s (c.view s).size i + 8 := by
  intro hptr
  have hsp := hh.cache.placed s hs
  have hlt := (c.view s).lt_of_mem (List.mem_append_left _ hi)
  have hge := bufAt_ge s (c.view s).size i
  have hend := @bufAt_end s _ _ hlt
  have h4 := (c.view s).size_ge
  cases hk : r.kind with
  | object =>
    obtain ⟨t, ht, j, hj, hptr', -⟩ := hl.object r hr hk
    have hjlt := (c.view t).live_lt hj
    by_cases hts : t = s
    · subst hts
      have hij : j = i := bufAt_inj (Nat.add_right_cancel (hptr'.symm.trans hptr))
      subst hij
      exact (c.view t).chain_notMem hj hi
    · have := hsp.apart (hh.cache.placed t ht) (Ne.symm hts)
      have := bufAt_ge t (c.view t).size j
      have := @bufAt_end t _ _ hjlt
      have := (c.view t).size_ge
      omega
  | block order =>
    have hb := mem_blockPages hr hk
    have hpage := pageOf_object hsp hlt (by omega)
    rw [← hptr] at hpage
    exact (hh.page_separate hb).2 s hs hpage

theorem SysInv.slabWellFormed (hi : SysInv L c σ) (hl : c.loose = none) (hs : s ∈ c.slabs) :
    SlabWellFormed σ.heap σ.live s := by
  have hc := hi.heap.cache
  have hm := hc.slab s hs
  have hsz := hm.fixed.size_eq
  have htot := hm.fixed.tot_eq
  have hal := hm.alloc_eq
  have h7 := chunks_ge (c.view s).size_le
  have heq := slabTot_eq (c.view s).size_le
  have hlen := (c.view s).length_eq
  have hle := (c.view s).live_le
  have hlist : ∀ l, s ∈ cacheSlabs σ.heap l ↔ (c.view s).status = l := by
    intro l
    rw [hc.cacheSlabs_eq, hc.listed]
    exact ⟨fun h => h.2.2, fun h => ⟨hs, by rw [hl]; exact (Option.some_ne_none s).symm, h⟩⟩
  constructor
  · refine ⟨(c.view s).chain, by rw [hsz]; exact hm.free,
      (List.nodup_append'.mp (c.view s).nodup).1, fun i hic => ?_, fun i hic r hr => ?_, ?_⟩
    · have := hm.chain_lt i hic
      rw [htot]
      omega
    · rw [hsz]
      exact hi.live.chain_ne hi.heap hs hic hr
    · rw [htot, hal]
      omega
  · intro i hit
    rw [htot] at hit
    rw [hsz]
    exact ⟨bufAt_ge s _ i, bufAt_end (by omega)⟩
  · intro i j hij
    rw [hsz]
    exact bufAt_le hij
  · rw [hal, htot]
    exact hle
  · exact ⟨(c.view s).status, (hlist _).mpr rfl, fun l hl => ((hlist l).mp hl).symm⟩
  · rw [hlist, hal]
    exact (c.view s).status_free
  · rw [hlist, hal, htot]
    exact (c.view s).status_used
  · rw [hlist, hal, htot]
    exact (c.view s).status_empty

theorem SysInv.find_none (hi : SysInv L c σ) (hl : c.loose = none) (size : ℕ) :
    c.find size = none ↔ ∀ s ∈ σ.slabs, Slab.size σ.heap.mem s = size →
      Slab.alloc σ.heap.mem s = Slab.tot σ.heap.mem s := by
  have hc := hi.heap.cache
  rw [hc.find_none, hi.slabs]
  constructor
  · intro hall s hs hsz
    have hm := hc.slab s hs
    rw [hm.alloc_eq, hm.fixed.tot_eq]
    exact hall s hs (by rw [hl]; exact (Option.some_ne_none s).symm)
      (hm.fixed.size_eq.symm.trans hsz)
  · intro hall s hs _ hsz
    have hm := hc.slab s hs
    have hfull := hall s hs (hm.fixed.size_eq.trans hsz)
    rwa [hm.alloc_eq, hm.fixed.tot_eq] at hfull

theorem SysInv.salloc_returns (hi : SysInv L c σ) (size : ℕ) :
    ∃ p h', Mem.salloc size σ.heap = .ok p h' ∧ (p = 0 ↔ c.find size = none) := by
  rcases hi.salloc size with ⟨s, i, h', c', hsome, hok, -⟩ | ⟨hnone, hok⟩
  · refine ⟨_, h', hok, ⟨fun e => absurd e (Nat.succ_ne_zero _), fun e => ?_⟩⟩
    rw [hsome] at e
    cases e
  · exact ⟨0, σ.heap, hok, ⟨fun _ => hnone, fun _ => rfl⟩⟩

end Slabs

/-- In every reachable state all slabs are in order, the lists hold slabs only, and `salloc` returns,
with NULL exactly when every slab of the size is full. -/
theorem slab_cache_invariant {totalPages : ℕ} {σ : Sys} (h : HeapReach totalPages σ) :
    (∀ s ∈ σ.slabs, SlabWellFormed σ.heap σ.live s) ∧
      (∀ l, (cacheSlabs σ.heap l).Nodup ∧ ∀ s ∈ cacheSlabs σ.heap l, s ∈ σ.slabs) ∧
      ∀ size, 4 ≤ size → size ≤ 512 → ∃ p h', salloc size σ.heap = .ok p h' ∧
        (p = 0 ↔ ∀ s ∈ σ.slabs, Slab.size σ.heap.mem s = size →
          Slab.alloc σ.heap.mem s = Slab.tot σ.heap.mem s) := by
  obtain ⟨L, c, hi, hl⟩ := h.sysInv
  have hc := hi.heap.cache
  refine ⟨fun s hs => hi.slabWellFormed hl (hi.slabs ▸ hs), fun l => ?_, fun size _ _ => ?_⟩
  · rw [hc.cacheSlabs_eq, hi.slabs]
    exact ⟨hc.nodup_list l, fun s hs => ((hc.listed l s).mp hs).1⟩
  · obtain ⟨p, h', hok, hp⟩ := hi.salloc_returns size
    exact ⟨p, h', hok, hp.trans (hi.find_none hl size)⟩

theorem slab_cache_invariant_boot : ∃ σ : Sys, HeapReach 114688 σ ∧ σ.slabs.length = 11 ∧
    ∀ s ∈ σ.slabs, SlabWellFormed σ.heap σ.live s := by
  obtain ⟨L, c, h, hst, hreach⟩ := heapReach_boot
  refine ⟨_, hreach, ?_, (slab_cache_invariant hreach).1⟩
  have hlen := congrArg List.length hst.fresh.specs
  rwa [List.length_map, List.length_reverse, List.length_map] at hlen

end X86Osdev.Mem

import X86Osdev.Mem.KernelInit
import Mathlib.Order.Interval.Set.Basic

/-! Runs of the allocators, one call at a time, together with their clients: which regions the
clients hold, and the invariant of every reachable state. -/

namespace X86Osdev.Mem
open X86Osdev.Lib ByteMemory DyadicTiling

/-- `object` is a region of the slab cache, `block` one of the page allocator. -/
inductive RegionKind where
  | object
  | block (order : ℕ)
deriving DecidableEq

structure Region where
  ptr : ℕ
  bytes : ℕ
  kind : RegionKind
deriving DecidableEq

def Region.range (r : Region) : Set ℕ := Set.Ico r.ptr (r.ptr + r.bytes)

/-- The machine with what its clients know: the slabs created so far and the live regions. -/
structure Sys where
  heap : Heap
  slabs : List ℕ
  live : List Region

def Sys.setHeap (σ : Sys) (h : Heap) : Sys := { σ with heap := h }

/-- The bytes that belong to clients: live regions and free page blocks. -/
def ClientByte (σ : Sys) (a : ℕ) : Prop :=
  (∃ r ∈ σ.live, a ∈ r.range) ∨
    ∃ o ≤ maxOrder, ∃ p ∈ freeListOf σ.heap.kernelBuddyNew o,
      a ∈ Set.Ico (pageAddr p) (pageAddr p + 4096 * 2 ^ o)

/-- A call that returned, a store of a client to a byte of its own, or a tick of the timer. -/
inductive HeapStep : Sys → Sys → Prop
  | kmallocSmall {σ : Sys} {n p : ℕ} {h' : Heap} :
    n ≤ maxSlabSize → kmalloc n σ.heap = .ok p h' →
      HeapStep σ ⟨h', kmallocSlabs n σ.heap σ.slabs, ⟨p, n, .object⟩ :: σ.live⟩
  | kmallocLarge {σ : Sys} {n p : ℕ} {h' : Heap} :
    maxSlabSize < n → n ≤ 2 ^ 22 → kmalloc n σ.heap = .ok p h' →
      HeapStep σ ⟨h', σ.slabs, ⟨p, n, .block (calcPageOrder n)⟩ :: σ.live⟩
  | kallocPage {σ : Sys} {order p : ℕ} {h' : Heap} :
    order ≤ maxOrder → kallocPage order σ.heap = .ok p h' →
      HeapStep σ ⟨h', σ.slabs, ⟨p, 4096 * 2 ^ order, .block order⟩ :: σ.live⟩
  | kallocNosleep {σ : Sys} {order p : ℕ} {h' : Heap} :
    order ≤ maxOrder → kallocNosleep order σ.heap = .ok p h' →
      HeapStep σ ⟨h', σ.slabs, ⟨p, 4096 * 2 ^ order, .block order⟩ :: σ.live⟩
  | createSlab {σ : Sys} {size s : ℕ} {noSleep : Bool} {h' : Heap} :
    4 ≤ size → size ≤ maxSlabSize → createSlab size noSleep σ.heap = .ok s h' →
      HeapStep σ ⟨h', s :: σ.slabs, σ.live⟩
  | salloc {σ : Sys} {size p : ℕ} {h' : Heap} :
    p ≠ 0 → salloc size σ.heap = .ok p h' →
      HeapStep σ ⟨h', σ.slabs, ⟨p, size, .object⟩ :: σ.live⟩
  | sallocNull {σ : Sys} {size : ℕ} {h' : Heap} :
    salloc size σ.heap = .ok 0 h' → HeapStep σ (σ.setHeap h')
  | sfree {σ : Sys} {r : Region} {freed : Bool} {h' : Heap} :
    r ∈ σ.live → r.kind = .object → sfree r.ptr σ.heap = .ok freed h' →
      HeapStep σ ⟨h', σ.slabs, σ.live.erase r⟩
  | kfreePage {σ : Sys} {r : Region} {order : ℕ} {h' : Heap} :
    r ∈ σ.live → r.kind = .block order → kfreePage r.ptr σ.heap = .ok () h' →
      HeapStep σ ⟨h', σ.slabs, σ.live.erase r⟩
  | write {σ : Sys} {a v : ℕ} :
    ClientByte σ a → HeapStep σ (σ.setHeap { σ.heap with mem := store8 σ.heap.mem a v })
  | tick {σ : Sys} : HeapStep σ (σ.setHeap { σ.heap with tickCount := u32 (σ.heap.tickCount + 1) })

/-- The states after the start of the kernel with `totalPages` pages of memory. -/
def HeapReach (totalPages : ℕ) (σ : Sys) : Prop :=
  ∃ h₀ h slabs, BootState totalPages h₀ ∧ kernelInit totalPages h₀ = .ok slabs h ∧
    Relation.ReflTransGen HeapStep ⟨h, slabs, []⟩ σ

def LeastOrder (n order : ℕ) : Prop := n ≤ 4096 * 2 ^ order ∧ ∀ k < order, 4096 * 2 ^ k < n

theorem leastOrder_block (order : ℕ) : LeastOrder (4096 * 2 ^ order) order :=
  ⟨le_rfl, fun _ hk => Nat.mul_lt_mul_of_pos_left (Nat.pow_lt_pow_right (by decide) hk) (by decide)⟩

section Order
variable {pages n order k : ℕ}

theorem leastOrder_spec (hk : k < n) (hpages : pages ≤ 2 ^ (order + k)) :
    ∃ r, leastOrder pages n order = r ∧ order ≤ r ∧ r ≤ order + k ∧ pages ≤ 2 ^ r ∧
      ∀ j, order ≤ j → j < r → 2 ^ j < pages := by
  induction n generalizing order k with
  | zero => exact absurd hk (Nat.not_lt_zero k)
  | succ n ih =>
    rw [leastOrder, pagesPerBlock_eq]
    by_cases h : pages ≤ 2 ^ order
    · rw [if_pos h]
      exact ⟨order, rfl, le_rfl, Nat.le_add_right .., h, fun j h₁ h₂ => by omega⟩
    · rw [if_neg h]
      have hk0 : k ≠ 0 := by
        rintro rfl
        exact h hpages
      obtain ⟨r, hr, hlo, hhi, hle, hleast⟩ := @ih (order + 1) (k - 1) (by omega)
        (by rwa [show order + 1 + (k - 1) = order + k by omega])
      refine ⟨r, hr, by omega, by omega, hle, fun j h₁ h₂ => ?_⟩
      rcases Nat.eq_or_lt_of_le h₁ with rfl | h₁
      · omega
      · exact hleast j h₁ h₂

/-- Up to 4 MiB the order found is the least one that is large enough. -/
theorem calcPageOrder_spec (hn : n ≤ 2 ^ 22) :
    calcPageOrder n ≤ maxOrder ∧ LeastOrder n (calcPageOrder n) := by
  have hpages : ∀ b, n / pageSize + (if n % pageSize > 0 then 1 else 0) ≤ b ↔ n ≤ 4096 * b := by
    intro b
    unfold pageSize
    split <;> omega
  obtain ⟨r, hr, -, hle, hfit, hleast⟩ := @leastOrder_spec _ (maxOrder + 1) 0 _
    (Nat.lt_succ_self maxOrder) ((hpages (2 ^ (0 + maxOrder))).mpr hn)
  have hcalc : calcPageOrder n = r := hr
  rw [hcalc]
  refine ⟨by omega, (hpages _).mp hfit, fun k hk => ?_⟩
  have := hleast k (Nat.zero_le k) hk
  rw [← not_le, hpages, not_le] at this
  exact this

end Order

def blockPages (live : List Region) : List (ℕ × ℕ) :=
  live.filterMap fun r =>
    match r.kind with
    | .object => none
    | .block order => some (pageOf r.ptr, order)

structure LiveInv (c : Cache) (live : List Region) : Prop where
  object : ∀ r ∈ live, r.kind = .object → ∃ s ∈ c.slabs, ∃ i ∈ (c.view s).live,
    r.ptr = bufAt s (c.view s).size i + 8 ∧ r.bytes ≤ (c.view s).size
  block : ∀ r ∈ live, ∀ order, r.kind = .block order →
    r.ptr = pageAddr (pageOf r.ptr) ∧ LeastOrder r.bytes order
  nodup : (live.map Region.ptr).Nodup

structure SysInv (L : Layout) (c : Cache) (σ : Sys) : Prop where
  heap : HeapInv L σ.heap c (blockPages σ.live)
  live : LiveInv c σ.live
  slabs : σ.slabs = c.slabs

structure Quiet (c c' : Cache) (served : Option ℕ) : Prop where
  loose : c'.loose = c.loose
  same : ∀ t ∈ c.slabs, (c.view t).live = [] → served ≠ some t → t ∈ c'.slabs ∧ c'.view t = c.view t

theorem Served.quiet {c c' : Cache} {size s i : ℕ} (hsv : Served c c' size s i) :
    Quiet c c' (some s) where
  loose := hsv.loose
  same t ht _ hne := ⟨hsv.slabs ▸ List.mem_insert_of_mem ht,
    hsv.other t ht fun e => hne (congrArg some e.symm)⟩

section Regions
variable {L : Layout} {h h' : Heap} {c c' : Cache} {live : List Region} {r : Region}
  {pages pages' : List (ℕ × ℕ)} {p order s i n size : ℕ}

theorem HeapInv.perm (hh : HeapInv L h c pages) (hp : pages.Perm pages') :
    HeapInv L h c pages' where
  zone := hh.zone.perm (.append_left _ (.append_left _ (hp.map _)))
  small := hh.small
  slab_order := hh.slab_order
  page_order b hb := hh.page_order b (hp.mem_iff.mpr hb)
  unlocked := hh.unlocked
  cache := hh.cache
  low := hh.low
  image := hh.image
  kMemCache := hh.kMemCache
  fast := hh.fast

theorem mem_blockPages (hr : r ∈ live) (hk : r.kind = .block order) :
    (pageOf r.ptr, order) ∈ blockPages live :=
  List.mem_filterMap.mpr ⟨r, hr, by rw [hk]⟩

theorem blockPages_object (hk : r.kind = .object) : blockPages (r :: live) = blockPages live := by
  rw [blockPages, List.filterMap_cons_none (by rw [hk])]
  rfl

theorem blockPages_block (hk : r.kind = .block order) :
    blockPages (r :: live) = (pageOf r.ptr, order) :: blockPages live := by
  rw [blockPages, List.filterMap_cons_some (by rw [hk])]
  rfl

theorem blockPages_perm {live' : List Region} (hp : live.Perm live') :
    (blockPages live).Perm (blockPages live') := hp.filterMap _

theorem blockPages_erase_object (hr : r ∈ live) (hk : r.kind = .object) :
    (blockPages live).Perm (blockPages (live.erase r)) := by
  have hp := blockPages_perm (List.perm_cons_erase hr)
  rwa [blockPages_object hk] at hp

theorem blockPages_erase_block (hr : r ∈ live) (hk : r.kind = .block order) :
    ((blockPages live).erase (pageOf r.ptr, order)).Perm (blockPages (live.erase r)) := by
  have hp := blockPages_perm (List.perm_cons_erase hr)
  rw [blockPages_block hk] at hp
  have he := hp.erase (pageOf r.ptr, order)
  rwa [List.erase_cons_head] at he

theorem pageOf_object (hp : Placed h.kMemCache s) (hi : i < chunks size) (h0 : 0 < size) :
    pageOf (bufAt s size i + 8) = pageOf s := by
  have hge := bufAt_ge s size i
  have hend := @bufAt_end s _ _ hi
  have hal := hp.aligned
  have hk := hp.kernel
  unfold pageOf kernelVirtualAddressBase pageSize at *
  omega

theorem HeapInv.pageOf_region (hh : HeapInv L h c (blockPages live)) (hl : LiveInv c live)
    (hr : r ∈ live) : pageOf r.ptr ∈ handedPages L c (blockPages live) := by
  cases hk : r.kind with
  | object =>
    obtain ⟨s, hs, i, hi, hptr, -⟩ := hl.object r hr hk
    have h4 := (c.view s).size_ge
    rw [hptr, pageOf_object (hh.cache.placed s hs) ((c.view s).live_lt hi) (by omega)]
    exact HeapInv.slab_mem hs
  | block order => exact HeapInv.page_mem (mem_blockPages hr hk)

theorem LiveInv.addBlock (hl : LiveInv c live)
    (hnew : ∀ q ∈ live, pageOf q.ptr ≠ p) (hn : LeastOrder n order) :
    LiveInv c (⟨pageAddr p, n, .block order⟩ :: live) where
  object r hr hk := by
    rcases List.mem_cons.mp hr with rfl | hr
    · cases hk
    · exact hl.object r hr hk
  block r hr o hk := by
    rcases List.mem_cons.mp hr with rfl | hr
    · cases hk
      exact ⟨by rw [pageOf_pageAddr], hn⟩
    · exact hl.block r hr o hk
  nodup := by
    rw [List.map_cons]
    refine List.nodup_cons.mpr ⟨fun hm => ?_, hl.nodup⟩
    obtain ⟨q, hq, hqp⟩ := List.mem_map.mp hm
    have hpage := hnew q hq
    rw [hqp, pageOf_pageAddr] at hpage
    exact hpage rfl

theorem LiveInv.addObject (hl : LiveInv c live) (hh' : HeapInv L h' c' (blockPages live))
    (hsv : Served c c' size s i) (hn : n ≤ size) :
    LiveInv c' (⟨bufAt s size i + 8, n, .object⟩ :: live) := by
  have hi : i ∈ (c'.view s).live := by
    rw [hsv.live]
    exact List.mem_cons_self ..
  have hold : ∀ r ∈ live, r.kind = .object → ∃ t ∈ c.slabs, ∃ j ∈ (c.view t).live,
      r.ptr = bufAt t (c.view t).size j + 8 ∧ r.bytes ≤ (c.view t).size ∧
        t ∈ c'.slabs ∧ j ∈ (c'.view t).live ∧ (c'.view t).size = (c.view t).size ∧
        (t = s → j ≠ i) := by
    intro r hr hk
    obtain ⟨t, ht, j, hj, hptr, hbytes⟩ := hl.object r hr hk
    have htm : t ∈ c'.slabs := hsv.slabs ▸ List.mem_insert_of_mem ht
    refine ⟨t, ht, j, hj, hptr, hbytes, htm, ?_⟩
    by_cases hts : t = s
    · subst hts
      have hlive := hsv.live
      rw [if_pos ht] at hlive
      have hnd := (List.nodup_append'.mp (c'.view t).nodup).2.1
      rw [hlive] at hnd
      refine ⟨hlive ▸ List.mem_cons_of_mem _ hj, hsv.size_eq.trans (hsv.old_size ht).symm, ?_⟩
      exact fun _ hji => (List.nodup_cons.mp hnd).1 (hji ▸ hj)
    · rw [hsv.other t ht hts]
      exact ⟨hj, rfl, fun e => absurd e hts⟩
  constructor
  · intro r hr hk
    rcases List.mem_cons.mp hr with rfl | hr
    · exact ⟨s, hsv.mem, i, hi, by rw [hsv.size_eq], by rw [hsv.size_eq]; exact hn⟩
    · obtain ⟨t, -, j, -, hptr, hbytes, htm, hj, hsz, -⟩ := hold r hr hk
      exact ⟨t, htm, j, hj, hsz.symm ▸ hptr, hsz.symm ▸ hbytes⟩
  · intro r hr o hk
    rcases List.mem_cons.mp hr with rfl | hr
    · cases hk
    · exact hl.block r hr o hk
  · rw [List.map_cons]
    refine List.nodup_cons.mpr ⟨fun hm => ?_, hl.nodup⟩
    obtain ⟨r, hr, hptr⟩ := List.mem_map.mp hm
    change r.ptr = bufAt s size i + 8 at hptr
    have hsp := hh'.cache.placed s hsv.mem
    have hilt : i < chunks size := hsv.size_eq ▸ (c'.view s).live_lt hi
    have h4 : 4 ≤ size := hsv.size_eq ▸ (c'.view s).size_ge
    cases hk : r.kind with
    | object =>
      obtain ⟨t, ht, j, hj, hptr', -, htm, hj', hsz, hne⟩ := hold r hr hk
      have hjlt := (c.view t).live_lt hj
      by_cases hts : t = s
      · subst hts
        rw [hptr', hsv.old_size ht] at hptr
        exact hne rfl (bufAt_inj (Nat.add_right_cancel hptr))
      · have := hsp.apart (hh'.cache.placed t htm) (Ne.symm hts)
        have := bufAt_ge s size i
        have := @bufAt_end s _ _ hilt
        have := bufAt_ge t (c.view t).size j
        have := @bufAt_end t _ _ hjlt
        omega
    | block order =>
      obtain ⟨hblock, -⟩ := hl.block r hr order hk
      -- a block starts a page, an object does not
      have hge := bufAt_ge s size i
      have hend := @bufAt_end s _ _ hilt
      have hal := hsp.aligned
      rw [hptr, pageAddr_eq] at hblock
      omega

theorem LiveInv.eraseBlock (hl : LiveInv c live) : LiveInv c (live.erase r) where
  object q hq hk := hl.object q (List.mem_of_mem_erase hq) hk
  block q hq o hk := hl.block q (List.mem_of_mem_erase hq) o hk
  nodup := (List.erase_sublist.map _).nodup hl.nodup

theorem LiveInv.ptr_ne (hl : LiveInv c live) (hr : r ∈ live) {q : Region} (hq : q ∈ live.erase r) :
    q.ptr ≠ r.ptr := by
  have hp := (List.perm_cons_erase hr).map Region.ptr
  have hnd := hp.nodup_iff.mp hl.nodup
  rw [List.map_cons] at hnd
  exact fun e => (List.nodup_cons.mp hnd).1 (e ▸ List.mem_map_of_mem hq)

theorem LiveInv.eraseObject (hl : LiveInv c live) (hr : r ∈ live) (hi : i ∈ (c.view s).live)
    (hptr : r.ptr = bufAt s (c.view s).size i + 8) :
    LiveInv (c.gave s ((c.view s).give hi)) (live.erase r) where
  object q hq hk := by
    obtain ⟨t, ht, j, hj, hptr', hbytes⟩ := hl.object q (List.mem_of_mem_erase hq) hk
    rw [Cache.slabs_gave, Cache.view_gave]
    refine ⟨t, ht, j, ?_⟩
    by_cases hts : t = s
    · subst hts
      have hne : j ≠ i := by
        rintro rfl
        exact hl.ptr_ne hr hq (hptr'.trans hptr.symm)
      rw [Function.update_self]
      exact ⟨(List.mem_erase_of_ne hne).mpr hj, hptr', hbytes⟩
    · rw [Function.update_of_ne hts]
      exact ⟨hj, hptr', hbytes⟩
  block q hq o hk := hl.block q (List.mem_of_mem_erase hq) o hk
  nodup := (List.erase_sublist.map _).nodup hl.nodup

end Regions

section Stores
variable {L : Layout} {h : Heap} {c : Cache} {pages : List (ℕ × ℕ)} {a v p order s i : ℕ}

theorem HeapInv.client_page (hh : HeapInv L h c pages)
    (hp : p ∈ freeHeads h.kernelBuddyNew ∪ ↑(handedPages L c pages).toFinset)
    (hres : p ∉ L.reserved) (hslab : ∀ t ∈ c.slabs, p ≠ pageOf t) {q : ℕ}
    (hq : q ∈ span p (orderOf h.kernelBuddyNew p)) :
    L.first ≤ q ∧ q < L.numPages ∧ pageAddr q ∉ c.slabs := by
  obtain ⟨⟨fl, hz⟩, -, ht, -⟩ := hh.zone
  have happart : ∀ r, r ∈ handedPages L c pages → p ≠ r → q ∉ span r (orderOf h.kernelBuddyNew r) :=
    fun r hr hpr => Set.disjoint_left.mp (hz.tiling.disjoint p hp r
      (.inr (List.mem_toFinset.mpr hr)) hpr) hq
  refine ⟨?_, ?_, ?_⟩
  · by_contra hlt
    obtain ⟨r, hr, hqr⟩ := hh.low q (by omega)
    exact happart r (HeapInv.reserved_mem hr) (fun e => hres (e ▸ hr)) hqr
  · have hend := hz.tiling.below p hp
    rw [ht] at hend
    rw [mem_span] at hq
    omega
  · intro hm
    have hpage := hslab _ hm
    have ho := hh.slab_order _ hm
    have hnot := happart _ (HeapInv.slab_mem hm) hpage
    rw [pageOf_pageAddr] at ho hnot
    rw [ho, mem_span, pow_zero] at hnot
    exact hnot ⟨le_rfl, Nat.lt_succ_self q⟩

theorem HeapInv.write (hh : HeapInv L h c pages) (ha : a < 2 ^ 32)
    (hslab : ∀ t ∈ c.slabs, a ∉ slabBytes t (c.view t).size)
    (hlink : a ∉ linkBytes (cacheNodes h.kMemCache c.slabs)) :
    HeapInv L { h with mem := store8 h.mem a v } c pages := by
  have ht : Touches (2 ^ 32) {a} h.mem (store8 h.mem a v) :=
    touches_store (by omega) fun x hx hx' => Set.mem_singleton_iff.mpr (by omega)
  refine hh.setMem (hh.cache.touches ht ?_ ?_) rfl
  · rintro t hts x rfl
    exact hslab t hts
  · rintro x rfl
    exact hlink

theorem HeapInv.write_page (hh : HeapInv L h c pages)
    (hp : p ∈ freeHeads h.kernelBuddyNew ∪ ↑(handedPages L c pages).toFinset)
    (hres : p ∉ L.reserved) (hslab : ∀ t ∈ c.slabs, p ≠ pageOf t)
    (ha : a ∈ Set.Ico (pageAddr p) (pageAddr p + 4096 * 2 ^ orderOf h.kernelBuddyNew p)) :
    HeapInv L { h with mem := store8 h.mem a v } c pages := by
  have hq : pageOf a ∈ span p (orderOf h.kernelBuddyNew p) := by
    obtain ⟨hlo, hhi⟩ := ha
    rw [pageAddr_eq] at hlo hhi
    rw [mem_span]
    unfold pageOf kernelVirtualAddressBase pageSize
    omega
  obtain ⟨hfirst, hlast, hns⟩ := hh.client_page hp hres hslab hq
  have hlt : pageOf a < 2 ^ 17 := lt_of_lt_of_le hlast hh.small
  have hbytes : a ∈ pageBytes (pageAddr (pageOf a)) := by
    have hlo := ha.1
    rw [pageAddr_eq] at hlo
    rw [pageAddr_eq]
    unfold pageBytes pageOf kernelVirtualAddressBase pageSize
    simp only [Set.mem_ofPred_eq]
    omega
  obtain ⟨hslab', hlink⟩ := hh.cache.page_apart (hh.placed hfirst hlt) hns
  have hend := pageAddr_end hlt
  exact hh.write (by have := hbytes.2; omega) (fun t ht => hslab' t ht a hbytes) (hlink a hbytes)

theorem HeapInv.write_chunk (hh : HeapInv L h c pages) (hs : s ∈ c.slabs)
    (hi : i < chunks (c.view s).size)
    (hlo : bufAt s (c.view s).size i + 8 ≤ a)
    (hhi : a < bufAt s (c.view s).size i + 8 + (c.view s).size) :
    HeapInv L { h with mem := store8 h.mem a v } c pages := by
  have hsp := hh.cache.placed s hs
  have hfit := hsp.fits
  have hge := bufAt_ge s (c.view s).size i
  have hend := @bufAt_end s _ _ hi
  refine hh.write (by omega) ?_ ?_
  · intro t ht hat
    by_cases hts : t = s
    · subst hts
      exact chunk_not_slabBytes hlo hhi hat
    · have := mem_slabBytes_bounds hat
      have := hsp.apart (hh.cache.placed t ht) (Ne.symm hts)
      omega
  · rintro ⟨n, ⟨l, rfl⟩ | ⟨t, ht, rfl⟩, hn, hn'⟩
    · have := cacheList_bounds hh.cache.fits l
      have := hsp.above
      omega
    · by_cases hts : t = s
      · subst hts
        omega
      · have := hsp.apart (hh.cache.placed t ht) (Ne.symm hts)
        omega

theorem HeapInv.page_separate (hh : HeapInv L h c pages) {b : ℕ × ℕ} (hb : b ∈ pages) :
    b.1 ∉ L.reserved ∧ ∀ t ∈ c.slabs, b.1 ≠ pageOf t := by
  obtain ⟨-, hnd, hdis⟩ := List.nodup_append'.mp hh.zone.nodup
  have hb' : b.1 ∈ pages.map Prod.fst := List.mem_map_of_mem hb
  refine ⟨fun hr => hdis hr (List.mem_append_right _ hb'), fun t ht e => ?_⟩
  exact (List.nodup_append'.mp hnd).2.2 (List.mem_map_of_mem ht) (e ▸ hb')

end Stores

section Steps
variable {L : Layout} {c : Cache} {σ σ' : Sys}

theorem SysInv.write (hi : SysInv L c σ) {a v : ℕ} (ha : ClientByte σ a) :
    SysInv L c (σ.setHeap { σ.heap with mem := store8 σ.heap.mem a v }) := by
  obtain ⟨hh, hl, hs⟩ := hi
  refine ⟨?_, hl, hs⟩
  rcases ha with ⟨r, hr, hlo, hhi⟩ | ⟨o, ho, p, hp, hap⟩
  · cases hk : r.kind with
    | object =>
      obtain ⟨s, hs, i, hi, hptr, hbytes⟩ := hl.object r hr hk
      exact hh.write_chunk hs ((c.view s).live_lt hi) (by omega) (by omega)
    | block order =>
      obtain ⟨hptr, hbytes, -⟩ := hl.block r hr order hk
      have hb := mem_blockPages hr hk
      have hord : orderOf σ.heap.kernelBuddyNew (pageOf r.ptr) = order := hh.page_order _ hb
      obtain ⟨hres, hslab⟩ := hh.page_separate hb
      refine hh.write_page (.inr (List.mem_toFinset.mpr (HeapInv.page_mem hb))) hres hslab ?_
      rw [← hptr, hord]
      exact ⟨hlo, by omega⟩
  · obtain ⟨⟨fl, hz⟩, -, -, -⟩ := hh.zone
    rw [freeListOf_eq hz ho] at hp
    obtain ⟨hpf, rfl⟩ := hz.mem_freeHeads ho hp
    have hnot : ∀ q ∈ handedPages L c (blockPages σ.live), p ≠ q := fun q hq e =>
      Set.disjoint_left.mp hz.disjoint hpf (e ▸ List.mem_toFinset.mpr hq)
    exact hh.write_page (.inl hpf) (fun hr => hnot p (HeapInv.reserved_mem hr) rfl)
      (fun t ht => hnot _ (HeapInv.slab_mem ht)) hap

theorem SysInv.addBlock (hi : SysInv L c σ) {p order n : ℕ} {h' : Heap}
    (hh : HeapInv L h' c ((p, order) :: blockPages σ.live)) (hn : LeastOrder n order) :
    SysInv L c ⟨h', σ.slabs, ⟨pageAddr p, n, .block order⟩ :: σ.live⟩ := by
  have hnew : ∀ q ∈ σ.live, pageOf q.ptr ≠ p := by
    intro q hq e
    have hm := hi.heap.pageOf_region hi.live hq
    have hnd := (hh.zone.perm (handedPages_cons L c _ (p, order)).symm).nodup
    exact (List.nodup_cons.mp hnd).1 (e ▸ hm)
  refine ⟨?_, hi.live.addBlock hnew hn, hi.slabs⟩
  rw [blockPages_block rfl, pageOf_pageAddr]
  exact hh

theorem SysInv.kallocPage (hi : SysInv L c σ) {order : ℕ} (ho : order ≤ maxOrder) :
    (∃ p h', kallocPage order σ.heap = .ok (pageAddr p) h' ∧
        ∀ n, LeastOrder n order →
          SysInv L c ⟨h', σ.slabs, ⟨pageAddr p, n, .block order⟩ :: σ.live⟩) ∨
      ∃ h', kallocPage order σ.heap = .panic outOfMemory h' := by
  rcases hi.heap.kallocPage ho with ⟨p, h', hok, hh⟩ | hpanic
  · exact .inl ⟨p, h', hok, fun n hn => hi.addBlock hh hn⟩
  · exact .inr hpanic

theorem SysInv.kallocNosleep (hi : SysInv L c σ) {order : ℕ} (ho : order ≤ maxOrder) :
    (∃ p h', kallocNosleep order σ.heap = .ok (pageAddr p) h' ∧
        ∀ n, LeastOrder n order →
          SysInv L c ⟨h', σ.slabs, ⟨pageAddr p, n, .block order⟩ :: σ.live⟩) ∨
      kallocNosleep order σ.heap = .panic outOfMemory σ.heap := by
  rcases hi.heap.kallocNosleep ho with ⟨p, h', hok, hh⟩ | hpanic
  · exact .inl ⟨p, h', hok, fun n hn => hi.addBlock hh hn⟩
  · exact .inr hpanic

theorem SysInv.kmalloc_large (hi : SysInv L c σ) {n : ℕ} (hlt : maxSlabSize < n)
    (hn : n ≤ 2 ^ 22) :
    (∃ p h', kmalloc n σ.heap = .ok (pageAddr p) h' ∧
        SysInv L c ⟨h', σ.slabs, ⟨pageAddr p, n, .block (calcPageOrder n)⟩ :: σ.live⟩) ∨
      ∃ h', kmalloc n σ.heap = .panic outOfMemory h' := by
  obtain ⟨ho, hleast⟩ := calcPageOrder_spec hn
  have hcall : kmalloc n σ.heap = Mem.kallocPage (calcPageOrder n) σ.heap :=
    if_neg (not_le.mpr hlt)
  rw [hcall]
  rcases hi.kallocPage ho with ⟨p, h', hok, hinv⟩ | hpanic
  · exact .inl ⟨p, h', hok, hinv n hleast⟩
  · exact .inr hpanic

theorem SysInv.kmalloc_small (hi : SysInv L c σ) {n : ℕ} (hn : n ≤ maxSlabSize) :
    (∃ p h' c', kmalloc n σ.heap = .ok p h' ∧ p ≠ 0 ∧ c'.loose = c.loose ∧
        SysInv L c' ⟨h', kmallocSlabs n σ.heap σ.slabs, ⟨p, n, .object⟩ :: σ.live⟩) ∨
      ∃ h', kmalloc n σ.heap = .panic outOfMemory h' := by
  rcases hi.heap.kmalloc_small hn with ⟨s, i, c', h', hok, hh, hsv, hslabs, -⟩ | hpanic
  · refine .inl ⟨_, h', c', hok, by omega, hsv.loose, ?_, ?_, ?_⟩
    · rw [blockPages_object rfl]
      exact hh
    · exact hi.live.addObject hh hsv (le_max_left n 4)
    · rw [hi.slabs]
      exact hslabs.symm
  · exact .inr hpanic

theorem SysInv.createSlab (hi : SysInv L c σ) {size : ℕ} (h4 : 4 ≤ size) (hz : size ≤ maxSlabSize)
    (noSleep : Bool) :
    (∃ s h', createSlab size noSleep σ.heap = .ok s h' ∧
        SysInv L (c.add s (.fresh size 0 h4 hz)) ⟨h', s :: σ.slabs, σ.live⟩ ∧
        Quiet c (c.add s (.fresh size 0 h4 hz)) none) ∨
      ∃ h', createSlab size noSleep σ.heap = .panic outOfMemory h' := by
  obtain ⟨hh, hl, hs⟩ := hi
  rcases hh.createSlab h4 hz noSleep with ⟨s, h', hok, hnew, hh', -⟩ | hpanic
  · have hview : ∀ t ∈ c.slabs, (c.add s (.fresh size 0 h4 hz)).view t = c.view t := by
      intro t ht
      have hts : t ≠ s := fun e => hnew (e ▸ ht)
      exact Function.update_of_ne hts _ _
    refine .inl ⟨s, h', hok, ⟨hh', ⟨fun r hr hk => ?_, hl.block, hl.nodup⟩, ?_⟩, rfl,
      fun t ht _ _ => ⟨List.mem_cons_of_mem _ ht, hview t ht⟩⟩
    · obtain ⟨t, ht, i, hi, hptr, hbytes⟩ := hl.object r hr hk
      rw [← hview t ht] at hi hptr hbytes
      exact ⟨t, List.mem_cons_of_mem _ ht, i, hi, hptr, hbytes⟩
    · rw [hs]
      rfl
  · exact .inr hpanic

theorem SysInv.salloc (hi : SysInv L c σ) (size : ℕ) :
    (∃ s i h' c', c.find size = some s ∧ salloc size σ.heap = .ok (bufAt s size i + 8) h' ∧
        SysInv L c' ⟨h', σ.slabs, ⟨bufAt s size i + 8, size, .object⟩ :: σ.live⟩ ∧
        h'.kernelBuddyNew = σ.heap.kernelBuddyNew ∧ Served c c' size s i) ∨
      c.find size = none ∧ salloc size σ.heap = .ok 0 σ.heap := by
  rcases hi.heap.salloc size with ⟨s, i, c', h', hf, hok, hh, hsv, hzone, -⟩ | hnull
  · refine .inl ⟨s, i, h', c', hf, hok, ⟨?_, hi.live.addObject hh hsv le_rfl, ?_⟩, hzone, hsv⟩
    · rw [blockPages_object rfl]
      exact hh
    · rw [hsv.slabs, List.insert_of_mem (hi.heap.cache.find_some hf).1]
      exact hi.slabs
  · exact .inr hnull

theorem SysInv.sfree (hi : SysInv L c σ) {r : Region} (hr : r ∈ σ.live) (hk : r.kind = .object) :
    ∃ h' c', sfree r.ptr σ.heap = .ok true h' ∧ h'.kernelBuddyNew = σ.heap.kernelBuddyNew ∧
      SysInv L c' ⟨h', σ.slabs, σ.live.erase r⟩ ∧ Quiet c c' none := by
  obtain ⟨hh, hl, hs⟩ := hi
  obtain ⟨s, hsm, i, hi, hptr, -⟩ := hl.object r hr hk
  obtain ⟨m', hok, hh'⟩ := hh.sfree hsm hi
  rw [← hptr] at hok
  refine ⟨_, _, hok, rfl, ⟨hh'.perm (blockPages_erase_object hr hk), hl.eraseObject hr hi hptr, ?_⟩,
    Cache.loose_gave .., fun t ht hnil _ => ⟨?_, ?_⟩⟩
  · rw [Cache.slabs_gave]
    exact hs
  · rwa [Cache.slabs_gave]
  · have hts : t ≠ s := by
      rintro rfl
      exact List.ne_nil_of_mem hi hnil
    rw [Cache.view_gave, Function.update_of_ne hts]

theorem SysInv.kfreePage (hi : SysInv L c σ) {r : Region} {order : ℕ} (hr : r ∈ σ.live)
    (hk : r.kind = .block order) :
    ∃ z' h', freeBuddyNew (pageOf r.ptr) σ.heap.kernelBuddyNew = .ok () z' ∧
      kfreePage r.ptr σ.heap = .ok () h' ∧ h'.kernelBuddyNew = z' ∧ h'.mem = σ.heap.mem ∧
      SysInv L c ⟨h', σ.slabs, σ.live.erase r⟩ := by
  obtain ⟨hh, hl, hs⟩ := hi
  obtain ⟨hptr, -, -⟩ := hl.block r hr order hk
  obtain ⟨z', h', hfree, hok, hz, hsame, hh'⟩ := hh.kfreePage (mem_blockPages hr hk)
  rw [← hptr] at hok
  exact ⟨z', h', hfree, hok, hz, hsame.mem, hh'.perm (blockPages_erase_block hr hk), hl.eraseBlock,
    hs⟩

theorem SysInv.unlinkSlab (hi : SysInv L c σ) (hl : c.loose = none) {s : ℕ}
    (hs : s ∈ c.lists .free) : SysInv L (c.unlink s)
      (σ.setHeap { σ.heap with mem := listRemove σ.heap.mem (Slab.head s) }) :=
  ⟨hi.heap.setMem (hi.heap.cache.unlink hl hs) rfl,
    ⟨hi.live.object, hi.live.block, hi.live.nodup⟩, hi.slabs⟩

theorem SysInv.dropSlab (hi : SysInv L c σ) {s : ℕ} (hl : c.loose = some s) :
    ∃ h', Mem.kfreePage s σ.heap = .ok () h' ∧ SysInv L (c.drop s) ⟨h', σ.slabs.erase s, σ.live⟩ := by
  obtain ⟨h', hok, -, hh'⟩ := hi.heap.dropSlab hl
  refine ⟨h', hok, hh', ⟨fun r hr hk => ?_, hi.live.block, hi.live.nodup⟩, ?_⟩
  · obtain ⟨t, ht, i, hil, hptr, hbytes⟩ := hi.live.object r hr hk
    have hts : t ≠ s := by
      rintro rfl
      exact List.ne_nil_of_mem hil (hi.heap.cache.loose t hl).2
    exact ⟨t, (List.mem_erase_of_ne hts).mpr ht, i, hil, hptr, hbytes⟩
  · rw [hi.slabs]
    rfl

theorem sysInv_step (hs : HeapStep σ σ') (hi : SysInv L c σ) :
    ∃ c', SysInv L c' σ' ∧ c'.loose = c.loose := by
  -- Each call does what its specification says; one that panics is no step.
  cases hs with
  | kmallocSmall hn hok =>
    rcases hi.kmalloc_small hn with ⟨p, h', c', hok', -, hl, hinv⟩ | ⟨h', hpanic⟩
    · obtain ⟨rfl, rfl⟩ := Outcome.ok.inj (hok.symm.trans hok')
      exact ⟨c', hinv, hl⟩
    · cases hok.symm.trans hpanic
  | kmallocLarge hlt hn hok =>
    rcases hi.kmalloc_large hlt hn with ⟨p, h', hok', hinv⟩ | ⟨h', hpanic⟩
    · obtain ⟨rfl, rfl⟩ := Outcome.ok.inj (hok.symm.trans hok')
      exact ⟨c, hinv, rfl⟩
    · cases hok.symm.trans hpanic
  | kallocPage ho hok =>
    rcases hi.kallocPage ho with ⟨p, h', hok', hinv⟩ | ⟨h', hpanic⟩
    · obtain ⟨rfl, rfl⟩ := Outcome.ok.inj (hok.symm.trans hok')
      exact ⟨c, hinv _ (leastOrder_block _), rfl⟩
    · cases hok.symm.trans hpanic
  | kallocNosleep ho hok =>
    rcases hi.kallocNosleep ho with ⟨p, h', hok', hinv⟩ | hpanic
    · obtain ⟨rfl, rfl⟩ := Outcome.ok.inj (hok.symm.trans hok')
      exact ⟨c, hinv _ (leastOrder_block _), rfl⟩
    · cases hok.symm.trans hpanic
  | createSlab h4 hz hok =>
    rcases hi.createSlab h4 hz _ with ⟨s, h', hok', hinv, hq⟩ | ⟨h', hpanic⟩
    · obtain ⟨rfl, rfl⟩ := Outcome.ok.inj (hok.symm.trans hok')
      exact ⟨_, hinv, hq.loose⟩
    · cases hok.symm.trans hpanic
  | salloc hp hok =>
    rcases hi.salloc _ with ⟨s, i, h', c', -, hok', hinv, -, hsv⟩ | ⟨-, hnull⟩
    · obtain ⟨rfl, rfl⟩ := Outcome.ok.inj (hok.symm.trans hok')
      exact ⟨c', hinv, hsv.loose⟩
    · exact absurd (Outcome.ok.inj (hok.symm.trans hnull)).1 hp
  | sallocNull hok =>
    rcases hi.salloc _ with ⟨s, i, h', c', -, hok', -⟩ | ⟨-, hnull⟩
    · cases (Outcome.ok.inj (hok.symm.trans hok')).1
    · obtain ⟨-, rfl⟩ := Outcome.ok.inj (hok.symm.trans hnull)
      exact ⟨c, hi, rfl⟩
  | sfree hr hk hok =>
    obtain ⟨h', c', hok', -, hinv, hq⟩ := hi.sfree hr hk
    obtain ⟨-, rfl⟩ := Outcome.ok.inj (hok.symm.trans hok')
    exact ⟨c', hinv, hq.loose⟩
  | kfreePage hr hk hok =>
    obtain ⟨z', h', -, hok', -, -, hinv⟩ := hi.kfreePage hr hk
    obtain ⟨-, rfl⟩ := Outcome.ok.inj (hok.symm.trans hok')
    exact ⟨c, hinv, rfl⟩
  | write ha => exact ⟨c, hi.write ha, rfl⟩
  | tick =>
    obtain ⟨hh, hl, hs⟩ := hi
    exact ⟨c, ⟨⟨hh.zone, hh.small, hh.slab_order, hh.page_order, hh.unlocked, hh.cache, hh.low,
      hh.image, hh.kMemCache, hh.fast⟩, hl, hs⟩, rfl⟩

theorem sysInv_run (hr : Relation.ReflTransGen HeapStep σ σ') (hi : SysInv L c σ) :
    ∃ c', SysInv L c' σ' ∧ c'.loose = c.loose := by
  induction hr with
  | refl => exact ⟨c, hi, rfl⟩
  | tail _ hs ih =>
    obtain ⟨c', hi', hl'⟩ := ih
    obtain ⟨c'', hi'', hl''⟩ := sysInv_step hs hi'
    exact ⟨c'', hi'', hl''.trans hl'⟩

theorem Started.sysInv {totalPages : ℕ} {h : Heap} (hs : Started totalPages h L c) :
    SysInv L c ⟨h, c.slabs, []⟩ :=
  ⟨hs.inv, ⟨fun _ hr => absurd hr List.not_mem_nil, fun _ hr => absurd hr List.not_mem_nil,
    List.nodup_nil⟩, rfl⟩

theorem HeapReach.started {totalPages : ℕ} (h : HeapReach totalPages σ) :
    totalPages < 2 ^ 20 ∧ ∃ L c₀ h₀ c, Started totalPages h₀ L c₀ ∧ SysInv L c σ ∧ c.loose = none := by
  obtain ⟨h₀, h₁, slabs, hboot, hinit, hrun⟩ := h
  rcases kernelInit_spec hboot with ⟨c, h', L, hok, hst⟩ | ⟨⟨msg, h', hpanic⟩, -⟩
  · obtain ⟨rfl, rfl⟩ := Outcome.ok.inj (hinit.symm.trans hok)
    obtain ⟨c', hi, hl⟩ := sysInv_run hrun hst.sysInv
    exact ⟨hboot.pages, L, c, h₁, c', hst, hi, hl.trans hst.fresh.loose⟩
  · cases hinit.symm.trans hpanic

theorem HeapReach.sysInv {totalPages : ℕ} (h : HeapReach totalPages σ) :
    ∃ L c, SysInv L c σ ∧ c.loose = none := by
  obtain ⟨-, L, -, -, c, -, hi, hl⟩ := h.started
  exact ⟨L, c, hi, hl⟩

theorem HeapReach.run {totalPages : ℕ} (h : HeapReach totalPages σ)
    (hr : Relation.ReflTransGen HeapStep σ σ') : HeapReach totalPages σ' := by
  obtain ⟨h₀, h₁, slabs, hboot, hinit, hrun⟩ := h
  exact ⟨h₀, h₁, slabs, hboot, hinit, hrun.trans hr⟩

end Steps

/-- The kernel image ends 2 MiB into memory. -/
def bootHeap : Heap where
  mem := fun _ => 0
  kernelBuddyNew := ⟨0, 0, 0, fun _ => ⟨0, false, 0⟩, ⟨id, id⟩⟩
  fastBuddyNew := ⟨0, 0, 0, fun _ => ⟨0, false, 0⟩, ⟨id, id⟩⟩
  normalBuddyNew := ⟨0, 0, 0, fun _ => ⟨0, false, 0⟩, ⟨id, id⟩⟩
  freeMemAddr := 0xC0200000
  totalUsedMemory := 0
  totalFusedMemory := 0
  totalKusedMemory := 0
  locks := fun _ => true
  kMemCache := 0xC0180000
  tickCount := 0

theorem bootState_bootHeap : BootState 114688 bootHeap :=
  ⟨by decide, by decide, by decide, by decide⟩

theorem heapReach_boot : ∃ L c h, Started 114688 h L c ∧ HeapReach 114688 ⟨h, c.slabs, []⟩ := by
  rcases kernelInit_spec bootState_bootHeap with ⟨c, h, L, hok, hst⟩ | ⟨-, hfew⟩
  · exact ⟨L, c, h, hst, bootHeap, h, c.slabs, bootState_bootHeap, hok, .refl⟩
  · omega

end X86Osdev.Mem

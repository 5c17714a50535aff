import X86Osdev.Mem.BuddyZone
import X86Osdev.Mem.SlabCalls

/-! The kernel zone and the slab cache together: which page belongs to whom, and what
each call of the allocators does to both. -/

namespace X86Osdev.Mem
open X86Osdev.Lib ByteMemory CircularList DyadicTiling

def pageAddr (p : ℕ) : ℕ := kernelVirtualAddressBase + p * pageSize

def pageOf (a : ℕ) : ℕ := (a - kernelVirtualAddressBase) / pageSize

section Addresses
variable {p q a : ℕ}

theorem pageAddr_eq (p : ℕ) : pageAddr p = 3221225472 + p * 4096 := rfl

@[simp] theorem pageOf_pageAddr (p : ℕ) : pageOf (pageAddr p) = p := by
  unfold pageOf pageAddr pageSize
  omega

theorem pageAddr_pageOf (ha : a % 4096 = 0) (hk : kernelVirtualAddressBase ≤ a) :
    pageAddr (pageOf a) = a := by
  unfold pageOf pageAddr pageSize kernelVirtualAddressBase at *
  omega

theorem pageOf_inj {b : ℕ} (ha : a % 4096 = 0) (hka : kernelVirtualAddressBase ≤ a)
    (hb : b % 4096 = 0) (hkb : kernelVirtualAddressBase ≤ b) (h : pageOf a = pageOf b) : a = b := by
  rw [← pageAddr_pageOf ha hka, ← pageAddr_pageOf hb hkb, h]

theorem pageAddr_end (hp : p < 2 ^ 17) : pageAddr p + 4096 ≤ 2 ^ 32 := by
  rw [pageAddr_eq]
  omega

theorem va_calcBuddyPhys {z : BuddyMemDesc} (hoff : z.pfnOffset = 0)
    (hpfn : (z.allBuddies p).pfn = p) (hp : p < 2 ^ 17) : va (calcBuddyPhys p z) = pageAddr p := by
  rw [va, calcBuddyPhys, hoff, hpfn, pageAddr_eq]
  unfold u32 pageSize kernelVirtualAddressBase
  omega

theorem pa_pageAddr (hp : p < 2 ^ 17) : pa (pageAddr p) = p * 4096 := by
  rw [pa, pageAddr_eq]
  unfold u32 kernelVirtualAddressBase
  omega

theorem buddyNewFromPhys_pageAddr {z : BuddyMemDesc} (hoff : z.pfnOffset = 0) (hp : p < 2 ^ 17) :
    buddyNewFromPhys (pa (pageAddr p)) z = p := by
  rw [pa_pageAddr hp, buddyNewFromPhys, hoff]
  unfold u32 pageSize
  omega

end Addresses

structure ZonesOnly (h h' : Heap) : Prop where
  mem : h'.mem = h.mem
  locks : h'.locks = h.locks
  kMemCache : h'.kMemCache = h.kMemCache
  fast : h'.fastBuddyNew = h.fastBuddyNew

theorem ZonesOnly.refl (h : Heap) : ZonesOnly h h := ⟨rfl, rfl, rfl, rfl⟩

theorem ZonesOnly.trans {h h' h'' : Heap} (h₁ : ZonesOnly h h') (h₂ : ZonesOnly h' h'') :
    ZonesOnly h h'' :=
  ⟨h₂.mem.trans h₁.mem, h₂.locks.trans h₁.locks, h₂.kMemCache.trans h₁.kMemCache,
    h₂.fast.trans h₁.fast⟩

theorem RunInv.perm {n off : ℕ} {z : BuddyMemDesc} {handed handed' : List ℕ}
    (hi : RunInv n off z handed) (hp : handed.Perm handed') : RunInv n off z handed' := by
  obtain ⟨⟨fl, hz⟩, hnd, ht, ho⟩ := hi
  have hset : handed.toFinset = handed'.toFinset := List.toFinset_eq_of_perm _ _ hp
  exact ⟨⟨fl, hset ▸ hz⟩, hp.nodup_iff.mp hnd, ht, ho⟩

def outOfMemory : String := "No more buddy blocks available\n"

section PageCalls
variable {n order p : ℕ} {h : Heap} {handed : List ℕ} {fl : ℕ → List ℕ}

theorem RunInv.lt (hi : RunInv n 0 h.kernelBuddyNew handed) (hp : p ∈ handed) : p < n := by
  obtain ⟨⟨fl, hz⟩, -, ht, -⟩ := hi
  exact ht ▸ hz.handed_lt (List.mem_toFinset.mpr hp)

theorem kallocNosleep_lists (hz : ZoneInv h.kernelBuddyNew fl handed.toFinset)
    (hnd : handed.Nodup) (ht : h.kernelBuddyNew.totPages ≤ 2 ^ 17)
    (hoff : h.kernelBuddyNew.pfnOffset = 0) (ho : order ≤ maxOrder) :
    (∃ p fl' h', kallocNosleep order h = .ok (pageAddr p) h' ∧
        takeLists (maxOrder - order) fl = some (p, fl') ∧
        ZoneInv h'.kernelBuddyNew fl' (p :: handed).toFinset ∧ (p :: handed).Nodup ∧
        orderOf h'.kernelBuddyNew p = order ∧
        Keeps h.kernelBuddyNew h'.kernelBuddyNew handed.toFinset ∧ ZonesOnly h h') ∨
      kallocNosleep order h = .panic outOfMemory h ∧ takeLists (maxOrder - order) fl = none := by
  rcases getBuddyNew_spec hz ho with ⟨p, z', fl', hget, hlists, hz', hp, hpo, hk⟩ | ⟨hpanic, hnone, -⟩
  · refine .inl ⟨p, fl', addKused (blockBytes (z'.allBuddies p).order)
      { h with kernelBuddyNew := z' }, ?_, hlists, ?_, ?_, hpo, hk, ⟨rfl, rfl, rfl, rfl⟩⟩
    · rw [kallocNosleep, hget, Outcome.lift_ok, Outcome.bind_ok]
      have hlt := hz'.handed_lt (Finset.mem_insert_self p _)
      have hpa : va (calcBuddyPhys p z') = pageAddr p :=
        va_calcBuddyPhys (hk.pfnOffset.trans hoff) (hz'.pfn p hlt) (by
          rw [hk.totPages] at hlt
          omega)
      rw [hpa]
    · rw [List.toFinset_cons]
      exact hz'
    · exact List.nodup_cons.mpr ⟨fun hm => hp (List.mem_toFinset.mpr hm), hnd⟩
  · refine .inr ⟨?_, hnone⟩
    rw [kallocNosleep, hpanic, Outcome.lift_panic, Outcome.bind_panic]
    rfl

theorem kallocNosleep_spec (hi : RunInv n 0 h.kernelBuddyNew handed) (hn : n ≤ 2 ^ 17)
    (ho : order ≤ maxOrder) :
    (∃ p h', kallocNosleep order h = .ok (pageAddr p) h' ∧
        RunInv n 0 h'.kernelBuddyNew (p :: handed) ∧ orderOf h'.kernelBuddyNew p = order ∧
        (∀ q ∈ handed, orderOf h'.kernelBuddyNew q = orderOf h.kernelBuddyNew q) ∧
        ZonesOnly h h') ∨
      kallocNosleep order h = .panic outOfMemory h := by
  obtain ⟨⟨fl, hz⟩, hnd, ht, hoff⟩ := hi
  rcases kallocNosleep_lists hz hnd (ht ▸ hn) hoff ho with
    ⟨p, fl', h', hok, -, hz', hnd', hpo, hk, hs⟩ | ⟨hpanic, -⟩
  · refine .inl ⟨p, h', hok, ⟨⟨fl', hz'⟩, hnd', hk.totPages.trans ht, hk.pfnOffset.trans hoff⟩,
      hpo, fun q hq => ?_, hs⟩
    exact congrArg BuddyBlockNew.order (hk.header q (List.mem_toFinset.mpr hq))
  · exact .inr hpanic

theorem kallocPage_spec (hi : RunInv n 0 h.kernelBuddyNew handed) (hn : n ≤ 2 ^ 17)
    (hlock : h.locks .kmemLock = false) (ho : order ≤ maxOrder) :
    (∃ p h', kallocPage order h = .ok (pageAddr p) h' ∧
        RunInv n 0 h'.kernelBuddyNew (p :: handed) ∧ orderOf h'.kernelBuddyNew p = order ∧
        (∀ q ∈ handed, orderOf h'.kernelBuddyNew q = orderOf h.kernelBuddyNew q) ∧
        ZonesOnly h h') ∨
      ∃ h', kallocPage order h = .panic outOfMemory h' := by
  rw [kallocPage, getLock_free hlock, Outcome.bind_ok]
  set h₁ : Heap := { h with locks := Function.update h.locks .kmemLock true }
  have hi₁ : RunInv n 0 h₁.kernelBuddyNew handed := hi
  rcases kallocNosleep_spec hi₁ hn ho with ⟨p, h', hok, hi', hpo, hord, hs⟩ | hpanic
  · refine .inl ⟨p, unlock .kmemLock h', ?_, hi', hpo, hord, hs.mem, ?_, hs.kMemCache, hs.fast⟩
    · rw [hok, Outcome.bind_ok]
    · have hback : Function.update (Function.update h.locks .kmemLock true) .kmemLock false =
          h.locks := by
        rw [Function.update_idem, ← hlock, Function.update_eq_self]
      change Function.update h'.locks .kmemLock false = h.locks
      rw [hs.locks]
      exact hback
  · exact .inr ⟨h₁, by rw [hpanic, Outcome.bind_panic]⟩

theorem kfreePage_spec (hi : RunInv n 0 h.kernelBuddyNew handed) (hn : n ≤ 2 ^ 17)
    (hlock : h.locks .kmemLock = false) (hp : p ∈ handed) :
    ∃ z' h', freeBuddyNew p h.kernelBuddyNew = .ok () z' ∧ kfreePage (pageAddr p) h = .ok () h' ∧
      h'.kernelBuddyNew = z' ∧ RunInv n 0 z' (handed.erase p) ∧
      (∀ q ∈ handed.erase p, orderOf z' q = orderOf h.kernelBuddyNew q) ∧ ZonesOnly h h' := by
  have hlt := hi.lt hp
  obtain ⟨⟨fl, hz⟩, hnd, ht, hoff⟩ := hi
  obtain ⟨z', fl', hfree, hz', hk⟩ := freeBuddyNew_spec hz (List.mem_toFinset.mpr hp)
  have hne : pageAddr p ≠ 0 := by
    rw [pageAddr_eq]
    omega
  refine ⟨z', unlock .kmemLock (subKused (blockBytes (h.kernelBuddyNew.allBuddies p).order)
    { h with locks := Function.update h.locks .kmemLock true, kernelBuddyNew := z' }),
    hfree, ?_, rfl, ?_, ?_, ?_⟩
  · rw [kfreePage, if_neg hne]
    simp only [getLock_free hlock, Outcome.bind_ok]
    rw [buddyNewFromPhys_pageAddr (z := h.kernelBuddyNew) hoff (by omega), hfree]
    rfl
  · refine ⟨⟨fl', ?_⟩, hnd.erase p, hk.totPages.trans ht, hk.pfnOffset.trans hoff⟩
    rw [toFinset_erase hnd]
    exact hz'
  · intro q hq
    refine congrArg BuddyBlockNew.order (hk.header q ?_)
    rw [← toFinset_erase hnd]
    exact List.mem_toFinset.mpr hq
  · refine ⟨rfl, ?_, rfl, rfl⟩
    change Function.update (Function.update h.locks .kmemLock true) .kmemLock false = h.locks
    rw [Function.update_idem, ← hlock, Function.update_eq_self]

end PageCalls

/-- What never changes: `reserved` are the blocks that neither hold slabs nor belong to callers; they
fill the pages below `first`. -/
structure Layout where
  numPages : ℕ
  first : ℕ
  reserved : List ℕ
  kMemCache : ℕ
  fast : BuddyMemDesc

def handedPages (L : Layout) (c : Cache) (pages : List (ℕ × ℕ)) : List ℕ :=
  L.reserved ++ (c.slabs.map pageOf ++ pages.map Prod.fst)

structure HeapInv (L : Layout) (h : Heap) (c : Cache) (pages : List (ℕ × ℕ)) : Prop where
  zone : RunInv L.numPages 0 h.kernelBuddyNew (handedPages L c pages)
  small : L.numPages ≤ 2 ^ 17
  slab_order : ∀ s ∈ c.slabs, orderOf h.kernelBuddyNew (pageOf s) = 0
  page_order : ∀ b ∈ pages, orderOf h.kernelBuddyNew b.1 = b.2
  unlocked : ∀ l, h.locks l = false
  cache : CacheInv h.mem h.kMemCache c
  low : ∀ x < L.first, ∃ r ∈ L.reserved, x ∈ span r (orderOf h.kernelBuddyNew r)
  image : h.kMemCache + 36 ≤ pageAddr L.first
  kMemCache : h.kMemCache = L.kMemCache
  fast : h.fastBuddyNew = L.fast

section Calls
variable {L : Layout} {h h' : Heap} {c : Cache} {pages : List (ℕ × ℕ)} {p order : ℕ}

theorem HeapInv.reserved_mem {r : ℕ} (hr : r ∈ L.reserved) : r ∈ handedPages L c pages :=
  List.mem_append_left _ hr

theorem HeapInv.slab_mem {s : ℕ} (hs : s ∈ c.slabs) : pageOf s ∈ handedPages L c pages :=
  List.mem_append_right _ (List.mem_append_left _ (List.mem_map_of_mem hs))

theorem HeapInv.page_mem {b : ℕ × ℕ} (hb : b ∈ pages) : b.1 ∈ handedPages L c pages :=
  List.mem_append_right _ (List.mem_append_right _ (List.mem_map_of_mem hb))

theorem RunInv.spans_disjoint {n q : ℕ} {z : BuddyMemDesc} {handed : List ℕ}
    (hi : RunInv n 0 z handed) (hp : p ∈ handed) (hq : q ∈ handed) (hpq : p ≠ q) :
    Disjoint (span p (orderOf z p)) (span q (orderOf z q)) := by
  obtain ⟨⟨fl, hz⟩, -, -, -⟩ := hi
  exact hz.tiling.disjoint p (.inr (List.mem_toFinset.mpr hp)) q
    (.inr (List.mem_toFinset.mpr hq)) hpq

theorem RunInv.block_end {n : ℕ} {z : BuddyMemDesc} {handed : List ℕ}
    (hi : RunInv n 0 z handed) (hp : p ∈ handed) : p + 2 ^ orderOf z p ≤ n := by
  obtain ⟨⟨fl, hz⟩, -, ht, -⟩ := hi
  exact ht ▸ hz.tiling.below p (.inr (List.mem_toFinset.mpr hp))

theorem HeapInv.first_le (hh : HeapInv L h c pages) {n : ℕ} {z' : BuddyMemDesc}
    (hi : RunInv n 0 z' (p :: handedPages L c pages))
    (hord : ∀ q ∈ handedPages L c pages, orderOf z' q = orderOf h.kernelBuddyNew q) :
    L.first ≤ p := by
  by_contra hlt
  obtain ⟨r, hr, hx⟩ := hh.low p (by omega)
  have hrm : r ∈ handedPages L c pages := HeapInv.reserved_mem hr
  have hpr : p ≠ r := fun e => (List.nodup_cons.mp hi.nodup).1 (e ▸ hrm)
  have hdis := hi.spans_disjoint (List.mem_cons_self ..) (List.mem_cons_of_mem _ hrm) hpr
  rw [hord r hrm, Set.disjoint_left] at hdis
  exact hdis (by rw [mem_span]; exact ⟨le_rfl, Nat.lt_add_of_pos_right (by positivity)⟩) hx

theorem HeapInv.keep_low (hh : HeapInv L h c pages) {z' : BuddyMemDesc}
    (hord : ∀ q ∈ L.reserved, orderOf z' q = orderOf h.kernelBuddyNew q) :
    ∀ x < L.first, ∃ r ∈ L.reserved, x ∈ span r (orderOf z' r) := by
  intro x hx
  obtain ⟨r, hr, hxr⟩ := hh.low x hx
  exact ⟨r, hr, by rwa [hord r hr]⟩

theorem HeapInv.placed (hh : HeapInv L h c pages) (hp : L.first ≤ p) (hlt : p < 2 ^ 17) :
    Placed h.kMemCache (pageAddr p) := by
  refine ⟨?_, hh.image.trans ?_, pageAddr_end hlt, Nat.le_add_right _ _⟩
  · rw [pageAddr_eq]
    omega
  · exact Nat.add_le_add_left (Nat.mul_le_mul_right _ hp) _

theorem handedPages_cons (L : Layout) (c : Cache) (pages : List (ℕ × ℕ)) (b : ℕ × ℕ) :
    (b.1 :: handedPages L c pages).Perm (handedPages L c (b :: pages)) := by
  unfold handedPages
  rw [List.map_cons, ← List.append_assoc, ← List.append_assoc]
  exact List.perm_middle.symm

theorem handedPages_add (L : Layout) (c : Cache) (pages : List (ℕ × ℕ)) (s : ℕ) (v : SlabState) :
    (pageOf s :: handedPages L c pages).Perm (handedPages L (c.add s v) pages) := by
  unfold handedPages
  rw [Cache.add, List.map_cons, List.cons_append]
  exact List.perm_middle.symm

theorem HeapInv.addPage (hh : HeapInv L h c pages)
    (hi : RunInv L.numPages 0 h'.kernelBuddyNew (p :: handedPages L c pages))
    (hpo : orderOf h'.kernelBuddyNew p = order)
    (hord : ∀ q ∈ handedPages L c pages, orderOf h'.kernelBuddyNew q = orderOf h.kernelBuddyNew q)
    (hs : ZonesOnly h h') : HeapInv L h' c ((p, order) :: pages) where
  zone := hi.perm (handedPages_cons L c pages (p, order))
  small := hh.small
  slab_order s hs := (hord _ (HeapInv.slab_mem hs)).trans (hh.slab_order s hs)
  page_order b hb := by
    rcases List.mem_cons.mp hb with rfl | hb
    · exact hpo
    · exact (hord _ (HeapInv.page_mem hb)).trans (hh.page_order b hb)
  unlocked l := by rw [hs.locks, hh.unlocked]
  cache := by
    rw [hs.mem, hs.kMemCache]
    exact hh.cache
  low := hh.keep_low fun q hq => hord q (HeapInv.reserved_mem hq)
  image := hs.kMemCache ▸ hh.image
  kMemCache := hs.kMemCache.trans hh.kMemCache
  fast := hs.fast.trans hh.fast

theorem HeapInv.setMem (hh : HeapInv L h c pages) {m' : Memory} {c' : Cache}
    (hc : CacheInv m' h.kMemCache c') (hs : c'.slabs = c.slabs) :
    HeapInv L { h with mem := m' } c' pages where
  zone := by
    unfold handedPages
    rw [hs]
    exact hh.zone
  small := hh.small
  slab_order s hm := hh.slab_order s (hs ▸ hm)
  page_order := hh.page_order
  unlocked := hh.unlocked
  cache := hc
  low := hh.low
  image := hh.image
  kMemCache := hh.kMemCache
  fast := hh.fast

theorem HeapInv.kallocNosleep (hh : HeapInv L h c pages) (ho : order ≤ maxOrder) :
    (∃ p h', kallocNosleep order h = .ok (pageAddr p) h' ∧ HeapInv L h' c ((p, order) :: pages)) ∨
      kallocNosleep order h = .panic outOfMemory h := by
  rcases kallocNosleep_spec hh.zone hh.small ho with ⟨p, h', hok, hi, hpo, hord, hs⟩ | hpanic
  · exact .inl ⟨p, h', hok, hh.addPage hi hpo hord hs⟩
  · exact .inr hpanic

theorem HeapInv.kallocPage (hh : HeapInv L h c pages) (ho : order ≤ maxOrder) :
    (∃ p h', kallocPage order h = .ok (pageAddr p) h' ∧ HeapInv L h' c ((p, order) :: pages)) ∨
      ∃ h', kallocPage order h = .panic outOfMemory h' := by
  rcases kallocPage_spec hh.zone hh.small (hh.unlocked _) ho with
    ⟨p, h', hok, hi, hpo, hord, hs⟩ | hpanic
  · exact .inl ⟨p, h', hok, hh.addPage hi hpo hord hs⟩
  · exact .inr hpanic

theorem HeapInv.kfreePage (hh : HeapInv L h c pages) {b : ℕ × ℕ} (hb : b ∈ pages) :
    ∃ z' h', freeBuddyNew b.1 h.kernelBuddyNew = .ok () z' ∧
      kfreePage (pageAddr b.1) h = .ok () h' ∧ h'.kernelBuddyNew = z' ∧ ZonesOnly h h' ∧
      HeapInv L h' c (pages.erase b) := by
  obtain ⟨z', h', hfree, hok, hz, hi, hord, hs⟩ :=
    kfreePage_spec hh.zone hh.small (hh.unlocked _) (HeapInv.page_mem hb)
  subst hz
  have hperm : ((handedPages L c pages).erase b.1).Perm (handedPages L c (pages.erase b)) := by
    have hcons : (handedPages L c pages).Perm (b.1 :: handedPages L c (pages.erase b)) := by
      refine .trans ?_ (handedPages_cons L c (pages.erase b) b).symm
      exact .append_left _ (.append_left _ ((List.perm_cons_erase hb).map _))
    exact (hcons.erase b.1).trans (by rw [List.erase_cons_head])
  have hord' : ∀ q ∈ handedPages L c (pages.erase b),
      orderOf h'.kernelBuddyNew q = orderOf h.kernelBuddyNew q := fun q hq =>
    hord q (hperm.mem_iff.mpr hq)
  refine ⟨_, h', hfree, hok, rfl, hs, hi.perm hperm, hh.small, ?_, ?_, ?_, ?_, ?_, ?_,
    hs.kMemCache.trans hh.kMemCache, hs.fast.trans hh.fast⟩
  · exact fun s hs' => (hord' _ (HeapInv.slab_mem hs')).trans (hh.slab_order s hs')
  · exact fun b' hb' => (hord' _ (HeapInv.page_mem hb')).trans
      (hh.page_order b' (List.mem_of_mem_erase hb'))
  · exact fun l => by rw [hs.locks, hh.unlocked]
  · rw [hs.mem, hs.kMemCache]
    exact hh.cache
  · exact hh.keep_low fun q hq => hord' q (HeapInv.reserved_mem hq)
  · exact hs.kMemCache ▸ hh.image

end Calls

section SlabCalls
variable {L : Layout} {h h' : Heap} {c : Cache} {pages : List (ℕ × ℕ)} {p size : ℕ}

theorem HeapInv.addSlab (hh : HeapInv L h c pages)
    (hi : RunInv L.numPages 0 h'.kernelBuddyNew (p :: handedPages L c pages))
    (hpo : orderOf h'.kernelBuddyNew p = 0)
    (hord : ∀ q ∈ handedPages L c pages, orderOf h'.kernelBuddyNew q = orderOf h.kernelBuddyNew q)
    (hs : ZonesOnly h h') (h4 : 4 ≤ size) (hz : size ≤ maxSlabSize) :
    pageAddr p ∉ c.slabs ∧
      HeapInv L { h' with mem := linkSlab h'.kMemCache (pageAddr p) size h'.mem }
        (c.add (pageAddr p) (.fresh size 0 h4 hz)) pages ∧
      Touches (2 ^ 32) (cacheBytes h.kMemCache (pageAddr p :: c.slabs)) h.mem
        (linkSlab h'.kMemCache (pageAddr p) size h'.mem) := by
  have hlt : p < 2 ^ 17 := lt_of_lt_of_le (hi.lt (h := h') (List.mem_cons_self ..)) hh.small
  have hplaced := hh.placed (hh.first_le hi hord) hlt
  have hnew : pageAddr p ∉ c.slabs := by
    intro hm
    have hmem := @HeapInv.slab_mem L _ pages _ hm
    rw [pageOf_pageAddr] at hmem
    exact (List.nodup_cons.mp hi.nodup).1 hmem
  have hcache := hh.cache
  rw [← hs.mem, ← hs.kMemCache] at hcache
  rw [← hs.kMemCache] at hplaced
  obtain ⟨hlink, htouch⟩ := hcache.linkSlab hplaced hnew h4 hz
  refine ⟨hnew, ⟨?_, hh.small, ?_, ?_, ?_, hlink, ?_, ?_, hs.kMemCache.trans hh.kMemCache,
    hs.fast.trans hh.fast⟩, hs.kMemCache ▸ hs.mem ▸ htouch⟩
  · have hperm := handedPages_add L c pages (pageAddr p) (.fresh size 0 h4 hz)
    rw [pageOf_pageAddr] at hperm
    exact hi.perm hperm
  · intro s hs'
    rcases List.mem_cons.mp hs' with rfl | hs'
    · rw [pageOf_pageAddr]
      exact hpo
    · exact (hord _ (HeapInv.slab_mem hs')).trans (hh.slab_order s hs')
  · exact fun b hb => (hord _ (HeapInv.page_mem hb)).trans (hh.page_order b hb)
  · exact fun l => by rw [← hh.unlocked l, ← hs.locks]
  · exact hh.keep_low fun q hq => hord q (HeapInv.reserved_mem hq)
  · exact hs.kMemCache ▸ hh.image

theorem createSlab_rest (hz : size ≤ maxSlabSize) (hlock : h'.locks .slabLock = false) {s : ℕ} :
    (let m := slabHeader s size h'.mem
      if slabTot size = 2 ^ 32 - 1 then .hang { h' with mem := m }
      else
        let m := (linkBufs s size (slabTot size) (slabTot size + 1) (u32 (s + sizeofSlab), m)).2
        let m := listInit m (Slab.head s)
        (getLock .slabLock { h' with mem := m }).bind fun _ h =>
          let m := listAddTail h.mem (cacheList h.kMemCache .free) (Slab.head s)
          .ok s (unlock .slabLock { h with mem := m }) : Outcome Heap ℕ) =
      .ok s { h' with mem := linkSlab h'.kMemCache s size h'.mem } := by
  have hne : slabTot size ≠ 2 ^ 32 - 1 := by
    have := chunks_le size
    rw [slabTot_eq hz]
    omega
  have hget : ∀ m, getLock .slabLock { h' with mem := m } =
      .ok () { h' with mem := m, locks := Function.update h'.locks .slabLock true } := fun m =>
    getLock_free (h := { h' with mem := m }) hlock
  simp only [if_neg hne, hget, Outcome.bind_ok]
  exact congrArg (Outcome.ok s) (unlock_getLock hlock _)

theorem HeapInv.createSlab (hh : HeapInv L h c pages) (h4 : 4 ≤ size) (hz : size ≤ maxSlabSize)
    (noSleep : Bool) :
    (∃ s h', createSlab size noSleep h = .ok s h' ∧ s ∉ c.slabs ∧
        HeapInv L h' (c.add s (.fresh size 0 h4 hz)) pages ∧
        Touches (2 ^ 32) (cacheBytes h.kMemCache (s :: c.slabs)) h.mem h'.mem ∧
        ∀ q ∈ handedPages L c pages, orderOf h'.kernelBuddyNew q = orderOf h.kernelBuddyNew q) ∨
      ∃ h', createSlab size noSleep h = .panic outOfMemory h' := by
  have hpage : (∃ p h', (if noSleep = true then Mem.kallocNosleep 0 h else Mem.kallocPage 0 h) =
        .ok (pageAddr p) h' ∧ RunInv L.numPages 0 h'.kernelBuddyNew (p :: handedPages L c pages) ∧
        orderOf h'.kernelBuddyNew p = 0 ∧ (∀ q ∈ handedPages L c pages,
          orderOf h'.kernelBuddyNew q = orderOf h.kernelBuddyNew q) ∧ ZonesOnly h h') ∨
      ∃ h', (if noSleep = true then Mem.kallocNosleep 0 h else Mem.kallocPage 0 h) =
        .panic outOfMemory h' := by
    cases noSleep with
    | true =>
      rcases kallocNosleep_spec hh.zone hh.small (Nat.zero_le _) with hok | hpanic
      · exact .inl hok
      · exact .inr ⟨h, hpanic⟩
    | false => exact kallocPage_spec hh.zone hh.small (hh.unlocked _) (Nat.zero_le _)
  rcases hpage with ⟨p, h', hok, hi, hpo, hord, hs⟩ | ⟨h', hpanic⟩
  · obtain ⟨hnew, hinv, htouch⟩ := hh.addSlab hi hpo hord hs h4 hz
    refine .inl ⟨pageAddr p, _, ?_, hnew, hinv, htouch, hord⟩
    rw [Mem.createSlab, hok, Outcome.bind_ok]
    exact createSlab_rest hz (by rw [hs.locks, hh.unlocked])
  · exact .inr ⟨h', by rw [Mem.createSlab, hpanic, Outcome.bind_panic]⟩

/-- Chunk `i` of slab `s` has been handed out. -/
structure Served (c c' : Cache) (size s i : ℕ) : Prop where
  mem : s ∈ c'.slabs
  size_eq : (c'.view s).size = size
  slabs : c'.slabs = c.slabs.insert s
  loose : c'.loose = c.loose
  live : (c'.view s).live = i :: if s ∈ c.slabs then (c.view s).live else []
  old_size : s ∈ c.slabs → (c.view s).size = size
  old_pinned : s ∈ c.slabs → (c'.view s).pinned = (c.view s).pinned
  other : ∀ t ∈ c.slabs, t ≠ s → c'.view t = c.view t

theorem HeapInv.salloc (hh : HeapInv L h c pages) (size : ℕ) :
    (∃ s i c' h', c.find size = some s ∧ salloc size h = .ok (bufAt s size i + 8) h' ∧
        HeapInv L h' c' pages ∧ Served c c' size s i ∧
        h'.kernelBuddyNew = h.kernelBuddyNew ∧
        Touches (2 ^ 32) (cacheBytes h.kMemCache c.slabs) h.mem h'.mem) ∨
      c.find size = none ∧ salloc size h = .ok 0 h := by
  cases hf : c.find size with
  | none => exact .inr ⟨rfl, salloc_none hh.cache (hh.unlocked _) hf⟩
  | some s =>
    obtain ⟨hs, -, hsz, -, -⟩ := hh.cache.find_some hf
    obtain ⟨i, chain, m', hch, hlt, hok, hc', htouch⟩ := salloc_some hh.cache (hh.unlocked _) hf
    rw [hsz] at hok
    refine .inl ⟨s, i, _, _, rfl, hok, hh.setMem hc' (by rw [Cache.slabs_took]), ?_, rfl,
      htouch⟩
    constructor
    · rwa [Cache.slabs_took]
    · rw [Cache.view_took, Function.update_self]
      exact hsz
    · rw [Cache.slabs_took, List.insert_of_mem hs]
    · rw [Cache.loose_took]
    · rw [Cache.view_took, Function.update_self, if_pos hs]
      rfl
    · exact fun _ => hsz
    · intro _
      rw [Cache.view_took, Function.update_self]
      rfl
    · intro t _ hts
      rw [Cache.view_took, Function.update_of_ne hts]

def kmallocSlabs (n : ℕ) (h : Heap) (slabs : List ℕ) : List ℕ :=
  let size := if n < 4 then 4 else n
  match Mem.salloc size h with
  | .ok out h =>
    if out ≠ 0 then slabs
    else
      match Mem.createSlab size false h with
      | .ok s _ => s :: slabs
      | _ => slabs
  | _ => slabs

/-- A small `kmalloc` is served by an old slab or by one made for it. -/
theorem HeapInv.kmalloc_small (hh : HeapInv L h c pages) {n : ℕ} (hn : n ≤ maxSlabSize) :
    (∃ s i c' h', kmalloc n h = .ok (bufAt s (max n 4) i + 8) h' ∧ HeapInv L h' c' pages ∧
        Served c c' (max n 4) s i ∧ c'.slabs = kmallocSlabs n h c.slabs ∧
        Touches (2 ^ 32) (cacheBytes h.kMemCache c'.slabs) h.mem h'.mem ∧
        ∀ q ∈ handedPages L c pages, orderOf h'.kernelBuddyNew q = orderOf h.kernelBuddyNew q) ∨
      ∃ h', kmalloc n h = .panic outOfMemory h' := by
  have hsize : (if n < 4 then 4 else n) = max n 4 := by
    split <;> omega
  have hz : max n 4 ≤ maxSlabSize := max_le hn (by decide)
  have hne : ∀ s i : ℕ, bufAt s (max n 4) i + 8 ≠ 0 := fun s i => by omega
  simp only [kmalloc, kmallocSlabs, if_pos hn, hsize]
  rcases hh.salloc (max n 4) with
    ⟨s, i, c', h', hf, hok, hinv, hserved, hzone, htouch⟩ | ⟨hnone, hnull⟩
  · have hslabs : c'.slabs = c.slabs := by
      rw [hserved.slabs, List.insert_of_mem (hh.cache.find_some hf).1]
    refine .inl ⟨s, i, c', h', ?_, hinv, hserved, ?_, hslabs ▸ htouch, fun q _ => by rw [hzone]⟩
    · rw [hok, Outcome.bind_ok, if_pos (hne s i)]
    · rw [hok]
      simp only [if_pos (hne s i)]
      exact hslabs
  · rw [hnull, Outcome.bind_ok, if_neg (not_not.mpr rfl)]
    rcases hh.createSlab (le_max_right n 4) hz false with
      ⟨s, h₁, hcreate, hnew, hh₁, htouch, hord⟩ | ⟨h₁, hpanic⟩
    · have hfull := hh.cache.find_none.mp hnone
      have hfree : s ∈ (c.add s (.fresh (max n 4) 0 (le_max_right n 4) hz)).lists .free := by
        simp [Cache.add]
      rcases hh₁.salloc (max n 4) with
        ⟨t, i, c', h', hfind, hok, hinv, hserved, hzone, htouch'⟩ | ⟨hnone', -⟩
      · -- every old slab is full, so the second `salloc` finds the new one
        have hts : t = s := by
          by_contra hts
          obtain ⟨hmem, hl, hsz, hlt, -⟩ := hh₁.cache.find_some hfind
          simp only [Cache.add, Function.update_of_ne hts] at hmem hl hsz hlt
          have := hfull t ((List.mem_cons.mp hmem).resolve_left hts) hl hsz
          omega
        subst hts
        have hslabs : c'.slabs = t :: c.slabs := by
          rw [hserved.slabs]
          simp [Cache.add]
        have hkc : h₁.kMemCache = h.kMemCache := hh₁.kMemCache.trans hh.kMemCache.symm
        rw [hkc] at htouch'
        refine .inl ⟨t, i, c', h', by rw [hcreate, Outcome.bind_ok, hok], hinv, ?_, ?_,
          hslabs ▸ htouch.trans htouch', fun q hq => by rw [hzone, hord q hq]⟩
        · constructor
          · exact hserved.mem
          · exact hserved.size_eq
          · rw [hslabs, List.insert_of_not_mem hnew]
          · exact hserved.loose
          · rw [hserved.live, if_neg hnew]
            simp [Cache.add, SlabState.fresh]
          · exact fun h => absurd h hnew
          · exact fun h => absurd h hnew
          · intro u hu hut
            rw [hserved.other u (List.mem_cons_of_mem _ hu) hut]
            simp [Cache.add, hut]
        · rw [hslabs]
          simp [hcreate]
      · -- and it cannot miss it: a new slab has at least one free buffer
        have h0 := hh₁.cache.find_none.mp hnone' s (List.mem_cons_self ..)
          (fun e => hnew (hh.cache.loose s e).1) (by simp [Cache.add, SlabState.fresh])
        have h7 := chunks_ge hz
        have htot := slabTot_eq hz
        simp only [Cache.add, Function.update_self, SlabState.fresh, List.length_nil] at h0
        omega
    · exact .inr ⟨h₁, by rw [hpanic, Outcome.bind_panic]⟩

theorem HeapInv.sfree (hh : HeapInv L h c pages) {s i : ℕ} (hs : s ∈ c.slabs)
    (hi : i ∈ (c.view s).live) :
    ∃ m', sfree (bufAt s (c.view s).size i + 8) h = .ok true { h with mem := m' } ∧
      HeapInv L { h with mem := m' } (c.gave s ((c.view s).give hi)) pages := by
  obtain ⟨m', hok, hc'⟩ := sfree_live hh.cache (hh.unlocked _) hs hi
  exact ⟨m', hok, hh.setMem hc' (by rw [Cache.slabs_gave])⟩

theorem HeapInv.dropSlab (hh : HeapInv L h c pages) {s : ℕ} (hl : c.loose = some s) :
    ∃ h', Mem.kfreePage s h = .ok () h' ∧ ZonesOnly h h' ∧ HeapInv L h' (c.drop s) pages := by
  have hs := (hh.cache.loose s hl).1
  have hsp := hh.cache.placed s hs
  have hm : pageOf s ∈ handedPages L c pages := HeapInv.slab_mem hs
  obtain ⟨z', h', -, hok, rfl, hi, hord, hz⟩ :=
    kfreePage_spec hh.zone hh.small (hh.unlocked _) hm
  rw [pageAddr_pageOf hsp.aligned hsp.kernel] at hok
  have hperm : ((handedPages L c pages).erase (pageOf s)).Perm (handedPages L (c.drop s) pages) := by
    have hcons := handedPages_add L (c.drop s) pages s (c.view s)
    have hslabs : ((c.drop s).add s (c.view s)).slabs.Perm c.slabs :=
      (List.perm_cons_erase hs).symm
    have hsame : (handedPages L ((c.drop s).add s (c.view s)) pages).Perm (handedPages L c pages) :=
      .append_left _ (.append_right _ (hslabs.map _))
    have he := (hcons.trans hsame).erase (pageOf s)
    rw [List.erase_cons_head] at he
    exact he.symm
  have hord' : ∀ q ∈ handedPages L (c.drop s) pages,
      orderOf h'.kernelBuddyNew q = orderOf h.kernelBuddyNew q := fun q hq =>
    hord q (hperm.mem_iff.mpr hq)
  refine ⟨h', hok, hz, hi.perm hperm, hh.small, fun t ht => ?_, fun b hb => ?_, fun l => ?_, ?_,
    hh.keep_low fun q hq => hord' q (HeapInv.reserved_mem hq), hz.kMemCache ▸ hh.image,
    hz.kMemCache.trans hh.kMemCache, hz.fast.trans hh.fast⟩
  · exact (hord' _ (HeapInv.slab_mem ht)).trans (hh.slab_order t (List.mem_of_mem_erase ht))
  · exact (hord' _ (HeapInv.page_mem hb)).trans (hh.page_order b hb)
  · rw [hz.locks, hh.unlocked]
  · rw [hz.mem, hz.kMemCache]
    exact hh.cache.drop hl

end SlabCalls

end X86Osdev.Mem

import X86Osdev.Mem.SlabMemory

/-! The cache as a whole: an abstract cache, the invariant that ties memory to it, and
one lemma for each change of the three lists. -/

namespace X86Osdev.Mem
open X86Osdev.Lib ByteMemory CircularList

structure SlabState where
  size : ℕ
  pinned : ℕ
  chain : List ℕ
  live : List ℕ
  size_ge : 4 ≤ size
  size_le : size ≤ maxSlabSize
  parts : (chain ++ live).Perm (List.range (chunks size))
  live_le : live.length ≤ slabTot size

namespace SlabState

def status (v : SlabState) : CacheList :=
  if v.live.length = 0 then .free else if v.live.length < slabTot v.size then .used else .empty

section Chunks
variable (v : SlabState) {i : ℕ} {chain : List ℕ}

theorem length_eq : v.chain.length + v.live.length = chunks v.size := by
  have h := v.parts.length_eq
  rwa [List.length_append, List.length_range] at h

theorem nodup : (v.chain ++ v.live).Nodup := v.parts.nodup_iff.mpr List.nodup_range

theorem lt_of_mem (h : i ∈ v.chain ++ v.live) : i < chunks v.size :=
  List.mem_range.mp (v.parts.mem_iff.mp h)

theorem live_lt (h : i ∈ v.live) : i < chunks v.size := v.lt_of_mem (List.mem_append_right _ h)

theorem chain_notMem (h : i ∈ v.live) : i ∉ v.chain := fun hc =>
  (List.nodup_append'.mp v.nodup).2.2 hc h

theorem tot_lt_chunks : slabTot v.size < chunks v.size := by
  have := chunks_ge v.size_le
  rw [slabTot_eq v.size_le]
  omega

/-- The chain of a slab never runs out: `tot` is one less than the number of chunks. -/
theorem chain_ne_nil : v.chain ≠ [] := by
  intro h
  have hl := v.length_eq
  have := v.tot_lt_chunks
  have := v.live_le
  rw [h, List.length_nil] at hl
  omega

def take (h : v.chain = i :: chain) (hlt : v.live.length < slabTot v.size) : SlabState where
  size := v.size
  pinned := v.pinned
  chain := chain
  live := i :: v.live
  size_ge := v.size_ge
  size_le := v.size_le
  parts := by
    have hp := v.parts
    rw [h] at hp
    exact List.perm_middle.trans hp
  live_le := hlt

def give (hi : i ∈ v.live) : SlabState where
  size := v.size
  pinned := v.pinned
  chain := i :: v.chain
  live := v.live.erase i
  size_ge := v.size_ge
  size_le := v.size_le
  parts := by
    have hp : (v.chain ++ i :: v.live.erase i).Perm (v.chain ++ v.live) :=
      (List.perm_cons_erase hi).symm.append_left _
    exact (List.perm_middle.symm.trans hp).trans v.parts
  live_le := (List.length_erase_le).trans v.live_le

theorem status_free : v.status = .free ↔ v.live.length = 0 := by
  unfold status
  split
  · simp [*]
  · split <;> simp [*]

theorem status_used : v.status = .used ↔ 0 < v.live.length ∧ v.live.length < slabTot v.size := by
  unfold status
  split
  · simp [*]
  · split
    · simp only [*, and_true, true_iff]
      omega
    · simp [*]

theorem status_empty : v.status = .empty ↔ v.live.length = slabTot v.size := by
  have hle := v.live_le
  have h7 := chunks_ge v.size_le
  have htot := slabTot_eq v.size_le
  unfold status
  split
  · simp only [reduceCtorEq, false_iff]
    omega
  · split
    · simp only [reduceCtorEq, false_iff]
      omega
    · simp only [true_iff]
      omega

end Chunks

/-- A slab as `createSlab` leaves it. -/
def fresh (size pinned : ℕ) (h4 : 4 ≤ size) (h : size ≤ maxSlabSize) : SlabState where
  size := size
  pinned := pinned
  chain := List.range (chunks size)
  live := []
  size_ge := h4
  size_le := h
  parts := by rw [List.append_nil]
  live_le := Nat.zero_le _

end SlabState

/-- `slabs` are the addresses of the slabs. A slab that `kswap` has unlinked but not yet given back
is `loose`. -/
structure Cache where
  slabs : List ℕ
  view : ℕ → SlabState
  lists : CacheList → List ℕ
  loose : Option ℕ

/-- Where a slab lies; `kc` is the address of `kMemCache`. -/
structure Placed (kc s : ℕ) : Prop where
  aligned : s % 4096 = 0
  above : kc + 36 ≤ s
  fits : s + 4096 ≤ 2 ^ 32
  kernel : kernelVirtualAddressBase ≤ s

def cacheNodes (kc : ℕ) (slabs : List ℕ) : Set ℕ :=
  {x | (∃ l : CacheList, x = cacheList kc l) ∨ ∃ s ∈ slabs, x = s + 16}

def listNodes (c : Cache) (l : CacheList) : List ℕ := (c.lists l).map (· + 16)

structure CacheInv (m : Memory) (kc : ℕ) (c : Cache) : Prop where
  fits : kc + 36 ≤ 2 ^ 32
  placed : ∀ s ∈ c.slabs, Placed kc s
  nodup : c.slabs.Nodup
  slab : ∀ s ∈ c.slabs, SlabAt m s (c.view s).size (c.view s).pinned (c.view s).live.length
    (c.view s).chain
  rings : Rings (linksOf m) (cacheList kc) (listNodes c)
  listed : ∀ l s, s ∈ c.lists l ↔ s ∈ c.slabs ∧ c.loose ≠ some s ∧ (c.view s).status = l
  loose : ∀ s, c.loose = some s → s ∈ c.slabs ∧ (c.view s).live = []

section Nodes
variable {m m' : Memory} {kc s t x : ℕ} {c : Cache} {slabs : List ℕ}

theorem cacheList_eq (h : kc + 36 ≤ 2 ^ 32) (l : CacheList) : cacheList kc l = kc + l.offset := by
  cases l <;> exact u32_of_lt (by simp only [CacheList.offset]; omega)

theorem cacheList_bounds (h : kc + 36 ≤ 2 ^ 32) (l : CacheList) :
    kc ≤ cacheList kc l ∧ cacheList kc l + 12 ≤ kc + 36 := by
  rw [cacheList_eq h]
  cases l <;> simp only [CacheList.offset] <;> omega

theorem Placed.apart (hs : Placed kc s) (ht : Placed kc t) (hst : s ≠ t) :
    s + 4096 ≤ t ∨ t + 4096 ≤ s := by
  have := hs.aligned
  have := ht.aligned
  omega

theorem slabHead_eq (hs : Placed kc s) : Slab.head s = s + 16 := by
  have := hs.fits
  exact u32_of_lt (by omega)

theorem ofHead_eq (hs : Placed kc s) : Slab.ofHead (s + 16) = s := by
  have := hs.fits
  unfold Slab.ofHead u32
  omega

theorem spaced_cacheNodes (h : kc + 36 ≤ 2 ^ 32) (hp : ∀ s ∈ slabs, Placed kc s) :
    Spaced (cacheNodes kc slabs) := by
  rintro x (⟨l, rfl⟩ | ⟨s, hs, rfl⟩)
  · have hl := cacheList_bounds h l
    refine ⟨by omega, ?_⟩
    rintro y (⟨k, rfl⟩ | ⟨t, ht, rfl⟩) hne
    · rw [cacheList_eq h, cacheList_eq h] at *
      cases l <;> cases k <;> simp only [CacheList.offset] at * <;> omega
    · have := (hp t ht).above
      omega
  · have hsp := hp s hs
    have := hsp.fits
    have := hsp.above
    refine ⟨by omega, ?_⟩
    rintro y (⟨k, rfl⟩ | ⟨t, ht, rfl⟩) hne
    · have hk := cacheList_bounds h k
      omega
    · have := hsp.apart (hp t ht) (by omega)
      omega

theorem CacheInv.spaced (hc : CacheInv m kc c) : Spaced (cacheNodes kc c.slabs) :=
  spaced_cacheNodes hc.fits hc.placed

theorem CacheInv.nodesIn (hc : CacheInv m kc c) :
    NodesIn (cacheNodes kc c.slabs) (cacheList kc) (listNodes c) := by
  intro l x hx
  rcases List.mem_cons.mp hx with rfl | hx
  · exact .inl ⟨l, rfl⟩
  · obtain ⟨s, hs, rfl⟩ := List.mem_map.mp hx
    exact .inr ⟨s, ((hc.listed l s).mp hs).1, rfl⟩

/-- The bytes a slab depends on are none of the links. -/
theorem slabBytes_links (h : kc + 36 ≤ 2 ^ 32) (hp : ∀ s ∈ slabs, Placed kc s) (hs : s ∈ slabs)
    {size : ℕ} (hx : x ∈ slabBytes s size) : x ∉ linkBytes (cacheNodes kc slabs) := by
  have hb := mem_slabBytes_bounds hx
  have hsp := hp s hs
  rintro ⟨n, ⟨l, rfl⟩ | ⟨t, ht, rfl⟩, hn, hn'⟩
  · have := cacheList_bounds h l
    have := hsp.above
    omega
  · by_cases hst : s = t
    · subst hst
      omega
    · have := hsp.apart (hp t ht) hst
      omega

theorem mutableBytes_links (h : kc + 36 ≤ 2 ^ 32) (hp : ∀ s ∈ slabs, Placed kc s) (hs : s ∈ slabs)
    {size : ℕ} (hx : x ∈ mutableBytes s size) : x ∉ linkBytes (cacheNodes kc slabs) := by
  obtain ⟨w, hw, hwx, hxw⟩ := hx
  exact slabBytes_links h hp hs (.inr ⟨w, .inr hw, hwx, hxw⟩)

def cacheBytes (kc : ℕ) (slabs : List ℕ) : Set ℕ :=
  {x | (kc ≤ x ∧ x < kc + 36) ∨ ∃ s ∈ slabs, x ∈ pageBytes s}

theorem linkBytes_subset (h : kc + 36 ≤ 2 ^ 32) :
    linkBytes (cacheNodes kc slabs) ⊆ cacheBytes kc slabs := by
  rintro x ⟨n, ⟨l, rfl⟩ | ⟨s, hs, rfl⟩, hn, hn'⟩
  · have := cacheList_bounds h l
    exact .inl ⟨by omega, by omega⟩
  · exact .inr ⟨s, hs, by omega, by omega⟩

theorem mutableBytes_subset (hs : s ∈ slabs) {size : ℕ} :
    mutableBytes s size ⊆ cacheBytes kc slabs := by
  intro x hx
  have := mem_mutableBytes_bounds hx
  exact .inr ⟨s, hs, by omega, by omega⟩

theorem CacheInv.slab_touches (hc : CacheInv m kc c)
    (ht : Touches (2 ^ 32) (linkBytes (cacheNodes kc c.slabs)) m m') (hs : s ∈ c.slabs) :
    SlabAt m' s (c.view s).size (c.view s).pinned (c.view s).live.length (c.view s).chain :=
  (hc.slab s hs).touches (hc.placed s hs).fits ht fun _ hx hxs =>
    slabBytes_links hc.fits hc.placed hs hxs hx

theorem mem_listNodes (l : CacheList) : s + 16 ∈ listNodes c l ↔ s ∈ c.lists l := by
  simp [listNodes]

theorem listNodes_erase (l : CacheList) :
    (listNodes c l).erase (s + 16) = ((c.lists l).erase s).map (· + 16) :=
  (List.map_erase (fun _ _ h => by omega) (c.lists l)).symm

theorem head_ne (h : kc + 36 ≤ 2 ^ 32) (hs : Placed kc s) (l : CacheList) :
    s + 16 ≠ cacheList kc l := by
  have := cacheList_bounds h l
  have := hs.above
  omega

end Nodes

namespace Cache
variable (c : Cache)

def setView (s : ℕ) (v : SlabState) : Cache := { c with view := Function.update c.view s v }

def toTail (l : CacheList) (s : ℕ) : Cache :=
  { c with lists := fun k => if k = l then (c.lists k).erase s ++ [s] else (c.lists k).erase s }

def toHead (l : CacheList) (s : ℕ) : Cache :=
  { c with lists := fun k => if k = l then s :: (c.lists k).erase s else (c.lists k).erase s }

def add (s : ℕ) (v : SlabState) : Cache where
  slabs := s :: c.slabs
  view := Function.update c.view s v
  lists := Function.update c.lists .free (c.lists .free ++ [s])
  loose := c.loose

def unlink (s : ℕ) : Cache := { c with lists := fun k => (c.lists k).erase s, loose := some s }

def drop (s : ℕ) : Cache := { c with slabs := c.slabs.erase s, loose := none }

end Cache

section Changes
variable {m m₁ : Memory} {kc s : ℕ} {c : Cache} {v : SlabState} {l k : CacheList}

theorem listNodes_toTail : listNodes (c.toTail l s) =
    Function.update (fun k => (listNodes c k).erase (s + 16)) l
      ((listNodes c l).erase (s + 16) ++ [s + 16]) := by
  funext k
  by_cases hk : k = l
  · subst hk
    simp [listNodes, Cache.toTail, ← listNodes_erase]
  · simp [listNodes, Cache.toTail, hk, ← listNodes_erase]

theorem listNodes_toHead : listNodes (c.toHead l s) =
    Function.update (fun k => (listNodes c k).erase (s + 16)) l
      ((s + 16) :: (listNodes c l).erase (s + 16)) := by
  funext k
  by_cases hk : k = l
  · subst hk
    simp [listNodes, Cache.toHead, ← listNodes_erase]
  · simp [listNodes, Cache.toHead, hk, ← listNodes_erase]

theorem nodesIn_erase {S : Set ℕ} {n : ℕ} (hin : NodesIn S (cacheList kc) (listNodes c)) :
    NodesIn S (cacheList kc) fun k => (listNodes c k).erase n := by
  intro k x hx
  rcases List.mem_cons.mp hx with e | e
  · exact hin k x (List.mem_cons.mpr (.inl e))
  · exact hin k x (List.mem_cons_of_mem _ (List.mem_of_mem_erase e))

theorem notMem_erase (hf : kc + 36 ≤ 2 ^ 32) (hp : Placed kc s)
    (hr : Rings (linksOf m) (cacheList kc) (listNodes c)) (k : CacheList) :
    s + 16 ∉ cacheList kc k :: (listNodes c k).erase (s + 16) := by
  have hnd := (List.nodup_cons.mp (hr.carries k).nodup).2
  rw [List.mem_cons, not_or]
  exact ⟨head_ne hf hp k, hnd.not_mem_erase⟩

variable (hf : kc + 36 ≤ 2 ^ 32) (hp : ∀ t ∈ c.slabs, Placed kc t) (hs : s ∈ c.slabs)
  (hr : Rings (linksOf m) (cacheList kc) (listNodes c))
  (hin : NodesIn (cacheNodes kc c.slabs) (cacheList kc) (listNodes c)) (hk : s ∈ c.lists k)
include hf hp hs hr hin hk

theorem rings_moveToTail (l : CacheList) :
    Rings (linksOf (moveToTail kc l s m)) (cacheList kc) (listNodes (c.toTail l s)) ∧
      Touches (2 ^ 32) (linkBytes (cacheNodes kc c.slabs)) m (moveToTail kc l s m) := by
  have hS := spaced_cacheNodes hf hp
  obtain ⟨hr₁, ht₁⟩ := Lib.rings_listRemove hS hr hin ((mem_listNodes k).mpr hk)
  obtain ⟨hr₂, ht₂⟩ := Lib.rings_listAddTail hS hr₁ (nodesIn_erase hin) l (n := s + 16)
    (.inr ⟨s, hs, rfl⟩) (notMem_erase hf (hp s hs) hr)
  rw [moveToTail, slabHead_eq (hp s hs), listNodes_toTail]
  exact ⟨hr₂, ht₁.trans ht₂⟩

theorem rings_moveToHead (l : CacheList) :
    Rings (linksOf (moveToHead kc l s m)) (cacheList kc) (listNodes (c.toHead l s)) ∧
      Touches (2 ^ 32) (linkBytes (cacheNodes kc c.slabs)) m (moveToHead kc l s m) := by
  have hS := spaced_cacheNodes hf hp
  obtain ⟨hr₁, ht₁⟩ := Lib.rings_listRemove hS hr hin ((mem_listNodes k).mpr hk)
  obtain ⟨hr₂, ht₂⟩ := Lib.rings_listAddHead hS hr₁ (nodesIn_erase hin) l (n := s + 16)
    (.inr ⟨s, hs, rfl⟩) (notMem_erase hf (hp s hs) hr)
  rw [moveToHead, slabHead_eq (hp s hs), listNodes_toHead]
  exact ⟨hr₂, ht₁.trans ht₂⟩

end Changes

section Updates
variable {m m₁ : Memory} {kc s : ℕ} {c : Cache} {v : SlabState}

theorem CacheInv.nodup_list (hc : CacheInv m kc c) (l : CacheList) : (c.lists l).Nodup :=
  List.Nodup.of_map _ (List.nodup_cons.mp (hc.rings.carries l).nodup).2

theorem CacheInv.mem_own (hc : CacheInv m kc c) (hs : s ∈ c.slabs) (hl : c.loose ≠ some s) :
    s ∈ c.lists (c.view s).status := (hc.listed _ s).mpr ⟨hs, hl, rfl⟩

theorem CacheInv.slab_setView (hc : CacheInv m kc c) (hs : s ∈ c.slabs)
    (ht : Touches (2 ^ 32) (mutableBytes s (c.view s).size) m m₁)
    (hm : SlabAt m₁ s v.size v.pinned v.live.length v.chain) : ∀ t ∈ c.slabs,
    SlabAt m₁ t ((c.setView s v).view t).size ((c.setView s v).view t).pinned
      ((c.setView s v).view t).live.length ((c.setView s v).view t).chain := by
  intro t hts
  by_cases hst : t = s
  · subst hst
    simpa [Cache.setView] using hm
  · simp only [Cache.setView, Function.update_of_ne hst]
    refine (hc.slab t hts).touches (hc.placed t hts).fits ht fun x hx hxt => ?_
    have := mem_mutableBytes_bounds hx
    have := mem_slabBytes_bounds hxt
    have := (hc.placed s hs).apart (hc.placed t hts) (Ne.symm hst)
    omega

theorem CacheInv.rings_mutable (hc : CacheInv m kc c) (hs : s ∈ c.slabs) {size : ℕ}
    (ht : Touches (2 ^ 32) (mutableBytes s size) m m₁) :
    Rings (linksOf m₁) (cacheList kc) (listNodes c) :=
  rings_touches hc.spaced hc.rings hc.nodesIn ht fun _ hx =>
    mutableBytes_links hc.fits hc.placed hs hx

theorem CacheInv.loose_setView (hc : CacheInv m kc c) (hl : c.loose ≠ some s) (t : ℕ)
    (ht : c.loose = some t) : t ∈ c.slabs ∧ (Function.update c.view s v t).live = [] := by
  have hts : t ≠ s := fun e => hl (e ▸ ht)
  rw [Function.update_of_ne hts]
  exact hc.loose t ht

theorem CacheInv.setView (hc : CacheInv m kc c) (hs : s ∈ c.slabs) (hl : c.loose ≠ some s)
    (hst : v.status = (c.view s).status)
    (ht : Touches (2 ^ 32) (mutableBytes s (c.view s).size) m m₁)
    (hm : SlabAt m₁ s v.size v.pinned v.live.length v.chain) :
    CacheInv m₁ kc (c.setView s v) := by
  refine ⟨hc.fits, hc.placed, hc.nodup, hc.slab_setView hs ht hm, hc.rings_mutable hs ht, ?_,
    hc.loose_setView hl⟩
  intro l t
  rw [Cache.setView, hc.listed l t]
  by_cases hts : t = s
  · subst hts
    simp [hst]
  · simp [Function.update_of_ne hts]

theorem listed_move {lists : CacheList → List ℕ} (hc : CacheInv m kc c)
    (hs : s ∈ c.slabs) (hl : c.loose ≠ some s)
    (hmem : ∀ l t, t ∈ lists l ↔ t ∈ (c.lists l).erase s ∨ t = s ∧ l = v.status) (l : CacheList)
    (t : ℕ) : t ∈ lists l ↔
      t ∈ c.slabs ∧ c.loose ≠ some t ∧ (Function.update c.view s v t).status = l := by
  rw [hmem, (hc.nodup_list l).mem_erase_iff, hc.listed l t]
  by_cases hts : t = s
  · subst hts
    simp [hs, hl, eq_comm]
  · simp [hts]

theorem CacheInv.toTail (hc : CacheInv m kc c) (hs : s ∈ c.slabs) (hl : c.loose ≠ some s)
    (ht : Touches (2 ^ 32) (mutableBytes s (c.view s).size) m m₁)
    (hm : SlabAt m₁ s v.size v.pinned v.live.length v.chain) :
    CacheInv (moveToTail kc v.status s m₁) kc ((c.setView s v).toTail v.status s) := by
  obtain ⟨hr, htl⟩ := rings_moveToTail hc.fits hc.placed hs (hc.rings_mutable hs ht) hc.nodesIn
    (hc.mem_own hs hl) v.status
  refine ⟨hc.fits, hc.placed, hc.nodup, fun t hts => ?_, hr, ?_, hc.loose_setView hl⟩
  · exact (hc.slab_setView hs ht hm t hts).touches (hc.placed t hts).fits htl fun x hx hxt =>
      slabBytes_links hc.fits hc.placed hts hxt hx
  · refine listed_move hc hs hl fun l t => ?_
    by_cases hlv : l = v.status <;> simp [Cache.toTail, Cache.setView, hlv]

theorem CacheInv.touches_toTail (hc : CacheInv m kc c) (hs : s ∈ c.slabs) (hl : c.loose ≠ some s)
    {size : ℕ} (ht : Touches (2 ^ 32) (mutableBytes s size) m m₁) (l : CacheList) :
    Touches (2 ^ 32) (cacheBytes kc c.slabs) m (moveToTail kc l s m₁) := by
  obtain ⟨-, htl⟩ := rings_moveToTail hc.fits hc.placed hs (hc.rings_mutable hs ht) hc.nodesIn
    (hc.mem_own hs hl) l
  exact (ht.mono (mutableBytes_subset hs)).trans (htl.mono (linkBytes_subset hc.fits))

theorem CacheInv.toHead (hc : CacheInv m kc c) (hs : s ∈ c.slabs) (hl : c.loose ≠ some s)
    (ht : Touches (2 ^ 32) (mutableBytes s (c.view s).size) m m₁)
    (hm : SlabAt m₁ s v.size v.pinned v.live.length v.chain) :
    CacheInv (moveToHead kc v.status s m₁) kc ((c.setView s v).toHead v.status s) := by
  obtain ⟨hr, htl⟩ := rings_moveToHead hc.fits hc.placed hs (hc.rings_mutable hs ht) hc.nodesIn
    (hc.mem_own hs hl) v.status
  refine ⟨hc.fits, hc.placed, hc.nodup, fun t hts => ?_, hr, ?_, hc.loose_setView hl⟩
  · exact (hc.slab_setView hs ht hm t hts).touches (hc.placed t hts).fits htl fun x hx hxt =>
      slabBytes_links hc.fits hc.placed hts hxt hx
  · refine listed_move hc hs hl fun l t => ?_
    by_cases hlv : l = v.status <;> simp [Cache.toHead, Cache.setView, hlv, or_comm]

end Updates

end X86Osdev.Mem

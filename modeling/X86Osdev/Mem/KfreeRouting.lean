import X86Osdev.Mem.HeapRuns
import Mathlib.Tactic.Linarith

/-! Which allocator `kfree` gives a live region back to. It trusts the eight bytes in front of the
address, and in front of a block of pages these belong to whoever holds the page before. -/

namespace X86Osdev.Mem
open X86Osdev.Lib ByteMemory DyadicTiling

def FreesBlock (σ : Sys) (r : Region) : Prop :=
  ∃ h' z', kfree r.ptr σ.heap = .ok () h' ∧
    freeBuddyNew (pageOf r.ptr) σ.heap.kernelBuddyNew = .ok () z' ∧
    h'.kernelBuddyNew = z' ∧ h'.mem = σ.heap.mem

structure SlabReads (m : Memory) (s alloc : ℕ) (chain : List ℕ) : Prop where
  alloc_eq : Slab.alloc m s = alloc
  chain_eq : FreeChain m s (Slab.size m s) (Slab.firstFree m s) chain

/-- `kfree` puts the chunk of `r` in front of the free chunks of its own slab and leaves the other
slabs and the zone as they are. -/
def ReturnsChunk (σ : Sys) (r : Region) : Prop :=
  ∃ h', kfree r.ptr σ.heap = .ok () h' ∧ h'.kernelBuddyNew = σ.heap.kernelBuddyNew ∧
    ∃ s ∈ σ.slabs, ∃ i, r.ptr = bufAt s (Slab.size σ.heap.mem s) i + 8 ∧
      (∃ alloc chain, SlabReads σ.heap.mem s (alloc + 1) chain ∧
        SlabReads h'.mem s alloc (i :: chain)) ∧
      ∀ t ∈ σ.slabs, t ≠ s → ∃ alloc chain, SlabReads σ.heap.mem t alloc chain ∧
        SlabReads h'.mem t alloc chain

/-- `r` goes back to the allocator that issued it. -/
def RoutedBack (σ : Sys) (r : Region) : Prop :=
  match r.kind with
  | .object => ReturnsChunk σ r
  | .block _ => FreesBlock σ r

section Routing
variable {L : Layout} {c : Cache} {σ : Sys} {r : Region} {s i order : ℕ}

theorem CacheInv.slabReads {m : Memory} {kc : ℕ} (hc : CacheInv m kc c) (hs : s ∈ c.slabs) :
    SlabReads m s (c.view s).live.length (c.view s).chain := by
  have hm := hc.slab s hs
  refine ⟨hm.alloc_eq, ?_⟩
  rw [hm.fixed.size_eq]
  exact hm.free

theorem SysInv.returnsChunk (hi : SysInv L c σ) (hr : r ∈ σ.live) (hk : r.kind = .object) :
    ReturnsChunk σ r := by
  obtain ⟨hh, hl, hs⟩ := hi
  obtain ⟨s, hsm, i, hil, hptr, -⟩ := hl.object r hr hk
  obtain ⟨m', hok, hh'⟩ := hh.sfree hsm hil
  rw [← hptr] at hok
  have hreads := fun {t : ℕ} (ht : t ∈ c.slabs) =>
    hh'.cache.slabReads (s := t) (by rw [Cache.slabs_gave]; exact ht)
  refine ⟨{ σ.heap with mem := m' }, ?_, rfl, s, hs ▸ hsm, i, ?_,
    ⟨(c.view s).live.length - 1, (c.view s).chain, ?_, ?_⟩, fun t ht hts =>
    ⟨_, _, hh.cache.slabReads (hs ▸ ht), ?_⟩⟩
  · rw [kfree, hok, Outcome.bind_ok, if_pos rfl]
  · rw [(hh.cache.slab s hsm).fixed.size_eq]
    exact hptr
  · have hpos : (c.view s).live.length = (c.view s).live.length - 1 + 1 := by
      have := List.length_pos_of_mem hil
      omega
    exact hpos ▸ hh.cache.slabReads hsm
  · have hr' := hreads hsm
    rw [Cache.view_gave, Function.update_self] at hr'
    rw [← List.length_erase_of_mem hil]
    exact hr'
  · have hr' := hreads (hs ▸ ht)
    rwa [Cache.view_gave, Function.update_of_ne hts] at hr'

theorem RunInv.not_released {n p : ℕ} {z : BuddyMemDesc} {handed : List ℕ}
    (hi : RunInv n 0 z handed) (hp : p ∈ handed) : ¬ RunInv n 0 z (handed.erase p) := by
  rintro ⟨⟨fl', hz'⟩, -, -, -⟩
  obtain ⟨⟨fl, hz⟩, hnd, -, -⟩ := hi
  have hpf : p ∈ handed.toFinset := List.mem_toFinset.mpr hp
  obtain ⟨q, hq, hpq⟩ := hz'.tiling.cover p (hz.handed_lt hpf)
  have hne : q ≠ p := by
    rintro rfl
    rcases hq with hq | hq
    · exact Set.disjoint_left.mp hz.disjoint hq hpf
    · exact hnd.not_mem_erase (List.mem_toFinset.mp hq)
  have hq' : q ∈ freeHeads z ∪ ↑handed.toFinset := by
    rcases hq with hq | hq
    · exact .inl hq
    · exact .inr (List.mem_toFinset.mpr (List.mem_of_mem_erase (List.mem_toFinset.mp hq)))
  have hself : p ∈ span p (orderOf z p) := by
    rw [mem_span]
    exact ⟨le_rfl, Nat.lt_add_of_pos_right (by positivity)⟩
  exact Set.disjoint_left.mp (hz.tiling.disjoint q hq' p (.inr hpf) hne) hpq hself

theorem SysInv.freesBlock_iff (hi : SysInv L c σ) (hr : r ∈ σ.live) (hk : r.kind = .block order) :
    FreesBlock σ r ↔ ¬ LooksLikeBuf σ.heap.mem r.ptr := by
  have hlock := hi.heap.unlocked .slabLock
  constructor
  · rintro ⟨h', z', hfree, hbuddy, hz, -⟩ hlooks
    -- the chunk test succeeds, so the zone is not even looked at
    obtain ⟨m', hok⟩ := sfree_accepted hlock hlooks
    rw [kfree, hok, Outcome.bind_ok, if_pos rfl] at hfree
    obtain ⟨-, rfl⟩ := Outcome.ok.inj hfree
    change σ.heap.kernelBuddyNew = z' at hz
    have hm := HeapInv.page_mem (L := L) (c := c) (mem_blockPages hr hk)
    obtain ⟨z'', -, hbuddy', -, -, hrun, -⟩ :=
      kfreePage_spec hi.heap.zone hi.heap.small (hi.heap.unlocked _) hm
    obtain ⟨-, rfl⟩ := Outcome.ok.inj (hbuddy.symm.trans hbuddy')
    rw [← hz] at hrun
    exact hi.heap.zone.not_released hm hrun
  · intro hlooks
    obtain ⟨z', h', hbuddy, hok, hz, hmem, -⟩ := hi.kfreePage hr hk
    refine ⟨h', z', ?_, hbuddy, hz, hmem⟩
    rw [kfree, sfree_rejected hlock hlooks, Outcome.bind_ok, if_neg (by decide)]
    exact hok

end Routing

/-- Objects always go back to their slab. A block goes back to the zone exactly when the eight bytes
in front of it do not pass for the header of a chunk. -/
theorem kfree_routes_back {totalPages : ℕ} {σ : Sys} (h : HeapReach totalPages σ) {r : Region}
    (hr : r ∈ σ.live) :
    RoutedBack σ r ↔ r.kind = .object ∨ ¬ LooksLikeBuf σ.heap.mem r.ptr := by
  obtain ⟨L, c, hi, -⟩ := h.sysInv
  unfold RoutedBack
  cases hk : r.kind with
  | object => exact ⟨fun _ => .inl rfl, fun _ => hi.returnsChunk hr hk⟩
  | block order =>
    rw [or_iff_right (by simp)]
    exact hi.freesBlock_iff hr hk

section Forged
variable {L : Layout} {c : Cache} {σ : Sys} {ps : List ℕ} {objects : List Region} {p k a v : ℕ}

def SysInv.used (L : Layout) (c : Cache) (σ : Sys) : ℕ :=
  pagesUsed σ.heap.kernelBuddyNew (handedPages L c (blockPages σ.live))

def pageRegion (p : ℕ) : Region := ⟨pageAddr p, 4096, .block 0⟩

/-- While a page is free, `kmalloc(4096)` finds one. -/
theorem SysInv.kmalloc_page (hi : SysInv L c σ) (hroom : SysInv.used L c σ < L.numPages) :
    ∃ p σ', HeapStep σ σ' ∧ SysInv L c σ' ∧ σ'.live = pageRegion p :: σ.live ∧
      SysInv.used L c σ' = SysInv.used L c σ + 1 := by
  have hcall : kmalloc 4096 σ.heap = Mem.kallocPage 0 σ.heap := rfl
  have hlock := hi.heap.unlocked .kmemLock
  rcases kallocPage_spec hi.heap.zone hi.heap.small hlock (Nat.zero_le maxOrder) with
    ⟨p, h', hok, hrun, hpo, hord, hs⟩ | ⟨h', hpanic⟩
  · have hg : Grew L.numPages 1 σ.heap h' (handedPages L c (blockPages σ.live))
        (p :: handedPages L c (blockPages σ.live)) :=
      ⟨hrun, ⟨[p], rfl, rfl, fun q hq => by rw [List.mem_singleton.mp hq, hpo]⟩, hord, hs.mem,
        hs.kMemCache, hs.fast, fun l hl => by rw [hs.locks]; exact hl⟩
    have hinv := hi.addBlock (hi.heap.addPage hrun hpo hord hs) (leastOrder_block 0)
    refine ⟨p, _, .kmallocLarge (by decide) (by decide) (hcall.trans hok), hinv, rfl, ?_⟩
    refine Eq.trans ?_ hg.used
    change pagesUsed h'.kernelBuddyNew (handedPages L c (blockPages (pageRegion p :: σ.live))) = _
    rw [@blockPages_block _ _ 0 rfl]
    have hperm := handedPages_cons L c (blockPages σ.live) (pageOf (pageAddr p), 0)
    refine (pagesUsed_perm hperm).symm.trans ?_
    rw [pageOf_pageAddr]
  · rw [Mem.kallocPage, getLock_free hlock, Outcome.bind_ok] at hpanic
    set h₁ : Heap := { σ.heap with locks := Function.update σ.heap.locks .kmemLock true }
    have hrun : RunInv L.numPages 0 h₁.kernelBuddyNew (handedPages L c (blockPages σ.live)) :=
      hi.heap.zone
    rcases kallocNosleep_single hrun hi.heap.small with ⟨q, h'', hok, -⟩ | ⟨-, hfull⟩
    · rw [hok] at hpanic
      cases hpanic
    · exact absurd hfull (not_le.mpr hroom)

theorem SysInv.kmalloc_pages (hi : SysInv L c σ) (hroom : SysInv.used L c σ + k ≤ L.numPages) :
    ∃ (ps : List ℕ) (σ' : Sys), Relation.ReflTransGen HeapStep σ σ' ∧ SysInv L c σ' ∧
      ps.length = k ∧
      σ'.live = ps.map pageRegion ++ σ.live ∧ SysInv.used L c σ' = SysInv.used L c σ + k := by
  induction k with
  | zero => exact ⟨[], σ, .refl, hi, rfl, rfl, rfl⟩
  | succ k ih =>
    obtain ⟨ps, σ₁, hrun, hi₁, hlen, hlive, hused⟩ := ih (by omega)
    obtain ⟨p, σ₂, hstep, hi₂, hlive₂, hused₂⟩ := hi₁.kmalloc_page (by omega)
    refine ⟨p :: ps, σ₂, hrun.tail hstep, hi₂, by rw [List.length_cons, hlen], ?_, by omega⟩
    rw [hlive₂, hlive]
    rfl

theorem SysInv.write_word (hi : SysInv L c σ) (ha : ∀ k < 4, ClientByte σ (a + k)) :
    Relation.ReflTransGen HeapStep σ (σ.setHeap { σ.heap with mem := store32 σ.heap.mem a v }) ∧
      SysInv L c (σ.setHeap { σ.heap with mem := store32 σ.heap.mem a v }) := by
  have hstep : ∀ (b w : ℕ) (m : Memory), ClientByte σ b →
      Relation.ReflTransGen HeapStep σ (σ.setHeap { σ.heap with mem := m }) ∧
        SysInv L c (σ.setHeap { σ.heap with mem := m }) →
      Relation.ReflTransGen HeapStep σ (σ.setHeap { σ.heap with mem := store8 m b w }) ∧
        SysInv L c (σ.setHeap { σ.heap with mem := store8 m b w }) := by
    rintro b w m hb ⟨hrun, hinv⟩
    have hb' : ClientByte (σ.setHeap { σ.heap with mem := m }) b := hb
    exact ⟨hrun.tail (.write hb'), hinv.write hb'⟩
  have h₀ : Relation.ReflTransGen HeapStep σ (σ.setHeap { σ.heap with mem := σ.heap.mem }) ∧
      SysInv L c (σ.setHeap { σ.heap with mem := σ.heap.mem }) := ⟨.refl, hi⟩
  have h₁ := hstep a v _ (ha 0 (by decide)) h₀
  have h₂ := hstep (a + 1) (v / 256) _ (ha 1 (by decide)) h₁
  have h₃ := hstep (a + 1 + 1) (v / 256 / 256) _ (ha 2 (by decide)) h₂
  exact hstep (a + 1 + 1 + 1) (v / 256 / 256 / 256) _ (ha 3 (by decide)) h₃

def kernelPages (L : Layout) (c : Cache) : List ℕ := L.reserved ++ c.slabs.map pageOf

theorem mem_block_of_page {q r o x : ℕ} (hq : q ∈ span r o)
    (hx : x ∈ Set.Ico (pageAddr q) (pageAddr q + 4096)) :
    x ∈ Set.Ico (pageAddr r) (pageAddr r + 4096 * 2 ^ o) := by
  obtain ⟨hlo, hhi⟩ := hx
  rw [mem_span] at hq
  have hle : r * 4096 ≤ q * 4096 := Nat.mul_le_mul_right _ hq.1
  have hlt : (q + 1) * 4096 ≤ (r + 2 ^ o) * 4096 := Nat.mul_le_mul_right _ hq.2
  rw [pageAddr_eq] at hlo hhi
  rw [pageAddr_eq, Set.mem_Ico]
  exact ⟨(Nat.add_le_add_left hle _).trans hlo, by linarith⟩

theorem SysInv.client_of_page (hi : SysInv L c σ) {q : ℕ} (hq : q < L.numPages)
    (hk : ∀ r ∈ kernelPages L c, q ∉ span r (orderOf σ.heap.kernelBuddyNew r))
    (hfull : ∀ r ∈ σ.live, ∀ order, r.kind = .block order → r.bytes = 4096 * 2 ^ order) {x : ℕ}
    (hx : x ∈ Set.Ico (pageAddr q) (pageAddr q + 4096)) : ClientByte σ x := by
  obtain ⟨⟨fl, hz⟩, -, ht, -⟩ := hi.heap.zone
  obtain ⟨r, hr, hqr⟩ := hz.tiling.cover q (by rw [ht]; exact hq)
  have hblock := mem_block_of_page hqr hx
  rcases hr with hr | hr
  · have hle := hz.order_le r hr.1
    refine .inr ⟨_, hle, r, ?_, hblock⟩
    rw [freeListOf_eq hz hle]
    exact (hz.listed _ hle r).mpr ⟨hr.1, hr.2, rfl⟩
  · have hm := List.mem_toFinset.mp hr
    rw [handedPages, ← List.append_assoc, List.mem_append] at hm
    rcases hm with hm | hm
    · exact absurd hqr (hk r hm)
    · obtain ⟨b, hb, rfl⟩ := List.mem_map.mp hm
      obtain ⟨region, hmem, hkind⟩ := List.mem_filterMap.mp hb
      cases hk' : region.kind with
      | object =>
        rw [hk'] at hkind
        cases hkind
      | block order =>
        rw [hk'] at hkind
        obtain rfl := Option.some.inj hkind
        obtain ⟨hptr, -⟩ := hi.live.block region hmem order hk'
        refine .inl ⟨region, hmem, ?_⟩
        have hord := hi.heap.page_order _ hb
        simp only at hord hblock
        rw [hord, ← hptr, ← hfull region hmem order hk'] at hblock
        exact hblock

/-- The kernel and the slabs use 27 pages above `first`, so they cannot lie in front of all of 29
pages. -/
theorem SysInv.exists_page_after_client (hi : SysInv L c σ)
    (hblocks : blockPages σ.live = ps.map fun p => (p, 0)) (hlen : ps.length = 29)
    (hused : SysInv.used L c σ = L.first + 27 + 29) :
    ∃ p ∈ ps, L.first < p ∧
      ∀ r ∈ kernelPages L c, p - 1 ∉ span r (orderOf σ.heap.kernelBuddyNew r) := by
  set z := σ.heap.kernelBuddyNew with hz
  have hfst : (blockPages σ.live).map Prod.fst = ps := by
    rw [hblocks, List.map_map]
    exact List.map_id _
  have hbmem : ∀ p ∈ ps, (p, 0) ∈ blockPages σ.live := fun p hp =>
    hblocks ▸ List.mem_map_of_mem hp
  have hord : ∀ p ∈ ps, orderOf z p = 0 := fun p hp => hi.heap.page_order _ (hbmem p hp)
  have hkernel : pagesUsed z (kernelPages L c) = L.first + 27 := by
    have hps : (ps.map fun p => 2 ^ orderOf z p) = List.replicate 29 1 := by
      rw [List.eq_replicate_iff, List.length_map]
      refine ⟨hlen, fun b hb => ?_⟩
      obtain ⟨p, hp, rfl⟩ := List.mem_map.mp hb
      rw [hord p hp, pow_zero]
    have hsplit : pagesUsed z (handedPages L c (blockPages σ.live)) =
        pagesUsed z (kernelPages L c) + 29 := by
      rw [handedPages, hfst, ← List.append_assoc, pagesUsed, List.map_append, List.sum_append, hps]
      rfl
    rw [SysInv.used, hsplit] at hused
    omega
  have hfirst : ∀ p ∈ ps, L.first ≤ p := by
    intro p hp
    obtain ⟨hres, hslab⟩ := hi.heap.page_separate (hbmem p hp)
    refine (hi.heap.client_page (.inr (List.mem_toFinset.mpr (HeapInv.page_mem (hbmem p hp))))
      hres hslab ?_).1
    rw [mem_span]
    exact ⟨le_rfl, Nat.lt_add_of_pos_right (by positivity)⟩
  have hnd : ps.Nodup := by
    obtain ⟨-, hnd, -⟩ := List.nodup_append'.mp hi.heap.zone.nodup
    exact hfst ▸ (List.nodup_append'.mp hnd).2.1
  -- otherwise 28 pages in front of clients' pages are the kernel's, and it has only 27 above `first`
  by_contra hnone
  push Not at hnone
  let after := ps.toFinset.erase L.first
  have hafter : ∀ p ∈ after, L.first < p ∧ p ∈ ps := by
    intro p hp
    obtain ⟨hne, hp⟩ := Finset.mem_erase.mp hp
    have hp := List.mem_toFinset.mp hp
    exact ⟨lt_of_le_of_ne (hfirst p hp) (Ne.symm hne), hp⟩
  have hcard : 28 ≤ (after.image (· - 1)).card := by
    rw [Finset.card_image_of_injOn]
    · have := Finset.pred_card_le_card_erase (s := ps.toFinset) (a := L.first)
      rw [List.toFinset_card_of_nodup hnd, hlen] at this
      exact this
    · intro p hp q hq hpq
      have hp := (hafter p hp).1
      have hq := (hafter q hq).1
      simp only at hpq
      omega
  have hdis : Disjoint (Finset.range L.first) (after.image (· - 1)) := by
    rw [Finset.disjoint_left]
    intro x hx hx'
    obtain ⟨p, hp, rfl⟩ := Finset.mem_image.mp hx'
    have hlt := Finset.mem_range.mp hx
    have hp := (hafter p hp).1
    omega
  have hcover : ∀ x ∈ Finset.range L.first ∪ after.image (· - 1),
      ∃ r ∈ kernelPages L c, x ∈ span r (orderOf z r) := by
    intro x hx
    rcases Finset.mem_union.mp hx with hx | hx
    · obtain ⟨r, hr, hxr⟩ := hi.heap.low x (Finset.mem_range.mp hx)
      exact ⟨r, List.mem_append_left _ hr, hxr⟩
    · obtain ⟨p, hp, rfl⟩ := Finset.mem_image.mp hx
      exact hnone p (hafter p hp).2 (hafter p hp).1
  have hle := card_le_pagesUsed hcover
  rw [Finset.card_union_of_disjoint hdis, Finset.card_range, hkernel] at hle
  omega

theorem blockPages_pageRegion (hobj : blockPages objects = []) :
    blockPages (ps.map pageRegion ++ objects) = ps.map fun p => (p, 0) := by
  induction ps with
  | nil => exact hobj
  | cons p ps ih =>
    rw [List.map_cons, List.cons_append, @blockPages_block _ _ 0 rfl, ih, List.map_cons,
      pageRegion, pageOf_pageAddr]

/-- A word that names a slab with live objects passes for the header of a chunk. -/
theorem SysInv.looksLikeBuf (hi : SysInv L c σ) {s b : ℕ} (hs : s ∈ c.slabs)
    (hlive : (c.view s).live ≠ []) (hb : kernelVirtualAddressBase ≤ b) (hb' : b + 8 < 2 ^ 32)
    (hword : load32 σ.heap.mem b = s) : LooksLikeBuf σ.heap.mem (b + 8) := by
  have hbuf : u32 (b + 8 + (2 ^ 32 - sizeofBuf)) = b := by
    unfold u32 sizeofBuf
    omega
  have hm := hi.heap.cache.slab s hs
  simp only [LooksLikeBuf, hbuf, Buf.slab, hword]
  refine ⟨hb, (hi.heap.cache.placed s hs).kernel, hm.fixed.fingerprint_eq, ?_⟩
  rw [hm.alloc_eq]
  exact List.length_pos_of_ne_nil hlive

theorem Started.find_four {totalPages : ℕ} {h : Heap} (hst : Started totalPages h L c) :
    c.find 4 ≠ none := by
  have hspec : (4, 0) ∈ c.slabs.reverse.map fun s => ((c.view s).size, (c.view s).pinned) := by
    rw [hst.fresh.specs]
    decide
  obtain ⟨s, hs, hsz⟩ := List.mem_map.mp hspec
  have hs := List.mem_reverse.mp hs
  have hsz : (c.view s).size = 4 := congrArg Prod.fst hsz
  intro hnone
  have hfull := hst.inv.cache.find_none.mp hnone s hs
    (by rw [hst.fresh.loose]; exact (Option.some_ne_none s).symm) hsz
  rw [hst.fresh.live s hs, hsz] at hfull
  exact absurd hfull (by decide)

end Forged

theorem kfree_routes_back_object : ∃ (σ : Sys) (r : Region), HeapReach 114688 σ ∧ r ∈ σ.live ∧
    r.kind = .object ∧ RoutedBack σ r := by
  obtain ⟨L, c, h, hst, hreach⟩ := heapReach_boot
  rcases hst.sysInv.salloc 4 with ⟨s, i, h', c', -, hok, -⟩ | ⟨hnone, -⟩
  · have hreach' := hreach.run (.single (.salloc (Nat.succ_ne_zero _) hok))
    have hr := List.mem_singleton_self (⟨bufAt s 4 i + 8, 4, .object⟩ : Region)
    exact ⟨_, _, hreach', hr, rfl, (kfree_routes_back hreach' hr).mpr (.inl rfl)⟩
  · exact absurd hnone hst.find_four

/-- A client of one page forges the eight bytes in front of the next one. -/
theorem kfree_misroutes : ∃ (σ : Sys) (r : Region), HeapReach 114688 σ ∧ r ∈ σ.live ∧
    r.bytes = 4096 ∧ r.kind = .block (calcPageOrder 4096) ∧ ¬ RoutedBack σ r := by
  obtain ⟨L, c₀, h₀, hst, hreach⟩ := heapReach_boot
  have hi₀ := hst.sysInv
  -- an object, so that its slab has `alloc > 0`
  rcases hi₀.salloc 4 with ⟨s₀, i₀, h₁, c, -, hok, hi₁, hzone, -⟩ | ⟨hnone, -⟩
  swap
  · exact absurd hnone hst.find_four
  set p₀ := bufAt s₀ 4 i₀ + 8
  set σ₁ : Sys := ⟨h₁, c₀.slabs, [⟨p₀, 4, .object⟩]⟩ with hσ₁
  have hstep₁ : HeapStep ⟨h₀, c₀.slabs, []⟩ σ₁ := .salloc (Nat.succ_ne_zero _) hok
  have hused₁ : SysInv.used L c σ₁ = L.first + 27 := by
    have hslabs : c₀.slabs = c.slabs := hi₁.slabs
    rw [← hst.used, SysInv.used, handedPages, handedPages, ← hslabs]
    change pagesUsed h₁.kernelBuddyNew _ = _
    rw [hzone]
    rfl
  -- 29 pages, one of which comes after a page that clients may write
  have hfirst := hst.first_le
  have hnum : L.numPages = 14336 := hst.numPages
  have hroom : SysInv.used L c σ₁ + 29 ≤ L.numPages := by
    have h1024 : 2 ^ maxOrder = 1024 := rfl
    rw [hused₁, hnum]
    omega
  obtain ⟨ps, σ₂, hrun₂, hi₂, hlen, hlive, hused₂⟩ := hi₁.kmalloc_pages hroom
  rw [hused₁] at hused₂
  have hblocks : blockPages σ₂.live = ps.map fun p => (p, 0) := by
    rw [hlive]
    exact blockPages_pageRegion rfl
  obtain ⟨p, hp, hpfirst, hbefore⟩ := hi₂.exists_page_after_client hblocks hlen hused₂
  have hr : pageRegion p ∈ σ₂.live := by
    rw [hlive]
    exact List.mem_append_left _ (List.mem_map_of_mem hp)
  have hobj : (⟨p₀, 4, .object⟩ : Region) ∈ σ₂.live := by
    rw [hlive]
    exact List.mem_append_right _ (List.mem_singleton_self _)
  have hplt : p < L.numPages := by
    have hm := hi₂.heap.zone.lt (HeapInv.page_mem (@mem_blockPages _ _ 0 hr rfl))
    rwa [pageRegion, pageOf_pageAddr] at hm
  have hfull : ∀ r ∈ σ₂.live, ∀ order, r.kind = .block order → r.bytes = 4096 * 2 ^ order := by
    intro r hr order hk
    rw [hlive, List.mem_append, List.mem_map, List.mem_singleton] at hr
    rcases hr with ⟨q, -, rfl⟩ | rfl
    · cases hk
      rfl
    · cases hk
  set a := pageAddr (p - 1) + 4088 with ha
  have haddr : pageAddr p = a + 8 := by
    have hp1 : p * 4096 = (p - 1) * 4096 + 4096 := by omega
    rw [ha, pageAddr_eq, pageAddr_eq, hp1, Nat.add_assoc, Nat.add_assoc]
  have hclient : ∀ k < 4, ClientByte σ₂ (a + k) := fun k hk =>
    hi₂.client_of_page (by omega) hbefore hfull ⟨by omega, by omega⟩
  obtain ⟨s, hs, i, hil, -⟩ := hi₂.live.object _ hobj rfl
  obtain ⟨hrun₃, hi₃⟩ := hi₂.write_word (v := s) hclient
  refine ⟨_, pageRegion p, (hreach.run (.head hstep₁ hrun₂)).run hrun₃, hr, rfl, rfl, ?_⟩
  have hend := pageAddr_end (p := p) (by omega)
  have hloaded : load32 (store32 σ₂.heap.mem a s) a = s :=
    load32_store32_self (by omega) (by have := (hi₂.heap.cache.placed s hs).fits; omega)
  have hlooks := hi₃.looksLikeBuf (b := a) hs (List.ne_nil_of_mem hil)
    (by rw [ha]; exact (Nat.le_add_right _ _).trans (Nat.le_add_right _ _)) (by omega) hloaded
  rw [← haddr] at hlooks
  exact fun hrouted => (hi₃.freesBlock_iff hr rfl).mp hrouted hlooks

end X86Osdev.Mem

import X86Osdev.Mem.KfreeRouting
import X86Osdev.Mem.Vma

/-! Memory in terms of the free lists: what the allocators do not own is settled, and what they hand out
was free. -/

namespace X86Osdev.Mem
open X86Osdev.Lib ByteMemory DyadicTiling

def FreeByte (σ : Sys) (a : ℕ) : Prop :=
  ∃ o ≤ maxOrder, ∃ p ∈ freeListOf σ.heap.kernelBuddyNew o, a ∈ blockAt (pageAddr p) o

structure Apart (σ : Sys) (a : ℕ) : Prop where
  word : a < 2 ^ 32
  kernel : kernelVirtualAddressBase ≤ a
  notFree : ¬ FreeByte σ a
  cache : a ∉ cacheBytes σ.heap.kMemCache σ.slabs

def Sys.view (σ : Sys) (c : Cache) : HeapView := ⟨σ.heap, c, blockPages σ.live⟩

section Free
variable {L : Layout} {c : Cache} {σ : Sys} {v' : HeapView} {P : Set ℕ} {a k n p o totalPages : ℕ}
  {r : Region}

theorem mem_blockAt_page (hk : kernelVirtualAddressBase ≤ a) :
    a ∈ blockAt (pageAddr p) o ↔ pageOf a ∈ span p o := by
  rw [mem_span, blockAt, Set.mem_Ico, pageAddr_eq]
  unfold kernelVirtualAddressBase at hk
  unfold pageOf kernelVirtualAddressBase pageSize
  omega

theorem SysInv.freeByte_iff (hi : SysInv L c σ) (hk : kernelVirtualAddressBase ≤ a) :
    FreeByte σ a ↔ Vacant L (σ.view c) a := by
  obtain ⟨⟨fl, hz⟩, -, ht, -⟩ := hi.heap.zone
  constructor
  · rintro ⟨o, ho, p, hp, ha⟩
    rw [freeListOf_eq hz ho] at hp
    obtain ⟨hlt, hfree, hpo⟩ := (hz.listed o ho p).mp hp
    have hspan : pageOf a ∈ span p (orderOf σ.heap.kernelBuddyNew p) :=
      hpo.symm ▸ (mem_blockAt_page hk).mp ha
    refine ⟨hk, ?_, fun q hq => ?_⟩
    · have hend := hz.tiling.below p (.inl ⟨hlt, hfree⟩)
      rw [ht] at hend
      exact (mem_span.mp hspan).2.trans_le hend
    · have hq' := List.mem_toFinset.mpr hq
      have hpq : p ≠ q := by
        rintro rfl
        exact Bool.false_ne_true ((hz.handed_used p hq').symm.trans hfree)
      exact Set.disjoint_left.mp (hz.tiling.disjoint p (.inl ⟨hlt, hfree⟩) q (.inr hq') hpq) hspan
  · intro ha
    obtain ⟨p, hp | hp, hspan⟩ := hz.tiling.cover (pageOf a) (by rw [ht]; exact ha.page)
    · have ho := hz.order_le p hp.1
      refine ⟨_, ho, p, ?_, (mem_blockAt_page hk).mpr hspan⟩
      rw [freeListOf_eq hz ho]
      exact (hz.listed _ ho p).mpr ⟨hp.1, hp.2, rfl⟩
    · exact absurd hspan (ha.free p (List.mem_toFinset.mp hp))

theorem SysInv.settled_iff (hi : SysInv L c σ) : Settled L (σ.view c) a ↔ Apart σ a := by
  constructor
  · intro ha
    refine ⟨ha.word, ha.kernel, fun hfree => ?_, hi.slabs ▸ ha.cache⟩
    have hv := (hi.freeByte_iff ha.kernel).mp hfree
    rcases ha.held with h | ⟨q, hq, hspan⟩
    · exact absurd hv.page (Nat.not_lt.mpr h)
    · exact hv.free q hq hspan
  · intro ha
    refine ⟨ha.word, ha.kernel, hi.slabs ▸ ha.cache, ?_⟩
    by_contra h
    refine ha.notFree ((hi.freeByte_iff ha.kernel).mpr ⟨ha.kernel, ?_, fun q hq hspan => ?_⟩)
    · exact Nat.lt_of_not_le fun hle => h (.inl hle)
    · exact h (.inr ⟨q, hq, hspan⟩)

theorem SysInv.fresh_free (hi : SysInv L c σ) (hg : Grows L k (σ.view c) v')
    (hf : Fresh L (σ.view c) v' P) (ha : a ∈ P) : FreeByte σ a := by
  have hv := hf.vacant hi.heap hg ha
  exact (hi.freeByte_iff hv.kernel).mpr hv

theorem FreeByte.kernel (h : FreeByte σ a) : kernelVirtualAddressBase ≤ a := by
  obtain ⟨o, -, p, -, ha⟩ := h
  exact (Nat.le_add_right _ _).trans ha.1

theorem SysInv.fill (hi : SysInv L c σ) (hr : r ∈ σ.live) (f : ℕ → UInt8)
    (hfits : r.ptr + r.bytes ≤ 2 ^ 32) (hn : n ≤ r.bytes) :
    ∃ m, Relation.ReflTransGen HeapStep σ (σ.setHeap { σ.heap with mem := m }) ∧
      SysInv L c (σ.setHeap { σ.heap with mem := m }) ∧ ∀ i < n, m (r.ptr + i) = f i := by
  induction n with
  | zero => exact ⟨σ.heap.mem, .refl, hi, fun i hi => absurd hi (Nat.not_lt_zero i)⟩
  | succ n ih =>
    obtain ⟨m, hrun, hi', hm⟩ := ih (by omega)
    have hlt : r.ptr + n < 2 ^ 32 := by omega
    have hown : ClientByte (σ.setHeap { σ.heap with mem := m }) (r.ptr + n) :=
      .inl ⟨r, hr, ⟨Nat.le_add_right _ _, Nat.add_lt_add_left hn _⟩⟩
    refine ⟨_, hrun.tail (.write hown (v := (f n).toNat)), hi'.write hown, fun i hi => ?_⟩
    show store8 m (r.ptr + n) (f n).toNat (r.ptr + i) = f i
    rw [store8_eq hlt, UInt8.ofNat_toNat, Function.update_apply]
    by_cases hin : i = n
    · rw [if_pos (by rw [hin]), hin]
    · rw [if_neg (by omega)]
      exact hm i (by omega)

theorem SysInv.fillFree (hi : SysInv L c σ) (d : UInt8) (hn : n ≤ 2 ^ 32) :
    ∃ m, Relation.ReflTransGen HeapStep σ (σ.setHeap { σ.heap with mem := m }) ∧
      SysInv L c (σ.setHeap { σ.heap with mem := m }) ∧ (∀ x < n, FreeByte σ x → m x = d) ∧
        ∀ x, ¬ FreeByte σ x → m x = σ.heap.mem x := by
  induction n with
  | zero => exact ⟨σ.heap.mem, .refl, hi, fun x hx => absurd hx (Nat.not_lt_zero x), fun _ _ => rfl⟩
  | succ n ih =>
    obtain ⟨m, hrun, hi', hm, hkeep⟩ := ih (by omega)
    by_cases hfree : FreeByte σ n
    · have hown : ClientByte (σ.setHeap { σ.heap with mem := m }) n := .inr hfree
      have hbyte : ∀ x, store8 m n d.toNat x = Function.update m n d x := fun x => by
        rw [store8_eq hn, UInt8.ofNat_toNat]
      refine ⟨_, hrun.tail (.write hown (v := d.toNat)), hi'.write hown, fun x hx hxf => ?_,
        fun x hxf => ?_⟩
      · change store8 m n d.toNat x = d
        rw [hbyte, Function.update_apply]
        by_cases hxn : x = n
        · rw [if_pos hxn]
        · rw [if_neg hxn]
          exact hm x (by omega) hxf
      · change store8 m n d.toNat x = _
        rw [hbyte, Function.update_of_ne fun e : x = n => hxf (e ▸ hfree)]
        exact hkeep x hxf
    · refine ⟨m, hrun, hi', fun x hx hxf => ?_, hkeep⟩
      rcases Nat.lt_succ_iff_lt_or_eq.mp hx with hx | rfl
      · exact hm x hx hxf
      · exact absurd hxf hfree

/-- A machine with two pages of a client, the second of which holds `f`, with `0xFF` in all free memory
and with 300 pages more. -/
structure TwoPages (f : ℕ → UInt8) (L : Layout) (c : Cache) (σ : Sys) (p q : ℕ) : Prop where
  reach : HeapReach 114688 σ
  inv : SysInv L c σ
  pages : (p, 0) ∈ blockPages σ.live ∧ (q, 0) ∈ blockPages σ.live
  different : p ≠ q
  room : (σ.view c).used L + 300 ≤ L.numPages
  bytes : ∀ i < 4096, σ.heap.mem (pageAddr q + i) = f i
  free : ∀ x, FreeByte σ x → σ.heap.mem x = 0xFF

theorem TwoPages.fits {f : ℕ → UInt8} {q : ℕ} (h : TwoPages f L c σ p q) :
    pageAddr p + 4096 ≤ 2 ^ 32 ∧ pageAddr q + 4096 ≤ 2 ^ 32 := by
  have hfits : ∀ r, (r, 0) ∈ blockPages σ.live → pageAddr r + 4096 ≤ 2 ^ 32 := fun r hr =>
    pageAddr_end ((h.inv.heap.zone.lt (HeapInv.page_mem hr)).trans_le h.inv.heap.small)
  exact ⟨hfits p h.pages.1, hfits q h.pages.2⟩

theorem heapReach_pages (f : ℕ → UInt8) : ∃ L c σ p q, TwoPages f L c σ p q := by
  obtain ⟨L, c, h, hst, hreach⟩ := heapReach_boot
  have hnum : L.numPages = 14336 := hst.numPages
  have hfirst : L.first ≤ 13312 := hst.first_le
  have hused : SysInv.used L c ⟨h, c.slabs, []⟩ = L.first + 27 := hst.used
  obtain ⟨p, σ₁, hstep₁, hi₁, hlive₁, hused₁⟩ := hst.sysInv.kmalloc_page (by omega)
  obtain ⟨q, σ₂, hstep₂, hi₂, hlive₂, hused₂⟩ := hi₁.kmalloc_page (by omega)
  rw [hlive₁] at hlive₂
  have hblocks : blockPages σ₂.live = [(q, 0), (p, 0)] := by
    rw [hlive₂, blockPages_block rfl, blockPages_block rfl, pageRegion, pageRegion,
      pageOf_pageAddr, pageOf_pageAddr]
    rfl
  have hpages : (p, 0) ∈ blockPages σ₂.live ∧ (q, 0) ∈ blockPages σ₂.live := by
    rw [hblocks]
    exact ⟨List.mem_cons_of_mem _ (List.mem_cons_self ..), List.mem_cons_self ..⟩
  have hne : p ≠ q := by
    have hnd := (List.nodup_append.mp (List.nodup_append.mp hi₂.heap.zone.nodup).2.1).2.1
    rw [hblocks] at hnd
    exact fun e => (List.nodup_cons.mp hnd).1 (e ▸ List.mem_cons_self ..)
  have hend : pageAddr q + 4096 ≤ 2 ^ 32 :=
    pageAddr_end ((hi₂.heap.zone.lt (HeapInv.page_mem hpages.2)).trans_le hi₂.heap.small)
  have hmem : pageRegion q ∈ σ₂.live := hlive₂ ▸ List.mem_cons_self ..
  obtain ⟨m₁, hrun₁, hi₃, hm₁⟩ := hi₂.fill hmem f hend (le_refl 4096)
  obtain ⟨m₂, hrun₂, hi₄, hm₂, hkeep⟩ := hi₃.fillFree 0xFF (le_refl _)
  refine ⟨L, c, _, p, q, hreach.run ((hrun₁.trans hrun₂).head hstep₂ |>.head hstep₁), hi₄, hpages, hne,
    ?_, fun i hi => ?_, fun x hx => ?_⟩
  · change SysInv.used L c σ₂ + 300 ≤ L.numPages
    omega
  · -- a page of a client is not free
    have hset := HeapInv.block_settled (v := (σ₂.setHeap { σ₂.heap with mem := m₁ }).view c) hi₃.heap
      hpages.2 (a := pageAddr q + i) ⟨Nat.le_add_right _ _, by omega⟩
    exact (hkeep _ (hi₃.settled_iff.mp hset).notFree).trans (hm₁ i hi)
  · have hv := (hi₄.freeByte_iff hx.kernel).mp hx
    exact hm₂ x (hv.word hi₄.heap) hx

end Free

end X86Osdev.Mem

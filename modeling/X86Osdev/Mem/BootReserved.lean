import X86Osdev.Mem.BootMemory

/-! The blocks that `init_memory_alloc` puts aside hold everything `boot_alloc` has returned, and no later
call returns memory of theirs. -/

namespace X86Osdev.Mem
open X86Osdev.Lib ByteMemory CircularList DyadicTiling

structure Above (N k : ℕ) (z : BuddyMemDesc) (handed : List ℕ) : Prop where
  run : RunInv (N * 2 ^ maxOrder) 0 z (handed ++ taken k)
  top : ∀ r ∈ taken k, orderOf z r = maxOrder

section Above
variable {N k order b : ℕ} {z z' : BuddyMemDesc} {handed handed' : List ℕ} {h h' : Heap}

theorem TookFourMegs.above (ht : TookFourMegs N k h h') : Above N k h'.kernelBuddyNew [] :=
  ⟨ht.runInv, ht.top⟩

theorem zoneStep_append (extra : List ℕ) (hs : ZoneStep (z, handed) (z', handed')) :
    ZoneStep (z, handed ++ extra) (z', handed' ++ extra) := by
  cases hs with
  | get ho hok => exact .get ho hok
  | free hb hok =>
    rw [← List.erase_append_left _ hb]
    exact .free (List.mem_append_left _ hb) hok

theorem Above.step (ha : Above N k z handed) (hs : ZoneStep (z, handed) (z', handed')) :
    Above N k z' handed' := by
  obtain ⟨⟨fl, hz⟩, hnd, -, -⟩ := ha.run
  have hrun := runInv_step (zoneStep_append (taken k) hs) ha.run
  refine ⟨hrun, fun r hr => ?_⟩
  have hmem : r ∈ (handed ++ taken k).toFinset := List.mem_toFinset.mpr (List.mem_append_right _ hr)
  cases hs with
  | get ho hok =>
    rcases getBuddyNew_spec hz ho with ⟨p, z₁, fl', hget, -, -, -, -, hk⟩ | ⟨hpanic, -⟩
    · obtain ⟨rfl, rfl⟩ := Outcome.ok.inj (hok.symm.trans hget)
      exact (congrArg BuddyBlockNew.order (hk.header r hmem)).trans (ha.top r hr)
    · cases hok.symm.trans hpanic
  | @free _ _ _ b hb hok =>
    obtain ⟨z₁, fl', hfree, -, hk⟩ := freeBuddyNew_spec hz
      (List.mem_toFinset.mpr (List.mem_append_left (taken k) hb))
    obtain ⟨-, rfl⟩ := Outcome.ok.inj (hok.symm.trans hfree)
    -- the block given back is not one of those put aside
    have hkept : r ∈ (handed ++ taken k).toFinset.erase b := by
      refine Finset.mem_erase.mpr ⟨?_, hmem⟩
      rintro rfl
      exact List.disjoint_of_nodup_append hnd hb hr
    exact (congrArg BuddyBlockNew.order (hk.header r hkept)).trans (ha.top r hr)

theorem Above.run_steps {s : BuddyMemDesc × List ℕ} (ha : Above N k z handed)
    (hr : Relation.ReflTransGen ZoneStep (z, handed) s) : Above N k s.1 s.2 := by
  induction hr with
  | refl => exact ha
  | tail _ hs ih => exact ih.step hs

theorem Above.get_le (ha : Above N k z handed) (ho : order ≤ maxOrder)
    (hok : getBuddyNew order z = .ok b z') :
    k * 2 ^ maxOrder ≤ b ∧ b + 2 ^ order ≤ N * 2 ^ maxOrder := by
  have ha' := ha.step (.get ho hok)
  have hb : b ∈ (b :: handed) ++ taken k := List.mem_append_left _ (List.mem_cons_self ..)
  obtain ⟨⟨fl, hz⟩, -, -, -⟩ := ha.run
  have hord : orderOf z' b = order := by
    rcases getBuddyNew_spec hz ho with ⟨p, z₁, fl', hget, -, -, -, hpo, -⟩ | ⟨hpanic, -⟩
    · obtain ⟨rfl, rfl⟩ := Outcome.ok.inj (hok.symm.trans hget)
      exact hpo
    · cases hok.symm.trans hpanic
  refine ⟨?_, ?_⟩
  · by_contra hlt
    have hpos : 0 < 2 ^ maxOrder := by positivity
    have hi : b / 2 ^ maxOrder < k := (Nat.div_lt_iff_lt_mul hpos).mpr (Nat.lt_of_not_le hlt)
    have hr : b / 2 ^ maxOrder * 2 ^ maxOrder ∈ taken k := mem_taken.mpr ⟨_, hi, rfl⟩
    have hne : b ≠ b / 2 ^ maxOrder * 2 ^ maxOrder := by
      intro e
      rw [← e] at hr
      exact List.disjoint_of_nodup_append ha'.run.nodup (List.mem_cons_self ..) hr
    have hdis := ha'.run.spans_disjoint hb (List.mem_append_right _ hr) hne
    rw [ha'.top _ hr, Set.disjoint_left] at hdis
    refine hdis (self_mem_span ..) ?_
    rw [mem_span]
    exact ⟨Nat.div_mul_le_self .., Nat.lt_div_mul_add hpos⟩
  · rw [← hord]
    exact ha'.run.block_end hb

/-- While top-order blocks are left, they are taken in the order of their addresses. -/
theorem TookFourMegs.lists (ht : TookFourMegs N k h h') (hk : k < N) :
    ∃ fl, ZoneInv h'.kernelBuddyNew fl (taken k).toFinset ∧ takeLists (maxOrder - maxOrder) fl =
      some (k * 2 ^ maxOrder,
        Function.update fl maxOrder (((List.range N).map (· * 2 ^ maxOrder)).drop (k + 1))) := by
  obtain ⟨fl, hz, hfl⟩ := ht.zone
  have hlen : ((List.range N).map (· * 2 ^ maxOrder)).length = N := by simp
  refine ⟨fl, hz, ?_⟩
  rw [Nat.sub_self, takeLists, hfl, List.drop_eq_getElem_cons (by omega)]
  simp

theorem TookFourMegs.getNext (ht : TookFourMegs N k h h') (hk : k < N) :
    ∃ z, getBuddyNew maxOrder h'.kernelBuddyNew = .ok (k * 2 ^ maxOrder) z := by
  obtain ⟨fl, hz, hhead⟩ := ht.lists hk
  rcases getBuddyNew_spec hz le_rfl with ⟨p, z, fl', hok, hlists, -⟩ | ⟨-, hnone, -⟩
  · obtain ⟨rfl, -⟩ := Prod.mk.inj (Option.some.inj (hhead.symm.trans hlists))
    exact ⟨z, hok⟩
  · cases hhead.symm.trans hnone

theorem TookFourMegs.next (ht : TookFourMegs N k h h') (hN : N * 2 ^ maxOrder ≤ 2 ^ 17) (hk : k < N) :
    ∃ h'', kallocNosleep maxOrder h' = .ok (pageAddr (k * 2 ^ maxOrder)) h'' := by
  obtain ⟨fl, hz, hhead⟩ := ht.lists hk
  rcases kallocNosleep_lists hz ht.nodup (ht.totPages ▸ hN) ht.pfnOffset le_rfl with
    ⟨p, fl', h'', hok, hlists, -⟩ | ⟨-, hnone⟩
  · obtain ⟨rfl, -⟩ := Prod.mk.inj (Option.some.inj (hhead.symm.trans hlists))
    exact ⟨h'', hok⟩
  · cases hhead.symm.trans hnone

end Above

/-- What holds when `init_memory_alloc` has taken the machine from `h` to `h'`, `k` blocks being put
aside. -/
structure BootReserved (totalPages : ℕ) (h h' : Heap) : Prop where
  /-- The arrays of headers lie one behind the other between the old and the new `free_mem_addr`. -/
  arrays : h.freeMemAddr ≤ h'.kernelBuddyNew.allBuddiesAddr ∧
    h'.kernelBuddyNew.allBuddiesAddr + h'.kernelBuddyNew.totPages * 20 ≤ h'.fastBuddyNew.allBuddiesAddr ∧
    h'.fastBuddyNew.allBuddiesAddr + h'.fastBuddyNew.totPages * 20 ≤ h'.normalBuddyNew.allBuddiesAddr ∧
    h'.normalBuddyNew.allBuddiesAddr + h'.normalBuddyNew.totPages * 20 = h'.freeMemAddr
  /-- Call number `n` of `kalloc_nosleep` gets block number `n`. -/
  inOrder : ∃ h₀, initZones totalPages h = .ok () h₀ ∧
    takeFourMegs (fourMegsPages h'.freeMemAddr) h₀ = .ok () h' ∧
    ∀ n < fourMegsPages h'.freeMemAddr, ∃ hₙ hₘ, takeFourMegs n h₀ = .ok () hₙ ∧
      kallocNosleep maxOrder hₙ = .ok (pageAddr (n * 2 ^ maxOrder)) hₘ
  /-- The blocks put aside and the free lists tile the zone. -/
  tiles : RepInvariant h'.kernelBuddyNew (taken (fourMegsPages h'.freeMemAddr))
  top : ∀ r ∈ taken (fourMegsPages h'.freeMemAddr), orderOf h'.kernelBuddyNew r = maxOrder
  /-- Every page that is in use belongs to one of these blocks. -/
  covered : ∀ p, p * pageSize < pa h'.freeMemAddr →
    ∃ r ∈ taken (fourMegsPages h'.freeMemAddr), p ∈ span r maxOrder
  /-- No later call on the zone returns memory that was in use. -/
  later : ∀ z handed order b z', Relation.ReflTransGen ZoneStep (h'.kernelBuddyNew, []) (z, handed) →
    order ≤ maxOrder → getBuddyNew order z = .ok b z' → h'.freeMemAddr ≤ va (calcBuddyPhys b z')
  /-- Nor does any call of the allocators, once the slab cache is set up. -/
  calls : h.kMemCache + 36 ≤ h.freeMemAddr → kernelVirtualAddressBase ≤ h.kMemCache →
    ∀ slabs h₂ σ, ((initKernelLocks h').bind fun _ h => initSlabCache h) = .ok slabs h₂ →
      Relation.ReflTransGen HeapStep ⟨h₂, slabs, []⟩ σ → ∀ r ∈ σ.live, h'.freeMemAddr ≤ r.ptr

section Reserved
variable {totalPages : ℕ} {h h' : Heap}

theorem HeapInv.first_le_page {L : Layout} {c : Cache} {pages : List (ℕ × ℕ)} {p : ℕ}
    (hh : HeapInv L h c pages) (hp : p ∈ c.slabs.map pageOf ++ pages.map Prod.fst) : L.first ≤ p := by
  by_contra hlt
  obtain ⟨r, hr, hx⟩ := hh.low p (Nat.lt_of_not_le hlt)
  have hne : p ≠ r := by
    rintro rfl
    exact List.disjoint_of_nodup_append hh.zone.nodup hr hp
  have hdis := hh.zone.spans_disjoint (List.mem_append_right _ hp) (HeapInv.reserved_mem hr) hne
  exact Set.disjoint_left.mp hdis (self_mem_span ..) hx

theorem SysInv.first_le_ptr {L : Layout} {c : Cache} {σ : Sys} {r : Region} (hi : SysInv L c σ)
    (hr : r ∈ σ.live) : pageAddr L.first ≤ r.ptr := by
  have hpage : L.first ≤ pageOf r.ptr := by
    refine hi.heap.first_le_page ?_
    cases hk : r.kind with
    | object =>
      obtain ⟨s, hs, i, hil, hptr, -⟩ := hi.live.object r hr hk
      have h4 := (c.view s).size_ge
      rw [hptr, pageOf_object (hi.heap.cache.placed s hs) ((c.view s).live_lt hil) (by omega)]
      exact List.mem_append_left _ (List.mem_map_of_mem hs)
    | block order =>
      exact List.mem_append_right _ (List.mem_map_of_mem (mem_blockPages hr hk))
  exact (Nat.add_le_add_left (Nat.mul_le_mul_right _ hpage) _).trans (hi.range_bounds hr).1

theorem MemoryReady.arrays (hr : MemoryReady totalPages h h') (hT : totalPages < 2 ^ 20)
    (hhigh : h.freeMemAddr ≤ 0xE0000000) :
    (h.freeMemAddr ≤ h'.kernelBuddyNew.allBuddiesAddr ∧
    h'.kernelBuddyNew.allBuddiesAddr + h'.kernelBuddyNew.totPages * 20 ≤ h'.fastBuddyNew.allBuddiesAddr ∧
    h'.fastBuddyNew.allBuddiesAddr + h'.fastBuddyNew.totPages * 20 ≤ h'.normalBuddyNew.allBuddiesAddr ∧
    h'.normalBuddyNew.allBuddiesAddr + h'.normalBuddyNew.totPages * 20 = h'.freeMemAddr) ∧
      h'.freeMemAddr < 0xE2000000 := by
  obtain ⟨h₀, -, htook⟩ := hr.tookFourMegs
  obtain ⟨m₁, m₂, z₁, hkernel, hfast, hnormal, haddr⟩ := hr.zones
  obtain ⟨-, ht₂, -⟩ := initBuddyNew_ok hfast
  obtain ⟨-, ht₃, -⟩ := initBuddyNew_ok hnormal
  have hlen : ∀ n < 2 ^ 20, u32 (n / 2 ^ maxOrder * 2 ^ maxOrder * sizeofBuddyBlockNew) =
      n / 2 ^ maxOrder * 2 ^ maxOrder * 20 ∧ n / 2 ^ maxOrder * 2 ^ maxOrder ≤ n := by
    intro n hn
    have hle := Nat.div_mul_le_self n (2 ^ maxOrder)
    refine ⟨u32_of_lt ?_, hle⟩
    unfold sizeofBuddyBlockNew
    omega
  obtain ⟨hu₁, hle₁⟩ := hlen (totalPages / 8) (by omega)
  obtain ⟨hu₃, hle₃⟩ := hlen (totalPages - totalPages / 8 - totalPages / 8) (by omega)
  have ha₁ := initBuddyNew_array hkernel
  have ha₂ := initBuddyNew_array hfast
  have ha₃ := initBuddyNew_array hnormal
  rw [hu₁] at ha₁ ha₂
  rw [hu₃] at ha₃
  rw [htook.totPages, ht₂, ht₃, ← haddr]
  set n₁ := totalPages / 8 / 2 ^ maxOrder * 2 ^ maxOrder
  set n₃ := (totalPages - totalPages / 8 - totalPages / 8) / 2 ^ maxOrder * 2 ^ maxOrder
  have hr₁ := @bootAlloc_region h.freeMemAddr (n₁ * 20) (by omega)
  rw [← ha₁] at hr₁
  have hr₂ := @bootAlloc_region m₁ (n₁ * 20) (by omega)
  rw [← ha₂] at hr₂
  have hr₃ := @bootAlloc_region m₂ (n₃ * 20) (by omega)
  rw [← ha₃] at hr₃
  omega

/-- The blocks put aside end above `free_mem_addr`. -/
theorem freeMemAddr_lt_fourMegs {a : ℕ} (hlow : kernelVirtualAddressBase ≤ a) (hhigh : a < 2 ^ 32) :
    a < pageAddr (fourMegsPages a * 2 ^ maxOrder) := by
  have h1024 : 2 ^ maxOrder = 1024 := rfl
  rw [fourMegsPages_eq hlow hhigh, pageAddr_eq, h1024]
  unfold kernelVirtualAddressBase at hlow
  omega

/-- Everything used while booting lies in the first blocks of the kernel zone, which stay put aside. -/
theorem boot_memory_reserved (hT : totalPages < 2 ^ 20)
    (hlow : kernelVirtualAddressBase ≤ h.freeMemAddr) (hhigh : h.freeMemAddr ≤ 0xE0000000)
    (hok : initMemoryAlloc totalPages h = .ok () h') : BootReserved totalPages h h' := by
  have h1024 : 2 ^ maxOrder = 1024 := rfl
  have hr := initMemoryAlloc_ready hT hok
  obtain ⟨harr, hend⟩ := hr.arrays hT hhigh
  have hlow' : kernelVirtualAddressBase ≤ h'.freeMemAddr := by omega
  have hcover := freeMemAddr_lt_fourMegs hlow' (by omega)
  have hpa := pa_eq (a := h'.freeMemAddr) hlow' (by omega)
  have hle := hr.enough
  obtain ⟨h₀, hzones, htake, hkc, hall⟩ := hr.took
  obtain ⟨h'', hok', htook⟩ := hall _ hle
  obtain ⟨-, rfl⟩ := Outcome.ok.inj (htake.symm.trans hok')
  set N := totalPages / 8 / 2 ^ maxOrder with hN
  set k := fourMegsPages h'.freeMemAddr with hk
  have hN17 : N * 2 ^ maxOrder < 2 ^ 17 := by
    rw [hN]
    exact lt_of_le_of_lt (Nat.div_mul_le_self ..) (by omega)
  have hk17 : k * 2 ^ maxOrder < 2 ^ 17 := lt_of_le_of_lt (Nat.mul_le_mul_right _ hle) hN17
  obtain ⟨fl, hz, hfl⟩ := htook.zone
  refine ⟨harr, ⟨h₀, hzones, htake, fun n hn => ?_⟩, hz.repInvariant htook.nodup, htook.top, ?_, ?_, ?_⟩
  · obtain ⟨hₙ, hokₙ, htookₙ⟩ := hall n (by omega)
    obtain ⟨hₘ, hokₘ⟩ := htookₙ.next hN17.le (by omega)
    exact ⟨hₙ, hₘ, hokₙ, hokₘ⟩
  · -- a page below the end of the arrays lies in one of the blocks taken
    intro p hp
    have hpk : p < k * 2 ^ maxOrder := by
      rw [hpa] at hp
      rw [pageAddr_eq] at hcover
      unfold pageSize at hp
      omega
    obtain ⟨r, hrk, hpr⟩ := htook.low p hpk
    exact ⟨r, hrk, htook.top r hrk ▸ hpr⟩
  · -- blocks that are never freed stay below everything handed out later
    intro z handed order b z' hrun ho hget
    have habove := htook.above.run_steps hrun
    obtain ⟨hkb, hbN⟩ := habove.get_le ho hget
    have hstep := habove.step (.get ho hget)
    obtain ⟨⟨fl', hz'⟩, -, htot, hoff⟩ := hstep.run
    have hpos : 0 < 2 ^ order := by positivity
    have hb17 : b < 2 ^ 17 := by omega
    have hbt : b < z'.totPages := by
      change z'.totPages = _ at htot
      rw [htot]
      omega
    rw [va_calcBuddyPhys hoff (hz'.pfn b hbt) hb17]
    exact hcover.le.trans (Nat.add_le_add_left (Nat.mul_le_mul_right _ hkb) _)
  · intro himage hkernel slabs h₂ σ hinit hrun r hr'
    have hbooted : Booted N (totalPages / 8 + 1) k h' := by
      refine ⟨⟨h₀, htook⟩, ?_, hN17.le, ?_⟩
      · obtain ⟨m₁, m₂, z₁, -, hfast, -, -⟩ := hr.zones
        obtain ⟨hz₂, ht₂, hoff₂⟩ := initBuddyNew_ok hfast
        exact ⟨⟨_, hz₂⟩, List.nodup_nil, ht₂, hoff₂⟩
      · rw [htook.same.kMemCache, hkc]
        omega
    rcases slabsMade_spec hbooted hk17 with ⟨c, h', L, hok₂, hs⟩ | ⟨⟨msg, h', hpanic⟩, -⟩
    · obtain ⟨rfl, rfl⟩ := Outcome.ok.inj (hinit.symm.trans hok₂)
      have hstart : SysInv L c ⟨h₂, c.slabs, []⟩ :=
        ⟨hs.inv, ⟨fun _ hr => absurd hr List.not_mem_nil, fun _ hr => absurd hr List.not_mem_nil,
          List.nodup_nil⟩, rfl⟩
      obtain ⟨c', hi, -⟩ := sysInv_run hrun hstart
      have hptr := hi.first_le_ptr hr'
      rw [hs.first] at hptr
      exact hcover.le.trans hptr
    · cases hinit.symm.trans hpanic

end Reserved

/-- With 448 MiB. -/
theorem boot_memory_reserved_448 : ∃ h', initMemoryAlloc 114688 bootHeap = .ok () h' ∧
    BootReserved 114688 bootHeap h' := by
  obtain ⟨h', hok⟩ := @bootHeap_ready 114688 (by decide) (by decide)
  exact ⟨h', hok, boot_memory_reserved (by decide) (by decide) (by decide) hok⟩

end X86Osdev.Mem

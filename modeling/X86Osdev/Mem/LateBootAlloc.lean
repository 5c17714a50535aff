import X86Osdev.Mem.BootReserved

/-! Regions of boot_alloc, before and after the buddy allocator has taken over, and the blocks that the
buddy allocator hands out. -/

namespace X86Osdev.Mem
open X86Osdev.Lib DyadicTiling

/-- `sizeof(struct gdtr)`, which is packed. -/
def sizeofGdtr : ℕ := 6

/-- `regions` are all regions that `boot_alloc` has returned, as address and size; `blocks` all blocks that
`get_buddy_new` has handed out since the start, as first page and order; `handed` those not given back. -/
structure BootSys where
  heap : Heap
  regions : List (ℕ × ℕ)
  blocks : List (ℕ × ℕ)
  handed : List ℕ

def saveMultiboot2Info (size : ℕ) (h : Heap) : ℕ × Heap :=
  let (info, m) := bootAlloc size true h.freeMemAddr
  (info, { h with freeMemAddr := m })

/-- `read_gdtr`, up to the store. -/
def readGdtr (h : Heap) : ℕ × Heap :=
  let (gdtr, m) := bootAlloc sizeofGdtr true h.freeMemAddr
  (gdtr, { h with freeMemAddr := m })

def arrayOf (z : BuddyMemDesc) : ℕ × ℕ := (z.allBuddiesAddr, z.totPages * sizeofBuddyBlockNew)

structure Boots (totalPages size : ℕ) (h : Heap) (σ : BootSys) : Prop where
  pages : totalPages < 2 ^ 20
  size_lt : size < 2 ^ 16
  kernel : kernelVirtualAddressBase ≤ h.freeMemAddr
  mapped : h.freeMemAddr ≤ 0xC1C00000
  ready : initMemoryAlloc totalPages (saveMultiboot2Info size h).2 = .ok () σ.heap
  regions : σ.regions = [arrayOf σ.heap.normalBuddyNew, arrayOf σ.heap.fastBuddyNew,
    arrayOf σ.heap.kernelBuddyNew, ((saveMultiboot2Info size h).1, size)]
  blocks : σ.blocks = []
  handed : σ.handed = []

/-- A call on the kernel zone for `kmalloc`, `kalloc_page` or `kalloc_nosleep`, one of `kfree_page`, or one
of `read_gdtr`. `allowed` tells when the latter may happen. -/
inductive BootStep (allowed : BootSys → Prop) : BootSys → BootSys → Prop
  | get {σ : BootSys} {order b : ℕ} {z : BuddyMemDesc} (ho : order ≤ maxOrder)
    (hok : getBuddyNew order σ.heap.kernelBuddyNew = .ok b z) :
    BootStep allowed σ { σ with
      heap := { σ.heap with kernelBuddyNew := z }
      blocks := (b, order) :: σ.blocks
      handed := b :: σ.handed }
  | free {σ : BootSys} {b : ℕ} {z : BuddyMemDesc} (hb : b ∈ σ.handed)
    (hok : freeBuddyNew b σ.heap.kernelBuddyNew = .ok () z) :
    BootStep allowed σ { σ with
      heap := { σ.heap with kernelBuddyNew := z }
      handed := σ.handed.erase b }
  | readGdtr {σ : BootSys} (ha : allowed σ) :
    BootStep allowed σ { σ with
      heap := (readGdtr σ.heap).2
      regions := ((readGdtr σ.heap).1, sizeofGdtr) :: σ.regions }

def regionBytes (r : ℕ × ℕ) : Set ℕ := Set.Ico r.1 (r.1 + r.2)

def blockBytesOf (b : ℕ × ℕ) : Set ℕ := Set.Ico (pageAddr b.1) (pageAddr b.1 + 2 ^ b.2 * pageSize)

structure NoCollision (σ : BootSys) : Prop where
  regions : σ.regions.Pairwise fun r r' => Disjoint (regionBytes r) (regionBytes r')
  blocks : ∀ r ∈ σ.regions, ∀ b ∈ σ.blocks, Disjoint (regionBytes r) (blockBytesOf b)

/-- The end of the blocks that `init_memory_alloc` put aside when it left `free_mem_addr` at `m`. -/
def reserveEnd (m : ℕ) : ℕ := pageAddr (fourMegsPages m * 2 ^ maxOrder)

/-- A page is left between `free_mem_addr` and the end of the blocks put aside. -/
def RoomLeft (m : ℕ) (σ : BootSys) : Prop := σ.heap.freeMemAddr + pageSize ≤ reserveEnd m

/-- `m` is `free_mem_addr` after the start. Regions grow towards the end of the blocks put aside, and all
other blocks lie behind it. -/
structure BootInv (N m : ℕ) (σ : BootSys) : Prop where
  above : Above N (fourMegsPages m) σ.heap.kernelBuddyNew σ.handed
  ended : σ.heap.freeMemAddr ≤ reserveEnd m
  small : reserveEnd m < 2 ^ 32
  below : ∀ r ∈ σ.regions, r.1 + r.2 ≤ σ.heap.freeMemAddr
  ordered : σ.regions.Pairwise fun r r' => r'.1 + r'.2 ≤ r.1
  blocks : ∀ b ∈ σ.blocks, fourMegsPages m * 2 ^ maxOrder ≤ b.1

section Invariant
variable {N m totalPages size : ℕ} {h : Heap} {σ σ' : BootSys}

theorem BootInv.noCollision (hi : BootInv N m σ) : NoCollision σ where
  regions := hi.ordered.imp fun hle => (ico_disjoint_of_le hle).symm
  blocks r hr b hb := by
    refine ico_disjoint_of_le ((hi.below r hr).trans (hi.ended.trans ?_))
    exact Nat.add_le_add_left (Nat.mul_le_mul_right _ (hi.blocks b hb)) _

theorem BootInv.step (hi : BootInv N m σ) (hs : BootStep (RoomLeft m) σ σ') : BootInv N m σ' := by
  cases hs with
  | get ho hok =>
    refine ⟨hi.above.step (.get ho hok), hi.ended, hi.small, hi.below, hi.ordered, fun b hb => ?_⟩
    rcases List.mem_cons.mp hb with rfl | hb
    · exact (hi.above.get_le ho hok).1
    · exact hi.blocks b hb
  | free hb hok =>
    exact ⟨hi.above.step (.free hb hok), hi.ended, hi.small, hi.below, hi.ordered, hi.blocks⟩
  | readGdtr hroom =>
    have hroom' : σ.heap.freeMemAddr + 4096 ≤ reserveEnd m := hroom
    have hsmall := hi.small
    have hend : reserveEnd m % 4096 = 0 := by
      rw [reserveEnd, pageAddr_eq]
      omega
    obtain ⟨hge, hle, halign, hnew⟩ := @bootAlloc_region σ.heap.freeMemAddr sizeofGdtr (by
      unfold sizeofGdtr
      omega)
    have hsize : sizeofGdtr = 6 := rfl
    have hup : σ.heap.freeMemAddr ≤ (readGdtr σ.heap).2.freeMemAddr := by
      show _ ≤ (bootAlloc sizeofGdtr true σ.heap.freeMemAddr).2
      omega
    refine ⟨hi.above, ?_, hsmall, fun r hr => ?_, ?_, hi.blocks⟩
    · show (bootAlloc sizeofGdtr true σ.heap.freeMemAddr).2 ≤ _
      omega
    · rcases List.mem_cons.mp hr with rfl | hr
      · exact hnew.ge
      · exact (hi.below r hr).trans hup
    · exact List.pairwise_cons.mpr ⟨fun r hr => (hi.below r hr).trans hge, hi.ordered⟩

theorem BootInv.run (hi : BootInv N m σ) (hr : Relation.ReflTransGen (BootStep (RoomLeft m)) σ σ') :
    BootInv N m σ' := by
  induction hr with
  | refl => exact hi
  | tail _ hs ih => exact ih.step hs

theorem Boots.saved (hb : Boots totalPages size h σ) :
    h.freeMemAddr ≤ (saveMultiboot2Info size h).1 ∧
      (saveMultiboot2Info size h).2.freeMemAddr = (saveMultiboot2Info size h).1 + size ∧
      (saveMultiboot2Info size h).2.freeMemAddr ≤ 0xC2000000 := by
  have hsize := hb.size_lt
  have hmapped := hb.mapped
  obtain ⟨hge, hle, -, hnew⟩ := @bootAlloc_region h.freeMemAddr size (by omega)
  refine ⟨hge, hnew, ?_⟩
  show (bootAlloc size true h.freeMemAddr).2 ≤ _
  omega

theorem Boots.inv (hb : Boots totalPages size h σ) :
    BootInv (totalPages / 8 / 2 ^ maxOrder) σ.heap.freeMemAddr σ := by
  obtain ⟨hge, hnew, hhigh⟩ := hb.saved
  have hT := hb.pages
  have hr := initMemoryAlloc_ready hT hb.ready
  obtain ⟨⟨harr₁, harr₂, harr₃, harr₄⟩, hend⟩ := hr.arrays hT (by omega)
  obtain ⟨h₀, -, htook⟩ := hr.tookFourMegs
  have hkernel := hb.kernel
  have hcover := freeMemAddr_lt_fourMegs (a := σ.heap.freeMemAddr) (by omega) (by omega)
  have hhead : sizeofBuddyBlockNew = 20 := rfl
  refine ⟨hb.handed ▸ htook.above, hcover.le, ?_, ?_, ?_, ?_⟩
  · rw [reserveEnd, pageAddr_eq]
    have hle : fourMegsPages σ.heap.freeMemAddr * 2 ^ maxOrder ≤ totalPages / 8 :=
      (Nat.mul_le_mul_right _ hr.enough).trans (Nat.div_mul_le_self ..)
    omega
  · intro r hr
    rw [hb.regions] at hr
    simp only [List.mem_cons, List.not_mem_nil, or_false] at hr
    simp only [arrayOf, hhead] at hr
    rcases hr with rfl | rfl | rfl | rfl
    · dsimp only
      omega
    · dsimp only
      omega
    · dsimp only
      omega
    · dsimp only
      omega
  · rw [hb.regions]
    simp only [List.pairwise_cons, List.mem_cons, List.not_mem_nil, or_false, forall_eq_or_imp,
      forall_eq, arrayOf, hhead]
    refine ⟨⟨harr₃, ?_, ?_⟩, ⟨harr₂, ?_⟩, ?_, ?_⟩
    · omega
    · omega
    · omega
    · omega
    · simp
  · rw [hb.blocks]
    exact fun b hb => absurd hb List.not_mem_nil

/-- While every late region still fits in front of the end of the blocks put aside, `boot_alloc` and the
buddy allocator never meet. -/
theorem boot_alloc_apart {σ₀ : BootSys} (hb : Boots totalPages size h σ₀)
    (hr : Relation.ReflTransGen (BootStep (RoomLeft σ₀.heap.freeMemAddr)) σ₀ σ) : NoCollision σ :=
  (hb.inv.run hr).noCollision

end Invariant

section Late
variable {m n : ℕ} {σ : BootSys} {allowed : BootSys → Prop}

theorem readGdtr_run (hall : ∀ σ, allowed σ) (hm : m % 4096 = 0) (hσ : σ.heap.freeMemAddr = m)
    (hend : m + 4096 * (n + 2) ≤ 2 ^ 32) : ∃ σ', Relation.ReflTransGen (BootStep allowed) σ σ' ∧
      σ'.heap.freeMemAddr = m + 4096 * n + 6 ∧ (m + 4096 * n, sizeofGdtr) ∈ σ'.regions ∧
      σ'.heap.kernelBuddyNew = σ.heap.kernelBuddyNew := by
  induction n with
  | zero =>
    have hone : bootAlloc sizeofGdtr true m = (m, m + 6) := by
      simp only [bootAlloc, hm, ne_eq, not_true_eq_false, and_false, if_false]
      unfold u32 sizeofGdtr
      rw [Nat.mod_eq_of_lt (by omega)]
    have hread : readGdtr σ.heap = (m, { σ.heap with freeMemAddr := m + 6 }) := by
      unfold readGdtr
      rw [hσ, hone]
    rw [Nat.mul_zero, Nat.add_zero]
    refine ⟨_, .single (.readGdtr (hall σ)), ?_, ?_, ?_⟩
    · rw [hread]
    · rw [hread]
      exact List.mem_cons_self ..
    · rw [hread]
  | succ n ih =>
    have hfits : m + 4096 * (n + 2) ≤ 2 ^ 32 :=
      (Nat.add_le_add_left (Nat.mul_le_mul_left _ (Nat.le_succ _)) m).trans hend
    obtain ⟨σ', hrun, hfree, -, hzone⟩ := ih hfits
    have hone : bootAlloc sizeofGdtr true (m + 4096 * n + 6) =
        (m + 4096 * (n + 1), m + 4096 * (n + 1) + 6) := by
      have hmod : (m + 4096 * n + 6) % 0x1000 = 6 := by omega
      simp only [bootAlloc, hmod, ne_eq, OfNat.ofNat_ne_zero, not_false_eq_true, and_self, if_true]
      unfold u32 sizeofGdtr
      rw [Nat.mod_eq_of_lt (by omega), Nat.mod_eq_of_lt (by omega)]
      rw [Prod.mk.injEq]
      omega
    have hread : readGdtr σ'.heap =
        (m + 4096 * (n + 1), { σ'.heap with freeMemAddr := m + 4096 * (n + 1) + 6 }) := by
      unfold readGdtr
      rw [hfree, hone]
    refine ⟨_, hrun.tail (.readGdtr (hall σ')), ?_, ?_, ?_⟩
    · rw [hread]
    · rw [hread]
      exact List.mem_cons_self ..
    · rw [hread]
      exact hzone

end Late

theorem boots_448 : ∃ σ, Boots 114688 1000 bootHeap σ ∧ σ.heap.freeMemAddr = 0xC0431000 := by
  obtain ⟨h', hok⟩ : ∃ h', initMemoryAlloc 114688 (saveMultiboot2Info 1000 bootHeap).2 = .ok () h' := by
    have hb : BootState 114688 (saveMultiboot2Info 1000 bootHeap).2 :=
      ⟨by decide, by decide, by decide, by decide⟩
    rcases initMemoryAlloc_spec hb with ⟨k, h', -, hok, -⟩ | ⟨-, hfew⟩
    · exact ⟨h', hok⟩
    · omega
  refine ⟨⟨h', [arrayOf h'.normalBuddyNew, arrayOf h'.fastBuddyNew, arrayOf h'.kernelBuddyNew,
    ((saveMultiboot2Info 1000 bootHeap).1, 1000)], [], []⟩,
    ⟨by decide, by decide, by decide, by decide, hok, rfl, rfl, rfl⟩, ?_⟩
  obtain ⟨m₁, m₂, z₁, hkernel, hfast, hnormal, -⟩ := (initMemoryAlloc_ready (by decide) hok).zones
  have h₁ : m₁ = 0xC0247000 := congrArg Prod.snd (initBuddyNew_array hkernel)
  have h₂ : m₂ = 0xC028D000 := by
    have h := congrArg Prod.snd (initBuddyNew_array hfast)
    rw [h₁] at h
    exact h
  have h₃ := congrArg Prod.snd (initBuddyNew_array hnormal)
  rw [h₂] at h₃
  exact h₃

/-- A first call of `read_gdtr` is harmless. -/
theorem boot_alloc_apart_448 : ∃ σ₀ σ, Boots 114688 1000 bootHeap σ₀ ∧
    Relation.ReflTransGen (BootStep (RoomLeft σ₀.heap.freeMemAddr)) σ₀ σ ∧ NoCollision σ := by
  obtain ⟨σ₀, hb, hm⟩ := boots_448
  have hroom : RoomLeft σ₀.heap.freeMemAddr σ₀ := by
    unfold RoomLeft
    rw [hm]
    decide
  have hrun : Relation.ReflTransGen (BootStep (RoomLeft σ₀.heap.freeMemAddr)) σ₀ _ :=
    .single (.readGdtr hroom)
  exact ⟨σ₀, _, hb, hrun, boot_alloc_apart hb hrun⟩

/-- The 976th call returns memory of the next block that the buddy allocator hands out. -/
theorem late_boot_alloc_collides : ∃ σ₀ σ, Boots 114688 1000 bootHeap σ₀ ∧
    Relation.ReflTransGen (BootStep fun _ => True) σ₀ σ ∧ ¬ NoCollision σ := by
  obtain ⟨σ₀, hb, hm⟩ := boots_448
  obtain ⟨σ, hrun, -, hmem, hzone⟩ :=
    @readGdtr_run 0xC0431000 975 σ₀ (fun _ => True) (fun _ => trivial) (by decide) hm (by decide)
  obtain ⟨h₀, -, htook⟩ := (initMemoryAlloc_ready hb.pages hb.ready).tookFourMegs
  have hk : fourMegsPages σ₀.heap.freeMemAddr = 2 := by
    rw [hm]
    decide
  rw [hk] at htook
  obtain ⟨z, hget⟩ := htook.getNext (by decide)
  rw [← hzone] at hget
  refine ⟨σ₀, _, hb, hrun.tail (.get le_rfl hget), fun hno => ?_⟩
  have hdis := hno.blocks _ hmem _ (List.mem_cons_self ..)
  have hnot := Set.disjoint_left.mp hdis
  exact @hnot 0xC0800000 ⟨by decide, by decide⟩ ⟨by decide, by decide⟩

end X86Osdev.Mem

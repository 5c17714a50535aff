import X86Osdev.Mem.HeapFrame
import X86Osdev.Mem.Paging

/-! Memory areas and descriptors of mem/vma.c and mem/mem_desc.h, and the byte loops of mem/mem.c. Objects
of `kmalloc` are kept as values with their address; whole pages are written in memory. -/

namespace X86Osdev.Mem
open X86Osdev.Lib ByteMemory

/-- The first `n` turns of `memset`. -/
def memset (dest val : ℕ) : ℕ → Memory → Memory
  | 0, m => m
  | n + 1, m => store8 (memset dest val n m) (u32 (dest + n)) val

/-- The first `n` turns of `memcopy`. -/
def memcopy (source dest : ℕ) : ℕ → Memory → Memory
  | 0, m => m
  | n + 1, m =>
    let m := memcopy source dest n m
    store8 m (u32 (dest + n)) (load8 m (u32 (source + n)))

def storeWords (dest : ℕ) (words : ℕ → ℕ) : ℕ → Memory → Memory
  | 0, m => m
  | n + 1, m => store32 (storeWords dest words n m) (u32 (dest + 4 * n)) (words n)

section Loops
variable {dest source val n a x : ℕ} {words : ℕ → ℕ} {m : Memory} {P : Set ℕ}

theorem store8_eq (ha : a < 2 ^ 32) (v : ℕ) : store8 m a v = Function.update m a (UInt8.ofNat v) := by
  unfold store8 store store storeByte
  rw [Nat.mod_eq_of_lt ha]

theorem load8_eq (ha : a < 2 ^ 32) : load8 m a = (m a).toNat := by
  unfold load8 load load
  rw [Nat.mod_eq_of_lt ha, Nat.mul_zero, Nat.add_zero]

theorem memset_apply (h : dest + n ≤ 2 ^ 32) : memset dest val n m x =
    if dest ≤ x ∧ x < dest + n then UInt8.ofNat val else m x := by
  induction n with
  | zero => rw [memset, if_neg (by omega)]
  | succ n ih =>
    have hlt : dest + n < 2 ^ 32 := by omega
    rw [memset, u32, Nat.mod_eq_of_lt hlt, store8_eq hlt, Function.update_apply, ih (by omega)]
    by_cases hx : x = dest + n
    · rw [if_pos hx, if_pos (by omega)]
    · rw [if_neg hx]
      exact if_congr (by omega) rfl rfl

/-- The bytes may overlap when they move down. -/
theorem memcopy_apply (h : dest + n ≤ 2 ^ 32) (hs : source + n ≤ 2 ^ 32)
    (hdown : source + n ≤ dest ∨ dest ≤ source) : memcopy source dest n m x =
      if dest ≤ x ∧ x < dest + n then m (source + (x - dest)) else m x := by
  induction n generalizing x with
  | zero => rw [memcopy, if_neg (by omega)]
  | succ n ih =>
    have hlt : dest + n < 2 ^ 32 := by omega
    have hlt' : source + n < 2 ^ 32 := by omega
    have hsource : memcopy source dest n m (source + n) = m (source + n) := by
      rw [ih (by omega) (by omega) (by omega), if_neg (by omega)]
    simp only [memcopy, u32]
    rw [Nat.mod_eq_of_lt hlt, Nat.mod_eq_of_lt hlt', store8_eq hlt, load8_eq hlt', hsource,
      UInt8.ofNat_toNat, Function.update_apply, ih (by omega) (by omega) (by omega)]
    by_cases hx : x = dest + n
    · rw [if_pos hx, if_pos (by omega), hx, Nat.add_sub_cancel_left]
    · rw [if_neg hx]
      exact if_congr (by omega) rfl rfl

theorem touches_memset (h : dest + n ≤ 2 ^ 32) (hP : ∀ x, dest ≤ x → x < dest + n → x ∈ P) :
    Touches (2 ^ 32) P m (memset dest val n m) := by
  intro x _ hx
  rw [memset_apply h, if_neg fun hr => hx (hP x hr.1 hr.2)]

theorem touches_memcopy (h : dest + n ≤ 2 ^ 32) (hP : ∀ x, dest ≤ x → x < dest + n → x ∈ P) :
    Touches (2 ^ 32) P m (memcopy source dest n m) := by
  induction n with
  | zero => exact .refl _ _ _
  | succ n ih =>
    refine (ih (by omega) fun x hx hx' => hP x hx (by omega)).trans ?_
    have haddr : u32 (dest + n) = dest + n := Nat.mod_eq_of_lt (by omega)
    rw [memcopy, haddr]
    exact touches_store (by omega) fun x hx hx' => hP x (by omega) (by omega)

theorem touches_storeWords (h : dest + 4 * n ≤ 2 ^ 32)
    (hP : ∀ x, dest ≤ x → x < dest + 4 * n → x ∈ P) :
    Touches (2 ^ 32) P m (storeWords dest words n m) := by
  induction n with
  | zero => exact .refl _ _ _
  | succ n ih =>
    refine (ih (by omega) fun x hx hx' => hP x hx (by omega)).trans ?_
    have haddr : u32 (dest + 4 * n) = dest + 4 * n := Nat.mod_eq_of_lt (by omega)
    rw [storeWords, haddr]
    exact touches_store (by omega) fun x hx hx' => hP x (by omega) (by omega)

end Loops

def sizeofVMArea : ℕ := 32

def sizeofMemDesc : ℕ := 52

def vmaReg : ℕ := 0

def vmaStack : ℕ := 1

/-- A whole `VMArea`, at the address `addr`. -/
structure VmRegion extends VMArea where
  addr : ℕ
  size : ℕ
  flags : ℕ
  type : ℕ

def createVmregion (baseAddress endAddress physStart flags type : ℕ) (h : Heap) :
    Outcome Heap VmRegion :=
  (kmalloc sizeofVMArea h).bind fun outRegion h =>
    .ok { start := baseAddress, «end» := endAddress, physStart, addr := outRegion
          size := u32 (endAddress + (2 ^ 32 - baseAddress)), flags, type } h

/-- `addr` is its own address, `vmAreas` the list of `vm_areas`. -/
structure MemDesc where
  addr : ℕ
  pageDirectory : ℕ
  vmAreas : List VmRegion

def MemDesc.areas (mem : MemDesc) : List VMArea := mem.vmAreas.map VmRegion.toVMArea

/-- `kmalloc(sizeof(MemDesc))`, `LIST_INIT`, a page for the directory and `init_user_paging` on it. -/
def newMemDesc (kernelPageDirectory : Entries) (h : Heap) : Outcome Heap MemDesc :=
  (kmalloc sizeofMemDesc h).bind fun addr h =>
  ((kallocPage 0 h).bind fun pageDirectory h => .ok pageDirectory { h with
    mem := storeWords pageDirectory (initUserPaging kernelPageDirectory) 1024 h.mem }).bind
  fun pageDirectory h => .ok { addr, pageDirectory, vmAreas := [] } h

/-- `kalloc_page(0)` and `memset`. -/
def zeroedPage (h : Heap) : Outcome Heap ℕ :=
  (kallocPage 0 h).bind fun page h => .ok page { h with mem := memset page 0 pageSize h.mem }

section Specs
variable {L : Layout} {v : HeapView} {fill : Memory → ℕ → Memory}

theorem touches_page_memset (val ptr : ℕ) (m : Memory) (h : ptr + 4096 ≤ 2 ^ 32) :
    Touches (2 ^ 32) (blockAt ptr 0) m (memset ptr val pageSize m) :=
  touches_memset h fun _ hx hx' => ⟨hx, hx'⟩

theorem zeroedPage_spec (hi : v.Inv L) : Allocates L 1 v (zeroedPage v.heap)
    fun page v' => NewPage L v v' (memset · 0 pageSize v.heap.mem) page :=
  allocates_page hi (touches_page_memset 0)

theorem vmRegion_fields {vm : VmRegion} {start endAddr phys : ℕ}
    (h : vm.toVMArea = ⟨start, endAddr, phys⟩) :
    vm.start = start ∧ vm.end = endAddr ∧ vm.physStart = phys :=
  ⟨congrArg VMArea.start h, congrArg VMArea.end h, congrArg VMArea.physStart h⟩

theorem createVmregion_spec (hi : v.Inv L) (start endAddr phys flags type : ℕ) :
    Allocates L 1 v (createVmregion start endAddr phys flags type v.heap) fun vm _ =>
      vm.toVMArea = ⟨start, endAddr, phys⟩ ∧ vm.flags = flags ∧ vm.type = type :=
  (allocates_kmalloc hi (n := sizeofVMArea) (by decide)).then_pure fun _ _ _ _ => ⟨_, rfl, rfl, rfl, rfl⟩

theorem newMemDesc_spec (hi : v.Inv L) (kernelPageDirectory : Entries) :
    Allocates L 2 v (newMemDesc kernelPageDirectory v.heap) fun mem _ => mem.vmAreas = [] := by
  change Allocates L (1 + 1) v _ _
  refine (allocates_kmalloc hi (n := sizeofMemDesc) (by decide)).bind fun addr v₁ hg₁ _ => ?_
  refine (allocates_page hg₁.inv fun ptr m hptr => ?_).then_pure fun _ _ _ _ => ⟨_, rfl, rfl⟩
  exact touches_storeWords hptr fun x hx hx' => ⟨hx, hx'⟩

end Specs

end X86Osdev.Mem

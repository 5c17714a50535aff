import X86Osdev.Mem.ClientMemory
import X86Osdev.Proc.UserThread

/-! `sys_clone` of proc/clone.c. -/

namespace X86Osdev.Proc
open X86Osdev.Lib X86Osdev.Mem ByteMemory

def cloneVmFlag : ℕ := 2

def cloneArea (cloneVm : Bool) (area : VmRegion) (h : Heap) : Outcome Heap VmRegion :=
  if cloneVm then createVmregion area.start area.end area.physStart area.flags area.type h
  else (kmalloc area.size h).bind fun physArea h =>
    createVmregion area.start area.end (pa physArea) area.flags area.type h

/-- The loop over `vm_areas`, which passes by the stack. -/
def cloneAreas (cloneVm : Bool) : List VmRegion → Heap → Outcome Heap (List VmRegion)
  | [], h => .ok [] h
  | area :: rest, h =>
    if area.type = vmaStack then cloneAreas cloneVm rest h
    else (cloneArea cloneVm area h).bind fun vma h =>
      (cloneAreas cloneVm rest h).bind fun vmas h => .ok (vma :: vmas) h

/-- The address of the frame, a stack offset below the one of `create_user_thread`. -/
def cloneEsp (userStackBot stackPtr : ℕ) : ℕ :=
  let userStackOffset := u32 (userStackTop + (2 ^ 32 - stackPtr))
  u32 (userStackBot + pageSize - uEspSize * 4 + (2 ^ 32 - userStackOffset))

/-- The part of `sys_clone` that makes the child and its memory; the name is `clone`. -/
def sysClone (kernelPageDirectory : Entries) (current : UserThread) (entry stackPtr flags : ℕ)
    (h : Heap) : Outcome Heap UserThread :=
  let cloneVm := flags &&& cloneVmFlag != 0
  (newMemDesc kernelPageDirectory h).bind fun threadMem h =>
  (cloneAreas cloneVm current.mem.vmAreas h).bind fun areas h =>
  let threadMem := { threadMem with vmAreas := threadMem.vmAreas ++ areas }
  (createUserThread entry threadMem stackPtr 5 h).bind fun t h =>
  (stackRegion t h).bind fun stack h =>
    let m := memcopy current.userStackBot t.userStackBot pageSize h.mem
    let esp := cloneEsp t.userStackBot stackPtr
    .ok { t with mem := { t.mem with vmAreas := t.mem.vmAreas ++ [stack] }, esp, retValue := 0 }
      { h with mem := setUserEsp esp entry stackPtr m }

structure CloneOf (L : Layout) (v v' : HeapView) (cloneVm : Bool) (area vm : VmRegion) : Prop where
  start : vm.start = area.start
  ends : vm.end = area.end
  flags : vm.flags = area.flags
  type : vm.type = area.type
  shared : cloneVm = true → vm.physStart = area.physStart
  own : cloneVm = false → maxSlabSize < area.size → ∃ ptr order, vm.physStart = pa ptr ∧
    area.size ≤ 4096 * 2 ^ order ∧ ptr + 4096 * 2 ^ order ≤ 2 ^ 32 ∧
      Fresh L v v' (blockAt ptr order) ∧ ∀ x ∈ blockAt ptr order, v'.heap.mem x = v.heap.mem x

def notStack (areas : List VmRegion) : List VmRegion := areas.filter (·.type ≠ vmaStack)

section Areas
variable {L : Layout} {v v' v'' : HeapView} {k : ℕ} {cloneVm : Bool} {area vm : VmRegion}
  {areas : List VmRegion}

theorem forall₂_left {α β : Type} {R : α → β → Prop} {xs : List α} {ys : List β} {x : α}
    (h : List.Forall₂ R xs ys) (hx : x ∈ xs) : ∃ y ∈ ys, R x y := by
  induction h with
  | nil => exact absurd hx List.not_mem_nil
  | cons hab _ ih =>
    rcases List.mem_cons.mp hx with rfl | hx
    · exact ⟨_, List.mem_cons_self .., hab⟩
    · obtain ⟨y, hy, hxy⟩ := ih hx
      exact ⟨y, List.mem_cons_of_mem _ hy, hxy⟩

theorem CloneOf.later (hc : CloneOf L v v' cloneVm area vm) (hg : Grows L k v' v'') :
    CloneOf L v v'' cloneVm area vm where
  start := hc.start
  ends := hc.ends
  flags := hc.flags
  type := hc.type
  shared := hc.shared
  own hvm hsize := by
    obtain ⟨ptr, order, hphys, hle, hfits, hfresh, hmem⟩ := hc.own hvm hsize
    exact ⟨ptr, order, hphys, hle, hfits, hfresh.later hg, fun x hx =>
      (hg.kept x (hfresh x hx).1).trans (hmem x hx)⟩

theorem CloneOf.earlier (hc : CloneOf L v' v'' cloneVm area vm) (hg : Grows L k v v')
    {k' : ℕ} (hg' : Grows L k' v' v'') : CloneOf L v v'' cloneVm area vm where
  start := hc.start
  ends := hc.ends
  flags := hc.flags
  type := hc.type
  shared := hc.shared
  own hvm hsize := by
    obtain ⟨ptr, order, hphys, hle, hfits, hfresh, hmem⟩ := hc.own hvm hsize
    exact ⟨ptr, order, hphys, hle, hfits, hfresh.earlier hg, fun x hx =>
      (hmem x hx).trans (hg.vacant x (hfresh.vacant hg.inv hg' hx)).2⟩

theorem cloneArea_spec (hi : v.Inv L) : Returns L v (cloneArea cloneVm area v.heap) fun vm v' =>
    CloneOf L v v' cloneVm area vm := by
  unfold cloneArea
  cases cloneVm with
  | true =>
    rw [if_pos rfl]
    refine ((createVmregion_spec hi ..).mono fun vm v' hg ⟨hvm, hflags, htype⟩ => ?_).returns
    obtain ⟨hstart, hend, hphys⟩ := vmRegion_fields hvm
    exact ⟨hstart, hend, hflags, htype, fun _ => hphys, fun h => absurd h (by decide)⟩
  | false =>
    rw [if_neg Bool.false_ne_true]
    refine (returns_kmalloc hi area.size).bind fun ptr v₁ k hg₁ hptr => ?_
    have hspec := createVmregion_spec hg₁.inv area.start area.end (pa ptr) area.flags area.type
    refine (hspec.mono fun vm v₂ hg₂ ⟨hvm, hflags, htype⟩ => ?_).returns
    obtain ⟨hstart, hend, hphys⟩ := vmRegion_fields hvm
    refine ⟨hstart, hend, hflags, htype, fun h => absurd h (by decide), fun _ hsize => ?_⟩
    obtain ⟨order, hblock⟩ := hptr hsize
    have hkept : ∀ x ∈ blockAt ptr order, v₂.heap.mem x = v.heap.mem x := fun x hx =>
      (hg₂.kept x (hblock.fresh x hx).1).trans (congrFun hblock.mem x)
    exact ⟨ptr, order, hphys, hblock.large, hblock.fits, hblock.fresh.later hg₂, hkept⟩

theorem cloneAreas_spec (hi : v.Inv L) (areas : List VmRegion) :
    Returns L v (cloneAreas cloneVm areas v.heap) fun vmas v' =>
      List.Forall₂ (CloneOf L v v' cloneVm) (notStack areas) vmas := by
  induction areas generalizing v with
  | nil => exact .pure hi .nil
  | cons area rest ih =>
    unfold cloneAreas notStack
    by_cases htype : area.type = vmaStack
    · rw [if_pos htype, List.filter_cons_of_neg (by simpa using htype)]
      exact ih hi
    · rw [if_neg htype, List.filter_cons_of_pos (by simpa using htype)]
      refine (cloneArea_spec hi).bind fun vma v₁ k₁ hg₁ hvma => ?_
      refine (ih hg₁.inv).bind fun vmas v₂ k₂ hg₂ hvmas => ?_
      exact .pure hg₂.inv (.cons (hvma.later hg₂) (hvmas.imp fun _ _ h => h.earlier hg₁ hg₂))

end Areas

/-- The child when its memory has been taken, before the copy of the stack; `v₂` is the heap with its
areas. -/
structure Cloned (L : Layout) (v v₂ v' : HeapView) (current child : UserThread) (stackPtr flags : ℕ) :
    Prop where
  areas : ∃ vmas stack, child.mem.vmAreas = vmas ++ [stack] ∧
    List.Forall₂ (CloneOf L v v₂ (flags &&& cloneVmFlag != 0)) (notStack current.mem.vmAreas) vmas ∧
      stack.toVMArea = ⟨userStackTop - pageSize, userStackTop, pa child.userStackBot⟩ ∧
        stack.type = vmaStack
  stack : Fresh L v₂ v' (blockAt child.userStackBot 0)
  fits : child.userStackBot + 4096 ≤ 2 ^ 32
  esp : child.esp = cloneEsp child.userStackBot stackPtr
  retValue : child.retValue = 0

section Child
variable {L : Layout} {v : HeapView} {current child : UserThread} {entry stackPtr flags : ℕ}
  {kernelPageDirectory : Entries} {h' : Heap}

theorem sysClone_spec (hi : v.Inv L)
    (hok : sysClone kernelPageDirectory current entry stackPtr flags v.heap = .ok child h') :
    ∃ k₂ k' v₂ v', Grows L k₂ v v₂ ∧ Grows L k' v₂ v' ∧
      Cloned L v v₂ v' current child stackPtr flags ∧
      h'.mem = setUserEsp child.esp entry stackPtr
        (memcopy current.userStackBot child.userStackBot pageSize v'.heap.mem) := by
  unfold sysClone at hok
  obtain ⟨mem, h₁, hok₁, hok⟩ := Outcome.bind_eq_ok.mp hok
  obtain ⟨v₁, rfl, hg₁, hmem⟩ := (newMemDesc_spec hi kernelPageDirectory).ok hok₁
  obtain ⟨areas, h₂, hok₂, hok⟩ := Outcome.bind_eq_ok.mp hok
  obtain ⟨k₂, v₂, rfl, hg₂, hareas⟩ := cloneAreas_spec hg₁.inv _ _ _ hok₂
  obtain ⟨t, h₃, hok₃, hok⟩ := Outcome.bind_eq_ok.mp hok
  obtain ⟨v₃, rfl, hg₃, ht⟩ := (createUserThread_spec hg₂.inv (by decide)).ok hok₃
  obtain ⟨stack, h₄, hok₄, hok⟩ := Outcome.bind_eq_ok.mp hok
  obtain ⟨v₄, rfl, hg₄, hstack⟩ := (createVmregion_spec hg₃.inv ..).ok hok₄
  obtain ⟨rfl, rfl⟩ := Outcome.ok.inj hok
  refine ⟨_, _, v₂, v₄, hg₁.trans hg₂, hg₃.trans hg₄, ⟨⟨areas, stack, ?_, ?_, hstack.1, hstack.2.2⟩,
    ht.fresh.later hg₄, ht.fits, rfl, rfl⟩, rfl⟩
  · show t.mem.vmAreas ++ [stack] = _
    rw [ht.desc, hmem, List.nil_append]
  · exact hareas.imp fun _ _ h => h.earlier hg₁ hg₂

end Child

/-- `vma->phys_start + (a - vma->start)`. -/
def physOf (vma : VMArea) (a : ℕ) : ℕ := u32 (vma.physStart + (a - vma.start))

/-- A thread whose areas are whole pages as `create_vmregion` makes them, with a user stack page. -/
structure Parent (σ : Sys) (t : UserThread) : Prop where
  words : ∀ area ∈ t.mem.vmAreas, area.start < 2 ^ 32 ∧ area.end < 2 ^ 32
  aligned : ∀ area ∈ t.mem.vmAreas, area.start % pageSize = 0 ∧ area.end % pageSize = 0
  size : ∀ area ∈ t.mem.vmAreas, area.size = u32 (area.end + (2 ^ 32 - area.start))
  stack : ∀ x ∈ blockAt t.userStackBot 0, Apart σ x

/-- The address space of the parent, as the child is to have it. -/
structure Duplicates (σ : Sys) (m' : Memory) (parent child : UserThread) (entry stackPtr flags : ℕ) :
    Prop where
  areas : ∀ area ∈ notStack parent.mem.vmAreas, ∃ vm ∈ child.mem.vmAreas,
    vm.start = area.start ∧ vm.end = area.end ∧ vm.flags = area.flags ∧ vm.type = area.type ∧
      ∀ a, area.start ≤ a → a < area.end →
        if flags &&& cloneVmFlag ≠ 0 then physOf vm.toVMArea a = physOf area.toVMArea a
        else m' (va (physOf vm.toVMArea a)) = σ.heap.mem (va (physOf area.toVMArea a)) ∧
          FreeByte σ (va (physOf vm.toVMArea a))
  stack : ∀ i < pageSize, stackPtr ≤ userStackTop - pageSize + i →
    m' (child.userStackBot + i) = m' (parent.userStackBot + i)
  entry : load32 m' (u32 (child.esp + 20)) = entry
  stackPtr : load32 m' (u32 (child.esp + 32)) = stackPtr
  retValue : child.retValue = 0

/-- The memory is shared, or there is none but the stack. -/
def NothingToCopy (parent : UserThread) (flags : ℕ) : Prop :=
  flags &&& cloneVmFlag ≠ 0 ∨ ∀ area ∈ notStack parent.mem.vmAreas, area.end ≤ area.start

/-- No free byte is one that the parent has in an area. -/
def NoStaleByte (σ : Sys) (parent : UserThread) : Prop :=
  ∀ area ∈ notStack parent.mem.vmAreas, ∀ a, area.start ≤ a → a < area.end →
    ∀ x, FreeByte σ x → σ.heap.mem x ≠ σ.heap.mem (va (physOf area.toVMArea a))

section Duplication
variable {L : Layout} {c : Cache} {σ : Sys} {v₂ v' : HeapView} {k₂ k' : ℕ} {parent child : UserThread}
  {entry stackPtr flags : ℕ} {m' : Memory}

theorem cloneEsp_eq {bot : ℕ} (hlow : userStackTop - 4056 ≤ stackPtr) (hhigh : stackPtr ≤ userStackTop)
    (hfits : bot + 4096 ≤ 2 ^ 32) :
    cloneEsp bot stackPtr + 40 = bot + (stackPtr - (userStackTop - pageSize)) := by
  unfold userStackTop at hlow hhigh
  unfold cloneEsp u32 userStackTop pageSize uEspSize
  dsimp only
  omega

variable (hi : SysInv L c σ) (hg₂ : Grows L k₂ (σ.view c) v₂)
  (hc : Cloned L (σ.view c) v₂ v' parent child stackPtr flags) (hp : Parent σ parent)
  (hm' : m' = setUserEsp child.esp entry stackPtr
    (memcopy parent.userStackBot child.userStackBot pageSize v'.heap.mem))
  (hlow : userStackTop - 4056 ≤ stackPtr) (hhigh : stackPtr ≤ userStackTop)

include hi hg₂ hp in
theorem Parent.settled : ∀ x ∈ blockAt parent.userStackBot 0, Settled L v₂ x := fun x hx =>
  hg₂.settled x (hi.settled_iff.mpr (hp.stack x hx))

include hc hlow hhigh in
theorem Cloned.frame : child.esp + 40 = child.userStackBot + (stackPtr - (userStackTop - pageSize)) ∧
    child.userStackBot ≤ child.esp ∧ child.esp + 40 ≤ child.userStackBot + 4096 := by
  have hesp : child.esp + 40 = _ := hc.esp ▸ cloneEsp_eq hlow hhigh hc.fits
  refine ⟨hesp, ?_⟩
  rw [hesp]
  unfold userStackTop at hlow hhigh
  unfold userStackTop pageSize at hesp ⊢
  omega

include hi hg₂ hc hp hm' hlow hhigh

theorem Cloned.stack_mem {x : ℕ} (hx : x < 2 ^ 32) (hout : x < child.esp ∨ child.esp + 40 ≤ x) :
    m' x = if x ∈ blockAt child.userStackBot 0 then
      v'.heap.mem (parent.userStackBot + (x - child.userStackBot)) else v'.heap.mem x := by
  have hset := hp.settled hi hg₂
  have hfits := hc.fits
  obtain ⟨hesp, hbot, hend⟩ := hc.frame hlow hhigh
  have hlast := (hset (parent.userStackBot + 4095) ⟨Nat.le_add_right _ _, by omega⟩).word
  have hframe : Touches (2 ^ 32) (Set.Ico child.esp (child.esp + 40))
      (memcopy parent.userStackBot child.userStackBot pageSize v'.heap.mem) m' := by
    rw [hm']
    exact touches_setUserEsp (by omega) fun x h₁ h₂ => ⟨h₁, h₂⟩
  have hx' : x ∉ Set.Ico child.esp (child.esp + 40) := by
    rintro ⟨h₁, h₂⟩
    omega
  have hdown := (hc.stack.apart hset).imp_right fun hle => (Nat.le_add_right _ _).trans hle
  have hcopy := @memcopy_apply child.userStackBot parent.userStackBot pageSize x v'.heap.mem hfits
    (show parent.userStackBot + 4096 ≤ 2 ^ 32 by omega) hdown
  rw [hframe x hx hx', hcopy]
  rfl

/-- The child gets the stack of the parent from `stackPtr` on. -/
theorem Cloned.copied {i : ℕ} (hip : i < pageSize) (hptr : stackPtr ≤ userStackTop - pageSize + i) :
    m' (child.userStackBot + i) = v'.heap.mem (parent.userStackBot + i) := by
  have hfits := hc.fits
  obtain ⟨hesp, -⟩ := hc.frame hlow hhigh
  change i < 4096 at hip
  rw [hc.stack_mem hi hg₂ hp hm' hlow hhigh (by omega) (.inr (by omega)),
    if_pos ⟨Nat.le_add_right _ _, Nat.add_lt_add_left hip _⟩, Nat.add_sub_cancel_left]

theorem Cloned.kept {x : ℕ} (hx : Settled L v₂ x) : m' x = v'.heap.mem x := by
  have hout : x ∉ blockAt child.userStackBot 0 := fun hin => (hc.stack x hin).2 hx
  obtain ⟨-, hbot, hend⟩ := hc.frame hlow hhigh
  have hx' : x < child.esp ∨ child.esp + 40 ≤ x := by
    rw [Set.mem_Ico] at hout
    omega
  rw [hc.stack_mem hi hg₂ hp hm' hlow hhigh hx.word hx', if_neg hout]

theorem Cloned.duplicates (hentry : entry < 2 ^ 32) (hnothing : NothingToCopy parent flags) :
    Duplicates σ m' parent child entry stackPtr flags where
  areas area harea := by
    obtain ⟨vmas, stack, hareas, hall, -⟩ := hc.areas
    obtain ⟨vm, hvm, hclone⟩ := forall₂_left hall harea
    refine ⟨vm, hareas ▸ List.mem_append_left _ hvm, hclone.start, hclone.ends, hclone.flags,
      hclone.type, fun a hlow hhigh => ?_⟩
    by_cases hflag : flags &&& cloneVmFlag ≠ 0
    · rw [if_pos hflag, physOf, physOf, hclone.shared (bne_iff_ne.mpr hflag), hclone.start]
    · have hempty := hnothing.resolve_left hflag area harea
      omega
  stack i hip hptr := by
    have hset := hp.settled hi hg₂ (parent.userStackBot + i)
      ⟨Nat.le_add_right _ _, Nat.add_lt_add_left hip _⟩
    rw [hc.copied hi hg₂ hp hm' hlow hhigh hip hptr, hc.kept hi hg₂ hp hm' hlow hhigh hset]
  entry := by
    have hfits := hc.fits
    have hframe := hc.frame hlow hhigh
    rw [hm']
    exact (setUserEsp_frame (by omega) hentry (hhigh.trans_lt (by decide))).1
  stackPtr := by
    have hfits := hc.fits
    have hframe := hc.frame hlow hhigh
    rw [hm']
    exact (setUserEsp_frame (by omega) hentry (hhigh.trans_lt (by decide))).2
  retValue := hc.retValue

theorem Cloned.stale (hg' : Grows L k' v₂ v')
    (hdup : Duplicates σ m' parent child entry stackPtr flags) (hstale : NoStaleByte σ parent) :
    NothingToCopy parent flags := by
  by_contra hnot
  obtain ⟨hflag, hsome⟩ := not_or.mp hnot
  obtain ⟨area, harea⟩ := not_forall.mp hsome
  obtain ⟨hmem, hlt⟩ := Classical.not_imp.mp harea
  obtain ⟨vm, hvm, hstart, hend, -, htype, hbytes⟩ := hdup.areas area hmem
  have hbyte := hbytes area.start le_rfl (Nat.lt_of_not_le hlt)
  rw [if_neg hflag] at hbyte
  obtain ⟨hbyte, hfree⟩ := hbyte
  obtain ⟨vmas, stack, hareas, hall, -, hstack⟩ := hc.areas
  obtain ⟨hmem₁, htype₁⟩ := List.mem_filter.mp hmem
  have hnostack : area.type ≠ vmaStack := by simpa using htype₁
  rw [hareas, List.mem_append, List.mem_singleton] at hvm
  rcases hvm with hvm | rfl
  swap
  · exact hnostack (htype.symm.trans hstack)
  obtain ⟨area', hmem', hclone⟩ := forall₂_left hall.flip hvm
  have hmem₂ := (List.mem_filter.mp hmem').1
  -- the area that `vm` was made for has the same addresses
  have hsize : area'.size = area.end - area.start := by
    have hwords := hp.words area hmem₁
    rw [hp.size area' hmem₂, ← hclone.start, ← hclone.ends, hstart, hend]
    unfold u32
    omega
  have hlarge : maxSlabSize < area'.size := by
    have hal := hp.aligned area hmem₁
    rw [hsize]
    unfold pageSize at hal
    unfold maxSlabSize
    omega
  obtain ⟨ptr, order, hphys, -, hfits, hfresh, hsame⟩ :=
    hclone.own (bne_eq_false_iff_eq.mpr (not_not.mp hflag)) hlarge
  have hin : ptr ∈ blockAt ptr order := ⟨le_rfl, Nat.lt_add_of_pos_right (by positivity)⟩
  have hptr : va (physOf vm.toVMArea area.start) = ptr := by
    have hk := hfresh.kernel
    have hword := (hfresh ptr hin).1.word
    rw [physOf, hphys, hstart, Nat.sub_self, Nat.add_zero]
    unfold kernelVirtualAddressBase at hk
    unfold va pa u32 kernelVirtualAddressBase
    omega
  rw [hptr] at hbyte hfree
  have hset := (hfresh ptr hin).1
  have hcontents : m' ptr = σ.heap.mem ptr := by
    rw [hc.kept hi hg₂ hp hm' hlow hhigh hset, hg'.kept ptr hset, hsame ptr hin]
    rfl
  exact hstale area hmem _ le_rfl (Nat.lt_of_not_le hlt) ptr hfree (hcontents.symm.trans hbyte)

end Duplication

section Calls
variable {totalPages entry stackPtr flags : ℕ} {σ : Sys} {parent child : UserThread} {h' : Heap}
  {kernelPageDirectory : Entries}

def smallParent (p q : ℕ) : UserThread where
  addr := 0
  mem := ⟨0, 0, [⟨⟨0x1000, 0x2000, pa (pageAddr q)⟩, 0, 4096, 7, vmaReg⟩,
    ⟨⟨userStackTop - pageSize, userStackTop, pa (pageAddr p)⟩, 0, 4096, 7, vmaStack⟩]⟩
  pageDir := 0
  userStackBot := pageAddr p
  kernelStackBot := 0
  esp := 0
  tss := 0
  retValue := noRetVal
  command := 0

theorem parent_small {f : ℕ → UInt8} {L : Layout} {c : Cache} {p q : ℕ}
    (h : TwoPages f L c σ p q) : Parent σ (smallParent p q) := by
  have hareas : ∀ {P : VmRegion → Prop}, P ⟨⟨0x1000, 0x2000, pa (pageAddr q)⟩, 0, 4096, 7, vmaReg⟩ →
      P ⟨⟨userStackTop - pageSize, userStackTop, pa (pageAddr p)⟩, 0, 4096, 7, vmaStack⟩ →
      ∀ area ∈ (smallParent p q).mem.vmAreas, P area := by
    intro P h₁ h₂ area harea
    rcases List.mem_cons.mp harea with rfl | harea
    · exact h₁
    · obtain rfl := List.mem_singleton.mp harea
      exact h₂
  have hword : 0x1000 < 2 ^ 32 ∧ 0x2000 < 2 ^ 32 := by decide
  have hstack : userStackTop - pageSize < 2 ^ 32 ∧ userStackTop < 2 ^ 32 := by decide
  have hpages : 0x1000 % pageSize = 0 ∧ 0x2000 % pageSize = 0 := by decide
  have htop : (userStackTop - pageSize) % pageSize = 0 ∧ userStackTop % pageSize = 0 := by decide
  have hsize : 4096 = u32 (0x2000 + (2 ^ 32 - 0x1000)) := by decide
  have hsize' : 4096 = u32 (userStackTop + (2 ^ 32 - (userStackTop - pageSize))) := by decide
  refine ⟨hareas hword hstack, hareas hpages htop, hareas hsize hsize', fun x hx => ?_⟩
  have hset := HeapInv.block_settled (v := σ.view c) h.inv.heap h.pages.1 hx
  exact h.inv.settled_iff.mp hset

theorem smallClone (flags : ℕ) : ∃ L c σ p q child h', TwoPages (fun _ => 0) L c σ p q ∧
    sysClone (fun _ => 0) (smallParent p q) 0x1000 userStackTop flags σ.heap = .ok child h' := by
  obtain ⟨L, c, σ, p, q, htwo⟩ := heapReach_pages fun _ => 0
  have hroom := htwo.room
  have harea : ∀ v' : HeapView, v'.Inv L → Allocates L 2 v'
      (cloneAreas (flags &&& cloneVmFlag != 0) (smallParent p q).mem.vmAreas v'.heap)
      fun _ _ => True := by
    intro v' hi'
    have hcreate := fun (w : HeapView) (hw : w.Inv L) phys =>
      createVmregion_spec hw 0x1000 0x2000 phys 7 vmaReg
    have hone : Allocates L 2 v' (cloneArea (flags &&& cloneVmFlag != 0)
        ⟨⟨0x1000, 0x2000, pa (pageAddr q)⟩, 0, 4096, 7, vmaReg⟩ v'.heap) fun _ _ => True := by
      unfold cloneArea
      split
      · exact ((hcreate v' hi' _).mono fun _ _ _ _ => trivial).grow (by decide)
      · have hpage : Allocates L 1 v' (kmalloc 4096 v'.heap) fun _ _ => True :=
          allocates_kallocPage hi'
        change Allocates L (1 + 1) v' _ _
        exact hpage.bind fun ptr w hg _ => (hcreate w hg.inv _).mono fun _ _ _ _ => trivial
    exact hone.then_pure fun _ _ _ _ => ⟨_, rfl, trivial⟩
  obtain ⟨mem, v₁, hok₁, hg₁, -⟩ :=
    (@newMemDesc_spec L (σ.view c) htwo.inv.heap fun _ => 0).exists_ok (by omega)
  have hused₁ := hg₁.used
  obtain ⟨areas, v₂, hok₂, hg₂, -⟩ := (harea v₁ hg₁.inv).exists_ok (by omega)
  have hused₂ := hg₂.used
  have hthread := @createUserThread_spec L v₂ 0x1000 userStackTop 5
    { mem with vmAreas := mem.vmAreas ++ areas } hg₂.inv (by decide)
  obtain ⟨t, v₃, hok₃, hg₃, -⟩ := hthread.exists_ok (by omega)
  have hused₃ := hg₃.used
  have hstack := createVmregion_spec hg₃.inv (userStackTop - pageSize) userStackTop
    (pa t.userStackBot) 7 vmaStack
  obtain ⟨stack, v₄, hok₄, -, -⟩ := hstack.exists_ok (by omega)
  have hok : ∃ child h', sysClone (fun _ => 0) (smallParent p q) 0x1000 userStackTop flags σ.heap =
      .ok child h' := by
    have hmem : newMemDesc (fun _ => 0) σ.heap = .ok mem v₁.heap := hok₁
    unfold sysClone
    simp only [hmem, Outcome.bind_ok, hok₂, hok₃, stackRegion, hok₄]
    exact ⟨_, _, rfl⟩
  obtain ⟨child, h', hok⟩ := hok
  exact ⟨L, c, σ, p, q, child, h', htwo, hok⟩

/-- A child whose frame fits its stack page has the address space of the parent if that is shared or there
is nothing to copy; as areas are not copied, only then, but for free memory that happens to hold the right
bytes. -/
theorem clone_duplicates (hreach : HeapReach totalPages σ) (hparent : Parent σ parent)
    (hentry : entry < 2 ^ 32) (hlow : userStackTop - 4056 ≤ stackPtr)
    (hhigh : stackPtr ≤ userStackTop)
    (hok : sysClone kernelPageDirectory parent entry stackPtr flags σ.heap = .ok child h') :
    (NothingToCopy parent flags → Duplicates σ h'.mem parent child entry stackPtr flags) ∧
      (NoStaleByte σ parent → Duplicates σ h'.mem parent child entry stackPtr flags →
        NothingToCopy parent flags) := by
  obtain ⟨L, c, hi, -⟩ := hreach.sysInv
  obtain ⟨k₂, k', v₂, v', hg₂, hg', hc, hmem⟩ := sysClone_spec (v := σ.view c) hi.heap hok
  exact ⟨hc.duplicates hi hg₂ hparent hmem hlow hhigh hentry, fun hstale hdup =>
    hc.stale hi hg₂ hparent hmem hlow hhigh hg' hdup hstale⟩

theorem clone_duplicates_small : ∃ σ p q child h', HeapReach 114688 σ ∧
    sysClone (fun _ => 0) (smallParent p q) 0x1000 userStackTop cloneVmFlag σ.heap = .ok child h' ∧
      Duplicates σ h'.mem (smallParent p q) child 0x1000 userStackTop cloneVmFlag := by
  obtain ⟨L, c, σ, p, q, child, h', htwo, hok⟩ := smallClone cloneVmFlag
  exact ⟨σ, p, q, child, h', htwo.reach, hok, (clone_duplicates htwo.reach (parent_small htwo)
    (by decide) (by decide) le_rfl hok).1 (.inl (by decide))⟩

/-- Without `CLONE_VM` the child gets a page with old contents. -/
theorem clone_not_copied : ∃ σ p q child h', HeapReach 114688 σ ∧ Parent σ (smallParent p q) ∧
    sysClone (fun _ => 0) (smallParent p q) 0x1000 userStackTop 0 σ.heap = .ok child h' ∧
      ¬ Duplicates σ h'.mem (smallParent p q) child 0x1000 userStackTop 0 := by
  obtain ⟨L, c, σ, p, q, child, h', htwo, hok⟩ := smallClone 0
  have hparent := parent_small htwo
  refine ⟨σ, p, q, child, h', htwo.reach, hparent, hok, fun hdup => ?_⟩
  obtain ⟨k₂, k', v₂, v', hg₂, hg', hc, hmem⟩ := sysClone_spec (v := σ.view c) htwo.inv.heap hok
  have hareas : notStack (smallParent p q).mem.vmAreas =
      [⟨⟨0x1000, 0x2000, pa (pageAddr q)⟩, 0, 4096, 7, vmaReg⟩] := rfl
  have hnostale : NoStaleByte σ (smallParent p q) := by
    intro area harea a hlow hhigh x hx
    rw [hareas, List.mem_singleton] at harea
    subst harea
    have hfits := htwo.fits.2
    change 0x1000 ≤ a at hlow
    change a < 0x2000 at hhigh
    have hplace : va (physOf ⟨0x1000, 0x2000, pa (pageAddr q)⟩ a) = pageAddr q + (a - 0x1000) := by
      rw [pageAddr_eq] at hfits ⊢
      unfold physOf va pa u32 kernelVirtualAddressBase
      dsimp only
      omega
    rw [htwo.free x hx, hplace, htwo.bytes _ (by omega)]
    decide
  rcases hc.stale htwo.inv hg₂ hparent hmem (by decide) le_rfl hg' hdup hnostale with h | h
  · exact h rfl
  · have hempty : (0x2000 : ℕ) ≤ 0x1000 := h _ (hareas ▸ List.mem_cons_self ..)
    exact absurd hempty (by decide)

end Calls

end X86Osdev.Proc

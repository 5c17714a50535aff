import X86Osdev.Mem.Vma

/-! User threads as `create_user_thread` of proc/thread.c makes them: their stacks, the frame they start
from and the objects that belong to them. -/

namespace X86Osdev.Proc
open X86Osdev.Lib X86Osdev.Mem ByteMemory

def userStackTop : ℕ := 0xC0000000

def uEspSize : ℕ := 10

def userCs : ℕ := 27

def userDs : ℕ := 35

def noRetVal : ℕ := 0xFFFFFFFF

/-- The addresses and the part of the TCB that belong to memory; `command` is the address of the name. -/
structure UserThread where
  addr : ℕ
  mem : MemDesc
  pageDir : ℕ
  userStackBot : ℕ
  kernelStackBot : ℕ
  esp : ℕ
  tss : ℕ
  retValue : ℕ
  command : ℕ

def setUserEsp (uesp entryPoint userStack : ℕ) (m : Memory) : Memory :=
  let m := store32 m (u32 (uesp + 36)) userDs
  let m := store32 m (u32 (uesp + 32)) userStack
  let m := store32 m (u32 (uesp + 28)) 0x200
  let m := store32 m (u32 (uesp + 24)) userCs
  let m := store32 m (u32 (uesp + 20)) entryPoint
  let m := store32 m (u32 (uesp + 16)) 0
  let m := store32 m (u32 (uesp + 12)) 0
  let m := store32 m (u32 (uesp + 8)) 0
  let m := store32 m (u32 (uesp + 4)) 0
  store32 m uesp userDs

/-- The user stack of `create_user_thread`: a zeroed page with the first frame at its end. -/
def newUserStack (entryPoint stack : ℕ) (h : Heap) : Outcome Heap ℕ :=
  (kallocPage 0 h).bind fun userStack h =>
    let m := memset userStack 0 pageSize h.mem
    let esp := u32 (userStack + pageSize - uEspSize * 4)
    let m := setUserEsp esp entryPoint (if stack ≠ 0 then stack else userStackTop) m
    .ok userStack { h with mem := m }

/-- `stack` is 0 for NULL, `nameLength` the length of the name. -/
def createUserThread (entryPoint : ℕ) (mem : MemDesc) (stack nameLength : ℕ) (h : Heap) :
    Outcome Heap UserThread :=
  (kmalloc sizeofThread h).bind fun userThread h =>
  (newUserStack entryPoint stack h).bind fun userStack h =>
  (zeroedPage h).bind fun kernelStack h =>
  (kmalloc (nameLength + 1) h).bind fun procName h =>
    .ok { addr := userThread, mem
          pageDir := pa mem.pageDirectory
          userStackBot := userStack
          kernelStackBot := kernelStack
          esp := u32 (userStack + pageSize - uEspSize * 4)
          tss := u32 (kernelStack + pageSize)
          retValue := noRetVal
          command := procName } h

def stackRegion (t : UserThread) (h : Heap) : Outcome Heap VmRegion :=
  createVmregion (userStackTop - pageSize) userStackTop (pa t.userStackBot) 7 vmaStack h

section Frames
variable {uesp entry stack : ℕ} {m : Memory} {P : Set ℕ}

theorem touches_setUserEsp (h : uesp + 40 ≤ 2 ^ 32)
    (hP : ∀ x, uesp ≤ x → x < uesp + 40 → x ∈ P) :
    Touches (2 ^ 32) P m (setUserEsp uesp entry stack m) := by
  have hk : ∀ {m' : Memory} {v : ℕ} (k : ℕ), k ≤ 36 →
      Touches (2 ^ 32) P m' (store32 m' (u32 (uesp + k)) v) := by
    intro m' v k hk
    rw [u32, Nat.mod_eq_of_lt (by omega)]
    exact touches_store (by omega) fun x hx hx' => hP x (by omega) (by omega)
  have h₀ : ∀ {m' : Memory} {v : ℕ}, Touches (2 ^ 32) P m' (store32 m' uesp v) :=
    touches_store (by omega) fun x hx hx' => hP x (by omega) (by omega)
  exact (((((((((hk 36 (by decide)).trans (hk 32 (by decide))).trans (hk 28 (by decide))).trans
    (hk 24 (by decide))).trans (hk 20 (by decide))).trans (hk 16 (by decide))).trans
    (hk 12 (by decide))).trans (hk 8 (by decide))).trans (hk 4 (by decide))).trans h₀

/-- The frame returns to `entry` with the stack `stack`. -/
theorem setUserEsp_frame (h : uesp + 40 ≤ 2 ^ 32) (he : entry < 2 ^ 32) (hs : stack < 2 ^ 32) :
    load32 (setUserEsp uesp entry stack m) (u32 (uesp + 20)) = entry ∧
      load32 (setUserEsp uesp entry stack m) (u32 (uesp + 32)) = stack := by
  unfold setUserEsp load32 store32 u32
  constructor
  · simp (disch := omega) only [Nat.mod_eq_of_lt, load_store_of_disjoint, load_store_self]
  · simp (disch := omega) only [Nat.mod_eq_of_lt, load_store_of_disjoint, load_store_self]

end Frames

section Create
variable {L : Layout} {v : HeapView} {entry stack nameLength : ℕ} {mem : MemDesc}

theorem newUserStack_spec (hi : v.Inv L) :
    Allocates L 1 v (newUserStack entry stack v.heap) fun userStack v' =>
      ∃ fill, NewPage L v v' fill userStack := by
  have hfill : ∀ ptr m, ptr + 4096 ≤ 2 ^ 32 → Touches (2 ^ 32) (blockAt ptr 0) m
      (setUserEsp (u32 (ptr + pageSize - uEspSize * 4)) entry
        (if stack ≠ 0 then stack else userStackTop) (memset ptr 0 pageSize m)) := by
    intro ptr m hptr
    have haddr : u32 (ptr + pageSize - uEspSize * 4) = ptr + 4056 := by
      unfold u32 pageSize uEspSize
      omega
    rw [haddr]
    refine (touches_page_memset 0 ptr m hptr).trans (touches_setUserEsp (by omega) ?_)
    exact fun x hx hx' => ⟨by omega, by omega⟩
  exact (allocates_page hi hfill).mono fun _ _ _ hpage => ⟨_, hpage⟩

structure NewThread (L : Layout) (v v' : HeapView) (mem : MemDesc) (t : UserThread) : Prop where
  desc : t.mem = mem
  pageDir : t.pageDir = pa mem.pageDirectory
  userStack : ∃ p, t.userStackBot = pageAddr p ∧ (p, 0) ∈ v'.pages
  fresh : Fresh L v v' (blockAt t.userStackBot 0)
  fits : t.userStackBot + 4096 ≤ 2 ^ 32

theorem createUserThread_spec (hi : v.Inv L) (hname : nameLength < maxSlabSize) :
    Allocates L 4 v (createUserThread entry mem stack nameLength v.heap) fun t v' =>
      NewThread L v v' mem t := by
  change Allocates L (1 + (1 + (1 + 1))) v _ _
  refine (allocates_kmalloc hi (n := sizeofThread) (by decide)).bind fun addr v₁ hg₁ _ => ?_
  refine (newUserStack_spec hg₁.inv).bind fun userStack v₂ hg₂ ⟨fill, huser⟩ => ?_
  refine (zeroedPage_spec hg₂.inv).bind fun kernelStack v₃ hg₃ _ => ?_
  refine (allocates_kmalloc hg₃.inv hname).then_pure fun name v₄ hg₄ _ => ⟨_, rfl, ?_⟩
  obtain ⟨p, hptr, hmem⟩ := huser.block
  exact ⟨rfl, rfl, ⟨p, hptr, (hg₃.trans hg₄).pages hmem⟩,
    (huser.fresh.earlier hg₁).later (hg₃.trans hg₄), huser.fits⟩

end Create

end X86Osdev.Proc

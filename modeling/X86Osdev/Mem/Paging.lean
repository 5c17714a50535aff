import X86Osdev.Mem.HeapRuns
import X86Osdev.Mem.Page

/-! Page directories, page tables and the page fault handler of mem/paging.c, with the memory areas of
mem/vma.c that it consults. -/

namespace X86Osdev.Mem

def pfP : ℕ := 1

def pfW : ℕ := 2

def pfU : ℕ := 4

structure VMArea where
  start : ℕ
  «end» : ℕ
  physStart : ℕ
deriving DecidableEq

/-- `addr < vma->end && addr >= vma->start`. -/
def VMArea.contains (vma : VMArea) (addr : ℕ) : Bool := decide (addr < vma.end ∧ vma.start ≤ addr)

/-- The loop of `calc_pfn` over `vm_areas`; the result for no area is `-1`. -/
def calcPfn (addr : ℕ) : List VMArea → ℕ
  | [] => 2 ^ 32 - 1
  | vma :: rest =>
    if vma.contains addr then
      let virtOffset := addr - vma.start
      let physAddr := u32 (vma.physStart + virtOffset)
      physAddr >>> 12
    else calcPfn addr rest

/-- The loop of `is_valid_va`. -/
def isValidVa (va : ℕ) : List VMArea → Bool
  | [] => false
  | vma :: rest => if vma.contains va then true else isValidVa va rest

abbrev Entries := ℕ → ℕ

/-- A thread as paging sees it: `tcb.page_dir` and `mem->vm_areas`. -/
structure Space where
  pageDir : Entries
  vmAreas : List VMArea

/-- `tables` are the pages that hold page tables, by the pointers of the kernel to them; the threads
created so far have the numbers below `numThreads`. -/
structure Paging where
  heap : Heap
  kernelPageDirectory : Entries
  tables : ℕ → Entries
  threads : ℕ → Space
  numThreads : ℕ

namespace Paging

def setTable (σ : Paging) (pte : ℕ) (words : Entries) : Paging :=
  { σ with tables := Function.update σ.tables pte words }

def setPte (σ : Paging) (pte pos x : ℕ) : Paging :=
  σ.setTable pte (Function.update (σ.tables pte) pos x)

def setThreadPde (σ : Paging) (t pos x : ℕ) : Paging :=
  let dir := Function.update (σ.threads t).pageDir pos x
  { σ with threads := Function.update σ.threads t ⟨dir, (σ.threads t).vmAreas⟩ }

def setKernelPde (σ : Paging) (pos x : ℕ) : Paging :=
  { σ with kernelPageDirectory := Function.update σ.kernelPageDirectory pos x }

end Paging

def pdPos (addr : ℕ) : ℕ := addr >>> 22

def ptePos (addr : ℕ) : ℕ := addr >>> 12 &&& 0x3FF

def tablePtr (pde : ℕ) : ℕ := va (tableOf pde)

inductive FaultEnd where
  | returns
  | badArea
deriving DecidableEq

def mapPte (x pfn : ℕ) (usermode : Bool) : ℕ :=
  let x := setReadWrite (setPresent (setPfn x pfn))
  if usermode then setUsermode x else x

def newPde (pte : ℕ) (usermode : Bool) : ℕ :=
  let pdePhys := setPresent (setReadWrite (pa pte))
  if usermode then setUsermode pdePhys else pdePhys

/-- The branch of the handler without a table: a zeroed one is made. In kernel mode the kernel's own
directory gets it as well. -/
def mapNewTable (faultAddress pfn : ℕ) (usermode : Bool) (current : ℕ) (σ : Paging) :
    Outcome Paging FaultEnd :=
  ((fmalloc pageSize σ.heap).lift fun h => { σ with heap := h }).bind fun newPte σ =>
    let σ := σ.setTable newPte fun _ => 0
    let σ := σ.setPte newPte (ptePos faultAddress)
      (mapPte (σ.tables newPte (ptePos faultAddress)) pfn usermode)
    let pdePhys := newPde newPte usermode
    let σ := σ.setThreadPde current (pdPos faultAddress) pdePhys
    .ok .returns (if usermode then σ else σ.setKernelPde (pdPos faultAddress) pdePhys)

def pageFaultHandler (faultAddress errCode current : ℕ) (σ : Paging) : Outcome Paging FaultEnd :=
  let permViolation := errCode &&& pfP != 0
  let usermode := errCode &&& pfU != 0
  let kernelAddr := isKernelAddr faultAddress
  let thread := σ.threads current
  let pfn := calcPfn faultAddress thread.vmAreas
  if permViolation || usermode && kernelAddr then .ok .badArea σ
  else if usermode && !isValidVa faultAddress thread.vmAreas then .ok .badArea σ
  else if isPresent (thread.pageDir (pdPos faultAddress)) then
    let pte := tablePtr (thread.pageDir (pdPos faultAddress))
    let x := σ.tables pte (ptePos faultAddress)
    if isPresent x then .ok .returns σ
    else .ok .returns (σ.setPte pte (ptePos faultAddress) (mapPte x pfn usermode))
  else mapNewTable faultAddress pfn usermode current σ

def initUserPaging (kernelPageDirectory : Entries) : Entries := fun i =>
  if kernelPageDirectory i ≠ 0 then setReadWrite (setPresent (kernelPageDirectory i)) else 0

def makeKernelPte (pdRow : ℕ) (σ : Paging) : Outcome Paging ℕ :=
  let baseFrameNumber := pdRow * 1024
  ((kallocNosleep 0 σ.heap).lift fun h => { σ with heap := h }).bind fun pte σ =>
    .ok pte (σ.setTable pte fun i =>
      if i < 1024 then setReadWrite (setPresent (setPfn 0 (baseFrameNumber + i))) else 0)

/-- The body of the loop of `init_kernel_paging`. -/
def initKernelRow (i : ℕ) (σ : Paging) : Outcome Paging Unit :=
  let row := if i = 0 then some i else if i ≥ 768 then some (i - 768) else none
  match row with
  | none => .ok () σ
  | some pdRow => (makeKernelPte pdRow σ).bind fun pte σ =>
      .ok () (σ.setKernelPde i (setReadWrite (setPresent (pa pte))))

/-- The first `n` turns of that loop. -/
def initKernelRows : ℕ → Paging → Outcome Paging Unit
  | 0, σ => .ok () σ
  | n + 1, σ => (initKernelRows n σ).bind fun _ σ => initKernelRow n σ

def initKernelPaging (σ : Paging) : Outcome Paging Unit := initKernelRows 1024 σ

/-- `load_elf` and `sys_clone` as far as paging sees them: a new directory beside the areas. -/
def createSpace (vmAreas : List VMArea) (σ : Paging) : Paging :=
  { σ with
    threads := Function.update σ.threads σ.numThreads ⟨initUserPaging σ.kernelPageDirectory, vmAreas⟩
    numThreads := σ.numThreads + 1 }

def pdeOf (σ : Paging) (t addr : ℕ) : ℕ := (σ.threads t).pageDir (pdPos addr)

def pteOf (σ : Paging) (t addr : ℕ) : ℕ := σ.tables (tablePtr (pdeOf σ t addr)) (ptePos addr)

def mapped (σ : Paging) (t addr : ℕ) : Bool := isPresent (pdeOf σ t addr) && isPresent (pteOf σ t addr)

structure Access where
  addr : ℕ
  write : Bool
  usermode : Bool
deriving DecidableEq

def permits (σ : Paging) (t : ℕ) (a : Access) : Bool :=
  mapped σ t a.addr &&
    (!a.usermode || isUsermode (pdeOf σ t a.addr) && isUsermode (pteOf σ t a.addr))

/-- The error code that the processor pushes. -/
def errCode (σ : Paging) (t : ℕ) (a : Access) : ℕ :=
  (if mapped σ t a.addr then pfP else 0) ||| (if a.write then pfW else 0) |||
    (if a.usermode then pfU else 0)

/-- `init_kernel_paging` has run on a heap that the kernel has been using; no thread exists. -/
def PagingBoot (totalPages : ℕ) (σ : Paging) : Prop :=
  ∃ s σ₀, HeapReach totalPages s ∧ σ₀.heap = s.heap ∧ σ₀.kernelPageDirectory = (fun _ => 0) ∧
    σ₀.numThreads = 0 ∧ initKernelPaging σ₀ = .ok () σ

/-- A thread is created in a state that `allowed` admits, or the handler runs for an address inside the
areas of a thread. -/
inductive PagingStep (allowed : Paging → Prop) : Paging → Paging → Prop
  | create {σ : Paging} (vmAreas : List VMArea) :
    allowed σ → PagingStep allowed σ (createSpace vmAreas σ)
  | fault {σ σ' : Paging} {addr code t : ℕ} {e : FaultEnd} :
    t < σ.numThreads → isValidVa addr (σ.threads t).vmAreas = true →
      pageFaultHandler addr code t σ = .ok e σ' → PagingStep allowed σ σ'

def PagingReach (allowed : Paging → Prop) (totalPages : ℕ) (σ : Paging) : Prop :=
  ∃ σ₀, PagingBoot totalPages σ₀ ∧ Relation.ReflTransGen (PagingStep allowed) σ₀ σ

def anyTime (_ : Paging) : Prop := True

end X86Osdev.Mem

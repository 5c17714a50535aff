import X86Osdev.Library.Outcome
import X86Osdev.Library.CircularList
import X86Osdev.Library.DyadicTiling
import X86Osdev.Mem.Boot

/-! The buddy allocator of mem/buddy.c. -/

namespace X86Osdev.Mem
open CircularList

def maxOrder : ℕ := 10

def pagesPerBlock (order : ℕ) : ℕ := 1 <<< order

@[simp] theorem pagesPerBlock_eq (order : ℕ) : pagesPerBlock order = 2 ^ order :=
  Nat.one_shiftLeft order

structure BuddyBlockNew where
  order : ℕ
  free : Bool
  pfn : ℕ
deriving DecidableEq

def sizeofBuddyBlockNew : ℕ := 20

inductive FreeNode where
  | freeLists (order : ℕ)
  | freeList (i : ℕ)
deriving DecidableEq

/-- The member `all_buddies` is kept as its address and the headers it points to. -/
structure BuddyMemDesc where
  pfnOffset : ℕ
  totPages : ℕ
  allBuddiesAddr : ℕ
  allBuddies : ℕ → BuddyBlockNew
  links : Links FreeNode

namespace BuddyMemDesc

def setOrder (z : BuddyMemDesc) (i order : ℕ) : BuddyMemDesc :=
  { z with allBuddies := Function.update z.allBuddies i { z.allBuddies i with order := order } }

def setFree (z : BuddyMemDesc) (i : ℕ) (free : Bool) : BuddyMemDesc :=
  { z with allBuddies := Function.update z.allBuddies i { z.allBuddies i with free := free } }

def setHeader (z : BuddyMemDesc) (i : ℕ) (b : BuddyBlockNew) : BuddyMemDesc :=
  { z with allBuddies := Function.update z.allBuddies i b }

def listInit (z : BuddyMemDesc) (n : FreeNode) : BuddyMemDesc :=
  { z with links := z.links.listInit n }

def listAddHead (z : BuddyMemDesc) (order i : ℕ) : BuddyMemDesc :=
  { z with links := z.links.listAddHead (.freeLists order) (.freeList i) }

def listAddTail (z : BuddyMemDesc) (order i : ℕ) : BuddyMemDesc :=
  { z with links := z.links.listAddTail (.freeLists order) (.freeList i) }

def listRemove (z : BuddyMemDesc) (i : ℕ) : BuddyMemDesc :=
  { z with links := z.links.listRemove (.freeList i) }

section Fields
variable (z : BuddyMemDesc) (i j order : ℕ) (free : Bool) (b : BuddyBlockNew) (n : FreeNode)

@[simp] theorem order_setOrder : ((z.setOrder i order).allBuddies j).order =
    if j = i then order else (z.allBuddies j).order := by
  by_cases h : j = i <;> simp [setOrder, h]

@[simp] theorem free_setOrder : ((z.setOrder i order).allBuddies j).free = (z.allBuddies j).free := by
  by_cases h : j = i <;> simp [setOrder, h]

@[simp] theorem pfn_setOrder : ((z.setOrder i order).allBuddies j).pfn = (z.allBuddies j).pfn := by
  by_cases h : j = i <;> simp [setOrder, h]

@[simp] theorem links_setOrder : (z.setOrder i order).links = z.links := rfl

@[simp] theorem totPages_setOrder : (z.setOrder i order).totPages = z.totPages := rfl

@[simp] theorem order_setFree : ((z.setFree i free).allBuddies j).order = (z.allBuddies j).order := by
  by_cases h : j = i <;> simp [setFree, h]

@[simp] theorem free_setFree : ((z.setFree i free).allBuddies j).free =
    if j = i then free else (z.allBuddies j).free := by
  by_cases h : j = i <;> simp [setFree, h]

@[simp] theorem pfn_setFree : ((z.setFree i free).allBuddies j).pfn = (z.allBuddies j).pfn := by
  by_cases h : j = i <;> simp [setFree, h]

@[simp] theorem links_setFree : (z.setFree i free).links = z.links := rfl

@[simp] theorem totPages_setFree : (z.setFree i free).totPages = z.totPages := rfl

@[simp] theorem allBuddies_setHeader : (z.setHeader i b).allBuddies j =
    if j = i then b else z.allBuddies j := by
  simp [setHeader, Function.update_apply]

@[simp] theorem links_setHeader : (z.setHeader i b).links = z.links := rfl

@[simp] theorem totPages_setHeader : (z.setHeader i b).totPages = z.totPages := rfl

@[simp] theorem allBuddies_listInit : (z.listInit n).allBuddies = z.allBuddies := rfl

@[simp] theorem links_listInit : (z.listInit n).links = z.links.listInit n := rfl

@[simp] theorem totPages_listInit : (z.listInit n).totPages = z.totPages := rfl

@[simp] theorem allBuddies_listAddHead : (z.listAddHead order i).allBuddies = z.allBuddies := rfl

@[simp] theorem links_listAddHead : (z.listAddHead order i).links =
    z.links.listAddHead (.freeLists order) (.freeList i) := rfl

@[simp] theorem totPages_listAddHead : (z.listAddHead order i).totPages = z.totPages := rfl

@[simp] theorem allBuddies_listAddTail : (z.listAddTail order i).allBuddies = z.allBuddies := rfl

@[simp] theorem links_listAddTail : (z.listAddTail order i).links =
    z.links.listAddTail (.freeLists order) (.freeList i) := rfl

@[simp] theorem totPages_listAddTail : (z.listAddTail order i).totPages = z.totPages := rfl

@[simp] theorem allBuddies_listRemove : (z.listRemove i).allBuddies = z.allBuddies := rfl

@[simp] theorem links_listRemove : (z.listRemove i).links = z.links.listRemove (.freeList i) := rfl

@[simp] theorem totPages_listRemove : (z.listRemove i).totPages = z.totPages := rfl

end Fields

end BuddyMemDesc

/-- The first loop of `init_buddy_new`, over the first `n` list heads. -/
def initFreeLists : ℕ → BuddyMemDesc → BuddyMemDesc
  | 0, z => z
  | n + 1, z => (initFreeLists n z).listInit (.freeLists n)

/-- The second loop of `init_buddy_new`, over the first `n` headers. -/
def initHeaders : ℕ → BuddyMemDesc → BuddyMemDesc
  | 0, z => z
  | n + 1, z => ((initHeaders n z).listInit (.freeList n)).setHeader n ⟨0, false, n⟩

/-- The third loop of `init_buddy_new`, over the first `n` blocks of the top order. -/
def initTopBlocks : ℕ → BuddyMemDesc → BuddyMemDesc
  | 0, z => z
  | n + 1, z =>
    let i := n * pagesPerBlock maxOrder
    let z := (initTopBlocks n z).setFree i true
    let z := z.listAddTail maxOrder i
    z.setOrder i maxOrder

/-- `z` holds whatever the descriptor contained before; the state is `free_mem_addr` and the
descriptor. -/
def initBuddyNew (numPages pfnOffset freeMemAddr : ℕ) (z : BuddyMemDesc) :
    Outcome (ℕ × BuddyMemDesc) Unit :=
  let blocks := numPages / pagesPerBlock maxOrder
  let roundedDownPages := blocks * pagesPerBlock maxOrder
  if roundedDownPages = 0 then .panic "Memory chunk is < 4MiB\n" (freeMemAddr, z)
  else
    let (addr, freeMemAddr) :=
      bootAlloc (u32 (roundedDownPages * sizeofBuddyBlockNew)) true freeMemAddr
    let z := { z with allBuddiesAddr := addr, pfnOffset := pfnOffset, totPages := roundedDownPages }
    let z := initFreeLists (maxOrder + 1) z
    let z := initHeaders roundedDownPages z
    .ok () (freeMemAddr, initTopBlocks blocks z)

def calcBuddyPhys (b : ℕ) (z : BuddyMemDesc) : ℕ :=
  u32 ((z.pfnOffset + (z.allBuddies b).pfn) * pageSize)

/-- The index into `all_buddies`. -/
def buddyNewFromPhys (phys : ℕ) (z : BuddyMemDesc) : ℕ :=
  u32 (phys / pageSize + (2 ^ 32 - z.pfnOffset))

/-- The first turn of `list_for_each` over `free_lists[order]`, if there is one. -/
def firstFree (z : BuddyMemDesc) (order : ℕ) : Option ℕ :=
  match z.links.next (.freeLists order) with
  | .freeList found => some found
  | .freeLists _ => none

def takeBlock (found : ℕ) (z : BuddyMemDesc) : BuddyMemDesc :=
  (z.setFree found false).listRemove found

/-- The lower half of `found`, of order `order + 1`, is kept; the upper half becomes free. -/
def splitBlock (order found : ℕ) (z : BuddyMemDesc) : BuddyMemDesc :=
  let z := z.setOrder found order
  let bPfn := (z.allBuddies found).pfn + pagesPerBlock (order + 1) / 2
  let z := z.setFree bPfn true
  let z := z.setOrder bPfn order
  let z := z.listAddHead order bPfn
  z.setFree found false

/-- The body of `get_buddy_new` at order `maxOrder - d`, which calls itself one order up. -/
def getFrom : ℕ → BuddyMemDesc → Outcome BuddyMemDesc ℕ
  | 0, z =>
    match firstFree z maxOrder with
    | some found => .ok found (takeBlock found z)
    | none => .panic "No more buddy blocks available\n" z
  | d + 1, z =>
    let order := maxOrder - (d + 1)
    match firstFree z order with
    | some found => .ok found (takeBlock found z)
    | none => (getFrom d z).bind fun found z => .ok found (splitBlock order found z)

def getBuddyNew (order : ℕ) (z : BuddyMemDesc) : Outcome BuddyMemDesc ℕ :=
  if order > maxOrder then .panic "Invalid order to alloc\n" z else getFrom (maxOrder - order) z

def calcMyBuddyNewPfn (b : BuddyBlockNew) (order : ℕ) : ℕ :=
  if (b.pfn / pagesPerBlock order) % 2 = 0 then b.pfn + pagesPerBlock order
  else b.pfn - pagesPerBlock order

def calcFreeBuddy (b : ℕ) (z : BuddyMemDesc) : Outcome BuddyMemDesc (Option ℕ) :=
  let order := (z.allBuddies b).order
  if order ≥ maxOrder then .ok none z
  else
    let buddyPfn := calcMyBuddyNewPfn (z.allBuddies b) order
    let foundBuddy := z.allBuddies buddyPfn
    if foundBuddy.pfn ≠ buddyPfn then .panic "Buddy has mismatching PFN!" z
    else if foundBuddy.free = true ∧ foundBuddy.order = order then .ok (some buddyPfn) z
    else .ok none z

/-- The header that stands for the merged block. -/
def baseBiggerBlock (b buddy : ℕ) (z : BuddyMemDesc) : ℕ :=
  if (z.allBuddies b).pfn > (z.allBuddies buddy).pfn then buddy else b

def mergeBlocks (b buddy : ℕ) (z : BuddyMemDesc) : BuddyMemDesc :=
  let z := z.setFree b false
  let z := z.setFree buddy false
  let z := z.listRemove buddy
  let upperOrder := (z.allBuddies b).order + 1
  let base := baseBiggerBlock b buddy z
  let z := z.setOrder base upperOrder
  z.setFree base false

def insertBlock (b : ℕ) (z : BuddyMemDesc) : BuddyMemDesc :=
  let z := z.setFree b true
  z.listAddHead (z.allBuddies b).order b

/-- `free_buddy_new`; every call to itself raises the order, so `maxOrder` nested calls suffice. -/
def freeFrom : ℕ → ℕ → BuddyMemDesc → Outcome BuddyMemDesc Unit
  | 0, _, z => .hang z
  | fuel + 1, b, z =>
    if (z.allBuddies b).order > maxOrder then .panic "Max order exceeded in free!\n" z
    else if (z.allBuddies b).free = true then .panic "Trying to free a free buddy\n" z
    else (calcFreeBuddy b z).bind fun listMyBuddy z =>
      match listMyBuddy with
      | some buddy => freeFrom fuel (baseBiggerBlock b buddy z) (mergeBlocks b buddy z)
      | none => .ok () (insertBlock b z)

def freeBuddyNew (b : ℕ) (z : BuddyMemDesc) : Outcome BuddyMemDesc Unit :=
  freeFrom (maxOrder + 1) b z

end X86Osdev.Mem

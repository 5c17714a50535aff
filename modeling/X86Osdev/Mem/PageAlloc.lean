import X86Osdev.Lib.List
import X86Osdev.Mem.Buddy

/-! The page calls of mem/mem.c on the zones. The locks of lock.c are kept as their state only: the
callers here run one at a time, so a lock that is not free is waited for in vain. -/

namespace X86Osdev.Mem
open X86Osdev.Lib

def kernelRatio : ℕ := 8

def fastMemRatio : ℕ := 8

inductive LockName where
  | kmemLock
  | slabLock
deriving DecidableEq

/-- The globals of mem.c, slab.c and buddy.c; `locks` tells which locks are held, `kMemCache` is the
address of the object of that name. -/
structure Heap where
  mem : Memory
  kernelBuddyNew : BuddyMemDesc
  fastBuddyNew : BuddyMemDesc
  normalBuddyNew : BuddyMemDesc
  freeMemAddr : ℕ
  totalUsedMemory : ℕ
  totalFusedMemory : ℕ
  totalKusedMemory : ℕ
  locks : LockName → Bool
  kMemCache : ℕ
  tickCount : ℕ

def getLock (l : LockName) (h : Heap) : Outcome Heap Unit :=
  if h.locks l = true then .hang h
  else .ok () { h with locks := Function.update h.locks l true }

def unlock (l : LockName) (h : Heap) : Heap :=
  { h with locks := Function.update h.locks l false }

/-- The loop of `calc_page_order`, `n` turns from `order` on. -/
def leastOrder (pages : ℕ) : ℕ → ℕ → ℕ
  | 0, _ => 2 ^ 32 - 1
  | n + 1, order => if pages ≤ pagesPerBlock order then order else leastOrder pages n (order + 1)

def calcPageOrder (byteSize : ℕ) : ℕ :=
  let pages := byteSize / pageSize + if byteSize % pageSize > 0 then 1 else 0
  leastOrder pages (maxOrder + 1) 0

def blockBytes (order : ℕ) : ℕ := u32 (pagesPerBlock order * pageSize)

def addKused (n : ℕ) (h : Heap) : Heap :=
  { h with
    totalKusedMemory := u32 (h.totalKusedMemory + n)
    totalUsedMemory := u32 (h.totalUsedMemory + n) }

def subKused (n : ℕ) (h : Heap) : Heap :=
  { h with
    totalKusedMemory := u32 (h.totalKusedMemory + (2 ^ 32 - n))
    totalUsedMemory := u32 (h.totalUsedMemory + (2 ^ 32 - n)) }

def kallocNosleep (order : ℕ) (h : Heap) : Outcome Heap ℕ :=
  ((getBuddyNew order h.kernelBuddyNew).lift fun z => { h with kernelBuddyNew := z }).bind fun p h =>
    let outP := va (calcBuddyPhys p h.kernelBuddyNew)
    .ok outP (addKused (blockBytes (h.kernelBuddyNew.allBuddies p).order) h)

def kallocPage (order : ℕ) (h : Heap) : Outcome Heap ℕ :=
  (getLock .kmemLock h).bind fun _ h =>
    (kallocNosleep order h).bind fun outP h => .ok outP (unlock .kmemLock h)

def kfreePage (ptr : ℕ) (h : Heap) : Outcome Heap Unit :=
  if ptr = 0 then .ok () h
  else
    let phys := pa ptr
    (getLock .kmemLock h).bind fun _ h =>
      let freeMe := buddyNewFromPhys phys h.kernelBuddyNew
      let freedSize := blockBytes (h.kernelBuddyNew.allBuddies freeMe).order
      ((freeBuddyNew freeMe h.kernelBuddyNew).lift fun z => { h with kernelBuddyNew := z }).bind
        fun _ h => .ok () (unlock .kmemLock (subKused freedSize h))

def fmalloc (size : ℕ) (h : Heap) : Outcome Heap ℕ :=
  let order := calcPageOrder size
  ((getBuddyNew order h.fastBuddyNew).lift fun z => { h with fastBuddyNew := z }).bind fun p h =>
    let outP := va (calcBuddyPhys p h.fastBuddyNew)
    let allocated := blockBytes (h.fastBuddyNew.allBuddies p).order
    .ok outP { h with
      totalFusedMemory := u32 (h.totalFusedMemory + allocated)
      totalUsedMemory := u32 (h.totalUsedMemory + allocated) }

def ffree (p : ℕ) (h : Heap) : Outcome Heap Unit :=
  if p = 0 then .ok () h
  else
    let phys := pa p
    let freeMe := buddyNewFromPhys phys h.fastBuddyNew
    let freed := blockBytes (h.fastBuddyNew.allBuddies freeMe).order
    ((freeBuddyNew freeMe h.fastBuddyNew).lift fun z => { h with fastBuddyNew := z }).bind
      fun _ h => .ok () { h with
        totalFusedMemory := u32 (h.totalFusedMemory + (2 ^ 32 - freed))
        totalUsedMemory := u32 (h.totalUsedMemory + (2 ^ 32 - freed)) }

/-- The last loop of `init_memory_alloc`. -/
def takeFourMegs : ℕ → Heap → Outcome Heap Unit
  | 0, h => .ok () h
  | n + 1, h => (takeFourMegs n h).bind fun _ h => (kallocNosleep 10 h).bind fun _ h => .ok () h

/-- The number of blocks that `init_memory_alloc` puts aside. -/
def fourMegsPages (freeMemAddr : ℕ) : ℕ :=
  let firstNUsedPages := pa freeMemAddr / pageSize + 1
  firstNUsedPages / pagesPerBlock 10 + 1

/-- The three calls of `init_buddy_new`; `totalPages` is `boot_mmap.total_pages`. -/
def initZones (totalPages : ℕ) (h : Heap) : Outcome Heap Unit :=
  let totalKernelPages := totalPages / kernelRatio
  let totalFastPages := totalPages / fastMemRatio
  let totalNormalPages := totalPages - totalKernelPages - totalFastPages
  ((initBuddyNew totalKernelPages 0 h.freeMemAddr h.kernelBuddyNew).lift fun r =>
    { h with freeMemAddr := r.1, kernelBuddyNew := r.2 }).bind fun _ h =>
  ((initBuddyNew totalFastPages (totalKernelPages + 1) h.freeMemAddr h.fastBuddyNew).lift fun r =>
    { h with freeMemAddr := r.1, fastBuddyNew := r.2 }).bind fun _ h =>
  (initBuddyNew totalNormalPages (totalKernelPages + totalFastPages + 2) h.freeMemAddr
    h.normalBuddyNew).lift fun r => { h with freeMemAddr := r.1, normalBuddyNew := r.2 }

def initMemoryAlloc (totalPages : ℕ) (h : Heap) : Outcome Heap Unit :=
  (initZones totalPages h).bind fun _ h => takeFourMegs (fourMegsPages h.freeMemAddr) h

def createWaitQueueNosleep (h : Heap) : Outcome Heap ℕ := kallocNosleep 0 h

def makeLockNosleep (h : Heap) : Outcome Heap ℕ :=
  (kallocNosleep 0 h).bind fun outSpin h =>
    (createWaitQueueNosleep h).bind fun _ h => .ok outSpin h

/-- `kmem_lock`, `nmem_lock`, `slab_lock`, `screen_lock` and `work_queue_lock`. -/
def initKernelLocks (h : Heap) : Outcome Heap Unit :=
  (makeLockNosleep h).bind fun _ h =>
  (makeLockNosleep (unlock .kmemLock h)).bind fun _ h =>
  (makeLockNosleep h).bind fun _ h =>
  (makeLockNosleep (unlock .slabLock h)).bind fun _ h =>
  (makeLockNosleep h).bind fun _ h => .ok () h

end X86Osdev.Mem

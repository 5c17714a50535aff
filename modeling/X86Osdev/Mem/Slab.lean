import X86Osdev.Mem.PageAlloc

/-! The slab cache of mem/slab.c, and `kmalloc` and `kfree` of mem/mem.c on top of it. -/

namespace X86Osdev.Mem
open X86Osdev.Lib

def maxSlabSize : ℕ := 512

def slabFingerprint : ℕ := 0xDEADBEEF

def sizeofSlab : ℕ := 36

def sizeofBuf : ℕ := 8

namespace Slab

def size (m : Memory) (s : ℕ) : ℕ := load32 m s

def pinned (m : Memory) (s : ℕ) : ℕ := load8 m (u32 (s + 4))

def fingerprint (m : Memory) (s : ℕ) : ℕ := load32 m (u32 (s + 12))

/-- The address of the member `head`. -/
def head (s : ℕ) : ℕ := u32 (s + 16)

def tot (m : Memory) (s : ℕ) : ℕ := load32 m (u32 (s + 24))

def alloc (m : Memory) (s : ℕ) : ℕ := load32 m (u32 (s + 28))

def firstFree (m : Memory) (s : ℕ) : ℕ := load32 m (u32 (s + 32))

def setSize (m : Memory) (s v : ℕ) : Memory := store32 m s v

def setPinned (m : Memory) (s v : ℕ) : Memory := store8 m (u32 (s + 4)) v

def setLastUsed (m : Memory) (s v : ℕ) : Memory := store32 m (u32 (s + 8)) v

def setFingerprint (m : Memory) (s v : ℕ) : Memory := store32 m (u32 (s + 12)) v

def setTot (m : Memory) (s v : ℕ) : Memory := store32 m (u32 (s + 24)) v

def setAlloc (m : Memory) (s v : ℕ) : Memory := store32 m (u32 (s + 28)) v

def setFirstFree (m : Memory) (s v : ℕ) : Memory := store32 m (u32 (s + 32)) v

/-- `list_entry(p, Slab, head)`. -/
def ofHead (p : ℕ) : ℕ := u32 (p + (2 ^ 32 - 16))

end Slab

namespace Buf

def slab (m : Memory) (b : ℕ) : ℕ := load32 m b

def nextFree (m : Memory) (b : ℕ) : ℕ := load32 m (u32 (b + 4))

def setSlab (m : Memory) (b v : ℕ) : Memory := store32 m b v

def setNextFree (m : Memory) (b v : ℕ) : Memory := store32 m (u32 (b + 4)) v

end Buf

/-- The members of `MemCache` other than its locks, which nothing takes. -/
inductive CacheList where
  | free
  | used
  | empty
deriving DecidableEq

def CacheList.offset : CacheList → ℕ
  | free => 0
  | used => 12
  | empty => 24

def cacheList (kMemCache : ℕ) (l : CacheList) : ℕ := u32 (kMemCache + l.offset)

def isKernelAddr (addr : ℕ) : Bool := decide (addr ≥ kernelVirtualAddressBase)

def hasSize (m : Memory) (size p : ℕ) : Bool := size == Slab.size m (Slab.ofHead p)

/-- The search of both loops of `salloc` and of `find_slab`: the slab of `size` in one list. -/
def findIn (h : Heap) (size : ℕ) (l : CacheList) : Option (Option ℕ) :=
  let head := cacheList h.kMemCache l
  (listFind h.mem head (hasSize h.mem size) (2 ^ 32) (listNext h.mem head)).map
    fun p => p.map Slab.ofHead

/-- `find_slab`; none is NULL. -/
def findSlab (size : ℕ) (h : Heap) : Outcome Heap (Option ℕ) :=
  match findIn h size .used with
  | none => .hang h
  | some (some s) => .ok (some s) h
  | some none =>
    match findIn h size .free with
    | none => .hang h
    | some found => .ok found h

/-- Unlink the first free buffer of `s`. -/
def takeBuf (s out : ℕ) (m : Memory) : Memory :=
  let m := Slab.setAlloc m s (u32 (Slab.alloc m s + 1))
  let m := Slab.setFirstFree m s (Buf.nextFree m out)
  Buf.setNextFree m out 0

/-- `list_remove` from the list `s` is in and `list_add_tail` to `l`. -/
def moveToTail (kMemCache : ℕ) (l : CacheList) (s : ℕ) (m : Memory) : Memory :=
  listAddTail (listRemove m (Slab.head s)) (cacheList kMemCache l) (Slab.head s)

def moveToHead (kMemCache : ℕ) (l : CacheList) (s : ℕ) (m : Memory) : Memory :=
  listAddHead (listRemove m (Slab.head s)) (cacheList kMemCache l) (Slab.head s)

/-- The body of the first loop of `salloc` for a slab of the right size. -/
def takeFromUsed (s : ℕ) (h : Heap) : Outcome Heap ℕ :=
  let out := Slab.firstFree h.mem s
  if out = 0 then .ok 0 h
  else
    let m := takeBuf s out h.mem
    let m :=
      if Slab.alloc m s ≥ Slab.tot m s then
        moveToTail h.kMemCache .empty s (Slab.setAlloc m s (Slab.tot m s))
      else m
    .ok (u32 (out + sizeofBuf)) (unlock .slabLock { h with mem := m })

/-- The body of the second loop. -/
def takeFromFree (s : ℕ) (h : Heap) : Outcome Heap ℕ :=
  let out := Slab.firstFree h.mem s
  if out = 0 then .ok 0 h
  else
    let m := moveToTail h.kMemCache .used s (takeBuf s out h.mem)
    .ok (u32 (out + sizeofBuf)) (unlock .slabLock { h with mem := m })

def salloc (size : ℕ) (h : Heap) : Outcome Heap ℕ :=
  (getLock .slabLock h).bind fun _ h =>
    match findIn h size .used with
    | none => .hang h
    | some (some s) => takeFromUsed s h
    | some none =>
      match findIn h size .free with
      | none => .hang h
      | some (some s) => takeFromFree s h
      | some none => .ok 0 (unlock .slabLock h)

/-- Link `buf` in front of the free buffers of `s` and move `s` to the list it now belongs to. -/
def giveBuf (kMemCache tickCount s buf : ℕ) (m : Memory) : Memory :=
  let m := Slab.setAlloc m s (Slab.alloc m s - 1)
  let m := Buf.setNextFree m buf (Slab.firstFree m s)
  let m := Slab.setFirstFree m s buf
  let m := Slab.setLastUsed m s tickCount
  if Slab.alloc m s = 0 then moveToTail kMemCache .free s m else moveToHead kMemCache .used s m

def sfree (b : ℕ) (h : Heap) : Outcome Heap Bool :=
  (getLock .slabLock h).bind fun _ h =>
    let buf := u32 (b + (2 ^ 32 - sizeofBuf))
    if isKernelAddr buf = false then .ok false (unlock .slabLock h)
    else
      let s := Buf.slab h.mem buf
      if isKernelAddr s = false ∨ Slab.fingerprint h.mem s ≠ slabFingerprint ∨ Slab.alloc h.mem s ≤ 0
      then .ok false (unlock .slabLock h)
      else
        let m := giveBuf h.kMemCache h.tickCount s buf h.mem
        .ok true (unlock .slabLock { h with mem := m })

/-- Turn `i` of the loop of `createSlab`: the next `fb` and the memory. -/
def linkBuf (slab size tot i : ℕ) (s : ℕ × Memory) : ℕ × Memory :=
  let m := Buf.setSlab s.2 s.1 slab
  let next := u32 (s.1 + sizeofBuf + size)
  (next, Buf.setNextFree m s.1 (if i < tot then next else 0))

/-- The first `n` turns. -/
def linkBufs (slab size tot : ℕ) : ℕ → ℕ × Memory → ℕ × Memory
  | 0, s => s
  | n + 1, s => linkBuf slab size tot n (linkBufs slab size tot n s)

/-- One less than the number of chunks, in 32-bit arithmetic. -/
def slabTot (size : ℕ) : ℕ :=
  let n := (pageSize - sizeofSlab) / u32 (size + sizeofBuf)
  if n = 0 then 2 ^ 32 - 1 else n - 1

def slabHeader (slab size : ℕ) (m : Memory) : Memory :=
  let m := Slab.setSize m slab size
  let m := Slab.setAlloc m slab 0
  let m := Slab.setTot m slab (slabTot size)
  let m := Slab.setFingerprint m slab slabFingerprint
  let m := Slab.setPinned m slab 0
  let m := Slab.setLastUsed m slab 0
  Slab.setFirstFree m slab (u32 (slab + sizeofSlab))

/-- A size above a page makes `tot` the largest 32-bit number, which no loop index exceeds. -/
def createSlab (size : ℕ) (noSleep : Bool) (h : Heap) : Outcome Heap ℕ :=
  (if noSleep = true then kallocNosleep 0 h else kallocPage 0 h).bind fun slab h =>
    let m := slabHeader slab size h.mem
    if slabTot size = 2 ^ 32 - 1 then .hang { h with mem := m }
    else
      let m := (linkBufs slab size (slabTot size) (slabTot size + 1) (u32 (slab + sizeofSlab), m)).2
      let m := listInit m (Slab.head slab)
      (getLock .slabLock { h with mem := m }).bind fun _ h =>
        let m := listAddTail h.mem (cacheList h.kMemCache .free) (Slab.head slab)
        .ok slab (unlock .slabLock { h with mem := m })

def kmalloc (size : ℕ) (h : Heap) : Outcome Heap ℕ :=
  if size ≤ maxSlabSize then
    let size := if size < 4 then 4 else size
    (salloc size h).bind fun out h =>
      if out ≠ 0 then .ok out h
      else (createSlab size false h).bind fun _ h => salloc size h
  else kallocPage (calcPageOrder size) h

def kfree (buf : ℕ) (h : Heap) : Outcome Heap Unit :=
  (sfree buf h).bind fun freed h => if freed = true then .ok () h else kfreePage buf h

def sizeofThread : ℕ := 164

def sizeofLock : ℕ := 24

def sizeofWaitQ : ℕ := 8

/-- The slabs of `init_slab_cache`: size, and whether they are pinned. -/
def initSlabs : List (ℕ × Bool) :=
  [(4, false), (8, false), (16, false), (32, false), (64, false), (128, false),
    (sizeofThread, true), (sizeofLock, true), (sizeofWaitQ, true), (256, false), (512, false)]

/-- The addresses of the slabs are returned, the last one first. -/
def createSlabs : List (ℕ × Bool) → List ℕ → Heap → Outcome Heap (List ℕ)
  | [], slabs, h => .ok slabs h
  | (size, pin) :: rest, slabs, h =>
    (createSlab size true h).bind fun s h =>
      let h := if pin = true then { h with mem := Slab.setPinned h.mem s 1 } else h
      createSlabs rest (s :: slabs) h

def initCacheLists (h : Heap) : Heap :=
  let m := listInit h.mem (cacheList h.kMemCache .free)
  let m := listInit m (cacheList h.kMemCache .empty)
  { h with mem := listInit m (cacheList h.kMemCache .used) }

/-- `empty_lock`, `used_lock` and `free_lock`. -/
def initCacheLocks (h : Heap) : Outcome Heap Unit :=
  (makeLockNosleep h).bind fun _ h =>
  (makeLockNosleep h).bind fun _ h =>
  (makeLockNosleep h).bind fun _ h => .ok () h

/-- The slabs created are the result; the source keeps them in its lists only. -/
def initSlabCache (h : Heap) : Outcome Heap (List ℕ) :=
  (initCacheLocks (initCacheLists h)).bind fun _ h => createSlabs initSlabs [] h

/-- The memory part of `kernel_main`. -/
def kernelInit (totalPages : ℕ) (h : Heap) : Outcome Heap (List ℕ) :=
  (initMemoryAlloc totalPages h).bind fun _ h =>
  (initKernelLocks h).bind fun _ h => initSlabCache h

end X86Osdev.Mem

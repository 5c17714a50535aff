import X86Osdev.Mem.ClientMemory

/-! The devices of kernel/files.c: how they are made, the calls on them by one thread at a time, and what a
block device gives back. -/

namespace X86Osdev.Kernel
open X86Osdev.Lib X86Osdev.Mem ByteMemory DyadicTiling

/-- The loop of `strlen` from index `i` on, for `n` turns. -/
def strlenFrom (m : Memory) (s : ℕ) : ℕ → ℕ → Option ℕ
  | 0, _ => none
  | n + 1, i => if m (u32 (s + i)) = 0 then some i else strlenFrom m s n (i + 1)

/-- No result stands for a string without an end. -/
def strlen (m : Memory) (s : ℕ) : Option ℕ := strlenFrom m s (2 ^ 32) 0

def append (s : ℕ) (n : UInt8) (m : Memory) : Option Memory :=
  (strlen m s).map fun len => storeByte (2 ^ 32) (storeByte (2 ^ 32) m (s + len) n) (s + len + 1) 0

section Strings
variable {m : Memory} {s n : ℕ}

theorem strlenFrom_eq {fuel i : ℕ} (hnz : ∀ j < n, m (u32 (s + j)) ≠ 0) (hz : m (u32 (s + n)) = 0)
    (hi : i ≤ n) (hfuel : n < fuel + i) : strlenFrom m s fuel i = some n := by
  induction fuel generalizing i with
  | zero => omega
  | succ fuel ih =>
    rw [strlenFrom]
    by_cases hin : i = n
    · rw [hin, if_pos hz]
    · rw [if_neg (hnz i (by omega))]
      exact ih (by omega) (by omega)

theorem strlen_eq (hnz : ∀ j < n, m (u32 (s + j)) ≠ 0) (hz : m (u32 (s + n)) = 0) (hn : n < 2 ^ 32) :
    strlen m s = some n := strlenFrom_eq hnz hz (Nat.zero_le n) (by omega)

theorem strlen_stop (h : strlen m s = some n) : m (u32 (s + n)) = 0 := by
  have hfrom : ∀ fuel i, strlenFrom m s fuel i = some n → m (u32 (s + n)) = 0 := by
    intro fuel
    induction fuel with
    | zero => exact fun _ h => nomatch h
    | succ fuel ih =>
      intro i h
      rw [strlenFrom] at h
      split at h
      · next hz => exact Option.some.inj h ▸ hz
      · exact ih (i + 1) h
  exact hfrom _ _ h

theorem strlen_none (hnz : ∀ a < 2 ^ 32, m a ≠ 0) : strlen m s = none := by
  have hfrom : ∀ fuel i, strlenFrom m s fuel i = none := by
    intro fuel
    induction fuel with
    | zero => exact fun _ => rfl
    | succ fuel ih =>
      intro i
      rw [strlenFrom, if_neg (hnz (u32 (s + i)) (Nat.mod_lt _ (by decide)))]
      exact ih (i + 1)
  exact hfrom _ _

/-- The bytes of a string from `s` on, without the NUL. -/
structure StringBytes (m : Memory) (s : ℕ) (bytes : List UInt8) : Prop where
  mem : ∀ i (hi : i < bytes.length), m (s + i) = bytes[i]
  nonzero : ∀ b ∈ bytes, b ≠ 0

variable {bytes : List UInt8} {b : UInt8}

theorem StringBytes.strlen (h : StringBytes m s bytes) (hz : m (s + bytes.length) = 0)
    (hfits : s + bytes.length < 2 ^ 32) : strlen m s = some bytes.length := by
  refine strlen_eq (fun j hj => ?_) ?_ (by omega)
  · rw [u32, Nat.mod_eq_of_lt (by omega), h.mem j hj]
    exact h.nonzero _ (List.getElem_mem hj)
  · rw [u32, Nat.mod_eq_of_lt (by omega)]
    exact hz

/-- The string is longer by `b`, and ends if the address space does not. -/
theorem StringBytes.append (h : StringBytes m s bytes) (hz : m (s + bytes.length) = 0)
    (hs : 0 < s ∨ s + bytes.length + 1 < 2 ^ 32) (hfits : s + bytes.length < 2 ^ 32) (hb : b ≠ 0) :
    ∃ m', append s b m = some m' ∧ StringBytes m' s (bytes ++ [b]) ∧
      (s + (bytes ++ [b]).length < 2 ^ 32 → m' (s + (bytes ++ [b]).length) = 0) := by
  have hlen : (bytes ++ [b]).length = bytes.length + 1 := List.length_append
  refine ⟨storeByte (2 ^ 32) (storeByte (2 ^ 32) m (s + bytes.length) b) (s + bytes.length + 1) 0, ?_,
    ⟨fun i hi => ?_, fun c hmem => ?_⟩, fun hlt => ?_⟩
  · rw [Kernel.append, h.strlen hz hfits]
    rfl
  · rw [storeByte, storeByte, Nat.mod_eq_of_lt (by omega), Function.update_of_ne (by omega)]
    rcases Nat.lt_or_ge i bytes.length with hlt | hge
    · rw [Function.update_of_ne (by omega), h.mem i hlt, List.getElem_append_left hlt]
    · have hi : i = bytes.length := by omega
      subst hi
      rw [Function.update_self, List.getElem_concat_length rfl]
  · rcases List.mem_append.mp hmem with hmem | hmem
    · exact h.nonzero c hmem
    · exact List.mem_singleton.mp hmem ▸ hb
  · rw [hlen] at hlt ⊢
    rw [storeByte, Nat.mod_eq_of_lt (by omega), ← Nat.add_assoc, Function.update_self]

end Strings

inductive DeviceType where
  | stream
  | block
deriving DecidableEq

inductive FileLock where
  | lock
  | readLock
deriving DecidableEq

/-- The fields of `FD` that the calls use, and the memory that `buffer` points into. The callers run one at
a time, so of the locks only the state is kept. -/
structure Device where
  mem : Memory
  locks : FileLock → Bool
  buffer : ℕ
  size : ℕ
  pos : ℕ
  last : ℕ
  available : ℕ

namespace Device

def getLock (l : FileLock) (d : Device) : Outcome Device Unit :=
  if d.locks l = true then .hang d else .ok () { d with locks := Function.update d.locks l true }

def unlock (l : FileLock) (d : Device) : Device :=
  { d with locks := Function.update d.locks l false }

end Device

def sizeofWaitQ : ℕ := 8

/-- `make_lock`, as far as memory is concerned. -/
def makeLock (h : Heap) : Outcome Heap Unit :=
  (kmalloc sizeofLock h).bind fun _ h => (kmalloc sizeofWaitQ h).bind fun _ h => .ok () h

def copyName (name : ℕ) (h : Heap) : Outcome Heap Unit :=
  (kallocPage 0 h).bind fun newName h =>
    match strlen h.mem name with
    | none => .hang h
    | some len =>
      .ok () { h with mem := storeByte (2 ^ 32) (memcopy name newName len h.mem) (newName + len) 0 }

/-- `kalloc_page(page_size)` and `memset`. -/
def deviceBuffer (order : ℕ) (h : Heap) : Outcome Heap ℕ :=
  (kallocPage order h).bind fun buffer h =>
    .ok buffer { h with mem := memset buffer 0 (u32 (pageSize <<< order)) h.mem }

/-- `pos` has what the page held before, at its place in `FD`. -/
def createDevice (name order : ℕ) (type : DeviceType) (h : Heap) : Outcome Heap Device :=
  (kallocPage 0 h).bind fun f h =>
  (copyName name h).bind fun _ h =>
  (deviceBuffer order h).bind fun buffer h =>
  (makeLock h).bind fun _ h =>
  (makeLock h).bind fun _ h =>
    .ok { mem := h.mem
          locks := fun l => l = .readLock
          buffer
          size := u32 (pageSize <<< order)
          pos := load32 h.mem (u32 (f + 28))
          last := 0
          available := if type = .stream then 0 else u32 (pageSize <<< order) } h

def createBlockDevice (name order : ℕ) : Heap → Outcome Heap Device := createDevice name order .block

def createCharDevice (name order : ℕ) : Heap → Outcome Heap Device := createDevice name order .stream

def DeviceType.create : DeviceType → ℕ → ℕ → Heap → Outcome Heap Device
  | .block => createBlockDevice
  | .stream => createCharDevice

theorem DeviceType.create_eq (type : DeviceType) (name order : ℕ) :
    type.create name order = createDevice name order type := by
  cases type <;> rfl

def setPosBlock (pos : ℕ) (d : Device) : Outcome Device ℕ :=
  (d.getLock .lock).bind fun _ d =>
    if pos ≥ d.size then .ok (2 ^ 32 - 1) (d.unlock .lock)
    else .ok 1 (({ d with pos } : Device).unlock .lock)

def writeByteBlock (b : UInt8) (d : Device) : Outcome Device ℕ :=
  (d.getLock .lock).bind fun _ d =>
    let d := { d with mem := storeByte (2 ^ 32) d.mem (d.buffer + d.pos) b, pos := u32 (d.pos + 1) }
    .ok 1 (d.unlock .lock)

def readByteBlock (d : Device) : Outcome Device UInt8 :=
  (d.getLock .lock).bind fun _ d => (d.getLock .readLock).bind fun _ d =>
    let out := d.mem (u32 (d.buffer + d.pos))
    .ok out ((d.unlock .readLock).unlock .lock)

def storeByteStream (b : UInt8) (d : Device) : Outcome Device Unit :=
  match append d.buffer b d.mem with
  | none => .hang d
  | some mem => .ok () { d with mem, available := u32 (d.available + 1) }

def writeByteStream (b : UInt8) (d : Device) : Outcome Device ℕ :=
  (d.getLock .lock).bind fun _ d =>
  (storeByteStream b d).bind fun _ d => .ok 1 ((d.unlock .readLock).unlock .lock)

/-- `file->buffer[file->last++]`, and `available--`. -/
def takeByte (d : Device) : UInt8 × Device :=
  (d.mem (u32 (d.buffer + d.last)),
    { d with last := u32 (d.last + 1), available := u32 (d.available + (2 ^ 32 - 1)) })

/-- The last byte clears the buffer and keeps `read_lock`; `available` is unsigned. -/
def finishRead (d : Device) : Device :=
  if d.available ≤ 0 then { d with mem := memset d.buffer 0 (pageSize * 2) d.mem, last := 0 }
  else d.unlock .readLock

/-- With the lock of the file taken by somebody who does not run, the call backs off for ever. -/
def readByteStream (d : Device) : Outcome Device UInt8 :=
  (d.getLock .readLock).bind fun _ d =>
  (d.getLock .lock).bind fun _ d =>
    let (out, d) := takeByte d
    .ok out ((finishRead d).unlock .lock)

section Locks
variable {d : Device} {l : FileLock} {locks : FileLock → Bool}

theorem getLock_ok (h : d.locks l = false) :
    d.getLock l = .ok () { d with locks := Function.update d.locks l true } := by
  rw [Device.getLock, if_neg]
  rw [h]
  exact Bool.false_ne_true

theorem getLock_hang (h : d.locks l = true) : d.getLock l = .hang d := if_pos h

theorem relock (h : locks l = false) :
    Function.update (Function.update locks l true) l false = locks := by
  rw [Function.update_idem, ← h, Function.update_eq_self]

theorem update_lock (b : Bool) : Function.update locks l b l = b := Function.update_self ..

theorem unlock_self (d : Device) (l : FileLock) : (d.unlock l).locks l = false := update_lock false

theorem readLock_of_lock (b : Bool) : Function.update locks .lock b .readLock = locks .readLock :=
  Function.update_of_ne (show FileLock.readLock ≠ .lock by decide) b locks

theorem lock_of_readLock (b : Bool) : Function.update locks .readLock b .lock = locks .lock :=
  Function.update_of_ne (show FileLock.lock ≠ .readLock by decide) b locks

theorem readLock_unlock (d : Device) : (d.unlock .lock).locks .readLock = d.locks .readLock :=
  readLock_of_lock false

end Locks

section Room
variable {L : Layout} {v v' : HeapView} {z : BuddyMemDesc} {fl : ℕ → List ℕ} {handed : List ℕ}
  {order ptr : ℕ} {h h' : Heap}

/-- A zone without a free block of order `order` or more has a page in use in each aligned block of it. -/
theorem pagesUsed_of_none (hz : ZoneInv z fl handed.toFinset) (ho : order ≤ maxOrder)
    (hempty : ∀ o, order ≤ o → o ≤ maxOrder → fl o = []) :
    z.totPages ≤ 2 ^ order * pagesUsed z handed := by
  have hpos : 0 < 2 ^ order := by positivity
  have hmul : 2 ^ order * (z.totPages / 2 ^ order) = z.totPages :=
    Nat.mul_div_cancel' ((Nat.pow_dvd_pow 2 ho).trans hz.whole)
  have hused : ∀ i < z.totPages / 2 ^ order, ∃ x, x / 2 ^ order = i ∧
      ∃ p ∈ handed, x ∈ span p (orderOf z p) := by
    intro i hi
    by_contra hnone
    have hend : 2 ^ order * i + 2 ^ order ≤ z.totPages := by
      rw [← hmul, ← Nat.mul_succ]
      exact Nat.mul_le_mul_left _ hi
    have hmiss : ∀ p ∈ (handed.toFinset : Set ℕ),
        Disjoint (span (2 ^ order * i) order) (span p (orderOf z p)) := by
      intro p hp
      rw [Set.disjoint_left]
      intro x hx hxp
      refine hnone ⟨x, ?_, p, List.mem_toFinset.mp hp, hxp⟩
      rw [mem_span] at hx
      rw [Nat.div_eq_iff hpos, Nat.mul_comm i]
      omega
    obtain ⟨f, hf, hof, -⟩ := exists_free_tile hz.tiling hz.joined ho (Nat.dvd_mul_right _ i) hend hmiss
    have hle := hz.order_le f hf.1
    have hmem := (hz.listed _ hle f).mpr ⟨hf.1, hf.2, rfl⟩
    rw [hempty _ hof hle] at hmem
    exact List.not_mem_nil hmem
  choose! f hf using hused
  have hinj : Set.InjOn f (Finset.range (z.totPages / 2 ^ order)) := by
    intro i hi j hj hij
    rw [← (hf i (Finset.mem_range.mp hi)).1, ← (hf j (Finset.mem_range.mp hj)).1, hij]
  have hcard := @card_le_pagesUsed handed z ((Finset.range (z.totPages / 2 ^ order)).image f) ?_
  · rw [Finset.card_image_of_injOn hinj, Finset.card_range] at hcard
    exact hmul ▸ Nat.mul_le_mul_left _ hcard
  · intro x hx
    obtain ⟨i, hi, rfl⟩ := Finset.mem_image.mp hx
    exact (hf i (Finset.mem_range.mp hi)).2

theorem kallocPage_room (hi : v.Inv L) (ho : order ≤ maxOrder)
    (hroom : 2 ^ order * v.used L < L.numPages) :
    ∃ ptr h', kallocPage order v.heap = .ok ptr h' := by
  rcases kallocPage_spec hi.zone hi.small (hi.unlocked _) ho with ⟨p, h', hok, -⟩ | ⟨h', hpanic⟩
  · exact ⟨_, _, hok⟩
  · obtain ⟨⟨fl, hz⟩, -, htot, -⟩ := hi.zone
    rcases getBuddyNew_spec hz ho with ⟨p, z', fl', hget, -⟩ | ⟨-, -, hempty⟩
    · rw [kallocPage, getLock_free (hi.unlocked _), Outcome.bind_ok, kallocNosleep, hget] at hpanic
      cases hpanic
    · have hfull := pagesUsed_of_none hz ho hempty
      rw [htot] at hfull
      exact absurd hroom (Nat.not_lt.mpr hfull)

end Room

/-- A device as `create_device` leaves it. -/
structure NewDevice (type : DeviceType) (order : ℕ) (d : Device) : Prop where
  zero : ∀ i < d.size, d.mem (d.buffer + i) = 0
  fits : d.buffer + d.size ≤ pageAddr (2 ^ 17)
  kernel : kernelVirtualAddressBase ≤ d.buffer
  order_le : order ≤ maxOrder
  size_eq : d.size = 4096 * 2 ^ order
  lock : d.locks .lock = false
  readLock : d.locks .readLock = true
  last : d.last = 0
  available : d.available = if type = .stream then 0 else d.size

section Create
variable {L : Layout} {v v' : HeapView} {name len order : ℕ} {type : DeviceType} {d : Device} {h' : Heap}

theorem shiftLeft_pageSize (ho : order ≤ maxOrder) : u32 (pageSize <<< order) = 4096 * 2 ^ order := by
  have hle : 2 ^ order ≤ 2 ^ 10 := Nat.pow_le_pow_right (by decide) ho
  rw [Nat.shiftLeft_eq]
  unfold u32 pageSize
  omega

theorem allocates_copyName (hi : v.Inv L) (hname : strlen v.heap.mem name = some len)
    (hlen : len < 4096) : Allocates L 1 v (copyName name v.heap) fun _ _ => True := by
  rcases kallocPage_spec hi.zone hi.small (hi.unlocked _) (Nat.zero_le maxOrder) with
    ⟨p, h₁, hpage, -⟩ | ⟨h', hpanic⟩
  · obtain ⟨q, hq, hg, hf, hmem⟩ := kallocPage_grows hi (Nat.zero_le maxOrder) hpage
    rw [hq] at hpage hf
    have hlt := hg.inv.zone.lt (HeapInv.page_mem (List.mem_cons_self ..))
    have hend : pageAddr q + 4096 ≤ 2 ^ 32 := pageAddr_end (hlt.trans_le hg.inv.small)
    have hname' : strlen h₁.mem name = some len := hmem ▸ hname
    have htouch : Touches (2 ^ 32) (blockAt (pageAddr q) 0) h₁.mem
        (storeByte (2 ^ 32) (memcopy name (pageAddr q) len h₁.mem) (pageAddr q + len) 0) :=
      (touches_memcopy (P := blockAt (pageAddr q) 0) (by omega) fun x hx hx' => ⟨hx, by omega⟩).trans
        (touches_storeByte (by omega) (Set.mem_Ico.mpr ⟨by omega, by omega⟩))
    have hg' := (hg.store_fresh (List.mem_cons_self ..) hf htouch).1
    refine .inl ⟨(), _, ?_, hg', trivial⟩
    rw [copyName, hpage, Outcome.bind_ok, hname']
    rfl
  · rw [copyName, hpanic, Outcome.bind_panic]
    exact .inr ⟨⟨h', rfl⟩, Nat.lt_succ_of_le (kallocPage_full hi hpanic)⟩

structure ClearBuffer (v' : HeapView) (L : Layout) (order buffer : ℕ) : Prop where
  order_le : order ≤ maxOrder
  kernel : kernelVirtualAddressBase ≤ buffer
  fits : buffer + 4096 * 2 ^ order ≤ pageAddr (2 ^ 17)
  settled : ∀ a ∈ blockAt buffer order, Settled L v' a
  zero : ∀ a ∈ blockAt buffer order, v'.heap.mem a = 0

theorem deviceBuffer_grows (hi : v.Inv L) {buffer : ℕ} (hok : deviceBuffer order v.heap = .ok buffer h') :
    ∃ v', v'.heap = h' ∧ Grows L (2 ^ order) v v' ∧ ClearBuffer v' L order buffer := by
  obtain ⟨ptr, h₁, hpage, hset⟩ := Outcome.bind_eq_ok.mp hok
  have ho : order ≤ maxOrder := by
    by_contra hlt
    rw [kallocPage, getLock_free (hi.unlocked _), Outcome.bind_ok, kallocNosleep, getBuddyNew,
      if_pos (Nat.lt_of_not_le hlt)] at hpage
    cases hpage
  obtain ⟨p, rfl, hg, hf, hmem⟩ := kallocPage_grows hi ho hpage
  have hmemp := HeapInv.page_mem (List.mem_cons_self (a := (p, order)) (l := v.pages)) (L := L)
    (c := v.cache)
  have hend := hg.inv.zone.block_end hmemp
  rw [hg.inv.page_order _ (List.mem_cons_self ..)] at hend
  have hsmall := hg.inv.small
  have hbytes : 4096 * (p + 2 ^ order) ≤ 4096 * 2 ^ 17 := Nat.mul_le_mul_left _ (hend.trans hsmall)
  have hlow : pageAddr p + 4096 * 2 ^ order ≤ pageAddr (2 ^ 17) := by
    rw [pageAddr_eq, pageAddr_eq]
    omega
  have hfits : pageAddr p + 4096 * 2 ^ order ≤ 2 ^ 32 := hlow.trans (by decide)
  obtain ⟨rfl, rfl⟩ := Outcome.ok.inj hset
  rw [shiftLeft_pageSize ho]
  have htouch : Touches (2 ^ 32) (blockAt (pageAddr p) order) h₁.mem
      (memset (pageAddr p) 0 (4096 * 2 ^ order) h₁.mem) :=
    touches_memset hfits fun x hx hx' => ⟨hx, hx'⟩
  obtain ⟨hg', hf'⟩ := hg.store_fresh (List.mem_cons_self ..) hf htouch
  refine ⟨_, rfl, hg', ho, Nat.le_add_right _ _, hlow, fun a ha => (hf' a ha).1, fun a ha => ?_⟩
  exact (memset_apply hfits).trans (if_pos ha)

theorem allocates_makeLock (hi : v.Inv L) : Allocates L 2 v (makeLock v.heap) fun _ _ => True := by
  change Allocates L (1 + 1) v _ _
  refine (allocates_kmalloc hi (n := sizeofLock) (by decide)).bind fun _ v₁ hg₁ _ => ?_
  exact (allocates_kmalloc hg₁.inv (n := sizeofWaitQ) (by decide)).then_pure fun _ _ _ _ =>
    ⟨_, rfl, trivial⟩

theorem createDevice_new (hi : v.Inv L) (hname : strlen v.heap.mem name = some len) (hlen : len < 4096)
    (hok : createDevice name order type v.heap = .ok d h') : NewDevice type order d ∧ d.mem = h'.mem := by
  obtain ⟨f, h₁, hpage, hok⟩ := Outcome.bind_eq_ok.mp hok
  obtain ⟨p, rfl, hg₁, -, hmem⟩ := kallocPage_grows hi (Nat.zero_le maxOrder) hpage
  obtain ⟨_, h₂, hcopy, hok⟩ := Outcome.bind_eq_ok.mp hok
  obtain ⟨v₂, rfl, hg₂, -⟩ := (allocates_copyName hg₁.inv (by rw [hmem]; exact hname) hlen).ok hcopy
  obtain ⟨buffer, h₃, hbuffer, hok⟩ := Outcome.bind_eq_ok.mp hok
  obtain ⟨v₃, rfl, hg₃, hclear⟩ := deviceBuffer_grows hg₂.inv hbuffer
  obtain ⟨_, h₄, hlock, hok⟩ := Outcome.bind_eq_ok.mp hok
  obtain ⟨v₄, rfl, hg₄, -⟩ := (allocates_makeLock hg₃.inv).ok hlock
  obtain ⟨_, h₅, hlock', hok⟩ := Outcome.bind_eq_ok.mp hok
  obtain ⟨v₅, rfl, hg₅, -⟩ := (allocates_makeLock hg₄.inv).ok hlock'
  obtain ⟨rfl, rfl⟩ := Outcome.ok.inj hok
  have hsize := shiftLeft_pageSize hclear.order_le
  have hg := hg₄.trans hg₅
  refine ⟨⟨fun i hi => ?_, ?_, hclear.kernel, hclear.order_le, hsize, rfl, rfl, rfl, rfl⟩, rfl⟩
  · -- the locks are made after the buffer was cleared
    have hi : i < u32 (pageSize <<< order) := hi
    have hin : buffer + i ∈ blockAt buffer order := Set.mem_Ico.mpr ⟨by omega, by omega⟩
    exact (hg.kept _ (hclear.settled _ hin)).trans (hclear.zero _ hin)
  · show buffer + u32 (pageSize <<< order) ≤ pageAddr (2 ^ 17)
    rw [hsize]
    exact hclear.fits

theorem createDevice_room (type : DeviceType) (hi : v.Inv L) (hname : strlen v.heap.mem name = some len) (hlen : len < 4096)
    (ho : order ≤ maxOrder) (hroom : 2 ^ order * (v.used L + 2) < L.numPages)
    (hroom' : v.used L + 2 ^ order + 6 ≤ L.numPages) :
    ∃ d h', createDevice name order type v.heap = .ok d h' := by
  have hpos : 0 < 2 ^ order := by positivity
  obtain ⟨ptr, h₁, hpage⟩ := kallocPage_room hi (Nat.zero_le maxOrder) (by omega)
  obtain ⟨p, rfl, hg₁, -, hmem⟩ := kallocPage_grows hi (Nat.zero_le maxOrder) hpage
  have hused₁ := hg₁.used
  obtain ⟨_, v₂, hcopy, hg₂, -⟩ := (allocates_copyName hg₁.inv
    (show strlen _ name = some len by rw [hmem]; exact hname) hlen).exists_ok (by omega)
  have hused₂ := hg₂.used
  have hmul : 2 ^ order * v₂.used L ≤ 2 ^ order * (v.used L + 2) := Nat.mul_le_mul_left _ (by omega)
  obtain ⟨ptr, h₃, hblock⟩ := kallocPage_room hg₂.inv ho (by omega)
  have hbuffer : deviceBuffer order v₂.heap =
      .ok ptr { h₃ with mem := memset ptr 0 (u32 (pageSize <<< order)) h₃.mem } := by
    rw [deviceBuffer, hblock, Outcome.bind_ok]
  obtain ⟨v₃, hv₃, hg₃, -⟩ := deviceBuffer_grows hg₂.inv hbuffer
  have hused₃ := hg₃.used
  obtain ⟨_, v₄, hlock, hg₄, -⟩ := (allocates_makeLock hg₃.inv).exists_ok (by omega)
  have hused₄ := hg₄.used
  obtain ⟨_, v₅, hlock', hg₅, -⟩ := (allocates_makeLock hg₄.inv).exists_ok (by omega)
  rw [← hv₃] at hbuffer
  rw [createDevice]
  simp only [hpage, hcopy, hbuffer, hlock, hlock', Outcome.bind_ok]
  exact ⟨_, _, rfl⟩

end Create

/-- A device that a running kernel made; the name fits its page. -/
def MadeDevice (totalPages : ℕ) (type : DeviceType) (order : ℕ) (d : Device) : Prop :=
  ∃ σ name len h', HeapReach totalPages σ ∧ strlen σ.heap.mem name = some len ∧ len < 4096 ∧
    type.create name order σ.heap = .ok d h'

section Made
variable {totalPages order : ℕ} {type : DeviceType} {d : Device}

theorem MadeDevice.pos_lt (hd : MadeDevice totalPages type order d) : d.pos < 2 ^ 32 := by
  obtain ⟨σ, name, len, h', -, -, -, hok⟩ := hd
  rw [type.create_eq] at hok
  obtain ⟨f, h₁, -, hok⟩ := Outcome.bind_eq_ok.mp hok
  obtain ⟨_, h₂, -, hok⟩ := Outcome.bind_eq_ok.mp hok
  obtain ⟨buffer, h₃, -, hok⟩ := Outcome.bind_eq_ok.mp hok
  obtain ⟨_, h₄, -, hok⟩ := Outcome.bind_eq_ok.mp hok
  obtain ⟨_, h₅, -, hok⟩ := Outcome.bind_eq_ok.mp hok
  obtain ⟨rfl, -⟩ := Outcome.ok.inj hok
  exact load32_lt _ _

theorem MadeDevice.new (hd : MadeDevice totalPages type order d) : NewDevice type order d := by
  obtain ⟨σ, name, len, h', hreach, hname, hlen, hok⟩ := hd
  obtain ⟨L, c, hi, -⟩ := hreach.sysInv
  rw [type.create_eq] at hok
  exact (createDevice_new (v := σ.view c) hi.heap hname hlen hok).1

theorem strlen_zero {m : Memory} {name : ℕ} (h : m (u32 name) = 0) : strlen m name = some 0 := by
  unfold strlen
  rw [show (2 ^ 32 : ℕ) = 4294967295 + 1 from rfl, strlenFrom, Nat.add_zero, if_pos h]

theorem madeDevice_exists (type : DeviceType) (ho : order ≤ 2) :
    ∃ d, MadeDevice 1048575 type order d := by
  have hb : BootState 1048575 bootHeap := ⟨by decide, by decide, by decide, by decide⟩
  rcases kernelInit_spec hb with ⟨c, h, L, hinit, hst⟩ | ⟨-, hfew⟩
  swap
  · omega
  have hnum : L.numPages = 130048 := hst.numPages
  have hfirst : L.first ≤ 13312 := hst.first_le
  have hused : SysInv.used L c ⟨h, c.slabs, []⟩ = L.first + 27 := hst.used
  obtain ⟨p, σ, hstep, hi, hlive, hused'⟩ := hst.sysInv.kmalloc_page (by omega)
  have hmem : pageRegion p ∈ σ.live := hlive ▸ List.mem_cons_self ..
  have hblock : (p, 0) ∈ blockPages σ.live := by
    rw [hlive, blockPages_block rfl, pageRegion, pageOf_pageAddr]
    exact List.mem_cons_self ..
  have hend : pageAddr p + 4096 ≤ 2 ^ 32 :=
    pageAddr_end ((hi.heap.zone.lt (HeapInv.page_mem hblock)).trans_le hi.heap.small)
  obtain ⟨m, hrun, hi', hm⟩ := hi.fill hmem (fun _ => 0) hend (le_refl 4096)
  have hzero : m (u32 (pageAddr p)) = 0 := by
    rw [u32, Nat.mod_eq_of_lt (by omega)]
    exact hm 0 (by decide)
  have hpow : 2 ^ order ≤ 2 ^ 2 := Nat.pow_le_pow_right (by decide) ho
  have hused'' : HeapView.used L ((σ.setHeap { σ.heap with mem := m }).view c) = L.first + 28 := by
    change SysInv.used L c σ = _
    omega
  have hname : strlen m (pageAddr p) = some 0 := strlen_zero hzero
  have hmul : 2 ^ order * (L.first + 28 + 2) ≤ 2 ^ 2 * (L.first + 28 + 2) := Nat.mul_le_mul_right _ hpow
  obtain ⟨d, h', hok⟩ := createDevice_room (v := (σ.setHeap { σ.heap with mem := m }).view c) type hi'.heap
    hname (by decide) (ho.trans (by decide)) (by rw [hused'']; omega)
    (by rw [hused'']; omega)
  have hreach : HeapReach 1048575 ⟨h, c.slabs, []⟩ := ⟨bootHeap, h, c.slabs, hb, hinit, .refl⟩
  rw [← type.create_eq] at hok
  exact ⟨d, _, _, _, _, hreach.run (hrun.head hstep), hname, by decide, hok⟩

end Made

end X86Osdev.Kernel

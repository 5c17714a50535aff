import X86Osdev.Library.ByteRanges
import X86Osdev.Library.Contracts
import X86Osdev.Mem.LiveContents
import X86Osdev.Mem.Vma
import Mathlib.Order.Interval.Set.Disjoint

/-! Clients of the heap with their buffers: contracts of `kmalloc`, `kfree` and of stores, in which everything that
a client does not own stays as it is. -/

namespace X86Osdev.Mem
open X86Osdev.Lib ByteMemory Contracts

/-- A call that returns what `kmalloc(n)` has given it. -/
def Sys.getting (n : ℕ) (call : Heap → Outcome Heap ℕ) (σ : Sys) : Outcome Sys ℕ :=
  match call σ.heap with
  | .ok p h =>
    if n ≤ maxSlabSize then .ok p ⟨h, kmallocSlabs n σ.heap σ.slabs, ⟨p, n, .object⟩ :: σ.live⟩
    else .ok p ⟨h, σ.slabs, ⟨p, n, .block (calcPageOrder n)⟩ :: σ.live⟩
  | .panic msg h => .panic msg (σ.setHeap h)
  | .hang h => .hang (σ.setHeap h)

def Sys.kmalloc (n : ℕ) (σ : Sys) : Outcome Sys ℕ := σ.getting n (Mem.kmalloc n)

def Sys.kfree (p : ℕ) (σ : Sys) : Outcome Sys Unit :=
  match Mem.kfree p σ.heap with
  | .ok () h => .ok () ⟨h, σ.slabs, σ.live.eraseP fun r => r.ptr = p⟩
  | .panic msg h => .panic msg (σ.setHeap h)
  | .hang h => .hang (σ.setHeap h)

def Sys.store (f : Memory → Memory) (σ : Sys) : Sys := σ.setHeap { σ.heap with mem := f σ.heap.mem }

theorem Sys.store_store (σ : Sys) (f g : Memory → Memory) : (σ.store f).store g = σ.store fun m => g (f m) := rfl

theorem Sys.getting_filled (n : ℕ) (fill : ℕ → Memory → Memory) (σ : Sys) :
    (σ.getting n fun h => (Mem.kmalloc n h).bind fun p h => .ok p { h with mem := fill p h.mem }) =
      (σ.kmalloc n).bind fun p σ => .ok p (σ.store (fill p)) := by
  rw [Sys.kmalloc, Sys.getting, Sys.getting]
  cases Mem.kmalloc n σ.heap with
  | ok p h =>
    simp only [Outcome.bind_ok]
    split <;> rfl
  | panic msg h => rfl
  | hang h => rfl

structure Buffer where
  ptr : ℕ
  bytes : List UInt8

def Buffer.region (b : Buffer) : Region := ⟨b.ptr, b.bytes.length, .object⟩

/-- Since `σ₀` a client has got these buffers; the regions that were live then are, and have their contents. No more
than `limit` pages are in use. -/
structure Owns (L : Layout) (limit : ℕ) (σ₀ : Sys) (bufs : List Buffer) (σ : Sys) : Prop where
  run : Relation.ReflTransGen HeapStep σ₀ σ
  inv : ∃ c, SysInv L c σ ∧ SysInv.used L c σ ≤ limit
  live : σ.live.Perm (bufs.map Buffer.region ++ σ₀.live)
  holds : ∀ b ∈ bufs, bytesAt σ.heap.mem b.ptr b.bytes.length = b.bytes
  kept : ∀ r ∈ σ₀.live, ∀ a ∈ r.range, σ.heap.mem a = σ₀.heap.mem a

/-- The machine stops for want of memory, and has fewer than `n` pages. -/
def Full (L : Layout) (n : ℕ) (msg : String) : Prop := msg = outOfMemory ∧ L.numPages < n

section Pages
variable {L : Layout} {c : Cache} {σ : Sys} {n : ℕ} {r : Region}

theorem SysInv.range_le (hi : SysInv L c σ) (hr : r ∈ σ.live) : r.ptr + r.bytes ≤ 2 ^ 32 := by
  have hend := (hi.heapSafe.inside r hr).2
  have htot := hi.heap.zone.totPages
  have hsmall := hi.heap.small
  rw [pageAddr_eq] at hend
  omega

/-- A small `kmalloc` takes at most the page of a new slab, and is refused when no page is left only. -/
theorem SysInv.kmalloc_used (hi : SysInv L c σ) (hn : n ≤ maxSlabSize) :
    (∃ p h' c', kmalloc n σ.heap = .ok p h' ∧
        SysInv L c' ⟨h', kmallocSlabs n σ.heap σ.slabs, ⟨p, n, .object⟩ :: σ.live⟩ ∧
        SysInv.used L c' ⟨h', kmallocSlabs n σ.heap σ.slabs, ⟨p, n, .object⟩ :: σ.live⟩ ≤ SysInv.used L c σ + 1) ∨
      (∃ h', kmalloc n σ.heap = .panic outOfMemory h') ∧ L.numPages ≤ SysInv.used L c σ := by
  rcases hi.heap.kmalloc_small hn with ⟨s, i, c', h', hok, hh, hsv, hslabs, -, hord⟩ | ⟨h', hpanic⟩
  swap
  · exact .inr ⟨⟨h', hpanic⟩, kmalloc_full (v := ⟨σ.heap, c, blockPages σ.live⟩) hi.heap hn hpanic⟩
  have hlive := hi.live.addObject hh hsv (le_max_left n 4)
  have hinv : SysInv L c' ⟨h', kmallocSlabs n σ.heap σ.slabs, ⟨bufAt s (max n 4) i + 8, n, .object⟩ :: σ.live⟩ := by
    refine ⟨?_, hlive, ?_⟩
    · rw [blockPages_object rfl]
      exact hh
    · rw [hi.slabs]
      exact hslabs.symm
  refine .inl ⟨_, h', c', hok, hinv, ?_⟩
  unfold SysInv.used
  rw [blockPages_object rfl]
  have hold : pagesUsed h'.kernelBuddyNew (handedPages L c (blockPages σ.live)) =
      pagesUsed σ.heap.kernelBuddyNew (handedPages L c (blockPages σ.live)) := by
    unfold pagesUsed
    rw [List.map_congr_left fun q hq => by rw [hord q hq]]
  -- An old slab costs no page, a new one its own.
  by_cases hs : s ∈ c.slabs
  · have hsame : handedPages L c' (blockPages σ.live) = handedPages L c (blockPages σ.live) := by
      unfold handedPages
      rw [hsv.slabs, List.insert_of_mem hs]
    rw [hsame, hold]
    exact Nat.le_succ _
  · have hnew : c'.slabs = s :: c.slabs := by rw [hsv.slabs, List.insert_of_not_mem hs]
    have hperm : (pageOf s :: handedPages L c (blockPages σ.live)).Perm (handedPages L c' (blockPages σ.live)) := by
      unfold handedPages
      rw [hnew, List.map_cons, List.cons_append]
      exact List.perm_middle.symm
    have hzero : orderOf h'.kernelBuddyNew (pageOf s) = 0 := hh.slab_order s (hnew ▸ List.mem_cons_self ..)
    rw [← pagesUsed_perm hperm, ← hold]
    unfold pagesUsed
    rw [List.map_cons, List.sum_cons, hzero, pow_zero, Nat.add_comm]

theorem Full.mono {k : ℕ} {msg : String} (h : Full L n msg) (hk : n ≤ k) : Full L k msg := ⟨h.1, h.2.trans_le hk⟩

end Pages

section Owned
variable {L : Layout} {limit limit' n p : ℕ} {σ₀ σ σ' : Sys} {bufs bufs' : List Buffer} {b : Buffer} {bs : List UInt8}
  {r : Region} {f : Memory → Memory}

theorem owns_start {c : Cache} (hi : SysInv L c σ₀) : Owns L (SysInv.used L c σ₀) σ₀ [] σ₀ where
  run := .refl
  inv := ⟨c, hi, Nat.le_refl _⟩
  live := .refl _
  holds _ hb := absurd hb List.not_mem_nil
  kept _ _ _ _ := rfl

theorem Owns.perm (h : Owns L limit σ₀ bufs σ) (hp : bufs.Perm bufs') : Owns L limit σ₀ bufs' σ where
  run := h.run
  inv := h.inv
  live := h.live.trans ((hp.map Buffer.region).append_right _)
  holds b hb := h.holds b (hp.mem_iff.mpr hb)
  kept := h.kept

theorem Owns.mem_live (h : Owns L limit σ₀ bufs σ) (hb : b ∈ bufs) : b.region ∈ σ.live :=
  h.live.mem_iff.mpr (List.mem_append_left _ (List.mem_map_of_mem hb))

theorem Owns.mem_old (h : Owns L limit σ₀ bufs σ) (hr : r ∈ σ₀.live) : r ∈ σ.live :=
  h.live.mem_iff.mpr (List.mem_append_right _ hr)

theorem Owns.trans {news : List Buffer} (h : Owns L limit σ₀ bufs σ) (h' : Owns L limit' σ news σ') :
    Owns L limit' σ₀ (news ++ bufs) σ' := by
  have hkept : ∀ b ∈ bufs, bytesAt σ'.heap.mem b.ptr b.bytes.length = b.bytes := fun b hb => by
    refine (bytesAt_congr fun i hi => ?_).trans (h.holds b hb)
    exact h'.kept _ (h.mem_live hb) _ ⟨Nat.le_add_right _ _, Nat.add_lt_add_left hi _⟩
  refine ⟨h.run.trans h'.run, h'.inv, ?_, List.forall_mem_append.mpr ⟨h'.holds, hkept⟩,
    fun r hr a ha => (h'.kept r (h.mem_old hr) a ha).trans (h.kept r hr a ha)⟩
  rw [List.map_append, List.append_assoc]
  exact h'.live.trans (h.live.append_left _)

theorem Owns.fits (h : Owns L limit σ₀ bufs σ) (hb : b ∈ bufs) : b.ptr + b.bytes.length ≤ 2 ^ 32 := by
  obtain ⟨c, hi, -⟩ := h.inv
  exact hi.range_le (h.mem_live hb)

/-- The first buffer shares no byte with a region that is live besides it. -/
theorem Owns.disjoint_head (h : Owns L limit σ₀ (b :: bufs) σ) (hr : r ∈ bufs.map Buffer.region ++ σ₀.live) :
    Disjoint b.region.range r.range := by
  obtain ⟨c, hi, -⟩ := h.inv
  have hnd := (h.live.map Region.ptr).nodup_iff.mp hi.live.nodup
  rw [List.map_cons, List.cons_append, List.map_cons, List.nodup_cons] at hnd
  refine hi.ranges_disjoint (h.mem_live (List.mem_cons_self ..)) (h.live.mem_iff.mpr (List.mem_cons_of_mem _ hr)) ?_
  exact fun e => hnd.1 (e ▸ List.mem_map_of_mem hr)

theorem Owns.apart_head (h : Owns L limit σ₀ (b :: bufs) σ) (hr : r ∈ bufs.map Buffer.region ++ σ₀.live) :
    min (b.ptr + b.bytes.length) (r.ptr + r.bytes) ≤ max b.ptr r.ptr :=
  Set.Ico_disjoint_Ico.mp (h.disjoint_head hr)

theorem Owns.step (h : Owns L limit σ₀ bufs σ) (hs : HeapStep σ σ') (hne : σ.live ≠ σ'.live) :
    (∀ b ∈ bufs, bytesAt σ'.heap.mem b.ptr b.bytes.length = b.bytes) ∧
      ∀ r ∈ σ₀.live, ∀ a ∈ r.range, σ'.heap.mem a = σ₀.heap.mem a := by
  obtain ⟨c, hi, -⟩ := h.inv
  have hkept : ∀ r ∈ σ.live, ∀ a ∈ r.range, σ'.heap.mem a = σ.heap.mem a := by
    intro r hr a ha
    refine hi.contents_step hs hr ha ?_
    rintro ⟨x, v, -, rfl⟩
    exact hne rfl
  refine ⟨fun b hb => ?_, fun r hr a ha => (hkept r (h.mem_old hr) a ha).trans (h.kept r hr a ha)⟩
  refine (bytesAt_congr fun i hi => ?_).trans (h.holds b hb)
  exact hkept _ (h.mem_live hb) _ ⟨Nat.le_add_right _ _, Nat.add_lt_add_left hi _⟩

theorem Owns.kmalloc (h : Owns L limit σ₀ bufs σ) (hn : n ≤ maxSlabSize) :
    Meets (Full L (limit + 1)) (σ.kmalloc n) fun p σ' =>
      ∃ bs, bs.length = n ∧ Owns L (limit + 1) σ₀ (⟨p, bs⟩ :: bufs) σ' := by
  obtain ⟨c, hi, hused⟩ := h.inv
  rcases hi.kmalloc_used hn with ⟨p, h', c', hok, hi', hused'⟩ | ⟨⟨h', hpanic⟩, hfull⟩
  · have hstep := HeapStep.kmallocSmall hn hok
    obtain ⟨hholds, hkept⟩ := h.step hstep (List.cons_ne_self _ _).symm
    have hlen := length_bytesAt h'.mem p n
    refine .inl ⟨p, _, ?_, bytesAt h'.mem p n, hlen, h.run.tail hstep,
      ⟨c', hi', hused'.trans (Nat.add_le_add_right hused 1)⟩, ?_, ?_, hkept⟩
    · rw [Sys.kmalloc, Sys.getting, hok]
      exact if_pos hn
    · rw [List.map_cons, Buffer.region, hlen]
      exact h.live.cons _
    · rw [List.forall_mem_cons, hlen]
      exact ⟨rfl, hholds⟩
  · refine .inr ⟨_, σ.setHeap h', ?_, rfl, Nat.lt_succ_of_le (hfull.trans hused)⟩
    rw [Sys.kmalloc, Sys.getting, hpanic]

theorem eraseP_ptr {live : List Region} (hnd : (live.map Region.ptr).Nodup) (hr : r ∈ live) :
    (live.eraseP fun q => q.ptr = r.ptr) = live.erase r := by
  induction live with
  | nil => rfl
  | cons q live ih =>
    rw [List.map_cons, List.nodup_cons] at hnd
    by_cases hq : q = r
    · rw [hq, List.eraseP_cons_of_pos (by simp), List.erase_cons_head]
    · have hr' : r ∈ live := (List.mem_cons.mp hr).resolve_left fun e => hq e.symm
      have hne : q.ptr ≠ r.ptr := fun e => hnd.1 (e ▸ List.mem_map_of_mem hr')
      rw [List.eraseP_cons_of_neg (by simpa using hne), ih hnd.2 hr', List.erase_cons_tail (by simpa using hq)]

theorem Owns.kfree (h : Owns L limit σ₀ (b :: bufs) σ) :
    Meets (Full L limit) (σ.kfree b.ptr) fun _ σ' => Owns L limit σ₀ bufs σ' := by
  obtain ⟨c, hi, hused⟩ := h.inv
  have hr : b.region ∈ σ.live := h.mem_live (List.mem_cons_self ..)
  obtain ⟨h', c', hok, hzone, hi', -⟩ := hi.sfree hr rfl
  have hperm : (σ.live.erase b.region).Perm (bufs.map Buffer.region ++ σ₀.live) := by
    have herase := h.live.erase b.region
    rwa [List.map_cons, List.cons_append, List.erase_cons_head] at herase
  have hstep := HeapStep.sfree hr rfl hok
  have hne : σ.live ≠ σ.live.erase b.region := fun e => by
    have hlen := List.length_erase_of_mem hr
    have hpos := List.length_pos_of_mem hr
    rw [← e] at hlen
    omega
  have hused' : SysInv.used L c' ⟨h', σ.slabs, σ.live.erase b.region⟩ = SysInv.used L c σ := by
    have hslabs : c'.slabs = c.slabs := hi'.slabs.symm.trans hi.slabs
    rw [SysInv.used, SysInv.used, handedPages, handedPages, hslabs, hzone]
    refine (pagesUsed_perm (List.Perm.append_left _ (List.Perm.append_left _ ?_))).symm
    exact (blockPages_erase_object hr rfl).map _
  obtain ⟨hholds, hkept⟩ := h.step hstep hne
  refine .inl ⟨(), ⟨h', σ.slabs, σ.live.erase b.region⟩, ?_, h.run.tail hstep, ⟨c', hi', hused'.trans_le hused⟩, hperm,
    fun q hq => hholds q (List.mem_cons_of_mem _ hq), hkept⟩
  have hcall : Mem.kfree b.ptr σ.heap = .ok () h' := by
    rw [Mem.kfree, show sfree b.ptr σ.heap = .ok true h' from hok, Outcome.bind_ok, if_pos rfl]
  have hlive : (σ.live.eraseP fun q => q.ptr = b.ptr) = σ.live.erase b.region := eraseP_ptr hi.live.nodup hr
  rw [Sys.kfree, hcall]
  dsimp only
  rw [hlive]

theorem SysInv.run_store {c : Cache} (hi : SysInv L c σ) (hr : r ∈ σ.live)
    (hf : Within r.range σ.heap.mem (f σ.heap.mem)) :
    Relation.ReflTransGen HeapStep σ (σ.store f) ∧ SysInv L c (σ.store f) := by
  have hfits := hi.range_le hr
  have hpart : ∀ n ≤ r.bytes, Relation.ReflTransGen HeapStep σ
      (σ.setHeap { σ.heap with mem := splice σ.heap.mem (f σ.heap.mem) r.ptr n }) ∧
        SysInv L c (σ.setHeap { σ.heap with mem := splice σ.heap.mem (f σ.heap.mem) r.ptr n }) := by
    intro n hn
    induction n with
    | zero =>
      rw [splice_zero]
      exact ⟨.refl, hi⟩
    | succ n ih =>
      have hown : ClientByte (σ.setHeap { σ.heap with mem := splice σ.heap.mem (f σ.heap.mem) r.ptr n }) (r.ptr + n) :=
        .inl ⟨r, hr, ⟨Nat.le_add_right _ _, Nat.add_lt_add_left hn _⟩⟩
      have hbyte := store8_eq (m := splice σ.heap.mem (f σ.heap.mem) r.ptr n) (show r.ptr + n < 2 ^ 32 by omega)
        (f σ.heap.mem (r.ptr + n)).toNat
      rw [UInt8.ofNat_toNat, ← splice_succ] at hbyte
      obtain ⟨hrun, hi'⟩ := ih (by omega)
      rw [← hbyte]
      exact ⟨hrun.tail (.write hown), hi'.write hown⟩
  have hall := hpart r.bytes (Nat.le_refl _)
  rw [hf.splice] at hall
  exact hall

theorem Owns.store (h : Owns L limit σ₀ (b :: bufs) σ) (hf : Within b.region.range σ.heap.mem (f σ.heap.mem)) :
    Owns L limit σ₀ (⟨b.ptr, bytesAt (f σ.heap.mem) b.ptr b.bytes.length⟩ :: bufs) (σ.store f) := by
  obtain ⟨c, hi, hused⟩ := h.inv
  have hmem : b ∈ b :: bufs := List.mem_cons_self ..
  have hapart : ∀ r ∈ bufs.map Buffer.region ++ σ₀.live, ∀ a ∈ r.range, f σ.heap.mem a = σ.heap.mem a :=
    fun r hr a ha => hf a fun hb => Set.disjoint_left.mp (h.disjoint_head hr) hb ha
  obtain ⟨hrun, hi'⟩ := hi.run_store (h.mem_live hmem) hf
  refine ⟨h.run.trans hrun, ⟨c, hi', hused⟩, ?_, ?_, fun r hr a ha => ?_⟩
  · have hlive := h.live
    rw [List.map_cons, Buffer.region] at hlive ⊢
    rw [length_bytesAt]
    exact hlive
  · rw [List.forall_mem_cons, length_bytesAt]
    refine ⟨rfl, fun q hq => ?_⟩
    refine (bytesAt_congr fun i hi => ?_).trans (h.holds q (List.mem_cons_of_mem _ hq))
    exact hapart _ (List.mem_append_left _ (List.mem_map_of_mem hq)) _
      ⟨Nat.le_add_right _ _, Nat.add_lt_add_left hi _⟩
  · exact (hapart r (List.mem_append_right _ hr) a ha).trans (h.kept r hr a ha)

theorem Owns.fill (h : Owns L limit σ₀ (b :: bufs) σ) (hn : b.bytes.length = n)
    (hf : Within (Set.Ico b.ptr (b.ptr + n)) σ.heap.mem (f σ.heap.mem) ∧ bytesAt (f σ.heap.mem) b.ptr n = bs) :
    Owns L limit σ₀ (⟨b.ptr, bs⟩ :: bufs) (σ.store f) := by
  subst hn
  obtain ⟨hwithin, hbytes⟩ := hf
  have hstore := h.store hwithin
  rwa [hbytes] at hstore

theorem Owns.mono (h : Owns L limit σ₀ bufs σ) (hle : limit ≤ limit') : Owns L limit' σ₀ bufs σ := by
  obtain ⟨c, hi, hused⟩ := h.inv
  exact ⟨h.run, ⟨c, hi, hused.trans hle⟩, h.live, h.holds, h.kept⟩

end Owned

section Loops
variable {dest source val n k p : ℕ} {m : Memory}

theorem within_memset (val : ℕ) (h : dest + n ≤ 2 ^ 32) : Within (Set.Ico dest (dest + n)) m (memset dest val n m) :=
  fun _ hx => (memset_apply h).trans (if_neg hx)

theorem bytesAt_memset (h : dest + n ≤ 2 ^ 32) (hlow : dest ≤ p) (hhigh : p + k ≤ dest + n) :
    bytesAt (memset dest val n m) p k = List.replicate k (UInt8.ofNat val) := by
  refine List.eq_replicate_iff.mpr ⟨length_bytesAt _ _ _, fun b hb => ?_⟩
  obtain ⟨i, hi, rfl⟩ := List.mem_map.mp hb
  have hik := List.mem_range.mp hi
  exact (memset_apply h).trans (if_pos ⟨by omega, by omega⟩)

theorem within_memcopy (h : dest + n ≤ 2 ^ 32) (hs : source + n ≤ 2 ^ 32)
    (hdown : source + n ≤ dest ∨ dest ≤ source) :
    Within (Set.Ico dest (dest + n)) m (memcopy source dest n m) :=
  fun _ hx => (memcopy_apply h hs hdown).trans (if_neg hx)

theorem bytesAt_memset_of_disjoint (h : dest + n ≤ 2 ^ 32) (hdis : p + k ≤ dest ∨ dest + n ≤ p) :
    bytesAt (memset dest val n m) p k = bytesAt m p k := by
  refine (within_memset val h).bytesAt fun i hi hmem => ?_
  obtain ⟨hlow, hhigh⟩ := hmem
  omega

theorem bytesAt_memcopy_of_disjoint (h : dest + n ≤ 2 ^ 32) (hs : source + n ≤ 2 ^ 32)
    (hdown : source + n ≤ dest ∨ dest ≤ source) (hdis : p + k ≤ dest ∨ dest + n ≤ p) :
    bytesAt (memcopy source dest n m) p k = bytesAt m p k := by
  refine (within_memcopy h hs hdown).bytesAt fun i hi hmem => ?_
  obtain ⟨hlow, hhigh⟩ := hmem
  omega

theorem bytesAt_memcopy (h : dest + n ≤ 2 ^ 32) (hs : source + n ≤ 2 ^ 32)
    (hdown : source + n ≤ dest ∨ dest ≤ source) : bytesAt (memcopy source dest n m) dest n = bytesAt m source n := by
  refine bytesAt_congr fun i hi => ?_
  rw [memcopy_apply h hs hdown, if_pos ⟨by omega, by omega⟩, Nat.add_sub_cancel_left]

end Loops
end X86Osdev.Mem

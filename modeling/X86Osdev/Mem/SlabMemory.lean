import X86Osdev.Mem.Slab

/-! One slab in the bytes of its page: where the chunks lie, and what each store to the
header or to a buffer changes. -/

namespace X86Osdev.Mem
open X86Osdev.Lib ByteMemory

def chunks (size : ℕ) : ℕ := (pageSize - sizeofSlab) / (size + sizeofBuf)

def bufAt (s size i : ℕ) : ℕ := s + sizeofSlab + i * (size + sizeofBuf)

section Geometry
variable {s size i j : ℕ}

theorem bufAt_ge (s size i : ℕ) : s + 36 ≤ bufAt s size i := by
  unfold bufAt sizeofSlab
  omega

theorem bufAt_zero (s size : ℕ) : bufAt s size 0 = s + 36 := by
  simp [bufAt, sizeofSlab]

theorem bufAt_succ (s size i : ℕ) : bufAt s size (i + 1) = bufAt s size i + 8 + size := by
  unfold bufAt sizeofBuf
  ring

theorem bufAt_le (hij : i < j) : bufAt s size i + 8 + size ≤ bufAt s size j := by
  have h : (i + 1) * (size + 8) ≤ j * (size + 8) := Nat.mul_le_mul_right _ hij
  rw [← bufAt_succ]
  unfold bufAt sizeofBuf
  omega

theorem bufAt_apart (hij : i ≠ j) :
    bufAt s size i + 8 + size ≤ bufAt s size j ∨ bufAt s size j + 8 + size ≤ bufAt s size i := by
  rcases Nat.lt_or_gt_of_ne hij with h | h
  · exact .inl (bufAt_le h)
  · exact .inr (bufAt_le h)

theorem bufAt_inj (h : bufAt s size i = bufAt s size j) : i = j := by
  by_contra hij
  have := @bufAt_apart s size _ _ hij
  omega

theorem bufAt_end (hi : i < chunks size) : bufAt s size i + 8 + size ≤ s + 4096 := by
  have h : (i + 1) * (size + 8) ≤ chunks size * (size + 8) := Nat.mul_le_mul_right _ hi
  have hc : chunks size * (size + 8) ≤ 4096 - 36 := Nat.div_mul_le_self _ _
  rw [← bufAt_succ]
  unfold bufAt sizeofSlab sizeofBuf
  omega

theorem chunks_ge (hs : size ≤ maxSlabSize) : 7 ≤ chunks size := by
  unfold maxSlabSize at hs
  exact (Nat.le_div_iff_mul_le (by unfold sizeofBuf; omega)).mpr (by
    unfold sizeofBuf pageSize sizeofSlab
    omega)

theorem slabTot_eq (hs : size ≤ maxSlabSize) : slabTot size = chunks size - 1 := by
  have h7 := chunks_ge hs
  have hsum : u32 (size + sizeofBuf) = size + sizeofBuf := by
    apply u32_of_lt
    unfold maxSlabSize at hs
    unfold sizeofBuf
    omega
  rw [slabTot, hsum]
  exact if_neg (show chunks size ≠ 0 by omega)

theorem chunks_le (size : ℕ) : chunks size ≤ 4096 :=
  (Nat.div_le_self _ _).trans (by decide)

theorem slabTot_lt (hs : size ≤ maxSlabSize) : slabTot size < 2 ^ 32 := by
  have := chunks_le size
  rw [slabTot_eq hs]
  omega

end Geometry

/-- From `b` the `next_free` pointers lead through the chunks `chain` to NULL. -/
def FreeChain (m : Memory) (s size : ℕ) : ℕ → List ℕ → Prop
  | b, [] => b = 0
  | b, i :: chain => b = bufAt s size i ∧ FreeChain m s size (Buf.nextFree m b) chain

structure SlabFixed (m : Memory) (s size pinned : ℕ) : Prop where
  size_eq : Slab.size m s = size
  pinned_eq : Slab.pinned m s = pinned
  fingerprint_eq : Slab.fingerprint m s = slabFingerprint
  tot_eq : Slab.tot m s = slabTot size
  owner : ∀ i < chunks size, Buf.slab m (bufAt s size i) = s

structure SlabAt (m : Memory) (s size pinned alloc : ℕ) (chain : List ℕ) : Prop where
  fixed : SlabFixed m s size pinned
  alloc_eq : Slab.alloc m s = alloc
  free : FreeChain m s size (Slab.firstFree m s) chain
  chain_lt : ∀ i ∈ chain, i < chunks size

def FixedWord (s size w : ℕ) : Prop :=
  w = s ∨ w = s + 12 ∨ w = s + 24 ∨ ∃ i < chunks size, w = bufAt s size i

def MutableWord (s size w : ℕ) : Prop :=
  w = s + 8 ∨ w = s + 28 ∨ w = s + 32 ∨ ∃ i < chunks size, w = bufAt s size i + 4

section Frame
variable {m m' : Memory} {s size pinned alloc b w x v : ℕ} {chain : List ℕ}

theorem FixedWord.bounds (h : FixedWord s size w) :
    s ≤ w ∧ w + 4 ≤ s + 4096 ∧ (w + 4 ≤ s + 16 ∨ s + 24 ≤ w) := by
  rcases h with rfl | rfl | rfl | ⟨i, hi, rfl⟩
  · omega
  · omega
  · omega
  · have := bufAt_ge s size i
    have := @bufAt_end s _ _ hi
    omega

theorem MutableWord.bounds (h : MutableWord s size w) :
    s ≤ w ∧ w + 4 ≤ s + 4096 ∧ (w + 4 ≤ s + 16 ∨ s + 24 ≤ w) := by
  rcases h with rfl | rfl | rfl | ⟨i, hi, rfl⟩
  · omega
  · omega
  · omega
  · have := bufAt_ge s size i
    have := @bufAt_end s _ _ hi
    omega

theorem FixedWord.apart (hw : FixedWord s size w) (hx : MutableWord s size x) :
    x + 4 ≤ w ∨ w + 4 ≤ x := by
  have hge := bufAt_ge s size
  rcases hx with rfl | rfl | rfl | ⟨j, -, rfl⟩
  case inr.inr.inr =>
    have hj := hge j
    rcases hw with rfl | rfl | rfl | ⟨i, -, rfl⟩
    case inr.inr.inr =>
      by_cases hij : i = j
      · subst hij
        omega
      · have := @bufAt_apart s size _ _ hij
        omega
    all_goals omega
  all_goals
    rcases hw with rfl | rfl | rfl | ⟨i, -, rfl⟩
    case inr.inr.inr =>
      have hi := hge i
      omega
    all_goals omega

theorem nextFree_eq {i : ℕ} (hs : s + 4096 ≤ 2 ^ 32) (hi : i < chunks size) :
    Buf.nextFree m (bufAt s size i) = load32 m (bufAt s size i + 4) := by
  have := @bufAt_end s _ _ hi
  rw [Buf.nextFree, u32_of_lt (by omega)]

theorem setNextFree_eq {i : ℕ} (hs : s + 4096 ≤ 2 ^ 32) (hi : i < chunks size) :
    Buf.setNextFree m (bufAt s size i) v = store32 m (bufAt s size i + 4) v := by
  have := @bufAt_end s _ _ hi
  rw [Buf.setNextFree, u32_of_lt (by omega)]

theorem SlabFixed.congr (hs : s + 4096 ≤ 2 ^ 32) (hm : SlabFixed m s size pinned)
    (h : ∀ w, FixedWord s size w → load32 m' w = load32 m w)
    (h8 : load8 m' (s + 4) = load8 m (s + 4)) : SlabFixed m' s size pinned := by
  constructor
  · exact (h s (.inl rfl)).trans hm.size_eq
  · rw [← hm.pinned_eq, Slab.pinned, Slab.pinned, u32_of_lt (by omega)]
    exact h8
  · rw [← hm.fingerprint_eq, Slab.fingerprint, Slab.fingerprint, u32_of_lt (by omega)]
    exact h _ (.inr (.inl rfl))
  · rw [← hm.tot_eq, Slab.tot, Slab.tot, u32_of_lt (by omega)]
    exact h _ (.inr (.inr (.inl rfl)))
  · exact fun i hi => (h _ (.inr (.inr (.inr ⟨i, hi, rfl⟩)))).trans (hm.owner i hi)

theorem SlabFixed.store (hs : s + 4096 ≤ 2 ^ 32) (hm : SlabFixed m s size pinned)
    (hx : MutableWord s size x) : SlabFixed (store32 m x v) s size pinned := by
  have hxb := hx.bounds
  refine hm.congr hs (fun w hw => ?_) ?_
  · have hwb := hw.bounds
    exact load32_store32 (by omega) (by omega) (hw.apart hx)
  · have hx4 : x + 4 ≤ s + 4 ∨ s + 5 ≤ x := by
      rcases hx with rfl | rfl | rfl | ⟨i, hi, rfl⟩
      · omega
      · omega
      · omega
      · have := bufAt_ge s size i
        omega
    exact load8_store32 (by omega) (by omega) hx4

theorem freeChain_congr (hs : s + 4096 ≤ 2 ^ 32) (hlt : ∀ i ∈ chain, i < chunks size)
    (h : ∀ i ∈ chain, load32 m' (bufAt s size i + 4) = load32 m (bufAt s size i + 4))
    (hc : FreeChain m s size b chain) : FreeChain m' s size b chain := by
  induction chain generalizing b with
  | nil => exact hc
  | cons i chain ih =>
    obtain ⟨rfl, hc⟩ := hc
    refine ⟨rfl, ?_⟩
    have hi : i < chunks size := hlt i (List.mem_cons_self ..)
    rw [nextFree_eq hs hi, h i (List.mem_cons_self ..), ← nextFree_eq hs hi]
    exact ih (fun j hj => hlt j (List.mem_cons_of_mem _ hj))
      (fun j hj => h j (List.mem_cons_of_mem _ hj)) hc

theorem freeChain_store (hs : s + 4096 ≤ 2 ^ 32) (hlt : ∀ i ∈ chain, i < chunks size)
    (hx : MutableWord s size x) (hne : ∀ i ∈ chain, x ≠ bufAt s size i + 4)
    (hc : FreeChain m s size b chain) : FreeChain (store32 m x v) s size b chain := by
  refine freeChain_congr hs hlt (fun i hi => ?_) hc
  have hxb := hx.bounds
  have hib := bufAt_ge s size i
  have hie := @bufAt_end s _ _ (hlt i hi)
  refine load32_store32 (by omega) (by omega) ?_
  rcases hx with rfl | rfl | rfl | ⟨j, hj, rfl⟩
  · omega
  · omega
  · omega
  · have hij : i ≠ j := fun e => hne i hi (by rw [e])
    have := @bufAt_apart s size _ _ hij
    omega

theorem SlabAt.congr (hs : s + 4096 ≤ 2 ^ 32) (hm : SlabAt m s size pinned alloc chain)
    (h : ∀ w, FixedWord s size w ∨ MutableWord s size w → load32 m' w = load32 m w)
    (h8 : load8 m' (s + 4) = load8 m (s + 4)) : SlabAt m' s size pinned alloc chain := by
  refine ⟨hm.fixed.congr hs (fun w hw => h w (.inl hw)) h8, ?_, ?_, hm.chain_lt⟩
  · rw [← hm.alloc_eq, Slab.alloc, Slab.alloc, u32_of_lt (by omega)]
    exact h _ (.inr (.inr (.inl rfl)))
  · have hff : Slab.firstFree m' s = Slab.firstFree m s := by
      rw [Slab.firstFree, Slab.firstFree, u32_of_lt (by omega)]
      exact h _ (.inr (.inr (.inr (.inl rfl))))
    rw [hff]
    exact freeChain_congr hs hm.chain_lt
      (fun i hi => h _ (.inr (.inr (.inr (.inr ⟨i, hm.chain_lt i hi, rfl⟩))))) hm.free

def slabBytes (s size : ℕ) : Set ℕ :=
  {x | x = s + 4 ∨ ∃ w, (FixedWord s size w ∨ MutableWord s size w) ∧ w ≤ x ∧ x < w + 4}

def mutableBytes (s size : ℕ) : Set ℕ := {x | ∃ w, MutableWord s size w ∧ w ≤ x ∧ x < w + 4}

theorem mem_slabBytes_bounds (h : x ∈ slabBytes s size) :
    s ≤ x ∧ x < s + 4096 ∧ (x < s + 16 ∨ s + 24 ≤ x) := by
  rcases h with rfl | ⟨w, hw | hw, hwx, hxw⟩
  · omega
  · have := hw.bounds
    omega
  · have := hw.bounds
    omega

/-- The bytes of a chunk after its header are the client's. -/
theorem chunk_not_slabBytes {i : ℕ} (hlo : bufAt s size i + 8 ≤ x) (hhi : x < bufAt s size i + 8 + size) :
    x ∉ slabBytes s size := by
  have hge := bufAt_ge s size i
  rintro (rfl | ⟨w, hw, hwx, hxw⟩)
  · omega
  · -- a word lies in the header of the slab, or in that of a chunk
    have hword : w + 4 ≤ s + 36 ∨ ∃ j, bufAt s size j ≤ w ∧ w + 4 ≤ bufAt s size j + 8 := by
      rcases hw with (rfl | rfl | rfl | ⟨j, -, rfl⟩) | (rfl | rfl | rfl | ⟨j, -, rfl⟩)
      · exact .inl (by omega)
      · exact .inl (by omega)
      · exact .inl (by omega)
      · exact .inr ⟨j, le_rfl, by omega⟩
      · exact .inl (by omega)
      · exact .inl (by omega)
      · exact .inl (by omega)
      · exact .inr ⟨j, by omega, by omega⟩
    rcases hword with hw | ⟨j, hjw, hwj⟩
    · omega
    · by_cases hij : i = j
      · subst hij
        omega
      · have := @bufAt_apart s size _ _ hij
        omega

theorem mem_mutableBytes_bounds (h : x ∈ mutableBytes s size) :
    s ≤ x ∧ x < s + 4096 ∧ (x < s + 16 ∨ s + 24 ≤ x) := by
  obtain ⟨w, hw, hwx, hxw⟩ := h
  have := hw.bounds
  omega

theorem SlabAt.touches {P : Set ℕ} (hs : s + 4096 ≤ 2 ^ 32)
    (hm : SlabAt m s size pinned alloc chain) (h : Touches (2 ^ 32) P m m')
    (hP : ∀ x ∈ P, x ∉ slabBytes s size) : SlabAt m' s size pinned alloc chain := by
  refine hm.congr hs (fun w hw => ?_) ?_
  · have hwb : w + 4 ≤ s + 4096 := by
      rcases hw with hw | hw
      · exact hw.bounds.2.1
      · exact hw.bounds.2.1
    exact h.load (by omega) fun x hx hx' hxP => hP x hxP (.inr ⟨w, hw, hx, hx'⟩)
  · exact h.load (by omega) fun x hx hx' hxP => hP x hxP (.inl (by omega))

end Frame

section Stores
variable {m : Memory} {s size pinned alloc v i : ℕ} {chain : List ℕ}

theorem mutable_alloc (s size : ℕ) : MutableWord s size (s + 28) := .inr (.inl rfl)

theorem mutable_firstFree (s size : ℕ) : MutableWord s size (s + 32) := .inr (.inr (.inl rfl))

theorem mutable_nextFree (s : ℕ) (hi : i < chunks size) : MutableWord s size (bufAt s size i + 4) :=
  .inr (.inr (.inr ⟨i, hi, rfl⟩))

theorem field_ne_nextFree {k : ℕ} (hk : k < 40) : s + k ≠ bufAt s size i + 4 := by
  have := bufAt_ge s size i
  omega

theorem slabAt_setAlloc (hs : s + 4096 ≤ 2 ^ 32) (hv : v < 2 ^ 32)
    (hm : SlabAt m s size pinned alloc chain) :
    SlabAt (Slab.setAlloc m s v) s size pinned v chain := by
  have h28 : u32 (s + 28) = s + 28 := u32_of_lt (by omega)
  have h32 : u32 (s + 32) = s + 32 := u32_of_lt (by omega)
  rw [Slab.setAlloc, h28]
  refine ⟨hm.fixed.store hs (mutable_alloc s size), ?_, ?_, hm.chain_lt⟩
  · rw [Slab.alloc, h28]
    exact load32_store32_self (by omega) hv
  · have hff : Slab.firstFree (store32 m (s + 28) v) s = Slab.firstFree m s := by
      rw [Slab.firstFree, Slab.firstFree, h32]
      exact load32_store32 (by omega) (by omega) (by omega)
    rw [hff]
    exact freeChain_store hs hm.chain_lt (mutable_alloc s size)
      (fun i _ => field_ne_nextFree (by omega)) hm.free

theorem slabAt_setFirstFree {chain' : List ℕ} (hs : s + 4096 ≤ 2 ^ 32) (hv : v < 2 ^ 32)
    (hlt : ∀ i ∈ chain', i < chunks size) (hc : FreeChain m s size v chain')
    (hm : SlabAt m s size pinned alloc chain) :
    SlabAt (Slab.setFirstFree m s v) s size pinned alloc chain' := by
  have h28 : u32 (s + 28) = s + 28 := u32_of_lt (by omega)
  have h32 : u32 (s + 32) = s + 32 := u32_of_lt (by omega)
  rw [Slab.setFirstFree, h32]
  refine ⟨hm.fixed.store hs (mutable_firstFree s size), ?_, ?_, hlt⟩
  · rw [← hm.alloc_eq, Slab.alloc, Slab.alloc, h28]
    exact load32_store32 (by omega) (by omega) (by omega)
  · rw [Slab.firstFree, h32, load32_store32_self (by omega) hv]
    exact freeChain_store hs hlt (mutable_firstFree s size)
      (fun i _ => field_ne_nextFree (by omega)) hc

theorem slabAt_setNextFree (hs : s + 4096 ≤ 2 ^ 32) (hi : i < chunks size) (hic : i ∉ chain)
    (hm : SlabAt m s size pinned alloc chain) :
    SlabAt (Buf.setNextFree m (bufAt s size i) v) s size pinned alloc chain := by
  have hib := bufAt_ge s size i
  have hie := @bufAt_end s _ _ hi
  rw [setNextFree_eq hs hi]
  refine ⟨hm.fixed.store hs (mutable_nextFree s hi), ?_, ?_, hm.chain_lt⟩
  · rw [← hm.alloc_eq, Slab.alloc, Slab.alloc, u32_of_lt (by omega)]
    exact load32_store32 (by omega) (by omega) (by omega)
  · have hff : Slab.firstFree (store32 m (bufAt s size i + 4) v) s = Slab.firstFree m s := by
      rw [Slab.firstFree, Slab.firstFree, u32_of_lt (by omega)]
      exact load32_store32 (by omega) (by omega) (by omega)
    rw [hff]
    refine freeChain_store hs hm.chain_lt (mutable_nextFree s hi) (fun j hj e => ?_) hm.free
    have hji : j = i := @bufAt_inj s size _ _ (by omega)
    exact hic (hji ▸ hj)

theorem slabAt_setLastUsed (hs : s + 4096 ≤ 2 ^ 32) (hm : SlabAt m s size pinned alloc chain) :
    SlabAt (Slab.setLastUsed m s v) s size pinned alloc chain := by
  have hx : MutableWord s size (s + 8) := .inl rfl
  rw [Slab.setLastUsed, u32_of_lt (by omega)]
  refine ⟨hm.fixed.store hs hx, ?_, ?_, hm.chain_lt⟩
  · rw [← hm.alloc_eq, Slab.alloc, Slab.alloc, u32_of_lt (by omega)]
    exact load32_store32 (by omega) (by omega) (by omega)
  · have hff : Slab.firstFree (store32 m (s + 8) v) s = Slab.firstFree m s := by
      rw [Slab.firstFree, Slab.firstFree, u32_of_lt (by omega)]
      exact load32_store32 (by omega) (by omega) (by omega)
    rw [hff]
    exact freeChain_store hs hm.chain_lt hx (fun i _ => field_ne_nextFree (by omega)) hm.free

theorem bufAt_lt (hs : s + 4096 ≤ 2 ^ 32) (hi : i < chunks size) : bufAt s size i < 2 ^ 32 := by
  have := @bufAt_end s _ _ hi
  omega

theorem slabAt_takeBuf (hs : s + 4096 ≤ 2 ^ 32) (ha : alloc + 1 < 2 ^ 32)
    (hnd : (i :: chain).Nodup) (hm : SlabAt m s size pinned alloc (i :: chain)) :
    SlabAt (takeBuf s (Slab.firstFree m s) m) s size pinned (alloc + 1) chain := by
  obtain ⟨hout, hnext⟩ := hm.free
  have hi : i < chunks size := hm.chain_lt i (List.mem_cons_self ..)
  have hlt : ∀ j ∈ chain, j < chunks size := fun j hj => hm.chain_lt j (List.mem_cons_of_mem _ hj)
  have hu : u32 (Slab.alloc m s + 1) = alloc + 1 := by rw [hm.alloc_eq, u32_of_lt ha]
  have h₁ := slabAt_setAlloc hs ha hm
  have hnext₁ : FreeChain (Slab.setAlloc m s (alloc + 1)) s size
      (Buf.nextFree (Slab.setAlloc m s (alloc + 1)) (Slab.firstFree m s)) chain := by
    have hfree := h₁.free
    have hff : Slab.firstFree (Slab.setAlloc m s (alloc + 1)) s = bufAt s size i := hfree.1
    rw [hout, ← hff]
    exact hfree.2
  have h₂ := slabAt_setFirstFree hs (load32_lt _ _) hlt hnext₁ h₁
  have h₃ := slabAt_setNextFree (v := 0) hs hi (List.nodup_cons.mp hnd).1 h₂
  rw [← hout] at h₃
  rw [takeBuf, hu]
  exact h₃

theorem slabAt_linkBuf {tickCount : ℕ} (hs : s + 4096 ≤ 2 ^ 32) (ha : 0 < alloc)
    (ha' : alloc < 2 ^ 32) (hi : i < chunks size) (hic : i ∉ chain)
    (hm : SlabAt m s size pinned alloc chain) :
    SlabAt (Slab.setLastUsed (Slab.setFirstFree
      (Buf.setNextFree (Slab.setAlloc m s (Slab.alloc m s - 1)) (bufAt s size i)
        (Slab.firstFree (Slab.setAlloc m s (Slab.alloc m s - 1)) s)) s (bufAt s size i)) s tickCount)
      s size pinned (alloc - 1) (i :: chain) := by
  rw [hm.alloc_eq]
  have h₁ := slabAt_setAlloc (v := alloc - 1) hs (by omega) hm
  set m₁ := Slab.setAlloc m s (alloc - 1)
  have h₂ := slabAt_setNextFree (v := Slab.firstFree m₁ s) hs hi hic h₁
  set m₂ := Buf.setNextFree m₁ (bufAt s size i) (Slab.firstFree m₁ s) with hm₂
  have hie := @bufAt_end s _ _ hi
  have hib := bufAt_ge s size i
  have hff : Slab.firstFree m₂ s = Slab.firstFree m₁ s := by
    rw [hm₂, setNextFree_eq hs hi, Slab.firstFree, Slab.firstFree, u32_of_lt (by omega)]
    exact load32_store32 (by omega) (by omega) (by omega)
  have hnf : Buf.nextFree m₂ (bufAt s size i) = Slab.firstFree m₁ s := by
    rw [nextFree_eq hs hi, hm₂, setNextFree_eq hs hi]
    exact load32_store32_self (by omega) (load32_lt _ _)
  have hc : FreeChain m₂ s size (bufAt s size i) (i :: chain) := by
    refine ⟨rfl, ?_⟩
    rw [hnf, ← hff]
    exact h₂.free
  have hlt : ∀ j ∈ i :: chain, j < chunks size := by
    intro j hj
    rcases List.mem_cons.mp hj with rfl | hj
    · exact hi
    · exact hm.chain_lt j hj
  exact slabAt_setLastUsed hs (slabAt_setFirstFree hs (bufAt_lt hs hi) hlt hc h₂)

theorem touches_mutable {x : ℕ} (hs : s + 4096 ≤ 2 ^ 32) (hx : MutableWord s size x) :
    Touches (2 ^ 32) (mutableBytes s size) m (store32 m x v) := by
  have := hx.bounds
  exact touches_store32 (by omega) fun y hy hy' => ⟨x, hx, hy, hy'⟩

theorem touches_setAlloc (hs : s + 4096 ≤ 2 ^ 32) :
    Touches (2 ^ 32) (mutableBytes s size) m (Slab.setAlloc m s v) := by
  rw [Slab.setAlloc, u32_of_lt (by omega)]
  exact touches_mutable hs (mutable_alloc s size)

theorem touches_setFirstFree (hs : s + 4096 ≤ 2 ^ 32) :
    Touches (2 ^ 32) (mutableBytes s size) m (Slab.setFirstFree m s v) := by
  rw [Slab.setFirstFree, u32_of_lt (by omega)]
  exact touches_mutable hs (mutable_firstFree s size)

theorem touches_setLastUsed (hs : s + 4096 ≤ 2 ^ 32) :
    Touches (2 ^ 32) (mutableBytes s size) m (Slab.setLastUsed m s v) := by
  rw [Slab.setLastUsed, u32_of_lt (by omega)]
  exact touches_mutable hs (.inl rfl)

theorem touches_setNextFree (hs : s + 4096 ≤ 2 ^ 32) (hi : i < chunks size) :
    Touches (2 ^ 32) (mutableBytes s size) m (Buf.setNextFree m (bufAt s size i) v) := by
  rw [setNextFree_eq hs hi]
  exact touches_mutable hs (mutable_nextFree s hi)

theorem touches_takeBuf (hs : s + 4096 ≤ 2 ^ 32) (hi : i < chunks size) :
    Touches (2 ^ 32) (mutableBytes s size) m (takeBuf s (bufAt s size i) m) :=
  ((touches_setAlloc hs).trans (touches_setFirstFree hs)).trans (touches_setNextFree hs hi)

theorem touches_linkBuf {tickCount v₁ v₂ : ℕ} (hs : s + 4096 ≤ 2 ^ 32) (hi : i < chunks size) :
    Touches (2 ^ 32) (mutableBytes s size) m (Slab.setLastUsed (Slab.setFirstFree
      (Buf.setNextFree (Slab.setAlloc m s v) (bufAt s size i) v₁) s v₂) s tickCount) :=
  (((touches_setAlloc hs).trans (touches_setNextFree hs hi)).trans
    (touches_setFirstFree hs)).trans (touches_setLastUsed hs)

end Stores

def pageBytes (s : ℕ) : Set ℕ := {x | s ≤ x ∧ x < s + 4096}

section Create
variable {m : Memory} {s size : ℕ}

structure Linked (m m' : Memory) (s size n : ℕ) : Prop where
  owner : ∀ i < n, load32 m' (bufAt s size i) = s
  next : ∀ i < n, load32 m' (bufAt s size i + 4) =
    if i < slabTot size then bufAt s size (i + 1) else 0
  touches : Touches (2 ^ 32) {x | s + 36 ≤ x ∧ x < s + 4096} m m'

theorem linkBufs_spec (hs : s + 4096 ≤ 2 ^ 32) (hz : size ≤ maxSlabSize) {n : ℕ}
    (hn : n ≤ chunks size) :
    Linked m (linkBufs s size (slabTot size) n (bufAt s size 0, m)).2 s size n ∧
      (n < chunks size →
        (linkBufs s size (slabTot size) n (bufAt s size 0, m)).1 = bufAt s size n) := by
  induction n with
  | zero =>
    exact ⟨⟨fun i hi => absurd hi (Nat.not_lt_zero i), fun i hi => absurd hi (Nat.not_lt_zero i),
      .refl _ _ _⟩, fun _ => rfl⟩
  | succ n ih =>
    obtain ⟨hl, hfb⟩ := ih (by omega)
    have hfb := hfb (by omega)
    have hbe := @bufAt_end s size n (by omega)
    have hbg := bufAt_ge s size n
    have hnf : ∀ {m' : Memory} {v : ℕ}, Buf.setNextFree m' (bufAt s size n) v =
        store32 m' (bufAt s size n + 4) v := setNextFree_eq hs (by omega)
    have htot := slabTot_eq hz
    rw [linkBufs]
    set st := linkBufs s size (slabTot size) n (bufAt s size 0, m)
    simp only [linkBuf, hfb, hnf, Buf.setSlab]
    have hnext : ∀ k, n + 1 + k < chunks size + 1 → n < slabTot size →
        u32 (bufAt s size n + sizeofBuf + size) = bufAt s size (n + 1) := by
      intro k hk hlt
      have := @bufAt_end s size (n + 1) (by omega)
      rw [bufAt_succ, sizeofBuf, u32_of_lt]
      rw [bufAt_succ] at this
      omega
    -- the two stores of a turn leave the earlier buffers alone
    have hold : ∀ w, w + 4 ≤ bufAt s size n →
        load32 (store32 (store32 st.2 (bufAt s size n) s) (bufAt s size n + 4)
          (if n < slabTot size then u32 (bufAt s size n + sizeofBuf + size) else 0)) w =
          load32 st.2 w := by
      intro w hw
      rw [load32_store32 (by omega) (by omega) (by omega),
        load32_store32 (by omega) (by omega) (by omega)]
    refine ⟨⟨?_, ?_, ?_⟩, ?_⟩
    · intro i hi
      rcases Nat.lt_succ_iff_lt_or_eq.mp hi with hi | rfl
      · have := @bufAt_le s size _ _ hi
        rw [hold _ (by omega)]
        exact hl.owner i hi
      · rw [load32_store32 (by omega) (by omega) (by omega)]
        exact load32_store32_self (by omega) (by omega)
    · intro i hi
      rcases Nat.lt_succ_iff_lt_or_eq.mp hi with hi | rfl
      · have := @bufAt_le s size _ _ hi
        rw [hold _ (by omega)]
        exact hl.next i hi
      · rw [load32_store32_self (by omega)]
        · split
          · next hlt => exact hnext 0 (by omega) hlt
          · rfl
        · split
          · exact Nat.mod_lt _ (by decide)
          · decide
    · have h₁ : Touches (2 ^ 32) {x | s + 36 ≤ x ∧ x < s + 4096} st.2
          (store32 st.2 (bufAt s size n) s) :=
        touches_store32 (by omega) fun x hx hx' => ⟨by omega, by omega⟩
      refine (hl.touches.trans h₁).trans ?_
      exact touches_store32 (by omega) fun x hx hx' => ⟨by omega, by omega⟩
    · intro hlt
      exact hnext 0 (by omega) (by omega)

theorem freeChain_range {m' : Memory} (hs : s + 4096 ≤ 2 ^ 32) (hz : size ≤ maxSlabSize)
    (hnext : ∀ i < chunks size, load32 m' (bufAt s size i + 4) =
      if i < slabTot size then bufAt s size (i + 1) else 0) {n k : ℕ}
    (hnk : n + k = chunks size) (hn : 0 < n) :
    FreeChain m' s size (bufAt s size k) (List.range' k n) := by
  have htot := slabTot_eq hz
  induction n generalizing k with
  | zero => omega
  | succ n ih =>
    refine ⟨rfl, ?_⟩
    rw [nextFree_eq hs (by omega), hnext k (by omega)]
    rcases Nat.eq_zero_or_pos n with rfl | hn
    · rw [if_neg (by omega)]
      rfl
    · rw [if_pos (by omega)]
      exact ih (by omega) hn

theorem slabHeader_fields (hs : s + 4096 ≤ 2 ^ 32) (hz : size ≤ maxSlabSize) :
    load32 (slabHeader s size m) s = size ∧ load8 (slabHeader s size m) (s + 4) = 0 ∧
      load32 (slabHeader s size m) (s + 12) = slabFingerprint ∧
      load32 (slabHeader s size m) (s + 24) = slabTot size ∧
      load32 (slabHeader s size m) (s + 28) = 0 ∧
      load32 (slabHeader s size m) (s + 32) = bufAt s size 0 := by
  have htot : slabTot size < 2 ^ 32 := slabTot_lt hz
  have hsize : size < 2 ^ 32 := by
    unfold maxSlabSize at hz
    omega
  have h36 : u32 (s + sizeofSlab) = bufAt s size 0 := by
    rw [bufAt_zero, sizeofSlab, u32_of_lt (by omega)]
  have hb : bufAt s size 0 < 2 ^ 32 := by
    rw [bufAt_zero]
    omega
  have hfp : slabFingerprint < 2 ^ 32 := by decide
  have hk : ∀ k, k ≤ 36 → u32 (s + k) = s + k := fun k _ => u32_of_lt (by omega)
  simp only [slabHeader, Slab.setSize, Slab.setAlloc, Slab.setTot, Slab.setFingerprint,
    Slab.setPinned, Slab.setLastUsed, Slab.setFirstFree, h36, hk 28 (by omega), hk 24 (by omega),
    hk 12 (by omega), hk 4 (by omega), hk 8 (by omega), hk 32 (by omega)]
  have h8 : ∀ {m' : Memory} {a v : ℕ}, s + 5 ≤ a → a + 4 ≤ s + 4096 →
      load8 (store32 m' a v) (s + 4) = load8 m' (s + 4) := fun ha ha' =>
    load8_store32 (by omega) (by omega) (by omega)
  have h32 : ∀ {m' : Memory} {a b v : ℕ}, a + 4 ≤ s + 4096 → b + 4 ≤ s + 4096 →
      a + 4 ≤ b ∨ b + 4 ≤ a → load32 (store32 m' a v) b = load32 m' b := fun ha hb h =>
    load32_store32 (by omega) (by omega) h
  have h32' : ∀ {m' : Memory} {b v : ℕ}, b + 4 ≤ s + 4096 → s + 5 ≤ b ∨ b + 4 ≤ s + 4 →
      load32 (store8 m' (s + 4) v) b = load32 m' b := fun hb h =>
    load32_store8 (by omega) (by omega) h
  refine ⟨?_, ?_, ?_, ?_, ?_, ?_⟩
  · rw [h32, h32, h32', h32, h32, h32, load32_store32_self] <;> omega
  · rw [h8, h8, load8_store8_self] <;> omega
  · rw [h32, h32, h32', load32_store32_self] <;> omega
  · rw [h32, h32, h32', h32, load32_store32_self] <;> omega
  · rw [h32, h32, h32', h32, h32, load32_store32_self] <;> omega
  · rw [load32_store32_self] <;> omega

theorem touches_slabHeader (hs : s + 4096 ≤ 2 ^ 32) :
    Touches (2 ^ 32) (pageBytes s) m (slabHeader s size m) := by
  have hk : ∀ {m' : Memory} {v : ℕ} (k : ℕ), k ≤ 32 →
      Touches (2 ^ 32) (pageBytes s) m' (store32 m' (u32 (s + k)) v) := by
    intro m' v k hk
    rw [u32_of_lt (by omega)]
    exact touches_store32 (by omega) fun x hx hx' => ⟨by omega, by omega⟩
  have h₁ := @hk m size 0 (by omega)
  rw [Nat.add_zero, u32_of_lt (by omega)] at h₁
  have hpin : ∀ {m' : Memory}, Touches (2 ^ 32) (pageBytes s) m' (Slab.setPinned m' s 0) := by
    intro m'
    rw [Slab.setPinned, u32_of_lt (by omega)]
    exact touches_store (by omega) fun x hx hx' => ⟨by omega, by omega⟩
  exact (((((h₁.trans (hk 28 (by omega))).trans (hk 24 (by omega))).trans (hk 12 (by omega))).trans
    hpin).trans (hk 8 (by omega))).trans (hk 32 (by omega))

/-- `createSlab` before the slab is put into a list: every chunk is free. -/
def newSlab (s size : ℕ) (m : Memory) : Memory :=
  (linkBufs s size (slabTot size) (slabTot size + 1)
    (u32 (s + sizeofSlab), slabHeader s size m)).2

theorem newSlab_spec (hs : s + 4096 ≤ 2 ^ 32) (hz : size ≤ maxSlabSize) :
    SlabAt (newSlab s size m) s size 0 0 (List.range (chunks size)) ∧
      Touches (2 ^ 32) (pageBytes s) m (newSlab s size m) := by
  have htot := slabTot_eq hz
  have h7 := chunks_ge hz
  have hfb : u32 (s + sizeofSlab) = bufAt s size 0 := by
    rw [bufAt_zero, sizeofSlab, u32_of_lt (by omega)]
  obtain ⟨hl, -⟩ := linkBufs_spec (m := slabHeader s size m) hs hz (le_refl (chunks size))
  have hdef : newSlab s size m = (linkBufs s size (slabTot size) (chunks size)
      (bufAt s size 0, slabHeader s size m)).2 := by
    rw [newSlab, hfb, htot, Nat.sub_add_cancel (by omega)]
  rw [← hdef] at hl
  obtain ⟨hsize, hpin, hfp, ht, ha, hff⟩ := slabHeader_fields (m := m) hs hz
  have hkeep : ∀ w, w + 4 ≤ s + 36 → load32 (newSlab s size m) w = load32 (slabHeader s size m) w :=
    fun w hw => hl.touches.load (by omega) fun x hx hx' hP => by
      have : s + 36 ≤ x := hP.1
      omega
  refine ⟨⟨⟨?_, ?_, ?_, ?_, hl.owner⟩, ?_, ?_, fun i hi => List.mem_range.mp hi⟩, ?_⟩
  · exact (hkeep s (by omega)).trans hsize
  · rw [Slab.pinned, u32_of_lt (by omega), ← hpin]
    exact hl.touches.load (by omega) fun x hx hx' hP => by
      have : s + 36 ≤ x := hP.1
      omega
  · rw [Slab.fingerprint, u32_of_lt (by omega), hkeep _ (by omega), hfp]
  · rw [Slab.tot, u32_of_lt (by omega), hkeep _ (by omega), ht]
  · rw [Slab.alloc, u32_of_lt (by omega), hkeep _ (by omega), ha]
  · rw [Slab.firstFree, u32_of_lt (by omega), hkeep _ (by omega), hff, List.range_eq_range']
    exact freeChain_range hs hz hl.next (by omega) (by omega)
  · refine (touches_slabHeader hs).trans (hl.touches.mono ?_)
    exact fun x hx => ⟨by have := hx.1; omega, hx.2⟩

end Create

end X86Osdev.Mem

import X86Osdev.Mem.SlabCache
import Mathlib.Data.List.Find

/-! Whole calls of slab.c on a cache that satisfies its invariant, as steps of the abstract cache. -/

namespace X86Osdev.Mem
open X86Osdev.Lib ByteMemory CircularList

namespace Cache
variable (c : Cache)

def find (size : ℕ) : Option ℕ :=
  ((c.lists .used).find? fun s => size == (c.view s).size).or
    ((c.lists .free).find? fun s => size == (c.view s).size)

def took (s : ℕ) (v : SlabState) : Cache :=
  if v.status = (c.view s).status then c.setView s v else (c.setView s v).toTail v.status s

def gave (s : ℕ) (v : SlabState) : Cache :=
  if v.status = .free then (c.setView s v).toTail .free s else (c.setView s v).toHead .used s

section Fields
variable (s : ℕ) (v : SlabState)

@[simp] theorem slabs_took : (c.took s v).slabs = c.slabs := by
  unfold took
  split <;> rfl

@[simp] theorem view_took : (c.took s v).view = Function.update c.view s v := by
  unfold took
  split <;> rfl

@[simp] theorem loose_took : (c.took s v).loose = c.loose := by
  unfold took
  split <;> rfl

@[simp] theorem slabs_gave : (c.gave s v).slabs = c.slabs := by
  unfold gave
  split <;> rfl

@[simp] theorem view_gave : (c.gave s v).view = Function.update c.view s v := by
  unfold gave
  split <;> rfl

@[simp] theorem loose_gave : (c.gave s v).loose = c.loose := by
  unfold gave
  split <;> rfl

end Fields
end Cache

section Locks
variable {h : Heap} {l : LockName}

theorem getLock_free (hl : h.locks l = false) :
    getLock l h = .ok () { h with locks := Function.update h.locks l true } := by
  rw [getLock, hl]
  rfl

theorem unlock_getLock (hl : h.locks l = false) (m : Memory) :
    unlock l { h with mem := m, locks := Function.update h.locks l true } = { h with mem := m } := by
  have hu : Function.update (Function.update h.locks l true) l false = h.locks := by
    rw [Function.update_idem, ← hl, Function.update_eq_self]
  rw [unlock, hu]

end Locks

section Find
variable {h : Heap} {c : Cache} {s size : ℕ}

theorem findIn_eq (hc : CacheInv h.mem h.kMemCache c) (l : CacheList) :
    findIn h size l = some ((c.lists l).find? fun s => size == (c.view s).size) := by
  have hlt : ∀ x ∈ cacheList h.kMemCache l :: listNodes c l, x < 2 ^ 32 := fun x hx =>
    hc.spaced.lt (hc.nodesIn l x hx)
  have hfind := @listFind_eq _ _ _ (hasSize h.mem size) (hc.rings.carries l) hlt
  have hslab : ∀ s ∈ c.lists l, Slab.ofHead (s + 16) = s ∧ Slab.size h.mem s = (c.view s).size := by
    intro s hs
    obtain ⟨hs, -⟩ := (hc.listed l s).mp hs
    exact ⟨ofHead_eq (hc.placed s hs), (hc.slab s hs).fixed.size_eq⟩
  have hcongr : (c.lists l).find? (hasSize h.mem size ∘ (· + 16)) =
      (c.lists l).find? fun s => size == (c.view s).size := by
    refine List.find?_congr fun s hs => ?_
    obtain ⟨hof, hsz⟩ := hslab s hs
    simp only [Function.comp, hasSize, hof, hsz]
  rw [findIn, hfind, listNodes, List.find?_map, hcongr, Option.map_some]
  cases hres : (c.lists l).find? fun s => size == (c.view s).size with
  | none => rfl
  | some s => simp [(hslab s (List.mem_of_find?_eq_some hres)).1]

theorem findSlab_eq (hc : CacheInv h.mem h.kMemCache c) :
    findSlab size h = .ok (c.find size) h := by
  rw [findSlab, findIn_eq hc, findIn_eq hc, Cache.find]
  cases (c.lists .used).find? fun s => size == (c.view s).size <;> rfl

theorem CacheInv.find_some (hc : CacheInv h.mem h.kMemCache c) (hf : c.find size = some s) :
    s ∈ c.slabs ∧ c.loose ≠ some s ∧ (c.view s).size = size ∧
      (c.view s).live.length < slabTot (c.view s).size ∧
      s ∈ c.lists (c.view s).status := by
  have key : ∀ l, s ∈ c.lists l → (c.view s).size = size → l = .used ∨ l = .free →
      s ∈ c.slabs ∧ c.loose ≠ some s ∧ (c.view s).size = size ∧
      (c.view s).live.length < slabTot (c.view s).size ∧ s ∈ c.lists (c.view s).status := by
    intro l hs hz hl
    obtain ⟨hmem, hloose, hst⟩ := (hc.listed l s).mp hs
    refine ⟨hmem, hloose, hz, ?_, hst ▸ hs⟩
    rcases hl with rfl | rfl
    · exact ((c.view s).status_used.mp hst).2
    · have h0 := (c.view s).status_free.mp hst
      have h7 := chunks_ge (c.view s).size_le
      rw [slabTot_eq (c.view s).size_le]
      omega
  rw [Cache.find, Option.or_eq_some_iff] at hf
  rcases hf with hf | ⟨-, hf⟩
  · have hz := List.find?_some hf
    exact key .used (List.mem_of_find?_eq_some hf) (beq_iff_eq.mp hz).symm (.inl rfl)
  · have hz := List.find?_some hf
    exact key .free (List.mem_of_find?_eq_some hf) (beq_iff_eq.mp hz).symm (.inr rfl)

/-- No slab is found exactly when every one of the size is full. -/
theorem CacheInv.find_none (hc : CacheInv h.mem h.kMemCache c) :
    c.find size = none ↔ ∀ s ∈ c.slabs, c.loose ≠ some s → (c.view s).size = size →
      (c.view s).live.length = slabTot (c.view s).size := by
  rw [Cache.find, Option.or_eq_none_iff, List.find?_eq_none, List.find?_eq_none]
  constructor
  · rintro ⟨hu, hf⟩ s hs hl hz
    have hown := hc.mem_own hs hl
    cases hst : (c.view s).status with
    | free =>
      rw [hst] at hown
      exact absurd (by simp [hz]) (hf s hown)
    | used =>
      rw [hst] at hown
      exact absurd (by simp [hz]) (hu s hown)
    | empty => exact (c.view s).status_empty.mp hst
  · intro hall
    have key : ∀ l, l ≠ .empty → ∀ s ∈ c.lists l, ¬ (size == (c.view s).size) = true := by
      intro l hl s hs hz
      obtain ⟨hmem, hloose, hst⟩ := (hc.listed l s).mp hs
      have hfull := hall s hmem hloose (beq_iff_eq.mp hz).symm
      exact hl (hst.symm.trans ((c.view s).status_empty.mpr hfull))
    exact ⟨key .used (by decide), key .free (by decide)⟩

end Find

section Salloc
variable {h : Heap} {m : Memory} {kc : ℕ} {c : Cache} {s i size : ℕ} {chain : List ℕ}

theorem CacheInv.takeBuf (hc : CacheInv m kc c) (hs : s ∈ c.slabs)
    (hch : (c.view s).chain = i :: chain) (hlt : (c.view s).live.length < slabTot (c.view s).size) :
    Slab.firstFree m s = bufAt s (c.view s).size i ∧ i < chunks (c.view s).size ∧
      SlabAt (takeBuf s (bufAt s (c.view s).size i) m) s (c.view s).size (c.view s).pinned
        ((c.view s).live.length + 1) chain ∧
      Touches (2 ^ 32) (mutableBytes s (c.view s).size) m
        (Mem.takeBuf s (bufAt s (c.view s).size i) m) := by
  have hfit := (hc.placed s hs).fits
  have hm := hc.slab s hs
  rw [hch] at hm
  have hi : i < chunks (c.view s).size := hm.chain_lt i (List.mem_cons_self ..)
  have hnd : (i :: chain).Nodup := hch ▸ (List.nodup_append'.mp (c.view s).nodup).1
  have htot := slabTot_lt (c.view s).size_le
  have htake := slabAt_takeBuf hfit (by omega) hnd hm
  rw [hm.free.1] at htake
  exact ⟨hm.free.1, hi, htake, touches_takeBuf hfit hi⟩

theorem CacheInv.chunk_address (hc : CacheInv m kc c) (hs : s ∈ c.slabs) (hi : i < chunks (c.view s).size) :
    u32 (bufAt s (c.view s).size i + sizeofBuf) = bufAt s (c.view s).size i + 8 ∧
      bufAt s (c.view s).size i ≠ 0 := by
  have hfit := (hc.placed s hs).fits
  have hbe := @bufAt_end s _ _ hi
  have hbg := bufAt_ge s (c.view s).size i
  have hsz := (c.view s).size_ge
  exact ⟨u32_of_lt (by unfold sizeofBuf; omega), by omega⟩

theorem takeFromUsed_eq (hc : CacheInv h.mem h.kMemCache c) (hs : s ∈ c.slabs)
    (hl : c.loose ≠ some s) (hch : (c.view s).chain = i :: chain)
    (hlt : (c.view s).live.length < slabTot (c.view s).size) (hst : (c.view s).status = .used) :
    ∃ m', takeFromUsed s h = .ok (bufAt s (c.view s).size i + 8)
        (unlock .slabLock { h with mem := m' }) ∧
      CacheInv m' h.kMemCache (c.took s ((c.view s).take hch hlt)) ∧
      Touches (2 ^ 32) (cacheBytes h.kMemCache c.slabs) h.mem m' := by
  obtain ⟨hff, hi, hm, ht⟩ := hc.takeBuf hs hch hlt
  obtain ⟨hout, hne⟩ := hc.chunk_address hs hi
  have hfit := (hc.placed s hs).fits
  have hsz := (c.view s).size_le
  have hpos : 0 < (c.view s).live.length := ((c.view s).status_used.mp hst).1
  set m₁ := Mem.takeBuf s (bufAt s (c.view s).size i) h.mem with hm₁
  unfold takeFromUsed
  rw [hff, if_neg hne, hout]
  simp only [← hm₁, hm.alloc_eq, hm.fixed.tot_eq]
  -- The slab counts as full with one chunk left, since `tot` is one less than their number.
  by_cases hfull : slabTot (c.view s).size ≤ (c.view s).live.length + 1
  · have heq : slabTot (c.view s).size = (c.view s).live.length + 1 := by omega
    have hnew : ((c.view s).take hch hlt).status = .empty :=
      ((c.view s).take hch hlt).status_empty.mpr heq.symm
    have ht' := ht.trans (touches_setAlloc (v := slabTot (c.view s).size) hfit)
    refine ⟨_, rfl, ?_, ?_⟩
    · rw [if_pos hfull, Cache.took, if_neg (by rw [hnew, hst]; decide), ← hnew]
      have htot := slabTot_lt hsz
      refine hc.toTail hs hl ht' ?_
      have hset := slabAt_setAlloc hfit htot hm
      rw [heq] at hset ⊢
      exact hset
    · rw [if_pos hfull]
      exact hc.touches_toTail hs hl ht' .empty
  · have hnew : ((c.view s).take hch hlt).status = .used :=
      ((c.view s).take hch hlt).status_used.mpr ⟨Nat.succ_pos _, by
        change (c.view s).live.length + 1 < slabTot (c.view s).size
        omega⟩
    refine ⟨_, rfl, ?_, ?_⟩
    · rw [if_neg hfull, Cache.took, if_pos (by rw [hnew, hst])]
      exact hc.setView hs hl (by rw [hnew, hst]) ht hm
    · rw [if_neg hfull]
      exact ht.mono (mutableBytes_subset hs)

theorem takeFromFree_eq (hc : CacheInv h.mem h.kMemCache c) (hs : s ∈ c.slabs)
    (hl : c.loose ≠ some s) (hch : (c.view s).chain = i :: chain)
    (hlt : (c.view s).live.length < slabTot (c.view s).size) (hst : (c.view s).status = .free) :
    ∃ m', takeFromFree s h = .ok (bufAt s (c.view s).size i + 8)
        (unlock .slabLock { h with mem := m' }) ∧
      CacheInv m' h.kMemCache (c.took s ((c.view s).take hch hlt)) ∧
      Touches (2 ^ 32) (cacheBytes h.kMemCache c.slabs) h.mem m' := by
  obtain ⟨hff, hi, hm, ht⟩ := hc.takeBuf hs hch hlt
  obtain ⟨hout, hne⟩ := hc.chunk_address hs hi
  have hsz := (c.view s).size_le
  have h7 := chunks_ge hsz
  have htot := slabTot_eq hsz
  have h0 : (c.view s).live.length = 0 := (c.view s).status_free.mp hst
  have hnew : ((c.view s).take hch hlt).status = .used :=
    ((c.view s).take hch hlt).status_used.mpr ⟨Nat.succ_pos _, by
      change (c.view s).live.length + 1 < slabTot (c.view s).size
      omega⟩
  unfold takeFromFree
  rw [hff, if_neg hne, hout]
  refine ⟨_, rfl, ?_, hc.touches_toTail hs hl ht .used⟩
  rw [Cache.took, if_neg (by rw [hnew, hst]; decide), ← hnew]
  exact hc.toTail hs hl ht hm

/-- What `salloc` does when a slab of the size has a chunk to spare. -/
theorem salloc_some (hc : CacheInv h.mem h.kMemCache c) (hlock : h.locks .slabLock = false)
    (hf : c.find size = some s) : ∃ i chain m', ∃ hch : (c.view s).chain = i :: chain,
    ∃ hlt : (c.view s).live.length < slabTot (c.view s).size,
      salloc size h = .ok (bufAt s (c.view s).size i + 8) { h with mem := m' } ∧
        CacheInv m' h.kMemCache (c.took s ((c.view s).take hch hlt)) ∧
        Touches (2 ^ 32) (cacheBytes h.kMemCache c.slabs) h.mem m' := by
  obtain ⟨hs, hl, -, hlt, hown⟩ := hc.find_some hf
  obtain ⟨i, chain, hch⟩ := List.exists_cons_of_ne_nil (c.view s).chain_ne_nil
  refine ⟨i, chain, ?_⟩
  set h₁ : Heap := { h with locks := Function.update h.locks .slabLock true } with hh₁
  have hc₁ : CacheInv h₁.mem h₁.kMemCache c := hc
  rw [salloc, getLock_free hlock, Outcome.bind_ok]
  rw [Cache.find, Option.or_eq_some_iff] at hf
  rcases hf with hf | ⟨hnone, hf⟩
  · have hst : (c.view s).status = .used :=
      ((hc.listed .used s).mp (List.mem_of_find?_eq_some hf)).2.2
    obtain ⟨m', htake, hinv, htouch⟩ := takeFromUsed_eq hc₁ hs hl hch hlt hst
    refine ⟨m', hch, hlt, ?_, hinv, htouch⟩
    rw [findIn_eq hc₁, hf]
    exact htake.trans (congrArg _ (unlock_getLock hlock m'))
  · have hst : (c.view s).status = .free :=
      ((hc.listed .free s).mp (List.mem_of_find?_eq_some hf)).2.2
    obtain ⟨m', htake, hinv, htouch⟩ := takeFromFree_eq hc₁ hs hl hch hlt hst
    refine ⟨m', hch, hlt, ?_, hinv, htouch⟩
    rw [findIn_eq hc₁, hnone, findIn_eq hc₁, hf]
    exact htake.trans (congrArg _ (unlock_getLock hlock m'))

theorem salloc_none (hc : CacheInv h.mem h.kMemCache c) (hlock : h.locks .slabLock = false)
    (hf : c.find size = none) : salloc size h = .ok 0 h := by
  rw [Cache.find, Option.or_eq_none_iff] at hf
  have hc₁ : CacheInv ({ h with locks := Function.update h.locks .slabLock true } : Heap).mem
      h.kMemCache c := hc
  rw [salloc, getLock_free hlock, Outcome.bind_ok, findIn_eq hc₁, hf.1, findIn_eq hc₁, hf.2]
  exact congrArg _ (unlock_getLock hlock h.mem)

end Salloc

section Sfree
variable {h : Heap} {m : Memory} {kc : ℕ} {c : Cache} {s i b : ℕ}

theorem CacheInv.loose_ne (hc : CacheInv m kc c) (hi : i ∈ (c.view s).live) : c.loose ≠ some s := by
  intro hl
  rw [(hc.loose s hl).2] at hi
  exact absurd hi (List.not_mem_nil)

theorem CacheInv.giveBuf (hc : CacheInv m kc c) (hs : s ∈ c.slabs) (hi : i ∈ (c.view s).live)
    (tickCount : ℕ) : CacheInv (giveBuf kc tickCount s (bufAt s (c.view s).size i) m) kc
      (c.gave s ((c.view s).give hi)) := by
  have hfit := (hc.placed s hs).fits
  have hm := hc.slab s hs
  have hlt := (c.view s).live_lt hi
  have hlen : ((c.view s).live.erase i).length = (c.view s).live.length - 1 :=
    List.length_erase_of_mem hi
  have hpos : 0 < (c.view s).live.length := List.length_pos_of_mem hi
  have htot := slabTot_lt (c.view s).size_le
  have hle := (c.view s).live_le
  have hlink := @slabAt_linkBuf _ _ _ _ _ _ _ tickCount hfit hpos (by omega) hlt
    ((c.view s).chain_notMem hi) hm
  have ht := @touches_linkBuf m _ _ (Slab.alloc m s - 1) _ tickCount
    (Slab.firstFree (Slab.setAlloc m s (Slab.alloc m s - 1)) s)
    (bufAt s (c.view s).size i) hfit hlt
  unfold Mem.giveBuf
  simp only [hlink.alloc_eq]
  rw [← hlen] at hlink ⊢
  have hl := hc.loose_ne hi
  by_cases h0 : ((c.view s).live.erase i).length = 0
  · have hst : ((c.view s).give hi).status = .free := ((c.view s).give hi).status_free.mpr h0
    rw [if_pos h0, Cache.gave, if_pos hst, ← hst]
    exact hc.toTail hs hl ht hlink
  · have hst : ((c.view s).give hi).status = .used :=
      ((c.view s).give hi).status_used.mpr ⟨Nat.pos_of_ne_zero h0, by
        change ((c.view s).live.erase i).length < slabTot (c.view s).size
        omega⟩
    rw [if_neg h0, Cache.gave, if_neg (by rw [hst]; decide), ← hst]
    exact hc.toHead hs hl ht hlink

theorem sfree_live (hc : CacheInv h.mem h.kMemCache c) (hlock : h.locks .slabLock = false)
    (hs : s ∈ c.slabs) (hi : i ∈ (c.view s).live) :
    ∃ m', sfree (bufAt s (c.view s).size i + 8) h = .ok true { h with mem := m' } ∧
      CacheInv m' h.kMemCache (c.gave s ((c.view s).give hi)) := by
  have hm := hc.slab s hs
  have hp := hc.placed s hs
  have hlt := (c.view s).live_lt hi
  have hbe := @bufAt_end s _ _ hlt
  have hbg := bufAt_ge s (c.view s).size i
  have hfit := hp.fits
  have hker := hp.kernel
  have hbuf : u32 (bufAt s (c.view s).size i + 8 + (2 ^ 32 - sizeofBuf)) =
      bufAt s (c.view s).size i := by
    unfold u32 sizeofBuf
    omega
  have hpos : ¬ (c.view s).live.length ≤ 0 := Nat.not_le.mpr (List.length_pos_of_mem hi)
  refine ⟨_, ?_, hc.giveBuf hs hi h.tickCount⟩
  rw [sfree, getLock_free hlock, Outcome.bind_ok]
  simp only [hbuf, hm.fixed.owner i hlt, hm.fixed.fingerprint_eq, hm.alloc_eq, isKernelAddr,
    decide_eq_false_iff_not]
  have hker' : bufAt s (c.view s).size i ≥ kernelVirtualAddressBase := by omega
  rw [if_neg (not_not.mpr hker'), if_neg]
  · exact congrArg _ (unlock_getLock hlock _)
  · simp only [ne_eq, not_true_eq_false, false_or, not_or, not_not]
    exact ⟨hker, hpos⟩

/-- The test by which `sfree` takes an address for a chunk of the cache. -/
def LooksLikeBuf (m : Memory) (b : ℕ) : Prop :=
  let buf := u32 (b + (2 ^ 32 - sizeofBuf))
  let s := Buf.slab m buf
  buf ≥ kernelVirtualAddressBase ∧ s ≥ kernelVirtualAddressBase ∧
    Slab.fingerprint m s = slabFingerprint ∧ 0 < Slab.alloc m s

instance (m : Memory) (b : ℕ) : Decidable (LooksLikeBuf m b) := by
  unfold LooksLikeBuf
  infer_instance

theorem sfree_rejected (hlock : h.locks .slabLock = false) (hb : ¬ LooksLikeBuf h.mem b) :
    sfree b h = .ok false h := by
  have hback : unlock .slabLock { h with locks := Function.update h.locks .slabLock true } = h :=
    unlock_getLock hlock h.mem
  rw [sfree, getLock_free hlock, Outcome.bind_ok]
  simp only [isKernelAddr, decide_eq_false_iff_not, hback]
  simp only [LooksLikeBuf, not_and] at hb
  by_cases hbuf : u32 (b + (2 ^ 32 - sizeofBuf)) ≥ kernelVirtualAddressBase
  · rw [if_neg (not_not.mpr hbuf), if_pos]
    have hb := hb hbuf
    by_contra hc
    simp only [not_or, not_not] at hc
    exact hb hc.1 hc.2.1 (Nat.pos_of_ne_zero fun e => hc.2.2 (e ▸ le_rfl))
  · rw [if_pos hbuf]

/-- An address that passes the test is never handed to the page allocator. -/
theorem sfree_accepted (hlock : h.locks .slabLock = false) (hb : LooksLikeBuf h.mem b) :
    ∃ m', sfree b h = .ok true { h with mem := m' } := by
  obtain ⟨hbuf, hker, hfp, hpos⟩ := hb
  let buf := u32 (b + (2 ^ 32 - sizeofBuf))
  refine ⟨giveBuf h.kMemCache h.tickCount (Buf.slab h.mem buf) buf h.mem, ?_⟩
  rw [sfree, getLock_free hlock, Outcome.bind_ok]
  simp only [isKernelAddr, decide_eq_false_iff_not]
  rw [if_neg (not_not.mpr hbuf), if_neg]
  · exact congrArg _ (unlock_getLock hlock _)
  · simp only [not_or, not_not]
    exact ⟨hker, hfp, Nat.not_le.mpr hpos⟩

end Sfree

section Slabs
variable {m m' : Memory} {kc : ℕ} {c : Cache} {s size : ℕ}

theorem CacheInv.touches {P : Set ℕ} (hc : CacheInv m kc c) (ht : Touches (2 ^ 32) P m m')
    (hslab : ∀ s ∈ c.slabs, ∀ x ∈ P, x ∉ slabBytes s (c.view s).size)
    (hlink : ∀ x ∈ P, x ∉ linkBytes (cacheNodes kc c.slabs)) : CacheInv m' kc c :=
  ⟨hc.fits, hc.placed, hc.nodup,
    fun s hs => (hc.slab s hs).touches (hc.placed s hs).fits ht (hslab s hs),
    rings_touches hc.spaced hc.rings hc.nodesIn ht hlink, hc.listed, hc.loose⟩

theorem CacheInv.page_apart (hc : CacheInv m kc c) (hp : Placed kc s) (hs : s ∉ c.slabs) :
    (∀ t ∈ c.slabs, ∀ x ∈ pageBytes s, x ∉ slabBytes t (c.view t).size) ∧
      ∀ x ∈ pageBytes s, x ∉ linkBytes (cacheNodes kc c.slabs) := by
  have hap : ∀ t ∈ c.slabs, s + 4096 ≤ t ∨ t + 4096 ≤ s := fun t ht =>
    hp.apart (hc.placed t ht) fun e => hs (e ▸ ht)
  constructor
  · rintro t ht x ⟨hx, hx'⟩ hxt
    have := mem_slabBytes_bounds hxt
    have := hap t ht
    omega
  · rintro x ⟨hx, hx'⟩ ⟨n, ⟨l, rfl⟩ | ⟨t, ht, rfl⟩, hn, hn'⟩
    · have := cacheList_bounds hc.fits l
      have := hp.above
      omega
    · have := hap t ht
      omega

theorem listNodes_add (v : SlabState) : listNodes (c.add s v) =
    Function.update (listNodes c) .free (listNodes c .free ++ [s + 16]) := by
  funext l
  by_cases hl : l = .free
  · subst hl
    simp [listNodes, Cache.add]
  · simp [listNodes, Cache.add, Function.update_of_ne hl]

/-- The stores of `createSlab` to the page `s`. -/
def linkSlab (kc s size : ℕ) (m : Memory) : Memory :=
  listAddTail (listInit (newSlab s size m) (Slab.head s)) (cacheList kc .free) (Slab.head s)

theorem CacheInv.linkSlab (hc : CacheInv m kc c) (hp : Placed kc s) (hs : s ∉ c.slabs)
    (h4 : 4 ≤ size) (hz : size ≤ maxSlabSize) :
    CacheInv (linkSlab kc s size m) kc (c.add s (.fresh size 0 h4 hz)) ∧
      Touches (2 ^ 32) (cacheBytes kc (s :: c.slabs)) m (linkSlab kc s size m) := by
  have hfit := hp.fits
  obtain ⟨hnew, htnew⟩ := newSlab_spec (m := m) hfit hz
  obtain ⟨hslab, hlink⟩ := hc.page_apart hp hs
  -- the page is written before the slab is reachable from the lists
  have hown : Spaced {s + 16} := by
    rintro x rfl
    exact ⟨by omega, fun y hy hne => absurd (Set.mem_singleton_iff.mp hy).symm hne⟩
  have htinit := touches_listInit (m := newSlab s size m) hown (Set.mem_singleton (s + 16))
  have hsub : linkBytes {s + 16} ⊆ pageBytes s := by
    rintro x ⟨n, rfl, hx, hx'⟩
    exact ⟨by omega, by omega⟩
  have hc₂ := hc.touches (htnew.trans (htinit.mono hsub)) hslab hlink
  have hm₂ : SlabAt (listInit (newSlab s size m) (s + 16)) s size 0 0 (List.range (chunks size)) := by
    refine hnew.touches hfit htinit ?_
    rintro x ⟨n, rfl, hx, hx'⟩ hxs
    have := mem_slabBytes_bounds hxs
    omega
  have hplaced : ∀ t ∈ s :: c.slabs, Placed kc t := by
    intro t ht
    rcases List.mem_cons.mp ht with rfl | ht
    · exact hp
    · exact hc.placed t ht
  have hnodes : cacheNodes kc c.slabs ⊆ cacheNodes kc (s :: c.slabs) := by
    rintro x (hx | ⟨t, ht, rfl⟩)
    · exact .inl hx
    · exact .inr ⟨t, List.mem_cons_of_mem _ ht, rfl⟩
  have hfresh : ∀ l, s + 16 ∉ cacheList kc l :: listNodes c l := by
    intro l
    rw [List.mem_cons, not_or, mem_listNodes]
    exact ⟨head_ne hc.fits hp l, fun h => hs ((hc.listed l s).mp h).1⟩
  obtain ⟨hr, ht⟩ := rings_listAddTail (spaced_cacheNodes hc.fits hplaced) hc₂.rings
    (fun l x hx => hnodes (hc.nodesIn l x hx)) .free
    (.inr ⟨s, List.mem_cons_self .., rfl⟩) hfresh
  have hpage : pageBytes s ⊆ cacheBytes kc (s :: c.slabs) := fun x hx =>
    .inr ⟨s, List.mem_cons_self .., hx⟩
  have hall := ((htnew.trans (htinit.mono hsub)).mono hpage).trans
    (ht.mono (linkBytes_subset hc.fits))
  rw [Mem.linkSlab, slabHead_eq hp]
  refine ⟨⟨hc.fits, hplaced, List.nodup_cons.mpr ⟨hs, hc.nodup⟩, ?_, ?_, ?_, ?_⟩, hall⟩
  · intro t hts
    have hbytes : ∀ {z x}, x ∈ linkBytes (cacheNodes kc (s :: c.slabs)) → x ∉ slabBytes t z :=
      fun hx hxs => slabBytes_links hc.fits hplaced hts hxs hx
    by_cases hst : t = s
    · subst hst
      simp only [Cache.add, Function.update_self]
      exact hm₂.touches hfit ht fun x hx => hbytes hx
    · simp only [Cache.add, Function.update_of_ne hst]
      have hts : t ∈ c.slabs := (List.mem_cons.mp hts).resolve_left hst
      exact (hc₂.slab t hts).touches (hc.placed t hts).fits ht fun x hx => hbytes hx
  · rw [listNodes_add]
    exact hr
  · intro l t
    simp only [Cache.add, List.mem_cons]
    by_cases hst : t = s
    · subst hst
      have hnl : ∀ k, t ∉ c.lists k := fun k h => hs ((hc.listed k t).mp h).1
      have hloose : c.loose ≠ some t := fun h => hs (hc.loose t h).1
      rw [Function.update_self]
      have hst : (SlabState.fresh size 0 h4 hz).status = .free := rfl
      by_cases hl : l = .free
      · subst hl
        simp [hloose, hst]
      · simp [Function.update_of_ne hl, hnl, hst, Ne.symm hl]
    · by_cases hl : l = .free
      · subst hl
        simp [hst, hc.listed]
      · simp [Function.update_of_ne hl, hst, hc.listed]
  · intro t hl
    have hts := hc.loose t hl
    have hst : t ≠ s := fun e => hs (e ▸ hts.1)
    simp only [Cache.add, Function.update_of_ne hst]
    exact ⟨List.mem_cons_of_mem _ hts.1, hts.2⟩

theorem CacheInv.unlink (hc : CacheInv m kc c) (hl : c.loose = none) (hs : s ∈ c.lists .free) :
    CacheInv (listRemove m (Slab.head s)) kc (c.unlink s) := by
  obtain ⟨hmem, -, hst⟩ := (hc.listed .free s).mp hs
  obtain ⟨hr, ht⟩ := Lib.rings_listRemove hc.spaced hc.rings hc.nodesIn ((mem_listNodes _).mpr hs)
  rw [slabHead_eq (hc.placed s hmem)]
  refine ⟨hc.fits, hc.placed, hc.nodup, fun t hts => hc.slab_touches ht hts, ?_, ?_, ?_⟩
  · have hnodes : listNodes (c.unlink s) = fun k => (listNodes c k).erase (s + 16) := by
      funext k
      exact (listNodes_erase k).symm
    rw [hnodes]
    exact hr
  · intro l t
    rw [Cache.unlink, (hc.nodup_list l).mem_erase_iff, hc.listed l t, hl]
    constructor
    · rintro ⟨hne, hts, -, hstat⟩
      exact ⟨hts, fun e => hne (Option.some.inj e).symm, hstat⟩
    · rintro ⟨hts, hne, hstat⟩
      exact ⟨fun e => hne (congrArg some e.symm), hts, by simp, hstat⟩
  · intro t hlt
    cases hlt
    exact ⟨hmem, List.length_eq_zero_iff.mp ((c.view s).status_free.mp hst)⟩

theorem CacheInv.drop (hc : CacheInv m kc c) (hl : c.loose = some s) : CacheInv m kc (c.drop s) := by
  have hsub : ∀ t, t ∈ c.slabs.erase s ↔ t ≠ s ∧ t ∈ c.slabs := fun t => hc.nodup.mem_erase_iff
  refine ⟨hc.fits, fun t ht => hc.placed t ((hsub t).mp ht).2, hc.nodup.erase s,
    fun t ht => hc.slab t ((hsub t).mp ht).2, hc.rings, ?_, fun t h => nomatch h⟩
  intro l t
  simp only [Cache.drop]
  rw [hc.listed l t, hl, hsub]
  constructor
  · rintro ⟨hts, hne, hst⟩
    exact ⟨⟨fun e => hne (congrArg some e.symm), hts⟩, by simp, hst⟩
  · rintro ⟨⟨hne, hts⟩, -, hst⟩
    exact ⟨hts, fun e => hne (Option.some.inj e).symm, hst⟩

end Slabs

end X86Osdev.Mem

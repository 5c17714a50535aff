import X86Osdev.Mem.BuddySplits
import X86Osdev.Mem.Paging

/-! The invariant of paging: where the page tables lie, that a table serves one row of the directories
only, and what the handler does under it. -/

namespace X86Osdev.Mem
open X86Osdev.Lib

section Frames
variable {p q x : ℕ} {u : Bool}

def framePtr (p : ℕ) : ℕ := va (p * pageSize)

theorem framePtr_eq (hp : p < 2 ^ 18) : framePtr p = 3221225472 + p * 4096 := by
  rw [framePtr, va, u32, pageSize, kernelVirtualAddressBase]
  omega

theorem framePtr_inj (hp : p < 2 ^ 18) (hq : q < 2 ^ 18) (h : framePtr p = framePtr q) : p = q := by
  rw [framePtr_eq hp, framePtr_eq hq] at h
  omega

theorem pa_framePtr (hp : p < 2 ^ 18) : pa (framePtr p) = p * 4096 := by
  rw [framePtr_eq hp, pa, u32, kernelVirtualAddressBase]
  omega

theorem pageAddr_framePtr (hp : p < 2 ^ 17) : pageAddr p = framePtr p := by
  rw [framePtr_eq (by omega), pageAddr_eq]

structure FrameEntry (p : ℕ) (u : Bool) (x : ℕ) : Prop where
  word : x < 2 ^ 32
  present : isPresent x = true
  user : isUsermode x = u
  ptr : tablePtr x = framePtr p

theorem tablePtr_frame (hp : p < 2 ^ 18) (hx : x < 2 ^ 32) (h : pfnOf x = pfnOf (p * 4096)) :
    tablePtr x = framePtr p := by
  have hlt : p * 4096 < 2 ^ 32 := by omega
  rw [tablePtr, tableOf_congr hx hlt h, tableOf_aligned hlt (by omega)]
  rfl

theorem frameEntry_kernel (hp : p < 2 ^ 18) :
    FrameEntry p false (setReadWrite (setPresent (pa (framePtr p)))) := by
  rw [pa_framePtr hp]
  have hlt : p * 4096 < 2 ^ 32 := by omega
  obtain ⟨-, hu⟩ := aligned_flags (x := p * 4096) (by omega)
  refine ⟨setReadWrite_lt (setPresent_lt hlt), by simp, by simp [hu], ?_⟩
  exact tablePtr_frame hp (setReadWrite_lt (setPresent_lt hlt)) (by simp)

theorem frameEntry_newPde (hp : p < 2 ^ 18) (u : Bool) : FrameEntry p u (newPde (framePtr p) u) := by
  have hlt : p * 4096 < 2 ^ 32 := by omega
  obtain ⟨-, hu⟩ := aligned_flags (x := p * 4096) (by omega)
  have hword : newPde (framePtr p) u < 2 ^ 32 := by
    rw [newPde, pa_framePtr hp]
    have := setPresent_lt (setReadWrite_lt hlt)
    split
    · exact setUsermode_lt this
    · exact this
  have hpfn : pfnOf (newPde (framePtr p) u) = pfnOf (p * 4096) := by
    rw [newPde, pa_framePtr hp]
    split <;> simp
  refine ⟨hword, ?_, ?_, tablePtr_frame hp hword hpfn⟩
  · rw [newPde]
    split <;> simp
  · rw [newPde, pa_framePtr hp]
    cases u <;> simp [hu]

theorem FrameEntry.ne_zero (he : FrameEntry p u x) : x ≠ 0 := by
  rintro rfl
  cases he.present

theorem FrameEntry.inherit (he : FrameEntry p u x) :
    FrameEntry p u (setReadWrite (setPresent x)) := by
  have hword := setReadWrite_lt (setPresent_lt he.word)
  refine ⟨hword, by simp, by simp [he.user], ?_⟩
  rw [← he.ptr]
  exact congrArg va (tableOf_congr hword he.word (by simp))

end Frames

section Entries
variable {x pfn : ℕ} {u : Bool}

@[simp] theorem isPresent_mapPte : isPresent (mapPte x pfn u) = true := by
  rw [mapPte]
  split <;> simp

theorem isUsermode_mapPte (hx : isUsermode x = false) : isUsermode (mapPte x pfn u) = u := by
  rw [mapPte]
  cases u <;> simp [hx]

theorem pfnOf_mapPte : pfnOf (mapPte x pfn u) = pfn % 2 ^ 20 := by
  rw [mapPte]
  split <;> simp [pfnOf_setPfn]

end Entries

section Positions
variable {a b : ℕ}

theorem pdPos_eq (a : ℕ) : pdPos a = a / 2 ^ 22 := Nat.shiftRight_eq_div_pow a 22

theorem ptePos_eq (a : ℕ) : ptePos a = a / 4096 % 1024 := by
  rw [ptePos, Nat.shiftRight_eq_div_pow]
  exact Nat.and_two_pow_sub_one_eq_mod _ 10

theorem page_eq_iff : a / 4096 = b / 4096 ↔ pdPos a = pdPos b ∧ ptePos a = ptePos b := by
  rw [pdPos_eq, pdPos_eq, ptePos_eq, ptePos_eq]
  omega

end Positions

section Fast
variable {n off size : ℕ} {h : Heap} {handed : List ℕ}

theorem RunInv.le_freePages {z : BuddyMemDesc} (hi : RunInv n off z []) : n ≤ freePages z := by
  obtain ⟨⟨fl, hz⟩, -, htot, -⟩ := hi
  have hcard := @card_le_pagesUsed ((List.range (maxOrder + 1)).flatMap (freeListOf z)) z (Finset.range n) ?_
  · rw [Finset.card_range] at hcard
    refine hcard.trans (le_of_eq ?_)
    have hblocks : ∀ o ∈ List.range (maxOrder + 1), ((freeListOf z o).map fun p => 2 ^ orderOf z p).sum =
        (freeListOf z o).length * 2 ^ o := by
      intro o ho
      have ho := Nat.lt_succ_iff.mp (List.mem_range.mp ho)
      have hsame : (freeListOf z o).map (fun p => 2 ^ orderOf z p) = (freeListOf z o).map fun _ => 2 ^ o := by
        refine List.map_congr_left fun p hp => ?_
        rw [freeListOf_eq hz ho] at hp
        rw [((hz.listed o ho p).mp hp).2.2]
      rw [hsame, List.map_const', List.sum_replicate, Nat.nsmul_eq_mul]
    rw [pagesUsed, List.map_flatMap, List.flatMap_def, List.sum_flatten, List.map_map,
      Function.comp_def, List.map_congr_left hblocks, ← List.sum_toFinset _ List.nodup_range, List.toFinset_range]
    rfl
  · intro x hx
    obtain ⟨p, hp, hxp⟩ := hz.tiling.cover x (htot ▸ Finset.mem_range.mp hx)
    rcases hp with hp | hp
    · have hle := hz.order_le p hp.1
      have hmem := (hz.listed _ hle p).mpr ⟨hp.1, hp.2, rfl⟩
      rw [← freeListOf_eq hz hle] at hmem
      exact ⟨p, List.mem_flatMap.mpr ⟨_, List.mem_range.mpr (Nat.lt_succ_of_le hle), hmem⟩, hxp⟩
    · exact absurd hp (by simp)

theorem calcPageOrder_page : calcPageOrder pageSize = 0 := by decide

theorem fmalloc_spec (hi : RunInv n off h.fastBuddyNew handed) (horder : calcPageOrder size = 0) :
    (∃ q h', fmalloc size h = .ok (framePtr (off + q)) h' ∧ q < n ∧ q ∉ handed ∧
        RunInv n off h'.fastBuddyNew (q :: handed) ∧ freePages h.fastBuddyNew = freePages h'.fastBuddyNew + 1) ∨
      fmalloc size h = .panic outOfMemory h ∧ freePages h.fastBuddyNew = 0 := by
  rcases hi.getBuddyNew_page with ⟨q, z', hget, hlt, hq, hpfn, hi', hpages⟩ | ⟨hpanic, hnone⟩
  · have haddr : va (calcBuddyPhys q z') = framePtr (off + q) := by
      rw [framePtr, calcBuddyPhys, hi'.pfnOffset, hpfn]
      simp only [va, u32]
      omega
    let bytes := blockBytes (z'.allBuddies q).order
    refine .inl ⟨q, { h with
        fastBuddyNew := z'
        totalFusedMemory := u32 (h.totalFusedMemory + bytes)
        totalUsedMemory := u32 (h.totalUsedMemory + bytes) }, ?_, hlt, hq, hi', hpages⟩
    rw [fmalloc, horder]
    simp only [hget, Outcome.lift_ok, Outcome.bind_ok, haddr]
    rfl
  · refine .inr ⟨?_, hnone⟩
    rw [fmalloc, horder]
    simp only [hpanic, Outcome.lift_panic, Outcome.bind_panic]
    rfl

theorem fmalloc_ok (hi : RunInv n off h.fastBuddyNew handed) {ptr : ℕ} {h' : Heap}
    (hf : fmalloc pageSize h = .ok ptr h') : ∃ q, ptr = framePtr (off + q) ∧ q < n ∧ q ∉ handed ∧
      RunInv n off h'.fastBuddyNew (q :: handed) := by
  rcases fmalloc_spec hi calcPageOrder_page with
    ⟨q, h'', hf', hq, hnew, hfast, -⟩ | ⟨hpanic, -⟩
  · obtain ⟨hptr, rfl⟩ := Outcome.ok.inj (hf.symm.trans hf')
    exact ⟨q, hptr, hq, hnew, hfast⟩
  · rw [hf] at hpanic
    cases hpanic

end Fast

def badArea (addr code : ℕ) (vmAreas : List VMArea) : Bool :=
  code &&& pfP != 0 || code &&& pfU != 0 && (isKernelAddr addr || !isValidVa addr vmAreas)

def withTable (ptr : ℕ) (h : Heap) (addr pfn : ℕ) (u : Bool) (t : ℕ) (σ : Paging) : Paging where
  heap := h
  kernelPageDirectory :=
    if u then σ.kernelPageDirectory
    else Function.update σ.kernelPageDirectory (pdPos addr) (newPde ptr u)
  tables := Function.update σ.tables ptr
    (Function.update (fun _ => 0) (ptePos addr) (mapPte 0 pfn u))
  threads := Function.update σ.threads t
    ⟨Function.update (σ.threads t).pageDir (pdPos addr) (newPde ptr u), (σ.threads t).vmAreas⟩
  numThreads := σ.numThreads

section Handler
variable {σ σ' : Paging} {addr code pfn t ptr : ℕ} {u : Bool} {h' : Heap} {e : FaultEnd}

theorem mapNewTable_eq (h : fmalloc pageSize σ.heap = .ok ptr h') :
    mapNewTable addr pfn u t σ = .ok .returns (withTable ptr h' addr pfn u t σ) := by
  rw [mapNewTable, h, Outcome.lift_ok, Outcome.bind_ok]
  cases u <;>
    simp [withTable, Paging.setTable, Paging.setPte, Paging.setThreadPde, Paging.setKernelPde]

theorem pageFaultHandler_eq : pageFaultHandler addr code t σ =
    if badArea addr code (σ.threads t).vmAreas then .ok .badArea σ
    else if isPresent (pdeOf σ t addr) then
      if isPresent (pteOf σ t addr) then .ok .returns σ
      else .ok .returns (σ.setPte (tablePtr (pdeOf σ t addr)) (ptePos addr) (mapPte (pteOf σ t addr)
        (calcPfn addr (σ.threads t).vmAreas) (code &&& pfU != 0)))
    else mapNewTable addr (calcPfn addr (σ.threads t).vmAreas) (code &&& pfU != 0) t σ := by
  have hjoin : ∀ (p u k v : Bool) (x y : Outcome Paging FaultEnd),
      (if p || u && k then x else if u && !v then x else y) =
        if p || u && (k || !v) then x else y := by
    intro p u k v x y
    cases p <;> cases u <;> cases k <;> cases v <;> rfl
  exact hjoin _ _ _ _ _ _

/-- What a call of the handler can do. -/
theorem handler_cases (h : pageFaultHandler addr code t σ = .ok e σ') :
    σ' = σ ∨
    (isPresent (pdeOf σ t addr) = true ∧ isPresent (pteOf σ t addr) = false ∧
      σ' = σ.setPte (tablePtr (pdeOf σ t addr)) (ptePos addr) (mapPte (pteOf σ t addr)
        (calcPfn addr (σ.threads t).vmAreas) (code &&& pfU != 0))) ∨
    (isPresent (pdeOf σ t addr) = false ∧ ∃ ptr h', fmalloc pageSize σ.heap = .ok ptr h' ∧
      σ' = withTable ptr h' addr (calcPfn addr (σ.threads t).vmAreas) (code &&& pfU != 0) t σ) := by
  rw [pageFaultHandler_eq] at h
  split at h
  · exact .inl (Outcome.ok.inj h).2.symm
  · cases hpde : isPresent (pdeOf σ t addr) with
    | true =>
      rw [hpde, if_pos rfl] at h
      cases hpte : isPresent (pteOf σ t addr) with
      | true =>
        rw [hpte, if_pos rfl] at h
        exact .inl (Outcome.ok.inj h).2.symm
      | false =>
        rw [hpte, if_neg Bool.false_ne_true] at h
        exact .inr (.inl ⟨rfl, rfl, (Outcome.ok.inj h).2.symm⟩)
    | false =>
      rw [hpde, if_neg Bool.false_ne_true] at h
      cases hf : fmalloc pageSize σ.heap with
      | ok ptr h' =>
        rw [mapNewTable_eq hf] at h
        exact .inr (.inr ⟨rfl, ptr, h', rfl, (Outcome.ok.inj h).2.symm⟩)
      | panic msg h' => simp [mapNewTable, hf] at h
      | hang h' => simp [mapNewTable, hf] at h

theorem pdeOf_withTable {t' b : ℕ} : pdeOf (withTable ptr h' addr pfn u t σ) t' b =
    if t' = t ∧ pdPos b = pdPos addr then newPde ptr u else pdeOf σ t' b := by
  simp only [pdeOf, withTable, Function.update_apply]
  by_cases ht : t' = t
  · subst ht
    simp [Function.update_apply]
  · simp [ht]

theorem tables_withTable {ptr' pos : ℕ} : (withTable ptr h' addr pfn u t σ).tables ptr' pos =
    if ptr' = ptr then if pos = ptePos addr then mapPte 0 pfn u else 0
    else σ.tables ptr' pos := by
  simp only [withTable, Function.update_apply]
  by_cases hp : ptr' = ptr
  · simp [hp, Function.update_apply]
  · simp [hp]

theorem pdeOf_setPte {t' b pte pos x : ℕ} : pdeOf (σ.setPte pte pos x) t' b = pdeOf σ t' b := rfl

theorem tables_setPte {pte pos x ptr' pos' : ℕ} : (σ.setPte pte pos x).tables ptr' pos' =
    if ptr' = pte ∧ pos' = pos then x else σ.tables ptr' pos' := by
  simp only [Paging.setPte, Paging.setTable, Function.update_apply]
  by_cases hp : ptr' = pte
  · subst hp
    simp [Function.update_apply]
  · simp [hp]

theorem pteOf_setPte {t' b pte pos x : ℕ} : pteOf (σ.setPte pte pos x) t' b =
    if tablePtr (pdeOf σ t' b) = pte ∧ ptePos b = pos then x else pteOf σ t' b := tables_setPte

end Handler

/-- A directory that the processor can walk or that `init_user_paging` reads. -/
def IsDir (σ : Paging) (d : Entries) : Prop :=
  d = σ.kernelPageDirectory ∨ ∃ t < σ.numThreads, d = (σ.threads t).pageDir

/-- A frame below the fast zone, or one that the fast zone has handed out. -/
def Held (off : ℕ) (handed : List ℕ) (p : ℕ) : Prop := p < off ∨ ∃ q ∈ handed, p = off + q

structure PagingInv (n off : ℕ) (handed : List ℕ) (σ : Paging) : Prop where
  fast : RunInv n off σ.heap.fastBuddyNew handed
  fits : off + n ≤ 2 ^ 18
  entry : ∀ d, IsDir σ d → ∀ r, isPresent (d r) = true →
    ∃ p u, Held off handed p ∧ FrameEntry p u (d r)
  keyed : ∀ d d', IsDir σ d → IsDir σ d' → ∀ r r', isPresent (d r) = true →
    isPresent (d' r') = true → tablePtr (d r) = tablePtr (d' r') → r = r'
  clear : ∀ d, IsDir σ d → ∀ r, isPresent (d r) = true → ∀ pos,
    isPresent (σ.tables (tablePtr (d r)) pos) = false →
      isUsermode (σ.tables (tablePtr (d r)) pos) = false
  kernel : ∀ r, σ.kernelPageDirectory r ≠ 0 →
    isPresent (σ.kernelPageDirectory r) = true ∧ isUsermode (σ.kernelPageDirectory r) = false

section Invariant
variable {n off : ℕ} {handed : List ℕ} {σ σ' : Paging} {p q t r addr pfn : ℕ} {u : Bool} {h' : Heap}
  {d : Entries}

theorem isDir_thread (ht : t < σ.numThreads) : IsDir σ (σ.threads t).pageDir := .inr ⟨t, ht, rfl⟩

theorem PagingInv.held_lt (hi : PagingInv n off handed σ) (hp : Held off handed p) : p < 2 ^ 18 := by
  have hfits := hi.fits
  rcases hp with hp | ⟨q, hq, rfl⟩
  · omega
  · obtain ⟨⟨fl, hz⟩, -, htot, -⟩ := hi.fast
    have := hz.handed_lt (List.mem_toFinset.mpr hq)
    omega

theorem PagingInv.ptr_ne (hi : PagingInv n off handed σ) (hq : q < n) (hnew : q ∉ handed)
    (hd : IsDir σ d) (hr : isPresent (d r) = true) : tablePtr (d r) ≠ framePtr (off + q) := by
  obtain ⟨p, u, hp, he⟩ := hi.entry d hd r hr
  have hfits := hi.fits
  rw [he.ptr]
  intro e
  have hpq := framePtr_inj (hi.held_lt hp) (by omega) e
  rcases hp with hp | ⟨q', hq', rfl⟩
  · omega
  · exact hnew ((Nat.add_left_cancel hpq) ▸ hq')

theorem Held.cons (hp : Held off handed p) : Held off (q :: handed) p :=
  hp.imp id fun ⟨q', hq', e⟩ => ⟨q', List.mem_cons_of_mem _ hq', e⟩

theorem PagingInv.setPte (hi : PagingInv n off handed σ) {pte pos x : ℕ}
    (hx : isPresent x = true) : PagingInv n off handed (σ.setPte pte pos x) where
  fast := hi.fast
  fits := hi.fits
  entry := hi.entry
  keyed := hi.keyed
  clear d hd r hr pos' hpos' := by
    rw [tables_setPte] at hpos' ⊢
    split at hpos'
    · rw [hx] at hpos'
      cases hpos'
    · rw [if_neg ‹_›]
      exact hi.clear d hd r hr pos' hpos'
  kernel := hi.kernel

theorem isDir_withTable {ptr : ℕ} (hd : IsDir (withTable ptr h' addr pfn u t σ) d)
    (ht : t < σ.numThreads) : ∃ d₀, IsDir σ d₀ ∧
      (d = d₀ ∨ d = Function.update d₀ (pdPos addr) (newPde ptr u)) := by
  rcases hd with rfl | ⟨t', ht', rfl⟩
  · refine ⟨σ.kernelPageDirectory, .inl rfl, ?_⟩
    cases u with
    | true => exact .inl rfl
    | false => exact .inr rfl
  · refine ⟨(σ.threads t').pageDir, isDir_thread ht', ?_⟩
    by_cases htt : t' = t
    · subst htt
      exact .inr (by simp only [withTable, Function.update_self])
    · exact .inl (by simp only [withTable, Function.update_of_ne htt])

theorem PagingInv.withTable (hi : PagingInv n off handed σ) (ht : t < σ.numThreads) (hq : q < n)
    (hnew : q ∉ handed) (hfast : RunInv n off h'.fastBuddyNew (q :: handed)) :
    PagingInv n off (q :: handed) (withTable (framePtr (off + q)) h' addr pfn u t σ) := by
  have hfits := hi.fits
  have hlt : off + q < 2 ^ 18 := by omega
  have hnewPde := frameEntry_newPde hlt u
  -- an entry is the new one or an old one
  have hcase : ∀ d, IsDir (Mem.withTable (framePtr (off + q)) h' addr pfn u t σ) d → ∀ r,
      isPresent (d r) = true → (r = pdPos addr ∧ d r = newPde (framePtr (off + q)) u) ∨
        ∃ d₀, IsDir σ d₀ ∧ isPresent (d₀ r) = true ∧ d r = d₀ r := by
    intro d hd r hr
    obtain ⟨d₀, hd₀, rfl | rfl⟩ := isDir_withTable hd ht
    · exact .inr ⟨d, hd₀, hr, rfl⟩
    · by_cases hrow : r = pdPos addr
      · exact .inl ⟨hrow, by rw [hrow, Function.update_self]⟩
      · rw [Function.update_of_ne hrow] at hr ⊢
        exact .inr ⟨d₀, hd₀, hr, rfl⟩
  refine ⟨hfast, hfits, ?_, ?_, ?_, ?_⟩
  · intro d hd r hr
    rcases hcase d hd r hr with ⟨-, e⟩ | ⟨d₀, hd₀, hr₀, e⟩
    · exact ⟨off + q, u, .inr ⟨q, List.mem_cons_self .., rfl⟩, e ▸ hnewPde⟩
    · obtain ⟨p, v, hp, he⟩ := hi.entry d₀ hd₀ r hr₀
      exact ⟨p, v, hp.cons, e ▸ he⟩
  · intro d d' hd hd' r r' hr hr' hptr
    rcases hcase d hd r hr with ⟨hrow, e⟩ | ⟨d₀, hd₀, hr₀, e⟩ <;>
      rcases hcase d' hd' r' hr' with ⟨hrow', e'⟩ | ⟨d₁, hd₁, hr₁, e'⟩
    · rw [hrow, hrow']
    · rw [e, e', hnewPde.ptr] at hptr
      exact absurd hptr.symm (hi.ptr_ne hq hnew hd₁ hr₁)
    · rw [e, e', hnewPde.ptr] at hptr
      exact absurd hptr (hi.ptr_ne hq hnew hd₀ hr₀)
    · rw [e, e'] at hptr
      exact hi.keyed d₀ d₁ hd₀ hd₁ r r' hr₀ hr₁ hptr
  · intro d hd r hr pos hpos
    rcases hcase d hd r hr with ⟨-, e⟩ | ⟨d₀, hd₀, hr₀, e⟩
    · rw [e, hnewPde.ptr, tables_withTable, if_pos rfl] at hpos ⊢
      split at hpos
      · rw [isPresent_mapPte] at hpos
        cases hpos
      · rw [if_neg ‹_›]
        rfl
    · have hne := hi.ptr_ne hq hnew hd₀ hr₀
      rw [e, tables_withTable, if_neg hne] at hpos ⊢
      exact hi.clear d₀ hd₀ r hr₀ pos hpos
  · intro r hr
    simp only [Mem.withTable] at hr ⊢
    cases u with
    | true => exact hi.kernel r hr
    | false =>
      simp only [Bool.false_eq_true, if_false, Function.update_apply] at hr ⊢
      by_cases hrow : r = pdPos addr
      · rw [if_pos hrow]
        exact ⟨hnewPde.present, hnewPde.user⟩
      · rw [if_neg hrow] at hr ⊢
        exact hi.kernel r hr

theorem PagingInv.handler {code : ℕ} {e : FaultEnd} (hi : PagingInv n off handed σ)
    (ht : t < σ.numThreads) (h : pageFaultHandler addr code t σ = .ok e σ') :
    ∃ handed', PagingInv n off handed' σ' := by
  rcases handler_cases h with rfl | ⟨-, -, rfl⟩ | ⟨-, ptr, h', hf, rfl⟩
  · exact ⟨handed, hi⟩
  · exact ⟨handed, hi.setPte isPresent_mapPte⟩
  · obtain ⟨q, hptr, hq, hnew, hfast⟩ := fmalloc_ok hi.fast hf
    rw [hptr]
    exact ⟨q :: handed, hi.withTable ht hq hnew hfast⟩

theorem PagingInv.initUserPaging (hi : PagingInv n off handed σ) (r : ℕ) :
    (σ.kernelPageDirectory r = 0 ∧ initUserPaging σ.kernelPageDirectory r = 0) ∨
      isPresent (σ.kernelPageDirectory r) = true ∧ ∃ p, Held off handed p ∧
        FrameEntry p false (σ.kernelPageDirectory r) ∧
        FrameEntry p false (Mem.initUserPaging σ.kernelPageDirectory r) := by
  rw [Mem.initUserPaging]
  by_cases hz : σ.kernelPageDirectory r = 0
  · exact .inl ⟨hz, if_neg (not_not.mpr hz)⟩
  · obtain ⟨hpres, huser⟩ := hi.kernel r hz
    obtain ⟨p, u, hp, he⟩ := hi.entry _ (.inl rfl) r hpres
    obtain rfl : u = false := he.user.symm.trans huser
    exact .inr ⟨hpres, p, hp, he, by rw [if_pos hz]; exact he.inherit⟩

theorem isDir_createSpace {vmAreas : List VMArea} (hd : IsDir (createSpace vmAreas σ) d) :
    IsDir σ d ∨ d = initUserPaging σ.kernelPageDirectory := by
  rcases hd with rfl | ⟨t, ht, rfl⟩
  · exact .inl (.inl rfl)
  · by_cases htn : t = σ.numThreads
    · subst htn
      exact .inr (by simp only [createSpace, Function.update_self])
    · have hlt : t < σ.numThreads := Nat.lt_of_le_of_ne (Nat.lt_succ_iff.mp ht) htn
      exact .inl (.inr ⟨t, hlt, by simp only [createSpace, Function.update_of_ne htn]⟩)

theorem PagingInv.createSpace (hi : PagingInv n off handed σ) (vmAreas : List VMArea) :
    PagingInv n off handed (createSpace vmAreas σ) := by
  -- an entry of a directory is, up to its flags, one of an old directory
  have hcase : ∀ d, IsDir (Mem.createSpace vmAreas σ) d → ∀ r, isPresent (d r) = true →
      ∃ p u d₀, Held off handed p ∧ FrameEntry p u (d r) ∧ IsDir σ d₀ ∧
        isPresent (d₀ r) = true ∧ tablePtr (d r) = tablePtr (d₀ r) := by
    intro d hd r hr
    rcases isDir_createSpace hd with hd | rfl
    · obtain ⟨p, u, hp, he⟩ := hi.entry d hd r hr
      exact ⟨p, u, d, hp, he, hd, hr, rfl⟩
    · rcases hi.initUserPaging r with ⟨-, hz⟩ | ⟨hpres, p, hp, he, he'⟩
      · rw [hz] at hr
        cases hr
      · exact ⟨p, false, _, hp, he', .inl rfl, hpres, he'.ptr.trans he.ptr.symm⟩
  refine ⟨hi.fast, hi.fits, ?_, ?_, ?_, hi.kernel⟩
  · intro d hd r hr
    obtain ⟨p, u, -, hp, he, -⟩ := hcase d hd r hr
    exact ⟨p, u, hp, he⟩
  · intro d d' hd hd' r r' hr hr' hptr
    obtain ⟨-, -, d₀, -, -, hd₀, hr₀, e⟩ := hcase d hd r hr
    obtain ⟨-, -, d₁, -, -, hd₁, hr₁, e'⟩ := hcase d' hd' r' hr'
    exact hi.keyed d₀ d₁ hd₀ hd₁ r r' hr₀ hr₁ (e.symm.trans (hptr.trans e'))
  · intro d hd r hr
    obtain ⟨-, -, d₀, -, -, hd₀, hr₀, e⟩ := hcase d hd r hr
    rw [e]
    exact hi.clear d₀ hd₀ r hr₀

theorem pde_createSpace {vmAreas : List VMArea} (hrow : σ.kernelPageDirectory (pdPos addr) = 0) :
    isPresent (pdeOf (createSpace vmAreas σ) σ.numThreads addr) = false := by
  simp only [pdeOf, createSpace, Function.update_self, initUserPaging, hrow]
  rfl

/-- A thread comes first to a row, in user mode, and the fast zone has a page for the table. -/
theorem PagingInv.user_fault (hi : PagingInv n off handed σ) (hfree : 0 < freePages σ.heap.fastBuddyNew)
    (hpde : isPresent (pdeOf σ t addr) = false) (hkernel : isKernelAddr addr = false)
    (hv : isValidVa addr (σ.threads t).vmAreas = true) :
    ∃ σ', pageFaultHandler addr pfU t σ = .ok .returns σ' ∧
      freePages σ.heap.fastBuddyNew = freePages σ'.heap.fastBuddyNew + 1 ∧
      σ'.kernelPageDirectory = σ.kernelPageDirectory ∧ σ'.numThreads = σ.numThreads ∧
      (∀ u, (σ'.threads u).vmAreas = (σ.threads u).vmAreas) ∧
      (∀ b, pdPos b = pdPos addr → ptePos b = ptePos addr → mapped σ' t b = true) ∧
      ∀ u b, u < σ.numThreads → u ≠ t → mapped σ u b = true → mapped σ' u b = true := by
  rcases fmalloc_spec hi.fast calcPageOrder_page with ⟨q, h', hf, hq, hnew, -, hpages⟩ | ⟨-, hempty⟩
  swap
  · omega
  have hfits := hi.fits
  have hentry := frameEntry_newPde (p := off + q) (by omega) true
  have hcode : (pfU &&& pfU != 0) = true := by decide
  have hbad : badArea addr pfU (σ.threads t).vmAreas = false := by
    rw [badArea, hv, hkernel]
    decide
  refine ⟨Mem.withTable (framePtr (off + q)) h' addr (calcPfn addr (σ.threads t).vmAreas) true t σ, ?_,
    hpages, rfl, rfl, fun u => ?_, fun b hrow hpos => ?_, fun u b hu hne hm => ?_⟩
  · rw [pageFaultHandler_eq, hbad, hpde, hcode, mapNewTable_eq hf]
    rfl
  · by_cases hu : u = t
    · simp only [Mem.withTable, hu, Function.update_self]
    · simp only [Mem.withTable, Function.update_of_ne hu]
  · rw [mapped, pteOf, pdeOf_withTable, if_pos ⟨rfl, hrow⟩, hentry.ptr, tables_withTable,
      if_pos rfl, if_pos hpos, hentry.present, isPresent_mapPte, Bool.and_self]
  · have hpresent := (Bool.and_eq_true_iff.mp hm).1
    have hptr : tablePtr (pdeOf σ u b) ≠ framePtr (off + q) :=
      @PagingInv.ptr_ne _ _ _ _ _ (pdPos b) _ hi hq hnew (isDir_thread hu) hpresent
    rw [mapped, pteOf, pdeOf_withTable, if_neg fun h => hne h.1, tables_withTable, if_neg hptr]
    exact hm

theorem pagingInv_step {allowed : Paging → Prop} (hs : PagingStep allowed σ σ')
    (hi : PagingInv n off handed σ) : ∃ handed', PagingInv n off handed' σ' := by
  cases hs with
  | create vmAreas _ => exact ⟨handed, hi.createSpace vmAreas⟩
  | fault ht _ h => exact hi.handler ht h

theorem pagingInv_run {allowed : Paging → Prop}
    (hr : Relation.ReflTransGen (PagingStep allowed) σ σ') (hi : PagingInv n off handed σ) :
    ∃ handed', PagingInv n off handed' σ' := by
  induction hr with
  | refl => exact ⟨handed, hi⟩
  | tail _ hs ih =>
    obtain ⟨handed', hi'⟩ := ih
    exact pagingInv_step hs hi'

end Invariant

end X86Osdev.Mem

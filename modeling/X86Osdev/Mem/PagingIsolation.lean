import X86Osdev.Mem.PagingFaults

/-! What the directories of several threads can show of each other's memory. -/

namespace X86Osdev.Mem

/-- The kernel's own directory has no entry in the rows `R`. -/
def CleanRows (R : Set ℕ) (σ : Paging) : Prop := ∀ r ∈ R, σ.kernelPageDirectory r = 0

def userRows : Set ℕ := {r | 1 ≤ r ∧ r < 768}

/-- Every page that thread `t` can reach in the rows `R` is one of its own. -/
def OwnPages (R : Set ℕ) (σ : Paging) (t : ℕ) : Prop :=
  ∀ addr, pdPos addr ∈ R → mapped σ t addr = true →
    ∃ a, a / pageSize = addr / pageSize ∧ isValidVa a (σ.threads t).vmAreas = true ∧
      pfnOf (pteOf σ t addr) = calcPfn a (σ.threads t).vmAreas

/-- No page table serves two threads in the rows `R`. -/
def OwnTables (R : Set ℕ) (σ : Paging) : Prop :=
  ∀ t u, t < σ.numThreads → u < σ.numThreads → t ≠ u → ∀ a b, pdPos a ∈ R →
    isPresent (pdeOf σ t a) = true → isPresent (pdeOf σ u b) = true →
      tablePtr (pdeOf σ t a) ≠ tablePtr (pdeOf σ u b)

structure IsolationInv (R : Set ℕ) (σ : Paging) : Prop where
  paging : ∃ n off handed, PagingInv n off handed σ
  pages : ∀ t < σ.numThreads, OwnPages R σ t
  tables : OwnTables R σ

section Isolation
variable {R : Set ℕ} {σ σ' : Paging} {t addr : ℕ} {vmAreas : List VMArea}

theorem calcPfn_valid (h : isValidVa addr vmAreas = true) : calcPfn addr vmAreas < 2 ^ 20 := by
  induction vmAreas with
  | nil => cases h
  | cons vma rest ih =>
    rw [isValidVa] at h
    rw [calcPfn]
    by_cases hc : vma.contains addr = true
    · rw [if_pos hc, Nat.shiftRight_eq_div_pow, u32]
      omega
    · rw [if_neg hc] at h ⊢
      exact ih h

/-- The entry that the handler writes for an address of the thread. -/
theorem pfnOf_valid {x : ℕ} {u : Bool} (h : isValidVa addr vmAreas = true) :
    pfnOf (mapPte x (calcPfn addr vmAreas) u) = calcPfn addr vmAreas := by
  rw [pfnOf_mapPte]
  exact Nat.mod_eq_of_lt (calcPfn_valid h)

theorem IsolationInv.create (hi : IsolationInv R σ) (hc : CleanRows R σ) (vmAreas : List VMArea) :
    IsolationInv R (createSpace vmAreas σ) := by
  obtain ⟨n, off, handed, hinv⟩ := hi.paging
  -- the new thread has nothing in the rows, the old ones are unchanged
  have hnew : ∀ a, pdPos a ∈ R →
      isPresent (pdeOf (createSpace vmAreas σ) σ.numThreads a) = false := by
    intro a ha
    exact pde_createSpace (hc _ ha)
  have hold : ∀ t, t < σ.numThreads → (createSpace vmAreas σ).threads t = σ.threads t := fun t ht =>
    Function.update_of_ne (Nat.ne_of_lt ht) _ _
  have hsplit : ∀ t, t < (createSpace vmAreas σ).numThreads → t = σ.numThreads ∨ t < σ.numThreads :=
    fun t ht => (Nat.lt_succ_iff_lt_or_eq.mp ht).symm
  have hkeyed := (hinv.createSpace vmAreas).keyed
  refine ⟨⟨n, off, handed, hinv.createSpace vmAreas⟩, fun t ht => ?_, fun t u ht hu htu a b ha => ?_⟩
  · rcases hsplit t ht with rfl | ht
    · intro addr ha hm
      rw [mapped, hnew addr ha] at hm
      cases hm
    · intro addr ha hm
      have h := hi.pages t ht addr ha
      simp only [mapped, pteOf, pdeOf, hold t ht] at hm h ⊢
      exact h hm
  · intro hta hub hptr
    rcases hsplit t ht with rfl | ht'
    · rw [hnew a ha] at hta
      cases hta
    · rcases hsplit u hu with rfl | hu'
      · have hrow := hkeyed _ _ (isDir_thread ht) (isDir_thread hu) _ _ hta hub hptr
        rw [hnew b (hrow ▸ ha)] at hub
        cases hub
      · rw [pdeOf, hold t ht'] at hta hptr
        rw [pdeOf, hold u hu'] at hub
        rw [pdeOf, hold u hu'] at hptr
        exact hi.tables t u ht' hu' htu a b ha hta hub hptr

theorem IsolationInv.setPte (hi : IsolationInv R σ) (ht : t < σ.numThreads)
    (hv : isValidVa addr (σ.threads t).vmAreas = true) (hpde : isPresent (pdeOf σ t addr) = true)
    (u : Bool) : IsolationInv R (σ.setPte (tablePtr (pdeOf σ t addr)) (ptePos addr)
      (mapPte (pteOf σ t addr) (calcPfn addr (σ.threads t).vmAreas) u)) := by
  obtain ⟨n, off, handed, hinv⟩ := hi.paging
  refine ⟨⟨n, off, handed, hinv.setPte isPresent_mapPte⟩, fun t' ht' b hb hm => ?_, hi.tables⟩
  rw [mapped, pdeOf_setPte, pteOf_setPte] at hm
  rw [pteOf_setPte]
  obtain ⟨hpdeb, hpteb⟩ := Bool.and_eq_true_iff.mp hm
  by_cases hslot : tablePtr (pdeOf σ t' b) = tablePtr (pdeOf σ t addr) ∧ ptePos b = ptePos addr
  · rw [if_pos hslot, pfnOf_valid hv]
    have htt : t' = t := by
      by_contra hne
      exact hi.tables t' t ht' ht hne b addr hb hpdeb hpde hslot.1
    subst htt
    have hrow := hinv.keyed _ _ (isDir_thread ht') (isDir_thread ht) _ _ hpdeb hpde hslot.1
    exact ⟨addr, page_eq_iff.mpr ⟨hrow.symm, hslot.2.symm⟩, hv, rfl⟩
  · rw [if_neg hslot] at hpteb ⊢
    exact hi.pages t' ht' b hb (Bool.and_eq_true_iff.mpr ⟨hpdeb, hpteb⟩)

theorem IsolationInv.withTable (hi : IsolationInv R σ) (ht : t < σ.numThreads)
    (hv : isValidVa addr (σ.threads t).vmAreas = true) {ptr : ℕ} {h' : Heap}
    (hf : fmalloc pageSize σ.heap = .ok ptr h') (u : Bool) :
    IsolationInv R (withTable ptr h' addr (calcPfn addr (σ.threads t).vmAreas) u t σ) := by
  obtain ⟨n, off, handed, hinv⟩ := hi.paging
  obtain ⟨q, hptr, hq, hnew, hfast⟩ := fmalloc_ok hinv.fast hf
  rw [hptr]
  have hfits := hinv.fits
  have hentry := frameEntry_newPde (p := off + q) (by omega) u
  have hareas : ∀ t', ((Mem.withTable (framePtr (off + q)) h' addr
      (calcPfn addr (σ.threads t).vmAreas) u t σ).threads t').vmAreas = (σ.threads t').vmAreas := by
    intro t'
    by_cases htt : t' = t
    · subst htt
      simp only [Mem.withTable, Function.update_self]
    · simp only [Mem.withTable, Function.update_of_ne htt]
  have hne : ∀ t' b, t' < σ.numThreads → isPresent (pdeOf σ t' b) = true →
      tablePtr (pdeOf σ t' b) ≠ framePtr (off + q) := fun t' b ht' hb =>
    hinv.ptr_ne (d := (σ.threads t').pageDir) hq hnew (isDir_thread ht') hb
  refine ⟨⟨n, off, q :: handed, hinv.withTable ht hq hnew hfast⟩, fun t' ht' b hb hm => ?_,
    fun t₁ t₂ h₁ h₂ h₁₂ a b ha h₁a h₂b => ?_⟩
  · obtain ⟨hpdeb, hpteb⟩ := Bool.and_eq_true_iff.mp hm
    rw [hareas]
    rw [pteOf, pdeOf_withTable, tables_withTable] at hpteb ⊢
    rw [pdeOf_withTable] at hpdeb
    by_cases hrow : t' = t ∧ pdPos b = pdPos addr
    · rw [if_pos hrow, hentry.ptr, if_pos rfl] at hpteb ⊢
      obtain ⟨rfl, hrow⟩ := hrow
      by_cases hpos : ptePos b = ptePos addr
      · rw [if_pos hpos, pfnOf_valid hv]
        exact ⟨addr, page_eq_iff.mpr ⟨hrow.symm, hpos.symm⟩, hv, rfl⟩
      · rw [if_neg hpos] at hpteb
        cases hpteb
    · rw [if_neg hrow] at hpteb hpdeb ⊢
      rw [if_neg (hne t' b ht' hpdeb)] at hpteb ⊢
      exact hi.pages t' ht' b hb (Bool.and_eq_true_iff.mpr ⟨hpdeb, hpteb⟩)
  · rw [pdeOf_withTable] at h₁a h₂b
    rw [pdeOf_withTable, pdeOf_withTable]
    by_cases hrow₁ : t₁ = t ∧ pdPos a = pdPos addr
    · have hrow₂ : ¬ (t₂ = t ∧ pdPos b = pdPos addr) := fun h => h₁₂ (hrow₁.1.trans h.1.symm)
      rw [if_neg hrow₂] at h₂b
      rw [if_pos hrow₁, if_neg hrow₂, hentry.ptr]
      exact (hne t₂ b h₂ h₂b).symm
    · rw [if_neg hrow₁] at h₁a
      rw [if_neg hrow₁]
      by_cases hrow₂ : t₂ = t ∧ pdPos b = pdPos addr
      · rw [if_pos hrow₂, hentry.ptr]
        exact hne t₁ a h₁ h₁a
      · rw [if_neg hrow₂] at h₂b ⊢
        exact hi.tables t₁ t₂ h₁ h₂ h₁₂ a b ha h₁a h₂b

theorem isolationInv_step (hs : PagingStep (CleanRows R) σ σ') (hi : IsolationInv R σ) :
    IsolationInv R σ' := by
  cases hs with
  | create vmAreas hc => exact hi.create hc vmAreas
  | fault ht hv h =>
    rcases handler_cases h with rfl | ⟨hpde, -, rfl⟩ | ⟨-, ptr, h', hf, rfl⟩
    · exact hi
    · exact hi.setPte ht hv hpde _
    · exact hi.withTable ht hv hf _

theorem isolationInv_run (hr : Relation.ReflTransGen (PagingStep (CleanRows R)) σ σ')
    (hi : IsolationInv R σ) : IsolationInv R σ' := by
  induction hr with
  | refl => exact hi
  | tail _ hs ih => exact isolationInv_step hs ih

theorem PagingReach.isolationInv {totalPages : ℕ} (h : PagingReach (CleanRows R) totalPages σ) :
    IsolationInv R σ := by
  obtain ⟨σ₀, hboot, hrun⟩ := h
  obtain ⟨⟨n, off, hi⟩, -, hnone⟩ := hboot.inv
  refine isolationInv_run hrun ⟨⟨n, off, [], hi⟩, fun t ht => ?_, fun t u ht => ?_⟩ <;>
  · rw [hnone] at ht
    exact absurd ht (Nat.not_lt_zero t)

end Isolation

def PageAligned (vmAreas : List VMArea) : Prop :=
  ∀ vma ∈ vmAreas, pageSize ∣ vma.start ∧ pageSize ∣ vma.end ∧ pageSize ∣ vma.physStart

section Aligned
variable {a b : ℕ} {vmAreas : List VMArea}

theorem aligned_page (ha : PageAligned vmAreas) (hab : a / pageSize = b / pageSize) :
    isValidVa a vmAreas = isValidVa b vmAreas ∧ calcPfn a vmAreas = calcPfn b vmAreas := by
  induction vmAreas with
  | nil => exact ⟨rfl, rfl⟩
  | cons vma rest ih =>
    obtain ⟨⟨s, hs⟩, ⟨e, he⟩, ⟨p, hp⟩⟩ := ha vma (List.mem_cons_self ..)
    obtain ⟨hvalid, hpfn⟩ := ih fun v hv => ha v (List.mem_cons_of_mem _ hv)
    unfold pageSize at *
    have hcontains : vma.contains a = vma.contains b := by
      rw [VMArea.contains, VMArea.contains]
      exact decide_eq_decide.mpr (by omega)
    rw [isValidVa, isValidVa, calcPfn, calcPfn, hcontains, hvalid, hpfn]
    refine ⟨rfl, ?_⟩
    by_cases hc : vma.contains b = true
    · have hb := of_decide_eq_true hc
      rw [if_pos hc, if_pos hc, Nat.shiftRight_eq_div_pow, Nat.shiftRight_eq_div_pow, u32, u32]
      omega
    · rw [if_neg hc, if_neg hc]

end Aligned

/-- The areas of two threads lie in different frames. -/
def DisjointFrames (vmAreas vmAreas' : List VMArea) : Prop :=
  ∀ a b, isValidVa a vmAreas = true → isValidVa b vmAreas' = true →
    calcPfn a vmAreas ≠ calcPfn b vmAreas'

/-- What thread `t` has present in the rows `R` is in a page of its areas, with the frame of that page;
no table there serves another thread, nor does a frame when the areas are apart. -/
structure Isolated (R : Set ℕ) (σ : Paging) : Prop where
  pages : ∀ t < σ.numThreads, OwnPages R σ t
  aligned : ∀ t < σ.numThreads, PageAligned (σ.threads t).vmAreas → ∀ addr, pdPos addr ∈ R →
    mapped σ t addr = true → isValidVa addr (σ.threads t).vmAreas = true ∧
      pfnOf (pteOf σ t addr) = calcPfn addr (σ.threads t).vmAreas
  tables : OwnTables R σ
  frames : ∀ t u, t < σ.numThreads → u < σ.numThreads →
    DisjointFrames (σ.threads t).vmAreas (σ.threads u).vmAreas → ∀ a b, pdPos a ∈ R → pdPos b ∈ R →
      mapped σ t a = true → mapped σ u b = true → pfnOf (pteOf σ t a) ≠ pfnOf (pteOf σ u b)

/-- Threads are isolated in all rows that were empty in the kernel's directory whenever one was created. -/
theorem address_spaces_isolated {totalPages : ℕ} {R : Set ℕ} {σ : Paging}
    (h : PagingReach (CleanRows R) totalPages σ) : Isolated R σ := by
  have hi := h.isolationInv
  refine ⟨hi.pages, fun t ht ha addr hr hm => ?_, hi.tables, fun t u ht hu hd a b ha hb hma hmb => ?_⟩
  · obtain ⟨c, hpage, hv, hf⟩ := hi.pages t ht addr hr hm
    obtain ⟨hvalid, hpfn⟩ := aligned_page ha hpage
    exact ⟨hvalid ▸ hv, hf.trans hpfn⟩
  · obtain ⟨c, -, hvc, hfc⟩ := hi.pages t ht a ha hma
    obtain ⟨d, -, hvd, hfd⟩ := hi.pages u hu b hb hmb
    rw [hfc, hfd]
    exact hd c d hvc hvd

section Runs
variable {totalPages n off t addr code : ℕ} {handed : List ℕ} {σ σ' : Paging} {e : FaultEnd}

/-- A table that the handler makes in kernel mode is part of every directory built later, whatever the
areas of its thread. -/
theorem kernel_fault_shares (hi : PagingInv n off handed σ) (hP : code &&& pfP = 0)
    (hU : code &&& pfU = 0) (hpde : isPresent (pdeOf σ t addr) = false)
    (h : pageFaultHandler addr code t σ = .ok e σ') (vmAreas : List VMArea) :
    tablePtr (pdeOf (createSpace vmAreas σ') σ'.numThreads addr) = tablePtr (pdeOf σ' t addr) ∧
      mapped (createSpace vmAreas σ') σ'.numThreads addr = true := by
  rw [pageFaultHandler_eq, badArea, hP, hU, if_neg (by simp), hpde, if_neg Bool.false_ne_true] at h
  rcases fmalloc_spec hi.fast calcPageOrder_page with ⟨q, h', hf, hq, -⟩ | ⟨hpanic, -⟩
  swap
  · rw [mapNewTable, hpanic] at h
    cases h
  have hfits := hi.fits
  have hentry := frameEntry_newPde (p := off + q) (by omega) false
  rw [mapNewTable_eq hf] at h
  obtain ⟨-, hσ⟩ := Outcome.ok.inj h
  have hkernel : σ'.kernelPageDirectory (pdPos addr) = newPde (framePtr (off + q)) false := by
    rw [← hσ]
    simp [withTable]
  have hnew : FrameEntry (off + q) false (pdeOf (createSpace vmAreas σ') σ'.numThreads addr) := by
    simp only [pdeOf, createSpace, Function.update_self, initUserPaging, hkernel]
    rw [if_pos hentry.ne_zero]
    exact hentry.inherit
  have hold : pdeOf σ' t addr = newPde (framePtr (off + q)) false := by
    rw [← hσ, pdeOf_withTable, if_pos ⟨rfl, rfl⟩]
    simp
  refine ⟨by rw [hnew.ptr, hold, hentry.ptr], ?_⟩
  have htable : (createSpace vmAreas σ').tables (framePtr (off + q)) (ptePos addr) =
      mapPte 0 (calcPfn addr (σ.threads t).vmAreas) false := by
    change σ'.tables _ _ = _
    rw [← hσ, tables_withTable, if_pos rfl, if_pos rfl]
    simp
  rw [mapped, hnew.present, pteOf, hnew.ptr, htable, isPresent_mapPte, Bool.and_self]

end Runs

section Witness
variable {totalPages : ℕ} {σ : Paging} {vmAreas : List VMArea}

theorem first_fault {allowed : Paging → Prop} (hreach : PagingReach allowed totalPages σ) (ha : allowed σ)
    (hrow : σ.kernelPageDirectory 1 = 0) (hfree : 0 < freePages σ.heap.fastBuddyNew)
    (hv : isValidVa 0x400000 vmAreas = true) :
    ∃ σ', PagingReach allowed totalPages σ' ∧
      freePages σ.heap.fastBuddyNew = freePages σ'.heap.fastBuddyNew + 1 ∧
      σ'.kernelPageDirectory = σ.kernelPageDirectory ∧ σ'.numThreads = σ.numThreads + 1 ∧
      (σ'.threads σ.numThreads).vmAreas = vmAreas ∧
      (∀ b, pdPos b = 1 → ptePos b = 0 → mapped σ' σ.numThreads b = true) ∧
      ∀ u < σ.numThreads, (σ'.threads u).vmAreas = (σ.threads u).vmAreas ∧
        ∀ b, mapped σ u b = true → mapped σ' u b = true := by
  obtain ⟨n, off, handed, hi⟩ := hreach.inv
  have hthread : (createSpace vmAreas σ).threads σ.numThreads =
      ⟨initUserPaging σ.kernelPageDirectory, vmAreas⟩ := by
    simp only [createSpace, Function.update_self]
  have hpde : isPresent (pdeOf (createSpace vmAreas σ) σ.numThreads 0x400000) = false := pde_createSpace hrow
  have hareas : ((createSpace vmAreas σ).threads σ.numThreads).vmAreas = vmAreas := by rw [hthread]
  obtain ⟨σ', hok, hpages, hdir, hnum, hareas', hnew, hold⟩ :=
    (hi.createSpace vmAreas).user_fault hfree hpde (by decide) (by rw [hareas]; exact hv)
  obtain ⟨σ₀, hboot, hrun⟩ := hreach
  refine ⟨σ', ⟨σ₀, hboot, (hrun.tail (.create vmAreas ha)).tail (.fault (Nat.lt_succ_self _) ?_ hok)⟩,
    hpages, hdir, hnum, (hareas' _).trans hareas, hnew, fun u hu => ?_⟩
  · rw [hareas]
    exact hv
  · have hsame : (createSpace vmAreas σ).threads u = σ.threads u := Function.update_of_ne (Nat.ne_of_lt hu) _ _
    refine ⟨(hareas' u).trans (congrArg _ hsame), fun b hm => ?_⟩
    refine hold u b (Nat.lt_succ_of_lt hu) (Nat.ne_of_lt hu) ?_
    rw [mapped, pteOf, pdeOf, hsame]
    exact hm

end Witness

theorem frame_of_page {a phys : ℕ} (h : isValidVa a [⟨0x400000, 0x401000, phys⟩] = true)
    (hphys : pageSize ∣ phys) (hsmall : phys < 2 ^ 31) :
    calcPfn a [⟨0x400000, 0x401000, phys⟩] = phys / pageSize := by
  have hc : VMArea.contains ⟨0x400000, 0x401000, phys⟩ a = true := by
    rw [isValidVa] at h
    by_contra hc
    rw [if_neg hc] at h
    cases h
  obtain ⟨hend, hstart⟩ := of_decide_eq_true hc
  obtain ⟨k, rfl⟩ := hphys
  rw [calcPfn, if_pos hc, Nat.shiftRight_eq_div_pow, u32]
  simp only [pageSize] at hend hstart hsmall ⊢
  omega

/-- Two threads whose areas start at one address and lie in different frames, both have used them. -/
theorem address_spaces_isolated_boot : ∃ σ, PagingReach (CleanRows userRows) 114688 σ ∧ σ.numThreads = 2 ∧
    DisjointFrames (σ.threads 0).vmAreas (σ.threads 1).vmAreas ∧
    mapped σ 0 0x400000 = true ∧ mapped σ 1 0x400000 = true ∧ Isolated userRows σ := by
  obtain ⟨σ, hboot, hfree⟩ := pagingBoot_boot
  have hnone := hboot.inv.2.2
  have hclean : CleanRows userRows σ := fun r hr => hboot.row_eq_zero hr.1 hr.2
  have hone : 1 ∈ userRows := ⟨by decide, by decide⟩
  obtain ⟨σ₁, hreach₁, hpages, hdir, hnum₁, hareas₁, hm₁, -⟩ :=
    @first_fault _ σ onePage _ ⟨σ, hboot, .refl⟩ hclean (hclean 1 hone) (by omega) (by decide)
  have hclean₁ : CleanRows userRows σ₁ := fun r hr => (congrFun hdir r).trans (hclean r hr)
  obtain ⟨σ₂, hreach₂, -, -, hnum₂, hareas₂, hm₂, hold⟩ :=
    @first_fault _ σ₁ [⟨0x400000, 0x401000, 0x2001000⟩] _ hreach₁ hclean₁ (hclean₁ 1 hone) (by omega) (by decide)
  rw [hnone] at hnum₁ hareas₁ hm₁
  rw [hnum₁] at hnum₂ hareas₂ hm₂ hold
  obtain ⟨hareas, hold⟩ := hold 0 (by decide)
  have hframes : DisjointFrames (σ₂.threads 0).vmAreas (σ₂.threads 1).vmAreas := by
    rw [hareas, hareas₁, hareas₂]
    intro a b ha hb
    rw [onePage, frame_of_page ha (by decide) (by decide), frame_of_page hb (by decide) (by decide)]
    decide
  exact ⟨σ₂, hreach₂, hnum₂, hframes, hold _ (hm₁ _ (by decide) (by decide)),
    hm₂ _ (by decide) (by decide), address_spaces_isolated hreach₂⟩

/-- An area that ends inside a page: the handler maps the whole page, also what lies behind the area. -/
theorem rest_of_page_mapped : ∃ σ addr, PagingReach anyTime 114688 σ ∧ 0 < σ.numThreads ∧
    0x400000 ≤ addr ∧ addr < kernelVirtualAddressBase ∧ mapped σ 0 addr = true ∧
      isValidVa addr (σ.threads 0).vmAreas = false := by
  obtain ⟨σ, hboot, hfree⟩ := pagingBoot_boot
  have hnone := hboot.inv.2.2
  obtain ⟨σ', hreach, -, -, hone, hareas, hm, -⟩ := @first_fault _ σ [⟨0x400000, 0x400800, 0x2000000⟩] anyTime
    ⟨σ, hboot, .refl⟩ trivial (hboot.row_eq_zero (by decide) (by decide)) (by omega) (by decide)
  rw [hnone] at hone hareas hm
  refine ⟨σ', 0x400800, hreach, by omega, by decide, by decide, hm _ (by decide) (by decide), ?_⟩
  rw [hareas]
  decide

end X86Osdev.Mem

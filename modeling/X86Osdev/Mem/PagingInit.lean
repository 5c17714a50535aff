import X86Osdev.Mem.PagingInvariant

/-! `init_kernel_paging`: the directory that the kernel starts with, and that the invariant of paging
holds in every run that follows. -/

namespace X86Osdev.Mem

/-- The rows that `init_kernel_paging` fills. -/
def KernelRow (r : ℕ) : Prop := r = 0 ∨ 768 ≤ r

/-- How many of the first `k` rows are filled. -/
def kernelRows (k : ℕ) : ℕ := min k 1 + (k - 768)

structure RowsInv (n k : ℕ) (σ₀ σ : Paging) (handed taken : List ℕ) : Prop where
  grew : ∃ c ≤ kernelRows k, Grew n c σ₀.heap σ.heap handed taken
  rows : ∀ r, σ.kernelPageDirectory r ≠ 0 → r < k ∧ KernelRow r ∧
    ∃ p ∈ taken, FrameEntry p false (σ.kernelPageDirectory r) ∧
      ∀ pos, isPresent (σ.tables (framePtr p) pos) = false →
        isUsermode (σ.tables (framePtr p) pos) = false
  keyed : ∀ r r', σ.kernelPageDirectory r ≠ 0 → σ.kernelPageDirectory r' ≠ 0 →
    tablePtr (σ.kernelPageDirectory r) = tablePtr (σ.kernelPageDirectory r') → r = r'
  numThreads : σ.numThreads = σ₀.numThreads

section Rows
variable {n k : ℕ} {σ₀ σ : Paging} {handed taken : List ℕ}

theorem kernelRows_le (k : ℕ) : kernelRows k ≤ kernelRows (k + 1) := by
  unfold kernelRows
  omega

theorem RowsInv.next (hi : RowsInv n k σ₀ σ handed taken) : RowsInv n (k + 1) σ₀ σ handed taken := by
  obtain ⟨c, hc, hg⟩ := hi.grew
  have := kernelRows_le k
  refine ⟨⟨c, by omega, hg⟩, fun r hr => ?_, hi.keyed, hi.numThreads⟩
  obtain ⟨hlt, hrow⟩ := hi.rows r hr
  exact ⟨by omega, hrow⟩

theorem RowsInv.fill (hi : RowsInv n k σ₀ σ handed taken) (hn : n ≤ 2 ^ 17) (hk : KernelRow k)
    (pdRow : ℕ) :
    (∃ σ' taken', ((makeKernelPte pdRow σ).bind fun pte σ =>
        .ok () (σ.setKernelPde k (setReadWrite (setPresent (pa pte))))) = .ok () σ' ∧
        RowsInv n (k + 1) σ₀ σ' handed taken') ∨
      ((makeKernelPte pdRow σ).bind fun pte σ =>
        .ok () (σ.setKernelPde k (setReadWrite (setPresent (pa pte))))) = .panic outOfMemory σ ∧
        n ≤ pagesUsed σ.heap.kernelBuddyNew taken := by
  obtain ⟨c, hc, hg⟩ := hi.grew
  rcases kallocNosleep_single hg.run hn with ⟨p, h', hok, hg'⟩ | ⟨hpanic, hfull⟩
  swap
  · refine .inr ⟨?_, hfull⟩
    rw [makeKernelPte, hpanic]
    simp only [Outcome.lift_panic, Outcome.bind_panic]
  have hp : p < n := hg'.run.lt (List.mem_cons_self ..)
  have hnew : p ∉ taken := (List.nodup_cons.mp hg'.run.nodup).1
  have hentry := frameEntry_kernel (p := p) (by omega)
  -- the tables of the rows before lie in other pages
  have hother : ∀ q ∈ taken, framePtr q ≠ framePtr p := by
    intro q hq e
    have hlt : q < n := hg.run.lt hq
    exact hnew (framePtr_inj (by omega) (by omega) e ▸ hq)
  have hone : kernelRows k + 1 = kernelRows (k + 1) := by
    unfold kernelRows
    unfold KernelRow at hk
    omega
  let words : Entries := fun i =>
    if i < 1024 then setReadWrite (setPresent (setPfn 0 (pdRow * 1024 + i))) else 0
  let σ' : Paging := { σ with
    heap := h'
    kernelPageDirectory := Function.update σ.kernelPageDirectory k
      (setReadWrite (setPresent (pa (framePtr p))))
    tables := Function.update σ.tables (framePtr p) words }
  refine .inl ⟨σ', p :: taken, ?_, ⟨c + 1, by omega, hg.trans hg'⟩, ?_, ?_, hi.numThreads⟩
  · rw [makeKernelPte, hok, pageAddr_framePtr (by omega)]
    simp only [Outcome.lift_ok, Outcome.bind_ok, Paging.setTable, Paging.setKernelPde, σ', words]
  · intro r hr
    by_cases hrk : r = k
    · subst hrk
      refine ⟨Nat.lt_succ_self r, hk, p, List.mem_cons_self .., ?_, fun pos hpos => ?_⟩
      · simp only [σ', Function.update_self]
        exact hentry
      · simp only [σ', Function.update_self, words] at hpos ⊢
        split at hpos
        · simp at hpos
        · rw [if_neg ‹_›]
          rfl
    · simp only [σ', Function.update_of_ne hrk] at hr ⊢
      obtain ⟨hlt, hrow, q, hq, he, hclear⟩ := hi.rows r hr
      refine ⟨by omega, hrow, q, List.mem_cons_of_mem _ hq, he, fun pos hpos => ?_⟩
      rw [Function.update_of_ne (hother q hq)] at hpos ⊢
      exact hclear pos hpos
  · -- the new table is not one of an earlier row
    have hold : ∀ r, r ≠ k → σ.kernelPageDirectory r ≠ 0 →
        tablePtr (σ.kernelPageDirectory r) ≠
          tablePtr (setReadWrite (setPresent (pa (framePtr p)))) := by
      intro r hr hz
      obtain ⟨-, -, q, hq, he, -⟩ := hi.rows r hz
      rw [he.ptr, hentry.ptr]
      exact hother q hq
    intro r r' hr hr' hptr
    by_cases hrk : r = k <;> by_cases hrk' : r' = k
    · rw [hrk, hrk']
    · subst hrk
      simp only [σ', Function.update_self, Function.update_of_ne hrk'] at hr' hptr
      exact absurd hptr.symm (hold r' hrk' hr')
    · subst hrk'
      simp only [σ', Function.update_self, Function.update_of_ne hrk] at hr hptr
      exact absurd hptr (hold r hrk hr)
    · simp only [σ', Function.update_of_ne hrk, Function.update_of_ne hrk'] at hr hr' hptr
      exact hi.keyed r r' hr hr' hptr

theorem initKernelRow_spec (hi : RowsInv n k σ₀ σ handed taken) (hn : n ≤ 2 ^ 17) :
    (∃ σ' taken', initKernelRow k σ = .ok () σ' ∧ RowsInv n (k + 1) σ₀ σ' handed taken') ∨
      initKernelRow k σ = .panic outOfMemory σ ∧ n ≤ pagesUsed σ.heap.kernelBuddyNew taken := by
  by_cases h0 : k = 0
  · simp only [initKernelRow, if_pos h0]
    exact hi.fill hn (.inl h0) k
  · by_cases h768 : k ≥ 768
    · simp only [initKernelRow, if_neg h0, if_pos h768]
      exact hi.fill hn (.inr h768) (k - 768)
    · refine .inl ⟨σ, taken, ?_, hi.next⟩
      simp only [initKernelRow, if_neg h0, if_neg h768]

theorem initKernelRows_spec (hrun : RunInv n 0 σ₀.heap.kernelBuddyNew handed) (hn : n ≤ 2 ^ 17)
    (hzero : σ₀.kernelPageDirectory = fun _ => 0) (k : ℕ) :
    (∃ σ taken, initKernelRows k σ₀ = .ok () σ ∧ RowsInv n k σ₀ σ handed taken) ∨
      (∃ σ, initKernelRows k σ₀ = .panic outOfMemory σ) ∧
        n ≤ pagesUsed σ₀.heap.kernelBuddyNew handed + kernelRows k := by
  induction k with
  | zero =>
    refine .inl ⟨σ₀, handed, rfl, ⟨0, Nat.zero_le _, .refl hrun⟩, fun r hr => ?_, fun r r' hr => ?_, rfl⟩ <;>
      exact absurd (congrFun hzero r) hr
  | succ k ih =>
    have := kernelRows_le k
    rcases ih with ⟨σ, taken, hok, hi⟩ | ⟨⟨σ, hpanic⟩, hfull⟩
    · rcases initKernelRow_spec hi hn with ⟨σ', taken', hok', hi'⟩ | ⟨hpanic, hfull⟩
      · exact .inl ⟨σ', taken', by rw [initKernelRows, hok, Outcome.bind_ok, hok'], hi'⟩
      · obtain ⟨c, hc, hg⟩ := hi.grew
        have hu := hg.used
        exact .inr ⟨⟨σ, by rw [initKernelRows, hok, Outcome.bind_ok, hpanic]⟩, by omega⟩
    · exact .inr ⟨⟨σ, by rw [initKernelRows, hpanic, Outcome.bind_panic]⟩, by omega⟩

theorem RowsInv.pagingInv {off m : ℕ} (hi : RowsInv n k σ₀ σ handed taken)
    (hfast : RunInv m off σ₀.heap.fastBuddyNew []) (hfits : off + m ≤ 2 ^ 18) (hoff : n ≤ off)
    (hnone : σ₀.numThreads = 0) : PagingInv m off [] σ := by
  obtain ⟨c, -, hg⟩ := hi.grew
  have hdir : ∀ d, IsDir σ d → d = σ.kernelPageDirectory := by
    rintro d (rfl | ⟨t, ht, -⟩)
    · rfl
    · rw [hi.numThreads, hnone] at ht
      exact absurd ht (Nat.not_lt_zero t)
  have hne : ∀ {x : ℕ}, isPresent x = true → x ≠ 0 := by
    rintro x hx rfl
    cases hx
  refine ⟨hg.fast.symm ▸ hfast, hfits, ?_, ?_, ?_, ?_⟩
  · intro d hd r hr
    obtain rfl := hdir d hd
    obtain ⟨-, -, p, hp, he, -⟩ := hi.rows r (hne hr)
    have hlt : p < n := hg.run.lt hp
    exact ⟨p, false, .inl (by omega), he⟩
  · intro d d' hd hd' r r' hr hr' hptr
    obtain rfl := hdir d hd
    obtain rfl := hdir d' hd'
    exact hi.keyed r r' (hne hr) (hne hr') hptr
  · intro d hd r hr pos hpos
    obtain rfl := hdir d hd
    obtain ⟨-, -, p, -, he, hclear⟩ := hi.rows r (hne hr)
    rw [he.ptr] at hpos ⊢
    exact hclear pos hpos
  · intro r hr
    obtain ⟨-, -, p, -, he, -⟩ := hi.rows r hr
    exact ⟨he.present, he.user⟩

end Rows

section Reach
variable {totalPages : ℕ} {σ : Paging}

def freshPaging (h : Heap) : Paging where
  heap := h
  kernelPageDirectory := fun _ => 0
  tables := fun _ _ => 0
  threads := fun _ => ⟨fun _ => 0, []⟩
  numThreads := 0

theorem PagingBoot.start (h : PagingBoot totalPages σ) : ∃ σ₀ handed pages n off,
    initKernelPaging σ₀ = .ok () σ ∧ σ₀.kernelPageDirectory = (fun _ => 0) ∧ σ₀.numThreads = 0 ∧
    RunInv pages 0 σ₀.heap.kernelBuddyNew handed ∧ RunInv n off σ₀.heap.fastBuddyNew [] ∧
    pages ≤ 2 ^ 17 ∧ pages ≤ off ∧ off + n ≤ 2 ^ 18 := by
  obtain ⟨s, σ₀, hreach, hheap, hzero, hnone, hinit⟩ := h
  obtain ⟨hpages, L, c₀, h₀, c, hst, hsys, -⟩ := hreach.started
  have hrun := hsys.heap.zone
  have hfast := hst.fast
  rw [← hsys.heap.fast, ← hheap] at hfast
  rw [← hheap] at hrun
  have hle : L.numPages ≤ totalPages / 8 := by
    rw [hst.numPages]
    exact Nat.div_mul_le_self ..
  refine ⟨σ₀, _, _, _, _, hinit, hzero, hnone, hrun, hfast, hsys.heap.small, by omega, ?_⟩
  rw [← hst.numPages]
  omega

theorem PagingBoot.inv (h : PagingBoot totalPages σ) :
    (∃ n off, PagingInv n off [] σ) ∧ (∀ r, σ.kernelPageDirectory r ≠ 0 → KernelRow r) ∧
      σ.numThreads = 0 := by
  obtain ⟨σ₀, handed, pages, n, off, hinit, hzero, hnone, hrun, hfast, hsmall, hbelow, hfits⟩ := h.start
  rcases initKernelRows_spec hrun hsmall hzero 1024 with ⟨σ', taken, hok, hi⟩ | ⟨⟨σ', hpanic⟩, -⟩
  · obtain ⟨-, rfl⟩ := Outcome.ok.inj (hinit.symm.trans hok)
    exact ⟨⟨n, off, hi.pagingInv hfast hfits hbelow hnone⟩, fun r hr => (hi.rows r hr).2.1,
      hi.numThreads.trans hnone⟩
  · cases hinit.symm.trans hpanic

theorem PagingBoot.row_eq_zero (h : PagingBoot totalPages σ) {r : ℕ} (hlo : 1 ≤ r) (hhi : r < 768) :
    σ.kernelPageDirectory r = 0 := by
  by_contra hz
  rcases h.inv.2.1 r hz with hr | hr <;> omega

theorem PagingReach.inv {allowed : Paging → Prop} (h : PagingReach allowed totalPages σ) :
    ∃ n off handed, PagingInv n off handed σ := by
  obtain ⟨σ₀, hboot, hrun⟩ := h
  obtain ⟨⟨n, off, hi⟩, -⟩ := hboot.inv
  obtain ⟨handed, hi'⟩ := pagingInv_run hrun hi
  exact ⟨n, off, handed, hi'⟩

/-- The machine of `heapReach_boot` sets up paging, and its fast zone has the pages for the page tables. -/
theorem pagingBoot_boot : ∃ σ, PagingBoot 114688 σ ∧ 1024 ≤ freePages σ.heap.fastBuddyNew := by
  obtain ⟨L, c, h, hst, hreach⟩ := heapReach_boot
  have hn : L.numPages = 14336 := hst.numPages
  have hinv := hst.sysInv.heap
  have hfirst := hst.first_le
  rcases @initKernelRows_spec _ (freshPaging h) _ hinv.zone hinv.small rfl 1024 with
    ⟨σ, taken, hok, hi⟩ | ⟨-, hfull⟩
  · have hfast := hst.fast
    rw [← hinv.fast] at hfast
    have hpaging := hi.pagingInv hfast (by decide) (by omega) rfl
    refine ⟨σ, ⟨_, freshPaging h, hreach, rfl, rfl, rfl, hok⟩, le_trans ?_ hpaging.fast.le_freePages⟩
    decide
  · have hused := hst.used
    change pagesUsed h.kernelBuddyNew (handedPages L c []) = L.first + 27 at hused
    change L.numPages ≤ pagesUsed h.kernelBuddyNew (handedPages L c []) + 257 at hfull
    rw [hused, hn] at hfull
    have h1024 : 2 ^ maxOrder = 1024 := rfl
    omega

end Reach

end X86Osdev.Mem

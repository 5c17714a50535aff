import X86Osdev.Mem.PagingInit

/-! The upper gigabyte and the first 4 MiB in every page directory, whatever the faults are and on
whichever directory they happen. -/

namespace X86Osdev.Mem

namespace Paging

/-- `thread_pgdir`: the directory of a thread, or the kernel's own, on which kernel threads run. -/
def pgdir (σ : Paging) : Option ℕ → Entries
  | none => σ.kernelPageDirectory
  | some t => (σ.threads t).pageDir

def setPgdir (σ : Paging) (dir : Option ℕ) (pos x : ℕ) : Paging :=
  match dir with
  | none => σ.setKernelPde pos x
  | some t => σ.setThreadPde t pos x

end Paging

/-- `mapNewTable` on any directory. -/
def mapNewTableOn (dir : Option ℕ) (faultAddress pfn : ℕ) (usermode : Bool) (σ : Paging) :
    Outcome Paging FaultEnd :=
  ((fmalloc pageSize σ.heap).lift fun h => { σ with heap := h }).bind fun newPte σ =>
    let σ := σ.setTable newPte fun _ => 0
    let σ := σ.setPte newPte (ptePos faultAddress)
      (mapPte (σ.tables newPte (ptePos faultAddress)) pfn usermode)
    let pdePhys := newPde newPte usermode
    let σ := σ.setPgdir dir (pdPos faultAddress) pdePhys
    .ok .returns (if usermode then σ else σ.setKernelPde (pdPos faultAddress) pdePhys)

/-- `pageFaultHandler` for a thread with the directory `dir` and the areas `mem`. -/
def pageFaultHandlerOn (dir : Option ℕ) (mem : List VMArea) (faultAddress errCode : ℕ) (σ : Paging) :
    Outcome Paging FaultEnd :=
  let permViolation := errCode &&& pfP != 0
  let usermode := errCode &&& pfU != 0
  let kernelAddr := isKernelAddr faultAddress
  let pfn := calcPfn faultAddress mem
  if permViolation || usermode && kernelAddr then .ok .badArea σ
  else if usermode && !isValidVa faultAddress mem then .ok .badArea σ
  else if isPresent (σ.pgdir dir (pdPos faultAddress)) then
    let pte := tablePtr (σ.pgdir dir (pdPos faultAddress))
    let x := σ.tables pte (ptePos faultAddress)
    if isPresent x then .ok .returns σ
    else .ok .returns (σ.setPte pte (ptePos faultAddress) (mapPte x pfn usermode))
  else mapNewTableOn dir faultAddress pfn usermode σ

theorem pageFaultHandler_on (addr code t : ℕ) (σ : Paging) :
    pageFaultHandler addr code t σ =
      pageFaultHandlerOn (some t) (σ.threads t).vmAreas addr code σ := rfl

/-- A directory is set up, a new one or an old one again, or a fault is handled on any directory, with
any areas. Addresses have 32 bits. -/
inductive MappingStep : Paging → Paging → Prop
  | init {σ : Paging} {t : ℕ} (vmAreas : List VMArea) (ht : t ≤ σ.numThreads) :
    MappingStep σ { σ with
      threads := Function.update σ.threads t ⟨initUserPaging σ.kernelPageDirectory, vmAreas⟩
      numThreads := max σ.numThreads (t + 1) }
  | fault {σ σ' : Paging} {dir : Option ℕ} {mem : List VMArea} {addr code : ℕ} {e : FaultEnd}
    (hdir : ∀ t, dir = some t → t < σ.numThreads) (haddr : addr < 2 ^ 32)
    (hok : pageFaultHandlerOn dir mem addr code σ = .ok e σ') : MappingStep σ σ'

def MappingReach (totalPages : ℕ) (σ : Paging) : Prop :=
  ∃ σ₀, PagingBoot totalPages σ₀ ∧ Relation.ReflTransGen MappingStep σ₀ σ

def walk (σ : Paging) (d : Entries) (addr : ℕ) : Option ℕ :=
  let pde := d (pdPos addr)
  let pte := σ.tables (tablePtr pde) (ptePos addr)
  if isPresent pde && isPresent pte then some (pfnOf pte * pageSize + addr % pageSize) else none

/-- `addr` leads to `phys`, for the kernel only. -/
structure KernelMaps (σ : Paging) (d : Entries) (addr phys : ℕ) : Prop where
  walk : walk σ d addr = some phys
  pde : isUsermode (d (pdPos addr)) = false
  pte : isUsermode (σ.tables (tablePtr (d (pdPos addr))) (ptePos addr)) = false

structure KernelMapped (σ : Paging) : Prop where
  high : ∀ d, IsDir σ d → ∀ addr, kernelVirtualAddressBase ≤ addr → addr < 2 ^ 32 →
    KernelMaps σ d addr (addr - kernelVirtualAddressBase)
  low : ∀ d, IsDir σ d → ∀ addr < 0x400000, KernelMaps σ d addr addr
  shared : ∀ d d', IsDir σ d → IsDir σ d' → ∀ r, 768 ≤ r → r < 1024 →
    tablePtr (d r) = tablePtr (d' r)

/-- What `make_kernel_pte` writes. -/
def kernelWords (pdRow : ℕ) : Entries := fun i =>
  if i < 1024 then setReadWrite (setPresent (setPfn 0 (pdRow * 1024 + i))) else 0

/-- The row of frames for a row of `kernel_page_directory`. -/
def kernelPdRow (r : ℕ) : ℕ := if r = 0 then r else r - 768

structure DirInv (off : ℕ) (kt : ℕ → ℕ) (handed : List ℕ) (d : Entries) : Prop where
  kernel : ∀ r, KernelRow r → r < 1024 → FrameEntry (kt r) false (d r)
  user : ∀ r, ¬ KernelRow r → d r ≠ 0 → ∃ q ∈ handed, ∃ u, FrameEntry (off + q) u (d r)

structure MappingInv (n off : ℕ) (kt : ℕ → ℕ) (handed : List ℕ) (σ : Paging) : Prop where
  fast : RunInv n off σ.heap.fastBuddyNew handed
  fits : off + n ≤ 2 ^ 18
  below : ∀ r, KernelRow r → r < 1024 → kt r < off
  dirs : ∀ d, IsDir σ d → DirInv off kt handed d
  words : ∀ r, KernelRow r → r < 1024 → σ.tables (framePtr (kt r)) = kernelWords (kernelPdRow r)

section Dirs
variable {off q pos u x : ℕ} {kt : ℕ → ℕ} {handed : List ℕ} {d : Entries}

theorem DirInv.cons (hd : DirInv off kt handed d) (q : ℕ) : DirInv off kt (q :: handed) d where
  kernel := hd.kernel
  user r hr hz := by
    obtain ⟨q', hq', hentry⟩ := hd.user r hr hz
    exact ⟨q', List.mem_cons_of_mem _ hq', hentry⟩

theorem DirInv.initUserPaging (hd : DirInv off kt handed d) :
    DirInv off kt handed (initUserPaging d) := by
  unfold Mem.initUserPaging
  refine ⟨fun r hr hlt => ?_, fun r hr hz => ?_⟩
  · have hentry := hd.kernel r hr hlt
    rw [if_pos hentry.ne_zero]
    exact hentry.inherit
  · by_cases hdr : d r = 0
    · rw [if_neg (not_not.mpr hdr)] at hz
      exact absurd rfl hz
    · obtain ⟨q, hq, u, hentry⟩ := hd.user r hr hdr
      rw [if_pos hdr]
      exact ⟨q, hq, u, hentry.inherit⟩

theorem DirInv.update {u : Bool} (hd : DirInv off kt handed d) (hpos : ¬ KernelRow pos)
    (hx : FrameEntry (off + q) u x) : DirInv off kt (q :: handed) (Function.update d pos x) := by
  refine ⟨fun r hr hlt => ?_, fun r hr hz => ?_⟩
  · have hne : r ≠ pos := fun h => hpos (h ▸ hr)
    rw [Function.update_of_ne hne]
    exact hd.kernel r hr hlt
  · by_cases hrow : r = pos
    · rw [hrow, Function.update_self]
      exact ⟨q, List.mem_cons_self .., u, hx⟩
    · rw [Function.update_of_ne hrow] at hz ⊢
      exact (hd.cons q).user r hr hz

end Dirs

section Words
variable {pdRow i : ℕ}

theorem kernelWords_spec (hi : i < 1024) (hrow : pdRow < 256) :
    isPresent (kernelWords pdRow i) = true ∧ isUsermode (kernelWords pdRow i) = false ∧
      pfnOf (kernelWords pdRow i) = pdRow * 1024 + i := by
  unfold kernelWords
  rw [if_pos hi]
  refine ⟨by simp, ?_, ?_⟩
  · rw [isUsermode_setReadWrite, isUsermode_setPresent, isUsermode_setPfn]
    rfl
  · rw [pfnOf_setReadWrite, pfnOf_setPresent, pfnOf_setPfn]
    exact Nat.mod_eq_of_lt (by omega)

end Words

/-- The state with a new table at `ptr` that `dir` gets, in kernel mode the kernel's directory as well. -/
def withTableOn (dir : Option ℕ) (ptr : ℕ) (h : Heap) (addr pfn : ℕ) (u : Bool) (σ : Paging) : Paging :=
  let σ := { σ with
    heap := h
    tables := Function.update σ.tables ptr (Function.update (fun _ => 0) (ptePos addr) (mapPte 0 pfn u)) }
  let σ := σ.setPgdir dir (pdPos addr) (newPde ptr u)
  if u then σ else σ.setKernelPde (pdPos addr) (newPde ptr u)

section Handler
variable {σ σ' : Paging} {dir : Option ℕ} {mem : List VMArea} {addr code pfn ptr : ℕ} {u : Bool}
  {h' : Heap} {e : FaultEnd} {d : Entries}

theorem mapNewTableOn_eq (h : fmalloc pageSize σ.heap = .ok ptr h') :
    mapNewTableOn dir addr pfn u σ = .ok .returns (withTableOn dir ptr h' addr pfn u σ) := by
  rw [mapNewTableOn, h, Outcome.lift_ok, Outcome.bind_ok]
  simp only [withTableOn, Paging.setTable, Paging.setPte, Function.update_self, Function.update_idem]

theorem handlerOn_cases (h : pageFaultHandlerOn dir mem addr code σ = .ok e σ') :
    σ' = σ ∨
    (isPresent (σ.pgdir dir (pdPos addr)) = true ∧
      isPresent (σ.tables (tablePtr (σ.pgdir dir (pdPos addr))) (ptePos addr)) = false ∧
      ∃ x, σ' = σ.setPte (tablePtr (σ.pgdir dir (pdPos addr))) (ptePos addr) x) ∨
    (isPresent (σ.pgdir dir (pdPos addr)) = false ∧ ∃ ptr h' pfn u,
      fmalloc pageSize σ.heap = .ok ptr h' ∧ σ' = withTableOn dir ptr h' addr pfn u σ) := by
  simp only [pageFaultHandlerOn] at h
  split at h
  · exact .inl (Outcome.ok.inj h).2.symm
  split at h
  · exact .inl (Outcome.ok.inj h).2.symm
  split at h
  next hpde =>
    split at h
    · exact .inl (Outcome.ok.inj h).2.symm
    next hpte =>
      exact .inr (.inl ⟨hpde, Bool.eq_false_iff.mpr hpte, _, (Outcome.ok.inj h).2.symm⟩)
  next hpde =>
    obtain ⟨ptr, σ₁, hf, -⟩ := Outcome.bind_eq_ok.mp h
    obtain ⟨h', hf, -⟩ := Outcome.lift_eq_ok.mp hf
    rw [mapNewTableOn_eq hf] at h
    exact .inr (.inr ⟨Bool.eq_false_iff.mpr hpde, ptr, h', _, _, hf, (Outcome.ok.inj h).2.symm⟩)

theorem setPte_tables_of_ne {pte pos x : ℕ} (h : ptr ≠ pte) :
    (σ.setPte pte pos x).tables ptr = σ.tables ptr := Function.update_of_ne h _ _

theorem isDir_pgdir (hdir : ∀ t, dir = some t → t < σ.numThreads) : IsDir σ (σ.pgdir dir) := by
  cases dir with
  | none => exact .inl rfl
  | some t => exact .inr ⟨t, hdir t rfl, rfl⟩

theorem withTableOn_frame : (withTableOn dir ptr h' addr pfn u σ).heap = h' ∧
    (withTableOn dir ptr h' addr pfn u σ).tables = Function.update σ.tables ptr
      (Function.update (fun _ => 0) (ptePos addr) (mapPte 0 pfn u)) ∧
    (withTableOn dir ptr h' addr pfn u σ).numThreads = σ.numThreads := by
  unfold withTableOn
  cases dir <;> cases u <;> exact ⟨rfl, rfl, rfl⟩

theorem isDir_withTableOn (hd : IsDir (withTableOn dir ptr h' addr pfn u σ) d) : ∃ d₀, IsDir σ d₀ ∧
    (d = d₀ ∨ d = Function.update d₀ (pdPos addr) (newPde ptr u)) := by
  have hkernel : IsDir σ σ.kernelPageDirectory := .inl rfl
  rcases hd with rfl | ⟨t, ht, rfl⟩
  · refine ⟨_, hkernel, ?_⟩
    unfold withTableOn
    cases dir with
    | none =>
      cases u with
      | true => exact .inr rfl
      | false => exact .inr (Function.update_idem ..)
    | some t =>
      cases u with
      | true => exact .inl rfl
      | false => exact .inr rfl
  · rw [withTableOn_frame.2.2] at ht
    refine ⟨(σ.threads t).pageDir, isDir_thread ht, ?_⟩
    unfold withTableOn
    cases dir with
    | none => cases u <;> exact .inl rfl
    | some t' =>
      have hdir : (Function.update σ.threads t'
          ⟨Function.update (σ.threads t').pageDir (pdPos addr) (newPde ptr u),
            (σ.threads t').vmAreas⟩ t).pageDir = (σ.threads t).pageDir ∨
          (Function.update σ.threads t'
          ⟨Function.update (σ.threads t').pageDir (pdPos addr) (newPde ptr u),
            (σ.threads t').vmAreas⟩ t).pageDir =
            Function.update (σ.threads t).pageDir (pdPos addr) (newPde ptr u) := by
        by_cases htt : t = t'
        · rw [htt, Function.update_self]
          exact .inr rfl
        · rw [Function.update_of_ne htt]
          exact .inl rfl
      cases u <;> exact hdir

end Handler

section Steps
variable {n off t addr : ℕ} {kt : ℕ → ℕ} {handed : List ℕ} {σ σ' : Paging} {d : Entries}

theorem pdPos_lt (h : addr < 2 ^ 32) : pdPos addr < 1024 := by
  rw [pdPos_eq]
  omega

theorem ptePos_lt (addr : ℕ) : ptePos addr < 1024 := by
  rw [ptePos_eq]
  omega

theorem kernelPdRow_lt {r : ℕ} (hlt : r < 1024) : kernelPdRow r < 256 := by
  unfold kernelPdRow
  split
  · omega
  · omega

theorem MappingInv.init (hi : MappingInv n off kt handed σ) (vmAreas : List VMArea)
    (ht : t ≤ σ.numThreads) : MappingInv n off kt handed { σ with
      threads := Function.update σ.threads t ⟨initUserPaging σ.kernelPageDirectory, vmAreas⟩
      numThreads := max σ.numThreads (t + 1) } := by
  refine ⟨hi.fast, hi.fits, hi.below, fun d hd => ?_, hi.words⟩
  rcases hd with rfl | ⟨t', ht', rfl⟩
  · exact hi.dirs _ (.inl rfl)
  · by_cases htt : t' = t
    · rw [htt]
      simp only [Function.update_self]
      exact (hi.dirs _ (.inl rfl)).initUserPaging
    · simp only [Function.update_of_ne htt]
      dsimp only at ht'
      exact hi.dirs _ (isDir_thread (by omega))

theorem MappingInv.kernel_present (hi : MappingInv n off kt handed σ) (hd : IsDir σ d)
    (hrow : KernelRow (pdPos addr)) (haddr : addr < 2 ^ 32) :
    isPresent (d (pdPos addr)) = true ∧
      isPresent (σ.tables (tablePtr (d (pdPos addr))) (ptePos addr)) = true := by
  have hlt := pdPos_lt haddr
  have hentry := (hi.dirs d hd).kernel _ hrow hlt
  refine ⟨hentry.present, ?_⟩
  rw [hentry.ptr, hi.words _ hrow hlt]
  exact (kernelWords_spec (ptePos_lt addr) (kernelPdRow_lt hlt)).1

theorem MappingInv.handed_lt (hi : MappingInv n off kt handed σ) {q : ℕ} (hq : q ∈ handed) : q < n := by
  obtain ⟨⟨fl, hz⟩, -, htot, -⟩ := hi.fast
  exact htot ▸ hz.handed_lt (List.mem_toFinset.mpr hq)

theorem MappingInv.kernel_ne (hi : MappingInv n off kt handed σ) {q r : ℕ} (hq : q < n)
    (hr : KernelRow r) (hlt : r < 1024) : framePtr (kt r) ≠ framePtr (off + q) := by
  have hfits := hi.fits
  have hbelow := hi.below r hr hlt
  intro h
  have hpq := framePtr_inj (by omega) (by omega) h
  omega

theorem MappingInv.step (hi : MappingInv n off kt handed σ) (hs : MappingStep σ σ') :
    ∃ handed', MappingInv n off kt handed' σ' := by
  cases hs with
  | init vmAreas ht => exact ⟨handed, hi.init vmAreas ht⟩
  | @fault _ dir _ addr _ _ hdir haddr hok =>
    have hd := isDir_pgdir hdir
    rcases handlerOn_cases hok with rfl | ⟨hpde, hpte, x, rfl⟩ | ⟨hpde, ptr, h', pfn, u, hf, rfl⟩
    · exact ⟨handed, hi⟩
    · -- a page is missing, so the row is not the kernel's and its table is in the fast zone
      have hrow : ¬ KernelRow (pdPos addr) := by
        intro hrow
        rw [(hi.kernel_present hd hrow haddr).2] at hpte
        cases hpte
      have hne : σ.pgdir dir (pdPos addr) ≠ 0 := by
        intro hz
        rw [hz] at hpde
        cases hpde
      obtain ⟨q, hq, v, hentry⟩ := (hi.dirs _ hd).user _ hrow hne
      refine ⟨handed, hi.fast, hi.fits, hi.below, hi.dirs, fun r hr hlt => ?_⟩
      rw [hentry.ptr]
      rw [setPte_tables_of_ne (hi.kernel_ne (hi.handed_lt hq) hr hlt)]
      exact hi.words r hr hlt
    · have hrow : ¬ KernelRow (pdPos addr) := by
        intro hrow
        rw [(hi.kernel_present hd hrow haddr).1] at hpde
        cases hpde
      have hfits := hi.fits
      obtain ⟨hheap, htables, -⟩ := @withTableOn_frame σ dir addr pfn ptr u h'
      obtain ⟨q, hptr, hq, -, hfast⟩ := fmalloc_ok hi.fast hf
      have hentry := frameEntry_newPde (p := off + q) (by omega) u
      rw [← hptr] at hentry
      refine ⟨q :: handed, ?_, hfits, hi.below, fun d hd' => ?_, fun r hr hlt => ?_⟩
      · rw [hheap]
        exact hfast
      · obtain ⟨d₀, hd₀, rfl | rfl⟩ := isDir_withTableOn hd'
        · exact (hi.dirs d hd₀).cons q
        · exact (hi.dirs d₀ hd₀).update hrow hentry
      · rw [htables, hptr, Function.update_of_ne (hi.kernel_ne hq hr hlt)]
        exact hi.words r hr hlt

theorem MappingInv.run (hi : MappingInv n off kt handed σ) (hr : Relation.ReflTransGen MappingStep σ σ') :
    ∃ handed', MappingInv n off kt handed' σ' := by
  induction hr with
  | refl => exact ⟨handed, hi⟩
  | tail _ hs ih =>
    obtain ⟨handed', hi'⟩ := ih
    exact hi'.step hs

theorem MappingInv.maps (hi : MappingInv n off kt handed σ) (hd : IsDir σ d)
    (hrow : KernelRow (pdPos addr)) (haddr : addr < 2 ^ 32) :
    KernelMaps σ d addr
      ((kernelPdRow (pdPos addr) * 1024 + ptePos addr) * pageSize + addr % pageSize) := by
  have hlt := pdPos_lt haddr
  have hentry := (hi.dirs d hd).kernel _ hrow hlt
  obtain ⟨hpres, huser, hpfn⟩ :=
    kernelWords_spec (ptePos_lt addr) (kernelPdRow_lt hlt)
  have hword : σ.tables (tablePtr (d (pdPos addr))) (ptePos addr) =
      kernelWords (kernelPdRow (pdPos addr)) (ptePos addr) := by
    rw [hentry.ptr, hi.words _ hrow hlt]
  refine ⟨?_, hentry.user, hword ▸ huser⟩
  simp only [walk, hword, hentry.present, hpres, hpfn, Bool.and_self, if_true]

theorem MappingInv.mapped (hi : MappingInv n off kt handed σ) : KernelMapped σ where
  high d hd addr hbase haddr := by
    have hbase' : 3221225472 ≤ addr := hbase
    have hrow : 768 ≤ pdPos addr := by
      rw [pdPos_eq]
      omega
    have hphys : (kernelPdRow (pdPos addr) * 1024 + ptePos addr) * pageSize + addr % pageSize =
        addr - kernelVirtualAddressBase := by
      unfold kernelPdRow
      rw [if_neg (by omega), pdPos_eq, ptePos_eq]
      unfold pageSize kernelVirtualAddressBase
      omega
    exact hphys ▸ hi.maps hd (.inr hrow) haddr
  low d hd addr haddr := by
    have hrow : pdPos addr = 0 := by
      rw [pdPos_eq]
      omega
    have hphys : (kernelPdRow (pdPos addr) * 1024 + ptePos addr) * pageSize + addr % pageSize =
        addr := by
      unfold kernelPdRow
      rw [if_pos hrow, hrow, ptePos_eq]
      unfold pageSize
      omega
    have hmaps := hi.maps hd (.inl hrow) (haddr.trans (by decide))
    rwa [hphys] at hmaps
  shared d d' hd hd' r hr hlt := by
    rw [((hi.dirs d hd).kernel r (.inr hr) hlt).ptr, ((hi.dirs d' hd').kernel r (.inr hr) hlt).ptr]

end Steps

structure RowsMapped (n k : ℕ) (σ₀ σ : Paging) (handed taken : List ℕ) : Prop where
  grew : ∃ c, Grew n c σ₀.heap σ.heap handed taken
  rows : ∀ r < k, KernelRow r → ∃ p ∈ taken, FrameEntry p false (σ.kernelPageDirectory r) ∧
    σ.tables (framePtr p) = kernelWords (kernelPdRow r)
  empty : ∀ r, ¬ KernelRow r → σ.kernelPageDirectory r = 0
  numThreads : σ.numThreads = σ₀.numThreads

section Rows
variable {n k pdRow : ℕ} {σ₀ σ σ' : Paging} {handed taken : List ℕ}

theorem RowsMapped.fill (hi : RowsMapped n k σ₀ σ handed taken) (hn : n ≤ 2 ^ 17) (hk : KernelRow k)
    (hrow : pdRow = kernelPdRow k) (hok : ((makeKernelPte pdRow σ).bind fun pte σ =>
      .ok () (σ.setKernelPde k (setReadWrite (setPresent (pa pte))))) = .ok () σ') :
    ∃ taken', RowsMapped n (k + 1) σ₀ σ' handed taken' := by
  obtain ⟨c, hg⟩ := hi.grew
  rcases kallocNosleep_single hg.run hn with ⟨p, h', halloc, hg'⟩ | ⟨hpanic, -⟩
  swap
  · rw [makeKernelPte, hpanic] at hok
    cases hok
  have hp : p < n := hg'.run.lt (List.mem_cons_self ..)
  have hnew : p ∉ taken := (List.nodup_cons.mp hg'.run.nodup).1
  rw [makeKernelPte, halloc, pageAddr_framePtr (by omega)] at hok
  obtain rfl := (Outcome.ok.inj hok).2
  refine ⟨p :: taken, ⟨c + 1, hg.trans hg'⟩, fun r hr hkr => ?_, fun r hr => ?_, hi.numThreads⟩
  · by_cases hrk : r = k
    · subst hrk
      refine ⟨p, List.mem_cons_self .., ?_, ?_⟩
      · simp only [Paging.setKernelPde, Function.update_self]
        exact frameEntry_kernel (by omega)
      · simp only [Paging.setKernelPde, Paging.setTable, Function.update_self]
        rw [← hrow]
        rfl
    · obtain ⟨q, hq, hentry, hwords⟩ := hi.rows r (by omega) hkr
      have hqn : q < n := hg.run.lt hq
      have hne : framePtr q ≠ framePtr p := by
        intro h
        exact hnew (framePtr_inj (by omega) (by omega) h ▸ hq)
      refine ⟨q, List.mem_cons_of_mem _ hq, ?_, ?_⟩
      · simp only [Paging.setKernelPde, Function.update_of_ne hrk]
        exact hentry
      · simp only [Paging.setKernelPde, Paging.setTable, Function.update_of_ne hne]
        exact hwords
  · have hne : r ≠ k := fun h => hr (h ▸ hk)
    simp only [Paging.setKernelPde, Function.update_of_ne hne]
    exact hi.empty r hr

theorem RowsMapped.row (hi : RowsMapped n k σ₀ σ handed taken) (hn : n ≤ 2 ^ 17)
    (hok : initKernelRow k σ = .ok () σ') : ∃ taken', RowsMapped n (k + 1) σ₀ σ' handed taken' := by
  by_cases h0 : k = 0
  · simp only [initKernelRow, if_pos h0] at hok
    refine hi.fill hn (.inl h0) ?_ hok
    unfold kernelPdRow
    rw [if_pos h0]
  · by_cases h768 : k ≥ 768
    · simp only [initKernelRow, if_neg h0, if_pos h768] at hok
      refine hi.fill hn (.inr h768) ?_ hok
      unfold kernelPdRow
      rw [if_neg h0]
    · simp only [initKernelRow, if_neg h0, if_neg h768] at hok
      obtain rfl := (Outcome.ok.inj hok).2
      refine ⟨taken, hi.grew, fun r hr hkr => hi.rows r ?_ hkr, hi.empty, hi.numThreads⟩
      unfold KernelRow at hkr
      omega

theorem initKernelRows_mapped (hrun : RunInv n 0 σ₀.heap.kernelBuddyNew handed) (hn : n ≤ 2 ^ 17)
    (hzero : σ₀.kernelPageDirectory = fun _ => 0) (hok : initKernelRows k σ₀ = .ok () σ) :
    ∃ taken, RowsMapped n k σ₀ σ handed taken := by
  induction k generalizing σ with
  | zero =>
    obtain rfl := (Outcome.ok.inj hok).2
    exact ⟨handed, ⟨0, .refl hrun⟩, fun r hr => absurd hr (Nat.not_lt_zero r),
      fun r _ => congrFun hzero r, rfl⟩
  | succ k ih =>
    obtain ⟨_, σ₁, hrows, hrow⟩ := Outcome.bind_eq_ok.mp hok
    obtain ⟨taken, hi⟩ := ih hrows
    exact hi.row hn hrow

theorem RowsMapped.mappingInv {m off : ℕ} (hi : RowsMapped n 1024 σ₀ σ handed taken)
    (hfast : RunInv m off σ₀.heap.fastBuddyNew []) (hfits : off + m ≤ 2 ^ 18) (hoff : n ≤ off)
    (hnone : σ₀.numThreads = 0) : ∃ kt, MappingInv m off kt [] σ := by
  obtain ⟨c, hg⟩ := hi.grew
  have hrows : ∀ r, ∃ p, KernelRow r → r < 1024 → p ∈ taken ∧
      FrameEntry p false (σ.kernelPageDirectory r) ∧
      σ.tables (framePtr p) = kernelWords (kernelPdRow r) := by
    intro r
    by_cases h : KernelRow r ∧ r < 1024
    · obtain ⟨p, hp⟩ := hi.rows r h.2 h.1
      exact ⟨p, fun _ _ => hp⟩
    · exact ⟨0, fun h₁ h₂ => absurd ⟨h₁, h₂⟩ h⟩
  obtain ⟨kt, hkt⟩ := Classical.skolem.mp hrows
  refine ⟨kt, hg.fast.symm ▸ hfast, hfits, fun r hr hlt => ?_, fun d hd => ?_, fun r hr hlt => ?_⟩
  · have hp : kt r < n := hg.run.lt (hkt r hr hlt).1
    omega
  · rcases hd with rfl | ⟨t, ht, -⟩
    · exact ⟨fun r hr hlt => (hkt r hr hlt).2.1, fun r hr hz => absurd (hi.empty r hr) hz⟩
    · rw [hi.numThreads, hnone] at ht
      exact absurd ht (Nat.not_lt_zero t)
  · exact (hkt r hr hlt).2.2

end Rows

section Reach
variable {totalPages : ℕ} {σ : Paging}

theorem PagingBoot.mappingInv (h : PagingBoot totalPages σ) : ∃ n off kt, MappingInv n off kt [] σ := by
  obtain ⟨σ₀, handed, pages, n, off, hinit, hzero, hnone, hrun, hfast, hsmall, hbelow, hfits⟩ := h.start
  obtain ⟨taken, hi⟩ := initKernelRows_mapped hrun hsmall hzero hinit
  obtain ⟨kt, hinv⟩ := hi.mappingInv hfast hfits hbelow hnone
  exact ⟨n, off, kt, hinv⟩

/-- The kernel half and the first 4 MiB in every state that can be reached. -/
theorem kernel_mapped (h : MappingReach totalPages σ) : KernelMapped σ := by
  obtain ⟨σ₀, hboot, hrun⟩ := h
  obtain ⟨n, off, kt, hi⟩ := hboot.mappingInv
  obtain ⟨handed, hi'⟩ := hi.run hrun
  exact hi'.mapped

/-- A thread is created on the machine of `pagingBoot_boot`, and its first access to its page is a fault. -/
theorem kernel_mapped_boot : ∃ σ, MappingReach 114688 σ ∧ mapped σ 0 0x400000 = true ∧ KernelMapped σ := by
  obtain ⟨σ, hboot, hfree⟩ := pagingBoot_boot
  obtain ⟨⟨n, off, hi⟩, -, hnone⟩ := hboot.inv
  let areas : List VMArea := [⟨0x400000, 0x401000, 0x2000000⟩]
  have hmax : max σ.numThreads (σ.numThreads + 1) = σ.numThreads + 1 := Nat.max_eq_right (Nat.le_succ _)
  have hinit : MappingStep σ (createSpace areas σ) := by
    have h := @MappingStep.init σ σ.numThreads areas le_rfl
    rwa [hmax] at h
  have hpde : isPresent (pdeOf (createSpace areas σ) σ.numThreads 0x400000) = false :=
    pde_createSpace (hboot.row_eq_zero (by decide) (by decide))
  have hareas : ((createSpace areas σ).threads σ.numThreads).vmAreas = areas := by
    simp only [createSpace, Function.update_self]
  have hpage : 0 < freePages (createSpace areas σ).heap.fastBuddyNew := lt_of_lt_of_le (by decide) hfree
  obtain ⟨σ', hok, -, -, -, -, hm, -⟩ := (hi.createSpace areas).user_fault hpage hpde (by decide)
    (by rw [hareas]; decide)
  rw [pageFaultHandler_on] at hok
  have hfault := MappingStep.fault (fun t ht => Option.some.inj ht ▸ Nat.lt_succ_self _) (by decide) hok
  have hreach : MappingReach 114688 σ' := ⟨σ, hboot, (Relation.ReflTransGen.single hinit).tail hfault⟩
  rw [hnone] at hm
  exact ⟨σ', hreach, hm _ rfl rfl, kernel_mapped hreach⟩

end Reach

end X86Osdev.Mem

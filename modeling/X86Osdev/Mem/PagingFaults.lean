import X86Osdev.Mem.PagingInit

/-! The accesses of one thread to its own memory, each with the fault it may raise, and when every one
of them is carried out. -/

namespace X86Osdev.Mem

/-- One access of thread `t`; the result tells whether it has been carried out. -/
def touch (t : ℕ) (a : Access) (σ : Paging) : Outcome Paging Bool :=
  if permits σ t a then .ok true σ
  else (pageFaultHandler a.addr (errCode σ t a) t σ).bind fun e σ =>
    match e with
    | .badArea => .ok false σ
    | .returns => .ok (permits σ t a) σ

/-- A sequence of accesses, up to the first one that fails. -/
def touches (t : ℕ) : List Access → Paging → Outcome Paging Bool
  | [], σ => .ok true σ
  | a :: as, σ => (touch t a σ).bind fun done σ => if done then touches t as σ else .ok false σ

/-- No access fails: the handler does not come to `bad_area`, and where it returns the access is
permitted. -/
def Survives (t : ℕ) (as : List Access) (σ : Paging) : Prop := ∀ σ', touches t as σ ≠ .ok false σ'

/-- The areas lie below the kernel and above the first 4 MiB. -/
def UserAreas (vmAreas : List VMArea) : Prop :=
  ∀ vma ∈ vmAreas, 0x400000 ≤ vma.start ∧ vma.end ≤ kernelVirtualAddressBase

def sameRow (addr : ℕ) (a : Access) : Bool := pdPos a.addr == pdPos addr

def samePage (addr : ℕ) (a : Access) : Bool := a.addr / pageSize == addr / pageSize

/-- The first access of the kind, if there was one, came from user mode. -/
def FirstByUser (kind : Access → Bool) (as : List Access) : Prop :=
  ∀ a, as.find? kind = some a → a.usermode = true

/-- The 4 MiB around `addr` were not in the directory at the start, and user mode came first to them
and to the page of `addr`. -/
def TouchedByUser (σ : Paging) (t : ℕ) (done : List Access) (addr : ℕ) : Prop :=
  isPresent (pdeOf σ t addr) = false ∧ FirstByUser (sameRow addr) done ∧
    FirstByUser (samePage addr) done

section Kinds
variable {addr : ℕ} {a b : Access} {kind : Access → Bool} {as : List Access}

theorem sameRow_iff : sameRow addr a = true ↔ pdPos a.addr = pdPos addr := beq_iff_eq

theorem samePage_iff :
    samePage addr a = true ↔ pdPos a.addr = pdPos addr ∧ ptePos a.addr = ptePos addr := by
  rw [samePage, beq_iff_eq]
  exact page_eq_iff

theorem sameRow_of_samePage (h : samePage addr a = true) : sameRow addr a = true :=
  sameRow_iff.mpr (samePage_iff.mp h).1

theorem any_append_one : (as ++ [a]).any kind = (as.any kind || kind a) := by
  rw [List.any_append, List.any_cons, List.any_nil, Bool.or_false]

theorem firstByUser_none (h : as.any kind = false) : FirstByUser kind as := by
  intro a ha
  have := List.any_eq_true.mpr ⟨a, List.mem_of_find?_eq_some ha, List.find?_some ha⟩
  rw [h] at this
  cases this

theorem firstByUser_append (h : as.any kind = true ∨ kind a = false) :
    FirstByUser kind (as ++ [a]) ↔ FirstByUser kind as := by
  unfold FirstByUser
  rw [List.find?_append]
  cases hf : as.find? kind with
  | some b => simp
  | none =>
    have hnone : as.any kind = false := by
      rw [List.find?_eq_none] at hf
      exact List.any_eq_false.mpr hf
    rcases h with h | h
    · rw [hnone] at h
      cases h
    · simp [h]

theorem firstByUser_first (h : as.any kind = false) (ha : kind a = true) :
    FirstByUser kind (as ++ [a]) ↔ a.usermode = true := by
  have hf : as.find? kind = none := List.find?_eq_none.mpr (List.any_eq_false.mp h)
  simp [FirstByUser, List.find?_append, hf, ha]

end Kinds

/-- After the accesses `done` the flags of thread `t` tell which came first. -/
structure History (σ₀ : Paging) (t : ℕ) (vmAreas : List VMArea) (done : List Access) (σ : Paging) :
    Prop where
  inv : ∃ n off handed, PagingInv n off handed σ
  thread : t < σ.numThreads
  vmAreas : (σ.threads t).vmAreas = vmAreas
  row : ∀ b, isPresent (pdeOf σ t b) = (isPresent (pdeOf σ₀ t b) || done.any (sameRow b))
  rowUser : ∀ b, isPresent (pdeOf σ t b) = true → (isUsermode (pdeOf σ t b) = true ↔
    isPresent (pdeOf σ₀ t b) = false ∧ FirstByUser (sameRow b) done)
  page : ∀ b, isPresent (pdeOf σ₀ t b) = false → isPresent (pdeOf σ t b) = true →
    isPresent (pteOf σ t b) = done.any (samePage b)
  pageUser : ∀ b, isPresent (pdeOf σ₀ t b) = false → isPresent (pteOf σ t b) = true →
    isPresent (pdeOf σ t b) = true →
      (isUsermode (pteOf σ t b) = true ↔ FirstByUser (samePage b) done)

section Walk
variable {σ₀ σ : Paging} {t : ℕ} {vmAreas : List VMArea} {done : List Access} {a : Access}

theorem errCode_bits (σ : Paging) (t : ℕ) (a : Access) :
    (errCode σ t a &&& pfP != 0) = mapped σ t a.addr ∧ (errCode σ t a &&& pfU != 0) = a.usermode := by
  unfold errCode
  cases mapped σ t a.addr <;> cases a.write <;> cases a.usermode <;> decide

theorem isValidVa_exists {addr : ℕ} {vmAreas : List VMArea} (h : isValidVa addr vmAreas = true) :
    ∃ vma ∈ vmAreas, vma.contains addr = true := by
  induction vmAreas with
  | nil => cases h
  | cons vma rest ih =>
    rw [isValidVa] at h
    by_cases hc : vma.contains addr = true
    · exact ⟨vma, List.mem_cons_self .., hc⟩
    · rw [if_neg hc] at h
      obtain ⟨v, hv, hcv⟩ := ih h
      exact ⟨v, List.mem_cons_of_mem _ hv, hcv⟩

theorem badArea_eq (hu : UserAreas vmAreas) (hv : isValidVa a.addr vmAreas = true) :
    badArea a.addr (errCode σ t a) vmAreas = mapped σ t a.addr := by
  obtain ⟨vma, hm, hc⟩ := isValidVa_exists hv
  have hlt : a.addr < vma.end := (of_decide_eq_true hc).1
  have hk : isKernelAddr a.addr = false :=
    decide_eq_false (Nat.not_le.mpr (hlt.trans_le (hu vma hm).2))
  obtain ⟨hP, hU⟩ := errCode_bits σ t a
  rw [badArea, hP, hU, hk, hv]
  simp

theorem touch_eq (hu : UserAreas vmAreas) (hv : isValidVa a.addr vmAreas = true)
    (hareas : (σ.threads t).vmAreas = vmAreas) : touch t a σ =
      if permits σ t a then .ok true σ
      else if mapped σ t a.addr then .ok false σ
      else if isPresent (pdeOf σ t a.addr) then
        let σ' := σ.setPte (tablePtr (pdeOf σ t a.addr)) (ptePos a.addr)
          (mapPte (pteOf σ t a.addr) (calcPfn a.addr vmAreas) a.usermode)
        .ok (permits σ' t a) σ'
      else (mapNewTable a.addr (calcPfn a.addr vmAreas) a.usermode t σ).bind fun _ σ =>
        .ok (permits σ t a) σ := by
  rw [touch]
  by_cases hp : permits σ t a = true
  · rw [if_pos hp, if_pos hp]
  · rw [if_neg hp, if_neg hp, pageFaultHandler_eq, hareas, badArea_eq hu hv, (errCode_bits σ t a).2]
    by_cases hm : mapped σ t a.addr = true
    · rw [if_pos hm, if_pos hm]
      rfl
    · rw [if_neg hm, if_neg hm]
      by_cases hpde : isPresent (pdeOf σ t a.addr) = true
      · have hpte : ¬ isPresent (pteOf σ t a.addr) = true := fun h =>
          hm (Bool.and_eq_true_iff.mpr ⟨hpde, h⟩)
        rw [if_pos hpde, if_pos hpde, if_neg hpte]
        rfl
      · rw [if_neg hpde, if_neg hpde]
        rw [mapNewTable]
        cases hf : fmalloc pageSize σ.heap <;> rfl

theorem History.row_known (hi : History σ₀ t vmAreas done σ)
    (hpde : isPresent (pdeOf σ t a.addr) = true) (b : ℕ) (hb : isPresent (pdeOf σ₀ t b) = false) :
    done.any (sameRow b) = true ∨ sameRow b a = false := by
  cases hs : sameRow b a with
  | false => exact .inr rfl
  | true =>
    have h := hi.row b
    rw [pdeOf, ← sameRow_iff.mp hs, ← pdeOf, hpde, hb, Bool.false_or] at h
    exact .inl h.symm

theorem History.again (hi : History σ₀ t vmAreas done σ) (hm : mapped σ t a.addr = true) :
    History σ₀ t vmAreas (done ++ [a]) σ := by
  obtain ⟨hpde, hpte⟩ := Bool.and_eq_true_iff.mp hm
  have hrow := hi.row_known hpde
  have hpage : ∀ b, isPresent (pdeOf σ₀ t b) = false →
      done.any (samePage b) = true ∨ samePage b a = false := by
    intro b hb
    cases hs : samePage b a with
    | false => exact .inr rfl
    | true =>
      obtain ⟨hr, hp⟩ := samePage_iff.mp hs
      have h := hi.page b hb (by rw [pdeOf, ← hr, ← pdeOf, hpde])
      rw [pteOf, pdeOf, ← hr, ← pdeOf, ← hp] at h
      exact .inl (h.symm.trans hpte)
  refine ⟨hi.inv, hi.thread, hi.vmAreas, fun b => ?_, fun b hb => ?_, fun b hb hb' => ?_,
    fun b hb hb' hb'' => ?_⟩
  · rw [any_append_one, hi.row b]
    cases hb : isPresent (pdeOf σ₀ t b) with
    | true => rfl
    | false => rcases hrow b hb with h | h <;> simp [h]
  · rw [hi.rowUser b hb]
    refine and_congr_right fun hb₀ => (firstByUser_append (hrow b hb₀)).symm
  · rw [any_append_one, hi.page b hb hb']
    rcases hpage b hb with h | h <;> simp [h]
  · rw [hi.pageUser b hb hb' hb'']
    exact (firstByUser_append (hpage b hb)).symm

theorem History.setPte (hi : History σ₀ t vmAreas done σ) (hpde : isPresent (pdeOf σ t a.addr) = true)
    (hpte : isPresent (pteOf σ t a.addr) = false) (pfn : ℕ) :
    History σ₀ t vmAreas (done ++ [a]) (σ.setPte (tablePtr (pdeOf σ t a.addr)) (ptePos a.addr)
      (mapPte (pteOf σ t a.addr) pfn a.usermode)) := by
  obtain ⟨n, off, handed, hinv⟩ := hi.inv
  have hdir := isDir_thread hi.thread
  -- under one table lies one row
  have hslot : ∀ b, isPresent (pdeOf σ t b) = true →
      ((tablePtr (pdeOf σ t b) = tablePtr (pdeOf σ t a.addr) ∧ ptePos b = ptePos a.addr) ↔
        samePage b a = true) := by
    intro b hb
    rw [samePage_iff]
    constructor
    · rintro ⟨e, hp⟩
      exact ⟨(hinv.keyed _ _ hdir hdir _ _ hb hpde e).symm, hp.symm⟩
    · rintro ⟨hr, hp⟩
      exact ⟨by rw [pdeOf, pdeOf, hr], hp.symm⟩
  have hclear : isUsermode (pteOf σ t a.addr) = false := hinv.clear _ hdir _ hpde _ hpte
  have hold : ∀ b, isPresent (pdeOf σ t b) = true → samePage b a = false →
      ¬ (tablePtr (pdeOf σ t b) = tablePtr (pdeOf σ t a.addr) ∧ ptePos b = ptePos a.addr) :=
    fun b hb hs h => Bool.false_ne_true (hs.symm.trans ((hslot b hb).mp h))
  have hrow := hi.row_known hpde
  refine ⟨⟨n, off, handed, hinv.setPte isPresent_mapPte⟩, hi.thread, hi.vmAreas, fun b => ?_,
    fun b hb => ?_, fun b hb hb' => ?_, fun b hb hb' hb'' => ?_⟩
  · rw [any_append_one, pdeOf_setPte, hi.row b]
    cases hb : isPresent (pdeOf σ₀ t b) with
    | true => rfl
    | false => rcases hrow b hb with h | h <;> simp [h]
  · rw [pdeOf_setPte] at hb ⊢
    rw [hi.rowUser b hb]
    exact and_congr_right fun hb₀ => (firstByUser_append (hrow b hb₀)).symm
  · rw [pdeOf_setPte] at hb'
    rw [pteOf_setPte, any_append_one]
    cases hs : samePage b a with
    | true => rw [if_pos ((hslot b hb').mpr hs), isPresent_mapPte, Bool.or_true]
    | false => rw [if_neg (hold b hb' hs), hi.page b hb hb', Bool.or_false]
  · rw [pdeOf_setPte] at hb''
    rw [pteOf_setPte] at hb' ⊢
    cases hs : samePage b a with
    | true =>
      obtain ⟨hr, hp⟩ := samePage_iff.mp hs
      have hnone : done.any (samePage b) = false := by
        rw [← hi.page b hb hb'', pteOf, pdeOf, ← hr, ← hp]
        exact hpte
      rw [if_pos ((hslot b hb'').mpr hs), isUsermode_mapPte hclear, firstByUser_first hnone hs]
    | false =>
      rw [if_neg (hold b hb'' hs)] at hb' ⊢
      rw [hi.pageUser b hb hb' hb'', firstByUser_append (.inr hs)]

theorem History.withTable (hi : History σ₀ t vmAreas done σ)
    (hpde : isPresent (pdeOf σ t a.addr) = false) {ptr : ℕ} {h' : Heap}
    (hf : fmalloc pageSize σ.heap = .ok ptr h') (pfn : ℕ) :
    History σ₀ t vmAreas (done ++ [a]) (withTable ptr h' a.addr pfn a.usermode t σ) := by
  obtain ⟨n, off, handed, hinv⟩ := hi.inv
  have hdir := isDir_thread hi.thread
  obtain ⟨q, hptr, hq, hnew, hfast⟩ := fmalloc_ok hinv.fast hf
  rw [hptr]
  have hfits := hinv.fits
  have hentry := frameEntry_newPde (p := off + q) (by omega) a.usermode
  have hpdeOf : ∀ b, pdeOf (Mem.withTable (framePtr (off + q)) h' a.addr pfn a.usermode t σ) t b =
      if sameRow b a = true then newPde (framePtr (off + q)) a.usermode else pdeOf σ t b := by
    intro b
    rw [pdeOf_withTable]
    exact if_congr ⟨fun h => sameRow_iff.mpr h.2.symm, fun h => ⟨rfl, (sameRow_iff.mp h).symm⟩⟩
      rfl rfl
  -- nobody has been to the row
  obtain ⟨hinherit, hnone⟩ : isPresent (pdeOf σ₀ t a.addr) = false ∧
      done.any (sameRow a.addr) = false := by
    have h := hi.row a.addr
    rw [hpde] at h
    simpa using h.symm
  have hnoneRow : ∀ b, sameRow b a = true → done.any (sameRow b) = false := by
    intro b hs
    have e : sameRow b = sameRow a.addr := by
      funext c
      rw [sameRow, sameRow, sameRow_iff.mp hs]
    rw [e, hnone]
  have hnonePage : ∀ b, sameRow b a = true → done.any (samePage b) = false := by
    intro b hs
    have hr := List.any_eq_false.mp (hnoneRow b hs)
    exact List.any_eq_false.mpr fun c hc h => hr c hc (sameRow_of_samePage h)
  have hpteNew : ∀ b, sameRow b a = true →
      pteOf (Mem.withTable (framePtr (off + q)) h' a.addr pfn a.usermode t σ) t b =
        if samePage b a = true then mapPte 0 pfn a.usermode else 0 := by
    intro b hs
    rw [pteOf, hpdeOf, if_pos hs, hentry.ptr, tables_withTable, if_pos rfl]
    refine if_congr ⟨fun h => samePage_iff.mpr ⟨sameRow_iff.mp hs, h.symm⟩, fun h => ?_⟩ rfl rfl
    exact (samePage_iff.mp h).2.symm
  have hpteOld : ∀ b, sameRow b a = false → isPresent (pdeOf σ t b) = true →
      pteOf (Mem.withTable (framePtr (off + q)) h' a.addr pfn a.usermode t σ) t b = pteOf σ t b := by
    intro b hs hb
    have hne := hinv.ptr_ne hq hnew hdir hb
    rw [pteOf, hpdeOf, if_neg (Bool.eq_false_iff.mp hs), tables_withTable]
    exact if_neg hne
  have hother : ∀ b, sameRow b a = false → samePage b a = false := fun b hs =>
    Bool.eq_false_iff.mpr fun h => Bool.false_ne_true (hs.symm.trans (sameRow_of_samePage h))
  refine ⟨⟨n, off, q :: handed, hinv.withTable hi.thread hq hnew hfast⟩, hi.thread, ?_, fun b => ?_,
    fun b hb => ?_, fun b hb hb' => ?_, fun b hb hb' hb'' => ?_⟩
  · simp only [Mem.withTable, Function.update_self]
    exact hi.vmAreas
  · rw [hpdeOf, any_append_one]
    cases hs : sameRow b a with
    | true => rw [if_pos rfl, hentry.present, Bool.or_true, Bool.or_true]
    | false => rw [if_neg Bool.false_ne_true, hi.row b, Bool.or_false]
  · rw [hpdeOf] at hb ⊢
    cases hs : sameRow b a with
    | true =>
      rw [if_pos rfl, hentry.user, firstByUser_first (hnoneRow b hs) hs]
      refine (and_iff_right ?_).symm
      rw [pdeOf, ← sameRow_iff.mp hs]
      exact hinherit
    | false =>
      rw [hs, if_neg Bool.false_ne_true] at hb
      rw [if_neg Bool.false_ne_true, hi.rowUser b hb, firstByUser_append (.inr hs)]
  · rw [any_append_one]
    cases hs : sameRow b a with
    | true =>
      rw [hpteNew b hs, hnonePage b hs, Bool.false_or]
      cases samePage b a with
      | true => rw [if_pos rfl, isPresent_mapPte]
      | false =>
        rw [if_neg Bool.false_ne_true]
        rfl
    | false =>
      rw [hpdeOf, hs, if_neg Bool.false_ne_true] at hb'
      rw [hpteOld b hs hb', hi.page b hb hb', hother b hs, Bool.or_false]
  · cases hs : sameRow b a with
    | true =>
      rw [hpteNew b hs] at hb' ⊢
      cases hp : samePage b a with
      | true => rw [if_pos rfl, isUsermode_mapPte rfl, firstByUser_first (hnonePage b hs) hp]
      | false =>
        rw [hp, if_neg Bool.false_ne_true] at hb'
        cases hb'
    | false =>
      rw [hpdeOf, hs, if_neg Bool.false_ne_true] at hb''
      rw [hpteOld b hs hb''] at hb' ⊢
      rw [hi.pageUser b hb hb' hb'', firstByUser_append (.inr (hother b hs))]

theorem permits_iff : permits σ t a = true ↔ mapped σ t a.addr = true ∧ (a.usermode = true →
    isUsermode (pdeOf σ t a.addr) = true ∧ isUsermode (pteOf σ t a.addr) = true) := by
  rw [permits, Bool.and_eq_true_iff]
  cases a.usermode <;> simp

theorem permits_withTable {p pfn : ℕ} {h' : Heap} (hp : p < 2 ^ 18) :
    permits (withTable (framePtr p) h' a.addr pfn a.usermode t σ) t a = true := by
  have hentry := frameEntry_newPde hp a.usermode
  rw [permits_iff, mapped, pteOf, pdeOf_withTable, if_pos ⟨rfl, rfl⟩, hentry.ptr, tables_withTable,
    if_pos rfl, if_pos rfl, hentry.present, hentry.user, isPresent_mapPte, isUsermode_mapPte rfl]
  exact ⟨rfl, fun h => ⟨h, h⟩⟩

theorem touch_step (hi : History σ₀ t vmAreas done σ) (hu : UserAreas vmAreas)
    (hv : isValidVa a.addr vmAreas = true) :
    (∃ σ', touch t a σ = .ok true σ' ∧ History σ₀ t vmAreas (done ++ [a]) σ' ∧
        (a.usermode = true → TouchedByUser σ₀ t done a.addr)) ∨
      (∃ σ', touch t a σ = .ok false σ' ∧ a.usermode = true ∧
        ¬ TouchedByUser σ₀ t done a.addr) ∨
      ∃ msg σ', touch t a σ = .panic msg σ' ∧
        (a.usermode = true → TouchedByUser σ₀ t done a.addr) := by
  rw [touch_eq hu hv hi.vmAreas]
  by_cases hm : mapped σ t a.addr = true
  · -- the page is there: the flags decide
    obtain ⟨hpde, hpte⟩ := Bool.and_eq_true_iff.mp hm
    have hflags : TouchedByUser σ₀ t done a.addr ↔ isUsermode (pdeOf σ t a.addr) = true ∧
        isUsermode (pteOf σ t a.addr) = true := by
      rw [hi.rowUser _ hpde]
      constructor
      · rintro ⟨hinherit, hrow, hpage⟩
        exact ⟨⟨hinherit, hrow⟩, (hi.pageUser _ hinherit hpte hpde).mpr hpage⟩
      · rintro ⟨⟨hinherit, hrow⟩, hpage⟩
        exact ⟨hinherit, hrow, (hi.pageUser _ hinherit hpte hpde).mp hpage⟩
    by_cases hp : permits σ t a = true
    · rw [if_pos hp]
      exact .inl ⟨σ, rfl, hi.again hm, fun hum => hflags.mpr ((permits_iff.mp hp).2 hum)⟩
    · rw [if_neg hp, if_pos hm]
      have hnot := fun h => hp (permits_iff.mpr ⟨hm, h⟩)
      refine .inr (.inl ⟨σ, rfl, ?_, ?_⟩)
      · by_contra hum
        exact hnot fun h => absurd h hum
      · exact fun ht => hnot fun _ => hflags.mp ht
  · have hp : ¬ permits σ t a = true := fun h => hm (permits_iff.mp h).1
    rw [if_neg hp, if_neg hm]
    by_cases hpde : isPresent (pdeOf σ t a.addr) = true
    · -- the page is entered: the directory entry decides
      have hpte : isPresent (pteOf σ t a.addr) = false :=
        Bool.eq_false_iff.mpr fun h => hm (Bool.and_eq_true_iff.mpr ⟨hpde, h⟩)
      obtain ⟨n, off, handed, hinv⟩ := hi.inv
      have hclear : isUsermode (pteOf σ t a.addr) = false :=
        hinv.clear _ (isDir_thread hi.thread) _ hpde _ hpte
      rw [if_pos hpde]
      have hnext := hi.setPte hpde hpte (calcPfn a.addr vmAreas)
      have hflags : TouchedByUser σ₀ t done a.addr ↔ isUsermode (pdeOf σ t a.addr) = true := by
        rw [hi.rowUser _ hpde]
        constructor
        · rintro ⟨hinherit, hrow, -⟩
          exact ⟨hinherit, hrow⟩
        · rintro ⟨hinherit, hrow⟩
          refine ⟨hinherit, hrow, firstByUser_none ?_⟩
          rw [← hi.page _ hinherit hpde, hpte]
      have hperm : ∀ pfn, permits (σ.setPte (tablePtr (pdeOf σ t a.addr)) (ptePos a.addr)
          (mapPte (pteOf σ t a.addr) pfn a.usermode)) t a = true ↔
            (a.usermode = true → isUsermode (pdeOf σ t a.addr) = true) := by
        intro pfn
        rw [permits_iff, mapped, pdeOf_setPte, pteOf_setPte, if_pos ⟨rfl, rfl⟩, hpde,
          isPresent_mapPte, isUsermode_mapPte hclear]
        simp only [Bool.and_self, true_and]
        exact imp_congr_right fun h => and_iff_left h
      cases hdone : permits (σ.setPte (tablePtr (pdeOf σ t a.addr)) (ptePos a.addr)
          (mapPte (pteOf σ t a.addr) (calcPfn a.addr vmAreas) a.usermode)) t a with
      | true =>
        exact .inl ⟨_, congrArg (Outcome.ok · _) hdone, hnext, fun hum => hflags.mpr ((hperm _).mp hdone hum)⟩
      | false =>
        have hnot := fun h => Bool.false_ne_true (hdone.symm.trans ((hperm _).mpr h))
        refine .inr (.inl ⟨_, congrArg (Outcome.ok · _) hdone, ?_,
          fun ht => hnot fun _ => hflags.mp ht⟩)
        by_contra hum
        exact hnot fun h => absurd h hum
    · -- nobody has been to the row, so nothing stands against user mode
      have hpde : isPresent (pdeOf σ t a.addr) = false := Bool.eq_false_iff.mpr hpde
      have hrow := hi.row a.addr
      rw [hpde] at hrow
      obtain ⟨hinherit, hnone⟩ : isPresent (pdeOf σ₀ t a.addr) = false ∧
          done.any (sameRow a.addr) = false := by simpa using hrow.symm
      have htouched : TouchedByUser σ₀ t done a.addr := by
        refine ⟨hinherit, firstByUser_none hnone, firstByUser_none ?_⟩
        have hr := List.any_eq_false.mp hnone
        exact List.any_eq_false.mpr fun c hc h => hr c hc (sameRow_of_samePage h)
      rw [if_neg (Bool.eq_false_iff.mp hpde)]
      obtain ⟨n, off, handed, hinv⟩ := hi.inv
      rcases fmalloc_spec hinv.fast calcPageOrder_page with ⟨q, h', hf, hq, -⟩ | ⟨hpanic, -⟩
      · have hfits := hinv.fits
        have hperm := @permits_withTable σ t a (off + q) (calcPfn a.addr vmAreas) h' (by omega)
        rw [mapNewTable_eq hf, Outcome.bind_ok, hperm]
        exact .inl ⟨_, rfl, hi.withTable hpde hf (calcPfn a.addr vmAreas), fun _ => htouched⟩
      · refine .inr (.inr ⟨outOfMemory, σ, ?_, fun _ => htouched⟩)
        rw [mapNewTable, hpanic]
        rfl

theorem touches_run {as : List Access} (hi : History σ₀ t vmAreas done σ) (hu : UserAreas vmAreas)
    (hv : ∀ a ∈ as, isValidVa a.addr vmAreas = true) :
    (Survives t as σ ∧ ∀ pre a post, as = pre ++ a :: post → (∃ σ', touches t pre σ = .ok true σ') →
        a.usermode = true → TouchedByUser σ₀ t (done ++ pre) a.addr) ∨
      (¬ Survives t as σ ∧ ∃ pre a post σ', as = pre ++ a :: post ∧ touches t pre σ = .ok true σ' ∧
        a.usermode = true ∧ ¬ TouchedByUser σ₀ t (done ++ pre) a.addr) := by
  induction as generalizing done σ with
  | nil =>
    refine .inl ⟨fun σ' h => (by cases h), fun pre a post e => ?_⟩
    simp at e
  | cons a as ih =>
    have hva := hv a (List.mem_cons_self ..)
    -- a prefix is empty or starts with `a`
    have hsplit : ∀ {pre b post}, a :: as = pre ++ b :: post → (pre = [] ∧ b = a) ∨
        ∃ pre', pre = a :: pre' ∧ as = pre' ++ b :: post := by
      intro pre b post e
      cases pre with
      | nil => exact .inl ⟨rfl, (List.cons.inj e).1.symm⟩
      | cons c pre' =>
        obtain ⟨rfl, e'⟩ := List.cons.inj e
        exact .inr ⟨pre', rfl, e'⟩
    rcases touch_step hi hu hva with ⟨σ', hok, hi', hcond⟩ | ⟨σ', hfail, hum, hcond⟩ |
      ⟨msg, σ', hpanic, hcond⟩
    · have hstep : ∀ bs, touches t (a :: bs) σ = touches t bs σ' := by
        intro bs
        rw [touches, hok]
        rfl
      rcases ih hi' fun b hb => hv b (List.mem_cons_of_mem _ hb) with ⟨hsv, hall⟩ |
        ⟨hsv, pre, b, post, σ'', rfl, hpre, hum, hnot⟩
      · refine .inl ⟨fun σ'' => hstep as ▸ hsv σ'', fun pre b post e hdone hum => ?_⟩
        rcases hsplit e with ⟨rfl, rfl⟩ | ⟨pre', rfl, e'⟩
        · rw [List.append_nil]
          exact hcond hum
        · rw [hstep] at hdone
          have h := hall pre' b post e' hdone hum
          rwa [List.append_assoc] at h
      · refine .inr ⟨fun h => hsv fun σ'' => hstep _ ▸ h σ'', a :: pre, b, post, σ'', rfl,
          (hstep pre).trans hpre, hum, ?_⟩
        rwa [List.append_assoc] at hnot
    · refine .inr ⟨fun h => h σ' ?_, [], a, as, σ, rfl, rfl, hum, ?_⟩
      · rw [touches, hfail]
        rfl
      · rwa [List.append_nil]
    · refine .inl ⟨fun σ'' h => ?_, fun pre b post e hdone hum => ?_⟩
      · rw [touches, hpanic] at h
        cases h
      · rcases hsplit e with ⟨rfl, rfl⟩ | ⟨pre', rfl, -⟩
        · rw [List.append_nil]
          exact hcond hum
        · obtain ⟨σ'', h⟩ := hdone
          rw [touches, hpanic] at h
          cases h

end Walk

section Created
variable {totalPages : ℕ} {σ : Paging} {vmAreas : List VMArea}

theorem history_start (h : PagingReach anyTime totalPages σ) :
    History (createSpace vmAreas σ) σ.numThreads vmAreas [] (createSpace vmAreas σ) := by
  obtain ⟨n, off, handed, hi⟩ := h.inv
  have hdir : ((createSpace vmAreas σ).threads σ.numThreads).pageDir =
      initUserPaging σ.kernelPageDirectory := by simp only [createSpace, Function.update_self]
  have hnone : ∀ kind : Access → Bool, FirstByUser kind [] := fun kind a ha => by cases ha
  refine ⟨⟨n, off, handed, hi.createSpace vmAreas⟩, Nat.lt_succ_self _, ?_, fun b => ?_,
    fun b hb => ?_, fun b hb hb' => ?_, fun b hb _ hb' => ?_⟩
  · simp only [createSpace, Function.update_self]
  · rw [List.any_nil, Bool.or_false]
  · rw [hb]
    rw [pdeOf, hdir] at hb ⊢
    rcases hi.initUserPaging (pdPos b) with ⟨-, hz⟩ | ⟨-, p, -, -, he⟩
    · rw [hz] at hb
      cases hb
    · simp [he.user]
  · rw [hb] at hb'
    cases hb'
  · rw [hb] at hb'
    cases hb'

/-- Every access of a new thread to its memory is carried out exactly when user mode came first to each
4 MiB and each page that it uses, and no directory entry for them was inherited. -/
theorem valid_memory_survives (h : PagingReach anyTime totalPages σ) (hu : UserAreas vmAreas)
    {as : List Access} (hv : ∀ a ∈ as, isValidVa a.addr vmAreas = true) :
    Survives σ.numThreads as (createSpace vmAreas σ) ↔
      ∀ pre a post, as = pre ++ a :: post →
        (∃ σ', touches σ.numThreads pre (createSpace vmAreas σ) = .ok true σ') →
          a.usermode = true → TouchedByUser (createSpace vmAreas σ) σ.numThreads pre a.addr := by
  rcases touches_run (history_start h) hu hv with ⟨hsv, hall⟩ |
    ⟨hsv, pre, a, post, σ', he, hpre, hum, hnot⟩
  · exact iff_of_true hsv hall
  · exact iff_of_false hsv fun hall => hnot (hall pre a post he ⟨σ', hpre⟩ hum)

end Created

def onePage : List VMArea := [⟨0x400000, 0x401000, 0x2000000⟩]

theorem userAreas_onePage : UserAreas onePage := by
  intro vma hm
  rw [List.mem_singleton.mp hm]
  decide

theorem valid_memory_survives_user : ∃ σ, PagingReach anyTime 114688 σ ∧
    Survives σ.numThreads [⟨0x400000, true, true⟩, ⟨0x400004, false, false⟩]
      (createSpace onePage σ) := by
  obtain ⟨σ, hboot, -⟩ := pagingBoot_boot
  have hreach : PagingReach anyTime 114688 σ := ⟨σ, hboot, .refl⟩
  refine ⟨σ, hreach, (valid_memory_survives hreach userAreas_onePage (by decide)).mpr ?_⟩
  intro pre a post e _ hum
  rcases pre with _ | ⟨b, _ | ⟨c, pre⟩⟩
  · obtain ⟨rfl, -⟩ := List.cons.inj e
    refine ⟨pde_createSpace (hboot.row_eq_zero (by decide) (by decide)), ?_, ?_⟩ <;> exact firstByUser_none rfl
  · obtain ⟨rfl, e'⟩ := List.cons.inj e
    obtain ⟨rfl, -⟩ := List.cons.inj e'
    cases hum
  · simp at e

/-- The kernel reads the page first, as `sys_write` does with a buffer that the thread has not used
yet; the thread is killed when it reads the page itself. -/
theorem kernel_first_kills : ∃ σ as, PagingReach anyTime 114688 σ ∧ UserAreas onePage ∧
    (∀ a ∈ as, isValidVa a.addr onePage = true) ∧
      ¬ Survives σ.numThreads as (createSpace onePage σ) := by
  obtain ⟨σ, hboot, hfree⟩ := pagingBoot_boot
  obtain ⟨⟨n, off, hi⟩, -, -⟩ := hboot.inv
  have hreach : PagingReach anyTime 114688 σ := ⟨σ, hboot, .refl⟩
  refine ⟨σ, [⟨0x400000, false, false⟩, ⟨0x400000, false, true⟩], hreach, userAreas_onePage,
    by decide, ?_⟩
  rcases @touches_run _ _ _ _ _ [⟨0x400000, false, false⟩, ⟨0x400000, false, true⟩]
    (history_start hreach) userAreas_onePage (by decide) with ⟨-, hall⟩ | ⟨hfails, -⟩
  · -- the first access is carried out
    have hpde : isPresent (pdeOf (createSpace onePage σ) σ.numThreads 0x400000) = false :=
      pde_createSpace (hboot.row_eq_zero (by decide) (by decide))
    rcases fmalloc_spec (hi.createSpace onePage).fast calcPageOrder_page with
      ⟨q, h', hf, hq, -⟩ | ⟨-, hempty⟩
    · have hfits := hi.fits
      have hdone : ∃ σ', touches σ.numThreads [⟨0x400000, false, false⟩] (createSpace onePage σ) =
          .ok true σ' := by
        have hareas : ((createSpace onePage σ).threads σ.numThreads).vmAreas = onePage := by
          simp only [createSpace, Function.update_self]
        refine ⟨withTable (framePtr (off + q)) h' 0x400000 (calcPfn 0x400000 onePage) false
          σ.numThreads (createSpace onePage σ), ?_⟩
        rw [touches, touch_eq userAreas_onePage (by decide) hareas, permits, mapped, hpde,
          mapNewTable_eq hf]
        have hperm := @permits_withTable (createSpace onePage σ) σ.numThreads
          ⟨0x400000, false, false⟩ (off + q) (calcPfn 0x400000 onePage) h' (by omega)
        simp only [Bool.false_and, Bool.false_eq_true, if_false, Outcome.bind_ok, hperm, if_true]
        rfl
      obtain ⟨-, hfirst, -⟩ := hall [⟨0x400000, false, false⟩] ⟨0x400000, false, true⟩ [] rfl hdone rfl
      cases hfirst ⟨0x400000, false, false⟩ (by decide)
    · change freePages σ.heap.fastBuddyNew = 0 at hempty
      omega
  · exact hfails

end X86Osdev.Mem

import X86Osdev.Mem.PagingFaults
import Mathlib.Data.Finset.Card

/-! What the kernel reads through the pointers of a program: its faults take a page table for every 4 MiB that
has none, and the tables come from the fast zone. -/

namespace X86Osdev.Mem

/-- The fast zone has the invariant that its calls keep, within the memory that the kernel maps. -/
def FastZone (z : BuddyMemDesc) : Prop := ∃ n off handed, off + n ≤ 2 ^ 18 ∧ RunInv n off z handed

def kernelReads (addrs : List ℕ) : List Access := addrs.map fun addr => ⟨addr, false, false⟩

/-- The rows of the directory that the addresses are in and that have no table. -/
def missingRows (dir : Entries) (addrs : List ℕ) : Finset ℕ :=
  (addrs.map pdPos).toFinset.filter fun r => isPresent (dir r) = false

section Fast
variable {h : Heap} {size : ℕ}

/-- A page of the fast zone, if there is a free one. -/
theorem FastZone.fmalloc (hz : FastZone h.fastBuddyNew) (hsize : calcPageOrder size = 0) :
    (∃ p h', fmalloc size h = .ok (framePtr p) h' ∧ p < 2 ^ 18 ∧ FastZone h'.fastBuddyNew ∧
        freePages h.fastBuddyNew = freePages h'.fastBuddyNew + 1) ∨
      fmalloc size h = .panic outOfMemory h ∧ freePages h.fastBuddyNew = 0 := by
  obtain ⟨n, off, handed, hfits, hi⟩ := hz
  rcases fmalloc_spec hi hsize with ⟨q, h', hf, hq, -, hi', hpages⟩ | hpanic
  · exact .inl ⟨off + q, h', hf, by omega, ⟨n, off, q :: handed, hfits, hi'⟩, hpages⟩
  · exact .inr hpanic

end Fast

section Reads
variable {σ : Paging} {dir : Entries} {t addr x : ℕ} {addrs : List ℕ}

theorem missingRows_present (h : isPresent (dir (pdPos addr)) = true) :
    missingRows dir (addr :: addrs) = missingRows dir addrs := by
  have hnot : ¬ isPresent (dir (pdPos addr)) = false := by simp [h]
  rw [missingRows, List.map_cons, List.toFinset_cons, Finset.filter_insert, if_neg hnot, missingRows]

theorem missingRows_new (h : isPresent (dir (pdPos addr)) = false) (hx : isPresent x = true) :
    (missingRows dir (addr :: addrs)).card =
      (missingRows (Function.update dir (pdPos addr) x) addrs).card + 1 := by
  have hsplit : missingRows dir (addr :: addrs) =
      insert (pdPos addr) (missingRows (Function.update dir (pdPos addr) x) addrs) := by
    ext r
    by_cases hr : r = pdPos addr
    · simp [missingRows, hr, h]
    · simp [missingRows, hr]
  have hnew : pdPos addr ∉ missingRows (Function.update dir (pdPos addr) x) addrs := by simp [missingRows, hx]
  rw [hsplit, Finset.card_insert_of_notMem hnew]

/-- A read in kernel mode: the handler never comes to `bad_area`, and the read is carried out behind it. -/
theorem touch_kernelRead (t addr : ℕ) (hz : FastZone σ.heap.fastBuddyNew) :
    (∃ σ', touch t ⟨addr, false, false⟩ σ = .ok true σ' ∧ isPresent (pdeOf σ t addr) = true ∧
        σ'.heap = σ.heap ∧ (σ'.threads t).pageDir = (σ.threads t).pageDir) ∨
      (∃ σ' x, touch t ⟨addr, false, false⟩ σ = .ok true σ' ∧ isPresent (pdeOf σ t addr) = false ∧
        isPresent x = true ∧ (σ'.threads t).pageDir = Function.update (σ.threads t).pageDir (pdPos addr) x ∧
        FastZone σ'.heap.fastBuddyNew ∧ freePages σ.heap.fastBuddyNew = freePages σ'.heap.fastBuddyNew + 1) ∨
      (∃ σ', touch t ⟨addr, false, false⟩ σ = .panic outOfMemory σ') ∧ isPresent (pdeOf σ t addr) = false ∧
        freePages σ.heap.fastBuddyNew = 0 := by
  obtain ⟨hP, hU⟩ := errCode_bits σ t ⟨addr, false, false⟩
  unfold touch
  by_cases hmapped : mapped σ t addr = true
  · have hpermits : permits σ t ⟨addr, false, false⟩ = true := permits_iff.mpr ⟨hmapped, fun h => (nomatch h)⟩
    rw [if_pos hpermits]
    exact .inl ⟨σ, rfl, (Bool.and_eq_true_iff.mp hmapped).1, rfl, rfl⟩
  · have hpermits : ¬ permits σ t ⟨addr, false, false⟩ = true := fun h => hmapped (permits_iff.mp h).1
    have hbad : badArea addr (errCode σ t ⟨addr, false, false⟩) (σ.threads t).vmAreas = false := by
      have hmapped := Bool.eq_false_iff.mpr hmapped
      rw [badArea, hP, hU, hmapped]
      rfl
    rw [if_neg hpermits, pageFaultHandler_eq, hbad, if_neg Bool.false_ne_true, hU]
    by_cases hpde : isPresent (pdeOf σ t addr) = true
    · have hpte : ¬ isPresent (pteOf σ t addr) = true := fun h =>
        hmapped (Bool.and_eq_true_iff.mpr ⟨hpde, h⟩)
      rw [if_pos hpde, if_neg hpte, Outcome.bind_ok]
      have hdone : permits (σ.setPte (tablePtr (pdeOf σ t addr)) (ptePos addr) (mapPte (pteOf σ t addr)
          (calcPfn addr (σ.threads t).vmAreas) false)) t ⟨addr, false, false⟩ = true := by
        refine permits_iff.mpr ⟨?_, fun h => (nomatch h)⟩
        rw [mapped, pdeOf_setPte, hpde, pteOf_setPte, if_pos ⟨rfl, rfl⟩, isPresent_mapPte]
        rfl
      exact .inl ⟨_, congrArg (Outcome.ok · _) hdone, hpde, rfl, rfl⟩
    · rw [if_neg hpde]
      have hpde := Bool.eq_false_iff.mpr hpde
      rcases hz.fmalloc calcPageOrder_page with
        ⟨p, h', hf, hp, hz', hfree⟩ | ⟨hpanic, hfree⟩
      · rw [mapNewTable_eq hf, Outcome.bind_ok]
        have hdone := @permits_withTable σ t ⟨addr, false, false⟩ p (calcPfn addr (σ.threads t).vmAreas) h' hp
        refine .inr (.inl ⟨_, newPde (framePtr p) false, congrArg (Outcome.ok · _) hdone, hpde,
          (frameEntry_newPde hp false).present, ?_, hz', hfree⟩)
        simp only [withTable, Function.update_self]
      · refine .inr (.inr ⟨⟨σ, ?_⟩, hpde, hfree⟩)
        rw [mapNewTable, hpanic]
        rfl

/-- The reads are carried out as long as the fast zone has a page for every table that is missing. -/
theorem touches_kernelReads (t : ℕ) (addrs : List ℕ) (hz : FastZone σ.heap.fastBuddyNew) :
    ((missingRows (σ.threads t).pageDir addrs).card ≤ freePages σ.heap.fastBuddyNew →
      ∃ σ', touches t (kernelReads addrs) σ = .ok true σ' ∧ FastZone σ'.heap.fastBuddyNew) ∧
    (freePages σ.heap.fastBuddyNew < (missingRows (σ.threads t).pageDir addrs).card →
      ∃ σ', touches t (kernelReads addrs) σ = .panic outOfMemory σ') := by
  induction addrs generalizing σ with
  | nil => exact ⟨fun _ => ⟨σ, rfl, hz⟩, fun h => absurd h (Nat.not_lt_zero _)⟩
  | cons addr addrs ih =>
    rw [kernelReads, List.map_cons, ← kernelReads, touches]
    rcases touch_kernelRead t addr hz with ⟨σ', hok, hpde, hheap, hdir⟩ |
      ⟨σ', x, hok, hpde, hx, hdir, hz', hfree⟩ | ⟨⟨σ', hpanic⟩, hpde, hfree⟩
    · obtain ⟨hall, hout⟩ := @ih σ' (hheap ▸ hz)
      rw [hheap, hdir] at hall hout
      rw [hok, missingRows_present hpde]
      exact ⟨hall, hout⟩
    · obtain ⟨hall, hout⟩ := @ih σ' hz'
      rw [hdir] at hall hout
      rw [hok, missingRows_new hpde hx, hfree]
      exact ⟨fun hle => hall (Nat.le_of_add_le_add_right hle), fun hlt => hout (Nat.lt_of_add_lt_add_right hlt)⟩
    · rw [hpanic, hfree]
      refine ⟨fun hle => ?_, fun _ => ⟨σ', rfl⟩⟩
      have hmem : pdPos addr ∈ missingRows (σ.threads t).pageDir (addr :: addrs) := by
        simp only [missingRows, List.map_cons, List.toFinset_cons, Finset.mem_filter, Finset.mem_insert_self, true_and]
        exact hpde
      exact absurd (Finset.card_pos.mpr ⟨_, hmem⟩) (Nat.not_lt.mpr hle)

end Reads

end X86Osdev.Mem

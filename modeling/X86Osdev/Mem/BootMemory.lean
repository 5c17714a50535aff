import X86Osdev.Mem.HeapSafety

/-! init_memory_alloc for any amount of memory: where the zones lie, and which memory it puts aside. -/

namespace X86Osdev.Mem
open ByteMemory CircularList DyadicTiling

section Globals
variable {z z' : BuddyMemDesc} {h h' : Heap} {p order : ℕ}

theorem getFrom_addr {d : ℕ} (hok : getFrom d z = .ok p z') : z'.allBuddiesAddr = z.allBuddiesAddr := by
  induction d generalizing p z' with
  | zero =>
    unfold getFrom at hok
    split at hok
    · cases hok
      rfl
    · cases hok
  | succ d ih =>
    unfold getFrom at hok
    dsimp only at hok
    split at hok
    · cases hok
      rfl
    · obtain ⟨q, z₁, hget, hsplit⟩ := Outcome.bind_eq_ok.mp hok
      have hz : splitBlock (maxOrder - (d + 1)) q z₁ = z' := (Outcome.ok.inj hsplit).2
      have haddr := ih hget
      rw [← hz]
      exact haddr

theorem getBuddyNew_addr (hok : getBuddyNew order z = .ok p z') :
    z'.allBuddiesAddr = z.allBuddiesAddr := by
  unfold getBuddyNew at hok
  split at hok
  · cases hok
  · exact getFrom_addr hok

structure SameZones (h h' : Heap) : Prop where
  array : h'.kernelBuddyNew.allBuddiesAddr = h.kernelBuddyNew.allBuddiesAddr
  fast : h'.fastBuddyNew = h.fastBuddyNew
  normal : h'.normalBuddyNew = h.normalBuddyNew
  freeMemAddr : h'.freeMemAddr = h.freeMemAddr

theorem SameZones.refl (h : Heap) : SameZones h h := ⟨rfl, rfl, rfl, rfl⟩

theorem SameZones.trans {h'' : Heap} (hs : SameZones h h') (hs' : SameZones h' h'') :
    SameZones h h'' :=
  ⟨hs'.array.trans hs.array, hs'.fast.trans hs.fast, hs'.normal.trans hs.normal,
    hs'.freeMemAddr.trans hs.freeMemAddr⟩

theorem sameZones_kallocNosleep (hok : kallocNosleep order h = .ok p h') : SameZones h h' := by
  unfold kallocNosleep at hok
  obtain ⟨q, h₁, hlift, hrest⟩ := Outcome.bind_eq_ok.mp hok
  obtain ⟨z, hget, rfl⟩ := Outcome.lift_eq_ok.mp hlift
  obtain ⟨-, rfl⟩ := Outcome.ok.inj hrest
  exact ⟨getBuddyNew_addr hget, rfl, rfl, rfl⟩

theorem sameZones_takeFourMegs {n : ℕ} (hok : takeFourMegs n h = .ok () h') : SameZones h h' := by
  induction n generalizing h' with
  | zero =>
    cases hok
    exact SameZones.refl h
  | succ n ih =>
    unfold takeFourMegs at hok
    obtain ⟨_, h₁, htake, hrest⟩ := Outcome.bind_eq_ok.mp hok
    obtain ⟨p, h₂, hone, hlast⟩ := Outcome.bind_eq_ok.mp hrest
    cases hlast
    exact (ih htake).trans (sameZones_kallocNosleep hone)

end Globals

section Zone
variable {numPages off m m' size : ℕ} {z z₀ : BuddyMemDesc}

theorem bootAlloc_region (h : m + 4096 + size < 2 ^ 32) :
    m ≤ (bootAlloc size true m).1 ∧ (bootAlloc size true m).1 ≤ m + 4095 ∧
      (bootAlloc size true m).1 % 4096 = 0 ∧
      (bootAlloc size true m).2 = (bootAlloc size true m).1 + size := by
  simp only [bootAlloc, true_and]
  unfold u32
  split
  · omega
  · omega

theorem initFreeLists_addr (n : ℕ) (z : BuddyMemDesc) :
    (initFreeLists n z).allBuddiesAddr = z.allBuddiesAddr := by
  induction n with
  | zero => rfl
  | succ n ih => exact ih

theorem initHeaders_addr (n : ℕ) (z : BuddyMemDesc) :
    (initHeaders n z).allBuddiesAddr = z.allBuddiesAddr := by
  induction n with
  | zero => rfl
  | succ n ih => exact ih

theorem initTopBlocks_addr (n : ℕ) (z : BuddyMemDesc) :
    (initTopBlocks n z).allBuddiesAddr = z.allBuddiesAddr := by
  induction n with
  | zero => rfl
  | succ n ih => exact ih

theorem initBuddyNew_array (h : initBuddyNew numPages off m z₀ = .ok () (m', z)) :
    (z.allBuddiesAddr, m') =
      bootAlloc (u32 (numPages / 2 ^ maxOrder * 2 ^ maxOrder * sizeofBuddyBlockNew)) true m := by
  rw [initBuddyNew] at h
  simp only [pagesPerBlock_eq] at h
  split at h
  · cases h
  · simp only [Outcome.ok.injEq, Prod.mk.injEq, true_and] at h
    obtain ⟨rfl, rfl⟩ := h
    rw [initTopBlocks_addr, initHeaders_addr, initFreeLists_addr]

theorem initBuddyNew_large (h : initBuddyNew numPages off m z₀ = .ok () (m', z)) :
    2 ^ maxOrder ≤ numPages := by
  by_contra hsmall
  rw [initBuddyNew_small (Nat.lt_of_not_le hsmall)] at h
  cases h

end Zone

/-- What `init_memory_alloc` has done when it returns. -/
structure MemoryReady (totalPages : ℕ) (h h' : Heap) : Prop where
  zones : ∃ m₁ m₂ z₁,
    initBuddyNew (totalPages / 8) 0 h.freeMemAddr h.kernelBuddyNew = .ok () (m₁, z₁) ∧
    initBuddyNew (totalPages / 8) (totalPages / 8 + 1) m₁ h.fastBuddyNew = .ok () (m₂, h'.fastBuddyNew) ∧
    initBuddyNew (totalPages - totalPages / 8 - totalPages / 8) (totalPages / 8 + totalPages / 8 + 2) m₂
      h.normalBuddyNew = .ok () (h'.freeMemAddr, h'.normalBuddyNew) ∧
    z₁.allBuddiesAddr = h'.kernelBuddyNew.allBuddiesAddr
  took : ∃ h₀, initZones totalPages h = .ok () h₀ ∧
    takeFourMegs (fourMegsPages h'.freeMemAddr) h₀ = .ok () h' ∧ h₀.kMemCache = h.kMemCache ∧
    ∀ n ≤ totalPages / 8 / 2 ^ maxOrder, ∃ hₙ, takeFourMegs n h₀ = .ok () hₙ ∧
      TookFourMegs (totalPages / 8 / 2 ^ maxOrder) n h₀ hₙ
  enough : fourMegsPages h'.freeMemAddr ≤ totalPages / 8 / 2 ^ maxOrder

section Ready
variable {totalPages : ℕ} {h h' : Heap}

theorem initMemoryAlloc_ready (hT : totalPages < 2 ^ 20) (hok : initMemoryAlloc totalPages h = .ok () h') :
    MemoryReady totalPages h h' := by
  unfold initMemoryAlloc initZones at hok
  obtain ⟨_, h₃, hzones, htake⟩ := Outcome.bind_eq_ok.mp hok
  obtain ⟨_, h₁, hlift₁, hrest⟩ := Outcome.bind_eq_ok.mp hzones
  obtain ⟨_, h₂, hlift₂, hlift₃⟩ := Outcome.bind_eq_ok.mp hrest
  obtain ⟨⟨m₁, z₁⟩, hkernel, rfl⟩ := Outcome.lift_eq_ok.mp hlift₁
  obtain ⟨⟨m₂, z₂⟩, hfast, rfl⟩ := Outcome.lift_eq_ok.mp hlift₂
  obtain ⟨⟨m₃, z₃⟩, hnormal, rfl⟩ := Outcome.lift_eq_ok.mp hlift₃
  have hsame := sameZones_takeFourMegs htake
  obtain ⟨hz, ht, hoff⟩ := initBuddyNew_ok hkernel
  have hN : totalPages / 8 / 2 ^ maxOrder * 2 ^ maxOrder ≤ 2 ^ 17 :=
    (Nat.div_mul_le_self ..).trans (by omega)
  have hm : h'.freeMemAddr = m₃ := hsame.freeMemAddr
  set h₀ : Heap := { h with
    freeMemAddr := m₃, kernelBuddyNew := z₁, fastBuddyNew := z₂, normalBuddyNew := z₃ }
  have hspec := @takeFourMegs_spec _ h₀ hz ht hN hoff
  have hle : fourMegsPages m₃ ≤ totalPages / 8 / 2 ^ maxOrder := by
    rcases hspec (fourMegsPages m₃) with ⟨hle, -⟩ | ⟨-, h'', hpanic⟩
    · exact hle
    · cases htake.symm.trans hpanic
  refine ⟨⟨m₁, m₂, z₁, hkernel, ?_, ?_, hsame.array.symm⟩, ⟨h₀, hzones, ?_, rfl, fun n hn => ?_⟩, ?_⟩
  · rw [hsame.fast]
    exact hfast
  · rw [hm, hsame.normal]
    exact hnormal
  · rw [hm]
    exact htake
  · rcases hspec n with ⟨-, hₙ, hokₙ, htookₙ⟩ | ⟨hlt, -⟩
    · exact ⟨hₙ, hokₙ, htookₙ⟩
    · exact absurd hn (Nat.not_le_of_lt hlt)
  · rw [hm]
    exact hle

/-- The whole loop. -/
theorem MemoryReady.tookFourMegs (hr : MemoryReady totalPages h h') : ∃ h₀,
    h₀.kMemCache = h.kMemCache ∧
      TookFourMegs (totalPages / 8 / 2 ^ maxOrder) (fourMegsPages h'.freeMemAddr) h₀ h' := by
  obtain ⟨h₀, -, htake, hkc, hall⟩ := hr.took
  obtain ⟨h'', hok, htook⟩ := hall _ hr.enough
  obtain ⟨-, rfl⟩ := Outcome.ok.inj (htake.symm.trans hok)
  exact ⟨h₀, hkc, htook⟩

end Ready

def BuddyMemDesc.pages (z : BuddyMemDesc) : Set ℕ := Set.Ico z.pfnOffset (z.pfnOffset + z.totPages)

structure ZonesFit (totalPages : ℕ) (h : Heap) : Prop where
  kernel_fast : Disjoint h.kernelBuddyNew.pages h.fastBuddyNew.pages
  kernel_normal : Disjoint h.kernelBuddyNew.pages h.normalBuddyNew.pages
  fast_normal : Disjoint h.fastBuddyNew.pages h.normalBuddyNew.pages
  kernel : h.kernelBuddyNew.pages ⊆ Set.Ico 0 totalPages
  fast : h.fastBuddyNew.pages ⊆ Set.Ico 0 totalPages
  normal : h.normalBuddyNew.pages ⊆ Set.Ico 0 totalPages

section Fit
variable {totalPages : ℕ} {h h' : Heap}

theorem MemoryReady.ranges (hr : MemoryReady totalPages h h') :
    h'.kernelBuddyNew.pages = Set.Ico 0 (totalPages / 8 / 1024 * 1024) ∧
      h'.fastBuddyNew.pages = Set.Ico (totalPages / 8 + 1)
        (totalPages / 8 + 1 + totalPages / 8 / 1024 * 1024) ∧
      h'.normalBuddyNew.pages = Set.Ico (totalPages / 8 + totalPages / 8 + 2)
        (totalPages / 8 + totalPages / 8 + 2 +
          (totalPages - totalPages / 8 - totalPages / 8) / 1024 * 1024) := by
  obtain ⟨h₀, -, htook⟩ := hr.tookFourMegs
  obtain ⟨m₁, m₂, z₁, hkernel, hfast, hnormal, -⟩ := hr.zones
  obtain ⟨-, ht₂, ho₂⟩ := initBuddyNew_ok hfast
  obtain ⟨-, ht₃, ho₃⟩ := initBuddyNew_ok hnormal
  unfold BuddyMemDesc.pages
  rw [htook.totPages, htook.pfnOffset, ht₂, ho₂, ht₃, ho₃, Nat.zero_add]
  exact ⟨rfl, rfl, rfl⟩

theorem ico_disjoint_of_le {a b c d : ℕ} (hle : b ≤ c) : Disjoint (Set.Ico a b) (Set.Ico c d) := by
  rw [Set.disjoint_left]
  rintro x ⟨-, hb⟩ ⟨hc, -⟩
  omega

/-- The normal zone starts two guard pages late: it fits when rounding it down to whole blocks gave up at
least as much. -/
theorem MemoryReady.zonesFit_iff (hr : MemoryReady totalPages h h') :
    ZonesFit totalPages h' ↔ 2 ≤ (totalPages - totalPages / 8 - totalPages / 8) % 1024 := by
  obtain ⟨hk, hf, hn⟩ := hr.ranges
  obtain ⟨m₁, m₂, z₁, -, -, hnormal, -⟩ := hr.zones
  have hlarge : 1024 ≤ totalPages - totalPages / 8 - totalPages / 8 := initBuddyNew_large hnormal
  constructor
  · intro hfit
    have hsub := hfit.normal
    rw [hn, Set.Ico_subset_Ico_iff (by omega)] at hsub
    omega
  · intro hres
    refine ⟨?_, ?_, ?_, ?_, ?_, ?_⟩
    · rw [hk, hf]
      exact ico_disjoint_of_le (by omega)
    · rw [hk, hn]
      exact ico_disjoint_of_le (by omega)
    · rw [hf, hn]
      exact ico_disjoint_of_le (by omega)
    · rw [hk]
      exact Set.Ico_subset_Ico le_rfl (by omega)
    · rw [hf]
      exact Set.Ico_subset_Ico (Nat.zero_le _) (by omega)
    · rw [hn]
      exact Set.Ico_subset_Ico (Nat.zero_le _) (by omega)

/-- The zones fit into memory exactly when the pages left for the normal zone are not a multiple of 1024,
nor one more. -/
theorem zones_fit_iff (hT : totalPages < 2 ^ 20) (hok : initMemoryAlloc totalPages h = .ok () h') :
    ZonesFit totalPages h' ↔ 2 ≤ (totalPages - totalPages / 8 - totalPages / 8) % 1024 :=
  (initMemoryAlloc_ready hT hok).zonesFit_iff

end Fit

/-- Memory sizes from 416 MiB on let `bootHeap` start. -/
theorem bootHeap_ready {totalPages : ℕ} (hlow : 13 * 8 * 1024 ≤ totalPages) (hT : totalPages < 2 ^ 20) :
    ∃ h', initMemoryAlloc totalPages bootHeap = .ok () h' := by
  have hb : BootState totalPages bootHeap := ⟨hT, by decide, by decide, by decide⟩
  rcases initMemoryAlloc_spec hb with ⟨k, h', -, hok, -⟩ | ⟨-, hfew⟩
  · exact ⟨h', hok⟩
  · omega

/-- Two pages more than 448 MiB. -/
theorem zones_fit_448 : ∃ h', initMemoryAlloc 114690 bootHeap = .ok () h' ∧ ZonesFit 114690 h' := by
  obtain ⟨h', hok⟩ := @bootHeap_ready 114690 (by decide) (by decide)
  exact ⟨h', hok, (zones_fit_iff (by decide) hok).mpr (by decide)⟩

/-- With exactly 448 MiB the normal zone manages two pages that do not exist. -/
theorem zones_overrun : ∃ h', initMemoryAlloc 114688 bootHeap = .ok () h' ∧ ¬ ZonesFit 114688 h' := by
  obtain ⟨h', hok⟩ := @bootHeap_ready 114688 (by decide) (by decide)
  refine ⟨h', hok, ?_⟩
  rw [(initMemoryAlloc_ready (by decide) hok).zonesFit_iff]
  decide

end X86Osdev.Mem

import X86Osdev.Mem.HeapInvariant
import Mathlib.Algebra.BigOperators.Group.Finset.Basic
import Mathlib.Data.Finset.Union
import Mathlib.Order.Interval.Finset.Nat

/-! The heap after `init_memory_alloc`, `init_kernel_locks` and `init_slab_cache`. -/

namespace X86Osdev.Mem
open X86Osdev.Lib ByteMemory CircularList DyadicTiling

/-- What `kernel_main` starts from: `parse_multiboot_info` reads at most 4 GiB of memory, the kernel
image lies below `free_mem_addr`, and meminit.asm, which puts the stack there, maps 28 MiB. -/
structure BootState (totalPages : ℕ) (h : Heap) : Prop where
  pages : totalPages < 2 ^ 20
  image : h.kMemCache + 36 ≤ h.freeMemAddr
  kernel : kernelVirtualAddressBase ≤ h.kMemCache
  mapped : h.freeMemAddr ≤ 0xC1C00000

section Zones
variable {numPages off m m' : ℕ} {z z₀ : BuddyMemDesc}

theorem bootAlloc_bounds {size : ℕ} (h : m + 4096 + size < 2 ^ 32) :
    m ≤ (bootAlloc size true m).2 ∧ (bootAlloc size true m).2 ≤ m + 4096 + size := by
  simp only [bootAlloc, true_and]
  unfold u32
  split <;> omega

theorem initBuddyNew_addr (h : initBuddyNew numPages off m z₀ = .ok () (m', z))
    (hm : m + 4096 + numPages * 20 < 2 ^ 32) : m ≤ m' ∧ m' ≤ m + 4096 + numPages * 20 := by
  have hr : numPages / pagesPerBlock maxOrder * pagesPerBlock maxOrder ≤ numPages :=
    Nat.div_mul_le_self _ _
  set r := numPages / pagesPerBlock maxOrder * pagesPerBlock maxOrder with hrdef
  have hsize : u32 (r * sizeofBuddyBlockNew) = r * 20 := u32_of_lt (by
    unfold sizeofBuddyBlockNew
    omega)
  rw [initBuddyNew] at h
  simp only [← hrdef, hsize] at h
  split at h
  · cases h
  · simp only [Outcome.ok.injEq, Prod.mk.injEq, true_and] at h
    have := @bootAlloc_bounds m (r * 20) (by omega)
    omega

theorem initBuddyNew_small (hnum : numPages < 2 ^ maxOrder) :
    initBuddyNew numPages off m z₀ = .panic "Memory chunk is < 4MiB\n" (m, z₀) := by
  rw [initBuddyNew, pagesPerBlock_eq]
  exact if_pos (by rw [Nat.div_eq_of_lt hnum, Nat.zero_mul])

theorem initBuddyNew_returns (hnum : 2 ^ maxOrder ≤ numPages) :
    ∃ m' z, initBuddyNew numPages off m z₀ = .ok () (m', z) := by
  have hpos : 0 < numPages / 2 ^ maxOrder := Nat.div_pos hnum (by positivity)
  have hne : numPages / pagesPerBlock maxOrder * pagesPerBlock maxOrder ≠ 0 := by
    rw [pagesPerBlock_eq]
    exact Nat.ne_of_gt (Nat.mul_pos hpos (by positivity))
  rw [initBuddyNew]
  simp only [if_neg hne]
  exact ⟨_, _, rfl⟩

theorem pa_eq {a : ℕ} (ha : 3221225472 ≤ a) (ha' : a < 2 ^ 32) : pa a = a - 3221225472 := by
  unfold pa u32 kernelVirtualAddressBase
  omega

end Zones

def pagesUsed (z : BuddyMemDesc) (handed : List ℕ) : ℕ := (handed.map fun p => 2 ^ orderOf z p).sum

structure Grew (n k : ℕ) (h h' : Heap) (handed handed' : List ℕ) : Prop where
  run : RunInv n 0 h'.kernelBuddyNew handed'
  singles : ∃ ps : List ℕ, ps.length = k ∧ handed' = ps ++ handed ∧
    ∀ p ∈ ps, orderOf h'.kernelBuddyNew p = 0
  old : ∀ q ∈ handed, orderOf h'.kernelBuddyNew q = orderOf h.kernelBuddyNew q
  mem : h'.mem = h.mem
  kMemCache : h'.kMemCache = h.kMemCache
  fast : h'.fastBuddyNew = h.fastBuddyNew
  locks : ∀ l, h.locks l = false → h'.locks l = false

section Grow
variable {n k k' : ℕ} {h h' h'' : Heap} {handed handed' handed'' : List ℕ}

theorem Grew.refl (hi : RunInv n 0 h.kernelBuddyNew handed) : Grew n 0 h h handed handed :=
  ⟨hi, ⟨[], rfl, rfl, fun _ hp => absurd hp (List.not_mem_nil)⟩, fun _ _ => rfl, rfl, rfl, rfl,
    fun _ hl => hl⟩

theorem Grew.trans (hg : Grew n k h h' handed handed') (hg' : Grew n k' h' h'' handed' handed'') :
    Grew n (k + k') h h'' handed handed'' := by
  obtain ⟨ps, hlen, rfl, hps⟩ := hg.singles
  obtain ⟨qs, hlen', rfl, hqs⟩ := hg'.singles
  refine ⟨hg'.run, ⟨qs ++ ps, by rw [List.length_append]; omega, by rw [List.append_assoc], ?_⟩,
    fun q hq => ?_, hg'.mem.trans hg.mem, hg'.kMemCache.trans hg.kMemCache,
    hg'.fast.trans hg.fast, fun l hl => hg'.locks l (hg.locks l hl)⟩
  · intro p hp
    rcases List.mem_append.mp hp with hp | hp
    · exact hqs p hp
    · exact (hg'.old p (List.mem_append_left _ hp)).trans (hps p hp)
  · exact (hg'.old q (List.mem_append_right _ hq)).trans (hg.old q hq)

theorem Grew.used (hg : Grew n k h h' handed handed') :
    pagesUsed h'.kernelBuddyNew handed' = pagesUsed h.kernelBuddyNew handed + k := by
  obtain ⟨ps, hlen, rfl, hps⟩ := hg.singles
  have h₁ : (ps.map fun p => 2 ^ orderOf h'.kernelBuddyNew p) = List.replicate ps.length 1 := by
    rw [List.eq_replicate_iff]
    refine ⟨List.length_map _, fun b hb => ?_⟩
    obtain ⟨p, hp, rfl⟩ := List.mem_map.mp hb
    rw [hps p hp, pow_zero]
  have h₂ : (handed.map fun p => 2 ^ orderOf h'.kernelBuddyNew p) =
      handed.map fun p => 2 ^ orderOf h.kernelBuddyNew p :=
    List.map_congr_left fun q hq => by rw [hg.old q hq]
  rw [pagesUsed, List.map_append, List.sum_append, h₁, h₂, List.sum_replicate, hlen, pagesUsed]
  simp [Nat.add_comm]

theorem card_le_pagesUsed {z : BuddyMemDesc} {A : Finset ℕ}
    (hA : ∀ x ∈ A, ∃ p ∈ handed, x ∈ span p (orderOf z p)) : A.card ≤ pagesUsed z handed := by
  have hcover : A ⊆ handed.toFinset.biUnion fun p => Finset.Ico p (p + 2 ^ orderOf z p) := by
    intro x hx
    obtain ⟨p, hp, hxp⟩ := hA x hx
    rw [mem_span] at hxp
    exact Finset.mem_biUnion.mpr ⟨p, List.mem_toFinset.mpr hp, Finset.mem_Ico.mpr hxp⟩
  have hsum : ∀ l : List ℕ, (l.toFinset.biUnion fun p => Finset.Ico p (p + 2 ^ orderOf z p)).card ≤
      pagesUsed z l := by
    intro l
    induction l with
    | nil => exact Nat.zero_le _
    | cons p l ih =>
      rw [List.toFinset_cons, Finset.biUnion_insert]
      refine (Finset.card_union_le _ _).trans ?_
      rw [Nat.card_Ico, Nat.add_sub_cancel_left]
      exact Nat.add_le_add_left ih _
  exact (Finset.card_le_card hcover).trans (hsum handed)

/-- Blocks handed out do not overlap, so together they are no larger than the zone. -/
theorem RunInv.pagesUsed_le {off : ℕ} {z : BuddyMemDesc} (hi : RunInv n off z handed) : pagesUsed z handed ≤ n := by
  obtain ⟨⟨fl, hz⟩, hnd, ht, -⟩ := hi
  have hdisj : Set.PairwiseDisjoint (↑handed.toFinset : Set ℕ)
      fun p => Finset.Ico p (p + 2 ^ orderOf z p) := by
    intro p hp q hq hpq
    have h := hz.tiling.disjoint p (.inr hp) q (.inr hq) hpq
    rw [span, span, ← Finset.coe_Ico, ← Finset.coe_Ico, Finset.disjoint_coe] at h
    exact h
  have hsub : (handed.toFinset.biUnion fun p => Finset.Ico p (p + 2 ^ orderOf z p)) ⊆ Finset.range n := by
    intro x hx
    obtain ⟨p, hp, hxp⟩ := Finset.mem_biUnion.mp hx
    have hend := hz.tiling.below p (.inr hp)
    rw [Finset.mem_Ico] at hxp
    rw [Finset.mem_range]
    omega
  have hcard := Finset.card_le_card hsub
  rw [Finset.card_biUnion hdisj, Finset.card_range] at hcard
  simp only [Nat.card_Ico, Nat.add_sub_cancel_left] at hcard
  rw [List.sum_toFinset _ hnd] at hcard
  exact hcard

theorem pagesUsed_full {z : BuddyMemDesc} {fl : ℕ → List ℕ}
    (hz : ZoneInv z fl handed.toFinset) (hempty : ∀ o ≤ maxOrder, fl o = []) :
    z.totPages ≤ pagesUsed z handed := by
  have hcard := @card_le_pagesUsed handed z (Finset.range z.totPages) ?_
  · rwa [Finset.card_range] at hcard
  · intro x hx
    obtain ⟨p, hp, hxp⟩ := hz.tiling.cover x (Finset.mem_range.mp hx)
    rcases hp with hp | hp
    · have hle := hz.order_le p hp.1
      have hmem := (hz.listed _ hle p).mpr ⟨hp.1, hp.2, rfl⟩
      rw [hempty _ hle] at hmem
      exact absurd hmem (List.not_mem_nil)
    · exact ⟨p, List.mem_toFinset.mp hp, hxp⟩

theorem kallocNosleep_single (hi : RunInv n 0 h.kernelBuddyNew handed) (hn : n ≤ 2 ^ 17) :
    (∃ p h', kallocNosleep 0 h = .ok (pageAddr p) h' ∧ Grew n 1 h h' handed (p :: handed)) ∨
      kallocNosleep 0 h = .panic outOfMemory h ∧ n ≤ pagesUsed h.kernelBuddyNew handed := by
  rcases kallocNosleep_spec hi hn (Nat.zero_le maxOrder) with
    ⟨p, h', hok, hi', hpo, hord, hs⟩ | hpanic
  · refine .inl ⟨p, h', hok, hi', ⟨[p], rfl, rfl, fun q hq => ?_⟩, hord, hs.mem, hs.kMemCache,
      hs.fast, fun l hl => hs.locks ▸ hl⟩
    rw [List.mem_singleton.mp hq, hpo]
  · refine .inr ⟨hpanic, ?_⟩
    obtain ⟨⟨fl, hz⟩, -, ht, -⟩ := hi
    rcases getBuddyNew_spec hz (Nat.zero_le maxOrder) with ⟨p, z', fl', hget, -⟩ | ⟨-, -, hempty⟩
    · rw [kallocNosleep, hget] at hpanic
      cases hpanic
    · exact ht ▸ pagesUsed_full hz fun o ho => hempty o (Nat.zero_le _) ho

theorem Grew.free (hg : Grew n k (unlock l h) h' handed handed') :
    Grew n k h h' handed handed' ∧ h'.locks l = false := by
  have hl : (unlock l h).locks l = false := by simp [unlock]
  refine ⟨⟨hg.run, hg.singles, hg.old, hg.mem, hg.kMemCache, hg.fast,
    fun l' hl' => hg.locks l' ?_⟩,
    hg.locks l hl⟩
  by_cases hll : l' = l
  · exact hll ▸ hl
  · simpa [unlock, hll] using hl'

/-- `f` hands out `k` single pages and leaves the locks `F` free, or finds the zone too small. -/
def Takes {α : Type} (n k : ℕ) (F : Set LockName) (f : Heap → Outcome Heap α) : Prop :=
  ∀ h handed, RunInv n 0 h.kernelBuddyNew handed →
    (∃ a handed' h', f h = .ok a h' ∧ Grew n k h h' handed handed' ∧ ∀ l ∈ F, h'.locks l = false) ∨
      (∃ h', f h = .panic outOfMemory h') ∧ n < pagesUsed h.kernelBuddyNew handed + k

section Takes
variable {α β : Type} {F F' : Set LockName} {f : Heap → Outcome Heap α}

theorem Takes.pure (a : α) : Takes n 0 ∅ (fun h => Outcome.ok a h) :=
  fun h handed hi => .inl ⟨a, handed, h, rfl, .refl hi, fun _ hl => absurd hl (Set.notMem_empty _)⟩

theorem Takes.bind {g : α → Heap → Outcome Heap β} (hf : Takes n k F f)
    (hg : ∀ a, Takes n k' F' (g a)) : Takes n (k + k') (F ∪ F') fun h => (f h).bind g := by
  intro h handed hi
  rcases hf h handed hi with ⟨a, hs₁, h₁, hok, hg₁, hl₁⟩ | ⟨⟨h', hpanic⟩, hfull⟩
  · have hu := hg₁.used
    rcases hg a h₁ hs₁ hg₁.run with ⟨b, hs₂, h₂, hok', hg₂, hl₂⟩ | ⟨⟨h', hpanic⟩, hfull⟩
    · refine .inl ⟨b, hs₂, h₂, by simp only [hok, Outcome.bind_ok, hok'], hg₁.trans hg₂,
        fun l hl => ?_⟩
      rcases hl with hl | hl
      · exact hg₂.locks l (hl₁ l hl)
      · exact hl₂ l hl
    · exact .inr ⟨⟨h', by simp only [hok, Outcome.bind_ok, hpanic]⟩, by omega⟩
  · exact .inr ⟨⟨h', by simp only [hpanic, Outcome.bind_panic]⟩, by omega⟩

theorem Takes.free (hf : Takes n k F f) (l : LockName) :
    Takes n k (insert l F) fun h => f (unlock l h) := by
  intro h handed hi
  rcases hf (unlock l h) handed hi with ⟨a, hs, h', hok, hg, hl⟩ | hpanic
  · obtain ⟨hg', hfree⟩ := hg.free
    refine .inl ⟨a, hs, h', hok, hg', fun l' hl' => ?_⟩
    rcases hl' with rfl | hl'
    · exact hfree
    · exact hl l' hl'
  · exact .inr hpanic

theorem takes_single (hn : n ≤ 2 ^ 17) : Takes n 1 ∅ (kallocNosleep 0) := by
  intro h handed hi
  rcases kallocNosleep_single hi hn with ⟨p, h', hok, hg⟩ | ⟨hpanic, hfull⟩
  · exact .inl ⟨_, _, h', hok, hg, fun _ hl => absurd hl (Set.notMem_empty _)⟩
  · exact .inr ⟨⟨h, hpanic⟩, by omega⟩

theorem takes_makeLock (hn : n ≤ 2 ^ 17) : Takes n 2 (∅ ∪ (∅ ∪ ∅)) makeLockNosleep :=
  (takes_single hn).bind fun _ => (takes_single hn).bind fun _ => .pure _

theorem initKernelLocks_spec (hn : n ≤ 2 ^ 17) :
    ∃ F, (∀ l, l ∈ F) ∧ Takes n 10 F initKernelLocks := by
  have hlock := takes_makeLock hn
  refine ⟨_, ?_, hlock.bind fun _ => (hlock.free .kmemLock).bind fun _ => hlock.bind fun _ =>
    (hlock.free .slabLock).bind fun _ => hlock.bind fun _ => .pure _⟩
  rintro (_ | _) <;> simp

theorem initCacheLocks_spec (hn : n ≤ 2 ^ 17) : ∃ F, Takes n 6 F initCacheLocks := by
  have hlock := takes_makeLock hn
  exact ⟨_, hlock.bind fun _ => hlock.bind fun _ => hlock.bind fun _ => .pure _⟩

end Takes

end Grow

def taken : ℕ → List ℕ
  | 0 => []
  | k + 1 => k * 2 ^ maxOrder :: taken k

theorem mem_taken {k r : ℕ} : r ∈ taken k ↔ ∃ i < k, r = i * 2 ^ maxOrder := by
  induction k with
  | zero => simp [taken]
  | succ k ih =>
    rw [taken, List.mem_cons, ih]
    constructor
    · rintro (rfl | ⟨i, hi, rfl⟩)
      · exact ⟨k, by omega, rfl⟩
      · exact ⟨i, by omega, rfl⟩
    · rintro ⟨i, hi, rfl⟩
      rcases Nat.lt_succ_iff_lt_or_eq.mp hi with hi | rfl
      · exact .inr ⟨i, hi, rfl⟩
      · exact .inl rfl

structure TookFourMegs (N k : ℕ) (h h' : Heap) : Prop where
  zone : ∃ fl, ZoneInv h'.kernelBuddyNew fl (taken k).toFinset ∧
    fl maxOrder = ((List.range N).map (· * 2 ^ maxOrder)).drop k
  nodup : (taken k).Nodup
  top : ∀ r ∈ taken k, orderOf h'.kernelBuddyNew r = maxOrder
  totPages : h'.kernelBuddyNew.totPages = N * 2 ^ maxOrder
  pfnOffset : h'.kernelBuddyNew.pfnOffset = 0
  same : ZonesOnly h h'

section FourMegs
variable {N k : ℕ} {h h' : Heap}

theorem takeFourMegs_spec (hz : ZoneInv h.kernelBuddyNew (topLists N) ∅)
    (ht : h.kernelBuddyNew.totPages = N * 2 ^ maxOrder) (hN : N * 2 ^ maxOrder ≤ 2 ^ 17)
    (hoff : h.kernelBuddyNew.pfnOffset = 0) (k : ℕ) :
    (k ≤ N ∧ ∃ h', takeFourMegs k h = .ok () h' ∧ TookFourMegs N k h h') ∨
      N < k ∧ ∃ h', takeFourMegs k h = .panic outOfMemory h' := by
  induction k with
  | zero =>
    refine .inl ⟨Nat.zero_le N, h, rfl, ⟨topLists N, hz, ?_⟩, List.nodup_nil,
      fun r hr => absurd hr (List.not_mem_nil), ht, hoff, .refl h⟩
    rw [topLists, if_pos rfl, List.drop_zero]
  | succ k ih =>
    rcases ih with ⟨hk, h₁, hok, ⟨fl, hz₁, hfl⟩, hnd, htop, ht₁, hoff₁, hs⟩ | ⟨hk, h₁, hpanic⟩
    · have hlen : ((List.range N).map (· * 2 ^ maxOrder)).length = N := by simp
      rcases @kallocNosleep_lists maxOrder _ _ _ hz₁ hnd (by rw [ht₁]; exact hN) hoff₁ le_rfl with
        ⟨p, fl', h', hcall, hlists, hz', hnd', hpo, hkeep, hs'⟩ | ⟨hpanic, hnone⟩
      · rw [Nat.sub_self, takeLists, hfl] at hlists
        rcases Nat.lt_or_ge k N with hlt | hge
        · rw [List.drop_eq_getElem_cons (by omega)] at hlists
          simp only [List.getElem_map, List.getElem_range, Option.some.injEq, Prod.mk.injEq]
            at hlists
          obtain ⟨rfl, rfl⟩ := hlists
          refine .inl ⟨hlt, h', ?_, ⟨_, hz', Function.update_self ..⟩, hnd', fun r hr => ?_,
            hkeep.totPages.trans ht₁, hkeep.pfnOffset.trans hoff₁, hs.trans hs'⟩
          · rw [takeFourMegs, hok, Outcome.bind_ok]
            change (kallocNosleep maxOrder h₁).bind _ = _
            rw [hcall, Outcome.bind_ok]
          · rcases List.mem_cons.mp hr with rfl | hr
            · exact hpo
            · exact (congrArg BuddyBlockNew.order
                (hkeep.header r (List.mem_toFinset.mpr hr))).trans (htop r hr)
        · rw [List.drop_eq_nil_of_le (by omega)] at hlists
          cases hlists
      · rw [Nat.sub_self, takeLists, hfl] at hnone
        rcases Nat.lt_or_ge k N with hlt | hge
        · rw [List.drop_eq_getElem_cons (by omega)] at hnone
          cases hnone
        · refine .inr ⟨by omega, h₁, ?_⟩
          rw [takeFourMegs, hok, Outcome.bind_ok]
          change (kallocNosleep maxOrder h₁).bind _ = _
          rw [hpanic, Outcome.bind_panic]
    · exact .inr ⟨by omega, h₁, by rw [takeFourMegs, hpanic, Outcome.bind_panic]⟩

theorem TookFourMegs.runInv (ht : TookFourMegs N k h h') :
    RunInv (N * 2 ^ maxOrder) 0 h'.kernelBuddyNew (taken k) := by
  obtain ⟨⟨fl, hz, -⟩, hnd, -, htot, hoff, -⟩ := ht
  exact ⟨⟨fl, hz⟩, hnd, htot, hoff⟩

theorem TookFourMegs.low (ht : TookFourMegs N k h h') :
    ∀ x < k * 2 ^ maxOrder, ∃ r ∈ taken k, x ∈ span r (orderOf h'.kernelBuddyNew r) := by
  intro x hx
  have hpos : 0 < 2 ^ maxOrder := by positivity
  have hi : x / 2 ^ maxOrder < k := (Nat.div_lt_iff_lt_mul hpos).mpr hx
  have hr : x / 2 ^ maxOrder * 2 ^ maxOrder ∈ taken k := mem_taken.mpr ⟨_, hi, rfl⟩
  refine ⟨_, hr, ?_⟩
  rw [ht.top _ hr, mem_span]
  exact ⟨Nat.div_mul_le_self .., Nat.lt_div_mul_add hpos⟩

/-- The heap after `init_memory_alloc`: `k` top-order blocks cover everything that was used. The fast
zone starts at page `off`. -/
structure Booted (N off k : ℕ) (h' : Heap) : Prop where
  took : ∃ h₀, TookFourMegs N k h₀ h'
  fast : RunInv (N * 2 ^ maxOrder) off h'.fastBuddyNew []
  small : N * 2 ^ maxOrder ≤ 2 ^ 17
  image : h'.kMemCache + 36 ≤ pageAddr (k * 2 ^ maxOrder)

theorem fourMegsPages_eq {a : ℕ} (ha : 3221225472 ≤ a) (ha' : a < 2 ^ 32) :
    fourMegsPages a = ((a - 3221225472) / 4096 + 1) / 1024 + 1 := by
  rw [fourMegsPages, pa_eq ha ha', pagesPerBlock_eq]
  rfl

theorem initZones_eq {totalPages m₁ m₂ m₃ : ℕ} {z₁ z₂ z₃ : BuddyMemDesc}
    (h₁ : initBuddyNew (totalPages / 8) 0 h.freeMemAddr h.kernelBuddyNew = .ok () (m₁, z₁))
    (h₂ : initBuddyNew (totalPages / 8) (totalPages / 8 + 1) m₁ h.fastBuddyNew = .ok () (m₂, z₂))
    (h₃ : initBuddyNew (totalPages - totalPages / 8 - totalPages / 8)
      (totalPages / 8 + totalPages / 8 + 2) m₂ h.normalBuddyNew = .ok () (m₃, z₃)) :
    initZones totalPages h = .ok () { h with
      freeMemAddr := m₃, kernelBuddyNew := z₁, fastBuddyNew := z₂, normalBuddyNew := z₃ } := by
  unfold initZones
  simp only [kernelRatio, fastMemRatio, h₁, h₂, h₃, Outcome.lift_ok, Outcome.bind_ok]

theorem initMemoryAlloc_spec {totalPages : ℕ} (hb : BootState totalPages h) :
    (∃ k h', k ≤ 13 ∧ initMemoryAlloc totalPages h = .ok () h' ∧
        Booted (totalPages / 8 / 2 ^ maxOrder) (totalPages / 8 + 1) k h') ∨
      (∃ msg h', initMemoryAlloc totalPages h = .panic msg h') ∧
        totalPages < 13 * 8 * 1024 := by
  have hpages := hb.pages
  have himage := hb.image
  have hmapped := hb.mapped
  have hkernel : 3221225472 ≤ h.kMemCache := hb.kernel
  have h1024 : 2 ^ maxOrder = 1024 := rfl
  rcases Nat.lt_or_ge (totalPages / 8) 1024 with hsmall | hlarge
  · refine .inr ⟨?_, by omega⟩
    unfold initMemoryAlloc initZones
    simp only [kernelRatio, initBuddyNew_small (h1024 ▸ hsmall), Outcome.lift_panic,
      Outcome.bind_panic]
    exact ⟨_, _, rfl⟩
  · obtain ⟨m₁, z₁, hinit₁⟩ :=
      @initBuddyNew_returns _ 0 h.freeMemAddr h.kernelBuddyNew (h1024 ▸ hlarge)
    have hm₁ := initBuddyNew_addr hinit₁ (by omega)
    obtain ⟨m₂, z₂, hinit₂⟩ :=
      @initBuddyNew_returns _ (totalPages / 8 + 1) m₁ h.fastBuddyNew (h1024 ▸ hlarge)
    have hm₂ := initBuddyNew_addr hinit₂ (by omega)
    obtain ⟨m₃, z₃, hinit₃⟩ := @initBuddyNew_returns (totalPages - totalPages / 8 - totalPages / 8)
      (totalPages / 8 + totalPages / 8 + 2) m₂ h.normalBuddyNew (by omega)
    have hm₃ := initBuddyNew_addr hinit₃ (by omega)
    rw [initMemoryAlloc, initZones_eq hinit₁ hinit₂ hinit₃, Outcome.bind_ok]
    set h₀ : Heap := { h with
      freeMemAddr := m₃, kernelBuddyNew := z₁, fastBuddyNew := z₂, normalBuddyNew := z₃ }
    have hk := fourMegsPages_eq (a := m₃) (by omega) (by omega)
    obtain ⟨hz, ht, hoff⟩ := initBuddyNew_ok hinit₁
    have hN : totalPages / 8 / 2 ^ maxOrder * 2 ^ maxOrder ≤ 2 ^ 17 :=
      (Nat.div_mul_le_self ..).trans (by omega)
    rcases takeFourMegs_spec (h := h₀) hz ht hN hoff (fourMegsPages m₃) with
      ⟨hle, h', hok, htook⟩ | ⟨hlt, h', hpanic⟩
    · obtain ⟨hz₂, ht₂, hoff₂⟩ := initBuddyNew_ok hinit₂
      have hfast : h'.fastBuddyNew = z₂ := htook.same.fast
      refine .inl ⟨_, h', by omega, hok, ⟨h₀, htook⟩,
        hfast ▸ ⟨⟨_, hz₂⟩, List.nodup_nil, ht₂, hoff₂⟩, hN, ?_⟩
      have hkc : h'.kMemCache = h.kMemCache := htook.same.kMemCache
      rw [hkc, pageAddr_eq, hk, h1024]
      omega
    · refine .inr ⟨⟨_, h', hpanic⟩, ?_⟩
      rw [h1024] at hlt
      omega

end FourMegs

theorem pagesUsed_perm {z : BuddyMemDesc} {xs ys : List ℕ} (hp : xs.Perm ys) :
    pagesUsed z xs = pagesUsed z ys := (hp.map _).sum_eq

def emptyCache : Cache where
  slabs := []
  view := fun _ => .fresh 4 0 le_rfl (by decide)
  lists := fun _ => []
  loose := none

section Cache
variable {m : Memory} {kc s : ℕ} {c : Cache} {L : Layout} {h h' : Heap} {size : ℕ}

/-- The stores of `initCacheLists`. -/
theorem cacheInv_empty (hf : kc + 36 ≤ 2 ^ 32) :
    CacheInv (listInit (listInit (listInit m (cacheList kc .free)) (cacheList kc .empty))
      (cacheList kc .used)) kc emptyCache := by
  have hS : Spaced (cacheNodes kc []) := spaced_cacheNodes hf fun s hs => absurd hs List.not_mem_nil
  have hmem : ∀ l, cacheList kc l ∈ cacheNodes kc [] := fun l => .inl ⟨l, rfl⟩
  have hag := agreeOn_listInit hS (hmem .used) (agreeOn_listInit hS (hmem .empty)
    (agreeOn_listInit hS (hmem .free) (m := m) fun _ _ => ⟨rfl, rfl⟩))
  have hne : ∀ l k : CacheList, l ≠ k → cacheList kc l ≠ cacheList kc k := by
    intro l k hlk
    rw [cacheList_eq hf, cacheList_eq hf]
    cases l <;> cases k <;> simp_all [CacheList.offset]
  refine ⟨hf, fun s hs => absurd hs List.not_mem_nil, List.nodup_nil,
    fun s hs => absurd hs List.not_mem_nil, ⟨fun l => ⟨?_, by simp [listNodes, emptyCache]⟩, ?_⟩,
    fun l s => by simp [emptyCache], fun s hs => absurd hs (Option.some_ne_none s).symm⟩
  · obtain ⟨hn, hp⟩ := hag _ (hmem l)
    refine ⟨hn.trans ?_, hp.trans ?_⟩
    all_goals
      cases l <;> simp [Links.listInit, hne]
  · intro l k hlk x hx hy
    simp only [listNodes, emptyCache, List.map_nil, List.mem_singleton] at hx hy
    exact hne l k hlk (hx.symm.trans hy)

theorem CacheInv.setPinned (hc : CacheInv m kc c) (hs : s ∈ c.slabs) (hl : c.loose ≠ some s) :
    CacheInv (Slab.setPinned m s 1) kc (c.setView s { c.view s with pinned := 1 }) := by
  have hfit := (hc.placed s hs).fits
  have hset : Slab.setPinned m s 1 = store8 m (s + 4) 1 := by
    rw [Slab.setPinned, u32_of_lt (by omega)]
  -- One byte is stored, right behind `size`; it belongs to no other field and to no link.
  have ht : Touches (2 ^ 32) {s + 4} m (store8 m (s + 4) 1) :=
    touches_store (by omega) fun x hx hx' => Set.mem_singleton_iff.mpr (by omega)
  have hlink : ∀ x ∈ ({s + 4} : Set ℕ), x ∉ linkBytes (cacheNodes kc c.slabs) := by
    rintro x rfl
    exact @slabBytes_links _ _ _ _ hc.fits hc.placed hs (c.view s).size (.inl rfl)
  rw [hset]
  refine ⟨hc.fits, hc.placed, hc.nodup, ?_,
    rings_touches hc.spaced hc.rings hc.nodesIn ht hlink, ?_, hc.loose_setView hl⟩
  · intro t hts
    by_cases hst : t = s
    · subst hst
      simp only [Cache.setView, Function.update_self]
      obtain ⟨⟨hsz, -, hfp, htot, hown⟩, ha, hfree, hlt⟩ := hc.slab t hts
      have h32 : ∀ w, (w + 4 ≤ t + 4 ∨ t + 5 ≤ w) → w + 4 ≤ 2 ^ 32 →
          load32 (store8 m (t + 4) 1) w = load32 m w := fun w hw hw' =>
        load32_store8 (by omega) hw' (by omega)
      have hfield : ∀ k, 5 ≤ k → k ≤ 36 →
          load32 (store8 m (t + 4) 1) (u32 (t + k)) = load32 m (u32 (t + k)) := by
        intro k hk hk'
        rw [u32_of_lt (by omega)]
        exact h32 _ (by omega) (by omega)
      refine ⟨⟨(h32 t (by omega) (by omega)).trans hsz, ?_, (hfield 12 (by omega) (by omega)).trans hfp,
        (hfield 24 (by omega) (by omega)).trans htot, fun i hi => ?_⟩,
        (hfield 28 (by omega) (by omega)).trans ha, ?_, hlt⟩
      · rw [Slab.pinned, u32_of_lt (by omega)]
        exact load8_store8_self (by omega) (by decide)
      · have := bufAt_ge t (c.view t).size i
        have := @bufAt_end t _ _ hi
        exact (h32 _ (by omega) (by omega)).trans (hown i hi)
      · have hff : Slab.firstFree (store8 m (t + 4) 1) t = Slab.firstFree m t :=
          hfield 32 (by omega) (by omega)
        rw [hff]
        refine freeChain_congr hfit hlt (fun i hi => ?_) hfree
        have := bufAt_ge t (c.view t).size i
        have := @bufAt_end t _ _ (hlt i hi)
        exact h32 _ (by omega) (by omega)
    · simp only [Cache.setView, Function.update_of_ne hst]
      refine (hc.slab t hts).touches (hc.placed t hts).fits ht ?_
      rintro x rfl hxt
      have := mem_slabBytes_bounds hxt
      have := (hc.placed s hs).apart (hc.placed t hts) (Ne.symm hst)
      omega
  · intro l t
    rw [Cache.setView, hc.listed l t]
    by_cases hts : t = s
    · subst hts
      simp only [Function.update_self]
      rfl
    · simp [Function.update_of_ne hts]

/-- A cache that holds exactly the slabs `done` (size, pinned), in this order, all unused. -/
structure FreshCache (c : Cache) (done : List (ℕ × Bool)) : Prop where
  loose : c.loose = none
  free : c.lists .free = c.slabs.reverse
  used : c.lists .used = []
  empty : c.lists .empty = []
  live : ∀ s ∈ c.slabs, (c.view s).live = []
  specs : c.slabs.reverse.map (fun s => ((c.view s).size, (c.view s).pinned)) =
    done.map fun d => (d.1, if d.2 = true then 1 else 0)

theorem freshCache_empty : FreshCache emptyCache [] :=
  ⟨rfl, rfl, rfl, rfl, fun _ hs => absurd hs List.not_mem_nil, rfl⟩

def addFresh (c : Cache) (s : ℕ) (v : SlabState) (pin : Bool) : Cache :=
  if pin = true then (c.add s v).setView s { (c.add s v).view s with pinned := 1 } else c.add s v

theorem freshCache_add {done : List (ℕ × Bool)} (hf : FreshCache c done) (hs : s ∉ c.slabs)
    (h4 : 4 ≤ size) (hz : size ≤ maxSlabSize) (pin : Bool) :
    FreshCache (addFresh c s (.fresh size 0 h4 hz) pin) (done ++ [(size, pin)]) := by
  have hslabs : (addFresh c s (.fresh size 0 h4 hz) pin).slabs = s :: c.slabs := by
    unfold addFresh
    split <;> rfl
  have hlists : (addFresh c s (.fresh size 0 h4 hz) pin).lists =
      Function.update c.lists .free (c.lists .free ++ [s]) := by
    unfold addFresh
    split <;> rfl
  have hother : ∀ t ∈ c.slabs, (addFresh c s (.fresh size 0 h4 hz) pin).view t = c.view t := by
    intro t ht
    have hts : t ≠ s := fun e => hs (e ▸ ht)
    unfold addFresh
    split <;> simp [Cache.add, Cache.setView, hts]
  have hself : ((addFresh c s (.fresh size 0 h4 hz) pin).view s).live = [] ∧
      ((addFresh c s (.fresh size 0 h4 hz) pin).view s).size = size ∧
      ((addFresh c s (.fresh size 0 h4 hz) pin).view s).pinned = if pin = true then 1 else 0 := by
    unfold addFresh
    split <;> simp [Cache.add, Cache.setView, SlabState.fresh]
  refine ⟨?_, ?_, ?_, ?_, ?_, ?_⟩
  · rw [← hf.loose]
    unfold addFresh
    split <;> rfl
  · rw [hlists, hslabs, Function.update_self, hf.free, List.reverse_cons]
  · rw [hlists, Function.update_of_ne (by decide), hf.used]
  · rw [hlists, Function.update_of_ne (by decide), hf.empty]
  · intro t ht
    rw [hslabs] at ht
    rcases List.mem_cons.mp ht with rfl | ht
    · exact hself.1
    · rw [hother t ht]
      exact hf.live t ht
  · rw [hslabs, List.reverse_cons, List.map_append, List.map_append, ← hf.specs]
    congr 1
    · exact List.map_congr_left fun t ht => by rw [hother t (List.mem_reverse.mp ht)]
    · simp [hself]

theorem HeapInv.createSlab_boot (hh : HeapInv L h c []) (h4 : 4 ≤ size) (hz : size ≤ maxSlabSize) :
    (∃ s h', Mem.createSlab size true h = .ok s h' ∧ s ∉ c.slabs ∧
        HeapInv L h' (c.add s (.fresh size 0 h4 hz)) [] ∧
        pagesUsed h'.kernelBuddyNew (handedPages L (c.add s (.fresh size 0 h4 hz)) []) =
          pagesUsed h.kernelBuddyNew (handedPages L c []) + 1) ∨
      (∃ h', Mem.createSlab size true h = .panic outOfMemory h') ∧
        L.numPages ≤ pagesUsed h.kernelBuddyNew (handedPages L c []) := by
  rcases kallocNosleep_single hh.zone hh.small with ⟨p, h', hok, hg⟩ | ⟨hpanic, hfull⟩
  · rcases kallocNosleep_spec hh.zone hh.small (Nat.zero_le maxOrder) with
      ⟨q, h'', hok', hi, hpo, hord, hs⟩ | hpanic
    · obtain ⟨hqp, rfl⟩ : pageAddr q = pageAddr p ∧ h'' = h' := by
        rw [hok] at hok'
        simp only [Outcome.ok.injEq] at hok'
        exact ⟨hok'.1.symm, hok'.2.symm⟩
      have hqp : q = p := by rw [← pageOf_pageAddr q, hqp, pageOf_pageAddr]
      subst hqp
      obtain ⟨hnew, hinv, -⟩ := hh.addSlab hi hpo hord hs h4 hz
      refine .inl ⟨pageAddr q, _, ?_, hnew, hinv, ?_⟩
      · rw [Mem.createSlab, if_pos rfl, hok, Outcome.bind_ok]
        exact createSlab_rest hz (by rw [hs.locks, hh.unlocked])
      · have hperm := handedPages_add L c [] (pageAddr q) (.fresh size 0 h4 hz)
        rw [pageOf_pageAddr] at hperm
        rw [← hg.used]
        exact (pagesUsed_perm hperm).symm
    · rw [hok] at hpanic
      cases hpanic
  · exact .inr ⟨⟨h, by rw [Mem.createSlab, if_pos rfl, hpanic, Outcome.bind_panic]⟩, hfull⟩

theorem createSlabs_spec (specs : List (ℕ × Bool)) {done : List (ℕ × Bool)}
    (hh : HeapInv L h c []) (hf : FreshCache c done)
    (hsz : ∀ d ∈ specs, 4 ≤ d.1 ∧ d.1 ≤ maxSlabSize) :
    (∃ c' h', createSlabs specs c.slabs h = .ok c'.slabs h' ∧ HeapInv L h' c' [] ∧
        FreshCache c' (done ++ specs) ∧
        pagesUsed h'.kernelBuddyNew (handedPages L c' []) =
          pagesUsed h.kernelBuddyNew (handedPages L c []) + specs.length) ∨
      (∃ h', createSlabs specs c.slabs h = .panic outOfMemory h') ∧
        L.numPages < pagesUsed h.kernelBuddyNew (handedPages L c []) + specs.length := by
  induction specs generalizing c h done with
  | nil => exact .inl ⟨c, h, rfl, hh, by rwa [List.append_nil], rfl⟩
  | cons d specs ih =>
    obtain ⟨size, pin⟩ := d
    obtain ⟨h4, hz⟩ := hsz (size, pin) (List.mem_cons_self ..)
    -- Each slab takes a page, and pinning it takes none.
    rcases hh.createSlab_boot h4 hz with ⟨s, h₁, hok, hnew, hh₁, hused⟩ | ⟨⟨h', hpanic⟩, hfull⟩
    · have hf' := freshCache_add hf hnew h4 hz pin
      set h₂ : Heap := if pin = true then { h₁ with mem := Slab.setPinned h₁.mem s 1 } else h₁
        with hh₂
      have hstep : createSlabs ((size, pin) :: specs) c.slabs h =
          createSlabs specs (addFresh c s (.fresh size 0 h4 hz) pin).slabs h₂ := by
        rw [createSlabs, hok, Outcome.bind_ok]
        cases pin <;> rfl
      have hinv : HeapInv L h₂ (addFresh c s (.fresh size 0 h4 hz) pin) [] := by
        cases pin with
        | false => exact hh₁
        | true =>
          refine hh₁.setMem (hh₁.cache.setPinned (List.mem_cons_self ..) fun e => ?_) rfl
          exact hnew (hh.cache.loose s e).1
      have hused₂ : pagesUsed h₂.kernelBuddyNew
          (handedPages L (addFresh c s (.fresh size 0 h4 hz) pin) []) =
            pagesUsed h.kernelBuddyNew (handedPages L c []) + 1 := by
        rw [← hused]
        cases pin <;> rfl
      rw [hstep]
      rcases ih hinv hf' (fun d hd => hsz d (List.mem_cons_of_mem _ hd)) with
        ⟨c', h', hok', hh', hfc, hused'⟩ | ⟨hpanic, hfull⟩
      · rw [List.append_assoc] at hfc
        refine .inl ⟨c', h', hok', hh', hfc, ?_⟩
        rw [List.length_cons]
        omega
      · refine .inr ⟨hpanic, ?_⟩
        rw [List.length_cons]
        omega
    · refine .inr ⟨⟨h', by rw [createSlabs, hpanic, Outcome.bind_panic]⟩, ?_⟩
      rw [List.length_cons]
      omega

end Cache

/-- The heap that the kernel starts with: 16 pages for locks and 11 for slabs lie above the blocks
put aside. -/
structure Started (totalPages : ℕ) (h' : Heap) (L : Layout) (c : Cache) : Prop where
  inv : HeapInv L h' c []
  fast : RunInv (totalPages / 8 / 2 ^ maxOrder * 2 ^ maxOrder) (totalPages / 8 + 1) L.fast []
  fresh : FreshCache c initSlabs
  numPages : L.numPages = totalPages / 8 / 2 ^ maxOrder * 2 ^ maxOrder
  first_le : L.first ≤ 13 * 2 ^ maxOrder
  used : pagesUsed h'.kernelBuddyNew (handedPages L c []) = L.first + 27

section Start
variable {n k : ℕ} {h h' : Heap} {handed : List ℕ}

theorem pagesUsed_taken {N k : ℕ} (ht : TookFourMegs N k h h') :
    pagesUsed h'.kernelBuddyNew (taken k) = k * 2 ^ maxOrder := by
  have hlen : ∀ k, (taken k).length = k := by
    intro k
    induction k with
    | zero => rfl
    | succ k ih => rw [taken, List.length_cons, ih]
  have hrep : ((taken k).map fun p => 2 ^ orderOf h'.kernelBuddyNew p) =
      List.replicate k (2 ^ maxOrder) := by
    rw [List.eq_replicate_iff]
    refine ⟨by rw [List.length_map, hlen], fun b hb => ?_⟩
    obtain ⟨p, hp, rfl⟩ := List.mem_map.mp hb
    rw [ht.top p hp]
  rw [pagesUsed, hrep, List.sum_replicate]
  rfl

/-- The heap after `init_kernel_locks` and `init_slab_cache`, on top of `k` blocks put aside. -/
structure SlabsMade (N off k : ℕ) (h' : Heap) (L : Layout) (c : Cache) : Prop where
  inv : HeapInv L h' c []
  fast : RunInv (N * 2 ^ maxOrder) off L.fast []
  fresh : FreshCache c initSlabs
  numPages : L.numPages = N * 2 ^ maxOrder
  first : L.first = k * 2 ^ maxOrder
  used : pagesUsed h'.kernelBuddyNew (handedPages L c []) = L.first + 27

theorem slabsMade_spec {N off : ℕ} (hb : Booted N off k h) (hk17 : k * 2 ^ maxOrder < 2 ^ 17) :
    (∃ c h' L, ((initKernelLocks h).bind fun _ h => initSlabCache h) = .ok c.slabs h' ∧
        SlabsMade N off k h' L c) ∨
      (∃ msg h', ((initKernelLocks h).bind fun _ h => initSlabCache h) = .panic msg h') ∧
        N * 2 ^ maxOrder < k * 2 ^ maxOrder + 27 := by
  obtain ⟨⟨h₀, htook⟩, hfast, hn, himg⟩ := hb
  have hi₁ := htook.runInv
  have hu₁ := pagesUsed_taken htook
  obtain ⟨F, hF, hlocks⟩ := initKernelLocks_spec hn
  rcases hlocks h _ hi₁ with ⟨_, hs₂, h₂, hok₂, hg₂, hlock₂⟩ | ⟨⟨h', hpanic⟩, hfull⟩
  · rw [hok₂, Outcome.bind_ok, initSlabCache]
    have hi₂ : RunInv (N * 2 ^ maxOrder) 0 (initCacheLists h₂).kernelBuddyNew hs₂ := hg₂.run
    obtain ⟨F', hlocks'⟩ := initCacheLocks_spec hn
    rcases hlocks' _ _ hi₂ with ⟨_, hs₃, h₃, hok₃, hg₃, -⟩ | ⟨⟨h', hpanic⟩, hfull⟩
    · rw [hok₃, Outcome.bind_ok]
      obtain ⟨ps₂, hlen₂, rfl, hps₂⟩ := hg₂.singles
      obtain ⟨ps₃, hlen₃, rfl, hps₃⟩ := hg₃.singles
      have hkc : h₃.kMemCache = h.kMemCache := hg₃.kMemCache.trans hg₂.kMemCache
      -- the blocks of the image and the pages of the locks are never given back
      let L : Layout := ⟨N * 2 ^ maxOrder, k * 2 ^ maxOrder, ps₃ ++ (ps₂ ++ taken k),
        h₃.kMemCache, h₃.fastBuddyNew⟩
      have hpages : handedPages L emptyCache [] = ps₃ ++ (ps₂ ++ taken k) :=
        List.append_nil _
      have hfit : h₃.kMemCache + 36 ≤ 2 ^ 32 := by
        have hend := pageAddr_end hk17
        rw [hkc]
        omega
      have hinv : HeapInv L h₃ emptyCache [] := by
        refine ⟨hpages ▸ hg₃.run, hn, fun s hs => absurd hs List.not_mem_nil,
          fun b hb => absurd hb List.not_mem_nil, fun l => hg₃.locks l (hlock₂ l (hF l)),
          ?_, ?_, ?_, rfl, rfl⟩
        · rw [hg₃.mem]
          have hkc₃ : h₃.kMemCache = h₂.kMemCache := hg₃.kMemCache
          have hc := cacheInv_empty (m := h₂.mem) hfit
          rw [hkc₃] at hc ⊢
          exact hc
        · intro x hx
          obtain ⟨r, hr, hxr⟩ := htook.low x hx
          refine ⟨r, List.mem_append_right _ (List.mem_append_right _ hr), ?_⟩
          rw [hg₃.old r (List.mem_append_right _ hr)]
          exact (hg₂.old r hr).symm ▸ hxr
        · rw [hkc]
          exact himg
      have hused : pagesUsed h₃.kernelBuddyNew (handedPages L emptyCache []) =
          k * 2 ^ maxOrder + 16 := by
        rw [hpages, hg₃.used]
        change pagesUsed h₂.kernelBuddyNew _ + 6 = _
        rw [hg₂.used, hu₁]
      rcases createSlabs_spec initSlabs hinv freshCache_empty (by decide) with
        ⟨c, h', hok, hh', hfc, hused'⟩ | ⟨⟨h', hpanic⟩, hfull⟩
      · have hf₃ : RunInv (N * 2 ^ maxOrder) off L.fast [] := by
          change RunInv _ _ h₃.fastBuddyNew _
          rw [hg₃.fast.trans hg₂.fast]
          exact hfast
        refine .inl ⟨c, h', L, hok, hh', hf₃, hfc, rfl, rfl, ?_⟩
        have hlen : initSlabs.length = 11 := rfl
        rw [hused', hused, hlen, Nat.add_assoc]
      · refine .inr ⟨⟨_, h', hpanic⟩, ?_⟩
        have hlen : initSlabs.length = 11 := rfl
        rw [hused, hlen] at hfull
        change N * 2 ^ maxOrder < _ at hfull
        omega
    · refine .inr ⟨⟨_, h', by rw [hpanic, Outcome.bind_panic]⟩, ?_⟩
      change N * 2 ^ maxOrder < pagesUsed h₂.kernelBuddyNew hs₂ + 6 at hfull
      rw [hg₂.used, hu₁] at hfull
      omega
  · refine .inr ⟨⟨_, h', by rw [hpanic, Outcome.bind_panic]⟩, ?_⟩
    rw [hu₁] at hfull
    omega

/-- The start of the kernel sets up the heap; with 448 MiB of memory it always succeeds. -/
theorem kernelInit_spec {totalPages : ℕ} (hb : BootState totalPages h) :
    (∃ c h' L, kernelInit totalPages h = .ok c.slabs h' ∧ Started totalPages h' L c) ∨
      (∃ msg h', kernelInit totalPages h = .panic msg h') ∧ totalPages < 14 * 8 * 1024 := by
  have h1024 : 2 ^ maxOrder = 1024 := rfl
  unfold kernelInit
  rcases initMemoryAlloc_spec hb with ⟨k, h₁, hk, hok₁, hbooted⟩ | ⟨⟨msg, h₁, hpanic⟩, hfew⟩
  · have hk17 : k * 2 ^ maxOrder < 2 ^ 17 := by
      rw [h1024]
      omega
    rw [hok₁, Outcome.bind_ok]
    rcases slabsMade_spec hbooted hk17 with ⟨c, h', L, hok, hs⟩ | ⟨hpanic, hfull⟩
    · have hfirst : L.first ≤ 13 * 2 ^ maxOrder := by
        rw [hs.first]
        exact Nat.mul_le_mul_right _ hk
      exact .inl ⟨c, h', L, hok, hs.inv, hs.fast, hs.fresh, hs.numPages, hfirst, hs.used⟩
    · refine .inr ⟨hpanic, ?_⟩
      rw [h1024] at hfull
      omega
  · refine .inr ⟨⟨msg, h₁, by rw [hpanic, Outcome.bind_panic]⟩, by omega⟩

end Start

end X86Osdev.Mem

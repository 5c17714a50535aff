import X86Osdev.Mem.BootMemory

/-! Physical and kernel addresses of the blocks of the kernel and the fast zone. -/

namespace X86Osdev.Mem
open X86Osdev.Lib CircularList DyadicTiling

def zoneAddr (off p : ℕ) : ℕ := kernelVirtualAddressBase + (off + p) * pageSize

section Addresses
variable {n off p : ℕ} {z : BuddyMemDesc} {handed : List ℕ}

theorem zoneAddr_eq (off p : ℕ) : zoneAddr off p = 3221225472 + (off + p) * 4096 := rfl

theorem RunInv.pfn_eq (hi : RunInv n off z handed) (hp : p < n) : (z.allBuddies p).pfn = p := by
  obtain ⟨⟨fl, hz⟩, -, ht, -⟩ := hi
  exact hz.pfn p (ht ▸ hp)

theorem RunInv.phys_eq (hi : RunInv n off z handed) (hsmall : off + n ≤ 2 ^ 18) (hp : p < n) :
    calcBuddyPhys p z = (off + p) * 4096 := by
  rw [calcBuddyPhys, hi.pfnOffset, hi.pfn_eq hp]
  unfold pageSize
  exact u32_of_lt (by omega)

theorem RunInv.va_eq (hi : RunInv n off z handed) (hsmall : off + n ≤ 2 ^ 18) (hp : p < n) :
    va (calcBuddyPhys p z) = zoneAddr off p := by
  rw [hi.phys_eq hsmall hp, va, zoneAddr_eq]
  unfold u32 kernelVirtualAddressBase
  omega

theorem pa_zoneAddr (hp : off + p < 2 ^ 18) : pa (zoneAddr off p) = (off + p) * 4096 := by
  rw [pa, zoneAddr_eq]
  unfold u32 kernelVirtualAddressBase
  omega

theorem buddyNewFromPhys_zoneAddr (hoff : z.pfnOffset = off) (hp : off + p < 2 ^ 18) :
    buddyNewFromPhys (pa (zoneAddr off p)) z = p := by
  rw [pa_zoneAddr hp, buddyNewFromPhys, hoff]
  unfold u32 pageSize
  omega

end Addresses

structure BlockAddresses (z : BuddyMemDesc) : Prop where
  exact : ∀ p < z.totPages,
    va (calcBuddyPhys p z) = kernelVirtualAddressBase + (z.pfnOffset + p) * pageSize
  fits : ∀ p o, p + 2 ^ o ≤ z.totPages → va (calcBuddyPhys p z) + 4096 * 2 ^ o ≤ 2 ^ 32
  apart : ∀ p < z.totPages, ∀ q < z.totPages, p ≠ q → va (calcBuddyPhys p z) ≠ va (calcBuddyPhys q z)
  back : ∀ p < z.totPages, buddyNewFromPhys (pa (va (calcBuddyPhys p z))) z = p

section Zones
variable {n off : ℕ} {z : BuddyMemDesc} {handed : List ℕ}

theorem RunInv.blockAddresses (hi : RunInv n off z handed) (hsmall : off + n ≤ 2 ^ 18) :
    BlockAddresses z := by
  have hva : ∀ p < z.totPages, va (calcBuddyPhys p z) = zoneAddr off p := fun p hp =>
    hi.va_eq hsmall (hi.totPages ▸ hp)
  have htot := hi.totPages
  refine ⟨fun p hp => ?_, fun p o hend => ?_, fun p hp q hq hpq => ?_, fun p hp => ?_⟩
  · rw [hva p hp, zoneAddr, hi.pfnOffset]
  · have hpos : 0 < 2 ^ o := by positivity
    rw [hva p (by omega), zoneAddr_eq]
    omega
  · rw [hva p hp, hva q hq, zoneAddr_eq, zoneAddr_eq]
    omega
  · rw [hva p hp]
    exact buddyNewFromPhys_zoneAddr hi.pfnOffset (by omega)

end Zones

section Memory
variable {totalPages : ℕ} {h h' : Heap}

theorem zones_small (hT : totalPages < 2 ^ 20) :
    totalPages / 8 + 1 + totalPages / 8 / 2 ^ maxOrder * 2 ^ maxOrder ≤ 2 ^ 18 := by
  have hle := Nat.div_mul_le_self (totalPages / 8) (2 ^ maxOrder)
  omega

/-- From the state that `init_memory_alloc` leaves, with its blocks put aside, and in every later one. -/
theorem block_addresses {kz fz : BuddyMemDesc} {khanded fhanded : List ℕ} (hT : totalPages < 2 ^ 20)
    (hok : initMemoryAlloc totalPages h = .ok () h')
    (hk : Relation.ReflTransGen ZoneStep (h'.kernelBuddyNew, taken (fourMegsPages h'.freeMemAddr))
      (kz, khanded))
    (hf : Relation.ReflTransGen ZoneStep (h'.fastBuddyNew, []) (fz, fhanded)) :
    BlockAddresses kz ∧ BlockAddresses fz ∧
      ∀ p < kz.totPages, ∀ q < fz.totPages, va (calcBuddyPhys p kz) ≠ va (calcBuddyPhys q fz) := by
  have hr := initMemoryAlloc_ready hT hok
  obtain ⟨h₀, -, htook⟩ := hr.tookFourMegs
  obtain ⟨m₁, m₂, z₁, -, hfast, -⟩ := hr.zones
  obtain ⟨hz, ht, hoff⟩ := initBuddyNew_ok hfast
  have hik := runInv_run hk htook.runInv
  have hif := runInv_run hf ⟨⟨_, hz⟩, List.nodup_nil, ht, hoff⟩
  have hsmall := zones_small hT
  have hbk := hik.blockAddresses (by omega)
  have hbf := hif.blockAddresses hsmall
  refine ⟨hbk, hbf, fun p hp q hq => ?_⟩
  -- the kernel zone ends below the first page of the fast one
  have hle := Nat.div_mul_le_self (totalPages / 8) (2 ^ maxOrder)
  have hlt : p < totalPages / 8 / 2 ^ maxOrder * 2 ^ maxOrder := hik.totPages ▸ hp
  rw [hbk.exact p hp, hbf.exact q hq, hik.pfnOffset, hif.pfnOffset]
  unfold pageSize
  omega

end Memory

theorem block_addresses_448 : ∃ h', initMemoryAlloc 114688 bootHeap = .ok () h' ∧
    BlockAddresses h'.kernelBuddyNew ∧ BlockAddresses h'.fastBuddyNew := by
  obtain ⟨h', hok⟩ := @bootHeap_ready 114688 (by decide) (by decide)
  obtain ⟨hk, hf, -⟩ := block_addresses (by decide) hok .refl .refl
  exact ⟨h', hok, hk, hf⟩

end X86Osdev.Mem

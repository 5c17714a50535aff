import X86Osdev.Mem.BlockAddresses
import Mathlib.Algebra.BigOperators.Ring.List

/-! The counters `total_used_memory`, `total_kused_memory` and `total_fused_memory`, over runs of the page
calls. -/

namespace X86Osdev.Mem
open X86Osdev.Lib CircularList DyadicTiling

/-- The pointers that the page calls have returned and not got back, each with the order requested. -/
structure LiveMemory where
  kernel : List (ℕ × ℕ)
  fast : List (ℕ × ℕ)

/-- A whole call; pointers are only given back to the allocator that returned them. -/
inductive MemCall : Heap × LiveMemory → Heap × LiveMemory → Prop
  | kallocPage {h h' : Heap} {L : LiveMemory} {order ptr : ℕ} (hok : kallocPage order h = .ok ptr h') :
    MemCall (h, L) (h', { L with kernel := (ptr, order) :: L.kernel })
  | kallocNosleep {h h' : Heap} {L : LiveMemory} {order ptr : ℕ}
      (hok : kallocNosleep order h = .ok ptr h') :
    MemCall (h, L) (h', { L with kernel := (ptr, order) :: L.kernel })
  | kfreePage {h h' : Heap} {L : LiveMemory} {b : ℕ × ℕ} (hb : b ∈ L.kernel)
      (hok : kfreePage b.1 h = .ok () h') : MemCall (h, L) (h', { L with kernel := L.kernel.erase b })
  | fmalloc {h h' : Heap} {L : LiveMemory} {size ptr : ℕ} (hok : fmalloc size h = .ok ptr h') :
    MemCall (h, L) (h', { L with fast := (ptr, calcPageOrder size) :: L.fast })
  | ffree {h h' : Heap} {L : LiveMemory} {b : ℕ × ℕ} (hb : b ∈ L.fast)
      (hok : ffree b.1 h = .ok () h') : MemCall (h, L) (h', { L with fast := L.fast.erase b })

def liveBytes (blocks : List (ℕ × ℕ)) : ℕ := (blocks.map fun b => 4096 * 2 ^ b.2).sum

theorem liveBytes_cons (b : ℕ × ℕ) (blocks : List (ℕ × ℕ)) :
    liveBytes (b :: blocks) = 4096 * 2 ^ b.2 + liveBytes blocks := by
  rw [liveBytes, List.map_cons, List.sum_cons, liveBytes]

theorem liveBytes_erase {b : ℕ × ℕ} {blocks : List (ℕ × ℕ)} (hb : b ∈ blocks) :
    liveBytes blocks = 4096 * 2 ^ b.2 + liveBytes (blocks.erase b) := by
  rw [← liveBytes_cons]
  exact ((List.perm_cons_erase hb).map _).sum_eq

/-- The page of a zone that starts at page `off`, for a kernel address. -/
def zonePage (off ptr : ℕ) : ℕ := (ptr - kernelVirtualAddressBase) / pageSize - off

theorem zonePage_zoneAddr (off p : ℕ) : zonePage off (zoneAddr off p) = p := by
  rw [zonePage, zoneAddr_eq]
  unfold kernelVirtualAddressBase pageSize
  omega

structure ZoneLive (n off : ℕ) (z : BuddyMemDesc) (blocks : List (ℕ × ℕ)) : Prop where
  run : RunInv n off z (blocks.map fun b => zonePage off b.1)
  addr : ∀ b ∈ blocks, b.1 = zoneAddr off (zonePage off b.1)
  order : ∀ b ∈ blocks, orderOf z (zonePage off b.1) = b.2
  small : off + n ≤ 2 ^ 18

section Zone
variable {n off order p : ℕ} {z z' : BuddyMemDesc} {blocks : List (ℕ × ℕ)} {b : ℕ × ℕ}

theorem ZoneLive.bytes_le (hl : ZoneLive n off z blocks) : liveBytes blocks ≤ 4096 * n := by
  have hused := hl.run.pagesUsed_le
  have heq : liveBytes blocks = 4096 * pagesUsed z (blocks.map fun b => zonePage off b.1) := by
    rw [liveBytes, pagesUsed, List.map_map, ← List.sum_map_mul_left]
    refine congrArg List.sum (List.map_congr_left fun b hb => ?_)
    rw [Function.comp_apply, hl.order b hb]
  rw [heq]
  exact Nat.mul_le_mul_left _ hused

theorem ZoneLive.order_le (hl : ZoneLive n off z blocks) (hb : b ∈ blocks) : b.2 ≤ maxOrder := by
  have hmem : zonePage off b.1 ∈ blocks.map fun b => zonePage off b.1 := List.mem_map_of_mem hb
  have hlt := hl.run.totPages
  obtain ⟨⟨fl, hz⟩, -, -, -⟩ := hl.run
  rw [← hl.order b hb]
  exact hz.order_le _ (hz.handed_lt (List.mem_toFinset.mpr hmem))

theorem blockBytes_eq (ho : order ≤ maxOrder) : blockBytes order = 4096 * 2 ^ order := by
  have hle : 2 ^ order ≤ 2 ^ 10 := Nat.pow_le_pow_right (by decide) ho
  rw [blockBytes, pagesPerBlock_eq, Nat.mul_comm]
  unfold pageSize
  exact u32_of_lt (by omega)

theorem ZoneLive.get (hl : ZoneLive n off z blocks) (hget : getBuddyNew order z = .ok p z') :
    ZoneLive n off z' ((va (calcBuddyPhys p z'), order) :: blocks) ∧
      blockBytes (z'.allBuddies p).order = 4096 * 2 ^ order := by
  have ho := getBuddyNew_order_le hget
  obtain ⟨⟨fl, hz⟩, -, -, -⟩ := hl.run
  rcases getBuddyNew_spec hz ho with ⟨q, z₁, fl', hget₁, -, hz', -, hpo, hk⟩ | ⟨hpanic, -, -⟩
  swap
  · cases hget.symm.trans hpanic
  obtain ⟨rfl, rfl⟩ := Outcome.ok.inj (hget.symm.trans hget₁)
  have hrun := runInv_step (.get ho hget) hl.run
  have hlt : p < n := hrun.totPages ▸ hz'.handed_lt (Finset.mem_insert_self p _)
  have hva := hrun.va_eq hl.small hlt
  have hsize : blockBytes (orderOf z' p) = 4096 * 2 ^ order := by rw [hpo, blockBytes_eq ho]
  refine ⟨⟨?_, fun b hb => ?_, fun b hb => ?_, hl.small⟩, hsize⟩
  · rw [List.map_cons, hva, zonePage_zoneAddr]
    exact hrun
  · rcases List.mem_cons.mp hb with rfl | hb
    · dsimp only
      rw [hva, zonePage_zoneAddr]
    · exact hl.addr b hb
  · rcases List.mem_cons.mp hb with rfl | hb
    · dsimp only
      rw [hva, zonePage_zoneAddr, hpo]
    · have hmem : zonePage off b.1 ∈ (blocks.map fun b => zonePage off b.1).toFinset :=
        List.mem_toFinset.mpr (List.mem_map_of_mem hb)
      rw [← hl.order b hb, orderOf, hk.header _ hmem, orderOf]

theorem ZoneLive.header (hl : ZoneLive n off z blocks) (hb : b ∈ blocks) :
    buddyNewFromPhys (pa b.1) z = zonePage off b.1 ∧ b.1 ≠ 0 ∧
      blockBytes (z.allBuddies (buddyNewFromPhys (pa b.1) z)).order = 4096 * 2 ^ b.2 := by
  have hmem : zonePage off b.1 ∈ blocks.map fun b => zonePage off b.1 := List.mem_map_of_mem hb
  have hsize : blockBytes (orderOf z (zonePage off b.1)) = 4096 * 2 ^ b.2 := by
    rw [hl.order b hb, blockBytes_eq (hl.order_le hb)]
  have hsmall := hl.small
  have htot := hl.run.totPages
  have hoff := hl.run.pfnOffset
  obtain ⟨⟨fl, hz⟩, -, -, -⟩ := hl.run
  have hlt := hz.handed_lt (List.mem_toFinset.mpr hmem)
  have haddr := hl.addr b hb
  have hback : buddyNewFromPhys (pa b.1) z = zonePage off b.1 := by
    have hback := @buddyNewFromPhys_zoneAddr off (zonePage off b.1) z hoff (by omega)
    rwa [← haddr] at hback
  refine ⟨hback, ?_, ?_⟩
  · rw [haddr, zoneAddr_eq]
    omega
  · rw [hback]
    exact hsize

theorem ZoneLive.free (hl : ZoneLive n off z blocks) (hb : b ∈ blocks)
    (hfree : freeBuddyNew (buddyNewFromPhys (pa b.1) z) z = .ok () z') :
    ZoneLive n off z' (blocks.erase b) := by
  rw [(hl.header hb).1] at hfree
  have hmem : zonePage off b.1 ∈ blocks.map fun b => zonePage off b.1 := List.mem_map_of_mem hb
  have hrun := runInv_step (.free hmem hfree) hl.run
  have hperm : ((blocks.map fun b => zonePage off b.1).erase (zonePage off b.1)).Perm
      ((blocks.erase b).map fun b => zonePage off b.1) := by
    have hcons := ((List.perm_cons_erase hb).map fun b => zonePage off b.1).erase (zonePage off b.1)
    rwa [List.map_cons, List.erase_cons_head] at hcons
  have hnd := hl.run.nodup
  obtain ⟨⟨fl, hz⟩, -, -, -⟩ := hl.run
  obtain ⟨z₁, fl', hfree₁, -, hk⟩ := freeBuddyNew_spec hz (List.mem_toFinset.mpr hmem)
  obtain ⟨-, rfl⟩ := Outcome.ok.inj (hfree.symm.trans hfree₁)
  refine ⟨hrun.perm hperm, fun c hc => hl.addr c (List.mem_of_mem_erase hc), fun c hc => ?_, hl.small⟩
  have hkept : zonePage off c.1 ∈ (blocks.map fun b => zonePage off b.1).toFinset.erase
      (zonePage off b.1) := by
    rw [← toFinset_erase hnd, List.mem_toFinset]
    exact hperm.mem_iff.mpr (List.mem_map_of_mem hc)
  rw [← hl.order c (List.mem_of_mem_erase hc), orderOf, hk.header _ hkept, orderOf]

end Zone

structure CountersInv (n off : ℕ) (h : Heap) (L : LiveMemory) : Prop where
  kernel : ZoneLive n 0 h.kernelBuddyNew L.kernel
  fast : ZoneLive n off h.fastBuddyNew L.fast
  kused : h.totalKusedMemory = liveBytes L.kernel
  fused : h.totalFusedMemory = liveBytes L.fast
  used : h.totalUsedMemory = liveBytes L.kernel + liveBytes L.fast

section Counters
variable {n off order ptr size : ℕ} {h h' : Heap} {L : LiveMemory} {b : ℕ × ℕ}

theorem CountersInv.bytes_le {k f : List (ℕ × ℕ)} {zk zf : BuddyMemDesc} (hk : ZoneLive n 0 zk k)
    (hf : ZoneLive n off zf f) : liveBytes k + liveBytes f ≤ 2 ^ 31 := by
  have h₁ := hk.bytes_le
  have h₂ := hf.bytes_le
  have h₃ := hf.small
  omega

theorem u32_sub {m x : ℕ} (hx : x ≤ m) (hm : m < 2 ^ 32) : u32 (m + (2 ^ 32 - x)) = m - x := by
  unfold u32
  omega

theorem CountersInv.kallocNosleep (hc : CountersInv n off h L)
    (hok : kallocNosleep order h = .ok ptr h') :
    CountersInv n off h' { L with kernel := (ptr, order) :: L.kernel } := by
  obtain ⟨p, h₁, hlift, hok⟩ := Outcome.bind_eq_ok.mp hok
  obtain ⟨z, hget, rfl⟩ := Outcome.lift_eq_ok.mp hlift
  obtain ⟨rfl, rfl⟩ := Outcome.ok.inj hok
  obtain ⟨hlive, hsize⟩ := hc.kernel.get hget
  have hbytes := CountersInv.bytes_le hlive hc.fast
  have hcons : liveBytes ((va (calcBuddyPhys p z), order) :: L.kernel) =
      4096 * 2 ^ order + liveBytes L.kernel := liveBytes_cons ..
  have hk := hc.kused
  have hu := hc.used
  refine ⟨hlive, hc.fast, ?_, hc.fused, ?_⟩
  · change u32 (h.totalKusedMemory + blockBytes (z.allBuddies p).order) =
      liveBytes ((va (calcBuddyPhys p z), order) :: L.kernel)
    rw [hsize, hcons, u32_of_lt (by omega)]
    omega
  · change u32 (h.totalUsedMemory + blockBytes (z.allBuddies p).order) =
      liveBytes ((va (calcBuddyPhys p z), order) :: L.kernel) + liveBytes L.fast
    rw [hsize, hcons, u32_of_lt (by omega)]
    omega

theorem CountersInv.kallocPage (hc : CountersInv n off h L) (hok : kallocPage order h = .ok ptr h') :
    CountersInv n off h' { L with kernel := (ptr, order) :: L.kernel } := by
  obtain ⟨_, h₁, hlock, hok⟩ := Outcome.bind_eq_ok.mp hok
  obtain ⟨p, h₂, halloc, hok⟩ := Outcome.bind_eq_ok.mp hok
  obtain ⟨rfl, rfl⟩ := Outcome.ok.inj hok
  have hc₁ : CountersInv n off h₁ L := by
    unfold getLock at hlock
    split at hlock
    · cases hlock
    · obtain ⟨-, rfl⟩ := Outcome.ok.inj hlock
      exact ⟨hc.kernel, hc.fast, hc.kused, hc.fused, hc.used⟩
  obtain ⟨hk, hf, hku, hfu, hu⟩ := hc₁.kallocNosleep halloc
  exact ⟨hk, hf, hku, hfu, hu⟩

theorem CountersInv.fmalloc (hc : CountersInv n off h L) (hok : fmalloc size h = .ok ptr h') :
    CountersInv n off h' { L with fast := (ptr, calcPageOrder size) :: L.fast } := by
  obtain ⟨p, h₁, hlift, hok⟩ := Outcome.bind_eq_ok.mp hok
  obtain ⟨z, hget, rfl⟩ := Outcome.lift_eq_ok.mp hlift
  obtain ⟨rfl, rfl⟩ := Outcome.ok.inj hok
  obtain ⟨hlive, hsize⟩ := hc.fast.get hget
  have hbytes := CountersInv.bytes_le hc.kernel hlive
  have hcons : liveBytes ((va (calcBuddyPhys p z), calcPageOrder size) :: L.fast) =
      4096 * 2 ^ calcPageOrder size + liveBytes L.fast := liveBytes_cons ..
  have hf := hc.fused
  have hu := hc.used
  refine ⟨hc.kernel, hlive, hc.kused, ?_, ?_⟩
  · change u32 (h.totalFusedMemory + blockBytes (z.allBuddies p).order) =
      liveBytes ((va (calcBuddyPhys p z), calcPageOrder size) :: L.fast)
    rw [hsize, hcons, u32_of_lt (by omega)]
    omega
  · change u32 (h.totalUsedMemory + blockBytes (z.allBuddies p).order) =
      liveBytes L.kernel + liveBytes ((va (calcBuddyPhys p z), calcPageOrder size) :: L.fast)
    rw [hsize, hcons, u32_of_lt (by omega)]
    omega

theorem CountersInv.kfreePage (hc : CountersInv n off h L) (hb : b ∈ L.kernel)
    (hok : kfreePage b.1 h = .ok () h') :
    CountersInv n off h' { L with kernel := L.kernel.erase b } := by
  obtain ⟨-, hne, hsize⟩ := hc.kernel.header hb
  rw [Mem.kfreePage, if_neg hne] at hok
  obtain ⟨_, h₁, hlock, hok⟩ := Outcome.bind_eq_ok.mp hok
  unfold getLock at hlock
  split at hlock
  · cases hlock
  obtain ⟨-, rfl⟩ := Outcome.ok.inj hlock
  obtain ⟨_, h₂, hlift, hok⟩ := Outcome.bind_eq_ok.mp hok
  obtain ⟨z, hfree, rfl⟩ := Outcome.lift_eq_ok.mp hlift
  obtain ⟨-, rfl⟩ := Outcome.ok.inj hok
  have hbytes := CountersInv.bytes_le hc.kernel hc.fast
  have herase := liveBytes_erase hb
  have hk := hc.kused
  have hu := hc.used
  refine ⟨hc.kernel.free hb hfree, hc.fast, ?_, hc.fused, ?_⟩
  · change u32 (h.totalKusedMemory + (2 ^ 32 - blockBytes _)) = liveBytes (L.kernel.erase b)
    rw [hsize, u32_sub (by omega) (by omega)]
    omega
  · change u32 (h.totalUsedMemory + (2 ^ 32 - blockBytes _)) =
      liveBytes (L.kernel.erase b) + liveBytes L.fast
    rw [hsize, u32_sub (by omega) (by omega)]
    omega

theorem CountersInv.ffree (hc : CountersInv n off h L) (hb : b ∈ L.fast)
    (hok : ffree b.1 h = .ok () h') :
    CountersInv n off h' { L with fast := L.fast.erase b } := by
  obtain ⟨-, hne, hsize⟩ := hc.fast.header hb
  rw [Mem.ffree, if_neg hne] at hok
  obtain ⟨_, h₂, hlift, hok⟩ := Outcome.bind_eq_ok.mp hok
  obtain ⟨z, hfree, rfl⟩ := Outcome.lift_eq_ok.mp hlift
  obtain ⟨-, rfl⟩ := Outcome.ok.inj hok
  have hbytes := CountersInv.bytes_le hc.kernel hc.fast
  have herase := liveBytes_erase hb
  have hf := hc.fused
  have hu := hc.used
  refine ⟨hc.kernel, hc.fast.free hb hfree, hc.kused, ?_, ?_⟩
  · change u32 (h.totalFusedMemory + (2 ^ 32 - blockBytes _)) = liveBytes (L.fast.erase b)
    rw [hsize, u32_sub (by omega) (by omega)]
    omega
  · change u32 (h.totalUsedMemory + (2 ^ 32 - blockBytes _)) =
      liveBytes L.kernel + liveBytes (L.fast.erase b)
    rw [hsize, u32_sub (by omega) (by omega)]
    omega

theorem CountersInv.call {s s' : Heap × LiveMemory} (hs : MemCall s s') (hc : CountersInv n off s.1 s.2) :
    CountersInv n off s'.1 s'.2 := by
  cases hs with
  | kallocPage hok => exact hc.kallocPage hok
  | kallocNosleep hok => exact hc.kallocNosleep hok
  | kfreePage hb hok => exact hc.kfreePage hb hok
  | fmalloc hok => exact hc.fmalloc hok
  | ffree hb hok => exact hc.ffree hb hok

end Counters

section Runs
variable {totalPages : ℕ} {h₀ h h' : Heap} {L : LiveMemory}

theorem countersInv_init (hT : totalPages < 2 ^ 20) (hu : h₀.totalUsedMemory = 0)
    (hk : h₀.totalKusedMemory = 0) (hf : h₀.totalFusedMemory = 0)
    (hinit : initZones totalPages h₀ = .ok () h) :
    CountersInv (totalPages / 8 / 2 ^ maxOrder * 2 ^ maxOrder) (totalPages / 8 + 1) h ⟨[], []⟩ := by
  unfold initZones at hinit
  obtain ⟨_, h₁, hlift₁, hrest⟩ := Outcome.bind_eq_ok.mp hinit
  obtain ⟨_, h₂, hlift₂, hlift₃⟩ := Outcome.bind_eq_ok.mp hrest
  obtain ⟨⟨m₁, z₁⟩, hkernel, rfl⟩ := Outcome.lift_eq_ok.mp hlift₁
  obtain ⟨⟨m₂, z₂⟩, hfast, rfl⟩ := Outcome.lift_eq_ok.mp hlift₂
  obtain ⟨⟨m₃, z₃⟩, -, rfl⟩ := Outcome.lift_eq_ok.mp hlift₃
  have hsmall := zones_small hT
  obtain ⟨hz₁, ht₁, hoff₁⟩ := initBuddyNew_ok hkernel
  obtain ⟨hz₂, ht₂, hoff₂⟩ := initBuddyNew_ok hfast
  have hnone : ∀ b : ℕ × ℕ, b ∉ ([] : List (ℕ × ℕ)) := fun b => List.not_mem_nil
  exact ⟨⟨⟨⟨_, hz₁⟩, List.nodup_nil, ht₁, hoff₁⟩, fun b hb => absurd hb (hnone b),
      fun b hb => absurd hb (hnone b), by omega⟩,
    ⟨⟨⟨_, hz₂⟩, List.nodup_nil, ht₂, hoff₂⟩, fun b hb => absurd hb (hnone b),
      fun b hb => absurd hb (hnone b), hsmall⟩, hk, hf, hu⟩

/-- The counters are the sizes of the live blocks, in every state that calls can reach from the three
zones; in between they never leave the 32 bits. -/
theorem memory_counters (hT : totalPages < 2 ^ 20) (hu : h₀.totalUsedMemory = 0)
    (hk : h₀.totalKusedMemory = 0) (hf : h₀.totalFusedMemory = 0)
    (hinit : initZones totalPages h₀ = .ok () h)
    (hrun : Relation.ReflTransGen MemCall (h, ⟨[], []⟩) (h', L)) :
    h'.totalKusedMemory = liveBytes L.kernel ∧ h'.totalFusedMemory = liveBytes L.fast ∧
      h'.totalUsedMemory = h'.totalKusedMemory + h'.totalFusedMemory ∧
      liveBytes L.kernel + liveBytes L.fast < 2 ^ 32 := by
  have hinv := countersInv_init hT hu hk hf hinit
  have hall : ∀ s, Relation.ReflTransGen MemCall (h, ⟨[], []⟩) s →
      CountersInv (totalPages / 8 / 2 ^ maxOrder * 2 ^ maxOrder) (totalPages / 8 + 1) s.1 s.2 := by
    intro s hs
    induction hs with
    | refl => exact hinv
    | tail _ hstep ih => exact ih.call hstep
  have hc := hall _ hrun
  have hbytes : liveBytes L.kernel + liveBytes L.fast ≤ 2 ^ 31 := CountersInv.bytes_le hc.kernel hc.fast
  refine ⟨hc.kused, hc.fused, ?_, by omega⟩
  rw [hc.kused, hc.fused]
  exact hc.used

end Runs

theorem memory_counters_first_block : ∃ h ptr h', initZones 114688 bootHeap = .ok () h ∧
    kallocNosleep 10 h = .ok ptr h' ∧ h'.totalKusedMemory = 4194304 ∧ h'.totalUsedMemory = 4194304 := by
  obtain ⟨h₁, hok⟩ := @bootHeap_ready 114688 (by decide) (by decide)
  obtain ⟨h, hinit, -, -, htaken⟩ := (initMemoryAlloc_ready (by decide) hok).took
  obtain ⟨h₂, htake, -⟩ := htaken 1 (by decide)
  obtain ⟨_, h₃, hnone, hcall⟩ := Outcome.bind_eq_ok.mp htake
  obtain ⟨-, rfl⟩ := Outcome.ok.inj hnone
  obtain ⟨ptr, h', hcall, -⟩ := Outcome.bind_eq_ok.mp hcall
  obtain ⟨hk, hf, hu, -⟩ := memory_counters (by decide) rfl rfl rfl hinit (.single (.kallocNosleep hcall))
  refine ⟨h, ptr, h', hinit, hcall, hk, ?_⟩
  rw [hu, hk, hf]
  rfl

end X86Osdev.Mem

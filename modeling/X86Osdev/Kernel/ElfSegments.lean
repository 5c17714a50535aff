import X86Osdev.Kernel.Elf
import X86Osdev.Mem.ClientMemory

/-! What the segments of a loaded image show, and whose memory they reach. -/

namespace X86Osdev.Kernel
open X86Osdev.Lib X86Osdev.Mem X86Osdev.Proc ByteMemory

/-- The byte at `a` in the frame that the page fault handler takes for it. -/
def shown (m : Memory) (areas : List VMArea) (a : ℕ) : UInt8 :=
  m (va (calcPfn a areas * pageSize + a % pageSize))

def IsSegment (m : Memory) (elf i : ℕ) : Prop :=
  i < ePhnum m elf ∧ (header m elf i).type = ptLoad

def Phdr.range (ph : Phdr) : Set ℕ := Set.Ico ph.vaddr (ph.vaddr + ph.memsz)

def segmentByte (m : Memory) (elf : ℕ) (ph : Phdr) (a : ℕ) : UInt8 :=
  if a - ph.vaddr < ph.filesz then m (elf + (ph.offset + (a - ph.vaddr))) else 0

/-- Segments that are well formed and share no address. -/
structure Segmented (m : Memory) (elf : ℕ) : Prop where
  sizes : ∀ i, IsSegment m elf i → (header m elf i).filesz ≤ (header m elf i).memsz
  congruent : ∀ i, IsSegment m elf i → 0 < (header m elf i).filesz →
    (header m elf i).offset % 4096 = (header m elf i).vaddr % 4096
  disjoint : ∀ i j, IsSegment m elf i → IsSegment m elf j → i ≠ j →
    Disjoint (header m elf i).range (header m elf j).range

/-- There is memory behind a segment: in the image, or a page. -/
structure Backed (len : ℕ) (ph : Phdr) : Prop where
  below : ph.vaddr + ph.memsz < 2 ^ 32
  file : ph.filesz ≠ 0 → ph.offset + ph.memsz ≤ len
  bss : ph.filesz = 0 → ph.memsz ≤ 4096

/-- The image has zeros behind the file bytes of a segment. -/
def TailZero (m : Memory) (elf : ℕ) (ph : Phdr) : Prop :=
  ph.filesz ≠ 0 → ∀ k, ph.filesz ≤ k → k < ph.memsz → m (elf + (ph.offset + k)) = 0

section Translation
variable {L : Layout} {v v' : HeapView} {elf len a d i n : ℕ} {ph : Phdr} {vm : VmRegion}
  {xs ys : List VMArea} {s : Segments} {bss : List ℕ}

/-- The first area with the address decides. -/
theorem calcPfn_append (h : ∃ vm ∈ xs, vm.contains a = true) : ∃ vm ∈ xs, vm.contains a = true ∧
    calcPfn a (xs ++ ys) = u32 (vm.physStart + (a - vm.start)) >>> 12 := by
  induction xs with
  | nil =>
    obtain ⟨vm, hm, -⟩ := h
    exact absurd hm List.not_mem_nil
  | cons x xs ih =>
    by_cases hx : x.contains a = true
    · refine ⟨x, List.mem_cons_self .., hx, ?_⟩
      rw [List.cons_append, calcPfn, if_pos hx]
    · obtain ⟨vm, hm, hvm⟩ := h
      rcases List.mem_cons.mp hm with rfl | hm
      · exact absurd hvm hx
      · obtain ⟨vm', hm', hvm', heq⟩ := ih ⟨vm, hm, hvm⟩
        refine ⟨vm', List.mem_cons_of_mem _ hm', hvm', ?_⟩
        rw [List.cons_append, calcPfn, if_neg hx, heq]

theorem contains_iff {vm : VMArea} : vm.contains a = true ↔ vm.start ≤ a ∧ a < vm.end := by
  rw [VMArea.contains, decide_eq_true_eq, and_comm]

theorem AreaOf.range_iff (ha : AreaOf elf bss ph vm) (hm : ph.memsz < 2 ^ 32) :
    vm.contains a = true ↔ a ∈ ph.range ∧ ph.vaddr + ph.memsz < 2 ^ 32 := by
  rw [contains_iff, ha.start, ha.ends, Phdr.range, Set.mem_Ico]
  unfold u32
  omega

theorem phys_eq (hk : kernelVirtualAddressBase ≤ a) (h : a + d < 2 ^ 32) :
    u32 (pa (u32 a) + d) = a + d - kernelVirtualAddressBase := by
  unfold kernelVirtualAddressBase at hk
  unfold u32 pa u32 kernelVirtualAddressBase
  omega

theorem va_frame (hk : kernelVirtualAddressBase ≤ d) (h : d < 2 ^ 32)
    (hcong : d % 4096 = a % 4096) :
    va ((d - kernelVirtualAddressBase) >>> 12 * pageSize + a % pageSize) = d := by
  unfold kernelVirtualAddressBase at hk
  rw [Nat.shiftRight_eq_div_pow]
  unfold va u32 kernelVirtualAddressBase pageSize
  omega

theorem memsz_lt (m : Memory) (elf i : ℕ) : (header m elf i).memsz < 2 ^ 32 :=
  load_lt m 4 _

end Translation

section Shown
variable {L : Layout} {v v' : HeapView} {elf len k a i : ℕ} {r : Loaded}

variable (hd : LoadDone L v v' elf r) (hk : kernelVirtualAddressBase ≤ elf)
  (halign : elf % 4096 = 0) (hsegs : Segmented v.heap.mem elf)
  (hbacked : ∀ i, IsSegment v.heap.mem elf i → Backed len (header v.heap.mem elf i))
  (hfits : elf + len ≤ 2 ^ 32)
include hd hk halign hsegs hbacked hfits

theorem LoadDone.segment_at (hseg : IsSegment v.heap.mem elf i)
    (ha : a ∈ (header v.heap.mem elf i).range) : ∃ x,
      shown v'.heap.mem r.thread.mem.areas a = v'.heap.mem x ∧
      ((header v.heap.mem elf i).filesz ≠ 0 →
        x = elf + ((header v.heap.mem elf i).offset + (a - (header v.heap.mem elf i).vaddr))) ∧
      ((header v.heap.mem elf i).filesz = 0 → v'.heap.mem x = 0) := by
  obtain ⟨s, stack, hdone, -, hareas, -⟩ := hd.segments
  have hb := hbacked i hseg
  obtain ⟨vm₀, hm₀, ha₀⟩ := hdone.area i hseg.1 hseg.2
  have hin : vm₀.contains a = true := (ha₀.range_iff (memsz_lt ..)).mpr ⟨ha, hb.below⟩
  have hlist : r.thread.mem.areas = s.areas.map VmRegion.toVMArea ++ [stack.toVMArea] := by
    rw [MemDesc.areas, hareas, List.map_append, List.map_singleton]
  obtain ⟨w, hw, hwa, hpfn⟩ := @calcPfn_append a (s.areas.map VmRegion.toVMArea)
    [stack.toVMArea] ⟨_, List.mem_map_of_mem hm₀, hin⟩
  obtain ⟨vm, hm, rfl⟩ := List.mem_map.mp hw
  -- no other segment has the address
  obtain ⟨j, hj, hjload, hvm⟩ := hdone.only vm hm
  obtain ⟨haj, -⟩ := (hvm.range_iff (memsz_lt ..)).mp hwa
  have hij : i = j := by
    by_contra hne
    exact Set.disjoint_left.mp (hsegs.disjoint i j hseg ⟨hj, hjload⟩ hne) ha haj
  subst hij
  set ph := header v.heap.mem elf i
  obtain ⟨hlow, hhigh⟩ := ha
  have hshown : shown v'.heap.mem r.thread.mem.areas a =
      v'.heap.mem (va (u32 (vm.physStart + (a - ph.vaddr)) >>> 12 * pageSize + a % pageSize)) := by
    rw [shown, hlist, hpfn, hvm.start]
  refine ⟨_, hshown, fun hfile => ?_, fun hempty => ?_⟩
  · have hcong : ph.offset % 4096 = ph.vaddr % 4096 :=
      hsegs.congruent i hseg (Nat.pos_of_ne_zero hfile)
    have hlen := hb.file hfile
    rw [hvm.file hfile, phys_eq (by omega) (by omega), va_frame (by omega) (by omega) (by omega),
      Nat.add_assoc]
  · obtain ⟨b, hbmem, hphys⟩ := hvm.empty hempty
    have hpage := hdone.bss b hbmem
    have hkb := hpage.fresh.kernel
    have hsize := hb.bss hempty
    have hend := hpage.fits
    have hal := hpage.aligned
    -- all of the segment has the frame of the page
    have hframe : u32 (vm.physStart + (a - ph.vaddr)) >>> 12 =
        (b + a % 4096 - kernelVirtualAddressBase) >>> 12 := by
      rw [hphys, Nat.shiftRight_eq_div_pow, Nat.shiftRight_eq_div_pow]
      unfold kernelVirtualAddressBase at hkb ⊢
      unfold pa u32 kernelVirtualAddressBase
      omega
    rw [hframe, va_frame (by omega) (by omega) (by omega)]
    exact hpage.zero _ ⟨by omega, by omega⟩

variable (hset : ∀ a, elf ≤ a → a < elf + len → Settled L v a) (hg : Grows L k v v')
include hset hg

theorem LoadDone.shown_iff :
    (∀ i, IsSegment v.heap.mem elf i → ∀ a ∈ (header v.heap.mem elf i).range,
      shown v'.heap.mem r.thread.mem.areas a =
        segmentByte v.heap.mem elf (header v.heap.mem elf i) a) ↔
      ∀ i, IsSegment v.heap.mem elf i → TailZero v.heap.mem elf (header v.heap.mem elf i) := by
  have hfile : ∀ i, IsSegment v.heap.mem elf i → (header v.heap.mem elf i).filesz ≠ 0 →
      ∀ a ∈ (header v.heap.mem elf i).range, shown v'.heap.mem r.thread.mem.areas a =
        v.heap.mem (elf + ((header v.heap.mem elf i).offset +
          (a - (header v.heap.mem elf i).vaddr))) := by
    intro i hseg hne a ha
    obtain ⟨x, hx, hxf, -⟩ := hd.segment_at hk halign hsegs hbacked hfits hseg ha
    have hlen := (hbacked i hseg).file hne
    obtain ⟨hlow, hhigh⟩ := ha
    rw [hx, hxf hne]
    exact hg.kept _ (hset _ (by omega) (by omega))
  constructor
  · intro h i hseg hne k hk₁ hk₂
    have ha : (header v.heap.mem elf i).vaddr + k ∈ (header v.heap.mem elf i).range :=
      ⟨Nat.le_add_right _ _, Nat.add_lt_add_left hk₂ _⟩
    have hbyte := (hfile i hseg hne _ ha).symm.trans (h i hseg _ ha)
    rwa [segmentByte, Nat.add_sub_cancel_left, if_neg (Nat.not_lt.mpr hk₁)] at hbyte
  · intro htail i hseg a ha
    by_cases hne : (header v.heap.mem elf i).filesz = 0
    · obtain ⟨x, hx, -, hxz⟩ := hd.segment_at hk halign hsegs hbacked hfits hseg ha
      rw [hx, hxz hne, segmentByte, if_neg (by omega)]
    · rw [hfile i hseg hne a ha, segmentByte]
      by_cases hlt : a - (header v.heap.mem elf i).vaddr < (header v.heap.mem elf i).filesz
      · rw [if_pos hlt]
      · rw [if_neg hlt]
        obtain ⟨hlow, hhigh⟩ := ha
        exact htail i hseg hne _ (Nat.le_of_not_lt hlt) (by omega)

end Shown

/-- A physical byte of the image, of a page for a segment without bytes in the file, or of the user
stack. -/
def OwnByte (elf len : ℕ) (r : Loaded) (x : ℕ) : Prop :=
  (∃ k < len, x = pa (elf + k)) ∨
    ∃ b ∈ r.thread.userStackBot :: r.bss, ∃ k < pageSize, x = pa (b + k)

def ReachesOwn (elf len : ℕ) (r : Loaded) : Prop :=
  ∀ vm ∈ r.thread.mem.areas, ∀ a, vm.start ≤ a → a < vm.end →
    OwnByte elf len r (u32 (vm.physStart + (a - vm.start)))

/-- Unless its area is empty, a segment ends with the image or its page. -/
def Enclosed (len : ℕ) (ph : Phdr) : Prop :=
  ph.vaddr + ph.memsz < 2 ^ 32 →
    (ph.filesz ≠ 0 → ph.offset + ph.memsz ≤ len) ∧ (ph.filesz = 0 → ph.memsz ≤ pageSize)

section Reached
variable {L : Layout} {v v' : HeapView} {elf len k a b i : ℕ} {r : Loaded}

theorem LoadDone.page (hd : LoadDone L v v' elf r) (hb : b ∈ r.thread.userStackBot :: r.bss) :
    Fresh L v v' (blockAt b 0) ∧ b + 4096 ≤ 2 ^ 32 := by
  obtain ⟨s, stack, hdone, hbss, -⟩ := hd.segments
  rcases List.mem_cons.mp hb with rfl | hb
  · exact ⟨hd.stack, hd.fits⟩
  · have hpage := hdone.bss b (hbss ▸ hb)
    exact ⟨hpage.fresh, hpage.fits⟩

theorem pa_add (a k : ℕ) : u32 (pa a + k) = pa (a + k) := by
  unfold pa u32
  omega

theorem pa_u32 (a : ℕ) : pa (u32 a) = pa a := by
  unfold pa u32
  omega

theorem pa_inj (ha : kernelVirtualAddressBase ≤ a) (ha' : a < 2 ^ 32)
    (hb : kernelVirtualAddressBase ≤ b) (hb' : b < 2 ^ 32) (h : pa a = pa b) : a = b := by
  rw [pa_eq ha ha', pa_eq hb hb'] at h
  unfold kernelVirtualAddressBase at ha hb
  omega

variable (hd : LoadDone L v v' elf r)
include hd

theorem LoadDone.reachesOwn
    (hen : ∀ i, IsSegment v.heap.mem elf i → Enclosed len (header v.heap.mem elf i)) :
    ReachesOwn elf len r := by
  obtain ⟨s, stack, hdone, hbss, hareas, hstack⟩ := hd.segments
  intro w hw a hlow hhigh
  rw [MemDesc.areas, hareas, List.map_append, List.mem_append] at hw
  rcases hw with hw | hw
  · obtain ⟨vm, hm, rfl⟩ := List.mem_map.mp hw
    obtain ⟨i, hi, hload, hvm⟩ := hdone.only vm hm
    obtain ⟨⟨hlow', hhigh'⟩, hbelow⟩ :=
      (hvm.range_iff (memsz_lt ..)).mp (contains_iff.mpr ⟨hlow, hhigh⟩)
    obtain ⟨hfile, hempty⟩ := hen i ⟨hi, hload⟩ hbelow
    rw [hvm.start]
    by_cases hne : (header v.heap.mem elf i).filesz = 0
    · obtain ⟨b, hb, hphys⟩ := hvm.empty hne
      have hmem : b ∈ r.thread.userStackBot :: r.bss := List.mem_cons_of_mem _ (hbss ▸ hb)
      have hsize : (header v.heap.mem elf i).memsz ≤ 4096 := hempty hne
      refine .inr ⟨b, hmem, a - (header v.heap.mem elf i).vaddr, ?_, ?_⟩
      · exact show _ < 4096 by omega
      · rw [hphys, pa_add]
    · have hlen := hfile hne
      refine .inl ⟨(header v.heap.mem elf i).offset + (a - (header v.heap.mem elf i).vaddr), by omega,
        ?_⟩
      rw [hvm.file hne, pa_u32, pa_add, Nat.add_assoc]
  · obtain rfl := List.mem_singleton.mp hw
    rw [hstack] at hlow hhigh ⊢
    change userStackTop - pageSize ≤ a at hlow
    change a < userStackTop at hhigh
    have hlt : a - (userStackTop - pageSize) < pageSize := by
      unfold userStackTop pageSize at *
      omega
    exact .inr ⟨_, List.mem_cons_self .., _, hlt, pa_add ..⟩

theorem LoadDone.enclosed (hown : ReachesOwn elf len r) (hk : kernelVirtualAddressBase ≤ elf)
    (hbehind : Settled L v (elf + len)) (hi : IsSegment v.heap.mem elf i)
    (hfile : (header v.heap.mem elf i).offset + (header v.heap.mem elf i).filesz ≤ len)
    (hne : (header v.heap.mem elf i).filesz ≠ 0) : Enclosed len (header v.heap.mem elf i) := by
  intro hbelow
  refine ⟨fun _ => ?_, fun h => absurd h hne⟩
  by_contra hlong
  obtain ⟨s, stack, hdone, hbss, hareas, hstack⟩ := hd.segments
  obtain ⟨vm, hm, hvm⟩ := hdone.area i hi.1 hi.2
  set ph := header v.heap.mem elf i
  have ha : ph.vaddr + (len - ph.offset) ∈ ph.range := ⟨by omega, by omega⟩
  obtain ⟨hlow, hhigh⟩ := contains_iff.mp ((hvm.range_iff (memsz_lt ..)).mpr ⟨ha, hbelow⟩)
  have hmem : vm.toVMArea ∈ r.thread.mem.areas := by
    rw [MemDesc.areas, hareas]
    exact List.mem_map_of_mem (List.mem_append_left _ hm)
  have hbyte := hown _ hmem _ hlow hhigh
  have hplace : elf + ph.offset + (len - ph.offset) = elf + len := by omega
  rw [hvm.file hne, hvm.start, Nat.add_sub_cancel_left, pa_u32, pa_add, hplace] at hbyte
  have hword := hbehind.word
  rcases hbyte with ⟨k, hklt, heq⟩ | ⟨b, hb, k, hklt, heq⟩
  · have := pa_inj (by omega) hword (by omega) (by omega) heq
    omega
  · -- pages that are new were free
    obtain ⟨hfresh, hend⟩ := hd.page hb
    have hkb := hfresh.kernel
    change k < 4096 at hklt
    have := pa_inj (by omega) hword (by omega) (by omega) heq
    exact (hfresh (elf + len) ⟨by omega, by omega⟩).2 hbehind

end Reached

structure Image (σ : Sys) (elf len : ℕ) : Prop extends ImageAt σ.heap.mem elf len where
  apart : ∀ a, elf ≤ a → a < elf + len → Apart σ a

section Loaded
variable {totalPages elf len : ℕ} {σ : Sys} {L : Layout} {c : Cache} {kernelPageDirectory : Entries}
  {r : Loaded} {h' : Heap}

theorem Image.settled (himage : Image σ elf len) (hi : SysInv L c σ) :
    ∀ a, elf ≤ a → a < elf + len → Settled L (σ.view c) a :=
  fun a hlow hhigh => hi.settled_iff.mpr (himage.apart a hlow hhigh)

theorem Image.kernel (himage : Image σ elf len) : kernelVirtualAddressBase ≤ elf :=
  (himage.apart elf le_rfl (Nat.lt_add_of_pos_right
    (Nat.lt_of_lt_of_le (by decide) himage.ehdr))).kernel

theorem Image.load (himage : Image σ elf len) (hi : SysInv L c σ)
    (hok : loadElf kernelPageDirectory elf σ.heap = .ok r h') : ∃ k v', v'.heap = h' ∧
      Grows L k (σ.view c) v' ∧ LoadDone L (σ.view c) v' elf r := by
  have hspec : Allocates L _ (σ.view c) (loadElf kernelPageDirectory elf σ.heap) _ :=
    loadElf_spec himage.toImageAt (himage.settled hi) hi.heap
  obtain ⟨v', hv', hg, hd⟩ := hspec.ok hok
  exact ⟨_, v', hv', hg, hd⟩

def smallImage (memsz : UInt8) : List UInt8 :=
  [0x7f, 0x45, 0x4c, 0x46, 1, 1, 1, 0, 0, 0, 0, 0, 0, 0, 0, 0,
    2, 0, 3, 0, 1, 0, 0, 0, 0, 16, 0, 0, 52, 0, 0, 0, 0, 0, 0, 0, 0, 0, 0, 0,
    52, 0, 32, 0, 1, 0, 0, 0, 0, 0, 0, 0,
    1, 0, 0, 0, 0, 0, 0, 0, 0, 16, 0, 0, 0, 16, 0, 0, 1, 0, 0, 0, memsz, 0, 0, 0, 7, 0, 0, 0, 0, 16, 0, 0]

structure SmallLoaded (kernelPageDirectory : Entries) (memsz : UInt8) (σ : Sys) (elf : ℕ) (r : Loaded)
    (h' : Heap) : Prop where
  reach : HeapReach 114688 σ
  image : Image σ elf 84
  behind : Apart σ (elf + 84)
  aligned : elf % pageSize = 0
  bytes : ∀ i < 84, σ.heap.mem (elf + i) = (smallImage memsz).getD i 0
  phnum : ePhnum σ.heap.mem elf = 1
  header : header σ.heap.mem elf 0 = ⟨ptLoad, 0, 4096, 1, memsz.toNat, 7⟩
  loaded : loadElf kernelPageDirectory elf σ.heap = .ok r h'

theorem smallLoaded (kernelPageDirectory : Entries) (memsz : UInt8) :
    ∃ σ elf r h', SmallLoaded kernelPageDirectory memsz σ elf r h' := by
  obtain ⟨L, c, σ, q, p, htwo⟩ := heapReach_pages ((smallImage memsz).getD · 0)
  obtain ⟨hreach, hi, ⟨-, hpage⟩, -, hroom, hbytes, -⟩ := id htwo
  have hend := htwo.fits.2
  have hset : ∀ a ∈ blockAt (pageAddr p) 0, Settled L (σ.view c) a := fun a ha =>
    HeapInv.block_settled (v := σ.view c) hi.heap hpage ha
  have hk : kernelVirtualAddressBase ≤ pageAddr p := Nat.le_add_right _ _
  have hload : ∀ w off, off + w ≤ 84 → ByteMemory.load (2 ^ 32) σ.heap.mem w (u32 (pageAddr p + off)) =
      ByteMemory.load (2 ^ 32) ((smallImage memsz).getD · 0) w off := by
    intro w
    induction w with
    | zero => exact fun _ _ => rfl
    | succ w ih =>
      intro off hoff
      have hnext := ih (off + 1) (by omega)
      have hfull : pageAddr p + off + 1 < 2 ^ 32 := by omega
      rw [u32, Nat.mod_eq_of_lt (by omega)] at hnext ⊢
      rw [ByteMemory.load, ByteMemory.load, Nat.mod_eq_of_lt (by omega), Nat.mod_eq_of_lt (by omega),
        hbytes off (by omega)]
      exact congrArg _ (congrArg _ hnext)
  have hphoff : ePhoff σ.heap.mem (pageAddr p) = 52 := hload 4 28 (by decide)
  have hphnum : ePhnum σ.heap.mem (pageAddr p) = 1 := hload 2 44 (by decide)
  have hheader : header σ.heap.mem (pageAddr p) 0 = ⟨ptLoad, 0, 4096, 1, memsz.toNat, 7⟩ := by
    have hword : ∀ c, c + 56 ≤ 84 → load32 σ.heap.mem (u32 (u32 (pageAddr p + 52) + 32 * 0 + c)) =
        ByteMemory.load (2 ^ 32) ((smallImage memsz).getD · 0) 4 (52 + c) := by
      intro c hc
      have hplace : u32 (u32 (pageAddr p + 52) + 32 * 0 + c) = u32 (pageAddr p + (52 + c)) := by
        unfold u32
        omega
      rw [hplace]
      exact hload 4 (52 + c) (by omega)
    unfold header phdrAt sizeofPhdr
    rw [hphoff]
    simp only [Phdr.mk.injEq]
    exact ⟨hword 0 (by decide), hword 4 (by decide), hword 8 (by decide), hword 16 (by decide),
      hword 20 (by decide), hword 24 (by decide)⟩
  have himage : Image σ (pageAddr p) 84 := by
    refine ⟨⟨by omega, by decide, ?_⟩, fun a hlow hhigh => ?_⟩
    · rw [hphoff, hphnum]
      decide
    · exact hi.settled_iff.mp (hset a ⟨hlow, by omega⟩)
  have hspec : Allocates L _ (σ.view c) (loadElf kernelPageDirectory (pageAddr p) σ.heap) _ :=
    loadElf_spec himage.toImageAt (himage.settled hi) hi.heap
  rcases hspec with ⟨r, v', hok, -⟩ | ⟨-, hfull⟩
  · refine ⟨σ, pageAddr p, r, v'.heap, hreach, himage, ?_, ?_, fun i hlt => hbytes i (by omega),
      hphnum, hheader, hok⟩
    · exact hi.settled_iff.mp (hset _ ⟨by omega, by omega⟩)
    · rw [pageAddr_eq]
      unfold pageSize
      omega
  · change L.numPages < (σ.view c).used L + (2 * ePhnum σ.heap.mem (pageAddr p) + 7) at hfull
    rw [hphnum] at hfull
    omega

section Small
variable {memsz : UInt8}

theorem SmallLoaded.segment (hs : SmallLoaded kernelPageDirectory memsz σ elf r h') {i : ℕ} :
    IsSegment σ.heap.mem elf i ↔ i = 0 := by
  constructor
  · intro hi
    have hlt := hi.1
    rw [hs.phnum] at hlt
    exact Nat.lt_one_iff.mp hlt
  · rintro rfl
    refine ⟨?_, ?_⟩
    · rw [hs.phnum]
      exact Nat.one_pos
    · rw [hs.header]

theorem SmallLoaded.segmented (hs : SmallLoaded kernelPageDirectory memsz σ elf r h')
    (hmem : 1 ≤ memsz.toNat) : Segmented σ.heap.mem elf where
  sizes i hi := by
    rw [hs.segment.mp hi, hs.header]
    exact hmem
  congruent i hi _ := by
    rw [hs.segment.mp hi, hs.header]
    exact (Nat.zero_mod 4096).trans (Nat.mod_self 4096).symm
  disjoint i j hi hj hij := absurd ((hs.segment.mp hi).trans (hs.segment.mp hj).symm) hij

theorem SmallLoaded.backed (hs : SmallLoaded kernelPageDirectory memsz σ elf r h')
    (hmem : memsz.toNat ≤ 84) :
    ∀ i, IsSegment σ.heap.mem elf i → Backed 84 (Kernel.header σ.heap.mem elf i) := by
  intro i hi
  rw [hs.segment.mp hi, hs.header]
  exact ⟨by simp only; omega, fun _ => by simp only; omega, fun h => absurd h Nat.one_ne_zero⟩

end Small

/-- Where there is memory behind every segment, the segments show the right bytes exactly if the image is
zero behind their file bytes. -/
theorem elf_segments_shown (hreach : HeapReach totalPages σ) (himage : Image σ elf len)
    (halign : elf % pageSize = 0) (hsegs : Segmented σ.heap.mem elf)
    (hbacked : ∀ i, IsSegment σ.heap.mem elf i → Backed len (header σ.heap.mem elf i))
    (hok : loadElf kernelPageDirectory elf σ.heap = .ok r h') :
    (∀ i, IsSegment σ.heap.mem elf i → ∀ a ∈ (header σ.heap.mem elf i).range,
      shown h'.mem r.thread.mem.areas a = segmentByte σ.heap.mem elf (header σ.heap.mem elf i) a) ↔
      ∀ i, IsSegment σ.heap.mem elf i → TailZero σ.heap.mem elf (header σ.heap.mem elf i) := by
  obtain ⟨L, c, hi, -⟩ := hreach.sysInv
  obtain ⟨k, v', rfl, hg, hd⟩ := himage.load hi hok
  exact hd.shown_iff himage.kernel halign hsegs hbacked himage.fits (himage.settled hi) hg

theorem elf_segments_shown_small : ∃ σ elf r h', SmallLoaded (fun _ => 0) 2 σ elf r h' ∧
    ((∀ i, IsSegment σ.heap.mem elf i → ∀ a ∈ (header σ.heap.mem elf i).range,
      shown h'.mem r.thread.mem.areas a = segmentByte σ.heap.mem elf (header σ.heap.mem elf i) a) ↔
      ∀ i, IsSegment σ.heap.mem elf i → TailZero σ.heap.mem elf (header σ.heap.mem elf i)) := by
  obtain ⟨σ, elf, r, h', hs⟩ := smallLoaded (fun _ => 0) 2
  exact ⟨σ, elf, r, h', hs, elf_segments_shown hs.reach hs.image hs.aligned
    (hs.segmented (by decide)) (hs.backed (by decide)) hs.loaded⟩

/-- The second byte of the segment is not in the file, and shows the `E` of the image. -/
theorem elf_tail_not_zero : ∃ σ elf r h', SmallLoaded (fun _ => 0) 2 σ elf r h' ∧
    Segmented σ.heap.mem elf ∧ ¬ ∀ i, IsSegment σ.heap.mem elf i →
      ∀ a ∈ (header σ.heap.mem elf i).range, shown h'.mem r.thread.mem.areas a =
        segmentByte σ.heap.mem elf (header σ.heap.mem elf i) a := by
  obtain ⟨σ, elf, r, h', hs⟩ := smallLoaded (fun _ => 0) 2
  have hsegs := hs.segmented (by decide)
  refine ⟨σ, elf, r, h', hs, hsegs, fun hshown => ?_⟩
  obtain ⟨L, c, hi, -⟩ := hs.reach.sysInv
  obtain ⟨k, v', rfl, hg, hd⟩ := hs.image.load hi hs.loaded
  have htail := (hd.shown_iff hs.image.kernel hs.aligned hsegs (hs.backed (by decide)) hs.image.fits
    (hs.image.settled hi) hg).mp hshown 0 (hs.segment.mpr rfl)
  rw [TailZero, show (σ.view c).heap.mem = σ.heap.mem from rfl, hs.header] at htail
  have hzero := htail Nat.one_ne_zero 1 le_rfl (by decide)
  rw [Nat.zero_add, hs.bytes 1 (by decide)] at hzero
  exact absurd hzero (by decide)

/-- The pages that a program gets were free. Its areas reach only these and the image if every segment ends
with the image or its page; where the byte behind the image is not free and segments without bytes in the
file fit their page, exactly then. -/
theorem elf_reaches_own (hreach : HeapReach totalPages σ) (himage : Image σ elf len)
    (hfile : ∀ i, IsSegment σ.heap.mem elf i →
      (header σ.heap.mem elf i).offset + (header σ.heap.mem elf i).filesz ≤ len)
    (hok : loadElf kernelPageDirectory elf σ.heap = .ok r h') :
    (∀ b ∈ r.thread.userStackBot :: r.bss, ∀ x ∈ blockAt b 0, FreeByte σ x) ∧
    ((∀ i, IsSegment σ.heap.mem elf i → Enclosed len (header σ.heap.mem elf i)) →
      ReachesOwn elf len r) ∧
    (Apart σ (elf + len) → (∀ i, IsSegment σ.heap.mem elf i → (header σ.heap.mem elf i).filesz = 0 →
        Enclosed len (header σ.heap.mem elf i)) → ReachesOwn elf len r →
      ∀ i, IsSegment σ.heap.mem elf i → Enclosed len (header σ.heap.mem elf i)) := by
  obtain ⟨L, c, hi, -⟩ := hreach.sysInv
  obtain ⟨k, v', rfl, hg, hd⟩ := himage.load hi hok
  refine ⟨fun b hb x hx => hi.fresh_free hg (hd.page hb).1 hx, hd.reachesOwn, ?_⟩
  intro hbehind hbss hown i hseg
  by_cases hne : (header σ.heap.mem elf i).filesz = 0
  · exact hbss i hseg hne
  · exact hd.enclosed hown himage.kernel (hi.settled_iff.mpr hbehind) hseg (hfile i hseg) hne

theorem elf_reaches_own_small : ∃ σ elf r h', SmallLoaded (fun _ => 0) 84 σ elf r h' ∧
    ReachesOwn elf 84 r := by
  obtain ⟨σ, elf, r, h', hs⟩ := smallLoaded (fun _ => 0) 84
  have hfile : ∀ i, IsSegment σ.heap.mem elf i →
      (header σ.heap.mem elf i).offset + (header σ.heap.mem elf i).filesz ≤ 84 := by
    intro i hi
    rw [hs.segment.mp hi, hs.header]
    decide
  refine ⟨σ, elf, r, h', hs, (elf_reaches_own hs.reach hs.image hfile hs.loaded).2.1 fun i hi => ?_⟩
  have hback := hs.backed (by decide) i hi
  exact fun _ => ⟨hback.file, hback.bss⟩

/-- A segment of 85 bytes in an image of 84. -/
theorem elf_reaches_behind : ∃ σ elf r h', SmallLoaded (fun _ => 0) 85 σ elf r h' ∧
    (∀ i, IsSegment σ.heap.mem elf i → (header σ.heap.mem elf i).filesz ≤ (header σ.heap.mem elf i).memsz ∧
      (header σ.heap.mem elf i).offset + (header σ.heap.mem elf i).filesz ≤ 84) ∧
    ¬ ReachesOwn elf 84 r := by
  obtain ⟨σ, elf, r, h', hs⟩ := smallLoaded (fun _ => 0) 85
  have hsizes : ∀ i, IsSegment σ.heap.mem elf i →
      (header σ.heap.mem elf i).filesz ≤ (header σ.heap.mem elf i).memsz ∧
        (header σ.heap.mem elf i).offset + (header σ.heap.mem elf i).filesz ≤ 84 := by
    intro i hi
    rw [hs.segment.mp hi, hs.header]
    decide
  refine ⟨σ, elf, r, h', hs, hsizes, fun hown => ?_⟩
  obtain ⟨L, c, hi, -⟩ := hs.reach.sysInv
  obtain ⟨k, v', rfl, hg, hd⟩ := hs.image.load hi hs.loaded
  have hseg : IsSegment (σ.view c).heap.mem elf 0 := hs.segment.mpr rfl
  have hheader : header (σ.view c).heap.mem elf 0 = ⟨ptLoad, 0, 4096, 1, 85, 7⟩ := hs.header
  have hen := hd.enclosed hown hs.image.kernel (hi.settled_iff.mpr hs.behind) hseg
    (hsizes 0 hseg).2 (hheader ▸ Nat.one_ne_zero)
  rw [hheader] at hen
  exact absurd ((hen (by decide)).1 Nat.one_ne_zero) (by decide)

end Loaded

end X86Osdev.Kernel

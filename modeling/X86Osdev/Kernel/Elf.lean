import X86Osdev.Proc.UserThread

/-! `load_elf` of kernel/elf.c. -/

namespace X86Osdev.Kernel
open X86Osdev.Lib X86Osdev.Mem X86Osdev.Proc ByteMemory

def load16 (m : Memory) (a : ℕ) : ℕ := ByteMemory.load (2 ^ 32) m 2 a

def ptLoad : ℕ := 1

def sizeofEhdr : ℕ := 52

def sizeofPhdr : ℕ := 32

def eEntry (m : Memory) (elf : ℕ) : ℕ := load32 m (u32 (elf + 24))

def ePhoff (m : Memory) (elf : ℕ) : ℕ := load32 m (u32 (elf + 28))

def ePhnum (m : Memory) (elf : ℕ) : ℕ := load16 m (u32 (elf + 44))

/-- The fields of `Elf32_Phdr` that `load_elf` reads. -/
structure Phdr where
  type : ℕ
  offset : ℕ
  vaddr : ℕ
  filesz : ℕ
  memsz : ℕ
  flags : ℕ
deriving DecidableEq

def phdrAt (m : Memory) (ph i : ℕ) : Phdr :=
  let p := ph + sizeofPhdr * i
  { type := load32 m (u32 p)
    offset := load32 m (u32 (p + 4))
    vaddr := load32 m (u32 (p + 8))
    filesz := load32 m (u32 (p + 16))
    memsz := load32 m (u32 (p + 20))
    flags := load32 m (u32 (p + 24)) }

/-- The areas made so far, and the pages taken for segments without bytes in the file, which the source
keeps in `phys_start` only. -/
structure Segments where
  areas : List VmRegion
  bss : List ℕ

/-- A turn of the loop of `load_elf`. -/
def loadSegment (elf : ℕ) (ph : Phdr) (s : Segments) (h : Heap) : Outcome Heap Segments :=
  if ph.type = ptLoad then
    (if ph.filesz = 0 then (zeroedPage h).bind fun bss h => .ok (pa bss, bss :: s.bss) h
      else .ok (pa (u32 (elf + ph.offset)), s.bss) h).bind fun phys h =>
    (createVmregion ph.vaddr (u32 (ph.vaddr + ph.memsz)) phys.1 ph.flags vmaReg h).bind fun vm h =>
      .ok ⟨s.areas ++ [vm], phys.2⟩ h
  else .ok s h

/-- The first `n` turns. -/
def loadSegments (elf ph : ℕ) : ℕ → Heap → Outcome Heap Segments
  | 0, h => .ok ⟨[], []⟩ h
  | n + 1, h =>
    (loadSegments elf ph n h).bind fun s h => loadSegment elf (phdrAt h.mem ph n) s h

structure Loaded where
  thread : UserThread
  bss : List ℕ

/-- The name of the thread is `elf`. -/
def loadElf (kernelPageDirectory : Entries) (elf : ℕ) (h : Heap) : Outcome Heap Loaded :=
  (newMemDesc kernelPageDirectory h).bind fun threadMem h =>
  let ph := u32 (elf + ePhoff h.mem elf)
  (loadSegments elf ph (ePhnum h.mem elf) h).bind fun s h =>
  let threadMem := { threadMem with vmAreas := threadMem.vmAreas ++ s.areas }
  (createUserThread (eEntry h.mem elf) threadMem 0 3 h).bind fun t h =>
  (stackRegion t h).bind fun stack h =>
    .ok ⟨{ t with mem := { t.mem with vmAreas := t.mem.vmAreas ++ [stack] } }, s.bss⟩ h

structure AreaOf (elf : ℕ) (bss : List ℕ) (ph : Phdr) (vm : VmRegion) : Prop where
  start : vm.start = ph.vaddr
  ends : vm.end = u32 (ph.vaddr + ph.memsz)
  empty : ph.filesz = 0 → ∃ b ∈ bss, vm.physStart = pa b
  file : ph.filesz ≠ 0 → vm.physStart = pa (u32 (elf + ph.offset))

structure BssPage (L : Layout) (v v' : HeapView) (b : ℕ) : Prop where
  fresh : Fresh L v v' (blockAt b 0)
  zero : ∀ x ∈ blockAt b 0, v'.heap.mem x = 0
  aligned : b % 4096 = 0
  fits : b + 4096 ≤ 2 ^ 32

structure SegmentsDone (L : Layout) (v v' : HeapView) (elf : ℕ) (hdr : ℕ → Phdr) (n : ℕ)
    (s : Segments) : Prop where
  area : ∀ i < n, (hdr i).type = ptLoad → ∃ vm ∈ s.areas, AreaOf elf s.bss (hdr i) vm
  only : ∀ vm ∈ s.areas, ∃ i < n, (hdr i).type = ptLoad ∧ AreaOf elf s.bss (hdr i) vm
  bss : ∀ b ∈ s.bss, BssPage L v v' b

section Load
variable {L : Layout} {v v' v'' : HeapView} {elf n k b : ℕ} {hdr : ℕ → Phdr} {s : Segments}
  {bss : List ℕ} {ph : Phdr} {vm : VmRegion}

theorem AreaOf.cons (ha : AreaOf elf bss ph vm) (b : ℕ) : AreaOf elf (b :: bss) ph vm where
  start := ha.start
  ends := ha.ends
  empty h := by
    obtain ⟨b', hb', hphys⟩ := ha.empty h
    exact ⟨b', List.mem_cons_of_mem _ hb', hphys⟩
  file := ha.file

theorem BssPage.later (hb : BssPage L v v' b) (hg : Grows L k v' v'') : BssPage L v v'' b where
  fresh := hb.fresh.later hg
  zero x hx := (hg.kept x (hb.fresh x hx).1).trans (hb.zero x hx)
  aligned := hb.aligned
  fits := hb.fits

theorem SegmentsDone.later (hd : SegmentsDone L v v' elf hdr n s) (hg : Grows L k v' v'') :
    SegmentsDone L v v'' elf hdr n s :=
  ⟨hd.area, hd.only, fun b hb => (hd.bss b hb).later hg⟩

theorem areaOf_eq {phys : ℕ} (hvm : vm.toVMArea = ⟨ph.vaddr, u32 (ph.vaddr + ph.memsz), phys⟩)
    (hempty : ph.filesz = 0 → ∃ b ∈ bss, phys = pa b)
    (hfile : ph.filesz ≠ 0 → phys = pa (u32 (elf + ph.offset))) : AreaOf elf bss ph vm := by
  have hphys : vm.physStart = phys := congrArg VMArea.physStart hvm
  exact ⟨congrArg VMArea.start hvm, congrArg VMArea.end hvm, hphys ▸ hempty, hphys ▸ hfile⟩

theorem SegmentsDone.add (hd : SegmentsDone L v v' elf hdr n s) (hload : (hdr n).type = ptLoad)
    (hsub : ∀ i vm, AreaOf elf s.bss (hdr i) vm → AreaOf elf bss (hdr i) vm)
    (hvm : AreaOf elf bss (hdr n) vm) (hbss : ∀ b ∈ bss, BssPage L v v' b) :
    SegmentsDone L v v' elf hdr (n + 1) ⟨s.areas ++ [vm], bss⟩ where
  area i hi hi' := by
    rcases Nat.lt_succ_iff_lt_or_eq.mp hi with hlt | rfl
    · obtain ⟨vm', hmem, ha⟩ := hd.area i hlt hi'
      exact ⟨vm', List.mem_append_left _ hmem, hsub i vm' ha⟩
    · exact ⟨vm, List.mem_append_right _ (List.mem_singleton.mpr rfl), hvm⟩
  only vm' hmem := by
    rcases List.mem_append.mp hmem with hmem | hmem
    · obtain ⟨i, hi, hi', ha⟩ := hd.only vm' hmem
      exact ⟨i, Nat.lt_succ_of_lt hi, hi', hsub i vm' ha⟩
    · obtain rfl := List.mem_singleton.mp hmem
      exact ⟨n, Nat.lt_succ_self n, hload, hvm⟩
  bss := hbss

theorem SegmentsDone.skip (hd : SegmentsDone L v v' elf hdr n s) (hload : (hdr n).type ≠ ptLoad) :
    SegmentsDone L v v' elf hdr (n + 1) s where
  area i hi hi' := by
    rcases Nat.lt_succ_iff_lt_or_eq.mp hi with hlt | rfl
    · exact hd.area i hlt hi'
    · exact absurd hi' hload
  only vm hmem := by
    obtain ⟨i, hi, h⟩ := hd.only vm hmem
    exact ⟨i, Nat.lt_succ_of_lt hi, h⟩
  bss := hd.bss

theorem bssPage_of_newPage (hp : NewPage L v v' (memset · 0 pageSize v.heap.mem) b) :
    BssPage L v v' b := by
  obtain ⟨p, hptr, -⟩ := hp.block
  refine ⟨hp.fresh, fun x hx => ?_, ?_, hp.fits⟩
  · rw [hp.mem, memset_apply (n := pageSize) hp.fits, if_pos ⟨hx.1, hx.2⟩]
    rfl
  · rw [hptr, pageAddr_eq]
    omega

theorem loadSegment_spec {v₀ : HeapView} {k : ℕ} (hg : Grows L k v₀ v)
    (hd : SegmentsDone L v₀ v elf hdr n s) :
    Allocates L 2 v (loadSegment elf (hdr n) s v.heap) fun s' v' =>
      SegmentsDone L v₀ v' elf hdr (n + 1) s' := by
  unfold loadSegment
  by_cases hload : (hdr n).type = ptLoad
  · rw [if_pos hload]
    change Allocates L (1 + 1) v _ _
    by_cases hfile : (hdr n).filesz = 0
    · rw [if_pos hfile]
      have hpage : Allocates L 1 v ((zeroedPage v.heap).bind fun bss h =>
          .ok (pa bss, bss :: s.bss) h) fun phys v' => ∃ b, phys = (pa b, b :: s.bss) ∧
            BssPage L v v' b :=
        (zeroedPage_spec hg.inv).then_pure fun b _ _ hp => ⟨_, rfl, b, rfl, bssPage_of_newPage hp⟩
      refine hpage.bind fun phys v₁ hg₁ ⟨b, hphys, hb⟩ => ?_
      rw [hphys]
      refine (createVmregion_spec hg₁.inv ..).then_pure fun vm v₂ hg₂ hvm => ⟨_, rfl, ?_⟩
      refine ((hd.later hg₁).later hg₂).add hload (fun _ _ ha => ha.cons b) ?_ fun b' hb' => ?_
      · refine areaOf_eq hvm.1 (fun _ => ⟨b, List.mem_cons_self .., rfl⟩) fun h => absurd hfile h
      · rcases List.mem_cons.mp hb' with rfl | hb'
        · exact ⟨(hb.fresh.earlier hg).later hg₂, (hb.later hg₂).zero, hb.aligned, hb.fits⟩
        · exact ((hd.bss b' hb').later hg₁).later hg₂
    · rw [if_neg hfile, Outcome.bind_ok]
      have harea := createVmregion_spec hg.inv (hdr n).vaddr (u32 ((hdr n).vaddr + (hdr n).memsz))
        (pa (u32 (elf + (hdr n).offset))) (hdr n).flags vmaReg
      refine (harea.then_pure fun vm v₁ hg₁ hvm => ⟨_, rfl, ?_⟩).grow (Nat.le_add_right 1 1)
      refine (hd.later hg₁).add hload (fun _ _ ha => ha) ?_ (hd.later hg₁).bss
      exact areaOf_eq hvm.1 (fun h => absurd h hfile) fun _ => rfl
  · rw [if_neg hload]
    exact (Allocates.pure hg.inv (hd.skip hload)).grow (Nat.zero_le 2)

theorem loadSegments_spec (hi : v.Inv L) {ph : ℕ}
    (hhdr : ∀ v', Grows L (2 * n) v v' → ∀ i < n, phdrAt v'.heap.mem ph i = hdr i) :
    Allocates L (2 * n) v (loadSegments elf ph n v.heap) fun s v' =>
      SegmentsDone L v v' elf hdr n s := by
  induction n with
  | zero =>
    refine .pure hi ⟨fun i hi => absurd hi (Nat.not_lt_zero i), fun vm hm => ?_, fun b hb => ?_⟩
    · exact absurd hm List.not_mem_nil
    · exact absurd hb List.not_mem_nil
  | succ n ih =>
    have hle : 2 * n ≤ 2 * (n + 1) := Nat.mul_le_mul_left 2 (Nat.le_succ n)
    refine (ih fun v' hg i hi => hhdr v' (hg.mono hle) i (Nat.lt_succ_of_lt hi)).bind
      fun s v₁ hg₁ hd => ?_
    rw [hhdr v₁ (hg₁.mono hle) n (Nat.lt_succ_self n)]
    exact loadSegment_spec hg₁ hd

end Load

def header (m : Memory) (elf i : ℕ) : Phdr := phdrAt m (u32 (elf + ePhoff m elf)) i

structure ImageAt (m : Memory) (elf len : ℕ) : Prop where
  fits : elf + len ≤ 2 ^ 32
  ehdr : sizeofEhdr ≤ len
  phdrs : ePhoff m elf + sizeofPhdr * ePhnum m elf ≤ len

structure LoadDone (L : Layout) (v v' : HeapView) (elf : ℕ) (r : Loaded) : Prop where
  segments : ∃ s stack, SegmentsDone L v v' elf (header v.heap.mem elf) (ePhnum v.heap.mem elf) s ∧
    r.bss = s.bss ∧ r.thread.mem.vmAreas = s.areas ++ [stack] ∧
      stack.toVMArea = ⟨userStackTop - pageSize, userStackTop, pa r.thread.userStackBot⟩
  stack : Fresh L v v' (blockAt r.thread.userStackBot 0)
  stackPage : ∃ p, r.thread.userStackBot = pageAddr p
  fits : r.thread.userStackBot + 4096 ≤ 2 ^ 32

section Image
variable {L : Layout} {v v' : HeapView} {elf len k a w i : ℕ} {kernelPageDirectory : Entries}

theorem load_kept (hg : Grows L k v v') (hs : ∀ x, a ≤ x → x < a + w → Settled L v x) :
    ByteMemory.load (2 ^ 32) v'.heap.mem w a = ByteMemory.load (2 ^ 32) v.heap.mem w a := by
  refine load_congr fun x hx hx' => ?_
  have hset := hs x hx hx'
  rw [Nat.mod_eq_of_lt hset.word]
  exact hg.kept x hset

variable (him : ImageAt v.heap.mem elf len) (hset : ∀ a, elf ≤ a → a < elf + len → Settled L v a)
include him hset

theorem ehdr_kept (hg : Grows L k v v') : eEntry v'.heap.mem elf = eEntry v.heap.mem elf ∧
    ePhoff v'.heap.mem elf = ePhoff v.heap.mem elf ∧ ePhnum v'.heap.mem elf = ePhnum v.heap.mem elf := by
  have hfits := him.fits
  have hlen : 52 ≤ len := him.ehdr
  have hword : ∀ c w, c + w ≤ 52 → ByteMemory.load (2 ^ 32) v'.heap.mem w (u32 (elf + c)) =
      ByteMemory.load (2 ^ 32) v.heap.mem w (u32 (elf + c)) := by
    intro c w hc
    by_cases hw : w = 0
    · rw [hw]
      rfl
    · rw [u32, Nat.mod_eq_of_lt (by omega)]
      exact load_kept hg fun x hx hx' => hset x (by omega) (by omega)
  exact ⟨hword 24 4 (by decide), hword 28 4 (by decide), hword 44 2 (by decide)⟩

theorem phdr_kept (hg : Grows L k v v') (hi : i < ePhnum v.heap.mem elf) :
    phdrAt v'.heap.mem (u32 (elf + ePhoff v.heap.mem elf)) i = header v.heap.mem elf i := by
  have hfits := him.fits
  have htable := him.phdrs
  have hturn : sizeofPhdr * i + sizeofPhdr ≤ sizeofPhdr * ePhnum v.heap.mem elf :=
    Nat.mul_le_mul_left sizeofPhdr hi
  unfold sizeofPhdr at htable hturn
  have hbase : u32 (elf + ePhoff v.heap.mem elf) = elf + ePhoff v.heap.mem elf := by
    unfold u32
    omega
  have hword : ∀ c, c + 4 ≤ 32 →
      load32 v'.heap.mem (u32 (elf + ePhoff v.heap.mem elf + 32 * i + c)) =
        load32 v.heap.mem (u32 (elf + ePhoff v.heap.mem elf + 32 * i + c)) := by
    intro c hc
    rw [u32, Nat.mod_eq_of_lt (by omega)]
    exact load_kept hg fun x hx hx' => hset x (by omega) (by omega)
  unfold header phdrAt sizeofPhdr
  rw [hbase]
  simp only [Phdr.mk.injEq]
  exact ⟨hword 0 (by decide), hword 4 (by decide), hword 8 (by decide), hword 16 (by decide),
    hword 20 (by decide), hword 24 (by decide)⟩

theorem loadElf_spec (hi : v.Inv L) :
    Allocates L (2 * ePhnum v.heap.mem elf + 7) v (loadElf kernelPageDirectory elf v.heap)
      fun r v' => LoadDone L v v' elf r := by
  have hsum : 2 * ePhnum v.heap.mem elf + 7 = 2 + (2 * ePhnum v.heap.mem elf + (4 + 1)) := by omega
  rw [hsum]
  refine (newMemDesc_spec hi kernelPageDirectory).bind fun mem v₁ hg₁ hmem => ?_
  obtain ⟨-, hoff₁, hnum₁⟩ := ehdr_kept him hset hg₁
  dsimp only
  rw [hoff₁, hnum₁]
  have hsegs := @loadSegments_spec L v₁ elf (ePhnum v.heap.mem elf) (header v.heap.mem elf) hg₁.inv
    (u32 (elf + ePhoff v.heap.mem elf)) fun v' hg i hi => phdr_kept him hset (hg₁.trans hg) hi
  refine hsegs.bind fun s v₂ hg₂ hd => ?_
  refine (createUserThread_spec hg₂.inv (by decide)).bind fun t v₃ hg₃ ht => ?_
  refine (createVmregion_spec hg₃.inv ..).then_pure fun stack v₄ hg₄ hstack => ⟨_, rfl, ?_⟩
  have hlater := hg₃.trans hg₄
  have hd' := hd.later hlater
  have hfresh := (ht.fresh.earlier (hg₁.trans hg₂)).later hg₄
  obtain ⟨p, hp, -⟩ := ht.userStack
  refine ⟨⟨s, stack, ⟨hd'.area, hd'.only, fun b hb => ?_⟩, rfl, ?_, hstack.1⟩, hfresh, ⟨p, hp⟩,
    ht.fits⟩
  · have hb := hd'.bss b hb
    exact ⟨hb.fresh.earlier hg₁, hb.zero, hb.aligned, hb.fits⟩
  · show t.mem.vmAreas ++ [stack] = _
    rw [ht.desc, hmem, List.nil_append]

end Image

end X86Osdev.Kernel

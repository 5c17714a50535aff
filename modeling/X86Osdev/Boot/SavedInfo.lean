import X86Osdev.Boot.UsableMemory
import X86Osdev.Mem.BootMemory
import X86Osdev.Mem.Vma

/-! The copy of the boot information that `save_multiboot2_info` makes, and the walks over it. -/

namespace X86Osdev.Boot
open X86Osdev.Lib X86Osdev.Mem ByteMemory TracedReads

/-- `save_multiboot2_info`: the length is read as a half word. -/
def saveMultiboot2Info (addr magic : ℕ) (m : Memory) (freeMemAddr : ℕ) :
    KMultiBoot2Info × Memory × ℕ :=
  let size := load (2 ^ 32) m 2 addr
  let (info, freeMemAddr) := bootAlloc size true freeMemAddr
  (⟨info, magic⟩, memcopy addr info size m, freeMemAddr)

def kStackSize : ℕ := 0x4000

/-- `_stack_address` of meminit.asm, where `init_memory_ptrs` sets `free_mem_addr`: behind the structure of `size`
bytes and the stack of the kernel. -/
def stackAddress (addr size : ℕ) : ℕ :=
  let ecx := u32 (addr + size + kStackSize)
  if ecx &&& 0x00000FFF = 0 then ecx else u32 ((ecx &&& 0xFFFFF000) + 0x1000)

/-- The end of what the seven page tables of meminit.asm map at `KERNEL_VIRTUAL_BASE`. -/
def bootMappingEnd : ℕ := kernelVirtualAddressBase + 7 * 0x400000

/-- A structure at the address that meminit.asm passes; it and its copy are mapped. -/
structure SaveStart (m : Memory) (addr : ℕ) (tags : List BootTag) : Prop where
  info : BootInfo m addr tags
  kernel : kernelVirtualAddressBase ≤ addr
  mapped : addr + load32 m addr ≤ bootMappingEnd
  room : stackAddress addr (load32 m addr) + load (2 ^ 32) m 2 addr ≤ bootMappingEnd

/-- The turns of `getModule`. -/
def moduleTurn (t : BootTag) (a : ℕ) (_ : Option ℕ) : Turn (Option ℕ) :=
  if t.type = multibootTagTypeModule then .ret (some a) else .next none

/-- The walks over the saved structure come to the same tags, and read the `size` bytes of the copy only. -/
structure WalksSaved (m : Memory) (info : KMultiBoot2Info) (size total : ℕ) (tags : List BootTag) :
    Prop where
  copied : TagsAt m (info.info + 8) tags (info.info + total)
  parse : ∃ maxMemAddress, Gives m (Set.Ico info.info (info.info + size)) (parseTags info)
    (maxMemAddress, tagAddrs (info.info + 8) tags)
  module : Gives m (Set.Ico info.info (info.info + size)) (getModule info)
    (walk moduleTurn (info.info + 8) tags none)
  print : ∀ onlyMem, ∃ s, Gives m (Set.Ico info.info (info.info + size)) (printTags info onlyMem)
      (s, tagAddrs (info.info + 8) tags) ∧
    Gives m (Set.Ico info.info (info.info + size)) (printMultibootInfo info onlyMem)
      (if info.magic = multiboot2BootloaderMagic then some s else none)

section Walks
variable {m : Memory} {a b e x y n size : ℕ} {t : BootTag} {tags : List BootTag} {P : Set ℕ}

theorem moduleTag_gives (t : BootTag) (b : ℕ) (s : Option ℕ) :
    Gives m P (moduleTag t.type b s) (moduleTurn t b s) := by
  unfold moduleTag moduleTurn
  by_cases ht : t.type = multibootTagTypeModule
  · rw [if_pos ht, if_pos ht]
    exact gives_pure
  · rw [if_neg ht, if_neg ht]
    exact gives_pure

theorem BootInfo.getModule (h : BootInfo m a tags) (magic : ℕ) :
    Gives m (Set.Ico a (a + load32 m a)) (getModule ⟨a, magic⟩) (walk moduleTurn (a + 8) tags none) := by
  have hlength := h.tags.length_le
  have hfits := h.fits
  change Gives m _ (tagLoop moduleTag (2 ^ 32) (u32 (a + 8)) none) _
  rw [u32, Nat.mod_eq_of_lt (by omega)]
  refine tagLoop_gives (fun t b s _ _ _ => moduleTag_gives t b s) h.tags h.fits
    (Set.Ico_subset_Ico (Nat.le_add_right a 8) le_rfl) ?_
  omega

theorem readWords_gives (hP : Set.Ico a e ⊆ P) (he : e ≤ 2 ^ 32) (ha : a ≤ x) (hx : x + 4 * n ≤ e) :
    Gives m P (readWords n x) () := by
  induction n generalizing x with
  | zero => exact gives_pure
  | succ n ih => exact Gives.bind (gives_read32 hP he ha (by omega)) (ih (by omega) (by omega))

theorem readString_gives (hP : Set.Ico a e ⊆ P) (he : e < 2 ^ 32) (ha : a ≤ x) (h : StringAt m x e) :
    Gives m P (readString (2 ^ 32) (u32 x)) () := by
  obtain ⟨y, hxy, hye, hzero⟩ := h
  have hall : ∀ k n x, y = x + k → k < n → a ≤ x → Gives m P (readString n x) () := by
    intro k
    induction k with
    | zero =>
      intro n x hy hn hax
      obtain ⟨n, rfl⟩ : ∃ j, n = j + 1 := ⟨n - 1, by omega⟩
      obtain rfl : y = x := hy
      have hbyte : load (2 ^ 32) m 1 y = 0 := by
        rw [load, load, Nat.mod_eq_of_lt (by omega), hzero]
        rfl
      unfold readString
      refine Gives.bind (gives_read (Ico_subset hP hax hye)) ?_
      rw [if_pos hbyte]
      exact gives_pure
    | succ k ih =>
      intro n x hy hn hax
      obtain ⟨n, rfl⟩ : ∃ j, n = j + 1 := ⟨n - 1, by omega⟩
      unfold readString
      refine Gives.bind (gives_read (Ico_subset hP hax (by omega))) ?_
      split
      · exact gives_pure
      · rw [u32, Nat.mod_eq_of_lt (by omega)]
        exact ih n (x + 1) (by omega) (by omega) (by omega)
  rw [u32, Nat.mod_eq_of_lt (by omega)]
  exact hall (y - x) (2 ^ 32) x (by omega) (by omega) ha

theorem unlessOnlyMem_gives {c : Traced Unit} (onlyMem : Bool) (h : Gives m P c ()) :
    Gives m P (unlessOnlyMem onlyMem c) () := by
  unfold unlessOnlyMem
  split
  · exact gives_pure
  · exact h

theorem printEntry_gives {e : MmapEntry} (he : EntryAt m b e) (hb : b + 24 ≤ 2 ^ 32)
    (hP : Set.Ico b (b + 24) ⊆ P) (s : MemSizes) :
    Gives m P (printEntry b s) (s.add e.type e.len) := by
  obtain ⟨-, hlen, htype⟩ := he
  refine Gives.bind (gives_read (Ico_subset hP le_rfl (by omega))) ?_
  refine Gives.bind (gives_read64 hP hb (by omega) (by omega)) ?_
  refine Gives.bind (gives_read32 hP hb (by omega) (by omega)) ?_
  rw [hlen, htype]
  exact gives_pure

def addEntries (t : BootTag) (s : MemSizes) : MemSizes :=
  t.entries.foldl (fun s e => s.add e.type e.len) s

theorem printContent_gives (onlyMem : Bool) (h : TagAt m b t) (hb : b + t.size < 2 ^ 32)
    (hP : Set.Ico b (b + t.size) ⊆ P) (s : MemSizes) :
    Gives m P (printContent onlyMem t.type b s) (addEntries t s) := by
  cases t with
  | mmap entrySize entries =>
    obtain ⟨-, hsize, hentry, hmin, hentries⟩ := h
    change b + (16 + entrySize * entries.length) < 2 ^ 32 at hb
    have hcount : entries.length ≤ entrySize * entries.length := Nat.le_mul_of_pos_left _ (by omega)
    have hloop := hentries.gives (fun e b s he hb hP => printEntry_gives he hb hP s) (n := 2 ^ 32)
      (s := s) hsize hentry hmin (by omega) le_rfl hb hP (by omega)
    change Gives m P (mmapLoop printEntry b (2 ^ 32) (u32 (b + 16)) s) _
    rw [u32, Nat.mod_eq_of_lt (by omega)]
    exact hloop
  | other type size =>
    obtain ⟨-, -, -, -, hmmap, hmodule, hstring, hmeminfo, hbootdev⟩ := h
    change b + size < 2 ^ 32 at hb
    change Set.Ico b (b + size) ⊆ P at hP
    change Gives m P (printContent onlyMem type b s) s
    unfold printContent
    split
    · next ht =>
      have hs := hmodule ht
      obtain ⟨y, hy, hy', -⟩ := id hs
      refine Gives.bind (readWords_gives hP hb.le (by omega) (by omega)) ?_
      exact Gives.bind (readString_gives hP hb (by omega) hs) gives_pure
    · split
      · next ht =>
        exact Gives.bind (unlessOnlyMem_gives onlyMem
          (readString_gives hP hb (by omega) (hstring ht))) gives_pure
      · split
        · next ht =>
          have hs := hmeminfo ht
          exact Gives.bind (unlessOnlyMem_gives onlyMem
            (readWords_gives hP hb.le (by omega) (by omega))) gives_pure
        · split
          · next ht =>
            have hs := hbootdev ht
            exact Gives.bind (unlessOnlyMem_gives onlyMem
              (readWords_gives hP hb.le (by omega) (by omega))) gives_pure
          · exact gives_pure

theorem printTag_gives (onlyMem : Bool) (h : TagAt m b t) (hb : b + t.size < 2 ^ 32)
    (hP : Set.Ico b (b + t.size) ⊆ P) (s : MemSizes) :
    Gives m P (printTag onlyMem t.type b s) (.next (addEntries t s)) := by
  have hsize := h.le_size
  refine Gives.bind (unlessOnlyMem_gives onlyMem
    (readWords_gives hP hb.le (by omega) (by omega))) ?_
  exact Gives.bind (printContent_gives onlyMem h hb hP s) gives_pure

theorem TagsAt.last (h : TagsAt m a tags e) : (tagAddrs a tags).getLast?.getD 0 + 8 = e := by
  induction tags generalizing a with
  | nil => exact h.2.2.symm
  | cons t ts ih =>
    rw [← ih h.2, tagAddrs, List.getLast?_cons]
    cases ts <;> rfl

theorem BootInfo.printTags (h : BootInfo m a tags) (magic : ℕ) (onlyMem : Bool) :
    Gives m (Set.Ico a (a + load32 m a)) (printTags ⟨a, magic⟩ onlyMem)
      (tags.foldl (fun s t => addEntries t s) ⟨0, 0⟩, tagAddrs (a + 8) tags) := by
  have hlength := h.tags.length_le
  have hlast := h.tags.last
  have hfits := h.fits
  have hloop : Gives m (Set.Ico a (a + load32 m a))
      (tagLoop (printTag onlyMem) (2 ^ 32) (u32 (a + 8)) ⟨0, 0⟩)
      (tags.foldl (fun s t => addEntries t s) ⟨0, 0⟩, tagAddrs (a + 8) tags) := by
    rw [← walk_next addEntries, u32, Nat.mod_eq_of_lt (by omega)]
    refine tagLoop_gives (fun t b s ht hb hP => printTag_gives onlyMem ht hb hP s) h.tags h.fits
      (Set.Ico_subset_Ico (Nat.le_add_right a 8) le_rfl) ?_
    omega
  have hread : ∀ x, a ≤ x → x + 4 ≤ a + load32 m a →
      Gives m (Set.Ico a (a + load32 m a)) (read32 (u32 x)) (load32 m x) :=
    fun x hx hx' => gives_read32 le_rfl hfits hx hx'
  refine Gives.bind (hread a le_rfl (by omega)) ?_
  refine Gives.bind hloop ?_
  exact Gives.bind (hread _ (by omega) (by omega)) gives_pure

theorem tagLoop_reads {σ : Type} {body : ℕ → ℕ → σ → Traced (Turn σ)} {s s' : σ} {visited : List ℕ}
    (h : Gives m P (tagLoop body n a s) (s', visited)) : ∀ x ∈ visited, Set.Ico x (x + 4) ⊆ P := by
  induction n generalizing a s s' visited with
  | zero => exact absurd h not_gives_never
  | succ n ih =>
    unfold tagLoop at h
    obtain ⟨type, hread, hrest⟩ := h.bind_inv
    have hfirst := hread.read_inv.2
    split at hrest
    · obtain ⟨-, rfl⟩ := Prod.mk.inj hrest.pure_inv
      exact fun x hx => List.mem_singleton.mp hx ▸ hfirst
    · obtain ⟨turn, -, hturn⟩ := hrest.bind_inv
      cases turn with
      | ret s₁ =>
        obtain ⟨-, rfl⟩ := Prod.mk.inj (Gives.pure_inv hturn)
        exact fun x hx => List.mem_singleton.mp hx ▸ hfirst
      | next s₁ =>
        obtain ⟨size, -, hsize⟩ := Gives.bind_inv hturn
        obtain ⟨⟨s₂, visited₂⟩, hloop, hlast⟩ := hsize.bind_inv
        obtain ⟨-, rfl⟩ := Prod.mk.inj (Gives.pure_inv hlast)
        intro x hx
        obtain rfl | hx := List.mem_cons.mp hx
        · exact hfirst
        · exact ih hloop x hx

end Walks

section Copy
variable {m m' : Memory} {addr info o total : ℕ} {tags : List BootTag} {t : BootTag}

def CopyOf (m m' : Memory) (addr info total : ℕ) : Prop :=
  ∀ i < total, m' (info + i) = m (addr + i)

theorem CopyOf.load (h : CopyOf m m' addr info total) (ha : addr + total ≤ 2 ^ 32)
    (hi : info + total ≤ 2 ^ 32) {w : ℕ} (ho : o + w ≤ total) :
    load (2 ^ 32) m' w (info + o) = load (2 ^ 32) m w (addr + o) := by
  refine load_shift fun i hw => ?_
  rw [Nat.mod_eq_of_lt (by omega), Nat.mod_eq_of_lt (by omega), Nat.add_assoc, Nat.add_assoc]
  exact h (o + i) (by omega)

theorem CopyOf.entries (h : CopyOf m m' addr info total) (ha : addr + total ≤ 2 ^ 32)
    (hi : info + total ≤ 2 ^ 32) {es : List MmapEntry} {entrySize : ℕ} (hmin : 24 ≤ entrySize)
    (ho : o + entrySize * es.length ≤ total) (he : EntriesAt m entrySize (addr + o) es) :
    EntriesAt m' entrySize (info + o) es := by
  induction es generalizing o with
  | nil => trivial
  | cons e es ih =>
    rw [List.length_cons, Nat.mul_succ] at ho
    obtain ⟨⟨haddr, hlen, htype⟩, hrest⟩ := he
    rw [Nat.add_assoc] at hlen htype hrest
    refine ⟨⟨?_, ?_, ?_⟩, ?_⟩
    · rw [h.load ha hi (by omega), ← haddr]
    · rw [Nat.add_assoc, h.load ha hi (by omega), ← hlen]
    · rw [Nat.add_assoc]
      exact (h.load ha hi (by omega)).trans htype
    · rw [Nat.add_assoc]
      exact ih (by omega) hrest

theorem CopyOf.string (h : CopyOf m m' addr info total) {k l : ℕ} (hl : o + l ≤ total)
    (hs : StringAt m (addr + o + k) (addr + o + l)) : StringAt m' (info + o + k) (info + o + l) := by
  obtain ⟨x, hkx, hxl, hzero⟩ := hs
  refine ⟨info + (x - addr), by omega, by omega, ?_⟩
  rw [h (x - addr) (by omega), ← hzero]
  exact congrArg m (by omega)

theorem CopyOf.tag (h : CopyOf m m' addr info total) (ha : addr + total ≤ 2 ^ 32)
    (hi : info + total ≤ 2 ^ 32) (ho : o + t.size ≤ total) (ht : TagAt m (addr + o) t) :
    TagAt m' (info + o) t := by
  have hload : ∀ k, k + 4 ≤ t.size → load32 m' (info + o + k) = load32 m (addr + o + k) := by
    intro k hk
    rw [Nat.add_assoc, Nat.add_assoc]
    exact h.load ha hi (by omega)
  have hmin := ht.le_size
  cases t with
  | mmap entrySize entries =>
    obtain ⟨htype, hsize, hentry, h24, hentries⟩ := ht
    change o + (16 + entrySize * entries.length) ≤ total at ho
    rw [Nat.add_assoc] at hentries
    refine ⟨(hload 0 (by omega)).trans htype, (hload 4 hmin).trans hsize,
      (hload 8 (Nat.le_add_right_of_le (by omega))).trans hentry, h24, ?_⟩
    rw [Nat.add_assoc]
    exact h.entries ha hi h24 (by omega) hentries
  | other type size =>
    obtain ⟨htype, hsize, h8, hend, hmmap, hmodule, hstring, hrest⟩ := ht
    exact ⟨(hload 0 (by omega)).trans htype, (hload 4 hmin).trans hsize, h8, hend, hmmap,
      fun e => h.string ho (hmodule e), fun e => h.string ho (hstring e), hrest⟩

theorem CopyOf.tagsAt (h : CopyOf m m' addr info total) (ha : addr + total ≤ 2 ^ 32)
    (hi : info + total ≤ 2 ^ 32) (ht : TagsAt m (addr + o) tags (addr + total)) :
    TagsAt m' (info + o) tags (info + total) := by
  have hle := ht.le
  induction tags generalizing o with
  | nil =>
    obtain ⟨htype, hsize, he⟩ := ht
    rw [Nat.add_assoc] at hsize
    refine ⟨?_, ?_, by omega⟩
    · exact (h.load ha hi (by omega)).trans htype
    · rw [Nat.add_assoc]
      exact (h.load ha hi (by omega)).trans hsize
  | cons t ts ih =>
    obtain ⟨htag, hts⟩ := ht
    have hstride := size_le_stride t
    have hnext := hts.le
    rw [Nat.add_assoc] at hts
    refine ⟨h.tag ha hi (by omega) htag, ?_⟩
    rw [Nat.add_assoc]
    exact ih hts hts.le

theorem CopyOf.bootInfo (h : CopyOf m m' addr info (load32 m addr)) (hb : BootInfo m addr tags)
    (hi : info + load32 m addr ≤ 2 ^ 32) :
    load32 m' info = load32 m addr ∧ BootInfo m' info tags := by
  have hle := hb.tags.le
  have htotal : load32 m' info = load32 m addr := h.load (o := 0) hb.fits hi (by omega)
  refine ⟨htotal, ?_, ?_⟩
  · rw [htotal]
    exact h.tagsAt hb.fits hi hb.tags
  · rw [htotal]
    exact hi

end Copy

section Saved
variable {m : Memory} {addr size : ℕ} {tags : List BootTag}

theorem load_half (m : Memory) (addr : ℕ) : load (2 ^ 32) m 2 addr = load32 m addr % 2 ^ 16 := by
  have hlow := load_lt (N := 2 ^ 32) m 2 addr
  have hsplit : load32 m addr = load (2 ^ 32) m 2 addr + 2 ^ 16 * load (2 ^ 32) m 2 (addr + 1 + 1) := by
    unfold load32 load load load load load
    omega
  omega

theorem stackAddress_spec (h : addr + size ≤ bootMappingEnd) : addr + size + kStackSize ≤ stackAddress addr size ∧
    stackAddress addr size < addr + size + kStackSize + 0x1000 ∧ stackAddress addr size % 0x1000 = 0 := by
  change addr + size ≤ 0xC1C00000 at h
  have hecx : u32 (addr + size + kStackSize) = addr + size + 0x4000 := Nat.mod_eq_of_lt (by unfold kStackSize; omega)
  have hlow : (addr + size + 0x4000) &&& 0x00000FFF = (addr + size + 0x4000) % 0x1000 :=
    Nat.and_two_pow_sub_one_eq_mod _ 12
  have hhigh : (addr + size + 0x4000) &&& 0xFFFFF000 = (addr + size + 0x4000) / 0x1000 * 0x1000 :=
    Masks.and_mask (w := 32) (k := 12) (by omega) (by decide)
  unfold stackAddress
  dsimp only
  rw [hecx, hlow, hhigh]
  unfold u32 kStackSize
  split
  · omega
  · omega

theorem SaveStart.room_spec (h : SaveStart m addr tags) :
    addr + load32 m addr ≤ (bootAlloc (load (2 ^ 32) m 2 addr) true (stackAddress addr (load32 m addr))).1 ∧
      (bootAlloc (load (2 ^ 32) m 2 addr) true (stackAddress addr (load32 m addr))).1 + load (2 ^ 32) m 2 addr ≤
        bootMappingEnd := by
  obtain ⟨hge, -, halign⟩ := stackAddress_spec h.mapped
  have hsame : (bootAlloc (load (2 ^ 32) m 2 addr) true (stackAddress addr (load32 m addr))).1 =
      stackAddress addr (load32 m addr) := by
    unfold bootAlloc
    simp [halign]
  rw [hsame]
  exact ⟨(Nat.le_add_right _ _).trans hge, h.room⟩

theorem SaveStart.copyOf (h : SaveStart m addr tags) (magic : ℕ) :
    CopyOf m (saveMultiboot2Info addr magic m (stackAddress addr (load32 m addr))).2.1 addr
      (saveMultiboot2Info addr magic m (stackAddress addr (load32 m addr))).1.info (load (2 ^ 32) m 2 addr) := by
  obtain ⟨hge, hend⟩ := h.room_spec
  have hhalf := load_half m addr
  change _ ≤ 0xC1C00000 at hend
  intro i hi
  change memcopy addr (bootAlloc (load (2 ^ 32) m 2 addr) true _).1 _ m
    ((bootAlloc (load (2 ^ 32) m 2 addr) true _).1 + i) = m (addr + i)
  rw [memcopy_apply (by omega) (by omega) (by omega), if_pos (by omega), Nat.add_sub_cancel_left]

/-- The end tag of a structure of 64 KiB or more is behind the copy. -/
theorem WalksSaved.short {magic freeMemAddr : ℕ}
    (hw : WalksSaved (saveMultiboot2Info addr magic m freeMemAddr).2.1
      (saveMultiboot2Info addr magic m freeMemAddr).1 (load (2 ^ 32) m 2 addr) (load32 m addr) tags) :
    load32 m addr < 2 ^ 16 := by
  obtain ⟨hcopied, ⟨maxMemAddress, hparse⟩, -, -⟩ := hw
  have hlast := hcopied.last
  have hle := hcopied.le
  have hhalf := load_half m addr
  generalize (saveMultiboot2Info addr magic m freeMemAddr).1 = info at *
  have hmem : (tagAddrs (info.info + 8) tags).getLast?.getD 0 ∈ tagAddrs (info.info + 8) tags := by
    cases tags with
    | nil => exact List.mem_singleton.mpr rfl
    | cons t ts =>
      rw [tagAddrs, List.getLast?_eq_some_getLast (List.cons_ne_nil _ _)]
      exact List.getLast_mem _
  have hread := tagLoop_reads hparse _ hmem
    (Set.left_mem_Ico.mpr (Nat.lt_add_of_pos_right (by decide)))
  rw [Set.mem_Ico] at hread
  omega

/-- `printMultibootInfo` looks at the magic number first. -/
theorem printMultibootInfo_gives {P : Set ℕ} {info : KMultiBoot2Info} {onlyMem : Bool} {s : MemSizes}
    {visited : List ℕ} (h : Gives m P (printTags info onlyMem) (s, visited)) :
    Gives m P (printMultibootInfo info onlyMem)
      (if info.magic = multiboot2BootloaderMagic then some s else none) := by
  unfold printMultibootInfo
  by_cases hmagic : info.magic = multiboot2BootloaderMagic
  · rw [if_neg (not_not.mpr hmagic), if_pos hmagic]
    exact Gives.bind h gives_pure
  · rw [if_pos hmagic, if_neg hmagic]
    exact gives_pure

/-- The copy of a well-formed structure is walked like the structure exactly if its size fits a half word. -/
theorem saved_info (h : SaveStart m addr tags) (magic : ℕ) :
    WalksSaved (saveMultiboot2Info addr magic m (stackAddress addr (load32 m addr))).2.1
      (saveMultiboot2Info addr magic m (stackAddress addr (load32 m addr))).1 (load (2 ^ 32) m 2 addr)
      (load32 m addr) tags ↔ load32 m addr < 2 ^ 16 := by
  refine ⟨WalksSaved.short, fun hlt => ?_⟩
  have hhalf : load (2 ^ 32) m 2 addr = load32 m addr := by
    rw [load_half, Nat.mod_eq_of_lt hlt]
  have hcopy := h.copyOf magic
  have hend : (saveMultiboot2Info addr magic m (stackAddress addr (load32 m addr))).1.info + load32 m addr ≤
      2 ^ 32 := by
    have hroom := h.room_spec.2
    rw [hhalf] at hroom
    refine Nat.le_trans ?_ (Nat.le_trans hroom (by decide))
    rw [← hhalf]
    exact le_rfl
  rw [hhalf] at hcopy ⊢
  obtain ⟨htotal, hinfo⟩ := hcopy.bootInfo h.info hend
  have hcopied := hinfo.tags
  have hparse := hinfo.parseTags magic
  have hmodule := hinfo.getModule magic
  have hprint := hinfo.printTags magic
  rw [htotal] at hcopied hparse hmodule
  refine ⟨hcopied, ⟨_, hparse⟩, hmodule, fun onlyMem => ?_⟩
  have hone := hprint onlyMem
  rw [htotal] at hone
  exact ⟨_, hone, printMultibootInfo_gives hone⟩

def mapInfo : Memory := memoryOf 0xC0400000 (infoWords 0x40000000)

theorem mapInfo_start : SaveStart mapInfo 0xC0400000 [.mmap 24 (memoryMap 0x40000000)] where
  info := ⟨⟨⟨by decide +kernel, by decide +kernel, by decide +kernel, by decide,
    ⟨by decide +kernel, by decide +kernel, by decide +kernel⟩,
    ⟨by decide +kernel, by decide +kernel, by decide +kernel⟩, trivial⟩,
    by decide +kernel, by decide +kernel, by decide +kernel⟩, by decide +kernel⟩
  kernel := by decide
  mapped := by decide +kernel
  room := by decide +kernel

theorem saved_info_map :
    WalksSaved (saveMultiboot2Info 0xC0400000 multiboot2BootloaderMagic mapInfo 0xC0405000).2.1
      (saveMultiboot2Info 0xC0400000 multiboot2BootloaderMagic mapInfo 0xC0405000).1
      (load (2 ^ 32) mapInfo 2 0xC0400000) (load32 mapInfo 0xC0400000) [.mmap 24 (memoryMap 0x40000000)] := by
  have hstack : stackAddress 0xC0400000 (load32 mapInfo 0xC0400000) = 0xC0405000 := by decide +kernel
  have hw := (saved_info mapInfo_start multiboot2BootloaderMagic).mpr (by decide +kernel)
  rwa [hstack] at hw

/-- A structure with one tag of 64 KiB, the section headers of a kernel. -/
def bigInfo : Memory := fun x =>
  .ofNat ((match (x - 0xC0400000) / 4 with
    | 0 => 65552
    | 2 => 9
    | 3 => 65536
    | 16387 => 8
    | _ => 0) / 256 ^ ((x - 0xC0400000) % 4))

theorem bigInfo_start : SaveStart bigInfo 0xC0400000 [.other 9 65536] where
  info := ⟨⟨⟨by decide +kernel, by decide +kernel, by decide, by decide, by decide,
    fun e => absurd e (by decide), fun e => absurd e (by decide), by decide, by decide⟩,
    by decide +kernel, by decide +kernel, by decide +kernel⟩, by decide +kernel⟩
  kernel := by decide
  mapped := by decide +kernel
  room := by decide +kernel

/-- Sixteen bytes of it are saved. -/
theorem bigInfo_cut : ¬ ∀ m addr tags magic, SaveStart m addr tags →
    WalksSaved (saveMultiboot2Info addr magic m (stackAddress addr (load32 m addr))).2.1
      (saveMultiboot2Info addr magic m (stackAddress addr (load32 m addr))).1 (load (2 ^ 32) m 2 addr)
      (load32 m addr) tags := by
  intro hall
  have hlt := WalksSaved.short (hall _ _ _ multiboot2BootloaderMagic bigInfo_start)
  exact absurd hlt (by decide +kernel)

end Saved

end X86Osdev.Boot

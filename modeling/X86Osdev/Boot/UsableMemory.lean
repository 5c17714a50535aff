import X86Osdev.Boot.Multiboot

/-! The amount of memory that `parse_multiboot_info` takes from the memory map. -/

namespace X86Osdev.Boot
open X86Osdev.Lib X86Osdev.Mem ByteMemory TracedReads

def highest (p : MmapEntry → Prop) [DecidablePred p] (f : MmapEntry → ℕ) (es : List MmapEntry) : ℕ :=
  ((es.filter p).map f).foldr max 0

def exactEnd (e : MmapEntry) : ℕ := e.addr + e.len

/-- What the code takes for the end of an entry. -/
def foldedEnd (e : MmapEntry) : ℕ := u32 (foldWord e.addr + foldWord e.len)

/-- The end of the available memory below 4 GiB. -/
def usableEnd (es : List MmapEntry) : ℕ :=
  highest (fun e => e.type = 1 ∧ exactEnd e < 2 ^ 32) exactEnd es

section Highest
variable {p : MmapEntry → Prop} [DecidablePred p] {f : MmapEntry → ℕ} {es : List MmapEntry} {b : ℕ}

theorem highest_le : highest p f es ≤ b ↔ ∀ e ∈ es, p e → f e ≤ b := by
  induction es with
  | nil => exact ⟨fun _ _ h => absurd h List.not_mem_nil, fun _ => Nat.zero_le b⟩
  | cons e es ih =>
    rw [List.forall_mem_cons, ← ih, highest, List.filter_cons]
    by_cases he : p e
    · rw [if_pos (decide_eq_true he), List.map_cons, List.foldr_cons, max_le_iff]
      exact and_congr_left fun _ => ⟨fun h _ => h, fun h => h he⟩
    · rw [if_neg (by rwa [decide_eq_true_iff])]
      exact ⟨fun h => ⟨fun h' => absurd h' he, h⟩, And.right⟩

theorem le_highest {e : MmapEntry} (he : e ∈ es) (hp : p e) : f e ≤ highest p f es :=
  highest_le.mp le_rfl e he hp

end Highest

section Usable
variable {m : Memory} {a : ℕ} {tags : List BootTag} {es : List MmapEntry} {e : MmapEntry}

theorem raiseMax_eq (e : MmapEntry) (s : ℕ) :
    raiseMax e.addr e.len e.type s = if e.type = 1 then max s (foldedEnd e) else s := by
  rw [raiseMax, ← foldedEnd]
  by_cases ht : e.type = 1
  · rw [if_pos ht]
    by_cases hlt : foldedEnd e > s
    · rw [if_pos ⟨ht, hlt⟩, max_eq_right hlt.le]
    · rw [if_neg (fun h => hlt h.2), max_eq_left (Nat.le_of_not_lt hlt)]
  · rw [if_neg ht, if_neg (fun h => ht h.1)]

/-- The loops find the largest folded end among the available entries. -/
theorem raiseEntries_eq (es : List MmapEntry) (s : ℕ) :
    es.foldl (fun s e => raiseMax e.addr e.len e.type s) s =
      max s (highest (fun e => e.type = 1) foldedEnd es) := by
  induction es generalizing s with
  | nil => exact (Nat.max_zero s).symm
  | cons e es ih =>
    rw [List.foldl_cons, ih, raiseMax_eq, highest, highest, List.filter_cons]
    by_cases ht : e.type = 1
    · rw [if_pos ht, if_pos (decide_eq_true ht), List.map_cons, List.foldr_cons, max_assoc]
    · rw [if_neg ht, if_neg (by rwa [decide_eq_true_iff])]

theorem foldWord_eq {x : ℕ} (hx : x < 2 ^ 32) : foldWord x = x := by
  have hlow : x &&& 0xffffffff = x := by
    rw [show 0xffffffff = 2 ^ 32 - 1 from rfl, Nat.and_two_pow_sub_one_eq_mod, Nat.mod_eq_of_lt hx]
  have hhigh : x >>> 32 = 0 := by
    rw [Nat.shiftRight_eq_div_pow, Nat.div_eq_of_lt hx]
  unfold foldWord u32
  rw [hlow, hhigh]
  omega

theorem foldedEnd_eq (h : exactEnd e < 2 ^ 32) : foldedEnd e = exactEnd e := by
  unfold exactEnd at h
  rw [foldedEnd, foldWord_eq (by omega), foldWord_eq (by omega), u32, Nat.mod_eq_of_lt h, exactEnd]

theorem highest_folded_iff : highest (fun e => e.type = 1) foldedEnd es = usableEnd es ↔
    ∀ e ∈ es, e.type = 1 → 2 ^ 32 ≤ exactEnd e → foldedEnd e ≤ usableEnd es := by
  have hge : usableEnd es ≤ highest (fun e => e.type = 1) foldedEnd es := by
    refine highest_le.mpr fun e he ⟨ht, hlt⟩ => ?_
    rw [← foldedEnd_eq hlt]
    exact le_highest (p := fun e => e.type = 1) he ht
  constructor
  · intro h e he ht _
    rw [← h]
    exact le_highest (p := fun e => e.type = 1) he ht
  · intro h
    refine le_antisymm (highest_le.mpr fun e he ht => ?_) hge
    by_cases hlt : exactEnd e < 2 ^ 32
    · rw [foldedEnd_eq hlt]
      exact le_highest (p := fun e => e.type = 1 ∧ exactEnd e < 2 ^ 32) he ⟨ht, hlt⟩
    · exact h e he ht (Nat.le_of_not_lt hlt)

theorem usableEnd_lt (es : List MmapEntry) : usableEnd es < 2 ^ 32 := by
  have h : usableEnd es ≤ 2 ^ 32 - 1 := highest_le.mpr fun e _ ⟨_, hlt⟩ => Nat.le_sub_one_of_lt hlt
  exact h.trans_lt (by decide)

/-- What `parse_multiboot_info` stores, for a structure of any tags. -/
theorem BootInfo.parse (h : BootInfo m a tags) (b : BootMmap) :
    Gives m (Set.Ico a (a + load32 m a)) (parseMultibootInfo ⟨a, multiboot2BootloaderMagic⟩ b)
      (0, ⟨highest (fun e => e.type = 1) foldedEnd (tags.flatMap BootTag.entries),
        (highest (fun e => e.type = 1) foldedEnd (tags.flatMap BootTag.entries) &&& 0xFFFFF000) /
          pageSize⟩) := by
  have hfold : tags.foldl (fun s t => raiseEntries t s) 0 =
      highest (fun e => e.type = 1) foldedEnd (tags.flatMap BootTag.entries) := by
    rw [← Nat.zero_max (highest _ _ _), ← raiseEntries_eq, List.foldl_flatMap]
    rfl
  unfold parseMultibootInfo
  rw [if_neg (fun hne => hne rfl), ← hfold]
  exact Gives.bind (h.parseTags multiboot2BootloaderMagic) gives_pure

/-- The available memory below 4 GiB is found exactly if no available entry that reaches 4 GiB has a folded
end above it. -/
theorem usable_memory (h : BootInfo m a tags) (b : BootMmap) :
    (∃ r, Gives m (Set.Ico a (a + load32 m a))
        (parseMultibootInfo ⟨a, multiboot2BootloaderMagic⟩ b) (0, r) ∧
      r.highestMemAddess = usableEnd (tags.flatMap BootTag.entries) ∧
      r.totalPages = usableEnd (tags.flatMap BootTag.entries) / 4096) ↔
    ∀ e ∈ tags.flatMap BootTag.entries, e.type = 1 → 2 ^ 32 ≤ exactEnd e →
      foldedEnd e ≤ usableEnd (tags.flatMap BootTag.entries) := by
  have hparse := h.parse b
  rw [← highest_folded_iff]
  constructor
  · rintro ⟨r, hr, hhighest, -⟩
    obtain ⟨-, rfl⟩ := Prod.mk.inj (hr.unique hparse)
    exact hhighest
  · intro heq
    rw [heq] at hparse
    refine ⟨_, hparse, rfl, ?_⟩
    have hmask : usableEnd (tags.flatMap BootTag.entries) &&& 0xFFFFF000 =
        usableEnd (tags.flatMap BootTag.entries) / 4096 * 4096 :=
      Masks.and_mask (w := 32) (k := 12) (usableEnd_lt _) (by decide)
    change (usableEnd (tags.flatMap BootTag.entries) &&& 0xFFFFF000) / 4096 = _
    rw [hmask, Nat.mul_div_cancel _ (by decide)]

end Usable

def memoryOf (base : ℕ) (words : List ℕ) : Memory :=
  fun x => .ofNat (words.getD ((x - base) / 4) 0 / 256 ^ ((x - base) % 4))

def memoryMap (above : ℕ) : List MmapEntry :=
  [⟨0x100000, 0xBFF00000, 1⟩, ⟨0x100000000, above, 1⟩]

def infoWords (above : ℕ) : List ℕ :=
  [80, 0, 6, 64, 24, 0, 0x100000, 0, 0xBFF00000, 0, 1, 0, 0, 1, above, 0, 1, 0, 0, 8]

theorem lowFold_info :
    BootInfo (memoryOf 0x10000 (infoWords 0x40000000)) 0x10000 [.mmap 24 (memoryMap 0x40000000)] where
  tags := ⟨⟨by decide +kernel, by decide +kernel, by decide +kernel, by decide,
    ⟨by decide +kernel, by decide +kernel, by decide +kernel⟩,
    ⟨by decide +kernel, by decide +kernel, by decide +kernel⟩, trivial⟩,
    by decide +kernel, by decide +kernel, by decide +kernel⟩
  fits := by decide +kernel

theorem usable_memory_lowFold : ∃ r,
    Gives (memoryOf 0x10000 (infoWords 0x40000000))
        (Set.Ico 0x10000 (0x10000 + load32 (memoryOf 0x10000 (infoWords 0x40000000)) 0x10000))
        (parseMultibootInfo ⟨0x10000, multiboot2BootloaderMagic⟩ ⟨0, 0⟩) (0, r) ∧
      r.highestMemAddess = usableEnd (memoryMap 0x40000000) ∧
      r.totalPages = usableEnd (memoryMap 0x40000000) / 4096 :=
  (usable_memory lowFold_info ⟨0, 0⟩).mpr (by decide +kernel)

theorem highFold_info :
    BootInfo (memoryOf 0x10000 (infoWords 0xF0000000)) 0x10000 [.mmap 24 (memoryMap 0xF0000000)] where
  tags := ⟨⟨by decide +kernel, by decide +kernel, by decide +kernel, by decide,
    ⟨by decide +kernel, by decide +kernel, by decide +kernel⟩,
    ⟨by decide +kernel, by decide +kernel, by decide +kernel⟩, trivial⟩,
    by decide +kernel, by decide +kernel, by decide +kernel⟩
  fits := by decide +kernel

/-- With 3.75 GiB there, the result is `0xF0000001` instead of `0xC0000000`. -/
theorem highFold_raises : ¬ ∀ m a tags, BootInfo m a tags → ∀ b, ∃ r,
    Gives m (Set.Ico a (a + load32 m a)) (parseMultibootInfo ⟨a, multiboot2BootloaderMagic⟩ b) (0, r) ∧
      r.highestMemAddess = usableEnd (tags.flatMap BootTag.entries) ∧
      r.totalPages = usableEnd (tags.flatMap BootTag.entries) / 4096 := by
  intro hall
  obtain ⟨r, hr, hhighest, -⟩ := hall _ _ _ highFold_info ⟨0, 0⟩
  obtain ⟨-, rfl⟩ := Prod.mk.inj (hr.unique (highFold_info.parse ⟨0, 0⟩))
  exact absurd hhighest (by decide +kernel)

end X86Osdev.Boot

import X86Osdev.Library.Masks
import X86Osdev.Library.TracedReads
import X86Osdev.Lib.List
import X86Osdev.Mem.Boot
import Mathlib.Order.Interval.Set.Basic

/-! The Multiboot2 information structure of boot/multiboot.h, and the loops over its tags in mem/mem.c and
lib/utils.c with what they read. -/

namespace X86Osdev.Boot
open X86Osdev.Lib X86Osdev.Mem ByteMemory TracedReads

def multibootTagTypeEnd : ℕ := 0
def multibootTagTypeCmdline : ℕ := 1
def multibootTagTypeBootLoaderName : ℕ := 2
def multibootTagTypeModule : ℕ := 3
def multibootTagTypeBasicMeminfo : ℕ := 4
def multibootTagTypeBootdev : ℕ := 5
def multibootTagTypeMmap : ℕ := 6

def multiboot2BootloaderMagic : ℕ := 0x36d76289

structure KMultiBoot2Info where
  info : ℕ
  magic : ℕ

structure BootMmap where
  highestMemAddess : ℕ
  totalPages : ℕ

def read32 (a : ℕ) : Traced ℕ := readNum (2 ^ 32) 4 a

def read64 (a : ℕ) : Traced ℕ := readNum (2 ^ 32) 8 a

/-- What a `switch` on a tag does: go on to the next one, or return. -/
inductive Turn (σ : Type) where
  | next (s : σ)
  | ret (s : σ)

/-- `(tag->size + 7) & ~7`. -/
def tagStride (size : ℕ) : ℕ := u32 (size + 7) &&& 0xFFFFFFF8

/-- The loop of the three functions, for at most `n` turns. It gives the tags that it has come to as well. -/
def tagLoop {σ : Type} (body : ℕ → ℕ → σ → Traced (Turn σ)) : ℕ → ℕ → σ → Traced (σ × List ℕ)
  | 0, _, _ => never
  | n + 1, tag, s => do
    let type ← read32 tag
    if type = multibootTagTypeEnd then pure (s, [tag])
    else
      let turn ← body type tag s
      match turn with
      | .ret s => pure (s, [tag])
      | .next s =>
        let size ← read32 (u32 (tag + 4))
        let (s, visited) ← tagLoop body n (u32 (tag + tagStride size)) s
        pure (s, tag :: visited)

def mmapLoop {σ : Type} (body : ℕ → σ → Traced σ) (tag : ℕ) : ℕ → ℕ → σ → Traced σ
  | 0, _, _ => never
  | n + 1, mmap, s => do
    let size ← read32 (u32 (tag + 4))
    if mmap < u32 (tag + size) then
      let s ← body mmap s
      let entrySize ← read32 (u32 (tag + 8))
      mmapLoop body tag n (u32 (mmap + entrySize)) s
    else pure s

/-- The two halves of a long word, added as words. -/
def foldWord (x : ℕ) : ℕ := u32 (u32 (x >>> 32) + u32 (x &&& 0xffffffff))

def raiseMax (addr len type maxMemAddress : ℕ) : ℕ :=
  if type = 1 ∧ u32 (foldWord addr + foldWord len) > maxMemAddress then
    u32 (foldWord addr + foldWord len)
  else maxMemAddress

def parseEntry (mmap maxMemAddress : ℕ) : Traced ℕ := do
  let addr ← read64 mmap
  let len ← read64 (u32 (mmap + 8))
  let type ← read32 (u32 (mmap + 16))
  pure (raiseMax addr len type maxMemAddress)

def parseTag (type tag maxMemAddress : ℕ) : Traced (Turn ℕ) :=
  if type = multibootTagTypeMmap then do
    let maxMemAddress ← mmapLoop parseEntry tag (2 ^ 32) (u32 (tag + 16)) maxMemAddress
    pure (.next maxMemAddress)
  else pure (.next maxMemAddress)

def parseTags (info : KMultiBoot2Info) : Traced (ℕ × List ℕ) :=
  tagLoop parseTag (2 ^ 32) (u32 (info.info + 8)) 0

/-- The result is an unsigned byte; without the magic `boot_mmap` stays as it is. -/
def parseMultibootInfo (info : KMultiBoot2Info) (bootMmap : BootMmap) : Traced (ℕ × BootMmap) :=
  if info.magic ≠ multiboot2BootloaderMagic then pure (255, bootMmap)
  else do
    let (maxMemAddress, _) ← parseTags info
    pure (0, ⟨maxMemAddress, (maxMemAddress &&& 0xFFFFF000) / pageSize⟩)

def moduleTag (type tag : ℕ) (_ : Option ℕ) : Traced (Turn (Option ℕ)) :=
  if type = multibootTagTypeModule then pure (.ret (some tag)) else pure (.next none)

def getModule (info : KMultiBoot2Info) : Traced (Option ℕ × List ℕ) :=
  tagLoop moduleTag (2 ^ 32) (u32 (info.info + 8)) none

def readString : ℕ → ℕ → Traced Unit
  | 0, _ => never
  | n + 1, a => do
    let byte ← readNum (2 ^ 32) 1 a
    if byte = 0 then pure () else readString n (u32 (a + 1))

structure MemSizes where
  resMemSize : ℕ
  freeMemSize : ℕ

def MemSizes.add (s : MemSizes) (type len : ℕ) : MemSizes :=
  if type = 1 then { s with freeMemSize := (s.freeMemSize + len) % 2 ^ 64 }
  else { s with resMemSize := (s.resMemSize + len) % 2 ^ 64 }

def printEntry (mmap : ℕ) (s : MemSizes) : Traced MemSizes := do
  let _ ← read64 mmap
  let len ← read64 (u32 (mmap + 8))
  let type ← read32 (u32 (mmap + 16))
  pure (s.add type len)

def readWords : ℕ → ℕ → Traced Unit
  | 0, _ => pure ()
  | n + 1, a => do
    let _ ← read32 (u32 a)
    readWords n (a + 4)

def unlessOnlyMem (onlyMem : Bool) (c : Traced Unit) : Traced Unit :=
  if onlyMem = true then pure () else c

def printContent (onlyMem : Bool) (type tag : ℕ) (s : MemSizes) : Traced MemSizes :=
  if type = multibootTagTypeModule then do
    readWords 2 (tag + 8)
    readString (2 ^ 32) (u32 (tag + 16))
    pure s
  else if type = multibootTagTypeCmdline ∨ type = multibootTagTypeBootLoaderName then do
    unlessOnlyMem onlyMem (readString (2 ^ 32) (u32 (tag + 8)))
    pure s
  else if type = multibootTagTypeBasicMeminfo then do
    unlessOnlyMem onlyMem (readWords 2 (tag + 8))
    pure s
  else if type = multibootTagTypeBootdev then do
    unlessOnlyMem onlyMem (readWords 3 (tag + 8))
    pure s
  else if type = multibootTagTypeMmap then mmapLoop printEntry tag (2 ^ 32) (u32 (tag + 16)) s
  else pure s

def printTag (onlyMem : Bool) (type tag : ℕ) (s : MemSizes) : Traced (Turn MemSizes) := do
  unlessOnlyMem onlyMem (readWords 1 (tag + 4))
  let s ← printContent onlyMem type tag s
  pure (.next s)

/-- The announced size is read first, and the size of the end tag once more after the loop. -/
def printTags (info : KMultiBoot2Info) (onlyMem : Bool) : Traced (MemSizes × List ℕ) := do
  let _ ← read32 (u32 info.info)
  let (s, visited) ← tagLoop (printTag onlyMem) (2 ^ 32) (u32 (info.info + 8)) ⟨0, 0⟩
  let _ ← read32 (u32 (visited.getLast?.getD 0 + 4))
  pure (s, visited)

def printMultibootInfo (info : KMultiBoot2Info) (onlyMem : Bool) : Traced (Option MemSizes) :=
  if info.magic ≠ multiboot2BootloaderMagic then pure none
  else do
    let (s, _) ← printTags info onlyMem
    pure (some s)

structure MmapEntry where
  addr : ℕ
  len : ℕ
  type : ℕ
deriving DecidableEq

inductive BootTag where
  | mmap (entrySize : ℕ) (entries : List MmapEntry)
  | other (type size : ℕ)
deriving DecidableEq

namespace BootTag

def type : BootTag → ℕ
  | mmap _ _ => multibootTagTypeMmap
  | other type _ => type

def size : BootTag → ℕ
  | mmap entrySize entries => 16 + entrySize * entries.length
  | other _ size => size

/-- The next tag starts at a multiple of eight. -/
def stride (t : BootTag) : ℕ := (t.size + 7) / 8 * 8

def entries : BootTag → List MmapEntry
  | mmap _ entries => entries
  | other _ _ => []

end BootTag

section Layout
variable (m : Memory)

def EntryAt (a : ℕ) (e : MmapEntry) : Prop :=
  load (2 ^ 32) m 8 a = e.addr ∧ load (2 ^ 32) m 8 (a + 8) = e.len ∧ load32 m (a + 16) = e.type

def EntriesAt (entrySize : ℕ) : ℕ → List MmapEntry → Prop
  | _, [] => True
  | a, e :: es => EntryAt m a e ∧ EntriesAt entrySize (a + entrySize) es

def StringAt (a b : ℕ) : Prop := ∃ x, a ≤ x ∧ x < b ∧ m x = 0

/-- The fields of a tag lie within its size. -/
def ContentAt (a type size : ℕ) : Prop :=
  (type = multibootTagTypeModule → StringAt m (a + 16) (a + size)) ∧
  (type = multibootTagTypeCmdline ∨ type = multibootTagTypeBootLoaderName →
    StringAt m (a + 8) (a + size)) ∧
  (type = multibootTagTypeBasicMeminfo → 16 ≤ size) ∧ (type = multibootTagTypeBootdev → 20 ≤ size)

def TagAt (a : ℕ) : BootTag → Prop
  | .mmap entrySize entries =>
    load32 m a = multibootTagTypeMmap ∧ load32 m (a + 4) = 16 + entrySize * entries.length ∧
      load32 m (a + 8) = entrySize ∧ 24 ≤ entrySize ∧ EntriesAt m entrySize (a + 16) entries
  | .other type size =>
    load32 m a = type ∧ load32 m (a + 4) = size ∧ 8 ≤ size ∧ type ≠ multibootTagTypeEnd ∧
      type ≠ multibootTagTypeMmap ∧ ContentAt m a type size

/-- The tags from `a` on, and the end tag behind them, up to `e`. -/
def TagsAt : ℕ → List BootTag → ℕ → Prop
  | a, [], e => load32 m a = multibootTagTypeEnd ∧ load32 m (a + 4) = 8 ∧ e = a + 8
  | a, t :: ts, e => TagAt m a t ∧ TagsAt (a + t.stride) ts e

structure BootInfo (a : ℕ) (tags : List BootTag) : Prop where
  tags : TagsAt m (a + 8) tags (a + load32 m a)
  fits : a + load32 m a ≤ 2 ^ 32

end Layout

def walk {σ : Type} (turn : BootTag → ℕ → σ → Turn σ) : ℕ → List BootTag → σ → σ × List ℕ
  | a, [], s => (s, [a])
  | a, t :: ts, s =>
    match turn t a s with
    | .ret s => (s, [a])
    | .next s =>
      let (s, visited) := walk turn (a + t.stride) ts s
      (s, a :: visited)

section Walk
variable {m : Memory} {a b e : ℕ} {t : BootTag} {ts : List BootTag} {P : Set ℕ}

theorem TagAt.type_eq (h : TagAt m a t) : load32 m a = t.type := by
  cases t with
  | mmap entrySize entries => exact h.1
  | other type size => exact h.1

theorem TagAt.size_eq (h : TagAt m a t) : load32 m (a + 4) = t.size := by
  cases t with
  | mmap entrySize entries => exact h.2.1
  | other type size => exact h.2.1

theorem TagAt.le_size (h : TagAt m a t) : 8 ≤ t.size := by
  cases t with
  | mmap entrySize entries =>
    change 8 ≤ 16 + entrySize * entries.length
    omega
  | other type size => exact h.2.2.1

theorem TagAt.type_ne (h : TagAt m a t) : t.type ≠ multibootTagTypeEnd := by
  cases t with
  | mmap entrySize entries =>
    change multibootTagTypeMmap ≠ multibootTagTypeEnd
    decide
  | other type size => exact h.2.2.2.1

theorem size_le_stride (t : BootTag) : t.size ≤ t.stride := by
  rw [BootTag.stride]
  omega

theorem TagsAt.le (h : TagsAt m a ts e) : a + 8 ≤ e := by
  induction ts generalizing a with
  | nil => exact h.2.2.ge
  | cons t ts ih =>
    have hnext := ih h.2
    omega

theorem TagsAt.length_le (h : TagsAt m a ts e) : a + 8 * (ts.length + 1) ≤ e := by
  induction ts generalizing a with
  | nil => exact h.2.2.ge
  | cons t ts ih =>
    have hnext := ih h.2
    have hsize := h.1.le_size
    have hstride := size_le_stride t
    rw [List.length_cons]
    omega

theorem tagStride_eq {size : ℕ} (h : size + 7 < 2 ^ 32) : tagStride size = (size + 7) / 8 * 8 := by
  rw [tagStride, u32, Nat.mod_eq_of_lt h]
  exact Masks.and_mask (w := 32) (k := 3) h (by decide)

theorem Ico_subset {x w : ℕ} (hP : Set.Ico a e ⊆ P) (ha : a ≤ x) (he : x + w ≤ e) :
    Set.Ico x (x + w) ⊆ P :=
  (Set.Ico_subset_Ico ha he).trans hP

theorem gives_read32 {x : ℕ} (hP : Set.Ico a e ⊆ P) (he : e ≤ 2 ^ 32) (ha : a ≤ x) (hx : x + 4 ≤ e) :
    Gives m P (read32 (u32 x)) (load32 m x) := by
  rw [u32, Nat.mod_eq_of_lt (by omega)]
  exact gives_read (Ico_subset hP ha hx)

theorem gives_read64 {x : ℕ} (hP : Set.Ico a e ⊆ P) (he : e ≤ 2 ^ 32) (ha : a ≤ x) (hx : x + 8 ≤ e) :
    Gives m P (read64 (u32 x)) (load (2 ^ 32) m 8 x) := by
  rw [u32, Nat.mod_eq_of_lt (by omega)]
  exact gives_read (Ico_subset hP ha hx)

theorem tagLoop_gives {σ : Type} {body : ℕ → ℕ → σ → Traced (Turn σ)} {turn : BootTag → ℕ → σ → Turn σ}
    (hbody : ∀ t b s, TagAt m b t → b + t.size < 2 ^ 32 → Set.Ico b (b + t.size) ⊆ P →
      Gives m P (body t.type b s) (turn t b s))
    {n : ℕ} {s : σ} (h : TagsAt m a ts e) (he : e ≤ 2 ^ 32) (hP : Set.Ico a e ⊆ P)
    (hn : ts.length < n) : Gives m P (tagLoop body n a s) (walk turn a ts s) := by
  induction ts generalizing a n s with
  | nil =>
    obtain ⟨n, rfl⟩ : ∃ k, n = k + 1 := ⟨n - 1, by omega⟩
    obtain ⟨htype, -, rfl⟩ := h
    unfold tagLoop
    refine Gives.bind (gives_read (Ico_subset hP le_rfl (by omega))) ?_
    rw [show load (2 ^ 32) m 4 a = multibootTagTypeEnd from htype, if_pos rfl]
    exact gives_pure
  | cons t ts ih =>
    obtain ⟨n, rfl⟩ : ∃ k, n = k + 1 := ⟨n - 1, by omega⟩
    obtain ⟨ht, hts⟩ := h
    have hsize := ht.le_size
    have hstride := size_le_stride t
    have hle := hts.le
    rw [List.length_cons] at hn
    unfold tagLoop
    refine Gives.bind (gives_read (Ico_subset hP le_rfl (by omega))) ?_
    rw [show load (2 ^ 32) m 4 a = t.type from ht.type_eq, if_neg ht.type_ne]
    refine Gives.bind (hbody t a s ht (by omega) (Ico_subset hP le_rfl (by omega))) ?_
    rw [walk]
    cases turn t a s with
    | ret s' => exact gives_pure
    | next s' =>
      refine Gives.bind (gives_read32 hP he (by omega) (by omega)) ?_
      have hnext : u32 (a + tagStride (load32 m (a + 4))) = a + t.stride := by
        have hdef : t.stride = (t.size + 7) / 8 * 8 := rfl
        rw [ht.size_eq, tagStride_eq (by omega), u32, Nat.mod_eq_of_lt (by omega), hdef]
      rw [hnext]
      refine Gives.bind (ih hts ((Set.Ico_subset_Ico (by omega) le_rfl).trans hP) (by omega)) ?_
      exact gives_pure

theorem EntriesAt.gives {σ : Type} {body : ℕ → σ → Traced σ} {turn : MmapEntry → σ → σ}
    (hbody : ∀ e b s, EntryAt m b e → b + 24 ≤ 2 ^ 32 → Set.Ico b (b + 24) ⊆ P →
      Gives m P (body b s) (turn e s))
    {es : List MmapEntry} {entrySize size n x : ℕ} {s : σ} (h : EntriesAt m entrySize x es)
    (hsize : load32 m (a + 4) = size) (hentry : load32 m (a + 8) = entrySize) (hmin : 24 ≤ entrySize)
    (hend : a + size = x + entrySize * es.length) (hax : a + 16 ≤ x) (he : a + size < 2 ^ 32)
    (hP : Set.Ico a (a + size) ⊆ P) (hn : es.length < n) :
    Gives m P (mmapLoop body a n x s) (es.foldl (fun s e => turn e s) s) := by
  induction es generalizing x n s with
  | nil =>
    obtain ⟨n, rfl⟩ : ∃ k, n = k + 1 := ⟨n - 1, by omega⟩
    rw [List.length_nil, Nat.mul_zero] at hend
    unfold mmapLoop
    refine Gives.bind (gives_read32 hP he.le (by omega) (by omega)) ?_
    rw [hsize, u32, Nat.mod_eq_of_lt he, if_neg (by omega)]
    exact gives_pure
  | cons e es ih =>
    obtain ⟨n, rfl⟩ : ∃ k, n = k + 1 := ⟨n - 1, by omega⟩
    rw [List.length_cons, Nat.mul_succ] at hend
    rw [List.length_cons] at hn
    obtain ⟨hfirst, hrest⟩ := h
    unfold mmapLoop
    refine Gives.bind (gives_read32 hP he.le (by omega) (by omega)) ?_
    rw [hsize, u32, Nat.mod_eq_of_lt he, if_pos (by omega)]
    refine Gives.bind (hbody e x s hfirst (by omega) (Ico_subset hP (by omega) (by omega))) ?_
    refine Gives.bind (gives_read32 hP he.le (by omega) (by omega)) ?_
    rw [hentry, u32, Nat.mod_eq_of_lt (by omega)]
    exact ih hrest (by omega) (by omega) (by omega)

def tagAddrs : ℕ → List BootTag → List ℕ
  | a, [] => [a]
  | a, t :: ts => a :: tagAddrs (a + t.stride) ts

theorem walk_next {σ : Type} (turn : BootTag → σ → σ) (s : σ) :
    walk (fun t _ s => .next (turn t s)) a ts s = (ts.foldl (fun s t => turn t s) s, tagAddrs a ts) := by
  induction ts generalizing a s with
  | nil => rfl
  | cons t ts ih =>
    exact congrArg (fun r : σ × List ℕ => (r.1, a :: r.2)) (ih (turn t s))

end Walk

section Parse
variable {m : Memory} {a b : ℕ} {t : BootTag} {tags : List BootTag} {P : Set ℕ}

theorem parseEntry_gives {e : MmapEntry} (he : EntryAt m b e) (hb : b + 24 ≤ 2 ^ 32)
    (hP : Set.Ico b (b + 24) ⊆ P) (s : ℕ) :
    Gives m P (parseEntry b s) (raiseMax e.addr e.len e.type s) := by
  obtain ⟨haddr, hlen, htype⟩ := he
  refine Gives.bind (gives_read (Ico_subset hP le_rfl (by omega))) ?_
  refine Gives.bind (gives_read64 hP hb (by omega) (by omega)) ?_
  refine Gives.bind (gives_read32 hP hb (by omega) (by omega)) ?_
  rw [haddr, hlen, htype]
  exact gives_pure

def raiseEntries (t : BootTag) (maxMemAddress : ℕ) : ℕ :=
  t.entries.foldl (fun s e => raiseMax e.addr e.len e.type s) maxMemAddress

theorem parseTag_gives (h : TagAt m b t) (hb : b + t.size < 2 ^ 32)
    (hP : Set.Ico b (b + t.size) ⊆ P) (s : ℕ) :
    Gives m P (parseTag t.type b s) (.next (raiseEntries t s)) := by
  cases t with
  | mmap entrySize entries =>
    obtain ⟨-, hsize, hentry, hmin, hentries⟩ := h
    change b + (16 + entrySize * entries.length) < 2 ^ 32 at hb
    have hcount : entries.length ≤ entrySize * entries.length := Nat.le_mul_of_pos_left _ (by omega)
    have hloop := hentries.gives (fun e b s he hb hP => parseEntry_gives he hb hP s) (n := 2 ^ 32)
      (s := s) hsize hentry hmin (by omega) le_rfl hb hP (by omega)
    unfold parseTag
    rw [if_pos (show (BootTag.mmap entrySize entries).type = multibootTagTypeMmap from rfl), u32,
      Nat.mod_eq_of_lt (by omega)]
    exact Gives.bind hloop gives_pure
  | other type size =>
    unfold parseTag
    rw [if_neg (show (BootTag.other type size).type ≠ multibootTagTypeMmap from h.2.2.2.2.1)]
    exact gives_pure

theorem BootInfo.parseTags (h : BootInfo m a tags) (magic : ℕ) :
    Gives m (Set.Ico a (a + load32 m a)) (parseTags ⟨a, magic⟩)
      (tags.foldl (fun s t => raiseEntries t s) 0, tagAddrs (a + 8) tags) := by
  have hle := h.tags.le
  have hlength := h.tags.length_le
  have hfits := h.fits
  change Gives m _ (tagLoop parseTag (2 ^ 32) (u32 (a + 8)) 0) _
  rw [← walk_next raiseEntries, u32, Nat.mod_eq_of_lt (by omega)]
  refine tagLoop_gives (fun t b s ht hb hP => parseTag_gives ht hb hP s) h.tags h.fits
    (Set.Ico_subset_Ico (Nat.le_add_right a 8) le_rfl) ?_
  omega

end Parse

end X86Osdev.Boot

import X86Osdev.Library.ByteMemory
import X86Osdev.Library.CircularList
import X86Osdev.Mem.Boot
import Mathlib.Data.Finset.Card

/-! The lists of lib/list.h, kept in the bytes of memory: `next` at the address of
a `List`, `prev` four bytes on. -/

namespace X86Osdev.Lib
open X86Osdev.Mem CircularList ByteMemory

abbrev Memory := ℕ → UInt8

def load32 (m : Memory) (a : ℕ) : ℕ := ByteMemory.load (2 ^ 32) m 4 a

def store32 (m : Memory) (a v : ℕ) : Memory := ByteMemory.store (2 ^ 32) m 4 a v

def load8 (m : Memory) (a : ℕ) : ℕ := ByteMemory.load (2 ^ 32) m 1 a

def store8 (m : Memory) (a v : ℕ) : Memory := ByteMemory.store (2 ^ 32) m 1 a v

section Words
variable {m : Memory} {a b v : ℕ}

theorem load32_lt (m : Memory) (a : ℕ) : load32 m a < 2 ^ 32 := ByteMemory.load_lt m 4 a

theorem load32_store32_self (ha : a + 4 ≤ 2 ^ 32) (hv : v < 2 ^ 32) :
    load32 (store32 m a v) a = v := by
  rw [load32, store32, ByteMemory.load_store_self ha]
  exact Nat.mod_eq_of_lt hv

theorem load32_store32 (ha : a + 4 ≤ 2 ^ 32) (hb : b + 4 ≤ 2 ^ 32) (h : a + 4 ≤ b ∨ b + 4 ≤ a) :
    load32 (store32 m a v) b = load32 m b := ByteMemory.load_store_of_disjoint ha hb h

theorem load32_store8 (ha : a + 1 ≤ 2 ^ 32) (hb : b + 4 ≤ 2 ^ 32) (h : a + 1 ≤ b ∨ b + 4 ≤ a) :
    load32 (store8 m a v) b = load32 m b := ByteMemory.load_store_of_disjoint ha hb h

theorem load8_store32 (ha : a + 4 ≤ 2 ^ 32) (hb : b + 1 ≤ 2 ^ 32) (h : a + 4 ≤ b ∨ b + 1 ≤ a) :
    load8 (store32 m a v) b = load8 m b := ByteMemory.load_store_of_disjoint ha hb h

theorem load8_store8_self (ha : a + 1 ≤ 2 ^ 32) (hv : v < 256) : load8 (store8 m a v) a = v := by
  rw [load8, store8, ByteMemory.load_store_self ha]
  exact Nat.mod_eq_of_lt hv

end Words

def listNext (m : Memory) (l : ℕ) : ℕ := load32 m l

def listPrev (m : Memory) (l : ℕ) : ℕ := load32 m (u32 (l + 4))

def setNext (m : Memory) (l v : ℕ) : Memory := store32 m l v

def setPrev (m : Memory) (l v : ℕ) : Memory := store32 m (u32 (l + 4)) v

def listInit (m : Memory) (list : ℕ) : Memory := setPrev (setNext m list list) list list

def listAddHead (m : Memory) (first new : ℕ) : Memory :=
  let second := listNext m first
  let m := setPrev m second new
  let m := setNext m new second
  let m := setPrev m new first
  setNext m first new

def listAddTail (m : Memory) (first new : ℕ) : Memory :=
  let last := listPrev m first
  let m := setNext m last new
  let m := setNext m new first
  let m := setPrev m new last
  setPrev m first new

def listRemove (m : Memory) (deleteme : ℕ) : Memory :=
  let prev := listPrev m deleteme
  let next := listNext m deleteme
  let m := setNext m prev next
  setPrev m next prev

/-- `list_for_each` from `pos` on until `test` holds: the element found, none when the loop comes
back to the head. Memory has `2 ^ 32` addresses, so a loop that takes more turns has no end. -/
def listFind (m : Memory) (head : ℕ) (test : ℕ → Bool) : ℕ → ℕ → Option (Option ℕ)
  | 0, _ => none
  | fuel + 1, pos =>
    if pos = head then some none
    else if test pos then some (some pos)
    else listFind m head test fuel (listNext m pos)

def linksOf (m : Memory) : Links ℕ := ⟨listNext m, listPrev m⟩

def Spaced (S : Set ℕ) : Prop :=
  ∀ x ∈ S, x + 8 ≤ 2 ^ 32 ∧ ∀ y ∈ S, x ≠ y → x + 8 ≤ y ∨ y + 8 ≤ x

def linkBytes (S : Set ℕ) : Set ℕ := {x | ∃ n ∈ S, n ≤ x ∧ x < n + 8}

def AgreeOn (S : Set ℕ) (l l' : Links ℕ) : Prop :=
  ∀ x ∈ S, l.next x = l'.next x ∧ l.prev x = l'.prev x

section Refinement
variable {S : Set ℕ} {m : Memory} {l : Links ℕ} {x v : ℕ}

theorem u32_of_lt {n : ℕ} (h : n < 2 ^ 32) : u32 n = n := Nat.mod_eq_of_lt h

theorem agreeOn_setNext (hS : Spaced S) (hx : x ∈ S) (hv : v < 2 ^ 32)
    (h : AgreeOn S (linksOf m) l) : AgreeOn S (linksOf (setNext m x v)) (l.setNext x v) := by
  intro y hy
  obtain ⟨hyb, -⟩ := hS y hy
  obtain ⟨hxb, hsep⟩ := hS x hx
  obtain ⟨hn, hp⟩ := h y hy
  have hy4 : u32 (y + 4) = y + 4 := u32_of_lt (by omega)
  have hprev : listPrev (setNext m x v) y = listPrev m y := by
    simp only [listPrev, hy4]
    by_cases hxy : x = y
    · exact load32_store32 (by omega) (by omega) (by omega)
    · have := hsep y hy hxy
      exact load32_store32 (by omega) (by omega) (by omega)
  refine ⟨?_, hprev.trans hp⟩
  rw [next_setNext]
  by_cases hxy : y = x
  · subst hxy
    rw [if_pos rfl]
    exact load32_store32_self (by omega) hv
  · have := hsep y hy (Ne.symm hxy)
    rw [if_neg hxy, ← hn]
    exact load32_store32 (by omega) (by omega) (by omega)

theorem agreeOn_setPrev (hS : Spaced S) (hx : x ∈ S) (hv : v < 2 ^ 32)
    (h : AgreeOn S (linksOf m) l) : AgreeOn S (linksOf (setPrev m x v)) (l.setPrev x v) := by
  intro y hy
  obtain ⟨hyb, -⟩ := hS y hy
  obtain ⟨hxb, hsep⟩ := hS x hx
  obtain ⟨hn, hp⟩ := h y hy
  have hx4 : u32 (x + 4) = x + 4 := u32_of_lt (by omega)
  have hy4 : u32 (y + 4) = y + 4 := u32_of_lt (by omega)
  have hnext : listNext (setPrev m x v) y = listNext m y := by
    rw [listNext, setPrev, hx4]
    by_cases hxy : x = y
    · exact load32_store32 (by omega) (by omega) (by omega)
    · have := hsep y hy hxy
      exact load32_store32 (by omega) (by omega) (by omega)
  refine ⟨hnext.trans hn, ?_⟩
  rw [prev_setPrev]
  change load32 (store32 m (u32 (x + 4)) v) (u32 (y + 4)) = _
  rw [hx4, hy4]
  by_cases hxy : y = x
  · subst hxy
    rw [if_pos rfl]
    exact load32_store32_self (by omega) hv
  · have := hsep y hy (Ne.symm hxy)
    rw [if_neg hxy, ← hp]
    change _ = load32 m (u32 (y + 4))
    rw [hy4]
    exact load32_store32 (by omega) (by omega) (by omega)

theorem agreeOn_listInit (hS : Spaced S) (hx : x ∈ S) (h : AgreeOn S (linksOf m) l) :
    AgreeOn S (linksOf (listInit m x)) (l.listInit x) := by
  have hlt : x < 2 ^ 32 := by have := (hS x hx).1; omega
  exact agreeOn_setPrev hS hx hlt (agreeOn_setNext hS hx hlt h)

theorem Spaced.lt (hS : Spaced S) (hx : x ∈ S) : x < 2 ^ 32 := by
  have := (hS x hx).1
  omega

theorem agreeOn_listAddHead {first new : ℕ} (hS : Spaced S) (hf : first ∈ S) (hn : new ∈ S)
    (hs : l.next first ∈ S) (h : AgreeOn S (linksOf m) l) :
    AgreeOn S (linksOf (listAddHead m first new)) (l.listAddHead first new) := by
  have hsecond : listNext m first = l.next first := (h first hf).1
  simp only [listAddHead, Links.listAddHead, hsecond]
  apply agreeOn_setNext hS hf (hS.lt hn)
  apply agreeOn_setPrev hS hn (hS.lt hf)
  apply agreeOn_setNext hS hn (hS.lt hs)
  exact agreeOn_setPrev hS hs (hS.lt hn) h

theorem agreeOn_listAddTail {first new : ℕ} (hS : Spaced S) (hf : first ∈ S) (hn : new ∈ S)
    (hl : l.prev first ∈ S) (h : AgreeOn S (linksOf m) l) :
    AgreeOn S (linksOf (listAddTail m first new)) (l.listAddTail first new) := by
  have hlast : listPrev m first = l.prev first := (h first hf).2
  simp only [listAddTail, Links.listAddTail, hlast]
  apply agreeOn_setPrev hS hf (hS.lt hn)
  apply agreeOn_setPrev hS hn (hS.lt hl)
  apply agreeOn_setNext hS hn (hS.lt hf)
  exact agreeOn_setNext hS hl (hS.lt hn) h

theorem agreeOn_listRemove (hS : Spaced S) (hx : x ∈ S) (hn : l.next x ∈ S) (hp : l.prev x ∈ S)
    (h : AgreeOn S (linksOf m) l) :
    AgreeOn S (linksOf (listRemove m x)) (l.listRemove x) := by
  have hnext : listNext m x = l.next x := (h x hx).1
  have hprev : listPrev m x = l.prev x := (h x hx).2
  simp only [listRemove, Links.listRemove, hnext, hprev]
  apply agreeOn_setPrev hS hn (hS.lt hp)
  exact agreeOn_setNext hS hp (hS.lt hn) h

end Refinement

section Frame
variable {S : Set ℕ} {m : Memory} {x v : ℕ}

theorem touches_store32 {P : Set ℕ} {a : ℕ} (ha : a + 4 ≤ 2 ^ 32)
    (hP : ∀ x, a ≤ x → x < a + 4 → x ∈ P) : Touches (2 ^ 32) P m (store32 m a v) :=
  touches_store ha hP

theorem touches_setNext (hS : Spaced S) (hx : x ∈ S) :
    Touches (2 ^ 32) (linkBytes S) m (setNext m x v) := by
  have := (hS x hx).1
  exact touches_store32 (by omega) fun y hy hy' => ⟨x, hx, by omega, by omega⟩

theorem touches_setPrev (hS : Spaced S) (hx : x ∈ S) :
    Touches (2 ^ 32) (linkBytes S) m (setPrev m x v) := by
  have := (hS x hx).1
  rw [setPrev, u32_of_lt (by omega)]
  exact touches_store32 (by omega) fun y hy hy' => ⟨x, hx, by omega, by omega⟩

theorem touches_listInit (hS : Spaced S) (hx : x ∈ S) :
    Touches (2 ^ 32) (linkBytes S) m (listInit m x) :=
  (touches_setNext hS hx).trans (touches_setPrev hS hx)

theorem touches_listAddHead {first new : ℕ} (hS : Spaced S) (hf : first ∈ S) (hn : new ∈ S)
    (hs : listNext m first ∈ S) : Touches (2 ^ 32) (linkBytes S) m (listAddHead m first new) :=
  (((touches_setPrev hS hs).trans (touches_setNext hS hn)).trans
    (touches_setPrev hS hn)).trans (touches_setNext hS hf)

theorem touches_listAddTail {first new : ℕ} (hS : Spaced S) (hf : first ∈ S) (hn : new ∈ S)
    (hl : listPrev m first ∈ S) : Touches (2 ^ 32) (linkBytes S) m (listAddTail m first new) :=
  (((touches_setNext hS hl).trans (touches_setNext hS hn)).trans
    (touches_setPrev hS hn)).trans (touches_setPrev hS hf)

theorem touches_listRemove (hS : Spaced S) (hn : listNext m x ∈ S) (hp : listPrev m x ∈ S) :
    Touches (2 ^ 32) (linkBytes S) m (listRemove m x) :=
  (touches_setNext hS hp).trans (touches_setPrev hS hn)

end Frame

section Rings
variable {ι : Type*} {S : Set ℕ} {m : Memory} {heads : ι → ℕ} {elems : ι → List ℕ} {i : ι} {n : ℕ}

def NodesIn (S : Set ℕ) (heads : ι → ℕ) (elems : ι → List ℕ) : Prop :=
  ∀ i, ∀ x ∈ heads i :: elems i, x ∈ S

theorem rings_of_agree {l l' : Links ℕ} (hr : Rings l heads elems) (hin : NodesIn S heads elems)
    (h : AgreeOn S l' l) : Rings l' heads elems :=
  hr.congr fun j x hx => h x (hin j x hx)

theorem rings_touches {P : Set ℕ} {m' : Memory} (hS : Spaced S)
    (hr : Rings (linksOf m) heads elems) (hin : NodesIn S heads elems)
    (h : Touches (2 ^ 32) P m m') (hP : ∀ x ∈ P, x ∉ linkBytes S) :
    Rings (linksOf m') heads elems := by
  refine rings_of_agree hr hin fun x hx => ?_
  have hxb := (hS x hx).1
  constructor
  · exact h.load (by omega) fun y hy hy' hyP => hP y hyP ⟨x, hx, by omega, by omega⟩
  · change load32 m' (u32 (x + 4)) = load32 m (u32 (x + 4))
    rw [u32_of_lt (by omega)]
    exact h.load (by omega) fun y hy hy' hyP => hP y hyP ⟨x, hx, by omega, by omega⟩

theorem next_mem_nodes (hr : Rings (linksOf m) heads elems) (hin : NodesIn S heads elems)
    (hn : n ∈ elems i) : listNext m n ∈ S ∧ listPrev m n ∈ S := by
  obtain ⟨xs, ys, he⟩ := List.append_of_mem hn
  have hc := hr.carries i
  rw [he] at hc
  have hin := hin i
  rw [he] at hin
  constructor
  · refine hin _ ?_
    rcases List.mem_cons.mp hc.next_mem with e | e
    · exact List.mem_cons.mpr (.inl e)
    · exact List.mem_cons_of_mem _ (List.mem_append_right _ (List.mem_cons_of_mem _ e))
  · refine hin _ ?_
    rcases List.mem_cons.mp hc.prev_mem with e | e
    · exact List.mem_cons.mpr (.inl e)
    · exact List.mem_cons_of_mem _ (List.mem_append_left _ e)

variable [DecidableEq ι]

theorem rings_listRemove (hS : Spaced S) (hr : Rings (linksOf m) heads elems)
    (hin : NodesIn S heads elems) (hn : n ∈ elems i) :
    Rings (linksOf (listRemove m n)) heads (fun j => (elems j).erase n) ∧
      Touches (2 ^ 32) (linkBytes S) m (listRemove m n) := by
  obtain ⟨hnext, hprev⟩ := next_mem_nodes hr hin hn
  have hnS : n ∈ S := hin i n (List.mem_cons_of_mem _ hn)
  refine ⟨rings_of_agree (hr.listRemove_erase hn) (fun j x hx => hin j x ?_)
    (agreeOn_listRemove hS hnS hnext hprev fun _ _ => ⟨rfl, rfl⟩),
    touches_listRemove hS hnext hprev⟩
  rcases List.mem_cons.mp hx with e | e
  · exact List.mem_cons.mpr (.inl e)
  · exact List.mem_cons_of_mem _ (List.mem_of_mem_erase e)

theorem nodesIn_update (hin : NodesIn S heads elems) {xs : List ℕ} (hxs : ∀ x ∈ xs, x ∈ S) (i : ι) :
    NodesIn S heads (Function.update elems i xs) := by
  intro j x hx
  by_cases hj : j = i
  · subst hj
    rw [Function.update_self] at hx
    rcases List.mem_cons.mp hx with e | e
    · exact hin j x (List.mem_cons.mpr (.inl e))
    · exact hxs x e
  · rw [Function.update_of_ne hj] at hx
    exact hin j x hx

theorem rings_listAddTail (hS : Spaced S) (hr : Rings (linksOf m) heads elems)
    (hin : NodesIn S heads elems) (i : ι) (hnS : n ∈ S) (hn : ∀ j, n ∉ heads j :: elems j) :
    Rings (linksOf (listAddTail m (heads i) n)) heads
        (Function.update elems i (elems i ++ [n])) ∧
      Touches (2 ^ 32) (linkBytes S) m (listAddTail m (heads i) n) := by
  have hf : heads i ∈ S := hin i _ (List.mem_cons_self ..)
  have hl : listPrev m (heads i) ∈ S := hin i _ (seg_prev_mem (hr.carries i).seg)
  refine ⟨rings_of_agree (hr.listAddTail i hn) (nodesIn_update hin (fun x hx => ?_) i)
    (agreeOn_listAddTail hS hf hnS hl fun _ _ => ⟨rfl, rfl⟩), touches_listAddTail hS hf hnS hl⟩
  rcases List.mem_append.mp hx with e | e
  · exact hin i x (List.mem_cons_of_mem _ e)
  · exact List.mem_singleton.mp e ▸ hnS

theorem rings_listAddHead (hS : Spaced S) (hr : Rings (linksOf m) heads elems)
    (hin : NodesIn S heads elems) (i : ι) (hnS : n ∈ S) (hn : ∀ j, n ∉ heads j :: elems j) :
    Rings (linksOf (listAddHead m (heads i) n)) heads (Function.update elems i (n :: elems i)) ∧
      Touches (2 ^ 32) (linkBytes S) m (listAddHead m (heads i) n) := by
  have hf : heads i ∈ S := hin i _ (List.mem_cons_self ..)
  have hs : listNext m (heads i) ∈ S := hin i _ (seg_next_mem (hr.carries i).seg)
  refine ⟨rings_of_agree (hr.listAddHead i hn) (nodesIn_update hin (fun x hx => ?_) i)
    (agreeOn_listAddHead hS hf hnS hs fun _ _ => ⟨rfl, rfl⟩), touches_listAddHead hS hf hnS hs⟩
  rcases List.mem_cons.mp hx with e | e
  · exact e ▸ hnS
  · exact hin i x (List.mem_cons_of_mem _ e)

end Rings

section Search
variable {m : Memory} {head a : ℕ} {xs : List ℕ} {test : ℕ → Bool}

theorem listFind_seg (hs : Seg (linksOf m) a xs head) (hh : head ∉ xs) {fuel : ℕ}
    (hf : xs.length < fuel) :
    listFind m head test fuel (listNext m a) = some (xs.find? test) := by
  induction xs generalizing a fuel with
  | nil =>
    obtain ⟨fuel, rfl⟩ := Nat.exists_eq_add_one_of_ne_zero (by omega : fuel ≠ 0)
    have ha : listNext m a = head := hs.1
    rw [listFind, if_pos ha, List.find?_nil]
  | cons x xs ih =>
    obtain ⟨fuel, rfl⟩ := Nat.exists_eq_add_one_of_ne_zero (by omega : fuel ≠ 0)
    obtain ⟨⟨ha, -⟩, hs⟩ := hs
    simp only [List.mem_cons, not_or] at hh
    have ha : listNext m a = x := ha
    rw [listFind, ha, if_neg (Ne.symm hh.1), List.find?_cons]
    cases ht : test x with
    | true => simp
    | false => simpa [ht] using ih hs hh.2 (by simpa using hf)

theorem length_le_of_lt {N : ℕ} (hnd : xs.Nodup) (hlt : ∀ x ∈ xs, x < N) : xs.length ≤ N := by
  have hsub : xs.toFinset ⊆ Finset.range N := fun x hx =>
    Finset.mem_range.mpr (hlt x (List.mem_toFinset.mp hx))
  have hcard := Finset.card_le_card hsub
  rwa [List.toFinset_card_of_nodup hnd, Finset.card_range] at hcard

/-- A well-formed list has too few nodes for the search to run out of turns. -/
theorem listFind_eq (hc : Carries (linksOf m) head xs) (hlt : ∀ x ∈ head :: xs, x < 2 ^ 32) :
    listFind m head test (2 ^ 32) (listNext m head) = some (xs.find? test) :=
  listFind_seg hc.seg hc.head_notMem (length_le_of_lt hc.nodup hlt)

end Search

end X86Osdev.Lib

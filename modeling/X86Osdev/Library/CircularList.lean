import Mathlib.Data.List.Nodup
import Mathlib.Logic.Function.Basic

/-! Intrusive circular doubly linked lists over an arbitrary type of nodes, and
the element sequences they carry. -/

namespace CircularList

structure Links (α : Type*) where
  next : α → α
  prev : α → α

namespace Links
variable {α : Type*} [DecidableEq α]

def setNext (l : Links α) (a b : α) : Links α := { l with next := Function.update l.next a b }

def setPrev (l : Links α) (a b : α) : Links α := { l with prev := Function.update l.prev a b }

def listInit (l : Links α) (list : α) : Links α := (l.setNext list list).setPrev list list

def listAddHead (l : Links α) (first new : α) : Links α :=
  let second := l.next first
  let l := l.setPrev second new
  let l := l.setNext new second
  let l := l.setPrev new first
  l.setNext first new

def listAddTail (l : Links α) (first new : α) : Links α :=
  let last := l.prev first
  let l := l.setNext last new
  let l := l.setNext new first
  let l := l.setPrev new last
  l.setPrev first new

def listRemove (l : Links α) (deleteme : α) : Links α :=
  let prev := l.prev deleteme
  let next := l.next deleteme
  let l := l.setNext prev next
  l.setPrev next prev

/-- The nodes that the loop of `list_for_each` meets from `pos` on, in at most `fuel` turns. -/
def walk (l : Links α) (head : α) : ℕ → α → List α
  | 0, _ => []
  | fuel + 1, pos => if pos = head then [] else pos :: walk l head fuel (l.next pos)

def elements (l : Links α) (fuel : ℕ) (head : α) : List α := l.walk head fuel (l.next head)

def swap (l : Links α) : Links α := ⟨l.prev, l.next⟩

omit [DecidableEq α] in
theorem swap_swap (l : Links α) : l.swap.swap = l := rfl

end Links

/-- Following `next` from `a` meets exactly `xs` and then `b`, and `prev` undoes each step. -/
def Seg {α : Type*} (l : Links α) : α → List α → α → Prop
  | a, [], b => l.next a = b ∧ l.prev b = a
  | a, x :: xs, b => (l.next a = x ∧ l.prev x = a) ∧ Seg l x xs b

/-- The circular list with head `h` is well formed and carries `xs`. -/
structure Carries {α : Type*} (l : Links α) (h : α) (xs : List α) : Prop where
  seg : Seg l h xs h
  nodup : (h :: xs).Nodup

open Links

section Fields
variable {α : Type*} [DecidableEq α] (l : Links α) (a b x : α)

@[simp] theorem next_setNext : (l.setNext a b).next x = if x = a then b else l.next x := by
  simp only [setNext, Function.update_apply]

@[simp] theorem prev_setNext : (l.setNext a b).prev x = l.prev x := rfl

@[simp] theorem next_setPrev : (l.setPrev a b).next x = l.next x := rfl

@[simp] theorem prev_setPrev : (l.setPrev a b).prev x = if x = a then b else l.prev x := by
  simp only [setPrev, Function.update_apply]

theorem next_listAddHead {h n x : α} (hh : x ≠ h) (hn : x ≠ n) :
    (l.listAddHead h n).next x = l.next x := by simp [listAddHead, hh, hn]

theorem prev_listAddHead {h n x : α} (hh : x ≠ l.next h) (hn : x ≠ n) :
    (l.listAddHead h n).prev x = l.prev x := by simp [listAddHead, hh, hn]

theorem swap_listAddTail (h n : α) : (l.listAddTail h n).swap = l.swap.listAddHead h n := rfl

theorem next_listRemove {n x : α} (hx : x ≠ l.prev n) : (l.listRemove n).next x = l.next x := by
  simp [listRemove, hx]

theorem prev_listRemove {n x : α} (hx : x ≠ l.next n) : (l.listRemove n).prev x = l.prev x := by
  simp [listRemove, hx]

end Fields

section Segments
variable {α : Type*} {l l' : Links α} {a b h n : α} {xs ys : List α}

theorem seg_append : Seg l a (xs ++ n :: ys) b ↔ Seg l a xs n ∧ Seg l n ys b := by
  induction xs generalizing a with
  | nil => simp only [List.nil_append, Seg]
  | cons x xs ih => simp only [List.cons_append, Seg, ih, and_assoc]

theorem seg_congr (hs : Seg l a xs b) (hn : ∀ x ∈ a :: xs, l'.next x = l.next x)
    (hp : ∀ x ∈ b :: xs, l'.prev x = l.prev x) : Seg l' a xs b := by
  induction xs generalizing a with
  | nil => exact ⟨(hn a (by simp)).trans hs.1, (hp b (by simp)).trans hs.2⟩
  | cons x xs ih =>
    refine ⟨⟨(hn a (by simp)).trans hs.1.1, (hp x (by simp)).trans hs.1.2⟩, ih hs.2 ?_ ?_⟩
    · exact fun y hy => hn y (List.mem_cons_of_mem _ hy)
    · intro y hy
      rcases List.mem_cons.mp hy with rfl | hy
      · exact hp y (by simp)
      · exact hp y (by simp [hy])

theorem seg_next (hs : Seg l a xs b) : l.next a = xs.headD b := by
  cases xs with
  | nil => exact hs.1
  | cons x xs => exact hs.1.1

theorem seg_next_mem (hs : Seg l a xs b) : l.next a ∈ b :: xs := by
  rw [seg_next hs]
  cases xs <;> simp

theorem seg_prev_mem (hs : Seg l a xs b) : l.prev b ∈ a :: xs := by
  induction xs generalizing a with
  | nil => simp [hs.2]
  | cons x xs ih => exact List.mem_cons_of_mem _ (ih hs.2)

theorem seg_next_prev (hs : Seg l a xs b) : l.next (l.prev b) = b := by
  induction xs generalizing a with
  | nil => rw [hs.2, hs.1]
  | cons x xs ih => exact ih hs.2

theorem seg_swap (hs : Seg l a xs b) : Seg l.swap b xs.reverse a := by
  induction xs generalizing a with
  | nil => exact ⟨hs.2, hs.1⟩
  | cons x xs ih =>
    rw [List.reverse_cons, seg_append]
    exact ⟨ih hs.2, hs.1.2, hs.1.1⟩

theorem Carries.swap (hc : Carries l h xs) : Carries l.swap h xs.reverse :=
  ⟨seg_swap hc.seg, by simpa using hc.nodup⟩

theorem Carries.head_notMem (hc : Carries l h xs) : h ∉ xs := (List.nodup_cons.mp hc.nodup).1

theorem Carries.congr (hc : Carries l h xs) (hn : ∀ x ∈ h :: xs, l'.next x = l.next x)
    (hp : ∀ x ∈ h :: xs, l'.prev x = l.prev x) : Carries l' h xs :=
  ⟨seg_congr hc.seg hn hp, hc.nodup⟩

theorem Carries.next_head (hc : Carries l h xs) : l.next h = xs.headD h := seg_next hc.seg

theorem Carries.next_mem (hc : Carries l h (xs ++ n :: ys)) : l.next n ∈ h :: ys :=
  seg_next_mem (seg_append.mp hc.seg).2

theorem Carries.prev_mem (hc : Carries l h (xs ++ n :: ys)) : l.prev n ∈ h :: xs :=
  seg_prev_mem (seg_append.mp hc.seg).1

theorem Carries.next_eq (hc : Carries l h (xs ++ n :: ys)) : l.next n = ys.headD h :=
  seg_next (seg_append.mp hc.seg).2

theorem Carries.next_prev (hc : Carries l h xs) (hn : n ∈ xs) : l.next (l.prev n) = n := by
  obtain ⟨ys, zs, rfl⟩ := List.append_of_mem hn
  exact seg_next_prev (seg_append.mp hc.seg).1

theorem Carries.next_node (hc : Carries l h xs) (hn : n ∈ h :: xs) : l.next n ∈ h :: xs := by
  rcases List.mem_cons.mp hn with rfl | hn
  · exact seg_next_mem hc.seg
  · obtain ⟨ys, zs, rfl⟩ := List.append_of_mem hn
    rcases List.mem_cons.mp hc.next_mem with e | e
    · exact List.mem_cons.mpr (.inl e)
    · exact List.mem_cons_of_mem _ (List.mem_append_right _ (List.mem_cons_of_mem _ e))

theorem Carries.next_ne (hc : Carries l h xs) (hn : n ∈ xs) : l.next n ≠ n := by
  obtain ⟨ys, zs, rfl⟩ := List.append_of_mem hn
  intro e
  have hnd := hc.nodup
  rcases List.mem_cons.mp hc.next_mem with e' | e'
  · exact hc.head_notMem (e'.symm.trans e ▸ hn)
  · rw [e] at e'
    exact (List.nodup_cons.mp (List.nodup_append'.mp (List.nodup_cons.mp hnd).2).2.1).1 e'

end Segments

section Operations
variable {α : Type*} [DecidableEq α] {l : Links α} {a b h n : α} {xs ys : List α}

theorem seg_walk {fuel : ℕ} (hs : Seg l a xs h) (hx : h ∉ xs) (hf : xs.length < fuel) :
    l.walk h fuel (l.next a) = xs := by
  induction xs generalizing a fuel with
  | nil =>
    obtain ⟨fuel, rfl⟩ := Nat.exists_eq_add_one_of_ne_zero (by omega : fuel ≠ 0)
    simp [walk, hs.1]
  | cons x xs ih =>
    obtain ⟨fuel, rfl⟩ := Nat.exists_eq_add_one_of_ne_zero (by omega : fuel ≠ 0)
    simp only [List.mem_cons, not_or] at hx
    have hrest := ih hs.2 hx.2 (by simpa using hf)
    simp [walk, hs.1.1, Ne.symm hx.1, hrest]

/-- With more fuel than the list has elements the traversal returns the whole sequence. -/
theorem Carries.elements_eq {fuel : ℕ} (hc : Carries l h xs) (hf : xs.length < fuel) :
    l.elements fuel h = xs := seg_walk hc.seg hc.head_notMem hf

theorem carries_listAddHead (hc : Carries l h xs) (hn : n ∉ h :: xs) :
    Carries (l.listAddHead h n) h (n :: xs) := by
  simp only [List.mem_cons, not_or] at hn
  have hnd := List.nodup_cons.mp hc.nodup
  have hnext := hc.next_head
  refine ⟨⟨by simp [listAddHead], ?_⟩, ?_⟩
  · cases xs with
    | nil =>
      have hnh : l.next h ≠ n := by rw [hnext]; exact Ne.symm hn.1
      simp_all [Seg, listAddHead]
    | cons x xs =>
      have hnx : x ≠ n := fun e => hn.2 (e ▸ List.mem_cons_self ..)
      have hx : l.next h = x := hnext
      refine ⟨by simp [listAddHead, hx, hn.1, hnx], ?_⟩
      apply seg_congr hc.seg.2
      · intro y hy
        exact next_listAddHead l (fun e => hnd.1 (e ▸ hy)) (fun e => hn.2 (e ▸ hy))
      · intro y hy
        have hyn : y ≠ n := by
          rcases List.mem_cons.mp hy with rfl | hy
          · exact Ne.symm hn.1
          · exact fun e => hn.2 (e ▸ List.mem_cons_of_mem _ hy)
        have hyx : y ≠ l.next h := by
          rw [hx]
          rcases List.mem_cons.mp hy with rfl | hy
          · exact fun e => hnd.1 (e ▸ List.mem_cons_self ..)
          · exact fun e => (List.nodup_cons.mp hnd.2).1 (e ▸ hy)
        exact prev_listAddHead l hyx hyn
  · simp only [List.nodup_cons, List.mem_cons, not_or]
    exact ⟨⟨Ne.symm hn.1, hnd.1⟩, hn.2, hnd.2⟩

theorem seg_listRemove (hs : Seg l a (xs ++ n :: ys) b) (hnd : (a :: (xs ++ n :: ys)).Nodup)
    (hb : b ∉ xs ++ n :: ys) : Seg (l.listRemove n) a (xs ++ ys) b := by
  induction xs generalizing a with
  | nil =>
    -- The node comes first: `a` is linked to what follows it.
    obtain ⟨⟨han, hpn⟩, hs⟩ := hs
    simp only [List.nil_append, List.nodup_cons, List.mem_cons, not_or] at hnd hb ⊢
    cases ys with
    | nil => simp [Seg, listRemove, hs.1, hpn]
    | cons y ys =>
      obtain ⟨⟨hny, -⟩, hs⟩ := hs
      simp only [List.nodup_cons, List.mem_cons, not_or] at hnd hb
      refine ⟨by simp [listRemove, hny, hpn], seg_congr hs ?_ ?_⟩
      · intro x hx
        apply next_listRemove
        rw [hpn]
        rintro rfl
        rcases List.mem_cons.mp hx with rfl | hx
        · exact hnd.1.2.1 rfl
        · exact hnd.1.2.2 hx
      · intro x hx
        apply prev_listRemove
        rw [hny]
        rintro rfl
        rcases List.mem_cons.mp hx with rfl | hx
        · exact hb.2.1 rfl
        · exact hnd.2.2.1 hx
  | cons x xs ih =>
    obtain ⟨⟨hax, hxa⟩, hs⟩ := hs
    have hp := seg_prev_mem (seg_append.mp hs).1
    have hq := seg_next_mem (seg_append.mp hs).2
    rw [List.cons_append, List.nodup_cons] at hnd
    -- The node comes later, and the link between `a` and `x` is not one that changes.
    have hpa : a ≠ l.prev n := by
      rintro rfl
      exact hnd.1 (by rcases List.mem_cons.mp hp with e | e <;> simp [e])
    have hqx : x ≠ l.next n := by
      rintro rfl
      rcases List.mem_cons.mp hq with e | e
      · exact hb (by simp [← e])
      · exact (List.nodup_cons.mp hnd.2).1 (by simp [e])
    refine ⟨⟨?_, ?_⟩, ih hs hnd.2 (fun e => hb (List.mem_cons_of_mem _ e))⟩
    · exact (next_listRemove l hpa).trans hax
    · exact (prev_listRemove l hqx).trans hxa

theorem carries_listRemove (hc : Carries l h (xs ++ n :: ys)) :
    Carries (l.listRemove n) h (xs ++ ys) := by
  refine ⟨seg_listRemove hc.seg hc.nodup hc.head_notMem, ?_⟩
  have hsub : (h :: (xs ++ ys)).Sublist (h :: (xs ++ n :: ys)) := by simp
  exact hc.nodup.sublist hsub

theorem listRemove_self_linked (hc : Carries l n []) : l.listRemove n = l := by
  obtain ⟨hn, hp⟩ : l.next n = n ∧ l.prev n = n := hc.seg
  obtain ⟨next, prev⟩ := l
  simp only at hn hp
  simp [listRemove, setNext, setPrev, hn, hp, Function.update_eq_self_iff]

end Operations

/-- The rings with the given heads are well formed, carry the given sequences and share no node. -/
structure Rings {α ι : Type*} (l : Links α) (heads : ι → α) (elems : ι → List α) : Prop where
  carries : ∀ i, Carries l (heads i) (elems i)
  apart : ∀ i j, i ≠ j → (heads i :: elems i).Disjoint (heads j :: elems j)

section Family
variable {α ι : Type*} {l l' : Links α} {heads : ι → α} {elems : ι → List α} {n : α} {i : ι}

theorem Rings.swap (hr : Rings l heads elems) :
    Rings l.swap heads (fun i => (elems i).reverse) :=
  ⟨fun i => (hr.carries i).swap, fun i j hij x hx hy =>
    hr.apart i j hij (by simpa using hx) (by simpa using hy)⟩

theorem Rings.congr (hr : Rings l heads elems)
    (h : ∀ j, ∀ x ∈ heads j :: elems j, l'.next x = l.next x ∧ l'.prev x = l.prev x) :
    Rings l' heads elems :=
  ⟨fun j => (hr.carries j).congr (fun x hx => (h j x hx).1) (fun x hx => (h j x hx).2), hr.apart⟩

theorem Rings.mem_unique (hr : Rings l heads elems) {j : ι} (hi : n ∈ elems i) (hj : n ∈ elems j) :
    i = j := by
  by_contra hij
  exact hr.apart i j hij (List.mem_cons_of_mem _ hi) (List.mem_cons_of_mem _ hj)

variable [DecidableEq α] [DecidableEq ι]

/-- A change of one ring that leaves the nodes of the others alone keeps the family. -/
theorem Rings.update (hr : Rings l heads elems) {xs : List α} (hc : Carries l' (heads i) xs)
    (hfresh : ∀ x ∈ xs, x ∉ elems i → ∀ j, x ∉ heads j :: elems j)
    (hframe : ∀ j, j ≠ i → ∀ x ∈ heads j :: elems j, l'.next x = l.next x ∧ l'.prev x = l.prev x) :
    Rings l' heads (Function.update elems i xs) := by
  have key : ∀ j, j ≠ i → (heads i :: xs).Disjoint (heads j :: elems j) := by
    intro j hj x hx hxj
    rcases List.mem_cons.mp hx with rfl | hx
    · exact hr.apart i j (Ne.symm hj) (by simp) hxj
    · by_cases hxi : x ∈ elems i
      · exact hr.apart i j (Ne.symm hj) (List.mem_cons_of_mem _ hxi) hxj
      · exact hfresh x hx hxi j hxj
  constructor
  · intro j
    by_cases hj : j = i
    · subst hj
      simpa using hc
    · rw [Function.update_of_ne hj]
      exact (hr.carries j).congr (fun x hx => (hframe j hj x hx).1) (fun x hx => (hframe j hj x hx).2)
  · intro j k hjk
    by_cases hj : j = i
    · subst hj
      rw [Function.update_self, Function.update_of_ne (Ne.symm hjk)]
      exact key k (Ne.symm hjk)
    · rw [Function.update_of_ne hj]
      by_cases hk : k = i
      · subst hk
        rw [Function.update_self]
        exact fun x hx hxk => key j hj hxk hx
      · rw [Function.update_of_ne hk]
        exact hr.apart j k hjk

theorem Rings.listAddHead (hr : Rings l heads elems) (i : ι) (hn : ∀ j, n ∉ heads j :: elems j) :
    Rings (l.listAddHead (heads i) n) heads (Function.update elems i (n :: elems i)) := by
  refine hr.update (carries_listAddHead (hr.carries i) (hn i)) ?_ ?_
  · intro x hx hxi
    rcases List.mem_cons.mp hx with rfl | hx
    · exact hn
    · exact absurd hx hxi
  · intro j hj x hx
    have hxn : x ≠ n := fun e => hn j (e ▸ hx)
    have hxi : ∀ y ∈ heads i :: elems i, x ≠ y := fun y hy e =>
      hr.apart i j (Ne.symm hj) hy (e ▸ hx)
    exact ⟨next_listAddHead l (hxi _ (by simp)) hxn,
      prev_listAddHead l (hxi _ (seg_next_mem (hr.carries i).seg)) hxn⟩

theorem Rings.listAddTail (hr : Rings l heads elems) (i : ι) (hn : ∀ j, n ∉ heads j :: elems j) :
    Rings (l.listAddTail (heads i) n) heads (Function.update elems i (elems i ++ [n])) := by
  have hs := (hr.swap.listAddHead i (n := n) (by simpa using hn)).swap
  rw [← swap_listAddTail, swap_swap] at hs
  convert hs using 1
  funext j
  by_cases hj : j = i
  · subst hj
    simp
  · simp [Function.update_of_ne hj]

theorem Rings.listRemove (hr : Rings l heads elems) (hn : n ∈ elems i) :
    Rings (l.listRemove n) heads (Function.update elems i ((elems i).erase n)) := by
  obtain ⟨xs, ys, hxs, he, hers⟩ := List.exists_erase_eq hn
  have hc := hr.carries i
  rw [he] at hc
  rw [hers]
  have hmem : ∀ x, x ∈ xs ++ ys → x ∈ elems i := fun x hx => by
    rw [he]
    simp only [List.mem_append, List.mem_cons] at hx ⊢
    tauto
  refine hr.update (carries_listRemove hc) (fun x hx hxi => absurd (hmem x hx) hxi) ?_
  intro j hj x hx
  have hxi : ∀ y ∈ heads i :: elems i, x ≠ y := fun y hy e =>
    hr.apart i j (Ne.symm hj) hy (e ▸ hx)
  have hp := hc.prev_mem
  have hq := hc.next_mem
  refine ⟨next_listRemove l (hxi _ ?_), prev_listRemove l (hxi _ ?_)⟩
  · rw [he]
    rcases List.mem_cons.mp hp with e | e <;> simp [e]
  · rw [he]
    rcases List.mem_cons.mp hq with e | e <;> simp [e]

theorem Rings.listRemove_erase (hr : Rings l heads elems) (hn : n ∈ elems i) :
    Rings (l.listRemove n) heads fun j => (elems j).erase n := by
  convert hr.listRemove hn using 1
  funext j
  by_cases hj : j = i
  · subst hj
    rw [Function.update_self]
  · rw [Function.update_of_ne hj]
    exact List.erase_of_not_mem fun h => hj (hr.mem_unique h hn)

end Family

end CircularList

import X86Osdev.Library.CircularList
import Mathlib.Data.List.Dedup
import Mathlib.Data.Set.Insert

/-! A fixed family of circular lists together with nodes that are linked to themselves, and the moves of
a node from wherever it is to one end of a list. -/

namespace CircularList
open Links

/-- The lists are well formed and apart; the nodes in `loose` are linked to themselves. -/
structure Linkage {α ι : Type*} (l : Links α) (heads : ι → α) (elems : ι → List α) (loose : Set α) :
    Prop where
  rings : Rings l heads elems
  self : ∀ n ∈ loose, l.next n = n ∧ l.prev n = n
  apart : ∀ n ∈ loose, ∀ i, n ∉ heads i :: elems i

def Unlinked {α ι : Type*} (heads : ι → α) (elems : ι → List α) (n : α) : Prop :=
  ∀ i, n ∉ heads i :: elems i

section Moves
variable {α ι : Type*} [DecidableEq α] [DecidableEq ι]

def without (elems : ι → List α) (n : α) : ι → List α := fun i => (elems i).erase n

def movedHead (elems : ι → List α) (i : ι) (n : α) : ι → List α :=
  Function.update (without elems n) i (n :: (elems i).erase n)

def movedTail (elems : ι → List α) (i : ι) (n : α) : ι → List α :=
  Function.update (without elems n) i ((elems i).erase n ++ [n])

end Moves

section Sequences
variable {α ι : Type*} [DecidableEq α] [DecidableEq ι] {elems : ι → List α} {i j : ι} {n x : α}

omit [DecidableEq ι] in
theorem mem_without (hnd : (elems i).Nodup) : x ∈ without elems n i ↔ x ≠ n ∧ x ∈ elems i :=
  hnd.mem_erase_iff

theorem mem_movedHead (hnd : (elems j).Nodup) :
    x ∈ movedHead elems i n j ↔ (x = n ∧ j = i) ∨ (x ≠ n ∧ x ∈ elems j) := by
  rw [movedHead]
  by_cases hj : j = i
  · subst hj
    rw [Function.update_self, List.mem_cons, hnd.mem_erase_iff]
    simp
  · rw [Function.update_of_ne hj, mem_without hnd]
    simp [hj]

theorem mem_movedTail (hnd : (elems j).Nodup) :
    x ∈ movedTail elems i n j ↔ (x = n ∧ j = i) ∨ (x ≠ n ∧ x ∈ elems j) := by
  rw [movedTail]
  by_cases hj : j = i
  · subst hj
    rw [Function.update_self, List.mem_append, hnd.mem_erase_iff, List.mem_singleton]
    simp only [and_true]
    exact or_comm
  · rw [Function.update_of_ne hj, mem_without hnd]
    simp [hj]

theorem filter_movedHead {p : α → Bool} (hp : p n = false) :
    (movedHead elems i n j).filter p = (elems j).filter p := by
  have herase : ((elems j).erase n).filter p = (elems j).filter p := by
    rw [← List.erase_filter]
    exact List.erase_of_not_mem fun h => by simp [hp] at h
  rw [movedHead]
  by_cases hj : j = i
  · subst hj
    rw [Function.update_self, List.filter_cons_of_neg (by simp [hp]), herase]
  · rw [Function.update_of_ne hj]
    exact herase

theorem filter_movedTail {p : α → Bool} (hp : p n = false) :
    (movedTail elems i n j).filter p = (elems j).filter p := by
  have herase : ((elems j).erase n).filter p = (elems j).filter p := by
    rw [← List.erase_filter]
    exact List.erase_of_not_mem fun h => by simp [hp] at h
  rw [movedTail]
  by_cases hj : j = i
  · subst hj
    rw [Function.update_self, List.filter_append, herase, List.filter_cons_of_neg (by simp [hp]),
      List.filter_nil, List.append_nil]
  · rw [Function.update_of_ne hj]
    exact herase

theorem foldl_movedTail (hnd : ∀ j, (elems j).Nodup) (ns : List α) (j : ι) :
    ns.foldl (fun elems n => movedTail elems i n) elems j =
      (elems j).filter (fun x => decide (x ∉ ns)) ++ if j = i then ns.dedup else [] := by
  induction ns generalizing elems with
  | nil =>
    rw [List.foldl_nil, List.dedup_nil, ite_self, List.append_nil]
    exact (List.filter_eq_self.mpr fun x _ => by simp).symm
  | cons n ns ih =>
    have hnd' : ∀ j, (movedTail elems i n j).Nodup := by
      intro j
      unfold movedTail
      by_cases hj : j = i
      · subst hj
        rw [Function.update_self]
        refine ((hnd j).erase n).append (List.nodup_singleton n) ?_
        exact List.disjoint_singleton.mpr fun hin => ((hnd j).mem_erase_iff.mp hin).1 rfl
      · rw [Function.update_of_ne hj]
        exact (hnd j).erase n
    have hrest : ((elems j).erase n).filter (fun x => decide (x ∉ ns)) =
        (elems j).filter fun x => decide (x ∉ n :: ns) := by
      rw [(hnd j).erase_eq_filter, List.filter_filter]
      refine List.filter_congr fun x _ => ?_
      by_cases hx : x = n
      · simp [hx]
      · simp [hx]
    rw [List.foldl_cons, ih hnd']
    unfold movedTail without
    by_cases hj : j = i
    · subst hj
      rw [Function.update_self, if_pos rfl, if_pos rfl, List.filter_append, hrest, List.append_assoc]
      by_cases hn : n ∈ ns
      · rw [List.filter_cons_of_neg (by simp [hn]), List.filter_nil, List.nil_append,
          List.dedup_cons_of_mem hn]
      · rw [List.filter_cons_of_pos (by simp [hn]), List.filter_nil, List.singleton_append,
          List.dedup_cons_of_notMem hn]
    · rw [Function.update_of_ne hj, if_neg hj, if_neg hj, hrest]

end Sequences

section Linkage
variable {α ι : Type*} [DecidableEq α] [DecidableEq ι] {l : Links α} {heads : ι → α}
  {elems : ι → List α} {loose : Set α} {n : α} {i : ι}

omit [DecidableEq α] [DecidableEq ι] in
theorem Linkage.empty (hheads : Function.Injective heads) :
    Linkage ⟨id, id⟩ heads (fun _ => []) ∅ := by
  refine ⟨⟨fun i => ⟨⟨rfl, rfl⟩, List.nodup_singleton _⟩, fun i j hij => ?_⟩, fun _ hn => hn.elim,
    fun _ hn => hn.elim⟩
  rw [List.disjoint_singleton, List.mem_singleton]
  exact fun e => hij (hheads e).symm

omit [DecidableEq α] [DecidableEq ι] in
theorem Linkage.nodup (h : Linkage l heads elems loose) (i : ι) : (elems i).Nodup :=
  (List.nodup_cons.mp (h.rings.carries i).nodup).2

omit [DecidableEq α] [DecidableEq ι] in
theorem Linkage.mono {loose' : Set α} (h : Linkage l heads elems loose) (hs : loose' ⊆ loose) :
    Linkage l heads elems loose' :=
  ⟨h.rings, fun n hn => h.self n (hs hn), fun n hn => h.apart n (hs hn)⟩

theorem Linkage.listRemove (h : Linkage l heads elems loose) (hn : n ∈ loose ∨ ∃ i, n ∈ elems i) :
    Linkage (l.listRemove n) heads (without elems n) (loose \ {n}) ∧
      Unlinked heads (without elems n) n := by
  rcases hn with hn | ⟨i, hn⟩
  · have hself : l.listRemove n = l :=
      listRemove_self_linked ⟨h.self n hn, List.nodup_singleton n⟩
    have hsame : without elems n = elems := by
      funext j
      exact List.erase_of_not_mem fun hm => h.apart n hn j (List.mem_cons_of_mem _ hm)
    rw [hself, hsame]
    exact ⟨h.mono fun _ hm => hm.1, h.apart n hn⟩
  · refine ⟨⟨h.rings.listRemove_erase hn, fun m hm => ?_, fun m hm j hmj => ?_⟩, fun j hj => ?_⟩
    · -- a node linked to itself is no neighbour of a listed one
      obtain ⟨xs, ys, he⟩ := List.append_of_mem hn
      have hc := h.rings.carries i
      rw [he] at hc
      have hm' := h.apart m hm.1 i
      rw [he] at hm'
      have hp := hc.prev_mem
      have hq := hc.next_mem
      obtain ⟨hnext, hprev⟩ := h.self m hm.1
      refine ⟨(next_listRemove l ?_).trans hnext, (prev_listRemove l ?_).trans hprev⟩
      · rintro rfl
        exact hm' (by rcases List.mem_cons.mp hp with e | e <;> simp [e])
      · rintro rfl
        exact hm' (by rcases List.mem_cons.mp hq with e | e <;> simp [e])
    · refine h.apart m hm.1 j ?_
      rcases List.mem_cons.mp hmj with e | e
      · exact List.mem_cons.mpr (.inl e)
      · exact List.mem_cons_of_mem _ (List.mem_of_mem_erase e)
    · rcases List.mem_cons.mp hj with e | e
      · by_cases hij : j = i
        · subst hij
          exact (h.rings.carries j).head_notMem (e ▸ hn)
        · exact h.rings.apart i j (Ne.symm hij) (List.mem_cons_of_mem _ hn)
            (List.mem_cons.mpr (.inl e))
      · exact ((h.nodup j).mem_erase_iff.mp e).1 rfl

theorem Linkage.listAddHead (h : Linkage l heads elems loose) (i : ι) (hn : Unlinked heads elems n)
    (hloose : n ∉ loose) :
    Linkage (l.listAddHead (heads i) n) heads (Function.update elems i (n :: elems i)) loose := by
  refine ⟨h.rings.listAddHead i hn, fun m hm => ?_, fun m hm j hmj => ?_⟩
  · have hmn : m ≠ n := fun e => hloose (e ▸ hm)
    have hmi : ∀ y ∈ heads i :: elems i, m ≠ y := fun y hy e => h.apart m hm i (e ▸ hy)
    obtain ⟨hnext, hprev⟩ := h.self m hm
    refine ⟨(next_listAddHead l (hmi _ (List.mem_cons_self ..)) hmn).trans hnext,
      (prev_listAddHead l (hmi _ (seg_next_mem (h.rings.carries i).seg)) hmn).trans hprev⟩
  · by_cases hj : j = i
    · subst hj
      rw [Function.update_self] at hmj
      have hmn : m ≠ n := fun e => hloose (e ▸ hm)
      refine h.apart m hm j ?_
      simpa [hmn] using hmj
    · rw [Function.update_of_ne hj] at hmj
      exact h.apart m hm j hmj

omit [DecidableEq α] [DecidableEq ι] in
theorem Linkage.swap (h : Linkage l heads elems loose) :
    Linkage l.swap heads (fun i => (elems i).reverse) loose :=
  ⟨h.rings.swap, fun n hn => ⟨(h.self n hn).2, (h.self n hn).1⟩, fun n hn i => by
    simpa using h.apart n hn i⟩

theorem Linkage.listAddTail (h : Linkage l heads elems loose) (i : ι) (hn : Unlinked heads elems n)
    (hloose : n ∉ loose) :
    Linkage (l.listAddTail (heads i) n) heads (Function.update elems i (elems i ++ [n])) loose := by
  have hs := (h.swap.listAddHead i (n := n) (fun j => by simpa using hn j) hloose).swap
  rw [← swap_listAddTail, swap_swap] at hs
  convert hs using 1
  funext j
  by_cases hj : j = i
  · subst hj
    simp
  · simp [Function.update_of_ne hj]

theorem Linkage.moveHead (h : Linkage l heads elems loose) (hn : n ∈ loose ∨ ∃ i, n ∈ elems i)
    (i : ι) : Linkage ((l.listRemove n).listAddHead (heads i) n) heads (movedHead elems i n)
      (loose \ {n}) := by
  obtain ⟨hrem, hout⟩ := h.listRemove hn
  exact hrem.listAddHead i hout fun hm => hm.2 rfl

theorem Linkage.moveTail (h : Linkage l heads elems loose) (hn : n ∈ loose ∨ ∃ i, n ∈ elems i)
    (i : ι) : Linkage ((l.listRemove n).listAddTail (heads i) n) heads (movedTail elems i n)
      (loose \ {n}) := by
  obtain ⟨hrem, hout⟩ := h.listRemove hn
  exact hrem.listAddTail i hout fun hm => hm.2 rfl

omit [DecidableEq ι] in
theorem Linkage.listInit (h : Linkage l heads elems loose) (hn : Unlinked heads elems n) :
    Linkage (l.listInit n) heads elems (insert n loose) := by
  have hother : ∀ m, m ≠ n → (l.listInit n).next m = l.next m ∧ (l.listInit n).prev m = l.prev m := by
    intro m hm
    simp [Links.listInit, hm]
  refine ⟨h.rings.congr fun j x hx => hother x fun e => hn j (e ▸ hx), fun m hm => ?_,
    fun m hm => ?_⟩
  · by_cases hmn : m = n
    · subst hmn
      simp [Links.listInit]
    · obtain ⟨hnext, hprev⟩ := hother m hmn
      have hs := h.self m (hm.resolve_left hmn)
      exact ⟨hnext.trans hs.1, hprev.trans hs.2⟩
  · rcases hm with rfl | hm
    · exact hn
    · exact h.apart m hm

omit [DecidableEq α] [DecidableEq ι] in
theorem Linkage.congr {l' : Links α} (h : Linkage l heads elems loose) (hn : Unlinked heads elems n)
    (hloose : n ∉ loose) (hl : ∀ m, m ≠ n → l'.next m = l.next m ∧ l'.prev m = l.prev m) :
    Linkage l' heads elems loose := by
  refine ⟨h.rings.congr fun j x hx => hl x fun e => hn j (e ▸ hx), fun m hm => ?_, h.apart⟩
  obtain ⟨hnext, hprev⟩ := hl m fun e => hloose (e ▸ hm)
  obtain ⟨hself, hself'⟩ := h.self m hm
  exact ⟨hnext.trans hself, hprev.trans hself'⟩

end Linkage

theorem listRemove_listRemove {α : Type*} [DecidableEq α] (l : Links α) (n : α) :
    (l.listRemove n).listRemove n = l.listRemove n := by
  have hnext : (l.listRemove n).next n = l.next n := by
    simp only [Links.listRemove, next_setPrev, next_setNext]
    split
    · rfl
    · rfl
  have hprev : (l.listRemove n).prev n = l.prev n := by
    simp only [Links.listRemove, prev_setPrev, prev_setNext]
    split
    · rfl
    · rfl
  generalize hl : l.listRemove n = m at hnext hprev ⊢
  have hset : m.next (l.prev n) = l.next n ∧ m.prev (l.next n) = l.prev n := by
    rw [← hl]
    simp [Links.listRemove]
  obtain ⟨next, prev⟩ := m
  simp only at hnext hprev hset
  simp [Links.listRemove, setNext, setPrev, hnext, hprev, Function.update_eq_self_iff, hset.1,
    hset.2]

section Loops
variable {α σ : Type*} [DecidableEq α]

/-- `list_for_each` with a body that leaves the links alone; none when it does not end within `fuel`
turns. -/
def forEach (l : Links α) (body : σ → α → σ) (head : α) : ℕ → α → σ → Option σ
  | 0, _, _ => none
  | fuel + 1, pos, s => if pos = head then some s else forEach l body head fuel (l.next pos) (body s pos)

theorem forEach_seg {l : Links α} {body : σ → α → σ} {head a : α} {xs : List α} {fuel : ℕ} {s : σ}
    (hs : Seg l a xs head) (hx : head ∉ xs) (hf : xs.length < fuel) :
    forEach l body head fuel (l.next a) s = some (xs.foldl body s) := by
  induction xs generalizing a s fuel with
  | nil =>
    obtain ⟨fuel, rfl⟩ := Nat.exists_eq_add_one_of_ne_zero (by omega : fuel ≠ 0)
    rw [forEach, if_pos hs.1, List.foldl_nil]
  | cons x ys ih =>
    obtain ⟨fuel, rfl⟩ := Nat.exists_eq_add_one_of_ne_zero (by omega : fuel ≠ 0)
    obtain ⟨⟨hnext, _⟩, hrest⟩ := hs
    have hne : x ≠ head := fun e => hx (e ▸ List.mem_cons_self ..)
    rw [forEach, hnext, if_neg hne, List.foldl_cons]
    exact ih hrest (fun hm => hx (List.mem_cons_of_mem _ hm)) (by simpa using hf)

theorem forEach_carries {l : Links α} {body : σ → α → σ} {head : α} {xs : List α} {fuel : ℕ} {s : σ}
    (hc : Carries l head xs) (hf : xs.length < fuel) :
    forEach l body head fuel (l.next head) s = some (xs.foldl body s) :=
  forEach_seg hc.seg hc.head_notMem hf

/-- `list_for_each` with a body that may change the links; none when the body or the loop does not end. -/
def forEachNext (next : σ → α → α) (body : α → σ → Option σ) (head : α) : ℕ → α → σ → Option σ
  | 0, _, _ => none
  | fuel + 1, pos, s =>
    if pos = head then some s
    else (body pos s).bind fun s => forEachNext next body head fuel (next s pos) s

theorem forEachNext_list (next : σ → α → α) (body : α → σ → Option σ) (head : α) (I : List α → σ → Prop)
    (hhead : ∀ x xs s, I (x :: xs) s → x ≠ head)
    (hbody : ∀ x xs s, I (x :: xs) s → ∃ s', body x s = some s' ∧ next s' x = xs.headD head ∧ I xs s')
    {xs : List α} {fuel : ℕ} {s : σ} (hI : I xs s) (hf : xs.length < fuel) :
    ∃ s', forEachNext next body head fuel (xs.headD head) s = some s' ∧ I [] s' := by
  induction xs generalizing s fuel with
  | nil =>
    obtain ⟨fuel, rfl⟩ := Nat.exists_eq_add_one_of_ne_zero (by omega : fuel ≠ 0)
    exact ⟨s, if_pos rfl, hI⟩
  | cons x xs ih =>
    obtain ⟨fuel, rfl⟩ := Nat.exists_eq_add_one_of_ne_zero (by omega : fuel ≠ 0)
    obtain ⟨s₁, hone, hnext, hI₁⟩ := hbody x xs s hI
    obtain ⟨s', hrest, hend⟩ := ih hI₁ (by simpa using hf)
    refine ⟨s', ?_, hend⟩
    rw [List.headD_cons, forEachNext, if_neg (hhead x xs s hI), hone, Option.bind_some, hnext]
    exact hrest

/-- `list_for_each_safe` from `pos` on with the saved next node `n`; its body may change the links. -/
def forEachSafe (next : σ → α → α) (body : α → σ → σ) (head : α) : ℕ → α → α → σ → Option σ
  | 0, _, _, _ => none
  | fuel + 1, pos, n, s =>
    if pos = head then some s
    else
      let s := body pos s
      forEachSafe next body head fuel n (next s n) s

/-- The step from a node is taken in the state before its body, so the body may take the node away. -/
theorem forEachSafe_list (next : σ → α → α) (body : α → σ → σ) (head : α) (I : List α → σ → Prop)
    (hhead : ∀ x xs s, I (x :: xs) s → x ≠ head)
    (hnext : ∀ x xs s, I (x :: xs) s → next s x = xs.headD head)
    (hbody : ∀ x xs s, I (x :: xs) s → I xs (body x s))
    {xs : List α} {fuel : ℕ} {s : σ} (hI : I xs s) (hf : xs.length < fuel) :
    ∃ s', forEachSafe next body head fuel (xs.headD head) (next s (xs.headD head)) s = some s' ∧
      I [] s' := by
  induction xs generalizing s fuel with
  | nil =>
    obtain ⟨fuel, rfl⟩ := Nat.exists_eq_add_one_of_ne_zero (by omega : fuel ≠ 0)
    exact ⟨s, if_pos rfl, hI⟩
  | cons x xs ih =>
    obtain ⟨fuel, rfl⟩ := Nat.exists_eq_add_one_of_ne_zero (by omega : fuel ≠ 0)
    obtain ⟨s', hrest, hend⟩ := ih (hbody x xs s hI) (by simpa using hf)
    refine ⟨s', ?_, hend⟩
    rw [List.headD_cons, forEachSafe, if_neg (hhead x xs s hI), hnext x xs s hI]
    exact hrest

end Loops

end CircularList

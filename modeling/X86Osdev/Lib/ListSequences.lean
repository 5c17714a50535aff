import X86Osdev.Lib.List
import X86Osdev.Library.LinkedQueues
import Mathlib.Logic.Relation
import Mathlib.Data.Set.Lattice
import Mathlib.Order.CompletePartialOrder

/-! The lists of lib/list.h as sequences: each operation on the bytes of the nodes is an operation on the
sequences, and each loop visits its sequence. -/

namespace X86Osdev.Lib
open X86Osdev.Mem CircularList ByteMemory

section Loops
variable {σ : Type}

/-- `list_for_each`; the body may change memory. -/
def listForEach (mem : σ → Memory) (body : ℕ → σ → σ) (head : ℕ) (s : σ) : Option σ :=
  forEachNext (fun s pos => listNext (mem s) pos) (fun pos s => some (body pos s)) head (2 ^ 32)
    (listNext (mem s) head) s

def listForEachSafe (mem : σ → Memory) (body : ℕ → σ → σ) (head : ℕ) (s : σ) : Option σ :=
  let pos := listNext (mem s) head
  forEachSafe (fun s n => listNext (mem s) n) body head (2 ^ 32) pos (listNext (mem s) pos) s

def listLength (m : Memory) (head : ℕ) : Option ℕ :=
  if head = 0 then some 0 else listForEach (fun _ => m) (fun _ i => u32 (i + 1)) head 0

end Loops

section Families
variable {ι : Type*}

def ringNodes (heads : ι → ℕ) (elems : ι → List ℕ) : Set ℕ := {x | ∃ i, x ∈ heads i :: elems i}

structure Lists (m : Memory) (heads : ι → ℕ) (elems : ι → List ℕ) : Prop where
  rings : Rings (linksOf m) heads elems
  spaced : Spaced (ringNodes heads elems)
  nonnull : 0 ∉ ringNodes heads elems

structure Fits (heads : ι → ℕ) (elems : ι → List ℕ) (n : ℕ) : Prop where
  unlinked : Unlinked heads elems n
  spaced : Spaced (insert n (ringNodes heads elems))
  nonnull : n ≠ 0

section Nodes
variable {m : Memory} {heads : ι → ℕ} {elems : ι → List ℕ} {i : ι} {n : ℕ}

theorem Spaced.mono {S T : Set ℕ} (h : Spaced T) (hS : S ⊆ T) : Spaced S :=
  fun x hx => ⟨(h x (hS hx)).1, fun y hy => (h x (hS hx)).2 y (hS hy)⟩

theorem nodesIn_ringNodes (heads : ι → ℕ) (elems : ι → List ℕ) :
    NodesIn (ringNodes heads elems) heads elems := fun i _ hx => ⟨i, hx⟩

theorem Lists.carries (h : Lists m heads elems) (i : ι) : Carries (linksOf m) (heads i) (elems i) :=
  h.rings.carries i

theorem Lists.nodup (h : Lists m heads elems) (i : ι) : (elems i).Nodup :=
  (List.nodup_cons.mp (h.carries i).nodup).2

theorem Lists.length_lt (h : Lists m heads elems) (i : ι) : (elems i).length < 2 ^ 29 := by
  have hnodes : ∀ x ∈ heads i :: elems i, x ∈ ringNodes heads elems := fun x hx => ⟨i, hx⟩
  have hinj : ∀ x ∈ heads i :: elems i, ∀ y ∈ heads i :: elems i, x / 8 = y / 8 → x = y := by
    intro x hx y hy hxy
    by_contra hne
    have := (h.spaced x (hnodes x hx)).2 y (hnodes y hy) hne
    omega
  have hnd : ((heads i :: elems i).map (· / 8)).Nodup :=
    (h.carries i).nodup.map_on fun x hx y hy => hinj x hx y hy
  have hlen := length_le_of_lt (N := 2 ^ 29) hnd fun x hx => by
    obtain ⟨y, hy, rfl⟩ := List.mem_map.mp hx
    have := (h.spaced y (hnodes y hy)).1
    omega
  rw [List.length_map, List.length_cons] at hlen
  omega

theorem Lists.touches {P : Set ℕ} {m' : Memory} (h : Lists m heads elems)
    (hm : Touches (2 ^ 32) P m m') (hP : Disjoint P (linkBytes (ringNodes heads elems))) :
    Lists m' heads elems :=
  ⟨rings_touches h.spaced h.rings (nodesIn_ringNodes heads elems) hm
    fun _ hx => Set.disjoint_left.mp hP hx, h.spaced, h.nonnull⟩

theorem Lists.of_rings {m' : Memory} {elems' : ι → List ℕ} (h : Lists m heads elems)
    (hn : Fits heads elems n) (hr : Rings (linksOf m') heads elems')
    (hsub : ringNodes heads elems' ⊆ insert n (ringNodes heads elems)) : Lists m' heads elems' := by
  refine ⟨hr, hn.spaced.mono hsub, fun h0 => ?_⟩
  rcases hsub h0 with e | h0
  · exact hn.nonnull e.symm
  · exact h.nonnull h0

theorem Fits.nodesIn (heads : ι → ℕ) (elems : ι → List ℕ) (n : ℕ) :
    NodesIn (insert n (ringNodes heads elems)) heads elems := fun i _ hx => .inr ⟨i, hx⟩

end Nodes

section Operations
variable [DecidableEq ι] {m : Memory} {heads : ι → ℕ} {elems : ι → List ℕ} {i : ι} {n : ℕ}

theorem ringNodes_update {xs : List ℕ} (hxs : ∀ x ∈ xs, x = n ∨ x ∈ elems i) :
    ringNodes heads (Function.update elems i xs) ⊆ insert n (ringNodes heads elems) := by
  rintro x ⟨j, hx⟩
  by_cases hj : j = i
  · subst hj
    rw [Function.update_self] at hx
    rcases List.mem_cons.mp hx with e | hx
    · exact .inr ⟨j, List.mem_cons.mpr (.inl e)⟩
    · exact (hxs x hx).imp id fun hx => ⟨j, List.mem_cons_of_mem _ hx⟩
  · rw [Function.update_of_ne hj] at hx
    exact .inr ⟨j, hx⟩

theorem Lists.listAddHead (h : Lists m heads elems) (i : ι) (hn : Fits heads elems n) :
    Lists (listAddHead m (heads i) n) heads (Function.update elems i (n :: elems i)) := by
  have hr := rings_listAddHead hn.spaced h.rings (Fits.nodesIn heads elems n) i (.inl rfl) hn.unlinked
  exact h.of_rings hn hr.1 (ringNodes_update fun x hx => List.mem_cons.mp hx)

theorem Lists.listAddTail (h : Lists m heads elems) (i : ι) (hn : Fits heads elems n) :
    Lists (listAddTail m (heads i) n) heads (Function.update elems i (elems i ++ [n])) := by
  have hr := rings_listAddTail hn.spaced h.rings (Fits.nodesIn heads elems n) i (.inl rfl) hn.unlinked
  refine h.of_rings hn hr.1 (ringNodes_update fun x hx => ?_)
  exact (List.mem_append.mp hx).symm.imp List.mem_singleton.mp id

theorem Lists.listRemove (h : Lists m heads elems) (hn : n ∈ elems i) :
    Lists (listRemove m n) heads (Function.update elems i ((elems i).erase n)) := by
  have hr := rings_listRemove h.spaced h.rings (nodesIn_ringNodes heads elems) hn
  have herase : (fun j => (elems j).erase n) = Function.update elems i ((elems i).erase n) := by
    funext j
    by_cases hj : j = i
    · subst hj
      rw [Function.update_self]
    · rw [Function.update_of_ne hj]
      exact List.erase_of_not_mem fun hnj => hj (h.rings.mem_unique hnj hn)
  rw [herase] at hr
  have hsub : ringNodes heads (Function.update elems i ((elems i).erase n)) ⊆ ringNodes heads elems := by
    intro x hx
    rcases ringNodes_update (n := n) (fun x hx => .inr (List.mem_of_mem_erase hx)) hx with rfl | hx
    · exact ⟨i, List.mem_cons_of_mem _ hn⟩
    · exact hx
  exact ⟨hr.1, h.spaced.mono hsub, fun h0 => h.nonnull (hsub h0)⟩

theorem Lists.fits_removed (h : Lists m heads elems) (hn : n ∈ elems i) :
    Fits heads (Function.update elems i ((elems i).erase n)) n := by
  have hnode : n ∈ ringNodes heads elems := ⟨i, List.mem_cons_of_mem _ hn⟩
  refine ⟨fun j hj => ?_, h.spaced.mono fun x hx => ?_, fun e => h.nonnull (e ▸ hnode)⟩
  · by_cases hji : j = i
    · subst hji
      rw [Function.update_self] at hj
      rcases List.mem_cons.mp hj with e | hj
      · exact (h.carries j).head_notMem (e ▸ hn)
      · exact ((h.nodup j).mem_erase_iff.mp hj).1 rfl
    · rw [Function.update_of_ne hji] at hj
      exact h.rings.apart j i hji hj (List.mem_cons_of_mem _ hn)
  · rcases hx with rfl | hx
    · exact hnode
    · rcases ringNodes_update (n := n) (fun x hx => .inr (List.mem_of_mem_erase hx)) hx with rfl | hx
      · exact hnode
      · exact hx

omit [DecidableEq ι] in
theorem listRemove_self_linked (hnext : listNext m n = n) (hprev : listPrev m n = n) :
    listRemove m n = m := by
  have hn : setNext m n n = m := by
    have hload : load32 m n = n := hnext
    conv_lhs => rw [setNext, ← hload, hload]
    exact store_load_self hload
  unfold Lib.listRemove
  dsimp only
  rw [hnext, hprev, hn]
  exact store_load_self hprev

end Operations

/-- What the body of `list_for_each_safe` may do to memory and to the sequences while it stands on the node
`pos` of list `i`: take the node out, move nodes of other lists and nodes on no list, and store where no node
of a list is, be it in the node just taken out. -/
inductive BodyStep [DecidableEq ι] (heads : ι → ℕ) (i : ι) (pos : ℕ) :
    Memory × (ι → List ℕ) → Memory × (ι → List ℕ) → Prop
  | unlink {m : Memory} {elems : ι → List ℕ} (hpos : pos ∈ elems i) : BodyStep heads i pos (m, elems)
      (listRemove m pos, Function.update elems i ((elems i).erase pos))
  | remove {m : Memory} {elems : ι → List ℕ} {j : ι} {n : ℕ} (hj : j ≠ i) (hn : n ∈ elems j) :
    BodyStep heads i pos (m, elems) (listRemove m n, Function.update elems j ((elems j).erase n))
  | addHead {m : Memory} {elems : ι → List ℕ} {j : ι} {n : ℕ} (hj : j ≠ i) (hn : Fits heads elems n) :
    BodyStep heads i pos (m, elems) (listAddHead m (heads j) n, Function.update elems j (n :: elems j))
  | addTail {m : Memory} {elems : ι → List ℕ} {j : ι} {n : ℕ} (hj : j ≠ i) (hn : Fits heads elems n) :
    BodyStep heads i pos (m, elems) (listAddTail m (heads j) n, Function.update elems j (elems j ++ [n]))
  | store {m m' : Memory} {elems : ι → List ℕ} {P : Set ℕ} (hm : Touches (2 ^ 32) P m m')
      (hP : Disjoint P (linkBytes (ringNodes heads elems))) :
    BodyStep heads i pos (m, elems) (m', elems)

/-- The body keeps `J` and takes such steps only. -/
def SafeBody [DecidableEq ι] {σ : Type} (mem : σ → Memory) (heads : ι → ℕ) (i : ι)
    (J : σ → (ι → List ℕ) → Prop) (body : ℕ → σ → σ) : Prop :=
  ∀ s elems pos, J s elems → Lists (mem s) heads elems → pos ∈ elems i →
    ∃ elems', Relation.ReflTransGen (BodyStep heads i pos) (mem s, elems) (mem (body pos s), elems') ∧
      J (body pos s) elems'

def KeepsList {σ : Type} (mem : σ → Memory) (head : ℕ) (xs : List ℕ) (body : ℕ → σ → σ) : Prop :=
  ∀ s, Carries (linksOf (mem s)) head xs → ∀ pos ∈ xs, Carries (linksOf (mem (body pos s))) head xs

section Bodies
variable {m : Memory} {heads : ι → ℕ} {elems : ι → List ℕ} {i : ι} {pos : ℕ} {σ : Type}
  {mem : σ → Memory} {body : ℕ → σ → σ} {s : σ}

theorem listForEach_eq {head : ℕ} {xs : List ℕ} (hc : Carries (linksOf (mem s)) head xs)
    (hlen : xs.length < 2 ^ 32) (hbody : KeepsList mem head xs body) :
    listForEach mem body head s = some (xs.foldl (fun s pos => body pos s) s) := by
  have hloop := forEachNext_list (fun s pos => listNext (mem s) pos) (fun pos s => some (body pos s)) head
    (fun rest s' => (∃ seen, xs = seen ++ rest ∧ Carries (linksOf (mem s')) head xs) ∧
      rest.foldl (fun s pos => body pos s) s' = xs.foldl (fun s pos => body pos s) s)
    ?_ ?_ ⟨⟨[], rfl, hc⟩, rfl⟩ hlen
  · obtain ⟨s', hrun, -, hend⟩ := hloop
    have hnext : listNext (mem s) head = xs.headD head := hc.next_head
    rw [listForEach, hnext, hrun]
    exact congrArg some hend
  · rintro x rest s' ⟨⟨seen, rfl, hc'⟩, -⟩ rfl
    exact hc'.head_notMem (List.mem_append_right _ (List.mem_cons_self ..))
  · rintro x rest s' ⟨⟨seen, rfl, hc'⟩, hend⟩
    have hkept := hbody s' hc' x (List.mem_append_right _ (List.mem_cons_self ..))
    exact ⟨_, rfl, hkept.next_eq, ⟨seen ++ [x], by rw [List.append_assoc, List.singleton_append], hkept⟩, hend⟩

theorem listLength_eq (h : Lists m heads elems) (i : ι) :
    listLength m (heads i) = some (elems i).length := by
  have hlen := h.length_lt i
  have hne : heads i ≠ 0 := fun e => h.nonnull ⟨i, e ▸ List.mem_cons_self ..⟩
  have hloop : listForEach (fun _ : ℕ => m) (fun _ i => u32 (i + 1)) (heads i) 0 =
      some ((elems i).foldl (fun i _ => u32 (i + 1)) 0) :=
    listForEach_eq (h.carries i) (by omega) fun _ hc _ _ => hc
  rw [listLength, if_neg hne, hloop]
  have hcount : ∀ (xs : List ℕ) (c : ℕ), c + xs.length < 2 ^ 32 →
      xs.foldl (fun i _ => u32 (i + 1)) c = c + xs.length := by
    intro xs
    induction xs with
    | nil => exact fun c _ => rfl
    | cons x xs ih =>
      intro c hc
      rw [List.length_cons] at hc ⊢
      rw [List.foldl_cons, u32_of_lt (by omega), ih _ (by omega)]
      omega
  rw [hcount _ _ (by omega), Nat.zero_add]

variable [DecidableEq ι]

theorem Lists.step {elems' : ι → List ℕ} {m' : Memory} (h : Lists m heads elems)
    (hs : BodyStep heads i pos (m, elems) (m', elems')) : Lists m' heads elems' := by
  cases hs with
  | unlink hpos => exact h.listRemove hpos
  | remove hj hn => exact h.listRemove hn
  | addHead hj hn => exact h.listAddHead _ hn
  | addTail hj hn => exact h.listAddTail _ hn
  | store hm hP => exact h.touches hm hP

theorem BodyStep.loop_list {p p' : Memory × (ι → List ℕ)} (hs : BodyStep heads i pos p p') :
    p'.2 i = p.2 i ∨ p'.2 i = (p.2 i).erase pos := by
  cases hs with
  | unlink hpos => exact .inr (Function.update_self ..)
  | remove hj hn => exact .inl (Function.update_of_ne (Ne.symm hj) ..)
  | addHead hj hn => exact .inl (Function.update_of_ne (Ne.symm hj) ..)
  | addTail hj hn => exact .inl (Function.update_of_ne (Ne.symm hj) ..)
  | store hm hP => exact .inl rfl

theorem Lists.steps {m' : Memory} {elems' : ι → List ℕ} (h : Lists m heads elems)
    (hs : Relation.ReflTransGen (BodyStep heads i pos) (m, elems) (m', elems')) :
    Lists m' heads elems' ∧ (elems' i = elems i ∨ elems' i = (elems i).erase pos) := by
  have hnd := h.nodup i
  suffices hall : ∀ p, Relation.ReflTransGen (BodyStep heads i pos) (m, elems) p →
      Lists p.1 heads p.2 ∧ (p.2 i = elems i ∨ p.2 i = (elems i).erase pos) from hall _ hs
  intro p hs
  induction hs with
  | refl => exact ⟨h, .inl rfl⟩
  | @tail p₁ p₂ _ hstep ih =>
    obtain ⟨h₁, hlist⟩ := ih
    refine ⟨h₁.step hstep, ?_⟩
    rcases hstep.loop_list with e | e
    · rw [e]
      exact hlist
    · right
      rcases hlist with e₁ | e₁
      · rw [e, e₁]
      · rw [e, e₁, List.erase_of_not_mem fun hin => (hnd.mem_erase_iff.mp hin).1 rfl]

theorem listForEachSafe_eq {J : σ → (ι → List ℕ) → Prop} (h : Lists (mem s) heads elems)
    (hJ : J s elems) (hbody : SafeBody mem heads i J body) :
    ∃ elems', listForEachSafe mem body (heads i) s =
        some ((elems i).foldl (fun s pos => body pos s) s) ∧
      Lists (mem ((elems i).foldl (fun s pos => body pos s) s)) heads elems' ∧
      J ((elems i).foldl (fun s pos => body pos s) s) elems' ∧ (elems' i).Sublist (elems i) := by
  have hlen := h.length_lt i
  have hlen : (elems i).length < 2 ^ 32 := by omega
  have hloop := forEachSafe_list (fun s n => listNext (mem s) n) body (heads i)
    (fun rest s' => (∃ elems' kept, Lists (mem s') heads elems' ∧ J s' elems' ∧
        elems' i = kept ++ rest ∧ (kept ++ rest).Sublist (elems i)) ∧
      rest.foldl (fun s pos => body pos s) s' = (elems i).foldl (fun s pos => body pos s) s)
    ?_ ?_ ?_ ⟨⟨elems, [], h, hJ, rfl, List.Sublist.refl _⟩, rfl⟩ hlen
  · obtain ⟨s', hrun, ⟨elems', kept, h', hJ', he, hsub⟩, hend⟩ := hloop
    have hend : s' = (elems i).foldl (fun s pos => body pos s) s := hend
    have hnext : listNext (mem s) (heads i) = (elems i).headD (heads i) := (h.carries i).next_head
    subst hend
    refine ⟨elems', ?_, h', hJ', by rwa [he]⟩
    unfold listForEachSafe
    dsimp only
    rw [hnext]
    exact hrun
  · rintro x rest s' ⟨⟨elems', kept, h', -, he, -⟩, -⟩ rfl
    refine (h'.carries i).head_notMem ?_
    rw [he]
    exact List.mem_append_right _ (List.mem_cons_self ..)
  · rintro x rest s' ⟨⟨elems', kept, h', -, he, -⟩, -⟩
    have hc := h'.carries i
    rw [he] at hc
    exact hc.next_eq
  · rintro x rest s' ⟨⟨elems', kept, h', hJ', he, hsub⟩, hend⟩
    have hnd := h'.nodup i
    have hx : x ∈ elems' i := by
      rw [he]
      exact List.mem_append_right _ (List.mem_cons_self ..)
    obtain ⟨elems'', hsteps, hJ''⟩ := hbody s' elems' x hJ' h' hx
    obtain ⟨h'', hlist⟩ := h'.steps hsteps
    refine ⟨?_, hend⟩
    -- the node is still on the list, in front of the rest, or it has been taken out
    rcases hlist with e | e
    · refine ⟨elems'', kept ++ [x], h'', hJ'', ?_, ?_⟩
      · rw [e, he, List.append_assoc, List.singleton_append]
      · rwa [List.append_assoc, List.singleton_append]
    · rw [he] at hnd e
      have hnot : x ∉ kept := fun hin =>
        List.disjoint_of_nodup_append hnd hin (List.mem_cons_self ..)
      rw [List.erase_append_right _ hnot, List.erase_cons_head] at e
      refine ⟨elems'', kept, h'', hJ'', e, List.Sublist.trans ?_ hsub⟩
      exact (List.Sublist.refl kept).append (List.sublist_cons_self ..)

end Bodies

/-- The operations and loops of lib/list.h on the sequences that the lists carry. -/
structure SequenceOperations [DecidableEq ι] (m : Memory) (heads : ι → ℕ) (elems : ι → List ℕ) : Prop where
  addHead : ∀ i n, Fits heads elems n →
    Lists (listAddHead m (heads i) n) heads (Function.update elems i (n :: elems i))
  addTail : ∀ i n, Fits heads elems n →
    Lists (listAddTail m (heads i) n) heads (Function.update elems i (elems i ++ [n]))
  remove : ∀ i, ∀ n ∈ elems i,
    Lists (listRemove m n) heads (Function.update elems i ((elems i).erase n))
  removeSelf : ∀ n, listNext m n = n → listPrev m n = n → listRemove m n = m
  length : ∀ i, listLength m (heads i) = some (elems i).length ∧ (elems i).length < 2 ^ 31
  forEach : ∀ i (σ : Type) (mem : σ → Memory) (body : ℕ → σ → σ) (s : σ), mem s = m →
    KeepsList mem (heads i) (elems i) body →
      listForEach mem body (heads i) s = some ((elems i).foldl (fun s pos => body pos s) s)
  forEachSafe : ∀ i (σ : Type) (mem : σ → Memory) (body : ℕ → σ → σ) (J : σ → (ι → List ℕ) → Prop) (s : σ),
    mem s = m → J s elems → SafeBody mem heads i J body →
      ∃ s' elems', listForEachSafe mem body (heads i) s = some s' ∧
        s' = (elems i).foldl (fun s pos => body pos s) s ∧
        Lists (mem s') heads elems' ∧ J s' elems' ∧ (elems' i).Sublist (elems i)

/-- Well-formed lists behave as sequences. -/
theorem lists_are_sequences [DecidableEq ι] {m : Memory} {heads : ι → ℕ} {elems : ι → List ℕ}
    (h : Lists m heads elems) : SequenceOperations m heads elems where
  addHead i _ hn := h.listAddHead i hn
  addTail i _ hn := h.listAddTail i hn
  remove _ _ hn := h.listRemove hn
  removeSelf _ hnext hprev := listRemove_self_linked hnext hprev
  length i := ⟨listLength_eq h i, (h.length_lt i).trans (by decide)⟩
  forEach i σ mem body s hs hbody := by
    subst hs
    exact listForEach_eq (h.carries i) ((h.length_lt i).trans (by decide)) hbody
  forEachSafe i σ mem body J s hs hJ hbody := by
    subst hs
    obtain ⟨elems', hrun, hend⟩ := listForEachSafe_eq h hJ hbody
    exact ⟨_, elems', hrun, rfl, hend⟩

end Families

def twoHeads (full : Bool) : ℕ := if full then 0x1000 else 0x2000

def twoNodes : Bool → List ℕ := Function.update (fun _ => []) true [0x3000, 0x4000]

theorem lists_twoNodes : ∃ m, Lists m twoHeads twoNodes := by
  have hnodes : ∀ x ∈ insert 0x3000 (insert 0x4000 (ringNodes twoHeads fun _ => [])),
      x = 0x1000 ∨ x = 0x2000 ∨ x = 0x3000 ∨ x = 0x4000 := by
    rintro x (rfl | rfl | ⟨full, hx⟩)
    · exact .inr (.inr (.inl rfl))
    · exact .inr (.inr (.inr rfl))
    · rw [List.mem_singleton.mp hx]
      cases full with
      | true => exact .inl rfl
      | false => exact .inr (.inl rfl)
  have hspaced : Spaced (insert 0x3000 (insert 0x4000 (ringNodes twoHeads fun _ => []))) := by
    intro x hx
    have hx := hnodes x hx
    refine ⟨by omega, fun y hy hne => ?_⟩
    have hy := hnodes y hy
    omega
  have hempty : Lists (listInit (listInit (fun _ => 0) 0x1000) 0x2000) twoHeads fun _ => [] := by
    refine ⟨⟨fun full => ⟨?_, List.nodup_singleton _⟩, fun full full' hne => ?_⟩,
      hspaced.mono fun x hx => .inr (.inr hx), fun h0 => ?_⟩
    · cases full with
      | true => exact ⟨by decide, by decide⟩
      | false => exact ⟨by decide, by decide⟩
    · have hheads : ∀ full full', full ≠ full' → twoHeads full' ∉ [twoHeads full] := by decide
      exact List.disjoint_singleton.mpr (hheads full full' hne)
    · have := hnodes 0 (.inr (.inr h0))
      omega
  have hfits : ∀ n ∈ [0x3000, 0x4000], ∀ full : Bool, n ∉ [twoHeads full] := by decide
  have hone := hempty.listAddHead true (n := 0x4000) ⟨hfits _ (by decide),
    hspaced.mono fun x hx => .inr hx, by decide⟩
  have htwo := hone.listAddHead true (n := 0x3000) ⟨fun full => ?_, hspaced.mono fun x hx => ?_, by decide⟩
  · rw [Function.update_self, Function.update_idem] at htwo
    exact ⟨_, htwo⟩
  · cases full with
    | true => decide
    | false => decide
  · rcases hx with rfl | hx
    · exact .inl rfl
    · exact .inr (ringNodes_update (i := true) (fun x hx => .inl (List.mem_singleton.mp hx)) hx)

/-- The body moves each node to the end of the second list. -/
theorem lists_are_sequences_moved : ∃ m m', Lists m twoHeads twoNodes ∧
    listLength m (twoHeads true) = some 2 ∧
    listForEachSafe id (fun pos m => listAddTail (listRemove m pos) (twoHeads false) pos) (twoHeads true) m =
      some m' := by
  obtain ⟨m, h⟩ := lists_twoNodes
  have hsafe : SafeBody id twoHeads true (fun _ _ => True)
      fun pos m => listAddTail (listRemove m pos) (twoHeads false) pos := by
    intro m elems pos _ h hpos
    have hremove : BodyStep twoHeads true pos (m, elems)
        (listRemove m pos, Function.update elems true ((elems true).erase pos)) := .unlink hpos
    have hmove := Relation.ReflTransGen.tail (.single hremove)
      (.addTail Bool.false_ne_true (h.fits_removed hpos))
    exact ⟨_, hmove, trivial⟩
  have hops := lists_are_sequences h
  obtain ⟨m', -, hrun, -⟩ := hops.forEachSafe true _ id _ _ m rfl trivial hsafe
  exact ⟨m, m', h, (hops.length true).1, hrun⟩

end X86Osdev.Lib

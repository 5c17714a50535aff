import X86Osdev.Proc.QueueInvariant

/-! The tree of threads: fathers and lists of children, and what `reparent` makes of them. -/

namespace X86Osdev.Proc
open CircularList X86Osdev.Mem

/-- Every thread that is not reaped, other than `init_thread`, is on the list of children of its father,
which is not reaped; every child on such a list has that father. -/
structure TreeInv (k : Machine) : Prop where
  init : k.initThread ∈ k.allocated
  father : ∀ t ∈ k.allocated, t ≠ k.initThread →
    (k.threads t).father ∈ k.allocated ∧ t ∈ (k.threads (k.threads t).father).children
  child : ∀ u ∈ k.allocated, ∀ c ∈ (k.threads u).children,
    c ∈ k.allocated ∧ c ≠ k.initThread ∧ (k.threads c).father = u
  once : ∀ u ∈ k.allocated, (k.threads u).children.Nodup

structure SameTree (k k' : Machine) : Prop where
  allocated : k'.allocated = k.allocated
  initThread : k'.initThread = k.initThread
  father : Keeps Thread.father k k'
  children : Keeps Thread.children k k'

/-- A tree again, in which no thread but `init_thread` has got its first child. -/
structure Prunes (k k' : Machine) : Prop where
  tree : TreeInv k'
  allocated : k'.allocated = k.allocated
  initThread : k'.initThread = k.initThread
  leaf : ∀ u, u ≠ k.initThread → (k.threads u).children = [] → (k'.threads u).children = []

section Tree
variable {k k' k'' : Machine} {p p1 t u : ℕ}

theorem SameTree.refl (k : Machine) : SameTree k k := ⟨rfl, rfl, Keeps.refl k, Keeps.refl k⟩

theorem SameTree.trans (h : SameTree k k') (h' : SameTree k' k'') : SameTree k k'' :=
  ⟨h'.allocated.trans h.allocated, h'.initThread.trans h.initThread, h.father.trans h'.father,
    h.children.trans h'.children⟩

theorem SameTree.of_threads (ha : k'.allocated = k.allocated) (hi : k'.initThread = k.initThread)
    (ht : k'.threads = k.threads) : SameTree k k' :=
  ⟨ha, hi, fun u => congrArg (fun f => (f u).father) ht, fun u => congrArg (fun f => (f u).children) ht⟩

theorem SameTree.modify (k : Machine) (t : ℕ) {f : Thread → Thread} (hf : ∀ p, (f p).father = p.father)
    (hc : ∀ p, (f p).children = p.children) : SameTree k (k.modify t f) :=
  ⟨rfl, rfl, Keeps.modify k t hf, Keeps.modify k t hc⟩

theorem SameTree.setState (k : Machine) (t : ℕ) (s : TaskState) : SameTree k (k.setState t s) :=
  SameTree.modify k t (fun _ => rfl) fun _ => rfl

theorem TreeInv.congr (h : TreeInv k) (ha : k'.allocated = k.allocated)
    (hi : k'.initThread = k.initThread)
    (hf : ∀ u ∈ k.allocated, (k'.threads u).father = (k.threads u).father)
    (hc : ∀ u ∈ k.allocated, (k'.threads u).children = (k.threads u).children) : TreeInv k' := by
  refine ⟨?_, fun t ht hne => ?_, fun u hu c hm => ?_, fun u hu => ?_⟩
  · rw [hi, ha]
    exact h.init
  · rw [ha] at ht
    rw [hi] at hne
    obtain ⟨hfather, hin⟩ := h.father t ht hne
    rw [hf t ht, ha, hc _ hfather]
    exact ⟨hfather, hin⟩
  · rw [ha] at hu
    rw [hc u hu] at hm
    obtain ⟨hca, hci, hcf⟩ := h.child u hu c hm
    rw [ha, hi, hf c hca]
    exact ⟨hca, hci, hcf⟩
  · rw [ha] at hu
    rw [hc u hu]
    exact h.once u hu

theorem TreeInv.same (h : TreeInv k) (hs : SameTree k k') : TreeInv k' :=
  h.congr hs.allocated hs.initThread (fun u _ => hs.father u) fun u _ => hs.children u

theorem Prunes.same (h : TreeInv k) (hs : SameTree k k') : Prunes k k' :=
  ⟨h.same hs, hs.allocated, hs.initThread, fun u _ hu => (hs.children u).trans hu⟩

theorem Prunes.trans (h : Prunes k k') (h' : Prunes k' k'') : Prunes k k'' :=
  ⟨h'.tree, h'.allocated.trans h.allocated, h'.initThread.trans h.initThread,
    fun u hu he => h'.leaf u (fun e => hu (e.trans h.initThread)) (h.leaf u hu he)⟩

theorem children_adopt (k : Machine) (p1 u : ℕ) : ((adopt k p1).threads u).children =
    if u = k.initThread then p1 :: (k.threads u).children.erase p1
    else (k.threads u).children.erase p1 := by
  have hremove : ∀ u, (((k.removeSibling p1).modify p1 fun p =>
      { p with father := k.initThread }).threads u).children = (k.threads u).children.erase p1 := by
    intro u
    rw [modify_apply]
    split
    · next h => rw [h]; rfl
    · rfl
  show (((((k.removeSibling p1).modify p1 fun p => { p with father := k.initThread }).modify
    k.initThread fun p => { p with children := p1 :: p.children })).threads u).children = _
  rw [modify_apply]
  split
  · next h =>
    rw [h]
    exact congrArg (p1 :: ·) (hremove k.initThread)
  · exact hremove u

theorem father_adopt (k : Machine) (p1 u : ℕ) : ((adopt k p1).threads u).father =
    if u = p1 then k.initThread else (k.threads u).father := by
  have hadd : Keeps Thread.father ((k.removeSibling p1).modify p1 fun p =>
      { p with father := k.initThread }) (adopt k p1) :=
    Keeps.modify (g := fun p => { p with children := p1 :: p.children }) _ k.initThread fun _ => rfl
  rw [hadd u, modify_apply]
  split
  · rfl
  · rfl

theorem TreeInv.adopt (h : TreeInv k) (hp : p1 ∈ k.allocated) (hne : p1 ≠ k.initThread) :
    TreeInv (adopt k p1) := by
  have hmem : ∀ u ∈ k.allocated, ∀ c, c ∈ (k.threads u).children.erase p1 ↔
      c ≠ p1 ∧ c ∈ (k.threads u).children := fun u hu c => (h.once u hu).mem_erase_iff
  refine ⟨h.init, fun t ht htne => ?_, fun u hu c hc => ?_, fun u hu => ?_⟩
  · rw [father_adopt]
    by_cases htp : t = p1
    · rw [if_pos htp, children_adopt, if_pos rfl, htp]
      exact ⟨h.init, List.mem_cons_self ..⟩
    · obtain ⟨hf, hin⟩ := h.father t ht htne
      rw [if_neg htp, children_adopt]
      refine ⟨hf, ?_⟩
      have hin' := (hmem _ hf t).mpr ⟨htp, hin⟩
      split
      · exact List.mem_cons_of_mem _ hin'
      · exact hin'
  · rw [children_adopt] at hc
    have hu : u ∈ k.allocated := hu
    have hold : c ∈ (k.threads u).children.erase p1 → c ∈ k.allocated ∧ c ≠ k.initThread ∧
        ((Proc.adopt k p1).threads c).father = u := by
      intro hc
      obtain ⟨hcp, hc⟩ := (hmem u hu c).mp hc
      rw [father_adopt, if_neg hcp]
      exact h.child u hu c hc
    split at hc
    · next hinit =>
      rcases List.mem_cons.mp hc with rfl | hc
      · refine ⟨hp, hne, ?_⟩
        rw [father_adopt, if_pos rfl, hinit]
      · exact hold hc
    · exact hold hc
  · rw [children_adopt]
    have hu : u ∈ k.allocated := hu
    split
    · exact List.nodup_cons.mpr ⟨fun hm => ((hmem u hu p1).mp hm).1 rfl, (h.once u hu).erase p1⟩
    · exact (h.once u hu).erase p1

theorem Prunes.adopt (h : TreeInv k) (hp : p1 ∈ k.allocated) (hne : p1 ≠ k.initThread) :
    Prunes k (Proc.adopt k p1) := by
  refine ⟨h.adopt hp hne, rfl, rfl, fun u hu he => ?_⟩
  rw [children_adopt, if_neg hu, he]
  rfl

theorem Prunes.foldl {f : Machine → ℕ → Machine} (P : ℕ → Machine → Prop)
    (hf : ∀ k a, TreeInv k → P a k → Prunes k (f k a))
    (hkeep : ∀ k k' a, Prunes k k' → P a k → P a k') {l : List ℕ} (h : TreeInv k)
    (hl : ∀ a ∈ l, P a k) : Prunes k (l.foldl f k) := by
  induction l generalizing k with
  | nil => exact Prunes.same h (SameTree.refl k)
  | cons a l ih =>
    have hone := hf k a h (hl a (List.mem_cons_self ..))
    refine hone.trans (ih hone.tree fun b hb => hkeep _ _ b hone (hl b (List.mem_cons_of_mem _ hb)))

theorem Prunes.reparent (h : TreeInv k) (hp : p ∈ k.allocated) : Prunes k (reparent p k) := by
  refine Prunes.foldl (fun a k => a ∈ k.allocated ∧ a ≠ k.initThread)
    (fun k a hk ha => Prunes.adopt hk ha.1 ha.2) (fun k k' a hk ha => ?_) h fun c hc => ?_
  · rw [hk.allocated, hk.initThread]
    exact ha
  · obtain ⟨hc, hne, _⟩ := h.child p hp c hc
    exact ⟨hc, hne⟩

theorem Prunes.reparentAll {l : List ℕ} (h : TreeInv k) (hl : ∀ p ∈ l, p ∈ k.allocated) :
    Prunes k (reparentAll l k) :=
  Prunes.foldl (fun a k => a ∈ k.allocated) (fun _ _ hk ha => Prunes.reparent hk ha)
    (fun _ _ _ hk ha => hk.allocated.symm ▸ ha) h hl

theorem children_reparent (hne : p ≠ k.initThread) : ((reparent p k).threads p).children = [] := by
  have key : ∀ (l : List ℕ) (k : Machine), p ≠ k.initThread →
      ((l.foldl adopt k).threads p).children = l.foldl List.erase (k.threads p).children := by
    intro l
    induction l with
    | nil => exact fun k _ => rfl
    | cons a l ih =>
      intro k hne
      rw [List.foldl_cons, List.foldl_cons, ih (adopt k a) hne, children_adopt, if_neg hne]
  have hall : ∀ l : List ℕ, l.foldl List.erase l = [] := by
    intro l
    induction l with
    | nil => rfl
    | cons a l ih =>
      rw [List.foldl_cons, List.erase_cons_head]
      exact ih
  exact (key _ k hne).trans (hall _)

theorem Prunes.buryChild (h : TreeInv k) (hp : p1 ∈ k.allocated) : Prunes k (buryChild k p1) := by
  unfold Proc.buryChild
  split
  · have hrep := Prunes.reparent h hp
    exact hrep.trans (Prunes.same hrep.tree (SameTree.setState _ p1 .zombie))
  · exact Prunes.same h (SameTree.refl k)

theorem Prunes.foldl_buryChild {l : List ℕ} (h : TreeInv k) (hl : ∀ c ∈ l, c ∈ k.allocated) :
    Prunes k (l.foldl Proc.buryChild k) :=
  Prunes.foldl (fun a k => a ∈ k.allocated) (fun _ _ hk ha => Prunes.buryChild hk ha)
    (fun _ _ _ hk ha => hk.allocated.symm ▸ ha) h hl

theorem children_foldl_buryChild {l : List ℕ} {c : ℕ} (h : TreeInv k) (hl : ∀ c ∈ l, c ∈ k.allocated)
    (hc : c ∈ l) (hs : (k.threads c).state = .stopped) (hne : c ≠ k.initThread) :
    ((l.foldl buryChild k).threads c).children = [] := by
  induction l generalizing k with
  | nil => cases hc
  | cons a l ih =>
    have hone := Prunes.buryChild h (hl a (List.mem_cons_self ..))
    have hl' : ∀ c ∈ l, c ∈ (buryChild k a).allocated :=
      fun b hb => hone.allocated.symm ▸ hl b (List.mem_cons_of_mem _ hb)
    have hne' : c ≠ (buryChild k a).initThread := fun e => hne (e.trans hone.initThread)
    by_cases hca : c = a
    · subst hca
      refine (Prunes.foldl_buryChild hone.tree hl').leaf c hne' ?_
      unfold buryChild
      rw [if_pos hs]
      exact (SameTree.setState _ c .zombie).children c |>.trans (children_reparent hne)
    · refine ih hone.tree hl' ((List.mem_cons.mp hc).resolve_left hca) ?_ hne'
      unfold buryChild
      split
      · rw [state_setState, if_neg hca, (Quiet.reparent k a).state, hs]
      · exact hs

end Tree

section Operations
variable {k k' : Machine} {t : ℕ}

theorem sameTree_sleepThread (t : ℕ) (k : Machine) : SameTree k (sleepThread t k) := by
  unfold sleepThread
  split
  · exact SameTree.refl k
  · exact ⟨rfl, rfl, Keeps.setState (fun _ _ => rfl) k t _, Keeps.setState (fun _ _ => rfl) k t _⟩

theorem sameTree_stopThread (t : ℕ) (k : Machine) : SameTree k (stopThread t k) := by
  unfold stopThread
  split
  · exact SameTree.refl k
  · exact ⟨rfl, rfl, Keeps.setState (fun _ _ => rfl) k t _, Keeps.setState (fun _ _ => rfl) k t _⟩

theorem sameTree_wakeUpThread (t : ℕ) (k : Machine) : SameTree k (wakeUpThread t k) :=
  ⟨rfl, rfl, Keeps.setState (fun _ _ => rfl) k t _, Keeps.setState (fun _ _ => rfl) k t _⟩

theorem sameTree_childAwoken (pid : ℕ) (k : Machine) : SameTree k (childAwoken pid k) := by
  unfold childAwoken
  split
  · exact SameTree.refl k
  · next t _ =>
    have hdeliver : SameTree k (k.deliver t sigcko) :=
      SameTree.modify k t (fun _ => rfl) fun _ => rfl
    exact (hdeliver.trans (sameTree_wakeUpThread t _)).trans (SameTree.setState _ t _)

theorem sameTree_killProcess (t : ℕ) (k : Machine) : SameTree k (killProcess t k) :=
  ⟨(killProcess_fixed t k).1, (killProcess_fixed t k).2.2,
    Keeps.killProcess (fun _ _ => rfl) (fun _ _ => rfl) k t,
    Keeps.killProcess (fun _ _ => rfl) (fun _ _ => rfl) k t⟩

theorem SetsPending.sameTree (h : SetsPending t k k') : SameTree k k' :=
  ⟨h.quiet.allocated, h.quiet.initThread, h.keeps fun _ _ => rfl, h.keeps fun _ _ => rfl⟩

theorem Prunes.handleSigcko (h : TreeInv k) (ht : t ∈ k.allocated) (ret : Bool) :
    Prunes k (handleSigcko t ret k).2 := by
  have hchildren : ∀ {k : Machine}, TreeInv k → t ∈ k.allocated →
      ∀ c ∈ (k.threads t).children, c ∈ k.allocated := fun hk htk c hc => (hk.child t htk c hc).1
  have hscan : Prunes k (scanned t k) :=
    Prunes.reparentAll h fun c hc => hchildren h ht c (List.mem_of_mem_filter hc)
  rw [handleSigcko_eq]
  split
  · split
    · refine hscan.trans (Prunes.reparentAll hscan.tree (hchildren hscan.tree ?_))
      rw [hscan.allocated]
      exact ht
    · exact hscan.trans (Prunes.same hscan.tree (sameTree_sleepThread t _))
  · split
    · exact hscan
    · have hbury := Prunes.foldl_buryChild h (hchildren h ht)
      dsimp only
      split
      · exact hbury.trans (Prunes.same hbury.tree (sameTree_sleepThread t _))
      · exact hbury

theorem buried_handleSigcko (h : TreeInv k) (ht : t ∈ k.allocated) (ret : Bool) {c : ℕ}
    (hc : Buries t (fun u => (k.threads u).state) k c) :
    ((handleSigcko t ret k).2.threads c).children = [] := by
  obtain ⟨hwait, hmem, hs, hno⟩ := hc
  have hany : ¬ (k.threads t).children.any (waitedFor t k) = true := by
    intro hany
    obtain ⟨d, hd, hw⟩ := List.any_eq_true.mp hany
    unfold waitedFor at hw
    rw [Bool.and_eq_true, beq_iff_eq] at hw
    exact hno d hd hw
  have hleaf := children_foldl_buryChild h (fun c hc => (h.child t ht c hc).1) hmem hs
    (h.child t ht c hmem).2.1
  rw [handleSigcko_eq, if_neg (by simp [hwait]), if_neg hany]
  dsimp only
  split
  · exact ((sameTree_sleepThread t _).children c).trans hleaf
  · exact hleaf

/-- `handle_signals` prunes the tree and buries only threads without children. -/
theorem handleSignals_tree (h : TreeInv k) (hk : ∀ u ∈ k.kThreads, u ∈ k.allocated)
    (ht : t ∈ k.allocated) (hzero : t ≠ 0) : Prunes k (handleSignals t k).2 ∧
      Moves (fun m => SignalMove t k m ∧ ∀ c, m = .bury c →
        ((handleSignals t k).2.threads c).children = []) k (handleSignals t k).2 := by
  obtain ⟨k₁, hafter, hrest⟩ := handleSignals_phases hzero k
  have hsame : SameTree k k₁ := ⟨hafter.allocated, hafter.initThread, hafter.father, hafter.children⟩
  have htree₁ := h.same hsame
  have ht₁ : t ∈ k₁.allocated := hafter.allocated.symm ▸ ht
  have hfirst : Moves (fun m => SignalMove t k m ∧ ∀ c, m = .bury c →
      ((handleSignals t k).2.threads c).children = []) k k₁ := by
    refine (hafter.moves hk ht).mono fun m hm => ⟨.inl hm, fun c hc => ?_⟩
    rcases hm.2 with rfl | ⟨f, _, rfl⟩
    · cases hc
    · cases hc
  rcases hrest with hset | ⟨hsees, ret, k₂, hset, hset'⟩
  · exact ⟨Prunes.same h (hsame.trans hset.sameTree), hfirst.then_quiet hset.quiet⟩
  · have htree₂ := htree₁.same hset.sameTree
    have ht₂ : t ∈ k₂.allocated := hset.quiet.allocated.symm ▸ ht₁
    have hprune := Prunes.handleSigcko htree₂ ht₂ ret
    have hpre := hsame.trans hset.sameTree
    refine ⟨((Prunes.same h hpre).trans hprune).trans (Prunes.same hprune.tree hset'.sameTree), ?_⟩
    refine hfirst.trans (((Moves.quiet hset.quiet).trans
      ((handleSigcko_moves ht₂ ret).mono fun m hm => ?_)).then_quiet hset'.quiet)
    have hstate : ∀ u, (k₂.threads u).state = stateAtSigcko t k u :=
      fun u => (hset.quiet.state u).trans (hafter.state u)
    have hwait : (k₂.threads t).wait4child = (k.threads t).wait4child :=
      (hset.keeps (f := Thread.wait4child) (fun _ _ => rfl) t).trans (hafter.wait4child t)
    have hwait4 : (k₂.threads t).wait4 = (k.threads t).wait4 :=
      (hset.keeps (f := Thread.wait4) (fun _ _ => rfl) t).trans (hafter.wait4 t)
    rcases hm with ⟨hsus, rfl⟩ | ⟨c, hbury, rfl⟩
    · exact ⟨.inr (.inl ⟨rfl, hsees, hsus.congr hstate hwait (hpre.children t)⟩), fun c hc => nomatch hc⟩
    · refine ⟨.inr (.inr ⟨c, hbury.congr hstate hwait hwait4 (hpre.children t) fun u => ?_, rfl⟩), ?_⟩
      · exact (hset.quiet.pid u).trans (hafter.pid u)
      · rintro d hd
        cases hd
        exact (hset'.sameTree.children c).trans (buried_handleSigcko htree₂ ht₂ ret hbury)

end Operations

section Lifetime
variable {k : Machine} {t : ℕ}

theorem TreeInv.create (h : TreeInv k) (ht : t ∉ k.allocated) (hcur : k.currentThread ∈ k.allocated)
    (hzero : k.currentThread ≠ 0) (w e : ℕ) : TreeInv (createThread t w e k) := by
  have halloc := createThread_allocated t w e k
  have hinit := createThread_initThread t w e k
  have hct : k.currentThread ≠ t := fun e' => ht (e' ▸ hcur)
  have hfather : ∀ u, u ≠ t → ((createThread t w e k).threads u).father = (k.threads u).father :=
    fun u hu => createThread_keeps (f := Thread.father) (fun _ _ => rfl) hu w e k
  have hnew : ((createThread t w e k).threads t).father = k.currentThread :=
    createThread_new (f := Thread.father) (fun _ _ => rfl) t w e k
  have hchildren : ∀ u, ((createThread t w e k).threads u).children =
      if u = t then [] else if u = k.currentThread then t :: (k.threads u).children
        else (k.threads u).children := by
    intro u
    have hcurrent : (addThread t w e k).currentThread = k.currentThread := rfl
    dsimp only [createThread]
    rw [hcurrent, if_neg hzero, modify_apply]
    by_cases hut : u = t
    · subst hut
      rw [if_neg (Ne.symm hct), if_pos rfl]
      exact congrArg Thread.children (Function.update_self u (newThread w e k) k.threads)
    · rw [if_neg hut]
      have hsame : ∀ u, u ≠ t → (addThread t w e k).threads u = k.threads u :=
        fun u hu => Function.update_of_ne hu _ _
      by_cases huc : u = k.currentThread
      · rw [if_pos huc, if_pos huc, huc]
        exact congrArg (fun p => t :: p.children) (hsame _ hct)
      · rw [if_neg huc, if_neg huc, hsame u hut]
  have hinitt : k.initThread ≠ t := fun e' => ht (e' ▸ h.init)
  refine ⟨?_, fun u hu hne => ?_, fun u hu c hc => ?_, fun u hu => ?_⟩
  · rw [hinit, halloc]
    exact List.mem_cons_of_mem _ h.init
  · rw [halloc] at hu ⊢
    rw [hinit] at hne
    rcases List.mem_cons.mp hu with rfl | hu
    · rw [hnew, hchildren, if_neg hct, if_pos rfl]
      exact ⟨List.mem_cons_of_mem _ hcur, List.mem_cons_self ..⟩
    · -- an old thread keeps its father, whose children only grow
      have hut : u ≠ t := fun e' => ht (e' ▸ hu)
      obtain ⟨hf, hin⟩ := h.father u hu hne
      have hft : (k.threads u).father ≠ t := fun e' => ht (e' ▸ hf)
      rw [hfather u hut, hchildren, if_neg hft]
      refine ⟨List.mem_cons_of_mem _ hf, ?_⟩
      split
      · exact List.mem_cons_of_mem _ hin
      · exact hin
  · rw [hchildren] at hc
    split at hc
    · cases hc
    · next hut =>
      rw [halloc] at hu
      have hu : u ∈ k.allocated := (List.mem_cons.mp hu).resolve_left hut
      have hold : c ∈ (k.threads u).children → c ∈ (createThread t w e k).allocated ∧
          c ≠ (createThread t w e k).initThread ∧ ((createThread t w e k).threads c).father = u := by
        intro hc
        obtain ⟨hca, hci, hcf⟩ := h.child u hu c hc
        have hct' : c ≠ t := fun e' => ht (e' ▸ hca)
        rw [halloc, hinit, hfather c hct']
        exact ⟨List.mem_cons_of_mem _ hca, hci, hcf⟩
      split at hc
      · next huc =>
        rcases List.mem_cons.mp hc with rfl | hc
        · rw [halloc, hinit, hnew]
          exact ⟨List.mem_cons_self .., Ne.symm hinitt, huc.symm⟩
        · exact hold hc
      · exact hold hc
  · rw [hchildren]
    split
    · exact List.nodup_nil
    · next hut =>
      rw [halloc] at hu
      have hu : u ∈ k.allocated := (List.mem_cons.mp hu).resolve_left hut
      split
      · exact List.nodup_cons.mpr ⟨fun hm => ht (h.child u hu t hm).1, h.once u hu⟩
      · exact h.once u hu

theorem TreeInv.reap (h : TreeInv k) (hnd : k.allocated.Nodup) (hne : t ≠ k.initThread)
    (hleaf : (k.threads t).children = []) : TreeInv (reap t k) := by
  have hmem : ∀ u, u ∈ k.allocated.erase t ↔ u ≠ t ∧ u ∈ k.allocated := fun u => hnd.mem_erase_iff
  refine ⟨(hmem _).mpr ⟨Ne.symm hne, h.init⟩, fun u hu hui => ?_, fun u hu c hc => ?_, fun u hu => ?_⟩
  · obtain ⟨hut, hu⟩ := (hmem u).mp hu
    obtain ⟨hf, hin⟩ := h.father u hu hui
    have hft : (k.threads u).father ≠ t := by
      intro e
      rw [e, hleaf] at hin
      cases hin
    exact ⟨(hmem _).mpr ⟨hft, hf⟩, (List.mem_erase_of_ne hut).mpr hin⟩
  · obtain ⟨hut, hu⟩ := (hmem u).mp hu
    obtain ⟨hct, hc⟩ := ((h.once u hu).mem_erase_iff).mp hc
    obtain ⟨hca, hci, hcf⟩ := h.child u hu c hc
    exact ⟨(hmem c).mpr ⟨hct, hca⟩, hci, hcf⟩
  · exact (h.once u ((hmem u).mp hu).2).erase t

end Lifetime

end X86Osdev.Proc

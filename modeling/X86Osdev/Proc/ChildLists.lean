import X86Osdev.Proc.ProcessTree

/-! `handle_signals` on the lists of children themselves, which its loops relink while they run. -/

namespace X86Osdev.Proc
open CircularList X86Osdev.Mem

/-- The `List` nodes of the family of a thread. -/
inductive FamilyNode where
  | children (t : ℕ)
  | siblings (t : ℕ)
deriving DecidableEq

structure Family where
  k : Machine
  links : Links FamilyNode

def Machine.withChildren (C : ℕ → List ℕ) (k : Machine) : Machine :=
  { k with threads := fun u => { k.threads u with children := C u } }

namespace Family

/-- `list_entry(l, Thread, siblings)`. -/
def entry : FamilyNode → ℕ
  | .siblings t => t
  | .children _ => 0

/-- The body of the loop of `reparent`. -/
def adopt (l : FamilyNode) (f : Family) : Family :=
  let p1 := entry l
  let f := { f with links := f.links.listRemove (.siblings p1) }
  let f := { f with k := f.k.modify p1 fun p => { p with father := f.k.initThread } }
  { f with links := f.links.listAddHead (.children f.k.initThread) (.siblings p1) }

/-- `reparent(adopter, &p->children)`. -/
def reparent (p : ℕ) (f : Family) : Option Family :=
  let pos := f.links.next (.children p)
  forEachSafe (fun f n => f.links.next n) adopt (.children p) listFuel pos (f.links.next pos) f

/-- `list_for_each(l, &t->children)`. -/
def forEachChild {σ : Type} (family : σ → Family) (body : FamilyNode → σ → Option σ) (t : ℕ) (s : σ) :
    Option σ :=
  forEachNext (fun s n => (family s).links.next n) body (.children t) listFuel
    ((family s).links.next (.children t)) s

def scanChild (t : ℕ) (l : FamilyNode) (r : Bool × Bool × Family) : Option (Bool × Bool × Family) :=
  let (allKo, wait4pid, f) := r
  let p1 := entry l
  let ko := (f.k.threads p1).state.ko
  if (f.k.threads t).wait4 = (f.k.threads p1).pid ∧ ko = true then
    (reparent p1 f).map fun f => (allKo && ko, true, f)
  else some (allKo && ko, wait4pid, f)

def buryChild (l : FamilyNode) (f : Family) : Option Family :=
  let p1 := entry l
  if (f.k.threads p1).state = .stopped then
    (reparent p1 f).map fun f => { f with k := f.k.setState p1 .zombie }
  else some f

def handleSigcko (t : ℕ) (ret : Bool) (f : Family) : Option (Bool × Family) :=
  (forEachChild (fun r => r.2.2) (scanChild t) t (true, false, f)).bind fun (allKo, wait4pid, f) =>
  let wait4child := (f.k.threads t).wait4child
  (if wait4child && allKo then forEachChild id (fun l f => reparent (entry l) f) t f
    else some f).bind fun f =>
  let (ret, f) :=
    if wait4child && !allKo then (false, { f with k := sleepThread t f.k }) else (ret, f)
  if !wait4child && !wait4pid then
    (forEachChild id buryChild t f).map fun f =>
      if (f.k.threads t).state = .interruptible then (false, { f with k := sleepThread t f.k })
      else (ret, f)
  else some (ret, f)

def handleSignal (t : ℕ) (r : Bool × Family) (i : ℕ) : Option (Bool × Family) :=
  let (ret, f) := r
  let sigs := (f.k.threads t).signals
  if sigs.pending &&& sigs.active &&& signalBit i = 0 then some (ret, f)
  else
    let f := { f with k := f.k.modify t fun p => { p with signals :=
      { p.signals with pending := p.signals.pending &&& (2 ^ 32 - 1 - signalBit i) } } }
    if signalBit i = sigkill then
      some (false, { f with k := (killProcess t f.k).modify t fun p => { p with exitValue := 0 } })
    else if signalBit i = sigcko then handleSigcko t ret f
    else some (ret, f)

def handleSignals (t : ℕ) (f : Family) : Option (Bool × Family) :=
  if t = 0 then some (true, f)
  else if (f.k.threads t).signals.pending = 0 then some (true, f)
  else (List.range' 1 32).foldlM (handleSignal t) (true, f)

def machine (f : Family) (C : ℕ → List ℕ) : Machine := f.k.withChildren C

structure Lists (f : Family) (C : ℕ → List ℕ) : Prop where
  rings : Rings f.links (fun u : {u // u ∈ f.k.allocated} => .children u)
    fun u => (C u).map .siblings
  tree : TreeInv (f.machine C)
  proper : ∀ u ∈ f.k.allocated, u ∉ C u
  addresses : ∀ u ∈ f.k.allocated, u ≠ 0 ∧ u < 2 ^ 32

def Shows (f : Family) (k : Machine) : Prop := ∃ C, f.Lists C ∧ f.machine C = k

end Family

section Reparent
variable {f : Family} {C : ℕ → List ℕ} {p x u : ℕ} {xs : List ℕ}

theorem siblings_injective : Function.Injective FamilyNode.siblings := fun _ _ h => FamilyNode.siblings.inj h

theorem Family.Lists.nodup (h : f.Lists C) (hu : u ∈ f.k.allocated) : (C u).Nodup := h.tree.once u hu

theorem Family.Lists.child (h : f.Lists C) (hp : p ∈ f.k.allocated) (hx : x ∈ C p) :
    x ∈ f.k.allocated ∧ x ≠ f.k.initThread := by
  obtain ⟨hin, hne, -⟩ := h.tree.child p hp x hx
  exact ⟨hin, hne⟩

theorem Family.machine_adopt (f : Family) (C : ℕ → List ℕ) (x : ℕ) :
    (Family.adopt (.siblings x) f).machine (movedHead C f.k.initThread x) = Proc.adopt (f.machine C) x := by
  unfold Family.machine Machine.withChildren Family.adopt Proc.adopt Machine.modify Machine.removeSibling movedHead without
  simp only [Family.entry, Machine.mk.injEq, true_and, and_true]
  funext u
  by_cases hi : u = f.k.initThread
  · subst hi
    by_cases hx : f.k.initThread = x
    · subst hx
      simp
    · simp [hx]
  · by_cases hx : u = x
    · subst hx
      simp [hi]
    · simp [hi, hx]

theorem Family.Lists.adopt (h : f.Lists C) (hp : p ∈ f.k.allocated) (hx : x ∈ C p) :
    (Family.adopt (.siblings x) f).Lists (movedHead C f.k.initThread x) := by
  obtain ⟨hxin, hxinit⟩ := h.child hp hx
  have hrem := h.rings.listRemove_erase (i := ⟨p, hp⟩) (n := .siblings x) (List.mem_map_of_mem hx)
  have hout : ∀ j : {u // u ∈ f.k.allocated}, FamilyNode.siblings x ∉
      FamilyNode.children j :: ((C j).map FamilyNode.siblings).erase (.siblings x) := by
    rintro j hm
    rcases List.mem_cons.mp hm with e | e
    · cases e
    · exact ((List.nodup_cons.mp (h.rings.carries j).nodup).2.mem_erase_iff.mp e).1 rfl
  have hadd := hrem.listAddHead ⟨f.k.initThread, h.tree.init⟩ hout
  refine ⟨?_, ?_, fun u hu hm => ?_, h.addresses⟩
  · have helems : Function.update
        (fun u : {u // u ∈ f.k.allocated} => ((C u).map FamilyNode.siblings).erase (.siblings x))
        ⟨f.k.initThread, h.tree.init⟩
        (.siblings x :: ((C f.k.initThread).map FamilyNode.siblings).erase (.siblings x)) =
        fun u : {u // u ∈ f.k.allocated} =>
          (movedHead C f.k.initThread x u).map FamilyNode.siblings := by
      funext u
      unfold movedHead
      by_cases hu : u = ⟨f.k.initThread, h.tree.init⟩
      · subst hu
        rw [Function.update_self, Function.update_self, List.map_cons, List.map_erase siblings_injective]
      · have hu' : u.1 ≠ f.k.initThread := fun e => hu (Subtype.ext e)
        rw [Function.update_of_ne hu', Function.update_of_ne hu]
        exact (List.map_erase siblings_injective (C u)).symm
    rw [helems] at hadd
    exact hadd
  · rw [Family.machine_adopt]
    exact h.tree.adopt hxin hxinit
  · rcases (mem_movedHead (h.nodup hu)).mp hm with ⟨rfl, e⟩ | ⟨-, hin⟩
    · exact hxinit e
    · exact h.proper u hu hin

theorem Family.Lists.short (h : f.Lists C) (hu : u ∈ f.k.allocated) :
    ((C u).map FamilyNode.siblings).length < listFuel := by
  have hlen := length_lt_of_addresses (h.nodup hu) fun x hx => h.addresses x (h.child hu hx).1
  rw [List.length_map]
  unfold listFuel
  exact hlen

theorem Family.Lists.next_head (h : f.Lists C) (hu : u ∈ f.k.allocated) :
    f.links.next (.children u) = ((C u).map FamilyNode.siblings).headD (.children u) :=
  (h.rings.carries ⟨u, hu⟩).next_head

theorem Family.Lists.next_child (h : f.Lists C) (hu : u ∈ f.k.allocated) {pre : List ℕ}
    (hC : C u = pre ++ x :: xs) :
    f.links.next (.siblings x) = (xs.map FamilyNode.siblings).headD (.children u) := by
  have hc := h.rings.carries ⟨u, hu⟩
  simp only [hC, List.map_append, List.map_cons] at hc
  exact hc.next_eq

/-- `rest` are the children still to be moved; `last` is the machine once they all are. -/
structure Reparenting (p : ℕ) (last : Machine) (rest : List ℕ) (f : Family) : Prop where
  mem : p ∈ f.k.allocated
  ne : p ≠ f.k.initThread
  lists : ∃ C, f.Lists C ∧ C p = rest ∧ rest.foldl Proc.adopt (f.machine C) = last

theorem Reparenting.step {last : Machine} (h : Reparenting p last (x :: xs) f) :
    Reparenting p last xs (Family.adopt (.siblings x) f) := by
  obtain ⟨C, hlists, hC, hlast⟩ := h.lists
  refine ⟨h.mem, h.ne, movedHead C f.k.initThread x, ?_, ?_, ?_⟩
  · exact hlists.adopt h.mem (hC ▸ List.mem_cons_self ..)
  · unfold movedHead without
    rw [Function.update_of_ne h.ne, hC, List.erase_cons_head]
  · rw [Family.machine_adopt]
    exact hlast

theorem Family.Lists.reparent (h : f.Lists C) (hp : p ∈ f.k.allocated) (hne : p ≠ f.k.initThread) :
    ∃ f', Family.reparent p f = some f' ∧ f'.Shows (Proc.reparent p (f.machine C)) := by
  let I : List FamilyNode → Family → Prop := fun nodes f' =>
    ∃ rest, nodes = rest.map FamilyNode.siblings ∧
      Reparenting p (Proc.reparent p (f.machine C)) rest f'
  have hI₀ : I ((C p).map .siblings) f := ⟨C p, rfl, hp, hne, C, h, rfl, rfl⟩
  have hloop := forEachSafe_list (fun f n => f.links.next n) Family.adopt (FamilyNode.children p) I
    ?_ ?_ ?_ hI₀ (h.short hp)
  · obtain ⟨f', hrun, rest, hrest, hI⟩ := hloop
    obtain rfl := List.map_eq_nil_iff.mp hrest.symm
    obtain ⟨C', hlists, -, hlast⟩ := hI.lists
    refine ⟨f', ?_, C', hlists, hlast⟩
    unfold Family.reparent
    rw [h.next_head hp]
    exact hrun
  · rintro n nodes f' ⟨rest, hrest, hI⟩ rfl
    obtain ⟨x, rest, -, hx, -⟩ := List.map_eq_cons_iff.mp hrest.symm
    cases hx
  · rintro n nodes f' ⟨rest, hrest, hI⟩
    obtain ⟨x, rest, rfl, rfl, rfl⟩ := List.map_eq_cons_iff.mp hrest.symm
    obtain ⟨C', hlists, hC, -⟩ := hI.lists
    exact hlists.next_child hI.mem (hC.trans (List.nil_append _).symm)
  · rintro n nodes f' ⟨rest, hrest, hI⟩
    obtain ⟨x, rest, rfl, rfl, rfl⟩ := List.map_eq_cons_iff.mp hrest.symm
    exact ⟨rest, rfl, hI.step⟩

theorem children_foldl_adopt {k : Machine} {l : List ℕ} (hl : l.Nodup)
    (hu : ∀ c ∈ l, c ∉ (k.threads u).children) : ((l.foldl Proc.adopt k).threads u).children =
      if u = k.initThread then l.reverse ++ (k.threads u).children else (k.threads u).children := by
  induction l generalizing k with
  | nil =>
    rw [List.foldl_nil, List.reverse_nil, List.nil_append, ite_self]
  | cons a l ih =>
    obtain ⟨ha, hl⟩ := List.nodup_cons.mp hl
    have herase : (k.threads u).children.erase a = (k.threads u).children :=
      List.erase_of_not_mem (hu a (List.mem_cons_self ..))
    have hone := children_adopt k a u
    rw [herase] at hone
    rw [List.foldl_cons, ih hl, hone]
    · show (if u = k.initThread then _ else _) = _
      by_cases hi : u = k.initThread
      · rw [if_pos hi, if_pos hi, if_pos hi, List.reverse_cons, List.append_assoc, List.singleton_append]
      · rw [if_neg hi, if_neg hi, if_neg hi]
    · intro c hc hm
      rw [hone] at hm
      have hcu := hu c (List.mem_cons_of_mem _ hc)
      split at hm
      · rcases List.mem_cons.mp hm with rfl | hm
        · exact ha hc
        · exact hcu hm
      · exact hcu hm

/-- The children that `p` had stand in front of those of `init_thread`; no other list changes. -/
theorem TreeInv.children_reparent {k : Machine} (h : TreeInv k) (hp : p ∈ k.allocated)
    (hu : u ∈ k.allocated) (hup : u ≠ p) : ((Proc.reparent p k).threads u).children =
      if u = k.initThread then (k.threads p).children.reverse ++ (k.threads u).children
      else (k.threads u).children := by
  refine children_foldl_adopt (h.once p hp) fun c hc hm => hup ?_
  rw [← (h.child u hu c hm).2.2, (h.child p hp c hc).2.2]

theorem Family.Shows.reparent {k : Machine} (h : f.Shows k) (hp : p ∈ k.allocated)
    (hne : p ≠ k.initThread) :
    ∃ f', Family.reparent p f = some f' ∧ f'.Shows (Proc.reparent p k) := by
  obtain ⟨C, hlists, rfl⟩ := h
  exact hlists.reparent hp hne

theorem Family.Shows.short {k : Machine} (h : f.Shows k) (hu : u ∈ k.allocated) :
    ((k.threads u).children.map FamilyNode.siblings).length < listFuel := by
  obtain ⟨C, hlists, rfl⟩ := h
  exact hlists.short hu

theorem Family.Shows.next_head {k : Machine} (h : f.Shows k) (hu : u ∈ k.allocated) :
    f.links.next (.children u) =
      ((k.threads u).children.map FamilyNode.siblings).headD (.children u) := by
  obtain ⟨C, hlists, rfl⟩ := h
  exact hlists.next_head hu

theorem Family.Shows.next_child {k : Machine} {pre : List ℕ} (h : f.Shows k) (hu : u ∈ k.allocated)
    (hsplit : (k.threads u).children = pre ++ x :: xs) :
    f.links.next (.siblings x) = (xs.map FamilyNode.siblings).headD (.children u) := by
  obtain ⟨C, hlists, rfl⟩ := h
  exact hlists.next_child hu hsplit

theorem Family.Shows.tree {k : Machine} (h : f.Shows k) : TreeInv k := by
  obtain ⟨C, hlists, rfl⟩ := h
  exact hlists.tree

theorem Family.Shows.proper {k : Machine} (h : f.Shows k) (hu : u ∈ k.allocated) :
    u ∉ (k.threads u).children := by
  obtain ⟨C, hlists, rfl⟩ := h
  exact hlists.proper u hu

theorem Family.Shows.reparent_child {k : Machine} {t : ℕ} {pre : List ℕ} (h : f.Shows k)
    (ht : t ∈ k.allocated) (hsplit : (k.threads t).children = pre ++ x :: xs) :
    ∃ f' pre', Family.reparent x f = some f' ∧ f'.Shows (Proc.reparent x k) ∧
      (Proc.reparent x k).allocated = k.allocated ∧
      ((Proc.reparent x k).threads t).children = pre' ++ x :: xs := by
  have hx : x ∈ (k.threads t).children := by
    rw [hsplit]
    simp
  obtain ⟨hin, hne, -⟩ := h.tree.child t ht x hx
  obtain ⟨f', hrun, hshows⟩ := h.reparent hin hne
  have hchildren := h.tree.children_reparent hin ht fun e => h.proper ht (e ▸ hx)
  have halloc := (Prunes.reparent h.tree hin).allocated
  rw [hsplit] at hchildren
  by_cases hi : t = k.initThread
  · rw [if_pos hi, ← List.append_assoc] at hchildren
    exact ⟨f', _, hrun, hshows, halloc, hchildren⟩
  · rw [if_neg hi] at hchildren
    exact ⟨f', pre, hrun, hshows, halloc, hchildren⟩

end Reparent

section Loops
variable {σ τ : Type} (family : σ → Family) (mac : τ → Machine) (body : FamilyNode → σ → Option σ)
  (sbody : τ → ℕ → τ) (R : σ → τ → Prop) {t : ℕ}

/-- A loop visits the children that `t` had when it began. -/
theorem forEachChild_sim (hR : ∀ s m, R s m → (family s).Shows (mac m) ∧ t ∈ (mac m).allocated)
    (hbody : ∀ s m x pre xs, R s m → ((mac m).threads t).children = pre ++ x :: xs →
      ∃ s' pre', body (.siblings x) s = some s' ∧ R s' (sbody m x) ∧
        ((mac (sbody m x)).threads t).children = pre' ++ x :: xs)
    {s : σ} {m : τ} (h : R s m) : ∃ s', Family.forEachChild family body t s = some s' ∧
      R s' (((mac m).threads t).children.foldl sbody m) := by
  let I : List FamilyNode → σ → Prop := fun nodes s' =>
    ∃ pre xs m', nodes = xs.map FamilyNode.siblings ∧ R s' m' ∧
      ((mac m').threads t).children = pre ++ xs ∧
      xs.foldl sbody m' = ((mac m).threads t).children.foldl sbody m
  have hI₀ : I (((mac m).threads t).children.map .siblings) s := ⟨[], _, m, rfl, h, rfl, rfl⟩
  obtain ⟨hshows, ht⟩ := hR s m h
  have hfirst := hshows.next_head ht
  have hloop := forEachNext_list (fun s n => (family s).links.next n) body (FamilyNode.children t) I
    ?_ ?_ hI₀ (hshows.short ht)
  · obtain ⟨s', hrun, pre, xs, m', hxs, hm', -, hlast⟩ := hloop
    obtain rfl := List.map_eq_nil_iff.mp hxs.symm
    refine ⟨s', ?_, hlast ▸ hm'⟩
    unfold Family.forEachChild
    rw [hfirst]
    exact hrun
  · rintro n nodes s' ⟨pre, xs, m', hxs, hm', -⟩ rfl
    obtain ⟨x, xs, -, hx, -⟩ := List.map_eq_cons_iff.mp hxs.symm
    cases hx
  · rintro n nodes s' ⟨pre, xs, m', hxs, hm', hsplit, hlast⟩
    obtain ⟨x, xs, rfl, rfl, rfl⟩ := List.map_eq_cons_iff.mp hxs.symm
    obtain ⟨s'', pre', hrun, hm'', hsplit'⟩ := hbody s' m' x pre xs hm' hsplit
    obtain ⟨hshows, ht⟩ := hR s'' _ hm''
    refine ⟨s'', hrun, hshows.next_child ht hsplit', pre' ++ [x], xs, sbody m' x, rfl, hm'', ?_, hlast⟩
    rw [hsplit', List.append_assoc, List.singleton_append]

end Loops

section Commute
variable {C : ℕ → List ℕ}

theorem modify_withChildren {g : Thread → Thread}
    (hg : ∀ p c, g { p with children := c } = { g p with children := c }) (k : Machine) (t : ℕ) :
    (k.withChildren C).modify t g = (k.modify t g).withChildren C := by
  unfold Machine.modify Machine.withChildren
  simp only [Machine.mk.injEq, true_and, and_true]
  funext u
  by_cases hu : u = t
  · subst hu
    rw [Function.update_self, Function.update_self]
    exact hg _ _
  · rw [Function.update_of_ne hu, Function.update_of_ne hu]

theorem setState_withChildren (k : Machine) (t : ℕ) (s : TaskState) :
    (k.withChildren C).setState t s = (k.setState t s).withChildren C :=
  modify_withChildren (fun _ _ => rfl) k t

/-- What `sleep_thread` and `stop_thread` have in common. -/
theorem suspend_withChildren (k : Machine) (t : ℕ) (s : TaskState) (q : Queue) :
    (if ((k.withChildren C).threads t).pid = idlePid then k.withChildren C
      else ((k.withChildren C).setState t s).toHead q t) =
      (if (k.threads t).pid = idlePid then k else (k.setState t s).toHead q t).withChildren C := by
  have hpid : ((k.withChildren C).threads t).pid = (k.threads t).pid := rfl
  rw [hpid]
  by_cases hp : (k.threads t).pid = idlePid
  · rw [if_pos hp, if_pos hp]
  · rw [if_neg hp, if_neg hp, setState_withChildren]
    rfl

theorem sleepThread_withChildren (k : Machine) (t : ℕ) :
    sleepThread t (k.withChildren C) = (sleepThread t k).withChildren C :=
  suspend_withChildren k t .interruptible .sleep

theorem stopThread_withChildren (k : Machine) (t : ℕ) :
    stopThread t (k.withChildren C) = (stopThread t k).withChildren C :=
  suspend_withChildren k t .stopped .stopped

theorem childAwoken_withChildren (k : Machine) (pid : ℕ) :
    childAwoken pid (k.withChildren C) = (childAwoken pid k).withChildren C := by
  have hget : getThread pid (k.withChildren C) = getThread pid k := rfl
  unfold childAwoken
  rw [hget]
  cases getThread pid k with
  | none => rfl
  | some t =>
    have hdeliver : (k.withChildren C).deliver t sigcko = (k.deliver t sigcko).withChildren C :=
      modify_withChildren (fun _ _ => rfl) k t
    have hwake : ∀ k : Machine, wakeUpThread t (k.withChildren C) =
        (wakeUpThread t k).withChildren C := by
      intro k
      unfold wakeUpThread
      rw [setState_withChildren]
      rfl
    dsimp only
    rw [hdeliver, hwake, setState_withChildren]
    rfl

theorem killProcess_withChildren (k : Machine) (t : ℕ) :
    killProcess t (k.withChildren C) = (killProcess t k).withChildren C := by
  have hpid : ((k.withChildren C).threads t).pid = (k.threads t).pid := rfl
  have hdrop : ∀ k : Machine, dropTimer t (k.withChildren C) = (dropTimer t k).withChildren C :=
    fun _ => rfl
  unfold killProcess
  rw [hpid, stopThread_withChildren, hdrop]
  by_cases hp : (k.threads t).pid = idlePid
  · rw [if_pos hp, if_pos hp]
  · rw [if_neg hp, if_neg hp]
    exact childAwoken_withChildren _ _

end Commute

section Signals
variable {f : Family} {k : Machine} {t : ℕ}

theorem Family.Shows.same {g : Machine → Machine} (h : f.Shows k)
    (hg : ∀ C k, g (k.withChildren C) = (g k).withChildren C) (hsame : ∀ k, SameTree k (g k)) :
    Family.Shows { f with k := g f.k } (g k) := by
  obtain ⟨C, hlists, rfl⟩ := h
  have halloc : (g f.k).allocated = f.k.allocated := (hsame f.k).allocated
  refine ⟨C, ⟨?_, ?_, ?_, ?_⟩, (hg C f.k).symm⟩
  · show Rings f.links (fun u : {u // u ∈ (g f.k).allocated} => FamilyNode.children u) _
    rw [halloc]
    exact hlists.rings
  · show TreeInv ((g f.k).withChildren C)
    rw [← hg]
    exact hlists.tree.same (hsame _)
  · show ∀ u ∈ (g f.k).allocated, u ∉ C u
    rw [halloc]
    exact hlists.proper
  · show ∀ u ∈ (g f.k).allocated, u ≠ 0 ∧ u < 2 ^ 32
    rw [halloc]
    exact hlists.addresses

theorem Family.Shows.modify {g : Thread → Thread} (h : f.Shows k) (t : ℕ)
    (hg : ∀ p c, g { p with children := c } = { g p with children := c })
    (hfather : ∀ p, (g p).father = p.father) (hchildren : ∀ p, (g p).children = p.children) :
    Family.Shows { f with k := f.k.modify t g } (k.modify t g) :=
  h.same (g := Machine.modify t g) (fun _ k => modify_withChildren hg k t)
    fun k => SameTree.modify k t hfather hchildren

theorem Family.Shows.sleepThread (h : f.Shows k) (t : ℕ) :
    Family.Shows { f with k := sleepThread t f.k } (sleepThread t k) :=
  h.same (fun _ k => sleepThread_withChildren k t) fun k => sameTree_sleepThread t k

theorem Family.Shows.killProcess (h : f.Shows k) (t : ℕ) :
    Family.Shows { f with k := killProcess t f.k } (killProcess t k) :=
  h.same (fun _ k => killProcess_withChildren k t) fun k => sameTree_killProcess t k

theorem Family.Shows.reads {α : Type*} {g : Thread → α} (h : f.Shows k)
    (hg : ∀ p c, g { p with children := c } = g p) (u : ℕ) : g (f.k.threads u) = g (k.threads u) := by
  obtain ⟨C, -, rfl⟩ := h
  exact (hg _ _).symm

theorem Family.Shows.forEach_scanChild (h : f.Shows k) (ht : t ∈ k.allocated) :
    ∃ f', Family.forEachChild (fun r => r.2.2) (Family.scanChild t) t (true, false, f) =
        some (((k.threads t).children.foldl (Proc.scanChild t) (true, false, k)).1,
          ((k.threads t).children.foldl (Proc.scanChild t) (true, false, k)).2.1, f') ∧
      f'.Shows ((k.threads t).children.foldl (Proc.scanChild t) (true, false, k)).2.2 ∧
      t ∈ ((k.threads t).children.foldl (Proc.scanChild t) (true, false, k)).2.2.allocated := by
  let R : Bool × Bool × Family → Bool × Bool × Machine → Prop := fun r m =>
    r.1 = m.1 ∧ r.2.1 = m.2.1 ∧ r.2.2.Shows m.2.2 ∧ t ∈ m.2.2.allocated
  have hstart : R (true, false, f) (true, false, k) := ⟨rfl, rfl, h, ht⟩
  have hloop := forEachChild_sim (fun r => r.2.2) (fun m => m.2.2) (Family.scanChild t)
    (Proc.scanChild t) R (fun _ _ hR => hR.2.2) ?_ hstart
  · obtain ⟨⟨allKo, wait4pid, f'⟩, hrun, hko, hwait, hshows, ht'⟩ := hloop
    subst hko hwait
    exact ⟨f', hrun, hshows, ht'⟩
  · rintro ⟨allKo, wait4pid, f⟩ ⟨allKo', wait4pid', k⟩ x pre xs ⟨rfl, rfl, hshows, ht⟩ hsplit
    have hstate : (f.k.threads x).state = (k.threads x).state := hshows.reads (fun _ _ => rfl) x
    have hpid : (f.k.threads x).pid = (k.threads x).pid := hshows.reads (fun _ _ => rfl) x
    have hwait4 : (f.k.threads t).wait4 = (k.threads t).wait4 := hshows.reads (fun _ _ => rfl) t
    obtain ⟨f', pre', hrun, hshows', halloc, hsplit'⟩ := hshows.reparent_child ht hsplit
    simp only [Family.scanChild, Proc.scanChild, Family.entry, hstate, hpid, hwait4]
    split
    · rw [hrun]
      exact ⟨_, pre', rfl, ⟨rfl, rfl, hshows', halloc ▸ ht⟩, hsplit'⟩
    · exact ⟨_, pre, rfl, ⟨rfl, rfl, hshows, ht⟩, hsplit⟩

theorem Family.Shows.forEach {body : FamilyNode → Family → Option Family}
    {sbody : Machine → ℕ → Machine} (h : f.Shows k) (ht : t ∈ k.allocated)
    (hbody : ∀ (f : Family) (k : Machine) x pre xs, f.Shows k → t ∈ k.allocated →
      (k.threads t).children = pre ++ x :: xs →
      ∃ f' pre', body (.siblings x) f = some f' ∧ f'.Shows (sbody k x) ∧ t ∈ (sbody k x).allocated ∧
        ((sbody k x).threads t).children = pre' ++ x :: xs) :
    ∃ f', Family.forEachChild id body t f = some f' ∧ f'.Shows ((k.threads t).children.foldl sbody k) ∧
      t ∈ ((k.threads t).children.foldl sbody k).allocated := by
  refine forEachChild_sim id id body sbody (fun f k => f.Shows k ∧ t ∈ k.allocated) (fun _ _ hR => hR)
    ?_ ⟨h, ht⟩
  rintro f k x pre xs ⟨hshows, ht⟩ hsplit
  obtain ⟨f', pre', hrun, hshows', ht', hsplit'⟩ := hbody f k x pre xs hshows ht hsplit
  exact ⟨f', pre', hrun, ⟨hshows', ht'⟩, hsplit'⟩

theorem Family.Shows.buryChild {x : ℕ} {pre xs : List ℕ} (h : f.Shows k) (ht : t ∈ k.allocated)
    (hsplit : (k.threads t).children = pre ++ x :: xs) :
    ∃ f' pre', Family.buryChild (.siblings x) f = some f' ∧ f'.Shows (Proc.buryChild k x) ∧
      t ∈ (Proc.buryChild k x).allocated ∧
      ((Proc.buryChild k x).threads t).children = pre' ++ x :: xs := by
  have hstate : (f.k.threads x).state = (k.threads x).state := h.reads (fun _ _ => rfl) x
  obtain ⟨f', pre', hrun, hshows, halloc, hsplit'⟩ := h.reparent_child ht hsplit
  unfold Family.buryChild Proc.buryChild
  simp only [Family.entry, hstate]
  split
  · have hset := hshows.modify (g := fun p => { p with state := .zombie }) x (fun _ _ => rfl)
      (fun _ => rfl) fun _ => rfl
    have hsame : SameTree (Proc.reparent x k) ((Proc.reparent x k).setState x .zombie) :=
      SameTree.setState _ x .zombie
    rw [hrun]
    refine ⟨_, pre', rfl, hset, ?_, (hsame.children t).trans hsplit'⟩
    exact halloc ▸ ht
  · exact ⟨f, pre, rfl, h, ht, hsplit⟩

/-- On the sequences the branch for `SIGCKO` is `handleSigcko`. -/
theorem Family.Shows.handleSigcko (h : f.Shows k) (ht : t ∈ k.allocated) (ret : Bool) :
    ∃ f', Family.handleSigcko t ret f = some ((Proc.handleSigcko t ret k).1, f') ∧
      f'.Shows (Proc.handleSigcko t ret k).2 := by
  obtain ⟨f₁, hscan, h₁, ht₁⟩ := h.forEach_scanChild ht
  unfold Family.handleSigcko Proc.handleSigcko
  rw [hscan]
  generalize (k.threads t).children.foldl (Proc.scanChild t) (true, false, k) = r at h₁ ht₁ ⊢
  obtain ⟨allKo, wait4pid, k₁⟩ := r
  have hwait : (f₁.k.threads t).wait4child = (k₁.threads t).wait4child :=
    h₁.reads (g := Thread.wait4child) (fun _ _ => rfl) t
  simp only [Option.bind_some, hwait]
  generalize (k₁.threads t).wait4child = wait4child
  -- the second loop
  obtain ⟨f₂, hsecond, h₂, ht₂⟩ : ∃ f₂, (if (wait4child && allKo) = true then Family.forEachChild id
      (fun l f => Family.reparent (Family.entry l) f) t f₁ else some f₁) = some f₂ ∧
      f₂.Shows (if (wait4child && allKo) = true then
        (k₁.threads t).children.foldl (fun k p1 => Proc.reparent p1 k) k₁ else k₁) ∧
      t ∈ (if (wait4child && allKo) = true then
        (k₁.threads t).children.foldl (fun k p1 => Proc.reparent p1 k) k₁ else k₁).allocated := by
    split
    · refine h₁.forEach ht₁ fun f k x pre xs h ht hsplit => ?_
      obtain ⟨f', pre', hrun, hshows, halloc, hsplit'⟩ := h.reparent_child ht hsplit
      exact ⟨f', pre', hrun, hshows, halloc ▸ ht, hsplit'⟩
    · exact ⟨f₁, rfl, h₁, ht₁⟩
  rw [hsecond, Option.bind_some]
  generalize (if (wait4child && allKo) = true then
    (k₁.threads t).children.foldl (fun k p1 => Proc.reparent p1 k) k₁ else k₁) = k₂ at h₂ ht₂ ⊢
  -- the last loop, in which the thread that waits for all its children sleeps already
  obtain ⟨ret₃, f₃, k₃, hfamily, hmachine, h₃, ht₃⟩ : ∃ ret₃ f₃ k₃,
      (if (wait4child && !allKo) = true then (false, { f₂ with k := Proc.sleepThread t f₂.k })
        else (ret, f₂)) = (ret₃, f₃) ∧
      (if (wait4child && !allKo) = true then (false, Proc.sleepThread t k₂) else (ret, k₂)) = (ret₃, k₃) ∧
      f₃.Shows k₃ ∧ t ∈ k₃.allocated := by
    split
    · refine ⟨_, _, _, rfl, rfl, h₂.sleepThread t, ?_⟩
      rw [(sameTree_sleepThread t k₂).allocated]
      exact ht₂
    · exact ⟨_, _, _, rfl, rfl, h₂, ht₂⟩
  rw [hfamily, hmachine]
  dsimp only
  split
  · obtain ⟨f₄, hlast, h₄, -⟩ := h₃.forEach ht₃ fun _ _ _ _ _ h ht hsplit => h.buryChild ht hsplit
    have hstate : (f₄.k.threads t).state = (((k₃.threads t).children.foldl Proc.buryChild k₃).threads t).state :=
      h₄.reads (fun _ _ => rfl) t
    rw [hlast, Option.map_some, hstate]
    split
    · exact ⟨_, rfl, h₄.sleepThread t⟩
    · exact ⟨_, rfl, h₄⟩
  · exact ⟨f₃, rfl, h₃⟩

theorem Family.Shows.handleSignal (h : f.Shows k) (ht : t ∈ k.allocated) (ret : Bool) (i : ℕ) :
    ∃ f', Family.handleSignal t (ret, f) i = some ((Proc.handleSignal t (ret, k) i).1, f') ∧
      f'.Shows (Proc.handleSignal t (ret, k) i).2 ∧ t ∈ (Proc.handleSignal t (ret, k) i).2.allocated := by
  have hsigs : (f.k.threads t).signals = (k.threads t).signals := h.reads (fun _ _ => rfl) t
  have hclear := h.modify (g := fun p => { p with signals :=
    { p.signals with pending := p.signals.pending &&& (2 ^ 32 - 1 - signalBit i) } }) t
    (fun _ _ => rfl) (fun _ => rfl) fun _ => rfl
  dsimp only [Family.handleSignal, Proc.handleSignal]
  rw [hsigs]
  split
  · exact ⟨f, rfl, h, ht⟩
  · split
    · have hkill := (hclear.killProcess t).modify (g := fun p => { p with exitValue := 0 }) t
        (fun _ _ => rfl) (fun _ => rfl) fun _ => rfl
      refine ⟨_, rfl, hkill, ?_⟩
      show t ∈ (Proc.killProcess t _).allocated
      rw [(killProcess_fixed t _).1]
      exact ht
    · split
      · obtain ⟨f', hrun, hshows⟩ := hclear.handleSigcko ht ret
        refine ⟨f', hrun, hshows, ?_⟩
        rw [(Prunes.handleSigcko hclear.tree ht ret).allocated]
        exact ht
      · exact ⟨_, rfl, hclear, ht⟩

/-- `handle_signals` ends; on the sequences it is `handleSignals`. -/
theorem Family.Shows.handleSignals (h : f.Shows k) (ht : t ∈ k.allocated) :
    ∃ f', Family.handleSignals t f = some ((Proc.handleSignals t k).1, f') ∧
      f'.Shows (Proc.handleSignals t k).2 := by
  have hpending : (f.k.threads t).signals.pending = (k.threads t).signals.pending :=
    h.reads (g := fun p => p.signals.pending) (fun _ _ => rfl) t
  have hloop : ∀ (l : List ℕ) (ret : Bool) (f : Family) (k : Machine), f.Shows k → t ∈ k.allocated →
      ∃ f', l.foldlM (Family.handleSignal t) (ret, f) =
        some ((l.foldl (Proc.handleSignal t) (ret, k)).1, f') ∧
        f'.Shows (l.foldl (Proc.handleSignal t) (ret, k)).2 := by
    intro l
    induction l with
    | nil => exact fun ret f k h _ => ⟨f, rfl, h⟩
    | cons i l ih =>
      intro ret f k h ht
      obtain ⟨f', hrun, hshows, ht'⟩ := h.handleSignal ht ret i
      obtain ⟨f'', hrun', hshows'⟩ := ih _ f' _ hshows ht'
      refine ⟨f'', ?_, hshows'⟩
      rw [List.foldlM_cons, hrun, List.foldl_cons]
      exact hrun'
  unfold Family.handleSignals Proc.handleSignals
  rw [hpending]
  split
  · exact ⟨f, rfl, h⟩
  · split
    · exact ⟨f, rfl, h⟩
    · exact hloop _ true f k h ht

end Signals

/-- The children of `t` whose own children go to `init_thread`. -/
def released (t : ℕ) (k : Machine) : List ℕ :=
  (k.threads t).children.filter fun p1 =>
    waitedFor t k p1 ||
      (k.threads t).wait4child && ((k.threads t).children.all fun c => (k.threads c).state.ko) ||
      !(k.threads t).wait4child && !(k.threads t).children.any (waitedFor t k) &&
        (k.threads p1).state == .stopped

section Grandchildren
variable {k k' : Machine} {t p c : ℕ} {l : List ℕ}

theorem SameTree.symm (h : SameTree k k') : SameTree k' k :=
  ⟨h.allocated.symm, h.initThread.symm, fun u => (h.father u).symm, fun u => (h.children u).symm⟩

theorem SameTree.adopt (h : SameTree k k') (p1 : ℕ) :
    SameTree (Proc.adopt k p1) (Proc.adopt k' p1) := by
  refine ⟨h.allocated, h.initThread, fun u => ?_, fun u => ?_⟩
  · rw [father_adopt, father_adopt, h.initThread, h.father]
  · rw [children_adopt, children_adopt, h.initThread, h.children]

theorem SameTree.reparent (h : SameTree k k') (p : ℕ) :
    SameTree (Proc.reparent p k) (Proc.reparent p k') := by
  unfold Proc.reparent
  rw [h.children]
  generalize (k.threads p).children = l
  induction l generalizing k k' with
  | nil => exact h
  | cons a l ih => exact ih (h.adopt a)

theorem SameTree.reparentAll (h : SameTree k k') (l : List ℕ) :
    SameTree (Proc.reparentAll l k) (Proc.reparentAll l k') := by
  induction l generalizing k k' with
  | nil => exact h
  | cons a l ih => exact ih (h.reparent a)

theorem state_buryChild (k : Machine) (p1 u : ℕ) : ((buryChild k p1).threads u).state =
    if u = p1 ∧ (k.threads u).state = .stopped then .zombie else (k.threads u).state := by
  unfold buryChild
  by_cases hu : u = p1
  · subst hu
    by_cases hs : (k.threads u).state = .stopped
    · rw [if_pos hs, state_setState, if_pos rfl, if_pos ⟨rfl, hs⟩]
    · rw [if_neg hs, if_neg fun h => hs h.2]
  · have hsame : ¬ (u = p1 ∧ (k.threads u).state = .stopped) := fun h => hu h.1
    rw [if_neg hsame]
    split
    · rw [state_setState, if_neg hu, (Quiet.reparent k p1).state]
    · rfl

theorem state_foldl_buryChild (l : List ℕ) (k : Machine) (u : ℕ) :
    ((l.foldl buryChild k).threads u).state =
      if u ∈ l ∧ (k.threads u).state = .stopped then .zombie else (k.threads u).state := by
  induction l generalizing k with
  | nil => simp
  | cons a l ih =>
    rw [List.foldl_cons, ih, state_buryChild]
    by_cases hs : (k.threads u).state = .stopped
    · by_cases hu : u = a
      · subst hu
        simp [hs]
      · simp [hs, hu]
    · simp [hs]

theorem sameTree_foldl_buryChild (hl : l.Nodup) (k : Machine) :
    SameTree (reparentAll (l.filter fun c => (k.threads c).state == .stopped) k)
      (l.foldl buryChild k) := by
  induction l generalizing k with
  | nil => exact SameTree.refl k
  | cons a l ih =>
    obtain ⟨ha, hl⟩ := List.nodup_cons.mp hl
    have hfilter : l.filter (fun c => ((buryChild k a).threads c).state == .stopped) =
        l.filter fun c => (k.threads c).state == .stopped := by
      refine List.filter_congr fun c hc => ?_
      have hca : ¬ (c = a ∧ (k.threads c).state = .stopped) := fun h => ha (h.1 ▸ hc)
      rw [state_buryChild, if_neg hca]
    have hrest := ih hl (buryChild k a)
    rw [hfilter] at hrest
    rw [List.foldl_cons]
    by_cases hs : (k.threads a).state = .stopped
    · rw [List.filter_cons_of_pos (by simpa using hs)]
      have hone : SameTree (reparent a k) (buryChild k a) := by
        unfold buryChild
        rw [if_pos hs]
        exact SameTree.setState _ a .zombie
      exact (hone.reparentAll _).trans hrest
    · rw [List.filter_cons_of_neg (by simpa using hs)]
      have hone : buryChild k a = k := if_neg hs
      rw [hone] at hrest ⊢
      exact hrest

/-- What `SIGCKO` does to the tree, unless `t` waits for all its children and for a dead one as well. -/
theorem sameTree_handleSigcko (hnd : (k.threads t).children.Nodup)
    (hnot : ¬ ((k.threads t).wait4child = true ∧ (k.threads t).children.any (waitedFor t k) = true))
    (ret : Bool) :
    SameTree (reparentAll (released t k) k) (handleSigcko t ret k).2 := by
  have hnone : (k.threads t).children.any (waitedFor t k) = false →
      ∀ c ∈ (k.threads t).children, waitedFor t k c = false := by
    intro h c hc
    simpa using List.any_eq_false.mp h c hc
  rw [handleSigcko_eq]
  unfold released
  -- The children that lose theirs: all of them, the dead one that is waited for, or the stopped ones.
  cases hwait : (k.threads t).wait4child with
  | true =>
    have hany : (k.threads t).children.any (waitedFor t k) = false := by
      simpa [hwait] using hnot
    have hscan : scanned t k = k := by
      unfold scanned
      rw [List.filter_eq_nil_iff.mpr fun c hc => by simp [hnone hany c hc]]
      rfl
    rw [hscan]
    cases hall : (k.threads t).children.all fun c => (k.threads c).state.ko with
    | true =>
      rw [List.filter_eq_self.mpr fun c _ => by simp]
      exact SameTree.refl _
    | false =>
      rw [List.filter_eq_nil_iff.mpr fun c hc => by simp [hnone hany c hc]]
      exact sameTree_sleepThread t k
  | false =>
    cases hany : (k.threads t).children.any (waitedFor t k) with
    | true =>
      rw [List.filter_congr (q := waitedFor t k) fun c _ => by simp]
      exact SameTree.refl _
    | false =>
      rw [List.filter_congr (q := fun c => (k.threads c).state == .stopped) fun c hc => by
        simp [hnone hany c hc]]
      have hbury := sameTree_foldl_buryChild hnd k
      simp only [Bool.false_eq_true, if_false]
      split
      · exact hbury.trans (sameTree_sleepThread t _)
      · exact hbury

theorem father_reparent (k : Machine) (p c : ℕ) :
    ((reparent p k).threads c).father =
      if c ∈ (k.threads p).children then k.initThread else (k.threads c).father := by
  have key : ∀ (l : List ℕ) (k : Machine), ((l.foldl adopt k).threads c).father =
      if c ∈ l then k.initThread else (k.threads c).father := by
    intro l
    induction l with
    | nil => simp
    | cons a l ih =>
      intro k
      rw [List.foldl_cons, ih, father_adopt]
      show (if c ∈ l then k.initThread else _) = _
      by_cases hc : c ∈ l
      · simp [hc]
      · simp [hc]
  exact key _ k

/-- The children of all threads of `l` go to `init_thread`, and no others. -/
theorem father_reparentAll (h : TreeInv k) (hl : l.Nodup)
    (hmem : ∀ p ∈ l, p ∈ k.allocated ∧ p ≠ k.initThread) (c : ℕ) :
    ((reparentAll l k).threads c).father =
      if ∃ p ∈ l, c ∈ (k.threads p).children then k.initThread else (k.threads c).father := by
  induction l generalizing k with
  | nil => simp [reparentAll]
  | cons a l ih =>
    obtain ⟨ha, hl⟩ := List.nodup_cons.mp hl
    obtain ⟨hin, hne⟩ := hmem a (List.mem_cons_self ..)
    have hone := Prunes.reparent h hin
    have hkept : ∀ p ∈ l, ((reparent a k).threads p).children = (k.threads p).children := by
      intro p hp
      obtain ⟨hpin, hpne⟩ := hmem p (List.mem_cons_of_mem _ hp)
      rw [h.children_reparent hin hpin fun e => ha (e ▸ hp), if_neg hpne]
    have hrest := ih hone.tree hl fun p hp => by
      rw [hone.allocated, hone.initThread]
      exact hmem p (List.mem_cons_of_mem _ hp)
    have hiff : (∃ p ∈ l, c ∈ ((reparent a k).threads p).children) ↔
        ∃ p ∈ l, c ∈ (k.threads p).children := by
      constructor
      · rintro ⟨p, hp, hc⟩
        exact ⟨p, hp, hkept p hp ▸ hc⟩
      · rintro ⟨p, hp, hc⟩
        exact ⟨p, hp, (hkept p hp).symm ▸ hc⟩
    show ((reparentAll l (reparent a k)).threads c).father = _
    rw [hrest, hone.initThread, father_reparent]
    simp only [hiff, List.exists_mem_cons_iff]
    by_cases hc : c ∈ (k.threads a).children
    · simp [hc]
    · simp [hc]

/-- Apart from `SIGKILL`, only the branch for `SIGCKO` changes more than pending signals. -/
theorem handleSignals_sigcko (ht : t ≠ 0) (hcko : SigPending t sigcko k)
    (hkill : ¬ SigPending t sigkill k) : ∃ k₁, SetsPending t k k₁ ∧
      SetsPending t (handleSigcko t true k₁).2 (handleSignals t k).2 := by
  obtain ⟨k₁, k₂, hfirst, hlast, heq⟩ := handleSignals_eq ht k
  obtain ⟨hkill₁, hcko₁⟩ := hfirst.sigPending
  rw [handleSignal_kill, if_neg fun h => hkill (hkill₁.mp h), handleSignal_ten,
    if_pos (hcko₁.mpr hcko)] at hlast
  refine ⟨_, hfirst.sets.trans (SetsPending.clear k₁ t (2 ^ 32 - 1 - sigcko)), ?_⟩
  rw [heq]
  exact hlast.sets

theorem waitedFor_congr (h : SetsPending t k k') : waitedFor t k' = waitedFor t k := by
  funext c
  unfold waitedFor
  rw [h.quiet.pid, h.quiet.state]
  exact congrArg (· == _ && _) (h.keeps (f := Thread.wait4) (fun _ _ => rfl) t)

theorem released_congr (h : SetsPending t k k') : released t k' = released t k := by
  have hchildren : (k'.threads t).children = (k.threads t).children :=
    h.keeps (f := Thread.children) (fun _ _ => rfl) t
  have hwait : (k'.threads t).wait4child = (k.threads t).wait4child :=
    h.keeps (f := Thread.wait4child) (fun _ _ => rfl) t
  unfold released
  simp only [hchildren, hwait, waitedFor_congr h, h.quiet.state]

theorem state_handleSigcko (ret : Bool) (hc : c ≠ t) :
    ((handleSigcko t ret k).2.threads c).state =
      if c ∈ (k.threads t).children ∧ (k.threads c).state = .stopped ∧
        (k.threads t).wait4child = false ∧ (k.threads t).children.any (waitedFor t k) = false
      then .zombie else (k.threads c).state := by
  have hscan : ((scanned t k).threads c).state = (k.threads c).state :=
    (Quiet.reparentAll _ k).state c
  have hsleep : ∀ k, ((sleepThread t k).threads c).state = (k.threads c).state := by
    intro k
    unfold sleepThread
    split
    · rfl
    · exact (state_setState k t c .interruptible).trans (if_neg hc)
  rw [handleSigcko_eq]
  cases hwait : (k.threads t).wait4child with
  | true =>
    simp only [if_true, Bool.true_eq_false, false_and, and_false, if_false]
    split
    · exact ((Quiet.reparentAll _ _).state c).trans hscan
    · exact (hsleep _).trans hscan
  | false =>
    cases hany : (k.threads t).children.any (waitedFor t k) with
    | true =>
      simp only [Bool.false_eq_true, Bool.true_eq_false, and_false, if_false, if_true]
      exact hscan
    | false =>
      have hbury := state_foldl_buryChild (k.threads t).children k c
      simp only [Bool.false_eq_true, if_false, and_true]
      split
      · exact (hsleep _).trans hbury
      · exact hbury

/-- `handle_signals` ends whatever it does to the list that it iterates; exactly the children of released
threads go to `init_thread`, and exactly stopped children of a father that waits for none become zombies. -/
theorem grandchildren_adopted {f : Family} (h : f.Shows k) (ht : t ∈ k.allocated)
    (hcko : SigPending t sigcko k) (hkill : ¬ SigPending t sigkill k)
    (hnot : ¬ ((k.threads t).wait4child = true ∧ (k.threads t).children.any (waitedFor t k) = true)) :
    ∃ ret f' k', Family.handleSignals t f = some (ret, f') ∧ f'.Shows k' ∧
      k'.allocated = k.allocated ∧ k'.initThread = k.initThread ∧
      (∀ c ∈ k.allocated, c ≠ k.initThread → ∀ u ∈ k.allocated,
        c ∈ (k'.threads u).children ↔ u = (k'.threads c).father) ∧
      (∀ p ∈ released t k, ∀ c ∈ (k.threads p).children,
        (k'.threads c).father = k.initThread ∧ c ∈ (k'.threads k.initThread).children) ∧
      (∀ c ∈ k.allocated, (∀ p ∈ released t k, c ∉ (k.threads p).children) →
        (k'.threads c).father = (k.threads c).father) ∧
      ∀ c ∈ (k.threads t).children, (k'.threads c).state =
        if (k.threads c).state = .stopped ∧ (k.threads t).wait4child = false ∧
          (k.threads t).children.any (waitedFor t k) = false
        then .zombie else (k.threads c).state := by
  obtain ⟨f', hrun, hshows⟩ := h.handleSignals ht
  have hzero : t ≠ 0 := by
    obtain ⟨C, hlists, rfl⟩ := h
    exact (hlists.addresses t ht).1
  obtain ⟨k₁, hset, hset'⟩ := handleSignals_sigcko hzero hcko hkill
  have hchildren : (k₁.threads t).children = (k.threads t).children :=
    hset.keeps (f := Thread.children) (fun _ _ => rfl) t
  have hwait : (k₁.threads t).wait4child = (k.threads t).wait4child :=
    hset.keeps (f := Thread.wait4child) (fun _ _ => rfl) t
  have hnot₁ := hnot
  rw [← hwait, ← hchildren, ← waitedFor_congr hset] at hnot₁
  -- the tree of the result
  have htree : SameTree (reparentAll (released t k) k) (handleSignals t k).2 := by
    have hsigcko := sameTree_handleSigcko (hchildren ▸ h.tree.once t ht) hnot₁ true
    rw [released_congr hset] at hsigcko
    exact ((hset.sameTree.reparentAll _).trans hsigcko).trans hset'.sameTree
  have hreleased : ∀ p ∈ released t k, p ∈ k.allocated ∧ p ≠ k.initThread := fun p hp =>
    (h.tree.child t ht p (List.mem_of_mem_filter hp)).imp_right And.left
  have hprune := Prunes.reparentAll h.tree fun p hp => (hreleased p hp).1
  have hnodup : (released t k).Nodup := (h.tree.once t ht).filter _
  have hadopted := father_reparentAll h.tree hnodup hreleased
  have halloc := htree.allocated.trans hprune.allocated
  have hinit := htree.initThread.trans hprune.initThread
  have hlisted : ∀ c ∈ k.allocated, c ≠ k.initThread → ∀ u ∈ k.allocated,
      c ∈ ((handleSignals t k).2.threads u).children ↔
        u = ((handleSignals t k).2.threads c).father := by
    intro c hc hne u hu
    constructor
    · intro hm
      exact (hshows.tree.child u (halloc.symm ▸ hu) c hm).2.2.symm
    · rintro rfl
      exact (hshows.tree.father c (halloc.symm ▸ hc) (hinit.symm ▸ hne)).2
  refine ⟨_, f', _, hrun, hshows, halloc, hinit, hlisted, fun p hp c hc => ?_, fun c hc hno => ?_,
    fun c hc => ?_⟩
  · obtain ⟨hin, hne, -⟩ := h.tree.child p (hreleased p hp).1 c hc
    have hfather : ((handleSignals t k).2.threads c).father = k.initThread := by
      rw [htree.father, hadopted, if_pos ⟨p, hp, hc⟩]
    exact ⟨hfather, (hlisted c hin hne _ h.tree.init).mpr hfather.symm⟩
  · rw [htree.father, hadopted, if_neg fun hex => ?_]
    obtain ⟨p, hp, hcp⟩ := hex
    exact hno p hp hcp
  · have hct : c ≠ t := fun e => h.proper ht (e ▸ hc)
    have hstate := state_handleSigcko (k := k₁) true hct
    rw [hchildren, hwait, waitedFor_congr hset, hset.quiet.state] at hstate
    rw [hset'.quiet.state, hstate]
    simp only [hc, true_and]

end Grandchildren

def familyThread (state : TaskState) (pending father : ℕ) : Thread :=
  ⟨state, father, ⟨pending, allSignals⟩, 0, 0, 0, 1, 1, father, [], false, 0, 0⟩

/-- The thread 0x1000 is its own father, 0x2000 its stopped child and 0x3000 the child of that one. -/
def threeGenerations : Family where
  k := {
    queues := ⟨id, id⟩
    waits := ⟨id, id⟩
    threads := fun u => if u = 0x2000 then familyThread .stopped 0 0x1000
      else if u = 0x3000 then familyThread .runnable 0 0x2000
      else familyThread .runnable sigcko 0x1000
    locks := fun _ => ⟨false, 0⟩
    kThreads := [0x3000, 0x2000, 0x1000]
    kernelTimers := []
    tickCount := 0
    currentThread := 0x1000
    idleThread := 0
    initThread := 0x1000
    nextPid := 4
    allocated := [0x3000, 0x2000, 0x1000] }
  links := ((⟨id, id⟩ : Links FamilyNode).listAddTail (.children 0x1000) (.siblings 0x2000)).listAddTail
    (.children 0x2000) (.siblings 0x3000)

def generations (u : ℕ) : List ℕ :=
  if u = 0x1000 then [0x2000] else if u = 0x2000 then [0x3000] else []

theorem lists_threeGenerations : threeGenerations.Lists generations := by
  refine ⟨?_, ⟨?_, ?_, ?_, ?_⟩, ?_, ?_⟩
  · have hheads : Function.Injective
        (fun u : {u // u ∈ threeGenerations.k.allocated} => FamilyNode.children u) :=
      fun u v h => Subtype.ext (FamilyNode.children.inj h)
    have hfirst := (Linkage.empty hheads).listAddTail (n := .siblings 0x2000) ⟨0x1000, by decide⟩
      (by rintro j hj; simp at hj) fun h => h.elim
    have hsecond := hfirst.listAddTail (n := .siblings 0x3000) ⟨0x2000, by decide⟩
      (by
        rintro ⟨j, hin⟩ hj
        unfold Function.update at hj
        split at hj
        · simp at hj
        · simp at hj) fun h => h.elim
    convert hsecond.rings using 1
    · rfl
    · funext u
      have hu : u.1 = 0x3000 ∨ u.1 = 0x2000 ∨ u.1 = 0x1000 := by simpa [threeGenerations] using u.2
      obtain ⟨u, hin⟩ := u
      rcases hu with rfl | rfl | rfl
      · rfl
      · rfl
      · rfl
  · decide
  · decide
  · decide
  · decide
  · decide
  · decide

theorem grandchildren_adopted_init : ∃ ret f' k', threeGenerations.handleSignals 0x1000 = some (ret, f') ∧
    f'.Shows k' ∧ (k'.threads 0x3000).father = 0x1000 ∧ 0x3000 ∈ (k'.threads 0x1000).children := by
  obtain ⟨ret, f', k', hrun, hshows, -, -, -, hmoved, -⟩ := grandchildren_adopted (t := 0x1000)
    ⟨generations, lists_threeGenerations, rfl⟩ (by decide) (by decide) (by decide) (by decide)
  exact ⟨ret, f', k', hrun, hshows, hmoved 0x2000 (by decide) 0x3000 (by decide)⟩

end X86Osdev.Proc

import X86Osdev.Proc.ProcessTree

/-! `handle_signals` for threads that have not been sent `SIGKILL`: it buries children, and then puts the
thread to sleep or not. -/

namespace X86Osdev.Proc
open CircularList X86Osdev.Mem

/-- `SIGKILL` is pending for no thread. -/
def NoSigkill (k : Machine) : Prop := ∀ t ∈ k.allocated, ¬ SigPending t sigkill k

section NoSigkill
variable {k k' : Machine} {t : ℕ}

theorem NoSigkill.keeps (h : NoSigkill k) (ha : k'.allocated = k.allocated)
    (hs : Keeps Thread.signals k k') : NoSigkill k' := by
  intro u ht hu
  unfold SigPending at hu
  rw [hs u] at hu
  exact h u (ha ▸ ht) hu

theorem NoSigkill.modify (h : NoSigkill k) {f : Thread → Thread}
    (hf : ∀ p, (f p).signals.active = p.signals.active)
    (hbit : ∀ p, (f p).signals.pending.testBit 9 = true → p.signals.pending.testBit 9 = true) :
    NoSigkill (k.modify t f) := by
  intro u ht hu
  unfold SigPending sigkill at hu
  rw [and_one_shiftLeft_ne_zero, Nat.testBit_and, Bool.and_eq_true, modify_apply] at hu
  refine h u ht ?_
  unfold SigPending sigkill
  rw [and_one_shiftLeft_ne_zero, Nat.testBit_and, Bool.and_eq_true]
  split at hu
  · next hut =>
    rw [hut, ← hf]
    exact ⟨hbit _ hu.1, hu.2⟩
  · exact hu

theorem NoSigkill.deliver (h : NoSigkill k) (t : ℕ) : NoSigkill (k.deliver t sigcko) := by
  refine h.modify (fun _ => rfl) fun p hp => ?_
  have hten : sigcko.testBit 9 = false := by decide
  rwa [Nat.testBit_or, Nat.testBit_and, hten, Bool.and_false, Bool.or_false] at hp

theorem NoSigkill.clear (h : NoSigkill k) (t n : ℕ) : NoSigkill (k.modify t fun p => { p with signals :=
    { p.signals with pending := p.signals.pending &&& n } }) := by
  refine h.modify (fun _ => rfl) fun p hp => ?_
  rw [Nat.testBit_and, Bool.and_eq_true] at hp
  exact hp.1

theorem NoSigkill.clears (h : NoSigkill k) (hc : Clears t k k') : NoSigkill k' := by
  intro u ht hu
  have hmem : u ∈ k.allocated := hc.sets.quiet.allocated ▸ ht
  by_cases hut : u = t
  · subst hut
    exact h u hmem (hc.sigPending.1.mp hu)
  · obtain ⟨n, rfl, _⟩ := hc
    unfold SigPending at hu
    rw [modify_apply, if_neg hut] at hu
    exact h u hmem hu

end NoSigkill

def BuriesOf (t : ℕ) (k : Machine) (m : Move) : Prop :=
  ∃ c ∈ (k.threads t).children, (k.threads c).state = .stopped ∧ m = .bury c

/-- `SIGCKO` puts `t` to sleep: it waits for all its children and one is alive, or it is asleep and waits
for no dead child. -/
def SleepsOn (t : ℕ) (k : Machine) : Prop :=
  ((k.threads t).wait4child = true ∧ ∃ c ∈ (k.threads t).children, (k.threads c).state.ko = false) ∨
    ((k.threads t).wait4child = false ∧ (k.threads t).state = .interruptible ∧
      ∀ c ∈ (k.threads t).children, ¬ ((k.threads t).wait4 = (k.threads c).pid ∧
        (k.threads c).state.ko = true))

section Sigcko
variable {k k' : Machine} {t : ℕ}

theorem handleSigcko_spec (t : ℕ) (ret : Bool) (k : Machine) : ∃ k₁, Moves (BuriesOf t k) k k₁ ∧
    (Quiet k₁ (handleSigcko t ret k).2 ∨
      (Quiet (sleepThread t k₁) (handleSigcko t ret k).2 ∧ SleepsOn t k)) := by
  have hscan : Quiet k (scanned t k) := Quiet.reparentAll _ k
  rw [handleSigcko_eq]
  split
  · next hwait =>
    split
    · exact ⟨_, .quiet (hscan.trans (Quiet.reparentAll _ _)), .inl (Quiet.refl _)⟩
    · next hall =>
      refine ⟨_, .quiet hscan, .inr ⟨Quiet.refl _, .inl ⟨hwait, ?_⟩⟩⟩
      simpa using hall
  · next hwait =>
    split
    · exact ⟨_, .quiet hscan, .inl (Quiet.refl _)⟩
    · next hany =>
      have hbury := foldl_buryChild_moves (k.threads t).children k
      dsimp only
      split
      · next hsleep =>
        refine ⟨_, hbury, .inr ⟨Quiet.refl _, .inr ⟨(Bool.not_eq_true _).mp hwait, ?_, ?_⟩⟩⟩
        · rcases foldl_buryChild_state (k.threads t).children k t with h | h
          · rw [← h, hsleep]
          · rw [hsleep] at h
            cases h
        · exact not_waitedFor hany
      · exact ⟨_, hbury, .inl (Quiet.refl _)⟩

theorem handleSigcko_allocated (t : ℕ) (ret : Bool) (k : Machine) :
    (handleSigcko t ret k).2.allocated = k.allocated := by
  have hsleep : ∀ k, (sleepThread t k).allocated = k.allocated := by
    intro k
    unfold sleepThread
    split
    · rfl
    · rfl
  obtain ⟨k₁, hbury, hq | ⟨hq, _⟩⟩ := handleSigcko_spec t ret k
  · exact hq.allocated.trans hbury.allocated
  · exact hq.allocated.trans ((hsleep k₁).trans hbury.allocated)

end Sigcko

section Keeps
variable {α : Type*} {f : Thread → α} {k k' : Machine} {t : ℕ}

theorem Keeps.sleepThread (hs : ∀ p s, f { p with state := s } = f p) (k : Machine) (t : ℕ) :
    Keeps f k (sleepThread t k) := by
  unfold Proc.sleepThread
  split
  · exact Keeps.refl k
  · exact Keeps.setState hs k t .interruptible

theorem Keeps.handleSigcko (hs : ∀ p s, f { p with state := s } = f p)
    (hc : ∀ p c, f { p with children := c } = f p) (hn : ∀ p n, f { p with father := n } = f p)
    (k : Machine) (t : ℕ) (ret : Bool) : Keeps f k (handleSigcko t ret k).2 := by
  have hscan : Keeps f k (scanned t k) := Keeps.reparentAll hc hn _ k
  have hbury : Keeps f k ((k.threads t).children.foldl buryChild k) := by
    refine Keeps.foldl (fun k p1 => ?_) _ k
    unfold buryChild
    split
    · exact (Keeps.reparent hc hn k p1).trans (Keeps.setState hs _ p1 .zombie)
    · exact Keeps.refl k
  rw [handleSigcko_eq]
  split
  · split
    · exact hscan.trans (Keeps.reparentAll hc hn _ _)
    · exact hscan.trans (Keeps.sleepThread hs _ t)
  · split
    · exact hscan
    · dsimp only
      split
      · exact hbury.trans (Keeps.sleepThread hs _ t)
      · exact hbury

theorem handleSignals_noSigkill (ht : t ∈ k.allocated) (hzero : t ≠ 0) (h : NoSigkill k) : ∃ k₁ k₂,
    NoSigkill k₁ ∧ NoSigkill k₂ ∧ SetsPending t k k₁ ∧ SetsPending t k₂ (handleSignals t k).2 ∧
      NoSigkill (handleSignals t k).2 ∧
      (k₂ = k₁ ∨ (SigPending t sigcko k ∧ k₂ = (handleSigcko t true k₁).2)) := by
  obtain ⟨k₁, k₃, hfirst, hlast, heq⟩ := handleSignals_eq hzero k
  have h₁ : NoSigkill k₁ := h.clears hfirst
  have hnine : handleSignal t (true, k₁) 9 = (true, k₁) := by
    obtain ⟨_, _, _, hnine⟩ := handleSignal_nine (t := t) k₁
    rw [hnine, if_neg (h₁ t (hfirst.sets.quiet.allocated.symm ▸ ht))]
  rw [hnine, handleSignal_ten] at hlast
  rw [heq]
  split at hlast
  · next hcko =>
    have hclear := h₁.clear t (2 ^ 32 - 1 - sigcko)
    have hdone : NoSigkill (handleSigcko t true (k₁.modify t fun p => { p with signals :=
        { p.signals with pending := p.signals.pending &&& (2 ^ 32 - 1 - sigcko) } })).2 :=
      hclear.keeps (handleSigcko_allocated t true _)
        (Keeps.handleSigcko (fun _ _ => rfl) (fun _ _ => rfl) (fun _ _ => rfl) _ t true)
    exact ⟨_, _, hclear, hdone, hfirst.sets.trans (SetsPending.clear k₁ t _), hlast.sets,
      hdone.clears hlast, .inr ⟨hfirst.sigPending.2.mp hcko, rfl⟩⟩
  · exact ⟨k₁, k₁, h₁, h₁, hfirst.sets, hlast.sets, h₁.clears hlast, .inl rfl⟩

theorem Keeps.handleSignals (hs : ∀ p s, f { p with state := s } = f p)
    (hg : ∀ p s, f { p with signals := s } = f p) (hc : ∀ p c, f { p with children := c } = f p)
    (hn : ∀ p n, f { p with father := n } = f p) (ht : t ∈ k.allocated) (hzero : t ≠ 0)
    (h : NoSigkill k) : Keeps f k (handleSignals t k).2 := by
  obtain ⟨k₁, k₂, _, _, hfirst, hlast, _, hmid⟩ := handleSignals_noSigkill ht hzero h
  refine (hfirst.keeps hg).trans (Keeps.trans ?_ (hlast.keeps hg))
  rcases hmid with rfl | ⟨_, rfl⟩
  · exact Keeps.refl _
  · exact Keeps.handleSigcko hs hc hn k₁ t true

end Keeps

section Burials
variable {k k' : Machine} {t : ℕ}

theorem SleepsOn.congr (h : SleepsOn t k') (hq : Quiet k k')
    (hwait : (k'.threads t).wait4child = (k.threads t).wait4child)
    (hwait4 : (k'.threads t).wait4 = (k.threads t).wait4)
    (hchildren : (k'.threads t).children = (k.threads t).children) : SleepsOn t k := by
  unfold SleepsOn at h ⊢
  rw [hwait, hwait4, hchildren] at h
  simpa only [hq.state, hq.pid] using h

/-- `handle_signals` without `SIGKILL`: some burials, and the sleep if `SIGCKO` asks for it. -/
theorem handleSignals_spec (ht : t ∈ k.allocated) (hzero : t ≠ 0) (h : NoSigkill k) :
    ∃ k₁, Moves (BuriesOf t k) k k₁ ∧
    (Quiet k₁ (handleSignals t k).2 ∨ (Quiet (sleepThread t k₁) (handleSignals t k).2 ∧
      SigPending t sigcko k ∧ SleepsOn t k)) := by
  obtain ⟨k₁, k₂, _, _, hfirst, hlast, _, hmid⟩ := handleSignals_noSigkill ht hzero h
  rcases hmid with rfl | ⟨hcko, rfl⟩
  · exact ⟨k₂, .quiet hfirst.quiet, .inl hlast.quiet⟩
  · have hchildren : (k₁.threads t).children = (k.threads t).children :=
      hfirst.keeps (f := Thread.children) (fun _ _ => rfl) t
    obtain ⟨k₃, hbury, hend⟩ := handleSigcko_spec t true k₁
    refine ⟨k₃, (Moves.quiet hfirst.quiet).trans (hbury.mono fun m hm => ?_), ?_⟩
    · obtain ⟨c, hc, hs, rfl⟩ := hm
      rw [hchildren] at hc
      rw [hfirst.quiet.state] at hs
      exact ⟨c, hc, hs, rfl⟩
    · rcases hend with hquiet | ⟨hquiet, hsleeps⟩
      · exact .inl (hquiet.trans hlast.quiet)
      · refine .inr ⟨hquiet.trans hlast.quiet, hcko, hsleeps.congr hfirst.quiet ?_ ?_ hchildren⟩
        · exact hfirst.keeps (f := Thread.wait4child) (fun _ _ => rfl) t
        · exact hfirst.keeps (f := Thread.wait4) (fun _ _ => rfl) t

end Burials

section Children
variable {k k' : Machine} {f c p t : ℕ}

theorem mem_foldl_adopt {l : List ℕ} (hc : c ∈ (k.threads f).children) (hl : c ∉ l) :
    c ∈ ((l.foldl adopt k).threads f).children := by
  induction l generalizing k with
  | nil => exact hc
  | cons a l ih =>
    have hca : c ≠ a := fun e => hl (e ▸ List.mem_cons_self ..)
    refine ih ?_ fun hm => hl (List.mem_cons_of_mem _ hm)
    rw [children_adopt]
    split
    · exact List.mem_cons_of_mem _ ((List.mem_erase_of_ne hca).mpr hc)
    · exact (List.mem_erase_of_ne hca).mpr hc

theorem mem_reparent (h : TreeInv k) (hf : f ∈ k.allocated) (hp : p ∈ k.allocated) (hpf : p ≠ f)
    (hc : c ∈ (k.threads f).children) : c ∈ ((reparent p k).threads f).children := by
  refine mem_foldl_adopt hc fun hm => hpf ?_
  rw [← (h.child p hp c hm).2.2, (h.child f hf c hc).2.2]

theorem mem_reparentAll {l : List ℕ} (h : TreeInv k) (hf : f ∈ k.allocated)
    (hl : ∀ p ∈ l, p ∈ k.allocated ∧ p ≠ f) (hc : c ∈ (k.threads f).children) :
    c ∈ ((reparentAll l k).threads f).children := by
  induction l generalizing k with
  | nil => exact hc
  | cons p l ih =>
    obtain ⟨hp, hpf⟩ := hl p (List.mem_cons_self ..)
    have hprune := Prunes.reparent h hp
    refine ih hprune.tree (hprune.allocated.symm ▸ hf) (fun q hq => ?_) (mem_reparent h hf hp hpf hc)
    rw [hprune.allocated]
    exact hl q (List.mem_cons_of_mem _ hq)

theorem mem_foldl_buryChild {l : List ℕ} (h : TreeInv k) (hf : f ∈ k.allocated)
    (hl : ∀ p ∈ l, p ∈ k.allocated) (halive : (k.threads f).state.ko = false)
    (hc : c ∈ (k.threads f).children) : c ∈ ((l.foldl buryChild k).threads f).children := by
  induction l generalizing k with
  | nil => exact hc
  | cons p l ih =>
    have hp := hl p (List.mem_cons_self ..)
    have hprune := Prunes.buryChild h hp
    have hone : c ∈ ((buryChild k p).threads f).children ∧
        ((buryChild k p).threads f).state.ko = false := by
      unfold buryChild
      split
      · next hs =>
        have hpf : p ≠ f := by
          rintro rfl
          rw [hs] at halive
          cases halive
        refine ⟨?_, ?_⟩
        · rw [(SameTree.setState (reparent p k) p .zombie).children]
          exact mem_reparent h hf hp hpf hc
        · rw [state_setState, if_neg (Ne.symm hpf), (Quiet.reparent k p).state]
          exact halive
      · exact ⟨hc, halive⟩
    refine ih hprune.tree (hprune.allocated.symm ▸ hf) (fun q hq => ?_) hone.2 hone.1
    rw [hprune.allocated]
    exact hl q (List.mem_cons_of_mem _ hq)

theorem foldl_adopt_subset (l : List ℕ) (k : Machine) (hp : p ≠ k.initThread) :
    ((l.foldl adopt k).threads p).children ⊆ (k.threads p).children := by
  induction l generalizing k with
  | nil => exact List.Subset.refl _
  | cons a l ih =>
    have hone : ((adopt k a).threads p).children = (k.threads p).children.erase a := by
      rw [children_adopt, if_neg hp]
    exact fun c hc => List.mem_of_mem_erase (hone ▸ ih (adopt k a) hp hc)

theorem reparentAll_subset (l : List ℕ) (k : Machine) (hp : p ≠ k.initThread) :
    ((reparentAll l k).threads p).children ⊆ (k.threads p).children := by
  induction l generalizing k with
  | nil => exact List.Subset.refl _
  | cons a l ih =>
    have hinit : (reparent a k).initThread = k.initThread := (Quiet.reparent k a).initThread
    exact fun c hc => foldl_adopt_subset _ k hp (ih (reparent a k) (hinit ▸ hp) hc)

/-- `SIGCKO` of any thread; `init_thread` must not be waiting for all its children. -/
theorem mem_handleSigcko (h : TreeInv k) (hf : f ∈ k.allocated) (ht : t ∈ k.allocated)
    (halive : (k.threads f).state.ko = false)
    (hinit : f ≠ k.initThread → (k.threads k.initThread).wait4child = false) (ret : Bool)
    (hc : c ∈ (k.threads f).children) : c ∈ ((handleSigcko t ret k).2.threads f).children := by
  have hdead : ∀ p, (k.threads p).state.ko = true → p ≠ f := by
    rintro p hp rfl
    rw [halive] at hp
    cases hp
  have hfilter : ∀ p ∈ (k.threads t).children.filter (waitedFor t k), p ∈ k.allocated ∧ p ≠ f := by
    intro p hp
    obtain ⟨hp, hw⟩ := List.mem_filter.mp hp
    unfold waitedFor at hw
    rw [Bool.and_eq_true] at hw
    exact ⟨(h.child t ht p hp).1, hdead p hw.2⟩
  have hprune : Prunes k (scanned t k) := Prunes.reparentAll h fun p hp => (hfilter p hp).1
  have hscan : c ∈ ((scanned t k).threads f).children := mem_reparentAll h hf hfilter hc
  rw [handleSigcko_eq]
  split
  · split
    · next hwait hall =>
      have ht' : t ∈ (scanned t k).allocated := hprune.allocated.symm ▸ ht
      refine mem_reparentAll hprune.tree (hprune.allocated.symm ▸ hf) (fun p hp => ?_) hscan
      obtain ⟨hpa, hpi, _⟩ := hprune.tree.child t ht' p hp
      refine ⟨hpa, ?_⟩
      by_cases hti : t = k.initThread
      · -- `init_thread` waits, so it is `f` itself
        have hfi : f = k.initThread := by
          by_contra hne
          rw [hti, hinit hne] at hwait
          cases hwait
        rw [hfi, ← hprune.initThread]
        exact hpi
      · exact hdead p (List.all_eq_true.mp hall p (reparentAll_subset _ k hti hp))
    · rw [(sameTree_sleepThread t (scanned t k)).children]
      exact hscan
  · split
    · exact hscan
    · have hbury := mem_foldl_buryChild h hf (fun p hp => (h.child t ht p hp).1) halive hc
      dsimp only
      split
      · rw [(sameTree_sleepThread t _).children]
        exact hbury
      · exact hbury

/-- `handle_signals` of any thread takes no child from a living father. -/
theorem mem_handleSignals (h : TreeInv k) (hno : NoSigkill k) (hf : f ∈ k.allocated) (ht : t ∈ k.allocated)
    (hzero : t ≠ 0) (halive : (k.threads f).state.ko = false)
    (hinit : f ≠ k.initThread → (k.threads k.initThread).wait4child = false)
    (hc : c ∈ (k.threads f).children) : c ∈ ((handleSignals t k).2.threads f).children := by
  obtain ⟨k₁, k₂, _, _, hfirst, hlast, _, hmid⟩ := handleSignals_noSigkill ht hzero hno
  have hkeep : ∀ {k k' : Machine}, SetsPending t k k' →
      (k'.threads f).children = (k.threads f).children :=
    fun hs => hs.keeps (f := Thread.children) (fun _ _ => rfl) f
  rw [hkeep hlast]
  have hc₁ : c ∈ (k₁.threads f).children := by
    rw [hkeep hfirst]
    exact hc
  rcases hmid with rfl | ⟨_, rfl⟩
  · exact hc₁
  · refine mem_handleSigcko (h.same hfirst.sameTree) ?_ ?_ ?_ (fun hne => ?_) true hc₁
    · rw [hfirst.quiet.allocated]
      exact hf
    · rw [hfirst.quiet.allocated]
      exact ht
    · rw [hfirst.quiet.state]
      exact halive
    · rw [hfirst.quiet.initThread] at hne ⊢
      rw [hfirst.keeps (f := Thread.wait4child) (fun _ _ => rfl)]
      exact hinit hne

end Children

end X86Osdev.Proc

import X86Osdev.Kernel.ProcessTree
import X86Osdev.Kernel.SignalFrame
import X86Osdev.Proc.FatherSignals
import X86Osdev.Proc.LiveThreads

/-! A living father and its children under signals, timers and the scheduler: it loses no child, and only
`SIGCKO` of its own takes it off the running queue. -/

namespace X86Osdev.Kernel
open CircularList X86Osdev.Mem X86Osdev.Proc X86Osdev.Lock

structure FatherOk (f : ℕ) (k : Machine) (E : Queue → List ℕ) : Prop where
  queues : QueueInv k E
  tree : TreeInv k
  noSigkill : NoSigkill k
  alive : Alive k E f
  named : getThread (k.threads f).pid k = some f
  current : ∃ q, k.currentThread ∈ E q
  timers : ∀ activeT ∈ k.kernelTimers, activeT.thread ∈ k.allocated
  init : f ≠ k.initThread → (k.threads k.initThread).wait4child = false

section Family
variable {f t : ℕ} {k k' : Machine} {E E' : Queue → List ℕ}

theorem FatherOk.mem (h : FatherOk f k E) : f ∈ k.allocated := by
  rcases h.alive.queue with hq | hq
  · exact h.queues.unreaped _ _ hq
  · exact h.queues.unreaped _ _ hq

theorem FatherOk.current_mem (h : FatherOk f k E) : k.currentThread ∈ k.allocated := by
  obtain ⟨q, hq⟩ := h.current
  exact h.queues.unreaped q _ hq

theorem FatherOk.ne_zero (h : FatherOk f k E) (ht : t ∈ k.allocated) : t ≠ 0 := (h.queues.addresses t ht).1

theorem FatherOk.quiet (h : FatherOk f k E) (hq : Quiet k k') (hf : Frame k k') (htree : TreeInv k')
    (hno : NoSigkill k')
    (hinit : f ≠ k.initThread → (k'.threads k.initThread).wait4child = false) : FatherOk f k' E := by
  refine ⟨h.queues.quiet hq, htree, hno, h.alive.quiet hq, ?_, ?_, fun activeT ht => ?_, fun hne => ?_⟩
  · rw [hq.getThread, hq.pid]
    exact h.named
  · rw [hf.currentThread]
    exact h.current
  · rw [hq.allocated]
    exact h.timers activeT (hf.kernelTimers ht)
  · rw [hf.initThread] at hne ⊢
    exact hinit hne

theorem FatherOk.modify (h : FatherOk f k E) {t : ℕ} {g : Thread → Thread}
    (hs : ∀ p, (g p).state = p.state) (hp : ∀ p, (g p).pid = p.pid)
    (hg : ∀ p, (g p).signals = p.signals) (hn : ∀ p, (g p).father = p.father)
    (hc : ∀ p, (g p).children = p.children)
    (hw : t = f ∨ ∀ p, (g p).wait4child = p.wait4child) : FatherOk f (k.modify t g) E := by
  refine h.quiet (Quiet.modify k t g hs hp) (Frame.modify k t g)
    (h.tree.same (SameTree.modify k t hn hc)) (h.noSigkill.keeps rfl (Keeps.modify k t hg)) fun hne => ?_
  rw [modify_apply]
  split
  · next hti =>
    rcases hw with rfl | hw
    · exact (hne hti.symm).elim
    · rw [hw, ← hti]
      exact h.init hne
  · exact h.init hne

theorem FatherOk.play {m : Move} (h : FatherOk f k E) (hl : m.Legal k) (hm : Spares f m) :
    FatherOk f (m.play k) (m.after E) := by
  have hsame : ∀ {α : Type} (g : Thread → α), (∀ p s, g { p with state := s } = g p) →
      Keeps g k (m.play k) := by
    intro α g hg
    cases m with
    | stop u => exact Keeps.setState hg k u _
    | sleep u => exact Keeps.setState hg k u _
    | wake u s => exact Keeps.setState hg k u s
    | bury u => exact Keeps.setState hg k u _
  have hframe : Frame k (m.play k) := by
    cases m with
    | stop u => exact ⟨rfl, rfl, rfl, rfl, rfl, rfl, List.Subset.refl _⟩
    | sleep u => exact ⟨rfl, rfl, rfl, rfl, rfl, rfl, List.Subset.refl _⟩
    | wake u s => exact ⟨rfl, rfl, rfl, rfl, rfl, rfl, List.Subset.refl _⟩
    | bury u => exact ⟨rfl, rfl, rfl, rfl, rfl, rfl, List.Subset.refl _⟩
  have htree : SameTree k (m.play k) := ⟨hframe.allocated, hframe.initThread,
    hsame Thread.father fun _ _ => rfl, hsame Thread.children fun _ _ => rfl⟩
  refine ⟨h.queues.play hl, h.tree.same htree, h.noSigkill.keeps hframe.allocated (hsame Thread.signals fun _ _ => rfl),
    h.alive.play h.queues hm, ?_, ?_, fun activeT ht => ?_, fun hne => ?_⟩
  · have hmoves : Moves (fun _ => True) k (m.play k) := Moves.single trivial hl
    rw [hmoves.getThread, hmoves.pid]
    exact h.named
  · rw [hframe.currentThread]
    exact h.queues.mem_after h.current
  · rw [hframe.allocated]
    exact h.timers activeT (hframe.kernelTimers ht)
  · rw [hframe.initThread] at hne ⊢
    rw [hsame Thread.wait4child (fun _ _ => rfl) k.initThread]
    exact h.init hne

theorem FatherOk.of_moves {ok : Move → Prop} (h : FatherOk f k E) (hm : Moves ok k k')
    (hq : QueueInv k' E') (ha : Alive k' E' f) (hcur : ∃ q, k'.currentThread ∈ E' q)
    (htimers : k'.kernelTimers ⊆ k.kernelTimers) (htree : TreeInv k') (hno : NoSigkill k')
    (hwait : Keeps Thread.wait4child k k') : FatherOk f k' E' := by
  refine ⟨hq, htree, hno, ha, ?_, hcur, fun activeT ht => ?_, fun hne => ?_⟩
  · rw [hm.getThread, hm.pid]
    exact h.named
  · rw [hm.allocated]
    exact h.timers activeT (htimers ht)
  · have hinit : k'.initThread = k.initThread := hm.fixed.2.2.2.1
    rw [hinit] at hne ⊢
    rw [hwait k.initThread]
    exact h.init hne

end Family

structure Follows (f : ℕ) (k k' : Machine) (E E' : Queue → List ℕ) : Prop where
  children : ∀ c ∈ (k.threads f).children, c ∈ (k'.threads f).children
  pid : ∀ c, (k'.threads c).pid = (k.threads c).pid
  wait4 : (k'.threads f).wait4 = (k.threads f).wait4
  wait4child : (k'.threads f).wait4child = (k.threads f).wait4child
  dead : ∀ c, (k'.threads c).state.ko = true → (k.threads c).state.ko = true
  running : ∀ c ∈ E .running, (k'.threads c).state.ko = true → c ∈ E' .running
  placed : ∀ c, (∃ q, c ∈ E q) → ∃ q, c ∈ E' q

section Follows
variable {f t : ℕ} {k k' k'' : Machine} {E E' E'' : Queue → List ℕ}

theorem Follows.trans (h : Follows f k k' E E') (h' : Follows f k' k'' E' E'') :
    Follows f k k'' E E'' :=
  ⟨fun c hc => h'.children c (h.children c hc), fun c => (h'.pid c).trans (h.pid c),
    h'.wait4.trans h.wait4, h'.wait4child.trans h.wait4child, fun c hc => h.dead c (h'.dead c hc),
    fun c hc hko => h'.running c (h.running c hc (h'.dead c hko)) hko, fun c hc => h'.placed c (h.placed c hc)⟩

theorem Accounting.follows (h : Accounting k k') : Follows f k k' E E :=
  ⟨fun _ hc => (h.children f).symm ▸ hc, h.quiet.pid, h.wait4 f, h.wait4child f,
    fun c hc => h.quiet.state c ▸ hc, fun _ hc _ => hc, fun _ hc => hc⟩

theorem FatherOk.accounting (h : FatherOk f k E) (hacc : Accounting k k') (hf : Frame k k') :
    FatherOk f k' E := by
  refine h.quiet hacc.quiet hf (h.tree.same hacc.sameTree) (h.noSigkill.keeps hacc.quiet.allocated hacc.signals) fun hne => ?_
  rw [hacc.wait4child]
  exact h.init hne

theorem QueueInv.burials (hq : QueueInv k E) (hm : Moves (BuriesOf t k) k k') : QueueInv k' E ∧
    ∀ c, (k'.threads c).state = (k.threads c).state ∨
      ((k.threads c).state = .stopped ∧ (k'.threads c).state = .zombie) := by
  induction hm with
  | quiet hquiet => exact ⟨hq.quiet hquiet, fun c => .inl (hquiet.state c)⟩
  | @move k₁ k₂ m _ hok hl hquiet ih =>
    obtain ⟨d, _, hd, rfl⟩ := hok
    refine ⟨(ih.1.play hl).quiet hquiet, fun c => ?_⟩
    have hstate : (k₂.threads c).state = if c = d then .zombie else (k₁.threads c).state :=
      (hquiet.state c).trans (state_setState k₁ d c _)
    rw [hstate]
    split
    · next hcd => exact .inr ⟨hcd ▸ hd, rfl⟩
    · exact ih.2 c

/-- `handle_signals` of any thread: only `SIGCKO` of the father itself takes it off the running queue. -/
theorem FatherOk.signals (h : FatherOk f k E) (ht : t ∈ k.allocated) : ∃ E',
    FatherOk f (handleSignals t k).2 E' ∧ Follows f k (handleSignals t k).2 E E' ∧
      ((f ∈ E .running → f ∈ E' .running) ∨ (t = f ∧ SigPending f sigcko k ∧ SleepsOn f k)) := by
  have hzero := h.ne_zero ht
  have hk : ∀ u ∈ k.kThreads, u ∈ k.allocated := fun u hu => h.queues.procs ▸ hu
  have hframe := Frame.handleSignals k t
  have htree := (handleSignals_tree h.tree hk ht hzero).1.tree
  have hmoves := handleSignals_moves hk ht hzero
  obtain ⟨_, _, _, _, _, _, hno, _⟩ := handleSignals_noSigkill ht hzero h.noSigkill
  have hkeep : ∀ {α : Type} (g : Thread → α), (∀ p s, g { p with state := s } = g p) →
      (∀ p s, g { p with signals := s } = g p) → (∀ p c, g { p with children := c } = g p) →
      (∀ p n, g { p with father := n } = g p) → Keeps g k (handleSignals t k).2 :=
    fun g hs hg hc hn => Keeps.handleSignals hs hg hc hn ht hzero h.noSigkill
  have hwait := hkeep Thread.wait4child (fun _ _ => rfl) (fun _ _ => rfl) (fun _ _ => rfl) fun _ _ => rfl
  have hwait4 := hkeep Thread.wait4 (fun _ _ => rfl) (fun _ _ => rfl) (fun _ _ => rfl) fun _ _ => rfl
  have hchildren : ∀ c ∈ (k.threads f).children, c ∈ ((handleSignals t k).2.threads f).children :=
    fun c hc => mem_handleSignals h.tree h.noSigkill h.mem ht hzero h.alive.state h.init hc
  -- children are buried first; then `t` may be put to sleep
  obtain ⟨k₁, hbury, hend⟩ := handleSignals_spec ht hzero h.noSigkill
  obtain ⟨hq₁, hstate₁⟩ := QueueInv.burials h.queues hbury
  have hdead₁ : ∀ c, (k₁.threads c).state.ko = true → (k.threads c).state.ko = true := by
    intro c hc
    rcases hstate₁ c with e | ⟨e, _⟩
    · exact e ▸ hc
    · rw [e]
      rfl
  have halive₁ : Alive k₁ E f := by
    refine ⟨?_, h.alive.queue⟩
    by_contra hko
    have := h.alive.state
    rw [hdead₁ f (by simpa using hko)] at this
    cases this
  have hsame : ∀ {k'}, Quiet k₁ k' → (handleSignals t k).2 = k' →
      FatherOk f (handleSignals t k).2 E ∧ Follows f k (handleSignals t k).2 E E := by
    rintro k' hquiet rfl
    refine ⟨h.of_moves hmoves (hq₁.quiet hquiet) (halive₁.quiet hquiet) ?_ hframe.kernelTimers htree hno
      hwait, hchildren, hmoves.pid, hwait4 f, hwait f, fun c hc => hdead₁ c (hquiet.state c ▸ hc),
      fun _ hc _ => hc, fun _ hc => hc⟩
    rw [hframe.currentThread]
    exact h.current
  rcases hend with hquiet | ⟨hquiet, hcko, hsleeps⟩
  · obtain ⟨hok, hfol⟩ := hsame hquiet rfl
    exact ⟨E, hok, hfol, .inl id⟩
  · by_cases hp : (k₁.threads t).pid = idlePid
    · rw [show sleepThread t k₁ = k₁ from if_pos hp] at hquiet
      obtain ⟨hok, hfol⟩ := hsame hquiet rfl
      exact ⟨E, hok, hfol, .inl id⟩
    · have hplay : sleepThread t k₁ = (Move.sleep t).play k₁ := if_neg hp
      rw [hplay] at hquiet
      have hl : (Move.sleep t).Legal k₁ := ⟨hbury.allocated.symm ▸ ht, hp⟩
      have hspare : Spares f (.sleep t) := trivial
      have hst : ∀ c, ((handleSignals t k).2.threads c).state =
          if c = t then .interruptible else (k₁.threads c).state :=
        fun c => (hquiet.state c).trans (state_setState k₁ t c _)
      refine ⟨(Move.sleep t).after E, h.of_moves hmoves ((hq₁.play hl).quiet hquiet)
        ((halive₁.play hq₁ hspare).quiet hquiet) ?_ hframe.kernelTimers htree hno hwait,
        ⟨hchildren, hmoves.pid, hwait4 f, hwait f, fun c hc => ?_, fun c hc hko => ?_,
          fun _ hc => hq₁.mem_after hc⟩, ?_⟩
      · rw [hframe.currentThread]
        exact hq₁.mem_after h.current
      · rw [hst] at hc
        split at hc
        · cases hc
        · exact hdead₁ c hc
      · rw [hst] at hko
        split at hko
        · cases hko
        · next hct => exact ((Move.sleep t).mem_after_iff (fun e => hct e.symm) .running).mpr hc
      · by_cases htf : t = f
        · subst htf
          exact .inr ⟨rfl, hcko, hsleeps⟩
        · exact .inl fun hf => ((Move.sleep t).mem_after_iff htf .running).mpr hf

structure Woken (f : ℕ) (k : Machine) (E : Queue → List ℕ) (k' : Machine) (E' : Queue → List ℕ) : Prop where
  alive : Alive k' E' f
  dead : ∀ c, (k'.threads c).state.ko = true → (k.threads c).state.ko = true
  running : ∀ c ∈ E .running, c ∈ E' .running
  placed : ∀ c, (∃ q, c ∈ E q) → ∃ q, c ∈ E' q
  asleep : (k'.threads f).state = .interruptible → (k.threads f).state = .interruptible

theorem Woken.quiet (h : Woken f k E k' E') (hq : Quiet k' k'') : Woken f k E k'' E' := by
  refine ⟨h.alive.quiet hq, fun c hc => h.dead c (hq.state c ▸ hc), h.running, h.placed, ?_⟩
  rw [hq.state]
  exact h.asleep

theorem Woken.wake (h : Woken f k E k' E') (hq : QueueInv k' E') (u : ℕ) :
    Woken f k E ((Move.wake u .runnable).play k') ((Move.wake u .runnable).after E') := by
  have hst : ∀ c, (((Move.wake u .runnable).play k').threads c).state =
      if c = u then .runnable else (k'.threads c).state := fun c => state_setState k' u c .runnable
  refine ⟨h.alive.play hq fun _ => rfl, fun c hc => ?_, fun c hc => ?_,
    fun c hc => hq.mem_after (h.placed c hc), fun hint => ?_⟩
  · rw [hst] at hc
    split at hc
    · cases hc
    · exact h.dead c hc
  · refine (mem_movedTail (hq.nodup_queue _)).mpr ?_
    by_cases hcu : c = u
    · exact .inl ⟨hcu, rfl⟩
    · exact .inr ⟨hcu, h.running c hc⟩
  · rw [hst] at hint
    split at hint
    · cases hint
    · exact h.asleep hint

theorem FatherOk.timersRun (h : FatherOk f k E) : ∃ E', FatherOk f (timersRun k) E' ∧
    Follows f k (timersRun k) E E' ∧ (f ∈ E .running → f ∈ E' .running) ∧
      (((timersRun k).threads f).state = .interruptible → (k.threads f).state = .interruptible) := by
  have hmoves := timersRun_moves h.timers
  have hsame := sameTree_timersRun k
  have hframe := Frame.timersRun k
  have hkeep : ∀ {α : Type} (g : Thread → α), (∀ p s, g { p with state := s } = g p) →
      Keeps g k (Kernel.timersRun k) := fun g hg => keeps_timersRun hg k
  have hstart : Woken f k E k E := ⟨h.alive, fun _ hc => hc, fun _ hc => hc, fun _ hc => hc, id⟩
  obtain ⟨E', hq, hw⟩ := h.queues.moves_keep hstart (fun _ _ _ hw hquiet => hw.quiet hquiet)
    (fun k₁ m E₁ hq₁ hw ⟨activeT, _, _, hm⟩ _ => hm ▸ hw.wake hq₁ activeT.thread) hmoves
  refine ⟨E', h.of_moves hmoves hq hw.alive ?_ hframe.kernelTimers (h.tree.same hsame)
    (h.noSigkill.keeps hframe.allocated (hkeep Thread.signals fun _ _ => rfl)) (hkeep Thread.wait4child fun _ _ => rfl),
    ⟨fun c hc => (hsame.children f).symm ▸ hc, hmoves.pid, hkeep Thread.wait4 (fun _ _ => rfl) f,
      hkeep Thread.wait4child (fun _ _ => rfl) f, hw.dead, fun c hc _ => hw.running c hc, hw.placed⟩,
    hw.running f, hw.asleep⟩
  rw [hframe.currentThread]
  exact hw.placed _ h.current

theorem FatherOk.of_accounting (h : FatherOk f k E) (hacc : Accounting k k')
    (hcur : ∃ q, k'.currentThread ∈ E q) (htimers : k'.kernelTimers ⊆ k.kernelTimers) : FatherOk f k' E := by
  have hm : Moves (fun _ => True) k k' := .quiet hacc.quiet
  exact h.of_moves hm (h.queues.quiet hacc.quiet) (h.alive.quiet hacc.quiet) hcur htimers
    (h.tree.same hacc.sameTree) (h.noSigkill.keeps hacc.quiet.allocated hacc.signals) hacc.wait4child

theorem FatherOk.switch {next : ℕ} (h : FatherOk f k E) (hnext : ∃ q, next ∈ E q) :
    FatherOk f (switchToThread next k) E := by
  have hacc := switchToThread_accounting next k
  exact h.of_accounting hacc hnext (List.Subset.refl _)

/-- `SIGCKO` puts `f` to sleep on the way from `k` to `k'`. -/
def FallsAsleep (f : ℕ) (k k' : Machine) : Prop :=
  ∃ k₁ E E₁ E', Follows f k k₁ E E₁ ∧ Follows f k₁ k' E₁ E' ∧ SigPending f sigcko k ∧ SleepsOn f k₁ ∧
    ((k₁.threads f).state = .interruptible → (k.threads f).state = .interruptible)

theorem SleepsOn.accounting (h : SleepsOn f k') (hacc : Accounting k k') : SleepsOn f k :=
  h.congr hacc.quiet (hacc.wait4child f) (hacc.wait4 f) (hacc.children f)

theorem FatherOk.reschedule {now : ℕ} {switched : Bool} (h : FatherOk f k E)
    (he : reschedule now k = .ok switched k') : ∃ E', FatherOk f k' E' ∧ Follows f k k' E E' ∧
      ((f ∈ E .running → f ∈ E' .running) ∨
        ((∃ k₁, pickNextThread k = .ok f k₁) ∧ FallsAsleep f k k')) := by
  obtain ⟨next, k₁, hpick, _, rfl⟩ := reschedule_ok he
  have hacc := (pickNextThread_accounting hpick).trans (chargeReschedule_accounting now next k₁)
  have hframe := (Frame.pickNextThread hpick).trans (Frame.chargeReschedule now next k₁)
  have hnext := pickNextThread_mem h.queues hpick
  have h₁ := h.accounting hacc hframe
  obtain ⟨E', h', hfol, hrun⟩ := h₁.signals (hacc.quiet.allocated ▸ h.queues.unreaped .running next hnext)
  have hpre : Follows f k _ E E := hacc.follows
  have hsleeps : ∀ k₂, Follows f (handleSignals next (chargeReschedule now next k₁)).2 k₂ E' E' →
      (f ∈ E .running → f ∈ E' .running) ∨ ((∃ k₁, pickNextThread k = .ok f k₁) ∧ FallsAsleep f k k₂) := by
    intro k₂ hlast
    rcases hrun with hrun | ⟨rfl, hcko, hsleeps⟩
    · exact .inl hrun
    · exact .inr ⟨⟨k₁, hpick⟩, k, E, E, E', (Accounting.refl k).follows,
        hpre.trans (hfol.trans hlast), (hacc.sigPending _ sigcko).mp hcko, SleepsOn.accounting hsleeps hacc, id⟩
  split
  · have hswitch := switchToThread_accounting next (handleSignals next (chargeReschedule now next k₁)).2
    exact ⟨E', h'.switch (hfol.placed next ⟨_, hnext⟩), hpre.trans (hfol.trans hswitch.follows),
      hsleeps _ hswitch.follows⟩
  · exact ⟨E', h', hpre.trans hfol, hsleeps _ (Accounting.refl _).follows⟩

theorem FatherOk.noResched (h : FatherOk f k E) (now : ℕ) : ∃ E', FatherOk f (noResched now k) E' ∧
    Follows f k (noResched now k) E E' ∧ ((f ∈ E .running → f ∈ E' .running) ∨
      (k.currentThread = f ∧ SigPending f sigcko k ∧ SleepsOn f k)) := by
  obtain ⟨k₁, hacc, ⟨hcur, htimers⟩, heq⟩ := noResched_eq now k
  rw [heq]
  have h₁ : FatherOk f k₁ E := by
    refine h.of_accounting hacc ?_ fun _ ht => htimers ▸ ht
    rw [hcur]
    exact h.current
  obtain ⟨E', h', hfol, hrun⟩ := h₁.signals (hacc.quiet.allocated ▸ h.current_mem)
  refine ⟨E', h', (Accounting.follows hacc).trans hfol, hrun.imp id fun ⟨e, hcko, hsleeps⟩ => ?_⟩
  exact ⟨e, (hacc.sigPending f sigcko).mp hcko, SleepsOn.accounting hsleeps hacc⟩

theorem FatherOk.tick {now : ℕ} {next : Option ℕ} (h : FatherOk f k E)
    (he : schedulerHandler now k = .ok next k') : ∃ E', FatherOk f k' E' ∧ Follows f k k' E E' ∧
      (next = none → k'.currentThread = k.currentThread) ∧
        ((f ∈ E .running → f ∈ E' .running) ∨ (next = none ∧ k.currentThread = f ∧ FallsAsleep f k k')) := by
  obtain ⟨E₁, h₁, hfol₁, hrun₁, hasleep₁⟩ := h.timersRun
  have hcur := (Frame.timersRun k).currentThread
  have hsignals : Keeps Thread.signals k (Kernel.timersRun k) := keeps_timersRun (fun _ _ => rfl) k
  have hstay : ∀ k₂, Accounting (Kernel.timersRun k) k₂ → Frame (Kernel.timersRun k) k₂ →
      ∃ E', FatherOk f (Kernel.noResched now k₂) E' ∧ Follows f k (Kernel.noResched now k₂) E E' ∧
        (Kernel.noResched now k₂).currentThread = k.currentThread ∧
        ((f ∈ E .running → f ∈ E' .running) ∨
          (k.currentThread = f ∧ FallsAsleep f k (Kernel.noResched now k₂))) := by
    intro k₂ hacc hframe
    have hcur₂ := hframe.currentThread.trans hcur
    obtain ⟨E', h', hfol', hrun'⟩ := (h₁.accounting hacc hframe).noResched now
    have hrest : Follows f (Kernel.timersRun k) _ E₁ E' := hacc.follows.trans hfol'
    refine ⟨E', h', hfol₁.trans hrest, (Frame.noResched now k₂).currentThread.trans hcur₂, ?_⟩
    rcases hrun' with hrun' | ⟨e, hcko, hsleeps⟩
    · exact .inl fun hf => hrun' (hrun₁ hf)
    · have hcko : SigPending f sigcko (Kernel.timersRun k) := (hacc.sigPending f sigcko).mp hcko
      unfold SigPending at hcko
      rw [hsignals f] at hcko
      exact .inr ⟨hcur₂.symm.trans e, Kernel.timersRun k, E, E₁, E', hfol₁, hrest, hcko,
        SleepsOn.accounting hsleeps hacc, hasleep₁⟩
  rcases schedulerHandler_ok he with ⟨rfl, rfl | ⟨k₁, hpick, rfl⟩⟩ | ⟨next', k₁, rfl, hpick, rfl⟩
  · obtain ⟨E', h', hfol, hcur', hrun⟩ := hstay _ (Accounting.refl _) (Frame.refl _)
    exact ⟨E', h', hfol, fun _ => hcur', hrun.imp id fun hf => ⟨rfl, hf⟩⟩
  · obtain ⟨E', h', hfol, hcur', hrun⟩ := hstay k₁ (pickNextThread_accounting hpick)
      (Frame.pickNextThread hpick)
    exact ⟨E', h', hfol, fun _ => hcur', hrun.imp id fun hf => ⟨rfl, hf⟩⟩
  · have hacc := (pickNextThread_accounting hpick).trans (chargeSwitch_accounting now next' k₁)
    have hframe := (Frame.pickNextThread hpick).trans (Frame.chargeSwitch now next' k₁)
    have hnext := pickNextThread_mem h₁.queues hpick
    have hswitch := switchToThread_accounting next' (chargeSwitch now next' k₁)
    exact ⟨E₁, (h₁.accounting hacc hframe).switch ⟨_, hnext⟩, hfol₁.trans (hacc.trans hswitch).follows,
      fun e => (nomatch e), .inl hrun₁⟩

theorem FatherOk.awake (h : FatherOk f k E) (pid : ℕ) : ∃ E', FatherOk f (childAwoken pid k) E' ∧
    Follows f k (childAwoken pid k) E E' ∧ (∀ c ∈ E .running, c ∈ E' .running) ∧
      (getThread pid k = some f → f ∈ E' .running) := by
  cases hget : getThread pid k with
  | none =>
    have hnone : childAwoken pid k = k := by
      unfold childAwoken
      rw [hget]
    rw [hnone]
    exact ⟨E, h, (Accounting.refl k).follows, fun _ hc => hc, fun e => (nomatch e)⟩
  | some u =>
    -- The thread gets a `SIGCKO` and goes to the end of the running queue with the state that it had.
    have hdeliver := Quiet.deliver k u sigcko
    have hsame : SameTree k (k.deliver u sigcko) := SameTree.modify k u (fun _ => rfl) fun _ => rfl
    have hkeep : ∀ {α : Type} (g : Thread → α), (∀ p s, g { p with signals := s } = g p) →
        (∀ p s, g { p with state := s } = g p) →
        Keeps g k ((Move.wake u (k.threads u).state).play (k.deliver u sigcko)) :=
      fun g hg hs => (Keeps.deliver hg k u sigcko).trans (Keeps.setState hs (k.deliver u sigcko) u _)
    have hok : FatherOk f (k.deliver u sigcko) E := by
      refine h.quiet hdeliver (Frame.modify k u _) (h.tree.same hsame) (h.noSigkill.deliver u) fun hne => ?_
      have hflag : Keeps Thread.wait4child k (k.deliver u sigcko) := Keeps.deliver (fun _ _ => rfl) k u sigcko
      rw [hflag]
      exact h.init hne
    have hl : (Move.wake u (k.threads u).state).Legal (k.deliver u sigcko) := by
      show u ∈ k.allocated
      rw [← h.queues.procs]
      exact getThread_mem hget
    have hspare : Spares f (.wake u (k.threads u).state) := by
      rintro rfl
      exact h.alive.state
    have hstate : ∀ c, (((Move.wake u (k.threads u).state).play (k.deliver u sigcko)).threads c).state =
        (k.threads c).state := by
      intro c
      refine (state_setState (k.deliver u sigcko) u c _).trans ?_
      split
      · next hcu => rw [hcu]
      · exact hdeliver.state c
    have hrun : ∀ c, c = u ∨ c ∈ E .running →
        c ∈ (Move.wake u (k.threads u).state).after E .running := by
      intro c hc
      refine (mem_movedTail (h.queues.nodup_queue _)).mpr ?_
      by_cases hcu : c = u
      · exact .inl ⟨hcu, rfl⟩
      · exact .inr ⟨hcu, hc.resolve_left hcu⟩
    rw [childAwoken_some hget]
    refine ⟨_, hok.play hl hspare, ⟨fun c hc => ?_, hkeep Thread.pid (fun _ _ => rfl) fun _ _ => rfl,
      hkeep Thread.wait4 (fun _ _ => rfl) (fun _ _ => rfl) f,
      hkeep Thread.wait4child (fun _ _ => rfl) (fun _ _ => rfl) f, fun c hc => hstate c ▸ hc,
      fun c hc _ => hrun c (.inr hc), fun c hc => h.queues.mem_after hc⟩, fun c hc => hrun c (.inr hc),
      fun e => hrun f (.inl (Option.some.inj e).symm)⟩
    rw [hkeep Thread.children (fun _ _ => rfl) fun _ _ => rfl]
    exact hc

end Follows

end X86Osdev.Kernel

import X86Osdev.Kernel.SleepingFather
import X86Osdev.Kernel.SleepingThreads

/-! The value that `sys_wait4` returns: whether it is the one that the child has given to `sys_exit`. -/

namespace X86Osdev.Kernel
open CircularList X86Osdev.Mem X86Osdev.Proc X86Osdev.Lock

section Dead
variable {k k' : Machine} {t : ℕ} {m : Move} {ok : Move → Prop}

theorem play_dead (hm : Spares t m) (hko : ((m.play k).threads t).state.ko = true) :
    (k.threads t).state.ko = true := by
  cases m with
  | stop u =>
    have hstate := state_setState k u t .stopped
    rw [if_neg (Ne.symm hm)] at hstate
    exact (congrArg TaskState.ko hstate).symm.trans hko
  | sleep u =>
    have hstate := state_setState k u t .interruptible
    have hko := (congrArg TaskState.ko hstate).symm.trans hko
    split at hko
    · cases hko
    · exact hko
  | wake u s =>
    have hstate := state_setState k u t s
    have hko := (congrArg TaskState.ko hstate).symm.trans hko
    split at hko
    · next hut =>
      rw [hm hut.symm] at hko
      cases hko
    · exact hko
  | bury u =>
    have hstate := state_setState k u t .zombie
    rw [if_neg (Ne.symm hm)] at hstate
    exact (congrArg TaskState.ko hstate).symm.trans hko

theorem moves_dead (hok : ∀ m, ok m → ∀ t, ¬ Spares t m → (k.threads t).state.ko = true)
    (hm : Moves ok k k') (hko : (k'.threads t).state.ko = true) : (k.threads t).state.ko = true := by
  induction hm with
  | quiet hq => rwa [hq.state] at hko
  | @move k₁ k₂ m _ hmok _ hq ih =>
    rw [hq.state] at hko
    by_cases hspare : Spares t m
    · exact ih (play_dead hspare hko)
    · exact hok m hmok t hspare

end Dead

section Timers
variable {k : Machine}

theorem foldl_timers {α : Type*} {f : Machine → α → Machine}
    (hf : ∀ k a, (f k a).kernelTimers = k.kernelTimers) (l : List α) (k : Machine) :
    (l.foldl f k).kernelTimers = k.kernelTimers := by
  induction l generalizing k with
  | nil => rfl
  | cons a l ih => exact (ih (f k a)).trans (hf k a)

theorem reparent_timers (k : Machine) (p : ℕ) : (reparent p k).kernelTimers = k.kernelTimers := by
  have hadopt : ∀ k p1, (adopt k p1).kernelTimers = k.kernelTimers := fun _ _ => rfl
  exact foldl_timers hadopt _ k

theorem sleepThread_timers (t : ℕ) (k : Machine) : (sleepThread t k).kernelTimers = k.kernelTimers := by
  unfold sleepThread
  split
  · rfl
  · rfl

theorem handleSigcko_timers (t : ℕ) (ret : Bool) (k : Machine) :
    (handleSigcko t ret k).2.kernelTimers = k.kernelTimers := by
  have hall : ∀ l k, (reparentAll l k).kernelTimers = k.kernelTimers := foldl_timers reparent_timers
  have hbury : ∀ k p1, (buryChild k p1).kernelTimers = k.kernelTimers := by
    intro k p1
    unfold buryChild
    split
    · exact reparent_timers k p1
    · rfl
  rw [handleSigcko_eq]
  split
  · split
    · exact (hall _ _).trans (hall _ _)
    · exact (sleepThread_timers t _).trans (hall _ _)
  · split
    · exact hall _ _
    · dsimp only
      split
      · exact (sleepThread_timers t _).trans (foldl_timers hbury _ k)
      · exact foldl_timers hbury _ k

theorem setsPending_timers {k' : Machine} {t : ℕ} (h : SetsPending t k k') :
    k'.kernelTimers = k.kernelTimers := by
  obtain ⟨n, rfl⟩ := h
  rfl

/-- Only `SIGKILL` takes a timer. -/
theorem handleSignals_timers {t : ℕ} (ht : t ∈ k.allocated) (hzero : t ≠ 0) (h : NoSigkill k) :
    (handleSignals t k).2.kernelTimers = k.kernelTimers := by
  obtain ⟨k₁, k₂, -, -, hfirst, hlast, -, rfl | ⟨-, rfl⟩⟩ := handleSignals_noSigkill ht hzero h
  · exact (setsPending_timers hlast).trans (setsPending_timers hfirst)
  · exact (setsPending_timers hlast).trans ((handleSigcko_timers t true k₁).trans (setsPending_timers hfirst))

end Timers

structure Passes (k k' : Machine) : Prop where
  queues : ∃ E, QueueInv k' E
  noSigkill : NoSigkill k'
  allocated : k'.allocated = k.allocated
  timers : List.Sublist k'.kernelTimers k.kernelTimers
  pid : Keeps Thread.pid k k'
  exitValue : Keeps Thread.exitValue k k'
  dead : ∀ t, (k'.threads t).state.ko = true → (k.threads t).state.ko = true

section Passes
variable {k k' k'' : Machine} {E : Queue → List ℕ} {t now next : ℕ}

theorem Passes.trans (h : Passes k k') (h' : Passes k' k'') : Passes k k'' :=
  ⟨h'.queues, h'.noSigkill, h'.allocated.trans h.allocated, h'.timers.trans h.timers, h.pid.trans h'.pid,
    h.exitValue.trans h'.exitValue, fun t hko => h.dead t (h'.dead t hko)⟩

theorem Passes.quiet (hq : ∃ E, QueueInv k E) (hn : NoSigkill k) (h : Quiet k k')
    (hs : Keeps Thread.signals k k') (ht : k'.kernelTimers = k.kernelTimers)
    (he : Keeps Thread.exitValue k k') : Passes k k' := by
  obtain ⟨E, hq⟩ := hq
  refine ⟨⟨E, hq.quiet h⟩, hn.keeps h.allocated hs, h.allocated, ?_, h.pid, he, fun t hko => ?_⟩
  · rw [ht]
  · rwa [h.state] at hko

theorem Passes.modify (hq : ∃ E, QueueInv k E) (hn : NoSigkill k) (t : ℕ) {g : Thread → Thread}
    (hs : ∀ p, (g p).state = p.state) (hp : ∀ p, (g p).pid = p.pid) (hg : ∀ p, (g p).signals = p.signals)
    (he : ∀ p, (g p).exitValue = p.exitValue) : Passes k (k.modify t g) :=
  .quiet hq hn (Quiet.modify k t g hs hp) (Keeps.modify k t hg) rfl (Keeps.modify k t he)

theorem Passes.moves {ok : Move → Prop} (hq : ∃ E, QueueInv k E) (hn : NoSigkill k') (hm : Moves ok k k')
    (hok : ∀ m, ok m → ∀ t, ¬ Spares t m → (k.threads t).state.ko = true)
    (ht : List.Sublist k'.kernelTimers k.kernelTimers) (he : Keeps Thread.exitValue k k') :
    Passes k k' := by
  obtain ⟨E, hq⟩ := hq
  obtain ⟨E', hq', -⟩ := hq.moves hm
  exact ⟨⟨E', hq'⟩, hn, hm.allocated, ht, hm.pid, he, fun t hko => moves_dead hok hm hko⟩

theorem Passes.signals (hq : ∃ E, QueueInv k E) (hn : NoSigkill k) (ht : t ∈ k.allocated) :
    Passes k (handleSignals t k).2 := by
  have hzero : t ≠ 0 := by
    obtain ⟨E, hq⟩ := hq
    exact (hq.addresses t ht).1
  have hn' : NoSigkill (handleSignals t k).2 := by
    obtain ⟨_, _, -, -, -, -, hn', -⟩ := handleSignals_noSigkill ht hzero hn
    exact hn'
  have hkeep : Keeps Thread.exitValue k (handleSignals t k).2 :=
    Keeps.handleSignals (fun _ _ => rfl) (fun _ _ => rfl) (fun _ _ => rfl) (fun _ _ => rfl) ht hzero hn
  obtain ⟨k₁, hbury, hend⟩ := handleSignals_spec ht hzero hn
  have hburials : Moves (fun m => BuriesOf t k m ∨ m = .sleep t) k k₁ := hbury.mono fun m hm => .inl hm
  have hmoves : Moves (fun m => BuriesOf t k m ∨ m = .sleep t) k (handleSignals t k).2 := by
    rcases hend with hquiet | ⟨hquiet, -⟩
    · exact hburials.then_quiet hquiet
    · have ht₁ : t ∈ k₁.allocated := hbury.allocated.symm ▸ ht
      have hsleep := (sleepThread_moves ht₁).mono fun m hm =>
        (Or.inr hm : BuriesOf t k m ∨ m = .sleep t)
      exact (hburials.trans hsleep).then_quiet hquiet
  refine .moves hq hn' hmoves ?_ ?_ hkeep
  · rintro m (⟨c, -, hstopped, rfl⟩ | rfl) u hspare
    · obtain rfl : c = u := not_not.mp hspare
      rw [hstopped]
      rfl
    · exact absurd trivial hspare
  · rw [handleSignals_timers ht hzero hn]

theorem Passes.sleep (hq : ∃ E, QueueInv k E) (hn : NoSigkill k) (ht : t ∈ k.allocated) :
    Passes k (sleepThread t k) := by
  refine .moves hq (hn.keeps (Frame.sleepThread k t).allocated
    (Keeps.sleepThread (fun _ _ => rfl) k t)) (sleepThread_moves ht) ?_ ?_
    (Keeps.sleepThread (fun _ _ => rfl) k t)
  · rintro m rfl u hspare
    exact absurd trivial hspare
  · rw [sleepThread_timers]

theorem Passes.wake (hq : ∃ E, QueueInv k E) (hn : NoSigkill k) (ht : t ∈ k.allocated) :
    Passes k (wakeUpThread t k) := by
  have hkeep : ∀ {α : Type} (g : Thread → α), (∀ p s, g { p with state := s } = g p) →
      Keeps g k (wakeUpThread t k) := fun g hg => Keeps.setState hg k t .runnable
  refine .moves hq (hn.keeps rfl (hkeep Thread.signals fun _ _ => rfl)) (wakeUpThread_moves ht) ?_
    (List.Sublist.refl _) (hkeep Thread.exitValue fun _ _ => rfl)
  rintro m rfl u hspare
  exact absurd (fun _ => rfl) hspare

theorem Passes.awoken (hq : ∃ E, QueueInv k E) (hn : NoSigkill k) (pid : ℕ) :
    Passes k (childAwoken pid k) := by
  cases hget : getThread pid k with
  | none =>
    have hnone : childAwoken pid k = k := by
      unfold childAwoken
      rw [hget]
    rw [hnone]
    exact .quiet hq hn (Quiet.refl k) (Keeps.refl k) rfl (Keeps.refl k)
  | some u =>
    have hdeliver := Quiet.deliver k u sigcko
    have hu : u ∈ k.allocated := by
      obtain ⟨E, hq⟩ := hq
      rw [← hq.procs]
      exact getThread_mem hget
    have hmoves : Moves (· = .wake u (k.threads u).state) k
        ((Move.wake u (k.threads u).state).play (k.deliver u sigcko)) :=
      (Moves.quiet hdeliver).trans (Moves.single (m := .wake u (k.threads u).state) rfl hu)
    have hexit : Keeps Thread.exitValue k ((Move.wake u (k.threads u).state).play (k.deliver u sigcko)) :=
      (Keeps.deliver (fun _ _ => rfl) k u sigcko).trans
        (Keeps.setState (fun _ _ => rfl) (k.deliver u sigcko) u _)
    rw [childAwoken_some hget]
    refine .moves hq ((hn.deliver u).keeps rfl ?_) hmoves ?_ (List.Sublist.refl _) hexit
    · exact Keeps.setState (fun _ _ => rfl) (k.deliver u sigcko) u _
    · rintro m rfl c hspare
      by_contra hko
      refine hspare ?_
      rintro rfl
      exact (Bool.not_eq_true _).mp hko

theorem Passes.timersRun (hq : ∃ E, QueueInv k E) (hn : NoSigkill k)
    (ht : ∀ a ∈ k.kernelTimers, a.thread ∈ k.allocated) : Passes k (timersRun k) := by
  refine .moves hq ?_ (timersRun_moves ht) ?_ ?_ (keeps_timersRun (fun _ _ => rfl) k)
  · exact hn.keeps (Frame.timersRun k).allocated (keeps_timersRun (fun _ _ => rfl) k)
  · rintro m ⟨a, -, -, rfl⟩ u hspare
    exact absurd (fun _ => rfl) hspare
  · rw [timersRun_timers]
    exact List.filter_sublist

theorem Passes.billed (hq : ∃ E, QueueInv k E) (hn : NoSigkill k) (h : Billed k k')
    (he : Keeps Thread.exitValue k k') : Passes k k' :=
  .quiet hq hn h.accounting.quiet h.accounting.signals h.kernelTimers he

theorem Passes.pick (hq : ∃ E, QueueInv k E) (hn : NoSigkill k) (h : pickNextThread k = .ok next k') :
    Passes k k' := by
  refine .billed hq hn (.pick h) ?_
  obtain ⟨-, slice, rfl⟩ := pickNextThread_ok h
  exact Keeps.modify k next fun _ => rfl

theorem Passes.chargeReschedule (hq : ∃ E, QueueInv k E) (hn : NoSigkill k) (now next : ℕ) :
    Passes k (chargeReschedule now next k) := by
  refine .billed hq hn (.chargeReschedule now next k) ?_
  unfold Kernel.chargeReschedule
  dsimp only
  split
  · refine Keeps.trans (Keeps.modify k next ?_) (Keeps.modify _ k.currentThread ?_)
    · exact fun _ => rfl
    · exact fun _ => rfl
  · exact Keeps.modify k next fun _ => rfl

theorem Passes.chargeSwitch (hq : ∃ E, QueueInv k E) (hn : NoSigkill k) (now next : ℕ) :
    Passes k (chargeSwitch now next k) := by
  refine .billed hq hn (.chargeSwitch now next k) ?_
  unfold Kernel.chargeSwitch
  dsimp only
  split
  · refine Keeps.trans (Keeps.modify k next ?_) (Keeps.modify _ k.currentThread ?_)
    · exact fun _ => rfl
    · exact fun _ => rfl
  · exact Keeps.modify k next fun _ => rfl

theorem Passes.switch (hq : ∃ E, QueueInv k E) (hn : NoSigkill k) (next : ℕ) :
    Passes k (switchToThread next k) :=
  .quiet hq hn (switchToThread_accounting next k).quiet (Keeps.refl k) rfl (Keeps.refl k)

theorem reschedule_passes {switched : Bool} (hq : ∃ E, QueueInv k E) (hn : NoSigkill k)
    (hcur : k.currentThread ∈ k.allocated) (h : reschedule now k = .ok switched k') :
    Passes k k' ∧ k'.currentThread ∈ k.allocated ∧
      (switched = false → k'.currentThread = k.currentThread) := by
  obtain ⟨next, k₁, hpick, -, hk'⟩ := reschedule_ok h
  have hnext : next ∈ k.allocated := by
    obtain ⟨E, hq⟩ := hq
    exact hq.unreaped .running next (pickNextThread_mem hq hpick)
  have h₁ := Passes.pick hq hn hpick
  have h₂ := h₁.trans (.chargeReschedule h₁.queues h₁.noSigkill now next)
  have h₃ := h₂.trans (.signals h₂.queues h₂.noSigkill (h₂.allocated.symm ▸ hnext))
  have hsame : (handleSignals next (Kernel.chargeReschedule now next k₁)).2.currentThread =
      k.currentThread := (Frame.handleSignals _ next).currentThread.trans
    ((Frame.chargeReschedule now next k₁).currentThread.trans (Frame.pickNextThread hpick).currentThread)
  cases switched with
  | true =>
    rw [hk', if_pos rfl]
    exact ⟨h₃.trans (.switch h₃.queues h₃.noSigkill next), hnext, fun e => nomatch e⟩
  | false =>
    rw [hk', if_neg Bool.false_ne_true, hsame]
    exact ⟨h₃, hcur, fun _ => rfl⟩

theorem Passes.noResched (hq : ∃ E, QueueInv k E) (hn : NoSigkill k)
    (hcur : k.currentThread ∈ k.allocated) (now : ℕ) : Passes k (noResched now k) := by
  unfold Kernel.noResched
  dsimp only
  have hmark : ∀ k₁, Passes k k₁ → k₁.currentThread = k.currentThread → Passes k
      (handleSignals k₁.currentThread (k₁.modify k₁.currentThread fun p => { p with
        lastActivation := now, timeslice := p.timeslice - 1 })).2 := by
    intro k₁ h₁ hsame
    have h₂ : Passes k (k₁.modify k₁.currentThread fun p => { p with
        lastActivation := now, timeslice := p.timeslice - 1 }) :=
      h₁.trans (.modify h₁.queues h₁.noSigkill _ (fun _ => rfl) (fun _ => rfl) (fun _ => rfl) fun _ => rfl)
    refine h₂.trans (.signals h₂.queues h₂.noSigkill ?_)
    rw [h₂.allocated, hsame]
    exact hcur
  split
  · refine hmark _ (.modify hq hn k.currentThread ?_ ?_ ?_ ?_) ?_
    · exact fun _ => rfl
    · exact fun _ => rfl
    · exact fun _ => rfl
    · exact fun _ => rfl
    · rfl
  · exact hmark k (.quiet hq hn (Quiet.refl k) (Keeps.refl k) rfl (Keeps.refl k)) rfl

theorem schedulerHandler_passes {next : Option ℕ} (hq : ∃ E, QueueInv k E) (hn : NoSigkill k)
    (hcur : k.currentThread ∈ k.allocated) (ht : ∀ a ∈ k.kernelTimers, a.thread ∈ k.allocated)
    (h : schedulerHandler now k = .ok next k') : Passes k k' ∧ k'.currentThread ∈ k.allocated ∧
      (next = none → k'.currentThread = k.currentThread) := by
  have h₁ := Passes.timersRun hq hn ht
  have hcur₁ := (Frame.timersRun k).currentThread
  have hstay : ∀ k₂, Passes k k₂ → k₂.currentThread = k.currentThread →
      Passes k (Kernel.noResched now k₂) ∧ (Kernel.noResched now k₂).currentThread = k.currentThread := by
    intro k₂ h₂ hcur₂
    refine ⟨h₂.trans (.noResched h₂.queues h₂.noSigkill ?_ now), ?_⟩
    · rw [hcur₂, h₂.allocated]
      exact hcur
    · exact (Frame.noResched now k₂).currentThread.trans hcur₂
  rcases schedulerHandler_ok h with ⟨rfl, rfl | ⟨k₁, hpick, rfl⟩⟩ | ⟨nextThread, k₁, rfl, hpick, rfl⟩
  · obtain ⟨hp, hsame⟩ := hstay _ h₁ hcur₁
    exact ⟨hp, hsame ▸ hcur, fun _ => hsame⟩
  · have h₂ := h₁.trans (.pick h₁.queues h₁.noSigkill hpick)
    obtain ⟨hp, hsame⟩ := hstay k₁ h₂ ((Frame.pickNextThread hpick).currentThread.trans hcur₁)
    exact ⟨hp, hsame ▸ hcur, fun _ => hsame⟩
  · have hnext : nextThread ∈ k.allocated := by
      obtain ⟨E₁, hq₁⟩ := h₁.queues
      exact h₁.allocated ▸ hq₁.unreaped .running nextThread (pickNextThread_mem hq₁ hpick)
    have h₂ := h₁.trans (.pick h₁.queues h₁.noSigkill hpick)
    have h₃ := h₂.trans (.chargeSwitch h₂.queues h₂.noSigkill now nextThread)
    exact ⟨h₃.trans (.switch h₃.queues h₃.noSigkill nextThread), hnext, fun e => nomatch e⟩

end Passes

def CallPc.exitCode : CallPc → Option ℕ
  | .exitAwake retCode | .exitStore retCode | .exitResched retCode | .exited retCode => some retCode
  | _ => none

def CallPc.storing : CallPc → Bool
  | .exitAwake _ | .exitStore _ => true
  | _ => false

def Phase.done : Phase → Bool
  | .check [] | .clear | .bury _ | .wake | .read => true
  | _ => false

/-- Nobody is in a call, and the thread `c` is alive; every timer belongs to a living thread, which has no
other. -/
structure ExitStart (f c : ℕ) (s : CallRun) : Prop where
  queues : ∃ E, QueueInv s.k E
  running : s.k.currentThread ∈ s.k.allocated
  noSigkill : NoSigkill s.k
  pids : ∀ t ∈ s.k.allocated, ∀ u ∈ s.k.allocated, (s.k.threads t).pid = (s.k.threads u).pid → t = u
  timers : ∀ a ∈ s.k.kernelTimers, a.thread ∈ s.k.allocated ∧ (s.k.threads a.thread).state.ko = false
  single : ∀ t, timersOf s.k t ≤ 1
  outside : ∀ t, s.pc t = .outside
  ne : f ≠ c
  alive : (s.k.threads c).state.ko = false

/-- The exterminator is a thread of its own, so the one that runs is no zombie. -/
def ExterminatorRuns (s : CallRun) : CallEvent → Prop
  | .exterminate => (s.k.threads s.k.currentThread).state ≠ .zombie
  | _ => True

/-- The timer interrupt does not switch away from `c` between `stop_thread` and the store of its exit value;
`f` calls `sys_wait4` for `c` before `c` is reaped; a call of `sys_wait4` that `reschedule` returns to has a
dead thread; and `c` is not reaped while `f` is in its call. -/
structure ReadsInTime (f c : ℕ) (s : CallRun) (ev : CallEvent) : Prop where
  stays : ∀ now, ev = .tick now → (s.pc c).storing = true →
    ∀ next k, schedulerHandler now s.k = .ok next k → next = none
  finds : ∀ pid, ev = .wait4 pid → s.k.currentThread = f → pid = (s.k.threads c).pid → c ∈ s.k.allocated
  waits : ∀ now, ev = .step now → ∀ pid p, s.pc s.k.currentThread = .wait (.child pid p) .away →
    (s.k.threads p).state.ko = true
  keeps : ev = .exterminate → (s.k.threads c).state = .zombie → OnQueue s.k .stopped c →
    ∀ pid ph, s.pc f ≠ .wait (.child pid c) ph

structure Ended (c : ℕ) (s : CallRun) (p : ℕ) : Prop where
  untimed : ∀ a ∈ s.k.kernelTimers, a.thread ≠ p
  exit : p = c → ∃ retCode, (s.pc c).exitCode = some retCode

structure WaitFits (f c : ℕ) (s : CallRun) (t pid p : ℕ) (ph : Phase) : Prop where
  named : (s.k.threads p).pid = pid
  rest : ∀ x ∈ ph.rest, x = p
  ended : ph.done = true → Ended c s p
  held : t = f → pid = (s.k.threads c).pid → p = c ∧ c ∈ s.k.allocated

structure MachineOk (k : Machine) : Prop where
  queues : ∃ E, QueueInv k E
  noSigkill : NoSigkill k
  running : k.currentThread ∈ k.allocated
  pids : ∀ t ∈ k.allocated, ∀ u ∈ k.allocated, (k.threads t).pid = (k.threads u).pid → t = u
  timers : ∀ a ∈ k.kernelTimers, a.thread ∈ k.allocated
  single : ∀ t, timersOf k t ≤ 1

structure CodeInv (f c : ℕ) (s : CallRun) : Prop where
  machine : MachineOk s.k
  ne : f ≠ c
  dead : ∀ t, (s.k.threads t).state.ko = true → Ended c s t
  waits : ∀ t pid p ph, s.pc t = .wait (.child pid p) ph → WaitFits f c s t pid p ph
  storing : (s.pc c).storing = true → s.k.currentThread = c
  stored : ∀ retCode, (s.pc c).exitCode = some retCode → (s.pc c).storing = false →
    (s.k.threads c).exitValue = retCode
  returned : ∀ pid value, s.pc f = .returned pid value → pid = (s.k.threads c).pid →
    (s.pc c).exitCode = some value

section Calls
variable {f c t p pid now : ℕ} {s s' : CallRun} {k k' : Machine} {ph : Phase} {pc : CallPc}

theorem MachineOk.passes (h : MachineOk k) (hp : Passes k k') (hcur : k'.currentThread ∈ k.allocated) :
    MachineOk k' := by
  refine ⟨hp.queues, hp.noSigkill, ?_, ?_, fun a ha => ?_, fun t => ?_⟩
  · rw [hp.allocated]
    exact hcur
  · intro t ht u hu hpid
    rw [hp.allocated] at ht hu
    rw [hp.pid t, hp.pid u] at hpid
    exact h.pids t ht u hu hpid
  · rw [hp.allocated]
    exact h.timers a (hp.timers.subset ha)
  · exact (hp.timers.countP_le).trans (h.single t)

theorem Ended.follow (h : Ended c s p) (ht : s'.k.kernelTimers ⊆ s.k.kernelTimers)
    (hcode : ∀ retCode, (s.pc c).exitCode = some retCode → (s'.pc c).exitCode = some retCode) :
    Ended c s' p := by
  refine ⟨fun a ha => h.untimed a (ht ha), fun e => ?_⟩
  obtain ⟨retCode, hr⟩ := h.exit e
  exact ⟨retCode, hcode retCode hr⟩

theorem WaitFits.follow (h : WaitFits f c s t pid p ph) (hpid : Keeps Thread.pid s.k s'.k)
    (ha : c ∈ s.k.allocated → s.pc f = .wait (.child pid c) ph → c ∈ s'.k.allocated)
    (hpc : t = f → s.pc f = .wait (.child pid p) ph)
    (ht : s'.k.kernelTimers ⊆ s.k.kernelTimers)
    (hcode : ∀ retCode, (s.pc c).exitCode = some retCode → (s'.pc c).exitCode = some retCode) :
    WaitFits f c s' t pid p ph := by
  refine ⟨?_, h.rest, fun hd => (h.ended hd).follow ht hcode, fun e hc => ?_⟩
  · rw [hpid p]
    exact h.named
  · rw [hpid c] at hc
    obtain ⟨rfl, hmem⟩ := h.held e hc
    exact ⟨rfl, ha hmem (hpc e)⟩

theorem CodeInv.follow (h : CodeInv f c s) (hm : MachineOk s'.k) (hpid : Keeps Thread.pid s.k s'.k)
    (ha : s'.k.allocated = s.k.allocated) (ht : s'.k.kernelTimers ⊆ s.k.kernelTimers)
    (hpc : ∀ t, t ≠ s.k.currentThread → s'.pc t = s.pc t)
    (hcode : ∀ retCode, (s.pc c).exitCode = some retCode → (s'.pc c).exitCode = some retCode)
    (hdead : ∀ t, (s'.k.threads t).state.ko = true → (s.k.threads t).state.ko = true ∨ Ended c s' t)
    (hstoring : (s'.pc c).storing = true → s'.k.currentThread = c)
    (hstored : ∀ retCode, (s'.pc c).exitCode = some retCode → (s'.pc c).storing = false →
      (s'.k.threads c).exitValue = retCode)
    (hwait : ∀ pid p ph, s'.pc s.k.currentThread = .wait (.child pid p) ph →
      WaitFits f c s' s.k.currentThread pid p ph)
    (hret : s.k.currentThread = f → ∀ pid value, s'.pc f = .returned pid value →
      pid = (s.k.threads c).pid → (s.pc c).exitCode = some value) : CodeInv f c s' := by
  refine ⟨hm, h.ne, fun t hko => ?_, fun t pid p ph htw => ?_, hstoring, hstored, fun pid value hr he => ?_⟩
  · rcases hdead t hko with hold | hended
    · exact (h.dead t hold).follow ht hcode
    · exact hended
  · by_cases hcur : t = s.k.currentThread
    · subst hcur
      exact hwait pid p ph htw
    · have hold : s.pc t = .wait (.child pid p) ph := (hpc t hcur).symm.trans htw
      refine (h.waits t pid p ph hold).follow hpid (fun hc _ => ha ▸ hc) ?_ ht hcode
      rintro rfl
      exact hold
  · rw [hpid c] at he
    by_cases hcur : s.k.currentThread = f
    · exact hcode value (hret hcur pid value hr he)
    · rw [hpc f (Ne.symm hcur)] at hr
      exact hcode value (h.returned pid value hr he)

theorem CodeInv.goTo (h : CodeInv f c s) (hp : Passes s.k k) (hmem : k.currentThread ∈ s.k.allocated)
    (hstays : (s.pc c).storing = true → k.currentThread = c)
    (hcode : s.k.currentThread = c → pc.exitCode = (s.pc c).exitCode ∧ pc.storing = (s.pc c).storing)
    (hwait : ∀ pid p ph, pc = .wait (.child pid p) ph →
      WaitFits f c (s.goTo s.k.currentThread k pc) s.k.currentThread pid p ph)
    (hret : s.k.currentThread = f → ∀ pid value, pc = .returned pid value →
      pid = (s.k.threads c).pid → (s.pc c).exitCode = some value) :
    CodeInv f c (s.goTo s.k.currentThread k pc) := by
  have hsame : ((s.goTo s.k.currentThread k pc).pc c).exitCode = (s.pc c).exitCode ∧
      ((s.goTo s.k.currentThread k pc).pc c).storing = (s.pc c).storing := by
    by_cases hc : s.k.currentThread = c
    · have hself : (s.goTo s.k.currentThread k pc).pc c = pc := hc ▸ callGoTo_self pc
      rw [hself]
      exact hcode hc
    · rw [callGoTo_of_ne (Ne.symm hc)]
      exact ⟨rfl, rfl⟩
  refine h.follow (h.machine.passes hp hmem) hp.pid hp.allocated hp.timers.subset
    (fun t ht => callGoTo_of_ne ht pc) (fun retCode hr => hsame.1.trans hr) (fun t hko => .inl (hp.dead t hko))
    (fun hs => hstays (hsame.2.symm.trans hs)) (fun retCode hr hs => ?_) (fun pid p ph hw => ?_)
    fun hcur pid value hr => ?_
  · refine (hp.exitValue c).trans (h.stored retCode (hsame.1.symm.trans hr) (hsame.2.symm.trans hs))
  · exact hwait pid p ph ((callGoTo_self pc).symm.trans hw)
  · subst hcur
    exact hret rfl pid value ((callGoTo_self pc).symm.trans hr)

theorem CodeInv.passes (h : CodeInv f c s) (hp : Passes s.k k) (hmem : k.currentThread ∈ s.k.allocated)
    (hstays : (s.pc c).storing = true → k.currentThread = c) : CodeInv f c ⟨k, s.pc⟩ := by
  refine h.follow (h.machine.passes hp hmem) hp.pid hp.allocated hp.timers.subset (fun _ _ => rfl)
    (fun _ hr => hr) (fun t hko => .inl (hp.dead t hko)) hstays (fun retCode hr hs => ?_)
    (fun pid p ph hw => ?_) fun _ pid value => h.returned pid value
  · exact (hp.exitValue c).trans (h.stored retCode hr hs)
  · refine (h.waits _ pid p ph hw).follow hp.pid (fun hc _ => hp.allocated.symm ▸ hc) ?_ hp.timers.subset
      fun _ hr => hr
    intro hcur
    rw [← hcur]
    exact hw

theorem MachineOk.stop (h : MachineOk k) (hp : (k.threads k.currentThread).pid ≠ idlePid) :
    MachineOk (dropTimer k.currentThread (stopThread k.currentThread k)) ∧
      Keeps Thread.pid k (dropTimer k.currentThread (stopThread k.currentThread k)) ∧
      Keeps Thread.exitValue k (dropTimer k.currentThread (stopThread k.currentThread k)) := by
  have hkeep : ∀ {α : Type} (g : Thread → α), (∀ p s, g { p with state := s } = g p) →
      Keeps g k (dropTimer k.currentThread (stopThread k.currentThread k)) := by
    intro α g hg
    unfold stopThread
    rw [if_neg hp]
    exact Keeps.setState hg k k.currentThread .stopped
  have hf := (Frame.stopThread k k.currentThread).trans (Frame.dropTimer _ k.currentThread)
  have hsub : List.Sublist (dropTimer k.currentThread (stopThread k.currentThread k)).kernelTimers
      k.kernelTimers := by
    unfold stopThread
    rw [if_neg hp]
    exact List.eraseP_sublist
  obtain ⟨E, hq⟩ := h.queues
  obtain ⟨E', hq', -⟩ := hq.moves (stopThread_moves h.running)
  have hpid := hkeep Thread.pid fun _ _ => rfl
  refine ⟨⟨⟨E', hq'.quiet (Quiet.dropTimer _ _)⟩, h.noSigkill.keeps hf.allocated
    (hkeep Thread.signals fun _ _ => rfl), ?_, ?_, fun a ha => ?_, fun t => ?_⟩, hpid,
    hkeep Thread.exitValue fun _ _ => rfl⟩
  · rw [hf.currentThread, hf.allocated]
    exact h.running
  · intro t ht u hu he
    rw [hf.allocated] at ht hu
    rw [hpid t, hpid u] at he
    exact h.pids t ht u hu he
  · rw [hf.allocated]
    exact h.timers a (hsub.subset ha)
  · exact hsub.countP_le.trans (h.single t)

theorem MachineOk.untimed (h : MachineOk k) (hp : (k.threads k.currentThread).pid ≠ idlePid) :
    ∀ a ∈ (dropTimer k.currentThread (stopThread k.currentThread k)).kernelTimers,
      a.thread ≠ k.currentThread := by
  have htimers : (dropTimer k.currentThread (stopThread k.currentThread k)).kernelTimers =
      k.kernelTimers.eraseP fun a => (k.threads a.thread).pid == (k.threads k.currentThread).pid := by
    unfold stopThread
    rw [if_neg hp]
    show k.kernelTimers.eraseP (fun a => ((k.setState k.currentThread .stopped).threads a.thread).pid ==
      ((k.setState k.currentThread .stopped).threads k.currentThread).pid) = _
    simp only [pid_setState]
  intro b hb hbt
  rw [htimers] at hb
  have hbl : b ∈ k.kernelTimers := List.mem_of_mem_eraseP hb
  obtain ⟨a, l₁, l₂, -, hpa, hl, herase⟩ := List.exists_of_eraseP (p := fun a =>
    (k.threads a.thread).pid == (k.threads k.currentThread).pid) hbl (beq_iff_eq.mpr (by rw [hbt]))
  -- the timer that is freed belongs to the same thread
  have hal : a ∈ k.kernelTimers := hl ▸ List.mem_append_right _ (List.mem_cons_self ..)
  have hat : a.thread = k.currentThread :=
    h.pids _ (h.timers a hal) _ h.running (beq_iff_eq.mp hpa)
  have hone := h.single k.currentThread
  unfold timersOf at hone
  rw [hl, List.countP_append, List.countP_cons, if_pos (beq_iff_eq.mpr hat)] at hone
  rw [herase] at hb
  have hpos : 0 < (l₁ ++ l₂).countP fun c => c.thread == k.currentThread :=
    List.countP_pos_iff.mpr ⟨b, hb, beq_iff_eq.mpr hbt⟩
  rw [List.countP_append] at hpos
  omega

theorem exitCode_free {pc : CallPc} (h : pc.free = true) : pc.exitCode = none ∧ pc.storing = false := by
  cases pc with
  | outside => exact ⟨rfl, rfl⟩
  | returned pid value => exact ⟨rfl, rfl⟩
  | exitAwake retCode => cases h
  | exitStore retCode => cases h
  | exitResched retCode => cases h
  | exited retCode => cases h
  | wait w ph => cases h

theorem CodeInv.exit {retCode : ℕ} (h : CodeInv f c s) (hfree : (s.pc s.k.currentThread).free = true) :
    CodeInv f c (s.exit retCode) := by
  have hcode : s.k.currentThread = c → ∀ r, (s.pc c).exitCode ≠ some r := by
    intro hc r hr
    rw [← hc, (exitCode_free hfree).1] at hr
    cases hr
  have hother : ∀ {k pc}, s.k.currentThread ≠ c → (s.goTo s.k.currentThread k pc).pc c = s.pc c :=
    fun hc => callGoTo_of_ne (Ne.symm hc) _
  have hkept : ∀ {k pc} r, (s.pc c).exitCode = some r →
      ((s.goTo s.k.currentThread k pc).pc c).exitCode = some r := by
    intro k pc r hr
    rw [hother fun hc => hcode hc r hr]
    exact hr
  unfold CallRun.exit
  dsimp only
  split
  · next hp =>
    -- the idle thread is not killed
    refine h.follow h.machine (Keeps.refl _) rfl (List.Subset.refl _) (fun t ht => callGoTo_of_ne ht _)
      hkept (fun _ hko => .inl hko) (fun hs => ?_) (fun r hr hs => ?_) (fun pid p ph hw => ?_)
      fun hcur pid value hr => ?_
    · by_contra hc
      rw [hother hc] at hs
      exact hc (h.storing hs)
    · by_cases hc : s.k.currentThread = c
      · subst hc
        rw [callGoTo_self] at hs
        cases hs
      · rw [hother hc] at hr hs
        exact h.stored r hr hs
    · rw [callGoTo_self] at hw
      cases hw
    · rw [← hcur, callGoTo_self] at hr
      cases hr
  · next hp =>
    obtain ⟨hm, hpid, hexit⟩ := h.machine.stop hp
    have hf := (Frame.stopThread s.k s.k.currentThread).trans (Frame.dropTimer _ s.k.currentThread)
    refine h.follow hm hpid hf.allocated hf.kernelTimers (fun t ht => callGoTo_of_ne ht _)
      hkept (fun t hko => ?_) (fun hs => ?_) (fun r hr hs => ?_) (fun pid p ph hw => ?_)
      fun hcur pid value hr => ?_
    · by_cases ht : t = s.k.currentThread
      · subst ht
        refine .inr ⟨h.machine.untimed hp, fun hc => ⟨retCode, ?_⟩⟩
        rw [← hc, callGoTo_self]
        rfl
      · left
        have hstate : ((dropTimer s.k.currentThread (stopThread s.k.currentThread s.k)).threads t).state =
            (s.k.threads t).state := by
          unfold stopThread
          rw [if_neg hp]
          exact (state_setState s.k s.k.currentThread t .stopped).trans (if_neg ht)
        rwa [callGoTo_k, hstate] at hko
    · by_cases hc : s.k.currentThread = c
      · exact hf.currentThread.trans hc
      · rw [hother hc] at hs
        exact absurd (h.storing hs) hc
    · by_cases hc : s.k.currentThread = c
      · subst hc
        rw [callGoTo_self] at hs
        cases hs
      · rw [hother hc] at hr hs
        exact (hexit c).trans (h.stored r hr hs)
    · rw [callGoTo_self] at hw
      cases hw
    · rw [← hcur, callGoTo_self] at hr
      cases hr

theorem CodeInv.store {retCode : ℕ} (h : CodeInv f c s)
    (hpc : s.pc s.k.currentThread = .exitStore retCode) : CodeInv f c (s.goTo s.k.currentThread
      (s.k.modify s.k.currentThread fun p => { p with exitValue := retCode }) (.exitResched retCode)) := by
  have hother : s.k.currentThread ≠ c → ∀ k pc, (s.goTo s.k.currentThread k pc).pc c = s.pc c :=
    fun hc k pc => callGoTo_of_ne (Ne.symm hc) _
  have hq := Quiet.modify s.k s.k.currentThread (fun p => { p with exitValue := retCode })
    (fun _ => rfl) fun _ => rfl
  obtain ⟨E, hqueues⟩ := h.machine.queues
  have hkeep : Keeps Thread.signals s.k
      (s.k.modify s.k.currentThread fun p => { p with exitValue := retCode }) :=
    Keeps.modify _ _ fun _ => rfl
  have hm : MachineOk (s.k.modify s.k.currentThread fun p => { p with exitValue := retCode }) := by
    refine ⟨⟨E, hqueues.quiet hq⟩, h.machine.noSigkill.keeps rfl hkeep, h.machine.running, ?_,
      h.machine.timers, h.machine.single⟩
    intro t ht u hu he
    rw [hq.pid, hq.pid] at he
    exact h.machine.pids t ht u hu he
  refine h.follow hm hq.pid rfl (List.Subset.refl _) (fun t ht => callGoTo_of_ne ht _) (fun r hr => ?_)
    (fun t hko => ?_) (fun hs => ?_) (fun r hr hs => ?_) (fun pid p ph hw => ?_) fun hcur pid value hr => ?_
  · by_cases hc : s.k.currentThread = c
    · subst hc
      rw [hpc] at hr
      rw [callGoTo_self]
      exact hr
    · rw [hother hc]
      exact hr
  · rw [callGoTo_k, hq.state] at hko
    exact .inl hko
  · by_contra hc
    rw [hother hc] at hs
    exact hc (h.storing hs)
  -- The value stored is the code that the thread has given to `sys_exit`.
  · by_cases hc : s.k.currentThread = c
    · subst hc
      rw [callGoTo_self] at hr
      rw [callGoTo_k, modify_threads_self]
      exact Option.some.inj hr
    · rw [hother hc] at hr hs
      rw [callGoTo_k, modify_apply, if_neg (Ne.symm hc)]
      exact h.stored r hr hs
  · rw [callGoTo_self] at hw
    cases hw
  · rw [← hcur, callGoTo_self] at hr
    cases hr

theorem CodeInv.waiting {w : Wait} {ph' : Phase} (h : CodeInv f c s) (hp : Passes s.k k)
    (hmem : k.currentThread ∈ s.k.allocated) (hpc : s.pc s.k.currentThread = .wait w ph)
    (hcur : s.k.currentThread ≠ c → (s.pc c).storing = true → k.currentThread = c)
    (hrest : ∀ pid p, w = .child pid p → ∀ x ∈ ph'.rest, x ∈ ph.rest ∨ x = p)
    (hdone : ∀ pid p, w = .child pid p → ph'.done = true → ph.done = true ∨ (s.k.threads p).state.ko = true) :
    CodeInv f c (s.goTo s.k.currentThread k (.wait w ph')) := by
  have hother : ∀ retCode, (s.pc c).exitCode = some retCode →
      ((s.goTo s.k.currentThread k (.wait w ph')).pc c).exitCode = some retCode := by
    intro r hr
    have hc : c ≠ s.k.currentThread := by
      rintro rfl
      rw [hpc] at hr
      cases hr
    rw [callGoTo_of_ne hc]
    exact hr
  refine h.goTo hp hmem (fun hs => hcur ?_ hs) (fun hc => ?_) (fun pid p ph₁ hw => ?_)
    fun _ _ _ e => nomatch e
  · rintro hc
    rw [← hc, hpc] at hs
    cases hs
  · rw [← hc, hpc]
    exact ⟨rfl, rfl⟩
  · obtain ⟨rfl, rfl⟩ := CallPc.wait.inj hw
    have hfits := h.waits _ pid p ph hpc
    refine ⟨(hp.pid p).trans hfits.named, fun x hx => ?_, fun hd => ?_, fun hf he => ?_⟩
    · exact (hrest pid p rfl x hx).elim (hfits.rest x) id
    · rcases hdone pid p rfl hd with hold | hko
      · exact (hfits.ended hold).follow hp.timers.subset hother
      · exact (h.dead p hko).follow hp.timers.subset hother
    · obtain ⟨hpc', hmem'⟩ := hfits.held hf (he.trans (hp.pid c))
      exact ⟨hpc', hp.allocated.symm ▸ hmem'⟩

theorem MachineOk.setState (h : MachineOk k) (t : ℕ) (state : TaskState) :
    MachineOk (k.setState t state) := by
  obtain ⟨E, hq⟩ := h.queues
  refine ⟨⟨E, hq.setState t state⟩, h.noSigkill.keeps rfl (Keeps.setState (fun _ _ => rfl) k t state), h.running,
    fun u hu v hv he => ?_, h.timers, h.single⟩
  rw [pid_setState, pid_setState] at he
  exact h.pids u hu v hv he

theorem CodeInv.bury {rest : List ℕ} (h : CodeInv f c s)
    (hpc : s.pc s.k.currentThread = .wait (.child pid p) (.bury (t :: rest))) :
    CodeInv f c (s.goTo s.k.currentThread (s.k.setState t .zombie)
      (.wait (.child pid p) (.bury rest))) := by
  have hfits := h.waits _ pid p _ hpc
  obtain rfl : t = p := hfits.rest t (List.mem_cons_self ..)
  have hcode : ∀ retCode, (s.pc c).exitCode = some retCode →
      ((s.goTo s.k.currentThread (s.k.setState t .zombie) (.wait (.child pid t) (.bury rest))).pc
        c).exitCode = some retCode := by
    intro r hr
    have hc : c ≠ s.k.currentThread := by
      rintro rfl
      rw [hpc] at hr
      cases hr
    rw [callGoTo_of_ne hc]
    exact hr
  have hended : Ended c (s.goTo s.k.currentThread (s.k.setState t .zombie)
      (.wait (.child pid t) (.bury rest))) t :=
    (hfits.ended rfl).follow (List.Subset.refl _) hcode
  have hpid : Keeps Thread.pid s.k (s.k.setState t .zombie) :=
    Keeps.setState (fun _ _ => rfl) s.k t .zombie
  have hsame : (s.goTo s.k.currentThread (s.k.setState t .zombie)
      (.wait (.child pid t) (.bury rest))).pc c = s.pc c ∨ s.k.currentThread = c := by
    by_cases hc : s.k.currentThread = c
    · exact .inr hc
    · exact .inl (callGoTo_of_ne (Ne.symm hc) _)
  -- Only a thread that has ended changes its state.
  refine h.follow (h.machine.setState t .zombie) hpid rfl (List.Subset.refl _)
    (fun u hu => callGoTo_of_ne hu _) hcode (fun u hko => ?_) (fun hs => ?_) (fun r hr hs => ?_)
    (fun pid' p' ph' hw => ?_) fun hcur pid' value hr => ?_
  · rw [callGoTo_k, state_setState] at hko
    split at hko
    · next hu => exact .inr (hu ▸ hended)
    · exact .inl hko
  · rcases hsame with hc | hc
    · rw [hc] at hs
      exact h.storing hs
    · exact hc
  · rcases hsame with hc | hc
    · rw [hc] at hr hs
      refine Eq.trans ?_ (h.stored r hr hs)
      exact Keeps.setState (f := Thread.exitValue) (fun _ _ => rfl) s.k t .zombie c
    · rw [← hc, callGoTo_self] at hr
      cases hr
  · rw [callGoTo_self] at hw
    obtain ⟨hw₁, rfl⟩ := CallPc.wait.inj hw
    obtain ⟨rfl, rfl⟩ := Wait.child.inj hw₁
    refine ⟨(hpid _).trans hfits.named, fun x hx => ?_, fun _ => hended, fun hf he => ?_⟩
    · exact hfits.rest x (List.mem_cons_of_mem _ hx)
    · exact hfits.held hf (he.trans (hpid c))
  · rw [← hcur, callGoTo_self] at hr
    cases hr

theorem Passes.buryStopped (hq : ∃ E, QueueInv k E) (hn : NoSigkill k) (p1 : ℕ) :
    Passes k (buryStopped k p1) := by
  have hkeep : ∀ {α : Type} (g : Thread → α), (∀ p s, g { p with state := s } = g p) →
      Keeps g k (Kernel.buryStopped k p1) := by
    intro α g hg
    unfold Kernel.buryStopped
    split
    · exact Keeps.setState hg k p1 .zombie
    · exact Keeps.refl k
  have hmoves := buryStopped_moves (k := k) p1
  refine .moves hq (hn.keeps hmoves.allocated (hkeep Thread.signals fun _ _ => rfl)) hmoves ?_ ?_
    (hkeep Thread.exitValue fun _ _ => rfl)
  · rintro m ⟨hs, rfl⟩ u hspare
    obtain rfl : p1 = u := not_not.mp hspare
    rw [hs]
    rfl
  · unfold Kernel.buryStopped
    split
    · exact List.Sublist.refl _
    · exact List.Sublist.refl _

theorem CodeInv.wait4 (h : CodeInv f c s) (hfree : (s.pc s.k.currentThread).free = true)
    (hfinds : s.k.currentThread = f → pid = (s.k.threads c).pid → c ∈ s.k.allocated) :
    CodeInv f c (s.goTo s.k.currentThread s.k (s.find pid)) := by
  have hprocs : s.k.kThreads = s.k.allocated := by
    obtain ⟨E, hq⟩ := h.machine.queues
    exact hq.procs
  have hp : Passes s.k s.k :=
    .quiet h.machine.queues h.machine.noSigkill (Quiet.refl _) (Keeps.refl _) rfl (Keeps.refl _)
  unfold CallRun.find
  cases hget : getThread pid s.k with
  | none =>
    refine h.goTo hp h.machine.running h.storing (fun hc => ?_) (fun _ _ _ e => nomatch e)
      fun hcur pid' value hr he => ?_
    · rw [← hc]
      exact ⟨(exitCode_free hfree).1.symm, (exitCode_free hfree).2.symm⟩
    · -- `get_thread` finds a thread that is not reaped
      obtain ⟨rfl, -⟩ := CallPc.returned.inj hr
      have hmem : c ∈ s.k.kThreads := hprocs.symm ▸ hfinds hcur he
      exact absurd (beq_iff_eq.mpr he.symm) (List.find?_eq_none.mp hget c hmem)
  | some p =>
    refine h.goTo hp h.machine.running h.storing (fun hc => ?_) (fun pid' p' ph hw => ?_)
      fun _ _ _ e => nomatch e
    · rw [← hc]
      exact ⟨(exitCode_free hfree).1.symm, (exitCode_free hfree).2.symm⟩
    · obtain ⟨hw₁, rfl⟩ := CallPc.wait.inj hw
      obtain ⟨rfl, rfl⟩ := Wait.child.inj hw₁
      refine ⟨getThread_pid hget, fun x hx => List.mem_singleton.mp hx, fun hd => (Bool.false_ne_true hd).elim,
        fun hf he => ?_⟩
      have hmem := hfinds hf he
      refine ⟨h.machine.pids p (hprocs ▸ getThread_mem hget) c hmem ?_, hmem⟩
      exact (getThread_pid hget).trans he

theorem foldl_reap_frame (l : List ℕ) (k : Machine) :
    (l.foldl (fun k t => reap t k) k).kernelTimers = k.kernelTimers ∧
      (l.foldl (fun k t => reap t k) k).currentThread = k.currentThread := by
  induction l generalizing k with
  | nil => exact ⟨rfl, rfl⟩
  | cons t l ih => exact ih (reap t k)

theorem CodeInv.exterminate (h : CodeInv f c s) (hrun : ExterminatorRuns s .exterminate)
    (hkeeps : (s.k.threads c).state = .zombie → OnQueue s.k .stopped c →
      ∀ pid ph, s.pc f ≠ .wait (.child pid c) ph)
    (he : exterminate s.k = some k) : CodeInv f c ⟨k, s.pc⟩ := by
  obtain ⟨E, hq⟩ := h.machine.queues
  obtain ⟨hspec, hq'⟩ := exterminate_spec hq
  rw [hspec] at he
  obtain rfl := Option.some.inj he
  have hzombie : ∀ t ∈ doomed s.k E, t ∈ E .stopped ∧ (s.k.threads t).state = .zombie := by
    intro t ht
    obtain ⟨hin, hz⟩ := List.mem_filter.mp ht
    exact ⟨hin, beq_iff_eq.mp hz⟩
  have hkept : ∀ t ∈ s.k.allocated, t ∉ doomed s.k E →
      t ∈ ((doomed s.k E).foldl (fun k t => reap t k) s.k).allocated :=
    fun t ht hd => mem_foldl_reap hd ht
  have hsub := foldl_reap_subset (doomed s.k E) s.k
  obtain ⟨htimers, hcur⟩ := foldl_reap_frame (doomed s.k E) s.k
  have hpid := foldl_reap_keeps (g := Thread.pid) (fun _ _ => rfl) (doomed s.k E) s.k
  have hsignals := foldl_reap_keeps (g := Thread.signals) (fun _ _ => rfl) (doomed s.k E) s.k
  have hexit := foldl_reap_keeps (g := Thread.exitValue) (fun _ _ => rfl) (doomed s.k E) s.k
  have hstate := foldl_reap_keeps (g := Thread.state) (fun _ _ => rfl) (doomed s.k E) s.k
  generalize (doomed s.k E).foldl (fun k t => reap t k) s.k = k' at *
  have hm : MachineOk k' := by
    refine ⟨⟨_, hq'⟩, fun t ht hs => ?_, ?_, ?_, fun a ha => ?_, fun t => ?_⟩
    · unfold SigPending at hs
      rw [hsignals t] at hs
      exact h.machine.noSigkill t (hsub ht) hs
    · rw [hcur]
      exact hkept _ h.machine.running fun hd => hrun (hzombie _ hd).2
    · intro t ht u hu he
      rw [hpid t, hpid u] at he
      exact h.machine.pids t (hsub ht) u (hsub hu) he
    · -- a thread with a timer has not died
      rw [htimers] at ha
      refine hkept _ (h.machine.timers a ha) fun hd => ?_
      have hko : (s.k.threads a.thread).state.ko = true := by
        rw [(hzombie _ hd).2]
        rfl
      exact (h.dead _ hko).untimed a ha rfl
    · unfold timersOf
      rw [htimers]
      exact h.machine.single t
  have hsame : k'.kernelTimers ⊆ s.k.kernelTimers := by
    rw [htimers]
    exact List.Subset.refl _
  refine ⟨hm, h.ne, fun t hko => ?_, fun t pid p ph hw => ?_, fun hs => ?_, fun r hr hs => ?_,
    fun pid value hr he => ?_⟩
  · rw [hstate] at hko
    exact (h.dead t hko).follow hsame fun _ hr => hr
  · refine (h.waits t pid p ph hw).follow hpid (fun hc hf => ?_) ?_ hsame fun _ hr => hr
    · refine hkept c hc fun hd => ?_
      obtain ⟨hin, hz⟩ := hzombie c hd
      exact hkeeps hz ((onQueue_iff hq .stopped).mpr hin) pid ph hf
    · rintro rfl
      exact hw
  · exact hcur.trans (h.storing hs)
  · exact (hexit c).trans (h.stored r hr hs)
  · rw [hpid c] at he
    exact h.returned pid value hr he

theorem CodeInv.resched (h : CodeInv f c s) (hstoring : s.k.currentThread = c → (s.pc c).storing = false)
    {switched : Bool} (he : reschedule now s.k = .ok switched k) :
    Passes s.k k ∧ k.currentThread ∈ s.k.allocated ∧ ((s.pc c).storing = true → k.currentThread = c) := by
  obtain ⟨hp, hmem, -⟩ := reschedule_passes h.machine.queues h.machine.noSigkill h.machine.running he
  refine ⟨hp, hmem, fun hs => ?_⟩
  rw [hstoring (h.storing hs)] at hs
  cases hs

theorem CodeInv.waitNext {w : Wait} (h : CodeInv f c s) (hpc : s.pc s.k.currentThread = .wait w ph)
    (hin : ReadsInTime f c s (.step now)) (hs : waitNext now w ph s = some s') : CodeInv f c s' := by
  have hq := h.machine.queues
  have hn := h.machine.noSigkill
  have hmem := h.machine.running
  have hrefl : Passes s.k s.k := .quiet hq hn (Quiet.refl _) (Keeps.refl _) rfl (Keeps.refl _)
  have hset : Passes s.k (s.k.modify s.k.currentThread w.set) := .modify hq hn _
    (w.set_keeps (fun _ _ => rfl) fun _ _ => rfl) (w.set_keeps (fun _ _ => rfl) fun _ _ => rfl)
    (w.set_keeps (fun _ _ => rfl) fun _ _ => rfl) (w.set_keeps (fun _ _ => rfl) fun _ _ => rfl)
  have hreset : Passes s.k (s.k.modify s.k.currentThread w.reset) := .modify hq hn _
    (w.reset_keeps (fun _ _ => rfl) fun _ _ => rfl) (w.reset_keeps (fun _ _ => rfl) fun _ _ => rfl)
    (w.reset_keeps (fun _ _ => rfl) fun _ _ => rfl) (w.reset_keeps (fun _ _ => rfl) fun _ _ => rfl)
  have hstays : s.k.currentThread ≠ c → (s.pc c).storing = true → s.k.currentThread = c :=
    fun _ => h.storing
  have hnot : s.k.currentThread = c → (s.pc c).storing = false := by
    intro hc
    rw [← hc, hpc]
    rfl
  have hbury : ∀ pid p, w = .child pid p → ∀ x ∈ (Phase.bury (w.awaited s.k.currentThread s.k)).rest,
      x ∈ ph.rest ∨ x = p := by
    rintro pid p rfl x hx
    exact .inr (List.mem_singleton.mp hx)
  cases ph with
  | check rest =>
    cases rest with
    | nil =>
      cases hs
      exact h.waiting hrefl hmem hpc hstays (fun _ _ _ x hx => nomatch hx) fun _ _ _ _ => .inl rfl
    | cons p1 rest =>
      dsimp only [Kernel.waitNext] at hs
      split at hs
      · next hko =>
        cases hs
        refine h.waiting hrefl hmem hpc hstays (fun _ _ _ x hx => .inl (List.mem_cons_of_mem _ hx)) ?_
        rintro pid p rfl -
        obtain rfl : p1 = p := (h.waits _ pid p _ hpc).rest p1 (List.mem_cons_self ..)
        exact .inr hko
      · cases hs
        exact h.waiting hrefl hmem hpc hstays (fun _ _ _ x hx => nomatch hx)
          fun _ _ _ hd => (Bool.false_ne_true hd).elim
  | record =>
    cases hs
    exact h.waiting hset hmem hpc hstays (fun _ _ _ x hx => nomatch hx)
      fun _ _ _ hd => (Bool.false_ne_true hd).elim
  | sleep =>
    cases hs
    have hcur : (sleepThread s.k.currentThread s.k).currentThread = s.k.currentThread :=
      (Frame.sleepThread s.k _).currentThread
    refine h.waiting (.sleep hq hn hmem) (hcur.symm ▸ hmem) hpc (fun hc hs => ?_)
      (fun _ _ _ x hx => nomatch hx) fun _ _ _ hd => (Bool.false_ne_true hd).elim
    exact absurd (h.storing hs) hc
  | resched =>
    obtain ⟨switched, k, hk, rfl⟩ := resched_ok hs
    obtain ⟨hp, hmem', hkeep⟩ := h.resched hnot hk
    cases switched with
    | true =>
      exact h.waiting hp hmem' hpc (fun _ => hkeep) (fun _ _ _ x hx => nomatch hx)
        fun _ _ _ hd => (Bool.false_ne_true hd).elim
    | false => exact h.passes hp hmem' hkeep
  | away =>
    cases hs
    refine h.waiting hreset hmem hpc hstays hbury ?_
    rintro pid p rfl -
    exact .inr (hin.waits now rfl pid p hpc)
  | clear =>
    cases hs
    exact h.waiting hreset hmem hpc hstays hbury fun _ _ _ _ => .inl rfl
  | bury rest =>
    cases rest with
    | nil =>
      cases hs
      cases w with
      | child pid p =>
        exact h.waiting hrefl hmem hpc hstays (fun _ _ _ x hx => nomatch hx) fun _ _ _ _ => .inl rfl
      | all =>
        refine h.goTo hrefl hmem h.storing (fun hc => ?_) (fun _ _ _ e => nomatch e) fun _ _ _ e => nomatch e
        rw [← hc, hpc]
        exact ⟨rfl, rfl⟩
    | cons p1 rest =>
      cases hs
      cases w with
      | child pid p => exact h.bury hpc
      | all =>
        have hcur : (buryStopped s.k p1).currentThread = s.k.currentThread := by
          unfold buryStopped
          split
          · rfl
          · rfl
        refine h.waiting (.buryStopped hq hn p1) ?_ hpc (fun hc hs => absurd (h.storing hs) hc)
          (fun _ _ e => nomatch e) fun _ _ e => nomatch e
        show (buryStopped s.k p1).currentThread ∈ s.k.allocated
        rw [hcur]
        exact hmem
  | wake =>
    cases hs
    exact h.waiting (.wake hq hn hmem) hmem hpc hstays (fun _ _ _ x hx => nomatch hx)
      fun _ _ _ _ => .inl rfl
  | read =>
    cases w with
    | all => cases hs
    | child pid p =>
      cases hs
      have hfits := h.waits _ pid p _ hpc
      refine h.goTo hrefl hmem h.storing (fun hc => ?_) (fun _ _ _ e => nomatch e)
        fun hcur pid' value hr he => ?_
      · rw [← hc, hpc]
        exact ⟨rfl, rfl⟩
      · obtain ⟨rfl, rfl⟩ := CallPc.returned.inj hr
        obtain ⟨rfl, -⟩ := hfits.held hcur he
        obtain ⟨retCode, hcode⟩ := (hfits.ended rfl).exit rfl
        rw [hcode, h.stored retCode hcode]
        -- the thread that exits is not switched away from before it has stored the value
        by_contra hstoring
        exact h.ne (hcur.symm.trans (h.storing ((Bool.not_eq_false _).mp hstoring)))

theorem CodeInv.next (h : CodeInv f c s) (hin : ReadsInTime f c s (.step now))
    (hs : callNext now s = some s') : CodeInv f c s' := by
  have hq := h.machine.queues
  have hn := h.machine.noSigkill
  unfold callNext at hs
  dsimp only at hs
  split at hs
  · cases hs
  · cases hs
  · next retCode hpc =>
    cases hs
    have hcur := (Frame.childAwoken s.k
      (s.k.threads (s.k.threads s.k.currentThread).father).pid).currentThread
    refine h.goTo (.awoken hq hn _) (hcur.symm ▸ h.machine.running) (fun hs => hcur.trans (h.storing hs))
      (fun hc => ?_) (fun _ _ _ e => nomatch e) fun _ _ _ e => nomatch e
    rw [← hc, hpc]
    exact ⟨rfl, rfl⟩
  · next retCode hpc =>
    cases hs
    exact h.store hpc
  · next retCode hpc =>
    have hnot : s.k.currentThread = c → (s.pc c).storing = false := by
      intro hc
      rw [← hc, hpc]
      rfl
    obtain ⟨switched, k, hk, rfl⟩ := resched_ok hs
    obtain ⟨hp, hmem, hkeep⟩ := h.resched hnot hk
    cases switched with
    | true =>
      refine h.goTo hp hmem hkeep (fun hc => ?_) (fun _ _ _ e => nomatch e) fun _ _ _ e => nomatch e
      rw [← hc, hpc]
      exact ⟨rfl, rfl⟩
    | false => exact h.passes hp hmem hkeep
  · cases hs
  · next w ph hpc => exact h.waitNext hpc hin hs

theorem CodeInv.step {ev : CallEvent} (h : CodeInv f c s) (hrun : ExterminatorRuns s ev)
    (hin : ReadsInTime f c s ev) (hs : callStep ev s = some s') : CodeInv f c s' := by
  cases ev with
  | exit retCode =>
    obtain ⟨hfree, hs⟩ := Option.ite_none_right_eq_some.mp hs
    cases hs
    exact h.exit hfree
  | wait4 pid =>
    obtain ⟨hfree, hs⟩ := Option.ite_none_right_eq_some.mp hs
    cases hs
    exact h.wait4 hfree (hin.finds pid rfl)
  | wait4all =>
    obtain ⟨hfree, hs⟩ := Option.ite_none_right_eq_some.mp hs
    cases hs
    refine h.goTo (.quiet h.machine.queues h.machine.noSigkill (Quiet.refl _) (Keeps.refl _) rfl
      (Keeps.refl _)) h.machine.running h.storing (fun hc => ?_) (fun _ _ _ e => nomatch e)
      fun _ _ _ e => nomatch e
    rw [← hc]
    exact ⟨(exitCode_free hfree).1.symm, (exitCode_free hfree).2.symm⟩
  | step now => exact h.next hin hs
  | tick now =>
    obtain ⟨k', hk', rfl⟩ := Option.map_eq_some_iff.mp hs
    obtain ⟨next, hres⟩ := after_eq_some.mp hk'
    obtain ⟨hp, hmem, hcur⟩ := schedulerHandler_passes h.machine.queues h.machine.noSigkill
      h.machine.running h.machine.timers hres
    refine h.passes hp hmem fun hs => ?_
    exact (hcur (hin.stays now rfl hs next k' hres)).trans (h.storing hs)
  | exterminate =>
    obtain ⟨k', hk', rfl⟩ := Option.map_eq_some_iff.mp hs
    exact h.exterminate hrun (hin.keeps rfl) hk'

theorem ExitStart.inv (h : ExitStart f c s) : CodeInv f c s := by
  have hcode : (s.pc c).exitCode = none := by
    rw [h.outside]
    rfl
  have hstoring : (s.pc c).storing = false := by
    rw [h.outside]
    rfl
  refine ⟨⟨h.queues, h.noSigkill, h.running, h.pids, fun a ha => (h.timers a ha).1, h.single⟩, h.ne,
    fun t hko => ⟨fun a ha hat => ?_, fun htc => ?_⟩, fun t pid p ph hw => ?_, fun hs => ?_,
    fun r hr => ?_, fun pid value hr => ?_⟩
  · rw [← hat, (h.timers a ha).2] at hko
    cases hko
  · rw [htc, h.alive] at hko
    cases hko
  · rw [h.outside] at hw
    cases hw
  · rw [hstoring] at hs
    cases hs
  · rw [hcode] at hr
    cases hr
  · rw [h.outside] at hr
    cases hr

/-- In a run that reads in time, the `Thread` of `c` is not freed while `f` is in `sys_wait4` for it, and the
call returns what `c` has given to `sys_exit`. -/
theorem wait4_returns_exit_code (hstart : ExitStart f c s) (hrun : Runs.Steps callStep
    (fun s ev => ExterminatorRuns s ev ∧ ReadsInTime f c s ev) s s') :
    (∀ pid ph, s'.pc f = .wait (.child pid c) ph → c ∈ s'.k.allocated) ∧
    ∀ pid value, s'.pc f = .returned pid value → pid = (s'.k.threads c).pid →
      (s'.pc c).exitCode = some value := by
  have hinv : CodeInv f c s' :=
    hrun.invariant (fun _ _ _ hi hev hs => hi.step hev.1 hev.2 hs) hstart.inv
  refine ⟨fun pid ph hpc => ?_, hinv.returned⟩
  have hfits := hinv.waits f pid c ph hpc
  exact (hfits.held rfl hfits.named.symm).2

end Calls

def readsCheck (f c : ℕ) (s : CallRun) : CallEvent → Bool
  | .tick now => !(s.pc c).storing || ((schedulerHandler now s.k).toOption.all fun r => r.1.isNone)
  | .wait4 pid => decide (s.k.currentThread = f → pid = (s.k.threads c).pid → c ∈ s.k.allocated)
  | .step _ =>
    match s.pc s.k.currentThread with
    | .wait (.child _ p) .away => (s.k.threads p).state.ko
    | _ => true
  | .exterminate => decide ((s.k.threads s.k.currentThread).state ≠ .zombie ∧ (s.k.threads c).state ≠ .zombie)
  | .exit _ | .wait4all => true

theorem readsCheck_spec (f c : ℕ) (s : CallRun) (ev : CallEvent) (h : readsCheck f c s ev = true) :
    ExterminatorRuns s ev ∧ ReadsInTime f c s ev := by
  cases ev with
  | exit retCode =>
    exact ⟨trivial, fun _ e => (nomatch e), fun _ e => (nomatch e), fun _ e => (nomatch e), fun e => nomatch e⟩
  | wait4all =>
    exact ⟨trivial, fun _ e => (nomatch e), fun _ e => (nomatch e), fun _ e => (nomatch e), fun e => nomatch e⟩
  | wait4 pid =>
    refine ⟨trivial, fun _ e => (nomatch e), fun pid' e => ?_, fun _ e => (nomatch e), fun e => nomatch e⟩
    cases e
    exact of_decide_eq_true h
  | step now =>
    refine ⟨trivial, fun _ e => (nomatch e), fun _ e => (nomatch e), fun _ _ pid p hpc => ?_,
      fun e => nomatch e⟩
    unfold readsCheck at h
    rw [hpc] at h
    exact h
  | tick now =>
    refine ⟨trivial, fun now' e hs next k hk => ?_, fun _ e => (nomatch e), fun _ e => (nomatch e),
      fun e => nomatch e⟩
    cases e
    unfold readsCheck at h
    dsimp only at h
    rw [hs, hk] at h
    exact Option.isNone_iff_eq_none.mp h
  | exterminate =>
    obtain ⟨hcur, hc⟩ := of_decide_eq_true h
    exact ⟨hcur, fun _ e => (nomatch e), fun _ e => (nomatch e), fun _ e => (nomatch e),
      fun _ hz => absurd hz hc⟩

theorem callsStart_exits : ExitStart 0x3000 0x4000 callsStart := by
  obtain ⟨E, hok⟩ := fatherTired_ready.ok
  refine ⟨⟨E, hok.queues⟩, ?_, hok.noSigkill, ?_, ?_, fun t => ?_, fun _ => rfl, by decide, ?_⟩
  · decide +kernel
  · decide +kernel
  · decide +kernel
  · have hnone : callsStart.k.kernelTimers = [] := by decide +kernel
    unfold timersOf
    rw [hnone]
    exact Nat.zero_le 1
  · decide +kernel

def codeRead : CallRun :=
  (Runs.runList callStep (readsCheck 0x3000 0x4000) [.wait4 3, .step 0, .step 0, .step 0, .step 200,
    .exit 7, .step 0, .step 0, .step 300, .step 0, .step 0, .step 0, .step 0, .step 0] callsStart).getD
    callsStart

theorem wait4_returns_exit_code_seven : (codeRead.pc 0x4000).exitCode = some 7 := by
  have hrun : Runs.Steps callStep
      (fun s ev => ExterminatorRuns s ev ∧ ReadsInTime 0x3000 0x4000 s ev) callsStart codeRead :=
    Runs.runList_steps (readsCheck_spec 0x3000 0x4000) (Runs.runList_getD (by decide +kernel))
  have hpc : codeRead.pc 0x3000 = .returned 3 7 := by decide +kernel
  exact (wait4_returns_exit_code callsStart_exits hrun).2 3 7 hpc (by decide +kernel)

def childRuns : Machine :=
  (execAll [.sleep 0x3000, .reschedule 150, .wakeUp 0x3000] fatherRuns).getD blankMachine

def childTired : CallRun :=
  ⟨childRuns.modify 0x4000 fun p => { p with timeslice := 0 }, fun _ => .outside⟩

theorem childTired_exits : ExitStart 0x3000 0x4000 childTired := by
  have hreach : ThreadReach anyOp childRuns := fatherRuns_reach.execAll (execAll_getD (by decide +kernel))
  obtain ⟨E, hi⟩ := hreach.idleInv
  have hquiet : Quiet childRuns childTired.k :=
    Quiet.modify childRuns 0x4000 (fun p => { p with timeslice := 0 }) (fun _ => rfl) fun _ => rfl
  refine ⟨⟨E, hi.queues.quiet hquiet⟩, ?_, ?_, ?_, ?_, fun t => ?_, fun _ => rfl, by decide, ?_⟩
  · decide +kernel
  · unfold NoSigkill
    decide +kernel
  · decide +kernel
  · decide +kernel
  · have hnone : childTired.k.kernelTimers = [] := by decide +kernel
    unfold timersOf
    rw [hnone]
    exact Nat.zero_le 1
  · decide +kernel

def exterminatorCheck (s : CallRun) (_ : CallEvent) : Bool :=
  decide ((s.k.threads s.k.currentThread).state ≠ .zombie)

theorem exterminatorCheck_spec (s : CallRun) (ev : CallEvent) (h : exterminatorCheck s ev = true) :
    ExterminatorRuns s ev := by
  cases ev with
  | exterminate => exact of_decide_eq_true (p := (s.k.threads s.k.currentThread).state ≠ .zombie) h
  | _ => trivial

/-- A timer interrupt switches away from the child before it has stored its exit value. -/
def codeMissed : CallRun :=
  (Runs.runList callStep exterminatorCheck [.exit 7, .step 0, .tick 200, .wait4 3, .step 0, .step 0,
    .step 0, .step 0, .step 0, .step 0, .step 0] childTired).getD childTired

/-- The exterminator runs between the end of the child and the read of its exit value. -/
def codeFreed : CallRun :=
  (Runs.runList callStep exterminatorCheck [.wait4 3, .step 0, .step 0, .step 0, .step 200, .exit 7,
    .step 0, .step 0, .step 300, .step 0, .step 0, .exterminate] callsStart).getD callsStart

/-- The call returns 0 for a child that exits with 7, and the value is read from a `Thread` that is freed. -/
theorem exit_code_missed : ExitStart 0x3000 0x4000 childTired ∧
    Runs.Steps callStep ExterminatorRuns childTired codeMissed ∧
    codeMissed.pc 0x3000 = .returned 3 0 ∧ (codeMissed.k.threads 0x4000).pid = 3 ∧
    (codeMissed.pc 0x4000).exitCode = some 7 ∧
    ExitStart 0x3000 0x4000 callsStart ∧ Runs.Steps callStep ExterminatorRuns callsStart codeFreed ∧
    codeFreed.pc 0x3000 = .wait (.child 3 0x4000) (.bury []) ∧ 0x4000 ∉ codeFreed.k.allocated := by
  have hmissed : Runs.Steps callStep ExterminatorRuns childTired codeMissed :=
    Runs.runList_steps exterminatorCheck_spec (Runs.runList_getD (by decide +kernel))
  have hfreed : Runs.Steps callStep ExterminatorRuns callsStart codeFreed :=
    Runs.runList_steps exterminatorCheck_spec (Runs.runList_getD (by decide +kernel))
  exact ⟨childTired_exits, hmissed, by decide +kernel, by decide +kernel, by decide +kernel,
    callsStart_exits, hfreed, by decide +kernel, by decide +kernel⟩

end X86Osdev.Kernel

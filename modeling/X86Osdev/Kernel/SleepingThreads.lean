import X86Osdev.Kernel.SignalFrame
import X86Osdev.Kernel.KilledThreads
import X86Osdev.Kernel.ProcessTree
import X86Osdev.Library.Runs
import X86Osdev.Proc.Timers

/-! Threads that sleep in `sleep_ms` and their timers, with timer interrupts between any two steps. -/

namespace X86Osdev.Kernel
open CircularList X86Osdev.Mem X86Osdev.Proc

/-- Where a thread is in `sleep_ms`: it has linked its timer, it has gone on with `sleep_thread`, or
`reschedule` has switched away from it. -/
inductive SleepPhase where
  | outside
  | armed
  | slept
  | away
deriving DecidableEq

/-- `next` is the local variable of `reschedule`, from the choice of a thread to the switch. -/
structure SleepRun where
  k : Machine
  phase : ℕ → SleepPhase
  next : ℕ → Option ℕ

/-- The steps of the current thread, and the timer interrupt. -/
inductive SleepEvent where
  | arm (ms : ℕ)
  | sleepThread
  | pick (now : ℕ)
  | switch
  | ret
  | tick (now : ℕ)

namespace SleepRun

def enter (s : SleepRun) (phase : SleepPhase) : SleepRun :=
  { s with phase := Function.update s.phase s.k.currentThread phase }

/-- The start of `sleep_ms`, with interrupts off. -/
def arm (ms : ℕ) (s : SleepRun) : SleepRun :=
  { s.enter .armed with k := { s.k with kernelTimers := sleepTimer ms s.k :: s.k.kernelTimers } }

def sleep (s : SleepRun) : SleepRun :=
  { s.enter .slept with k := sleepThread s.k.currentThread s.k }

/-- `reschedule` has chosen `next` and done the accounting. -/
def chosen (now next : ℕ) (k : Machine) (s : SleepRun) : SleepRun :=
  { s with
    k := chargeReschedule now next k
    next := Function.update s.next s.k.currentThread (some next) }

/-- `reschedule` from `handle_signals` on; it starts again when that returns `FALSE`. -/
def switch (next : ℕ) (s : SleepRun) : SleepRun :=
  let (ret, k) := handleSignals next s.k
  let s := { s with next := Function.update s.next s.k.currentThread none }
  if ret then
    let s := if s.phase s.k.currentThread = .slept then s.enter .away else s
    { s with k := switchToThread next k }
  else { s with k := k }

end SleepRun

/-- A step, where the current thread can take it: `reschedule` is called at the end of `sleep_ms` or by
code outside it. -/
def sleepStep : SleepEvent → SleepRun → Option SleepRun
  | .arm ms, s =>
    if s.phase s.k.currentThread = .outside ∧ s.next s.k.currentThread = none then some (s.arm ms)
    else none
  | .sleepThread, s => if s.phase s.k.currentThread = .armed then some s.sleep else none
  | .pick now, s =>
    if (s.phase s.k.currentThread = .outside ∨ s.phase s.k.currentThread = .slept) ∧
        s.next s.k.currentThread = none then
      (pickNextThread s.k).toOption.map fun r => s.chosen now r.1 r.2
    else none
  | .switch, s => (s.next s.k.currentThread).map fun next => s.switch next
  | .ret, s => if s.phase s.k.currentThread = .away then some (s.enter .outside) else none
  | .tick now, s => (after (schedulerHandler now s.k)).map fun k => { s with k := k }

def timersOf (k : Machine) (t : ℕ) : ℕ := k.kernelTimers.countP fun a => a.thread == t

structure SleepStart (s : SleepRun) : Prop where
  queues : ∃ E, QueueInv s.k E
  running : s.k.currentThread ∈ s.k.allocated
  silent : ∀ t ∈ s.k.allocated, (s.k.threads t).signals.pending = 0
  timers : s.k.kernelTimers = []
  phase : ∀ t, s.phase t = .outside
  next : ∀ t, s.next t = none

/-- The steps that leave every sleeping thread its timer: the idle thread does not sleep, no timer falls due
before its thread has gone to sleep, and `reschedule` does not switch to a thread that has gone to sleep since
it was chosen. -/
def KeepsTimers (s : SleepRun) : SleepEvent → Prop
  | .arm _ => (s.k.threads s.k.currentThread).pid ≠ idlePid
  | .tick _ => ∀ a ∈ s.k.kernelTimers, a.due (u64 (s.k.tickCount + 1)) = true → s.phase a.thread ≠ .armed
  | .switch => ∀ next ∈ s.next s.k.currentThread, s.phase next = .away → timersOf s.k next = 0
  | .sleepThread | .pick _ | .ret => True

instance (s : SleepRun) : DecidablePred (KeepsTimers s)
  | .arm _ => inferInstanceAs (Decidable ((s.k.threads s.k.currentThread).pid ≠ idlePid))
  | .tick _ => inferInstanceAs (Decidable (∀ a ∈ s.k.kernelTimers,
      a.due (u64 (s.k.tickCount + 1)) = true → s.phase a.thread ≠ .armed))
  | .switch => inferInstanceAs (Decidable (∀ next ∈ s.next s.k.currentThread,
      s.phase next = .away → timersOf s.k next = 0))
  | .sleepThread | .pick _ | .ret => inferInstanceAs (Decidable True)

def timersOwed (E : Queue → List ℕ) (t : ℕ) : SleepPhase → ℕ
  | .outside => 0
  | .armed => 1
  | .slept | .away => if t ∈ E .sleep then 1 else 0

structure SleepInv (s : SleepRun) (E : Queue → List ℕ) : Prop where
  queues : QueueInv s.k E
  running : s.k.currentThread ∈ s.k.allocated
  silent : ∀ t ∈ s.k.allocated, (s.k.threads t).signals.pending = 0
  unreaped : ∀ a ∈ s.k.kernelTimers, a.thread ∈ s.k.allocated
  armed : ∀ t, s.phase t = .armed → (s.k.threads t).pid ≠ idlePid ∧ s.next t = none
  timers : ∀ t, timersOf s.k t = timersOwed E t (s.phase t)
  chosen : ∀ t next, s.next t = some next → next ∈ s.k.allocated ∧ (next = t → t ∉ E .sleep)
  awake : s.phase s.k.currentThread = .away → s.k.currentThread ∉ E .sleep

section Timers
variable {k k' : Machine} {E : Queue → List ℕ} {t : ℕ}

theorem wakeTimer_queues {activeT : Timer} (h : QueueInv k E) (ht : activeT.thread ∈ k.allocated) :
    ∃ E', QueueInv (wakeTimer k activeT) E' ∧ ∀ t, t ∈ E' .sleep ↔
      t ∈ E .sleep ∧ (activeT.due k.tickCount = true → activeT.thread ≠ t) := by
  cases hdue : activeT.due k.tickCount with
  | true =>
    refine ⟨movedTail E .running activeT.thread, ?_, fun t => ?_⟩
    · rw [wakeTimer_due hdue]
      have hk : QueueInv { k with kernelTimers := k.kernelTimers.erase activeT } E := h.congr rfl rfl rfl
      exact (hk.setState activeT.thread .runnable).toTail ht .running
    · rw [mem_movedTail (h.nodup_queue .sleep)]
      constructor
      · rintro (⟨-, hq⟩ | ⟨hne, hin⟩)
        · cases hq
        · exact ⟨hin, fun _ => Ne.symm hne⟩
      · rintro ⟨hin, hne⟩
        exact .inr ⟨Ne.symm (hne rfl), hin⟩
  | false =>
    refine ⟨E, ?_, fun t => ⟨fun h => ⟨h, fun e => nomatch e⟩, fun h => h.1⟩⟩
    rw [wakeTimer_not_due hdue]
    exact h

theorem foldl_wakeTimer_queues (l : List Timer) {k : Machine} {E : Queue → List ℕ} (h : QueueInv k E)
    (hl : ∀ a ∈ l, a.thread ∈ k.allocated) : ∃ E', QueueInv (l.foldl wakeTimer k) E' ∧
      ∀ t, t ∈ E' .sleep ↔ t ∈ E .sleep ∧ ∀ a ∈ l, a.due k.tickCount = true → a.thread ≠ t := by
  induction l generalizing k E with
  | nil => exact ⟨E, h, fun t => by simp⟩
  | cons activeT l ih =>
    obtain ⟨E₁, h₁, hsleep₁⟩ := wakeTimer_queues h (hl activeT (List.mem_cons_self ..))
    have halloc : (wakeTimer k activeT).allocated = k.allocated := (Frame.wakeTimer k activeT).allocated
    obtain ⟨E₂, h₂, hsleep₂⟩ := ih h₁ fun a ha => halloc ▸ hl a (List.mem_cons_of_mem _ ha)
    refine ⟨E₂, h₂, fun t => ?_⟩
    rw [hsleep₂, hsleep₁, wakeTimer_tickCount, List.forall_mem_cons, and_assoc]

theorem timersRun_queues (h : QueueInv k E) (hunreaped : ∀ a ∈ k.kernelTimers, a.thread ∈ k.allocated) :
    ∃ E', QueueInv (timersRun k) E' ∧ ∀ t, t ∈ E' .sleep ↔ t ∈ E .sleep ∧
      ∀ a ∈ k.kernelTimers, a.due (u64 (k.tickCount + 1)) = true → a.thread ≠ t := by
  have hk : QueueInv { k with tickCount := u64 (k.tickCount + 1) } E := h.congr rfl rfl rfl
  exact foldl_wakeTimer_queues k.kernelTimers hk hunreaped

theorem timersRun_timers (k : Machine) : (timersRun k).kernelTimers =
    k.kernelTimers.filter fun a => !a.due (u64 (k.tickCount + 1)) :=
  wakeUpTimers_timers { k with tickCount := u64 (k.tickCount + 1) }

theorem timersOf_timersRun_due (hone : timersOf k t ≤ 1) {a : Timer} (ha : a ∈ k.kernelTimers)
    (hat : a.thread = t) (hdue : a.due (u64 (k.tickCount + 1)) = true) : timersOf (timersRun k) t = 0 := by
  have hsplit := List.countP_eq_countP_filter_add k.kernelTimers (fun b => b.thread == t)
    fun b => b.due (u64 (k.tickCount + 1))
  have hfired : 0 < (k.kernelTimers.filter fun b => b.due (u64 (k.tickCount + 1))).countP
      fun b => b.thread == t :=
    List.countP_pos_iff.mpr ⟨a, List.mem_filter.mpr ⟨ha, hdue⟩, beq_iff_eq.mpr hat⟩
  unfold timersOf at hone ⊢
  rw [timersRun_timers]
  omega

theorem timersOf_timersRun_kept
    (hnot : ∀ a ∈ k.kernelTimers, a.due (u64 (k.tickCount + 1)) = true → a.thread ≠ t) :
    timersOf (timersRun k) t = timersOf k t := by
  unfold timersOf
  rw [timersRun_timers, List.countP_filter]
  refine List.countP_congr fun a ha => ?_
  cases hdue : a.due (u64 (k.tickCount + 1)) with
  | true => simp [hnot a ha hdue]
  | false => simp

end Timers

structure Billed (k k' : Machine) : Prop where
  accounting : Accounting k k'
  kernelTimers : k'.kernelTimers = k.kernelTimers
  currentThread : k'.currentThread = k.currentThread

section Billed
variable {k k' k'' : Machine} {now next : ℕ}

theorem Billed.trans (h : Billed k k') (h' : Billed k' k'') : Billed k k'' :=
  ⟨h.accounting.trans h'.accounting, h'.kernelTimers.trans h.kernelTimers,
    h'.currentThread.trans h.currentThread⟩

theorem Billed.pick (h : pickNextThread k = .ok next k') : Billed k k' := by
  have hacc := pickNextThread_accounting h
  obtain ⟨-, slice, rfl⟩ := pickNextThread_ok h
  exact ⟨hacc, rfl, rfl⟩

theorem Billed.chargeReschedule (now next : ℕ) (k : Machine) : Billed k (chargeReschedule now next k) := by
  refine ⟨chargeReschedule_accounting now next k, ?_, (Frame.chargeReschedule now next k).currentThread⟩
  unfold Kernel.chargeReschedule
  dsimp only
  split
  · rfl
  · rfl

theorem Billed.chargeSwitch (now next : ℕ) (k : Machine) : Billed k (chargeSwitch now next k) := by
  refine ⟨chargeSwitch_accounting now next k, ?_, (Frame.chargeSwitch now next k).currentThread⟩
  unfold Kernel.chargeSwitch
  dsimp only
  split
  · rfl
  · rfl

theorem handleSignals_silent {t : ℕ} (h : (k.threads t).signals.pending = 0) :
    handleSignals t k = (true, k) := by
  unfold Proc.handleSignals
  rw [if_pos h, ite_self]

theorem Billed.noResched (now : ℕ) (h : (k.threads k.currentThread).signals.pending = 0) :
    Billed k (noResched now k) := by
  obtain ⟨k', hacc, ⟨hcur, htimers⟩, heq⟩ := noResched_eq now k
  have hsilent : (k'.threads k.currentThread).signals.pending = 0 := by
    rw [hacc.signals]
    exact h
  rw [heq, handleSignals_silent hsilent]
  exact ⟨hacc, htimers, hcur⟩

end Billed

section Steps
variable {s s' : SleepRun} {E : Queue → List ℕ} {k' : Machine} {t : ℕ}

theorem timersOwed_le (E : Queue → List ℕ) (t : ℕ) (p : SleepPhase) : timersOwed E t p ≤ 1 := by
  have hasleep : (if t ∈ E .sleep then 1 else 0) ≤ 1 := by
    split
    · exact le_rfl
    · exact Nat.zero_le 1
  cases p with
  | outside => exact Nat.zero_le 1
  | armed => exact le_rfl
  | slept => exact hasleep
  | away => exact hasleep

theorem timersOwed_congr {E' : Queue → List ℕ} (h : t ∈ E' .sleep ↔ t ∈ E .sleep) (p : SleepPhase) :
    timersOwed E' t p = timersOwed E t p := by
  cases p with
  | outside => rfl
  | armed => rfl
  | slept => exact if_congr h rfl rfl
  | away => exact if_congr h rfl rfl

theorem SleepStart.inv (h : SleepStart s) : ∃ E, SleepInv s E := by
  obtain ⟨E, hq⟩ := h.queues
  refine ⟨E, hq, h.running, h.silent, ?_, ?_, fun t => ?_, ?_, ?_⟩
  · rw [h.timers]
    exact fun a ha => absurd ha List.not_mem_nil
  · intro t ht
    rw [h.phase] at ht
    cases ht
  · rw [h.phase, timersOf, h.timers]
    rfl
  · intro t next hnext
    rw [h.next] at hnext
    cases hnext
  · intro hcur
    rw [h.phase] at hcur
    cases hcur

theorem SleepInv.billed (h : SleepInv s E) (hb : Billed s.k k') : SleepInv { s with k := k' } E where
  queues := h.queues.quiet hb.accounting.quiet
  running := by
    rw [hb.currentThread, hb.accounting.quiet.allocated]
    exact h.running
  silent t ht := by
    rw [hb.accounting.signals]
    exact h.silent t (hb.accounting.quiet.allocated ▸ ht)
  unreaped := by
    rw [hb.kernelTimers, hb.accounting.quiet.allocated]
    exact h.unreaped
  armed t ht := by
    rw [hb.accounting.quiet.pid]
    exact h.armed t ht
  timers t := by
    unfold timersOf
    rw [hb.kernelTimers]
    exact h.timers t
  chosen := by
    rw [hb.accounting.quiet.allocated]
    exact h.chosen
  awake := by
    rw [hb.currentThread]
    exact h.awake

theorem SleepInv.switched {next : ℕ} (h : SleepInv s E) (hnext : next ∈ s.k.allocated)
    (hawake : s.phase next = .away → next ∉ E .sleep) :
    SleepInv { s with k := switchToThread next s.k } E where
  queues := h.queues.quiet (switchToThread_accounting next s.k).quiet
  running := hnext
  silent := h.silent
  unreaped := h.unreaped
  armed := h.armed
  timers := h.timers
  chosen := h.chosen
  awake := hawake

theorem SleepInv.timersRun (h : SleepInv s E) (hok : ∀ a ∈ s.k.kernelTimers,
    a.due (u64 (s.k.tickCount + 1)) = true → s.phase a.thread ≠ .armed) :
    ∃ E', SleepInv { s with k := timersRun s.k } E' := by
  obtain ⟨E', hq, hsleep⟩ := timersRun_queues h.queues h.unreaped
  have hf := Frame.timersRun s.k
  refine ⟨E', hq, ?_, fun t ht => ?_, ?_, fun t ht => ?_, fun t => ?_, fun t next hnext => ?_,
    fun hcur => ?_⟩
  · rw [hf.currentThread, hf.allocated]
    exact h.running
  · rw [keeps_timersRun (f := Thread.signals) (fun _ _ => rfl) s.k t]
    exact h.silent t (hf.allocated ▸ ht)
  · rw [hf.allocated]
    exact fun a ha => h.unreaped a (hf.kernelTimers ha)
  · rw [keeps_timersRun (f := Thread.pid) (fun _ _ => rfl) s.k t]
    exact h.armed t ht
  -- A timer that falls due takes its thread off the sleep queue; the others stay where they were.
  · by_cases hdue : ∃ a ∈ s.k.kernelTimers, a.due (u64 (s.k.tickCount + 1)) = true ∧ a.thread = t
    · obtain ⟨a, ha, hdue, hat⟩ := hdue
      have hone : timersOf s.k t ≤ 1 := by
        rw [h.timers]
        exact timersOwed_le ..
      have hout : t ∉ E' .sleep := fun hin => ((hsleep t).mp hin).2 a ha hdue hat
      have harmed : s.phase t ≠ .armed := hat ▸ hok a ha hdue
      refine (timersOf_timersRun_due hone ha hat hdue).trans ?_
      show 0 = timersOwed E' t (s.phase t)
      cases hp : s.phase t with
      | outside => rfl
      | armed => exact absurd hp harmed
      | slept => exact (if_neg hout).symm
      | away => exact (if_neg hout).symm
    · have hnot : ∀ a ∈ s.k.kernelTimers, a.due (u64 (s.k.tickCount + 1)) = true → a.thread ≠ t :=
        fun a ha hd hat => hdue ⟨a, ha, hd, hat⟩
      have hmem : t ∈ E' .sleep ↔ t ∈ E .sleep := (hsleep t).trans (and_iff_left hnot)
      refine (timersOf_timersRun_kept hnot).trans ((h.timers t).trans ?_)
      exact (timersOwed_congr hmem _).symm
  · rw [hf.allocated]
    obtain ⟨hin, hself⟩ := h.chosen t next hnext
    exact ⟨hin, fun e ht => hself e ((hsleep t).mp ht).1⟩
  · rw [hf.currentThread] at hcur ⊢
    exact fun hin => h.awake hcur ((hsleep _).mp hin).1

theorem SleepInv.tick {now : ℕ} {next : Option ℕ} (h : SleepInv s E) (hok : KeepsTimers s (.tick now))
    (hrun : schedulerHandler now s.k = .ok next k') : ∃ E', SleepInv { s with k := k' } E' := by
  obtain ⟨E', h'⟩ := h.timersRun hok
  refine ⟨E', ?_⟩
  rcases schedulerHandler_ok hrun with ⟨-, rfl | ⟨k₁, hpick, rfl⟩⟩ | ⟨nextThread, k₁, -, hpick, rfl⟩
  · exact h'.billed (.noResched now (h'.silent _ h'.running))
  · have h₁ := h'.billed (.pick hpick)
    exact h₁.billed (.noResched now (h₁.silent _ h₁.running))
  · have h₁ := (h'.billed (.pick hpick)).billed (.chargeSwitch now nextThread k₁)
    have hin := pickNextThread_mem h'.queues hpick
    refine h₁.switched (h₁.queues.unreaped _ _ hin) fun _ hsleep => ?_
    cases h₁.queues.queue_unique hin hsleep

theorem SleepInv.arm {ms : ℕ} (h : SleepInv s E) (hpid : (s.k.threads s.k.currentThread).pid ≠ idlePid)
    (hphase : s.phase s.k.currentThread = .outside) (hnext : s.next s.k.currentThread = none) :
    SleepInv (s.arm ms) E where
  queues := h.queues.congr rfl rfl rfl
  running := h.running
  silent := h.silent
  unreaped := List.forall_mem_cons.mpr ⟨h.running, h.unreaped⟩
  armed t ht := by
    by_cases hcur : t = s.k.currentThread
    · subst hcur
      exact ⟨hpid, hnext⟩
    · exact h.armed t ((Function.update_of_ne hcur ..).symm.trans ht)
  timers t := by
    have hold := h.timers t
    show List.countP _ (sleepTimer ms s.k :: s.k.kernelTimers) =
      timersOwed E t (Function.update s.phase s.k.currentThread .armed t)
    by_cases hcur : t = s.k.currentThread
    · subst hcur
      rw [hphase] at hold
      rw [Function.update_self, List.countP_cons_of_pos]
      · exact congrArg (· + 1) hold
      · exact beq_self_eq_true _
    · rw [Function.update_of_ne hcur, List.countP_cons_of_neg]
      · exact hold
      · exact fun e => hcur (beq_iff_eq.mp e).symm
  chosen := h.chosen
  awake hcur := by
    have hself : Function.update s.phase s.k.currentThread .armed s.k.currentThread = .away := hcur
    rw [Function.update_self] at hself
    cases hself

theorem SleepInv.sleep (h : SleepInv s E) (hphase : s.phase s.k.currentThread = .armed) :
    SleepInv s.sleep (movedHead E .sleep s.k.currentThread) := by
  obtain ⟨hpid, hnext⟩ := h.armed _ hphase
  have heq : sleepThread s.k.currentThread s.k =
      (s.k.setState s.k.currentThread .interruptible).toHead .sleep s.k.currentThread := if_neg hpid
  have hmem : ∀ t, t ∈ movedHead E .sleep s.k.currentThread .sleep ↔
      t = s.k.currentThread ∨ t ∈ E .sleep := by
    intro t
    rw [mem_movedHead (h.queues.nodup_queue .sleep)]
    tauto
  have hother : ∀ t, t ≠ s.k.currentThread → (t ∈ movedHead E .sleep s.k.currentThread .sleep ↔
      t ∈ E .sleep) := fun t ht => (hmem t).trans (or_iff_right ht)
  have hphases : ∀ t, t ≠ s.k.currentThread → s.sleep.phase t = s.phase t :=
    fun t ht => Function.update_of_ne ht ..
  have hself : s.sleep.phase s.k.currentThread = .slept := Function.update_self ..
  have hk : s.sleep.k =
      (s.k.setState s.k.currentThread .interruptible).toHead .sleep s.k.currentThread := heq
  refine ⟨?_, ?_, fun t ht => ?_, ?_, fun t ht => ?_, fun t => ?_, fun t next ht => ?_, fun hcur => ?_⟩
  · rw [hk]
    exact (h.queues.setState s.k.currentThread .interruptible).toHead h.running .sleep
  · rw [hk]
    exact h.running
  · rw [hk]
    show (((s.k.setState s.k.currentThread .interruptible).threads t).signals).pending = 0
    rw [Keeps.setState (f := Thread.signals) (fun _ _ => rfl) s.k _ _ t]
    rw [hk] at ht
    exact h.silent t ht
  · rw [hk]
    exact h.unreaped
  · have hne : t ≠ s.k.currentThread := by
      rintro rfl
      rw [hself] at ht
      cases ht
    rw [hphases t hne] at ht
    rw [hk]
    show ((s.k.setState s.k.currentThread .interruptible).threads t).pid ≠ idlePid ∧ s.next t = none
    rw [pid_setState]
    exact h.armed t ht
  -- The thread was owed its timer as one that is armed, and is now as one that sleeps.
  · have hold := h.timers t
    rw [hk]
    show timersOf s.k t = _
    by_cases hne : t = s.k.currentThread
    · subst hne
      rw [hphase] at hold
      rw [hold, hself]
      exact (if_pos ((hmem _).mpr (.inl rfl))).symm
    · rw [hold, hphases t hne, timersOwed_congr (hother t hne)]
  · obtain ⟨hin, hout⟩ := h.chosen t next ht
    have hne : t ≠ s.k.currentThread := by
      rintro rfl
      rw [show s.next s.k.currentThread = some next from ht] at hnext
      cases hnext
    rw [hk]
    exact ⟨hin, fun e ht => hout e ((hother t hne).mp ht)⟩
  · rw [hk] at hcur
    rw [show s.sleep.phase s.k.currentThread = .away from hcur] at hself
    cases hself

theorem SleepInv.chose {now next : ℕ} (h : SleepInv s E)
    (hphase : s.phase s.k.currentThread ≠ .armed) (hpick : pickNextThread s.k = .ok next k') :
    SleepInv (s.chosen now next k') E := by
  have hin := pickNextThread_mem h.queues hpick
  have hb := (Billed.pick hpick).trans (.chargeReschedule now next k')
  have h' := h.billed hb
  have hother : ∀ t, t ≠ s.k.currentThread → (s.chosen now next k').next t = s.next t :=
    fun t ht => Function.update_of_ne ht ..
  refine ⟨h'.queues, h'.running, h'.silent, h'.unreaped, fun t ht => ?_, h'.timers, fun t u hu => ?_,
    h'.awake⟩
  · have hne : t ≠ s.k.currentThread := by
      rintro rfl
      exact hphase ht
    rw [hother t hne]
    exact h'.armed t ht
  · by_cases hne : t = s.k.currentThread
    · subst hne
      have hself : (s.chosen now next k').next s.k.currentThread = some next := Function.update_self ..
      rw [hself] at hu
      cases hu
      refine ⟨h'.queues.unreaped .running _ hin, ?_⟩
      rintro rfl hsleep
      cases h.queues.queue_unique hin hsleep
    · rw [hother t hne] at hu
      exact h'.chosen t u hu

/-- `reschedule` leaves a thread behind in `sleep_ms` if that called it. -/
theorem SleepRun.switch_silent {next : ℕ} (h : (s.k.threads next).signals.pending = 0) :
    s.switch next = ⟨switchToThread next s.k,
      fun t => if t = s.k.currentThread ∧ s.phase t = .slept then .away else s.phase t,
      Function.update s.next s.k.currentThread none⟩ := by
  unfold SleepRun.switch
  rw [handleSignals_silent h]
  dsimp only
  rw [if_pos rfl]
  split
  · next hslept =>
    refine congrArg (SleepRun.mk _ · _) (funext fun t => ?_)
    show Function.update s.phase s.k.currentThread .away t = _
    rw [Function.update_apply]
    by_cases hcur : t = s.k.currentThread
    · rw [if_pos hcur, if_pos ⟨hcur, hcur ▸ hslept⟩]
    · rw [if_neg hcur, if_neg fun e => hcur e.1]
  · next hslept =>
    refine congrArg (SleepRun.mk _ · _) (funext fun t => ?_)
    refine (if_neg ?_).symm
    rintro ⟨rfl, hslept'⟩
    exact hslept hslept'

theorem SleepInv.switch {next : ℕ} (h : SleepInv s E) (hok : KeepsTimers s .switch)
    (hnext : s.next s.k.currentThread = some next) : SleepInv (s.switch next) E := by
  obtain ⟨hin, hself⟩ := h.chosen _ next hnext
  rw [SleepRun.switch_silent (h.silent next hin)]
  refine ⟨h.queues.quiet (switchToThread_accounting next s.k).quiet, hin, h.silent, h.unreaped,
    fun t ht => ?_, fun t => ?_, fun t u hu => ?_, fun hcur => ?_⟩
  · have harmed : s.phase t = .armed := by
      dsimp only at ht
      split at ht
      · cases ht
      · exact ht
    obtain ⟨hpid, hnone⟩ := h.armed t harmed
    refine ⟨hpid, ?_⟩
    show Function.update s.next s.k.currentThread none t = none
    rw [Function.update_apply, hnone, ite_self]
  · refine (h.timers t).trans ?_
    dsimp only
    split
    · next hslept => rw [hslept.2, timersOwed, timersOwed]
    · rfl
  · have hold : s.next t = some u := by
      dsimp only at hu
      rw [Function.update_apply] at hu
      split at hu
      · cases hu
      · exact hu
    exact h.chosen t u hold
  · by_cases hself' : next = s.k.currentThread
    · exact fun hsleep => hself hself' (hself' ▸ hsleep)
    · have haway : s.phase next = .away := (if_neg fun e => hself' e.1).symm.trans hcur
      have hnone := (h.timers next).symm.trans (hok next hnext haway)
      rw [haway] at hnone
      exact fun hsleep => absurd ((if_pos hsleep).symm.trans hnone) (by decide)

theorem SleepInv.ret (h : SleepInv s E) (hphase : s.phase s.k.currentThread = .away) :
    SleepInv (s.enter .outside) E where
  queues := h.queues
  running := h.running
  silent := h.silent
  unreaped := h.unreaped
  armed t ht := by
    refine h.armed t ?_
    have hphase : Function.update s.phase s.k.currentThread .outside t = .armed := ht
    rw [Function.update_apply] at hphase
    split at hphase
    · cases hphase
    · exact hphase
  timers t := by
    have hold := h.timers t
    show timersOf s.k t = timersOwed E t (Function.update s.phase s.k.currentThread .outside t)
    by_cases hcur : t = s.k.currentThread
    · subst hcur
      rw [Function.update_self, hold, hphase]
      exact if_neg (h.awake hphase)
    · rw [Function.update_of_ne hcur, hold]
  chosen := h.chosen
  awake hcur := by
    have hself : Function.update s.phase s.k.currentThread .outside s.k.currentThread = .away := hcur
    rw [Function.update_self] at hself
    cases hself

theorem SleepInv.step {ev : SleepEvent} (h : SleepInv s E) (hok : KeepsTimers s ev)
    (hs : sleepStep ev s = some s') : ∃ E', SleepInv s' E' := by
  cases ev with
  | arm ms =>
    obtain ⟨⟨hphase, hnext⟩, hs⟩ := Option.ite_none_right_eq_some.mp hs
    cases hs
    exact ⟨E, h.arm hok hphase hnext⟩
  | sleepThread =>
    obtain ⟨hphase, hs⟩ := Option.ite_none_right_eq_some.mp hs
    cases hs
    exact ⟨_, h.sleep hphase⟩
  | pick now =>
    obtain ⟨⟨hphase, -⟩, hs⟩ := Option.ite_none_right_eq_some.mp hs
    obtain ⟨⟨next, k'⟩, hpick, rfl⟩ := Option.map_eq_some_iff.mp hs
    refine ⟨E, h.chose (fun harmed => ?_) (Outcome.toOption_eq_some.mp hpick)⟩
    rw [harmed] at hphase
    simp at hphase
  | switch =>
    obtain ⟨next, hnext, rfl⟩ := Option.map_eq_some_iff.mp hs
    exact ⟨E, h.switch hok hnext⟩
  | ret =>
    obtain ⟨hphase, hs⟩ := Option.ite_none_right_eq_some.mp hs
    cases hs
    exact ⟨E, h.ret hphase⟩
  | tick now =>
    obtain ⟨k', hk', rfl⟩ := Option.map_eq_some_iff.mp hs
    obtain ⟨next, hrun⟩ := after_eq_some.mp hk'
    exact h.tick hok hrun

/-- In a run in which no step takes a timer from its thread, a thread on the sleep queue that is in
`sleep_ms` has one timer, and no timer refers to a thread that is not in `sleep_ms`. -/
theorem sleeping_thread_has_timer (hstart : SleepStart s)
    (hrun : Runs.Steps sleepStep KeepsTimers s s') :
    (∃ E, QueuesWellFormed s'.k E ∧ ∀ t ∈ E .sleep, s'.phase t = .slept ∨ s'.phase t = .away →
      timersOf s'.k t = 1) ∧
    ∀ a ∈ s'.k.kernelTimers, s'.phase a.thread ≠ .outside := by
  have hinv : ∃ E, SleepInv s' E := by
    refine hrun.invariant (I := fun s => ∃ E, SleepInv s E) (fun s ev s' hi hev hs => ?_) hstart.inv
    obtain ⟨E, hi⟩ := hi
    exact hi.step hev hs
  obtain ⟨E, hi⟩ := hinv
  refine ⟨⟨E, queuesWellFormed hi.queues, fun t ht hphase => ?_⟩, fun a ha hout => ?_⟩
  · rw [hi.timers]
    rcases hphase with hphase | hphase
    · rw [hphase]
      exact if_pos ht
    · rw [hphase]
      exact if_pos ht
  · have hnone := hi.timers a.thread
    rw [hout] at hnone
    exact List.countP_eq_zero.mp hnone a ha (beq_self_eq_true _)

end Steps

def sleepersStart : SleepRun := ⟨fatherRuns, fun _ => .outside, fun _ => none⟩

theorem sleepersStart_ok : SleepStart sleepersStart := by
  obtain ⟨E, hi⟩ := fatherRuns_reach.idleInv
  refine ⟨⟨E, hi.queues⟩, ?_, ?_, ?_, fun _ => rfl, fun _ => rfl⟩
  · decide +kernel
  · decide +kernel
  · decide +kernel

def sleeperWaits : SleepRun :=
  (Runs.runList sleepStep (fun s ev => decide (KeepsTimers s ev))
    [.arm 1, .sleepThread, .pick 150, .switch, .tick 160] sleepersStart).getD sleepersStart

theorem sleeping_thread_has_timer_waits : timersOf sleeperWaits.k 0x3000 = 1 := by
  have hrun : Runs.Steps sleepStep KeepsTimers sleepersStart sleeperWaits :=
    Runs.runList_steps (fun _ _ h => of_decide_eq_true h) (Runs.runList_getD (by decide +kernel))
  obtain ⟨⟨E, hE, hone⟩, -⟩ := sleeping_thread_has_timer sleepersStart_ok hrun
  refine hone 0x3000 (hE.mem_of_links (n := 1) ?_) (.inr (by decide +kernel))
  decide +kernel

/-- The timer interrupt comes between the link of the timer and `sleep_thread`. -/
def sleeperLost : SleepRun :=
  (Runs.runList sleepStep (fun _ _ => true) [.arm 0, .tick 150, .sleepThread, .pick 160, .switch]
    sleepersStart).getD sleepersStart

/-- The thread sleeps without a timer that could wake it. -/
theorem sleeper_without_timer : ThreadReach anyOp sleepersStart.k ∧ SleepStart sleepersStart ∧
    Runs.Steps sleepStep (fun _ _ => True) sleepersStart sleeperLost ∧
    sleeperLost.phase 0x3000 = .away ∧ (sleeperLost.k.threads 0x3000).state = .interruptible ∧
    (∀ E, QueuesWellFormed sleeperLost.k E → 0x3000 ∈ E .sleep) ∧ timersOf sleeperLost.k 0x3000 = 0 := by
  have hrun : Runs.Steps sleepStep (fun _ _ => True) sleepersStart sleeperLost :=
    Runs.runList_steps (fun _ _ _ => trivial) (Runs.runList_getD (by decide +kernel))
  refine ⟨fatherRuns_reach, sleepersStart_ok, hrun, by decide +kernel, by decide +kernel,
    fun E hE => hE.mem_of_links (n := 1) ?_, by decide +kernel⟩
  decide +kernel

end X86Osdev.Kernel

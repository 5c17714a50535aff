import X86Osdev.Kernel.KilledThreads
import X86Osdev.Kernel.SignalSteps
import X86Osdev.Library.Runs
import X86Osdev.Lock.WaitQueues

/-! The users of `kmem_lock` and `slab_lock` in mem/mem.c and mem/slab.c, with timer interrupts and signals
at any point: when the thread that has a lock is alive. -/

namespace X86Osdev.Lock
open CircularList X86Osdev.Mem X86Osdev.Proc X86Osdev.Kernel Programs

def kmemLock : ℕ := 0

def slabLock : ℕ := 1

/-- `salloc` returns at once where it finds a slab without a free buffer. -/
inductive MemCall where
  | kallocPage
  | kfreePage (ptr : ℕ)
  | salloc (outNull : Bool)
  | sfree
  | createSlab (noSleep : Bool)

def pageRequests : List Request := [.getLock kmemLock, .unlock kmemLock]

def slabRequests : List Request := [.getLock slabLock, .unlock slabLock]

def MemCall.requests : MemCall → List Request
  | .kallocPage => pageRequests
  | .kfreePage ptr => if ptr = 0 then [] else pageRequests
  | .salloc outNull => if outNull then [.getLock slabLock] else slabRequests
  | .sfree => slabRequests
  | .createSlab noSleep => if noSleep then slabRequests else pageRequests ++ slabRequests

/-- Where a thread is, with the requests that come after. It is at its next request; in `get_lock(l)` before
`l->owner` is set, before it links itself, before `sleep_thread`, or in `reschedule`: at its start, before the
accounting for the thread `next` that it has chosen, or in `handle_signals(next)` with what that has still to do;
or in `unlock(l)`: before the release, at the start of the wait queue, or before it unlinks or wakes the thread
`t` that waits. -/
inductive UserPc where
  | next (rs : List Request)
  | own (l : ℕ) (rs : List Request)
  | link (l : ℕ) (rs : List Request)
  | sleep (l : ℕ) (rs : List Request)
  | resched (l : ℕ) (rs : List Request)
  | charge (next l : ℕ) (rs : List Request)
  | signals (next : ℕ) (p : SignalProgram Bool) (l : ℕ) (rs : List Request)
  | free (l : ℕ) (rs : List Request)
  | dequeue (l : ℕ) (rs : List Request)
  | unlink (t l : ℕ) (rs : List Request)
  | wake (t l : ℕ) (rs : List Request)

/-- `holder l` is the thread that acquired `l` last: its `test_lock` found the lock free. -/
structure LockUsers where
  k : Machine
  pc : ℕ → UserPc
  holder : ℕ → ℕ

inductive UserEvent where
  | call (c : MemCall)
  | step (now : ℕ)
  | tick (now : ℕ)
  | sysKill (pid signal : ℕ)

def LockUsers.goTo (s : LockUsers) (t : ℕ) (k : Machine) (pc : UserPc) : LockUsers :=
  ⟨k, Function.update s.pc t pc, s.holder⟩

/-- The next step of `current_thread`. After `reschedule` it tests the lock again; `reschedule` starts again when
`handle_signals` returns `FALSE`. -/
def userNext (now : ℕ) (s : LockUsers) : Option LockUsers :=
  let t := s.k.currentThread
  match s.pc t with
  | .next [] => none
  | .next (.getLock l :: rs) =>
    if (testLock l s.k).1 then some (s.goTo t (testLock l s.k).2 (.link l rs))
    else some ⟨(testLock l s.k).2, Function.update s.pc t (.own l rs), Function.update s.holder l t⟩
  | .next (.unlock l :: rs) => some (s.goTo t (setOwner l 0 s.k) (.free l rs))
  | .own l rs => some (s.goTo t (setOwner l t s.k) (.next rs))
  | .link l rs => some (s.goTo t (linkWaiter l s.k) (.sleep l rs))
  | .sleep l rs => some (s.goTo t (sleepThread t s.k) (.resched l rs))
  | .resched l rs => (pickNextThread s.k).toOption.map fun r => s.goTo t r.2 (.charge r.1 l rs)
  | .charge next l rs =>
    some (s.goTo t (chargeReschedule now next s.k) (.signals next (Preempted.handleSignals next) l rs))
  | .signals next (.act a p) l rs => some (s.goTo t (a.exec s.k) (.signals next (p s.k) l rs))
  | .signals next (.done true) l rs => some (s.goTo t (switchToThread next s.k) (.next (.getLock l :: rs)))
  | .signals _ (.done false) l rs => some (s.goTo t s.k (.resched l rs))
  | .free l rs => some (s.goTo t (freeLock l s.k) (.dequeue l rs))
  | .dequeue l rs =>
    if s.k.waits.next (.threadsWaiting l) = .threadsWaiting l then some (s.goTo t s.k (.next rs))
    else some (s.goTo t s.k (.unlink (waiterOf (s.k.waits.next (.threadsWaiting l))) l rs))
  | .unlink u l rs => some (s.goTo t { s.k with waits := s.k.waits.listRemove (.waitq u) } (.wake u l rs))
  | .wake u l rs =>
    some (s.goTo t (wakeUpThread u s.k) (if (s.k.threads u).waitFlags = 1 then .next rs else .dequeue l rs))

def userStep : UserEvent → LockUsers → Option LockUsers
  | .call c, s =>
    match s.pc s.k.currentThread with
    | .next [] => some (s.goTo s.k.currentThread s.k (.next c.requests))
    | _ => none
  | .step now, s => userNext now s
  | .tick now, s => (after (schedulerHandler now s.k)).map fun k => ⟨k, s.pc, s.holder⟩
  | .sysKill pid signal, s => some ⟨sysKill pid signal s.k, s.pc, s.holder⟩

def MemLocked (k : Machine) (l : ℕ) : Prop :=
  (l = kmemLock ∨ l = slabLock) ∧ (k.locks l).locked = true

/-- A timer interrupt does not kill a thread that has a lock, nor does a step of `handle_signals` in
`reschedule` store `TASK_STOPPED` or `TASK_ZOMBIE` in its state; no list of children changes under a loop of
`handle_signals` over it; no dead thread finds a lock free, and the wake-ups of `unlock` come to threads only. -/
def HoldersSpared (s : LockUsers) : UserEvent → Prop
  | .step _ =>
    match s.pc s.k.currentThread with
    | .next (.getLock l :: _) => (s.k.locks l).locked = false → (s.k.threads s.k.currentThread).state.ko = false
    | .signals _ (.act a _) _ _ => a.Intact s.k ∧ ∀ l, MemLocked s.k l → a.SparesThread (s.holder l) s.k
    | .wake u _ _ => u ∈ s.k.allocated
    | _ => True
  | .tick now => ∀ l, MemLocked s.k l → ¬ Kills (s.holder l) s.k (.tick now)
  | _ => True

structure UsersReady (k : Machine) : Prop where
  queues : ∃ E, QueueInv k E ∧ StoppedDead k E ∧ k.currentThread ∈ E .running
  timers : ∀ activeT ∈ k.kernelTimers, activeT.thread ∈ k.allocated
  kmem : (k.locks kmemLock).locked = false
  slab : (k.locks slabLock).locked = false

/-- The states of a run in which the locks are got and given back by these calls alone. -/
def UsersReach (allowed : LockUsers → UserEvent → Prop) (s : LockUsers) : Prop :=
  ∃ k₀, UsersReady k₀ ∧ Runs.Steps userStep allowed ⟨k₀, fun _ => .next [], fun _ => 0⟩ s

/-- The thread that `reschedule` has chosen. -/
def UserPc.chosen : UserPc → Option ℕ
  | .charge n _ _ | .signals n _ _ _ => some n
  | _ => none

/-- What `handle_signals` has still to do relinks threads of `allocated` only. -/
def UserPc.Within (allocated : List ℕ) : UserPc → Prop
  | .signals _ p _ _ => p.Always (KnownThreads allocated) (SignalAction.Within allocated) fun _ => True
  | _ => True

structure HolderInv (s : LockUsers) (E : Queue → List ℕ) : Prop where
  queues : QueueInv s.k E
  stopped : StoppedDead s.k E
  current : ∃ q, s.k.currentThread ∈ E q
  timers : ∀ activeT ∈ s.k.kernelTimers, activeT.thread ∈ s.k.allocated
  holders : ∀ l, MemLocked s.k l → Alive s.k E (s.holder l)
  chosen : ∀ t, ∀ n ∈ (s.pc t).chosen, ∃ q, n ∈ E q
  within : ∀ t, (s.pc t).Within s.k.allocated

section Invariant
variable {s s' : LockUsers} {E : Queue → List ℕ} {k k' : Machine} {j l t : ℕ} {pc : UserPc}

theorem MemLocked.congr (hlocks : k'.locks = k.locks) (h : MemLocked k' l) : MemLocked k l := by
  unfold MemLocked at h
  rwa [hlocks] at h

theorem HolderInv.currentThread_mem (h : HolderInv s E) : s.k.currentThread ∈ s.k.allocated := by
  obtain ⟨q, hq⟩ := h.current
  exact h.queues.unreaped q _ hq

theorem HolderInv.goTo (h : HolderInv s E) (t : ℕ) (hchosen : ∀ n ∈ pc.chosen, ∃ q, n ∈ E q)
    (hwithin : pc.Within s.k.allocated) : HolderInv (s.goTo t s.k pc) E := by
  refine ⟨h.queues, h.stopped, h.current, h.timers, h.holders, fun u n hn => ?_, fun u => ?_⟩
  · by_cases hu : u = t
    · subst hu
      have hpc : (s.goTo u s.k pc).pc u = pc := Function.update_self ..
      rw [hpc] at hn
      exact hchosen n hn
    · have hpc : (s.goTo t s.k pc).pc u = s.pc u := Function.update_of_ne hu ..
      rw [hpc] at hn
      exact h.chosen u n hn
  · show (Function.update s.pc t pc u).Within s.k.allocated
    by_cases hu : u = t
    · subst hu
      rwa [Function.update_self]
    · rw [Function.update_of_ne hu]
      exact h.within u

theorem HolderInv.quiet (h : HolderInv s E) (hq : Quiet s.k k')
    (hlocks : ∀ l, MemLocked k' l → MemLocked s.k l) (hcur : ∃ q, k'.currentThread ∈ E q)
    (htimers : k'.kernelTimers ⊆ s.k.kernelTimers) : HolderInv ⟨k', s.pc, s.holder⟩ E := by
  refine ⟨h.queues.quiet hq, h.stopped.quiet hq, hcur, fun activeT ht => ?_, fun l hl => ?_, h.chosen,
    fun t => ?_⟩
  · show activeT.thread ∈ k'.allocated
    rw [hq.allocated]
    exact h.timers activeT (htimers ht)
  · exact (h.holders l (hlocks l hl)).quiet hq
  · show (s.pc t).Within k'.allocated
    rw [hq.allocated]
    exact h.within t

theorem HolderInv.moves {ok : Move → Prop} (h : HolderInv s E) (hm : Moves ok s.k k')
    (hspare : ∀ m, ok m → ∀ l, MemLocked s.k l → Spares (s.holder l) m) (hframe : Frame s.k k') :
    ∃ E', HolderInv ⟨k', s.pc, s.holder⟩ E' ∧ ∀ t, (∃ q, t ∈ E q) → ∃ q, t ∈ E' q := by
  obtain ⟨E', hq', hd', hS, hplaced⟩ := moves_alive (S := fun t => ∃ l, MemLocked s.k l ∧ s.holder l = t)
    h.queues h.stopped (fun t ⟨l, hl, e⟩ => e ▸ h.holders l hl)
    (fun m hok t ⟨l, hl, e⟩ => e ▸ hspare m hok l hl) hm
  refine ⟨E', ⟨hq', hd', ?_, fun activeT ht => ?_, fun l hl => hS _ ⟨l, hl.congr hframe.locks, rfl⟩,
    fun t n hn => hplaced n (h.chosen t n hn), fun t => ?_⟩, hplaced⟩
  · show ∃ q, k'.currentThread ∈ E' q
    rw [hframe.currentThread]
    exact hplaced _ h.current
  · show activeT.thread ∈ k'.allocated
    rw [hm.allocated]
    exact h.timers activeT (hframe.kernelTimers ht)
  · show (s.pc t).Within k'.allocated
    rw [hm.allocated]
    exact h.within t

theorem HolderInv.noResched (h : HolderInv s E)
    (hno : ∀ l, MemLocked s.k l → s.k.currentThread = s.holder l → ¬ Killed s.k.currentThread s.k)
    (now : ℕ) : ∃ E', HolderInv ⟨noResched now s.k, s.pc, s.holder⟩ E' := by
  have hk : ∀ u ∈ s.k.kThreads, u ∈ s.k.allocated := fun u hu => h.queues.procs ▸ hu
  obtain ⟨E', h', -⟩ := h.moves (noResched_moves hk (.inr h.currentThread_mem) now) (by
    rintro m ⟨_, hm⟩ l hl
    exact signalMove_spares (h.holders l hl) (hno l hl) hm) (Frame.noResched now s.k)
  exact ⟨E', h'⟩

theorem HolderInv.tick {now : ℕ} {next : Option ℕ} (h : HolderInv s E) (hok : HoldersSpared s (.tick now))
    (hrun : schedulerHandler now s.k = .ok next k') : ∃ E', HolderInv ⟨k', s.pc, s.holder⟩ E' := by
  have hframe := Frame.timersRun s.k
  obtain ⟨E₁, h₁, -⟩ := h.moves (timersRun_moves h.timers) (by
    rintro m ⟨activeT, _, _, rfl⟩ l _ _
    rfl) hframe
  have hlocked : ∀ l, MemLocked (timersRun s.k) l → MemLocked s.k l := fun l hl =>
    MemLocked.congr hframe.locks hl
  have hno : next = none → ∀ l, MemLocked (timersRun s.k) l →
      (timersRun s.k).currentThread = s.holder l →
      ¬ Killed (timersRun s.k).currentThread (timersRun s.k) := by
    rintro rfl l hl hcur hkill
    refine hok l (hlocked l hl) ⟨?_, hcur ▸ hkill, k', hrun⟩
    rw [← hcur, hframe.currentThread]
  rcases schedulerHandler_ok hrun with ⟨hnone, rfl | ⟨k₁, hpick, rfl⟩⟩ | ⟨nextThread, k₁, _, hpick, rfl⟩
  · exact h₁.noResched (hno hnone) now
  · have hacc := pickNextThread_accounting hpick
    have hpicked := Frame.pickNextThread hpick
    have h₂ : HolderInv ⟨k₁, s.pc, s.holder⟩ E₁ := by
      refine h₁.quiet hacc.quiet (fun l hl => hl.congr hpicked.locks) ?_ hpicked.kernelTimers
      rw [hpicked.currentThread]
      exact h₁.current
    refine h₂.noResched (fun l hl hcur hkill => hno hnone l (hl.congr hpicked.locks) ?_ ?_) now
    · rw [← hpicked.currentThread]
      exact hcur
    · rw [← hpicked.currentThread]
      exact (hacc.killed _).mp hkill
  · have hcharge := (Frame.pickNextThread hpick).trans (Frame.chargeSwitch now nextThread k₁)
    have hquiet := (pickNextThread_accounting hpick).trans ((chargeSwitch_accounting now nextThread k₁).trans
      (switchToThread_accounting nextThread _))
    refine ⟨E₁, h₁.quiet hquiet.quiet (fun l hl => hl.congr hcharge.locks) ⟨.running, ?_⟩
      hcharge.kernelTimers⟩
    exact pickNextThread_mem h₁.queues hpick

theorem memLocked_testLock (h : MemLocked (testLock l k).2 j) : MemLocked k j ∨ j = l := by
  by_cases hj : j = l
  · exact .inr hj
  · refine .inl ⟨h.1, ?_⟩
    rw [← h.2, locks_testLock, if_neg hj]

theorem memLocked_setOwner {t : ℕ} (h : MemLocked (setOwner l t k) j) : MemLocked k j := by
  refine ⟨h.1, ?_⟩
  rw [← h.2, locks_setOwner]

theorem memLocked_freeLock (h : MemLocked (freeLock l k) j) : MemLocked k j := by
  have hlocked := h.2
  rw [locks_freeLock] at hlocked
  split at hlocked
  · cases hlocked
  · exact ⟨h.1, hlocked⟩

theorem HolderInv.acquire (h : HolderInv s E) (halive : (s.k.threads s.k.currentThread).state.ko = false)
    (l : ℕ) : HolderInv ⟨(testLock l s.k).2, s.pc, Function.update s.holder l s.k.currentThread⟩ E := by
  have hquiet : Quiet s.k (testLock l s.k).2 := ⟨rfl, rfl, rfl, rfl, rfl, rfl, fun _ => rfl, fun _ => rfl⟩
  refine ⟨h.queues.quiet hquiet, h.stopped.quiet hquiet, h.current, h.timers, fun j hj => ?_, h.chosen, h.within⟩
  refine Alive.quiet ?_ hquiet
  by_cases hjl : j = l
  · subst hjl
    dsimp only
    rw [Function.update_self]
    refine ⟨halive, ?_⟩
    obtain ⟨q, hq⟩ := h.current
    cases q with
    | running => exact .inl hq
    | sleep => exact .inr hq
    | stopped =>
      rw [h.stopped _ hq] at halive
      cases halive
  · dsimp only
    rw [Function.update_of_ne hjl]
    exact h.holders j ((memLocked_testLock hj).resolve_right hjl)

theorem UserPc.within_of_chosen {allocated : List ℕ} (hpc : pc.chosen = none) : pc.Within allocated := by
  cases pc with
  | signals n p l rs => cases hpc
  | _ => trivial

theorem HolderInv.goOn (h : HolderInv ⟨k', s.pc, s.holder⟩ E) (t : ℕ) (hpc : pc.chosen = none) :
    HolderInv (s.goTo t k' pc) E := by
  refine HolderInv.goTo h t (fun n hn => ?_) (UserPc.within_of_chosen hpc)
  rw [hpc] at hn
  cases hn

theorem HolderInv.action {next : ℕ} {a : SignalAction} {p : Machine → SignalProgram Bool} {rs : List Request}
    (h : HolderInv s E) (hpc : s.pc s.k.currentThread = .signals next (.act a p) l rs)
    (hspare : ∀ l, MemLocked s.k l → a.SparesThread (s.holder l) s.k) :
    ∃ E', HolderInv (s.goTo s.k.currentThread (a.exec s.k) (.signals next (p s.k) l rs)) E' := by
  have hwithin := h.within s.k.currentThread
  rw [hpc] at hwithin
  obtain ⟨ha, hrest⟩ := hwithin
  have hknown : KnownThreads s.k.allocated s.k := fun u hu => h.queues.procs ▸ hu
  have hframe := a.exec_frame s.k
  obtain ⟨E', h', hplaced⟩ := h.moves (a.exec_moves ha)
    (fun m hm l hl => hm _ (hspare l hl)) hframe
  refine ⟨E', HolderInv.goTo h' _ (fun n hn => ?_) ?_⟩
  · refine hplaced n (h.chosen s.k.currentThread n ?_)
    rw [hpc]
    exact hn
  · show Program.Always _ (SignalAction.Within (a.exec s.k).allocated) _ _
    rw [hframe.allocated]
    exact hrest s.k hknown

theorem HolderInv.pick {next : ℕ} {rs : List Request} (h : HolderInv s E)
    (hpick : pickNextThread s.k = .ok next k') :
    HolderInv (s.goTo s.k.currentThread k' (.charge next l rs)) E := by
  have hframe := Frame.pickNextThread hpick
  have h' : HolderInv ⟨k', s.pc, s.holder⟩ E := by
    refine h.quiet (pickNextThread_accounting hpick).quiet (fun _ hj => hj.congr hframe.locks) ?_
      hframe.kernelTimers
    rw [hframe.currentThread]
    exact h.current
  refine HolderInv.goTo h' _ (fun n hn => ?_) trivial
  cases hn
  exact ⟨.running, pickNextThread_mem h.queues hpick⟩

theorem HolderInv.charge {next : ℕ} {rs : List Request} (h : HolderInv s E)
    (hpc : s.pc s.k.currentThread = .charge next l rs) (now : ℕ) :
    HolderInv (s.goTo s.k.currentThread (chargeReschedule now next s.k)
      (.signals next (Preempted.handleSignals next) l rs)) E := by
  have hframe := Frame.chargeReschedule now next s.k
  have h' : HolderInv ⟨chargeReschedule now next s.k, s.pc, s.holder⟩ E := by
    refine h.quiet (chargeReschedule_accounting now next s.k).quiet (fun _ hj => hj.congr hframe.locks) ?_
      hframe.kernelTimers
    rw [hframe.currentThread]
    exact h.current
  have hplaced : ∃ q, next ∈ E q := by
    refine h.chosen s.k.currentThread next ?_
    rw [hpc]
    rfl
  refine HolderInv.goTo h' _ (fun n hn => ?_) (always_handleSignals ?_)
  · cases hn
    exact hplaced
  · obtain ⟨q, hq⟩ := hplaced
    exact h'.queues.unreaped q next hq

/-- `_switch_to_thread`, whatever became of the chosen thread in between. -/
theorem HolderInv.switch {next : ℕ} {p : SignalProgram Bool} {rs : List Request} (h : HolderInv s E)
    (hpc : s.pc s.k.currentThread = .signals next p l rs) :
    HolderInv (s.goTo s.k.currentThread (switchToThread next s.k) (.next (.getLock l :: rs))) E := by
  refine HolderInv.goOn (h.quiet (switchToThread_accounting next s.k).quiet (fun _ hj => hj) ?_
    (List.Subset.refl _)) _ rfl
  refine h.chosen s.k.currentThread next ?_
  rw [hpc]
  rfl

theorem HolderInv.next {now : ℕ} (h : HolderInv s E) (hok : HoldersSpared s (.step now))
    (hs : userNext now s = some s') : ∃ E', HolderInv s' E' := by
  unfold HoldersSpared at hok
  unfold userNext at hs
  dsimp only at hs
  split at hs
  · cases hs
  -- `test_lock`: only a lock that was free gets a holder, and that is the thread that runs.
  · next l rs hpc =>
    have hquiet : Quiet s.k (testLock l s.k).2 := ⟨rfl, rfl, rfl, rfl, rfl, rfl, fun _ => rfl, fun _ => rfl⟩
    split at hs
    · next hlocked =>
      cases hs
      refine ⟨E, HolderInv.goOn (h.quiet hquiet (fun j hj => ?_) h.current (List.Subset.refl _)) _ rfl⟩
      rcases memLocked_testLock hj with hj' | rfl
      · exact hj'
      · exact ⟨hj.1, hlocked⟩
    · next hfree =>
      cases hs
      rw [hpc] at hok
      have hacq := h.acquire (hok ((Bool.not_eq_true _).mp hfree)) l
      exact ⟨E, HolderInv.goOn (s := ⟨s.k, s.pc, Function.update s.holder l s.k.currentThread⟩) hacq _ rfl⟩
  · next l rs hpc =>
    cases hs
    have hquiet : Quiet s.k (setOwner l 0 s.k) := ⟨rfl, rfl, rfl, rfl, rfl, rfl, fun _ => rfl, fun _ => rfl⟩
    exact ⟨E, HolderInv.goOn (h.quiet hquiet (fun _ => memLocked_setOwner) h.current (List.Subset.refl _)) _ rfl⟩
  · next l rs hpc =>
    cases hs
    have hquiet : Quiet s.k (setOwner l s.k.currentThread s.k) :=
      ⟨rfl, rfl, rfl, rfl, rfl, rfl, fun _ => rfl, fun _ => rfl⟩
    exact ⟨E, HolderInv.goOn (h.quiet hquiet (fun _ => memLocked_setOwner) h.current (List.Subset.refl _)) _ rfl⟩
  · next l rs hpc =>
    cases hs
    have hframe : (linkWaiter l s.k).locks = s.k.locks ∧ (linkWaiter l s.k).kernelTimers = s.k.kernelTimers := by
      unfold linkWaiter
      split
      · exact ⟨rfl, rfl⟩
      · exact ⟨rfl, rfl⟩
    refine ⟨E, HolderInv.goOn (h.quiet (linkWaiter_quiet l s.k) (fun _ hj => hj.congr hframe.1) ?_ ?_) _ rfl⟩
    · rw [linkWaiter_currentThread]
      exact h.current
    · rw [hframe.2]
      exact List.Subset.refl _
  -- The thread puts itself to sleep, which leaves it alive.
  · next l rs hpc =>
    cases hs
    obtain ⟨E', h', -⟩ := h.moves (sleepThread_moves h.currentThread_mem) (by
      rintro m rfl l _
      trivial) (Frame.sleepThread s.k s.k.currentThread)
    exact ⟨E', HolderInv.goOn h' _ rfl⟩
  -- The steps of `reschedule`, between which anything can happen to the chosen thread.
  · next l rs hpc =>
    obtain ⟨⟨next, k'⟩, hpick, rfl⟩ := Option.map_eq_some_iff.mp hs
    exact ⟨E, h.pick (Outcome.toOption_eq_some.mp hpick)⟩
  · next l rs hpc =>
    cases hs
    exact ⟨E, h.charge hpc now⟩
  · next l rs hpc =>
    cases hs
    rw [hpc] at hok
    exact h.action hpc hok.2
  · next l rs hpc =>
    cases hs
    exact ⟨E, h.switch hpc⟩
  · next l rs hpc =>
    cases hs
    exact ⟨E, HolderInv.goOn h _ rfl⟩
  · next l rs hpc =>
    cases hs
    have hquiet : Quiet s.k (freeLock l s.k) := ⟨rfl, rfl, rfl, rfl, rfl, rfl, fun _ => rfl, fun _ => rfl⟩
    exact ⟨E, HolderInv.goOn (h.quiet hquiet (fun _ => memLocked_freeLock) h.current (List.Subset.refl _)) _ rfl⟩
  · next l rs hpc =>
    split at hs
    · cases hs
      exact ⟨E, HolderInv.goOn h _ rfl⟩
    · cases hs
      exact ⟨E, HolderInv.goOn h _ rfl⟩
  · next u l rs hpc =>
    cases hs
    have hquiet : Quiet s.k { s.k with waits := s.k.waits.listRemove (.waitq u) } :=
      ⟨rfl, rfl, rfl, rfl, rfl, rfl, fun _ => rfl, fun _ => rfl⟩
    exact ⟨E, HolderInv.goOn (h.quiet hquiet (fun _ hj => hj) h.current (List.Subset.refl _)) _ rfl⟩
  · next u l rs hpc =>
    cases hs
    rw [hpc] at hok
    obtain ⟨E', h', -⟩ := h.moves (wakeUpThread_moves hok) (by
      rintro m rfl l _
      exact fun _ => rfl) (Frame.wakeUpThread s.k u)
    refine ⟨E', HolderInv.goOn h' _ ?_⟩
    split
    · rfl
    · rfl

theorem HolderInv.step {ev : UserEvent} (h : HolderInv s E) (hok : HoldersSpared s ev)
    (hs : userStep ev s = some s') : ∃ E', HolderInv s' E' := by
  cases ev with
  | call c =>
    unfold userStep at hs
    dsimp only at hs
    split at hs
    · cases hs
      exact ⟨E, HolderInv.goOn h _ rfl⟩
    · cases hs
  | step now => exact h.next hok hs
  | tick now =>
    obtain ⟨k', hafter, rfl⟩ := Option.map_eq_some_iff.mp hs
    obtain ⟨next, hrun⟩ := after_eq_some.mp hafter
    exact h.tick hok hrun
  | sysKill pid signal =>
    cases hs
    unfold sysKill
    split
    · exact ⟨E, h⟩
    · next t _ =>
      exact ⟨E, h.quiet (Quiet.deliver s.k t signal) (fun _ hj => hj) h.current (List.Subset.refl _)⟩

end Invariant

section Uninterrupted
variable {s : LockUsers} {l next : ℕ} {rs : List Request} {k' : Machine}

abbrev OwnSteps : LockUsers → LockUsers → Prop := Runs.Steps userStep fun _ ev => ∃ now, ev = .step now

theorem OwnSteps.head {s s₁ s' : LockUsers} (now : ℕ) (h : userNext now s = some s₁) (hrest : OwnSteps s₁ s') :
    OwnSteps s s' := by
  have hone : Runs.Step userStep (fun _ ev => ∃ now, ev = .step now) s s₁ := ⟨.step now, ⟨now, rfl⟩, h⟩
  exact Relation.ReflTransGen.head hone hrest

theorem goTo_goTo (s : LockUsers) (t : ℕ) (k₁ k₂ : Machine) (pc₁ pc₂ : UserPc) :
    (s.goTo t k₁ pc₁).goTo t k₂ pc₂ = s.goTo t k₂ pc₂ := by
  simp [LockUsers.goTo]

theorem goTo_pc (s : LockUsers) (t : ℕ) (k : Machine) (pc : UserPc) : (s.goTo t k pc).pc t = pc :=
  Function.update_self ..

theorem ownSteps_signals (p : SignalProgram Bool) {t : ℕ} (ht : s.k.currentThread = t)
    (hpc : s.pc t = .signals next p l rs) : OwnSteps s (s.goTo t (p.run SignalAction.exec s.k).2
      (.signals next (.done (p.run SignalAction.exec s.k).1) l rs)) := by
  induction p generalizing s with
  | done b =>
    have hsame : s.goTo t s.k (.signals next (.done b) l rs) = s := by
      unfold LockUsers.goTo
      rw [← hpc, Function.update_eq_self]
    show OwnSteps s (s.goTo t s.k (.signals next (.done b) l rs))
    rw [hsame]
  | act a p ih =>
    have hone : userNext 0 s = some (s.goTo t (a.exec s.k) (.signals next (p s.k) l rs)) := by
      simp only [userNext, ht, hpc]
    have hrest := ih s.k (s := s.goTo t (a.exec s.k) (.signals next (p s.k) l rs))
      ((a.exec_frame s.k).currentThread.trans ht) (goTo_pc ..)
    rw [goTo_goTo] at hrest
    exact OwnSteps.head 0 hone hrest

/-- A turn of `reschedule` that nothing comes into is the `reschedule` of interrupts that are off. -/
theorem ownSteps_reschedule {now : ℕ} {switched : Bool} (hpc : s.pc s.k.currentThread = .resched l rs)
    (h : reschedule now s.k = .ok switched k') :
    OwnSteps s (s.goTo s.k.currentThread k' (if switched then .next (.getLock l :: rs) else .resched l rs)) := by
  obtain ⟨n, k₁, hpick, hret, hk'⟩ := reschedule_ok h
  generalize ht : s.k.currentThread = t at hpc ⊢
  have hcur : (chargeReschedule now n k₁).currentThread = t :=
    ((Frame.pickNextThread hpick).trans (Frame.chargeReschedule now n k₁)).currentThread.trans ht
  have hpicked : userNext now s = some (s.goTo t k₁ (.charge n l rs)) := by
    simp only [userNext, ht, hpc, hpick]
    rfl
  have hcharged : userNext now (s.goTo t k₁ (.charge n l rs)) =
      some (s.goTo t (chargeReschedule now n k₁) (.signals n (Preempted.handleSignals n) l rs)) := by
    have hcur₁ : (s.goTo t k₁ (.charge n l rs)).k.currentThread = t :=
      (Frame.pickNextThread hpick).currentThread.trans ht
    simp only [userNext, hcur₁, goTo_pc, goTo_goTo]
    rfl
  refine OwnSteps.head now hpicked (OwnSteps.head now hcharged ?_)
  have hsig := ownSteps_signals (s := s.goTo t (chargeReschedule now n k₁)
    (.signals n (Preempted.handleSignals n) l rs)) (Preempted.handleSignals n) hcur (goTo_pc ..)
  have hrun : (Preempted.handleSignals n).run SignalAction.exec (chargeReschedule now n k₁) =
      handleSignals n (chargeReschedule now n k₁) := run_handleSignals n _
  rw [goTo_goTo] at hsig
  change OwnSteps _ (s.goTo t ((Preempted.handleSignals n).run SignalAction.exec (chargeReschedule now n k₁)).2
    (.signals n (.done ((Preempted.handleSignals n).run SignalAction.exec (chargeReschedule now n k₁)).1) l rs))
    at hsig
  rw [hrun, ← hret] at hsig
  refine hsig.trans ?_
  have hcur₂ : (handleSignals n (chargeReschedule now n k₁)).2.currentThread = t :=
    (Frame.handleSignals _ n).currentThread.trans hcur
  refine OwnSteps.head now ?_ .refl
  cases switched with
  | true => simp only [userNext, LockUsers.goTo, hcur₂, hk', Function.update_self, Function.update_idem, if_true]
  | false => simp [userNext, LockUsers.goTo, hcur₂, hk']

end Uninterrupted

/-- The thread that has `kmem_lock` or `slab_lock` is neither stopped nor a zombie, and it is on the running
queue or asleep. -/
theorem holder_alive {s : LockUsers} (h : UsersReach HoldersSpared s) {l : ℕ} (hl : MemLocked s.k l) :
    (s.k.threads (s.holder l)).state.ko = false ∧
      (OnQueue s.k .running (s.holder l) ∨ OnQueue s.k .sleep (s.holder l)) := by
  obtain ⟨k₀, h₀, hrun⟩ := h
  have hstart : ∃ E, HolderInv ⟨k₀, fun _ => .next [], fun _ => 0⟩ E := by
    obtain ⟨E, hq, hd, hcur⟩ := h₀.queues
    refine ⟨E, hq, hd, ⟨.running, hcur⟩, h₀.timers, ?_, (fun t n hn => nomatch hn), fun t => trivial⟩
    rintro l ⟨rfl | rfl, hlocked⟩
    · rw [h₀.kmem] at hlocked
      cases hlocked
    · rw [h₀.slab] at hlocked
      cases hlocked
  obtain ⟨E, hi⟩ := hrun.invariant (I := fun s => ∃ E, HolderInv s E)
    (fun _ _ _ ⟨_, hi⟩ hok hs => hi.step hok hs) hstart
  rw [onQueue_iff hi.queues, onQueue_iff hi.queues]
  exact ⟨(hi.holders l hl).state, (hi.holders l hl).queue⟩

theorem fatherRuns_ready : UsersReady fatherRuns := by
  obtain ⟨E, hi⟩ := fatherRuns_reach.idleInv
  refine ⟨⟨E, hi.queues, fun t ht => ?_, hi.wellFormed.mem_of_links (n := 2) (by decide +kernel)⟩, ?_,
    by decide +kernel, by decide +kernel⟩
  · have hempty : E .stopped = [] := by
      have hnext := (hi.wellFormed.carries .stopped).next_head
      cases hs : E .stopped with
      | nil => rfl
      | cons u us =>
        rw [hs] at hnext
        exact absurd hnext (by
          show fatherRuns.queues.next (.queue .stopped) ≠ .head u
          have hself : fatherRuns.queues.next (.queue .stopped) = .queue .stopped := by decide +kernel
          rw [hself]
          exact fun e => nomatch e)
    rw [hempty] at ht
    cases ht
  · have hnone : fatherRuns.kernelTimers = [] := by decide +kernel
    rw [hnone]
    exact fun activeT h => nomatch h

def usersStart : LockUsers := ⟨fatherRuns, fun _ => .next [], fun _ => 0⟩

def sparedCheck (s : LockUsers) : UserEvent → Bool
  | .step _ =>
    match s.pc s.k.currentThread with
    | .next _ => !(s.k.threads s.k.currentThread).state.ko
    | .signals _ (.act a _) _ _ => decide (a.Intact s.k) && [kmemLock, slabLock].all fun l =>
        !(s.k.locks l).locked || decide (a.SparesThread (s.holder l) s.k)
    | .wake u _ _ => decide (u ∈ s.k.allocated)
    | _ => true
  | .tick _ => decide (¬ SigPending s.k.currentThread sigkill s.k)
  | _ => true

theorem sparedCheck_spec (s : LockUsers) (ev : UserEvent) (h : sparedCheck s ev = true) :
    HoldersSpared s ev := by
  cases ev with
  | call c => trivial
  | step now =>
    unfold sparedCheck at h
    unfold HoldersSpared
    dsimp only at h ⊢
    split
    · next l rs hpc =>
      rw [hpc] at h
      exact fun _ => (Bool.not_eq_true' _).mp h
    · next a p l rs hpc =>
      rw [hpc] at h
      dsimp only at h
      rw [Bool.and_eq_true, decide_eq_true_eq, List.all_eq_true] at h
      refine ⟨h.1, fun l hl => ?_⟩
      have hmem : l ∈ [kmemLock, slabLock] := by simpa using hl.1
      simpa [hl.2] using h.2 l hmem
    · next u l rs hpc =>
      rw [hpc] at h
      exact of_decide_eq_true h
    · trivial
  | tick now =>
    have hsilent := of_decide_eq_true h
    rintro l - ⟨hcur, ⟨hpending, -⟩, -⟩
    refine hsilent ?_
    unfold SigPending at hpending ⊢
    rwa [← hcur, keeps_timersRun (f := Thread.signals) (fun _ _ => rfl) s.k s.k.currentThread] at hpending
  | sysKill pid signal => trivial

def tiredFather : Machine := fatherRuns.modify 0x3000 fun p => { p with timeslice := 0, runtime := 1 }

theorem tiredFather_ready : UsersReady tiredFather := by
  have hquiet : Quiet fatherRuns tiredFather := Quiet.modify _ _ _ (fun _ => rfl) fun _ => rfl
  obtain ⟨E, hq, hd, hcur⟩ := fatherRuns_ready.queues
  exact ⟨⟨E, hq.quiet hquiet, hd.quiet hquiet, hcur⟩, fatherRuns_ready.timers, fatherRuns_ready.kmem,
    fatherRuns_ready.slab⟩

/-- The father gets `kmem_lock` and is preempted; its child finds the lock locked, goes to sleep, and sees to a
`SIGCKO` of the father in `reschedule`, where a timer interrupt comes too. -/
def contendedEvents : List UserEvent :=
  [.call .kallocPage, .step 100, .step 100, .tick 150, .call .kallocPage, .step 151, .step 151, .step 151,
    .sysKill 2 sigcko, .step 151, .step 152] ++ List.replicate 15 (.step 153) ++ [.tick 154] ++
    List.replicate 30 (.step 155)

def contended : LockUsers :=
  (Runs.runList userStep sparedCheck contendedEvents ⟨tiredFather, fun _ => .next [], fun _ => 0⟩).getD usersStart

theorem holder_alive_page : contended.k.currentThread = contended.holder kmemLock ∧
    (contended.k.threads (contended.holder kmemLock)).state.ko = false := by
  have hrun : Runs.runList userStep sparedCheck contendedEvents ⟨tiredFather, fun _ => .next [], fun _ => 0⟩ =
      some contended := Runs.runList_getD (by decide +kernel)
  have hreach : UsersReach HoldersSpared contended :=
    ⟨_, tiredFather_ready, Runs.runList_steps sparedCheck_spec hrun⟩
  have hlocked : MemLocked contended.k kmemLock := ⟨.inl rfl, by decide +kernel⟩
  exact ⟨by decide +kernel, (holder_alive hreach hlocked).1⟩

/-- It is then sent `SIGKILL`, and a timer interrupt comes. -/
def killedHolder : LockUsers :=
  (Runs.runList userStep (fun _ _ => true) [.call .kallocPage, .step 0, .sysKill 2 sigkill, .tick 200]
    usersStart).getD usersStart

/-- The thread that has `kmem_lock` is stopped. -/
theorem dead_holder : UsersReach (fun _ _ => True) killedHolder ∧ MemLocked killedHolder.k kmemLock ∧
    killedHolder.holder kmemLock = 0x3000 ∧ (killedHolder.k.threads 0x3000).state = .stopped := by
  have hrun : Runs.runList userStep (fun _ _ => true)
      [.call .kallocPage, .step 0, .sysKill 2 sigkill, .tick 200] usersStart = some killedHolder :=
    Runs.runList_getD (by decide +kernel)
  exact ⟨⟨_, fatherRuns_ready, Runs.runList_steps (fun _ _ _ => trivial) hrun⟩,
    ⟨.inl rfl, by decide +kernel⟩, by decide +kernel, by decide +kernel⟩

end X86Osdev.Lock

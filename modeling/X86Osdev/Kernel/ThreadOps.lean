import X86Osdev.Kernel.Scheduler
import X86Osdev.Lock.Lock
import X86Osdev.Proc.QueueInvariant

/-! Runs of the operations on threads from the start of the kernel, and the moves each operation makes. -/

namespace X86Osdev.Kernel
open CircularList X86Osdev.Mem X86Osdev.Proc X86Osdev.Lock

def maxPriority : ℕ := 0

def minPriority : ℕ := 20

def ticksToMillis (tickCount : ℕ) : ℕ := u32 (u64 (1000 * tickCount) / rtcFreq)

/-- `init_kernel_proc`: `kmalloc` returns `t` for `init_thread`. -/
def initKernelProc (t w e : ℕ) (k : Machine) : Machine :=
  let k := { k with
    queues := ((k.queues.listInit (.queue .sleep)).listInit (.queue .running)).listInit (.queue .stopped)
    kThreads := []
    kernelTimers := []
    tickCount := 0
    currentThread := 0
    idleThread := 0
    nextPid := idlePid
    allocated := [] }
  let k := createThread t w e k
  let k := { k with initThread := t }
  let k := k.modify t fun p => { p with
    nice := maxPriority
    pid := 1
    timeslice := ticksToMillis maxQuantumMs
    father := t }
  wakeUpThread t { k with nextPid := 2 }

/-- `init` up to the creation of the other threads: `kmalloc` returns `t` for `idle_thread`. -/
def initIdle (t w e : ℕ) (k : Machine) : Machine :=
  let k := createThread t w e k
  let k := { k with idleThread := t }
  let k := k.modify t fun p => { p with
    pid := idlePid
    nice := minPriority
    timeslice := ticksToMillis minQuantumMs
    runtime := 2 ^ 64 - 1 }
  { k with nextPid := 2 }

/-- Operations on threads. The calls of `current_thread` that switch in their middle come in two parts;
`overwrite` is any use of memory that holds no `Thread`. -/
inductive ThreadOp where
  | create (t w e : ℕ)
  | overwrite (t : ℕ) (p : Thread) (next prev : QueueNode)
  | wakeUp (t : ℕ)
  | sleep (t : ℕ)
  | stop (t : ℕ)
  | childAwoken (pid : ℕ)
  | kill (t : ℕ)
  | exit (retCode : ℕ)
  | sysKill (pid signal : ℕ)
  | wait4 (pid : ℕ)
  | wait4Done (p : ℕ)
  | wait4all
  | wait4allDone
  | sleepMs (ms : ℕ)
  | signals (t : ℕ)
  | timers
  | reschedule (now : ℕ)
  | tick (now : ℕ)
  | exterminate
  | getLock (l : ℕ)
  | unlock (l : ℕ)

def after {α : Type} : Outcome Machine α → Option Machine
  | .ok _ k => some k
  | .panic _ _ => none
  | .hang _ => none

theorem after_eq_some {α : Type} {r : Outcome Machine α} {k' : Machine} :
    after r = some k' ↔ ∃ a, r = .ok a k' := by
  cases r with
  | ok a k => simp [after]
  | panic msg k => simp [after]
  | hang k => simp [after]

def overwrite (t : ℕ) (p : Thread) (next prev : QueueNode) (k : Machine) : Machine :=
  { k with
    threads := Function.update k.threads t p
    queues := (k.queues.setNext (.head t) next).setPrev (.head t) prev }

theorem overwrite_threads {t u : ℕ} (hu : u ≠ t) (p : Thread) (next prev : QueueNode) (k : Machine) :
    (overwrite t p next prev k).threads u = k.threads u := by
  dsimp only [overwrite]
  rw [Function.update_of_ne hu]

def exec : ThreadOp → Machine → Option Machine
  | .create t w e, k => some (createThread t w e k)
  | .overwrite t p next prev, k => some (overwrite t p next prev k)
  | .wakeUp t, k => some (wakeUpThread t k)
  | .sleep t, k => some (sleepThread t k)
  | .stop t, k => some (stopThread t k)
  | .childAwoken pid, k => some (childAwoken pid k)
  | .kill t, k => some (killProcess t k)
  | .exit retCode, k => some (sysExit retCode k)
  | .sysKill pid signal, k => some (sysKill pid signal k)
  | .wait4 pid, k => some (sysWait4 pid k).2
  | .wait4Done p, k => some (sysWait4Done p k).2
  | .wait4all, k => some (sysWait4all k).2
  | .wait4allDone, k => some (sysWait4allDone k)
  | .sleepMs ms, k => some (sleepMs ms k)
  | .signals t, k => some (handleSignals t k).2
  | .timers, k => some (wakeUpTimers k)
  | .reschedule now, k => after (reschedule now k)
  | .tick now, k => after (schedulerHandler now k)
  | .exterminate, k => Proc.exterminate k
  | .getLock l, k => some (getLock l k).2
  | .unlock l, k => unlock l k

/-- The operation refers only to threads that are not reaped; a new one gets memory of its own. -/
def Refers (k : Machine) : ThreadOp → Prop
  | .create t _ _ => t ∉ k.allocated ∧ t ≠ 0 ∧ t < 2 ^ 32
  | .overwrite t _ _ _ => t ∉ k.allocated
  | .wakeUp t | .sleep t | .stop t | .kill t | .signals t => t ∈ k.allocated
  | .wait4Done p => p ∈ k.allocated ∧ k.currentThread ∈ k.allocated
  | .childAwoken _ | .sysKill _ _ | .exterminate => True
  | .exit _ | .wait4 _ | .wait4all | .wait4allDone | .sleepMs _ | .reschedule _ | .getLock _ =>
    k.currentThread ∈ k.allocated
  | .timers => ∀ activeT ∈ k.kernelTimers, activeT.thread ∈ k.allocated
  | .tick _ => (k.currentThread = 0 ∨ k.currentThread ∈ k.allocated) ∧
    ∀ activeT ∈ k.kernelTimers, activeT.thread ∈ k.allocated
  | .unlock l => ∀ t ∈ takenBy l k, t ∈ k.allocated

/-- The relinking that a timer may cause at the time of `k`. -/
def TimerMove (k : Machine) (m : Move) : Prop :=
  ∃ activeT ∈ k.kernelTimers, activeT.expiration ≤ k.tickCount ∧ m = .wake activeT.thread .runnable

/-- What an operation may do to the queues, told from the state it is called in. -/
def OpMove (k : Machine) (m : Move) : ThreadOp → Prop
  | .create _ _ _ | .overwrite _ _ _ _ | .sysKill _ _ | .exterminate => False
  | .wakeUp t => m = .wake t .runnable
  | .sleep t => m = .sleep t
  | .stop t => m = .stop t
  | .childAwoken pid => ∃ f, getThread pid k = some f ∧ m = .wake f (k.threads f).state
  | .kill t => m = .stop t ∨ ∃ f, awoken t k = some f ∧ m = .wake f (stateStopped t k f)
  | .exit _ => m = .stop k.currentThread ∨
    ∃ f, awoken k.currentThread k = some f ∧ m = .wake f (stateStopped k.currentThread k f)
  | .wait4 pid => ∃ p, getThread pid k = some p ∧
    (((k.threads p).state.ko = true ∧ (m = .bury p ∨ m = .wake k.currentThread .runnable)) ∨
      ((k.threads p).state.ko = false ∧ m = .sleep k.currentThread))
  | .wait4Done p => m = .bury p ∨ m = .wake k.currentThread .runnable
  | .wait4all => ((k.threads k.currentThread).children.all (fun p1 => (k.threads p1).state.ko) = true ∧
      ∃ c ∈ (k.threads k.currentThread).children, (k.threads c).state = .stopped ∧ m = .bury c) ∨
    (m = .sleep k.currentThread ∧
      ∃ c ∈ (k.threads k.currentThread).children, (k.threads c).state.ko = false)
  | .wait4allDone =>
    ∃ c ∈ (k.threads k.currentThread).children, (k.threads c).state = .stopped ∧ m = .bury c
  | .sleepMs _ => m = .sleep k.currentThread
  | .signals t => SignalMove t k m
  | .timers => TimerMove k m
  | .reschedule _ => ∃ next k', pickNextThread k = .ok next k' ∧ SignalMove next k m
  | .tick now => TimerMove { k with tickCount := u64 (k.tickCount + 1) } m ∨
    (k.currentThread ≠ 0 ∧ SignalMove k.currentThread (timersRun k) m ∧
      ∃ k', schedulerHandler now k = .ok none k')
  | .getLock l => (k.locks l).locked = true ∧ m = .sleep k.currentThread
  | .unlock l => ∃ t ∈ takenBy l k, m = .wake t .runnable

/-- A thread that the operation may take out of a queue or put into one. -/
def Moved (k : Machine) (op : ThreadOp) (t : ℕ) : Prop :=
  (∃ m, OpMove k m op ∧ m.relinks t) ∨ (op = .exterminate ∧ (k.threads t).state = .zombie)

end X86Osdev.Kernel

import X86Osdev.Library.LinkedQueues
import X86Osdev.Library.Outcome
import X86Osdev.Mem.Boot
import Mathlib.Data.Nat.Bitwise

/-! Threads, their queues and their signals: proc/thread.c and kernel/signals.c. The scheduling queues are
linked lists; the list of all threads, the children of a thread and the timers are sequences. -/

namespace X86Osdev.Proc
open CircularList X86Osdev.Mem

inductive TaskState where
  | runnable
  | uninterruptible
  | interruptible
  | zombie
  | stopped
deriving DecidableEq

/-- `TASK_STOPPED` or `TASK_ZOMBIE`. -/
def TaskState.ko : TaskState → Bool
  | .zombie | .stopped => true
  | _ => false

inductive Queue where
  | running
  | sleep
  | stopped
deriving DecidableEq

/-- The `List` nodes of the scheduling queues: the queue itself or the `head` of a thread. -/
inductive QueueNode where
  | queue (q : Queue)
  | head (t : ℕ)
deriving DecidableEq

/-- The `List` nodes of wait queues: `threads_waiting` of a lock or the `waitq` of a thread. -/
inductive WaitNode where
  | threadsWaiting (l : ℕ)
  | waitq (t : ℕ)
deriving DecidableEq

structure Signals where
  pending : ℕ
  active : ℕ
deriving DecidableEq

structure Thread where
  state : TaskState
  pid : ℕ
  signals : Signals
  nice : ℕ
  runtime : ℕ
  lastActivation : ℕ
  timeslice : ℕ
  waitFlags : ℕ
  father : ℕ
  children : List ℕ
  wait4child : Bool
  wait4 : ℕ
  exitValue : ℕ
deriving DecidableEq

structure Timer where
  expiration : ℕ
  thread : ℕ
deriving DecidableEq

structure Lock where
  locked : Bool
  owner : ℕ
deriving DecidableEq

/-- Threads and locks are named by their addresses; `NULL` is 0. `allocated` are the `Thread`
structures that `kmalloc` has handed out and `reap` has not given back. -/
structure Machine where
  queues : Links QueueNode
  waits : Links WaitNode
  threads : ℕ → Thread
  locks : ℕ → Lock
  kThreads : List ℕ
  kernelTimers : List Timer
  tickCount : ℕ
  currentThread : ℕ
  idleThread : ℕ
  initThread : ℕ
  nextPid : ℕ
  allocated : List ℕ

def idlePid : ℕ := 0

def u16 (n : ℕ) : ℕ := n % 2 ^ 16

def allSignals : ℕ := 2 ^ 32 - 1

def sigkill : ℕ := 1 <<< 9

def sigcko : ℕ := 1 <<< 10

namespace Machine

def modify (t : ℕ) (f : Thread → Thread) (k : Machine) : Machine :=
  { k with threads := Function.update k.threads t (f (k.threads t)) }

def setState (t : ℕ) (s : TaskState) (k : Machine) : Machine :=
  k.modify t fun p => { p with state := s }

/-- `list_remove(&p->head)` and `list_add_head` on a queue. -/
def toHead (q : Queue) (t : ℕ) (k : Machine) : Machine :=
  { k with queues := (k.queues.listRemove (.head t)).listAddHead (.queue q) (.head t) }

def toTail (q : Queue) (t : ℕ) (k : Machine) : Machine :=
  { k with queues := (k.queues.listRemove (.head t)).listAddTail (.queue q) (.head t) }

/-- `t->signals.pending |= (t->signals.active & signal)`. -/
def deliver (t signal : ℕ) (k : Machine) : Machine :=
  k.modify t fun p =>
    { p with signals := { p.signals with pending := p.signals.pending ||| p.signals.active &&& signal } }

/-- `list_remove(&p->siblings)`. -/
def removeSibling (c : ℕ) (k : Machine) : Machine :=
  { k with threads := fun t => { k.threads t with children := (k.threads t).children.erase c } }

end Machine

/-! ## proc/thread.c -/

def getThread (pid : ℕ) (k : Machine) : Option ℕ :=
  k.kThreads.find? fun t => (k.threads t).pid == pid

/-- The body of the loop of `reparent`; the adopter is always `init_thread`. -/
def adopt (k : Machine) (p1 : ℕ) : Machine :=
  let k := k.removeSibling p1
  let k := k.modify p1 fun p => { p with father := k.initThread }
  k.modify k.initThread fun p => { p with children := p1 :: p.children }

/-- `reparent(adopter, &p->children)`. -/
def reparent (p : ℕ) (k : Machine) : Machine := (k.threads p).children.foldl adopt k

def stopThread (p : ℕ) (k : Machine) : Machine :=
  if (k.threads p).pid = idlePid then k
  else (k.setState p .stopped).toHead .stopped p

def sleepThread (p : ℕ) (k : Machine) : Machine :=
  if (k.threads p).pid = idlePid then k
  else (k.setState p .interruptible).toHead .sleep p

def wakeUpThread (p : ℕ) (k : Machine) : Machine := (k.setState p .runnable).toTail .running p

/-- `child_awoken` of kernel/signals.c. -/
def childAwoken (pid : ℕ) (k : Machine) : Machine :=
  match getThread pid k with
  | none => k
  | some t =>
    let k := k.deliver t sigcko
    let prevState := (k.threads t).state
    (wakeUpThread t k).setState t prevState

/-- The loop of `kill_process`: the first timer of a thread with that pid is freed. -/
def dropTimer (p : ℕ) (k : Machine) : Machine :=
  { k with kernelTimers :=
      k.kernelTimers.eraseP fun activeT => (k.threads activeT.thread).pid == (k.threads p).pid }

def killProcess (p : ℕ) (k : Machine) : Machine :=
  if (k.threads p).pid = idlePid then k
  else
    let k := dropTimer p (stopThread p k)
    childAwoken (k.threads (k.threads p).father).pid k

/-- What the creating functions write to the new `Thread`; `wait4` and `exit_value` keep what that memory
held. -/
def newThread (staleWait4 staleExit : ℕ) (k : Machine) : Thread where
  state := .runnable
  pid := u16 k.nextPid
  signals := ⟨0, allSignals⟩
  nice := 0
  runtime := 0
  lastActivation := 0
  timeslice := 0
  waitFlags := 1
  father := k.currentThread
  children := []
  wait4child := false
  wait4 := staleWait4
  exitValue := staleExit

/-- `create_kernel_thread` and `create_user_thread` as far as threads are concerned, up to the list of
children; `t` is the address that `kmalloc` returned. -/
def addThread (t staleWait4 staleExit : ℕ) (k : Machine) : Machine :=
  { k with
    threads := Function.update k.threads t (newThread staleWait4 staleExit k)
    nextPid := u32 (k.nextPid + 1)
    queues := k.queues.listInit (.head t)
    waits := k.waits.listInit (.waitq t)
    kThreads := t :: k.kThreads
    allocated := t :: k.allocated }

def createThread (t staleWait4 staleExit : ℕ) (k : Machine) : Machine :=
  let k := addThread t staleWait4 staleExit k
  if k.currentThread = 0 then k
  else k.modify k.currentThread fun p => { p with children := t :: p.children }

/-! ## kernel/signals.c -/

def sysKill (pid signal : ℕ) (k : Machine) : Machine :=
  match getThread pid k with
  | none => k
  | some t => k.deliver t signal

/-- `1 << i` with the shift count of the processor, five bits. -/
def signalBit (i : ℕ) : ℕ := 1 <<< (i % 32)

/-- The first loop over the children: `all_ko`, `wait4pid` and the state. -/
def scanChild (t : ℕ) (r : Bool × Bool × Machine) (p1 : ℕ) : Bool × Bool × Machine :=
  let (allKo, wait4pid, k) := r
  let ko := (k.threads p1).state.ko
  if (k.threads t).wait4 = (k.threads p1).pid ∧ ko = true then (allKo && ko, true, reparent p1 k)
  else (allKo && ko, wait4pid, k)

/-- The last loop over the children. -/
def buryChild (k : Machine) (p1 : ℕ) : Machine :=
  if (k.threads p1).state = .stopped then (reparent p1 k).setState p1 .zombie else k

def handleSigcko (t : ℕ) (ret : Bool) (k : Machine) : Bool × Machine :=
  let (allKo, wait4pid, k) := (k.threads t).children.foldl (scanChild t) (true, false, k)
  let wait4child := (k.threads t).wait4child
  let k :=
    if wait4child && allKo then (k.threads t).children.foldl (fun k p1 => reparent p1 k) k else k
  let (ret, k) := if wait4child && !allKo then (false, sleepThread t k) else (ret, k)
  if !wait4child && !wait4pid then
    let k := (k.threads t).children.foldl buryChild k
    if (k.threads t).state = .interruptible then (false, sleepThread t k) else (ret, k)
  else (ret, k)

def handleSignal (t : ℕ) (r : Bool × Machine) (i : ℕ) : Bool × Machine :=
  let (ret, k) := r
  let sigs := (k.threads t).signals
  if sigs.pending &&& sigs.active &&& signalBit i = 0 then (ret, k)
  else
    let k := k.modify t fun p => { p with signals :=
      { p.signals with pending := p.signals.pending &&& (2 ^ 32 - 1 - signalBit i) } }
    if signalBit i = sigkill then
      (false, (killProcess t k).modify t fun p => { p with exitValue := 0 })
    else if signalBit i = sigcko then handleSigcko t ret k
    else (ret, k)

def handleSignals (t : ℕ) (k : Machine) : Bool × Machine :=
  if t = 0 then (true, k)
  else if (k.threads t).signals.pending = 0 then (true, k)
  else (List.range' 1 32).foldl (handleSignal t) (true, k)

def rtcFreq : ℕ := 32768 >>> (5 - 1)

def millisToTicks (millis : ℕ) : ℕ := u32 (millis * rtcFreq) / 1000

/-- `sleep_ms` up to the call of `reschedule`. -/
def sleepMs (ms : ℕ) (k : Machine) : Machine :=
  let t : Timer := ⟨u32 (millisToTicks ms + k.tickCount), k.currentThread⟩
  sleepThread k.currentThread { k with kernelTimers := t :: k.kernelTimers }

/-- The body of the loop of `wake_up_timers`, which relinks the thread itself. -/
def wakeTimer (k : Machine) (activeT : Timer) : Machine :=
  if k.tickCount ≥ activeT.expiration then
    let k := { k with kernelTimers := k.kernelTimers.erase activeT }
    (k.setState activeT.thread .runnable).toTail .running activeT.thread
  else k

def wakeUpTimers (k : Machine) : Machine := k.kernelTimers.foldl wakeTimer k

/-! ## bin/kswap.c -/

/-- `reap` as far as threads are concerned. The node `p->children` is unlinked too: what is left of the
list of children is a list without a head. -/
def reap (p : ℕ) (k : Machine) : Machine :=
  let k := { k with
    kThreads := k.kThreads.erase p
    queues := k.queues.listRemove (.head p) }
  let k := k.removeSibling p
  { k with allocated := k.allocated.erase p }

def threadOf : QueueNode → ℕ
  | .queue _ => 0
  | .head t => t

/-- The body of the loop of `exterminate`, with its second `list_remove`. -/
def exterminateOne (n : QueueNode) (k : Machine) : Machine :=
  let doMe := threadOf n
  if (k.threads doMe).state ≠ .zombie then k
  else
    let k := reap doMe k
    { k with queues := k.queues.listRemove (.head doMe) }

/-- A list takes at most as many turns as there are addresses. -/
@[irreducible] def listFuel : ℕ := 2 ^ 32

/-- One pass of `exterminate` over `stopped_queue`, before it goes to sleep again. -/
def exterminate (k : Machine) : Option Machine :=
  let pos := k.queues.next (.queue .stopped)
  forEachSafe (fun k n => k.queues.next n) exterminateOne (.queue .stopped) listFuel pos
    (k.queues.next pos) k

end X86Osdev.Proc

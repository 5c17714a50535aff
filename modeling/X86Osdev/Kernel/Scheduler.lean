import X86Osdev.Proc.Thread

/-! kernel/scheduler.c, the timer interrupt of drivers/timer.c and the system calls that stop or wake
threads. A call that switches to another thread in its middle is one operation for each part. -/

namespace X86Osdev.Kernel
open CircularList X86Osdev.Mem X86Osdev.Proc

def maxQuantumMs : ℕ := 200

def minQuantumMs : ℕ := 1

def pPenalty : ℕ := 5

def u64 (n : ℕ) : ℕ := n % 2 ^ 64

/-- The conversion of a `u32` to `int`. -/
def toInt (n : ℕ) : ℤ := if n < 2 ^ 31 then n else (n : ℤ) - 2 ^ 32

/-- The variables of `pick_next_thread`; `next` is `NULL` until a thread is met. -/
structure Pick where
  procNum : ℕ
  pTot : ℕ
  next : ℕ
  minRuntime : ℕ

/-- The body of the loop of `pick_next_thread`. -/
def pickStep (k : Machine) (r : Pick) (l : QueueNode) : Pick :=
  let p := threadOf l
  let r :=
    if r.procNum = 0 ∨ (k.threads p).runtime < r.minRuntime then
      { r with minRuntime := (k.threads p).runtime, next := p }
    else r
  { r with pTot := u32 (r.pTot + (k.threads p).nice), procNum := u32 (r.procNum + 1) }

def timesliceOf (r : Pick) (nice : ℕ) : ℕ :=
  let pAvg := r.pTot / r.procNum
  let penalty : ℤ := (toInt pAvg - toInt nice) * pPenalty
  let q : ℤ := toInt (maxQuantumMs / r.procNum) + penalty
  if q ≤ 0 then millisToTicks minQuantumMs else millisToTicks (q % 2 ^ 32).toNat

/-- A division by zero and an access through `NULL` halt the machine. -/
def pickNextThread (k : Machine) : Outcome Machine ℕ :=
  match forEach k.queues (pickStep k) (.queue .running) listFuel (k.queues.next (.queue .running))
    ⟨0, 0, 0, 0⟩ with
  | none => .hang k
  | some r =>
    if r.procNum = 0 then .panic "Division By Zero" k
    else if r.next = 0 then .panic "Page Fault" k
    else .ok r.next (k.modify r.next fun p => { p with timeslice := timesliceOf r p.nice })

/-- `_switch_to_thread`, as far as the scheduler can tell. -/
def switchToThread (next : ℕ) (k : Machine) : Machine := { k with currentThread := next }

/-- The accounting of `reschedule`; `now` is the time stamp counter. -/
def chargeReschedule (now next : ℕ) (k : Machine) : Machine :=
  let k := k.modify next fun p => { p with lastActivation := now }
  if k.currentThread ≠ k.idleThread then
    k.modify k.currentThread fun p => { p with
      runtime := u64 (p.runtime + (now + (2 ^ 64 - p.lastActivation)))
      timeslice := u32 (p.timeslice + (2 ^ 32 - 1)) }
  else k

/-- One turn of `reschedule`: it calls itself again when `handle_signals` returns `FALSE`. -/
def reschedule (now : ℕ) (k : Machine) : Outcome Machine Bool :=
  (pickNextThread k).bind fun next k =>
    let (ret, k) := handleSignals next (chargeReschedule now next k)
    if ret then .ok true (switchToThread next k) else .ok false k

/-- The end of `scheduler_handler`, `no_resched`. -/
def noResched (now : ℕ) (k : Machine) : Machine :=
  let k :=
    if k.currentThread ≠ k.idleThread then
      k.modify k.currentThread fun p => { p with
        runtime := u64 (p.runtime + (now + (2 ^ 64 - p.lastActivation))) }
    else k
  let k := k.modify k.currentThread fun p => { p with
    lastActivation := now, timeslice := p.timeslice - 1 }
  (handleSignals k.currentThread k).2

/-- The start of `scheduler_handler`. -/
def timersRun (k : Machine) : Machine := wakeUpTimers { k with tickCount := u64 (k.tickCount + 1) }

/-- The accounting of `scheduler_handler` before it switches. -/
def chargeSwitch (now nextThread : ℕ) (k : Machine) : Machine :=
  let k := k.modify nextThread fun p => { p with timeslice := p.timeslice - 1, lastActivation := now }
  if k.currentThread ≠ 0 ∧ k.currentThread ≠ k.idleThread then
    k.modify k.currentThread fun p => { p with
      runtime := u64 (p.runtime + (now + (2 ^ 64 - p.lastActivation))) }
  else k

/-- `scheduler_handler`; it returns the thread that it switches to. -/
def schedulerHandler (now : ℕ) (k : Machine) : Outcome Machine (Option ℕ) :=
  let k := timersRun k
  if k.currentThread ≠ 0 ∧ (k.threads k.currentThread).timeslice > 0 then .ok none (noResched now k)
  else
    (pickNextThread k).bind fun nextThread k =>
      if k.currentThread = nextThread then .ok none (noResched now k)
      else .ok (some nextThread) (switchToThread nextThread (chargeSwitch now nextThread k))

/-! ## kernel/syscall.c -/

/-- `sys_exit` up to `reschedule`. -/
def sysExit (retCode : ℕ) (k : Machine) : Machine :=
  (killProcess k.currentThread k).modify k.currentThread fun p => { p with exitValue := retCode }

/-- `done` of `sys_wait4`, with the returned value. -/
def sysWait4Done (p : ℕ) (k : Machine) : ℕ × Machine :=
  let k := k.modify k.currentThread fun t => { t with wait4 := 0 }
  let k := k.setState p .zombie
  let k := wakeUpThread k.currentThread k
  ((k.threads p).exitValue, k)

/-- What `sys_wait4` comes to: the returned value, or the thread that it waits for when it calls
`reschedule`. -/
def sysWait4 (pid : ℕ) (k : Machine) : (ℕ ⊕ ℕ) × Machine :=
  match getThread pid k with
  | none => (.inl (2 ^ 32 - 1), k)
  | some p =>
    if (k.threads p).state.ko then
      let (ret, k) := sysWait4Done p k
      (.inl ret, k)
    else
      let k := k.modify k.currentThread fun t => { t with wait4 := pid }
      (.inr p, sleepThread k.currentThread k)

/-- The body of the loop of `done` of `sys_wait4all`. -/
def buryStopped (k : Machine) (p1 : ℕ) : Machine :=
  if (k.threads p1).state = .stopped then k.setState p1 .zombie else k

/-- `done` of `sys_wait4all`. -/
def sysWait4allDone (k : Machine) : Machine :=
  let k := k.modify k.currentThread fun t => { t with wait4child := false }
  (k.threads k.currentThread).children.foldl buryStopped k

/-- The flag tells whether `sys_wait4all` calls `reschedule`. -/
def sysWait4all (k : Machine) : Bool × Machine :=
  if (k.threads k.currentThread).children.all fun p1 => (k.threads p1).state.ko then
    (false, sysWait4allDone k)
  else
    let k := k.modify k.currentThread fun t => { t with wait4child := true }
    (true, sleepThread k.currentThread k)

end X86Osdev.Kernel

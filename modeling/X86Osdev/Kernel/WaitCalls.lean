import X86Osdev.Kernel.RunQueue
import X86Osdev.Kernel.SignalFrame
import X86Osdev.Library.Runs
import X86Osdev.Proc.FatherSignals

/-! `sys_exit`, `sys_wait4` and `sys_wait4all` step by step, with timer interrupts and the exterminator
between any two steps. -/

namespace X86Osdev.Kernel
open CircularList X86Osdev.Mem X86Osdev.Proc

/-- What a call waits for: the thread `p` that `get_thread(pid)` returned, or all children. -/
inductive Wait where
  | child (pid p : ℕ)
  | all
deriving DecidableEq

/-- Where a call that waits is: looking at the states of `rest`, before it records what it waits for,
before `sleep_thread`, at `reschedule` and when `reschedule` has switched away; then at `done` before the
record is cleared, making zombies of `rest`, before `wake_up_thread` and before it reads the exit value. -/
inductive Phase where
  | check (rest : List ℕ)
  | record
  | sleep
  | resched
  | away
  | clear
  | bury (rest : List ℕ)
  | wake
  | read
deriving DecidableEq

/-- Where a thread is; in `sys_exit`: before `child_awoken`, before it stores the exit value, at
`reschedule` and when `reschedule` has switched away. -/
inductive CallPc where
  | outside
  | returned (pid value : ℕ)
  | exitAwake (retCode : ℕ)
  | exitStore (retCode : ℕ)
  | exitResched (retCode : ℕ)
  | exited (retCode : ℕ)
  | wait (w : Wait) (ph : Phase)
deriving DecidableEq

inductive CallEvent where
  | exit (retCode : ℕ)
  | wait4 (pid : ℕ)
  | wait4all
  | step (now : ℕ)
  | tick (now : ℕ)
  | exterminate

structure CallRun where
  k : Machine
  pc : ℕ → CallPc

namespace Wait

def set : Wait → Thread → Thread
  | .child pid _, t => { t with wait4 := pid }
  | .all, t => { t with wait4child := true }

def reset : Wait → Thread → Thread
  | .child _ _, t => { t with wait4 := 0 }
  | .all, t => { t with wait4child := false }

def awaited (f : ℕ) (k : Machine) : Wait → List ℕ
  | .child _ p => [p]
  | .all => (k.threads f).children

def bury : Wait → Machine → ℕ → Machine
  | .child _ _, k, p => k.setState p .zombie
  | .all, k, p1 => buryStopped k p1

def buried : Wait → CallPc
  | .child pid p => .wait (.child pid p) .wake
  | .all => .outside

theorem set_keeps {α : Type*} {g : Thread → α} (hpid : ∀ p n, g { p with wait4 := n } = g p)
    (hall : ∀ p b, g { p with wait4child := b } = g p) (w : Wait) (p : Thread) : g (w.set p) = g p := by
  cases w with
  | child pid q => exact hpid p pid
  | all => exact hall p true

theorem reset_keeps {α : Type*} {g : Thread → α} (hpid : ∀ p n, g { p with wait4 := n } = g p)
    (hall : ∀ p b, g { p with wait4child := b } = g p) (w : Wait) (p : Thread) : g (w.reset p) = g p := by
  cases w with
  | child pid q => exact hpid p 0
  | all => exact hall p false

end Wait

namespace CallPc

def free : CallPc → Bool
  | .outside | .returned _ _ => true
  | _ => false

end CallPc

namespace CallRun

def goTo (s : CallRun) (t : ℕ) (k : Machine) (pc : CallPc) : CallRun :=
  ⟨k, Function.update s.pc t pc⟩

def resched (s : CallRun) (now : ℕ) (pc : CallPc) : Option CallRun :=
  match reschedule now s.k with
  | .ok true k => some (s.goTo s.k.currentThread k pc)
  | .ok false k => some ⟨k, s.pc⟩
  | .panic _ _ => none
  | .hang _ => none

/-- `sys_exit` up to `child_awoken`. -/
def exit (s : CallRun) (retCode : ℕ) : CallRun :=
  let t := s.k.currentThread
  if (s.k.threads t).pid = idlePid then s.goTo t s.k (.exitStore retCode)
  else s.goTo t (dropTimer t (stopThread t s.k)) (.exitAwake retCode)

/-- `get_thread` of `sys_wait4`. -/
def find (s : CallRun) (pid : ℕ) : CallPc :=
  match getThread pid s.k with
  | none => .returned pid (2 ^ 32 - 1)
  | some p => .wait (.child pid p) (.check [p])

end CallRun

/-- The next step of `current_thread` in a call that waits. -/
def waitNext (now : ℕ) (w : Wait) (ph : Phase) (s : CallRun) : Option CallRun :=
  let t := s.k.currentThread
  match ph with
  | .check [] => some (s.goTo t s.k (.wait w .clear))
  | .check (p1 :: rest) =>
    if (s.k.threads p1).state.ko then some (s.goTo t s.k (.wait w (.check rest)))
    else some (s.goTo t s.k (.wait w .record))
  | .record => some (s.goTo t (s.k.modify t w.set) (.wait w .sleep))
  | .sleep => some (s.goTo t (sleepThread t s.k) (.wait w .resched))
  | .resched => s.resched now (.wait w .away)
  | .away => some (s.goTo t (s.k.modify t w.reset) (.wait w (.bury (w.awaited t s.k))))
  | .clear => some (s.goTo t (s.k.modify t w.reset) (.wait w (.bury (w.awaited t s.k))))
  | .bury [] => some (s.goTo t s.k w.buried)
  | .bury (p1 :: rest) => some (s.goTo t (w.bury s.k p1) (.wait w (.bury rest)))
  | .wake => some (s.goTo t (wakeUpThread t s.k) (.wait w .read))
  | .read =>
    match w with
    | .child pid p => some (s.goTo t s.k (.returned pid (s.k.threads p).exitValue))
    | .all => none

/-- The next step of `current_thread`. -/
def callNext (now : ℕ) (s : CallRun) : Option CallRun :=
  let t := s.k.currentThread
  match s.pc t with
  | .outside => none
  | .returned _ _ => none
  | .exitAwake retCode =>
    some (s.goTo t (childAwoken (s.k.threads (s.k.threads t).father).pid s.k) (.exitStore retCode))
  | .exitStore retCode =>
    some (s.goTo t (s.k.modify t fun p => { p with exitValue := retCode }) (.exitResched retCode))
  | .exitResched retCode => s.resched now (.exited retCode)
  | .exited _ => none
  | .wait w ph => waitNext now w ph s

def callStep : CallEvent → CallRun → Option CallRun
  | .exit retCode, s => if (s.pc s.k.currentThread).free then some (s.exit retCode) else none
  | .wait4 pid, s =>
    if (s.pc s.k.currentThread).free then some (s.goTo s.k.currentThread s.k (s.find pid)) else none
  | .wait4all, s =>
    if (s.pc s.k.currentThread).free then
      some (s.goTo s.k.currentThread s.k
        (.wait .all (.check (s.k.threads s.k.currentThread).children)))
    else none
  | .step now, s => callNext now s
  | .tick now, s => (after (schedulerHandler now s.k)).map fun k => ⟨k, s.pc⟩
  | .exterminate, s => (exterminate s.k).map fun k => ⟨k, s.pc⟩

section Spec
variable {s : CallRun} {t : ℕ} {k : Machine}

@[simp] theorem callGoTo_k (pc : CallPc) : (s.goTo t k pc).k = k := rfl

@[simp] theorem callGoTo_self (pc : CallPc) : (s.goTo t k pc).pc t = pc := Function.update_self ..

@[simp] theorem callGoTo_of_ne {u : ℕ} (hu : u ≠ t) (pc : CallPc) : (s.goTo t k pc).pc u = s.pc u :=
  Function.update_of_ne hu ..

theorem callGoTo_goTo (pc pc' : CallPc) (k' : Machine) : (s.goTo t k pc).goTo t k' pc' = s.goTo t k' pc' := by
  unfold CallRun.goTo
  rw [Function.update_idem]

theorem callStep_exit (hfree : (s.pc s.k.currentThread).free = true)
    (hp : (s.k.threads s.k.currentThread).pid ≠ idlePid) (retCode now : ℕ) :
    ((callStep (.exit retCode) s).bind (callNext now)).bind (callNext now) =
      some (s.goTo s.k.currentThread (sysExit retCode s.k) (.exitResched retCode)) := by
  have hstop : (dropTimer s.k.currentThread (stopThread s.k.currentThread s.k)).currentThread =
      s.k.currentThread := ((Frame.stopThread s.k _).trans (Frame.dropTimer _ _)).currentThread
  have hcall : callStep (.exit retCode) s = some (s.goTo s.k.currentThread
      (dropTimer s.k.currentThread (stopThread s.k.currentThread s.k)) (.exitAwake retCode)) :=
    (if_pos hfree).trans (congrArg some (if_neg hp))
  have hkill : killProcess s.k.currentThread s.k = childAwoken
      ((dropTimer s.k.currentThread (stopThread s.k.currentThread s.k)).threads
        ((dropTimer s.k.currentThread (stopThread s.k.currentThread s.k)).threads
          s.k.currentThread).father).pid
      (dropTimer s.k.currentThread (stopThread s.k.currentThread s.k)) := if_neg hp
  have hawake := (Frame.childAwoken (dropTimer s.k.currentThread (stopThread s.k.currentThread s.k))
    ((dropTimer s.k.currentThread (stopThread s.k.currentThread s.k)).threads
        ((dropTimer s.k.currentThread (stopThread s.k.currentThread s.k)).threads
          s.k.currentThread).father).pid).currentThread.trans hstop
  rw [← hkill] at hawake
  rw [hcall]
  simp only [Option.bind_some, callNext, callGoTo_k, hstop, callGoTo_self, callGoTo_goTo, ← hkill, hawake,
    sysExit]

theorem callStep_wait4 {pid p : ℕ} (hfree : (s.pc s.k.currentThread).free = true)
    (hp : getThread pid s.k = some p) : callStep (.wait4 pid) s =
      some (s.goTo s.k.currentThread s.k (.wait (.child pid p) (.check [p]))) := by
  have hfind : s.find pid = .wait (.child pid p) (.check [p]) := by
    unfold CallRun.find
    rw [hp]
  refine (if_pos hfree).trans ?_
  rw [hfind]

theorem callStep_wait4_dead {pid p now : ℕ} (hfree : (s.pc s.k.currentThread).free = true)
    (hp : getThread pid s.k = some p) (hko : (s.k.threads p).state.ko = true) :
    (((((((callStep (.wait4 pid) s).bind (callNext now)).bind (callNext now)).bind
      (callNext now)).bind (callNext now)).bind (callNext now)).bind (callNext now)).bind (callNext now) =
      some (s.goTo s.k.currentThread (sysWait4Done p s.k).2 (.returned pid (sysWait4Done p s.k).1)) := by
  have hcall := callStep_wait4 hfree hp
  have hmodify : ∀ (k : Machine) (t : ℕ) (g : Thread → Thread), (k.modify t g).currentThread =
      k.currentThread := fun _ _ _ => rfl
  have hwake : ∀ (k : Machine) (t : ℕ), (wakeUpThread t k).currentThread = k.currentThread :=
    fun _ _ => rfl
  rw [hcall]
  simp only [Option.bind_some, callNext, waitNext, callGoTo_k, callGoTo_self, callGoTo_goTo, hko, if_true,
    Wait.awaited, Wait.bury, Wait.buried, hmodify, hwake, Machine.setState, sysWait4Done]
  rfl

/-- Without other threads the steps up to `reschedule` are `sys_wait4` of a child that is alive. -/
theorem callStep_wait4_alive {pid p now : ℕ} (hfree : (s.pc s.k.currentThread).free = true)
    (hp : getThread pid s.k = some p) (hko : (s.k.threads p).state.ko = false) :
    (((callStep (.wait4 pid) s).bind (callNext now)).bind (callNext now)).bind (callNext now) =
      some (s.goTo s.k.currentThread (sysWait4 pid s.k).2 (.wait (.child pid p) .resched)) := by
  have hcall := callStep_wait4 hfree hp
  have hmodify : ∀ (k : Machine) (t : ℕ) (g : Thread → Thread), (k.modify t g).currentThread =
      k.currentThread := fun _ _ _ => rfl
  rw [hcall]
  simp only [Option.bind_some, callNext, waitNext, callGoTo_k, callGoTo_self, callGoTo_goTo, hko, hmodify,
    sysWait4, hp, Bool.false_eq_true, if_false]
  rfl

end Spec

end X86Osdev.Kernel

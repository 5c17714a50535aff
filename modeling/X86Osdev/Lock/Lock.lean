import X86Osdev.Proc.Thread

/-! lock/lock.c: a lock, its wait queue, and the threads linked there by their `waitq`. -/

namespace X86Osdev.Lock
open CircularList X86Osdev.Mem X86Osdev.Proc

/-- `_test_spin_lock`: the lock is locked, its old state is returned. -/
def testLock (l : ℕ) (k : Machine) : Bool × Machine :=
  ((k.locks l).locked, { k with locks := Function.update k.locks l { k.locks l with locked := true } })

/-- `current_thread` goes to one end of `threads_waiting`. -/
def linkWaiter (l : ℕ) (k : Machine) : Machine :=
  if (k.threads k.currentThread).waitFlags = 0 then
    { k with waits := k.waits.listAddHead (.threadsWaiting l) (.waitq k.currentThread) }
  else { k with waits := k.waits.listAddTail (.threadsWaiting l) (.waitq k.currentThread) }

def setOwner (l t : ℕ) (k : Machine) : Machine :=
  { k with locks := Function.update k.locks l { k.locks l with owner := t } }

/-- One turn of `get_lock`, up to `reschedule` when it does not get the lock. -/
def getLock (l : ℕ) (k : Machine) : Bool × Machine :=
  let (locked, k) := testLock l k
  if locked then (false, sleepThread k.currentThread (linkWaiter l k))
  else (true, setOwner l k.currentThread k)

/-- The thread that a node of a wait queue belongs to. -/
def waiterOf : WaitNode → ℕ
  | .threadsWaiting _ => 0
  | .waitq t => t

/-- `unlock` up to `wake_up_sleeping_threads`. -/
def freeLock (l : ℕ) (k : Machine) : Machine :=
  { k with locks := Function.update k.locks l ⟨false, 0⟩ }

/-- `wake_up_sleeping_threads`; the search starts again after a thread whose `wait_flags` are not 1. -/
def wakeWaiters (l : ℕ) : ℕ → Machine → Option Machine
  | 0, _ => none
  | fuel + 1, k =>
    let tList := k.waits.next (.threadsWaiting l)
    if tList = .threadsWaiting l then some k
    else
      let waitingThread := waiterOf tList
      let k := { k with waits := k.waits.listRemove (.waitq waitingThread) }
      let k := wakeUpThread waitingThread k
      if (k.threads waitingThread).waitFlags = 1 then some k else wakeWaiters l fuel k

def unlock (l : ℕ) (k : Machine) : Option Machine := wakeWaiters l listFuel (freeLock l k)

/-- The threads that `wake_up_sleeping_threads` comes to, by the links alone. -/
def takenWaiters (l : ℕ) (waitFlags : ℕ → ℕ) : ℕ → Links WaitNode → List ℕ
  | 0, _ => []
  | fuel + 1, w =>
    let tList := w.next (.threadsWaiting l)
    if tList = .threadsWaiting l then []
    else
      let waitingThread := waiterOf tList
      waitingThread ::
        if waitFlags waitingThread = 1 then []
        else takenWaiters l waitFlags fuel (w.listRemove (.waitq waitingThread))

/-- The threads that `unlock(l)` would wake. -/
def takenBy (l : ℕ) (k : Machine) : List ℕ :=
  takenWaiters l (fun t => (k.threads t).waitFlags) listFuel k.waits

end X86Osdev.Lock

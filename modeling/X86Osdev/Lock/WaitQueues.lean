import X86Osdev.Kernel.RunQueue

/-! `get_lock` and `unlock` step by step, for any number of threads and locks, with wake-ups from outside;
the wait queues as rings. -/

namespace X86Osdev.Lock
open CircularList X86Osdev.Mem X86Osdev.Proc X86Osdev.Kernel

/-- Where a thread is: in `get_lock(l)` before it links itself, before `sleep_thread` and at `reschedule`;
in `unlock(l)` between the release and the wake-ups. -/
inductive LockPc where
  | outside
  | link (l : ℕ)
  | sleep (l : ℕ)
  | resched (l : ℕ)
  | dequeue (l : ℕ)
deriving DecidableEq

inductive Request where
  | getLock (l : ℕ)
  | unlock (l : ℕ)

inductive LockEvent where
  | step (t : ℕ) (request : Request)
  | wakeUp (t : ℕ)
  | childAwoken (pid : ℕ)

structure LockRun where
  k : Machine
  pc : ℕ → LockPc

namespace LockRun

def goTo (s : LockRun) (t : ℕ) (k : Machine) (pc : LockPc) : LockRun :=
  ⟨k, Function.update s.pc t pc⟩

/-- `test_lock(l)`, and `l->owner = current_thread` when the lock was free. -/
def test (s : LockRun) (t l : ℕ) (k : Machine) : LockRun :=
  let (locked, k) := testLock l k
  if locked then s.goTo t k (.link l) else s.goTo t (setOwner l t k) .outside

end LockRun

/-- The next step of thread `t`, which the processor has switched to. -/
def threadStep (t : ℕ) (request : Request) (s : LockRun) : Option LockRun :=
  let k := { s.k with currentThread := t }
  match s.pc t with
  | .outside =>
    match request with
    | .getLock l => some (s.test t l k)
    | .unlock l => some (s.goTo t (freeLock l k) (.dequeue l))
  | .link l => some (s.goTo t (linkWaiter l k) (.sleep l))
  | .sleep l => some (s.goTo t (sleepThread t k) (.resched l))
  | .resched l => some (s.test t l k)
  | .dequeue l => (wakeWaiters l listFuel k).map fun k => s.goTo t k .outside

def lockStep : LockEvent → LockRun → Option LockRun
  | .step t request, s => threadStep t request s
  | .wakeUp t, s => some ⟨wakeUpThread t s.k, s.pc⟩
  | .childAwoken pid, s => some ⟨childAwoken pid s.k, s.pc⟩

section Spec
variable {s : LockRun} {t l : ℕ} {k : Machine} {request : Request}

@[simp] theorem goTo_k (p : LockPc) : (s.goTo t k p).k = k := rfl

@[simp] theorem goTo_self (p : LockPc) : (s.goTo t k p).pc t = p := Function.update_self ..

@[simp] theorem goTo_of_ne {u : ℕ} (hu : u ≠ t) (p : LockPc) : (s.goTo t k p).pc u = s.pc u :=
  Function.update_of_ne hu ..

theorem testLock_eq (l : ℕ) (k : Machine) : testLock l k = ((k.locks l).locked, (testLock l k).2) := rfl

theorem test_locked (h : (k.locks l).locked = true) :
    s.test t l k = s.goTo t (testLock l k).2 (.link l) := by
  unfold LockRun.test
  rw [testLock_eq, h]
  rfl

theorem test_free (h : (k.locks l).locked = false) :
    s.test t l k = s.goTo t (setOwner l t (testLock l k).2) .outside := by
  unfold LockRun.test
  rw [testLock_eq, h]
  rfl

theorem locks_testLock (l j : ℕ) (k : Machine) : (((testLock l k).2.locks j).locked) =
    if j = l then true else (k.locks j).locked := by
  unfold testLock
  dsimp only
  rw [Function.update_apply]
  split
  · rfl
  · rfl

theorem locks_setOwner (l t j : ℕ) (k : Machine) : ((setOwner l t k).locks j).locked =
    (k.locks j).locked := by
  unfold setOwner
  dsimp only
  rw [Function.update_apply]
  split
  · next h => rw [h]
  · rfl

theorem locks_freeLock (l j : ℕ) (k : Machine) : ((freeLock l k).locks j).locked =
    if j = l then false else (k.locks j).locked := by
  unfold freeLock
  dsimp only
  rw [Function.update_apply]
  split
  · rfl
  · rfl

theorem threadStep_eq (t : ℕ) (request : Request) (s : LockRun) : threadStep t request s =
    match s.pc t, request with
    | .outside, .getLock l => some (s.test t l { s.k with currentThread := t })
    | .outside, .unlock l => some (s.goTo t (freeLock l { s.k with currentThread := t }) (.dequeue l))
    | .link l, _ => some (s.goTo t (linkWaiter l { s.k with currentThread := t }) (.sleep l))
    | .sleep l, _ => some (s.goTo t (sleepThread t { s.k with currentThread := t }) (.resched l))
    | .resched l, _ => some (s.test t l { s.k with currentThread := t })
    | .dequeue l, _ => (wakeWaiters l listFuel { s.k with currentThread := t }).map fun k =>
        s.goTo t k .outside := by
  unfold threadStep
  cases s.pc t with
  | outside =>
    cases request with
    | getLock l => rfl
    | unlock l => rfl
  | link l => rfl
  | sleep l => rfl
  | resched l => rfl
  | dequeue l => rfl

/-- A thread that fails `test_lock` runs through one turn of `get_lock`. -/
theorem threadStep_getLock (hpc : s.pc t = .outside) (hlocked : (s.k.locks l).locked = true) :
    ((threadStep t (.getLock l) s).bind (threadStep t request)).bind (threadStep t request) =
      some (s.goTo t (getLock l { s.k with currentThread := t }).2 (.resched l)) := by
  have hlocked' : (({ s.k with currentThread := t } : Machine).locks l).locked = true := hlocked
  have hget : (getLock l { s.k with currentThread := t }).2 =
      sleepThread t (linkWaiter l (testLock l { s.k with currentThread := t }).2) := by
    unfold getLock
    rw [testLock_eq, hlocked']
    simp only [if_true]
    rfl
  have hcur : ∀ k : Machine, k.currentThread = t → { k with currentThread := t } = k := by
    rintro k rfl
    rfl
  have hlink : threadStep t (.getLock l) s =
      some (s.goTo t (testLock l { s.k with currentThread := t }).2 (.link l)) := by
    rw [threadStep_eq, hpc]
    exact congrArg some (test_locked hlocked')
  rw [hlink, hget]
  unfold threadStep LockRun.goTo
  simp only [Option.bind_some, Function.update_self, Function.update_idem]
  rw [hcur (testLock l { s.k with currentThread := t }).2 rfl, hcur _ (linkWaiter_currentThread l _)]

end Spec

section Rings
variable {k : Machine} {W : ℕ → List ℕ} {t l : ℕ}

/-- `W` lists the waiting threads of each lock in order. -/
def WaitRings (w : Links WaitNode) (W : ℕ → List ℕ) : Prop :=
  Rings w WaitNode.threadsWaiting fun l => (W l).map WaitNode.waitq

theorem waitq_injective : Function.Injective WaitNode.waitq := fun _ _ h => WaitNode.waitq.inj h

theorem update_map_waitq (W : ℕ → List ℕ) (l : ℕ) (xs : List ℕ) :
    (fun j => (Function.update W l xs j).map WaitNode.waitq) =
      Function.update (fun j => (W j).map WaitNode.waitq) l (xs.map .waitq) := by
  funext j
  by_cases hj : j = l
  · subst hj
    simp
  · simp [Function.update_of_ne hj]

theorem WaitRings.nodup {w : Links WaitNode} (h : WaitRings w W) (l : ℕ) : (W l).Nodup :=
  (List.nodup_cons.mp (h.carries l).nodup).2.of_map _

theorem WaitRings.unique {w : Links WaitNode} {l' : ℕ} (h : WaitRings w W) (hl : t ∈ W l)
    (hl' : t ∈ W l') : l = l' :=
  h.mem_unique (List.mem_map_of_mem hl) (List.mem_map_of_mem hl')

theorem WaitRings.unlinked {w : Links WaitNode} (_ : WaitRings w W) (ht : ∀ l, t ∉ W l) (j : ℕ) :
    WaitNode.waitq t ∉ WaitNode.threadsWaiting j :: (W j).map WaitNode.waitq := by
  intro hm
  rcases List.mem_cons.mp hm with e | e
  · cases e
  · obtain ⟨u, hu, e⟩ := List.mem_map.mp e
    exact ht j (waitq_injective e ▸ hu)

theorem WaitRings.link (h : WaitRings k.waits W) (ht : ∀ j, k.currentThread ∉ W j) (l : ℕ) :
    ∃ xs, (∀ u, u ∈ xs ↔ u = k.currentThread ∨ u ∈ W l) ∧
      WaitRings (linkWaiter l k).waits (Function.update W l xs) := by
  unfold linkWaiter WaitRings
  split
  · refine ⟨k.currentThread :: W l, fun u => List.mem_cons, ?_⟩
    rw [update_map_waitq]
    exact Rings.listAddHead h l (h.unlinked ht)
  · refine ⟨W l ++ [k.currentThread], fun u => ?_, ?_⟩
    · rw [List.mem_append, List.mem_singleton]
      exact or_comm
    · rw [update_map_waitq, List.map_append]
      exact Rings.listAddTail h l (h.unlinked ht)

theorem WaitRings.remove {w : Links WaitNode} {rest : List ℕ} (h : WaitRings w W)
    (hl : W l = t :: rest) : WaitRings (w.listRemove (.waitq t)) (Function.update W l rest) := by
  have hmem : WaitNode.waitq t ∈ (W l).map WaitNode.waitq := by
    rw [hl]
    exact List.mem_cons_self ..
  unfold WaitRings
  rw [update_map_waitq]
  convert Rings.listRemove h hmem using 2
  rw [hl, List.map_cons, List.erase_cons_head]

def wakeAll (ts : List ℕ) (k : Machine) : Machine := ts.foldl (fun k t => wakeUpThread t k) k

theorem wakeUpThread_waitFlags (t : ℕ) (k : Machine) (u : ℕ) :
    ((wakeUpThread t k).threads u).waitFlags = (k.threads u).waitFlags :=
  Keeps.setState (f := Thread.waitFlags) (fun _ _ => rfl) k t .runnable u

theorem wakeAll_waits (ts : List ℕ) (k : Machine) (w w' : Links WaitNode) :
    { wakeAll ts { k with waits := w' } with waits := w } = { wakeAll ts k with waits := w } := by
  induction ts generalizing k with
  | nil => rfl
  | cons u ts ih => exact ih (wakeUpThread u k)

theorem wakeWaiters_nil {fuel : ℕ} (h : k.waits.next (.threadsWaiting l) = .threadsWaiting l) :
    wakeWaiters l (fuel + 1) k = some k := if_pos h

theorem wakeWaiters_cons {fuel : ℕ} (h : k.waits.next (.threadsWaiting l) = .waitq t) :
    wakeWaiters l (fuel + 1) k = if (k.threads t).waitFlags = 1 then
      some { wakeUpThread t k with waits := k.waits.listRemove (.waitq t) }
      else wakeWaiters l fuel { wakeUpThread t k with waits := k.waits.listRemove (.waitq t) } := by
  have hne : k.waits.next (.threadsWaiting l) ≠ .threadsWaiting l := by
    rw [h]
    exact fun e => nomatch e
  have hflags := wakeUpThread_waitFlags t { k with waits := k.waits.listRemove (.waitq t) } t
  refine (if_neg hne).trans ?_
  simp only [h, waiterOf, hflags]
  rfl

theorem takenWaiters_cons {fuel : ℕ} {w : Links WaitNode} {flags : ℕ → ℕ}
    (h : w.next (.threadsWaiting l) = .waitq t) :
    takenWaiters l flags (fuel + 1) w = t :: if flags t = 1 then [] else
      takenWaiters l flags fuel (w.listRemove (.waitq t)) := by
  have hne : w.next (.threadsWaiting l) ≠ .threadsWaiting l := by
    rw [h]
    exact fun e => nomatch e
  refine (if_neg hne).trans ?_
  simp only [h, waiterOf]

/-- `wake_up_sleeping_threads` takes the first waiting threads, at least one if there is any, and wakes
them. -/
theorem wakeWaiters_spec {fuel : ℕ} (h : WaitRings k.waits W) (hf : (W l).length < fuel) :
    ∃ ts rest w, W l = ts ++ rest ∧ (ts = [] → rest = []) ∧
      takenWaiters l (fun t => (k.threads t).waitFlags) fuel k.waits = ts ∧
      wakeWaiters l fuel k = some { wakeAll ts k with waits := w } ∧
      WaitRings w (Function.update W l rest) := by
  induction fuel generalizing k W with
  | zero => omega
  | succ fuel ih =>
    have hnext := (h.carries l).next_head
    cases hl : W l with
    | nil =>
      rw [hl] at hnext
      refine ⟨[], [], k.waits, rfl, fun _ => rfl, if_pos hnext, wakeWaiters_nil hnext, ?_⟩
      rw [← hl, Function.update_eq_self]
      exact h
    | cons t rest =>
      rw [hl] at hnext hf
      have hrem := h.remove hl
      rw [takenWaiters_cons hnext, wakeWaiters_cons hnext]
      by_cases hflag : (k.threads t).waitFlags = 1
      · rw [if_pos hflag, if_pos hflag]
        exact ⟨[t], rest, _, rfl, fun e => (nomatch e), rfl, rfl, hrem⟩
      · have hlen : (Function.update W l rest l).length < fuel := by
          rw [Function.update_self]
          simpa using hf
        obtain ⟨ts, rest', w, hsplit, _, htaken, hwake, hrings⟩ :=
          ih (k := { wakeUpThread t k with waits := k.waits.listRemove (.waitq t) }) hrem hlen
        rw [Function.update_self] at hsplit
        rw [Function.update_idem] at hrings
        simp only [wakeUpThread_waitFlags] at htaken
        rw [if_neg hflag, if_neg hflag, htaken, hwake]
        refine ⟨t :: ts, rest', w, by rw [hsplit, List.cons_append], fun e => (nomatch e), rfl, ?_, hrings⟩
        exact congrArg some (wakeAll_waits ts (wakeUpThread t k) w _)

theorem queueInv_wakeAll {E : Queue → List ℕ} {ts : List ℕ} (h : QueueInv k E)
    (ht : ∀ t ∈ ts, t ∈ k.allocated) : ∃ E', QueueInv (wakeAll ts k) E' ∧
      (∀ u, u ∈ E' .sleep ↔ u ∉ ts ∧ u ∈ E .sleep) ∧
      (∀ u, u ∈ E' .running ↔ u ∈ ts ∨ u ∈ E .running) := by
  induction ts generalizing k E with
  | nil => exact ⟨E, h, by simp, by simp⟩
  | cons t ts ih =>
    have hone : QueueInv (wakeUpThread t k) (movedTail E .running t) :=
      h.play (m := .wake t .runnable) (ht t (List.mem_cons_self ..))
    have hrest : ∀ u ∈ ts, u ∈ (wakeUpThread t k).allocated :=
      fun u hu => ht u (List.mem_cons_of_mem _ hu)
    obtain ⟨E', h', hsleep, hrunning⟩ := ih hone hrest
    refine ⟨E', h', fun u => ?_, fun u => ?_⟩
    · rw [hsleep, mem_movedTail (h.nodup_queue .sleep), List.mem_cons]
      simp only [reduceCtorEq, and_false, false_or]
      tauto
    · rw [hrunning, mem_movedTail (h.nodup_queue .running), List.mem_cons]
      tauto

end Rings

def OnQueue (k : Machine) (q : Queue) (t : ℕ) : Prop :=
  ∃ n, (k.queues.next)^[n] (.queue q) = .head t

theorem not_onQueue {k : Machine} {q : Queue} {t : ℕ} (nodes : List QueueNode) (hstart : .queue q ∈ nodes)
    (hnext : ∀ n ∈ nodes, k.queues.next n ∈ nodes) (ht : .head t ∉ nodes) : ¬ OnQueue k q t := by
  rintro ⟨n, hn⟩
  have hclosed : ∀ m, (k.queues.next)^[m] (.queue q) ∈ nodes := by
    intro m
    induction m with
    | zero => exact hstart
    | succ m ih =>
      rw [Function.iterate_succ_apply']
      exact hnext _ ih
  exact ht (hn ▸ hclosed n)

def Asleep (s : LockRun) (l t : ℕ) : Prop := s.pc t = .resched l ∧ OnQueue s.k .sleep t

/-- Linked by `get_lock(l)`, and about to sleep or asleep. -/
def Blocked (s : LockRun) (l t : ℕ) : Prop := s.pc t = .sleep l ∨ Asleep s l t

/-- A thread at `reschedule` goes on only when it is on the running queue. -/
def Enabled (s : LockRun) : LockEvent → Prop
  | .step t _ => t ∈ s.k.allocated ∧ ∀ l, s.pc t = .resched l → OnQueue s.k .running t
  | .wakeUp t => t ∈ s.k.allocated
  | .childAwoken _ => True

def LockStep (allowed : LockRun → LockEvent → Prop) (s s' : LockRun) : Prop :=
  ∃ ev, allowed s ev ∧ Enabled s ev ∧ lockStep ev s = some s'

/-- All wait queues have been initialized and are empty. -/
structure LocksReady (k : Machine) : Prop where
  queues : ∃ E, QueueInv k E
  waits : ∀ l, k.waits.next (.threadsWaiting l) = .threadsWaiting l ∧
    k.waits.prev (.threadsWaiting l) = .threadsWaiting l

/-- The states of a run of `get_lock` and `unlock` calls, with no call under way at its start. -/
def LockReach (allowed : LockRun → LockEvent → Prop) (s : LockRun) : Prop :=
  ∃ k₀, LocksReady k₀ ∧ Relation.ReflTransGen (LockStep allowed) ⟨k₀, fun _ => .outside⟩ s

/-- No thread asleep in `get_lock` is woken from outside, `unlock` takes only threads that are asleep, and
no thread with `IDLE_PID` is put to sleep. -/
def Orderly (s : LockRun) : LockEvent → Prop
  | .step t _ => (∀ l, s.pc t = .sleep l → (s.k.threads t).pid ≠ idlePid) ∧
    ∀ l, s.pc t = .dequeue l → ∀ u ∈ takenBy l s.k, s.pc u ≠ .sleep l
  | .wakeUp t => ∀ l, ¬ Asleep s l t
  | .childAwoken pid => ∀ t, getThread pid s.k = some t → ∀ l, ¬ Asleep s l t

/-- `W` are the wait queues: exactly the blocked threads. -/
structure LockInv (s : LockRun) (E : Queue → List ℕ) (W : ℕ → List ℕ) : Prop where
  queues : QueueInv s.k E
  waits : WaitRings s.k.waits W
  blocked : ∀ l t, t ∈ W l ↔ s.pc t = .sleep l ∨ (s.pc t = .resched l ∧ t ∈ E .sleep)
  unreaped : ∀ l, ∀ t ∈ W l, t ∈ s.k.allocated
  woken : ∀ l t, s.pc t = .resched l → t ∈ E .sleep ∨ t ∈ E .running

section Invariant
variable {s s' : LockRun} {E : Queue → List ℕ} {W : ℕ → List ℕ} {t l : ℕ} {k : Machine}

theorem onQueue_iff (h : QueueInv k E) (q : Queue) : OnQueue k q t ↔ t ∈ E q := by
  constructor
  · rintro ⟨n, hn⟩
    exact (queuesWellFormed h).mem_of_links hn
  · intro ht
    have key : ∀ (xs : List QueueNode) (a b : QueueNode), Seg k.queues a xs b → ∀ n ∈ xs,
        ∃ m, (k.queues.next)^[m] a = n := by
      intro xs
      induction xs with
      | nil => exact fun _ _ _ n hn => (List.not_mem_nil hn).elim
      | cons x xs ih =>
        intro a b hs n hn
        rcases List.mem_cons.mp hn with rfl | hn
        · exact ⟨1, hs.1.1⟩
        · obtain ⟨m, hm⟩ := ih x b hs.2 n hn
          refine ⟨m + 1, ?_⟩
          rw [Function.iterate_succ_apply, hs.1.1, hm]
    exact key _ _ _ (h.linkage.rings.carries q).seg _ (List.mem_map_of_mem ht)

theorem LockInv.asleep_iff (h : LockInv s E W) : Asleep s l t ↔ s.pc t = .resched l ∧ t ∈ E .sleep := by
  unfold Asleep
  rw [onQueue_iff h.queues]

theorem LockInv.goTo {p : LockPc} (h : LockInv s E W) (ht : ∀ l, t ∉ W l) (hq : k.queues = s.k.queues)
    (hw : k.waits = s.k.waits) (hp : k.kThreads = s.k.kThreads) (ha : k.allocated = s.k.allocated)
    (hsleep : ∀ l, p ≠ .sleep l) (hresched : ∀ l, p ≠ .resched l) : LockInv (s.goTo t k p) E W := by
  refine ⟨h.queues.congr hq hp ha, ?_, fun l u => ?_, fun l u hu => ?_, fun l u hu => ?_⟩
  · show WaitRings k.waits W
    rw [hw]
    exact h.waits
  · by_cases hut : u = t
    · subst hut
      simp only [goTo_self, hsleep, hresched, false_and, or_false, iff_false]
      exact ht l
    · simp only [goTo_of_ne hut]
      exact h.blocked l u
  · show u ∈ k.allocated
    rw [ha]
    exact h.unreaped l u hu
  · by_cases hut : u = t
    · subst hut
      rw [goTo_self] at hu
      exact absurd hu (hresched l)
    · rw [goTo_of_ne hut] at hu
      exact h.woken l u hu

theorem LockInv.test (h : LockInv s E W) (ht : ∀ l, t ∉ W l) (l : ℕ) :
    LockInv (s.test t l { s.k with currentThread := t }) E W := by
  cases hlocked : (({ s.k with currentThread := t } : Machine).locks l).locked with
  | true =>
    rw [test_locked hlocked]
    exact h.goTo ht rfl rfl rfl rfl (fun _ e => nomatch e) fun _ e => nomatch e
  | false =>
    rw [test_free hlocked]
    exact h.goTo ht rfl rfl rfl rfl (fun _ e => nomatch e) fun _ e => nomatch e

theorem LockInv.link (h : LockInv s E W) (hpc : s.pc t = .link l) (ht : t ∈ s.k.allocated) :
    ∃ W', LockInv (s.goTo t (linkWaiter l { s.k with currentThread := t }) (.sleep l)) E W' ∧
      ∀ j u, u ∈ W' j ↔ u ∈ W j ∨ (j = l ∧ u = t) := by
  -- Who is on a wait queue is about to sleep or asleep, and this thread is not there yet.
  have hout : ∀ j, t ∉ W j := by
    intro j hm
    rcases (h.blocked j t).mp hm with e | ⟨e, _⟩
    · rw [hpc] at e
      cases e
    · rw [hpc] at e
      cases e
  obtain ⟨xs, hxs, hrings⟩ := WaitRings.link (k := { s.k with currentThread := t }) h.waits hout l
  have hquiet := linkWaiter_quiet l { s.k with currentThread := t }
  have hmem : ∀ j u, u ∈ Function.update W l xs j ↔ u ∈ W j ∨ (j = l ∧ u = t) := by
    intro j u
    by_cases hj : j = l
    · subst hj
      rw [Function.update_self, hxs]
      simp only [true_and]
      exact or_comm
    · rw [Function.update_of_ne hj]
      simp [hj]
  refine ⟨_, ⟨h.queues.congr hquiet.queues hquiet.kThreads hquiet.allocated, hrings, fun j u => ?_,
    fun j u hu => ?_, fun j u hu => ?_⟩, hmem⟩
  · rw [hmem]
    by_cases hut : u = t
    · subst hut
      simp only [goTo_self, reduceCtorEq, false_and, or_false, hout, false_or, and_true,
        LockPc.sleep.injEq]
      exact eq_comm
    · simp only [goTo_of_ne hut, hut, and_false, or_false]
      exact h.blocked j u
  · show u ∈ (linkWaiter l { s.k with currentThread := t }).allocated
    rw [hquiet.allocated]
    rcases (hmem j u).mp hu with hu | ⟨_, rfl⟩
    · exact h.unreaped j u hu
    · exact ht
  · by_cases hut : u = t
    · subst hut
      rw [goTo_self] at hu
      cases hu
    · rw [goTo_of_ne hut] at hu
      exact h.woken j u hu

theorem LockInv.sleep (h : LockInv s E W) (hpc : s.pc t = .sleep l) (ht : t ∈ s.k.allocated)
    (hp : (s.k.threads t).pid ≠ idlePid) :
    LockInv (s.goTo t (sleepThread t { s.k with currentThread := t }) (.resched l))
      (movedHead E .sleep t) W := by
  have hsleep : sleepThread t { s.k with currentThread := t } =
      (Move.sleep t).play { s.k with currentThread := t } := if_neg hp
  have hq : QueueInv { s.k with currentThread := t } E := h.queues.congr rfl rfl rfl
  have hin := (h.blocked l t).mpr (.inl hpc)
  have hmem : ∀ q u, u ∈ movedHead E .sleep t q ↔ (u = t ∧ q = .sleep) ∨ (u ≠ t ∧ u ∈ E q) :=
    fun q u => mem_movedHead (h.queues.nodup_queue q)
  rw [hsleep]
  refine ⟨hq.play (m := .sleep t) ⟨ht, hp⟩, h.waits, fun j u => ?_, h.unreaped, fun j u hu => ?_⟩
  · rw [hmem]
    by_cases hut : u = t
    · subst hut
      simp only [goTo_self, reduceCtorEq, false_or, LockPc.resched.injEq, and_true, true_or]
      constructor
      · exact fun hj => h.waits.unique hin hj
      · rintro rfl
        exact hin
    · simp only [goTo_of_ne hut, hut, false_and, false_or, ne_eq, not_false_eq_true, true_and]
      exact h.blocked j u
  · rw [hmem, hmem]
    by_cases hut : u = t
    · exact .inl (.inl ⟨hut, rfl⟩)
    · rw [goTo_of_ne hut] at hu
      simp only [hut, false_and, false_or, ne_eq, not_false_eq_true, true_and]
      exact h.woken j u hu

theorem LockInv.wake (h : LockInv s E W) (ht : t ∈ s.k.allocated) (hno : ∀ l, ¬ Asleep s l t)
    {k : Machine} (hq : QueueInv k (movedTail E .running t)) (hw : k.waits = s.k.waits)
    (ha : k.allocated = s.k.allocated) : LockInv ⟨k, s.pc⟩ (movedTail E .running t) W := by
  have hmem : ∀ q u, u ∈ movedTail E .running t q ↔ (u = t ∧ q = .running) ∨ (u ≠ t ∧ u ∈ E q) :=
    fun q u => mem_movedTail (h.queues.nodup_queue q)
  refine ⟨hq, ?_, fun j u => ?_, fun j u hu => ?_, fun j u hu => ?_⟩
  · show WaitRings k.waits W
    rw [hw]
    exact h.waits
  · rw [h.blocked, hmem]
    by_cases hut : u = t
    · subst hut
      have hno' : ¬ (s.pc u = .resched j ∧ u ∈ E .sleep) := fun e => hno j (h.asleep_iff.mpr e)
      simp [hno']
    · simp [hut]
  · show u ∈ k.allocated
    rw [ha]
    exact h.unreaped j u hu
  · rw [hmem, hmem]
    by_cases hut : u = t
    · exact .inr (.inl ⟨hut, rfl⟩)
    · simp only [hut, false_and, false_or, ne_eq, not_false_eq_true, true_and]
      exact h.woken j u hu

theorem LockInv.short (h : LockInv s E W) (l : ℕ) : (W l).length < listFuel := by
  have hlen := length_lt_of_addresses (h.waits.nodup l) fun t ht => h.queues.addresses t (h.unreaped l t ht)
  unfold listFuel
  exact hlen

/-- The first waiting threads, all asleep, are woken by `unlock`. -/
theorem LockInv.dequeue (h : LockInv s E W) (hpc : s.pc t = .dequeue l)
    (hasleep : ∀ u ∈ takenBy l s.k, s.pc u ≠ .sleep l) : ∃ k' E' W',
      wakeWaiters l listFuel { s.k with currentThread := t } = some k' ∧
      LockInv (s.goTo t k' .outside) E' W' ∧ k'.locks = s.k.locks ∧
      (∀ u, u ∈ E' .sleep ↔ u ∉ takenBy l s.k ∧ u ∈ E .sleep) ∧
      (∀ j u, u ∈ W' j ↔ u ∈ W j ∧ (j = l → u ∉ takenBy l s.k)) ∧
      (∀ u ∈ takenBy l s.k, u ∈ W l) ∧ (takenBy l s.k = [] → W l = []) := by
  obtain ⟨ts, rest, w, hsplit, hnil, htaken, hwake, hrings⟩ :=
    wakeWaiters_spec (k := { s.k with currentThread := t }) (l := l) h.waits (h.short l)
  have htaken : takenBy l s.k = ts := htaken
  rw [htaken] at hasleep ⊢
  have hts : ∀ u ∈ ts, u ∈ W l := fun u hu => hsplit ▸ List.mem_append_left _ hu
  have hq : QueueInv { s.k with currentThread := t } E := h.queues.congr rfl rfl rfl
  obtain ⟨E', hq', hsleep, hrunning⟩ := queueInv_wakeAll hq fun u hu => h.unreaped l u (hts u hu)
  have hfixed : ∀ (ts : List ℕ) (k : Machine), (wakeAll ts k).allocated = k.allocated ∧
      (wakeAll ts k).locks = k.locks := by
    intro ts
    induction ts with
    | nil => exact fun _ => ⟨rfl, rfl⟩
    | cons u ts ih => exact fun k => ih (wakeUpThread u k)
  obtain ⟨halloc, hlocks⟩ := hfixed ts { s.k with currentThread := t }
  have hnd := h.waits.nodup l
  rw [hsplit] at hnd
  have hmem : ∀ j u, u ∈ Function.update W l rest j ↔ u ∈ W j ∧ (j = l → u ∉ ts) := by
    intro j u
    by_cases hj : j = l
    · subst hj
      rw [Function.update_self, hsplit, List.mem_append]
      constructor
      · intro hu
        exact ⟨.inr hu, fun _ hts => List.disjoint_of_nodup_append hnd hts hu⟩
      · rintro ⟨hu | hu, hno⟩
        · exact absurd hu (hno rfl)
        · exact hu
    · rw [Function.update_of_ne hj]
      simp [hj]
  have hout : ∀ j, t ∉ W j := by
    intro j hm
    rcases (h.blocked j t).mp hm with e | ⟨e, _⟩
    · rw [hpc] at e
      cases e
    · rw [hpc] at e
      cases e
  refine ⟨_, E', Function.update W l rest, hwake, ⟨hq'.congr rfl rfl rfl, hrings, fun j u => ?_,
    fun j u hu => ?_, fun j u hu => ?_⟩, hlocks, hsleep, hmem, hts, fun e => ?_⟩
  · rw [hmem]
    by_cases hut : u = t
    · subst hut
      simp [hout]
    · rw [goTo_of_ne hut, hsleep, h.blocked]
      by_cases hu : u ∈ ts
      · -- a taken thread is asleep in this very call
        have hpc : s.pc u = .resched l := (((h.blocked l u).mp (hts u hu)).resolve_left (hasleep u hu)).1
        simp only [hu, hpc]
        simp
        exact fun e _ => e.symm
      · simp [hu]
  · show u ∈ (wakeAll ts { s.k with currentThread := t }).allocated
    rw [halloc]
    exact h.unreaped j u ((hmem j u).mp hu).1
  · by_cases hut : u = t
    · subst hut
      rw [goTo_self] at hu
      cases hu
    · rw [goTo_of_ne hut] at hu
      rw [hsleep, hrunning]
      by_cases hin : u ∈ ts
      · exact .inr (.inl hin)
      · exact (h.woken j u hu).imp (fun e => ⟨hin, e⟩) .inr
  · rw [hsplit, e, hnil e]
    rfl

theorem LockInv.not_waiting (h : LockInv s E W) (hsleep : ∀ l, s.pc t ≠ .sleep l)
    (hresched : ∀ l, s.pc t = .resched l → t ∉ E .sleep) (l : ℕ) : t ∉ W l := by
  intro hm
  rcases (h.blocked l t).mp hm with e | ⟨e, hin⟩
  · exact hsleep l e
  · exact hresched l e hin

theorem LockInv.running (h : LockInv s E W) (hr : OnQueue s.k .running t) : t ∉ E .sleep := fun hin =>
  nomatch h.queues.queue_unique hin ((onQueue_iff h.queues .running).mp hr)

theorem LockInv.step {ev : LockEvent} (h : LockInv s E W) (hen : Enabled s ev) (hok : Orderly s ev)
    (hs : lockStep ev s = some s') : ∃ E' W', LockInv s' E' W' := by
  cases ev with
  | wakeUp t =>
    cases hs
    have hq : QueueInv (wakeUpThread t s.k) (movedTail E .running t) :=
      h.queues.play (m := .wake t .runnable) hen
    exact ⟨_, W, h.wake hen hok hq rfl rfl⟩
  | childAwoken pid =>
    cases hs
    cases hget : getThread pid s.k with
    | none =>
      have hsame : childAwoken pid s.k = s.k := by
        unfold childAwoken
        rw [hget]
      rw [hsame]
      exact ⟨E, W, h⟩
    | some f =>
      have hf : f ∈ s.k.allocated := h.queues.procs ▸ getThread_mem hget
      rw [childAwoken_some hget]
      have hq := (h.queues.quiet (Quiet.deliver s.k f sigcko)).play
        (m := .wake f (s.k.threads f).state) hf
      exact ⟨_, W, h.wake hf (hok f hget) hq rfl rfl⟩
  | step t request =>
    obtain ⟨ht, hrun⟩ := hen
    have hs : threadStep t request s = some s' := hs
    rw [threadStep_eq] at hs
    cases hpc : s.pc t with
    | outside =>
      have hout := h.not_waiting (t := t) (by simp [hpc]) (by simp [hpc])
      rw [hpc] at hs
      cases request with
      | getLock l =>
        cases hs
        exact ⟨E, W, h.test hout l⟩
      | unlock l =>
        cases hs
        exact ⟨E, W, h.goTo hout rfl rfl rfl rfl (fun _ e => nomatch e) fun _ e => nomatch e⟩
    | link l =>
      rw [hpc] at hs
      cases hs
      obtain ⟨W', h', _⟩ := h.link hpc ht
      exact ⟨E, W', h'⟩
    | sleep l =>
      rw [hpc] at hs
      cases hs
      exact ⟨_, W, h.sleep hpc ht (hok.1 l hpc)⟩
    | resched l =>
      -- back on the running queue the thread has been taken off the list, and tests the lock again
      rw [hpc] at hs
      cases hs
      have hawake := h.running (hrun l hpc)
      exact ⟨E, W, h.test (h.not_waiting (by simp [hpc]) fun _ _ => hawake) l⟩
    | dequeue l =>
      rw [hpc] at hs
      obtain ⟨k', E', W', hwake, h', _⟩ := h.dequeue hpc (hok.2 l hpc)
      simp only [hwake, Option.map_some] at hs
      cases hs
      exact ⟨E', W', h'⟩

theorem LocksReady.inv (h : LocksReady k) : ∃ E, LockInv ⟨k, fun _ => .outside⟩ E fun _ => [] := by
  obtain ⟨E, hq⟩ := h.queues
  refine ⟨E, hq, ⟨fun l => ⟨h.waits l, List.nodup_singleton _⟩, fun i j hij => ?_⟩, fun l t => ?_,
    fun l t ht => absurd ht List.not_mem_nil, fun l t e => nomatch e⟩
  · intro n hi hj
    rw [List.map_nil, List.mem_singleton] at hi hj
    exact hij (WaitNode.threadsWaiting.inj (hi.symm.trans hj))
  · simp

theorem LockReach.inv {allowed : LockRun → LockEvent → Prop} (hok : ∀ s ev, allowed s ev → Orderly s ev)
    (h : LockReach allowed s) : ∃ E W, LockInv s E W := by
  obtain ⟨k₀, h₀, hrun⟩ := h
  induction hrun with
  | refl =>
    obtain ⟨E, hi⟩ := h₀.inv
    exact ⟨E, _, hi⟩
  | tail _ hs ih =>
    obtain ⟨E, W, hi⟩ := ih
    obtain ⟨ev, hev, hen, hs⟩ := hs
    exact hi.step hen (hok _ _ hev) hs

end Invariant

/-- Each wait queue is a well-formed list, a thread is at most once on at most one of them, and the queue of
a lock holds exactly the threads blocked in `get_lock` of that lock. -/
theorem wait_queues {s : LockRun} (h : LockReach Orderly s) : ∃ W : ℕ → List ℕ,
    (∀ l, Carries s.k.waits (.threadsWaiting l) ((W l).map .waitq)) ∧ (∀ l, (W l).Nodup) ∧
      (∀ l l' t, t ∈ W l → t ∈ W l' → l = l') ∧ ∀ l t, t ∈ W l ↔ Blocked s l t := by
  obtain ⟨E, W, hi⟩ := h.inv fun _ _ hok => hok
  refine ⟨W, hi.waits.carries, hi.waits.nodup, fun _ _ _ => hi.waits.unique, fun l t => ?_⟩
  rw [hi.blocked, Blocked, hi.asleep_iff]

section Lists
variable {s s' : LockRun}

def enabledCheck (s : LockRun) : LockEvent → Bool
  | .step t _ => t ∈ s.k.allocated &&
    match s.pc t with
    | .resched _ => (List.range 16).any fun n => (s.k.queues.next)^[n] (.queue .running) = .head t
    | _ => true
  | .wakeUp t => t ∈ s.k.allocated
  | .childAwoken _ => true

theorem enabledCheck_spec {ev : LockEvent} (h : enabledCheck s ev = true) : Enabled s ev := by
  cases ev with
  | wakeUp t => exact of_decide_eq_true (p := t ∈ s.k.allocated) h
  | childAwoken pid => trivial
  | step t request =>
    unfold enabledCheck at h
    rw [Bool.and_eq_true, decide_eq_true_eq] at h
    refine ⟨h.1, fun l hpc => ?_⟩
    have hany := h.2
    rw [hpc] at hany
    obtain ⟨n, _, hn⟩ := List.any_eq_true.mp hany
    exact ⟨n, of_decide_eq_true hn⟩

def runEvents (check : LockRun → LockEvent → Bool) : List LockEvent → LockRun → Option LockRun
  | [], s => some s
  | ev :: evs, s =>
    if enabledCheck s ev && check s ev then (lockStep ev s).bind (runEvents check evs) else none

theorem LockReach.run {allowed : LockRun → LockEvent → Prop} {check : LockRun → LockEvent → Bool}
    (hcheck : ∀ s ev, check s ev = true → allowed s ev) {evs : List LockEvent} (h : LockReach allowed s)
    (he : runEvents check evs s = some s') : LockReach allowed s' := by
  induction evs generalizing s with
  | nil =>
    cases he
    exact h
  | cons ev evs ih =>
    unfold runEvents at he
    split at he
    · next hpass =>
      rw [Bool.and_eq_true] at hpass
      obtain ⟨s₁, hone, hrest⟩ := Option.bind_eq_some_iff.mp he
      obtain ⟨k₀, h₀, hrun⟩ := h
      have hstep : LockStep allowed s s₁ := ⟨ev, hcheck s ev hpass.2, enabledCheck_spec hpass.1, hone⟩
      exact ih ⟨k₀, h₀, hrun.tail hstep⟩ hrest
    · cases he

theorem runEvents_pc {check : LockRun → LockEvent → Bool} {evs : List LockEvent} {u : ℕ}
    (hu : ∀ ev ∈ evs, ∀ request, ev ≠ .step u request) (he : runEvents check evs s = some s') :
    s'.pc u = s.pc u := by
  induction evs generalizing s with
  | nil =>
    cases he
    rfl
  | cons ev evs ih =>
    unfold runEvents at he
    split at he
    · obtain ⟨s₁, hone, hrest⟩ := Option.bind_eq_some_iff.mp he
      rw [ih (fun ev hev => hu ev (List.mem_cons_of_mem _ hev)) hrest]
      cases ev with
      | wakeUp t =>
        cases hone
        rfl
      | childAwoken pid =>
        cases hone
        rfl
      | step t request =>
        have hut : u ≠ t := fun e => hu _ (List.mem_cons_self ..) request (by rw [e])
        have hone : threadStep t request s = some s₁ := hone
        have htest : ∀ l k, (s.test t l k).pc u = s.pc u := by
          intro l k
          unfold LockRun.test
          dsimp only
          split
          · exact goTo_of_ne hut _
          · exact goTo_of_ne hut _
        rw [threadStep_eq] at hone
        split at hone
        · cases hone
          exact htest _ _
        · cases hone
          exact goTo_of_ne hut _
        · cases hone
          exact goTo_of_ne hut _
        · cases hone
          exact goTo_of_ne hut _
        · cases hone
          exact htest _ _
        · obtain ⟨k', _, rfl⟩ := Option.map_eq_some_iff.mp hone
          exact goTo_of_ne hut _
    · cases he

end Lists

def readyMachine : Machine :=
  { (execAll [.wakeUp 0x2000, .create 0x3000 0 0, .wakeUp 0x3000, .create 0x4000 0 0, .wakeUp 0x4000]
      started).getD blankMachine with waits := ⟨fun n => n, fun n => n⟩ }

theorem readyMachine_ready : LocksReady readyMachine := by
  have hrun : (execAll [.wakeUp 0x2000, .create 0x3000 0 0, .wakeUp 0x3000, .create 0x4000 0 0,
      .wakeUp 0x4000] started).isSome := by decide +kernel
  have hreach := (started_reach anyOp).execAll (execAll_getD hrun)
  obtain ⟨E, hi⟩ := hreach.idleInv
  exact ⟨⟨E, hi.queues.congr rfl rfl rfl⟩, fun _ => ⟨rfl, rfl⟩⟩

def secondBlocks : List LockEvent :=
  [.step 0x3000 (.getLock 0), .step 0x4000 (.getLock 0), .step 0x4000 (.getLock 0),
    .step 0x4000 (.getLock 0)]

def orderlyCheck (s : LockRun) : LockEvent → Bool
  | .step t _ =>
    match s.pc t with
    | .sleep _ => (s.k.threads t).pid ≠ idlePid
    | .dequeue _ => false
    | _ => true
  | _ => false

theorem orderlyCheck_spec {s : LockRun} {ev : LockEvent} (h : orderlyCheck s ev = true) : Orderly s ev := by
  cases ev with
  | wakeUp t => cases h
  | childAwoken pid => cases h
  | step t request =>
    unfold orderlyCheck at h
    dsimp only at h
    refine ⟨fun l hpc => ?_, fun l hpc => ?_⟩
    · rw [hpc] at h
      exact of_decide_eq_true h
    · rw [hpc] at h
      cases h

def secondBlocked : LockRun :=
  (runEvents orderlyCheck secondBlocks ⟨readyMachine, fun _ => .outside⟩).getD
    ⟨readyMachine, fun _ => .outside⟩

theorem runEvents_getD {check : LockRun → LockEvent → Bool} {evs : List LockEvent} {s d : LockRun}
    (h : (runEvents check evs s).isSome) : runEvents check evs s = some ((runEvents check evs s).getD d) := by
  obtain ⟨s', hs'⟩ := Option.isSome_iff_exists.mp h
  rw [hs']
  rfl

theorem wait_queues_second : ∃ W : ℕ → List ℕ,
    Carries secondBlocked.k.waits (.threadsWaiting 0) ((W 0).map .waitq) ∧ 0x4000 ∈ W 0 := by
  have hstart : LockReach Orderly ⟨readyMachine, fun _ => .outside⟩ := ⟨_, readyMachine_ready, .refl⟩
  have hrun : runEvents orderlyCheck secondBlocks ⟨readyMachine, fun _ => .outside⟩ =
      some secondBlocked := runEvents_getD (by decide +kernel)
  obtain ⟨W, hcarries, _, _, hblocked⟩ := wait_queues (hstart.run (fun _ _ => orderlyCheck_spec) hrun)
  refine ⟨W, hcarries 0, (hblocked 0 0x4000).mpr (.inr ⟨by decide +kernel, 1, by decide +kernel⟩)⟩

/-- The second thread is woken from outside while the lock is held, and links itself again. -/
def relinked : LockRun :=
  (runEvents (fun _ _ => true) (secondBlocks ++ [.wakeUp 0x4000, .step 0x4000 (.getLock 0),
    .step 0x4000 (.getLock 0)]) ⟨readyMachine, fun _ => .outside⟩).getD ⟨readyMachine, fun _ => .outside⟩

/-- Its node then names itself as its predecessor. -/
theorem foreign_wake_breaks_queue : LockReach (fun _ _ => True) relinked ∧
    ¬ ∃ W : ℕ → List ℕ, ∀ l, Carries relinked.k.waits (.threadsWaiting l) ((W l).map .waitq) := by
  have hstart : LockReach (fun _ _ => True) ⟨readyMachine, fun _ => .outside⟩ :=
    ⟨_, readyMachine_ready, .refl⟩
  have hrun : runEvents (fun _ _ => true) (secondBlocks ++ [.wakeUp 0x4000, .step 0x4000 (.getLock 0),
      .step 0x4000 (.getLock 0)]) ⟨readyMachine, fun _ => .outside⟩ = some relinked :=
    runEvents_getD (by decide +kernel)
  refine ⟨hstart.run (fun _ _ _ => trivial) hrun, ?_⟩
  rintro ⟨W, hW⟩
  have hfirst : relinked.k.waits.next (.threadsWaiting 0) = .waitq 0x4000 := by decide +kernel
  have hmem : WaitNode.waitq 0x4000 ∈ WaitNode.threadsWaiting 0 :: (W 0).map WaitNode.waitq :=
    hfirst ▸ (hW 0).next_node (List.mem_cons_self ..)
  have hin : WaitNode.waitq 0x4000 ∈ (W 0).map WaitNode.waitq := by simpa using hmem
  exact absurd ((hW 0).next_prev hin) (by decide +kernel)

end X86Osdev.Lock

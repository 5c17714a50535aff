import Mathlib.Data.Nat.ModEq
import X86Osdev.Kernel.RunQueue
import X86Osdev.Library.Runs

/-! Thread identifiers: the 32-bit counter is cut to 16 bits when a thread is created. -/

namespace X86Osdev.Kernel
open CircularList X86Osdev.Mem X86Osdev.Proc X86Osdev.Lock

/-- `created` threads have been created so far, and `born` of them before a thread; the first two, `idle_thread`
and `init_thread`, have been given the numbers 0 and 1 by hand. -/
structure PidRun where
  k : Machine
  created : ℕ
  born : ℕ → ℕ

def PidRun.next (s : PidRun) (k : Machine) : ThreadOp → PidRun
  | .create t _ _ => ⟨k, s.created + 1, Function.update s.born t s.created⟩
  | _ => ⟨k, s.created, s.born⟩

def pidStep (op : ThreadOp) (s : PidRun) : Option PidRun := (exec op s.k).map fun k => s.next k op

inductive PidStart : PidRun → Prop
  | init {t u w e : ℕ} {k : Machine} : Booting t k → k.currentThread = t → u ∉ k.allocated → u ≠ 0 →
      u < 2 ^ 32 → PidStart ⟨initIdle u w e k, 2, Function.update (fun _ => 1) u 0⟩

def PidReach (allowed : PidRun → ThreadOp → Prop) (s : PidRun) : Prop :=
  ∃ s₀, PidStart s₀ ∧ Runs.Steps pidStep (fun s op => Refers s.k op ∧ allowed s op) s₀ s

/-- No thread is created when the counter has come round, once or more often, since the creation of a thread
that is still there. -/
def NotLapped (s : PidRun) : ThreadOp → Prop
  | .create _ _ _ => ∀ u ∈ s.k.kThreads, ¬ 2 ^ 16 ∣ s.created - s.born u
  | _ => True

instance (s : PidRun) : DecidablePred (NotLapped s) := fun op =>
  match op with
  | .create _ _ _ => inferInstanceAs (Decidable (∀ u ∈ s.k.kThreads, ¬ 2 ^ 16 ∣ s.created - s.born u))
  | .overwrite _ _ _ _ | .wakeUp _ | .sleep _ | .stop _ | .childAwoken _ | .kill _ | .exit _ | .sysKill _ _
  | .wait4 _ | .wait4Done _ | .wait4all | .wait4allDone | .sleepMs _ | .signals _ | .timers | .reschedule _
  | .tick _ | .exterminate | .getLock _ | .unlock _ => inferInstanceAs (Decidable True)

/-- Pids identify threads, and that of the idle thread is `IDLE_PID`. -/
structure PidsIdentify (k : Machine) : Prop where
  nodup : k.kThreads.Nodup
  distinct : ∀ t ∈ k.kThreads, ∀ u ∈ k.kThreads, (k.threads t).pid = (k.threads u).pid → t = u
  idle : ∀ t ∈ k.kThreads, (k.threads t).pid = idlePid ↔ t = k.idleThread
  found : ∀ t ∈ k.kThreads, getThread (k.threads t).pid k = some t

structure Numbered (s : PidRun) : Prop where
  inv : ∃ E, IdleInv False s.k E
  counter : s.k.nextPid = u32 s.created
  pid : ∀ t ∈ s.k.kThreads, (s.k.threads t).pid = u16 (s.born t)
  earlier : ∀ t ∈ s.k.kThreads, s.born t < s.created
  injective : ∀ t ∈ s.k.kThreads, ∀ u ∈ s.k.kThreads, s.born t = s.born u → t = u

section Boot
variable {t : ℕ} {k : Machine}

/-- During the boot `init_thread` is the only thread and has pid 1. -/
theorem Booting.pid_init (h : Booting t k) : k.kThreads = [t] ∧ (k.threads t).pid = 1 := by
  induction h with
  | start w e k hne hlt =>
    refine ⟨rfl, ?_⟩
    dsimp only [initKernelProc, wakeUpThread]
    refine (pid_setState _ t t .runnable).trans ?_
    simp [Machine.modify]
  | tick hb hr he ih =>
    obtain ⟨E, hq⟩ := hb.inv
    have hm := exec_moves hq hr (fun h => h) he
    exact ⟨hm.kThreads.trans ih.1, (hm.pid t).trans ih.2⟩

theorem PidStart.numbered {s : PidRun} (h : PidStart s) : Numbered s := by
  cases h with
  | @init t u w e k h hcur hu hne hlt =>
    obtain ⟨E, hq⟩ := h.inv
    obtain ⟨hprocs, hpid⟩ := h.pid_init
    have hidle := idleInv_initIdle hq hu hne hlt w e
    have htu : t ≠ u := by
      rintro rfl
      exact hu (by rw [← hq.procs, hprocs]; exact List.mem_singleton.mpr rfl)
    have hprocs' : (initIdle u w e k).kThreads = [u, t] := by
      refine (createThread_kThreads u w e k).trans ?_
      rw [hprocs]
    have hu0 : ((initIdle u w e k).threads u).pid = 0 := hidle.pid
    have ht1 : ((initIdle u w e k).threads t).pid = 1 := by
      refine Eq.trans ?_ hpid
      refine (congrArg Thread.pid (Function.update_of_ne htu _ _)).trans ?_
      exact createThread_keeps (f := Thread.pid) (fun _ _ => rfl) htu w e k
    have hborn : Function.update (fun _ => 1) u 0 t = 1 := Function.update_of_ne htu ..
    refine ⟨⟨E, hidle⟩, rfl, ?_, ?_, ?_⟩
    · simp [hprocs', hu0, ht1, hborn, u16]
    · simp [hprocs', hborn]
    · simp [hprocs', hborn]

end Boot

section Steps
variable {s s' : PidRun} {k k' : Machine} {E : Queue → List ℕ} {op : ThreadOp} {t : ℕ}

theorem createThread_pid (t w e : ℕ) (k : Machine) :
    ((createThread t w e k).threads t).pid = u16 k.nextPid :=
  createThread_new (f := Thread.pid) (fun _ _ => rfl) t w e k

theorem foldl_reap_kThreads (l : List ℕ) (k : Machine) :
    (l.foldl (fun k t => reap t k) k).kThreads ⊆ k.kThreads := by
  induction l generalizing k with
  | nil => exact fun _ h => h
  | cons t l ih => exact fun u hu => List.mem_of_mem_erase (ih (reap t k) hu)

theorem foldl_reap_nextPid (l : List ℕ) (k : Machine) :
    (l.foldl (fun k t => reap t k) k).nextPid = k.nextPid := by
  induction l generalizing k with
  | nil => rfl
  | cons t l ih => exact ih (reap t k)

theorem Numbered.kept (h : Numbered s) (hinv : ∃ E, IdleInv False k E) (hthreads : k.kThreads ⊆ s.k.kThreads)
    (hpid : ∀ u ∈ s.k.kThreads, (k.threads u).pid = (s.k.threads u).pid) (hcounter : k.nextPid = s.k.nextPid) :
    Numbered ⟨k, s.created, s.born⟩ := by
  refine ⟨hinv, hcounter.trans h.counter, fun t ht => ?_, fun t ht => h.earlier t (hthreads ht), ?_⟩
  · exact (hpid t (hthreads ht)).trans (h.pid t (hthreads ht))
  · exact fun t ht u hu => h.injective t (hthreads ht) u (hthreads hu)

theorem Numbered.create (h : Numbered s) (ht : t ∉ s.k.kThreads) (w e : ℕ)
    (hinv : ∃ E, IdleInv False (createThread t w e s.k) E) :
    Numbered ⟨createThread t w e s.k, s.created + 1, Function.update s.born t s.created⟩ := by
  have hne : ∀ u ∈ s.k.kThreads, u ≠ t := by
    rintro u hu rfl
    exact ht hu
  have hborn : ∀ u ∈ s.k.kThreads, Function.update s.born t s.created u = s.born u := fun u hu =>
    Function.update_of_ne (hne u hu) ..
  have hself : Function.update s.born t s.created t = s.created := Function.update_self ..
  refine ⟨hinv, ?_, ?_, ?_, ?_⟩
  · rw [(createThread_fixed t w e s.k).2.2.2.2.2, h.counter]
    simp [u32]
  · show ∀ u ∈ (createThread t w e s.k).kThreads, ((createThread t w e s.k).threads u).pid =
      u16 (Function.update s.born t s.created u)
    rw [createThread_kThreads, List.forall_mem_cons]
    refine ⟨?_, fun u hu => ?_⟩
    · rw [createThread_pid, h.counter, hself]
      simp [u16, u32]
    · rw [hborn u hu]
      exact (createThread_keeps (f := Thread.pid) (fun _ _ => rfl) (hne u hu) w e s.k).trans (h.pid u hu)
  · show ∀ u ∈ (createThread t w e s.k).kThreads, Function.update s.born t s.created u < s.created + 1
    rw [createThread_kThreads, List.forall_mem_cons, hself]
    refine ⟨Nat.lt_succ_self _, fun u hu => ?_⟩
    rw [hborn u hu]
    exact Nat.lt_succ_of_lt (h.earlier u hu)
  · show ∀ x ∈ (createThread t w e s.k).kThreads, ∀ y ∈ (createThread t w e s.k).kThreads,
      Function.update s.born t s.created x = Function.update s.born t s.created y → x = y
    rw [createThread_kThreads]
    simp only [List.forall_mem_cons, hself]
    refine ⟨⟨fun _ => trivial, fun y hy hxy => ?_⟩, fun x hx => ⟨fun hxy => ?_, fun y hy hxy => ?_⟩⟩
    · rw [hborn y hy] at hxy
      exact absurd hxy (h.earlier y hy).ne'
    · rw [hborn x hx] at hxy
      exact absurd hxy (h.earlier x hx).ne
    · rw [hborn x hx, hborn y hy] at hxy
      exact h.injective x hx y hy hxy

theorem Numbered.step (h : Numbered s) (hr : Refers s.k op) (hs : pidStep op s = some s') : Numbered s' := by
  obtain ⟨k', he, rfl⟩ := Option.map_eq_some_iff.mp hs
  obtain ⟨E, hi⟩ := h.inv
  have hi' : ∃ E, IdleInv False k' E := by
    obtain ⟨E', hi', _⟩ := hi.exec hr he
    exact ⟨E', hi'⟩
  by_cases hlife : op.Lifetime
  · cases op with
    | create t w e =>
      cases he
      exact h.create (hi.queues.procs ▸ hr.1) w e hi'
    | overwrite t p next prev =>
      cases he
      refine h.kept hi' (List.Subset.refl _) (fun u hu => ?_) rfl
      have hut : u ≠ t := by
        rintro rfl
        exact hr (hi.queues.procs ▸ hu)
      rw [overwrite_threads hut]
    | exterminate =>
      have hrun := (exterminate_spec hi.queues).1
      rw [show Proc.exterminate s.k = some k' from he] at hrun
      cases hrun
      exact h.kept hi' (foldl_reap_kThreads _ _)
        (fun u _ => foldl_reap_keeps (g := Thread.pid) (fun _ _ => rfl) (doomed s.k E) s.k u)
        (foldl_reap_nextPid _ _)
    | _ => exact hlife.elim
  · have hm := exec_moves hi.queues hr hlife he
    have hnext : s.next k' op = ⟨k', s.created, s.born⟩ := by
      cases op with
      | create t w e => exact absurd trivial hlife
      | _ => rfl
    rw [hnext]
    exact h.kept hi' (fun u hu => hm.kThreads ▸ hu) (fun u _ => hm.pid u) hm.nextPid

theorem PidReach.numbered {allowed : PidRun → ThreadOp → Prop} (h : PidReach allowed s) : Numbered s := by
  obtain ⟨s₀, h₀, hrun⟩ := h
  exact hrun.invariant (fun _ _ _ hn hok hs => hn.step hok.1 hs) h₀.numbered

def PidsApart (s : PidRun) : Prop :=
  ∀ t ∈ s.k.kThreads, ∀ u ∈ s.k.kThreads, u16 (s.born t) = u16 (s.born u) → t = u

theorem Numbered.identify (h : Numbered s) (hapart : PidsApart s) : PidsIdentify s.k := by
  obtain ⟨E, hi⟩ := h.inv
  have hdistinct : ∀ t ∈ s.k.kThreads, ∀ u ∈ s.k.kThreads,
      (s.k.threads t).pid = (s.k.threads u).pid → t = u := by
    intro t ht u hu hpid
    rw [h.pid t ht, h.pid u hu] at hpid
    exact hapart t ht u hu hpid
  have hidle : s.k.idleThread ∈ s.k.kThreads := hi.queues.procs ▸ hi.unreaped
  refine ⟨hi.queues.procs ▸ hi.queues.nodup, hdistinct, fun t ht => ⟨fun h0 => ?_, ?_⟩, fun t ht => ?_⟩
  · exact hdistinct t ht _ hidle (h0.trans hi.pid.symm)
  · rintro rfl
    exact hi.pid
  · have hsome : (getThread (s.k.threads t).pid s.k).isSome := by
      unfold getThread
      exact List.find?_isSome.mpr ⟨t, ht, by simp⟩
    obtain ⟨u, hu⟩ := Option.isSome_iff_exists.mp hsome
    rw [hu, hdistinct u (getThread_mem hu) t ht (getThread_pid hu)]

theorem PidsApart.step (h : PidsApart s) (hn : Numbered s) (hr : Refers s.k op) (hop : NotLapped s op)
    (hs : pidStep op s = some s') : PidsApart s' := by
  obtain ⟨k', he, rfl⟩ := Option.map_eq_some_iff.mp hs
  obtain ⟨E, hi⟩ := hn.inv
  have hfewer : k'.kThreads ⊆ s.k.kThreads → PidsApart ⟨k', s.created, s.born⟩ :=
    fun hsub t ht u hu => h t (hsub ht) u (hsub hu)
  by_cases hlife : op.Lifetime
  · cases op with
    | create t w e =>
      cases he
      have hne : ∀ u ∈ s.k.kThreads, u ≠ t := by
        rintro u hu rfl
        exact hr.1 (hi.queues.procs ▸ hu)
      have hborn : ∀ u ∈ s.k.kThreads, Function.update s.born t s.created u = s.born u := fun u hu =>
        Function.update_of_ne (hne u hu) ..
      have hself : Function.update s.born t s.created t = s.created := Function.update_self ..
      -- Numbers that agree modulo `2 ^ 16` would mean that the counter has come round.
      have hnew : ∀ u ∈ s.k.kThreads, u16 (s.born u) ≠ u16 s.created := fun u hu heq =>
        hop u hu ((Nat.modEq_iff_dvd' (hn.earlier u hu).le).mp heq)
      show ∀ x ∈ (createThread t w e s.k).kThreads, ∀ y ∈ (createThread t w e s.k).kThreads,
        u16 (Function.update s.born t s.created x) = u16 (Function.update s.born t s.created y) → x = y
      rw [createThread_kThreads]
      simp only [List.forall_mem_cons, hself]
      refine ⟨⟨fun _ => trivial, fun y hy hxy => ?_⟩, fun x hx => ⟨fun hxy => ?_, fun y hy hxy => ?_⟩⟩
      · rw [hborn y hy] at hxy
        exact absurd hxy.symm (hnew y hy)
      · rw [hborn x hx] at hxy
        exact absurd hxy (hnew x hx)
      · rw [hborn x hx, hborn y hy] at hxy
        exact h x hx y hy hxy
    | overwrite t p next prev =>
      cases he
      exact hfewer (List.Subset.refl _)
    | exterminate =>
      have hrun := (exterminate_spec hi.queues).1
      rw [show Proc.exterminate s.k = some k' from he] at hrun
      cases hrun
      exact hfewer (foldl_reap_kThreads _ _)
    | _ => exact hlife.elim
  -- No other operation adds a thread.
  · have hm := exec_moves hi.queues hr hlife he
    have hnext : s.next k' op = ⟨k', s.created, s.born⟩ := by
      cases op with
      | create t w e => exact absurd trivial hlife
      | _ => rfl
    rw [hnext]
    exact hfewer fun u hu => hm.kThreads ▸ hu

/-- A thread that laps another one gets its pid. -/
theorem Numbered.notLapped (h : Numbered s) (hr : Refers s.k op) (hs : pidStep op s = some s')
    (hids : PidsIdentify s'.k) : NotLapped s op := by
  cases op with
  | create t w e =>
    obtain ⟨k', he, rfl⟩ := Option.map_eq_some_iff.mp hs
    cases he
    obtain ⟨E, hi⟩ := h.inv
    intro u hu hlap
    have hne : u ≠ t := by
      rintro rfl
      exact hr.1 (hi.queues.procs ▸ hu)
    have hsame : u16 (s.born u) = u16 s.created := (Nat.modEq_iff_dvd' (h.earlier u hu).le).mpr hlap
    have hold : ((createThread t w e s.k).threads u).pid = u16 (s.born u) :=
      (createThread_keeps (f := Thread.pid) (fun _ _ => rfl) hne w e s.k).trans (h.pid u hu)
    have hnew : ((createThread t w e s.k).threads t).pid = u16 s.created := by
      rw [createThread_pid, h.counter]
      simp [u16, u32]
    have hmem : ∀ x, x = t ∨ x ∈ s.k.kThreads → x ∈ (createThread t w e s.k).kThreads := by
      rw [createThread_kThreads]
      exact fun x hx => List.mem_cons.mpr hx
    exact hne (hids.distinct u (hmem u (.inr hu)) t (hmem t (.inl rfl)) (hold.trans (hsame.trans hnew.symm)))
  | _ => trivial

/-- As long as the counter has not come round, numbers that differ differ modulo `2 ^ 16`. -/
theorem Numbered.apart (h : Numbered s) (hfew : s.created ≤ 2 ^ 16) : PidsApart s := by
  intro t ht u hu heq
  refine h.injective t ht u hu ?_
  have hlt := (h.earlier t ht).trans_le hfew
  have hlt' := (h.earlier u hu).trans_le hfew
  unfold u16 at heq
  rwa [Nat.mod_eq_of_lt hlt, Nat.mod_eq_of_lt hlt'] at heq

theorem PidReach.apart (h : PidReach NotLapped s) : PidsApart s := by
  obtain ⟨s₀, h₀, hrun⟩ := h
  have hstart : Numbered s₀ ∧ PidsApart s₀ := by
    refine ⟨h₀.numbered, h₀.numbered.apart ?_⟩
    cases h₀ with
    | init =>
      show 2 ≤ 2 ^ 16
      decide
  exact (hrun.invariant (I := fun s => Numbered s ∧ PidsApart s)
    (fun _ _ _ hi hok hs => ⟨hi.1.step hok.1 hs, hi.2.step hi.1 hok.1 hok.2 hs⟩) hstart).2

/-- The first 65534 creations after the boot meet no pid that is in use. -/
theorem pids_identify_first {allowed : PidRun → ThreadOp → Prop} (h : PidReach allowed s)
    (hfew : s.created ≤ 2 ^ 16) : PidsIdentify s.k := h.numbered.identify (h.numbered.apart hfew)

end Steps

/-- Pids identify threads in every run in which no new thread laps a thread that is still there. -/
theorem pids_unique {s : PidRun} (h : PidReach NotLapped s) : PidsIdentify s.k := h.numbered.identify h.apart

theorem started_pidStart : PidStart ⟨started, 2, Function.update (fun _ => 1) 0x2000 0⟩ := by
  obtain ⟨k, hboot, hcur, hout, hstart⟩ := started_boot
  rw [hstart]
  exact .init hboot hcur hout (by decide) (by decide)

/-- `init` creates a thread and waits for it; that creates another one and exits; the exterminator reaps it, and
its memory is used for a third one. -/
def thirdOps : List ThreadOp :=
  [.wakeUp 0x2000, .create 0x3000 0 0, .wakeUp 0x3000, .wait4 2, .reschedule 100, .create 0x4000 0 0,
    .wakeUp 0x4000, .exit 0, .reschedule 200, .sleep 0x4000, .reschedule 300, .wait4Done 0x3000, .exterminate,
    .create 0x3000 0 0]

def thirdCreated : PidRun :=
  let s : PidRun := ⟨started, 2, Function.update (fun _ => 1) 0x2000 0⟩
  (Runs.runList pidStep (fun s op => decide (Refers s.k op ∧ NotLapped s op)) thirdOps s).getD s

theorem pids_unique_third : getThread 3 thirdCreated.k = some 0x4000 ∧ getThread 4 thirdCreated.k = some 0x3000 := by
  have hrun : Runs.runList pidStep (fun s op => decide (Refers s.k op ∧ NotLapped s op)) thirdOps
      ⟨started, 2, Function.update (fun _ => 1) 0x2000 0⟩ = some thirdCreated :=
    Runs.runList_getD (by decide +kernel)
  have hreach : PidReach NotLapped thirdCreated :=
    ⟨_, started_pidStart, Runs.runList_steps (fun _ _ h => of_decide_eq_true h) hrun⟩
  have hids := pids_unique hreach
  have hpids : (thirdCreated.k.threads 0x4000).pid = 3 ∧ (thirdCreated.k.threads 0x3000).pid = 4 := by
    decide +kernel
  have hchild := hids.found 0x4000 (by decide +kernel)
  have hthird := hids.found 0x3000 (by decide +kernel)
  rw [hpids.1] at hchild
  rw [hpids.2] at hthird
  exact ⟨hchild, hthird⟩

section Wrap
variable {k : Machine} {n : ℕ}

structure Between (n : ℕ) (k : Machine) : Prop where
  reach : ThreadReach anyOp k
  queues : ∃ E, QueueInv k E ∧ E .stopped = []
  current : k.currentThread = 0x1000
  idle : k.idleThread = 0x2000
  procs : k.kThreads = [0x2000, 0x1000]
  pids : (k.threads 0x1000).pid = 1 ∧ (k.threads 0x2000).pid = 0
  counter : k.nextPid = n

structure Holding (n : ℕ) (state : TaskState) (k : Machine) : Prop where
  reach : ThreadReach anyOp k
  queues : ∃ E, QueueInv k E ∧ E .stopped = [0x3000]
  current : k.currentThread = 0x1000
  idle : k.idleThread = 0x2000
  procs : k.kThreads = [0x3000, 0x2000, 0x1000]
  pids : (k.threads 0x1000).pid = 1 ∧ (k.threads 0x2000).pid = 0 ∧ (k.threads 0x3000).pid = n
  state : (k.threads 0x3000).state = state
  counter : k.nextPid = n + 1

theorem Between.fresh (h : Between n k) : Refers k (.create 0x3000 0 0) := by
  obtain ⟨E, hq, _⟩ := h.queues
  refine ⟨?_, by decide, by decide⟩
  rw [← hq.procs, h.procs]
  decide

/-- `create_kernel_thread` and `kill_process` while the counter is below `2 ^ 16`. -/
theorem Between.create_kill (h : Between n k) (htwo : 2 ≤ n) (hn : n < 2 ^ 16) :
    ∃ k', Holding n .stopped k' := by
  obtain ⟨E, hq, hstopped⟩ := h.queues
  obtain ⟨_, _, hprocs, hcur, hidle, hcounter⟩ := createThread_fixed 0x3000 0 0 k
  have hpid : ((createThread 0x3000 0 0 k).threads 0x3000).pid = n := by
    rw [createThread_pid, h.counter]
    exact Nat.mod_eq_of_lt hn
  have hfather : ((createThread 0x3000 0 0 k).threads 0x3000).father = 0x1000 :=
    (createThread_new (f := Thread.father) (fun _ _ => rfl) 0x3000 0 0 k).trans h.current
  have hinit : ((createThread 0x3000 0 0 k).threads 0x1000).pid = 1 :=
    (createThread_keeps (f := Thread.pid) (fun _ _ => rfl) (by decide) 0 0 k).trans h.pids.1
  have hzero : ((createThread 0x3000 0 0 k).threads 0x2000).pid = 0 :=
    (createThread_keeps (f := Thread.pid) (fun _ _ => rfl) (by decide) 0 0 k).trans h.pids.2
  have hq₁ := hq.create h.fresh.1 h.fresh.2.1 h.fresh.2.2 0 0
  have hreach : ThreadReach anyOp (createThread 0x3000 0 0 k) :=
    h.reach.step ⟨.create 0x3000 0 0, trivial, h.fresh, rfl⟩
  rw [h.procs] at hprocs
  rw [h.counter, u32, Nat.mod_eq_of_lt (by omega)] at hcounter
  generalize createThread 0x3000 0 0 k = k₁ at *
  have hmem : 0x3000 ∈ k₁.allocated := by
    rw [← hq₁.procs, hprocs]
    exact List.mem_cons_self ..
  have hp : (k₁.threads 0x3000).pid ≠ idlePid := by
    rw [hpid]
    unfold idlePid
    omega
  -- The number of the new thread is neither 0 nor 1, so the father is the one that is found by its pid.
  have hawoken : awoken 0x3000 k₁ = some 0x1000 := by
    have hone : n ≠ 1 := by omega
    unfold awoken getThread
    rw [hfather, hinit, hprocs]
    simp [hpid, hzero, hinit, hone]
  have hkill := killProcess_moves (fun u hu => hq₁.procs ▸ hu) hmem
  refine ⟨killProcess 0x3000 k₁, ⟨hreach.step ⟨.kill 0x3000, trivial, hmem, rfl⟩,
    ⟨_, hq₁.kill hmem hp hawoken, ?_⟩, ?_, ?_, ?_, ⟨?_, ?_, ?_⟩, ?_, ?_⟩⟩
  · simp [movedTail, movedHead, without, hstopped]
  · rw [(killProcess_fixed 0x3000 k₁).2.1, hcur, h.current]
  · rw [hkill.idleThread, hidle, h.idle]
  · rw [hkill.kThreads, hprocs]
  · rw [hkill.pid, hinit]
  · rw [hkill.pid, hzero]
  · rw [hkill.pid, hpid]
  · exact (killProcess_state hp 0x3000).trans (if_pos rfl)
  · rw [hkill.nextPid, hcounter]

theorem Holding.wait4 (h : Holding n .stopped k) : ∃ k', Holding n .zombie k' := by
  obtain ⟨E, hq, hstopped⟩ := h.queues
  have hget : getThread n k = some 0x3000 := by
    unfold getThread
    rw [h.procs]
    simp [h.pids.2.2]
  have hcur : k.currentThread ∈ k.allocated := by
    rw [h.current, ← hq.procs, h.procs]
    simp
  have hwait : (sysWait4 n k).2 = (sysWait4Done 0x3000 k).2 := by
    unfold sysWait4
    simp only [hget, h.state, TaskState.ko, if_true]
  have hm := sysWait4_moves hcur n
  have hset : Quiet k (k.modify k.currentThread fun t => { t with wait4 := 0 }) :=
    Quiet.modify k _ _ (fun _ => rfl) fun _ => rfl
  have hq' : QueueInv (sysWait4Done 0x3000 k).2 (movedTail E .running k.currentThread) :=
    ((hq.quiet hset).setState 0x3000 .zombie).play (m := .wake k.currentThread .runnable) hcur
  rw [← hwait] at hq'
  refine ⟨(sysWait4 n k).2, ⟨h.reach.step ⟨.wait4 n, trivial, hcur, rfl⟩, ⟨_, hq', ?_⟩,
    ?_, ?_, ?_, ⟨?_, ?_, ?_⟩, ?_, ?_⟩⟩
  · simp [movedTail, without, hstopped, h.current]
  · rw [hwait]
    exact h.current
  · rw [hm.idleThread, h.idle]
  · rw [hm.kThreads, h.procs]
  · rw [hm.pid, h.pids.1]
  · rw [hm.pid, h.pids.2.1]
  · rw [hm.pid, h.pids.2.2]
  · rw [hwait]
    refine (state_setState _ k.currentThread 0x3000 .runnable).trans ?_
    rw [if_neg (by rw [h.current]; decide)]
    exact (state_setState _ 0x3000 0x3000 .zombie).trans (if_pos rfl)
  · rw [hm.nextPid, h.counter]

theorem Holding.exterminate (h : Holding n .zombie k) : ∃ k', Between (n + 1) k' := by
  obtain ⟨E, hq, hstopped⟩ := h.queues
  obtain ⟨hrun, hinv⟩ := exterminate_spec hq
  have hdoomed : doomed k E = [0x3000] := by
    unfold doomed
    rw [hstopped]
    simp [h.state]
  rw [hdoomed] at hrun hinv
  refine ⟨reap 0x3000 k, ⟨h.reach.step ⟨.exterminate, trivial, trivial, hrun⟩, ⟨_, hinv, ?_⟩,
    h.current, h.idle, ?_, ⟨h.pids.1, h.pids.2.1⟩, h.counter⟩⟩
  · simp [hstopped]
  · show k.kThreads.erase 0x3000 = _
    rw [h.procs]
    decide

theorem between_started : Between 2 started := by
  obtain ⟨E, hi⟩ := (started_reach anyOp).idleInv
  refine ⟨started_reach anyOp, ⟨E, hi.queues, ?_⟩, by decide +kernel, by decide +kernel,
    by decide +kernel, by decide +kernel, by decide +kernel⟩
  have hnext := (hi.queues.linkage.rings.carries .stopped).next_head
  have hself : started.queues.next (.queue .stopped) = .queue .stopped := by decide +kernel
  rw [hself] at hnext
  cases hE : E .stopped with
  | nil => rfl
  | cons t rest =>
    rw [hE] at hnext
    cases hnext

theorem exists_between (htwo : 2 ≤ n) (hn : n ≤ 2 ^ 16) : ∃ k, Between n k := by
  induction n, htwo using Nat.le_induction with
  | base => exact ⟨started, between_started⟩
  | succ n htwo ih =>
    obtain ⟨k, hk⟩ := ih (by omega)
    obtain ⟨k₁, hk₁⟩ := hk.create_kill htwo (by omega)
    obtain ⟨k₂, hk₂⟩ := hk₁.wait4
    exact hk₂.exterminate

end Wrap

/-- After 65534 threads have come and gone the next one gets the pid of the idle thread. -/
theorem second_idle_pid : ∃ k t, ThreadReach anyOp k ∧ t ∈ k.kThreads ∧ k.idleThread ∈ k.kThreads ∧
    t ≠ k.idleThread ∧ (k.threads t).pid = idlePid ∧ (k.threads k.idleThread).pid = idlePid ∧
      getThread idlePid k = some t := by
  obtain ⟨k, hk⟩ := exists_between (n := 2 ^ 16) (by decide) (by decide)
  obtain ⟨_, _, hprocs, _, hidle, _⟩ := createThread_fixed 0x3000 0 0 k
  rw [hk.procs] at hprocs
  have hpid : ((createThread 0x3000 0 0 k).threads 0x3000).pid = 0 := by
    rw [createThread_pid, hk.counter]
    decide
  have hzero : ((createThread 0x3000 0 0 k).threads 0x2000).pid = 0 :=
    (createThread_keeps (f := Thread.pid) (fun _ _ => rfl) (by decide) 0 0 k).trans hk.pids.2
  refine ⟨createThread 0x3000 0 0 k, 0x3000,
    hk.reach.step ⟨.create 0x3000 0 0, trivial, hk.fresh, rfl⟩, ?_, ?_, ?_, hpid, ?_, ?_⟩
  · rw [hprocs]
    simp
  · rw [hprocs, hidle, hk.idle]
    simp
  · rw [hidle, hk.idle]
    decide
  · rw [hidle, hk.idle]
    exact hzero
  · unfold getThread
    rw [hprocs]
    simp [hpid, idlePid]

end X86Osdev.Kernel

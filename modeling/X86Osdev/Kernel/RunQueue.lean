import X86Osdev.Kernel.ThreadMoves

/-! The run queue: from the moment `idle_thread` is woken the scheduler always finds a thread. -/

namespace X86Osdev.Kernel
open CircularList X86Osdev.Mem X86Osdev.Proc X86Osdev.Lock

def ThreadStep (allowed : Machine → ThreadOp → Prop) (k k' : Machine) : Prop :=
  ∃ op, allowed k op ∧ Refers k op ∧ exec op k = some k'

inductive Booting (t : ℕ) : Machine → Prop
  | start (w e : ℕ) (k : Machine) : t ≠ 0 → t < 2 ^ 32 → Booting t (initKernelProc t w e k)
  | tick {k k' : Machine} {now : ℕ} : Booting t k → Refers k (.tick now) →
      exec (.tick now) k = some k' → Booting t k'

inductive ThreadReach (allowed : Machine → ThreadOp → Prop) : Machine → Prop
  | init {t u w e : ℕ} {k : Machine} : Booting t k → k.currentThread = t → u ∉ k.allocated → u ≠ 0 →
      u < 2 ^ 32 → ThreadReach allowed (initIdle u w e k)
  | step {k k' : Machine} : ThreadReach allowed k → ThreadStep allowed k k' → ThreadReach allowed k'

def anyOp : Machine → ThreadOp → Prop := fun _ _ => True

/-- The states from the call `wake_up_thread(idle_thread)` on. -/
def IdleAwake (k : Machine) : Prop :=
  ∃ k₀, ThreadReach anyOp k₀ ∧
    Relation.ReflTransGen (ThreadStep anyOp) (wakeUpThread k₀.idleThread k₀) k

/-- The scheduling queues are well formed lists of the threads in `E`; no thread is in two of them, or
in one of them twice. -/
structure QueuesWellFormed (k : Machine) (E : Queue → List ℕ) : Prop where
  carries : ∀ q, Carries k.queues (.queue q) ((E q).map .head)
  once : ∀ q, (E q).Nodup
  one : ∀ q q' t, t ∈ E q → t ∈ E q' → q = q'

/-- `idle_thread` is never stopped or reaped, and stays on the running queue once it is `awake`. -/
structure IdleInv (awake : Prop) (k : Machine) (E : Queue → List ℕ) : Prop where
  queues : QueueInv k E
  unreaped : k.idleThread ∈ k.allocated
  pid : (k.threads k.idleThread).pid = idlePid
  unstopped : k.idleThread ∉ E .stopped
  running : awake → k.idleThread ∈ E .running

section Boot

theorem queueInv_listInit (k : Machine) (hp : k.kThreads = []) (ha : k.allocated = []) :
    QueueInv { k with queues := ((k.queues.listInit (.queue .sleep)).listInit
      (.queue .running)).listInit (.queue .stopped) } fun _ => [] := by
  have hout : ∀ {n : QueueNode}, n ∈ looseHeads { k with queues := ((k.queues.listInit
      (.queue .sleep)).listInit (.queue .running)).listInit (.queue .stopped) } (fun _ => []) → False := by
    rintro n ⟨t, ht, _⟩
    have ht : t ∈ k.allocated := ht
    rw [ha] at ht
    cases ht
  refine ⟨⟨⟨fun q => ⟨?_, List.nodup_singleton _⟩, fun i j hij => ?_⟩, fun n hn => (hout hn).elim,
    fun n hn => (hout hn).elim⟩, fun q t ht => (List.not_mem_nil ht).elim, ?_, ?_, ?_⟩
  · cases q with
    | running => simp [Seg, Links.listInit]
    | sleep => simp [Seg, Links.listInit]
    | stopped => simp [Seg, Links.listInit]
  · simpa using Ne.symm hij
  · exact hp.trans ha.symm
  · exact fun t ht => (List.not_mem_nil (ha ▸ ht)).elim
  · show k.allocated.Nodup
    rw [ha]
    exact List.nodup_nil

theorem queueInv_initKernelProc {t : ℕ} (hne : t ≠ 0) (hlt : t < 2 ^ 32) (w e : ℕ) (k : Machine) :
    QueueInv (initKernelProc t w e k) (movedTail (fun _ => []) .running t) := by
  dsimp only [initKernelProc]
  have hstart := (queueInv_listInit { k with
    kThreads := [], kernelTimers := [], tickCount := 0, currentThread := 0, idleThread := 0
    nextPid := idlePid, allocated := [] } rfl rfl).create (t := t) (List.not_mem_nil) hne hlt w e
  refine QueueInv.play (m := .wake t .runnable) (hstart.congr rfl rfl rfl) ?_
  exact (createThread_allocated ..).symm ▸ List.mem_cons_self ..

theorem first_switch {t : ℕ} (hne : t ≠ 0) (hlt : t < 2 ^ 32) (w e now : ℕ) (k : Machine) :
    ∃ k', exec (.tick now) (initKernelProc t w e k) = some k' ∧ k'.currentThread = t ∧
      k'.allocated = [t] := by
  have hcur : (timersRun (initKernelProc t w e k)).currentThread = 0 := rfl
  have hq : QueueInv (timersRun (initKernelProc t w e k)) (movedTail (fun _ => []) .running t) :=
    (queueInv_initKernelProc hne hlt w e k).congr rfl rfl rfl
  have hrun : movedTail (fun _ : Queue => ([] : List ℕ)) .running t .running = [t] := rfl
  obtain ⟨next, k₁, hpick, hmem⟩ := pickNextThread_spec hq (by rw [hrun]; simp)
  obtain rfl : next = t := by
    rw [hrun] at hmem
    exact List.mem_singleton.mp hmem
  have hcur₁ : k₁.currentThread = 0 := by
    obtain ⟨_, slice, rfl⟩ := pickNextThread_ok hpick
    exact hcur
  have hacc := (pickNextThread_accounting hpick).trans (chargeSwitch_accounting now next k₁)
  refine ⟨switchToThread next (chargeSwitch now next k₁), ?_, rfl, ?_⟩
  · dsimp only [exec, schedulerHandler]
    rw [if_neg fun h => h.1 hcur, hpick, Outcome.bind_ok, hcur₁, if_neg (Ne.symm hne)]
    rfl
  · exact hacc.quiet.allocated

theorem Booting.inv {t : ℕ} {k : Machine} (h : Booting t k) : ∃ E, QueueInv k E := by
  induction h with
  | start w e k hne hlt => exact ⟨_, queueInv_initKernelProc hne hlt w e k⟩
  | tick _ hr he ih =>
    obtain ⟨E, hq⟩ := ih
    obtain ⟨E', hq', _⟩ := hq.moves (exec_moves hq hr (fun h => h) he)
    exact ⟨E', hq'⟩

theorem idleInv_initIdle {u : ℕ} {k : Machine} {E : Queue → List ℕ} (hq : QueueInv k E)
    (hu : u ∉ k.allocated) (hne : u ≠ 0) (hlt : u < 2 ^ 32) (w e : ℕ) :
    IdleInv False (initIdle u w e k) E := by
  have hidle : (initIdle u w e k).idleThread = u := rfl
  refine ⟨(hq.create hu hne hlt w e).congr rfl rfl rfl, ?_, ?_, fun h => hu (hq.unreaped _ _ h),
    fun h => h.elim⟩
  · exact (createThread_allocated ..).symm ▸ List.mem_cons_self ..
  · rw [hidle]
    simp [initIdle, Machine.modify]

end Boot

section Steps
variable {awake : Prop} {k k' : Machine} {E : Queue → List ℕ} {op : ThreadOp}

theorem IdleInv.quiet (h : IdleInv awake k E) (hq : Quiet k k') : IdleInv awake k' E := by
  refine ⟨h.queues.quiet hq, ?_, ?_, ?_, ?_⟩
  · rw [hq.idleThread, hq.allocated]
    exact h.unreaped
  · rw [hq.idleThread, hq.pid]
    exact h.pid
  · rw [hq.idleThread]
    exact h.unstopped
  · rw [hq.idleThread]
    exact h.running

theorem IdleInv.idle_movedHead (h : IdleInv awake k E) {t : ℕ} (hne : k.idleThread ≠ t) (q : Queue) :
    k.idleThread ∉ movedHead E q t .stopped ∧ (awake → k.idleThread ∈ movedHead E q t .running) := by
  refine ⟨fun hs => ?_, fun ha => ?_⟩
  · rcases (mem_movedHead (h.queues.nodup_queue .stopped)).mp hs with hs | hs
    · exact hne hs.1
    · exact h.unstopped hs.2
  · exact (mem_movedHead (h.queues.nodup_queue .running)).mpr (.inr ⟨hne, h.running ha⟩)

/-- The guards on `IDLE_PID` keep the idle thread where it is; waking it again leaves it running. -/
theorem IdleInv.play {m : Move} (h : IdleInv awake k E) (hm : m.Legal k) :
    IdleInv awake (m.play k) (m.after E) := by
  have hpid : ((m.play k).threads (m.play k).idleThread).pid = idlePid := by
    rw [Move.play_pid]
    cases m with
    | stop t => exact h.pid
    | sleep t => exact h.pid
    | wake t s => exact h.pid
    | bury t => exact h.pid
  cases m with
  | stop t =>
    have hne : k.idleThread ≠ t := fun e => hm.2 (e ▸ h.pid)
    obtain ⟨hstopped, hrunning⟩ := h.idle_movedHead hne .stopped
    exact ⟨h.queues.play hm, h.unreaped, hpid, hstopped, hrunning⟩
  | sleep t =>
    have hne : k.idleThread ≠ t := fun e => hm.2 (e ▸ h.pid)
    obtain ⟨hstopped, hrunning⟩ := h.idle_movedHead hne .sleep
    exact ⟨h.queues.play hm, h.unreaped, hpid, hstopped, hrunning⟩
  | wake t s =>
    refine ⟨h.queues.play hm, h.unreaped, hpid, fun hs => ?_, fun ha => ?_⟩
    · rcases (mem_movedTail (h.queues.nodup_queue .stopped)).mp hs with hs | hs
      · cases hs.2
      · exact h.unstopped hs.2
    · by_cases hidle : k.idleThread = t
      · exact (mem_movedTail (h.queues.nodup_queue .running)).mpr (.inl ⟨hidle, rfl⟩)
      · exact (mem_movedTail (h.queues.nodup_queue .running)).mpr (.inr ⟨hidle, h.running ha⟩)
  | bury t => exact ⟨h.queues.play hm, h.unreaped, hpid, h.unstopped, h.running⟩

theorem IdleInv.moves {ok : Move → Prop} (h : IdleInv awake k E) (hm : Moves ok k k') :
    ∃ E', IdleInv awake k' E' ∧ ∀ p : ℕ → Bool, (∀ m t, ok m → m.relinks t → p t = false) →
      ∀ q, (E' q).filter p = (E q).filter p := by
  have hkeep := h.queues.moves_keep (P := fun k' E' => IdleInv awake k' E' ∧ ∀ p : ℕ → Bool,
      (∀ m t, ok m → m.relinks t → p t = false) → ∀ q, (E' q).filter p = (E q).filter p)
    ⟨h, fun _ _ _ => rfl⟩ (fun _ _ _ hi hq => ⟨hi.1.quiet hq, hi.2⟩) ?_ hm
  · obtain ⟨E', -, hi⟩ := hkeep
    exact ⟨E', hi⟩
  · intro k₁ m E₁ _ hi hok hl
    refine ⟨hi.1.play hl, fun p hp q => ?_⟩
    exact (Move.filter_after (fun t ht => hp m t hok ht) q).trans (hi.2 p hp q)

theorem IdleInv.create {t w e : ℕ} (h : IdleInv awake k E) (hr : Refers k (.create t w e)) :
    IdleInv awake (createThread t w e k) E := by
  obtain ⟨ht, hne, hlt⟩ := hr
  have hidle := (createThread_fixed t w e k).2.2.2.2.1
  refine ⟨h.queues.create ht hne hlt w e, ?_, ?_, ?_, ?_⟩
  · rw [hidle, createThread_allocated]
    exact List.mem_cons_of_mem _ h.unreaped
  · have hne' : k.idleThread ≠ t := fun e => ht (e ▸ h.unreaped)
    rw [hidle, createThread_keeps (f := Thread.pid) (fun _ _ => rfl) hne']
    exact h.pid
  · rw [hidle]
    exact h.unstopped
  · rw [hidle]
    exact h.running

theorem queueInv_overwrite {t : ℕ} {p : Thread} {next prev : QueueNode} (h : QueueInv k E)
    (ht : t ∉ k.allocated) : QueueInv (overwrite t p next prev k) E := by
  refine ⟨h.linkage.congr (h.fresh ht) ?_ ?_, h.unreaped, h.procs, h.addresses, h.nodup⟩
  · rintro ⟨u, hu, he, _⟩
    exact ht (head_injective he ▸ hu)
  · intro n hn
    simp [Kernel.overwrite, hn]

theorem IdleInv.overwrite {t : ℕ} {p : Thread} {next prev : QueueNode} (h : IdleInv awake k E)
    (ht : t ∉ k.allocated) : IdleInv awake (overwrite t p next prev k) E := by
  have hne : k.idleThread ≠ t := fun e => ht (e ▸ h.unreaped)
  refine ⟨queueInv_overwrite h.queues ht, h.unreaped, ?_, h.unstopped, h.running⟩
  exact (congrArg Thread.pid (Function.update_of_ne hne p k.threads)).trans h.pid

theorem foldl_reap_keeps {α : Type} {g : Thread → α} (hg : ∀ p l, g { p with children := l } = g p)
    (l : List ℕ) (k : Machine) : Keeps g k (l.foldl (fun k t => reap t k) k) :=
  Keeps.foldl (fun k t u => hg (k.threads u) ((k.threads u).children.erase t)) l k

theorem foldl_reap_idleThread (l : List ℕ) (k : Machine) :
    (l.foldl (fun k t => reap t k) k).idleThread = k.idleThread := by
  induction l generalizing k with
  | nil => rfl
  | cons t l ih => exact ih (reap t k)

theorem IdleInv.exterminate (h : IdleInv awake k E) (he : exterminate k = some k') :
    IdleInv awake k' fun q => (E q).filter fun t => t ∉ doomed k E := by
  obtain ⟨hrun, hinv⟩ := exterminate_spec h.queues
  rw [he] at hrun
  cases hrun
  have hout : k.idleThread ∉ doomed k E := fun hd => h.unstopped (List.mem_of_mem_filter hd)
  have hidle := foldl_reap_idleThread (doomed k E) k
  have hpid := foldl_reap_keeps (g := Thread.pid) (fun _ _ => rfl) (doomed k E) k
  refine ⟨hinv, ?_, ?_, ?_, ?_⟩
  · rw [hidle]
    exact mem_foldl_reap hout h.unreaped
  · rw [hidle, hpid]
    exact h.pid
  · rw [hidle]
    exact fun hs => h.unstopped (List.mem_of_mem_filter hs)
  · rw [hidle]
    exact fun ha => List.mem_filter.mpr ⟨h.running ha, by simpa using hout⟩

theorem IdleInv.exec (h : IdleInv awake k E) (hr : Refers k op) (he : exec op k = some k') :
    ∃ E', IdleInv awake k' E' ∧ ∀ p : ℕ → Bool, (∀ t, Moved k op t → p t = false) →
      ∀ q, (E' q).filter p = (E q).filter p := by
  by_cases hop : op.Lifetime
  · cases op with
    | create t w e =>
      cases he
      exact ⟨E, h.create hr, fun _ _ _ => rfl⟩
    | overwrite t p next prev =>
      cases he
      exact ⟨E, h.overwrite hr, fun _ _ _ => rfl⟩
    | exterminate =>
      refine ⟨_, h.exterminate he, fun p hp q => ?_⟩
      rw [List.filter_filter]
      refine List.filter_congr fun t _ => ?_
      by_cases ht : t ∈ doomed k E
      · rw [hp t (.inr ⟨rfl, by simpa using (List.mem_filter.mp ht).2⟩), Bool.false_and]
      · simp [ht]
    | _ => exact hop.elim
  · obtain ⟨E', h', hkept⟩ := h.moves (exec_moves h.queues hr hop he)
    exact ⟨E', h', fun p hp => hkept p fun m t hm ht => hp t (.inl ⟨m, hm, ht⟩)⟩

end Steps

section Runs
variable {k k' : Machine} {E : Queue → List ℕ} {op : ThreadOp}

theorem ThreadReach.idleInv {allowed : Machine → ThreadOp → Prop} (h : ThreadReach allowed k) :
    ∃ E, IdleInv False k E := by
  induction h with
  | init hb _ hu hne hlt =>
    obtain ⟨E, hq⟩ := hb.inv
    exact ⟨E, idleInv_initIdle hq hu hne hlt _ _⟩
  | step _ hs ih =>
    obtain ⟨E, hi⟩ := ih
    obtain ⟨op, _, hr, he⟩ := hs
    obtain ⟨E', hi', _⟩ := hi.exec hr he
    exact ⟨E', hi'⟩

theorem IdleAwake.inv (h : IdleAwake k) : ∃ E, IdleInv True k E := by
  obtain ⟨k₀, h₀, hrun⟩ := h
  induction hrun with
  | refl =>
    obtain ⟨E, hi⟩ := h₀.idleInv
    have hp := hi.play (m := .wake k₀.idleThread .runnable) hi.unreaped
    refine ⟨_, hp.queues, hp.unreaped, hp.pid, hp.unstopped, fun _ => ?_⟩
    exact (mem_movedTail (hi.queues.nodup_queue .running)).mpr (.inl ⟨rfl, rfl⟩)
  | tail _ hs ih =>
    obtain ⟨E, hi⟩ := ih
    obtain ⟨op, _, hr, he⟩ := hs
    obtain ⟨E', hi', _⟩ := hi.exec hr he
    exact ⟨E', hi'⟩

theorem queuesWellFormed (h : QueueInv k E) : QueuesWellFormed k E :=
  ⟨h.linkage.rings.carries, h.nodup_queue, fun _ _ _ => h.queue_unique⟩

theorem IdleInv.wellFormed {awake : Prop} (h : IdleInv awake k E) : QueuesWellFormed k E :=
  queuesWellFormed h.queues

theorem IdleInv.pick (h : IdleInv True k E) :
    ∃ next k', pickNextThread k = .ok next k' ∧ next ∈ E .running :=
  pickNextThread_spec h.queues (List.ne_nil_of_mem (h.running trivial))

theorem IdleInv.turn (h : IdleInv True k E) (now : ℕ) :
    ∃ b k', Kernel.reschedule now k = .ok b k' ∧ ∃ E', IdleInv True k' E' := by
  obtain ⟨next, k₁, hpick, -⟩ := h.pick
  have hok : ∃ b k', Kernel.reschedule now k = .ok b k' := by
    simp only [Kernel.reschedule, hpick, Outcome.bind_ok]
    split
    · exact ⟨_, _, rfl⟩
    · exact ⟨_, _, rfl⟩
  obtain ⟨b, k', hok⟩ := hok
  have hk : ∀ u ∈ k.kThreads, u ∈ k.allocated := fun u hu => h.queues.procs ▸ hu
  obtain ⟨E', hi', -⟩ := h.moves (reschedule_moves hk
    (fun next k₁ hp => h.queues.unreaped _ _ (pickNextThread_mem h.queues hp)) hok)
  exact ⟨b, k', hok, E', hi'⟩

/-- Only the wake-ups of a lock release may not end. -/
theorem IdleInv.total (h : IdleInv True k E) (hr : Refers k op) (hop : ∀ l, op ≠ .unlock l) :
    ∃ k', Kernel.exec op k = some k' := by
  cases op with
  | exterminate => exact ⟨_, (exterminate_spec h.queues).1⟩
  | reschedule now =>
    obtain ⟨b, k', hok, -⟩ := h.turn now
    exact ⟨k', congrArg after hok⟩
  | tick now =>
    obtain ⟨E', hi, _⟩ := h.moves (timersRun_moves hr.2)
    obtain ⟨next, k₁, hpick, _⟩ := hi.pick
    simp only [Kernel.exec, schedulerHandler, hpick, Outcome.bind_ok]
    split
    · exact ⟨_, rfl⟩
    · split
      · exact ⟨_, rfl⟩
      · exact ⟨_, rfl⟩
  | unlock l => exact absurd rfl (hop l)
  | _ => exact ⟨_, rfl⟩

end Runs

/-- Integrity of the scheduling queues from the moment the idle thread is woken. -/
theorem run_queue_invariant {k : Machine} (h : IdleAwake k) :
    ∃ E, QueuesWellFormed k E ∧ k.idleThread ∈ E .running ∧
      (∃ next k', pickNextThread k = .ok next k' ∧ next ∈ E .running ∧ next ≠ 0) ∧
      ∀ op, Refers k op → (∀ l, op ≠ .unlock l) → ∃ k', exec op k = some k' ∧
        ∃ E', QueuesWellFormed k' E' ∧ k'.idleThread ∈ E' .running ∧
          ∀ p : ℕ → Bool, (∀ t, Moved k op t → p t = false) →
            ∀ q, (E' q).filter p = (E q).filter p := by
  obtain ⟨E, hi⟩ := h.inv
  obtain ⟨next, k', hpick, hmem⟩ := hi.pick
  refine ⟨E, hi.wellFormed, hi.running trivial, ⟨next, k', hpick, hmem, (pickNextThread_ok hpick).1⟩, ?_⟩
  intro op hr hop
  obtain ⟨k', he⟩ := hi.total hr hop
  obtain ⟨E', hi', hkept⟩ := hi.exec hr he
  exact ⟨k', he, E', hi'.wellFormed, hi'.running trivial, hkept⟩

def blankMachine : Machine where
  queues := ⟨fun n => n, fun n => n⟩
  waits := ⟨fun n => n, fun n => n⟩
  threads := fun _ => ⟨.runnable, 0, ⟨0, 0⟩, 0, 0, 0, 0, 0, 0, [], false, 0, 0⟩
  locks := fun _ => ⟨false, 0⟩
  kThreads := []
  kernelTimers := []
  tickCount := 0
  currentThread := 0
  idleThread := 0
  initThread := 0
  nextPid := 0
  allocated := []

def started : Machine :=
  initIdle 0x2000 0 0 ((exec (.tick 0) (initKernelProc 0x1000 0 0 blankMachine)).getD blankMachine)

theorem started_boot : ∃ k, Booting 0x1000 k ∧ k.currentThread = 0x1000 ∧ 0x2000 ∉ k.allocated ∧
    started = initIdle 0x2000 0 0 k := by
  obtain ⟨k, he, hcur, halloc⟩ := first_switch (t := 0x1000) (by decide) (by decide) 0 0 0 blankMachine
  have hboot : Booting 0x1000 (initKernelProc 0x1000 0 0 blankMachine) :=
    .start 0 0 blankMachine (by decide) (by decide)
  have htick : Booting 0x1000 k := .tick hboot ⟨.inl rfl, fun _ h => (List.not_mem_nil h).elim⟩ he
  refine ⟨k, htick, hcur, ?_, ?_⟩
  · rw [halloc]
    decide
  · unfold started
    rw [he]
    rfl

theorem started_reach (allowed : Machine → ThreadOp → Prop) : ThreadReach allowed started := by
  obtain ⟨k, hboot, hcur, hout, hstart⟩ := started_boot
  rw [hstart]
  exact .init hboot hcur hout (by decide) (by decide)

theorem QueuesWellFormed.mem_of_links {k : Machine} {E : Queue → List ℕ} (h : QueuesWellFormed k E)
    {q : Queue} {n t : ℕ} (hn : (k.queues.next)^[n] (.queue q) = .head t) : t ∈ E q := by
  have key : ∀ m, (k.queues.next)^[m] (.queue q) ∈ QueueNode.queue q :: (E q).map .head := by
    intro m
    induction m with
    | zero => exact List.mem_cons_self ..
    | succ m ih =>
      rw [Function.iterate_succ_apply']
      exact (h.carries q).next_node ih
  have hmem := key n
  rw [hn] at hmem
  simpa using hmem

instance (k : Machine) : (op : ThreadOp) → Decidable (Refers k op)
  | .create _ _ _ => inferInstanceAs (Decidable (_ ∧ _ ∧ _))
  | .overwrite _ _ _ _ => inferInstanceAs (Decidable (_ ∉ _))
  | .wakeUp _ | .sleep _ | .stop _ | .kill _ | .signals _ => inferInstanceAs (Decidable (_ ∈ _))
  | .wait4Done _ => inferInstanceAs (Decidable (_ ∧ _))
  | .childAwoken _ | .sysKill _ _ | .exterminate => inferInstanceAs (Decidable True)
  | .exit _ | .wait4 _ | .wait4all | .wait4allDone | .sleepMs _ | .reschedule _ | .getLock _ =>
    inferInstanceAs (Decidable (_ ∈ _))
  | .timers => inferInstanceAs (Decidable (∀ _ ∈ k.kernelTimers, _))
  | .tick _ => inferInstanceAs (Decidable ((_ ∨ _) ∧ ∀ _ ∈ k.kernelTimers, _))
  | .unlock l => inferInstanceAs (Decidable (∀ _ ∈ takenBy l k, _))

def execAll : List ThreadOp → Machine → Option Machine
  | [], k => some k
  | op :: ops, k => if Refers k op then (exec op k).bind (execAll ops) else none

theorem execAll_run {allowed : Machine → ThreadOp → Prop} {ops : List ThreadOp} {k k' : Machine}
    (hops : ∀ op ∈ ops, ∀ k, allowed k op) (h : execAll ops k = some k') :
    Relation.ReflTransGen (ThreadStep allowed) k k' := by
  induction ops generalizing k with
  | nil =>
    cases h
    exact .refl
  | cons op ops ih =>
    unfold execAll at h
    split at h
    · next hr =>
      obtain ⟨k₁, he, hrest⟩ := Option.bind_eq_some_iff.mp h
      refine .head ⟨op, hops op (List.mem_cons_self ..) k, hr, he⟩ (ih (fun o ho => ?_) hrest)
      exact hops o (List.mem_cons_of_mem _ ho)
    · cases h

theorem execAll_getD {ops : List ThreadOp} {k : Machine} (h : (execAll ops k).isSome) :
    execAll ops k = some ((execAll ops k).getD blankMachine) := by
  obtain ⟨k', hk'⟩ := Option.isSome_iff_exists.mp h
  rw [hk']
  rfl

theorem ThreadReach.run {allowed : Machine → ThreadOp → Prop} {k k' : Machine}
    (h : ThreadReach allowed k) (hrun : Relation.ReflTransGen (ThreadStep allowed) k k') :
    ThreadReach allowed k' := by
  induction hrun with
  | refl => exact h
  | tail _ hs ih => exact ih.step hs

theorem ThreadReach.execAll {ops : List ThreadOp} {k k' : Machine} (h : ThreadReach anyOp k)
    (he : execAll ops k = some k') : ThreadReach anyOp k' :=
  h.run (execAll_run (fun _ _ _ => trivial) he)

def sleeperRests : Machine :=
  (execAll [.create 0x3000 0 0, .wakeUp 0x3000, .reschedule 100, .create 0x4000 0 0, .wakeUp 0x4000,
    .sleep 0x3000, .reschedule 110] (wakeUpThread 0x2000 started)).getD blankMachine

theorem run_queue_invariant_sleeper : ∃ E k' E', QueuesWellFormed sleeperRests E ∧ 0x2000 ∈ E .running ∧
    0x3000 ∈ E .sleep ∧ exec (.wakeUp 0x3000) sleeperRests = some k' ∧ QueuesWellFormed k' E' ∧
      0x2000 ∈ E' .running := by
  have hrun : Relation.ReflTransGen (ThreadStep anyOp) (wakeUpThread 0x2000 started) sleeperRests :=
    execAll_run (fun _ _ _ => trivial) (execAll_getD (by decide +kernel))
  have hawake : IdleAwake sleeperRests := ⟨started, started_reach _, hrun⟩
  have hidle : sleeperRests.idleThread = 0x2000 := by decide +kernel
  obtain ⟨E, hwell, hidle₁, -, hops⟩ := run_queue_invariant hawake
  obtain ⟨k', he, E', hwell', hidle₂, -⟩ := hops (.wakeUp 0x3000) (by decide +kernel) (fun l h => by cases h)
  have hkept : (wakeUpThread 0x3000 sleeperRests).idleThread = 0x2000 := by decide +kernel
  rw [← Option.some.inj he, hkept] at hidle₂
  rw [hidle] at hidle₁
  refine ⟨E, k', E', hwell, hidle₁, hwell.mem_of_links (n := 1) ?_, he, hwell', hidle₂⟩
  decide +kernel

end X86Osdev.Kernel

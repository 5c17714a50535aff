import X86Osdev.Kernel.RunQueue

/-! Killed threads: when an operation brings a dead thread back, and that nothing else does. -/

namespace X86Osdev.Kernel
open CircularList X86Osdev.Mem X86Osdev.Proc X86Osdev.Lock

/-- `handle_signals(t)` kills a child of `v`, or sees to `SIGCKO` of `v` itself while `v` is marked as
waiting for all its children and one of them is alive. -/
def RevivesBySignals (v t : ℕ) (k : Machine) : Prop :=
  (Killed t k ∧ awoken t k = some v) ∨
    (t = v ∧ SeesSigcko v k ∧ (k.threads v).wait4child = true ∧
      ∃ c ∈ (k.threads v).children, (stateAtSigcko v k c).ko = false)

def TimerExpires (v : ℕ) (k : Machine) : Prop :=
  ∃ activeT ∈ k.kernelTimers, activeT.expiration ≤ k.tickCount ∧ activeT.thread = v

/-- The operation relinks the dead thread `v`: it is woken by name, by its timer, by the release of a
lock or by the death of a child, or it runs on and calls something that puts it to sleep or wakes it. -/
def Revives (v : ℕ) (k : Machine) : ThreadOp → Prop
  | .wakeUp t | .sleep t => t = v
  | .childAwoken pid => getThread pid k = some v
  | .kill t => awoken t k = some v
  | .exit _ => awoken k.currentThread k = some v
  | .wait4 pid => k.currentThread = v ∧ getThread pid k ≠ none
  | .wait4Done _ | .sleepMs _ => k.currentThread = v
  | .wait4all => k.currentThread = v ∧ ∃ c ∈ (k.threads v).children, (k.threads c).state.ko = false
  | .signals t => RevivesBySignals v t k
  | .timers => TimerExpires v k
  | .reschedule _ => ∃ next k', pickNextThread k = .ok next k' ∧ RevivesBySignals v next k
  | .tick now => TimerExpires v { k with tickCount := u64 (k.tickCount + 1) } ∨
    (RevivesBySignals v k.currentThread (timersRun k) ∧ ∃ k', schedulerHandler now k = .ok none k')
  | .getLock l => (k.locks l).locked = true ∧ k.currentThread = v
  | .unlock l => v ∈ takenBy l k
  | .create _ _ _ | .overwrite _ _ _ _ | .stop _ | .sysKill _ _ | .wait4allDone | .exterminate => False

def Kills (v : ℕ) (k : Machine) : ThreadOp → Prop
  | .kill t => t = v
  | .exit _ => k.currentThread = v
  | .signals t => t = v ∧ Killed v k
  | .reschedule _ => (∃ k', pickNextThread k = .ok v k') ∧ Killed v k
  | .tick now => k.currentThread = v ∧ Killed v (timersRun k) ∧ ∃ k', schedulerHandler now k = .ok none k'
  | _ => False

/-- Operations that do not bring `v` back; its memory is not given to another thread. -/
def LeavesDead (v : ℕ) (k : Machine) (op : ThreadOp) : Prop :=
  ¬ Revives v k op ∧ ∀ w e, op ≠ .create v w e

/-- A dead thread is neither on the running queue nor asleep. -/
structure DeadInv (v : ℕ) (k : Machine) (E : Queue → List ℕ) : Prop where
  inv : IdleInv False k E
  state : v ∈ k.allocated → (k.threads v).state.ko = true
  running : v ∉ E .running
  sleep : v ∉ E .sleep

section Steps
variable {v t : ℕ} {k k' : Machine} {E : Queue → List ℕ} {op : ThreadOp}

theorem DeadInv.quiet (h : DeadInv v k E) (hq : Quiet k k') : DeadInv v k' E := by
  refine ⟨h.inv.quiet hq, ?_, h.running, h.sleep⟩
  rw [hq.allocated, hq.state]
  exact h.state

theorem DeadInv.play {m : Move} (h : DeadInv v k E) (hm : m.Legal k) (hsleep : m ≠ .sleep v)
    (hwake : ∀ s, m ≠ .wake v s) : DeadInv v (m.play k) (m.after E) := by
  refine ⟨h.inv.play hm, ?_, ?_, ?_⟩
  · intro hv
    rw [Move.play_allocated] at hv
    have hko := h.state hv
    cases m with
    | stop t =>
      refine (congrArg TaskState.ko (state_setState k t v .stopped)).trans ?_
      split
      · rfl
      · exact hko
    | sleep t =>
      refine (congrArg TaskState.ko (state_setState k t v .interruptible)).trans ?_
      rwa [if_neg fun e => hsleep (by rw [e])]
    | wake t s =>
      refine (congrArg TaskState.ko (state_setState k t v s)).trans ?_
      rwa [if_neg fun e => hwake s (by rw [e])]
    | bury t =>
      refine (congrArg TaskState.ko (state_setState k t v .zombie)).trans ?_
      split
      · rfl
      · exact hko
  · have hnd := h.inv.queues.nodup_queue .running
    cases m with
    | stop t => exact fun hv => ((mem_movedHead hnd).mp hv).elim (fun e => nomatch e.2) fun e => h.running e.2
    | sleep t => exact fun hv => ((mem_movedHead hnd).mp hv).elim (fun e => nomatch e.2) fun e => h.running e.2
    | wake t s =>
      exact fun hv => ((mem_movedTail hnd).mp hv).elim (fun e => hwake s (by rw [e.1])) fun e => h.running e.2
    | bury t => exact h.running
  · have hnd := h.inv.queues.nodup_queue .sleep
    cases m with
    | stop t => exact fun hv => ((mem_movedHead hnd).mp hv).elim (fun e => nomatch e.2) fun e => h.sleep e.2
    | sleep t =>
      exact fun hv => ((mem_movedHead hnd).mp hv).elim (fun e => hsleep (by rw [e.1])) fun e => h.sleep e.2
    | wake t s => exact fun hv => ((mem_movedTail hnd).mp hv).elim (fun e => nomatch e.2) fun e => h.sleep e.2
    | bury t => exact h.sleep

theorem DeadInv.moves {ok : Move → Prop} (h : DeadInv v k E)
    (hok : ∀ m, ok m → m ≠ .sleep v ∧ ∀ s, m ≠ .wake v s) (hm : Moves ok k k') :
    ∃ E', DeadInv v k' E' := by
  refine hm.preserves (I := fun k => ∃ E, DeadInv v k E) ?_ ?_ ⟨E, h⟩
  · rintro k k' ⟨E, hd⟩ hq
    exact ⟨E, hd.quiet hq⟩
  · rintro k m ⟨E, hd⟩ hm hl
    exact ⟨m.after E, hd.play hl (hok m hm).1 (hok m hm).2⟩

theorem IdleInv.kill_dead (h : IdleInv False k E) (hv : v ∈ k.allocated)
    (hp : (k.threads v).pid ≠ idlePid) (hself : awoken v k ≠ some v) :
    ∃ E', DeadInv v (killProcess v k) E' := by
  have hlegal : (Move.stop v).Legal k := ⟨hv, hp⟩
  have hnd := fun q => h.queues.nodup_queue q
  have hdead : DeadInv v ((Move.stop v).play k) ((Move.stop v).after E) := by
    refine ⟨h.play hlegal, fun _ => ?_, fun hm => ?_, fun hm => ?_⟩
    · exact congrArg TaskState.ko ((state_setState k v v .stopped).trans (if_pos rfl))
    · exact ((mem_movedHead (hnd .running)).mp hm).elim (fun e => nomatch e.2) fun e => e.1 rfl
    · exact ((mem_movedHead (hnd .sleep)).mp hm).elim (fun e => nomatch e.2) fun e => e.1 rfl
  cases hf : awoken v k with
  | none => exact ⟨_, hdead.quiet (killProcess_none hp hf)⟩
  | some f =>
    obtain ⟨k₁, hq, heq⟩ := killProcess_some hp hf
    have hfv : f ≠ v := fun e => hself (hf.trans (congrArg some e))
    have hlegal' : (Move.wake f (stateStopped v k f)).Legal k₁ := by
      refine (congrArg (f ∈ ·) hq.allocated).mpr ?_
      rw [Move.play_allocated, ← h.queues.procs]
      exact getThread_mem hf
    rw [heq]
    exact ⟨_, (hdead.quiet hq).play hlegal' (fun e => (nomatch e)) fun s e => hfv (Move.wake.inj e).1⟩

theorem IdleInv.signals_dead (h : IdleInv False k E) (hv : v ∈ k.allocated) (hkilled : Killed v k)
    (hno : ¬ RevivesBySignals v v k) : ∃ E', DeadInv v (handleSignals v k).2 E' := by
  obtain ⟨k₁, hafter, hrest⟩ := handleSignals_phases (h.queues.addresses v hv).1 k
  obtain ⟨_, k', hset, hq⟩ := hafter.killed.resolve_left fun hn => hn.1 hkilled
  have hv' : v ∈ k'.allocated := by
    rw [hset.quiet.allocated]
    exact hv
  have hself : awoken v k' ≠ some v := by
    rw [hset.awoken]
    exact fun e => hno (.inl ⟨hkilled, e⟩)
  have hp' : (k'.threads v).pid ≠ idlePid := by
    rw [hset.quiet.pid]
    exact hkilled.2
  obtain ⟨E₁, hdead⟩ := (h.quiet hset.quiet).kill_dead hv' hp' hself
  refine (hdead.quiet hq).moves (fun m hm => ?_) (hafter.rest_moves hv hrest)
  rcases hm with ⟨rfl, hsees, hsus⟩ | ⟨c, _, rfl⟩
  · exfalso
    have hstate : stateAtSigcko v k v = .stopped := by
      unfold stateAtSigcko stateStopped
      rw [if_pos hkilled, if_pos rfl]
    rcases hsus with ⟨hwait, hchild⟩ | ⟨_, hint⟩
    · exact hno (.inr ⟨rfl, hsees, hwait, hchild⟩)
    · rw [hstate] at hint
      cases hint
  · exact ⟨fun e => (nomatch e), fun s e => nomatch e⟩

theorem DeadInv.spares_signals (h : DeadInv v k E) (ht : t ∈ k.allocated)
    (hno : ¬ RevivesBySignals v t k) {m : Move} (hm : SignalMove t k m) :
    m ≠ .sleep v ∧ ∀ s, m ≠ .wake v s := by
  rcases hm with ⟨hkill, rfl | ⟨f, hf, rfl⟩⟩ | ⟨rfl, hsees, hsus⟩ | ⟨c, _, rfl⟩
  · exact ⟨fun e => (nomatch e), fun s e => nomatch e⟩
  · exact ⟨fun e => (nomatch e), fun s e => hno (.inl ⟨hkill, (Move.wake.inj e).1 ▸ hf⟩)⟩
  · refine ⟨fun e => ?_, fun s e => nomatch e⟩
    obtain rfl : t = v := Move.sleep.inj e
    rcases hsus with ⟨hwait, hchild⟩ | ⟨_, hint⟩
    · exact hno (.inr ⟨rfl, hsees, hwait, hchild⟩)
    · have hko := h.state ht
      unfold stateAtSigcko stateStopped at hint
      split at hint
      · rw [if_pos rfl] at hint
        cases hint
      · rw [hint] at hko
        cases hko
  · exact ⟨fun e => (nomatch e), fun s e => nomatch e⟩

theorem DeadInv.spares_timers (hno : ¬ TimerExpires v k) {m : Move} (hm : TimerMove k m) :
    m ≠ .sleep v ∧ ∀ s, m ≠ .wake v s := by
  obtain ⟨activeT, hmem, hexp, rfl⟩ := hm
  exact ⟨fun e => (nomatch e), fun s e => hno ⟨activeT, hmem, hexp, (Move.wake.inj e).1⟩⟩

theorem DeadInv.timersRun (h : DeadInv v k E)
    (ht : ∀ activeT ∈ k.kernelTimers, activeT.thread ∈ k.allocated)
    (hno : ¬ TimerExpires v { k with tickCount := u64 (k.tickCount + 1) }) :
    ∃ E', DeadInv v (timersRun k) E' :=
  h.moves (fun _ hm => DeadInv.spares_timers hno hm) (timersRun_moves ht)

theorem timersRun_allocated (ht : ∀ activeT ∈ k.kernelTimers, activeT.thread ∈ k.allocated) :
    (Kernel.timersRun k).allocated = k.allocated := (timersRun_moves ht).allocated

theorem DeadInv.spares (h : DeadInv v k E) (hr : Refers k op) (hno : ¬ Revives v k op) {m : Move}
    (hm : OpMove k m op) : m ≠ .sleep v ∧ ∀ s, m ≠ .wake v s := by
  have hbury : ∀ c, Move.bury c ≠ .sleep v ∧ ∀ s, Move.bury c ≠ .wake v s :=
    fun c => ⟨fun e => (nomatch e), fun s e => nomatch e⟩
  have hstop : ∀ t, Move.stop t ≠ .sleep v ∧ ∀ s, Move.stop t ≠ .wake v s :=
    fun t => ⟨fun e => (nomatch e), fun s e => nomatch e⟩
  have hsleep : ∀ t, t ≠ v → Move.sleep t ≠ .sleep v ∧ ∀ s, Move.sleep t ≠ .wake v s :=
    fun t ht => ⟨fun e => ht (Move.sleep.inj e), fun s e => nomatch e⟩
  have hwake : ∀ t s', t ≠ v → Move.wake t s' ≠ .sleep v ∧ ∀ s, Move.wake t s' ≠ .wake v s :=
    fun t s' ht => ⟨fun e => (nomatch e), fun s e => ht (Move.wake.inj e).1⟩
  cases op with
  | create t w e => exact hm.elim
  | overwrite t p next prev => exact hm.elim
  | sysKill pid signal => exact hm.elim
  | exterminate => exact hm.elim
  | wakeUp t =>
    cases hm
    exact hwake t _ hno
  | sleep t =>
    cases hm
    exact hsleep t hno
  | stop t =>
    cases hm
    exact hstop t
  | childAwoken pid =>
    obtain ⟨f, hf, rfl⟩ := hm
    exact hwake f _ fun e => hno (e ▸ hf)
  | kill t =>
    rcases hm with rfl | ⟨f, hf, rfl⟩
    · exact hstop t
    · exact hwake f _ fun e => hno (e ▸ hf)
  | exit retCode =>
    rcases hm with rfl | ⟨f, hf, rfl⟩
    · exact hstop _
    · exact hwake f _ fun e => hno (e ▸ hf)
  | wait4 pid =>
    obtain ⟨p, hp, ⟨_, rfl | rfl⟩ | ⟨_, rfl⟩⟩ := hm
    · exact hbury p
    · exact hwake _ _ fun e => hno ⟨e, by simp [hp]⟩
    · exact hsleep _ fun e => hno ⟨e, by simp [hp]⟩
  | wait4Done p =>
    rcases hm with rfl | rfl
    · exact hbury p
    · exact hwake _ _ hno
  | wait4all =>
    rcases hm with ⟨_, c, _, _, rfl⟩ | ⟨rfl, hchild⟩
    · exact hbury c
    · exact hsleep _ fun e => hno ⟨e, e ▸ hchild⟩
  | wait4allDone =>
    obtain ⟨c, _, _, rfl⟩ := hm
    exact hbury c
  | sleepMs ms =>
    cases hm
    exact hsleep _ hno
  | signals t => exact h.spares_signals hr hno hm
  | timers => exact DeadInv.spares_timers hno hm
  | reschedule now =>
    obtain ⟨next, k₁, hpick, hm⟩ := hm
    refine h.spares_signals ?_ (fun hrev => hno ⟨next, k₁, hpick, hrev⟩) hm
    exact h.inv.queues.unreaped .running next (pickNextThread_mem h.inv.queues hpick)
  | tick now =>
    have hno' : ¬ TimerExpires v { k with tickCount := u64 (k.tickCount + 1) } := fun e => hno (.inl e)
    rcases hm with hm | ⟨hcur, hm, hnone⟩
    · exact DeadInv.spares_timers hno' hm
    · -- the signals are handled in the state that the timers leave
      obtain ⟨E', hd⟩ := h.timersRun hr.2 hno'
      refine hd.spares_signals ?_ (fun hrev => hno (.inr ⟨hrev, hnone⟩)) hm
      rw [timersRun_allocated hr.2]
      exact hr.1.resolve_left hcur
  | getLock l =>
    obtain ⟨hlocked, rfl⟩ := hm
    exact hsleep _ fun e => hno ⟨hlocked, e⟩
  | unlock l =>
    obtain ⟨t, ht, rfl⟩ := hm
    exact hwake t _ fun e => hno (e ▸ ht)

theorem foldl_reap_subset (l : List ℕ) (k : Machine) :
    (l.foldl (fun k t => reap t k) k).allocated ⊆ k.allocated := by
  induction l generalizing k with
  | nil => exact fun _ h => h
  | cons t l ih => exact fun u hu => List.mem_of_mem_erase (ih (reap t k) hu)

theorem DeadInv.exec (h : DeadInv v k E) (hr : Refers k op) (hop : LeavesDead v k op)
    (he : Kernel.exec op k = some k') : ∃ E', DeadInv v k' E' := by
  by_cases hlife : op.Lifetime
  · cases op with
    | create t w e =>
      cases he
      have htv : v ≠ t := fun e' => hop.2 w e (by rw [e'])
      refine ⟨E, h.inv.create hr, fun hv => ?_, h.running, h.sleep⟩
      rw [createThread_allocated] at hv
      rw [createThread_keeps (f := Thread.state) (fun _ _ => rfl) htv]
      exact h.state ((List.mem_cons.mp hv).resolve_left htv)
    | overwrite t p next prev =>
      cases he
      refine ⟨E, h.inv.overwrite hr, fun hv => ?_, h.running, h.sleep⟩
      have htv : v ≠ t := fun e' => hr (e' ▸ hv)
      exact (congrArg (fun p => p.state.ko) (Function.update_of_ne htv p k.threads)).trans (h.state hv)
    | exterminate =>
      refine ⟨_, h.inv.exterminate he, fun hv => ?_, fun hm => h.running (List.mem_of_mem_filter hm),
        fun hm => h.sleep (List.mem_of_mem_filter hm)⟩
      have hrun := (exterminate_spec h.inv.queues).1
      rw [show Proc.exterminate k = some k' from he] at hrun
      cases hrun
      rw [foldl_reap_keeps (g := Thread.state) fun _ _ => rfl]
      exact h.state (foldl_reap_subset _ _ hv)
    | _ => exact hlife.elim
  · exact h.moves (fun m hm => h.spares hr hop.1 hm) (exec_moves h.inv.queues hr hlife he)

theorem Accounting.revivesBySignals (h : Accounting k k') (hrev : RevivesBySignals v t k') :
    RevivesBySignals v t k := by
  unfold RevivesBySignals SeesSigcko at hrev ⊢
  rwa [h.killed, h.awoken, h.killed, h.awoken, h.sigPending, h.wait4child v, h.children v,
    h.stateAtSigcko] at hrev

theorem IdleInv.accounted_dead (h : IdleInv False k E) (hacc : Accounting k k') (hv : v ∈ k.allocated)
    (hkilled : Killed v k) (hno : ¬ RevivesBySignals v v k) :
    ∃ E', DeadInv v (handleSignals v k').2 E' :=
  (h.quiet hacc.quiet).signals_dead (hacc.quiet.allocated ▸ hv) ((hacc.killed v).mpr hkilled)
    fun hrev => hno (hacc.revivesBySignals hrev)

theorem IdleInv.exec_dead (h : IdleInv False k E) (hr : Refers k op) (hv : v ∈ k.allocated)
    (hp : (k.threads v).pid ≠ idlePid) (hkills : Kills v k op) (hno : ¬ Revives v k op)
    (he : Kernel.exec op k = some k') : ∃ E', DeadInv v k' E' := by
  cases op with
  | kill t =>
    cases he
    obtain rfl : t = v := hkills
    exact h.kill_dead hv hp hno
  | exit retCode =>
    cases he
    obtain rfl : k.currentThread = v := hkills
    obtain ⟨E', hd⟩ := h.kill_dead hv hp hno
    exact ⟨E', hd.quiet (Quiet.modify _ _ _ (fun _ => rfl) fun _ => rfl)⟩
  | signals t =>
    cases he
    obtain ⟨rfl, hkilled⟩ := hkills
    exact h.signals_dead hv hkilled hno
  | reschedule now =>
    -- The chosen thread sees to its own `SIGKILL`.
    obtain ⟨⟨k₁, hpick⟩, hkilled⟩ := hkills
    have hacc := (pickNextThread_accounting hpick).trans (chargeReschedule_accounting now v k₁)
    obtain ⟨E', hd⟩ := h.accounted_dead hacc hv hkilled fun hrev => hno ⟨v, k₁, hpick, hrev⟩
    obtain ⟨switched, hrun⟩ := after_eq_some.mp he
    obtain ⟨next, k₃, hpick', _, rfl⟩ := reschedule_ok hrun
    rw [hpick] at hpick'
    cases hpick'
    split
    · exact ⟨E', hd.quiet (switchToThread_accounting v _).quiet⟩
    · exact ⟨E', hd⟩
  | tick now =>
    -- Only when nobody is switched to does the interrupted thread see to its signals.
    obtain ⟨rfl, hkilled, hnone⟩ := hkills
    have hno' : ¬ RevivesBySignals k.currentThread k.currentThread (Kernel.timersRun k) :=
      fun hrev => hno (.inr ⟨hrev, hnone⟩)
    obtain ⟨E₁, hi, _⟩ := h.moves (timersRun_moves hr.2)
    have hcur := timersRun_currentThread k
    have hv' : k.currentThread ∈ (Kernel.timersRun k).allocated := by
      rw [timersRun_allocated hr.2]
      exact hv
    obtain ⟨k₂, hnone⟩ := hnone
    obtain rfl : k₂ = k' := by simpa [Kernel.exec, after, hnone] using he
    rcases schedulerHandler_ok hnone with ⟨_, rfl | ⟨k₁, hpick, rfl⟩⟩ | ⟨_, _, hsome, _⟩
    · obtain ⟨k₁, hacc, _, heq⟩ := noResched_eq now (Kernel.timersRun k)
      rw [heq, hcur]
      exact hi.accounted_dead hacc hv' hkilled hno'
    · have hpacc := pickNextThread_accounting hpick
      obtain ⟨k₃, hacc, _, heq⟩ := noResched_eq now k₁
      have hcur₁ : k₁.currentThread = k.currentThread := by
        obtain ⟨_, slice, rfl⟩ := pickNextThread_ok hpick
        exact hcur
      rw [heq, hcur₁]
      exact hi.accounted_dead (hpacc.trans hacc) hv' hkilled hno'
    · cases hsome
  | _ => exact hkills.elim

end Steps

/-- A killed thread stays dead in every run whose operations do not revive it. -/
theorem killed_stays_dead {v : ℕ} {op : ThreadOp} {k₀ k₁ k : Machine} (h₀ : ThreadReach anyOp k₀)
    (hr : Refers k₀ op) (hv : v ∈ k₀.allocated) (hp : (k₀.threads v).pid ≠ idlePid)
    (hkills : Kills v k₀ op) (hno : ¬ Revives v k₀ op) (he : exec op k₀ = some k₁)
    (hrun : Relation.ReflTransGen (ThreadStep (LeavesDead v)) k₁ k) :
    (v ∈ k.allocated → (k.threads v).state.ko = true) ∧
      (∃ E, QueuesWellFormed k E ∧ v ∉ E .running ∧ v ∉ E .sleep) ∧
      (∀ now k', reschedule now k = .ok true k' → k'.currentThread ≠ v) ∧
      ∀ now next k', Refers k (.tick now) → ¬ Revives v k (.tick now) →
        schedulerHandler now k = .ok (some next) k' → next ≠ v := by
  have hdead : ∃ E, DeadInv v k E := by
    induction hrun with
    | refl =>
      obtain ⟨E, hi⟩ := h₀.idleInv
      exact hi.exec_dead hr hv hp hkills hno he
    | tail _ hs ih =>
      obtain ⟨E, hd⟩ := ih
      obtain ⟨op, hop, hr', he'⟩ := hs
      exact hd.exec hr' hop he'
  obtain ⟨E, hd⟩ := hdead
  refine ⟨hd.state, ⟨E, hd.inv.wellFormed, hd.running, hd.sleep⟩, fun now k' hres hcur => ?_, ?_⟩
  · obtain ⟨next, k₂, hpick, _, rfl⟩ := reschedule_ok hres
    rw [if_pos rfl] at hcur
    exact hd.running (hcur ▸ pickNextThread_mem hd.inv.queues hpick)
  · intro now next k' hr' hno' hsched hnext
    obtain ⟨E', hd'⟩ := hd.timersRun hr'.2 fun e => hno' (.inl e)
    rcases schedulerHandler_ok hsched with ⟨hnone, _⟩ | ⟨_, k₂, hsome, hpick, _⟩
    · cases hnone
    · cases hsome
      exact hd'.running (hnext ▸ pickNextThread_mem hd'.inv.queues hpick)

def fatherRuns : Machine :=
  (execAll [.wakeUp 0x2000, .create 0x3000 0 0, .wakeUp 0x3000, .sleep 0x1000, .reschedule 100,
    .create 0x4000 0 0, .wakeUp 0x4000] started).getD blankMachine

theorem fatherRuns_reach : ThreadReach anyOp fatherRuns :=
  (started_reach anyOp).execAll (execAll_getD (by decide +kernel))

def fatherKilled : Machine :=
  (execAll [.create 0x5000 0 0, .wakeUp 0x5000] (killProcess 0x3000 fatherRuns)).getD blankMachine

theorem fatherKilled_turn {next : ℕ} {k : Machine} (hpick : pickNextThread fatherKilled = .ok next k) :
    ¬ RevivesBySignals 0x3000 next fatherKilled := by
  have hnext : (pickNextThread fatherKilled).toOption.map Prod.fst = some 0x4000 := by decide +kernel
  rw [hpick] at hnext
  obtain rfl := Option.some.inj hnext
  rintro (⟨hkilled, -⟩ | ⟨heq, -⟩)
  · have hnot : ¬ Killed 0x4000 fatherKilled := by decide +kernel
    exact hnot hkilled
  · cases heq

theorem killed_stays_dead_father : ∃ k,
    Relation.ReflTransGen (ThreadStep (LeavesDead 0x3000)) (killProcess 0x3000 fatherRuns) k ∧
      k.currentThread = 0x4000 ∧ (k.threads 0x3000).state.ko = true ∧
        ∀ now k', reschedule now k = .ok true k' → k'.currentThread ≠ 0x3000 := by
  have hrefers : Refers fatherRuns (.kill 0x3000) := by decide +kernel
  have hkills : Kills 0x3000 fatherRuns (.kill 0x3000) := rfl
  have hself : awoken 0x3000 fatherRuns ≠ some 0x3000 := by decide +kernel
  have hcreated : execAll [.create 0x5000 0 0, .wakeUp 0x5000] (killProcess 0x3000 fatherRuns) =
      some fatherKilled := execAll_getD (by decide +kernel)
  have hops : ∀ op ∈ [ThreadOp.create 0x5000 0 0, .wakeUp 0x5000], ∀ k, LeavesDead 0x3000 k op := by
    intro op hop k
    rcases List.mem_pair.mp hop with rfl | rfl
    · exact ⟨id, fun w e h => (by cases h)⟩
    · exact ⟨fun h => (by cases h), fun w e h => (by cases h)⟩
  have hrefers' : Refers fatherKilled (.reschedule 150) := by decide +kernel
  have hturn : (exec (.reschedule 150) fatherKilled).map (fun k => (k.currentThread, decide (0x3000 ∈ k.allocated))) =
      some (0x4000, true) := by decide +kernel
  obtain ⟨k, hk, hkept⟩ := Option.map_eq_some_iff.mp hturn
  obtain ⟨hcur, hv⟩ := Prod.mk.inj hkept
  have hleaves : LeavesDead 0x3000 fatherKilled (.reschedule 150) := by
    refine ⟨?_, fun w e h => by cases h⟩
    rintro ⟨next, k', hpick, hrev⟩
    exact fatherKilled_turn hpick hrev
  have hrun := (execAll_run hops hcreated).tail ⟨.reschedule 150, hleaves, hrefers', hk⟩
  have hdead := killed_stays_dead fatherRuns_reach hrefers (by decide +kernel) (by decide +kernel)
    hkills hself rfl hrun
  exact ⟨k, hrun, hcur, hdead.1 (of_decide_eq_true hv), hdead.2.2.1⟩

def fatherExited : Machine := sysExit 0 fatherRuns

def childExited : Machine := (execAll [.reschedule 150, .exit 0] fatherExited).getD blankMachine

/-- The exit of its child links a killed father on the running queue, and `reschedule` switches to it. -/
theorem killed_father_runs : Kills 0x3000 fatherRuns (.exit 0) ∧
    exec (.exit 0) fatherRuns = some fatherExited ∧ (fatherExited.threads 0x3000).state = .stopped ∧
      Relation.ReflTransGen (ThreadStep fun _ op => ∀ w e, op ≠ .create 0x3000 w e) fatherExited
        childExited ∧
      (∀ E, QueuesWellFormed childExited E → 0x3000 ∈ E .running) ∧
      ∃ k, reschedule 160 childExited = .ok true k ∧ k.currentThread = 0x3000 := by
  have hrun : execAll [.reschedule 150, .exit 0] fatherExited = some childExited :=
    execAll_getD (by decide +kernel)
  refine ⟨?_, rfl, by decide +kernel, execAll_run ?_ hrun, fun E hE => hE.mem_of_links (n := 3) ?_, ?_⟩
  · show fatherRuns.currentThread = 0x3000
    decide +kernel
  · simp
  · decide +kernel
  · have hswitch : ((reschedule 160 childExited).toOption.map fun r => (r.1, r.2.currentThread)) =
        some (true, 0x3000) := by decide +kernel
    obtain ⟨⟨ret, k⟩, hk, heq⟩ := Option.map_eq_some_iff.mp hswitch
    obtain ⟨rfl, hcur⟩ := Prod.mk.inj heq
    exact ⟨k, Outcome.toOption_eq_some.mp hk, hcur⟩

end X86Osdev.Kernel

import X86Osdev.Kernel.ThreadOps

/-! Every operation that neither creates nor reaps threads is a sequence of the moves told in advance. -/

namespace X86Osdev.Kernel
open CircularList X86Osdev.Mem X86Osdev.Proc X86Osdev.Lock

structure Accounting (k k' : Machine) : Prop where
  quiet : Quiet k k'
  signals : Keeps Thread.signals k k'
  father : Keeps Thread.father k k'
  children : Keeps Thread.children k k'
  wait4child : Keeps Thread.wait4child k k'
  wait4 : Keeps Thread.wait4 k k'

section Accounting
variable {k k' k'' : Machine} {t : ℕ}

theorem Accounting.refl (k : Machine) : Accounting k k :=
  ⟨Quiet.refl k, Keeps.refl k, Keeps.refl k, Keeps.refl k, Keeps.refl k, Keeps.refl k⟩

theorem Accounting.trans (h : Accounting k k') (h' : Accounting k' k'') : Accounting k k'' :=
  ⟨h.quiet.trans h'.quiet, h.signals.trans h'.signals, h.father.trans h'.father,
    h.children.trans h'.children, h.wait4child.trans h'.wait4child, h.wait4.trans h'.wait4⟩

theorem Accounting.modify (k : Machine) (t : ℕ) {runtime timeslice last : Thread → ℕ} :
    Accounting k (k.modify t fun p => { p with
      runtime := runtime p, timeslice := timeslice p, lastActivation := last p }) :=
  ⟨Quiet.modify k t _ (fun _ => rfl) fun _ => rfl, Keeps.modify k t fun _ => rfl,
    Keeps.modify k t fun _ => rfl, Keeps.modify k t fun _ => rfl, Keeps.modify k t fun _ => rfl,
    Keeps.modify k t fun _ => rfl⟩

theorem Accounting.awoken (h : Accounting k k') (t : ℕ) : awoken t k' = awoken t k := by
  unfold Proc.awoken
  rw [h.father t, h.quiet.getThread, h.quiet.pid]

theorem Accounting.stateStopped (h : Accounting k k') (t : ℕ) :
    stateStopped t k' = stateStopped t k := by
  funext u
  unfold Proc.stateStopped
  rw [h.quiet.state]

theorem Accounting.sigPending (h : Accounting k k') (t signal : ℕ) :
    SigPending t signal k' ↔ SigPending t signal k := by
  unfold SigPending
  rw [h.signals t]

theorem Accounting.killed (h : Accounting k k') (t : ℕ) : Killed t k' ↔ Killed t k := by
  unfold Killed
  rw [h.sigPending, h.quiet.pid]

theorem Accounting.stateAtSigcko (h : Accounting k k') (t : ℕ) :
    stateAtSigcko t k' = stateAtSigcko t k := by
  funext u
  unfold Proc.stateAtSigcko
  rw [h.stateStopped, h.quiet.state]
  exact if_congr (h.killed t) rfl rfl

theorem Accounting.signalMove (h : Accounting k k') {m : Move} (hm : SignalMove t k' m) :
    SignalMove t k m := by
  unfold SignalMove SeesSigcko at hm ⊢
  rw [h.killed, h.awoken, h.stateStopped, h.sigPending, h.stateAtSigcko] at hm
  rcases hm with hkill | ⟨hsleep, hsees, hsus⟩ | ⟨c, hbury, hm⟩
  · exact .inl hkill
  · exact .inr (.inl ⟨hsleep, hsees, hsus.congr (fun _ => rfl) (h.wait4child t) (h.children t)⟩)
  · exact .inr (.inr ⟨c, hbury.congr (fun _ => rfl) (h.wait4child t) (h.wait4 t) (h.children t)
      h.quiet.pid, hm⟩)

theorem Accounting.moves {ok : Move → Prop} (h : Accounting k k') (hm : Moves ok k' k'') :
    Moves ok k k'' := (Moves.quiet h.quiet).trans hm

end Accounting

section Calls
variable {k k' : Machine} {t : ℕ}

theorem wakeTimer_moves {activeT : Timer} (ht : activeT.thread ∈ k.allocated) :
    Moves (fun m => activeT.expiration ≤ k.tickCount ∧ m = .wake activeT.thread .runnable) k
      (wakeTimer k activeT) := by
  unfold wakeTimer
  split
  · next hexp =>
    refine (Moves.quiet ?_).trans (Moves.single (m := .wake activeT.thread .runnable) ⟨hexp, rfl⟩ ht)
    exact ⟨rfl, rfl, rfl, rfl, rfl, rfl, fun _ => rfl, fun _ => rfl⟩
  · exact Moves.refl k

theorem wakeTimer_tickCount (k : Machine) (activeT : Timer) :
    (wakeTimer k activeT).tickCount = k.tickCount := by
  unfold wakeTimer
  split
  · rfl
  · rfl

theorem wakeUpTimers_moves (ht : ∀ activeT ∈ k.kernelTimers, activeT.thread ∈ k.allocated) :
    Moves (TimerMove k) k (wakeUpTimers k) := by
  have key : ∀ (l : List Timer) (k' : Machine), (∀ activeT ∈ l, activeT ∈ k.kernelTimers) →
      k'.allocated = k.allocated → k'.tickCount = k.tickCount →
      Moves (TimerMove k) k' (l.foldl wakeTimer k') := by
    intro l
    induction l with
    | nil => exact fun k' _ _ _ => Moves.refl k'
    | cons activeT l ih =>
      intro k' hl ha hc
      have hone : Moves (TimerMove k) k' (wakeTimer k' activeT) := by
        refine (wakeTimer_moves ?_).mono fun m hm => ?_
        · rw [ha]
          exact ht activeT (hl activeT (List.mem_cons_self ..))
        · exact ⟨activeT, hl activeT (List.mem_cons_self ..), hc ▸ hm.1, hm.2⟩
      refine hone.trans (ih _ (fun b hb => hl b (List.mem_cons_of_mem _ hb)) ?_ ?_)
      · rw [hone.allocated, ha]
      · rw [wakeTimer_tickCount, hc]
  exact key k.kernelTimers k (fun _ h => h) rfl rfl

theorem pickNextThread_ok {next : ℕ} (h : pickNextThread k = .ok next k') :
    next ≠ 0 ∧ ∃ slice : Thread → ℕ, k' = k.modify next fun p => { p with timeslice := slice p } := by
  unfold pickNextThread at h
  split at h
  · cases h
  · next r _ =>
    split at h
    · cases h
    · split at h
      · cases h
      · next hne =>
        cases h
        exact ⟨hne, fun p => timesliceOf r p.nice, rfl⟩

theorem pickNextThread_accounting {next : ℕ} (h : pickNextThread k = .ok next k') :
    Accounting k k' := by
  obtain ⟨_, slice, rfl⟩ := pickNextThread_ok h
  exact Accounting.modify k next

theorem switchToThread_accounting (next : ℕ) (k : Machine) : Accounting k (switchToThread next k) :=
  ⟨⟨rfl, rfl, rfl, rfl, rfl, rfl, fun _ => rfl, fun _ => rfl⟩, Keeps.refl k, Keeps.refl k,
    Keeps.refl k, Keeps.refl k, Keeps.refl k⟩

theorem chargeReschedule_accounting (now next : ℕ) (k : Machine) :
    Accounting k (chargeReschedule now next k) := by
  dsimp only [chargeReschedule]
  split
  · exact (Accounting.modify k next).trans (Accounting.modify _ _)
  · exact Accounting.modify k next

theorem chargeSwitch_accounting (now next : ℕ) (k : Machine) :
    Accounting k (chargeSwitch now next k) := by
  dsimp only [chargeSwitch]
  split
  · exact (Accounting.modify k next).trans (Accounting.modify _ _)
  · exact Accounting.modify k next

/-- A turn of `reschedule` that goes well. -/
theorem reschedule_ok {now : ℕ} {switched : Bool} (h : reschedule now k = .ok switched k') :
    ∃ next k₁, pickNextThread k = .ok next k₁ ∧
      switched = (handleSignals next (chargeReschedule now next k₁)).1 ∧
      k' = if switched then switchToThread next (handleSignals next (chargeReschedule now next k₁)).2
        else (handleSignals next (chargeReschedule now next k₁)).2 := by
  unfold reschedule at h
  obtain ⟨next, k₁, hpick, hrest⟩ := Outcome.bind_eq_ok.mp h
  refine ⟨next, k₁, hpick, ?_⟩
  dsimp only at hrest
  split at hrest
  · next hret =>
    cases hrest
    exact ⟨hret.symm, rfl⟩
  · next hret =>
    cases hrest
    exact ⟨(Bool.not_eq_true _ ▸ hret).symm, rfl⟩

theorem reschedule_moves {now : ℕ} {switched : Bool} (hk : ∀ u ∈ k.kThreads, u ∈ k.allocated)
    (hrun : ∀ next k₁, pickNextThread k = .ok next k₁ → next ∈ k.allocated)
    (h : reschedule now k = .ok switched k') :
    Moves (fun m => ∃ next k₁, pickNextThread k = .ok next k₁ ∧ SignalMove next k m) k k' := by
  obtain ⟨next, k₁, hpick, _, rfl⟩ := reschedule_ok h
  have hacc := (pickNextThread_accounting hpick).trans (chargeReschedule_accounting now next k₁)
  have hsig : Moves (fun m => ∃ next k₁, pickNextThread k = .ok next k₁ ∧ SignalMove next k m) k
      (handleSignals next (chargeReschedule now next k₁)).2 := by
    refine hacc.moves ((handleSignals_moves ?_ ?_ (pickNextThread_ok hpick).1).mono fun m hm => ?_)
    · rw [hacc.quiet.kThreads, hacc.quiet.allocated]
      exact hk
    · rw [hacc.quiet.allocated]
      exact hrun next k₁ hpick
    · exact ⟨next, k₁, hpick, hacc.signalMove hm⟩
  split
  · exact hsig.then_quiet (switchToThread_accounting next _).quiet
  · exact hsig

theorem noResched_eq (now : ℕ) (k : Machine) : ∃ k', Accounting k k' ∧
    (k'.currentThread = k.currentThread ∧ k'.kernelTimers = k.kernelTimers) ∧
      noResched now k = (handleSignals k.currentThread k').2 := by
  dsimp only [noResched]
  split
  · exact ⟨_, (Accounting.modify k _).trans (Accounting.modify _ _), ⟨rfl, rfl⟩, rfl⟩
  · exact ⟨_, Accounting.modify k _, ⟨rfl, rfl⟩, rfl⟩

theorem noResched_moves (hk : ∀ u ∈ k.kThreads, u ∈ k.allocated)
    (ht : k.currentThread = 0 ∨ k.currentThread ∈ k.allocated) (now : ℕ) :
    Moves (fun m => k.currentThread ≠ 0 ∧ SignalMove k.currentThread k m) k (noResched now k) := by
  obtain ⟨k', hacc, _, heq⟩ := noResched_eq now k
  rw [heq]
  by_cases hzero : k.currentThread = 0
  · have hnone : handleSignals k.currentThread k' = (true, k') := if_pos hzero
    rw [hnone]
    exact .quiet hacc.quiet
  · refine hacc.moves
      ((handleSignals_moves ?_ ?_ hzero).mono fun m hm => ⟨hzero, hacc.signalMove hm⟩)
    · rw [hacc.quiet.kThreads, hacc.quiet.allocated]
      exact hk
    · rw [hacc.quiet.allocated]
      exact ht.resolve_left hzero

theorem schedulerHandler_ok {now : ℕ} {next : Option ℕ} (h : schedulerHandler now k = .ok next k') :
    (next = none ∧ (k' = noResched now (timersRun k) ∨ ∃ k₁,
      pickNextThread (timersRun k) = .ok (timersRun k).currentThread k₁ ∧ k' = noResched now k₁)) ∨
    (∃ nextThread k₁, next = some nextThread ∧ pickNextThread (timersRun k) = .ok nextThread k₁ ∧
      k' = switchToThread nextThread (chargeSwitch now nextThread k₁)) := by
  dsimp only [schedulerHandler] at h
  split at h
  · cases h
    exact .inl ⟨rfl, .inl rfl⟩
  · obtain ⟨nextThread, k₁, hpick, hrest⟩ := Outcome.bind_eq_ok.mp h
    have hcur : k₁.currentThread = (timersRun k).currentThread := by
      obtain ⟨_, slice, rfl⟩ := pickNextThread_ok hpick
      rfl
    split at hrest
    · next hsame =>
      cases hrest
      refine .inl ⟨rfl, .inr ⟨k₁, ?_, rfl⟩⟩
      rw [← hcur, hsame]
      exact hpick
    · cases hrest
      exact .inr ⟨nextThread, k₁, rfl, hpick, rfl⟩

theorem foldl_pickStep_next (l : List ℕ) (r : Pick) :
    ((l.map QueueNode.head).foldl (pickStep k) r).next = r.next ∨
      ((l.map QueueNode.head).foldl (pickStep k) r).next ∈ l := by
  induction l generalizing r with
  | nil => exact .inl rfl
  | cons x l ih =>
    have hone : (pickStep k r (.head x)).next = r.next ∨ (pickStep k r (.head x)).next = x := by
      dsimp only [pickStep]
      split
      · exact .inr rfl
      · exact .inl rfl
    rcases ih (pickStep k r (.head x)) with h | h
    · rcases hone with h' | h'
      · exact .inl (h.trans h')
      · exact .inr (List.mem_cons.mpr (.inl (h.trans h')))
    · exact .inr (List.mem_cons_of_mem _ h)

theorem foldl_pickStep_procNum (l : List ℕ) (r : Pick) (hr : r.procNum + l.length < 2 ^ 32) :
    ((l.map QueueNode.head).foldl (pickStep k) r).procNum = r.procNum + l.length := by
  induction l generalizing r with
  | nil => rfl
  | cons x l ih =>
    have hone : (pickStep k r (.head x)).procNum = r.procNum + 1 := by
      have hlt : r.procNum + 1 < 2 ^ 32 := by
        simp only [List.length_cons] at hr
        omega
      have hnum : (pickStep k r (.head x)).procNum = u32 (r.procNum + 1) := by
        dsimp only [pickStep]
        split
        · rfl
        · rfl
      rw [hnum]
      exact Nat.mod_eq_of_lt hlt
    rw [List.map_cons, List.foldl_cons, ih _ (by rw [hone]; simp only [List.length_cons] at hr; omega),
      hone, List.length_cons]
    omega

/-- With a thread on the running queue `pick_next_thread` neither divides by zero nor follows `NULL`. -/
theorem pickNextThread_spec {E : Queue → List ℕ} (h : QueueInv k E) (hrun : E .running ≠ []) :
    ∃ next k', pickNextThread k = .ok next k' ∧ next ∈ E .running := by
  have hshort := h.short .running
  have hcarries := h.linkage.rings.carries .running
  have hlen : ((E .running).map QueueNode.head).length < listFuel := by
    rw [List.length_map]
    exact hshort
  have hloop : forEach k.queues (pickStep k) (.queue .running) listFuel
      (k.queues.next (.queue .running)) ⟨0, 0, 0, 0⟩ = _ := forEach_carries hcarries hlen
  unfold pickNextThread
  rw [hloop]
  obtain ⟨x, rest, hsplit⟩ := List.exists_cons_of_ne_nil hrun
  rw [hsplit] at hshort ⊢
  have hnum := foldl_pickStep_procNum (k := k) (x :: rest) ⟨0, 0, 0, 0⟩
    (by unfold listFuel at hshort; simpa using hshort)
  have hnext : (((x :: rest).map QueueNode.head).foldl (pickStep k) ⟨0, 0, 0, 0⟩).next ∈ x :: rest := by
    have hfirst : (pickStep k ⟨0, 0, 0, 0⟩ (.head x)).next = x := by simp [pickStep, threadOf]
    rw [List.map_cons, List.foldl_cons]
    rcases foldl_pickStep_next (k := k) rest (pickStep k ⟨0, 0, 0, 0⟩ (.head x)) with e | e
    · rw [e, hfirst]
      exact List.mem_cons_self ..
    · exact List.mem_cons_of_mem _ e
  generalize ((x :: rest).map QueueNode.head).foldl (pickStep k) ⟨0, 0, 0, 0⟩ = r at hnum hnext
  have hne : r.next ≠ 0 := (h.addresses r.next (h.unreaped .running _ (hsplit ▸ hnext))).1
  refine ⟨r.next, k.modify r.next fun p => { p with timeslice := timesliceOf r p.nice }, ?_, hnext⟩
  dsimp only
  rw [if_neg, if_neg hne]
  rw [hnum, List.length_cons]
  omega

theorem pickNextThread_mem {E : Queue → List ℕ} {next : ℕ} (h : QueueInv k E)
    (hpick : pickNextThread k = .ok next k') : next ∈ E .running := by
  by_cases hrun : E .running = []
  · exfalso
    have hcarries := h.linkage.rings.carries .running
    rw [hrun] at hcarries
    have hlen : (List.map QueueNode.head []).length < listFuel := by
      unfold listFuel
      decide
    have hloop : forEach k.queues (pickStep k) (.queue .running) listFuel
        (k.queues.next (.queue .running)) ⟨0, 0, 0, 0⟩ = _ := forEach_carries hcarries hlen
    unfold pickNextThread at hpick
    rw [hloop] at hpick
    simp at hpick
  · obtain ⟨next', k'', hpick', hmem⟩ := pickNextThread_spec h hrun
    rw [hpick'] at hpick
    cases hpick
    exact hmem

theorem timersRun_moves (ht : ∀ activeT ∈ k.kernelTimers, activeT.thread ∈ k.allocated) :
    Moves (TimerMove { k with tickCount := u64 (k.tickCount + 1) }) k (timersRun k) := by
  refine (Moves.quiet ?_).trans (wakeUpTimers_moves ht)
  exact ⟨rfl, rfl, rfl, rfl, rfl, rfl, fun _ => rfl, fun _ => rfl⟩

theorem timersRun_currentThread (k : Machine) : (timersRun k).currentThread = k.currentThread := by
  have key : ∀ (l : List Timer) (k : Machine),
      (l.foldl wakeTimer k).currentThread = k.currentThread := by
    intro l
    induction l with
    | nil => exact fun _ => rfl
    | cons activeT l ih =>
      intro k
      refine (ih _).trans ?_
      unfold wakeTimer
      split
      · rfl
      · rfl
  exact key k.kernelTimers _

theorem schedulerHandler_moves {now : ℕ} {next : Option ℕ} {E : Queue → List ℕ} (hq : QueueInv k E)
    (hr : Refers k (.tick now)) (h : schedulerHandler now k = .ok next k') :
    Moves (OpMove k · (.tick now)) k k' := by
  have htimers := timersRun_moves hr.2
  have hcur := timersRun_currentThread k
  have hpre : Moves (OpMove k · (.tick now)) k (timersRun k) := htimers.mono fun m hm => .inl hm
  have hk : ∀ u ∈ (timersRun k).kThreads, u ∈ (timersRun k).allocated := by
    rw [htimers.kThreads, htimers.allocated, hq.procs]
    exact fun _ hu => hu
  rcases schedulerHandler_ok h with ⟨rfl, rfl | ⟨k₁, hpick, rfl⟩⟩ | ⟨nextThread, k₁, rfl, hpick, rfl⟩
  · refine hpre.trans ((noResched_moves hk ?_ now).mono fun m hm => .inr ?_)
    · rw [hcur, htimers.allocated]
      exact hr.1
    · rw [hcur] at hm
      exact ⟨hm.1, hm.2, _, h⟩
  · have hacc := pickNextThread_accounting hpick
    have hcur₁ : k₁.currentThread = k.currentThread := by
      obtain ⟨_, slice, rfl⟩ := pickNextThread_ok hpick
      exact hcur
    refine hpre.trans (hacc.moves ((noResched_moves ?_ ?_ now).mono fun m hm => .inr ?_))
    · rw [hacc.quiet.kThreads, hacc.quiet.allocated]
      exact hk
    · rw [hcur₁, hacc.quiet.allocated, htimers.allocated]
      exact hr.1
    · rw [hcur₁] at hm
      exact ⟨hm.1, hacc.signalMove hm.2, _, h⟩
  · refine hpre.then_quiet ((pickNextThread_accounting hpick).trans ?_).quiet
    exact (chargeSwitch_accounting now nextThread k₁).trans (switchToThread_accounting nextThread _)

end Calls

section Calls
variable {k k' : Machine} {t : ℕ}

theorem buryStopped_moves (p1 : ℕ) :
    Moves (fun m => (k.threads p1).state = .stopped ∧ m = .bury p1) k (buryStopped k p1) := by
  unfold buryStopped
  split
  · next hs => exact Moves.single (m := .bury p1) ⟨hs, rfl⟩ trivial
  · exact Moves.refl k

theorem foldl_buryStopped_moves (l : List ℕ) (k : Machine) :
    Moves (fun m => ∃ c ∈ l, (k.threads c).state = .stopped ∧ m = .bury c) k
      (l.foldl buryStopped k) := by
  induction l generalizing k with
  | nil => exact Moves.refl k
  | cons p1 l ih =>
    have hfirst : Moves (fun m => ∃ c ∈ p1 :: l, (k.threads c).state = .stopped ∧ m = .bury c) k
        (buryStopped k p1) := (buryStopped_moves p1).mono fun m hm => ⟨p1, List.mem_cons_self .., hm⟩
    refine hfirst.trans ((ih (buryStopped k p1)).mono ?_)
    rintro m ⟨c, hc, hs, rfl⟩
    refine ⟨c, List.mem_cons_of_mem _ hc, ?_, rfl⟩
    -- a thread that is stopped afterwards has not been buried
    have hback : ((buryStopped k p1).threads c).state = (k.threads c).state ∨
        ((buryStopped k p1).threads c).state = .zombie := by
      unfold buryStopped
      split
      · rw [state_setState]
        split
        · exact .inr rfl
        · exact .inl rfl
      · exact .inl rfl
    rcases hback with h | h
    · rw [← h, hs]
    · rw [hs] at h
      cases h

theorem sysWait4allDone_moves (k : Machine) :
    Moves (OpMove k · .wait4allDone) k (sysWait4allDone k) := by
  have hset : Quiet k (k.modify k.currentThread fun t => { t with wait4child := false }) :=
    Quiet.modify k _ _ (fun _ => rfl) fun _ => rfl
  have hchildren : ((k.modify k.currentThread fun t => { t with wait4child := false }).threads
      k.currentThread).children = (k.threads k.currentThread).children := by
    rw [modify_threads_self]
  dsimp only [sysWait4allDone]
  refine (Moves.quiet hset).trans ((foldl_buryStopped_moves _ _).mono ?_)
  rintro m ⟨c, hc, hs, rfl⟩
  rw [hset.state] at hs
  exact ⟨c, hchildren ▸ hc, hs, rfl⟩

theorem sysWait4Done_moves (hcur : k.currentThread ∈ k.allocated) (p : ℕ) :
    Moves (OpMove k · (.wait4Done p)) k (sysWait4Done p k).2 := by
  dsimp only [sysWait4Done]
  have hquiet : Quiet k (k.modify k.currentThread fun t => { t with wait4 := 0 }) :=
    Quiet.modify k _ _ (fun _ => rfl) fun _ => rfl
  have hbury : Moves (OpMove k · (.wait4Done p)) k
      ((k.modify k.currentThread fun t => { t with wait4 := 0 }).setState p .zombie) :=
    (Moves.quiet hquiet).trans (Moves.single (m := .bury p) (.inl rfl) trivial)
  exact hbury.trans (Moves.single (m := .wake k.currentThread .runnable) (.inr rfl) hcur)

theorem sysWait4_moves (hcur : k.currentThread ∈ k.allocated) (pid : ℕ) :
    Moves (OpMove k · (.wait4 pid)) k (sysWait4 pid k).2 := by
  unfold sysWait4
  cases hp : getThread pid k with
  | none => exact Moves.refl k
  | some p =>
    dsimp only
    split
    · next hko =>
      exact (sysWait4Done_moves hcur p).mono fun m hm => ⟨p, hp, .inl ⟨hko, hm⟩⟩
    · next hko =>
      have hset : Quiet k (k.modify k.currentThread fun t => { t with wait4 := pid }) :=
        Quiet.modify k _ _ (fun _ => rfl) fun _ => rfl
      have hcur' : k.currentThread ∈
          (k.modify k.currentThread fun t => { t with wait4 := pid }).allocated := hcur
      refine (Moves.quiet hset).trans ((sleepThread_moves hcur').mono ?_)
      exact fun m hm => ⟨p, hp, .inr ⟨(Bool.not_eq_true _).mp hko, hm⟩⟩

theorem sysWait4all_moves (hcur : k.currentThread ∈ k.allocated) :
    Moves (OpMove k · .wait4all) k (sysWait4all k).2 := by
  unfold sysWait4all
  split
  · next hall => exact (sysWait4allDone_moves k).mono fun m hm => .inl ⟨hall, hm⟩
  · next hall =>
    have hset : Quiet k (k.modify k.currentThread fun t => { t with wait4child := true }) :=
      Quiet.modify k _ _ (fun _ => rfl) fun _ => rfl
    have hcur' : k.currentThread ∈
        (k.modify k.currentThread fun t => { t with wait4child := true }).allocated := hcur
    refine (Moves.quiet hset).trans ((sleepThread_moves hcur').mono ?_)
    exact fun m hm => .inr ⟨hm, by simpa using hall⟩

theorem wakeWaiters_moves {l fuel : ℕ} (ht : ∀ t ∈ takenWaiters l (fun t => (k.threads t).waitFlags)
      fuel k.waits, t ∈ k.allocated) (h : wakeWaiters l fuel k = some k') :
    Moves (fun m => ∃ t ∈ takenWaiters l (fun t => (k.threads t).waitFlags) fuel k.waits,
      m = .wake t .runnable) k k' := by
  induction fuel generalizing k with
  | zero => cases h
  | succ fuel ih =>
    unfold wakeWaiters at h
    unfold takenWaiters at ht ⊢
    dsimp only at h ht ⊢
    split at h
    · cases h
      exact Moves.refl _
    · next hlist =>
      simp only [if_neg hlist] at ht ⊢
      generalize waiterOf (k.waits.next (.threadsWaiting l)) = t at h ht ⊢
      have hflags : ∀ u, ((wakeUpThread t { k with waits := k.waits.listRemove (.waitq t) }).threads
          u).waitFlags = (k.threads u).waitFlags :=
        Keeps.setState (f := Thread.waitFlags) (fun _ _ => rfl) _ t .runnable
      have hone : Moves (· = .wake t .runnable) k
          (wakeUpThread t { k with waits := k.waits.listRemove (.waitq t) }) := by
        refine (Moves.quiet ?_).trans (wakeUpThread_moves (ht t (List.mem_cons_self ..)))
        exact ⟨rfl, rfl, rfl, rfl, rfl, rfl, fun _ => rfl, fun _ => rfl⟩
      have hfirst : Moves (fun m => ∃ u ∈ t ::
          if (k.threads t).waitFlags = 1 then [] else
            takenWaiters l (fun t => (k.threads t).waitFlags) fuel (k.waits.listRemove (.waitq t)),
          m = .wake u .runnable) k (wakeUpThread t { k with waits := k.waits.listRemove (.waitq t) }) :=
        hone.mono fun m hm => ⟨t, List.mem_cons_self .., hm⟩
      split at h
      · cases h
        exact hfirst
      · next hflag =>
        rw [hflags] at hflag
        rw [if_neg hflag] at ht hfirst ⊢
        have hrest := ih (k := wakeUpThread t { k with waits := k.waits.listRemove (.waitq t) })
          (fun u hu => by
            simp only [hflags] at hu
            exact ht u (List.mem_cons_of_mem _ hu)) h
        simp only [hflags] at hrest
        refine hfirst.trans (hrest.mono ?_)
        rintro m ⟨u, hu, rfl⟩
        exact ⟨u, List.mem_cons_of_mem _ hu, rfl⟩

theorem unlock_moves {l : ℕ} (hr : Refers k (.unlock l)) (h : unlock l k = some k') :
    Moves (OpMove k · (.unlock l)) k k' := by
  unfold Lock.unlock at h
  have hquiet : Quiet k (freeLock l k) :=
    ⟨rfl, rfl, rfl, rfl, rfl, rfl, fun _ => rfl, fun _ => rfl⟩
  exact (Moves.quiet hquiet).trans (wakeWaiters_moves (k := freeLock l k) hr h)

theorem linkWaiter_quiet (l : ℕ) (k : Machine) : Quiet k (linkWaiter l k) := by
  unfold linkWaiter
  split
  · exact ⟨rfl, rfl, rfl, rfl, rfl, rfl, fun _ => rfl, fun _ => rfl⟩
  · exact ⟨rfl, rfl, rfl, rfl, rfl, rfl, fun _ => rfl, fun _ => rfl⟩

theorem linkWaiter_currentThread (l : ℕ) (k : Machine) :
    (linkWaiter l k).currentThread = k.currentThread := by
  unfold linkWaiter
  split
  · rfl
  · rfl

theorem getLock_moves (hcur : k.currentThread ∈ k.allocated) (l : ℕ) :
    Moves (OpMove k · (.getLock l)) k (getLock l k).2 := by
  have htest : Quiet k (testLock l k).2 :=
    ⟨rfl, rfl, rfl, rfl, rfl, rfl, fun _ => rfl, fun _ => rfl⟩
  dsimp only [Lock.getLock]
  split
  · next hlocked =>
    refine (Moves.quiet (htest.trans (linkWaiter_quiet l _))).trans
      ((sleepThread_moves ?_).mono fun m hm => ⟨hlocked, hm⟩)
    rw [(linkWaiter_quiet l _).allocated]
    exact hcur
  · exact .quiet ⟨rfl, rfl, rfl, rfl, rfl, rfl, fun _ => rfl, fun _ => rfl⟩

end Calls

def ThreadOp.Lifetime : ThreadOp → Prop
  | .create _ _ _ | .overwrite _ _ _ _ | .exterminate => True
  | _ => False

/-- All other operations are sequences of the moves told in advance. -/
theorem exec_moves {k k' : Machine} {E : Queue → List ℕ} {op : ThreadOp} (hq : QueueInv k E)
    (hr : Refers k op) (hop : ¬ op.Lifetime) (h : exec op k = some k') :
    Moves (OpMove k · op) k k' := by
  have hk : ∀ u ∈ k.kThreads, u ∈ k.allocated := fun u hu => hq.procs ▸ hu
  cases op with
  | create t w e => exact absurd trivial hop
  | overwrite t p next prev => exact absurd trivial hop
  | exterminate => exact absurd trivial hop
  | wakeUp t =>
    cases h
    exact wakeUpThread_moves hr
  | sleep t =>
    cases h
    exact sleepThread_moves hr
  | stop t =>
    cases h
    exact stopThread_moves hr
  | childAwoken pid =>
    cases h
    exact childAwoken_moves hk
  | kill t =>
    cases h
    exact killProcess_moves hk hr
  | exit retCode =>
    cases h
    exact (killProcess_moves hk hr).then_quiet (Quiet.modify _ _ _ (fun _ => rfl) fun _ => rfl)
  | sysKill pid signal =>
    cases h
    unfold sysKill
    cases getThread pid k with
    | none => exact Moves.refl k
    | some t => exact .quiet (Quiet.deliver k t signal)
  | wait4 pid =>
    cases h
    exact sysWait4_moves hr pid
  | wait4Done p =>
    cases h
    exact sysWait4Done_moves hr.2 p
  | wait4all =>
    cases h
    exact sysWait4all_moves hr
  | wait4allDone =>
    cases h
    exact sysWait4allDone_moves k
  | sleepMs ms =>
    cases h
    refine (Moves.quiet ?_).trans (sleepThread_moves hr)
    exact ⟨rfl, rfl, rfl, rfl, rfl, rfl, fun _ => rfl, fun _ => rfl⟩
  | signals t =>
    cases h
    exact handleSignals_moves hk hr (hq.addresses t hr).1
  | timers =>
    cases h
    exact wakeUpTimers_moves hr
  | reschedule now =>
    obtain ⟨switched, hrun⟩ := after_eq_some.mp h
    refine reschedule_moves hk (fun next k₁ hpick => ?_) hrun
    exact hq.unreaped .running next (pickNextThread_mem hq hpick)
  | tick now =>
    obtain ⟨next, hrun⟩ := after_eq_some.mp h
    exact schedulerHandler_moves hq hr hrun
  | getLock l =>
    cases h
    exact getLock_moves hr l
  | unlock l => exact unlock_moves hr h

end X86Osdev.Kernel

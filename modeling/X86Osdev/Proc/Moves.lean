import X86Osdev.Proc.Thread

/-! What the operations on threads do to the scheduling queues: they relink one thread at a time, and set
its state when they do. -/

namespace X86Osdev.Proc
open CircularList X86Osdev.Mem

inductive Move where
  | stop (t : ℕ)
  | sleep (t : ℕ)
  | wake (t : ℕ) (s : TaskState)
  | bury (t : ℕ)

namespace Move

def play : Move → Machine → Machine
  | .stop t, k => (k.setState t .stopped).toHead .stopped t
  | .sleep t, k => (k.setState t .interruptible).toHead .sleep t
  | .wake t s, k => (k.setState t s).toTail .running t
  | .bury t, k => k.setState t .zombie

/-- A relinked thread is not reaped, and `IDLE_PID` is never stopped or put to sleep. -/
def Legal (k : Machine) : Move → Prop
  | .stop t => t ∈ k.allocated ∧ (k.threads t).pid ≠ idlePid
  | .sleep t => t ∈ k.allocated ∧ (k.threads t).pid ≠ idlePid
  | .wake t _ => t ∈ k.allocated
  | .bury _ => True

def relinks (t : ℕ) : Move → Prop
  | .stop u => u = t
  | .sleep u => u = t
  | .wake u _ => u = t
  | .bury _ => False

end Move

structure Quiet (k k' : Machine) : Prop where
  queues : k'.queues = k.queues
  allocated : k'.allocated = k.allocated
  kThreads : k'.kThreads = k.kThreads
  idleThread : k'.idleThread = k.idleThread
  initThread : k'.initThread = k.initThread
  nextPid : k'.nextPid = k.nextPid
  state : ∀ t, (k'.threads t).state = (k.threads t).state
  pid : ∀ t, (k'.threads t).pid = (k.threads t).pid

inductive Moves (ok : Move → Prop) (k : Machine) : Machine → Prop
  | quiet {k' : Machine} : Quiet k k' → Moves ok k k'
  | move {k₁ k₂ : Machine} {m : Move} : Moves ok k k₁ → ok m → m.Legal k₁ →
      Quiet (m.play k₁) k₂ → Moves ok k k₂

section Quiet
variable {k k' k'' : Machine} {t : ℕ}

theorem Quiet.refl (k : Machine) : Quiet k k :=
  ⟨rfl, rfl, rfl, rfl, rfl, rfl, fun _ => rfl, fun _ => rfl⟩

theorem Quiet.trans (h : Quiet k k') (h' : Quiet k' k'') : Quiet k k'' :=
  ⟨h'.queues.trans h.queues, h'.allocated.trans h.allocated, h'.kThreads.trans h.kThreads,
    h'.idleThread.trans h.idleThread, h'.initThread.trans h.initThread, h'.nextPid.trans h.nextPid,
    fun t => (h'.state t).trans (h.state t), fun t => (h'.pid t).trans (h.pid t)⟩

theorem modify_apply (k : Machine) (t u : ℕ) (f : Thread → Thread) :
    (k.modify t f).threads u = if u = t then f (k.threads t) else k.threads u :=
  Function.update_apply ..

theorem state_setState (k : Machine) (t u : ℕ) (s : TaskState) :
    ((k.setState t s).threads u).state = if u = t then s else (k.threads u).state := by
  rw [Machine.setState, modify_apply]
  split
  · rfl
  · rfl

@[simp] theorem pid_setState (k : Machine) (t u : ℕ) (s : TaskState) :
    ((k.setState t s).threads u).pid = (k.threads u).pid := by
  rw [Machine.setState, modify_apply]
  split
  · next h => rw [h]
  · rfl

theorem Quiet.modify (k : Machine) (t : ℕ) (f : Thread → Thread) (hs : ∀ p, (f p).state = p.state)
    (hp : ∀ p, (f p).pid = p.pid) : Quiet k (k.modify t f) := by
  refine ⟨rfl, rfl, rfl, rfl, rfl, rfl, fun u => ?_, fun u => ?_⟩
  · rw [modify_apply]
    split
    · next h => rw [h, hs]
    · rfl
  · rw [modify_apply]
    split
    · next h => rw [h, hp]
    · rfl

theorem Quiet.deliver (k : Machine) (t signal : ℕ) : Quiet k (k.deliver t signal) :=
  Quiet.modify k t _ (fun _ => rfl) fun _ => rfl

theorem Quiet.removeSibling (k : Machine) (c : ℕ) : Quiet k (k.removeSibling c) :=
  ⟨rfl, rfl, rfl, rfl, rfl, rfl, fun _ => rfl, fun _ => rfl⟩

theorem Quiet.foldl {α : Type*} {f : Machine → α → Machine} (hf : ∀ k a, Quiet k (f k a))
    (l : List α) (k : Machine) : Quiet k (l.foldl f k) := by
  induction l generalizing k with
  | nil => exact Quiet.refl k
  | cons a l ih => exact (hf k a).trans (ih (f k a))

theorem Quiet.adopt (k : Machine) (p1 : ℕ) : Quiet k (adopt k p1) := by
  unfold Proc.adopt
  refine (Quiet.removeSibling k p1).trans ((Quiet.modify _ p1 _ ?_ ?_).trans (Quiet.modify _ _ _ ?_ ?_))
  · exact fun _ => rfl
  · exact fun _ => rfl
  · exact fun _ => rfl
  · exact fun _ => rfl

theorem Quiet.reparent (k : Machine) (p : ℕ) : Quiet k (reparent p k) :=
  Quiet.foldl Quiet.adopt _ k

theorem Quiet.dropTimer (k : Machine) (p : ℕ) : Quiet k (dropTimer p k) :=
  ⟨rfl, rfl, rfl, rfl, rfl, rfl, fun _ => rfl, fun _ => rfl⟩

theorem Quiet.getThread (h : Quiet k k') (pid : ℕ) : getThread pid k' = getThread pid k := by
  unfold Proc.getThread
  rw [h.kThreads]
  exact congrArg (List.find? · k.kThreads) (funext fun t => by rw [h.pid])

end Quiet

theorem getThread_mem {k : Machine} {pid t : ℕ} (h : getThread pid k = some t) : t ∈ k.kThreads :=
  List.mem_of_find?_eq_some h

theorem getThread_pid {k : Machine} {pid t : ℕ} (h : getThread pid k = some t) :
    (k.threads t).pid = pid := by
  simpa using List.find?_some h

section Moves
variable {k k₁ k₂ : Machine} {ok ok' : Move → Prop}

theorem Move.play_fixed (m : Move) (k : Machine) :
    (m.play k).allocated = k.allocated ∧ (m.play k).kThreads = k.kThreads ∧
      (m.play k).idleThread = k.idleThread ∧ (m.play k).initThread = k.initThread ∧
        (m.play k).nextPid = k.nextPid := by
  cases m with
  | stop t => exact ⟨rfl, rfl, rfl, rfl, rfl⟩
  | sleep t => exact ⟨rfl, rfl, rfl, rfl, rfl⟩
  | wake t s => exact ⟨rfl, rfl, rfl, rfl, rfl⟩
  | bury t => exact ⟨rfl, rfl, rfl, rfl, rfl⟩

theorem Move.play_allocated (m : Move) (k : Machine) : (m.play k).allocated = k.allocated :=
  (m.play_fixed k).1

theorem Move.play_kThreads (m : Move) (k : Machine) : (m.play k).kThreads = k.kThreads :=
  (m.play_fixed k).2.1

theorem Move.play_pid (m : Move) (k : Machine) (u : ℕ) :
    ((m.play k).threads u).pid = (k.threads u).pid := by
  cases m with
  | stop t => exact pid_setState k t u _
  | sleep t => exact pid_setState k t u _
  | wake t s => exact pid_setState k t u _
  | bury t => exact pid_setState k t u _

theorem Moves.refl (k : Machine) : Moves ok k k := .quiet (Quiet.refl k)

theorem Moves.single {m : Move} (hok : ok m) (hl : m.Legal k) : Moves ok k (m.play k) :=
  .move (Moves.refl k) hok hl (Quiet.refl _)

theorem Moves.mono (hok : ∀ m, ok m → ok' m) (h : Moves ok k k₁) : Moves ok' k k₁ := by
  induction h with
  | quiet hq => exact .quiet hq
  | move _ hm hl hq ih => exact .move ih (hok _ hm) hl hq

theorem Moves.then_quiet (h : Moves ok k k₁) (hq : Quiet k₁ k₂) : Moves ok k k₂ := by
  cases h with
  | quiet hq' => exact .quiet (hq'.trans hq)
  | move hms hm hl hq' => exact .move hms hm hl (hq'.trans hq)

theorem Moves.trans (h : Moves ok k k₁) (h' : Moves ok k₁ k₂) : Moves ok k k₂ := by
  induction h' with
  | quiet hq => exact h.then_quiet hq
  | move _ hm hl hq ih => exact .move ih hm hl hq

/-- What every relinking and every quiet step keeps, an operation keeps. -/
theorem Moves.preserves {I : Machine → Prop} (hquiet : ∀ k k', I k → Quiet k k' → I k')
    (hmove : ∀ k m, I k → ok m → m.Legal k → I (m.play k)) (h : Moves ok k k₁) (hi : I k) : I k₁ := by
  induction h with
  | quiet hq => exact hquiet _ _ hi hq
  | move _ hm hl hq ih => exact hquiet _ _ (hmove _ _ ih hm hl) hq

theorem Moves.fixed (h : Moves ok k k₁) :
    k₁.allocated = k.allocated ∧ k₁.kThreads = k.kThreads ∧ k₁.idleThread = k.idleThread ∧
      k₁.initThread = k.initThread ∧ k₁.nextPid = k.nextPid := by
  induction h with
  | quiet hq => exact ⟨hq.allocated, hq.kThreads, hq.idleThread, hq.initThread, hq.nextPid⟩
  | @move k₁ k₂ m _ _ _ hq ih =>
    obtain ⟨ha, hp, hi, hn, hc⟩ := ih
    obtain ⟨ha', hp', hi', hn', hc'⟩ := m.play_fixed k₁
    exact ⟨hq.allocated.trans (ha'.trans ha), hq.kThreads.trans (hp'.trans hp),
      hq.idleThread.trans (hi'.trans hi), hq.initThread.trans (hn'.trans hn),
      hq.nextPid.trans (hc'.trans hc)⟩

theorem Moves.allocated (h : Moves ok k k₁) : k₁.allocated = k.allocated := h.fixed.1

theorem Moves.kThreads (h : Moves ok k k₁) : k₁.kThreads = k.kThreads := h.fixed.2.1

theorem Moves.idleThread (h : Moves ok k k₁) : k₁.idleThread = k.idleThread := h.fixed.2.2.1

theorem Moves.nextPid (h : Moves ok k k₁) : k₁.nextPid = k.nextPid := h.fixed.2.2.2.2

theorem Moves.pid (h : Moves ok k k₁) (t : ℕ) : (k₁.threads t).pid = (k.threads t).pid := by
  induction h with
  | quiet hq => exact hq.pid t
  | move _ _ _ hq ih => exact (hq.pid t).trans ((Move.play_pid _ _ t).trans ih)

theorem Moves.getThread (h : Moves ok k k₁) (pid : ℕ) : getThread pid k₁ = getThread pid k := by
  unfold Proc.getThread
  rw [h.kThreads]
  exact congrArg (List.find? · k.kThreads) (funext fun t => by rw [h.pid])

theorem Move.play_state {m : Move} {t : ℕ} (hrel : ¬ m.relinks t) (hbury : m ≠ .bury t) (k : Machine) :
    ((m.play k).threads t).state = (k.threads t).state := by
  cases m with
  | stop u => exact (state_setState k u t _).trans (if_neg fun e => hrel e.symm)
  | sleep u => exact (state_setState k u t _).trans (if_neg fun e => hrel e.symm)
  | wake u s => exact (state_setState k u t _).trans (if_neg fun e => hrel e.symm)
  | bury u =>
    refine (state_setState k u t _).trans (if_neg fun e => hbury ?_)
    rw [e]

theorem Moves.state {t : ℕ} (hno : ∀ m, ok m → ¬ m.relinks t ∧ m ≠ .bury t) (h : Moves ok k k₁) :
    (k₁.threads t).state = (k.threads t).state := by
  induction h with
  | quiet hq => exact hq.state t
  | @move k₁ k₂ m _ hm _ hq ih =>
    obtain ⟨hrel, hbury⟩ := hno _ hm
    exact (hq.state t).trans ((m.play_state hrel hbury k₁).trans ih)

theorem Moves.foldl {α : Type*} {f : Machine → α → Machine} {l : List α}
    (hf : ∀ k', k'.allocated = k.allocated → ∀ a ∈ l, Moves ok k' (f k' a)) :
    Moves ok k (l.foldl f k) := by
  induction l generalizing k with
  | nil => exact Moves.refl k
  | cons a l ih =>
    have hone := hf k rfl a (List.mem_cons_self ..)
    refine hone.trans (ih fun k' hk' b hb => hf k' (hk'.trans hone.allocated) b ?_)
    exact List.mem_cons_of_mem _ hb

end Moves

section Operations
variable {k : Machine} {t : ℕ}

theorem stopThread_moves (ht : t ∈ k.allocated) : Moves (· = .stop t) k (stopThread t k) := by
  unfold stopThread
  split
  · exact Moves.refl k
  · next hp => exact Moves.single (m := .stop t) rfl ⟨ht, hp⟩

theorem sleepThread_moves (ht : t ∈ k.allocated) : Moves (· = .sleep t) k (sleepThread t k) := by
  unfold sleepThread
  split
  · exact Moves.refl k
  · next hp => exact Moves.single (m := .sleep t) rfl ⟨ht, hp⟩

theorem wakeUpThread_moves (ht : t ∈ k.allocated) :
    Moves (· = .wake t .runnable) k (wakeUpThread t k) :=
  Moves.single (m := .wake t .runnable) rfl ht

theorem wakeUpThread_setState (t : ℕ) (s : TaskState) (k : Machine) :
    (wakeUpThread t k).setState t s = (Move.wake t s).play k := by
  show Machine.mk _ _ _ _ _ _ _ _ _ _ _ _ = Machine.mk _ _ _ _ _ _ _ _ _ _ _ _
  congr 1
  funext u
  by_cases hu : u = t
  · subst hu
    simp [wakeUpThread, Machine.toTail, Machine.setState, Machine.modify]
  · simp [wakeUpThread, Machine.toTail, Machine.setState, Machine.modify, hu]

theorem childAwoken_some {pid : ℕ} (h : getThread pid k = some t) :
    childAwoken pid k = (Move.wake t (k.threads t).state).play (k.deliver t sigcko) := by
  have hstate : ((k.deliver t sigcko).threads t).state = (k.threads t).state :=
    (Quiet.deliver k t sigcko).state t
  unfold childAwoken
  rw [h]
  simp only [hstate]
  exact wakeUpThread_setState ..

theorem childAwoken_moves {pid : ℕ} (hk : ∀ u ∈ k.kThreads, u ∈ k.allocated) :
    Moves (fun m => ∃ f, getThread pid k = some f ∧ m = .wake f (k.threads f).state) k
      (childAwoken pid k) := by
  cases h : getThread pid k with
  | none =>
    unfold childAwoken
    rw [h]
    exact Moves.refl k
  | some f =>
    rw [childAwoken_some h]
    exact .move (.quiet (Quiet.deliver k f sigcko)) ⟨f, rfl, rfl⟩ (hk f (getThread_mem h))
      (Quiet.refl _)

def awoken (t : ℕ) (k : Machine) : Option ℕ := getThread (k.threads (k.threads t).father).pid k

def stateStopped (t : ℕ) (k : Machine) (u : ℕ) : TaskState :=
  if u = t then .stopped else (k.threads u).state

theorem stopped_quiet (hp : (k.threads t).pid ≠ idlePid) :
    Quiet ((Move.stop t).play k) (dropTimer t (stopThread t k)) := by
  have hstop : stopThread t k = (Move.stop t).play k := if_neg hp
  rw [hstop]
  exact Quiet.dropTimer _ t

theorem killProcess_eq (hp : (k.threads t).pid ≠ idlePid) : ∃ pid,
    getThread pid (dropTimer t (stopThread t k)) = awoken t k ∧
      killProcess t k = childAwoken pid (dropTimer t (stopThread t k)) := by
  have hstop : stopThread t k = (Move.stop t).play k := if_neg hp
  have hfather : ((dropTimer t (stopThread t k)).threads t).father = (k.threads t).father := by
    rw [hstop]
    show ((k.setState t .stopped).threads t).father = _
    rw [Machine.setState, modify_apply, if_pos rfl]
  refine ⟨_, ?_, if_neg hp⟩
  have hpid : ∀ u, ((dropTimer t (stopThread t k)).threads u).pid = (k.threads u).pid := fun u =>
    ((stopped_quiet hp).pid u).trans (Move.play_pid _ k u)
  rw [hfather, hpid, (stopped_quiet hp).getThread]
  unfold awoken getThread
  rw [Move.play_kThreads]
  exact congrArg (List.find? · k.kThreads) (funext fun u => by rw [Move.play_pid])

theorem killProcess_none (hp : (k.threads t).pid ≠ idlePid) (hf : awoken t k = none) :
    Quiet ((Move.stop t).play k) (killProcess t k) := by
  obtain ⟨pid, hget, heq⟩ := killProcess_eq hp
  have hnone : childAwoken pid (dropTimer t (stopThread t k)) = dropTimer t (stopThread t k) := by
    unfold childAwoken
    rw [hget, hf]
  rw [heq, hnone]
  exact stopped_quiet hp

theorem killProcess_some {f : ℕ} (hp : (k.threads t).pid ≠ idlePid) (hf : awoken t k = some f) :
    ∃ k₁, Quiet ((Move.stop t).play k) k₁ ∧
      killProcess t k = (Move.wake f (stateStopped t k f)).play k₁ := by
  obtain ⟨pid, hget, heq⟩ := killProcess_eq hp
  have hstate : ((dropTimer t (stopThread t k)).threads f).state = stateStopped t k f :=
    ((stopped_quiet hp).state f).trans (state_setState k t f .stopped)
  refine ⟨(dropTimer t (stopThread t k)).deliver f sigcko,
    (stopped_quiet hp).trans (Quiet.deliver _ f sigcko), ?_⟩
  rw [heq, childAwoken_some (hget.trans hf), hstate]

theorem killProcess_moves (hk : ∀ u ∈ k.kThreads, u ∈ k.allocated) (ht : t ∈ k.allocated) :
    Moves (fun m => m = .stop t ∨ ∃ f, awoken t k = some f ∧ m = .wake f (stateStopped t k f)) k
      (killProcess t k) := by
  by_cases hp : (k.threads t).pid = idlePid
  · have hsame : killProcess t k = k := if_pos hp
    rw [hsame]
    exact Moves.refl k
  · have hstop : Moves (fun m => m = .stop t ∨ ∃ f, awoken t k = some f ∧
        m = .wake f (stateStopped t k f)) k ((Move.stop t).play k) := Moves.single (.inl rfl) ⟨ht, hp⟩
    cases hf : awoken t k with
    | none =>
      rw [hf] at hstop
      exact hstop.then_quiet (killProcess_none hp hf)
    | some f =>
      obtain ⟨k₁, hq, heq⟩ := killProcess_some hp hf
      rw [heq]
      rw [hf] at hstop
      refine (hstop.then_quiet hq).trans (Moves.single (.inr ⟨f, rfl, rfl⟩) ?_)
      refine (congrArg (f ∈ ·) hq.allocated).mpr ?_
      rw [Move.play_allocated]
      exact hk f (getThread_mem hf)

end Operations

end X86Osdev.Proc

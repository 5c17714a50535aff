import X86Osdev.Kernel.SignalFrame
import X86Osdev.Library.Programs
import X86Osdev.Proc.LiveThreads

/-! `handle_signals` of kernel/signals.c and `kill_process` of proc/thread.c with interrupts on: what a kernel
thread does in one piece, and what may come in between. -/

namespace X86Osdev.Kernel
open CircularList X86Osdev.Mem X86Osdev.Proc Programs

/-- What is done in one piece: with interrupts off, or in a few instructions on one list. `adopt` and `follow`
carry what a loop over the children of a thread has still to come to. -/
inductive SignalAction where
  | look
  | clear (t i : ℕ)
  | stop (t : ℕ)
  | dropTimer (t : ℕ)
  | deliver (t : ℕ)
  | wake (t : ℕ) (prevState : TaskState)
  | exitValue (t : ℕ)
  | sleep (t : ℕ)
  | adopt (p p1 : ℕ) (rest : List ℕ)
  | follow (t p1 : ℕ) (rest : List ℕ)
  | bury (p1 : ℕ)

namespace SignalAction

def exec : SignalAction → Machine → Machine
  | .look, k => k
  | .clear t i, k => k.modify t fun p => { p with signals :=
      { p.signals with pending := p.signals.pending &&& (2 ^ 32 - 1 - signalBit i) } }
  | .stop t, k => stopThread t k
  | .dropTimer t, k => Proc.dropTimer t k
  | .deliver t, k => k.deliver t sigcko
  | .wake t prevState, k => (wakeUpThread t k).setState t prevState
  | .exitValue t, k => k.modify t fun p => { p with exitValue := 0 }
  | .sleep t, k => sleepThread t k
  | .adopt _ p1 _, k => Proc.adopt k p1
  | .follow _ _ _, k => k
  | .bury p1, k => k.setState p1 .zombie

/-- The threads whose nodes are relinked are among `allocated`. -/
def Within (allocated : List ℕ) : SignalAction → Prop
  | .stop t | .wake t _ | .sleep t => t ∈ allocated
  | _ => True

/-- The loop over the children of a thread goes on in that list. -/
def Intact (k : Machine) : SignalAction → Prop
  | .adopt p p1 rest => p1 :: rest <:+ (k.threads p).children
  | .follow t p1 rest => p1 :: rest <:+ (k.threads t).children
  | _ => True

/-- The action stores neither `TASK_STOPPED` nor `TASK_ZOMBIE` in the state of `v`. -/
def SparesThread (v : ℕ) (k : Machine) : SignalAction → Prop
  | .stop t => t = v → (k.threads t).pid = idlePid
  | .wake t prevState => t = v → prevState.ko = false
  | .bury p1 => p1 ≠ v
  | _ => True

instance (k : Machine) : DecidablePred (Intact k)
  | .adopt p p1 rest => inferInstanceAs (Decidable (p1 :: rest <:+ (k.threads p).children))
  | .follow t p1 rest => inferInstanceAs (Decidable (p1 :: rest <:+ (k.threads t).children))
  | .look | .clear _ _ | .stop _ | .dropTimer _ | .deliver _ | .wake _ _ | .exitValue _ | .sleep _ | .bury _ =>
    inferInstanceAs (Decidable True)

instance (v : ℕ) (k : Machine) : DecidablePred (SparesThread v k)
  | .stop t => inferInstanceAs (Decidable (t = v → (k.threads t).pid = idlePid))
  | .wake t prevState => inferInstanceAs (Decidable (t = v → prevState.ko = false))
  | .bury p1 => inferInstanceAs (Decidable (p1 ≠ v))
  | .look | .clear _ _ | .dropTimer _ | .deliver _ | .exitValue _ | .sleep _ | .adopt _ _ _ | .follow _ _ _ =>
    inferInstanceAs (Decidable True)

end SignalAction

abbrev SignalProgram := Program SignalAction Machine

namespace Preempted

def look : SignalProgram Machine := .found .look

def perform (a : SignalAction) : SignalProgram Unit := .perform a

/-- The loop of `reparent(t, &p->children)`. -/
def adoptAll (p : ℕ) : List ℕ → SignalProgram Unit
  | [] => pure ()
  | p1 :: rest => do
    perform (.adopt p p1 rest)
    adoptAll p rest

def reparent (p : ℕ) : SignalProgram Unit := do
  let k ← look
  adoptAll p (k.threads p).children

def childAwoken (pid : ℕ) : SignalProgram Unit := do
  let k ← look
  match getThread pid k with
  | none => pure ()
  | some t => do
    perform (.deliver t)
    let k ← look
    perform (.wake t (k.threads t).state)

def killProcess (p : ℕ) : SignalProgram Unit := do
  let k ← look
  if (k.threads p).pid = idlePid then pure ()
  else do
    perform (.stop p)
    perform (.dropTimer p)
    let k ← look
    childAwoken (k.threads (k.threads p).father).pid

/-- The first loop over the children: `all_ko` and `wait4pid`. -/
def scanChildren (t : ℕ) : List ℕ → Bool → Bool → SignalProgram (Bool × Bool)
  | [], allKo, wait4pid => pure (allKo, wait4pid)
  | p1 :: rest, allKo, wait4pid => do
    let k ← look
    let allKo := allKo && (k.threads p1).state.ko
    let k ← look
    if (k.threads t).wait4 = (k.threads p1).pid ∧ (k.threads p1).state.ko = true then do
      reparent p1
      perform (.follow t p1 rest)
      scanChildren t rest allKo true
    else do
      perform (.follow t p1 rest)
      scanChildren t rest allKo wait4pid

/-- The second loop. -/
def reparentChildren (t : ℕ) : List ℕ → SignalProgram Unit
  | [] => pure ()
  | p1 :: rest => do
    reparent p1
    perform (.follow t p1 rest)
    reparentChildren t rest

/-- The last loop. -/
def buryChildren (t : ℕ) : List ℕ → SignalProgram Unit
  | [] => pure ()
  | p1 :: rest => do
    let k ← look
    if (k.threads p1).state = .stopped then do
      reparent p1
      perform (.bury p1)
      perform (.follow t p1 rest)
      buryChildren t rest
    else do
      perform (.follow t p1 rest)
      buryChildren t rest

/-- `sleep_thread(t); ret = FALSE;` -/
def suspend (t : ℕ) : SignalProgram Bool := do
  perform (.sleep t)
  pure false

def adoptGrandchildren (t : ℕ) (allKo : Bool) : SignalProgram Unit := do
  let k ← look
  if (k.threads t).wait4child && allKo then reparentChildren t (k.threads t).children else pure ()

def waitOn (t : ℕ) (ret allKo : Bool) : SignalProgram Bool := do
  let k ← look
  if (k.threads t).wait4child && !allKo then suspend t else pure ret

def waitForNone (t : ℕ) (ret wait4pid : Bool) : SignalProgram Bool := do
  let k ← look
  if !(k.threads t).wait4child && !wait4pid then do
    buryChildren t (k.threads t).children
    let k ← look
    if (k.threads t).state = .interruptible then suspend t else pure ret
  else pure ret

/-- The branch of `handle_signals` for `SIGCKO`, one `if` after the other. -/
def handleSigcko (t : ℕ) (ret : Bool) : SignalProgram Bool := do
  let k ← look
  let r ← scanChildren t (k.threads t).children true false
  adoptGrandchildren t r.1
  let ret ← waitOn t ret r.1
  waitForNone t ret r.2

def handleSignal (t : ℕ) (ret : Bool) (i : ℕ) : SignalProgram Bool := do
  let k ← look
  let sigs := (k.threads t).signals
  if sigs.pending &&& sigs.active &&& signalBit i = 0 then pure ret
  else do
    perform (.clear t i)
    if signalBit i = sigkill then do
      killProcess t
      perform (.exitValue t)
      pure false
    else if signalBit i = sigcko then handleSigcko t ret
    else pure ret

def signalLoop (t : ℕ) : Bool → List ℕ → SignalProgram Bool
  | ret, [] => pure ret
  | ret, i :: rest => do
    let ret ← handleSignal t ret i
    signalLoop t ret rest

def handleSignals (t : ℕ) : SignalProgram Bool :=
  if t = 0 then pure true
  else do
    let k ← look
    if (k.threads t).signals.pending = 0 then pure true else signalLoop t true (List.range' 1 32)

end Preempted

section Undisturbed
variable {t p : ℕ} {k : Machine}

theorem run_look (k : Machine) : Preempted.look.run SignalAction.exec k = (k, k) := rfl

theorem run_action (a : SignalAction) (k : Machine) :
    (Preempted.perform a).run SignalAction.exec k = ((), a.exec k) := rfl

theorem run_adoptAll (p : ℕ) (l : List ℕ) (k : Machine) :
    (Preempted.adoptAll p l).run SignalAction.exec k = ((), l.foldl adopt k) := by
  induction l generalizing k with
  | nil => rfl
  | cons p1 l ih =>
    unfold Preempted.adoptAll
    rw [Program.run_bind, run_action, ih]
    rfl

theorem run_reparent (p : ℕ) (k : Machine) :
    (Preempted.reparent p).run SignalAction.exec k = ((), reparent p k) := by
  unfold Preempted.reparent
  rw [Program.run_bind, run_look, run_adoptAll]
  rfl

theorem run_childAwoken (pid : ℕ) (k : Machine) :
    (Preempted.childAwoken pid).run SignalAction.exec k = ((), childAwoken pid k) := by
  unfold Preempted.childAwoken Proc.childAwoken
  rw [Program.run_bind, run_look]
  dsimp only
  cases getThread pid k with
  | none => rfl
  | some t => rfl

theorem run_killProcess (p : ℕ) (k : Machine) :
    (Preempted.killProcess p).run SignalAction.exec k = ((), killProcess p k) := by
  unfold Preempted.killProcess Proc.killProcess
  rw [Program.run_bind, run_look]
  dsimp only
  split
  · rfl
  · simp only [Program.run_bind, run_look, run_action, run_childAwoken]
    rfl

theorem run_scanChildren (t : ℕ) (l : List ℕ) (allKo wait4pid : Bool) (k : Machine) :
    (Preempted.scanChildren t l allKo wait4pid).run SignalAction.exec k =
      (((l.foldl (scanChild t) (allKo, wait4pid, k)).1, (l.foldl (scanChild t) (allKo, wait4pid, k)).2.1),
        (l.foldl (scanChild t) (allKo, wait4pid, k)).2.2) := by
  induction l generalizing allKo wait4pid k with
  | nil => rfl
  | cons p1 l ih =>
    unfold Preempted.scanChildren
    rw [Program.run_bind, run_look, Program.run_bind, run_look, List.foldl_cons]
    dsimp only
    unfold scanChild
    dsimp only
    split
    · simp only [Program.run_bind, run_action, run_reparent, ih]
      rfl
    · simp only [Program.run_bind, run_action, ih]
      rfl

theorem run_reparentChildren (t : ℕ) (l : List ℕ) (k : Machine) :
    (Preempted.reparentChildren t l).run SignalAction.exec k = ((), l.foldl (fun k p1 => reparent p1 k) k) := by
  induction l generalizing k with
  | nil => rfl
  | cons p1 l ih =>
    unfold Preempted.reparentChildren
    simp only [Program.run_bind, run_action, run_reparent, ih]
    rfl

theorem run_buryChildren (t : ℕ) (l : List ℕ) (k : Machine) :
    (Preempted.buryChildren t l).run SignalAction.exec k = ((), l.foldl buryChild k) := by
  induction l generalizing k with
  | nil => rfl
  | cons p1 l ih =>
    unfold Preempted.buryChildren
    rw [Program.run_bind, run_look, List.foldl_cons]
    dsimp only
    unfold buryChild
    split
    · simp only [Program.run_bind, run_action, run_reparent, ih]
      rfl
    · simp only [Program.run_bind, run_action, ih]
      rfl

theorem run_adoptGrandchildren (t : ℕ) (allKo : Bool) (k : Machine) :
    (Preempted.adoptGrandchildren t allKo).run SignalAction.exec k = ((),
      if (k.threads t).wait4child && allKo then (k.threads t).children.foldl (fun k p1 => reparent p1 k) k else k) := by
  unfold Preempted.adoptGrandchildren
  rw [Program.run_bind, run_look]
  dsimp only
  split
  · exact run_reparentChildren ..
  · rfl

theorem run_waitOn (t : ℕ) (ret allKo : Bool) (k : Machine) :
    (Preempted.waitOn t ret allKo).run SignalAction.exec k =
      if (k.threads t).wait4child && !allKo then (false, sleepThread t k) else (ret, k) := by
  unfold Preempted.waitOn
  rw [Program.run_bind, run_look]
  dsimp only
  split
  · rfl
  · rfl

theorem run_waitForNone (t : ℕ) (ret wait4pid : Bool) (k : Machine) :
    (Preempted.waitForNone t ret wait4pid).run SignalAction.exec k =
      if !(k.threads t).wait4child && !wait4pid then
        let k := (k.threads t).children.foldl buryChild k
        if (k.threads t).state = .interruptible then (false, sleepThread t k) else (ret, k)
      else (ret, k) := by
  unfold Preempted.waitForNone
  rw [Program.run_bind, run_look]
  dsimp only
  split
  · rw [Program.run_bind, run_buryChildren, Program.run_bind, run_look]
    dsimp only
    split
    · rfl
    · rfl
  · rfl

/-- Neither `reparent` nor `sleep_thread` changes what the later tests of `wait4child` read. -/
theorem run_handleSigcko (t : ℕ) (ret : Bool) (k : Machine) :
    (Preempted.handleSigcko t ret).run SignalAction.exec k = handleSigcko t ret k := by
  unfold Preempted.handleSigcko Proc.handleSigcko
  simp only [Program.run_bind, run_look, run_scanChildren, run_adoptGrandchildren, run_waitOn, run_waitForNone]
  generalize (k.threads t).children.foldl (scanChild t) (true, false, k) = r
  obtain ⟨allKo, wait4pid, k⟩ := r
  dsimp only
  have hadopt : ∀ (l : List ℕ) (k : Machine), ((l.foldl (fun k p1 => reparent p1 k) k).threads t).wait4child =
      (k.threads t).wait4child := fun l k =>
    Keeps.reparentAll (f := Thread.wait4child) (fun _ _ => rfl) (fun _ _ => rfl) l k t
  have hsleep : ∀ k, ((sleepThread t k).threads t).wait4child = (k.threads t).wait4child := by
    intro k
    unfold sleepThread
    split
    · rfl
    · exact Keeps.setState (f := Thread.wait4child) (fun _ _ => rfl) k t .interruptible t
  cases hwait : (k.threads t).wait4child with
  | true =>
    cases allKo with
    | true => simp [hadopt, hwait]
    | false => simp [hsleep, hwait]
  | false => simp [hwait]

theorem run_handleSignal (t : ℕ) (ret : Bool) (i : ℕ) (k : Machine) :
    (Preempted.handleSignal t ret i).run SignalAction.exec k = handleSignal t (ret, k) i := by
  unfold Preempted.handleSignal Proc.handleSignal
  rw [Program.run_bind, run_look]
  dsimp only
  split
  · rfl
  · rw [Program.run_bind, run_action]
    dsimp only
    split
    · simp only [Program.run_bind, run_killProcess, run_action]
      rfl
    · split
      · exact run_handleSigcko ..
      · rfl

theorem run_signalLoop (t : ℕ) (ret : Bool) (l : List ℕ) (k : Machine) :
    (Preempted.signalLoop t ret l).run SignalAction.exec k = l.foldl (handleSignal t) (ret, k) := by
  induction l generalizing ret k with
  | nil => rfl
  | cons i l ih =>
    unfold Preempted.signalLoop
    rw [Program.run_bind, run_handleSignal, ih]
    rfl

/-- With nothing in between, `handle_signals` is what it is with interrupts off. -/
theorem run_handleSignals (t : ℕ) (k : Machine) :
    (Preempted.handleSignals t).run SignalAction.exec k = handleSignals t k := by
  unfold Preempted.handleSignals Proc.handleSignals
  split
  · rfl
  · rw [Program.run_bind, run_look]
    dsimp only
    split
    · rfl
    · exact run_signalLoop ..

end Undisturbed

section Disturbed
variable {t p : ℕ} {k : Machine} {as : List ℕ} {a : SignalAction}

/-- All threads of `k_threads` are among `as`. -/
def KnownThreads (as : List ℕ) (k : Machine) : Prop := ∀ u ∈ k.kThreads, u ∈ as

theorem always_adoptAll (p : ℕ) (l : List ℕ) :
    (Preempted.adoptAll p l).Always (KnownThreads as) (SignalAction.Within as) fun _ => True := by
  induction l with
  | nil => exact trivial
  | cons p1 l ih =>
    apply Program.Always.bind
    exact .perform trivial ih

theorem always_reparent (p : ℕ) :
    (Preempted.reparent p).Always (KnownThreads as) (SignalAction.Within as) fun _ => True := by
  apply Program.Always.bind
  exact .found trivial fun k _ => always_adoptAll p _

theorem always_childAwoken (pid : ℕ) :
    (Preempted.childAwoken pid).Always (KnownThreads as) (SignalAction.Within as) fun _ => True := by
  apply Program.Always.bind
  refine .found trivial fun k hk => ?_
  split
  · exact trivial
  · next f hf =>
    apply Program.Always.bind
    refine .perform trivial ?_
    apply Program.Always.bind
    exact .found trivial fun k' _ => .perform (hk f (getThread_mem hf)) trivial

theorem always_killProcess (ht : t ∈ as) :
    (Preempted.killProcess t).Always (KnownThreads as) (SignalAction.Within as) fun _ => True := by
  apply Program.Always.bind
  refine .found trivial fun k _ => ?_
  split
  · exact trivial
  · apply Program.Always.bind
    refine .perform ht ?_
    apply Program.Always.bind
    refine .perform trivial ?_
    apply Program.Always.bind
    exact .found trivial fun k' _ => always_childAwoken _

/-- A step of a loop over children that ends in `rest` of them. -/
theorem always_follow {β : Type} {q : SignalProgram β} (t p1 : ℕ) (rest : List ℕ)
    (hq : q.Always (KnownThreads as) (SignalAction.Within as) fun _ => True) :
    (Preempted.perform (.follow t p1 rest) >>= fun _ => q).Always (KnownThreads as) (SignalAction.Within as)
      fun _ => True := by
  apply Program.Always.bind
  exact .perform trivial hq

theorem always_reparent_then {β : Type} {q : SignalProgram β} (p : ℕ)
    (hq : q.Always (KnownThreads as) (SignalAction.Within as) fun _ => True) :
    (Preempted.reparent p >>= fun _ => q).Always (KnownThreads as) (SignalAction.Within as) fun _ => True := by
  apply Program.Always.bind
  exact (always_reparent p).mono fun _ _ => hq

theorem always_scanChildren (t : ℕ) (l : List ℕ) (allKo wait4pid : Bool) :
    (Preempted.scanChildren t l allKo wait4pid).Always (KnownThreads as) (SignalAction.Within as)
      fun _ => True := by
  induction l generalizing allKo wait4pid with
  | nil => exact trivial
  | cons p1 l ih =>
    apply Program.Always.bind
    refine .found trivial fun k _ => ?_
    apply Program.Always.bind
    refine .found trivial fun k' _ => ?_
    split
    · exact always_reparent_then p1 (always_follow t p1 l (ih _ true))
    · exact always_follow t p1 l (ih _ wait4pid)

theorem always_reparentChildren (t : ℕ) (l : List ℕ) :
    (Preempted.reparentChildren t l).Always (KnownThreads as) (SignalAction.Within as) fun _ => True := by
  induction l with
  | nil => exact trivial
  | cons p1 l ih => exact always_reparent_then p1 (always_follow t p1 l ih)

theorem always_buryChildren (t : ℕ) (l : List ℕ) :
    (Preempted.buryChildren t l).Always (KnownThreads as) (SignalAction.Within as) fun _ => True := by
  induction l with
  | nil => exact trivial
  | cons p1 l ih =>
    apply Program.Always.bind
    refine .found trivial fun k _ => ?_
    split
    · refine always_reparent_then p1 ?_
      apply Program.Always.bind
      exact .perform trivial (always_follow t p1 l ih)
    · exact always_follow t p1 l ih

theorem always_suspend (ht : t ∈ as) :
    (Preempted.suspend t).Always (KnownThreads as) (SignalAction.Within as) fun _ => True := by
  apply Program.Always.bind
  exact .perform ht trivial

theorem always_handleSigcko (ht : t ∈ as) (ret : Bool) :
    (Preempted.handleSigcko t ret).Always (KnownThreads as) (SignalAction.Within as) fun _ => True := by
  apply Program.Always.bind
  refine .found trivial fun k _ => ?_
  apply Program.Always.bind
  refine (always_scanChildren t _ true false).mono fun r _ => ?_
  have hadopt : (Preempted.adoptGrandchildren t r.1).Always (KnownThreads as) (SignalAction.Within as)
      fun _ => True := by
    apply Program.Always.bind
    refine .found trivial fun k _ => ?_
    split
    · exact always_reparentChildren t _
    · exact trivial
  have hwait : (Preempted.waitOn t ret r.1).Always (KnownThreads as) (SignalAction.Within as) fun _ => True := by
    apply Program.Always.bind
    refine .found trivial fun k _ => ?_
    split
    · exact always_suspend ht
    · exact trivial
  have hnone : ∀ ret, (Preempted.waitForNone t ret r.2).Always (KnownThreads as) (SignalAction.Within as)
      fun _ => True := by
    intro ret
    apply Program.Always.bind
    refine .found trivial fun k _ => ?_
    split
    · apply Program.Always.bind
      refine (always_buryChildren t _).mono fun _ _ => ?_
      apply Program.Always.bind
      refine .found trivial fun k _ => ?_
      split
      · exact always_suspend ht
      · exact trivial
    · exact trivial
  apply Program.Always.bind
  refine hadopt.mono fun _ _ => ?_
  apply Program.Always.bind
  exact hwait.mono fun ret _ => hnone ret

theorem always_handleSignal (ht : t ∈ as) (ret : Bool) (i : ℕ) :
    (Preempted.handleSignal t ret i).Always (KnownThreads as) (SignalAction.Within as) fun _ => True := by
  apply Program.Always.bind
  refine .found trivial fun k _ => ?_
  dsimp only
  split
  · exact trivial
  · apply Program.Always.bind
    refine .perform trivial ?_
    split
    · apply Program.Always.bind
      refine (always_killProcess ht).mono fun _ _ => ?_
      apply Program.Always.bind
      exact .perform trivial trivial
    · split
      · exact always_handleSigcko ht ret
      · exact trivial

theorem always_signalLoop (ht : t ∈ as) (ret : Bool) (l : List ℕ) :
    (Preempted.signalLoop t ret l).Always (KnownThreads as) (SignalAction.Within as) fun _ => True := by
  induction l generalizing ret with
  | nil => exact trivial
  | cons i l ih =>
    apply Program.Always.bind
    exact (always_handleSignal ht ret i).mono fun ret _ => ih ret

/-- Whatever comes in between, `handle_signals(t)` relinks `t` and threads of `k_threads` only. -/
theorem always_handleSignals (ht : t ∈ as) :
    (Preempted.handleSignals t).Always (KnownThreads as) (SignalAction.Within as) fun _ => True := by
  unfold Preempted.handleSignals
  split
  · exact trivial
  · apply Program.Always.bind
    refine .found trivial fun k _ => ?_
    split
    · exact trivial
    · exact always_signalLoop ht true _

theorem SignalAction.exec_moves (ha : a.Within k.allocated) :
    Moves (fun m => ∀ v, a.SparesThread v k → Spares v m) k (a.exec k) := by
  cases a with
  | look => exact Moves.refl k
  | clear t i =>
    refine .quiet ?_
    unfold SignalAction.exec
    exact Quiet.modify k t _ (fun _ => rfl) fun _ => rfl
  | stop t =>
    show Moves _ k (stopThread t k)
    unfold stopThread
    split
    · exact Moves.refl k
    · next hp => exact Moves.single (m := .stop t) (fun v hv e => hp (hv e)) ⟨ha, hp⟩
  | dropTimer t => exact .quiet (Quiet.dropTimer k t)
  | deliver t => exact .quiet (Quiet.deliver k t sigcko)
  | wake t prevState =>
    show Moves _ k ((wakeUpThread t k).setState t prevState)
    rw [wakeUpThread_setState]
    exact Moves.single (m := .wake t prevState) (fun v hv => hv) ha
  | exitValue t =>
    refine .quiet ?_
    unfold SignalAction.exec
    exact Quiet.modify k t _ (fun _ => rfl) fun _ => rfl
  | sleep t => exact (sleepThread_moves ha).mono (by rintro m rfl v _; trivial)
  | adopt p p1 rest => exact .quiet (Quiet.adopt k p1)
  | follow t p1 rest => exact Moves.refl k
  | bury p1 => exact Moves.single (m := .bury p1) (fun v hv => hv) trivial

theorem SignalAction.exec_frame (a : SignalAction) (k : Machine) : Frame k (a.exec k) := by
  cases a with
  | stop t => exact Frame.stopThread k t
  | dropTimer t => exact Frame.dropTimer k t
  | sleep t => exact Frame.sleepThread k t
  | _ => exact ⟨rfl, rfl, rfl, rfl, rfl, rfl, List.Subset.refl _⟩

end Disturbed

end X86Osdev.Kernel

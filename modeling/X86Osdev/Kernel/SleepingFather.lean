import X86Osdev.Kernel.FatherFamily
import X86Osdev.Kernel.WaitCalls
import X86Osdev.Lock.WaitQueues

/-! A father in `sys_wait4` or `sys_wait4all` while its children exit: when it sleeps through the deaths
that it waits for. -/

namespace X86Osdev.Kernel
open CircularList X86Osdev.Mem X86Osdev.Proc X86Osdev.Lock

def Phase.recorded : Phase → Bool
  | .sleep | .resched | .away => true
  | _ => false

/-- Between the look at a living child and `sleep_thread`. -/
def Phase.window : Phase → Bool
  | .record | .sleep => true
  | _ => false

def AllDead (f : ℕ) (k : Machine) (w : Wait) : Prop :=
  ∀ c ∈ w.awaited f k, (k.threads c).state.ko = true

/-- The thread is in `sys_exit` before `child_awoken`, and it will come to it. -/
def Exiting (s : CallRun) (c : ℕ) : Prop :=
  (∃ retCode, s.pc c = .exitAwake retCode) ∧ (s.k.currentThread = c ∨ OnQueue s.k .running c)

/-- `f` calls `sys_wait4` for its children and `sys_wait4all`, the other threads call `sys_exit`. -/
def FatherRun (f : ℕ) (s : CallRun) : CallEvent → Prop
  | .exit _ => s.k.currentThread ≠ f
  | .wait4 pid => s.k.currentThread = f ∧
    ∀ p, getThread pid s.k = some p → p ∈ (s.k.threads f).children ∧ p ≠ f
  | .wait4all => s.k.currentThread = f
  | .step _ | .tick _ => True
  | .exterminate => False

def CallPc.atResched : CallPc → Bool
  | .exitResched _ | .wait _ .resched => true
  | _ => false

def HandlesFather (f : ℕ) (s : CallRun) : CallEvent → Prop
  | .step _ => (s.pc s.k.currentThread).atResched = true ∧ ∃ k, pickNextThread s.k = .ok f k
  | .tick now => s.k.currentThread = f ∧ ∃ k, schedulerHandler now s.k = .ok none k
  | _ => False

def CallEvent.waits (k : Machine) : CallEvent → Option Wait
  | .wait4 pid => (getThread pid k).map (.child pid)
  | .wait4all => some .all
  | _ => none

/-- No `child_awoken` comes between the look of `f` at the states and its `sleep_thread`, unless another
awaited thread lives or is yet to wake `f`; `SIGCKO` is not handled for `f` in `TASK_INTERRUPTIBLE`
elsewhere in a call whose awaited threads are dead; on the sleep queue `f` neither calls when they are
dead nor makes a zombie of a living one; an awaited thread is not switched away from between
`stop_thread` and `child_awoken`. -/
structure Timely (f : ℕ) (s : CallRun) (ev : CallEvent) : Prop where
  wakes : ∀ now, ev = .step now → ∀ w ph, s.pc f = .wait w ph → ph.window = true →
    s.k.currentThread ∈ w.awaited f s.k → (∃ retCode, s.pc s.k.currentThread = .exitAwake retCode) →
      ∃ c ∈ w.awaited f s.k, c ≠ s.k.currentThread ∧
        ((s.k.threads c).state.ko = false ∨ Exiting s c)
  handled : HandlesFather f s ev → ∀ w ph, s.pc f = .wait w ph → ph.recorded = false →
    ph.window = false → AllDead f s.k w → SigPending f sigcko s.k →
      (s.k.threads f).state ≠ .interruptible
  calls : ∀ w, ev.waits s.k = some w → AllDead f s.k w → ¬ OnQueue s.k .sleep f
  buries : ∀ now, ev = .step now → s.k.currentThread = f → ∀ pid p rest,
    s.pc f = .wait (.child pid p) (.bury rest) →
      (s.k.threads p).state.ko = true ∨ ¬ OnQueue s.k .sleep f
  stays : ∀ now, ev = .tick now → ∀ w ph, s.pc f = .wait w ph → AllDead f s.k w →
    s.k.currentThread ∈ w.awaited f s.k → (∃ retCode, s.pc s.k.currentThread = .exitAwake retCode) →
      0 < (s.k.threads s.k.currentThread).timeslice ∨ OnQueue s.k .running s.k.currentThread

structure FatherReady (f : ℕ) (k : Machine) : Prop where
  ok : ∃ E, FatherOk f k E
  flag : (k.threads f).wait4child = false

def FatherReach (f : ℕ) (allowed : CallRun → CallEvent → Prop) (s : CallRun) : Prop :=
  ∃ k₀, FatherReady f k₀ ∧
    Runs.Steps callStep (fun s ev => FatherRun f s ev ∧ allowed s ev) ⟨k₀, fun _ => .outside⟩ s

def Phase.rest : Phase → List ℕ
  | .check rest | .bury rest => rest
  | _ => []

def Wait.Noted (f : ℕ) (k : Machine) : Wait → Prop
  | .child pid _ => (k.threads f).wait4 = pid
  | .all => (k.threads f).wait4child = true

def AtAwake (s : CallRun) (E : Queue → List ℕ) (c : ℕ) : Prop :=
  (∃ retCode, s.pc c = .exitAwake retCode) ∧ (s.k.currentThread = c ∨ c ∈ E .running)

/-- A call that waits: what is recorded is what it waits for, and if all are dead `f` is on the running
queue and will not go to sleep, or one of them will put it there. -/
structure WaitOk (f : ℕ) (s : CallRun) (E : Queue → List ℕ) (w : Wait) (ph : Phase) : Prop where
  flag : (s.k.threads f).wait4child = true → w = .all ∧ ph.recorded = true
  noted : ph.recorded = true → w.Noted f s.k
  target : ∀ pid p, w = .child pid p →
    p ∈ (s.k.threads f).children ∧ (s.k.threads p).pid = pid ∧ p ≠ f
  rest : ∀ c ∈ ph.rest, c ∈ w.awaited f s.k
  covered : AllDead f s.k w →
    (ph.window = false ∧ f ∈ E .running) ∨ ∃ c ∈ w.awaited f s.k, AtAwake s E c

structure CallOk (f : ℕ) (s : CallRun) (E : Queue → List ℕ) : Prop where
  ok : FatherOk f s.k E
  father : ((s.pc f).free = true ∧ (s.k.threads f).wait4child = false) ∨
    ∃ w ph, s.pc f = .wait w ph ∧ WaitOk f s E w ph
  others : ∀ t, t ≠ f → ∀ w ph, s.pc t ≠ .wait w ph

section Calls
variable {f t : ℕ} {s s' : CallRun} {k k' : Machine} {E E' : Queue → List ℕ} {w : Wait} {ph : Phase}

theorem awaited_follows (hfol : Follows f k k' E E') {c : ℕ} (hc : c ∈ w.awaited f k) :
    c ∈ w.awaited f k' := by
  cases w with
  | child pid p => exact hc
  | all => exact hfol.children c hc

theorem awaited_keeps (hchildren : Keeps Thread.children k k') : w.awaited f k' = w.awaited f k := by
  cases w with
  | child pid p => rfl
  | all => exact hchildren f

theorem AllDead.back (h : AllDead f k' w) (hfol : Follows f k k' E E') : AllDead f k w :=
  fun c hc => hfol.dead c (h c (awaited_follows hfol hc))

theorem WaitOk.follow (h : WaitOk f s E w ph) (hfol : Follows f s.k s'.k E E')
    (hrun : AllDead f s'.k w → ph.window = false → f ∈ E .running → f ∈ E' .running)
    (hawake : AllDead f s'.k w → ∀ c ∈ w.awaited f s.k, AtAwake s E c →
      (ph.window = false ∧ f ∈ E' .running) ∨ ∃ c ∈ w.awaited f s.k, AtAwake s' E' c) :
    WaitOk f s' E' w ph := by
  refine ⟨?_, fun hph => ?_, fun pid p hw => ?_, fun c hc => ?_, fun hdead => ?_⟩
  · rw [hfol.wait4child]
    exact h.flag
  · have hnoted := h.noted hph
    cases w with
    | child pid p => exact hfol.wait4.trans hnoted
    | all => exact hfol.wait4child.trans hnoted
  · obtain ⟨hp, hpid, hne⟩ := h.target pid p hw
    exact ⟨hfol.children p hp, (hfol.pid p).trans hpid, hne⟩
  · exact awaited_follows hfol (h.rest c hc)
  · rcases h.covered (hdead.back hfol) with ⟨hph, hf⟩ | ⟨c, hc, hat⟩
    · exact .inl ⟨hph, hrun hdead hph hf⟩
    · rcases hawake hdead c hc hat with hf | ⟨c', hc', hat'⟩
      · exact .inl hf
      · exact .inr ⟨c', awaited_follows hfol hc', hat'⟩

/-- `SIGCKO` does not put `f` to sleep when all it waits for are dead, except in `TASK_INTERRUPTIBLE`
without a record. -/
theorem WaitOk.sleepsOn {E₁ E₂ : Queue → List ℕ} (h : WaitOk f s E w ph) (hfol : Follows f s.k k E₁ E₂) (hdead : AllDead f k w)
    (hs : SleepsOn f k) : ph.recorded = false ∧ (k.threads f).state = .interruptible := by
  rcases hs with ⟨hflag, c, hc, halive⟩ | ⟨hflag, hint, hnone⟩
  · rw [hfol.wait4child] at hflag
    obtain ⟨rfl, _⟩ := h.flag hflag
    rw [hdead c hc] at halive
    cases halive
  · refine ⟨?_, hint⟩
    by_contra hrec
    have hnoted := h.noted (by simpa using hrec)
    cases w with
    | child pid p =>
      obtain ⟨hp, hpid, _⟩ := h.target pid p rfl
      refine hnone p (hfol.children p hp) ⟨?_, hdead p (List.mem_singleton_self p)⟩
      rw [hfol.wait4, hfol.pid, hpid]
      exact hnoted
    | all =>
      rw [hfol.wait4child] at hflag
      have hset : (s.k.threads f).wait4child = true := hnoted
      rw [hset] at hflag
      cases hflag

theorem WaitOk.not_fallsAsleep (h : WaitOk f s E w ph) (hfall : FallsAsleep f s.k k) (hdead : AllDead f k w)
    (hwindow : ph.window = false) (hhandled : ph.recorded = false → ph.window = false → AllDead f s.k w →
      SigPending f sigcko s.k → (s.k.threads f).state ≠ .interruptible) : False := by
  obtain ⟨k₁, E₀, E₁, E₂, hfol, hrest, hcko, hsleeps, hint⟩ := hfall
  have hdead₁ : AllDead f k₁ w := hdead.back hrest
  obtain ⟨hrec, hstate⟩ := h.sleepsOn hfol hdead₁ hsleeps
  exact hhandled hrec hwindow (hdead₁.back hfol) hcko (hint hstate)

theorem WaitOk.phase {ph' : Phase} (h : WaitOk f s E w ph) (hrec : ph'.recorded = ph.recorded)
    (hwindow : ph'.window = ph.window) (hrest : ph'.rest ⊆ ph.rest) : WaitOk f s E w ph' := by
  refine ⟨?_, ?_, h.target, fun c hc => h.rest c (hrest hc), ?_⟩
  · rw [hrec]
    exact h.flag
  · rw [hrec]
    exact h.noted
  · rw [hwindow]
    exact h.covered

theorem CallOk.goTo_father {pc : CallPc} (h : CallOk f s E) (hok : FatherOk f k E')
    (hpc : (pc.free = true ∧ (k.threads f).wait4child = false) ∨
      ∃ w ph, pc = .wait w ph ∧ WaitOk f (s.goTo f k pc) E' w ph) : CallOk f (s.goTo f k pc) E' := by
  refine ⟨hok, ?_, fun t ht w ph => ?_⟩
  · rw [callGoTo_self]
    exact hpc
  · rw [callGoTo_of_ne ht]
    exact h.others t ht w ph

theorem CallOk.follow (h : CallOk f s E) (s₁ : CallRun) (hok : FatherOk f s₁.k E') (hfol : Follows f s.k s₁.k E E')
    (hpc : s₁.pc f = s.pc f) (hothers : ∀ t, t ≠ f → ∀ w ph, s₁.pc t ≠ .wait w ph)
    (hrun : ∀ w ph, s.pc f = .wait w ph → AllDead f s₁.k w → ph.window = false → f ∈ E .running →
      f ∈ E' .running)
    (hawake : ∀ w ph, s.pc f = .wait w ph → AllDead f s₁.k w → ∀ c ∈ w.awaited f s.k, AtAwake s E c →
      (ph.window = false ∧ f ∈ E' .running) ∨ ∃ c ∈ w.awaited f s.k, AtAwake s₁ E' c) :
    CallOk f s₁ E' := by
  refine ⟨hok, ?_, hothers⟩
  rw [hpc, hfol.wait4child]
  rcases h.father with hfree | ⟨w, ph, hw, hwait⟩
  · exact .inl hfree
  · exact .inr ⟨w, ph, hw, hwait.follow hfol (hrun w ph hw) (hawake w ph hw)⟩

theorem CallOk.goTo_others {pc : CallPc} (h : CallOk f s E) (hpc : ∀ w ph, pc ≠ .wait w ph) :
    ∀ u, u ≠ f → ∀ w ph, (s.goTo t k pc).pc u ≠ .wait w ph := by
  intro u hu w ph
  by_cases hut : u = t
  · rw [hut, callGoTo_self]
    exact hpc w ph
  · rw [callGoTo_of_ne hut]
    exact h.others u hu w ph

theorem WaitOk.stop {retCode : ℕ} (h : WaitOk f s E w ph) (hne : t ≠ f) (hcur : s.k.currentThread = t)
    (hkeep : ∀ {α : Type} (g : Thread → α), (∀ p s, g { p with state := s } = g p) → Keeps g s.k k)
    (hstate : ∀ c, (k.threads c).state = if c = t then .stopped else (s.k.threads c).state)
    (hcur' : k.currentThread = s.k.currentThread) :
    WaitOk f (s.goTo t k (.exitAwake retCode)) ((Move.stop t).after E) w ph := by
  have hflag : (k.threads f).wait4child = (s.k.threads f).wait4child :=
    hkeep Thread.wait4child (fun _ _ => rfl) f
  have hwait4 : (k.threads f).wait4 = (s.k.threads f).wait4 := hkeep Thread.wait4 (fun _ _ => rfl) f
  have hchildren : Keeps Thread.children s.k k := hkeep Thread.children fun _ _ => rfl
  have hpid : ∀ c, (k.threads c).pid = (s.k.threads c).pid := hkeep Thread.pid fun _ _ => rfl
  have hawaited : w.awaited f k = w.awaited f s.k := awaited_keeps hchildren
  have hstay : ∀ u, u ≠ t → (u ∈ (Move.stop t).after E .running ↔ u ∈ E .running) :=
    fun u hu => (Move.stop t).mem_after_iff (fun e => hu e.symm) .running
  refine ⟨?_, fun hph => ?_, fun pid p hw => ?_, fun c hc => ?_, fun hdead => ?_⟩
  · rw [callGoTo_k, hflag]
    exact h.flag
  · have hnoted := h.noted hph
    cases w with
    | child pid p => exact hwait4.trans hnoted
    | all => exact hflag.trans hnoted
  · rw [callGoTo_k, hchildren, hpid]
    exact h.target pid p hw
  · rw [callGoTo_k, hawaited]
    exact h.rest c hc
  · by_cases ht : t ∈ w.awaited f s.k
    · refine .inr ⟨t, hawaited.symm ▸ ht, ⟨retCode, callGoTo_self _⟩, .inl (hcur'.trans hcur)⟩
    · have hbefore : AllDead f s.k w := by
        intro c hc
        have hct : c ≠ t := fun e => ht (e ▸ hc)
        have hko := hdead c (hawaited.symm ▸ hc)
        rw [callGoTo_k, hstate, if_neg hct] at hko
        exact hko
      rcases h.covered hbefore with ⟨hph, hf⟩ | ⟨c, hc, ⟨r, hr⟩, hplace⟩
      · exact .inl ⟨hph, (hstay f hne.symm).mpr hf⟩
      · have hct : c ≠ t := fun e => ht (e ▸ hc)
        refine .inr ⟨c, hawaited.symm ▸ hc, ⟨r, (callGoTo_of_ne hct _).trans hr⟩, .inr ?_⟩
        exact (hstay c hct).mpr (hplace.resolve_left fun e => hct (e.symm.trans hcur))

theorem CallOk.exit {retCode : ℕ} (h : CallOk f s E) (hne : s.k.currentThread ≠ f)
    (hfree : (s.pc s.k.currentThread).free = true) : ∃ E', CallOk f (s.exit retCode) E' := by
  unfold CallRun.exit
  dsimp only
  split
  · refine ⟨E, h.follow (s.goTo _ s.k _) h.ok (Accounting.refl s.k).follows
      (callGoTo_of_ne hne.symm _) (h.goTo_others fun _ _ => (nomatch ·)) (fun _ _ _ _ _ => id) ?_⟩
    rintro w ph hw hdead c hc ⟨⟨r, hr⟩, hcur⟩
    have hct : c ≠ s.k.currentThread := by
      rintro rfl
      rw [hr] at hfree
      cases hfree
    exact .inr ⟨c, hc, ⟨r, (callGoTo_of_ne hct _).trans hr⟩, hcur⟩
  · next hp =>
    have hl : (Move.stop s.k.currentThread).Legal s.k := ⟨h.ok.current_mem, hp⟩
    have hspare : Spares f (.stop s.k.currentThread) := hne
    have hstop : stopThread s.k.currentThread s.k = (Move.stop s.k.currentThread).play s.k := if_neg hp
    have hok₁ := h.ok.play hl hspare
    have hdrop := Quiet.dropTimer ((Move.stop s.k.currentThread).play s.k) s.k.currentThread
    have hkeep : ∀ {α : Type} (g : Thread → α), (∀ p s, g { p with state := s } = g p) →
        Keeps g s.k (dropTimer s.k.currentThread ((Move.stop s.k.currentThread).play s.k)) :=
      fun g hg => Keeps.setState hg s.k s.k.currentThread .stopped
    rw [hstop]
    refine ⟨_, hok₁.quiet hdrop (Frame.dropTimer _ _) (hok₁.tree.same (SameTree.of_threads rfl rfl rfl))
      (hok₁.noSigkill.keeps rfl fun _ => rfl) hok₁.init, ?_, h.goTo_others fun _ _ => (nomatch ·)⟩
    rw [callGoTo_of_ne hne.symm]
    rcases h.father with ⟨hpc, hflag⟩ | ⟨w, ph, hw, hwait⟩
    · refine .inl ⟨hpc, ?_⟩
      rw [← hflag]
      exact hkeep Thread.wait4child (fun _ _ => rfl) f
    · exact .inr ⟨w, ph, hw, hwait.stop hne rfl hkeep
        (fun c => state_setState s.k s.k.currentThread c .stopped) rfl⟩

theorem CallOk.goTo_other {pc : CallPc} (h : CallOk f s E) (hne : s.k.currentThread ≠ f)
    (hpc : ∀ w ph, pc ≠ .wait w ph) (hpast : ∀ retCode, s.pc s.k.currentThread ≠ .exitAwake retCode)
    (hok : FatherOk f k E) (hfol : Follows f s.k k E E) (hcur : k.currentThread = s.k.currentThread) :
    CallOk f (s.goTo s.k.currentThread k pc) E := by
  refine h.follow (s.goTo _ k pc) hok hfol (callGoTo_of_ne hne.symm _) (h.goTo_others hpc)
    (fun _ _ _ _ _ => id) ?_
  rintro w ph hw hdead c hc ⟨⟨r, hr⟩, hplace⟩
  have hct : c ≠ s.k.currentThread := by
    rintro rfl
    exact hpast r hr
  refine .inr ⟨c, hc, ⟨r, (callGoTo_of_ne hct _).trans hr⟩, ?_⟩
  rw [callGoTo_k, hcur]
  exact hplace

theorem CallOk.waiting (h : CallOk f s E) (hpc : s.pc f = .wait w ph) : WaitOk f s E w ph := by
  rcases h.father with ⟨hfree, _⟩ | ⟨w', ph', hw', hwait⟩
  · rw [hpc] at hfree
    cases hfree
  · rw [hpc] at hw'
    cases hw'
    exact hwait

theorem CallOk.awake {now retCode : ℕ} (h : CallOk f s E) (hne : s.k.currentThread ≠ f)
    (hpc : s.pc s.k.currentThread = .exitAwake retCode) (hin : Timely f s (.step now)) :
    ∃ E', CallOk f (s.goTo s.k.currentThread (childAwoken (s.k.threads
      (s.k.threads s.k.currentThread).father).pid s.k) (.exitStore retCode)) E' := by
  obtain ⟨E', hok, hfol, hrun, hf⟩ := h.ok.awake (s.k.threads (s.k.threads s.k.currentThread).father).pid
  refine ⟨E', h.follow (s.goTo _ _ _) hok hfol (callGoTo_of_ne hne.symm _)
    (h.goTo_others fun _ _ => (nomatch ·)) (fun _ _ _ _ _ => hrun f) ?_⟩
  intro w ph hw hdead c hc hat
  have hother : ∀ u, u ≠ s.k.currentThread → AtAwake s E u →
      AtAwake (s.goTo s.k.currentThread (childAwoken (s.k.threads
        (s.k.threads s.k.currentThread).father).pid s.k) (.exitStore retCode)) E' u := by
    rintro u hu ⟨⟨r, hr⟩, hplace⟩
    exact ⟨⟨r, (callGoTo_of_ne hu _).trans hr⟩, .inr (hrun u (hplace.resolve_left fun e => hu e.symm))⟩
  by_cases hct : c = s.k.currentThread
  · subst hct
    cases hwindow : ph.window with
    | true =>
      obtain ⟨c, hc', hct, halive | ⟨hr, hplace⟩⟩ := hin.wakes now rfl w ph hw hwindow hc ⟨retCode, hpc⟩
      · rw [hdead.back hfol c hc'] at halive
        cases halive
      · exact .inr ⟨c, hc', hother c hct ⟨hr, hplace.imp id (onQueue_iff h.ok.queues _).mp⟩⟩
    | false =>
      -- the awaited threads are children of `f`
      have hchild : s.k.currentThread ∈ (s.k.threads f).children := by
        cases w with
        | child pid p =>
          rw [List.mem_singleton.mp hc]
          exact ((h.waiting hw).target pid p rfl).1
        | all => exact hc
      have hfather := (h.ok.tree.child f h.ok.mem _ hchild).2.2
      refine .inl ⟨rfl, hf ?_⟩
      rw [hfather]
      exact h.ok.named
  · exact .inr ⟨c, hc, hother c hct hat⟩

theorem resched_ok {now : ℕ} {pc : CallPc} (h : s.resched now pc = some s') : ∃ switched k,
    reschedule now s.k = .ok switched k ∧
      s' = if switched then s.goTo s.k.currentThread k pc else ⟨k, s.pc⟩ := by
  unfold CallRun.resched at h
  split at h
  · next k hk =>
    cases h
    exact ⟨true, k, hk, rfl⟩
  · next k hk =>
    cases h
    exact ⟨false, k, hk, rfl⟩
  · cases h
  · cases h

theorem CallOk.rescheduled {now : ℕ} {switched : Bool} (h : CallOk f s E)
    (hat : (s.pc s.k.currentThread).atResched = true) (hin : Timely f s (.step now))
    (he : reschedule now s.k = .ok switched k) : ∃ E', FatherOk f k E' ∧ Follows f s.k k E E' ∧
      (∀ w ph, s.pc f = .wait w ph → AllDead f k w → ph.window = false → f ∈ E .running →
        f ∈ E' .running) ∧
      ∀ s' : CallRun, (∀ c, c ≠ s.k.currentThread → s'.pc c = s.pc c) → ∀ w, AllDead f k w →
        ∀ c ∈ w.awaited f s.k, AtAwake s E c →
          ∃ c ∈ w.awaited f s.k, AtAwake s' E' c := by
  obtain ⟨E', hok, hfol, hrun⟩ := h.ok.reschedule he
  refine ⟨E', hok, hfol, fun w ph hw hdead hwindow hf => ?_, fun s' hpc w hdead c hc hawake => ?_⟩
  · rcases hrun with hrun | ⟨hpick, hfall⟩
    · exact hrun hf
    · exact ((h.waiting hw).not_fallsAsleep hfall hdead hwindow
        (hin.handled ⟨hat, hpick⟩ w ph hw)).elim
  · obtain ⟨⟨r, hr⟩, hplace⟩ := hawake
    have hct : c ≠ s.k.currentThread := by
      rintro rfl
      rw [hr] at hat
      cases hat
    refine ⟨c, hc, ⟨r, (hpc c hct).trans hr⟩, .inr (hfol.running c ?_ (hdead c (awaited_follows hfol hc)))⟩
    exact hplace.resolve_left fun e => hct e.symm

theorem CallOk.reschedOther {now : ℕ} {pc : CallPc} (h : CallOk f s E) (hne : s.k.currentThread ≠ f)
    (hat : (s.pc s.k.currentThread).atResched = true) (hpc : ∀ w ph, pc ≠ .wait w ph)
    (hin : Timely f s (.step now)) (he : s.resched now pc = some s') : ∃ E', CallOk f s' E' := by
  obtain ⟨switched, k, hk, rfl⟩ := resched_ok he
  obtain ⟨E', hok, hfol, hrun, hawake⟩ := h.rescheduled hat hin hk
  split
  · exact ⟨E', h.follow (s.goTo _ k pc) hok hfol (callGoTo_of_ne hne.symm _) (h.goTo_others hpc) hrun
      fun w _ _ hdead c hc hat => .inr (hawake _ (fun _ hu => callGoTo_of_ne hu _) w hdead c hc hat)⟩
  · exact ⟨E', h.follow ⟨k, s.pc⟩ hok hfol rfl h.others hrun
      fun w _ _ hdead c hc hat => .inr (hawake ⟨k, s.pc⟩ (fun _ _ => rfl) w hdead c hc hat)⟩

theorem CallOk.reschedFather {now : ℕ} (h : CallOk f s E) (hcur : s.k.currentThread = f)
    (hpc : s.pc f = .wait w .resched) (hwait : WaitOk f s E w .resched) (hin : Timely f s (.step now))
    (he : s.resched now (.wait w .away) = some s') : ∃ E', CallOk f s' E' := by
  obtain ⟨switched, k, hk, rfl⟩ := resched_ok he
  have hat : (s.pc s.k.currentThread).atResched = true := by
    rw [hcur, hpc]
    rfl
  obtain ⟨E', hok, hfol, hrun, hawake⟩ := h.rescheduled hat hin hk
  rw [hcur] at hawake ⊢
  split
  · have hnext : WaitOk f (s.goTo f k (.wait w .away)) E' w .resched := hwait.follow hfol
      (hrun w .resched hpc) fun hdead c hc hat =>
        .inr (hawake _ (fun _ hu => callGoTo_of_ne hu _) w hdead c hc hat)
    exact ⟨E', h.goTo_father hok (.inr ⟨w, .away, rfl, hnext.phase rfl rfl (List.Subset.refl _)⟩)⟩
  · have hnext : WaitOk f ⟨k, s.pc⟩ E' w .resched := hwait.follow hfol (hrun w .resched hpc)
      fun hdead c hc hat => .inr (hawake ⟨k, s.pc⟩ (fun _ _ => rfl) w hdead c hc hat)
    exact ⟨E', hok, .inr ⟨w, .resched, hpc, hnext⟩, h.others⟩

theorem schedulerHandler_slice (now : ℕ) (hne : k.currentThread ≠ 0)
    (hslice : 0 < (k.threads k.currentThread).timeslice) :
    schedulerHandler now k = .ok none (noResched now (timersRun k)) := by
  have hcur := (Frame.timersRun k).currentThread
  have hkeep : Keeps Thread.timeslice k (timersRun k) := keeps_timersRun (fun _ _ => rfl) k
  unfold schedulerHandler
  dsimp only
  rw [hcur, hkeep, if_pos ⟨hne, hslice⟩]

theorem CallOk.tick {now : ℕ} (h : CallOk f s E) (hin : Timely f s (.tick now))
    (he : callStep (.tick now) s = some s') : ∃ E', CallOk f s' E' := by
  obtain ⟨k, hk, rfl⟩ := Option.map_eq_some_iff.mp he
  obtain ⟨next, hsched⟩ : ∃ next, schedulerHandler now s.k = .ok next k := by
    cases hs : schedulerHandler now s.k with
    | ok next k' =>
      rw [hs] at hk
      cases hk
      exact ⟨next, rfl⟩
    | panic msg k' =>
      rw [hs] at hk
      cases hk
    | hang k' =>
      rw [hs] at hk
      cases hk
  obtain ⟨E', hok, hfol, hcur, hrun⟩ := h.ok.tick hsched
  refine ⟨E', h.follow ⟨k, s.pc⟩ hok hfol rfl h.others (fun w ph hw hdead hwindow hf => ?_) ?_⟩
  · rcases hrun with hrun | ⟨rfl, hcf, hfall⟩
    · exact hrun hf
    · exact ((h.waiting hw).not_fallsAsleep hfall hdead hwindow
        (hin.handled ⟨hcf, k, hsched⟩ w ph hw)).elim
  · rintro w ph hw hdead c hc ⟨⟨r, hr⟩, hplace⟩
    refine .inr ⟨c, hc, ⟨r, hr⟩, ?_⟩
    have hstay : c ∈ E .running → c ∈ E' .running :=
      fun hm => hfol.running c hm (hdead c (awaited_follows hfol hc))
    rcases hplace with rfl | hm
    · -- the awaited thread before `child_awoken` is not switched away from
      rcases hin.stays now rfl w ph hw (hdead.back hfol) hc ⟨r, hr⟩ with hslice | hq
      · have hne := h.ok.ne_zero h.ok.current_mem
        have hnone := (schedulerHandler_slice now hne hslice).symm.trans hsched
        cases hnone
        exact .inl (hcur rfl)
      · exact .inr (hstay ((onQueue_iff h.ok.queues _).mp hq))
    · exact .inr (hstay hm)

theorem AtAwake.goTo {c : ℕ} {pc : CallPc} (hat : AtAwake s E c) (hcur : s.k.currentThread = f)
    (hpc : s.pc f = .wait w ph) (hstay : c ≠ f → c ∈ E .running → c ∈ E' .running) :
    AtAwake (s.goTo f k pc) E' c := by
  obtain ⟨⟨r, hr⟩, hplace⟩ := hat
  have hcf : c ≠ f := by
    rintro rfl
    rw [hr] at hpc
    cases hpc
  have hrun : c ∈ E .running := hplace.resolve_left fun e => hcf (e.symm.trans hcur)
  exact ⟨⟨r, (callGoTo_of_ne hcf _).trans hr⟩, .inr (hstay hcf hrun)⟩

theorem WaitOk.goTo {pc : CallPc} (h : WaitOk f s E w ph) (hcur : s.k.currentThread = f)
    (hpc : s.pc f = .wait w ph) : WaitOk f (s.goTo f s.k pc) E w ph :=
  h.follow (Accounting.refl s.k).follows (fun _ _ => id)
    fun _ c hc hat => .inr ⟨c, hc, hat.goTo hcur hpc fun _ => id⟩

theorem WaitOk.goTo_of {ph' : Phase} {pc : CallPc} (h : WaitOk f s E w ph) (hcur : s.k.currentThread = f)
    (hpc : s.pc f = .wait w ph) (hchildren : Keeps Thread.children s.k k) (hpid : Keeps Thread.pid s.k k)
    (hdead : AllDead f k w → AllDead f s.k w ∨ (ph'.window = false ∧ f ∈ E .running))
    (hwindow : ph.window = false → ph'.window = false)
    (hflag : (k.threads f).wait4child = true → w = .all ∧ ph'.recorded = true)
    (hnoted : ph'.recorded = true → w.Noted f k) (hrest : ∀ c ∈ ph'.rest, c ∈ w.awaited f s.k) :
    WaitOk f (s.goTo f k pc) E w ph' := by
  have hawaited : w.awaited f k = w.awaited f s.k := awaited_keeps hchildren
  refine ⟨hflag, hnoted, fun pid p hw => ?_, fun c hc => ?_, fun hall => ?_⟩
  · rw [callGoTo_k, hchildren, hpid]
    exact h.target pid p hw
  · rw [callGoTo_k, hawaited]
    exact hrest c hc
  · rw [callGoTo_k, hawaited]
    rcases hdead hall with hbefore | hf
    · rcases h.covered hbefore with ⟨hph, hf⟩ | ⟨c, hc, hat⟩
      · exact .inl ⟨hwindow hph, hf⟩
      · exact .inr ⟨c, hc, hat.goTo hcur hpc fun _ => id⟩
    · exact .inl hf

theorem WaitOk.set {pc : CallPc} (h : WaitOk f s E w .record) (hcur : s.k.currentThread = f)
    (hpc : s.pc f = .wait w .record) : WaitOk f (s.goTo f (s.k.modify f w.set) pc) E w .sleep := by
  have hstate : Keeps Thread.state s.k (s.k.modify f w.set) :=
    Keeps.modify s.k f (w.set_keeps (fun _ _ => rfl) fun _ _ => rfl)
  have hchildren : Keeps Thread.children s.k (s.k.modify f w.set) :=
    Keeps.modify s.k f (w.set_keeps (fun _ _ => rfl) fun _ _ => rfl)
  have hpid : Keeps Thread.pid s.k (s.k.modify f w.set) :=
    Keeps.modify s.k f (w.set_keeps (fun _ _ => rfl) fun _ _ => rfl)
  have hself : (s.k.modify f w.set).threads f = w.set (s.k.threads f) := modify_threads_self ..
  refine h.goTo_of hcur hpc hchildren hpid (fun hall => .inl fun c hc => ?_) (fun hph => (nomatch hph))
    (fun hflag => ⟨?_, rfl⟩) (fun _ => ?_) fun c hc => (List.not_mem_nil hc).elim
  · rw [← hstate]
    refine hall c ?_
    rw [awaited_keeps hchildren]
    exact hc
  · rw [hself] at hflag
    cases w with
    | child pid p => exact (h.flag hflag).1
    | all => rfl
  · cases w with
    | child pid p => exact congrArg Thread.wait4 hself
    | all => exact congrArg Thread.wait4child hself

theorem WaitOk.reset {pc : CallPc} (h : WaitOk f s E w ph) (hcur : s.k.currentThread = f)
    (hpc : s.pc f = .wait w ph) : WaitOk f (s.goTo f (s.k.modify f w.reset) pc) E w
      (.bury (w.awaited f s.k)) := by
  have hstate : Keeps Thread.state s.k (s.k.modify f w.reset) :=
    Keeps.modify s.k f (w.reset_keeps (fun _ _ => rfl) fun _ _ => rfl)
  have hchildren : Keeps Thread.children s.k (s.k.modify f w.reset) :=
    Keeps.modify s.k f (w.reset_keeps (fun _ _ => rfl) fun _ _ => rfl)
  have hpid : Keeps Thread.pid s.k (s.k.modify f w.reset) :=
    Keeps.modify s.k f (w.reset_keeps (fun _ _ => rfl) fun _ _ => rfl)
  have hself : (s.k.modify f w.reset).threads f = w.reset (s.k.threads f) := modify_threads_self ..
  refine h.goTo_of hcur hpc hchildren hpid (fun hall => .inl fun c hc => ?_) (fun _ => rfl)
    (fun hflag => ?_) (fun hph => (nomatch hph)) fun c hc => hc
  · rw [← hstate]
    refine hall c ?_
    rw [awaited_keeps hchildren]
    exact hc
  · rw [hself] at hflag
    cases w with
    | child pid p => exact (nomatch (h.flag hflag).1)
    | all => cases hflag

theorem WaitOk.zombie {pc : CallPc} {p1 : ℕ} {rest : List ℕ} (h : WaitOk f s E w (.bury (p1 :: rest)))
    (hcur : s.k.currentThread = f) (hpc : s.pc f = .wait w (.bury (p1 :: rest)))
    (hko : (s.k.threads p1).state.ko = true ∨ f ∈ E .running) :
    WaitOk f (s.goTo f (s.k.setState p1 .zombie) pc) E w (.bury rest) := by
  have hkeep : ∀ {α : Type} (g : Thread → α), (∀ p st, g { p with state := st } = g p) →
      Keeps g s.k (s.k.setState p1 .zombie) := fun g hg => Keeps.setState hg s.k p1 .zombie
  have hchildren := hkeep Thread.children fun _ _ => rfl
  refine h.goTo_of hcur hpc hchildren (hkeep Thread.pid fun _ _ => rfl)
    (fun hall => hko.imp (fun hko c hc => ?_) fun hf => ⟨rfl, hf⟩) (fun _ => rfl) (fun hflag => ?_)
    (fun hph => (nomatch hph)) fun c hc => h.rest c (List.mem_cons_of_mem _ hc)
  · have hc' := hall c (awaited_keeps (f := f) (w := w) hchildren ▸ hc)
    rw [state_setState] at hc'
    split at hc'
    · next hcp => exact hcp ▸ hko
    · exact hc'
  · rw [hkeep Thread.wait4child fun _ _ => rfl] at hflag
    exact h.flag hflag

theorem CallOk.sleep (h : CallOk f s E) (hcur : s.k.currentThread = f) (hpc : s.pc f = .wait w .sleep) :
    ∃ E', CallOk f (s.goTo f (sleepThread f s.k) (.wait w .resched)) E' := by
  have hdone : ∀ k E', FatherOk f k E' → Follows f s.k k E E' → (∀ c, c ≠ f → c ∈ E .running →
      c ∈ E' .running) → CallOk f (s.goTo f k (.wait w .resched)) E' := by
    intro k E' hok hfol hstay
    have hnext : WaitOk f (s.goTo f k (.wait w .resched)) E' w .sleep := (h.waiting hpc).follow hfol
      (fun _ hph => (nomatch hph)) fun _ c hc hat => .inr ⟨c, hc, hat.goTo hcur hpc (hstay c)⟩
    refine h.goTo_father hok (.inr ⟨w, .resched, rfl, hnext.flag, hnext.noted, hnext.target,
      fun c hc => (List.not_mem_nil hc).elim, fun hall => ?_⟩)
    rcases hnext.covered hall with ⟨hph, _⟩ | hat
    · cases hph
    · exact .inr hat
  unfold sleepThread
  -- A thread with `IDLE_PID` stays where it is.
  split
  · exact ⟨E, hdone _ _ h.ok (Accounting.refl s.k).follows fun _ _ => id⟩
  · next hp =>
    show ∃ E', CallOk f (s.goTo f ((Move.sleep f).play s.k) (.wait w .resched)) E'
    have hl : (Move.sleep f).Legal s.k := ⟨h.ok.mem, hp⟩
    have hkeep : ∀ {α : Type} (g : Thread → α), (∀ p st, g { p with state := st } = g p) →
        Keeps g s.k ((Move.sleep f).play s.k) := fun g hg => Keeps.setState hg s.k f .interruptible
    have hstate : ∀ c, (((Move.sleep f).play s.k).threads c).state =
        if c = f then .interruptible else (s.k.threads c).state :=
      fun c => state_setState s.k f c .interruptible
    have hstay : ∀ c, c ≠ f → c ∈ E .running → c ∈ (Move.sleep f).after E .running :=
      fun c hcf => ((Move.sleep f).mem_after_iff (fun e => hcf e.symm) .running).mpr
    refine ⟨_, hdone _ _ (h.ok.play hl trivial) ⟨fun c hc => ?_, hkeep Thread.pid fun _ _ => rfl,
      hkeep Thread.wait4 (fun _ _ => rfl) f, hkeep Thread.wait4child (fun _ _ => rfl) f, fun c hc => ?_,
      fun c hc hko => ?_, fun c hc => h.ok.queues.mem_after hc⟩ hstay⟩
    · rw [hkeep Thread.children fun _ _ => rfl]
      exact hc
    · rw [hstate] at hc
      split at hc
      · cases hc
      · exact hc
    · rw [hstate] at hko
      split at hko
      · cases hko
      · next hcf => exact hstay c hcf hc

theorem CallOk.wake (h : CallOk f s E) (hcur : s.k.currentThread = f) (hpc : s.pc f = .wait w .wake) :
    ∃ E', CallOk f (s.goTo f (wakeUpThread f s.k) (.wait w .read)) E' := by
  have hl : (Move.wake f .runnable).Legal s.k := h.ok.mem
  have hstart : Woken f s.k E s.k E :=
    ⟨h.ok.alive, fun _ hc => hc, fun _ hc => hc, fun _ hc => hc, id⟩
  have hw := hstart.wake h.ok.queues f
  have hkeep : ∀ {α : Type} (g : Thread → α), (∀ p st, g { p with state := st } = g p) →
      Keeps g s.k (wakeUpThread f s.k) := fun g hg => Keeps.setState hg s.k f .runnable
  have hfol : Follows f s.k (wakeUpThread f s.k) E ((Move.wake f .runnable).after E) := by
    refine ⟨fun c hc => ?_, hkeep Thread.pid fun _ _ => rfl, hkeep Thread.wait4 (fun _ _ => rfl) f,
      hkeep Thread.wait4child (fun _ _ => rfl) f, hw.dead, fun c hc _ => hw.running c hc, hw.placed⟩
    rw [hkeep Thread.children fun _ _ => rfl]
    exact hc
  have hnext : WaitOk f (s.goTo f (wakeUpThread f s.k) (.wait w .read)) _ w .wake :=
    (h.waiting hpc).follow hfol (fun _ _ => hw.running f)
      fun _ c hc hat => .inr ⟨c, hc, hat.goTo hcur hpc fun _ => hw.running c⟩
  exact ⟨_, h.goTo_father (h.ok.play hl fun _ => rfl) (.inr ⟨w, .read, rfl,
    hnext.phase rfl rfl (List.Subset.refl _)⟩)⟩

theorem CallOk.bury {now p1 : ℕ} {rest : List ℕ} (h : CallOk f s E) (hcur : s.k.currentThread = f)
    (hpc : s.pc f = .wait w (.bury (p1 :: rest))) (hwait : WaitOk f s E w (.bury (p1 :: rest)))
    (hin : Timely f s (.step now)) : CallOk f (s.goTo f (w.bury s.k p1) (.wait w (.bury rest))) E := by
  have hzombie : p1 ≠ f → (s.k.threads p1).state.ko = true ∨ f ∈ E .running →
      CallOk f (s.goTo f (s.k.setState p1 .zombie) (.wait w (.bury rest))) E := by
    intro hne hko
    have hl : (Move.bury p1).Legal s.k := trivial
    have hspare : Spares f (.bury p1) := hne
    exact h.goTo_father (h.ok.play hl hspare) (.inr ⟨w, .bury rest, rfl, hwait.zombie hcur hpc hko⟩)
  cases w with
  | child pid p =>
    obtain rfl : p1 = p := List.mem_singleton.mp (hwait.rest p1 (List.mem_cons_self ..))
    refine hzombie (hwait.target pid p1 rfl).2.2 ?_
    rcases hin.buries now rfl hcur pid p1 _ hpc with hko | hq
    · exact .inl hko
    · exact .inr (h.ok.alive.queue.resolve_right fun hs => hq ((onQueue_iff h.ok.queues _).mpr hs))
  | all =>
    unfold Wait.bury buryStopped
    dsimp only
    split
    · next hstop =>
      refine hzombie ?_ (.inl (congrArg TaskState.ko hstop))
      rintro rfl
      have halive := h.ok.alive.state
      rw [hstop] at halive
      cases halive
    · have hnext : WaitOk f (s.goTo f s.k (.wait .all (.bury rest))) E .all (.bury (p1 :: rest)) :=
        hwait.goTo hcur hpc
      exact h.goTo_father h.ok (.inr ⟨.all, .bury rest, rfl,
        hnext.phase rfl rfl (List.subset_cons_self ..)⟩)

theorem CallOk.next_father {now : ℕ} (h : CallOk f s E) (hcur : s.k.currentThread = f)
    (hpc : s.pc f = .wait w ph) (hwait : WaitOk f s E w ph) (hin : Timely f s (.step now))
    (he : waitNext now w ph s = some s') : ∃ E', CallOk f s' E' := by
  -- Steps that only look at the states.
  have hmove : ∀ ph', ph'.recorded = ph.recorded → ph'.window = ph.window →
      ph'.rest ⊆ ph.rest → CallOk f (s.goTo f s.k (.wait w ph')) E := fun ph' hrec hwin hrest =>
    h.goTo_father h.ok (.inr ⟨w, ph', rfl, (hwait.goTo hcur hpc).phase hrec hwin hrest⟩)
  have hmodify : ∀ g : Thread → Thread, (∀ p, (g p).state = p.state) → (∀ p, (g p).pid = p.pid) →
      (∀ p, (g p).signals = p.signals) → (∀ p, (g p).father = p.father) →
      (∀ p, (g p).children = p.children) → FatherOk f (s.k.modify f g) E :=
    fun g hs hp hg hn hc => h.ok.modify hs hp hg hn hc (.inl rfl)
  -- `done` clears the record, from either place that leads to it.
  have hreset : CallOk f (s.goTo f (s.k.modify f w.reset) (.wait w (.bury (w.awaited f s.k)))) E := by
    refine h.goTo_father (hmodify _ ?_ ?_ ?_ ?_ ?_) (.inr ⟨w, _, rfl, hwait.reset hcur hpc⟩)
    · exact w.reset_keeps (fun _ _ => rfl) fun _ _ => rfl
    · exact w.reset_keeps (fun _ _ => rfl) fun _ _ => rfl
    · exact w.reset_keeps (fun _ _ => rfl) fun _ _ => rfl
    · exact w.reset_keeps (fun _ _ => rfl) fun _ _ => rfl
    · exact w.reset_keeps (fun _ _ => rfl) fun _ _ => rfl
  unfold waitNext at he
  dsimp only at he
  rw [hcur] at he
  split at he
  · cases he
    exact ⟨E, hmove .clear rfl rfl (List.Subset.refl _)⟩
  · next p1 rest =>
    split at he
    · cases he
      exact ⟨E, hmove (.check rest) rfl rfl (List.subset_cons_self ..)⟩
    · next halive =>
      cases he
      -- A living thread among those awaited is what justifies the sleep.
      have hopen : WaitOk f (s.goTo f s.k (.wait w .record)) E w (.check (p1 :: rest)) :=
        hwait.goTo hcur hpc
      refine ⟨E, h.goTo_father h.ok (.inr ⟨w, .record, rfl, hopen.flag, fun hph => (nomatch hph),
        hopen.target, fun c hc => (List.not_mem_nil hc).elim, fun hall => ?_⟩)⟩
      exact (halive (hall p1 (hopen.rest p1 (List.mem_cons_self ..)))).elim
  · cases he
    refine ⟨E, h.goTo_father (hmodify _ ?_ ?_ ?_ ?_ ?_) (.inr ⟨w, .sleep, rfl, hwait.set hcur hpc⟩)⟩
    · exact w.set_keeps (fun _ _ => rfl) fun _ _ => rfl
    · exact w.set_keeps (fun _ _ => rfl) fun _ _ => rfl
    · exact w.set_keeps (fun _ _ => rfl) fun _ _ => rfl
    · exact w.set_keeps (fun _ _ => rfl) fun _ _ => rfl
    · exact w.set_keeps (fun _ _ => rfl) fun _ _ => rfl
  · cases he
    exact h.sleep hcur hpc
  · exact h.reschedFather hcur hpc hwait hin he
  · cases he
    exact ⟨E, hreset⟩
  · cases he
    exact ⟨E, hreset⟩
  · cases he
    cases w with
    | child pid p => exact ⟨E, hmove .wake rfl rfl (List.Subset.refl _)⟩
    | all =>
      refine ⟨E, h.goTo_father h.ok (.inl ⟨rfl, ?_⟩)⟩
      by_contra hflag
      exact nomatch (hwait.flag (by simpa using hflag)).2
  · next p1 rest =>
    cases he
    exact ⟨E, h.bury hcur hpc hwait hin⟩
  · cases he
    exact h.wake hcur hpc
  · cases w with
    | child pid p =>
      cases he
      refine ⟨E, h.goTo_father h.ok (.inl ⟨rfl, ?_⟩)⟩
      by_contra hflag
      exact nomatch (hwait.flag (by simpa using hflag)).1
    | all => cases he

theorem CallOk.ne_father (h : CallOk f s E) (hpc : (s.pc t).free = false) (hno : ∀ w ph, s.pc t ≠ .wait w ph) :
    t ≠ f := by
  rintro rfl
  rcases h.father with ⟨hfree, _⟩ | ⟨w, ph, hw, _⟩
  · rw [hpc] at hfree
    cases hfree
  · exact hno w ph hw

theorem CallOk.next {now : ℕ} (h : CallOk f s E) (hin : Timely f s (.step now))
    (he : callNext now s = some s') : ∃ E', CallOk f s' E' := by
  cases hpc : s.pc s.k.currentThread with
  | outside =>
    simp only [callNext, hpc] at he
    cases he
  | returned pid value =>
    simp only [callNext, hpc] at he
    cases he
  | exited retCode =>
    simp only [callNext, hpc] at he
    cases he
  | exitAwake retCode =>
    simp only [callNext, hpc] at he
    cases he
    have hother : s.k.currentThread ≠ f := h.ne_father (by rw [hpc]; rfl) (by simp [hpc])
    exact h.awake hother hpc hin
  | exitStore retCode =>
    simp only [callNext, hpc] at he
    cases he
    have hother : s.k.currentThread ≠ f := h.ne_father (by rw [hpc]; rfl) (by simp [hpc])
    have hacc : Accounting s.k (s.k.modify s.k.currentThread fun p => { p with exitValue := retCode }) :=
      ⟨Quiet.modify _ _ _ (fun _ => rfl) fun _ => rfl, Keeps.modify _ _ fun _ => rfl,
        Keeps.modify _ _ fun _ => rfl, Keeps.modify _ _ fun _ => rfl, Keeps.modify _ _ fun _ => rfl,
        Keeps.modify _ _ fun _ => rfl⟩
    exact ⟨E, h.goTo_other hother (by simp) (by simp [hpc])
      (h.ok.accounting hacc (Frame.modify _ _ _)) hacc.follows rfl⟩
  | exitResched retCode =>
    simp only [callNext, hpc] at he
    have hother : s.k.currentThread ≠ f := h.ne_father (by rw [hpc]; rfl) (by simp [hpc])
    have hexited : ∀ w ph, CallPc.exited retCode ≠ .wait w ph := by simp
    exact h.reschedOther hother (by rw [hpc]; rfl) hexited hin he
  | wait w ph =>
    simp only [callNext, hpc] at he
    -- Nobody but `f` is in a call that waits.
    have hcur : s.k.currentThread = f := by
      by_contra hne
      exact h.others _ hne w ph hpc
    rw [hcur] at hpc
    exact h.next_father hcur hpc (h.waiting hpc) hin he

theorem CallOk.unflagged (h : CallOk f s E) (hfree : (s.pc f).free = true) :
    (s.k.threads f).wait4child = false := by
  rcases h.father with ⟨_, hflag⟩ | ⟨w, ph, hw, _⟩
  · exact hflag
  · rw [hw] at hfree
    cases hfree

theorem CallOk.call (h : CallOk f s E) (hfree : (s.pc f).free = true) {rest : List ℕ}
    (htarget : ∀ pid p, w = .child pid p →
      p ∈ (s.k.threads f).children ∧ (s.k.threads p).pid = pid ∧ p ≠ f)
    (hrest : ∀ c ∈ rest, c ∈ w.awaited f s.k) (hq : AllDead f s.k w → ¬ OnQueue s.k .sleep f) :
    CallOk f (s.goTo f s.k (.wait w (.check rest))) E := by
  refine h.goTo_father h.ok (.inr ⟨w, _, rfl, fun hset => ?_, fun hph => (nomatch hph), htarget, hrest,
    fun hdead => .inl ⟨rfl, ?_⟩⟩)
  · rw [callGoTo_k, h.unflagged hfree] at hset
    cases hset
  · exact h.ok.alive.queue.resolve_right fun hs => hq hdead ((onQueue_iff h.ok.queues _).mpr hs)

theorem CallOk.step {ev : CallEvent} (h : CallOk f s E) (hrun : FatherRun f s ev) (hin : Timely f s ev)
    (he : callStep ev s = some s') : ∃ E', CallOk f s' E' := by
  cases ev with
  | exit retCode =>
    obtain ⟨hfree, he⟩ := Option.ite_none_right_eq_some.mp he
    cases he
    exact h.exit hrun hfree
  | wait4 pid =>
    obtain ⟨hcur, hchild⟩ := hrun
    obtain ⟨hfree, he⟩ := Option.ite_none_right_eq_some.mp he
    cases he
    rw [hcur] at hfree ⊢
    unfold CallRun.find
    cases hget : getThread pid s.k with
    | none => exact ⟨E, h.goTo_father h.ok (.inl ⟨rfl, h.unflagged hfree⟩)⟩
    | some p =>
      have hwaits : (CallEvent.wait4 pid).waits s.k = some (.child pid p) :=
        congrArg (Option.map (Wait.child pid)) hget
      refine ⟨E, h.call hfree (fun pid' p' e => ?_) (fun c hc => hc) (hin.calls _ hwaits)⟩
      cases e
      exact ⟨(hchild p hget).1, getThread_pid hget, (hchild p hget).2⟩
  | wait4all =>
    have hcur : s.k.currentThread = f := hrun
    obtain ⟨hfree, he⟩ := Option.ite_none_right_eq_some.mp he
    cases he
    rw [hcur] at hfree ⊢
    exact ⟨E, h.call hfree (fun pid' p' e => (nomatch e)) (fun c hc => hc) (hin.calls .all rfl)⟩
  | step now => exact h.next hin he
  | tick now => exact h.tick hin he
  | exterminate => exact hrun.elim

end Calls

theorem FatherReady.callOk {f : ℕ} {k : Machine} (h : FatherReady f k) :
    ∃ E, CallOk f ⟨k, fun _ => .outside⟩ E := by
  obtain ⟨E, hok⟩ := h.ok
  exact ⟨E, hok, .inl ⟨rfl, h.flag⟩, fun _ _ _ _ e => nomatch e⟩

theorem FatherReach.callOk {f : ℕ} {s : CallRun} (h : FatherReach f (Timely f) s) : ∃ E, CallOk f s E := by
  obtain ⟨k₀, hready, hrun⟩ := h
  refine hrun.invariant (I := fun s => ∃ E, CallOk f s E) ?_ hready.callOk
  rintro s ev s' ⟨E, hok⟩ ⟨hcalls, hin⟩ he
  exact hok.step hcalls hin he

/-- A father that sleeps in a call while all that it waits for are dead is about to be woken. -/
theorem no_sleep_through_exit {f : ℕ} {s : CallRun} {w : Wait} {ph : Phase}
    (h : FatherReach f (Timely f) s) (hpc : s.pc f = .wait w ph) (hsleep : OnQueue s.k .sleep f)
    (hdead : AllDead f s.k w) : ∃ c ∈ w.awaited f s.k, Exiting s c := by
  obtain ⟨E, hok⟩ := h.callOk
  have hq := hok.ok.queues
  have hin := (onQueue_iff hq .sleep).mp hsleep
  rcases (hok.waiting hpc).covered hdead with ⟨_, hrun⟩ | ⟨c, hc, hat, hplace⟩
  · exact nomatch hq.queue_unique hrun hin
  · exact ⟨c, hc, hat, hplace.imp id (onQueue_iff hq .running).mpr⟩

def CallPc.atAwake : CallPc → Bool
  | .exitAwake _ => true
  | _ => false

def Phase.burying : Phase → Bool
  | .bury _ => true
  | _ => false

def fatherCheck (f : ℕ) (s : CallRun) : CallEvent → Bool
  | .exit _ => s.k.currentThread ≠ f
  | .wait4 pid => s.k.currentThread = f &&
    (getThread pid s.k).all fun p => p ∈ (s.k.threads f).children && p ≠ f
  | .wait4all => s.k.currentThread = f
  | .step _ | .tick _ => true
  | .exterminate => false

theorem fatherCheck_spec (f : ℕ) (s : CallRun) (ev : CallEvent) (h : fatherCheck f s ev = true) :
    FatherRun f s ev := by
  cases ev with
  | exit retCode =>
    have hne : s.k.currentThread ≠ f := by simpa [fatherCheck] using h
    exact hne
  | wait4 pid =>
    have hcall : s.k.currentThread = f ∧ (getThread pid s.k).all
        (fun p => p ∈ (s.k.threads f).children && p ≠ f) = true := by simpa [fatherCheck] using h
    refine ⟨hcall.1, fun p hp => ?_⟩
    have hall := hcall.2
    rw [hp] at hall
    simpa using hall
  | wait4all =>
    have hcur : s.k.currentThread = f := by simpa [fatherCheck] using h
    exact hcur
  | step now => trivial
  | tick now => trivial
  | exterminate => cases h

def timelyCheck (f : ℕ) (s : CallRun) : CallEvent → Bool
  | .exit _ => true
  | .wait4 pid => (getThread pid s.k).all fun p => !(s.k.threads p).state.ko
  | .step _ =>
    match s.pc f with
    | .wait _ ph => !(s.pc s.k.currentThread).atAwake && (!ph.burying &&
      (ph.recorded || (s.k.threads f).state ≠ .interruptible))
    | _ => true
  | _ => false

theorem timelyCheck_spec (f : ℕ) (s : CallRun) (ev : CallEvent) (h : timelyCheck f s ev = true) :
    Timely f s ev := by
  cases ev with
  | exit retCode =>
    exact ⟨fun _ e => (nomatch e), fun hh => hh.elim, fun _ e => (nomatch e), fun _ e => (nomatch e),
      fun _ e => (nomatch e)⟩
  | wait4 pid =>
    refine ⟨fun _ e => (nomatch e), fun hh => hh.elim, fun w hw hdead => ?_, fun _ e => (nomatch e),
      fun _ e => (nomatch e)⟩
    obtain ⟨p, hp, rfl⟩ := Option.map_eq_some_iff.mp hw
    have halive : (s.k.threads p).state.ko = false := by
      have hall : (getThread pid s.k).all (fun p => !(s.k.threads p).state.ko) = true := h
      rw [hp] at hall
      simpa using hall
    rw [hdead p (List.mem_singleton_self p)] at halive
    cases halive
  | wait4all => cases h
  | step now =>
    have hwait : ∀ w ph, s.pc f = .wait w ph → (s.pc s.k.currentThread).atAwake = false ∧
        ph.burying = false ∧ (ph.recorded = true ∨ (s.k.threads f).state ≠ .interruptible) := by
      intro w ph hw
      unfold timelyCheck at h
      rw [hw] at h
      simpa using h
    refine ⟨fun _ _ w ph hw _ _ ⟨r, hr⟩ => ?_, fun _ w ph hw hrec _ _ _ => ?_, fun _ e => (nomatch e),
      fun _ _ _ pid p rest hw => ?_, fun _ e => (nomatch e)⟩
    · have hat := (hwait w ph hw).1
      rw [hr] at hat
      cases hat
    · refine (hwait w ph hw).2.2.resolve_left fun e => ?_
      rw [hrec] at e
      cases e
    · exact nomatch (hwait _ _ hw).2.1
  | tick now => cases h
  | exterminate => cases h

theorem fatherRuns_family : ∃ E, FamilyInv fatherRuns E := by
  have hrun : execAll [.wakeUp 0x2000, .create 0x3000 0 0, .wakeUp 0x3000, .sleep 0x1000,
      .reschedule 100, .create 0x4000 0 0, .wakeUp 0x4000] started = some fatherRuns :=
    execAll_getD (by decide +kernel)
  have hcheck : ∀ k op, (sparesInit k op && buriesLeaves k op) = true → TreeOp k op := by
    intro k op h
    rw [Bool.and_eq_true] at h
    exact ⟨sparesInit_spec h.1, buriesLeaves_spec h.2⟩
  have hreach : ThreadReach TreeOp fatherRuns :=
    (started_reach TreeOp).pass hcheck (by decide +kernel) hrun
  exact hreach.familyInv

def fatherTired : Machine := fatherRuns.modify 0x3000 fun p => { p with runtime := 1, timeslice := 0 }

theorem fatherTired_ready : FatherReady 0x3000 fatherTired := by
  obtain ⟨E, hi⟩ := fatherRuns_family
  have hwell := queuesWellFormed hi.queues
  have hrunning : 0x3000 ∈ E .running := hwell.mem_of_links (n := 2) (by decide +kernel)
  have hok : FatherOk 0x3000 fatherRuns E := by
    refine ⟨hi.queues, hi.tree, ?_, ⟨by decide +kernel, .inl hrunning⟩, by decide +kernel,
      ⟨.running, ?_⟩, ?_, fun _ => by decide +kernel⟩
    · unfold NoSigkill
      decide +kernel
    · have hcur : fatherRuns.currentThread = 0x3000 := by decide +kernel
      rw [hcur]
      exact hrunning
    · have hnone : fatherRuns.kernelTimers = [] := by decide +kernel
      rw [hnone]
      exact fun activeT h => nomatch h
  exact ⟨⟨E, hok.modify (fun _ => rfl) (fun _ => rfl) (fun _ => rfl) (fun _ => rfl) (fun _ => rfl)
    (.inr fun _ => rfl)⟩, by decide +kernel⟩

def callsStart : CallRun := ⟨fatherTired, fun _ => .outside⟩

def childExits : CallRun :=
  (Runs.runList callStep (fun s ev => fatherCheck 0x3000 s ev && timelyCheck 0x3000 s ev)
    [.wait4 3, .step 0, .step 0, .step 0, .step 200, .exit 7] callsStart).getD callsStart

theorem no_sleep_through_exit_child : ∃ c ∈ (Wait.child 3 0x4000).awaited 0x3000 childExits.k,
    Exiting childExits c := by
  have hrun : Runs.runList callStep (fun s ev => fatherCheck 0x3000 s ev && timelyCheck 0x3000 s ev)
      [.wait4 3, .step 0, .step 0, .step 0, .step 200, .exit 7] callsStart = some childExits :=
    Runs.runList_getD (by decide +kernel)
  have hreach : FatherReach 0x3000 (Timely 0x3000) childExits := by
    refine ⟨_, fatherTired_ready, Runs.runList_steps (fun s ev h => ?_) hrun⟩
    rw [Bool.and_eq_true] at h
    exact ⟨fatherCheck_spec 0x3000 s ev h.1, timelyCheck_spec 0x3000 s ev h.2⟩
  have hpc : childExits.pc 0x3000 = .wait (.child 3 0x4000) .away := by decide +kernel
  have hsleep : OnQueue childExits.k .sleep 0x3000 := ⟨1, by decide +kernel⟩
  have hdead : AllDead 0x3000 childExits.k (.child 3 0x4000) := by
    unfold AllDead
    decide +kernel
  exact no_sleep_through_exit hreach hpc hsleep hdead

/-- The father has seen that the child is alive; a timer interrupt switches to the child, which exits. -/
def childMissed : CallRun :=
  (Runs.runList callStep (fatherCheck 0x3000) [.wait4 3, .step 0, .tick 200, .exit 7, .step 0, .step 0,
    .step 300, .step 0, .step 0, .step 400] callsStart).getD callsStart

/-- The father sleeps in `sys_wait4` and nobody will wake it. -/
theorem father_sleeps_on : FatherReach 0x3000 (fun _ _ => True) childMissed ∧
    childMissed.pc 0x3000 = .wait (.child 3 0x4000) .away ∧ OnQueue childMissed.k .sleep 0x3000 ∧
      ¬ OnQueue childMissed.k .running 0x3000 ∧ AllDead 0x3000 childMissed.k (.child 3 0x4000) ∧
        ∀ c ∈ (Wait.child 3 0x4000).awaited 0x3000 childMissed.k, ¬ Exiting childMissed c := by
  have hrun : Runs.runList callStep (fatherCheck 0x3000) [.wait4 3, .step 0, .tick 200, .exit 7, .step 0,
      .step 0, .step 300, .step 0, .step 0, .step 400] callsStart = some childMissed :=
    Runs.runList_getD (by decide +kernel)
  have hreach : FatherReach 0x3000 (fun _ _ => True) childMissed :=
    ⟨_, fatherTired_ready, Runs.runList_steps
      (fun s ev h => ⟨fatherCheck_spec 0x3000 s ev h, trivial⟩) hrun⟩
  have hexited : childMissed.pc 0x4000 = .exited 7 := by decide +kernel
  have hqueue : ¬ OnQueue childMissed.k .running 0x3000 :=
    not_onQueue [.queue .running, .head 0x2000] (by decide) (by decide +kernel) (by decide)
  refine ⟨hreach, by decide +kernel, ⟨1, by decide +kernel⟩, hqueue, ?_, fun c hc hexit => ?_⟩
  · unfold AllDead
    decide +kernel
  · obtain rfl : c = 0x4000 := List.mem_singleton.mp hc
    obtain ⟨⟨r, hr⟩, _⟩ := hexit
    rw [hexited] at hr
    cases hr

end X86Osdev.Kernel

import X86Osdev.Kernel.ProcessTree
import X86Osdev.Kernel.SignalFrame
import X86Osdev.Library.Runs
import X86Osdev.Proc.FatherSignals

/-! The time that `runtime` counts: what the scheduler charges a thread, against how long it was the current
thread. -/

namespace X86Osdev.Kernel
open CircularList X86Osdev.Mem X86Osdev.Proc

def clock (p : Thread) : ℕ × ℕ := (p.runtime, p.lastActivation)

structure SameClocks (k k' : Machine) : Prop where
  clock : Keeps clock k k'
  currentThread : k'.currentThread = k.currentThread
  idleThread : k'.idleThread = k.idleThread

structure Ran (k k' : Machine) (now next charge : ℕ) : Prop where
  idleThread : k'.idleThread = k.idleThread
  lastActivation : ∀ t, (k'.threads t).lastActivation =
    if t = next then now else (k.threads t).lastActivation
  charged : k.currentThread ≠ 0 → k.currentThread ≠ k.idleThread →
    (k'.threads k.currentThread).runtime = u64 ((k.threads k.currentThread).runtime + charge)
  other : ∀ t, t ≠ 0 → (t ≠ k.currentThread ∨ t = k.idleThread) →
    (k'.threads t).runtime = (k.threads t).runtime

section Clocks
variable {k k' k'' : Machine} {now next charge : ℕ}

theorem SameClocks.trans (h : SameClocks k k') (h' : SameClocks k' k'') : SameClocks k k'' :=
  ⟨h.clock.trans h'.clock, h'.currentThread.trans h.currentThread, h'.idleThread.trans h.idleThread⟩

theorem SameClocks.runtime (h : SameClocks k k') (t : ℕ) :
    (k'.threads t).runtime = (k.threads t).runtime := congrArg Prod.fst (h.clock t)

theorem SameClocks.lastActivation (h : SameClocks k k') (t : ℕ) :
    (k'.threads t).lastActivation = (k.threads t).lastActivation := congrArg Prod.snd (h.clock t)

theorem Ran.before (hs : SameClocks k k') (h : Ran k' k'' now next charge) :
    Ran k k'' now next charge where
  idleThread := h.idleThread.trans hs.idleThread
  lastActivation t := by rw [h.lastActivation, hs.lastActivation]
  charged hzero hidle := by
    have := h.charged (by rwa [hs.currentThread]) (by rwa [hs.currentThread, hs.idleThread])
    rwa [hs.currentThread, hs.runtime] at this
  other t hzero ht := by
    rw [h.other t hzero (by rwa [hs.currentThread, hs.idleThread]), hs.runtime]

theorem Ran.after (h : Ran k k' now next charge) (hs : SameClocks k' k'') :
    Ran k k'' now next charge where
  idleThread := hs.idleThread.trans h.idleThread
  lastActivation t := by rw [hs.lastActivation, h.lastActivation]
  charged hzero hidle := by rw [hs.runtime, h.charged hzero hidle]
  other t hzero ht := by rw [hs.runtime, h.other t hzero ht]

theorem Ran.switch (h : Ran k k' now next charge) (t : ℕ) : Ran k (switchToThread t k') now next charge :=
  ⟨h.idleThread, h.lastActivation, h.charged, h.other⟩

theorem keeps_handleSignals {α : Type*} {f : Thread → α} (hs : ∀ p s, f { p with state := s } = f p)
    (hg : ∀ p s, f { p with signals := s } = f p) (hc : ∀ p c, f { p with children := c } = f p)
    (hn : ∀ p n, f { p with father := n } = f p) (he : ∀ p n, f { p with exitValue := n } = f p)
    (k : Machine) (t : ℕ) : Keeps f k (handleSignals t k).2 := by
  have hone : ∀ (r : Bool × Machine) (i : ℕ), Keeps f r.2 (handleSignal t r i).2 := by
    intro r i
    unfold Proc.handleSignal
    dsimp only
    split
    · exact Keeps.refl _
    · have hclear := Keeps.modify r.2 t fun p => hg p
        { p.signals with pending := p.signals.pending &&& (2 ^ 32 - 1 - signalBit i) }
      split
      · exact (hclear.trans (Keeps.killProcess hs hg _ t)).trans (Keeps.modify _ t fun p => he p 0)
      · split
        · exact hclear.trans (Keeps.handleSigcko hs hc hn _ t r.1)
        · exact hclear
  have hloop : ∀ (l : List ℕ) (r : Bool × Machine), Keeps f r.2 (l.foldl (handleSignal t) r).2 := by
    intro l
    induction l with
    | nil => exact fun r => Keeps.refl _
    | cons i l ih => exact fun r => (hone r i).trans (ih _)
  unfold Proc.handleSignals
  split
  · exact Keeps.refl k
  · split
    · exact Keeps.refl k
    · exact hloop _ (true, k)

theorem SameClocks.signals (k : Machine) (t : ℕ) : SameClocks k (handleSignals t k).2 :=
  ⟨keeps_handleSignals (fun _ _ => rfl) (fun _ _ => rfl) (fun _ _ => rfl) (fun _ _ => rfl)
    (fun _ _ => rfl) k t, (Frame.handleSignals k t).currentThread, (Frame.handleSignals k t).idleThread⟩

theorem SameClocks.timers (k : Machine) : SameClocks k (timersRun k) :=
  ⟨keeps_timersRun (fun _ _ => rfl) k, (Frame.timersRun k).currentThread, (Frame.timersRun k).idleThread⟩

theorem SameClocks.pick (h : pickNextThread k = .ok next k') : SameClocks k k' := by
  have hf := Frame.pickNextThread h
  obtain ⟨-, slice, rfl⟩ := pickNextThread_ok h
  exact ⟨Keeps.modify k next fun _ => rfl, hf.currentThread, hf.idleThread⟩

theorem runtime_modify (k : Machine) (t u : ℕ) (g : Thread → Thread) :
    ((k.modify t g).threads u).runtime =
      if u = t then (g (k.threads t)).runtime else (k.threads u).runtime := by
  rw [modify_apply]
  split <;> rfl

theorem lastActivation_modify (k : Machine) (t u : ℕ) (g : Thread → Thread) :
    ((k.modify t g).threads u).lastActivation =
      if u = t then (g (k.threads t)).lastActivation else (k.threads u).lastActivation := by
  rw [modify_apply]
  split <;> rfl

theorem ran_mark {mark : Thread → Thread} (hr : ∀ p, (mark p).runtime = p.runtime)
    (hl : ∀ p, (mark p).lastActivation = now)
    (hidle : k.currentThread = 0 ∨ k.currentThread = k.idleThread) :
    Ran k (k.modify next mark) now next charge where
  idleThread := rfl
  lastActivation t := by
    rw [lastActivation_modify, hl]
  charged hzero hne := absurd hidle (not_or.mpr ⟨hzero, hne⟩)
  other t _ _ := Keeps.modify k next hr t

theorem ran_charge {bill : Thread → Thread} {k₁ : Machine} {now next : ℕ} (hrun : k.currentThread ≠ k.idleThread)
    (hl : ∀ p, (bill p).lastActivation = p.lastActivation)
    (hb : ∀ p, (bill p).runtime = u64 (p.runtime + (now + (2 ^ 64 - p.lastActivation))))
    (hidle : k₁.idleThread = k.idleThread) (hsame : Keeps Thread.runtime k k₁)
    (hmark : ∀ t, (k₁.threads t).lastActivation = if t = next then now else (k.threads t).lastActivation)
    {last : ℕ} (hlast : (k₁.threads k.currentThread).lastActivation = last) :
    Ran k (k₁.modify k.currentThread bill) now next (now + (2 ^ 64 - last)) where
  idleThread := hidle
  lastActivation t := by
    rw [lastActivation_modify, hl]
    split
    · next h => rw [h, hmark]
    · exact hmark t
  charged _ _ := by
    rw [runtime_modify, if_pos rfl, hb, hsame, hlast]
  other t _ ht := by
    rw [runtime_modify, if_neg (ht.elim id fun h => h ▸ Ne.symm hrun), hsame]

theorem chargeReschedule_ran (now next : ℕ) (k : Machine) : Ran k (chargeReschedule now next k) now next
    (now + (2 ^ 64 - if k.currentThread = next then now
      else (k.threads k.currentThread).lastActivation)) := by
  have hsame : Keeps Thread.runtime k (k.modify next fun p => { p with lastActivation := now }) :=
    Keeps.modify k next fun _ => rfl
  unfold chargeReschedule
  dsimp only
  split
  · next hrun =>
    change Ran k ((k.modify next _).modify k.currentThread _) now next _
    refine ran_charge (k := k) hrun ?_ ?_ ?_ ?_ ?_ ?_
    · exact fun _ => rfl
    · exact fun _ => rfl
    · rfl
    · exact hsame
    · exact fun t => lastActivation_modify ..
    · exact lastActivation_modify ..
  · next hidle =>
    exact ran_mark (fun _ => rfl) (fun _ => rfl) (.inr (not_not.mp hidle))

theorem chargeSwitch_ran (hne : k.currentThread ≠ next) (now : ℕ) : Ran k (chargeSwitch now next k) now
    next (now + (2 ^ 64 - (k.threads k.currentThread).lastActivation)) := by
  have hsame : Keeps Thread.runtime k (k.modify next fun p => { p with
      timeslice := p.timeslice - 1, lastActivation := now }) := Keeps.modify k next fun _ => rfl
  unfold chargeSwitch
  dsimp only
  split
  · next hrun =>
    change Ran k ((k.modify next _).modify k.currentThread _) now next _
    refine ran_charge (k := k) hrun.2 ?_ ?_ ?_ ?_ ?_ ?_
    · exact fun _ => rfl
    · exact fun _ => rfl
    · rfl
    · exact hsame
    · exact fun t => lastActivation_modify ..
    · exact (lastActivation_modify ..).trans (if_neg hne)
  · next hidle =>
    exact ran_mark (fun _ => rfl) (fun _ => rfl) (by tauto)

theorem noResched_ran (now : ℕ) (k : Machine) : Ran k (noResched now k) now k.currentThread
    (now + (2 ^ 64 - (k.threads k.currentThread).lastActivation)) := by
  unfold noResched
  dsimp only
  refine Ran.after ?_ (SameClocks.signals _ _)
  split
  · next hrun =>
    change Ran k ((k.modify k.currentThread _).modify k.currentThread _) _ _ _
    refine ⟨rfl, fun t => ?_, fun _ _ => ?_, fun t _ ht => ?_⟩
    · rw [lastActivation_modify]
      by_cases h : t = k.currentThread
      · rw [if_pos h, if_pos h]
      · rw [if_neg h, if_neg h, lastActivation_modify, if_neg h]
    · rw [runtime_modify, if_pos rfl, runtime_modify, if_pos rfl]
    · have hne : t ≠ k.currentThread := ht.elim id fun h => h ▸ Ne.symm hrun
      rw [runtime_modify, if_neg hne, runtime_modify, if_neg hne]
  · next hidle =>
    exact ran_mark (fun _ => rfl) (fun _ => rfl) (.inr (not_not.mp hidle))

end Clocks

/-- A machine with the readings of the clock at which the current thread was switched in and at which a
function of the scheduler ran last, and the intervals of each thread that are over. -/
structure TimedRun where
  k : Machine
  since : ℕ
  latest : ℕ
  closed : ℕ → ℕ

namespace TimedRun

def total (s : TimedRun) (t : ℕ) : ℕ :=
  s.closed t + if t = s.k.currentThread then s.latest - s.since else 0

def advance (now : ℕ) (s : TimedRun) (k' : Machine) : TimedRun :=
  if k'.currentThread = s.k.currentThread then { s with k := k', latest := now }
  else
    let interval := now - s.since
    { k := k', since := now, latest := now
      closed := fun t => s.closed t + if t = s.k.currentThread then interval else 0 }

end TimedRun

/-- One turn of `reschedule`, a timer interrupt, or whatever else leaves the machine `k'`. -/
inductive TimeEvent where
  | reschedule (now : ℕ)
  | tick (now : ℕ)
  | other (k' : Machine)

def timeStep : TimeEvent → TimedRun → Option TimedRun
  | .reschedule now, s => (after (reschedule now s.k)).map (s.advance now)
  | .tick now, s => (after (schedulerHandler now s.k)).map (s.advance now)
  | .other k', s => some { s with k := k' }

/-- The time stamp counter does not go back, and only the scheduler touches the accounting. -/
def ClockOk (s : TimedRun) : TimeEvent → Prop
  | .reschedule now | .tick now => s.latest ≤ now ∧ now < 2 ^ 64
  | .other k' => SameClocks s.k k'

/-- `reschedule` switches to another thread, or charges nobody for no time. -/
def ChargedOnce (now : ℕ) (k : Machine) : Prop :=
  k.currentThread = 0 ∨ k.currentThread = k.idleThread ∨
    (k.threads k.currentThread).lastActivation = now ∨
      ∀ next k', pickNextThread k = .ok next k' →
        next ≠ k.currentThread ∧ (handleSignals next (chargeReschedule now next k')).1 = true

/-- Runs in which every `reschedule` is `ChargedOnce`. -/
def ExactSteps (s : TimedRun) (ev : TimeEvent) : Prop :=
  ClockOk s ev ∧ ∀ now, ev = .reschedule now → ChargedOnce now s.k

structure TimedStart (s : TimedRun) : Prop where
  since : s.since = s.latest
  word : s.latest < 2 ^ 64
  closed : ∀ t, s.closed t = 0
  activated : s.k.currentThread ≠ 0 → s.k.currentThread ≠ s.k.idleThread →
    (s.k.threads s.k.currentThread).lastActivation = s.latest

structure TimedInv (k₀ : Machine) (s : TimedRun) : Prop where
  idleThread : s.k.idleThread = k₀.idleThread
  since : s.since ≤ s.latest
  word : s.latest < 2 ^ 64
  activated : s.k.currentThread ≠ 0 → s.k.currentThread ≠ s.k.idleThread →
    (s.k.threads s.k.currentThread).lastActivation = s.latest
  exact : ∀ t, t ≠ 0 → t ≠ k₀.idleThread →
    u64 (s.k.threads t).runtime = u64 ((k₀.threads t).runtime + s.total t)

section Runs
variable {k₀ k' : Machine} {s s' : TimedRun} {now next charge : ℕ}

theorem TimedStart.inv (h : TimedStart s) : TimedInv s.k s where
  idleThread := rfl
  since := h.since.le
  word := h.word
  activated := h.activated
  exact t _ _ := by
    rw [TimedRun.total, h.closed, h.since, Nat.sub_self, ite_self, Nat.add_zero]

theorem TimedRun.advance_total (hnow : s.latest ≤ now) (hsince : s.since ≤ s.latest) (t : ℕ) :
    (s.advance now k').total t =
      s.total t + if t = s.k.currentThread then now - s.latest else 0 := by
  unfold TimedRun.advance TimedRun.total
  split
  · next hcur =>
    dsimp only
    rw [hcur]
    split <;> omega
  · next hcur =>
    dsimp only
    by_cases ht : t = s.k.currentThread
    · have hne : t ≠ k'.currentThread := fun e => hcur (e.symm.trans ht)
      rw [if_pos ht, if_neg hne, if_pos ht, if_pos ht]
      omega
    · rw [if_neg ht, if_neg ht, if_neg ht]
      split <;> omega

theorem TimedInv.advance (h : TimedInv k₀ s) (hnow : s.latest ≤ now) (hword : now < 2 ^ 64)
    (hran : Ran s.k k' now next charge)
    (hcharge : s.k.currentThread = 0 ∨ s.k.currentThread = s.k.idleThread ∨
      ∀ x, u64 (x + charge) = u64 (x + (now - s.latest)))
    (hact : k'.currentThread ≠ 0 → k'.currentThread ≠ k'.idleThread →
      (k'.threads k'.currentThread).lastActivation = now) : TimedInv k₀ (s.advance now k') := by
  have hk : (s.advance now k').k = k' := by
    unfold TimedRun.advance
    split <;> rfl
  have hlatest : (s.advance now k').latest = now := by
    unfold TimedRun.advance
    split <;> rfl
  refine ⟨?_, ?_, ?_, ?_, fun t hzero hidle => ?_⟩
  · rw [hk]
    exact hran.idleThread.trans h.idleThread
  · have := h.since
    unfold TimedRun.advance
    split
    · exact this.trans hnow
    · exact le_rfl
  · rw [hlatest]
    exact hword
  · rw [hk, hlatest]
    exact hact
  · have hexact := h.exact t hzero hidle
    rw [hk, TimedRun.advance_total hnow h.since]
    by_cases ht : t = s.k.currentThread
    · subst ht
      have hne : s.k.currentThread ≠ s.k.idleThread := h.idleThread ▸ hidle
      rw [if_pos rfl, hran.charged hzero hne]
      have hcharge := (hcharge.resolve_left hzero).resolve_left hne (s.k.threads s.k.currentThread).runtime
      unfold u64 at hexact hcharge ⊢
      omega
    · rw [if_neg ht, Nat.add_zero, hran.other t hzero (.inl ht)]
      exact hexact

theorem charge_exact (x : ℕ) {last : ℕ} (hnow : last ≤ now) (hword : now < 2 ^ 64) :
    u64 (x + (now + (2 ^ 64 - last))) = u64 (x + (now - last)) := by
  unfold u64
  omega

theorem TimedInv.charged (h : TimedInv k₀ s) (hnow : s.latest ≤ now) (hword : now < 2 ^ 64) :
    s.k.currentThread = 0 ∨ s.k.currentThread = s.k.idleThread ∨
      ∀ x, u64 (x + (now + (2 ^ 64 - (s.k.threads s.k.currentThread).lastActivation))) =
        u64 (x + (now - s.latest)) := by
  by_cases hzero : s.k.currentThread = 0
  · exact .inl hzero
  by_cases hidle : s.k.currentThread = s.k.idleThread
  · exact .inr (.inl hidle)
  rw [h.activated hzero hidle]
  exact .inr (.inr fun x => charge_exact x hnow hword)

theorem TimedInv.reschedule {switched : Bool} (h : TimedInv k₀ s) (hnow : s.latest ≤ now)
    (hword : now < 2 ^ 64) (honce : ChargedOnce now s.k)
    (hok : Kernel.reschedule now s.k = .ok switched k') : TimedInv k₀ (s.advance now k') := by
  obtain ⟨next, k₁, hpick, hret, hk'⟩ := reschedule_ok hok
  have hsame := SameClocks.pick hpick
  have hran := ((chargeReschedule_ran now next k₁).before hsame).after (SameClocks.signals _ next)
  rw [hsame.currentThread, hsame.lastActivation] at hran
  have hcur : (handleSignals next (chargeReschedule now next k₁)).2.currentThread =
      s.k.currentThread := (SameClocks.signals _ next).currentThread.trans
    ((Frame.chargeReschedule now next k₁).currentThread.trans hsame.currentThread)
  have hran' : Ran s.k k' now next (now + (2 ^ 64 - if s.k.currentThread = next then now
      else (s.k.threads s.k.currentThread).lastActivation)) := by
    rw [hk']
    split
    · exact hran.switch next
    · exact hran
  refine h.advance hnow hword hran' ?_ fun hzero hidle => ?_
  · rcases honce with hzero | hidle | hlast | hother
    · exact .inl hzero
    · exact .inr (.inl hidle)
    · by_cases hzero : s.k.currentThread = 0
      · exact .inl hzero
      by_cases hidle : s.k.currentThread = s.k.idleThread
      · exact .inr (.inl hidle)
      -- no time has passed since the last reading
      have hlatest : now = s.latest := hlast.symm.trans (h.activated hzero hidle)
      refine .inr (.inr fun x => ?_)
      rw [hlast, ite_self, ← hlatest]
      exact charge_exact x le_rfl hword
    · rw [if_neg (Ne.symm (hother next k₁ hpick).1)]
      exact h.charged hnow hword
  · rw [hran'.lastActivation]
    cases switched with
    | true =>
      rw [if_pos]
      rw [hk']
      rfl
    | false =>
      have hcur' : k'.currentThread = s.k.currentThread := by
        rw [hk']
        exact hcur
      rw [hcur'] at hzero hidle ⊢
      rcases honce with hz | hi | hlast | hother
      · exact absurd hz hzero
      · exact absurd (hi.trans hran'.idleThread.symm) hidle
      · rw [hlast, ite_self]
      · exact absurd (hret.trans (hother next k₁ hpick).2) Bool.false_ne_true

theorem TimedInv.noResched (h : TimedInv k₀ s) (hnow : s.latest ≤ now) (hword : now < 2 ^ 64)
    {k₁ : Machine} (hsame : SameClocks s.k k₁) : TimedInv k₀ (s.advance now (noResched now k₁)) := by
  have hran := (noResched_ran now k₁).before hsame
  rw [hsame.currentThread, hsame.lastActivation] at hran
  refine h.advance hnow hword hran (h.charged hnow hword) fun _ _ => ?_
  · have hcur := (Frame.noResched now k₁).currentThread.trans hsame.currentThread
    rw [hran.lastActivation, if_pos hcur]

theorem schedulerHandler_switch {k : Machine} (h : schedulerHandler now k = .ok (some next) k') :
    k.currentThread ≠ next := by
  intro heq
  dsimp only [schedulerHandler] at h
  split at h
  · cases h
  · obtain ⟨nextThread, k₁, hpick, hrest⟩ := Outcome.bind_eq_ok.mp h
    have hcur := (SameClocks.pick hpick).currentThread.trans (SameClocks.timers k).currentThread
    split at hrest
    · cases hrest
    · next hne =>
      cases hrest
      exact hne (hcur.trans heq)

theorem TimedInv.tick {next : Option ℕ} (h : TimedInv k₀ s) (hnow : s.latest ≤ now)
    (hword : now < 2 ^ 64) (hok : schedulerHandler now s.k = .ok next k') :
    TimedInv k₀ (s.advance now k') := by
  have hsame := SameClocks.timers s.k
  rcases schedulerHandler_ok hok with ⟨-, rfl | ⟨k₁, hpick, rfl⟩⟩ |
    ⟨nextThread, k₁, rfl, hpick, rfl⟩
  · exact h.noResched hnow hword hsame
  · exact h.noResched hnow hword (hsame.trans (.pick hpick))
  · have hsame₁ := hsame.trans (.pick hpick)
    have hne := schedulerHandler_switch hok
    have hran := (chargeSwitch_ran (hsame₁.currentThread.symm ▸ hne) now).before hsame₁
    rw [hsame₁.currentThread, hsame₁.lastActivation] at hran
    refine h.advance hnow hword (hran.switch nextThread) (h.charged hnow hword) fun _ _ => ?_
    · exact ((hran.switch nextThread).lastActivation nextThread).trans (if_pos rfl)

theorem TimedInv.other (h : TimedInv k₀ s) (hsame : SameClocks s.k k') :
    TimedInv k₀ { s with k := k' } where
  idleThread := hsame.idleThread.trans h.idleThread
  since := h.since
  word := h.word
  activated hzero hidle := by
    rw [hsame.currentThread] at hzero hidle ⊢
    rw [hsame.idleThread] at hidle
    rw [hsame.lastActivation]
    exact h.activated hzero hidle
  exact t hzero hidle := by
    have htotal : ({ s with k := k' } : TimedRun).total t = s.total t := by
      unfold TimedRun.total
      rw [hsame.currentThread]
    rw [htotal, hsame.runtime]
    exact h.exact t hzero hidle

theorem TimedInv.step {ev : TimeEvent} (h : TimedInv k₀ s) (hev : ExactSteps s ev)
    (hs : timeStep ev s = some s') : TimedInv k₀ s' := by
  obtain ⟨hclock, honce⟩ := hev
  cases ev with
  | reschedule now =>
    obtain ⟨k', hk', rfl⟩ := Option.map_eq_some_iff.mp hs
    obtain ⟨switched, hres⟩ := after_eq_some.mp hk'
    exact h.reschedule hclock.1 hclock.2 (honce now rfl) hres
  | tick now =>
    obtain ⟨k', hk', rfl⟩ := Option.map_eq_some_iff.mp hs
    obtain ⟨next, hres⟩ := after_eq_some.mp hk'
    exact h.tick hclock.1 hclock.2 hres
  | other k' =>
    cases hs
    exact h.other hclock

/-- In a run in which `reschedule` charges exactly, every thread is charged the time that it ran. -/
theorem cpu_time_exact (hstart : TimedStart s) (hrun : Runs.Steps timeStep ExactSteps s s') {t : ℕ}
    (hzero : t ≠ 0) (hidle : t ≠ s.k.idleThread) :
    u64 (s'.k.threads t).runtime = u64 ((s.k.threads t).runtime + s'.total t) :=
  (hrun.invariant (fun _ _ _ hi hev hs => TimedInv.step hi hev hs) hstart.inv).exact t hzero hidle

end Runs

def clockStart : TimedRun := ⟨fatherRuns, 100, 100, fun _ => 0⟩

theorem clockStart_ok : TimedStart clockStart :=
  ⟨rfl, by decide, fun _ => rfl, by decide +kernel⟩

def clockTicked : TimedRun := (timeStep (.tick 150) clockStart).getD clockStart

def clockSwitched : TimedRun := (timeStep (.reschedule 200) clockTicked).getD clockTicked

/-- A tick, and a `reschedule` that switches to the child. -/
theorem cpu_time_exact_switch : clockSwitched.k.currentThread = 0x4000 ∧ clockSwitched.total 0x3000 = 100 ∧
    u64 (clockSwitched.k.threads 0x3000).runtime =
      u64 ((clockStart.k.threads 0x3000).runtime + clockSwitched.total 0x3000) := by
  have hticked : timeStep (.tick 150) clockStart = some clockTicked :=
    (Option.getD_of_ne_none (by decide +kernel) _).symm
  have hswitched : timeStep (.reschedule 200) clockTicked = some clockSwitched :=
    (Option.getD_of_ne_none (by decide +kernel) _).symm
  have hpick : ((pickNextThread clockTicked.k).toOption.map fun r =>
      (r.1, (handleSignals r.1 (chargeReschedule 200 r.1 r.2)).1)) = some (0x4000, true) := by decide +kernel
  have hrunning : clockTicked.k.currentThread = 0x3000 := by decide +kernel
  have hcharged : ChargedOnce 200 clockTicked.k := by
    refine .inr (.inr (.inr fun next k' hnext => ?_))
    rw [hnext] at hpick
    obtain ⟨rfl, hsignals⟩ := Prod.mk.inj (Option.some.inj hpick)
    rw [hrunning]
    exact ⟨by decide, hsignals⟩
  have hrun : Runs.Steps timeStep ExactSteps clockStart clockSwitched :=
    .tail (.single ⟨.tick 150, ⟨⟨by decide, by decide⟩, fun now e => nomatch e⟩, hticked⟩)
      ⟨.reschedule 200, ⟨⟨by decide +kernel, by decide⟩, fun now e => by cases e; exact hcharged⟩, hswitched⟩
  exact ⟨by decide +kernel, by decide +kernel, cpu_time_exact clockStart_ok hrun (by decide) (by decide +kernel)⟩

def clockRescheduled : TimedRun := (timeStep (.reschedule 150) clockStart).getD clockStart

/-- `reschedule` picks the thread that runs, which is not charged for the time up to then. -/
theorem cpu_time_lost : ThreadReach anyOp clockStart.k ∧ TimedStart clockStart ∧
    Runs.Steps timeStep ClockOk clockStart clockRescheduled ∧ clockRescheduled.total 0x3000 = 50 ∧
      (clockStart.k.threads 0x3000).runtime = 0 ∧ (clockRescheduled.k.threads 0x3000).runtime = 0 ∧
        clockStart.k.idleThread ≠ 0x3000 := by
  have hstep : timeStep (.reschedule 150) clockStart = some clockRescheduled :=
    (Option.getD_of_ne_none (by decide +kernel) _).symm
  have hclock : ClockOk clockStart (.reschedule 150) := ⟨by decide, by decide⟩
  exact ⟨fatherRuns_reach, clockStart_ok, .single ⟨.reschedule 150, hclock, hstep⟩,
    by decide +kernel, by decide +kernel, by decide +kernel, by decide +kernel⟩

end X86Osdev.Kernel

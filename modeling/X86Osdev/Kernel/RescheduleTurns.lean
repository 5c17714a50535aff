import X86Osdev.Kernel.RunQueue
import X86Osdev.Kernel.SignalFrame
import X86Osdev.Proc.FatherSignals
import Mathlib.Algebra.BigOperators.Group.Finset.Basic
import Mathlib.Algebra.BigOperators.Group.Finset.Piecewise
import Mathlib.Algebra.Order.BigOperators.Group.Finset
import Mathlib.Algebra.Order.Ring.Nat

/-! `reschedule` calls itself as long as a signal keeps the thread that it has picked from running. Every
such turn handles a signal, and only a `SIGKILL` raises another one. -/

namespace X86Osdev.Kernel
open CircularList X86Osdev.Mem X86Osdev.Proc

/-- `reschedule` with its calls of itself; turn `i` reads `now i` from the time stamp counter. -/
def rescheduleTurns (now : ℕ → ℕ) (fuel : ℕ) (k : Machine) : Option (Outcome Machine Unit) :=
  Outcome.retry (fun i => reschedule (now i)) fuel 0 k

/-- A `SIGKILL` stands for itself and for the `SIGCKO` that it raises. -/
def signalWeight (s : Signals) : ℕ :=
  (if s.pending &&& s.active &&& sigkill ≠ 0 then 2 else 0) +
    if s.pending &&& s.active &&& sigcko ≠ 0 then 1 else 0

def signalWork (k : Machine) : ℕ := ∑ t ∈ k.allocated.toFinset, signalWeight (k.threads t).signals

section Weight
variable (s : Signals)

theorem signalWeight_eq : signalWeight s =
    (if (s.pending.testBit 9 && s.active.testBit 9) = true then 2 else 0) +
      if (s.pending.testBit 10 && s.active.testBit 10) = true then 1 else 0 := by
  unfold signalWeight sigkill sigcko
  simp only [and_one_shiftLeft_ne_zero, Nat.testBit_and]

theorem signalWeight_kill (h : s.pending &&& s.active &&& sigkill ≠ 0) :
    signalWeight { s with pending := s.pending &&& (2 ^ 32 - 1 - sigkill) } + 2 = signalWeight s := by
  have hnine : (2 ^ 32 - 1 - sigkill).testBit 9 = false := by decide
  have hten : (2 ^ 32 - 1 - sigkill).testBit 10 = true := by decide
  unfold sigkill at h
  rw [and_one_shiftLeft_ne_zero, Nat.testBit_and] at h
  rw [signalWeight_eq, signalWeight_eq, h]
  simp only [Nat.testBit_and, hnine, hten, Bool.and_false, Bool.false_and, Bool.and_true]
  simp only [Bool.false_eq_true, if_false, if_true]
  omega

theorem signalWeight_cko (h : s.pending &&& s.active &&& sigcko ≠ 0) :
    signalWeight { s with pending := s.pending &&& (2 ^ 32 - 1 - sigcko) } + 1 = signalWeight s := by
  have hnine : (2 ^ 32 - 1 - sigcko).testBit 9 = true := by decide
  have hten : (2 ^ 32 - 1 - sigcko).testBit 10 = false := by decide
  unfold sigcko at h
  rw [and_one_shiftLeft_ne_zero, Nat.testBit_and] at h
  rw [signalWeight_eq, signalWeight_eq, h]
  simp only [Nat.testBit_and, hnine, hten, Bool.and_false, Bool.false_and, Bool.and_true]
  simp only [Bool.false_eq_true, if_false, if_true]

/-- `child_awoken` raises a `SIGCKO` and nothing else. -/
theorem signalWeight_deliver :
    signalWeight { s with pending := s.pending ||| s.active &&& sigcko } ≤ signalWeight s + 1 := by
  have hnine : sigcko.testBit 9 = false := by decide
  have hone : ∀ b : Bool, (if b = true then 1 else 0) ≤ 1 := by decide
  rw [signalWeight_eq, signalWeight_eq]
  simp only [Nat.testBit_or, Nat.testBit_and, hnine, Bool.and_false, Bool.or_false]
  refine (Nat.add_le_add_left (hone _) _).trans ?_
  omega

end Weight

section Work
variable {k k' : Machine} {t d : ℕ}

theorem signalWork_keeps (ha : k'.allocated = k.allocated) (h : Keeps Thread.signals k k') :
    signalWork k' = signalWork k := by
  unfold signalWork
  rw [ha]
  exact Finset.sum_congr rfl fun u _ => congrArg signalWeight (h u)

theorem signalWork_le (ha : k'.allocated = k.allocated) (h : ∀ u,
    signalWeight (k'.threads u).signals ≤ signalWeight (k.threads u).signals + if u = t then d else 0) :
    signalWork k' ≤ signalWork k + d := by
  unfold signalWork
  rw [ha]
  refine (Finset.sum_le_sum fun u _ => h u).trans ?_
  rw [Finset.sum_add_distrib, Finset.sum_ite_eq']
  split
  · exact le_rfl
  · exact Nat.le_add_right _ _

theorem signalWork_drop (ht : t ∈ k.allocated) (h : ∀ u,
    signalWeight (k'.threads u).signals + (if u = t then d else 0) = signalWeight (k.threads u).signals)
    (ha : k'.allocated = k.allocated) : signalWork k' + d = signalWork k := by
  unfold signalWork
  rw [ha, ← Finset.sum_congr rfl fun u _ => h u]
  rw [Finset.sum_add_distrib, Finset.sum_ite_eq', if_pos (List.mem_toFinset.mpr ht)]

theorem signals_modify (k : Machine) (t u : ℕ) (g : Thread → Thread) :
    ((k.modify t g).threads u).signals = if u = t then (g (k.threads t)).signals else
      (k.threads u).signals := by
  rw [modify_apply]
  split <;> rfl

/-- Clearing a pending signal of `t`. -/
theorem signalWork_clear {signal : ℕ} (ht : t ∈ k.allocated)
    (h : signalWeight { (k.threads t).signals with
      pending := (k.threads t).signals.pending &&& (2 ^ 32 - 1 - signal) } + d =
        signalWeight (k.threads t).signals) :
    signalWork (k.modify t fun p => { p with signals :=
      { p.signals with pending := p.signals.pending &&& (2 ^ 32 - 1 - signal) } }) + d = signalWork k := by
  refine signalWork_drop (t := t) ht (fun u => ?_) rfl
  rw [signals_modify]
  split
  · next hu =>
    rw [hu]
    exact h
  · rfl

theorem signalWork_clears (h : Clears t k k') : signalWork k' = signalWork k := by
  obtain ⟨n, rfl, hnine, hten⟩ := h
  unfold signalWork
  refine Finset.sum_congr rfl fun u _ => ?_
  rw [signals_modify]
  split
  · next hu => rw [hu, signalWeight_eq, signalWeight_eq, hnine, hten]
  · rfl

theorem signalWork_killProcess (t : ℕ) (k : Machine) :
    signalWork (killProcess t k) ≤ signalWork k + 1 := by
  have halloc := (killProcess_fixed t k).1
  by_cases hp : (k.threads t).pid = idlePid
  · have hsame : killProcess t k = k := if_pos hp
    rw [hsame]
    exact Nat.le_succ _
  · obtain ⟨pid, -, heq⟩ := killProcess_eq hp
    have hstop : Keeps Thread.signals k (dropTimer t (stopThread t k)) := by
      have hstop : stopThread t k = (Move.stop t).play k := if_neg hp
      rw [hstop]
      exact Keeps.setState (fun _ _ => rfl) k t .stopped
    rw [heq] at halloc ⊢
    generalize dropTimer t (stopThread t k) = k₁ at hstop halloc ⊢
    -- only `child_awoken` delivers, to the father if there is one
    cases hget : getThread pid k₁ with
    | none =>
      have hsame : childAwoken pid k₁ = k₁ := by simp only [childAwoken, hget]
      rw [hsame] at halloc ⊢
      rw [signalWork_keeps halloc hstop]
      exact Nat.le_succ _
    | some f =>
      rw [childAwoken_some hget] at halloc ⊢
      refine signalWork_le (t := f) halloc fun u => ?_
      have hwake : Keeps Thread.signals (k₁.deliver f sigcko)
          ((Move.wake f (k₁.threads f).state).play (k₁.deliver f sigcko)) :=
        Keeps.setState (fun _ _ => rfl) (k₁.deliver f sigcko) f _
      rw [hwake, Machine.deliver, signals_modify]
      split
      · next hu =>
        rw [← hstop, hu]
        exact signalWeight_deliver _
      · rw [← hstop]
        exact le_rfl

/-- One turn of the loop of `handle_signals`: what refuses the thread makes the signals lighter. -/
theorem handleSignal_kill_work (ht : t ∈ k.allocated) :
    handleSignal t (true, k) 9 = (true, k) ∨ ((handleSignal t (true, k) 9).1 = false ∧
      signalWork (handleSignal t (true, k) 9).2 < signalWork k) := by
  rw [handleSignal_kill]
  split
  · next hkill =>
    refine .inr ⟨rfl, ?_⟩
    -- the cleared `SIGKILL` weighs two, the `SIGCKO` that the father may get only one
    have hclear := signalWork_clear (d := 2) ht (signalWeight_kill _ hkill)
    generalize k.modify t (fun p => { p with signals :=
      { p.signals with pending := p.signals.pending &&& (2 ^ 32 - 1 - sigkill) } }) = k₁ at hclear ⊢
    have hkilled := signalWork_killProcess t k₁
    have hexit : signalWork ((killProcess t k₁).modify t fun p => { p with exitValue := 0 }) =
        signalWork (killProcess t k₁) := signalWork_keeps rfl (Keeps.modify _ t fun _ => rfl)
    dsimp only
    omega
  · exact .inl rfl

theorem handleSignal_cko_work (r : Bool × Machine) (ht : t ∈ r.2.allocated) :
    handleSignal t r 10 = r ∨ signalWork (handleSignal t r 10).2 < signalWork r.2 := by
  rw [handleSignal_ten]
  split
  · next hcko =>
    right
    have hclear := signalWork_clear (d := 1) ht (signalWeight_cko _ hcko)
    generalize r.2.modify t (fun p => { p with signals :=
      { p.signals with pending := p.signals.pending &&& (2 ^ 32 - 1 - sigcko) } }) = k₁ at hclear ⊢
    have hsame := signalWork_keeps (handleSigcko_allocated t r.1 k₁)
      (Keeps.handleSigcko (f := Thread.signals) (fun _ _ => rfl) (fun _ _ => rfl) (fun _ _ => rfl) k₁ t r.1)
    omega
  · exact .inl rfl

/-- When `handle_signals` refuses the thread, less is left to be handled. -/
theorem handleSignals_work (hzero : t ≠ 0) (ht : t ∈ k.allocated) (h : (handleSignals t k).1 = false) :
    signalWork (handleSignals t k).2 < signalWork k := by
  obtain ⟨k₁, k₂, hfirst, hlast, heq⟩ := handleSignals_eq hzero k
  rw [heq] at h ⊢
  have ht₁ : t ∈ k₁.allocated := hfirst.sets.quiet.allocated.symm ▸ ht
  have halloc : (handleSignal t (true, k₁) 9).2.allocated = k₁.allocated := by
    rw [handleSignal_kill]
    split
    · exact (killProcess_fixed t _).1
    · rfl
  have hkill := handleSignal_kill_work ht₁
  have hcko := handleSignal_cko_work (handleSignal t (true, k₁) 9) (t := t) (halloc.symm ▸ ht₁)
  rw [← signalWork_clears hfirst]
  dsimp only at h ⊢
  rw [signalWork_clears hlast]
  rcases hcko with hten | hless
  · rw [hten] at h ⊢
    rcases hkill with hnine | ⟨-, hless⟩
    · rw [hnine] at h
      cases h
    · exact hless
  · rcases hkill with hnine | ⟨-, hless'⟩
    · rw [hnine] at hless ⊢
      exact hless
    · exact hless.trans hless'

/-- A turn of `reschedule` switches, or leaves less to be handled. -/
theorem reschedule_work {E : Queue → List ℕ} {now : ℕ} {done : Bool} (hq : QueueInv k E)
    (h : reschedule now k = .ok done k') (hdone : done = false) : signalWork k' < signalWork k := by
  obtain ⟨next, k₁, hpick, hret, hk'⟩ := reschedule_ok h
  have hacc := (pickNextThread_accounting hpick).trans (chargeReschedule_accounting now next k₁)
  have hnext := hq.unreaped .running next (pickNextThread_mem hq hpick)
  rw [← signalWork_keeps hacc.quiet.allocated hacc.signals]
  subst hdone
  rw [if_neg Bool.false_ne_true] at hk'
  rw [hk']
  exact handleSignals_work (hq.addresses next hnext).1 (hacc.quiet.allocated.symm ▸ hnext) hret.symm

end Work

/-- Whatever signals are pending, `reschedule` comes to a thread that `handle_signals` lets run. -/
theorem reschedule_ends {k : Machine} {E : Queue → List ℕ} (hq : QueueInv k E)
    (hidle : k.idleThread ∈ E .running) (hpid : (k.threads k.idleThread).pid = idlePid)
    (now : ℕ → ℕ) :
    ∃ k', rescheduleTurns now (signalWork k + 1) k = some (.ok () k') ∧
      ∃ i k₁ next k₂, pickNextThread k₁ = .ok next k₂ ∧
        (handleSignals next (chargeReschedule (now i) next k₂)).1 = true ∧
        k' = switchToThread next (handleSignals next (chargeReschedule (now i) next k₂)).2 := by
  have hunstopped : k.idleThread ∉ E .stopped := fun hs => nomatch hq.queue_unique hidle hs
  have hinv : ∃ E, IdleInv True k E :=
    ⟨E, hq, hq.unreaped .running _ hidle, hpid, hunstopped, fun _ => hidle⟩
  have hturn : ∀ i k, (∃ E, IdleInv True k E) → ∃ done k', reschedule (now i) k = .ok done k' ∧
      (∃ E, IdleInv True k' E) ∧ (done = false → signalWork k' < signalWork k) := by
    rintro i k ⟨E, hi⟩
    obtain ⟨done, k', hok, hi'⟩ := hi.turn (now i)
    exact ⟨done, k', hok, hi', reschedule_work hi.queues hok⟩
  obtain ⟨k', hends, -, i, k₁, -, hlast⟩ := Outcome.retry_ends hturn 0 hinv (Nat.lt_succ_self _)
  obtain ⟨next, k₂, hpick, hret, hk'⟩ := reschedule_ok hlast
  exact ⟨k', hends, i, k₁, next, k₂, hpick, hret.symm, hk'⟩

/-- `init_thread`, which is its own father, is to be killed; `idle_thread` has got both signals. -/
def bothSignalled : Machine :=
  sysKill idlePid (sigkill ||| sigcko) (sysKill 1 sigkill (wakeUpThread 0x2000 started))

theorem bothSignalled_awake : IdleAwake bothSignalled := by
  refine ⟨started, started_reach _, .tail (.single ⟨.sysKill 1 sigkill, trivial, trivial, rfl⟩) ?_⟩
  exact ⟨.sysKill idlePid (sigkill ||| sigcko), trivial, trivial, rfl⟩

theorem reschedule_ends_bothSignalled :
    ∃ k', rescheduleTurns id (signalWork bothSignalled + 1) bothSignalled = some (.ok () k') ∧
      ∃ i k₁ next k₂, pickNextThread k₁ = .ok next k₂ ∧
        (handleSignals next (chargeReschedule (id i) next k₂)).1 = true ∧
        k' = switchToThread next (handleSignals next (chargeReschedule (id i) next k₂)).2 := by
  obtain ⟨E, hi⟩ := bothSignalled_awake.inv
  exact reschedule_ends hi.queues (hi.running trivial) hi.pid id

end X86Osdev.Kernel

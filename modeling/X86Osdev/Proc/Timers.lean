import X86Osdev.Proc.Thread

/-! Which timers `wake_up_timers` fires, and when the timer of `sleep_ms` falls due. -/

namespace X86Osdev.Proc
open CircularList X86Osdev.Mem

def Timer.due (tickCount : ℕ) (activeT : Timer) : Bool := decide (activeT.expiration ≤ tickCount)

section Pass
variable {k : Machine} {activeT : Timer}

theorem wakeTimer_due (h : activeT.due k.tickCount = true) : wakeTimer k activeT =
    (({ k with kernelTimers := k.kernelTimers.erase activeT }).setState activeT.thread
      .runnable).toTail .running activeT.thread := by
  unfold wakeTimer
  exact if_pos (of_decide_eq_true h)

theorem wakeTimer_not_due (h : activeT.due k.tickCount = false) : wakeTimer k activeT = k := by
  unfold wakeTimer
  exact if_neg (of_decide_eq_false h)

theorem foldl_wakeTimer_timers (l passed : List Timer) (k : Machine)
    (hk : k.kernelTimers = passed ++ l) (hpassed : ∀ a ∈ passed, a.due k.tickCount = false) :
    (l.foldl wakeTimer k).kernelTimers = passed ++ l.filter fun a => !a.due k.tickCount := by
  induction l generalizing k passed with
  | nil => exact hk
  | cons activeT l ih =>
    rw [List.foldl_cons]
    cases hdue : activeT.due k.tickCount with
    | true =>
      have hnot : activeT ∉ passed := by
        intro hmem
        rw [hpassed activeT hmem] at hdue
        cases hdue
      have herase : (wakeTimer k activeT).kernelTimers = passed ++ l := by
        rw [wakeTimer_due hdue]
        show k.kernelTimers.erase activeT = passed ++ l
        rw [hk, List.erase_append_right _ hnot, List.erase_cons_head]
      have htick : (wakeTimer k activeT).tickCount = k.tickCount := by
        rw [wakeTimer_due hdue]
        rfl
      rw [ih passed _ herase (by rwa [htick]), htick, List.filter_cons_of_neg (by simp [hdue])]
    | false =>
      rw [wakeTimer_not_due hdue, ih (passed ++ [activeT]) k (by rw [hk, List.append_assoc]; rfl) ?_,
        List.filter_cons_of_pos (by simp [hdue]), List.append_assoc]
      · rfl
      · intro a ha
        rcases List.mem_append.mp ha with ha | ha
        · exact hpassed a ha
        · rw [List.mem_singleton.mp ha, hdue]

/-- Exactly the timers that are due leave `kernel_timers`. -/
theorem wakeUpTimers_timers (k : Machine) :
    (wakeUpTimers k).kernelTimers = k.kernelTimers.filter fun a => !a.due k.tickCount :=
  foldl_wakeTimer_timers k.kernelTimers [] k rfl fun _ ha => absurd ha List.not_mem_nil

theorem foldl_wakeTimer_state (l : List Timer) (k : Machine) (u : ℕ) :
    ((l.foldl wakeTimer k).threads u).state =
      if l.any (fun a => a.due k.tickCount && a.thread == u) then .runnable
      else (k.threads u).state := by
  induction l generalizing k with
  | nil => rfl
  | cons activeT l ih =>
    rw [List.foldl_cons, List.any_cons]
    cases hdue : activeT.due k.tickCount with
    | false =>
      rw [wakeTimer_not_due hdue, ih]
      rfl
    | true =>
      have hstate : ((wakeTimer k activeT).threads u).state =
          if activeT.thread = u then .runnable else (k.threads u).state := by
        rw [wakeTimer_due hdue]
        show (Function.update k.threads activeT.thread _ u).state = _
        rw [Function.update_apply]
        split
        · next hu => rw [if_pos hu.symm]
        · next hu => rw [if_neg (Ne.symm hu)]
      have htick : (wakeTimer k activeT).tickCount = k.tickCount := by
        rw [wakeTimer_due hdue]
        rfl
      rw [ih, htick, hstate, Bool.true_and]
      by_cases hu : activeT.thread = u
      · rw [if_pos hu, beq_iff_eq.mpr hu, Bool.true_or, if_pos rfl, ite_self]
      · rw [if_neg hu, beq_eq_false_iff_ne.mpr hu, Bool.false_or]

theorem wakeUpTimers_state (k : Machine) (u : ℕ) : ((wakeUpTimers k).threads u).state =
    if k.kernelTimers.any (fun a => a.due k.tickCount && a.thread == u) then .runnable
    else (k.threads u).state := foldl_wakeTimer_state k.kernelTimers k u

end Pass

def deadline (ms tickCount : ℕ) : ℕ := tickCount + ms * rtcFreq / 1000

def sleepTimer (ms : ℕ) (k : Machine) : Timer :=
  ⟨u32 (millisToTicks ms + k.tickCount), k.currentThread⟩

theorem sleepMs_timers (ms : ℕ) (k : Machine) :
    (sleepMs ms k).kernelTimers = sleepTimer ms k :: k.kernelTimers := by
  have hsleep : ∀ (p : ℕ) (k : Machine), (sleepThread p k).kernelTimers = k.kernelTimers := by
    intro p k
    unfold sleepThread
    split
    · rfl
    · rfl
  exact hsleep _ _

/-- No later call of `wake_up_timers` fires the timer of `sleep_ms` before its deadline, and the first one
after it does. -/
def SleepsExactly (ms : ℕ) (k : Machine) : Prop :=
  ∀ t, (sleepMs ms k).kernelTimers = t :: k.kernelTimers →
    ∀ k', t ∈ k'.kernelTimers → k.tickCount ≤ k'.tickCount → k'.tickCount < 2 ^ 64 →
      (k'.tickCount < deadline ms k.tickCount → t ∈ (wakeUpTimers k').kernelTimers) ∧
      (deadline ms k.tickCount ≤ k'.tickCount →
        t ∉ (wakeUpTimers k').kernelTimers ∧ ((wakeUpTimers k').threads t.thread).state = .runnable)

section Sleep
variable {ms : ℕ} {k k' : Machine} {t : Timer}

theorem mem_wakeUpTimers (ht : t ∈ k.kernelTimers) :
    t ∈ (wakeUpTimers k).kernelTimers ↔ k.tickCount < t.expiration := by
  rw [wakeUpTimers_timers, List.mem_filter, Timer.due]
  simp [ht]

theorem wakes_of_due (ht : t ∈ k.kernelTimers) (hdue : t.expiration ≤ k.tickCount) :
    ((wakeUpTimers k).threads t.thread).state = .runnable := by
  rw [wakeUpTimers_state, if_pos]
  rw [List.any_eq_true]
  exact ⟨t, ht, by simp [Timer.due, hdue]⟩

theorem rtcFreq_eq : rtcFreq = 2048 := rfl

/-- Only the three truncations on the way to `expiration` can move it. -/
theorem expiration_eq (ms : ℕ) (k : Machine) : (sleepTimer ms k).expiration =
    (ms * 2048 % 2 ^ 32 / 1000 + k.tickCount) % 2 ^ 32 := rfl

theorem expiration_le (ms : ℕ) (k : Machine) :
    (sleepTimer ms k).expiration ≤ deadline ms k.tickCount := by
  rw [expiration_eq, deadline, rtcFreq_eq]
  have h₁ : ms * 2048 % 2 ^ 32 ≤ ms * 2048 := Nat.mod_le _ _
  have h₂ : (ms * 2048 % 2 ^ 32 / 1000 + k.tickCount) % 2 ^ 32 ≤
      ms * 2048 % 2 ^ 32 / 1000 + k.tickCount := Nat.mod_le _ _
  omega

theorem expiration_exact_iff : (sleepTimer ms k).expiration = deadline ms k.tickCount ↔
    ms * rtcFreq < 2 ^ 32 ∧ deadline ms k.tickCount < 2 ^ 32 := by
  rw [expiration_eq, deadline, rtcFreq_eq]
  have hmod : (ms * 2048 % 2 ^ 32 / 1000 + k.tickCount) % 2 ^ 32 ≤
      ms * 2048 % 2 ^ 32 / 1000 + k.tickCount := Nat.mod_le _ _
  constructor
  · intro h
    have hprod : ms * 2048 < 2 ^ 32 := by
      by_contra hlarge
      omega
    have hsum := Nat.mod_lt (ms * 2048 % 2 ^ 32 / 1000 + k.tickCount) (show 2 ^ 32 > 0 by decide)
    exact ⟨hprod, by omega⟩
  · rintro ⟨hprod, hsum⟩
    rw [Nat.mod_eq_of_lt hprod, Nat.add_comm, Nat.mod_eq_of_lt hsum]

/-- A timer that falls due too early fires too early, unless nobody has to wait at all. -/
theorem sleepsExactly_iff (htick : k.tickCount < 2 ^ 64) : SleepsExactly ms k ↔
    ms = 0 ∨ (sleepTimer ms k).expiration = deadline ms k.tickCount := by
  have hle := expiration_le ms k
  constructor
  · intro h
    by_contra hcond
    rw [not_or] at hcond
    have hlate : k.tickCount < deadline ms k.tickCount := by
      rw [deadline, rtcFreq_eq]
      omega
    -- the first tick at which the truncated timer is due
    let T := max (sleepTimer ms k).expiration k.tickCount
    have hT : T < deadline ms k.tickCount := by omega
    have hE : (sleepTimer ms k).expiration < 2 ^ 32 := Nat.mod_lt _ (by decide)
    obtain ⟨hearly, -⟩ := h _ (sleepMs_timers ms k)
      { k with kernelTimers := [sleepTimer ms k], tickCount := T } (List.mem_singleton.mpr rfl)
      (Nat.le_max_right _ _) (show T < 2 ^ 64 by omega)
    have hmem := (mem_wakeUpTimers (List.mem_singleton.mpr rfl)).mp (hearly hT)
    exact absurd hmem (Nat.not_lt.mpr (Nat.le_max_left _ _))
  · intro hcond t ht k' hmem hlater _
    rw [sleepMs_timers] at ht
    obtain rfl := (List.cons.inj ht).1
    rw [mem_wakeUpTimers hmem]
    rcases hcond with rfl | hcond
    · have hzero : deadline 0 k.tickCount = k.tickCount := by
        rw [deadline, rtcFreq_eq]
        omega
      refine ⟨fun hlt => absurd hlater (by omega), fun hdue => ?_⟩
      exact ⟨by omega, wakes_of_due hmem (by omega)⟩
    · rw [← hcond]
      exact ⟨id, fun hdue => ⟨Nat.not_lt.mpr hdue, wakes_of_due hmem hdue⟩⟩

/-- The deadline is met exactly by sleeps whose product fits 32 bits and that end before the tick count
leaves them; a sleep of no length is never late. -/
theorem sleep_deadline (ms : ℕ) (k : Machine) (htick : k.tickCount < 2 ^ 64) :
    SleepsExactly ms k ↔
      ms = 0 ∨ ms * rtcFreq < 2 ^ 32 ∧ deadline ms k.tickCount < 2 ^ 32 := by
  rw [sleepsExactly_iff htick, expiration_exact_iff]

end Sleep

def tickingMachine (tickCount : ℕ) : Machine where
  queues := ⟨id, id⟩
  waits := ⟨id, id⟩
  threads := fun _ => ⟨.runnable, 1, ⟨0, allSignals⟩, 0, 0, 0, 1, 1, 0x1000, [], false, 0, 0⟩
  locks := fun _ => ⟨false, 0⟩
  kThreads := [0x1000]
  kernelTimers := []
  tickCount := tickCount
  currentThread := 0x1000
  idleThread := 0
  initThread := 0x1000
  nextPid := 2
  allocated := [0x1000]

theorem sleep_deadline_second : SleepsExactly 1000 (tickingMachine 0) :=
  (sleep_deadline 1000 (tickingMachine 0) (by decide)).mpr (.inr (by decide))

/-- A sleep of 35 minutes ends at once, and so does a sleep of a second after 24 days. -/
theorem long_sleep_ends_early : ¬ SleepsExactly 2097152 (tickingMachine 0) ∧
    ¬ SleepsExactly 1000 (tickingMachine (2 ^ 32 - 1)) := by
  rw [sleepsExactly_iff (by decide), sleepsExactly_iff (by decide)]
  decide

end X86Osdev.Proc

import X86Osdev.Kernel.PickThread
import X86Osdev.Library.LeastService

/-! No thread starves: while one waits on the running queue, the scheduler serves threads that have had no more
time than it, so that it is chosen after a bounded number of timer interrupts. -/

namespace X86Osdev.Kernel
open CircularList LeastService Runs X86Osdev.Mem X86Osdev.Proc

def accounts (p : Thread) : ℕ × ℕ × ℕ := (p.runtime, p.lastActivation, p.timeslice)

/-- The accounting is untouched, and the same thread runs. -/
structure SameAccounts (k k' : Machine) : Prop where
  accounts : Keeps accounts k k'
  currentThread : k'.currentThread = k.currentThread
  idleThread : k'.idleThread = k.idleThread

/-- With `retry`, `reschedule` is about to call itself. -/
structure Turn where
  k : Machine
  retry : Bool

namespace Turn

def cur (s : Turn) : ℕ := s.k.currentThread

def slice (s : Turn) : ℕ := (s.k.threads s.cur).timeslice

end Turn

def turnStep : TimeEvent → Turn → Option Turn
  | .reschedule now, s =>
    match reschedule now s.k with
    | .ok switched k' => some ⟨k', !switched⟩
    | _ => none
  | .tick now, s => (after (schedulerHandler now s.k)).map fun k' => ⟨k', false⟩
  | .other k', _ => some ⟨k', false⟩

def tickOf : TimeEvent → List ℕ
  | .tick now => [now]
  | _ => []

def Queued (t : ℕ) (others : Finset ℕ) (k : Machine) : Prop :=
  ∃ ts : List ℕ, Carries k.queues (.queue .running) (ts.map QueueNode.head) ∧ t ∈ ts ∧
    (∀ u ∈ ts, u = t ∨ u = k.idleThread ∨ u ∈ others) ∧ ts.length < 2 ^ 24 ∧ 0 ∉ ts ∧
      ∀ u ∈ ts, niceOf k u < 2 ^ 8

structure Charges (now : ℕ) (k : Machine) : Prop where
  word : now < 2 ^ 64
  since : k.currentThread ≠ k.idleThread → (k.threads k.currentThread).lastActivation ≤ now
  room : k.currentThread ≠ k.idleThread →
    runtimeOf k k.currentThread + (now - (k.threads k.currentThread).lastActivation) < 2 ^ 64

/-- `t` waits: it is on the running queue whenever the scheduler runs, and is not chosen. The clock moves on
from one timer interrupt to the next, and a `reschedule` that calls itself does so at once. -/
def Passed (t : ℕ) (others : Finset ℕ) (s : Turn) (ev : TimeEvent) : Prop :=
  (∀ s', turnStep ev s = some s' → s'.cur ≠ t) ∧
    match ev with
    | .reschedule now => Queued t others s.k ∧ Charges now s.k
    | .tick now => s.retry = false ∧ Queued t others (timersRun s.k) ∧ Charges now s.k ∧
        (s.cur ≠ s.k.idleThread → (s.k.threads s.cur).lastActivation < now)
    | .other k' => s.retry = false ∧ SameAccounts s.k k'

structure Waiting (t limit : ℕ) (s : Turn) : Prop where
  thread : t ≠ 0
  finite : limit < 2 ^ 64 - 1
  runtime : runtimeOf s.k t = limit
  idle : s.k.idleThread ≠ 0 ∧ runtimeOf s.k s.k.idleThread = 2 ^ 64 - 1
  running : s.cur ≠ 0 ∧ s.cur ≠ t
  slice : s.retry = false → s.slice ≤ 3020

section Accounts
variable {k k' k₁ : Machine} {now next charge c u t limit : ℕ} {others : Finset ℕ} {s : Turn}

theorem SameAccounts.clocks (h : SameAccounts k k') : SameClocks k k' :=
  ⟨fun t => congrArg (fun a : ℕ × ℕ × ℕ => (a.1, a.2.1)) (h.accounts t), h.currentThread, h.idleThread⟩

theorem SameAccounts.timeslice (h : SameAccounts k k') (t : ℕ) :
    (k'.threads t).timeslice = (k.threads t).timeslice := congrArg (fun a => a.2.2) (h.accounts t)

theorem SameAccounts.signals (k : Machine) (t : ℕ) : SameAccounts k (handleSignals t k).2 :=
  ⟨keeps_handleSignals (fun _ _ => rfl) (fun _ _ => rfl) (fun _ _ => rfl) (fun _ _ => rfl)
    (fun _ _ => rfl) k t, (Frame.handleSignals k t).currentThread, (Frame.handleSignals k t).idleThread⟩

theorem SameAccounts.timers (k : Machine) : SameAccounts k (timersRun k) :=
  ⟨keeps_timersRun (fun _ _ => rfl) k, (Frame.timersRun k).currentThread, (Frame.timersRun k).idleThread⟩

theorem timeslice_modify (k : Machine) (t u : ℕ) (g : Thread → Thread) :
    ((k.modify t g).threads u).timeslice =
      if u = t then (g (k.threads t)).timeslice else (k.threads u).timeslice := by
  rw [modify_apply]
  split <;> rfl

theorem noResched_slice (now : ℕ) (k : Machine) :
    ((noResched now k).threads k.currentThread).timeslice = (k.threads k.currentThread).timeslice - 1 := by
  unfold noResched
  dsimp only
  rw [(SameAccounts.signals _ _).timeslice]
  split
  · change (((k.modify k.currentThread _).modify k.currentThread _).threads k.currentThread).timeslice = _
    rw [timeslice_modify, if_pos rfl, timeslice_modify, if_pos rfl]
  · rw [timeslice_modify, if_pos rfl]

/-- Only the current thread is charged, and `idle_thread` is not. -/
theorem Ran.served (h : Ran k k' now next charge) (hzero : k.currentThread ≠ 0) (hu : u ≠ 0)
    (hcharge : k.currentThread ≠ k.idleThread →
      u64 (runtimeOf k k.currentThread + charge) = runtimeOf k k.currentThread + c) :
    runtimeOf k' u = runtimeOf k u + if u = k.currentThread ∧ u ≠ k.idleThread then c else 0 := by
  split
  · next hcur =>
    obtain ⟨rfl, hidle⟩ := hcur
    exact (h.charged hzero hidle).trans (hcharge hidle)
  · next hcur => exact h.other u hu (by tauto)

theorem Charges.exact (h : Charges now k) (hidle : k.currentThread ≠ k.idleThread) :
    u64 (runtimeOf k k.currentThread + (now + (2 ^ 64 - (k.threads k.currentThread).lastActivation))) =
      runtimeOf k k.currentThread + (now - (k.threads k.currentThread).lastActivation) := by
  have hroom := h.room hidle
  have hsince := h.since hidle
  have hword := h.word
  unfold u64
  omega

/-- The thread that is chosen has had no more time than the one that waits. -/
theorem Queued.pick (h : Queued t others k) (hidle : runtimeOf k k.idleThread = 2 ^ 64 - 1)
    (hlimit : runtimeOf k t < 2 ^ 64 - 1) (hok : pickNextThread k = .ok next k₁) :
    (next = t ∨ next ∈ others) ∧ runtimeOf k next ≤ runtimeOf k t ∧ next ≠ k.idleThread ∧
      ∃ q, 2 ≤ q ∧ q ≤ 3020 ∧ k₁ = k.modify next fun p => { p with timeslice := q } := by
  obtain ⟨ts, hcarries, ht, hin, hlen, hnull, hnice⟩ := h
  obtain ⟨next', hfirst, hpick⟩ := pickNextThread_eq hcarries (List.ne_nil_of_mem ht) hlen hnull hnice
  obtain ⟨rfl, rfl⟩ := Outcome.ok.inj (hok.symm.trans hpick)
  obtain ⟨hlow, hhigh⟩ := millisToTicks_sliceMs next hnice
  have hle := hfirst.le ht
  have hne : next ≠ k.idleThread := by
    rintro rfl
    omega
  refine ⟨?_, hle, hne, _, hlow, hhigh, rfl⟩
  rcases hin next hfirst.mem with h | h | h
  · exact .inl h
  · exact absurd h hne
  · exact .inr h

end Accounts

/-- The current thread will be charged below the limit, or has the rest of its slice. -/
def due (others : Finset ℕ) (limit : ℕ) (s : Turn) : ℕ :=
  if s.retry = true ∨ (s.cur ∈ others ∧ runtimeOf s.k s.cur ≤ limit) then 0 else s.slice + 1

/-- The timer interrupts that the others can still get. -/
def patience (others : Finset ℕ) (limit : ℕ) (s : Turn) : ℕ :=
  credit others limit 3022 (runtimeOf s.k) (due others limit s)

section Patience
variable {k' k₁ : Machine} {now next c t limit : ℕ} {others : Finset ℕ} {s : Turn} {retry : Bool}

theorem due_zero (h : s.cur ∈ others ∧ runtimeOf s.k s.cur ≤ limit) : due others limit s = 0 := if_pos (.inr h)

theorem due_le (h : s.retry = false → s.slice ≤ 3020) : due others limit s ≤ 3021 := by
  unfold due
  split
  · exact Nat.zero_le _
  · next hne =>
    have hretry : s.retry = false := Bool.eq_false_iff.mpr fun e => hne (.inl e)
    exact Nat.succ_le_succ (h hretry)

theorem due_rest (hretry : s.retry = false) (h : ¬ (s.cur ∈ others ∧ runtimeOf s.k s.cur ≤ limit)) :
    due others limit s = s.slice + 1 := if_neg (by rw [hretry]; tauto)

theorem Waiting.after (h : Waiting t limit s) (hidle : k'.idleThread = s.k.idleThread)
    (hserved : ∀ u ≠ 0, runtimeOf k' u =
      runtimeOf s.k u + if u = s.k.currentThread ∧ u ≠ s.k.idleThread then c else 0)
    (hcur : k'.currentThread ≠ 0 ∧ k'.currentThread ≠ t)
    (hslice : retry = false → (k'.threads k'.currentThread).timeslice ≤ 3020) :
    Waiting t limit ⟨k', retry⟩ where
  thread := h.thread
  finite := h.finite
  runtime := by
    rw [hserved t h.thread, if_neg fun e => h.running.2 e.1.symm]
    exact h.runtime
  idle := by
    refine ⟨hidle.symm ▸ h.idle.1, ?_⟩
    rw [hidle, hserved _ h.idle.1, if_neg fun e => e.2 rfl]
    exact h.idle.2
  running := hcur
  slice := hslice

theorem served_le (hnull : 0 ∉ others) (hserved : ∀ u ≠ 0, runtimeOf k' u =
      runtimeOf s.k u + if u = s.k.currentThread ∧ u ≠ s.k.idleThread then c else 0) :
    ∀ u ∈ others, runtimeOf s.k u ≤ runtimeOf k' u := by
  intro u hu
  rw [hserved u fun e => hnull (e ▸ hu)]
  exact Nat.le_add_right _ _

/-- A charge below the limit pays for a whole turn. -/
theorem Waiting.paid (h : Waiting t limit s) (hnull : 0 ∉ others) (hserved : ∀ u ≠ 0, runtimeOf k' u =
      runtimeOf s.k u + if u = s.k.currentThread ∧ u ≠ s.k.idleThread then c else 0)
    (hc : s.cur ≠ s.k.idleThread → 0 < c) (hlow : s.cur ∈ others ∧ runtimeOf s.k s.cur ≤ limit)
    (hdue : due others limit ⟨k', retry⟩ ≤ 3021) :
    patience others limit ⟨k', retry⟩ < patience others limit s := by
  have hne : s.cur ≠ s.k.idleThread := by
    intro e
    have hlow := e ▸ hlow.2
    have hidle := h.idle.2
    have hfinite := h.finite
    omega
  refine credit_lt_of_served (served_le hnull hserved) hlow.1 hlow.2 ?_ (Nat.lt_succ_of_le hdue)
  rw [hserved _ h.running.1, if_pos ⟨rfl, hne⟩]
  exact Nat.lt_add_of_pos_right (hc hne)

theorem Waiting.noResched (h : Waiting t limit s) (hnull : 0 ∉ others) (hretry : s.retry = false)
    (hc : Charges now s.k) (hlt : s.cur ≠ s.k.idleThread → (s.k.threads s.cur).lastActivation < now)
    (hs : SameClocks s.k k₁) (hnew : (k₁.threads s.cur).timeslice ≤ 3020)
    (hcase : (s.cur ∈ others ∧ runtimeOf s.k s.cur ≤ limit) ∨
      (0 < s.slice ∧ (k₁.threads s.cur).timeslice = s.slice)) :
    Waiting t limit ⟨noResched now k₁, false⟩ ∧
      patience others limit ⟨noResched now k₁, false⟩ < patience others limit s := by
  have hran := (noResched_ran now k₁).before hs
  rw [hs.currentThread, hs.lastActivation] at hran
  have hserved := fun u (hu : u ≠ 0) => hran.served h.running.1 hu hc.exact
  have hcur : (Kernel.noResched now k₁).currentThread = s.cur :=
    (Frame.noResched now k₁).currentThread.trans hs.currentThread
  have hslice : ((Kernel.noResched now k₁).threads s.cur).timeslice = (k₁.threads s.cur).timeslice - 1 := by
    have h₁ := noResched_slice now k₁
    rwa [hs.currentThread] at h₁
  have hafter : Waiting t limit ⟨Kernel.noResched now k₁, false⟩ := by
    refine h.after hran.idleThread hserved (hcur.symm ▸ h.running) fun _ => ?_
    rw [hcur, hslice]
    omega
  refine ⟨hafter, ?_⟩
  have hpay : s.cur ≠ s.k.idleThread → 0 < now - (s.k.threads s.k.currentThread).lastActivation := fun hne =>
    Nat.sub_pos_of_lt (hlt hne)
  by_cases hlow : s.cur ∈ others ∧ runtimeOf s.k s.cur ≤ limit
  · exact h.paid hnull hserved hpay hlow (due_le hafter.slice)
  · obtain ⟨hpos, hkept⟩ := hcase.resolve_left hlow
    refine credit_lt (served_le hnull hserved) ?_
    rw [due_rest hretry hlow]
    -- the thread stays above the limit and has a tick less
    refine (due_rest rfl ?_).trans_lt ?_
    · rintro ⟨hin, hle⟩
      change (Kernel.noResched now k₁).currentThread ∈ others at hin
      change runtimeOf _ (Kernel.noResched now k₁).currentThread ≤ limit at hle
      rw [hcur] at hin hle
      exact hlow ⟨hin, (served_le hnull hserved _ hin).trans hle⟩
    · change ((Kernel.noResched now k₁).threads (Kernel.noResched now k₁).currentThread).timeslice + 1 < _
      rw [hcur, hslice, hkept]
      omega

/-- The interrupt switches to a thread that has had no more time than `t`. -/
theorem Waiting.switch (h : Waiting t limit s) (hnull : 0 ∉ others) (hretry : s.retry = false)
    (hc : Charges now s.k) (hlt : s.cur ≠ s.k.idleThread → (s.k.threads s.cur).lastActivation < now)
    (hs : SameClocks s.k k₁) (hne : next ≠ s.cur) (hin : next ∈ others) (hle : runtimeOf s.k next ≤ limit)
    (hnt : next ≠ t) (hnew : (k₁.threads next).timeslice ≤ 3020) :
    Waiting t limit ⟨switchToThread next (chargeSwitch now next k₁), false⟩ ∧
      patience others limit ⟨switchToThread next (chargeSwitch now next k₁), false⟩ <
        patience others limit s := by
  have hzero : next ≠ 0 := fun e => hnull (e ▸ hin)
  have hcur : k₁.currentThread ≠ next := fun e => hne (e.symm.trans hs.currentThread)
  have hran := ((chargeSwitch_ran hcur now).before hs).switch next
  rw [hs.currentThread, hs.lastActivation] at hran
  have hserved := fun u (hu : u ≠ 0) => hran.served h.running.1 hu hc.exact
  have hkept : runtimeOf (switchToThread next (chargeSwitch now next k₁)) next = runtimeOf s.k next := by
    rw [hserved next hzero, if_neg fun e => hne e.1]
    rfl
  have hafter : Waiting t limit ⟨switchToThread next (chargeSwitch now next k₁), false⟩ := by
    refine h.after hran.idleThread hserved ⟨hzero, hnt⟩ fun _ => ?_
    change ((chargeSwitch now next k₁).threads next).timeslice ≤ 3020
    unfold chargeSwitch
    dsimp only
    split
    · rw [timeslice_modify, if_neg, timeslice_modify, if_pos rfl]
      · exact (Nat.sub_le _ _).trans hnew
      · exact fun e => hcur e.symm
    · rw [timeslice_modify, if_pos rfl]
      exact (Nat.sub_le _ _).trans hnew
  have hdue : due others limit ⟨switchToThread next (chargeSwitch now next k₁), false⟩ = 0 :=
    due_zero ⟨hin, hkept.trans_le hle⟩
  refine ⟨hafter, ?_⟩
  by_cases hlow : s.cur ∈ others ∧ runtimeOf s.k s.cur ≤ limit
  · exact h.paid hnull hserved (fun hi => Nat.sub_pos_of_lt (hlt hi)) hlow (by rw [hdue]; decide)
  · refine credit_lt (served_le hnull hserved) ?_
    rw [hdue, due_rest hretry hlow]
    exact Nat.succ_pos _

theorem Waiting.tick (h : Waiting t limit s) (hnull : 0 ∉ others) (hretry : s.retry = false)
    (hq : Queued t others (timersRun s.k)) (hc : Charges now s.k)
    (hlt : s.cur ≠ s.k.idleThread → (s.k.threads s.cur).lastActivation < now) {chosen : Option ℕ}
    (hok : schedulerHandler now s.k = .ok chosen k') (hnt : k'.currentThread ≠ t) :
    Waiting t limit ⟨k', false⟩ ∧ patience others limit ⟨k', false⟩ < patience others limit s := by
  have hs := SameAccounts.timers s.k
  dsimp only [schedulerHandler] at hok
  split at hok
  -- The interrupted thread has time left, and is charged for what it has used.
  · next hslice =>
    cases hok
    have hkept : ((timersRun s.k).threads s.cur).timeslice = s.slice := hs.timeslice _
    rw [hs.currentThread] at hslice
    exact h.noResched hnull hretry hc hlt hs.clocks (hkept.trans_le (h.slice hretry))
      (.inr ⟨hkept ▸ hslice.2, hkept⟩)
  · obtain ⟨next, k₁, hpick, hrest⟩ := Outcome.bind_eq_ok.mp hok
    have hruntime := hs.clocks.runtime
    have hwait : runtimeOf (timersRun s.k) t = limit := (hruntime t).trans h.runtime
    have hidle : runtimeOf (timersRun s.k) (timersRun s.k).idleThread = 2 ^ 64 - 1 := by
      rw [hs.idleThread]
      exact (hruntime _).trans h.idle.2
    obtain ⟨hin, hle, -, q, -, hq, rfl⟩ := hq.pick hidle (hwait ▸ h.finite) hpick
    have hle : runtimeOf s.k next ≤ limit := ((hruntime next).symm.trans_le hle).trans_eq hwait
    have hs₁ := hs.clocks.trans (.pick hpick)
    have hnew : ∀ u, ((timersRun s.k).modify next fun p => { p with timeslice := q }).threads u =
        if u = next then { (timersRun s.k).threads next with timeslice := q } else (timersRun s.k).threads u :=
      fun u => modify_apply ..
    split at hrest
    -- It is chosen again.
    · next hcur =>
      cases hrest
      have hcur : s.cur = next := hs.currentThread.symm.trans hcur
      subst hcur
      refine h.noResched hnull hretry hc hlt hs₁ ?_ (.inl ⟨hin.resolve_left h.running.2, hle⟩)
      rw [hnew, if_pos rfl]
      exact hq
    -- Another thread is chosen, which has had no more time than `t`.
    · next hcur =>
      cases hrest
      have hnt : next ≠ t := hnt
      refine h.switch hnull hretry hc hlt hs₁ (fun e => hcur ?_) (hin.resolve_left hnt) hle hnt ?_
      · exact hs.currentThread.trans e.symm
      · rw [hnew, if_pos rfl]
        exact hq

/-- A turn of `reschedule` charges the current thread at most, and goes on to a thread that has had no more time
than `t`, or to the next turn. -/
theorem Waiting.reschedule (h : Waiting t limit s) (hnull : 0 ∉ others) (hq : Queued t others s.k)
    (hc : Charges now s.k) {switched : Bool} (hok : Kernel.reschedule now s.k = .ok switched k')
    (hnt : k'.currentThread ≠ t) : Waiting t limit ⟨k', !switched⟩ ∧
      patience others limit ⟨k', !switched⟩ ≤ patience others limit s := by
  obtain ⟨next, k₁, hpick, -, hk'⟩ := reschedule_ok hok
  obtain ⟨hin, hle, hidle, q, hlow, hhigh, hk₁⟩ := hq.pick h.idle.2 (h.runtime ▸ h.finite) hpick
  have hs := SameClocks.pick hpick
  have hsig := SameAccounts.signals (chargeReschedule now next k₁) next
  have hran := ((chargeReschedule_ran now next k₁).before hs).after hsig.clocks
  rw [hs.currentThread, hs.lastActivation] at hran
  have hran' : Ran s.k k' now next (now + (2 ^ 64 - if s.k.currentThread = next then now
      else (s.k.threads s.k.currentThread).lastActivation)) := by
    rw [hk']
    split
    · exact hran.switch next
    · exact hran
  -- `next` is marked as activated before the charge, so a thread that is chosen again is not charged.
  have hserved : ∀ u ≠ 0, runtimeOf k' u = runtimeOf s.k u + if u = s.k.currentThread ∧ u ≠ s.k.idleThread
      then if s.k.currentThread = next then 0 else now - (s.k.threads s.k.currentThread).lastActivation
      else 0 := by
    refine fun u hu => hran'.served h.running.1 hu fun hne => ?_
    split
    · have hroom := hc.room hne
      have hword := hc.word
      unfold u64
      omega
    · exact hc.exact hne
  have hcur : k'.currentThread = if switched then next else s.cur := by
    rw [hk']
    split
    · rfl
    · exact (hsig.currentThread.trans (Frame.chargeReschedule now next k₁).currentThread).trans hs.currentThread
  -- Without a switch the same thread is about to choose again; with one, `next` begins its slice.
  cases switched with
  | false =>
    have hcur : k'.currentThread = s.cur := hcur
    refine ⟨h.after hran'.idleThread hserved (hcur.symm ▸ h.running) nofun, ?_⟩
    exact credit_le (served_le hnull hserved) ((if_pos (.inl rfl)).trans_le (Nat.zero_le _))
  | true =>
    have hcur : k'.currentThread = next := hcur
    have hin := hin.resolve_left (hcur ▸ hnt)
    have hzero : next ≠ 0 := fun e => hnull (e ▸ hin)
    have hkept : runtimeOf k' next = runtimeOf s.k next := by
      rw [hserved next hzero]
      split
      · next hself =>
        rw [if_pos hself.1.symm]
        rfl
      · rfl
    have hslice : (k'.threads next).timeslice ≤ 3020 := by
      have hcharge : ((chargeReschedule now next k₁).threads next).timeslice ≤ 3020 := by
        have hq₁ : (k₁.threads next).timeslice = q := by
          rw [hk₁, timeslice_modify, if_pos rfl]
        unfold chargeReschedule
        dsimp only
        split
        · rw [timeslice_modify]
          split
          · next e =>
            change u32 (((k₁.modify next _).threads (k₁.modify next _).currentThread).timeslice + _) ≤ _
            rw [← e, timeslice_modify, if_pos rfl, hq₁]
            unfold u32
            omega
          · rw [timeslice_modify, if_pos rfl, hq₁]
            exact hhigh
        · rw [timeslice_modify, if_pos rfl, hq₁]
          exact hhigh
      rw [hk', if_pos rfl]
      change ((handleSignals next (chargeReschedule now next k₁)).2.threads next).timeslice ≤ 3020
      rwa [hsig.timeslice]
    refine ⟨h.after hran'.idleThread hserved ⟨hcur.symm ▸ hzero, hnt⟩ fun _ => hcur.symm ▸ hslice, ?_⟩
    refine credit_le (served_le hnull hserved) ((due_zero ?_).trans_le (Nat.zero_le _))
    change k'.currentThread ∈ others ∧ runtimeOf k' k'.currentThread ≤ limit
    rw [hcur, hkept]
    exact ⟨hin, hle.trans_eq h.runtime⟩

theorem Waiting.other (others : Finset ℕ) (h : Waiting t limit s) (hretry : s.retry = false)
    (hs : SameAccounts s.k k') :
    Waiting t limit ⟨k', false⟩ ∧ patience others limit ⟨k', false⟩ = patience others limit s := by
  have hruntime : runtimeOf k' = runtimeOf s.k := funext hs.clocks.runtime
  have hcur : (⟨k', false⟩ : Turn).cur = s.cur := hs.currentThread
  have hslice : (⟨k', false⟩ : Turn).slice = s.slice := by
    unfold Turn.slice
    rw [hcur]
    exact hs.timeslice _
  refine ⟨⟨h.thread, h.finite, ?_, ?_, hcur.symm ▸ h.running, fun _ => hslice.trans_le (h.slice hretry)⟩, ?_⟩
  · rw [hruntime]
    exact h.runtime
  · rw [hs.idleThread, hruntime]
    exact h.idle
  · unfold patience due
    rw [hruntime, hcur, hslice, hretry]

theorem Waiting.step {ev : TimeEvent} {s' : Turn} (h : Waiting t limit s) (hnull : 0 ∉ others)
    (hev : Passed t others s ev) (hs : turnStep ev s = some s') : Waiting t limit s' ∧
      patience others limit s' + (tickOf ev).length ≤ patience others limit s := by
  obtain ⟨hpassed, hev⟩ := hev
  have hnt := hpassed s' hs
  cases ev with
  | reschedule now =>
    obtain ⟨hq, hc⟩ := hev
    rw [turnStep] at hs
    split at hs
    · next switched k' hok =>
      cases hs
      exact h.reschedule hnull hq hc hok hnt
    · cases hs
  | tick now =>
    obtain ⟨hretry, hq, hc, hlt⟩ := hev
    obtain ⟨k', hk', rfl⟩ := Option.map_eq_some_iff.mp hs
    obtain ⟨chosen, hok⟩ := after_eq_some.mp hk'
    exact h.tick hnull hretry hq hc hlt hok hnt
  | other k' =>
    cases hs
    obtain ⟨hafter, heq⟩ := h.other others hev.1 hev.2
    exact ⟨hafter, heq.le⟩

/-- A thread on the running queue is chosen after a number of timer interrupts that depends on the time that it and
the others have had: it waits for 3022 of them at most for each cycle by which another one is behind. -/
theorem no_starvation {log : List ℕ} {s' : Turn} (h : Waiting t limit s) (hnull : 0 ∉ others)
    (hrun : Steps (logged turnStep tickOf) (fun p ev => Passed t others p.1 ev) (s, []) (s', log)) :
    log.length ≤ 3022 * (∑ u ∈ others, (limit + 1 - runtimeOf s.k u)) + 3021 :=
  (length_log_le (fun _ _ _ hi hev hs => hi.step hnull hev hs) hrun h).trans
    (Nat.add_le_add_left (due_le h.slice) _)

end Patience

def twoReady : Turn := ⟨fatherRuns, false⟩

def twoReadyTicked : Turn := (turnStep (.tick 150) twoReady).getD twoReady

theorem twoReady_carries :
    Carries (timersRun twoReady.k).queues (.queue .running) ([0x2000, 0x3000, 0x4000].map QueueNode.head) := by
  refine ⟨⟨⟨?_, ?_⟩, ⟨?_, ?_⟩, ⟨?_, ?_⟩, ?_, ?_⟩, by decide⟩
  all_goals decide +kernel

theorem twoReady_queued : Queued 0x4000 {0x3000} (timersRun twoReady.k) := by
  have hidle : (timersRun twoReady.k).idleThread = 0x2000 := by decide +kernel
  exact ⟨_, twoReady_carries, by decide, by rw [hidle]; decide, by decide, by decide, by decide +kernel⟩

theorem no_starvation_tick : [150].length ≤ 3022 * (∑ u ∈ {0x3000}, (0 + 1 - runtimeOf twoReady.k u)) + 3021 := by
  have hwait : Waiting 0x4000 0 twoReady := by
    refine ⟨by decide, by decide, ?_, ⟨?_, ?_⟩, ⟨?_, ?_⟩, fun _ => ?_⟩
    all_goals decide +kernel
  have hstep : turnStep (.tick 150) twoReady = some twoReadyTicked :=
    (Option.getD_of_ne_none (by decide +kernel) _).symm
  have hcharges : Charges 150 twoReady.k := by
    refine ⟨by decide, fun _ => ?_, fun _ => ?_⟩
    all_goals decide +kernel
  have hpassed : Passed 0x4000 {0x3000} twoReady (.tick 150) := by
    refine ⟨fun s' hs => ?_, rfl, twoReady_queued, hcharges, fun _ => by decide +kernel⟩
    rw [← Option.some.inj (hstep.symm.trans hs)]
    decide +kernel
  exact no_starvation hwait (by decide)
    (.single ⟨.tick 150, hpassed, logged_eq_some.mpr ⟨hstep, rfl⟩⟩ : Steps _ _ _ (twoReadyTicked, [150]))

end X86Osdev.Kernel

import X86Osdev.Kernel.CpuTime
import Mathlib.Algebra.Group.Action.Defs
import Mathlib.Algebra.Order.BigOperators.Group.List
import Mathlib.Algebra.Order.Ring.Nat
import Mathlib.Data.List.MinMax

/-! The choice of `pick_next_thread` and the time slice that it hands out. -/

namespace X86Osdev.Kernel
open CircularList X86Osdev.Mem X86Osdev.Proc X86Osdev.Lock

def runtimeOf (k : Machine) (t : ℕ) : ℕ := (k.threads t).runtime

def niceOf (k : Machine) (t : ℕ) : ℕ := (k.threads t).nice

/-- `next` comes first among the threads of `ts` with the smallest `runtime`. -/
def FirstLeast (k : Machine) (ts : List ℕ) (next : ℕ) : Prop :=
  ∃ before after, ts = before ++ next :: after ∧
    (∀ t ∈ before, runtimeOf k next < runtimeOf k t) ∧
    ∀ t ∈ after, runtimeOf k next ≤ runtimeOf k t

/-! The values of `pick_next_thread` in unbounded arithmetic. -/

def niceTotal (k : Machine) (ts : List ℕ) : ℕ := (ts.map (niceOf k)).sum

def niceAverage (k : Machine) (ts : List ℕ) : ℕ := niceTotal k ts / ts.length

def quantumMs (k : Machine) (ts : List ℕ) (next : ℕ) : ℤ :=
  (maxQuantumMs / ts.length : ℕ) + pPenalty * ((niceAverage k ts : ℤ) - niceOf k next)

def sliceMs (k : Machine) (ts : List ℕ) (next : ℕ) : ℕ := (max (minQuantumMs : ℤ) (quantumMs k ts next)).toNat

def afterLoop (k : Machine) (ts : List ℕ) : Pick :=
  (ts.map QueueNode.head).foldl (pickStep k) ⟨0, 0, 0, 0⟩

def FitsInt (x : ℤ) : Prop := -2147483648 ≤ x ∧ x ≤ 2147483647

structure NoWrap (k : Machine) (ts : List ℕ) (next : ℕ) : Prop where
  procNum : ∀ before, before <+: ts → (afterLoop k before).procNum = before.length
  pTot : ∀ before, before <+: ts → (afterLoop k before).pTot = niceTotal k before
  pAvg : FitsInt (niceAverage k ts)
  share : FitsInt (maxQuantumMs / ts.length : ℕ)
  difference : FitsInt ((niceAverage k ts : ℤ) - niceOf k next)
  penalty : FitsInt (pPenalty * ((niceAverage k ts : ℤ) - niceOf k next))
  quantum : FitsInt (quantumMs k ts next)
  ticks : sliceMs k ts next * rtcFreq < 2 ^ 32

section Choice
variable {k : Machine} {ts : List ℕ} {next : ℕ}

theorem firstLeast_of_argmin (h : next ∈ ts.argmin (runtimeOf k)) : FirstLeast k ts next := by
  obtain ⟨before, after, rfl, hnew⟩ := List.eq_append_cons_of_mem (List.argmin_mem h)
  refine ⟨before, after, rfl, fun t ht => ?_, fun t ht => ?_⟩
  · have hmem : t ∈ before ++ next :: after := List.mem_append_left _ ht
    refine lt_of_le_of_ne (List.le_of_mem_argmin hmem h) fun heq => ?_
    -- a thread with the same time that comes earlier would have been chosen
    have hidx := List.index_of_argmin h hmem heq.ge
    rw [List.idxOf_append_of_notMem hnew, List.idxOf_cons_self,
      List.idxOf_append_of_mem ht] at hidx
    exact absurd (List.idxOf_lt_length_of_mem ht) (by omega)
  · exact List.le_of_mem_argmin (List.mem_append_right _ (List.mem_cons_of_mem _ ht)) h

theorem FirstLeast.mem (h : FirstLeast k ts next) : next ∈ ts := by
  obtain ⟨before, after, rfl, -⟩ := h
  exact List.mem_append_right _ (List.mem_cons_self ..)

theorem FirstLeast.le (h : FirstLeast k ts next) {t : ℕ} (ht : t ∈ ts) :
    runtimeOf k next ≤ runtimeOf k t := by
  obtain ⟨before, after, rfl, hbefore, hafter⟩ := h
  rcases List.mem_append.mp ht with ht | ht
  · exact (hbefore t ht).le
  · rcases List.mem_cons.mp ht with rfl | ht
    · exact le_rfl
    · exact hafter t ht

theorem niceTotal_concat (k : Machine) (ts : List ℕ) (t : ℕ) :
    niceTotal k (ts ++ [t]) = niceTotal k ts + niceOf k t := by
  simp [niceTotal]

theorem niceTotal_le (hnice : ∀ t ∈ ts, niceOf k t < 2 ^ 8) : niceTotal k ts ≤ ts.length * 255 := by
  have hsum := List.sum_le_card_nsmul (ts.map (niceOf k)) 255 fun n hn => by
    obtain ⟨t, ht, rfl⟩ := List.mem_map.mp hn
    exact Nat.le_of_lt_succ (hnice t ht)
  rwa [List.length_map, smul_eq_mul] at hsum

theorem afterLoop_concat (k : Machine) (ts : List ℕ) (t : ℕ) :
    afterLoop k (ts ++ [t]) = pickStep k (afterLoop k ts) (.head t) := by
  unfold afterLoop
  rw [List.map_append, List.foldl_append]
  rfl

theorem pickStep_take {r : Pick} {t : ℕ} (h : r.procNum = 0 ∨ runtimeOf k t < r.minRuntime) :
    pickStep k r (.head t) =
      ⟨u32 (r.procNum + 1), u32 (r.pTot + niceOf k t), t, runtimeOf k t⟩ := by
  have h : r.procNum = 0 ∨ (k.threads (threadOf (.head t))).runtime < r.minRuntime := h
  unfold pickStep
  simp only [if_pos h]
  rfl

theorem pickStep_pass {r : Pick} {t : ℕ} (h : ¬ (r.procNum = 0 ∨ runtimeOf k t < r.minRuntime)) :
    pickStep k r (.head t) =
      ⟨u32 (r.procNum + 1), u32 (r.pTot + niceOf k t), r.next, r.minRuntime⟩ := by
  have h : ¬ (r.procNum = 0 ∨ (k.threads (threadOf (.head t))).runtime < r.minRuntime) := h
  unfold pickStep
  simp only [if_neg h]
  rfl

/-- The loop finds the first minimum, the number of threads and the sum. -/
theorem afterLoop_eq (hlen : ts.length < 2 ^ 24) (hnice : ∀ t ∈ ts, niceOf k t < 2 ^ 8) :
    (ts = [] ∧ afterLoop k ts = ⟨0, 0, 0, 0⟩) ∨ ∃ next ∈ ts.argmin (runtimeOf k),
      afterLoop k ts = ⟨ts.length, niceTotal k ts, next, runtimeOf k next⟩ := by
  induction ts using List.reverseRecOn with
  | nil => exact .inl ⟨rfl, rfl⟩
  | append_singleton ts t ih =>
    have htotal := niceTotal_le hnice
    rw [List.length_append, List.length_singleton] at hlen htotal
    have hnum : u32 (ts.length + 1) = ts.length + 1 := Nat.mod_eq_of_lt (by omega)
    have hsum : u32 (niceTotal k ts + niceOf k t) = niceTotal k ts + niceOf k t := by
      rw [niceTotal_concat] at htotal
      exact Nat.mod_eq_of_lt (by omega)
    rw [afterLoop_concat, niceTotal_concat, List.length_append, List.length_singleton]
    right
    rcases ih (by omega) fun u hu => hnice u (List.mem_append_left _ hu) with
      ⟨rfl, hloop⟩ | ⟨next, hleast, hloop⟩
    · refine ⟨t, rfl, ?_⟩
      rw [hloop, pickStep_take (.inl rfl), ← hsum, ← hnum]
      rfl
    · -- `argmin` of a longer list compares the new thread with the old minimum, as the loop does
      have hne : ts.length ≠ 0 := fun h => by
        rw [List.length_eq_zero_iff.mp h] at hleast
        cases hleast
      rw [hloop, List.argmin_concat, Option.mem_def.mp hleast]
      by_cases hless : runtimeOf k t < runtimeOf k next
      · refine ⟨t, if_pos hless, ?_⟩
        rw [pickStep_take (.inr hless), hsum, hnum]
      · refine ⟨next, if_neg hless, ?_⟩
        rw [pickStep_pass (not_or.mpr ⟨hne, hless⟩), hsum, hnum]

theorem niceAverage_le (hnice : ∀ t ∈ ts, niceOf k t < 2 ^ 8) : niceAverage k ts ≤ 255 :=
  Nat.div_le_of_le_mul (niceTotal_le hnice)

theorem toInt_eq {n : ℕ} (h : n < 2 ^ 31) : toInt n = n := if_pos h

theorem sliceMs_bounds (next : ℕ) (hnice : ∀ t ∈ ts, niceOf k t < 2 ^ 8) :
    1 ≤ sliceMs k ts next ∧ sliceMs k ts next ≤ 1475 := by
  have havg := niceAverage_le hnice
  have hshare : maxQuantumMs / ts.length ≤ 200 := Nat.div_le_self ..
  unfold sliceMs quantumMs minQuantumMs pPenalty
  omega

theorem millisToTicks_eq {millis : ℕ} (h : millis * rtcFreq < 2 ^ 32) :
    millisToTicks millis = millis * 2048 / 1000 :=
  congrArg (· / 1000) (Nat.mod_eq_of_lt h)

theorem sliceMs_ticks (next : ℕ) (hnice : ∀ t ∈ ts, niceOf k t < 2 ^ 8) :
    sliceMs k ts next * rtcFreq < 2 ^ 32 := by
  have hslice := (sliceMs_bounds next hnice).2
  have hfreq : rtcFreq = 2048 := rfl
  rw [hfreq]
  omega

theorem millisToTicks_sliceMs (next : ℕ) (hnice : ∀ t ∈ ts, niceOf k t < 2 ^ 8) :
    2 ≤ millisToTicks (sliceMs k ts next) ∧ millisToTicks (sliceMs k ts next) ≤ 3020 := by
  have hslice := sliceMs_bounds next hnice
  rw [millisToTicks_eq (sliceMs_ticks next hnice)]
  omega

/-- The mixed arithmetic of the quantum is exact. -/
theorem timesliceOf_eq {minRuntime : ℕ} (hnice : ∀ t ∈ ts, niceOf k t < 2 ^ 8) (hnext : next ∈ ts) :
    timesliceOf ⟨ts.length, niceTotal k ts, next, minRuntime⟩ (niceOf k next) =
      millisToTicks (sliceMs k ts next) := by
  have havg := niceAverage_le hnice
  have hshare : maxQuantumMs / ts.length ≤ 200 := Nat.div_le_self ..
  have hone := hnice next hnext
  have hpAvg : toInt (niceAverage k ts) = niceAverage k ts := toInt_eq (by omega)
  have hq : toInt (maxQuantumMs / ts.length) + (toInt (niceAverage k ts) - toInt (niceOf k next)) *
      pPenalty = quantumMs k ts next := by
    rw [hpAvg, toInt_eq (by omega), toInt_eq (by omega), mul_comm]
    rfl
  unfold timesliceOf
  dsimp only
  rw [show niceTotal k ts / ts.length = niceAverage k ts from rfl, hq]
  unfold sliceMs
  have hhigh : quantumMs k ts next ≤ 1475 := by
    unfold quantumMs pPenalty
    omega
  split
  · next hlow =>
    rw [max_eq_left (by unfold minQuantumMs; omega)]
    rfl
  · next hlow =>
    rw [max_eq_right (by unfold minQuantumMs; omega), Int.emod_eq_of_lt (by omega) (by omega)]

theorem noWrap (hlen : ts.length < 2 ^ 24) (hnice : ∀ t ∈ ts, niceOf k t < 2 ^ 8) (hnext : next ∈ ts) :
    NoWrap k ts next := by
  have havg := niceAverage_le hnice
  have hshare : maxQuantumMs / ts.length ≤ 200 := Nat.div_le_self ..
  have hone := hnice next hnext
  have hprefix : ∀ before, before <+: ts → before.length < 2 ^ 24 ∧ ∀ t ∈ before, niceOf k t < 2 ^ 8 :=
    fun before hb => ⟨hb.length_le.trans_lt hlen, fun t ht => hnice t (hb.subset ht)⟩
  refine ⟨fun before hb => ?_, fun before hb => ?_, ?_, ?_, ?_, ?_, ?_, sliceMs_ticks next hnice⟩
  · obtain ⟨hlen', hnice'⟩ := hprefix before hb
    rcases afterLoop_eq hlen' hnice' with ⟨rfl, hloop⟩ | ⟨next', -, hloop⟩
    · rfl
    · rw [hloop]
  · obtain ⟨hlen', hnice'⟩ := hprefix before hb
    rcases afterLoop_eq hlen' hnice' with ⟨rfl, hloop⟩ | ⟨next', -, hloop⟩
    · rfl
    · rw [hloop]
  · unfold FitsInt
    omega
  · generalize maxQuantumMs / ts.length = share at hshare ⊢
    unfold FitsInt
    omega
  · unfold FitsInt
    omega
  · unfold FitsInt pPenalty
    omega
  · unfold FitsInt quantumMs pPenalty
    generalize maxQuantumMs / ts.length = share at hshare ⊢
    omega

/-- `pick_next_thread` chooses the first thread with the least `runtime`. -/
theorem pickNextThread_eq (hcarries : Carries k.queues (.queue .running) (ts.map QueueNode.head))
    (hne : ts ≠ []) (hlen : ts.length < 2 ^ 24) (hnull : 0 ∉ ts)
    (hnice : ∀ t ∈ ts, niceOf k t < 2 ^ 8) : ∃ next, FirstLeast k ts next ∧
      pickNextThread k = .ok next (k.modify next fun p =>
        { p with timeslice := millisToTicks (sliceMs k ts next) }) := by
  have hfuel : (ts.map QueueNode.head).length < listFuel := by
    rw [List.length_map]
    unfold listFuel
    omega
  have hloop : forEach k.queues (pickStep k) (.queue .running) listFuel
      (k.queues.next (.queue .running)) ⟨0, 0, 0, 0⟩ = some (afterLoop k ts) :=
    forEach_carries hcarries hfuel
  rcases afterLoop_eq hlen hnice with ⟨hnil, -⟩ | ⟨next, hleast, hvars⟩
  · exact absurd hnil hne
  have hfirst := firstLeast_of_argmin hleast
  have hzero : next ≠ 0 := fun e => hnull (e ▸ hfirst.mem)
  refine ⟨next, hfirst, ?_⟩
  unfold pickNextThread
  rw [hloop, hvars]
  dsimp only
  rw [if_neg (List.length_pos_iff.mpr hne).ne', if_neg hzero]
  congr 1
  refine congrArg (fun p => { k with threads := Function.update k.threads next p }) ?_
  exact congrArg (fun slice => { k.threads next with timeslice := slice })
    (timesliceOf_eq hnice hfirst.mem)

end Choice

section Idle
variable {k k' : Machine} {E : Queue → List ℕ} {op : ThreadOp} {awake : Prop}

theorem runtime_setState (k : Machine) (t : ℕ) (s : TaskState) :
    Keeps Thread.runtime k (k.setState t s) := Keeps.setState (fun _ _ => rfl) k t s

theorem runtime_wakeUpThread (k : Machine) (t : ℕ) : Keeps Thread.runtime k (wakeUpThread t k) :=
  runtime_setState k t .runnable

theorem runtime_sleepThread (k : Machine) (t : ℕ) : Keeps Thread.runtime k (sleepThread t k) :=
  Keeps.sleepThread (fun _ _ => rfl) k t

theorem runtime_childAwoken (pid : ℕ) (k : Machine) : Keeps Thread.runtime k (childAwoken pid k) := by
  unfold childAwoken
  cases getThread pid k with
  | none => exact Keeps.refl k
  | some t =>
    have hdeliver := Keeps.deliver (f := Thread.runtime) (fun _ _ => rfl) k t sigcko
    exact (hdeliver.trans (runtime_wakeUpThread _ t)).trans (runtime_setState _ t _)

theorem runtime_sysWait4Done (p : ℕ) (k : Machine) : Keeps Thread.runtime k (sysWait4Done p k).2 := by
  have hclear : Keeps Thread.runtime k (k.modify k.currentThread fun t => { t with wait4 := 0 }) :=
    Keeps.modify k _ fun _ => rfl
  exact (hclear.trans (runtime_setState _ p .zombie)).trans (runtime_wakeUpThread _ _)

theorem runtime_sysWait4 (pid : ℕ) (k : Machine) : Keeps Thread.runtime k (sysWait4 pid k).2 := by
  unfold sysWait4
  cases getThread pid k with
  | none => exact Keeps.refl k
  | some p =>
    dsimp only
    split
    · exact runtime_sysWait4Done p k
    · have hset : Keeps Thread.runtime k (k.modify k.currentThread fun t => { t with wait4 := pid }) :=
        Keeps.modify k _ fun _ => rfl
      exact hset.trans (runtime_sleepThread _ _)

theorem runtime_sysWait4allDone (k : Machine) : Keeps Thread.runtime k (sysWait4allDone k) := by
  have hclear : Keeps Thread.runtime k
      (k.modify k.currentThread fun t => { t with wait4child := false }) := Keeps.modify k _ fun _ => rfl
  have hone : ∀ k p1, Keeps Thread.runtime k (buryStopped k p1) := by
    intro k p1
    unfold buryStopped
    split
    · exact runtime_setState k p1 .zombie
    · exact Keeps.refl k
  exact hclear.trans (Keeps.foldl hone _ _)

theorem runtime_sysWait4all (k : Machine) : Keeps Thread.runtime k (sysWait4all k).2 := by
  unfold sysWait4all
  split
  · exact runtime_sysWait4allDone k
  · have hset : Keeps Thread.runtime k
        (k.modify k.currentThread fun t => { t with wait4child := true }) := Keeps.modify k _ fun _ => rfl
    exact hset.trans (runtime_sleepThread _ _)

theorem runtime_getLock (l : ℕ) (k : Machine) : Keeps Thread.runtime k (Lock.getLock l k).2 := by
  have hlink : ∀ k, Keeps Thread.runtime k (linkWaiter l k) := by
    intro k
    unfold linkWaiter
    split
    · exact Keeps.refl k
    · exact Keeps.refl k
  unfold Lock.getLock
  dsimp only [testLock]
  split
  · exact fun t => (runtime_sleepThread _ _ t).trans (hlink _ t)
  · exact fun t => rfl

theorem runtime_wakeWaiters {l fuel : ℕ} (h : wakeWaiters l fuel k = some k') :
    Keeps Thread.runtime k k' := by
  induction fuel generalizing k with
  | zero => cases h
  | succ fuel ih =>
    unfold wakeWaiters at h
    dsimp only at h
    split at h
    · cases h
      exact Keeps.refl _
    · generalize waiterOf (k.waits.next (.threadsWaiting l)) = t at h
      have hwake : Keeps Thread.runtime k
          (wakeUpThread t { k with waits := k.waits.listRemove (.waitq t) }) := runtime_wakeUpThread _ t
      split at h
      · cases h
        exact hwake
      · exact hwake.trans (ih h)

/-- `idle_thread` is never charged. -/
theorem runtime_reschedule {now : ℕ} {switched : Bool} (hzero : k.idleThread ≠ 0)
    (h : reschedule now k = .ok switched k') :
    (k'.threads k.idleThread).runtime = (k.threads k.idleThread).runtime := by
  obtain ⟨next, k₁, hpick, _, rfl⟩ := reschedule_ok h
  have hsame := SameClocks.pick hpick
  have hran := ((chargeReschedule_ran now next k₁).before hsame).after (SameClocks.signals _ next)
  have hkept := hran.other _ hzero (.inr rfl)
  split
  · exact hkept
  · exact hkept

theorem runtime_schedulerHandler {now : ℕ} {next : Option ℕ} (hzero : k.idleThread ≠ 0)
    (h : schedulerHandler now k = .ok next k') :
    (k'.threads k.idleThread).runtime = (k.threads k.idleThread).runtime := by
  have hsame := SameClocks.timers k
  rcases schedulerHandler_ok h with ⟨-, rfl | ⟨k₁, hpick, rfl⟩⟩ | ⟨nextThread, k₁, rfl, hpick, rfl⟩
  · exact ((noResched_ran now _).before hsame).other _ hzero (.inr rfl)
  · exact ((noResched_ran now k₁).before (hsame.trans (.pick hpick))).other _ hzero (.inr rfl)
  · have hsame₁ := hsame.trans (.pick hpick)
    have hne := schedulerHandler_switch h
    have hran := (chargeSwitch_ran (hsame₁.currentThread.symm ▸ hne) now).before hsame₁
    exact (hran.switch nextThread).other _ hzero (.inr rfl)

/-- No operation changes the `runtime` of `idle_thread`. -/
theorem IdleInv.runtime (h : IdleInv awake k E) (hr : Refers k op) (he : Kernel.exec op k = some k') :
    (k'.threads k.idleThread).runtime = (k.threads k.idleThread).runtime := by
  have hzero : k.idleThread ≠ 0 := (h.queues.addresses _ h.unreaped).1
  cases op with
  | create t w e =>
    cases he
    have hne : k.idleThread ≠ t := fun heq => hr.1 (heq ▸ h.unreaped)
    exact createThread_keeps (f := Thread.runtime) (fun _ _ => rfl) hne w e k
  | overwrite t p next prev =>
    cases he
    have hne : k.idleThread ≠ t := fun heq => hr (heq ▸ h.unreaped)
    exact congrArg Thread.runtime (overwrite_threads hne p next prev k)
  | wakeUp t =>
    cases he
    exact runtime_wakeUpThread k t _
  | sleep t =>
    cases he
    exact runtime_sleepThread k t _
  | stop t =>
    cases he
    unfold stopThread
    split
    · rfl
    · exact runtime_setState k t .stopped _
  | childAwoken pid =>
    cases he
    exact runtime_childAwoken pid k _
  | kill t =>
    cases he
    exact Keeps.killProcess (f := Thread.runtime) (fun _ _ => rfl) (fun _ _ => rfl) k t _
  | exit retCode =>
    cases he
    have hkill := Keeps.killProcess (f := Thread.runtime) (fun _ _ => rfl) (fun _ _ => rfl) k
      k.currentThread
    have hexit : Keeps Thread.runtime (killProcess k.currentThread k) (sysExit retCode k) :=
      Keeps.modify _ k.currentThread fun _ => rfl
    exact hkill.trans hexit _
  | sysKill pid signal =>
    cases he
    unfold sysKill
    cases getThread pid k with
    | none => rfl
    | some t => exact Keeps.deliver (f := Thread.runtime) (fun _ _ => rfl) k t signal _
  | wait4 pid =>
    cases he
    exact runtime_sysWait4 pid k _
  | wait4Done p =>
    cases he
    exact runtime_sysWait4Done p k _
  | wait4all =>
    cases he
    exact runtime_sysWait4all k _
  | wait4allDone =>
    cases he
    exact runtime_sysWait4allDone k _
  | sleepMs ms =>
    cases he
    exact runtime_sleepThread _ _ _
  | signals t =>
    cases he
    exact (SameClocks.signals k t).runtime _
  | timers =>
    cases he
    exact keeps_wakeUpTimers (f := Thread.runtime) (fun _ _ => rfl) k _
  | reschedule now =>
    -- the two operations that charge a thread spare `idle_thread`
    obtain ⟨switched, hrun⟩ := after_eq_some.mp he
    exact runtime_reschedule hzero hrun
  | tick now =>
    obtain ⟨next, hrun⟩ := after_eq_some.mp he
    exact runtime_schedulerHandler hzero hrun
  | exterminate =>
    have he : Proc.exterminate k = some k' := he
    rw [(exterminate_spec h.queues).1] at he
    cases he
    exact foldl_reap_keeps (g := Thread.runtime) (fun _ _ => rfl) _ k _
  | getLock l =>
    cases he
    exact runtime_getLock l k _
  | unlock l => exact runtime_wakeWaiters (k := freeLock l k) he _

theorem IdleInv.idleThread (h : IdleInv awake k E) (hr : Refers k op)
    (he : Kernel.exec op k = some k') : k'.idleThread = k.idleThread := by
  by_cases hlife : op.Lifetime
  · cases op with
    | create t w e =>
      cases he
      obtain ⟨-, -, -, -, hidle, -⟩ := createThread_fixed t w e k
      exact hidle
    | overwrite t p next prev =>
      cases he
      rfl
    | exterminate =>
      have he : Proc.exterminate k = some k' := he
      rw [(exterminate_spec h.queues).1] at he
      cases he
      exact foldl_reap_idleThread _ k
    | _ => exact hlife.elim
  · exact (exec_moves h.queues hr hlife he).idleThread

/-- `idle_thread` keeps the `UINT64_MAX` that `init` gave it. -/
theorem ThreadReach.idleRuntime {allowed : Machine → ThreadOp → Prop} (h : ThreadReach allowed k) :
    (k.threads k.idleThread).runtime = 2 ^ 64 - 1 := by
  induction h with
  | @init t u w e k hb _ hu hne hlt =>
    have hidle : (initIdle u w e k).idleThread = u := rfl
    rw [hidle]
    simp [initIdle, Machine.modify]
  | step hreach hs ih =>
    obtain ⟨E, hi⟩ := hreach.idleInv
    obtain ⟨op, -, hr, he⟩ := hs
    rw [hi.idleThread hr he, hi.runtime hr he, ih]

end Idle

/-- The thread that `pick_next_thread` chooses, and the one field that it writes. -/
theorem pick_next_thread_choice {k : Machine} {ts : List ℕ}
    (hcarries : Carries k.queues (.queue .running) (ts.map QueueNode.head)) (hne : ts ≠ [])
    (hlen : ts.length < 2 ^ 24) (hnull : 0 ∉ ts) (hnice : ∀ t ∈ ts, niceOf k t < 2 ^ 8)
    (hruntime : ∀ t ∈ ts, runtimeOf k t < 2 ^ 64) :
    (∃ next, FirstLeast k ts next ∧
      pickNextThread k = .ok next (k.modify next fun p =>
        { p with timeslice := millisToTicks (sliceMs k ts next) }) ∧
      2 ≤ millisToTicks (sliceMs k ts next) ∧ millisToTicks (sliceMs k ts next) ≤ 3020 ∧
      NoWrap k ts next ∧
      (runtimeOf k k.idleThread = 2 ^ 64 - 1 → next = k.idleThread →
        ∀ t ∈ ts, runtimeOf k t = 2 ^ 64 - 1)) ∧
    (ThreadReach anyOp k → runtimeOf k k.idleThread = 2 ^ 64 - 1) := by
  refine ⟨?_, ThreadReach.idleRuntime⟩
  obtain ⟨next, hfirst, hpick⟩ := pickNextThread_eq hcarries hne hlen hnull hnice
  obtain ⟨hlow, hhigh⟩ := millisToTicks_sliceMs next hnice
  refine ⟨next, hfirst, hpick, hlow, hhigh, noWrap hlen hnice hfirst.mem, fun hidle heq t ht => ?_⟩
  have hle := hfirst.le ht
  rw [heq, hidle] at hle
  have hword := hruntime t ht
  omega

def idleWoken : Machine := wakeUpThread 0x2000 started

theorem idleWoken_carries :
    Carries idleWoken.queues (.queue .running) ([0x1000, 0x2000].map QueueNode.head) :=
  ⟨⟨by decide +kernel, by decide +kernel, by decide +kernel, by decide +kernel⟩, by decide⟩

theorem pick_next_thread_choice_idleWoken :
    (∃ next, FirstLeast idleWoken [0x1000, 0x2000] next ∧
      pickNextThread idleWoken = .ok next (idleWoken.modify next fun p =>
        { p with timeslice := millisToTicks (sliceMs idleWoken [0x1000, 0x2000] next) }) ∧
      2 ≤ millisToTicks (sliceMs idleWoken [0x1000, 0x2000] next) ∧
      millisToTicks (sliceMs idleWoken [0x1000, 0x2000] next) ≤ 3020 ∧
      NoWrap idleWoken [0x1000, 0x2000] next ∧
      (runtimeOf idleWoken idleWoken.idleThread = 2 ^ 64 - 1 → next = idleWoken.idleThread →
        ∀ t ∈ [0x1000, 0x2000], runtimeOf idleWoken t = 2 ^ 64 - 1)) ∧
    runtimeOf idleWoken idleWoken.idleThread = 2 ^ 64 - 1 := by
  have hreach : ThreadReach anyOp idleWoken := by
    refine .step (started_reach anyOp) ⟨.wakeUp 0x2000, trivial, ?_, rfl⟩
    have hin : 0x2000 ∈ started.allocated := by decide +kernel
    exact hin
  have h := pick_next_thread_choice idleWoken_carries (by decide) (by decide) (by decide)
    (by decide +kernel) (by decide +kernel)
  exact ⟨h.1, h.2 hreach⟩

end X86Osdev.Kernel

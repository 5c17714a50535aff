import X86Osdev.Lock.WaitQueues

/-! When a free lock leaves a thread asleep in `get_lock`: the release between the failed test of that
thread and its sleep. -/

namespace X86Osdev.Lock
open CircularList X86Osdev.Mem X86Osdev.Proc X86Osdev.Kernel

/-- Between its release of `l` and its wake-ups, or woken and about to test `l` again. -/
def Rescuer (s : LockRun) (l u : ℕ) : Prop :=
  s.pc u = .dequeue l ∨ (s.pc u = .resched l ∧ OnQueue s.k .running u)

/-- When `unlock(l)` finds no waiting thread, no thread stands between its failed test of `l` and the
linking, unless the lock has been taken again or somebody else will come to wake that thread. -/
def Unraced (s : LockRun) : LockEvent → Prop
  | .step t _ => ∀ l, s.pc t = .dequeue l → takenBy l s.k = [] → (∃ u, s.pc u = .link l) →
    (s.k.locks l).locked = true ∨ ∃ u, u ≠ t ∧ Rescuer s l u
  | _ => True

def LockCall (_ : LockRun) (ev : LockEvent) : Prop := ∃ t request, ev = .step t request

def UnracedCall (s : LockRun) (ev : LockEvent) : Prop := LockCall s ev ∧ Orderly s ev ∧ Unraced s ev

/-- Whoever waits for `l` while it is free will be woken. -/
def Covered (s : LockRun) (E : Queue → List ℕ) (W : ℕ → List ℕ) (l : ℕ) : Prop :=
  (s.k.locks l).locked = false → (∃ u, s.pc u = .link l ∨ u ∈ W l) →
    ∃ u, s.pc u = .dequeue l ∨ (s.pc u = .resched l ∧ u ∉ E .sleep)

section Steps
variable {s s' : LockRun} {E : Queue → List ℕ} {W : ℕ → List ℕ} {t l : ℕ}

theorem LockInv.rescuer_iff (h : LockInv s E W) {u : ℕ} :
    Rescuer s l u ↔ s.pc u = .dequeue l ∨ (s.pc u = .resched l ∧ u ∉ E .sleep) := by
  unfold Rescuer
  rw [onQueue_iff h.queues]
  constructor
  · rintro (h' | ⟨hpc, hr⟩)
    · exact .inl h'
    · exact .inr ⟨hpc, fun hin => nomatch h.queues.queue_unique hin hr⟩
  · rintro (h' | ⟨hpc, hno⟩)
    · exact .inl h'
    · exact .inr ⟨hpc, (h.woken l u hpc).resolve_left hno⟩

theorem Covered.frame {E' : Queue → List ℕ} {W' : ℕ → List ℕ} {k : Machine} {p : LockPc}
    (h : Covered s E W l) (hpc : s.pc t ≠ .dequeue l ∧ s.pc t ≠ .resched l)
    (hfree : (k.locks l).locked = false → (s.k.locks l).locked = false)
    (hself : p = .link l ∨ t ∈ W' l → s.pc t = .link l ∨ t ∈ W l)
    (hwait : ∀ u, u ≠ t → u ∈ W' l → u ∈ W l)
    (hsleep : ∀ u, u ≠ t → u ∈ E' .sleep → u ∈ E .sleep) : Covered (s.goTo t k p) E' W' l := by
  intro hfree' hex
  have hbefore : ∃ u, s.pc u = .link l ∨ u ∈ W l := by
    obtain ⟨u, hu⟩ := hex
    by_cases hut : u = t
    · rw [hut, goTo_self] at hu
      exact ⟨t, hself hu⟩
    · rw [goTo_of_ne hut] at hu
      exact ⟨u, hu.imp id (hwait u hut)⟩
  obtain ⟨u, hu⟩ := h (hfree hfree') hbefore
  have hut : u ≠ t := by
    rintro rfl
    rcases hu with hu | hu
    · exact hpc.1 hu
    · exact hpc.2 hu.1
  refine ⟨u, ?_⟩
  rw [goTo_of_ne hut]
  exact hu.imp id fun e => ⟨e.1, fun hin => e.2 (hsleep u hut hin)⟩

theorem Covered.test (h : ∀ j, Covered s E W j)
    (hpc : ∀ j, j ≠ l → s.pc t ≠ .dequeue j ∧ s.pc t ≠ .resched j) (hout : ∀ j, t ∉ W j) (j : ℕ) :
    Covered (s.test t l { s.k with currentThread := t }) E W j := by
  have key : ∀ (k : Machine) (p : LockPc), ((k.locks j).locked = if j = l then true else
      (s.k.locks j).locked) → (j ≠ l → p ≠ .link j) → Covered (s.goTo t k p) E W j := by
    intro k p hlocks hp
    by_cases hj : j = l
    · intro hfree
      rw [goTo_k, hlocks, if_pos hj] at hfree
      cases hfree
    · rw [if_neg hj] at hlocks
      refine (h j).frame (hpc j hj) (fun e => hlocks ▸ e) (fun e => ?_) (fun _ _ hu => hu) fun _ _ hu => hu
      exact (e.elim (hp hj) (hout j)).elim
  cases hlocked : (({ s.k with currentThread := t } : Machine).locks l).locked with
  | true =>
    rw [test_locked hlocked]
    refine key _ _ (locks_testLock l j _) fun hj e => hj ?_
    exact (LockPc.link.inj e).symm
  | false =>
    rw [test_free hlocked]
    refine key _ _ ?_ fun _ e => nomatch e
    rw [locks_setOwner]
    exact locks_testLock l j _

theorem Covered.dequeue {E' : Queue → List ℕ} {W' : ℕ → List ℕ} {k : Machine} (hi : LockInv s E W)
    (h : ∀ j, Covered s E W j) (hpc : s.pc t = .dequeue l)
    (hasleep : ∀ u ∈ takenBy l s.k, s.pc u ≠ .sleep l)
    (hraced : takenBy l s.k = [] → (∃ u, s.pc u = .link l) →
      (s.k.locks l).locked = true ∨ ∃ u, u ≠ t ∧ Rescuer s l u)
    (hlocks : k.locks = s.k.locks) (hsleep : ∀ u, u ∈ E' .sleep ↔ u ∉ takenBy l s.k ∧ u ∈ E .sleep)
    (hmem : ∀ j u, u ∈ W' j ↔ u ∈ W j ∧ (j = l → u ∉ takenBy l s.k))
    (htaken : ∀ u ∈ takenBy l s.k, u ∈ W l) (hnil : takenBy l s.k = [] → W l = []) (j : ℕ) :
    Covered (s.goTo t k .outside) E' W' j := by
  have hout : t ∉ W j := hi.not_waiting (by simp [hpc]) (by simp [hpc]) j
  by_cases hj : j = l
  · subst hj
    intro hfree hex
    rw [goTo_k, hlocks] at hfree
    cases hts : takenBy j s.k with
    | cons w ws =>
      -- the first thread that is taken tests the lock again
      have hw : w ∈ takenBy j s.k := hts ▸ List.mem_cons_self ..
      have hwpc : s.pc w = .resched j :=
        (((hi.blocked j w).mp (htaken w hw)).resolve_left (hasleep w hw)).1
      have hwt : w ≠ t := by
        rintro rfl
        rw [hpc] at hwpc
        cases hwpc
      refine ⟨w, .inr ?_⟩
      rw [goTo_of_ne hwt, hsleep]
      exact ⟨hwpc, fun e => e.1 hw⟩
    | nil =>
      obtain ⟨u, hu⟩ := hex
      have hnone : u ∉ W' j := by
        rw [hmem, hnil hts]
        exact fun e => nomatch e.1
      have hlink := hu.resolve_right hnone
      have hut : u ≠ t := by
        rintro rfl
        rw [goTo_self] at hlink
        cases hlink
      rw [goTo_of_ne hut] at hlink
      rcases hraced hts ⟨u, hlink⟩ with hlocked | ⟨w, hwt, hw⟩
      · rw [hfree] at hlocked
        cases hlocked
      · rw [hi.rescuer_iff] at hw
        refine ⟨w, ?_⟩
        rw [goTo_of_ne hwt, hsleep]
        exact hw.imp id fun e => ⟨e.1, fun hin => e.2 hin.2⟩
  · refine (h j).frame ?_ (fun e => hlocks ▸ e) (fun e => ?_) (fun u _ hu => ((hmem j u).mp hu).1)
      fun u _ hu => ((hsleep u).mp hu).2
    · rw [hpc]
      exact ⟨fun e => hj (LockPc.dequeue.inj e).symm, fun e => nomatch e⟩
    · rcases e with e | e
      · cases e
      · exact .inr ((hmem j t).mp e).1

theorem Covered.step {ev : LockEvent} (hi : LockInv s E W) (h : ∀ j, Covered s E W j)
    (hen : Enabled s ev) (hok : UnracedCall s ev) (hs : lockStep ev s = some s') :
    ∃ E' W', LockInv s' E' W' ∧ ∀ j, Covered s' E' W' j := by
  obtain ⟨⟨t, request, rfl⟩, horder, hraced⟩ := hok
  obtain ⟨ht, hrun⟩ := hen
  have hs : threadStep t request s = some s' := hs
  rw [threadStep_eq] at hs
  cases hpc : s.pc t with
  | outside =>
    have hout := hi.not_waiting (t := t) (by simp [hpc]) (by simp [hpc])
    rw [hpc] at hs
    cases request with
    | getLock l =>
      cases hs
      exact ⟨E, W, hi.test hout l, Covered.test h (by simp [hpc]) hout⟩
    | unlock l =>
      cases hs
      refine ⟨E, W, hi.goTo hout rfl rfl rfl rfl (fun _ e => nomatch e) (fun _ e => nomatch e), fun j => ?_⟩
      by_cases hj : j = l
      · -- the releasing thread itself is now the one that will wake the sleepers
        exact fun _ _ => ⟨t, .inl (by rw [goTo_self, hj])⟩
      · refine (h j).frame (by simp [hpc]) (fun e => ?_) (fun e => ?_) (fun _ _ hu => hu) fun _ _ hu => hu
        · exact (congrArg Proc.Lock.locked (Function.update_of_ne hj _ _).symm).trans e
        · exact (e.elim (fun e => nomatch e) (hout j)).elim
  | link l =>
    rw [hpc] at hs
    cases hs
    obtain ⟨W', hi', hmem⟩ := hi.link hpc ht
    refine ⟨E, W', hi', fun j => (h j).frame (by simp [hpc]) (fun e => ?_) (fun e => ?_)
      (fun u hut hu => ?_) fun _ _ hu => hu⟩
    · unfold linkWaiter at e
      split at e
      · exact e
      · exact e
    · rcases e with e | e
      · cases e
      · rcases (hmem j t).mp e with e | ⟨rfl, _⟩
        · exact .inr e
        · exact .inl hpc
    · exact ((hmem j u).mp hu).resolve_right fun e => hut e.2
  | sleep l =>
    rw [hpc] at hs
    cases hs
    refine ⟨_, W, hi.sleep hpc ht (horder.1 l hpc), fun j => (h j).frame (by simp [hpc]) (fun e => ?_)
      (fun e => ?_) (fun _ _ hu => hu) fun u hut hu => ?_⟩
    · unfold sleepThread at e
      split at e
      · exact e
      · exact e
    · exact .inr (e.resolve_left fun e => nomatch e)
    · exact (((mem_movedHead (hi.queues.nodup_queue .sleep)).mp hu).resolve_left fun e => hut e.1).2
  | resched l =>
    rw [hpc] at hs
    cases hs
    have hawake := hi.running (hrun l hpc)
    have hout := hi.not_waiting (by simp [hpc]) fun _ _ => hawake
    refine ⟨E, W, hi.test hout l, Covered.test h (fun j hj => ?_) hout⟩
    rw [hpc]
    exact ⟨fun e => (nomatch e), fun e => hj (LockPc.resched.inj e).symm⟩
  | dequeue l =>
    rw [hpc] at hs
    obtain ⟨k', E', W', hwake, hi', hlocks, hsleep, hmem, htaken, hnil⟩ := hi.dequeue hpc (horder.2 l hpc)
    simp only [hwake, Option.map_some] at hs
    cases hs
    exact ⟨E', W', hi', Covered.dequeue hi h hpc (horder.2 l hpc) (hraced l hpc) hlocks hsleep hmem
      htaken hnil⟩

end Steps

/-- A thread asleep for a free lock will be woken: somebody stands between release and wake-ups, or has been
woken and will test the lock again. -/
theorem no_lost_wakeup {s : LockRun} {l t : ℕ} (h : LockReach UnracedCall s)
    (hfree : (s.k.locks l).locked = false) (hasleep : Asleep s l t) : ∃ u, u ≠ t ∧ Rescuer s l u := by
  obtain ⟨k₀, h₀, hrun⟩ := h
  have hinv : ∃ E W, LockInv s E W ∧ ∀ j, Covered s E W j := by
    clear hfree hasleep
    induction hrun with
    | refl =>
      obtain ⟨E, hi⟩ := h₀.inv
      refine ⟨E, _, hi, fun l _ hwait => ?_⟩
      obtain ⟨u, hu | hu⟩ := hwait
      · cases hu
      · cases hu
    | tail _ hs ih =>
      obtain ⟨E, W, hi, hc⟩ := ih
      obtain ⟨ev, hev, hen, hs⟩ := hs
      exact Covered.step hi hc hen hev hs
  obtain ⟨E, W, hi, hc⟩ := hinv
  have hasleep' := hi.asleep_iff.mp hasleep
  obtain ⟨u, hu⟩ := hc l hfree ⟨t, .inr ((hi.blocked l t).mpr (.inr hasleep'))⟩
  refine ⟨u, ?_, hi.rescuer_iff.mpr hu⟩
  rintro rfl
  rcases hu with hu | hu
  · rw [hasleep'.1] at hu
    cases hu
  · exact hu.2 hasleep'.2

theorem unracedCall_of_check {s : LockRun} {ev : LockEvent} (h : orderlyCheck s ev = true) :
    UnracedCall s ev := by
  cases ev with
  | wakeUp t => cases h
  | childAwoken pid => cases h
  | step t request =>
    refine ⟨⟨t, request, rfl⟩, orderlyCheck_spec h, fun l hpc => ?_⟩
    unfold orderlyCheck at h
    dsimp only at h
    rw [hpc] at h
    cases h

/-- The first thread gives lock 0 back while the second is asleep for it. -/
def released : LockRun :=
  (runEvents orderlyCheck (secondBlocks ++ [.step 0x3000 (.unlock 0)])
    ⟨readyMachine, fun _ => .outside⟩).getD ⟨readyMachine, fun _ => .outside⟩

theorem no_lost_wakeup_released : ∃ u, u ≠ 0x4000 ∧ Rescuer released 0 u := by
  have hstart : LockReach UnracedCall ⟨readyMachine, fun _ => .outside⟩ := ⟨_, readyMachine_ready, .refl⟩
  have hrun : runEvents orderlyCheck (secondBlocks ++ [.step 0x3000 (.unlock 0)])
      ⟨readyMachine, fun _ => .outside⟩ = some released := runEvents_getD (by decide +kernel)
  have hreach := hstart.run (fun _ _ => unracedCall_of_check) hrun
  exact no_lost_wakeup hreach (by decide +kernel) ⟨by decide +kernel, 1, by decide +kernel⟩

/-- The first thread's whole `unlock` falls between the failed test of the second and its sleep. -/
def racedEvents : List LockEvent :=
  [.step 0x3000 (.getLock 0), .step 0x4000 (.getLock 0), .step 0x3000 (.unlock 0),
    .step 0x3000 (.unlock 0), .step 0x4000 (.getLock 0), .step 0x4000 (.getLock 0)]

def callCheck (_ : LockRun) : LockEvent → Bool
  | .step _ _ => true
  | _ => false

def raced : LockRun :=
  (runEvents callCheck racedEvents ⟨readyMachine, fun _ => .outside⟩).getD
    ⟨readyMachine, fun _ => .outside⟩

/-- The second thread is asleep for a free lock, and nobody will wake it. -/
theorem wakeup_lost : LockReach LockCall raced ∧ (raced.k.locks 0).locked = false ∧
    Asleep raced 0 0x4000 ∧ ¬ ∃ u, u ≠ 0x4000 ∧ Rescuer raced 0 u := by
  have hstart : LockReach LockCall ⟨readyMachine, fun _ => .outside⟩ := ⟨_, readyMachine_ready, .refl⟩
  have hrun : runEvents callCheck racedEvents ⟨readyMachine, fun _ => .outside⟩ = some raced :=
    runEvents_getD (by decide +kernel)
  have hreach : LockReach LockCall raced := hstart.run (fun s ev h => by
    cases ev with
    | step t request => exact ⟨t, request, rfl⟩
    | wakeUp t => cases h
    | childAwoken pid => cases h) hrun
  refine ⟨hreach, by decide +kernel, ⟨by decide +kernel, 1, by decide +kernel⟩, ?_⟩
  rintro ⟨u, hne, hu⟩
  have hpc : raced.pc u = .outside := by
    by_cases hu3 : u = 0x3000
    · subst hu3
      decide +kernel
    · refine runEvents_pc (fun ev hev request e => ?_) hrun
      subst e
      simp only [racedEvents, List.mem_cons, LockEvent.step.injEq, List.not_mem_nil, or_false] at hev
      omega
  rcases hu with hu | ⟨hu, _⟩
  · rw [hpc] at hu
    cases hu
  · rw [hpc] at hu
    cases hu

end X86Osdev.Lock

import X86Osdev.Lock.DeadOwner

/-! The locks of the memory functions exclude each other's holders, with preemption and signals at any point. -/

namespace X86Osdev.Lock
open CircularList X86Osdev.Mem X86Osdev.Proc X86Osdev.Kernel

/-- Thread `t` is between the `test_lock` that found `l` free and `_free_lock` in `unlock(l)`. -/
def Has (s : LockUsers) (t l : ℕ) : Prop :=
  (∃ rs, s.pc t = .own l rs) ∨ (∃ rs, s.pc t = .next (.unlock l :: rs)) ∨ ∃ rs, s.pc t = .free l rs

inductive Paired : List Request → Prop
  | nil : Paired []
  | last (l : ℕ) : Paired [.getLock l]
  | pair (l : ℕ) {rs : List Request} (h : Paired rs) : Paired (.getLock l :: .unlock l :: rs)

/-- What comes after `get_lock(l)`. -/
def Rest (l : ℕ) (rs : List Request) : Prop := rs = [] ∨ ∃ rs', rs = .unlock l :: rs' ∧ Paired rs'

def PcPaired : UserPc → Prop
  | .next rs => Paired rs ∨ ∃ l rs', rs = .unlock l :: rs' ∧ Paired rs'
  | .own l rs => Rest l rs
  | .link l rs => Rest l rs
  | .sleep l rs => Rest l rs
  | .resched l rs => Rest l rs
  | .charge _ l rs => Rest l rs
  | .signals _ _ l rs => Rest l rs
  | .free _ rs => Paired rs
  | .dequeue _ rs => Paired rs
  | .unlink _ _ rs => Paired rs
  | .wake _ _ rs => Paired rs

structure Exclusive (s : LockUsers) : Prop where
  paired : ∀ t, PcPaired (s.pc t)
  has : ∀ t l, Has s t l → (s.k.locks l).locked = true ∧ s.holder l = t
  owner : ∀ t l rs, s.pc t = .next (.unlock l :: rs) → (s.k.locks l).owner = t

section Calls
variable {l : ℕ} {rs : List Request}

theorem MemCall.paired (c : MemCall) : Paired c.requests := by
  have hpage : Paired pageRequests := .pair _ .nil
  have hslab : Paired slabRequests := .pair _ .nil
  cases c with
  | kallocPage => exact hpage
  | kfreePage ptr =>
    simp only [MemCall.requests]
    split
    · exact .nil
    · exact hpage
  | salloc outNull =>
    simp only [MemCall.requests]
    split
    · exact .last _
    · exact hslab
  | sfree => exact hslab
  | createSlab noSleep =>
    simp only [MemCall.requests]
    split
    · exact hslab
    · exact .pair _ hslab

theorem Paired.rest (h : Paired (.getLock l :: rs)) : Rest l rs := by
  cases h with
  | last => exact .inl rfl
  | pair _ h => exact .inr ⟨_, rfl, h⟩

theorem Rest.getLock (h : Rest l rs) : Paired (.getLock l :: rs) := by
  rcases h with rfl | ⟨rs', rfl, h⟩
  · exact .last l
  · exact .pair l h

theorem Rest.next (h : Rest l rs) : PcPaired (.next rs) := by
  rcases h with rfl | ⟨rs', rfl, h⟩
  · exact .inl .nil
  · exact .inr ⟨l, rs', rfl, h⟩

theorem Paired.not_unlock (h : Paired rs) (j : ℕ) (rs' : List Request) : rs ≠ .unlock j :: rs' := by
  cases h <;> simp

theorem PcPaired.getLock (h : PcPaired (.next (.getLock l :: rs))) : Rest l rs := by
  rcases h with h | ⟨j, rs', h, -⟩
  · exact h.rest
  · cases h

theorem PcPaired.unlock (h : PcPaired (.next (.unlock l :: rs))) : Paired rs := by
  rcases h with h | ⟨j, rs', h, hp⟩
  · exact absurd rfl (h.not_unlock l rs)
  · cases h
    exact hp

end Calls

section Steps
variable {s s' : LockUsers} {k' : Machine} {t u l j : ℕ} {pc : UserPc} {rs : List Request}

def Bare : UserPc → Prop
  | .own _ _ | .free _ _ => False
  | .next rs => Paired rs
  | _ => True

theorem Bare.not_has (h : Bare pc) :
    (∀ l rs, pc ≠ .own l rs) ∧ (∀ l rs, pc ≠ .next (.unlock l :: rs)) ∧ ∀ l rs, pc ≠ .free l rs := by
  cases pc with
  | next rs =>
    exact ⟨fun _ _ => nofun, fun l rs' he => Paired.not_unlock h l rs' (UserPc.next.inj he), fun _ _ => nofun⟩
  | own l rs => exact h.elim
  | free l rs => exact h.elim
  | _ => exact ⟨fun _ _ => nofun, fun _ _ => nofun, fun _ _ => nofun⟩

theorem has_goTo_of_ne {holder : ℕ → ℕ} (hu : u ≠ t) :
    Has ⟨k', Function.update s.pc t pc, holder⟩ u l ↔ Has s u l := by
  simp [Has, Function.update_of_ne hu]

theorem not_has_of_bare {holder : ℕ → ℕ} (hbare : Bare pc) : ¬ Has ⟨k', Function.update s.pc t pc, holder⟩ t l := by
  obtain ⟨hown, hnext, hfree⟩ := hbare.not_has
  rintro (⟨rs, h⟩ | ⟨rs, h⟩ | ⟨rs, h⟩)
  · exact hown l rs (by simpa using h)
  · exact hnext l rs (by simpa using h)
  · exact hfree l rs (by simpa using h)

theorem Exclusive.pcs (h : Exclusive s) (hpc : PcPaired pc) (u : ℕ) : PcPaired (Function.update s.pc t pc u) := by
  by_cases hu : u = t
  · subst hu
    simpa using hpc
  · simpa [Function.update_of_ne hu] using h.paired u

theorem Exclusive.bare (h : Exclusive s) (hpc : PcPaired pc) (hbare : Bare pc)
    (hlocks : ∀ u ≠ t, ∀ l, Has s u l → (k'.locks l).locked = true ∧ (k'.locks l).owner = (s.k.locks l).owner) :
    Exclusive ⟨k', Function.update s.pc t pc, s.holder⟩ := by
  refine ⟨h.pcs hpc, fun u l hhas => ?_, fun u l rs hnext => ?_⟩
  · by_cases hu : u = t
    · subst hu
      exact absurd hhas (not_has_of_bare hbare)
    · have hs := (has_goTo_of_ne hu).mp hhas
      exact ⟨(hlocks u hu l hs).1, (h.has u l hs).2⟩
  · by_cases hu : u = t
    · subst hu
      exact absurd (by simpa using hnext) (hbare.not_has.2.1 l rs)
    · have hs : s.pc u = .next (.unlock l :: rs) := by simpa [Function.update_of_ne hu] using hnext
      exact ((hlocks u hu l (.inr (.inl ⟨rs, hs⟩))).2).trans (h.owner u l rs hs)

theorem Exclusive.kept (h : Exclusive s) (hlocks : k'.locks = s.k.locks) :
    ∀ u ≠ t, ∀ l, Has s u l → (k'.locks l).locked = true ∧ (k'.locks l).owner = (s.k.locks l).owner := by
  intro u _ l hhas
  rw [hlocks]
  exact ⟨(h.has u l hhas).1, rfl⟩

theorem owner_testLock (l j : ℕ) (k : Machine) : ((testLock l k).2.locks j).owner = (k.locks j).owner := by
  unfold testLock
  by_cases hj : j = l
  · subst hj
    simp
  · simp [Function.update_of_ne hj]

theorem Exclusive.tested (h : Exclusive s) (l : ℕ) : ∀ u ≠ t, ∀ j, Has s u j →
    (((testLock l s.k).2).locks j).locked = true ∧ ((testLock l s.k).2.locks j).owner = (s.k.locks j).owner := by
  intro u _ j hhas
  refine ⟨?_, owner_testLock l j s.k⟩
  rw [locks_testLock]
  split
  · rfl
  · exact (h.has u j hhas).1

theorem Exclusive.freed (h : Exclusive s) (ht : Has s t l) : ∀ u ≠ t, ∀ j, Has s u j →
    ((freeLock l s.k).locks j).locked = true ∧ ((freeLock l s.k).locks j).owner = (s.k.locks j).owner := by
  intro u hu j hhas
  have hj : j ≠ l := by
    rintro rfl
    exact hu ((h.has u j hhas).2.symm.trans (h.has t j ht).2)
  simp only [freeLock, Function.update_of_ne hj]
  exact ⟨(h.has u j hhas).1, trivial⟩

theorem Exclusive.acquire (h : Exclusive s) (hfree : (s.k.locks l).locked = false) (hrest : Rest l rs) :
    Exclusive ⟨(testLock l s.k).2, Function.update s.pc t (.own l rs), Function.update s.holder l t⟩ := by
  have hnone : ∀ u, ¬ Has s u l := fun u hu => by
    have hlocked := (h.has u l hu).1
    rw [hfree] at hlocked
    cases hlocked
  refine ⟨h.pcs hrest, fun u j hhas => ?_, fun u j rs' hnext => ?_⟩
  · by_cases hu : u = t
    · subst hu
      have hj : j = l := by
        rcases hhas with ⟨rs', hown⟩ | ⟨rs', hnext⟩ | ⟨rs', hfree'⟩
        · have hpc : UserPc.own l rs = .own j rs' := by simpa using hown
          cases hpc
          rfl
        · simp at hnext
        · simp at hfree'
      subst hj
      exact ⟨by rw [locks_testLock, if_pos rfl], by simp⟩
    · have hs := (has_goTo_of_ne hu).mp hhas
      have hj : j ≠ l := by
        rintro rfl
        exact hnone u hs
      obtain ⟨hlocked, hholder⟩ := h.has u j hs
      refine ⟨by rw [locks_testLock, if_neg hj, hlocked], ?_⟩
      simpa [Function.update_of_ne hj] using hholder
  · by_cases hu : u = t
    · subst hu
      simp at hnext
    · have hs : s.pc u = .next (.unlock j :: rs') := by simpa [Function.update_of_ne hu] using hnext
      rw [owner_testLock]
      exact h.owner u j rs' hs

theorem Exclusive.own (h : Exclusive s) (hpc : s.pc t = .own l rs) :
    Exclusive ⟨setOwner l t s.k, Function.update s.pc t (.next rs), s.holder⟩ := by
  have hrest : Rest l rs := by simpa [hpc, PcPaired] using h.paired t
  obtain ⟨hlocked, hholder⟩ := h.has t l (.inl ⟨rs, hpc⟩)
  have hself : ∀ j rs', (UserPc.next rs : UserPc) = .next (.unlock j :: rs') → j = l := by
    rintro j rs' he
    rcases hrest with rfl | ⟨rs'', rfl, -⟩
    · cases he
    · cases he
      rfl
  refine ⟨h.pcs hrest.next, fun u j hhas => ?_, fun u j rs' hnext => ?_⟩
  · rw [locks_setOwner]
    by_cases hu : u = t
    · subst hu
      have hj : j = l := by
        rcases hhas with ⟨rs', hown⟩ | ⟨rs', hnext⟩ | ⟨rs', hfree⟩
        · simp at hown
        · exact hself j rs' (by simpa using hnext)
        · simp at hfree
      subst hj
      exact ⟨hlocked, hholder⟩
    · exact h.has u j ((has_goTo_of_ne hu).mp hhas)
  · by_cases hu : u = t
    · subst hu
      obtain rfl := hself j rs' (by simpa using hnext)
      simp [setOwner]
    · have hs : s.pc u = .next (.unlock j :: rs') := by simpa [Function.update_of_ne hu] using hnext
      have hj : j ≠ l := by
        rintro rfl
        exact hu ((h.has u j (.inr (.inl ⟨rs', hs⟩))).2.symm.trans hholder)
      simpa [setOwner, Function.update_of_ne hj] using h.owner u j rs' hs

theorem Exclusive.disown (h : Exclusive s) (hpc : s.pc t = .next (.unlock l :: rs)) :
    Exclusive ⟨setOwner l 0 s.k, Function.update s.pc t (.free l rs), s.holder⟩ := by
  have hpaired : Paired rs := by
    have ht := h.paired t
    rw [hpc] at ht
    exact ht.unlock
  obtain ⟨hlocked, hholder⟩ := h.has t l (.inr (.inl ⟨rs, hpc⟩))
  refine ⟨h.pcs hpaired, fun u j hhas => ?_, fun u j rs' hnext => ?_⟩
  · rw [locks_setOwner]
    by_cases hu : u = t
    · subst hu
      have hj : j = l := by
        rcases hhas with ⟨rs', hown⟩ | ⟨rs', hnext⟩ | ⟨rs', hfree⟩
        · simp at hown
        · simp at hnext
        · have he : UserPc.free l rs = .free j rs' := by simpa using hfree
          cases he
          rfl
      subst hj
      exact ⟨hlocked, hholder⟩
    · exact h.has u j ((has_goTo_of_ne hu).mp hhas)
  · by_cases hu : u = t
    · subst hu
      simp at hnext
    · have hs : s.pc u = .next (.unlock j :: rs') := by simpa [Function.update_of_ne hu] using hnext
      have hj : j ≠ l := by
        rintro rfl
        exact hu ((h.has u j (.inr (.inl ⟨rs', hs⟩))).2.symm.trans hholder)
      simpa [setOwner, Function.update_of_ne hj] using h.owner u j rs' hs

theorem schedulerHandler_locks {now : ℕ} {next : Option ℕ} (h : schedulerHandler now s.k = .ok next k') :
    k'.locks = s.k.locks := by
  have hframe := Frame.timersRun s.k
  rcases schedulerHandler_ok h with ⟨-, rfl | ⟨k₁, hpick, rfl⟩⟩ | ⟨nextThread, k₁, -, hpick, rfl⟩
  · exact (hframe.trans (Frame.noResched now _)).locks
  · exact (hframe.trans ((Frame.pickNextThread hpick).trans (Frame.noResched now k₁))).locks
  · exact (hframe.trans ((Frame.pickNextThread hpick).trans (Frame.chargeSwitch now nextThread k₁))).locks

theorem Exclusive.outside (h : Exclusive s) (hlocks : k'.locks = s.k.locks) : Exclusive ⟨k', s.pc, s.holder⟩ := by
  refine ⟨h.paired, fun u l hhas => ?_, fun u l rs hnext => ?_⟩
  · rw [hlocks]
    exact h.has u l hhas
  · rw [hlocks]
    exact h.owner u l rs hnext

theorem Exclusive.next {now : ℕ} (h : Exclusive s) (hs : userNext now s = some s') : Exclusive s' := by
  have hpc := h.paired s.k.currentThread
  unfold userNext at hs
  dsimp only at hs
  -- One case for each place; only `test_lock`, the two stores to `owner` and the release touch a lock.
  split at hs
  · cases hs
  · next l rs he =>
    rw [he] at hpc
    split at hs
    · cases hs
      exact h.bare hpc.getLock trivial (h.tested l)
    · next hfree =>
      cases hs
      exact h.acquire ((Bool.not_eq_true _).mp hfree) hpc.getLock
  · next l rs he =>
    cases hs
    exact h.disown he
  · next l rs he =>
    cases hs
    exact h.own he
  · next l rs he =>
    rw [he] at hpc
    cases hs
    refine h.bare hpc trivial (h.kept ?_)
    unfold linkWaiter
    split <;> rfl
  · next l rs he =>
    rw [he] at hpc
    cases hs
    exact h.bare hpc trivial (h.kept (Frame.sleepThread _ _).locks)
  · next l rs he =>
    rw [he] at hpc
    obtain ⟨⟨next, k'⟩, hpick, rfl⟩ := Option.map_eq_some_iff.mp hs
    exact h.bare hpc trivial (h.kept (Frame.pickNextThread (Outcome.toOption_eq_some.mp hpick)).locks)
  · next l rs he =>
    rw [he] at hpc
    cases hs
    exact h.bare hpc trivial (h.kept (Frame.chargeReschedule now _ _).locks)
  · next a p l rs he =>
    rw [he] at hpc
    cases hs
    exact h.bare hpc trivial (h.kept (a.exec_frame _).locks)
  · next l rs he =>
    rw [he] at hpc
    cases hs
    exact h.bare (.inl (Rest.getLock hpc)) (Rest.getLock hpc) (h.kept rfl)
  · next l rs he =>
    rw [he] at hpc
    cases hs
    exact h.bare hpc trivial (h.kept rfl)
  · next l rs he =>
    rw [he] at hpc
    cases hs
    exact h.bare hpc trivial (h.freed (.inr (.inr ⟨rs, he⟩)))
  · next l rs he =>
    rw [he] at hpc
    split at hs
    · cases hs
      exact h.bare (.inl hpc) hpc (h.kept rfl)
    · cases hs
      exact h.bare hpc trivial (h.kept rfl)
  · next u l rs he =>
    rw [he] at hpc
    cases hs
    exact h.bare hpc trivial (h.kept rfl)
  · next u l rs he =>
    rw [he] at hpc
    cases hs
    split
    · exact h.bare (.inl hpc) hpc (h.kept rfl)
    · exact h.bare hpc trivial (h.kept rfl)

theorem Exclusive.step {ev : UserEvent} (h : Exclusive s) (hs : userStep ev s = some s') : Exclusive s' := by
  cases ev with
  | call c =>
    unfold userStep at hs
    dsimp only at hs
    split at hs
    · cases hs
      exact h.bare (.inl c.paired) c.paired (h.kept rfl)
    · cases hs
  | step now => exact h.next hs
  | tick now =>
    obtain ⟨k', hafter, rfl⟩ := Option.map_eq_some_iff.mp hs
    obtain ⟨next, hrun⟩ := after_eq_some.mp hafter
    exact h.outside (schedulerHandler_locks hrun)
  | sysKill pid signal =>
    cases hs
    refine h.outside ?_
    unfold sysKill
    split <;> rfl

end Steps

/-- In every run of the memory functions by any threads, with timer interrupts and signals at any point, at most one
thread is between the `test_lock(l)` that found `l` free and its `_free_lock`; the lock is locked then, and its owner,
once set, is that thread until `unlock(l)`. -/
theorem mutual_exclusion {s : LockUsers} (h : UsersReach (fun _ _ => True) s) {t l : ℕ} (ht : Has s t l) :
    (∀ u, Has s u l → u = t) ∧ (s.k.locks l).locked = true ∧
      ∀ rs, s.pc t = .next (.unlock l :: rs) → (s.k.locks l).owner = t := by
  obtain ⟨k₀, h₀, hrun⟩ := h
  have hstart : Exclusive ⟨k₀, fun _ => .next [], fun _ => 0⟩ := by
    refine ⟨fun _ => .inl .nil, fun t l hhas => ?_, fun t l rs hnext => ?_⟩
    · rcases hhas with ⟨rs, h⟩ | ⟨rs, h⟩ | ⟨rs, h⟩ <;> cases h
    · cases hnext
  have hi := hrun.invariant (I := Exclusive) (fun _ _ _ hi _ hs => hi.step hs) hstart
  refine ⟨fun u hu => ?_, (hi.has t l ht).1, hi.owner t l⟩
  exact (hi.has u l hu).2.symm.trans (hi.has t l ht).2

def takenEvents : List UserEvent := [.call .kallocPage, .step 0, .sysKill 2 sigkill, .step 0]

def inside : LockUsers := (Runs.runList userStep (fun _ _ => true) takenEvents usersStart).getD usersStart

theorem mutual_exclusion_inside :
    (∀ u, Has inside u kmemLock → u = 0x3000) ∧ (inside.k.locks kmemLock).owner = 0x3000 := by
  have hrun : Runs.runList userStep (fun _ _ => true) takenEvents usersStart = some inside :=
    Runs.runList_getD (by decide +kernel)
  have hreach : UsersReach (fun _ _ => True) inside :=
    ⟨_, fatherRuns_ready, Runs.runList_steps (fun _ _ _ => trivial) hrun⟩
  have hpc : inside.pc 0x3000 = .next [.unlock kmemLock] := by with_unfolding_all rfl
  have hexclusive := mutual_exclusion hreach (.inr (.inl ⟨[], hpc⟩))
  exact ⟨hexclusive.1, hexclusive.2.2 [] hpc⟩

end X86Osdev.Lock

import X86Osdev.Proc.Moves

/-! What `handle_signals` does: only `SIGKILL` and `SIGCKO` have an effect, in this order. -/

namespace X86Osdev.Proc
open CircularList X86Osdev.Mem

def SigPending (t signal : ℕ) (k : Machine) : Prop :=
  (k.threads t).signals.pending &&& (k.threads t).signals.active &&& signal ≠ 0

instance (t signal : ℕ) (k : Machine) : Decidable (SigPending t signal k) :=
  inferInstanceAs (Decidable (_ ≠ _))

theorem and_one_shiftLeft_ne_zero (n i : ℕ) : n &&& 1 <<< i ≠ 0 ↔ n.testBit i = true := by
  rw [Nat.one_shiftLeft, Nat.and_two_pow]
  cases n.testBit i with
  | false => simp
  | true => simp

def Keeps {α : Type*} (f : Thread → α) (k k' : Machine) : Prop :=
  ∀ u, f (k'.threads u) = f (k.threads u)

section Keeps
variable {α : Type*} {f : Thread → α} {k k' k'' : Machine}

theorem Keeps.refl (k : Machine) : Keeps f k k := fun _ => rfl

theorem Keeps.trans (h : Keeps f k k') (h' : Keeps f k' k'') : Keeps f k k'' :=
  fun u => (h' u).trans (h u)

theorem Keeps.modify (k : Machine) (t : ℕ) {g : Thread → Thread} (hg : ∀ p, f (g p) = f p) :
    Keeps f k (k.modify t g) := by
  intro u
  rw [modify_apply]
  split
  · next h => rw [h, hg]
  · rfl

theorem Keeps.foldl {β : Type*} {g : Machine → β → Machine} (hg : ∀ k a, Keeps f k (g k a))
    (l : List β) (k : Machine) : Keeps f k (l.foldl g k) := by
  induction l generalizing k with
  | nil => exact Keeps.refl k
  | cons a l ih => exact (hg k a).trans (ih (g k a))

theorem Keeps.reparent (hf : ∀ p c, f { p with children := c } = f p)
    (hf' : ∀ p n, f { p with father := n } = f p) (k : Machine) (p : ℕ) :
    Keeps f k (reparent p k) := by
  refine Keeps.foldl (fun k p1 => ?_) _ k
  have hone : Keeps f k (k.removeSibling p1) := fun u => hf _ _
  exact (hone.trans (Keeps.modify _ p1 fun p => hf' p _)).trans (Keeps.modify _ _ fun p => hf p _)

theorem Keeps.setState (hs : ∀ p s, f { p with state := s } = f p) (k : Machine) (t : ℕ)
    (s : TaskState) : Keeps f k (k.setState t s) := Keeps.modify k t fun p => hs p s

theorem Keeps.deliver (hg : ∀ p s, f { p with signals := s } = f p) (k : Machine) (t signal : ℕ) :
    Keeps f k (k.deliver t signal) := Keeps.modify k t fun p => hg p _

theorem Keeps.killProcess (hs : ∀ p s, f { p with state := s } = f p)
    (hg : ∀ p s, f { p with signals := s } = f p) (k : Machine) (t : ℕ) :
    Keeps f k (killProcess t k) := by
  have hstop : Keeps f k (dropTimer t (stopThread t k)) := by
    unfold stopThread
    split
    · exact Keeps.refl k
    · exact Keeps.modify k t fun p => hs p _
  have hawoken : ∀ pid, Keeps f (dropTimer t (stopThread t k))
      (childAwoken pid (dropTimer t (stopThread t k))) := by
    intro pid
    generalize dropTimer t (stopThread t k) = k'
    unfold childAwoken
    cases getThread pid k' with
    | none => exact Keeps.refl k'
    | some u =>
      refine (Keeps.deliver hg k' u sigcko).trans ?_
      exact (Keeps.setState hs (k'.deliver u sigcko) u .runnable).trans
        (Keeps.setState hs (wakeUpThread u (k'.deliver u sigcko)) u _)
  unfold Proc.killProcess
  split
  · exact Keeps.refl k
  · exact hstop.trans (hawoken _)

end Keeps

/-- Only the pending signals of `t` differ. -/
def SetsPending (t : ℕ) (k k' : Machine) : Prop :=
  ∃ n, k' = k.modify t (fun p => { p with signals := { p.signals with pending := n } })

/-- Only other bits of the pending signals of `t` than those of `SIGKILL` and `SIGCKO` differ. -/
def Clears (t : ℕ) (k k' : Machine) : Prop :=
  ∃ n, k' = k.modify t (fun p => { p with signals := { p.signals with pending := n } }) ∧
    n.testBit 9 = (k.threads t).signals.pending.testBit 9 ∧
    n.testBit 10 = (k.threads t).signals.pending.testBit 10

section Clears
variable {t : ℕ} {k k' k'' : Machine}

theorem modify_threads_self (k : Machine) (t : ℕ) (f : Thread → Thread) :
    (k.modify t f).threads t = f (k.threads t) := by
  rw [modify_apply, if_pos rfl]

theorem modify_modify (k : Machine) (t : ℕ) (f g : Thread → Thread) :
    (k.modify t f).modify t g = k.modify t (g ∘ f) := by
  unfold Machine.modify
  simp

theorem modify_id {t : ℕ} {k : Machine} {f : Thread → Thread} (h : f (k.threads t) = k.threads t) :
    k.modify t f = k := by
  unfold Machine.modify
  rw [h, Function.update_eq_self]

theorem SetsPending.quiet (h : SetsPending t k k') : Quiet k k' := by
  obtain ⟨n, rfl⟩ := h
  exact Quiet.modify k t _ (fun _ => rfl) fun _ => rfl

theorem SetsPending.keeps {α : Type*} {f : Thread → α} (hf : ∀ p s, f { p with signals := s } = f p)
    (h : SetsPending t k k') : Keeps f k k' := by
  obtain ⟨n, rfl⟩ := h
  exact Keeps.modify k t fun p => hf p _

theorem SetsPending.awoken (h : SetsPending t k k') : awoken t k' = awoken t k := by
  have hfather : (k'.threads t).father = (k.threads t).father := h.keeps (fun _ _ => rfl) t
  unfold Proc.awoken
  rw [hfather, h.quiet.getThread, h.quiet.pid]

theorem SetsPending.stateStopped (h : SetsPending t k k') : stateStopped t k' = stateStopped t k := by
  funext u
  unfold Proc.stateStopped
  rw [h.quiet.state]

theorem Clears.refl (k : Machine) : Clears t k k :=
  ⟨(k.threads t).signals.pending, (modify_id rfl).symm, rfl, rfl⟩

theorem Clears.trans (h : Clears t k k') (h' : Clears t k' k'') : Clears t k k'' := by
  obtain ⟨n, rfl, hn⟩ := h
  obtain ⟨n', rfl, hn'⟩ := h'
  rw [modify_threads_self] at hn'
  exact ⟨n', modify_modify .., hn'.1.trans hn.1, hn'.2.trans hn.2⟩

theorem Clears.sets (h : Clears t k k') : SetsPending t k k' := by
  obtain ⟨n, hk', _⟩ := h
  exact ⟨n, hk'⟩

theorem SetsPending.trans (h : SetsPending t k k') (h' : SetsPending t k' k'') :
    SetsPending t k k'' := by
  obtain ⟨n, rfl⟩ := h
  obtain ⟨n', rfl⟩ := h'
  exact ⟨n', modify_modify ..⟩

theorem Clears.sigPending (h : Clears t k k') :
    (SigPending t sigkill k' ↔ SigPending t sigkill k) ∧
      (SigPending t sigcko k' ↔ SigPending t sigcko k) := by
  obtain ⟨n, rfl, hkill, hcko⟩ := h
  unfold SigPending sigkill sigcko
  rw [modify_threads_self]
  simp only [and_one_shiftLeft_ne_zero, Nat.testBit_and, hkill, hcko, and_self]

theorem mask_testBit : ∀ i ∈ List.range' 1 8 ++ List.range' 11 22,
    (2 ^ 32 - 1 - signalBit i).testBit 9 = true ∧ (2 ^ 32 - 1 - signalBit i).testBit 10 = true ∧
      signalBit i ≠ sigkill ∧ signalBit i ≠ sigcko := by decide

theorem handleSignal_clears {i : ℕ} (hi : i ∈ List.range' 1 8 ++ List.range' 11 22)
    (r : Bool × Machine) :
    (handleSignal t r i).1 = r.1 ∧ Clears t r.2 (handleSignal t r i).2 := by
  obtain ⟨hnine, hten, hkill, hcko⟩ := mask_testBit i hi
  unfold handleSignal
  simp only [if_neg hkill, if_neg hcko]
  split
  · exact ⟨rfl, Clears.refl _⟩
  · refine ⟨rfl, _, rfl, ?_, ?_⟩
    · rw [Nat.testBit_and, hnine, Bool.and_true]
    · rw [Nat.testBit_and, hten, Bool.and_true]

theorem foldl_handleSignal_clears {l : List ℕ} (hl : ∀ i ∈ l, i ∈ List.range' 1 8 ++ List.range' 11 22)
    (r : Bool × Machine) :
    (l.foldl (handleSignal t) r).1 = r.1 ∧ Clears t r.2 (l.foldl (handleSignal t) r).2 := by
  induction l generalizing r with
  | nil => exact ⟨rfl, Clears.refl _⟩
  | cons i l ih =>
    obtain ⟨hret, hclears⟩ := handleSignal_clears (hl i (List.mem_cons_self ..)) r
    obtain ⟨hret', hclears'⟩ := ih (fun j hj => hl j (List.mem_cons_of_mem _ hj)) (handleSignal t r i)
    exact ⟨hret'.trans hret, hclears.trans hclears'⟩

/-- Everything `handle_signals` does is done for `SIGKILL` and then for `SIGCKO`. -/
theorem handleSignals_eq (ht : t ≠ 0) (k : Machine) :
    ∃ k₁ k₂, Clears t k k₁ ∧
      Clears t (handleSignal t (handleSignal t (true, k₁) 9) 10).2 k₂ ∧
      handleSignals t k = ((handleSignal t (handleSignal t (true, k₁) 9) 10).1, k₂) := by
  unfold handleSignals
  rw [if_neg ht]
  split
  · next hzero =>
    refine ⟨k, k, Clears.refl k, ?_, ?_⟩
    · simp [handleSignal, hzero, Clears.refl]
    · simp [handleSignal, hzero]
  · have hsplit : List.range' 1 32 = List.range' 1 8 ++ 9 :: 10 :: List.range' 11 22 := by decide
    rw [hsplit, List.foldl_append, List.foldl_cons, List.foldl_cons]
    obtain ⟨hret, hfirst⟩ := foldl_handleSignal_clears (t := t) (l := List.range' 1 8)
      (fun i hi => List.mem_append_left _ hi) (true, k)
    generalize (List.range' 1 8).foldl (handleSignal t) (true, k) = r at hret hfirst ⊢
    obtain ⟨ret, k₁⟩ := r
    obtain rfl : ret = true := hret
    obtain ⟨hret', hlast⟩ := foldl_handleSignal_clears (t := t) (l := List.range' 11 22)
      (fun i hi => List.mem_append_right _ hi) (handleSignal t (handleSignal t (true, k₁) 9) 10)
    exact ⟨k₁, _, hfirst, hlast, Prod.ext hret' rfl⟩

end Clears

/-- `reparent` for one thread after the other. -/
def reparentAll (l : List ℕ) (k : Machine) : Machine := l.foldl (fun k p1 => reparent p1 k) k

/-- `t` waits for the dead thread `c` by its pid. -/
def waitedFor (t : ℕ) (k : Machine) (c : ℕ) : Bool :=
  (k.threads t).wait4 == (k.threads c).pid && (k.threads c).state.ko

def scanned (t : ℕ) (k : Machine) : Machine :=
  reparentAll ((k.threads t).children.filter (waitedFor t k)) k

section Sigcko
variable {t : ℕ} {k : Machine}

theorem Quiet.reparentAll (l : List ℕ) (k : Machine) : Quiet k (reparentAll l k) :=
  Quiet.foldl (fun k p1 => Quiet.reparent k p1) l k

theorem Keeps.reparentAll {α : Type*} {f : Thread → α} (hf : ∀ p c, f { p with children := c } = f p)
    (hf' : ∀ p n, f { p with father := n } = f p) (l : List ℕ) (k : Machine) :
    Keeps f k (reparentAll l k) :=
  Keeps.foldl (fun k p1 => Keeps.reparent hf hf' k p1) l k

theorem foldl_scanChild (l : List ℕ) (allKo wait4pid : Bool) (k : Machine) :
    l.foldl (scanChild t) (allKo, wait4pid, k) =
      (allKo && l.all fun p1 => (k.threads p1).state.ko, wait4pid || l.any (waitedFor t k),
        reparentAll (l.filter (waitedFor t k)) k) := by
  induction l generalizing allKo wait4pid k with
  | nil => simp [reparentAll]
  | cons p1 l ih =>
    have hone : scanChild t (allKo, wait4pid, k) p1 = (allKo && (k.threads p1).state.ko,
        wait4pid || waitedFor t k p1, if waitedFor t k p1 = true then reparent p1 k else k) := by
      unfold scanChild waitedFor
      by_cases hp : (k.threads t).wait4 = (k.threads p1).pid ∧ (k.threads p1).state.ko = true
      · simp [hp.1, hp.2]
      · simp only [if_neg hp]
        have hno : ((k.threads t).wait4 == (k.threads p1).pid && (k.threads p1).state.ko) = false := by
          rw [← Bool.not_eq_true, Bool.and_eq_true, beq_iff_eq]
          exact hp
        simp [hno]
    rw [List.foldl_cons, hone, ih]
    cases hw : waitedFor t k p1 with
    | true =>
      have hsame : waitedFor t (reparent p1 k) = waitedFor t k := by
        funext c
        unfold waitedFor
        rw [(Quiet.reparent k p1).pid, (Quiet.reparent k p1).state]
        exact congrArg (· == _ && _)
          (Keeps.reparent (f := Thread.wait4) (fun _ _ => rfl) (fun _ _ => rfl) k p1 t)
      simp [hsame, hw, (Quiet.reparent k p1).state, Bool.and_assoc, reparentAll]
    | false => simp [hw, Bool.and_assoc]

/-- The branch of `handle_signals` for `SIGCKO`, by what the father waits for. -/
theorem handleSigcko_eq (t : ℕ) (ret : Bool) (k : Machine) : handleSigcko t ret k =
    if (k.threads t).wait4child = true then
      if ((k.threads t).children.all fun p1 => (k.threads p1).state.ko) = true then
        (ret, reparentAll ((scanned t k).threads t).children (scanned t k))
      else (false, sleepThread t (scanned t k))
    else if (k.threads t).children.any (waitedFor t k) = true then (ret, scanned t k)
    else
      let k' := (k.threads t).children.foldl buryChild k
      if (k'.threads t).state = .interruptible then (false, sleepThread t k') else (ret, k') := by
  have hwait : ((scanned t k).threads t).wait4child = (k.threads t).wait4child :=
    Keeps.reparentAll (f := Thread.wait4child) (fun _ _ => rfl) (fun _ _ => rfl) _ k t
  have hscan : reparentAll ((k.threads t).children.filter (waitedFor t k)) k = scanned t k := rfl
  have hfold : ∀ l k, List.foldl (fun k p1 => reparent p1 k) k l = reparentAll l k := fun _ _ => rfl
  unfold handleSigcko
  rw [foldl_scanChild]
  simp only [Bool.true_and, Bool.false_or, hscan, hfold, hwait]
  cases (k.threads t).wait4child with
  | true =>
    cases (k.threads t).children.all fun p1 => (k.threads p1).state.ko with
    | true => simp
    | false => simp
  | false =>
    cases hany : (k.threads t).children.any (waitedFor t k) with
    | true => simp
    | false =>
      have hsame : scanned t k = k := by
        unfold scanned
        rw [List.filter_eq_nil_iff.mpr fun c hc => by simpa using List.any_eq_false.mp hany c hc]
        rfl
      simp [hsame]

theorem buryChild_moves (p1 : ℕ) :
    Moves (fun m => (k.threads p1).state = .stopped ∧ m = .bury p1) k (buryChild k p1) := by
  unfold buryChild
  split
  · next hs =>
    exact (Moves.quiet (Quiet.reparent k p1)).trans (Moves.single (m := .bury p1) ⟨hs, rfl⟩ trivial)
  · exact Moves.refl k

theorem buryChild_state (k : Machine) (p1 u : ℕ) :
    ((buryChild k p1).threads u).state = (k.threads u).state ∨
      ((buryChild k p1).threads u).state = .zombie := by
  unfold buryChild
  split
  · rw [state_setState, (Quiet.reparent k p1).state]
    split
    · exact .inr rfl
    · exact .inl rfl
  · exact .inl rfl

theorem foldl_buryChild_state (l : List ℕ) (k : Machine) (u : ℕ) :
    ((l.foldl buryChild k).threads u).state = (k.threads u).state ∨
      ((l.foldl buryChild k).threads u).state = .zombie := by
  induction l generalizing k with
  | nil => exact .inl rfl
  | cons p1 l ih =>
    rcases ih (buryChild k p1) with h | h
    · exact (buryChild_state k p1 u).imp h.trans h.trans
    · exact .inr h

theorem foldl_buryChild_moves (l : List ℕ) (k : Machine) :
    Moves (fun m => ∃ c ∈ l, (k.threads c).state = .stopped ∧ m = .bury c) k (l.foldl buryChild k) := by
  induction l generalizing k with
  | nil => exact Moves.refl k
  | cons p1 l ih =>
    have hfirst : Moves (fun m => ∃ c ∈ p1 :: l, (k.threads c).state = .stopped ∧ m = .bury c) k
        (buryChild k p1) := (buryChild_moves p1).mono fun m hm => ⟨p1, List.mem_cons_self .., hm⟩
    refine hfirst.trans ((ih (buryChild k p1)).mono ?_)
    rintro m ⟨c, hc, hs, rfl⟩
    refine ⟨c, List.mem_cons_of_mem _ hc, ?_, rfl⟩
    rcases buryChild_state k p1 c with h | h
    · rw [← h, hs]
    · rw [hs] at h
      cases h

/-- `SIGCKO` puts the thread to sleep: a father waiting for all its children while one of them is alive,
or a sleeping father that waits for none; `state` is what the threads are in by then. -/
def Suspends (t : ℕ) (state : ℕ → TaskState) (k : Machine) : Prop :=
  ((k.threads t).wait4child = true ∧ ∃ c ∈ (k.threads t).children, (state c).ko = false) ∨
    ((k.threads t).wait4child = false ∧ state t = .interruptible)

/-- `SIGCKO` buries `c`: its father waits neither for all its children nor for a dead one. -/
def Buries (t : ℕ) (state : ℕ → TaskState) (k : Machine) (c : ℕ) : Prop :=
  (k.threads t).wait4child = false ∧ c ∈ (k.threads t).children ∧ state c = .stopped ∧
    ∀ d ∈ (k.threads t).children, ¬ ((k.threads t).wait4 = (k.threads d).pid ∧ (state d).ko = true)

theorem not_waitedFor (h : ¬ (k.threads t).children.any (waitedFor t k) = true) :
    ∀ d ∈ (k.threads t).children,
      ¬ ((k.threads t).wait4 = (k.threads d).pid ∧ (k.threads d).state.ko = true) := by
  intro d hd hw
  refine h (List.any_eq_true.mpr ⟨d, hd, ?_⟩)
  unfold waitedFor
  simp [hw.1, hw.2]

theorem handleSigcko_moves (ht : t ∈ k.allocated) (ret : Bool) :
    Moves (fun m => (Suspends t (fun u => (k.threads u).state) k ∧ m = .sleep t) ∨
      ∃ c, Buries t (fun u => (k.threads u).state) k c ∧ m = .bury c) k (handleSigcko t ret k).2 := by
  have hscan : Quiet k (scanned t k) := Quiet.reparentAll _ k
  have htk : t ∈ (scanned t k).allocated := by
    rw [hscan.allocated]
    exact ht
  rw [handleSigcko_eq]
  split
  · next hwait =>
    split
    · exact .quiet (hscan.trans (Quiet.reparentAll _ _))
    · next hall =>
      have halive : ∃ c ∈ (k.threads t).children, (k.threads c).state.ko = false := by
        simpa using hall
      exact (Moves.quiet hscan).trans
        ((sleepThread_moves htk).mono fun m hm => .inl ⟨.inl ⟨hwait, halive⟩, hm⟩)
  · next hwait =>
    have hwait : (k.threads t).wait4child = false := (Bool.not_eq_true _).mp hwait
    split
    · exact .quiet hscan
    · next hany =>
      have hbury : Moves (fun m => (Suspends t (fun u => (k.threads u).state) k ∧ m = .sleep t) ∨
          ∃ c, Buries t (fun u => (k.threads u).state) k c ∧ m = .bury c) k
          ((k.threads t).children.foldl buryChild k) := by
        refine (foldl_buryChild_moves _ k).mono ?_
        rintro m ⟨c, hc, hs, rfl⟩
        exact .inr ⟨c, ⟨hwait, hc, hs, not_waitedFor hany⟩, rfl⟩
      dsimp only
      split
      · next hsleep =>
        have hint : (k.threads t).state = .interruptible := by
          rcases foldl_buryChild_state (k.threads t).children k t with h | h
          · rw [← h, hsleep]
          · rw [hsleep] at h
            cases h
        refine hbury.trans ((sleepThread_moves ?_).mono fun m hm => .inl ⟨.inr ⟨hwait, hint⟩, hm⟩)
        rw [hbury.allocated]
        exact ht
      · exact hbury

end Sigcko

/-- `SIGKILL` is pending for a thread that can be killed. -/
def Killed (t : ℕ) (k : Machine) : Prop := SigPending t sigkill k ∧ (k.threads t).pid ≠ idlePid

instance (t : ℕ) (k : Machine) : Decidable (Killed t k) := inferInstanceAs (Decidable (_ ∧ _))

/-- The states of the threads when `handle_signals(t)` comes to `SIGCKO`. -/
def stateAtSigcko (t : ℕ) (k : Machine) (u : ℕ) : TaskState :=
  if Killed t k then stateStopped t k u else (k.threads u).state

/-- `handle_signals(t)` comes to `SIGCKO`. -/
def SeesSigcko (t : ℕ) (k : Machine) : Prop :=
  SigPending t sigcko k ∨ Killed t k ∧ awoken t k = some t

/-- What `handle_signals(t)` may do to the queues, told from the state it is called in. -/
def SignalMove (t : ℕ) (k : Machine) (m : Move) : Prop :=
  (Killed t k ∧ (m = .stop t ∨ ∃ f, awoken t k = some f ∧ m = .wake f (stateStopped t k f))) ∨
    (m = .sleep t ∧ SeesSigcko t k ∧ Suspends t (stateAtSigcko t k) k) ∨
      ∃ c, Buries t (stateAtSigcko t k) k c ∧ m = .bury c

section Signals
variable {t : ℕ} {k k' : Machine}

theorem childAwoken_state (pid u : ℕ) (k : Machine) :
    ((childAwoken pid k).threads u).state = (k.threads u).state := by
  cases h : getThread pid k with
  | none => simp only [childAwoken, h]
  | some f =>
    rw [childAwoken_some h]
    refine (state_setState _ f u _).trans ?_
    rw [(Quiet.deliver k f sigcko).state u]
    split
    · next he => rw [he]
    · rfl

theorem killProcess_state (hp : (k.threads t).pid ≠ idlePid) (u : ℕ) :
    ((killProcess t k).threads u).state = stateStopped t k u := by
  obtain ⟨pid, _, heq⟩ := killProcess_eq hp
  rw [heq, childAwoken_state]
  exact ((stopped_quiet hp).state u).trans (state_setState k t u .stopped)

theorem killProcess_fixed (t : ℕ) (k : Machine) : (killProcess t k).allocated = k.allocated ∧
    (killProcess t k).currentThread = k.currentThread ∧
      (killProcess t k).initThread = k.initThread := by
  by_cases hp : (k.threads t).pid = idlePid
  · have hsame : killProcess t k = k := if_pos hp
    rw [hsame]
    exact ⟨rfl, rfl, rfl⟩
  · obtain ⟨pid, _, heq⟩ := killProcess_eq hp
    have hstop : stopThread t k = (Move.stop t).play k := if_neg hp
    rw [heq, hstop]
    unfold childAwoken
    dsimp only
    split
    · exact ⟨rfl, rfl, rfl⟩
    · exact ⟨rfl, rfl, rfl⟩

theorem childAwoken_signals {pid u : ℕ} (h : getThread pid k ≠ some u) :
    ((childAwoken pid k).threads u).signals = (k.threads u).signals := by
  cases hf : getThread pid k with
  | none => simp only [childAwoken, hf]
  | some f =>
    have huf : u ≠ f := fun e => h (by rw [hf, e])
    rw [childAwoken_some hf]
    show (((k.deliver f sigcko).setState f _).threads u).signals = _
    rw [Machine.setState, modify_apply, if_neg huf, Machine.deliver, modify_apply, if_neg huf]

/-- `kill_process` makes no signal pending for the killed thread, unless it is its own father. -/
theorem killProcess_signals (h : awoken t k ≠ some t ∨ (k.threads t).pid = idlePid) :
    ((killProcess t k).threads t).signals = (k.threads t).signals := by
  by_cases hp : (k.threads t).pid = idlePid
  · have hsame : killProcess t k = k := if_pos hp
    rw [hsame]
  · obtain ⟨pid, hget, heq⟩ := killProcess_eq hp
    have hstop : stopThread t k = (Move.stop t).play k := if_neg hp
    rw [heq, childAwoken_signals (by rw [hget]; exact h.resolve_right hp), hstop]
    show ((k.setState t .stopped).threads t).signals = _
    rw [Machine.setState, modify_threads_self]

theorem SetsPending.clear (k : Machine) (t n : ℕ) :
    SetsPending t k (k.modify t fun p => { p with signals :=
      { p.signals with pending := p.signals.pending &&& n } }) :=
  ⟨(k.threads t).signals.pending &&& n, rfl⟩

theorem handleSignal_kill (k : Machine) : handleSignal t (true, k) 9 = if SigPending t sigkill k then
    (false, (killProcess t (k.modify t fun p => { p with signals :=
      { p.signals with pending := p.signals.pending &&& (2 ^ 32 - 1 - sigkill) } })).modify t
        fun p => { p with exitValue := 0 }) else (true, k) := by
  have hbit : signalBit 9 = sigkill := by decide
  dsimp only [handleSignal]
  rw [hbit]
  by_cases h : SigPending t sigkill k
  · rw [if_pos h, if_neg h, if_pos rfl]
  · rw [if_neg h, if_pos (not_not.mp h)]

theorem handleSignal_nine (k : Machine) :
    ∃ k', SetsPending t k k' ∧
      ((k'.threads t).signals.pending.testBit 10 = (k.threads t).signals.pending.testBit 10 ∧
        (k'.threads t).signals.active = (k.threads t).signals.active) ∧
      handleSignal t (true, k) 9 = if SigPending t sigkill k then
        (false, (killProcess t k').modify t fun p => { p with exitValue := 0 }) else (true, k) := by
  refine ⟨_, SetsPending.clear k t (2 ^ 32 - 1 - sigkill), ?_, handleSignal_kill k⟩
  rw [modify_threads_self]
  refine ⟨?_, rfl⟩
  have hmask : (2 ^ 32 - 1 - sigkill).testBit 10 = true := by decide
  rw [Nat.testBit_and, hmask, Bool.and_true]

theorem handleSignal_ten (r : Bool × Machine) : handleSignal t r 10 = if SigPending t sigcko r.2 then
    handleSigcko t r.1 (r.2.modify t fun p => { p with signals :=
      { p.signals with pending := p.signals.pending &&& (2 ^ 32 - 1 - sigcko) } }) else r := by
  obtain ⟨ret, k⟩ := r
  have hbit : signalBit 10 = sigcko := by decide
  have hother : ¬ sigcko = sigkill := by decide
  dsimp only [handleSignal]
  rw [hbit]
  by_cases h : SigPending t sigcko k
  · rw [if_pos h, if_neg h, if_neg hother, if_pos rfl]
  · rw [if_neg h, if_pos (not_not.mp h)]

theorem Buries.congr {s s' : ℕ → TaskState} {c : ℕ} (hs : ∀ u, s' u = s u)
    (hwait : (k'.threads t).wait4child = (k.threads t).wait4child)
    (hwait4 : (k'.threads t).wait4 = (k.threads t).wait4)
    (hchildren : (k'.threads t).children = (k.threads t).children)
    (hpid : ∀ u, (k'.threads u).pid = (k.threads u).pid) (h : Buries t s' k' c) : Buries t s k c := by
  unfold Buries at h ⊢
  rw [hwait, hchildren, hwait4] at h
  simpa only [hs, hpid] using h

theorem Suspends.congr {s s' : ℕ → TaskState} (hs : ∀ u, s' u = s u)
    (hwait : (k'.threads t).wait4child = (k.threads t).wait4child)
    (hchildren : (k'.threads t).children = (k.threads t).children) (h : Suspends t s' k') :
    Suspends t s k := by
  unfold Suspends at h ⊢
  rw [hwait, hchildren] at h
  simpa only [hs] using h

/-- The machine when `handle_signals(t)`, called in `k`, has seen to `SIGKILL`. -/
structure AfterSigkill (t : ℕ) (k k₁ : Machine) : Prop where
  killed : (¬ Killed t k ∧ Quiet k k₁) ∨
    (Killed t k ∧ ∃ k', SetsPending t k k' ∧ Quiet (killProcess t k') k₁)
  allocated : k₁.allocated = k.allocated
  initThread : k₁.initThread = k.initThread
  state : ∀ u, (k₁.threads u).state = stateAtSigcko t k u
  pid : Keeps Thread.pid k k₁
  wait4child : Keeps Thread.wait4child k k₁
  wait4 : Keeps Thread.wait4 k k₁
  children : Keeps Thread.children k k₁
  father : Keeps Thread.father k k₁

theorem afterSigkill (hpend : SigPending t sigkill k) (hset : SetsPending t k k') :
    AfterSigkill t k ((killProcess t k').modify t fun p => { p with exitValue := 0 }) := by
  have hexit : ∀ k, Quiet k (k.modify t fun p => { p with exitValue := 0 }) :=
    fun k => Quiet.modify k t _ (fun _ => rfl) fun _ => rfl
  have hkeep : ∀ {α : Type} (f : Thread → α), (∀ p s, f { p with state := s } = f p) →
      (∀ p s, f { p with signals := s } = f p) → (∀ p e, f { p with exitValue := e } = f p) →
      Keeps f k ((killProcess t k').modify t fun p => { p with exitValue := 0 }) :=
    fun f hs hg he => ((hset.keeps hg).trans (Keeps.killProcess hs hg k' t)).trans
      (Keeps.modify _ t fun p => he p 0)
  refine ⟨?_, (killProcess_fixed t k').1.trans hset.quiet.allocated,
    (killProcess_fixed t k').2.2.trans hset.quiet.initThread, fun u => ?_,
    hkeep _ (fun _ _ => rfl) (fun _ _ => rfl) fun _ _ => rfl,
    hkeep _ (fun _ _ => rfl) (fun _ _ => rfl) fun _ _ => rfl,
    hkeep _ (fun _ _ => rfl) (fun _ _ => rfl) fun _ _ => rfl,
    hkeep _ (fun _ _ => rfl) (fun _ _ => rfl) fun _ _ => rfl,
    hkeep _ (fun _ _ => rfl) (fun _ _ => rfl) fun _ _ => rfl⟩
  · by_cases hp : (k.threads t).pid = idlePid
    · have hsame : killProcess t k' = k' := if_pos ((hset.quiet.pid t).trans hp)
      rw [hsame]
      exact .inl ⟨fun h => h.2 hp, hset.quiet.trans (hexit k')⟩
    · exact .inr ⟨⟨hpend, hp⟩, k', hset, hexit _⟩
  · refine ((hexit _).state u).trans ?_
    unfold stateAtSigcko
    by_cases hp : (k.threads t).pid = idlePid
    · have hsame : killProcess t k' = k' := if_pos ((hset.quiet.pid t).trans hp)
      rw [hsame, if_neg fun h => h.2 hp]
      exact hset.quiet.state u
    · rw [if_pos ⟨hpend, hp⟩, killProcess_state (by rw [hset.quiet.pid]; exact hp),
        hset.stateStopped]

/-- `SIGCKO` is pending after `SIGKILL` only if it was, or if the killed thread is its own father. -/
theorem seesSigcko_of_pending (hpend : SigPending t sigkill k) (hset : SetsPending t k k')
    (hten : (k'.threads t).signals.pending.testBit 10 = (k.threads t).signals.pending.testBit 10)
    (hactive : (k'.threads t).signals.active = (k.threads t).signals.active)
    (h : SigPending t sigcko ((killProcess t k').modify t fun p => { p with exitValue := 0 })) :
    SeesSigcko t k := by
  by_cases hself : Killed t k ∧ awoken t k = some t
  · exact .inr hself
  · refine .inl ?_
    have hsig : ((killProcess t k').threads t).signals = (k'.threads t).signals := by
      refine killProcess_signals ?_
      rw [hset.awoken, hset.quiet.pid]
      by_cases hp : (k.threads t).pid = idlePid
      · exact .inr hp
      · exact .inl fun e => hself ⟨⟨hpend, hp⟩, e⟩
    unfold SigPending at h
    rw [modify_threads_self] at h
    simp only [hsig] at h
    unfold SigPending
    unfold sigcko at h ⊢
    rw [and_one_shiftLeft_ne_zero, Nat.testBit_and, hten, hactive] at h
    rwa [and_one_shiftLeft_ne_zero, Nat.testBit_and]

/-- `handle_signals` kills the thread when it has to, and only then sees to `SIGCKO`. -/
theorem handleSignals_phases (hzero : t ≠ 0) (k : Machine) :
    ∃ k₁, AfterSigkill t k k₁ ∧ (SetsPending t k₁ (handleSignals t k).2 ∨
      (SeesSigcko t k ∧ ∃ ret k₂, SetsPending t k₁ k₂ ∧
        SetsPending t (handleSigcko t ret k₂).2 (handleSignals t k).2)) := by
  obtain ⟨k₁, k₂, hfirst, hlast, heq⟩ := handleSignals_eq hzero k
  obtain ⟨k', hk', ⟨hten, hactive⟩, hnine⟩ := handleSignal_nine (t := t) k₁
  have hset := hfirst.sets.trans hk'
  obtain ⟨hafter, hsees⟩ : AfterSigkill t k (handleSignal t (true, k₁) 9).2 ∧
      (SigPending t sigcko (handleSignal t (true, k₁) 9).2 → SeesSigcko t k) := by
    rw [hnine]
    split
    · next hkill =>
      have hpend := hfirst.sigPending.1.mp hkill
      refine ⟨afterSigkill hpend hset, seesSigcko_of_pending hpend hset (hten.trans ?_) (hactive.trans ?_)⟩
      · obtain ⟨n, rfl, _, hbit⟩ := hfirst
        rw [modify_threads_self]
        exact hbit
      · obtain ⟨n, rfl, _⟩ := hfirst
        rw [modify_threads_self]
    · next hkill =>
      have hno : ¬ Killed t k := fun h => hkill (hfirst.sigPending.1.mpr h.1)
      refine ⟨⟨.inl ⟨hno, hfirst.sets.quiet⟩, hfirst.sets.quiet.allocated, hfirst.sets.quiet.initThread,
        fun u => ?_, hfirst.sets.keeps fun _ _ => rfl, hfirst.sets.keeps fun _ _ => rfl,
        hfirst.sets.keeps fun _ _ => rfl, hfirst.sets.keeps fun _ _ => rfl,
        hfirst.sets.keeps fun _ _ => rfl⟩, fun h => .inl (hfirst.sigPending.2.mp h)⟩
      unfold stateAtSigcko
      rw [if_neg hno]
      exact hfirst.sets.quiet.state u
  refine ⟨(handleSignal t (true, k₁) 9).2, hafter, ?_⟩
  rw [heq]
  generalize handleSignal t (true, k₁) 9 = r at hafter hsees hlast ⊢
  rw [handleSignal_ten] at hlast
  split at hlast
  · next h => exact .inr ⟨hsees h, r.1, _, SetsPending.clear r.2 t _, hlast.sets⟩
  · exact .inl hlast.sets

theorem AfterSigkill.rest {k₁ k₂ : Machine} (h : AfterSigkill t k k₁) (ht : t ∈ k.allocated)
    (hset : SetsPending t k₁ k₂) (ret : Bool) :
    Moves (fun m => (Suspends t (stateAtSigcko t k) k ∧ m = .sleep t) ∨
      ∃ c, Buries t (stateAtSigcko t k) k c ∧ m = .bury c) k₁ (handleSigcko t ret k₂).2 := by
  have hwait : (k₂.threads t).wait4child = (k.threads t).wait4child :=
    (hset.keeps (f := Thread.wait4child) (fun _ _ => rfl) t).trans (h.wait4child t)
  have hwait4 : (k₂.threads t).wait4 = (k.threads t).wait4 :=
    (hset.keeps (f := Thread.wait4) (fun _ _ => rfl) t).trans (h.wait4 t)
  have hchildren : (k₂.threads t).children = (k.threads t).children :=
    (hset.keeps (f := Thread.children) (fun _ _ => rfl) t).trans (h.children t)
  have hstate : ∀ u, (k₂.threads u).state = stateAtSigcko t k u :=
    fun u => (hset.quiet.state u).trans (h.state u)
  refine (Moves.quiet hset.quiet).trans ((handleSigcko_moves ?_ ret).mono fun m hm => ?_)
  · rw [hset.quiet.allocated, h.allocated]
    exact ht
  · rcases hm with ⟨hsus, rfl⟩ | ⟨c, hbury, rfl⟩
    · exact .inl ⟨hsus.congr hstate hwait hchildren, rfl⟩
    · refine .inr ⟨c, hbury.congr hstate hwait hwait4 hchildren fun u => ?_, rfl⟩
      exact (hset.quiet.pid u).trans (h.pid u)

theorem AfterSigkill.moves {k₁ : Machine} (h : AfterSigkill t k k₁)
    (hk : ∀ u ∈ k.kThreads, u ∈ k.allocated) (ht : t ∈ k.allocated) :
    Moves (fun m => Killed t k ∧
      (m = .stop t ∨ ∃ f, awoken t k = some f ∧ m = .wake f (stateStopped t k f))) k k₁ := by
  rcases h.killed with ⟨_, hq⟩ | ⟨hkill, k', hset, hq⟩
  · exact .quiet hq
  · refine (Moves.quiet hset.quiet).trans
      (((killProcess_moves ?_ ?_).mono fun m hm => ?_).then_quiet hq)
    · rw [hset.quiet.kThreads, hset.quiet.allocated]
      exact hk
    · rw [hset.quiet.allocated]
      exact ht
    · rw [hset.awoken, hset.stateStopped] at hm
      exact ⟨hkill, hm⟩

theorem AfterSigkill.rest_moves {k₁ : Machine} (h : AfterSigkill t k k₁) (ht : t ∈ k.allocated)
    (hrest : SetsPending t k₁ k' ∨ (SeesSigcko t k ∧ ∃ ret k₂, SetsPending t k₁ k₂ ∧
      SetsPending t (handleSigcko t ret k₂).2 k')) :
    Moves (fun m => (m = .sleep t ∧ SeesSigcko t k ∧ Suspends t (stateAtSigcko t k) k) ∨
      ∃ c, Buries t (stateAtSigcko t k) k c ∧ m = .bury c) k₁ k' := by
  rcases hrest with hset | ⟨hsees, ret, k₂, hset, hset'⟩
  · exact .quiet hset.quiet
  · refine ((h.rest ht hset ret).mono fun m hm => ?_).then_quiet hset'.quiet
    exact hm.imp_left fun hs => ⟨hs.2, hsees, hs.1⟩

theorem handleSignals_moves (hk : ∀ u ∈ k.kThreads, u ∈ k.allocated) (ht : t ∈ k.allocated)
    (hzero : t ≠ 0) : Moves (SignalMove t k) k (handleSignals t k).2 := by
  obtain ⟨k₁, hafter, hrest⟩ := handleSignals_phases hzero k
  exact ((hafter.moves hk ht).mono fun m hm => .inl hm).trans
    ((hafter.rest_moves ht hrest).mono fun m hm => .inr hm)

end Signals

end X86Osdev.Proc

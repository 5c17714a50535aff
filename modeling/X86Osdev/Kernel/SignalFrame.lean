import X86Osdev.Kernel.ThreadMoves

/-! What signals, timers and the choice of the next thread leave alone. -/

namespace X86Osdev.Kernel
open CircularList X86Osdev.Mem X86Osdev.Proc

structure Frame (k k' : Machine) : Prop where
  waits : k'.waits = k.waits
  locks : k'.locks = k.locks
  currentThread : k'.currentThread = k.currentThread
  idleThread : k'.idleThread = k.idleThread
  initThread : k'.initThread = k.initThread
  allocated : k'.allocated = k.allocated
  kernelTimers : k'.kernelTimers ⊆ k.kernelTimers

section Frame
variable {k k' k'' : Machine}

theorem Frame.refl (k : Machine) : Frame k k := ⟨rfl, rfl, rfl, rfl, rfl, rfl, List.Subset.refl _⟩

theorem Frame.trans (h : Frame k k') (h' : Frame k' k'') : Frame k k'' :=
  ⟨h'.waits.trans h.waits, h'.locks.trans h.locks, h'.currentThread.trans h.currentThread,
    h'.idleThread.trans h.idleThread, h'.initThread.trans h.initThread,
    h'.allocated.trans h.allocated, fun _ ht => h.kernelTimers (h'.kernelTimers ht)⟩

theorem Frame.foldl {α : Type*} {f : Machine → α → Machine} (hf : ∀ k a, Frame k (f k a)) (l : List α)
    (k : Machine) : Frame k (l.foldl f k) := by
  induction l generalizing k with
  | nil => exact Frame.refl k
  | cons a l ih => exact (hf k a).trans (ih (f k a))

theorem Frame.modify (k : Machine) (t : ℕ) (f : Thread → Thread) : Frame k (k.modify t f) :=
  ⟨rfl, rfl, rfl, rfl, rfl, rfl, List.Subset.refl _⟩

theorem Frame.adopt (k : Machine) (p1 : ℕ) : Frame k (adopt k p1) :=
  ⟨rfl, rfl, rfl, rfl, rfl, rfl, List.Subset.refl _⟩

theorem Frame.reparent (k : Machine) (p : ℕ) : Frame k (reparent p k) := Frame.foldl Frame.adopt _ k

theorem Frame.stopThread (k : Machine) (t : ℕ) : Frame k (stopThread t k) := by
  unfold Proc.stopThread
  split
  · exact Frame.refl k
  · exact ⟨rfl, rfl, rfl, rfl, rfl, rfl, List.Subset.refl _⟩

theorem Frame.sleepThread (k : Machine) (t : ℕ) : Frame k (sleepThread t k) := by
  unfold Proc.sleepThread
  split
  · exact Frame.refl k
  · exact ⟨rfl, rfl, rfl, rfl, rfl, rfl, List.Subset.refl _⟩

theorem Frame.wakeUpThread (k : Machine) (t : ℕ) : Frame k (wakeUpThread t k) :=
  ⟨rfl, rfl, rfl, rfl, rfl, rfl, List.Subset.refl _⟩

theorem Frame.childAwoken (k : Machine) (pid : ℕ) : Frame k (childAwoken pid k) := by
  unfold Proc.childAwoken
  split
  · exact Frame.refl k
  · exact ⟨rfl, rfl, rfl, rfl, rfl, rfl, List.Subset.refl _⟩

theorem Frame.dropTimer (k : Machine) (t : ℕ) : Frame k (dropTimer t k) :=
  ⟨rfl, rfl, rfl, rfl, rfl, rfl, List.eraseP_subset⟩

theorem Frame.killProcess (k : Machine) (t : ℕ) : Frame k (killProcess t k) := by
  unfold Proc.killProcess
  split
  · exact Frame.refl k
  · have hstop := (Frame.stopThread k t).trans (Frame.dropTimer _ t)
    exact hstop.trans (Frame.childAwoken _ _)

theorem Frame.buryChild (k : Machine) (p1 : ℕ) : Frame k (buryChild k p1) := by
  unfold Proc.buryChild
  split
  · exact (Frame.reparent k p1).trans (Frame.modify _ p1 _)
  · exact Frame.refl k

theorem Frame.handleSigcko (k : Machine) (t : ℕ) (ret : Bool) : Frame k (handleSigcko t ret k).2 := by
  have hscan : Frame k (scanned t k) := Frame.foldl Frame.reparent _ k
  rw [handleSigcko_eq]
  split
  · split
    · exact hscan.trans (Frame.foldl Frame.reparent _ _)
    · exact hscan.trans (Frame.sleepThread _ t)
  · split
    · exact hscan
    · have hbury := Frame.foldl Frame.buryChild (k.threads t).children k
      dsimp only
      split
      · exact hbury.trans (Frame.sleepThread _ t)
      · exact hbury

theorem Frame.handleSignal (t i : ℕ) (r : Bool × Machine) : Frame r.2 (handleSignal t r i).2 := by
  unfold Proc.handleSignal
  dsimp only
  split
  · exact Frame.refl _
  · have hclear := Frame.modify r.2 t fun p => { p with signals :=
      { p.signals with pending := p.signals.pending &&& (2 ^ 32 - 1 - signalBit i) } }
    split
    · have hexit := Frame.modify (Proc.killProcess t (r.2.modify t fun p => { p with signals :=
        { p.signals with pending := p.signals.pending &&& (2 ^ 32 - 1 - signalBit i) } })) t
        fun p => { p with exitValue := 0 }
      exact (hclear.trans (Frame.killProcess _ t)).trans hexit
    · split
      · exact hclear.trans (Frame.handleSigcko _ t r.1)
      · exact hclear

theorem Frame.handleSignals (k : Machine) (t : ℕ) : Frame k (handleSignals t k).2 := by
  have hloop : ∀ (l : List ℕ) (r : Bool × Machine), Frame r.2 (l.foldl (Proc.handleSignal t) r).2 := by
    intro l
    induction l with
    | nil => exact fun _ => Frame.refl _
    | cons i l ih => exact fun r => (Frame.handleSignal t i r).trans (ih _)
  unfold Proc.handleSignals
  split
  · exact Frame.refl k
  · split
    · exact Frame.refl k
    · exact hloop _ (true, k)

theorem Frame.wakeTimer (k : Machine) (activeT : Timer) : Frame k (wakeTimer k activeT) := by
  unfold Proc.wakeTimer
  split
  · exact ⟨rfl, rfl, rfl, rfl, rfl, rfl, List.erase_subset⟩
  · exact Frame.refl k

theorem Frame.timersRun (k : Machine) : Frame k (timersRun k) := by
  have htick : Frame k { k with tickCount := u64 (k.tickCount + 1) } :=
    ⟨rfl, rfl, rfl, rfl, rfl, rfl, List.Subset.refl _⟩
  exact htick.trans (Frame.foldl Frame.wakeTimer _ _)

theorem Frame.pickNextThread {next : ℕ} (h : pickNextThread k = .ok next k') : Frame k k' := by
  obtain ⟨_, slice, rfl⟩ := pickNextThread_ok h
  exact Frame.modify k next _

theorem Frame.chargeReschedule (now next : ℕ) (k : Machine) :
    Frame k (chargeReschedule now next k) := by
  dsimp only [Kernel.chargeReschedule]
  split
  · exact (Frame.modify k next _).trans (Frame.modify _ _ _)
  · exact Frame.modify k next _

theorem Frame.chargeSwitch (now next : ℕ) (k : Machine) : Frame k (chargeSwitch now next k) := by
  dsimp only [Kernel.chargeSwitch]
  split
  · exact (Frame.modify k next _).trans (Frame.modify _ _ _)
  · exact Frame.modify k next _

theorem Frame.noResched (now : ℕ) (k : Machine) : Frame k (noResched now k) := by
  dsimp only [Kernel.noResched]
  split
  · exact (Frame.modify k _ _).trans ((Frame.modify _ _ _).trans (Frame.handleSignals _ _))
  · exact (Frame.modify k _ _).trans (Frame.handleSignals _ _)

theorem keeps_wakeUpTimers {α : Type*} {f : Thread → α} (hf : ∀ p s, f { p with state := s } = f p)
    (k : Machine) : Keeps f k (wakeUpTimers k) := by
  have hone : ∀ k activeT, Keeps f k (wakeTimer k activeT) := by
    intro k activeT
    unfold wakeTimer
    split
    · exact Keeps.setState hf { k with kernelTimers := k.kernelTimers.erase activeT } activeT.thread .runnable
    · exact Keeps.refl k
  exact Keeps.foldl hone k.kernelTimers k

theorem keeps_timersRun {α : Type*} {f : Thread → α} (hf : ∀ p s, f { p with state := s } = f p)
    (k : Machine) : Keeps f k (timersRun k) :=
  keeps_wakeUpTimers hf { k with tickCount := u64 (k.tickCount + 1) }

end Frame

end X86Osdev.Kernel

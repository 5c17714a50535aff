import X86Osdev.Proc.QueueInvariant
import X86Osdev.Proc.SignalMoves

/-! Threads that stay alive while others are moved: neither stopped nor zombies, on the running queue or
asleep. -/

namespace X86Osdev.Proc
open CircularList X86Osdev.Mem

def StoppedDead (k : Machine) (E : Queue → List ℕ) : Prop :=
  ∀ t ∈ E .stopped, (k.threads t).state.ko = true

/-- Neither `TASK_STOPPED` nor `TASK_ZOMBIE`, and on the running queue or asleep. -/
structure Alive (k : Machine) (E : Queue → List ℕ) (t : ℕ) : Prop where
  state : (k.threads t).state.ko = false
  queue : t ∈ E .running ∨ t ∈ E .sleep

/-- The move does not take the life of `t`. -/
def Spares (t : ℕ) : Move → Prop
  | .stop u => u ≠ t
  | .sleep _ => True
  | .wake u s => u = t → s.ko = false
  | .bury u => u ≠ t

section Alive
variable {k k' : Machine} {E : Queue → List ℕ} {t : ℕ} {m : Move}

theorem Alive.quiet (h : Alive k E t) (hq : Quiet k k') : Alive k' E t :=
  ⟨by rw [hq.state]; exact h.state, h.queue⟩

theorem StoppedDead.quiet (h : StoppedDead k E) (hq : Quiet k k') : StoppedDead k' E := by
  intro t ht
  rw [hq.state]
  exact h t ht

theorem Alive.play (hq : QueueInv k E) (h : Alive k E t) (hm : Spares t m) :
    Alive (m.play k) (m.after E) t := by
  by_cases hrel : m.relinks t
  · cases m with
    | stop u => exact (hm hrel).elim
    | sleep u =>
      obtain rfl : u = t := hrel
      refine ⟨congrArg TaskState.ko ((state_setState k u u _).trans (if_pos rfl)), .inr ?_⟩
      exact (mem_movedHead (hq.nodup_queue _)).mpr (.inl ⟨rfl, rfl⟩)
    | wake u s =>
      obtain rfl : u = t := hrel
      have hs : s.ko = false := hm rfl
      refine ⟨(congrArg TaskState.ko ((state_setState k u u s).trans (if_pos rfl))).trans hs, .inl ?_⟩
      exact (mem_movedTail (hq.nodup_queue _)).mpr (.inl ⟨rfl, rfl⟩)
    | bury u => exact hrel.elim
  · have hbury : m ≠ .bury t := by
      rintro rfl
      exact hm rfl
    refine ⟨(congrArg TaskState.ko (m.play_state hrel hbury k)).trans h.state, ?_⟩
    rw [m.mem_after_iff hrel, m.mem_after_iff hrel]
    exact h.queue

theorem StoppedDead.play (hq : QueueInv k E) (h : StoppedDead k E) :
    StoppedDead (m.play k) (m.after E) := by
  intro t ht
  by_cases hbury : m = .bury t
  · subst hbury
    exact congrArg TaskState.ko ((state_setState k t t _).trans (if_pos rfl))
  · by_cases hrel : m.relinks t
    · cases m with
      | stop u =>
        obtain rfl : u = t := hrel
        exact congrArg TaskState.ko ((state_setState k u u _).trans (if_pos rfl))
      | sleep u =>
        have hcase := (mem_movedHead (hq.nodup_queue _)).mp ht
        exact (hcase.elim (fun e => nomatch e.2) fun e => e.1 hrel.symm).elim
      | wake u s =>
        have hcase := (mem_movedTail (hq.nodup_queue _)).mp ht
        exact (hcase.elim (fun e => nomatch e.2) fun e => e.1 hrel.symm).elim
      | bury u => exact hrel.elim
    · rw [m.play_state hrel hbury]
      exact h t ((m.mem_after_iff hrel .stopped).mp ht)

theorem moves_alive {ok : Move → Prop} {S : ℕ → Prop} (hq : QueueInv k E) (hd : StoppedDead k E)
    (hS : ∀ t, S t → Alive k E t) (hok : ∀ m, ok m → ∀ t, S t → Spares t m) (hm : Moves ok k k') :
    ∃ E', QueueInv k' E' ∧ StoppedDead k' E' ∧ (∀ t, S t → Alive k' E' t) ∧
      ∀ t, (∃ q, t ∈ E q) → ∃ q, t ∈ E' q := by
  refine hq.moves_keep (P := fun k' E' => StoppedDead k' E' ∧ (∀ t, S t → Alive k' E' t) ∧
      ∀ t, (∃ q, t ∈ E q) → ∃ q, t ∈ E' q)
    ⟨hd, hS, fun _ ht => ht⟩ (fun k₁ k₂ E₁ h₁ hquiet => ?_) ?_ hm
  · exact ⟨h₁.1.quiet hquiet, fun t ht => (h₁.2.1 t ht).quiet hquiet, h₁.2.2⟩
  · intro k₁ m E₁ hq₁ h₁ hmok _
    obtain ⟨hd₁, hS₁, hplaced⟩ := h₁
    exact ⟨hd₁.play hq₁, fun t ht => (hS₁ t ht).play hq₁ (hok m hmok t ht),
      fun t ht => hq₁.mem_after (hplaced t ht)⟩

/-- `handle_signals(t)` spares a thread unless it kills it. -/
theorem signalMove_spares {v : ℕ} (h : Alive k E v) (hno : t = v → ¬ Killed t k) (hm : SignalMove t k m) :
    Spares v m := by
  have hkept : ∀ u, u = v → Killed t k → stateStopped t k u = (k.threads v).state := by
    rintro u rfl hkill
    exact if_neg fun e => hno e.symm hkill
  rcases hm with ⟨hkill, rfl | ⟨f, _, rfl⟩⟩ | ⟨rfl, _⟩ | ⟨c, hbury, rfl⟩
  · exact fun e => hno e hkill
  · intro e
    rw [hkept f e hkill]
    exact h.state
  · trivial
  · rintro rfl
    have hstate : stateAtSigcko t k c = (k.threads c).state := by
      unfold stateAtSigcko
      split
      · next hkill => exact hkept c rfl hkill
      · rfl
    have hko := h.state
    rw [← hstate, hbury.2.2.1] at hko
    cases hko

end Alive

end X86Osdev.Proc

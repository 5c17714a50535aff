import X86Osdev.Library.ByteMemory
import Mathlib.Order.Interval.Set.Defs

/-! Computations that read byte memory and keep a log of the ranges they read. No result stands for a loop
that does not end. -/

namespace TracedReads
open ByteMemory
variable {α β : Type}

/-- A result, with the start and the length of each range that has been read for it. -/
def Traced (α : Type) : Type := (ℕ → UInt8) → Option (α × List (ℕ × ℕ))

instance : Monad Traced where
  pure a := fun _ => some (a, [])
  bind c f := fun m => (c m).bind fun p => (f p.1 m).map fun q => (q.1, p.2 ++ q.2)

def never : Traced α := fun _ => none

def readNum (N w a : ℕ) : Traced ℕ := fun m => some (load N m w a, [(a, w)])

/-- The computation ends with `v` and reads within `P`. -/
def Gives (m : ℕ → UInt8) (P : Set ℕ) (c : Traced α) (v : α) : Prop :=
  ∃ log, c m = some (v, log) ∧ ∀ r ∈ log, Set.Ico r.1 (r.1 + r.2) ⊆ P

section Gives
variable {m : ℕ → UInt8} {P : Set ℕ} {c : Traced α} {f : α → Traced β} {v : α} {u : β} {N w a : ℕ}

theorem gives_pure : Gives m P (pure v) v :=
  ⟨[], rfl, fun _ h => absurd h List.not_mem_nil⟩

theorem Gives.bind (h : Gives m P c v) (hf : Gives m P (f v) u) : Gives m P (c >>= f) u := by
  obtain ⟨log, hc, hlog⟩ := h
  obtain ⟨log', hc', hlog'⟩ := hf
  refine ⟨log ++ log', ?_, fun r hr => ?_⟩
  · change (c m).bind _ = _
    rw [hc, Option.bind_some, hc']
    rfl
  · exact (List.mem_append.mp hr).elim (hlog r) (hlog' r)

theorem gives_read (h : Set.Ico a (a + w) ⊆ P) : Gives m P (readNum N w a) (load N m w a) := by
  refine ⟨[(a, w)], rfl, fun r hr => ?_⟩
  rw [List.mem_singleton.mp hr]
  exact h

theorem Gives.bind_inv (h : Gives m P (c >>= f) u) : ∃ v, Gives m P c v ∧ Gives m P (f v) u := by
  obtain ⟨log, hrun, hlog⟩ := h
  change (c m).bind _ = _ at hrun
  obtain ⟨⟨v, l⟩, hc, hrest⟩ := Option.bind_eq_some_iff.mp hrun
  obtain ⟨⟨u', l'⟩, hf, he⟩ := Option.map_eq_some_iff.mp hrest
  obtain ⟨rfl, rfl⟩ := Prod.mk.inj he
  exact ⟨v, ⟨l, hc, fun r hr => hlog r (List.mem_append_left _ hr)⟩,
    ⟨l', hf, fun r hr => hlog r (List.mem_append_right _ hr)⟩⟩

theorem Gives.pure_inv {v' : α} (h : Gives m P (pure v) v') : v' = v := by
  obtain ⟨log, hrun, -⟩ := h
  exact (congrArg Prod.fst (Option.some.inj hrun)).symm

theorem Gives.read_inv {n : ℕ} (h : Gives m P (readNum N w a) n) :
    n = load N m w a ∧ Set.Ico a (a + w) ⊆ P := by
  obtain ⟨log, hrun, hlog⟩ := h
  obtain ⟨rfl, rfl⟩ := Prod.mk.inj (Option.some.inj hrun)
  exact ⟨rfl, hlog (a, w) (List.mem_singleton.mpr rfl)⟩

theorem Gives.unique {Q : Set ℕ} {v' : α} (h : Gives m P c v) (h' : Gives m Q c v') : v = v' := by
  obtain ⟨log, hrun, -⟩ := h
  obtain ⟨log', hrun', -⟩ := h'
  exact congrArg Prod.fst (Option.some.inj (hrun.symm.trans hrun'))

/-- What comes after a computation depends on its result only. -/
theorem Gives.bind_iff (h : Gives m P c v) : Gives m P (c >>= f) u ↔ Gives m P (f v) u := by
  refine ⟨fun hb => ?_, h.bind⟩
  obtain ⟨v', hc, hf⟩ := hb.bind_inv
  exact h.unique hc ▸ hf

theorem gives_pure_iff {v' : α} : Gives m P (pure v) v' ↔ v' = v :=
  ⟨Gives.pure_inv, fun e => e ▸ gives_pure⟩

theorem not_gives_never : ¬ Gives m P (never : Traced α) v := by
  rintro ⟨log, h, -⟩
  cases h

end Gives

end TracedReads

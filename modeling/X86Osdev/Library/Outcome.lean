import Mathlib.Order.Nat
import Mathlib.Tactic.TypeStar

/-! Results of a call in a machine that can also halt or never return. -/

/-- `hang` is a call that waits or loops for ever. -/
inductive Outcome (σ α : Type*) where
  | ok (a : α) (s : σ)
  | panic (msg : String) (s : σ)
  | hang (s : σ)
deriving DecidableEq

namespace Outcome
variable {σ τ α β : Type*}

def bind : Outcome σ α → (α → σ → Outcome σ β) → Outcome σ β
  | ok a s, f => f a s
  | panic msg s, _ => panic msg s
  | hang s, _ => hang s

/-- Run a call on one component of a larger state; `put` stores the component back. -/
def lift (put : σ → τ) : Outcome σ α → Outcome τ α
  | ok a s => ok a (put s)
  | panic msg s => panic msg (put s)
  | hang s => hang (put s)

@[simp] theorem bind_ok (a : α) (s : σ) (f : α → σ → Outcome σ β) : (ok a s).bind f = f a s := rfl

@[simp] theorem bind_panic (msg : String) (s : σ) (f : α → σ → Outcome σ β) :
    (panic msg s).bind f = panic msg s := rfl

@[simp] theorem bind_hang (s : σ) (f : α → σ → Outcome σ β) : (hang s).bind f = hang s := rfl

@[simp] theorem lift_ok (put : σ → τ) (a : α) (s : σ) : (ok a s).lift put = ok a (put s) := rfl

@[simp] theorem lift_panic (put : σ → τ) (msg : String) (s : σ) :
    (panic msg s : Outcome σ α).lift put = panic msg (put s) := rfl

@[simp] theorem lift_hang (put : σ → τ) (s : σ) :
    (hang s : Outcome σ α).lift put = hang (put s) := rfl

theorem bind_eq_ok {x : Outcome σ α} {f : α → σ → Outcome σ β} {b : β} {t : σ} :
    x.bind f = ok b t ↔ ∃ a s, x = ok a s ∧ f a s = ok b t := by
  constructor
  · intro h
    cases x with
    | ok a s => exact ⟨a, s, rfl, h⟩
    | panic msg s => cases h
    | hang s => cases h
  · rintro ⟨a, s, rfl, h⟩
    exact h

theorem bind_eq_panic {x : Outcome σ α} {f : α → σ → Outcome σ β} {msg : String} {t : σ} :
    x.bind f = panic msg t ↔ x = panic msg t ∨ ∃ a s, x = ok a s ∧ f a s = panic msg t := by
  constructor
  · intro h
    cases x with
    | ok a s => exact .inr ⟨a, s, rfl, h⟩
    | panic msg s =>
      cases h
      exact .inl rfl
    | hang s => cases h
  · rintro (rfl | ⟨a, s, rfl, h⟩)
    · rfl
    · exact h

theorem lift_eq_panic {x : Outcome σ α} {put : σ → τ} {msg : String} {t : τ} :
    x.lift put = panic msg t ↔ ∃ s, x = panic msg s ∧ put s = t := by
  constructor
  · intro h
    cases x with
    | ok a s => cases h
    | panic msg s =>
      cases h
      exact ⟨s, rfl, rfl⟩
    | hang s => cases h
  · rintro ⟨s, rfl, rfl⟩
    rfl

def toOption : Outcome σ α → Option (α × σ)
  | ok a s => some (a, s)
  | panic _ _ => none
  | hang _ => none

theorem toOption_eq_some {x : Outcome σ α} {a : α} {s : σ} :
    x.toOption = some (a, s) ↔ x = ok a s := by
  cases x with
  | ok b t => simp [toOption]
  | panic msg t => simp [toOption]
  | hang t => simp [toOption]

theorem lift_eq_ok {x : Outcome σ α} {put : σ → τ} {a : α} {t : τ} :
    x.lift put = ok a t ↔ ∃ s, x = ok a s ∧ put s = t := by
  constructor
  · intro h
    cases x with
    | ok b s =>
      cases h
      exact ⟨s, rfl, rfl⟩
    | panic msg s => cases h
    | hang s => cases h
  · rintro ⟨s, rfl, rfl⟩
    rfl

/-- A call that repeats itself until it returns `true`; `turn i` is its run number `i`. -/
def retry (turn : ℕ → σ → Outcome σ Bool) : ℕ → ℕ → σ → Option (Outcome σ Unit)
  | 0, _, _ => none
  | fuel + 1, i, s =>
    match turn i s with
    | .ok true s => some (.ok () s)
    | .ok false s => retry turn fuel (i + 1) s
    | .panic msg s => some (.panic msg s)
    | .hang s => some (.hang s)

theorem retry_ends {turn : ℕ → σ → Outcome σ Bool} {I : σ → Prop} {work : σ → ℕ}
    (hturn : ∀ i s, I s → ∃ done s', turn i s = .ok done s' ∧ I s' ∧ (done = false → work s' < work s))
    {fuel : ℕ} (i : ℕ) {s : σ} (hs : I s) (hf : work s < fuel) :
    ∃ s', retry turn fuel i s = some (.ok () s') ∧ I s' ∧ ∃ j s₁, I s₁ ∧ turn j s₁ = .ok true s' := by
  induction fuel generalizing i s with
  | zero => exact absurd hf (Nat.not_lt_zero _)
  | succ fuel ih =>
    obtain ⟨done, s', hone, hs', hless⟩ := hturn i s hs
    unfold retry
    rw [hone]
    cases done with
    | true => exact ⟨s', rfl, hs', i, s, hs, hone⟩
    | false => exact ih (i + 1) hs' (lt_of_lt_of_le (hless rfl) (Nat.le_of_lt_succ hf))

end Outcome

import Mathlib.Logic.Relation

/-! Runs of a partial step function, and runs given as lists of events. -/

namespace Runs
variable {σ ε : Type*} {step : ε → σ → Option σ} {allowed : σ → ε → Prop} {s s' : σ}

/-- A step by an event that `allowed` lets through. -/
def Step (step : ε → σ → Option σ) (allowed : σ → ε → Prop) (s s' : σ) : Prop :=
  ∃ ev, allowed s ev ∧ step ev s = some s'

/-- The states of a run from `s` on. -/
abbrev Steps (step : ε → σ → Option σ) (allowed : σ → ε → Prop) : σ → σ → Prop :=
  Relation.ReflTransGen (Step step allowed)

/-- What every allowed step keeps, a run keeps. -/
theorem Steps.invariant {I : σ → Prop}
    (hstep : ∀ s ev s', I s → allowed s ev → step ev s = some s' → I s')
    (hrun : Steps step allowed s s') (h : I s) : I s' := by
  induction hrun with
  | refl => exact h
  | tail _ hs ih =>
    obtain ⟨ev, hok, hs⟩ := hs
    exact hstep _ ev _ ih hok hs

theorem Steps.mono {allowed' : σ → ε → Prop} (h : ∀ s ev, allowed s ev → allowed' s ev)
    (hrun : Steps step allowed s s') : Steps step allowed' s s' := by
  refine Relation.ReflTransGen.mono ?_ _ _ hrun
  rintro s₁ s₂ ⟨ev, hok, hs⟩
  exact ⟨ev, h s₁ ev hok, hs⟩

/-- The run of a list of events, as long as each passes the check. -/
def runList (step : ε → σ → Option σ) (check : σ → ε → Bool) : List ε → σ → Option σ
  | [], s => some s
  | ev :: evs, s => if check s ev then (step ev s).bind (runList step check evs) else none

variable {check : σ → ε → Bool} {evs : List ε}

theorem runList_steps (hcheck : ∀ s ev, check s ev = true → allowed s ev)
    (h : runList step check evs s = some s') : Steps step allowed s s' := by
  induction evs generalizing s with
  | nil =>
    cases h
    exact .refl
  | cons ev evs ih =>
    unfold runList at h
    split at h
    · next hpass =>
      obtain ⟨s₁, hone, hrest⟩ := Option.bind_eq_some_iff.mp h
      exact .head ⟨ev, hcheck s ev hpass, hone⟩ (ih hrest)
    · cases h

theorem runList_append (evs' : List ε) : runList step check (evs ++ evs') s =
    (runList step check evs s).bind (runList step check evs') := by
  induction evs generalizing s with
  | nil => rfl
  | cons ev evs ih =>
    change (if check s ev then (step ev s).bind (runList step check (evs ++ evs')) else none) =
      (if check s ev then (step ev s).bind (runList step check evs) else none).bind _
    split
    · rw [Option.bind_assoc]
      exact congrArg _ (funext fun _ => ih)
    · rfl

theorem runList_getD {d : σ} (h : (runList step check evs s).isSome) :
    runList step check evs s = some ((runList step check evs s).getD d) := by
  obtain ⟨s', hs'⟩ := Option.isSome_iff_exists.mp h
  rw [hs']
  rfl

section Logged
variable {β : Type*} {entry : ε → List β} {log : List β}

/-- The step function together with a log of what `entry` says of the events. -/
def logged (step : ε → σ → Option σ) (entry : ε → List β) (ev : ε) (s : σ × List β) :
    Option (σ × List β) :=
  (step ev s.1).map fun s' => (s', s.2 ++ entry ev)

theorem logged_eq_some {ev : ε} {p p' : σ × List β} : logged step entry ev p = some p' ↔
    step ev p.1 = some p'.1 ∧ p'.2 = p.2 ++ entry ev := by
  unfold logged
  constructor
  · intro h
    obtain ⟨s', hs, rfl⟩ := Option.map_eq_some_iff.mp h
    exact ⟨hs, rfl⟩
  · rintro ⟨hs, hlog⟩
    rw [hs, Option.map_some, ← hlog]

end Logged

end Runs

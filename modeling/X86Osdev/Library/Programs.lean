/-! Programs of atomic actions, where anything may happen between two actions. -/

namespace Programs
variable {α σ β γ : Type}

/-- A program has a result, or it does an action and goes on by the state that it found. -/
inductive Program (α σ β : Type) where
  | done (b : β)
  | act (a : α) (next : σ → Program α σ β)

namespace Program

def bind : Program α σ β → (β → Program α σ γ) → Program α σ γ
  | .done b, f => f b
  | .act a next, f => .act a fun s => (next s).bind f

instance : Monad (Program α σ) where
  pure := .done
  bind := .bind

def perform (a : α) : Program α σ Unit := .act a fun _ => .done ()

/-- The state that the action `a` finds. -/
def found (a : α) : Program α σ σ := .act a .done

/-- The program with nothing in between. -/
def run (exec : α → σ → σ) : Program α σ β → σ → β × σ
  | .done b, s => (b, s)
  | .act a next, s => (next s).run exec (exec a s)

/-- In states of `P` the program does only actions of `ok`, and its result is in `Q`. -/
def Always (P : σ → Prop) (ok : α → Prop) (Q : β → Prop) : Program α σ β → Prop
  | .done b => Q b
  | .act a next => ok a ∧ ∀ s, P s → (next s).Always P ok Q

section Run
variable {exec : α → σ → σ} {p : Program α σ β} {f : β → Program α σ γ} {s : σ}

@[simp] theorem run_pure (b : β) : (pure b : Program α σ β).run exec s = (b, s) := rfl

@[simp] theorem run_perform (a : α) : (perform a : Program α σ Unit).run exec s = ((), exec a s) := rfl

@[simp] theorem run_found (a : α) : (found a : Program α σ σ).run exec s = (s, exec a s) := rfl

@[simp] theorem run_bind : (p >>= f).run exec s = (f (p.run exec s).1).run exec (p.run exec s).2 := by
  show (p.bind f).run exec s = _
  induction p generalizing s with
  | done b => rfl
  | act a next ih => exact ih s

end Run

section Always
variable {P : σ → Prop} {ok : α → Prop} {Q : β → Prop} {p : Program α σ β} {a : α}

theorem Always.pure {b : β} (h : Q b) : (Pure.pure b : Program α σ β).Always P ok Q := h

theorem Always.perform {Q : Unit → Prop} (h : ok a) (hq : Q ()) : (perform a : Program α σ Unit).Always P ok Q :=
  ⟨h, fun _ _ => hq⟩

theorem Always.found {Q : σ → Prop} (h : ok a) (hq : ∀ s, P s → Q s) : (found a).Always P ok Q := ⟨h, hq⟩

theorem Always.mono {Q' : β → Prop} (hq : ∀ b, Q b → Q' b) (h : p.Always P ok Q) : p.Always P ok Q' := by
  induction p with
  | done b => exact hq b h
  | act a next ih => exact ⟨h.1, fun s hs => ih s (h.2 s hs)⟩

theorem Always.bind {f : β → Program α σ γ} {R : γ → Prop} (h : p.Always P ok fun b => (f b).Always P ok R) :
    (p >>= f).Always P ok R := by
  show (p.bind f).Always P ok R
  induction p with
  | done b => exact h
  | act a next ih => exact ⟨h.1, fun s hs => ih s (h.2 s hs)⟩

end Always

end Program

end Programs

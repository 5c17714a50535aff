import X86Osdev.Library.Outcome

/-! Contracts of calls that return, unless they stop the machine with one of the messages they may stop it with. -/

namespace Contracts
open Outcome
variable {σ τ α β : Type*} {stops : String → Prop} {x : Outcome σ α} {Q : α → σ → Prop}

/-- The call returns a result and a state with `Q`, or stops the machine. -/
def Meets (stops : String → Prop) (x : Outcome σ α) (Q : α → σ → Prop) : Prop :=
  (∃ a s, x = .ok a s ∧ Q a s) ∨ ∃ msg s, x = .panic msg s ∧ stops msg

theorem Meets.ok {a : α} {s : σ} (h : Q a s) : Meets stops (.ok a s) Q := .inl ⟨a, s, rfl, h⟩

theorem Meets.stop {stops' : String → Prop} (h : Meets stops x Q) (hstops : ∀ msg, stops msg → stops' msg) :
    Meets stops' x Q := by
  rcases h with hok | ⟨msg, s, hpanic, hmsg⟩
  · exact .inl hok
  · exact .inr ⟨msg, s, hpanic, hstops msg hmsg⟩

theorem Meets.imp {R : α → σ → Prop} (h : Meets stops x Q) (hR : ∀ a s, Q a s → R a s) : Meets stops x R := by
  rcases h with ⟨a, s, rfl, ha⟩ | hstop
  · exact .ok (hR a s ha)
  · exact .inr hstop

theorem Meets.bind {f : α → σ → Outcome σ β} {R : β → σ → Prop} (h : Meets stops x Q)
    (hf : ∀ a s, Q a s → Meets stops (f a s) R) : Meets stops (x.bind f) R := by
  rcases h with ⟨a, s, rfl, ha⟩ | ⟨msg, s, rfl, hmsg⟩
  · exact hf a s ha
  · exact .inr ⟨msg, s, rfl, hmsg⟩

theorem Meets.lift {put : σ → τ} {R : α → τ → Prop} (h : Meets stops x Q) (hR : ∀ a s, Q a s → R a (put s)) :
    Meets stops (x.lift put) R := by
  rcases h with ⟨a, s, rfl, ha⟩ | ⟨msg, s, rfl, hmsg⟩
  · exact .inl ⟨a, put s, rfl, hR a s ha⟩
  · exact .inr ⟨msg, put s, rfl, hmsg⟩

theorem Meets.of_ok {a : α} {s : σ} (h : Meets stops (.ok a s) Q) : Q a s := by
  rcases h with ⟨b, t, hok, hb⟩ | ⟨msg, t, hpanic, -⟩
  · obtain ⟨rfl, rfl⟩ := Outcome.ok.inj hok
    exact hb
  · cases hpanic

end Contracts

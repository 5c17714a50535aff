import Mathlib.Data.Fintype.Card
import Mathlib.Logic.Relation
import Mathlib.Order.WellFounded

/-! Accessibility where only finitely many points can be reached: it fails only through a cycle. -/

namespace Acyclic
open Relation
variable {α : Type*} {r : α → α → Prop} {a b : α}

/-- No point that can be reached from `a` leads back to itself. -/
def NoCycleFrom (r : α → α → Prop) (a : α) : Prop := ∀ b, ReflTransGen r a b → ¬ TransGen r b b

theorem acc_reachable (h : Acc (fun y x => r x y) a) (hab : ReflTransGen r a b) :
    Acc (fun y x => r x y) b := by
  induction hab with
  | refl => exact h
  | tail _ hbc ih => exact ih.inv hbc

theorem not_cycle_of_acc (h : Acc (fun y x => r x y) a) : ¬ TransGen r a a := by
  induction h with
  | intro x _ ih =>
    intro hcycle
    obtain ⟨y, hxy, hyx⟩ := TransGen.head'_iff.mp hcycle
    exact ih y hxy (TransGen.tail' hyx hxy)

theorem acc_of_noCycleFrom (hfin : {b | ReflTransGen r a b}.Finite) (hno : NoCycleFrom r a) :
    Acc (fun y x => r x y) a := by
  let reached := {b // ReflTransGen r a b}
  let later : reached → reached → Prop := fun y x => TransGen r x.1 y.1
  have : Finite reached := hfin
  have : IsTrans reached later := ⟨fun _ _ _ hxy hyz => TransGen.trans hyz hxy⟩
  have : Std.Irrefl later := ⟨fun x => hno x.1 x.2⟩
  have hwf : WellFounded later := Finite.wellFounded_of_trans_of_irrefl later
  have hall : ∀ x : reached, Acc (fun y x => r x y) x.1 := by
    intro x
    induction x using hwf.induction with
    | h x ih => exact Acc.intro x.1 fun y hy => ih ⟨y, x.2.tail hy⟩ (TransGen.single hy)
  exact hall ⟨a, .refl⟩

theorem acc_iff_noCycleFrom (hfin : {b | ReflTransGen r a b}.Finite) :
    Acc (fun y x => r x y) a ↔ NoCycleFrom r a :=
  ⟨fun h _ hb => not_cycle_of_acc (acc_reachable h hb), acc_of_noCycleFrom hfin⟩

end Acyclic

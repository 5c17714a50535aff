import X86Osdev.Library.Runs
import Mathlib.Algebra.Order.BigOperators.Group.Finset

/-! Service in turns that always go to one of those served least. Whoever waits bounds what the others can
get before it: the headroom that they have below it pays for their turns. -/

namespace LeastService
variable {ι : Type*} {U : Finset ι} {limit turn due due' : ℕ} {served served' : ι → ℕ} {u : ι}

/-- What the members of `U` can be served before each has had more than `limit`. -/
def headroom (U : Finset ι) (limit : ℕ) (served : ι → ℕ) : ℕ := ∑ u ∈ U, (limit + 1 - served u)

/-- Every unit of headroom pays for a turn; `due` is what is left of the present one. -/
def credit (U : Finset ι) (limit turn : ℕ) (served : ι → ℕ) (due : ℕ) : ℕ :=
  turn * headroom U limit served + due

theorem headroom_le (h : ∀ u ∈ U, served u ≤ served' u) : headroom U limit served' ≤ headroom U limit served :=
  Finset.sum_le_sum fun u hu => Nat.sub_le_sub_left (h u hu) _

theorem headroom_lt (h : ∀ u ∈ U, served u ≤ served' u) (hu : u ∈ U) (hle : served u ≤ limit)
    (hlt : served u < served' u) : headroom U limit served' < headroom U limit served :=
  Finset.sum_lt_sum (fun u hu => Nat.sub_le_sub_left (h u hu) _)
    ⟨u, hu, Nat.sub_lt_sub_left (Nat.lt_succ_of_le hle) hlt⟩

theorem credit_le (h : ∀ u ∈ U, served u ≤ served' u) (hdue : due' ≤ due) :
    credit U limit turn served' due' ≤ credit U limit turn served due :=
  Nat.add_le_add (Nat.mul_le_mul_left turn (headroom_le h)) hdue

theorem credit_lt (h : ∀ u ∈ U, served u ≤ served' u) (hdue : due' < due) :
    credit U limit turn served' due' < credit U limit turn served due :=
  Nat.add_lt_add_of_le_of_lt (Nat.mul_le_mul_left turn (headroom_le h)) hdue

theorem credit_lt_of_served (h : ∀ u ∈ U, served u ≤ served' u) (hu : u ∈ U) (hle : served u ≤ limit)
    (hlt : served u < served' u) (hdue : due' < turn) :
    credit U limit turn served' due' < credit U limit turn served due := by
  have hroom : headroom U limit served' + 1 ≤ headroom U limit served := headroom_lt h hu hle hlt
  calc turn * headroom U limit served' + due'
      < turn * headroom U limit served' + turn := Nat.add_lt_add_left hdue _
    _ = turn * (headroom U limit served' + 1) := (Nat.mul_succ _ _).symm
    _ ≤ turn * headroom U limit served := Nat.mul_le_mul_left turn hroom
    _ ≤ turn * headroom U limit served + due := Nat.le_add_right _ _

section Runs
open Runs
variable {σ ε β : Type*} {step : ε → σ → Option σ} {allowed : σ → ε → Prop} {entry : ε → List β}
  {s s' : σ} {log : List β}

theorem length_log_le {I : σ → Prop} {μ : σ → ℕ}
    (hstep : ∀ s ev s', I s → allowed s ev → step ev s = some s' → I s' ∧ μ s' + (entry ev).length ≤ μ s)
    (hrun : Steps (logged step entry) (fun p ev => allowed p.1 ev) (s, []) (s', log)) (h : I s) :
    log.length ≤ μ s := by
  suffices hall : ∀ p, Steps (logged step entry) (fun p ev => allowed p.1 ev) (s, []) p →
      I p.1 ∧ μ p.1 + p.2.length ≤ μ s from (Nat.le_add_left _ _).trans (hall _ hrun).2
  intro p hp
  induction hp with
  | refl => exact ⟨h, le_rfl⟩
  | tail _ hs ih =>
    obtain ⟨ev, hok, hs⟩ := hs
    obtain ⟨hs, hlog⟩ := logged_eq_some.mp hs
    obtain ⟨hi, hle⟩ := ih
    obtain ⟨hi', hle'⟩ := hstep _ ev _ hi hok hs
    refine ⟨hi', ?_⟩
    rw [hlog, List.length_append]
    omega

end Runs

end LeastService

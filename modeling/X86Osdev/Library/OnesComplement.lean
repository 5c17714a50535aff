import Mathlib.Algebra.BigOperators.Group.List.Basic
import Mathlib.Algebra.Order.BigOperators.Group.List
import Mathlib.Data.Nat.ModEq

/-! One's complement numbers below a base `B`: a carry out of a sum goes back in at its low end. -/

namespace OnesComplement
variable {B : ℕ}

def add (B a b : ℕ) : ℕ := if a + b < B then a + b else a + b + 1 - B

def sum (B : ℕ) (xs : List ℕ) : ℕ := xs.foldl (add B) 0

def complement (B a : ℕ) : ℕ := B - 1 - a

/-- What is left of an unbounded sum once all carries have gone back in. -/
def reduce (B n : ℕ) : ℕ := if n = 0 then 0 else (n - 1) % (B - 1) + 1

/-- The carries go back in once. -/
def fold (B n : ℕ) : ℕ := n % B + n / B

section Reduce
variable {a b n r : ℕ}

theorem reduce_lt (hB : 1 < B) (n : ℕ) : reduce B n < B := by
  unfold reduce
  have hmod : (n - 1) % (B - 1) < B - 1 := Nat.mod_lt _ (by omega)
  split
  · omega
  · omega

theorem reduce_eq_zero : reduce B n = 0 ↔ n = 0 := by
  unfold reduce
  split
  · simp [*]
  · simp [*]

theorem reduce_modEq (n : ℕ) : reduce B n ≡ n [MOD B - 1] := by
  unfold reduce
  split
  · next h => rw [h]
  · next h =>
    have hpred : (n - 1) % (B - 1) ≡ n - 1 [MOD B - 1] := Nat.mod_modEq _ _
    have hsucc := hpred.add_right 1
    rwa [Nat.sub_add_cancel (Nat.one_le_iff_ne_zero.mpr h)] at hsucc

/-- Zero has two representations, and the larger one is that of all multiples of `B - 1` but zero. -/
theorem reduce_unique (hB : 1 < B) (hr : r < B) (hzero : r = 0 ↔ n = 0) (hmod : r ≡ n [MOD B - 1]) :
    r = reduce B n := by
  have hmod' := hmod.trans (reduce_modEq n).symm
  have hlt := reduce_lt hB n
  have hzero' : r = 0 ↔ reduce B n = 0 := hzero.trans reduce_eq_zero.symm
  by_cases h0 : r = 0
  · rw [h0, hzero'.mp h0]
  · have hpos : reduce B n ≠ 0 := fun e => h0 (hzero'.mpr e)
    have hpred : r - 1 ≡ reduce B n - 1 [MOD B - 1] := by
      apply Nat.ModEq.add_right_cancel' 1
      rwa [Nat.sub_add_cancel (Nat.one_le_iff_ne_zero.mpr h0),
        Nat.sub_add_cancel (Nat.one_le_iff_ne_zero.mpr hpos)]
    have heq := hpred.eq_of_lt_of_lt (by omega) (by omega)
    omega

theorem reduce_of_lt (hB : 1 < B) (hn : n < B) : reduce B n = n :=
  (reduce_unique hB hn Iff.rfl (Nat.ModEq.refl n)).symm

theorem base_modEq_one (hB : 1 < B) : B ≡ 1 [MOD B - 1] := by
  have hself : B - 1 ≡ 0 [MOD B - 1] := (Nat.modEq_zero_iff_dvd).mpr (dvd_refl _)
  have hsucc := hself.add_right 1
  rwa [Nat.sub_add_cancel (by omega), Nat.zero_add] at hsucc

theorem add_eq_reduce (hB : 1 < B) (ha : a < B) (hb : b < B) : add B a b = reduce B (a + b) := by
  unfold add
  split
  · next h => exact (reduce_of_lt hB h).symm
  · next h =>
    refine reduce_unique hB (by omega) (by omega) ?_
    apply Nat.ModEq.add_right_cancel' B
    rw [Nat.sub_add_cancel (by omega)]
    exact (Nat.ModEq.refl (a + b)).add (base_modEq_one hB).symm

theorem reduce_congr (hB : 1 < B) {m : ℕ} (hzero : m = 0 ↔ n = 0) (hmod : m ≡ n [MOD B - 1]) :
    reduce B m = reduce B n :=
  reduce_unique hB (reduce_lt hB m) (reduce_eq_zero.trans hzero) ((reduce_modEq m).trans hmod)

theorem reduce_reduce_add (hB : 1 < B) (m n : ℕ) : reduce B (reduce B m + n) = reduce B (m + n) := by
  have hm : reduce B m = 0 ↔ m = 0 := reduce_eq_zero
  exact reduce_congr hB (by omega) ((reduce_modEq m).add_right n)

/-- However often carries go back in on the way, the sum is the same. -/
theorem sum_eq_reduce (hB : 1 < B) {xs : List ℕ} (hx : ∀ x ∈ xs, x < B) :
    sum B xs = reduce B xs.sum := by
  have key : ∀ (xs : List ℕ) (n : ℕ), (∀ x ∈ xs, x < B) →
      xs.foldl (add B) (reduce B n) = reduce B (n + xs.sum) := by
    intro xs
    induction xs with
    | nil => intro n _; rfl
    | cons x xs ih =>
      intro n hx
      rw [List.foldl_cons, add_eq_reduce hB (reduce_lt hB n) (hx x (List.mem_cons_self ..)),
        reduce_reduce_add hB, ih _ fun y hy => hx y (List.mem_cons_of_mem _ hy), List.sum_cons,
        Nat.add_assoc]
  have hrun := key xs 0 hx
  rwa [reduce_eq_zero.mpr rfl, Nat.zero_add] at hrun

theorem reduce_fold (hB : 1 < B) (n : ℕ) : reduce B (fold B n) = reduce B n := by
  have hdiv : B * (n / B) + n % B = n := Nat.div_add_mod n B
  refine reduce_congr hB ?_ ?_
  · unfold fold
    constructor
    · intro h
      obtain ⟨hmod, hq⟩ := Nat.add_eq_zero_iff.mp h
      rw [hq, hmod, Nat.mul_zero] at hdiv
      exact hdiv.symm
    · rintro rfl
      simp
  · have hmul := (base_modEq_one hB).symm.mul_right (n / B)
    have hsum := hmul.add_right (n % B)
    rw [hdiv, Nat.one_mul, Nat.add_comm] at hsum
    exact hsum

theorem fold_lt (hB : 1 < B) (hn : B ≤ n) : fold B n < n := by
  have hdiv : B * (n / B) + n % B = n := Nat.div_add_mod n B
  have hq : 0 < n / B := Nat.div_pos hn (by omega)
  have hmul : 2 * (n / B) ≤ B * (n / B) := Nat.mul_le_mul_right _ hB
  unfold fold
  omega

theorem fold_fold (hB : 1 < B) (hn : n < B * B) : fold B (fold B n) = reduce B n := by
  have hmod : n % B < B := Nat.mod_lt _ (by omega)
  have hdiv : n / B < B := Nat.div_lt_of_lt_mul hn
  have hlt : fold B (fold B n) < B := by
    by_cases hf : fold B n < B
    · unfold fold at hf ⊢
      rw [Nat.mod_eq_of_lt hf, Nat.div_eq_of_lt hf]
      exact hf
    · have hone : fold B n / B = 1 := by
        apply Nat.div_eq_of_lt_le
        · omega
        · unfold fold
          omega
      have hrest := Nat.div_add_mod (fold B n) B
      rw [hone] at hrest
      have hle : fold B n ≤ B - 1 + (B - 1) := by
        unfold fold
        omega
      have hval : fold B (fold B n) = fold B n % B + fold B n / B := rfl
      rw [hval, hone]
      omega
  rw [← reduce_fold hB n, ← reduce_fold hB (fold B n), reduce_of_lt hB hlt]

/-- With the complement of the sum among the summands every bit of the sum is set. -/
theorem reduce_add_complement (hB : 1 < B) (n : ℕ) :
    reduce B (n + complement B (reduce B n)) = B - 1 := by
  have hlt := reduce_lt hB n
  have hall : reduce B n + complement B (reduce B n) = B - 1 := by
    unfold complement
    omega
  rw [← reduce_reduce_add hB, hall, reduce_of_lt hB (by omega)]

end Reduce

end OnesComplement

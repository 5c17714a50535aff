import Mathlib.Data.List.TakeWhile

/-! Lists split at the maximal runs of a delimiter. -/

namespace SplitRuns
variable {α : Type*} [DecidableEq α]

/-- What follows the first run of `d`. -/
def afterRun (d : α) (s : List α) : List α := (s.dropWhile (· ≠ d)).dropWhile (· = d)

/-- The pieces between the runs, counted from 0; empty when there are not as many. A list that begins with
a run has an empty first piece. -/
def piece (d : α) : ℕ → List α → List α
  | 0, s => s.takeWhile (· ≠ d)
  | k + 1, s => piece d k (afterRun d s)

/-- The number of runs, each counted at its end. -/
def runs (d : α) : List α → ℕ
  | [] => 0
  | x :: s => runs d s + if x = d ∧ s.head? ≠ some d then 1 else 0

/-- The list ends in a run, and there are not more than `k`. -/
def Exhausts (d : α) (k : ℕ) (s : List α) : Prop := s.getLast? = some d ∧ runs d s ≤ k

section Pieces
variable {d : α} {tok rest : List α} {k : ℕ}

theorem afterRun_append (htok : ∀ x ∈ tok, x ≠ d) :
    afterRun d (tok ++ d :: rest) = rest.dropWhile (· = d) := by
  unfold afterRun
  rw [List.dropWhile_append_of_pos (by simpa using htok), List.dropWhile_cons_of_neg (by simp),
    List.dropWhile_cons_of_pos (by simp)]

theorem piece_zero (htok : ∀ x ∈ tok, x ≠ d) : piece d 0 (tok ++ d :: rest) = tok := by
  unfold piece
  rw [List.takeWhile_append_of_pos (by simpa using htok), List.takeWhile_cons_of_neg (by simp),
    List.append_nil]

theorem piece_succ (htok : ∀ x ∈ tok, x ≠ d) :
    piece d (k + 1) (tok ++ d :: rest) = piece d k (rest.dropWhile (· = d)) := by
  rw [piece, afterRun_append htok]

theorem piece_nil (d : α) (k : ℕ) : piece d k [] = [] := by
  induction k with
  | zero => rfl
  | succ k ih => exact ih

theorem piece_last (htok : ∀ x ∈ tok, x ≠ d) : piece d k tok = if k = 0 then tok else [] := by
  cases k with
  | zero =>
    rw [if_pos rfl]
    exact List.takeWhile_eq_self_iff.mpr (by simpa using htok)
  | succ k =>
    have hdrop : tok.dropWhile (· ≠ d) = [] := List.dropWhile_eq_nil_iff.mpr (by simpa using htok)
    rw [if_neg (by simp), piece, afterRun, hdrop]
    exact piece_nil d k

theorem runs_append (htok : ∀ x ∈ tok, x ≠ d) (s : List α) : runs d (tok ++ s) = runs d s := by
  induction tok with
  | nil => rfl
  | cons x tok ih =>
    have hx : x ≠ d := htok x (List.mem_cons_self ..)
    rw [List.cons_append, runs, ih fun y hy => htok y (List.mem_cons_of_mem _ hy), if_neg fun h => hx h.1,
      Nat.add_zero]

theorem runs_cons (rest : List α) : runs d (d :: rest) = runs d (rest.dropWhile (· = d)) + 1 := by
  induction rest with
  | nil => simp [runs]
  | cons x rest ih =>
    by_cases hx : x = d
    · subst hx
      rw [List.dropWhile_cons_of_pos (by simp), ← ih, runs, if_neg (by simp), Nat.add_zero]
    · rw [List.dropWhile_cons_of_neg (by simpa using hx), runs, if_pos (by simpa using hx)]

theorem ne_of_dropWhile {x : α} {rest' : List α} (hdrop : rest.dropWhile (· = d) = x :: rest') : x ≠ d := by
  have hnot := List.head?_dropWhile_not (· = d) rest
  rw [hdrop] at hnot
  simpa using hnot

theorem split_run {x : α} {rest' : List α} (pre : List α) (hdrop : rest.dropWhile (· = d) = x :: rest') :
    pre ++ d :: rest = (pre ++ d :: rest.takeWhile (· = d)) ++ ([x] ++ rest') := by
  rw [List.append_assoc, List.cons_append, List.singleton_append, ← hdrop, List.takeWhile_append_dropWhile]

theorem exhausts_tok (htok : ∀ x ∈ tok, x ≠ d) : ¬ Exhausts d k tok := by
  rintro ⟨hlast, -⟩
  exact htok d (List.mem_of_getLast? hlast) rfl

theorem exhausts_zero (htok : ∀ x ∈ tok, x ≠ d) : ¬ Exhausts d 0 (tok ++ d :: rest) := by
  rintro ⟨-, hruns⟩
  rw [runs_append htok, runs_cons] at hruns
  omega

theorem exhausts_succ (htok : ∀ x ∈ tok, x ≠ d) : Exhausts d (k + 1) (tok ++ d :: rest) ↔
    rest.dropWhile (· = d) = [] ∨ Exhausts d k (rest.dropWhile (· = d)) := by
  have hlast : (tok ++ d :: rest).getLast? =
      ((rest.dropWhile (· = d)).getLast?).or (some d) := by
    have hrun : (tok ++ d :: rest.takeWhile (· = d)).getLast? = some d := by
      have hall : ∀ x ∈ rest.takeWhile (· = d), x = d := fun x hx => by
        simpa using List.mem_takeWhile_imp hx
      rw [List.eq_replicate_of_mem hall, ← List.replicate_succ, List.getLast?_append,
        List.getLast?_replicate]
      simp
    rw [← hrun, ← List.getLast?_append, List.append_assoc, List.cons_append, List.takeWhile_append_dropWhile]
  unfold Exhausts
  rw [runs_append htok, runs_cons, hlast]
  cases rest.dropWhile (· = d) with
  | nil => simp [runs]
  | cons x xs => simp [List.getLast?_cons]

end Pieces

end SplitRuns

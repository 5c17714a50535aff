import Mathlib.Data.List.Basic
import Mathlib.Order.Lattice
import Mathlib.Order.Nat

/-! Loops that go through a list until a call finds something. A call may fail to return; then so does the
loop. -/

namespace FirstFound
variable {α β γ : Type*} {hit : β → Bool} {nothing : β}

/-- The first result that is a hit, or `nothing`. -/
def firstFound (hit : β → Bool) (nothing : β) (call : α → Option β) : List α → Option β
  | [] => some nothing
  | x :: xs => (call x).bind fun t => if hit t then some t else firstFound hit nothing call xs

/-- The elements that the loop comes to: those before the first hit, and that one. -/
def upTo (hit : α → Bool) : List α → List α
  | [] => []
  | x :: xs => if hit x then [x] else x :: upTo hit xs

/-- The first hit among the results of calls that all return. -/
def pick (hit : β → Bool) (nothing : β) (result : α → β) (xs : List α) : β :=
  ((xs.map result).find? hit).getD nothing

section Loop
variable {call : α → Option β} {xs ys : List α}

theorem firstFound_append (hn : hit nothing = false) :
    firstFound hit nothing call (xs ++ ys) = (firstFound hit nothing call xs).bind fun t =>
      if hit t then some t else firstFound hit nothing call ys := by
  induction xs with
  | nil =>
    rw [List.nil_append, firstFound, Option.bind_some, hn, if_neg Bool.false_ne_true]
  | cons x xs ih =>
    rw [List.cons_append, firstFound, firstFound, Option.bind_assoc]
    refine congrArg _ (funext fun t => ?_)
    by_cases ht : hit t
    · rw [if_pos ht, if_pos ht, Option.bind_some, if_pos ht]
    · rw [if_neg ht, if_neg ht, ih]

theorem firstFound_flatMap (hn : hit nothing = false) (f : γ → List α) (zs : List γ) :
    firstFound hit nothing (fun z => firstFound hit nothing call (f z)) zs =
      firstFound hit nothing call (zs.flatMap f) := by
  induction zs with
  | nil => rfl
  | cons z zs ih => rw [List.flatMap_cons, firstFound_append hn, firstFound, ih]

theorem firstFound_map (f : γ → α) (zs : List γ) :
    firstFound hit nothing call (zs.map f) = firstFound hit nothing (fun z => call (f z)) zs := by
  induction zs with
  | nil => rfl
  | cons z zs ih => rw [List.map_cons, firstFound, firstFound, ih]

end Loop

theorem pick_cons (result : α → β) (x : α) (xs : List α) : pick hit nothing result (x :: xs) =
    if hit (result x) then result x else pick hit nothing result xs := by
  unfold pick
  rw [List.map_cons, List.find?_cons]
  by_cases hx : hit (result x)
  · rw [hx, if_pos rfl]
    rfl
  · rw [if_neg hx, Bool.eq_false_iff.mpr hx]

theorem hit_pick (hn : hit nothing = false) {result : α → β} {xs : List α} :
    hit (pick hit nothing result xs) = true ↔ ∃ x ∈ xs, hit (result x) = true := by
  induction xs with
  | nil =>
    change hit nothing = true ↔ _
    rw [hn]
    exact ⟨fun h => absurd h Bool.false_ne_true, fun ⟨_, h, _⟩ => absurd h List.not_mem_nil⟩
  | cons x xs ih =>
    rw [pick_cons, List.exists_mem_cons_iff]
    by_cases hx : hit (result x)
    · rw [if_pos hx]
      exact ⟨fun _ => .inl hx, fun _ => hx⟩
    · rw [if_neg hx, ih]
      exact ⟨.inr, fun h => h.resolve_left hx⟩

theorem pick_mem {result : α → β} {xs : List α} (h : pick hit nothing result xs ≠ nothing) :
    ∃ x ∈ xs, pick hit nothing result xs = result x := by
  induction xs with
  | nil => exact absurd rfl h
  | cons x xs ih =>
    rw [pick_cons] at h ⊢
    by_cases hx : hit (result x)
    · rw [if_pos hx]
      exact ⟨x, List.mem_cons_self, rfl⟩
    · rw [if_neg hx] at h ⊢
      obtain ⟨y, hy, he⟩ := ih h
      exact ⟨y, List.mem_cons_of_mem _ hy, he⟩

section Returns
variable {call call' : α → Option β} {result : α → β} {xs : List α} {t : β}

theorem firstFound_imp (hcall : ∀ x t, call x = some t → call' x = some t)
    (h : firstFound hit nothing call xs = some t) : firstFound hit nothing call' xs = some t := by
  induction xs with
  | nil => exact h
  | cons x xs ih =>
    rw [firstFound] at h ⊢
    obtain ⟨u, hu, hrest⟩ := Option.bind_eq_some_iff.mp h
    rw [hcall x u hu, Option.bind_some]
    by_cases hhit : hit u
    · rwa [if_pos hhit] at hrest ⊢
    · rw [if_neg hhit] at hrest ⊢
      exact ih hrest

/-- A loop that returns has come to its elements up to the first hit, and each of these calls has returned. -/
theorem firstFound_some (hr : ∀ x t, call x = some t → t = result x)
    (h : firstFound hit nothing call xs = some t) :
    (∀ x ∈ upTo (fun x => hit (result x)) xs, ∃ u, call x = some u) ∧
      t = pick hit nothing result xs := by
  induction xs with
  | nil => exact ⟨fun x hx => absurd hx List.not_mem_nil, (Option.some.inj h).symm⟩
  | cons x xs ih =>
    obtain ⟨u, hu, hrest⟩ := Option.bind_eq_some_iff.mp h
    rw [hr x u hu] at hrest
    rw [pick_cons, upTo]
    by_cases hx : hit (result x)
    · rw [if_pos hx] at hrest
      rw [if_pos hx, if_pos hx]
      refine ⟨fun y hy => ?_, (Option.some.inj hrest).symm⟩
      rw [List.mem_singleton.mp hy]
      exact ⟨u, hu⟩
    · rw [if_neg hx] at hrest
      rw [if_neg hx, if_neg hx]
      obtain ⟨hall, ht⟩ := ih hrest
      refine ⟨fun y hy => ?_, ht⟩
      obtain rfl | hy := List.mem_cons.mp hy
      · exact ⟨u, hu⟩
      · exact hall y hy

end Returns

section Fuel
variable {call : ℕ → α → Option β} {result : α → β} {xs : List α} {t : β}

/-- More fuel does not change a result. -/
def FuelMono (call : ℕ → α → Option β) : Prop :=
  ∀ n m x t, n ≤ m → call n x = some t → call m x = some t

/-- Calls that return one by one do so together, with fuel enough for each. -/
theorem firstFound_fuel (hm : FuelMono call) (hr : ∀ n x t, call n x = some t → t = result x)
    (hall : ∀ x ∈ upTo (fun x => hit (result x)) xs, ∃ n u, call n x = some u) :
    ∃ n, firstFound hit nothing (call n) xs = some (pick hit nothing result xs) := by
  induction xs with
  | nil => exact ⟨0, rfl⟩
  | cons x xs ih =>
    rw [pick_cons]
    rw [upTo] at hall
    by_cases hx : hit (result x)
    · rw [if_pos hx] at hall ⊢
      obtain ⟨n, u, hu⟩ := hall x (List.mem_singleton.mpr rfl)
      refine ⟨n, ?_⟩
      rw [firstFound, hu, Option.bind_some, hr n x u hu, if_pos hx]
    · rw [if_neg hx] at hall ⊢
      obtain ⟨n, u, hu⟩ := hall x List.mem_cons_self
      obtain ⟨m, hrest⟩ := ih fun y hy => hall y (List.mem_cons_of_mem _ hy)
      refine ⟨max n m, ?_⟩
      rw [firstFound, hm n _ x u (Nat.le_max_left n m) hu, Option.bind_some, hr n x u hu,
        if_neg hx]
      exact firstFound_imp (fun y t => hm m _ y t (Nat.le_max_right n m)) hrest

theorem firstFound_returns (hm : FuelMono call) (hr : ∀ n x t, call n x = some t → t = result x) :
    (∃ n, firstFound hit nothing (call n) xs = some t) ↔
      (∀ x ∈ upTo (fun x => hit (result x)) xs, ∃ n u, call n x = some u) ∧
        t = pick hit nothing result xs := by
  constructor
  · rintro ⟨n, hn⟩
    obtain ⟨hall, ht⟩ := firstFound_some (hr n) hn
    exact ⟨fun x hx => ⟨n, hall x hx⟩, ht⟩
  · rintro ⟨hall, rfl⟩
    exact firstFound_fuel hm hr hall

end Fuel

end FirstFound

import Mathlib.Data.Nat.Find
import Mathlib.Order.Monotone.Defs

/-! Values that change while they are read one after the other, and readers that read them until two sweeps agree. -/

namespace StableReads
variable {ι β : Type*} (version : ℕ → ℕ) (f : ℕ → ι → β)

/-- The values of the keys at read number `i` and the reads after it; `f n` are the values of version `n`, and
`version i` is the one that read `i` finds. -/
def sweep : List ι → ℕ → List β
  | [], _ => []
  | k :: ks, i => f (version i) k :: sweep ks (i + 1)

/-- Sweeps until one agrees with the one before it, `last`; `wait i` is where the next one begins, at `i` or later. -/
def settle [DecidableEq β] (wait : ℕ → Option ℕ) (ks : List ι) : ℕ → List β → ℕ → Option (List β × ℕ)
  | 0, _, _ => none
  | n + 1, last, i => (wait i).bind fun i =>
    if last = sweep version f ks i then some (last, i + ks.length)
    else settle wait ks n (sweep version f ks i) (i + ks.length)

section Sweeps
variable {version f} {k : ι} {ks : List ι} {a b i n v : ℕ}

theorem sweep_of_still (h : ∀ j, i ≤ j → j < i + ks.length → version j = v) :
    sweep version f ks i = ks.map (f v) := by
  induction ks generalizing i with
  | nil => rfl
  | cons k ks ih =>
    rw [List.length_cons] at h
    rw [sweep, h i (Nat.le_refl i) (by omega), ih fun j hj hlt => h j (by omega) (by omega), List.map_cons]

/-- Two sweeps that agree on a key whose values tell the versions apart show one version. -/
theorem sweep_snapshot (hmono : Monotone version) (hab : a + (k :: ks).length ≤ b)
    (heq : sweep version f (k :: ks) a = sweep version f (k :: ks) b)
    (hdistinct : ∀ n n', version a ≤ n → n ≤ n' → n' ≤ version b → f n k = f n' k → n = n') :
    sweep version f (k :: ks) a = (k :: ks).map (f (version a)) := by
  have hkey : f (version a) k = f (version b) k := (List.cons.inj heq).1
  have hle : version a ≤ version b := hmono (by omega)
  have hsame := hdistinct _ _ (Nat.le_refl _) hle (Nat.le_refl _) hkey
  refine sweep_of_still fun j hj hlt => ?_
  have hlow : version a ≤ version j := hmono hj
  have hhigh : version j ≤ version b := hmono (by omega)
  omega

end Sweeps

section Settling
variable {version f} [DecidableEq β] {wait : ℕ → Option ℕ} {k : ι} {ks : List ι} {a i j n B : ℕ} {vs : List β}

/-- What a reader returns is one version. -/
theorem settle_snapshot (hmono : Monotone version) (hwait : ∀ i i', wait i = some i' → i ≤ i')
    (ha : a + (k :: ks).length ≤ i)
    (hrun : settle version f wait (k :: ks) n (sweep version f (k :: ks) a) i = some (vs, j))
    (hdistinct : ∀ n n', version a ≤ n → n ≤ n' → n' ≤ version j → f n k = f n' k → n = n') :
    ∃ v, version a ≤ v ∧ v ≤ version j ∧ vs = (k :: ks).map (f v) := by
  induction n generalizing a i with
  | zero => cases hrun
  | succ n ih =>
    rw [settle] at hrun
    obtain ⟨b, hb, hrun⟩ := Option.bind_eq_some_iff.mp hrun
    have hib := hwait i b hb
    by_cases heq : sweep version f (k :: ks) a = sweep version f (k :: ks) b
    · rw [if_pos heq, Option.some.injEq, Prod.mk.injEq] at hrun
      obtain ⟨rfl, rfl⟩ := hrun
      have hend : version b ≤ version (b + (k :: ks).length) := hmono (Nat.le_add_right _ _)
      refine ⟨version a, Nat.le_refl _, hmono (by omega), ?_⟩
      exact sweep_snapshot hmono (by omega) heq fun n n' hn hle hn' => hdistinct n n' hn hle (by omega)
    · rw [if_neg heq] at hrun
      have hab : version a ≤ version b := hmono (by omega)
      obtain ⟨v, hlow, hhigh, hvs⟩ := ih (Nat.le_refl _) hrun fun n n' hn => hdistinct n n' (by omega)
      exact ⟨v, by omega, hhigh, hvs⟩

/-- A sweep of a stretch without a change agrees with one before it in the same stretch. -/
theorem settle_of_still {v b : ℕ} (hb : wait i = some b) (hfirst : ∀ j, a ≤ j → j < a + ks.length → version j = v)
    (hsecond : ∀ j, b ≤ j → j < b + ks.length → version j = v) :
    settle version f wait ks (n + 1) (sweep version f ks a) i = some (ks.map (f v), b + ks.length) := by
  rw [settle, hb, Option.bind_some, sweep_of_still hfirst, sweep_of_still hsecond, if_pos rfl]

/-- A stretch of reads with at most one change falls into the reads before it and those from it on. -/
theorem exists_change {b : ℕ} (hmono : Monotone version) (hone : version b ≤ version a + 1) :
    ∃ p, (∀ j, a ≤ j → j < p → version j = version a) ∧ ∀ j, p ≤ j → j ≤ b → version j = version a + 1 := by
  by_cases hchange : ∃ j, version a < version j
  · refine ⟨Nat.find hchange, fun j hj hlt => ?_, fun j hj hjb => ?_⟩
    · exact Nat.le_antisymm (Nat.le_of_not_lt (Nat.find_min hchange hlt)) (hmono hj)
    · have hspec := Nat.find_spec hchange
      have hlow := hmono hj
      have hhigh := hmono hjb
      omega
  · refine ⟨b + 1, fun j hj _ => ?_, fun j hj hjb => by omega⟩
    exact Nat.le_antisymm (Nat.le_of_not_lt fun h => hchange ⟨j, h⟩) (hmono hj)

/-- A reader that is not kept waiting longer than `B` reads ends after three more sweeps, when there is at most one
change while it reads. -/
theorem settle_ends (hmono : Monotone version) (hwait : ∀ i, ∃ b, wait i = some b ∧ i ≤ b ∧ b ≤ i + B)
    (hone : version (a + 4 * (B + ks.length)) ≤ version a + 1) :
    ∃ vs j, settle version f wait ks (n + 3) (sweep version f ks a) (a + ks.length) = some (vs, j) ∧
      j ≤ a + 4 * (B + ks.length) := by
  obtain ⟨p, hbefore, hafter⟩ := exists_change hmono hone
  obtain ⟨b, hb, hlow, hhigh⟩ := hwait (a + ks.length)
  obtain ⟨c, hc, hlow', hhigh'⟩ := hwait (b + ks.length)
  obtain ⟨d, hd, hlow'', hhigh''⟩ := hwait (c + ks.length)
  by_cases hp : b + ks.length ≤ p
  · have hfirst : ∀ j, a ≤ j → j < a + ks.length → version j = version a := fun j hj hlt =>
      hbefore j hj (by omega)
    have hsecond : ∀ j, b ≤ j → j < b + ks.length → version j = version a := fun j hj hlt =>
      hbefore j (by omega) (by omega)
    exact ⟨_, _, settle_of_still hb hfirst hsecond, by omega⟩
  · rw [settle, hb, Option.bind_some]
    split
    · exact ⟨_, _, rfl, by omega⟩
    · rw [settle, hc, Option.bind_some]
      split
      · exact ⟨_, _, rfl, by omega⟩
      · have hfirst : ∀ j, c ≤ j → j < c + ks.length → version j = version a + 1 := fun j hj hlt =>
          hafter j (by omega) (by omega)
        have hsecond : ∀ j, d ≤ j → j < d + ks.length → version j = version a + 1 := fun j hj hlt =>
          hafter j (by omega) (by omega)
        exact ⟨_, _, settle_of_still hd hfirst hsecond, by omega⟩

end Settling
end StableReads

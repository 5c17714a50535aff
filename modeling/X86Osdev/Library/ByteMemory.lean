import Mathlib.Algebra.Order.Ring.Nat
import Mathlib.Data.Nat.ModEq
import Mathlib.Order.Interval.Set.Basic
import Mathlib.Logic.Function.Basic
import Mathlib.Tactic.Ring

/-! Byte memory with addresses modulo a fixed size, and little-endian numbers of any width in it. -/

namespace ByteMemory
variable {N : ℕ} {m m' : ℕ → UInt8} {a b v w w' : ℕ}

/-- The number of width `w` at address `a`. -/
def load (N : ℕ) (m : ℕ → UInt8) : ℕ → ℕ → ℕ
  | 0, _ => 0
  | w + 1, a => (m (a % N)).toNat + 256 * load N m w (a + 1)

def storeByte (N : ℕ) (m : ℕ → UInt8) (a : ℕ) (b : UInt8) : ℕ → UInt8 :=
  Function.update m (a % N) b

def store (N : ℕ) : (ℕ → UInt8) → ℕ → ℕ → ℕ → ℕ → UInt8
  | m, 0, _, _ => m
  | m, w + 1, a, v => store N (storeByte N m a (UInt8.ofNat v)) w (a + 1) (v / 256)

theorem load_lt (m : ℕ → UInt8) (w a : ℕ) : load N m w a < 256 ^ w := by
  induction w generalizing a with
  | zero => exact Nat.one_pos
  | succ w ih =>
    have hb := (m (a % N)).toNat_lt
    have hr := ih (a + 1)
    rw [load, pow_succ]
    omega

theorem load_congr (h : ∀ x, a ≤ x → x < a + w → m' (x % N) = m (x % N)) :
    load N m' w a = load N m w a := by
  induction w generalizing a with
  | zero => rfl
  | succ w ih =>
    rw [load, load, h a le_rfl (by omega), ih fun x hx hw => h x (by omega) (by omega)]

theorem load_shift (h : ∀ i < w, m' ((b + i) % N) = m ((a + i) % N)) :
    load N m' w b = load N m w a := by
  induction w generalizing a b with
  | zero => rfl
  | succ w ih =>
    have hrest : load N m' w (b + 1) = load N m w (a + 1) := by
      refine ih fun i hi => ?_
      rw [Nat.add_assoc, Nat.add_assoc, Nat.add_comm 1 i]
      exact h (i + 1) (by omega)
    rw [load, load, hrest]
    have hfirst := h 0 (by omega)
    rw [Nat.add_zero, Nat.add_zero] at hfirst
    rw [hfirst]

theorem storeByte_other {x y : ℕ} {d : UInt8} (hx : x < N) (hy : y < N) (h : x ≠ y) :
    storeByte N m y d (x % N) = m (x % N) := by
  rw [storeByte, Nat.mod_eq_of_lt hx, Nat.mod_eq_of_lt hy, Function.update_of_ne h]

theorem store_other {x : ℕ} (hx : x < N) (ha : a + w ≤ N) (h : x < a ∨ a + w ≤ x) :
    store N m w a v (x % N) = m (x % N) := by
  induction w generalizing m a v with
  | zero => rfl
  | succ w ih =>
    rw [store, ih (by omega) (by omega), storeByte_other hx (by omega) (by omega)]

theorem load_store_of_disjoint (ha : a + w ≤ N) (hb : b + w' ≤ N) (h : a + w ≤ b ∨ b + w' ≤ a) :
    load N (store N m w a v) w' b = load N m w' b :=
  load_congr fun x hx hw => store_other (by omega) ha (by omega)

theorem mod_ne_of_offset {i j : ℕ} (hi : i < N) (hj : j < N) (hij : i ≠ j) : (a + i) % N ≠ (a + j) % N := by
  intro h
  have hmod : i ≡ j [MOD N] := Nat.ModEq.add_left_cancel' a h
  exact hij (hmod.eq_of_lt_of_lt hi hj)

theorem store_offset {i j : ℕ} (hi : i < N) (hj : j + w ≤ N) (hij : i < j ∨ j + w ≤ i) :
    store N m w (a + j) v ((a + i) % N) = m ((a + i) % N) := by
  induction w generalizing m j v with
  | zero => rfl
  | succ w ih =>
    rw [store, Nat.add_assoc, ih (by omega) (by omega), storeByte,
      Function.update_of_ne (mod_ne_of_offset hi (by omega) (by omega))]

theorem load_store_offset {i j : ℕ} (hi : i + w' ≤ N) (hj : j + w ≤ N) (hij : i + w' ≤ j ∨ j + w ≤ i) :
    load N (store N m w (a + j) v) w' (a + i) = load N m w' (a + i) := by
  refine load_congr fun x hx hlt => ?_
  obtain ⟨d, rfl⟩ := Nat.exists_eq_add_of_le hx
  rw [Nat.add_assoc]
  exact store_offset (by omega) hj (by omega)

theorem load_store_same (hw : w ≤ N) : load N (store N m w a v) w a = v % 256 ^ w := by
  induction w generalizing m a v with
  | zero => rw [pow_zero, Nat.mod_one, load]
  | succ w ih =>
    have hbyte : storeByte N m a (UInt8.ofNat v) (a % N) = UInt8.ofNat v := by
      rw [storeByte, Function.update_self]
    have hother : store N (storeByte N m a (UInt8.ofNat v)) w (a + 1) (v / 256) (a % N) =
        storeByte N m a (UInt8.ofNat v) (a % N) :=
      store_offset (a := a) (i := 0) (by omega) (by omega) (.inl Nat.one_pos)
    rw [hbyte] at hother
    rw [store, load, ih (by omega), hother, UInt8.toNat_ofNat', pow_succ' 256,
      Nat.mod_mul (a := 256)]

theorem load_store_self (ha : a + w ≤ N) : load N (store N m w a v) w a = v % 256 ^ w :=
  load_store_same (by omega)

theorem store_load_self (h : load N m w a = v) : store N m w a v = m := by
  induction w generalizing a v with
  | zero => rfl
  | succ w ih =>
    have hlt := (m (a % N)).toNat_lt
    rw [load] at h
    have hbyte : UInt8.ofNat v = m (a % N) := by
      rw [← h, UInt8.ofNat_add, UInt8.ofNat_toNat, UInt8.ofNat_mul]
      simp
    have hsame : storeByte N m a (UInt8.ofNat v) = m := by
      rw [storeByte, hbyte, Function.update_eq_self]
    rw [store, hsame]
    exact ih (by omega)

/-- `m'` differs from `m` at addresses in `P` only. -/
def Touches (N : ℕ) (P : Set ℕ) (m m' : ℕ → UInt8) : Prop := ∀ x < N, x ∉ P → m' x = m x

section Touches
variable {P Q : Set ℕ} {m'' : ℕ → UInt8}

theorem Touches.refl (N : ℕ) (P : Set ℕ) (m : ℕ → UInt8) : Touches N P m m := fun _ _ _ => rfl

theorem Touches.trans (h : Touches N P m m') (h' : Touches N P m' m'') : Touches N P m m'' :=
  fun x hx hP => (h' x hx hP).trans (h x hx hP)

theorem Touches.mono (h : Touches N P m m') (hPQ : P ⊆ Q) : Touches N Q m m' :=
  fun x hx hQ => h x hx fun hP => hQ (hPQ hP)

theorem touches_store (ha : a + w ≤ N) (hP : ∀ x, a ≤ x → x < a + w → x ∈ P) :
    Touches N P m (store N m w a v) := by
  intro x hx hxP
  have h := store_other (m := m) (v := v) hx ha (by
    by_contra hc
    exact hxP (hP x (by omega) (by omega)))
  rwa [Nat.mod_eq_of_lt hx] at h

theorem touches_storeByte {d : UInt8} (ha : a < N) (hP : a ∈ P) :
    Touches N P m (storeByte N m a d) := by
  intro x hx hxP
  have h := storeByte_other (m := m) (d := d) hx ha (fun e => hxP (e ▸ hP))
  rwa [Nat.mod_eq_of_lt hx] at h

theorem Touches.load (h : Touches N P m m') (ha : a + w ≤ N)
    (hP : ∀ x, a ≤ x → x < a + w → x ∉ P) : load N m' w a = load N m w a := by
  refine load_congr fun x hx hw => ?_
  rw [Nat.mod_eq_of_lt (by omega)]
  exact h x (by omega) (hP x hx hw)

end Touches

def storeList (N : ℕ) : (ℕ → UInt8) → ℕ → List UInt8 → ℕ → UInt8
  | m, _, [] => m
  | m, a, x :: xs => storeList N (storeByte N m a x) (a + 1) xs

section Lists
variable {xs : List UInt8}

theorem storeList_append (xs ys : List UInt8) :
    storeList N m a (xs ++ ys) = storeList N (storeList N m a xs) (a + xs.length) ys := by
  induction xs generalizing m a with
  | nil => rfl
  | cons x xs ih =>
    rw [List.cons_append, storeList, ih, storeList, List.length_cons, Nat.add_assoc, Nat.add_comm 1]

theorem touches_storeList (h : a + xs.length ≤ N) :
    Touches N (Set.Ico a (a + xs.length)) m (storeList N m a xs) := by
  induction xs generalizing m a with
  | nil => exact Touches.refl _ _ _
  | cons x xs ih =>
    rw [List.length_cons] at h ⊢
    have hfirst : Touches N (Set.Ico a (a + (xs.length + 1))) m (storeByte N m a x) :=
      touches_storeByte (by omega) ⟨le_rfl, by omega⟩
    refine hfirst.trans ((ih (by omega)).mono ?_)
    exact Set.Ico_subset_Ico (by omega) (by omega)

theorem storeList_get (h : a + xs.length ≤ N) {j : ℕ} (hj : j < xs.length) :
    storeList N m a xs (a + j) = xs[j] := by
  induction xs generalizing m a j with
  | nil => exact absurd hj (Nat.not_lt_zero j)
  | cons x xs ih =>
    rw [List.length_cons] at h hj
    rw [storeList]
    cases j with
    | zero =>
      have hrest := @touches_storeList N (storeByte N m a x) (a + 1) xs (by omega)
      have hsame := hrest a (by omega) fun ha => absurd ha.1 (Nat.not_succ_le_self a)
      refine hsame.trans ?_
      rw [storeByte, Nat.mod_eq_of_lt (by omega), Function.update_self, List.getElem_cons_zero]
    | succ j =>
      have hget := @ih (storeByte N m a x) (a + 1) (by omega) j (by omega)
      rwa [Nat.add_assoc, Nat.add_comm 1 j] at hget

end Lists

end ByteMemory

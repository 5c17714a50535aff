import Mathlib.Data.Nat.ModEq
import Mathlib.Logic.Function.Basic

/-! A ring of slots that one party fills and another empties, as a queue. -/

namespace SlotQueue
variable {α : Type*} {k finger i j : ℕ} {slot : ℕ → Option α} {q : List α} {x : α}

/-- The filled slots of the `k` in the ring are those from `finger` on, and hold `q`. -/
structure Queued (k : ℕ) (slot : ℕ → Option α) (finger : ℕ) (q : List α) : Prop where
  finger_lt : finger < k
  length_le : q.length ≤ k
  slots : ∀ i < k, slot ((finger + i) % k) = q[i]?

theorem ne_of_offset (finger : ℕ) (hi : i < k) (hj : j < k) (hij : i ≠ j) : (finger + i) % k ≠ (finger + j) % k := by
  intro h
  have hmod : i ≡ j [MOD k] := Nat.ModEq.add_left_cancel' finger h
  exact hij (hmod.eq_of_lt_of_lt hi hj)

theorem queued_nil (hfinger : finger < k) (hslots : ∀ i < k, slot i = none) : Queued k slot finger [] where
  finger_lt := hfinger
  length_le := Nat.zero_le k
  slots _ _ := hslots _ (Nat.mod_lt _ (Nat.zero_lt_of_lt hfinger))

theorem Queued.put (h : Queued k slot finger q) (hroom : q.length < k) (x : α) :
    Queued k (Function.update slot ((finger + q.length) % k) (some x)) finger (q ++ [x]) where
  finger_lt := h.finger_lt
  length_le := by
    rw [List.length_append]
    exact hroom
  slots i hi := by
    by_cases hiq : i = q.length
    · rw [hiq, Function.update_self, List.getElem?_concat_length]
    · rw [Function.update_of_ne (ne_of_offset _ hi hroom hiq), h.slots i hi]
      rcases Nat.lt_or_gt_of_ne hiq with hlt | hgt
      · rw [List.getElem?_append_left hlt]
      · rw [List.getElem?_eq_none hgt.le, List.getElem?_eq_none]
        rw [List.length_append, List.length_singleton]
        exact hgt

theorem Queued.head (h : Queued k slot finger q) : slot finger = q.head? := by
  have hslot := h.slots 0 (Nat.zero_lt_of_lt h.finger_lt)
  rwa [Nat.add_zero, Nat.mod_eq_of_lt h.finger_lt, ← List.head?_eq_getElem?] at hslot

/-- The slot at `finger` is emptied. -/
theorem Queued.take (h : Queued k slot finger (x :: q)) :
    Queued k (Function.update slot finger none) ((finger + 1) % k) q where
  finger_lt := Nat.mod_lt _ (Nat.zero_lt_of_lt h.finger_lt)
  length_le := Nat.le_of_succ_le h.length_le
  slots i hi := by
    rw [Nat.mod_add_mod, Nat.add_assoc, Nat.add_comm 1 i]
    have hlen : q.length + 1 ≤ k := h.length_le
    by_cases hlast : i + 1 = k
    · rw [hlast, Nat.add_mod_right, Nat.mod_eq_of_lt h.finger_lt, Function.update_self,
        List.getElem?_eq_none (by omega)]
    · have hne := ne_of_offset finger (show i + 1 < k by omega) (Nat.zero_lt_of_lt hi) (Nat.succ_ne_zero i)
      have hfinger : (finger + 0) % k = finger := Nat.mod_eq_of_lt h.finger_lt
      rw [hfinger] at hne
      rw [Function.update_of_ne hne, h.slots (i + 1) (by omega), List.getElem?_cons_succ]

theorem next_of_take (k finger : ℕ) (x : α) (q : List α) :
    ((finger + 1) % k + q.length) % k = (finger + (x :: q).length) % k := by
  rw [Nat.mod_add_mod, List.length_cons, Nat.add_assoc, Nat.add_comm 1]

end SlotQueue

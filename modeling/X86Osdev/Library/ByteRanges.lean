import X86Osdev.Library.ByteMemory

/-! The bytes of a range of memory as a list, and stores that stay within a range. -/

namespace ByteMemory
variable {N : ℕ} {m m' m'' : ℕ → UInt8} {a p n k v w x : ℕ} {xs : List UInt8} {P Q : Set ℕ}

def bytesAt (m : ℕ → UInt8) (p n : ℕ) : List UInt8 := (List.range n).map fun i => m (p + i)

@[simp] theorem length_bytesAt (m : ℕ → UInt8) (p n : ℕ) : (bytesAt m p n).length = n := by
  rw [bytesAt, List.length_map, List.length_range]

theorem getElem_bytesAt {i : ℕ} (hi : i < (bytesAt m p n).length) : (bytesAt m p n)[i] = m (p + i) := by
  simp only [bytesAt, List.getElem_map, List.getElem_range]

theorem bytesAt_congr {q : ℕ} (h : ∀ i < n, m' (p + i) = m (q + i)) : bytesAt m' p n = bytesAt m q n :=
  List.map_congr_left fun i hi => h i (List.mem_range.mp hi)

theorem bytesAt_eq (h : ∀ i (hi : i < xs.length), m (p + i) = xs[i]) : bytesAt m p xs.length = xs := by
  refine List.ext_getElem (length_bytesAt _ _ _) fun i hi hi' => ?_
  rw [getElem_bytesAt, h i hi']

theorem bytesAt_add (m : ℕ → UInt8) (p n k : ℕ) : bytesAt m p (n + k) = bytesAt m p n ++ bytesAt m (p + n) k := by
  unfold bytesAt
  rw [List.range_add, List.map_append, List.map_map]
  refine congrArg _ (List.map_congr_left fun i _ => ?_)
  exact congrArg m (Nat.add_assoc _ _ _).symm

def piecesAt (m : ℕ → UInt8) (p : ℕ) : List ℕ → List UInt8
  | [] => []
  | n :: ns => bytesAt m p n ++ piecesAt m (p + n) ns

theorem bytesAt_sum (m : ℕ → UInt8) (p : ℕ) (ns : List ℕ) : bytesAt m p ns.sum = piecesAt m p ns := by
  induction ns generalizing p with
  | nil => rfl
  | cons n ns ih => rw [List.sum_cons, bytesAt_add, ih, piecesAt]

def Within (P : Set ℕ) (m m' : ℕ → UInt8) : Prop := ∀ x ∉ P, m' x = m x

theorem Within.refl (P : Set ℕ) (m : ℕ → UInt8) : Within P m m := fun _ _ => rfl

theorem Within.trans (h : Within P m m') (h' : Within P m' m'') : Within P m m'' :=
  fun x hx => (h' x hx).trans (h x hx)

theorem Within.mono (h : Within P m m') (hPQ : P ⊆ Q) : Within Q m m' :=
  fun x hx => h x fun hP => hx (hPQ hP)

theorem Within.bytesAt (h : Within P m m') (hP : ∀ i < n, p + i ∉ P) : bytesAt m' p n = ByteMemory.bytesAt m p n :=
  bytesAt_congr fun i hi => h _ (hP i hi)

/-- The first `n` bytes from `p` on are those of `m'`. -/
def splice (m m' : ℕ → UInt8) (p n : ℕ) : ℕ → UInt8 := fun x => if p ≤ x ∧ x < p + n then m' x else m x

theorem splice_zero (m m' : ℕ → UInt8) (p : ℕ) : splice m m' p 0 = m := funext fun x => if_neg (by omega)

theorem splice_succ (m m' : ℕ → UInt8) (p n : ℕ) :
    splice m m' p (n + 1) = Function.update (splice m m' p n) (p + n) (m' (p + n)) := by
  funext x
  rw [Function.update_apply]
  unfold splice
  by_cases hx : x = p + n
  · rw [if_pos hx, hx, if_pos (by omega)]
  · rw [if_neg hx]
    exact if_congr (by omega) rfl rfl

theorem Within.splice (h : Within (Set.Ico p (p + n)) m m') : ByteMemory.splice m m' p n = m' := by
  funext x
  by_cases hx : p ≤ x ∧ x < p + n
  · exact if_pos hx
  · exact (if_neg hx).trans (h x hx).symm

def littleEndian : ℕ → ℕ → List UInt8
  | 0, _ => []
  | w + 1, v => UInt8.ofNat v :: littleEndian w (v / 256)

@[simp] theorem length_littleEndian (w v : ℕ) : (littleEndian w v).length = w := by
  induction w generalizing v with
  | zero => rfl
  | succ w ih => rw [littleEndian, List.length_cons, ih]

theorem store_eq_storeList (m : ℕ → UInt8) (w a v : ℕ) : store N m w a v = storeList N m a (littleEndian w v) := by
  induction w generalizing m a v with
  | zero => rfl
  | succ w ih => rw [store, ih, littleEndian, storeList]

theorem load_two (m : ℕ → UInt8) (a : ℕ) : load N m 2 a = load N m 1 a + 256 * load N m 1 (a + 1) := by
  simp only [load, Nat.mul_zero, Nat.add_zero]

theorem littleEndian_load (h : p + w ≤ N) : littleEndian w (load N m w p) = bytesAt m p w := by
  induction w generalizing p with
  | zero => rfl
  | succ w ih =>
    have hp : p % N = p := Nat.mod_eq_of_lt (by omega)
    have hlt := (m p).toNat_lt
    have hrest : ((m p).toNat + 256 * load N m w (p + 1)) / 256 = load N m w (p + 1) := by omega
    have hbyte : UInt8.ofNat ((m p).toNat + 256 * load N m w (p + 1)) = m p := by
      rw [← UInt8.toNat_inj, UInt8.toNat_ofNat']
      omega
    rw [load, littleEndian, hp, hrest, hbyte, ih (by omega), Nat.add_comm w 1, bytesAt_add]
    rfl

theorem within_storeList (h : a + xs.length ≤ N) : Within (Set.Ico a (a + xs.length)) m (storeList N m a xs) := by
  induction xs generalizing m a with
  | nil => exact Within.refl _ _
  | cons b xs ih =>
    rw [List.length_cons] at h ⊢
    have hfirst : Within (Set.Ico a (a + (xs.length + 1))) m (storeByte N m a b) := by
      rintro x hx
      have hne : x ≠ a % N := by
        rw [Nat.mod_eq_of_lt (by omega)]
        exact fun hxa => hx ⟨hxa.ge, by omega⟩
      exact Function.update_of_ne hne _ _
    refine hfirst.trans ((ih (by omega)).mono ?_)
    exact Set.Ico_subset_Ico (by omega) (by omega)

theorem within_storeList_of_le (h : a + xs.length ≤ N) (hlow : p ≤ a) (hhigh : a + xs.length ≤ p + n) :
    Within (Set.Ico p (p + n)) m (storeList N m a xs) :=
  (within_storeList h).mono (Set.Ico_subset_Ico hlow hhigh)

theorem bytesAt_storeList (h : a + xs.length ≤ N) (hn : xs.length = n) : bytesAt (storeList N m a xs) a n = xs := by
  subst hn
  exact bytesAt_eq fun i hi => storeList_get h hi

theorem bytesAt_storeList_of_disjoint (h : a + xs.length ≤ N) (hdis : p + n ≤ a ∨ a + xs.length ≤ p) :
    bytesAt (storeList N m a xs) p n = bytesAt m p n := by
  refine (within_storeList h).bytesAt fun i hi hmem => ?_
  obtain ⟨hlo, hhi⟩ := hmem
  omega

theorem within_store_of_le (h : a + w ≤ N) (hlow : p ≤ a) (hhigh : a + w ≤ p + n) :
    Within (Set.Ico p (p + n)) m (store N m w a v) := by
  rw [store_eq_storeList]
  exact within_storeList_of_le (by rwa [length_littleEndian]) hlow (by rwa [length_littleEndian])

theorem bytesAt_store (h : a + w ≤ N) : bytesAt (store N m w a v) a w = littleEndian w v := by
  rw [store_eq_storeList]
  exact bytesAt_storeList (by rwa [length_littleEndian]) (length_littleEndian w v)

theorem bytesAt_store_of_disjoint (h : a + w ≤ N) (hdis : p + n ≤ a ∨ a + w ≤ p) :
    bytesAt (store N m w a v) p n = bytesAt m p n := by
  rw [store_eq_storeList]
  exact bytesAt_storeList_of_disjoint (by rwa [length_littleEndian]) (by rwa [length_littleEndian])

end ByteMemory

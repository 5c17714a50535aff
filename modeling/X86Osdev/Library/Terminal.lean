import Mathlib.Data.Fin.Basic
import Mathlib.Data.List.Infix
import Mathlib.Logic.Function.Basic
import Mathlib.Tactic.Ring

/-! A text terminal of any size, and buffers that keep its cells row after row. -/

@[ext] structure Terminal (rows cols : ℕ) (α : Type*) where
  cells : Fin rows → Fin cols → α
  row : Fin rows
  col : Fin cols

namespace Terminal
variable {rows cols : ℕ} {α : Type*} {bottom bottom' : Fin cols → α} {t t' : Terminal rows cols α}

def write (x : α) (t : Terminal rows cols α) : Terminal rows cols α :=
  { t with cells := fun r c => if r = t.row ∧ c = t.col then x else t.cells r c }

/-- Every row takes the cells of the row below it, and the last row those of `bottom`. -/
def shiftUp (bottom : Fin cols → α) (t : Terminal rows cols α) : Terminal rows cols α :=
  { t with cells := fun r => if h : r + 1 < rows then t.cells ⟨r + 1, h⟩ else bottom }

/-- On the last row the cursor stays there, and the rows move. -/
def newLine (bottom : Fin cols → α) (t : Terminal rows cols α) : Terminal rows cols α :=
  if h : t.row + 1 < rows then { t with row := ⟨t.row + 1, h⟩, col := ⟨0, t.col.pos⟩ }
  else { t.shiftUp bottom with col := ⟨0, t.col.pos⟩ }

def advance (bottom : Fin cols → α) (t : Terminal rows cols α) : Terminal rows cols α :=
  if h : t.col + 1 < cols then { t with col := ⟨t.col + 1, h⟩ } else t.newLine bottom

def put (bottom : Fin cols → α) (t : Terminal rows cols α) : Option α → Terminal rows cols α
  | none => t.newLine bottom
  | some x => (t.write x).advance bottom

def puts (bottom : Fin cols → α) (t : Terminal rows cols α) (xs : List (Option α)) :
    Terminal rows cols α := xs.foldl (put bottom) t

/-- The cursor leaves the last row with `x`. -/
def Leaves (t : Terminal rows cols α) (x : Option α) : Prop :=
  t.row + 1 = rows ∧ (x = none ∨ t.col + 1 = cols)

def Scrolls (bottom : Fin cols → α) (t : Terminal rows cols α) (xs : List (Option α)) : Prop :=
  ∃ p x, p ++ [x] <+: xs ∧ (t.puts bottom p).Leaves x

theorem puts_concat (bottom : Fin cols → α) (t : Terminal rows cols α) (xs : List (Option α))
    (x : Option α) : t.puts bottom (xs ++ [x]) = (t.puts bottom xs).put bottom x := by
  simp only [puts, List.foldl_append, List.foldl_cons, List.foldl_nil]

theorem newLine_of_not_last (h : t.row + 1 ≠ rows) : t.newLine bottom = t.newLine bottom' := by
  have hlt : t.row + 1 < rows := lt_of_le_of_ne t.row.isLt h
  unfold newLine
  rw [dif_pos hlt, dif_pos hlt]

theorem newLine_cells_last (h : t.row + 1 = rows) : (t.newLine bottom).cells t.row = bottom := by
  have hlt : ¬ t.row + 1 < rows := by omega
  unfold newLine
  rw [dif_neg hlt]
  exact dif_neg hlt

theorem put_of_not_leaves {x : Option α} (h : ¬ t.Leaves x) : t.put bottom x = t.put bottom' x := by
  cases x with
  | none => exact newLine_of_not_last fun hrow => h ⟨hrow, .inl rfl⟩
  | some x =>
    simp only [put, advance]
    split
    · rfl
    · rename_i hcol
      have hend : t.col + 1 = cols := le_antisymm t.col.isLt (not_lt.mp hcol)
      exact newLine_of_not_last fun hrow => h ⟨hrow, .inr hend⟩

theorem put_cells_of_leaves {x : Option α} (h : t.Leaves x) :
    (t.put bottom x).cells t.row = bottom := by
  cases x with
  | none => exact newLine_cells_last h.1
  | some x =>
    have hcol : ¬ (t.write x).col + 1 < cols := by
      rcases h.2 with hnone | hcol
      · cases hnone
      · exact fun hlt => absurd hcol (ne_of_lt hlt)
    rw [put, advance, dif_neg hcol]
    exact newLine_cells_last (t := t.write x) h.1

/-- What comes from below matters for a text that scrolls, and for no other. -/
theorem puts_eq_iff (xs : List (Option α)) :
    (∀ p, p <+: xs → t.puts bottom p = t.puts bottom' p) ↔ (t.Scrolls bottom xs → bottom = bottom') := by
  constructor
  · rintro hsame ⟨p, x, hp, hleaves⟩
    have hbefore := hsame p ((List.prefix_append p [x]).trans hp)
    have hafter := hsame (p ++ [x]) hp
    rw [puts_concat, puts_concat, ← hbefore] at hafter
    have hrow := congrArg (fun t' => t'.cells (t.puts bottom p).row) hafter
    simpa only [put_cells_of_leaves hleaves] using hrow
  · intro h p hp
    by_cases hbottom : bottom = bottom'
    · rw [hbottom]
    · induction p using List.reverseRecOn with
      | nil => rfl
      | append_singleton p x ih =>
        rw [puts_concat, puts_concat, ← ih ((List.prefix_append p [x]).trans hp)]
        exact put_of_not_leaves fun hleaves => hbottom (h ⟨p, x, hp, hleaves⟩)

/-- The terminal whose cells are in `buf`, with the cursor at `pos`. -/
def ofBuffer (buf : ℕ → α) (pos : Fin (rows * cols)) : Terminal rows cols α where
  cells r c := buf (r * cols + c)
  row := pos.divNat
  col := pos.modNat

/-- `buf` keeps the cells of `t`, and `pos` is the place of its cursor. -/
structure Shows (t : Terminal rows cols α) (buf : ℕ → α) (pos : ℕ) : Prop where
  cells : ∀ (r : Fin rows) (c : Fin cols), buf (r * cols + c) = t.cells r c
  pos : pos = t.row * cols + t.col

def next (cols pos : ℕ) : Option α → ℕ
  | none => (pos / cols + 1) * cols
  | some _ => pos + 1

def written (buf : ℕ → α) (pos : ℕ) : Option α → ℕ → α
  | none => buf
  | some x => Function.update buf pos x

section Buffers
variable {buf buf' : ℕ → α} {pos : ℕ}

theorem place_lt (r : Fin rows) (c : Fin cols) : (r : ℕ) * cols + c < rows * cols := by
  have hrow : ((r : ℕ) + 1) * cols ≤ rows * cols := Nat.mul_le_mul_right cols r.isLt
  rw [Nat.add_one_mul] at hrow
  omega

theorem place_div (r : ℕ) (c : Fin cols) : (r * cols + c) / cols = r := by
  rw [Nat.mul_comm, Nat.mul_add_div c.pos, Nat.div_eq_of_lt c.isLt, Nat.add_zero]

theorem place_mod (r : ℕ) (c : Fin cols) : (r * cols + c) % cols = c := by
  rw [Nat.mul_comm, Nat.mul_add_mod, Nat.mod_eq_of_lt c.isLt]

theorem place_inj {r r' : Fin rows} {c c' : Fin cols} :
    (r : ℕ) * cols + c = r' * cols + c' ↔ r = r' ∧ c = c' := by
  constructor
  · intro h
    have hrow := congrArg (· / cols) h
    have hcol := congrArg (· % cols) h
    simp only [place_div, place_mod] at hrow hcol
    exact ⟨Fin.ext hrow, Fin.ext hcol⟩
  · rintro ⟨rfl, rfl⟩
    rfl

theorem shows_ofBuffer (buf : ℕ → α) (pos : Fin (rows * cols)) : (ofBuffer buf pos).Shows buf pos := by
  refine ⟨fun _ _ => rfl, ?_⟩
  have h := Nat.div_add_mod' (pos : ℕ) cols
  exact h.symm

theorem Shows.lt (h : t.Shows buf pos) : pos < rows * cols := by
  rw [h.pos]
  exact place_lt t.row t.col

theorem Shows.unique (h : t.Shows buf pos) (h' : t'.Shows buf pos) : t = t' := by
  have hplace := place_inj.mp (h.pos.symm.trans h'.pos)
  have hcells : t.cells = t'.cells := by
    funext r c
    rw [← h.cells r c, h'.cells r c]
  exact Terminal.ext hcells hplace.1 hplace.2

theorem Shows.congr (h : t.Shows buf pos) (hbuf : ∀ p < rows * cols, buf' p = buf p) :
    t.Shows buf' pos :=
  ⟨fun r c => (hbuf _ (place_lt r c)).trans (h.cells r c), h.pos⟩

theorem Shows.write (h : t.Shows buf pos) (x : α) :
    (t.write x).Shows (Function.update buf pos x) pos := by
  refine ⟨fun r c => ?_, h.pos⟩
  rw [Function.update_apply, h.pos, h.cells]
  exact if_congr place_inj rfl rfl

theorem Shows.newLine (h : t.Shows buf pos) (hrow : t.row + 1 < rows) :
    (t.newLine bottom).Shows buf ((pos / cols + 1) * cols) := by
  rw [Terminal.newLine, dif_pos hrow, h.pos, place_div]
  exact ⟨h.cells, rfl⟩

theorem Shows.scroll (h : t.Shows buf pos) (hrow : t.row + 1 = rows)
    (hbottom : ∀ c : Fin cols, buf (rows * cols + c) = bottom c) :
    (t.newLine bottom).Shows (fun p => buf (p + cols)) ((rows - 1) * cols) := by
  have hlast : ¬ t.row + 1 < rows := by omega
  rw [Terminal.newLine, dif_neg hlast]
  constructor
  · intro r c
    have hplace : (r : ℕ) * cols + c + cols = (r + 1) * cols + c := by ring
    simp only [shiftUp, hplace]
    split
    · rename_i hr
      exact h.cells ⟨r + 1, hr⟩ c
    · have hr : (r : ℕ) + 1 = rows := by omega
      rw [hr]
      exact hbottom c
  · show (rows - 1) * cols = t.row * cols + 0
    have hpred : rows - 1 = t.row := by omega
    rw [Nat.add_zero, hpred]

theorem Shows.put_of_lt (h : t.Shows buf pos) {x : Option α} (hnext : next cols pos x < rows * cols) :
    (t.put bottom x).Shows (written buf pos x) (next cols pos x) := by
  have hplace := h.pos
  cases x with
  | none =>
    refine h.newLine ?_
    rw [next, hplace, place_div] at hnext
    exact lt_of_mul_lt_mul_right hnext (Nat.zero_le cols)
  | some x =>
    have hw := h.write x
    rw [put, advance]
    split
    · refine ⟨hw.cells, ?_⟩
      rw [next, hplace]
      rfl
    · rename_i hcol
      have hend : (t.col : ℕ) + 1 = cols := le_antisymm t.col.isLt (not_lt.mp hcol)
      have hrow : pos + 1 = (pos / cols + 1) * cols := by
        rw [hplace, place_div, Nat.add_one_mul, Nat.add_assoc, hend]
      rw [next, hrow] at hnext ⊢
      refine hw.newLine ?_
      rw [hplace, place_div] at hnext
      exact lt_of_mul_lt_mul_right hnext (Nat.zero_le cols)

theorem Shows.put_of_le (h : t.Shows buf pos) {x : Option α} (hnext : rows * cols ≤ next cols pos x)
    (hbottom : ∀ c : Fin cols, buf (rows * cols + c) = bottom c) :
    (t.put bottom x).Shows (fun p => written buf pos x (p + cols)) ((rows - 1) * cols) := by
  have hplace := h.pos
  have hlt := h.lt
  have hcols : 0 < cols := t.col.pos
  cases x with
  | none =>
    refine h.scroll ?_ hbottom
    rw [next, hplace, place_div] at hnext
    exact le_antisymm t.row.isLt (Nat.le_of_mul_le_mul_right hnext hcols)
  | some x =>
    have hw := h.write x
    have hlast : t.row * cols + t.col + 1 = rows * cols := by
      rw [next, hplace] at hnext
      exact le_antisymm (place_lt t.row t.col) hnext
    have hrows : rows * cols ≤ (t.row + 1) * cols := by
      rw [← hlast, Nat.add_one_mul]
      exact Nat.add_le_add_left t.col.isLt _
    have hrow : (t.row : ℕ) + 1 = rows :=
      le_antisymm t.row.isLt (Nat.le_of_mul_le_mul_right hrows hcols)
    have hcol : ¬ (t.write x).col + 1 < cols := by
      intro hlt
      have hend : (t.col : ℕ) + 1 < cols := hlt
      have htotal : (t.row : ℕ) * cols + cols = rows * cols := by rw [← Nat.add_one_mul, hrow]
      omega
    rw [put, advance, dif_neg hcol]
    refine hw.scroll hrow fun c => ?_
    rw [Function.update_of_ne (by omega), hbottom c]

end Buffers

end Terminal

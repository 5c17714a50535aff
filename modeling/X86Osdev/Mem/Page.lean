import X86Osdev.Mem.Boot
import X86Osdev.Library.Masks

/-! The page-table entries of mem/page.h and the flag bits of their words. -/

namespace X86Osdev.Mem

def setReadWrite (x : ℕ) : ℕ := x ||| 1 <<< 1

def setPfn (x pfn : ℕ) : ℕ := (x &&& 0xFFF) ||| u32 (pfn <<< 12)

def setPresent (x : ℕ) : ℕ := x ||| 1 <<< 0

def setUsermode (x : ℕ) : ℕ := x ||| 1 <<< 2

def isPresent (x : ℕ) : Bool := x &&& 1 != 0

def isUsermode (x : ℕ) : Bool := x &&& 4 != 0

/-- The frame that the processor reads in an entry. -/
def pfnOf (x : ℕ) : ℕ := x >>> 12

/-- `x & 0xFFFFF000`. -/
def tableOf (x : ℕ) : ℕ := x &&& 0xFFFFF000

section Bits
variable {x pfn : ℕ}

theorem isPresent_eq (x : ℕ) : isPresent x = x.testBit 0 := by
  have h := Nat.and_two_pow x 0
  cases hb : x.testBit 0 <;> simp_all [isPresent]

theorem isUsermode_eq (x : ℕ) : isUsermode x = x.testBit 2 := by
  have h := Nat.and_two_pow x 2
  cases hb : x.testBit 2 <;> simp_all [isUsermode]

theorem testBit_flag (x i j : ℕ) : (x ||| 1 <<< i).testBit j = (x.testBit j || decide (i = j)) := by
  rw [Nat.testBit_or, Nat.one_shiftLeft, Nat.testBit_two_pow]

@[simp] theorem isPresent_setPresent (x : ℕ) : isPresent (setPresent x) = true := by
  rw [isPresent_eq, setPresent, testBit_flag]
  exact Bool.or_true _

@[simp] theorem isPresent_setReadWrite (x : ℕ) : isPresent (setReadWrite x) = isPresent x := by
  rw [isPresent_eq, setReadWrite, testBit_flag, isPresent_eq]
  exact Bool.or_false _

@[simp] theorem isPresent_setUsermode (x : ℕ) : isPresent (setUsermode x) = isPresent x := by
  rw [isPresent_eq, setUsermode, testBit_flag, isPresent_eq]
  exact Bool.or_false _

@[simp] theorem isUsermode_setUsermode (x : ℕ) : isUsermode (setUsermode x) = true := by
  rw [isUsermode_eq, setUsermode, testBit_flag]
  exact Bool.or_true _

@[simp] theorem isUsermode_setPresent (x : ℕ) : isUsermode (setPresent x) = isUsermode x := by
  rw [isUsermode_eq, setPresent, testBit_flag, isUsermode_eq]
  exact Bool.or_false _

@[simp] theorem isUsermode_setReadWrite (x : ℕ) : isUsermode (setReadWrite x) = isUsermode x := by
  rw [isUsermode_eq, setReadWrite, testBit_flag, isUsermode_eq]
  exact Bool.or_false _

theorem testBit_setPfn (x pfn : ℕ) {j : ℕ} (hj : j < 12) :
    (setPfn x pfn).testBit j = x.testBit j := by
  have hlow : (0xFFF : ℕ).testBit j = decide (j < 12) := Nat.testBit_two_pow_sub_one 12 j
  have hhigh : (u32 (pfn <<< 12)).testBit j = false := by
    rw [u32, Nat.testBit_mod_two_pow, Nat.testBit_shiftLeft]
    simp [show ¬ 12 ≤ j by omega]
  rw [setPfn, Nat.testBit_or, Nat.testBit_and, hlow, hhigh, decide_eq_true hj, Bool.and_true,
    Bool.or_false]

@[simp] theorem isPresent_setPfn (x pfn : ℕ) : isPresent (setPfn x pfn) = isPresent x := by
  rw [isPresent_eq, testBit_setPfn x pfn (by decide), isPresent_eq]

@[simp] theorem isUsermode_setPfn (x pfn : ℕ) : isUsermode (setPfn x pfn) = isUsermode x := by
  rw [isUsermode_eq, testBit_setPfn x pfn (by decide), isUsermode_eq]

theorem shiftRight_flag {i : ℕ} (hi : i < 12) : (x ||| 1 <<< i) >>> 12 = x >>> 12 := by
  rw [Nat.shiftRight_or_distrib, Nat.one_shiftLeft, Nat.shiftRight_eq_div_pow (2 ^ i),
    Nat.div_eq_of_lt (Nat.pow_lt_pow_right (by decide) hi), Nat.or_zero]

@[simp] theorem pfnOf_setPresent (x : ℕ) : pfnOf (setPresent x) = pfnOf x :=
  shiftRight_flag (by decide)

@[simp] theorem pfnOf_setReadWrite (x : ℕ) : pfnOf (setReadWrite x) = pfnOf x :=
  shiftRight_flag (by decide)

@[simp] theorem pfnOf_setUsermode (x : ℕ) : pfnOf (setUsermode x) = pfnOf x :=
  shiftRight_flag (by decide)

theorem pfnOf_setPfn (x : ℕ) : pfnOf (setPfn x pfn) = pfn % 2 ^ 20 := by
  have hlow : (x &&& 0xFFF) >>> 12 = 0 := by
    rw [Nat.shiftRight_eq_div_pow]
    exact Nat.div_eq_of_lt (Nat.lt_of_le_of_lt Nat.and_le_right (by decide))
  rw [pfnOf, setPfn, Nat.shiftRight_or_distrib, hlow, Nat.zero_or, u32, Nat.shiftRight_eq_div_pow,
    Nat.shiftLeft_eq]
  omega

theorem tableOf_eq (hx : x < 2 ^ 32) : tableOf x = x >>> 12 <<< 12 := by
  rw [Nat.shiftLeft_eq, Nat.shiftRight_eq_div_pow]
  exact Masks.and_mask (w := 32) (k := 12) hx (by decide)

theorem flag_lt {i : ℕ} (hx : x < 2 ^ 32) (hi : i < 32) : (x ||| 1 <<< i) < 2 ^ 32 := by
  refine Nat.or_lt_two_pow hx ?_
  rw [Nat.one_shiftLeft]
  exact Nat.pow_lt_pow_right (by decide) hi

theorem setPresent_lt (hx : x < 2 ^ 32) : setPresent x < 2 ^ 32 := flag_lt hx (by decide)

theorem setReadWrite_lt (hx : x < 2 ^ 32) : setReadWrite x < 2 ^ 32 := flag_lt hx (by decide)

theorem setUsermode_lt (hx : x < 2 ^ 32) : setUsermode x < 2 ^ 32 := flag_lt hx (by decide)

theorem tableOf_congr {y : ℕ} (hx : x < 2 ^ 32) (hy : y < 2 ^ 32) (h : pfnOf x = pfnOf y) :
    tableOf x = tableOf y := by
  have h : x >>> 12 = y >>> 12 := h
  rw [tableOf_eq hx, tableOf_eq hy, h]

theorem tableOf_aligned (hx : x < 2 ^ 32) (ha : x % 4096 = 0) : tableOf x = x := by
  rw [tableOf_eq hx, Nat.shiftRight_eq_div_pow, Nat.shiftLeft_eq]
  omega

theorem aligned_flags (ha : x % 4096 = 0) : isPresent x = false ∧ isUsermode x = false := by
  have hx : x = (x / 4096) <<< 12 := by
    rw [Nat.shiftLeft_eq]
    omega
  rw [isPresent_eq, isUsermode_eq, hx, Nat.testBit_shiftLeft, Nat.testBit_shiftLeft]
  exact ⟨rfl, rfl⟩

end Bits

end X86Osdev.Mem

import X86Osdev.Asm.Functions
import X86Osdev.Library.Masks

/-! The tables of cpu/gdt.c and cpu/idt.c, and what the processor takes from them. -/

namespace X86Osdev.Cpu
open StackMachine StackMachine.Cpu ByteMemory X86Osdev.Asm

def get (m : Memory) (w a : ℕ) : ℕ := load (2 ^ 32) m w a

def put (w a v : ℕ) (m : Memory) : Memory := store (2 ^ 32) m w a v

def gdtSetGate (gdt num base limit access gran : ℕ) (m : Memory) : Memory :=
  let a := gdt + 8 * num
  let m := put 2 (a + 2) (base &&& 0xFFFF) m
  let m := put 1 (a + 4) ((base >>> 16) &&& 0xFF) m
  let m := put 1 (a + 7) ((base >>> 24) &&& 0xFF) m
  let m := put 2 a (limit &&& 0xFFFF) m
  let m := put 1 (a + 6) ((limit >>> 16) &&& 0x0F) m
  let m := put 1 (a + 6) (get m 1 (a + 6) ||| (gran &&& 0xF0)) m
  put 1 (a + 5) access m

def sizeofTss : ℕ := 104

/-- `gdt_install` up to the flushes. -/
def gdtInstall (gdt tss stackPointer : ℕ) (m : Memory) : Memory :=
  let m := gdtSetGate gdt 0 0 0 0 0 m
  let m := gdtSetGate gdt 1 0 0xFFFFFFFF 0x9A 0xCF m
  let m := gdtSetGate gdt 2 0 0xFFFFFFFF 0x92 0xCF m
  let m := gdtSetGate gdt 3 0 0xFFFFFFFF 0xFA 0xCF m
  let m := gdtSetGate gdt 4 0 0xFFFFFFFF 0xF2 0xCF m
  let m := put 4 (tss + 8) 0x10 m
  let m := put 4 (tss + 4) stackPointer m
  gdtSetGate gdt 5 tss sizeofTss 0x89 0 m

def setIdtGate (idt n handler : ℕ) (m : Memory) : Memory :=
  let a := idt + 8 * n
  let m := put 2 a (handler &&& 0xFFFF) m
  let m := put 2 (a + 2) kernelCs.toNat m
  let m := put 1 (a + 4) 0 m
  let m := put 1 (a + 5) 0x8E m
  put 2 (a + 6) ((handler >>> 16) &&& 0xFFFF) m

/-- The gates that `isr_install` sets, in its order; `isr` and `irq` are the addresses of the stubs. -/
def isrInstall (idt : ℕ) (isr irq : ℕ → ℕ) (m : Memory) : Memory :=
  let m := (List.range 32).foldl (fun m n => setIdtGate idt n (isr n) m) m
  (List.range 16).foldl (fun m i => setIdtGate idt (32 + i) (irq i) m) m

structure Segment where
  base : ℕ
  limit : ℕ
  access : ℕ
  flags : ℕ
deriving DecidableEq

def segmentAt (m : Memory) (a : ℕ) : Segment where
  base := get m 2 (a + 2) + 2 ^ 16 * get m 1 (a + 4) + 2 ^ 24 * get m 1 (a + 7)
  limit := get m 2 a + 2 ^ 16 * (get m 1 (a + 6) % 16)
  access := get m 1 (a + 5)
  flags := get m 1 (a + 6) / 16

namespace Segment

/-- The last offset, in pages where bit 3 of the flags says so. -/
def last (s : Segment) : ℕ := if s.flags.testBit 3 then s.limit * 4096 + 4095 else s.limit

def present (s : Segment) : Bool := s.access.testBit 7

def dpl (s : Segment) : ℕ := s.access / 32 % 4

end Segment

/-- A gate of the interrupt descriptor table; `kind` is its type with the system bit. -/
structure Gate where
  offset : ℕ
  selector : ℕ
  present : Bool
  dpl : ℕ
  kind : ℕ
deriving DecidableEq

def gateAt (m : Memory) (a : ℕ) : Gate where
  offset := get m 2 a + 2 ^ 16 * get m 2 (a + 6)
  selector := get m 2 (a + 2)
  present := (get m 1 (a + 5)).testBit 7
  dpl := get m 1 (a + 5) / 32 % 4
  kind := get m 1 (a + 5) % 32

def kernelGate (handler : ℕ) : Gate := ⟨handler, 8, true, 0, 14⟩

def emptyGate : Gate := ⟨0, 0, false, 0, 0⟩

section Fields
variable {m m' : Memory} {w w' a b v : ℕ}

theorem get_put (h : a + w ≤ 2 ^ 32) : get (put w a v m) w a = v % 256 ^ w := load_store_self h

theorem get_put_apart (ha : a + w ≤ 2 ^ 32) (hb : b + w' ≤ 2 ^ 32) (h : a + w ≤ b ∨ b + w' ≤ a) :
    get (put w a v m) w' b = get m w' b := load_store_of_disjoint ha hb h

theorem touches_put {P : Set ℕ} (ha : a + w ≤ 2 ^ 32) (hP : ∀ x, a ≤ x → x < a + w → x ∈ P) :
    Touches (2 ^ 32) P m (put w a v m) := touches_store ha hP

theorem get_touches {P : Set ℕ} (h : Touches (2 ^ 32) P m m') (ha : a + w ≤ 2 ^ 32)
    (hP : ∀ x, a ≤ x → x < a + w → x ∉ P) : get m' w a = get m w a := h.load ha hP

theorem get_zero (w a : ℕ) : get (fun _ => 0) w a = 0 := by
  unfold get
  induction w generalizing a with
  | zero => rfl
  | succ w ih =>
    rw [load, ih]
    rfl

theorem get_congr (h : ∀ x, a ≤ x → x < a + 8 → m' x = m x) (ha : a + 8 ≤ 2 ^ 32) {k : ℕ} (hk : k + w ≤ 8) :
    get m' w (a + k) = get m w (a + k) := by
  refine load_congr fun x hx hlt => ?_
  rw [Nat.mod_eq_of_lt (by omega)]
  exact h x (by omega) (by omega)

theorem segmentAt_congr (h : ∀ x, a ≤ x → x < a + 8 → m' x = m x) (ha : a + 8 ≤ 2 ^ 32) :
    segmentAt m' a = segmentAt m a := by
  have hfirst := get_congr (w := 2) (k := 0) h ha (by decide)
  rw [Nat.add_zero] at hfirst
  simp only [segmentAt, hfirst, get_congr (w := 2) (k := 2) h ha (by decide),
    get_congr (w := 1) (k := 4) h ha (by decide), get_congr (w := 1) (k := 5) h ha (by decide),
    get_congr (w := 1) (k := 6) h ha (by decide), get_congr (w := 1) (k := 7) h ha (by decide)]

theorem gateAt_congr (h : ∀ x, a ≤ x → x < a + 8 → m' x = m x) (ha : a + 8 ≤ 2 ^ 32) :
    gateAt m' a = gateAt m a := by
  have hfirst := get_congr (w := 2) (k := 0) h ha (by decide)
  rw [Nat.add_zero] at hfirst
  simp only [gateAt, hfirst, get_congr (w := 2) (k := 2) h ha (by decide), get_congr (w := 1) (k := 5) h ha (by decide),
    get_congr (w := 2) (k := 6) h ha (by decide)]

end Fields

section Segments
variable {m : Memory} {gdt num base limit access gran : ℕ}

theorem low_byte (v k : ℕ) : (v >>> k) &&& 0xFF = v / 2 ^ k % 256 := by
  rw [Nat.shiftRight_eq_div_pow]
  exact Nat.and_two_pow_sub_one_eq_mod _ 8

theorem low_half (v : ℕ) : v &&& 0xFFFF = v % 65536 := Nat.and_two_pow_sub_one_eq_mod v 16

theorem low_nibble (v : ℕ) : (v >>> 16) &&& 0x0F = v / 65536 % 16 := by
  rw [Nat.shiftRight_eq_div_pow]
  exact Nat.and_two_pow_sub_one_eq_mod _ 4

theorem high_nibble (gran : ℕ) : gran &&& 0xF0 = 16 * (gran / 16 % 16) := by
  have hmod : gran &&& 0xF0 = (gran % 2 ^ 8) &&& (2 ^ 8 - 2 ^ 4) := by
    refine Nat.eq_of_testBit_eq fun i => ?_
    rw [Nat.testBit_and, Nat.testBit_and, Nat.testBit_mod_two_pow]
    by_cases hi : i < 8
    · simp only [hi, decide_true, Bool.true_and]
      rfl
    · have hout : Nat.testBit 0xF0 i = false := Nat.testBit_lt_two_pow (lt_of_lt_of_le (by decide)
        (Nat.pow_le_pow_right (by decide) (Nat.le_of_not_lt hi)))
      simp only [hout, hi, decide_false, Bool.false_and, Bool.and_false]
  rw [hmod, Masks.and_mask (Nat.mod_lt _ (by decide)) (by decide)]
  omega

theorem shared_byte (n gran : ℕ) : n % 16 ||| (gran &&& 0xF0) = n % 16 + 16 * (gran / 16 % 16) := by
  have hor := Nat.two_pow_add_eq_or_of_lt (Nat.mod_lt n (show 0 < 2 ^ 4 by decide)) (gran / 16 % 16)
  rw [high_nibble, Nat.or_comm, Nat.add_comm]
  exact hor.symm

theorem gdtSetGate_touches (h : gdt + 8 * num + 8 ≤ 2 ^ 32) :
    Touches (2 ^ 32) (Set.Ico (gdt + 8 * num) (gdt + 8 * num + 8)) m (gdtSetGate gdt num base limit access gran m) := by
  have hput (m : Memory) (w k v : ℕ) (hk : k + w ≤ 8) :
      Touches (2 ^ 32) (Set.Ico (gdt + 8 * num) (gdt + 8 * num + 8)) m (put w (gdt + 8 * num + k) v m) :=
    touches_put (by omega) fun x hx hlt => ⟨by omega, by omega⟩
  unfold gdtSetGate
  dsimp only
  have h₁ := hput m 2 2 (base &&& 0xFFFF) (by decide)
  have h₂ := h₁.trans (hput _ 1 4 ((base >>> 16) &&& 0xFF) (by decide))
  have h₃ := h₂.trans (hput _ 1 7 ((base >>> 24) &&& 0xFF) (by decide))
  have h₄ := h₃.trans (hput _ 2 0 (limit &&& 0xFFFF) (by decide))
  have h₅ := h₄.trans (hput _ 1 6 ((limit >>> 16) &&& 0x0F) (by decide))
  exact (h₅.trans (hput _ 1 6 _ (by decide))).trans (hput _ 1 5 access (by decide))

/-- What was set is what the processor finds: of the limit the low twenty bits, of `gran` the high four. -/
theorem segmentAt_gdtSetGate (h : gdt + 8 * num + 8 ≤ 2 ^ 32) :
    segmentAt (gdtSetGate gdt num base limit access gran m) (gdt + 8 * num) =
      ⟨base % 2 ^ 32, limit % 2 ^ 20, access % 256, gran / 16 % 16⟩ := by
  generalize ha : gdt + 8 * num = a at h
  unfold gdtSetGate segmentAt
  rw [ha]
  dsimp only
  simp (disch := omega) only [get_put, get_put_apart, low_byte, low_half, low_nibble, Nat.mod_eq_of_lt, shared_byte,
    Segment.mk.injEq]
  refine ⟨?_, ?_, ?_, ?_⟩ <;> omega

theorem segmentAt_put_apart {w b v a : ℕ} (hb : b + w ≤ 2 ^ 32) (ha : a + 8 ≤ 2 ^ 32) (h : b + w ≤ a ∨ a + 8 ≤ b) :
    segmentAt (put w b v m) a = segmentAt m a := by
  refine segmentAt_congr (fun x hx hlt => ?_) ha
  exact touches_put (P := Set.Ico b (b + w)) hb (fun y hy hlt => ⟨hy, hlt⟩) x (by omega) fun hin => by
    rw [Set.mem_Ico] at hin
    omega

theorem segmentAt_gdtSetGate_apart {a : ℕ} (h : gdt + 8 * num + 8 ≤ 2 ^ 32) (ha : a + 8 ≤ 2 ^ 32)
    (hor : gdt + 8 * num + 8 ≤ a ∨ a + 8 ≤ gdt + 8 * num) :
    segmentAt (gdtSetGate gdt num base limit access gran m) a = segmentAt m a := by
  refine segmentAt_congr (fun x hx hlt => gdtSetGate_touches h x (by omega) fun hin => ?_) ha
  rw [Set.mem_Ico] at hin
  omega

structure Placed (gdt tss : ℕ) : Prop where
  gdtEnd : gdt + 48 ≤ 2 ^ 32
  tssEnd : tss + sizeofTss ≤ 2 ^ 32
  apart : gdt + 48 ≤ tss ∨ tss + sizeofTss ≤ gdt

def installed (tss : ℕ) : List Segment :=
  [⟨0, 0, 0, 0⟩, ⟨0, 0xFFFFF, 0x9A, 12⟩, ⟨0, 0xFFFFF, 0x92, 12⟩, ⟨0, 0xFFFFF, 0xFA, 12⟩, ⟨0, 0xFFFFF, 0xF2, 12⟩,
    ⟨tss, sizeofTss, 0x89, 0⟩]

variable {tss stackPointer : ℕ}

theorem gdtInstall_segments (h : Placed gdt tss) {i : ℕ} (hi : i < (installed tss).length) :
    segmentAt (gdtInstall gdt tss stackPointer m) (gdt + 8 * i) = (installed tss)[i] := by
  obtain ⟨hgdt, htss, hapart⟩ := h
  unfold sizeofTss at htss hapart
  change i < 6 at hi
  unfold gdtInstall
  match i, hi with
  | 0, _ | 1, _ | 2, _ | 3, _ | 4, _ =>
    simp (disch := omega) only [segmentAt_gdtSetGate, segmentAt_gdtSetGate_apart, segmentAt_put_apart]
    rfl
  | 5, _ =>
    rw [segmentAt_gdtSetGate (by omega), Nat.mod_eq_of_lt (show tss < 2 ^ 32 by omega)]
    rfl

end Segments

section Gates
variable {m : Memory} {idt n v handler : ℕ} {isr irq : ℕ → ℕ}

theorem setIdtGate_touches (h : idt + 8 * n + 8 ≤ 2 ^ 32) :
    Touches (2 ^ 32) (Set.Ico (idt + 8 * n) (idt + 8 * n + 8)) m (setIdtGate idt n handler m) := by
  have hput (m : Memory) (w k v : ℕ) (hk : k + w ≤ 8) :
      Touches (2 ^ 32) (Set.Ico (idt + 8 * n) (idt + 8 * n + 8)) m (put w (idt + 8 * n + k) v m) :=
    touches_put (by omega) fun x hx hlt => ⟨by omega, by omega⟩
  unfold setIdtGate
  dsimp only
  have h₁ := hput m 2 0 (handler &&& 0xFFFF) (by decide)
  have h₂ := h₁.trans (hput _ 2 2 kernelCs.toNat (by decide))
  have h₃ := h₂.trans (hput _ 1 4 0 (by decide))
  have h₄ := h₃.trans (hput _ 1 5 0x8E (by decide))
  exact h₄.trans (hput _ 2 6 _ (by decide))

theorem gateAt_setIdtGate (h : idt + 8 * n + 8 ≤ 2 ^ 32) :
    gateAt (setIdtGate idt n handler m) (idt + 8 * n) = kernelGate (handler % 2 ^ 32) := by
  have hhigh : (handler >>> 16) &&& 0xFFFF = handler / 65536 % 65536 := by
    rw [Nat.shiftRight_eq_div_pow]
    exact Nat.and_two_pow_sub_one_eq_mod _ 16
  generalize ha : idt + 8 * n = a at h
  unfold setIdtGate gateAt kernelGate
  rw [ha]
  dsimp only
  simp (disch := omega) only [get_put, get_put_apart, low_half, hhigh, Gate.mk.injEq]
  refine ⟨?_, by decide, by decide, by decide, by decide⟩
  omega

theorem gateAt_setIdtGate_apart (h : idt + 8 * n + 8 ≤ 2 ^ 32) (hv : idt + 8 * v + 8 ≤ 2 ^ 32) (hne : v ≠ n) :
    gateAt (setIdtGate idt n handler m) (idt + 8 * v) = gateAt m (idt + 8 * v) := by
  refine gateAt_congr (fun x hx hlt => setIdtGate_touches h x (by omega) fun hin => ?_) hv
  rw [Set.mem_Ico] at hin
  omega

theorem gateAt_foldl (m : Memory) (isr : ℕ → ℕ) (b k : ℕ) (h : idt + 8 * (b + k) ≤ 2 ^ 32)
    (hv : idt + 8 * v + 8 ≤ 2 ^ 32) :
    gateAt ((List.range k).foldl (fun m n => setIdtGate idt (b + n) (isr n) m) m) (idt + 8 * v) =
      if b ≤ v ∧ v < b + k then kernelGate (isr (v - b) % 2 ^ 32) else gateAt m (idt + 8 * v) := by
  induction k with
  | zero =>
    rw [if_neg (by omega)]
    rfl
  | succ k ih =>
    rw [List.range_succ, List.foldl_append, List.foldl_cons, List.foldl_nil]
    by_cases hlast : v = b + k
    · subst hlast
      rw [gateAt_setIdtGate (by omega), if_pos (by omega), Nat.add_sub_cancel_left]
    · rw [gateAt_setIdtGate_apart (by omega) hv hlast, ih (by omega)]
      have hiff : b ≤ v ∧ v < b + k ↔ b ≤ v ∧ v < b + (k + 1) := by omega
      simp only [hiff]

/-- The gate of every vector, in a table that was zero: interrupt gates of the kernel for the first 48. -/
theorem gateAt_isrInstall (h : idt + 8 * 256 ≤ 2 ^ 32) (hzero : ∀ x, idt ≤ x → x < idt + 8 * 256 → m x = 0)
    (hv : v < 256) : gateAt (isrInstall idt isr irq m) (idt + 8 * v) =
      if v < 32 then kernelGate (isr v % 2 ^ 32) else if v < 48 then kernelGate (irq (v - 32) % 2 ^ 32)
      else emptyGate := by
  have hempty : gateAt m (idt + 8 * v) = emptyGate := by
    rw [gateAt_congr (m := fun _ => 0) (fun x hx hlt => hzero x (by omega) (by omega)) (by omega)]
    simp [gateAt, emptyGate, get_zero]
  have hfirst := gateAt_foldl m isr 0 32 (show idt + 8 * (0 + 32) ≤ 2 ^ 32 by omega)
    (show idt + 8 * v + 8 ≤ 2 ^ 32 by omega)
  simp only [Nat.zero_add, Nat.sub_zero] at hfirst
  unfold isrInstall
  dsimp only
  rw [gateAt_foldl _ irq 32 16 (by omega) (by omega), hfirst, hempty]
  by_cases hlow : v < 32
  · rw [if_neg (by omega), if_pos (by omega), if_pos hlow]
  · by_cases hirq : v < 48
    · rw [if_pos (by omega), if_neg hlow, if_pos hirq]
    · rw [if_neg (by omega), if_neg (by omega), if_neg hlow, if_neg hirq]

end Gates

/-- Whether the processor lets a program without I/O privilege use a port: the bit of the map at the end of the task
state segment, as long as it and the byte after it lie in the segment. -/
def portGranted (m : Memory) (task : Segment) (p : ℕ) : Bool :=
  let map := get m 2 (task.base + 102)
  decide (map + p / 8 + 1 ≤ task.last) && !(get m 1 (task.base + map + p / 8)).testBit (p % 8)

section Ports
variable {m m' : Memory} {gdt tss stackPointer p : ℕ}

theorem testBit_get {w i j : ℕ} (a : ℕ) (hi : i < w) (hj : j < 8) :
    (get m w a).testBit (8 * i + j) = (get m 1 (a + i)).testBit j := by
  unfold get
  induction w generalizing a i with
  | zero => exact absurd hi (Nat.not_lt_zero i)
  | succ w ih =>
    have hlt := (m (a % 2 ^ 32)).toNat_lt
    rw [load, Nat.add_comm, show 256 = 2 ^ 8 from rfl, Nat.testBit_two_pow_mul_add _ hlt]
    cases i with
    | zero =>
      rw [if_pos (by omega), Nat.mul_zero, Nat.zero_add, Nat.add_zero]
      simp [load]
    | succ i =>
      have hbit : 8 * (i + 1) + j - 8 = 8 * i + j := by omega
      rw [if_neg (by omega), hbit, ih (a + 1) (by omega), Nat.add_assoc, Nat.add_comm 1]

theorem get_gdtSetGate_apart {num base limit access gran w a : ℕ} (h : gdt + 8 * num + 8 ≤ 2 ^ 32) (ha : a + w ≤ 2 ^ 32)
    (hor : gdt + 8 * num + 8 ≤ a ∨ a + w ≤ gdt + 8 * num) :
    get (gdtSetGate gdt num base limit access gran m) w a = get m w a := by
  refine get_touches (gdtSetGate_touches h) ha fun x hx hlt hin => ?_
  rw [Set.mem_Ico] at hin
  omega

/-- All that `gdt_install` leaves in the task state segment after `esp0` is `ss0`. -/
theorem gdtInstall_tss (stackPointer : ℕ) (h : Placed gdt tss) (hzero : ∀ x, tss ≤ x → x < tss + sizeofTss → m x = 0) :
    get (gdtInstall gdt tss stackPointer m) 4 (tss + 8) = 0x10 ∧
      ∀ k w, k + w ≤ sizeofTss → 12 ≤ k → get (gdtInstall gdt tss stackPointer m) w (tss + k) = 0 := by
  obtain ⟨hgdt, htss, hapart⟩ := h
  unfold sizeofTss at *
  unfold gdtInstall
  dsimp only
  refine ⟨?_, fun k w hk hor => ?_⟩
  · simp (disch := omega) only [get_gdtSetGate_apart, get_put_apart, get_put]
    rfl
  · simp (disch := omega) only [get_gdtSetGate_apart, get_put_apart]
    have hsame : get m w (tss + k) = get (fun _ => 0) w (tss + k) := by
      refine load_congr fun x hx hlt => ?_
      rw [Nat.mod_eq_of_lt (by omega)]
      exact hzero x (by omega) (by omega)
    exact hsame.trans (get_zero w _)

/-- What the kernel may have changed since `gdt_install`: of the two tables only the words `prev_tss` and `esp0`, which
every switch of threads sets. -/
def SinceInstall (gdt tss : ℕ) : Set ℕ :=
  {x | (gdt ≤ x → gdt + 48 ≤ x) ∧ (tss ≤ x → tss + sizeofTss ≤ x)} ∪ Set.Ico tss (tss + 8)

theorem Placed.task_kept (h : Placed gdt tss)
    (hkept : Touches (2 ^ 32) (SinceInstall gdt tss) (gdtInstall gdt tss stackPointer m) m') :
    segmentAt m' (gdt + 8 * 5) = ⟨tss, sizeofTss, 0x89, 0⟩ := by
  have hat : segmentAt (gdtInstall gdt tss stackPointer m) (gdt + 8 * 5) = ⟨tss, sizeofTss, 0x89, 0⟩ :=
    gdtInstall_segments h (show 5 < 6 by decide)
  obtain ⟨hgdt, -, hapart⟩ := h
  unfold SinceInstall sizeofTss at *
  rw [← hat]
  refine segmentAt_congr (fun x hx hlt => hkept x (by omega) fun hin => ?_) hgdt
  rcases hin with ⟨hout, -⟩ | ⟨hlow, hhigh⟩ <;> omega

theorem Placed.map_bit (h : Placed gdt tss) (hzero : ∀ x, tss ≤ x → x < tss + sizeofTss → m x = 0)
    (hkept : Touches (2 ^ 32) (SinceInstall gdt tss) (gdtInstall gdt tss stackPointer m) m') (hp : p < 832) :
    get m' 2 (tss + 102) = 0 ∧ (get m' 1 (tss + p / 8)).testBit (p % 8) =
      if p < 64 then (get m' 8 tss).testBit p else decide (p = 68) := by
  obtain ⟨hss, hrest⟩ := gdtInstall_tss stackPointer h hzero
  have htss := h.tssEnd
  unfold sizeofTss at *
  have hsame {w k : ℕ} (hk : k + w ≤ 104) (hlow : 8 ≤ k) :
      get m' w (tss + k) = get (gdtInstall gdt tss stackPointer m) w (tss + k) := by
    refine get_touches hkept (by omega) fun x hx hlt hin => ?_
    unfold SinceInstall sizeofTss at hin
    rcases hin with ⟨-, hout⟩ | ⟨-, hhigh⟩ <;> omega
  have hstack : get m' 4 (tss + 8) = 0x10 := (hsame (by omega) (by omega)).trans hss
  have hbit : p % 8 < 8 := Nat.mod_lt p (by decide)
  refine ⟨(hsame (by omega) (by omega)).trans (hrest 102 2 (by omega) (by omega)), ?_⟩
  -- the map lies over `prev_tss` and `esp0`, over `ss0` at 8, and over zeros elsewhere
  by_cases hesp : p < 64
  · have h := testBit_get (m := m') tss (show p / 8 < 8 by omega) hbit
    rw [Nat.div_add_mod] at h
    rw [if_pos hesp, h]
  rw [if_neg hesp]
  by_cases hsel : 64 ≤ p ∧ p < 96
  · have h := testBit_get (m := m') (tss + 8) (show p / 8 - 8 < 4 by omega) hbit
    have hindex : 8 * (p / 8 - 8) + p % 8 = p - 64 := by omega
    have hplace : tss + 8 + (p / 8 - 8) = tss + p / 8 := by omega
    have hpow : 0x10 = 2 ^ 4 := rfl
    rw [hindex, hplace, hstack, hpow, Nat.testBit_two_pow] at h
    rw [← h]
    exact decide_eq_decide.mpr (by omega)
  · have hbyte : get m' 1 (tss + p / 8) = 0 :=
      (hsame (by omega) (by omega)).trans (hrest _ 1 (by omega) (by omega))
    rw [hbyte, Nat.zero_testBit]
    exact (decide_eq_false (by omega)).symm

/-- The map base in the task state segment is 0, so that the segment is its own map: user programs may use the ports
below 832, those of the disk among them, but for port 68 and for those of the first 64 whose bits in `prev_tss` and
`esp0` are set. -/
theorem user_ports (h : Placed gdt tss) (hzero : ∀ x, tss ≤ x → x < tss + sizeofTss → m x = 0)
    (hkept : Touches (2 ^ 32) (SinceInstall gdt tss) (gdtInstall gdt tss stackPointer m) m') (p : ℕ) :
    portGranted m' (segmentAt m' (gdt + 8 * 5)) p = true ↔
      p < 832 ∧ p ≠ 68 ∧ (p < 64 → (get m' 8 tss).testBit p = false) := by
  have hmap := (h.map_bit (p := 0) hzero hkept (by decide)).1
  have hlast : (Segment.mk tss sizeofTss 0x89 0).last = 104 := by simp [Segment.last, sizeofTss]
  have hgranted : portGranted m' (segmentAt m' (gdt + 8 * 5)) p = true ↔
      p / 8 + 1 ≤ 104 ∧ (get m' 1 (tss + p / 8)).testBit (p % 8) = false := by
    rw [h.task_kept hkept]
    simp [portGranted, hmap, hlast]
  rw [hgranted]
  by_cases hin : p < 832
  swap
  · exact iff_of_false (fun hc => by omega) (fun hc => hin hc.1)
  rw [(h.map_bit hzero hkept hin).2]
  split
  · next hesp => exact ⟨fun hc => ⟨hin, by omega, fun _ => hc.2⟩, fun hc => ⟨by omega, hc.2.2 hesp⟩⟩
  · rw [decide_eq_false_iff_not]
    exact ⟨fun hc => ⟨hin, hc.2, by omega⟩, fun hc => ⟨by omega, hc.2.1⟩⟩

/-- A program may write the command port of the disk. -/
theorem user_ports_at_start : portGranted (gdtInstall 0x1000 0x2000 0x90000 fun _ => 0)
    (segmentAt (gdtInstall 0x1000 0x2000 0x90000 fun _ => 0) (0x1000 + 8 * 5)) 0x1F7 = true := by
  have hplaced : Placed 0x1000 0x2000 := ⟨by decide, by decide, by decide⟩
  exact (user_ports hplaced (fun _ _ _ => rfl) (Touches.refl _ _ _) 0x1F7).mpr
    ⟨by decide, by decide, fun h => absurd h (by decide)⟩

end Ports

end X86Osdev.Cpu

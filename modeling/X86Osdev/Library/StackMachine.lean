import X86Osdev.Library.ByteMemory
import Mathlib.Data.BitVec
import Mathlib.Data.Set.Lattice
import Mathlib.Order.CompletePartialOrder

/-! A 32-bit processor with a stack that grows down in byte memory: words, runs of words and the bytes under them,
pushes and pops, and the entry to and the return from a handler with or without a change of privilege. -/

namespace StackMachine
open ByteMemory

abbrev Word := BitVec 32
abbrev Selector := BitVec 16
abbrev Memory := ℕ → UInt8

def read (m : Memory) (a : Word) : Word := BitVec.ofNat 32 (load (2 ^ 32) m 4 a.toNat)

def write (m : Memory) (a v : Word) : Memory := store (2 ^ 32) m 4 a.toNat v.toNat

def span (a : Word) (n : ℕ) : Set ℕ := {x | x < 2 ^ 32 ∧ (BitVec.ofNat 32 x - a).toNat < n}

/-- The words of `ws` lie one after the other from `a` up. -/
def Holds (m : Memory) : Word → List Word → Prop
  | _, [] => True
  | a, w :: ws => read m a = w ∧ Holds m (a + 4) ws

section Words
variable {m m' : Memory} {a b v : Word} {n k : ℕ} {ws : List Word}

theorem span_mono (h : n ≤ k) : span a n ⊆ span a k := fun _ hx => ⟨hx.1, hx.2.trans_le h⟩

theorem span_subset (h : (b - a).toNat + n ≤ k) : span b n ⊆ span a k := by
  rintro x ⟨hx, hoff⟩
  refine ⟨hx, ?_⟩
  bv_omega

theorem span_add_subset (h : v.toNat + n ≤ k) : span (a + v) n ⊆ span a k := by
  apply span_subset
  have hoff : a + v - a = v := by bv_omega
  rwa [hoff]

theorem mem_span_offset {i : ℕ} (h : i < n) (hi : i < 2 ^ 32) : (a.toNat + i) % 2 ^ 32 ∈ span a n := by
  refine ⟨Nat.mod_lt _ (by decide), ?_⟩
  bv_omega

theorem span_disjoint (h : n ≤ (b - a).toNat) (h' : k ≤ (a - b).toNat) : Disjoint (span a n) (span b k) := by
  refine Set.disjoint_left.mpr fun x hx hy => ?_
  obtain ⟨hlt, hx⟩ := hx
  obtain ⟨-, hy⟩ := hy
  bv_omega

theorem read_congr (h : ∀ x ∈ span a 4, m' x = m x) : read m' a = read m a := by
  have hsame : load (2 ^ 32) m' 4 a.toNat = load (2 ^ 32) m 4 a.toNat :=
    load_shift fun i hi => h _ (mem_span_offset hi (by omega))
  rw [read, read, hsame]

theorem read_write_self (m : Memory) (a v : Word) : read (write m a v) a = v := by
  rw [read, write, load_store_same (by decide)]
  apply BitVec.eq_of_toNat_eq
  have hv := v.isLt
  simp [Nat.mod_eq_of_lt hv]

theorem write_other {x : ℕ} (hx : x < 2 ^ 32) (h : x ∉ span a 4) : write m a v x = m x := by
  have hoff : 4 ≤ (BitVec.ofNat 32 x - a).toNat := by
    by_contra hlt
    exact h ⟨hx, by omega⟩
  have hat : (a.toNat + (BitVec.ofNat 32 x - a).toNat) % 2 ^ 32 = x := by bv_omega
  have hsame := store_offset (m := m) (N := 2 ^ 32) (w := 4) (a := a.toNat) (v := v.toNat)
    (BitVec.isLt (BitVec.ofNat 32 x - a)) (j := 0) (by decide) (.inr hoff)
  rwa [hat, Nat.add_zero] at hsame

theorem touches_write (m : Memory) (a v : Word) : Touches (2 ^ 32) (span a 4) m (write m a v) :=
  fun _ hx h => write_other hx h

theorem touches_write_of_subset {P : Set ℕ} (h : Touches (2 ^ 32) P m m') (hP : span a 4 ⊆ P) :
    Touches (2 ^ 32) P m (write m' a v) := h.trans ((touches_write m' a v).mono hP)

theorem read_touches {P : Set ℕ} (h : Touches (2 ^ 32) P m m') (hP : Disjoint P (span a 4)) : read m' a = read m a :=
  read_congr fun x hx => h x hx.1 fun hxP => Set.disjoint_left.mp hP hxP hx

theorem read_write_apart (h : 4 ≤ (b - a).toNat) (h' : 4 ≤ (a - b).toNat) : read (write m a v) b = read m b :=
  read_touches (touches_write m a v) (span_disjoint h h')

theorem Holds.congr (hws : Holds m a ws) (hlen : 4 * ws.length ≤ 2 ^ 32)
    (h : ∀ x ∈ span a (4 * ws.length), m' x = m x) : Holds m' a ws := by
  induction ws generalizing a with
  | nil => trivial
  | cons w ws ih =>
    rw [List.length_cons] at hlen h
    have hfirst : read m' a = read m a := read_congr fun x hx => h x (span_mono (by omega) hx)
    refine ⟨hfirst.trans hws.1, ih hws.2 (by omega) fun x hx => h x ?_⟩
    exact span_add_subset (v := 4) (by simp; omega) hx

theorem Holds.touches {P : Set ℕ} (hws : Holds m a ws) (hlen : 4 * ws.length ≤ 2 ^ 32)
    (h : Touches (2 ^ 32) P m m') (hP : Disjoint P (span a (4 * ws.length))) : Holds m' a ws :=
  hws.congr hlen fun x hx => h x hx.1 fun hxP => Set.disjoint_left.mp hP hxP hx

/-- One more word right below a run. -/
theorem Holds.write (h : Holds m b ws) (hb : b = a + 4) (hlen : 4 * (ws.length + 1) ≤ 2 ^ 32) :
    Holds (write m a v) a (v :: ws) := by
  subst hb
  refine ⟨read_write_self _ _ _, h.touches (by omega) (touches_write _ _ _) (span_disjoint ?_ ?_)⟩ <;> bv_omega

end Words

structure Cpu where
  eax : Word
  ecx : Word
  edx : Word
  ebx : Word
  esp : Word
  ebp : Word
  esi : Word
  edi : Word
  eip : Word
  eflags : Word
  cr3 : Word
  cs : Selector
  ss : Selector
  ds : Selector
  es : Selector
  fs : Selector
  gs : Selector
  mem : Memory

namespace Cpu

def top (s : Cpu) : Word := read s.mem s.esp

def push (s : Cpu) (v : Word) : Cpu := { s with esp := s.esp - 4, mem := write s.mem (s.esp - 4) v }

def drop (s : Cpu) : Cpu := { s with esp := s.esp + 4 }

def pushAll (s : Cpu) (vs : List Word) : Cpu := vs.foldl push s

def selectorWord (sel : Selector) : Word := sel.setWidth 32

def wordSelector (w : Word) : Selector := w.setWidth 16

@[simp] theorem wordSelector_selectorWord (sel : Selector) : wordSelector (selectorWord sel) = sel := by
  simp [wordSelector, selectorWord, BitVec.setWidth_setWidth_of_le]

def level (sel : Selector) : ℕ := sel.toNat % 4

/-- EFLAGS as `pushf` stores it, without the virtual-8086 and the resume flag. -/
def storedFlags (f : Word) : Word := f &&& 0xFCFFFF#32

/-- EFLAGS in a handler entered through an interrupt gate: no trap, no interrupt, no nested task. -/
def gateFlags (f : Word) : Word := f &&& ~~~(0x34300#32)

def interruptFlag : Word := 0x200#32

/-- `iret`. To an outer level it takes the stack of that level as well. -/
def iret (s : Cpu) : Cpu :=
  let cs := wordSelector (read s.mem (s.esp + 4))
  let back := { s with eip := s.top, cs := cs, eflags := read s.mem (s.esp + 8) }
  if level cs = level s.cs then { back with esp := s.esp + 12 }
  else { back with esp := read s.mem (s.esp + 12), ss := wordSelector (read s.mem (s.esp + 16)) }

/-- What the processor does for an interrupt gate of selector `gate` and the handler at `entry`: from an outer
level it first goes to the stack that the task state segment at `tss` names. -/
def deliver (s : Cpu) (tss : Word) (gate : Selector) (entry : Word) (err : List Word) : Cpu :=
  let inner := { s with esp := read s.mem (tss + 4), ss := wordSelector (read s.mem (tss + 8)) }
  let on := if level s.cs = level gate then s else inner.pushAll [selectorWord s.ss, s.esp]
  let full := on.pushAll ([s.eflags, selectorWord s.cs, s.eip] ++ err)
  { full with cs := gate, eip := entry, eflags := gateFlags s.eflags }

/-- `pusha`, which stores `esp` as it was before the first push. -/
def pusha (s : Cpu) : Cpu := s.pushAll [s.eax, s.ecx, s.edx, s.ebx, s.esp, s.ebp, s.esi, s.edi]

/-- `popa`, which leaves the stored `esp` out. -/
def popa (s : Cpu) : Cpu :=
  { s with
    edi := s.top
    esi := read s.mem (s.esp + 4)
    ebp := read s.mem (s.esp + 8)
    ebx := read s.mem (s.esp + 16)
    edx := read s.mem (s.esp + 20)
    ecx := read s.mem (s.esp + 24)
    eax := read s.mem (s.esp + 28)
    esp := s.esp + 32 }

section Pushes
variable {s : Cpu} {v : Word} {ws : List Word}

@[simp] theorem push_cs (s : Cpu) (v : Word) : (s.push v).cs = s.cs := rfl

@[simp] theorem push_ds (s : Cpu) (v : Word) : (s.push v).ds = s.ds := rfl

@[simp] theorem push_ebx (s : Cpu) (v : Word) : (s.push v).ebx = s.ebx := rfl

@[simp] theorem push_edx (s : Cpu) (v : Word) : (s.push v).edx = s.edx := rfl

@[simp] theorem push_ebp (s : Cpu) (v : Word) : (s.push v).ebp = s.ebp := rfl

@[simp] theorem push_esi (s : Cpu) (v : Word) : (s.push v).esi = s.esi := rfl

@[simp] theorem push_edi (s : Cpu) (v : Word) : (s.push v).edi = s.edi := rfl

theorem pushAll_nil (s : Cpu) : s.pushAll [] = s := rfl

theorem pushAll_cons (s : Cpu) (v : Word) (vs : List Word) : s.pushAll (v :: vs) = (s.push v).pushAll vs := rfl

theorem pushAll_append (s : Cpu) (vs ws : List Word) : s.pushAll (vs ++ ws) = (s.pushAll vs).pushAll ws :=
  List.foldl_append

theorem pushAll_eq (s : Cpu) (vs : List Word) :
    s.pushAll vs = { s with esp := s.esp - BitVec.ofNat 32 (4 * vs.length), mem := (s.pushAll vs).mem } := by
  induction vs generalizing s with
  | nil => simp [pushAll_nil]
  | cons v vs ih =>
    rw [pushAll_cons, ih]
    have hesp : s.esp - 4 - BitVec.ofNat 32 (4 * vs.length) = s.esp - BitVec.ofNat 32 (4 * (vs.length + 1)) := by
      bv_omega
    simp only [push, List.length_cons, hesp]

theorem pushAll_esp (s : Cpu) (vs : List Word) : (s.pushAll vs).esp = s.esp - BitVec.ofNat 32 (4 * vs.length) := by
  rw [pushAll_eq]

@[simp] theorem pushAll_eax (s : Cpu) (vs : List Word) : (s.pushAll vs).eax = s.eax := by rw [pushAll_eq]

@[simp] theorem pushAll_ecx (s : Cpu) (vs : List Word) : (s.pushAll vs).ecx = s.ecx := by rw [pushAll_eq]

@[simp] theorem pushAll_edx (s : Cpu) (vs : List Word) : (s.pushAll vs).edx = s.edx := by rw [pushAll_eq]

@[simp] theorem pushAll_ebx (s : Cpu) (vs : List Word) : (s.pushAll vs).ebx = s.ebx := by rw [pushAll_eq]

@[simp] theorem pushAll_ebp (s : Cpu) (vs : List Word) : (s.pushAll vs).ebp = s.ebp := by rw [pushAll_eq]

@[simp] theorem pushAll_esi (s : Cpu) (vs : List Word) : (s.pushAll vs).esi = s.esi := by rw [pushAll_eq]

@[simp] theorem pushAll_edi (s : Cpu) (vs : List Word) : (s.pushAll vs).edi = s.edi := by rw [pushAll_eq]

@[simp] theorem pushAll_eflags (s : Cpu) (vs : List Word) : (s.pushAll vs).eflags = s.eflags := by rw [pushAll_eq]

@[simp] theorem pushAll_cr3 (s : Cpu) (vs : List Word) : (s.pushAll vs).cr3 = s.cr3 := by rw [pushAll_eq]

@[simp] theorem pushAll_cs (s : Cpu) (vs : List Word) : (s.pushAll vs).cs = s.cs := by rw [pushAll_eq]

@[simp] theorem pushAll_ss (s : Cpu) (vs : List Word) : (s.pushAll vs).ss = s.ss := by rw [pushAll_eq]

@[simp] theorem pushAll_ds (s : Cpu) (vs : List Word) : (s.pushAll vs).ds = s.ds := by rw [pushAll_eq]

/-- What pushes leave depends on the stack pointer and memory alone. -/
theorem pushAll_congr {p q : Cpu} (hesp : p.esp = q.esp) (hmem : p.mem = q.mem) (vs : List Word) :
    (p.pushAll vs).esp = (q.pushAll vs).esp ∧ (p.pushAll vs).mem = (q.pushAll vs).mem := by
  induction vs generalizing p q with
  | nil => exact ⟨hesp, hmem⟩
  | cons v vs ih =>
    rw [pushAll_cons, pushAll_cons]
    refine ih ?_ ?_
    · simp only [push, hesp]
    · simp only [push, hesp, hmem]

theorem holds_push (h : Holds s.mem s.esp ws) (hlen : 4 * (ws.length + 1) ≤ 2 ^ 32) :
    Holds (s.push v).mem (s.push v).esp (v :: ws) := by
  apply h.write ?_ hlen
  simp

theorem holds_pushAll (vs : List Word) (h : Holds s.mem s.esp ws) (hlen : 4 * (ws.length + vs.length) ≤ 2 ^ 32) :
    Holds (s.pushAll vs).mem (s.pushAll vs).esp (vs.reverse ++ ws) := by
  induction vs generalizing s ws with
  | nil => exact h
  | cons v vs ih =>
    rw [List.length_cons] at hlen
    have hpush := holds_push (v := v) h (by omega)
    have hrest := ih hpush (by rw [List.length_cons]; omega)
    rw [pushAll_cons]
    simpa using hrest

theorem touches_pushAll (s : Cpu) (vs : List Word) (hlen : 4 * vs.length ≤ 2 ^ 32) :
    Touches (2 ^ 32) (span (s.esp - BitVec.ofNat 32 (4 * vs.length)) (4 * vs.length)) s.mem (s.pushAll vs).mem := by
  induction vs generalizing s with
  | nil => exact Touches.refl _ _ _
  | cons v vs ih =>
    rw [List.length_cons] at hlen ⊢
    have hfirst : Touches (2 ^ 32) (span (s.esp - 4) 4) s.mem (s.push v).mem := touches_write _ _ _
    have hrest := ih (s.push v) (by omega)
    refine (hfirst.mono ?_).trans (hrest.mono ?_)
    · rintro x ⟨hx, hoff⟩
      refine ⟨hx, ?_⟩
      bv_omega
    · rintro x ⟨hx, hoff⟩
      refine ⟨hx, ?_⟩
      simp only [push] at hoff
      bv_omega

end Pushes
end Cpu
end StackMachine

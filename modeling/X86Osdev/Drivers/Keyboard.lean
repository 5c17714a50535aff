import X86Osdev.Kernel.Files

/-! The keyboard of drivers/keyboard.c: scancodes, and the buffer that they are put into. -/

namespace X86Osdev.Drivers
open X86Osdev.Lib X86Osdev.Mem X86Osdev.Kernel

def scMax : UInt8 := 57

def backspaceKey : UInt8 := 0x0E

def enterKey : UInt8 := 0x1C

def ctrlKey : UInt8 := 29

def scAscii : List UInt8 :=
  [63, 63, 49, 50, 51, 52, 53, 54, 55, 56, 57, 48, 45, 61, 63,
    63, 113, 119, 101, 114, 116, 121, 117, 105, 111, 112, 91, 93, 63, 63,
    97, 115, 100, 102, 103, 104, 106, 107, 108, 59, 39, 96, 63, 92, 122,
    120, 99, 118, 98, 110, 109, 44, 46, 47, 63, 63, 63, 32]

/-- The character that `work_queue_thread` writes for a scancode. -/
def translate (scancode : UInt8) : UInt8 :=
  if scancode = enterKey then 10
  else if scancode = backspaceKey then backspaceKey
  else if scancode = ctrlKey then ctrlKey
  else scAscii.getD scancode.toNat 0

/-- `keyboard_buffer` in memory, `key_buf_avail` and `key_buf_last`. The counters have no place in `mem`, though
`key_buf_avail` lies right behind the buffer: this is the keyboard as long as the NUL stays inside of it. -/
structure Keyboard where
  mem : Memory
  keyboardBuffer : ℕ
  keyBufAvail : ℕ
  keyBufLast : ℕ

namespace Keyboard

/-- What `keyboard_callback` does with a scancode up to `SC_MAX`. -/
def accept (scancode : UInt8) (b : Keyboard) : Option Keyboard :=
  (append b.keyboardBuffer scancode b.mem).map fun mem =>
    { b with mem, keyBufAvail := u32 (b.keyBufAvail + 1) }

/-- `keyboard_buffer[key_buf_last++ % 1024]` -/
def read (b : Keyboard) : UInt8 × Keyboard :=
  (b.mem (u32 (b.keyboardBuffer + b.keyBufLast % 1024)), { b with keyBufLast := u32 (b.keyBufLast + 1) })

/-- `key_buf_avail--` -/
def decrement (b : Keyboard) : Keyboard := { b with keyBufAvail := u32 (b.keyBufAvail + (2 ^ 32 - 1)) }

def clear (b : Keyboard) : Keyboard := { b with mem := memset b.keyboardBuffer 0 1024 b.mem }

def reset (b : Keyboard) : Keyboard := { b with keyBufLast := 0 }

@[simp] theorem clear_keyBufAvail (b : Keyboard) : b.clear.keyBufAvail = b.keyBufAvail := by
  cases b
  rfl

/-- The 1024 bytes of the buffer hold `codes`, all accepted, and a NUL. -/
structure Typed (b : Keyboard) (codes : List UInt8) : Prop where
  start : 0 < b.keyboardBuffer
  fits : b.keyboardBuffer + 1024 < 2 ^ 32
  string : StringBytes b.mem b.keyboardBuffer codes
  stop : b.mem (b.keyboardBuffer + codes.length) = 0
  length_lt : codes.length < 1024

section Buffer
variable {b b' : Keyboard} {codes : List UInt8} {scancode : UInt8} {n : ℕ}

theorem Typed.strlen (h : Typed b codes) : strlen b.mem b.keyboardBuffer = some codes.length := by
  have hfits := h.fits
  have hlen := h.length_lt
  exact h.string.strlen h.stop (by omega)

theorem Typed.accept (h : Typed b codes) (hroom : codes.length < 1023) (hcode : scancode ≠ 0) :
    ∃ mem, b.accept scancode = some { b with mem, keyBufAvail := u32 (b.keyBufAvail + 1) } ∧
      Typed { b with mem, keyBufAvail := u32 (b.keyBufAvail + 1) } (codes ++ [scancode]) := by
  have hfits := h.fits
  have hlen : (codes ++ [scancode]).length = codes.length + 1 := List.length_append
  obtain ⟨mem, happend, hstring, hstop⟩ := h.string.append h.stop (.inl h.start) (by omega) hcode
  refine ⟨mem, ?_, h.start, hfits, hstring, hstop (by omega), by omega⟩
  rw [Keyboard.accept, happend]
  rfl

theorem Typed.read (h : Typed b codes) (hlast : b.keyBufLast = n) (hn : n < codes.length) :
    b.read = (codes[n], { b with keyBufLast := n + 1 }) := by
  have hfits := h.fits
  have hlen := h.length_lt
  have hslot : b.keyBufLast % 1024 = n := by
    rw [hlast]
    exact Nat.mod_eq_of_lt (by omega)
  have hnext : u32 (b.keyBufLast + 1) = n + 1 := by
    rw [hlast]
    exact Nat.mod_eq_of_lt (by omega)
  have hcode : b.mem (u32 (b.keyboardBuffer + n)) = codes[n] := by
    rw [u32, Nat.mod_eq_of_lt (by omega), h.string.mem n hn]
  rw [Keyboard.read, hslot, hnext, hcode]

theorem Typed.clear (h : Typed b codes) : Typed b.clear [] := by
  have hfits := h.fits
  have hzero : memset b.keyboardBuffer 0 1024 b.mem (b.keyboardBuffer + 0) = 0 :=
    (memset_apply hfits.le).trans (if_pos ⟨Nat.le_add_right _ _, Nat.add_lt_add_left (by decide) _⟩)
  refine ⟨h.start, hfits, ⟨fun i hi => (Nat.not_lt_zero i hi).elim, fun c hc => (List.not_mem_nil hc).elim⟩,
    ?_, by decide⟩
  dsimp only [Keyboard.clear, List.length_nil]
  exact hzero

end Buffer

end Keyboard

end X86Osdev.Drivers

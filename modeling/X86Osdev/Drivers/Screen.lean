import X86Osdev.Kernel.Files

/-! The text screen of drivers/screen.c: the cursor, which is also the position of `stdout`, and `kprintf`. -/

namespace X86Osdev.Drivers
open X86Osdev.Lib X86Osdev.Mem X86Osdev.Kernel ByteMemory

def vgaColumns : ℤ := 80

def vgaRows : ℤ := 25

def vgaAddress : ℕ := 0xB8000

/-- No code sets `kernel_init_ok`. -/
def kernelInitOk : Bool := false

/-- `stdout`, with the memory that the screen is in too, and the position register of the card. -/
structure Screen where
  stdout : Device
  cursor : ℕ
  textColor : UInt8

def getOffset (row col : ℤ) : ℤ := 2 * (row * vgaColumns + col)

def getOffsetRow (offset : ℤ) : ℤ := offset.tdiv (2 * vgaColumns)

namespace Screen

def setPos (pos : ℤ) (s : Screen) : Screen :=
  { s with stdout := { s.stdout with pos := (pos % 0x100000000).toNat } }

def setCursorOffset (offset : ℤ) (s : Screen) : Screen :=
  let offset := offset.tdiv 2
  let s := s.setPos offset
  { s with cursor := (offset % 0x10000).toNat }

def setCursorPos (row col : ℤ) (s : Screen) : Screen :=
  let offset := getOffset row col
  (s.setPos offset).setCursorOffset offset

def getCursorOffset (s : Screen) : ℤ := s.cursor * 2

/-- A call on `stdout`. -/
def onStdout {α : Type} (call : Device → Outcome Device α) (s : Screen) : Outcome Screen α :=
  (call s.stdout).lift fun d => { s with stdout := d }

def withMem (m : Memory) (s : Screen) : Screen := { s with stdout := { s.stdout with mem := m } }

def setVidmem (offset : ℤ) (b : UInt8) (s : Screen) : Screen :=
  s.withMem (storeByte (2 ^ 32) s.stdout.mem (va vgaAddress + (offset % 0x100000000).toNat) b)

def putChar (offset : ℤ) (c : UInt8) (s : Screen) : Outcome Screen Unit :=
  if kernelInitOk then
    (s.onStdout (setPosBlock (offset % 0x100000000).toNat)).bind fun _ s =>
    (s.onStdout (writeByteBlock c)).bind fun _ s =>
    (s.onStdout (setPosBlock ((offset + 1) % 0x100000000).toNat)).bind fun _ s =>
    (s.onStdout (writeByteBlock s.textColor)).bind fun _ s => .ok () s
  else .ok () ((s.setVidmem offset c).setVidmem (offset + 1) s.textColor)

/-- The rows move up, on the screen and in the buffer of `stdout`. -/
def scroll (s : Screen) : Screen :=
  let n := (getOffset (vgaRows - 1) vgaColumns).toNat
  let up := (getOffset 1 0).toNat
  let m := memcopy (va vgaAddress + up) (va vgaAddress) n s.stdout.mem
  s.withMem (if kernelInitOk then memcopy (s.stdout.buffer + up) s.stdout.buffer n m else m)

/-- `printChar`: `printCharAt` at the cursor. -/
def printChar (c : UInt8) (s : Screen) : Outcome Screen Unit :=
  let offset := s.getCursorOffset
  (if c = 10 then .ok (getOffset (getOffsetRow offset + 1) 0) s
    else (s.putChar offset c).bind fun _ s => .ok (offset + 2) s : Outcome Screen ℤ).bind fun offset s =>
  if offset ≥ vgaRows * vgaColumns * 2 then
    .ok () (s.scroll.setCursorOffset (getOffset (vgaRows - 1) 0))
  else .ok () (s.setCursorOffset offset)

def printChars : List UInt8 → Screen → Outcome Screen Unit
  | [], s => .ok () s
  | c :: cs, s => (s.printChar c).bind fun _ s => s.printChars cs

end Screen

def charByte (c : Char) : UInt8 := .ofNat c.toNat

/-- The digits of `d`, with a sign for `%d`. -/
def itoa (base : UInt8) (d : ℕ) : List UInt8 :=
  if base = charByte 'd' ∧ d ≥ 2 ^ 31 then
    charByte '-' :: (Nat.toDigits 10 (2 ^ 32 - d)).map charByte
  else if base = charByte 'x' then (Nat.toDigits 16 d).map charByte
  else (Nat.toDigits 10 d).map charByte

/-- The bytes of a string, of at most `n`. -/
def stringAt (m : Memory) : ℕ → ℕ → Option (List UInt8)
  | 0, _ => none
  | n + 1, a => if m (u32 a) = 0 then some [] else (stringAt m n (a + 1)).map (m (u32 a) :: ·)

def padded (pad0 : Bool) (pad : ℕ) (text : List UInt8) : List UInt8 :=
  List.replicate (pad - text.length) (charByte (if pad0 then '0' else ' ')) ++ text

def directive (m : Memory) (c : UInt8) (pad0 : Bool) (pad arg : ℕ) : Option (List UInt8) :=
  if c = charByte 'd' ∨ c = charByte 'u' ∨ c = charByte 'x' then some (padded pad0 pad (itoa c arg))
  else if c = charByte 's' then
    if arg = 0 then some (padded pad0 pad ("(null)".toList.map charByte))
    else (stringAt m (2 ^ 32) arg).map (padded pad0 pad)
  else some [.ofNat arg]

/-- The text that `kprintf` prints, going over the format for at most `n` turns; the arguments are on the
stack from `arg` on. -/
def kprintfText (m : Memory) : ℕ → ℕ → ℕ → Option (List UInt8)
  | 0, _, _ => none
  | n + 1, format, arg =>
    let c := m (u32 format)
    let format := format + 1
    if c = 0 then some []
    else if c ≠ charByte '%' then (kprintfText m n format arg).map (c :: ·)
    else
      let pad0 := m (u32 format) = charByte '0'
      let format := if pad0 then format + 1 else format
      let digit := m (u32 format)
      let isPad := charByte '0' ≤ digit ∧ digit ≤ charByte '9'
      let pad := if isPad then (digit - charByte '0').toNat else 0
      let format := if isPad then format + 1 else format
      (directive m (m (u32 format)) pad0 pad (load32 m (u32 arg))).bind fun text =>
        (kprintfText m n (format + 1) (arg + 4)).map (text ++ ·)

/-- `kprintf`; none of what it prints is part of what it reads. -/
def kprintf (format arg : ℕ) (s : Screen) : Outcome Screen Unit :=
  match kprintfText s.stdout.mem (2 ^ 32) format arg with
  | none => .hang s
  | some text => s.printChars text

/-- The device stays as it is, but for its position and for memory. -/
structure Printed (s s' : Screen) : Prop where
  locks : s'.stdout.locks = s.stdout.locks
  size : s'.stdout.size = s.stdout.size
  pos : s.stdout.pos < 2 ^ 32 → s'.stdout.pos < 2 ^ 32

section Printed
variable {s s' s'' : Screen}

theorem Printed.refl (s : Screen) : Printed s s := ⟨rfl, rfl, id⟩

theorem Printed.trans (h : Printed s s') (h' : Printed s' s'') : Printed s s'' :=
  ⟨h'.locks.trans h.locks, h'.size.trans h.size, fun hp => h'.pos (h.pos hp)⟩

theorem printed_setPos (pos : ℤ) (s : Screen) : Printed s (s.setPos pos) := by
  refine ⟨rfl, rfl, fun _ => ?_⟩
  show (pos % 0x100000000).toNat < 2 ^ 32
  omega

theorem printed_setCursorOffset (offset : ℤ) (s : Screen) : Printed s (s.setCursorOffset offset) := by
  have h := printed_setPos (offset.tdiv 2) s
  exact ⟨h.locks, h.size, h.pos⟩

theorem printed_setCursorPos (row col : ℤ) (s : Screen) : Printed s (s.setCursorPos row col) :=
  (printed_setPos _ s).trans (printed_setCursorOffset _ _)

theorem printed_withMem (m : Memory) (s : Screen) : Printed s (s.withMem m) := ⟨rfl, rfl, id⟩

theorem putChar_ok (offset : ℤ) (c : UInt8) (s : Screen) :
    ∃ s', s.putChar offset c = .ok () s' ∧ Printed s s' :=
  ⟨_, rfl, (printed_withMem _ s).trans (printed_withMem _ _)⟩

theorem printChar_ok (c : UInt8) (s : Screen) : ∃ s', s.printChar c = .ok () s' ∧ Printed s s' := by
  have hprinted : ∃ offset s₁, (if c = 10 then
      .ok (getOffset (getOffsetRow s.getCursorOffset + 1) 0) s
      else (s.putChar s.getCursorOffset c).bind fun _ s' => .ok (s.getCursorOffset + 2) s' :
        Outcome Screen ℤ) = .ok offset s₁ ∧ Printed s s₁ := by
    by_cases hc : c = 10
    · rw [if_pos hc]
      exact ⟨_, s, rfl, Printed.refl s⟩
    · obtain ⟨s₁, hput, hm⟩ := putChar_ok s.getCursorOffset c s
      rw [if_neg hc, hput]
      exact ⟨_, s₁, rfl, hm⟩
  obtain ⟨offset, s₁, hoffset, hm⟩ := hprinted
  unfold Screen.printChar
  dsimp only
  rw [hoffset, Outcome.bind_ok]
  split
  · exact ⟨_, rfl, (hm.trans (printed_withMem _ s₁)).trans (printed_setCursorOffset _ _)⟩
  · exact ⟨_, rfl, hm.trans (printed_setCursorOffset _ s₁)⟩

theorem printChars_ok (text : List UInt8) (s : Screen) :
    ∃ s', s.printChars text = .ok () s' ∧ Printed s s' := by
  induction text generalizing s with
  | nil => exact ⟨s, rfl, Printed.refl s⟩
  | cons c cs ih =>
    obtain ⟨s₁, hone, hm⟩ := printChar_ok c s
    obtain ⟨s₂, hrest, hm'⟩ := ih s₁
    refine ⟨s₂, ?_, hm.trans hm'⟩
    rw [Screen.printChars, hone, Outcome.bind_ok, hrest]

end Printed

end X86Osdev.Drivers

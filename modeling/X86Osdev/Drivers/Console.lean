import X86Osdev.Drivers.Screen
import X86Osdev.Library.Terminal

/-! What the screen of drivers/screen.c shows while a text is printed. -/

namespace X86Osdev.Drivers
open X86Osdev.Lib X86Osdev.Mem X86Osdev.Kernel ByteMemory

structure Cell where
  char : UInt8
  color : UInt8
  deriving DecidableEq

def visibleBytes : Set ℕ := Set.Ico (va vgaAddress) (va vgaAddress + 4000)

def keyOf (color c : UInt8) : Option Cell := if c = 10 then none else some ⟨c, color⟩

namespace Screen

def cell (s : Screen) (p : ℕ) : Cell :=
  ⟨s.stdout.mem (va vgaAddress + 2 * p), s.stdout.mem (va vgaAddress + (2 * p + 1))⟩

def terminal (s : Screen) (h : s.cursor < 25 * 80) : Terminal 25 80 Cell :=
  Terminal.ofBuffer s.cell ⟨s.cursor, h⟩

/-- The cells after the last row, which is not shown. -/
def rowBelow (s : Screen) (c : Fin 80) : Cell := s.cell (25 * 80 + c)

/-- A screen that printing on `s` ends in. -/
structure Stays (s s' : Screen) : Prop where
  stores : Touches (2 ^ 32) visibleBytes s.stdout.mem s'.stdout.mem
  textColor : s'.textColor = s.textColor
  offset : 0 ≤ s'.getCursorOffset ∧ s'.getCursorOffset < 4000 ∧ Even s'.getCursorOffset

/-- After each character of `text` the screen shows what the terminal does, with rows of `blank` from below. -/
def ShowsText (s : Screen) (h : s.cursor < 25 * 80) (blank : Cell) (text : List UInt8) : Prop :=
  ∀ p, p <+: text → ∃ s', s.printChars p = .ok () s' ∧ s.Stays s' ∧
    ((s.terminal h).puts (fun _ => blank) (p.map (keyOf s.textColor))).Shows s'.cell s'.cursor

end Screen

section Cells
variable {s s' : Screen} {p : ℕ}

theorem va_vgaAddress : va vgaAddress = 3221979136 := by decide

theorem cell_congr (h : Touches (2 ^ 32) visibleBytes s.stdout.mem s'.stdout.mem) (hp : 2000 ≤ p)
    (hp' : p < 2080) : s'.cell p = s.cell p := by
  have hva := va_vgaAddress
  have hbyte : ∀ i < 2, s'.stdout.mem (va vgaAddress + (2 * p + i)) =
      s.stdout.mem (va vgaAddress + (2 * p + i)) := by
    intro i hi
    refine h _ (by omega) fun hx => ?_
    have hlt := hx.2
    omega
  exact congrArg₂ Cell.mk (hbyte 0 (by decide)) (hbyte 1 (by decide))

theorem offset_of_lt (h : s.cursor < 25 * 80) :
    0 ≤ s.getCursorOffset ∧ s.getCursorOffset < 4000 ∧ Even s.getCursorOffset := by
  unfold Screen.getCursorOffset
  refine ⟨by omega, by omega, ?_⟩
  exact even_two.mul_left _

theorem Screen.Stays.rowBelow (h : s.Stays s') : s'.rowBelow = s.rowBelow := by
  funext c
  have hc := c.isLt
  exact cell_congr h.stores (by omega) (by omega)

theorem Screen.Stays.trans {s'' : Screen} (h : s.Stays s') (h' : s'.Stays s'') : s.Stays s'' :=
  ⟨h.stores.trans h'.stores, h'.textColor.trans h.textColor, h'.offset⟩

end Cells

section Steps
variable {s : Screen} {c : UInt8} {p : ℕ}

def Screen.drawn (s : Screen) (c : UInt8) : Screen :=
  if c = 10 then s
  else (s.setVidmem s.getCursorOffset c).setVidmem (s.getCursorOffset + 1) s.textColor

theorem getOffset_next (p : ℕ) :
    getOffset (getOffsetRow ((p : ℤ) * 2) + 1) 0 = 2 * ((p / 80 + 1) * 80 : ℕ) := by
  have hdiv : ((p : ℤ) * 2).tdiv 160 = (p / 80 : ℕ) := by
    rw [Int.tdiv_eq_ediv_of_nonneg (by omega)]
    omega
  show 2 * ((((p : ℤ) * 2).tdiv 160 + 1) * 80 + 0) = _
  rw [hdiv]
  omega

theorem printChar_eq (s : Screen) (c : UInt8) :
    s.printChar c = .ok () (if Terminal.next 80 s.cursor (keyOf s.textColor c) < 25 * 80 then
      (s.drawn c).setCursorOffset (2 * Terminal.next 80 s.cursor (keyOf s.textColor c) : ℕ)
      else (s.drawn c).scroll.setCursorOffset (2 * ((25 - 1) * 80) : ℕ)) := by
  have hafter : (if c = 10 then .ok (getOffset (getOffsetRow s.getCursorOffset + 1) 0) s
      else (s.putChar s.getCursorOffset c).bind fun _ s' => .ok (s.getCursorOffset + 2) s' :
        Outcome Screen ℤ) =
      .ok (2 * Terminal.next 80 s.cursor (keyOf s.textColor c) : ℕ) (s.drawn c) := by
    unfold keyOf Screen.drawn
    by_cases hc : c = 10
    · rw [if_pos hc, if_pos hc, if_pos hc]
      refine congrArg₂ Outcome.ok ?_ rfl
      exact (getOffset_next s.cursor).trans (by rw [Terminal.next]; push_cast; ring)
    · rw [if_neg hc, if_neg hc, if_neg hc]
      refine congrArg₂ Outcome.ok ?_ rfl
      rw [Terminal.next, Screen.getCursorOffset]
      push_cast
      ring
  unfold Screen.printChar
  dsimp only
  rw [hafter, Outcome.bind_ok]
  by_cases hnext : Terminal.next 80 s.cursor (keyOf s.textColor c) < 25 * 80
  · have hoffset : ¬ ((2 * Terminal.next 80 s.cursor (keyOf s.textColor c) : ℕ) : ℤ) ≥ 25 * 80 * 2 := by
      omega
    rw [if_pos hnext]
    exact if_neg hoffset
  · have hoffset : ((2 * Terminal.next 80 s.cursor (keyOf s.textColor c) : ℕ) : ℤ) ≥ 25 * 80 * 2 := by
      omega
    rw [if_neg hnext]
    exact if_pos hoffset

theorem cursor_setCursorOffset (s : Screen) (hp : p < 25 * 80) :
    (s.setCursorOffset (2 * p : ℕ)).cursor = p := by
  have hhalf : ((2 * p : ℕ) : ℤ).tdiv 2 = p := by
    rw [Int.tdiv_eq_ediv_of_nonneg (by omega)]
    omega
  show ((((2 * p : ℕ) : ℤ).tdiv 2) % 0x10000).toNat = p
  rw [hhalf]
  omega

theorem mem_drawn (hc : c ≠ 10) (h : s.cursor < 25 * 80) : (s.drawn c).stdout.mem =
    Function.update (Function.update s.stdout.mem (va vgaAddress + 2 * s.cursor) c)
      (va vgaAddress + (2 * s.cursor + 1)) s.textColor := by
  have hva := va_vgaAddress
  have hchar : (va vgaAddress + (s.getCursorOffset % 0x100000000).toNat) % 2 ^ 32 =
      va vgaAddress + 2 * s.cursor := by
    unfold Screen.getCursorOffset
    omega
  have hcolor : (va vgaAddress + ((s.getCursorOffset + 1) % 0x100000000).toNat) % 2 ^ 32 =
      va vgaAddress + (2 * s.cursor + 1) := by
    unfold Screen.getCursorOffset
    omega
  unfold Screen.drawn
  rw [if_neg hc]
  show storeByte (2 ^ 32) (storeByte (2 ^ 32) s.stdout.mem _ c) _ s.textColor = _
  unfold storeByte
  rw [hchar, hcolor]

theorem textColor_drawn (s : Screen) (c : UInt8) : (s.drawn c).textColor = s.textColor := by
  unfold Screen.drawn
  split <;> rfl

theorem stores_drawn (h : s.cursor < 25 * 80) :
    Touches (2 ^ 32) visibleBytes s.stdout.mem (s.drawn c).stdout.mem := by
  intro x _ hx
  by_cases hc : c = 10
  · rw [Screen.drawn, if_pos hc]
  · have hne : ∀ i < 4000, x ≠ va vgaAddress + i := by
      intro i hi heq
      refine hx ⟨?_, ?_⟩
      · rw [heq]
        exact Nat.le_add_right _ _
      · rw [heq]
        exact Nat.add_lt_add_left hi _
    rw [mem_drawn hc h, Function.update_of_ne (hne _ (by omega)), Function.update_of_ne (hne _ (by omega))]

theorem cell_drawn (s : Screen) (c : UInt8) (h : s.cursor < 25 * 80) (p : ℕ) :
    (s.drawn c).cell p = Terminal.written s.cell s.cursor (keyOf s.textColor c) p := by
  unfold keyOf
  by_cases hc : c = 10
  · rw [if_pos hc, Screen.drawn, if_pos hc]
    rfl
  · rw [if_neg hc, Terminal.written, Function.update_apply]
    unfold Screen.cell
    rw [mem_drawn hc h]
    by_cases hp : p = s.cursor
    · rw [if_pos hp, hp, Function.update_of_ne (by omega), Function.update_self, Function.update_self]
    · rw [if_neg hp, Function.update_of_ne (by omega), Function.update_of_ne (by omega),
        Function.update_of_ne (by omega), Function.update_of_ne (by omega)]

theorem mem_scroll (s : Screen) :
    s.scroll.stdout.mem = memcopy (va vgaAddress + 160) (va vgaAddress) 4000 s.stdout.mem := by
  have hn : (getOffset (vgaRows - 1) vgaColumns).toNat = 4000 := by decide
  have hup : (getOffset 1 0).toNat = 160 := by decide
  simp only [Screen.scroll, Screen.withMem, kernelInitOk, hn, hup, Bool.false_eq_true, if_false]

theorem stores_scroll (s : Screen) :
    Touches (2 ^ 32) visibleBytes s.stdout.mem s.scroll.stdout.mem := by
  rw [mem_scroll]
  exact touches_memcopy (by rw [va_vgaAddress]; decide) fun x hx hx' => ⟨hx, hx'⟩

theorem cell_scroll (s : Screen) (hp : p < 25 * 80) : s.scroll.cell p = s.cell (p + 80) := by
  have hva := va_vgaAddress
  have hbyte : ∀ i < 2, s.scroll.stdout.mem (va vgaAddress + (2 * p + i)) =
      s.stdout.mem (va vgaAddress + (2 * (p + 80) + i)) := by
    intro i hi
    rw [mem_scroll, memcopy_apply (by omega) (by omega) (by omega), if_pos (by omega)]
    exact congrArg s.stdout.mem (by omega)
  exact congrArg₂ Cell.mk (hbyte 0 (by decide)) (hbyte 1 (by decide))

theorem printChar_shows {t : Terminal 25 80 Cell} (h : t.Shows s.cell s.cursor) (c : UInt8) :
    ∃ s', s.printChar c = .ok () s' ∧ s.Stays s' ∧
      (t.put s.rowBelow (keyOf s.textColor c)).Shows s'.cell s'.cursor := by
  have hlt : s.cursor < 25 * 80 := h.lt
  refine ⟨_, printChar_eq s c, ?_⟩
  by_cases hnext : Terminal.next 80 s.cursor (keyOf s.textColor c) < 25 * 80
  · rw [if_pos hnext]
    have hcursor := cursor_setCursorOffset (s.drawn c) hnext
    refine ⟨⟨stores_drawn hlt, textColor_drawn s c, offset_of_lt ?_⟩, ?_⟩
    · rw [hcursor]
      exact hnext
    · rw [hcursor]
      exact (h.put_of_lt hnext).congr fun p _ => cell_drawn s c hlt p
  · rw [if_neg hnext]
    have hcursor := cursor_setCursorOffset (s.drawn c).scroll (p := (25 - 1) * 80) (by decide)
    refine ⟨⟨(stores_drawn hlt).trans (stores_scroll _), textColor_drawn s c, offset_of_lt ?_⟩, ?_⟩
    · rw [hcursor]
      decide
    · rw [hcursor]
      refine (h.put_of_le (not_lt.mp hnext) fun _ => rfl).congr fun p hp => ?_
      exact (cell_scroll (s.drawn c) hp).trans (cell_drawn s c hlt (p + 80))

end Steps

section Texts
variable {s : Screen} {t : Terminal 25 80 Cell}

/-- A text on the screen is one on the terminal that gets its new rows from the row below. -/
theorem printChars_shows (h : t.Shows s.cell s.cursor) (text : List UInt8) :
    ∃ s', s.printChars text = .ok () s' ∧ s.Stays s' ∧
      (t.puts s.rowBelow (text.map (keyOf s.textColor))).Shows s'.cell s'.cursor := by
  induction text generalizing s t with
  | nil => exact ⟨s, rfl, ⟨Touches.refl _ _ _, rfl, offset_of_lt h.lt⟩, h⟩
  | cons c cs ih =>
    obtain ⟨s₁, hone, hstays, hshows⟩ := printChar_shows h c
    obtain ⟨s₂, hrest, hstays', hshows'⟩ := ih hshows
    refine ⟨s₂, ?_, hstays.trans hstays', ?_⟩
    · rw [Screen.printChars, hone, Outcome.bind_ok, hrest]
    · rw [hstays.rowBelow, hstays.textColor] at hshows'
      exact hshows'

theorem showsText_iff_puts (h : s.cursor < 25 * 80) (blank : Cell) (text : List UInt8) :
    s.ShowsText h blank text ↔ ∀ p, p <+: text.map (keyOf s.textColor) →
      (s.terminal h).puts (fun _ => blank) p = (s.terminal h).puts s.rowBelow p := by
  have hstart : (s.terminal h).Shows s.cell s.cursor := Terminal.shows_ofBuffer _ _
  constructor
  · intro hshows p hp
    obtain ⟨p, htext, rfl⟩ := List.prefix_map_iff.mp hp
    obtain ⟨s₁, hprint, _, hblank⟩ := hshows p htext
    obtain ⟨s₂, hprint', _, hbelow⟩ := printChars_shows hstart p
    rw [hprint] at hprint'
    cases hprint'
    exact hblank.unique hbelow
  · intro hsame p hp
    obtain ⟨s₁, hprint, hstays, hbelow⟩ := printChars_shows hstart p
    rw [← hsame _ (hp.map _)] at hbelow
    exact ⟨s₁, hprint, hstays, hbelow⟩

/-- The screen follows the terminal as long as nothing scrolls, and beyond that when the row below is blank. -/
theorem showsText_iff (h : s.cursor < 25 * 80) (blank : Cell) (text : List UInt8) :
    s.ShowsText h blank text ↔
      ((s.terminal h).Scrolls (fun _ => blank) (text.map (keyOf s.textColor)) →
        ∀ c, s.rowBelow c = blank) := by
  rw [showsText_iff_puts, Terminal.puts_eq_iff]
  refine imp_congr_right fun _ => ?_
  exact ⟨fun hrow c => congrFun hrow.symm c, fun hrow => funext fun c => (hrow c).symm⟩

end Texts

def bottomScreen (char : UInt8) : Screen where
  stdout :=
    { mem := fun a => if a = va vgaAddress + 4000 then char else 0
      locks := fun _ => false, buffer := 0, size := 0, pos := 0, last := 0, available := 0 }
  cursor := 24 * 80
  textColor := 7

theorem showsText_blank : (bottomScreen 0).ShowsText (by decide) ⟨0, 0⟩ [10] :=
  (showsText_iff (by decide) _ _).mpr fun _ _ => by
    unfold Screen.rowBelow Screen.cell bottomScreen
    simp only [ite_self]

/-- Whatever a blank cell is, the last row is not blank after a newline. -/
theorem not_showsText_leftover :
    ¬ ∃ blank, (bottomScreen 65).ShowsText (by decide) blank [10] := by
  rintro ⟨blank, hshows⟩
  have hsame := Terminal.puts_eq_iff _ |>.mp ((showsText_iff_puts _ _ _).mp hshows)
    ⟨[], none, List.prefix_refl _, rfl, .inl rfl⟩
  have hfirst : (⟨65, 0⟩ : Cell) = blank := (congrFun hsame 0).symm
  have hsecond : (⟨0, 0⟩ : Cell) = blank := (congrFun hsame 1).symm
  have hne : (⟨65, 0⟩ : Cell) ≠ ⟨0, 0⟩ := by decide
  exact hne (hfirst.trans hsecond.symm)

end X86Osdev.Drivers

import X86Osdev.Kernel.Syscalls
import X86Osdev.Lib.Tokens
import X86Osdev.Library.Directives

/-! What `kprintf` prints for any format, and what a program's string makes it print. -/

namespace X86Osdev.Drivers
open X86Osdev.Lib X86Osdev.Mem X86Osdev.Kernel ByteMemory Directives

/-- The characters that `kprintf` looks for. -/
def formatAlphabet : Alphabet UInt8 where
  marker := charByte '%'
  flag := charByte '0'
  digit c := charByte '0' ≤ c ∧ c ≤ charByte '9'
  flag_digit := by decide

def padOf (digit : Option UInt8) : ℕ := digit.elim 0 fun d => (d - charByte '0').toNat

/-- The text of some pieces, with their arguments on the stack from `arg` on. -/
def render (m : Memory) : List (Piece UInt8) → ℕ → Option (List UInt8)
  | [], _ => some []
  | .lit c :: ps, arg => (render m ps arg).map (c :: ·)
  | .dir flag digit conv :: ps, arg =>
    (directive m conv flag (padOf digit) (load32 m (u32 arg))).bind fun text => (render m ps (arg + 4)).map (text ++ ·)

/-- What comes after the last piece: nothing, or, where the format ends inside a directive, the character that an
argument is and then the memory at `next` as a format. -/
def runOn (m : Memory) (n : ℕ) (o : Option (Opened UInt8)) (next arg : ℕ) : Option (List UInt8) :=
  match o with
  | none => some []
  | some _ => (kprintfText m n next (arg + 4)).map (UInt8.ofNat (load32 m (u32 arg)) :: ·)

/-- The bytes from `a` on, over the end of memory if it comes to that. -/
def Reads (m : Memory) : ℕ → List UInt8 → Prop
  | _, [] => True
  | a, c :: cs => m (u32 a) = c ∧ Reads m (a + 1) cs

section Formats
variable {m : Memory} {a format arg n : ℕ} {c conv : UInt8} {cs rest s : List UInt8} {o : Opened UInt8}

theorem Reads.append_right {ds : List UInt8} (h : Reads m a (cs ++ ds)) : Reads m (a + cs.length) ds := by
  induction cs generalizing a with
  | nil => exact h
  | cons c cs ih =>
    have htail := ih h.2
    rwa [Nat.add_assoc, Nat.add_comm 1] at htail

theorem reads_of_holdsString (h : HoldsString m a s) : Reads m a (s ++ [0]) := by
  have hall : ∀ t r, s = t ++ r → Reads m (a + t.length) (r ++ [0]) := by
    intro t r
    induction r generalizing t with
    | nil =>
      rintro rfl
      have hstop := h.stop
      have hfits := h.fits
      rw [List.append_nil] at hstop hfits
      refine ⟨?_, trivial⟩
      rwa [u32_of_lt hfits]
    | cons c r ih =>
      intro hs
      have hfits := h.fits
      have hlen : t.length < s.length := by simp [hs]
      have hbyte := h.bytes t.length hlen
      have hrest := ih (t ++ [c]) (by rw [hs, List.append_assoc]; rfl)
      rw [List.length_append, List.length_singleton, ← Nat.add_assoc] at hrest
      refine ⟨?_, hrest⟩
      rw [u32_of_lt (by omega), hbyte]
      simp [hs]
  exact hall [] s rfl

theorem kprintfText_opened (h : Reads m format (formatAlphabet.marker :: cs))
    (ho : opened formatAlphabet cs = (o, conv :: rest)) :
    kprintfText m (n + 1) format arg =
      (directive m conv o.flag (padOf o.digit) (load32 m (u32 arg))).bind fun text =>
        (kprintfText m n (format + (o.text formatAlphabet).length + 1) (arg + 4)).map (text ++ ·) := by
  have htext := text_opened (A := formatAlphabet) cs
  have hplain := plain_opened (A := formatAlphabet) cs
  have hconv := conv_opened (A := formatAlphabet) (s := cs) conv rest (by rw [ho])
  rw [ho] at htext hplain hconv
  obtain ⟨hdigit, hflag⟩ := hplain
  obtain ⟨flag, digit⟩ := o
  dsimp only at *
  have hmarker : m (u32 format) = charByte '%' := h.1
  rw [← htext] at h
  have hne : charByte '%' ≠ 0 := by decide
  rw [kprintfText, hmarker]
  simp only [if_neg hne, ne_eq, not_true_eq_false, if_false]
  have hzero : formatAlphabet.digit (charByte '0') = true := formatAlphabet.flag_digit
  have hisDigit {d : UInt8} (hd : formatAlphabet.digit d = true) : charByte '0' ≤ d ∧ d ≤ charByte '9' :=
    of_decide_eq_true hd
  have hnoDigit {d : UInt8} (hd : formatAlphabet.digit d = false) : ¬ (charByte '0' ≤ d ∧ d ≤ charByte '9') :=
    of_decide_eq_false hd
  -- the flag is there or not, and then the digit is there or not
  cases flag with
  | false =>
    cases digit with
    | none =>
      obtain ⟨-, hfirst, -⟩ := h
      have hc : conv ≠ charByte '0' := by
        rintro rfl
        exact absurd hzero (by rw [hconv rfl]; decide)
      simp only [hfirst, hc, if_false, hnoDigit (hconv rfl), decide_false]
      rfl
    | some d =>
      obtain ⟨-, hfirst, hsecond, -⟩ := h
      have hd : d ≠ charByte '0' := fun hd => hflag rfl (congrArg some hd)
      simp only [hfirst, hd, if_false, hisDigit (hdigit d rfl), and_self, if_true, hsecond, decide_false]
      rfl
  | true =>
    cases digit with
    | none =>
      obtain ⟨-, hfirst, hsecond, -⟩ := h
      have hfirst : m (u32 (format + 1)) = charByte '0' := hfirst
      simp only [hfirst, if_true, hsecond, hnoDigit (hconv rfl), if_false, decide_true]
      rfl
    | some d =>
      obtain ⟨-, hfirst, hsecond, hthird, -⟩ := h
      have hfirst : m (u32 (format + 1)) = charByte '0' := hfirst
      simp only [hfirst, if_true, hsecond, hisDigit (hdigit d rfl), and_self, hthird, decide_true]
      rfl

theorem append_bind (x y z : Option (List UInt8)) :
    (x.bind fun t => (y.bind fun u => z.map (u ++ ·)).map (t ++ ·)) =
      (x.bind fun t => y.map (t ++ ·)).bind fun u => z.map (u ++ ·) := by
  cases x <;> cases y <;> cases z <;> simp

theorem cons_bind (c : UInt8) (y z : Option (List UInt8)) :
    (y.bind fun u => z.map (u ++ ·)).map (c :: ·) = (y.map (c :: ·)).bind fun u => z.map (u ++ ·) := by
  cases y <;> cases z <;> simp

/-- What `kprintf` prints is the text of the format's pieces, one word of the stack for each directive. -/
theorem kprintfText_parse (h : Reads m format (s ++ [0])) (h0 : 0 ∉ s) :
    kprintfText m ((parse formatAlphabet s).1.length + (n + 1)) format arg =
      (render m (parse formatAlphabet s).1 arg).bind fun text =>
        (runOn m n (parse formatAlphabet s).2 (format + s.length + 1)
          (arg + 4 * (parse formatAlphabet s).1.countP Piece.isDir)).map (text ++ ·) := by
  fun_induction parse formatAlphabet s generalizing format arg with
  | case1 =>
    have hstop : m (u32 format) = 0 := h.1
    rw [List.length_nil, Nat.zero_add, kprintfText, hstop]
    rfl
  | case2 s o ho =>
    have hopened := opened_append (A := formatAlphabet) (z := 0) (by decide) s
    rw [ho] at hopened
    have htext := congrArg List.length (text_opened (A := formatAlphabet) s)
    rw [ho, List.append_nil, List.length_cons] at htext
    rw [List.length_nil, Nat.zero_add, kprintfText_opened h hopened, htext]
    have hconv : directive m 0 o.flag (padOf o.digit) (load32 m (u32 arg)) =
        some [UInt8.ofNat (load32 m (u32 arg))] := by
      simp [directive, charByte]
    simp [hconv, render, runOn, Function.comp_def]
  | case3 s o conv rest ho hlt ih =>
    have hopened := opened_append (A := formatAlphabet) (z := 0) (by decide) s
    rw [ho, List.cons_append] at hopened
    have htext := text_opened (A := formatAlphabet) s
    rw [ho] at htext
    have hlen := congrArg List.length htext
    rw [List.length_append, List.length_cons, List.length_cons] at hlen
    dsimp only at hlen
    rw [List.cons_append] at h
    have hrest : Reads m (format + (o.text formatAlphabet).length + 1) (rest ++ [0]) := by
      have hsplit : s.cons formatAlphabet.marker ++ [0] = (o.text formatAlphabet ++ [conv]) ++ (rest ++ [0]) := by
        rw [← htext]
        simp
      have hcons : Reads m format (s.cons formatAlphabet.marker ++ [0]) := h
      rw [hsplit] at hcons
      have htail := hcons.append_right
      rwa [List.length_append, List.length_singleton, ← Nat.add_assoc] at htail
    have hrest0 : 0 ∉ rest := fun hin => h0 (by rw [← htext]; simp [hin])
    have hfuel : (parse formatAlphabet rest).1.length + 1 + (n + 1) =
        (parse formatAlphabet rest).1.length + (n + 1) + 1 := by omega
    have hnext : format + (s.length + 1) + 1 = format + (o.text formatAlphabet).length + 1 + rest.length + 1 := by omega
    have hcount : arg + 4 * ((parse formatAlphabet rest).1.countP Piece.isDir + 1) =
        arg + 4 + 4 * (parse formatAlphabet rest).1.countP Piece.isDir := by omega
    rw [List.length_cons, List.length_cons, hfuel, kprintfText_opened h hopened, ih hrest hrest0, hnext, render,
      List.countP_cons_of_pos rfl, hcount]
    exact append_bind _ _ _
  | case4 c s hc ih =>
    have hne : c ≠ 0 := fun hc => h0 (hc ▸ List.mem_cons_self ..)
    have hrest0 : 0 ∉ s := fun hin => h0 (List.mem_cons_of_mem _ hin)
    have hfuel : (parse formatAlphabet s).1.length + 1 + (n + 1) =
        (parse formatAlphabet s).1.length + (n + 1) + 1 := by omega
    have hnext : format + (s.length + 1) + 1 = format + 1 + s.length + 1 := by omega
    rw [List.cons_append] at h
    have hbyte : m (u32 format) = c := h.1
    have hlit : c ≠ charByte '%' := hc
    rw [List.length_cons, List.length_cons, hfuel, kprintfText, hbyte, hnext, render]
    simp only [if_neg hne, ne_eq, hlit, not_false_eq_true, if_true, ih h.2 hrest0]
    rw [List.countP_cons_of_neg Bool.false_ne_true]
    exact cons_bind _ _ _

end Formats

section Printing
variable {screen : Screen} {format arg : ℕ} {s : List UInt8}

theorem kprintf_eq (h : HoldsString screen.stdout.mem format s) : kprintf format arg screen =
    match (render screen.stdout.mem (parse formatAlphabet s).1 arg).bind fun text =>
      (runOn screen.stdout.mem (2 ^ 32 - 1 - (parse formatAlphabet s).1.length) (parse formatAlphabet s).2
        (format + s.length + 1) (arg + 4 * (parse formatAlphabet s).1.countP Piece.isDir)).map (text ++ ·) with
    | none => .hang screen
    | some text => screen.printChars text := by
  have hlen := length_parse (A := formatAlphabet) s
  have hfits := h.fits
  have hfuel : 2 ^ 32 =
      (parse formatAlphabet s).1.length + (2 ^ 32 - 1 - (parse formatAlphabet s).1.length + 1) := by omega
  have htext := @kprintfText_parse _ format arg (2 ^ 32 - 1 - (parse formatAlphabet s).1.length) s
    (reads_of_holdsString h) h.nonzero
  rw [← hfuel] at htext
  show (match kprintfText screen.stdout.mem (2 ^ 32) format arg with
    | none => Outcome.hang screen
    | some text => screen.printChars text) = _
  rw [htext]

/-- The whole of `kprintf`, for any format: its text goes to the screen, character by character. The pieces are those
of the format, which may end inside a last one. -/
theorem kprintf_prints (arg : ℕ) (h : HoldsString screen.stdout.mem format s) :
    (parse formatAlphabet s).1.flatMap (Piece.text formatAlphabet) ++
        (parse formatAlphabet s).2.elim [] (Opened.text formatAlphabet) = s ∧
      (∀ p ∈ (parse formatAlphabet s).1, p.Plain formatAlphabet) ∧
      kprintf format arg screen =
        match (render screen.stdout.mem (parse formatAlphabet s).1 arg).bind fun text =>
          (runOn screen.stdout.mem (2 ^ 32 - 1 - (parse formatAlphabet s).1.length) (parse formatAlphabet s).2
            (format + s.length + 1) (arg + 4 * (parse formatAlphabet s).1.countP Piece.isDir)).map (text ++ ·) with
        | none => .hang screen
        | some text => screen.printChars text :=
  ⟨text_parse s, plain_parse s, kprintf_eq h⟩

/-- Pieces that read back as themselves are printed as they are. -/
theorem kprintf_pieces {ps : List (Piece UInt8)}
    (h : HoldsString screen.stdout.mem format (ps.flatMap (Piece.text formatAlphabet)))
    (hps : ∀ p ∈ ps, p.Plain formatAlphabet) : kprintf format arg screen =
      match render screen.stdout.mem ps arg with
      | none => .hang screen
      | some text => screen.printChars text := by
  rw [kprintf_eq h, parse_texts hps]
  simp [runOn]

def sampleScreen (text : List UInt8) : Screen :=
  ⟨⟨storeList (2 ^ 32) (store32 (fun _ => 0) 0x2000 42) 0x1000 (text ++ [0]), fun _ => false, 0, 0, 0, 0, 0⟩, 0, 0x0F⟩

theorem sampleScreen_holds {text : List UInt8} (h0 : 0 ∉ text) (hlen : text.length < 0x1000) :
    HoldsString (sampleScreen text).stdout.mem 0x1000 text ∧ load32 (sampleScreen text).stdout.mem 0x2000 = 42 := by
  have hend : 0x1000 + (text ++ [0]).length ≤ 2 ^ 32 := by
    rw [List.length_append, List.length_singleton]
    omega
  have hget {j : ℕ} (hj : j < (text ++ [0]).length) : (sampleScreen text).stdout.mem (0x1000 + j) = (text ++ [0])[j] :=
    storeList_get hend hj
  refine ⟨⟨fun j hj => ?_, ?_, h0, by omega⟩, ?_⟩
  · rw [hget (by simp; omega), List.getElem_append_left hj]
  · rw [hget (by simp), List.getElem_concat_length rfl]
  · have hkept := (touches_storeList (m :=
        store32 (fun _ => 0) 0x2000 42) hend).load (show 0x2000 + 4 ≤ 2 ^ 32 by decide)
      fun x hx _ hin => by
        rw [List.length_append, List.length_singleton, Set.mem_Ico] at hin
        omega
    exact hkept.trans (load_store_self (by decide))

/-- `n=%3d` with 42. -/
theorem kprintf_number : kprintf 0x1000 0x2000 (sampleScreen ("n=%3d".toList.map charByte)) =
    (sampleScreen ("n=%3d".toList.map charByte)).printChars ("n= 42".toList.map charByte) := by
  have hlit {c : UInt8} (hc : c ≠ charByte '%') : (Piece.lit c).Plain formatAlphabet := hc
  have hnumber : (Piece.dir false (some (charByte '3')) (charByte 'd')).Plain formatAlphabet := by
    refine ⟨⟨fun d hd => ?_, fun _ hzero => ?_⟩, fun hnone => absurd hnone (Option.some_ne_none _)⟩
    · rw [← Option.some.inj hd]
      decide
    · exact absurd (Option.some.inj hzero) (by decide)
  have hplain : ∀ p ∈ [Piece.lit (charByte 'n'), .lit (charByte '='), .dir false (some (charByte '3')) (charByte 'd')],
      p.Plain formatAlphabet := by
    intro p hp
    simp only [List.mem_cons, List.not_mem_nil, or_false] at hp
    rcases hp with rfl | rfl | rfl
    · exact hlit (by decide)
    · exact hlit (by decide)
    · exact hnumber
  have hparse : parse formatAlphabet ("n=%3d".toList.map charByte) = (_, none) := parse_texts hplain
  obtain ⟨hholds, hword⟩ := sampleScreen_holds (show 0 ∉ "n=%3d".toList.map charByte by decide) (by decide)
  have harg : u32 0x2000 = 0x2000 := by decide
  obtain ⟨-, -, hprint⟩ := kprintf_prints 0x2000 hholds
  rw [hprint, hparse]
  simp only [render, harg, hword]
  rfl

end Printing

section Programs
variable {u : UserRun} {str : ℕ}

def hexDirective : Piece UInt8 := .dir false none (charByte 'x')

def hexWords (m : Memory) (arg k : ℕ) : List UInt8 :=
  (List.range k).flatMap fun i => itoa (charByte 'x') (load32 m (u32 (arg + 4 * i)))

theorem render_hex (m : Memory) (arg k : ℕ) :
    render m (List.replicate k hexDirective) arg = some (hexWords m arg k) := by
  induction k generalizing arg with
  | zero => rfl
  | succ k ih =>
    have hone : directive m (charByte 'x') false (padOf none) (load32 m (u32 arg)) =
        some (itoa (charByte 'x') (load32 m (u32 arg))) := by
      simp [directive, padded, padOf]
    have hshift (i : ℕ) : arg + 4 + 4 * i = arg + 4 * (i + 1) := by omega
    rw [List.replicate_succ, hexDirective, render, hone, Option.bind_some, ← hexDirective, ih, Option.map_some]
    unfold hexWords
    simp only [hshift]
    rw [List.range_succ_eq_map, List.flatMap_cons, List.flatMap_map, Nat.mul_zero, Nat.add_zero]

/-- `sys_printf` takes a program's string for a format: with as many `%x` as it likes, a program reads that many words of
the kernel's stack. -/
theorem sysPrintf_shows_stack (arg k : ℕ) (h : HoldsString u.screen.stdout.mem str
    ((List.replicate k hexDirective).flatMap (Piece.text formatAlphabet))) :
    u.sysPrintf str arg = (u.screen.printChars
        (hexWords u.screen.stdout.mem arg k)).lift fun screen => { u with screen } := by
  have hplain : ∀ p ∈ List.replicate k hexDirective, p.Plain formatAlphabet := by
    intro p hp
    rw [List.eq_of_mem_replicate hp]
    exact ⟨⟨fun d hd => absurd hd (Option.not_mem_none d), fun _ => (Option.some_ne_none _).symm⟩, fun _ => by decide⟩
  rw [UserRun.sysPrintf, kprintf_pieces h hplain, render_hex]

/-- A program prints `%x`. -/
theorem hex_shows_stack : (userStarted (sampleScreen ("%x".toList.map charByte)).stdout).sysPrintf 0x1000 0x2000 =
    ((userStarted (sampleScreen ("%x".toList.map charByte)).stdout).screen.printChars ("2a".toList.map charByte)).lift
      fun screen => { userStarted (sampleScreen ("%x".toList.map charByte)).stdout with screen } := by
  obtain ⟨hholds, hnumber⟩ := sampleScreen_holds (show 0 ∉ "%x".toList.map charByte by decide) (by decide)
  have hshown := sysPrintf_shows_stack (u :=
      userStarted (sampleScreen ("%x".toList.map charByte)).stdout) 0x2000 1 hholds
  have htext : hexWords (userStarted (sampleScreen ("%x".toList.map charByte)).stdout).screen.stdout.mem 0x2000 1 =
      "2a".toList.map charByte := by
    have hword : load32 (userStarted (sampleScreen ("%x".toList.map charByte)).stdout).screen.stdout.mem
        (u32 0x2000) = 42 :=
      hnumber
    rw [hexWords, List.range_one, List.flatMap_singleton, Nat.mul_zero, Nat.add_zero, hword]
    decide
  rwa [htext] at hshown

end Programs
end X86Osdev.Drivers

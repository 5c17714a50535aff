import X86Osdev.Drivers.Screen
import X86Osdev.Lib.Strings

/-! `itoa` of drivers/screen.c in memory, the texts that it writes, and those of lib/strings.c. -/

namespace X86Osdev.Drivers
open X86Osdev.Lib X86Osdev.Mem X86Osdev.Kernel ByteMemory Numerals

/-- The loop of `itoa` that divides, for `fuel` turns; `p` after it. -/
def itoaDigits (divisor : ℕ) : ℕ → ℕ → ℕ → Memory → Option (ℕ × Memory)
  | 0, _, _, _ => none
  | fuel + 1, ud, p, m =>
    let remainder := ud % divisor
    let digit := if remainder < 10 then remainder + 48 else remainder + 97 - 10
    let m := storeByte (2 ^ 32) m p (.ofNat digit)
    if ud / divisor ≠ 0 then itoaDigits divisor fuel (ud / divisor) (u32 (p + 1)) m
    else some (u32 (p + 1), m)

/-- `itoa`, whose last loop swaps from the pointers `p1` and `p2` on. -/
def itoaBuf (buf : ℕ) (base : UInt8) (d : BitVec 32) (m : Memory) : Option Memory :=
  let minus : Bool := base = charByte 'd' ∧ d.toInt < 0
  let m := if minus then storeByte (2 ^ 32) m buf (charByte '-') else m
  let buf := if minus then u32 (buf + 1) else buf
  let ud := if minus then (-d).toNat else d.toNat
  let divisor := if !minus && base = charByte 'x' then 16 else 10
  (itoaDigits divisor 32 ud buf m).bind fun r =>
    swapEnds 0 (2 ^ 32) buf (u32 (r.1 + (2 ^ 32 - 1))) (storeByte (2 ^ 32) r.2 r.1 0)

/-- `buf` of `kprintf`. -/
def kprintfBufSize : ℕ := 40

def kprintfColorBufSize : ℕ := 20

section Texts
variable {m : Memory} {buf divisor fuel ud p a b n : ℕ} {base c : UInt8} {d : BitVec 32} {text : List UInt8}

theorem charByte_digitChar (hn : n < 16) : charByte n.digitChar = digitByte n := by
  have hall : ∀ n < 16, charByte n.digitChar = digitByte n := by decide
  exact hall n hn

theorem map_toDigits (hb : 1 < b) (hb' : b ≤ 16) (n : ℕ) : (Nat.toDigits b n).map charByte = natText b n := by
  rw [toDigits_eq_map hb, List.map_map, natText]
  exact List.map_congr_left fun k hk => charByte_digitChar ((lt_of_mem_numeral hb hk).trans_le hb')

/-- The text that `kprintf` prints for a number. -/
theorem itoa_eq (base : UInt8) (d : BitVec 32) : itoa base d.toNat =
    if base = charByte 'd' ∧ d.toInt < 0 then 45 :: natText 10 d.toInt.natAbs
    else natText (if base = charByte 'x' then 16 else 10) d.toNat := by
  have hlt := d.isLt
  have hint := BitVec.toInt_eq_toNat_cond d
  unfold itoa
  rw [map_toDigits (by decide) (by decide), map_toDigits (by decide) (by decide),
    map_toDigits (by decide) (by decide)]
  by_cases hminus : base = charByte 'd' ∧ d.toInt < 0
  · have habs : d.toInt.natAbs = 2 ^ 32 - d.toNat := by omega
    have hge : d.toNat ≥ 2 ^ 31 := by omega
    rw [if_pos hminus, if_pos ⟨hminus.1, hge⟩, habs]
    rfl
  · have hge : ¬ (base = charByte 'd' ∧ d.toNat ≥ 2 ^ 31) := fun h => hminus ⟨h.1, by omega⟩
    rw [if_neg hminus, if_neg hge]
    split <;> rfl

theorem itoa_d (d : BitVec 32) : itoa (charByte 'd') d.toNat = intText 10 d.toInt := by
  have hx : ¬ charByte 'd' = charByte 'x' := by decide
  rw [itoa_eq, intText, if_neg hx]
  by_cases hneg : d.toInt < 0
  · rw [if_pos ⟨rfl, hneg⟩, if_pos hneg]
  · have habs : d.toInt.natAbs = d.toNat := by
      have hint := BitVec.toInt_eq_toNat_cond d
      omega
    rw [if_neg fun h => hneg h.2, if_neg hneg, habs]

theorem itoa_u (d : BitVec 32) : itoa (charByte 'u') d.toNat = natText 10 d.toNat := by
  have hd : ¬ (charByte 'u' = charByte 'd' ∧ d.toInt < 0) := fun h => absurd h.1 (by decide)
  have hx : ¬ charByte 'u' = charByte 'x' := by decide
  rw [itoa_eq, if_neg hd, if_neg hx]

theorem itoa_x (d : BitVec 32) : itoa (charByte 'x') d.toNat = natText 16 d.toNat := by
  have hd : ¬ (charByte 'x' = charByte 'd' ∧ d.toInt < 0) := fun h => absurd h.1 (by decide)
  rw [itoa_eq, if_neg hd, if_pos rfl]

theorem itoaDigits_eq (hd : 2 ≤ divisor) (hd' : divisor ≤ 16) (h0 : 0 < fuel) (hud : ud < 2 ^ fuel)
    (hfits : p + (natText divisor ud).length < 2 ^ 32) (m : Memory) :
    itoaDigits divisor fuel ud p m = some (p + (natText divisor ud).length,
      storeList (2 ^ 32) m p (natText divisor ud).reverse) := by
  induction fuel generalizing ud p m with
  | zero => exact absurd h0 (Nat.lt_irrefl 0)
  | succ fuel ih =>
    have hbyte : UInt8.ofNat (if ud % divisor < 10 then ud % divisor + 48 else ud % divisor + 97 - 10) =
        digitByte (ud % divisor) := rfl
    simp only [itoaDigits, hbyte]
    by_cases hlt : ud < divisor
    · have hstop : ¬ ud / divisor ≠ 0 := by simp [Nat.div_eq_of_lt hlt]
      rw [natText_of_lt hlt] at hfits ⊢
      rw [if_neg hstop, Nat.mod_eq_of_lt hlt, u32_of_lt (show p + 1 < 2 ^ 32 from hfits)]
      rfl
    · have hle := not_lt.mp hlt
      have hmore : ud / divisor ≠ 0 := (Nat.div_pos hle (by omega)).ne'
      have hhalf : ud / divisor ≤ ud / 2 := Nat.div_le_div_left hd (by decide)
      have hfuel : 0 < fuel := by
        rcases Nat.eq_zero_or_pos fuel with rfl | hpos
        · omega
        · exact hpos
      rw [natText_of_le (by omega) hle, List.length_append, List.length_singleton] at hfits
      rw [pow_succ] at hud
      rw [if_pos hmore, u32_of_lt (by omega), ih hfuel (by omega) (by omega), natText_of_le (by omega) hle,
        List.reverse_append, List.length_append, List.length_singleton]
      refine congrArg some (Prod.ext ?_ (storeList_append [digitByte (ud % divisor)] _).symm)
      show p + 1 + (natText divisor (ud / divisor)).length = p + ((natText divisor (ud / divisor)).length + 1)
      omega

theorem itoa_digits (hd : 2 ≤ divisor) (hd' : divisor ≤ 16) (hud : ud < 2 ^ 32)
    (hfits : a + (natText divisor ud).length < 2 ^ 32) (m : Memory) :
    ∃ m', ((itoaDigits divisor 32 ud a m).bind fun r =>
        swapEnds 0 (2 ^ 32) a (u32 (r.1 + (2 ^ 32 - 1))) (storeByte (2 ^ 32) r.2 r.1 0)) = some m' ∧
      HoldsString m' a (natText divisor ud) ∧
      Touches (2 ^ 32) (Set.Ico a (a + (natText divisor ud).length + 1)) m m' := by
  have hlen : (natText divisor ud).reverse.length = (natText divisor ud).length := List.length_reverse
  have hpos := List.length_pos_of_ne_nil (natText_ne_nil divisor ud)
  have hstored := @holdsString_storeList a (natText divisor ud).reverse m (by omega)
    fun h0 => (natText_bytes (by omega) hd' (List.mem_reverse.mp h0)).1 rfl
  obtain ⟨m', hrun, hholds, htouch⟩ := hstored.swapEnds (Nat.zero_add a)
    (show 0 + (a + (natText divisor ud).length - 1) = a + ((natText divisor ud).reverse.length - 1) by omega)
    (show 0 < 2 ^ 32 by decide) (by omega)
  refine ⟨m', ?_, by rwa [List.reverse_reverse] at hholds, ?_⟩
  · have hlast : u32 (a + (natText divisor ud).length + (2 ^ 32 - 1)) =
        a + (natText divisor ud).length - 1 := by
      unfold u32
      omega
    rw [itoaDigits_eq hd hd' (by decide) hud hfits, Option.bind_some, hlast, ← hrun, storeList_append, hlen]
    rfl
  · rw [hlen] at htouch
    refine Touches.trans ?_ htouch
    have hstores := @touches_storeList (2 ^ 32) m a ((natText divisor ud).reverse ++ [0])
      (by rw [List.length_append, hlen]; exact hfits)
    rwa [List.length_append, hlen] at hstores

/-- `itoa` writes `text` and its NUL, at most 12 bytes, and nothing else. -/
def Writes (buf : ℕ) (base : UInt8) (d : BitVec 32) (m : Memory) (text : List UInt8) : Prop :=
  ∃ m', itoaBuf buf base d m = some m' ∧ HoldsString m' buf text ∧ text.length + 1 ≤ 12 ∧
    Touches (2 ^ 32) (Set.Ico buf (buf + text.length + 1)) m m'

theorem itoaBuf_writes (base : UInt8) (d : BitVec 32) (hfits : buf + 12 ≤ 2 ^ 32) (m : Memory) :
    Writes buf base d m (itoa base d.toNat) := by
  have hlt := d.isLt
  have hint := BitVec.toInt_eq_toNat_cond d
  have hlength : ∀ b n, 10 ≤ b → n < 2 ^ 32 → (natText b n).length ≤ 10 := by
    intro b n hb hn
    refine (length_natText_le_iff (by omega) (by decide)).mpr ?_
    exact hn.trans_le ((Nat.pow_le_pow_left hb 10).trans' (by decide))
  rw [itoa_eq]
  unfold Writes itoaBuf
  by_cases hminus : base = charByte 'd' ∧ d.toInt < 0
  · have hneg : (-d).toNat = d.toInt.natAbs := by
      rw [BitVec.toNat_neg]
      omega
    have hlen := hlength 10 d.toInt.natAbs le_rfl (by omega)
    obtain ⟨m', hrun, hholds, htouch⟩ := @itoa_digits 10 d.toInt.natAbs (buf + 1) (by decide) (by decide)
      (by omega) (by omega) (storeByte (2 ^ 32) m buf (charByte '-'))
    rw [if_pos hminus, List.length_cons]
    simp only [hminus, and_self, decide_true, if_true, Bool.not_true, Bool.false_and, Bool.false_eq_true,
      if_false, hneg, u32_of_lt (show buf + 1 < 2 ^ 32 by omega)]
    refine ⟨m', hrun, hholds.cons ?_ (by decide), by omega, ?_⟩
    · rw [htouch buf (by omega) fun hx => absurd hx.1 (by omega), storeByte, Nat.mod_eq_of_lt (by omega),
        Function.update_self]
      rfl
    · have hsign : Touches (2 ^ 32) (Set.Ico buf (buf + ((natText 10 d.toInt.natAbs).length + 1) + 1)) m
          (storeByte (2 ^ 32) m buf (charByte '-')) := touches_storeByte (by omega) ⟨le_rfl, by omega⟩
      refine hsign.trans (htouch.mono ?_)
      exact Set.Ico_subset_Ico (by omega) (by omega)
  · have hbase : 10 ≤ (if base = charByte 'x' then 16 else 10) ∧
        (if base = charByte 'x' then 16 else 10) ≤ 16 := by
      split <;> decide
    have hlen := hlength _ d.toNat hbase.1 hlt
    obtain ⟨m', hrun, hholds, htouch⟩ := @itoa_digits _ d.toNat buf (hbase.1.trans' (by decide)) hbase.2
      hlt (by omega) m
    rw [if_neg hminus]
    simp only [hminus, decide_false, Bool.false_eq_true, if_false, Bool.not_false, Bool.true_and,
      decide_eq_true_eq]
    exact ⟨m', hrun, hholds, by omega, htouch⟩

/-- `itoa` writes the canonical texts of signed and of unsigned numbers, for which the buffers have room. -/
theorem itoa_canonical (d : BitVec 32) (hfits : buf + 12 ≤ 2 ^ 32) (m : Memory) :
    (∃ text, Writes buf (charByte 'd') d m text ∧ CanonicalInt 10 d.toInt text ∧
      parseInt 10 text = some d.toInt) ∧
    (∃ text, Writes buf (charByte 'u') d m text ∧ Canonical 10 d.toNat text) ∧
    (∃ text, Writes buf (charByte 'x') d m text ∧ Canonical 16 d.toNat text) ∧
    12 ≤ kprintfBufSize ∧ 12 ≤ kprintfColorBufSize := by
  refine ⟨⟨intText 10 d.toInt, ?_, ?_, ?_⟩, ⟨natText 10 d.toNat, ?_, ?_⟩, ⟨natText 16 d.toNat, ?_, ?_⟩,
    by decide, by decide⟩
  · rw [← itoa_d]
    exact itoaBuf_writes _ d hfits m
  · exact canonicalInt_intText (by decide) (by decide) _
  · exact parseInt_intText (by decide) (by decide) _
  · rw [← itoa_u]
    exact itoaBuf_writes _ d hfits m
  · exact canonical_natText (by decide) (by decide) _
  · rw [← itoa_x]
    exact itoaBuf_writes _ d hfits m
  · exact canonical_natText (by decide) (by decide) _

theorem itoa_canonical_ff : (∃ text, Writes 0x1000 (charByte 'd') 0xFFFFFFFF (fun _ => 0) text ∧
      CanonicalInt 10 (-1) text ∧ parseInt 10 text = some (-1)) ∧
    (∃ text, Writes 0x1000 (charByte 'u') 0xFFFFFFFF (fun _ => 0) text ∧ Canonical 10 4294967295 text) ∧
    (∃ text, Writes 0x1000 (charByte 'x') 0xFFFFFFFF (fun _ => 0) text ∧ Canonical 16 4294967295 text) ∧
    12 ≤ kprintfBufSize ∧ 12 ≤ kprintfColorBufSize :=
  itoa_canonical 0xFFFFFFFF (by decide) _

end Texts

/-! ## The formatters of lib/strings.c -/

section Formatters
variable {m m' : Memory} {buf s : ℕ} {d : BitVec 32} {r : Option Memory} {a : ℕ} {text text' : List UInt8}

def Produces (r : Option Memory) (a : ℕ) (text : List UInt8) : Prop :=
  ∃ m, r = some m ∧ HoldsString m a text

theorem Produces.unique (h : Produces r a text) (h' : Produces r a text') : text = text' := by
  obtain ⟨m, hrun, hholds⟩ := h
  obtain ⟨m', hrun', hholds'⟩ := h'
  rw [hrun] at hrun'
  cases hrun'
  exact hholds.unique hholds'

theorem itoaBuf_produces (base : UInt8) (d : BitVec 32) (hbuf : buf + 12 ≤ 2 ^ 32) (m : Memory) :
    Produces (itoaBuf buf base d m) buf (itoa base d.toNat) := by
  obtain ⟨m', hrun, hholds, _⟩ := itoaBuf_writes base d hbuf m
  exact ⟨m', hrun, hholds⟩

theorem asciiText_eq_iff (d : BitVec 32) : asciiText d = intText 10 d.toInt ↔ d ≠ BitVec.intMin 32 := by
  unfold asciiText
  by_cases hmin : d = BitVec.intMin 32
  · rw [if_pos hmin, hmin]
    refine iff_of_false (fun hsame => ?_) (fun hne => hne rfl)
    have hneg : (BitVec.intMin 32).toInt < 0 := by decide
    have hone : (natText 10 (BitVec.intMin 32).toInt.natAbs).length ≤ 1 := by
      rw [intText, if_pos hneg] at hsame
      rw [← List.tail_eq_of_cons_eq hsame]
      exact le_rfl
    exact absurd ((length_natText_le_iff (by decide) (by decide)).mp hone) (by decide)
  · rw [if_neg hmin]
    exact iff_of_true rfl hmin

theorem intToAscii_agrees_iff (d : BitVec 32) (hs : s + 12 ≤ 2 ^ 32) (hbuf : buf + 12 ≤ 2 ^ 32) (m m' : Memory) :
    (∃ text, Produces (intToAscii d s m) s text ∧ Produces (itoaBuf buf (charByte 'd') d m') buf text) ↔
      d ≠ BitVec.intMin 32 := by
  have hascii : Produces (intToAscii d s m) s (asciiText d) := intToAscii_holds d hs m
  have hitoa := itoaBuf_produces (charByte 'd') d hbuf m'
  rw [itoa_d] at hitoa
  rw [← asciiText_eq_iff]
  constructor
  · rintro ⟨text, htext, htext'⟩
    rw [hascii.unique htext, hitoa.unique htext']
  · intro hsame
    exact ⟨_, hascii, hsame ▸ hitoa⟩

theorem hexToAscii_agrees_iff (d : BitVec 32) (hs : s + 12 ≤ 2 ^ 32) (hbuf : buf + 12 ≤ 2 ^ 32)
    (hempty : HoldsString m s []) (m' : Memory) :
    (∃ text, Produces (hexToAscii d s m) s ([charByte '0', charByte 'x'] ++ text) ∧
      Produces (itoaBuf buf (charByte 'x') d m') buf text) ↔ ∀ k, 1 ≤ k → d.toNat / 16 ^ k % 16 ≠ 10 := by
  have hascii : Produces (hexToAscii d s m) s (hexText d.toNat) := hexToAscii_holds d hs hempty
  have hitoa := itoaBuf_produces (charByte 'x') d hbuf m'
  rw [itoa_x] at hitoa
  have hdigits : (∀ k, 1 ≤ k → d.toNat / 16 ^ k % 16 ≠ 10) ↔ 10 ∉ numeral 16 (d.toNat / 16) := by
    rw [mem_numeral_iff (by decide) (by decide), not_exists]
    constructor
    · intro h k
      rw [Nat.div_div_eq_div_mul, ← pow_succ']
      exact h (k + 1) (Nat.le_add_left 1 k)
    · intro h k hk
      obtain ⟨j, rfl⟩ := Nat.exists_eq_add_of_le' hk
      rw [pow_succ', ← Nat.div_div_eq_div_mul]
      exact h j
  rw [hdigits, ← hexText_eq_iff]
  constructor
  · rintro ⟨text, htext, htext'⟩
    rw [hascii.unique htext, hitoa.unique htext']
    rfl
  · intro hsame
    exact ⟨_, hsame ▸ hascii, hitoa⟩

/-- The formatters agree but for the most negative number, and for numbers with a digit `a` before the last. -/
theorem formatters_agree_iff (d : BitVec 32) (hs : s + 12 ≤ 2 ^ 32) (hbuf : buf + 12 ≤ 2 ^ 32)
    (hempty : HoldsString m s []) (m' : Memory) :
    ((∃ text, Produces (intToAscii d s m) s text ∧ Produces (itoaBuf buf (charByte 'd') d m') buf text) ↔
      d ≠ BitVec.intMin 32) ∧
    ((∃ text, Produces (hexToAscii d s m) s ([charByte '0', charByte 'x'] ++ text) ∧
      Produces (itoaBuf buf (charByte 'x') d m') buf text) ↔ ∀ k, 1 ≤ k → d.toNat / 16 ^ k % 16 ≠ 10) :=
  ⟨intToAscii_agrees_iff d hs hbuf m m', hexToAscii_agrees_iff d hs hbuf hempty m'⟩

end Formatters

theorem holdsString_zeros : HoldsString (fun _ => 0) 0x1000 [] :=
  ⟨fun _ hj => absurd hj (Nat.not_lt_zero _), rfl, List.not_mem_nil, by decide⟩

theorem formatters_agree_ten :
    ((∃ text, Produces (intToAscii 10 0x1000 fun _ => 0) 0x1000 text ∧
      Produces (itoaBuf 0x2000 (charByte 'd') 10 fun _ => 0) 0x2000 text) ↔ 10 ≠ BitVec.intMin 32) ∧
    ((∃ text, Produces (hexToAscii 10 0x1000 fun _ => 0) 0x1000 ([charByte '0', charByte 'x'] ++ text) ∧
      Produces (itoaBuf 0x2000 (charByte 'x') 10 fun _ => 0) 0x2000 text) ↔
        ∀ k, 1 ≤ k → 10 / 16 ^ k % 16 ≠ 10) :=
  formatters_agree_iff 10 (by decide) (by decide) holdsString_zeros _

/-- The most negative number, and 0xA0. -/
theorem formatters_disagree :
    (¬ ∃ text, Produces (intToAscii (BitVec.intMin 32) 0x1000 fun _ => 0) 0x1000 text ∧
      Produces (itoaBuf 0x2000 (charByte 'd') (BitVec.intMin 32) fun _ => 0) 0x2000 text) ∧
    ¬ ∃ text, Produces (hexToAscii 0xA0 0x1000 fun _ => 0) 0x1000 ([charByte '0', charByte 'x'] ++ text) ∧
      Produces (itoaBuf 0x2000 (charByte 'x') 0xA0 fun _ => 0) 0x2000 text := by
  constructor
  · rw [intToAscii_agrees_iff _ (by decide) (by decide)]
    exact fun hne => hne rfl
  · rw [hexToAscii_agrees_iff _ (by decide) (by decide) holdsString_zeros]
    exact fun h => h 1 le_rfl (by decide)

end X86Osdev.Drivers

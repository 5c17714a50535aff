import X86Osdev.Kernel.Files
import X86Osdev.Lib.Tokens
import X86Osdev.Library.Numerals

/-! The number formatters of lib/strings.c, and `reverse` and `append`, which they build their texts with. -/

namespace X86Osdev.Lib
open X86Osdev.Mem X86Osdev.Kernel ByteMemory Numerals

/-- The loop of `reverse` from the indices `i` and `j` on, for `fuel` turns. -/
def swapEnds (s : ℕ) : ℕ → ℕ → ℕ → Memory → Option Memory
  | 0, _, _, _ => none
  | fuel + 1, i, j, m =>
    if i < j then
      let c := m (u32 (s + i))
      let m := storeByte (2 ^ 32) m (s + i) (m (u32 (s + j)))
      swapEnds s fuel (i + 1) (j - 1) (storeByte (2 ^ 32) m (s + j) c)
    else some m

/-- The `j` of an empty string is 0 here and -1 in the source; the loop does not run. -/
def reverse (s : ℕ) (m : Memory) : Option Memory :=
  (strlen m s).bind fun len => swapEnds s (2 ^ 32) 0 (len - 1) m

/-- The loop of `intToAscii`, for `fuel` turns; `i` after it. -/
def intDigits (str : ℕ) : ℕ → ℤ → ℕ → Memory → Option (ℕ × Memory)
  | 0, _, _, _ => none
  | fuel + 1, n, i, m =>
    let m := storeByte (2 ^ 32) m (str + i) (.ofInt (n.tmod 10 + 48))
    let n := n.tdiv 10
    if n > 0 then intDigits str fuel n (i + 1) m else some (i + 1, m)

/-- The most negative number is its own negation. -/
def intToAscii (n : BitVec 32) (str : ℕ) (m : Memory) : Option Memory :=
  let sign := n.toInt
  let n := if sign < 0 then -n else n
  (intDigits str 32 n.toInt 0 m).bind fun r =>
    let m := if sign < 0 then storeByte (2 ^ 32) r.2 (str + r.1) 45 else r.2
    let i := if sign < 0 then r.1 + 1 else r.1
    reverse str (storeByte (2 ^ 32) m (str + i) 0)

/-- The digit in the loop of `hex_to_ascii`: `a` is for 10 and more, but the test is for more than 10. -/
def upperDigit (tmp : ℕ) : UInt8 := if tmp > 0xA then .ofNat (tmp - 0xA + 97) else .ofNat (tmp + 48)

def lastDigit (tmp : ℕ) : UInt8 := if tmp ≥ 0xA then .ofNat (tmp - 0xA + 97) else .ofNat (tmp + 48)

/-- The loop of `hex_to_ascii`, where `i` is `4 * k`. -/
def hexDigits (n : BitVec 32) (str : ℕ) : ℕ → Bool → Memory → Option Memory
  | 0, _, m => some m
  | k + 1, zeros, m =>
    let tmp := (n.sshiftRight (4 * (k + 1)) &&& 0xF).toNat
    if tmp = 0 ∧ zeros = false then hexDigits n str k zeros m
    else (append str (upperDigit tmp) m).bind fun m => hexDigits n str k true m

def hexToAscii (n : BitVec 32) (str : ℕ) (m : Memory) : Option Memory :=
  (append str 48 m).bind fun m =>
  (append str 120 m).bind fun m =>
  (hexDigits n str 7 false m).bind fun m => append str (lastDigit (n &&& 0xF).toNat) m

section Strings
variable {m m' : Memory} {a s i j fuel : ℕ} {text text' : List UInt8} {c : UInt8}

theorem HoldsString.unique (h : HoldsString m a text) (h' : HoldsString m a text') : text = text' := by
  have hle : ∀ {t t' : List UInt8}, HoldsString m a t → HoldsString m a t' → t'.length ≤ t.length := by
    intro t t' ht ht'
    by_contra hlt
    have hbyte := ht'.bytes t.length (by omega)
    rw [ht.stop] at hbyte
    exact ht'.nonzero (hbyte ▸ List.getElem_mem _)
  refine List.ext_getElem (le_antisymm (hle h' h) (hle h h')) fun j hj hj' => ?_
  rw [← h.bytes j hj, h'.bytes j hj']

theorem HoldsString.stringBytes (h : HoldsString m a text) : StringBytes m a text :=
  ⟨h.bytes, fun _ hb h0 => h.nonzero (h0 ▸ hb)⟩

theorem HoldsString.strlen (h : HoldsString m a text) : strlen m a = some text.length :=
  h.stringBytes.strlen h.stop h.fits

theorem holdsString_storeList (m : Memory) (hfits : a + text.length < 2 ^ 32) (h0 : 0 ∉ text) :
    HoldsString (storeList (2 ^ 32) m a (text ++ [0])) a text := by
  have hlen : (text ++ [0]).length = text.length + 1 := List.length_append
  have hget : ∀ j (hj : j < (text ++ [0]).length),
      storeList (2 ^ 32) m a (text ++ [0]) (a + j) = (text ++ [0])[j] :=
    fun j hj => storeList_get (by omega) hj
  refine ⟨fun j hj => ?_, ?_, h0, hfits⟩
  · rw [hget j (by omega), List.getElem_append_left hj]
  · rw [hget text.length (by omega), List.getElem_concat_length rfl]

theorem HoldsString.cons (h : HoldsString m (a + 1) text) (hc : m a = c) (hc0 : c ≠ 0) :
    HoldsString m a (c :: text) := by
  have hfits := h.fits
  refine ⟨fun j hj => ?_, ?_, ?_, ?_⟩
  · cases j with
    | zero => exact hc
    | succ j =>
      have hbyte := h.bytes j (Nat.lt_of_succ_lt_succ hj)
      rwa [Nat.add_assoc, Nat.add_comm 1 j] at hbyte
  · have hstop := h.stop
    rwa [Nat.add_assoc, Nat.add_comm 1] at hstop
  · rw [List.mem_cons]
    rintro (h0 | h0)
    · exact hc0 h0.symm
    · exact h.nonzero h0
  · rw [List.length_cons]
    omega

theorem HoldsString.append (h : HoldsString m a text) (hc : c ≠ 0) (hfits : a + text.length + 1 < 2 ^ 32) :
    ∃ m', append a c m = some m' ∧ HoldsString m' a (text ++ [c]) := by
  have hlen : a + (text ++ [c]).length < 2 ^ 32 := by
    rw [List.length_append]
    exact hfits
  obtain ⟨m', happend, hbytes, hstop⟩ := h.stringBytes.append h.stop (.inr hfits) h.fits hc
  exact ⟨m', happend, hbytes.mem, hstop hlen, fun h0 => hbytes.nonzero 0 h0 rfl, hlen⟩

theorem swapEnds_apply (hfits : s + j < 2 ^ 32) (h0 : 0 < fuel) (hfuel : j < fuel + i) :
    ∃ m', swapEnds s fuel i j m = some m' ∧
      ∀ x, m' x = if s + i ≤ x ∧ x ≤ s + j then m (s + i + (s + j) - x) else m x := by
  induction fuel generalizing m i j with
  | zero => exact absurd h0 (Nat.lt_irrefl 0)
  | succ fuel ih =>
    by_cases hij : i < j
    · obtain ⟨m', hrun, hm'⟩ := @ih (Function.update (Function.update m (s + i) (m (s + j))) (s + j) (m (s + i)))
        (i + 1) (j - 1) (by omega) (by omega) (by omega)
      refine ⟨m', ?_, fun x => ?_⟩
      · rw [swapEnds, if_pos hij]
        simp only [storeByte, u32]
        rw [Nat.mod_eq_of_lt (show s + i < 2 ^ 32 by omega), Nat.mod_eq_of_lt hfits]
        exact hrun
      · rw [hm' x]
        -- the two ends, the places between them, and the others
        rcases eq_or_ne x (s + i) with rfl | hi
        · rw [if_neg (by omega), if_pos (by omega), Function.update_of_ne (by omega), Function.update_self,
            Nat.add_sub_cancel_left]
        rcases eq_or_ne x (s + j) with rfl | hj
        · rw [if_neg (by omega), if_pos (by omega), Function.update_self, Nat.add_sub_cancel]
        by_cases hx : s + i ≤ x ∧ x ≤ s + j
        · have hsame : s + (i + 1) + (s + (j - 1)) - x = s + i + (s + j) - x := by omega
          rw [if_pos (by omega), if_pos hx, hsame, Function.update_of_ne (by omega),
            Function.update_of_ne (by omega)]
        · rw [if_neg (by omega), if_neg hx, Function.update_of_ne hj, Function.update_of_ne hi]
    · refine ⟨m, ?_, fun x => ?_⟩
      · rw [swapEnds, if_neg hij]
      · split
        · exact congrArg m (by omega)
        · rfl

theorem HoldsString.swapEnds (h : HoldsString m a text) (hi : s + i = a) (hj : s + j = a + (text.length - 1))
    (h0 : 0 < fuel) (hfuel : j < fuel + i) :
    ∃ m', swapEnds s fuel i j m = some m' ∧ HoldsString m' a text.reverse ∧
      Touches (2 ^ 32) (Set.Ico a (a + text.length + 1)) m m' := by
  have hfits := h.fits
  have hlen : text.reverse.length = text.length := List.length_reverse
  obtain ⟨m', hrun, hm'⟩ := @swapEnds_apply m s i j fuel (by omega) h0 hfuel
  refine ⟨m', hrun, ⟨fun k hk => ?_, ?_, ?_, by omega⟩, fun x _ hx => ?_⟩
  · rw [hm', if_pos (by omega), List.getElem_reverse, ← h.bytes]
    exact congrArg m (by omega)
  · rw [hm', hlen]
    have hstop := h.stop
    split
    · rename_i hrange
      have hzero : text.length = 0 := by omega
      rw [← hstop]
      exact congrArg m (by omega)
    · exact hstop
  · rw [List.mem_reverse]
    exact h.nonzero
  · rw [hm']
    split
    · exact congrArg m (by simp only [Set.mem_Ico] at hx; omega)
    · rfl

theorem HoldsString.reverse (h : HoldsString m a text) :
    ∃ m', reverse a m = some m' ∧ HoldsString m' a text.reverse := by
  have hfits := h.fits
  obtain ⟨m', hrun, hholds, _⟩ := @HoldsString.swapEnds m a a 0 (text.length - 1) (2 ^ 32) text h rfl
    rfl (by decide) (by omega)
  refine ⟨m', ?_, hholds⟩
  rw [Lib.reverse, h.strlen]
  exact hrun

end Strings

section IntToAscii
variable {m : Memory} {str fuel i n : ℕ} {d : BitVec 32}

theorem storedDigit (n : ℕ) : UInt8.ofInt ((n : ℤ).tmod 10 + 48) = digitByte (n % 10) := by
  have hlt := Nat.mod_lt n (show 10 > 0 by decide)
  have hmod : ((n : ℤ).tmod 10 + 48) % 2 ^ 8 = (n % 10 + 48 : ℕ) := by
    rw [Int.tmod_eq_emod_of_nonneg (by omega)]
    omega
  rw [digitByte, if_pos hlt, UInt8.ofInt, hmod, Int.toNat_natCast]

theorem intDigits_eq (h0 : 0 < fuel) (hn : n < 2 ^ fuel) (i : ℕ) (m : Memory) :
    intDigits str fuel (n : ℤ) i m =
      some (i + (natText 10 n).length, storeList (2 ^ 32) m (str + i) (natText 10 n).reverse) := by
  induction fuel generalizing n i m with
  | zero => exact absurd h0 (Nat.lt_irrefl 0)
  | succ fuel ih =>
    have hdiv : (n : ℤ).tdiv 10 = (n / 10 : ℕ) := by
      rw [Int.tdiv_eq_ediv_of_nonneg (by omega)]
      omega
    rw [pow_succ] at hn
    simp only [intDigits, storedDigit, hdiv]
    by_cases hlt : n < 10
    · have hstop : ¬ ((n / 10 : ℕ) : ℤ) > 0 := by omega
      rw [if_neg hstop, natText_of_lt hlt, Nat.mod_eq_of_lt hlt]
      rfl
    · have hmore : ((n / 10 : ℕ) : ℤ) > 0 := by omega
      have hfuel : 0 < fuel := by
        rcases Nat.eq_zero_or_pos fuel with rfl | hpos
        · omega
        · exact hpos
      rw [if_pos hmore, natText_of_le (by decide) (by omega), List.reverse_append, List.length_append,
        ih hfuel (by omega), Nat.add_comm _ [digitByte (n % 10)].length, ← Nat.add_assoc str i 1]
      exact congrArg some (Prod.ext (Nat.add_assoc i 1 _) (storeList_append [digitByte (n % 10)] _).symm)

def asciiText (d : BitVec 32) : List UInt8 := if d = BitVec.intMin 32 then [45, 40] else intText 10 d.toInt

theorem reverse_holds {text : List UInt8} (m : Memory) (hfits : str + text.length < 2 ^ 32) (h0 : 0 ∉ text) :
    ∃ m', reverse str (storeList (2 ^ 32) m str (text ++ [0])) = some m' ∧ HoldsString m' str text.reverse :=
  (holdsString_storeList m hfits h0).reverse

theorem intToAscii_holds (d : BitVec 32) (hfits : str + 12 ≤ 2 ^ 32) (m : Memory) :
    ∃ m', intToAscii d str m = some m' ∧ HoldsString m' str (asciiText d) := by
  unfold asciiText
  by_cases hmin : d = BitVec.intMin 32
  · -- one turn of the loop, with a negative remainder
    have hdigits : intDigits str 32 (-d).toInt 0 m = some (1, storeByte (2 ^ 32) m (str + 0) 40) := by
      rw [hmin, BitVec.neg_intMin]
      rfl
    have hneg : d.toInt < 0 := by
      rw [hmin]
      decide
    obtain ⟨m', hrun, hholds⟩ := @reverse_holds str [40, 45] m (by simp; omega) (by decide)
    rw [if_pos hmin]
    refine ⟨m', ?_, hholds⟩
    unfold intToAscii
    dsimp only
    rw [if_pos hneg, hdigits, Option.bind_some]
    simp only [if_pos hneg]
    exact hrun
  · rw [if_neg hmin]
    have hlow := BitVec.le_toInt d
    have hhigh := BitVec.toInt_lt (x := d)
    have habs : (if d.toInt < 0 then -d else d).toInt = (d.toInt.natAbs : ℤ) := by
      split
      · rw [BitVec.toInt_neg_of_ne_intMin hmin]
        omega
      · omega
    have hdigits := @intDigits_eq str 32 d.toInt.natAbs (by decide) (by omega) 0 m
    rw [Nat.zero_add, Nat.add_zero] at hdigits
    have hlen : (natText 10 d.toInt.natAbs).length ≤ 10 :=
      (length_natText_le_iff (by decide) (by decide)).mpr (by omega)
    have hbytes : ∀ c ∈ natText 10 d.toInt.natAbs, c ≠ 0 :=
      fun c hc => (natText_bytes (by decide) (by decide) hc).1
    unfold intToAscii intText
    dsimp only
    rw [habs, hdigits, Option.bind_some]
    by_cases hneg : d.toInt < 0
    · obtain ⟨m', hrun, hholds⟩ := @reverse_holds str ((natText 10 d.toInt.natAbs).reverse ++ [45]) m
        (by simp; omega) (by simpa using fun h0 => hbytes 0 h0 rfl)
      rw [List.reverse_append, List.reverse_reverse] at hholds
      simp only [if_pos hneg]
      refine ⟨m', ?_, hholds⟩
      rw [← hrun, List.append_assoc, storeList_append, List.length_reverse]
      rfl
    · obtain ⟨m', hrun, hholds⟩ := @reverse_holds str (natText 10 d.toInt.natAbs).reverse m
        (by simp; omega) (by simpa using fun h0 => hbytes 0 h0 rfl)
      rw [List.reverse_reverse] at hholds
      simp only [if_neg hneg]
      refine ⟨m', ?_, hholds⟩
      rw [← hrun, storeList_append, List.length_reverse]
      rfl

end IntToAscii

section HexToAscii
variable {m : Memory} {str k q n : ℕ} {d : BitVec 32} {text : List UInt8} {zeros : Bool}

/-- What the loop of `hex_to_ascii` writes for the digits of `q`. -/
def hexPrefix (q : ℕ) : List UInt8 := if q = 0 then [] else (numeral 16 q).map upperDigit

def hexText (n : ℕ) : List UInt8 := [48, 120] ++ (hexPrefix (n / 16) ++ [digitByte (n % 16)])

theorem shifted_digit (d : BitVec 32) (hk : k ≤ 7) :
    (d.sshiftRight (4 * k) &&& 0xF).toNat = d.toNat / 16 ^ k % 16 := by
  have hd := d.isLt
  have hmod : ∀ x : ℕ, x &&& 15 = x % 16 := fun x => Nat.and_two_pow_sub_one_eq_mod x 4
  have hpow : 2 ^ (4 * k) = 16 ^ k := pow_mul 2 4 k
  rw [BitVec.toNat_and, BitVec.toNat_sshiftRight]
  show (if d.msb = true then _ else _) &&& 15 = _
  rw [hmod, Nat.shiftRight_eq_div_pow, Nat.shiftRight_eq_div_pow, hpow]
  split
  · interval_cases k <;> omega
  · rfl

theorem upperDigit_ne_zero (hq : q < 16) : upperDigit q ≠ 0 := by
  have hall : ∀ q < 16, upperDigit q ≠ 0 := by decide
  exact hall q hq

theorem lastDigit_eq (hq : q < 16) : lastDigit q = digitByte q := by
  have hall : ∀ q < 16, lastDigit q = digitByte q := by decide
  exact hall q hq

theorem upperDigit_eq_iff (hq : q < 16) : upperDigit q = digitByte q ↔ q ≠ 10 := by
  have hall : ∀ q < 16, upperDigit q = digitByte q ↔ q ≠ 10 := by decide
  exact hall q hq

theorem hexPrefix_eq (hq : q ≠ 0) : hexPrefix q = hexPrefix (q / 16) ++ [upperDigit (q % 16)] := by
  unfold hexPrefix
  rw [if_neg hq]
  by_cases hlt : q < 16
  · rw [if_pos (Nat.div_eq_of_lt hlt), numeral_of_lt hlt, Nat.mod_eq_of_lt hlt]
    rfl
  · have hdiv : q / 16 ≠ 0 := (Nat.div_pos (not_lt.mp hlt) (by decide)).ne'
    rw [if_neg hdiv, numeral_of_le (by decide) (not_lt.mp hlt), List.map_append, List.map_singleton]

theorem length_hexPrefix (hq : q < 16 ^ 7) : (hexPrefix q).length ≤ 7 := by
  unfold hexPrefix
  split
  · exact Nat.zero_le 7
  · rw [List.length_map]
    exact (length_numeral_le_iff (by decide) (by decide)).mpr hq

theorem hexDigits_holds (hk : k ≤ 7) (hfits : str + text.length + 8 < 2 ^ 32)
    (h : HoldsString m str (text ++ hexPrefix (d.toNat / 16 ^ (k + 1))))
    (hzeros : zeros = true ↔ d.toNat / 16 ^ (k + 1) ≠ 0) :
    ∃ m', hexDigits d str k zeros m = some m' ∧ HoldsString m' str (text ++ hexPrefix (d.toNat / 16)) := by
  induction k generalizing m zeros with
  | zero => exact ⟨m, rfl, by rwa [Nat.zero_add, pow_one] at h⟩
  | succ k ih =>
    have hd := d.isLt
    have htmp := shifted_digit d hk
    have hnext : d.toNat / 16 ^ (k + 1 + 1) = d.toNat / 16 ^ (k + 1) / 16 := by
      rw [Nat.div_div_eq_div_mul, ← pow_succ]
    rw [hnext] at h hzeros
    rw [hexDigits, htmp]
    by_cases hskip : d.toNat / 16 ^ (k + 1) % 16 = 0 ∧ zeros = false
    · have hdiv : d.toNat / 16 ^ (k + 1) / 16 = 0 := by
        by_contra hne
        exact absurd hskip.2 (by rw [hzeros.mpr hne]; decide)
      have hq : d.toNat / 16 ^ (k + 1) = 0 := by omega
      rw [if_pos hskip]
      refine ih (by omega) ?_ ?_
      · rwa [hdiv, ← hq] at h
      · rw [hskip.2, hq]
        decide
    · have hq : d.toNat / 16 ^ (k + 1) ≠ 0 := by
        intro hq
        rw [hq] at hskip hzeros
        exact hskip ⟨rfl, by simpa using hzeros⟩
      have hsmall : d.toNat / 16 ^ (k + 1) / 16 < 16 ^ 7 := by
        have hle : d.toNat / 16 ^ (k + 1) ≤ d.toNat / 16 :=
          Nat.div_le_div_left (Nat.le_self_pow (Nat.succ_ne_zero k) 16) (by decide)
        omega
      have hlen := length_hexPrefix hsmall
      obtain ⟨m', happend, hholds⟩ := h.append (upperDigit_ne_zero (Nat.mod_lt _ (by decide)))
        (c := upperDigit (d.toNat / 16 ^ (k + 1) % 16)) (by rw [List.length_append]; omega)
      rw [if_neg hskip, happend, Option.bind_some]
      refine ih (by omega) ?_ (by simpa using hq)
      rwa [List.append_assoc, ← hexPrefix_eq hq] at hholds

theorem hexToAscii_holds (d : BitVec 32) (hfits : str + 12 ≤ 2 ^ 32) (h : HoldsString m str []) :
    ∃ m', hexToAscii d str m = some m' ∧ HoldsString m' str (hexText d.toNat) := by
  have hd := d.isLt
  have htop : d.toNat / 16 ^ (7 + 1) = 0 := Nat.div_eq_of_lt hd
  have hlast : (d &&& 0xF).toNat = d.toNat % 16 := Nat.and_two_pow_sub_one_eq_mod d.toNat 4
  have hmod := Nat.mod_lt d.toNat (show 16 > 0 by decide)
  have hlen := length_hexPrefix (show d.toNat / 16 < 16 ^ 7 by omega)
  obtain ⟨m₁, hzero, h₁⟩ := h.append (c := 48) (by decide) (by rw [List.length_nil]; omega)
  obtain ⟨m₂, hx, h₂⟩ := h₁.append (c := 120) (by decide) (by simp; omega)
  obtain ⟨m₃, hdigits, h₃⟩ := @hexDigits_holds m₂ str 7 d [48, 120] false le_rfl (by simp; omega)
    (by rw [htop]; exact h₂) (by rw [htop]; decide)
  obtain ⟨m₄, hend, h₄⟩ := h₃.append (c := lastDigit (d.toNat % 16))
    (by rw [lastDigit_eq hmod]; exact (digitByte_ne hmod).1) (by simp; omega)
  refine ⟨m₄, ?_, ?_⟩
  · rw [hexToAscii, hzero, Option.bind_some, hx, Option.bind_some, hdigits, Option.bind_some, hlast, hend]
  · rwa [List.append_assoc, lastDigit_eq hmod] at h₄

theorem hexText_eq_iff (n : ℕ) :
    hexText n = [48, 120] ++ natText 16 n ↔ 10 ∉ numeral 16 (n / 16) := by
  unfold hexText hexPrefix
  rw [List.append_right_inj]
  by_cases hn : n < 16
  · rw [natText_of_lt hn, Nat.div_eq_of_lt hn, Nat.mod_eq_of_lt hn, numeral_of_lt (by decide)]
    simp
  · have hdiv : n / 16 ≠ 0 := (Nat.div_pos (not_lt.mp hn) (by decide)).ne'
    rw [if_neg hdiv, natText_of_le (by decide) (not_lt.mp hn), List.append_left_inj, natText,
      List.map_inj_left]
    constructor
    · intro hsame h10
      exact (upperDigit_eq_iff (by decide)).mp (hsame 10 h10) rfl
    · intro h10 q hq
      refine (upperDigit_eq_iff (lt_of_mem_numeral (by decide) hq)).mpr ?_
      rintro rfl
      exact h10 hq

end HexToAscii

end X86Osdev.Lib

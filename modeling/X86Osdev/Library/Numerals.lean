import Mathlib.Data.Nat.Digits.Lemmas

/-! Numerals in any base, first digit first, and their texts in bytes. -/

namespace Numerals
variable {b n d k : ℕ}

/-- The digits of `n`; zero has one. -/
def numeral (b n : ℕ) : List ℕ := if n = 0 then [0] else (Nat.digits b n).reverse

theorem numeral_of_lt (h : n < b) : numeral b n = [n] := by
  unfold numeral
  by_cases hn : n = 0
  · rw [if_pos hn, hn]
  · rw [if_neg hn, Nat.digits_of_lt b n hn h, List.reverse_singleton]

/-- The last digit is the remainder, and the quotient has the others. -/
theorem numeral_of_le (hb : 1 < b) (h : b ≤ n) : numeral b n = numeral b (n / b) ++ [n % b] := by
  have hn : n ≠ 0 := by omega
  have hq : n / b ≠ 0 := (Nat.div_pos h (by omega)).ne'
  unfold numeral
  rw [if_neg hn, if_neg hq, Nat.digits_def' hb (Nat.pos_of_ne_zero hn), List.reverse_cons]

theorem numeral_induction (hb : 1 < b) {P : ℕ → Prop} (base : ∀ n < b, P n)
    (step : ∀ n, b ≤ n → P (n / b) → P n) (n : ℕ) : P n := by
  induction n using Nat.strongRecOn with
  | ind n ih =>
    by_cases h : n < b
    · exact base n h
    · exact step n (not_lt.mp h) (ih _ (Nat.div_lt_self (by omega) hb))

theorem numeral_ne_nil (b n : ℕ) : numeral b n ≠ [] := by
  unfold numeral
  split
  · exact List.cons_ne_nil _ _
  · simpa [Nat.digits_ne_nil_iff_ne_zero]

theorem lt_of_mem_numeral (hb : 1 < b) (h : d ∈ numeral b n) : d < b := by
  unfold numeral at h
  split at h
  · rw [List.mem_singleton.mp h]
    omega
  · exact Nat.digits_lt_base hb (List.mem_reverse.mp h)

theorem numeral_head (hb : 1 < b) (h : (numeral b n).head? = some 0) : n = 0 := by
  induction n using numeral_induction hb with
  | base n hn =>
    rw [numeral_of_lt hn] at h
    exact Option.some.inj h
  | step n hn ih =>
    rw [numeral_of_le hb hn, List.head?_append_of_ne_nil _ (numeral_ne_nil _ _)] at h
    exact absurd (ih h) (Nat.div_pos hn (by omega)).ne'

theorem mem_numeral_iff (hb : 1 < b) (hd : d ≠ 0) : d ∈ numeral b n ↔ ∃ k, n / b ^ k % b = d := by
  induction n using numeral_induction hb with
  | base n hn =>
    rw [numeral_of_lt hn, List.mem_singleton]
    constructor
    · rintro rfl
      exact ⟨0, by rw [pow_zero, Nat.div_one, Nat.mod_eq_of_lt hn]⟩
    · rintro ⟨k, hk⟩
      cases k with
      | zero => rwa [pow_zero, Nat.div_one, Nat.mod_eq_of_lt hn, eq_comm] at hk
      | succ k =>
        rw [pow_succ', ← Nat.div_div_eq_div_mul, Nat.div_eq_of_lt hn, Nat.zero_div, Nat.zero_mod] at hk
        exact absurd hk.symm hd
  | step n hn ih =>
    rw [numeral_of_le hb hn, List.mem_append, List.mem_singleton, ih]
    constructor
    · rintro (⟨k, hk⟩ | rfl)
      · exact ⟨k + 1, by rw [pow_succ', ← Nat.div_div_eq_div_mul, hk]⟩
      · exact ⟨0, by rw [pow_zero, Nat.div_one]⟩
    · rintro ⟨k, hk⟩
      cases k with
      | zero => exact .inr (by rw [← hk, pow_zero, Nat.div_one])
      | succ k => exact .inl ⟨k, by rw [Nat.div_div_eq_div_mul, ← pow_succ', hk]⟩

theorem toDigits_eq_map (hb : 1 < b) (n : ℕ) : Nat.toDigits b n = (numeral b n).map Nat.digitChar := by
  induction n using numeral_induction hb with
  | base n hn => rw [Nat.toDigits_of_lt_base hn, numeral_of_lt hn, List.map_singleton]
  | step n hn ih =>
    rw [Nat.toDigits_of_base_le hb hn, ih, numeral_of_le hb hn, List.map_append, List.map_singleton]

theorem length_numeral_le_iff (hb : 1 < b) (hk : 0 < k) : (numeral b n).length ≤ k ↔ n < b ^ k := by
  rw [← Nat.length_toDigits_le_iff hb hk, toDigits_eq_map hb, List.length_map]

/-- `0` to `9` and `a` on. -/
def digitByte (d : ℕ) : UInt8 := .ofNat (if d < 10 then d + 48 else d + 87)

def natText (b n : ℕ) : List UInt8 := (numeral b n).map digitByte

def intText (b : ℕ) (z : ℤ) : List UInt8 :=
  if z < 0 then 45 :: natText b z.natAbs else natText b z.natAbs

def digitValue (c : UInt8) : Option ℕ :=
  if 48 ≤ c.toNat ∧ c.toNat ≤ 57 then some (c.toNat - 48)
  else if 97 ≤ c.toNat ∧ c.toNat ≤ 102 then some (c.toNat - 87) else none

/-- The number that the digits of `text` add to `acc`. -/
def parseFrom (b : ℕ) : ℕ → List UInt8 → Option ℕ
  | acc, [] => some acc
  | acc, c :: cs => (digitValue c).bind fun d => if d < b then parseFrom b (b * acc + d) cs else none

def parseNat (b : ℕ) (text : List UInt8) : Option ℕ := if text = [] then none else parseFrom b 0 text

def parseInt (b : ℕ) : List UInt8 → Option ℤ
  | 45 :: text => (parseNat b text).map fun n : ℕ => -(n : ℤ)
  | text => (parseNat b text).map fun n : ℕ => (n : ℤ)

theorem natText_of_lt (h : n < b) : natText b n = [digitByte n] := by
  rw [natText, numeral_of_lt h, List.map_singleton]

theorem natText_of_le (hb : 1 < b) (h : b ≤ n) :
    natText b n = natText b (n / b) ++ [digitByte (n % b)] := by
  rw [natText, numeral_of_le hb h, List.map_append, List.map_singleton, natText]

theorem natText_ne_nil (b n : ℕ) : natText b n ≠ [] := by
  simpa [natText] using numeral_ne_nil b n

theorem length_natText_le_iff (hb : 1 < b) (hk : 0 < k) : (natText b n).length ≤ k ↔ n < b ^ k := by
  rw [natText, List.length_map, length_numeral_le_iff hb hk]

theorem digitValue_digitByte (h : d < 16) : digitValue (digitByte d) = some d := by
  have hall : ∀ d < 16, digitValue (digitByte d) = some d := by decide
  exact hall d h

theorem digitByte_ne (h : d < 16) : digitByte d ≠ 0 ∧ digitByte d ≠ 45 := by
  have hall : ∀ d < 16, digitByte d ≠ 0 ∧ digitByte d ≠ 45 := by decide
  exact hall d h

theorem digitByte_inj {d' : ℕ} (h : d < 16) (h' : d' < 16) (heq : digitByte d = digitByte d') : d = d' := by
  have hvalue := congrArg digitValue heq
  rw [digitValue_digitByte h, digitValue_digitByte h'] at hvalue
  exact Option.some.inj hvalue

theorem parseFrom_append (b acc : ℕ) (s t : List UInt8) :
    parseFrom b acc (s ++ t) = (parseFrom b acc s).bind (parseFrom b · t) := by
  induction s generalizing acc with
  | nil => rfl
  | cons c cs ih =>
    rw [List.cons_append, parseFrom, parseFrom]
    cases digitValue c with
    | none => rfl
    | some d =>
      simp only [Option.bind_some]
      split
      · exact ih _
      · rfl

theorem parseFrom_digitByte (hb : b ≤ 16) (hd : d < b) (acc : ℕ) :
    parseFrom b acc [digitByte d] = some (b * acc + d) := by
  rw [parseFrom, digitValue_digitByte (hd.trans_le hb), Option.bind_some, if_pos hd, parseFrom]

theorem parseFrom_natText (hb : 1 < b) (hb' : b ≤ 16) (n : ℕ) :
    parseFrom b 0 (natText b n) = some n := by
  induction n using numeral_induction hb with
  | base n hn =>
    rw [natText_of_lt hn, parseFrom_digitByte hb' hn, Nat.mul_zero, Nat.zero_add]
  | step n hn ih =>
    rw [natText_of_le hb hn, parseFrom_append, ih, Option.bind_some,
      parseFrom_digitByte hb' (Nat.mod_lt n (by omega)), Nat.div_add_mod]

theorem parseNat_natText (hb : 1 < b) (hb' : b ≤ 16) (n : ℕ) : parseNat b (natText b n) = some n := by
  rw [parseNat, if_neg (natText_ne_nil b n), parseFrom_natText hb hb']

theorem natText_bytes (hb : 1 < b) (hb' : b ≤ 16) {c : UInt8} (h : c ∈ natText b n) : c ≠ 0 ∧ c ≠ 45 := by
  obtain ⟨d, hd, rfl⟩ := List.mem_map.mp h
  exact digitByte_ne ((lt_of_mem_numeral hb hd).trans_le hb')

theorem natText_head (hb : 1 < b) (hb' : b ≤ 16) (h : (natText b n).head? = some 48) : n = 0 := by
  refine numeral_head hb ?_
  rw [natText, List.head?_map, Option.map_eq_some_iff] at h
  obtain ⟨d, hd, hbyte⟩ := h
  have hlt : d < 16 := (lt_of_mem_numeral hb (List.mem_of_mem_head? hd)).trans_le hb'
  rw [hd, digitByte_inj hlt (by decide) (hbyte.trans (show 48 = digitByte 0 by decide))]

/-- `text` stands for `n` and has no leading zeros; zero is a single digit. -/
def Canonical (b n : ℕ) (text : List UInt8) : Prop :=
  parseNat b text = some n ∧ (text.head? = some 48 → text = [48])

/-- A minus stands before the text of a negative number. -/
def CanonicalInt (b : ℕ) (z : ℤ) (text : List UInt8) : Prop :=
  if z < 0 then ∃ digits, text = 45 :: digits ∧ Canonical b z.natAbs digits else Canonical b z.natAbs text

theorem canonical_natText (hb : 1 < b) (hb' : b ≤ 16) (n : ℕ) : Canonical b n (natText b n) := by
  refine ⟨parseNat_natText hb hb' n, fun hhead => ?_⟩
  rw [natText_head hb hb' hhead, natText_of_lt (by omega)]
  decide

theorem canonicalInt_intText (hb : 1 < b) (hb' : b ≤ 16) (z : ℤ) : CanonicalInt b z (intText b z) := by
  unfold CanonicalInt intText
  split
  · exact ⟨_, rfl, canonical_natText hb hb' _⟩
  · exact canonical_natText hb hb' _

theorem parseInt_natText (hb : 1 < b) (hb' : b ≤ 16) (n : ℕ) : parseInt b (natText b n) = some (n : ℤ) := by
  have hparse := parseNat_natText hb hb' n
  unfold parseInt
  split
  · rename_i text heq
    have hminus := natText_bytes hb hb' (n := n) (c := 45) (by rw [heq]; exact List.mem_cons_self)
    exact absurd rfl hminus.2
  · rw [hparse]
    rfl

theorem parseInt_intText (hb : 1 < b) (hb' : b ≤ 16) (z : ℤ) : parseInt b (intText b z) = some z := by
  unfold intText
  by_cases hz : z < 0
  · rw [if_pos hz]
    show (parseNat b (natText b z.natAbs)).map (fun n : ℕ => -(n : ℤ)) = some z
    rw [parseNat_natText hb hb', Option.map_some]
    exact congrArg some (by omega)
  · rw [if_neg hz, parseInt_natText hb hb']
    exact congrArg some (by omega)

end Numerals

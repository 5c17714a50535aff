import X86Osdev.Library.SplitRuns
import X86Osdev.Library.TracedReads
import X86Osdev.Mem.Vma

/-! `strtokn` of lib/strings.c: what it returns and what it reads for that. -/

namespace X86Osdev.Lib
open X86Osdev.Mem ByteMemory TracedReads SplitRuns

/-- One `char` of a string. -/
def readChar (a : ℕ) : Traced UInt8 := fun m => some (m (u32 a), [(u32 a, 1)])

/-- `while (input[i] == delim) ++i`, for `fuel` turns. -/
def skipRun (input : ℕ) (delim : UInt8) : ℕ → ℕ → Traced ℕ
  | 0, _ => never
  | fuel + 1, i => do
    let c ← readChar (input + i)
    if c = delim then skipRun input delim fuel (u32 (i + 1)) else pure i

/-- The outer loop, for `fuel` turns, and the test behind it; where the token starts and ends. -/
def findToken (input : ℕ) (delim : UInt8) (tokNum : ℕ) :
    ℕ → ℕ → ℕ → ℕ → Bool → Traced (Option (ℕ × ℕ))
  | 0, _, _, _, _ => never
  | fuel + 1, i, count, lastTknStart, found => do
    let c ← readChar (input + i)
    if c = 0 then
      pure (if found = true ∧ tokNum = count then some (lastTknStart, i) else none)
    else
      let c ← readChar (input + i)
      if c = delim then
        if tokNum = count then pure (some (lastTknStart, i))
        else
          let i ← skipRun input delim (2 ^ 32) i
          findToken input delim tokNum fuel (u32 (i + 1)) (u32 (count + 1)) i true
      else findToken input delim tokNum fuel (u32 (i + 1)) count lastTknStart found

/-- The token is copied and ended; the result is its length. -/
def copyToken (input outToken lastTknStart i : ℕ) : Traced (ℕ × Memory) := fun m =>
  let len := i - lastTknStart
  let m := memcopy (input + lastTknStart) outToken len m
  some ((len, storeByte (2 ^ 32) m (outToken + len) 0), [(input + lastTknStart, len)])

def noToken (outToken : ℕ) : Traced (ℕ × Memory) := fun m =>
  some ((0, storeByte (2 ^ 32) m outToken 0), [])

def strtokn (input outToken : ℕ) (delim : UInt8) (tokNum : ℕ) : Traced (ℕ × Memory) :=
  if input = 0 then noToken outToken
  else do
    let token ← findToken input delim tokNum (2 ^ 32) 0 0 0 false
    match token with
    | some (lastTknStart, i) => copyToken input outToken lastTknStart i
    | none => noToken outToken

/-- The string at `a`, which ends before the end of memory. -/
structure HoldsString (m : Memory) (a : ℕ) (s : List UInt8) : Prop where
  bytes : ∀ j (h : j < s.length), m (a + j) = s[j]
  stop : m (a + s.length) = 0
  nonzero : 0 ∉ s
  fits : a + s.length < 2 ^ 32

def stringRange (a : ℕ) (s : List UInt8) : Set ℕ := Set.Ico a (a + s.length + 1)

section Search
variable {m : Memory} {a : ℕ} {s pre tok rest : List UInt8} {d : UInt8} {fuel count tokNum k : ℕ}
  {found : Bool} {r : Option (ℕ × ℕ)}

theorem HoldsString.gives_readChar (h : HoldsString m a s) (hs : s = pre ++ rest) :
    Gives m (stringRange a s) (readChar (a + pre.length)) (rest.headD 0) := by
  have hfits := h.fits
  have hlen : s.length = pre.length + rest.length := by rw [hs, List.length_append]
  have haddr : u32 (a + pre.length) = a + pre.length := u32_of_lt (by omega)
  have hbyte : m (a + pre.length) = rest.headD 0 := by
    cases rest with
    | nil =>
      rw [List.append_nil] at hs
      rw [← hs]
      exact h.stop
    | cons x rest =>
      rw [List.length_cons] at hlen
      rw [h.bytes pre.length (by omega)]
      simp [hs]
  refine ⟨[(a + pre.length, 1)], ?_, fun p hp => ?_⟩
  · unfold readChar
    rw [haddr, hbyte]
  · rw [List.mem_singleton.mp hp]
    intro x hx
    have hx' : a + pre.length ≤ x ∧ x < a + pre.length + 1 := hx
    exact ⟨by omega, by omega⟩

theorem HoldsString.gives_skipRun (h : HoldsString m a s) (hd : d ≠ 0) (hs : s = pre ++ rest)
    (hf : rest.length < fuel) : Gives m (stringRange a s) (skipRun a d fuel pre.length)
      (pre.length + (rest.takeWhile (· = d)).length) := by
  induction fuel generalizing pre rest with
  | zero => omega
  | succ fuel ih =>
    rw [skipRun]
    refine (h.gives_readChar hs).bind ?_
    cases rest with
    | nil =>
      rw [List.headD_nil, if_neg (Ne.symm hd)]
      exact gives_pure
    | cons x rest =>
      rw [List.headD_cons]
      by_cases hx : x = d
      · subst hx
        have hfits := h.fits
        have hlen : s.length = pre.length + (rest.length + 1) := by
          rw [hs, List.length_append, List.length_cons]
        have hnext := ih (show s = (pre ++ [x]) ++ rest by simpa using hs) (by simpa using hf)
        rw [List.length_append, List.length_singleton] at hnext
        have hi : u32 (pre.length + 1) = pre.length + 1 := u32_of_lt (by omega)
        rw [if_pos rfl, hi, List.takeWhile_cons_of_pos (by simp), List.length_cons]
        convert hnext using 1
        omega
      · rw [if_neg hx, List.takeWhile_cons_of_neg (by simpa using hx), List.length_nil, Nat.add_zero]
        exact gives_pure

theorem HoldsString.findToken_nil (h : HoldsString m a s) (hs : s = pre) {last : ℕ} :
    Gives m (stringRange a s) (findToken a d tokNum (fuel + 1) pre.length count last found) r ↔
      r = if found = true ∧ tokNum = count then some (last, pre.length) else none := by
  have hread := h.gives_readChar (show s = pre ++ [] by simpa using hs)
  rw [findToken, hread.bind_iff, List.headD_nil, if_pos rfl, gives_pure_iff]

theorem HoldsString.findToken_other (h : HoldsString m a s) {x : UInt8} (hx : x ≠ d)
    (hs : s = pre ++ x :: rest) {last : ℕ} :
    Gives m (stringRange a s) (findToken a d tokNum (fuel + 1) pre.length count last found) r ↔
      Gives m (stringRange a s) (findToken a d tokNum fuel (pre.length + 1) count last found) r := by
  have hread := h.gives_readChar hs
  have hx0 : x ≠ 0 := by
    rintro rfl
    exact h.nonzero (by simp [hs])
  have hfits := h.fits
  have hlen : s.length = pre.length + (rest.length + 1) := by rw [hs, List.length_append, List.length_cons]
  have hi : u32 (pre.length + 1) = pre.length + 1 := u32_of_lt (by omega)
  rw [findToken, hread.bind_iff, List.headD_cons, if_neg hx0, hread.bind_iff, List.headD_cons,
    if_neg hx, hi]

theorem HoldsString.findToken_run (h : HoldsString m a s) (ha : a ≠ 0) (hd : d ≠ 0)
    (hs : s = pre ++ d :: rest) {last : ℕ} :
    Gives m (stringRange a s) (findToken a d tokNum (fuel + 1) pre.length count last found) r ↔
      if tokNum = count then r = some (last, pre.length)
      else Gives m (stringRange a s) (findToken a d tokNum fuel
        (pre.length + 1 + (rest.takeWhile (· = d)).length + 1) (u32 (count + 1))
        (pre.length + 1 + (rest.takeWhile (· = d)).length) true) r := by
  have hread := h.gives_readChar hs
  have hfits := h.fits
  have hlen : s.length = pre.length + (rest.length + 1) := by rw [hs, List.length_append, List.length_cons]
  have hfuel : (d :: rest).length < 2 ^ 32 := by
    rw [List.length_cons]
    omega
  have hskip := h.gives_skipRun hd hs hfuel
  rw [List.takeWhile_cons_of_pos (by simp), List.length_cons, Nat.add_comm _ 1, ← Nat.add_assoc] at hskip
  have htake := (List.takeWhile_sublist (l := rest) (· = d)).length_le
  have hi : u32 (pre.length + 1 + (rest.takeWhile (· = d)).length + 1) =
      pre.length + 1 + (rest.takeWhile (· = d)).length + 1 := u32_of_lt (by omega)
  rw [findToken, hread.bind_iff, List.headD_cons, if_neg hd, hread.bind_iff, List.headD_cons, if_pos rfl]
  by_cases hk : tokNum = count
  · rw [if_pos hk, if_pos hk, gives_pure_iff]
  · rw [if_neg hk, if_neg hk, hskip.bind_iff, hi]

/-- Behind the end of the string the loop reads on. -/
theorem HoldsString.not_gives_behind (h : HoldsString m a s) (ha : a ≠ 0) {i last : ℕ}
    (hi : i = s.length + 1) :
    ¬ Gives m (stringRange a s) (findToken a d tokNum fuel i count last found) r := by
  cases fuel with
  | zero => exact not_gives_never
  | succ fuel =>
    intro hgives
    rw [findToken] at hgives
    obtain ⟨c, ⟨log, hrun, hlog⟩, -⟩ := hgives.bind_inv
    obtain ⟨-, rfl⟩ := Prod.mk.inj (Option.some.inj hrun)
    have hin := hlog (u32 (a + i), 1) (List.mem_singleton.mpr rfl) ⟨le_rfl, Nat.lt_succ_self _⟩
    have hbounds : a ≤ u32 (a + i) ∧ u32 (a + i) < a + s.length + 1 := hin
    have hfits := h.fits
    unfold u32 at hbounds
    omega

def IsToken (s p : List UInt8) : Option (ℕ × ℕ) → Prop
  | some (first, last) => ∃ pre rest, s = pre ++ p ++ rest ∧ first = pre.length ∧ last = first + p.length
  | none => p = []

/-- From the start of a piece on the loop finds the piece or, past a run that ends the string, reads on. -/
theorem HoldsString.findToken_spec (h : HoldsString m a s) (ha : a ≠ 0) (hd : d ≠ 0)
    (htokNum : tokNum < 2 ^ 32) (hs : s = pre ++ (tok ++ rest)) (htok : ∀ x ∈ tok, x ≠ d)
    (hfound : found = true ∨ d ∈ rest) (hf : rest.length < fuel) (hk : tokNum = count + k) :
    (Exhausts d k (tok ++ rest) → ∀ r, ¬ Gives m (stringRange a s)
      (findToken a d tokNum fuel (pre.length + tok.length) count pre.length found) r) ∧
    (¬ Exhausts d k (tok ++ rest) → ∃ r, Gives m (stringRange a s)
      (findToken a d tokNum fuel (pre.length + tok.length) count pre.length found) r ∧
        IsToken s (piece d k (tok ++ rest)) r) := by
  -- The loop stands behind `tok`, and `rest` gets shorter with every turn.
  induction fuel generalizing pre tok rest count k found with
  | zero => omega
  | succ fuel ih =>
    have hpos : pre.length + tok.length = (pre ++ tok).length := by rw [List.length_append]
    cases rest with
    | nil =>
      -- The end of the string: the piece that the loop stands in is the last one.
      have hall : s = pre ++ tok := by simpa using hs
      have hf : found = true := hfound.resolve_right List.not_mem_nil
      rw [List.append_nil]
      refine ⟨fun hex => absurd hex (exhausts_tok htok), fun _ => ⟨if found = true ∧ tokNum = count then
        some (pre.length, (pre ++ tok).length) else none, ?_, ?_⟩⟩
      · rw [hpos]
        exact (h.findToken_nil hall).mpr rfl
      · rw [piece_last htok]
        by_cases h0 : k = 0
        · rw [if_pos h0, if_pos ⟨hf, by omega⟩]
          exact ⟨pre, [], by simpa using hall, rfl, List.length_append⟩
        · rw [if_neg h0, if_neg fun hc => h0 (by omega)]
          rfl
    | cons x rest =>
      have hat : s = (pre ++ tok) ++ x :: rest := by rw [hs, List.append_assoc]
      rw [List.length_cons] at hf
      by_cases hx : x = d
      · subst hx
        rw [hpos]
        simp only [h.findToken_run ha hd hat]
        -- A run ends the piece: it is the one asked for, or the next one begins behind the run.
        cases k with
        | zero =>
          refine ⟨fun hex => absurd hex (exhausts_zero htok), fun _ =>
            ⟨some (pre.length, (pre ++ tok).length), ?_, ?_⟩⟩
          · rw [if_pos (by omega)]
          · rw [piece_zero htok]
            exact ⟨pre, x :: rest, hat, rfl, List.length_append⟩
        | succ k =>
          have hcount : tokNum ≠ count := by omega
          have hnum : u32 (count + 1) = count + 1 := u32_of_lt (by omega)
          have hrest : rest.takeWhile (· = x) ++ rest.dropWhile (· = x) = rest :=
            List.takeWhile_append_dropWhile
          have hlen := congrArg List.length hrest
          rw [List.length_append] at hlen
          simp only [if_neg hcount, exhausts_succ htok, piece_succ htok, hnum]
          cases hdrop : rest.dropWhile (· = x) with
          | nil =>
            -- The character after the run is the NUL, and the loop moves behind it.
            refine ⟨fun _ r => h.not_gives_behind ha ?_, fun hno => absurd (.inl rfl) hno⟩
            rw [hdrop, List.length_nil] at hlen
            have hall : s.length = (pre ++ tok).length + (rest.length + 1) := by
              rw [hat, List.length_append, List.length_cons]
            omega
          | cons y rest' =>
            have hy : y ≠ x := ne_of_dropWhile hdrop
            rw [hdrop, List.length_cons] at hlen
            have hpre : (pre ++ tok ++ x :: rest.takeWhile (· = x)).length =
                (pre ++ tok).length + 1 + (rest.takeWhile (· = x)).length := by
              rw [List.length_append, List.length_cons]
              omega
            have hsplit := hat.trans (split_run (pre ++ tok) hdrop)
            have hnumber : tokNum = count + 1 + k := by omega
            have hnext := ih hsplit (by simpa using hy) (.inl rfl) (by omega) hnumber
            rw [hpre] at hnext
            rw [or_iff_right (List.cons_ne_nil y rest')]
            exact hnext
      · have hmoved : s = pre ++ ((tok ++ [x]) ++ rest) := by simpa using hs
        have hfound' : found = true ∨ d ∈ rest := hfound.imp_right fun hm =>
          (List.mem_cons.mp hm).resolve_left fun e => hx e.symm
        have hnext := ih hmoved ?_ hfound' (by omega) hk
        · simp only [List.length_append, List.length_singleton, List.append_assoc,
            List.singleton_append, ← Nat.add_assoc] at hnext
          rw [hpos]
          simp only [h.findToken_other hx hat]
          rw [← hpos]
          exact hnext
        · intro y hy
          rcases List.mem_append.mp hy with hy | hy
          · exact htok y hy
          · rw [List.mem_singleton.mp hy]
            exact hx

theorem isToken_length {p : List UInt8} {first last : ℕ} (h : IsToken s p (some (first, last))) :
    last - first = p.length ∧ first + p.length ≤ s.length ∧
      ∀ j (hj : j < p.length), s[first + j]? = some p[j] := by
  obtain ⟨pre, rest, rfl, rfl, rfl⟩ := h
  refine ⟨Nat.add_sub_cancel_left .., by simp, fun j hj => ?_⟩
  rw [List.append_assoc, List.getElem?_append_right (by omega), Nat.add_sub_cancel_left,
    List.getElem?_append_left hj, List.getElem?_eq_getElem hj]

theorem HoldsString.gives_copyToken (h : HoldsString m a s) {out first last : ℕ} {p : List UInt8}
    (hp : IsToken s p (some (first, last))) (hout : out + s.length + 1 ≤ 2 ^ 32)
    (hapart : a + s.length < out ∨ out + s.length < a) :
    ∃ m', Gives m (stringRange a s) (copyToken a out first last) (p.length, m') ∧ HoldsString m' out p := by
  obtain ⟨hlen, hle, hget⟩ := isToken_length hp
  have hfits := h.fits
  have hcopy : ∀ x, memcopy (a + first) out p.length m x =
      if out ≤ x ∧ x < out + p.length then m (a + first + (x - out)) else m x :=
    fun x => memcopy_apply (by omega) (by omega) (by omega)
  have hend : (out + p.length) % 2 ^ 32 = out + p.length := Nat.mod_eq_of_lt (by omega)
  refine ⟨storeByte (2 ^ 32) (memcopy (a + first) out p.length m) (out + p.length) 0,
    ⟨[(a + first, p.length)], ?_, fun r hr => ?_⟩, fun j hj => ?_, ?_, fun hmem => ?_, by omega⟩
  · unfold copyToken
    rw [hlen]
  · rw [List.mem_singleton.mp hr]
    intro x hx
    have hx' : a + first ≤ x ∧ x < a + first + p.length := hx
    exact ⟨by omega, by omega⟩
  · have hbyte := hget j hj
    rw [List.getElem?_eq_some_iff] at hbyte
    obtain ⟨hlt, hbyte⟩ := hbyte
    unfold storeByte
    rw [hend, Function.update_of_ne (by omega), hcopy, if_pos (by omega), Nat.add_sub_cancel_left,
      Nat.add_assoc, h.bytes _ hlt, hbyte]
  · unfold storeByte
    rw [hend]
    exact Function.update_self ..
  · obtain ⟨pre, rest, hs, -⟩ := hp
    exact h.nonzero (by simp [hs, hmem])

theorem gives_noToken {out : ℕ} (P : Set ℕ) (hout : out < 2 ^ 32) :
    ∃ m', Gives m P (noToken out) (0, m') ∧ HoldsString m' out [] := by
  refine ⟨storeByte (2 ^ 32) m out 0, ⟨[], rfl, fun _ h => absurd h List.not_mem_nil⟩, ?_⟩
  refine ⟨fun j hj => absurd hj (Nat.not_lt_zero j), ?_, List.not_mem_nil, hout⟩
  unfold storeByte
  rw [Nat.mod_eq_of_lt hout]
  exact Function.update_self ..

end Search

/-- `strtokn` reads nothing behind the string and returns the piece, in `outToken` and ended, with its
length. -/
def GivesPiece (m : Memory) (input outToken : ℕ) (delim : UInt8) (tokNum : ℕ) (s : List UInt8) : Prop :=
  ∃ m', Gives m (stringRange input s) (strtokn input outToken delim tokNum)
    ((piece delim tokNum s).length, m') ∧ HoldsString m' outToken (piece delim tokNum s)

section Tokens
variable {m : Memory} {input outToken tokNum : ℕ} {s : List UInt8} {delim : UInt8}

theorem findToken_start (h : HoldsString m input s) (hinput : input ≠ 0) (hdelim : delim ≠ 0)
    (hin : delim ∈ s) (htok : tokNum < 2 ^ 32) :
    (Exhausts delim tokNum s → ∀ r, ¬ Gives m (stringRange input s)
      (findToken input delim tokNum (2 ^ 32) 0 0 0 false) r) ∧
    (¬ Exhausts delim tokNum s → ∃ r, Gives m (stringRange input s)
      (findToken input delim tokNum (2 ^ 32) 0 0 0 false) r ∧ IsToken s (piece delim tokNum s) r) := by
  have hfits := h.fits
  have hsplit : s = [] ++ ([] ++ s) := rfl
  have hfuel : s.length < 2 ^ 32 := by omega
  exact h.findToken_spec hinput hdelim htok hsplit (fun _ hx => absurd hx List.not_mem_nil) (.inr hin) hfuel
    (Nat.zero_add tokNum).symm

theorem strtokn_eq (hinput : input ≠ 0) : strtokn input outToken delim tokNum = (do
    let token ← findToken input delim tokNum (2 ^ 32) 0 0 0 false
    match token with
    | some (lastTknStart, i) => copyToken input outToken lastTknStart i
    | none => noToken outToken) := if_neg hinput

theorem givesPiece_of_not_exhausts (h : HoldsString m input s) (hinput : input ≠ 0) (hdelim : delim ≠ 0)
    (hin : delim ∈ s) (htok : tokNum < 2 ^ 32) (hout : outToken + s.length + 1 ≤ 2 ^ 32)
    (hapart : input + s.length < outToken ∨ outToken + s.length < input)
    (hex : ¬ Exhausts delim tokNum s) : GivesPiece m input outToken delim tokNum s := by
  obtain ⟨r, hfind, htoken⟩ := (findToken_start h hinput hdelim hin htok).2 hex
  unfold GivesPiece
  rw [strtokn_eq hinput]
  cases r with
  | none =>
    obtain ⟨m', hgives, hholds⟩ := gives_noToken (m := m) (stringRange input s) (by omega : outToken < 2 ^ 32)
    have hnil : piece delim tokNum s = [] := htoken
    rw [hnil]
    exact ⟨m', hfind.bind hgives, hholds⟩
  | some bounds =>
    obtain ⟨m', hgives, hholds⟩ := h.gives_copyToken htoken hout hapart
    exact ⟨m', hfind.bind hgives, hholds⟩

theorem not_givesPiece_of_exhausts (h : HoldsString m input s) (hinput : input ≠ 0) (hdelim : delim ≠ 0)
    (hin : delim ∈ s) (htok : tokNum < 2 ^ 32) (hex : Exhausts delim tokNum s) :
    ¬ GivesPiece m input outToken delim tokNum s := by
  rintro ⟨m', hgives, -⟩
  rw [strtokn_eq hinput] at hgives
  obtain ⟨r, hfind, -⟩ := hgives.bind_inv
  exact (findToken_start h hinput hdelim hin htok).1 hex r hfind

/-- A number past all runs of a string that ends in one makes `strtokn` step over the end. -/
theorem givesPiece_iff (h : HoldsString m input s) (hinput : input ≠ 0) (hdelim : delim ≠ 0)
    (hin : delim ∈ s) (htok : tokNum < 2 ^ 32) (hout : outToken + s.length + 1 ≤ 2 ^ 32)
    (hapart : input + s.length < outToken ∨ outToken + s.length < input) :
    GivesPiece m input outToken delim tokNum s ↔ ¬ (s.getLast? = some delim ∧ runs delim s ≤ tokNum) :=
  ⟨fun hgives hex => not_givesPiece_of_exhausts h hinput hdelim hin htok hex hgives,
    givesPiece_of_not_exhausts h hinput hdelim hin htok hout hapart⟩

end Tokens

def lsMemory : Memory := fun a =>
  if a = 0x1000 then 0x6C else if a = 0x1001 then 0x73 else if a = 0x1002 then 0x20 else 0

theorem holdsString_ls : HoldsString lsMemory 0x1000 [0x6C, 0x73, 0x20] := by
  refine ⟨?_, by decide, by decide, by decide⟩
  decide

theorem givesPiece_ls : GivesPiece lsMemory 0x1000 0x2000 0x20 0 [0x6C, 0x73, 0x20] :=
  (givesPiece_iff holdsString_ls (by decide) (by decide) (by decide) (by decide) (by decide)
    (by decide)).mpr (by decide)

/-- There is no second piece, but looking for it does not stop at the end of the string. -/
theorem reads_past_ls : HoldsString lsMemory 0x1000 [0x6C, 0x73, 0x20] ∧
    ¬ GivesPiece lsMemory 0x1000 0x2000 0x20 1 [0x6C, 0x73, 0x20] :=
  ⟨holdsString_ls, not_givesPiece_of_exhausts holdsString_ls (by decide) (by decide) (by decide) (by decide)
    ⟨by decide, by decide⟩⟩

end X86Osdev.Lib

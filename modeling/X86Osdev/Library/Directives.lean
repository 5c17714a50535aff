import Mathlib.Data.List.Basic

/-! Texts with directives: a marker, a flag that may be left out, a digit that may be left out, and a conversion. -/

namespace Directives
variable {α : Type*}

/-- The characters with a meaning of their own; the flag is one of the digits. -/
structure Alphabet (α : Type*) where
  marker : α
  flag : α
  digit : α → Bool
  flag_digit : digit flag = true

inductive Piece (α : Type*) where
  | lit (c : α)
  | dir (flag : Bool) (digit : Option α) (conv : α)

def Piece.isDir : Piece α → Bool
  | lit _ => false
  | dir _ _ _ => true

structure Opened (α : Type*) where
  flag : Bool
  digit : Option α

variable (A : Alphabet α)

def Opened.text (o : Opened α) : List α := A.marker :: ((if o.flag then [A.flag] else []) ++ o.digit.toList)

def Piece.text : Piece α → List α
  | lit c => [c]
  | dir flag digit conv => (Opened.mk flag digit).text A ++ [conv]

/-- The digit is one, and not the flag where there is none. -/
structure Opened.Plain (o : Opened α) : Prop where
  digit : ∀ d ∈ o.digit, A.digit d = true
  flag : o.flag = false → o.digit ≠ some A.flag

/-- A piece that reads back as itself. -/
def Piece.Plain : Piece α → Prop
  | lit c => c ≠ A.marker
  | dir flag digit conv => (Opened.mk flag digit).Plain A ∧ (digit = none → A.digit conv = false)

variable [DecidableEq α]

def takeFlag : List α → Bool × List α
  | [] => (false, [])
  | c :: s => if c = A.flag then (true, s) else (false, c :: s)

def takeDigit : List α → Option α × List α
  | [] => (none, [])
  | c :: s => if A.digit c then (some c, s) else (none, c :: s)

/-- What follows a marker: the flag, the digit, and the rest. -/
def opened (s : List α) : Opened α × List α :=
  (⟨(takeFlag A s).1, (takeDigit A (takeFlag A s).2).1⟩, (takeDigit A (takeFlag A s).2).2)

theorem length_opened (s : List α) : (opened A s).2.length ≤ s.length := by
  have hflag : (takeFlag A s).2.length ≤ s.length := by
    cases s with
    | nil => exact Nat.le_refl _
    | cons c s =>
      rw [takeFlag]
      split
      · exact Nat.le_succ _
      · exact Nat.le_refl _
  refine Nat.le_trans ?_ hflag
  unfold opened
  cases (takeFlag A s).2 with
  | nil => exact Nat.le_refl _
  | cons c t =>
    dsimp only
    rw [takeDigit]
    split
    · exact Nat.le_succ _
    · exact Nat.le_refl _

/-- The pieces of a text, and the directive that it ends in the middle of. -/
def parse : List α → List (Piece α) × Option (Opened α)
  | [] => ([], none)
  | c :: s =>
    if c = A.marker then
      match h : opened A s with
      | (o, []) => ([], some o)
      | (o, conv :: rest) =>
        have : rest.length < s.length := by
          have hle := length_opened A s
          rw [h] at hle
          exact hle
        (.dir o.flag o.digit conv :: (parse rest).1, (parse rest).2)
    else (.lit c :: (parse s).1, (parse s).2)
termination_by s => s.length

section Opening
variable {A} {o : Opened α} {s : List α}

theorem text_opened (s : List α) : (opened A s).1.text A ++ (opened A s).2 = A.marker :: s := by
  have hdigit (s : List α) : (takeDigit A s).1.toList ++ (takeDigit A s).2 = s := by
    cases s with
    | nil => rfl
    | cons c s =>
      rw [takeDigit]
      split <;> rfl
  have hflag : (if (takeFlag A s).1 then [A.flag] else []) ++ (takeFlag A s).2 = s := by
    cases s with
    | nil => rfl
    | cons c s =>
      rw [takeFlag]
      split
      · next h => simp [h]
      · rfl
  unfold opened Opened.text
  rw [List.cons_append, List.append_assoc, hdigit, hflag]

omit [DecidableEq α] in
theorem digit_takeDigit (s : List α) : ∀ d ∈ (takeDigit A s).1, A.digit d = true := by
  cases s with
  | nil => simp [takeDigit]
  | cons c s =>
    rw [takeDigit]
    split
    · next h => simpa using h
    · simp

theorem plain_opened (s : List α) : (opened A s).1.Plain A := by
  refine ⟨digit_takeDigit _, fun hflag hsome => ?_⟩
  unfold opened at hflag hsome
  dsimp only at hflag hsome
  cases s with
  | nil => cases hsome
  | cons c s =>
    rw [takeFlag] at hflag hsome
    by_cases hc : c = A.flag
    · rw [if_pos hc] at hflag
      cases hflag
    · rw [if_neg hc, takeDigit] at hsome
      split at hsome
      · exact hc (Option.some.inj hsome)
      · cases hsome

theorem conv_opened (conv : α) (rest : List α) (h : (opened A s).2 = conv :: rest)
    (hnone : (opened A s).1.digit = none) : A.digit conv = false := by
  unfold opened at h hnone
  dsimp only at h hnone
  generalize (takeFlag A s).2 = t at h hnone
  cases t with
  | nil => cases h
  | cons c t =>
    rw [takeDigit] at h hnone
    by_cases hd : A.digit c = true
    · rw [if_pos hd] at hnone
      cases hnone
    · rw [if_neg hd] at h
      rw [← (List.cons.inj h).1]
      exact Bool.eq_false_iff.mpr hd

/-- A directive that was written is the one that is read. -/
theorem opened_text (ho : o.Plain A) {rest : List α} (hrest : o.digit = none → ∀ c ∈ rest.head?, A.digit c = false)
    (hs : A.marker :: s = o.text A ++ rest) : opened A s = (o, rest) := by
  obtain ⟨flag, digit⟩ := o
  have hs : s = (if flag then [A.flag] else []) ++ (digit.toList ++ rest) := by
    unfold Opened.text at hs
    rw [List.cons_append, List.append_assoc] at hs
    exact (List.cons.inj hs).2
  have hdigit : takeDigit A (digit.toList ++ rest) = (digit, rest) := by
    cases digit with
    | some d =>
      have hd := ho.digit d rfl
      exact if_pos hd
    | none =>
      cases rest with
      | nil => rfl
      | cons c rest =>
        have hc := hrest rfl c rfl
        exact if_neg (by simp [hc])
  have hflag : takeFlag A s = (flag, digit.toList ++ rest) := by
    rw [hs]
    cases flag with
    | true => exact if_pos rfl
    | false =>
      cases htail : digit.toList ++ rest with
      | nil => rfl
      | cons c t =>
        refine if_neg fun hc => ?_
        cases digit with
        | some d =>
          rw [Option.toList_some, List.singleton_append] at htail
          exact ho.flag rfl (congrArg some ((List.cons.inj htail).1.trans hc))
        | none =>
          have hnone := hrest rfl c (by rw [show rest = c :: t from htail]; rfl)
          rw [hc, A.flag_digit] at hnone
          cases hnone
  unfold opened
  rw [hflag, hdigit]

theorem opened_append {z : α} (hz : A.digit z = false) (s : List α) :
    opened A (s ++ [z]) = ((opened A s).1, (opened A s).2 ++ [z]) := by
  have hflag : takeFlag A (s ++ [z]) = ((takeFlag A s).1, (takeFlag A s).2 ++ [z]) := by
    cases s with
    | nil =>
      refine if_neg fun hc => ?_
      rw [hc, A.flag_digit] at hz
      cases hz
    | cons c s =>
      rw [List.cons_append, takeFlag, takeFlag]
      split <;> rfl
  have hdigit (s : List α) : takeDigit A (s ++ [z]) = ((takeDigit A s).1, (takeDigit A s).2 ++ [z]) := by
    cases s with
    | nil => exact if_neg (by simp [hz])
    | cons c s =>
      rw [List.cons_append, takeDigit, takeDigit]
      split <;> rfl
  unfold opened
  rw [hflag, hdigit]

end Opening

section Parsing
variable {A} {p : Piece α} {ps : List (Piece α)} {s : List α}

theorem text_parse (s : List α) :
    (parse A s).1.flatMap (Piece.text A) ++ ((parse A s).2.elim [] (Opened.text A)) = s := by
  fun_induction parse A s with
  | case1 => rfl
  | case2 s o h =>
    have htext := text_opened (A := A) s
    rw [h] at htext
    simpa using htext
  | case3 s o conv rest h this ih =>
    have htext := text_opened (A := A) s
    rw [h] at htext
    rw [List.flatMap_cons, List.append_assoc, ih, ← htext]
    simp [Piece.text]
  | case4 c s h ih =>
    rw [List.flatMap_cons, List.append_assoc, ih]
    rfl

theorem plain_parse (s : List α) : ∀ p ∈ (parse A s).1, p.Plain A := by
  fun_induction parse A s with
  | case1 => exact fun _ hp => absurd hp List.not_mem_nil
  | case2 s o h => exact fun _ hp => absurd hp List.not_mem_nil
  | case3 s o conv rest h this ih =>
    have hplain := plain_opened (A := A) s
    have hconv := conv_opened (A := A) (s := s) conv rest (by rw [h])
    rw [h] at hplain hconv
    exact List.forall_mem_cons.mpr ⟨⟨hplain, hconv⟩, ih⟩
  | case4 c s h ih => exact List.forall_mem_cons.mpr ⟨h, ih⟩

theorem length_parse (s : List α) : (parse A s).1.length ≤ s.length := by
  fun_induction parse A s with
  | case1 => exact Nat.le_refl _
  | case2 s o h => exact Nat.zero_le _
  | case3 s o conv rest h hlt ih => exact Nat.succ_le_succ (Nat.le_trans ih (Nat.le_of_lt hlt))
  | case4 c s h ih => exact Nat.succ_le_succ ih

theorem parse_text_append (hp : p.Plain A) (s : List α) :
    parse A (p.text A ++ s) = (p :: (parse A s).1, (parse A s).2) := by
  cases p with
  | lit c =>
    have hc : c ≠ A.marker := hp
    rw [Piece.text, List.singleton_append, parse, if_neg hc]
  | dir flag digit conv =>
    obtain ⟨hplain, hconv⟩ := hp
    have hopened : opened A ((if flag then [A.flag] else []) ++ digit.toList ++ conv :: s) =
        (⟨flag, digit⟩, conv :: s) := by
      refine opened_text hplain (fun hnone c hc => ?_) (by simp [Opened.text])
      rw [← Option.some.inj hc]
      exact hconv hnone
    have htext : (Piece.dir flag digit conv).text A ++ s =
        A.marker :: ((if flag then [A.flag] else []) ++ digit.toList ++ conv :: s) := by
      simp [Piece.text, Opened.text]
    rw [htext, parse, if_pos rfl]
    split
    · next h =>
      rw [hopened] at h
      cases h
    · next h =>
      rw [hopened, Prod.mk.injEq, List.cons.injEq] at h
      obtain ⟨rfl, rfl, rfl⟩ := h
      rfl

/-- Pieces that were written one after the other are the ones that are read. -/
theorem parse_texts (h : ∀ p ∈ ps, p.Plain A) : parse A (ps.flatMap (Piece.text A)) = (ps, none) := by
  induction ps with
  | nil => rw [List.flatMap_nil, parse]
  | cons p ps ih =>
    obtain ⟨hp, hps⟩ := List.forall_mem_cons.mp h
    rw [List.flatMap_cons, parse_text_append hp, ih hps]

end Parsing
end Directives

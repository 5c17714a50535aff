import Mathlib.Data.Set.Lattice
import Mathlib.Order.CompletePartialOrder
import Mathlib.Order.Interval.Set.Basic
import Mathlib.Tactic.Ring
import Mathlib.Tactic.Linarith

/-! Tilings of an interval of natural numbers by aligned blocks of power-of-two
size: halving, joining, and uniqueness of the fully joined tiling. -/

namespace DyadicTiling

/-- The points of the block of order `o` at `p`. -/
def span (p o : ℕ) : Set ℕ := Set.Ico p (p + 2 ^ o)

/-- The other half of the block of order `o + 1` around the block of order `o` at `p`. -/
def buddy (p o : ℕ) : ℕ := if (p / 2 ^ o) % 2 = 0 then p + 2 ^ o else p - 2 ^ o

section Blocks
variable {p q o a b x : ℕ}

theorem mem_span : x ∈ span p o ↔ p ≤ x ∧ x < p + 2 ^ o := Iff.rfl

theorem self_mem_span (p o : ℕ) : p ∈ span p o := ⟨le_rfl, Nat.lt_add_of_pos_right (by positivity)⟩

theorem span_succ (p o : ℕ) : span p (o + 1) = span p o ∪ span (p + 2 ^ o) o := by
  ext x
  simp only [mem_span, Set.mem_union, pow_succ]
  omega

theorem halves_disjoint (p o : ℕ) : Disjoint (span p o) (span (p + 2 ^ o) o) := by
  rw [Set.disjoint_left]
  intro x hx hy
  rw [mem_span] at hx hy
  omega

theorem not_disjoint (hp : x ∈ span p a) (hq : x ∈ span q b) :
    ¬ Disjoint (span p a) (span q b) := Set.not_disjoint_iff.mpr ⟨x, hp, hq⟩

theorem span_subset (hp : 2 ^ a ∣ p) (hq : 2 ^ b ∣ q) (hab : a ≤ b) (hxp : x ∈ span p a)
    (hxq : x ∈ span q b) : span p a ⊆ span q b := by
  obtain ⟨m, hm⟩ : 2 ^ a ∣ 2 ^ b := Nat.pow_dvd_pow 2 hab
  obtain ⟨i, rfl⟩ := hp
  obtain ⟨j, rfl⟩ := hq
  rw [mem_span] at hxp hxq
  have hpos : 0 < 2 ^ a := by positivity
  have hlow : j * m ≤ i := by
    have h : 2 ^ a * (j * m) < 2 ^ a * (i + 1) := by
      calc 2 ^ a * (j * m) = 2 ^ b * j := by rw [hm]; ring
        _ ≤ x := hxq.1
        _ < 2 ^ a * i + 2 ^ a := hxp.2
        _ = 2 ^ a * (i + 1) := by ring
    exact Nat.lt_succ_iff.mp (Nat.lt_of_mul_lt_mul_left h)
  have hhigh : i + 1 ≤ j * m + m := by
    have h : 2 ^ a * i < 2 ^ a * (j * m + m) := by
      calc 2 ^ a * i ≤ x := hxp.1
        _ < 2 ^ b * j + 2 ^ b := hxq.2
        _ = 2 ^ a * (j * m + m) := by rw [hm]; ring
    exact Nat.lt_of_mul_lt_mul_left h
  intro y hy
  rw [mem_span] at hy ⊢
  constructor
  · calc 2 ^ b * j = 2 ^ a * (j * m) := by rw [hm]; ring
      _ ≤ 2 ^ a * i := Nat.mul_le_mul_left _ hlow
      _ ≤ y := hy.1
  · calc y < 2 ^ a * i + 2 ^ a := hy.2
      _ = 2 ^ a * (i + 1) := by ring
      _ ≤ 2 ^ a * (j * m + m) := Nat.mul_le_mul_left _ hhigh
      _ = 2 ^ b * j + 2 ^ b := by rw [hm]; ring

theorem eq_of_meet (hp : 2 ^ o ∣ p) (hq : 2 ^ o ∣ q) (hxp : x ∈ span p o) (hxq : x ∈ span q o) :
    p = q := by
  have h₁ := span_subset hp hq le_rfl hxp hxq (self_mem_span p o)
  have h₂ := span_subset hq hp le_rfl hxq hxp (self_mem_span q o)
  exact le_antisymm h₂.1 h₁.1

theorem even_iff_dvd (hp : 2 ^ o ∣ p) : (p / 2 ^ o) % 2 = 0 ↔ 2 ^ (o + 1) ∣ p := by
  obtain ⟨i, rfl⟩ := hp
  rw [Nat.mul_div_cancel_left _ (by positivity), pow_succ,
    Nat.mul_dvd_mul_iff_left (by positivity), Nat.dvd_iff_mod_eq_zero]

theorem buddy_even (hp : 2 ^ (o + 1) ∣ p) : buddy p o = p + 2 ^ o := by
  have hp' : 2 ^ o ∣ p := (Nat.pow_dvd_pow 2 (Nat.le_succ o)).trans hp
  rw [buddy, if_pos ((even_iff_dvd hp').mpr hp)]

theorem buddy_odd (hp : 2 ^ o ∣ p) (hodd : ¬ 2 ^ (o + 1) ∣ p) :
    buddy p o + 2 ^ o = p ∧ 2 ^ (o + 1) ∣ buddy p o := by
  rw [buddy, if_neg (fun h => hodd ((even_iff_dvd hp).mp h))]
  obtain ⟨i, rfl⟩ := hp
  have hi : i % 2 = 1 := by
    rcases Nat.mod_two_eq_zero_or_one i with h | h
    · exact absurd (by rw [pow_succ]; exact Nat.mul_dvd_mul_left _ (Nat.dvd_of_mod_eq_zero h)) hodd
    · exact h
  obtain ⟨j, rfl⟩ : ∃ j, i = 2 * j + 1 := ⟨i / 2, by omega⟩
  have he : 2 ^ o * (2 * j + 1) - 2 ^ o = 2 ^ (o + 1) * j := by
    rw [pow_succ, show 2 ^ o * (2 * j + 1) = 2 ^ o * 2 * j + 2 ^ o by ring, Nat.add_sub_cancel]
  rw [he]
  exact ⟨by ring, Dvd.intro _ rfl⟩

/-- A block and its buddy are the two halves of one aligned block. -/
theorem buddy_cases (hp : 2 ^ o ∣ p) :
    (2 ^ (o + 1) ∣ p ∧ buddy p o = p + 2 ^ o) ∨
      (2 ^ (o + 1) ∣ buddy p o ∧ p = buddy p o + 2 ^ o) := by
  by_cases h : 2 ^ (o + 1) ∣ p
  · exact .inl ⟨h, buddy_even h⟩
  · exact .inr ⟨(buddy_odd hp h).2, (buddy_odd hp h).1.symm⟩

theorem dvd_add_half (hp : 2 ^ (o + 1) ∣ p) : 2 ^ o ∣ p + 2 ^ o :=
  (Nat.dvd_add_self_right).mpr ((Nat.pow_dvd_pow 2 (Nat.le_succ o)).trans hp)

theorem half_not_dvd (hp : 2 ^ (o + 1) ∣ p) : ¬ 2 ^ (o + 1) ∣ p + 2 ^ o := by
  intro h
  have hpos : 0 < 2 ^ o := by positivity
  have hle := Nat.le_of_dvd hpos ((Nat.dvd_add_right hp).mp h)
  rw [pow_succ] at hle
  omega

theorem buddy_ne (hp : 2 ^ o ∣ p) : buddy p o ≠ p := by
  have hpos : 0 < 2 ^ o := by positivity
  rcases buddy_cases hp with ⟨-, he⟩ | ⟨-, he⟩ <;> omega

theorem buddy_buddy (hp : 2 ^ o ∣ p) : buddy (buddy p o) o = p := by
  rcases buddy_cases hp with ⟨hd, he⟩ | ⟨hd, he⟩
  · have hodd := (buddy_odd (dvd_add_half hd) (half_not_dvd hd)).1
    rw [he]
    omega
  · rw [buddy_even hd, ← he]

theorem buddy_lt {N : ℕ} (hp : 2 ^ o ∣ p) (hN : 2 ^ (o + 1) ∣ N) (hlt : p < N) :
    buddy p o + 2 ^ o ≤ N := by
  have hpow : 2 ^ (o + 1) = 2 ^ o + 2 ^ o := by ring
  rcases buddy_cases hp with ⟨hd, he⟩ | ⟨hd, he⟩
  · have hle : p + 2 ^ (o + 1) ≤ N := by
      obtain ⟨i, rfl⟩ := hd
      obtain ⟨j, rfl⟩ := hN
      have hij : i < j := Nat.lt_of_mul_lt_mul_left hlt
      calc 2 ^ (o + 1) * i + 2 ^ (o + 1) = 2 ^ (o + 1) * (i + 1) := by ring
        _ ≤ 2 ^ (o + 1) * j := Nat.mul_le_mul_left _ hij
    rw [he]
    omega
  · omega

end Blocks

/-- The blocks at `heads`, of the orders that `ord` gives, are aligned and tile `[0, N)`. -/
structure Tiling (N : ℕ) (heads : Set ℕ) (ord : ℕ → ℕ) : Prop where
  aligned : ∀ p ∈ heads, 2 ^ ord p ∣ p
  below : ∀ p ∈ heads, p + 2 ^ ord p ≤ N
  disjoint : ∀ p ∈ heads, ∀ q ∈ heads, p ≠ q → Disjoint (span p (ord p)) (span q (ord q))
  cover : ∀ x < N, ∃ p ∈ heads, x ∈ span p (ord p)

section Tilings
variable {N M p q o : ℕ} {heads : Set ℕ} {ord ord' : ℕ → ℕ}

theorem Tiling.lt (ht : Tiling N heads ord) (hp : p ∈ heads) : p < N := by
  have := ht.below p hp
  have : 0 < 2 ^ ord p := by positivity
  omega

theorem Tiling.eq_of_mem (ht : Tiling N heads ord) (hp : p ∈ heads) (hq : q ∈ heads)
    (h : q ∈ span p (ord p)) : q = p := by
  by_contra hne
  exact not_disjoint h (self_mem_span q _) (ht.disjoint p hp q hq (Ne.symm hne))

theorem Tiling.half_notMem (ht : Tiling N heads ord) (hp : p ∈ heads) (ho : ord p = o + 1) :
    p + 2 ^ o ∉ heads := by
  intro h
  have hpos : 0 < 2 ^ o := by positivity
  have := ht.eq_of_mem hp h (by rw [ho, mem_span, pow_succ]; omega)
  omega

theorem Tiling.congr (ht : Tiling N heads ord) (h : ∀ p ∈ heads, ord' p = ord p) :
    Tiling N heads ord' where
  aligned p hp := by rw [h p hp]; exact ht.aligned p hp
  below p hp := by rw [h p hp]; exact ht.below p hp
  disjoint p hp q hq hpq := by rw [h p hp, h q hq]; exact ht.disjoint p hp q hq hpq
  cover x hx := by
    obtain ⟨p, hp, hxp⟩ := ht.cover x hx
    exact ⟨p, hp, by rw [h p hp]; exact hxp⟩

/-- Halving a tile. -/
theorem Tiling.split (ht : Tiling N heads ord) (hp : p ∈ heads) (ho : ord p = o + 1)
    (hpo : ord' p = o) (hqo : ord' (p + 2 ^ o) = o)
    (hrest : ∀ x ∈ heads, x ≠ p → ord' x = ord x) :
    Tiling N (insert (p + 2 ^ o) heads) ord' := by
  have hal : 2 ^ (o + 1) ∣ p := ho ▸ ht.aligned p hp
  have hbelow : p + 2 ^ (o + 1) ≤ N := ho ▸ ht.below p hp
  have hpow : 2 ^ (o + 1) = 2 ^ o + 2 ^ o := by ring
  have hhalf : p + 2 ^ o ∉ heads := ht.half_notMem hp ho
  -- a tile other than the two halves was a tile before and misses the whole of the old one
  have hother : ∀ x ∈ heads, x ≠ p →
      Disjoint (span p o) (span x (ord' x)) ∧ Disjoint (span (p + 2 ^ o) o) (span x (ord' x)) := by
    intro x hx hxp
    have hd := ht.disjoint p hp x hx (Ne.symm hxp)
    rw [ho, span_succ, Set.disjoint_union_left, ← hrest x hx hxp] at hd
    exact hd
  refine ⟨?_, ?_, ?_, ?_⟩
  · rintro x (rfl | hx)
    · rw [hqo]
      exact dvd_add_half hal
    · by_cases hxp : x = p
      · subst hxp
        rw [hpo]
        exact (Nat.pow_dvd_pow 2 (Nat.le_succ o)).trans hal
      · rw [hrest x hx hxp]
        exact ht.aligned x hx
  · rintro x (rfl | hx)
    · rw [hqo]
      omega
    · by_cases hxp : x = p
      · subst hxp
        rw [hpo]
        omega
      · rw [hrest x hx hxp]
        exact ht.below x hx
  · rintro x (rfl | hx) y (rfl | hy) hxy
    · exact absurd rfl hxy
    · rw [hqo]
      by_cases hyp : y = p
      · subst hyp
        rw [hpo]
        exact (halves_disjoint y o).symm
      · exact (hother y hy hyp).2
    · rw [hqo]
      by_cases hxp : x = p
      · subst hxp
        rw [hpo]
        exact halves_disjoint x o
      · exact (hother x hx hxp).2.symm
    · by_cases hxp : x = p
      · subst hxp
        rw [hpo]
        exact (hother y hy (Ne.symm hxy)).1
      · by_cases hyp : y = p
        · subst hyp
          rw [hpo]
          exact (hother x hx hxp).1.symm
        · rw [hrest x hx hxp, hrest y hy hyp]
          exact ht.disjoint x hx y hy hxy
  · intro x hx
    obtain ⟨y, hy, hxy⟩ := ht.cover x hx
    by_cases hyp : y = p
    · subst hyp
      rw [ho, span_succ] at hxy
      rcases hxy with hxy | hxy
      · exact ⟨y, .inr hy, by rw [hpo]; exact hxy⟩
      · exact ⟨y + 2 ^ o, .inl rfl, by rw [hqo]; exact hxy⟩
    · exact ⟨y, .inr hy, by rw [hrest y hy hyp]; exact hxy⟩

/-- Joining the two halves of an aligned block. -/
theorem Tiling.join (ht : Tiling N heads ord) (hp : p ∈ heads) (hq : p + 2 ^ o ∈ heads)
    (hpo : ord p = o) (hqo : ord (p + 2 ^ o) = o) (hal : 2 ^ (o + 1) ∣ p)
    (hp' : ord' p = o + 1) (hrest : ∀ x ∈ heads, x ≠ p → x ≠ p + 2 ^ o → ord' x = ord x) :
    Tiling N (heads \ {p + 2 ^ o}) ord' := by
  have hpow : 2 ^ (o + 1) = 2 ^ o + 2 ^ o := by ring
  have hpq : p ≠ p + 2 ^ o := by
    have : 0 < 2 ^ o := by positivity
    omega
  have hother : ∀ x ∈ heads \ {p + 2 ^ o}, x ≠ p →
      ord' x = ord x ∧ Disjoint (span p (o + 1)) (span x (ord' x)) := by
    rintro x ⟨hx, hxq⟩ hxp
    have he := hrest x hx hxp hxq
    refine ⟨he, ?_⟩
    have hdp := ht.disjoint p hp x hx (Ne.symm hxp)
    have hdq := ht.disjoint _ hq x hx (Ne.symm hxq)
    rw [hpo] at hdp
    rw [hqo] at hdq
    rw [span_succ, Set.disjoint_union_left, he]
    exact ⟨hdp, hdq⟩
  refine ⟨?_, ?_, ?_, ?_⟩
  · intro x hx
    by_cases hxp : x = p
    · subst hxp
      rw [hp']
      exact hal
    · rw [(hother x hx hxp).1]
      exact ht.aligned x hx.1
  · intro x hx
    by_cases hxp : x = p
    · subst hxp
      have := ht.below _ hq
      rw [hqo] at this
      rw [hp']
      omega
    · rw [(hother x hx hxp).1]
      exact ht.below x hx.1
  · intro x hx y hy hxy
    by_cases hxp : x = p
    · subst hxp
      rw [hp']
      exact (hother y hy (Ne.symm hxy)).2
    · by_cases hyp : y = p
      · subst hyp
        rw [hp']
        exact (hother x hx hxp).2.symm
      · rw [(hother x hx hxp).1, (hother y hy hyp).1]
        exact ht.disjoint x hx.1 y hy.1 hxy
  · -- what either half covered, the joined block covers
    intro x hx
    obtain ⟨y, hy, hxy⟩ := ht.cover x hx
    by_cases hyq : y = p + 2 ^ o
    · subst hyq
      rw [hqo] at hxy
      exact ⟨p, ⟨hp, hpq⟩, by rw [hp', span_succ]; exact .inr hxy⟩
    · by_cases hyp : y = p
      · subst hyp
        rw [hpo] at hxy
        exact ⟨y, ⟨hy, hyq⟩, by rw [hp', span_succ]; exact .inl hxy⟩
      · exact ⟨y, ⟨hy, hyq⟩, by rw [hrest y hy hyp hyq]; exact hxy⟩

end Tilings

/-- No two halves of one block of order at most `M` are both in `free`. -/
def Joined (M : ℕ) (free : Set ℕ) (ord : ℕ → ℕ) : Prop :=
  ∀ p ∈ free, ord p < M → ¬ (buddy p (ord p) ∈ free ∧ ord (buddy p (ord p)) = ord p)

section Uniqueness
variable {N M : ℕ} {F F₁ F₂ H : Set ℕ} {ord ord₁ ord₂ : ℕ → ℕ}

/-- An aligned block that misses every tile of `H` lies inside one tile of `F`. -/
theorem exists_free_tile (ht : Tiling N (F ∪ H) ord) (hj : Joined M F ord) :
    ∀ {o p : ℕ}, o ≤ M → 2 ^ o ∣ p → p + 2 ^ o ≤ N →
      (∀ h ∈ H, Disjoint (span p o) (span h (ord h))) →
      ∃ f ∈ F, o ≤ ord f ∧ span p o ⊆ span f (ord f) := by
  intro o
  induction o with
  | zero =>
    intro p _ _ hN hH
    obtain ⟨f, hf, hpf⟩ := ht.cover p (by rw [pow_zero] at hN; omega)
    rcases hf with hf | hf
    · refine ⟨f, hf, Nat.zero_le _, ?_⟩
      exact span_subset (by simp) (ht.aligned f (.inl hf)) (Nat.zero_le _) (self_mem_span p 0) hpf
    · exact absurd (hH f hf) (not_disjoint (self_mem_span p 0) hpf)
  | succ o ih =>
    intro p hM hal hN hH
    have hpow : 2 ^ (o + 1) = 2 ^ o + 2 ^ o := by ring
    have hal' : 2 ^ o ∣ p := (Nat.pow_dvd_pow 2 (Nat.le_succ o)).trans hal
    have hsplit : ∀ h ∈ H, Disjoint (span p o) (span h (ord h)) ∧
        Disjoint (span (p + 2 ^ o) o) (span h (ord h)) := by
      intro h hh
      have := hH h hh
      rwa [span_succ, Set.disjoint_union_left] at this
    obtain ⟨f, hf, hof, hpf⟩ := ih (p := p) (by omega) hal' (by omega) (fun h hh => (hsplit h hh).1)
    obtain ⟨g, hg, hog, hpg⟩ := ih (p := p + 2 ^ o) (by omega) (dvd_add_half hal) (by omega)
      (fun h hh => (hsplit h hh).2)
    have hpm : p ∈ span p (o + 1) := self_mem_span _ _
    have hqm : p + 2 ^ o ∈ span p (o + 1) := by rw [span_succ]; exact .inr (self_mem_span _ _)
    by_cases hf' : o + 1 ≤ ord f
    · exact ⟨f, hf, hf', span_subset hal (ht.aligned f (.inl hf)) hf' hpm (hpf (self_mem_span p o))⟩
    by_cases hg' : o + 1 ≤ ord g
    · exact ⟨g, hg, hg', span_subset hal (ht.aligned g (.inl hg)) hg' hqm (hpg (self_mem_span _ o))⟩
    -- both halves are tiles of `F`, which full joining excludes
    have hfo : ord f = o := by omega
    have hgo : ord g = o := by omega
    have hfp : p = f := eq_of_meet hal' (hfo ▸ ht.aligned f (.inl hf)) (self_mem_span p o)
      (hfo ▸ hpf (self_mem_span p o))
    have hgm : p + 2 ^ o ∈ span g (ord g) := hpg (self_mem_span _ o)
    have hga := ht.aligned g (.inl hg)
    rw [hgo] at hgm hga
    have hgq : p + 2 ^ o = g := eq_of_meet (dvd_add_half hal) hga (self_mem_span _ o) hgm
    subst hfp
    refine absurd ⟨?_, ?_⟩ (hj p hf (by omega))
    · rw [hfo, buddy_even hal, hgq]
      exact hg
    · rw [hfo, buddy_even hal, hgq]
      exact hgo

/-- The tiles of `F` in a fully joined tiling are determined by the tiles of `H`. -/
theorem free_tile_unique (ht₁ : Tiling N (F₁ ∪ H) ord₁) (ht₂ : Tiling N (F₂ ∪ H) ord₂)
    (hj₁ : Joined M F₁ ord₁) (hj₂ : Joined M F₂ ord₂) (hd₁ : Disjoint F₁ H) (hd₂ : Disjoint F₂ H)
    (hM₁ : ∀ p ∈ F₁, ord₁ p ≤ M) (hM₂ : ∀ p ∈ F₂, ord₂ p ≤ M) (hH : ∀ h ∈ H, ord₁ h = ord₂ h)
    {p : ℕ} (hp : p ∈ F₁) : p ∈ F₂ ∧ ord₂ p = ord₁ p := by
  have hmiss₁ : ∀ f ∈ F₁, ∀ h ∈ H, Disjoint (span f (ord₁ f)) (span h (ord₁ h)) :=
    fun f hf h hh => ht₁.disjoint f (.inl hf) h (.inr hh)
      (fun e => Set.disjoint_left.mp hd₁ hf (e ▸ hh))
  have hmiss₂ : ∀ f ∈ F₂, ∀ h ∈ H, Disjoint (span f (ord₂ f)) (span h (ord₂ h)) :=
    fun f hf h hh => ht₂.disjoint f (.inl hf) h (.inr hh)
      (fun e => Set.disjoint_left.mp hd₂ hf (e ▸ hh))
  obtain ⟨f, hf, hpf, hsub⟩ := exists_free_tile ht₂ hj₂ (hM₁ p hp) (ht₁.aligned p (.inl hp))
    (ht₁.below p (.inl hp)) (fun h hh => hH h hh ▸ hmiss₁ p hp h hh)
  obtain ⟨g, hg, hfg, hsub'⟩ := exists_free_tile ht₁ hj₁ (hM₂ f hf) (ht₂.aligned f (.inl hf))
    (ht₂.below f (.inl hf)) (fun h hh => (hH h hh).symm ▸ hmiss₂ f hf h hh)
  have hpg : p = g := ht₁.eq_of_mem (.inl hg) (.inl hp) (hsub' (hsub (self_mem_span p _)))
  subst hpg
  have ho : ord₂ f = ord₁ p := le_antisymm hfg hpf
  have hfp : p = f := eq_of_meet (ht₁.aligned p (.inl hp)) (ho ▸ ht₂.aligned f (.inl hf))
    (self_mem_span p _) (ho ▸ hsub (self_mem_span p _))
  subst hfp
  exact ⟨hf, ho⟩

end Uniqueness

end DyadicTiling

import X86Osdev.Mem.BuddyZone

/-! The indices that the buddy code forms into `all_buddies`, as exact integers before any wrap. -/

namespace X86Osdev.Mem
open CircularList DyadicTiling

/-- `b_pfn` of `get_buddy_new`. -/
def splitIndex (order found : ℕ) (z : BuddyMemDesc) : ℤ :=
  (z.allBuddies found).pfn + (pagesPerBlock (order + 1) / 2 : ℕ)

/-- `buddy_pfn` of `calc_my_buddy_new_pfn`. -/
def neighbourIndex (b : BuddyBlockNew) (order : ℕ) : ℤ :=
  if (b.pfn / pagesPerBlock order) % 2 = 0 then (b.pfn : ℤ) + pagesPerBlock order
  else (b.pfn : ℤ) - pagesPerBlock order

/-- The indices formed by `getFrom`, innermost call first. -/
def getIndices : ℕ → BuddyMemDesc → List ℤ
  | 0, _ => []
  | d + 1, z =>
    match firstFree z (maxOrder - (d + 1)) with
    | some _ => []
    | none =>
      getIndices d z ++
        match getFrom d z with
        | .ok found z => [splitIndex (maxOrder - (d + 1)) found z]
        | _ => []

/-- The indices formed by `freeFrom`, outermost call first. -/
def freeIndices : ℕ → ℕ → BuddyMemDesc → List ℤ
  | 0, _, _ => []
  | fuel + 1, b, z =>
    if (z.allBuddies b).free = true ∨ (z.allBuddies b).order ≥ maxOrder then []
    else
      neighbourIndex (z.allBuddies b) (z.allBuddies b).order ::
        match calcFreeBuddy b z with
        | .ok (some buddy) z => freeIndices fuel (baseBiggerBlock b buddy z) (mergeBlocks b buddy z)
        | _ => []

def InZone (z : BuddyMemDesc) (i : ℤ) : Prop := 0 ≤ i ∧ i < z.totPages

section Bounds
variable {z : BuddyMemDesc} {fl : ℕ → List ℕ} {handed : Finset ℕ} {o b p : ℕ}

theorem inZone_natCast {i : ℕ} (h : i < z.totPages) : InZone z i := by
  unfold InZone
  omega

theorem splitIndex_eq (hz : ZoneInv z fl handed) (hp : p ∈ handed) :
    splitIndex o p z = (p + 2 ^ o : ℕ) := by
  rw [splitIndex, hz.pfn p (hz.handed_lt hp), half_eq, Nat.cast_add]

/-- An aligned block has a neighbour below it whenever its parity sends the code there. -/
theorem neighbourIndex_eq (hz : ZoneInv z fl handed) (hb : b < z.totPages) (hal : 2 ^ o ∣ b) :
    neighbourIndex (z.allBuddies b) o = (buddy b o : ℕ) := by
  rw [neighbourIndex, hz.pfn b hb, pagesPerBlock_eq]
  rcases buddy_cases hal with ⟨hd, he⟩ | ⟨hd, he⟩
  · rw [if_pos ((even_iff_dvd hal).mpr hd), he, Nat.cast_add]
  · have hodd : ¬ (b / 2 ^ o) % 2 = 0 := by
      rw [even_iff_dvd hal, he]
      exact half_not_dvd hd
    have hcast : (b : ℤ) = buddy b o + (2 ^ o : ℕ) := by
      rw [← Nat.cast_add, ← he]
    rw [if_neg hodd, hcast, add_sub_cancel_right]

theorem getIndices_inZone (hz : ZoneInv z fl handed) {d : ℕ} (hd : d ≤ maxOrder) :
    ∀ i ∈ getIndices d z, InZone z i := by
  induction d with
  | zero =>
    intro i hi
    exact absurd hi List.not_mem_nil
  | succ d ih =>
    intro i hi
    rw [getIndices] at hi
    cases hfirst : firstFree z (maxOrder - (d + 1)) with
    | some found =>
      rw [hfirst] at hi
      exact absurd hi List.not_mem_nil
    | none =>
      rw [hfirst] at hi
      rcases List.mem_append.mp hi with hi | hi
      · exact ih (by omega) i hi
      · rcases getFrom_spec hz (d := d) (by omega) with ⟨p, z', fl', hget, -, hz', -, hpo, hk⟩ |
          ⟨hpanic, -, -⟩
        · rw [hget] at hi
          have hp : p ∈ insert p handed := Finset.mem_insert_self ..
          have hnext : orderOf z' p = maxOrder - (d + 1) + 1 := by omega
          rw [List.mem_singleton.mp hi, splitIndex_eq hz' hp]
          exact inZone_natCast (hk.totPages ▸ splitBlock_half_lt hz' hp hnext)
        · rw [hpanic] at hi
          exact absurd hi List.not_mem_nil

theorem freeIndices_inZone {fuel : ℕ} (hz : ZoneInv z fl handed) (hb : b ∈ handed) :
    ∀ i ∈ freeIndices fuel b z, InZone z i := by
  induction fuel generalizing z fl handed b with
  | zero =>
    intro i hi
    exact absurd hi List.not_mem_nil
  | succ fuel ih =>
    intro i hi
    unfold freeIndices at hi
    split at hi
    · exact absurd hi List.not_mem_nil
    · next hgo =>
      have hlt := hz.handed_lt hb
      have ho : orderOf z b < maxOrder := not_le.mp fun h => hgo (.inr h)
      have hal : 2 ^ orderOf z b ∣ b := hz.tiling.aligned b (.inr hb)
      rcases List.mem_cons.mp hi with hi | hi
      · -- below the top order a whole pair of buddies fits, because the zone is made of top blocks
        have hwhole : 2 ^ (orderOf z b + 1) ∣ z.totPages := (Nat.pow_dvd_pow 2 ho).trans hz.whole
        have hq := buddy_lt hal hwhole hlt
        have hpos : 0 < 2 ^ orderOf z b := by positivity
        have heq : i = (buddy b (orderOf z b) : ℕ) := hi.trans (neighbourIndex_eq hz hlt hal)
        rw [heq]
        exact inZone_natCast (by omega)
      · rcases calcFreeBuddy_spec hz hb with ⟨hnone, -⟩ | ⟨-, hsome, hqf, hqo⟩
        · rw [hnone] at hi
          exact absurd hi List.not_mem_nil
        · rw [hsome] at hi
          exact ih (zoneInv_mergeBlocks hz hb rfl rfl hqf hqo ho) (Finset.mem_insert_self ..) i hi

end Bounds

/-- No call of a run leaves the headers of the zone, and only exhaustion stops one. -/
theorem buddy_in_bounds {numPages pfnOffset : ℕ} {z : BuddyMemDesc} {handed : List ℕ}
    (hn : numPages < 2 ^ 32) (h : ZoneReach numPages pfnOffset z handed) :
    z.totPages < 2 ^ 32 ∧
    (∀ order ≤ maxOrder, (∀ i ∈ getIndices (maxOrder - order) z, InZone z i) ∧
      ((∃ b z', getBuddyNew order z = .ok b z') ∨
        getBuddyNew order z = .panic "No more buddy blocks available\n" z ∧
          ∀ o, order ≤ o → o ≤ maxOrder → freeListOf z o = [])) ∧
    ∀ b ∈ handed, (∀ i ∈ freeIndices (maxOrder + 1) b z, InZone z i) ∧
      ∃ z', freeBuddyNew b z = .ok () z' := by
  obtain ⟨⟨fl, hz⟩, -, ht, -⟩ := h.runInv
  refine ⟨?_, fun order ho => ⟨getIndices_inZone hz (Nat.sub_le ..), ?_⟩, fun b hb => ?_⟩
  · have hle := Nat.div_mul_le_self numPages (2 ^ maxOrder)
    omega
  · rcases getBuddyNew_spec hz ho with ⟨b, z', -, hget, -⟩ | ⟨hpanic, -, hempty⟩
    · exact .inl ⟨b, z', hget⟩
    · refine .inr ⟨hpanic, fun o hlo hhi => ?_⟩
      rw [freeListOf_eq hz hhi]
      exact hempty o hlo hhi
  · have hmem := List.mem_toFinset.mpr hb
    obtain ⟨z', -, hfree, -⟩ := freeBuddyNew_spec hz hmem
    exact ⟨freeIndices_inZone hz hmem, z', hfree⟩

theorem buddy_in_bounds_first_call : ∃ p z z', ZoneReach 1024 0 z [p] ∧ z.totPages < 2 ^ 32 ∧
    freeBuddyNew p z = .ok () z' := by
  obtain ⟨p, z, h⟩ := zoneReach_first_call
  obtain ⟨htot, -, hfree⟩ := buddy_in_bounds (by decide) h
  obtain ⟨z', hz'⟩ := (hfree p (List.mem_singleton_self p)).2
  exact ⟨p, z, z', h, htot, hz'⟩

end X86Osdev.Mem

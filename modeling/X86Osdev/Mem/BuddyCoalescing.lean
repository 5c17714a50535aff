import X86Osdev.Mem.BuddySplits

/-! Full coalescing: the free blocks of a zone are a function of the blocks handed out. -/

namespace X86Osdev.Mem
open CircularList DyadicTiling

def handedBlocks (z : BuddyMemDesc) (handed : List ℕ) : Set (ℕ × ℕ) :=
  {b | b.1 ∈ handed ∧ b.2 = (z.allBuddies b.1).order}

def SameFree (z z' : BuddyMemDesc) : Prop :=
  ∀ o ≤ maxOrder, ∀ p, p ∈ freeListOf z o ↔ p ∈ freeListOf z' o

def freeAll : List ℕ → BuddyMemDesc → Outcome BuddyMemDesc Unit
  | [], z => .ok () z
  | b :: bs, z => (freeBuddyNew b z).bind fun _ z => freeAll bs z

section Determined
variable {n off off' : ℕ} {z z' : BuddyMemDesc} {handed handed' : List ℕ}

theorem RunInv.free_of_free {fl fl' : ℕ → List ℕ} {H : Finset ℕ} (hz : ZoneInv z fl H)
    (hz' : ZoneInv z' fl' H) (htot : z.totPages = z'.totPages)
    (hord : ∀ h ∈ H, orderOf z h = orderOf z' h) {o p : ℕ} (ho : o ≤ maxOrder) (hp : p ∈ fl o) :
    p ∈ fl' o := by
  obtain ⟨hpf, hpo⟩ := hz.mem_freeHeads ho hp
  obtain ⟨hpf', hpo'⟩ := free_tile_unique hz.tiling (htot ▸ hz'.tiling) hz.joined hz'.joined
    hz.disjoint hz'.disjoint (fun q hq => hz.order_le q hq.1) (fun q hq => hz'.order_le q hq.1)
    hord hpf
  exact (hz'.listed o ho p).mpr ⟨hpf'.1, hpf'.2, hpo'.trans hpo⟩

theorem RunInv.sameFree (hi : RunInv n off z handed) (hi' : RunInv n off' z' handed')
    (h : handedBlocks z handed = handedBlocks z' handed') : SameFree z z' := by
  obtain ⟨⟨fl, hz⟩, -, ht, -⟩ := hi
  obtain ⟨⟨fl', hz'⟩, -, ht', -⟩ := hi'
  have hset : handed.toFinset = handed'.toFinset := by
    ext p
    rw [List.mem_toFinset, List.mem_toFinset]
    constructor
    · intro hp
      have hm : (p, orderOf z p) ∈ handedBlocks z handed := ⟨hp, rfl⟩
      exact (h ▸ hm).1
    · intro hp
      have hm : (p, orderOf z' p) ∈ handedBlocks z' handed' := ⟨hp, rfl⟩
      exact (h ▸ hm).1
  have hord : ∀ p ∈ handed.toFinset, orderOf z p = orderOf z' p := by
    intro p hp
    have hm : (p, orderOf z p) ∈ handedBlocks z handed := ⟨List.mem_toFinset.mp hp, rfl⟩
    exact (h ▸ hm).2
  rw [← hset] at hz'
  intro o ho p
  rw [freeListOf_eq hz ho, freeListOf_eq hz' ho]
  exact ⟨RunInv.free_of_free hz hz' (ht.trans ht'.symm) hord ho,
    RunInv.free_of_free hz' hz (ht'.trans ht.symm) (fun p hp => (hord p hp).symm) ho⟩

theorem RunInv.no_free_buddies (hi : RunInv n off z handed) {o p : ℕ} (ho : o < maxOrder)
    (hp : p ∈ freeListOf z o) : calcMyBuddyNewPfn (z.allBuddies p) o ∉ freeListOf z o := by
  obtain ⟨⟨fl, hz⟩, -, -, -⟩ := hi
  rw [freeListOf_eq hz ho.le] at hp ⊢
  obtain ⟨hpf, hpo⟩ := hz.mem_freeHeads ho.le hp
  rw [calcMyBuddyNewPfn_eq hz hpf.1]
  intro hq
  obtain ⟨hqf, hqo⟩ := hz.mem_freeHeads ho.le hq
  subst hpo
  exact hz.joined p hpf ho ⟨hqf, hqo⟩

end Determined

section FreeAll
variable {n off : ℕ}

/-- Handed-out blocks can be released in any order, and the other ones stay as they are. -/
theorem freeAll_spec {bs : List ℕ} : ∀ {z : BuddyMemDesc} {handed : List ℕ},
    RunInv n off z handed → bs.Nodup → bs ⊆ handed →
    ∃ z', freeAll bs z = .ok () z' ∧ RunInv n off z' (handed.diff bs) ∧
      handedBlocks z' (handed.diff bs) = {b ∈ handedBlocks z handed | b.1 ∉ bs} := by
  induction bs with
  | nil =>
    intro z handed hi _ _
    exact ⟨z, rfl, hi, by simp⟩
  | cons b bs ih =>
    intro z handed hi hnd hsub
    obtain ⟨hbs, hnd⟩ := List.nodup_cons.mp hnd
    have hb : b ∈ handed := hsub (List.mem_cons_self ..)
    obtain ⟨fl, hz⟩ := hi.inv
    obtain ⟨z', fl', hfree, -, hk⟩ := freeBuddyNew_spec hz (List.mem_toFinset.mpr hb)
    have hi' := runInv_step (.free hb hfree) hi
    have hsub' : bs ⊆ handed.erase b := fun x hx => by
      rw [hi.nodup.mem_erase_iff]
      exact ⟨fun e => hbs (e ▸ hx), hsub (List.mem_cons_of_mem _ hx)⟩
    obtain ⟨z'', hall, hi'', hblocks⟩ := ih hi' hnd hsub'
    rw [List.diff_cons]
    refine ⟨z'', by rw [freeAll, hfree, Outcome.bind_ok, hall], hi'', ?_⟩
    rw [hblocks]
    ext ⟨p, o⟩
    simp only [handedBlocks, Set.mem_ofPred_eq, hi.nodup.mem_erase_iff, List.mem_cons, not_or]
    constructor
    · rintro ⟨⟨⟨hpb, hp⟩, hpo⟩, hpbs⟩
      have hpm : p ∈ handed.toFinset.erase b :=
        Finset.mem_erase.mpr ⟨hpb, List.mem_toFinset.mpr hp⟩
      rw [hk.header p hpm] at hpo
      exact ⟨⟨hp, hpo⟩, hpb, hpbs⟩
    · rintro ⟨⟨hp, hpo⟩, hpb, hpbs⟩
      have hpm : p ∈ handed.toFinset.erase b :=
        Finset.mem_erase.mpr ⟨hpb, List.mem_toFinset.mpr hp⟩
      rw [hk.header p hpm]
      exact ⟨⟨⟨hpb, hp⟩, hpo⟩, hpbs⟩

end FreeAll

/-- The free blocks depend only on the blocks handed out: not on the calls that led there, and not
on the order of releases. -/
theorem buddy_coalescing {numPages pfnOffset : ℕ} {z : BuddyMemDesc} {handed : List ℕ}
    (h : ZoneReach numPages pfnOffset z handed) :
    (∀ o < maxOrder, ∀ p ∈ freeListOf z o,
      calcMyBuddyNewPfn (z.allBuddies p) o ∉ freeListOf z o) ∧
    (∀ off' z' handed', ZoneReach numPages off' z' handed' →
      handedBlocks z handed = handedBlocks z' handed' → SameFree z z') ∧
    (∀ bs bs' : List ℕ, bs.Nodup → bs ⊆ handed → bs.Perm bs' →
      ∃ z₁ z₂, freeAll bs z = .ok () z₁ ∧ freeAll bs' z = .ok () z₂ ∧ SameFree z₁ z₂) ∧
    (∀ bs : List ℕ, bs.Perm handed → ∀ m m' z₀ z₁,
      initBuddyNew numPages pfnOffset m z₀ = .ok () (m', z₁) →
      ∃ z', freeAll bs z = .ok () z' ∧ SameFree z' z₁) := by
  have hi := h.runInv
  refine ⟨fun o ho p hp => hi.no_free_buddies ho hp,
    fun off' z' handed' h' hb => hi.sameFree h'.runInv hb, ?_, ?_⟩
  · intro bs bs' hnd hsub hperm
    have hnd' : bs'.Nodup := hperm.nodup_iff.mp hnd
    have hsub' : bs' ⊆ handed := fun x hx => hsub (hperm.mem_iff.mpr hx)
    obtain ⟨z₁, hall₁, hi₁, hb₁⟩ := freeAll_spec hi hnd hsub
    obtain ⟨z₂, hall₂, hi₂, hb₂⟩ := freeAll_spec hi hnd' hsub'
    refine ⟨z₁, z₂, hall₁, hall₂, hi₁.sameFree hi₂ ?_⟩
    rw [hb₁, hb₂]
    ext b
    simp [hperm.mem_iff]
  · intro bs hperm m m' z₀ z₁ hinit
    obtain ⟨hz₁, ht, ho⟩ := initBuddyNew_ok hinit
    have hi₁ : RunInv (numPages / 2 ^ maxOrder * 2 ^ maxOrder) pfnOffset z₁ [] :=
      ⟨⟨_, hz₁⟩, List.nodup_nil, ht, ho⟩
    obtain ⟨z', hall, hi', hb⟩ := freeAll_spec hi (hperm.nodup_iff.mpr hi.nodup) hperm.subset
    refine ⟨z', hall, hi'.sameFree hi₁ ?_⟩
    rw [hb]
    ext ⟨p, o⟩
    simp only [handedBlocks, Set.mem_ofPred_eq, List.not_mem_nil, false_and, iff_false, not_and,
      not_not, and_imp]
    exact fun hp _ => hperm.mem_iff.mpr hp

/-- Two pages of a 4 MiB zone, released in the order of the requests and in the other one. -/
theorem buddy_coalescing_two_calls : ∃ p q z z₁ z₂, p ≠ q ∧ ZoneReach 1024 0 z [q, p] ∧
    freeAll [p, q] z = .ok () z₁ ∧ freeAll [q, p] z = .ok () z₂ ∧ SameFree z₁ z₂ := by
  obtain ⟨z₀, h₀, hz₀, -⟩ := zoneReach_init
  have hpages : freePages z₀ = 1024 := by
    have hlists : freePages z₀ = ∑ j ∈ Finset.range (maxOrder + 1), (topLists 1 j).length * 2 ^ j :=
      Finset.sum_congr rfl fun j hj => by rw [freeListOf_eq hz₀ (Nat.lt_succ_iff.mp (Finset.mem_range.mp hj))]
    rw [hlists]
    decide
  rcases h₀.runInv.getBuddyNew_page with ⟨p, z, hget, -, -, -, hi, hsum⟩ | ⟨-, hnone⟩
  swap
  · omega
  have h : ZoneReach 1024 0 z [p] := h₀.step (.get (Nat.zero_le _) hget)
  rcases hi.getBuddyNew_page with ⟨q, z', hget', -, hq, -⟩ | ⟨-, hnone⟩
  swap
  · omega
  have h' : ZoneReach 1024 0 z' [q, p] := h.step (.get (Nat.zero_le _) hget')
  have hpq : p ≠ q := fun e => hq (List.mem_singleton.mpr e.symm)
  have hsub : [p, q] ⊆ [q, p] := (List.Perm.swap q p []).subset
  obtain ⟨-, -, horder, -⟩ := buddy_coalescing h'
  obtain ⟨z₁, z₂, hall₁, hall₂, hsame⟩ := horder [p, q] [q, p]
    (List.nodup_cons.mpr ⟨fun e => hpq (List.mem_singleton.mp e), List.nodup_singleton q⟩) hsub (.swap q p [])
  exact ⟨p, q, z', z₁, z₂, hpq, h', hall₁, hall₂, hsame⟩

end X86Osdev.Mem

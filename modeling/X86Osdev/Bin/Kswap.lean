import X86Osdev.Mem.SlabInvariant

/-! The cache reaper of bin/kswap.c among the calls that other threads make between its steps. -/

namespace X86Osdev.Bin
open X86Osdev.Lib X86Osdev.Mem CircularList ByteMemory

/-- Where the walk stands; `pos` and `tem` are the variables of `list_for_each_safe`. -/
inductive Pc where
  | idle
  | next (pos : ℕ)
  | test (pos tem : ℕ)
  | unlink (pos tem : ℕ)
  | release (pos tem : ℕ)
  | advance (tem : ℕ)
deriving DecidableEq

def freeHead (h : Heap) : ℕ := cacheList h.kMemCache .free

/-- One step of the walk, from the end of one sleep to the start of the next. -/
def kswap : Pc → Heap → Outcome Heap Pc
  | .idle, h => .ok (.next (listNext h.mem (freeHead h))) h
  | .next pos, h => .ok (.test pos (listNext h.mem pos)) h
  | .test pos tem, h =>
    if pos = freeHead h then .ok .idle h
    else if Slab.pinned h.mem (Slab.ofHead pos) ≠ 0 then .ok (.advance tem) h
    else .ok (.unlink pos tem) h
  | .unlink pos tem, h =>
    .ok (.release pos tem) { h with mem := listRemove h.mem (Slab.head (Slab.ofHead pos)) }
  | .release pos tem, h => (kfreePage (Slab.ofHead pos) h).bind fun _ h => .ok (.advance tem) h
  | .advance tem, h => .ok (.next tem) h

structure Reaper where
  sys : Sys
  pc : Pc

def slabsAfter : Pc → List ℕ → List ℕ
  | .release pos _, slabs => slabs.erase (Slab.ofHead pos)
  | _, slabs => slabs

/-- A step of the walk, or a whole call of another thread; `allowed` restricts the sizes that other
threads ask for. -/
inductive KswapStep (allowed : Reaper → ℕ → Prop) : Reaper → Reaper → Prop
  | walk {st : Reaper} {pc : Pc} {h' : Heap} : kswap st.pc st.sys.heap = .ok pc h' →
      KswapStep allowed st ⟨⟨h', slabsAfter st.pc st.sys.slabs, st.sys.live⟩, pc⟩
  | salloc {st : Reaper} {size p : ℕ} {h' : Heap} : allowed st size → p ≠ 0 →
      salloc size st.sys.heap = .ok p h' →
      KswapStep allowed st ⟨⟨h', st.sys.slabs, ⟨p, size, .object⟩ :: st.sys.live⟩, st.pc⟩
  | sallocNull {st : Reaper} {size : ℕ} {h' : Heap} : salloc size st.sys.heap = .ok 0 h' →
      KswapStep allowed st ⟨st.sys.setHeap h', st.pc⟩
  | sfree {st : Reaper} {r : Region} {freed : Bool} {h' : Heap} : r ∈ st.sys.live →
      r.kind = .object → sfree r.ptr st.sys.heap = .ok freed h' →
      KswapStep allowed st ⟨⟨h', st.sys.slabs, st.sys.live.erase r⟩, st.pc⟩
  | createSlab {st : Reaper} {size s : ℕ} {noSleep : Bool} {h' : Heap} : 4 ≤ size →
      size ≤ maxSlabSize → createSlab size noSleep st.sys.heap = .ok s h' →
      KswapStep allowed st ⟨⟨h', s :: st.sys.slabs, st.sys.live⟩, st.pc⟩

/-- The walk starts in any state that the allocators can reach. -/
def KswapReach (allowed : Reaper → ℕ → Prop) (totalPages : ℕ) (st : Reaper) : Prop :=
  ∃ σ, HeapReach totalPages σ ∧ Relation.ReflTransGen (KswapStep allowed) ⟨σ, .idle⟩ st

/-- The nodes of the free list that the walk has in hand. -/
def Pc.inHand : Pc → List ℕ
  | .idle => []
  | .next pos => [pos]
  | .test pos tem => [pos, tem]
  | .unlink pos tem => [pos, tem]
  | .release _ tem => [tem]
  | .advance tem => [tem]

/-- `salloc(size)` is not served by a slab that the walk has in hand. -/
def SparesWalk (st : Reaper) (size : ℕ) : Prop :=
  ∀ s, findSlab size st.sys.heap = .ok (some s) st.sys.heap → Slab.head s ∉ st.pc.inHand

/-- The walk is on the free list, what it unlinks is unused, unpinned and on that list, and what it
gives to `kfree_page` is unused, unpinned and on no list. -/
structure WalkSafe (st : Reaper) : Prop where
  on_list : ∀ x ∈ st.pc.inHand, x = freeHead st.sys.heap ∨
    ∃ s ∈ cacheSlabs st.sys.heap .free, x = Slab.head s
  unlinks : ∀ pos tem, st.pc = .unlink pos tem →
    Slab.ofHead pos ∈ cacheSlabs st.sys.heap .free ∧
      Slab.alloc st.sys.heap.mem (Slab.ofHead pos) = 0 ∧
      Slab.pinned st.sys.heap.mem (Slab.ofHead pos) = 0
  releases : ∀ pos tem, st.pc = .release pos tem →
    Slab.ofHead pos ∈ st.sys.slabs ∧ (∀ l, Slab.ofHead pos ∉ cacheSlabs st.sys.heap l) ∧
      Slab.alloc st.sys.heap.mem (Slab.ofHead pos) = 0 ∧
      Slab.pinned st.sys.heap.mem (Slab.ofHead pos) = 0
  returns : ∃ pc h', kswap st.pc st.sys.heap = .ok pc h'

def OnFree (L : Layout) (c : Cache) (x : ℕ) : Prop :=
  x = cacheList L.kMemCache .free ∨ ∃ s ∈ c.lists .free, x = s + 16

def PhaseInv (L : Layout) (c : Cache) : Pc → Prop
  | .test pos tem => c.loose = none ∧ (pos = cacheList L.kMemCache .free ∨ tem ≠ pos)
  | .unlink pos tem => c.loose = none ∧ tem ≠ pos ∧ pos ≠ cacheList L.kMemCache .free ∧
      ∀ s, pos = s + 16 → (c.view s).pinned = 0
  | .release pos _ => ∃ s, c.loose = some s ∧ pos = s + 16 ∧ (c.view s).pinned = 0
  | _ => c.loose = none

structure WalkInv (L : Layout) (c : Cache) (st : Reaper) : Prop where
  sys : SysInv L c st.sys
  hand : ∀ x ∈ st.pc.inHand, OnFree L c x
  phase : PhaseInv L c st.pc

section Walk
variable {L : Layout} {c c' : Cache} {st : Reaper} {σ' : Sys} {x s : ℕ} {served : Option ℕ}

theorem OnFree.mem_nodes (hi : SysInv L c st.sys) (hx : OnFree L c x) :
    x ∈ cacheList st.sys.heap.kMemCache .free :: listNodes c .free := by
  rw [hi.heap.kMemCache]
  rcases hx with rfl | ⟨s, hs, rfl⟩
  · exact List.mem_cons_self ..
  · exact List.mem_cons_of_mem _ ((mem_listNodes _).mpr hs)

theorem onFree_of_mem (hi : SysInv L c st.sys)
    (hx : x ∈ cacheList st.sys.heap.kMemCache .free :: listNodes c .free) : OnFree L c x := by
  rw [hi.heap.kMemCache] at hx
  rcases List.mem_cons.mp hx with rfl | hx
  · exact .inl rfl
  · obtain ⟨s, hs, rfl⟩ := List.mem_map.mp hx
    exact .inr ⟨s, hs, rfl⟩

theorem OnFree.listNext (hi : SysInv L c st.sys) (hx : OnFree L c x) :
    OnFree L c (listNext st.sys.heap.mem x) :=
  onFree_of_mem hi ((hi.heap.cache.rings.carries .free).next_node (hx.mem_nodes hi))

/-- A slab on the free list is nobody's. -/
theorem free_slab (hi : SysInv L c st.sys) (hs : s ∈ c.lists .free) :
    s ∈ c.slabs ∧ c.loose ≠ some s ∧ (c.view s).live = [] := by
  obtain ⟨hm, hl, hst⟩ := (hi.heap.cache.listed .free s).mp hs
  exact ⟨hm, hl, List.length_eq_zero_iff.mp ((c.view s).status_free.mp hst)⟩

theorem WalkInv.quiet (hi : WalkInv L c st) (hi' : SysInv L c' σ') (hq : Quiet c c' served)
    (hserved : ∀ s ∈ c.slabs, served = some s → s + 16 ∉ st.pc.inHand)
    (hloose : ∀ s, c.loose = some s → served ≠ some s) : WalkInv L c' ⟨σ', st.pc⟩ := by
  obtain ⟨hsys, hhand, hphase⟩ := hi
  refine ⟨hi', fun x hx => ?_, ?_⟩
  · rcases hhand x hx with rfl | ⟨s, hs, rfl⟩
    · exact .inl rfl
    · obtain ⟨hm, hl, hnil⟩ := free_slab hsys hs
      obtain ⟨hm', hview⟩ := hq.same s hm hnil fun e => hserved s hm e hx
      refine .inr ⟨s, (hi'.heap.cache.listed .free s).mpr ⟨hm', hq.loose ▸ hl, ?_⟩, rfl⟩
      rw [hview]
      exact (c.view s).status_free.mpr (List.length_eq_zero_iff.mpr hnil)
  · cases hpc : st.pc with
    | unlink pos tem =>
      rw [hpc] at hphase hhand hserved
      obtain ⟨hl, hne, hpos, hpin⟩ := hphase
      refine ⟨hq.loose.trans hl, hne, hpos, fun s hs => ?_⟩
      rcases hhand pos (List.mem_cons_self ..) with e | ⟨t, ht, e⟩
      · exact absurd e hpos
      · obtain rfl : s = t := Nat.add_right_cancel (hs.symm.trans e)
        obtain ⟨hm, -, hnil⟩ := free_slab hsys ht
        have hsame := hq.same s hm hnil fun e' => hserved s hm e' (hs ▸ List.mem_cons_self ..)
        rw [hsame.2]
        exact hpin s hs
    | release pos tem =>
      rw [hpc] at hphase
      obtain ⟨s, hl, hpos, hpin⟩ := hphase
      obtain ⟨hm, hnil⟩ := hsys.heap.cache.loose s hl
      refine ⟨s, hq.loose.trans hl, hpos, ?_⟩
      rw [(hq.same s hm hnil (hloose s hl)).2]
      exact hpin
    | test pos tem =>
      rw [hpc] at hphase
      exact ⟨hq.loose.trans hphase.1, hphase.2⟩
    | idle | next pos | advance tem =>
      rw [hpc] at hphase
      exact hq.loose.trans hphase

theorem node_of_free (hi : SysInv L c st.sys) (hx : OnFree L c x)
    (hne : x ≠ freeHead st.sys.heap) : ∃ s ∈ c.lists .free, x = s + 16 ∧ Slab.ofHead x = s ∧
      Slab.head s = x := by
  rw [freeHead, hi.heap.kMemCache] at hne
  rcases hx with e | ⟨s, hs, rfl⟩
  · exact absurd e hne
  · have hsp := hi.heap.cache.placed s (free_slab hi hs).1
    exact ⟨s, hs, rfl, ofHead_eq hsp, slabHead_eq hsp⟩

theorem WalkInv.walk (hi : WalkInv L c st) : ∃ pc h' c', kswap st.pc st.sys.heap = .ok pc h' ∧
    WalkInv L c' ⟨⟨h', slabsAfter st.pc st.sys.slabs, st.sys.live⟩, pc⟩ := by
  obtain ⟨hsys, hhand, hphase⟩ := hi
  have hkc : freeHead st.sys.heap = cacheList L.kMemCache .free := by
    rw [freeHead, hsys.heap.kMemCache]
  have hhead : OnFree L c (freeHead st.sys.heap) := .inl hkc
  have hnext := fun {x : ℕ} (hx : OnFree L c x) => hx.listNext hsys
  cases hpc : st.pc with
  | idle =>
    rw [hpc] at hphase
    refine ⟨_, _, c, rfl, hsys, fun x hx => ?_, hphase⟩
    rw [List.mem_singleton.mp hx]
    exact hnext hhead
  | next pos =>
    rw [hpc] at hphase hhand
    have hpos := hhand pos (List.mem_singleton_self pos)
    refine ⟨_, _, c, rfl, hsys, fun x hx => ?_, hphase, ?_⟩
    · rcases List.mem_pair.mp hx with rfl | rfl
      · exact hpos
      · exact hnext hpos
    · -- the saved successor of a slab is another node, so it outlives the unlinking
      by_cases hp : pos = freeHead st.sys.heap
      · exact .inl (hp.trans hkc)
      · obtain ⟨s, hs, rfl, -, -⟩ := node_of_free hsys hpos hp
        exact .inr ((hsys.heap.cache.rings.carries .free).next_ne ((mem_listNodes _).mpr hs))
  | test pos tem =>
    rw [hpc] at hphase hhand
    obtain ⟨hl, hne⟩ := hphase
    have htem := hhand tem (List.mem_cons_of_mem _ (List.mem_singleton_self tem))
    simp only [kswap]
    by_cases hp : pos = freeHead st.sys.heap
    · rw [if_pos hp]
      exact ⟨_, _, c, rfl, hsys, fun x hx => absurd hx List.not_mem_nil, hl⟩
    · obtain ⟨s, hs, hps, hof, -⟩ := node_of_free hsys (hhand pos (List.mem_cons_self ..)) hp
      have hm := (hsys.heap.cache.slab s (free_slab hsys hs).1).fixed
      rw [if_neg hp, hof, hm.pinned_eq]
      by_cases hpin : (c.view s).pinned = 0
      · rw [if_neg (not_not.mpr hpin)]
        refine ⟨_, _, c, rfl, hsys, hhand, hl, ?_, hkc ▸ hp, fun t ht => ?_⟩
        · exact hne.resolve_left fun e => hp (e.trans hkc.symm)
        · obtain rfl : t = s := Nat.add_right_cancel (ht.symm.trans hps)
          exact hpin
      · rw [if_pos hpin]
        refine ⟨_, _, c, rfl, hsys, fun x hx => ?_, hl⟩
        rw [List.mem_singleton.mp hx]
        exact htem
  | unlink pos tem =>
    rw [hpc] at hphase hhand
    obtain ⟨hl, hne, hp, hpin⟩ := hphase
    obtain ⟨s, hs, hps, hof, hheads⟩ := node_of_free hsys (hhand pos (List.mem_cons_self ..))
      (hkc ▸ hp)
    refine ⟨_, _, c.unlink s, rfl, ?_, fun x hx => ?_, s, rfl, hps, hpin s hps⟩
    · rw [hof]
      exact hsys.unlinkSlab hl hs
    · rw [List.mem_singleton.mp hx]
      rcases hhand tem (List.mem_cons_of_mem _ (List.mem_singleton_self tem)) with e | ⟨t, ht, e⟩
      · exact .inl e
      · have hts : t ≠ s := fun e' => hne (by rw [e, hps, e'])
        exact .inr ⟨t, (List.mem_erase_of_ne hts).mpr ht, e⟩
  | release pos tem =>
    rw [hpc] at hphase hhand
    obtain ⟨s, hl, hps, -⟩ := hphase
    obtain ⟨hs, -⟩ := hsys.heap.cache.loose s hl
    have hof : Slab.ofHead pos = s := by
      rw [hps]
      exact ofHead_eq (hsys.heap.cache.placed s hs)
    obtain ⟨h', hok, hsys'⟩ := hsys.dropSlab hl
    refine ⟨.advance tem, h', c.drop s, ?_, ?_, fun x hx => ?_, rfl⟩
    · simp only [kswap, hof, hok, Outcome.bind_ok]
    · simp only [slabsAfter, hof]
      exact hsys'
    · rw [List.mem_singleton.mp hx]
      exact hhand tem (List.mem_singleton_self tem)
  | advance tem =>
    rw [hpc] at hphase hhand
    exact ⟨_, _, c, rfl, hsys, hhand, hphase⟩

theorem WalkInv.spares (hi : WalkInv L c st) {size : ℕ} (hs : SparesWalk st size) :
    ∀ s ∈ c.slabs, c.find size = some s → s + 16 ∉ st.pc.inHand := by
  intro s hm hf
  rw [← slabHead_eq (hi.sys.heap.cache.placed s hm)]
  exact hs s (by rw [findSlab_eq hi.sys.heap.cache, hf])

theorem walkInv_step {st' : Reaper} (hs : KswapStep SparesWalk st st') (hi : WalkInv L c st) :
    ∃ c', WalkInv L c' st' := by
  have hnone : ∀ s ∈ c.slabs, none = some s → s + 16 ∉ st.pc.inHand := fun s _ e => nomatch e
  cases hs with
  | walk hok =>
    obtain ⟨pc, h', c', hok', hinv⟩ := hi.walk
    obtain ⟨rfl, rfl⟩ := Outcome.ok.inj (hok.symm.trans hok')
    exact ⟨c', hinv⟩
  | salloc hal hp hok =>
    rcases hi.sys.salloc _ with ⟨s, i, h', c', hf, hok', hinv, -, hsv⟩ | ⟨-, hnull⟩
    · obtain ⟨rfl, rfl⟩ := Outcome.ok.inj (hok.symm.trans hok')
      refine ⟨c', hi.quiet hinv hsv.quiet (hf ▸ hi.spares hal) fun t hl e => ?_⟩
      exact (hi.sys.heap.cache.find_some (hf.trans e)).2.1 hl
    · exact absurd (Outcome.ok.inj (hok.symm.trans hnull)).1 hp
  | sallocNull hok =>
    rcases hi.sys.salloc _ with ⟨s, i, h', c', -, hok', -⟩ | ⟨-, hnull⟩
    · cases (Outcome.ok.inj (hok.symm.trans hok')).1
    · obtain ⟨-, rfl⟩ := Outcome.ok.inj (hok.symm.trans hnull)
      exact ⟨c, hi⟩
  | sfree hr hk hok =>
    obtain ⟨h', c', hok', -, hinv, hq⟩ := hi.sys.sfree hr hk
    obtain ⟨-, rfl⟩ := Outcome.ok.inj (hok.symm.trans hok')
    exact ⟨c', hi.quiet hinv hq hnone fun s _ e => nomatch e⟩
  | createSlab h4 hz hok =>
    rcases hi.sys.createSlab h4 hz _ with ⟨s, h', hok', hinv, hq⟩ | ⟨h', hpanic⟩
    · obtain ⟨rfl, rfl⟩ := Outcome.ok.inj (hok.symm.trans hok')
      exact ⟨_, hi.quiet hinv hq hnone fun s _ e => nomatch e⟩
    · cases hok.symm.trans hpanic

theorem walkInv_run {st' : Reaper} (hr : Relation.ReflTransGen (KswapStep SparesWalk) st st')
    (hi : WalkInv L c st) : ∃ c', WalkInv L c' st' := by
  induction hr with
  | refl => exact ⟨c, hi⟩
  | tail _ hs ih =>
    obtain ⟨c', hi'⟩ := ih
    exact walkInv_step hs hi'

theorem KswapReach.walkInv {totalPages : ℕ} (h : KswapReach SparesWalk totalPages st) :
    ∃ L c, WalkInv L c st := by
  obtain ⟨σ, hreach, hrun⟩ := h
  obtain ⟨L, c, hi, hl⟩ := hreach.sysInv
  exact ⟨L, walkInv_run hrun ⟨hi, fun x hx => absurd hx List.not_mem_nil, hl⟩⟩

theorem WalkInv.walkSafe (hi : WalkInv L c st) : WalkSafe st := by
  have hc := hi.sys.heap.cache
  have hkc : freeHead st.sys.heap = cacheList L.kMemCache .free := by
    rw [freeHead, hi.sys.heap.kMemCache]
  constructor
  · intro x hx
    rw [hc.cacheSlabs_eq]
    by_cases hp : x = freeHead st.sys.heap
    · exact .inl hp
    · obtain ⟨s, hs, -, -, hhead⟩ := node_of_free hi.sys (hi.hand x hx) hp
      exact .inr ⟨s, hs, hhead.symm⟩
  · intro pos tem hpc
    have hphase := hi.phase
    have hhand := hi.hand
    rw [hpc] at hphase hhand
    obtain ⟨-, -, hp, hpin⟩ := hphase
    obtain ⟨s, hs, hps, hof, -⟩ := node_of_free hi.sys (hhand pos (List.mem_cons_self ..)) (hkc ▸ hp)
    obtain ⟨hm, -, hnil⟩ := free_slab hi.sys hs
    have hslab := hc.slab s hm
    rw [hof, hc.cacheSlabs_eq, hslab.alloc_eq, hslab.fixed.pinned_eq]
    exact ⟨hs, List.length_eq_zero_iff.mpr hnil, hpin s hps⟩
  · intro pos tem hpc
    have hphase := hi.phase
    rw [hpc] at hphase
    obtain ⟨s, hl, hps, hpin⟩ := hphase
    obtain ⟨hm, hnil⟩ := hc.loose s hl
    have hslab := hc.slab s hm
    rw [hps, ofHead_eq (hc.placed s hm), hi.sys.slabs, hslab.alloc_eq, hslab.fixed.pinned_eq]
    refine ⟨hm, fun l => ?_, List.length_eq_zero_iff.mpr hnil, hpin⟩
    rw [hc.cacheSlabs_eq, hc.listed]
    exact fun h => h.2.1 hl
  · obtain ⟨pc, h', -, hok, -⟩ := hi.walk
    exact ⟨pc, h', hok⟩

end Walk

/-- The reaper is safe in every interleaving in which no `salloc` is served by a slab that the walk
has in hand. -/
theorem kswap_frees_unused {totalPages : ℕ} {st : Reaper}
    (h : KswapReach SparesWalk totalPages st) : WalkSafe st := by
  obtain ⟨L, c, hi⟩ := h.walkInv
  exact hi.walkSafe

section Boot
variable {L : Layout} {c : Cache} {σ : Sys} {s t : ℕ} {rest : List ℕ} {allowed : Reaper → ℕ → Prop}

theorem started_free {totalPages : ℕ} {h : Heap} (hst : Started totalPages h L c) :
    ∃ s t rest, c.lists .free = s :: t :: rest ∧ (c.view s).size = 4 ∧ (c.view s).pinned = 0 ∧
      (c.view t).size = 8 ∧ (c.view t).pinned = 0 := by
  have hspecs := hst.fresh.specs
  rw [← hst.fresh.free] at hspecs
  match hfree : c.lists .free with
  | [] =>
    rw [hfree] at hspecs
    cases hspecs
  | [s] =>
    rw [hfree] at hspecs
    cases (List.cons.inj hspecs).2
  | s :: t :: rest =>
    rw [hfree, List.map_cons, List.map_cons] at hspecs
    obtain ⟨hs, hspecs⟩ := List.cons.inj hspecs
    obtain ⟨ht, -⟩ := List.cons.inj hspecs
    exact ⟨s, t, rest, rfl, congrArg Prod.fst hs, congrArg Prod.snd hs, congrArg Prod.fst ht, congrArg Prod.snd ht⟩

/-- Some steps of the walk: it has read `tem` behind the unpinned slab `s` and goes on to unlink `s`. -/
theorem walk_to_unlink (hi : SysInv L c σ) (hs : s ∈ c.slabs) (hpin : (c.view s).pinned = 0) :
    Relation.ReflTransGen (KswapStep allowed) ⟨σ, .next (s + 16)⟩
      ⟨σ, .unlink (s + 16) (listNext σ.heap.mem (s + 16))⟩ := by
  have hsp := hi.heap.cache.placed s hs
  have hm := (hi.heap.cache.slab s hs).fixed
  have hne : s + 16 ≠ freeHead σ.heap := head_ne hi.heap.cache.fits hsp .free
  refine .tail (.single (.walk rfl)) (.walk ?_)
  simp only [kswap, if_neg hne, ofHead_eq hsp, hm.pinned_eq, hpin, ne_eq, not_true_eq_false,
    if_false]

theorem walk_start (hi : SysInv L c σ) (hfree : c.lists .free = s :: t :: rest)
    (hpin : (c.view s).pinned = 0) :
    Relation.ReflTransGen (KswapStep allowed) ⟨σ, .idle⟩ ⟨σ, .unlink (s + 16) (t + 16)⟩ := by
  have hcar := hi.heap.cache.rings.carries .free
  rw [listNodes, hfree] at hcar
  have hfirst : listNext σ.heap.mem (freeHead σ.heap) = s + 16 := hcar.next_head
  have hsecond : listNext σ.heap.mem (s + 16) = t + 16 :=
    @Carries.next_eq _ _ _ _ [] _ hcar
  have hs : s ∈ c.slabs := (@free_slab _ _ ⟨σ, .idle⟩ _ hi (hfree ▸ List.mem_cons_self ..)).1
  have hwalk := @walk_to_unlink _ _ _ _ allowed hi hs hpin
  rw [hsecond] at hwalk
  refine .head (.walk ?_) hwalk
  rw [kswap, hfirst]

end Boot

/-- The walk has come to the slab for four bytes, and another thread takes a chunk of the next one before the walk
reads its successor. -/
theorem kswap_frees_unused_boot : ∃ (st : Reaper) (pos tem : ℕ) (r : Region), KswapReach SparesWalk 114688 st ∧
    st.sys.live = [r] ∧ st.pc = .release pos tem ∧ WalkSafe st := by
  obtain ⟨L, c, h, hst, hreach⟩ := heapReach_boot
  have hi := hst.sysInv
  obtain ⟨s, t, rest, hfree, hfour, hpin, height, -⟩ := started_free hst
  have hs : s ∈ c.lists .free := hfree ▸ List.mem_cons_self ..
  have ht : t ∈ c.lists .free := hfree ▸ List.mem_cons_of_mem _ (List.mem_cons_self ..)
  obtain ⟨hsm, -, -⟩ := @free_slab _ _ ⟨_, .idle⟩ _ hi hs
  obtain ⟨htm, -, -⟩ := @free_slab _ _ ⟨_, .idle⟩ _ hi ht
  have hts : t ≠ s := by
    rintro rfl
    rw [hfour] at height
    cases height
  have hcar := hi.heap.cache.rings.carries .free
  rw [listNodes, hfree] at hcar
  have hfirst : listNext h.mem (freeHead h) = s + 16 := hcar.next_head
  have hwalk : KswapStep SparesWalk ⟨⟨h, c.slabs, []⟩, .idle⟩ ⟨⟨h, c.slabs, []⟩, .next (s + 16)⟩ :=
    .walk (by rw [kswap, hfirst])
  have hfind : c.find 8 = some t := by simp [Cache.find, hst.fresh.used, hfree, hfour, height]
  have hspares : SparesWalk ⟨⟨h, c.slabs, []⟩, .next (s + 16)⟩ 8 := by
    intro t' ht'
    rw [findSlab_eq hi.heap.cache, hfind] at ht'
    obtain rfl := Option.some.inj (Outcome.ok.inj ht').1
    rw [slabHead_eq (hi.heap.cache.placed t htm)]
    exact fun hmem => hts (Nat.add_right_cancel (List.mem_singleton.mp hmem))
  rcases hi.salloc 8 with ⟨t', i, h₁, c₁, hfind', hok, hi₁, -, hsv⟩ | ⟨hnone, -⟩
  swap
  · cases hfind.symm.trans hnone
  obtain rfl := Option.some.inj (hfind.symm.trans hfind')
  have hpin₁ : (c₁.view s).pinned = 0 := by
    rw [hsv.other s hsm hts.symm]
    exact hpin
  have hsm₁ : s ∈ c₁.slabs := hi₁.slabs ▸ hsm
  have hrun := (Relation.ReflTransGen.single hwalk).tail (.salloc hspares (Nat.succ_ne_zero _) hok)
  have hreach' : KswapReach SparesWalk 114688 _ :=
    ⟨_, hreach, (hrun.trans (walk_to_unlink hi₁ hsm₁ hpin₁)).tail (.walk rfl)⟩
  exact ⟨_, _, _, _, hreach', rfl, rfl, kswap_frees_unused hreach'⟩

/-- While `kfree_page` is busy with the first slab, `salloc(8)` is served by the second one, and that
one is freed next with a live object in it. -/
theorem kswap_frees_used : ∃ (st : Reaper) (pos tem : ℕ),
    KswapReach (fun _ _ => True) 114688 st ∧ st.pc = .release pos tem ∧
      0 < Slab.alloc st.sys.heap.mem (Slab.ofHead pos) := by
  obtain ⟨L, c, h, hst, hreach⟩ := heapReach_boot
  have hi := hst.sysInv
  obtain ⟨s, t, rest, hfree, -, hpin, hsize, hpin'⟩ := started_free hst
  have hs : s ∈ c.lists .free := hfree ▸ List.mem_cons_self ..
  have ht : t ∈ c.lists .free := hfree ▸ List.mem_cons_of_mem _ (List.mem_cons_self ..)
  obtain ⟨hsm, -, -⟩ := @free_slab _ _ ⟨_, .idle⟩ _ hi hs
  obtain ⟨htm, -, -⟩ := @free_slab _ _ ⟨_, .idle⟩ _ hi ht
  have hts : t ≠ s := by
    have hnd := hi.heap.cache.nodup_list .free
    rw [hfree] at hnd
    exact fun e => (List.nodup_cons.mp hnd).1 (e ▸ List.mem_cons_self ..)
  -- the first slab is unlinked and given back
  have hsp := hi.heap.cache.placed s hsm
  have hi₁ := hi.unlinkSlab hst.fresh.loose hs
  obtain ⟨h₂, hok₂, hi₂⟩ := hi₁.dropSlab rfl
  have hstart := @walk_start _ _ _ _ _ _ (fun _ _ => True) hi hfree hpin
  have hrun₁ := hstart.tail (.walk rfl)
  simp only [ofHead_eq hsp] at hrun₁
  have hrun₂ := hrun₁.tail (c := ⟨⟨h₂, c.slabs.erase s, []⟩, .advance (t + 16)⟩) (by
    have hstep : kswap (.release (s + 16) (t + 16))
        { h with mem := listRemove h.mem (Slab.head s) } = .ok (.advance (t + 16)) h₂ := by
      rw [kswap, ofHead_eq hsp]
      exact congrArg (Outcome.bind · _) hok₂
    have hwalk := @KswapStep.walk (fun _ _ => True)
      ⟨⟨{ h with mem := listRemove h.mem (Slab.head s) }, c.slabs, []⟩,
        .release (s + 16) (t + 16)⟩ _ _ hstep
    simp only [slabsAfter, ofHead_eq hsp] at hwalk
    exact hwalk)
  -- another thread takes a chunk of the second slab
  have hfind : ((c.unlink s).drop s).find 8 = some t := by
    have hused : (c.lists .used).erase s = [] := by
      rw [hst.fresh.used]
      rfl
    have hrest : (c.lists .free).erase s = t :: rest := by
      rw [hfree, List.erase_cons_head]
    simp [Cache.find, Cache.unlink, Cache.drop, hused, hrest, hsize]
  rcases hi₂.salloc 8 with ⟨t', i, h₃, c₃, hfind', hok₃, hi₃, -, hsv⟩ | ⟨hnone, -⟩
  swap
  · rw [hfind] at hnone
    cases hnone
  obtain rfl : t' = t := Option.some.inj (hfind'.symm.trans hfind)
  have hrun₃ := hrun₂.tail (.salloc trivial (Nat.succ_ne_zero _) hok₃)
  -- the walk goes on to the second slab
  have hrun₄ := hrun₃.tail (.walk rfl)
  have hpin₃ : (c₃.view t').pinned = 0 :=
    (hsv.old_pinned ((List.mem_erase_of_ne hts).mpr htm)).trans hpin'
  have hrun₅ := (hrun₄.trans (walk_to_unlink hi₃ hsv.mem hpin₃)).tail (.walk rfl)
  refine ⟨_, _, _, ⟨_, hreach, hrun₅⟩, rfl, ?_⟩
  have hc₃ := hi₃.heap.cache
  have hsp₃ := hc₃.placed t' hsv.mem
  have hloose₃ : c₃.loose ≠ some t' := by
    rw [hsv.loose]
    exact (Option.some_ne_none t').symm
  obtain ⟨-, htouch⟩ := rings_listRemove hc₃.spaced hc₃.rings hc₃.nodesIn
    ((mem_listNodes _).mpr (hc₃.mem_own hsv.mem hloose₃))
  have halloc := (hc₃.slab_touches htouch hsv.mem).alloc_eq
  simp only [ofHead_eq hsp₃, slabHead_eq hsp₃]
  rw [halloc, hsv.live]
  exact Nat.succ_pos _

end X86Osdev.Bin

import X86Osdev.Mem.KfreeRouting

/-! The two locks of the heap over whole calls: what is taken and released, in which order. -/

namespace X86Osdev.Mem
open X86Osdev.Lib CircularList

inductive LockEvent where
  | take (l : LockName)
  | release (l : LockName)
deriving DecidableEq

def LockEvent.apply (held : LockName → Bool) : LockEvent → LockName → Bool
  | take l => Function.update held l true
  | release l => Function.update held l false

def heldAfter (held : LockName → Bool) (events : List LockEvent) : LockName → Bool :=
  events.foldl LockEvent.apply held

def everBoth : (LockName → Bool) → List LockEvent → Bool
  | held, [] => held .slabLock && held .kmemLock
  | held, e :: events => (held .slabLock && held .kmemLock) || everBoth (e.apply held) events

/-- The two early returns of `salloc` leave out the release. -/
def sallocLocks (size : ℕ) (h : Heap) : List LockEvent :=
  .take .slabLock ::
    match findIn h size .used with
    | none => []
    | some (some s) => if Slab.firstFree h.mem s = 0 then [] else [.release .slabLock]
    | some none =>
      match findIn h size .free with
      | none => []
      | some (some s) => if Slab.firstFree h.mem s = 0 then [] else [.release .slabLock]
      | some none => [.release .slabLock]

/-- Every path of `sfree` leads to `done`. -/
def sfreeLocks : List LockEvent := [.take .slabLock, .release .slabLock]

/-- The release is the last statement before the return. -/
def kallocPageLocks (order : ℕ) (h : Heap) : List LockEvent :=
  match kallocPage order h with
  | .ok _ _ => [.take .kmemLock, .release .kmemLock]
  | _ => [.take .kmemLock]

def createSlabLocks (size : ℕ) (noSleep : Bool) (h : Heap) : List LockEvent :=
  (if noSleep = true then [] else kallocPageLocks 0 h) ++
    match createSlab size noSleep h with
    | .ok _ _ => [.take .slabLock, .release .slabLock]
    | _ => []

def kmallocLocks (size : ℕ) (h : Heap) : List LockEvent :=
  if size ≤ maxSlabSize then
    let size := if size < 4 then 4 else size
    sallocLocks size h ++
      match salloc size h with
      | .ok out h =>
        if out ≠ 0 then []
        else
          createSlabLocks size false h ++
            match createSlab size false h with
            | .ok _ h => sallocLocks size h
            | _ => []
      | _ => []
  else kallocPageLocks (calcPageOrder size) h

def ReturnsUnlocked {α : Type} (h : Heap) (events : List LockEvent) (good : α → Prop)
    (x : Outcome Heap α) : Prop :=
  ∃ a h', x = .ok a h' ∧ good a ∧ (∀ l, h'.locks l = false) ∧
    heldAfter h.locks events = h'.locks ∧ everBoth h.locks events = false

/-- The call stops the machine for want of memory, and holds no lock but `kmem_lock`. -/
def StopsUnlocked {α : Type} (h : Heap) (events : List LockEvent) (x : Outcome Heap α) : Prop :=
  ∃ h', x = .panic outOfMemory h' ∧ h'.locks .slabLock = false ∧
    heldAfter h.locks events = h'.locks ∧ everBoth h.locks events = false

section Panics
variable {h h' : Heap} {order size : ℕ} {msg : String} {noSleep : Bool}

theorem kallocNosleep_panic_locks (hp : kallocNosleep order h = .panic msg h') :
    h'.locks = h.locks := by
  rcases Outcome.bind_eq_panic.mp hp with hp | ⟨p, s, -, hp⟩
  · obtain ⟨z, -, rfl⟩ := Outcome.lift_eq_panic.mp hp
    rfl
  · cases hp

theorem kallocPage_panic_locks (hp : kallocPage order h = .panic msg h') :
    h'.locks = Function.update h.locks .kmemLock true := by
  rcases Outcome.bind_eq_panic.mp hp with hp | ⟨_, h₁, hlock, hp⟩
  · unfold getLock at hp
    split at hp <;> cases hp
  · unfold getLock at hlock
    split at hlock
    · cases hlock
    · obtain ⟨-, rfl⟩ := Outcome.ok.inj hlock
      rcases Outcome.bind_eq_panic.mp hp with hp | ⟨_, _, -, hp⟩
      · exact kallocNosleep_panic_locks hp
      · cases hp

theorem createSlab_panic (hp : createSlab size noSleep h = .panic msg h') :
    (if noSleep = true then kallocNosleep 0 h else kallocPage 0 h) = .panic msg h' := by
  rcases Outcome.bind_eq_panic.mp hp with hp | ⟨s, h₁, -, hp⟩
  · exact hp
  · dsimp only at hp
    split at hp
    · cases hp
    · rcases Outcome.bind_eq_panic.mp hp with hp | ⟨-, h₂, -, hp⟩
      · unfold getLock at hp
        split at hp <;> cases hp
      · cases hp

end Panics

section Calls
variable {L : Layout} {c : Cache} {σ : Sys} {size s : ℕ} {l : CacheList}

/-- Every slab in a list has a free chunk: the two early returns are never taken. -/
theorem SysInv.firstFree_ne_zero (hi : SysInv L c σ) (hf : findIn σ.heap size l = some (some s)) :
    Slab.firstFree σ.heap.mem s ≠ 0 := by
  have hc := hi.heap.cache
  rw [findIn_eq hc] at hf
  have hmem := List.mem_of_find?_eq_some (Option.some.inj hf)
  have hs := ((hc.listed l s).mp hmem).1
  obtain ⟨i, chain, hch⟩ := List.exists_cons_of_ne_nil (c.view s).chain_ne_nil
  have hm := hc.slab s hs
  rw [hch] at hm
  have hff : Slab.firstFree σ.heap.mem s = bufAt s (c.view s).size i := hm.free.1
  have hge := bufAt_ge s (c.view s).size i
  omega

theorem SysInv.sallocLocks_eq (hi : SysInv L c σ) (size : ℕ) :
    sallocLocks size σ.heap = [.take .slabLock, .release .slabLock] := by
  unfold sallocLocks
  have hin : ∀ l, findIn σ.heap size l = some ((c.lists l).find? fun s => size == (c.view s).size) :=
    fun l => findIn_eq hi.heap.cache l
  have hused := hin .used
  have hfree := hin .free
  cases hu : findIn σ.heap size .used with
  | none =>
    rw [hu] at hused
    cases hused
  | some found =>
    cases found with
    | some s =>
      dsimp only
      rw [if_neg (hi.firstFree_ne_zero hu)]
    | none =>
      cases hf : findIn σ.heap size .free with
      | none =>
        rw [hf] at hfree
        cases hfree
      | some found =>
        cases found with
        | some s =>
          dsimp only
          rw [if_neg (hi.firstFree_ne_zero hf)]
        | none => rfl

theorem SysInv.locks_eq (hi : SysInv L c σ) : σ.heap.locks = fun _ => false :=
  funext hi.heap.unlocked

theorem createSlabLocks_ok {noSleep : Bool} {h h' : Heap} (hok : Mem.createSlab size noSleep h = .ok s h') :
    createSlabLocks size noSleep h =
      (if noSleep = true then [] else [.take .kmemLock, .release .kmemLock]) ++
        [.take .slabLock, .release .slabLock] := by
  obtain ⟨a, h₁, hpage, -⟩ := Outcome.bind_eq_ok.mp hok
  rw [createSlabLocks, hok]
  cases noSleep with
  | true => rfl
  | false =>
    have hpage : Mem.kallocPage 0 h = .ok a h₁ := hpage
    rw [kallocPageLocks, hpage]

theorem createSlabLocks_panic {noSleep : Bool} {h h' : Heap} {msg : String}
    (hp : Mem.createSlab size noSleep h = .panic msg h') :
    createSlabLocks size noSleep h = (if noSleep = true then [] else [.take .kmemLock]) ∧
      h'.locks = if noSleep = true then h.locks else Function.update h.locks .kmemLock true := by
  have hpage := createSlab_panic hp
  rw [createSlabLocks, hp]
  cases noSleep with
  | true => exact ⟨rfl, kallocNosleep_panic_locks hpage⟩
  | false =>
    have hpage : Mem.kallocPage 0 h = .panic msg h' := hpage
    rw [kallocPageLocks, hpage]
    exact ⟨rfl, kallocPage_panic_locks hpage⟩

theorem heldAfter_pairs (events : List LockName) :
    heldAfter (fun _ => false) (events.flatMap fun l => [.take l, .release l]) = fun _ => false := by
  induction events with
  | nil => rfl
  | cons l events ih =>
    have hback : Function.update (Function.update (fun _ : LockName => false) l true) l false =
        fun _ => false := by
      rw [Function.update_idem, Function.update_eq_self_iff]
    rw [List.flatMap_cons, heldAfter, List.foldl_append]
    change heldAfter (Function.update (Function.update (fun _ => false) l true) l false) _ = _
    rw [hback]
    exact ih

theorem returnsUnlocked_pairs {α : Type} {a : α} {h h' : Heap} {x : Outcome Heap α} {good : α → Prop}
    {events : List LockEvent} (locks : List LockName) (he : events = locks.flatMap fun l => [.take l, .release l])
    (hok : x = .ok a h') (ha : good a) (hl : h.locks = fun _ => false) (hl' : ∀ l, h'.locks l = false)
    (hapart : everBoth (fun _ => false) events = false) : ReturnsUnlocked h events good x := by
  refine ⟨a, h', hok, ha, hl', ?_, ?_⟩
  · rw [hl, he, heldAfter_pairs]
    exact (funext hl').symm
  · rw [hl]
    exact hapart

theorem SysInv.salloc_unlocked (hi : SysInv L c σ) (size : ℕ) :
    ReturnsUnlocked σ.heap (sallocLocks size σ.heap) (fun _ => True) (Mem.salloc size σ.heap) := by
  rw [hi.sallocLocks_eq]
  rcases hi.salloc size with ⟨s, i, h', c', -, hok, hi', -⟩ | ⟨-, hok⟩
  · exact returnsUnlocked_pairs [.slabLock] rfl hok trivial hi.locks_eq hi'.heap.unlocked rfl
  · exact returnsUnlocked_pairs [.slabLock] rfl hok trivial hi.locks_eq hi.heap.unlocked rfl

theorem SysInv.sfree_unlocked (hi : SysInv L c σ) (p : ℕ) :
    ReturnsUnlocked σ.heap sfreeLocks (fun _ => True) (Mem.sfree p σ.heap) := by
  have hlock := hi.heap.unlocked .slabLock
  by_cases hb : LooksLikeBuf σ.heap.mem p
  · obtain ⟨m', hok⟩ := sfree_accepted hlock hb
    exact returnsUnlocked_pairs [.slabLock] rfl hok trivial hi.locks_eq hi.heap.unlocked rfl
  · have hok := sfree_rejected hlock hb
    exact returnsUnlocked_pairs [.slabLock] rfl hok trivial hi.locks_eq hi.heap.unlocked rfl

theorem SysInv.createSlab_unlocked (hi : SysInv L c σ) (h4 : 4 ≤ size) (hz : size ≤ maxSlabSize)
    (noSleep : Bool) :
    ReturnsUnlocked σ.heap (createSlabLocks size noSleep σ.heap) (fun _ => True)
        (Mem.createSlab size noSleep σ.heap) ∨
      StopsUnlocked σ.heap (createSlabLocks size noSleep σ.heap) (Mem.createSlab size noSleep σ.heap) := by
  rcases hi.createSlab h4 hz noSleep with ⟨s, h', hok, hi', -⟩ | ⟨h', hpanic⟩
  · have hevents := createSlabLocks_ok hok
    rw [hevents]
    cases noSleep with
    | true =>
      exact .inl (returnsUnlocked_pairs [.slabLock] rfl hok trivial hi.locks_eq hi'.heap.unlocked rfl)
    | false =>
      exact .inl (returnsUnlocked_pairs [.kmemLock, .slabLock] rfl hok trivial hi.locks_eq
        hi'.heap.unlocked rfl)
  · obtain ⟨hevents, hlocks'⟩ := createSlabLocks_panic hpanic
    rw [hevents]
    rw [hi.locks_eq] at hlocks'
    refine .inr ⟨h', hpanic, ?_, ?_, ?_⟩
    · rw [hlocks']
      cases noSleep <;> rfl
    · rw [hi.locks_eq, hlocks']
      cases noSleep <;> rfl
    · rw [hi.locks_eq]
      cases noSleep <;> rfl

/-- `kmalloc` of a size that the cache serves: a second `salloc` finds the slab made for it. -/
theorem SysInv.kmalloc_unlocked (hi : SysInv L c σ) (h4 : 4 ≤ size) (hz : size ≤ maxSlabSize) :
    ReturnsUnlocked σ.heap (kmallocLocks size σ.heap) (· ≠ 0) (kmalloc size σ.heap) ∨
      StopsUnlocked σ.heap (kmallocLocks size σ.heap) (kmalloc size σ.heap) := by
  have hfour : (if size < 4 then 4 else size) = size := if_neg (not_lt.mpr h4)
  have hevents : kmallocLocks size σ.heap = [.take .slabLock, .release .slabLock] ++
      match Mem.salloc size σ.heap with
      | .ok out h =>
        if out ≠ 0 then []
        else
          createSlabLocks size false h ++
            match Mem.createSlab size false h with
            | .ok _ h => sallocLocks size h
            | _ => []
      | _ => [] := by
    rw [kmallocLocks, if_pos hz, hfour]
    dsimp only
    rw [hi.sallocLocks_eq]
  have hcall : kmalloc size σ.heap = (Mem.salloc size σ.heap).bind fun out h =>
      if out ≠ 0 then .ok out h else (Mem.createSlab size false h).bind fun _ h => Mem.salloc size h := by
    rw [kmalloc, if_pos hz, hfour]
  rcases hi.salloc size with ⟨s, i, h', c', -, hok, hi', -⟩ | ⟨-, hok⟩
  · -- a slab of that size had room
    have hne : bufAt s size i + 8 ≠ 0 := Nat.succ_ne_zero _
    rw [hok] at hevents hcall
    rw [Outcome.bind_ok, if_pos hne] at hcall
    dsimp only at hevents
    rw [if_pos hne] at hevents
    exact .inl (returnsUnlocked_pairs [.slabLock] hevents hcall hne hi.locks_eq hi'.heap.unlocked
      (hevents ▸ rfl))
  · -- none had: one slab is made, under `kmem_lock` and `slab_lock`, and `salloc` called again
    rw [hok] at hevents hcall
    rw [Outcome.bind_ok, if_neg (not_not_intro rfl)] at hcall
    dsimp only at hevents
    rw [if_neg (not_not_intro rfl)] at hevents
    rcases hi.createSlab h4 hz false with ⟨s, h₁, hcreate, hi₁, -⟩ | ⟨h', hpanic⟩
    · rw [createSlabLocks_ok hcreate, hcreate] at hevents
      dsimp only at hevents
      have hagain := hi₁.sallocLocks_eq size
      rw [hagain] at hevents
      rw [hcreate, Outcome.bind_ok] at hcall
      rcases hi₁.salloc size with ⟨t, i, h', c', -, hok', hi', -⟩ | ⟨-, hnull⟩
      · exact .inl (returnsUnlocked_pairs [.slabLock, .kmemLock, .slabLock, .slabLock] hevents
          (hcall.trans hok') (Nat.succ_ne_zero _) hi.locks_eq hi'.heap.unlocked (hevents ▸ rfl))
      · -- `kmalloc` does not return NULL
        rcases hi.kmalloc_small hz with ⟨p, h', c', hok', hp, -⟩ | ⟨h', hpanic⟩
        · exact absurd (Outcome.ok.inj (hok'.symm.trans (hcall.trans hnull))).1 hp
        · cases hpanic.symm.trans (hcall.trans hnull)
    · obtain ⟨hcreate, hlocks'⟩ := createSlabLocks_panic hpanic
      rw [hi.locks_eq] at hlocks'
      rw [hcreate, hpanic] at hevents
      rw [hpanic, Outcome.bind_panic] at hcall
      refine .inr ⟨h', hcall, ?_, ?_, ?_⟩
      · rw [hlocks']
        rfl
      · rw [hi.locks_eq, hlocks', hevents]
        funext l
        cases l <;> rfl
      · rw [hi.locks_eq, hevents]
        rfl

end Calls

/-- In every reachable state each call returns with both locks free, or finds no page. -/
theorem slab_lock_released {totalPages : ℕ} {σ : Sys} (h : HeapReach totalPages σ) :
    (∀ size, ReturnsUnlocked σ.heap (sallocLocks size σ.heap) (fun _ => True) (salloc size σ.heap)) ∧
    (∀ p, ReturnsUnlocked σ.heap sfreeLocks (fun _ => True) (sfree p σ.heap)) ∧
    (∀ size noSleep, 4 ≤ size → size ≤ 512 →
      ReturnsUnlocked σ.heap (createSlabLocks size noSleep σ.heap) (fun _ => True)
          (createSlab size noSleep σ.heap) ∨
        StopsUnlocked σ.heap (createSlabLocks size noSleep σ.heap) (createSlab size noSleep σ.heap)) ∧
    (∀ size, 4 ≤ size → size ≤ 512 →
      ReturnsUnlocked σ.heap (kmallocLocks size σ.heap) (· ≠ 0) (kmalloc size σ.heap) ∨
        StopsUnlocked σ.heap (kmallocLocks size σ.heap) (kmalloc size σ.heap)) ∧
    ∀ size l s, findIn σ.heap size l = some (some s) → Slab.firstFree σ.heap.mem s ≠ 0 := by
  obtain ⟨L, c, hi, -⟩ := h.sysInv
  exact ⟨hi.salloc_unlocked, hi.sfree_unlocked, fun size noSleep h4 hz => hi.createSlab_unlocked h4 hz noSleep,
    fun size h4 hz => hi.kmalloc_unlocked h4 hz, fun size l s hf => hi.firstFree_ne_zero hf⟩

theorem slab_lock_released_boot : ∃ σ : Sys, HeapReach 114688 σ ∧
    ReturnsUnlocked σ.heap (sallocLocks 4 σ.heap) (fun _ => True) (salloc 4 σ.heap) := by
  obtain ⟨L, c, h, -, hreach⟩ := heapReach_boot
  exact ⟨_, hreach, (slab_lock_released hreach).1 4⟩

/-- When no page is left, `kalloc_page` stops the machine with its own lock held. -/
theorem createSlab_stops_locked : ∃ (σ : Sys) (h' : Heap), HeapReach 114688 σ ∧
    createSlab 4 false σ.heap = .panic outOfMemory h' ∧ h'.locks .kmemLock = true := by
  obtain ⟨L, c, h₀, hst, hreach⟩ := heapReach_boot
  have hi₀ := hst.sysInv
  have hfit : SysInv.used L c ⟨h₀, c.slabs, []⟩ ≤ L.numPages := hi₀.heap.zone.pagesUsed_le
  obtain ⟨k, hk⟩ := Nat.exists_eq_add_of_le hfit
  obtain ⟨ps, σ, hrun, hi, -, -, hused⟩ := hi₀.kmalloc_pages (k := k) hk.ge
  have hfull : SysInv.used L c σ = L.numPages := hused.trans hk.symm
  rcases kallocPage_spec hi.heap.zone hi.heap.small (hi.heap.unlocked _) (Nat.zero_le maxOrder) with
    ⟨p, h', -, hrun', hpo, hord, -⟩ | ⟨h', hpanic⟩
  · -- one page more would exceed the zone
    have hsum : pagesUsed h'.kernelBuddyNew (p :: handedPages L c (blockPages σ.live)) =
        1 + SysInv.used L c σ := by
      rw [pagesUsed, List.map_cons, List.sum_cons, hpo, pow_zero]
      exact congrArg (1 + List.sum ·) (List.map_congr_left fun q hq => by rw [hord q hq])
    have hle := hrun'.pagesUsed_le
    omega
  · have hcall : createSlab 4 false σ.heap = .panic outOfMemory h' := by
      change (kallocPage 0 σ.heap).bind _ = _
      rw [hpanic, Outcome.bind_panic]
    have hlocks := (createSlabLocks_panic hcall).2
    refine ⟨σ, h', hreach.run hrun, hcall, ?_⟩
    rw [hlocks]
    rfl

end X86Osdev.Mem

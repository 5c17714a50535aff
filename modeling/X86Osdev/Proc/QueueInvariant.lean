import X86Osdev.Proc.SignalMoves
import Mathlib.Data.List.Perm.Subperm

/-! The scheduling queues hold only threads that are not reaped, each at most once. -/

namespace X86Osdev.Proc
open CircularList X86Osdev.Mem

/-- The `head` of every thread that is not reaped and in no queue. -/
def looseHeads (k : Machine) (E : Queue → List ℕ) : Set QueueNode :=
  {n | ∃ t ∈ k.allocated, n = .head t ∧ ∀ q, t ∉ E q}

/-- `E` lists the threads of each queue in order. -/
structure QueueInv (k : Machine) (E : Queue → List ℕ) : Prop where
  linkage : Linkage k.queues QueueNode.queue (fun q => (E q).map .head) (looseHeads k E)
  unreaped : ∀ q, ∀ t ∈ E q, t ∈ k.allocated
  procs : k.kThreads = k.allocated
  addresses : ∀ t ∈ k.allocated, t ≠ 0 ∧ t < 2 ^ 32
  nodup : k.allocated.Nodup

section Sequences
variable {E : Queue → List ℕ} {t u : ℕ} {q : Queue}

theorem head_injective : Function.Injective QueueNode.head := fun _ _ h => QueueNode.head.inj h

theorem without_map : without (fun q => (E q).map QueueNode.head) (.head t) =
    fun q => (without E t q).map QueueNode.head := by
  funext q
  exact (List.map_erase head_injective (E q)).symm

theorem movedHead_map : movedHead (fun q => (E q).map QueueNode.head) q (.head t) =
    fun j => (movedHead E q t j).map QueueNode.head := by
  funext j
  unfold movedHead
  rw [without_map]
  by_cases hj : j = q
  · subst hj
    rw [Function.update_self, Function.update_self, List.map_cons, List.map_erase head_injective]
  · rw [Function.update_of_ne hj, Function.update_of_ne hj]

theorem movedTail_map : movedTail (fun q => (E q).map QueueNode.head) q (.head t) =
    fun j => (movedTail E q t j).map QueueNode.head := by
  funext j
  unfold movedTail
  rw [without_map]
  by_cases hj : j = q
  · subst hj
    rw [Function.update_self, Function.update_self, List.map_append, List.map_erase head_injective]
    rfl
  · rw [Function.update_of_ne hj, Function.update_of_ne hj]

end Sequences

section Invariant
variable {k k' : Machine} {E : Queue → List ℕ} {t u : ℕ} {q : Queue}

theorem QueueInv.nodup_queue (h : QueueInv k E) (q : Queue) : (E q).Nodup :=
  (h.linkage.nodup q).of_map _

theorem QueueInv.queue_unique (h : QueueInv k E) {q q' : Queue} (hq : t ∈ E q) (hq' : t ∈ E q') :
    q = q' :=
  h.linkage.rings.mem_unique (List.mem_map_of_mem hq) (List.mem_map_of_mem hq')

/-- There are fewer things than addresses. -/
theorem length_lt_of_addresses {xs : List ℕ} (hnd : xs.Nodup) (haddr : ∀ x ∈ xs, x ≠ 0 ∧ x < 2 ^ 32) :
    xs.length < 2 ^ 32 := by
  have hsub : xs ⊆ (List.range (2 ^ 32)).erase 0 := by
    intro x hx
    exact (List.mem_erase_of_ne (haddr x hx).1).mpr (List.mem_range.mpr (haddr x hx).2)
  have hlen := (List.subperm_of_subset hnd hsub).length_le
  rw [List.length_erase_of_mem (List.mem_range.mpr (Nat.two_pow_pos 32)), List.length_range] at hlen
  omega

theorem QueueInv.short (h : QueueInv k E) (q : Queue) : (E q).length < listFuel := by
  have hlen := length_lt_of_addresses (h.nodup_queue q) fun t ht => h.addresses t (h.unreaped q t ht)
  unfold listFuel
  exact hlen

/-- A thread is in a queue or its `head` is linked to itself. -/
theorem placed_of_unreaped (E : Queue → List ℕ) (ht : t ∈ k.allocated) :
    QueueNode.head t ∈ looseHeads k E ∨ ∃ q, QueueNode.head t ∈ (E q).map QueueNode.head := by
  by_cases hin : ∃ q, t ∈ E q
  · obtain ⟨q, hq⟩ := hin
    exact .inr ⟨q, List.mem_map_of_mem hq⟩
  · exact .inl ⟨t, ht, rfl, fun q hq => hin ⟨q, hq⟩⟩

theorem QueueInv.congr (h : QueueInv k E) (hq : k'.queues = k.queues)
    (hp : k'.kThreads = k.kThreads) (ha : k'.allocated = k.allocated) : QueueInv k' E := by
  refine ⟨?_, ?_, ?_, ?_, ?_⟩
  · rw [hq]
    refine h.linkage.mono ?_
    rintro n ⟨t, ht, rfl, hout⟩
    exact ⟨t, ha ▸ ht, rfl, hout⟩
  · rw [ha]
    exact h.unreaped
  · rw [hp, ha, h.procs]
  · rw [ha]
    exact h.addresses
  · rw [ha]
    exact h.nodup

theorem QueueInv.quiet (h : QueueInv k E) (hq : Quiet k k') : QueueInv k' E :=
  h.congr hq.queues hq.kThreads hq.allocated

theorem looseHeads_moved {E' : Queue → List ℕ} (halloc : k'.allocated = k.allocated)
    (hmem : ∀ u, u ≠ t → (∀ q, u ∉ E' q) → ∀ q, u ∉ E q) (hin : t ∈ E' q) :
    looseHeads k' E' ⊆ looseHeads k E \ {.head t} := by
  rintro n ⟨u, hu, rfl, hout⟩
  have hut : u ≠ t := fun e => hout q (e ▸ hin)
  exact ⟨⟨u, halloc ▸ hu, rfl, hmem u hut hout⟩, fun e => hut (head_injective e)⟩

/-- `t` has been put into the queue `q`, at whichever end. -/
theorem QueueInv.moved {E' : Queue → List ℕ} {queues : Links QueueNode} (h : QueueInv k E)
    (ht : t ∈ k.allocated) (hmem : ∀ u j, u ∈ E' j ↔ (u = t ∧ j = q) ∨ (u ≠ t ∧ u ∈ E j))
    (hlink : Linkage queues QueueNode.queue (fun q => (E' q).map .head) (looseHeads k E \ {.head t})) :
    QueueInv { k with queues } E' := by
  refine ⟨hlink.mono ?_, fun j u hu => ?_, h.procs, h.addresses, h.nodup⟩
  · refine looseHeads_moved (q := q) rfl (fun u hut hout j hj => ?_) ((hmem t q).mpr (.inl ⟨rfl, rfl⟩))
    exact hout j ((hmem u j).mpr (.inr ⟨hut, hj⟩))
  · rcases (hmem u j).mp hu with ⟨rfl, _⟩ | ⟨_, hin⟩
    · exact ht
    · exact h.unreaped j u hin

theorem QueueInv.toHead (h : QueueInv k E) (ht : t ∈ k.allocated) (q : Queue) :
    QueueInv (k.toHead q t) (movedHead E q t) := by
  have hmove := h.linkage.moveHead (placed_of_unreaped E ht) q
  rw [movedHead_map] at hmove
  exact h.moved ht (fun u j => mem_movedHead (h.nodup_queue j)) hmove

theorem QueueInv.toTail (h : QueueInv k E) (ht : t ∈ k.allocated) (q : Queue) :
    QueueInv (k.toTail q t) (movedTail E q t) := by
  have hmove := h.linkage.moveTail (placed_of_unreaped E ht) q
  rw [movedTail_map] at hmove
  exact h.moved ht (fun u j => mem_movedTail (h.nodup_queue j)) hmove

theorem QueueInv.setState (h : QueueInv k E) (t : ℕ) (s : TaskState) : QueueInv (k.setState t s) E :=
  ⟨h.linkage, h.unreaped, h.procs, h.addresses, h.nodup⟩

def Move.after (E : Queue → List ℕ) : Move → Queue → List ℕ
  | .stop t => movedHead E .stopped t
  | .sleep t => movedHead E .sleep t
  | .wake t _ => movedTail E .running t
  | .bury _ => E

theorem QueueInv.play {m : Move} (h : QueueInv k E) (hm : m.Legal k) :
    QueueInv (m.play k) (m.after E) := by
  cases m with
  | stop t => exact (h.setState t .stopped).toHead hm.1 .stopped
  | sleep t => exact (h.setState t .interruptible).toHead hm.1 .sleep
  | wake t s => exact (h.setState t s).toTail hm .running
  | bury t => exact h.setState t .zombie

theorem Move.filter_after {m : Move} {p : ℕ → Bool} (hp : ∀ t, m.relinks t → p t = false) (q : Queue) :
    (m.after E q).filter p = (E q).filter p := by
  cases m with
  | stop t => exact filter_movedHead (hp t rfl)
  | sleep t => exact filter_movedHead (hp t rfl)
  | wake t s => exact filter_movedTail (hp t rfl)
  | bury t => rfl

theorem Move.mem_after_iff {m : Move} {t : ℕ} (hrel : ¬ m.relinks t) (q : Queue) :
    t ∈ m.after E q ↔ t ∈ E q := by
  have hfilter := m.filter_after (E := E) (p := fun u => u = t) (fun u hu => ?_) q
  · have hkept : ∀ l : List ℕ, t ∈ l ↔ t ∈ l.filter fun u => u = t := by simp
    rw [hkept (m.after E q), hfilter, ← hkept]
  · rw [decide_eq_false_iff_not]
    rintro rfl
    exact hrel hu

/-- A thread on some queue is on some queue after a move. -/
theorem QueueInv.mem_after {m : Move} {t : ℕ} (h : QueueInv k E) (ht : ∃ q, t ∈ E q) :
    ∃ q, t ∈ m.after E q := by
  by_cases hrel : m.relinks t
  · cases m with
    | stop u => exact ⟨.stopped, (mem_movedHead (h.nodup_queue _)).mpr (.inl ⟨hrel.symm, rfl⟩)⟩
    | sleep u => exact ⟨.sleep, (mem_movedHead (h.nodup_queue _)).mpr (.inl ⟨hrel.symm, rfl⟩)⟩
    | wake u s => exact ⟨.running, (mem_movedTail (h.nodup_queue _)).mpr (.inl ⟨hrel.symm, rfl⟩)⟩
    | bury u => exact hrel.elim
  · obtain ⟨q, hq⟩ := ht
    exact ⟨q, (m.mem_after_iff hrel q).mpr hq⟩

theorem QueueInv.moves_keep {ok : Move → Prop} {P : Machine → (Queue → List ℕ) → Prop}
    (h : QueueInv k E) (hP : P k E) (hquiet : ∀ k k' E, P k E → Quiet k k' → P k' E)
    (hplay : ∀ k m E, QueueInv k E → P k E → ok m → m.Legal k → P (m.play k) (m.after E))
    (hm : Moves ok k k') : ∃ E', QueueInv k' E' ∧ P k' E' := by
  induction hm with
  | quiet hq => exact ⟨E, h.quiet hq, hquiet _ _ _ hP hq⟩
  | @move k₁ k₂ m _ hok hl hq ih =>
    obtain ⟨E₁, h₁, hP₁⟩ := ih
    exact ⟨m.after E₁, (h₁.play hl).quiet hq, hquiet _ _ _ (hplay k₁ m E₁ h₁ hP₁ hok hl) hq⟩

theorem QueueInv.moves {ok : Move → Prop} (h : QueueInv k E) (hm : Moves ok k k') :
    ∃ E', QueueInv k' E' ∧ ∀ p : ℕ → Bool, (∀ m t, ok m → m.relinks t → p t = false) →
      ∀ q, (E' q).filter p = (E q).filter p := by
  refine h.moves_keep (P := fun _ E' => ∀ p : ℕ → Bool, (∀ m t, ok m → m.relinks t → p t = false) →
    ∀ q, (E' q).filter p = (E q).filter p) (fun _ _ _ => rfl) (fun _ _ _ hkept _ => hkept) ?_ hm
  intro k m E₁ _ hkept hok _ p hp q
  exact (Move.filter_after (fun t ht => hp m t hok ht) q).trans (hkept p hp q)

/-- Threads that are at most stopped again stay on the stopped queue. -/
theorem QueueInv.moves_stopped {ok : Move → Prop} {S : Set ℕ} (h : QueueInv k E)
    (hS : ∀ t ∈ S, t ∈ E .stopped) (hok : ∀ m, ok m → ∀ t ∈ S, m.relinks t → m = .stop t)
    (hm : Moves ok k k') : ∃ E', QueueInv k' E' ∧ ∀ t ∈ S, t ∈ E' .stopped := by
  refine h.moves_keep (P := fun _ E' => ∀ t ∈ S, t ∈ E' .stopped) hS (fun _ _ _ hS₁ _ => hS₁) ?_ hm
  intro k₁ m E₁ h₁ hS₁ hmok _ t ht
  have hnd := h₁.nodup_queue .stopped
  have hold := hS₁ t ht
  have hrel := hok m hmok t ht
  cases m with
  | stop u =>
    refine (mem_movedHead hnd).mpr ?_
    by_cases hut : t = u
    · exact .inl ⟨hut, rfl⟩
    · exact .inr ⟨hut, hold⟩
  | sleep u => exact (mem_movedHead hnd).mpr (.inr ⟨fun e => (nomatch hrel e.symm), hold⟩)
  | wake u s => exact (mem_movedTail hnd).mpr (.inr ⟨fun e => (nomatch hrel e.symm), hold⟩)
  | bury u => exact hold

theorem QueueInv.kill {f : ℕ} (h : QueueInv k E) (ht : t ∈ k.allocated)
    (hp : (k.threads t).pid ≠ idlePid) (hf : awoken t k = some f) :
    QueueInv (killProcess t k) (movedTail (movedHead E .stopped t) .running f) := by
  obtain ⟨k₁, hq, heq⟩ := killProcess_some hp hf
  have hstop : QueueInv ((Move.stop t).play k) (movedHead E .stopped t) :=
    QueueInv.play (m := .stop t) h ⟨ht, hp⟩
  rw [heq]
  refine QueueInv.play (m := .wake f (stateStopped t k f)) (hstop.quiet hq) ?_
  refine (congrArg (f ∈ ·) hq.allocated).mpr ?_
  rw [Move.play_allocated, ← h.procs]
  exact getThread_mem hf

end Invariant

section Lifetime
variable {k : Machine} {E : Queue → List ℕ} {t : ℕ}

theorem QueueInv.fresh (h : QueueInv k E) (ht : t ∉ k.allocated) :
    Unlinked QueueNode.queue (fun q => (E q).map QueueNode.head) (.head t) := by
  intro q hm
  rcases List.mem_cons.mp hm with e | e
  · cases e
  · obtain ⟨u, hu, e⟩ := List.mem_map.mp e
    exact ht (head_injective e ▸ h.unreaped q u hu)

theorem createThread_cases (t w e : ℕ) (k : Machine) :
    createThread t w e k = addThread t w e k ∨ createThread t w e k =
      (addThread t w e k).modify k.currentThread fun p => { p with children := t :: p.children } := by
  dsimp only [createThread]
  split
  · exact .inl rfl
  · exact .inr rfl

theorem createThread_fixed (t w e : ℕ) (k : Machine) :
    (createThread t w e k).queues = k.queues.listInit (.head t) ∧
      (createThread t w e k).allocated = t :: k.allocated ∧
      (createThread t w e k).kThreads = t :: k.kThreads ∧
      (createThread t w e k).currentThread = k.currentThread ∧
      (createThread t w e k).idleThread = k.idleThread ∧
      (createThread t w e k).nextPid = u32 (k.nextPid + 1) := by
  rcases createThread_cases t w e k with h | h
  · rw [h]
    exact ⟨rfl, rfl, rfl, rfl, rfl, rfl⟩
  · rw [h]
    exact ⟨rfl, rfl, rfl, rfl, rfl, rfl⟩

theorem createThread_allocated (t w e : ℕ) (k : Machine) :
    (createThread t w e k).allocated = t :: k.allocated := (createThread_fixed t w e k).2.1

theorem createThread_kThreads (t w e : ℕ) (k : Machine) :
    (createThread t w e k).kThreads = t :: k.kThreads := (createThread_fixed t w e k).2.2.1

theorem createThread_initThread (t w e : ℕ) (k : Machine) :
    (createThread t w e k).initThread = k.initThread := by
  rcases createThread_cases t w e k with h | h
  · rw [h]
    rfl
  · rw [h]
    rfl

theorem createThread_keeps {α : Type*} {f : Thread → α} (hf : ∀ p c, f { p with children := c } = f p)
    {t u : ℕ} (hu : u ≠ t) (w e : ℕ) (k : Machine) :
    f ((createThread t w e k).threads u) = f (k.threads u) := by
  have hadd : (addThread t w e k).threads u = k.threads u := Function.update_of_ne hu _ _
  rcases createThread_cases t w e k with h | h
  · rw [h, hadd]
  · rw [h, Keeps.modify _ _ (fun p => hf p _) u, hadd]

theorem createThread_new {α : Type*} {f : Thread → α} (hf : ∀ p c, f { p with children := c } = f p)
    (t w e : ℕ) (k : Machine) : f ((createThread t w e k).threads t) = f (newThread w e k) := by
  have hadd : (addThread t w e k).threads t = newThread w e k := Function.update_self ..
  rcases createThread_cases t w e k with h | h
  · rw [h, hadd]
  · rw [h]
    refine (Keeps.modify _ _ (fun p => hf p _) t).trans ?_
    rw [hadd]

theorem QueueInv.create (h : QueueInv k E) (ht : t ∉ k.allocated) (hne : t ≠ 0) (hlt : t < 2 ^ 32)
    (w e : ℕ) : QueueInv (createThread t w e k) E := by
  have hq := (createThread_fixed t w e k).1
  have ha := createThread_allocated t w e k
  have hp := createThread_kThreads t w e k
  refine ⟨?_, fun q u hu => ?_, ?_, ?_, ?_⟩
  · rw [hq]
    refine (h.linkage.listInit (h.fresh ht)).mono ?_
    rintro n ⟨u, hu, rfl, hout⟩
    rw [ha] at hu
    rcases List.mem_cons.mp hu with rfl | hu
    · exact .inl rfl
    · exact .inr ⟨u, hu, rfl, hout⟩
  · rw [ha]
    exact List.mem_cons_of_mem _ (h.unreaped q u hu)
  · rw [hp, ha, h.procs]
  · rw [ha]
    intro u hu
    rcases List.mem_cons.mp hu with rfl | hu
    · exact ⟨hne, hlt⟩
    · exact h.addresses u hu
  · rw [ha]
    exact List.nodup_cons.mpr ⟨ht, h.nodup⟩

theorem QueueInv.reap (h : QueueInv k E) (ht : t ∈ k.allocated) :
    QueueInv (reap t k) (without E t) := by
  have hmem : ∀ u, u ∈ k.allocated.erase t ↔ u ≠ t ∧ u ∈ k.allocated := fun u => h.nodup.mem_erase_iff
  refine ⟨?_, fun q u hu => ?_, ?_, fun u hu => h.addresses u ((hmem u).mp hu).2, h.nodup.erase t⟩
  · have hrem := (h.linkage.listRemove (placed_of_unreaped E ht)).1
    rw [without_map] at hrem
    refine hrem.mono ?_
    rintro n ⟨u, hu, rfl, hout⟩
    obtain ⟨hne, hu⟩ := (hmem u).mp hu
    refine ⟨⟨u, hu, rfl, fun q hq => hout q ?_⟩, fun e => hne (head_injective e)⟩
    exact (mem_without (h.nodup_queue q)).mpr ⟨hne, hq⟩
  · obtain ⟨hne, hin⟩ := (mem_without (h.nodup_queue q)).mp hu
    exact (hmem u).mpr ⟨hne, h.unreaped q u hin⟩
  · show k.kThreads.erase t = k.allocated.erase t
    rw [h.procs]

/-- The second `list_remove` of `exterminate` changes nothing. -/
theorem exterminateOne_eq (k : Machine) (t : ℕ) : exterminateOne (.head t) k =
    if (k.threads t).state = .zombie then reap t k else k := by
  have htwice : { Proc.reap t k with queues := (Proc.reap t k).queues.listRemove (.head t) } =
      Proc.reap t k := by
    unfold Proc.reap Machine.removeSibling
    simp only [listRemove_listRemove]
  by_cases hz : (k.threads t).state = .zombie
  · rw [if_pos hz]
    exact (if_neg (not_not.mpr hz)).trans htwice
  · rw [if_neg hz]
    exact if_pos hz

theorem reap_state (k : Machine) (t u : ℕ) : ((Proc.reap t k).threads u).state = (k.threads u).state := rfl

def doomed (k : Machine) (E : Queue → List ℕ) : List ℕ :=
  (E .stopped).filter fun t => (k.threads t).state == .zombie

theorem mem_foldl_reap {l : List ℕ} {u : ℕ} (hl : u ∉ l) (hu : u ∈ k.allocated) :
    u ∈ (l.foldl (fun k t => Proc.reap t k) k).allocated := by
  induction l generalizing k with
  | nil => exact hu
  | cons t l ih =>
    have hne : u ≠ t := fun e => hl (List.mem_cons.mpr (.inl e))
    refine ih (fun hm => hl (List.mem_cons_of_mem _ hm)) ?_
    exact (List.mem_erase_of_ne hne).mpr hu

theorem without_apply (E : Queue → List ℕ) (t : ℕ) (q : Queue) : without E t q = (E q).erase t := rfl

def zombies (k : Machine) (ts : List ℕ) : List ℕ := ts.filter fun t => (k.threads t).state == .zombie

structure Sweeping (k₀ : Machine) (E₀ : Queue → List ℕ) (kept rest : List ℕ) (k : Machine)
    (E : Queue → List ℕ) : Prop where
  inv : QueueInv k E
  split : E .stopped = kept ++ rest
  reaped : (zombies k rest).foldl (fun k t => Proc.reap t k) k =
    (doomed k₀ E₀).foldl (fun k t => Proc.reap t k) k₀
  queues : (fun q => (E q).filter fun t => t ∉ zombies k rest) =
    fun q => (E₀ q).filter fun t => t ∉ doomed k₀ E₀

section Sweeping
variable {k₀ : Machine} {E₀ : Queue → List ℕ} {kept rest : List ℕ} {x : ℕ}

theorem Sweeping.next (h : Sweeping k₀ E₀ kept (x :: rest) k E) :
    k.queues.next (.head x) = (rest.map QueueNode.head).headD (.queue .stopped) := by
  have hcarries := h.inv.linkage.rings.carries .stopped
  rw [h.split, List.map_append, List.map_cons] at hcarries
  exact hcarries.next_eq

theorem Sweeping.keep (h : Sweeping k₀ E₀ kept (x :: rest) k E) (hz : (k.threads x).state ≠ .zombie) :
    Sweeping k₀ E₀ (kept ++ [x]) rest k E := by
  have hrest : zombies k (x :: rest) = zombies k rest := List.filter_cons_of_neg (by simpa using hz)
  have hreaped := h.reaped
  have hqueues := h.queues
  rw [hrest] at hreaped hqueues
  exact ⟨h.inv, by rw [h.split, List.append_assoc, List.singleton_append], hreaped, hqueues⟩

theorem Sweeping.reap (h : Sweeping k₀ E₀ kept (x :: rest) k E) (hz : (k.threads x).state = .zombie) :
    Sweeping k₀ E₀ kept rest (Proc.reap x k) (without E x) := by
  have hrest : zombies k (x :: rest) = x :: zombies k rest := List.filter_cons_of_pos (by simpa using hz)
  have hsame : zombies (Proc.reap x k) rest = zombies k rest := by
    simp only [zombies, reap_state]
  have hx : x ∈ E .stopped := by
    rw [h.split]
    exact List.mem_append_right _ List.mem_cons_self
  have hnd := h.inv.nodup_queue .stopped
  rw [h.split] at hnd
  have hkept : x ∉ kept := fun hm => (List.disjoint_of_nodup_append hnd) hm List.mem_cons_self
  have hreaped := h.reaped
  rw [hrest, List.foldl_cons] at hreaped
  refine ⟨h.inv.reap (h.inv.unreaped _ x hx), ?_, by rwa [hsame], ?_⟩
  · rw [without_apply, h.split, List.erase_append_right _ hkept, List.erase_cons_head]
  · rw [← h.queues, hsame, hrest]
    funext q
    rw [without_apply, (h.inv.nodup_queue q).erase_eq_filter, List.filter_filter]
    refine List.filter_congr fun t _ => ?_
    by_cases htx : t = x
    · simp [htx]
    · simp [htx]

end Sweeping

/-- A pass of `exterminate` ends; it reaps the zombies of the stopped queue one after the other. -/
theorem exterminate_spec (h : QueueInv k E) :
    exterminate k = some ((doomed k E).foldl (fun k t => Proc.reap t k) k) ∧
      QueueInv ((doomed k E).foldl (fun k t => Proc.reap t k) k)
        (fun q => (E q).filter fun t => t ∉ doomed k E) := by
  -- `kept` are the threads that the loop has passed by, `rest` those that it still meets.
  let I : List QueueNode → Machine → Prop := fun nodes s =>
    ∃ kept rest E', nodes = rest.map QueueNode.head ∧ Sweeping k E kept rest s E'
  have hI₀ : I ((E .stopped).map QueueNode.head) k := ⟨[], E .stopped, E, rfl, h, rfl, rfl, rfl⟩
  have hfuel : ((E .stopped).map QueueNode.head).length < listFuel := by
    rw [List.length_map]
    exact h.short .stopped
  have hloop := forEachSafe_list (fun k n => k.queues.next n) exterminateOne (.queue .stopped) I ?_ ?_ ?_
    hI₀ hfuel
  · obtain ⟨k', hrun, kept, rest, E', hrest, hI⟩ := hloop
    obtain rfl := List.map_eq_nil_iff.mp hrest.symm
    have hend : k' = (doomed k E).foldl (fun k t => Proc.reap t k) k := hI.reaped
    have hqueues : E' = fun q => (E q).filter fun t => t ∉ doomed k E := by
      rw [← hI.queues]
      funext q
      simp [zombies]
    have hhead := (h.linkage.rings.carries .stopped).next_head
    refine ⟨?_, hend ▸ hqueues ▸ hI.inv⟩
    unfold exterminate
    simp only [hhead]
    rw [hrun, hend]
  · rintro n nodes s ⟨kept, rest, E', hrest, hI⟩ rfl
    obtain ⟨x, rest, -, hx, -⟩ := List.map_eq_cons_iff.mp hrest.symm
    cases hx
  · rintro n nodes s ⟨kept, rest, E', hrest, hI⟩
    obtain ⟨x, rest, rfl, rfl, rfl⟩ := List.map_eq_cons_iff.mp hrest.symm
    exact hI.next
  · rintro n nodes s ⟨kept, rest, E', hrest, hI⟩
    obtain ⟨x, rest, rfl, rfl, rfl⟩ := List.map_eq_cons_iff.mp hrest.symm
    rw [exterminateOne_eq]
    by_cases hz : (s.threads x).state = .zombie
    · rw [if_pos hz]
      exact ⟨kept, rest, without E' x, rfl, hI.reap hz⟩
    · rw [if_neg hz]
      exact ⟨kept ++ [x], rest, E', rfl, hI.keep hz⟩

end Lifetime

end X86Osdev.Proc

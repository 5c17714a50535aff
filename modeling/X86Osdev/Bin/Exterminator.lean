import X86Osdev.Kernel.RunQueue

/-! `exterminate` among other threads: its visits, the reaping, the second `list_remove` and the step to
the saved node, with any operations of other threads in between. -/

namespace X86Osdev.Bin
open CircularList X86Osdev.Mem X86Osdev.Proc X86Osdev.Kernel

/-- Where the loop of `exterminate` is; `tem` is the saved next node. -/
inductive SweepPc where
  | asleep
  | look (sq tem : QueueNode)
  | remove (doMe : ℕ) (tem : QueueNode)
  | advance (tem : QueueNode)

structure Sweep where
  k : Machine
  pc : SweepPc

def sweepStep (s : Sweep) : Sweep :=
  match s.pc with
  | .asleep =>
    let sq := s.k.queues.next (.queue .stopped)
    ⟨s.k, .look sq (s.k.queues.next sq)⟩
  | .look sq tem =>
    if sq = .queue .stopped then ⟨s.k, .asleep⟩
    else
      let doMe := threadOf sq
      if (s.k.threads doMe).state ≠ .zombie then ⟨s.k, .advance tem⟩
      else ⟨reap doMe s.k, .remove doMe tem⟩
  | .remove doMe tem =>
    ⟨{ s.k with queues := s.k.queues.listRemove (.head doMe) }, .advance tem⟩
  | .advance tem => ⟨s.k, .look tem (s.k.queues.next tem)⟩

/-- Without other threads the visit of a node is the body of the loop of `exterminate`. -/
theorem sweepStep_exterminateOne {k : Machine} {n tem : QueueNode} (hn : n ≠ .queue .stopped) :
    Relation.ReflTransGen (fun s s' => s' = sweepStep s) ⟨k, .look n tem⟩ ⟨exterminateOne n k, .advance tem⟩ := by
  by_cases hz : (k.threads (threadOf n)).state = .zombie
  · have hlook : sweepStep ⟨k, .look n tem⟩ = ⟨reap (threadOf n) k, .remove (threadOf n) tem⟩ := by
      simp [sweepStep, hn, hz]
    have hone : exterminateOne n k =
        { reap (threadOf n) k with queues := (reap (threadOf n) k).queues.listRemove (.head (threadOf n)) } := by
      simp [exterminateOne, hz]
    rw [hone]
    exact .tail (.single hlook.symm) rfl
  · have hlook : sweepStep ⟨k, .look n tem⟩ = ⟨k, .advance tem⟩ := by simp [sweepStep, hn, hz]
    have hone : exterminateOne n k = k := by simp [exterminateOne, hz]
    rw [hone]
    exact .single hlook.symm

theorem sweep_loop {fuel : ℕ} {pos n : QueueNode} {k k' : Machine}
    (h : forEachSafe (fun k n => k.queues.next n) exterminateOne (.queue .stopped) fuel pos n k = some k') :
    Relation.ReflTransGen (fun s s' => s' = sweepStep s) ⟨k, .look pos n⟩ ⟨k', .asleep⟩ := by
  induction fuel generalizing pos n k with
  | zero => cases h
  | succ fuel ih =>
    rw [forEachSafe] at h
    by_cases hpos : pos = .queue .stopped
    · rw [if_pos hpos] at h
      obtain rfl := Option.some.inj h
      exact .single (by simp [sweepStep, hpos])
    · rw [if_neg hpos] at h
      exact ((sweepStep_exterminateOne hpos).tail rfl).trans (ih h)

/-- A pass without other threads, from waking up to sleeping again, is `exterminate`. -/
theorem sweep_exterminate {k k' : Machine} (h : Proc.exterminate k = some k') :
    Relation.ReflTransGen (fun s s' => s' = sweepStep s) ⟨k, .asleep⟩ ⟨k', .asleep⟩ := .head rfl (sweep_loop h)

def InHand (t : ℕ) : SweepPc → Prop
  | .asleep => False
  | .look sq tem => sq = .head t ∨ tem = .head t
  | .remove _ tem => tem = .head t
  | .advance tem => tem = .head t

/-- At the second `list_remove` the neighbours that the freed node names are each other's neighbours. -/
def NeighboursMeet (s : Sweep) : Prop :=
  ∀ doMe tem, s.pc = .remove doMe tem →
    s.k.queues.next (s.k.queues.prev (.head doMe)) = s.k.queues.next (.head doMe) ∧
      s.k.queues.prev (s.k.queues.next (.head doMe)) = s.k.queues.prev (.head doMe)

/-- The operation takes no thread that the loop holds off the stopped queue. -/
def LeavesInHand (s : Sweep) (op : ThreadOp) : Prop :=
  ∀ t, InHand t s.pc → ∀ m, OpMove s.k m op → m.relinks t → m = .stop t

/-- A step of `exterminate` or an operation of another thread, as the conditions allow. -/
inductive SweepStep (meets : Sweep → Prop) (leaves : Sweep → ThreadOp → Prop) : Sweep → Sweep → Prop
  | sweep {s : Sweep} : meets s → SweepStep meets leaves s (sweepStep s)
  | other {s : Sweep} {op : ThreadOp} {k' : Machine} : leaves s op → op ≠ .exterminate →
      Refers s.k op → exec op s.k = some k' → SweepStep meets leaves s ⟨k', s.pc⟩

def SweepReach (meets : Sweep → Prop) (leaves : Sweep → ThreadOp → Prop) (s : Sweep) : Prop :=
  ∃ k₀, ThreadReach anyOp k₀ ∧
    Relation.ReflTransGen (SweepStep meets leaves) ⟨k₀, .asleep⟩ s

def OnStopped (E : Queue → List ℕ) (n : QueueNode) : Prop :=
  n = .queue .stopped ∨ ∃ t ∈ E .stopped, n = .head t

/-- What the loop holds is on the stopped queue; the saved node is not the one it looks at. -/
def HoldsStopped (E : Queue → List ℕ) : SweepPc → Prop
  | .asleep => True
  | .look sq tem => OnStopped E sq ∧ OnStopped E tem ∧ ∀ t, sq = .head t → tem ≠ .head t
  | .remove _ tem => OnStopped E tem
  | .advance tem => OnStopped E tem

section Steps
variable {s : Sweep} {E : Queue → List ℕ} {n : QueueNode} {k k' : Machine}

theorem onStopped_iff : OnStopped E n ↔ n ∈ QueueNode.queue .stopped :: (E .stopped).map .head := by
  rw [List.mem_cons, List.mem_map]
  constructor
  · rintro (h | ⟨t, ht, h⟩)
    · exact .inl h
    · exact .inr ⟨t, ht, h.symm⟩
  · rintro (h | ⟨t, ht, h⟩)
    · exact .inl h
    · exact .inr ⟨t, ht, h.symm⟩

theorem onStopped_next (h : QueueInv k E) (hn : OnStopped E n) : OnStopped E (k.queues.next n) := by
  rw [onStopped_iff] at hn ⊢
  exact (h.linkage.rings.carries .stopped).next_node hn

theorem holdsStopped_look (h : QueueInv k E) (hn : OnStopped E n) :
    HoldsStopped E (.look n (k.queues.next n)) := by
  refine ⟨hn, onStopped_next h hn, ?_⟩
  rintro t rfl
  rcases hn with hn | ⟨u, hu, hn⟩
  · cases hn
  · cases hn
    exact (h.linkage.rings.carries .stopped).next_ne (List.mem_map_of_mem hu)

theorem listRemove_eq_self {α : Type*} [DecidableEq α] {l : Links α} {n : α}
    (hnext : l.next (l.prev n) = l.next n) (hprev : l.prev (l.next n) = l.prev n) :
    l.listRemove n = l := by
  obtain ⟨next, prev⟩ := l
  simp only at hnext hprev
  simp [Links.listRemove, Links.setNext, Links.setPrev, Function.update_eq_self_iff, hnext, hprev]

theorem sweepStep_queues (h : QueueInv s.k E) (hpc : HoldsStopped E s.pc) (hmeet : NeighboursMeet s) :
    ∃ E', QueueInv (sweepStep s).k E' ∧ HoldsStopped E' (sweepStep s).pc ∧
      (E' = E ∨ ∃ z tem, s.pc = .look (.head z) tem ∧ z ∈ E .stopped ∧
        (s.k.threads z).state = .zombie ∧ E' = without E z) := by
  obtain ⟨k, pc⟩ := s
  have hhead : OnStopped E (.queue .stopped) := .inl rfl
  cases pc with
  | asleep => exact ⟨E, h, holdsStopped_look h (onStopped_next h hhead), .inl rfl⟩
  | look sq tem =>
    obtain ⟨hsq, htem, hne⟩ := hpc
    rcases hsq with rfl | ⟨z, hz, rfl⟩
    · have hend : sweepStep ⟨k, .look (.queue .stopped) tem⟩ = ⟨k, .asleep⟩ := by
        unfold sweepStep
        simp
      rw [hend]
      exact ⟨E, h, trivial, .inl rfl⟩
    · by_cases hstate : (k.threads z).state = .zombie
      · have hreap : sweepStep ⟨k, .look (.head z) tem⟩ = ⟨reap z k, .remove z tem⟩ := by
          unfold sweepStep
          simp [threadOf, hstate]
        rw [hreap]
        refine ⟨without E z, h.reap (h.unreaped _ z hz), ?_, .inr ⟨z, tem, rfl, hz, hstate, rfl⟩⟩
        rcases htem with rfl | ⟨t, ht, rfl⟩
        · exact .inl rfl
        · have htz : t ≠ z := fun e => hne z rfl (by rw [e])
          exact .inr ⟨t, (List.mem_erase_of_ne htz).mpr ht, rfl⟩
      · have hskip : sweepStep ⟨k, .look (.head z) tem⟩ = ⟨k, .advance tem⟩ := by
          unfold sweepStep
          simp [threadOf, hstate]
        rw [hskip]
        exact ⟨E, h, htem, .inl rfl⟩
  | remove doMe tem =>
    obtain ⟨hnext, hprev⟩ := hmeet doMe tem rfl
    have hsame : k.queues.listRemove (.head doMe) = k.queues := listRemove_eq_self hnext hprev
    have hstep : sweepStep ⟨k, .remove doMe tem⟩ = ⟨k, .advance tem⟩ := by
      dsimp only [sweepStep]
      rw [hsame]
    rw [hstep]
    exact ⟨E, h, hpc, .inl rfl⟩
  | advance tem => exact ⟨E, h, holdsStopped_look h hpc, .inl rfl⟩

theorem inHand_stopped {pc : SweepPc} (h : HoldsStopped E pc) {t : ℕ} (ht : InHand t pc) :
    t ∈ E .stopped := by
  have key : ∀ {n}, OnStopped E n → n = .head t → t ∈ E .stopped := by
    rintro n (rfl | ⟨u, hu, rfl⟩) hn
    · cases hn
    · cases hn
      exact hu
  cases pc with
  | asleep => exact ht.elim
  | look sq tem => exact ht.elim (key h.1) (key h.2.1)
  | remove doMe tem => exact key h ht
  | advance tem => exact key h ht

theorem holdsStopped_of_inHand {E' : Queue → List ℕ} {pc : SweepPc} (h : HoldsStopped E pc)
    (hin : ∀ t, InHand t pc → t ∈ E' .stopped) : HoldsStopped E' pc := by
  have key : ∀ {n}, OnStopped E n → (∀ t, n = .head t → t ∈ E' .stopped) → OnStopped E' n := by
    rintro n (rfl | ⟨u, _, rfl⟩) hn
    · exact .inl rfl
    · exact .inr ⟨u, hn u rfl, rfl⟩
  cases pc with
  | asleep => trivial
  | look sq tem =>
    obtain ⟨hsq, htem, hne⟩ := h
    exact ⟨key hsq fun t ht => hin t (.inl ht), key htem fun t ht => hin t (.inr ht), hne⟩
  | remove doMe tem => exact key h hin
  | advance tem => exact key h hin

theorem other_queues {op : ThreadOp} (h : QueueInv s.k E) (hpc : HoldsStopped E s.pc)
    (hleaves : LeavesInHand s op) (hop : op ≠ .exterminate) (hr : Refers s.k op)
    (he : exec op s.k = some k') : ∃ E', QueueInv k' E' ∧ HoldsStopped E' s.pc := by
  by_cases hlife : op.Lifetime
  · cases op with
    | create t w e =>
      cases he
      exact ⟨E, h.create hr.1 hr.2.1 hr.2.2 w e, hpc⟩
    | overwrite t p next prev =>
      cases he
      exact ⟨E, queueInv_overwrite h hr, hpc⟩
    | exterminate => exact absurd rfl hop
    | _ => exact hlife.elim
  · have hm := exec_moves h hr hlife he
    obtain ⟨E', h', hin⟩ := h.moves_stopped (S := {t | InHand t s.pc})
      (fun t ht => inHand_stopped hpc ht) (fun m hm t ht => hleaves t ht m hm) hm
    exact ⟨E', h', holdsStopped_of_inHand hpc hin⟩

end Steps

/-- `exterminate` among other threads visits only nodes of the stopped queue, and takes out of the queues
only the zombies that it reaps. -/
theorem exterminate_unlinks_reaped {s : Sweep} (h : SweepReach NeighboursMeet LeavesInHand s) :
    ∃ E, QueuesWellFormed s.k E ∧ (∀ q, ∀ t ∈ E q, t ∈ s.k.allocated) ∧
      (∀ sq tem, s.pc = .look sq tem → OnStopped E sq) ∧
      (NeighboursMeet s → ∃ E', QueuesWellFormed (sweepStep s).k E' ∧
        (E' = E ∨ ∃ z tem, s.pc = .look (.head z) tem ∧ z ∈ E .stopped ∧
          (s.k.threads z).state = .zombie ∧ E' = without E z)) := by
  have hinv : ∃ E, QueueInv s.k E ∧ HoldsStopped E s.pc := by
    obtain ⟨k₀, h₀, hrun⟩ := h
    induction hrun with
    | refl =>
      obtain ⟨E, hi⟩ := h₀.idleInv
      exact ⟨E, hi.queues, trivial⟩
    | tail _ hs ih =>
      obtain ⟨E, hq, hpc⟩ := ih
      cases hs with
      | sweep hmeet =>
        obtain ⟨E', hq', hpc', _⟩ := sweepStep_queues hq hpc hmeet
        exact ⟨E', hq', hpc'⟩
      | other hleaves hop hr he =>
        obtain ⟨E', hq', hpc'⟩ := other_queues hq hpc hleaves hop hr he
        exact ⟨E', hq', hpc'⟩
  obtain ⟨E, hq, hpc⟩ := hinv
  refine ⟨E, queuesWellFormed hq, hq.unreaped, fun sq tem hlook => ?_, fun hmeet => ?_⟩
  · rw [hlook] at hpc
    exact hpc.1
  · obtain ⟨E', hq', _, hcases⟩ := sweepStep_queues hq hpc hmeet
    exact ⟨E', queuesWellFormed hq', hcases⟩

theorem SweepReach.others {meets : Sweep → Prop} {leaves : Sweep → ThreadOp → Prop} {ops : List ThreadOp}
    {s : Sweep} {k' : Machine} (hops : ∀ op ∈ ops, op ≠ .exterminate ∧ ∀ k, leaves ⟨k, s.pc⟩ op)
    (h : SweepReach meets leaves s) (he : execAll ops s.k = some k') :
    SweepReach meets leaves ⟨k', s.pc⟩ := by
  induction ops generalizing s with
  | nil =>
    cases he
    exact h
  | cons op ops ih =>
    unfold execAll at he
    split at he
    · next hr =>
      obtain ⟨k₁, hone, hrest⟩ := Option.bind_eq_some_iff.mp he
      obtain ⟨hop, hleaves⟩ := hops op (List.mem_cons_self ..)
      obtain ⟨k₀, h₀, hrun⟩ := h
      have hnext : SweepReach meets leaves ⟨k₁, s.pc⟩ :=
        ⟨k₀, h₀, hrun.tail (.other (hleaves s.k) hop hr hone)⟩
      exact ih (s := ⟨k₁, s.pc⟩) (fun op hop => hops op (List.mem_cons_of_mem _ hop)) hnext hrest
    · cases he

def zombieWaits : Machine :=
  (execAll [.wakeUp 0x2000, .create 0x3000 0 0, .wakeUp 0x3000, .wait4 2, .reschedule 100, .exit 0,
    .reschedule 200, .wait4Done 0x3000] started).getD blankMachine

theorem zombieWaits_reach : ThreadReach anyOp zombieWaits :=
  (started_reach anyOp).execAll (execAll_getD (by decide +kernel))

theorem zombieWaits_start : sweepStep ⟨zombieWaits, .asleep⟩ =
    ⟨zombieWaits, .look (.head 0x3000) (.queue .stopped)⟩ := by
  have hnext : zombieWaits.queues.next (.queue .stopped) = .head 0x3000 ∧
      zombieWaits.queues.next (.head 0x3000) = .queue .stopped := by decide +kernel
  dsimp only [sweepStep]
  rw [hnext.1, hnext.2]

/-- While the loop looks at it, another thread is created and started. -/
def zombieLookedAt : Machine :=
  (execAll [.create 0x4000 0 0, .wakeUp 0x4000] zombieWaits).getD blankMachine

/-- The zombie is reaped and unlinked, with other threads in between. -/
theorem exterminate_unlinks_first : ∃ E E', QueuesWellFormed zombieLookedAt E ∧ 0x4000 ∈ E .running ∧
    OnStopped E (.head 0x3000) ∧
      QueuesWellFormed (sweepStep ⟨zombieLookedAt, .look (.head 0x3000) (.queue .stopped)⟩).k E' ∧
        ∀ q, 0x3000 ∉ E' q := by
  have hlook : SweepReach NeighboursMeet LeavesInHand
      ⟨zombieWaits, .look (.head 0x3000) (.queue .stopped)⟩ := by
    refine ⟨zombieWaits, zombieWaits_reach, ?_⟩
    rw [← zombieWaits_start]
    exact .tail .refl (.sweep fun _ _ e => nomatch e)
  have hops : ∀ op ∈ [ThreadOp.create 0x4000 0 0, .wakeUp 0x4000], op ≠ .exterminate ∧
      ∀ k, LeavesInHand ⟨k, .look (.head 0x3000) (.queue .stopped)⟩ op := by
    intro op hop
    rcases List.mem_pair.mp hop with rfl | rfl
    · exact ⟨fun h => (by cases h), fun k t _ m hm => hm.elim⟩
    · refine ⟨fun h => (by cases h), fun k t ht m hm hrel => ?_⟩
      obtain rfl := hm
      obtain rfl : 0x4000 = t := hrel
      rcases ht with h | h <;> cases h
  have hrun : execAll [.create 0x4000 0 0, .wakeUp 0x4000] zombieWaits = some zombieLookedAt :=
    execAll_getD (by decide +kernel)
  obtain ⟨E, hwell, _, hvisit, hnext⟩ := exterminate_unlinks_reaped (hlook.others hops hrun)
  obtain ⟨E', hwell', -⟩ := hnext fun _ _ e => nomatch e
  refine ⟨E, E', hwell, hwell.mem_of_links (n := 3) ?_, hvisit _ _ rfl, hwell', fun q hm => ?_⟩
  · decide +kernel
  · have hlinks := (hwell'.carries q).next_prev (List.mem_map_of_mem hm)
    exact absurd hlinks (by decide +kernel)

/-- `exterminate` has reaped it; its memory becomes a new thread, which is started before the second
`list_remove`. -/
def chunkReused : Machine :=
  (execAll [.create 0x3000 0 0, .wakeUp 0x3000] (reap 0x3000 zombieWaits)).getD blankMachine

/-- The new thread is dropped from the running queue. -/
theorem exterminate_drops_thread :
    SweepReach (fun _ => True) (fun _ _ => True) ⟨chunkReused, .remove 0x3000 (.queue .stopped)⟩ ∧
      (∀ E, QueuesWellFormed chunkReused E → 0x3000 ∈ E .running) ∧
      (∀ E, QueuesWellFormed (sweepStep ⟨chunkReused, .remove 0x3000 (.queue .stopped)⟩).k E →
        ∀ q, 0x3000 ∉ E q) ∧
      0x3000 ∈ (sweepStep ⟨chunkReused, .remove 0x3000 (.queue .stopped)⟩).k.allocated := by
  have hreap : sweepStep ⟨zombieWaits, .look (.head 0x3000) (.queue .stopped)⟩ =
      ⟨reap 0x3000 zombieWaits, .remove 0x3000 (.queue .stopped)⟩ := by
    have hzombie : (zombieWaits.threads 0x3000).state = .zombie := by decide +kernel
    unfold sweepStep
    simp [threadOf, hzombie]
  have hreaped : SweepReach (fun _ => True) (fun _ _ => True)
      ⟨reap 0x3000 zombieWaits, .remove 0x3000 (.queue .stopped)⟩ := by
    refine ⟨zombieWaits, zombieWaits_reach, ?_⟩
    rw [← hreap, ← zombieWaits_start]
    exact .tail (.tail .refl (.sweep trivial)) (.sweep trivial)
  have hrun : execAll [.create 0x3000 0 0, .wakeUp 0x3000] (reap 0x3000 zombieWaits) =
      some chunkReused := execAll_getD (by decide +kernel)
  have hreach := hreaped.others (by simp) hrun
  refine ⟨hreach, fun E hE => hE.mem_of_links (n := 3) ?_, fun E hE q hm => ?_, by decide +kernel⟩
  · decide +kernel
  · have hlinks := (hE.carries q).next_prev (List.mem_map_of_mem hm)
    exact absurd hlinks (by decide +kernel)

end X86Osdev.Bin

import X86Osdev.Kernel.KilledThreads
import X86Osdev.Kernel.RunQueue
import X86Osdev.Kernel.SignalFrame
import X86Osdev.Proc.ProcessTree

/-! The tree of threads over whole runs: it stays whole as long as `sys_wait4` and `sys_wait4all` turn no
thread with children into a zombie for the exterminator. -/

namespace X86Osdev.Kernel
open CircularList X86Osdev.Mem X86Osdev.Proc X86Osdev.Lock

def LeafIfStopped (k : Machine) (p : ℕ) : Prop :=
  ∀ E, QueuesWellFormed k E → p ∈ E .stopped → (k.threads p).children = []

/-- The threads that a wait call buries without `reparent` are leaves. -/
def BuriesLeaves (k : Machine) : ThreadOp → Prop
  | .wait4 pid => ∀ p, getThread pid k = some p → (k.threads p).state.ko = true → LeafIfStopped k p
  | .wait4Done p => LeafIfStopped k p
  | .wait4all => (k.threads k.currentThread).children.all (fun p1 => (k.threads p1).state.ko) = true →
    ∀ c ∈ (k.threads k.currentThread).children, (k.threads c).state = .stopped → LeafIfStopped k c
  | .wait4allDone => ∀ c ∈ (k.threads k.currentThread).children, (k.threads c).state = .stopped →
    LeafIfStopped k c
  | _ => True

/-- Threads are created by live threads only, and `init_thread` is not killed. -/
structure SparesInit (k : Machine) (op : ThreadOp) : Prop where
  kills : ¬ Kills k.initThread k op
  stop : op ≠ .stop k.initThread
  create : ∀ t w e, op = .create t w e → k.currentThread ∈ k.allocated ∧
    (k.threads k.currentThread).state.ko = false

def TreeOp (k : Machine) (op : ThreadOp) : Prop := SparesInit k op ∧ BuriesLeaves k op

/-- The tree is whole, and a zombie that waits for the exterminator has no children. -/
structure FamilyInv (k : Machine) (E : Queue → List ℕ) : Prop where
  queues : QueueInv k E
  tree : TreeInv k
  unstopped : k.initThread ∉ E .stopped
  leaf : ∀ z ∈ E .stopped, (k.threads z).state = .zombie → (k.threads z).children = []

section Moves
variable {k k' : Machine} {E : Queue → List ℕ} {ok : Move → Prop} {S : Set ℕ}

theorem zombies_moves (h : QueueInv k E) (hinit : k.initThread ∉ E .stopped)
    (hz : ∀ z ∈ E .stopped, (k.threads z).state = .zombie → z ∈ S)
    (hstop : ∀ t, ok (.stop t) → t ≠ k.initThread) (hbury : ∀ c, ok (.bury c) → c ∈ S)
    (hm : Moves ok k k') : ∃ E', QueueInv k' E' ∧ k'.initThread ∉ E' .stopped ∧
      (∀ z ∈ E' .stopped, (k'.threads z).state = .zombie → z ∈ S) ∧
      ((∀ t, ¬ ok (.stop t)) → E' .stopped ⊆ E .stopped) := by
  induction hm with
  | quiet hq =>
    refine ⟨E, h.quiet hq, ?_, fun z hzm hs => hz z hzm ?_, fun _ => List.Subset.refl _⟩
    · rw [hq.initThread]
      exact hinit
    · rw [← hs, hq.state]
  | @move k₁ k₂ m hms hok hl hq ih =>
    obtain ⟨E₁, hi, hinit₁, hz₁, hsub⟩ := ih
    have hnd := hi.nodup_queue .stopped
    have hinit₂ : k₂.initThread = k₁.initThread := hq.initThread.trans (m.play_fixed k₁).2.2.2.1
    have hstate : ∀ z, (k₂.threads z).state = ((m.play k₁).threads z).state := hq.state
    refine ⟨m.after E₁, (hi.play hl).quiet hq, ?_, fun z hzm hs => ?_, fun hno => ?_⟩
    · -- `init_thread` could come to the stopped queue only by a stop
      rw [hinit₂]
      cases m with
      | stop t =>
        intro hin
        rcases (mem_movedHead hnd).mp hin with ⟨e, _⟩ | ⟨_, hin⟩
        · exact hstop t hok (e.symm.trans hms.fixed.2.2.2.1)
        · exact hinit₁ hin
      | sleep t => exact fun hin => ((mem_movedHead hnd).mp hin).elim (fun e => nomatch e.2) fun e => hinit₁ e.2
      | wake t s => exact fun hin => ((mem_movedTail hnd).mp hin).elim (fun e => nomatch e.2) fun e => hinit₁ e.2
      | bury c => exact hinit₁
    · -- a thread turns zombie only when it is buried; the other moves give it another state
      rw [hstate] at hs
      cases m with
      | stop t =>
        have hs' := (state_setState k₁ t z .stopped).symm.trans hs
        split at hs'
        · cases hs'
        · next hne => exact hz₁ z (((mem_movedHead hnd).mp hzm).resolve_left fun e => hne e.1).2 hs'
      | sleep t =>
        have hs' := (state_setState k₁ t z .interruptible).symm.trans hs
        split at hs'
        · cases hs'
        · exact hz₁ z (((mem_movedHead hnd).mp hzm).resolve_left fun e => nomatch e.2).2 hs'
      | wake t s =>
        have hold := ((mem_movedTail hnd).mp hzm).resolve_left fun e => nomatch e.2
        have hs' := (state_setState k₁ t z s).symm.trans hs
        rw [if_neg hold.1] at hs'
        exact hz₁ z hold.2 hs'
      | bury c =>
        have hs' := (state_setState k₁ c z .zombie).symm.trans hs
        split at hs'
        · next hzc => exact hzc ▸ hbury c hok
        · exact hz₁ z hzm hs'
    · cases m with
      | stop t => exact absurd hok (hno t)
      | sleep t =>
        exact fun z hzm => hsub hno (((mem_movedHead hnd).mp hzm).resolve_left fun e => nomatch e.2).2
      | wake t s =>
        exact fun z hzm => hsub hno (((mem_movedTail hnd).mp hzm).resolve_left fun e => nomatch e.2).2
      | bury c => exact hsub hno

theorem FamilyInv.prunes (h : FamilyInv k E) (hp : Prunes k k')
    (hstop : ∀ t, ok (.stop t) → t ≠ k.initThread)
    (hbury : ∀ c, ok (.bury c) → (k'.threads c).children = []) (hm : Moves ok k k') :
    ∃ E', FamilyInv k' E' := by
  have hz : ∀ z ∈ E .stopped, (k.threads z).state = .zombie → (k'.threads z).children = [] :=
    fun z hzm hs => hp.leaf z (fun e => h.unstopped (e ▸ hzm)) (h.leaf z hzm hs)
  obtain ⟨E', hi, hinit, hleaf, _⟩ := zombies_moves (S := {z | (k'.threads z).children = []}) h.queues
    h.unstopped hz hstop hbury hm
  exact ⟨E', hi, hp.tree, hinit, hleaf⟩

theorem FamilyInv.same (h : FamilyInv k E) (hs : SameTree k k') (hno : ∀ t, ¬ ok (.stop t))
    (hbury : ∀ c, ok (.bury c) → c ∈ E .stopped → (k.threads c).children = []) (hm : Moves ok k k') :
    ∃ E', FamilyInv k' E' := by
  obtain ⟨E', hi, hinit, hleaf, hsub⟩ := zombies_moves
    (S := {z | z ∈ E .stopped → (k.threads z).children = []}) h.queues h.unstopped
    (fun z hzm hzs _ => h.leaf z hzm hzs) (fun t ht => absurd ht (hno t)) hbury hm
  refine ⟨E', hi, h.tree.same hs, hinit, fun z hzm hzs => ?_⟩
  rw [hs.children z]
  exact hleaf z hzm hzs (hsub hno hzm)

end Moves

section Calls
variable {k k' : Machine} {t : ℕ}

theorem sameTree_wakeTimer (k : Machine) (activeT : Timer) : SameTree k (wakeTimer k activeT) := by
  unfold wakeTimer
  split
  · have hdrop : SameTree k { k with kernelTimers := k.kernelTimers.erase activeT } :=
      SameTree.of_threads rfl rfl rfl
    have hset := hdrop.trans (SameTree.setState _ activeT.thread .runnable)
    exact hset.trans (SameTree.of_threads rfl rfl rfl)
  · exact SameTree.refl k

theorem SameTree.foldl {α : Type*} {f : Machine → α → Machine} (hf : ∀ k a, SameTree k (f k a))
    (l : List α) (k : Machine) : SameTree k (l.foldl f k) := by
  induction l generalizing k with
  | nil => exact SameTree.refl k
  | cons a l ih => exact (hf k a).trans (ih (f k a))

theorem sameTree_wakeUpTimers (k : Machine) : SameTree k (wakeUpTimers k) :=
  SameTree.foldl sameTree_wakeTimer _ k

theorem sameTree_timersRun (k : Machine) : SameTree k (timersRun k) := by
  have hcount : SameTree k { k with tickCount := u64 (k.tickCount + 1) } :=
    SameTree.of_threads rfl rfl rfl
  exact hcount.trans (sameTree_wakeUpTimers _)

theorem sameTree_sysKill (pid signal : ℕ) (k : Machine) : SameTree k (sysKill pid signal k) := by
  unfold sysKill
  split
  · exact SameTree.refl k
  · exact SameTree.modify k _ (fun _ => rfl) fun _ => rfl

theorem sameTree_sysExit (retCode : ℕ) (k : Machine) : SameTree k (sysExit retCode k) :=
  (sameTree_killProcess k.currentThread k).trans (SameTree.modify _ _ (fun _ => rfl) fun _ => rfl)

theorem sameTree_sysWait4Done (p : ℕ) (k : Machine) : SameTree k (sysWait4Done p k).2 := by
  have hset : SameTree k (k.modify k.currentThread fun t => { t with wait4 := 0 }) :=
    SameTree.modify k _ (fun _ => rfl) fun _ => rfl
  exact (hset.trans (SameTree.setState _ p .zombie)).trans (sameTree_wakeUpThread _ _)

theorem sameTree_sysWait4 (pid : ℕ) (k : Machine) : SameTree k (sysWait4 pid k).2 := by
  unfold sysWait4
  split
  · exact SameTree.refl k
  · dsimp only
    split
    · exact sameTree_sysWait4Done _ k
    · have hset : SameTree k (k.modify k.currentThread fun t => { t with wait4 := pid }) :=
        SameTree.modify k _ (fun _ => rfl) fun _ => rfl
      exact hset.trans (sameTree_sleepThread _ _)

theorem sameTree_sysWait4allDone (k : Machine) : SameTree k (sysWait4allDone k) := by
  have hset : SameTree k (k.modify k.currentThread fun t => { t with wait4child := false }) :=
    SameTree.modify k _ (fun _ => rfl) fun _ => rfl
  refine hset.trans (SameTree.foldl (fun k p1 => ?_) _ _)
  unfold buryStopped
  split
  · exact SameTree.setState k p1 .zombie
  · exact SameTree.refl k

theorem sameTree_sysWait4all (k : Machine) : SameTree k (sysWait4all k).2 := by
  unfold sysWait4all
  split
  · exact sameTree_sysWait4allDone k
  · have hset : SameTree k (k.modify k.currentThread fun t => { t with wait4child := true }) :=
      SameTree.modify k _ (fun _ => rfl) fun _ => rfl
    exact hset.trans (sameTree_sleepThread _ _)

theorem sameTree_getLock (l : ℕ) (k : Machine) : SameTree k (getLock l k).2 := by
  have htest : SameTree k (testLock l k).2 := SameTree.of_threads rfl rfl rfl
  dsimp only [Lock.getLock]
  split
  · have hlink : SameTree (testLock l k).2 (linkWaiter l (testLock l k).2) := by
      unfold linkWaiter
      split
      · exact SameTree.of_threads rfl rfl rfl
      · exact SameTree.of_threads rfl rfl rfl
    exact (htest.trans hlink).trans (sameTree_sleepThread _ _)
  · exact htest.trans (SameTree.of_threads rfl rfl rfl)

theorem sameTree_wakeWaiters {l fuel : ℕ} (h : wakeWaiters l fuel k = some k') : SameTree k k' := by
  induction fuel generalizing k with
  | zero => cases h
  | succ fuel ih =>
    unfold wakeWaiters at h
    dsimp only at h
    split at h
    · cases h
      exact SameTree.refl _
    · generalize waiterOf (k.waits.next (.threadsWaiting l)) = t at h
      have hremove : SameTree k { k with waits := k.waits.listRemove (.waitq t) } :=
        SameTree.of_threads rfl rfl rfl
      have hone := hremove.trans (sameTree_wakeUpThread t _)
      split at h
      · cases h
        exact hone
      · exact hone.trans (ih h)

theorem sameTree_unlock {l : ℕ} (h : unlock l k = some k') : SameTree k k' := by
  have hfree : SameTree k (freeLock l k) := SameTree.of_threads rfl rfl rfl
  exact hfree.trans (sameTree_wakeWaiters h)

end Calls

section Steps
variable {k k' : Machine} {E : Queue → List ℕ} {op : ThreadOp} {t : ℕ}

theorem Accounting.sameTree (h : Accounting k k') : SameTree k k' :=
  ⟨h.quiet.allocated, h.quiet.initThread, h.father, h.children⟩

theorem FamilyInv.accounting (h : FamilyInv k E) (hacc : Accounting k k') : FamilyInv k' E := by
  refine ⟨h.queues.quiet hacc.quiet, h.tree.same hacc.sameTree, ?_, fun z hz hs => ?_⟩
  · rw [hacc.quiet.initThread]
    exact h.unstopped
  · rw [hacc.quiet.state] at hs
    rw [hacc.children z]
    exact h.leaf z hz hs

theorem FamilyInv.handleSignals (h : FamilyInv k E) (ht : t ∈ k.allocated)
    (hno : t = k.initThread → ¬ Killed t k) : ∃ E', FamilyInv (handleSignals t k).2 E' := by
  have hk : ∀ u ∈ k.kThreads, u ∈ k.allocated := fun u hu => h.queues.procs ▸ hu
  obtain ⟨hprune, hm⟩ := handleSignals_tree h.tree hk ht (h.queues.addresses t ht).1
  refine h.prunes hprune (fun u hu => ?_) (fun c hc => hc.2 c rfl) hm
  rcases hu.1 with ⟨hkill, hu | ⟨f, _, hu⟩⟩ | ⟨hu, _⟩ | ⟨c, _, hu⟩
  · cases hu
    exact fun e => hno e hkill
  · cases hu
  · cases hu
  · cases hu

theorem FamilyInv.reschedule {now : ℕ} {switched : Bool} (h : FamilyInv k E)
    (hno : ¬ Kills k.initThread k (.reschedule now)) (he : reschedule now k = .ok switched k') :
    ∃ E', FamilyInv k' E' := by
  obtain ⟨next, k₁, hpick, _, rfl⟩ := reschedule_ok he
  have hacc := (pickNextThread_accounting hpick).trans (chargeReschedule_accounting now next k₁)
  have hnext : next ∈ k.allocated :=
    h.queues.unreaped .running next (pickNextThread_mem h.queues hpick)
  obtain ⟨E', h'⟩ := (h.accounting hacc).handleSignals (hacc.quiet.allocated ▸ hnext) fun hinit hkill => by
    rw [hacc.quiet.initThread] at hinit
    have hkill := (hacc.killed next).mp hkill
    rw [hinit] at hpick hkill
    exact hno ⟨⟨k₁, hpick⟩, hkill⟩
  split
  · exact ⟨E', h'.accounting (switchToThread_accounting next _)⟩
  · exact ⟨E', h'⟩

theorem FamilyInv.noResched {now : ℕ} (h : FamilyInv k E)
    (hcur : k.currentThread = 0 ∨ k.currentThread ∈ k.allocated)
    (hno : k.currentThread = k.initThread → ¬ Killed k.currentThread k) :
    ∃ E', FamilyInv (noResched now k) E' := by
  obtain ⟨k', hacc, hcur', heq⟩ := noResched_eq now k
  rw [heq]
  rcases hcur with hzero | hmem
  · rw [hzero]
    exact ⟨E, h.accounting hacc⟩
  · refine (h.accounting hacc).handleSignals (hacc.quiet.allocated ▸ hmem) fun hinit hkill => ?_
    rw [hacc.quiet.initThread] at hinit
    exact hno hinit ((hacc.killed _).mp hkill)

theorem FamilyInv.timersRun (h : FamilyInv k E)
    (ht : ∀ activeT ∈ k.kernelTimers, activeT.thread ∈ k.allocated) :
    ∃ E', FamilyInv (timersRun k) E' := by
  refine h.same (sameTree_timersRun k) (fun t hm => ?_) (fun c hm => ?_) (timersRun_moves ht)
  · obtain ⟨_, _, _, hm⟩ := hm
    cases hm
  · obtain ⟨_, _, _, hm⟩ := hm
    cases hm

theorem FamilyInv.tick {now : ℕ} {next : Option ℕ} (h : FamilyInv k E) (hr : Refers k (.tick now))
    (hno : ¬ Kills k.initThread k (.tick now)) (he : schedulerHandler now k = .ok next k') :
    ∃ E', FamilyInv k' E' := by
  obtain ⟨E₁, h₁⟩ := h.timersRun hr.2
  have hinit := (sameTree_timersRun k).initThread
  have hcur := timersRun_currentThread k
  have hcur' : (Kernel.timersRun k).currentThread = 0 ∨
      (Kernel.timersRun k).currentThread ∈ (Kernel.timersRun k).allocated := by
    rw [hcur, timersRun_allocated hr.2]
    exact hr.1
  rcases schedulerHandler_ok he with ⟨rfl, hk'⟩ | ⟨next', k₁, rfl, hpick, rfl⟩
  · have hspared : k.currentThread = k.initThread → ¬ Killed k.initThread (Kernel.timersRun k) :=
      fun e hkill => hno ⟨e, hkill, k', he⟩
    rcases hk' with rfl | ⟨k₁, hpick, rfl⟩
    · refine h₁.noResched hcur' fun e hkill => ?_
      rw [hcur, hinit] at e
      rw [hcur, e] at hkill
      exact hspared e hkill
    · have hacc := pickNextThread_accounting hpick
      have hcur₁ : k₁.currentThread = k.currentThread := by
        obtain ⟨_, slice, rfl⟩ := pickNextThread_ok hpick
        exact hcur
      refine (h₁.accounting hacc).noResched ?_ fun e hkill => ?_
      · rw [hcur₁, hacc.quiet.allocated, ← hcur]
        exact hcur'
      · rw [hcur₁, hacc.quiet.initThread, hinit] at e
        rw [hcur₁, e] at hkill
        exact hspared e ((hacc.killed _).mp hkill)
  · have hacc := (pickNextThread_accounting hpick).trans (chargeSwitch_accounting now next' k₁)
    exact ⟨E₁, h₁.accounting (hacc.trans (switchToThread_accounting next' _))⟩

theorem FamilyInv.create {w e : ℕ} (h : FamilyInv k E) (hr : Refers k (.create t w e))
    (hcur : k.currentThread ∈ k.allocated)
    (hlive : ∀ z ∈ E .stopped, (k.threads z).state = .zombie → z ≠ k.currentThread) :
    FamilyInv (createThread t w e k) E := by
  have hzero := (h.queues.addresses _ hcur).1
  refine ⟨h.queues.create hr.1 hr.2.1 hr.2.2 w e, h.tree.create hr.1 hcur hzero w e, ?_, fun z hz hs => ?_⟩
  · rw [createThread_initThread]
    exact h.unstopped
  · have hzt : z ≠ t := fun e => hr.1 (e ▸ h.queues.unreaped _ z hz)
    rw [createThread_keeps (f := Thread.state) (fun _ _ => rfl) hzt] at hs
    have hzc := hlive z hz hs
    have hsame : (createThread t w e k).threads z = k.threads z := by
      have hadd : (addThread t w e k).threads z = k.threads z := Function.update_of_ne hzt _ _
      rcases createThread_cases t w e k with h | h
      · rw [h, hadd]
      · rw [h, modify_apply, if_neg hzc, hadd]
    rw [hsame]
    exact h.leaf z hz hs

theorem FamilyInv.overwrite {p : Thread} {next prev : QueueNode} (h : FamilyInv k E)
    (ht : t ∉ k.allocated) : FamilyInv (overwrite t p next prev k) E := by
  have hsame : ∀ u ∈ k.allocated, (Kernel.overwrite t p next prev k).threads u = k.threads u := by
    intro u hu
    have hne : u ≠ t := fun e => ht (e ▸ hu)
    exact overwrite_threads hne p next prev k
  refine ⟨queueInv_overwrite h.queues ht, h.tree.congr rfl rfl (fun u hu => by rw [hsame u hu])
    (fun u hu => by rw [hsame u hu]), h.unstopped, fun z hz hs => ?_⟩
  have hz' := h.queues.unreaped _ z hz
  rw [hsame z hz'] at hs ⊢
  exact h.leaf z hz hs

/-- A pass of the exterminator reaps leaves only. -/
theorem FamilyInv.exterminate (h : FamilyInv k E) (he : exterminate k = some k') :
    ∃ E', FamilyInv k' E' := by
  obtain ⟨hrun, hinv⟩ := exterminate_spec h.queues
  rw [he] at hrun
  cases hrun
  have key : ∀ (l : List ℕ) (k : Machine), TreeInv k → k.allocated.Nodup →
      (∀ t ∈ l, t ≠ k.initThread ∧ (k.threads t).children = []) →
      TreeInv (l.foldl (fun k t => reap t k) k) ∧
        (l.foldl (fun k t => reap t k) k).initThread = k.initThread ∧
        ∀ z, (k.threads z).children = [] →
          ((l.foldl (fun k t => reap t k) k).threads z).children = [] := by
    intro l
    induction l with
    | nil => exact fun k ht _ _ => ⟨ht, rfl, fun _ hz => hz⟩
    | cons t l ih =>
      intro k ht hnd hl
      have hleaf : ∀ z, (k.threads z).children = [] → ((reap t k).threads z).children = [] := by
        intro z hz
        show (k.threads z).children.erase t = []
        rw [hz]
        rfl
      obtain ⟨hne, hnone⟩ := hl t (List.mem_cons_self ..)
      obtain ⟨htree, hinit, hleaf'⟩ := ih (reap t k) (ht.reap hnd hne hnone) (hnd.erase t)
        fun u hu => ⟨(hl u (List.mem_cons_of_mem _ hu)).1, hleaf u (hl u (List.mem_cons_of_mem _ hu)).2⟩
      exact ⟨htree, hinit, fun z hz => hleaf' z (hleaf z hz)⟩
  have hdoomed : ∀ t ∈ doomed k E, t ≠ k.initThread ∧ (k.threads t).children = [] := by
    intro t ht
    obtain ⟨hmem, hz⟩ := List.mem_filter.mp ht
    exact ⟨fun e => h.unstopped (e ▸ hmem), h.leaf t hmem (by simpa using hz)⟩
  obtain ⟨htree, hinit, hleaf⟩ := key (doomed k E) k h.tree h.queues.nodup hdoomed
  refine ⟨_, hinv, htree, ?_, fun z hz hs => ?_⟩
  · rw [hinit]
    exact fun hm => h.unstopped (List.mem_of_mem_filter hm)
  · rw [foldl_reap_keeps (g := Thread.state) fun _ _ => rfl] at hs
    exact hleaf z (h.leaf z (List.mem_of_mem_filter hz) hs)

theorem FamilyInv.calls (h : FamilyInv k E) (hr : Refers k op) (hop : TreeOp k op)
    (hcall : match op with
      | .create _ _ _ | .overwrite _ _ _ _ | .exterminate | .signals _ | .reschedule _ | .tick _ => False
      | _ => True) (he : Kernel.exec op k = some k') : ∃ E', FamilyInv k' E' := by
  obtain ⟨⟨hkill, hstop, _⟩, hbury⟩ := hop
  have hwell := queuesWellFormed h.queues
  have hlife : ¬ op.Lifetime := by
    cases op with
    | create t w e => exact hcall.elim
    | overwrite t p next prev => exact hcall.elim
    | exterminate => exact hcall.elim
    | _ => exact fun hl => hl
  have hm := exec_moves h.queues hr hlife he
  cases op with
  | create t w e => exact hcall.elim
  | overwrite t p next prev => exact hcall.elim
  | exterminate => exact hcall.elim
  | signals t => exact hcall.elim
  | reschedule now => exact hcall.elim
  | tick now => exact hcall.elim
  | wakeUp t =>
    cases he
    exact h.same (sameTree_wakeUpThread t k) (fun _ e => nomatch e) (fun _ e => nomatch e) hm
  | sleep t =>
    cases he
    exact h.same (sameTree_sleepThread t k) (fun _ e => nomatch e) (fun _ e => nomatch e) hm
  | stop t =>
    cases he
    refine h.prunes (Prunes.same h.tree (sameTree_stopThread t k)) (fun u hu => ?_) (fun _ e => nomatch e) hm
    cases hu
    exact fun e => hstop (by rw [e])
  | childAwoken pid =>
    cases he
    exact h.same (sameTree_childAwoken pid k) (fun _ ⟨_, _, e⟩ => nomatch e) (fun _ ⟨_, _, e⟩ => nomatch e) hm
  | kill t =>
    cases he
    refine h.prunes (Prunes.same h.tree (sameTree_killProcess t k)) (fun u hu => ?_) (fun c hc => ?_) hm
    · rcases hu with hu | ⟨_, _, hu⟩
      · cases hu
        exact hkill
      · cases hu
    · rcases hc with hc | ⟨_, _, hc⟩
      · cases hc
      · cases hc
  | exit retCode =>
    cases he
    refine h.prunes (Prunes.same h.tree (sameTree_sysExit retCode k)) (fun u hu => ?_) (fun c hc => ?_) hm
    · rcases hu with hu | ⟨_, _, hu⟩
      · cases hu
        exact hkill
      · cases hu
    · rcases hc with hc | ⟨_, _, hc⟩
      · cases hc
      · cases hc
  | sysKill pid signal =>
    cases he
    exact h.same (sameTree_sysKill pid signal k) (fun _ e => e.elim) (fun _ e => e.elim) hm
  | wait4 pid =>
    cases he
    refine h.same (sameTree_sysWait4 pid k) (fun t ht => ?_) (fun c hc hin => ?_) hm
    · obtain ⟨_, _, ⟨_, ht | ht⟩ | ⟨_, ht⟩⟩ := ht
      · cases ht
      · cases ht
      · cases ht
    · obtain ⟨p, hp, ⟨hko, hc | hc⟩ | ⟨_, hc⟩⟩ := hc
      · cases hc
        exact hbury c hp hko E hwell hin
      · cases hc
      · cases hc
  | wait4Done p =>
    cases he
    refine h.same (sameTree_sysWait4Done p k) (fun t ht => ?_) (fun c hc hin => ?_) hm
    · rcases ht with ht | ht
      · cases ht
      · cases ht
    · rcases hc with hc | hc
      · cases hc
        exact hbury E hwell hin
      · cases hc
  | wait4all =>
    cases he
    refine h.same (sameTree_sysWait4all k) (fun t ht => ?_) (fun c hc hin => ?_) hm
    · rcases ht with ⟨_, _, _, _, ht⟩ | ⟨ht, _⟩
      · cases ht
      · cases ht
    · rcases hc with ⟨hall, d, hd, hs, hc⟩ | ⟨hc, _⟩
      · cases hc
        exact hbury hall c hd hs E hwell hin
      · cases hc
  | wait4allDone =>
    cases he
    refine h.same (sameTree_sysWait4allDone k) (fun t ht => ?_) (fun c hc hin => ?_) hm
    · obtain ⟨_, _, _, ht⟩ := ht
      cases ht
    · obtain ⟨d, hd, hs, hc⟩ := hc
      cases hc
      exact hbury c hd hs E hwell hin
  | sleepMs ms =>
    cases he
    have htimer : SameTree k { k with kernelTimers :=
        ⟨u32 (millisToTicks ms + k.tickCount), k.currentThread⟩ :: k.kernelTimers } :=
      SameTree.of_threads rfl rfl rfl
    exact h.same (htimer.trans (sameTree_sleepThread _ _)) (fun _ e => nomatch e) (fun _ e => nomatch e) hm
  | timers =>
    cases he
    exact h.same (sameTree_wakeUpTimers k) (fun _ ⟨_, _, _, e⟩ => nomatch e)
      (fun _ ⟨_, _, _, e⟩ => nomatch e) hm
  -- locks put to sleep and wake up, but never stop or bury
  | getLock l =>
    cases he
    exact h.same (sameTree_getLock l k) (fun _ ⟨_, e⟩ => nomatch e) (fun _ ⟨_, e⟩ => nomatch e) hm
  | unlock l =>
    exact h.same (sameTree_unlock he) (fun _ ⟨_, _, e⟩ => nomatch e) (fun _ ⟨_, _, e⟩ => nomatch e) hm

theorem FamilyInv.exec (h : FamilyInv k E) (hr : Refers k op) (hop : TreeOp k op)
    (he : Kernel.exec op k = some k') : ∃ E', FamilyInv k' E' := by
  cases op with
  | create t w e =>
    cases he
    obtain ⟨hcur, hlive⟩ := hop.1.create t w e rfl
    refine ⟨E, h.create hr hcur fun z _ hs hz => ?_⟩
    rw [hz] at hs
    rw [hs] at hlive
    cases hlive
  | overwrite t p next prev =>
    cases he
    exact ⟨E, h.overwrite hr⟩
  | exterminate => exact h.exterminate he
  | signals t =>
    cases he
    exact h.handleSignals hr fun e hkill => hop.1.kills ⟨e, e ▸ hkill⟩
  | reschedule now =>
    obtain ⟨switched, hrun⟩ := after_eq_some.mp he
    exact h.reschedule hop.1.kills hrun
  | tick now =>
    obtain ⟨next, hrun⟩ := after_eq_some.mp he
    exact h.tick hr hop.1.kills hrun
  | _ => exact h.calls hr hop trivial he

end Steps

section Boot
variable {t : ℕ} {k k' : Machine}

structure BootFamily (t : ℕ) (k : Machine) : Prop where
  family : ∃ E, FamilyInv k E
  allocated : k.allocated = [t]
  initThread : k.initThread = t
  signals : (k.threads t).signals.pending = 0

theorem BootFamily.accounting (h : BootFamily t k) (hacc : Accounting k k') : BootFamily t k' := by
  obtain ⟨E, hf⟩ := h.family
  refine ⟨⟨E, hf.accounting hacc⟩, hacc.quiet.allocated.trans h.allocated,
    hacc.quiet.initThread.trans h.initThread, ?_⟩
  rw [hacc.signals t]
  exact h.signals

theorem BootFamily.noResched (h : BootFamily t k)
    (hcur : k.currentThread = 0 ∨ k.currentThread ∈ k.allocated) (now : ℕ) :
    BootFamily t (noResched now k) := by
  obtain ⟨k', hacc, _, heq⟩ := noResched_eq now k
  have h' := h.accounting hacc
  have hidle : (handleSignals k.currentThread k').2 = k' := by
    unfold Proc.handleSignals
    split
    · rfl
    · next hzero =>
      have ht : k.currentThread = t := by
        rw [h.allocated] at hcur
        exact List.mem_singleton.mp (hcur.resolve_left hzero)
      rw [ht, if_pos h'.signals]
  rw [heq, hidle]
  exact h'

theorem BootFamily.tick {now : ℕ} (h : BootFamily t k) (hr : Refers k (.tick now))
    (he : exec (.tick now) k = some k') : BootFamily t k' := by
  obtain ⟨E, hf⟩ := h.family
  have htimers : BootFamily t (timersRun k) := by
    refine ⟨hf.timersRun hr.2, (timersRun_allocated hr.2).trans h.allocated,
      (sameTree_timersRun k).initThread.trans h.initThread, ?_⟩
    rw [keeps_timersRun (f := Thread.signals) (fun _ _ => rfl) k t]
    exact h.signals
  have hcur : k.currentThread = 0 ∨ k.currentThread ∈ (timersRun k).allocated := by
    rw [timersRun_allocated hr.2]
    exact hr.1
  obtain ⟨next, hrun⟩ := after_eq_some.mp he
  rcases schedulerHandler_ok hrun with ⟨_, rfl | ⟨k₂, hpick, rfl⟩⟩ | ⟨next', k₂, _, hpick, rfl⟩
  · exact htimers.noResched ((timersRun_currentThread k).symm ▸ hcur) now
  · have hacc := pickNextThread_accounting hpick
    have hcur₂ : k₂.currentThread = k.currentThread := by
      obtain ⟨_, slice, rfl⟩ := pickNextThread_ok hpick
      exact timersRun_currentThread k
    refine (htimers.accounting hacc).noResched ?_ now
    rw [hcur₂, hacc.quiet.allocated]
    exact hcur
  · have hacc := (pickNextThread_accounting hpick).trans (chargeSwitch_accounting now next' k₂)
    exact htimers.accounting (hacc.trans (switchToThread_accounting next' _))

theorem bootFamily_initKernelProc {w e : ℕ} (hne : t ≠ 0) (hlt : t < 2 ^ 32) (k : Machine) :
    BootFamily t (initKernelProc t w e k) := by
  have hself : ((initKernelProc t w e k).threads t).children = [] ∧
      ((initKernelProc t w e k).threads t).signals.pending = 0 := by
    dsimp only [initKernelProc, wakeUpThread]
    simp [Machine.toTail, Machine.setState, Machine.modify, createThread, addThread, newThread]
  have halloc : (initKernelProc t w e k).allocated = [t] := rfl
  have hinit : (initKernelProc t w e k).initThread = t := rfl
  have hstopped : movedTail (fun _ : Queue => ([] : List ℕ)) .running t .stopped = [] := rfl
  refine ⟨⟨_, queueInv_initKernelProc hne hlt w e k, ⟨?_, ?_, ?_, ?_⟩, ?_, ?_⟩, halloc, hinit, hself.2⟩
  · rw [hinit, halloc]
    exact List.mem_cons_self ..
  · rw [hinit, halloc]
    exact fun u hu hne => absurd (List.mem_singleton.mp hu) hne
  · rw [halloc]
    intro u hu c hc
    rw [List.mem_singleton.mp hu, hself.1] at hc
    cases hc
  · rw [halloc]
    intro u hu
    rw [List.mem_singleton.mp hu, hself.1]
    exact List.nodup_nil
  · rw [hstopped]
    exact List.not_mem_nil
  · rw [hstopped]
    exact fun z hz => absurd hz List.not_mem_nil

theorem Booting.family (h : Booting t k) : BootFamily t k := by
  induction h with
  | start w e k hne hlt => exact bootFamily_initKernelProc hne hlt k
  | tick _ hr he ih => exact ih.tick hr he

theorem familyInv_initIdle {u w e : ℕ} (h : BootFamily t k) (hcur : k.currentThread = t)
    (hu : u ∉ k.allocated) (hne : u ≠ 0) (hlt : u < 2 ^ 32) : ∃ E, FamilyInv (initIdle u w e k) E := by
  obtain ⟨E, hf⟩ := h.family
  have hcurrent : k.currentThread ∈ k.allocated := by
    rw [hcur, h.allocated]
    exact List.mem_cons_self ..
  have hc := hf.create (w := w) (e := e) ⟨hu, hne, hlt⟩ hcurrent fun z hz _ hzc => hf.unstopped <| by
    rwa [hzc, hcur, ← h.initThread] at hz
  have hkeeps : ∀ {α : Type} (f : Thread → α), (∀ p n i s r, f { p with
      pid := i, nice := n, timeslice := s, runtime := r } = f p) →
      Keeps f (createThread u w e k) (initIdle u w e k) := by
    intro α f hf
    exact Keeps.modify (g := fun p => { p with
      pid := idlePid, nice := minPriority, timeslice := ticksToMillis minQuantumMs
      runtime := 2 ^ 64 - 1 }) { createThread u w e k with idleThread := u } u fun p => hf p _ _ _ _
  have hstate := hkeeps Thread.state fun _ _ _ _ _ => rfl
  have hsame : SameTree (createThread u w e k) (initIdle u w e k) :=
    ⟨rfl, rfl, hkeeps Thread.father fun _ _ _ _ _ => rfl, hkeeps Thread.children fun _ _ _ _ _ => rfl⟩
  refine ⟨E, hc.queues.congr rfl rfl rfl, hc.tree.same hsame, hc.unstopped, fun z hz hs => ?_⟩
  rw [hstate z] at hs
  rw [hsame.children z]
  exact hc.leaf z hz hs

end Boot

def TreeStep (k k' : Machine) : Prop :=
  ThreadStep TreeOp k k' ∨
    ∃ p, p ∉ k.allocated ∧ k.currentThread ∈ k.allocated ∧ k' = (sysWait4Done p k).2

theorem FamilyInv.step {k k' : Machine} {E : Queue → List ℕ} (h : FamilyInv k E) (hs : TreeStep k k') :
    ∃ E', FamilyInv k' E' := by
  rcases hs with ⟨op, hop, hr, he⟩ | ⟨p, hp, hcur, rfl⟩
  · exact h.exec hr hop he
  · refine h.same (sameTree_sysWait4Done p k) (fun t ht => ?_) (fun c hc hin => ?_)
      (sysWait4Done_moves hcur p)
    · rcases ht with ht | ht
      · cases ht
      · cases ht
    · rcases hc with hc | hc
      · cases hc
        exact absurd (h.queues.unreaped _ p hin) hp
      · cases hc

theorem ThreadReach.familyInv {k : Machine} (h : ThreadReach TreeOp k) : ∃ E, FamilyInv k E := by
  induction h with
  | init hb hcur hu hne hlt => exact familyInv_initIdle hb.family hcur hu hne hlt
  | step _ hs ih =>
    obtain ⟨E, hf⟩ := ih
    exact hf.step (.inl hs)

/-- Every thread but `init_thread` has a father that is not reaped and is once on the list of children of
exactly that thread; a pass of the exterminator reaps only threads without children. -/
theorem process_tree {k₀ k : Machine} (h₀ : ThreadReach TreeOp k₀)
    (hrun : Relation.ReflTransGen TreeStep k₀ k) :
    (∀ t ∈ k.allocated, t ≠ k.initThread → (k.threads t).father ∈ k.allocated ∧
      ∀ u ∈ k.allocated, (k.threads u).children.count t = if u = (k.threads t).father then 1 else 0) ∧
    ∀ k', exterminate k = some k' → ∀ t ∈ k.allocated, t ∉ k'.allocated →
      (k.threads t).children = [] := by
  have hfam : ∃ E, FamilyInv k E := by
    induction hrun with
    | refl => exact h₀.familyInv
    | tail _ hs ih =>
      obtain ⟨E, hf⟩ := ih
      exact hf.step hs
  obtain ⟨E, hf⟩ := hfam
  refine ⟨fun t ht hne => ?_, fun k' he t ht ht' => ?_⟩
  · obtain ⟨hfather, hin⟩ := hf.tree.father t ht hne
    refine ⟨hfather, fun u hu => ?_⟩
    split
    · next huf =>
      rw [huf]
      exact List.count_eq_one_of_mem (hf.tree.once _ hfather) hin
    · next huf =>
      exact List.count_eq_zero_of_not_mem fun hm => huf (hf.tree.child u hu t hm).2.2.symm
  · rw [(exterminate_spec hf.queues).1] at he
    cases he
    have hdoomed : t ∈ doomed k E := by_contra fun hno => ht' (mem_foldl_reap hno ht)
    obtain ⟨hmem, hz⟩ := List.mem_filter.mp hdoomed
    exact hf.leaf t hmem (by simpa using hz)

def sparesInit (k : Machine) : ThreadOp → Bool
  | .create _ _ _ => k.currentThread ∈ k.allocated && !(k.threads k.currentThread).state.ko
  | .stop t | .kill t | .signals t => t ≠ k.initThread
  | .exit _ => k.currentThread ≠ k.initThread
  | .reschedule _ => (k.threads k.initThread).signals.pending = 0
  | .tick _ => ((timersRun k).threads k.initThread).signals.pending = 0
  | _ => true

theorem sparesInit_spec {k : Machine} {op : ThreadOp} (h : sparesInit k op = true) : SparesInit k op := by
  have hpending : ∀ k' : Machine, (k'.threads k.initThread).signals.pending = 0 →
      ¬ Killed k.initThread k' := by
    intro k' hzero hkill
    apply hkill.1
    rw [hzero, Nat.zero_and, Nat.zero_and]
  cases op with
  | create t w e =>
    have h' : k.currentThread ∈ k.allocated ∧ (k.threads k.currentThread).state.ko = false := by
      simpa [sparesInit] using h
    exact ⟨fun hk => hk, fun e => (nomatch e), fun _ _ _ _ => h'⟩
  | stop t =>
    have hne : t ≠ k.initThread := by simpa [sparesInit] using h
    exact ⟨fun hk => hk, fun e => hne (ThreadOp.stop.inj e), fun _ _ _ e => nomatch e⟩
  | kill t =>
    have hne : t ≠ k.initThread := by simpa [sparesInit] using h
    exact ⟨fun hk => hne hk, fun e => (nomatch e), fun _ _ _ e => nomatch e⟩
  | signals t =>
    have hne : t ≠ k.initThread := by simpa [sparesInit] using h
    exact ⟨fun hk => hne hk.1, fun e => (nomatch e), fun _ _ _ e => nomatch e⟩
  | exit retCode =>
    have hne : k.currentThread ≠ k.initThread := by simpa [sparesInit] using h
    exact ⟨fun hk => hne hk, fun e => (nomatch e), fun _ _ _ e => nomatch e⟩
  | reschedule now =>
    have hzero : (k.threads k.initThread).signals.pending = 0 := by simpa [sparesInit] using h
    exact ⟨fun hk => hpending k hzero hk.2, fun e => (nomatch e), fun _ _ _ e => nomatch e⟩
  | tick now =>
    have hzero : ((timersRun k).threads k.initThread).signals.pending = 0 := by
      simpa [sparesInit] using h
    exact ⟨fun hk => hpending _ hzero hk.2.1, fun e => (nomatch e), fun _ _ _ e => nomatch e⟩
  | _ => exact ⟨fun hk => hk, fun e => (nomatch e), fun _ _ _ e => nomatch e⟩

def allPass (check : Machine → ThreadOp → Bool) : List ThreadOp → Machine → Bool
  | [], _ => true
  | op :: ops, k => check k op && ((exec op k).map (allPass check ops)).getD true

theorem ThreadReach.pass {allowed : Machine → ThreadOp → Prop} {check : Machine → ThreadOp → Bool}
    (hcheck : ∀ k op, check k op = true → allowed k op) {ops : List ThreadOp} {k k' : Machine}
    (h : ThreadReach allowed k) (hpass : allPass check ops k = true) (he : Kernel.execAll ops k = some k') :
    ThreadReach allowed k' := by
  induction ops generalizing k with
  | nil =>
    cases he
    exact h
  | cons op ops ih =>
    unfold Kernel.execAll at he
    unfold allPass at hpass
    rw [Bool.and_eq_true] at hpass
    obtain ⟨hop, hpass⟩ := hpass
    split at he
    · next hr =>
      cases hone : exec op k with
      | none =>
        rw [hone] at he
        cases he
      | some k₁ =>
        rw [hone] at he hpass
        exact ih (h.step ⟨op, hcheck k op hop, hr, hone⟩) hpass he
    · cases he

/-- The thread at 0x3000 creates those at 0x4000 and 0x5000 and waits for the first; both exit, the second
after it has created the one at 0x6000; then 0x3000 waits for the second. -/
def twoChildren : List ThreadOp :=
  [.wakeUp 0x2000, .create 0x3000 0 0, .wakeUp 0x3000, .wait4 2, .reschedule 100,
    .create 0x4000 0 0, .wakeUp 0x4000, .create 0x5000 0 0, .wakeUp 0x5000, .wait4 3, .reschedule 200,
    .exit 0, .reschedule 300, .create 0x6000 0 0, .exit 0, .reschedule 400, .wait4Done 0x4000, .wait4 4]

/-- The exterminator reaps 0x5000, whose child is not reaped. -/
theorem child_of_reaped : ∃ k k', ThreadReach SparesInit k ∧ exterminate k = some k' ∧
    0x5000 ∈ k.allocated ∧ (k.threads 0x5000).children = [0x6000] ∧
      0x5000 ∉ k'.allocated ∧ 0x6000 ∈ k'.allocated ∧ 0x6000 ≠ k'.initThread ∧
        (k'.threads 0x6000).father = 0x5000 := by
  have hpass : allPass sparesInit twoChildren started = true := by decide +kernel
  have hsome : (execAll twoChildren started).isSome := by decide +kernel
  have hreach := (started_reach SparesInit).pass (fun _ _ => sparesInit_spec) hpass (execAll_getD hsome)
  have hrun : (exterminate ((execAll twoChildren started).getD blankMachine)).isSome := by
    decide +kernel
  obtain ⟨k', hk'⟩ := Option.isSome_iff_exists.mp hrun
  have hget : k' = (exterminate ((execAll twoChildren started).getD blankMachine)).getD blankMachine := by
    rw [hk']
    rfl
  refine ⟨_, k', hreach, hk', by decide +kernel, by decide +kernel, ?_⟩
  rw [hget]
  decide +kernel

def buriesLeaves (k : Machine) : ThreadOp → Bool
  | .wait4 pid => (getThread pid k).all fun p => (k.threads p).children = []
  | .wait4Done p => (k.threads p).children = []
  | .wait4all | .wait4allDone =>
    (k.threads k.currentThread).children.all fun c => (k.threads c).children = []
  | _ => true

theorem buriesLeaves_spec {k : Machine} {op : ThreadOp} (h : buriesLeaves k op = true) :
    BuriesLeaves k op := by
  cases op with
  | wait4 pid =>
    intro p hp _ _ _ _
    have h' : (getThread pid k).all (fun p => decide ((k.threads p).children = [])) = true := h
    rw [hp] at h'
    simpa using h'
  | wait4Done p =>
    intro _ _ _
    simpa [buriesLeaves] using h
  | wait4all =>
    intro _ c hc _ _ _ _
    simpa using List.all_eq_true.mp h c hc
  | wait4allDone =>
    intro c hc _ _ _ _
    simpa using List.all_eq_true.mp h c hc
  | _ => trivial

/-- Before the second wait the tree is whole. -/
theorem process_tree_first_wait :
    ((execAll (twoChildren.take 17) started).getD blankMachine).allocated.contains
      (((execAll (twoChildren.take 17) started).getD blankMachine).threads 0x6000).father := by
  have hpass : allPass (fun k op => sparesInit k op && buriesLeaves k op) (twoChildren.take 17) started =
      true := by decide +kernel
  have hsome : (execAll (twoChildren.take 17) started).isSome := by decide +kernel
  have hreach : ThreadReach TreeOp ((execAll (twoChildren.take 17) started).getD blankMachine) := by
    refine (started_reach TreeOp).pass (fun k op h => ?_) hpass (execAll_getD hsome)
    rw [Bool.and_eq_true] at h
    exact ⟨sparesInit_spec h.1, buriesLeaves_spec h.2⟩
  have hfather := ((process_tree hreach .refl).1 0x6000 (by decide +kernel) (by decide +kernel)).1
  simpa using hfather

end X86Osdev.Kernel

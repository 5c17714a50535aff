import X86Osdev.Proc.QueueInvariant
import X86Osdev.Proc.Timers

/-! `wake_up_timers` on the lists themselves: it unlinks and frees the timer that its loop stands on and
moves threads between the scheduling queues. -/

namespace X86Osdev.Proc
open CircularList X86Osdev.Mem

/-- The `List` nodes of kernel/timer.h and of the scheduling queues. -/
inductive SchedNode where
  | kernelTimers
  | q (activeT : ℕ)
  | queue (q : Queue)
  | head (t : ℕ)
deriving DecidableEq

/-- Timers are named by their addresses; `freed` are those that went to `ffree`, in order. -/
structure TimerQueue where
  links : Links SchedNode
  timers : ℕ → Timer
  threads : ℕ → Thread
  tickCount : ℕ
  freed : List ℕ

/-- What the memory of a timer holds once it is freed. -/
structure Scrap where
  timer : Timer
  next : SchedNode
  prev : SchedNode

namespace TimerQueue

def ffree (scrap : ℕ → Scrap) (activeT : ℕ) (s : TimerQueue) : TimerQueue :=
  { s with
    links := (s.links.setNext (.q activeT) (scrap activeT).next).setPrev (.q activeT) (scrap activeT).prev
    timers := Function.update s.timers activeT (scrap activeT).timer
    freed := s.freed ++ [activeT] }

/-- `list_entry(tlist, Timer, q)`. -/
def entry : SchedNode → ℕ
  | .q activeT => activeT
  | _ => 0

/-- The body of the loop; the second component is `c`. -/
def wakeTimer (scrap : ℕ → Scrap) (tlist : SchedNode) (r : TimerQueue × ℕ) : TimerQueue × ℕ :=
  let activeT := entry tlist
  if r.1.tickCount ≥ (r.1.timers activeT).expiration then
    let s := { r.1 with links := r.1.links.listRemove (.q activeT) }
    let thread := (s.timers activeT).thread
    let s := { s with
      threads := Function.update s.threads thread { s.threads thread with state := .runnable } }
    let s := { s with links := s.links.listRemove (.head thread) }
    let s := { s with links := s.links.listAddTail (.queue .running) (.head thread) }
    (ffree scrap activeT s, u32 (r.2 + 1))
  else r

def wakeUpTimers (scrap : ℕ → Scrap) (s : TimerQueue) : Option (TimerQueue × ℕ) :=
  let pos := s.links.next .kernelTimers
  forEachSafe (fun r n => r.1.links.next n) (wakeTimer scrap) .kernelTimers listFuel pos
    (s.links.next pos) (s, 0)

/-- `wake_up_timers` fires the timer at `activeT`. -/
def due (s : TimerQueue) (activeT : ℕ) : Bool := (s.timers activeT).due s.tickCount

/-- The threads of the timers that are due, in the order in which these fire. -/
def fired (s : TimerQueue) (ts : List ℕ) : List ℕ := (ts.filter s.due).map fun t => (s.timers t).thread

end TimerQueue

inductive SchedList where
  | timers
  | queue (q : Queue)
deriving DecidableEq

def SchedList.head : SchedList → SchedNode
  | .timers => .kernelTimers
  | .queue q => .queue q

def schedNodes (ts : List ℕ) (E : Queue → List ℕ) : SchedList → List SchedNode
  | .timers => ts.map .q
  | .queue q => (E q).map .head

/-- `ts` are the timers in order, and `E` lists the threads of each queue in order; a thread of `live` is
in a queue or its `head` is linked to itself. -/
structure TimerQueue.WellFormed (s : TimerQueue) (live : Set ℕ) (ts : List ℕ) (E : Queue → List ℕ) :
    Prop where
  linkage : Linkage s.links SchedList.head (schedNodes ts E)
    {n | ∃ t ∈ live, n = .head t ∧ ∀ q, t ∉ E q}
  inQueue : ∀ q, ∀ t ∈ E q, t ∈ live
  threads : ∀ t ∈ ts, (s.timers t).thread ∈ live
  addresses : ∀ t ∈ ts, t ≠ 0 ∧ t < 2 ^ 32

section Nodes
variable {ts : List ℕ} {E : Queue → List ℕ} {t u : ℕ}

theorem q_injective : Function.Injective SchedNode.q := fun _ _ h => SchedNode.q.inj h

theorem schedHead_injective : Function.Injective SchedNode.head := fun _ _ h => SchedNode.head.inj h

theorem without_timer : without (schedNodes ts E) (.q t) = schedNodes (ts.erase t) E := by
  funext i
  cases i with
  | timers => exact (List.map_erase q_injective ts).symm
  | queue q => exact List.erase_of_not_mem (by simp [schedNodes])

theorem without_thread : without (schedNodes ts E) (.head u) = schedNodes ts (without E u) := by
  funext i
  cases i with
  | timers => exact List.erase_of_not_mem (by simp [schedNodes])
  | queue q => exact (List.map_erase schedHead_injective (E q)).symm

theorem movedTail_thread (q : Queue) :
    movedTail (schedNodes ts E) (.queue q) (.head u) = schedNodes ts (movedTail E q u) := by
  funext i
  unfold movedTail
  rw [without_thread]
  cases i with
  | timers => exact Function.update_of_ne (by simp) _ _
  | queue j =>
    by_cases hj : j = q
    · subst hj
      have hmap := List.map_erase schedHead_injective (E j) (a := u)
      simp [schedNodes, hmap]
    · have hne : SchedList.queue j ≠ SchedList.queue q := fun e => hj (SchedList.queue.inj e)
      rw [Function.update_of_ne hne]
      show _ = (Function.update (without E u) q _ j).map _
      rw [Function.update_of_ne hj]
      rfl

end Nodes

section Timer
variable {scrap : ℕ → Scrap} {s : TimerQueue} {live : Set ℕ} {ts : List ℕ} {E : Queue → List ℕ} {t c : ℕ}

theorem TimerQueue.WellFormed.nodup_timers (h : s.WellFormed live ts E) : ts.Nodup :=
  (h.linkage.nodup .timers).of_map _

theorem TimerQueue.WellFormed.nodup_queue (h : s.WellFormed live ts E) (q : Queue) : (E q).Nodup :=
  (h.linkage.nodup (.queue q)).of_map _

theorem TimerQueue.wakeTimer_not_due (scrap : ℕ → Scrap) (c : ℕ) (hdue : s.due t = false) :
    TimerQueue.wakeTimer scrap (.q t) (s, c) = (s, c) := by
  unfold TimerQueue.wakeTimer
  exact if_neg (of_decide_eq_false hdue)

def TimerQueue.fire (scrap : ℕ → Scrap) (t : ℕ) (s : TimerQueue) : TimerQueue :=
  let thread := (s.timers t).thread
  ffree scrap t { s with
    links := ((s.links.listRemove (.q t)).listRemove (.head thread)).listAddTail (.queue .running)
      (.head thread)
    threads := Function.update s.threads thread { s.threads thread with state := .runnable } }

theorem TimerQueue.wakeTimer_due (scrap : ℕ → Scrap) (c : ℕ) (hdue : s.due t = true) :
    TimerQueue.wakeTimer scrap (.q t) (s, c) = (s.fire scrap t, u32 (c + 1)) := by
  unfold TimerQueue.wakeTimer
  exact if_pos (of_decide_eq_true hdue)

theorem TimerQueue.WellFormed.fire (h : s.WellFormed live ts E) (scrap : ℕ → Scrap) (ht : t ∈ ts) :
    (s.fire scrap t).WellFormed live (ts.erase t) (movedTail E .running (s.timers t).thread) := by
  set u := (s.timers t).thread with hu
  have hlive : u ∈ live := h.threads t ht
  have hmem : ∀ x j, x ∈ movedTail E .running u j ↔ (x = u ∧ j = .running) ∨ (x ≠ u ∧ x ∈ E j) :=
    fun x j => mem_movedTail (h.nodup_queue j)
  obtain ⟨hrem, hout⟩ := h.linkage.listRemove (n := .q t) (.inr ⟨.timers, List.mem_map_of_mem ht⟩)
  rw [without_timer] at hrem hout
  -- wherever the thread is, it goes to the tail
  have hplaced : SchedNode.head u ∈ {n | ∃ t ∈ live, n = .head t ∧ ∀ q, t ∉ E q} \ {.q t} ∨
      ∃ i, SchedNode.head u ∈ schedNodes (ts.erase t) E i := by
    by_cases hin : ∃ q, u ∈ E q
    · obtain ⟨q, hq⟩ := hin
      exact .inr ⟨.queue q, List.mem_map_of_mem hq⟩
    · exact .inl ⟨⟨u, hlive, rfl, fun q hq => hin ⟨q, hq⟩⟩, by simp⟩
  have hmove := hrem.moveTail hplaced (.queue .running)
  rw [movedTail_thread] at hmove
  have hunlinked : Unlinked SchedList.head (schedNodes (ts.erase t) (movedTail E .running u)) (.q t) := by
    intro i hi
    cases i with
    | timers => exact hout .timers hi
    | queue q => simp [SchedList.head, schedNodes] at hi
  -- what the freed timer holds does not matter
  have hscrap : Linkage (s.fire scrap t).links SchedList.head _ _ :=
    hmove.congr hunlinked (fun hm => hm.1.2 rfl) ?_
  · refine ⟨hscrap.mono ?_, fun q x hx => ?_, fun x hx => ?_, fun x hx => ?_⟩
    · rintro n ⟨x, hx, rfl, hnot⟩
      have hxu : x ≠ u := fun e => hnot .running ((hmem x .running).mpr (.inl ⟨e, rfl⟩))
      refine ⟨⟨⟨x, hx, rfl, fun q hq => hnot q ((hmem x q).mpr (.inr ⟨hxu, hq⟩))⟩, by simp⟩, ?_⟩
      exact fun e => hxu (schedHead_injective e)
    · rcases (hmem x q).mp hx with ⟨rfl, _⟩ | ⟨_, hin⟩
      · exact hlive
      · exact h.inQueue q x hin
    · obtain ⟨hne, hin⟩ := h.nodup_timers.mem_erase_iff.mp hx
      show ((Function.update s.timers t _) x).thread ∈ live
      rw [Function.update_of_ne hne]
      exact h.threads x hin
    · exact h.addresses x (List.mem_of_mem_erase hx)
  · intro m hm
    unfold TimerQueue.fire TimerQueue.ffree
    simp only [next_setPrev, next_setNext, prev_setPrev, prev_setNext, if_neg hm]
    exact ⟨rfl, rfl⟩

end Timer

structure Passing (s₀ : TimerQueue) (live : Set ℕ) (ts : List ℕ) (E : Queue → List ℕ)
    (seen rest : List ℕ) (r : TimerQueue × ℕ) : Prop where
  split : ts = seen ++ rest
  lists : r.1.WellFormed live (seen.filter (fun t => !s₀.due t) ++ rest)
    ((s₀.fired seen).foldl (fun E u => movedTail E .running u) E)
  tickCount : r.1.tickCount = s₀.tickCount
  timers : ∀ t, t ∉ seen ∨ s₀.due t = false → r.1.timers t = s₀.timers t
  threads : ∀ u, r.1.threads u =
    if u ∈ s₀.fired seen then { s₀.threads u with state := .runnable } else s₀.threads u
  freed : r.1.freed = s₀.freed ++ seen.filter s₀.due
  count : r.2 = u32 (seen.filter s₀.due).length

section Loop
variable {scrap : ℕ → Scrap} {s₀ : TimerQueue} {live : Set ℕ} {ts : List ℕ} {E : Queue → List ℕ}
  {seen rest : List ℕ} {r : TimerQueue × ℕ} {x : ℕ}

theorem Passing.due_eq (h : Passing s₀ live ts E seen rest r) (hx : x ∉ seen) :
    r.1.due x = s₀.due x := by
  unfold TimerQueue.due
  rw [h.timers x (.inl hx), h.tickCount]

theorem Passing.step_not_due (h : Passing s₀ live ts E seen (x :: rest) r) (hdue : s₀.due x = false) :
    Passing s₀ live ts E (seen ++ [x]) rest r := by
  have hfilter : (seen ++ [x]).filter s₀.due = seen.filter s₀.due := by
    rw [List.filter_append, List.filter_cons_of_neg (by simp [hdue]), List.filter_nil, List.append_nil]
  have hfired : s₀.fired (seen ++ [x]) = s₀.fired seen := by
    unfold TimerQueue.fired
    rw [hfilter]
  have hkept : (seen ++ [x]).filter (fun t => !s₀.due t) ++ rest =
      seen.filter (fun t => !s₀.due t) ++ x :: rest := by
    rw [List.filter_append, List.filter_cons_of_pos (by simp [hdue]), List.filter_nil,
      List.append_assoc, List.singleton_append]
  refine ⟨by rw [h.split, List.append_assoc, List.singleton_append], ?_, h.tickCount, fun t ht => ?_,
    ?_, ?_, ?_⟩
  · rw [hkept, hfired]
    exact h.lists
  · apply h.timers
    rcases ht with ht | ht
    · exact .inl fun hm => ht (List.mem_append_left _ hm)
    · exact .inr ht
  · rw [hfired]
    exact h.threads
  · rw [hfilter]
    exact h.freed
  · rw [hfilter]
    exact h.count

theorem Passing.step_due (h : Passing s₀ live ts E seen (x :: rest) r) (hx : x ∉ seen)
    (hdue : s₀.due x = true) :
    Passing s₀ live ts E (seen ++ [x]) rest (r.1.fire scrap x, u32 (r.2 + 1)) := by
  have hfilter : (seen ++ [x]).filter s₀.due = seen.filter s₀.due ++ [x] := by
    rw [List.filter_append, List.filter_cons_of_pos hdue, List.filter_nil]
  have hfired : s₀.fired (seen ++ [x]) = s₀.fired seen ++ [(s₀.timers x).thread] := by
    unfold TimerQueue.fired
    rw [hfilter, List.map_append]
    rfl
  have hkept : (seen ++ [x]).filter (fun t => !s₀.due t) ++ rest =
      (seen.filter (fun t => !s₀.due t) ++ x :: rest).erase x := by
    rw [List.filter_append, List.filter_cons_of_neg (by simp [hdue]), List.filter_nil, List.append_nil,
      List.erase_append_right _ (fun hm => hx (List.mem_of_mem_filter hm)), List.erase_cons_head]
  have htimer : r.1.timers x = s₀.timers x := h.timers x (.inl hx)
  have hxin : x ∈ seen.filter (fun t => !s₀.due t) ++ x :: rest := by simp
  have hfire := h.lists.fire scrap hxin
  refine ⟨by rw [h.split, List.append_assoc, List.singleton_append], ?_, h.tickCount, fun t ht => ?_,
    fun u => ?_, ?_, ?_⟩
  · rw [hkept, hfired, List.foldl_append]
    rw [htimer] at hfire
    exact hfire
  · have htx : t ≠ x := by
      rintro rfl
      rcases ht with ht | ht
      · exact ht (by simp)
      · rw [hdue] at ht
        cases ht
    show Function.update r.1.timers x _ t = _
    rw [Function.update_of_ne htx]
    apply h.timers
    rcases ht with ht | ht
    · exact .inl fun hm => ht (List.mem_append_left _ hm)
    · exact .inr ht
  · show Function.update r.1.threads (r.1.timers x).thread _ u = _
    rw [hfired, htimer, Function.update_apply, h.threads, h.threads]
    by_cases hu : u = (s₀.timers x).thread
    · subst hu
      rw [if_pos rfl, if_pos (List.mem_append_right _ (List.mem_singleton_self _))]
      by_cases hm : (s₀.timers x).thread ∈ s₀.fired seen
      · rw [if_pos hm]
      · rw [if_neg hm]
    · simp [hu]
  · show r.1.freed ++ [x] = _
    rw [h.freed, hfilter, List.append_assoc]
  · show u32 (r.2 + 1) = _
    rw [h.count, hfilter, List.length_append]
    unfold u32
    exact Nat.mod_add_mod _ _ _

theorem Passing.step (h : Passing s₀ live ts E seen (x :: rest) r) (hnd : ts.Nodup) :
    Passing s₀ live ts E (seen ++ [x]) rest (TimerQueue.wakeTimer scrap (.q x) r) := by
  rw [h.split] at hnd
  have hx : x ∉ seen := fun hm => List.disjoint_of_nodup_append hnd hm (List.mem_cons_self ..)
  cases hdue : s₀.due x with
  | false =>
    have hrun := TimerQueue.wakeTimer_not_due scrap r.2 ((h.due_eq hx).trans hdue)
    rw [hrun]
    exact h.step_not_due hdue
  | true =>
    have hrun := TimerQueue.wakeTimer_due scrap r.2 ((h.due_eq hx).trans hdue)
    rw [hrun]
    exact h.step_due hx hdue

/-- The next timer is the first of those that are still to come. -/
theorem Passing.next (h : Passing s₀ live ts E seen (x :: rest) r) :
    r.1.links.next (.q x) = (rest.map SchedNode.q).headD .kernelTimers := by
  have hc := h.lists.linkage.rings.carries .timers
  unfold schedNodes at hc
  rw [List.map_append, List.map_cons] at hc
  exact hc.next_eq

def wokenQueues (fired : List ℕ) (E : Queue → List ℕ) (q : Queue) : List ℕ :=
  (E q).filter (fun u => decide (u ∉ fired)) ++ if q = .running then fired.dedup else []

theorem foldl_movedTail_running (hnd : ∀ q, (E q).Nodup) (fired : List ℕ) :
    fired.foldl (fun E u => movedTail E .running u) E = wokenQueues fired E := by
  funext q
  exact foldl_movedTail hnd fired q

theorem TimerQueue.WellFormed.short (h : s₀.WellFormed live ts E) : ts.length < 2 ^ 32 :=
  length_lt_of_addresses h.nodup_timers h.addresses

theorem TimerQueue.WellFormed.run (h : s₀.WellFormed live ts E) (scrap : ℕ → Scrap) :
    ∃ r, s₀.wakeUpTimers scrap = some r ∧ Passing s₀ live ts E ts [] r := by
  have hstart : Passing s₀ live ts E [] ts (s₀, 0) := by
    refine ⟨rfl, h, rfl, fun _ _ => rfl, fun u => ?_, ?_, rfl⟩
    · exact (if_neg List.not_mem_nil).symm
    · exact (List.append_nil _).symm
  have hfuel : (ts.map SchedNode.q).length < listFuel := by
    rw [List.length_map]
    unfold listFuel
    exact h.short
  let I : List SchedNode → TimerQueue × ℕ → Prop := fun nodes r =>
    ∃ seen rest, nodes = rest.map SchedNode.q ∧ Passing s₀ live ts E seen rest r
  have hI₀ : I (ts.map SchedNode.q) (s₀, 0) := ⟨[], ts, rfl, hstart⟩
  have hloop := forEachSafe_list (fun r n => r.1.links.next n) (TimerQueue.wakeTimer scrap)
    SchedNode.kernelTimers I ?_ ?_ ?_ hI₀ hfuel
  · obtain ⟨r, hrun, seen, rest, hrest, hI⟩ := hloop
    obtain rfl := List.map_eq_nil_iff.mp hrest.symm
    have hseen : ts = seen := hI.split.trans (List.append_nil seen)
    have hfirst : s₀.links.next .kernelTimers = (ts.map SchedNode.q).headD .kernelTimers :=
      (h.linkage.rings.carries .timers).next_head
    refine ⟨r, ?_, hseen ▸ hI⟩
    unfold TimerQueue.wakeUpTimers
    rw [hfirst]
    exact hrun
  · rintro n nodes r ⟨seen, rest, hrest, hI⟩ rfl
    obtain ⟨x, rest, -, hx, -⟩ := List.map_eq_cons_iff.mp hrest.symm
    cases hx
  · rintro n nodes r ⟨seen, rest, hrest, hI⟩
    obtain ⟨x, rest, rfl, rfl, rfl⟩ := List.map_eq_cons_iff.mp hrest.symm
    exact hI.next
  · rintro n nodes r ⟨seen, rest, hrest, hI⟩
    obtain ⟨x, rest, rfl, rfl, rfl⟩ := List.map_eq_cons_iff.mp hrest.symm
    exact ⟨seen ++ [x], rest, rfl, hI.step h.nodup_timers⟩

theorem TimerQueue.WellFormed.wakeUpTimers (h : s₀.WellFormed live ts E) (scrap : ℕ → Scrap) :
    ∃ s', s₀.wakeUpTimers scrap = some (s', (ts.filter s₀.due).length) ∧
      s'.WellFormed live (ts.filter fun t => !s₀.due t) (wokenQueues (s₀.fired ts) E) ∧
      Passing s₀ live ts E ts [] (s', (ts.filter s₀.due).length) := by
  obtain ⟨⟨s', c⟩, hrun, hI⟩ := h.run scrap
  have hlists := hI.lists
  rw [foldl_movedTail_running h.nodup_queue, List.append_nil] at hlists
  have hcount : c = (ts.filter s₀.due).length := by
    refine hI.count.trans (Nat.mod_eq_of_lt ?_)
    exact (List.length_filter_le _ _).trans_lt h.short
  subst hcount
  exact ⟨s', hrun, hlists, hI⟩

/-- Exactly the timers that are due are freed, once each; their threads end the running queue in the order
of their last timers, and everything else stays where it is. -/
theorem timers_expire (scrap : ℕ → Scrap) (h : s₀.WellFormed live ts E) :
    ∃ s', s₀.wakeUpTimers scrap = some (s', (ts.filter s₀.due).length) ∧
      s'.WellFormed live (ts.filter fun t => !s₀.due t) (wokenQueues (s₀.fired ts) E) ∧
      s'.freed = s₀.freed ++ ts.filter s₀.due ∧ (ts.filter s₀.due).Nodup ∧
      (∀ t ∈ ts.filter fun t => !s₀.due t, s'.timers t = s₀.timers t) ∧
      (∀ u ∈ s₀.fired ts, s'.threads u = { s₀.threads u with state := .runnable } ∧
        (wokenQueues (s₀.fired ts) E .running).count u = 1 ∧
        ∀ q ≠ .running, u ∉ wokenQueues (s₀.fired ts) E q) ∧
      ∀ u ∉ s₀.fired ts, s'.threads u = s₀.threads u := by
  obtain ⟨s', hrun, hlists, hI⟩ := h.wakeUpTimers scrap
  refine ⟨s', hrun, hlists, hI.freed, h.nodup_timers.filter _, fun t ht => ?_,
    fun u hu => ⟨?_, ?_, fun q hq hm => ?_⟩, fun u hu => ?_⟩
  · have hdue := (List.mem_filter.mp ht).2
    exact hI.timers t (.inr (by simpa using hdue))
  · rw [hI.threads, if_pos hu]
  · apply List.count_eq_one_of_mem (hlists.nodup_queue .running)
    exact List.mem_append_right _ (by simpa using hu)
  · unfold wokenQueues at hm
    rw [if_neg hq, List.append_nil] at hm
    simp [hu] at hm
  · rw [hI.threads, if_neg hu]

end Loop

def idleScrap (_ : ℕ) : Scrap := ⟨⟨0, 0⟩, .kernelTimers, .kernelTimers⟩

def twoSleepers : TimerQueue where
  links := (((((⟨id, id⟩ : Links SchedNode).listAddTail .kernelTimers (.q 0x10)).listAddTail
    .kernelTimers (.q 0x20)).listAddTail (.queue .sleep) (.head 0x1000)).listAddTail (.queue .sleep)
    (.head 0x2000))
  timers := fun t => if t = 0x10 then ⟨5, 0x1000⟩ else ⟨9, 0x2000⟩
  threads := fun _ => ⟨.interruptible, 1, ⟨0, allSignals⟩, 0, 0, 0, 1, 1, 0x1000, [], false, 0, 0⟩
  tickCount := 7
  freed := []

def sleepersQueues : Queue → List ℕ
  | .sleep => [0x1000, 0x2000]
  | _ => []

theorem wellFormed_twoSleepers :
    twoSleepers.WellFormed {0x1000, 0x2000} [0x10, 0x20] sleepersQueues := by
  have hheads : Function.Injective SchedList.head := by
    rintro (_ | p) (_ | q) h
    · rfl
    · cases h
    · cases h
    · rw [SchedNode.queue.inj h]
  have hlinks := (((Linkage.empty hheads).listAddTail (n := .q 0x10) .timers
    (by rintro (_ | _ | _ | _) <;> decide) (fun h => h.elim)).listAddTail (n := .q 0x20) .timers
    (by rintro (_ | _ | _ | _) <;> decide) (fun h => h.elim)).listAddTail (n := .head 0x1000)
    (.queue .sleep) (by rintro (_ | _ | _ | _) <;> decide) (fun h => h.elim)
  have hlinkage := hlinks.listAddTail (n := .head 0x2000) (.queue .sleep)
    (by rintro (_ | _ | _ | _) <;> decide) (fun h => h.elim)
  refine ⟨?_, ?_, ?_, ?_⟩
  · have hsame : Linkage twoSleepers.links SchedList.head (schedNodes [0x10, 0x20] sleepersQueues) ∅ := by
      convert hlinkage using 1
      · rfl
      · funext i
        rcases i with _ | _ | _ | _
        · rfl
        · rfl
        · rfl
        · rfl
    refine hsame.mono ?_
    rintro n ⟨t, ht, -, hout⟩
    exact absurd (hout .sleep) (by rcases ht with rfl | rfl <;> decide)
  · intro q t ht
    cases q with
    | sleep => simpa [sleepersQueues] using ht
    | running => cases ht
    | stopped => cases ht
  · intro t ht
    rcases List.mem_pair.mp ht with rfl | rfl
    · exact .inl rfl
    · exact .inr rfl
  · decide

theorem timers_expire_twoSleepers : ∃ s', twoSleepers.wakeUpTimers idleScrap = some (s', 1) ∧
    s'.freed = [0x10] ∧ s'.WellFormed {0x1000, 0x2000} [0x20] (wokenQueues [0x1000] sleepersQueues) := by
  obtain ⟨s', hrun, hlists, hfreed, -⟩ := timers_expire idleScrap wellFormed_twoSleepers
  exact ⟨s', hrun, hfreed, hlists⟩

section Machine
variable {k : Machine} {E : Queue → List ℕ}

def firedThreads (tickCount : ℕ) (l : List Timer) : List ℕ :=
  (l.filter fun a => a.due tickCount).map Timer.thread

theorem foldl_wakeTimer_spec (l : List Timer) (h : QueueInv k E)
    (hl : ∀ a ∈ l, a.thread ∈ k.allocated) :
    QueueInv (l.foldl wakeTimer k)
        ((firedThreads k.tickCount l).foldl (fun E u => movedTail E .running u) E) ∧
      (l.foldl wakeTimer k).tickCount = k.tickCount ∧
      (l.foldl wakeTimer k).allocated = k.allocated ∧
      ∀ u, (l.foldl wakeTimer k).threads u =
        if u ∈ firedThreads k.tickCount l then { k.threads u with state := .runnable }
        else k.threads u := by
  induction l generalizing k E with
  | nil => exact ⟨h, rfl, rfl, fun u => (if_neg List.not_mem_nil).symm⟩
  | cons a l ih =>
    rw [List.foldl_cons]
    unfold firedThreads
    cases hdue : a.due k.tickCount with
    | false =>
      rw [wakeTimer_not_due hdue, List.filter_cons_of_neg (by simp [hdue])]
      exact ih h fun b hb => hl b (List.mem_cons_of_mem _ hb)
    | true =>
      have hone : QueueInv (wakeTimer k a) (movedTail E .running a.thread) := by
        rw [wakeTimer_due hdue]
        have herased : QueueInv { k with kernelTimers := k.kernelTimers.erase a } E := h.congr rfl rfl rfl
        exact (herased.setState a.thread .runnable).toTail (hl a (List.mem_cons_self ..)) .running
      obtain ⟨hinv, htick, halloc, hthreads⟩ := ih hone (by
        rw [wakeTimer_due hdue]
        exact fun b hb => hl b (List.mem_cons_of_mem _ hb))
      rw [wakeTimer_due hdue] at hinv htick halloc hthreads ⊢
      rw [List.filter_cons_of_pos hdue, List.map_cons, List.foldl_cons]
      refine ⟨hinv, htick, halloc, fun u => ?_⟩
      rw [hthreads]
      by_cases hu : u = a.thread
      · subst hu
        rw [if_pos (List.mem_cons_self ..)]
        show (if _ then { Function.update k.threads a.thread _ a.thread with state := .runnable }
          else Function.update k.threads a.thread _ a.thread) = _
        rw [Function.update_self, ite_self]
      · show (if _ then { Function.update k.threads a.thread _ u with state := .runnable }
          else Function.update k.threads a.thread _ u) = _
        rw [Function.update_of_ne hu]
        simp only [List.mem_cons, hu, false_or]
        rfl

structure TimerQueue.Shows (s : TimerQueue) (ts : List ℕ) (E : Queue → List ℕ) (k : Machine) : Prop where
  lists : s.WellFormed {t | t ∈ k.allocated} ts E
  queues : QueueInv k E
  timers : k.kernelTimers = ts.map s.timers
  threads : k.threads = s.threads
  tickCount : k.tickCount = s.tickCount

theorem TimerQueue.Shows.wakeUpTimers {s : TimerQueue} {ts : List ℕ} (h : s.Shows ts E k)
    (scrap : ℕ → Scrap) : ∃ s', s.wakeUpTimers scrap = some (s', (ts.filter s.due).length) ∧
      s'.Shows (ts.filter fun t => !s.due t) (wokenQueues (s.fired ts) E) (Proc.wakeUpTimers k) := by
  have hfired : firedThreads k.tickCount k.kernelTimers = s.fired ts := by
    unfold firedThreads TimerQueue.fired
    rw [h.timers, List.filter_map, List.map_map, h.tickCount]
    rfl
  obtain ⟨s', hrun, hlists, hI⟩ := h.lists.wakeUpTimers scrap
  obtain ⟨hqueues, htick, halloc, hthreads⟩ := foldl_wakeTimer_spec k.kernelTimers h.queues (by
    rw [h.timers]
    simpa using h.lists.threads)
  rw [hfired, foldl_movedTail_running h.queues.nodup_queue] at hqueues
  refine ⟨s', hrun, ⟨?_, hqueues, ?_, ?_, ?_⟩⟩
  · rw [show (Proc.wakeUpTimers k).allocated = k.allocated from halloc]
    exact hlists
  · rw [wakeUpTimers_timers, h.timers, List.filter_map, h.tickCount]
    refine List.map_congr_left fun t ht => (hI.timers t (.inr ?_)).symm
    have hdue : (!s.due t) = true := (List.mem_filter.mp ht).2
    simpa using hdue
  · funext u
    rw [show (Proc.wakeUpTimers k).threads u = _ from hthreads u, hfired, h.threads]
    exact (hI.threads u).symm
  · exact (htick.trans h.tickCount).trans hI.tickCount.symm

end Machine

end X86Osdev.Proc

import X86Osdev.Drivers.Keyboard
import X86Osdev.Kernel.KilledThreads
import X86Osdev.Library.Runs
import X86Osdev.Lock.WaitQueues

/-! The worker of proc/work_queue.c, with interrupts of the keyboard and of the network card between any two
of its statements. -/

namespace X86Osdev.Kernel
open CircularList X86Osdev.Mem X86Osdev.Proc X86Osdev.Lock X86Osdev.Drivers Runs

/-- The statement of `work_queue_thread` that comes next. -/
inductive WorkPc where
  | netWork
  | remove (p1 : ℕ)
  | free
  | keys
  | read
  | translate (scancode : UInt8)
  | write (c : UInt8)
  | decrement
  | test
  | clear
  | reset
  | sleep
  | reschedule
  | away
deriving DecidableEq

/-- `kwork_queue` holds `Work` structures; `stdin` is what `write_byte_stream` was called with. The lock of `stdin`
is left out: no other thread uses the device in a run, so that `get_lock` finds it free. -/
structure WorkRun where
  k : Machine
  keyboard : Keyboard
  kworkThread : ℕ
  kworkQueue : List ℕ
  totalPackets : ℕ
  stdin : List UInt8
  pc : WorkPc

/-- `reschedule` has a step of its own. -/
inductive WorkEvent where
  | run
  | reschedule (now : ℕ)
  | key (scancode : UInt8)
  | receive (work : ℕ) (works : List ℕ)
  | other (op : ThreadOp)

namespace WorkRun

def run (s : WorkRun) : WorkRun :=
  match s.pc with
  | .netWork =>
    match s.kworkQueue with
    | [] => { s with pc := .keys }
    | p1 :: _ => { s with totalPackets := u32 (s.totalPackets + 1), pc := .remove p1 }
  | .remove p1 => { s with kworkQueue := s.kworkQueue.erase p1, pc := .free }
  | .free => { s with pc := .netWork }
  | .keys => { s with pc := if s.keyboard.keyBufAvail > 0 then .read else .sleep }
  | .read => { s with keyboard := s.keyboard.read.2, pc := .translate s.keyboard.read.1 }
  | .translate scancode => { s with pc := .write (Drivers.translate scancode) }
  | .write c => { s with stdin := s.stdin ++ [c], pc := .decrement }
  | .decrement => { s with keyboard := s.keyboard.decrement, pc := .test }
  | .test => { s with pc := if s.keyboard.keyBufAvail ≤ 0 then .clear else .keys }
  | .clear => { s with keyboard := s.keyboard.clear, pc := .reset }
  | .reset => { s with keyboard := s.keyboard.reset, pc := .keys }
  | .sleep => { s with k := sleepThread s.k.currentThread s.k, pc := .reschedule }
  | .reschedule => s
  | .away => { s with pc := .netWork }

def keyboardCallback (scancode : UInt8) (s : WorkRun) : Option WorkRun :=
  if scancode > scMax then some s
  else (s.keyboard.accept scancode).map fun keyboard =>
    { s with keyboard, k := wakeUpThread s.kworkThread s.k }

/-- The loop of `receive_packet` runs once for each of `works`, and the wake-up follows it. -/
def receivePacket (works : List ℕ) (s : WorkRun) : WorkRun :=
  { s with kworkQueue := s.kworkQueue ++ works, k := wakeUpThread s.kworkThread s.k }

end WorkRun

/-- A statement of the worker, while it runs; an interrupt, which stands for a loop of `receive_packet` with
at least one packet; an operation of another thread. -/
def workStep : WorkEvent → WorkRun → Option WorkRun
  | .run, s => if s.k.currentThread = s.kworkThread ∧ s.pc ≠ .reschedule then some s.run else none
  | .reschedule now, s =>
    if s.k.currentThread = s.kworkThread ∧ s.pc = .reschedule then
      (exec (.reschedule now) s.k).map fun k => { s with k, pc := .away }
    else none
  | .key scancode, s => s.keyboardCallback scancode
  | .receive work works, s => some (s.receivePacket (work :: works))
  | .other op, s => (exec op s.k).map fun k => { s with k }

/-- The other threads leave the worker in its queue, and no signal is sent to it. -/
def SparesWorker (s : WorkRun) : WorkEvent → Prop
  | .reschedule now => Refers s.k (.reschedule now) ∧ ¬ Moved s.k (.reschedule now) s.kworkThread
  | .other op => Refers s.k op ∧ ¬ Moved s.k op s.kworkThread
  | .run | .key _ | .receive _ _ => True

def WorkPc.pastNetWork : WorkPc → Bool
  | .netWork | .remove _ | .free | .reschedule | .away => false
  | _ => true

/-- The interrupts that come before the test that they are for: a scancode does not arrive between the last
test of `key_buf_avail` and `sleep_thread`, a packet not between the end of the loop over `kwork_queue` and
`sleep_thread`. -/
def InTime (s : WorkRun) : WorkEvent → Prop
  | .key scancode => scancode ≤ scMax → s.pc ≠ .sleep
  | .receive _ _ => s.pc.pastNetWork = false
  | .run | .reschedule _ | .other _ => True

structure WorkStart (s : WorkRun) : Prop where
  threads : ThreadReach anyOp s.k
  awake : OnQueue s.k .running s.kworkThread
  current : s.k.currentThread = s.kworkThread
  works : s.kworkQueue = []
  keys : s.keyboard.keyBufAvail = 0
  pc : s.pc = .netWork

def WorkPc.busy : WorkPc → Bool
  | .read | .translate _ | .write _ | .decrement => true
  | _ => false

structure WorkInv (s : WorkRun) (E : Queue → List ℕ) : Prop where
  queues : IdleInv False s.k E
  linked : ∃ q, s.kworkThread ∈ E q
  asleep : s.kworkThread ∈ E .sleep → s.kworkQueue = [] ∧ s.keyboard.keyBufAvail = 0 ∧ s.pc.busy = false
  works : s.pc.pastNetWork = true → s.kworkQueue = []
  keys : s.pc = .sleep → s.keyboard.keyBufAvail = 0

section Queues
variable {awake : Prop} {k k' : Machine} {E : Queue → List ℕ} {t : ℕ} {op : ThreadOp}

theorem IdleInv.wakeUp (h : IdleInv awake k E) (ht : t ∈ k.allocated) :
    IdleInv awake (wakeUpThread t k) (movedTail E .running t) :=
  h.play (m := .wake t .runnable) ht

theorem IdleInv.goesToSleep (h : IdleInv awake k E) (ht : t ∈ k.allocated) :
    IdleInv awake (sleepThread t k) E ∨ IdleInv awake (sleepThread t k) (movedHead E .sleep t) := by
  unfold sleepThread
  split
  · exact .inl h
  · next hp => exact .inr (h.play (m := .sleep t) ⟨ht, hp⟩)

theorem IdleInv.spared (h : IdleInv awake k E) (hr : Refers k op) (hm : ¬ Moved k op t)
    (he : Kernel.exec op k = some k') :
    ∃ E', IdleInv awake k' E' ∧ ∀ q, t ∈ E' q ↔ t ∈ E q := by
  obtain ⟨E', hi, hkept⟩ := h.exec hr he
  have hone : ∀ u, Moved k op u → decide (u = t) = false := fun u hu =>
    decide_eq_false fun e => hm (e ▸ hu)
  refine ⟨E', hi, fun q => ?_⟩
  have hmem : t ∈ (E' q).filter (fun u => decide (u = t)) ↔ t ∈ (E q).filter (fun u => decide (u = t)) := by
    rw [hkept _ hone]
  simpa only [List.mem_filter, decide_true, and_true] using hmem

end Queues

section Worker
variable {s s' : WorkRun} {E : Queue → List ℕ} {ev : WorkEvent} {scancode : UInt8}

theorem WorkInv.allocated (h : WorkInv s E) : s.kworkThread ∈ s.k.allocated := by
  obtain ⟨q, hq⟩ := h.linked
  exact h.queues.queues.unreaped q _ hq

theorem WorkInv.awake_of_busy (h : WorkInv s E) (hbusy : s.pc.busy = true) :
    s.kworkThread ∉ E .sleep := by
  intro hs
  obtain ⟨-, -, hidle⟩ := h.asleep hs
  rw [hbusy] at hidle
  cases hidle

theorem WorkInv.run (h : WorkInv s E) (hcur : s.k.currentThread = s.kworkThread) :
    ∃ E', WorkInv s.run E' := by
  unfold WorkRun.run
  cases hpc : s.pc with
  | netWork =>
    cases hqueue : s.kworkQueue with
    | nil =>
      refine ⟨E, h.queues, h.linked, fun hs => ?_, fun _ => rfl, fun hp => (nomatch hp)⟩
      exact ⟨rfl, (h.asleep hs).2.1, rfl⟩
    | cons p1 works =>
      refine ⟨E, h.queues, h.linked, fun hs => ?_, fun hp => (nomatch hp), fun hp => (nomatch hp)⟩
      have hempty := (h.asleep hs).1
      rw [hqueue] at hempty
      cases hempty
  | remove p1 =>
    refine ⟨E, h.queues, h.linked, fun hs => ?_, fun hp => (nomatch hp), fun hp => (nomatch hp)⟩
    obtain ⟨hempty, hkeys, -⟩ := h.asleep hs
    refine ⟨?_, hkeys, rfl⟩
    show s.kworkQueue.erase p1 = []
    rw [hempty, List.erase_nil]
  | free =>
    refine ⟨E, h.queues, h.linked, fun hs => ?_, fun hp => (nomatch hp), fun hp => (nomatch hp)⟩
    exact ⟨(h.asleep hs).1, (h.asleep hs).2.1, rfl⟩
  | keys =>
    have hworks := h.works (by rw [hpc]; rfl)
    dsimp only
    split
    · next hpos =>
      -- with a scancode in the buffer the worker is not on the sleep queue
      refine ⟨E, h.queues, h.linked, fun hs => ?_, fun _ => hworks, fun hp => (nomatch hp)⟩
      exact absurd (h.asleep hs).2.1 (Nat.pos_iff_ne_zero.mp hpos)
    · next hzero =>
      have hkeys : s.keyboard.keyBufAvail = 0 := Nat.eq_zero_of_not_pos hzero
      exact ⟨E, h.queues, h.linked, fun _ => ⟨hworks, hkeys, rfl⟩, fun _ => hworks, fun _ => hkeys⟩
  | read | translate scancode | write c =>
    have hworks := h.works (by rw [hpc]; rfl)
    have hawake := h.awake_of_busy (by rw [hpc]; rfl)
    exact ⟨E, h.queues, h.linked, fun hs => absurd hs hawake, fun _ => hworks, fun hp => (nomatch hp)⟩
  | decrement =>
    have hworks := h.works (by rw [hpc]; rfl)
    have hawake := h.awake_of_busy (by rw [hpc]; rfl)
    dsimp only
    generalize s.keyboard.decrement = keyboard
    exact ⟨E, h.queues, h.linked, fun hs => absurd hs hawake, fun _ => hworks, fun hp => (nomatch hp)⟩
  | test =>
    have hworks := h.works (by rw [hpc]; rfl)
    dsimp only
    split
    all_goals
      refine ⟨E, h.queues, h.linked, fun hs => ?_, fun _ => hworks, fun hp => (nomatch hp)⟩
      exact ⟨hworks, (h.asleep hs).2.1, rfl⟩
  | clear =>
    have hworks := h.works (by rw [hpc]; rfl)
    refine ⟨E, h.queues, h.linked, fun hs => ?_, fun _ => hworks, fun hp => (nomatch hp)⟩
    exact ⟨hworks, (Keyboard.clear_keyBufAvail _).trans (h.asleep hs).2.1, rfl⟩
  | reset =>
    have hworks := h.works (by rw [hpc]; rfl)
    refine ⟨E, h.queues, h.linked, fun hs => ?_, fun _ => hworks, fun hp => (nomatch hp)⟩
    exact ⟨hworks, (h.asleep hs).2.1, rfl⟩
  | sleep =>
    -- interrupts come in time, so both tests still hold: nothing is left to do
    have hworks := h.works (by rw [hpc]; rfl)
    have hkeys := h.keys hpc
    rw [hcur]
    rcases h.queues.goesToSleep h.allocated with hi | hi
    · exact ⟨E, hi, h.linked, fun _ => ⟨hworks, hkeys, rfl⟩, fun hp => (nomatch hp), fun hp => (nomatch hp)⟩
    · refine ⟨_, hi, ⟨.sleep, ?_⟩, fun _ => ⟨hworks, hkeys, rfl⟩, fun hp => (nomatch hp),
        fun hp => (nomatch hp)⟩
      exact (mem_movedHead (h.queues.queues.nodup_queue .sleep)).mpr (.inl ⟨rfl, rfl⟩)
  | reschedule => exact ⟨E, h⟩
  | away =>
    refine ⟨E, h.queues, h.linked, fun hs => ?_, fun hp => (nomatch hp), fun hp => (nomatch hp)⟩
    exact ⟨(h.asleep hs).1, (h.asleep hs).2.1, rfl⟩

/-- An interrupt ends with the worker on the running queue. -/
theorem WorkInv.interrupt {keyboard : Keyboard} {works : List ℕ} (h : WorkInv s E)
    (hworks : s.pc.pastNetWork = true → works = []) (hkeys : s.pc ≠ .sleep ∨ keyboard.keyBufAvail = 0) :
    WorkInv { s with keyboard, kworkQueue := works, k := wakeUpThread s.kworkThread s.k }
      (movedTail E .running s.kworkThread) := by
  refine ⟨h.queues.wakeUp h.allocated, ⟨.running, ?_⟩, fun hs => ?_, hworks, fun hp => ?_⟩
  · exact (mem_movedTail (h.queues.queues.nodup_queue .running)).mpr (.inl ⟨rfl, rfl⟩)
  · rcases (mem_movedTail (h.queues.queues.nodup_queue .sleep)).mp hs with ⟨-, hq⟩ | ⟨hne, -⟩
    · cases hq
    · exact absurd rfl hne
  · exact hkeys.resolve_left fun hne => hne hp

theorem WorkInv.key (h : WorkInv s E) (hin : InTime s (.key scancode))
    (hs : s.keyboardCallback scancode = some s') : ∃ E', WorkInv s' E' := by
  unfold WorkRun.keyboardCallback at hs
  split at hs
  · obtain rfl := Option.some.inj hs
    exact ⟨E, h⟩
  · next hcode =>
    obtain ⟨keyboard, -, rfl⟩ := Option.map_eq_some_iff.mp hs
    exact ⟨_, h.interrupt h.works (.inl (hin (UInt8.not_lt.mp hcode)))⟩

theorem WorkInv.receive {works : List ℕ} (h : WorkInv s E) (hin : s.pc.pastNetWork = false) :
    WorkInv (s.receivePacket works) (movedTail E .running s.kworkThread) := by
  refine h.interrupt (fun hp => ?_) (.inl fun hp => ?_)
  · rw [hin] at hp
    cases hp
  · rw [hp] at hin
    cases hin

theorem WorkInv.step (h : WorkInv s E) (hspare : SparesWorker s ev) (hin : InTime s ev)
    (hs : workStep ev s = some s') : ∃ E', WorkInv s' E' := by
  cases ev with
  | run =>
    obtain ⟨⟨hcur, -⟩, hs⟩ := Option.ite_none_right_eq_some.mp hs
    obtain rfl := Option.some.inj hs
    exact h.run hcur
  | reschedule now =>
    obtain ⟨⟨-, hpc⟩, hs⟩ := Option.ite_none_right_eq_some.mp hs
    obtain ⟨k', he, rfl⟩ := Option.map_eq_some_iff.mp hs
    obtain ⟨E', hi, hkept⟩ := h.queues.spared hspare.1 hspare.2 he
    obtain ⟨q, hq⟩ := h.linked
    refine ⟨E', hi, ⟨q, (hkept q).mpr hq⟩, fun hsleep => ?_, fun hp => (nomatch hp), fun hp => (nomatch hp)⟩
    obtain ⟨hworks, hkeys, -⟩ := h.asleep ((hkept .sleep).mp hsleep)
    exact ⟨hworks, hkeys, rfl⟩
  | key scancode => exact h.key hin hs
  | receive work works =>
    obtain rfl := Option.some.inj hs
    exact ⟨_, h.receive hin⟩
  | other op =>
    obtain ⟨k', he, rfl⟩ := Option.map_eq_some_iff.mp hs
    obtain ⟨E', hi, hkept⟩ := h.queues.spared hspare.1 hspare.2 he
    obtain ⟨q, hq⟩ := h.linked
    exact ⟨E', hi, ⟨q, (hkept q).mpr hq⟩, fun hsleep => h.asleep ((hkept .sleep).mp hsleep), h.works, h.keys⟩

theorem WorkStart.inv (h : WorkStart s) : ∃ E, WorkInv s E := by
  obtain ⟨E, hi⟩ := h.threads.idleInv
  have hpc := h.pc
  refine ⟨E, hi, ⟨.running, (onQueue_iff hi.queues .running).mp h.awake⟩, fun _ => ?_, fun _ => h.works, fun _ => h.keys⟩
  rw [hpc]
  exact ⟨h.works, h.keys, rfl⟩

/-- In a run where every interrupt is in time the worker sleeps on no work. -/
theorem worker_sleeps_without_work {start s : WorkRun} (hstart : WorkStart start)
    (hrun : Steps workStep (fun s ev => SparesWorker s ev ∧ InTime s ev) start s)
    (hsleep : OnQueue s.k .sleep s.kworkThread) : s.kworkQueue = [] ∧ s.keyboard.keyBufAvail = 0 := by
  have hinv : ∃ E, WorkInv s E := by
    refine Steps.invariant (I := fun s => ∃ E, WorkInv s E) (fun s₁ ev s₂ hi hok hs => ?_) hrun hstart.inv
    obtain ⟨E, hi⟩ := hi
    exact hi.step hok.1 hok.2 hs
  obtain ⟨E, hi⟩ := hinv
  obtain ⟨hworks, hkeys, -⟩ := hi.asleep ((onQueue_iff hi.queues.queues .sleep).mp hsleep)
  exact ⟨hworks, hkeys⟩

end Worker

def workerRuns : Machine :=
  (execAll [.wakeUp 0x2000, .create 0x3000 0 0, .wakeUp 0x3000, .sleep 0x1000, .reschedule 100]
    started).getD blankMachine

def workerStarts : WorkRun :=
  ⟨workerRuns, ⟨fun _ => 0, 0xC0100000, 0, 0⟩, 0x3000, [], 0, [], .netWork⟩

theorem workStart_workerStarts : WorkStart workerStarts := by
  refine ⟨(started_reach anyOp).execAll (execAll_getD (by decide +kernel)), ⟨2, ?_⟩, ?_, rfl, rfl, rfl⟩
  · decide +kernel
  · decide +kernel

/-- No thread but the worker does anything. -/
def interruptsOnly (_ : WorkRun) : WorkEvent → Bool
  | .run | .key _ | .receive _ _ => true
  | .reschedule _ | .other _ => false

def inTimeOnly (s : WorkRun) : WorkEvent → Bool
  | .run => true
  | .key _ => s.pc ≠ .sleep
  | .receive _ _ => !s.pc.pastNetWork
  | .reschedule _ | .other _ => false

theorem steps_interruptsOnly {evs : List WorkEvent} {s s' : WorkRun}
    (h : runList workStep interruptsOnly evs s = some s') : Steps workStep SparesWorker s s' := by
  refine runList_steps (fun s ev hpass => ?_) h
  cases ev with
  | reschedule now => cases hpass
  | other op => cases hpass
  | _ => trivial

theorem steps_inTimeOnly {evs : List WorkEvent} {s s' : WorkRun}
    (h : runList workStep inTimeOnly evs s = some s') :
    Steps workStep (fun s ev => SparesWorker s ev ∧ InTime s ev) s s' := by
  refine runList_steps (fun s ev hpass => ?_) h
  cases ev with
  | run => exact ⟨trivial, trivial⟩
  | key scancode => exact ⟨trivial, fun _ => of_decide_eq_true hpass⟩
  | receive work works => exact ⟨trivial, (Bool.not_eq_true' _).mp hpass⟩
  | reschedule now => cases hpass
  | other op => cases hpass

def keyInTime : WorkRun :=
  (runList workStep inTimeOnly ([.run, .key 0x1E] ++ List.replicate 10 .run) workerStarts).getD workerStarts

theorem worker_sleeps_after_key : OnQueue keyInTime.k .sleep keyInTime.kworkThread ∧
    keyInTime.stdin = [97] ∧ keyInTime.kworkQueue = [] ∧ keyInTime.keyboard.keyBufAvail = 0 := by
  have hrun : runList workStep inTimeOnly ([.run, .key 0x1E] ++ List.replicate 10 .run) workerStarts =
      some keyInTime := runList_getD (by decide +kernel)
  have hsleep : OnQueue keyInTime.k .sleep keyInTime.kworkThread := ⟨1, by decide +kernel⟩
  exact ⟨hsleep, by decide +kernel,
    worker_sleeps_without_work workStart_workerStarts (steps_inTimeOnly hrun) hsleep⟩

/-- The key is pressed between the test of `key_buf_avail` and `sleep_thread`. -/
def keyTooLate : WorkRun :=
  (runList workStep interruptsOnly [.run, .run, .key 0x1E, .run] workerStarts).getD workerStarts

/-- A packet comes in when the loop over `kwork_queue` has ended. -/
def packetTooLate : WorkRun :=
  (runList workStep interruptsOnly [.run, .receive 0x5000 [], .run, .run] workerStarts).getD workerStarts

/-- The worker goes to sleep although there is work. -/
theorem worker_sleeps_on_work : WorkStart workerStarts ∧
    (Steps workStep SparesWorker workerStarts keyTooLate ∧
      OnQueue keyTooLate.k .sleep keyTooLate.kworkThread ∧ keyTooLate.keyboard.keyBufAvail = 1) ∧
    (Steps workStep SparesWorker workerStarts packetTooLate ∧
      OnQueue packetTooLate.k .sleep packetTooLate.kworkThread ∧ packetTooLate.kworkQueue = [0x5000]) := by
  have hkey : runList workStep interruptsOnly [.run, .run, .key 0x1E, .run] workerStarts = some keyTooLate :=
    runList_getD (by decide +kernel)
  have hpacket : runList workStep interruptsOnly [.run, .receive 0x5000 [], .run, .run] workerStarts =
      some packetTooLate := runList_getD (by decide +kernel)
  exact ⟨workStart_workerStarts, ⟨steps_interruptsOnly hkey, ⟨1, by decide +kernel⟩, by decide +kernel⟩,
    steps_interruptsOnly hpacket, ⟨1, by decide +kernel⟩, by decide +kernel⟩

end X86Osdev.Kernel

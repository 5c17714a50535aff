import X86Osdev.Kernel.StreamDevice
import X86Osdev.Library.Runs

/-! Any number of readers and writers on one stream device, step by step. -/

namespace X86Osdev.Kernel
open X86Osdev.Lib X86Osdev.Mem ByteMemory Runs

/-- Where a thread is: in `write_byte_stream` before `get_lock`, the store, the two calls of `unlock`; in
`read_byte_stream` before `get_lock`, `test_lock`, backing off, taking the byte, its end and the last
`unlock`. -/
inductive StreamPc where
  | outside
  | lock (b : UInt8)
  | store (b : UInt8)
  | unlockRead
  | unlock
  | readLock
  | tryLock
  | backOff
  | take
  | finish (out : UInt8)
  | leave (out : UInt8)
deriving DecidableEq

/-- `written` is what the calls of `write_byte_stream` have stored, `returned` what the calls of
`read_byte_stream` have returned, and to whom. -/
structure StreamRun where
  d : Device
  pc : ℕ → StreamPc
  written : List UInt8
  returned : List (ℕ × UInt8)

namespace StreamRun

def goTo (s : StreamRun) (t : ℕ) (d : Device) (pc : StreamPc) : StreamRun :=
  { s with d, pc := Function.update s.pc t pc }

end StreamRun

def Device.hold (l : FileLock) (d : Device) : Device :=
  { d with locks := Function.update d.locks l true }

/-- The next step of thread `t`, which makes the call `call` when it is outside. A thread that finds a lock
locked waits, as does one whose `strlen` never ends. -/
def readerStep (t : ℕ) (call : StreamCall) (s : StreamRun) : StreamRun :=
  match s.pc t with
  | .outside =>
    match call with
    | .write b => s.goTo t s.d (.lock b)
    | .read => s.goTo t s.d .readLock
  | .lock b => if s.d.locks .lock = true then s else s.goTo t (s.d.hold .lock) (.store b)
  | .store b =>
    match storeByteStream b s.d with
    | .ok _ d => { s.goTo t d .unlockRead with written := s.written ++ [b] }
    | _ => s
  | .unlockRead => s.goTo t (s.d.unlock .readLock) .unlock
  | .unlock => s.goTo t (s.d.unlock .lock) .outside
  | .readLock => if s.d.locks .readLock = true then s else s.goTo t (s.d.hold .readLock) .tryLock
  | .tryLock =>
    if s.d.locks .lock = true then s.goTo t s.d .backOff else s.goTo t (s.d.hold .lock) .take
  | .backOff => s.goTo t (s.d.unlock .readLock) .readLock
  | .take => s.goTo t (takeByte s.d).2 (.finish (takeByte s.d).1)
  | .finish out => s.goTo t (finishRead s.d) (.leave out)
  | .leave out =>
    { s.goTo t (s.d.unlock .lock) .outside with returned := s.returned ++ [(t, out)] }

structure StreamStep where
  thread : ℕ
  call : StreamCall

def streamStep (ev : StreamStep) (s : StreamRun) : Option StreamRun := some (readerStep ev.thread ev.call s)

namespace StreamPc

def holds : StreamPc → Bool
  | store _ | unlockRead | unlock | take | finish _ | leave _ => true
  | _ => false

/-- Between its `get_lock(read_lock)` and the end of its use of the device. -/
def reading : StreamPc → Bool
  | tryLock | backOff | take | finish _ => true
  | _ => false

/-- A reader that has not yet taken its byte. -/
def waiting : StreamPc → Bool
  | tryLock | backOff | take => true
  | _ => false

/-- A byte is counted, and `read_lock` not yet released for it. -/
def publishing : StreamPc → Bool
  | unlockRead => true
  | _ => false

/-- The byte that a reader has taken. -/
def inFlight : StreamPc → Option UInt8
  | finish out | leave out => some out
  | _ => none

end StreamPc

/-- The string in the buffer is shorter than the buffer. -/
def HasRoom (d : Device) : Prop := ∃ n, strlen d.mem d.buffer = some n ∧ n < d.size

/-- Bytes are stored when there is room, and none is NUL. -/
def StoresFit (s : StreamRun) (ev : StreamStep) : Prop :=
  ∀ b, s.pc ev.thread = .store b → b ≠ 0 ∧ HasRoom s.d

/-- No reader gets `read_lock` while another one is between its own `get_lock(read_lock)` and its release, its
clearing of the buffer or its backing off. -/
def ReadsAlone (s : StreamRun) (ev : StreamStep) : Prop :=
  s.pc ev.thread = .readLock → s.d.locks .readLock = false → ∀ u, (s.pc u).reading = false

/-- A reader that takes a byte finds one, so that `available` does not wrap; the readers get the bytes that
were written, each once and in order; when nobody is in a call, what is left is available, and `read_lock` is
free exactly if something is. -/
structure ReadersSound (s : StreamRun) : Prop where
  takes : ∀ t, s.pc t = .take → 1 ≤ s.d.available
  returned : s.returned.map Prod.snd <+: s.written
  idle : (∀ t, s.pc t = .outside) → s.written.length = s.returned.length + s.d.available ∧
    (s.d.locks .readLock = false ↔ 0 < s.d.available)

def startReaders (d : Device) : StreamRun := ⟨d, fun _ => .outside, [], []⟩

/-- `n` bytes are available and published. A free `read_lock` stands for one of them, and so does a reader
that has passed it and has not taken its byte. -/
structure Tokens (s : StreamRun) (n : ℕ) : Prop where
  unpublished : ∀ t, (s.pc t).publishing = true → s.d.available = n + 1
  published : (∀ t, (s.pc t).publishing = false) → s.d.available = n
  free : s.d.locks .readLock = false → 1 ≤ n
  waits : ∀ t, (s.pc t).waiting = true → 1 ≤ n
  both : s.d.locks .readLock = false → ∀ t, (s.pc t).waiting = true → 2 ≤ n
  drained : s.d.locks .readLock = true → (∀ t, (s.pc t).reading = false) → n = 0

/-- What was written is what was returned, the byte that a reader carries, and what waits in the buffer. -/
structure Delivered (s : StreamRun) (unread : List UInt8) : Prop where
  carried : ∀ t out, (s.pc t).inFlight = some out →
    s.written = s.returned.map Prod.snd ++ out :: unread
  quiet : (∀ t, (s.pc t).inFlight = none) → s.written = s.returned.map Prod.snd ++ unread

structure ReadersInv (s : StreamRun) : Prop where
  holder : ∀ t u, (s.pc t).holds = true → (s.pc u).holds = true → t = u
  lock : s.d.locks .lock = false → ∀ t, (s.pc t).holds = false
  reader : ∀ t u, (s.pc t).reading = true → (s.pc u).reading = true → t = u
  tokens : ∃ n, Tokens s n
  content : ∃ bytes taken, Content s.d.size s.d bytes taken ∧ Delivered s (bytes.drop taken)

section Steps
open StreamRun
variable {s : StreamRun} {t u n : ℕ} {d : Device} {p : StreamPc} {call : StreamCall}
  {unread : List UInt8}

@[simp] theorem StreamRun.goTo_d (p : StreamPc) : (s.goTo t d p).d = d := rfl

theorem StreamRun.goTo_self (p : StreamPc) : (s.goTo t d p).pc t = p := Function.update_self ..

theorem StreamRun.goTo_other (p : StreamPc) (hu : u ≠ t) : (s.goTo t d p).pc u = s.pc u := Function.update_of_ne hu ..

theorem hold_self (d : Device) (l : FileLock) : (d.hold l).locks l = true := update_lock true

theorem update_class {β : Type} {c : ℕ → StreamPc} (f : StreamPc → β) (h : f p = f (c t)) (u : ℕ) :
    f (Function.update c t p u) = f (c u) := by
  rw [Function.update_apply]
  split
  · next hu => rw [hu, h]
  · rfl

/-- The thread that holds the lock is the only one for which `f` can be true. -/
theorem ReadersInv.alone (hi : ReadersInv s) (ht : (s.pc t).holds = true) (hu : u ≠ t) :
    (s.pc u).holds = false :=
  Bool.eq_false_iff.mpr fun h => hu (hi.holder u t h ht)

theorem publishing_holds (h : p.holds = false) : p.publishing = false := by
  cases p with
  | unlockRead => cases h
  | _ => rfl

theorem inFlight_holds (h : p.holds = false) : p.inFlight = none := by
  cases p with
  | finish out => cases h
  | leave out => cases h
  | _ => rfl

theorem ReadersInv.noPublishing (hi : ReadersInv s) (ht : (s.pc t).holds = true)
    (hself : (s.pc t).publishing = false) (u : ℕ) : (s.pc u).publishing = false := by
  by_cases hu : u = t
  · rw [hu]
    exact hself
  · exact publishing_holds (hi.alone ht hu)

theorem ReadersInv.noInFlight (hi : ReadersInv s) (ht : (s.pc t).holds = true)
    (hself : (s.pc t).inFlight = none) (u : ℕ) : (s.pc u).inFlight = none := by
  by_cases hu : u = t
  · rw [hu]
    exact hself
  · exact inFlight_holds (hi.alone ht hu)

theorem waiting_reading (h : p.waiting = true) : p.reading = true := by
  cases p with
  | tryLock => rfl
  | backOff => rfl
  | take => rfl
  | _ => cases h

theorem Delivered.one {s' : StreamRun} (ht : ∀ u ≠ t, (s'.pc u).inFlight = none)
    (hcarried : ∀ out, (s'.pc t).inFlight = some out →
      s'.written = s'.returned.map Prod.snd ++ out :: unread)
    (hquiet : (s'.pc t).inFlight = none → s'.written = s'.returned.map Prod.snd ++ unread) :
    Delivered s' unread where
  carried u out hu := by
    by_cases hut : u = t
    · exact hcarried out (hut ▸ hu)
    · rw [ht u hut] at hu
      cases hu
  quiet h := hquiet (h t)

theorem Tokens.congr {s' : StreamRun} (ht : Tokens s n) (hav : s'.d.available = s.d.available)
    (hread : s'.d.locks .readLock = s.d.locks .readLock)
    (hpub : ∀ u, (s'.pc u).publishing = (s.pc u).publishing)
    (hwait : ∀ u, (s'.pc u).waiting = (s.pc u).waiting)
    (hreading : ∀ u, (s'.pc u).reading = (s.pc u).reading) : Tokens s' n where
  unpublished u hu := hav ▸ ht.unpublished u (hpub u ▸ hu)
  published h := hav ▸ ht.published fun u => hpub u ▸ h u
  free h := ht.free (hread ▸ h)
  waits u hu := ht.waits u (hwait u ▸ hu)
  both h u hu := ht.both (hread ▸ h) u (hwait u ▸ hu)
  drained h h' := ht.drained (hread ▸ h) fun u => hreading u ▸ h' u

theorem Delivered.congr {s' : StreamRun} (hd : Delivered s unread) (hw : s'.written = s.written)
    (hr : s'.returned = s.returned) (hfly : ∀ u, (s'.pc u).inFlight = (s.pc u).inFlight) :
    Delivered s' unread where
  carried u out hu := by
    rw [hw, hr]
    exact hd.carried u out (hfly u ▸ hu)
  quiet h := by
    rw [hw, hr]
    exact hd.quiet fun u => hfly u ▸ h u

structure Alike (p q : StreamPc) : Prop where
  reading : p.reading = q.reading
  waiting : p.waiting = q.waiting
  publishing : p.publishing = q.publishing
  inFlight : p.inFlight = q.inFlight

theorem ReadersInv.move (hi : ReadersInv s) (hholds : p.holds = (s.pc t).holds) (ha : Alike p (s.pc t)) :
    ReadersInv (s.goTo t s.d p) := by
  have hh := update_class StreamPc.holds hholds
  have hr := update_class StreamPc.reading ha.reading
  obtain ⟨n, ht⟩ := hi.tokens
  obtain ⟨bytes, taken, hc, hd⟩ := hi.content
  exact ⟨fun u w hu hw => hi.holder u w (hh u ▸ hu) (hh w ▸ hw), fun h u => (hh u).trans (hi.lock h u),
    fun u w hu hw => hi.reader u w (hr u ▸ hu) (hr w ▸ hw),
    ⟨n, ht.congr rfl rfl (update_class _ ha.publishing) (update_class _ ha.waiting) hr⟩,
    ⟨bytes, taken, hc, hd.congr rfl rfl (update_class _ ha.inFlight)⟩⟩

theorem ReadersInv.acquire (hi : ReadersInv s) (hfree : s.d.locks .lock = false) (ha : Alike p (s.pc t)) :
    ReadersInv (s.goTo t (s.d.hold .lock) p) := by
  have hr := update_class StreamPc.reading ha.reading
  obtain ⟨n, ht⟩ := hi.tokens
  obtain ⟨bytes, taken, hc, hd⟩ := hi.content
  have honly : ∀ u, ((s.goTo t (s.d.hold .lock) p).pc u).holds = true → u = t := by
    intro u hu
    by_contra hne
    rw [goTo_other p hne, hi.lock hfree u] at hu
    cases hu
  refine ⟨fun u w hu hw => (honly u hu).trans (honly w hw).symm, fun h => ?_,
    fun u w hu hw => hi.reader u w (hr u ▸ hu) (hr w ▸ hw),
    ⟨n, ht.congr rfl (readLock_of_lock true) (update_class _ ha.publishing) (update_class _ ha.waiting) hr⟩,
    ⟨bytes, taken, hc.setLocks _, hd.congr rfl rfl (update_class _ ha.inFlight)⟩⟩
  cases (hold_self s.d .lock).symm.trans h

theorem ReadersInv.hold (hi : ReadersInv s) (ht : (s.pc t).holds = true) {s' : StreamRun}
    (hpc : s'.pc = Function.update s.pc t p) (hp : p.holds = true ∧ s'.d.locks .lock = s.d.locks .lock ∨
      p.holds = false) (hreading : p.reading = true → (s.pc t).reading = true)
    (htokens : ∃ n, Tokens s' n)
    (hcontent : ∃ bytes taken, Content s'.d.size s'.d bytes taken ∧ Delivered s' (bytes.drop taken)) :
    ReadersInv s' := by
  have hother : ∀ u ≠ t, s'.pc u = s.pc u := fun u hu => by
    rw [hpc, Function.update_of_ne hu]
  have hself : s'.pc t = p := by rw [hpc, Function.update_self]
  have hread : ∀ u, (s'.pc u).reading = true → (s.pc u).reading = true := by
    intro u hu
    by_cases hut : u = t
    · rw [hut, hself] at hu
      exact hut ▸ hreading hu
    · exact hother u hut ▸ hu
  have honly : ∀ u, (s'.pc u).holds = true → u = t := by
    intro u hu
    by_contra hne
    rw [hother u hne, hi.alone ht hne] at hu
    cases hu
  refine ⟨fun u w hu hw => (honly u hu).trans (honly w hw).symm, fun h u => ?_,
    fun u w hu hw => hi.reader u w (hread u hu) (hread w hw), htokens, hcontent⟩
  rcases hp with ⟨-, hlock⟩ | hp
  · rw [hlock] at h
    exact absurd (hi.lock h t) (by rw [ht]; decide)
  · by_cases hut : u = t
    · rw [hut, hself, hp]
    · rw [hother u hut, hi.alone ht hut]

theorem ReadersInv.store (hi : ReadersInv s) {b : UInt8} (hpc : s.pc t = .store b) (hb : b ≠ 0)
    (hroom : HasRoom s.d) : ReadersInv (readerStep t call s) := by
  have hholds : (s.pc t).holds = true := by rw [hpc]; rfl
  obtain ⟨n, ht⟩ := hi.tokens
  obtain ⟨bytes, taken, hc, hd⟩ := hi.content
  have hlt : bytes.length < s.d.size := by
    -- the string of `bytes` ends after the last of them, so none of them is the terminator
    obtain ⟨k, hk, hks⟩ := hroom
    by_contra hfull
    have hlen : k < bytes.length := by omega
    have hfits := hc.fits
    have hstop := strlen_stop hk
    rw [u32, Nat.mod_eq_of_lt (by omega), hc.mem k hlen] at hstop
    exact hc.nonzero _ (List.getElem_mem hlen) hstop
  obtain ⟨m, hstore, hc'⟩ := hc.store hlt hb
  have hpub := hi.noPublishing hholds (by rw [hpc]; rfl)
  have hquiet := hi.noInFlight hholds (by rw [hpc]; rfl)
  have hstep : readerStep t call s = { s.goTo t { s.d with mem := m, available := s.d.available + 1 }
      .unlockRead with written := s.written ++ [b] } := by
    unfold readerStep
    rw [hpc]
    dsimp only
    rw [hstore]
  have hw := update_class (t := t) (p := .unlockRead) (c := s.pc) StreamPc.waiting (by rw [hpc]; rfl)
  have hr := update_class (t := t) (p := .unlockRead) (c := s.pc) StreamPc.reading (by rw [hpc]; rfl)
  have hf := update_class (t := t) (p := .unlockRead) (c := s.pc) StreamPc.inFlight (by rw [hpc]; rfl)
  have hp : Function.update s.pc t .unlockRead t = .unlockRead := Function.update_self ..
  rw [hstep]
  refine hi.hold hholds (p := .unlockRead) rfl (.inl ⟨rfl, rfl⟩) Bool.noConfusion
    ⟨n, fun u _ => congrArg (· + 1) (ht.published hpub), fun h => ?_, ht.free,
      fun u hu => ht.waits u ((hw u).symm.trans hu), fun h u hu => ht.both h u ((hw u).symm.trans hu),
      fun h h' => ht.drained h fun u => (hr u).symm.trans (h' u)⟩
    ⟨bytes ++ [b], taken, hc', fun u out hu => ?_, fun _ => ?_⟩
  · cases (congrArg StreamPc.publishing hp).symm.trans (h t)
  · cases hu.symm.trans ((hf u).trans (hquiet u))
  · show s.written ++ [b] = _
    rw [hd.quiet hquiet, List.append_assoc, List.drop_append_of_le_length hc.taken_le]
    rfl

/-- The byte is published: `read_lock` stands for it. -/
theorem ReadersInv.unlockRead (hi : ReadersInv s) (hpc : s.pc t = .unlockRead) :
    ReadersInv (s.goTo t (s.d.unlock .readLock) .unlock) := by
  have hholds : (s.pc t).holds = true := by rw [hpc]; rfl
  obtain ⟨n, ht⟩ := hi.tokens
  obtain ⟨bytes, taken, hc, hd⟩ := hi.content
  have hw := update_class (t := t) (p := .unlock) (c := s.pc) StreamPc.waiting (by rw [hpc]; rfl)
  have hf := update_class (t := t) (p := .unlock) (c := s.pc) StreamPc.inFlight (by rw [hpc]; rfl)
  have hfree : (s.d.unlock .readLock).locks .readLock = false := unlock_self _ _
  have hn : s.d.available = n + 1 := ht.unpublished t (by rw [hpc]; rfl)
  have hpub : ∀ u, ((s.goTo t (s.d.unlock .readLock) .unlock).pc u).publishing = false := by
    intro u
    by_cases hu : u = t
    · rw [hu, goTo_self]
      rfl
    · rw [goTo_other _ hu]
      exact publishing_holds (hi.alone hholds hu)
  refine hi.hold hholds (p := .unlock) rfl (.inl ⟨rfl, lock_of_readLock false⟩) Bool.noConfusion
    ⟨n + 1, fun u hu => ?_, fun _ => hn, fun _ => Nat.succ_pos n, fun _ _ => Nat.succ_pos n,
      fun _ u hu => Nat.succ_le_succ (ht.waits u ((hw u).symm.trans hu)), fun h => ?_⟩
    ⟨bytes, taken, hc.setLocks _, hd.congr rfl rfl hf⟩
  · cases (hpub u).symm.trans hu
  · cases hfree.symm.trans h

theorem ReadersInv.unlock (hi : ReadersInv s) (hpc : s.pc t = .unlock) :
    ReadersInv (s.goTo t (s.d.unlock .lock) .outside) := by
  have hholds : (s.pc t).holds = true := by rw [hpc]; rfl
  obtain ⟨n, ht⟩ := hi.tokens
  obtain ⟨bytes, taken, hc, hd⟩ := hi.content
  refine hi.hold hholds (p := .outside) rfl (.inr rfl) Bool.noConfusion
    ⟨n, ht.congr rfl (readLock_unlock _) (update_class _ (by rw [hpc]; rfl))
      (update_class _ (by rw [hpc]; rfl)) (update_class _ (by rw [hpc]; rfl))⟩
    ⟨bytes, taken, hc.setLocks _, hd.congr rfl rfl (update_class _ (by rw [hpc]; rfl))⟩

theorem ReadersInv.leave (hi : ReadersInv s) {out : UInt8} (hpc : s.pc t = .leave out) :
    ReadersInv { s.goTo t (s.d.unlock .lock) .outside with returned := s.returned ++ [(t, out)] } := by
  have hholds : (s.pc t).holds = true := by rw [hpc]; rfl
  obtain ⟨n, ht⟩ := hi.tokens
  obtain ⟨bytes, taken, hc, hd⟩ := hi.content
  have hqueue : s.written = s.returned.map Prod.snd ++ out :: bytes.drop taken :=
    hd.carried t out (by rw [hpc]; rfl)
  refine hi.hold hholds (p := .outside) rfl (.inr rfl) Bool.noConfusion
    ⟨n, ht.congr rfl (readLock_unlock _) (update_class _ (by rw [hpc]; rfl))
      (update_class _ (by rw [hpc]; rfl)) (update_class _ (by rw [hpc]; rfl))⟩
    ⟨bytes, taken, hc.setLocks _, fun u out' hu => ?_, fun _ => ?_⟩
  · -- nobody else has the lock
    have hnone : (Function.update s.pc t StreamPc.outside u).inFlight = none := by
      by_cases hut : u = t
      · rw [hut, Function.update_self]
        rfl
      · rw [Function.update_of_ne hut]
        exact inFlight_holds (hi.alone hholds hut)
    cases hu.symm.trans hnone
  · show s.written = (s.returned ++ [(t, out)]).map Prod.snd ++ bytes.drop taken
    rw [hqueue, List.map_append, List.append_assoc]
    rfl

theorem ReadersInv.take (hi : ReadersInv s) (hpc : s.pc t = .take) :
    ReadersInv (s.goTo t (takeByte s.d).2 (.finish (takeByte s.d).1)) := by
  have hholds : (s.pc t).holds = true := by rw [hpc]; rfl
  have hwaiting : (s.pc t).waiting = true := by rw [hpc]; rfl
  obtain ⟨n, ht⟩ := hi.tokens
  obtain ⟨bytes, taken, hc, hd⟩ := hi.content
  have hpub := hi.noPublishing hholds (by rw [hpc]; rfl)
  have hn : s.d.available = n := ht.published hpub
  have hpos := ht.waits t hwaiting
  have hav := hc.available
  have hlt : taken < bytes.length := by omega
  obtain ⟨htake, hc'⟩ := hc.take hlt
  rw [htake]
  set p := StreamPc.finish bytes[taken]
  have hself : Function.update s.pc t p t = p := Function.update_self ..
  -- The thread was the only reader, so nobody is left to wait for a byte.
  have hnowait : ∀ u, (Function.update s.pc t p u).waiting = false := by
    intro u
    by_cases hu : u = t
    · rw [hu, hself]
      rfl
    · rw [Function.update_of_ne hu]
      refine Bool.eq_false_iff.mpr fun h => hu ?_
      exact hi.reader u t (waiting_reading h) (waiting_reading hwaiting)
  refine hi.hold hholds (p := p) rfl (.inl ⟨rfl, rfl⟩) (fun _ => waiting_reading hwaiting)
    ⟨n - 1, fun u hu => ?_, fun _ => ?_, fun h => ?_, fun u hu => ?_, fun _ u hu => ?_, fun _ h => ?_⟩
    ⟨bytes, taken + 1, hc', .one (t := t) (fun u hu => ?_) (fun out hout => ?_) fun hnone => ?_⟩
  · cases ((update_class StreamPc.publishing (by rw [hpc]; rfl) u).trans (hpub u)).symm.trans hu
  · exact congrArg (· - 1) hn
  · have hboth := ht.both h t hwaiting
    omega
  · cases (hnowait u).symm.trans hu
  · cases (hnowait u).symm.trans hu
  · cases (congrArg StreamPc.reading hself).symm.trans (h t)
  · show (Function.update s.pc t p u).inFlight = none
    rw [Function.update_of_ne hu]
    exact inFlight_holds (hi.alone hholds hu)
  · have hout' : some bytes[taken] = some out := (congrArg StreamPc.inFlight hself).symm.trans hout
    have hquiet := hi.noInFlight hholds (by rw [hpc]; rfl)
    rw [← Option.some.inj hout', ← List.drop_eq_getElem_cons hlt]
    exact hd.quiet hquiet
  · cases (congrArg StreamPc.inFlight hself).symm.trans hnone

theorem ReadersInv.finish (hi : ReadersInv s) {out : UInt8} (hpc : s.pc t = .finish out) :
    ReadersInv (s.goTo t (finishRead s.d) (.leave out)) := by
  have hholds : (s.pc t).holds = true := by rw [hpc]; rfl
  have hreading : (s.pc t).reading = true := by rw [hpc]; rfl
  obtain ⟨n, ht⟩ := hi.tokens
  obtain ⟨bytes, taken, hc, hd⟩ := hi.content
  have hpub := hi.noPublishing hholds (by rw [hpc]; rfl)
  have hn : s.d.available = n := ht.published hpub
  have hp := update_class (t := t) (p := .leave out) (c := s.pc) StreamPc.publishing (by rw [hpc]; rfl)
  have hw := update_class (t := t) (p := .leave out) (c := s.pc) StreamPc.waiting (by rw [hpc]; rfl)
  have hf := update_class (t := t) (p := .leave out) (c := s.pc) StreamPc.inFlight (by rw [hpc]; rfl)
  have hnowait : ∀ u, (s.pc u).waiting = false := by
    intro u
    refine Bool.eq_false_iff.mpr fun h => ?_
    rw [hi.reader u t (waiting_reading h) hreading, hpc] at h
    cases h
  -- The last byte keeps `read_lock` and clears the buffer; after any other one `read_lock` stands for the rest.
  by_cases hzero : s.d.available = 0
  · obtain ⟨hc', hlocks, havail⟩ := hc.drained hzero
    have hsize : (finishRead s.d).size = s.d.size := by
      rw [finishRead, if_pos hzero.le]
    have hempty : bytes.drop taken = [] := by
      have hav := hc.available
      exact List.drop_eq_nil_of_le (by omega)
    refine hi.hold hholds (p := .leave out) rfl (.inl ⟨rfl, congrFun hlocks _⟩) Bool.noConfusion
      ⟨n, fun u hu => ?_, fun _ => ?_, fun h => ?_, fun u hu => ?_, fun _ u hu => ?_, fun _ _ => ?_⟩
      ⟨[], 0, hsize.symm ▸ hc', (hempty ▸ hd).congr rfl rfl hf⟩
    · cases ((hp u).trans (hpub u)).symm.trans hu
    · exact havail.trans (hzero.symm.trans hn)
    · exact ht.free ((congrFun hlocks _).symm.trans h)
    · cases ((hw u).trans (hnowait u)).symm.trans hu
    · cases ((hw u).trans (hnowait u)).symm.trans hu
    · exact hn.symm.trans hzero
  · have hmore := finishRead_more (Nat.pos_of_ne_zero hzero)
    have hfree : (s.d.unlock .readLock).locks .readLock = false := unlock_self _ _
    rw [hmore]
    refine hi.hold hholds (p := .leave out) rfl (.inl ⟨rfl, lock_of_readLock false⟩) Bool.noConfusion
      ⟨n, fun u hu => ?_, fun _ => hn, fun _ => ?_, fun u hu => ?_, fun _ u hu => ?_, fun h => ?_⟩
      ⟨bytes, taken, hc.setLocks _, hd.congr rfl rfl hf⟩
    · cases ((hp u).trans (hpub u)).symm.trans hu
    · omega
    · cases ((hw u).trans (hnowait u)).symm.trans hu
    · cases ((hw u).trans (hnowait u)).symm.trans hu
    · cases hfree.symm.trans h

theorem ReadersInv.enter (hi : ReadersInv s) (hpc : s.pc t = .readLock) (hfree : s.d.locks .readLock = false)
    (halone : ∀ u, (s.pc u).reading = false) : ReadersInv (s.goTo t (s.d.hold .readLock) .tryLock) := by
  obtain ⟨n, ht⟩ := hi.tokens
  obtain ⟨bytes, taken, hc, hd⟩ := hi.content
  have hh := update_class (t := t) (p := .tryLock) (c := s.pc) StreamPc.holds (by rw [hpc]; rfl)
  have hp := update_class (t := t) (p := .tryLock) (c := s.pc) StreamPc.publishing (by rw [hpc]; rfl)
  have hf := update_class (t := t) (p := .tryLock) (c := s.pc) StreamPc.inFlight (by rw [hpc]; rfl)
  have hself : Function.update s.pc t .tryLock t = .tryLock := Function.update_self ..
  have hlock : (s.d.hold .readLock).locks .lock = s.d.locks .lock := lock_of_readLock true
  have hheld : (s.d.hold .readLock).locks .readLock = true := hold_self _ _
  have honly : ∀ u, ((s.goTo t (s.d.hold .readLock) .tryLock).pc u).reading = true → u = t := by
    intro u hu
    by_contra hne
    rw [goTo_other _ hne, halone u] at hu
    cases hu
  refine ⟨fun u w hu hw => hi.holder u w ((hh u).symm.trans hu) ((hh w).symm.trans hw),
    fun h u => (hh u).trans (hi.lock (hlock.symm.trans h) u),
    fun u w hu hw => (honly u hu).trans (honly w hw).symm,
    ⟨n, fun u hu => ht.unpublished u ((hp u).symm.trans hu),
      fun h => ht.published fun u => (hp u).symm.trans (h u), fun h => ?_, fun _ _ => ht.free hfree,
      fun h => ?_, fun _ h => ?_⟩,
    ⟨bytes, taken, hc.setLocks _, hd.congr rfl rfl hf⟩⟩
  · cases hheld.symm.trans h
  · cases hheld.symm.trans h
  · cases (congrArg StreamPc.reading hself).symm.trans (h t)

theorem ReadersInv.backOff (hi : ReadersInv s) (hpc : s.pc t = .backOff) :
    ReadersInv (s.goTo t (s.d.unlock .readLock) .readLock) := by
  have hwaiting : (s.pc t).waiting = true := by rw [hpc]; rfl
  obtain ⟨n, ht⟩ := hi.tokens
  obtain ⟨bytes, taken, hc, hd⟩ := hi.content
  have hh := update_class (t := t) (p := .readLock) (c := s.pc) StreamPc.holds (by rw [hpc]; rfl)
  have hp := update_class (t := t) (p := .readLock) (c := s.pc) StreamPc.publishing (by rw [hpc]; rfl)
  have hf := update_class (t := t) (p := .readLock) (c := s.pc) StreamPc.inFlight (by rw [hpc]; rfl)
  have hlock : (s.d.unlock .readLock).locks .lock = s.d.locks .lock := lock_of_readLock false
  have hfree : (s.d.unlock .readLock).locks .readLock = false := unlock_self _ _
  have hnone : ∀ u, ((s.goTo t (s.d.unlock .readLock) .readLock).pc u).reading = false := by
    intro u
    by_cases hu : u = t
    · rw [hu, goTo_self]
      rfl
    · rw [goTo_other _ hu]
      exact Bool.eq_false_iff.mpr fun h => hu (hi.reader u t h (waiting_reading hwaiting))
  refine ⟨fun u w hu hw => hi.holder u w ((hh u).symm.trans hu) ((hh w).symm.trans hw),
    fun h u => (hh u).trans (hi.lock (hlock.symm.trans h) u), fun u w hu => ?_,
    ⟨n, fun u hu => ht.unpublished u ((hp u).symm.trans hu),
      fun h => ht.published fun u => (hp u).symm.trans (h u), fun _ => ht.waits t hwaiting, fun u hu => ?_,
      fun _ u hu => ?_, fun h => ?_⟩,
    ⟨bytes, taken, hc.setLocks _, hd.congr rfl rfl hf⟩⟩
  · cases (hnone u).symm.trans hu
  · cases (hnone u).symm.trans (waiting_reading hu)
  · cases (hnone u).symm.trans (waiting_reading hu)
  · cases hfree.symm.trans h

theorem ReadersInv.step (hi : ReadersInv s) {ev : StreamStep} (halone : ReadsAlone s ev) (hstore : StoresFit s ev) :
    ReadersInv (readerStep ev.thread ev.call s) := by
  obtain ⟨t, call⟩ := ev
  unfold ReadsAlone at halone
  unfold StoresFit at hstore
  dsimp only at halone hstore ⊢
  cases hpc : s.pc t with
  | store b => exact hi.store hpc (hstore b hpc).1 (hstore b hpc).2
  | outside =>
    unfold readerStep
    rw [hpc]
    cases call with
    | write b => exact hi.move (by rw [hpc]; rfl) (by rw [hpc]; exact ⟨rfl, rfl, rfl, rfl⟩)
    | read => exact hi.move (by rw [hpc]; rfl) (by rw [hpc]; exact ⟨rfl, rfl, rfl, rfl⟩)
  | lock b =>
    unfold readerStep
    rw [hpc]
    dsimp only
    split
    · exact hi
    · next hfree =>
      exact hi.acquire (Bool.eq_false_iff.mpr hfree) (by rw [hpc]; exact ⟨rfl, rfl, rfl, rfl⟩)
  | unlockRead =>
    unfold readerStep
    rw [hpc]
    exact hi.unlockRead hpc
  | unlock =>
    unfold readerStep
    rw [hpc]
    exact hi.unlock hpc
  | readLock =>
    unfold readerStep
    rw [hpc]
    dsimp only
    split
    · exact hi
    · next hfree =>
      -- a writer may have released `read_lock` under a reader that is still inside
      have hfree := Bool.eq_false_iff.mpr hfree
      exact hi.enter hpc hfree (halone hpc hfree)
  | tryLock =>
    unfold readerStep
    rw [hpc]
    dsimp only
    split
    · exact hi.move (by rw [hpc]; rfl) (by rw [hpc]; exact ⟨rfl, rfl, rfl, rfl⟩)
    · next hfree =>
      exact hi.acquire (Bool.eq_false_iff.mpr hfree) (by rw [hpc]; exact ⟨rfl, rfl, rfl, rfl⟩)
  | backOff =>
    unfold readerStep
    rw [hpc]
    exact hi.backOff hpc
  | take =>
    unfold readerStep
    rw [hpc]
    exact hi.take hpc
  | finish out =>
    unfold readerStep
    rw [hpc]
    exact hi.finish hpc
  | leave out =>
    unfold readerStep
    rw [hpc]
    exact hi.leave hpc

theorem ReadersInv.sound (hi : ReadersInv s) : ReadersSound s := by
  obtain ⟨n, ht⟩ := hi.tokens
  obtain ⟨bytes, taken, hc, hd⟩ := hi.content
  refine ⟨fun t hpc => ?_, ?_, fun hidle => ?_⟩
  · have hpos := ht.waits t (by rw [hpc]; rfl)
    by_cases hpub : ∃ u, (s.pc u).publishing = true
    · obtain ⟨u, hu⟩ := hpub
      have hav := ht.unpublished u hu
      omega
    · have hav := ht.published fun u => Bool.eq_false_iff.mpr fun h => hpub ⟨u, h⟩
      omega
  · by_cases hfly : ∃ t out, (s.pc t).inFlight = some out
    · obtain ⟨t, out, h⟩ := hfly
      exact ⟨_, (hd.carried t out h).symm⟩
    · refine ⟨_, (hd.quiet fun t => ?_).symm⟩
      cases h : (s.pc t).inFlight with
      | none => rfl
      | some out => exact absurd ⟨t, out, h⟩ hfly
  · have hav : s.d.available = n := ht.published fun u => by rw [hidle u]; rfl
    have hqueue := congrArg List.length (hd.quiet fun u => by rw [hidle u]; rfl)
    rw [List.length_append, List.length_map, List.length_drop, ← hc.available] at hqueue
    refine ⟨hqueue, fun h => ?_, fun hpos => ?_⟩
    · have hfree := ht.free h
      omega
    · by_contra hread
      have hzero := ht.drained (Bool.eq_true_of_not_eq_false hread) fun u => by rw [hidle u]; rfl
      omega

theorem readersInv_start {order : ℕ} (hd : NewDevice .stream order d) (hk : 1 ≤ order) :
    ReadersInv (startReaders d) := by
  have hpow : 2 ^ 1 ≤ 2 ^ order := Nat.pow_le_pow_right (by decide) hk
  have hsize := hd.size_eq
  have hf : Filled d.size d [] 0 :=
    hd.filled (by unfold pageSize; omega) (hd.fits.trans (by decide))
  have hav : d.available = 0 := hd.available
  refine ⟨fun _ _ h => Bool.noConfusion h, fun _ _ => rfl, fun _ _ h => Bool.noConfusion h,
    ⟨0, fun _ h => Bool.noConfusion h, fun _ => hav, fun h => ?_, fun _ h => Bool.noConfusion h,
      fun _ _ h => Bool.noConfusion h, fun _ _ => rfl⟩,
    ⟨[], 0, hf.toContent, fun _ _ h => (nomatch h), fun _ => rfl⟩⟩
  cases hd.readLock.symm.trans h

/-- In every run in which no reader passes `read_lock` while another one uses what it stands for, and which
has room for its bytes, the readers never consume a byte that is not there. -/
theorem readers_sound {totalPages order : ℕ} (hd : MadeDevice totalPages .stream order d) (hk : 1 ≤ order)
    (hrun : Steps streamStep (fun s ev => ReadsAlone s ev ∧ StoresFit s ev) (startReaders d) s) : ReadersSound s := by
  refine ReadersInv.sound (hrun.invariant (I := ReadersInv) (fun s ev s' hi hok hs => ?_)
    (readersInv_start hd.new hk))
  rw [← Option.some.inj hs]
  exact hi.step hok.1 hok.2

section Alone
variable {b out : UInt8}

def SoundStep (s : StreamRun) (ev : StreamStep) : Prop := ReadsAlone s ev ∧ StoresFit s ev

theorem storesFit_of_sound {s' : StreamRun} (h : Steps streamStep SoundStep s s') :
    Steps streamStep StoresFit s s' := h.mono fun _ _ hok => hok.2

theorem steps_one {s' : StreamRun} (t : ℕ) (call : StreamCall) (hpc : s.pc t = p) (h : readerStep t call s = s')
    (hread : p ≠ .readLock) (hfit : ∀ b, p = .store b → b ≠ 0 ∧ HasRoom s.d) : Steps streamStep SoundStep s s' :=
  .single ⟨⟨t, call⟩, ⟨fun h => absurd (hpc.symm.trans h) hread, fun b h => hfit b (hpc.symm.trans h)⟩,
    congrArg some h⟩

def StreamPc.unguarded : StreamPc → Bool
  | .readLock | .store _ => false
  | _ => true

theorem steps_unguarded {s' : StreamRun} (t : ℕ) (call : StreamCall) (hpc : s.pc t = p)
    (h : readerStep t call s = s') (hp : p.unguarded = true) : Steps streamStep SoundStep s s' := by
  refine steps_one t call hpc h (fun hread => ?_) (fun b hstore => ?_)
  · rw [hread] at hp
    exact Bool.noConfusion hp
  · rw [hstore] at hp
    exact Bool.noConfusion hp

theorem goTo_goTo {d' : Device} {q : StreamPc} : (s.goTo t d p).goTo t d' q = s.goTo t d' q := by
  unfold StreamRun.goTo
  dsimp only
  rw [Function.update_idem]

theorem readerStep_lock (hpc : s.pc t = .lock b) (hfree : s.d.locks .lock = false) :
    readerStep t call s = s.goTo t (s.d.hold .lock) (.store b) := by
  unfold readerStep
  rw [hpc]
  exact if_neg (by rw [hfree]; decide)

theorem readerStep_store (hpc : s.pc t = .store b) (h : storeByteStream b s.d = .ok () d) :
    readerStep t call s = { s.goTo t d .unlockRead with written := s.written ++ [b] } := by
  unfold readerStep
  rw [hpc]
  dsimp only
  rw [h]

theorem readerStep_readLock (hpc : s.pc t = .readLock) (hfree : s.d.locks .readLock = false) :
    readerStep t call s = s.goTo t (s.d.hold .readLock) .tryLock := by
  unfold readerStep
  rw [hpc]
  exact if_neg (by rw [hfree]; decide)

theorem readerStep_tryLock (hpc : s.pc t = .tryLock) (hfree : s.d.locks .lock = false) :
    readerStep t call s = s.goTo t (s.d.hold .lock) .take := by
  unfold readerStep
  rw [hpc]
  exact if_neg (by rw [hfree]; decide)

theorem write_run {bytes : List UInt8} {taken : ℕ} (hpc : s.pc t = .outside)
    (hlock : s.d.locks .lock = false) (hc : Content s.d.size s.d bytes taken)
    (hroom : bytes.length < s.d.size) (hb : b ≠ 0) : ∃ m, writeByteStream b s.d =
        .ok 1 { s.d with mem := m, available := s.d.available + 1
                         locks := Function.update s.d.locks .readLock false } ∧
      Content s.d.size { s.d with mem := m, available := s.d.available + 1 } (bytes ++ [b]) taken ∧
      Steps streamStep SoundStep s { s.goTo t { s.d with
          mem := m, available := s.d.available + 1
          locks := Function.update s.d.locks .readLock false } .outside with
        written := s.written ++ [b] } := by
  obtain ⟨m, hstore, hc'⟩ := (hc.setLocks (Function.update s.d.locks .lock true)).store hroom hb
  have hstrlen := (hc.setLocks (Function.update s.d.locks .lock true)).strlen hroom
  have hlocks : Function.update (Function.update (Function.update s.d.locks .lock true) .readLock false)
      .lock false = Function.update s.d.locks .readLock false := by
    funext l
    cases l with
    | lock => rw [update_lock, lock_of_readLock, hlock]
    | readLock => rw [readLock_of_lock, update_lock, update_lock]
  refine ⟨m, ?_, hc'.setLocks _, ?_⟩
  · rw [writeByteStream, getLock_ok hlock, Outcome.bind_ok, hstore, Outcome.bind_ok, Device.unlock,
      Device.unlock]
    dsimp only
    rw [hlocks]
  -- Five steps: the call, `get_lock`, the store and the two releases.
  · have hstart : readerStep t (.write b) s = s.goTo t s.d (.lock b) := by
      unfold readerStep
      rw [hpc]
    have h₁ := steps_unguarded t _ hpc hstart rfl
    have h₂ := steps_unguarded (s := s.goTo t s.d (.lock b)) t .read (goTo_self _)
      (readerStep_lock (goTo_self _) hlock) rfl
    rw [goTo_goTo, goTo_d] at h₂
    have h₃ := steps_one (s := s.goTo t (s.d.hold .lock) (.store b)) t .read (goTo_self _)
      (readerStep_store (goTo_self _) hstore) StreamPc.noConfusion fun c h => by
        cases h
        exact ⟨hb, bytes.length, hstrlen, hroom⟩
    rw [goTo_goTo] at h₃
    refine ((h₁.trans h₂).trans h₃).trans ?_
    set d₁ : Device := { s.d with mem := m, available := s.d.available + 1
                                  locks := Function.update s.d.locks .lock true } with hd₁
    set s₃ : StreamRun := { s.goTo t d₁ .unlockRead with written := s.written ++ [b] } with hs₃
    have hself : s₃.pc t = .unlockRead := Function.update_self ..
    have hpublish : readerStep t .read s₃ = s₃.goTo t (d₁.unlock .readLock) .unlock := by
      unfold readerStep
      rw [hself]
      rfl
    have hleave : readerStep t .read (s₃.goTo t (d₁.unlock .readLock) .unlock) =
        s₃.goTo t ((d₁.unlock .readLock).unlock .lock) .outside := by
      unfold readerStep
      rw [goTo_self]
      exact goTo_goTo
    have h₄ := steps_unguarded t _ hself hpublish rfl
    have h₅ := steps_unguarded t _ (goTo_self _) hleave rfl
    have hlast : s₃.goTo t ((d₁.unlock .readLock).unlock .lock) .outside =
        { s.goTo t { s.d with mem := m, available := s.d.available + 1
                              locks := Function.update s.d.locks .readLock false } .outside with
          written := s.written ++ [b] } := by
      rw [hs₃, hd₁]
      unfold StreamRun.goTo Device.unlock
      dsimp only
      rw [Function.update_idem, hlocks]
    rw [hlast] at h₅
    exact h₄.trans h₅

theorem enter_run {allowed : StreamRun → StreamStep → Prop} (hpc : s.pc t = .outside)
    (hfree : s.d.locks .readLock = false) (hcall : allowed s ⟨t, .read⟩)
    (hlock : allowed (s.goTo t s.d .readLock) ⟨t, .read⟩) :
    Steps streamStep allowed s (s.goTo t (s.d.hold .readLock) .tryLock) := by
  have hstart : readerStep t .read s = s.goTo t s.d .readLock := by
    unfold readerStep
    rw [hpc]
  have hpass : readerStep t .read (s.goTo t s.d .readLock) =
      (s.goTo t s.d .readLock).goTo t (s.d.hold .readLock) .tryLock := readerStep_readLock (goTo_self _) hfree
  rw [goTo_goTo] at hpass
  exact .tail (.single ⟨_, hcall, congrArg some hstart⟩) ⟨_, hlock, congrArg some hpass⟩

theorem enter_storesFit (hpc : s.pc t = .outside) (hfree : s.d.locks .readLock = false) :
    Steps streamStep StoresFit s (s.goTo t (s.d.hold .readLock) .tryLock) :=
  enter_run hpc hfree (fun _ h => nomatch hpc.symm.trans h) fun _ h => nomatch (goTo_self _).symm.trans h

theorem leave_run {bytes : List UInt8} {taken : ℕ} (hpc : s.pc t = .tryLock)
    (hlock : s.d.locks .lock = false) (hc : Content s.d.size s.d bytes taken) (hlt : taken < bytes.length) :
    Steps streamStep SoundStep s
      { s.goTo t ((finishRead { s.d.hold .lock with
          last := taken + 1, available := s.d.available - 1 }).unlock .lock) .outside with
        returned := s.returned ++ [(t, bytes[taken])] } := by
  obtain ⟨htake, -⟩ := (hc.setLocks (Function.update s.d.locks .lock true)).take hlt
  have h₁ := steps_unguarded t .read hpc (readerStep_tryLock hpc hlock) rfl
  refine h₁.trans ?_
  set d₁ : Device := { s.d.hold .lock with last := taken + 1, available := s.d.available - 1 } with hd₁
  have htaken : readerStep t .read (s.goTo t (s.d.hold .lock) .take) =
      s.goTo t d₁ (.finish bytes[taken]) := by
    unfold readerStep
    rw [goTo_self]
    dsimp only [goTo_d]
    rw [show takeByte (s.d.hold .lock) = (bytes[taken], d₁) from htake]
    exact goTo_goTo
  have hfinish : readerStep t .read (s.goTo t d₁ (.finish bytes[taken])) =
      s.goTo t (finishRead d₁) (.leave bytes[taken]) := by
    unfold readerStep
    rw [goTo_self]
    exact goTo_goTo
  have hleave : readerStep t .read (s.goTo t (finishRead d₁) (.leave bytes[taken])) =
      { s.goTo t ((finishRead d₁).unlock .lock) .outside with
        returned := s.returned ++ [(t, bytes[taken])] } := by
    unfold readerStep
    rw [goTo_self]
    dsimp only [goTo_d]
    rw [goTo_goTo]
    rfl
  have h₂ := steps_unguarded t _ (goTo_self _) htaken rfl
  have h₃ := steps_unguarded t _ (goTo_self _) hfinish rfl
  have h₄ := steps_unguarded t _ (goTo_self _) hleave rfl
  exact (h₂.trans h₃).trans h₄

/-- A writer stores a byte, and a reader takes it. -/
theorem readers_sound_write : ∃ d s, MadeDevice 1048575 .stream 1 d ∧
    Steps streamStep (fun s ev => ReadsAlone s ev ∧ StoresFit s ev) (startReaders d) s ∧
      s.written = [65] ∧ s.returned = [(1, 65)] ∧ ReadersSound s := by
  obtain ⟨d, hd⟩ := madeDevice_exists .stream (Nat.le_succ 1)
  have hsize : d.size = 8192 := hd.new.size_eq
  have hf : Filled d.size d [] 0 :=
    hd.new.filled (by rw [hsize]; decide) (hd.new.fits.trans (by decide))
  obtain ⟨m, -, hc, hrun₁⟩ := write_run (s := startReaders d) (t := 0) (b := 65) rfl hd.new.lock
    hf.toContent (by show 0 < d.size; omega) (by decide)
  set s₁ : StreamRun := { (startReaders d).goTo 0 { d with
    mem := m, available := d.available + 1
    locks := Function.update d.locks .readLock false } .outside with written := [] ++ [65] }
  have hout : ∀ u, s₁.pc u = .outside := fun u => update_class id rfl u
  have halone : ReadsAlone (s₁.goTo 1 s₁.d .readLock) ⟨1, .read⟩ := by
    intro _ _ u
    have hclass := update_class (t := 1) (p := .readLock) (c := s₁.pc) StreamPc.reading rfl u
    rw [hout u] at hclass
    exact hclass
  have hrun₂ : Steps streamStep SoundStep s₁ (s₁.goTo 1 (s₁.d.hold .readLock) .tryLock) :=
    enter_run rfl (unlock_self d .readLock) ⟨fun h => (nomatch h), fun b h => (nomatch h)⟩
      ⟨halone, fun b h => (nomatch h)⟩
  set s₂ := s₁.goTo 1 (s₁.d.hold .readLock) .tryLock
  have hlock₂ : s₂.d.locks .lock = false :=
    (lock_of_readLock true).trans ((lock_of_readLock false).trans hd.new.lock)
  have hrun₃ := leave_run (s := s₂) (t := 1) rfl hlock₂ (hc.setLocks _) (by decide)
  have hrun := (hrun₁.trans hrun₂).trans hrun₃
  exact ⟨d, _, hd, hrun, rfl, rfl, readers_sound hd (le_refl 1) hrun⟩

/-- A writer opens `read_lock` for a second reader while the first one has passed it; both take their byte,
`read_lock` stays free, and a third read takes a byte that is not there. -/
theorem reader_takes_nothing : ∃ d s, MadeDevice 1048575 .stream 1 d ∧
    Steps streamStep StoresFit (startReaders d) s ∧ s.pc 1 = .take ∧ s.d.available = 0 ∧
      ¬ ReadersSound s := by
  obtain ⟨d, hd⟩ := madeDevice_exists .stream (Nat.le_succ 1)
  have hsize : d.size = 8192 := hd.new.size_eq
  have hf : Filled d.size d [] 0 :=
    hd.new.filled (by rw [hsize]; decide) (hd.new.fits.trans (by decide))
  have hav : d.available = 0 := hd.new.available
  -- a byte for the first reader
  obtain ⟨m₁, -, hc₁, hrun₁⟩ := write_run (s := startReaders d) (t := 0) (b := 1) rfl hd.new.lock
    hf.toContent (by show 0 < d.size; omega) (by decide)
  set s₁ : StreamRun := { (startReaders d).goTo 0 { d with
    mem := m₁, available := d.available + 1
    locks := Function.update d.locks .readLock false } .outside with written := [] ++ [1] }
  have hrun₂ : Steps streamStep StoresFit s₁ (s₁.goTo 1 (s₁.d.hold .readLock) .tryLock) :=
    enter_storesFit rfl (unlock_self d .readLock)
  set s₂ := s₁.goTo 1 (s₁.d.hold .readLock) .tryLock
  have hlock₂ : s₂.d.locks .lock = false :=
    (lock_of_readLock true).trans ((lock_of_readLock false).trans hd.new.lock)
  -- a second byte, which frees the lock that the first reader has
  obtain ⟨m₃, -, hc₃, hrun₃⟩ := write_run (s := s₂) (t := 0) (b := 2) rfl hlock₂ (hc₁.setLocks _)
    (by show 1 < d.size; omega) (by decide)
  set s₃ : StreamRun := { s₂.goTo 0 { s₂.d with
    mem := m₃, available := s₂.d.available + 1
    locks := Function.update s₂.d.locks .readLock false } .outside with written := s₂.written ++ [2] }
  have hrun₄ : Steps streamStep StoresFit s₃ (s₃.goTo 2 (s₃.d.hold .readLock) .tryLock) :=
    enter_storesFit rfl (unlock_self s₂.d .readLock)
  set s₄ := s₃.goTo 2 (s₃.d.hold .readLock) .tryLock
  have hlock₄ : s₄.d.locks .lock = false :=
    (lock_of_readLock true).trans ((lock_of_readLock false).trans hlock₂)
  have hav₄ : s₄.d.available = 2 := congrArg (· + 2) hav
  have hc₄ : Content s₄.d.size s₄.d [1, 2] 0 := hc₃.setLocks _
  -- both readers take their bytes
  have hrun₅ := leave_run (s := s₄) (t := 1) rfl hlock₄ hc₄ (by decide)
  have hmore : 0 < s₄.d.available - 1 := by omega
  have hc₅ := ((hc₄.setLocks (Function.update s₄.d.locks .lock true)).take (by decide)).2
  rw [finishRead_more (d := { s₄.d.hold .lock with last := 0 + 1, available := s₄.d.available - 1 }) hmore]
    at hrun₅
  set d₅ := (({ s₄.d.hold .lock with last := 0 + 1, available := s₄.d.available - 1 } : Device).unlock
    .readLock).unlock .lock
  set s₅ : StreamRun := { s₄.goTo 1 d₅ .outside with returned := s₄.returned ++ [(1, [(1 : UInt8), 2][0])] }
  have hread₅ : s₅.d.locks .readLock = false := (readLock_unlock _).trans (unlock_self _ _)
  have hc₅' : Content s₅.d.size s₅.d [1, 2] 1 := (hc₅.setLocks _).setLocks _
  have hrun₆ := leave_run (s := s₅) (t := 2) rfl (unlock_self _ _) hc₅' (by decide)
  set d₆ : Device := { s₅.d.hold .lock with last := 1 + 1, available := s₅.d.available - 1 }
  have hav₆ : d₆.available = 0 := by
    show s₄.d.available - 1 - 1 = 0
    omega
  have hend : finishRead d₆ =
      { d₆ with mem := memset d₆.buffer 0 (pageSize * 2) d₆.mem, last := 0 } := if_pos hav₆.le
  rw [hend] at hrun₆
  set s₆ : StreamRun := { s₅.goTo 2 (Device.unlock .lock { d₆ with
    mem := memset d₆.buffer 0 (pageSize * 2) d₆.mem, last := 0 }) .outside with
    returned := s₅.returned ++ [(2, [(1 : UInt8), 2][1])] }
  have hread₆ : s₆.d.locks .readLock = false :=
    (readLock_unlock _).trans ((readLock_of_lock true).trans hread₅)
  -- the lock is free, with nothing behind it
  have hrun₇ : Steps streamStep StoresFit s₆ (s₆.goTo 1 (s₆.d.hold .readLock) .tryLock) :=
    enter_storesFit rfl hread₆
  set s₇ := s₆.goTo 1 (s₆.d.hold .readLock) .tryLock
  have hlock₇ : s₇.d.locks .lock = false := (lock_of_readLock true).trans
    (unlock_self { d₆ with mem := memset d₆.buffer 0 (pageSize * 2) d₆.mem, last := 0 } .lock)
  have hrun₈ := steps_unguarded (s := s₇) 1 .read rfl (readerStep_tryLock rfl hlock₇) rfl
  have hzero : (s₇.goTo 1 (s₇.d.hold .lock) .take).d.available = 0 := hav₆
  refine ⟨d, _, hd, ((((((((storesFit_of_sound hrun₁).trans hrun₂).trans (storesFit_of_sound hrun₃)).trans hrun₄).trans (storesFit_of_sound hrun₅)).trans
    (storesFit_of_sound hrun₆)).trans hrun₇).trans (storesFit_of_sound hrun₈)), goTo_self _, hzero, fun hsound => ?_⟩
  have hpos := hsound.takes 1 (goTo_self _)
  omega

end Alone

end Steps

end X86Osdev.Kernel

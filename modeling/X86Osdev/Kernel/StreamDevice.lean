import X86Osdev.Kernel.Files

/-! Stream devices: the calls on one device, one at a time, while the rest of the kernel goes on storing into
the memory behind the buffer. -/

namespace X86Osdev.Kernel
open X86Osdev.Lib X86Osdev.Mem ByteMemory

inductive StreamCall where
  | write (b : UInt8)
  | read
deriving DecidableEq

/-- Between two calls everything outside the buffer can change. -/
inductive StreamEvent where
  | call (c : StreamCall)
  | others (m : Memory)

def StreamEvent.toCall : StreamEvent → Option StreamCall
  | .call c => some c
  | .others _ => none

def callsOf (evs : List StreamEvent) : List StreamCall := evs.filterMap StreamEvent.toCall

def Device.outside (d : Device) (m : Memory) : Memory := fun a =>
  if d.buffer ≤ a ∧ a < d.buffer + d.size then d.mem a else m a

def streamCall : StreamCall → Device → Outcome Device (List UInt8)
  | .write b, d => (writeByteStream b d).bind fun _ d => .ok [] d
  | .read, d => (readByteStream d).bind fun out d => .ok [out] d

def streamEvent : StreamEvent → Device → Outcome Device (List UInt8)
  | .call c, d => streamCall c d
  | .others m, d => .ok [] { d with mem := d.outside m }

def streamRun : List StreamEvent → Device → Outcome Device (List UInt8)
  | [], d => .ok [] d
  | ev :: evs, d =>
    (streamEvent ev d).bind fun out d => (streamRun evs d).bind fun outs d => .ok (out ++ outs) d

def written : List StreamCall → List UInt8
  | [] => []
  | .write b :: calls => b :: written calls
  | .read :: calls => written calls

/-- Bytes written since the device was last empty, and those of them that were read. -/
structure Level where
  filled : ℕ
  taken : ℕ
deriving DecidableEq

def Level.call : StreamCall → Level → Level
  | .write _, l => { l with filled := l.filled + 1 }
  | .read, l => if l.taken + 1 = l.filled then ⟨0, 0⟩ else { l with taken := l.taken + 1 }

/-- Reads come only when there is a byte, and at most `size - 1` bytes wait to be read; none is NUL. -/
def LegalCalls (size : ℕ) : List StreamCall → Level → Prop
  | [], _ => True
  | .write b :: calls, l =>
    b ≠ 0 ∧ l.filled + 1 - l.taken ≤ size - 1 ∧ LegalCalls size calls (l.call (.write b))
  | .read :: calls, l => l.taken < l.filled ∧ LegalCalls size calls (l.call .read)

/-- Every byte is written when fewer than `size` bytes were written since the device was last empty. -/
def Roomy (size : ℕ) : List StreamCall → Level → Prop
  | [], _ => True
  | .write b :: calls, l => l.filled < size ∧ Roomy size calls (l.call (.write b))
  | .read :: calls, l => Roomy size calls (l.call .read)

/-- The run returns. What was read is what was written first, the rest is available, and `read_lock` is free
exactly while something is. -/
def Fifo (evs : List StreamEvent) (d : Device) : Prop :=
  ∃ outs d' unread, streamRun evs d = .ok outs d' ∧ written (callsOf evs) = outs ++ unread ∧
    d'.available = unread.length ∧ (d'.locks .readLock = false ↔ 0 < d'.available)

structure Content (room : ℕ) (d : Device) (bytes : List UInt8) (taken : ℕ) : Prop where
  start : 0 < d.buffer
  fits : d.buffer + room ≤ 2 ^ 32
  pages : pageSize * 2 ≤ room
  length_le : bytes.length ≤ room
  mem : ∀ i (hi : i < bytes.length), d.mem (d.buffer + i) = bytes[i]
  stop : bytes.length < room → d.mem (d.buffer + bytes.length) = 0
  nonzero : ∀ b ∈ bytes, b ≠ 0
  last : d.last = taken
  available : d.available = bytes.length - taken
  taken_le : taken ≤ bytes.length

section Buffer
variable {d : Device} {room taken : ℕ} {bytes : List UInt8} {b : UInt8}

theorem Content.string (hc : Content room d bytes taken) : StringBytes d.mem d.buffer bytes :=
  ⟨hc.mem, hc.nonzero⟩

theorem Content.strlen (hc : Content room d bytes taken) (hroom : bytes.length < room) :
    strlen d.mem d.buffer = some bytes.length :=
  hc.string.strlen (hc.stop hroom) (by have := hc.fits; omega)

theorem Content.setLocks (hc : Content room d bytes taken) (locks : FileLock → Bool) :
    Content room { d with locks } bytes taken :=
  ⟨hc.start, hc.fits, hc.pages, hc.length_le, hc.mem, hc.stop, hc.nonzero, hc.last, hc.available, hc.taken_le⟩

theorem Content.store (hc : Content room d bytes taken) (hroom : bytes.length < room) (hb : b ≠ 0) :
    ∃ m, storeByteStream b d = .ok () { d with mem := m, available := d.available + 1 } ∧
      Content room { d with mem := m, available := d.available + 1 } (bytes ++ [b]) taken := by
  have hfits := hc.fits
  have hstart := hc.start
  have htaken := hc.taken_le
  have hav := hc.available
  have hnext : u32 (d.available + 1) = d.available + 1 := Nat.mod_eq_of_lt (by omega)
  have hlen : (bytes ++ [b]).length = bytes.length + 1 := List.length_append
  obtain ⟨m, happend, hm, hstop⟩ := hc.string.append (hc.stop hroom) (.inl hstart) (by omega) hb
  refine ⟨m, ?_, hstart, hfits, hc.pages, by omega, hm.mem, fun hlt => hstop (by omega), hm.nonzero,
    hc.last, ?_, by omega⟩
  · rw [storeByteStream, happend]
    dsimp only
    rw [hnext]
  · show d.available + 1 = (bytes ++ [b]).length - taken
    omega

theorem Content.take (hc : Content room d bytes taken) (hlt : taken < bytes.length) :
    takeByte d = (bytes[taken], { d with last := taken + 1, available := d.available - 1 }) ∧
      Content room { d with last := taken + 1, available := d.available - 1 } bytes (taken + 1) := by
  have hfits := hc.fits
  have hstart := hc.start
  have hle := hc.length_le
  have hav := hc.available
  have hout : d.mem (u32 (d.buffer + d.last)) = bytes[taken] := by
    rw [hc.last, u32, Nat.mod_eq_of_lt (by omega), hc.mem taken hlt]
  have hdec : u32 (d.available + (2 ^ 32 - 1)) = d.available - 1 := by
    unfold u32
    omega
  have hnext : u32 (d.last + 1) = taken + 1 := by
    rw [hc.last]
    exact Nat.mod_eq_of_lt (by omega)
  refine ⟨?_, hc.start, hc.fits, hc.pages, hle, hc.mem, hc.stop, hc.nonzero, rfl, ?_, hlt⟩
  · rw [takeByte, hout, hdec, hnext]
  · show d.available - 1 = bytes.length - (taken + 1)
    omega

theorem Content.drained (hc : Content room d bytes taken) (hzero : d.available = 0) :
    Content room (finishRead d) [] 0 ∧ (finishRead d).locks = d.locks ∧ (finishRead d).available = 0 := by
  have hpages : 8192 ≤ room := hc.pages
  have hclear : memset d.buffer 0 (pageSize * 2) d.mem (d.buffer + 0) = 0 :=
    (memset_apply (hc.fits.trans' (Nat.add_le_add_left hc.pages _))).trans
      (if_pos ⟨Nat.le_add_right _ _, Nat.add_lt_add_left (by decide) _⟩)
  rw [finishRead, if_pos hzero.le]
  refine ⟨⟨hc.start, hc.fits, hc.pages, Nat.zero_le _, fun i hi => absurd hi (Nat.not_lt_zero i), fun _ => ?_,
    fun c hmem => absurd hmem List.not_mem_nil, rfl, hzero, le_rfl⟩, rfl, hzero⟩
  dsimp only [List.length_nil]
  exact hclear

theorem finishRead_more (hpos : 0 < d.available) : finishRead d = d.unlock .readLock :=
  if_neg (Nat.not_le.mpr hpos)

end Buffer

structure Filled (room : ℕ) (d : Device) (bytes : List UInt8) (taken : ℕ) : Prop
    extends Content room d bytes taken where
  lock : d.locks .lock = false
  readLock : d.locks .readLock = decide (d.available = 0)
  unread : taken < bytes.length ∨ bytes = [] ∧ taken = 0

section Calls
variable {d d' : Device} {room taken : ℕ} {bytes : List UInt8} {b : UInt8} {m : Memory}

theorem Filled.write (hf : Filled room d bytes taken) (hroom : bytes.length < room) (hb : b ≠ 0) :
    ∃ d', streamCall (.write b) d = .ok [] d' ∧ Filled room d' (bytes ++ [b]) taken ∧
      d'.buffer = d.buffer ∧ d'.size = d.size := by
  have hc := hf.toContent.setLocks (Function.update d.locks .lock true)
  obtain ⟨m, hstore, hc'⟩ := hc.store hroom hb
  have hlen : (bytes ++ [b]).length = bytes.length + 1 := List.length_append
  have hle := hf.taken_le
  refine ⟨(({ d with mem := m, available := d.available + 1
                     locks := Function.update d.locks .lock true } : Device).unlock .readLock).unlock .lock,
    ?_, ⟨(hc'.setLocks _).setLocks _, unlock_self _ .lock, ?_, .inl (by omega)⟩, rfl, rfl⟩
  · rw [streamCall, writeByteStream, getLock_ok hf.lock, Outcome.bind_ok, hstore]
    rfl
  · rw [readLock_unlock, unlock_self]
    exact (decide_eq_false (Nat.succ_ne_zero _)).symm

theorem Filled.read (hf : Filled room d bytes taken) (hlt : taken < bytes.length) :
    ∃ d', streamCall .read d = .ok [bytes[taken]] d' ∧ d'.buffer = d.buffer ∧ d'.size = d.size ∧
      (if taken + 1 = bytes.length then Filled room d' [] 0 else Filled room d' bytes (taken + 1)) := by
  have hav := hf.available
  have hread : d.locks .readLock = false := by
    rw [hf.readLock, decide_eq_false]
    omega
  have hlock : ({ d with locks := Function.update d.locks .readLock true } : Device).locks .lock = false :=
    (lock_of_readLock true).trans hf.lock
  set locks := Function.update (Function.update d.locks .readLock true) .lock true with hlocks
  obtain ⟨htake, hc⟩ := (hf.toContent.setLocks locks).take hlt
  have hcall : streamCall .read d = .ok [bytes[taken]] ((finishRead
      { d with locks, last := taken + 1, available := d.available - 1 }).unlock .lock) := by
    rw [streamCall, readByteStream, getLock_ok hread, Outcome.bind_ok, getLock_ok hlock, Outcome.bind_ok]
    dsimp only
    rw [← hlocks, htake]
    rfl
  have hkept : locks .readLock = true := by
    rw [hlocks, readLock_of_lock, update_lock]
  refine ⟨_, hcall, ?_⟩
  by_cases hdrained : taken + 1 = bytes.length
  · have hzero : d.available - 1 = 0 := by omega
    obtain ⟨hc', hl, hz⟩ := hc.drained hzero
    rw [if_pos hdrained]
    refine ⟨?_, ?_, ⟨hc'.setLocks _, unlock_self _ .lock, ?_, .inr ⟨rfl, rfl⟩⟩⟩
    · rw [finishRead, if_pos hzero.le]
      rfl
    · rw [finishRead, if_pos hzero.le]
      rfl
    · rw [readLock_unlock, hl]
      exact hkept.trans (decide_eq_true hz).symm
  · have hpos : 0 < d.available - 1 := by omega
    rw [if_neg hdrained, finishRead_more hpos]
    refine ⟨rfl, rfl, (hc.setLocks _).setLocks _, unlock_self _ .lock, ?_, .inl (by omega)⟩
    rw [readLock_unlock, unlock_self]
    exact (decide_eq_false hpos.ne').symm

theorem Filled.others (hf : Filled room d bytes taken) (hroom : room ≤ d.size) (m : Memory) :
    Filled room { d with mem := d.outside m } bytes taken := by
  have hle := hf.length_le
  refine ⟨⟨hf.start, hf.fits, hf.pages, hf.length_le, fun i hi => ?_, fun hlt => ?_, hf.nonzero, hf.last,
    hf.available, hf.taken_le⟩, hf.lock, hf.readLock, hf.unread⟩
  · have hin : d.buffer ≤ d.buffer + i ∧ d.buffer + i < d.buffer + d.size := ⟨by omega, by omega⟩
    exact (if_pos hin).trans (hf.mem i hi)
  · have hin : d.buffer ≤ d.buffer + bytes.length ∧ d.buffer + bytes.length < d.buffer + d.size :=
      ⟨by omega, by omega⟩
    exact (if_pos hin).trans (hf.stop hlt)

end Calls

section Runs
variable {d d' : Device} {room size taken totalPages order : ℕ} {bytes : List UInt8} {l : Level}
  {evs evs' : List StreamEvent} {calls calls' : List StreamCall} {outs : List UInt8}

def levelAfter (calls : List StreamCall) (l : Level) : Level := calls.foldl (fun l c => l.call c) l

theorem streamRun_append (h : streamRun evs d = .ok outs d') : streamRun (evs ++ evs') d =
    (streamRun evs' d').bind fun outs' d => .ok (outs ++ outs') d := by
  induction evs generalizing d outs with
  | nil =>
    obtain ⟨rfl, rfl⟩ := Outcome.ok.inj h
    rw [List.nil_append]
    cases streamRun evs' d with
    | ok => rfl
    | panic => rfl
    | hang => rfl
  | cons ev evs ih =>
    rw [streamRun] at h
    obtain ⟨out, d₁, hev, hrest⟩ := Outcome.bind_eq_ok.mp h
    obtain ⟨outs', d₂, hrun, hout⟩ := Outcome.bind_eq_ok.mp hrest
    obtain ⟨rfl, rfl⟩ := Outcome.ok.inj hout
    rw [List.cons_append, streamRun, hev, Outcome.bind_ok, ih hrun]
    cases streamRun evs' d₂ with
    | ok outs₃ d₃ => exact congrArg (fun x => Outcome.ok x d₃) (List.append_assoc ..).symm
    | panic => rfl
    | hang => rfl

theorem written_append (calls calls' : List StreamCall) :
    written (calls ++ calls') = written calls ++ written calls' := by
  induction calls with
  | nil => rfl
  | cons c calls ih =>
    cases c with
    | write b => exact congrArg (b :: ·) ih
    | read => exact ih

theorem legalCalls_append : LegalCalls size (calls ++ calls') l ↔
    LegalCalls size calls l ∧ LegalCalls size calls' (levelAfter calls l) := by
  induction calls generalizing l with
  | nil => exact (Iff.of_eq (true_and _)).symm
  | cons c calls ih =>
    cases c with
    | write b =>
      simp only [List.cons_append, LegalCalls, ih, and_assoc]
      rfl
    | read =>
      simp only [List.cons_append, LegalCalls, ih, and_assoc]
      rfl

theorem roomy_append : Roomy size (calls ++ calls') l ↔
    Roomy size calls l ∧ Roomy size calls' (levelAfter calls l) := by
  induction calls generalizing l with
  | nil => exact (Iff.of_eq (true_and _)).symm
  | cons c calls ih =>
    cases c with
    | write b =>
      simp only [List.cons_append, Roomy, ih, and_assoc]
      rfl
    | read =>
      simp only [List.cons_append, Roomy, ih]
      rfl

theorem not_roomy (h : ¬ Roomy size calls l) : ∃ calls₁ b calls₂, calls = calls₁ ++ .write b :: calls₂ ∧
    Roomy size calls₁ l ∧ size ≤ (levelAfter calls₁ l).filled := by
  induction calls generalizing l with
  | nil => exact absurd trivial h
  | cons c calls ih =>
    cases c with
    | write b =>
      by_cases hlt : l.filled < size
      · obtain ⟨calls₁, b', calls₂, rfl, hr, hle⟩ := ih fun hr => h ⟨hlt, hr⟩
        exact ⟨.write b :: calls₁, b', calls₂, rfl, ⟨hlt, hr⟩, hle⟩
      · exact ⟨[], b, calls, rfl, trivial, Nat.le_of_not_lt hlt⟩
    | read =>
      obtain ⟨calls₁, b', calls₂, rfl, hr, hle⟩ := ih (l := l.call .read) h
      exact ⟨.read :: calls₁, b', calls₂, rfl, hr, hle⟩

/-- A run that has the room: what was read and what waits in the buffer are together what was written. -/
theorem Filled.run (hf : Filled room d bytes taken) (hothers : ∀ m, .others m ∈ evs → room ≤ d.size)
    (hl : LegalCalls size (callsOf evs) ⟨bytes.length, taken⟩)
    (hr : Roomy room (callsOf evs) ⟨bytes.length, taken⟩) :
    ∃ outs d' bytes' taken', streamRun evs d = .ok outs d' ∧ Filled room d' bytes' taken' ∧
      d'.buffer = d.buffer ∧ d'.size = d.size ∧
      bytes.drop taken ++ written (callsOf evs) = outs ++ bytes'.drop taken' ∧
      levelAfter (callsOf evs) ⟨bytes.length, taken⟩ = ⟨bytes'.length, taken'⟩ := by
  induction evs generalizing d bytes taken with
  | nil => exact ⟨[], d, bytes, taken, rfl, hf, rfl, rfl, List.append_nil _, rfl⟩
  | cons ev evs ih =>
    have hothers' : ∀ m, .others m ∈ evs → room ≤ d.size := fun m hm =>
      hothers m (List.mem_cons_of_mem _ hm)
    cases ev with
    | others m =>
      have hf₁ := hf.others (hothers m (List.mem_cons_self ..)) m
      obtain ⟨outs, d', bytes', taken', hrun, hrest⟩ := ih hf₁ hothers' hl hr
      refine ⟨outs, d', bytes', taken', ?_, hrest⟩
      rw [streamRun, streamEvent, Outcome.bind_ok, hrun]
      rfl
    | call c =>
      cases c with
      | write b =>
        obtain ⟨d₁, hcall, hf₁, hbuffer, hsize⟩ := hf.write hr.1 hl.1
        have hlevel : (⟨(bytes ++ [b]).length, taken⟩ : Level) = ⟨bytes.length + 1, taken⟩ := by
          rw [List.length_append]
          rfl
        obtain ⟨outs, d', bytes', taken', hrun, hf', hbuffer', hsize', hqueue, hafter⟩ :=
          ih hf₁ (fun m hm => hsize ▸ hothers' m hm) (hlevel ▸ hl.2.2) (hlevel ▸ hr.2)
        rw [hlevel] at hafter
        refine ⟨outs, d', bytes', taken', ?_, hf', hbuffer'.trans hbuffer, hsize'.trans hsize, ?_, hafter⟩
        · rw [streamRun, streamEvent, hcall, Outcome.bind_ok, hrun]
          rfl
        · have hle : taken ≤ bytes.length := by
            rcases hf.unread with h | ⟨rfl, rfl⟩
            · exact h.le
            · exact le_rfl
          rw [List.drop_append_of_le_length hle, List.append_assoc] at hqueue
          exact hqueue
      | read =>
        have hlt : taken < bytes.length := hl.1
        obtain ⟨d₁, hcall, hbuffer, hsize, hnext⟩ := hf.read hlt
        have hfront : bytes.drop taken = bytes[taken] :: bytes.drop (taken + 1) :=
          List.drop_eq_getElem_cons hlt
        have hstep : ∃ bytes₁ taken₁, Filled room d₁ bytes₁ taken₁ ∧
            Level.call .read ⟨bytes.length, taken⟩ = ⟨bytes₁.length, taken₁⟩ ∧
            bytes.drop (taken + 1) = bytes₁.drop taken₁ := by
          by_cases hdrained : taken + 1 = bytes.length
          · -- the last byte: the buffer starts again
            rw [if_pos hdrained] at hnext
            refine ⟨[], 0, hnext, if_pos hdrained, ?_⟩
            rw [hdrained, List.drop_length]
            rfl
          · rw [if_neg hdrained] at hnext
            exact ⟨bytes, taken + 1, hnext, if_neg hdrained, rfl⟩
        obtain ⟨bytes₁, taken₁, hf₁, hlevel, hleft⟩ := hstep
        obtain ⟨outs, d', bytes', taken', hrun, hf', hbuffer', hsize', hqueue, hafter⟩ :=
          ih hf₁ (fun m hm => hsize ▸ hothers' m hm) (hlevel ▸ hl.2) (hlevel ▸ hr)
        refine ⟨bytes[taken] :: outs, d', bytes', taken', ?_, hf', hbuffer'.trans hbuffer,
          hsize'.trans hsize, ?_, ?_⟩
        · rw [streamRun, streamEvent, hcall, Outcome.bind_ok, hrun]
          rfl
        · rw [hfront, hleft]
          exact congrArg (bytes[taken] :: ·) hqueue
        · rw [← hafter]
          exact congrArg (levelAfter (callsOf evs)) hlevel

theorem Filled.fifo (hf : Filled room d [] 0) (hothers : ∀ m, .others m ∈ evs → room ≤ d.size)
    (hl : LegalCalls size (callsOf evs) ⟨0, 0⟩) (hr : Roomy room (callsOf evs) ⟨0, 0⟩) : Fifo evs d := by
  obtain ⟨outs, d', bytes, taken, hrun, hf', -, -, hqueue, -⟩ := hf.run hothers hl hr
  have hlen : (bytes.drop taken).length = d'.available := List.length_drop.trans hf'.available.symm
  refine ⟨outs, d', bytes.drop taken, hrun, hqueue, hlen.symm, ?_⟩
  rw [hf'.readLock, decide_eq_false_iff_not]
  exact Nat.pos_iff_ne_zero.symm

/-- In a full buffer `strlen` runs into the memory behind it. -/
theorem Filled.write_full (hf : Filled d.size d bytes taken) (hfull : d.size ≤ bytes.length) (b : UInt8) :
    ∃ d', streamRun [.others fun _ => 1, .call (.write b)] d = .hang d' := by
  have hfits := hf.fits
  have hnz : ∀ a < 2 ^ 32, d.outside (fun _ => 1) a ≠ 0 := by
    intro a _
    unfold Device.outside
    split
    · next ha =>
      have hlt : a - d.buffer < bytes.length := by omega
      have hmem := hf.mem _ hlt
      rw [Nat.add_sub_cancel' ha.1] at hmem
      rw [hmem]
      exact hf.nonzero _ (List.getElem_mem hlt)
    · exact (by decide : (1 : UInt8) ≠ 0)
  have hlock : ({ d with mem := d.outside fun _ => 1 } : Device).locks .lock = false := hf.lock
  refine ⟨{ d with mem := d.outside fun _ => 1, locks := Function.update d.locks .lock true }, ?_⟩
  have happend : append d.buffer b (d.outside fun _ => 1) = none := by
    rw [append, strlen_none hnz]
    rfl
  rw [streamRun, streamEvent, Outcome.bind_ok, streamRun, streamEvent, streamCall, writeByteStream,
    getLock_ok hlock, Outcome.bind_ok, storeByteStream]
  dsimp only
  rw [happend]
  rfl

theorem callsOf_call (calls : List StreamCall) : callsOf (calls.map .call) = calls := by
  unfold callsOf
  rw [List.filterMap_map]
  exact List.filterMap_some

theorem callsOf_append (evs evs' : List StreamEvent) :
    callsOf (evs ++ evs') = callsOf evs ++ callsOf evs' := List.filterMap_append

theorem others_notMem (m : Memory) (calls : List StreamCall) :
    StreamEvent.others m ∉ calls.map StreamEvent.call := by
  intro hmem
  obtain ⟨c, -, hc⟩ := List.mem_map.mp hmem
  cases hc

theorem NewDevice.filled (hd : NewDevice .stream order d) (hk : pageSize * 2 ≤ room)
    (hroom : d.buffer + room ≤ 2 ^ 32) : Filled room d [] 0 := by
  have hsize := hd.size_eq
  have hpos : 0 < 2 ^ order := by positivity
  have hav : d.available = 0 := hd.available
  refine ⟨⟨Nat.lt_of_lt_of_le (by decide) hd.kernel, hroom, hk, Nat.zero_le _,
    fun i hi => absurd hi (Nat.not_lt_zero i), fun _ => hd.zero 0 (by omega),
    fun b hb => absurd hb List.not_mem_nil, hd.last, hav, le_rfl⟩, hd.lock, ?_, .inr ⟨rfl, rfl⟩⟩
  rw [hd.readLock, hav]
  rfl

/-- A device with more than one page is a FIFO, whatever the rest of the kernel stores in its own memory, for
exactly the sequences of calls that write each byte less than `size` bytes after the device was empty. -/
theorem stream_fifo (hd : MadeDevice totalPages .stream order d) (hk : 1 ≤ order)
    (hl : LegalCalls d.size calls ⟨0, 0⟩) :
    (∀ evs, callsOf evs = calls → ∀ pre, pre <+: evs → Fifo pre d) ↔ Roomy d.size calls ⟨0, 0⟩ := by
  have hpow : 2 ^ 1 ≤ 2 ^ order := Nat.pow_le_pow_right (by decide) hk
  have hsize := hd.new.size_eq
  have hpages : pageSize * 2 ≤ d.size := by
    unfold pageSize
    omega
  have hf := hd.new.filled hpages (hd.new.fits.trans (by decide))
  constructor
  · intro hall
    by_contra hnot
    obtain ⟨calls₁, b, calls₂, rfl, hr, hfull⟩ := not_roomy hnot
    have hl₁ := (legalCalls_append.mp hl).1
    have hothers : ∀ m, .others m ∈ calls₁.map StreamEvent.call → d.size ≤ d.size := fun _ _ => le_rfl
    obtain ⟨outs, d', bytes, taken, hrun, hf', hbuffer, hsize', -, hafter⟩ :=
      hf.run hothers
        (by rw [callsOf_call]; exact hl₁) (by rw [callsOf_call]; exact hr)
    rw [callsOf_call] at hafter
    have hbytes : d.size ≤ bytes.length := hfull.trans (congrArg Level.filled hafter).le
    obtain ⟨d₂, hhang⟩ := (hsize'.symm ▸ hf' : Filled d'.size d' bytes taken).write_full
      (hsize'.symm ▸ hbytes) b
    have hpre : calls₁.map .call ++ [.others fun _ => 1, .call (.write b)] <+:
        calls₁.map .call ++ [.others fun _ => 1, .call (.write b)] ++ calls₂.map StreamEvent.call :=
      List.prefix_append ..
    have hcalls : callsOf (calls₁.map .call ++ [.others fun _ => 1, .call (.write b)] ++
        calls₂.map StreamEvent.call) = calls₁ ++ .write b :: calls₂ := by
      rw [callsOf_append, callsOf_append, callsOf_call, callsOf_call]
      exact List.append_assoc ..
    obtain ⟨outs', d₃, unread, hok, -⟩ := hall _ hcalls _ hpre
    rw [streamRun_append hrun, hhang] at hok
    cases hok
  · rintro hr evs rfl pre ⟨rest, rfl⟩
    rw [callsOf_append] at hl hr
    exact hf.fifo (fun _ _ => le_rfl) (legalCalls_append.mp hl).1 (roomy_append.mp hr).1

theorem stream_fifo_one : ∃ d, MadeDevice 1048575 .stream 1 d ∧
    ((∀ evs, callsOf evs = [.write 65, .read] → ∀ pre, pre <+: evs → Fifo pre d) ↔
      Roomy d.size [.write 65, .read] ⟨0, 0⟩) := by
  obtain ⟨d, hd⟩ := madeDevice_exists .stream (Nat.le_succ 1)
  have hsize : d.size = 8192 := hd.new.size_eq
  exact ⟨d, hd, stream_fifo hd (le_refl 1) ⟨by decide, by dsimp only; omega, Nat.one_pos, trivial⟩⟩

def refill : ℕ → List StreamCall
  | 0 => []
  | n + 1 => .write 1 :: .read :: refill n

theorem level_refill (t : ℕ) : Level.call .read (Level.call (.write 1) ⟨t + 1, t⟩) = ⟨t + 2, t + 1⟩ :=
  if_neg (by dsimp only [Level.call]; omega)

theorem legalCalls_refill (hs : 3 ≤ size) (n t : ℕ) : LegalCalls size (refill n) ⟨t + 1, t⟩ := by
  induction n generalizing t with
  | zero => trivial
  | succ n ih =>
    refine ⟨by decide, by dsimp only; omega, by dsimp only [Level.call]; omega, ?_⟩
    rw [level_refill]
    exact ih (t + 1)

theorem roomy_refill (n t : ℕ) (h : t + n < room) : Roomy room (refill n) ⟨t + 1, t⟩ := by
  induction n generalizing t with
  | zero => trivial
  | succ n ih =>
    refine ⟨by dsimp only; omega, ?_⟩
    show Roomy room (refill n) (Level.call .read (Level.call (.write 1) ⟨t + 1, t⟩))
    rw [level_refill]
    exact ih (t + 1) (by omega)

theorem levelAfter_refill (n t : ℕ) : levelAfter (refill n) ⟨t + 1, t⟩ = ⟨t + n + 1, t + n⟩ := by
  induction n generalizing t with
  | zero => rfl
  | succ n ih =>
    show levelAfter (refill n) (Level.call .read (Level.call (.write 1) ⟨t + 1, t⟩)) = _
    rw [level_refill, ih (t + 1)]
    exact congrArg₂ Level.mk (by omega) (by omega)

theorem written_refill (n : ℕ) : ∀ b ∈ written (refill n), b = 1 := by
  induction n with
  | zero => exact fun b hb => absurd hb List.not_mem_nil
  | succ n ih =>
    intro b hb
    rcases List.mem_cons.mp hb with rfl | hb
    · rfl
    · exact ih b hb

theorem Filled.foreign (hf : Filled room d bytes taken) (hroom : room = d.size + 1)
    (hlen : bytes.length = d.size + 1) (htaken : taken = d.size) :
    ∃ d', streamRun [.others fun _ => 2, .call .read] d = .ok [2] d' := by
  have hf' : Filled room { d with mem := d.outside fun _ => 2 } (bytes.set taken 2) taken := by
    refine ⟨⟨hf.start, hf.fits, hf.pages, ?_, fun i hi => ?_, fun hlt => ?_, fun b hb => ?_, hf.last, ?_, ?_⟩,
      hf.lock, hf.readLock, .inl ?_⟩
    · rw [List.length_set]
      exact hf.length_le
    · rw [List.length_set] at hi
      show d.outside (fun _ => 2) (d.buffer + i) = _
      unfold Device.outside
      rw [List.getElem_set]
      by_cases hin : i = taken
      · rw [if_neg (by omega), if_pos hin.symm]
      · rw [if_pos (by omega), if_neg (Ne.symm hin)]
        exact hf.mem i hi
    · rw [List.length_set] at hlt
      omega
    · rcases List.mem_or_eq_of_mem_set hb with hb | rfl
      · exact hf.nonzero b hb
      · decide
    · rw [List.length_set]
      exact hf.available
    · rw [List.length_set]
      exact hf.taken_le
    · rw [List.length_set]
      omega
  obtain ⟨d', hcall, -⟩ := hf'.read (by rw [List.length_set]; omega)
  rw [List.getElem_set_self] at hcall
  refine ⟨d', ?_⟩
  rw [streamRun, streamEvent, Outcome.bind_ok, streamRun, streamEvent, hcall]
  rfl

/-- With never more than two bytes unread, a byte is stored behind the buffer, where the rest of the kernel
puts something else. -/
theorem stream_reads_foreign : ∃ d, MadeDevice 1048575 .stream 1 d ∧
    LegalCalls d.size (.write 1 :: refill d.size ++ [.read]) ⟨0, 0⟩ ∧
    ∃ evs outs d', callsOf evs = .write 1 :: refill d.size ++ [.read] ∧ streamRun evs d = .ok outs d' ∧
      2 ∈ outs ∧ 2 ∉ written (callsOf evs) ∧ ¬ Fifo evs d := by
  obtain ⟨d, hd⟩ := madeDevice_exists .stream (Nat.le_succ 1)
  have hsize : d.size = 8192 := hd.new.size_eq
  have hfits := hd.new.fits
  have htop : pageAddr (2 ^ 17) = 3758096384 := rfl
  -- A byte is kept ahead while others are written and read, until one is stored behind the buffer.
  have hf : Filled (d.size + 1) d [] 0 :=
    hd.new.filled (by unfold pageSize; omega) (by omega)
  have hl : LegalCalls d.size (.write 1 :: refill d.size) ⟨0, 0⟩ :=
    ⟨by decide, by dsimp only; omega, legalCalls_refill (by omega) _ 0⟩
  have hr : Roomy (d.size + 1) (.write 1 :: refill d.size) ⟨0, 0⟩ :=
    ⟨Nat.succ_pos _, roomy_refill _ 0 (by omega)⟩
  have hcalls := callsOf_call (.write 1 :: refill d.size)
  have hothers : ∀ m, .others m ∈ (.write 1 :: refill d.size).map StreamEvent.call →
      d.size + 1 ≤ d.size := fun m hm => absurd hm (others_notMem m _)
  obtain ⟨outs, d', bytes, taken, hrun, hf', hbuffer, hsize', hqueue, hafter⟩ :=
    hf.run hothers
      (by rw [hcalls]; exact hl) (by rw [hcalls]; exact hr)
  rw [hcalls] at hafter
  have hlevel : levelAfter (.write 1 :: refill d.size) ⟨0, 0⟩ = ⟨0 + d.size + 1, 0 + d.size⟩ :=
    levelAfter_refill d.size 0
  rw [Nat.zero_add] at hlevel
  have hpair : (⟨bytes.length, taken⟩ : Level) = ⟨d.size + 1, d.size⟩ := hafter.symm.trans hlevel
  obtain ⟨hlen, htaken⟩ := Level.mk.inj hpair
  obtain ⟨d₃, hread⟩ := hf'.foreign (by rw [hsize']) (by rw [hsize', hlen]) (by rw [hsize', htaken])
  -- A foreign store to that place is what the next read returns.
  have hall : streamRun ((.write 1 :: refill d.size).map .call ++ [.others fun _ => 2, .call .read]) d =
      .ok (outs ++ [2]) d₃ := by
    rw [streamRun_append hrun, hread, Outcome.bind_ok]
  have hmem : 2 ∈ outs ++ [(2 : UInt8)] := List.mem_append_right _ (List.mem_singleton.mpr rfl)
  have hevs : callsOf ((.write 1 :: refill d.size).map .call ++ [.others fun _ => 2, .call .read]) =
      .write 1 :: refill d.size ++ [.read] := by
    rw [callsOf_append, hcalls]
    rfl
  have hnone : 2 ∉ written (.write 1 :: refill d.size ++ [.read]) := by
    rw [written_append]
    intro hmem
    rcases List.mem_append.mp hmem with hmem | hmem
    · rcases List.mem_cons.mp hmem with hmem | hmem
      · exact absurd hmem (by decide)
      · exact absurd (written_refill _ 2 hmem) (by decide)
    · exact List.not_mem_nil hmem
  refine ⟨d, hd, ?_, _, _, _, hevs, hall, hmem, hevs ▸ hnone, ?_⟩
  · rw [legalCalls_append]
    refine ⟨hl, ?_⟩
    rw [hlevel]
    exact ⟨Nat.lt_succ_self _, trivial⟩
  · rintro ⟨outs', d₄, unread, hok, hqueue, -⟩
    obtain ⟨rfl, rfl⟩ := Outcome.ok.inj (hall.symm.trans hok)
    rw [hevs] at hqueue
    exact hnone (hqueue ▸ List.mem_append_left _ hmem)

end Runs

end X86Osdev.Kernel

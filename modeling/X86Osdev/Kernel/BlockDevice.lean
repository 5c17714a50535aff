import X86Osdev.Kernel.Files

/-! Block devices: what sequences of calls by one thread read back. -/

namespace X86Osdev.Kernel
open X86Osdev.Mem ByteMemory

inductive BlockCall where
  | setPos (pos : ℕ)
  | write (b : UInt8)
  | read
deriving DecidableEq

def blockCall : BlockCall → Device → Outcome Device (List UInt8)
  | .setPos pos, d => (setPosBlock pos d).bind fun _ d => .ok [] d
  | .write b, d => (writeByteBlock b d).bind fun _ d => .ok [] d
  | .read, d => (readByteBlock d).bind fun out d => .ok [out] d

def blockRun : List BlockCall → Device → Outcome Device (List UInt8)
  | [], d => .ok [] d
  | call :: calls, d =>
    (blockCall call d).bind fun out d => (blockRun calls d).bind fun outs d => .ok (out ++ outs) d

/-- The position stays below `size` where a call uses it. -/
def Within (size : ℕ) : List BlockCall → ℕ → Prop
  | [], _ => True
  | .setPos pos :: calls, _ => pos < size ∧ Within size calls pos
  | .write _ :: calls, pos => pos < size ∧ Within size calls (pos + 1)
  | .read :: calls, pos => pos < size ∧ Within size calls pos

/-- What the calls should read: `contents p` is the byte most recently written at `p`. -/
def readBack : List BlockCall → ℕ → (ℕ → UInt8) → List UInt8
  | [], _, _ => []
  | .setPos pos :: calls, _, contents => readBack calls pos contents
  | .write b :: calls, pos, contents => readBack calls (pos + 1) (Function.update contents pos b)
  | .read :: calls, pos, contents => contents pos :: readBack calls pos contents

/-- Every call returns, and the reads give back what was written. -/
def ReadsBack (calls : List BlockCall) (d : Device) : Prop :=
  ∃ d', blockRun calls d = .ok (readBack calls d.pos fun _ => 0) d'

structure Holds (d : Device) (contents : ℕ → UInt8) : Prop where
  lock : d.locks .lock = false
  fits : d.buffer + d.size ≤ 2 ^ 32
  small : d.size < 2 ^ 32
  mem : ∀ i < d.size, d.mem (d.buffer + i) = contents i

section Calls
variable {d : Device} {contents : ℕ → UInt8} {pos totalPages order : ℕ} {b : UInt8}
  {calls : List BlockCall}

theorem Holds.setPos (hd : Holds d contents) (hpos : pos < d.size) :
    blockCall (.setPos pos) d = .ok [] { d with pos } := by
  have hlocks := relock hd.lock
  rw [blockCall, setPosBlock, getLock_ok hd.lock, Outcome.bind_ok, if_neg (Nat.not_le.mpr hpos),
    Outcome.bind_ok, Device.unlock]
  dsimp only
  rw [hlocks]

theorem Holds.write (hd : Holds d contents) (hpos : d.pos < d.size) (b : UInt8) :
    ∃ m, blockCall (.write b) d = .ok [] { d with mem := m, pos := d.pos + 1 } ∧
      Holds { d with mem := m, pos := d.pos + 1 } (Function.update contents d.pos b) := by
  have hfits := hd.fits
  have hsmall := hd.small
  have hlocks := relock hd.lock
  have hnext : u32 (d.pos + 1) = d.pos + 1 := Nat.mod_eq_of_lt (by omega)
  refine ⟨storeByte (2 ^ 32) d.mem (d.buffer + d.pos) b, ?_, hd.lock, hd.fits, hd.small, fun i hi => ?_⟩
  · rw [blockCall, writeByteBlock, getLock_ok hd.lock, Outcome.bind_ok, Outcome.bind_ok, Device.unlock]
    dsimp only
    rw [hlocks, hnext]
  · have hi : i < d.size := hi
    show storeByte (2 ^ 32) d.mem (d.buffer + d.pos) b (d.buffer + i) = _
    rw [storeByte, Nat.mod_eq_of_lt (by omega), Function.update_apply, Function.update_apply]
    by_cases hp : i = d.pos
    · rw [if_pos (by omega), if_pos hp]
    · rw [if_neg (by omega), if_neg hp]
      exact hd.mem i hi

theorem Holds.read (hd : Holds d contents) (hpos : d.pos < d.size) (hfree : d.locks .readLock = false) :
    blockCall .read d = .ok [contents d.pos] d := by
  have hfits := hd.fits
  have hget : ({ d with locks := Function.update d.locks .lock true } : Device).locks .readLock = false :=
    (readLock_of_lock true).trans hfree
  have hlocks : Function.update (Function.update (Function.update (Function.update d.locks .lock true)
      .readLock true) .readLock false) .lock false = d.locks := by
    funext l
    cases l with
    | lock => rw [Function.update_self, hd.lock]
    | readLock => rw [readLock_of_lock, Function.update_self, hfree]
  have haddr : u32 (d.buffer + d.pos) = d.buffer + d.pos := Nat.mod_eq_of_lt (by omega)
  rw [blockCall, readByteBlock, getLock_ok hd.lock, Outcome.bind_ok, getLock_ok hget, Outcome.bind_ok,
    Device.unlock, Device.unlock]
  dsimp only
  rw [hlocks, haddr, hd.mem _ hpos, Outcome.bind_ok]

/-- Whoever finds `read_lock` locked waits in the read call with the lock of the file. -/
theorem read_hangs (hlock : d.locks .lock = false) (hread : d.locks .readLock = true) :
    blockCall .read d = .hang { d with locks := Function.update d.locks .lock true } := by
  have hget : ({ d with locks := Function.update d.locks .lock true } : Device).locks .readLock = true :=
    (readLock_of_lock true).trans hread
  rw [blockCall, readByteBlock, getLock_ok hlock, Outcome.bind_ok, getLock_hang hget]
  rfl

/-- The law of the block devices, once `read_lock` is free or for callers that do not read. -/
theorem Holds.reads_back (hd : Holds d contents) (hw : Within d.size calls d.pos)
    (hfree : d.locks .readLock = false ∨ .read ∉ calls) :
    ∃ d', blockRun calls d = .ok (readBack calls d.pos contents) d' := by
  induction calls generalizing d contents with
  | nil => exact ⟨d, rfl⟩
  | cons call calls ih =>
    have hrest : d.locks .readLock = false ∨ .read ∉ calls :=
      hfree.imp_right fun hnot hmem => hnot (List.mem_cons_of_mem _ hmem)
    cases call with
    | setPos pos =>
      have hd' : Holds { d with pos } contents := ⟨hd.lock, hd.fits, hd.small, hd.mem⟩
      obtain ⟨d', hrun⟩ := ih hd' hw.2 hrest
      refine ⟨d', ?_⟩
      rw [blockRun, hd.setPos hw.1, Outcome.bind_ok, hrun]
      rfl
    | write b =>
      obtain ⟨m, hcall, hd'⟩ := hd.write hw.1 b
      obtain ⟨d', hrun⟩ := ih hd' hw.2 hrest
      refine ⟨d', ?_⟩
      rw [blockRun, hcall, Outcome.bind_ok, hrun]
      rfl
    | read =>
      have hfree' : d.locks .readLock = false :=
        hfree.resolve_right fun hnot => hnot (List.mem_cons_self ..)
      obtain ⟨d', hrun⟩ := ih hd hw.2 hrest
      refine ⟨d', ?_⟩
      rw [blockRun, hd.read hw.1 hfree', Outcome.bind_ok, hrun]
      rfl

/-- No call releases `read_lock` before a read has it. -/
theorem Holds.read_waits (hd : Holds d contents) (hw : Within d.size calls d.pos)
    (hread : d.locks .readLock = true) (hmem : .read ∈ calls) : ∃ d', blockRun calls d = .hang d' := by
  induction calls generalizing d contents with
  | nil => exact absurd hmem List.not_mem_nil
  | cons call calls ih =>
    cases call with
    | setPos pos =>
      have hd' : Holds { d with pos } contents := ⟨hd.lock, hd.fits, hd.small, hd.mem⟩
      obtain ⟨d', hrun⟩ := ih hd' hw.2 hread (List.mem_of_ne_of_mem (by simp) hmem)
      refine ⟨d', ?_⟩
      rw [blockRun, hd.setPos hw.1, Outcome.bind_ok, hrun]
      rfl
    | write b =>
      obtain ⟨m, hcall, hd'⟩ := hd.write hw.1 b
      obtain ⟨d', hrun⟩ := ih hd' hw.2 hread (List.mem_of_ne_of_mem (by simp) hmem)
      refine ⟨d', ?_⟩
      rw [blockRun, hcall, Outcome.bind_ok, hrun]
      rfl
    | read =>
      refine ⟨{ d with locks := Function.update d.locks .lock true }, ?_⟩
      rw [blockRun, read_hangs hd.lock hread]
      rfl

theorem NewDevice.holds {type : DeviceType} (hd : NewDevice type order d) : Holds d fun _ => 0 := by
  refine ⟨hd.lock, hd.fits.trans (by decide), ?_, hd.zero⟩
  have hle : 2 ^ order ≤ 2 ^ 10 := Nat.pow_le_pow_right (by decide) hd.order_le
  have hsize := hd.size_eq
  omega

/-- A new block device serves exactly the callers that do not read. -/
theorem block_reads_back (hd : MadeDevice totalPages .block order d) (hw : Within d.size calls d.pos) :
    ReadsBack calls d ↔ .read ∉ calls := by
  have hholds := hd.new.holds
  constructor
  · rintro ⟨d', hrun⟩ hmem
    obtain ⟨d'', hhang⟩ := hholds.read_waits hw hd.new.readLock hmem
    cases hrun.symm.trans hhang
  · intro hnot
    exact hholds.reads_back hw (.inr hnot)

theorem block_reads_back_write : ∃ d, MadeDevice 1048575 .block 1 d ∧
    (ReadsBack [.setPos 0, .write 65] d ↔ BlockCall.read ∉ [.setPos 0, .write 65]) := by
  obtain ⟨d, hd⟩ := madeDevice_exists .block (Nat.le_succ 1)
  have hsize : d.size = 8192 := hd.new.size_eq
  exact ⟨d, hd, block_reads_back hd ⟨by omega, by omega, trivial⟩⟩

/-- A byte is written at position 0 and read there. -/
theorem block_read_waits : ∃ d, MadeDevice 1048575 .block 1 d ∧
    Within d.size [.setPos 0, .write 65, .setPos 0, .read] d.pos ∧
      ¬ ReadsBack [.setPos 0, .write 65, .setPos 0, .read] d ∧
      ∃ d', blockRun [.setPos 0, .write 65, .setPos 0, .read] d = .hang d' := by
  obtain ⟨d, hd⟩ := madeDevice_exists .block (Nat.le_succ 1)
  have hsize : d.size = 8192 := hd.new.size_eq
  have hw : Within d.size [.setPos 0, .write 65, .setPos 0, .read] d.pos :=
    ⟨by omega, by omega, by omega, by omega, trivial⟩
  obtain ⟨d', hhang⟩ := hd.new.holds.read_waits hw hd.new.readLock (by decide)
  refine ⟨d, hd, hw, fun hback => ?_, d', hhang⟩
  obtain ⟨d'', hrun⟩ := hback
  cases hrun.symm.trans hhang

end Calls

end X86Osdev.Kernel

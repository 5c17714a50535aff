import X86Osdev.Kernel.Elf
import X86Osdev.Library.Masks
import X86Osdev.Library.Runs

/-! `receive_packet` of drivers/rtl8139.c, and a device that fills the receive ring in WRAP mode. -/

namespace X86Osdev.Drivers
open X86Osdev.Lib X86Osdev.Mem X86Osdev.Kernel ByteMemory Runs

def rxBufSize : ℕ := 8192

def rxReadPointerMask : ℕ := 0xFFFFFFFC

/-- A frame as the device stores it; the length has two bytes in the header. -/
structure Frame where
  status : ℕ
  data : List UInt8
  short : data.length < 2 ^ 16
deriving DecidableEq

namespace Frame

def header (f : Frame) : List UInt8 :=
  [.ofNat f.status, .ofNat (f.status / 256), .ofNat f.data.length, .ofNat (f.data.length / 256)]

def bytes (f : Frame) : List UInt8 := f.header ++ f.data

/-- The bytes of the ring that the frame takes, with the gap to the next one. -/
def span (f : Frame) : ℕ := (f.data.length + 4 + 3) / 4 * 4

end Frame

def storeBytes : List UInt8 → ℕ → Memory → Memory
  | [], _, m => m
  | b :: bs, a, m => storeBytes bs (a + 1) (storeByte (2 ^ 32) m a b)

/-- `undelivered` has the frames that the device has stored and the driver has not read, with their offsets. The copies
on `kwork_queue` are kept as values. -/
structure Rtl8139 where
  mem : Memory
  rxBuffer : ℕ
  writeOffset : ℕ
  undelivered : List (ℕ × Frame)
  currentPacketPtr : ℕ
  kworkQueue : List (List UInt8)

inductive RxEvent where
  | store (f : Frame)
  | receive

namespace Rtl8139

def used (s : Rtl8139) : ℕ := (s.undelivered.map fun p => p.2.span).sum

def frameEnd (w : ℕ) (f : Frame) : ℕ := (w + f.data.length + 4 + 3) / 4 * 4

/-- A frame that the ring has no room for is dropped. -/
def store (f : Frame) (s : Rtl8139) : Rtl8139 :=
  if s.used + f.span ≤ rxBufSize then
    { s with
      mem := storeBytes f.bytes (s.rxBuffer + s.writeOffset) s.mem
      writeOffset := frameEnd s.writeOffset f % rxBufSize
      undelivered := s.undelivered ++ [(s.writeOffset, f)] }
  else s

/-- `packet_length`: the second half of the header. -/
def packetLength (s : Rtl8139) : ℕ := load16 s.mem (u32 (s.rxBuffer + s.currentPacketPtr + 2))

def packet (s : Rtl8139) : List UInt8 :=
  (List.range s.packetLength).map fun i => s.mem (u32 (s.rxBuffer + s.currentPacketPtr + 4 + i))

/-- `current_packet_ptr` after a packet of this length. -/
def advance (ptr len : ℕ) : ℕ :=
  let ptr := u32 (ptr + len + 4 + 3) &&& rxReadPointerMask
  if ptr > rxBufSize then ptr - rxBufSize else ptr

/-- One turn of the loop of `receive_packet`. -/
def receive (s : Rtl8139) : Rtl8139 :=
  { s with
    undelivered := s.undelivered.tail
    currentPacketPtr := advance s.currentPacketPtr s.packetLength
    kworkQueue := s.kworkQueue ++ [s.packet] }

end Rtl8139

/-- The interrupt, and each turn of the loop after the first, finds a frame. -/
def rxStep : RxEvent → Rtl8139 → Option Rtl8139
  | .store f, s => some (s.store f)
  | .receive, s => if s.undelivered = [] then none else some s.receive

def rxRun : List RxEvent → Rtl8139 → Option Rtl8139 := runList rxStep fun _ _ => true

/-- After `rtl8139_init`: `kmalloc` has found four pages for the ring and its slack. -/
structure RxStart (s : Rtl8139) : Prop where
  block : s.rxBuffer + 2 * rxBufSize ≤ 2 ^ 32
  writeOffset : s.writeOffset = 0
  undelivered : s.undelivered = []
  ptr : s.currentPacketPtr = 0
  kworkQueue : s.kworkQueue = []

/-- The driver looks where the device has stored the next frame, and finds its length and its bytes there. -/
structure FollowsDevice (s : Rtl8139) : Prop where
  ptr_lt : s.currentPacketPtr < rxBufSize
  next : ∀ o f rest, s.undelivered = (o, f) :: rest →
    s.currentPacketPtr = o ∧ s.packetLength = f.data.length ∧ s.packet = f.data

section StoreBytes
variable {m : Memory} {bs : List UInt8} {a x : ℕ}

theorem storeBytes_other (ha : a + bs.length ≤ 2 ^ 32) (h : x < a ∨ a + bs.length ≤ x) :
    storeBytes bs a m x = m x := by
  induction bs generalizing a m with
  | nil => rfl
  | cons b bs ih =>
    rw [List.length_cons] at ha h
    rw [storeBytes, ih (by omega) (by omega), storeByte, Nat.mod_eq_of_lt (by omega),
      Function.update_of_ne (by omega)]

theorem storeBytes_self (ha : a + bs.length ≤ 2 ^ 32) {i : ℕ} (hi : i < bs.length) :
    storeBytes bs a m (a + i) = bs[i] := by
  induction bs generalizing a m i with
  | nil => exact absurd hi (Nat.not_lt_zero i)
  | cons b bs ih =>
    rw [List.length_cons] at ha hi
    cases i with
    | zero =>
      rw [storeBytes, storeBytes_other (by omega) (by omega), storeByte,
        Nat.mod_eq_of_lt (by omega), Nat.add_zero, Function.update_self, List.getElem_cons_zero]
    | succ i =>
      have h := ih (m := storeByte (2 ^ 32) m a b) (a := a + 1) (by omega) (i := i) (by omega)
      rw [storeBytes, List.getElem_cons_succ, ← h]
      exact congrArg _ (by omega)

end StoreBytes

def FrameAt (m : Memory) (a : ℕ) (f : Frame) : Prop :=
  ∀ i (h : i < f.bytes.length), m (a + i) = f.bytes[i]

namespace Rtl8139
variable {s : Rtl8139} {f : Frame} {w : ℕ}

theorem length_bytes (f : Frame) : f.bytes.length = f.data.length + 4 := by
  rw [Frame.bytes, List.length_append, Nat.add_comm]
  rfl

theorem length_le_span (f : Frame) : f.bytes.length ≤ f.span := by
  rw [length_bytes, Frame.span]
  omega

theorem frameEnd_eq (hw : 4 ∣ w) (f : Frame) : frameEnd w f = w + f.span := by
  rw [frameEnd, Frame.span]
  omega

theorem read_frame (hend : s.rxBuffer + s.currentPacketPtr + f.bytes.length ≤ 2 ^ 32)
    (h : FrameAt s.mem (s.rxBuffer + s.currentPacketPtr) f) :
    s.packetLength = f.data.length ∧ s.packet = f.data := by
  have hshort := f.short
  rw [length_bytes] at hend
  have hlow : s.mem (s.rxBuffer + s.currentPacketPtr + 2) = .ofNat f.data.length :=
    h 2 (by rw [length_bytes]; omega)
  have hhigh : s.mem (s.rxBuffer + s.currentPacketPtr + 3) = .ofNat (f.data.length / 256) :=
    h 3 (by rw [length_bytes]; omega)
  have hlength : s.packetLength = f.data.length := by
    unfold packetLength load16
    rw [u32, Nat.mod_eq_of_lt (a := s.rxBuffer + s.currentPacketPtr + 2) (by omega), load, load,
      load, Nat.mod_eq_of_lt (by omega), Nat.mod_eq_of_lt (by omega), hlow,
      show s.rxBuffer + s.currentPacketPtr + 2 + 1 = s.rxBuffer + s.currentPacketPtr + 3 from rfl,
      hhigh, UInt8.toNat_ofNat', UInt8.toNat_ofNat']
    omega
  refine ⟨hlength, List.ext_getElem ?_ fun i hi hi' => ?_⟩
  · rw [packet, List.length_map, List.length_range, hlength]
  · have hbyte := h (i + 4) (by rw [length_bytes]; omega)
    have hdata : f.data[i] = f.bytes.get ⟨i + 4, by rw [length_bytes]; omega⟩ :=
      List.getElem_append_right' f.header hi'
    simp only [packet, List.getElem_map, List.getElem_range]
    rw [u32, Nat.mod_eq_of_lt (by omega), Nat.add_assoc _ 4 i, Nat.add_comm 4 i, hbyte, hdata]
    rfl

/-- The frames lie one behind the other from `r` to `w`, counted in bytes since the start. -/
def Chained : ℕ → List (ℕ × Frame) → ℕ → Prop
  | r, [], w => w = r
  | r, (o, f) :: fs, w => o = r % rxBufSize ∧ Chained (r + f.span) fs w

theorem Chained.length {r w : ℕ} {fs : List (ℕ × Frame)} (h : Chained r fs w) :
    w = r + (fs.map fun p => p.2.span).sum := by
  induction fs generalizing r with
  | nil => exact h
  | cons p fs ih =>
    rw [ih h.2, List.map_cons, List.sum_cons]
    exact Nat.add_assoc _ _ _

theorem Chained.append {r w : ℕ} {fs : List (ℕ × Frame)} (h : Chained r fs w) (f : Frame) :
    Chained r (fs ++ [(w % rxBufSize, f)]) (w + f.span) := by
  induction fs generalizing r with
  | nil =>
    obtain rfl : w = r := h
    exact ⟨rfl, rfl⟩
  | cons p fs ih => exact ⟨h.1, ih h.2⟩

theorem Chained.mem {r w : ℕ} {fs : List (ℕ × Frame)} {p : ℕ × Frame} (h : Chained r fs w)
    (hp : p ∈ fs) : ∃ a, p.1 = a % rxBufSize ∧ r ≤ a ∧ a + p.2.span ≤ w := by
  induction fs generalizing r with
  | nil => exact absurd hp List.not_mem_nil
  | cons q fs ih =>
    obtain ⟨hq, hrest⟩ := h
    obtain rfl | hp := List.mem_cons.mp hp
    · refine ⟨r, hq, le_rfl, ?_⟩
      rw [hrest.length]
      exact Nat.le_add_right _ _
    · obtain ⟨a, ha, hra, haw⟩ := ih hrest hp
      exact ⟨a, ha, (Nat.le_add_right _ _).trans hra, haw⟩

structure RingInv (s : Rtl8139) : Prop where
  block : s.rxBuffer + 2 * rxBufSize ≤ 2 ^ 32
  positions : ∃ r w, 4 ∣ r ∧ 4 ∣ w ∧ s.currentPacketPtr = r % rxBufSize ∧
    s.writeOffset = w % rxBufSize ∧ Chained r s.undelivered w
  room : s.used ≤ rxBufSize
  stored : ∀ p ∈ s.undelivered, FrameAt s.mem (s.rxBuffer + p.1) p.2

theorem span_dvd (f : Frame) : 4 ∣ f.span := ⟨(f.data.length + 4 + 3) / 4, Nat.mul_comm _ _⟩

theorem RingInv.start (h : RxStart s) : RingInv s where
  block := h.block
  positions := ⟨0, 0, dvd_zero 4, dvd_zero 4, h.ptr, h.writeOffset, by rw [h.undelivered]; rfl⟩
  room := by
    rw [used, h.undelivered]
    exact Nat.zero_le _
  stored p hp := by
    rw [h.undelivered] at hp
    exact absurd hp List.not_mem_nil

theorem RingInv.head {o : ℕ} {rest : List (ℕ × Frame)} (h : RingInv s)
    (hs : s.undelivered = (o, f) :: rest) :
    s.currentPacketPtr = o ∧ o < rxBufSize ∧ 4 ∣ o ∧ f.span ≤ rxBufSize := by
  obtain ⟨r, w, hr, -, hptr, -, hc⟩ := h.positions
  have hroom := h.room
  rw [used, hs, List.map_cons, List.sum_cons] at hroom
  rw [hs] at hc
  have ho : o = r % rxBufSize := hc.1
  refine ⟨hptr.trans ho.symm, ?_, ?_, (Nat.le_add_right _ _).trans hroom⟩
  · rw [ho]
    exact Nat.mod_lt _ (by decide)
  · rw [ho]
    exact (Nat.dvd_mod_iff ⟨2048, rfl⟩).mpr hr

theorem RingInv.follows (h : RingInv s) : FollowsDevice s where
  ptr_lt := by
    obtain ⟨r, w, -, -, hptr, -, -⟩ := h.positions
    rw [hptr]
    exact Nat.mod_lt _ (by decide)
  next o f rest hs := by
    obtain ⟨hptr, ho, -, hspan⟩ := h.head hs
    have hblock := h.block
    have hlength := length_le_span f
    have hframe := h.stored (o, f) (by rw [hs]; exact List.mem_cons_self)
    rw [← hptr] at hframe
    refine ⟨hptr, read_frame ?_ hframe⟩
    rw [hptr]
    omega

/-- A frame behind the others does not reach those that are not read yet, on this round of the ring or the
one before. -/
theorem RingInv.store (h : RingInv s) (f : Frame) : RingInv (s.store f) := by
  unfold Rtl8139.store
  split
  · next hfits =>
    obtain ⟨r, w, hr, hw, hptr, hwrite, hc⟩ := h.positions
    have hblock := h.block
    have hlength := length_le_span f
    have hwr := hc.length
    change s.writeOffset = w % 8192 at hwrite
    change s.used + f.span ≤ 8192 at hfits
    change w = r + s.used at hwr
    change s.rxBuffer + 2 * 8192 ≤ 2 ^ 32 at hblock
    have hbytes : s.rxBuffer + s.writeOffset + f.bytes.length ≤ 2 ^ 32 := by omega
    refine ⟨h.block, ⟨r, w + f.span, hr, (Nat.dvd_add_right hw).mpr (span_dvd f), hptr, ?_, ?_⟩, ?_, ?_⟩
    · have hdvd : 4 ∣ s.writeOffset := by omega
      change frameEnd s.writeOffset f % 8192 = (w + f.span) % 8192
      rw [frameEnd_eq hdvd, hwrite]
      omega
    · change Chained r (s.undelivered ++ [(s.writeOffset, f)]) (w + f.span)
      rw [hwrite]
      exact hc.append f
    · change ((s.undelivered ++ [(s.writeOffset, f)]).map fun p => p.2.span).sum ≤ rxBufSize
      rw [List.map_append, List.sum_append]
      exact hfits
    · intro p hp i hi
      obtain hp | hp := List.mem_append.mp hp
      · obtain ⟨a, ha, hra, haw⟩ := hc.mem hp
        have hp' := length_le_span p.2
        change p.1 = a % 8192 at ha
        rw [← h.stored p hp i hi]
        change storeBytes f.bytes _ s.mem (s.rxBuffer + p.1 + i) = s.mem (s.rxBuffer + p.1 + i)
        exact storeBytes_other hbytes (by omega)
      · obtain rfl := List.mem_singleton.mp hp
        exact storeBytes_self hbytes hi
  · exact h

/-- `current_packet_ptr` moves on as the device does, up to the end of the ring. -/
theorem advance_eq {o : ℕ} (ho : o < rxBufSize) (f : Frame) :
    advance o f.data.length =
      if frameEnd o f > rxBufSize then frameEnd o f - rxBufSize else frameEnd o f := by
  have hshort := f.short
  change o < 8192 at ho
  have hsum : o + f.data.length + 4 + 3 < 2 ^ 32 := by omega
  have hmask : u32 (o + f.data.length + 4 + 3) &&& rxReadPointerMask = frameEnd o f := by
    rw [u32, Nat.mod_eq_of_lt hsum]
    exact Masks.and_mask (w := 32) (k := 2) hsum (by decide)
  rw [advance, hmask]

theorem RingInv.receive {o : ℕ} {rest : List (ℕ × Frame)} (h : RingInv s)
    (hs : s.undelivered = (o, f) :: rest) (hend : frameEnd o f ≠ rxBufSize) :
    RingInv s.receive := by
  obtain ⟨r, w, hr, hw, hptr, hwrite, hc⟩ := h.positions
  obtain ⟨hpo, ho, hd, hspan⟩ := h.head hs
  obtain ⟨-, hlength, -⟩ := h.follows.next o f rest hs
  have hroom := h.room
  have htail : s.receive.undelivered = rest := by
    change s.undelivered.tail = rest
    rw [hs]
    rfl
  rw [hs] at hc
  refine ⟨h.block, ⟨r + f.span, w, (Nat.dvd_add_right hr).mpr (span_dvd f), hw, ?_, hwrite, ?_⟩, ?_, ?_⟩
  · change advance s.currentPacketPtr s.packetLength = (r + f.span) % 8192
    rw [frameEnd_eq hd] at hend
    rw [hlength, hpo, advance_eq ho, frameEnd_eq hd]
    have hor : o = r % 8192 := hc.1
    change o + f.span ≠ 8192 at hend
    change f.span ≤ 8192 at hspan
    change (if o + f.span > 8192 then o + f.span - 8192 else o + f.span) = (r + f.span) % 8192
    split <;> omega
  · rw [htail]
    exact hc.2
  · rw [used, hs, List.map_cons, List.sum_cons] at hroom
    rw [used, htail]
    exact (Nat.le_add_left _ _).trans hroom
  · rw [htail]
    intro p hp
    exact h.stored p (by rw [hs]; exact List.mem_cons_of_mem _ hp)

theorem receive_end {o : ℕ} {rest : List (ℕ × Frame)} (h : FollowsDevice s)
    (hs : s.undelivered = (o, f) :: rest) (hend : frameEnd o f = rxBufSize) :
    s.receive.currentPacketPtr = rxBufSize := by
  obtain ⟨hpo, hlength, -⟩ := h.next o f rest hs
  have hlt := h.ptr_lt
  rw [hpo] at hlt
  change advance s.currentPacketPtr s.packetLength = rxBufSize
  rw [hpo, hlength, advance_eq hlt, hend]
  rfl

end Rtl8139

section Ring
open Rtl8139
variable {s₀ : Rtl8139} {evs done : List RxEvent}

theorem rxRun_snoc (ev : RxEvent) :
    rxRun (done ++ [ev]) s₀ = (rxRun done s₀).bind (rxStep ev) := by
  rw [rxRun, runList_append]
  refine congrArg _ (funext fun s => ?_)
  change (rxStep ev s).bind some = rxStep ev s
  exact Option.bind_fun_some _

theorem RingInv.run (h : RxStart s₀)
    (hends : ∀ done s o f rest, done ++ [.receive] <+: evs → rxRun done s₀ = some s →
      s.undelivered = (o, f) :: rest → frameEnd o f ≠ rxBufSize) :
    ∀ s, done <+: evs → rxRun done s₀ = some s → RingInv s := by
  induction done using List.reverseRecOn with
  | nil =>
    intro s _ hs
    cases hs
    exact RingInv.start h
  | append_singleton done ev ih =>
    intro s' hpre hrun
    rw [rxRun_snoc] at hrun
    obtain ⟨s, hs, hstep⟩ := Option.bind_eq_some_iff.mp hrun
    have hi := ih s ((List.prefix_append done [ev]).trans hpre) hs
    cases ev with
    | store f =>
      cases hstep
      exact hi.store f
    | receive =>
      rw [rxStep] at hstep
      split at hstep
      · cases hstep
      · next hne =>
        cases hstep
        obtain ⟨⟨o, f⟩, rest, hu⟩ := List.exists_cons_of_ne_nil hne
        exact hi.receive hu (hends done s o f rest hpre hs hu)

theorem frames_end (hall : ∀ done s, done <+: evs → rxRun done s₀ = some s → FollowsDevice s)
    {s : Rtl8139} {o : ℕ} {f : Frame} {rest : List (ℕ × Frame)} (hpre : done ++ [.receive] <+: evs)
    (hs : rxRun done s₀ = some s) (hu : s.undelivered = (o, f) :: rest) :
    frameEnd o f ≠ rxBufSize := by
  intro hend
  have hs' : rxRun (done ++ [.receive]) s₀ = some s.receive := by
    rw [rxRun_snoc, hs]
    change (if s.undelivered = [] then none else some s.receive) = some s.receive
    rw [hu, if_neg (List.cons_ne_nil _ _)]
  have hlt := (hall _ _ hpre hs').ptr_lt
  have hf := hall done s ((List.prefix_append done _).trans hpre) hs
  rw [receive_end hf hu hend] at hlt
  exact Nat.lt_irrefl _ hlt

/-- The driver follows the device through a run exactly if no frame that it reads ends where the ring ends. -/
theorem ring_follows (h : RxStart s₀) (evs : List RxEvent) :
    (∀ done s, done <+: evs → rxRun done s₀ = some s → FollowsDevice s) ↔
      ∀ done s o f rest, done ++ [.receive] <+: evs → rxRun done s₀ = some s →
        s.undelivered = (o, f) :: rest → frameEnd o f ≠ rxBufSize := by
  constructor
  · intro hall done s o f rest hpre hs hu
    exact frames_end hall hpre hs hu
  · intro hends done s hpre hs
    exact (RingInv.run h hends s hpre hs).follows

def rxEmpty : Rtl8139 where
  mem _ := 0
  rxBuffer := 0xC1000000
  writeOffset := 0
  undelivered := []
  currentPacketPtr := 0
  kworkQueue := []

theorem rxEmpty_start : RxStart rxEmpty := ⟨by decide, rfl, rfl, rfl, rfl⟩

def eighth : Frame := ⟨1, List.replicate 1020 0, by rw [List.length_replicate]; decide⟩

/-- Eight such frames, of which seven have been read. -/
def sevenRead : List RxEvent := List.replicate 8 (.store eighth) ++ List.replicate 7 .receive

theorem ring_follows_eighths : RxStart rxEmpty ∧
    ((∀ done s, done <+: sevenRead → rxRun done rxEmpty = some s → FollowsDevice s) ↔
      ∀ done s o f rest, done ++ [.receive] <+: sevenRead → rxRun done rxEmpty = some s →
        s.undelivered = (o, f) :: rest → frameEnd o f ≠ rxBufSize) :=
  ⟨rxEmpty_start, ring_follows rxEmpty_start sevenRead⟩

theorem sevenRead_run : ∃ s, rxRun sevenRead rxEmpty = some s ∧ s.undelivered = [(7168, eighth)] :=
  ⟨_, runList_getD (d := rxEmpty) (by decide +kernel), by decide +kernel⟩

/-- The eighth frame ends with the ring, and the pointer stays at 8192. -/
theorem full_ring : ¬ ∀ s₀, RxStart s₀ → ∀ evs done s, done <+: evs → rxRun done s₀ = some s →
    FollowsDevice s := by
  intro hall
  obtain ⟨s, hs, hu⟩ := sevenRead_run
  refine frames_end (hall rxEmpty rxEmpty_start (sevenRead ++ [.receive])) (List.prefix_refl _) hs hu ?_
  rw [frameEnd, eighth, List.length_replicate]
  decide

end Ring

end X86Osdev.Drivers

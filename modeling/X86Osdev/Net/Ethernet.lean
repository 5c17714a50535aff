import X86Osdev.Library.SlotQueue
import X86Osdev.Mem.Buffers
import X86Osdev.Net.Ipv4

/-! Frames from `send_ethernet_packet` over the transmit descriptors of the card to the wire. -/

namespace X86Osdev.Net
open X86Osdev.Lib X86Osdev.Mem ByteMemory Contracts SlotQueue

structure Mac where
  bytes : List UInt8
  length_eq : bytes.length = 6
deriving DecidableEq

/-- The card has yet to fetch the descriptors that have a size, from `finger` on. -/
structure TxCard where
  address : ℕ → ℕ
  size : ℕ → Option ℕ
  finger : ℕ
  wire : List (List UInt8)

structure Tx where
  sys : Sys
  card : TxCard
  macAddr : Mac
  txCur : ℕ

def tsadArray : List ℕ := [0x20, 0x24, 0x28, 0x2C]

def tsdArray : List ℕ := [0x10, 0x14, 0x18, 0x1C]

/-- A size without the own bit, 13, gives the descriptor to the card. -/
def TxCard.outdw (reg v : ℕ) (card : TxCard) : TxCard :=
  if reg < 0x20 then
    { card with
      size := Function.update card.size ((reg - 0x10) / 4) (if v.testBit 13 then none else some (v % 2 ^ 13)) }
  else { card with address := Function.update card.address ((reg - 0x20) / 4) v }

namespace Tx

def setSys (t : Tx) (σ : Sys) : Tx := { t with sys := σ }

def kmalloc (n : ℕ) (t : Tx) : Outcome Tx ℕ := (t.sys.kmalloc n).lift t.setSys

def kfree (p : ℕ) (t : Tx) : Outcome Tx Unit := (t.sys.kfree p).lift t.setSys

def store (f : Memory → Memory) (t : Tx) : Tx := t.setSys (t.sys.store f)

def outdw (reg v : ℕ) (t : Tx) : Tx := { t with card := t.card.outdw reg v }

def fetch (t : Tx) : Option Tx :=
  (t.card.size t.card.finger).map fun n =>
    { t with
      card := { t.card with
        size := Function.update t.card.size t.card.finger none
        finger := (t.card.finger + 1) % 4
        wire := t.card.wire ++ [bytesAt t.sys.heap.mem (va (t.card.address t.card.finger)) n] } }

end Tx

def rtl8139SendPacket (data len : ℕ) (t : Tx) : Outcome Tx Unit :=
  (t.kmalloc len).bind fun transferData t =>
    let physAddr := pa transferData
    let t := t.store (memcopy data transferData len)
    let t := t.outdw (tsadArray.getD t.txCur 0) physAddr
    let t := t.outdw (tsdArray.getD t.txCur 0) len
    let t := { t with txCur := t.txCur + 1 }
    .ok () (if t.txCur > 3 then { t with txCur := 0 } else t)

/-- The stores of `send_ethernet_packet` into the payload. -/
def fillFrame (payload ethFrameSize : ℕ) (dst src : Mac) (ethType dataIn dataLen : ℕ) (m : Memory) : Memory :=
  let m := memset payload 0 ethFrameSize m
  let m := storeList (2 ^ 32) m payload dst.bytes
  let m := storeList (2 ^ 32) m (payload + 6) src.bytes
  let m := storeU16 m (payload + 12) (switchEndian16 ethType)
  memcopy dataIn (payload + 14) dataLen m

def sendEthernetPacket (dst : Mac) (ethType dataIn dataLen : ℕ) (t : Tx) : Outcome Tx Unit :=
  let ethFrameSize := u32 (6 + 6 + 2 + dataLen)
  let ethFrameSize := if ethFrameSize < 60 then 60 else ethFrameSize
  (t.kmalloc ethFrameSize).bind fun payload t =>
    let t := t.store (fillFrame payload ethFrameSize dst t.macAddr ethType dataIn dataLen)
    (rtl8139SendPacket payload ethFrameSize t).bind fun _ t => t.kfree payload

/-- A frame of at least 60 bytes, filled up with zeros. -/
def ethernetFrame (dst src : Mac) (ethType : ℕ) (data : List UInt8) : List UInt8 :=
  dst.bytes ++ src.bytes ++ [UInt8.ofNat (ethType / 256), UInt8.ofNat ethType] ++ data ++
    List.replicate (46 - data.length) 0

section Frames
variable {dst src : Mac} {ethType payload size dataIn dataLen : ℕ} {data : List UInt8} {m : Memory}

theorem length_ethernetFrame : (ethernetFrame dst src ethType data).length = max 60 (data.length + 14) := by
  simp only [ethernetFrame, List.length_append, dst.length_eq, src.length_eq, List.length_cons, List.length_nil,
    List.length_replicate]
  omega

theorem switchEndian16_eq {nb : ℕ} (h : nb < 2 ^ 16) : switchEndian16 nb = nb % 256 * 256 + nb / 256 := by
  have hlow : nb / 256 < 2 ^ 8 := by omega
  rw [switchEndian16, Nat.shiftRight_eq_div_pow, Nat.shiftLeft_eq, Nat.or_comm, Nat.mul_comm,
    ← Nat.two_pow_add_eq_or_of_lt hlow]
  omega

theorem littleEndian_switchEndian16 {nb : ℕ} (h : nb < 2 ^ 16) :
    littleEndian 2 (switchEndian16 nb) = [UInt8.ofNat (nb / 256), UInt8.ofNat nb] := by
  have hhigh : (nb % 256 * 256 + nb / 256) / 256 = nb % 256 := by omega
  have hlow : (nb % 256 * 256 + nb / 256) % 256 = nb / 256 := by omega
  rw [switchEndian16_eq h]
  simp only [littleEndian, List.cons.injEq, and_true, ← UInt8.toNat_inj, UInt8.toNat_ofNat', hhigh, hlow]
  omega

/-- What `send_ethernet_packet` stores is the frame, when the data does not lie in the payload. -/
theorem fillFrame_spec (m : Memory) (dst src : Mac) (htype : ethType < 2 ^ 16) (hsize : size = max 60 (dataLen + 14))
    (hfits : payload + size ≤ 2 ^ 32) (hdata : dataIn + dataLen ≤ 2 ^ 32)
    (hdis : dataIn + dataLen ≤ payload ∨ payload + size ≤ dataIn) :
    Within (Set.Ico payload (payload + size)) m (fillFrame payload size dst src ethType dataIn dataLen m) ∧
      bytesAt (fillFrame payload size dst src ethType dataIn dataLen m) payload size =
        ethernetFrame dst src ethType (bytesAt m dataIn dataLen) := by
  have hdst := dst.length_eq
  have hsrc := src.length_eq
  unfold fillFrame storeU16
  constructor
  · refine Within.trans ?_ ((within_memcopy (by omega) hdata (by omega)).mono (Set.Ico_subset_Ico ?_ ?_))
    · refine Within.trans ?_ (within_store_of_le (by omega) (by omega) (by omega))
      refine Within.trans ?_ (within_storeList_of_le (by omega) (by omega) (by omega))
      refine Within.trans ?_ (within_storeList_of_le (by omega) (by omega) (by omega))
      exact within_memset 0 hfits
    · omega
    · omega
  · have hsplit : size = 6 + (6 + (2 + (dataLen + (46 - dataLen)))) := by omega
    rw [hsplit]
    simp only [bytesAt_add, Nat.add_assoc, Nat.reduceAdd]
    simp (disch := omega) only [bytesAt_memcopy_of_disjoint, bytesAt_store_of_disjoint, bytesAt_store,
      bytesAt_storeList_of_disjoint, bytesAt_storeList, bytesAt_memcopy, bytesAt_memset, bytesAt_memset_of_disjoint]
    rw [littleEndian_switchEndian16 htype]
    simp only [ethernetFrame, length_bytesAt, List.append_assoc]
    rfl

end Frames

def TxCard.slot (card : TxCard) (i : ℕ) : Option (ℕ × ℕ) := (card.size i).map fun n => (card.address i, n)

/-- The driver has given the card the `n` bytes at `p`. -/
structure Handed (t : Tx) (p n : ℕ) (t' : Tx) : Prop where
  slot : t'.card.slot = Function.update t.card.slot t.txCur (some (pa p, n))
  finger : t'.card.finger = t.card.finger
  wire : t'.card.wire = t.card.wire
  macAddr : t'.macAddr = t.macAddr
  txCur : t'.txCur = (t.txCur + 1) % 4

section Sending
variable {L : Layout} {c : Cache} {limit n p cur dataIn dataLen ethType data : ℕ} {σ₀ : Sys} {t : Tx}
  {bs : List UInt8} {dst : Mac} {r : Region}

theorem TxCard.outdw_tsad (card : TxCard) (hcur : cur < 4) (a : ℕ) :
    card.outdw (tsadArray.getD cur 0) a = { card with address := Function.update card.address cur a } := by
  have htsad : ∀ cur < 4, tsadArray.getD cur 0 = 0x20 + 4 * cur := by decide
  have hcell : (0x20 + 4 * cur - 0x20) / 4 = cur := by omega
  rw [htsad cur hcur, TxCard.outdw, if_neg (by omega), hcell]

theorem TxCard.outdw_tsd (card : TxCard) (hcur : cur < 4) (hn : n < 2 ^ 13) :
    card.outdw (tsdArray.getD cur 0) n = { card with size := Function.update card.size cur (some n) } := by
  have htsd : ∀ cur < 4, tsdArray.getD cur 0 = 0x10 + 4 * cur := by decide
  have hcell : (0x10 + 4 * cur - 0x10) / 4 = cur := by omega
  have hown : n.testBit 13 = false := Nat.testBit_lt_two_pow hn
  rw [htsd cur hcur, TxCard.outdw, if_pos (by omega), hcell, hown, Nat.mod_eq_of_lt hn]
  rfl

theorem TxCard.slot_update (card : TxCard) (cur a n : ℕ) :
    TxCard.slot { card with
        address := Function.update card.address cur a, size := Function.update card.size cur (some n) } =
      Function.update card.slot cur (some (a, n)) := by
  funext i
  by_cases hi : i = cur
  · simp [TxCard.slot, hi]
  · simp [TxCard.slot, hi]

theorem handed_descriptor (hcur : t.txCur < 4) (hn : n < 2 ^ 13) (σ : Sys) :
    let t' : Tx := ((t.setSys σ).outdw (tsadArray.getD t.txCur 0) (pa p)).outdw (tsdArray.getD t.txCur 0) n
    let t' : Tx := { t' with txCur := t'.txCur + 1 }
    Handed t p n (if t'.txCur > 3 then { t' with txCur := 0 } else t') := by
  have hcard : ((t.card.outdw (tsadArray.getD t.txCur 0) (pa p)).outdw (tsdArray.getD t.txCur 0) n) =
      { t.card with
        address := Function.update t.card.address t.txCur (pa p)
        size := Function.update t.card.size t.txCur (some n) } := by
    rw [TxCard.outdw_tsad t.card hcur, TxCard.outdw_tsd _ hcur hn]
  dsimp only [Tx.outdw, Tx.setSys]
  rw [hcard]
  split
  · exact ⟨TxCard.slot_update .., rfl, rfl, rfl, by dsimp only at *; omega⟩
  · exact ⟨TxCard.slot_update .., rfl, rfl, rfl, by dsimp only at *; omega⟩

theorem Tx.kmalloc_spec {bufs : List Buffer} (h : Owns L limit σ₀ bufs t.sys) (hn : n ≤ maxSlabSize) :
    Meets (Full L (limit + 1)) (t.kmalloc n) fun p t' => ∃ σ bs, t' = t.setSys σ ∧ bs.length = n ∧
      Owns L (limit + 1) σ₀ (⟨p, bs⟩ :: bufs) σ :=
  (h.kmalloc hn).lift fun _ σ ⟨bs, hlen, hown⟩ => ⟨σ, bs, rfl, hlen, hown⟩

theorem rtl8139SendPacket_spec (h : Owns L limit σ₀ [⟨data, bs⟩] t.sys) (hlen : bs.length ≤ maxSlabSize)
    (hcur : t.txCur < 4) :
    Meets (Full L (limit + 1)) (rtl8139SendPacket data bs.length t) fun _ t' =>
      ∃ p, Owns L (limit + 1) σ₀ [⟨p, bs⟩, ⟨data, bs⟩] t'.sys ∧ Handed t p bs.length t' := by
  refine (Tx.kmalloc_spec h hlen).bind ?_
  rintro p _ ⟨σ, bs₁, rfl, hlen₁, hown⟩
  have hdata : (⟨data, bs⟩ : Buffer) ∈ [⟨p, bs₁⟩, ⟨data, bs⟩] := List.mem_cons_of_mem _ (List.mem_singleton_self _)
  have hfits := hown.fits (List.mem_cons_self ..)
  have hfits' := hown.fits hdata
  have hapart := hown.apart_head (List.mem_append_left _ (List.mem_singleton_self (Buffer.region ⟨data, bs⟩)))
  dsimp only [Buffer.region] at hfits hfits' hapart
  have hwithin : Within (Set.Ico p (p + bs.length)) σ.heap.mem (memcopy data p bs.length σ.heap.mem) :=
    within_memcopy (by omega) hfits' (by omega)
  have hbytes : bytesAt (memcopy data p bs.length σ.heap.mem) p bs.length = bs := by
    rw [bytesAt_memcopy (by omega) hfits' (by omega)]
    exact hown.holds _ hdata
  have hcopy := hown.fill (f := memcopy data p bs.length) hlen₁ ⟨hwithin, hbytes⟩
  have hhanded := handed_descriptor (p := p) hcur (show bs.length < 2 ^ 13 from hlen.trans_lt (by decide))
    (σ.store (memcopy data p bs.length))
  refine Meets.ok ⟨p, ?_, hhanded⟩
  split
  · exact hcopy
  · exact hcopy

/-- The card gets one frame more, and the heap keeps the buffer with it. -/
theorem sendEthernetPacket_spec (dst : Mac) (hi : SysInv L c t.sys) (hr : r ∈ t.sys.live)
    (hlow : r.ptr ≤ dataIn) (hhigh : dataIn + dataLen ≤ r.ptr + r.bytes) (hpos : 0 < dataLen) (htype : ethType < 2 ^ 16)
    (hlen : dataLen + 14 ≤ maxSlabSize) (hcur : t.txCur < 4) :
    Meets (Full L (SysInv.used L c t.sys + 2)) (sendEthernetPacket dst ethType dataIn dataLen t) fun _ t' => ∃ p,
      Owns L (SysInv.used L c t.sys + 2) t.sys
          [⟨p, ethernetFrame dst t.macAddr ethType (bytesAt t.sys.heap.mem dataIn dataLen)⟩] t'.sys ∧
        Handed t p (max 60 (dataLen + 14)) t' := by
  have hslab : max 60 (dataLen + 14) ≤ maxSlabSize := max_le (by decide) hlen
  have hsize : (if u32 (6 + 6 + 2 + dataLen) < 60 then 60 else u32 (6 + 6 + 2 + dataLen)) = max 60 (dataLen + 14) := by
    rw [u32_of_lt (show 6 + 6 + 2 + dataLen < 2 ^ 32 by unfold maxSlabSize at hlen; omega)]
    split
    · omega
    · omega
  unfold sendEthernetPacket
  simp only [hsize]
  have hkmalloc := Tx.kmalloc_spec (owns_start hi) hslab
  refine (hkmalloc.stop fun _ hfull => hfull.mono (Nat.le_succ _)).bind ?_
  rintro payload _ ⟨σ, bs, rfl, hbs, hown⟩
  have hfits := hown.fits (List.mem_cons_self ..)
  have hapart := hown.apart_head hr
  obtain ⟨c', hi', -⟩ := hown.inv
  have hend := hi'.range_le (hown.mem_old hr)
  dsimp only at hfits hapart
  have hdata : bytesAt σ.heap.mem dataIn dataLen = bytesAt t.sys.heap.mem dataIn dataLen :=
    bytesAt_congr fun i hi => hown.kept r hr _ ⟨by omega, by omega⟩
  rw [hbs] at hfits hapart
  have hdis : dataIn + dataLen ≤ payload ∨ payload + max 60 (dataLen + 14) ≤ dataIn := by omega
  have hfill := fillFrame_spec σ.heap.mem dst t.macAddr htype rfl hfits
    (show dataIn + dataLen ≤ 2 ^ 32 by omega) hdis
  rw [hdata] at hfill
  have hfilled := hown.fill (f := fillFrame payload (max 60
      (dataLen + 14)) dst t.macAddr ethType dataIn dataLen) hbs hfill
  have hframe : (ethernetFrame dst t.macAddr ethType (bytesAt t.sys.heap.mem dataIn dataLen)).length =
      max 60 (dataLen + 14) := by
    rw [length_ethernetFrame, length_bytesAt]
  have hsend := rtl8139SendPacket_spec (t := (t.setSys σ).store
    (fillFrame payload (max 60 (dataLen + 14)) dst t.macAddr ethType dataIn dataLen)) hfilled
    (hframe.trans_le hslab) hcur
  rw [hframe] at hsend
  refine hsend.bind ?_
  rintro _ t₂ ⟨p, hown₂, hhanded⟩
  have hswap := hown₂.perm (List.Perm.swap _ _ [])
  refine hswap.kfree.lift fun _ σ₃ hown₃ => ⟨p, hown₃, ?_⟩
  exact ⟨hhanded.slot, hhanded.finger, hhanded.wire, hhanded.macAddr, hhanded.txCur⟩

end Sending

/-- `sent` has the frames that were passed to `send_ethernet_packet`, with their headers. -/
structure TxState where
  tx : Tx
  sent : List (List UInt8)

/-- The other users of the heap leave alone what the card has yet to fetch, and a descriptor is free when the driver
comes to it. -/
inductive TxStep : TxState → TxState → Prop
  | heap {s : TxState} {σ : Sys} : HeapStep s.tx.sys σ →
      (∀ i a n, s.tx.card.slot i = some (a, n) → (⟨va a, n, .object⟩ : Region) ∈ σ.live ∧
        ∀ x ∈ Set.Ico (va a) (va a + n), ¬ StoresTo x s.tx.sys σ) →
      TxStep s { s with tx := s.tx.setSys σ }
  | send {s : TxState} {dst : Mac} {ethType dataIn dataLen : ℕ} {r : Region} {tx : Tx} :
      r ∈ s.tx.sys.live → r.ptr ≤ dataIn → dataIn + dataLen ≤ r.ptr + r.bytes → 0 < dataLen →
      ethType < 2 ^ 16 → dataLen + 14 ≤ maxSlabSize → s.tx.card.size s.tx.txCur = none →
      sendEthernetPacket dst ethType dataIn dataLen s.tx = .ok () tx →
      TxStep s ⟨tx, s.sent ++ [ethernetFrame dst s.tx.macAddr ethType (bytesAt s.tx.sys.heap.mem dataIn dataLen)]⟩
  | fetch {s : TxState} {tx : Tx} : s.tx.fetch = some tx → TxStep s { s with tx := tx }

structure TxStart (totalPages : ℕ) (s : TxState) : Prop where
  reach : HeapReach totalPages s.tx.sys
  size : ∀ i, s.tx.card.size i = none
  finger : s.tx.card.finger = 0
  txCur : s.tx.txCur = 0
  wire : s.tx.card.wire = []
  sent : s.sent = []

/-- The card has yet to fetch the buffers of `q`, which hold the frames that were sent last. -/
structure Outstanding (s : TxState) (q : List Buffer) : Prop where
  queued : Queued 4 s.tx.card.slot s.tx.card.finger (q.map fun b => (pa b.ptr, b.bytes.length))
  txCur : s.tx.txCur = (s.tx.card.finger + q.length) % 4
  live : ∀ b ∈ q, b.region ∈ s.tx.sys.live
  holds : ∀ b ∈ q, bytesAt s.tx.sys.heap.mem b.ptr b.bytes.length = b.bytes
  nonempty : ∀ b ∈ q, 0 < b.bytes.length
  sent : s.sent = s.tx.card.wire ++ q.map Buffer.bytes

section Runs
variable {totalPages p : ℕ} {s s' : TxState} {q : List Buffer} {σ σ' : Sys} {r : Region}

theorem va_pa (h : p < 2 ^ 32) : va (pa p) = p := by
  unfold va pa u32 kernelVirtualAddressBase
  omega

theorem TxStart.outstanding (h : TxStart totalPages s) : Outstanding s [] where
  queued := queued_nil (by rw [h.finger]; decide) fun i _ => by rw [TxCard.slot, h.size]; rfl
  txCur := by rw [h.txCur, h.finger]; rfl
  live _ hb := absurd hb List.not_mem_nil
  holds _ hb := absurd hb List.not_mem_nil
  nonempty _ hb := absurd hb List.not_mem_nil
  sent := by rw [h.sent, h.wire]; rfl

/-- A free descriptor at `tx_cur` leaves room for one frame more. -/
theorem Outstanding.room (h : Outstanding s q) (hfree : s.tx.card.size s.tx.txCur = none) : q.length < 4 := by
  have hlen : q.length ≤ 4 := by simpa using h.queued.length_le
  refine Nat.lt_of_le_of_ne hlen fun hfull => ?_
  have hslot := h.queued.slots 0 (by decide)
  have hcur : s.tx.txCur = s.tx.card.finger := by
    rw [h.txCur, hfull, Nat.add_mod_right, Nat.mod_eq_of_lt h.queued.finger_lt]
  rw [Nat.add_zero, Nat.mod_eq_of_lt h.queued.finger_lt, ← hcur, TxCard.slot, hfree] at hslot
  cases q with
  | nil => cases hfull
  | cons b q => cases hslot

theorem Outstanding.va_pa (h : Outstanding s q) (h₀ : HeapReach totalPages s.tx.sys) {b : Buffer} (hb : b ∈ q) :
    va (pa b.ptr) = b.ptr := by
  obtain ⟨L, c, hi, -⟩ := h₀.sysInv
  have hend := hi.range_le (h.live b hb)
  have hpos := h.nonempty b hb
  dsimp only [Buffer.region] at hend
  exact Net.va_pa (by omega)

theorem Outstanding.mem_slot (h : Outstanding s q) {b : Buffer} (hb : b ∈ q) :
    ∃ i, s.tx.card.slot i = some (pa b.ptr, b.bytes.length) := by
  obtain ⟨i, hi, rfl⟩ := List.mem_iff_getElem.mp hb
  have hlen : q.length ≤ 4 := by simpa using h.queued.length_le
  refine ⟨_, (h.queued.slots i (hi.trans_le hlen)).trans ?_⟩
  rw [List.getElem?_map, List.getElem?_eq_getElem hi]
  rfl

theorem Outstanding.heap (h : Outstanding s q) (h₀ : HeapReach totalPages s.tx.sys) (hs : HeapStep s.tx.sys σ)
    (hspare : ∀ i a n, s.tx.card.slot i = some (a, n) → (⟨va a, n, .object⟩ : Region) ∈ σ.live ∧
      ∀ x ∈ Set.Ico (va a) (va a + n), ¬ StoresTo x s.tx.sys σ) : Outstanding { s with tx := s.tx.setSys σ } q := by
  obtain ⟨L, c, hi, -⟩ := h₀.sysInv
  have hspared : ∀ b ∈ q, b.region ∈ σ.live ∧ ∀ x ∈ b.region.range, ¬ StoresTo x s.tx.sys σ := by
    intro b hb
    obtain ⟨i, hslot⟩ := h.mem_slot hb
    have hboth := hspare i _ _ hslot
    rwa [h.va_pa h₀ hb] at hboth
  refine ⟨h.queued, h.txCur, fun b hb => (hspared b hb).1, fun b hb => ?_, h.nonempty, h.sent⟩
  refine (bytesAt_congr fun k hk => ?_).trans (h.holds b hb)
  have hmem : b.ptr + k ∈ b.region.range := ⟨Nat.le_add_right _ _, Nat.add_lt_add_left hk _⟩
  exact hi.contents_step hs (h.live b hb) hmem ((hspared b hb).2 _ hmem)

theorem Outstanding.handed {L : Layout} {limit : ℕ} {tx : Tx} {b : Buffer} (h : Outstanding s q) (hroom : q.length < 4)
    (hown : Owns L limit s.tx.sys [b] tx.sys) (hhanded : Handed s.tx b.ptr b.bytes.length tx)
    (hpos : 0 < b.bytes.length) :
    Outstanding ⟨tx, s.sent ++ [b.bytes]⟩ (q ++ [b]) where
  queued := by
    have hput := h.queued.put (by rwa [List.length_map]) (pa b.ptr, b.bytes.length)
    rw [List.length_map, ← h.txCur, ← hhanded.slot, ← hhanded.finger] at hput
    rwa [List.map_append]
  txCur := by
    rw [hhanded.txCur, h.txCur, hhanded.finger, List.length_append, Nat.mod_add_mod]
    rfl
  live := List.forall_mem_append.mpr ⟨fun c hc => hown.mem_old (h.live c hc),
    List.forall_mem_singleton.mpr (hown.mem_live (List.mem_singleton_self b))⟩
  holds := by
    refine List.forall_mem_append.mpr ⟨fun c hc => ?_, hown.holds⟩
    refine (bytesAt_congr fun i hi => ?_).trans (h.holds c hc)
    exact hown.kept _ (h.live c hc) _ ⟨Nat.le_add_right _ _, Nat.add_lt_add_left hi _⟩
  nonempty := List.forall_mem_append.mpr ⟨h.nonempty, List.forall_mem_singleton.mpr hpos⟩
  sent := by
    rw [h.sent, hhanded.wire, List.map_append, List.append_assoc]
    rfl

theorem Outstanding.fetched {tx : Tx} (h : Outstanding s q) (h₀ : HeapReach totalPages s.tx.sys)
    (hfetch : s.tx.fetch = some tx) : ∃ b rest, q = b :: rest ∧ tx.sys = s.tx.sys ∧
      tx.card.wire = s.tx.card.wire ++ [b.bytes] ∧ Outstanding { s with tx := tx } rest := by
  obtain ⟨n, hsize, rfl⟩ := Option.map_eq_some_iff.mp hfetch
  have hhead := h.queued.head
  rw [TxCard.slot, hsize] at hhead
  cases q with
  | nil => cases hhead
  | cons b rest =>
    obtain ⟨haddress, hn⟩ := Prod.mk.inj (Option.some.inj hhead)
    have hb : b ∈ b :: rest := List.mem_cons_self ..
    have hframe : bytesAt s.tx.sys.heap.mem (va (s.tx.card.address s.tx.card.finger)) n = b.bytes := by
      rw [haddress, hn, h.va_pa h₀ hb, h.holds b hb]
    have hslot : TxCard.slot { s.tx.card with size := Function.update s.tx.card.size s.tx.card.finger none } =
        Function.update s.tx.card.slot s.tx.card.finger none := by
      funext i
      by_cases hi : i = s.tx.card.finger
      · simp [TxCard.slot, hi]
      · simp [TxCard.slot, hi]
    have htake := h.queued.take
    rw [← hslot] at htake
    have hsent : s.sent = s.tx.card.wire ++ [b.bytes] ++ rest.map Buffer.bytes := by
      rw [h.sent, List.map_cons, List.append_assoc]
      rfl
    rw [← hframe] at hsent
    refine ⟨b, rest, rfl, rfl, congrArg (s.tx.card.wire ++ [·]) hframe, htake,
      h.txCur.trans (next_of_take 4 s.tx.card.finger b rest).symm, ?_, ?_, ?_, hsent⟩
    · exact fun c hc => h.live c (List.mem_cons_of_mem _ hc)
    · exact fun c hc => h.holds c (List.mem_cons_of_mem _ hc)
    · exact fun c hc => h.nonempty c (List.mem_cons_of_mem _ hc)

theorem Outstanding.step (h₀ : HeapReach totalPages s.tx.sys) (h : Outstanding s q) (hs : TxStep s s') :
    HeapReach totalPages s'.tx.sys ∧ ∃ q', Outstanding s' q' := by
  cases hs with
  | heap hstep hspare => exact ⟨h₀.run (.single hstep), q, h.heap h₀ hstep hspare⟩
  | @send dst ethType dataIn dataLen r tx hr hlow hhigh hpos htype hlen hfree hok =>
    have hroom := h.room hfree
    have hcur : s.tx.txCur < 4 := h.txCur ▸ Nat.mod_lt _ (by decide)
    obtain ⟨L, c, hi, -⟩ := h₀.sysInv
    have hmeets := sendEthernetPacket_spec dst hi hr hlow hhigh hpos htype hlen hcur
    rw [hok] at hmeets
    obtain ⟨p, hown, hhanded⟩ := hmeets.of_ok
    have hframe : (ethernetFrame dst s.tx.macAddr ethType (bytesAt s.tx.sys.heap.mem dataIn dataLen)).length =
        max 60 (dataLen + 14) := by
      rw [length_ethernetFrame, length_bytesAt]
    rw [← hframe] at hhanded
    exact ⟨h₀.run hown.run, _, h.handed hroom hown hhanded (by dsimp only; omega)⟩
  | fetch hfetch =>
    obtain ⟨b, rest, -, hsys, -, hout⟩ := h.fetched h₀ hfetch
    exact ⟨hsys ▸ h₀, rest, hout⟩

theorem TxStart.run (h : TxStart totalPages s) (hrun : Relation.ReflTransGen TxStep s s') :
    HeapReach totalPages s'.tx.sys ∧ ∃ q, Outstanding s' q := by
  induction hrun with
  | refl => exact ⟨h.reach, [], h.outstanding⟩
  | tail _ hs ih =>
    obtain ⟨h₀, q, hout⟩ := ih
    exact hout.step h₀ hs

end Runs

/-- In every run the frames on the wire are those that were sent, byte for byte and in their order. At most four are
missing, and while one is missing the card finds it when it looks for the next one. -/
theorem wire_shows_frames {totalPages : ℕ} {s₀ s : TxState} (h : TxStart totalPages s₀)
    (hrun : Relation.ReflTransGen TxStep s₀ s) :
    s.tx.card.wire <+: s.sent ∧ s.sent.length ≤ s.tx.card.wire.length + 4 ∧
      (s.tx.card.wire ≠ s.sent → ∃ tx frame, s.tx.fetch = some tx ∧ tx.card.wire = s.tx.card.wire ++ [frame] ∧
        tx.card.wire <+: s.sent) := by
  obtain ⟨h₀, q, hout⟩ := h.run hrun
  have hlen : q.length ≤ 4 := by simpa using hout.queued.length_le
  have hsent := hout.sent
  refine ⟨⟨_, hsent.symm⟩, ?_, fun hne => ?_⟩
  · rw [hsent, List.length_append, List.length_map]
    omega
  · have hsome : s.tx.fetch ≠ none := by
      intro hnone
      have hhead := hout.queued.head
      rw [TxCard.slot, Option.map_eq_none_iff.mp hnone, Option.map_none, eq_comm, List.head?_eq_none_iff,
        List.map_eq_nil_iff] at hhead
      rw [hhead, List.map_nil, List.append_nil] at hsent
      exact hne hsent.symm
    obtain ⟨tx, hfetch⟩ := Option.ne_none_iff_exists'.mp hsome
    obtain ⟨b, rest, rfl, -, hwire, hout'⟩ := hout.fetched h₀ hfetch
    exact ⟨tx, b.bytes, hfetch, hwire, _, hout'.sent.symm⟩

/-- After the start of the kernel, one object of 20 bytes is sent. -/
theorem wire_shows_first_frame : ∃ (s₀ s : TxState) (tx : Tx) (frame : List UInt8), TxStart 114688 s₀ ∧
    Relation.ReflTransGen TxStep s₀ s ∧ s.sent = [frame] ∧ s.tx.card.wire = [] ∧
      s.tx.fetch = some tx ∧ tx.card.wire = [frame] := by
  obtain ⟨L, c, h, hst, hreach⟩ := heapReach_boot
  have hnum : L.numPages = 14336 := hst.numPages
  have hfirst : L.first ≤ 13312 := hst.first_le
  have hused : SysInv.used L c ⟨h, c.slabs, []⟩ = L.first + 27 := hst.used
  let mac : Mac := ⟨[0x52, 0x54, 0x00, 0x12, 0x34, 0x56], rfl⟩
  let s₀ : TxState := ⟨⟨⟨h, c.slabs, []⟩, ⟨fun _ => 0, fun _ => none, 0, []⟩, mac, 0⟩, []⟩
  have hstart : TxStart 114688 s₀ := ⟨hreach, fun _ => rfl, rfl, rfl, rfl, rfl⟩
  rcases hst.sysInv.kmalloc_used (show 20 ≤ maxSlabSize by decide) with ⟨p, h₁, c₁, hok, hi, hused₁⟩ | ⟨-, hfull⟩
  swap
  · omega
  let σ₁ : Sys := ⟨h₁, kmallocSlabs 20 h c.slabs, [⟨p, 20, .object⟩]⟩
  have hheap : TxStep s₀ { s₀ with tx := s₀.tx.setSys σ₁ } :=
    .heap (.kmallocSmall (by decide) hok) fun _ _ _ hslot => nomatch hslot
  have hdata : (⟨p, 20, .object⟩ : Region) ∈ σ₁.live := List.mem_singleton_self _
  have hsend := sendEthernetPacket_spec (t := s₀.tx.setSys σ₁) mac hi hdata
    (Nat.le_refl p) (Nat.le_refl (p + 20)) (by decide) (show 0x0800 < 2 ^ 16 by decide) (by decide)
    (show 0 < 4 by decide)
  rcases hsend with ⟨_, tx, hok', _, -, hhanded⟩ | ⟨msg, -, -, hfull⟩
  swap
  · have hless : L.numPages < SysInv.used L c₁ σ₁ + 2 := hfull.2
    have hgrown : SysInv.used L c₁ σ₁ ≤ SysInv.used L c ⟨h, c.slabs, []⟩ + 1 := hused₁
    omega
  have hrun := (Relation.ReflTransGen.single hheap).tail
    (.send hdata (Nat.le_refl p) (Nat.le_refl (p + 20)) (by decide) (by decide) (by decide) rfl hok')
  obtain ⟨-, -, hnext⟩ := wire_shows_frames hstart hrun
  have hempty : tx.card.wire = [] := hhanded.wire
  obtain ⟨tx', frame, hfetch, hwire, rest, hprefix⟩ := hnext (by rw [hempty]; simp)
  rw [hempty, List.nil_append] at hwire
  rw [hwire] at hprefix
  obtain ⟨hframe, -⟩ := List.cons.inj hprefix
  refine ⟨s₀, _, tx', frame, hstart, hrun, ?_, hempty, hfetch, hwire⟩
  rw [hframe]
  rfl

end X86Osdev.Net

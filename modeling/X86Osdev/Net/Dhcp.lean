import X86Osdev.Net.Ethernet

/-! The DHCP discovery of `net/dhcp.c`: four buffers of the heap become one frame for the card. -/

namespace X86Osdev.Net
open X86Osdev.Lib X86Osdev.Mem ByteMemory Contracts OnesComplement

def switchEndian32 (nb : ℕ) : ℕ :=
  (nb >>> 24 &&& 0xff) ||| (nb <<< 8 &&& 0xff0000) ||| (nb >>> 8 &&& 0xff00) ||| (nb <<< 24 &&& 0xff000000)

def ethIpv4 : ℕ := 0x0800
def sizeofUDP : ℕ := 8
def sizeofDHCPMessage : ℕ := 244

/-- `txid` is the sum of three calls of `rand`. -/
def fillDiscovery (dhcp txid : ℕ) (macAddr : Mac) (m : Memory) : Memory :=
  let m := store8 m dhcp 1
  let m := store8 m (dhcp + 1) 1
  let m := store8 m (dhcp + 2) 6
  let m := store8 m (dhcp + 3) 0
  let m := store32 m (dhcp + 4) txid
  let m := storeU16 m (dhcp + 8) 0
  let m := storeU16 m (dhcp + 10) 0
  let m := store32 m (dhcp + 12) 0
  let m := store32 m (dhcp + 16) 0
  let m := store32 m (dhcp + 20) 0
  let m := store32 m (dhcp + 24) 0
  let m := storeList (2 ^ 32) m (dhcp + 28) macAddr.bytes
  let m := memset (dhcp + 34) 0 202 m
  let m := store32 m (dhcp + 236) (switchEndian32 0x63825363)
  let m := store8 m (dhcp + 242) 1
  let m := store8 m (dhcp + 240) 53
  let m := store8 m (dhcp + 241) 1
  store8 m (dhcp + 243) 0xff

def createDchpDiscovery (txid : ℕ) (t : Tx) : Outcome Tx ℕ :=
  (t.kmalloc sizeofDHCPMessage).bind fun dhcp t => .ok dhcp (t.store (fillDiscovery dhcp txid t.macAddr))

def fillUdp (udp srcPort destPort len checksum : ℕ) (m : Memory) : Memory :=
  let m := storeU16 m udp (switchEndian16 srcPort)
  let m := storeU16 m (udp + 2) (switchEndian16 destPort)
  let m := storeU16 m (udp + 4) (switchEndian16 len)
  storeU16 m (udp + 6) (switchEndian16 checksum)

def createUdpPacket (srcPort destPort len checksum : ℕ) (t : Tx) : Outcome Tx ℕ :=
  (t.kmalloc sizeofUDP).bind fun udp t => .ok udp (t.store (fillUdp udp srcPort destPort len checksum))

def Tx.createIpv4Header (srcIp destIp len : ℕ) (t : Tx) : Outcome Tx ℕ :=
  (t.sys.getting sizeofIPv4Header (Net.createIpv4Header srcIp destIp len)).lift t.setSys

def broadcast : Mac := ⟨[0xff, 0xff, 0xff, 0xff, 0xff, 0xff], rfl⟩

/-- `src_ip` and `dest_ip` are on the stack, at `locals`. -/
def sendDchpDiscovery (locals txid : ℕ) (t : Tx) : Outcome Tx Unit :=
  let t := t.store fun m => storeList (2 ^ 32) m locals [0, 0, 0, 0, 255, 255, 255, 255]
  let totSize := sizeofIPv4Header + sizeofUDP + sizeofDHCPMessage
  (createDchpDiscovery txid t).bind fun dchpMessage t =>
  (t.createIpv4Header locals (locals + 4) totSize).bind fun ipv4 t =>
  (createUdpPacket 68 67 (sizeofDHCPMessage + 8) 0 t).bind fun udp t =>
  (t.kmalloc totSize).bind fun data t =>
    let t := t.store (memcopy ipv4 data sizeofIPv4Header)
    let t := t.store (memcopy udp (data + sizeofIPv4Header) sizeofUDP)
    let t := t.store (memcopy dchpMessage (data + sizeofIPv4Header + sizeofUDP) sizeofDHCPMessage)
    (sendEthernetPacket broadcast ethIpv4 data totSize t).bind fun _ t =>
    (t.kfree data).bind fun _ t =>
    (t.kfree dchpMessage).bind fun _ t =>
    (t.kfree udp).bind fun _ t => t.kfree ipv4

def networkOrder (nb : ℕ) : List UInt8 := [UInt8.ofNat (nb / 256), UInt8.ofNat nb]

def wordsOf : List UInt8 → List ℕ
  | a :: b :: bs => (a.toNat + 256 * b.toNat) :: wordsOf bs
  | [a] => [a.toNat]
  | [] => []

def ipv4Bytes (src dst checksum : List UInt8) (len : ℕ) : List UInt8 :=
  [0x45, 0] ++ networkOrder len ++ [0, 0, 0, 0, 10, 0x11] ++ checksum ++ src ++ dst

def ipv4Header (src dst : List UInt8) (len : ℕ) : List UInt8 :=
  ipv4Bytes src dst (littleEndian 2 (complement 65536 (sum 65536 (wordsOf (ipv4Bytes src dst [0, 0] len))))) len

def udpHeader (srcPort destPort len : ℕ) : List UInt8 :=
  networkOrder srcPort ++ networkOrder destPort ++ networkOrder len ++ [0, 0]

/-- A request over Ethernet, the message type of the only option being that of a discovery. -/
def discovery (txid : ℕ) (macAddr : Mac) : List UInt8 :=
  [1, 1, 6, 0] ++ littleEndian 4 txid ++ List.replicate 20 0 ++ macAddr.bytes ++ List.replicate 202 0 ++
    [0x63, 0x82, 0x53, 0x63] ++ [53, 1, 1] ++ [0xff]

def discoveryFrame (txid : ℕ) (macAddr : Mac) : List UInt8 :=
  ethernetFrame broadcast macAddr ethIpv4
    (ipv4Header [0, 0, 0, 0] [255, 255, 255, 255] 272 ++ udpHeader 68 67 252 ++ discovery txid macAddr)

example : ipv4Header [0, 0, 0, 0] [255, 255, 255, 255] 272 =
    [0x45, 0, 1, 0x10, 0, 0, 0, 0, 10, 0x11, 0xAF, 0xDE, 0, 0, 0, 0, 255, 255, 255, 255] := by decide

section Packets
variable {m : Memory} {p n txid ip srcIp destIp len srcPort destPort : ℕ} {macAddr : Mac}

theorem fillUdp_spec (hfits : p + 8 ≤ 2 ^ 32) (hsrc : srcPort < 2 ^ 16) (hdest : destPort < 2 ^ 16)
    (hlen : len < 2 ^ 16) :
    Within (Set.Ico p (p + 8)) m (fillUdp p srcPort destPort len 0 m) ∧
      bytesAt (fillUdp p srcPort destPort len 0 m) p 8 = udpHeader srcPort destPort len := by
  unfold fillUdp storeU16
  constructor
  · refine Within.trans ?_ (within_store_of_le (by omega) (by omega) (by omega))
    refine Within.trans ?_ (within_store_of_le (by omega) (by omega) (by omega))
    refine Within.trans ?_ (within_store_of_le (by omega) (by omega) (by omega))
    exact within_store_of_le (by omega) (by omega) (by omega)
  · refine (bytesAt_sum _ p [2, 2, 2, 2]).trans ?_
    simp only [piecesAt, Nat.add_assoc, Nat.reduceAdd]
    simp (disch := omega) only [bytesAt_store_of_disjoint, bytesAt_store]
    rw [littleEndian_switchEndian16 hsrc, littleEndian_switchEndian16 hdest, littleEndian_switchEndian16 hlen]
    rfl

theorem fillDiscovery_spec (hfits : p + 244 ≤ 2 ^ 32) :
    Within (Set.Ico p (p + 244)) m (fillDiscovery p txid macAddr m) ∧
      bytesAt (fillDiscovery p txid macAddr m) p 244 = discovery txid macAddr := by
  have hmac := macAddr.length_eq
  unfold fillDiscovery storeU16 store8 store32
  constructor
  · iterate 4 refine Within.trans ?_ (within_store_of_le (by omega) (by omega) (by omega))
    refine Within.trans ?_ (within_store_of_le (by omega) (by omega) (by omega))
    refine Within.trans ?_ ((within_memset 0 (by omega)).mono (Set.Ico_subset_Ico (by omega) (by omega)))
    refine Within.trans ?_ (within_storeList_of_le (by omega) (by omega) (by omega))
    iterate 10 refine Within.trans ?_ (within_store_of_le (by omega) (by omega) (by omega))
    exact within_store_of_le (by omega) (by omega) (by omega)
  · refine (bytesAt_sum _ p [1, 1, 1, 1, 4, 2, 2, 4, 4, 4, 4, 6, 202, 4, 1, 1, 1, 1]).trans ?_
    simp only [piecesAt, Nat.add_assoc, Nat.reduceAdd]
    simp (disch := omega) only [bytesAt_store_of_disjoint, bytesAt_store, bytesAt_storeList_of_disjoint,
      bytesAt_storeList, bytesAt_memset, bytesAt_memset_of_disjoint]
    simp only [discovery, List.append_assoc]
    rfl

theorem length_discovery : (discovery txid macAddr).length = 244 := by
  simp only [discovery, List.length_append, macAddr.length_eq, length_littleEndian, List.length_replicate]
  rfl

theorem fillHeader_spec (hfits : ip + 20 ≤ 2 ^ 32) (hsrc : srcIp + 4 ≤ 2 ^ 32) (hdest : destIp + 4 ≤ 2 ^ 32)
    (hsrc' : srcIp + 4 ≤ ip ∨ ip + 20 ≤ srcIp) (hdest' : destIp + 4 ≤ ip ∨ ip + 20 ≤ destIp) (hlen : len < 2 ^ 16) :
    Within (Set.Ico ip (ip + 20)) m (fillHeader ip srcIp destIp len m) ∧
      bytesAt (fillHeader ip srcIp destIp len m) ip 20 =
        ipv4Bytes (bytesAt m srcIp 4) (bytesAt m destIp 4) [0, 0] len := by
  unfold fillHeader storeBits storeU16 store8 load8
  constructor
  · iterate 18 refine Within.trans ?_ (within_store_of_le (by omega) (by omega) (by omega))
    exact within_store_of_le (by omega) (by omega) (by omega)
  · refine (bytesAt_sum _ ip [1, 1, 2, 2, 2, 1, 1, 2, 1, 1, 1, 1, 1, 1, 1, 1]).trans ?_
    simp only [piecesAt, Nat.add_assoc, Nat.reduceAdd]
    simp (disch := omega) only [bytesAt_store_of_disjoint, bytesAt_store, load_two, load_store_of_disjoint,
      load_store_same, Nat.mod_eq_of_lt hlen, littleEndian_load]
    have hflags := load_lt (N := 2 ^ 32) m 1 (ip + 6)
    rw [littleEndian_switchEndian16 hlen, ipv4Bytes,
      show bytesAt m srcIp 4 = piecesAt m srcIp [1, 1, 1, 1] from bytesAt_sum m srcIp [1, 1, 1, 1],
      show bytesAt m destIp 4 = piecesAt m destIp [1, 1, 1, 1] from bytesAt_sum m destIp [1, 1, 1, 1]]
    simp only [piecesAt, Nat.add_assoc, Nat.reduceAdd, List.append_assoc, List.append_nil]
    change _ = littleEndian 1 0x45 ++ (littleEndian 1 0 ++ (networkOrder len ++
      (littleEndian 2 0 ++ (littleEndian 2 0 ++ _))))
    -- the bit fields of the first two bytes and of the fragment word
    refine congrArg₂ (· ++ ·) (congrArg (littleEndian 1) ?_) (congrArg₂ (· ++ ·) (congrArg (littleEndian 1) ?_)
      (congrArg (networkOrder len ++ ·) (congrArg (littleEndian 2 0 ++ ·)
        (congrArg₂ (· ++ ·) (congrArg (littleEndian 2) ?_) rfl))))
    · omega
    · omega
    · have hoffset := load_lt (N := 2 ^ 32) m 1 (ip + 7)
      generalize ByteMemory.load (2 ^ 32) m 1 (ip + 6) = x at hflags
      generalize ByteMemory.load (2 ^ 32) m 1 (ip + 7) = y at hoffset
      omega

theorem words_eq (h : p + n ≤ 2 ^ 32) : words m p n = wordsOf (bytesAt m p n) := by
  fun_induction words m p n with
  | case1 p n ih =>
    have hfirst : p % 2 ^ 32 = p := Nat.mod_eq_of_lt (by omega)
    have hsecond : (p + 1) % 2 ^ 32 = p + 1 := Nat.mod_eq_of_lt (by omega)
    have hsplit : bytesAt m p (n + 2) = m p :: m (p + 1) :: bytesAt m (p + 2) n := by
      rw [Nat.add_comm n 2, bytesAt_add]
      rfl
    rw [hsplit, wordsOf, ih (by omega), loadU16]
    simp only [load, hfirst, hsecond, Nat.mul_zero, Nat.add_zero]
  | case2 p =>
    have hfirst : p % 2 ^ 32 = p := Nat.mod_eq_of_lt (by omega)
    show [ByteMemory.load (2 ^ 32) m 1 p] = [(m p).toNat]
    simp only [load, hfirst, Nat.mul_zero, Nat.add_zero]
  | case3 p => rfl

/-- A header with its checksum, in the order of `create_ipv4_header`. -/
def putHeader (ip srcIp destIp len : ℕ) (m : Memory) : Memory :=
  storeU16 (fillHeader ip srcIp destIp len m) (ip + 10) (checksum (fillHeader ip srcIp destIp len m) ip 20)

theorem createIpv4Header_eq (srcIp destIp len : ℕ) : Net.createIpv4Header srcIp destIp len =
    fun h => (Mem.kmalloc sizeofIPv4Header h).bind fun ip h =>
      .ok ip { h with mem := putHeader ip srcIp destIp len h.mem } := by
  funext h
  unfold Net.createIpv4Header
  congr 1
  funext ip h
  dsimp only
  rw [fillHeader_ihl, computeChecksum_eq exactU32_addU32 (by decide)]
  rfl

theorem putHeader_spec (hfits : ip + 20 ≤ 2 ^ 32) (hsrc : srcIp + 4 ≤ 2 ^ 32) (hdest : destIp + 4 ≤ 2 ^ 32)
    (hsrc' : srcIp + 4 ≤ ip ∨ ip + 20 ≤ srcIp) (hdest' : destIp + 4 ≤ ip ∨ ip + 20 ≤ destIp) (hlen : len < 2 ^ 16) :
    Within (Set.Ico ip (ip + 20)) m (putHeader ip srcIp destIp len m) ∧
      bytesAt (putHeader ip srcIp destIp len m) ip 20 = ipv4Header (bytesAt m srcIp 4) (bytesAt m destIp 4) len := by
  obtain ⟨hwithin, hbytes⟩ := fillHeader_spec (m := m) hfits hsrc hdest hsrc' hdest' hlen
  unfold putHeader storeU16
  constructor
  · exact hwithin.trans (within_store_of_le (by omega) (by omega) (by omega))
  · rw [ipv4Header, ← hbytes, ← words_eq hfits]
    refine (bytesAt_sum _ ip [10, 2, 8]).trans ?_
    simp only [piecesAt, Nat.add_assoc, Nat.reduceAdd]
    simp (disch := omega) only [bytesAt_store_of_disjoint, bytesAt_store]
    have hpieces := (bytesAt_sum _ ip [10, 2, 8]).symm.trans hbytes
    simp only [piecesAt, Nat.add_assoc, Nat.reduceAdd, List.append_nil, ipv4Bytes, List.append_assoc] at hpieces
    change _ = [0x45, 0] ++ networkOrder len ++ [0, 0, 0, 0, 10, 0x11] ++
      ([0, 0] ++ (bytesAt m srcIp 4 ++ bytesAt m destIp 4)) at hpieces
    obtain ⟨hhead, hrest⟩ := List.append_inj hpieces (length_bytesAt _ _ _)
    obtain ⟨-, htail⟩ := List.append_inj hrest (length_bytesAt _ _ _)
    rw [hhead, htail]
    simp only [checksum, ipv4Bytes, List.append_assoc, List.append_nil]

end Packets
section Buffers
variable {L : Layout} {limit txid srcIp destIp len srcPort destPort locals : ℕ} {σ₀ : Sys} {t : Tx} {bufs : List Buffer}
  {r : Region} {src dst : List UInt8}

theorem Tx.store_setSys (t : Tx) (σ : Sys) (f : Memory → Memory) : (t.setSys σ).store f = t.setSys (σ.store f) := rfl

theorem createDchpDiscovery_spec (txid : ℕ) (h : Owns L limit σ₀ bufs t.sys) :
    Meets (Full L (limit + 1)) (createDchpDiscovery txid t) fun p t' => ∃ σ, t' = t.setSys σ ∧
      Owns L (limit + 1) σ₀ (⟨p, discovery txid t.macAddr⟩ :: bufs) σ := by
  refine (Tx.kmalloc_spec h (show sizeofDHCPMessage ≤ maxSlabSize by decide)).bind ?_
  rintro p _ ⟨σ, bs, rfl, hlen, hown⟩
  have hfits := hown.fits (List.mem_cons_self ..)
  rw [hlen] at hfits
  exact .ok ⟨_, rfl, hown.fill hlen (fillDiscovery_spec hfits)⟩

theorem createUdpPacket_spec (h : Owns L limit σ₀ bufs t.sys) (hsrc : srcPort < 2 ^ 16) (hdest : destPort < 2 ^ 16)
    (hlen : len < 2 ^ 16) :
    Meets (Full L (limit + 1)) (createUdpPacket srcPort destPort len 0 t) fun p t' => ∃ σ, t' = t.setSys σ ∧
      Owns L (limit + 1) σ₀ (⟨p, udpHeader srcPort destPort len⟩ :: bufs) σ := by
  refine (Tx.kmalloc_spec h (show sizeofUDP ≤ maxSlabSize by decide)).bind ?_
  rintro p _ ⟨σ, bs, rfl, hbs, hown⟩
  have hfits := hown.fits (List.mem_cons_self ..)
  rw [hbs] at hfits
  exact .ok ⟨_, rfl, hown.fill hbs (fillUdp_spec hfits hsrc hdest hlen)⟩

theorem createIpv4Header_spec (h : Owns L limit σ₀ bufs t.sys) (hr : r ∈ σ₀.live)
    (hsrc : r.ptr ≤ srcIp ∧ srcIp + 4 ≤ r.ptr + r.bytes) (hdest : r.ptr ≤ destIp ∧ destIp + 4 ≤ r.ptr + r.bytes)
    (hsrcIp : bytesAt σ₀.heap.mem srcIp 4 = src) (hdestIp : bytesAt σ₀.heap.mem destIp 4 = dst) (hlen : len < 2 ^ 16) :
    Meets (Full L (limit + 1)) (t.createIpv4Header srcIp destIp len) fun p t' => ∃ σ, t' = t.setSys σ ∧
      Owns L (limit + 1) σ₀ (⟨p, ipv4Header src dst len⟩ :: bufs) σ := by
  rw [Tx.createIpv4Header, createIpv4Header_eq, Sys.getting_filled]
  refine Meets.lift ((h.kmalloc (show sizeofIPv4Header ≤ maxSlabSize by decide)).bind ?_)
    fun _ σ hown => ⟨σ, rfl, hown⟩
  rintro p σ ⟨bs, hbs, hown⟩
  have hfits := hown.fits (List.mem_cons_self ..)
  have hapart := hown.apart_head (List.mem_append_right _ hr)
  obtain ⟨c, hi, -⟩ := hown.inv
  have hend := hi.range_le (hown.mem_old hr)
  dsimp only at hfits hapart
  rw [hbs, sizeofIPv4Header] at hfits hapart
  have hkept : ∀ a, r.ptr ≤ a → a + 4 ≤ r.ptr + r.bytes → bytesAt σ.heap.mem a 4 = bytesAt σ₀.heap.mem a 4 :=
    fun a hlow hhigh => bytesAt_congr fun i hi => hown.kept r hr _ ⟨by omega, by omega⟩
  have hsrc' : srcIp + 4 ≤ p ∨ p + 20 ≤ srcIp := by omega
  have hdest' : destIp + 4 ≤ p ∨ p + 20 ≤ destIp := by omega
  rw [← hsrcIp, ← hdestIp, ← hkept srcIp hsrc.1 hsrc.2, ← hkept destIp hdest.1 hdest.2]
  exact .ok (hown.fill hbs (putHeader_spec hfits (by omega) (by omega) hsrc' hdest' hlen))

theorem Tx.kfree_spec {b : Buffer} (h : Owns L limit σ₀ (b :: bufs) t.sys) :
    Meets (Full L limit) (t.kfree b.ptr) fun _ t' => ∃ σ, t' = t.setSys σ ∧ Owns L limit σ₀ bufs σ :=
  h.kfree.lift fun _ σ hown => ⟨σ, rfl, hown⟩

/-- The end of `send_dchp_discovery`: the card gets a buffer of its own, and all four buffers go back. -/
theorem sendData_spec {data udp ipv4 dchpMessage : ℕ} {bs us is ms : List UInt8}
    (h : Owns L limit σ₀ [⟨data, bs⟩, ⟨udp, us⟩, ⟨ipv4, is⟩, ⟨dchpMessage, ms⟩] t.sys) (hbs : bs.length = 272)
    (hcur : t.txCur < 4) :
    Meets (Full L (limit + 2)) ((sendEthernetPacket broadcast ethIpv4 data 272 t).bind fun _ t =>
        (t.kfree data).bind fun _ t => (t.kfree dchpMessage).bind fun _ t =>
        (t.kfree udp).bind fun _ t => t.kfree ipv4) fun _ t' => ∃ p,
      Owns L (limit + 2) σ₀ [⟨p, ethernetFrame broadcast t.macAddr ethIpv4 bs⟩] t'.sys ∧ Handed t p 286 t' := by
  obtain ⟨c, hi, hused⟩ := h.inv
  have hmem : (⟨data, bs⟩ : Buffer) ∈ [⟨data, bs⟩, ⟨udp, us⟩, ⟨ipv4, is⟩, ⟨dchpMessage, ms⟩] := List.mem_cons_self ..
  have hholds := h.holds _ hmem
  dsimp only at hholds
  rw [hbs] at hholds
  have hsend := sendEthernetPacket_spec broadcast hi (h.mem_live hmem) (Nat.le_refl data)
    (show data + 272 ≤ data + bs.length by rw [hbs]) (by decide) (show ethIpv4 < 2 ^ 16 by decide) (by decide) hcur
  rw [hholds] at hsend
  refine (hsend.stop fun _ hfull => hfull.mono (by omega)).bind ?_
  rintro _ t₁ ⟨p, hown, hhanded⟩
  have hown₁ := (h.trans hown).mono (show SysInv.used L c t.sys + 2 ≤ limit + 2 by omega)
  refine (Tx.kfree_spec (hown₁.perm (List.Perm.swap _ _ _))).bind ?_
  rintro _ _ ⟨σ₂, rfl, hown₂⟩
  have hlast : ∀ a b c d : Buffer, [a, b, c, d].Perm [d, a, b, c] := fun a b c d => by
    show ([a, b, c] ++ [d]).Perm ([d] ++ [a, b, c])
    exact List.perm_append_comm
  refine (Tx.kfree_spec (t := t₁.setSys σ₂) (hown₂.perm (hlast _ _ _ _))).bind ?_
  rintro _ _ ⟨σ₃, rfl, hown₃⟩
  refine (Tx.kfree_spec (t := t₁.setSys σ₃) (hown₃.perm (List.Perm.swap _ _ _))).bind ?_
  rintro _ _ ⟨σ₄, rfl, hown₄⟩
  refine (hown₄.perm (List.Perm.swap _ _ _)).kfree.lift fun _ σ hown₅ => ⟨p, hown₅, ?_⟩
  exact ⟨hhanded.slot, hhanded.finger, hhanded.wire, hhanded.macAddr, hhanded.txCur⟩

theorem gather_spec {ipv4 udp dchpMessage data : ℕ} {m : Memory} (hdata : data + 272 ≤ 2 ^ 32)
    (hipv4 : ipv4 + 20 ≤ 2 ^ 32) (hudp : udp + 8 ≤ 2 ^ 32) (hmsg : dchpMessage + 244 ≤ 2 ^ 32)
    (hipv4' : ipv4 + 20 ≤ data ∨ data + 272 ≤ ipv4) (hudp' : udp + 8 ≤ data ∨ data + 272 ≤ udp)
    (hmsg' : dchpMessage + 244 ≤ data ∨ data + 272 ≤ dchpMessage) :
    let m' := memcopy dchpMessage (data + 20 + 8) 244 (memcopy udp (data + 20) 8 (memcopy ipv4 data 20 m))
    Within (Set.Ico data (data + 272)) m m' ∧
      bytesAt m' data 272 = bytesAt m ipv4 20 ++ bytesAt m udp 8 ++ bytesAt m dchpMessage 244 := by
  intro m'
  constructor
  · have hwithin : ∀ {source dest n : ℕ} {m : Memory}, data ≤ dest → dest + n ≤ data + 272 → source + n ≤ 2 ^ 32 →
        source + n ≤ data ∨ data + 272 ≤ source →
        Within (Set.Ico data (data + 272)) m (memcopy source dest n m) := fun hlow hhigh hsource hapart =>
      (within_memcopy (by omega) hsource (by omega)).mono (Set.Ico_subset_Ico hlow hhigh)
    refine ((hwithin ?_ ?_ hipv4 hipv4').trans (hwithin ?_ ?_ hudp hudp')).trans (hwithin ?_ ?_ hmsg hmsg')
    all_goals omega
  · refine (bytesAt_sum m' data [20, 8, 244]).trans ?_
    simp only [piecesAt, List.append_nil, List.append_assoc, m']
    simp (disch := omega) only [bytesAt_memcopy_of_disjoint, bytesAt_memcopy]

end Buffers

section Discovery
variable {L : Layout} {c : Cache} {txid locals : ℕ} {t : Tx} {r : Region}

theorem sendDchpDiscovery_spec (txid : ℕ) (hi : SysInv L c t.sys) (hr : r ∈ t.sys.live) (hlow : r.ptr ≤ locals)
    (hhigh : locals + 8 ≤ r.ptr + r.bytes) (hcur : t.txCur < 4) :
    Meets (Full L (SysInv.used L c t.sys + 6)) (sendDchpDiscovery locals txid t) fun _ t' => ∃ p,
      Owns L (SysInv.used L c t.sys + 6)
          (t.sys.store fun m => storeList (2 ^ 32) m locals [0, 0, 0, 0, 255, 255, 255, 255])
          [⟨p, discoveryFrame txid t.macAddr⟩] t'.sys ∧ Handed t p 286 t' := by
  have hend := hi.range_le hr
  -- The stores to `src_ip` and `dest_ip` come first, in a region of the caller.
  let put : Memory → Memory := fun m => storeList (2 ^ 32) m locals [0, 0, 0, 0, 255, 255, 255, 255]
  have hlocals : Within r.range t.sys.heap.mem (put t.sys.heap.mem) :=
    within_storeList_of_le (show locals + 8 ≤ 2 ^ 32 by omega) hlow hhigh
  obtain ⟨-, hi₁⟩ := hi.run_store (f := put) hr hlocals
  have haddresses : bytesAt (put t.sys.heap.mem) locals 4 ++ bytesAt (put t.sys.heap.mem) (locals + 4) 4 =
      [0, 0, 0, 0] ++ [255, 255, 255, 255] :=
    (bytesAt_add _ locals 4 4).symm.trans (bytesAt_storeList (show locals + 8 ≤ 2 ^ 32 by omega) rfl)
  obtain ⟨hsrcIp, hdestIp⟩ := List.append_inj haddresses (length_bytesAt _ _ _)
  have hown₀ := owns_start hi₁
  have hused : SysInv.used L c (t.sys.store put) = SysInv.used L c t.sys := rfl
  rw [hused] at hown₀
  unfold sendDchpDiscovery
  simp only [sizeofIPv4Header, sizeofUDP, sizeofDHCPMessage, Nat.reduceAdd]
  -- Four buffers, one after the other; each call keeps what is owned so far.
  have hmsg := createDchpDiscovery_spec (t := t.store put) txid hown₀
  refine (hmsg.stop fun _ hfull => hfull.mono (by omega)).bind ?_
  rintro dchpMessage _ ⟨σ₁, rfl, hown₁⟩
  have hheader := createIpv4Header_spec (t := (t.store put).setSys σ₁) hown₁ hr ⟨hlow, by omega⟩
    ⟨by omega, by omega⟩ hsrcIp hdestIp (show 272 < 2 ^ 16 by decide)
  refine (hheader.stop fun _ hfull => hfull.mono (by omega)).bind ?_
  rintro ipv4 _ ⟨σ₂, rfl, hown₂⟩
  have hudp := createUdpPacket_spec (t := (t.store put).setSys σ₂) hown₂ (show 68 < 2 ^ 16 by decide)
    (show 67 < 2 ^ 16 by decide) (show 252 < 2 ^ 16 by decide)
  refine (hudp.stop fun _ hfull => hfull.mono (by omega)).bind ?_
  rintro udp _ ⟨σ₃, rfl, hown₃⟩
  have hkmalloc := Tx.kmalloc_spec (t := (t.store put).setSys σ₃) (n := 272) hown₃ (by decide)
  refine (hkmalloc.stop fun _ hfull => hfull.mono (by omega)).bind ?_
  rintro data _ ⟨σ₄, bs, rfl, hbs, hown₄⟩
  have hfits := hown₄.fits (List.mem_cons_self ..)
  dsimp only at hfits
  rw [hbs] at hfits
  have hpacket : ∀ (p n : ℕ) (xs : List UInt8), (⟨p, xs⟩ : Buffer) ∈ [⟨udp, udpHeader 68 67 252⟩,
      ⟨ipv4, ipv4Header [0, 0, 0, 0] [255, 255, 255, 255] 272⟩, ⟨dchpMessage, discovery txid t.macAddr⟩] →
      xs.length = n → 0 < n →
      p + n ≤ 2 ^ 32 ∧ (p + n ≤ data ∨ data + 272 ≤ p) ∧ bytesAt σ₄.heap.mem p n = xs := by
    rintro p _ xs hb rfl hpos
    have hapart := hown₄.apart_head (List.mem_append_left _ (List.mem_map_of_mem hb))
    dsimp only [Buffer.region] at hapart
    rw [hbs] at hapart
    exact ⟨hown₄.fits (List.mem_cons_of_mem _ hb), by omega, hown₄.holds _ (List.mem_cons_of_mem _ hb)⟩
  obtain ⟨hudpFits, hudpApart, hudpBytes⟩ := hpacket udp 8 _ (List.mem_cons_self ..) rfl (by decide)
  obtain ⟨hipv4Fits, hipv4Apart, hipv4Bytes⟩ := hpacket ipv4 20 _ (List.mem_cons_of_mem _ (List.mem_cons_self ..)) rfl
    (by decide)
  obtain ⟨hmsgFits, hmsgApart, hmsgBytes⟩ := hpacket dchpMessage 244 _
    (List.mem_cons_of_mem _ (List.mem_cons_of_mem _ (List.mem_singleton_self _))) length_discovery (by decide)
  -- The packets share no byte with `data`, so each copy leaves the ones after it as they are.
  have hgather := gather_spec (m := σ₄.heap.mem) hfits hipv4Fits hudpFits hmsgFits hipv4Apart hudpApart hmsgApart
  rw [hipv4Bytes, hudpBytes, hmsgBytes] at hgather
  let gather : Memory → Memory := fun m =>
    memcopy dchpMessage (data + 20 + 8) 244 (memcopy udp (data + 20) 8 (memcopy ipv4 data 20 m))
  have hown₅ := hown₄.fill (f := gather) hbs hgather
  have hlength : (ipv4Header [0, 0, 0, 0] [255, 255, 255, 255] 272 ++ udpHeader 68 67 252 ++
      discovery txid t.macAddr).length = 272 := by
    rw [List.length_append, length_discovery]
    rfl
  have hstores : ((((t.store put).setSys σ₄).store (memcopy ipv4 data 20)).store (memcopy udp (data + 20) 8)).store
      (memcopy dchpMessage (data + 20 + 8) 244) = (t.store put).setSys (σ₄.store gather) := by
    rw [Tx.store_setSys, Tx.store_setSys, Tx.store_setSys, Sys.store_store, Sys.store_store]
  have hsend := sendData_spec (t := (t.store put).setSys (σ₄.store gather)) hown₅ hlength hcur
  rw [← hstores] at hsend
  refine hsend.imp ?_
  rintro _ t' ⟨p, hown, hhanded⟩
  exact ⟨p, hown, hhanded.slot, hhanded.finger, hhanded.wire, hhanded.macAddr, hhanded.txCur⟩

theorem length_discoveryFrame (txid : ℕ) (macAddr : Mac) : (discoveryFrame txid macAddr).length = 286 := by
  rw [discoveryFrame, length_ethernetFrame, List.length_append, length_discovery]
  rfl

/-- `send_dchp_discovery` returns, unless fewer than six pages are free. The card has the discovery then, in a buffer of
its own; the buffers it came from are gone, and of what was live only the two addresses have changed. -/
theorem sendDchpDiscovery_sends {totalPages : ℕ} (txid : ℕ) (h₀ : HeapReach totalPages t.sys) (hr : r ∈ t.sys.live)
    (hlow : r.ptr ≤ locals) (hhigh : locals + 8 ≤ r.ptr + r.bytes) (hcur : t.txCur < 4) :
    ∃ L c, SysInv L c t.sys ∧
      Meets (Full L (SysInv.used L c t.sys + 6)) (sendDchpDiscovery locals txid t) fun _ t' => ∃ p,
        HeapReach totalPages t'.sys ∧ t'.sys.live.Perm (⟨p, 286, .object⟩ :: t.sys.live) ∧
          bytesAt t'.sys.heap.mem p 286 = discoveryFrame txid t.macAddr ∧ Handed t p 286 t' ∧
          ∀ q ∈ t.sys.live, ∀ a ∈ q.range, a ∉ Set.Ico locals (locals + 8) →
            t'.sys.heap.mem a = t.sys.heap.mem a := by
  obtain ⟨L, c, hi, -⟩ := h₀.sysInv
  have hend := hi.range_le hr
  have hwrite : Within (Set.Ico locals (locals + 8)) t.sys.heap.mem
      (storeList (2 ^ 32) t.sys.heap.mem locals [0, 0, 0, 0, 255, 255, 255, 255]) :=
    within_storeList_of_le (show locals + 8 ≤ 2 ^ 32 by omega) (Nat.le_refl _) (Nat.le_refl _)
  obtain ⟨hrun, -⟩ := hi.run_store (f := fun m => storeList (2 ^ 32) m locals [0, 0, 0, 0, 255, 255, 255, 255]) hr
    (hwrite.mono (Set.Ico_subset_Ico hlow hhigh))
  refine ⟨L, c, hi, (sendDchpDiscovery_spec txid hi hr hlow hhigh hcur).imp ?_⟩
  rintro _ t' ⟨p, hown, hhanded⟩
  have hlength := length_discoveryFrame txid t.macAddr
  have hbytes := hown.holds _ (List.mem_singleton_self _)
  have hlive := hown.live
  rw [List.map_singleton, Buffer.region] at hlive
  dsimp only at hbytes hlive
  rw [hlength] at hbytes hlive
  exact ⟨p, h₀.run (hrun.trans hown.run), hlive, hbytes, hhanded,
    fun q hq a ha hne => (hown.kept q hq a ha).trans (hwrite a hne)⟩

/-- After the start of the kernel the card gets a discovery; an object of 8 bytes holds the addresses. -/
theorem sendDchpDiscovery_sends_first : ∃ t t' p, HeapReach 114688 t.sys ∧
    sendDchpDiscovery p 0x3903F326 t = .ok () t' ∧ ∃ q, t'.card.slot 0 = some (pa q, 286) ∧
      bytesAt t'.sys.heap.mem q 286 = discoveryFrame 0x3903F326 t.macAddr := by
  obtain ⟨L, c, h, hst, hreach⟩ := heapReach_boot
  have hnum : L.numPages = 14336 := hst.numPages
  have hfirst : L.first ≤ 13312 := hst.first_le
  have hused : SysInv.used L c ⟨h, c.slabs, []⟩ = L.first + 27 := hst.used
  rcases hst.sysInv.kmalloc_used (show 8 ≤ maxSlabSize by decide) with ⟨p, h₁, c₁, hok, hi, hused₁⟩ | ⟨-, hfull⟩
  swap
  · omega
  let σ : Sys := ⟨h₁, kmallocSlabs 8 h c.slabs, [⟨p, 8, .object⟩]⟩
  let t : Tx := ⟨σ, ⟨fun _ => 0, fun _ => none, 0, []⟩, ⟨[0x52, 0x54, 0x00, 0x12, 0x34, 0x56], rfl⟩, 0⟩
  have hreach' : HeapReach 114688 t.sys := hreach.run (.single (.kmallocSmall (by decide) hok))
  have hmem : (⟨p, 8, .object⟩ : Region) ∈ t.sys.live := List.mem_singleton_self _
  have hcur : t.txCur < 4 := show 0 < 4 by decide
  -- there is enough memory left
  rcases sendDchpDiscovery_spec (t := t) 0x3903F326 hi hmem (Nat.le_refl p) (Nat.le_refl (p + 8)) hcur with
    ⟨_, t', hsent, -⟩ | ⟨msg, -, -, -, hfull⟩
  swap
  · have hless : L.numPages < SysInv.used L c₁ σ + 6 := hfull
    have hgrown : SysInv.used L c₁ σ ≤ SysInv.used L c ⟨h, c.slabs, []⟩ + 1 := hused₁
    omega
  obtain ⟨_, _, -, hmeets⟩ := sendDchpDiscovery_sends 0x3903F326 hreach' hmem (Nat.le_refl p)
    (Nat.le_refl (p + 8)) hcur
  rw [hsent] at hmeets
  obtain ⟨q, -, -, hbytes, hhanded, -⟩ := hmeets.of_ok
  refine ⟨t, t', p, hreach', hsent, q, ?_, hbytes⟩
  rw [hhanded.slot]
  exact Function.update_self _ _ _

end Discovery
end X86Osdev.Net

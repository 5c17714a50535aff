import X86Osdev.Library.OnesComplement
import X86Osdev.Mem.Slab

/-! The checksums and the headers of net/ipv4.c. -/

namespace X86Osdev.Net
open X86Osdev.Lib X86Osdev.Mem OnesComplement

def loadU16 (m : Memory) (a : ℕ) : ℕ := ByteMemory.load (2 ^ 32) m 2 a

def storeU16 (m : Memory) (a v : ℕ) : Memory := ByteMemory.store (2 ^ 32) m 2 a v

def switchEndian16 (nb : ℕ) : ℕ := (nb >>> 8 ||| nb <<< 8) % 2 ^ 16

def addU32 (a b : ℕ) : Option ℕ := some (u32 (a + b))

/-- The signed addition of the processor. -/
def addInt (a b : ℤ) : Option ℤ := some ((a + b + 0x80000000) % 0x100000000 - 0x80000000)

/-- None when the sum does not fit. -/
def checkedU32 (a b : ℕ) : Option ℕ := if a + b < 2 ^ 32 then some (a + b) else none

def checkedInt (a b : ℤ) : Option ℤ :=
  if -0x80000000 ≤ a + b ∧ a + b < 0x80000000 then some (a + b) else none

/-- The loop that both checksums begin with, up to where the pointer, the sum and the count end. -/
def addWords {α : Type} (add : α → ℕ → Option α) (m : Memory) : ℕ → α → ℕ → Option (ℕ × α × ℕ)
  | addr, sum, count + 2 =>
    (add sum (loadU16 m addr)).bind fun sum => addWords add m (addr + 2) sum count
  | addr, sum, count => some (addr, sum, count)

/-- `while (sum >> 16)`; none when it does not end within `fuel` turns. -/
def foldCarries (add : ℕ → ℕ → Option ℕ) : ℕ → ℕ → Option ℕ
  | 0, _ => none
  | fuel + 1, sum =>
    if sum >>> 16 = 0 then some sum
    else (add (sum &&& 0xffff) (sum >>> 16)).bind (foldCarries add fuel)

def computeChecksum (add : ℕ → ℕ → Option ℕ) (m : Memory) (addr count : ℕ) : Option ℕ :=
  (addWords add m addr 0 count).bind fun (addr, sum, count) =>
  (if count > 0 then add sum (loadU16 m addr &&& switchEndian16 0xFF00) else some sum).bind fun sum =>
  (foldCarries add (sum + 1) sum).map fun sum => (2 ^ 32 - 1 - sum) % 2 ^ 16

def ipv4Checksum (add : ℤ → ℤ → Option ℤ) (m : Memory) (addr len : ℕ) : Option ℕ :=
  (addWords (fun sum w => add sum w) m addr 0 len).bind fun (w, sum, nleft) =>
  (if nleft = 1 then add sum (load8 m w) else some sum).bind fun sum =>
  (add (sum / 0x10000) (sum % 0x10000)).bind fun sum =>
  (add sum (sum / 0x10000)).map fun sum => ((-sum - 1) % 0x10000).toNat

/-- The buffer as numbers; an odd byte at its end is the low byte of the last. -/
def words (m : Memory) : ℕ → ℕ → List ℕ
  | addr, len + 2 => loadU16 m addr :: words m (addr + 2) len
  | addr, 1 => [load8 m addr]
  | _, 0 => []

section Sums
variable {m : Memory} {addr len : ℕ}

theorem loadU16_lt (m : Memory) (a : ℕ) : loadU16 m a < 65536 := ByteMemory.load_lt m 2 a

theorem load8_lt (m : Memory) (a : ℕ) : load8 m a < 256 := ByteMemory.load_lt m 1 a

theorem words_lt (m : Memory) (addr len : ℕ) : ∀ w ∈ words m addr len, w < 65536 := by
  fun_induction words m addr len with
  | case1 addr len ih =>
    rw [List.forall_mem_cons]
    exact ⟨loadU16_lt m addr, ih⟩
  | case2 addr =>
    have hlt := load8_lt m addr
    rw [List.forall_mem_singleton]
    omega
  | case3 addr => simp

theorem length_words (m : Memory) (addr len : ℕ) : (words m addr len).length = (len + 1) / 2 := by
  fun_induction words m addr len with
  | case1 addr len ih =>
    rw [List.length_cons, ih]
    omega
  | case2 addr => rfl
  | case3 addr => rfl

theorem sum_words_lt (m : Memory) (addr : ℕ) (hlen : len ≤ 65535) :
    (words m addr len).sum < 2 ^ 31 := by
  have hle := List.sum_le_card_nsmul (words m addr len) 65535 fun w hw =>
    Nat.le_of_lt_succ (words_lt m addr len w hw)
  rw [length_words, Nat.nsmul_eq_mul] at hle
  omega

/-- What the loop leaves over of the buffer is the odd byte. -/
theorem addWords_eq {α : Type} (add : α → ℕ → Option α) (val : ℕ → α)
    (hadd : ∀ a b, a + b < 2 ^ 31 → add (val a) b = some (val (a + b))) (s : ℕ)
    (hs : s + (words m addr len).sum < 2 ^ 31) :
    ∃ addr' s' len', addWords add m addr (val s) len = some (addr', val s', len') ∧ len' < 2 ∧
      s' + (words m addr' len').sum = s + (words m addr len).sum := by
  fun_induction words m addr len generalizing s with
  | case1 addr len ih =>
    rw [List.sum_cons, ← Nat.add_assoc] at hs
    obtain ⟨addr', s', len', hrun, hlen, hsum⟩ := ih (s + loadU16 m addr) hs
    refine ⟨addr', s', len', ?_, hlen, ?_⟩
    · rw [addWords, hadd _ _ (by omega)]
      exact hrun
    · rw [hsum, List.sum_cons, Nat.add_assoc]
  | case2 addr => exact ⟨addr, s, 1, rfl, Nat.one_lt_two, rfl⟩
  | case3 addr => exact ⟨addr, s, 0, rfl, Nat.two_pos, rfl⟩

theorem loadU16_low (m : Memory) (a : ℕ) : loadU16 m a &&& switchEndian16 0xFF00 = load8 m a := by
  have hmask : switchEndian16 0xFF00 = 2 ^ 8 - 1 := by decide
  rw [hmask, Nat.and_two_pow_sub_one_eq_mod]
  unfold loadU16 load8
  simp only [ByteMemory.load]
  have hlt := (m (a % 2 ^ 32)).toNat_lt
  omega

def ExactU32 (add : ℕ → ℕ → Option ℕ) : Prop := ∀ a b, a + b < 2 ^ 31 → add a b = some (a + b)

def ExactInt (add : ℤ → ℤ → Option ℤ) : Prop :=
  ∀ a b : ℕ, a + b < 2 ^ 31 → add a b = some ((a + b : ℕ) : ℤ)

theorem foldCarries_eq {add : ℕ → ℕ → Option ℕ} (hadd : ExactU32 add) {fuel n : ℕ} (hf : n < fuel)
    (hn : n < 2 ^ 31) : foldCarries add fuel n = some (reduce 65536 n) := by
  induction fuel generalizing n with
  | zero => omega
  | succ fuel ih =>
    rw [foldCarries, Nat.shiftRight_eq_div_pow]
    by_cases hq : n / 2 ^ 16 = 0
    · rw [if_pos hq, reduce_of_lt (by decide) (by omega)]
    · have hmask : n &&& 0xffff = n % 2 ^ 16 := Nat.and_two_pow_sub_one_eq_mod n 16
      have hfold : n % 2 ^ 16 + n / 2 ^ 16 = fold 65536 n := rfl
      have hlt := fold_lt (B := 65536) (by decide) (show 65536 ≤ n by omega)
      rw [if_neg hq, hmask, hadd _ _ (by omega), Option.bind_some, hfold, ih (by omega) (by omega),
        reduce_fold (by decide)]

/-- The one's complement of the one's complement sum of the buffer. -/
def checksum (m : Memory) (addr len : ℕ) : ℕ := complement 65536 (sum 65536 (words m addr len))

theorem checksum_eq (m : Memory) (addr len : ℕ) :
    checksum m addr len = complement 65536 (reduce 65536 (words m addr len).sum) := by
  unfold checksum
  rw [sum_eq_reduce (by decide) (words_lt m addr len)]

theorem computeChecksum_eq {add : ℕ → ℕ → Option ℕ} (hadd : ExactU32 add) (hlen : len ≤ 65535) :
    computeChecksum add m addr len = some (checksum m addr len) := by
  have hsum := sum_words_lt m addr hlen
  obtain ⟨addr', s, len', hrun, hlen', hs⟩ := addWords_eq add id hadd 0 (by rwa [Nat.zero_add])
  rw [Nat.zero_add] at hs
  have hlast : (if len' > 0 then add s (loadU16 m addr' &&& switchEndian16 0xFF00) else some s) =
      some (words m addr len).sum := by
    obtain rfl | rfl : len' = 0 ∨ len' = 1 := by omega
    · rw [if_neg (by decide)]
      exact congrArg some hs
    · have hsum' : s + load8 m addr' = (words m addr len).sum := hs
      rw [if_pos (by decide), loadU16_low, hadd _ _ (by omega), hsum']
  have hred := reduce_lt (B := 65536) (by decide) (words m addr len).sum
  unfold computeChecksum
  rw [show (0 : ℕ) = id 0 from rfl, hrun, Option.bind_some]
  dsimp only [id]
  rw [hlast, Option.bind_some, foldCarries_eq hadd (Nat.lt_succ_self _) hsum, Option.map_some, checksum_eq]
  unfold complement
  congr 1
  omega

theorem ipv4Checksum_eq {add : ℤ → ℤ → Option ℤ} (hadd : ExactInt add) (hlen : len ≤ 65535) :
    ipv4Checksum add m addr len = some (checksum m addr len) := by
  have hsum := sum_words_lt m addr hlen
  obtain ⟨addr', s, len', hrun, hlen', hs⟩ := addWords_eq (fun sum w => add sum w)
    (fun n : ℕ => (n : ℤ)) hadd 0 (by rwa [Nat.zero_add])
  rw [Nat.zero_add] at hs
  generalize hn : (words m addr len).sum = n at hs hsum
  have hlast : (if len' = 1 then add s (load8 m addr') else some (s : ℤ)) = some (n : ℤ) := by
    obtain rfl | rfl : len' = 0 ∨ len' = 1 := by omega
    · rw [if_neg (by decide)]
      exact congrArg (fun n : ℕ => some (n : ℤ)) hs
    · have hsum' : s + load8 m addr' = n := hs
      rw [if_pos rfl, hadd _ _ (by omega), hsum']
  -- the first fold in the order of the source, the second without its mask
  have hfirst : add ((n : ℤ) / 0x10000) ((n : ℤ) % 0x10000) = some ((fold 65536 n : ℕ) : ℤ) := by
    have hexact := hadd (n / 65536) (n % 65536) (by omega)
    rw [Nat.add_comm] at hexact
    exact_mod_cast hexact
  have hfold : fold 65536 n < 131072 := by
    unfold fold
    omega
  have hsecond : add (fold 65536 n : ℕ) (((fold 65536 n : ℕ) : ℤ) / 0x10000) =
      some ((fold 65536 n + fold 65536 n / 65536 : ℕ) : ℤ) := by
    have hexact := hadd (fold 65536 n) (fold 65536 n / 65536) (by omega)
    exact_mod_cast hexact
  have htwice := fold_fold (B := 65536) (by decide) (n := n) (by omega)
  have hred := reduce_lt (B := 65536) (by decide) n
  unfold ipv4Checksum
  rw [show (0 : ℤ) = ((0 : ℕ) : ℤ) from rfl, hrun, Option.bind_some]
  dsimp only
  rw [hlast, Option.bind_some, hfirst, Option.bind_some, hsecond, Option.map_some, checksum_eq, hn,
    ← htwice]
  rw [← htwice] at hred
  unfold fold complement at *
  congr 1
  omega

theorem exactU32_addU32 : ExactU32 addU32 := by
  intro a b h
  have hlt : a + b < 2 ^ 32 := by omega
  exact congrArg some (u32_of_lt hlt)

/-- Both routines compute the checksum, and neither of their accumulators overflows. -/
theorem checksums_agree (m : Memory) (addr : ℕ) (hlen : len ≤ 65535) :
    computeChecksum addU32 m addr len = some (checksum m addr len) ∧
      ipv4Checksum addInt m addr len = some (checksum m addr len) ∧
      computeChecksum checkedU32 m addr len = some (checksum m addr len) ∧
      ipv4Checksum checkedInt m addr len = some (checksum m addr len) := by
  refine ⟨computeChecksum_eq ?_ hlen, ipv4Checksum_eq ?_ hlen, computeChecksum_eq ?_ hlen,
    ipv4Checksum_eq ?_ hlen⟩
  · exact exactU32_addU32
  · intro a b h
    unfold addInt
    refine congrArg some ?_
    omega
  · intro a b h
    exact if_pos (by omega)
  · intro a b h
    exact if_pos (by omega)

theorem checksums_agree_odd : ∃ c, computeChecksum addU32 (fun _ => 0xFF) 0x1000 65535 = some c ∧
    ipv4Checksum addInt (fun _ => 0xFF) 0x1000 65535 = some c := by
  obtain ⟨hcompute, hipv4, -⟩ := checksums_agree (fun _ => 0xFF) 0x1000 (show 65535 ≤ 65535 by decide)
  exact ⟨_, hcompute, hipv4⟩

end Sums

/-- A bit field of `n` bits from bit `lo` on in the number of `w` bytes at `a`. -/
def storeBits (w a lo n v : ℕ) (m : Memory) : Memory :=
  let x := ByteMemory.load (2 ^ 32) m w a
  ByteMemory.store (2 ^ 32) m w a (x % 2 ^ lo + v % 2 ^ n * 2 ^ lo + x / 2 ^ (lo + n) * 2 ^ (lo + n))

def sizeofIPv4Header : ℕ := 20

/-- The fields of the new header but for its checksum, in the order in which they are written. -/
def fillHeader (ip srcIp destIp len : ℕ) (m : Memory) : Memory :=
  let m := storeBits 1 ip 4 4 4 m
  let m := storeBits 1 ip 0 4 5 m
  let m := storeBits 1 (ip + 1) 0 6 0 m
  let m := storeBits 1 (ip + 1) 6 2 0 m
  let m := storeU16 m (ip + 2) (switchEndian16 (len % 2 ^ 16))
  let m := storeU16 m (ip + 4) 0
  let m := storeBits 1 (ip + 6) 0 3 0 m
  let m := storeBits 2 (ip + 6) 3 13 0 m
  let m := storeU16 m (ip + 10) 0
  let m := store8 m (ip + 8) 10
  let m := store8 m (ip + 9) 0x11
  let m := store8 m (ip + 12) (load8 m srcIp)
  let m := store8 m (ip + 13) (load8 m (srcIp + 1))
  let m := store8 m (ip + 14) (load8 m (srcIp + 2))
  let m := store8 m (ip + 15) (load8 m (srcIp + 3))
  let m := store8 m (ip + 16) (load8 m destIp)
  let m := store8 m (ip + 17) (load8 m (destIp + 1))
  let m := store8 m (ip + 18) (load8 m (destIp + 2))
  store8 m (ip + 19) (load8 m (destIp + 3))

def ihl (m : Memory) (ip : ℕ) : ℕ := load8 m ip % 2 ^ 4

def createIpv4Header (srcIp destIp len : ℕ) (h : Heap) : Outcome Heap ℕ :=
  (kmalloc sizeofIPv4Header h).bind fun ip h =>
  let h := { h with mem := fillHeader ip srcIp destIp len h.mem }
  match computeChecksum addU32 h.mem ip (4 * ihl h.mem ip) with
  | none => .hang h
  | some c => .ok ip { h with mem := storeU16 h.mem (ip + 10) c }

section Headers
variable {m : Memory} {addr ip srcIp destIp len n i c : ℕ}

theorem words_even (m : Memory) (addr n : ℕ) :
    words m addr (2 * n) = (List.range n).map fun j => loadU16 m (addr + 2 * j) := by
  induction n generalizing addr with
  | zero => rfl
  | succ n ih =>
    rw [Nat.mul_succ, words, ih, List.range_succ_eq_map, List.map_cons, List.map_map]
    refine congrArg _ (List.map_congr_left fun j _ => ?_)
    exact congrArg (loadU16 m) (by simp; omega)

theorem words_store (hn : 2 * n ≤ 65535) (hi : i < n) (hc : c < 65536) :
    words (storeU16 m (addr + 2 * i) c) addr (2 * n) = (words m addr (2 * n)).set i c := by
  rw [words_even, words_even]
  refine List.ext_getElem (by simp) fun j hj _ => ?_
  have hjn : j < n := by simpa using hj
  rw [List.getElem_set, List.getElem_map, List.getElem_map, List.getElem_range]
  unfold loadU16 storeU16
  split
  · next h =>
    subst h
    rw [ByteMemory.load_store_same (by decide)]
    exact Nat.mod_eq_of_lt hc
  · exact ByteMemory.load_store_offset (by omega) (by omega) (by omega)

theorem checksum_lt (m : Memory) (addr len : ℕ) : checksum m addr len < 65536 := by
  unfold checksum complement
  omega

/-- A buffer whose checksum word was zero adds up to all ones with its checksum there. -/
theorem sum_words_checksum (hn : 2 * n ≤ 65535) (hi : i < n) (hzero : loadU16 m (addr + 2 * i) = 0) :
    sum 65536 (words (storeU16 m (addr + 2 * i) (checksum m addr (2 * n))) addr (2 * n)) = 0xFFFF := by
  have hlt := checksum_lt m addr (2 * n)
  rw [sum_eq_reduce (by decide) (words_lt _ addr _), words_store hn hi hlt]
  have hsplit : ((words m addr (2 * n)).set i (checksum m addr (2 * n))).sum =
      (words m addr (2 * n)).sum + checksum m addr (2 * n) := by
    have hlen : i < (words m addr (2 * n)).length := by
      rw [length_words]
      omega
    have hget : (words m addr (2 * n))[i] = 0 := by
      simpa [words_even] using hzero
    have hsame : (words m addr (2 * n)).set i 0 = words m addr (2 * n) := by
      rw [← hget]
      exact List.set_getElem_self hlen
    have hold := List.sum_set (words m addr (2 * n)) i 0
    rw [hsame] at hold
    rw [List.sum_set, hold, if_pos hlen, if_pos hlen]
    omega
  rw [hsplit, checksum_eq, reduce_add_complement (by decide)]

theorem fillHeader_checksum (ip srcIp destIp len : ℕ) (m : Memory) :
    loadU16 (fillHeader ip srcIp destIp len m) (ip + 10) = 0 := by
  unfold fillHeader store8 storeU16 loadU16
  simp (disch := omega) only [ByteMemory.load_store_offset, ByteMemory.load_store_same]
  rfl

theorem fillHeader_ihl (ip srcIp destIp len : ℕ) (m : Memory) :
    ihl (fillHeader ip srcIp destIp len m) ip = 5 := by
  show ByteMemory.load (2 ^ 32) (fillHeader ip srcIp destIp len m) 1 (ip + 0) % 2 ^ 4 = 5
  unfold fillHeader storeBits store8 storeU16
  simp (disch := omega) only [ByteMemory.load_store_offset]
  show ByteMemory.load (2 ^ 32) (ByteMemory.store (2 ^ 32) _ 1 ip _) 1 ip % 2 ^ 4 = 5
  rw [ByteMemory.load_store_same (by decide)]
  omega

/-- Every header that `create_ipv4_header` returns adds up to all ones, and so does every buffer with its
checksum in one of its words. -/
theorem ipv4_headers_verify :
    (∀ srcIp destIp len h, ∃ fill : ℕ → Heap → Memory,
      createIpv4Header srcIp destIp len h = ((kmalloc sizeofIPv4Header h).bind fun ip h =>
        .ok ip { h with mem := fill ip h }) ∧
      ∀ ip h, sum 65536 (words (fill ip h) ip sizeofIPv4Header) = 0xFFFF) ∧
    ∀ (m : Memory) (addr n i : ℕ), 2 * n ≤ 65534 → i < n →
      ∃ c, computeChecksum addU32 (storeU16 m (addr + 2 * i) 0) addr (2 * n) = some c ∧
        computeChecksum addU32 (storeU16 (storeU16 m (addr + 2 * i) 0) (addr + 2 * i) c) addr (2 * n) =
          some 0 := by
  refine ⟨fun srcIp destIp len h => ?_, fun m addr n i hn hi => ?_⟩
  · refine ⟨fun ip h => storeU16 (fillHeader ip srcIp destIp len h.mem) (ip + 10)
      (checksum (fillHeader ip srcIp destIp len h.mem) ip 20), ?_, fun ip h => ?_⟩
    · unfold createIpv4Header
      congr 1
      funext ip h
      dsimp only
      rw [fillHeader_ihl, computeChecksum_eq exactU32_addU32 (by decide)]
    · exact sum_words_checksum (n := 10) (i := 5) (by decide) (by decide)
        (fillHeader_checksum ip srcIp destIp len h.mem)
  · have hzero : loadU16 (storeU16 m (addr + 2 * i) 0) (addr + 2 * i) = 0 :=
      ByteMemory.load_store_same (by decide)
    have hones := sum_words_checksum (by omega) hi hzero
    refine ⟨_, computeChecksum_eq exactU32_addU32 (by omega), ?_⟩
    rw [computeChecksum_eq exactU32_addU32 (by omega)]
    unfold checksum at hones ⊢
    rw [hones]
    rfl

def headerBytes : List UInt8 :=
  [0x45, 0, 0, 0x3C, 0x1C, 0x46, 0x40, 0, 0x40, 6, 0, 0, 172, 16, 10, 99, 172, 16, 10, 12]

def headerMemory : Memory := fun a => headerBytes.getD (a - 0x1000) 0

theorem ipv4_headers_verify_header : ∃ c,
    computeChecksum addU32 (storeU16 headerMemory (0x1000 + 2 * 5) 0) 0x1000 (2 * 10) = some c ∧
      computeChecksum addU32 (storeU16 (storeU16 headerMemory (0x1000 + 2 * 5) 0) (0x1000 + 2 * 5) c)
        0x1000 (2 * 10) = some 0 :=
  ipv4_headers_verify.2 headerMemory 0x1000 10 5 (by decide) (by decide)

end Headers

end X86Osdev.Net

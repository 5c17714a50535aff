import X86Osdev.Library.Acyclic
import X86Osdev.Library.FirstFound
import Mathlib.Logic.Relation
import Mathlib.Order.Interval.Finset.Nat

/-! Enumeration of the PCI buses in drivers/pci.c. -/

namespace X86Osdev.Drivers
open FirstFound Acyclic Relation

/-- The bit fields of `pci_dev_t` that name a function; the others are set for a single access. -/
@[ext] structure PciDev where
  bus : Fin 256
  device : Fin 32
  function : Fin 8
deriving DecidableEq

namespace PciDev

def bits (d : PciDev) : ℕ := d.function.val <<< 8 ||| d.device.val <<< 11 ||| d.bus.val <<< 16

/-- The assignments to the fields of a zero `pci_dev_t`, which cut the values off. -/
def ofNumbers (bus device function : ℕ) : PciDev :=
  ⟨Fin.ofNat 256 bus, Fin.ofNat 32 device, Fin.ofNat 8 function⟩

end PciDev

def devZero : PciDev := .ofNumbers 0 0 0

def pciVendorId : ℕ := 0x00
def pciDeviceId : ℕ := 0x02
def pciCommand : ℕ := 0x04
def pciStatus : ℕ := 0x06
def pciSubclass : ℕ := 0x0a
def pciClass : ℕ := 0x0b
def pciCacheLineSize : ℕ := 0x0c
def pciLatencyTimer : ℕ := 0x0d
def pciHeaderType : ℕ := 0x0e
def pciBist : ℕ := 0x0f
def pciBar0 : ℕ := 0x10
def pciBar5 : ℕ := 0x24
def pciInterruptLine : ℕ := 0x3C
def pciSecondaryBus : ℕ := 0x09

def pciTypeBridge : ℕ := 0x0604
def pciNone : ℕ := 0xFFFF
def devicePerBus : ℕ := 32
def functionPerDevice : ℕ := 32

/-- `pci_size_map` after `pci_init`. -/
def pciSizeMap (field : ℕ) : ℕ :=
  if field ∈ [pciVendorId, pciDeviceId, pciCommand, pciStatus] then 2
  else if field ∈ [pciSubclass, pciClass, pciCacheLineSize, pciLatencyTimer, pciHeaderType, pciBist,
    pciInterruptLine, pciSecondaryBus] then 1
  else if pciBar0 ≤ field ∧ field ≤ pciBar5 ∧ field % 4 = 0 then 4
  else 0

/-- The registers of the functions that are there. A vendor id of all ones means that none is. -/
structure ConfigSpace where
  registers : PciDev → Option (ℕ → UInt8)
  vendor : ∀ dev r, registers dev = some r → (r 0).toNat + 256 * (r 1).toNat ≠ pciNone

/-- All lines are high when nothing answers. -/
def ConfigSpace.byte (c : ConfigSpace) (dev : PciDev) (offset : ℕ) : ℕ :=
  match c.registers dev with
  | none => 0xFF
  | some r => (r offset).toNat

def pciRead (c : ConfigSpace) (dev : PciDev) (field : ℕ) : ℕ :=
  let a := field &&& 0xFC
  if pciSizeMap field = 1 then c.byte dev (a + (field &&& 3))
  else if pciSizeMap field = 2 then
    c.byte dev (a + (field &&& 2)) + 256 * c.byte dev (a + (field &&& 2) + 1)
  else if pciSizeMap field = 4 then
    c.byte dev a + 256 * (c.byte dev (a + 1) + 256 * (c.byte dev (a + 2) + 256 * c.byte dev (a + 3)))
  else 0xFFFF

def getDeviceType (c : ConfigSpace) (dev : PciDev) : ℕ :=
  pciRead c dev pciClass <<< 8 ||| pciRead c dev pciSubclass

def getSecondaryBus (c : ConfigSpace) (dev : PciDev) : ℕ := pciRead c dev pciSecondaryBus

def pciReachEnd (c : ConfigSpace) (dev : PciDev) : Bool := pciRead c dev pciHeaderType = 0

/-- `t.bits` as a condition. -/
def foundDev (t : PciDev) : Bool := t.bits ≠ 0

/-- The test at the end of `pci_scan_function`. -/
def matchesDev (c : ConfigSpace) (vendorId deviceId : ℕ) (deviceType : ℤ) (dev : PciDev) : Bool :=
  (deviceType = -1 ∨ deviceType % 0x100000000 = getDeviceType c dev) ∧
    pciRead c dev pciDeviceId = deviceId ∧ vendorId = pciRead c dev pciVendorId

section Scans
variable (c : ConfigSpace) (vendorId deviceId : ℕ) (deviceType : ℤ)

/-- What the scan behind a bridge gives is not used. -/
def pciScanFunction (scanBus : ℕ → Option PciDev) (bus device function : ℕ) : Option PciDev :=
  let dev := PciDev.ofNumbers bus device function
  (if getDeviceType c dev = pciTypeBridge then scanBus (getSecondaryBus c dev)
    else some devZero).map fun _ =>
      if matchesDev c vendorId deviceId deviceType dev then dev else devZero

/-- The loop asks function 0 each time whether it is there. -/
def pciScanDevice (scanBus : ℕ → Option PciDev) (bus device : ℕ) : Option PciDev :=
  let dev := PciDev.ofNumbers bus device 0
  if pciRead c dev pciVendorId = pciNone then some devZero
  else
    (pciScanFunction c vendorId deviceId deviceType scanBus bus device 0).bind fun t =>
      if foundDev t then some t
      else if pciReachEnd c dev then some devZero
      else firstFound foundDev devZero
        (fun function =>
          if pciRead c dev pciVendorId ≠ pciNone then
            pciScanFunction c vendorId deviceId deviceType scanBus bus device function
          else some devZero)
        (List.range' 1 (functionPerDevice - 1))

/-- `pci_scan_bus`, with a bound on the depth of the calls. -/
def pciScanBus : ℕ → ℕ → Option PciDev
  | 0, _ => none
  | n + 1, bus =>
    firstFound foundDev devZero
      (fun device => pciScanDevice c vendorId deviceId deviceType (pciScanBus n) bus device)
      (List.range devicePerBus)

/-- The loop of `pci_get_device`: one bus for each host controller. -/
def hostLoop (scanBus : ℕ → Option PciDev) : List ℕ → Option PciDev
  | [] => some devZero
  | function :: functions =>
    if pciRead c (.ofNumbers 0 0 function) pciVendorId = pciNone then some devZero
    else (scanBus function).bind fun t =>
      if foundDev t then some t else hostLoop scanBus functions

def pciGetDevice (n : ℕ) : Option PciDev :=
  (pciScanBus c vendorId deviceId deviceType n 0).bind fun t =>
    if foundDev t then some t
    else hostLoop c (pciScanBus c vendorId deviceId deviceType n)
      (List.range' 1 (functionPerDevice - 1))

end Scans

/-- The register of a bridge for the bus behind it. -/
def secondaryBusRegister : ℕ := 0x19

def isBridge (c : ConfigSpace) (dev : PciDev) : Prop :=
  (c.registers dev).isSome ∧ getDeviceType c dev = pciTypeBridge

def Behind (c : ConfigSpace) (bus bus' : ℕ) : Prop :=
  ∃ dev, isBridge c dev ∧ dev.bus.val = bus ∧ c.byte dev secondaryBusRegister = bus'

def Attached (c : ConfigSpace) : ℕ → Prop := Relation.ReflTransGen (Behind c) 0

/-- No bridge leads to bus 0, and no two to one bus. -/
structure BusTree (c : ConfigSpace) : Prop where
  root : ∀ bus, ¬ Behind c bus 0
  once : ∀ dev dev', isBridge c dev → isBridge c dev' →
    c.byte dev secondaryBusRegister = c.byte dev' secondaryBusRegister → dev = dev'

def HasIds (c : ConfigSpace) (vendorId deviceId : ℕ) (dev : PciDev) : Prop :=
  (c.registers dev).isSome ∧ pciRead c dev pciVendorId = vendorId ∧
    pciRead c dev pciDeviceId = deviceId

def Sits (c : ConfigSpace) (vendorId deviceId : ℕ) (dev : PciDev) : Prop :=
  Attached c dev.bus ∧ HasIds c vendorId deviceId dev

/-- The call returns, with the address of such a function if there is one, and with zero only if not. -/
def Enumerates (c : ConfigSpace) (vendorId deviceId : ℕ) : Prop :=
  ∃ t, (∃ n, pciGetDevice c vendorId deviceId (-1) n = some t) ∧
    ((∃ dev, Sits c vendorId deviceId dev) → HasIds c vendorId deviceId t) ∧
    (t.bits = 0 → ¬ ∃ dev, Sits c vendorId deviceId dev)

section Scanned
variable (c : ConfigSpace) (vendorId deviceId : ℕ) (deviceType : ℤ)

/-- The functions of a device in the order of the scan. With a header type other than 0, all numbers are
tried, each four times. -/
def functionsOf (bus device : ℕ) : List PciDev :=
  let dev := PciDev.ofNumbers bus device 0
  if pciRead c dev pciVendorId = pciNone then []
  else if pciReachEnd c dev then [dev]
  else dev :: (List.range' 1 (functionPerDevice - 1)).map (PciDev.ofNumbers bus device)

def functionsOn (bus : ℕ) : List PciDev := (List.range devicePerBus).flatMap (functionsOf c bus)

def hostBuses : List ℕ :=
  0 :: (List.range' 1 (functionPerDevice - 1)).takeWhile fun function =>
    pciRead c (.ofNumbers 0 0 function) pciVendorId ≠ pciNone

def ownResult (dev : PciDev) : PciDev :=
  if matchesDev c vendorId deviceId deviceType dev then dev else devZero

def busResult (bus : ℕ) : PciDev :=
  pick foundDev devZero (ownResult c vendorId deviceId deviceType) (functionsOn c bus)

def sought (dev : PciDev) : Bool := matchesDev c vendorId deviceId deviceType dev && foundDev dev

def visited (bus : ℕ) : List PciDev :=
  upTo (sought c vendorId deviceId deviceType) (functionsOn c bus)

def scannedBuses : List ℕ :=
  upTo (fun bus => (functionsOn c bus).any (sought c vendorId deviceId deviceType)) (hostBuses c)

/-- The scan of a bus goes on to the scan of another one. -/
def Enters (bus bus' : ℕ) : Prop :=
  ∃ dev ∈ visited c vendorId deviceId deviceType bus,
    getDeviceType c dev = pciTypeBridge ∧ getSecondaryBus c dev = bus'

end Scanned

section Scan
variable {c : ConfigSpace} {vendorId deviceId : ℕ} {deviceType : ℤ} {n bus : ℕ} {t : PciDev}

theorem bits_devZero : foundDev devZero = false := by decide

theorem foundDev_iff {t : PciDev} : foundDev t = true ↔ t ≠ devZero := by
  rw [foundDev, decide_eq_true_iff, not_iff_not]
  constructor
  · intro h
    rw [PciDev.bits, Nat.or_eq_zero_iff, Nat.or_eq_zero_iff, Nat.shiftLeft_eq_zero_iff,
      Nat.shiftLeft_eq_zero_iff, Nat.shiftLeft_eq_zero_iff] at h
    exact PciDev.ext (Fin.ext h.2) (Fin.ext h.1.2) (Fin.ext h.1.1)
  · rintro rfl
    rfl

/-- `pci_scan_function` on a function given by its address. -/
def visit (c : ConfigSpace) (vendorId deviceId : ℕ) (deviceType : ℤ) (scanBus : ℕ → Option PciDev)
    (dev : PciDev) : Option PciDev :=
  (if getDeviceType c dev = pciTypeBridge then scanBus (getSecondaryBus c dev)
    else some devZero).map fun _ => ownResult c vendorId deviceId deviceType dev

theorem pciScanDevice_eq (scanBus : ℕ → Option PciDev) (bus device : ℕ) :
    pciScanDevice c vendorId deviceId deviceType scanBus bus device =
      firstFound foundDev devZero (visit c vendorId deviceId deviceType scanBus)
        (functionsOf c bus device) := by
  unfold pciScanDevice functionsOf
  by_cases hnone : pciRead c (.ofNumbers bus device 0) pciVendorId = pciNone
  · rw [if_pos hnone, if_pos hnone]
    rfl
  · rw [if_neg hnone, if_neg hnone]
    simp only [if_pos hnone]
    by_cases hend : pciReachEnd c (.ofNumbers bus device 0)
    · rw [if_pos hend]
      simp only [if_pos hend]
      rfl
    · rw [if_neg hend]
      simp only [if_neg hend]
      rw [firstFound, firstFound_map]
      rfl

theorem pciScanBus_succ (n bus : ℕ) : pciScanBus c vendorId deviceId deviceType (n + 1) bus =
    firstFound foundDev devZero
      (visit c vendorId deviceId deviceType (pciScanBus c vendorId deviceId deviceType n))
      (functionsOn c bus) := by
  rw [pciScanBus, functionsOn, ← firstFound_flatMap bits_devZero]
  exact congrArg (fun call => firstFound foundDev devZero call _) (funext fun _ => pciScanDevice_eq _ _ _)

theorem hostLoop_eq (scanBus : ℕ → Option PciDev) (functions : List ℕ) :
    hostLoop c scanBus functions = firstFound foundDev devZero scanBus
      (functions.takeWhile fun function => pciRead c (.ofNumbers 0 0 function) pciVendorId ≠ pciNone) := by
  induction functions with
  | nil => rfl
  | cons function functions ih =>
    rw [hostLoop, List.takeWhile_cons]
    by_cases hnone : pciRead c (.ofNumbers 0 0 function) pciVendorId = pciNone
    · rw [if_pos hnone, if_neg (by rw [decide_eq_true_iff]; exact not_not_intro hnone)]
      rfl
    · rw [if_neg hnone, if_pos (by rw [decide_eq_true_iff]; exact hnone), firstFound, ih]

theorem pciGetDevice_eq (n : ℕ) : pciGetDevice c vendorId deviceId deviceType n =
    firstFound foundDev devZero (pciScanBus c vendorId deviceId deviceType n) (hostBuses c) := by
  rw [pciGetDevice, hostLoop_eq]
  rfl

theorem foundDev_ownResult : (fun dev => foundDev (ownResult c vendorId deviceId deviceType dev)) =
    sought c vendorId deviceId deviceType := by
  funext dev
  rw [ownResult, sought]
  by_cases hm : matchesDev c vendorId deviceId deviceType dev
  · rw [if_pos hm, hm, Bool.true_and]
  · rw [if_neg hm, Bool.eq_false_iff.mpr hm, Bool.false_and, bits_devZero]

theorem foundDev_busResult : (fun bus => foundDev (busResult c vendorId deviceId deviceType bus)) =
    fun bus => (functionsOn c bus).any (sought c vendorId deviceId deviceType) := by
  funext bus
  rw [Bool.eq_iff_iff, busResult, hit_pick bits_devZero, List.any_eq_true, ← foundDev_ownResult]

theorem visit_result {scanBus : ℕ → Option PciDev} (dev : PciDev)
    (h : visit c vendorId deviceId deviceType scanBus dev = some t) :
    t = ownResult c vendorId deviceId deviceType dev := by
  obtain ⟨_, -, ht⟩ := Option.map_eq_some_iff.mp h
  exact ht.symm

theorem visit_imp {scanBus scanBus' : ℕ → Option PciDev} (dev : PciDev)
    (hscan : ∀ bus t, scanBus bus = some t → scanBus' bus = some t)
    (h : visit c vendorId deviceId deviceType scanBus dev = some t) :
    visit c vendorId deviceId deviceType scanBus' dev = some t := by
  unfold visit at h ⊢
  by_cases hb : getDeviceType c dev = pciTypeBridge
  · rw [if_pos hb] at h ⊢
    obtain ⟨u, hu, ht⟩ := Option.map_eq_some_iff.mp h
    rw [hscan _ u hu, Option.map_some, ht]
  · rwa [if_neg hb] at h ⊢

theorem pciScanBus_mono : FuelMono (pciScanBus c vendorId deviceId deviceType) := by
  intro n m bus t hnm h
  induction n generalizing m bus t with
  | zero => cases h
  | succ n ih =>
    obtain ⟨m, rfl⟩ : ∃ k, m = k + 1 := ⟨m - 1, by omega⟩
    rw [pciScanBus_succ] at h ⊢
    refine firstFound_imp (fun dev t => visit_imp dev fun bus t => ?_) h
    exact ih m bus t (by omega)

theorem visit_mono : FuelMono fun n =>
    visit c vendorId deviceId deviceType (pciScanBus c vendorId deviceId deviceType n) :=
  fun n m dev _ hnm => visit_imp dev fun bus t => pciScanBus_mono n m bus t hnm

/-- The scan of a bus that returns has entered no bus twice in one chain of calls. -/
theorem Enters.acc (h : pciScanBus c vendorId deviceId deviceType n bus = some t) :
    Acc (fun b' b => Enters c vendorId deviceId deviceType b b') bus ∧
      t = busResult c vendorId deviceId deviceType bus := by
  induction n generalizing bus t with
  | zero => cases h
  | succ n ih =>
    rw [pciScanBus_succ] at h
    obtain ⟨hall, ht⟩ := firstFound_some (fun dev t => visit_result dev) h
    rw [foundDev_ownResult] at hall
    refine ⟨Acc.intro bus ?_, ht⟩
    rintro bus' ⟨dev, hdev, hb, rfl⟩
    obtain ⟨u, hu⟩ := hall dev hdev
    unfold visit at hu
    rw [if_pos hb] at hu
    obtain ⟨v, hv, -⟩ := Option.map_eq_some_iff.mp hu
    exact (ih hv).1

theorem Enters.not_acc (h : Enters c vendorId deviceId deviceType bus bus) :
    ¬ Acc (fun b' b => Enters c vendorId deviceId deviceType b b') bus := by
  intro hacc
  induction hacc with
  | intro bus _ ih => exact ih bus h h

theorem pciScanBus_of_acc (h : Acc (fun b' b => Enters c vendorId deviceId deviceType b b') bus) :
    ∃ n, pciScanBus c vendorId deviceId deviceType n bus =
      some (busResult c vendorId deviceId deviceType bus) := by
  induction h with
  | intro bus _ ih =>
    have hvisit : ∀ dev ∈ visited c vendorId deviceId deviceType bus, ∃ n u,
        visit c vendorId deviceId deviceType (pciScanBus c vendorId deviceId deviceType n) dev =
          some u := by
      intro dev hdev
      by_cases hb : getDeviceType c dev = pciTypeBridge
      · obtain ⟨n, hn⟩ := ih _ ⟨dev, hdev, hb, rfl⟩
        refine ⟨n, ownResult c vendorId deviceId deviceType dev, ?_⟩
        rw [visit, if_pos hb, hn, Option.map_some]
      · refine ⟨0, ownResult c vendorId deviceId deviceType dev, ?_⟩
        rw [visit, if_neg hb, Option.map_some]
    rw [visited, ← foundDev_ownResult] at hvisit
    obtain ⟨n, hn⟩ := firstFound_fuel visit_mono (fun n dev t => visit_result dev) hvisit
    refine ⟨n + 1, ?_⟩
    rw [pciScanBus_succ]
    exact hn

def answer (c : ConfigSpace) (vendorId deviceId : ℕ) (deviceType : ℤ) : PciDev :=
  pick foundDev devZero (busResult c vendorId deviceId deviceType) (hostBuses c)

theorem pciGetDevice_returns : (∃ n, pciGetDevice c vendorId deviceId deviceType n = some t) ↔
    (∀ bus ∈ scannedBuses c vendorId deviceId deviceType,
      Acc (fun b' b => Enters c vendorId deviceId deviceType b b') bus) ∧
      t = answer c vendorId deviceId deviceType := by
  simp only [pciGetDevice_eq]
  rw [firstFound_returns pciScanBus_mono fun n bus t h => (Enters.acc h).2, foundDev_busResult]
  refine and_congr_left fun _ => forall₂_congr fun bus _ => ?_
  constructor
  · rintro ⟨n, u, hu⟩
    exact (Enters.acc hu).1
  · intro h
    obtain ⟨n, hn⟩ := pciScanBus_of_acc h
    exact ⟨n, _, hn⟩

theorem foundDev_answer : foundDev (answer c vendorId deviceId deviceType) = true ↔
    ∃ bus ∈ hostBuses c, ∃ dev ∈ functionsOn c bus, sought c vendorId deviceId deviceType dev = true := by
  rw [answer, hit_pick bits_devZero]
  refine exists_congr fun bus => and_congr_right fun _ => ?_
  rw [congrFun foundDev_busResult bus, List.any_eq_true]

theorem answer_matches (h : foundDev (answer c vendorId deviceId deviceType) = true) :
    matchesDev c vendorId deviceId deviceType (answer c vendorId deviceId deviceType) = true := by
  obtain ⟨bus, -, hbus⟩ := pick_mem (foundDev_iff.mp h)
  change answer c vendorId deviceId deviceType = busResult c vendorId deviceId deviceType bus at hbus
  rw [hbus] at h ⊢
  obtain ⟨dev, -, hdev⟩ := pick_mem (foundDev_iff.mp h)
  change busResult c vendorId deviceId deviceType bus = ownResult c vendorId deviceId deviceType dev at hdev
  rw [hdev] at h ⊢
  rw [ownResult] at h ⊢
  by_cases hm : matchesDev c vendorId deviceId deviceType dev
  · rwa [if_pos hm]
  · rw [if_neg hm, bits_devZero] at h
    exact absurd h Bool.false_ne_true

end Scan

section Complete
variable {c : ConfigSpace} {vendorId deviceId : ℕ} {dev dev' : PciDev}

theorem HasIds.of_matches (h : HasIds c vendorId deviceId dev)
    (hm : matchesDev c vendorId deviceId (-1) dev' = true) : HasIds c vendorId deviceId dev' := by
  obtain ⟨hthere, hv, -⟩ := h
  obtain ⟨-, hd', hv'⟩ := of_decide_eq_true hm
  refine ⟨?_, hv'.symm, hd'⟩
  obtain ⟨r, hr⟩ := Option.isSome_iff_exists.mp hthere
  have hvendor := c.vendor dev r hr
  cases hr' : c.registers dev' with
  | some r' => rfl
  | none =>
    have hbyte : ∀ i, c.byte dev i = (r i).toNat := fun i => by rw [ConfigSpace.byte, hr]
    have hones : ∀ i, c.byte dev' i = 0xFF := fun i => by rw [ConfigSpace.byte, hr']
    refine absurd ?_ hvendor
    have hread : ∀ d, pciRead c d pciVendorId = c.byte d 0 + 256 * c.byte d 1 := fun _ => rfl
    rw [hread, hbyte, hbyte] at hv
    rw [hread, hones, hones] at hv'
    rw [hv, hv']
    rfl

theorem sought_of_hasIds (h : HasIds c vendorId deviceId dev) (hz : dev ≠ devZero) :
    sought c vendorId deviceId (-1) dev = true := by
  rw [sought, foundDev_iff.mpr hz, Bool.and_true]
  exact decide_eq_true ⟨.inl rfl, h.2.2, h.2.1.symm⟩

/-- The enumeration is complete exactly if no bridge on the way leads the scan round in a loop, and if of the
functions with these ids, if there are any, one is where the scans come to and not at address zero. -/
theorem pci_enumerates (c : ConfigSpace) (vendorId deviceId : ℕ) : Enumerates c vendorId deviceId ↔
    (∀ bus ∈ scannedBuses c vendorId deviceId (-1),
      Acc (fun b' b => Enters c vendorId deviceId (-1) b b') bus) ∧
    ((∃ dev, Sits c vendorId deviceId dev) → ∃ bus ∈ hostBuses c, ∃ dev ∈ functionsOn c bus,
      HasIds c vendorId deviceId dev ∧ dev ≠ devZero) := by
  constructor
  · rintro ⟨t, hreturns, -, hzero⟩
    obtain ⟨hacc, rfl⟩ := pciGetDevice_returns.mp hreturns
    refine ⟨hacc, fun ⟨dev, hdev⟩ => ?_⟩
    have hfound : foundDev (answer c vendorId deviceId (-1)) = true :=
      decide_eq_true fun hbits => hzero hbits ⟨dev, hdev⟩
    obtain ⟨bus, hbus, dev', hdev', hs⟩ := foundDev_answer.mp hfound
    rw [sought, Bool.and_eq_true] at hs
    exact ⟨bus, hbus, dev', hdev', hdev.2.of_matches hs.1, foundDev_iff.mp hs.2⟩
  · rintro ⟨hacc, hplace⟩
    have hfound : (∃ dev, Sits c vendorId deviceId dev) →
        foundDev (answer c vendorId deviceId (-1)) = true := by
      intro hsits
      obtain ⟨bus, hbus, dev, hdev, hids, hz⟩ := hplace hsits
      exact foundDev_answer.mpr ⟨bus, hbus, dev, hdev, sought_of_hasIds hids hz⟩
    refine ⟨_, pciGetDevice_returns.mpr ⟨hacc, rfl⟩, ?_, ?_⟩
    · rintro ⟨dev, hdev⟩
      exact hdev.2.of_matches (answer_matches (hfound ⟨dev, hdev⟩))
    · intro hbits hsits
      exact of_decide_eq_true (hfound hsits) hbits

end Complete

section End
variable {c : ConfigSpace} {vendorId deviceId : ℕ} {deviceType : ℤ} {bus : ℕ}

def BusesDescend (c : ConfigSpace) : Prop :=
  ∀ dev, isBridge c dev → dev.bus.val < c.byte dev secondaryBusRegister

theorem Enters.bus_lt {bus' : ℕ} (h : Enters c vendorId deviceId deviceType bus bus') : bus' < 256 := by
  obtain ⟨dev, -, -, rfl⟩ := h
  show c.byte dev 9 < 256
  rw [ConfigSpace.byte]
  split
  · decide
  · exact UInt8.toNat_lt _

theorem enters_finite (bus : ℕ) :
    {b | ReflTransGen (Enters c vendorId deviceId deviceType) bus b}.Finite := by
  refine ((Set.finite_Iio 256).insert bus).subset fun b hb => ?_
  rcases ReflTransGen.cases_tail hb with rfl | ⟨b', -, hlast⟩
  · exact Set.mem_insert b _
  · exact Set.mem_insert_of_mem _ hlast.bus_lt

/-- The enumeration ends exactly if on the way it comes to no bus again. -/
theorem pci_scan_ends (c : ConfigSpace) (vendorId deviceId : ℕ) (deviceType : ℤ) :
    (∃ n t, pciGetDevice c vendorId deviceId deviceType n = some t) ↔
      ∀ bus ∈ scannedBuses c vendorId deviceId deviceType, ∀ bus',
        ReflTransGen (Enters c vendorId deviceId deviceType) bus bus' →
          ¬ TransGen (Enters c vendorId deviceId deviceType) bus' bus' := by
  have hacyclic : (∀ bus ∈ scannedBuses c vendorId deviceId deviceType,
      Acc (fun b' b => Enters c vendorId deviceId deviceType b b') bus) ↔
        ∀ bus ∈ scannedBuses c vendorId deviceId deviceType,
          NoCycleFrom (Enters c vendorId deviceId deviceType) bus :=
    forall₂_congr fun bus _ => acc_iff_noCycleFrom (enters_finite bus)
  refine Iff.trans ?_ hacyclic
  constructor
  · rintro ⟨n, t, hn⟩
    exact (pciGetDevice_returns.mp ⟨n, hn⟩).1
  · intro hacc
    obtain ⟨n, hn⟩ := pciGetDevice_returns.mpr ⟨hacc, rfl⟩
    exact ⟨n, _, hn⟩

end End

def registersOf (vendor device type header secondary : ℕ) : ℕ → UInt8
  | 0x00 => .ofNat vendor
  | 0x01 => .ofNat (vendor / 256)
  | 0x02 => .ofNat device
  | 0x03 => .ofNat (device / 256)
  | 0x0a => .ofNat type
  | 0x0b => .ofNat (type / 256)
  | 0x0e => .ofNat header
  | 0x19 => .ofNat secondary
  | _ => 0

def hostBridge : PciDev := .ofNumbers 0 0 0

def firstBridge : PciDev := .ofNumbers 0 1 0

def networkCard : PciDev := .ofNumbers 1 0 0

/-- The card is on bus 1. -/
def bridgedSpace : ConfigSpace where
  registers dev :=
    if dev = hostBridge then some (registersOf 0x8086 0x1237 0x0600 0 0)
    else if dev = firstBridge then some (registersOf 0x8086 0x244E pciTypeBridge 1 1)
    else if dev = networkCard then some (registersOf 0x10EC 0x8139 0x0200 0 0)
    else none
  vendor dev r h := by
    split_ifs at h <;> cases h <;> decide

theorem bridgedSpace_bridge {dev : PciDev} (h : isBridge bridgedSpace dev) : dev = firstBridge := by
  obtain ⟨hthere, htype⟩ := h
  change (if dev = hostBridge then _ else _ : Option (ℕ → UInt8)).isSome at hthere
  split_ifs at hthere with hhost hfirst hcard
  · rw [hhost] at htype
    exact absurd htype (by decide)
  · exact hfirst
  · rw [hcard] at htype
    exact absurd htype (by decide)
  · cases hthere

theorem bridgedSpace_tree : BusTree bridgedSpace where
  root := by
    rintro bus ⟨dev, hdev, -, hsecond⟩
    rw [bridgedSpace_bridge hdev] at hsecond
    exact absurd hsecond (by decide)
  once dev dev' hdev hdev' _ := (bridgedSpace_bridge hdev).trans (bridgedSpace_bridge hdev').symm

theorem bridgedSpace_loop : Enters bridgedSpace 0x10EC 0x8139 (-1) 0 0 :=
  ⟨firstBridge, by decide +kernel, by decide, by decide⟩

theorem bridged_card_lost : ¬ ∀ c vendorId deviceId, BusTree c → Enumerates c vendorId deviceId := by
  intro hall
  obtain ⟨t, hreturns, -, -⟩ := hall bridgedSpace 0x10EC 0x8139 bridgedSpace_tree
  have hfirst : 0 ∈ scannedBuses bridgedSpace 0x10EC 0x8139 (-1) := by decide +kernel
  have hacc := (pciGetDevice_returns.mp hreturns).1 0 hfirst
  exact bridgedSpace_loop.not_acc hacc

theorem bridgedSpace_descends : BusesDescend bridgedSpace := by
  intro dev hdev
  rw [bridgedSpace_bridge hdev]
  decide

/-- The bridge leads to a later bus, and still no number of calls is enough. -/
theorem bridged_scan_loops : BusesDescend bridgedSpace ∧
    ¬ ∃ n t, pciGetDevice bridgedSpace 0x10EC 0x8139 (-1) n = some t := by
  refine ⟨bridgedSpace_descends, ?_⟩
  rintro ⟨n, t, hn⟩
  have hfirst : 0 ∈ scannedBuses bridgedSpace 0x10EC 0x8139 (-1) := by decide +kernel
  have hacc := (pciGetDevice_returns.mp ⟨n, hn⟩).1 0 hfirst
  exact bridgedSpace_loop.not_acc hacc

end X86Osdev.Drivers

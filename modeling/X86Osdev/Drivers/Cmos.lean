import X86Osdev.Library.StableReads
import Mathlib.Data.Nat.Bitwise

/-! `read_rtc` of `cmos.c`: the date of a clock that goes on while its registers are read one by one, between waits
and interrupts of any length. -/

namespace X86Osdev.Drivers
open StableReads

def CURRENT_YEAR : ℕ := 2021
def TIME_ZONE_DIFF : ℕ := 2

/-- What the clock counts; it keeps two digits of the year. -/
structure Date where
  second : ℕ
  minute : ℕ
  hour : ℕ
  day : ℕ
  month : ℕ
  year : ℕ
  second_lt : second < 60
  minute_lt : minute < 60
  hour_lt : hour < 24
  day_lt : day < 32
  month_lt : month < 13
  year_lt : year < 100

/-- The clock chip: `counted i` is the number of seconds it has counted when its data port is read for the `i`-th
time, and `updating i` is its update flag then. -/
structure Chip where
  counted : ℕ → ℕ
  counted_mono : Monotone counted
  date : ℕ → Date
  date_succ : ∀ n, (date (n + 1)).second = ((date n).second + 1) % 60
  updating : ℕ → Bool
  rate : ℕ
  rate_lt : rate < 0x80
  registerB : ℕ

structure CmosPorts where
  address : ℕ
  reads : ℕ

structure RtcValues where
  second : ℕ
  minute : ℕ
  hour : ℕ
  day : ℕ
  month : ℕ
  year : ℕ
  deriving DecidableEq

namespace Chip

def binary (chip : Chip) : Bool := chip.registerB &&& 0x04 ≠ 0
def hours24 (chip : Chip) : Bool := chip.registerB &&& 0x02 ≠ 0

def stored (chip : Chip) (v : ℕ) : ℕ := if chip.binary then v else v / 10 * 16 + v % 10

/-- With hours from 1 to 12, the top bit is set after noon. -/
def storedHour (chip : Chip) (h : ℕ) : ℕ :=
  if chip.hours24 then chip.stored h
  else chip.stored (if h % 12 = 0 then 12 else h % 12) + if h < 12 then 0 else 0x80

def shown (chip : Chip) (n : ℕ) : ℕ → ℕ
  | 0x00 => chip.stored (chip.date n).second
  | 0x02 => chip.stored (chip.date n).minute
  | 0x04 => chip.storedHour (chip.date n).hour
  | 0x07 => chip.stored (chip.date n).day
  | 0x08 => chip.stored (chip.date n).month
  | 0x09 => chip.stored (chip.date n).year
  | _ => 0

def register (chip : Chip) (i : ℕ) : ℕ → ℕ
  | 0x0A => chip.rate + if chip.updating i then 0x80 else 0
  | 0x0B => chip.registerB
  | reg => chip.shown (chip.counted i) reg

def outb (c : CmosPorts) (data : ℕ) : CmosPorts := { c with address := data }

def inb (chip : Chip) (c : CmosPorts) : ℕ × CmosPorts :=
  (chip.register c.reads c.address, { c with reads := c.reads + 1 })

def getUpdateInProgressFlag (chip : Chip) (c : CmosPorts) : ℕ × CmosPorts :=
  let (v, c) := chip.inb (outb c 0x0A)
  (v &&& 0x80, c)

def getRTCRegister (chip : Chip) (reg : ℕ) (c : CmosPorts) : ℕ × CmosPorts := chip.inb (outb c reg)

/-- `while (get_update_in_progress_flag());` -/
def awaitUpdate (chip : Chip) : ℕ → CmosPorts → Option CmosPorts
  | 0, _ => none
  | fuel + 1, c =>
    let (flag, c) := chip.getUpdateInProgressFlag c
    if flag ≠ 0 then chip.awaitUpdate fuel c else some c

def readRegisters (chip : Chip) (c : CmosPorts) : RtcValues × CmosPorts :=
  let (second, c) := chip.getRTCRegister 0x00 c
  let (minute, c) := chip.getRTCRegister 0x02 c
  let (hour, c) := chip.getRTCRegister 0x04 c
  let (day, c) := chip.getRTCRegister 0x07 c
  let (month, c) := chip.getRTCRegister 0x08 c
  let (year, c) := chip.getRTCRegister 0x09 c
  (⟨second, minute, hour, day, month, year⟩, c)

/-- The `do` loop. -/
def readUntilSame (chip : Chip) (fuel : ℕ) : ℕ → RtcValues → CmosPorts → Option (RtcValues × CmosPorts)
  | 0, _, _ => none
  | n + 1, last, c => (chip.awaitUpdate fuel c).bind fun c =>
    let (rtc, c) := chip.readRegisters c
    if last.second ≠ rtc.second ∨ last.minute ≠ rtc.minute ∨ last.hour ≠ rtc.hour ∨ last.day ≠ rtc.day ∨
        last.month ≠ rtc.month ∨ last.year ≠ rtc.year then chip.readUntilSame fuel n rtc c
    else some (rtc, c)

end Chip

def fromBcd (v : ℕ) : ℕ := (v &&& 0x0F) + v / 16 * 10

def RtcValues.bcdToBinary (rtc : RtcValues) : RtcValues where
  second := fromBcd rtc.second
  minute := fromBcd rtc.minute
  hour := ((rtc.hour &&& 0x0F) + (rtc.hour &&& 0x70) / 16 * 10) ||| (rtc.hour &&& 0x80)
  day := fromBcd rtc.day
  month := fromBcd rtc.month
  year := fromBcd rtc.year

def RtcValues.to24Hours (registerB : ℕ) (rtc : RtcValues) : RtcValues :=
  if registerB &&& 0x02 = 0 ∧ rtc.hour &&& 0x80 ≠ 0 then { rtc with hour := ((rtc.hour &&& 0x7F) + 12) % 24 } else rtc

/-- `century_register` is 0. -/
def RtcValues.fullYear (rtc : RtcValues) : RtcValues :=
  let rtc := { rtc with year := rtc.year + CURRENT_YEAR / 100 * 100 }
  if rtc.year < CURRENT_YEAR then { rtc with year := rtc.year + 100 } else rtc

/-- The conversions after the loop. -/
def convertRtc (registerB : ℕ) (rtc : RtcValues) : RtcValues :=
  let rtc := if registerB &&& 0x04 = 0 then rtc.bcdToBinary else rtc
  let rtc := (rtc.to24Hours registerB).fullYear
  { rtc with hour := (rtc.hour + TIME_ZONE_DIFF) % 2 ^ 8 }

def readRtc (chip : Chip) (fuel : ℕ) (c : CmosPorts) : Option (RtcValues × CmosPorts) :=
  (chip.awaitUpdate fuel c).bind fun c =>
    let (rtc, c) := chip.readRegisters c
    (chip.readUntilSame fuel fuel rtc c).bind fun (rtc, c) =>
      let (registerB, c) := chip.getRTCRegister 0x0B c
      some (convertRtc registerB rtc, c)

/-- Midnight and noon change places where the chip counts hours from 1 to 12. -/
def Chip.hourOf (chip : Chip) (h : ℕ) : ℕ :=
  if chip.hours24 then h else if h = 0 then 12 else if h = 12 then 0 else h

/-- What the conversions make of a date of the clock. The two hours that they add are not carried into the day, and a
year before 2021 is one of the next century. -/
def Chip.kernelDate (chip : Chip) (d : Date) : RtcValues where
  second := d.second
  minute := d.minute
  hour := chip.hourOf d.hour + 2
  day := d.day
  month := d.month
  year := if d.year < 21 then d.year + 2100 else d.year + 2000

section Conversions
variable {chip : Chip} {registerB v h n n' : ℕ} {rtc : RtcValues}

theorem fromBcd_toBcd (v : ℕ) : fromBcd (v / 10 * 16 + v % 10) = v := by
  have hmask : (v / 10 * 16 + v % 10) &&& 0x0F = (v / 10 * 16 + v % 10) % 16 :=
    Nat.and_two_pow_sub_one_eq_mod _ 4
  rw [fromBcd, hmask]
  omega

theorem Chip.stored_inj {v' : ℕ} (h : chip.stored v = chip.stored v') : v = v' := by
  unfold Chip.stored at h
  split at h
  · exact h
  · rw [← fromBcd_toBcd v, ← fromBcd_toBcd v', h]

def RtcValues.values (rtc : RtcValues) : List ℕ := [rtc.second, rtc.minute, rtc.hour, rtc.day, rtc.month, rtc.year]

theorem RtcValues.values_inj {rtc' : RtcValues} (h : rtc.values = rtc'.values) : rtc = rtc' := by
  cases rtc
  cases rtc'
  simpa [RtcValues.values] using h

def clockRegisters : List ℕ := [0x00, 0x02, 0x04, 0x07, 0x08, 0x09]

def Chip.snapshot (chip : Chip) (n : ℕ) : RtcValues :=
  ⟨chip.shown n 0x00, chip.shown n 0x02, chip.shown n 0x04, chip.shown n 0x07, chip.shown n 0x08, chip.shown n 0x09⟩

def Chip.plainHour (chip : Chip) (h : ℕ) : ℕ :=
  if chip.hours24 then h else (if h % 12 = 0 then 12 else h % 12) + if h < 12 then 0 else 0x80

theorem Chip.bcd_hour (chip : Chip) (hbcd : chip.binary = false) (hh : h < 24) :
    ((chip.storedHour h &&& 0x0F) + (chip.storedHour h &&& 0x70) / 16 * 10) ||| (chip.storedHour h &&& 0x80) =
      chip.plainHour h := by
  simp only [Chip.storedHour, Chip.stored, Chip.plainHour, hbcd, Bool.false_eq_true, if_false]
  generalize chip.hours24 = hours24
  revert hours24 h
  decide

def Chip.plain (chip : Chip) (d : Date) : RtcValues :=
  ⟨d.second, d.minute, chip.plainHour d.hour, d.day, d.month, d.year⟩

theorem Chip.decode_snapshot (chip : Chip) (n : ℕ) :
    (if chip.registerB &&& 0x04 = 0 then (chip.snapshot n).bcdToBinary else chip.snapshot n) =
      chip.plain (chip.date n) := by
  have hbinary : chip.registerB &&& 0x04 = 0 ↔ chip.binary = false := by simp [Chip.binary]
  split
  · rename_i hb
    have hbcd := hbinary.mp hb
    have hstored : ∀ v, fromBcd (chip.stored v) = v := fun v => by
      rw [Chip.stored, hbcd]
      exact fromBcd_toBcd v
    have hhour := chip.bcd_hour hbcd (chip.date n).hour_lt
    simp only [Chip.snapshot, RtcValues.bcdToBinary, Chip.shown, hstored, hhour, Chip.plain]
  · rename_i hb
    have hbin : chip.binary = true := by simpa using fun h => hb (hbinary.mpr h)
    simp only [Chip.snapshot, Chip.shown, Chip.stored, Chip.storedHour, Chip.plain, Chip.plainHour, hbin, if_true]

theorem Chip.to24Hours_plain (chip : Chip) (d : Date) :
    (chip.plain d).to24Hours chip.registerB = { chip.plain d with hour := chip.hourOf d.hour } := by
  have htwelve : chip.registerB &&& 0x02 = 0 ↔ chip.hours24 = false := by simp [Chip.hours24]
  have hhour : ∀ h < 24, (if chip.hours24 = false ∧ chip.plainHour h &&& 0x80 ≠ 0 then
      ((chip.plainHour h &&& 0x7F) + 12) % 24 else chip.plainHour h) = chip.hourOf h := by
    unfold Chip.plainHour Chip.hourOf
    generalize chip.hours24 = hours24
    revert hours24
    decide
  rw [← hhour d.hour d.hour_lt]
  unfold RtcValues.to24Hours
  simp only [htwelve, Chip.plain]
  split_ifs <;> rfl

theorem RtcValues.fullYear_eq (rtc : RtcValues) : rtc.fullYear =
    { rtc with year := if rtc.year < 21 then rtc.year + 2100 else rtc.year + 2000 } := by
  have hcentury : rtc.year + CURRENT_YEAR / 100 * 100 < CURRENT_YEAR ↔ rtc.year < 21 := by
    unfold CURRENT_YEAR
    omega
  simp only [RtcValues.fullYear, hcentury]
  split_ifs <;> rfl

theorem convertRtc_snapshot (chip : Chip) (n : ℕ) :
    convertRtc chip.registerB (chip.snapshot n) = chip.kernelDate (chip.date n) := by
  have hbyte : (chip.hourOf (chip.date n).hour + TIME_ZONE_DIFF) % 2 ^ 8 = chip.hourOf (chip.date n).hour + 2 := by
    have hlt := (chip.date n).hour_lt
    refine Nat.mod_eq_of_lt ?_
    unfold Chip.hourOf TIME_ZONE_DIFF
    split_ifs <;> omega
  rw [convertRtc, chip.decode_snapshot, chip.to24Hours_plain, RtcValues.fullYear_eq]
  simp only [hbyte]
  rfl

end Conversions

section Reads
variable {chip : Chip} {fuel n i j B : ℕ} {last rtc : RtcValues} {c c' : CmosPorts}

theorem Chip.readRegisters_values (chip : Chip) (c : CmosPorts) :
    (chip.readRegisters c).1.values = sweep chip.counted chip.shown clockRegisters c.reads := rfl

theorem Chip.readRegisters_reads (chip : Chip) (c : CmosPorts) :
    (chip.readRegisters c).2.reads = c.reads + clockRegisters.length := rfl

/-- Where the wait for the update flag that begins at read `i` ends. -/
def Chip.waitFrom (chip : Chip) (fuel i : ℕ) : Option ℕ := (chip.awaitUpdate fuel ⟨0, i⟩).map CmosPorts.reads

theorem Chip.awaitUpdate_reads (chip : Chip) (fuel : ℕ) (c : CmosPorts) :
    (chip.awaitUpdate fuel c).map CmosPorts.reads = chip.waitFrom fuel c.reads := by
  cases fuel <;> rfl

theorem Chip.flag_ne_zero (chip : Chip) (i : ℕ) :
    (chip.rate + if chip.updating i then 0x80 else 0) &&& 0x80 ≠ 0 ↔ chip.updating i = true := by
  have hrate := chip.rate_lt
  generalize chip.updating i = updating
  revert updating
  generalize chip.rate = rate at hrate ⊢
  revert rate
  decide

theorem Chip.waitFrom_succ (chip : Chip) (fuel i : ℕ) : chip.waitFrom (fuel + 1) i =
    if chip.updating i = true then chip.waitFrom fuel (i + 1) else some (i + 1) := by
  rw [← Chip.awaitUpdate_reads chip fuel ⟨0x0A, i + 1⟩]
  rw [Chip.waitFrom, Chip.awaitUpdate]
  by_cases hbusy : chip.updating i = true
  · rw [if_pos hbusy]
    exact congrArg (Option.map CmosPorts.reads) (if_pos ((chip.flag_ne_zero i).mpr hbusy))
  · rw [if_neg hbusy]
    exact congrArg (Option.map CmosPorts.reads) (if_neg fun h => hbusy ((chip.flag_ne_zero i).mp h))

theorem Chip.le_waitFrom (hwait : chip.waitFrom fuel i = some j) : i ≤ j := by
  induction fuel generalizing i with
  | zero => cases hwait
  | succ fuel ih =>
    rw [Chip.waitFrom_succ] at hwait
    split at hwait
    · exact Nat.le_of_succ_le (ih hwait)
    · exact (Option.some.inj hwait) ▸ Nat.le_succ i

theorem Chip.waitFrom_ends (hB : ∃ j, i ≤ j ∧ j ≤ i + B ∧ chip.updating j = false) (hfuel : B < fuel) :
    ∃ b, chip.waitFrom fuel i = some b ∧ i ≤ b ∧ b ≤ i + (B + 1) := by
  induction B generalizing fuel i with
  | zero =>
    obtain ⟨j, hij, hji, hj⟩ := hB
    obtain rfl : j = i := by omega
    obtain ⟨fuel, rfl⟩ := Nat.exists_eq_succ_of_ne_zero hfuel.ne'
    refine ⟨j + 1, ?_, by omega, by omega⟩
    rw [Chip.waitFrom_succ, hj]
    rfl
  | succ B ih =>
    obtain ⟨fuel, rfl⟩ := Nat.exists_eq_succ_of_ne_zero (Nat.ne_of_gt (Nat.zero_lt_of_lt hfuel))
    rw [Chip.waitFrom_succ]
    split
    · rename_i hbusy
      obtain ⟨j, hij, hji, hj⟩ := hB
      have hne : j ≠ i := fun h => by rw [h, hbusy] at hj; cases hj
      have hnext : ∃ j, i + 1 ≤ j ∧ j ≤ i + 1 + B ∧ chip.updating j = false := ⟨j, by omega, by omega, hj⟩
      obtain ⟨b, hb, hlow, hhigh⟩ := ih hnext (Nat.lt_of_succ_lt_succ hfuel)
      exact ⟨b, hb, by omega, by omega⟩
    · exact ⟨i + 1, rfl, by omega, by omega⟩

theorem RtcValues.differs_iff : (last.second ≠ rtc.second ∨ last.minute ≠ rtc.minute ∨
    last.hour ≠ rtc.hour ∨ last.day ≠ rtc.day ∨ last.month ≠ rtc.month ∨ last.year ≠ rtc.year) ↔
      last.values ≠ rtc.values := by
  simp only [RtcValues.values, ne_eq, List.cons.injEq, and_true, not_and_or]

theorem Chip.readUntilSame_values (chip : Chip) (fuel n : ℕ) (last : RtcValues) (c : CmosPorts) :
    (chip.readUntilSame fuel n last c).map (fun r => (r.1.values, r.2.reads)) =
      settle chip.counted chip.shown (chip.waitFrom fuel) clockRegisters n last.values c.reads := by
  induction n generalizing last c with
  | zero => rfl
  | succ n ih =>
    rw [Chip.readUntilSame, settle, ← Chip.awaitUpdate_reads]
    cases chip.awaitUpdate fuel c with
    | none => rfl
    | some c =>
      rw [Option.bind_some, Option.map_some, Option.bind_some, ← Chip.readRegisters_values]
      by_cases heq : last.values = (chip.readRegisters c).1.values
      · rw [if_pos heq, heq]
        exact congrArg (Option.map _) (if_neg fun h => RtcValues.differs_iff.mp h heq)
      · rw [if_neg heq, ← Chip.readRegisters_reads chip c, ← ih]
        exact congrArg (Option.map _) (if_pos (RtcValues.differs_iff.mpr heq))

theorem Chip.second_distinct {n' : ℕ} (hle : n ≤ n') (hminute : n' < n + 60)
    (heq : chip.shown n 0x00 = chip.shown n' 0x00) : n = n' := by
  have hsecond : (chip.date n).second = (chip.date n').second := Chip.stored_inj heq
  have hcount : ∀ d, (chip.date (n + d)).second = ((chip.date n).second + d) % 60 := by
    intro d
    induction d with
    | zero => exact (Nat.mod_eq_of_lt (chip.date n).second_lt).symm
    | succ d ih => rw [← Nat.add_assoc, chip.date_succ, ih, Nat.mod_add_mod, Nat.add_assoc]
  obtain ⟨d, rfl⟩ := Nat.exists_eq_add_of_le hle
  have hlt := (chip.date n).second_lt
  rw [hcount] at hsecond
  omega

/-- The values that the loop ends with are the registers of one second. -/
theorem Chip.readUntilSame_snapshot {a : CmosPorts} (ha : (chip.readRegisters a).2.reads ≤ c.reads)
    (hrun : chip.readUntilSame fuel n (chip.readRegisters a).1 c = some (rtc, c'))
    (hminute : chip.counted c'.reads < chip.counted a.reads + 60) :
    ∃ v, chip.counted a.reads ≤ v ∧ v ≤ chip.counted c'.reads ∧ rtc = chip.snapshot v := by
  have hsettle : settle chip.counted chip.shown (chip.waitFrom fuel) clockRegisters n
      (sweep chip.counted chip.shown clockRegisters a.reads) c.reads = some (rtc.values, c'.reads) := by
    rw [← Chip.readRegisters_values, ← Chip.readUntilSame_values, hrun]
    rfl
  obtain ⟨v, hlow, hhigh, hvs⟩ := settle_snapshot chip.counted_mono (fun _ _ => Chip.le_waitFrom) ha hsettle
    fun m m' hm hle hm' => Chip.second_distinct hle (by omega)
  exact ⟨v, hlow, hhigh, RtcValues.values_inj hvs⟩

theorem Chip.awaitUpdate_ends (hB : ∀ i, ∃ j, i ≤ j ∧ j ≤ i + B ∧ chip.updating j = false) (hfuel : B < fuel)
    (c : CmosPorts) : ∃ a, chip.awaitUpdate fuel c = some a ∧ c.reads ≤ a.reads ∧ a.reads ≤ c.reads + (B + 1) := by
  obtain ⟨b, hb, hlow, hhigh⟩ := Chip.waitFrom_ends (hB c.reads) hfuel
  rw [← Chip.awaitUpdate_reads, Option.map_eq_some_iff] at hb
  obtain ⟨a, ha, rfl⟩ := hb
  exact ⟨a, ha, hlow, hhigh⟩

theorem Chip.readUntilSame_ends {a : CmosPorts} (hB : ∀ i, ∃ j, i ≤ j ∧ j ≤ i + B ∧ chip.updating j = false)
    (hfuel : B < fuel) (hone : chip.counted (a.reads + (4 * B + 28)) ≤ chip.counted a.reads + 1) :
    ∃ r, chip.readUntilSame fuel (n + 3) (chip.readRegisters a).1 (chip.readRegisters a).2 = some r ∧
      r.2.reads ≤ a.reads + (4 * B + 28) := by
  have hbudget : a.reads + 4 * (B + 1 + clockRegisters.length) = a.reads + (4 * B + 28) := by
    rw [show clockRegisters.length = 6 from rfl]
    omega
  have hone' : chip.counted (a.reads + 4 * (B + 1 + clockRegisters.length)) ≤ chip.counted a.reads + 1 := by
    rw [hbudget]
    exact hone
  obtain ⟨vs, j, hsettle, hj⟩ := settle_ends (n := n) (f := chip.shown) chip.counted_mono
    (fun i => Chip.waitFrom_ends (hB i) hfuel) hone'
  rw [← Chip.readRegisters_values, ← Chip.readRegisters_reads, ← Chip.readUntilSame_values,
    Option.map_eq_some_iff] at hsettle
  obtain ⟨r, hr, heq⟩ := hsettle
  have hreads : r.2.reads = j := (Prod.mk.inj heq).2
  exact ⟨r, hr, by omega⟩

theorem readRtc_eq (chip : Chip) (fuel : ℕ) (c : CmosPorts) : readRtc chip fuel c =
    (chip.awaitUpdate fuel c).bind fun a =>
      (chip.readUntilSame fuel fuel (chip.readRegisters a).1 (chip.readRegisters a).2).map fun r =>
        (convertRtc chip.registerB r.1, ⟨0x0B, r.2.reads + 1⟩) := by
  rw [readRtc]
  congr 1
  funext a
  exact (Option.map_eq_bind ..).symm

end Reads

/-- A clock in its twelve-hour mode that reaches noon between the ninth and the tenth read. -/
def noonChip : Chip where
  counted i := if i < 9 then 0 else 1
  counted_mono i j hij := by
    change (if i < 9 then 0 else 1) ≤ if j < 9 then 0 else 1
    split_ifs <;> omega
  date n :=
    { second := (n + 43199) % 60, minute := (n + 43199) / 60 % 60, hour := (n + 43199) / 3600 % 24
      day := 30, month := 6, year := 24
      second_lt := Nat.mod_lt _ (by decide), minute_lt := Nat.mod_lt _ (by decide)
      hour_lt := Nat.mod_lt _ (by decide), day_lt := by decide, month_lt := by decide, year_lt := by decide }
  date_succ n := by
    change (n + 1 + 43199) % 60 = ((n + 43199) % 60 + 1) % 60
    omega
  updating i := i = 7
  rate := 0x26
  rate_lt := by decide
  registerB := 0x00

/-- When no update keeps it waiting for more than `B` reads and the clock moves on at most once meanwhile, `read_rtc`
returns the conversion of the clock's date at its beginning or of the one a second later. -/
theorem readRtc_returns (chip : Chip) (B fuel : ℕ) (c : CmosPorts) (hfuel : B + 3 ≤ fuel)
    (hB : ∀ i, ∃ j, i ≤ j ∧ j ≤ i + B ∧ chip.updating j = false)
    (hone : chip.counted (c.reads + (5 * B + 30)) ≤ chip.counted c.reads + 1) :
    ∃ rtc c', readRtc chip fuel c = some (rtc, c') ∧
      (rtc = chip.kernelDate (chip.date (chip.counted c.reads)) ∨
        rtc = chip.kernelDate (chip.date (chip.counted c.reads + 1))) := by
  obtain ⟨n, rfl⟩ := Nat.exists_eq_add_of_le' (show 3 ≤ fuel by omega)
  obtain ⟨a, ha, hlow, hhigh⟩ := Chip.awaitUpdate_ends hB (show B < n + 3 by omega) c
  have hstart : chip.counted c.reads ≤ chip.counted a.reads := chip.counted_mono hlow
  have hrest : chip.counted (a.reads + (4 * B + 28)) ≤ chip.counted (c.reads + (5 * B + 30)) :=
    chip.counted_mono (by omega)
  obtain ⟨r, hr, hreads⟩ := Chip.readUntilSame_ends (n := n) hB (show B < n + 3 by omega) (a := a) (by omega)
  have hrun : readRtc chip (n + 3) c = some (convertRtc chip.registerB r.1, ⟨0x0B, r.2.reads + 1⟩) := by
    rw [readRtc_eq, ha, Option.bind_some, hr, Option.map_some]
  have hstop : chip.counted (r.2.reads + 1) ≤ chip.counted (c.reads + (5 * B + 30)) :=
    chip.counted_mono (by omega)
  have hread : chip.counted r.2.reads ≤ chip.counted (r.2.reads + 1) := chip.counted_mono (Nat.le_succ _)
  obtain ⟨v, hvlow, hvhigh, hlast⟩ := Chip.readUntilSame_snapshot (Nat.le_refl _) hr
    (show chip.counted r.2.reads < chip.counted a.reads + 60 by omega)
  have hv : convertRtc chip.registerB r.1 = chip.kernelDate (chip.date v) := by
    rw [hlast]
    exact convertRtc_snapshot chip v
  refine ⟨_, _, hrun, ?_⟩
  obtain rfl | rfl : v = chip.counted c.reads ∨ v = chip.counted c.reads + 1 := by omega
  · exact Or.inl hv
  · exact Or.inr hv

theorem readRtc_returns_noon : ∃ rtc c', readRtc noonChip 4 ⟨0, 0⟩ = some (rtc, c') ∧
    (rtc = ⟨59, 59, 13, 30, 6, 2024⟩ ∨ rtc = ⟨0, 0, 2, 30, 6, 2024⟩) :=
  readRtc_returns noonChip 1 4 ⟨0, 0⟩ (by decide)
    (fun i => by
      by_cases hi : i = 7
      · exact ⟨8, by omega, by omega, rfl⟩
      · exact ⟨i, Nat.le_refl i, Nat.le_succ i, decide_eq_false hi⟩)
    (by decide)

end X86Osdev.Drivers

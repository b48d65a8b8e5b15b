import Mathlib.Algebra.Group.Nat.Defs
import Doors.Lib.Calendar

/-!
# Doors.Cmos

The real-time clock (`kernel/Cmos.cc`).

A register of the clock is read through two ports.  What it holds is up to the hardware
and may be different at every read, so that a clock is a function of the number of reads
before and the register (`Rtc`).

* `unixTime_eq` — what `unixTime` makes of valid fields;
* `unixTime_iff` — it is the Unix time from March 1972 to February 1976 only, since no leap
  day is counted, and the day of the month is counted from 1.
-/

namespace Doors.Cmos

/-! ## the registers -/

def CMOS_REG_SECONDS : BitVec 8 := 0x00
def CMOS_REG_MINUTES : BitVec 8 := 0x02
def CMOS_REG_HOURS : BitVec 8 := 0x04
def CMOS_REG_DAY : BitVec 8 := 0x07
def CMOS_REG_MONTH : BitVec 8 := 0x08
def CMOS_REG_YEAR : BitVec 8 := 0x09
def CMOS_REG_CENTURY : BitVec 8 := 0x32
def CMOS_REG_STAT_A : BitVec 8 := 0x0A
def CMOS_REG_STAT_B : BitVec 8 := 0x0B

def THIS_CENTURY : BitVec 32 := 2000

/-- What the `t`-th read gives when it is of the register `reg`. -/
abbrev Rtc : Type := Nat → BitVec 8 → BitVec 8

/-- `Acpi`, as far as it is asked here. -/
structure Acpi where
  isSupported : Bool
  centuryRegister : BitVec 8

/-- The array `comps`, or `lastComps`. -/
structure Comps where
  seconds : BitVec 8
  minutes : BitVec 8
  hours : BitVec 8
  day : BitVec 8
  month : BitVec 8
  year : BitVec 8
  century : BitVec 8
  deriving DecidableEq, Repr

/-- The variables that `readRtcValues` leaves. -/
structure Fields where
  seconds : BitVec 8
  minutes : BitVec 8
  hours : BitVec 8
  day : BitVec 32
  month : BitVec 32
  year : BitVec 32
  deriving DecidableEq, Repr

/-! ## reading -/

/-- `while (isUpdating());`, from read `t` on.  The fuel is for the reads. -/
def waitReady (rtc : Rtc) : Nat → Nat → Option Nat
  | 0, _ => none
  | k + 1, t => if rtc t CMOS_REG_STAT_A &&& 0x80 ≠ 0 then waitReady rtc k (t + 1) else some (t + 1)

/-- `getRtcComps`.  The century is always read from `CMOS_REG_CENTURY`. -/
def getRtcComps (rtc : Rtc) (k t : Nat) : Option (Comps × Nat) := do
  let t ← waitReady rtc k t
  return ({
    seconds := rtc t CMOS_REG_SECONDS
    minutes := rtc (t + 1) CMOS_REG_MINUTES
    hours := rtc (t + 2) CMOS_REG_HOURS
    day := rtc (t + 3) CMOS_REG_DAY
    month := rtc (t + 4) CMOS_REG_MONTH
    year := rtc (t + 5) CMOS_REG_YEAR
    century := rtc (t + 6) CMOS_REG_CENTURY }, t + 7)

/-- The loop of `readRtcValues`, which reads until two reads in a row agree. -/
def readTwice (rtc : Rtc) (wait : Nat) : Nat → Comps → Nat → Option (Comps × Nat)
  | 0, _, _ => none
  | k + 1, lastComps, t => do
      let (comps, t) ← getRtcComps rtc wait t
      if comps = lastComps then return (comps, t) else readTwice rtc wait k comps t

/-- `(c & 0x0F) + (c / 16 * 10)`. -/
def fromBcd (c : BitVec 8) : BitVec 8 := (c &&& 0x0F) + c / 16 * 10

/-- `Cmos::pm12To24`. -/
def pm12To24 (hourBcd : BitVec 8) : BitVec 8 :=
  let h := hourBcd &&& 0x7F
  (if h = 12 then 0 else h) + 12

/-- The conversions that the status register `regB` asks for. -/
def Comps.convert (c : Comps) (regB : BitVec 8) : Comps :=
  let c :=
    if regB &&& 0x4 = 0 then
      { seconds := fromBcd c.seconds, minutes := fromBcd c.minutes, hours := fromBcd c.hours,
        day := fromBcd c.day,
        month := fromBcd c.month, year := fromBcd c.year, century := fromBcd c.century }
    else c
  if regB &&& 0x02 = 0 ∧ c.hours &&& 0x80 ≠ 0 then { c with hours := pm12To24 c.hours } else c

/-- The assignments at the end of `readRtcValues`. -/
def Comps.fields (c : Comps) (acpi : Acpi) : Fields :=
  let year := c.year.setWidth 32
  { seconds := c.seconds, minutes := c.minutes, hours := c.hours, day := c.day.setWidth 32,
    month := c.month.setWidth 32,
    year := if acpi.isSupported ∧ acpi.centuryRegister ≠ 0 then year + c.century.setWidth 32 * 100
      else year + THIS_CENTURY }

/-- `readRtcValues`, from read `t` on; the fuel `k` is for its loop and for the waits in
it. -/
def readRtcValues (rtc : Rtc) (acpi : Acpi) (k t : Nat) : Option (Fields × Nat) := do
  let (comps, t) ← getRtcComps rtc k t
  let (comps, t) ← readTwice rtc k k comps t
  let regB := rtc t CMOS_REG_STAT_B
  return ((comps.convert regB).fields acpi, t + 1)

/-! ## the time -/

def monthDays : List (BitVec 64) := [31, 28, 31, 30, 31, 30, 31, 31, 30, 31, 30, 31]

/-- The rest of `unixTime`; `none` when the sum leaves the array `monthDays`. -/
def Fields.unixTime (f : Fields) : Option (BitVec 64) :=
  if f.month = 0 ∨ f.month > 13 then none
  else
    let res := (monthDays.take (f.month.toNat - 1)).foldl (· + ·) (f.day.setWidth 64)
    let res := res * 86400
    some (res + ((f.year - 1970).setWidth 64 * 31536000 + f.seconds.setWidth 64 +
        (f.minutes.setWidth 64 * 60) +
      (f.hours.setWidth 64 * 3600)))

/-- `Cmos::unixTime`. -/
def unixTime (rtc : Rtc) (acpi : Acpi) (k t : Nat) : Option (BitVec 64) := do
  let (f, _) ← readRtcValues rtc acpi k t
  f.unixTime

/-! ## valid fields -/

open Calendar

/-- The moment that the fields name. -/
def Fields.moment (f : Fields) : Moment :=
  { date := { year := f.year.toNat, month := f.month.toNat, day := f.day.toNat }
    hour := f.hours.toNat, minute := f.minutes.toNat, second := f.seconds.toNat }

variable {rtc : Rtc} {acpi : Acpi} {k t t' : Nat} {f : Fields} {v : BitVec 64}

/-- The months of the code are those of a year without a leap day. -/
theorem sum_monthDays (y : Nat) (d : BitVec 64) (hd : d.toNat ≤ 31) {m : Nat} (hm : 1 ≤ m)
    (hm' : m ≤ 12) :
    ((monthDays.take (m - 1)).foldl (· + ·) d).toNat + (if isLeap y ∧ 3 ≤ m then 1 else 0) =
      Calendar.monthDays y (m - 1) + d.toNat := by
  have hcases : m = 1 ∨ m = 2 ∨ m = 3 ∨ m = 4 ∨ m = 5 ∨ m = 6 ∨ m = 7 ∨ m = 8 ∨ m = 9 ∨ m = 10 ∨
    m = 11 ∨ m = 12 := by omega
  cases hleap : isLeap y <;>
    rcases hcases with rfl | rfl | rfl | rfl | rfl | rfl | rfl | rfl | rfl | rfl | rfl | rfl <;>
    simp [monthDays, Calendar.monthDays, daysIn, hleap, BitVec.toNat_add] <;> omega

/-- The leap days from 1970 to the date. -/
def leapDays (d : Date) : Nat := leapYears 1970 (d.year - 1970) + if isLeap d.year ∧
    3 ≤ d.month then 1 else 0

theorem toNat_scaled {x c : BitVec 64} {n : Nat} (hc : c.toNat = n) (h : x.toNat * n < 2 ^ 64) :
    (x * c).toNat = x.toNat * n := by
  subst hc
  exact BitVec.toNat_mul_of_lt h

/-- **What `unixTime` returns**: every leap day is missing, and there is one day too many. -/
theorem unixTime_eq (hf : f.moment.Valid) (hyear : 1970 ≤ f.year.toNat) :
    ∃ v, f.unixTime = some v ∧ v.toNat + 86400 * leapDays f.moment.date =
      seconds 1970 f.moment + 86400 := by
  obtain ⟨⟨hmonth, hmonth', hday, hday'⟩, hhour, hminute, hsecond⟩ := hf
  have hlt := f.year.isLt
  have hbound := monthDays_le f.year.toNat (f.month.toNat - 1)
  have hday31 : f.day.toNat ≤ 31 := Nat.le_trans hday' (daysIn_le _ _)
  unfold Fields.moment at *
  dsimp only at *
  have hin : ¬ (f.month = 0 ∨ f.month > 13) := by
    simp [BitVec.lt_def, BitVec.toNat_eq]
    omega
  have hwide : (f.day.setWidth 64).toNat = f.day.toNat := BitVec.toNat_setWidth_of_le (by decide)
  have hsum := sum_monthDays f.year.toNat (f.day.setWidth 64) (hwide.symm ▸ hday31) hmonth hmonth'
  rw [hwide] at hsum
  -- no product and no sum leaves the 64 bits
  have hyears : ((f.year - 1970).setWidth 64).toNat = f.year.toNat - 1970 := by
    rw [BitVec.toNat_setWidth_of_le (by decide), BitVec.toNat_sub,
      show (1970 : BitVec 32).toNat = 1970 from rfl]
    omega
  have hdays :=
    toNat_scaled (x := (monthDays.take (f.month.toNat - 1)).foldl (· + ·) (f.day.setWidth 64))
    (c := 86400) (n := 86400) rfl (by omega)
  have hyear' := toNat_scaled (x := (f.year - 1970).setWidth 64) (c := 31536000)
    (n := 31536000) rfl (by omega)
  have hseconds : (f.seconds.setWidth 64).toNat = f.seconds.toNat :=
    BitVec.toNat_setWidth_of_le (by decide)
  have hminutes : (f.minutes.setWidth 64).toNat = f.minutes.toNat :=
    BitVec.toNat_setWidth_of_le (by decide)
  have hhours : (f.hours.setWidth 64).toNat = f.hours.toNat :=
    BitVec.toNat_setWidth_of_le (by decide)
  have hminute' := toNat_scaled (x := f.minutes.setWidth 64) (c := 60) (n := 60) rfl (by omega)
  have hhour' := toNat_scaled (x := f.hours.setWidth 64) (c := 3600) (n := 3600) rfl (by omega)
  have htotal : ∀ a b c d e : BitVec 64, a.toNat +
    (b.toNat + c.toNat + d.toNat + e.toNat) < 2 ^ 64 →
      (a + (b + c + d + e)).toNat = a.toNat + (b.toNat + c.toNat + d.toNat + e.toNat) := by
    intro a b c d e h
    simp only [BitVec.toNat_add]
    omega
  refine ⟨_, if_neg hin, ?_⟩
  rw [htotal _ _ _ _ _ (by omega), hdays, hyear', hyears, hseconds, hminute', hminutes,
    hhour', hhours]
  simp only [seconds, days, leapDays]
  omega

/-- The dates before which there was one leap day. -/
theorem leapDays_eq_one_iff {d : Date} (hyear : 1970 ≤ d.year) :
    leapDays d = 1 ↔ (d.year = 1972 ∧ 3 ≤ d.month) ∨ (1973 ≤ d.year ∧ d.year ≤ 1975) ∨
      (d.year = 1976 ∧ d.month ≤ 2) := by
  unfold leapDays
  rcases Nat.lt_or_ge d.year 1977 with hlt | hge
  · have hcases : d.year = 1970 ∨ d.year = 1971 ∨ d.year = 1972 ∨ d.year = 1973 ∨ d.year = 1974 ∨
      d.year = 1975 ∨ d.year = 1976 := by omega
    rcases hcases with hy | hy | hy | hy | hy | hy | hy <;> simp [hy, leapYears, isLeap]
    omega
  · have hmono : leapYears 1970 7 ≤ leapYears 1970 (d.year - 1970) := leapYears_mono (by omega)
    have htwo : leapYears 1970 7 = 2 := by decide
    omega

theorem readRtcValues_unixTime (h : readRtcValues rtc acpi k t = some (f, t')) :
    unixTime rtc acpi k t = f.unixTime := by
  rw [unixTime, h]
  rfl

/-- **The Unix time** is what `unixTime` returns from March 1972 to February 1976, when
the missing leap day makes up for the first of a month being day 1, and never else. -/
theorem unixTime_iff (h : readRtcValues rtc acpi k t = some (f, t')) (hf : f.moment.Valid)
    (hyear : 1970 ≤ f.year.toNat) :
    (∃ v, unixTime rtc acpi k t = some v ∧ Moment.tick^[v.toNat] (start 1970) = f.moment) ↔
      (f.year.toNat = 1972 ∧ 3 ≤ f.month.toNat) ∨ (1973 ≤ f.year.toNat ∧ f.year.toNat ≤ 1975) ∨
        (f.year.toNat = 1976 ∧ f.month.toNat ≤ 2) := by
  obtain ⟨v, hv, hcount⟩ := unixTime_eq hf hyear
  rw [readRtcValues_unixTime h, hv]
  have hone := leapDays_eq_one_iff (d := f.moment.date) hyear
  constructor
  · rintro ⟨w, hw, htick⟩
    obtain rfl := Option.some.inj hw
    have heq := (iterate_tick_eq_iff hf hyear).mp htick
    exact hone.mp (by omega)
  · intro hdate
    have heq : leapDays f.moment.date = 1 := hone.mpr hdate
    exact ⟨v, rfl, (iterate_tick_eq_iff hf hyear).mpr (by omega)⟩

/-- A clock that stands still. -/
def still (c : Comps) (regB : BitVec 8) : Rtc := fun _ reg =>
  if reg = CMOS_REG_SECONDS then c.seconds
  else if reg = CMOS_REG_MINUTES then c.minutes
  else if reg = CMOS_REG_HOURS then c.hours
  else if reg = CMOS_REG_DAY then c.day
  else if reg = CMOS_REG_MONTH then c.month
  else if reg = CMOS_REG_YEAR then c.year
  else if reg = CMOS_REG_CENTURY then c.century
  else if reg = CMOS_REG_STAT_B then regB
  else 0

/-- 15 June 1974, 12:30:45, in BCD and with 24 hours. -/
def june1974 : Comps :=
  { seconds := 0x45, minutes := 0x30, hours := 0x12, day := 0x15, month := 0x06, year := 0x74,
    century := 0x19 }

theorem unixTime_june1974 :
    (∃ v, unixTime (still june1974 0x02) ⟨true, 0x32⟩ 2 0 = some v ∧
      Moment.tick^[v.toNat] (start 1970) = ⟨⟨1974, 6, 15⟩, 12, 30, 45⟩) ↔
      (1974 = 1972 ∧ 3 ≤ 6) ∨ (1973 ≤ 1974 ∧ 1974 ≤ 1975) ∨ (1974 = 1976 ∧ 6 ≤ 2) :=
  have hread : readRtcValues (still june1974 0x02) ⟨true, 0x32⟩ 2 0 =
    some (⟨45, 30, 12, 15, 6, 1974⟩, 17) := by decide
  unixTime_iff hread ⟨⟨by decide, by decide, by decide, by decide⟩, by decide, by decide, by decide⟩
    (by decide)

/-- The start of 2026. -/
def newYear2026 : Comps :=
  { seconds := 0, minutes := 0, hours := 0, day := 0x01, month := 0x01, year := 0x26,
    century := 0x20 }

/-- It is 13 days late: 14 leap days are missing. -/
theorem unixTime_late :
    ¬ ∀ (rtc : Rtc) (acpi : Acpi) (k t t' : Nat) (f : Fields),
      readRtcValues rtc acpi k t = some (f, t') → f.moment.Valid →
      1970 ≤ f.year.toNat → ∃ v, unixTime rtc acpi k t = some v ∧
        Moment.tick^[v.toNat] (start 1970) = f.moment := by
  intro hall
  have hvalid : (⟨0, 0, 0, 1, 1, 2026⟩ : Fields).moment.Valid :=
    ⟨⟨by decide, by decide, by decide, by decide⟩, by decide, by decide, by decide⟩
  obtain ⟨v, hv, htick⟩ := hall (still newYear2026 0x02) ⟨true, 0x32⟩ 2 0 17 ⟨0, 0, 0, 1, 1, 2026⟩
    (by decide) hvalid (by decide)
  have hcode : unixTime (still newYear2026 0x02) ⟨true, 0x32⟩ 2 0 = some 1766102400 := by decide
  obtain rfl := Option.some.inj (hv.symm.trans hcode)
  have hcount := (iterate_tick_eq_iff hvalid (by decide)).mp htick
  revert hcount
  decide

/-! ## twelve hours -/

/-- With twelve hours and BCD the bit for the afternoon is lost: it is looked for after
the conversion, which made it 80 hours. -/
theorem pm_bcd_invalid (c : Comps) (acpi : Acpi) (regB : BitVec 8) (hmode : regB &&& 0x4 = 0)
    (hpm : 0x80 ≤ c.hours) (hhour : c.hours ≤ 0x92) :
    ¬ ((c.convert regB).fields acpi).moment.Valid := by
  have hlost : ∀ h : BitVec 8, 0x80 ≤ h → h ≤ 0x92 →
    fromBcd h &&& 0x80 = 0 ∧ 80 ≤ (fromBcd h).toNat := by decide
  obtain ⟨hbit, hbig⟩ := hlost c.hours hpm hhour
  intro hvalid
  have hlt : (c.convert regB).hours.toNat < 24 := hvalid.hour
  rw [Comps.convert, if_pos hmode, if_neg fun hset => hset.2 hbit] at hlt
  exact Nat.not_lt.mpr (Nat.le_trans (by decide) hbig) hlt

end Doors.Cmos

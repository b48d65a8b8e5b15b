import Mathlib.Tactic.Common
import Mathlib.Logic.Function.Iterate

/-!
# Doors.Lib.Calendar

The Gregorian calendar, and clocks that run in it.

`Date.next` is the day after and `Moment.tick` the second after; there are no leap
seconds.  How many seconds lie between two moments is how often the clock ticks on the way.

* `iterate_tick` — every moment from the start of the year `base` on is reached, after
  `seconds base` ticks;
* `iterate_tick_eq_iff` — and after no other number of them.
-/

namespace Calendar

def isLeap (y : Nat) : Bool := y % 4 = 0 && (y % 100 ≠ 0 || y % 400 = 0)

/-- The days of month `m`, with January as 1. -/
def daysIn (y m : Nat) : Nat :=
  if m = 2 then if isLeap y then 29 else 28
  else if m = 4 ∨ m = 6 ∨ m = 9 ∨ m = 11 then 30
  else 31

structure Date where
  year : Nat
  month : Nat
  day : Nat
  deriving DecidableEq, Repr

structure Date.Valid (d : Date) : Prop where
  month_pos : 1 ≤ d.month
  month_le : d.month ≤ 12
  day_pos : 1 ≤ d.day
  day_le : d.day ≤ daysIn d.year d.month

/-- The next day. -/
def Date.next (d : Date) : Date :=
  if d.day < daysIn d.year d.month then { d with day := d.day + 1 }
  else if d.month < 12 then { d with month := d.month + 1, day := 1 }
  else { year := d.year + 1, month := 1, day := 1 }

structure Moment where
  date : Date
  hour : Nat
  minute : Nat
  second : Nat
  deriving DecidableEq, Repr

structure Moment.Valid (m : Moment) : Prop where
  date : m.date.Valid
  hour : m.hour < 24
  minute : m.minute < 60
  second : m.second < 60

/-- The next second. -/
def Moment.tick (m : Moment) : Moment :=
  if m.second < 59 then { m with second := m.second + 1 }
  else if m.minute < 59 then { m with minute := m.minute + 1, second := 0 }
  else if m.hour < 23 then { m with hour := m.hour + 1, minute := 0, second := 0 }
  else { date := m.date.next, hour := 0, minute := 0, second := 0 }

/-- Midnight at the start of the year `base`. -/
def start (base : Nat) : Moment :=
  { date := { year := base, month := 1, day := 1 }, hour := 0, minute := 0, second := 0 }

/-! ## counting -/

/-- The leap years among the `n` years from `base` on. -/
def leapYears (base : Nat) : Nat → Nat
  | 0 => 0
  | n + 1 => leapYears base n + if isLeap (base + n) then 1 else 0

/-- The days of the first `n` months of a year. -/
def monthDays (y : Nat) : Nat → Nat
  | 0 => 0
  | n + 1 => monthDays y n + daysIn y (n + 1)

/-- The days from the start of the year `base` on. -/
def days (base : Nat) (d : Date) : Nat :=
  365 * (d.year - base) + leapYears base (d.year - base) + monthDays d.year
    (d.month - 1) + (d.day - 1)

/-- The seconds from the start of the year `base` on. -/
def seconds (base : Nat) (m : Moment) : Nat :=
  ((days base m.date * 24 + m.hour) * 60 + m.minute) * 60 + m.second

variable {base y n : Nat} {d : Date} {m : Moment}

/-- No month is empty. -/
theorem daysIn_pos (y n : Nat) : 1 ≤ daysIn y n := by
  unfold daysIn
  grind

/-- No month is longer than 31 days. -/
theorem daysIn_le (y n : Nat) : daysIn y n ≤ 31 := by
  unfold daysIn
  grind

/-- The months before a month. -/
theorem monthDays_le (y n : Nat) : monthDays y n ≤ 31 * n := by
  induction n with
  | zero => exact Nat.le_refl _
  | succ n ih => exact Nat.add_le_add ih (daysIn_le y (n + 1))

/-- A year has 365 days, or 366. -/
theorem monthDays_year (y : Nat) : monthDays y 12 = 365 + if isLeap y then 1 else 0 := by
  cases hleap : isLeap y <;> simp [monthDays, daysIn, hleap]

/-- Later years have more leap years behind them. -/
theorem leapYears_mono {k : Nat} (h : n ≤ k) : leapYears base n ≤ leapYears base k := by
  induction h with
  | refl => exact Nat.le_refl _
  | step _ ih => exact Nat.le_trans ih (Nat.le_add_right _ _)

/-! ## one day on -/

/-- The day after a date is a date. -/
theorem Date.Valid.next (h : d.Valid) : d.next.Valid := by
  have hpos := daysIn_pos d.year (d.month + 1)
  have hpos' := daysIn_pos (d.year + 1) 1
  obtain ⟨h₁, h₂, h₃, h₄⟩ := h
  unfold Date.next
  split
  · exact ⟨h₁, h₂, by simp, by simp; omega⟩
  · split
    · exact ⟨by simp, by simp; omega, by simp, hpos⟩
    · exact ⟨by simp, by simp, by simp, hpos'⟩

/-- Years do not go back. -/
theorem Date.year_le_next (d : Date) : d.year ≤ d.next.year := by
  unfold Date.next
  grind

/-- The next day counts one more. -/
theorem days_next (h : d.Valid) (hbase : base ≤ d.year) : days base d.next = days base d + 1 := by
  obtain ⟨h₁, h₂, h₃, h₄⟩ := h
  obtain ⟨k, hk⟩ := Nat.exists_eq_add_of_le' h₁
  unfold Date.next
  split
  · simp only [days]
    omega
  · split
    · have hmonth : monthDays d.year (d.month - 1) + daysIn d.year d.month =
          monthDays d.year d.month := by
        rw [hk]
        rfl
      simp only [days, Nat.add_sub_cancel]
      omega
    · have hyear := monthDays_year d.year
      have hmonth : monthDays d.year (d.month - 1) + daysIn d.year d.month =
          monthDays d.year 12 := by
        rw [show d.month = 12 by omega]
        rfl
      have hleap : leapYears base (d.year + 1 - base) =
          leapYears base (d.year - base) + if isLeap d.year then 1 else 0 := by
        rw [show d.year + 1 - base = d.year - base +
          1 by omega, leapYears, Nat.add_sub_cancel' hbase]
      have hnone : monthDays (d.year + 1) 0 = 0 := rfl
      simp only [days, Nat.sub_self, hnone]
      omega

/-- Every day but the first follows on another. -/
theorem exists_next_eq (h : d.Valid) (hbase : base ≤ d.year) (hne : d ≠ (start base).date) :
    ∃ e : Date, e.Valid ∧ base ≤ e.year ∧ e.next = d := by
  obtain ⟨y, m, k⟩ := d
  obtain ⟨h₁, h₂, h₃, h₄⟩ := h
  dsimp only at *
  by_cases hday : k = 1
  · by_cases hmonth : m = 1
    · have hyear : y ≠ base := by
        rintro rfl
        exact hne (by simp [start, hday, hmonth])
      refine ⟨⟨y - 1, 12, 31⟩, ⟨by simp, by simp, by simp, by simp [daysIn]⟩, by simp; omega, ?_⟩
      simp [Date.next, daysIn, hday, hmonth]
      omega
    · have hpos := daysIn_pos y (m - 1)
      refine ⟨⟨y, m - 1, daysIn y (m - 1)⟩, ⟨by simp; omega, by simp; omega, hpos, Nat.le_refl _⟩,
        hbase, ?_⟩
      rw [Date.next, if_neg (Nat.lt_irrefl _), if_pos (by dsimp only; omega), hday,
        Nat.sub_add_cancel h₁]
  · refine ⟨⟨y, m, k - 1⟩, ⟨h₁, h₂, by simp; omega, by simp; omega⟩, hbase, ?_⟩
    rw [Date.next, if_pos (by dsimp only; omega), Nat.sub_add_cancel h₃]

/-! ## one second on -/

/-- The second after a moment is a moment. -/
theorem Moment.Valid.tick (h : m.Valid) : m.tick.Valid := by
  obtain ⟨hdate, h₁, h₂, h₃⟩ := h
  have hnext := hdate.next
  unfold Moment.tick
  grind [Moment.Valid]

/-- Years do not go back. -/
theorem Moment.year_le_tick (m : Moment) : m.date.year ≤ m.tick.date.year := by
  have hnext := m.date.year_le_next
  unfold Moment.tick
  grind

/-- The next second counts one more. -/
theorem seconds_tick (h : m.Valid) (hbase : base ≤ m.date.year) :
    seconds base m.tick = seconds base m + 1 := by
  have hnext := days_next h.date hbase
  obtain ⟨-, h₁, h₂, h₃⟩ := h
  unfold Moment.tick
  split
  · simp only [seconds]
    omega
  · split
    · simp only [seconds]
      omega
    · split
      · simp only [seconds]
        omega
      · simp only [seconds, hnext]
        omega

/-- Every second but the first follows on another. -/
theorem exists_tick_eq (h : m.Valid) (hbase : base ≤ m.date.year) (hne : m ≠ start base) :
    ∃ e : Moment, e.Valid ∧ base ≤ e.date.year ∧ e.tick = m := by
  obtain ⟨d, hour, minute, second⟩ := m
  obtain ⟨hdate, h₁, h₂, h₃⟩ := h
  dsimp only at *
  rcases Nat.eq_zero_or_pos second with rfl | hsecond
  · rcases Nat.eq_zero_or_pos minute with rfl | hminute
    · rcases Nat.eq_zero_or_pos hour with rfl | hhour
      · have hday : d ≠ (start base).date := by
          rintro rfl
          exact hne rfl
        obtain ⟨e, he, hyear, rfl⟩ := exists_next_eq hdate hbase hday
        exact ⟨⟨e, 23, 59, 59⟩, ⟨he, by simp, by simp, by simp⟩, hyear, rfl⟩
      · exact ⟨⟨d, hour - 1, 59, 59⟩, ⟨hdate, by simp; omega, by simp, by simp⟩,
          hbase, by grind [Moment.tick]⟩
    · exact ⟨⟨d, hour, minute - 1, 59⟩, ⟨hdate, h₁, by simp; omega, by simp⟩,
        hbase, by grind [Moment.tick]⟩
  · exact ⟨⟨d, hour, minute, second - 1⟩, ⟨hdate, h₁, h₂, by simp; omega⟩,
      hbase, by grind [Moment.tick]⟩

/-! ## many seconds on -/

/-- Midnight at the start of a year. -/
theorem start_valid (base : Nat) : (start base).Valid :=
  ⟨⟨by simp [start], by simp [start], by simp [start], by simp [start, daysIn]⟩, by simp [start],
    by simp [start], by simp [start]⟩

/-- Counting starts there. -/
theorem seconds_start (base : Nat) : seconds base (start base) = 0 := by
  simp [seconds, days, start, leapYears, monthDays]

/-- The moment `n` seconds after the start. -/
theorem iterate_spec (base n : Nat) :
    (Moment.tick^[n] (start base)).Valid ∧ base ≤ (Moment.tick^[n] (start base)).date.year ∧
      seconds base (Moment.tick^[n] (start base)) = n := by
  induction n with
  | zero => exact ⟨start_valid base, Nat.le_refl _, seconds_start base⟩
  | succ n ih =>
      obtain ⟨hvalid, hyear, hcount⟩ := ih
      rw [Function.iterate_succ_apply']
      exact ⟨hvalid.tick,
        Nat.le_trans hyear (Moment.year_le_tick _), by rw [seconds_tick hvalid hyear, hcount]⟩

/-- **Every moment** from the start of `base` on is reached, after `seconds base` ticks. -/
theorem iterate_tick (h : m.Valid) (hbase : base ≤ m.date.year) :
    Moment.tick^[seconds base m] (start base) = m := by
  generalize hn : seconds base m = n
  induction n generalizing m with
  | zero =>
      by_contra hne
      obtain ⟨e, he, hyear, rfl⟩ := exists_tick_eq h hbase (Ne.symm hne)
      rw [seconds_tick he hyear] at hn
      exact Nat.succ_ne_zero _ hn
  | succ n ih =>
      have hne : m ≠ start base := by
        rintro rfl
        rw [seconds_start] at hn
        omega
      obtain ⟨e, he, hyear, rfl⟩ := exists_tick_eq h hbase hne
      rw [seconds_tick he hyear] at hn
      rw [Function.iterate_succ_apply', ih he hyear (Nat.succ.inj hn)]

/-- The number of ticks to a moment. -/
theorem iterate_tick_eq_iff (h : m.Valid) (hbase : base ≤ m.date.year) :
    Moment.tick^[n] (start base) = m ↔ n = seconds base m := by
  constructor
  · rintro rfl
    exact (iterate_spec base n).2.2.symm
  · rintro rfl
    exact iterate_tick h hbase

end Calendar

import Norbital.Std.Periods
import Norbital.Std.Zone

/-!
# Shifted time

The clock of `std/src/vars.ts`: `shift` of dates, `instant` of instants, what
`evaluateVar` computes of a clock and at most one span, and the SQL interval
`clockDefault` returns for it.  Instants are milliseconds from 1970.
-/

namespace Norbital.Std

open Gregorian

/-- Whole months, whole days and milliseconds. -/
structure Span where
  months : ℤ
  days : ℤ
  ms : ℤ
  deriving DecidableEq

/-- How far from 1970 a `Date` reaches. -/
def dateReach : ℕ := 8640000000000000

/-- `TimeClip`; `none` is an invalid `Date`. -/
def timeClip (t : ℤ) : Option ℤ := if t.natAbs ≤ dateReach then some t else none

/-- The calendar day of an instant in UTC, by its number. -/
def utcDay (t : ℤ) : ℤ := t / dayMs + epoch

/-- `toISOString().slice(0, 10)`. -/
def utcDate (t : ℤ) : String := isoDay (utcDay t)

/-- The instant so many months on, its day of the month overflowing into the next. -/
def monthsOn (t months : ℤ) : ℤ :=
  let k := monthAt (utcDay t)
  (opens (k + months) + (utcDay t - opens k) - epoch) * dayMs + t % dayMs

/-- `at.setUTCMonth(at.getUTCMonth() + months)`. -/
def setUTCMonth (t months : ℤ) : Option ℤ := timeClip (monthsOn t months)

def shift (d : String) (s : Span) (sign : ℤ) : Except String String :=
  if s.ms ≠ 0 then .error "a date shifts by whole days, weeks, months or years"
  else do
    let m ← addMonths d (sign * s.months)
    let e ← addDays m (sign * s.days)
    plainDate e

def instant (t : ℤ) (s : Span) (sign : ℤ) : Option ℤ :=
  (setUTCMonth t (sign * s.months)).bind fun u => timeClip (u + sign * (s.days * dayMs + s.ms))

inductive ClockBase where
  | now
  | today
  deriving DecidableEq, Repr

inductive ClockUnit where
  | minutes
  | hours
  | days
  | weeks
  deriving DecidableEq, Repr

/-- A clock, shifted by at most one span: `true` subtracts. -/
structure Clock where
  base : ClockBase
  offset : Option (Bool × ClockUnit × ℕ)
  deriving DecidableEq, Repr

/-- What a text begins with, out of several, and its rest. -/
def readOneOf {α : Type} (names : List (String × α)) (cs : List Char) : Option (α × List Char) :=
  names.findSome? fun e => (e.1.toList.isPrefixOf? cs).map fun rest => (e.2, rest)

def clockUnits : List (String × ClockUnit) := [("minutes", .minutes), ("hours", .hours), ("days", .days), ("weeks", .weeks)]

/-- `(?:\s*([+-])\s*(minutes|hours|days|weeks)\((\d+)\))?$`. -/
def readShift (cs : List Char) : Option (Option (Bool × ClockUnit × ℕ)) :=
  if cs.isEmpty then some none
  else do
    let (minus, cs) ← readOneOf [("+", false), ("-", true)] (cs.dropWhile Lib.isSpace)
    let (unit, cs) ← readOneOf clockUnits (cs.dropWhile Lib.isSpace)
    let cs ← "(".toList.isPrefixOf? cs
    let count := cs.takeWhile Char.isDigit
    if isDigits count && cs.dropWhile Char.isDigit == [')'] then some (some (minus, unit, digitsValue count)) else none

/-- `^(now|today)…$` of a trimmed text. -/
def readClock (text : String) : Option Clock := do
  let (base, cs) ← readOneOf [("now", ClockBase.now), ("today", ClockBase.today)] (Lib.trim text.toList)
  let offset ← readShift cs
  return ⟨base, offset⟩

inductive SqlUnit where
  | minutes
  | hours
  | days
  deriving DecidableEq, Repr

def SqlUnit.text : SqlUnit → String
  | .minutes => "minutes"
  | .hours => "hours"
  | .days => "days"

/-- A base and its signed SQL interval. -/
structure ClockDefault where
  base : ClockBase
  interval : Option (Bool × SqlUnit × ℕ)
  deriving DecidableEq, Repr

def ClockDefault.text (c : ClockDefault) : String :=
  match c.interval with
  | none => ""
  | some (minus, unit, n) =>
    let sign := if minus then "-" else "+"
    let name := unit.text
    s!" {sign} interval '{n} {name}'"

/-- `clockDefault` of a text that was read. -/
def Clock.default (c : Clock) : Option ClockDefault :=
  match c.offset with
  | none => some ⟨c.base, none⟩
  | some (minus, unit, n) =>
    match unit with
    | .minutes => if c.base = .today then none else some ⟨c.base, some (minus, .minutes, n)⟩
    | .hours => if c.base = .today then none else some ⟨c.base, some (minus, .hours, n)⟩
    | .days => some ⟨c.base, some (minus, .days, n)⟩
    | .weeks => some ⟨c.base, some (minus, .days, 7 * n)⟩

def clockDefault (text : String) : Option ClockDefault := (readClock text).bind Clock.default

example : (clockDefault "now - hours(1)").map ClockDefault.text = some " - interval '1 hours'" := by decide

inductive ClockValue where
  | date (iso : String)
  | instant (t : ℤ)
  deriving DecidableEq

/-- `minutes(x)` and its like. -/
def ClockUnit.span (n : ℕ) : ClockUnit → Span
  | .minutes => ⟨0, 0, n * 60000⟩
  | .hours => ⟨0, 0, n * 3600000⟩
  | .days => ⟨0, n, 0⟩
  | .weeks => ⟨0, 7 * n, 0⟩

def ClockUnit.ms : ClockUnit → ℤ
  | .minutes => 60000
  | .hours => 3600000
  | .days => dayMs
  | .weeks => 7 * dayMs

def signOf (minus : Bool) : ℤ := if minus then -1 else 1

/-- `evaluateVar` of a clock at an instant; `none` throws. -/
def Clock.evaluate (t : ℤ) (c : Clock) : Option ClockValue :=
  match c.base, c.offset with
  | .now, none => (timeClip t).map .instant
  | .now, some (minus, unit, n) => (Std.instant t (unit.span n) (signOf minus)).map .instant
  | .today, none => some (.date (utcDate t))
  | .today, some (minus, unit, n) => (shift (utcDate t) (unit.span n) (signOf minus)).toOption.map .date

/-- Milliseconds of one. -/
def SqlUnit.ms : SqlUnit → ℤ
  | .minutes => 60000
  | .hours => 3600000
  | .days => dayMs

/-- Whether PostgreSQL holds an interval of so many: days are 32 bits, a time 64 bits of microseconds. -/
def SqlUnit.holds (n : ℕ) : SqlUnit → Bool
  | .minutes => (n * 60000000 : ℕ) < 2 ^ 63
  | .hours => (n * 3600000000 : ℕ) < 2 ^ 63
  | .days => n < 2 ^ 31

/-- Whether PostgreSQL holds an instant: from 4714 BC to 294276. -/
def pgHolds (t : ℤ) : Bool := -210866803200000 ≤ t && t < 9224318016000000

/-- `now()` with the interval, in UTC; `none` is out of range. -/
def ClockDefault.instant (t : ℤ) (c : ClockDefault) : Option ℤ :=
  match c.interval with
  | none => if pgHolds t then some t else none
  | some (minus, unit, n) =>
    let u := t + signOf minus * (n * unit.ms)
    if unit.holds n && pgHolds u then some u else none

/-- The base plus the interval. -/
def ClockDefault.value (t : ℤ) (c : ClockDefault) : Option ClockValue :=
  match c.base with
  | .now => (c.instant t).map .instant
  | .today => (c.instant t).map fun u => .date (utcDate u)

/-- A day and an instant mean the same, or both were thrown. -/
def Agrees (d : Except String String) (u : Option ℤ) : Prop :=
  (∃ v, u = some v ∧ d = .ok (utcDate v)) ∨ u = none ∧ ∃ e, d = .error e

/-- The day of the month stands in the target month, and the day reached is in the calendar. -/
def Lands (t : ℤ) (s : Span) (sign : ℤ) : Prop :=
  let k := monthAt (utcDay t)
  let target := k + sign * s.months
  let day := opens target + (utcDay t - opens k)
  (0 ≤ target ∧ target < 120000) ∧ day < opens (target + 1) ∧ 0 ≤ day + sign * s.days ∧ day + sign * s.days < dayCount

/-- The shift leaves the reach of a `Date`. -/
def Leaves (t : ℤ) (s : Span) (sign : ℤ) : Prop :=
  dateReach < (monthsOn t (sign * s.months)).natAbs ∨
    dateReach < (monthsOn t (sign * s.months) + sign * s.days * dayMs).natAbs

instance (t : ℤ) (s : Span) (sign : ℤ) : Decidable (Lands t s sign) := inferInstanceAs (Decidable ((_ ∧ _) ∧ _ ∧ _ ∧ _))

instance (t : ℤ) (s : Span) (sign : ℤ) : Decidable (Leaves t s sign) := inferInstanceAs (Decidable (_ ∨ _))

section Days

variable {n m d : ℤ}

/-- The day of a month's index, clamped to the month's last. -/
def clamped (n k : ℤ) : ℤ := min (opens k + (n - opens (monthAt n))) (opens (k + 1) - 1)

theorem clamped_mem (hlow : 0 ≤ n) (hhigh : n < dayCount) {k : ℤ} (hk : 0 ≤ k) (hk' : k < 120000) :
    0 ≤ clamped n k ∧ clamped n k < dayCount ∧ opens k + (n - opens (monthAt n)) - clamped n k < 31 := by
  have hfirst : opens 0 ≤ opens k := opens_strictMono.monotone hk
  have hlast : opens (k + 1) ≤ opens 120000 := opens_strictMono.monotone (by omega)
  have hzero : opens 0 = 0 := by decide
  have hall : opens 120000 = dayCount := by decide
  have hlength := le_monthLength (k / 12) (k % 12).toNat
  have hnext := opens_succ k
  obtain ⟨-, -, hle, hlt⟩ := parts_of_number hlow hhigh
  have hlength' := monthLength_le (monthAt n / 12) (monthAt n % 12).toNat
  rw [clamped]
  omega

theorem addMonths_dayText (hlow : 0 ≤ n) (hhigh : n < dayCount) (m : ℤ) :
    (0 ≤ monthAt n + m ∧ monthAt n + m < 120000 ∧ addMonths (dayText n) m = .ok (dayText (clamped n (monthAt n + m)))) ∨
      ¬(0 ≤ monthAt n + m ∧ monthAt n + m < 120000) ∧ ∃ e, addMonths (dayText n) m = .error e := by
  obtain ⟨year, month, day, hyear, hmonth, hday, hlast, hn, htext⟩ := dayText_parts hlow hhigh
  have hlength := daysInMonth_eq year month
  have hk : monthAt n = 12 * year + month := by
    rw [hn]
    refine monthAt_opens_add (by omega) ?_
    rw [show (12 * (year : ℤ) + month) / 12 = year by omega, show (12 * (year : ℤ) + month) % 12 = month by omega,
      Int.toNat_natCast]
    omega
  have hindex : (year : ℤ) * 12 + (month + m) = monthAt n + m := by omega
  rw [htext, addMonths_dateText hyear hmonth hday hlast]
  simp only [hindex]
  by_cases hout : monthAt n + m < 0 ∨ 120000 ≤ monthAt n + m
  · rw [if_pos hout]
    exact .inr ⟨by omega, _, rfl⟩
  · rw [if_neg hout]
    refine .inl ⟨by omega, by omega, ?_⟩
    obtain ⟨k, hkm⟩ : ∃ k, k = monthAt n + m := ⟨_, rfl⟩
    rw [← hkm] at hout ⊢
    have hsome := le_daysInMonth (k / 12).toNat ((k % 12).toNat + 1)
    have htarget : 12 * (((k / 12).toNat : ℕ) : ℤ) + (((k % 12).toNat : ℕ) : ℤ) = k := by omega
    have hlength' := daysInMonth_eq (k / 12).toNat (k % 12).toNat
    rw [← @dayText_eq (k / 12).toNat (k % 12).toNat _ (by omega) (by omega) (Nat.min_le_right _ _), htarget, clamped]
    congr 2
    have hnext := opens_succ k
    rw [show (((k / 12).toNat : ℕ) : ℤ) = k / 12 by omega] at hlength'
    have hday' : n - opens (monthAt n) = day - 1 := by
      rw [hk, hn]
      omega
    omega

/-- The day reached from a day of the calendar, or thrown. -/
theorem addDays_plain (hlow : 0 ≤ n) (hhigh : n < dayCount) (d : ℤ) :
    (0 ≤ n + d ∧ n + d < dayCount ∧ (addDays (dayText n) d >>= plainDate) = .ok (dayText (n + d))) ∨
      ¬(0 ≤ n + d ∧ n + d < dayCount) ∧ ∃ e, (addDays (dayText n) d >>= plainDate) = .error e := by
  by_cases hin : 0 ≤ n + d ∧ n + d < dayCount
  · refine .inl ⟨hin.1, hin.2, ?_⟩
    rw [addDays_dayText hlow hhigh hin.1 hin.2, Fallible.ok_bind, plainDate_dayText hin.1 hin.2]
  · refine .inr ⟨hin, ?_⟩
    cases hadd : addDays (dayText n) d with
    | error e => exact ⟨e, rfl⟩
    | ok e =>
      rw [Fallible.ok_bind, plainDate]
      rw [addDays, plainDate_dayText hlow hhigh, Fallible.ok_bind, toDays_dayText hlow hhigh, fromDays] at hadd
      split_ifs at hadd
      obtain rfl := Except.ok.inj hadd
      rw [show n - epoch + d + epoch = n + d by omega, isoDay, if_neg hin, if_neg (not_isPlainDate_expandedText _)]
      exact ⟨_, rfl⟩

theorem shift_spec (hlow : 0 ≤ n) (hhigh : n < dayCount) {s : Span} (hs : s.ms = 0) (sign : ℤ) :
    ((0 ≤ monthAt n + sign * s.months ∧ monthAt n + sign * s.months < 120000) ∧
        (0 ≤ clamped n (monthAt n + sign * s.months) + sign * s.days ∧
          clamped n (monthAt n + sign * s.months) + sign * s.days < dayCount) ∧
        shift (dayText n) s sign = .ok (dayText (clamped n (monthAt n + sign * s.months) + sign * s.days))) ∨
      ¬((0 ≤ monthAt n + sign * s.months ∧ monthAt n + sign * s.months < 120000) ∧
          0 ≤ clamped n (monthAt n + sign * s.months) + sign * s.days ∧
          clamped n (monthAt n + sign * s.months) + sign * s.days < dayCount) ∧ ∃ e, shift (dayText n) s sign = .error e := by
  rw [shift, if_neg (not_not_intro hs)]
  obtain ⟨hk, hk', hmonths⟩ | ⟨hout, e, hmonths⟩ := addMonths_dayText hlow hhigh (sign * s.months)
  · obtain ⟨hc, hc', -⟩ := clamped_mem hlow hhigh hk hk'
    rw [hmonths, Fallible.ok_bind]
    obtain ⟨hd, hd', hdays⟩ | ⟨hout, e, hdays⟩ := addDays_plain hc hc' (sign * s.days)
    · exact .inl ⟨⟨hk, hk'⟩, ⟨hd, hd'⟩, hdays⟩
    · exact .inr ⟨fun h => hout h.2, e, hdays⟩
  · rw [hmonths]
    exact .inr ⟨fun h => hout h.1, e, rfl⟩

theorem dayText_inj (hn : 0 ≤ n) (hn' : n < dayCount) (hm : 0 ≤ m) (hm' : m < dayCount) (h : dayText n = dayText m) : n = m := by
  rw [← dayNumber_dayText hn hn', h, dayNumber_dayText hm hm']

end Days

section Instants

variable {t : ℤ} {s : Span}

theorem utcDay_monthsOn (t months days : ℤ) :
    utcDay (monthsOn t months + days * dayMs) = opens (monthAt (utcDay t) + months) + (utcDay t - opens (monthAt (utcDay t))) + days := by
  simp only [monthsOn, utcDay, dayMs]
  omega

/-- The instants of a day. -/
theorem natAbs_le_of_utcDay {u : ℤ} (hlow : -1000 ≤ utcDay u) (hhigh : utcDay u ≤ dayCount + 1000) : u.natAbs ≤ dateReach := by
  simp only [utcDay, dayMs, epoch, dayCount, dateReach] at *
  omega

theorem instant_eq (hs : s.ms = 0) (sign : ℤ) :
    instant t s sign =
      if Leaves t s sign then none else some (monthsOn t (sign * s.months) + sign * s.days * dayMs) := by
  have hstep : sign * (s.days * dayMs + s.ms) = sign * s.days * dayMs := by rw [hs, add_zero, mul_assoc]
  rw [instant, setUTCMonth, timeClip]
  by_cases hfirst : (monthsOn t (sign * s.months)).natAbs ≤ dateReach
  · rw [if_pos hfirst, Option.bind_some, hstep, timeClip]
    by_cases hsecond : (monthsOn t (sign * s.months) + sign * s.days * dayMs).natAbs ≤ dateReach
    · rw [if_pos hsecond, if_neg]
      exact fun h => h.elim (not_lt.mpr hfirst) (not_lt.mpr hsecond)
    · rw [if_neg hsecond, if_pos (.inr (not_le.mp hsecond))]
  · rw [if_neg hfirst, if_pos (.inl (not_le.mp hfirst))]
    rfl

/-- A shift means the same for a date and an instant when no day is clamped and the calendar is not left. -/
theorem agrees_iff_lands (hlow : 0 ≤ utcDay t) (hhigh : utcDay t < dayCount) (hs : s.ms = 0) (sign : ℤ) :
    Agrees (shift (utcDate t) s sign) (instant t s sign) ↔ Lands t s sign ∨ Leaves t s sign := by
  obtain ⟨k, hk⟩ : ∃ k, k = monthAt (utcDay t) + sign * s.months := ⟨_, rfl⟩
  obtain ⟨day, hday⟩ : ∃ day, day = opens k + (utcDay t - opens (monthAt (utcDay t))) := ⟨_, rfl⟩
  have hspec := shift_spec hlow hhigh hs sign
  have hinstant := @instant_eq t s hs sign
  have hfirst : utcDay (monthsOn t (sign * s.months)) = day := by
    have h := utcDay_monthsOn t (sign * s.months) 0
    rw [zero_mul, add_zero, add_zero, ← hk, ← hday] at h
    exact h
  have hlast : utcDay (monthsOn t (sign * s.months) + sign * s.days * dayMs) = day + sign * s.days := by
    rw [utcDay_monthsOn, ← hk, ← hday]
  rw [utcDate, isoDay_eq hlow hhigh, Agrees, Lands]
  simp only [← hk, ← hday] at hspec ⊢
  by_cases hleaves : Leaves t s sign
  · -- whatever leaves the reach of a date has left the calendar long before
    rw [if_pos hleaves] at hinstant
    refine iff_of_true (.inr ⟨hinstant, ?_⟩) (.inr hleaves)
    obtain ⟨⟨hin, hin'⟩, ⟨hd, hd'⟩, -⟩ | ⟨-, h⟩ := hspec
    · obtain ⟨hc, hc', hover⟩ := clamped_mem hlow hhigh hin hin'
      have hunder : clamped (utcDay t) k ≤ day := hday ▸ min_le_left _ _
      rw [← hday] at hover
      obtain h | h := hleaves
      · exact absurd (natAbs_le_of_utcDay (by omega) (by omega)) (not_le.mpr h)
      · exact absurd (natAbs_le_of_utcDay (by omega) (by omega)) (not_le.mpr h)
    · exact h
  · rw [if_neg hleaves] at hinstant
    rw [hinstant, or_iff_left hleaves]
    simp only [reduceCtorEq, false_and, or_false, Option.some.injEq, exists_eq_left', utcDate, hlast]
    constructor
    · intro h
      obtain ⟨hin, ⟨hd, hd'⟩, hok⟩ | ⟨-, e, herr⟩ := hspec
      · rw [hok] at h
        have heq : isoDay (day + sign * s.days) = dayText (clamped (utcDay t) k + sign * s.days) := (Except.ok.inj h).symm
        rw [isoDay] at heq
        split_ifs at heq with hcal
        · have hsame := dayText_inj hcal.1 hcal.2 hd hd' heq
          have hle : clamped (utcDay t) k ≤ opens (k + 1) - 1 := min_le_right _ _
          exact ⟨hin, by omega, hcal⟩
        · exact absurd (heq ▸ isPlainDate_dayText hd hd') (not_isPlainDate_expandedText _)
      · rw [herr] at h
        cases h
    · rintro ⟨hin, hfits, hcal⟩
      have hclamp : clamped (utcDay t) k = day := by
        rw [clamped, ← hday]
        omega
      obtain ⟨-, -, hok⟩ | ⟨hout, -⟩ := hspec
      · rw [hok, hclamp, isoDay_eq hcal.1 hcal.2]
      · rw [hclamp] at hout
        exact absurd ⟨hin, hcal⟩ hout

end Instants

/-- Where a clock's shift lands. -/
def Clock.landing (t : ℤ) (c : Clock) : ℤ :=
  match c.offset with
  | none => t
  | some (minus, unit, n) => t + signOf minus * (n * unit.ms)

def Clock.landed (t : ℤ) (c : Clock) : ClockValue :=
  match c.base with
  | .now => .instant (c.landing t)
  | .today => .date (utcDate (c.landing t))

/-- Within the reach of a `Date`, or for a date within the calendar. -/
def Clock.Reached (t : ℤ) (c : Clock) : Prop :=
  match c.base with
  | .now => (c.landing t).natAbs ≤ dateReach
  | .today => 0 ≤ utcDay (c.landing t) ∧ utcDay (c.landing t) < dayCount

/-- Whether PostgreSQL holds the interval of so many. -/
def ClockUnit.stored (n : ℕ) : ClockUnit → Bool
  | .minutes => SqlUnit.minutes.holds n
  | .hours => SqlUnit.hours.holds n
  | .days => SqlUnit.days.holds n
  | .weeks => SqlUnit.days.holds (7 * n)

/-- Within the ranges of PostgreSQL. -/
def Clock.stored (t : ℤ) (c : Clock) : Bool :=
  (c.offset.all fun (_, unit, n) => unit.stored n) && pgHolds (c.landing t)

section Clocks

variable {t : ℤ} {c : Clock} {d : ClockDefault}

theorem monthsOn_zero (t : ℤ) : monthsOn t 0 = t := by
  simp only [monthsOn, utcDay, add_zero, dayMs]
  omega

/-- A span of milliseconds alone. -/
theorem instant_of_unit (hlow : 0 ≤ utcDay t) (hhigh : utcDay t < dayCount) (minus : Bool) (unit : ClockUnit) (n : ℕ) :
    instant t (unit.span n) (signOf minus) = timeClip (t + signOf minus * (n * unit.ms)) := by
  have hmonths : (unit.span n).months = 0 := by cases unit <;> rfl
  have hms : (unit.span n).days * dayMs + (unit.span n).ms = n * unit.ms := by
    cases unit <;> simp only [ClockUnit.span, ClockUnit.ms, dayMs] <;> omega
  have hreach : t.natAbs ≤ dateReach := natAbs_le_of_utcDay (by omega) (by omega)
  rw [instant, setUTCMonth, hmonths, mul_zero, monthsOn_zero, timeClip, if_pos hreach, Option.bind_some, hms]

theorem clamped_self (n : ℤ) : clamped n (monthAt n) = n := by
  have hlt := lt_opens_monthAt_succ n
  rw [clamped]
  omega

theorem utcDay_add (t d : ℤ) : utcDay (t + d * dayMs) = utcDay t + d := by
  simp only [utcDay, dayMs]
  omega

/-- A span of days alone. -/
theorem shift_of_days (hlow : 0 ≤ utcDay t) (hhigh : utcDay t < dayCount) (days sign : ℤ) :
    (shift (utcDate t) ⟨0, days, 0⟩ sign).toOption =
      if 0 ≤ utcDay t + sign * days ∧ utcDay t + sign * days < dayCount then some (utcDate (t + sign * days * dayMs)) else none := by
  have hspec := @shift_spec (utcDay t) hlow hhigh ⟨0, days, 0⟩ rfl sign
  have hin := parts_of_number hlow hhigh
  simp only [mul_zero, add_zero, clamped_self] at hspec
  rw [utcDate, isoDay_eq hlow hhigh]
  obtain ⟨-, hday, hok⟩ | ⟨hout, e, herr⟩ := hspec
  · rw [hok, if_pos hday, utcDate, utcDay_add, isoDay_eq hday.1 hday.2]
    rfl
  · rw [herr, if_neg fun h => hout ⟨⟨hin.1, hin.2.1⟩, h⟩]
    rfl

theorem evaluate_eq (hlow : 0 ≤ utcDay t) (hhigh : utcDay t < dayCount) (hd : c.default = some d) :
    (c.Reached t ∧ c.evaluate t = some (c.landed t)) ∨ ¬c.Reached t ∧ c.evaluate t = none := by
  obtain ⟨base, offset⟩ := c
  have hreach : t.natAbs ≤ dateReach := natAbs_le_of_utcDay (by omega) (by omega)
  cases base with
  | now =>
    cases offset with
    | none => exact .inl ⟨hreach, congrArg (Option.map ClockValue.instant) (if_pos hreach)⟩
    | some o =>
      obtain ⟨minus, unit, n⟩ := o
      simp only [Clock.evaluate, instant_of_unit hlow hhigh, timeClip, Clock.Reached, Clock.landing, Clock.landed]
      split_ifs with h
      · exact .inl ⟨h, rfl⟩
      · exact .inr ⟨h, rfl⟩
  | today =>
    cases offset with
    | none => exact .inl ⟨⟨hlow, hhigh⟩, rfl⟩
    | some o =>
      obtain ⟨minus, unit, n⟩ := o
      have hdays : ∀ days : ℤ, (n : ℤ) * unit.ms = days * dayMs → unit.span n = ⟨0, days, 0⟩ →
          (Clock.Reached t ⟨.today, some (minus, unit, n)⟩ ∧
              Clock.evaluate t ⟨.today, some (minus, unit, n)⟩ = some (Clock.landed t ⟨.today, some (minus, unit, n)⟩)) ∨
            ¬Clock.Reached t ⟨.today, some (minus, unit, n)⟩ ∧ Clock.evaluate t ⟨.today, some (minus, unit, n)⟩ = none := by
        intro days hms hspan
        simp only [Clock.evaluate, Clock.Reached, Clock.landed, Clock.landing, hspan, hms, ← mul_assoc, shift_of_days hlow hhigh,
          utcDay_add]
        split_ifs with h
        · exact .inl ⟨h, rfl⟩
        · exact .inr ⟨h, rfl⟩
      cases unit with
      | minutes => cases hd
      | hours => cases hd
      | days => exact hdays n rfl rfl
      | weeks => exact hdays (7 * n) (by simp only [ClockUnit.ms, dayMs]; omega) rfl

theorem value_eq (hd : c.default = some d) (t : ℤ) : d.value t = if c.stored t then some (c.landed t) else none := by
  obtain ⟨base, offset⟩ := c
  have hinstant : d.base = base ∧ d.instant t = if Clock.stored t ⟨base, offset⟩ then some (Clock.landing t ⟨base, offset⟩) else none := by
    cases offset with
    | none =>
      obtain rfl := Option.some.inj hd
      exact ⟨rfl, rfl⟩
    | some o =>
      obtain ⟨minus, unit, n⟩ := o
      have hweeks : ((7 * n : ℕ) : ℤ) * dayMs = n * (7 * dayMs) := by
        simp only [dayMs]
        omega
      have hsame : ∀ (sql : SqlUnit) (m : ℕ), (m : ℤ) * sql.ms = n * unit.ms → unit.stored n = sql.holds m →
          some ⟨base, some (minus, sql, m)⟩ = some d →
          d.base = base ∧ d.instant t =
            if Clock.stored t ⟨base, some (minus, unit, n)⟩ then some (Clock.landing t ⟨base, some (minus, unit, n)⟩) else none := by
        intro sql m hms hstored hd
        obtain rfl := Option.some.inj hd
        refine ⟨rfl, ?_⟩
        simp only [ClockDefault.instant, Clock.stored, Clock.landing, Option.all_some, hms, hstored]
      cases unit with
      | minutes =>
        cases base with
        | now => exact hsame .minutes n rfl rfl hd
        | today => cases hd
      | hours =>
        cases base with
        | now => exact hsame .hours n rfl rfl hd
        | today => cases hd
      | days => exact hsame .days n rfl rfl hd
      | weeks => exact hsame .days (7 * n) hweeks rfl hd
  obtain ⟨hbase, hinstant⟩ := hinstant
  rw [ClockDefault.value, hbase, hinstant]
  cases base <;> simp only [Clock.landed] <;> split_ifs <;> rfl

/-- What is evaluated is what the database writes when both can hold it, or neither. -/
theorem evaluate_eq_value_iff (hlow : 0 ≤ utcDay t) (hhigh : utcDay t < dayCount) (hd : c.default = some d) :
    c.evaluate t = d.value t ↔ (c.Reached t ↔ c.stored t = true) := by
  rw [value_eq hd]
  obtain ⟨hreached, h⟩ | ⟨hreached, h⟩ := evaluate_eq hlow hhigh hd <;> rw [h] <;> split_ifs with hstored <;>
    simp [hreached, hstored]

end Clocks

section Texts

-- what the parser compiles of a text: a clock and at most one span
variable {program : String → Option Clock}

/-- The parser reads a clock with a span as the registered operator of the two. -/
def ReadsClocks (program : String → Option Clock) : Prop :=
  ∀ text c c', program text = some c → readClock text = some c' → c = c'

/-- Shifts mean the same for dates, instants and the database when no day of a month is clamped and
every result lies within all the ranges or outside of them. -/
theorem shifts_alike_iff (hcel : ReadsClocks program) {t : ℤ} (hlow : 0 ≤ utcDay t) (hhigh : utcDay t < dayCount) {s : Span}
    (hs : s.ms = 0) (sign : ℤ) {text : String} {c : Clock} {d : ClockDefault} (hc : program text = some c)
    (hd : clockDefault text = some d) :
    Agrees (shift (utcDate t) s sign) (instant t s sign) ∧ c.evaluate t = d.value t ↔
      (Lands t s sign ∨ Leaves t s sign) ∧ (c.Reached t ↔ c.stored t = true) := by
  obtain ⟨c', hread, hdefault⟩ := Option.bind_eq_some_iff.mp hd
  obtain rfl := hcel text c c' hc hread
  exact and_congr (agrees_iff_lands hlow hhigh hs sign) (evaluate_eq_value_iff hlow hhigh hdefault)

end Texts

theorem shifts_alike_october :
    Agrees (shift (utcDate 1793181600000) ⟨1, 0, 0⟩ (-1)) (instant 1793181600000 ⟨1, 0, 0⟩ (-1)) ∧
      Clock.evaluate 1793181600000 ⟨.now, some (true, .hours, 1)⟩ = ClockDefault.value 1793181600000 ⟨.now, some (true, .hours, 1)⟩ :=
  (@shifts_alike_iff readClock (fun _ _ _ h h' => Option.some.inj (h.symm.trans h')) 1793181600000 (by decide) (by decide)
    ⟨1, 0, 0⟩ rfl (-1) "now - hours(1)" _ _ (by decide) (by decide)).mpr ⟨by decide, iff_of_true (by show Int.natAbs _ ≤ _; decide) (by decide)⟩

/-- A month after the last of January. -/
theorem instant_overflows : utcDate 1769817600000 = "2026-01-31" ∧
    shift "2026-01-31" ⟨1, 0, 0⟩ 1 = .ok "2026-02-28" ∧ (instant 1769817600000 ⟨1, 0, 0⟩ 1).map utcDate = some "2026-03-03" := by
  decide

end Norbital.Std

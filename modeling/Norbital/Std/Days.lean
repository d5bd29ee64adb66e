import Norbital.Lib.Fallible
import Norbital.Lib.Gregorian
import Norbital.Std.Date

/-!
# Days by number

The day arithmetic of `std/src/date.ts`.  A calendar day is its text; the days of
the years 0 to 9999 are numbered in the order of their texts, from the first of
January of the year 0.
-/

namespace Norbital.Std

open Gregorian

/-- The number of a calendar day. -/
def dayNumber (s : String) : ℤ :=
  let (year, month, day) := dayParts s.toList
  opens (12 * year + (month - 1)) + (day - 1)

/-- The calendar day of a number. -/
def dayText (n : ℤ) : String :=
  let k := monthAt n
  dateText (k / 12).toNat (k % 12 + 1).toNat (n - opens k + 1).toNat

/-- How many calendar days there are. -/
def dayCount : ℤ := 3652425

/-- The number of 1970-01-01. -/
def epoch : ℤ := 719528

/-- The year and month of a day outside the calendar, as `toISOString` begins with them. -/
def expandedText (n : ℤ) : String :=
  let k := monthAt n
  let year := (k / 12).natAbs
  String.ofList ([if k / 12 < 0 then '-' else '+', digit (year / 100000), digit (year / 10000), digit (year / 1000),
    digit (year / 100), digit (year / 10), digit year, '-', digit ((k % 12 + 1).toNat / 10), digit (k % 12 + 1).toNat])

/-- `PlainDate`. -/
def plainDate (s : String) : Except String String :=
  if isPlainDate s then .ok s else .error s!"'{s}' is not a calendar date (YYYY-MM-DD)"

def toDays (d : String) : ℤ := dayNumber d - epoch

/-- The ten characters `toISOString` begins with. -/
def isoDay (n : ℤ) : String := if 0 ≤ n ∧ n < dayCount then dayText n else expandedText n

/-- `fromDays`: an instant is at most a hundred million days from 1970. -/
def fromDays (n : ℤ) : Except String String :=
  if n.natAbs ≤ 100000000 then .ok (isoDay (n + epoch)) else .error "Invalid time value"

def addDays (d : String) (n : ℤ) : Except String String := do
  let d ← plainDate d
  fromDays (toDays d + n)

def addMonths (d : String) (n : ℤ) : Except String String := do
  let date ← plainDate d
  let (year, month, day) := dayParts date.toList
  let index := year * 12 + (month - 1 + n)
  if index < 0 ∨ 10000 * 12 ≤ index then
    .error s!"'{d}' plus {n} calendar months is outside YYYY-MM-DD"
  else
    let targetYear := (index / 12).toNat
    let targetMonth := (index % 12).toNat + 1
    .ok (dateText targetYear targetMonth (min day (daysInMonth targetYear targetMonth)))

theorem leapYear_eq (year : Nat) : leapYear year = isLeap year := by
  rw [leapYear, Bool.eq_iff_iff, isLeap_iff]
  simp only [Bool.and_eq_true, Bool.or_eq_true, beq_iff_eq, bne_iff_ne, ne_eq]
  omega

theorem daysInMonth_eq (year month : Nat) : (daysInMonth year (month + 1) : ℤ) = monthLength year month := by
  rw [daysInMonth, monthLength, leapYear_eq]
  split_ifs <;> omega

/-- Year, month and day of a day's number. -/
theorem parts_of_number {n : ℤ} (hlow : 0 ≤ n) (hhigh : n < dayCount) :
    0 ≤ monthAt n ∧ monthAt n < 120000 ∧ opens (monthAt n) ≤ n ∧
      n < opens (monthAt n) + monthLength (monthAt n / 12) (monthAt n % 12).toNat := by
  have hle := opens_monthAt_le n
  have hlt := lt_opens_monthAt_succ n
  refine ⟨?_, ?_, hle, by rwa [← opens_succ]⟩
  · have h : opens 0 < opens (monthAt n + 1) := lt_of_le_of_lt hlow hlt
    have := opens_strictMono.lt_iff_lt.mp h
    omega
  · have h : opens (monthAt n) < opens 120000 := lt_of_le_of_lt hle hhigh
    exact opens_strictMono.lt_iff_lt.mp h

theorem dayText_eq {year month day : Nat} (hmonth : month < 12) (hday : 1 ≤ day)
    (hlast : day ≤ daysInMonth year (month + 1)) :
    dayText (opens (12 * year + month) + (day - 1)) = dateText year (month + 1) day := by
  have hyear : (12 * (year : ℤ) + month) / 12 = year := by omega
  have hmonth' : (12 * (year : ℤ) + month) % 12 = month := by omega
  have hlength := daysInMonth_eq year month
  have hat : monthAt (opens (12 * year + month) + (day - 1)) = 12 * year + month := by
    refine monthAt_opens_add (by omega) ?_
    rw [hyear, hmonth', Int.toNat_natCast]
    omega
  rw [dayText, hat, hyear, hmonth']
  congr 1
  omega

/-- The text of a day has its parts. -/
theorem dayText_parts {n : ℤ} (hlow : 0 ≤ n) (hhigh : n < dayCount) : ∃ year month day : Nat,
    year < 10000 ∧ month < 12 ∧ 1 ≤ day ∧ day ≤ daysInMonth year (month + 1) ∧
      n = opens (12 * year + month) + (day - 1) ∧ dayText n = dateText year (month + 1) day := by
  obtain ⟨hk, hk', hle, hlt⟩ := parts_of_number hlow hhigh
  have hyear : ((monthAt n / 12).toNat : ℤ) = monthAt n / 12 := by omega
  have hmonth : ((monthAt n % 12).toNat : ℤ) = monthAt n % 12 := by omega
  have hday : ((n - opens (monthAt n) + 1).toNat : ℤ) = n - opens (monthAt n) + 1 := by omega
  have hlength := daysInMonth_eq (monthAt n / 12).toNat (monthAt n % 12).toNat
  have hn : n = opens (12 * ((monthAt n / 12).toNat : ℤ) + ((monthAt n % 12).toNat : ℤ)) +
      (((n - opens (monthAt n) + 1).toNat : ℤ) - 1) := by
    rw [hyear, hmonth, hday, Int.mul_ediv_add_emod]
    omega
  rw [hyear] at hlength
  refine ⟨(monthAt n / 12).toNat, (monthAt n % 12).toNat, (n - opens (monthAt n) + 1).toNat, by omega, by omega,
    by omega, by omega, hn, ?_⟩
  rw [dayText]
  congr 1
  omega

theorem dayNumber_dateText {year month day : Nat} (hyear : year < 10000) (hmonth : month < 12) (hday : day < 100) :
    dayNumber (dateText year (month + 1) day) = opens (12 * year + month) + (day - 1) := by
  rw [dayNumber, dateText, String.toList_ofList, dayParts_dateChars hyear (by omega) hday]
  show opens (12 * (year : ℤ) + (((month + 1 : ℕ) : ℤ) - 1)) + _ = _
  rw [Nat.cast_succ, Int.add_sub_cancel]

theorem dayNumber_dayText {n : ℤ} (hlow : 0 ≤ n) (hhigh : n < dayCount) : dayNumber (dayText n) = n := by
  obtain ⟨year, month, day, hyear, hmonth, -, hlast, hn, htext⟩ := dayText_parts hlow hhigh
  have h31 := daysInMonth_le year (month + 1)
  rw [htext, dayNumber_dateText hyear hmonth (by omega), ← hn]

theorem isPlainDate_dayText {n : ℤ} (hlow : 0 ≤ n) (hhigh : n < dayCount) : isPlainDate (dayText n) := by
  obtain ⟨year, month, day, hyear, hmonth, hday, hlast, -, htext⟩ := dayText_parts hlow hhigh
  exact isPlainDate_iff.mpr ⟨year, month + 1, day, hyear, by omega, by omega, hday, hlast, htext⟩

/-- A calendar day is the text of its number. -/
theorem exists_dayText {s : String} (h : isPlainDate s) : ∃ n, 0 ≤ n ∧ n < dayCount ∧ s = dayText n := by
  obtain ⟨year, month, day, hyear, hlow, hhigh, hday, hlast, rfl⟩ := isPlainDate_iff.mp h
  obtain ⟨month, rfl⟩ : ∃ m, month = m + 1 := ⟨month - 1, by omega⟩
  have hlength := daysInMonth_eq year month
  have hyear' : (12 * (year : ℤ) + month) / 12 = year := by omega
  have hmonth' : (12 * (year : ℤ) + month) % 12 = month := by omega
  refine ⟨opens (12 * year + month) + (day - 1), ?_, ?_, (dayText_eq (by omega) hday hlast).symm⟩
  · have : opens 0 ≤ opens (12 * year + month) := opens_strictMono.monotone (by omega)
    have : opens 0 = 0 := by decide
    omega
  · have hnext : opens (12 * (year : ℤ) + month + 1) ≤ opens 120000 := opens_strictMono.monotone (by omega)
    have hall : opens 120000 = dayCount := by decide
    rw [opens_succ, hyear', hmonth', Int.toNat_natCast] at hnext
    omega

/-- Days are in the order of their texts. -/
theorem dayText_lt {m n : ℤ} (hm : 0 ≤ m) (hm' : m < dayCount) (hn : 0 ≤ n) (hn' : n < dayCount) :
    dayText m < dayText n ↔ m < n := by
  have hlt : ∀ {m n : ℤ}, 0 ≤ m → m < dayCount → 0 ≤ n → n < dayCount → m < n → dayText m < dayText n := by
    intro m n hm hm' hn hn' h
    obtain ⟨y, k, d, hy, hk, hd, hlast, rfl, htext⟩ := dayText_parts hm hm'
    obtain ⟨y', k', d', hy', hk', hd', hlast', rfl, htext'⟩ := dayText_parts hn hn'
    have h31 := daysInMonth_le y (k + 1)
    have h31' := daysInMonth_le y' (k' + 1)
    rw [htext, htext', dateText_lt hy (by omega) (by omega) hy' (by omega) (by omega)]
    have hmonths : 12 * (y : ℤ) + k ≤ 12 * y' + k' := by
      by_contra hgt
      have hnext : opens (12 * (y' : ℤ) + k' + 1) ≤ opens (12 * y + k) := opens_strictMono.monotone (by omega)
      have hlength := daysInMonth_eq y' k'
      rw [opens_succ, show (12 * (y' : ℤ) + k') / 12 = y' by omega, show (12 * (y' : ℤ) + k') % 12 = k' by omega] at hnext
      simp only [Int.toNat_natCast] at hnext
      omega
    obtain hmonths | hmonths := hmonths.lt_or_eq
    · omega
    · rw [hmonths] at h
      omega
  constructor
  · intro h
    by_contra hle
    obtain hlt' | rfl := (not_lt.mp hle).lt_or_eq
    · exact absurd h (hlt hn hn' hm hm' hlt').asymm
    · exact absurd h (lt_irrefl _)
  · exact hlt hm hm' hn hn'

theorem dayText_le {m n : ℤ} (hm : 0 ≤ m) (hm' : m < dayCount) (hn : 0 ≤ n) (hn' : n < dayCount) :
    dayText m ≤ dayText n ↔ m ≤ n := by
  rw [← not_lt, dayText_lt hn hn' hm hm', not_lt]

theorem plainDate_dayText {n : ℤ} (hlow : 0 ≤ n) (hhigh : n < dayCount) :
    plainDate (dayText n) = .ok (dayText n) := if_pos (isPlainDate_dayText hlow hhigh)

theorem toDays_dayText {n : ℤ} (hlow : 0 ≤ n) (hhigh : n < dayCount) : toDays (dayText n) = n - epoch := by
  rw [toDays, dayNumber_dayText hlow hhigh]

theorem isoDay_eq {n : ℤ} (hlow : 0 ≤ n) (hhigh : n < dayCount) : isoDay n = dayText n := if_pos ⟨hlow, hhigh⟩

theorem addDays_eq {n i : ℤ} (hlow : 0 ≤ n) (hhigh : n < dayCount) (hsum : (n - epoch + i).natAbs ≤ 100000000) :
    addDays (dayText n) i = .ok (isoDay (n + i)) := by
  have hdays : n - epoch + i + epoch = n + i := by omega
  rw [addDays, plainDate_dayText hlow hhigh, Fallible.ok_bind, toDays_dayText hlow hhigh, fromDays, if_pos hsum, hdays]

theorem addDays_dayText {n i : ℤ} (hlow : 0 ≤ n) (hhigh : n < dayCount) (hsum : 0 ≤ n + i)
    (hsum' : n + i < dayCount) : addDays (dayText n) i = .ok (dayText (n + i)) := by
  have hbound : (n - epoch + i).natAbs ≤ 100000000 := by
    simp only [epoch, dayCount] at *
    omega
  rw [addDays_eq hlow hhigh hbound, isoDay_eq hsum hsum']

/-- The day of the month `k` with this number, which every month has. -/
def inMonth (k day : ℤ) : ℤ := opens k + (day - 1)

theorem dayText_inMonth {k day : ℤ} (hlow : 0 ≤ k) (hday : 1 ≤ day) (hday' : day ≤ 28) :
    dayText (inMonth k day) = dateText (k / 12).toNat ((k % 12).toNat + 1) day.toNat := by
  have hfits := le_daysInMonth (k / 12).toNat ((k % 12).toNat + 1)
  have hk : 12 * (((k / 12).toNat : ℕ) : ℤ) + (((k % 12).toNat : ℕ) : ℤ) = k := by omega
  have h := @dayText_eq (k / 12).toNat (k % 12).toNat day.toNat (by omega) (by omega) (by omega)
  rw [hk, Int.toNat_of_nonneg (by omega)] at h
  exact h

/-- A number of the calendar is one in each of its months. -/
theorem inMonth_bounds {k day : ℤ} (hlow : 0 ≤ k) (hhigh : k < 120000) (hday : 1 ≤ day) (hday' : day ≤ 28) :
    0 ≤ inMonth k day ∧ inMonth k day < dayCount := by
  have hfirst : opens 0 ≤ opens k := opens_strictMono.monotone hlow
  have hlast : opens (k + 1) ≤ opens 120000 := opens_strictMono.monotone (by omega)
  have hlength := le_monthLength (k / 12) (k % 12).toNat
  have hzero : opens 0 = 0 := by decide
  have hall : opens 120000 = dayCount := by decide
  rw [opens_succ] at hlast
  rw [inMonth]
  omega

theorem addMonths_inMonth {k day n : ℤ} (hlow : 0 ≤ k) (hhigh : k < 120000) (hday : 1 ≤ day) (hday' : day ≤ 28)
    (hsum : 0 ≤ k + n) (hsum' : k + n < 120000) :
    addMonths (dayText (inMonth k day)) n = .ok (dayText (inMonth (k + n) day)) := by
  obtain ⟨hfirst, hlast⟩ := inMonth_bounds hlow hhigh hday hday'
  have hindex : (((k / 12).toNat : ℕ) : ℤ) * 12 + (((((k % 12).toNat + 1 : ℕ)) : ℤ) - 1 + n) = k + n := by omega
  rw [addMonths, plainDate_dayText hfirst hlast, Fallible.ok_bind, dayText_inMonth hlow hday hday', dateText,
    String.toList_ofList, dayParts_dateChars (by omega) (by omega) (by omega)]
  show (if (((k / 12).toNat : ℕ) : ℤ) * 12 + (((((k % 12).toNat + 1 : ℕ)) : ℤ) - 1 + n) < 0 ∨ _ then _ else _) = _
  have hfits := le_daysInMonth ((k + n) / 12).toNat (((k + n) % 12).toNat + 1)
  rw [if_neg (by omega), hindex, dayText_inMonth hsum hday hday']
  show Except.ok (dateText _ _ (min day.toNat _)) = _
  rw [Nat.min_eq_left (by omega)]

end Norbital.Std

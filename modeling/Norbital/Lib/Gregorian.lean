import Mathlib.Data.Int.ConditionallyCompleteOrder
import Mathlib.Data.Int.Notation
import Mathlib.Data.Nat.Find
import Mathlib.Order.Monotone.Basic
import Mathlib.Order.SuccPred.Basic
import Mathlib.Tactic.IntervalCases

/-!
# The Gregorian calendar

Days are numbered from the first day of the year zero and months from its first
month, into the past and the future.  A month is 28 to 31 days long, and every day
lies in one month (`monthAt`).
-/

namespace Gregorian

def isLeap (year : ℤ) : Bool := year % 4 == 0 && (year % 100 != 0 || year % 400 == 0)

theorem isLeap_iff (year : ℤ) : isLeap year = true ↔ year % 4 = 0 ∧ (year % 100 ≠ 0 ∨ year % 400 = 0) := by
  simp [isLeap]

/-- The first day of a year. -/
def yearOpens (year : ℤ) : ℤ := 365 * year + (year + 3) / 4 - (year + 99) / 100 + (year + 399) / 400

/-- The days of a common year before its month, counted from zero. -/
def daysBefore : ℕ → ℤ
  | 0 => 0
  | 1 => 31
  | 2 => 59
  | 3 => 90
  | 4 => 120
  | 5 => 151
  | 6 => 181
  | 7 => 212
  | 8 => 243
  | 9 => 273
  | 10 => 304
  | _ => 334

/-- The days before a month within its year. -/
def daysBeforeIn (year : ℤ) (month : ℕ) : ℤ := daysBefore month + if 2 ≤ month && isLeap year then 1 else 0

/-- The first day of the month of this number. -/
def opens (k : ℤ) : ℤ := yearOpens (k / 12) + daysBeforeIn (k / 12) (k % 12).toNat

/-- How many days a month has, counted from zero. -/
def monthLength (year : ℤ) (month : ℕ) : ℤ :=
  if month = 1 then (if isLeap year then 29 else 28)
  else if month = 3 ∨ month = 5 ∨ month = 8 ∨ month = 10 then 30 else 31

theorem monthLength_le (year : ℤ) (month : ℕ) : monthLength year month ≤ 31 := by
  rw [monthLength]
  split_ifs <;> omega

theorem le_monthLength (year : ℤ) (month : ℕ) : 28 ≤ monthLength year month := by
  rw [monthLength]
  split_ifs <;> omega

theorem yearOpens_succ (year : ℤ) : yearOpens (year + 1) = yearOpens year + if isLeap year then 366 else 365 := by
  rw [yearOpens, yearOpens]
  split_ifs with h
  · rw [isLeap_iff] at h
    omega
  · rw [isLeap_iff] at h
    omega

theorem daysBeforeIn_succ (year : ℤ) {month : ℕ} (h : month < 11) :
    daysBeforeIn year (month + 1) = daysBeforeIn year month + monthLength year month := by
  rw [daysBeforeIn, daysBeforeIn, monthLength]
  interval_cases month <;> cases isLeap year <;> rfl

theorem daysBeforeIn_zero (year : ℤ) : daysBeforeIn year 0 = 0 := rfl

/-- December ends the year. -/
theorem daysBeforeIn_last (year : ℤ) :
    daysBeforeIn year 11 + monthLength year 11 = if isLeap year then 366 else 365 := by
  rw [daysBeforeIn, monthLength]
  cases isLeap year <;> rfl

theorem opens_succ (k : ℤ) : opens (k + 1) = opens k + monthLength (k / 12) (k % 12).toNat := by
  have hpos : 0 ≤ k % 12 := Int.emod_nonneg _ (by decide)
  have hlt : k % 12 < 12 := Int.emod_lt_of_pos _ (by decide)
  rw [opens, opens]
  by_cases hlast : k % 12 = 11
  · have hyear : (k + 1) / 12 = k / 12 + 1 := by omega
    have hmonth : (k + 1) % 12 = 0 := by omega
    rw [hyear, hmonth, hlast, yearOpens_succ, ← daysBeforeIn_last]
    show _ + daysBeforeIn _ 0 = _ + daysBeforeIn _ 11 + monthLength _ 11
    rw [daysBeforeIn_zero]
    omega
  · have hyear : (k + 1) / 12 = k / 12 := by omega
    have hmonth : ((k + 1) % 12).toNat = (k % 12).toNat + 1 := by omega
    rw [hyear, hmonth, daysBeforeIn_succ _ (by omega)]
    omega

theorem opens_lt_succ (k : ℤ) : opens k < opens (k + 1) := by
  have := le_monthLength (k / 12) (k % 12).toNat
  rw [opens_succ]
  omega

theorem opens_strictMono : StrictMono opens := strictMono_int_of_lt_succ opens_lt_succ

/-- The year of a day. -/
def yearAt (n : ℤ) : ℤ :=
  let year := 400 * n / 146097
  if n < yearOpens year then year - 1 else if yearOpens (year + 1) ≤ n then year + 1 else year

theorem yearOpens_yearAt_le (n : ℤ) : yearOpens (yearAt n) ≤ n ∧ n < yearOpens (yearAt n + 1) := by
  rw [yearAt]
  split_ifs with hbefore hafter
  · have hle : yearOpens (400 * n / 146097 - 1) ≤ n := by
      rw [yearOpens]
      omega
    exact ⟨hle, by rwa [Int.sub_add_cancel]⟩
  · have hlt : n < yearOpens (400 * n / 146097 + 1 + 1) := by
      rw [yearOpens]
      omega
    exact ⟨hafter, hlt⟩
  · exact ⟨by omega, by omega⟩

/-- The month of a day. -/
def monthAt (n : ℤ) : ℤ :=
  12 * yearAt n + Nat.findGreatest (fun m => yearOpens (yearAt n) + daysBeforeIn (yearAt n) m ≤ n) 11

theorem opens_of_lt (year : ℤ) {month : ℕ} (h : month < 12) :
    opens (12 * year + month) = yearOpens year + daysBeforeIn year month := by
  have hyear : (12 * year + month) / 12 = year := by omega
  have hmonth : ((12 * year + month) % 12).toNat = month := by omega
  rw [opens, hyear, hmonth]

theorem opens_january (year : ℤ) : opens (12 * year) = yearOpens year := by
  have h := @opens_of_lt year 0 (by decide)
  simpa [daysBeforeIn_zero] using h

theorem opens_monthAt_le (n : ℤ) : opens (monthAt n) ≤ n := by
  obtain ⟨hyear, -⟩ := yearOpens_yearAt_le n
  have hle := Nat.findGreatest_le (P := fun m => yearOpens (yearAt n) + daysBeforeIn (yearAt n) m ≤ n) 11
  rw [monthAt, opens_of_lt _ (by omega)]
  refine Nat.findGreatest_spec (P := fun m => yearOpens (yearAt n) + daysBeforeIn (yearAt n) m ≤ n) (m := 0)
    (by decide) ?_
  rw [daysBeforeIn_zero]
  omega

theorem lt_opens_monthAt_succ (n : ℤ) : n < opens (monthAt n + 1) := by
  obtain ⟨-, hyear⟩ := yearOpens_yearAt_le n
  have hle := Nat.findGreatest_le (P := fun m => yearOpens (yearAt n) + daysBeforeIn (yearAt n) m ≤ n) 11
  rw [monthAt]
  -- the last month reaches to the next year
  by_cases hlast : Nat.findGreatest (fun m => yearOpens (yearAt n) + daysBeforeIn (yearAt n) m ≤ n) 11 = 11
  · have hnext : 12 * yearAt n + ((11 : ℕ) : ℤ) + 1 = 12 * (yearAt n + 1) := by omega
    rw [hlast, hnext, opens_january]
    exact hyear
  · have hgreatest := Nat.findGreatest_is_greatest
      (P := fun m => yearOpens (yearAt n) + daysBeforeIn (yearAt n) m ≤ n) (n := 11) (Nat.lt_succ_self _) (by omega)
    rw [add_assoc, ← Nat.cast_succ, opens_of_lt _ (by omega)]
    omega

/-- A day lies in one month. -/
theorem monthAt_eq {n k : ℤ} (hle : opens k ≤ n) (hlt : n < opens (k + 1)) : monthAt n = k := by
  have h : opens (monthAt n) < opens (k + 1) := (opens_monthAt_le n).trans_lt hlt
  have h' : opens k < opens (monthAt n + 1) := hle.trans_lt (lt_opens_monthAt_succ n)
  have := opens_strictMono.lt_iff_lt.mp h
  have := opens_strictMono.lt_iff_lt.mp h'
  omega

theorem monthAt_opens_add {k d : ℤ} (hd : 0 ≤ d) (hlt : d < monthLength (k / 12) (k % 12).toNat) :
    monthAt (opens k + d) = k := by
  refine monthAt_eq (by omega) ?_
  rw [opens_succ]
  omega

end Gregorian

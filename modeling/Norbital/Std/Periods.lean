import Norbital.Std.Days

/-!
# Periods of days

`intersect`, `days` and `eachDay` of `std/src/date.ts`, and what its arithmetic does at
the ends of the calendar.
-/

namespace Norbital.Std

open Gregorian

namespace DatePeriod

/-- The days two periods share. -/
def intersect (a b : DatePeriod) : Option DatePeriod :=
  if !overlaps a b then none
  else
    let last :=
      match a.last, b.last with
      | none, t => t
      | some t, none => some t
      | some t, some u => if t < u then some t else some u
    some ⟨if b.first < a.first then a.first else b.first, last⟩

/-- Inclusive day count. -/
def days (p : DatePeriod) : Except String ℤ :=
  match p.last with
  | none => .error "an open period has no day count"
  | some t => .ok (toDays t - toDays p.first + 1)

/-- Every day of a closed period, in order. -/
def eachDay (p : DatePeriod) : Except String (List String) := do
  let n ← p.days
  (List.range n.toNat).mapM fun i => fromDays (toDays p.first + (i : ℕ))

theorem le_first_iff {a b : DatePeriod} {d : String} :
    (if b.first < a.first then a.first else b.first) ≤ d ↔ a.first ≤ d ∧ b.first ≤ d := by
  split_ifs with h
  · exact ⟨fun hd => ⟨hd, h.le.trans hd⟩, And.left⟩
  · exact ⟨fun hd => ⟨(not_lt.mp h).trans hd, hd⟩, And.right⟩

/-- The shared days are those of both. -/
theorem intersect_contains_iff (a b : DatePeriod) (d : String) :
    (∃ p, intersect a b = some p ∧ p.contains d) ↔ a.contains d ∧ b.contains d := by
  have hcovers : overlaps a b = false → ¬(a.contains d ∧ b.contains d) := by
    rw [overlaps_eq_false_iff, contains_iff, contains_iff]
    rintro (⟨t, ht, hlt⟩ | ⟨t, ht, hlt⟩) ⟨⟨had, had'⟩, hbd, hbd'⟩
    · exact absurd (hbd.trans (had' t ht)) (not_le.mpr hlt)
    · exact absurd (had.trans (hbd' t ht)) (not_le.mpr hlt)
  cases ho : overlaps a b with
  | false =>
    refine iff_of_false ?_ (hcovers ho)
    rintro ⟨p, hp, -⟩
    rw [intersect, ho] at hp
    cases hp
  | true =>
    rw [intersect, ho]
    simp only [Bool.not_true, Bool.false_eq_true, if_false, Option.some.injEq, exists_eq_left', contains_iff,
      le_first_iff]
    cases a.last with
    | none => simp [and_assoc]
    | some t =>
      cases b.last with
      | none => simp [and_right_comm]
      | some u =>
        have hboth : (∀ x ∈ (if t < u then some t else some u), d ≤ x) ↔ d ≤ t ∧ d ≤ u := by
          split_ifs with h
          · simpa using fun hd => hd.trans h.le
          · simpa using fun hd => hd.trans (not_lt.mp h)
        simp only [hboth, Option.mem_some_iff, forall_eq']
        exact ⟨fun ⟨⟨h₁, h₂⟩, h₃, h₄⟩ => ⟨⟨h₁, h₃⟩, h₂, h₄⟩, fun ⟨⟨h₁, h₃⟩, h₂, h₄⟩ => ⟨⟨h₁, h₂⟩, h₃, h₄⟩⟩

theorem eachDay_eq {m n : ℤ} (hm : 0 ≤ m) (hm' : m < dayCount) (hn : 0 ≤ n) (hn' : n < dayCount) :
    eachDay ⟨dayText m, some (dayText n)⟩ =
      .ok ((List.range (n - m + 1).toNat).map fun i => dayText (m + (i : ℕ))) := by
  have hcount : days ⟨dayText m, some (dayText n)⟩ = .ok (n - m + 1) := by
    show Except.ok (toDays (dayText n) - toDays (dayText m) + 1) = _
    rw [toDays_dayText hm hm', toDays_dayText hn hn']
    congr 1
    omega
  rw [eachDay, hcount, Fallible.ok_bind, Fallible.mapM_eq_ok, List.forall₂_map_right_iff, List.forall₂_same]
  intro i hi
  have hi := List.mem_range.mp hi
  have hbound : (m - epoch + (i : ℤ)).natAbs ≤ 100000000 := by
    simp only [epoch, dayCount] at *
    omega
  have hday : m - epoch + (i : ℤ) + epoch = m + i := by omega
  rw [toDays_dayText hm hm', fromDays, if_pos hbound, hday, isoDay_eq (by omega) (by omega)]

/-- The days of a closed period, each once and in the order of the calendar. -/
theorem eachDay_contains {first last : String} (hfirst : isPlainDate first) (hlast : isPlainDate last) :
    ∃ ds, eachDay ⟨first, some last⟩ = .ok ds ∧ ds.Pairwise (· < ·) ∧
      ∀ d, d ∈ ds ↔ isPlainDate d ∧ contains ⟨first, some last⟩ d := by
  obtain ⟨m, hm, hm', rfl⟩ := exists_dayText hfirst
  obtain ⟨n, hn, hn', rfl⟩ := exists_dayText hlast
  refine ⟨_, eachDay_eq hm hm' hn hn', ?_, fun d => ?_⟩
  · rw [List.pairwise_map]
    refine List.pairwise_lt_range.imp_of_mem ?_
    intro i j hi hj hij
    have hi := List.mem_range.mp hi
    have hj := List.mem_range.mp hj
    exact (dayText_lt (by omega) (by omega) (by omega) (by omega)).mpr (by omega)
  · rw [List.mem_map]
    constructor
    · rintro ⟨i, hi, rfl⟩
      have hi := List.mem_range.mp hi
      refine ⟨isPlainDate_dayText (by omega) (by omega), contains_iff.mpr ⟨?_, ?_⟩⟩
      · exact (dayText_le hm hm' (by omega) (by omega)).mpr (by omega)
      · rintro t ⟨⟩
        exact (dayText_le (by omega) (by omega) hn hn').mpr (by omega)
    · rintro ⟨hd, hin⟩
      obtain ⟨k, hk, hk', rfl⟩ := exists_dayText hd
      obtain ⟨hge, hle⟩ := contains_iff.mp hin
      have hge := (dayText_le hm hm' hk hk').mp hge
      have hle := (dayText_le hk hk' hn hn').mp (hle _ rfl)
      refine ⟨(k - m).toNat, List.mem_range.mpr (by omega), ?_⟩
      congr 1
      omega

end DatePeriod

theorem addMonths_dateText {year month day : Nat} (hyear : year < 10000) (hmonth : month < 12) (hday : 1 ≤ day)
    (hlast : day ≤ daysInMonth year (month + 1)) (n : ℤ) :
    addMonths (dateText year (month + 1) day) n =
      let index : ℤ := year * 12 + (month + n)
      if index < 0 ∨ 120000 ≤ index then
        .error s!"'{dateText year (month + 1) day}' plus {n} calendar months is outside YYYY-MM-DD"
      else
        .ok (dateText (index / 12).toNat ((index % 12).toNat + 1)
          (min day (daysInMonth (index / 12).toNat ((index % 12).toNat + 1)))) := by
  have hplain : isPlainDate (dateText year (month + 1) day) :=
    isPlainDate_iff.mpr ⟨year, month + 1, day, hyear, by omega, by omega, hday, hlast, rfl⟩
  have h31 := daysInMonth_le year (month + 1)
  rw [addMonths, plainDate, if_pos hplain, Fallible.ok_bind]
  simp only [dateText, String.toList_ofList]
  rw [dayParts_dateChars hyear (by omega) (by omega)]
  simp only [Nat.cast_succ, Int.add_sub_cancel]
  rfl

/-- The month of a day, counted from the January of the year 0. -/
def monthIndex (d : String) : ℤ :=
  let (year, month, _) := dayParts d.toList
  year * 12 + (month - 1)

/-- The day of the month. -/
def monthDay (d : String) : ℕ := (dayParts d.toList).2.2

/-- How many days the month of this index has. -/
def lastOfMonth (k : ℤ) : ℕ := daysInMonth (k / 12).toNat ((k % 12).toNat + 1)

theorem monthIndex_dateText {year month day : Nat} (hyear : year < 10000) (hmonth : month < 12) (hday : day < 100) :
    monthIndex (dateText year (month + 1) day) = year * 12 + month ∧ monthDay (dateText year (month + 1) day) = day := by
  rw [monthIndex, monthDay, dateText, String.toList_ofList, dayParts_dateChars hyear (by omega) hday]
  simp

/-- The months of the calendar, and a day that is the same or clamped to the month's last. -/
theorem addMonths_spec {d : String} (hd : isPlainDate d) (n : ℤ) :
    (∃ e, addMonths d n = .ok e ∧ isPlainDate e ∧ monthIndex e = monthIndex d + n ∧
        monthDay e = min (monthDay d) (lastOfMonth (monthIndex d + n))) ∧
      0 ≤ monthIndex d + n ∧ monthIndex d + n < 120000 ∨
    (∃ why, addMonths d n = .error why) ∧ ¬(0 ≤ monthIndex d + n ∧ monthIndex d + n < 120000) := by
  obtain ⟨year, month, day, hyear, hlow, hhigh, hday, hlast, rfl⟩ := isPlainDate_iff.mp hd
  obtain ⟨month, rfl⟩ : ∃ m, month = m + 1 := ⟨month - 1, by omega⟩
  have h31 := daysInMonth_le year (month + 1)
  obtain ⟨hindex, hmonthDay⟩ := @monthIndex_dateText year month day hyear (by omega) (by omega)
  rw [hindex, hmonthDay, addMonths_dateText hyear (by omega) hday hlast]
  have hsum : (year : ℤ) * 12 + (month + n) = year * 12 + month + n := by omega
  simp only [hsum]
  by_cases hout : (year : ℤ) * 12 + month + n < 0 ∨ 120000 ≤ (year : ℤ) * 12 + month + n
  · rw [if_pos hout]
    exact .inr ⟨⟨_, rfl⟩, by omega⟩
  · rw [if_neg hout]
    obtain ⟨k, hk⟩ : ∃ k, k = (year : ℤ) * 12 + month + n := ⟨_, rfl⟩
    rw [← hk] at hout ⊢
    have hsome := le_daysInMonth (k / 12).toNat ((k % 12).toNat + 1)
    have hfew := daysInMonth_le (k / 12).toNat ((k % 12).toNat + 1)
    obtain ⟨hindex', hday'⟩ := @monthIndex_dateText (k / 12).toNat (k % 12).toNat
      (min day (daysInMonth (k / 12).toNat ((k % 12).toNat + 1))) (by omega) (by omega) (by omega)
    refine .inl ⟨⟨_, rfl, ?_, ?_, hday'⟩, by omega, by omega⟩
    · exact isPlainDate_iff.mpr ⟨_, _, _, by omega, by omega, by omega, by omega, by omega, rfl⟩
    · rw [hindex']
      omega

/-- A calendar day, or thrown. -/
def InCalendar (r : Except String String) : Prop := ∀ d, r = .ok d → isPlainDate d

theorem not_isPlainDate_expandedText (n : ℤ) : ¬ isPlainDate (expandedText n) := by
  intro h
  obtain ⟨year, month, day, -, -, -, -, -, htext⟩ := isPlainDate_iff.mp h
  have hhead : (if monthAt n / 12 < 0 then '-' else '+') = digit (year / 1000) := by
    rw [expandedText, dateText, String.ofList_inj] at htext
    exact (List.cons.inj htext).1
  have hdigit := isDigit_digit (year / 1000)
  rw [← hhead] at hdigit
  split_ifs at hdigit <;> cases hdigit

theorem addDays_inCalendar_iff {d : String} (hd : isPlainDate d) (n : ℤ) :
    InCalendar (addDays d n) ↔
      0 ≤ dayNumber d + n ∧ dayNumber d + n < dayCount ∨ 100000000 < (toDays d + n).natAbs := by
  rw [addDays, plainDate, if_pos hd, Fallible.ok_bind, fromDays, toDays]
  have hday : dayNumber d - epoch + n + epoch = dayNumber d + n := by omega
  by_cases hfar : (dayNumber d - epoch + n).natAbs ≤ 100000000
  · rw [if_pos hfar, hday, or_iff_left (not_lt.mpr hfar), isoDay]
    split_ifs with hin
    · refine iff_of_true ?_ hin
      rintro _ ⟨⟩
      exact isPlainDate_dayText hin.1 hin.2
    · exact iff_of_false (fun h => not_isPlainDate_expandedText _ (h _ rfl)) hin
  · rw [if_neg hfar]
    refine iff_of_true ?_ (.inr (not_le.mp hfar))
    rintro _ ⟨⟩

/-- Going on from a day reached. -/
theorem addDays_addDays {d e : String} {a : ℤ} (hd : isPlainDate d) (h : addDays d a = .ok e) (he : isPlainDate e)
    (b : ℤ) : addDays e b = addDays d (a + b) := by
  obtain ⟨n, hn, hn', rfl⟩ := exists_dayText hd
  rw [addDays, plainDate, if_pos hd, Fallible.ok_bind, fromDays, toDays_dayText hn hn'] at h
  split_ifs at h with hfar
  have hday : n - epoch + a + epoch = n + a := by omega
  obtain rfl := Except.ok.inj h
  rw [hday, isoDay] at he ⊢
  split_ifs at he ⊢ with hin
  · rw [addDays, addDays, plainDate, plainDate, if_pos hd, if_pos he, Fallible.ok_bind, Fallible.ok_bind,
      toDays_dayText hn hn', toDays_dayText hin.1 hin.2]
    congr 1
    omega
  · exact absurd he (not_isPlainDate_expandedText _)

theorem lt_iff_toDays_lt {d e : String} (hd : isPlainDate d) (he : isPlainDate e) : d < e ↔ toDays d < toDays e := by
  obtain ⟨m, hm, hm', rfl⟩ := exists_dayText hd
  obtain ⟨n, hn, hn', rfl⟩ := exists_dayText he
  rw [dayText_lt hm hm' hn hn', toDays_dayText hm hm', toDays_dayText hn hn']
  omega

/-- What is asked of the arithmetic at a day and a number. -/
structure StaysInCalendar (d : String) (n : ℤ) : Prop where
  days : InCalendar (addDays d n)
  months : InCalendar (addMonths d n)
  action : ∀ b e, addDays d n = .ok e → isPlainDate e → addDays e b = addDays d (n + b)
  order : ∀ e, isPlainDate e → (d < e ↔ toDays d < toDays e)
  clamps : ∀ e, addMonths d n = .ok e →
    monthIndex e = monthIndex d + n ∧ monthDay e = min (monthDay d) (lastOfMonth (monthIndex e))
  eachDay : ∀ last, isPlainDate last → ∃ ds, DatePeriod.eachDay ⟨d, some last⟩ = .ok ds ∧ ds.Pairwise (· < ·) ∧
    ∀ e, e ∈ ds ↔ isPlainDate e ∧ DatePeriod.contains ⟨d, some last⟩ e
  intersect : ∀ a b : DatePeriod, (∃ p, a.intersect b = some p ∧ p.contains d) ↔ a.contains d ∧ b.contains d

/-- Only days past an end of the calendar that a `Date` still holds leave it. -/
theorem staysInCalendar_iff {d : String} (hd : isPlainDate d) (n : ℤ) :
    StaysInCalendar d n ↔
      0 ≤ dayNumber d + n ∧ dayNumber d + n < dayCount ∨ 100000000 < (toDays d + n).natAbs := by
  rw [← addDays_inCalendar_iff hd]
  refine ⟨StaysInCalendar.days, fun h => ⟨h, ?_, ?_, ?_, ?_, ?_, ?_⟩⟩
  · intro e he
    obtain ⟨⟨e', he', hplain, -⟩, -⟩ | ⟨⟨why, hwhy⟩, -⟩ := addMonths_spec hd n
    · rw [he'] at he
      obtain rfl := Except.ok.inj he
      exact hplain
    · rw [hwhy] at he
      cases he
  · exact fun b e he hplain => addDays_addDays hd he hplain b
  · exact fun e he => lt_iff_toDays_lt hd he
  · intro e he
    obtain ⟨⟨e', he', -, hindex, hday⟩, -⟩ | ⟨⟨why, hwhy⟩, -⟩ := addMonths_spec hd n
    · rw [he'] at he
      obtain rfl := Except.ok.inj he
      exact ⟨hindex, hindex ▸ hday⟩
    · rw [hwhy] at he
      cases he
  · exact fun last hlast => DatePeriod.eachDay_contains hd hlast
  · exact fun a b => DatePeriod.intersect_contains_iff a b d

theorem staysInCalendar_leap : isPlainDate "2026-02-27" = true ∧ StaysInCalendar "2026-02-27" 2 :=
  ⟨by decide, (staysInCalendar_iff (by decide) 2).mpr (by decide)⟩

/-- A day after the last one. -/
theorem addDays_last : isPlainDate "9999-12-31" = true ∧ addDays "9999-12-31" 1 = .ok "+010000-01" ∧
    isPlainDate "+010000-01" = false := by
  decide

end Norbital.Std

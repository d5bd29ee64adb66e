import Mathlib.Data.List.Chain
import Norbital.Lib.Openings
import Norbital.Std.Days

/-!
# Pay and billing cycles

The cycles of `std/src/calendar.ts`.  A rule says on which days a cycle opens; a cycle
reaches from its opening to the day before the next.
-/

namespace Norbital.Std

open Gregorian Openings

/-- `opensOn` of a month defaults to 1, `secondOpensOn` to 16. -/
inductive Cycle where
  | month (opensOn : Option ℤ)
  | semiMonth (secondOpensOn : Option ℤ)
  | week (opensOn : ℤ)
  | days (n : ℤ) (anchor : String)
  deriving DecidableEq, Repr

/-- The ISO weekday of a day's number since 1970. -/
def weekdayOf (days : ℤ) : ℤ := ((days + 4) % 7 + 6) % 7 + 1

def weekday (d : String) : ℤ := weekdayOf (toDays d)

/-- `${d.slice(0, 8)}` and a day in two digits. -/
def inMonthOf (d : String) (day : ℤ) : Except String String :=
  plainDate (String.ofList (d.toList.take 8 ++ [digit (day.toNat / 10), digit day.toNat]))

/-- The cycle that holds `day`. -/
def cycleOf (rule : Cycle) (day : String) : Except String DatePeriod := do
  let d ← plainDate day
  match rule with
  | .month opensOn =>
    let opens := opensOn.getD 1
    if opens < 1 ∨ 28 < opens then .error "opensOn is a day 1–28"
    else
      let here ← inMonthOf d opens
      let first ← (if here ≤ d then pure here else addMonths here (-1) : Except String String)
      let last ← addDays (← addMonths first 1) (-1)
      return ⟨first, some last⟩
  | .semiMonth secondOpensOn =>
    let second := secondOpensOn.getD 16
    if second < 2 ∨ 28 < second then .error "secondOpensOn is a day 2–28"
    else
      let mid ← inMonthOf d second
      let first ← inMonthOf d 1
      if d < mid then return ⟨first, some (← addDays mid (-1))⟩
      else return ⟨mid, some (← addDays (← addMonths first 1) (-1))⟩
  | .week opensOn =>
    let first ← addDays d (-((weekday d - opensOn + 7) % 7))
    return ⟨first, some (← addDays first 6)⟩
  | .days n anchor =>
    if n < 1 then .error "n is a whole number of days ≥ 1"
    else
      let anchor ← plainDate anchor
      let first ← addDays anchor ((toDays d - toDays anchor) / n * n)
      return ⟨first, some (← addDays first (n - 1))⟩

/-- The loop of `cycles` from its cycle on; `none` while it runs. -/
def cyclesFrom (rule : Cycle) (last : String) : ℕ → Except String DatePeriod → Option (Except String (List DatePeriod))
  | 0, _ => none
  | _ + 1, .error message => some (.error message)
  | fuel + 1, .ok c =>
    if c.first ≤ last then
      let next := do cycleOf rule (← addDays (c.last.getD "null") 1)
      (cyclesFrom rule last fuel next).map (Except.map (c :: ·))
    else some (.ok [])

/-- Every cycle that shares a day with `within`, in order. -/
def cycles (rule : Cycle) (within : DatePeriod) (fuel : ℕ) : Option (Except String (List DatePeriod)) :=
  match within.last with
  | none => some (.error "cycles needs a closed period")
  | some last => cyclesFrom rule last fuel (cycleOf rule within.first)

/-- A rule `cycleOf` takes. -/
def Cycle.Valid : Cycle → Prop
  | .month opensOn => 1 ≤ opensOn.getD 1 ∧ opensOn.getD 1 ≤ 28
  | .semiMonth secondOpensOn => 2 ≤ secondOpensOn.getD 16 ∧ secondOpensOn.getD 16 ≤ 28
  | .week opensOn => 1 ≤ opensOn ∧ opensOn ≤ 7
  | .days n anchor => 1 ≤ n ∧ isPlainDate anchor

/-- The days, by number, on which a cycle opens. -/
def Cycle.Opening : Cycle → ℤ → Prop
  | .month opensOn, n => ∃ k, n = inMonth k (opensOn.getD 1)
  | .semiMonth secondOpensOn, n => ∃ k, n = inMonth k 1 ∨ n = inMonth k (secondOpensOn.getD 16)
  | .week opensOn, n => weekdayOf (n - epoch) = opensOn
  | .days every anchor, n => every ∣ n - dayNumber anchor

theorem inMonth_lt {k day : ℤ} (hday : day ≤ 28) : inMonth k day < opens (k + 1) := by
  have := le_monthLength (k / 12) (k % 12).toNat
  rw [opens_succ, inMonth]
  omega

theorem inMonth_succ {k day : ℤ} : inMonth k day < inMonth (k + 1) day := by
  have := opens_lt_succ k
  rw [inMonth, inMonth]
  omega

/-- A day of a month that lies in another's days is one of the months up to it. -/
theorem inMonth_le_iff {j k day : ℤ} : inMonth j day ≤ inMonth k day ↔ j ≤ k := by
  have h := opens_strictMono.le_iff_le (a := j) (b := k)
  rw [inMonth, inMonth]
  omega

theorem isPeriod_month {opensOn : Option ℤ} (k : ℤ) :
    IsPeriod (Cycle.month opensOn).Opening (inMonth k (opensOn.getD 1)) (inMonth (k + 1) (opensOn.getD 1) - 1) where
  opens := ⟨k, rfl⟩
  closes := ⟨k + 1, by rw [Int.sub_add_cancel]⟩
  le := by
    have := @inMonth_succ k (opensOn.getD 1)
    omega
  between := by
    rintro _ hlow hhigh ⟨j, rfl⟩
    have hkj : ¬inMonth j (opensOn.getD 1) ≤ inMonth k (opensOn.getD 1) := by omega
    have hjk : ¬inMonth (k + 1) (opensOn.getD 1) ≤ inMonth j (opensOn.getD 1) := by omega
    rw [inMonth_le_iff] at hkj hjk
    omega

theorem isPeriod_firstHalf {secondOpensOn : Option ℤ} (hvalid : (Cycle.semiMonth secondOpensOn).Valid) (k : ℤ) :
    IsPeriod (Cycle.semiMonth secondOpensOn).Opening (inMonth k 1) (inMonth k (secondOpensOn.getD 16) - 1) where
  opens := ⟨k, .inl rfl⟩
  closes := ⟨k, .inr (by rw [Int.sub_add_cancel])⟩
  le := by
    have := hvalid.1
    rw [inMonth, inMonth]
    omega
  between := by
    rintro _ hlow hhigh ⟨j, rfl | rfl⟩
    · have hbefore := @inMonth_lt k _ hvalid.2
      have hafter : opens (k + 1) = inMonth (k + 1) 1 := by rw [inMonth]; omega
      have hkj : ¬inMonth j 1 ≤ inMonth k 1 := by omega
      have hjk : ¬inMonth (k + 1) 1 ≤ inMonth j 1 := by omega
      rw [inMonth_le_iff] at hkj hjk
      omega
    · have hjk : ¬inMonth k (secondOpensOn.getD 16) ≤ inMonth j (secondOpensOn.getD 16) := by omega
      have hbefore := @inMonth_lt j _ hvalid.2
      rw [inMonth_le_iff] at hjk
      have hmonths : opens (j + 1) ≤ opens k := opens_strictMono.monotone (by omega)
      rw [inMonth] at hlow
      omega

theorem isPeriod_secondHalf {secondOpensOn : Option ℤ} (hvalid : (Cycle.semiMonth secondOpensOn).Valid) (k : ℤ) :
    IsPeriod (Cycle.semiMonth secondOpensOn).Opening (inMonth k (secondOpensOn.getD 16)) (inMonth (k + 1) 1 - 1) where
  opens := ⟨k, .inr rfl⟩
  closes := ⟨k + 1, .inl (by rw [Int.sub_add_cancel])⟩
  le := by
    have hbefore := @inMonth_lt k _ hvalid.2
    have hafter : opens (k + 1) = inMonth (k + 1) 1 := by rw [inMonth]; omega
    omega
  between := by
    rintro _ hlow hhigh ⟨j, rfl | rfl⟩
    · have hjk : ¬inMonth (k + 1) 1 ≤ inMonth j 1 := by omega
      have hsecond := hvalid.1
      rw [inMonth_le_iff] at hjk
      have hmonths : opens j ≤ opens k := opens_strictMono.monotone (by omega)
      rw [inMonth, inMonth] at hlow
      omega
    · have hkj : ¬inMonth j (secondOpensOn.getD 16) ≤ inMonth k (secondOpensOn.getD 16) := by omega
      have hsecond := hvalid.1
      rw [inMonth_le_iff] at hkj
      have hmonths : opens (k + 1) ≤ opens j := opens_strictMono.monotone (by omega)
      rw [inMonth, inMonth] at hhigh
      omega

theorem isPeriod_week {opensOn : ℤ} {n : ℤ} (h : weekdayOf (n - epoch) = opensOn) :
    IsPeriod (Cycle.week opensOn).Opening n (n + 6) where
  opens := h
  closes := by
    rw [← h]
    show weekdayOf _ = _
    rw [weekdayOf, weekdayOf]
    omega
  le := by omega
  between := by
    intro m hlow hhigh hopening
    rw [Cycle.Opening, ← h, weekdayOf, weekdayOf] at hopening
    omega

theorem isPeriod_days {every : ℤ} {anchor : String} (hvalid : (Cycle.days every anchor).Valid) {n : ℤ}
    (h : every ∣ n - dayNumber anchor) : IsPeriod (Cycle.days every anchor).Opening n (n + (every - 1)) where
  opens := h
  closes := by
    have hnext : n + (every - 1) + 1 - dayNumber anchor = n - dayNumber anchor + every := by omega
    rw [Cycle.Opening, hnext]
    exact Int.dvd_add h (Int.dvd_refl every)
  le := by
    have := hvalid.1
    omega
  between := by
    intro m hlow hhigh hopening
    have hdvd : every ∣ m - n := by
      have hsub : m - dayNumber anchor - (n - dayNumber anchor) = m - n := by omega
      rw [← hsub]
      exact Int.dvd_sub hopening h
    have := Int.le_of_dvd (by omega) hdvd
    omega

theorem inMonthOf_dayText {n day : ℤ} (hlow : 0 ≤ n) (hhigh : n < dayCount) (hday : 1 ≤ day) (hday' : day ≤ 28) :
    inMonthOf (dayText n) day = .ok (dayText (inMonth (monthAt n) day)) := by
  obtain ⟨hk, hk', -, -⟩ := parts_of_number hlow hhigh
  obtain ⟨hfirst, hlast⟩ := inMonth_bounds hk hk' hday hday'
  have hmonth : (monthAt n % 12 + 1).toNat = (monthAt n % 12).toNat + 1 := by omega
  have htext : String.ofList ((dayText n).toList.take 8 ++ [digit (day.toNat / 10), digit day.toNat]) =
      dayText (inMonth (monthAt n) day) := by
    rw [dayText_inMonth hk hday hday', dayText, dateText, String.toList_ofList, dateText, hmonth]
    rfl
  rw [inMonthOf, htext, plainDate_dayText hfirst hlast]

/-- The last day of the cycles the calendar answers, by number: every later cycle opens at most the day after. -/
def lastOpening : ℤ := 3652060

variable {n a b : ℤ}

/-- The day before the same day of the next month. -/
theorem addDays_addMonths {k day : ℤ} (hlow : 0 ≤ k) (hhigh : k < 119999) (hday : 1 ≤ day) (hday' : day ≤ 28) :
    (addMonths (dayText (inMonth k day)) 1 >>= fun next => addDays next (-1)) =
      .ok (isoDay (inMonth (k + 1) day - 1)) := by
  obtain ⟨hfirst, hlast⟩ := @inMonth_bounds (k + 1) day (by omega) (by omega) hday hday'
  have hbound : (inMonth (k + 1) day - epoch + -1).natAbs ≤ 100000000 := by
    simp only [epoch, dayCount] at *
    omega
  rw [addMonths_inMonth hlow (by omega) hday hday' (by omega) (by omega), Fallible.ok_bind,
    addDays_eq hfirst hlast hbound]
  rfl

theorem month_lt_of_inMonth_le {k day : ℤ} (hday : 1 ≤ day) (h : inMonth k day ≤ lastOpening) : k < 119999 := by
  by_contra hk
  have hopens : opens 119999 ≤ opens k := opens_strictMono.monotone (by omega)
  have hlast : lastOpening < opens 119999 := by decide
  rw [inMonth] at h
  omega

theorem month_nonneg_of_inMonth {k day : ℤ} (hday : day ≤ 28) (h : 0 ≤ inMonth k day) : 0 ≤ k := by
  by_contra hk
  have hopens : opens k ≤ opens (-1) := opens_strictMono.monotone (by omega)
  have hlast : opens (-1) = -31 := by decide
  rw [inMonth] at h
  omega

theorem cycleOf_month {opensOn : Option ℤ} (hvalid : (Cycle.month opensOn).Valid) (hlow : 0 ≤ n) (hhigh : n < dayCount)
    (hperiod : IsPeriod (Cycle.month opensOn).Opening a b) (han : a ≤ n) (hnb : n ≤ b) (ha : 0 ≤ a)
    (ha' : a ≤ lastOpening) :
    cycleOf (.month opensOn) (dayText n) = .ok ⟨dayText a, some (isoDay b)⟩ := by
  obtain ⟨hk, hk', hle, -⟩ := parts_of_number hlow hhigh
  have hlt := lt_opens_monthAt_succ n
  obtain ⟨hday, hday'⟩ := hvalid
  obtain ⟨hfirst, hlast⟩ := inMonth_bounds hk hk' hday hday'
  -- the month whose opening is the cycle's
  have hopens : ∃ j, a = inMonth j (opensOn.getD 1) ∧ b = inMonth (j + 1) (opensOn.getD 1) - 1 ∧
      (if dayText (inMonth (monthAt n) (opensOn.getD 1)) ≤ dayText n then
        pure (dayText (inMonth (monthAt n) (opensOn.getD 1)))
      else addMonths (dayText (inMonth (monthAt n) (opensOn.getD 1))) (-1)) = Except.ok (dayText a) := by
    by_cases hhere : inMonth (monthAt n) (opensOn.getD 1) ≤ n
    · have hnext : opens (monthAt n + 1) ≤ inMonth (monthAt n + 1) (opensOn.getD 1) := by rw [inMonth]; omega
      obtain ⟨rfl, rfl⟩ := hperiod.unique (isPeriod_month (monthAt n)) han hnb hhere (by omega)
      refine ⟨monthAt n, rfl, rfl, ?_⟩
      rw [if_pos ((dayText_le hfirst hlast hlow hhigh).mpr hhere)]
      rfl
    · have hbefore := @inMonth_lt (monthAt n - 1) _ hday'
      rw [Int.sub_add_cancel] at hbefore
      have hperiod' := @isPeriod_month opensOn (monthAt n - 1)
      rw [Int.sub_add_cancel] at hperiod'
      obtain ⟨rfl, rfl⟩ := hperiod.unique hperiod' han hnb (by omega) (by omega)
      have hnonneg := month_nonneg_of_inMonth hday' ha
      refine ⟨monthAt n - 1, rfl, by rw [Int.sub_add_cancel], ?_⟩
      rw [if_neg (mt (dayText_le hfirst hlast hlow hhigh).mp hhere),
        addMonths_inMonth hk hk' hday hday' (by omega) (by omega)]
      rfl
  obtain ⟨j, rfl, rfl, hfound⟩ := hopens
  have hend := addDays_addMonths (month_nonneg_of_inMonth hday' ha) (month_lt_of_inMonth_le hday ha') hday hday'
  rw [cycleOf, plainDate_dayText hlow hhigh, Fallible.ok_bind]
  show (if opensOn.getD 1 < 1 ∨ 28 < opensOn.getD 1 then _ else _) = _
  rw [if_neg (by omega), inMonthOf_dayText hlow hhigh hday hday', Fallible.ok_bind]
  show ((if _ ≤ dayText n then _ else _ : Except String String) >>= _) = _
  rw [hfound, Fallible.ok_bind]
  obtain ⟨next, hnext, hlast⟩ := Fallible.bind_eq_ok.mp hend
  rw [hnext, Fallible.ok_bind, hlast, Fallible.ok_bind]
  rfl

theorem cycleOf_semiMonth {second : Option ℤ} (hvalid : (Cycle.semiMonth second).Valid) (hlow : 0 ≤ n)
    (hhigh : n < dayCount) (hperiod : IsPeriod (Cycle.semiMonth second).Opening a b) (han : a ≤ n) (hnb : n ≤ b)
    (ha' : a ≤ lastOpening) :
    cycleOf (.semiMonth second) (dayText n) = .ok ⟨dayText a, some (isoDay b)⟩ := by
  obtain ⟨hk, hk', hle, -⟩ := parts_of_number hlow hhigh
  have hlt := lt_opens_monthAt_succ n
  obtain ⟨hday, hday'⟩ := id hvalid
  obtain ⟨hmid, hmid'⟩ := inMonth_bounds hk hk' (by omega) hday'
  have hone : ∀ k, inMonth k 1 = opens k := fun k => by rw [inMonth]; omega
  rw [cycleOf, plainDate_dayText hlow hhigh, Fallible.ok_bind]
  show (if second.getD 16 < 2 ∨ 28 < second.getD 16 then _ else _) = _
  rw [if_neg (by omega), inMonthOf_dayText hlow hhigh (by omega) hday', Fallible.ok_bind,
    inMonthOf_dayText hlow hhigh (by decide) (by decide), Fallible.ok_bind]
  show (if dayText n < dayText (inMonth (monthAt n) (second.getD 16)) then _ else _) = _
  by_cases hbefore : n < inMonth (monthAt n) (second.getD 16)
  · obtain ⟨rfl, rfl⟩ := hperiod.unique (isPeriod_firstHalf hvalid (monthAt n)) han hnb (by rw [hone]; omega)
      (by omega)
    have hbound : (inMonth (monthAt n) (second.getD 16) - epoch + -1).natAbs ≤ 100000000 := by
      simp only [epoch, dayCount] at *
      omega
    rw [if_pos ((dayText_lt hlow hhigh hmid hmid').mpr hbefore), addDays_eq hmid hmid' hbound, Fallible.ok_bind]
    rfl
  · obtain ⟨rfl, rfl⟩ := hperiod.unique (isPeriod_secondHalf hvalid (monthAt n)) han hnb (by omega)
      (by rw [hone]; omega)
    have hend := @addDays_addMonths (monthAt n) 1 hk (month_lt_of_inMonth_le (by omega) ha') (by decide) (by decide)
    obtain ⟨next, hnext, hlast⟩ := Fallible.bind_eq_ok.mp hend
    rw [if_neg (mt (dayText_lt hlow hhigh hmid hmid').mp hbefore), hnext, Fallible.ok_bind, hlast, Fallible.ok_bind]
    rfl

theorem cycleOf_week {opensOn : ℤ} (hvalid : (Cycle.week opensOn).Valid) (hlow : 0 ≤ n) (hhigh : n < dayCount)
    (hperiod : IsPeriod (Cycle.week opensOn).Opening a b) (han : a ≤ n) (hnb : n ≤ b) (ha : 0 ≤ a) :
    cycleOf (.week opensOn) (dayText n) = .ok ⟨dayText a, some (isoDay b)⟩ := by
  obtain ⟨hday, hday'⟩ := hvalid
  have hopening : weekdayOf (n + -((weekdayOf (n - epoch) - opensOn + 7) % 7) - epoch) = opensOn := by
    rw [weekdayOf, weekdayOf]
    omega
  obtain ⟨rfl, rfl⟩ := hperiod.unique (isPeriod_week hopening) han hnb (by omega) (by omega)
  have hbound : (n + -((weekdayOf (n - epoch) - opensOn + 7) % 7) - epoch + 6).natAbs ≤ 100000000 := by
    simp only [epoch, dayCount] at *
    omega
  rw [cycleOf, plainDate_dayText hlow hhigh, Fallible.ok_bind]
  show (addDays (dayText n) (-((weekday (dayText n) - opensOn + 7) % 7)) >>= _) = _
  rw [weekday, toDays_dayText hlow hhigh, addDays_dayText hlow hhigh ha (by omega), Fallible.ok_bind,
    addDays_eq ha (by omega) hbound, Fallible.ok_bind]
  rfl

theorem cycleOf_days {every : ℤ} {anchor : String} (hvalid : (Cycle.days every anchor).Valid) (hlow : 0 ≤ n)
    (hhigh : n < dayCount) (hperiod : IsPeriod (Cycle.days every anchor).Opening a b) (han : a ≤ n) (hnb : n ≤ b)
    (ha : 0 ≤ a) (hb : b ≤ 2 * lastOpening) :
    cycleOf (.days every anchor) (dayText n) = .ok ⟨dayText a, some (isoDay b)⟩ := by
  obtain ⟨hpos, hanchor⟩ := id hvalid
  obtain ⟨m, hm, hm', rfl⟩ := exists_dayText hanchor
  have hnumber := dayNumber_dayText hm hm'
  have hdiv := Int.mul_ediv_add_emod (n - m) every
  have hrest := Int.emod_nonneg (n - m) (by omega : every ≠ 0)
  have hrest' := Int.emod_lt_of_pos (n - m) (by omega : 0 < every)
  rw [mul_comm] at hdiv
  have hopening : every ∣ m + (n - m) / every * every - dayNumber (dayText m) := by
    rw [hnumber]
    exact ⟨(n - m) / every, by rw [mul_comm every]; omega⟩
  obtain ⟨rfl, rfl⟩ := hperiod.unique (isPeriod_days hvalid hopening) han hnb (by omega) (by omega)
  have hbound : (m + (n - m) / every * every - epoch + (every - 1)).natAbs ≤ 100000000 := by
    simp only [epoch, lastOpening] at *
    omega
  have hsub : n - epoch - (m - epoch) = n - m := by omega
  rw [cycleOf, plainDate_dayText hlow hhigh, Fallible.ok_bind]
  show (if every < 1 then _ else _) = _
  rw [if_neg (by omega), plainDate_dayText hm hm', Fallible.ok_bind, toDays_dayText hlow hhigh, toDays_dayText hm hm',
    hsub, addDays_dayText hm hm' ha (by omega), Fallible.ok_bind, addDays_eq ha (by omega) hbound, Fallible.ok_bind]
  rfl

/-- A day's cycle is the period it is in. -/
theorem cycleOf_eq {rule : Cycle} (hvalid : rule.Valid) (hlow : 0 ≤ n) (hhigh : n < dayCount)
    (hperiod : IsPeriod rule.Opening a b) (han : a ≤ n) (hnb : n ≤ b) (ha : 0 ≤ a) (ha' : a ≤ lastOpening)
    (hb : b ≤ 2 * lastOpening) : cycleOf rule (dayText n) = .ok ⟨dayText a, some (isoDay b)⟩ := by
  cases rule with
  | month opensOn => exact cycleOf_month hvalid hlow hhigh hperiod han hnb ha ha'
  | semiMonth second => exact cycleOf_semiMonth hvalid hlow hhigh hperiod han hnb ha'
  | week opensOn => exact cycleOf_week hvalid hlow hhigh hperiod han hnb ha
  | days every anchor => exact cycleOf_days hvalid hlow hhigh hperiod han hnb ha hb

/-- Every day is in a cycle. -/
theorem exists_cycle {rule : Cycle} (hvalid : rule.Valid) (n : ℤ) :
    ∃ a b, IsPeriod rule.Opening a b ∧ a ≤ n ∧ n ≤ b := by
  cases rule with
  | month opensOn =>
    have hbefore := @inMonth_lt (monthAt n - 1) _ hvalid.2
    have hle := opens_monthAt_le n
    have hlt := lt_opens_monthAt_succ n
    have hafter : opens (monthAt n + 1) ≤ inMonth (monthAt n + 1) (opensOn.getD 1) := by
      have := hvalid.1
      rw [inMonth]
      omega
    rw [Int.sub_add_cancel] at hbefore
    exact exists_isPeriod ⟨_, by omega, monthAt n - 1, rfl⟩ ⟨_, by omega, monthAt n + 1, rfl⟩
  | semiMonth second =>
    have hone : ∀ k, inMonth k 1 = opens k := fun k => by rw [inMonth]; omega
    have hle := opens_monthAt_le n
    have hlt := lt_opens_monthAt_succ n
    exact exists_isPeriod ⟨inMonth (monthAt n) 1, by rw [hone]; omega, _, .inl rfl⟩
      ⟨inMonth (monthAt n + 1) 1, by rw [hone]; omega, _, .inl rfl⟩
  | week opensOn =>
    obtain ⟨hday, hday'⟩ := hvalid
    have hopening : weekdayOf (n + -((weekdayOf (n - epoch) - opensOn + 7) % 7) - epoch) = opensOn := by
      rw [weekdayOf, weekdayOf]
      omega
    exact ⟨_, _, isPeriod_week hopening, by omega, by omega⟩
  | days every anchor =>
    have hpos := hvalid.1
    have hrest := Int.emod_nonneg (n - dayNumber anchor) (by omega : every ≠ 0)
    have hrest' := Int.emod_lt_of_pos (n - dayNumber anchor) (by omega : 0 < every)
    have hopening : every ∣ n - (n - dayNumber anchor) % every - dayNumber anchor := by
      rw [sub_right_comm]
      exact Int.dvd_self_sub_emod
    exact ⟨_, _, isPeriod_days hvalid hopening, by omega, by omega⟩

/-- The next cycle is at most as long, or of a month. -/
theorem next_le {rule : Cycle} (hvalid : rule.Valid) (hperiod : IsPeriod rule.Opening a b)
    (hnext : IsPeriod rule.Opening (b + 1) n) : n ≤ b + max 31 (b - a + 1) := by
  cases rule with
  | month opensOn =>
    obtain ⟨k, hk⟩ := hnext.opens
    obtain ⟨-, rfl⟩ := hnext.unique (isPeriod_month k) le_rfl hnext.le hk.ge (by
      have := @inMonth_succ k (opensOn.getD 1)
      omega)
    have hlength := monthLength_le (k / 12) (k % 12).toNat
    have hsucc := opens_succ k
    rw [inMonth] at hk ⊢
    omega
  | semiMonth second =>
    obtain ⟨hday, hday'⟩ := id hvalid
    have hone : ∀ k, inMonth k 1 = opens k := fun k => by rw [inMonth]; omega
    obtain ⟨k, hk | hk⟩ := hnext.opens
    · have hhalf := isPeriod_firstHalf hvalid k
      obtain ⟨-, rfl⟩ := hnext.unique hhalf le_rfl hnext.le hk.ge (hk ▸ hhalf.le)
      rw [inMonth] at hk ⊢
      omega
    · have hhalf := isPeriod_secondHalf hvalid k
      obtain ⟨-, rfl⟩ := hnext.unique hhalf le_rfl hnext.le hk.ge (hk ▸ hhalf.le)
      have hlength := monthLength_le (k / 12) (k % 12).toNat
      have hsucc := opens_succ k
      rw [hone]
      rw [inMonth] at hk
      omega
  | week opensOn =>
    obtain ⟨-, rfl⟩ := hnext.unique (isPeriod_week hnext.opens) le_rfl hnext.le le_rfl (by omega)
    omega
  | days every anchor =>
    have hpos := hvalid.1
    obtain ⟨-, rfl⟩ := hnext.unique (isPeriod_days hvalid hnext.opens) le_rfl hnext.le le_rfl (by omega)
    obtain ⟨-, hb⟩ := hperiod.unique (isPeriod_days hvalid hperiod.opens) le_rfl hperiod.le le_rfl (by omega)
    omega

/-- A cycle between 0001-01-01 and 9998-12-31. -/
structure IsCycle (rule : Cycle) (a b : ℤ) : Prop extends IsPeriod rule.Opening a b where
  first : dayNumber "0001-01-01" ≤ a
  last : b ≤ dayNumber "9998-12-31"

theorem dayNumber_first : dayNumber "0001-01-01" = 366 := by decide

theorem dayNumber_last : dayNumber "9998-12-31" = 3652059 := by decide

theorem IsCycle.bounds {rule : Cycle} (h : IsCycle rule a b) : 366 ≤ a ∧ a ≤ b ∧ b ≤ 3652059 := by
  have hfirst := h.first
  have hlast := h.last
  rw [dayNumber_first] at hfirst
  rw [dayNumber_last] at hlast
  exact ⟨hfirst, h.le, hlast⟩

theorem IsCycle.cycleOf {rule : Cycle} (hvalid : rule.Valid) (h : IsCycle rule a b) (han : a ≤ n) (hnb : n ≤ b) :
    cycleOf rule (dayText n) = .ok ⟨dayText a, some (dayText b)⟩ := by
  obtain ⟨hfirst, hle, hlast⟩ := h.bounds
  simp only [cycleOf_eq hvalid (by omega) (by rw [dayCount]; omega) h.toIsPeriod han hnb (by omega)
    (by rw [lastOpening]; omega) (by rw [lastOpening]; omega), isoDay_eq (show 0 ≤ b by omega)
    (show b < dayCount by rw [dayCount]; omega)]

/-- The day after a cycle opens the next. -/
theorem IsCycle.next {rule : Cycle} (hvalid : rule.Valid) (h : IsCycle rule a b) :
    ∃ e, IsPeriod rule.Opening (b + 1) e ∧ addDays (dayText b) 1 = .ok (dayText (b + 1)) ∧
      Norbital.Std.cycleOf rule (dayText (b + 1)) = .ok ⟨dayText (b + 1), some (isoDay e)⟩ := by
  obtain ⟨hfirst, hle, hlast⟩ := h.bounds
  obtain ⟨a', e, hnext, ha', he⟩ := exists_cycle hvalid (b + 1)
  obtain rfl := h.toIsPeriod.next hnext ha' he
  have hlength := next_le hvalid h.toIsPeriod hnext
  refine ⟨e, hnext, addDays_dayText (by omega) (by rw [dayCount]; omega) (by omega) (by rw [dayCount]; omega), ?_⟩
  exact cycleOf_eq hvalid (by omega) (by rw [dayCount]; omega) hnext le_rfl he (by omega) (by rw [lastOpening]; omega)
    (by rw [lastOpening]; omega)

/-- Cycles one after the other. -/
def Adjoining (c c' : DatePeriod) : Prop := ∃ last, c.last = some last ∧ addDays last 1 = .ok c'.first

/-- A run of the loop lists the cycles that open from `x` to `q`. -/
structure Lists (rule : Cycle) (q x y : ℤ) (fuel : ℕ) (list : List DatePeriod) : Prop where
  run : ∀ more ≥ fuel, cyclesFrom rule (dayText q) more (.ok ⟨dayText x, some (isoDay y)⟩) = some (.ok list)
  mem : ∀ c, c ∈ list ↔ ∃ a b, IsCycle rule a b ∧ x ≤ a ∧ a ≤ q ∧ c = ⟨dayText a, some (dayText b)⟩
  head : ∀ c ∈ list.head?, c.first = dayText x
  chain : list.IsChain Adjoining

/-- Past the last day the loop ends. -/
theorem lists_nil {rule : Cycle} {q x y : ℤ} (hq : 0 ≤ q) (hqx : q < x) (hx : x < dayCount) : Lists rule q x y 1 [] where
  run more hmore := by
    obtain ⟨more, rfl⟩ := Nat.exists_eq_add_of_le' hmore
    rw [cyclesFrom, if_neg]
    rw [dayText_le (by omega) hx hq (by omega)]
    omega
  mem c := by
    simp only [List.not_mem_nil, false_iff]
    rintro ⟨a, b, -, hxa, haq, -⟩
    omega
  head := by simp
  chain := .nil

/-- Up to it the loop lists its cycle first. -/
theorem Lists.cons {rule : Cycle} {q x y e : ℤ} {fuel : ℕ} {list : List DatePeriod} (hvalid : rule.Valid)
    (hcycle : IsCycle rule x y) (hxq : x ≤ q) (hq : q < dayCount) (hnext : IsPeriod rule.Opening (y + 1) e)
    (h : Lists rule q (y + 1) e fuel list) :
    Lists rule q x y (fuel + 1) (⟨dayText x, some (dayText y)⟩ :: list) where
  run more hmore := by
    obtain ⟨hfirst, hxy, hlast⟩ := hcycle.bounds
    obtain ⟨e', hnext', hday, hopens⟩ := hcycle.next hvalid
    obtain ⟨-, rfl⟩ := hnext.unique hnext' le_rfl hnext.le le_rfl hnext'.le
    obtain ⟨more, rfl⟩ := Nat.exists_eq_add_of_le' (show 1 ≤ more by omega)
    have hstep : (do Norbital.Std.cycleOf rule (← addDays ((some (dayText y)).getD "null") 1)) =
        .ok ⟨dayText (y + 1), some (isoDay e)⟩ := by
      rw [Option.getD_some, hday, Fallible.ok_bind, hopens]
    have hle : dayText x ≤ dayText q :=
      (dayText_le (by omega) (by rw [dayCount]; omega) (by omega) hq).mpr hxq
    rw [isoDay_eq (by omega) (by rw [dayCount]; omega), cyclesFrom, if_pos hle, hstep]
    show Option.map _ (cyclesFrom rule (dayText q) more (.ok ⟨dayText (y + 1), some (isoDay e)⟩)) = _
    rw [h.run more (by omega)]
    rfl
  mem c := by
    rw [List.mem_cons, h.mem]
    constructor
    · rintro (rfl | ⟨a, b, hab, hya, haq, rfl⟩)
      · exact ⟨x, y, hcycle, le_rfl, hxq, rfl⟩
      · have := hcycle.le
        exact ⟨a, b, hab, by omega, haq, rfl⟩
    · rintro ⟨a, b, hab, hxa, haq, rfl⟩
      obtain rfl | hlt := hxa.eq_or_lt
      · obtain ⟨-, rfl⟩ := hab.toIsPeriod.unique hcycle.toIsPeriod le_rfl hab.le le_rfl hcycle.le
        exact .inl rfl
      · refine .inr ⟨a, b, hab, ?_, haq, rfl⟩
        by_contra hya
        exact hcycle.between a hlt (by omega) hab.opens
  head := by simp
  chain := by
    obtain ⟨-, -, hday, -⟩ := hcycle.next hvalid
    cases list with
    | nil => exact .singleton _
    | cons c list => exact .cons_cons ⟨dayText y, rfl, by rw [hday, h.head c rfl]⟩ h.chain

/-- The loop ends, from any cycle up to the one of the last day. -/
theorem exists_lists {rule : Cycle} (hvalid : rule.Valid) {q u v : ℤ} (hend : IsCycle rule u v) (huq : u ≤ q)
    (hqv : q ≤ v) : ∀ (left : ℕ) {x y : ℤ}, (q + 1 - x).toNat ≤ left → IsPeriod rule.Opening x y →
      dayNumber "0001-01-01" ≤ x → x ≤ v + 1 → ∃ fuel list, Lists rule q x y fuel list := by
  obtain ⟨hfirst, hle, hlast⟩ := hend.bounds
  intro left
  induction left with
  | zero =>
    intro x y hleft hperiod hx hxv
    exact ⟨1, [], lists_nil (by omega) (by omega) (by rw [dayCount]; omega)⟩
  | succ left ih =>
    intro x y hleft hperiod hx hxv
    by_cases hxq : x ≤ q
    · -- the cycle begins within, so it ends in the last one at the latest
      have hyv : y ≤ v := by
        by_contra hvy
        obtain ⟨-, rfl⟩ := hperiod.unique hend.toIsPeriod hxq (by omega) huq hqv
        omega
      have hcycle : IsCycle rule x y := ⟨hperiod, hx, by rw [dayNumber_last]; omega⟩
      obtain ⟨-, hxy, -⟩ := hcycle.bounds
      obtain ⟨e, hnext, -, -⟩ := hcycle.next hvalid
      obtain ⟨fuel, list, hlists⟩ := ih (by omega) hnext (by omega) (by omega)
      exact ⟨fuel + 1, _, hlists.cons hvalid hcycle hxq (by rw [dayCount]; omega) hnext⟩
    · exact ⟨1, [], lists_nil (by omega) (by omega) (by rw [dayCount]; omega)⟩

/-- A day between two cycles' days is in a cycle between them. -/
theorem exists_isCycle {rule : Cycle} (hvalid : rule.Valid) {u v : ℤ} (hfirst : IsCycle rule a b)
    (hlast : IsCycle rule u v) (han : a ≤ n) (hnv : n ≤ v) : ∃ x y, IsCycle rule x y ∧ a ≤ x ∧ x ≤ n ∧ n ≤ y := by
  obtain ⟨x, y, hperiod, hxn, hny⟩ := exists_cycle hvalid n
  have hax : a ≤ x := by
    by_contra hxa
    exact hperiod.between a (by omega) (by omega) hfirst.opens
  have hyv : y ≤ v := by
    by_contra hvy
    exact hperiod.between (v + 1) (by omega) (by omega) hlast.closes
  exact ⟨x, y, ⟨hperiod, hfirst.first.trans hax, hyv.trans hlast.last⟩, hax, hxn, hny⟩

theorem cycleOf_contains {rule : Cycle} (hvalid : rule.Valid) (h : IsCycle rule a b) (han : a ≤ n) (hnb : n ≤ b) :
    ∃ c, cycleOf rule (dayText n) = .ok c ∧ c.contains (dayText n) ∧
      (∀ e, isPlainDate e → c.contains e → cycleOf rule e = .ok c) ∧
      ∃ c', cycleOf rule c'.first = .ok c' ∧ Adjoining c c' := by
  obtain ⟨hfirst, hle, hlast⟩ := h.bounds
  have hday : ∀ m, 0 ≤ m → m < dayCount → ((⟨dayText a, some (dayText b)⟩ : DatePeriod).contains (dayText m) ↔
      a ≤ m ∧ m ≤ b) := by
    intro m hm hm'
    rw [DatePeriod.contains_iff]
    simp only [Option.mem_def, Option.some.injEq, forall_eq', dayText_le hm hm' (show 0 ≤ b by omega)
      (show b < dayCount by rw [dayCount]; omega), dayText_le (show 0 ≤ a by omega)
      (show a < dayCount by rw [dayCount]; omega) hm hm']
  obtain ⟨e, -, hnext, hopens⟩ := h.next hvalid
  refine ⟨⟨dayText a, some (dayText b)⟩, h.cycleOf hvalid han hnb, ?_, ?_, ⟨dayText (b + 1), some (isoDay e)⟩, hopens,
    dayText b, rfl, hnext⟩
  · exact (hday n (by omega) (by rw [dayCount]; omega)).mpr ⟨han, hnb⟩
  · intro d hd hcontains
    obtain ⟨m, hm, hm', rfl⟩ := exists_dayText hd
    obtain ⟨ham, hmb⟩ := (hday m hm hm').mp hcontains
    exact h.cycleOf hvalid ham hmb

theorem cycles_lists {rule : Cycle} (hvalid : rule.Valid) {p q u v : ℤ} (hfirst : IsCycle rule a b)
    (hlast : IsCycle rule u v) (hap : a ≤ p) (hpb : p ≤ b) (huq : u ≤ q) (hqv : q ≤ v) (hpq : p ≤ q) :
    ∃ fuel list, (∀ more ≥ fuel, cycles rule ⟨dayText p, some (dayText q)⟩ more = some (.ok list)) ∧
      (∀ c, c ∈ list ↔ ∃ n, p ≤ n ∧ n ≤ q ∧ cycleOf rule (dayText n) = .ok c) ∧ list.IsChain Adjoining := by
  obtain ⟨hlow, hle, hhigh⟩ := hfirst.bounds
  obtain ⟨fuel, list, hlists⟩ := exists_lists hvalid hlast huq hqv _ le_rfl hfirst.toIsPeriod hfirst.first (by omega)
  refine ⟨fuel, list, fun more hmore => ?_, fun c => ?_, hlists.chain⟩
  · have hrun := hlists.run more hmore
    rw [isoDay_eq (by omega) (by rw [dayCount]; omega)] at hrun
    rw [cycles, hfirst.cycleOf hvalid hap hpb]
    exact hrun
  · rw [hlists.mem]
    constructor
    · rintro ⟨a', b', hab, haa, haq, rfl⟩
      -- the first of its days within
      have hmax : max p a' ≤ b' := by
        obtain rfl | hlt := haa.eq_or_lt
        · obtain ⟨-, rfl⟩ := hab.toIsPeriod.unique hfirst.toIsPeriod le_rfl hab.le le_rfl hle
          exact max_le hpb hle
        · have hba : b < a' := by
            by_contra hge
            exact hfirst.between a' hlt (by omega) hab.opens
          have := hab.le
          exact max_le (by omega) this
      exact ⟨max p a', le_max_left _ _, max_le hpq haq, hab.cycleOf hvalid (le_max_right _ _) hmax⟩
    · rintro ⟨n, hpn, hnq, hcycle⟩
      obtain ⟨x, y, hxy, hax, hxn, hny⟩ := exists_isCycle hvalid hfirst hlast (show a ≤ n by omega) (by omega)
      rw [hxy.cycleOf hvalid hxn hny] at hcycle
      exact ⟨x, y, hxy, hax, by omega, (Except.ok.inj hcycle).symm⟩

/-- A valid rule's cycles between 0001-01-01 and 9998-12-31 are what `cycleOf` answers on each of their days, the day
after one opens the next, and `cycles` lists those of the days of a period, one after the other. -/
theorem cycles_partition {rule : Cycle} (hvalid : rule.Valid) :
    (∀ a b, IsCycle rule a b → ∀ d, isPlainDate d → a ≤ dayNumber d → dayNumber d ≤ b →
      ∃ c, cycleOf rule d = .ok c ∧ c.contains d ∧ (∀ e, isPlainDate e → c.contains e → cycleOf rule e = .ok c) ∧
        ∃ c', cycleOf rule c'.first = .ok c' ∧ Adjoining c c') ∧
    ∀ s t a b u v, isPlainDate s → isPlainDate t → s ≤ t →
      IsCycle rule a b → a ≤ dayNumber s → dayNumber s ≤ b →
      IsCycle rule u v → u ≤ dayNumber t → dayNumber t ≤ v →
      ∃ fuel list, (∀ more ≥ fuel, cycles rule ⟨s, some t⟩ more = some (.ok list)) ∧
        (∀ c, c ∈ list ↔ ∃ e, isPlainDate e ∧ s ≤ e ∧ e ≤ t ∧ cycleOf rule e = .ok c) ∧ list.IsChain Adjoining := by
  constructor
  · intro a b h d hd
    obtain ⟨n, hn, hn', rfl⟩ := exists_dayText hd
    rw [dayNumber_dayText hn hn']
    exact cycleOf_contains hvalid h
  · intro s t a b u v hs ht hst hfirst has hsb hlast hut htv
    obtain ⟨p, hp, hp', rfl⟩ := exists_dayText hs
    obtain ⟨q, hq, hq', rfl⟩ := exists_dayText ht
    rw [dayText_le hp hp' hq hq'] at hst
    rw [dayNumber_dayText hp hp'] at has hsb
    rw [dayNumber_dayText hq hq'] at hut htv
    obtain ⟨fuel, list, hrun, hmem, hchain⟩ := cycles_lists hvalid hfirst hlast has hsb hut htv hst
    refine ⟨fuel, list, hrun, fun c => ?_, hchain⟩
    rw [hmem]
    constructor
    · rintro ⟨n, hpn, hnq, hcycle⟩
      exact ⟨dayText n, isPlainDate_dayText (by omega) (by omega), (dayText_le hp hp' (by omega) (by omega)).mpr hpn,
        (dayText_le (by omega) (by omega) hq hq').mpr hnq, hcycle⟩
    · rintro ⟨e, he, hse, het, hcycle⟩
      obtain ⟨n, hn, hn', rfl⟩ := exists_dayText he
      exact ⟨n, (dayText_le hp hp' hn hn').mp hse, (dayText_le hn hn' hq hq').mp het, hcycle⟩

/-- The last day of February is in the cycle that opens with the month. -/
theorem cycles_partition_february : ∃ c, cycleOf (.month none) "2026-02-28" = .ok c ∧ c.contains "2026-02-28" ∧
    ∃ c', cycleOf (.month none) c'.first = .ok c' ∧ Adjoining c c' := by
  have hmonth : IsCycle (.month none) (inMonth 24313 1) (inMonth 24314 1 - 1) :=
    ⟨isPeriod_month 24313, by decide, by decide⟩
  obtain ⟨c, hcycle, hcontains, -, hnext⟩ := (@cycles_partition (.month none) ⟨by decide, by decide⟩).1 _ _ hmonth
    "2026-02-28" (by decide) (by decide) (by decide)
  exact ⟨c, hcycle, hcontains, hnext⟩

end Norbital.Std

import Norbital.Lib.Tally
import Norbital.Std.Decimal
import Norbital.Std.Cycles
import Norbital.Std.Zone

/-!
# Business hours

The work calendar and its deadlines (`std/src/calendar.ts`).  Working hours are wall
times of the calendar's zone; days are numbered from 1970 and times are milliseconds.
-/

namespace Norbital.Std

open Tally Rounding

/-- The hours of a working day, in minutes: `start < end`, as `WorkCalendar` checks. -/
structure Hours where
  start : ℤ
  finish : ℤ
  start_nonneg : 0 ≤ start
  lt : start < finish
  finish_lt : finish < 1440

structure WorkCalendar where
  zone : Zone
  /-- By ISO weekday. -/
  week : ℤ → Option Hours
  holidays : List ℤ

/-- A number of hours, as a decimal or as a JavaScript number by its shortest digits. -/
inductive Amount where
  | decimal (d : Decimal)
  | number (digits : Decimal)

namespace Amount

/-- The hours as written. -/
def value : Amount → ℚ
  | decimal d => d.value
  | number digits => digits.value

/-- `Decimal.fromNumber(hours, 6)` for a number. -/
def toDecimal : Amount → Except RangeError Decimal
  | decimal d => .ok d
  | number digits => digits.round 6 .halfUp

/-- `hours.times(3_600_000).round(0).toNumber()`. -/
def left (hours : Amount) : Except RangeError ℤ :=
  hours.toDecimal >>= fun d => (d.times ⟨3600000, 0⟩).round 0 .halfUp >>= fun rounded => .ok rounded.c

/-- The hours are `h` milliseconds long. -/
def Lasts (hours : Amount) (h : ℤ) : Prop := 0 ≤ h ∧ hours.value * 3600000 = h

/-- A decimal, or a number of the given ones. -/
def Among (numbers : Decimal → Prop) : Amount → Prop
  | decimal _ => True
  | number digits => numbers digits

/-- At most six decimals. -/
def SixPlaces (digits : Decimal) : Prop := ∃ n : ℤ, digits.value * 1000000 = n

theorem left_of_toDecimal {hours : Amount} {d : Decimal} (hd : hours.toDecimal = .ok d) :
    ∃ n, hours.left = .ok n ∧ Rounds .halfUp (d.value * 3600000) n := by
  obtain ⟨r, hround, -, hrounds⟩ := (d.times ⟨3600000, 0⟩).round_eq_ok .halfUp (le_refl 0)
  refine ⟨r.c, ?_, ?_⟩
  · rw [left, hd, Fallible.ok_bind, hround]
    rfl
  · have hms : (⟨3600000, 0⟩ : Decimal).value = 3600000 := by norm_num [Decimal.value]
    rwa [Decimal.value_times, hms, zpow_zero, mul_one] at hrounds

/-- An exact decimal is counted to the millisecond. -/
theorem left_decimal {d : Decimal} {h : ℤ} (hlasts : (decimal d).Lasts h) : (decimal d).left = .ok h := by
  obtain ⟨n, hleft, hrounds⟩ := @left_of_toDecimal (decimal d) d rfl
  have hvalue : d.value * 3600000 = h := hlasts.2
  rw [hvalue] at hrounds
  rw [hleft, hrounds.unique (Rounds.intCast _ h)]

/-- A number is read to six decimals first. -/
theorem left_number {digits : Decimal} {m : ℤ} (hsix : Rounds .halfUp (digits.value * 1000000) m) :
    ∃ n, (number digits).left = .ok n ∧ Rounds .halfUp (m * (18 / 5 : ℚ)) n := by
  obtain ⟨r, hround, hscale, hrounds⟩ := digits.round_eq_ok .halfUp (show (0 : ℤ) ≤ 6 by decide)
  obtain ⟨n, hleft, hn⟩ := @left_of_toDecimal (number digits) r hround
  have hsix' : Rounds .halfUp (digits.value * 1000000) r.c := by
    have hpow : ((10 : ℚ) ^ (6 : ℤ)) = 1000000 := by norm_num
    rwa [hpow] at hrounds
  refine ⟨n, hleft, ?_⟩
  have hvalue : r.value * 3600000 = m * (18 / 5 : ℚ) := by
    rw [hsix.unique hsix', Decimal.value, hscale]
    norm_num
    ring
  rwa [hvalue] at hn

theorem left_sixPlaces {digits : Decimal} {h : ℤ} (hlasts : (number digits).Lasts h) (hsix : SixPlaces digits) :
    (number digits).left = .ok h := by
  obtain ⟨m, hm⟩ := hsix
  obtain ⟨n, hleft, hn⟩ := left_number (hm ▸ Rounds.intCast .halfUp m)
  have hvalue : (m * (18 / 5 : ℚ)) = h := by
    rw [← hm, ← hlasts.2, value]
    ring
  rw [hvalue] at hn
  rw [hleft, hn.unique (Rounds.intCast _ h)]

theorem nine_dvd_of_pow (n : ℕ) {h : ℤ} (hdvd : (9 : ℤ) ∣ h * 10 ^ n) : (9 : ℤ) ∣ h := by
  induction n with
  | zero => rwa [pow_zero, mul_one] at hdvd
  | succ n ih =>
    apply ih
    rw [pow_succ, ← mul_assoc] at hdvd
    omega

/-- Hours of finitely many decimals are nines of milliseconds long. -/
theorem nine_dvd {digits : Decimal} {h : ℤ} (hlasts : (number digits).Lasts h) : (9 : ℤ) ∣ h := by
  have hvalue : digits.value * 3600000 = h := hlasts.2
  apply nine_dvd_of_pow digits.s.toNat
  rcases le_or_gt 0 digits.s with hs | hs
  · obtain ⟨n, hn⟩ := Int.eq_ofNat_of_zero_le hs
    refine ⟨digits.c * 400000, ?_⟩
    rw [Decimal.value, hn, zpow_natCast] at hvalue
    have hcast : (h * 10 ^ n : ℚ) = 9 * (digits.c * 400000) := by
      rw [← hvalue]
      field_simp
      ring
    rw [hn]
    exact_mod_cast hcast
  · obtain ⟨n, hn⟩ := Int.eq_ofNat_of_zero_le (show 0 ≤ -digits.s by omega)
    refine ⟨digits.c * 10 ^ n * 400000, ?_⟩
    have hzero : digits.s.toNat = 0 := by omega
    rw [Decimal.value, show digits.s = -n by omega, zpow_neg, zpow_natCast, div_inv_eq_mul] at hvalue
    have hcast : (h : ℚ) = 9 * (digits.c * 10 ^ n * 400000) := by
      rw [← hvalue]
      ring
    rw [hzero, pow_zero, mul_one]
    exact_mod_cast hcast

/-- Further decimals round up to two milliseconds more. -/
theorem left_not_sixPlaces {digits : Decimal} {h : ℤ} (hlasts : (number digits).Lasts h) (hsix : ¬ SixPlaces digits) :
    (number digits).left = .ok (h + 2) := by
  have hvalue : digits.value * 3600000 = h := hlasts.2
  have hnonneg := hlasts.1
  obtain ⟨j, rfl⟩ := nine_dvd hlasts
  obtain ⟨k, hk⟩ := j.even_or_odd'
  rcases hk with rfl | rfl
  · refine absurd ⟨5 * k, ?_⟩ hsix
    push_cast at hvalue ⊢
    linarith
  · have hk : (0 : ℚ) ≤ k := by exact_mod_cast (show (0 : ℤ) ≤ k by omega)
    have htie : digits.value * 1000000 = 5 * k + 5 / 2 := by
      push_cast at hvalue
      linarith
    have hup : Rounds .halfUp (digits.value * 1000000) (5 * k + 3) := by
      have hcast : ((5 * k + 3 : ℤ) : ℚ) = 5 * k + 3 := by push_cast; ring
      rw [htie, Rounds, hcast]
      refine ⟨by rw [abs_le]; constructor <;> linarith, fun _ => ?_⟩
      rw [abs_of_nonneg (by linarith), abs_of_nonneg (by linarith)]
      linarith
    obtain ⟨n, hleft, hn⟩ := left_number hup
    have hnext : Rounds .halfUp (((5 * k + 3 : ℤ) : ℚ) * (18 / 5)) (9 * (2 * k + 1) + 2) := by
      have hdiff : ((5 * k + 3 : ℤ) : ℚ) * (18 / 5) - ((9 * (2 * k + 1) + 2 : ℤ) : ℚ) = -(1 / 5) := by
        push_cast
        ring
      rw [Rounds, hdiff]
      norm_num
    rw [hleft, hn.unique hnext]

end Amount

namespace WorkCalendar

variable (cal : WorkCalendar)

/-- The hours worked on a day that is no holiday. -/
def hoursOn (date : ℤ) : Option Hours := if date ∈ cal.holidays then none else cal.week (weekdayOf date)

/-- The loop of `addBusinessHours` over the days from `date`. -/
def walk : ℕ → ℤ → ℤ → ℤ → Option (ℤ × ℤ)
  | 0, _, _, _ => none
  | i + 1, date, msOfDay, left =>
    match cal.hoursOn date with
    | none => walk i (date + 1) 0 left
    | some h =>
      let start := max (h.start * 60000) msOfDay
      let finish := h.finish * 60000
      if start ≥ finish then walk i (date + 1) 0 left
      else if left ≤ finish - start then some (date, start + left)
      else walk i (date + 1) 0 (left - (finish - start))

def addBusinessHours (since : ℤ) (hours : Amount) : Except RangeError ℤ :=
  hours.left >>= fun left =>
    if left < 0 then .error ⟨"hours must be ≥ 0"⟩
    else
      let (date, msOfDay) := cal.zone.localOf since
      match cal.walk 3660 date msOfDay left with
      | some (date, msOfDay) => .ok (cal.zone.utcOf date msOfDay)
      | none => .error ⟨"the calendar has no working hours within ten years"⟩

/-- A wall time within the hours of its day. -/
def Working (x : ℤ) : Prop :=
  ∃ h, h ∈ cal.hoursOn (x / dayMs) ∧ h.start * 60000 ≤ x % dayMs ∧ x % dayMs < h.finish * 60000

instance : DecidablePred cal.Working := fun x =>
  inferInstanceAs (Decidable (∃ h, h ∈ cal.hoursOn (x / dayMs) ∧ h.start * 60000 ≤ x % dayMs ∧ x % dayMs < h.finish * 60000))

variable {cal}

/-- The working times of one day. -/
theorem working_iff {date x : ℤ} (hlow : date * dayMs ≤ x) (hhigh : x < (date + 1) * dayMs) :
    cal.Working x ↔ ∃ h, h ∈ cal.hoursOn date ∧ date * dayMs + h.start * 60000 ≤ x ∧ x < date * dayMs + h.finish * 60000 := by
  have hdate : x / dayMs = date := by
    rw [dayMs] at *
    omega
  have htime : x % dayMs = x - date * dayMs := by
    rw [dayMs] at *
    omega
  rw [Working, hdate, htime]
  constructor
  · rintro ⟨h, hon, hstart, hfinish⟩
    exact ⟨h, hon, by omega, by omega⟩
  · rintro ⟨h, hon, hstart, hfinish⟩
    exact ⟨h, hon, by omega, by omega⟩

/-- A day without hours has no working time. -/
theorem not_working_closed {date x : ℤ} (hclosed : cal.hoursOn date = none) (hlow : date * dayMs ≤ x)
    (hhigh : x < (date + 1) * dayMs) : ¬ cal.Working x := by
  rw [working_iff hlow hhigh, hclosed]
  rintro ⟨h, hon, -⟩
  cases hon

theorem working_open {date x : ℤ} {h : Hours} (hopen : cal.hoursOn date = some h) (hlow : date * dayMs ≤ x)
    (hhigh : x < (date + 1) * dayMs) :
    cal.Working x ↔ date * dayMs + h.start * 60000 ≤ x ∧ x < date * dayMs + h.finish * 60000 := by
  rw [working_iff hlow hhigh, hopen]
  constructor
  · rintro ⟨h', hon, hin⟩
    obtain rfl := Option.some.inj hon
    exact hin
  · intro hin
    exact ⟨h, rfl, hin⟩

theorem next_day (date : ℤ) : (date + 1) * dayMs = date * dayMs + dayMs := by rw [add_mul, one_mul]

/-- A time of a day with no hours left in it. -/
theorem not_working_over {date msOfDay x : ℤ} (hms : 0 ≤ msOfDay)
    (hover : ∀ h, cal.hoursOn date = some h → h.finish * 60000 ≤ max (h.start * 60000) msOfDay)
    (hlow : date * dayMs + msOfDay ≤ x) (hhigh : x < (date + 1) * dayMs) : ¬ cal.Working x := by
  cases hopen : cal.hoursOn date with
  | none => exact not_working_closed hopen (by omega) hhigh
  | some h =>
    have := hover h hopen
    have := h.lt
    rw [working_open hopen (by omega) hhigh]
    omega

/-- A day that has no hours left counts nothing before the next. -/
theorem due_next {date msOfDay left q : ℤ} (hms : 0 ≤ msOfDay) (hday : msOfDay ≤ dayMs)
    (hover : ∀ h, cal.hoursOn date = some h → h.finish * 60000 ≤ max (h.start * 60000) msOfDay)
    (hdue : Due cal.Working ((date + 1) * dayMs + 0) left q) : Due cal.Working (date * dayMs + msOfDay) left q := by
  have hnext := next_day date
  rw [add_zero] at hdue
  exact hdue.of_none (by omega) fun x => not_working_over hms hover

/-- What the hours of a day count, from a time of it. -/
theorem due_within {date msOfDay n : ℤ} {h : Hours} (hopen : cal.hoursOn date = some h) (hms : 0 ≤ msOfDay) (hn : 0 ≤ n)
    (hleft : n ≤ h.finish * 60000 - max (h.start * 60000) msOfDay) (hstart : max (h.start * 60000) msOfDay < h.finish * 60000) :
    Due cal.Working (date * dayMs + msOfDay) n (date * dayMs + (max (h.start * 60000) msOfDay + n)) := by
  have hnext := next_day date
  have hday : dayMs = 86400000 := rfl
  have := h.start_nonneg
  have := h.finish_lt
  rw [← add_assoc]
  apply Due.of_none (p := date * dayMs + max (h.start * 60000) msOfDay)
  · apply Due.of_all (e := date * dayMs + h.finish * 60000) hn (by omega) (by omega)
    intro x hlow hhigh
    rw [working_open hopen (by omega) (by omega)]
    omega
  · omega
  · intro x hlow hhigh
    rw [working_open hopen (by omega) (by omega)]
    omega

/-- What the walk answers is due. -/
theorem walk_due {i : ℕ} {date msOfDay left d m : ℤ} (h : cal.walk i date msOfDay left = some (d, m)) (hms : 0 ≤ msOfDay)
    (hday : msOfDay ≤ dayMs) (hleft : 0 ≤ left) :
    Due cal.Working (date * dayMs + msOfDay) left (d * dayMs + m) ∧ d * dayMs + m ≤ (date + i) * dayMs := by
  induction i generalizing date msOfDay left with
  | zero => cases h
  | succ i ih =>
    have hsucc : date + ((i + 1 : ℕ) : ℤ) = date + 1 + i := by
      push_cast
      ring
    have hzero : (0 : ℤ) ≤ dayMs := by decide
    rw [hsucc]
    cases hopen : cal.hoursOn date with
    | none =>
      rw [walk, hopen] at h
      obtain ⟨hdue, hbound⟩ := ih h le_rfl hzero hleft
      exact ⟨due_next hms hday (by rw [hopen]; intro _ hnone; cases hnone) hdue, hbound⟩
    | some hours =>
      simp only [walk, hopen] at h
      split_ifs at h with hover hfits
      · obtain ⟨hdue, hbound⟩ := ih h le_rfl hzero hleft
        refine ⟨due_next hms hday ?_ hdue, hbound⟩
        rintro h' heq
        obtain rfl := Option.some.inj (hopen.symm.trans heq)
        exact hover
      · obtain ⟨rfl, rfl⟩ := Prod.mk.inj (Option.some.inj h)
        refine ⟨due_within hopen hms hleft hfits (by omega), ?_⟩
        have := hours.finish_lt
        have hmul : (date + 1 + i) * dayMs = date * dayMs + dayMs + i * dayMs := by ring
        have hpos : 0 ≤ (i : ℤ) * dayMs := mul_nonneg (Int.natCast_nonneg i) hzero
        rw [hmul]
        rw [dayMs] at *
        omega
      · obtain ⟨hdue, hbound⟩ := ih h le_rfl hzero (by omega)
        refine ⟨?_, hbound⟩
        -- the rest of this day's hours, and what is left after them
        have hfinish := due_within hopen hms (n := hours.finish * 60000 - max (hours.start * 60000) msOfDay) (by omega) le_rfl
          (by omega)
        have hrest := @due_next cal date (hours.finish * 60000) _ _ (by have := hours.start_nonneg; have := hours.lt; omega)
          (by have := hours.finish_lt; rw [dayMs]; omega)
          (fun h' heq => by obtain rfl := Option.some.inj (hopen.symm.trans heq); omega) hdue
        rw [show max (hours.start * 60000) msOfDay + (hours.finish * 60000 - max (hours.start * 60000) msOfDay) =
          hours.finish * 60000 by omega] at hfinish
        have hboth := hfinish.trans hrest (by omega)
        rwa [show hours.finish * 60000 - max (hours.start * 60000) msOfDay +
          (left - (hours.finish * 60000 - max (hours.start * 60000) msOfDay)) = left by omega] at hboth

/-- The walk answers where its days count enough. -/
theorem walk_isSome {i : ℕ} {date msOfDay left : ℤ} (hms : 0 ≤ msOfDay) (hday : msOfDay ≤ dayMs) (hleft : 0 ≤ left)
    (hcount : left ≤ tally cal.Working (date * dayMs + msOfDay) ((date + i) * dayMs))
    (hsome : 0 < tally cal.Working (date * dayMs + msOfDay) ((date + i) * dayMs)) :
    ∃ d m, cal.walk i date msOfDay left = some (d, m) := by
  induction i generalizing date msOfDay left with
  | zero =>
    rw [Int.natCast_zero, add_zero, tally_of_le (by omega)] at hsome
    omega
  | succ i ih =>
    have hsucc : date + ((i + 1 : ℕ) : ℤ) = date + 1 + i := by
      push_cast
      ring
    have hzero : (0 : ℤ) ≤ dayMs := by decide
    have hnext := next_day date
    have hlater : (date + 1) * dayMs ≤ (date + 1 + i) * dayMs := by
      rw [add_mul (date + 1)]
      have := mul_nonneg (Int.natCast_nonneg i) hzero
      omega
    rw [hsucc, ← tally_add (q := (date + 1) * dayMs) (by omega) hlater] at hcount hsome
    have hover : (∀ h, cal.hoursOn date = some h → h.finish * 60000 ≤ max (h.start * 60000) msOfDay) →
        ∃ d m, cal.walk i (date + 1) 0 left = some (d, m) := by
      intro hover
      rw [tally_eq_zero fun x => not_working_over hms hover] at hcount hsome
      rw [zero_add, ← add_zero ((date + 1) * dayMs)] at hcount hsome
      exact ih le_rfl hzero hleft hcount hsome
    cases hopen : cal.hoursOn date with
    | none =>
      rw [walk, hopen]
      exact hover fun _ hnone => by rw [hopen] at hnone; cases hnone
    | some h =>
      simp only [walk, hopen]
      split_ifs with hpast hfits
      · apply hover
        intro h' heq
        obtain rfl := Option.some.inj (hopen.symm.trans heq)
        exact hpast
      · exact ⟨_, _, rfl⟩
      · -- this day's hours, and the rest from the next
        have hfinish := due_within hopen hms (n := h.finish * 60000 - max (h.start * 60000) msOfDay) (by omega) le_rfl
          (by omega)
        have hend := h.finish_lt
        have hlt := h.lt
        have hday' : dayMs = 86400000 := rfl
        have hrest : tally cal.Working (date * dayMs + h.finish * 60000) ((date + 1) * dayMs) = 0 := by
          apply tally_eq_zero
          intro x hlow hhigh
          rw [working_open hopen (by have := h.start_nonneg; omega) hhigh]
          omega
        rw [show max (h.start * 60000) msOfDay + (h.finish * 60000 - max (h.start * 60000) msOfDay) =
          h.finish * 60000 by omega] at hfinish
        have htoday := tally_add (P := cal.Working) hfinish.le (r := (date + 1) * dayMs) (by omega)
        rw [hfinish.tally_eq, hrest] at htoday
        rw [← htoday, ← add_zero ((date + 1) * dayMs)] at hcount hsome
        exact ih le_rfl hzero (by omega) (by omega) (by omega)

/-- No working time is shown twice, and none is skipped, where the clock changes. -/
def Apart (cal : WorkCalendar) : Prop :=
  ∀ change x, (cal.zone.clock change ≤ x ∧ x ≤ cal.zone.clock (change - 1)) ∨
    (cal.zone.clock (change - 1) < x ∧ x < cal.zone.clock change) → ¬ cal.Working x

/-- Deadlines do not run backwards and count working time exactly, for hours of whole milliseconds
as decimals or the given numbers. -/
structure Counts (cal : WorkCalendar) (numbers : Decimal → Prop) : Prop where
  notBefore : ∀ {t x h a}, x.Among numbers → x.Lasts h → cal.addBusinessHours t x = .ok a → t ≤ a
  exact : ∀ {t x h a}, x.Among numbers → x.Lasts h → cal.addBusinessHours t x = .ok a →
    tally cal.Working (cal.zone.clock t) (cal.zone.clock a) = h
  mono_since : ∀ {t t' x h a a'}, x.Among numbers → x.Lasts h → t ≤ t' → cal.addBusinessHours t x = .ok a →
    cal.addBusinessHours t' x = .ok a' → a ≤ a'
  mono_hours : ∀ {t x y h k a b}, x.Among numbers → y.Among numbers → x.Lasts h → y.Lasts k → h ≤ k →
    cal.addBusinessHours t x = .ok a → cal.addBusinessHours t y = .ok b → a ≤ b
  compose : ∀ {t x y s h k a b c}, x.Among numbers → y.Among numbers → s.Among numbers → x.Lasts h → y.Lasts k → 0 < k →
    s.Lasts (h + k) → cal.addBusinessHours t x = .ok a → cal.addBusinessHours a y = .ok b →
    cal.addBusinessHours t s = .ok c → b = c

theorem localOf_parts (z : Zone) (t : ℤ) : (z.localOf t).1 * dayMs + (z.localOf t).2 = z.clock t := by
  rw [Zone.localOf_snd, Zone.localOf, dayMs]
  omega

theorem localOf_snd_mem (z : Zone) (t : ℤ) : 0 ≤ (z.localOf t).2 ∧ (z.localOf t).2 ≤ dayMs := by
  rw [Zone.localOf_snd, dayMs]
  omega

/-- What `addBusinessHours` answers is due on the wall clock, within its ten years. -/
theorem due_of_ok {t a n : ℤ} {x : Amount} (hleft : x.left = .ok n) (h : cal.addBusinessHours t x = .ok a) :
    ∃ q, Due cal.Working (cal.zone.clock t) n q ∧ a = cal.zone.utcOf 0 q ∧
      q ≤ (cal.zone.clock t / dayMs + 3660) * dayMs := by
  have hpart := localOf_parts cal.zone t
  obtain ⟨hnonneg, hday⟩ := localOf_snd_mem cal.zone t
  rw [addBusinessHours, hleft, Fallible.ok_bind] at h
  split_ifs at h with hneg
  cases hwalk : cal.walk 3660 (cal.zone.localOf t).1 (cal.zone.localOf t).2 n with
  | none =>
    simp only [hwalk] at h
    cases h
  | some answer =>
    obtain ⟨d, m⟩ := answer
    simp only [hwalk] at h
    obtain rfl := Except.ok.inj h
    obtain ⟨hdue, hbound⟩ := walk_due hwalk hnonneg hday (by omega)
    rw [hpart] at hdue
    exact ⟨_, hdue, (Zone.utcOf_zero d m).symm, hbound⟩

/-- A deadline is answered where ten years count enough. -/
theorem ok_of_tally {t n : ℤ} {x : Amount} (hleft : x.left = .ok n) (hn : 0 ≤ n)
    (hcount : n ≤ tally cal.Working (cal.zone.clock t) ((cal.zone.clock t / dayMs + 3660) * dayMs))
    (hsome : 0 < tally cal.Working (cal.zone.clock t) ((cal.zone.clock t / dayMs + 3660) * dayMs)) :
    ∃ q, Due cal.Working (cal.zone.clock t) n q ∧ cal.addBusinessHours t x = .ok (cal.zone.utcOf 0 q) := by
  have hpart := localOf_parts cal.zone t
  obtain ⟨hnonneg, hday⟩ := localOf_snd_mem cal.zone t
  obtain ⟨d, m, hwalk⟩ := @walk_isSome cal 3660 _ _ n hnonneg hday hn (by rw [hpart]; exact hcount) (by rw [hpart]; exact hsome)
  obtain ⟨hdue, -⟩ := walk_due hwalk hnonneg hday hn
  rw [hpart] at hdue
  refine ⟨_, hdue, ?_⟩
  rw [addBusinessHours, hleft, Fallible.ok_bind, if_neg (by omega), Zone.utcOf_zero]
  simp only [hwalk]

theorem ok_of_due {t n q : ℤ} {x : Amount} (hleft : x.left = .ok n) (hdue : Due cal.Working (cal.zone.clock t) n q)
    (hbound : q < (cal.zone.clock t / dayMs + 3660) * dayMs) : cal.addBusinessHours t x = .ok (cal.zone.utcOf 0 q) := by
  have hle := hdue.le
  have hsplit := tally_add (P := cal.Working) hle hbound.le
  have hrest := tally_nonneg (P := cal.Working) (p := q) (q := (cal.zone.clock t / dayMs + 3660) * dayMs)
  have hcount := hdue.tally_eq
  have hsome : 0 < tally cal.Working (cal.zone.clock t) ((cal.zone.clock t / dayMs + 3660) * dayMs) := by
    rcases hdue.counts_or with hq | ⟨hq, hlt⟩
    · exact tally_pos hle hbound hq
    · exact tally_pos (by omega) (by omega) hq
  obtain ⟨q', hdue', hok⟩ := ok_of_tally hleft hdue.nonneg (by omega) hsome
  rwa [hdue'.unique hdue] at hok

/-- Numbers of more than six decimals are longer than any ten years' working time. -/
def Unreached (cal : WorkCalendar) (numbers : Decimal → Prop) : Prop :=
  ∀ digits h, numbers digits → (Amount.number digits).Lasts h → ¬ Amount.SixPlaces digits →
    ∀ date, tally cal.Working (date * dayMs) ((date + 3660) * dayMs) < h + 2

section Apart

variable (hapart : cal.Apart)
include hapart

/-- A deadline is answered as the first instant that the clock has reached it. -/
theorem Apart.isLeast {p n q : ℤ} (hdue : Due cal.Working p n q) :
    IsLeast {t | q ≤ cal.zone.clock t} (cal.zone.utcOf 0 q) := by
  apply Zone.isLeast_utcOf_wall
  intro change hlast
  by_contra hnext
  rcases hdue.counts_or with hq | ⟨hq, -⟩
  · exact hapart change q (.inr ⟨by omega, by omega⟩) hq
  · exact hapart change (q - 1) (.inr ⟨by omega, by omega⟩) hq

/-- Nothing is worked between the deadline and what the clock shows at its instant. -/
theorem Apart.none_after {q a : ℤ} (hleast : IsLeast {t | q ≤ cal.zone.clock t} a) {x : ℤ} (hlow : q ≤ x)
    (hhigh : x < cal.zone.clock a) : ¬ cal.Working x := by
  apply hapart a x
  right
  refine ⟨?_, hhigh⟩
  by_contra hreached
  have hsooner : a ≤ a - 1 := hleast.2 (show q ≤ cal.zone.clock (a - 1) by omega)
  omega

/-- Nothing is worked in a time the clock comes back over. -/
theorem Apart.none_back {t t' x : ℤ} (ht : t ≤ t') (hlow : cal.zone.clock t' ≤ x) (hhigh : x < cal.zone.clock t) :
    ¬ cal.Working x := by
  have hlt : t < t' := by
    rcases ht.lt_or_eq with hlt | rfl
    · exact hlt
    · omega
  obtain ⟨change, -, -, hback⟩ := Zone.exists_back hlt hhigh.le hlow
  exact hapart change x (.inl hback)

theorem Apart.le_answer {t n q : ℤ} (hdue : Due cal.Working (cal.zone.clock t) n q) : t ≤ cal.zone.utcOf 0 q := by
  have hshown : q ≤ cal.zone.clock (cal.zone.utcOf 0 q) := (hapart.isLeast hdue).1
  by_contra hafter
  have hle := hdue.le
  -- a working time at or before the deadline that the clock came back over
  obtain ⟨x, hx, hlow, hhigh⟩ : ∃ x, cal.Working x ∧ cal.zone.clock t ≤ x ∧ x ≤ q := by
    rcases hdue.counts_or with hq | ⟨hq, hlt⟩
    · exact ⟨q, hq, hle, le_rfl⟩
    · exact ⟨q - 1, hq, by omega, by omega⟩
  obtain ⟨change, -, -, hback⟩ := Zone.exists_back (z := cal.zone) (s := cal.zone.utcOf 0 q) (t := t) (x := x)
    (by omega) (by omega) hlow
  exact hapart change x (.inl hback) hx

theorem Apart.exact {t n q : ℤ} (hdue : Due cal.Working (cal.zone.clock t) n q) :
    tally cal.Working (cal.zone.clock t) (cal.zone.clock (cal.zone.utcOf 0 q)) = n := by
  have hleast := hapart.isLeast hdue
  rw [← tally_add hdue.le hleast.1, hdue.tally_eq, tally_eq_zero fun x => hapart.none_after hleast, add_zero]

/-- Later starts are due no sooner. -/
theorem Apart.mono_since {t t' n q q' : ℤ} (ht : t ≤ t') (hdue : Due cal.Working (cal.zone.clock t) n q)
    (hdue' : Due cal.Working (cal.zone.clock t') n q') : q ≤ q' := by
  rcases le_or_gt (cal.zone.clock t) (cal.zone.clock t') with hle | hlt
  · exact hdue.mono hdue' hle le_rfl
  · exact (hdue'.unique (hdue.of_none hlt.le fun x => hapart.none_back ht)).ge

theorem Apart.utcOf_mono {p p' n n' q q' : ℤ} (hdue : Due cal.Working p n q) (hdue' : Due cal.Working p' n' q') (hq : q ≤ q') :
    cal.zone.utcOf 0 q ≤ cal.zone.utcOf 0 q' :=
  (hapart.isLeast hdue').mono (hapart.isLeast hdue) fun _ ht => le_trans hq ht

end Apart

/-- Hours that are answered are counted as they are. -/
theorem left_of_ok {numbers : Decimal → Prop} (hunreached : cal.Unreached numbers) {t h a : ℤ} {x : Amount}
    (hamong : x.Among numbers) (hlasts : x.Lasts h) (hok : cal.addBusinessHours t x = .ok a) : x.left = .ok h := by
  cases x with
  | decimal d => exact Amount.left_decimal hlasts
  | number digits =>
    by_cases hsix : Amount.SixPlaces digits
    · exact Amount.left_sixPlaces hlasts hsix
    · obtain ⟨q, hdue, -, hbound⟩ := due_of_ok (Amount.left_not_sixPlaces hlasts hsix) hok
      have hshort := hunreached digits h hamong hlasts hsix (cal.zone.clock t / dayMs)
      have hday : cal.zone.clock t / dayMs * dayMs ≤ cal.zone.clock t := by
        rw [dayMs]
        omega
      have hcount := hdue.tally_eq
      have hle := hdue.le
      rw [← tally_add (hday.trans hle) hbound, ← tally_add hday hle, hcount] at hshort
      have := tally_nonneg (P := cal.Working) (p := cal.zone.clock t / dayMs * dayMs) (q := cal.zone.clock t)
      have := tally_nonneg (P := cal.Working) (p := q) (q := (cal.zone.clock t / dayMs + 3660) * dayMs)
      omega

theorem counts_of_apart {numbers : Decimal → Prop} (hapart : cal.Apart) (hunreached : cal.Unreached numbers) :
    cal.Counts numbers where
  notBefore := by
    intro t x h a hamong hlasts hok
    obtain ⟨q, hdue, rfl, -⟩ := due_of_ok (left_of_ok hunreached hamong hlasts hok) hok
    exact hapart.le_answer hdue
  exact := by
    intro t x h a hamong hlasts hok
    obtain ⟨q, hdue, rfl, -⟩ := due_of_ok (left_of_ok hunreached hamong hlasts hok) hok
    exact hapart.exact hdue
  mono_since := by
    intro t t' x h a a' hamong hlasts ht hok hok'
    obtain ⟨q, hdue, rfl, -⟩ := due_of_ok (left_of_ok hunreached hamong hlasts hok) hok
    obtain ⟨q', hdue', rfl, -⟩ := due_of_ok (left_of_ok hunreached hamong hlasts hok') hok'
    exact hapart.utcOf_mono hdue hdue' (hapart.mono_since ht hdue hdue')
  mono_hours := by
    intro t x y h k a b hamong hamong' hlasts hlasts' hle hok hok'
    obtain ⟨q, hdue, rfl, -⟩ := due_of_ok (left_of_ok hunreached hamong hlasts hok) hok
    obtain ⟨q', hdue', rfl, -⟩ := due_of_ok (left_of_ok hunreached hamong' hlasts' hok') hok'
    exact hapart.utcOf_mono hdue hdue' (hdue.mono hdue' le_rfl hle)
  compose := by
    intro t x y s h k a b c hamong hamong' hamong'' hlasts hlasts' hpos hlasts'' hok hok' hok''
    obtain ⟨q, hdue, rfl, -⟩ := due_of_ok (left_of_ok hunreached hamong hlasts hok) hok
    obtain ⟨q', hdue', rfl, -⟩ := due_of_ok (left_of_ok hunreached hamong' hlasts' hok') hok'
    obtain ⟨r, hdue'', rfl, -⟩ := due_of_ok (left_of_ok hunreached hamong'' hlasts'' hok'') hok''
    have hleast := hapart.isLeast hdue
    have hboth := hdue.trans (hdue'.of_none hleast.1 fun x => hapart.none_after hleast) (by omega)
    rw [hboth.unique hdue'']

/-- No time at all, and nine milliseconds. -/
theorem lasts_zero : (Amount.decimal ⟨0, 0⟩).Lasts 0 := ⟨le_rfl, by norm_num [Amount.value, Decimal.value]⟩

theorem lasts_nine : (Amount.decimal ⟨25, 7⟩).Lasts 9 := ⟨by decide, by norm_num [Amount.value, Decimal.value]⟩

/-- The minute before a day's hours is not worked. -/
theorem not_working_before {date x : ℤ} {h : Hours} (hopen : cal.hoursOn date = some h)
    (hlow : date * dayMs + h.start * 60000 - 60000 ≤ x) (hhigh : x < date * dayMs + h.start * 60000) : ¬ cal.Working x := by
  have hnext := next_day date
  have hlast := next_day (date - 1)
  rw [show date - 1 + 1 = date by omega] at hlast
  have hday : dayMs = 86400000 := rfl
  have := h.start_nonneg
  have := h.lt
  have := h.finish_lt
  by_cases hsame : date * dayMs ≤ x
  · rw [working_open hopen hsame (by omega)]
    omega
  · -- the last minute of the day before
    rw [@working_iff cal (date - 1) x (by omega) (by rw [show date - 1 + 1 = date by omega]; omega)]
    rintro ⟨h', -, -, hfinish⟩
    have := h'.finish_lt
    omega

section Counts

variable {numbers : Decimal → Prop} (hcounts : cal.Counts numbers)
include hcounts

/-- Working time shown twice would be answered from its second showing by its first. -/
theorem Counts.not_back {change x : ℤ} (hnext : cal.zone.clock change ≤ x) (hlast : x ≤ cal.zone.clock (change - 1)) :
    ¬ cal.Working x := by
  intro hworking
  obtain ⟨t, rfl, hlater⟩ := Zone.utcOf_back hnext hlast
  have hdue : Due cal.Working (cal.zone.clock t) 0 (cal.zone.clock t) :=
    ⟨le_rfl, tally_of_le le_rfl, fun _ => hworking, fun hne => absurd rfl hne⟩
  have hok := ok_of_due (Amount.left_decimal lasts_zero) hdue (by rw [dayMs]; omega)
  have := hcounts.notBefore (x := .decimal _) trivial lasts_zero hok
  omega

/-- A deadline in skipped time is answered past it, with nothing worked between. -/
theorem Counts.none_forward {change q n x : ℤ} {t : ℤ} {a : Amount} (hlasts : a.Lasts n) (hleft : a.left = .ok n)
    (hamong : a.Among numbers) (hdue : Due cal.Working (cal.zone.clock t) n q) (hbound : q < (cal.zone.clock t / dayMs + 3660) * dayMs)
    (hlast : cal.zone.clock (change - 1) < q) (hnext : q < cal.zone.clock change) (hlow : q ≤ x)
    (hhigh : x < q + (cal.zone.clock change - (cal.zone.clock (change - 1) + 1))) : ¬ cal.Working x := by
  intro hworking
  have hok := ok_of_due hleft hdue hbound
  have hexact := hcounts.exact hamong hlasts hok
  have hshown := Zone.utcOf_forward hlast hnext
  have hpos := tally_pos (P := cal.Working) hlow (by omega : x < cal.zone.clock (cal.zone.utcOf 0 q)) hworking
  rw [← tally_add hdue.le (by omega), hdue.tally_eq] at hexact
  omega

theorem Counts.not_forward {change x : ℤ} (hlast : cal.zone.clock (change - 1) < x) (hnext : x < cal.zone.clock change) :
    ¬ cal.Working x := by
  intro hworking
  have hmem := Zone.clock_mem (z := cal.zone) change
  have hmem' := Zone.clock_mem (z := cal.zone) (change - 1)
  obtain ⟨hclock, hseconds⟩ := @Zone.clock_before_forward cal.zone change 9 (by omega) (by decide) (by decide)
  by_cases hopen : cal.Working (cal.zone.clock (change - 1))
  · -- nine milliseconds of the hours that the change cuts off
    obtain ⟨h, hon, hstart, hfinish⟩ := hopen
    have hday : dayMs = 86400000 := rfl
    have hdate : cal.zone.clock (change - 1) = cal.zone.clock (change - 1) / dayMs * dayMs + cal.zone.clock (change - 1) % dayMs := by
      rw [dayMs]
      omega
    generalize cal.zone.clock (change - 1) / dayMs = date at hon hdate
    generalize cal.zone.clock (change - 1) % dayMs = ms at hdate hstart hfinish
    have hnextday := next_day date
    have hpos := h.start_nonneg
    have hlt := h.lt
    have hend := h.finish_lt
    have hon : cal.hoursOn date = some h := hon
    have hall : ∀ x, date * dayMs + h.start * 60000 ≤ x → x < date * dayMs + h.finish * 60000 → cal.Working x := by
      intro x hlow hhigh
      exact (working_open hon (by omega) (by omega)).2 ⟨hlow, hhigh⟩
    by_cases hlong : date * dayMs + h.start * 60000 ≤ cal.zone.clock (change - 9)
    · have hdue := Due.of_all (P := cal.Working) (p := cal.zone.clock (change - 9)) (n := 9) (e := date * dayMs + h.finish * 60000)
        (by decide) (by omega) (by omega) fun x hlow hhigh => hall x (by omega) hhigh
      exact hcounts.none_forward (x := x) lasts_nine (Amount.left_decimal lasts_nine) trivial hdue
        (by rw [dayMs]; omega) (show cal.zone.clock (change - 1) < _ by omega) (by omega) (by omega) (by omega) hworking
    · have hdue := Due.of_all (P := cal.Working) (p := date * dayMs + h.start * 60000) (n := 9) (e := date * dayMs + h.finish * 60000)
        (by decide) (by omega) (by omega) hall
      have hdue : Due cal.Working (cal.zone.clock (change - 9)) 9 _ :=
        hdue.of_none (by omega) fun x hlow hhigh => not_working_before hon (by omega) hhigh
      exact hcounts.none_forward (x := date * dayMs + h.start * 60000 + 9) lasts_nine
        (Amount.left_decimal lasts_nine) trivial hdue (by rw [dayMs] at *; omega)
        (show cal.zone.clock (change - 1) < _ by omega) (by omega) le_rfl (by omega)
        (hall _ (by omega) (by omega))
  · -- the first working time that is skipped
    obtain ⟨q, hdue, hq⟩ := Due.exists_zero hlast.le hworking
    have hcounted := hdue.counts rfl
    have hlt : cal.zone.clock (change - 1) < q := by
      rcases hdue.le.lt_or_eq with hlt | rfl
      · exact hlt
      · exact absurd hcounted hopen
    exact hcounts.none_forward (x := q) lasts_zero (Amount.left_decimal lasts_zero) trivial hdue
      (by rw [dayMs]; omega) hlt (by omega) le_rfl (by omega) hcounted

theorem Counts.apart : cal.Apart := by
  rintro change x (⟨hnext, hlast⟩ | ⟨hlast, hnext⟩)
  · exact hcounts.not_back hnext hlast
  · exact hcounts.not_forward hlast hnext

/-- Longer numbers that could be answered would be counted as two milliseconds more. -/
theorem Counts.unreached : cal.Unreached numbers := by
  intro digits h hamong hlasts hsix date
  by_contra hlong
  have hnonneg := hlasts.1
  have hapart := hcounts.apart
  obtain ⟨x, hlow, hhigh, hx⟩ := exists_of_tally_pos (P := cal.Working) (p := date * dayMs) (q := (date + 3660) * dayMs) (by omega)
  -- an instant that shows the first working time from the day on
  obtain ⟨q, hfirst, hqx⟩ := Due.exists_zero hlow hx
  have hleast := hapart.isLeast hfirst
  have hclock : cal.zone.clock (cal.zone.utcOf 0 q) = q := by
    by_contra hne
    have hreached : q ≤ cal.zone.clock (cal.zone.utcOf 0 q) := hleast.1
    exact hapart.none_after hleast le_rfl (by omega) (hfirst.counts rfl)
  have hsplit := tally_add (P := cal.Working) hfirst.le (show q ≤ (date + 3660) * dayMs by omega)
  have hlater : (date + 3660) * dayMs ≤ (q / dayMs + 3660) * dayMs := by
    have := hfirst.le
    rw [dayMs] at *
    omega
  have hrest := tally_add (P := cal.Working) (show q ≤ (date + 3660) * dayMs by omega) hlater
  have hmore := tally_nonneg (P := cal.Working) (p := (date + 3660) * dayMs) (q := (q / dayMs + 3660) * dayMs)
  have hnone := hfirst.tally_eq
  obtain ⟨r, hdue, hok⟩ := @ok_of_tally cal (cal.zone.utcOf 0 q) _ _ (Amount.left_not_sixPlaces hlasts hsix) (by omega)
    (by rw [hclock]; omega) (by rw [hclock]; omega)
  have hexact := hcounts.exact (x := .number digits) hamong hlasts hok
  rw [hapart.exact hdue] at hexact
  omega

end Counts

/-- Deadlines count exactly where no working time falls in a change of the clock, and where no
number has decimals past the sixth that a deadline could count. -/
theorem counts_iff (cal : WorkCalendar) (numbers : Decimal → Prop) :
    cal.Counts numbers ↔ cal.Apart ∧ cal.Unreached numbers :=
  ⟨fun h => ⟨h.apart, h.unreached⟩, fun ⟨hapart, hunreached⟩ => counts_of_apart hapart hunreached⟩

/-- New York worked from 01:00 to 03:00 on Sundays, and put its clock back over 01:00 on 1 November 2026. -/
def sundays : WorkCalendar where
  zone := .turning 1793512800000 (-14400) (-18000) (by decide) (by decide)
  week d := if d = 7 then some ⟨60, 180, by decide, by decide, by decide⟩ else none
  holidays := []

/-- No hours from the second 01:30 are answered as the first, an hour before. -/
theorem sundays_backwards : sundays.addBusinessHours 1793514600000 (.decimal ⟨0, 0⟩) = .ok 1793511000000 ∧
    ∀ numbers, ¬ sundays.Counts numbers := by
  have hok : sundays.addBusinessHours 1793514600000 (.decimal ⟨0, 0⟩) = .ok 1793511000000 := by decide
  refine ⟨hok, ?_⟩
  intro numbers h
  exact absurd (h.notBefore (x := .decimal _) trivial lasts_zero hok) (by decide)

end WorkCalendar

end Norbital.Std

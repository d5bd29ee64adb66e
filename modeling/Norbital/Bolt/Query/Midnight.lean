import Norbital.Std.Days
import Norbital.Std.Zone

/-!
# Midnight

The instant a day begins in a zone, as date filters compute it
(`bolt/src/engine/query/eval.ts`), beside `utcOf` of the same wall time.  `Date.UTC`
reads the years up to 99 as those of the 1900s, so that days count from year 100 on.
-/

namespace Norbital.Bolt

open Norbital.Std (Zone dayMs epoch)

variable (z : Zone)

/-- `Date.UTC` of the parts that `Intl` renders of a clock, its whole seconds. -/
def dateUTC (clock : ℤ) : ℤ :=
  let day := clock / dayMs + epoch
  let month := Gregorian.monthAt day
  let read := if 0 ≤ Gregorian.yearAt day ∧ Gregorian.yearAt day ≤ 99 then
    Gregorian.opens (month + 12 * 1900) + (day - Gregorian.opens month) else day
  (read - epoch) * dayMs + clock % dayMs / 1000 * 1000

/-- `offset` of `midnight`. -/
def midnightOffset (t : ℤ) : ℤ := dateUTC (z.clock t) - t

def midnight (date : ℤ) : ℤ :=
  let utc := date * dayMs
  let guess := utc - midnightOffset z utc
  utc - midnightOffset z guess

/-- The third day of year 100: no clock is two days from UTC. -/
def firstDay : ℤ := Gregorian.yearOpens 100 - epoch + 2

/-- The clock is put back over midnight of the day. -/
def Repeats (date change : ℤ) : Prop := z.clock change ≤ date * dayMs ∧ date * dayMs ≤ z.clock (change - 1)

/-- The clock is put forward over midnight of the day. -/
def Skips (date change : ℤ) : Prop := z.clock (change - 1) < date * dayMs ∧ date * dayMs < z.clock change

/-- The clock shows the instant's time twice over, on both sides of a midnight. -/
def AroundMidnight (t : ℤ) : Prop :=
  ∃ change date, z.clock change < date * dayMs ∧ date * dayMs ≤ z.clock (change - 1) ∧
    z.clock change ≤ z.clock t ∧ z.clock t ≤ z.clock (change - 1)

/-- The days of a zone from the first on partition time, and their bounds are where the clock shows midnight. -/
structure LocalDays : Prop where
  shown : ∀ date ms t, z.clock t = date * dayMs + ms → z.clock (z.utcOf date ms) = date * dayMs + ms ∧ z.utcOf date ms ≤ t
  skipped : ∀ date ms, (∀ t, z.clock t ≠ date * dayMs + ms) → ∃ change,
    z.clock (change - 1) < date * dayMs + ms ∧ date * dayMs + ms < z.clock change ∧
      z.utcOf date ms = date * dayMs + ms - 1000 * z.offset (change - 1)
  midnight_eq : ∀ date, firstDay ≤ date → midnight z date = z.utcOf date 0
  day : ∀ date t, firstDay ≤ date → midnight z date ≤ t → t < midnight z (date + 1) → ¬ AroundMidnight z t → (z.localOf t).1 = date

/-- A clock put back over midnight is so after that hour of UTC; one put forward is so not after
it, and only once it has reached midnight. -/
structure KeepsMidnight (date : ℤ) : Prop where
  back : ∀ change, Repeats z date change → date * dayMs < change
  forward : ∀ change, Skips z date change → change ≤ date * dayMs
  reached : firstDay < date → ∀ change, Skips z date change → z.clock (change - 1) + 1 = date * dayMs

variable {z}

theorem firstDay_eq : firstDay = -683001 := by decide

/-- From year 100 on the parts of a clock are read as they are. -/
theorem dateUTC_eq {clock : ℤ} (h : Gregorian.yearOpens 100 ≤ clock / dayMs + epoch) : dateUTC clock = clock / 1000 * 1000 := by
  obtain ⟨-, hyear⟩ := Gregorian.yearOpens_yearAt_le (clock / dayMs + epoch)
  have hlate : ¬ Gregorian.yearAt (clock / dayMs + epoch) ≤ 99 := by
    intro hearly
    have hmono := Gregorian.opens_strictMono.monotone
      (show 12 * (Gregorian.yearAt (clock / dayMs + epoch) + 1) ≤ 12 * 100 by omega)
    rw [Gregorian.opens_january, Gregorian.opens_january] at hmono
    omega
  rw [dateUTC, if_neg fun hboth => hlate hboth.2, dayMs]
  omega

/-- The clock is put back over midnight only at the change near it. -/
theorem repeats_iff {date change o₁ o₂ : ℤ} (h : z.Around (date * dayMs) change o₁ o₂) (t : ℤ) :
    Repeats z date t ↔ t = change ∧ date * dayMs - o₁ < change ∧ change ≤ date * dayMs - o₂ := by
  have hchange := h.eq_change (t := t)
  obtain ⟨hbefore, hafter, hlow₁, hhigh₁, hlow₂, hhigh₂⟩ := h
  have hat := z.clock_mem t
  have hlast := z.clock_mem (t - 1)
  rw [Repeats]
  generalize date * dayMs = w at *
  rw [dayMs] at *
  constructor
  · rintro ⟨hlow, hhigh⟩
    have hne : z.offset (t - 1) ≠ z.offset t := by
      rw [Zone.clock] at hlow hhigh
      omega
    obtain ⟨rfl, rfl, rfl⟩ := hchange (by omega) (by omega) hne
    rw [Zone.clock] at hlow hhigh
    omega
  · rintro ⟨rfl, hlow, hhigh⟩
    have h₁ := hbefore (t - 1) (by omega) (by omega) (by omega)
    have h₂ := hafter t (by omega) (by omega) le_rfl
    rw [Zone.clock, Zone.clock]
    omega

/-- The clock is put forward over midnight only at the change near it. -/
theorem skips_iff {date change o₁ o₂ : ℤ} (h : z.Around (date * dayMs) change o₁ o₂) (t : ℤ) :
    Skips z date t ↔ t = change ∧ date * dayMs - o₂ < change ∧ change ≤ date * dayMs - o₁ := by
  have hchange := h.eq_change (t := t)
  obtain ⟨hbefore, hafter, hlow₁, hhigh₁, hlow₂, hhigh₂⟩ := h
  have hat := z.clock_mem t
  have hlast := z.clock_mem (t - 1)
  rw [Skips]
  generalize date * dayMs = w at *
  rw [dayMs] at *
  constructor
  · rintro ⟨hlow, hhigh⟩
    have hne : z.offset (t - 1) ≠ z.offset t := by
      rw [Zone.clock] at hlow hhigh
      omega
    obtain ⟨rfl, rfl, rfl⟩ := hchange (by omega) (by omega) hne
    rw [Zone.clock] at hlow hhigh
    omega
  · rintro ⟨rfl, hlow, hhigh⟩
    have h₁ := hbefore (t - 1) (by omega) (by omega) (by omega)
    have h₂ := hafter t (by omega) (by omega) le_rfl
    rw [Zone.clock, Zone.clock]
    omega

/-- What `midnight` answers near a change. -/
theorem midnight_around {date change o₁ o₂ : ℤ} (hfirst : firstDay ≤ date) (h : z.Around (date * dayMs) change o₁ o₂) :
    midnight z date =
      if date * dayMs < change then
        if date * dayMs - o₁ < change then date * dayMs - o₁ else date * dayMs - o₂
      else if date * dayMs - o₂ < change then date * dayMs - o₁ else date * dayMs - o₂ := by
  have hoffset : ∀ t, t % 1000 = 0 → (date - 1) * dayMs ≤ t → midnightOffset z t = 1000 * z.offset t := by
    intro t ht hlow
    have hclock := z.clock_mem t
    have hyear : Gregorian.yearOpens 100 = 36525 := by decide
    rw [firstDay_eq] at hfirst
    rw [midnightOffset, dateUTC_eq (by rw [hyear, epoch, dayMs] at *; omega), Zone.clock]
    omega
  have hat : ∀ t, date * dayMs - 2 * dayMs ≤ t → t < date * dayMs + 2 * dayMs →
      1000 * z.offset t = if t < change then o₁ else o₂ := by
    intro t hlow hhigh
    split_ifs with hchange
    · exact h.before t hlow hhigh hchange
    · exact h.after t hlow hhigh (by omega)
  obtain ⟨-, -, hlow₁, hhigh₁, hlow₂, hhigh₂⟩ := h
  have hday : date * dayMs % 1000 = 0 := by
    rw [dayMs]
    omega
  have hguess : (date * dayMs - 1000 * z.offset (date * dayMs)) % 1000 = 0 := by omega
  have hat' := hat (date * dayMs) (by rw [dayMs]; omega) (by rw [dayMs]; omega)
  rw [midnight, hoffset _ hday (by rw [dayMs]; omega), hoffset _ hguess (by split_ifs at hat' <;> rw [dayMs] at * <;> omega)]
  generalize date * dayMs = w at *
  rw [dayMs] at *
  rw [hat w (by omega) (by omega)]
  split_ifs with hw h₁ h₂
  · rw [hat _ (by omega) (by omega), if_pos h₁]
  · rw [hat _ (by omega) (by omega), if_neg h₁]
  · rw [hat _ (by omega) (by omega), if_pos h₂]
  · rw [hat _ (by omega) (by omega), if_neg h₂]

/-- What `utcOf` answers for midnight near a change. -/
theorem utcOf_around {date change o₁ o₂ : ℤ} (h : z.Around (date * dayMs) change o₁ o₂) :
    z.utcOf date 0 =
      if date * dayMs - o₁ < change then date * dayMs - o₁
      else if change ≤ date * dayMs - o₂ then date * dayMs - o₂
      else date * dayMs - o₁ := by
  rw [← add_zero (date * dayMs)] at h
  have hutc := h.utcOf
  rwa [add_zero] at hutc

/-- The two inversions agree exactly where a change that repeats midnight is after that hour of
UTC and one that skips it is not. -/
theorem midnight_eq_utcOf_iff {date : ℤ} (hfirst : firstDay ≤ date) : midnight z date = z.utcOf date 0 ↔
    (∀ change, Repeats z date change → date * dayMs < change) ∧
      ∀ change, Skips z date change → change ≤ date * dayMs := by
  obtain ⟨change, o₁, o₂, h⟩ := z.exists_around (date * dayMs)
  rw [midnight_around hfirst h, utcOf_around h]
  constructor
  · intro heq
    constructor
    · intro t ht
      obtain ⟨rfl, hlow, hhigh⟩ := (repeats_iff h t).1 ht
      split_ifs at heq <;> omega
    · intro t ht
      obtain ⟨rfl, hlow, hhigh⟩ := (skips_iff h t).1 ht
      split_ifs at heq <;> omega
  · rintro ⟨hback, hforward⟩
    have hback := fun hin => hback change ((repeats_iff h change).2 ⟨rfl, hin⟩)
    have hforward := fun hin => hforward change ((skips_iff h change).2 ⟨rfl, hin⟩)
    split_ifs <;> omega

/-- From a midnight on the clock shows the day or a later one, but for a repeated midnight. -/
theorem le_clock {date t : ℤ} (ht : z.utcOf date 0 ≤ t) (haround : ¬ AroundMidnight z t) : date * dayMs ≤ z.clock t := by
  obtain ⟨change, o₁, o₂, h⟩ := z.exists_around (date * dayMs)
  rw [utcOf_around h] at ht
  have hclock := fun t => h.clock (t := t)
  have hnear := z.clock_mem t
  obtain ⟨-, -, hlow₁, hhigh₁, hlow₂, hhigh₂⟩ := h
  by_contra hlt
  apply haround
  -- the second of the two passes over midnight, after the change
  refine ⟨change, date, ?_⟩
  generalize date * dayMs = w at *
  rw [dayMs] at *
  split_ifs at ht with hfirst hsecond
  · have hto := hclock t (by omega) (by omega)
    have hlast := hclock (change - 1) (by omega) (by omega)
    have hnext := hclock change (by omega) (by omega)
    omega
  · have hto := hclock t (by omega) (by omega)
    omega
  · have hto := hclock t (by omega) (by omega)
    omega

/-- Up to the next midnight the clock shows an earlier day, where it is not put forward past one. -/
theorem clock_lt {date t : ℤ} (ht : t < z.utcOf date 0)
    (hreached : ∀ change, Skips z date change → z.clock (change - 1) + 1 = date * dayMs) : z.clock t < date * dayMs := by
  obtain ⟨change, o₁, o₂, h⟩ := z.exists_around (date * dayMs)
  rw [utcOf_around h] at ht
  have hskips := fun hin => hreached change ((skips_iff h change).2 ⟨rfl, hin⟩)
  have hclock := fun t => h.clock (t := t)
  have hnear := z.clock_mem t
  obtain ⟨-, -, hlow₁, hhigh₁, hlow₂, hhigh₂⟩ := h
  by_contra hge
  generalize date * dayMs = w at *
  rw [dayMs] at *
  split_ifs at ht with hfirst hsecond
  · have hto := hclock t (by omega) (by omega)
    omega
  · have hto := hclock t (by omega) (by omega)
    omega
  · have hto := hclock t (by omega) (by omega)
    have hlast := hclock (change - 1) (by omega) (by omega)
    have hopen := hskips ⟨by omega, by omega⟩
    omega

/-- A clock is put back within a day of the times it shows twice, so not where it was put forward. -/
theorem not_aroundMidnight {date change t : ℤ} (hskips : Skips z date change) (hle : change ≤ t) (hlt : t ≤ change + 14400000) :
    ¬ AroundMidnight z t := by
  obtain ⟨change', o₁, o₂, h⟩ := z.exists_around (date * dayMs)
  obtain ⟨rfl, hlow, hhigh⟩ := (skips_iff h change).1 hskips
  rintro ⟨other, day, hback, hbefore, hle', hge⟩
  have hother := h.eq_change (t := other)
  have hshown := z.clock_mem t
  have hfrom := z.clock_mem (change - 1)
  have hlast := z.clock_mem (other - 1)
  have hnext := z.clock_mem other
  obtain ⟨hskipped, hpassed⟩ := hskips
  have hpast := h.clock (t := t)
  obtain ⟨-, -, hlow₁, hhigh₁, hlow₂, hhigh₂⟩ := h
  generalize day * dayMs = w' at *
  generalize date * dayMs = w at *
  rw [dayMs] at *
  have hne : z.offset (other - 1) ≠ z.offset other := by
    rw [Zone.clock] at hback hbefore
    omega
  obtain ⟨rfl, -, -⟩ := hother (by omega) (by omega) hne
  omega

/-- A clock put forward past a midnight shows a later day before that midnight's instant. -/
theorem exists_day_ne (heq : ∀ date, firstDay ≤ date → midnight z date = z.utcOf date 0) {date change : ℤ}
    (hfirst : firstDay < date) (hskips : Skips z date change) (hpast : z.clock (change - 1) + 1 < date * dayMs) :
    ∃ t, midnight z (date - 1) ≤ t ∧ t < midnight z date ∧ ¬ AroundMidnight z t ∧ (z.localOf t).1 ≠ date - 1 := by
  have hlast := z.clock_mem (change - 1)
  have hnext := z.clock_mem change
  have hne : z.offset (change - 1) ≠ z.offset change := by
    have := hskips.1
    have := hskips.2
    rw [Zone.clock] at *
    omega
  have hclock₁ : z.clock (change - 1) = change - 1 + 1000 * z.offset (change - 1) := rfl
  have hclock₂ : z.clock change = change + 1000 * z.offset change := rfl
  have hpassed := hskips.2
  obtain ⟨change', o₁, o₂, h⟩ := z.exists_around (date * dayMs)
  obtain ⟨hchange, ho₁, ho₂⟩ := h.eq_change (t := change) (by rw [dayMs] at *; omega) (by rw [dayMs] at *; omega) hne
  rw [hchange, ho₁, ho₂] at h
  obtain ⟨change', o₁, o₂, h'⟩ := z.exists_around ((date - 1) * dayMs)
  obtain ⟨hchange, ho₁, ho₂⟩ := h'.eq_change (t := change) (by rw [dayMs] at *; omega) (by rw [dayMs] at *; omega) hne
  rw [hchange, ho₁, ho₂] at h'
  rw [heq _ (by omega), heq _ hfirst.le, utcOf_around h, utcOf_around h']
  by_cases hbefore : change ≤ (date - 1) * dayMs - 1000 * z.offset (change - 1)
  · -- the midnight before is skipped as well: the clock shows the day after at its instant
    refine ⟨(date - 1) * dayMs - 1000 * z.offset (change - 1), ?_, ?_, not_aroundMidnight hskips hbefore ?_, ?_⟩
    · split_ifs <;> omega
    · rw [dayMs] at *
      split_ifs <;> omega
    · rw [dayMs] at *
      omega
    · have hshown := h.clock (t := (date - 1) * dayMs - 1000 * z.offset (change - 1))
      rw [Zone.localOf]
      rw [dayMs] at *
      omega
  · -- from the change on the clock shows the later day
    refine ⟨change, ?_, ?_, not_aroundMidnight hskips le_rfl (by omega), ?_⟩
    · rw [dayMs] at *
      split_ifs <;> omega
    · rw [dayMs] at *
      split_ifs <;> omega
    · rw [Zone.localOf]
      rw [dayMs] at *
      omega

/-- Local days partition time exactly in the zones that keep midnight. -/
theorem localDays_iff : LocalDays z ↔ ∀ date, firstDay ≤ date → KeepsMidnight z date := by
  constructor
  · intro h date hfirst
    have hagrees := (midnight_eq_utcOf_iff hfirst).1 (h.midnight_eq date hfirst)
    refine ⟨hagrees.1, hagrees.2, ?_⟩
    intro hlater change hskips
    by_contra hpast
    have hlt : z.clock (change - 1) + 1 < date * dayMs := by
      have := hskips.1
      omega
    obtain ⟨t, hle, hlt, haround, hne⟩ := exists_day_ne h.midnight_eq hlater hskips hlt
    exact hne (h.day (date - 1) t (by omega) hle (by rwa [sub_add_cancel]) haround)
  · intro h
    have heq : ∀ date, firstDay ≤ date → midnight z date = z.utcOf date 0 := fun date hfirst =>
      (midnight_eq_utcOf_iff hfirst).2 ⟨(h date hfirst).back, (h date hfirst).forward⟩
    refine ⟨fun _ _ _ => Zone.clock_utcOf, fun _ _ => Zone.utcOf_gap, heq, ?_⟩
    intro date t hfirst hlow hhigh haround
    rw [heq _ (by omega)] at hlow hhigh
    have hge := le_clock hlow haround
    have hlt := clock_lt hhigh ((h (date + 1) (by omega)).reached (by omega))
    rw [Zone.localOf]
    rw [dayMs] at *
    omega

/-- São Paulo on 4 November 2018: the clock went from 23:59:59 to 01:00 at 03:00 UTC. -/
def saoPaulo : Zone := .turning 1541300400000 (-10800) (-7200) (by decide) (by decide)

/-- Its midnight is answered as 23:00 of the day before. -/
theorem midnight_saoPaulo : midnight saoPaulo 17839 = 1541300400000 - 3600000 ∧
    saoPaulo.utcOf 17839 0 = 1541300400000 ∧ saoPaulo.localOf (midnight saoPaulo 17839) = (17838, 82800000) ∧
    ¬ LocalDays saoPaulo := by
  refine ⟨by decide, by decide, by decide, ?_⟩
  intro h
  exact absurd (h.midnight_eq 17839 (by decide)) (by decide)

end Norbital.Bolt

import Mathlib.Algebra.Order.Group.Unbundled.Int
import Mathlib.Data.Int.Notation
import Mathlib.Order.Bounds.Basic
import Mathlib.Tactic.Common

/-!
# Wall clocks

The wall clock of a zone and its inverse (`std/src/zone.ts`).  Instants are
milliseconds from 1970 and calendar days are numbered from there.  What
`Intl.DateTimeFormat` renders is the parameter `Zone`: the seconds a zone's clock
is ahead of UTC at every instant.
-/

namespace Norbital.Std

/-- Milliseconds in a day. -/
def dayMs : ℤ := 86400000

/-- A zone's clock is at most fourteen hours from UTC and changes at most once in any four days. -/
structure Zone where
  /-- Seconds ahead of UTC. -/
  offset : ℤ → ℤ
  low : ∀ t, -50400 ≤ offset t
  high : ∀ t, offset t ≤ 50400
  settled : ∀ t, ∃ change, ∀ u v, t ≤ u → u ≤ v → v < t + 4 * dayMs → v < change ∨ change ≤ u → offset u = offset v

namespace Zone

/-- A zone whose clock changes once. -/
def turning (change before after : ℤ) (hbefore : -50400 ≤ before ∧ before ≤ 50400) (hafter : -50400 ≤ after ∧ after ≤ 50400) :
    Zone where
  offset t := if t < change then before else after
  low t := by split_ifs <;> omega
  high t := by split_ifs <;> omega
  settled t := ⟨change, fun u v _ _ _ hside => by split_ifs <;> omega⟩

variable (z : Zone)

/-- What a clock of the zone shows, in milliseconds. -/
def clock (t : ℤ) : ℤ := t + 1000 * z.offset t

/-- `localOf`: the day, and the milliseconds into it, which are the instant's own below a second. -/
def localOf (t : ℤ) : ℤ × ℤ := (z.clock t / dayMs, z.clock t % dayMs / 1000 * 1000 + t % 1000)

/-- `offset` of `utcOf`. -/
def offsetAt (t : ℤ) : ℤ := (z.localOf t).1 * dayMs + (z.localOf t).2 - t

def utcOf (date msOfDay : ℤ) : ℤ :=
  let wall := date * dayMs + msOfDay
  let before := wall - z.offsetAt (wall - dayMs)
  let after := wall - z.offsetAt (wall + dayMs)
  if before + z.offsetAt before = wall then before
  else if after + z.offsetAt after = wall then after
  else before

/-- The offset in milliseconds within two days of a time: `o₁` before a change, `o₂` from it on. -/
structure Around (w change o₁ o₂ : ℤ) : Prop where
  before : ∀ t, w - 2 * dayMs ≤ t → t < w + 2 * dayMs → t < change → 1000 * z.offset t = o₁
  after : ∀ t, w - 2 * dayMs ≤ t → t < w + 2 * dayMs → change ≤ t → 1000 * z.offset t = o₂
  low₁ : -50400000 ≤ o₁
  high₁ : o₁ ≤ 50400000
  low₂ : -50400000 ≤ o₂
  high₂ : o₂ ≤ 50400000

variable {z}

theorem exists_around (w : ℤ) : ∃ change o₁ o₂, z.Around w change o₁ o₂ := by
  obtain ⟨change, hsettled⟩ := z.settled (w - 2 * dayMs)
  refine ⟨change, 1000 * z.offset (w - 2 * dayMs), 1000 * z.offset (w + 2 * dayMs - 1), ?_, ?_, ?_, ?_, ?_, ?_⟩
  · intro t hlow hhigh hchange
    rw [hsettled _ t le_rfl hlow (by omega) (.inl hchange)]
  · intro t hlow hhigh hchange
    rw [hsettled t (w + 2 * dayMs - 1) hlow (by omega) (by rw [dayMs]; omega) (.inr hchange)]
  · have := z.low (w - 2 * dayMs)
    omega
  · have := z.high (w - 2 * dayMs)
    omega
  · have := z.low (w + 2 * dayMs - 1)
    omega
  · have := z.high (w + 2 * dayMs - 1)
    omega

/-- The parts a clock shows are its time. -/
theorem offsetAt_eq (t : ℤ) : z.offsetAt t = 1000 * z.offset t := by
  rw [offsetAt, localOf, clock, dayMs]
  omega

theorem localOf_snd (t : ℤ) : (z.localOf t).2 = z.clock t % dayMs := by
  rw [localOf, clock, dayMs]
  omega

/-- What `utcOf` answers near a change. -/
theorem Around.utcOf {date ms change o₁ o₂ : ℤ} (h : z.Around (date * dayMs + ms) change o₁ o₂) :
    z.utcOf date ms =
      if date * dayMs + ms - o₁ < change then date * dayMs + ms - o₁
      else if change ≤ date * dayMs + ms - o₂ then date * dayMs + ms - o₂
      else date * dayMs + ms - o₁ := by
  have hat : ∀ t, date * dayMs + ms - 2 * dayMs ≤ t → t < date * dayMs + ms + 2 * dayMs →
      z.offsetAt t = if t < change then o₁ else o₂ := by
    intro t hlow hhigh
    rw [offsetAt_eq]
    split_ifs with hchange
    · exact h.before t hlow hhigh hchange
    · exact h.after t hlow hhigh (by omega)
  obtain ⟨-, -, hlow₁, hhigh₁, hlow₂, hhigh₂⟩ := h
  rw [Zone.utcOf]
  generalize date * dayMs + ms = w at *
  show (if w - z.offsetAt (w - dayMs) + z.offsetAt (w - z.offsetAt (w - dayMs)) = w then _
    else if w - z.offsetAt (w + dayMs) + z.offsetAt (w - z.offsetAt (w + dayMs)) = w then _ else _) = _
  rw [dayMs] at *
  rw [hat (w - 86400000) (by omega) (by omega), hat (w + 86400000) (by omega) (by omega)]
  by_cases hbefore : w - 86400000 < change
  · by_cases hafter : w + 86400000 < change
    · -- the change is past the day after
      rw [if_pos hbefore, if_pos hafter, hat (w - o₁) (by omega) (by omega)]
      split_ifs <;> omega
    · rw [if_pos hbefore, if_neg hafter, hat (w - o₁) (by omega) (by omega), hat (w - o₂) (by omega) (by omega)]
      split_ifs <;> omega
  · -- the change is before the day before
    have hafter : ¬ w + 86400000 < change := by omega
    rw [if_neg hbefore, if_neg hafter, hat (w - o₂) (by omega) (by omega)]
    split_ifs <;> omega

/-- Two neighbouring instants of different offsets are the change. -/
theorem Around.eq_change {w change o₁ o₂ t : ℤ} (h : z.Around w change o₁ o₂) (hlow : w - 2 * dayMs ≤ t - 1)
    (hhigh : t < w + 2 * dayMs) (hne : z.offset (t - 1) ≠ z.offset t) :
    change = t ∧ o₁ = 1000 * z.offset (t - 1) ∧ o₂ = 1000 * z.offset t := by
  have heq : change = t := by
    by_contra hother
    apply hne
    rcases lt_or_ge t change with hlt | hge
    · have := h.before t (by omega) hhigh hlt
      have := h.before (t - 1) hlow (by omega) (by omega)
      omega
    · have := h.after t (by omega) hhigh hge
      have := h.after (t - 1) hlow (by omega) (by omega)
      omega
  subst heq
  exact ⟨rfl, (h.before _ hlow (by omega) (by omega)).symm, (h.after _ (by omega) hhigh le_rfl).symm⟩

/-- What a clock shows near a change. -/
theorem Around.clock {w change o₁ o₂ t : ℤ} (h : z.Around w change o₁ o₂) (hlow : w - 2 * dayMs ≤ t)
    (hhigh : t < w + 2 * dayMs) : (t < change ∧ z.clock t = t + o₁) ∨ (change ≤ t ∧ z.clock t = t + o₂) := by
  rcases lt_or_ge t change with hlt | hge
  · exact .inl ⟨hlt, by rw [Zone.clock, h.before t hlow hhigh hlt]⟩
  · exact .inr ⟨hge, by rw [Zone.clock, h.after t hlow hhigh hge]⟩

/-- A clock is at most fourteen hours from UTC. -/
theorem clock_mem (t : ℤ) : t - 50400000 ≤ z.clock t ∧ z.clock t ≤ t + 50400000 := by
  have := z.low t
  have := z.high t
  rw [clock]
  omega

/-- `utcOf` answers the first instant that shows the time, if one does. -/
theorem clock_utcOf {date ms t : ℤ} (ht : z.clock t = date * dayMs + ms) :
    z.clock (z.utcOf date ms) = date * dayMs + ms ∧ z.utcOf date ms ≤ t := by
  obtain ⟨change, o₁, o₂, h⟩ := z.exists_around (date * dayMs + ms)
  have hat := z.clock_mem t
  have hclock := fun t => h.clock (t := t)
  rw [h.utcOf]
  obtain ⟨-, -, hlow₁, hhigh₁, hlow₂, hhigh₂⟩ := h
  generalize date * dayMs + ms = w at *
  rw [dayMs] at *
  have hto := hclock t (by omega) (by omega)
  split_ifs with hlt hle
  · have := hclock (w - o₁) (by omega) (by omega)
    omega
  · have := hclock (w - o₂) (by omega) (by omega)
    omega
  · omega

/-- A time no instant shows is passed over by a change, and is read with the offset before it. -/
theorem utcOf_gap {date ms : ℤ} (hnone : ∀ t, z.clock t ≠ date * dayMs + ms) :
    ∃ change, z.clock (change - 1) < date * dayMs + ms ∧ date * dayMs + ms < z.clock change ∧
      z.utcOf date ms = date * dayMs + ms - 1000 * z.offset (change - 1) := by
  obtain ⟨change, o₁, o₂, h⟩ := z.exists_around (date * dayMs + ms)
  have hutc := h.utcOf
  have hclock := fun t => h.clock (t := t)
  have hbefore := h.before (change - 1)
  obtain ⟨-, -, hlow₁, hhigh₁, hlow₂, hhigh₂⟩ := h
  generalize date * dayMs + ms = w at *
  rw [dayMs] at *
  have hfirst : ¬ w - o₁ < change := by
    intro hlt
    have := hclock (w - o₁) (by omega) (by omega)
    exact hnone (w - o₁) (by omega)
  have hsecond : ¬ change ≤ w - o₂ := by
    intro hle
    have := hclock (w - o₂) (by omega) (by omega)
    exact hnone (w - o₂) (by omega)
  rw [if_neg hfirst, if_neg hsecond] at hutc
  have hlast := hclock (change - 1) (by omega) (by omega)
  have hnext := hclock change (by omega) (by omega)
  have hstart := hnone change
  refine ⟨change, by omega, by omega, ?_⟩
  rw [hutc, hbefore (by omega) (by omega) (by omega)]

/-- Outside the inside of a gap, `utcOf` is the first instant at which the clock has reached the time. -/
theorem isLeast_utcOf {date ms : ℤ}
    (hgap : ∀ change, z.clock (change - 1) + 1 < date * dayMs + ms → z.clock change ≤ date * dayMs + ms) :
    IsLeast {t | date * dayMs + ms ≤ z.clock t} (z.utcOf date ms) := by
  obtain ⟨change, o₁, o₂, h⟩ := z.exists_around (date * dayMs + ms)
  have hclock := fun t => h.clock (t := t)
  have hmem := z.clock_mem
  have hgap := hgap change
  rw [h.utcOf]
  obtain ⟨-, -, hlow₁, hhigh₁, hlow₂, hhigh₂⟩ := h
  generalize date * dayMs + ms = w at *
  rw [dayMs] at *
  have hfar : ∀ t, w ≤ z.clock t → w - 172800000 ≤ t := by
    intro t ht
    have := hmem t
    omega
  constructor
  · show w ≤ z.clock _
    split_ifs with hlt hle
    · have := hclock (w - o₁) (by omega) (by omega)
      omega
    · have := hclock (w - o₂) (by omega) (by omega)
      omega
    · have := hclock (w - o₁) (by omega) (by omega)
      have := hclock change (by omega) (by omega)
      have := hclock (change - 1) (by omega) (by omega)
      omega
  · intro t ht
    have ht : w ≤ z.clock t := ht
    have hnear := hfar t ht
    by_contra hsooner
    have hshown := hclock t (by omega) (by split_ifs at hsooner <;> omega)
    split_ifs at hsooner with hlt hle
    · omega
    · omega
    · have := hclock change (by omega) (by omega)
      have := hclock (change - 1) (by omega) (by omega)
      omega

/-- The times of `utcOf` are walls of the day numbered 0. -/
theorem utcOf_zero (date ms : ℤ) : z.utcOf 0 (date * dayMs + ms) = z.utcOf date ms := by
  rw [utcOf, utcOf, Int.zero_mul, Int.zero_add]

theorem Around.utcOf_wall {w change o₁ o₂ : ℤ} (h : z.Around w change o₁ o₂) :
    z.utcOf 0 w = if w - o₁ < change then w - o₁ else if change ≤ w - o₂ then w - o₂ else w - o₁ := by
  have hzero : (0 : ℤ) * dayMs + w = w := by rw [Int.zero_mul, Int.zero_add]
  rw [← hzero] at h
  rw [h.utcOf, hzero]

theorem around_of_ne {w t : ℤ} (hlow : w - 2 * dayMs ≤ t - 1) (hhigh : t < w + 2 * dayMs)
    (hne : z.offset (t - 1) ≠ z.offset t) : z.Around w t (1000 * z.offset (t - 1)) (1000 * z.offset t) := by
  obtain ⟨change, o₁, o₂, h⟩ := z.exists_around w
  obtain ⟨rfl, rfl, rfl⟩ := h.eq_change hlow hhigh hne
  exact h

theorem isLeast_utcOf_wall {w : ℤ} (hgap : ∀ change, z.clock (change - 1) + 1 < w → z.clock change ≤ w) :
    IsLeast {t | w ≤ z.clock t} (z.utcOf 0 w) := by
  have hzero : (0 : ℤ) * dayMs + w = w := by rw [Int.zero_mul, Int.zero_add]
  have hleast := @isLeast_utcOf z 0 w
  rw [hzero] at hleast
  exact hleast hgap

/-- A time the clock is put back over is shown again, after the instant `utcOf` answers. -/
theorem utcOf_back {change w : ℤ} (hnext : z.clock change ≤ w) (hlast : w ≤ z.clock (change - 1)) :
    ∃ t, z.clock t = w ∧ z.utcOf 0 w < t := by
  have hmem := z.clock_mem change
  have hmem' := z.clock_mem (change - 1)
  have hne : z.offset (change - 1) ≠ z.offset change := by
    rw [clock] at hnext hlast
    omega
  have h := around_of_ne (w := w) (by rw [dayMs]; omega) (by rw [dayMs]; omega) hne
  have hutc := h.utcOf_wall
  have hclock := fun t => h.clock (t := t)
  obtain ⟨-, -, hlow₁, hhigh₁, hlow₂, hhigh₂⟩ := h
  rw [clock] at hnext hlast
  refine ⟨w - 1000 * z.offset change, ?_, ?_⟩
  · have := hclock (w - 1000 * z.offset change) (by rw [dayMs]; omega) (by rw [dayMs]; omega)
    omega
  · rw [hutc]
    split_ifs <;> omega

/-- A time the clock is put forward over is answered as much later as it is put forward. -/
theorem utcOf_forward {change w : ℤ} (hlast : z.clock (change - 1) < w) (hnext : w < z.clock change) :
    z.clock (z.utcOf 0 w) = w + (z.clock change - (z.clock (change - 1) + 1)) := by
  have hmem := z.clock_mem change
  have hmem' := z.clock_mem (change - 1)
  have hne : z.offset (change - 1) ≠ z.offset change := by
    rw [clock] at hnext hlast
    omega
  have h := around_of_ne (w := w) (by rw [dayMs]; omega) (by rw [dayMs]; omega) hne
  have hutc := h.utcOf_wall
  have hclock := fun t => h.clock (t := t)
  obtain ⟨-, -, hlow₁, hhigh₁, hlow₂, hhigh₂⟩ := h
  have hc : z.clock change = change + 1000 * z.offset change := rfl
  have hc' : z.clock (change - 1) = change - 1 + 1000 * z.offset (change - 1) := rfl
  rw [if_neg (by omega), if_neg (by omega)] at hutc
  have := hclock (w - 1000 * z.offset (change - 1)) (by rw [dayMs]; omega) (by rw [dayMs]; omega)
  rw [hutc]
  omega

/-- Before it is put forward, by whole seconds, a clock has run steadily for a day. -/
theorem clock_before_forward {change k : ℤ} (hforward : z.clock (change - 1) + 1 < z.clock change) (hk : 0 < k) (hday : k ≤ dayMs) :
    z.clock (change - k) = z.clock (change - 1) + 1 - k ∧ z.clock (change - 1) + 1 + 1000 ≤ z.clock change := by
  have hne : z.offset (change - 1) ≠ z.offset change := by
    rw [clock, clock] at hforward
    omega
  have hc : z.clock change = change + 1000 * z.offset change := rfl
  have hc' : z.clock (change - 1) = change - 1 + 1000 * z.offset (change - 1) := rfl
  rw [dayMs] at hday
  have h := around_of_ne (w := change) (by rw [dayMs]; omega) (by rw [dayMs]; omega) hne
  have := h.clock (t := change - k) (by rw [dayMs]; omega) (by rw [dayMs]; omega)
  omega

/-- A clock that comes back to a time was put back over it. -/
theorem exists_back {s t x : ℤ} (hst : s < t) (hs : x ≤ z.clock s) (ht : z.clock t ≤ x) :
    ∃ change, s < change ∧ change ≤ t ∧ z.clock change ≤ x ∧ x ≤ z.clock (change - 1) := by
  induction t, hst using Int.leInduction with
  | base =>
    refine ⟨s + 1, by omega, le_rfl, ht, ?_⟩
    rwa [Int.add_sub_cancel]
  | succ t hst ih =>
    by_cases hbefore : z.clock t ≤ x
    · obtain ⟨change, hlow, hhigh, hback⟩ := ih hbefore
      exact ⟨change, hlow, by omega, hback⟩
    · refine ⟨t + 1, by omega, le_rfl, ht, ?_⟩
      rw [Int.add_sub_cancel]
      omega

end Zone

end Norbital.Std

import Mathlib.Data.Int.LeastGreatest
import Mathlib.Data.Int.Notation

/-!
# Periods between openings

Days some of which open a period.  A period reaches from its opening to the day
before the next; periods never overlap, and where openings reach into the past and
the future every day is in one.
-/

namespace Openings

/-- The days from `a` to `b` are one period. -/
structure IsPeriod (opening : ℤ → Prop) (a b : ℤ) : Prop where
  opens : opening a
  closes : opening (b + 1)
  le : a ≤ b
  between : ∀ n, a < n → n ≤ b → ¬opening n

variable {opening : ℤ → Prop} {a b a' b' n : ℤ}

/-- A day is in one period only. -/
theorem IsPeriod.unique (h : IsPeriod opening a b) (h' : IsPeriod opening a' b') (ha : a ≤ n) (hb : n ≤ b)
    (ha' : a' ≤ n) (hb' : n ≤ b') : a = a' ∧ b = b' := by
  constructor
  · by_contra hne
    obtain hlt | hlt := lt_or_gt_of_ne hne
    · exact h.between a' hlt (by omega) h'.opens
    · exact h'.between a hlt (by omega) h.opens
  · by_contra hne
    obtain hlt | hlt := lt_or_gt_of_ne hne
    · exact h'.between (b + 1) (by omega) (by omega) h.closes
    · exact h.between (b' + 1) (by omega) (by omega) h'.closes

/-- The period of the day after a period opens with it. -/
theorem IsPeriod.next (h : IsPeriod opening a b) (h' : IsPeriod opening a' b') (ha' : a' ≤ b + 1)
    (hb' : b + 1 ≤ b') : a' = b + 1 := by
  by_contra hne
  exact h'.between (b + 1) (by omega) hb' h.closes

theorem exists_isPeriod (hpast : ∃ m ≤ n, opening m) (hfuture : ∃ m > n, opening m) :
    ∃ a b, IsPeriod opening a b ∧ a ≤ n ∧ n ≤ b := by
  classical
  obtain ⟨m, hm, hopening⟩ := hpast
  obtain ⟨a, ⟨hopens, han⟩, hgreatest⟩ := Int.exists_greatest_of_bdd (P := fun m => opening m ∧ m ≤ n)
    ⟨n, fun _ h => h.2⟩ ⟨m, hopening, hm⟩
  obtain ⟨m', hm', hopening'⟩ := hfuture
  obtain ⟨e, ⟨hcloses, hne⟩, hleast⟩ := Int.exists_least_of_bdd (P := fun m => opening m ∧ n < m)
    ⟨n, fun _ h => h.2.le⟩ ⟨m', hopening', hm'⟩
  refine ⟨a, e - 1, ⟨hopens, by rwa [Int.sub_add_cancel], by omega, fun k hk hke hopen => ?_⟩, han, by omega⟩
  obtain hkn | hkn := le_or_gt k n
  · exact absurd (hgreatest k ⟨hopen, hkn⟩) (by omega)
  · exact absurd (hleast k ⟨hopen, hkn⟩) (by omega)

end Openings

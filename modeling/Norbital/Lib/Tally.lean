import Mathlib.Data.Int.ConditionallyCompleteOrder
import Mathlib.Order.ConditionallyCompleteLattice.Basic
import Mathlib.Data.Int.Interval
import Mathlib.Data.Int.LeastGreatest
import Mathlib.Tactic.Common

/-!
# Counted time

Moments some of which count.  `tally` is how many count from one moment to another,
and `Due p n q` says that `q` is where `n` of them have passed since `p`: just after
the last, or with none to pass at the first that counts.
-/

namespace Tally

/-- How many moments from `p` to `q` count. -/
noncomputable def tally (P : ℤ → Prop) [DecidablePred P] (p q : ℤ) : ℤ := ((Finset.Ico p q).filter P).card

/-- The moment `n` counted moments after `p`. -/
structure Due (P : ℤ → Prop) [DecidablePred P] (p n q : ℤ) : Prop where
  le : p ≤ q
  tally_eq : tally P p q = n
  counts : n = 0 → P q
  last : n ≠ 0 → P (q - 1)

variable {P : ℤ → Prop} [DecidablePred P] {p q r n k : ℤ}

theorem tally_nonneg : 0 ≤ tally P p q := Int.natCast_nonneg _

theorem tally_add (hpq : p ≤ q) (hqr : q ≤ r) : tally P p q + tally P q r = tally P p r := by
  rw [tally, tally, tally, ← Nat.cast_add, ← Finset.card_union_of_disjoint, ← Finset.filter_union,
    Finset.Ico_union_Ico_eq_Ico hpq hqr]
  exact Finset.disjoint_filter_filter (Finset.Ico_disjoint_Ico_consecutive p q r)

theorem tally_eq_zero (h : ∀ x, p ≤ x → x < q → ¬ P x) : tally P p q = 0 := by
  rw [tally, Finset.filter_false_of_mem]
  · rfl
  · intro x hx
    rw [Finset.mem_Ico] at hx
    exact h x hx.1 hx.2

theorem tally_of_all (hpq : p ≤ q) (h : ∀ x, p ≤ x → x < q → P x) : tally P p q = q - p := by
  rw [tally, Finset.filter_true_of_mem, Int.card_Ico]
  · omega
  · intro x hx
    rw [Finset.mem_Ico] at hx
    exact h x hx.1 hx.2

theorem tally_pos {x : ℤ} (hp : p ≤ x) (hq : x < q) (hx : P x) : 0 < tally P p q := by
  rw [tally, Int.natCast_pos, Finset.card_pos]
  exact ⟨x, Finset.mem_filter.2 ⟨Finset.mem_Ico.2 ⟨hp, hq⟩, hx⟩⟩

theorem exists_of_tally_pos (h : 0 < tally P p q) : ∃ x, p ≤ x ∧ x < q ∧ P x := by
  rw [tally, Int.natCast_pos, Finset.card_pos] at h
  obtain ⟨x, hx⟩ := h
  rw [Finset.mem_filter, Finset.mem_Ico] at hx
  exact ⟨x, hx.1.1, hx.1.2, hx.2⟩

/-- Nothing is counted backwards. -/
theorem tally_of_le (h : q ≤ p) : tally P p q = 0 := tally_eq_zero fun x hp hq => absurd hq (by omega)

/-- A counted moment on its own. -/
theorem tally_single (h : P p) : tally P p (p + 1) = 1 := by
  rw [tally_of_all (by omega) fun x hp hq => by rwa [show x = p by omega]]
  omega

namespace Due

theorem nonneg (h : Due P p n q) : 0 ≤ n := h.tally_eq ▸ tally_nonneg

theorem lt (h : Due P p n q) (hn : n ≠ 0) : p < q := by
  by_contra hle
  exact hn (h.tally_eq ▸ tally_of_le (by omega))

/-- A moment that counts, or just after one. -/
theorem counts_or (h : Due P p n q) : P q ∨ P (q - 1) ∧ p < q := by
  by_cases hn : n = 0
  · exact .inl (h.counts hn)
  · exact .inr ⟨h.last hn, h.lt hn⟩

/-- Later starts and larger counts are due no sooner. -/
theorem mono {p' n' q' : ℤ} (h : Due P p n q) (h' : Due P p' n' q') (hp : p ≤ p') (hn : n ≤ n') : q ≤ q' := by
  by_contra hlt
  have hq' := h'.le
  have hsplit := tally_add (P := P) hp hq'
  have hshift := tally_nonneg (P := P) (p := p) (q := p')
  have htotal := h'.tally_eq
  by_cases hzero : n = 0
  · -- a moment that counts lies before `q`
    obtain ⟨x, hlow, hhigh, hx⟩ : ∃ x, p ≤ x ∧ x < q ∧ P x := by
      obtain hx | ⟨hx, hlt'⟩ := h'.counts_or
      · exact ⟨q', by omega, by omega, hx⟩
      · exact ⟨q' - 1, by omega, by omega, hx⟩
    have := tally_pos hlow hhigh hx
    have := h.tally_eq
    omega
  · -- all but the last of the count reaches past `q'`
    have hlast := tally_single (h.last hzero)
    have hfirst := h.lt hzero
    rw [show q - 1 + 1 = q by omega] at hlast
    have hall := tally_add (P := P) (p := p) (q := q - 1) (r := q) (by omega) (by omega)
    have hrest := tally_add (P := P) (p := p) (q := q') (r := q - 1) (by omega) (by omega)
    have := tally_nonneg (P := P) (p := q') (q := q - 1)
    have := h.tally_eq
    omega

theorem unique {q' : ℤ} (h : Due P p n q) (h' : Due P p n q') : q = q' :=
  le_antisymm (h.mono h' le_rfl le_rfl) (h'.mono h le_rfl le_rfl)

/-- A count goes on where it was left. -/
theorem trans (h : Due P p n q) (h' : Due P q k r) (hk : k ≠ 0) : Due P p (n + k) r := by
  have := h.nonneg
  have := h'.nonneg
  refine ⟨h.le.trans h'.le, ?_, by omega, fun _ => h'.last hk⟩
  rw [← tally_add h.le h'.le, h.tally_eq, h'.tally_eq]

/-- The first moment that counts is due with none to pass. -/
theorem exists_zero {x : ℤ} (hpx : p ≤ x) (hx : P x) : ∃ q, Due P p 0 q ∧ q ≤ x := by
  obtain ⟨q, ⟨hpq, hq⟩, hleast⟩ := Int.exists_least_of_bdd (P := fun y => p ≤ y ∧ P y) ⟨p, fun _ h => h.1⟩ ⟨x, hpx, hx⟩
  refine ⟨q, ⟨hpq, ?_, fun _ => hq, fun hne => absurd rfl hne⟩, hleast x ⟨hpx, hx⟩⟩
  apply tally_eq_zero
  intro y hlow hhigh hy
  have := hleast y ⟨hlow, hy⟩
  omega

/-- Moments that do not count may come before the start. -/
theorem of_none {p' : ℤ} (h : Due P p n q) (hp : p' ≤ p) (hnone : ∀ x, p' ≤ x → x < p → ¬ P x) : Due P p' n q := by
  refine ⟨hp.trans h.le, ?_, h.counts, h.last⟩
  rw [← tally_add hp h.le, tally_eq_zero hnone, h.tally_eq, zero_add]

/-- Within a stretch that counts throughout. -/
theorem of_all {e : ℤ} (hn : 0 ≤ n) (hend : p + n ≤ e) (hpe : p < e) (hall : ∀ x, p ≤ x → x < e → P x) :
    Due P p n (p + n) := by
  refine ⟨by omega, ?_, ?_, ?_⟩
  · rw [tally_of_all (by omega) fun x hp hx => hall x hp (by omega)]
    omega
  · intro hzero
    exact hall _ (by omega) (by omega)
  · intro hne
    exact hall _ (by omega) (by omega)

end Due

end Tally

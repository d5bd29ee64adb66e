import Mathlib.Data.List.Basic
import Mathlib.Logic.Basic

/-!
# Sweeps

A sweep visits a list, and each of its steps either leaves the state or adds a mark
and reports it.  Sweeps repeat until one of them reports nothing: what such a sweep
leaves is closed under every step, and where only so many marks fit, it is reached.
-/

namespace Norbital.Lib

variable {σ α : Type*}

/-- Each step leaves the state or adds to its size and reports a change. -/
def Marking (step : σ → α → σ) (changed : σ → Bool) (size : σ → Nat) : Prop :=
  ∀ s a, step s a = s ∨ changed (step s a) = true ∧ size s < size (step s a)

section Sweep

variable {step : σ → α → σ} {changed : σ → Bool} {size : σ → Nat}

theorem Marking.changed_foldl (h : Marking step changed size) {s : σ} (hs : changed s = true)
    (xs : List α) : changed (xs.foldl step s) = true := by
  induction xs generalizing s with
  | nil => exact hs
  | cons x xs ih =>
    apply ih
    obtain hx | ⟨hx, -⟩ := h s x
    · rw [hx]
      exact hs
    · exact hx

/-- A sweep that reports nothing has left the state at each of its steps. -/
theorem Marking.quiet (h : Marking step changed size) {s : σ} {xs : List α}
    (hq : changed (xs.foldl step s) = false) : xs.foldl step s = s ∧ ∀ x ∈ xs, step s x = s := by
  induction xs with
  | nil => exact ⟨rfl, by simp⟩
  | cons x xs ih =>
    rw [List.foldl_cons] at hq ⊢
    obtain hx | ⟨hx, -⟩ := h s x
    · rw [hx] at hq ⊢
      obtain ⟨hfold, hall⟩ := ih hq
      refine ⟨hfold, fun y hy => ?_⟩
      obtain rfl | hy := List.mem_cons.mp hy
      · exact hx
      · exact hall y hy
    · rw [h.changed_foldl hx xs] at hq
      cases hq

theorem Marking.size_le (h : Marking step changed size) (s : σ) (xs : List α) :
    size s ≤ size (xs.foldl step s) := by
  induction xs generalizing s with
  | nil => exact Nat.le_refl _
  | cons x xs ih =>
    refine Nat.le_trans ?_ (ih (step s x))
    obtain hx | ⟨-, hx⟩ := h s x
    · exact Nat.le_of_eq (congrArg size hx).symm
    · omega

theorem Marking.size_lt (h : Marking step changed size) {s : σ} (hs : changed s = false) {xs : List α}
    (hc : changed (xs.foldl step s) = true) : size s < size (xs.foldl step s) := by
  induction xs generalizing s with
  | nil =>
    rw [List.foldl_nil, hs] at hc
    cases hc
  | cons x xs ih =>
    rw [List.foldl_cons] at hc ⊢
    obtain hx | ⟨-, hx⟩ := h s x
    · rw [hx] at hc ⊢
      exact ih hs hc
    · exact Nat.lt_of_lt_of_le hx (h.size_le _ xs)

end Sweep

/-- Repeats the round while it reports a change: nothing when the fuel ends first. -/
def untilQuiet (round : σ → σ) (changed : σ → Bool) : Nat → σ → Option σ
  | 0, _ => none
  | fuel + 1, s =>
    if changed (round s) then untilQuiet round changed fuel (round s) else some (round s)

section Rounds

variable {round : σ → σ} {changed : σ → Bool} {Inv : σ → Prop}

/-- The rounds end with a quiet one, from a state that the invariant of the rounds holds of. -/
theorem untilQuiet_spec (hround : ∀ s, Inv s → Inv (round s)) {fuel : Nat} {s r : σ} (hs : Inv s)
    (h : untilQuiet round changed fuel s = some r) :
    ∃ last, Inv last ∧ round last = r ∧ changed (round last) = false := by
  induction fuel generalizing s with
  | zero => cases h
  | succ fuel ih =>
    rw [untilQuiet] at h
    split at h
    · exact ih (hround s hs) h
    · next hc =>
      exact ⟨s, hs, Option.some.inj h, by simpa using hc⟩

theorem untilQuiet_of_le {n k : Nat} (hk : n ≤ k) {s r : σ}
    (h : untilQuiet round changed n s = some r) : untilQuiet round changed k s = some r := by
  induction n generalizing k s with
  | zero => cases h
  | succ n ih =>
    obtain ⟨k, rfl⟩ : ∃ k', k = k' + 1 := ⟨k - 1, by omega⟩
    rw [untilQuiet] at h ⊢
    split at h
    · next hc =>
      rw [if_pos hc]
      exact ih (by omega) h
    · next hc =>
      rw [if_neg hc]
      exact h

/-- Where each round that reports a change makes a bounded size grow, the rounds end. -/
theorem untilQuiet_ends {size : σ → Nat} {bound : Nat} (hround : ∀ s, Inv s → Inv (round s))
    (hgrow : ∀ s, changed (round s) = true → size s < size (round s))
    (hbound : ∀ s, Inv s → size s ≤ bound) {fuel : Nat} {s : σ} (hs : Inv s)
    (hfuel : bound < size s + fuel) : ∃ r, untilQuiet round changed fuel s = some r := by
  induction fuel generalizing s with
  | zero =>
    have := hbound s hs
    omega
  | succ fuel ih =>
    rw [untilQuiet]
    split
    · next hc =>
      have := hgrow s hc
      exact ih (hround s hs) (by omega)
    · exact ⟨_, rfl⟩

end Rounds

end Norbital.Lib

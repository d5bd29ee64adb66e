import Mathlib.Logic.Basic

/-!
# Runs

A system is a step function on its states.  A run takes steps in turn; `Meets` says
that each of them meets a condition in the state it starts from, and an invariant
that such steps keep holds in every state such a run reaches.
-/

namespace Norbital.Lib

variable {σ α : Type*}

/-- Every step of the run meets the condition in the state it starts from. -/
def Meets (step : σ → α → σ) (ok : σ → α → Prop) : σ → List α → Prop
  | _, [] => True
  | s, a :: steps => ok s a ∧ Meets step ok (step s a) steps

instance decidableMeets (step : σ → α → σ) (ok : σ → α → Prop) [∀ s a, Decidable (ok s a)] :
    (s : σ) → (steps : List α) → Decidable (Meets step ok s steps)
  | _, [] => isTrue trivial
  | s, a :: steps => @instDecidableAnd _ _ _ (decidableMeets step ok (step s a) steps)

theorem Meets.invariant {step : σ → α → σ} {ok : σ → α → Prop} {Inv : σ → Prop}
    (hstep : ∀ s a, Inv s → ok s a → Inv (step s a)) {s : σ} (hs : Inv s) {steps : List α}
    (h : Meets step ok s steps) : Inv (steps.foldl step s) := by
  induction steps generalizing s with
  | nil => exact hs
  | cons a steps ih => exact ih (hstep s a hs h.1) h.2

/-- What every step keeps holds after every run. -/
theorem invariant_run {step : σ → α → σ} {Inv : σ → Prop} (hstep : ∀ s a, Inv s → Inv (step s a))
    {s : σ} (hs : Inv s) (steps : List α) : Inv (steps.foldl step s) := by
  induction steps generalizing s with
  | nil => exact hs
  | cons a steps ih => exact ih (hstep s a hs)

end Norbital.Lib

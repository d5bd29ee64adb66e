import Mathlib.Data.List.Nodup
import Mathlib.Logic.Function.Basic

/-!
# Finite maps as partial functions

A map is the partial function of its lookups.  Setting entries one after another
and laying one map over another, each with what a lookup gives afterwards.
-/

namespace Norbital.Maps

variable {κ α : Type*} [DecidableEq κ]

/-- The entries of `l` set one after another. -/
def setAll (l : List (κ × α)) (s : κ → Option α) : κ → Option α :=
  l.foldl (fun s p => Function.update s p.1 (some p.2)) s

@[simp] theorem setAll_nil (s : κ → Option α) : setAll [] s = s := rfl

@[simp] theorem setAll_cons (p : κ × α) (l : List (κ × α)) (s : κ → Option α) :
    setAll (p :: l) s = setAll l (Function.update s p.1 (some p.2)) := rfl

theorem setAll_of_not_mem {l : List (κ × α)} {k : κ} (h : k ∉ l.map Prod.fst)
    (s : κ → Option α) : setAll l s k = s k := by
  induction l generalizing s with
  | nil => rfl
  | cons p l ih =>
    simp only [List.map_cons, List.mem_cons, not_or] at h
    rw [setAll_cons, ih h.2, Function.update_of_ne h.1]

theorem setAll_of_mem {l : List (κ × α)} (hnd : (l.map Prod.fst).Nodup) {k : κ} {x : α}
    (h : (k, x) ∈ l) (s : κ → Option α) : setAll l s k = some x := by
  induction l generalizing s with
  | nil => cases h
  | cons p l ih =>
    rw [List.map_cons, List.nodup_cons] at hnd
    rw [setAll_cons]
    rcases List.mem_cons.1 h with rfl | h
    · rw [setAll_of_not_mem hnd.1, Function.update_self]
    · exact ih hnd.2 h _

/-- The map `s` with the entries of `t` over it. -/
def layOver (t s : κ → Option α) : κ → Option α := fun k => (t k).or (s k)

omit [DecidableEq κ] in
@[simp] theorem layOver_apply (t s : κ → Option α) (k : κ) : layOver t s k = (t k).or (s k) := rfl

end Norbital.Maps

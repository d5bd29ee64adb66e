import Mathlib.Data.Bool.Basic
import Mathlib.Data.List.Basic

/-!
# Three-valued logic

Truth values with an unknown, as a database evaluates a condition: `some b` is
a known truth value and `none` is unknown.  A condition selects a row exactly
when it is known to be true (`Holds`).
-/

namespace ThreeValued

/-- A truth value: known, or unknown (`none`). -/
abbrev Tri := Option Bool

/-- A condition selects what it is known to hold of. -/
def Holds (t : Tri) : Prop := t = some true

instance (t : Tri) : Decidable (Holds t) := inferInstanceAs (Decidable (t = some true))

/-- Conjunction: false wins over unknown. -/
def and : Tri → Tri → Tri
  | some false, _ => some false
  | _, some false => some false
  | some true, t => t
  | t, some true => t
  | none, none => none

/-- Disjunction: true wins over unknown. -/
def or : Tri → Tri → Tri
  | some true, _ => some true
  | _, some true => some true
  | some false, t => t
  | t, some false => t
  | none, none => none

/-- Negation leaves unknown unknown. -/
def not : Tri → Tri := Option.map (!·)

/-- The conjunction of a list, true when empty. -/
def all (ts : List Tri) : Tri := ts.foldr and (some true)

/-- The disjunction of a list, false when empty. -/
def any (ts : List Tri) : Tri := ts.foldr or (some false)

@[simp]
theorem holds_some (b : Bool) : Holds (some b) ↔ b = true := by
  simp [Holds]

@[simp]
theorem not_holds_none : ¬ Holds none := by
  simp [Holds]

/-- `COALESCE(t, false)`. -/
theorem getD_false_eq_true {t : Tri} : t.getD false = true ↔ Holds t := by
  rcases t with _ | _ | _ <;> simp

@[simp]
theorem holds_and (s t : Tri) : Holds (and s t) ↔ Holds s ∧ Holds t := by
  rcases s with _ | _ | _ <;> rcases t with _ | _ | _ <;> simp [and]

@[simp]
theorem holds_or (s t : Tri) : Holds (or s t) ↔ Holds s ∨ Holds t := by
  rcases s with _ | _ | _ <;> rcases t with _ | _ | _ <;> simp [or]

@[simp]
theorem holds_all (ts : List Tri) : Holds (all ts) ↔ ∀ t ∈ ts, Holds t := by
  induction ts with
  | nil => simp [all]
  | cons t ts ih =>
    rw [all, List.foldr_cons, holds_and, ← all, ih]
    simp

@[simp]
theorem holds_any (ts : List Tri) : Holds (any ts) ↔ ∃ t ∈ ts, Holds t := by
  induction ts with
  | nil => simp [any]
  | cons t ts ih =>
    rw [any, List.foldr_cons, holds_or, ← any, ih]
    simp

end ThreeValued

import Mathlib.Data.List.Basic
import Mathlib.Tactic.Cases

/-!
# Two walks over one structure

Two procedures ask the parts of a value in turn, one as `a`, the other as `b`.
Given for each part a condition `m` under which the two answer it alike, these are
the conditions under which they answer the whole alike: of a conjunction the walks
part where the condition fails, and the one that goes on has to be refused later;
of a disjunction it has to be accepted later.
-/

namespace Norbital.Walks

variable {α : Type*} {a b as bs : Bool} {m ms : Prop}

/-- A part and then the rest, both asked for. -/
def AndThen (b : Bool) (m : Prop) (bs : Bool) (ms : Prop) : Prop :=
  (m ∧ (b = true → ms)) ∨ (¬ m ∧ if b then bs = false else (bs = false ↔ ms))

/-- A part or else the rest. -/
def OrElse (b : Bool) (m : Prop) (bs : Bool) (ms : Prop) : Prop :=
  (m ∧ (b = false → ms)) ∨ (¬ m ∧ if b then (bs = true ↔ ms) else bs = true)

theorem and_eq_iff (h : a = b ↔ m) (hs : as = bs ↔ ms) : ((a && as) = (b && bs)) ↔ AndThen b m bs ms := by
  rw [AndThen, ← h, ← hs]
  cases a <;> cases b <;> cases as <;> cases bs <;> simp

theorem or_eq_iff (h : a = b ↔ m) (hs : as = bs ↔ ms) : ((a || as) = (b || bs)) ↔ OrElse b m bs ms := by
  rw [OrElse, ← h, ← hs]
  cases a <;> cases b <;> cases as <;> cases bs <;> simp

/-- Every item of a list. -/
def Every (accepts : α → Bool) (meets : α → Prop) : List α → Prop
  | [] => True
  | x :: rest => AndThen (accepts x) (meets x) (rest.all accepts) (Every accepts meets rest)

theorem all_eq_iff {valid accepts : α → Bool} {meets : α → Prop} {l : List α}
    (h : ∀ x ∈ l, valid x = accepts x ↔ meets x) : l.all valid = l.all accepts ↔ Every accepts meets l := by
  induction l with
  | nil => exact iff_of_true rfl trivial
  | cons x l ih =>
    rw [List.all_cons, List.all_cons]
    exact and_eq_iff (h x List.mem_cons_self) (ih fun y hy => h y (List.mem_cons_of_mem x hy))

/-- Where every part is met the walks go together to the end. -/
theorem AndThen.of_both (h : m) (hs : ms) : AndThen b m bs ms := .inl ⟨h, fun _ => hs⟩

end Norbital.Walks

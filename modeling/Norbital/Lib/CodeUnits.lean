import Mathlib.Data.List.Basic

/-!
# Texts as code units

A text as the list of its 16-bit code units, lone surrogates included.
-/

abbrev CodeUnit := UInt16

abbrev JsString := List CodeUnit

namespace JsString

/-- The first unit of a surrogate pair. -/
def isHigh (c : CodeUnit) : Bool := 0xD800 ≤ c && c ≤ 0xDBFF

/-- The second one. -/
def isLow (c : CodeUnit) : Bool := 0xDC00 ≤ c && c ≤ 0xDFFF

/-- The code units of an ASCII text. -/
def ascii (s : String) : JsString := s.toList.map fun c => c.toNat.toUInt16

/-- A hexadecimal digit. -/
def hexUnit (n : Nat) : CodeUnit := if n < 10 then 48 + n.toUInt16 else 87 + n.toUInt16

/-- What is checked of a list element by element. -/
theorem forall_of_all {α : Type*} {P : α → Prop} [DecidablePred P] {xs : List α} (h : (xs.all fun x => decide (P x)) = true) :
    ∀ x ∈ xs, P x :=
  fun x hx => of_decide_eq_true (List.all_eq_true.mp h x hx)

end JsString

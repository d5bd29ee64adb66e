import Mathlib.Data.List.Perm.Basic

/-!
# Looking up by a rendering

An answer holds the rows that a condition selected, in no order one can rely
on.  A row is looked up in it by a test of its own (`same`), which need not be
the relation the row is wanted for (`wanted`).
-/

namespace Lookup

variable {α : Type*} {selected : List α} {same : α → Bool} {wanted : α → Prop}

/-- Whatever the order of the answer, the lookup finds just the wanted row when the wanted rows are
selected and pass the test, no other selected row passes it, and one row is wanted at most. -/
theorem find_iff :
    (∀ answer : List α, answer.Perm selected → ∀ r, answer.find? same = some r ↔ wanted r) ↔
      (∀ r, wanted r → r ∈ selected ∧ same r = true) ∧ (∀ r ∈ selected, same r = true → wanted r) ∧
        ∀ r s, wanted r → wanted s → r = s := by
  constructor
  · intro h
    refine ⟨fun r hr => ?_, fun r hr hsame => ?_, fun r s hr hs => ?_⟩
    · have hfind := (h selected (.refl _) r).2 hr
      exact ⟨List.mem_of_find?_eq_some hfind, List.find?_some hfind⟩
    · -- an answer that begins with the row
      obtain ⟨front, back, rfl⟩ := List.append_of_mem hr
      exact (h (r :: (front ++ back)) List.perm_middle.symm r).1 (List.find?_cons_of_pos hsame)
    · have hfind := (h selected (.refl _) r).2 hr
      exact Option.some.inj (hfind.symm.trans ((h selected (.refl _) s).2 hs))
  · rintro ⟨hselected, hwanted, hone⟩ answer hanswer r
    have hfound : ∀ s, answer.find? same = some s → wanted s := fun s hs =>
      hwanted s (hanswer.mem_iff.1 (List.mem_of_find?_eq_some hs)) (List.find?_some hs)
    refine ⟨hfound r, fun hr => ?_⟩
    obtain ⟨hmem, hsame⟩ := hselected r hr
    cases hfind : answer.find? same with
    | none => exact absurd hsame (List.find?_eq_none.1 hfind r (hanswer.mem_iff.2 hmem))
    | some s => rw [hone s r (hfound s hfind) hr]

/-- The same of the last row that passes. -/
theorem find_reverse_iff :
    (∀ answer : List α, answer.Perm selected → ∀ r, answer.reverse.find? same = some r ↔ wanted r) ↔
      (∀ r, wanted r → r ∈ selected ∧ same r = true) ∧ (∀ r ∈ selected, same r = true → wanted r) ∧
        ∀ r s, wanted r → wanted s → r = s := by
  rw [← find_iff]
  constructor
  · intro h answer hanswer
    have hreverse := h answer.reverse ((List.reverse_perm answer).trans hanswer)
    rwa [List.reverse_reverse] at hreverse
  · exact fun h answer hanswer => h answer.reverse ((List.reverse_perm answer).trans hanswer)

end Lookup

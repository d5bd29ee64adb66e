import Mathlib.Data.List.DropRight

/-!
# White space around a text

A text without the white space around it, as JavaScript trims it.
-/

namespace Norbital.Lib

/-- JavaScript's white space and line terminators, which `\s` of a pattern matches. -/
def isSpace (c : Char) : Bool :=
  decide (c.toNat ∈ [9, 10, 11, 12, 13, 32, 0xa0, 0x1680, 0x2028, 0x2029, 0x202f, 0x205f, 0x3000, 0xfeff]) ||
    (decide (0x2000 ≤ c.toNat) && decide (c.toNat ≤ 0x200a))

/-- `String.prototype.trim`. -/
def trim (text : List Char) : List Char := ((text.dropWhile isSpace).reverse.dropWhile isSpace).reverse

def trimmed (s : String) : String := .ofList (trim s.toList)

theorem isSpace_of_isDigit {c : Char} (h : c.isDigit) : isSpace c = false := by
  simp only [Char.isDigit, Bool.and_eq_true, decide_eq_true_eq, UInt32.le_iff_toNat_le] at h
  have hlow : 48 ≤ c.toNat := h.1
  have hhigh : c.toNat ≤ 57 := h.2
  simp only [isSpace, Bool.or_eq_false_iff, Bool.and_eq_false_iff, decide_eq_false_iff_not, List.mem_cons,
    List.not_mem_nil, or_false]
  omega

theorem trim_of_all {text : List Char} (h : ∀ c ∈ text, isSpace c = false) : trim text = text := by
  have hdrop : ∀ {l : List Char}, (∀ c ∈ l, isSpace c = false) → l.dropWhile isSpace = l := by
    intro l hl
    cases l with
    | nil => rfl
    | cons a l => simp [hl a (by simp)]
  rw [trim, hdrop h, hdrop (by simpa using h), List.reverse_reverse]

theorem trim_trim (text : List Char) : trim (trim text) = trim text := by
  obtain ⟨u, hu⟩ : ∃ u, u = text.dropWhile isSpace := ⟨_, rfl⟩
  have htrim : trim text = u.rdropWhile isSpace := by rw [hu]; rfl
  -- what is left after dropping at the end begins as before
  have hfront : (u.rdropWhile isSpace).dropWhile isSpace = u.rdropWhile isSpace := by
    refine List.dropWhile_eq_self_iff.mpr fun hlen => ?_
    have hstart := List.rdropWhile_prefix isSpace u
    rw [hstart.getElem hlen]
    exact List.dropWhile_eq_self_iff.mp (by rw [hu, List.dropWhile_idempotent]) _
  rw [htrim]
  show ((u.rdropWhile isSpace).dropWhile isSpace).rdropWhile isSpace = _
  rw [hfront, List.rdropWhile_idempotent]

/-- A text that ends without a blank, after a text with none around it. -/
theorem trim_append {t u : List Char} (ht : trim t = t) (hu : ∀ c ∈ u, isSpace c = false) (hne : u ≠ []) :
    trim (t ++ u) = t ++ u := by
  have hfront : (t ++ u).dropWhile isSpace = t ++ u := by
    refine List.dropWhile_eq_self_iff.mpr fun hlen => ?_
    cases t with
    | nil => simpa using hu _ (List.getElem_mem hlen)
    | cons c t =>
      -- a first character that is a blank would be dropped
      intro hc
      have hlength := congrArg List.length ht
      have hdropped : (c :: t).dropWhile isSpace = t.dropWhile isSpace := List.dropWhile_cons_of_pos hc
      rw [trim, hdropped, List.length_reverse] at hlength
      have hle := (List.dropWhile_suffix (l := (t.dropWhile isSpace).reverse) isSpace).length_le
      have hle' := (List.dropWhile_suffix (l := t) isSpace).length_le
      rw [List.length_reverse] at hle
      rw [List.length_cons] at hlength
      omega
  rw [trim, hfront, List.reverse_append]
  obtain ⟨c, rest, hrest⟩ := List.exists_cons_of_ne_nil (List.reverse_ne_nil_iff.mpr hne)
  have hc : isSpace c = false := hu c (List.mem_reverse.mp (hrest ▸ List.mem_cons_self))
  rw [hrest, List.cons_append, List.dropWhile_cons_of_neg (by simp [hc]), ← List.cons_append, ← hrest,
    ← List.reverse_append, List.reverse_reverse]

end Norbital.Lib

import Mathlib.Data.List.Basic
import Mathlib.Data.List.Induction
import Mathlib.Data.Nat.Notation
import Mathlib.Tactic.Common

/-!
# Numerals joined by a separator

Texts such as `10.0.0.1`: the numerals of several numbers in one base up to sixteen,
with a separator that is no digit between them.
-/

namespace Numerals

/-- The numerals of the numbers with the separator between them. -/
def joined (sep : Char) (b : ℕ) (ns : List ℕ) : List Char := [sep].intercalate (ns.map (Nat.toDigits b))

variable {b : ℕ}

theorem digitChar_injective {m n : ℕ} (hm : m < 16) (hn : n < 16) (h : m.digitChar = n.digitChar) : m = n := by
  have hall : ∀ m : Fin 16, ∀ n : Fin 16, m.val.digitChar = n.val.digitChar → m.val = n.val := by decide
  exact hall ⟨m, hm⟩ ⟨n, hn⟩ h

theorem toDigits_injective (hb : 1 < b) (hb' : b ≤ 16) {m n : ℕ} (h : Nat.toDigits b m = Nat.toDigits b n) : m = n := by
  induction m using Nat.strongRecOn generalizing n with
  | ind m ih =>
    have hlength : ∀ k, b ≤ k → 2 ≤ (Nat.toDigits b k).length := by
      intro k hk
      rw [Nat.toDigits_of_base_le hb hk, List.length_append]
      have := Nat.length_toDigits_pos (b := b) (n := k / b)
      rw [List.length_singleton]
      omega
    rcases Nat.lt_or_ge m b with hm | hm <;> rcases Nat.lt_or_ge n b with hn | hn
    · rw [Nat.toDigits_of_lt_base hm, Nat.toDigits_of_lt_base hn] at h
      exact digitChar_injective (by omega) (by omega) (List.cons.inj h).1
    · have := hlength n hn
      rw [← h, Nat.toDigits_of_lt_base hm, List.length_singleton] at this
      omega
    · have := hlength m hm
      rw [h, Nat.toDigits_of_lt_base hn, List.length_singleton] at this
      omega
    · -- the last digit apart
      rw [Nat.toDigits_of_base_le hb hm, Nat.toDigits_of_base_le hb hn] at h
      obtain ⟨hinit, hlast⟩ := List.append_inj' h rfl
      have hquot := ih (m / b) (Nat.div_lt_self (by omega) hb) hinit
      have hmod := digitChar_injective (by have := Nat.mod_lt m (show b > 0 by omega); omega)
        (by have := Nat.mod_lt n (show b > 0 by omega); omega) (List.cons.inj hlast).1
      rw [← Nat.div_add_mod m b, ← Nat.div_add_mod n b, hquot, hmod]

theorem exists_of_mem_toDigits (hb : 1 < b) {n : ℕ} {c : Char} (hc : c ∈ Nat.toDigits b n) : ∃ d < b, c = d.digitChar := by
  induction n using Nat.strongRecOn with
  | ind n ih =>
    rcases Nat.lt_or_ge n b with hn | hn
    · rw [Nat.toDigits_of_lt_base hn, List.mem_singleton] at hc
      exact ⟨n, hn, hc⟩
    · rw [Nat.toDigits_of_base_le hb hn, List.mem_append, List.mem_singleton] at hc
      rcases hc with hc | rfl
      · exact ih (n / b) (Nat.div_lt_self (by omega) hb) hc
      · exact ⟨n % b, Nat.mod_lt n (by omega), rfl⟩

theorem not_mem_toDigits (hb : 1 < b) {sep : Char} (hsep : ∀ d < b, sep ≠ d.digitChar) (n : ℕ) : sep ∉ Nat.toDigits b n := by
  intro hmem
  obtain ⟨d, hd, heq⟩ := exists_of_mem_toDigits hb hmem
  exact hsep d hd heq

theorem mem_intercalate {sep c : Char} {ls : List (List Char)} (h : c ∈ [sep].intercalate ls) : c = sep ∨ ∃ l ∈ ls, c ∈ l := by
  induction ls with
  | nil => cases h
  | cons l ls ih =>
    cases ls with
    | nil => exact .inr ⟨l, List.mem_cons_self, by simpa [List.intercalate] using h⟩
    | cons l' ls =>
      have hcons : [sep].intercalate (l :: l' :: ls) = l ++ sep :: [sep].intercalate (l' :: ls) := by
        simp [List.intercalate]
      rw [hcons, List.mem_append, List.mem_cons] at h
      rcases h with h | rfl | h
      · exact .inr ⟨l, List.mem_cons_self, h⟩
      · exact .inl rfl
      · exact (ih h).imp_right fun ⟨k, hk, hc⟩ => ⟨k, List.mem_cons_of_mem _ hk, hc⟩

/-- Digits and separators are all that a joined text is made of. -/
theorem mem_joined (hb : 1 < b) {sep c : Char} {ns : List ℕ} (h : c ∈ joined sep b ns) : c = sep ∨ ∃ d < b, c = d.digitChar := by
  refine (mem_intercalate h).imp_right ?_
  rintro ⟨l, hl, hc⟩
  obtain ⟨n, -, rfl⟩ := List.mem_map.1 hl
  exact exists_of_mem_toDigits hb hc

/-- The joined text is split at its separators. -/
theorem splitOn_joined (hb : 1 < b) {sep : Char} (hsep : ∀ d < b, sep ≠ d.digitChar) {ns : List ℕ} (hns : ns ≠ []) :
    (joined sep b ns).splitOn sep = ns.map (Nat.toDigits b) := by
  apply List.splitOn_intercalate
  · intro l hl
    obtain ⟨n, -, rfl⟩ := List.mem_map.1 hl
    exact not_mem_toDigits hb hsep n
  · rwa [ne_eq, List.map_eq_nil_iff]

/-- The numbers are told by their text. -/
theorem joined_injective (hb : 1 < b) (hb' : b ≤ 16) {sep : Char} (hsep : ∀ d < b, sep ≠ d.digitChar) {ms ns : List ℕ}
    (hms : ms ≠ []) (hns : ns ≠ []) (h : joined sep b ms = joined sep b ns) : ms = ns := by
  have hsplit := congrArg (List.splitOn sep) h
  rw [splitOn_joined hb hsep hms, splitOn_joined hb hsep hns] at hsplit
  exact List.map_injective_iff.2 (fun _ _ => toDigits_injective hb hb') hsplit

theorem exists_digit {c : Char} (hc : c.isDigit) : ∃ d < 10, c = Nat.digitChar d := by
  obtain ⟨hlow, hhigh⟩ := Char.isDigit_iff_toNat.1 hc
  have hlow : 48 ≤ c.toNat := hlow
  have hhigh : c.toNat ≤ 57 := hhigh
  refine ⟨c.toNat - 48, by omega, ?_⟩
  apply Char.toNat_inj.1
  rw [Nat.toNat_digitChar_of_lt_ten (by omega)]
  omega

/-- A decimal numeral without leading zeros is the numeral of its value. -/
theorem toDigits_ofDigitChars {c : Char} {cs : List Char} (hc : c ≠ '0') (hdigits : ∀ d ∈ c :: cs, d.isDigit) :
    0 < Nat.ofDigitChars 10 (c :: cs) 0 ∧ Nat.toDigits 10 (Nat.ofDigitChars 10 (c :: cs) 0) = c :: cs := by
  induction cs using List.reverseRecOn with
  | nil =>
    obtain ⟨n, hn, rfl⟩ := exists_digit (hdigits c List.mem_cons_self)
    rw [Nat.ofDigitChars_cons_digitChar_of_lt_ten hn, Nat.ofDigitChars_nil]
    have hpos : n ≠ 0 := by
      rintro rfl
      exact hc rfl
    rw [Nat.mul_zero, Nat.zero_add, Nat.toDigits_of_lt_base hn]
    exact ⟨by omega, rfl⟩
  | append_singleton cs d ih =>
    obtain ⟨n, hn, rfl⟩ := exists_digit (hdigits d (by simp))
    obtain ⟨hpos, htext⟩ := ih fun e he => hdigits e (by simp at he ⊢; tauto)
    rw [← List.cons_append, Nat.ofDigitChars_append, Nat.ofDigitChars_cons_digitChar_of_lt_ten hn, Nat.ofDigitChars_nil]
    refine ⟨by omega, ?_⟩
    rw [← Nat.toDigits_append_toDigits (by decide) hpos hn, htext, Nat.toDigits_of_lt_base hn]

end Numerals

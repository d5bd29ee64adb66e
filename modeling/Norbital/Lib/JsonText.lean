import Mathlib.Data.List.Basic
import Mathlib.Data.Char

/-!
# Quoted JSON texts

A string as JSON quotes it, and that the text gives the string back: what is
written after a quoted string never runs into it.
-/

namespace JsonText

def hexDigit (n : Nat) : Char := if n < 10 then Char.ofNat (48 + n) else Char.ofNat (87 + n)

def unhexDigit (c : Char) : Nat := if c.toNat < 58 then c.toNat - 48 else c.toNat - 87

/-- A character inside quotes: quotes, backslashes and control characters are escaped. -/
def escape (c : Char) : List Char :=
  if c = '"' then ['\\', '"']
  else if c = '\\' then ['\\', '\\']
  else if c = '\n' then ['\\', 'n']
  else if c = '\r' then ['\\', 'r']
  else if c = '\t' then ['\\', 't']
  else if c.toNat = 8 then ['\\', 'b']
  else if c.toNat = 12 then ['\\', 'f']
  else if c.toNat < 32 then
    ['\\', 'u', '0', '0', hexDigit (c.toNat / 16), hexDigit (c.toNat % 16)]
  else [c]

/-- The first character of an escaped text. -/
def unescape : List Char → Option (Char × List Char)
  | '\\' :: '"' :: rest => some ('"', rest)
  | '\\' :: '\\' :: rest => some ('\\', rest)
  | '\\' :: 'n' :: rest => some ('\n', rest)
  | '\\' :: 'r' :: rest => some ('\r', rest)
  | '\\' :: 't' :: rest => some ('\t', rest)
  | '\\' :: 'b' :: rest => some (Char.ofNat 8, rest)
  | '\\' :: 'f' :: rest => some (Char.ofNat 12, rest)
  | '\\' :: 'u' :: '0' :: '0' :: a :: b :: rest =>
    some (Char.ofNat (16 * unhexDigit a + unhexDigit b), rest)
  | c :: rest => some (c, rest)
  | [] => none

private theorem hex_control : ∀ n < 32,
    16 * unhexDigit (hexDigit (n / 16)) + unhexDigit (hexDigit (n % 16)) = n := by
  decide

theorem unescape_escape (c : Char) (rest : List Char) :
    unescape (escape c ++ rest) = some (c, rest) := by
  rw [escape]
  split_ifs with h₁ h₂ h₃ h₄ h₅ h₆ h₇ h₈
  · simp [unescape, h₁]
  · simp [unescape, h₂]
  · simp [unescape, h₃]
  · simp [unescape, h₄]
  · simp [unescape, h₅]
  · have hc : c = Char.ofNat 8 := by rw [← h₆, Char.ofNat_toNat]
    rw [hc]
    rfl
  · have hc : c = Char.ofNat 12 := by rw [← h₇, Char.ofNat_toNat]
    rw [hc]
    rfl
  · simp [unescape, hex_control c.toNat h₈]
  · simp only [List.singleton_append]
    unfold unescape
    split <;> simp_all

/-- The escaped characters of a string and the closing quote. -/
def closing (s : List Char) : List Char := s.flatMap escape ++ ['"']

/-- A string in quotes. -/
def quote (s : String) : List Char := '"' :: closing s.toList

private theorem escape_ne_quote (c : Char) (rest : List Char) : (escape c ++ rest).head? ≠ some '"' := by
  rw [escape]
  split_ifs <;> simp_all

/-- A quoted string is no beginning of another one. -/
theorem closing_append_inj {s t : List Char} {x y : List Char}
    (h : closing s ++ x = closing t ++ y) : s = t ∧ x = y := by
  induction s generalizing t with
  | nil =>
    cases t with
    | nil => exact ⟨rfl, by simpa [closing] using h⟩
    | cons d t =>
      have := escape_ne_quote d (t.flatMap escape ++ ['"'] ++ y)
      simp [closing] at h
      simp [← h] at this
  | cons c s ih =>
    cases t with
    | nil =>
      have := escape_ne_quote c (s.flatMap escape ++ ['"'] ++ x)
      simp [closing] at h
      simp [h] at this
    | cons d t =>
      have h' : escape c ++ (closing s ++ x) = escape d ++ (closing t ++ y) := by
        simpa [closing] using h
      have hread := congrArg unescape h'
      rw [unescape_escape, unescape_escape, Option.some.injEq, Prod.mk.injEq] at hread
      obtain ⟨rfl, hrest⟩ := hread
      obtain ⟨rfl, hxy⟩ := ih hrest
      exact ⟨rfl, hxy⟩

theorem quote_append_inj {s t : String} {x y : List Char} (h : quote s ++ x = quote t ++ y) :
    s = t ∧ x = y := by
  simp only [quote, List.cons_append, List.cons.injEq, true_and] at h
  obtain ⟨hst, hxy⟩ := closing_append_inj h
  exact ⟨String.toList_injective hst, hxy⟩

end JsonText

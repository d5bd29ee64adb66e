import Mathlib.Data.List.Basic

/-!
# Numbered placeholders

Texts in which `$` and digits stand for the value of that number.  A text is
read into characters and numbers; moving every number by an offset and moving
the values by the same offset leaves what the text says as it was.
-/

namespace Placeholders

inductive Token where
  | char (c : Char)
  | number (n : Nat)
  deriving DecidableEq, Repr

/-- Where the reading of a text stands: in plain text, after a `$`, or inside a number. -/
inductive Mark where
  | plain
  | dollar
  | digits (n : Nat)

def digitValue (c : Char) : Nat := c.toNat - 48

/-- The tokens of a text; a number takes every digit that follows. -/
def scan : Mark → List Char → List Token
  | .plain, [] => []
  | .plain, c :: cs => if c = '$' then scan .dollar cs else .char c :: scan .plain cs
  | .dollar, [] => [.char '$']
  | .dollar, c :: cs =>
    if c.isDigit then scan (.digits (digitValue c)) cs
    else .char '$' :: (if c = '$' then scan .dollar cs else .char c :: scan .plain cs)
  | .digits n, [] => [.number n]
  | .digits n, c :: cs =>
    if c.isDigit then scan (.digits (10 * n + digitValue c)) cs
    else .number n :: (if c = '$' then scan .dollar cs else .char c :: scan .plain cs)

def tokens (text : List Char) : List Token := scan .plain text

def Token.text : Token → List Char
  | .char c => [c]
  | .number n => '$' :: Nat.toDigits 10 n

def write (ts : List Token) : List Char := ts.flatMap Token.text

def Token.move (offset : Nat) : Token → Token
  | .char c => .char c
  | .number n => .number (n + offset)

/-- Every number of the text moved by the offset. -/
def renumber (offset : Nat) (text : List Char) : List Char := write ((tokens text).map (Token.move offset))

theorem scan_plain_cons (c : Char) (cs : List Char) :
    scan .plain (c :: cs) = if c = '$' then scan .dollar cs else .char c :: scan .plain cs := rfl

theorem scan_dollar_cons (c : Char) (cs : List Char) :
    scan .dollar (c :: cs) = if c.isDigit then scan (.digits (digitValue c)) cs
      else .char '$' :: (if c = '$' then scan .dollar cs else .char c :: scan .plain cs) := rfl

theorem scan_digits_cons (n : Nat) (c : Char) (cs : List Char) :
    scan (.digits n) (c :: cs) = if c.isDigit then scan (.digits (10 * n + digitValue c)) cs
      else .number n :: (if c = '$' then scan .dollar cs else .char c :: scan .plain cs) := rfl

/-- A text that begins with no digit. -/
def NoDigit (text : List Char) : Prop := ∀ c ∈ text.head?, c.isDigit = false

theorem noDigit_cons {c : Char} (h : c.isDigit = false) (text : List Char) : NoDigit (c :: text) := by
  intro d hd
  rwa [← Option.some.inj hd]

theorem scan_dollar {text : List Char} (h : NoDigit text) : scan .dollar text = .char '$' :: tokens text := by
  cases text with
  | nil => rfl
  | cons c cs =>
    have hc : c.isDigit = false := h c rfl
    rw [tokens, scan_dollar_cons, scan_plain_cons, hc]
    rfl

theorem scan_digits {digits text : List Char} (hdigits : ∀ c ∈ digits, c.isDigit) (h : NoDigit text) (n : Nat) :
    scan (.digits n) (digits ++ text) = .number (Nat.ofDigitChars 10 digits n) :: tokens text := by
  induction digits generalizing n with
  | nil =>
    rw [List.nil_append, Nat.ofDigitChars_nil]
    cases text with
    | nil => rfl
    | cons c cs =>
      have hc : c.isDigit = false := h c rfl
      rw [tokens, scan_digits_cons, scan_plain_cons, hc]
      rfl
  | cons c digits ih =>
    have hc : c.isDigit := hdigits c (List.mem_cons_self ..)
    rw [List.cons_append, scan_digits_cons, if_pos hc, ih (fun d hd => hdigits d (List.mem_cons_of_mem c hd)),
      Nat.ofDigitChars_cons]
    rfl

/-- A written number is read as that number. -/
theorem tokens_number (n : Nat) {text : List Char} (h : NoDigit text) :
    tokens ((Token.number n).text ++ text) = .number n :: tokens text := by
  have hdigits : ∀ c ∈ Nat.toDigits 10 n, c.isDigit := fun c hc =>
    Nat.isDigit_of_mem_toDigits (by decide) (by decide) hc
  have hvalue : Nat.ofDigitChars 10 (Nat.toDigits 10 n) 0 = n := Nat.ofDigitChars_ten_toDigits
  show scan .plain ('$' :: (Nat.toDigits 10 n ++ text)) = _
  rw [scan_plain_cons, if_pos rfl]
  cases hn : Nat.toDigits 10 n with
  | nil => exact absurd hn Nat.toDigits_ne_nil
  | cons c digits =>
    rw [hn] at hdigits hvalue
    rw [Nat.ofDigitChars_cons] at hvalue
    rw [List.cons_append, scan_dollar_cons, if_pos (hdigits c (List.mem_cons_self ..)),
      scan_digits (fun d hd => hdigits d (List.mem_cons_of_mem c hd)) h]
    congr 2
    simpa [digitValue] using hvalue

theorem tokens_char {c : Char} (hc : c ≠ '$') (text : List Char) :
    tokens (c :: text) = .char c :: tokens text := by
  rw [tokens, scan_plain_cons, if_neg hc]
  rfl

section

variable (offset : Nat)

/-- What is read after a `$` is written with a `$` first. -/
theorem head?_write_dollar : ∀ (text : List Char) (mark : Mark), mark ≠ .plain →
    (write ((scan mark text).map (Token.move offset))).head? = some '$'
  | [], .dollar, _ => rfl
  | [], .digits _, _ => rfl
  | c :: cs, .dollar, _ => by
    rw [scan_dollar_cons]
    by_cases hc : c.isDigit
    · rw [if_pos hc]
      exact head?_write_dollar cs _ (by simp)
    · rw [if_neg hc]
      rfl
  | c :: cs, .digits n, _ => by
    rw [scan_digits_cons]
    by_cases hc : c.isDigit
    · rw [if_pos hc]
      exact head?_write_dollar cs _ (by simp)
    · rw [if_neg hc]
      rfl
  | _, .plain, h => (h rfl).elim

/-- What is read after a character that is no digit is written with none first. -/
theorem noDigit_write {c : Char} (hc : ¬ c.isDigit) (cs : List Char) :
    NoDigit (write ((if c = '$' then scan .dollar cs else .char c :: scan .plain cs).map (Token.move offset))) := by
  intro d hd
  split_ifs at hd with hdollar
  · rw [head?_write_dollar offset cs .dollar (by simp)] at hd
    obtain rfl := Option.some.inj hd
    rfl
  · obtain rfl : c = d := by simpa [write, Token.move, Token.text] using hd
    simpa using hc

/-- Moved tokens are read back as they were written. -/
theorem tokens_write : ∀ (text : List Char) (mark : Mark),
    tokens (write ((scan mark text).map (Token.move offset))) = (scan mark text).map (Token.move offset) := by
  intro text
  induction text with
  | nil =>
    intro mark
    cases mark with
    | plain => rfl
    | dollar => rfl
    | digits n =>
      have h := tokens_number (n + offset) (show NoDigit [] by simp [NoDigit])
      simpa [scan, write, Token.move, tokens] using h
  | cons c cs ih =>
    -- the rest of a text after a character that is no digit
    have hrest : ∀ hc : ¬ c.isDigit, tokens (write ((if c = '$' then scan .dollar cs else
        .char c :: scan .plain cs).map (Token.move offset))) =
        (if c = '$' then scan .dollar cs else .char c :: scan .plain cs).map (Token.move offset) := by
      intro hc
      by_cases hdollar : c = '$'
      · rw [if_pos hdollar]
        exact ih .dollar
      · rw [if_neg hdollar]
        show tokens (c :: write ((scan .plain cs).map _)) = _
        rw [tokens_char hdollar, ih .plain]
        rfl
    intro mark
    cases mark with
    | plain =>
      rw [scan_plain_cons]
      by_cases hdollar : c = '$'
      · rw [if_pos hdollar]
        exact ih .dollar
      · rw [if_neg hdollar]
        show tokens (c :: write ((scan .plain cs).map _)) = _
        rw [tokens_char hdollar, ih .plain]
        rfl
    | dollar =>
      rw [scan_dollar_cons]
      by_cases hc : c.isDigit
      · rw [if_pos hc]
        exact ih _
      · rw [if_neg hc]
        show scan .dollar (write (List.map _ _)) = _
        rw [scan_dollar (noDigit_write offset hc cs), hrest hc]
        rfl
    | digits n =>
      rw [scan_digits_cons]
      by_cases hc : c.isDigit
      · rw [if_pos hc]
        exact ih _
      · rw [if_neg hc]
        show tokens ((Token.number (n + offset)).text ++ write (List.map _ _)) = _
        rw [tokens_number _ (noDigit_write offset hc cs), hrest hc]
        rfl

theorem tokens_renumber (text : List Char) :
    tokens (renumber offset text) = (tokens text).map (Token.move offset) := tokens_write offset text .plain

/-- A text ends where no digit follows. -/
theorem tokens_append {text rest : List Char} (h : NoDigit rest) :
    tokens (text ++ rest) = tokens text ++ tokens rest := by
  have key : ∀ mark, scan mark (text ++ rest) = scan mark text ++ tokens rest := by
    induction text with
    | nil =>
      intro mark
      cases mark with
      | plain => rfl
      | dollar => exact scan_dollar h
      | digits n => exact scan_digits (by simp) h n
    | cons c cs ih =>
      intro mark
      rw [List.cons_append]
      cases mark with
      | plain =>
        rw [scan_plain_cons, scan_plain_cons]
        split_ifs <;> simp [ih]
      | dollar =>
        rw [scan_dollar_cons, scan_dollar_cons]
        split_ifs <;> simp [ih]
      | digits n =>
        rw [scan_digits_cons, scan_digits_cons]
        split_ifs <;> simp [ih]
  exact key .plain

/-- A text of no number is written as it was. -/
theorem write_tokens : ∀ {text : List Char}, (∀ n, .number n ∉ tokens text) → write (tokens text) = text := by
  have key : ∀ (text : List Char), ((∀ n, .number n ∉ scan .plain text) → write (scan .plain text) = text) ∧
      ((∀ n, .number n ∉ scan .dollar text) → write (scan .dollar text) = '$' :: text) := by
    intro text
    induction text with
    | nil => exact ⟨fun _ => rfl, fun _ => rfl⟩
    | cons c cs ih =>
      have hnumber : ∀ n, ∃ m, .number m ∈ scan (.digits n) cs := by
        clear ih
        induction cs with
        | nil => exact fun n => ⟨n, List.mem_singleton_self _⟩
        | cons d cs ih =>
          intro n
          rw [scan_digits_cons]
          by_cases hd : d.isDigit
          · rw [if_pos hd]
            exact ih _
          · rw [if_neg hd]
            exact ⟨n, List.mem_cons_self ..⟩
      constructor
      · intro h
        rw [scan_plain_cons] at h ⊢
        by_cases hc : c = '$'
        · rw [if_pos hc] at h ⊢
          rw [ih.2 h, hc]
        · rw [if_neg hc] at h ⊢
          exact congrArg (c :: ·) (ih.1 fun n hn => h n (List.mem_cons_of_mem _ hn))
      · intro h
        rw [scan_dollar_cons] at h ⊢
        by_cases hd : c.isDigit
        · rw [if_pos hd] at h
          obtain ⟨m, hm⟩ := hnumber (digitValue c)
          exact absurd hm (h m)
        · rw [if_neg hd] at h ⊢
          by_cases hc : c = '$'
          · rw [if_pos hc] at h ⊢
            rw [hc]
            exact congrArg ('$' :: ·) (ih.2 fun n hn => h n (List.mem_cons_of_mem _ hn))
          · rw [if_neg hc] at h ⊢
            refine congrArg ('$' :: ·) (congrArg (c :: ·) (ih.1 fun n hn => h n ?_))
            exact List.mem_cons_of_mem _ (List.mem_cons_of_mem _ hn)
  exact fun {_} h => (key _).1 h

/-- A text without numbers. -/
def bare (text : List Char) : Bool := (tokens text).all fun t => t matches .char _

theorem not_mem_of_bare {text : List Char} (h : bare text) (n : Nat) : .number n ∉ tokens text := fun hn =>
  Bool.false_ne_true (List.all_eq_true.mp h _ hn)

theorem renumber_eq_self {text : List Char} (hbare : bare text) : renumber offset text = text := by
  have h := not_mem_of_bare hbare
  have hmove : (tokens text).map (Token.move offset) = tokens text := by
    conv_rhs => rw [← List.map_id (tokens text)]
    apply List.map_congr_left
    intro t ht
    cases t with
    | char c => rfl
    | number n => exact absurd ht (h n)
  rw [renumber, hmove, write_tokens h]

theorem renumber_number (n : Nat) {rest : List Char} (h : NoDigit rest) :
    renumber offset ((Token.number n).text ++ rest) = (Token.number (n + offset)).text ++ renumber offset rest := by
  rw [renumber, tokens_number n h]
  rfl

theorem renumber_append {text rest : List Char} (h : NoDigit rest) :
    renumber offset (text ++ rest) = renumber offset text ++ renumber offset rest := by
  simp only [renumber, tokens_append h, write, List.map_append, List.flatMap_append]

theorem renumber_bare_append {text rest : List Char} (hbare : bare text) (h : NoDigit rest) :
    renumber offset (text ++ rest) = text ++ renumber offset rest := by
  rw [renumber_append offset h, renumber_eq_self offset hbare]

/-- A character that is neither a `$` nor a digit parts a text. -/
theorem renumber_append_cons {c : Char} (hdollar : c ≠ '$') (hdigit : c.isDigit = false) (text rest : List Char) :
    renumber offset (text ++ c :: rest) = renumber offset text ++ c :: renumber offset rest := by
  rw [renumber_append offset (noDigit_cons hdigit rest), renumber, renumber, renumber, tokens_char hdollar]
  rfl

end

/-- A character of a text, or the value in its place. -/
inductive Symbol (α : Type*) where
  | char (c : Char)
  | value (v : Option α)

section

variable {α : Type*}

def Token.fill (values : List α) : Token → Symbol α
  | .char c => .char c
  | .number n => .value values[n - 1]?

/-- What a text says with these values. -/
def fill (text : List Char) (values : List α) : List (Symbol α) := (tokens text).map (Token.fill values)

/-- A text that names these many values. -/
def Within (count : Nat) (text : List Char) : Prop := ∀ n, .number n ∈ tokens text → 0 < n ∧ n ≤ count

theorem Within.renumber {count : Nat} {text : List Char} (h : Within count text) (offset : Nat) :
    Within (offset + count) (renumber offset text) := by
  intro n hn
  rw [tokens_renumber, List.mem_map] at hn
  obtain ⟨t, ht, hmove⟩ := hn
  cases t with
  | char c => cases hmove
  | number k =>
    obtain rfl : k + offset = n := by simpa [Token.move] using hmove
    have := h k ht
    omega

theorem Within.mono {count count' : Nat} {text : List Char} (h : Within count text) (hle : count ≤ count') :
    Within count' text := fun n hn => ⟨(h n hn).1, Nat.le_trans (h n hn).2 hle⟩

/-- Values a text does not name change nothing. -/
theorem fill_append {text : List Char} {values : List α} (h : Within values.length text) (after : List α) :
    fill text (values ++ after) = fill text values := by
  apply List.map_congr_left
  intro t ht
  cases t with
  | char c => rfl
  | number n =>
    obtain ⟨hpos, hle⟩ := h n ht
    show Symbol.value _ = Symbol.value _
    rw [List.getElem?_append_left (by omega)]

/-- A moved text says with moved values what it said before. -/
theorem fill_renumber {text : List Char} {values : List α} (h : Within values.length text)
    (before after : List α) :
    fill (renumber before.length text) (before ++ values ++ after) = fill text values := by
  rw [fill, tokens_renumber, List.map_map, fill]
  apply List.map_congr_left
  intro t ht
  cases t with
  | char c => rfl
  | number n =>
    obtain ⟨hpos, hle⟩ := h n ht
    show Symbol.value _ = Symbol.value _
    have hn : n + before.length - 1 = before.length + (n - 1) := by omega
    rw [hn, List.append_assoc, List.getElem?_append_right (by omega), Nat.add_sub_cancel_left,
      List.getElem?_append_left (by omega)]

end

end Placeholders

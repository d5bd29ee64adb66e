import Norbital.Lib.JsonTree

/-!
# PostgreSQL text on the wire

The reader of one-dimensional arrays and the inlining of parameters of
`bolt/src/engine/db/wire.ts`.  A position in a text is the text from there on; a loop that
never ends gives none.  The text of a number in an error is the parameter `number`.
-/

namespace Norbital.Bolt.Wire

open JsNumber (isDigit)

def apostrophe : CodeUnit := 39

def quote : CodeUnit := 34

def backslash : CodeUnit := 92

def comma : CodeUnit := 44

/-- `for (i++; s[i] !== '"'; i++) v += s[i] === '\\' ? s[++i] : s[i]; i++`: past the end of the
text no quote comes. -/
def quotedRun : JsString → Option (JsString × JsString)
  | [] => none
  | c :: rest =>
    if c = quote then some ([], rest)
    else if c = backslash then
      match rest with
      | [] => none
      | d :: rest => (quotedRun rest).map fun r => (d :: r.1, r.2)
    else (quotedRun rest).map fun r => (c :: r.1, r.2)

/-- `for (; s[i] !== ',' && i < s.length - 1; i++) v += s[i]`. -/
def bareRun : JsString → JsString × JsString
  | [] => ([], [])
  | [c] => ([], [c])
  | c :: d :: rest =>
    if c = comma then ([], c :: d :: rest)
    else
      let r := bareRun (d :: rest)
      (c :: r.1, r.2)

theorem length_quotedRun {s : JsString} {r : JsString × JsString} (h : quotedRun s = some r) : r.2.length < s.length := by
  fun_induction quotedRun s generalizing r with
  | case1 => cases h
  | case2 => cases h; exact Nat.lt_succ_self _
  | case3 => cases h
  | case4 _ d rest ih =>
    obtain ⟨r', hr, rfl⟩ := Option.map_eq_some_iff.mp h
    exact (ih hr).trans (by simp)
  | case5 c rest _ _ ih =>
    obtain ⟨r', hr, rfl⟩ := Option.map_eq_some_iff.mp h
    exact (ih hr).trans (Nat.lt_succ_self _)

theorem length_bareRun (s : JsString) : (bareRun s).2.length ≤ s.length := by
  fun_induction bareRun s with
  | case1 => exact le_rfl
  | case2 => exact le_rfl
  | case3 => exact le_rfl
  | case4 c d rest _ r ih => exact ih.trans (Nat.le_succ _)

/-- The text of a null element. -/
def null : JsString := [78, 85, 76, 76]

/-- `while (i < s.length - 1)`: the elements from a position on, none for a null. -/
def elements : JsString → Option (List (Option JsString))
  | [] | [_] => some []
  | c :: d :: rest =>
    if c = quote then
      match _h : quotedRun (d :: rest) with
      | none => none
      | some r => (elements (r.2.drop 1)).map (some r.1 :: ·)
    else
      let r := bareRun (c :: d :: rest)
      (elements (r.2.drop 1)).map ((if r.1 = null then none else some r.1) :: ·)
termination_by s => s.length
decreasing_by
  · have hlen := length_quotedRun _h
    rw [List.length_drop, List.length_cons]
    omega
  · have hlen := length_bareRun (c :: d :: rest)
    rw [List.length_drop]
    rw [List.length_cons] at hlen ⊢
    omega

/-- `array`: each element but a null is read by `each`. -/
def array {α : Type} (nil : α) (each : JsString → α) (s : JsString) : Option (List α) :=
  (elements (s.drop 1)).map fun es => es.map fun e => e.elim nil each

def lower (c : CodeUnit) : CodeUnit := if 65 ≤ c ∧ c ≤ 90 then c + 32 else c

/-- The characters `array_out` quotes an element for: a quote, a backslash, a brace, a comma or a blank. -/
def isSpecial (c : CodeUnit) : Bool :=
  c == quote || c == backslash || c == 123 || c == 125 || c == comma || c == 32 || (9 ≤ c && c ≤ 13)

/-- An element that is quoted: no text, the text `NULL` in any case, or one with a special character. -/
def needsQuote (e : JsString) : Bool := e.isEmpty || e.map lower == null.map lower || e.any isSpecial

def escape (c : CodeUnit) : JsString := if c = quote ∨ c = backslash then [backslash, c] else [c]

def elementOut : Option JsString → JsString
  | none => null
  | some e => if needsQuote e then quote :: e.flatMap escape ++ [quote] else e

/-- The elements after the first, and the closing brace. -/
def moreOut : List (Option JsString) → JsString
  | [] => [125]
  | e :: es => comma :: elementOut e ++ moreOut es

/-- `array_out`. -/
def arrayOut : List (Option JsString) → JsString
  | [] => [123, 125]
  | e :: es => 123 :: elementOut e ++ moreOut es

theorem quotedRun_escape (c : CodeUnit) (t : JsString) :
    quotedRun (escape c ++ t) = (quotedRun t).map fun r => (c :: r.1, r.2) := by
  rw [escape]
  split_ifs with h
  · rfl
  · obtain ⟨hquote, hback⟩ := not_or.mp h
    rw [List.singleton_append, quotedRun.eq_def]
    dsimp only
    rw [if_neg hquote, if_neg hback]

theorem quotedRun_body (e rest : JsString) : quotedRun (e.flatMap escape ++ quote :: rest) = some (e, rest) := by
  induction e with
  | nil =>
    rw [List.flatMap_nil, List.nil_append, quotedRun.eq_def]
    exact if_pos rfl
  | cons c e ih =>
    rw [List.flatMap_cons, List.append_assoc, quotedRun_escape, ih]
    rfl

/-- A run of characters that are no comma ends at a comma, or at the last character of the text. -/
theorem bareRun_append {e : JsString} (he : comma ∉ e) {c : CodeUnit} {rest : JsString} (hc : c = comma ∨ rest = []) :
    bareRun (e ++ c :: rest) = (e, c :: rest) := by
  induction e with
  | nil =>
    cases rest with
    | nil => rfl
    | cons d rest =>
      obtain rfl : c = comma := hc.resolve_right (List.cons_ne_nil _ _)
      rfl
  | cons a e ih =>
    obtain ⟨hne, he⟩ := List.ne_and_not_mem_of_not_mem_cons he
    obtain ⟨d, t, ht⟩ : ∃ d t, e ++ c :: rest = d :: t := List.exists_cons_of_ne_nil (by simp)
    rw [List.cons_append, ht, bareRun, if_neg (Ne.symm hne), ← ht, ih he]

theorem not_mem_of_needsQuote {e : JsString} (h : needsQuote e = false) :
    e ≠ [] ∧ e ≠ null ∧ ∀ c ∈ e, isSpecial c = false := by
  rw [needsQuote, Bool.or_eq_false_iff, Bool.or_eq_false_iff, List.any_eq_false] at h
  obtain ⟨⟨hne, hnull⟩, hall⟩ := h
  refine ⟨List.isEmpty_eq_false_iff.mp hne, ?_, fun c hc => eq_false_of_ne_true (hall c hc)⟩
  rintro rfl
  exact absurd hnull (by decide)

/-- An element is read to the comma after it, or to the closing brace. -/
theorem elements_elementOut (x : Option JsString) {c : CodeUnit} {rest : JsString} (hc : c = comma ∨ rest = []) :
    elements (elementOut x ++ c :: rest) = (elements rest).map (x :: ·) := by
  have hbare : ∀ e : JsString, e ≠ [] → (∀ a ∈ e, isSpecial a = false) →
      elements (e ++ c :: rest) = (elements rest).map ((if e = null then none else some e) :: ·) := by
    intro e hne hspecial
    have hcomma : comma ∉ e := fun hmem => absurd (hspecial comma hmem) (by decide)
    have hrun := bareRun_append hcomma hc
    obtain ⟨a, t, rfl⟩ := List.exists_cons_of_ne_nil hne
    have hquote : a ≠ quote := by
      rintro rfl
      exact absurd (hspecial quote List.mem_cons_self) (by decide)
    obtain ⟨d, u, hu⟩ : ∃ d u, t ++ c :: rest = d :: u := List.exists_cons_of_ne_nil (by simp)
    rw [List.cons_append, hu] at hrun ⊢
    rw [elements, if_neg hquote, hrun]
    rfl
  cases x with
  | none => exact hbare null (by decide) (JsString.forall_of_all (by decide))
  | some e =>
    rw [elementOut]
    split_ifs with hquote
    · have hrun : quotedRun (e.flatMap escape ++ quote :: c :: rest) = some (e, c :: rest) := quotedRun_body e _
      obtain ⟨d, u, hu⟩ : ∃ d u, e.flatMap escape ++ quote :: c :: rest = d :: u := List.exists_cons_of_ne_nil (by simp)
      have htext : quote :: e.flatMap escape ++ [quote] ++ c :: rest = quote :: d :: u := by
        rw [← hu]
        simp
      rw [htext, elements, if_pos rfl]
      rw [hu] at hrun
      split
      · rename_i hnone
        cases hnone.symm.trans hrun
      · rename_i r hsome
        obtain rfl := Option.some.inj (hsome.symm.trans hrun)
        rfl
    · obtain ⟨hne, hnull, hspecial⟩ := not_mem_of_needsQuote (eq_false_of_ne_true hquote)
      rw [hbare e hne hspecial, if_neg hnull]

theorem elements_moreOut (x : Option JsString) (xs : List (Option JsString)) :
    elements (elementOut x ++ moreOut xs) = some (x :: xs) := by
  induction xs generalizing x with
  | nil =>
    rw [moreOut, elements_elementOut x (.inr rfl), elements]
    rfl
  | cons y ys ih =>
    rw [moreOut, List.cons_append, elements_elementOut x (.inl rfl), ih y]
    rfl

/-- What PostgreSQL writes of a list is read as the list. -/
theorem array_arrayOut {α : Type} (nil : α) (each : JsString → α) (xs : List (Option JsString)) :
    array nil each (arrayOut xs) = some (xs.map fun x => x.elim nil each) := by
  cases xs with
  | nil =>
    rw [array, arrayOut, List.drop_one, List.tail_cons, elements]
    rfl
  | cons x xs =>
    rw [array, arrayOut, List.drop_one, List.cons_append, List.tail_cons, elements_moreOut]
    rfl

def dollar : CodeUnit := 36

/-- A parameter as PostgreSQL text; a null has none. -/
def param : JsonTree → Option JsString
  | .null => none
  | .string s => some s
  | v => some v.text

/-- `p.replaceAll("'", "''")`. -/
def doubled (mark : CodeUnit) (p : JsString) : JsString := p.flatMap fun c => if c = mark then [mark, mark] else [c]

def literal (v : JsonTree) : JsString :=
  match param v with
  | none => .ascii "null"
  | some p => apostrophe :: doubled apostrophe p ++ [apostrophe]

structure DbError where
  sqlstate : String
  message : JsString

def noValue (number : ℕ → JsString) (n : ℕ) : DbError :=
  ⟨"08P01", .ascii "parameter $" ++ number n ++ .ascii " has no value"⟩

/-- What a call gives: none where it never returns. -/
abbrev Outcome := Option (Except DbError JsString)

/-- `out += s`, before the rest of the loop. -/
def emit (s : JsString) (o : Outcome) : Outcome := o.map fun r => (s ++ ·) <$> r

/-- The loop of `inline` from a position on.  Without its closing quote a quoted run ends at the
position before the text: the loop starts again, for ever. -/
def inlineFrom (number : ℕ → JsString) (params : List JsonTree) : JsString → Outcome
  | [] => some (.ok [])
  | c :: rest =>
    if c = apostrophe ∨ c = quote then
      match _h : rest.dropWhile (· != c) with
      | [] => none
      | _ :: after => emit (c :: rest.takeWhile (· != c) ++ [c]) (inlineFrom number params after)
    else if c = dollar ∧ rest.takeWhile isDigit ≠ [] then
      let n := JsNumber.value (rest.takeWhile isDigit)
      if n < 1 then some (.error (noValue number n))
      else match params[n - 1]? with
        | none => some (.error (noValue number n))
        | some v => emit (literal v) (inlineFrom number params (rest.dropWhile isDigit))
    else emit [c] (inlineFrom number params rest)
termination_by s => s.length
decreasing_by
  · have hlen := congrArg List.length _h
    have hle := (List.dropWhile_suffix (l := rest) (· != c)).length_le
    rw [List.length_cons] at hlen
    rw [List.length_cons]
    omega
  · have hle := (List.dropWhile_suffix (l := rest) isDigit).length_le
    rw [List.length_cons]
    omega
  · exact Nat.lt_succ_self _

structure Sql where
  text : JsString
  params : List JsonTree

/-- `inline`. -/
def inline (number : ℕ → JsString) (s : Sql) : Outcome :=
  if s.params = [] then some (.ok s.text) else inlineFrom number s.params s.text

/-- A token of a statement; a quote inside quotes is doubled. -/
inductive Token where
  | string (body : JsString)
  | identifier (body : JsString)
  | parameter (digits : JsString)
  | other (c : CodeUnit)

namespace Token

def text : Token → JsString
  | string body => apostrophe :: doubled apostrophe body ++ [apostrophe]
  | identifier body => quote :: doubled quote body ++ [quote]
  | parameter digits => dollar :: digits
  | other c => [c]

/-- A token by itself: another character is no quote, and a parameter is written with digits. -/
def WellFormed : Token → Prop
  | parameter digits => digits ≠ [] ∧ ∀ c ∈ digits, isDigit c
  | other c => c ≠ apostrophe ∧ c ≠ quote
  | _ => True

/-- A token that digits after it would run on into. -/
def Open : Token → Prop
  | parameter _ => True
  | other c => c = dollar
  | _ => False

def StartsWithDigit : Token → Prop
  | other c => isDigit c
  | _ => False

instance (t : Token) : Decidable t.WellFormed :=
  match t with
  | string _ => inferInstanceAs (Decidable True)
  | identifier _ => inferInstanceAs (Decidable True)
  | parameter digits => @instDecidableAnd (digits ≠ []) (∀ c ∈ digits, isDigit c) inferInstance (List.decidableBAll _ digits)
  | other c => inferInstanceAs (Decidable (c ≠ apostrophe ∧ c ≠ quote))

instance (t : Token) : Decidable t.Open :=
  match t with
  | string _ => inferInstanceAs (Decidable False)
  | identifier _ => inferInstanceAs (Decidable False)
  | parameter _ => inferInstanceAs (Decidable True)
  | other c => inferInstanceAs (Decidable (c = dollar))

instance (t : Token) : Decidable t.StartsWithDigit :=
  match t with
  | string _ => inferInstanceAs (Decidable False)
  | identifier _ => inferInstanceAs (Decidable False)
  | parameter _ => inferInstanceAs (Decidable False)
  | other c => inferInstanceAs (Decidable (isDigit c = true))

/-- The number of a parameter. -/
def number : Token → Option ℕ
  | parameter digits => some (JsNumber.value digits)
  | _ => none

/-- The value of the parameter of a number. -/
def valueOf (params : List JsonTree) (n : ℕ) : Option JsonTree := if n < 1 then none else params[n - 1]?

/-- A token with the literal of its parameter in its place. -/
def inlined (params : List JsonTree) (t : Token) : JsString :=
  match t.number with
  | none => t.text
  | some n => ((valueOf params n).map literal).getD []

/-- A parameter without a value. -/
def Missing (params : List JsonTree) (t : Token) : Prop := ∃ n, t.number = some n ∧ valueOf params n = none

end Token

/-- The tokens of a statement, each as long as it can be. -/
structure Statement where
  tokens : List Token
  wellFormed : ∀ t ∈ tokens, t.WellFormed
  apart : tokens.IsChain fun t u => t.Open → ¬ u.StartsWithDigit

def Statement.text (s : Statement) : JsString := s.tokens.flatMap Token.text

/-- A string literal read: a quote inside it is doubled. -/
def readString : JsString → Option JsString
  | [] => none
  | [c] => if c = apostrophe then some [] else none
  | c :: d :: rest =>
    if c = apostrophe then
      if d = apostrophe then (readString rest).map (apostrophe :: ·) else none
    else (readString (d :: rest)).map (c :: ·)

/-- A literal read: a null, or the text of a string. -/
def readLiteral : JsString → Option (Option JsString)
  | [] => none
  | c :: rest =>
    if c = apostrophe then (readString rest).map some
    else if c :: rest = JsString.ascii "null" then some none else none

theorem emit_emit (s t : JsString) (o : Outcome) : emit s (emit t o) = emit (s ++ t) o := by
  cases o with
  | none => rfl
  | some r =>
    cases r with
    | error e => rfl
    | ok u =>
      show some (Except.ok (s ++ (t ++ u))) = some (Except.ok (s ++ t ++ u))
      rw [List.append_assoc]

@[simp] theorem emit_ok (s t : JsString) : emit s (some (.ok t)) = some (.ok (s ++ t)) := rfl

@[simp] theorem emit_error (s : JsString) (e : DbError) : emit s (some (.error e)) = some (.error e) := rfl

section

variable (number : ℕ → JsString) (params : List JsonTree) {mark : CodeUnit} {rest : JsString}

/-- A quoted run is taken as it stands. -/
theorem inlineFrom_run (hmark : mark = apostrophe ∨ mark = quote) {run : JsString} (hrun : mark ∉ run) :
    inlineFrom number params (mark :: run ++ mark :: rest) = emit (mark :: run ++ [mark]) (inlineFrom number params rest) := by
  have hall : ∀ c ∈ run, (c != mark) = true := fun c hc => bne_iff_ne.mpr fun h => hrun (h ▸ hc)
  have htake : (run ++ mark :: rest).takeWhile (· != mark) = run := by
    rw [List.takeWhile_append_of_pos hall, List.takeWhile_cons_of_neg (by simp), List.append_nil]
  have hdrop : (run ++ mark :: rest).dropWhile (· != mark) = mark :: rest := by
    rw [List.dropWhile_append_of_pos hall, List.dropWhile_cons_of_neg (by simp)]
  rw [List.cons_append, inlineFrom, if_pos hmark]
  split
  · rename_i hnil
    cases hnil.symm.trans hdrop
  · rename_i hcons
    obtain ⟨-, rfl⟩ := List.cons.inj (hcons.symm.trans hdrop)
    rw [htake]

/-- A doubled quote ends one run and begins the next. -/
theorem inlineFrom_doubled (hmark : mark = apostrophe ∨ mark = quote) (body : JsString) {run : JsString}
    (hrun : mark ∉ run) :
    inlineFrom number params (mark :: run ++ doubled mark body ++ mark :: rest) =
      emit (mark :: run ++ doubled mark body ++ [mark]) (inlineFrom number params rest) := by
  induction body generalizing run with
  | nil =>
    rw [doubled, List.flatMap_nil, List.append_nil]
    exact inlineFrom_run number params hmark hrun
  | cons c body ih =>
    rw [doubled, List.flatMap_cons]
    by_cases hc : c = mark
    · have hnext := ih (List.not_mem_nil (a := mark))
      rw [if_pos hc]
      have htext : mark :: run ++ ([mark, mark] ++ doubled mark body) ++ mark :: rest =
          mark :: run ++ mark :: (mark :: [] ++ doubled mark body ++ mark :: rest) := by simp
      show inlineFrom number params (mark :: run ++ ([mark, mark] ++ doubled mark body) ++ mark :: rest) = _
      rw [htext, inlineFrom_run number params hmark hrun, hnext, emit_emit]
      congr 1
      simp [doubled]
    · rw [if_neg hc]
      have hrun' : mark ∉ run ++ [c] := by
        rw [List.mem_append, List.mem_singleton, not_or]
        exact ⟨hrun, Ne.symm hc⟩
      have hnext := ih hrun'
      simp only [List.append_assoc, List.cons_append, List.nil_append, doubled] at hnext ⊢
      exact hnext

theorem inlineFrom_other {c : CodeUnit} (hc : c ≠ apostrophe ∧ c ≠ quote)
    (hrest : c = dollar → ∀ d ∈ rest.head?, ¬ isDigit d) :
    inlineFrom number params (c :: rest) = emit [c] (inlineFrom number params rest) := by
  have hparameter : ¬ (c = dollar ∧ rest.takeWhile isDigit ≠ []) := by
    rintro ⟨hdollar, hdigits⟩
    cases rest with
    | nil => exact hdigits rfl
    | cons d rest => exact hdigits (List.takeWhile_cons_of_neg (hrest hdollar d rfl))
  rw [inlineFrom, if_neg (not_or.mpr hc), if_neg hparameter]

theorem inlineFrom_parameter {digits : JsString} (hne : digits ≠ []) (hdigits : ∀ c ∈ digits, isDigit c)
    (hrest : ∀ d ∈ rest.head?, ¬ isDigit d) :
    inlineFrom number params (dollar :: digits ++ rest) = match Token.valueOf params (JsNumber.value digits) with
      | none => some (.error (noValue number (JsNumber.value digits)))
      | some v => emit (literal v) (inlineFrom number params rest) := by
  have hstop : rest.takeWhile isDigit = [] ∧ rest.dropWhile isDigit = rest := by
    cases rest with
    | nil => exact ⟨rfl, rfl⟩
    | cons d rest => exact ⟨List.takeWhile_cons_of_neg (hrest d rfl), List.dropWhile_cons_of_neg (hrest d rfl)⟩
  have htake : (digits ++ rest).takeWhile isDigit = digits := by
    rw [List.takeWhile_append_of_pos hdigits, hstop.1, List.append_nil]
  have hdrop : (digits ++ rest).dropWhile isDigit = rest := by
    rw [List.dropWhile_append_of_pos hdigits, hstop.2]
  rw [List.cons_append, inlineFrom, if_neg (by decide), if_pos ⟨rfl, by rwa [htake]⟩, htake, hdrop, Token.valueOf]
  dsimp only
  split_ifs
  · rfl
  · rfl

/-- A token is passed over, or a parameter replaced. -/
theorem inlineFrom_token {t : Token} (hwf : t.WellFormed) (hrest : t.Open → ∀ d ∈ rest.head?, ¬ isDigit d) :
    (¬ t.Missing params → inlineFrom number params (t.text ++ rest) = emit (t.inlined params) (inlineFrom number params rest)) ∧
      (t.Missing params → ∃ e, inlineFrom number params (t.text ++ rest) = some (.error e)) := by
  cases t with
  | string body =>
    refine ⟨fun _ => ?_, fun ⟨n, hn, _⟩ => nomatch hn⟩
    have := @inlineFrom_doubled number params apostrophe rest (.inl rfl) body [] List.not_mem_nil
    simpa [Token.text, Token.inlined, Token.number] using this
  | identifier body =>
    refine ⟨fun _ => ?_, fun ⟨n, hn, _⟩ => nomatch hn⟩
    have := @inlineFrom_doubled number params quote rest (.inr rfl) body [] List.not_mem_nil
    simpa [Token.text, Token.inlined, Token.number] using this
  | parameter digits =>
    have hscan := inlineFrom_parameter number params hwf.1 hwf.2 (hrest trivial)
    refine ⟨fun hpresent => ?_, fun ⟨n, hn, hnone⟩ => ?_⟩
    · cases hvalue : Token.valueOf params (JsNumber.value digits) with
      | none => exact absurd ⟨_, rfl, hvalue⟩ hpresent
      | some v =>
        rw [hvalue] at hscan
        rw [Token.inlined, Token.number]
        dsimp only
        rw [hvalue]
        exact hscan
    · obtain rfl := Option.some.inj hn
      rw [hnone] at hscan
      exact ⟨_, hscan⟩
  | other c =>
    refine ⟨fun _ => ?_, fun ⟨n, hn, _⟩ => nomatch hn⟩
    exact inlineFrom_other number params hwf hrest

end

theorem head_not_digit {u : Token} (hwf : u.WellFormed) (h : ¬ u.StartsWithDigit) (rest : JsString) :
    ∀ d ∈ (u.text ++ rest).head?, ¬ isDigit d := by
  cases u with
  | string body =>
    rintro d ⟨⟩
    decide
  | identifier body =>
    rintro d ⟨⟩
    decide
  | parameter digits =>
    rintro d ⟨⟩
    decide
  | other c =>
    rintro d ⟨⟩
    exact h

/-- A whole statement is passed over, each parameter replaced; one without a value is refused. -/
theorem inlineFrom_tokens (number : ℕ → JsString) (params : List JsonTree) {ts : List Token} (hwf : ∀ t ∈ ts, t.WellFormed)
    (happart : ts.IsChain fun t u => t.Open → ¬ u.StartsWithDigit) :
    ((∀ t ∈ ts, ¬ t.Missing params) →
      inlineFrom number params (ts.flatMap Token.text) = some (.ok (ts.flatMap (Token.inlined params)))) ∧
      ((∃ t ∈ ts, t.Missing params) → ∃ e, inlineFrom number params (ts.flatMap Token.text) = some (.error e)) := by
  induction ts with
  | nil =>
    refine ⟨fun _ => ?_, fun ⟨t, ht, _⟩ => nomatch ht⟩
    rw [List.flatMap_nil, List.flatMap_nil, inlineFrom]
  | cons t ts ih =>
    obtain ⟨hall, hsome⟩ := ih (fun u hu => hwf u (List.mem_cons_of_mem _ hu)) happart.tail
    have hrest : t.Open → ∀ d ∈ (ts.flatMap Token.text).head?, ¬ isDigit d := by
      intro hopen
      cases ts with
      | nil => nofun
      | cons u ts =>
        have hapart := (List.isChain_cons_cons.mp happart).1
        exact head_not_digit (hwf u (by simp)) (hapart hopen) _
    obtain ⟨hpass, hrefuse⟩ := inlineFrom_token number params (hwf t List.mem_cons_self) hrest
    rw [List.flatMap_cons, List.flatMap_cons]
    constructor
    · intro hpresent
      rw [hpass (hpresent t List.mem_cons_self), hall fun u hu => hpresent u (List.mem_cons_of_mem _ hu), emit_ok]
    · rintro ⟨u, hu, hmissing⟩
      by_cases ht : t.Missing params
      · exact hrefuse ht
      · obtain rfl | hu := List.mem_cons.mp hu
        · exact absurd hmissing ht
        · obtain ⟨e, he⟩ := hsome ⟨u, hu, hmissing⟩
          rw [hpass ht, he, emit_error]
          exact ⟨e, rfl⟩

theorem readString_doubled (p : JsString) : readString (doubled apostrophe p ++ [apostrophe]) = some p := by
  induction p with
  | nil => rfl
  | cons c p ih =>
    rw [doubled, List.flatMap_cons, ← doubled]
    by_cases hc : c = apostrophe
    · rw [if_pos hc, hc]
      show readString (apostrophe :: apostrophe :: (doubled apostrophe p ++ [apostrophe])) = _
      rw [readString, if_pos rfl, if_pos rfl, ih]
      rfl
    · obtain ⟨d, t, ht⟩ : ∃ d t, doubled apostrophe p ++ [apostrophe] = d :: t := List.exists_cons_of_ne_nil (by simp)
      rw [if_neg hc, List.append_assoc, List.singleton_append, ht, readString, if_neg hc, ← ht, ih]
      rfl

/-- A literal reads back as its parameter's text, or as a null. -/
theorem readLiteral_literal (v : JsonTree) : readLiteral (literal v) = some (param v) := by
  rw [literal]
  cases param v with
  | none => rfl
  | some p =>
    show readLiteral (apostrophe :: (doubled apostrophe p ++ [apostrophe])) = _
    rw [readLiteral, if_pos rfl, readString_doubled]
    rfl

/-- What is asked of a statement's inlining. -/
structure Inlines (number : ℕ → JsString) (s : Statement) (params : List JsonTree) : Prop where
  replaced : (∀ t ∈ s.tokens, ¬ t.Missing params) →
    inline number ⟨s.text, params⟩ = some (.ok (s.tokens.flatMap (Token.inlined params)))
  missing : (∃ t ∈ s.tokens, t.Missing params) → ∃ e, inline number ⟨s.text, params⟩ = some (.error e)
  literals : ∀ v ∈ params, readLiteral (literal v) = some (param v)

/-- Only a statement given no parameters at all keeps those it names. -/
theorem inlines_iff (number : ℕ → JsString) (s : Statement) (params : List JsonTree) :
    Inlines number s params ↔ params ≠ [] ∨ ∀ t ∈ s.tokens, t.number = none := by
  constructor
  · intro h
    by_contra hbad
    obtain ⟨hnil, hparameter⟩ := not_or.mp hbad
    obtain rfl := not_not.mp hnil
    obtain ⟨t, ht⟩ := not_forall.mp hparameter
    obtain ⟨hmem, hnumber⟩ := Classical.not_imp.mp ht
    obtain ⟨n, hn⟩ := Option.ne_none_iff_exists'.mp hnumber
    have hmissing : t.Missing [] := by
      refine ⟨n, hn, ?_⟩
      rw [Token.valueOf]
      split_ifs <;> rfl
    obtain ⟨e, he⟩ := h.missing ⟨t, hmem, hmissing⟩
    cases he
  · intro h
    obtain ⟨hall, hsome⟩ := inlineFrom_tokens number params s.wellFormed s.apart
    by_cases hnil : params = []
    · subst hnil
      have hnone := h.resolve_left fun hne => hne rfl
      refine ⟨fun _ => ?_, fun ⟨t, ht, n, hn, _⟩ => ?_, nofun⟩
      · have hsame : s.tokens.flatMap (Token.inlined []) = s.text := by
          refine List.flatMap_congr fun t ht => ?_
          rw [Token.inlined, hnone t ht]
        rw [hsame]
        rfl
      · cases hn.symm.trans (hnone t ht)
    · have hloop : inline number ⟨s.text, params⟩ = inlineFrom number params s.text := if_neg hnil
      exact ⟨fun hpresent => hloop.trans (hall hpresent), fun hmissing => by rw [hloop]; exact hsome hmissing,
        fun v _ => readLiteral_literal v⟩

/-- `select $1` without its parameter. -/
def selectOne : Statement where
  tokens := (JsString.ascii "select ").map .other ++ [.parameter [49]]
  wellFormed := by decide
  apart := by decide

/-- A number's decimal digits. -/
def plain (n : ℕ) : JsString := .ascii (toString n)

/-- The parameter of a statement given none stays in its text. -/
theorem inline_selectOne :
    inline plain ⟨selectOne.text, []⟩ = some (.ok (JsString.ascii "select $1")) ∧ ¬ Inlines plain selectOne [] := by
  have htext : selectOne.text = JsString.ascii "select $1" := by decide
  refine ⟨congrArg (fun t => some (Except.ok t)) htext, fun h => ?_⟩
  obtain ⟨e, he⟩ := h.missing ⟨.parameter [49], by simp [selectOne], 1, rfl, rfl⟩
  cases he

end Norbital.Bolt.Wire

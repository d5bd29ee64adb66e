import Mathlib.Data.List.TakeWhile
import Norbital.Lib.Scan

/-!
# The lexical rules of PostgreSQL

How the server cuts a text into lexemes: white space and comments, identifiers,
numbers, quoted strings with their prefixes and continuations, dollar quotes and
single symbols.  Every lexeme keeps its characters, so the lexemes of a text put
together are the text.

An operator is read symbol by symbol: a comment that opens inside it ends it
either way.  A number is read in pieces, at its point and the sign of its
exponent.  The malformed texts the rules name are refused with `none`: a quote or
a comment left open, a letter glued to a number.  What an escape stands for is
left to a reader of the values.
-/

namespace SqlLex

def isNewline (c : Char) : Bool := c == '\n' || c == '\r'

def isBlank (c : Char) : Bool := c == ' ' || c == '\t' || c == '\x0b' || c == '\x0c' || isNewline c

/-- A letter, an underscore, or anything above ASCII. -/
def isIdentStart (c : Char) : Bool := c.isAlpha || c == '_' || decide (128 ≤ c.toNat)

/-- What may follow in a dollar quote's tag. -/
def isTagPart (c : Char) : Bool := isIdentStart c || c.isDigit

/-- What may follow in an identifier. -/
def isIdentPart (c : Char) : Bool := isTagPart c || c == '$'

/-- The inside of a block comment with its closing mark, and the rest; `d` comments are open in it. -/
def closeComment : Nat → List Char → Option (List Char × List Char)
  | _, [] => none
  | _, [_] => none
  | d, c :: e :: cs =>
    if c = '/' ∧ e = '*' then (closeComment (d + 1) cs).map fun (body, rest) => (c :: e :: body, rest)
    else if c = '*' ∧ e = '/' then
      if d = 0 then some ([c, e], cs)
      else (closeComment (d - 1) cs).map fun (body, rest) => (c :: e :: body, rest)
    else (closeComment d (e :: cs)).map fun (body, rest) => (c :: body, rest)

/-- The inside of a quoted text, and what follows its closing mark.  A doubled mark stands for one;
with escapes, a backslash keeps the character after it from being read. -/
def closeString (escapes : Bool) (mark : Char) : List Char → Option (List Char × List Char)
  | [] => none
  | c :: cs =>
    if c = mark then
      match cs with
      | [] => some ([], [])
      | d :: ds =>
        if d = mark then (closeString escapes mark ds).map fun (body, rest) => (c :: d :: body, rest)
        else some ([], d :: ds)
    else if escapes && c == '\\' then
      match cs with
      | [] => none
      | d :: ds => (closeString escapes mark ds).map fun (body, rest) => (c :: d :: body, rest)
    else (closeString escapes mark cs).map fun (body, rest) => (c :: body, rest)

/-- The tag of a dollar quote after its first dollar sign, and what follows the second. -/
def dollarTag (cs : List Char) : Option (List Char × List Char) :=
  if (cs.takeWhile isTagPart).head?.all isIdentStart && (cs.dropWhile isTagPart).head? == some '$' then
    some (cs.takeWhile isTagPart, (cs.dropWhile isTagPart).tail)
  else none

/-- What stands before the first `mark` in a text, and what follows it. -/
def closeDollar (mark : List Char) : List Char → Option (List Char × List Char)
  | [] => none
  | c :: cs =>
    if mark.isPrefixOf (c :: cs) then some ([], (c :: cs).drop mark.length)
    else (closeDollar mark cs).map fun (body, rest) => (c :: body, rest)

/-- How a quoted text was opened: the letters before the quote, whether it has escapes, whether it goes
on with the string before it. -/
structure Opening where
  letters : List Char
  escapes : Bool
  continues : Bool
  mark : Char
  deriving DecidableEq, Repr

/-- What was read last, as far as it matters: a string goes on after white space with a line end in it. -/
inductive After where
  | code
  | string (escapes newline : Bool)
  deriving DecidableEq, Repr

namespace After

def blank (c : Char) : After → After
  | code => code
  | string escapes newline => string escapes (newline || isNewline c)

/-- The string a quote here goes on with: whether it has escapes. -/
def continued : After → Option Bool
  | string escapes true => some escapes
  | _ => none

end After

def Opening.after (o : Opening) : After := if o.mark = '\'' then .string o.escapes false else .code

/-- A quoted text that opens here, and its inside. -/
def opening (after : After) : List Char → Option (Opening × List Char)
  | [] => none
  | c :: cs =>
    if c = '\'' then some (⟨[], after.continued.getD false, after.continued.isSome, c⟩, cs)
    else if c = '"' then some (⟨[], false, false, c⟩, cs)
    else
      match cs with
      | [] => none
      | d :: ds =>
        if d = '\'' ∧ c.toLower = 'e' then some (⟨[c], true, false, d⟩, ds)
        else if d = '\'' ∧ c.toLower ∈ ['b', 'x', 'n'] then some (⟨[c], false, false, d⟩, ds)
        else if d = '&' ∧ c.toLower = 'u' then
          match ds with
          | [] => none
          | m :: ms => if m = '\'' ∨ m = '"' then some (⟨[c, d], false, false, m⟩, ms) else none
        else none

/-- The pieces of a number: digits, a prefix with its digits, or digits with an exponent. -/
def isNumeral (cs rest : List Char) : Bool :=
  cs.all Char.isDigit ||
    (rest.head? != some '$' &&
      ((cs.head? == some '0' && cs.tail.head?.any (fun c => decide (c.toLower ∈ ['x', 'o', 'b'])) &&
          cs.tail.tail.all (fun c => c.isDigit || c == '_' || decide (c.toLower ∈ ['a', 'b', 'c', 'd', 'e', 'f']))) ||
        ((cs.dropWhile fun c => c.isDigit || c == '_').head?.all (fun c => c.toLower == 'e') &&
          (cs.dropWhile fun c => c.isDigit || c == '_').tail.all fun c => c.isDigit || c == '_')))

inductive Lexeme where
  | blank (c : Char)
  | line (body : List Char)
  | block (body : List Char)
  | word (cs : List Char)
  | number (cs : List Char)
  | quoted (o : Opening) (body : List Char)
  | dollar (tag body : List Char)
  | symbol (c : Char)
  deriving DecidableEq, Repr

/-- The delimiter of a dollar quote. -/
def delimiter (tag : List Char) : List Char := '$' :: (tag ++ ['$'])

/-- A lexeme's characters, as they stand in the text. -/
def Lexeme.chars : Lexeme → List Char
  | blank c => [c]
  | line body => '-' :: '-' :: body
  | block body => '/' :: '*' :: body
  | word cs => cs
  | number cs => cs
  | quoted o body => o.letters ++ o.mark :: (body ++ [o.mark])
  | dollar tag body => delimiter tag ++ (body ++ delimiter tag)
  | symbol c => [c]

/-- The lexeme at the head of a text. -/
def next (after : After) : List Char → Option (Lexeme × After × List Char)
  | [] => none
  | c :: cs =>
    if isBlank c then some (.blank c, after.blank c, cs)
    else if c = '-' ∧ cs.head? = some '-' then
      some (.line (cs.tail.takeWhile (!isNewline ·)), after, cs.tail.dropWhile (!isNewline ·))
    else if c = '/' ∧ cs.head? = some '*' then
      (closeComment 0 cs.tail).map fun (body, rest) => (.block body, .code, rest)
    else
      match opening after (c :: cs) with
      | some (o, inside) =>
        (closeString o.escapes o.mark inside).map fun (body, rest) => (.quoted o body, o.after, rest)
      | none =>
        if isIdentStart c then
          some (.word (c :: cs.takeWhile isIdentPart), .code, cs.dropWhile isIdentPart)
        else if c.isDigit then
          -- a number with letters glued to it is junk
          if isNumeral (c :: cs.takeWhile isTagPart) (cs.dropWhile isTagPart) then
            some (.number (c :: cs.takeWhile isTagPart), .code, cs.dropWhile isTagPart)
          else none
        else if c = '$' then
          match dollarTag cs with
          | some (tag, inside) =>
            (closeDollar (delimiter tag) inside).map fun (body, rest) => (.dollar tag body, .code, rest)
          | none => some (.symbol c, .code, cs)
        else some (.symbol c, .code, cs)

/-- The lexemes of a text, unless it is malformed. -/
def lexemes (cs : List Char) : Option (List Lexeme) := Scan.run next cs.length .code cs

/-- What the grammar sees; a string's parts are one literal. -/
inductive Token where
  | word (cs : List Char)
  | number (cs : List Char)
  | name (o : Opening) (body : List Char)
  | literal (parts : List (Opening × List Char))
  | dollar (tag body : List Char)
  | symbol (c : Char)
  deriving DecidableEq, Repr

/-- A text inside quotes, each doubled mark taken for one. -/
def undoubled (mark : Char) : List Char → List Char
  | [] => []
  | [c] => [c]
  | c :: d :: cs => if c = mark ∧ d = mark then c :: undoubled mark cs else c :: undoubled mark (d :: cs)

/-- A string put before the tokens after it. -/
def addString (o : Opening) (body : List Char) : List Token → List Token
  | .literal (p :: ps) :: ts =>
    if p.1.continues then .literal ((o, body) :: p :: ps) :: ts
    else .literal [(o, body)] :: .literal (p :: ps) :: ts
  | ts => .literal [(o, body)] :: ts

def tokensOf : List Lexeme → List Token
  | [] => []
  | .blank _ :: ls => tokensOf ls
  | .line _ :: ls => tokensOf ls
  | .block _ :: ls => tokensOf ls
  | .word cs :: ls => .word cs :: tokensOf ls
  | .number cs :: ls => .number cs :: tokensOf ls
  | .quoted o body :: ls =>
    if o.mark = '"' then .name o body :: tokensOf ls else addString o body (tokensOf ls)
  | .dollar tag body :: ls => .dollar tag body :: tokensOf ls
  | .symbol c :: ls => .symbol c :: tokensOf ls

/-- A text's tokens, cut at the semicolons. -/
def statements (ls : List Lexeme) : List (List Token) := (tokensOf ls).splitOnP (· == .symbol ';')

theorem closeComment_eq {d : Nat} {cs body rest : List Char} (h : closeComment d cs = some (body, rest)) :
    cs = body ++ rest := by
  induction d, cs using closeComment.induct generalizing body rest with
  | case1 => simp [closeComment] at h
  | case2 => simp [closeComment] at h
  | case3 d c e cs hopen ih =>
    rw [closeComment, if_pos hopen] at h
    obtain ⟨⟨inner, after⟩, hinner, hpair⟩ := Option.map_eq_some_iff.mp h
    cases hpair
    rw [ih hinner]
    rfl
  | case4 c e cs hopen hclose =>
    rw [closeComment, if_neg hopen, if_pos hclose, if_pos rfl] at h
    cases h
    rfl
  | case5 d c e cs hopen hclose hd ih =>
    rw [closeComment, if_neg hopen, if_pos hclose, if_neg hd] at h
    obtain ⟨⟨inner, after⟩, hinner, hpair⟩ := Option.map_eq_some_iff.mp h
    cases hpair
    rw [ih hinner]
    rfl
  | case6 d c e cs hopen hclose ih =>
    rw [closeComment, if_neg hopen, if_neg hclose] at h
    obtain ⟨⟨inner, after⟩, hinner, hpair⟩ := Option.map_eq_some_iff.mp h
    cases hpair
    rw [ih hinner]
    rfl

/-- A block comment ends with its closing mark. -/
theorem getLast?_of_closeComment {d : Nat} {cs body rest : List Char} (h : closeComment d cs = some (body, rest)) :
    body.getLast? = some '/' := by
  induction d, cs using closeComment.induct generalizing body rest with
  | case1 => simp [closeComment] at h
  | case2 => simp [closeComment] at h
  | case3 d c e cs hopen ih =>
    rw [closeComment, if_pos hopen] at h
    obtain ⟨⟨inner, after⟩, hinner, hpair⟩ := Option.map_eq_some_iff.mp h
    cases hpair
    simp [List.getLast?_cons, ih hinner]
  | case4 c e cs hopen hclose =>
    rw [closeComment, if_neg hopen, if_pos hclose, if_pos rfl] at h
    cases h
    simp [hclose.2]
  | case5 d c e cs hopen hclose hd ih =>
    rw [closeComment, if_neg hopen, if_pos hclose, if_neg hd] at h
    obtain ⟨⟨inner, after⟩, hinner, hpair⟩ := Option.map_eq_some_iff.mp h
    cases hpair
    simp [List.getLast?_cons, ih hinner]
  | case6 d c e cs hopen hclose ih =>
    rw [closeComment, if_neg hopen, if_neg hclose] at h
    obtain ⟨⟨inner, after⟩, hinner, hpair⟩ := Option.map_eq_some_iff.mp h
    cases hpair
    simp [List.getLast?_cons, ih hinner]

/-- What reading a character of a quoted text comes to. -/
theorem closeString_cons (escapes : Bool) (mark c : Char) (cs : List Char) :
    closeString escapes mark (c :: cs) =
      if c = mark then
        match cs with
        | [] => some ([], [])
        | d :: ds =>
          if d = mark then (closeString escapes mark ds).map fun (body, rest) => (c :: d :: body, rest)
          else some ([], d :: ds)
      else if escapes && c == '\\' then
        match cs with
        | [] => none
        | d :: ds => (closeString escapes mark ds).map fun (body, rest) => (c :: d :: body, rest)
      else (closeString escapes mark cs).map fun (body, rest) => (c :: body, rest) := by
  rw [closeString.eq_def]

theorem closeString_eq {escapes : Bool} {mark : Char} {cs body rest : List Char}
    (h : closeString escapes mark cs = some (body, rest)) : cs = body ++ mark :: rest := by
  induction cs using closeString.induct escapes mark generalizing body rest with
  | case1 => simp [closeString] at h
  | case2 =>
    rw [closeString_cons, if_pos rfl] at h
    cases h
    rfl
  | case3 ds ih =>
    rw [closeString_cons, if_pos rfl] at h
    dsimp only at h
    rw [if_pos rfl] at h
    obtain ⟨⟨inner, after⟩, hinner, hpair⟩ := Option.map_eq_some_iff.mp h
    cases hpair
    rw [ih hinner]
    rfl
  | case4 d ds hd =>
    rw [closeString_cons, if_pos rfl] at h
    dsimp only at h
    rw [if_neg hd] at h
    cases h
    rfl
  | case5 d hd hesc =>
    rw [closeString_cons, if_neg hd, if_pos hesc] at h
    cases h
  | case6 d hd hesc e ds ih =>
    rw [closeString_cons, if_neg hd, if_pos hesc] at h
    obtain ⟨⟨inner, after⟩, hinner, hpair⟩ := Option.map_eq_some_iff.mp h
    cases hpair
    rw [ih hinner]
    rfl
  | case7 d ds hd hesc ih =>
    rw [closeString_cons, if_neg hd, if_neg hesc] at h
    obtain ⟨⟨inner, after⟩, hinner, hpair⟩ := Option.map_eq_some_iff.mp h
    cases hpair
    rw [ih hinner]
    rfl

theorem closeDollar_eq {mark cs body rest : List Char} (h : closeDollar mark cs = some (body, rest)) :
    cs = body ++ (mark ++ rest) := by
  induction cs generalizing body rest with
  | nil => simp [closeDollar] at h
  | cons c cs ih =>
    rw [closeDollar] at h
    by_cases hmark : mark.isPrefixOf (c :: cs) = true
    · rw [if_pos hmark] at h
      cases h
      obtain ⟨rest, hrest⟩ := List.isPrefixOf_iff_prefix.mp hmark
      rw [← hrest, List.drop_left, List.nil_append]
    · rw [if_neg hmark] at h
      obtain ⟨⟨inner, after⟩, hinner, hpair⟩ := Option.map_eq_some_iff.mp h
      cases hpair
      rw [ih hinner]
      rfl

/-- A dollar quote's tag: identifier characters without a dollar sign, the first no digit. -/
theorem dollarTag_eq_some {cs tag rest : List Char} : dollarTag cs = some (tag, rest) ↔
    cs = tag ++ '$' :: rest ∧ (∀ c ∈ tag, isTagPart c) ∧ ∀ c ∈ tag.head?, isIdentStart c := by
  have hdollar : isTagPart '$' = false := by decide
  unfold dollarTag
  constructor
  · intro h
    obtain ⟨hcond, hpair⟩ := Option.ite_none_right_eq_some.mp h
    obtain ⟨hhead, hclose⟩ := Bool.and_eq_true_iff.mp hcond
    obtain ⟨rfl, rfl⟩ := Prod.mk.inj (Option.some.inj hpair)
    refine ⟨?_, fun c hc => List.mem_takeWhile_imp hc, fun c hc => ?_⟩
    · obtain ⟨rest, hrest⟩ : ∃ rest, cs.dropWhile isTagPart = '$' :: rest := by
        cases hdrop : cs.dropWhile isTagPart with
        | nil => simp [hdrop] at hclose
        | cons d ds => exact ⟨ds, by simpa [hdrop] using hclose⟩
      calc cs = cs.takeWhile isTagPart ++ cs.dropWhile isTagPart :=
            List.takeWhile_append_dropWhile.symm
        _ = _ := by rw [hrest]; rfl
    · rw [Option.mem_def.mp hc] at hhead
      exact hhead
  · rintro ⟨rfl, htag, hhead⟩
    have htake : (tag ++ '$' :: rest).takeWhile isTagPart = tag := by
      rw [List.takeWhile_append_of_pos htag, List.takeWhile_cons_of_neg (by simp [hdollar]), List.append_nil]
    have hdrop : (tag ++ '$' :: rest).dropWhile isTagPart = '$' :: rest := by
      rw [List.dropWhile_append_of_pos htag, List.dropWhile_cons_of_neg (by simp [hdollar])]
    rw [htake, hdrop]
    have hall : tag.head?.all isIdentStart = true := by
      cases htag' : tag.head? with
      | none => rfl
      | some c => exact hhead c (by rw [htag']; rfl)
    simp [hall]

/-- The ways a quoted text opens. -/
inductive Opened (after : After) : Opening → Prop where
  | plain : Opened after ⟨[], after.continued.getD false, after.continued.isSome, '\''⟩
  | name : Opened after ⟨[], false, false, '"'⟩
  | escape {c : Char} (hc : c.toLower = 'e') : Opened after ⟨[c], true, false, '\''⟩
  | lettered {c : Char} (hc : c.toLower ∈ ['b', 'x', 'n']) : Opened after ⟨[c], false, false, '\''⟩
  | unicode {c m : Char} (hc : c.toLower = 'u') (hm : m = '\'' ∨ m = '"') :
      Opened after ⟨[c, '&'], false, false, m⟩

theorem Opened.mark {after : After} {o : Opening} (h : Opened after o) : o.mark = '\'' ∨ o.mark = '"' := by
  cases h with
  | plain => exact .inl rfl
  | name => exact .inr rfl
  | escape hc => exact .inl rfl
  | lettered hc => exact .inl rfl
  | unicode hc hm => exact hm

theorem opening_opened {after : After} {cs inside : List Char} {o : Opening}
    (h : opening after cs = some (o, inside)) : Opened after o ∧ cs = o.letters ++ o.mark :: inside := by
  cases cs with
  | nil => simp [opening] at h
  | cons c cs =>
    simp only [opening] at h
    split at h
    · next hc =>
      cases h
      exact ⟨hc ▸ .plain, rfl⟩
    · split at h
      · next hc =>
        cases h
        exact ⟨hc ▸ .name, rfl⟩
      · cases cs with
        | nil => simp at h
        | cons d ds =>
          dsimp only at h
          split at h
          · next hd =>
            cases h
            exact ⟨hd.1 ▸ .escape hd.2, rfl⟩
          · split at h
            · next hd =>
              cases h
              exact ⟨hd.1 ▸ .lettered hd.2, rfl⟩
            · split at h
              · next hd =>
                cases ds with
                | nil => simp at h
                | cons m ms =>
                  dsimp only at h
                  split at h
                  · next hm =>
                    cases h
                    exact ⟨hd.1 ▸ .unicode hd.2 hm, rfl⟩
                  · cases h
              · cases h

/-- What cutting one lexeme off a text comes to, for each kind of lexeme. -/
inductive Cut : After → List Char → Lexeme → After → List Char → Prop where
  | blank {after : After} {c : Char} {rest : List Char} (hblank : isBlank c) :
      Cut after (c :: rest) (.blank c) (after.blank c) rest
  | line {after : After} {body rest : List Char} (hbody : ∀ c ∈ body, isNewline c = false)
      (hrest : ∀ c ∈ rest.head?, isNewline c) : Cut after ('-' :: '-' :: (body ++ rest)) (.line body) after rest
  | block {after : After} {body rest : List Char} (hclose : closeComment 0 (body ++ rest) = some (body, rest)) :
      Cut after ('/' :: '*' :: (body ++ rest)) (.block body) .code rest
  | quoted {after : After} {o : Opening} {body rest : List Char}
      (hopening : opening after (o.letters ++ o.mark :: (body ++ o.mark :: rest)) =
        some (o, body ++ o.mark :: rest))
      (hclose : closeString o.escapes o.mark (body ++ o.mark :: rest) = some (body, rest)) :
      Cut after (o.letters ++ o.mark :: (body ++ o.mark :: rest)) (.quoted o body) o.after rest
  | word {after : After} {c : Char} {cs rest : List Char} (hstart : isIdentStart c)
      (hparts : ∀ d ∈ cs, isIdentPart d) (hrest : ∀ d ∈ rest.head?, isIdentPart d = false)
      (hopening : opening after (c :: (cs ++ rest)) = none) :
      Cut after (c :: (cs ++ rest)) (.word (c :: cs)) .code rest
  | number {after : After} {c : Char} {cs rest : List Char} (hdigit : c.isDigit)
      (hparts : ∀ d ∈ cs, isTagPart d) (hrest : ∀ d ∈ rest.head?, isTagPart d = false)
      (hnumeral : isNumeral (c :: cs) rest) : Cut after (c :: (cs ++ rest)) (.number (c :: cs)) .code rest
  | dollar {after : After} {tag body rest : List Char}
      (htag : dollarTag (tag ++ '$' :: (body ++ (delimiter tag ++ rest))) =
        some (tag, body ++ (delimiter tag ++ rest)))
      (hclose : closeDollar (delimiter tag) (body ++ (delimiter tag ++ rest)) = some (body, rest)) :
      Cut after ('$' :: (tag ++ '$' :: (body ++ (delimiter tag ++ rest)))) (.dollar tag body) .code rest
  | symbol {after : After} {c : Char} {rest : List Char} (hblank : isBlank c = false)
      (hline : ¬(c = '-' ∧ rest.head? = some '-')) (hblock : ¬(c = '/' ∧ rest.head? = some '*'))
      (hquote : c ≠ '\'' ∧ c ≠ '"') (hstart : isTagPart c = false)
      (hdollar : c = '$' → dollarTag rest = none) : Cut after (c :: rest) (.symbol c) .code rest

theorem head?_dropWhile {p : Char → Bool} {cs : List Char} : ∀ c ∈ (cs.dropWhile p).head?, p c = false := by
  intro c hc
  have hhead := List.head?_dropWhile_not p cs
  rw [Option.mem_def.mp hc] at hhead
  exact hhead

theorem next_cut {after after' : After} {cs rest : List Char} {l : Lexeme}
    (h : next after cs = some (l, after', rest)) : Cut after cs l after' rest := by
  cases cs with
  | nil => simp [next] at h
  | cons c cs =>
    rw [next] at h
    by_cases hblank : isBlank c = true
    · rw [if_pos hblank] at h
      cases h
      exact .blank hblank
    rw [if_neg hblank] at h
    by_cases hline : c = '-' ∧ cs.head? = some '-'
    · rw [if_pos hline] at h
      cases h
      obtain ⟨rfl, hhead⟩ := hline
      obtain ⟨ds, rfl⟩ := List.head?_eq_some_iff.mp hhead
      have hcut := @Cut.line after (ds.takeWhile (!isNewline ·)) (ds.dropWhile (!isNewline ·))
        (fun d hd => by simpa using List.mem_takeWhile_imp hd)
        (fun d hd => by simpa using head?_dropWhile d hd)
      rwa [List.takeWhile_append_dropWhile] at hcut
    rw [if_neg hline] at h
    by_cases hblock : c = '/' ∧ cs.head? = some '*'
    · rw [if_pos hblock] at h
      obtain ⟨⟨body, inner⟩, hclose, hpair⟩ := Option.map_eq_some_iff.mp h
      cases hpair
      obtain ⟨rfl, hhead⟩ := hblock
      obtain ⟨ds, rfl⟩ := List.head?_eq_some_iff.mp hhead
      obtain rfl : ds = body ++ rest := closeComment_eq hclose
      exact .block hclose
    rw [if_neg hblock] at h
    cases hopening : opening after (c :: cs) with
    | some opened =>
      obtain ⟨o, inside⟩ := opened
      rw [hopening] at h
      obtain ⟨⟨body, inner⟩, hclose, hpair⟩ := Option.map_eq_some_iff.mp h
      cases hpair
      have hcs := (opening_opened hopening).2
      obtain rfl := closeString_eq hclose
      rw [hcs] at hopening ⊢
      exact .quoted hopening hclose
    | none =>
      rw [hopening] at h
      dsimp only at h
      -- a name is asked for after the quotes, since a quote may begin with letters
      by_cases hstart : isIdentStart c = true
      · rw [if_pos hstart] at h
        cases h
        have hcs := List.takeWhile_append_dropWhile (p := isIdentPart) (l := cs)
        have hcut := @Cut.word after c (cs.takeWhile isIdentPart) (cs.dropWhile isIdentPart) hstart
          (fun d hd => List.mem_takeWhile_imp hd) head?_dropWhile (hcs.symm ▸ hopening)
        rwa [hcs] at hcut
      rw [if_neg hstart] at h
      by_cases hdigit : c.isDigit = true
      · rw [if_pos hdigit] at h
        obtain ⟨hnumeral, hpair⟩ := Option.ite_none_right_eq_some.mp h
        cases hpair
        have hcs := List.takeWhile_append_dropWhile (p := isTagPart) (l := cs)
        have hcut := @Cut.number after c (cs.takeWhile isTagPart) (cs.dropWhile isTagPart)
          hdigit (fun d hd => List.mem_takeWhile_imp hd) head?_dropWhile hnumeral
        rwa [hcs] at hcut
      rw [if_neg hdigit] at h
      have hpart : isTagPart c = false := by simp [isTagPart, hstart, hdigit]
      have hquote : c ≠ '\'' ∧ c ≠ '"' := by
        constructor <;> rintro rfl <;> simp [opening] at hopening
      by_cases hdollar : c = '$'
      · rw [if_pos hdollar] at h
        cases htag : dollarTag cs with
        | none =>
          rw [htag] at h
          cases h
          -- a dollar that begins no tag stands for itself
          exact .symbol (by simpa using hblank) hline hblock hquote hpart fun _ => htag
        | some tagged =>
          obtain ⟨tag, inside⟩ := tagged
          rw [htag] at h
          obtain ⟨⟨body, inner⟩, hclose, hpair⟩ := Option.map_eq_some_iff.mp h
          cases hpair
          obtain rfl := hdollar
          obtain ⟨rfl, -, -⟩ := dollarTag_eq_some.mp htag
          obtain rfl := closeDollar_eq hclose
          exact .dollar htag hclose
      · rw [if_neg hdollar] at h
        cases h
        exact .symbol (by simpa using hblank) hline hblock hquote hpart fun hc => absurd hc hdollar

/-- A lexeme is what was cut off. -/
theorem Cut.chars {after after' : After} {cs rest : List Char} {l : Lexeme} (h : Cut after cs l after' rest) :
    cs = l.chars ++ rest := by
  cases h <;> simp [Lexeme.chars, delimiter]

theorem chars_ne_nil {after after' : After} {cs rest : List Char} {l : Lexeme} (h : Cut after cs l after' rest) :
    l.chars ≠ [] := by
  cases h <;> simp [Lexeme.chars, delimiter]

theorem next_shrinks : Scan.Shrinks next := by
  intro after cs l after' rest h
  have hcut := next_cut h
  have hpos := List.length_pos_iff.mpr (chars_ne_nil hcut)
  rw [hcut.chars, List.length_append]
  omega

theorem lexemes_eq_some {cs : List Char} {ls : List Lexeme} :
    lexemes cs = some ls ↔ Scan.Reads next .code cs ls :=
  Scan.run_eq_some_iff next_shrinks (Nat.le_refl _)

/-- The lexemes of a text, put together, are the text. -/
theorem flatMap_chars {after : After} {cs : List Char} {ls : List Lexeme} (h : Scan.Reads next after cs ls) :
    ls.flatMap Lexeme.chars = cs := by
  induction h with
  | nil => rfl
  | cons hone _ ih => rw [List.flatMap_cons, ih, ← (next_cut hone).chars]

end SqlLex

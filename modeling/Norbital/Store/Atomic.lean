import Norbital.Store.InStep

/-!
# Accepted migration files and their transaction

What the server would run of a file `checkFile` accepts: the statements its own
lexical rules cut, none of which should control the transaction or set one of the
host's bounds.  Where the tokenizer is in step with the server, no statement
controls the transaction, and the bounds are safe exactly when every statement
that sets one spells it plainly somewhere.
-/

namespace Norbital.Store

open SqlLex (Lexeme Opening Token tokensOf undoubled)

/-- An unquoted word, as keywords and names are compared. -/
def keywordOf : Token → Option (List Char)
  | .word cs => some (cs.map Char.toLower)
  | _ => none

/-- The words a statement begins with. -/
def leadingWords : List Token → List (List Char)
  | .word cs :: ts => cs.map Char.toLower :: leadingWords ts
  | _ => []

/-- A statement that begins with a transaction control command. -/
def IsControl (statement : List Token) : Prop := controls (leadingWords statement) = true

/-- How quoted texts are read: what constants and names stand for, whether a dollar quote is a constant
too, and which texts are read at all. -/
structure Reading where
  literal : List (Opening × List Char) → Option (List Char)
  name : Opening → List Char → Option (List Char)
  dollar : Bool
  reads : List Lexeme → Bool

/-- What stands inside a quoted text; what escapes stand for is the server's to say. -/
def valueOf (decode : Opening → List Char → List Char) (o : Opening) (body : List Char) : List Char :=
  if o.letters.isEmpty && !o.escapes then undoubled o.mark body else decode o body

/-- The server reads every form of a constant and of a name. -/
def server (decode : Opening → List Char → List Char) : Reading where
  literal parts := some (parts.flatMap fun p => valueOf decode p.1 p.2)
  name o body := some (valueOf decode o body)
  dollar := true
  reads _ := true

/-- Spelled plainly: one string, or name, without letters or escapes, in a text that stays in step. -/
def plainly : Reading where
  literal parts :=
    match parts with
    | [(o, body)] => if o.letters.isEmpty && !o.escapes then some (undoubled o.mark body) else none
    | _ => none
  name o body := if o.letters.isEmpty && !o.escapes then some (undoubled o.mark body) else none
  dollar := false
  reads := Steady []

section

variable (R : Reading)

def nameOf : Token → Option (List Char)
  | .word cs => some (cs.map Char.toLower)
  | .name o body => R.name o body
  | _ => none

/-- A string constant. -/
def textOf : Token → Option (List Char)
  | .literal parts => R.literal parts
  | .dollar _ body => if R.dollar then some body else none
  | _ => none

/-- What a DO runs. -/
def bodyOf : Token → Option (List Char)
  | .literal parts => R.literal parts
  | .dollar _ body => some body
  | _ => none

/-- A host bound's name, in any case. -/
def namesBound (name : Option (List Char)) : Bool := name.any fun cs => isHostBound (cs.map Char.toLower)

/-- A SET or RESET of a host bound, a call of `set_config` on one, or a text to execute that sets one. -/
def setsAt (nested : List Char → Bool) : List Token → Bool
  | [] => false
  | t :: rest =>
    let hasScope := rest.head?.bind keywordOf == some "local".toList || rest.head?.bind keywordOf == some "session".toList
    (keywordOf t == some "set".toList && namesBound ((if hasScope then rest[1]? else rest[0]?).bind (nameOf R))) ||
      (keywordOf t == some "reset".toList &&
        (namesBound (rest[0]?.bind (nameOf R)) || rest[0]?.bind keywordOf == some "all".toList)) ||
      (nameOf R t == some "set_config".toList && rest[0]? == some (.symbol '(') &&
        namesBound (rest[1]?.bind (textOf R))) ||
      (keywordOf t == some "execute".toList && (rest[0]?.bind (textOf R)).any nested)

/-- A statement that sets a host bound; the texts it runs stand at most `n` deep in each other. -/
def sets : Nat → List Token → Bool
  | 0, _ => false
  | n + 1, ts =>
    let nested := fun text => (SqlLex.lexemes text).any fun ls => R.reads ls && sets n (tokensOf ls)
    ts.tails.any (setsAt R nested) ||
      ((ts.head?.bind keywordOf) == some "do".toList && ts.any fun t => (bodyOf R t).any nested)

/-- A statement that sets one of the host's bounds. -/
def SetsBound (ts : List Token) : Prop := ∃ n, sets R n ts = true

end

/-- No statement the server cuts from a text controls the transaction or sets a host bound. -/
def KeepsTransaction (decode : Opening → List Char → List Char) (sql : String) : Prop :=
  ∀ ls, SqlLex.lexemes sql.toList = some ls → ∀ s ∈ SqlLex.statements ls, ¬IsControl s ∧ ¬SetsBound (server decode) s

/-- The tokenizer cuts every lexeme of a text as the server does. -/
def InStep (sql : String) : Prop := ∀ ls, SqlLex.lexemes sql.toList = some ls → Steady [] ls = true

/-- A statement that sets a host bound sets one in plain spelling. -/
def PlainBounds (decode : Opening → List Char → List Char) (sql : String) : Prop :=
  ∀ ls, SqlLex.lexemes sql.toList = some ls → ∀ s ∈ SqlLex.statements ls,
    SetsBound (server decode) s → SetsBound plainly s

/-- The tokens one of the server's tokens is read as. -/
inductive Pieces : Token → List SqlToken → Prop where
  | word {cs : List Char} {ws : List SqlToken} (h : Image (.word cs) ws) : Pieces (.word cs) ws
  | number {cs : List Char} {ws : List SqlToken} (h : Image (.number cs) ws) : Pieces (.number cs) ws
  | name {o : Opening} {body : List Char} {ws : List SqlToken} (h : Image (.quoted o body) ws) (hmark : o.mark = '"') :
      Pieces (.name o body) ws
  | literal {parts : List (Opening × List Char)} {wss : List (List SqlToken)}
      (h : List.Forall₂ (fun p ws => Image (.quoted p.1 p.2) ws) parts wss) (hmark : ∀ p ∈ parts, p.1.mark = '\'') :
      Pieces (.literal parts) wss.flatten
  | dollar {tag body : List Char} {ws : List SqlToken} (h : Image (.dollar tag body) ws) : Pieces (.dollar tag body) ws
  | symbol {c : Char} {ws : List SqlToken} (h : Image (.symbol c) ws) : Pieces (.symbol c) ws

theorem pieces_addString {o : Opening} {body : List Char} {ws : List SqlToken} {ts : List Token}
    {tss : List (List SqlToken)} (h : Image (.quoted o body) ws) (hmark : o.mark = '\'')
    (hts : List.Forall₂ Pieces ts tss) :
    ∃ tss', List.Forall₂ Pieces (SqlLex.addString o body ts) tss' ∧ tss'.flatten = ws ++ tss.flatten := by
  have hsingle : Pieces (.literal [(o, body)]) (ws ++ [].flatten) :=
    Pieces.literal (.cons h .nil) (by simpa using hmark)
  have hplain : ∃ tss', List.Forall₂ Pieces (.literal [(o, body)] :: ts) tss' ∧ tss'.flatten = ws ++ tss.flatten :=
    ⟨_ :: tss, .cons hsingle hts, by simp⟩
  cases hts with
  | nil => exact hplain
  | @cons t us ts tss ht hts =>
    cases ht with
    | @literal parts wss hparts hmarks =>
      cases parts with
      | nil => exact hplain
      | cons p ps =>
        rw [SqlLex.addString]
        split
        · refine ⟨(ws :: wss).flatten :: tss, .cons (.literal (.cons h hparts) ?_) hts, by simp⟩
          exact List.forall_mem_cons.mpr ⟨hmark, hmarks⟩
        · exact hplain
    | word => exact hplain
    | number => exact hplain
    | name => exact hplain
    | dollar => exact hplain
    | symbol => exact hplain

/-- The lexemes' tokens, put together as the server's tokens are. -/
theorem pieces_of_images {ls : List Lexeme} {wss : List (List SqlToken)} (h : List.Forall₂ Image ls wss) :
    ∃ tss, List.Forall₂ Pieces (tokensOf ls) tss ∧ tss.flatten = wss.flatten := by
  induction h with
  | nil => exact ⟨[], .nil, rfl⟩
  | @cons l ws ls wss hl hls ih =>
    obtain ⟨tss, htss, hflatten⟩ := ih
    rw [List.flatten_cons, ← hflatten]
    cases hl with
    | blank => exact ⟨tss, htss, rfl⟩
    | line => exact ⟨tss, htss, rfl⟩
    | block => exact ⟨tss, htss, rfl⟩
    | word hplain hascii => exact ⟨_ :: tss, .cons (.word (.word hplain hascii)) htss, rfl⟩
    | number hplain => exact ⟨_ :: tss, .cons (.number (.number hplain)) htss, rfl⟩
    | @quoted o body ws i hmark hplain hletters =>
      have himage : Image (.quoted o body) _ := .quoted (i := i) hmark hplain hletters
      rw [tokensOf]
      by_cases hname : o.mark = '"'
      · rw [if_pos hname]
        exact ⟨_ :: tss, .cons (.name himage hname) htss, rfl⟩
      · rw [if_neg hname]
        exact pieces_addString himage (hmark.resolve_right hname) htss
    | dollar => exact ⟨_ :: tss, .cons (.dollar .dollar) htss, rfl⟩
    | symbol => exact ⟨_ :: tss, .cons (.symbol .symbol) htss, rfl⟩

/-- Only a semicolon is read as one. -/
theorem pieces_of_semicolon {t : Token} {ws : List SqlToken} (h : Pieces t ws) (ht : (t == .symbol ';') = true) :
    ∃ w, ws = [w] ∧ (w.kind == .symbol && w.text == [';']) = true := by
  obtain rfl := eq_of_beq ht
  cases h with
  | symbol h =>
    cases h with
    | symbol => exact ⟨_, rfl, rfl⟩

theorem SqlToken.Plain.ne_semicolon {w : SqlToken} (h : w.Plain) : (w.kind == .symbol && w.text == [';']) = false := by
  obtain hword | ⟨-, htext⟩ := h
  · simp [hword]
  · simp [htext]

theorem ne_semicolon_of_quoted {o : Opening} {body : List Char} {ws : List SqlToken} (h : Image (.quoted o body) ws) :
    ∀ w ∈ ws, (w.kind == .symbol && w.text == [';']) = false := by
  cases h with
  | quoted hmark hplain hletters =>
    intro w hw
    obtain hw | hw := List.mem_append.mp hw
    · exact (hplain w hw).ne_semicolon
    · obtain rfl := List.mem_singleton.mp hw
      dsimp only
      split <;> rfl

theorem pieces_of_other {t : Token} {ws : List SqlToken} (h : Pieces t ws) (ht : (t == .symbol ';') = false) :
    ∀ w ∈ ws, (w.kind == .symbol && w.text == [';']) = false := by
  cases h with
  | word h =>
    cases h with
    | word hplain hascii => exact fun w hw => (hplain w hw).ne_semicolon
  | number h =>
    cases h with
    | number hplain => exact fun w hw => (hplain w hw).ne_semicolon
  | name h hmark => exact ne_semicolon_of_quoted h
  | @literal parts wss hparts hmark =>
    clear hmark ht
    induction hparts with
    | nil => simp
    | cons hpart _ ih =>
      rw [List.flatten_cons]
      exact List.forall_mem_append.mpr ⟨ne_semicolon_of_quoted hpart, ih⟩
  | dollar h =>
    cases h with
    | dollar => exact List.forall_mem_singleton.mpr rfl
  | @symbol c ws h =>
    cases h with
    | symbol =>
      refine List.forall_mem_singleton.mpr ?_
      have hne : c ≠ ';' := by
        rintro rfl
        cases ht
      simp [hne]

/-- In step, every statement of the server's is one of `sqlStatements`, in pieces, or empty there. -/
theorem statement_pieces {sql : List Char} {ls : List Lexeme} (h : SqlLex.lexemes sql = some ls)
    (hsteady : Steady [] ls = true) {s : List Token} (hs : s ∈ SqlLex.statements ls) :
    ∃ tss, List.Forall₂ Pieces s tss ∧ (∀ w ∈ tss.flatten, w ∈ sqlTokens sql) ∧
      (tss.flatten ≠ [] → tss.flatten ∈ sqlStatements sql) := by
  obtain ⟨wss, himages, htokens⟩ := sqlTokens_of_steady h hsteady
  obtain ⟨tss, hpieces, hflatten⟩ := pieces_of_images himages
  have hcut := Scan.forall₂_splitOnP (R := Pieces) (fun _ _ => pieces_of_semicolon) (fun _ _ => pieces_of_other)
    hpieces
  rw [hflatten, ← htokens] at hcut
  obtain ⟨part, hpart, pieces, hs, rfl⟩ := Scan.exists_mem_of_forall₂ hcut hs
  refine ⟨pieces, hs, Scan.mem_of_mem_splitOnP hpart, fun hne => List.mem_filter.mpr ⟨hpart, ?_⟩⟩
  simpa using hne

theorem toLower_of_ascii {c : Char} (h : c.toLower.toNat < 128) : c.toNat < 128 := by
  cases hupper : c.isUpper with
  | false => rwa [toLower_of_not_isUpper hupper] at h
  | true =>
    simp only [Char.isUpper, decide_eq_true_eq, ge_iff_le, UInt32.le_iff_toNat_le] at hupper
    have hZ : 'Z'.val.toNat = 90 := rfl
    have hc : c.toNat = c.val.toNat := rfl
    omega

theorem ascii_of_all {word : List Char} (h : word.all (fun c => decide (c.toNat < 128)) = true) :
    ∀ c ∈ word, c.toNat < 128 := by
  simpa using h

theorem toLower_toLower (c : Char) : c.toLower.toLower = c.toLower := by
  refine toLower_of_not_isUpper ?_
  simp only [Char.isUpper, Char.toLower]
  split <;> grind [UInt32.toNat_add, Char.toNat_val]

theorem toLowerCase_of_ascii {cs : List Char} (h : ∀ c ∈ cs, c.toNat < 128) : toLowerCase cs = cs.map Char.toLower := by
  refine List.map_congr_left fun d hd => if_neg ?_
  rintro rfl
  exact absurd (h _ hd) (by decide)

/-- The characters of a text that is some word in lower case are ASCII. -/
theorem ascii_of_map_toLower {cs word : List Char} (h : cs.map Char.toLower = word) (hword : ∀ c ∈ word, c.toNat < 128) :
    ∀ c ∈ cs, c.toNat < 128 :=
  fun _ hc => toLower_of_ascii (hword _ (h ▸ List.mem_map_of_mem hc))

theorem pieces_of_keyword {t : Token} {ws : List SqlToken} (h : Pieces t ws) {word : List Char}
    (ht : keywordOf t = some word) (hword : ∀ c ∈ word, c.toNat < 128) : ∃ i, ws = [⟨.word, word, i⟩] := by
  cases h with
  | @word cs ws h =>
    have hcs := Option.some.inj ht
    have hascii := ascii_of_map_toLower hcs hword
    cases h with
    | word hplain himage =>
      obtain ⟨i, rfl⟩ := himage hascii
      rw [toLowerCase_of_ascii hascii, hcs]
      exact ⟨i, rfl⟩
  | _ => cases ht

/-- Without the mark in its value, a text inside quotes is its value. -/
theorem eq_undoubled {mark : Char} {cs : List Char} (h : mark ∉ undoubled mark cs) : undoubled mark cs = cs := by
  induction cs using SqlLex.undoubled.induct mark with
  | case1 => rfl
  | case2 => rfl
  | case3 c d cs hmark ih =>
    rw [undoubled, if_pos hmark] at h
    exact absurd (by simp [hmark.1]) h
  | case4 c d cs hmark ih =>
    rw [undoubled, if_neg hmark] at h ⊢
    rw [ih fun hmem => h (List.mem_cons_of_mem c hmem)]

theorem undouble_eq (cs : List Char) : undouble cs = undoubled '\'' cs := by
  induction cs using undouble.induct with
  | case1 => rfl
  | case2 => rfl
  | case3 c d cs hmark ih => rw [undouble, undoubled, if_pos hmark, if_pos hmark, ih]
  | case4 c d cs hmark ih => rw [undouble, undoubled, if_neg hmark, if_neg hmark, ih]

/-- A plainly quoted text is read as one token. -/
theorem single_of_quoted {o : Opening} {body : List Char} {ws : List SqlToken} (h : Image (.quoted o body) ws)
    (hletters : o.letters = []) : ∃ i, ws = [⟨if o.mark = '\'' then .literal else .quoted, body, i⟩] := by
  cases h with
  | quoted hmark hplain hnone =>
    rw [hnone hletters]
    exact ⟨_, rfl⟩

/-- A word in lower case, ASCII and without quotes: what keywords, functions and bounds are called. -/
def IsName (word : List Char) : Prop := ∀ c ∈ word, c.toNat < 128 ∧ c ≠ '"' ∧ c ≠ '\''

instance (word : List Char) : Decidable (IsName word) :=
  decidable_of_iff (word.all fun c => decide (c.toNat < 128 ∧ c ≠ '"' ∧ c ≠ '\'')) (by simp [IsName])

theorem isName_of_isHostBound {word : List Char} (h : isHostBound word = true) : IsName word := by
  have hall : ∀ bound ∈ hostBounds.map String.toList, IsName bound := by decide
  exact hall word (List.contains_iff_mem.mp h)

/-- A plain value that is some name in lower case is spelled as it stands. -/
theorem undoubled_of_isName {mark : Char} (hmark : mark = '"' ∨ mark = '\'') {cs word : List Char}
    (h : (undoubled mark cs).map Char.toLower = word) (hword : IsName word) :
    undoubled mark cs = cs ∧ ∀ c ∈ cs, c.toNat < 128 := by
  have hnot : mark ∉ undoubled mark cs := by
    intro hmem
    have hlower := hword mark.toLower (h ▸ List.mem_map_of_mem hmem)
    obtain rfl | rfl := hmark
    · exact hlower.2.1 (by decide)
    · exact hlower.2.2 (by decide)
  have heq := eq_undoubled hnot
  rw [heq] at h
  exact ⟨heq, ascii_of_map_toLower h fun c hc => (hword c hc).1⟩

/-- A name that is plainly some word is read as one token with that text. -/
theorem pieces_of_name {t : Token} {ws : List SqlToken} (h : Pieces t ws) {name word : List Char}
    (ht : nameOf plainly t = some name) (hname : name.map Char.toLower = word) (hword : IsName word) :
    ∃ kind text i, ws = [⟨kind, text, i⟩] ∧ (kind = .word ∨ kind = .quoted) ∧ toLowerCase text = word := by
  cases h with
  | @word cs ws h =>
    obtain rfl := Option.some.inj ht
    have hlower : cs.map Char.toLower = word := by
      rw [← hname, List.map_map]
      exact (List.map_congr_left fun c _ => toLower_toLower c).symm
    obtain ⟨i, rfl⟩ := pieces_of_keyword (.word h) (congrArg some hlower) fun c hc => (hword c hc).1
    refine ⟨.word, word, i, rfl, .inl rfl, ?_⟩
    rw [toLowerCase_of_ascii fun c hc => (hword c hc).1, ← hlower, hname, hlower]
  | @name o body ws h hmark =>
    obtain ⟨hplain, rfl⟩ : (o.letters.isEmpty && !o.escapes) = true ∧ undoubled o.mark body = name :=
      Option.ite_none_right_eq_some.mp ht |>.imp_right Option.some.inj
    obtain ⟨hbody, hascii⟩ := undoubled_of_isName (.inl hmark) hname hword
    obtain ⟨i, rfl⟩ := single_of_quoted h (by simpa using (Bool.and_eq_true_iff.mp hplain).1)
    rw [hbody] at hname
    refine ⟨_, body, i, rfl, ?_, ?_⟩
    · rw [hmark]
      exact .inr rfl
    · rw [toLowerCase_of_ascii hascii, hname]
  | _ => cases ht

/-- A plain constant is read as one literal. -/
theorem pieces_of_literal {t : Token} {ws : List SqlToken} (h : Pieces t ws) {text : List Char}
    (ht : textOf plainly t = some text) : ∃ body i, ws = [⟨.literal, body, i⟩] ∧ undoubled '\'' body = text := by
  cases h with
  | @literal parts wss hparts hmark =>
    cases hparts with
    | nil => cases ht
    | @cons p ps ws wss hpart hrest =>
      cases hrest with
      | cons => cases ht
      | nil =>
        obtain ⟨hplain, rfl⟩ : (p.1.letters.isEmpty && !p.1.escapes) = true ∧ undoubled p.1.mark p.2 = text :=
          Option.ite_none_right_eq_some.mp ht |>.imp_right Option.some.inj
        obtain ⟨i, rfl⟩ := single_of_quoted hpart (by simpa using (Bool.and_eq_true_iff.mp hplain).1)
        have hp := hmark p List.mem_cons_self
        exact ⟨p.2, i, by simp [hp], by rw [hp]⟩
  | _ => cases ht

theorem controls_words_ascii {words : List (List Char)} (h : controls words = true) :
    ∃ first rest, words = first :: rest ∧ (∀ c ∈ first, c.toNat < 128) ∧
      (controls [first] = true ∨ ∃ more, rest = "transaction".toList :: more) := by
  cases words with
  | nil => cases h
  | cons first rest =>
    refine ⟨first, rest, rfl, ?_⟩
    rw [controls, Bool.or_eq_true] at h
    have hlist : ∀ w ∈ ["begin", "commit", "end", "rollback", "abort", "savepoint", "release"].map String.toList,
        w.all (fun c => decide (c.toNat < 128)) = true := by decide
    obtain h | h := h
    · exact ⟨ascii_of_all (hlist first (List.contains_iff_mem.mp h)),
        .inl (by rw [controls, Bool.or_eq_true]; exact .inl h)⟩
    · obtain ⟨hfirst, hsecond⟩ := Bool.and_eq_true_iff.mp h
      have hascii : ∀ c ∈ first, c.toNat < 128 := by
        obtain h | h := Bool.or_eq_true_iff.mp hfirst
        · rw [eq_of_beq h]
          exact ascii_of_all (by decide)
        · rw [eq_of_beq h]
          exact ascii_of_all (by decide)
      refine ⟨hascii, .inr ?_⟩
      cases rest with
      | nil => cases hsecond
      | cons second more => exact ⟨more, by rw [Option.some.inj (eq_of_beq hsecond)]⟩

theorem controls_cons_of_single {first : List Char} (h : controls [first] = true) (rest : List (List Char)) :
    controls (first :: rest) = true := by
  rw [controls, Bool.or_eq_true] at h ⊢
  refine .inl (h.resolve_right fun h => ?_)
  cases (Bool.and_eq_true_iff.mp h).2

theorem wordsOf_cons_word (word : List Char) (i : Nat) (ws : List SqlToken) :
    wordsOf (⟨.word, word, i⟩ :: ws) = word :: wordsOf ws := rfl

/-- The pieces of a transaction control command begin as it does. -/
theorem controls_of_isControl {s : List Token} {tss : List (List SqlToken)} (h : List.Forall₂ Pieces s tss)
    (hs : IsControl s) : controls (wordsOf tss.flatten) = true := by
  rw [IsControl] at hs
  obtain ⟨first, rest, hwords, hascii, hrest⟩ := controls_words_ascii hs
  cases h with
  | nil => cases hwords
  | @cons t ws ts tss ht hts =>
    cases t with
    | word cs =>
      obtain ⟨hfirst, htail⟩ := List.cons.inj hwords
      obtain ⟨i, rfl⟩ := pieces_of_keyword ht (congrArg some hfirst) hascii
      rw [List.flatten_cons, List.singleton_append, wordsOf_cons_word]
      obtain hsingle | ⟨more, hmore⟩ := hrest
      · exact controls_cons_of_single hsingle _
      · rw [hwords, hmore] at hs
        rw [hmore] at htail
        cases hts with
        | nil => cases htail
        | @cons t ws ts tss ht hts =>
          cases t with
          | word ds =>
            obtain ⟨hsecond, -⟩ := List.cons.inj htail
            obtain ⟨j, rfl⟩ := pieces_of_keyword ht (congrArg some hsecond) (ascii_of_all (by decide))
            rw [List.flatten_cons, List.singleton_append, wordsOf_cons_word]
            exact hs
          | _ => cases htail
    | _ => cases hwords

theorem namesBound_iff {name : Option (List Char)} :
    namesBound name = true ↔ ∃ cs, name = some cs ∧ isHostBound (cs.map Char.toLower) = true := by
  rw [namesBound, Option.any_eq_true]

theorem isHostBound_ne {word : List Char} (h : isHostBound word = true) :
    word ≠ "local".toList ∧ word ≠ "session".toList := by
  have hall : ∀ bound ∈ hostBounds.map String.toList, bound ≠ "local".toList ∧ bound ≠ "session".toList := by decide
  exact hall word (List.contains_iff_mem.mp h)

theorem changesAt_setting {nested : List Char → Bool} {command : List Char}
    (hcommand : command = "set".toList ∨ command = "reset".toList) {kind : Kind} {text : List Char}
    (htext : isHostBound (toLowerCase text) = true) (i j : Nat) (ws : List SqlToken) :
    changesAt nested (⟨.word, command, i⟩ :: ⟨kind, text, j⟩ :: ws) = true := by
  obtain ⟨hlocal, hsession⟩ := isHostBound_ne htext
  have hname : toLowerCase command = command := by obtain rfl | rfl := hcommand <;> decide
  have hset : (command == "set".toList || command == "reset".toList) = true := by
    obtain rfl | rfl := hcommand <;> decide
  simp only [changesAt, List.getElem?_cons_zero, Option.map_some, Option.some.injEq, hlocal, hsession, or_self,
    if_false, Option.any_some, htext, hname, hset]
  rfl

theorem changesAt_scoped {nested : List Char → Bool} {scope : List Char}
    (hscope : scope = "local".toList ∨ scope = "session".toList) {kind : Kind} {text : List Char}
    (htext : isHostBound (toLowerCase text) = true) (i j k : Nat) (ws : List SqlToken) :
    changesAt nested (⟨.word, "set".toList, i⟩ :: ⟨.word, scope, j⟩ :: ⟨kind, text, k⟩ :: ws) = true := by
  have hname : toLowerCase scope = scope := by obtain rfl | rfl := hscope <;> decide
  simp only [changesAt, List.getElem?_cons_zero, List.getElem?_cons_succ, Option.map_some, Option.some.injEq, hname,
    hscope, if_true, Option.any_some, htext]
  rfl

theorem changesAt_resetAll {nested : List Char → Bool} (i j : Nat) (ws : List SqlToken) :
    changesAt nested (⟨.word, "reset".toList, i⟩ :: ⟨.word, "all".toList, j⟩ :: ws) = true := by
  have hall : isHostBound (toLowerCase "all".toList) = false := by decide
  have hscope : ¬(toLowerCase "all".toList = "local".toList ∨ toLowerCase "all".toList = "session".toList) := by decide
  simp only [changesAt, List.getElem?_cons_zero, Option.map_some, Option.some.injEq, hscope, if_false, Option.any_some,
    hall]
  rfl

theorem changesAt_call {nested : List Char → Bool} {kind : Kind} (hkind : kind = .word ∨ kind = .quoted)
    {name : List Char} (hname : toLowerCase name = "set_config".toList) {text : List Char}
    (htext : isHostBound (toLowerCase text) = true) (i j k : Nat) (ws : List SqlToken) :
    changesAt nested (⟨kind, name, i⟩ :: ⟨.symbol, ['('], j⟩ :: ⟨.literal, text, k⟩ :: ws) = true := by
  have hkinds : (kind == .word || kind == .quoted) = true := by obtain rfl | rfl := hkind <;> decide
  simp only [changesAt, hname, hkinds, List.getElem?_cons_zero, List.getElem?_cons_succ, Option.any_some, htext,
    Bool.or_eq_true, Bool.and_eq_true]
  exact .inr ⟨trivial, .inl ⟨⟨by decide, by decide⟩, by decide, trivial⟩⟩

theorem changesAt_execute {nested : List Char → Bool} {text : List Char} (htext : nested (undouble text) = true)
    (i j : Nat) (ws : List SqlToken) :
    changesAt nested (⟨.word, "execute".toList, i⟩ :: ⟨.literal, text, j⟩ :: ws) = true := by
  simp only [changesAt, List.getElem?_cons_zero, Option.any_some, htext, Bool.or_eq_true, Bool.and_eq_true]
  exact .inr ⟨by decide, .inr ⟨by decide, by decide, trivial⟩⟩

/-- A token that names a bound plainly is read as one token that does. -/
theorem pieces_of_bound {t : Token} {ws : List SqlToken} (h : Pieces t ws)
    (ht : namesBound (nameOf plainly t) = true) :
    ∃ kind text i, ws = [⟨kind, text, i⟩] ∧ isHostBound (toLowerCase text) = true := by
  obtain ⟨name, hname, hbound⟩ := namesBound_iff.mp ht
  obtain ⟨kind, text, i, hws, -, htext⟩ := pieces_of_name h hname rfl (isName_of_isHostBound hbound)
  exact ⟨kind, text, i, hws, by rw [htext, hbound]⟩

/-- A constant that spells a bound plainly is read as one literal that does. -/
theorem pieces_of_boundText {t : Token} {ws : List SqlToken} (h : Pieces t ws)
    (ht : namesBound (textOf plainly t) = true) :
    ∃ text i, ws = [⟨.literal, text, i⟩] ∧ isHostBound (toLowerCase text) = true := by
  obtain ⟨value, hvalue, hbound⟩ := namesBound_iff.mp ht
  obtain ⟨body, i, hws, rfl⟩ := pieces_of_literal h hvalue
  obtain ⟨hbody, hascii⟩ := undoubled_of_isName (.inr rfl) rfl (isName_of_isHostBound hbound)
  rw [hbody] at hbound
  exact ⟨body, i, hws, by rw [toLowerCase_of_ascii hascii, hbound]⟩

/-- What is set at a token plainly is changed at its pieces. -/
theorem changesAt_of_setsAt {nested nested' : List Char → Bool} (hnested : ∀ text, nested text = true → nested' text = true)
    {ts : List Token} {tss : List (List SqlToken)} (h : List.Forall₂ Pieces ts tss)
    (hsets : setsAt plainly nested ts = true) : changesAt nested' tss.flatten = true := by
  cases h with
  | nil => cases hsets
  | @cons t ws ts tss ht hts =>
    simp only [setsAt, Bool.or_eq_true, Bool.and_eq_true] at hsets
    obtain ((⟨hcommand, hbound⟩ | ⟨hcommand, hreset⟩) | ⟨⟨hcall, hparen⟩, hbound⟩) | ⟨hcommand, htext⟩ := hsets
    · -- SET, of this session or transaction or without saying
      obtain ⟨i, rfl⟩ := pieces_of_keyword ht (eq_of_beq hcommand) (ascii_of_all (by decide))
      cases hts with
      | nil => simp [namesBound] at hbound
      | @cons u us ts tss hu hts =>
        by_cases hscope : keywordOf u = some "local".toList ∨ keywordOf u = some "session".toList
        · rw [if_pos (by simpa using hscope)] at hbound
          obtain ⟨scope, hu', hscope⟩ : ∃ scope, keywordOf u = some scope ∧
              (scope = "local".toList ∨ scope = "session".toList) := by
            obtain hscope | hscope := hscope
            · exact ⟨_, hscope, .inl rfl⟩
            · exact ⟨_, hscope, .inr rfl⟩
          obtain ⟨j, rfl⟩ := pieces_of_keyword hu hu' (ascii_of_all (by obtain rfl | rfl := hscope <;> decide))
          cases hts with
          | nil => simp [namesBound] at hbound
          | @cons v vs ts tss hv hts =>
            obtain ⟨kind, text, k, rfl, htext⟩ := pieces_of_bound hv hbound
            exact changesAt_scoped hscope htext i j k tss.flatten
        · rw [if_neg (by simpa using hscope)] at hbound
          obtain ⟨kind, text, j, rfl, htext⟩ := pieces_of_bound hu hbound
          exact changesAt_setting (.inl rfl) htext i j tss.flatten
    · -- RESET, of a setting or of all
      obtain ⟨i, rfl⟩ := pieces_of_keyword ht (eq_of_beq hcommand) (ascii_of_all (by decide))
      cases hts with
      | nil => simp [namesBound] at hreset
      | @cons u us ts tss hu hts =>
        obtain hbound | hall := hreset
        · obtain ⟨kind, text, j, rfl, htext⟩ := pieces_of_bound hu hbound
          exact changesAt_setting (.inr rfl) htext i j tss.flatten
        · obtain ⟨j, rfl⟩ := pieces_of_keyword hu (eq_of_beq hall) (ascii_of_all (by decide))
          exact changesAt_resetAll i j tss.flatten
    · -- a call of `set_config`, quoted or not
      have hlower : "set_config".toList.map Char.toLower = "set_config".toList := by decide
      obtain ⟨kind, name, i, rfl, hkind, hname⟩ := pieces_of_name ht (eq_of_beq hcall) hlower (by decide)
      cases hts with
      | nil => cases hparen
      | @cons u us ts tss hu hts =>
        obtain rfl : u = .symbol '(' := Option.some.inj (eq_of_beq hparen)
        cases hu with
        | symbol hu =>
          cases hu with
          | symbol =>
            cases hts with
            | nil => simp [namesBound] at hbound
            | @cons v vs ts tss hv hts =>
              obtain ⟨text, k, rfl, htext⟩ := pieces_of_boundText hv hbound
              exact changesAt_call hkind hname htext i _ k tss.flatten
    · -- EXECUTE of a text, which is read in its turn
      obtain ⟨i, rfl⟩ := pieces_of_keyword ht (eq_of_beq hcommand) (ascii_of_all (by decide))
      cases hts with
      | nil => cases htext
      | @cons u us ts tss hu hts =>
        obtain ⟨text, hvalue, hruns⟩ := (Option.any_eq_true _ _).mp htext
        obtain ⟨body, j, rfl, rfl⟩ := pieces_of_literal hu hvalue
        refine changesAt_execute ?_ i j tss.flatten
        rw [undouble_eq]
        exact hnested _ hruns

/-- The pieces of the tokens at a list's end are at the end of its pieces. -/
theorem pieces_of_suffix {s ts : List Token} {tss : List (List SqlToken)} (h : List.Forall₂ Pieces s tss)
    (hts : ts <:+ s) : ∃ tss', List.Forall₂ Pieces ts tss' ∧ tss'.flatten <:+ tss.flatten := by
  refine ⟨tss.drop (s.length - ts.length), ?_, ?_⟩
  · have hdrop := List.forall₂_drop (s.length - ts.length) h
    rwa [← List.suffix_iff_eq_drop.mp hts] at hdrop
  · refine ⟨(tss.take (s.length - ts.length)).flatten, ?_⟩
    rw [← List.flatten_append, List.take_append_drop]

/-- A bound set plainly is a bound changed, at any depth. -/
theorem changes_of_sets {n : Nat} {s : List Token} {tss : List (List SqlToken)} (h : List.Forall₂ Pieces s tss)
    (hsets : sets plainly n s = true) : changesHostBounds n tss.flatten = true := by
  induction n generalizing s tss with
  | zero => cases hsets
  | succ n ih =>
    have hnested : ∀ text, ((SqlLex.lexemes text).any fun ls => plainly.reads ls && sets plainly n (tokensOf ls)) = true →
        changesHostBounds n (sqlTokens text) = true := by
      intro text htext
      obtain ⟨ls, hls, hruns⟩ := (Option.any_eq_true _ _).mp htext
      obtain ⟨hsteady, hsets⟩ := Bool.and_eq_true_iff.mp hruns
      obtain ⟨wss, himages, htokens⟩ := sqlTokens_of_steady hls hsteady
      obtain ⟨tss, hpieces, hflatten⟩ := pieces_of_images himages
      rw [htokens, ← hflatten]
      exact ih hpieces hsets
    rw [sets, Bool.or_eq_true] at hsets
    rw [changesHostBounds, Bool.or_eq_true]
    obtain hsets | hsets := hsets
    · obtain ⟨ts, hts, hat⟩ := List.any_eq_true.mp hsets
      obtain ⟨tss', hpieces, hsuffix⟩ := pieces_of_suffix h ((List.mem_tails _ _).mp hts)
      exact .inl (List.any_eq_true.mpr
        ⟨tss'.flatten, (List.mem_tails _ _).mpr hsuffix, changesAt_of_setsAt hnested hpieces hat⟩)
    · obtain ⟨hdo, hbody⟩ := Bool.and_eq_true_iff.mp hsets
      obtain ⟨t, ht, hruns⟩ := List.any_eq_true.mp hbody
      obtain ⟨ws, hws, hpieces⟩ := Scan.exists_mem_of_forall₂ h ht
      refine .inr (Bool.and_eq_true_iff.mpr ⟨?_, List.any_eq_true.mpr ?_⟩)
      · cases h with
        | nil => cases ht
        | cons hhead _ =>
          obtain ⟨i, rfl⟩ := pieces_of_keyword hhead (eq_of_beq hdo) (ascii_of_all (by decide))
          rfl
      · obtain ⟨text, hvalue, hruns⟩ := (Option.any_eq_true _ _).mp hruns
        have hmem : ∀ w ∈ ws, w ∈ tss.flatten := fun w hw => List.mem_flatten.mpr ⟨ws, hws, hw⟩
        cases t with
        | literal parts =>
          obtain ⟨body, i, rfl, rfl⟩ := pieces_of_literal hpieces hvalue
          refine ⟨_, hmem _ List.mem_cons_self, ?_⟩
          rw [← undouble_eq] at hruns
          simp [hnested _ hruns]
        | dollar tag body =>
          obtain rfl := Option.some.inj hvalue
          cases hpieces with
          | dollar hpieces =>
            cases hpieces with
            | dollar =>
              refine ⟨_, hmem _ List.mem_cons_self, ?_⟩
              simp [hnested _ hruns]
        | _ => cases hvalue

/-- `checkFile` with the text's own check. -/
def withText (C : Checks) : Checks := { C with checkText := checkText }

/-- No statement of an accepted file controls the transaction or changes a host bound, as the tokenizer sees it. -/
theorem statements_of_checkFile {C : Checks} {file : MigrationFile} (h : checkFile (withText C) file = .ok ())
    {statement : List SqlToken} (hs : statement ∈ sqlStatements file.sql.toList) :
    controls (wordsOf statement) = false ∧
      changesHostBounds (file.sql.toList.length + 1) statement = false := by
  have htext : checkText file = .ok () := (check_bind_eq_ok.mp h).2
  simp only [checkText, check_bind_eq_ok, checkEach_eq_ok] at htext
  have hstatement := htext.2.2.2 statement hs
  simp only [checkStatement, check_bind_eq_ok, refuseUnless_eq_ok, Bool.not_eq_true'] at hstatement
  exact ⟨hstatement.1, hstatement.2.1⟩

/-- In an accepted file, no statement of the server's that stays in step controls the transaction or sets a
bound plainly. -/
theorem keeps_of_steady {C : Checks} {file : MigrationFile} (hok : checkFile (withText C) file = .ok ())
    {ls : List Lexeme} (hls : SqlLex.lexemes file.sql.toList = some ls) (hsteady : Steady [] ls = true)
    {s : List Token} (hs : s ∈ SqlLex.statements ls) : ¬IsControl s ∧ ¬SetsBound plainly s := by
  obtain ⟨tss, hpieces, hsubset, hstatement⟩ := statement_pieces hls hsteady hs
  constructor
  · intro hcontrol
    have hwords := controls_of_isControl hpieces hcontrol
    have hne : tss.flatten ≠ [] := by
      intro hempty
      rw [hempty] at hwords
      cases hwords
    cases hwords.symm.trans (statements_of_checkFile hok (hstatement hne)).1
  · rintro ⟨n, hsets⟩
    have hchanges := changes_of_sets hpieces hsets
    have hne : tss.flatten ≠ [] := by
      intro hempty
      rw [hempty] at hchanges
      cases n <;> cases hchanges
    have hdeep := changesHostBounds_mono (n := file.sql.toList.length + 1)
      (fun t ht hnested => Nat.lt_succ_of_lt (length_lt_of_mem_sqlTokens (hsubset t ht) hnested)) (Nat.succ_pos _) hchanges
    cases hdeep.symm.trans (statements_of_checkFile hok (hstatement hne)).2

/-- An accepted file the tokenizer stays in step on keeps its transaction exactly when every statement that sets a
host bound sets one in plain spelling. -/
theorem keepsTransaction_iff (decode : Opening → List Char → List Char) {C : Checks} {file : MigrationFile}
    (hok : checkFile (withText C) file = .ok ()) (hstep : InStep file.sql) :
    KeepsTransaction decode file.sql ↔ PlainBounds decode file.sql := by
  constructor
  · intro h ls hls s hs hsets
    exact absurd hsets (h ls hls s hs).2
  · intro h ls hls s hs
    obtain ⟨hcontrol, hplain⟩ := keeps_of_steady hok hls (hstep ls hls) hs
    exact ⟨hcontrol, fun hsets => hplain (h ls hls s hs hsets)⟩

theorem inStep_iff {sql : String} : InStep sql ↔ (SqlLex.lexemes sql.toList).all (Steady []) = true := by
  rw [InStep]
  cases SqlLex.lexemes sql.toList with
  | none => simp
  | some ls => simp

/-- A comment, a quoted text and a body that name commands, and a setting. -/
def guardedFile : MigrationFile := ⟨"0001_guard.sql",
  "-- why: don't commit;\nset search_path to app;\ncomment on table entry is 'it''s here; commit;';\ndo $body$ begin perform 1; end $body$;"⟩

/-- A migration keeps its transaction when no bound is set in it, and none is. -/
theorem keepsTransaction_iff_entry :
    KeepsTransaction (fun _ body => body) guardedFile.sql ↔ PlainBounds (fun _ body => body) guardedFile.sql :=
  @keepsTransaction_iff (fun _ body => body) entryChecks guardedFile (by decide +kernel)
    (inStep_iff.mpr (by decide +kernel))

/-- A carriage return ends the server's comment, not the tokenizer's: the file is accepted, and the server commits. -/
def returnFile : MigrationFile := ⟨"0001_note.sql", "-- note\rcommit;"⟩

theorem commit_hidden : ¬∀ (C : Checks) (decode : Opening → List Char → List Char) (file : MigrationFile),
    checkFile (withText C) file = .ok () → KeepsTransaction decode file.sql := by
  intro h
  have hok : checkFile (withText entryChecks) returnFile = .ok () := by decide +kernel
  have hlexemes : SqlLex.lexemes returnFile.sql.toList = some [.line " note".toList, .blank '\r', .word "commit".toList,
      .symbol ';'] := by decide +kernel
  have hkeeps := h entryChecks (fun _ body => body) returnFile hok _ hlexemes [.word "commit".toList] (by decide)
  exact hkeeps.1 rfl

/-- The other contexts the two lexers read differently: a dollar quote's tag above ASCII, a dollar sign in an
identifier above ASCII, the second part of a string with escapes. -/
example : ∀ sql ∈ ["select $\u00e9$ ' $\u00e9$; commit; select $\u00e9$ ' $\u00e9$",
    "select 1 as \u00e9$$; commit; select 1 as \u00e9$$", "select E'a'\n'\\''; commit; --'"],
    checkText ⟨"0001_note.sql", sql⟩ = .ok () ∧
      ((SqlLex.lexemes sql.toList).map SqlLex.statements).any (·.any fun s => controls (leadingWords s)) = true := by
  decide +kernel

end Norbital.Store

import Mathlib.Data.List.Infix
import Mathlib.Data.List.ReduceOption
import Mathlib.Data.List.TakeWhile
import Norbital.Lib.Scan
import Norbital.Lib.Trim
import Norbital.Store.Migrate

/-!
# The text of a migration file

What `checkFile` of `store/src/migrate.ts` looks at in a file: its step markers
and accept lines, its checks, and its statements as `sqlTokens` and
`sqlStatements` cut them.  Texts are lists of characters; the words a text is
compared with are the source's own.
-/

namespace Norbital.Store

open Lib (isSpace trim)

/-- `[a-z_]`, of either case. -/
def isWordStart (c : Char) : Bool := c.isAlpha || c == '_'

/-- `[a-z0-9_]`, of either case, and `\w`. -/
def isWordChar (c : Char) : Bool := isWordStart c || c.isDigit

/-- `[a-z0-9_$]`, of either case. -/
def isWordPart (c : Char) : Bool := isWordChar c || c == '$'

/-- `toLowerCase`, as far as it gives ASCII letters. -/
def toLowerCase (cs : List Char) : List Char :=
  cs.map fun c => if c = '\u212a' then 'k' else c.toLower

/-- `text.replaceAll("''", "'")`. -/
def undouble : List Char → List Char
  | [] => []
  | [c] => [c]
  | c :: d :: cs => if c = '\'' ∧ d = '\'' then c :: undouble cs else c :: undouble (d :: cs)

inductive Kind where
  | word
  | literal
  | body
  | quoted
  | symbol
  deriving DecidableEq, Repr

/-- A token, its text, and where it stands. -/
structure SqlToken where
  kind : Kind
  text : List Char
  index : Nat
  deriving DecidableEq, Repr

/-- What follows the next line feed. -/
def afterNewline (cs : List Char) : List Char := (cs.dropWhile (· != '\n')).tail

/-- What follows a block comment, `d` of them open. -/
def skipComment : Nat → List Char → List Char
  | 0, cs => cs
  | _ + 1, [] => []
  | _ + 1, [_] => []
  | d + 1, c :: e :: cs =>
    if c = '/' ∧ e = '*' then skipComment (d + 2) cs
    else if c = '*' ∧ e = '/' then skipComment d cs
    else skipComment (d + 1) (e :: cs)

/-- `/^\$(?:[a-z_][a-z0-9_]*)?\$/i`: the delimiter at the head of a text, and what follows it. -/
def delimiterOf : List Char → Option (List Char × List Char)
  | [] => none
  | c :: cs =>
    if c = '$' ∧ (cs.takeWhile isWordChar).head?.all isWordStart ∧ (cs.dropWhile isWordChar).head? = some '$' then
      some (c :: (cs.takeWhile isWordChar ++ ['$']), (cs.dropWhile isWordChar).tail)
    else none

/-- What stands before the first `mark`, and what follows it; without one, everything and nothing. -/
def splitAt (mark : List Char) : List Char → List Char × List Char
  | [] => ([], [])
  | c :: cs =>
    if mark.isPrefixOf (c :: cs) then ([], (c :: cs).drop mark.length)
    else (c :: (splitAt mark cs).1, (splitAt mark cs).2)

/-- A quoted text up to its closing quote, or to the end, and what follows it. -/
def readQuoted (escapes : Bool) (quote : Char) : List Char → List Char × List Char
  | [] => ([], [])
  | c :: cs =>
    if c = quote then
      match cs with
      | [] => ([], [])
      | d :: ds =>
        -- a doubled quote belongs to the text, which keeps both
        if d = quote then (c :: d :: (readQuoted escapes quote ds).1, (readQuoted escapes quote ds).2)
        else ([], d :: ds)
    else if escapes && c == '\\' then
      match cs with
      | [] => ([c], [])
      | d :: ds => (c :: d :: (readQuoted escapes quote ds).1, (readQuoted escapes quote ds).2)
    else (c :: (readQuoted escapes quote cs).1, (readQuoted escapes quote cs).2)

/-- `/(?:^|[^a-z0-9_])e$/i` of what stands before a quote, the nearest first. -/
def endsInE : List Char → Bool
  | [] => false
  | c :: cs => c.toLower == 'e' && cs.head?.all (!isWordChar ·)

/-- One turn of `sqlTokens`: the token it pushes, if any, and what is left. -/
def chunk (before : List Char) : List Char → Option SqlToken × List Char
  | [] => (none, [])
  | c :: cs =>
    if isSpace c then (none, cs)
    else if c = '-' ∧ cs.head? = some '-' then (none, afterNewline cs.tail)
    else if c = '/' ∧ cs.head? = some '*' then (none, skipComment 1 cs.tail)
    else
      match delimiterOf (c :: cs) with
      | some (delimiter, rest) =>
        (some ⟨.body, (splitAt delimiter rest).1, before.length⟩, (splitAt delimiter rest).2)
      | none =>
        if c = '\'' then
          (some ⟨.literal, (readQuoted (endsInE before) c cs).1, before.length⟩, (readQuoted (endsInE before) c cs).2)
        else if c = '"' then
          (some ⟨.quoted, (readQuoted false c cs).1, before.length⟩, (readQuoted false c cs).2)
        else if isWordStart c then
          (some ⟨.word, toLowerCase (c :: cs.takeWhile isWordPart), before.length⟩, cs.dropWhile isWordPart)
        else (some ⟨.symbol, [c], before.length⟩, cs)

/-- What was read of a text, the nearest first, put before what had been. -/
def readTo (before cs rest : List Char) : List Char := (cs.take (cs.length - rest.length)).reverse ++ before

def turn (before : List Char) : List Char → Option (Option SqlToken × List Char × List Char)
  | [] => none
  | c :: cs =>
    some ((chunk before (c :: cs)).1, readTo before (c :: cs) (chunk before (c :: cs)).2, (chunk before (c :: cs)).2)

def sqlTokens (sql : List Char) : List SqlToken :=
  ((Scan.run turn sql.length [] sql).getD []).reduceOption

/-- The tokens cut at the semicolons, without the empty statements. -/
def sqlStatements (sql : List Char) : List (List SqlToken) :=
  ((sqlTokens sql).splitOnP fun t => t.kind == .symbol && t.text == [';']).filter (!·.isEmpty)

def hostBounds : List String :=
  ["lock_timeout", "statement_timeout", "idle_in_transaction_session_timeout", "transaction_timeout"]

def isHostBound (name : List Char) : Bool := (hostBounds.map String.toList).contains name

/-- What one token, with those after it, changes: a SET or RESET, a call of `set_config`, or a text to
execute. -/
def changesAt (nested : List Char → Bool) : List SqlToken → Bool
  | [] => false
  | token :: rest =>
    let name := toLowerCase token.text
    let textAt := fun i => rest[i]?.map fun t => toLowerCase t.text
    let setting := if textAt 0 = some "local".toList ∨ textAt 0 = some "session".toList then textAt 1 else textAt 0
    (token.kind == .word && (name == "set".toList || name == "reset".toList) &&
        (setting.any isHostBound || (name == "reset".toList && setting == some "all".toList))) ||
      ((token.kind == .word || token.kind == .quoted) &&
        ((name == "set_config".toList && rest[0]?.any (·.text == ['(']) &&
            rest[1]?.any fun t => t.kind == .literal && isHostBound (toLowerCase t.text)) ||
          (name == "execute".toList && rest[0]?.any fun t => t.kind == .literal && nested (undouble t.text))))

/-- `changesHostBounds`; `n` bounds how deep texts to execute stand in each other. -/
def changesHostBounds : Nat → List SqlToken → Bool
  | 0, _ => false
  | n + 1, tokens =>
    let nested := fun text => changesHostBounds n (sqlTokens text)
    tokens.tails.any (changesAt nested) ||
      -- the body of a DO is executed, that of a function only stored
      (tokens.head?.any (·.text == "do".toList) &&
        tokens.any fun t => (t.kind == .body && nested t.text) || (t.kind == .literal && nested (undouble t.text)))

/-- What follows `pre` in a text that starts with it. -/
def following (pre : String) (cs : List Char) : Option (List Char) :=
  if pre.toList.isPrefixOf cs then some (cs.drop pre.length) else none

structure Block where
  id : String
  klass : String
  accepted : Bool
  deriving DecidableEq, Repr

/-- `/^-- step (\S+) \((\w+)\)\s*$/`. -/
def stepLine (line : List Char) : Option (String × String) := do
  let rest ← following "-- step " line
  let id := rest.takeWhile (!isSpace ·)
  let rest ← following " (" (rest.dropWhile (!isSpace ·))
  let klass := rest.takeWhile isWordChar
  let rest ← following ")" (rest.dropWhile isWordChar)
  if !id.isEmpty && !klass.isEmpty && rest.all isSpace then some (String.ofList id, String.ofList klass) else none

/-- `/^-- accept: (\S+)\s*$/`. -/
def acceptLine (line : List Char) : Option String := do
  let rest ← following "-- accept: " line
  let id := rest.takeWhile (!isSpace ·)
  if !id.isEmpty && (rest.dropWhile (!isSpace ·)).all isSpace then some (String.ofList id) else none

def blocksFrom (current : Option Block) : List (List Char) → List Block
  | [] => current.toList
  | line :: lines =>
    match stepLine line with
    | some (id, klass) => current.toList ++ blocksFrom (some ⟨id, klass, false⟩) lines
    | none => blocksFrom (current.map fun block =>
        if acceptLine line = some block.id then { block with accepted := true } else block) lines

def blocksOf (sql : List Char) : List Block := blocksFrom none (sql.splitOnP (· == '\n'))

structure Check where
  name : String
  query : List Char
  deriving DecidableEq, Repr

def isLineEnd (c : Char) : Bool := decide (c.toNat ∈ [10, 13, 0x2028, 0x2029])

/-- `/^-- check: (\S+)[ \t]*$/m` at the start of a line: the name, and what follows the marker. -/
def checkMarker (line : List Char) : Option (String × List Char) := do
  let rest ← following "-- check: " line
  let name := rest.takeWhile (!isSpace ·)
  let rest := (rest.dropWhile (!isSpace ·)).dropWhile fun c => c == ' ' || c == '\t'
  if !name.isEmpty && rest.head?.all isLineEnd then some (String.ofList name, rest) else none

/-- The one statement after a marker. -/
def queryOf (rest : List Char) : List Char :=
  match (sqlTokens rest).find? fun t => t.kind == .symbol && t.text == [';'] with
  | some semi => trim (rest.take semi.index)
  | none => trim rest

def checksFrom (lineStart : Bool) : List Char → List Check
  | [] => []
  | c :: cs =>
    (if lineStart then ((checkMarker (c :: cs)).map fun (name, rest) => ⟨name, queryOf rest⟩).toList else []) ++
      checksFrom (isLineEnd c) cs

def checksOf (sql : List Char) : List Check := checksFrom true sql

def stepClasses : List String := ["additive", "rename", "backfill", "validating", "destructive", "data"]

/-- A statement's words in order. -/
def wordsOf (statement : List SqlToken) : List (List Char) :=
  (statement.filter (·.kind == .word)).map (·.text)

/-- Transaction control, by a statement's first words. -/
def controls (words : List (List Char)) : Bool :=
  (words[0]?.any fun w =>
      (["begin", "commit", "end", "rollback", "abort", "savepoint", "release"].map String.toList).contains w) ||
    ((words[0]?.any fun w => w == "start".toList || w == "prepare".toList) &&
      words[1]? == some "transaction".toList)

def concurrent (words : List (List Char)) : Bool :=
  words.contains "concurrently".toList &&
    (words[0]? == some "reindex".toList ||
      ((words[0]? == some "create".toList || words[0]? == some "drop".toList) && words.contains "index".toList))

def checkStatement (file : MigrationFile) (statement : List SqlToken) : Except StoreError Unit := do
  refuseUnless (!controls (wordsOf statement)) (refusal "migrationInvalid"
    s!"{file.name}: transaction control cannot run inside an atomic migration")
  refuseUnless (!changesHostBounds (file.sql.toList.length + 1) statement) (refusal "migrationInvalid"
    s!"{file.name}: lock_timeout, statement_timeout, idle_in_transaction_session_timeout and transaction_timeout belong to the host's bounded migration transaction")
  refuseUnless (!concurrent (wordsOf statement)) (refusal "migrationInvalid"
    s!"{file.name}: CONCURRENTLY cannot run in an atomic migration; use an ordinary index statement")

/-- What `checkFile` refuses of a well named file. -/
def checkText (file : MigrationFile) : Except StoreError Unit := do
  let sql := file.sql.toList
  let blocks := blocksOf sql
  checkEach (fun block => refuseUnless (stepClasses.contains block.klass) (refusal "migrationInvalid"
    (s!"{file.name}: unknown step class '{block.klass}': it is one of " ++ String.intercalate ", " stepClasses)))
    blocks
  checkEach (fun check => refuseUnless
    ((sqlTokens check.query).head?.any fun t => t.text == "select".toList || t.text == "with".toList)
    (refusal "migrationInvalid"
      s!"{file.name}: check {check.name} needs one SELECT whose rows are the violations")) (checksOf sql)
  let refused := blocks.filter fun block => block.klass == "destructive" && !block.accepted
  refuseUnless refused.isEmpty (refusal "migrationInvalid"
    (s!"{file.name}: destructive steps need an accept line: " ++
      String.intercalate ", " (refused.map fun block => "-- accept: " ++ block.id)))
  checkEach (checkStatement file) (sqlStatements sql)

theorem length_afterNewline_le (cs : List Char) : (afterNewline cs).length ≤ cs.length := by
  have hdrop := (List.dropWhile_suffix (· != '\n') (l := cs)).length_le
  have htail := (List.tail_suffix (cs.dropWhile (· != '\n'))).length_le
  exact htail.trans hdrop

theorem length_skipComment_le (d : Nat) (cs : List Char) : (skipComment d cs).length ≤ cs.length := by
  induction d, cs using skipComment.induct with
  | case1 => simp [skipComment]
  | case2 => simp [skipComment]
  | case3 => simp [skipComment]
  | case4 d c e cs hopen ih =>
    rw [skipComment, if_pos hopen]
    simp only [List.length_cons]
    omega
  | case5 d c e cs hopen hclose ih =>
    rw [skipComment, if_neg hopen, if_pos hclose]
    simp only [List.length_cons]
    omega
  | case6 d c e cs hopen hclose ih =>
    rw [skipComment, if_neg hopen, if_neg hclose]
    simp only [List.length_cons] at ih ⊢
    omega

theorem length_splitAt_le (mark cs : List Char) :
    (splitAt mark cs).1.length ≤ cs.length ∧ (splitAt mark cs).2.length ≤ cs.length := by
  induction cs with
  | nil => simp [splitAt]
  | cons c cs ih =>
    rw [splitAt]
    split
    · exact ⟨by simp, by simp⟩
    · simp only [List.length_cons]
      omega

/-- What reading a character of a quoted text comes to. -/
theorem readQuoted_cons (escapes : Bool) (quote c : Char) (cs : List Char) :
    readQuoted escapes quote (c :: cs) =
      if c = quote then
        match cs with
        | [] => ([], [])
        | d :: ds =>
          if d = quote then (c :: d :: (readQuoted escapes quote ds).1, (readQuoted escapes quote ds).2)
          else ([], d :: ds)
      else if escapes && c == '\\' then
        match cs with
        | [] => ([c], [])
        | d :: ds => (c :: d :: (readQuoted escapes quote ds).1, (readQuoted escapes quote ds).2)
      else (c :: (readQuoted escapes quote cs).1, (readQuoted escapes quote cs).2) := by
  rw [readQuoted.eq_def]

theorem length_readQuoted_le (escapes : Bool) (quote : Char) (cs : List Char) :
    (readQuoted escapes quote cs).1.length ≤ cs.length ∧ (readQuoted escapes quote cs).2.length ≤ cs.length := by
  induction cs using readQuoted.induct escapes quote with
  | case1 => simp [readQuoted]
  | case2 => simp [readQuoted_cons]
  | case3 ds ih =>
    rw [readQuoted_cons, if_pos rfl]
    dsimp only
    rw [if_pos rfl]
    simp only [List.length_cons]
    omega
  | case4 d ds hd =>
    rw [readQuoted_cons, if_pos rfl]
    dsimp only
    rw [if_neg hd]
    simp
  | case5 d hd hesc =>
    rw [readQuoted_cons, if_neg hd, if_pos hesc]
    simp
  | case6 d hd hesc e ds ih =>
    rw [readQuoted_cons, if_neg hd, if_pos hesc]
    simp only [List.length_cons]
    omega
  | case7 d ds hd hesc ih =>
    rw [readQuoted_cons, if_neg hd, if_neg hesc]
    simp only [List.length_cons]
    omega

theorem length_delimiterOf_lt {cs delimiter rest : List Char} (h : delimiterOf cs = some (delimiter, rest)) :
    rest.length < cs.length := by
  cases cs with
  | nil => simp [delimiterOf] at h
  | cons c cs =>
    obtain ⟨-, hpair⟩ := Option.ite_none_right_eq_some.mp h
    cases hpair
    have hdrop := (List.dropWhile_suffix isWordChar (l := cs)).length_le
    have htail := (List.tail_suffix (cs.dropWhile isWordChar)).length_le
    rw [List.length_cons]
    omega

/-- A text stored in a token, to be read as statements of its own. -/
def SqlToken.Nested (t : SqlToken) : Prop := t.kind = .literal ∨ t.kind = .body

/-- One turn reads a character at least, and a text it keeps is shorter than what there was. -/
theorem chunk_length (before : List Char) (c : Char) (cs : List Char) :
    (chunk before (c :: cs)).2.length ≤ cs.length ∧
      ∀ t ∈ (chunk before (c :: cs)).1, t.Nested → t.text.length ≤ cs.length := by
  have hquoted := fun escapes => length_readQuoted_le escapes c cs
  rw [chunk]
  split
  · exact ⟨le_rfl, by simp⟩
  · split
    · exact ⟨(length_afterNewline_le _).trans (List.tail_suffix cs).length_le, by simp⟩
    · split
      · exact ⟨(length_skipComment_le _ _).trans (List.tail_suffix cs).length_le, by simp⟩
      · split
        · next delimiter rest hdelimiter =>
          have hrest := length_delimiterOf_lt hdelimiter
          have hsplit := length_splitAt_le delimiter rest
          rw [List.length_cons] at hrest
          refine ⟨by dsimp only; omega, ?_⟩
          rintro t ⟨⟩ -
          dsimp only
          omega
        · split
          · refine ⟨(hquoted _).2, ?_⟩
            rintro t ⟨⟩ -
            exact (hquoted _).1
          · split
            · refine ⟨(hquoted _).2, ?_⟩
              rintro t ⟨⟩ -
              exact (hquoted _).1
            · split
              · refine ⟨(List.dropWhile_suffix isWordPart).length_le, ?_⟩
                rintro t ⟨⟩ (hkind | hkind) <;> cases hkind
              · refine ⟨le_rfl, ?_⟩
                rintro t ⟨⟩ (hkind | hkind) <;> cases hkind

theorem turn_shrinks : Scan.Shrinks turn := by
  intro before cs item before' rest h
  cases cs with
  | nil => cases h
  | cons c cs =>
    cases h
    exact Nat.lt_succ_of_le (chunk_length before c cs).1

/-- `tokens` is what the tokenizer reads from a text that follows `before`. -/
def Reads (before cs : List Char) (tokens : List SqlToken) : Prop :=
  ∃ items, Scan.Reads turn before cs items ∧ items.reduceOption = tokens

theorem Reads.nil (before : List Char) : Reads before [] [] := ⟨[], .nil before, rfl⟩

theorem Reads.cons {before : List Char} {c : Char} {cs rest : List Char} {t : Option SqlToken} {tokens : List SqlToken}
    (hchunk : chunk before (c :: cs) = (t, rest)) (h : Reads (readTo before (c :: cs) rest) rest tokens) :
    Reads before (c :: cs) (t.toList ++ tokens) := by
  obtain ⟨items, hitems, rfl⟩ := h
  refine ⟨t :: items, .cons ?_ hitems, ?_⟩
  · rw [turn, hchunk]
  · cases t <;> rfl

theorem Reads.inv {before : List Char} {c : Char} {cs rest : List Char} {t : Option SqlToken} {tokens : List SqlToken}
    (h : Reads before (c :: cs) tokens) (hchunk : chunk before (c :: cs) = (t, rest)) :
    ∃ tail, tokens = t.toList ++ tail ∧ Reads (readTo before (c :: cs) rest) rest tail := by
  obtain ⟨items, hitems, rfl⟩ := h
  cases hitems with
  | cons hstep htail =>
    rw [turn, hchunk] at hstep
    cases hstep
    refine ⟨_, ?_, _, htail, rfl⟩
    cases t <;> rfl

theorem exists_reads (before cs : List Char) : ∃ tokens, Reads before cs tokens := by
  obtain ⟨items, hitems⟩ := Scan.exists_reads turn_shrinks (fun _ _ _ => rfl) before cs
  exact ⟨_, items, hitems, rfl⟩

theorem sqlTokens_eq_iff {sql : List Char} {tokens : List SqlToken} :
    sqlTokens sql = tokens ↔ Reads [] sql tokens := by
  obtain ⟨items, hitems⟩ := Scan.exists_reads turn_shrinks (fun _ _ _ => rfl) [] sql
  have hrun := (Scan.run_eq_some_iff turn_shrinks (Nat.le_refl sql.length)).mpr hitems
  rw [sqlTokens, hrun, Option.getD_some]
  constructor
  · rintro rfl
    exact ⟨items, hitems, rfl⟩
  · rintro ⟨items', hitems', rfl⟩
    rw [hitems.unique hitems']

theorem Reads.length_lt {before cs : List Char} {tokens : List SqlToken} (h : Reads before cs tokens) :
    ∀ t ∈ tokens, t.Nested → t.text.length < cs.length := by
  obtain ⟨items, hitems, rfl⟩ := h
  induction hitems with
  | nil => simp [List.reduceOption_nil]
  | @cons before before' c cs rest item items hstep htail ih =>
    have hchunk := chunk_length before c cs
    cases hstep
    intro t ht hnested
    rw [List.reduceOption_mem_iff, List.mem_cons] at ht
    rw [List.length_cons]
    obtain ht | ht := ht
    · have := hchunk.2 t ht.symm hnested
      omega
    · have := ih t (List.reduceOption_mem_iff.mpr ht) hnested
      omega

/-- A text to read as statements of its own is shorter than the one it stands in. -/
theorem length_lt_of_mem_sqlTokens {sql : List Char} {t : SqlToken} (ht : t ∈ sqlTokens sql) (hnested : t.Nested) :
    t.text.length < sql.length :=
  (sqlTokens_eq_iff.mp rfl).length_lt t ht hnested

theorem length_undouble_le (cs : List Char) : (undouble cs).length ≤ cs.length := by
  induction cs using undouble.induct with
  | case1 => simp [undouble]
  | case2 => simp [undouble]
  | case3 c d cs h ih =>
    rw [undouble, if_pos h]
    simp only [List.length_cons]
    omega
  | case4 c d cs h ih =>
    rw [undouble, if_neg h]
    simp only [List.length_cons] at ih ⊢
    omega

/-- What a token changes depends on the texts it stores alone. -/
theorem changesAt_mono {f g : List Char → Bool} {tokens : List SqlToken}
    (h : ∀ t ∈ tokens, t.kind = .literal → f (undouble t.text) = true → g (undouble t.text) = true)
    (hf : changesAt f tokens = true) : changesAt g tokens = true := by
  cases tokens with
  | nil => exact hf
  | cons token rest =>
    simp only [changesAt, Bool.or_eq_true, Bool.and_eq_true] at hf ⊢
    obtain hset | ⟨hkind, hcall | ⟨hname, hexecute⟩⟩ := hf
    · exact .inl hset
    · exact .inr ⟨hkind, .inl hcall⟩
    · refine .inr ⟨hkind, .inr ⟨hname, ?_⟩⟩
      obtain ⟨t, ht, hliteral⟩ := (Option.any_eq_true _ _).mp hexecute
      obtain ⟨hliteral, hnested⟩ := Bool.and_eq_true_iff.mp hliteral
      have hmem : t ∈ token :: rest := List.mem_cons_of_mem _ (List.mem_of_getElem? ht)
      exact (Option.any_eq_true _ _).mpr
        ⟨t, ht, Bool.and_eq_true_iff.mpr ⟨hliteral, h t hmem (by simpa using hliteral) hnested⟩⟩

/-- A change is found as soon as the depth allowed exceeds the length of every stored text. -/
theorem changesHostBounds_mono {m n : Nat} {tokens : List SqlToken}
    (hn : ∀ t ∈ tokens, t.Nested → t.text.length < n) (hpos : 0 < n)
    (h : changesHostBounds m tokens = true) : changesHostBounds n tokens = true := by
  induction m generalizing n tokens with
  | zero => cases h
  | succ m ih =>
    obtain ⟨n, rfl⟩ := Nat.exists_eq_succ_of_ne_zero hpos.ne'
    -- a stored text is shorter than `n + 1`, what it stores shorter than `n`
    have hnested : ∀ t ∈ tokens, t.Nested → ∀ text : List Char, text.length ≤ t.text.length →
        changesHostBounds m (sqlTokens text) = true → changesHostBounds n (sqlTokens text) = true := by
      intro t ht hkind text hlength hm
      have hless := hn t ht hkind
      obtain hzero | hzero := Nat.eq_zero_or_pos n
      · obtain rfl : text = [] := List.length_eq_zero_iff.mp (by omega)
        cases m <;> cases hm
      · refine ih (fun u hu hukind => ?_) hzero hm
        have := length_lt_of_mem_sqlTokens hu hukind
        omega
    rw [changesHostBounds, Bool.or_eq_true] at h ⊢
    obtain h | h := h
    · refine .inl ?_
      obtain ⟨suffix, hsuffix, hchanges⟩ := List.any_eq_true.mp h
      refine List.any_eq_true.mpr ⟨suffix, hsuffix, changesAt_mono (fun t ht hliteral => ?_) hchanges⟩
      exact hnested t (((List.mem_tails _ _).mp hsuffix).subset ht) (.inl hliteral) _ (length_undouble_le _)
    · refine .inr ?_
      obtain ⟨hdo, h⟩ := Bool.and_eq_true_iff.mp h
      refine Bool.and_eq_true_iff.mpr ⟨hdo, ?_⟩
      obtain ⟨t, ht, hstored⟩ := List.any_eq_true.mp h
      refine List.any_eq_true.mpr ⟨t, ht, ?_⟩
      simp only [Bool.or_eq_true, Bool.and_eq_true, beq_iff_eq] at hstored ⊢
      obtain ⟨hkind, hchanges⟩ | ⟨hkind, hchanges⟩ := hstored
      · exact .inl ⟨hkind, hnested t ht (.inr hkind) _ le_rfl hchanges⟩
      · exact .inr ⟨hkind, hnested t ht (.inl hkind) _ (length_undouble_le _) hchanges⟩

end Norbital.Store

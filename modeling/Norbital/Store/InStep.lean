import Mathlib
import Norbital.Lib.SqlLex
import Norbital.Store.SqlTokens

/-!
# The tokenizer in step with PostgreSQL

`sqlTokens` beside the server's lexical rules.  Lexeme by lexeme, `inStep` says
where the two cut a text alike; a text they stay in step on gives tokens that are
the server's lexemes in pieces.
-/

namespace Norbital.Store

open Lib (isSpace)

open SqlLex (Lexeme After Opening Cut isBlank isNewline isIdentStart isTagPart isIdentPart closeComment closeString
  closeDollar dollarTag)

theorem isSpace_of_isBlank {c : Char} (h : isBlank c = true) : isSpace c = true := by
  simp only [isBlank, isNewline, Bool.or_eq_true, beq_iff_eq] at h
  obtain (((rfl | rfl) | rfl) | rfl) | rfl | rfl := h <;> decide

theorem isIdentStart_of_isWordStart {c : Char} (h : isWordStart c = true) : isIdentStart c = true := by
  simp only [isWordStart, isIdentStart, Bool.or_eq_true] at h ⊢
  exact .inl h

theorem isTagPart_of_isWordChar {c : Char} (h : isWordChar c = true) : isTagPart c = true := by
  simp only [isWordChar, isTagPart, Bool.or_eq_true] at h ⊢
  exact h.imp_left isIdentStart_of_isWordStart

theorem isIdentPart_of_isWordPart {c : Char} (h : isWordPart c = true) : isIdentPart c = true := by
  simp only [isWordPart, isIdentPart, Bool.or_eq_true] at h ⊢
  exact h.imp_left isTagPart_of_isWordChar

theorem isWordStart_of_ascii {c : Char} (hc : c.toNat < 128) (h : isIdentStart c = true) : isWordStart c = true := by
  simp only [isWordStart, isIdentStart, Bool.or_eq_true, decide_eq_true_eq] at h ⊢
  exact h.resolve_right (by omega)

theorem isWordChar_of_ascii {c : Char} (hc : c.toNat < 128) (h : isTagPart c = true) : isWordChar c = true := by
  simp only [isWordChar, isTagPart, Bool.or_eq_true] at h ⊢
  exact h.imp_left (isWordStart_of_ascii hc)

theorem isWordPart_of_ascii {c : Char} (hc : c.toNat < 128) (h : isIdentPart c = true) : isWordPart c = true := by
  simp only [isWordPart, isIdentPart, Bool.or_eq_true] at h ⊢
  exact h.imp_left (isWordChar_of_ascii hc)

theorem toNat_inj {c : Char} {d : Char} (h : c.toNat = d.toNat) : c = d :=
  Char.ext (UInt32.toNat_inj.mp h)

/-- White space below 128 is what the server takes for white space. -/
theorem isSpace_eq_false {c : Char} (hblank : isBlank c = false) (hc : c.toNat < 128) : isSpace c = false := by
  by_contra h
  rw [Bool.not_eq_false] at h
  simp only [isSpace, Bool.or_eq_true, decide_eq_true_eq, Bool.and_eq_true, List.mem_cons, List.not_mem_nil,
    or_false] at h
  have hcases : c = '\t' ∨ c = '\n' ∨ c = '\x0b' ∨ c = '\x0c' ∨ c = '\r' ∨ c = ' ' := by
    have key : ∀ d : Char, c.toNat = d.toNat → c = d := fun d => toNat_inj
    obtain h | h := h
    · obtain h | h | h | h | h | h | h := h
      · exact .inl (key _ h)
      · exact .inr (.inl (key _ h))
      · exact .inr (.inr (.inl (key _ h)))
      · exact .inr (.inr (.inr (.inl (key _ h))))
      · exact .inr (.inr (.inr (.inr (.inl (key _ h)))))
      · exact .inr (.inr (.inr (.inr (.inr (key _ h)))))
      · omega
    · omega
  obtain rfl | rfl | rfl | rfl | rfl | rfl := hcases <;> cases hblank

theorem ascii_of_not_isTagPart {c : Char} (h : isTagPart c = false) : c.toNat < 128 := by
  simp only [isTagPart, isIdentStart, Bool.or_eq_false_iff, decide_eq_false_iff_not] at h
  omega

theorem readTo_append (before pre rest : List Char) : readTo before (pre ++ rest) rest = pre.reverse ++ before := by
  simp [readTo]

/-- A turn that reads exactly `pre`. -/
theorem Reads.turn {before pre rest : List Char} {t : Option SqlToken} {tokens : List SqlToken} (hpre : pre ≠ [])
    (hchunk : chunk before (pre ++ rest) = (t, rest)) (h : Reads (pre.reverse ++ before) rest tokens) :
    Reads before (pre ++ rest) (t.toList ++ tokens) := by
  obtain ⟨c, cs, rfl⟩ := List.exists_cons_of_ne_nil hpre
  rw [← readTo_append before _ rest] at h
  exact Reads.cons hchunk h

theorem chunk_blank {before : List Char} {c : Char} {cs : List Char} (h : isSpace c = true) :
    chunk before (c :: cs) = (none, cs) := by
  rw [chunk, if_pos h]

theorem delimiterOf_eq_some {c : Char} {cs delimiter rest : List Char} :
    delimiterOf (c :: cs) = some (delimiter, rest) ↔
      c = '$' ∧ ∃ tag, delimiter = SqlLex.delimiter tag ∧ cs = tag ++ '$' :: rest ∧ (∀ d ∈ tag, isWordChar d) ∧
        ∀ d ∈ tag.head?, isWordStart d := by
  have hdollar : isWordChar '$' = false := by decide
  rw [delimiterOf]
  constructor
  · intro h
    obtain ⟨⟨rfl, hhead, hclose⟩, hpair⟩ := Option.ite_none_right_eq_some.mp h
    obtain ⟨rfl, rfl⟩ := Prod.mk.inj (Option.some.inj hpair)
    refine ⟨rfl, cs.takeWhile isWordChar, rfl, ?_, fun d hd => List.mem_takeWhile_imp hd, fun d hd => ?_⟩
    · obtain ⟨rest, hrest⟩ := List.head?_eq_some_iff.mp hclose
      calc cs = cs.takeWhile isWordChar ++ cs.dropWhile isWordChar := List.takeWhile_append_dropWhile.symm
        _ = _ := by rw [hrest]; rfl
    · rw [Option.mem_def.mp hd] at hhead
      exact hhead
  · rintro ⟨rfl, tag, rfl, rfl, htag, hhead⟩
    have htake : (tag ++ '$' :: rest).takeWhile isWordChar = tag := by
      rw [List.takeWhile_append_of_pos htag, List.takeWhile_cons_of_neg (by simp [hdollar]), List.append_nil]
    have hdrop : (tag ++ '$' :: rest).dropWhile isWordChar = '$' :: rest := by
      rw [List.dropWhile_append_of_pos htag, List.dropWhile_cons_of_neg (by simp [hdollar])]
    rw [htake, hdrop]
    have hall : tag.head?.all isWordStart = true := by
      cases htag' : tag.head? with
      | none => rfl
      | some d => exact hhead d (by rw [htag']; rfl)
    rw [if_pos ⟨rfl, hall, rfl⟩]
    rfl

theorem delimiterOf_of_ne {c : Char} (h : c ≠ '$') (cs : List Char) : delimiterOf (c :: cs) = none := by
  rw [delimiterOf, if_neg fun hc => h hc.1]

/-- Where the server opens no dollar quote, the tokenizer opens none. -/
theorem delimiterOf_eq_none {cs : List Char} (h : dollarTag cs = none) : delimiterOf ('$' :: cs) = none := by
  cases hdelimiter : delimiterOf ('$' :: cs) with
  | none => rfl
  | some pair =>
    obtain ⟨-, tag, -, rfl, htag, hhead⟩ := delimiterOf_eq_some.mp hdelimiter
    have hopen : dollarTag (tag ++ '$' :: pair.2) = some (tag, pair.2) :=
      SqlLex.dollarTag_eq_some.mpr ⟨rfl, fun c hc => isTagPart_of_isWordChar (htag c hc),
        fun c hc => isIdentStart_of_isWordStart (hhead c hc)⟩
    cases h.symm.trans hopen

/-- A turn where neither white space nor a comment nor a dollar quote stands. -/
theorem chunk_of_code {before : List Char} {c : Char} {cs : List Char} (hspace : isSpace c = false)
    (hline : ¬(c = '-' ∧ cs.head? = some '-')) (hblock : ¬(c = '/' ∧ cs.head? = some '*'))
    (hdollar : delimiterOf (c :: cs) = none) : chunk before (c :: cs) =
      if c = '\'' then
        (some ⟨.literal, (readQuoted (endsInE before) c cs).1, before.length⟩, (readQuoted (endsInE before) c cs).2)
      else if c = '"' then
        (some ⟨.quoted, (readQuoted false c cs).1, before.length⟩, (readQuoted false c cs).2)
      else if isWordStart c then
        (some ⟨.word, toLowerCase (c :: cs.takeWhile isWordPart), before.length⟩, cs.dropWhile isWordPart)
      else (some ⟨.symbol, [c], before.length⟩, cs) := by
  rw [chunk, if_neg (by simp [hspace]), if_neg hline, if_neg hblock, hdollar]

theorem chunk_quote (before cs : List Char) : chunk before ('\'' :: cs) =
    (some ⟨.literal, (readQuoted (endsInE before) '\'' cs).1, before.length⟩,
      (readQuoted (endsInE before) '\'' cs).2) := by
  rw [chunk_of_code (by decide) (by rintro ⟨h, -⟩; cases h) (by rintro ⟨h, -⟩; cases h)
    (delimiterOf_of_ne (by decide) cs), if_pos rfl]

theorem chunk_doubleQuote (before cs : List Char) : chunk before ('"' :: cs) =
    (some ⟨.quoted, (readQuoted false '"' cs).1, before.length⟩, (readQuoted false '"' cs).2) := by
  rw [chunk_of_code (by decide) (by rintro ⟨h, -⟩; cases h) (by rintro ⟨h, -⟩; cases h)
    (delimiterOf_of_ne (by decide) cs), if_neg (by decide), if_pos rfl]

/-- Characters that a class tells apart. -/
theorem ne_of_class {p : Char → Bool} {c d : Char} (hc : p c = true) (hd : p d = false) : c ≠ d := by
  rintro rfl
  exact Bool.false_ne_true (hd.symm.trans hc)

theorem isSpace_of_isWordChar {c : Char} (h : isWordChar c = true) : isSpace c = false := by
  have hc : c.toNat < 128 := by
    simp only [isWordChar, isWordStart, Char.isAlpha, Char.isUpper, Char.isLower, Char.isDigit, Bool.or_eq_true,
      Bool.and_eq_true, decide_eq_true_eq, beq_iff_eq, ge_iff_le, UInt32.le_iff_toNat_le] at h
    have hval : c.toNat = c.val.toNat := rfl
    have hZ : 'Z'.val.toNat = 90 := rfl
    have hz : 'z'.val.toNat = 122 := rfl
    have h9 : '9'.val.toNat = 57 := rfl
    obtain ((⟨-, h⟩ | ⟨-, h⟩) | rfl) | ⟨-, h⟩ := h
    · omega
    · omega
    · decide
    · omega
  refine isSpace_eq_false ?_ hc
  by_contra hblank
  rw [Bool.not_eq_false] at hblank
  simp only [isBlank, isNewline, Bool.or_eq_true, beq_iff_eq] at hblank
  obtain (((rfl | rfl) | rfl) | rfl) | rfl | rfl := hblank <;> cases h

theorem chunk_word {before : List Char} {c : Char} {cs : List Char} (h : isWordStart c = true) :
    chunk before (c :: cs) =
      (some ⟨.word, toLowerCase (c :: cs.takeWhile isWordPart), before.length⟩, cs.dropWhile isWordPart) := by
  have hchar : isWordChar c = true := by simp [isWordChar, h]
  have hpart := isTagPart_of_isWordChar hchar
  rw [chunk_of_code (isSpace_of_isWordChar hchar) (fun hc => ne_of_class hpart (by decide) hc.1)
    (fun hc => ne_of_class hpart (by decide) hc.1)
    (delimiterOf_of_ne (ne_of_class hpart (by decide)) cs),
    if_neg (ne_of_class hpart (by decide)), if_neg (ne_of_class hpart (by decide)), if_pos h]

theorem chunk_symbol {before : List Char} {c : Char} {cs : List Char} (hspace : isSpace c = false)
    (hline : ¬(c = '-' ∧ cs.head? = some '-')) (hblock : ¬(c = '/' ∧ cs.head? = some '*'))
    (hdollar : delimiterOf (c :: cs) = none) (hquote : c ≠ '\'' ∧ c ≠ '"') (hword : isWordStart c = false) :
    chunk before (c :: cs) = (some ⟨.symbol, [c], before.length⟩, cs) := by
  rw [chunk_of_code hspace hline hblock hdollar, if_neg hquote.1, if_neg hquote.2, if_neg (by simp [hword])]

/-- A dollar quote the tokenizer opens inside an identifier. -/
def opensInside (inWord : Bool) : List Char → Bool
  | [] => false
  | c :: cs =>
    if inWord && isWordPart c then opensInside true cs
    else if isWordStart c then opensInside true cs
    else (delimiterOf (c :: cs)).isSome || opensInside false cs

theorem opensInside_true (cs : List Char) : opensInside true cs = opensInside false (cs.dropWhile isWordPart) := by
  induction cs with
  | nil => rfl
  | cons c cs ih =>
    by_cases hc : isWordPart c = true
    · rw [List.dropWhile_cons_of_pos hc, opensInside, if_pos (by simp [hc]), ih]
    · have hword : isWordStart c = false := by
        simp only [isWordPart, isWordChar, Bool.or_eq_true, not_or, Bool.not_eq_true] at hc
        exact hc.1.1
      rw [List.dropWhile_cons_of_neg hc, opensInside, opensInside, if_neg (by simp [hc]), if_neg (by simp [hword]),
        if_neg (by simp)]

/-- A token that is a word or a symbol, and no semicolon. -/
def SqlToken.Plain (t : SqlToken) : Prop := t.kind = .word ∨ t.kind = .symbol ∧ t.text ≠ [';']

theorem takeWhile_append_of_head {p : Char → Bool} {cs rest : List Char} (h : ∀ c ∈ rest.head?, p c = false) :
    (cs ++ rest).takeWhile p = cs.takeWhile p ∧ (cs ++ rest).dropWhile p = cs.dropWhile p ++ rest := by
  induction cs with
  | nil =>
    cases rest with
    | nil => simp
    | cons c rest =>
      have hc : p c = false := h c rfl
      simp [hc]
  | cons c cs ih =>
    by_cases hc : p c = true
    · simp [hc, ih]
    · simp [hc]

/-- No dollar quote opens across an identifier's end. -/
theorem delimiterOf_append {c : Char} {cs rest : List Char} (h : delimiterOf (c :: cs) = none)
    (hrest : ∀ d ∈ rest.head?, isIdentPart d = false) : delimiterOf (c :: (cs ++ rest)) = none := by
  by_contra hopen
  obtain ⟨⟨delimiter, inside⟩, hopen⟩ := Option.ne_none_iff_exists'.mp hopen
  obtain ⟨rfl, tag, -, hcs, htag, hhead⟩ := delimiterOf_eq_some.mp hopen
  obtain ⟨more, rfl, hmore⟩ | ⟨more, rfl, hmore⟩ := List.append_eq_append_iff.mp hcs
  swap
  · cases more with
    | nil => cases hrest '$' (by rw [← List.nil_append rest, ← hmore]; rfl)
    | cons d ds =>
      obtain ⟨rfl, -⟩ := List.cons.inj hmore
      have hsome : delimiterOf ('$' :: (tag ++ '$' :: ds)) = some (_, ds) :=
        delimiterOf_eq_some.mpr ⟨rfl, tag, rfl, rfl, htag, hhead⟩
      cases h.symm.trans hsome
  · -- the tag would go on into what follows the identifier
    cases more with
    | nil =>
      rw [List.nil_append] at hmore
      cases hrest '$' (by rw [hmore]; rfl)
    | cons d ds =>
      have hpart := isTagPart_of_isWordChar (htag d (by simp))
      have hd := hrest d (by rw [hmore]; rfl)
      simp [isIdentPart, hpart] at hd

/-- An identifier in which no dollar quote opens is read as words and symbols, up to its end. -/
theorem reads_ident {cs : List Char} (hparts : ∀ c ∈ cs, isIdentPart c) {rest : List Char}
    (hrest : ∀ c ∈ rest.head?, isIdentPart c = false) (hopens : opensInside false cs = false) {before : List Char}
    {tokens : List SqlToken} (h : Reads (cs.reverse ++ before) rest tokens) :
    ∃ ws, (∀ t ∈ ws, t.Plain) ∧ Reads before (cs ++ rest) (ws ++ tokens) := by
  induction hn : cs.length using Nat.strongRecOn generalizing cs before with
  | _ n ih =>
    cases cs with
    | nil => exact ⟨[], by simp, h⟩
    | cons c cs =>
      obtain ⟨hc, hcs⟩ := List.forall_mem_cons.mp hparts
      rw [opensInside, if_neg (by simp)] at hopens
      rw [List.length_cons] at hn
      by_cases hword : isWordStart c = true
      · -- a word of ASCII letters, then what is left of the identifier
        rw [if_pos hword, opensInside_true] at hopens
        obtain ⟨htake, hdrop⟩ := @takeWhile_append_of_head isWordPart cs rest fun d hd => by
          by_contra hpart
          rw [Bool.not_eq_false] at hpart
          exact Bool.false_ne_true ((hrest d hd).symm.trans (isIdentPart_of_isWordPart hpart))
        have hlength := (List.dropWhile_suffix isWordPart (l := cs)).length_le
        have hsplit : c :: cs = (c :: cs.takeWhile isWordPart) ++ cs.dropWhile isWordPart := by
          rw [List.cons_append, List.takeWhile_append_dropWhile]
        rw [hsplit, List.reverse_append, List.append_assoc] at h
        obtain ⟨ws, hws, hreads⟩ := ih _ (by omega)
          (fun d hd => hcs d ((List.dropWhile_suffix isWordPart).subset hd)) hopens h rfl
        refine ⟨⟨.word, toLowerCase (c :: cs.takeWhile isWordPart), before.length⟩ :: ws,
          List.forall_mem_cons.mpr ⟨.inl rfl, hws⟩, ?_⟩
        rw [hsplit, List.append_assoc]
        refine Reads.turn (t := some _) (List.cons_ne_nil _ _) ?_ hreads
        rw [List.cons_append, chunk_word hword, ← List.append_assoc, List.takeWhile_append_dropWhile, htake, hdrop]
      · rw [if_neg hword] at hopens
        obtain ⟨hdelimiter, hopens⟩ := Bool.or_eq_false_iff.mp hopens
        rw [List.reverse_cons, List.append_assoc, List.singleton_append] at h
        obtain ⟨ws, hws, hreads⟩ := ih cs.length (by omega) hcs hopens h rfl
        by_cases hspace : isSpace c = true
        · exact ⟨ws, hws, Reads.turn (List.cons_ne_nil c []) (chunk_blank hspace) hreads⟩
        · have hsymbol : chunk before (c :: (cs ++ rest)) = (some ⟨.symbol, [c], before.length⟩, cs ++ rest) :=
            chunk_symbol (by simpa using hspace) (fun h => ne_of_class hc (by decide) h.1)
              (fun h => ne_of_class hc (by decide) h.1) (delimiterOf_append (by simpa using hdelimiter) hrest)
              ⟨ne_of_class hc (by decide), ne_of_class hc (by decide)⟩ (by simpa using hword)
          refine ⟨⟨.symbol, [c], before.length⟩ :: ws, List.forall_mem_cons.mpr ⟨.inr ⟨rfl, ?_⟩, hws⟩,
            Reads.turn (List.cons_ne_nil c []) hsymbol hreads⟩
          exact fun htext => ne_of_class hc (by decide) (List.head_eq_of_cons_eq htext)

/-- Digits are symbols, one by one. -/
theorem reads_digits {cs : List Char} (hdigits : ∀ c ∈ cs, c.isDigit) {rest before : List Char}
    {tokens : List SqlToken} (h : Reads (cs.reverse ++ before) rest tokens) :
    ∃ ws, (∀ t ∈ ws, t.Plain) ∧ Reads before (cs ++ rest) (ws ++ tokens) := by
  induction cs generalizing before with
  | nil => exact ⟨[], by simp, h⟩
  | cons c cs ih =>
    obtain ⟨hc, hcs⟩ := List.forall_mem_cons.mp hdigits
    rw [List.reverse_cons, List.append_assoc, List.singleton_append] at h
    obtain ⟨ws, hws, hreads⟩ := ih hcs h
    have hchar : isWordChar c = true := by simp [isWordChar, hc]
    have hword : isWordStart c = false := by
      by_contra hletter
      simp only [isWordStart, Char.isDigit, Char.isAlpha, Char.isUpper, Char.isLower, Bool.and_eq_true,
        decide_eq_true_eq, Bool.not_eq_false, Bool.or_eq_true, beq_iff_eq, UInt32.le_iff_toNat_le,
        ge_iff_le] at hc hletter
      have hA : 'A'.val.toNat = 65 := rfl
      have ha : 'a'.val.toNat = 97 := rfl
      have h9 : '9'.val.toNat = 57 := rfl
      obtain (⟨hletter, -⟩ | ⟨hletter, -⟩) | rfl := hletter
      · omega
      · omega
      · exact absurd hc.2 (by decide)
    have hsymbol : chunk before (c :: (cs ++ rest)) = (some ⟨.symbol, [c], before.length⟩, cs ++ rest) :=
      chunk_symbol (isSpace_of_isWordChar hchar) (fun h => ne_of_class hc (by decide) h.1)
        (fun h => ne_of_class hc (by decide) h.1) (delimiterOf_of_ne (ne_of_class hc (by decide)) _)
        ⟨ne_of_class hc (by decide), ne_of_class hc (by decide)⟩ hword
    exact ⟨⟨.symbol, [c], before.length⟩ :: ws,
      List.forall_mem_cons.mpr ⟨.inr ⟨rfl, fun htext => ne_of_class hc (by decide) (List.head_eq_of_cons_eq htext)⟩, hws⟩,
      Reads.turn (List.cons_ne_nil c []) hsymbol hreads⟩

/-- No dollar quote opens where there is no dollar sign. -/
theorem opensInside_eq_false {cs : List Char} (h : ∀ c ∈ cs, c ≠ '$') (inWord : Bool) : opensInside inWord cs = false := by
  induction cs generalizing inWord with
  | nil => rfl
  | cons c cs ih =>
    obtain ⟨hc, hcs⟩ := List.forall_mem_cons.mp h
    rw [opensInside, ih hcs, ih hcs, delimiterOf_of_ne hc]
    simp

/-- A number is its digits, or it does not end before an identifier's character. -/
theorem reads_number {c : Char} {cs rest : List Char} (hdigit : c.isDigit) (hparts : ∀ d ∈ cs, isTagPart d)
    (hrest : ∀ d ∈ rest.head?, isTagPart d = false) (hnumeral : SqlLex.isNumeral (c :: cs) rest) {before : List Char}
    {tokens : List SqlToken} (h : Reads ((c :: cs).reverse ++ before) rest tokens) :
    ∃ ws, (∀ t ∈ ws, t.Plain) ∧ Reads before (c :: cs ++ rest) (ws ++ tokens) := by
  have hall : ∀ d ∈ c :: cs, isTagPart d = true :=
    List.forall_mem_cons.mpr ⟨by simp [isTagPart, hdigit], hparts⟩
  obtain hdigits | hother := Bool.or_eq_true_iff.mp hnumeral
  · exact reads_digits (by simpa using hdigits) h
  · have hdollar : rest.head? ≠ some '$' := by simpa using (Bool.and_eq_true_iff.mp hother).1
    refine reads_ident (fun d hd => by simp [isIdentPart, hall d hd]) (fun d hd => ?_)
      (opensInside_eq_false (fun d hd => ne_of_class (hall d hd) (by decide)) false) h
    have hne : d ≠ '$' := by
      rintro rfl
      exact hdollar hd
    simp [isIdentPart, hrest d hd, hne]

theorem skipComment_eq {d : Nat} {cs body rest : List Char} (h : closeComment d cs = some (body, rest)) :
    skipComment (d + 1) cs = rest := by
  induction d, cs using SqlLex.closeComment.induct generalizing body rest with
  | case1 => simp [closeComment] at h
  | case2 => simp [closeComment] at h
  | case3 d c e cs hopen ih =>
    rw [closeComment, if_pos hopen] at h
    obtain ⟨⟨inner, after⟩, hinner, hpair⟩ := Option.map_eq_some_iff.mp h
    cases hpair
    rw [skipComment, if_pos hopen, ih hinner]
  | case4 c e cs hopen hclose =>
    rw [closeComment, if_neg hopen, if_pos hclose, if_pos rfl] at h
    cases h
    rw [skipComment, if_neg hopen, if_pos hclose, skipComment]
  | case5 d c e cs hopen hclose hd ih =>
    rw [closeComment, if_neg hopen, if_pos hclose, if_neg hd] at h
    obtain ⟨⟨inner, after⟩, hinner, hpair⟩ := Option.map_eq_some_iff.mp h
    cases hpair
    have hinner := ih hinner
    rw [Nat.sub_add_cancel (Nat.pos_of_ne_zero hd)] at hinner
    rw [skipComment, if_neg hopen, if_pos hclose, hinner]
  | case6 d c e cs hopen hclose ih =>
    rw [closeComment, if_neg hopen, if_neg hclose] at h
    obtain ⟨⟨inner, after⟩, hinner, hpair⟩ := Option.map_eq_some_iff.mp h
    cases hpair
    rw [skipComment, if_neg hopen, if_neg hclose, ih hinner]

theorem readQuoted_eq {escapes : Bool} {mark : Char} {cs body rest : List Char}
    (h : closeString escapes mark cs = some (body, rest)) : readQuoted escapes mark cs = (body, rest) := by
  induction cs using SqlLex.closeString.induct escapes mark generalizing body rest with
  | case1 => simp [closeString] at h
  | case2 =>
    rw [SqlLex.closeString_cons, if_pos rfl] at h
    cases h
    rw [readQuoted_cons, if_pos rfl]
  | case3 ds ih =>
    rw [SqlLex.closeString_cons, if_pos rfl] at h
    dsimp only at h
    rw [if_pos rfl] at h
    obtain ⟨⟨inner, after⟩, hinner, hpair⟩ := Option.map_eq_some_iff.mp h
    cases hpair
    rw [readQuoted_cons, if_pos rfl]
    dsimp only
    rw [if_pos rfl, ih hinner]
  | case4 d ds hd =>
    rw [SqlLex.closeString_cons, if_pos rfl] at h
    dsimp only at h
    rw [if_neg hd] at h
    cases h
    rw [readQuoted_cons, if_pos rfl]
    dsimp only
    rw [if_neg hd]
  | case5 d hd hesc =>
    rw [SqlLex.closeString_cons, if_neg hd, if_pos hesc] at h
    cases h
  | case6 d hd hesc e ds ih =>
    rw [SqlLex.closeString_cons, if_neg hd, if_pos hesc] at h
    obtain ⟨⟨inner, after⟩, hinner, hpair⟩ := Option.map_eq_some_iff.mp h
    cases hpair
    rw [readQuoted_cons, if_neg hd, if_pos hesc]
    dsimp only
    rw [ih hinner]
  | case7 d ds hd hesc ih =>
    rw [SqlLex.closeString_cons, if_neg hd, if_neg hesc] at h
    obtain ⟨⟨inner, after⟩, hinner, hpair⟩ := Option.map_eq_some_iff.mp h
    cases hpair
    rw [readQuoted_cons, if_neg hd, if_neg hesc, ih hinner]

theorem splitAt_eq {mark cs body rest : List Char} (h : closeDollar mark cs = some (body, rest)) :
    splitAt mark cs = (body, rest) := by
  induction cs generalizing body rest with
  | nil => simp [closeDollar] at h
  | cons c cs ih =>
    rw [closeDollar] at h
    rw [splitAt]
    by_cases hmark : mark.isPrefixOf (c :: cs) = true
    · rw [if_pos hmark] at h ⊢
      exact Option.some.inj h
    · rw [if_neg hmark] at h ⊢
      obtain ⟨⟨inner, after⟩, hinner, hpair⟩ := Option.map_eq_some_iff.mp h
      cases hpair
      rw [ih hinner]

/-- White space up to the next line feed gives no tokens. -/
theorem Reads.skip {before rest : List Char} {tokens : List SqlToken} (h : Reads before rest tokens)
    (hblank : ∀ c ∈ rest.takeWhile (· != '\n'), isBlank c) :
    ∃ pre, rest = pre ++ afterNewline rest ∧ Reads (pre.reverse ++ before) (afterNewline rest) tokens := by
  induction rest generalizing before with
  | nil => exact ⟨[], rfl, h⟩
  | cons c rest ih =>
    have hspace : isSpace c = true := by
      by_cases hc : c = '\n'
      · rw [hc]
        decide
      · exact isSpace_of_isBlank (hblank c (by simp [hc]))
    obtain ⟨tail, rfl, htail⟩ := h.inv (chunk_blank hspace)
    rw [← List.singleton_append, readTo_append] at htail
    by_cases hc : c = '\n'
    · obtain rfl := hc
      exact ⟨['\n'], rfl, htail⟩
    · have hafter : afterNewline (c :: rest) = afterNewline rest := by simp [afterNewline, hc]
      obtain ⟨pre, hpre, hreads⟩ := ih htail fun d hd => hblank d (by simp [hc, hd])
      rw [hafter]
      refine ⟨c :: pre, ?_, ?_⟩
      · rw [List.cons_append, ← hpre]
      · rw [List.reverse_cons, List.append_assoc]
        exact hreads

/-- Where the tokenizer cuts a lexeme as the server does, given what stands before and after it:
a line comment ends at a line feed, or nothing but white space stands before the next one; no dollar quote opens
inside an identifier; a string ends where it would with the escapes the tokenizer sees in it; a dollar quote's tag
is ASCII. -/
def inStep (before : List Char) (l : Lexeme) (rest : List Char) : Bool :=
  match l with
  | .line _ => (rest.takeWhile (· != '\n')).all isBlank
  | .word cs => !opensInside false cs
  | .quoted o body =>
    !o.letters.isEmpty || o.mark == '"' ||
      closeString (endsInE before) o.mark (body ++ o.mark :: rest) == some (body, rest)
  | .dollar tag _ => tag.all fun c => decide (c.toNat < 128)
  | _ => true

/-- A text's lexemes, each in step. -/
def Steady (before : List Char) : List Lexeme → Bool
  | [] => true
  | l :: ls => inStep before l (ls.flatMap Lexeme.chars) && Steady (l.chars.reverse ++ before) ls

/-- The tokens a lexeme is read as. -/
inductive Image : Lexeme → List SqlToken → Prop where
  | blank (c : Char) : Image (.blank c) []
  | line (body : List Char) : Image (.line body) []
  | block (body : List Char) : Image (.block body) []
  | word {cs : List Char} {ws : List SqlToken} (hplain : ∀ t ∈ ws, t.Plain)
      (hascii : (∀ c ∈ cs, c.toNat < 128) → ∃ i, ws = [⟨.word, toLowerCase cs, i⟩]) : Image (.word cs) ws
  | number {cs : List Char} {ws : List SqlToken} (hplain : ∀ t ∈ ws, t.Plain) : Image (.number cs) ws
  | quoted {o : Opening} {body : List Char} {ws : List SqlToken} {i : Nat} (hmark : o.mark = '\'' ∨ o.mark = '"')
      (hplain : ∀ t ∈ ws, t.Plain) (hletters : o.letters = [] → ws = []) :
      Image (.quoted o body) (ws ++ [⟨if o.mark = '\'' then .literal else .quoted, body, i⟩])
  | dollar {tag body : List Char} {i : Nat} : Image (.dollar tag body) [⟨.body, body, i⟩]
  | symbol {c : Char} {i : Nat} : Image (.symbol c) [⟨.symbol, [c], i⟩]

/-- No identifier starts right after one of its own characters. -/
def Fits (before cs : List Char) : Prop :=
  ∀ b ∈ before.head?, ∀ c ∈ cs.head?, isIdentStart c = true → isWordChar b = false

theorem isWordChar_eq_false {c : Char} (h : isTagPart c = false) : isWordChar c = false := by
  by_contra hc
  rw [Bool.not_eq_false] at hc
  exact Bool.false_ne_true (h.symm.trans (isTagPart_of_isWordChar hc))

theorem isWordChar_of_isBlank {c : Char} (h : isBlank c = true) : isWordChar c = false := by
  by_contra hc
  rw [Bool.not_eq_false] at hc
  exact Bool.false_ne_true ((isSpace_of_isWordChar hc).symm.trans (isSpace_of_isBlank h))

theorem head?_reverse_append {pre before : List Char} {c : Char} (h : pre.getLast? = some c) :
    (pre.reverse ++ before).head? = some c := by
  rw [List.head?_append, List.head?_reverse, h, Option.some_or]

/-- After any lexeme the next one fits. -/
theorem fits_of_cut {after after' : After} {cs rest before : List Char} {l : Lexeme} (h : Cut after cs l after' rest) :
    Fits (l.chars.reverse ++ before) rest := by
  have hlast : ∀ {c : Char}, l.chars.getLast? = some c → isWordChar c = false →
      Fits (l.chars.reverse ++ before) rest := by
    intro c hc hword b hb
    rw [head?_reverse_append hc] at hb
    obtain rfl := Option.mem_some_iff.mp hb
    exact fun _ _ _ => hword
  have hnext : (∀ c ∈ rest.head?, isIdentStart c = false) → Fits (l.chars.reverse ++ before) rest :=
    fun hrest b _ c hc hstart => absurd (hrest c hc) (by simp [hstart])
  cases h with
  | blank hblank => exact hlast rfl (isWordChar_of_isBlank hblank)
  | line hbody hrest =>
    refine hnext fun c hc => ?_
    have hnewline := hrest c hc
    simp only [isNewline, Bool.or_eq_true, beq_iff_eq] at hnewline
    obtain rfl | rfl := hnewline <;> decide
  | block hclose =>
    refine hlast (c := '/') ?_ (by decide)
    rw [Lexeme.chars, List.getLast?_cons, List.getLast?_cons, SqlLex.getLast?_of_closeComment hclose]
    rfl
  | @quoted o body _ hopening hclose =>
    refine hlast (c := o.mark) (by simp [Lexeme.chars, List.getLast?_cons]) ?_
    obtain hm | hm := (SqlLex.opening_opened hopening).1.mark <;> rw [hm] <;> decide
  | word hstart hparts hrest hopening =>
    refine hnext fun c hc => ?_
    have hpart := hrest c hc
    simp only [isIdentPart, isTagPart, Bool.or_eq_false_iff] at hpart
    exact hpart.1.1
  | number hdigit hparts hrest hnumeral =>
    refine hnext fun c hc => ?_
    have hpart := hrest c hc
    simp only [isTagPart, Bool.or_eq_false_iff] at hpart
    exact hpart.1
  | dollar htag hclose =>
    refine hlast (c := '$') ?_ (by decide)
    simp [Lexeme.chars, SqlLex.delimiter, List.getLast?_append, List.getLast?_cons]
  | symbol hblank hline hblock hquote hstart hdollar => exact hlast rfl (isWordChar_eq_false hstart)

/-- A quoted text whose end the tokenizer sees where it is. -/
theorem reads_quote {m : Char} (hm : m = '\'' ∨ m = '"') {before body rest : List Char} {tokens : List SqlToken}
    (hclose : closeString (decide (m = '\'') && endsInE before) m (body ++ m :: rest) = some (body, rest))
    (h : Reads ((m :: (body ++ [m])).reverse ++ before) rest tokens) :
    Reads before (m :: (body ++ m :: rest))
      (⟨if m = '\'' then .literal else .quoted, body, before.length⟩ :: tokens) := by
  have hchars : m :: (body ++ m :: rest) = (m :: (body ++ [m])) ++ rest := by simp
  rw [hchars]
  refine Reads.turn (t := some _) (List.cons_ne_nil _ _) ?_ h
  rw [← hchars]
  obtain rfl | rfl := hm
  · rw [chunk_quote, readQuoted_eq (by simpa using hclose)]
    rfl
  · rw [chunk_doubleQuote, readQuoted_eq (by simpa using hclose)]
    rfl

theorem toLower_of_not_isUpper {c : Char} (h : c.isUpper = false) : c.toLower = c := by
  rw [Char.toLower, dif_neg (of_decide_eq_false h)]

/-- A letter's lower case is a letter's only. -/
theorem isWordStart_of_toLower {c : Char} (h : c.toLower.isAlpha = true) : isWordStart c = true := by
  rw [isWordStart, Bool.or_eq_true]
  refine .inl ?_
  cases hupper : c.isUpper with
  | false => rwa [toLower_of_not_isUpper hupper] at h
  | true => simp [Char.isAlpha, hupper]

/-- The letter before a quote, read as a word of its own. -/
theorem reads_letter {c d : Char} (hc : c.toLower.isAlpha = true) (hd : isWordPart d = false) {before cs : List Char}
    {tokens : List SqlToken} (h : Reads (c :: before) (d :: cs) tokens) :
    Reads before (c :: d :: cs) (⟨.word, toLowerCase [c], before.length⟩ :: tokens) := by
  refine Reads.turn (t := some _) (List.cons_ne_nil c []) ?_ h
  rw [List.singleton_append, chunk_word (isWordStart_of_toLower hc), List.takeWhile_cons_of_neg (by simp [hd]),
    List.dropWhile_cons_of_neg (by simp [hd])]

theorem isAlpha_of_mem {c : Char} (h : c ∈ ['b', 'x', 'n']) : c.isAlpha = true := by
  simp only [List.mem_cons, List.not_mem_nil, or_false] at h
  obtain rfl | rfl | rfl := h <;> decide

/-- Only the letter `e` makes the tokenizer see escapes. -/
theorem endsInE_cons_of_ne {c : Char} (h : c.toLower ≠ 'e') (before : List Char) : endsInE (c :: before) = false := by
  rw [endsInE, beq_false_of_ne h, Bool.false_and]

/-- A lexeme in step is read as its tokens, and what follows it as before. -/
theorem reads_cut {after after' : After} {cs rest before : List Char} {l : Lexeme} {tokens : List SqlToken}
    (hcut : Cut after cs l after' rest) (hstep : inStep before l rest = true) (hfits : Fits before cs)
    (h : Reads (l.chars.reverse ++ before) rest tokens) :
    ∃ ws, Image l ws ∧ Reads before cs (ws ++ tokens) := by
  cases hcut with
  | @blank c rest hblank =>
    exact ⟨[], .blank c, Reads.turn (List.cons_ne_nil c []) (chunk_blank (isSpace_of_isBlank hblank)) h⟩
  | @line body rest hbody hrest =>
    -- the tokenizer's comment runs on to the newline, over what a carriage return has ended for the server
    obtain ⟨pre, hpre, hreads⟩ := h.skip (by simpa [inStep] using hstep)
    have hafter : afterNewline (body ++ rest) = afterNewline rest := by
      rw [afterNewline, List.dropWhile_append_of_pos, afterNewline]
      intro c hc
      have hnewline := hbody c hc
      simp only [isNewline, Bool.or_eq_false_iff] at hnewline
      simpa using hnewline.1
    have hchars : '-' :: '-' :: (body ++ rest) = ('-' :: '-' :: (body ++ pre)) ++ afterNewline rest := by
      rw [List.cons_append, List.cons_append, List.append_assoc, ← hpre]
    refine ⟨[], .line body, ?_⟩
    rw [hchars]
    refine Reads.turn (t := none) (List.cons_ne_nil _ _) ?_ ?_
    · rw [← hchars, chunk, if_neg (by decide), if_pos ⟨rfl, rfl⟩, List.tail_cons, hafter]
    · simpa [Lexeme.chars] using hreads
  | @block body rest hclose =>
    refine ⟨[], .block body, ?_⟩
    have hchars : '/' :: '*' :: (body ++ rest) = ('/' :: '*' :: body) ++ rest := rfl
    rw [hchars]
    refine Reads.turn (t := none) (List.cons_ne_nil _ _) ?_ h
    rw [← hchars, chunk, if_neg (by decide), if_neg (by rintro ⟨hc, -⟩; cases hc), if_pos ⟨rfl, rfl⟩, List.tail_cons,
      skipComment_eq hclose]
  | @quoted o body rest hopening hclose =>
    have hopened := (SqlLex.opening_opened hopening).1
    -- the server takes the letter before the quote for part of the constant, the tokenizer for a word of its own
    cases hopened with
    | plain =>
      have hplain : closeString (endsInE before) '\'' (body ++ '\'' :: rest) = some (body, rest) := by
        simpa [inStep] using hstep
      exact ⟨_, .quoted (.inl rfl) (by simp) fun _ => rfl, reads_quote (.inl rfl) (by simpa using hplain) h⟩
    | name => exact ⟨_, .quoted (.inr rfl) (by simp) fun _ => rfl, reads_quote (.inr rfl) (by simpa using hclose) h⟩
    | @escape c hc =>
      have halpha : c.toLower.isAlpha = true := by rw [hc]; decide
      have hends : endsInE (c :: before) = true := by
        have hstart := isIdentStart_of_isWordStart (isWordStart_of_toLower halpha)
        -- the letter begins a lexeme, so no letter stands before it and both see an escape string
        rw [endsInE, hc]
        cases hb : before.head? with
        | none => rfl
        | some b =>
          have hword := hfits b hb c rfl hstart
          simp [hword]
      have hquote := @reads_quote '\'' (.inl rfl) (c :: before) body rest tokens (by simpa [hends] using hclose)
        (by simpa [Lexeme.chars] using h)
      have himage : Image (.quoted ⟨[c], true, false, '\''⟩ body)
          ([⟨.word, toLowerCase [c], before.length⟩] ++ [⟨.literal, body, (c :: before).length⟩]) :=
        .quoted (.inl rfl) (by simp [SqlToken.Plain]) (by simp)
      exact ⟨_, himage, reads_letter (d := '\'') halpha (by decide) hquote⟩
    | @lettered c hc =>
      have halpha : c.toLower.isAlpha = true := isAlpha_of_mem hc
      have hends : endsInE (c :: before) = false :=
        endsInE_cons_of_ne (fun he => by rw [he] at hc; revert hc; decide) before
      have hquote := @reads_quote '\'' (.inl rfl) (c :: before) body rest tokens (by simpa [hends] using hclose)
        (by simpa [Lexeme.chars] using h)
      have himage : Image (.quoted ⟨[c], false, false, '\''⟩ body)
          ([⟨.word, toLowerCase [c], before.length⟩] ++ [⟨.literal, body, (c :: before).length⟩]) :=
        .quoted (.inl rfl) (by simp [SqlToken.Plain]) (by simp)
      exact ⟨_, himage, reads_letter (d := '\'') halpha (by decide) hquote⟩
    | @unicode c m hc hm =>
      have halpha : c.toLower.isAlpha = true := by rw [hc]; decide
      have hends : endsInE ('&' :: c :: before) = false := endsInE_cons_of_ne (by decide) _
      have hquote := @reads_quote m hm ('&' :: c :: before) body rest tokens (by simpa [hends] using hclose)
        (by simpa [Lexeme.chars] using h)
      have hsymbol : chunk (c :: before) ('&' :: m :: (body ++ m :: rest)) =
          (some ⟨.symbol, ['&'], (c :: before).length⟩, m :: (body ++ m :: rest)) :=
        chunk_symbol (by decide) (by rintro ⟨hand, -⟩; cases hand) (by rintro ⟨hand, -⟩; cases hand)
          (delimiterOf_of_ne (by decide) _) (by decide) (by decide)
      have hand := Reads.turn (t := some _) (List.cons_ne_nil '&' []) hsymbol hquote
      have himage : Image (.quoted ⟨[c, '&'], false, false, m⟩ body)
          ([⟨.word, toLowerCase [c], before.length⟩, ⟨.symbol, ['&'], (c :: before).length⟩] ++
            [⟨if m = '\'' then .literal else .quoted, body, ('&' :: c :: before).length⟩]) :=
        .quoted hm (by simp [SqlToken.Plain]) (by simp)
      exact ⟨_, himage, reads_letter halpha (by decide) hand⟩
  | @word c cs rest hstart hparts hrest hopening =>
    -- of a name beyond ASCII the tokenizer's words are pieces, which `inStep` asks to be told apart
    by_cases hascii : ∀ d ∈ c :: cs, d.toNat < 128
    · obtain ⟨hc, hcs⟩ := List.forall_mem_cons.mp hascii
      have hword := isWordStart_of_ascii hc hstart
      have hall : ∀ d ∈ cs, isWordPart d = true := fun d hd => isWordPart_of_ascii (hcs d hd) (hparts d hd)
      have hstop : ∀ d ∈ rest.head?, isWordPart d = false := fun d hd => by
        by_contra hpart
        rw [Bool.not_eq_false] at hpart
        exact Bool.false_ne_true ((hrest d hd).symm.trans (isIdentPart_of_isWordPart hpart))
      obtain ⟨htake, hdrop⟩ := @takeWhile_append_of_head isWordPart cs rest hstop
      refine ⟨[⟨.word, toLowerCase (c :: cs), before.length⟩],
        .word (by simp [SqlToken.Plain]) fun _ => ⟨_, rfl⟩, ?_⟩
      refine Reads.turn (t := some _) (List.cons_ne_nil c cs) ?_ h
      rw [List.cons_append, chunk_word hword, htake, hdrop, List.takeWhile_eq_self_iff.mpr hall,
        List.dropWhile_eq_nil_iff.mpr hall, List.nil_append]
    · obtain ⟨ws, hws, hreads⟩ := reads_ident
        (List.forall_mem_cons.mpr ⟨by simp [isIdentPart, isTagPart, hstart], hparts⟩) hrest
        (by simpa [inStep] using hstep) h
      exact ⟨ws, .word hws fun hc => absurd hc hascii, hreads⟩
  | @number c cs rest hdigit hparts hrest hnumeral =>
    obtain ⟨ws, hws, hreads⟩ := reads_number hdigit hparts hrest hnumeral h
    exact ⟨ws, .number hws, hreads⟩
  | @dollar tag body rest htag hclose =>
    have hascii : ∀ c ∈ tag, c.toNat < 128 := by simpa [inStep] using hstep
    obtain ⟨-, htags, hhead⟩ := SqlLex.dollarTag_eq_some.mp htag
    have hdelimiter : delimiterOf ('$' :: (tag ++ '$' :: (body ++ (SqlLex.delimiter tag ++ rest)))) =
        some (SqlLex.delimiter tag, body ++ (SqlLex.delimiter tag ++ rest)) :=
      delimiterOf_eq_some.mpr ⟨rfl, tag, rfl, rfl, fun c hc => isWordChar_of_ascii (hascii c hc) (htags c hc),
        fun c hc => isWordStart_of_ascii (hascii c (List.mem_of_mem_head? hc)) (hhead c hc)⟩
    have hchars : '$' :: (tag ++ '$' :: (body ++ (SqlLex.delimiter tag ++ rest))) =
        (Lexeme.dollar tag body).chars ++ rest := by simp [Lexeme.chars, SqlLex.delimiter]
    refine ⟨[⟨.body, body, before.length⟩], .dollar, ?_⟩
    rw [hchars]
    refine Reads.turn (t := some _) (by simp [Lexeme.chars, SqlLex.delimiter]) ?_ h
    rw [← hchars, chunk, if_neg (by decide), if_neg (by rintro ⟨hc, -⟩; cases hc), if_neg (by rintro ⟨hc, -⟩; cases hc),
      hdelimiter]
    dsimp only
    rw [splitAt_eq hclose]
  | @symbol c rest hblank hline hblock hquote hstart hdollar =>
    -- none of the tokenizer's other readings begins with this character
    have hdelimiter : delimiterOf (c :: rest) = none := by
      by_cases hc : c = '$'
      · rw [hc]
        exact delimiterOf_eq_none (hdollar hc)
      · exact delimiterOf_of_ne hc rest
    have hword : isWordStart c = false := by
      have hchar := isWordChar_eq_false hstart
      simp only [isWordChar, Bool.or_eq_false_iff] at hchar
      exact hchar.1
    have hsymbol : chunk before (c :: rest) = (some ⟨.symbol, [c], before.length⟩, rest) :=
      chunk_symbol (isSpace_eq_false hblank (ascii_of_not_isTagPart hstart)) hline hblock hdelimiter hquote hword
    exact ⟨[⟨.symbol, [c], before.length⟩], .symbol, Reads.turn (t := some _) (List.cons_ne_nil c []) hsymbol h⟩

/-- A text in step is read as its lexemes' tokens, one lexeme after another. -/
theorem reads_lexemes {after : After} {cs before : List Char} {ls : List Lexeme} (h : Scan.Reads SqlLex.next after cs ls)
    (hsteady : Steady before ls = true) (hfits : Fits before cs) :
    ∃ wss, List.Forall₂ Image ls wss ∧ Reads before cs wss.flatten := by
  induction h generalizing before with
  | nil => exact ⟨[], .nil, Reads.nil before⟩
  | @cons after after' c cs rest l ls hnext htail ih =>
    rw [Steady, SqlLex.flatMap_chars htail, Bool.and_eq_true] at hsteady
    have hcut := SqlLex.next_cut hnext
    obtain ⟨wss, himages, hreads⟩ := ih hsteady.2 (fits_of_cut hcut)
    obtain ⟨ws, himage, hall⟩ := reads_cut hcut hsteady.1 hfits hreads
    exact ⟨ws :: wss, .cons himage himages, hall⟩

theorem sqlTokens_of_steady {sql : List Char} {ls : List Lexeme} (h : SqlLex.lexemes sql = some ls)
    (hsteady : Steady [] ls = true) : ∃ wss, List.Forall₂ Image ls wss ∧ sqlTokens sql = wss.flatten := by
  obtain ⟨wss, himages, hreads⟩ := reads_lexemes (SqlLex.lexemes_eq_some.mp h) hsteady (fun _ hb => by cases hb)
  exact ⟨wss, himages, sqlTokens_eq_iff.mpr hreads⟩

end Norbital.Store

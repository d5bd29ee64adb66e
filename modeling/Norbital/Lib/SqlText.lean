import Mathlib.Data.List.Basic

/-!
# Quoted tokens in SQL text

A text with `'…'` and `"…"` tokens, a quote inside doubled.  `substitute`
rewrites the tokens that spell one identifier; on a text put together from plain
pieces and identifiers it acts on the identifiers alone.
-/

namespace SqlText

/-- The characters inside the quotes of a token. -/
def escape (mark : Char) (cs : List Char) : List Char :=
  cs.flatMap fun c => if c = mark then [mark, mark] else [c]

/-- `"…"` around an identifier. -/
def quote (name : String) : List Char := '"' :: (escape '"' name.toList ++ ['"'])

/-- What follows an opening quote, up to its closing one, and the rest.  A doubled quote is read on
over; where no closing quote follows it, its first half closes. -/
def closing (mark : Char) : List Char → Option (List Char × List Char)
  | [] => none
  | c :: cs =>
    if c ≠ mark then (closing mark cs).map fun (body, rest) => (c :: body, rest)
    else
      match cs with
      | [] => some ([mark], [])
      | d :: ds =>
        if d = mark then
          match closing mark ds with
          | some (body, rest) => some (mark :: mark :: body, rest)
          | none => some ([mark], d :: ds)
        else some ([mark], d :: ds)

/-- The token at the head of a text, `'(?:''|[^'])*'` or `"(?:""|[^"])*"`, and the rest. -/
def token : List Char → Option (List Char × List Char)
  | [] => none
  | c :: cs =>
    if c = '\'' ∨ c = '"' then (closing c cs).map fun (body, rest) => (c :: body, rest) else none

/-- Every token rewritten, in one pass from the left; `n` bounds the length of the text. -/
def replaceTokens (f : List Char → List Char) : Nat → List Char → List Char
  | 0, cs => cs
  | n + 1, cs =>
    match token cs with
    | some (tok, rest) => f tok ++ replaceTokens f n rest
    | none =>
      match cs with
      | [] => []
      | c :: cs => c :: replaceTokens f n cs

/-- Every token that spells `old` respelled. -/
def substitute (old new : String) (cs : List Char) : List Char :=
  replaceTokens (fun tok => if tok = quote old then quote new else tok) cs.length cs

/-- A piece of a text: as it stands, or an identifier to quote. -/
inductive Piece where
  | text (s : String)
  | name (s : String)
  deriving DecidableEq

namespace Piece

def chars : Piece → List Char
  | .text s => s.toList
  | .name s => quote s

def map (f : String → String) : Piece → Piece
  | .text s => .text s
  | .name s => .name (f s)

/-- Its identifier left blank. -/
def blank : Piece → Piece := map fun _ => ""

end Piece

def render (ps : List Piece) : List Char := ps.flatMap Piece.chars

/-- No quote stands in a text. -/
def NoQuote (s : String) : Prop := ∀ c ∈ s.toList, c ≠ '\'' ∧ c ≠ '"'

instance (s : String) : Decidable (NoQuote s) :=
  List.decidableBAll (fun c => c ≠ '\'' ∧ c ≠ '"') s.toList

/-- No piece of text has a quote in it, and one stands between any two identifiers. -/
def Plain : List Piece → Prop
  | [] => True
  | .text s :: ps => NoQuote s ∧ Plain ps
  | .name _ :: ps => (∀ c ∈ (render ps).head?, c ≠ '"') ∧ Plain ps

@[simp]
theorem render_cons (p : Piece) (ps : List Piece) : render (p :: ps) = p.chars ++ render ps := rfl

theorem escape_cons (mark c : Char) (cs : List Char) :
    escape mark (c :: cs) = (if c = mark then [mark, mark] else [c]) ++ escape mark cs := by
  simp [escape]

theorem closing_cons_of_ne {mark c : Char} (h : c ≠ mark) (cs : List Char) :
    closing mark (c :: cs) = (closing mark cs).map fun (body, rest) => (c :: body, rest) := by
  rw [closing.eq_def]
  dsimp only
  rw [if_pos h]

theorem closing_escape (name rest : List Char) (h : ∀ c ∈ rest.head?, c ≠ '"') :
    closing '"' (escape '"' name ++ '"' :: rest) = some (escape '"' name ++ ['"'], rest) := by
  induction name with
  | nil =>
    cases rest with
    | nil => rfl
    | cons d ds =>
      have hd : d ≠ '"' := h d rfl
      simp [escape, closing, hd]
  | cons c name ih =>
    rw [escape_cons]
    by_cases hc : c = '"'
    · rw [if_pos hc]
      simp [closing, ih]
    · rw [if_neg hc, List.append_assoc, List.singleton_append, closing_cons_of_ne hc, ih]
      rfl

theorem token_quote (name : String) (rest : List Char) (h : ∀ c ∈ rest.head?, c ≠ '"') :
    token (quote name ++ rest) = some (quote name, rest) := by
  have hclose := closing_escape name.toList rest h
  simp only [quote, List.cons_append, List.append_assoc, List.nil_append, token] at *
  rw [if_pos (.inr trivial), hclose]
  rfl

theorem escape_injective {a b : List Char} (h : escape '"' a = escape '"' b) : a = b := by
  induction a generalizing b with
  | nil =>
    cases b with
    | nil => rfl
    | cons c b => by_cases hc : c = '"' <;> simp [escape, hc] at h
  | cons c a ih =>
    cases b with
    | nil => by_cases hc : c = '"' <;> simp [escape, hc] at h
    | cons d b =>
      rw [escape_cons, escape_cons] at h
      by_cases hc : c = '"' <;> by_cases hd : d = '"'
      · rw [if_pos hc, if_pos hd, List.append_cancel_left_eq] at h
        rw [hc, hd, ih h]
      · rw [if_pos hc, if_neg hd] at h
        simp only [List.cons_append, List.nil_append, List.cons.injEq] at h
        exact absurd h.1.symm hd
      · rw [if_neg hc, if_pos hd] at h
        simp only [List.cons_append, List.nil_append, List.cons.injEq] at h
        exact absurd h.1 hc
      · rw [if_neg hc, if_neg hd] at h
        simp only [List.cons_append, List.nil_append, List.cons.injEq] at h
        rw [h.1, ih h.2]

theorem quote_injective {a b : String} (h : quote a = quote b) : a = b := by
  simp only [quote, List.cons.injEq, List.append_cancel_right_eq, true_and] at h
  exact String.toList_inj.mp (escape_injective h)

/-- Two identifiers at the heads of texts, no quote after them. -/
theorem quote_append_inj {a b : String} {rest rest' : List Char} (ha : ∀ c ∈ rest.head?, c ≠ '"')
    (hb : ∀ c ∈ rest'.head?, c ≠ '"') (h : quote a ++ rest = quote b ++ rest') :
    a = b ∧ rest = rest' := by
  have htok : some (quote a, rest) = some (quote b, rest') := by
    rw [← token_quote a rest ha, ← token_quote b rest' hb, h]
  simp only [Option.some.injEq, Prod.mk.injEq] at htok
  exact ⟨quote_injective htok.1, htok.2⟩

theorem replaceTokens_plain (f : List Char → List Char) (n : Nat) (cs rest : List Char)
    (h : ∀ c ∈ cs, c ≠ '\'' ∧ c ≠ '"') (hn : (cs ++ rest).length ≤ n) :
    replaceTokens f n (cs ++ rest) = cs ++ replaceTokens f (n - cs.length) rest := by
  induction cs generalizing n with
  | nil => rfl
  | cons c cs ih =>
    cases n with
    | zero => simp at hn
    | succ n =>
      have hc := h c List.mem_cons_self
      have htok : token (c :: cs ++ rest) = none := by
        simp [token, hc.1, hc.2]
      rw [replaceTokens.eq_def]
      dsimp only
      rw [htok]
      simp only [List.cons_append, List.length_cons, Nat.add_sub_add_right]
      rw [ih n (fun d hd => h d (List.mem_cons_of_mem c hd)) (by simpa using hn)]

/-- On a plain text a rewriting of tokens acts on the identifiers. -/
theorem replaceTokens_render {f : List Char → List Char} {g : String → String}
    (hf : ∀ name, f (quote name) = quote (g name)) (n : Nat) (ps : List Piece) (hp : Plain ps)
    (hn : (render ps).length ≤ n) :
    replaceTokens f n (render ps) = render (ps.map (Piece.map g)) := by
  induction ps generalizing n with
  | nil => cases n <;> rfl
  | cons p ps ih =>
    rw [render_cons, List.length_append] at hn
    rw [List.map_cons, render_cons, render_cons]
    cases p with
    | text s =>
      simp only [Piece.chars, Piece.map] at hn ⊢
      rw [replaceTokens_plain f n s.toList (render ps) hp.1 (by simpa using hn),
        ih (n - s.toList.length) hp.2 (by omega)]
    | name s =>
      have hpos : 0 < (quote s).length := by simp [quote]
      simp only [Piece.chars, Piece.map] at hn ⊢
      cases n with
      | zero => omega
      | succ n =>
        rw [replaceTokens.eq_def]
        dsimp only
        rw [token_quote s (render ps) hp.1]
        dsimp only
        rw [hf, ih n hp.2 (by omega)]

/-- `old` respelled as `new`. -/
def respell (old new name : String) : String := if name = old then new else name

theorem substitute_render (old new : String) (ps : List Piece) (hp : Plain ps) :
    substitute old new (render ps) = render (ps.map (Piece.map (respell old new))) := by
  refine replaceTokens_render (fun name => ?_) _ ps hp (Nat.le_refl _)
  unfold respell
  by_cases hname : name = old
  · rw [if_pos hname, if_pos (congrArg quote hname)]
  · rw [if_neg hname, if_neg fun h => hname (quote_injective h)]

theorem head?_render_map (f : String → String) (ps : List Piece) :
    (render (ps.map (Piece.map f))).head? = (render ps).head? := by
  induction ps with
  | nil => rfl
  | cons p ps ih =>
    rw [List.map_cons, render_cons, render_cons, List.head?_append, List.head?_append, ih]
    cases p <;> rfl

theorem Plain.map (f : String → String) : ∀ {ps : List Piece}, Plain ps →
    Plain (ps.map (Piece.map f))
  | [], _ => trivial
  | .text _ :: _, h => ⟨h.1, Plain.map f h.2⟩
  | .name _ :: ps, h => by
    refine ⟨?_, Plain.map f h.2⟩
    rw [head?_render_map]
    exact h.1

theorem NoQuote.append {s t : String} (hs : NoQuote s) (ht : NoQuote t) : NoQuote (s ++ t) := by
  intro c hc
  rw [String.toList_append] at hc
  obtain hc | hc := List.mem_append.mp hc
  · exact hs c hc
  · exact ht c hc

theorem Plain.name_text {x s : String} {ps : List Piece} (hne : s ≠ "") (hs : NoQuote s)
    (hp : Plain ps) : Plain (.name x :: .text s :: ps) := by
  refine ⟨?_, hs, hp⟩
  intro c hc
  rw [render_cons, Piece.chars, List.head?_append] at hc
  cases hl : s.toList with
  | nil => exact absurd (String.toList_eq_nil_iff.mp hl) hne
  | cons d ds =>
    rw [hl, List.head?_cons, Option.some_or, Option.mem_some_iff] at hc
    exact hc ▸ (hs d (by rw [hl]; exact List.mem_cons_self)).2

/-- Plain texts that differ in identifiers at most are one text only when they are the same pieces. -/
theorem render_inj {ps qs : List Piece} (hp : Plain ps) (hq : Plain qs)
    (hlike : ps.map Piece.blank = qs.map Piece.blank) : render ps = render qs ↔ ps = qs := by
  refine ⟨fun h => ?_, fun h => h ▸ rfl⟩
  induction ps generalizing qs with
  | nil => exact (List.map_eq_nil_iff.mp hlike.symm).symm
  | cons p ps ih =>
    cases qs with
    | nil => simp at hlike
    | cons q qs =>
      obtain ⟨hpq, hrests⟩ := List.cons.inj hlike
      rw [render_cons, render_cons] at h
      cases p with
      | text s =>
        cases q with
        | text t =>
          obtain rfl : s = t := Piece.text.inj hpq
          rw [ih hp.2 hq.2 hrests (List.append_cancel_left h)]
        | name t => exact Piece.noConfusion hpq
      | name s =>
        cases q with
        | text t => exact Piece.noConfusion hpq
        | name t =>
          obtain ⟨rfl, hrest⟩ := quote_append_inj hp.1 hq.1 h
          rw [ih hp.2 hq.2 hrests hrest]

end SqlText

import Norbital.Lib.Formula
import Norbital.Store.Read.Values

/-!
# The spellings of an own-row predicate

A predicate over one row's own fields is compiled three times: by the reader
(`pred` of `store/src/read/sql.ts`), for the deltas of a roll-up, whose literals
are bound without a type (`ownPredSql` of `store/src/write/predicate.ts`), and for
checks and unique indexes, two-valued and with its literals written out.  Each
spelling gives a condition its own value at a row; they select a row alike where
every condition is told alike as it stands, un-negated or under a negation.

Modelled are the predicates all three compile, at a row whose columns have their
fields' names.  What PostgreSQL's types and operators do is the parameter `Server`.
-/

namespace Norbital.Store.OwnPred

open Norbital.Std Norbital.Store.Values ThreeValued

inductive Cmp where
  | eq
  | ne
  | lt
  | lte
  | gt
  | gte
  deriving DecidableEq, Repr

/-- A literal, or another field of the row. -/
inductive Arg where
  | lit (value : Json)
  | field (name : String)

inductive Mode where
  | folded
  | digits
  deriving DecidableEq, Repr

inductive ListOp where
  | has
  | hasAny
  | hasAll
  deriving DecidableEq, Repr

inductive Span where
  | overlaps
  | within
  | startsWithin
  | endsWithin
  deriving DecidableEq, Repr

/-- The conditions of `Pred` on a row's own fields. -/
inductive Leaf where
  | cmp (field : String) (op : Cmp) (arg : Arg)
  | in (field : String) (negated : Bool) (args : List Json)
  | null (field : String) (is : Bool)
  | like (field pattern : String)
  | text (field : String) (mode : Mode) (value : String)
  | list (field : String) (op : ListOp) (arg : Json)
  | listEmpty (field : String) (empty : Bool)
  | contains (field : String) (arg : Arg)
  | period (field : String) (op : Span) (lo hi : Json)
  | json (field : String) (contains : Json)
  | jsonEmpty (field : String) (empty : Bool)

/-- `Pred`, without what reaches beyond the row. -/
abbrev Pred := Formula Leaf

/-- PostgreSQL's operators, on values that are not null. -/
structure Server extends Values.Pg where
  lt : String → Datum → Datum → Bool
  like : Datum → String → Bool
  ilike : Datum → String → Bool
  /-- A value of type `text`. -/
  ofText : String → Datum
  /-- `regexp_replace(x, '\D', '', 'g')`. -/
  digits : Datum → Datum
  cardinality : Datum → Nat
  /-- `&&` and `@>` of two arrays. -/
  shares : Datum → Datum → Bool
  covers : Datum → Datum → Bool
  /-- An array of texts. -/
  texts : List (Option String) → Datum
  /-- What `jsonb_array_elements_text` gives for an element. -/
  elementText : Json → Option String
  /-- A JSON value, and a text read as one. -/
  jsonb : Json → Datum
  parseJsonb : String → Option Datum
  /-- `@>` of two JSON values. -/
  includes : Datum → Datum → Bool
  /-- `x = '[]'::jsonb`. -/
  isNil : Datum → Bool
  /-- `jsonb_typeof(x) = 'array'`. -/
  isArray : Datum → Bool
  /-- `daterange(lo, hi, '[]')` or `tstzrange(lo, hi, '[)')`; `none` where its ends cross. -/
  range : Bool → Option Datum → Option Datum → Option Datum
  /-- `periodTest` of a period and a range; unknown at an end that is open. -/
  periodTest : Span → Bool → Datum → Datum → Tri
  /-- `@>` of a range and an element, and of two ranges. -/
  holdsAt : Datum → Datum → Bool
  spans : Datum → Datum → Bool

/-- JavaScript's texts and times. -/
structure Js where
  number : Rat → String
  toLowerCase : String → String
  /-- `Date.parse(a) > Date.parse(b)`. -/
  later : String → String → Bool

section

variable (S : Server) (js : Js) (fieldOf : String → Option FieldInfo) (r : Values.Row S.toPg)

/-- `databaseValue` of a literal, without its field. -/
def plainValue (v : Json) : Json := databaseValue js.number .other v

/-- `comparable` of a field's literal. -/
def compared (f : FieldInfo) (v : Json) : Json := comparable js.number f.kind v

def column (f : FieldInfo) : Option S.Datum := r.column f.name

/-- `lower` around what is compared with an e-mail. -/
def fold (f : FieldInfo) (x : S.Datum) : S.Datum := if f.email then S.lower x else x

def test (op : Cmp) (type : String) (x y : S.Datum) : Bool :=
  match op with
  | .eq => S.eq type x y
  | .ne => !S.eq type x y
  | .lt => S.lt type x y
  | .lte => S.lt type x y || S.eq type x y
  | .gt => S.lt type y x
  | .gte => S.lt type y x || S.eq type x y

/-- An operator on what may be null. -/
def strict (f : S.Datum → S.Datum → Bool) : Option S.Datum → Option S.Datum → Tri
  | some x, some y => some (f x y)
  | _, _ => none

/-- A comparison whose `ne` is `IS DISTINCT FROM`. -/
def distinct (op : Cmp) (type : String) (x y : Option S.Datum) : Tri :=
  if op = .ne then some (!S.notDistinct type x y) else strict S (test S op type) x y

/-- `coalesce(t, false)`. -/
def coalesced (t : Tri) : Tri := some (t.getD false)

/-- What the reader compares with. -/
def readArg (f : FieldInfo) : Arg → Option (Option S.Datum)
  | .lit v =>
    let p := compared js f v
    let lowered := match p with
      | .string s => .string (if f.email then js.toLowerCase s else s)
      | p => p
    (S.bind f.pg lowered).map (·.map (fold S f))
  | .field name => (fieldOf name).map fun g => (column S r g).map (fold S f)

/-- What a literal bound to the column's type, or a field, is compared with. -/
def boundArg (f : FieldInfo) : Arg → Option (Option S.Datum)
  | .lit v => S.bind f.pg (plainValue js v)
  | .field name => (fieldOf name).map (column S r)

/-- The reader's list, its e-mails in lower case. -/
def readList (f : FieldInfo) (args : List Json) : Option (List (Option S.Datum)) :=
  args.mapM fun v =>
    S.bind f.pg (if f.email then .string (js.toLowerCase (stringOf js.number (compared js f v))) else compared js f v)

/-- The list as values of the column's type. -/
def typedList (f : FieldInfo) (args : List Json) : Option (List (Option S.Datum)) :=
  args.mapM fun v => S.bind f.pg (plainValue js v)

/-- `x = ANY(list)`. -/
def isAny (type : String) (x : Option S.Datum) (ys : List (Option S.Datum)) : Tri := any (ys.map (S.equals type x))

/-- `x::text IN (SELECT jsonb_array_elements_text(list))`. -/
def inTexts (type : String) (x : Option S.Datum) (args : List Json) : Tri :=
  any (args.map fun v =>
    match x, S.elementText (plainValue js v) with
    | some x, some s => some (S.text type x == s)
    | _, _ => none)

def normalize (mode : Mode) (x : S.Datum) : S.Datum :=
  match mode with
  | .folded => S.lower x
  | .digits => S.digits x

/-- `normalize(x) = normalize(value)`. -/
def sameText (mode : Mode) (value : String) (x : S.Datum) : Bool :=
  S.eq "text" (normalize S mode x) (normalize S mode (S.ofText value))

def listTest (op : ListOp) (x y : S.Datum) : Bool := if op = .hasAny then S.shares x y else S.covers x y

/-- The array the reader binds. -/
def readArray (op : ListOp) (arg : Json) : Option (Option S.Datum) :=
  S.bind "text[]" (if op = .has then .array [arg] else arg)

/-- The array built of the literal's elements. -/
def elementArray (arg : Json) : S.Datum :=
  S.texts ((match arg with
    | .array items => items
    | v => [v]).map S.elementText)

/-- The type of an instant or a day in a period. -/
def pointType (f : FieldInfo) : String := if f.isDate then "date" else "timestamptz"

/-- Ends that cross, as the reader sees them before it binds them. -/
def crossed (f : FieldInfo) (lo hi : Json) : Bool :=
  !(plainValue js lo).isNull && !(plainValue js hi).isNull &&
    (if f.isDate then
      decide (stringOf js.number (plainValue js hi) < stringOf js.number (plainValue js lo))
    else js.later (stringOf js.number (plainValue js lo)) (stringOf js.number (plainValue js hi)))

/-- A range of two bound ends. -/
def rangeOf (date : Bool) (lo hi : Json) : Option S.Datum :=
  (S.bind (if date then "date" else "timestamptz") (plainValue js lo)).bind fun x =>
    (S.bind (if date then "date" else "timestamptz") (plainValue js hi)).bind fun y => S.range date x y

/-- A JSON literal that is bound: a text is bound as it stands. -/
def boundJson (v : Json) : Option (Option S.Datum) :=
  match plainValue js v with
  | .null => some none
  | .string s => (S.parseJsonb s).map some
  | v => some (some (S.jsonb v))

/-- A JSON literal that is written out; `x @> true` is no operator. -/
def writtenJson (v : Json) : Option (Option S.Datum) :=
  match v with
  | .null => some none
  | .bool _ => none
  | .string s => (S.parseJsonb s).map some
  | v => some (some (S.jsonb v))

/-- `pred`. -/
def readLeaf : Leaf → Option Tri
  | .cmp field op arg => do
    let f ← fieldOf field
    let y ← readArg S js fieldOf r f arg
    -- an e-mail is compared in lower case, and `ne` is `IS DISTINCT FROM`
    return distinct S op f.pg ((column S r f).map (fold S f)) y
  | .in field negated args => do
    let f ← fieldOf field
    let ys ← readList S js f args
    let hit := isAny S f.pg ((column S r f).map (fold S f)) ys
    -- unknown is taken for false before it is negated
    return if negated then notHolds hit else hit
  | .null field is => do
    let f ← fieldOf field
    return some (if is then (column S r f).isNone else (column S r f).isSome)
  | .like field pattern => do
    let f ← fieldOf field
    return (column S r f).map fun x => S.ilike x pattern
  | .text field mode value => do
    let f ← fieldOf field
    return (column S r f).map (sameText S mode value)
  | .list field op arg => do
    let f ← fieldOf field
    let y ← readArray S op arg
    return strict S (listTest S op) (column S r f) y
  | .listEmpty field empty => do
    let f ← fieldOf field
    -- a null counts as an empty list
    return if empty then some (((column S r f).map S.cardinality).getD 0 == 0)
      else (column S r f).map fun x => decide (0 < S.cardinality x)
  | .contains field (.lit v) => do
    let f ← fieldOf field
    let y ← S.bind (pointType f) (plainValue js v)
    return strict S S.holdsAt (column S r f) y
  | .contains field (.field name) => do
    let f ← fieldOf field
    let g ← fieldOf name
    return strict S S.holdsAt (column S r f) (column S r g)
  | .period field op lo hi => do
    let f ← fieldOf field
    if crossed js f lo hi then return some false
    else
      let span ← rangeOf S js f.isDate lo hi
      return (column S r f).bind fun x => S.periodTest op f.isDate x span
  | .json field contains => do
    let f ← fieldOf field
    return (column S r f).map fun x => S.includes x (S.jsonb contains)
  | .jsonEmpty field empty => do
    let f ← fieldOf field
    return if empty then some (((column S r f).map S.isNil).getD true)
      else (column S r f).map fun x => S.isArray x && !S.isNil x

/-- `ownPredSql` with its literals bound. -/
def boundLeaf : Leaf → Option Tri
  | .cmp field op arg => do
    let f ← fieldOf field
    let y ← boundArg S js fieldOf r f arg
    -- `ne` is `<>`, which is unknown at a null
    return strict S (test S op f.pg) (column S r f) y
  | .in field negated args => do
    let f ← fieldOf field
    -- the literals have no type, so texts are compared
    let hit := inTexts S js f.pg (column S r f) args
    return if negated then ThreeValued.not hit else hit
  | .null field is => do
    let f ← fieldOf field
    return some (if is then (column S r f).isNone else (column S r f).isSome)
  | .like field pattern => do
    let f ← fieldOf field
    return (column S r f).map fun x => S.like x pattern
  | .text field mode value => do
    let f ← fieldOf field
    return (column S r f).map (sameText S mode value)
  | .list field op arg => do
    let f ← fieldOf field
    return (column S r f).map fun x => listTest S op x (elementArray S arg)
  | .listEmpty field empty => do
    let f ← fieldOf field
    return (column S r f).map fun x => if empty then S.cardinality x == 0 else decide (0 < S.cardinality x)
  -- beside `@>` an untyped literal is taken for a range itself
  | .contains field (.lit v) => do
    let f ← fieldOf field
    let y ← S.bind f.pg (plainValue js v)
    return strict S S.spans (column S r f) y
  | .contains field (.field name) => do
    let f ← fieldOf field
    let g ← fieldOf name
    return strict S S.holdsAt (column S r f) (column S r g)
  -- the fields are not known here: the range is one of instants, which no period of days compares with
  | .period field op lo hi => do
    let f ← fieldOf field
    if f.isDate then none
    else
      let span ← rangeOf S js false lo hi
      return (column S r f).bind fun x => S.periodTest op false x span
  | .json field contains => do
    let f ← fieldOf field
    let y ← boundJson S js contains
    return strict S S.includes (column S r f) y
  | .jsonEmpty field empty => do
    let f ← fieldOf field
    return (column S r f).map fun x => S.isNil x == empty

/-- `ownPredSql` as a declaration: two-valued, its literals written out with their types. -/
def declaredLeaf : Leaf → Option Tri
  | .cmp field op arg => do
    let f ← fieldOf field
    let y ← boundArg S js fieldOf r f arg
    return coalesced (distinct S op f.pg (column S r f) y)
  | .in field negated args => do
    let f ← fieldOf field
    let ys ← typedList S js f args
    let hit := coalesced (isAny S f.pg (column S r f) ys)
    return if negated then ThreeValued.not hit else hit
  | .null field is => do
    let f ← fieldOf field
    return some (if is then (column S r f).isNone else (column S r f).isSome)
  | .like field pattern => do
    let f ← fieldOf field
    return coalesced ((column S r f).map fun x => S.like x pattern)
  | .text field mode value => do
    let f ← fieldOf field
    return coalesced ((column S r f).map (sameText S mode value))
  | .list field op arg => do
    let f ← fieldOf field
    return coalesced ((column S r f).map fun x => listTest S op x (elementArray S arg))
  | .listEmpty field empty => do
    let f ← fieldOf field
    return coalesced
      ((column S r f).map fun x => if empty then S.cardinality x == 0 else decide (0 < S.cardinality x))
  | .contains field (.lit v) => do
    let f ← fieldOf field
    let y ← S.bind (pointType f) (plainValue js v)
    return coalesced (strict S S.holdsAt (column S r f) y)
  | .contains field (.field name) => do
    let f ← fieldOf field
    let g ← fieldOf name
    return coalesced (strict S S.holdsAt (column S r f) (column S r g))
  | .period field op lo hi => do
    let f ← fieldOf field
    let span ← rangeOf S js f.isDate lo hi
    return coalesced ((column S r f).bind fun x => S.periodTest op f.isDate x span)
  | .json field contains => do
    let f ← fieldOf field
    let y ← writtenJson S contains
    return coalesced (strict S S.includes (column S r f) y)
  | .jsonEmpty field empty => do
    let f ← fieldOf field
    return coalesced ((column S r f).map fun x => S.isNil x == empty)

/-- Of what may be null: un-negated, a null tells nothing in any spelling. -/
def Told {α : Type} (positive : Bool) (x : Option α) (P : α → Prop) : Prop :=
  match x with
  | some x => P x
  | none => positive = true

/-- The list's texts. -/
def elementTexts (args : List Json) : List (Option String) := args.map fun v => S.elementText (plainValue js v)

/-- A list holds a value as the server compares them. -/
def Among (type : String) (x : S.Datum) (ys : List (Option S.Datum)) : Prop := ∃ y, some y ∈ ys ∧ S.eq type x y = true

/-- A list's texts name a value, or, negated, may. -/
def Named (positive : Bool) (type : String) (x : S.Datum) (args : List Json) : Prop :=
  some (S.text type x) ∈ elementTexts S js args ∨ positive = false ∧ none ∈ elementTexts S js args

/-- When the three spellings of a condition tell alike where it stands, un-negated or negated: what it compares is
not null, or it stands un-negated and no spelling takes the null for a value; and where the spellings compare
differently the comparisons agree. -/
def Alike (positive : Bool) : Leaf → Prop
  | .cmp field op arg => ∃ f y y', fieldOf field = some f ∧ boundArg S js fieldOf r f arg = some y ∧
      readArg S js fieldOf r f arg = some y' ∧
      match column S r f, y with
      | some x, some y => (distinct S op f.pg (some (fold S f x)) y').getD false = test S op f.pg x y
      -- a null is distinct from a value, and nothing else is told of it
      | x, y => (distinct S op f.pg (x.map (fold S f)) y').getD false = (decide (op = .ne) && (x.isSome || y.isSome)) ∧
          (!positive) = (decide (op = .ne) && (x.isSome || y.isSome))
  | .in field negated args => ∃ f ys zs, fieldOf field = some f ∧ typedList S js f args = some ys ∧
      readList S js f args = some zs ∧ (args = [] ∨ Told (positive != negated) (column S r f) fun x =>
        (Among S f.pg x ys ↔ Named S js (positive != negated) f.pg x args) ∧
        (Among S f.pg (fold S f x) zs ↔ Named S js (positive != negated) f.pg x args))
  | .null field _ => ∃ f, fieldOf field = some f
  | .like field pattern => ∃ f, fieldOf field = some f ∧ Told positive (column S r f) fun x =>
      S.ilike x pattern = S.like x pattern
  | .text field _ _ => ∃ f, fieldOf field = some f ∧ Told positive (column S r f) fun _ => True
  | .list field op arg => ∃ f y, fieldOf field = some f ∧ readArray S op arg = some y ∧
      Told positive (column S r f) fun x => y.any (listTest S op x) = listTest S op x (elementArray S arg)
  | .listEmpty field empty => ∃ f, fieldOf field = some f ∧
      (column S r f = none → positive = true ∧ empty = false)
  | .contains field (.lit v) => ∃ f y z, fieldOf field = some f ∧ S.bind f.pg (plainValue js v) = some y ∧
      S.bind (pointType f) (plainValue js v) = some z ∧ Told positive (column S r f) fun x =>
        y.elim (!positive) (S.spans x) = z.any (S.holdsAt x)
  | .contains field (.field name) => ∃ f g, fieldOf field = some f ∧ fieldOf name = some g ∧
      Told positive (column S r f) fun _ => Told positive (column S r g) fun _ => True
  | .period field op lo hi => ∃ f span, fieldOf field = some f ∧ f.isDate = false ∧
      rangeOf S js false lo hi = some span ∧
      Told positive ((column S r f).bind fun x => S.periodTest op false x span) fun b => crossed js f lo hi → b = false
  | .json field contains => ∃ f y z, fieldOf field = some f ∧ boundJson S js contains = some y ∧
      writtenJson S contains = some z ∧ Told positive (column S r f) fun x =>
        S.includes x (S.jsonb contains) = z.any (S.includes x) ∧ y.elim (!positive) (S.includes x) = z.any (S.includes x)
  | .jsonEmpty field empty => ∃ f, fieldOf field = some f ∧
      match column S r f with
      | some x => empty = false → S.isArray x = true ∨ S.isNil x = true
      | none => positive = true ∧ empty = false

/-- A predicate the three spellings select the row alike by. -/
def SelectsAlike (p : Pred) : Prop :=
  Formula.SelectsAlike (readLeaf S js fieldOf r) (boundLeaf S js fieldOf r) (declaredLeaf S js fieldOf r) p

/-- A condition the three spellings tell alike where it stands. -/
def LeafAlike (positive : Bool) (l : Leaf) : Prop :=
  Formula.AtomAlike (readLeaf S js fieldOf r) (boundLeaf S js fieldOf r) (declaredLeaf S js fieldOf r) positive l

variable {S} {js} {fieldOf} {r}

/-- Of a condition whose declaration takes unknown for false. -/
theorem toldAlike_coalesced {positive : Bool} {t u w : Tri} :
    Formula.ToldAlike positive (some t) (some u) (some (coalesced w)) ↔
      t.getD false = w.getD false ∧ u.getD (!positive) = w.getD false := by
  constructor
  · rintro ⟨t', u', b, ht, hu, hb, htb, hub⟩
    cases ht
    cases hu
    obtain rfl : w.getD false = b := Option.some.inj (Option.some.inj hb)
    exact ⟨htb, hub⟩
  · rintro ⟨htb, hub⟩
    exact ⟨t, u, w.getD false, rfl, rfl, rfl, htb, hub⟩

/-- One whose field is not known is told by no spelling. -/
theorem not_toldAlike_none {positive : Bool} {u d : Option Tri} : ¬Formula.ToldAlike positive none u d := by
  rintro ⟨t, -, -, ht, -⟩
  cases ht

theorem leafAlike_null {positive : Bool} {field : String} {is : Bool} :
    LeafAlike S js fieldOf r positive (.null field is) ↔ Alike S js fieldOf r positive (.null field is) := by
  cases hf : fieldOf field with
  | none => simp [LeafAlike, Formula.AtomAlike, Alike, readLeaf, hf, not_toldAlike_none]
  | some f => simp [LeafAlike, Formula.AtomAlike, Formula.ToldAlike, Alike, readLeaf, boundLeaf, declaredLeaf, hf]

theorem leafAlike_like {positive : Bool} {field pattern : String} :
    LeafAlike S js fieldOf r positive (.like field pattern) ↔ Alike S js fieldOf r positive (.like field pattern) := by
  rw [LeafAlike, Formula.AtomAlike, readLeaf, boundLeaf, declaredLeaf]
  cases hf : fieldOf field with
  | none => simp [Alike, hf, not_toldAlike_none]
  | some f =>
    simp only [Option.bind_eq_bind, Option.bind_some, Option.pure_def, toldAlike_coalesced, Alike, hf,
      Option.some.injEq, exists_eq_left']
    cases hx : column S r f <;> simp [Told]

theorem leafAlike_text {positive : Bool} {field value : String} {mode : Mode} :
    LeafAlike S js fieldOf r positive (.text field mode value) ↔
      Alike S js fieldOf r positive (.text field mode value) := by
  rw [LeafAlike, Formula.AtomAlike, readLeaf, boundLeaf, declaredLeaf]
  cases hf : fieldOf field with
  | none => simp [Alike, hf, not_toldAlike_none]
  | some f =>
    simp only [Option.bind_eq_bind, Option.bind_some, Option.pure_def, toldAlike_coalesced, Alike, hf,
      Option.some.injEq, exists_eq_left']
    cases hx : column S r f <;> simp [Told]

theorem leafAlike_listEmpty {positive : Bool} {field : String} {empty : Bool} :
    LeafAlike S js fieldOf r positive (.listEmpty field empty) ↔
      Alike S js fieldOf r positive (.listEmpty field empty) := by
  rw [LeafAlike, Formula.AtomAlike, readLeaf, boundLeaf, declaredLeaf]
  cases hf : fieldOf field with
  | none => simp [Alike, hf, not_toldAlike_none]
  | some f =>
    simp only [Option.bind_eq_bind, Option.bind_some, Option.pure_def, toldAlike_coalesced, Alike, hf,
      Option.some.injEq, exists_eq_left']
    cases hx : column S r f <;> cases empty <;> simp

theorem leafAlike_jsonEmpty {positive : Bool} {field : String} {empty : Bool} :
    LeafAlike S js fieldOf r positive (.jsonEmpty field empty) ↔
      Alike S js fieldOf r positive (.jsonEmpty field empty) := by
  rw [LeafAlike, Formula.AtomAlike, readLeaf, boundLeaf, declaredLeaf]
  cases hf : fieldOf field with
  | none => simp [Alike, hf, not_toldAlike_none]
  | some f =>
    simp only [Option.bind_eq_bind, Option.bind_some, Option.pure_def, toldAlike_coalesced, Alike, hf,
      Option.some.injEq, exists_eq_left']
    cases hx : column S r f with
    | none => cases empty <;> simp
    | some x => cases empty <;> cases hnil : S.isNil x <;> simp [hnil]

theorem leafAlike_list {positive : Bool} {field : String} {op : ListOp} {arg : Json} :
    LeafAlike S js fieldOf r positive (.list field op arg) ↔ Alike S js fieldOf r positive (.list field op arg) := by
  rw [LeafAlike, Formula.AtomAlike, readLeaf, boundLeaf, declaredLeaf]
  cases hf : fieldOf field with
  | none => simp [Alike, hf, not_toldAlike_none]
  | some f =>
    cases hy : readArray S op arg with
    | none => simp [Alike, hy, not_toldAlike_none]
    | some y =>
      simp only [Option.bind_eq_bind, Option.bind_some, Option.pure_def, toldAlike_coalesced, Alike, hf, hy,
        Option.some.injEq, exists_eq_left', exists_and_left]
      cases hx : column S r f with
      | none => simp [Told, strict]
      | some x => cases y <;> simp [Told, strict]

theorem getD_distinct_some (op : Cmp) (type : String) (x y : S.Datum) :
    (distinct S op type (some x) (some y)).getD false = test S op type x y := by
  cases op <;> rfl

/-- Of a null only that it is distinct from a value is told. -/
theorem getD_distinct_null (op : Cmp) (type : String) {x y : Option S.Datum} (h : x = none ∨ y = none) :
    (distinct S op type x y).getD false = (decide (op = .ne) && (x.isSome || y.isSome)) := by
  obtain rfl | rfl := h
  · cases op <;> cases y <;> rfl
  · cases op <;> cases x <;> rfl

theorem leafAlike_contains_field {positive : Bool} {field name : String} :
    LeafAlike S js fieldOf r positive (.contains field (.field name)) ↔
      Alike S js fieldOf r positive (.contains field (.field name)) := by
  rw [LeafAlike, Formula.AtomAlike, readLeaf, boundLeaf, declaredLeaf]
  cases hf : fieldOf field with
  | none => simp [Alike, hf, not_toldAlike_none]
  | some f =>
    cases hg : fieldOf name with
    | none => simp [Alike, hg, not_toldAlike_none]
    | some g =>
      simp only [Option.bind_eq_bind, Option.bind_some, Option.pure_def, toldAlike_coalesced, Alike, hf, hg,
        Option.some.injEq, exists_eq_left', exists_and_left]
      cases hx : column S r f <;> cases hz : column S r g <;> simp [Told, strict]

theorem leafAlike_contains_lit {positive : Bool} {field : String} {v : Json} :
    LeafAlike S js fieldOf r positive (.contains field (.lit v)) ↔
      Alike S js fieldOf r positive (.contains field (.lit v)) := by
  rw [LeafAlike, Formula.AtomAlike, readLeaf, boundLeaf, declaredLeaf]
  cases hf : fieldOf field with
  | none => simp [Alike, hf, not_toldAlike_none]
  | some f =>
    cases hz : S.bind (pointType f) (plainValue js v) with
    | none => simp [Alike, hf, hz, not_toldAlike_none]
    | some z =>
      cases hy : S.bind f.pg (plainValue js v) with
      | none => simp [Alike, hf, hy, Formula.ToldAlike]
      | some y =>
        simp only [Option.bind_eq_bind, Option.bind_some, Option.pure_def, toldAlike_coalesced, Alike, hf, hy, hz,
          Option.some.injEq, exists_eq_left', exists_and_left]
        cases hx : column S r f with
        | none => simp [Told, strict]
        | some x => cases y <;> cases z <;> simp [Told, strict]

theorem leafAlike_json {positive : Bool} {field : String} {contains : Json} :
    LeafAlike S js fieldOf r positive (.json field contains) ↔ Alike S js fieldOf r positive (.json field contains) := by
  rw [LeafAlike, Formula.AtomAlike, readLeaf, boundLeaf, declaredLeaf]
  cases hf : fieldOf field with
  | none => simp [Alike, hf, not_toldAlike_none]
  | some f =>
    cases hy : boundJson S js contains with
    | none => simp [Alike, hf, hy, Formula.ToldAlike]
    | some y =>
      cases hz : writtenJson S contains with
      | none => simp [Alike, hf, hz, Formula.ToldAlike]
      | some z =>
        simp only [Option.bind_eq_bind, Option.bind_some, Option.pure_def, toldAlike_coalesced, Alike, hf, hy, hz,
          Option.some.injEq, exists_eq_left', exists_and_left]
        cases hx : column S r f with
        | none => simp [Told, strict]
        | some x => cases y <;> cases z <;> simp [Told, strict]

theorem leafAlike_period {positive : Bool} {field : String} {op : Span} {lo hi : Json} :
    LeafAlike S js fieldOf r positive (.period field op lo hi) ↔
      Alike S js fieldOf r positive (.period field op lo hi) := by
  rw [LeafAlike, Formula.AtomAlike, readLeaf, boundLeaf, declaredLeaf]
  cases hf : fieldOf field with
  | none => simp [Alike, hf, not_toldAlike_none]
  | some f =>
    cases hdate : f.isDate with
    | true => simp [Alike, hf, hdate, Formula.ToldAlike]
    | false =>
      cases hspan : rangeOf S js false lo hi with
      | none => simp [Alike, hf, hspan, Formula.ToldAlike, hdate]
      | some span =>
        -- the reader answers false where the ends cross, before it asks the server
        cases hends : crossed js f lo hi with
        | true =>
          simp only [Option.bind_eq_bind, Option.bind_some, Option.pure_def, if_true, hdate, Bool.false_eq_true,
            if_false, hspan, toldAlike_coalesced, Alike, hf, Option.some.injEq, exists_eq_left', exists_and_left, hends]
          cases hx : (column S r f).bind fun x => S.periodTest op false x span with
          | none => simp [Told]
          | some b => cases b <;> simp [Told]
        | false =>
          simp only [Option.bind_eq_bind, Option.bind_some, Option.pure_def, hdate, Bool.false_eq_true,
            if_false, hspan, toldAlike_coalesced, Alike, hf, Option.some.injEq, exists_eq_left', exists_and_left, hends]
          cases hx : (column S r f).bind fun x => S.periodTest op false x span <;> simp [Told]

theorem leafAlike_cmp {positive : Bool} {field : String} {op : Cmp} {arg : Arg} :
    LeafAlike S js fieldOf r positive (.cmp field op arg) ↔ Alike S js fieldOf r positive (.cmp field op arg) := by
  rw [LeafAlike, Formula.AtomAlike, readLeaf, boundLeaf, declaredLeaf]
  cases hf : fieldOf field with
  | none => simp [Alike, hf, not_toldAlike_none]
  | some f =>
    cases hy' : readArg S js fieldOf r f arg with
    | none => simp [Alike, hf, hy', not_toldAlike_none]
    | some y' =>
      cases hy : boundArg S js fieldOf r f arg with
      | none => simp [Alike, hf, hy, Formula.ToldAlike]
      | some y =>
        simp only [Option.bind_eq_bind, Option.bind_some, Option.pure_def, toldAlike_coalesced, Alike, hf, hy, hy',
          Option.some.injEq, exists_eq_left', exists_and_left]
        -- at two values `IS DISTINCT FROM` and `<>` are one test; a null on either side is the other clause of `Alike`
        cases hx : column S r f with
        | none => rw [getD_distinct_null op f.pg (.inl rfl)]; rfl
        | some x =>
          cases y with
          | none => rw [getD_distinct_null op f.pg (.inr rfl)]; rfl
          | some y =>
            rw [getD_distinct_some, Option.map_some]
            simp [strict]

/-- A negation of all three spellings. -/
theorem toldAlike_not {positive : Bool} {t u d : Tri} :
    Formula.ToldAlike positive (some (notHolds t)) (some (ThreeValued.not u)) (some (ThreeValued.not (coalesced d))) ↔
      Formula.ToldAlike (!positive) (some t) (some u) (some (coalesced d)) := by
  rw [toldAlike_coalesced, show ThreeValued.not (coalesced d) = coalesced (some !d.getD false) from rfl,
    toldAlike_coalesced, notHolds, Option.getD_some, Option.getD_some, Bool.not_inj_iff, getD_not, Bool.not_inj_iff]

theorem getD_isAny {type : String} {x : S.Datum} {ys : List (Option S.Datum)} :
    (isAny S type (some x) ys).getD false = true ↔ Among S type x ys := by
  rw [getD_false_eq_true, isAny, holds_any]
  constructor
  · rintro ⟨t, ht, htrue⟩
    obtain ⟨y, hy, rfl⟩ := List.mem_map.mp ht
    cases y with
    | none => exact absurd htrue not_holds_none
    | some y => exact ⟨y, hy, (holds_some _).mp htrue⟩
  · rintro ⟨y, hy, heq⟩
    exact ⟨S.equals type (some x) (some y), List.mem_map_of_mem hy, (holds_some _).mpr heq⟩

theorem getD_isAny_none {type : String} {ys : List (Option S.Datum)} : (isAny S type none ys).getD false = false := by
  rw [← Bool.not_eq_true, getD_false_eq_true, isAny, holds_any]
  rintro ⟨t, ht, htrue⟩
  obtain ⟨y, -, rfl⟩ := List.mem_map.mp ht
  exact absurd htrue not_holds_none

/-- A text is named by the list, or may be by a null of it. -/
theorem getD_inTexts {positive : Bool} {type : String} {x : S.Datum} {args : List Json} :
    (inTexts S js type (some x) args).getD (!positive) = true ↔ Named S js positive type x args := by
  rw [inTexts, getD_any (List.forall₂_map_right_iff.mpr (List.forall₂_same.mpr fun t _ => rfl)), List.any_map,
    List.any_map, List.any_eq_true]
  simp only [Named, elementTexts, List.mem_map]
  constructor
  · rintro ⟨v, hv, htrue⟩
    cases htext : S.elementText (plainValue js v) with
    | none => exact .inr ⟨by simpa [htext] using htrue, v, hv, htext⟩
    | some s =>
      left
      refine ⟨v, hv, ?_⟩
      simp only [Function.comp_apply, htext, Option.getD_some, id, beq_iff_eq] at htrue
      rw [htext, htrue]
  · rintro (⟨v, hv, htext⟩ | ⟨rfl, v, hv, htext⟩)
    · exact ⟨v, hv, by simp [htext]⟩
    · exact ⟨v, hv, by simp [htext]⟩

/-- A null is in no list, and known to be in no list that is empty. -/
theorem getD_inTexts_none {positive : Bool} {type : String} {args : List Json} (h : args ≠ []) :
    (inTexts S js type none args).getD (!positive) = !positive := by
  rw [inTexts, getD_any (List.forall₂_map_right_iff.mpr (List.forall₂_same.mpr fun t _ => rfl)), List.any_map,
    List.any_map]
  obtain ⟨v, args, rfl⟩ := List.exists_cons_of_ne_nil h
  cases positive with
  | true => simp
  | false => simp

theorem told_in {positive : Bool} {type : String} {x z : Option S.Datum} {args : List Json}
    {ys zs : List (Option S.Datum)} (hfold : x.isSome = z.isSome) (hys : args = [] → ys = [] ∧ zs = []) :
    Formula.ToldAlike positive (some (isAny S type z zs)) (some (inTexts S js type x args))
        (some (coalesced (isAny S type x ys))) ↔
      (args = [] ∨ Told positive x fun x => (Among S type x ys ↔ Named S js positive type x args) ∧
        ∀ u, z = some u → (Among S type u zs ↔ Named S js positive type x args)) := by
  rw [toldAlike_coalesced]
  by_cases hne : args = []
  · obtain ⟨rfl, rfl⟩ := hys hne
    subst hne
    simp [isAny, inTexts, any]
  · cases x with
    | none =>
      obtain rfl : z = none := by simpa using hfold.symm
      rw [getD_isAny_none, getD_isAny_none, getD_inTexts_none hne]
      simp [hne, Told]
    | some x =>
      obtain ⟨u, rfl⟩ := Option.isSome_iff_exists.mp hfold.symm
      simp only [hne, false_or, Told, Option.some.injEq, forall_eq']
      rw [← getD_isAny, ← getD_isAny, ← getD_inTexts, Bool.coe_iff_coe, Bool.coe_iff_coe]
      constructor
      · rintro ⟨hread, hbound⟩
        exact ⟨hbound.symm, hread.trans hbound.symm⟩
      · rintro ⟨hdeclared, hread⟩
        exact ⟨hread.trans hdeclared.symm, hdeclared.symm⟩

theorem leafAlike_in {positive : Bool} {field : String} {negated : Bool} {args : List Json} :
    LeafAlike S js fieldOf r positive (.in field negated args) ↔
      Alike S js fieldOf r positive (.in field negated args) := by
  rw [LeafAlike, Formula.AtomAlike, readLeaf, boundLeaf, declaredLeaf]
  cases hf : fieldOf field with
  | none => simp [Alike, hf, not_toldAlike_none]
  | some f =>
    cases hzs : readList S js f args with
    | none => simp [Alike, hf, hzs, not_toldAlike_none]
    | some zs =>
      cases hys : typedList S js f args with
      | none => simp [Alike, hf, hys, Formula.ToldAlike]
      | some ys =>
        have hempty : args = [] → ys = [] ∧ zs = [] := by
          rintro rfl
          exact ⟨by simpa [typedList] using hys.symm, by simpa [readList] using hzs.symm⟩
        have htold := @told_in S js (positive != negated) f.pg (column S r f) ((column S r f).map (fold S f)) args ys zs
          Option.isSome_map.symm hempty
        simp only [Option.bind_eq_bind, Option.bind_some, Option.pure_def, Alike, hf, hys, hzs,
          Option.some.injEq, exists_eq_left', exists_and_left]
        -- a negated list is the list under one more negation
        have hcore : Formula.ToldAlike positive
            (some (if negated then notHolds (isAny S f.pg ((column S r f).map (fold S f)) zs)
              else isAny S f.pg ((column S r f).map (fold S f)) zs))
            (some (if negated then ThreeValued.not (inTexts S js f.pg (column S r f) args)
              else inTexts S js f.pg (column S r f) args))
            (some (if negated then ThreeValued.not (coalesced (isAny S f.pg (column S r f) ys))
              else coalesced (isAny S f.pg (column S r f) ys))) ↔
            Formula.ToldAlike (positive != negated) (some (isAny S f.pg ((column S r f).map (fold S f)) zs))
              (some (inTexts S js f.pg (column S r f) args)) (some (coalesced (isAny S f.pg (column S r f) ys))) := by
          cases negated with
          | true => rw [if_pos rfl, if_pos rfl, if_pos rfl, toldAlike_not, Bool.bne_true]
          | false => rw [if_neg Bool.false_ne_true, if_neg Bool.false_ne_true, if_neg Bool.false_ne_true, Bool.bne_false]
        rw [hcore, htold]
        refine or_congr_right ?_
        cases column S r f <;> simp [Told]

/-- A declaration is two-valued. -/
theorem declared_known (l : Leaf) (d : Tri) (h : declaredLeaf S js fieldOf r l = some d) : ∃ b, d = some b := by
  cases l with
  | «in» field negated args =>
    obtain ⟨f, -, h⟩ := Option.bind_eq_some_iff.mp h
    obtain ⟨ys, -, h⟩ := Option.bind_eq_some_iff.mp h
    obtain rfl := Option.some.inj h
    cases negated <;> exact ⟨_, rfl⟩
  | cmp field op arg =>
    obtain ⟨f, -, h⟩ := Option.bind_eq_some_iff.mp h
    obtain ⟨y, -, h⟩ := Option.bind_eq_some_iff.mp h
    exact ⟨_, (Option.some.inj h).symm⟩
  | contains field arg =>
    cases arg with
    | lit v =>
      obtain ⟨f, -, h⟩ := Option.bind_eq_some_iff.mp h
      obtain ⟨y, -, h⟩ := Option.bind_eq_some_iff.mp h
      exact ⟨_, (Option.some.inj h).symm⟩
    | field name =>
      obtain ⟨f, -, h⟩ := Option.bind_eq_some_iff.mp h
      obtain ⟨g, -, h⟩ := Option.bind_eq_some_iff.mp h
      exact ⟨_, (Option.some.inj h).symm⟩
  | period field op lo hi =>
    obtain ⟨f, -, h⟩ := Option.bind_eq_some_iff.mp h
    obtain ⟨span, -, h⟩ := Option.bind_eq_some_iff.mp h
    exact ⟨_, (Option.some.inj h).symm⟩
  | json field contains =>
    obtain ⟨f, -, h⟩ := Option.bind_eq_some_iff.mp h
    obtain ⟨y, -, h⟩ := Option.bind_eq_some_iff.mp h
    exact ⟨_, (Option.some.inj h).symm⟩
  | null field is | like field pattern | text field mode value | list field op arg | listEmpty field empty
  | jsonEmpty field empty =>
    obtain ⟨f, -, h⟩ := Option.bind_eq_some_iff.mp h
    exact ⟨_, (Option.some.inj h).symm⟩

theorem leafAlike_iff {positive : Bool} {l : Leaf} :
    LeafAlike S js fieldOf r positive l ↔ Alike S js fieldOf r positive l := by
  cases l with
  | cmp field op arg => exact leafAlike_cmp
  | «in» field negated args => exact leafAlike_in
  | null field is => exact leafAlike_null
  | like field pattern => exact leafAlike_like
  | text field mode value => exact leafAlike_text
  | list field op arg => exact leafAlike_list
  | listEmpty field empty => exact leafAlike_listEmpty
  | contains field arg =>
    cases arg with
    | lit v => exact leafAlike_contains_lit
    | field name => exact leafAlike_contains_field
  | period field op lo hi => exact leafAlike_period
  | json field contains => exact leafAlike_json
  | jsonEmpty field empty => exact leafAlike_jsonEmpty

end

/-- The three spellings select a row alike by a predicate and by each part of it as it stands there exactly when every
condition is `Alike` where it stands, un-negated or negated; so they select it alike by the predicate itself. -/
theorem spellings_agree_iff (S : Server) (js : Js) (fieldOf : String → Option FieldInfo) (r : Values.Row S.toPg) (p : Pred) :
    p ∈ p.parts true ∧ ((∀ q ∈ p.parts true, SelectsAlike S js fieldOf r q) ↔
      ∀ c ∈ p.signed true, Alike S js fieldOf r c.1 c.2) := by
  refine ⟨Formula.mem_parts_self true p, ?_⟩
  rw [show (∀ c ∈ p.signed true, Alike S js fieldOf r c.1 c.2) ↔ ∀ c ∈ p.signed true, LeafAlike S js fieldOf r c.1 c.2
    from forall_congr' fun c => imp_congr_right fun _ => leafAlike_iff.symm]
  exact Formula.selectsAlike_parts_iff declared_known

/-- A server of texts, whose values are of no other type. -/
def textServer : Server where
  Datum := String
  eq _ a b := a == b
  input _
    | .string s => some s
    | _ => none
  json _ s := .string s
  text _ s := s
  lower s := String.ofList (s.toList.map Char.toLower)
  lt _ a b := decide (a < b)
  like a b := a == b
  ilike a b := String.ofList (a.toList.map Char.toLower) == String.ofList (b.toList.map Char.toLower)
  ofText s := s
  digits s := String.ofList (s.toList.filter Char.isDigit)
  cardinality _ := 0
  shares _ _ := false
  covers _ _ := false
  texts _ := ""
  elementText
    | .string s => some s
    | _ => none
  jsonb _ := ""
  parseJsonb _ := none
  includes _ _ := false
  isNil _ := false
  isArray _ := false
  range _ _ _ := none
  periodTest _ _ _ _ := none
  holdsAt _ _ := false
  spans _ _ := false

def js : Js where
  number _ := ""
  toLowerCase s := String.ofList (s.toList.map Char.toLower)
  later _ _ := false

def status : FieldInfo where
  name := "status"
  pg := "text"

/-- A row without a status. -/
def unstated : Values.Row textServer.toPg := ⟨"o1", fun _ => none⟩

/-- `NOT status = 'closed'`. -/
def notClosed : Pred := .not (.atom (.cmp "status" .eq (.lit (.string "closed"))))

/-- The reader and the declaration select a row without a status by `NOT status = 'closed'`, and the roll-up does not. -/
theorem notClosed_dropped :
    (notClosed.eval (readLeaf textServer js (fun _ => some status) unstated) notHolds = some (some true) ∧
      notClosed.eval (boundLeaf textServer js (fun _ => some status) unstated) ThreeValued.not = some none ∧
      notClosed.eval (declaredLeaf textServer js (fun _ => some status) unstated) ThreeValued.not = some (some true)) ∧
      ¬SelectsAlike textServer js (fun _ => some status) unstated notClosed := by
  have hread : notClosed.eval (readLeaf textServer js (fun _ => some status) unstated) notHolds = some (some true) := by
    rfl
  have hbound : notClosed.eval (boundLeaf textServer js (fun _ => some status) unstated) ThreeValued.not = some none := by
    rfl
  have hdeclared :
      notClosed.eval (declaredLeaf textServer js (fun _ => some status) unstated) ThreeValued.not = some (some true) := by
    rfl
  refine ⟨⟨hread, hbound, hdeclared⟩, ?_⟩
  rintro ⟨t, b, d, ht, hb, -, halike, -⟩
  obtain rfl := Option.some.inj (hread.symm.trans ht)
  obtain rfl := Option.some.inj (hbound.symm.trans hb)
  exact not_holds_none (halike.mp rfl)

end Norbital.Store.OwnPred

import Norbital.Std.Date
import Norbital.Std.Decimal
import Norbital.Std.Versioned

/-!
# Unchanged values

Which supplied values an update drops as unchanged (`changed` and `same` of
`bolt/src/engine/write/flatten.ts`), what a field's kind admits of a supplied value
(`decodeValue`), what its column makes of it, and how a stored value reads back.

`Number` of a text, `Date.parse` and PostgreSQL's reading of instants and its
single-precision numbers are parameters.
-/

namespace Norbital.Bolt.Unchanged

open Norbital.Std
open Norbital.Std.Versioned (equal_string)

/-- What JavaScript makes of texts; `none` is `NaN`. -/
structure Host where
  js : Js
  /-- `Number(s)`, as the decimal its shortest digits spell. -/
  number : String → Option Rat
  /-- `Date.parse(s)`. -/
  dateParse : String → Option ℤ
  /-- `String(v)`. -/
  string : Json → String

/-- `/^\d{4}-\d{2}-\d{2}T/`. -/
def looksLikeInstant (s : String) : Bool := fits (dateShape ++ [(· == 'T')]) (s.toList.take 11)

/-- The value of an object whose one key starts with `$`, any other value as it is. -/
def inner : Json → Json
  | .object [(key, value)] => if key.toList.head? = some '$' then value else .object [(key, value)]
  | x => x

/-- `Number(x)` of what is no object. -/
def Host.numberOf (host : Host) : Json → Option Rat
  | .number n => some n
  | .string s => host.number s
  | .bool b => some (if b then 1 else 0)
  | _ => none

def isNumber : Json → Bool
  | .number _ => true
  | _ => false

/-- `typeof x !== 'object'`. -/
def isPrimitive : Json → Bool
  | .number _ | .string _ | .bool _ => true
  | _ => false

/-- `===` of two readings, where `NaN` equals nothing. -/
def sameReading {α : Type} [DecidableEq α] (a b : Option α) : Bool := a.isSome && decide (a = b)

/-- `same` of what are no numbers; equal canonical texts are values equal up to the order of keys. -/
def sameValue (host : Host) : Json → Json → Bool
  | .string s, .string t =>
    if looksLikeInstant s && looksLikeInstant t then sameReading (host.dateParse s) (host.dateParse t)
    else decide (s = t)
  | x, y => x.equal y

/-- `same`, inside the wrappers. -/
def sameInner (host : Host) (x y : Json) : Bool :=
  if (isNumber x || isNumber y) && isPrimitive x && isPrimitive y then
    sameReading (host.numberOf x) (host.numberOf y)
  else sameValue host x y

/-- `same`. -/
def same (host : Host) (a b : Json) : Bool := sameInner host (inner a) (inner b)

/-- `changed`: the values of `set` that differ from the row's. -/
def changed (host : Host) (row set : List (String × Json)) : List (String × Json) :=
  set.filter fun e => !same host ((member row e.1).getD .null) e.2

inductive PeriodOf where
  | date | instant
  deriving DecidableEq, Repr

/-- A field's kind, with what its column and its codec are decided by. -/
inductive Field where
  /-- `text` and `currency`. -/
  | text (many : Bool)
  | enum (values : List String) (many : Bool)
  | state (states : List String)
  /-- `int` and `duration`. -/
  | int
  /-- `decimal` and `money`. -/
  | decimal
  | bool
  | date
  | instant
  | id
  | ref (arms : List String)
  | period (of : PeriodOf)
  | vector (dim : Option Nat)
  /-- `list` and `object`. -/
  | shaped (kind : Kind)
  /-- `json` and `custom`. -/
  | json (shape : Option Kind)

/-- A list of texts that pass a test. -/
def listOf (ok : String → Bool) : Json → Bool
  | .array items => items.all fun
    | .string s => ok s
    | _ => false
  | _ => false

def textWith (ok : String → Bool) : Json → Bool
  | .string s => ok s
  | _ => false

/-- The ends of a period and their order. -/
def PeriodOf.ends : PeriodOf → String × String
  | .date => ("from", "to")
  | .instant => ("start", "end")

def PeriodOf.isEnd (host : Host) : PeriodOf → Json → Option String
  | .date, v => dateValue v
  | .instant, .string s => if (instantValue host.js (.string s)).isSome then some s else none
  | .instant, _ => none

def PeriodOf.inOrder (host : Host) : PeriodOf → String → String → Bool
  | .date, a, z => decide (a ≤ z)
  | .instant, a, z =>
    match host.dateParse a, host.dateParse z with
    | some x, some y => decide (x < y)
    | _, _ => false

/-- The problem of a period, if it has one. -/
def decodePeriod (host : Host) (of : PeriodOf) (v : Json) : Option String :=
  let (lo, hi) := of.ends
  let expected := "expected a period \x7b " ++ lo ++ ", " ++ hi ++ " \x7d"
  match v with
  | .object members =>
    if !members.all fun e => e.1 = lo || e.1 = hi then some expected
    -- the first end is asked for, the second may be open
    else
      match (member members lo).bind (of.isEnd host) with
      | none => some expected
      | some a =>
        match (member members hi).getD .null with
        | .null => none
        | b =>
          match of.isEnd host b with
          | none => some expected
          | some z => if of.inOrder host a z then none else some ("'" ++ lo ++ "' is after '" ++ hi ++ "'")
  | _ => some expected

def commas (texts : List String) : String := ", ".intercalate texts

/-- The problem of a supplied value that is no null; `shapeProblem` words the problems of a shape. -/
def Field.problem (host : Host) (shapeProblem : Kind → Json → String) (v : Json) : Field → Option String
  | .text true => if listOf (fun _ => true) v then none else some "expected a list of text"
  | .text false => if v.isString then none else some "expected text"
  | .enum values many =>
    if (if many then listOf values.contains v else textWith values.contains v) then none
    else some ("expected one of " ++ commas values)
  | .state states => if textWith states.contains v then none else some ("'" ++ host.string v ++ "' is not a state")
  | .int => if isInt v then none else some "expected a whole number"
  | .decimal => if decimalValue v then none else some "expected a decimal"
  | .bool =>
    match v with
    | .bool _ => none
    | _ => some "expected true or false"
  | .date => if (dateValue v).isSome then none else some "expected a date"
  | .instant => if textWith (fun s => (host.dateParse s).isSome) v then none else some "expected an instant"
  | .id => if v.isString then none else some "expected an id"
  | .ref arms =>
    match v with
    | .object members =>
      if members.length = 2 ∧ (member members "id").any Json.isString ∧
          (member members "model").any (textWith arms.contains) then none
      else some ("expected \x7b model, id \x7d with model one of " ++ commas arms)
    | _ => some ("expected \x7b model, id \x7d with model one of " ++ commas arms)
  | .period of => decodePeriod host of v
  | .vector dim =>
    match v with
    | .array items =>
      if dim.all (items.length = ·) ∧ items.all isFinite then none
      else some ("expected " ++ dim.elim "a list of" toString ++ " finite numbers")
    | _ => some ("expected " ++ dim.elim "a list of" toString ++ " finite numbers")
  | .shaped kind => if kind.decodes host.js v then none else some "expected the declared field shape"
  | .json none => none
  | .json (some shape) => if shape.decodes host.js v then none else some (shapeProblem shape v)

/-- `decodeValue`: the problem of a supplied value, if it has one. -/
def decodeValue (host : Host) (shapeProblem : Kind → Json → String) (f : Field) (v : Json) : Option String :=
  if v.isNull then none else f.problem host shapeProblem v

/-- What a field's column holds. -/
inductive Column where
  | text | texts | int | numeric | boolean | date | timestamptz | refs | daterange | tstzrange | vector | jsonb
  deriving DecidableEq, Repr

def Field.column : Field → Column
  | .text many | .enum _ many => if many then .texts else .text
  | .state _ | .id => .text
  | .int => .int
  | .decimal => .numeric
  | .bool => .boolean
  | .date => .date
  | .instant => .timestamptz
  | .ref _ => .refs
  | .period .date => .daterange
  | .period .instant => .tstzrange
  | .vector _ => .vector
  | .shaped _ | .json _ => .jsonb

/-- A column's value; instants are microseconds. -/
inductive Stored where
  | text (s : String)
  | texts (items : List String)
  | int (n : ℤ)
  | numeric (q : Rat)
  | boolean (b : Bool)
  | date (s : String)
  | timestamptz (us : ℤ)
  | refs (model id : String)
  | daterange (first : String) (last : Option String)
  | tstzrange (first : ℤ) (last : Option ℤ)
  | vector (items : List Rat)
  | jsonb (j : Json)

/-- What PostgreSQL makes of a supplied value. -/
structure Pg where
  /-- The microseconds of a text as `timestamptz`. -/
  instantOf : String → Option ℤ
  /-- A number in single precision. -/
  single : Rat → Rat

/-- The number a decimal text spells. -/
def numericOf (s : String) : Option Rat := (Decimal.of s).toOption.map Decimal.value

def texts : Json → Option String
  | .string s => some s
  | _ => none

def numbers : Json → Option Rat
  | .number n => some n
  | _ => none

/-- An end of a period: open where it is missing or null. -/
def lastOf {α : Type} (read : String → Option α) : Option Json → Option (Option α)
  | none | some .null => some none
  | some (.string s) => (read s).map some
  | _ => none

/-- The value a column holds once a supplied value is written to it; `none` where it is no value
of the column's type. -/
def write (pg : Pg) : Column → Json → Option (Option Stored)
  | _, .null => some none
  | .text, .string s => some (some (.text s))
  | .texts, .array items => (items.mapM texts).map fun l => some (.texts l)
  | .int, .number n => if n.isInt then some (some (.int n.num)) else none
  | .numeric, .number n => some (some (.numeric n))
  | .numeric, .string s => (numericOf s).map fun q => some (.numeric q)
  -- a decimal in wire form
  | .numeric, .object ms => (((member ms "$dec").bind texts).bind numericOf).map fun q => some (.numeric q)
  | .boolean, .bool b => some (some (.boolean b))
  | .date, .string s => some (some (.date s))
  | .timestamptz, .string s => (pg.instantOf s).map fun us => some (.timestamptz us)
  | .refs, .object ms =>
    match (member ms "model").bind texts, (member ms "id").bind texts with
    | some model, some id => some (some (.refs model id))
    | _, _ => none
  | .daterange, .object ms =>
    match (member ms "from").bind texts, lastOf some (member ms "to") with
    | some first, some last => some (some (.daterange first last))
    | _, _ => none
  | .tstzrange, .object ms =>
    match ((member ms "start").bind texts).bind pg.instantOf, lastOf pg.instantOf (member ms "end") with
    | some first, some last => some (some (.tstzrange first last))
    | _, _ => none
  | .vector, .array items => (items.mapM numbers).map fun l => some (.vector (l.map pg.single))
  | .jsonb, v => some (some (.jsonb v))
  | _, _ => none

/-- How a stored value reads back in wire form (`wire` of `store/src/read/sql.ts`): instants lose what
is below a millisecond, integers past the safe ones are no longer exact. -/
def Wire (host : Host) (pg : Pg) : Option Stored → Json → Prop
  | none, row => row = .null
  | some (.text s), row => row = .string s
  | some (.texts items), row => row = .array (items.map .string)
  | some (.int n), row => ∃ x : ℤ, row = .number x ∧ (isSafeInteger n = true → x = n) ∧
      (isSafeInteger n = false → isSafeInteger x = false)
  | some (.numeric q), row => ∃ s, row = .object [("$dec", .string s)] ∧ isDecimalText s = true ∧ numericOf s = some q
  | some (.boolean b), row => row = .bool b
  | some (.date s), row => row = .string s
  | some (.timestamptz us), row => ∃ s, row = .string s ∧ looksLikeInstant s = true ∧ host.dateParse s = some (us / 1000)
  | some (.refs model id), row => row = .object [("model", .string model), ("id", .string id)]
  | some (.daterange first last), row => row = .object [("from", .string first), ("to", last.elim .null .string)]
  | some (.tstzrange _ last), row => ∃ s t, row = .object [("start", .string s), ("end", t)] ∧
      (last = none ↔ t = .null) ∧ (t.isNull = false → t.isString = true)
  | some (.vector items), row => row = .array (items.map .number) ∧ ∀ n ∈ items, pg.single n = n
  | some (.jsonb j), row => row = j ∧ j.isNull = false

/-- How an act reads a row of its own where that is not the wire form (`exactRow` of `act.ts`):
decimals, lists, periods and vectors as texts, a reference to one of several models under its arms'
columns and so not under its own name. -/
def Raw : Option Stored → Json → Prop
  | some (.numeric q), row => ∃ s, row = .string s ∧ isDecimalText s = true ∧ numericOf s = some q
  | some (.refs _ _), row => row = .null
  | some (.texts _), row | some (.daterange _ _), row | some (.tstzrange _ _), row | some (.vector _), row =>
    ∃ s, row = .string s
  | _, _ => False

def Reads (host : Host) (pg : Pg) (stored : Option Stored) (row : Json) : Prop :=
  Wire host pg stored row ∨ Raw stored row

/-- The stored value is one of the column's. -/
def Stored.column : Stored → Column
  | .text _ => .text
  | .texts _ => .texts
  | .int _ => .int
  | .numeric _ => .numeric
  | .boolean _ => .boolean
  | .date _ => .date
  | .timestamptz _ => .timestamptz
  | .refs _ _ => .refs
  | .daterange _ _ => .daterange
  | .tstzrange _ _ => .tstzrange
  | .vector _ => .vector
  | .jsonb _ => .jsonb

/-- Equal values of a column. -/
def Equal : Option Stored → Option Stored → Prop
  | some (.jsonb a), some (.jsonb b) => a.equal b = true
  | a, b => a = b

/-- Writing the supplied value leaves the stored one as it was. -/
def Kept (pg : Pg) (column : Column) (stored : Option Stored) (v : Json) : Prop :=
  ∃ w, write pg column v = some w ∧ Equal stored w

/-- The values `same` finds no difference between: equal ones, one of which is not a text in the form
of an instant; readings as one number; texts in the form of instants that name one millisecond. -/
inductive Alike (host : Host) : Json → Json → Prop
  | equal {x y : Json} (h : x.equal y = true)
      (hform : ∀ s t, x = .string s → y = .string t → (looksLikeInstant s && looksLikeInstant t) = false) :
      Alike host x y
  | number {x y : Json} {n : Rat} (hnumber : isNumber x = true ∨ isNumber y = true)
      (hx : host.numberOf x = some n) (hy : host.numberOf y = some n) : Alike host x y
  | instant {s t : String} {ms : ℤ} (hs : looksLikeInstant s = true) (ht : looksLikeInstant t = true)
      (hx : host.dateParse s = some ms) (hy : host.dateParse t = some ms) : Alike host (.string s) (.string t)

theorem sameReading_iff {α : Type} [DecidableEq α] {a b : Option α} :
    sameReading a b = true ↔ ∃ x, a = some x ∧ b = some x := by
  cases a with
  | none => simp [sameReading]
  | some x =>
    rw [sameReading, Option.isSome_some, Bool.true_and, decide_eq_true_eq]
    exact ⟨fun h => ⟨x, rfl, h.symm⟩, fun ⟨y, hx, hy⟩ => hx.trans hy.symm⟩

theorem isPrimitive_of_numberOf {host : Host} {x : Json} {n : Rat} (h : host.numberOf x = some n) :
    isPrimitive x = true := by
  cases x with
  | null => cases h
  | array items => cases h
  | object members => cases h
  | _ => rfl

theorem equal_number {n : Rat} {y : Json} : Json.equal (.number n) y = true ↔ y = .number n := by
  cases y with
  | number m =>
    rw [Json.equal, beq_iff_eq, Json.number.injEq]
    exact eq_comm
  | _ => simp [Json.equal]

theorem equal_to_number {n : Rat} {x : Json} : Json.equal x (.number n) = true ↔ x = .number n := by
  cases x with
  | number m => rw [Json.equal, beq_iff_eq, Json.number.injEq]
  | _ => simp [Json.equal]

theorem sameValue_string (host : Host) (s t : String) : sameValue host (.string s) (.string t) =
    if looksLikeInstant s && looksLikeInstant t then sameReading (host.dateParse s) (host.dateParse t)
    else decide (s = t) := rfl

theorem sameValue_of_ne {host : Host} {x y : Json} (h : ∀ s t, x = .string s → y ≠ .string t) :
    sameValue host x y = x.equal y := by
  cases x with
  | string s =>
    cases y with
    | string t => exact absurd rfl (h s t rfl)
    | _ => rfl
  | _ => rfl

theorem sameValue_iff {host : Host} {x y : Json}
    (hnumber : ∀ n, host.numberOf x = some n → host.numberOf y = some n → isNumber x = false ∧ isNumber y = false) :
    sameValue host x y = true ↔ Alike host x y := by
  have hread : ∀ {n}, (isNumber x = true ∨ isNumber y = true) → host.numberOf x = some n →
      host.numberOf y = some n → False := by
    intro n h hx hy
    obtain ⟨hx', hy'⟩ := hnumber n hx hy
    rw [hx', hy'] at h
    simp at h
  by_cases hstrings : ∃ s t, x = .string s ∧ y = .string t
  · obtain ⟨s, t, rfl, rfl⟩ := hstrings
    rw [sameValue_string]
    split_ifs with hform
    · rw [sameReading_iff]
      rw [Bool.and_eq_true] at hform
      constructor
      · rintro ⟨ms, hs, ht⟩
        exact .instant hform.1 hform.2 hs ht
      · rintro (⟨-, hno⟩ | ⟨h, hx, hy⟩ | ⟨-, -, hx, hy⟩)
        · have hfalse := hno s t rfl rfl
          simp [hform.1, hform.2] at hfalse
        · exact (hread h hx hy).elim
        · exact ⟨_, hx, hy⟩
    · rw [decide_eq_true_eq]
      constructor
      · rintro rfl
        refine .equal (equal_string.2 rfl) fun s' t' hs ht => ?_
        cases hs
        cases ht
        exact Bool.eq_false_iff.2 hform
      · rintro (⟨h, -⟩ | ⟨h, hx, hy⟩ | ⟨hs, ht, -, -⟩)
        · exact equal_string.1 h
        · exact (hread h hx hy).elim
        · exact absurd (by simp [hs, ht]) hform
  · have hno : ∀ s t, x = .string s → y ≠ .string t := fun s t hs ht => hstrings ⟨s, t, hs, ht⟩
    rw [sameValue_of_ne hno]
    constructor
    · exact fun h => .equal h fun s t hs ht => absurd ht (hno s t hs)
    · rintro (⟨h, -⟩ | ⟨h, hx, hy⟩ | _)
      · exact h
      · exact (hread h hx hy).elim
      · exact absurd rfl (hno _ _ rfl)

/-- The untyped comparison finds no difference just where the values are alike. -/
theorem sameInner_iff {host : Host} {x y : Json} : sameInner host x y = true ↔ Alike host x y := by
  rw [sameInner]
  by_cases hnumber : (isNumber x || isNumber y) && isPrimitive x && isPrimitive y
  · rw [if_pos hnumber, sameReading_iff]
    simp only [Bool.and_eq_true, Bool.or_eq_true] at hnumber
    constructor
    · rintro ⟨n, hx, hy⟩
      exact .number hnumber.1.1 hx hy
    · rintro (⟨h, -⟩ | ⟨-, hx, hy⟩ | _)
      · have hread : host.numberOf x = host.numberOf y ∧ (host.numberOf x).isSome = true := by
          obtain ⟨⟨hx | hy, -⟩, -⟩ := hnumber
          · cases x with
            | number n => rw [equal_number.1 h]; exact ⟨rfl, rfl⟩
            | _ => cases hx
          · cases y with
            | number n => rw [equal_to_number.1 h]; exact ⟨rfl, rfl⟩
            | _ => cases hy
        obtain ⟨n, hn⟩ := Option.isSome_iff_exists.1 hread.2
        exact ⟨n, hn, hread.1 ▸ hn⟩
      · exact ⟨_, hx, hy⟩
      · simp [isNumber] at hnumber
  · rw [if_neg hnumber]
    refine sameValue_iff fun n hx hy => ?_
    rw [isPrimitive_of_numberOf hx, isPrimitive_of_numberOf hy] at hnumber
    simpa using hnumber

theorem same_iff {host : Host} {a b : Json} : same host a b = true ↔ Alike host (inner a) (inner b) :=
  sameInner_iff

section

variable {host : Host} {pg : Pg}

/-- What is neither a number nor two texts is alike where it is equal. -/
theorem alike_iff_equal {x y : Json} (hx : isNumber x = false) (hy : isNumber y = false)
    (hstrings : ∀ s t, x = .string s → y ≠ .string t) : Alike host x y ↔ x.equal y = true := by
  rw [← sameInner_iff, sameInner, hx, hy]
  simp [sameValue_of_ne hstrings]

theorem alike_string {s t : String} : Alike host (.string s) (.string t) ↔
    if looksLikeInstant s && looksLikeInstant t then ∃ ms, host.dateParse s = some ms ∧ host.dateParse t = some ms
    else s = t := by
  rw [← sameInner_iff, sameInner, if_neg (by simp [isNumber]), sameValue_string]
  split_ifs
  · exact sameReading_iff
  · exact decide_eq_true_iff

/-- A number and another primitive are alike where they read as one number. -/
theorem alike_number {x : Json} {n : Rat} (hx : isPrimitive x = true) :
    Alike host x (.number n) ↔ host.numberOf x = some n := by
  rw [← sameInner_iff, sameInner, if_pos (by rw [hx]; simp [isNumber, isPrimitive]), sameReading_iff]
  simp [Host.numberOf]

theorem inner_of_length {ms : List (String × Json)} (h : ms.length ≠ 1) : inner (.object ms) = .object ms := by
  match ms with
  | [] => rfl
  | [_] => exact absurd rfl h
  | _ :: _ :: _ => rfl

theorem inner_of_keys {ms : List (String × Json)} (h : ∀ e ∈ ms, e.1.toList.head? ≠ some '$') :
    inner (.object ms) = .object ms := by
  match ms with
  | [] => rfl
  | [e] => exact if_neg (h e List.mem_cons_self)
  | _ :: _ :: _ => rfl

theorem equal_string_iff {s : String} {y : Json} : Json.equal (.string s) y = true ↔ y = .string s := by
  cases y with
  | string t =>
    rw [equal_string, Json.string.injEq]
    exact eq_comm
  | _ => simp [Json.equal]

theorem equal_null {x : Json} : Json.equal x .null = true ↔ x = .null := by
  cases x <;> simp [Json.equal]

theorem null_equal {x : Json} : Json.equal .null x = true ↔ x = .null := by
  cases x <;> simp [Json.equal]

theorem isNull_iff {x : Json} : x.isNull = true ↔ x = .null := by
  cases x <;> simp [Json.isNull]

theorem alike_null_left {y : Json} : Alike host .null y ↔ y = .null := by
  rw [← sameInner_iff, sameInner, if_neg (by simp [isPrimitive]), sameValue_of_ne (by rintro s t ⟨⟩), null_equal]

theorem alike_null_right {x : Json} : Alike host x .null ↔ x = .null := by
  rw [← sameInner_iff, sameInner, if_neg (by simp [isPrimitive]), sameValue_of_ne (by rintro s t - ⟨⟩), equal_null]

/-- Items written one by one are equal where they are the same. -/
theorem equalItems_map {α : Type} {f : α → Json} (hf : ∀ a y, (f a).equal y = true ↔ y = f a) {l : List α}
    {ys : List Json} : Json.equalItems (l.map f) ys = true ↔ ys = l.map f := by
  induction l generalizing ys with
  | nil => cases ys <;> simp [Json.equalItems]
  | cons a l ih =>
    cases ys with
    | nil => simp [Json.equalItems]
    | cons y ys => simp [Json.equalItems, hf, ih]

theorem mapM_map {α : Type} {f : α → Json} {g : Json → Option α} (hg : ∀ a, g (f a) = some a) (l : List α) :
    (l.map f).mapM g = some l := by
  induction l with
  | nil => rfl
  | cons a l ih => simp [hg, ih]

theorem member_of_equalMembers {kx ky : List (String × Json)} (h : Json.equalMembers kx ky = true) {k : String}
    {x : Json} (hx : (k, x) ∈ kx) : ∃ y, member ky k = some y ∧ x.equal y = true := by
  induction kx with
  | nil => cases hx
  | cons e kx ih =>
    obtain ⟨k', x'⟩ := e
    rw [Json.equalMembers, Bool.and_eq_true] at h
    obtain hx | hx := List.mem_cons.1 hx
    · cases hx
      cases hy : member ky k with
      | none => simp [hy] at h
      | some y =>
        rw [hy] at h
        exact ⟨y, rfl, h.1⟩
    · exact ih h.2 hx

/-- The form of a supplied value that is no null, by the column it goes to. -/
def Formed : Column → Json → Prop
  | .text, v => ∃ s, v = .string s
  | .texts, v => ∃ items, v = .array items
  | .int, v => ∃ n : ℤ, v = .number n ∧ isSafeInteger n = true
  | .numeric, v => decimalValue v = true
  | .boolean, v => ∃ b, v = .bool b
  | .date, v => ∃ s, v = .string s ∧ looksLikeInstant s = false
  | .timestamptz, v => ∃ s, v = .string s
  | .refs, v => ∃ ms, v = .object ms ∧ ms.length = 2
  | .daterange, v => ∃ ms, v = .object ms ∧ ∀ e ∈ ms, e.1 = "from" ∨ e.1 = "to"
  | .tstzrange, v => ∃ ms, v = .object ms ∧ ∀ e ∈ ms, e.1 = "start" ∨ e.1 = "end"
  | .vector, v => ∃ items, v = .array items
  | .jsonb, _ => True

theorem not_looksLikeInstant_of_date {s : String} (h : isPlainDate s = true) : looksLikeInstant s = false := by
  refine Bool.eq_false_iff.2 fun hlooks => ?_
  rw [isPlainDate, Bool.and_eq_true] at h
  have hten := length_of_fits _ _ h.1
  have heleven := length_of_fits _ _ hlooks
  have htake : (s.toList.take 11).length ≤ s.toList.length := by
    rw [List.length_take]
    exact Nat.min_le_right _ _
  rw [heleven, hten] at htake
  exact absurd htake (by decide)

theorem exists_texts {ok : String → Bool} {v : Json} (h : listOf ok v = true) : ∃ items, v = .array items := by
  cases v with
  | array items => exact ⟨items, rfl⟩
  | _ => cases h

theorem exists_text {ok : String → Bool} {v : Json} (h : textWith ok v = true) : ∃ s, v = .string s := by
  cases v with
  | string s => exact ⟨s, rfl⟩
  | _ => cases h

theorem exists_string {v : Json} (h : v.isString = true) : ∃ s, v = .string s := by
  cases v with
  | string s => exact ⟨s, rfl⟩
  | _ => cases h

theorem exists_int {v : Json} (h : isInt v = true) : ∃ n : ℤ, v = .number n ∧ isSafeInteger n = true := by
  cases v with
  | number q =>
    have hsafe : isSafeInteger q = true := h
    have hint : q.isInt = true := (Bool.and_eq_true_iff.1 hsafe).1
    have hq : ((q.num : ℤ) : Rat) = q := Rat.coe_int_num_of_den_eq_one (by simpa [Rat.isInt] using hint)
    exact ⟨q.num, by rw [hq], by rw [hq]; exact hsafe⟩
  | _ => cases h

theorem formed_period {of : PeriodOf} {v : Json} (h : decodePeriod host of v = none) :
    ∃ ms, v = .object ms ∧ ∀ e ∈ ms, e.1 = of.ends.1 ∨ e.1 = of.ends.2 := by
  cases v with
  | object ms =>
    refine ⟨ms, rfl, ?_⟩
    simp only [decodePeriod] at h
    split_ifs at h with hkeys
    intro e he
    have hall := hkeys
    simp only [Bool.not_eq_true, Bool.not_eq_false', List.all_eq_true, Bool.or_eq_true, decide_eq_true_eq] at hall
    exact hall e he
  | _ => simp [decodePeriod] at h

/-- A value its field admits has the form of the field's column. -/
theorem formed_of_decodeValue {shapeProblem : Kind → Json → String} {f : Field} {v : Json}
    (h : decodeValue host shapeProblem f v = none) (hv : v.isNull = false) : Formed f.column v := by
  have h : f.problem host shapeProblem v = none := by simpa [decodeValue, hv] using h
  cases f with
  | text many =>
    cases many with
    | true => exact exists_texts (by simpa [Field.problem] using h)
    | false => exact exists_string (by simpa [Field.problem] using h)
  | enum values many =>
    cases many with
    | true => exact exists_texts (by simpa [Field.problem] using h)
    | false => exact exists_text (by simpa [Field.problem] using h)
  | state states => exact exists_text (by simpa [Field.problem] using h)
  | int => exact exists_int (by simpa [Field.problem] using h)
  | decimal => exact (by simpa [Field.problem] using h : decimalValue v = true)
  | bool =>
    cases v with
    | bool b => exact ⟨b, rfl⟩
    | _ => cases h
  | date =>
    have hsome : (dateValue v).isSome = true := by simpa [Field.problem, ← Option.isSome_iff_ne_none] using h
    cases v with
    | string s =>
      refine ⟨s, rfl, not_looksLikeInstant_of_date ?_⟩
      rw [dateValue] at hsome
      split_ifs at hsome with hdate
      · exact (Bool.and_eq_true_iff.1 hdate).2
      · cases hsome
    | _ => cases hsome
  | instant => exact exists_text (by simpa [Field.problem] using h)
  | id => exact exists_string (by simpa [Field.problem] using h)
  | ref arms =>
    cases v with
    | object ms =>
      simp only [Field.problem] at h
      split_ifs at h with hfits
      exact ⟨ms, rfl, hfits.1⟩
    | _ => cases h
  | period of =>
    cases of with
    | date => exact formed_period (by simpa only [Field.problem] using h)
    | instant => exact formed_period (by simpa only [Field.problem] using h)
  | vector dim =>
    cases v with
    | array items => exact ⟨items, rfl⟩
    | _ => cases h
  | shaped kind => trivial
  | json shape => trivial

theorem kept_iff_write {c : Column} {stored : Option Stored} {v : Json} (h : ∀ j, stored ≠ some (.jsonb j)) :
    Kept pg c stored v ↔ write pg c v = some stored := by
  have hequal : ∀ w, Equal stored w ↔ stored = w := by
    intro w
    cases stored with
    | none => exact Iff.rfl
    | some x =>
      cases x with
      | jsonb j => exact absurd rfl (h j)
      | _ => exact Iff.rfl
  constructor
  · rintro ⟨w, hw, he⟩
    rw [hw, (hequal w).1 he]
  · exact fun hw => ⟨stored, hw, (hequal stored).2 rfl⟩

/-- A JSON column keeps its value just where the supplied one is equal to it. -/
theorem kept_jsonb {stored : Option Stored} {row v : Json} (hreads : Wire host pg stored row)
    (hcolumn : ∀ x ∈ stored, x.column = .jsonb) : Kept pg .jsonb stored v ↔ row.equal v = true := by
  have hwrite : write pg .jsonb v = some (if v.isNull then none else some (.jsonb v)) := by
    cases v <;> rfl
  have hkept : Kept pg .jsonb stored v ↔ Equal stored (if v.isNull then none else some (.jsonb v)) := by
    refine ⟨?_, fun he => ⟨_, hwrite, he⟩⟩
    rintro ⟨w, hw, he⟩
    rwa [Option.some.inj (hwrite.symm.trans hw)]
  rw [hkept]
  cases stored with
  | none =>
    obtain rfl : row = .null := hreads
    rw [null_equal]
    split_ifs with hv
    · exact iff_of_true rfl (isNull_iff.1 hv)
    · exact iff_of_false (by simp [Equal]) fun h => hv (isNull_iff.2 h)
  | some x =>
    cases x with
    | jsonb j =>
      obtain ⟨rfl, hj⟩ : row = j ∧ j.isNull = false := hreads
      split_ifs with hv
      · rw [isNull_iff.1 hv, equal_null]
        refine iff_of_false (by simp [Equal]) ?_
        rintro rfl
        cases hj
      · exact Iff.rfl
    | _ => cases hcolumn _ rfl

/-- The values `same` takes for each other though writing one changes what is stored: two texts of
one millisecond in a text column, a number and a decimal that round to one double, instants of one
millisecond, a period whose ends read back cut to milliseconds, and JSON values that are alike inside
their wrappers without being equal. -/
inductive Confused (host : Host) (pg : Pg) : Column → Option Stored → Json → Json → Prop
  | text {s t : String} {ms : ℤ} (hne : s ≠ t) (hs : looksLikeInstant s = true) (ht : looksLikeInstant t = true)
      (hx : host.dateParse s = some ms) (hy : host.dateParse t = some ms) :
      Confused host pg .text (some (.text s)) (.string s) (.string t)
  | numeric {q n : Rat} {s : String} {row : Json} (hrow : inner row = .string s) (hread : host.number s = some n)
      (hne : q ≠ n) : Confused host pg .numeric (some (.numeric q)) row (.number n)
  | timestamptz {us ms : ℤ} {s t : String} (ht : looksLikeInstant t = true) (hx : host.dateParse s = some ms)
      (hy : host.dateParse t = some ms) (hne : pg.instantOf t ≠ some us) :
      Confused host pg .timestamptz (some (.timestamptz us)) (.string s) (.string t)
  | refs {model id : String} : Confused host pg .refs (some (.refs model id)) .null .null
  | tstzrange {stored : Stored} {row v : Json} (hequal : row.equal v = true)
      (hne : write pg .tstzrange row ≠ some (some stored)) :
      Confused host pg .tstzrange (some stored) row v
  | jsonb {stored : Option Stored} {row v : Json} (halike : Alike host (inner row) (inner v))
      (hne : row.equal v = false) : Confused host pg .jsonb stored row v

theorem inner_dec (s : String) : inner (.object [("$dec", .string s)]) = .string s := by
  rw [inner]
  exact if_pos (by decide)

theorem not_looksLikeInstant_of_decimal {s : String} (h : isDecimalText s = true) : looksLikeInstant s = false := by
  refine Bool.eq_false_iff.2 fun hlooks => ?_
  have hfits : ∀ (ps qs : List (Char → Bool)) (cs : List Char), fits (ps ++ qs) cs = true →
      fits ps (cs.take ps.length) = true := by
    intro ps
    induction ps with
    | nil => exact fun qs cs _ => rfl
    | cons p ps ih =>
      intro qs cs h
      cases cs with
      | nil => cases h
      | cons c cs =>
        rw [List.cons_append, fits, Bool.and_eq_true] at h
        rw [List.length_cons, List.take_succ_cons, fits, h.1, ih qs cs h.2]
        rfl
  have hdate := hfits _ _ _ hlooks
  rw [List.take_take] at hdate
  rw [isDecimalText_of_fits hdate] at h
  cases h

theorem write_text (s : String) : write pg .text (.string s) = some (some (.text s)) := rfl

theorem write_texts (items : List Json) :
    write pg .texts (.array items) = (items.mapM texts).map fun l => some (.texts l) := rfl

theorem write_int (n : Rat) : write pg .int (.number n) = if n.isInt then some (some (.int n.num)) else none := rfl

theorem write_numeric (n : Rat) : write pg .numeric (.number n) = some (some (.numeric n)) := rfl

theorem write_numeric_text (s : String) :
    write pg .numeric (.string s) = (numericOf s).map fun q => some (.numeric q) := rfl

theorem write_numeric_dec (ms : List (String × Json)) : write pg .numeric (.object ms) =
    (((member ms "$dec").bind texts).bind numericOf).map fun q => some (.numeric q) := rfl

theorem write_boolean (b : Bool) : write pg .boolean (.bool b) = some (some (.boolean b)) := rfl

theorem write_date (s : String) : write pg .date (.string s) = some (some (.date s)) := rfl

theorem write_timestamptz (s : String) :
    write pg .timestamptz (.string s) = (pg.instantOf s).map fun us => some (.timestamptz us) := rfl

theorem write_vector (items : List Json) :
    write pg .vector (.array items) = (items.mapM numbers).map fun l => some (.vector (l.map pg.single)) := rfl

theorem confused_text {s : String} {v : Json} (hv : Formed .text v) :
    (same host (.string s) v = true → Kept pg .text (some (.text s)) v) ↔
      ¬Confused host pg .text (some (.text s)) (.string s) v := by
  obtain ⟨t, rfl⟩ := hv
  have hwrite : write pg .text (.string t) = some (some (.text s)) ↔ s = t := by
    simp only [write_text, Option.some.injEq, Stored.text.injEq]
    exact eq_comm
  rw [kept_iff_write (by simp), hwrite, same_iff]
  have halike : Alike host (.string s) (.string t) ↔ _ := alike_string
  constructor
  · rintro h (⟨hne, hs, ht, hx, hy⟩)
    exact hne (h (.instant hs ht hx hy))
  · intro h hsame
    have hsame := halike.1 hsame
    split_ifs at hsame with hform
    · rw [Bool.and_eq_true] at hform
      obtain ⟨ms, hx, hy⟩ := hsame
      by_contra hne
      exact h (.text hne hform.1 hform.2 hx hy)
    · exact hsame

theorem confused_timestamptz {us : ℤ} {row v : Json} (hreads : Wire host pg (some (.timestamptz us)) row)
    (hv : Formed .timestamptz v) :
    (same host row v = true → Kept pg .timestamptz (some (.timestamptz us)) v) ↔
      ¬Confused host pg .timestamptz (some (.timestamptz us)) row v := by
  obtain ⟨s, rfl, hs, -⟩ := hreads
  obtain ⟨t, rfl⟩ := hv
  have hwrite : write pg .timestamptz (.string t) = some (some (.timestamptz us)) ↔ pg.instantOf t = some us := by
    simp only [write_timestamptz, Option.map_eq_some_iff, Option.some.injEq, Stored.timestamptz.injEq, exists_eq_right]
  rw [kept_iff_write (by simp), hwrite, same_iff]
  have halike : Alike host (.string s) (.string t) ↔ _ := alike_string
  constructor
  · rintro h (_ | _ | ⟨ht, hx, hy, hne⟩)
    exact hne (h (.instant hs ht hx hy))
  · intro h hsame
    have hsame := halike.1 hsame
    split_ifs at hsame with hform
    · rw [Bool.and_eq_true] at hform
      obtain ⟨ms, hx, hy⟩ := hsame
      by_contra hne
      exact h (.timestamptz hform.2 hx hy hne)
    · rw [← hsame, hs] at hform
      exact absurd rfl hform

theorem confused_numeric {q : Rat} {s : String} {row v : Json} (hrow : inner row = .string s)
    (hdecimal : isDecimalText s = true) (hq : numericOf s = some q) (hv : Formed .numeric v) :
    (same host row v = true → Kept pg .numeric (some (.numeric q)) v) ↔
      ¬Confused host pg .numeric (some (.numeric q)) row v := by
  have hs := not_looksLikeInstant_of_decimal hdecimal
  rw [kept_iff_write (by simp), same_iff, hrow]
  -- a text is alike only where it is the stored decimal's own
  have htext : ∀ t, Alike host (.string s) (.string t) → numericOf t = some q := by
    intro t h
    have h := alike_string.1 h
    rw [hs, Bool.false_and, if_neg Bool.false_ne_true] at h
    rw [← h, hq]
  cases v with
  | number n =>
    have hwrite : write pg .numeric (.number n) = some (some (.numeric q)) ↔ q = n := by
      simp only [write_numeric, Option.some.injEq, Stored.numeric.injEq]
      exact eq_comm
    rw [hwrite, show inner (.number n) = .number n from rfl, alike_number rfl]
    constructor
    · rintro h (_ | ⟨hrow', hread, hne⟩)
      rw [hrow, Json.string.injEq] at hrow'
      exact hne (h (hrow' ▸ hread))
    · intro h hread
      by_contra hne
      exact h (.numeric hrow hread hne)
  | string t =>
    refine iff_of_true (fun h => ?_) (by rintro ⟨⟩)
    rw [write_numeric_text, htext t h]
    rfl
  | object ms =>
    refine iff_of_true (fun h => ?_) (by rintro ⟨⟩)
    rcases ms with _ | ⟨⟨k, x⟩, _ | ⟨e, ms⟩⟩
    · cases hv
    · have hk : k = "$dec" := by
        by_contra hk
        have hnone : member [(k, x)] "$dec" = none := by
          simp [member, List.lookup_cons, beq_false_of_ne (Ne.symm hk)]
        simp [Formed, decimalValue, hnone] at hv
      subst hk
      have hmember : member [("$dec", x)] "$dec" = some x := by simp [member]
      cases x with
      | string t =>
        rw [inner_dec] at h
        simp [write_numeric_dec, hmember, texts, htext t h]
      | _ => simp [Formed, decimalValue, hmember] at hv
    · rw [inner_of_length (by simp), alike_iff_equal rfl rfl (by simp)] at h
      cases h
  | _ => cases hv

theorem confused_int {n : ℤ} {row v : Json} (hreads : Wire host pg (some (.int n)) row) (hv : Formed .int v) :
    (same host row v = true → Kept pg .int (some (.int n)) v) ↔ ¬Confused host pg .int (some (.int n)) row v := by
  obtain ⟨x, rfl, hexact, hpast⟩ := hreads
  obtain ⟨m, rfl, hm⟩ := hv
  refine iff_of_true (fun h => ?_) (by rintro ⟨⟩)
  have hx : x = m := by
    rw [same_iff] at h
    have h : Alike host (.number x) (.number m) := h
    exact_mod_cast Option.some.inj ((alike_number rfl).1 h)
  subst hx
  have hn : x = n := by
    cases hsafe : isSafeInteger n with
    | true => exact hexact hsafe
    | false =>
      rw [hpast hsafe] at hm
      cases hm
  have hint : (x : Rat).isInt = true := (Bool.and_eq_true_iff.1 hm).1
  rw [kept_iff_write (by simp), write_int, if_pos hint, hn, Rat.num_intCast]

/-- What compares as a whole keeps the column where an equal value writes what is stored. -/
theorem confused_equal {c : Column} {x : Stored} {row v : Json} (hc : c ≠ .jsonb) (hx : x.column = c)
    (hno : ¬Confused host pg c (some x) row v) (halike : Alike host (inner row) (inner v) → row.equal v = true)
    (hwrite : row.equal v = true → write pg c v = some (some x)) :
    (same host row v = true → Kept pg c (some x) v) ↔ ¬Confused host pg c (some x) row v := by
  refine iff_of_true (fun h => ?_) hno
  rw [kept_iff_write]
  · exact hwrite (halike (same_iff.1 h))
  · rintro j hj
    rw [← hx, Option.some.inj hj] at hc
    exact hc rfl

theorem confused_texts {items : List String} {v : Json} (hv : Formed .texts v) :
    (same host (.array (items.map .string)) v = true → Kept pg .texts (some (.texts items)) v) ↔
      ¬Confused host pg .texts (some (.texts items)) (.array (items.map .string)) v := by
  obtain ⟨ys, rfl⟩ := hv
  refine confused_equal (by simp) rfl (by rintro ⟨⟩) (alike_iff_equal rfl rfl (by rintro s t ⟨⟩)).1 fun h => ?_
  rw [Json.equal, equalItems_map fun a y => equal_string_iff] at h
  simp [h, write_texts, mapM_map (f := .string) (g := texts) fun _ => rfl]

theorem confused_vector {items : List Rat} {v : Json} (hsingle : ∀ n ∈ items, pg.single n = n)
    (hv : Formed .vector v) :
    (same host (.array (items.map .number)) v = true → Kept pg .vector (some (.vector items)) v) ↔
      ¬Confused host pg .vector (some (.vector items)) (.array (items.map .number)) v := by
  obtain ⟨ys, rfl⟩ := hv
  refine confused_equal (by simp) rfl (by rintro ⟨⟩) (alike_iff_equal rfl rfl (by rintro s t ⟨⟩)).1 fun h => ?_
  rw [Json.equal, equalItems_map fun a y => equal_number] at h
  simp [h, write_vector, mapM_map (f := .number) (g := numbers) fun _ => rfl, List.map_congr_left hsingle]

theorem confused_boolean {b : Bool} {v : Json} (hv : Formed .boolean v) :
    (same host (.bool b) v = true → Kept pg .boolean (some (.boolean b)) v) ↔
      ¬Confused host pg .boolean (some (.boolean b)) (.bool b) v := by
  obtain ⟨a, rfl⟩ := hv
  refine confused_equal (by simp) rfl (by rintro ⟨⟩) (alike_iff_equal rfl rfl (by rintro s t ⟨⟩)).1 fun h => ?_
  rw [Json.equal, beq_iff_eq] at h
  rw [h, write_boolean]

theorem confused_date {s : String} {v : Json} (hv : Formed .date v) :
    (same host (.string s) v = true → Kept pg .date (some (.date s)) v) ↔
      ¬Confused host pg .date (some (.date s)) (.string s) v := by
  obtain ⟨t, rfl, ht⟩ := hv
  refine confused_equal (by simp) rfl (by rintro ⟨⟩) (fun h => ?_) fun h => ?_
  · have h := alike_string.1 h
    rw [ht, Bool.and_false, if_neg Bool.false_ne_true] at h
    rw [equal_string_iff, h]
  · rw [Json.string.inj (equal_string_iff.1 h), write_date]

/-- A member of an object that is equal to another. -/
theorem member_of_equal {kx ms : List (String × Json)} (h : Json.equal (.object kx) (.object ms) = true)
    {k : String} {x : Json} (hx : (k, x) ∈ kx) : ∃ y, member ms k = some y ∧ x.equal y = true := by
  rw [Json.equal, Bool.and_eq_true] at h
  exact member_of_equalMembers h.2 hx

theorem member_string_of_equal {kx ms : List (String × Json)} (h : Json.equal (.object kx) (.object ms) = true)
    {k s : String} (hx : (k, .string s) ∈ kx) : member ms k = some (.string s) := by
  obtain ⟨y, hy, hequal⟩ := member_of_equal h hx
  rw [hy, equal_string_iff.1 hequal]

theorem member_null_of_equal {kx ms : List (String × Json)} (h : Json.equal (.object kx) (.object ms) = true)
    {k : String} (hx : (k, .null) ∈ kx) : member ms k = some .null := by
  obtain ⟨y, hy, hequal⟩ := member_of_equal h hx
  rw [hy, null_equal.1 hequal]

theorem confused_refs {model id : String} {v : Json} (hv : Formed .refs v) :
    (same host (.object [("model", .string model), ("id", .string id)]) v = true →
        Kept pg .refs (some (.refs model id)) v) ↔
      ¬Confused host pg .refs (some (.refs model id)) (.object [("model", .string model), ("id", .string id)]) v := by
  obtain ⟨ms, rfl, hlength⟩ := hv
  refine confused_equal (by simp) rfl (by rintro ⟨⟩) (fun h => ?_) fun h => ?_
  · rw [inner_of_length (by simp), inner_of_length (by omega)] at h
    exact (alike_iff_equal rfl rfl (by simp)).1 h
  · rw [write, member_string_of_equal h (k := "model") (s := model) (by simp),
      member_string_of_equal h (k := "id") (s := id) (by simp)]
    rfl

theorem confused_daterange {first : String} {last : Option String} {v : Json} (hv : Formed .daterange v) :
    (same host (.object [("from", .string first), ("to", last.elim .null .string)]) v = true →
        Kept pg .daterange (some (.daterange first last)) v) ↔
      ¬Confused host pg .daterange (some (.daterange first last))
        (.object [("from", .string first), ("to", last.elim .null .string)]) v := by
  obtain ⟨ms, rfl, hkeys⟩ := hv
  refine confused_equal (by simp) rfl (by rintro ⟨⟩) (fun h => ?_) fun h => ?_
  · rw [inner_of_length (by simp), inner_of_keys] at h
    · exact (alike_iff_equal rfl rfl (by simp)).1 h
    · intro e he
      obtain hk | hk := hkeys e he <;> rw [hk] <;> decide
  · have hto : member ms "to" = some (last.elim .null .string) := by
      cases last with
      | none => exact member_null_of_equal h (by simp)
      | some l => exact member_string_of_equal h (by simp)
    rw [write, member_string_of_equal h (k := "from") (s := first) (by simp), hto]
    cases last <;> rfl

theorem confused_tstzrange {first : ℤ} {last : Option ℤ} {row v : Json}
    (hreads : Wire host pg (some (.tstzrange first last)) row) (hv : Formed .tstzrange v) :
    (same host row v = true → Kept pg .tstzrange (some (.tstzrange first last)) v) ↔
      ¬Confused host pg .tstzrange (some (.tstzrange first last)) row v := by
  obtain ⟨s, t, rfl, -, ht⟩ := hreads
  obtain ⟨ms, rfl, hkeys⟩ := hv
  have halike : Alike host (inner (.object [("start", .string s), ("end", t)])) (inner (.object ms)) ↔
      Json.equal (.object [("start", .string s), ("end", t)]) (.object ms) = true := by
    rw [inner_of_length (by simp), inner_of_keys]
    · exact alike_iff_equal rfl rfl (by simp)
    · intro e he
      obtain hk | hk := hkeys e he <;> rw [hk] <;> decide
  have hwrite (h : Json.equal (.object [("start", .string s), ("end", t)]) (.object ms) = true) :
      write pg .tstzrange (.object ms) = write pg .tstzrange (.object [("start", .string s), ("end", t)]) := by
    have hend : member ms "end" = some t := by
      cases t with
      | null => exact member_null_of_equal h (by simp)
      | string t => exact member_string_of_equal h (by simp)
      | _ => cases ht rfl
    rw [write, member_string_of_equal h (k := "start") (s := s) (by simp), hend]
    rfl
  rw [kept_iff_write (by simp), same_iff, halike]
  constructor
  · rintro h (_ | _ | _ | _ | ⟨hequal, hne⟩)
    exact hne ((hwrite hequal).symm.trans (h hequal))
  · intro h hequal
    rw [hwrite hequal]
    by_contra hne
    exact h (.tstzrange hequal hne)

theorem confused_jsonb {stored : Option Stored} {row v : Json} (hreads : Wire host pg stored row)
    (hcolumn : ∀ x ∈ stored, x.column = .jsonb) :
    (same host row v = true → Kept pg .jsonb stored v) ↔ ¬Confused host pg .jsonb stored row v := by
  rw [kept_jsonb hreads hcolumn, same_iff]
  constructor
  · rintro h (_ | _ | _ | _ | _ | ⟨halike, hne⟩)
    rw [h halike] at hne
    cases hne
  · intro h halike
    by_contra hne
    exact h (.jsonb halike (Bool.eq_false_iff.2 hne))

/-- Only in a JSON column does a value that is no null hold a null alone. -/
theorem inner_formed {c : Column} {v : Json} (hc : c ≠ .jsonb) (hv : Formed c v) (hnull : v.isNull = false) :
    inner v ≠ .null := by
  cases v with
  | object ms =>
    rcases ms with _ | ⟨⟨k, x⟩, _ | ⟨e, ms⟩⟩
    · simp [inner]
    · have hx : x = .null → k.toList.head? ≠ some '$' := by
        rintro rfl hk
        cases c with
        | jsonb => exact hc rfl
        | numeric =>
          have hdecimal : decimalValue (.object [(k, .null)]) = true := hv
          by_cases hdec : "$dec" = k
          · simp [decimalValue, member, hdec] at hdecimal
          · simp [decimalValue, member, List.lookup_cons, beq_false_of_ne hdec] at hdecimal
        | refs =>
          obtain ⟨ms, hms, hlength⟩ := hv
          cases hms
          cases hlength
        | daterange =>
          obtain ⟨ms, hms, hkeys⟩ := hv
          cases hms
          obtain rfl | rfl := hkeys _ List.mem_cons_self <;> revert hk <;> decide
        | tstzrange =>
          obtain ⟨ms, hms, hkeys⟩ := hv
          cases hms
          obtain rfl | rfl := hkeys _ List.mem_cons_self <;> revert hk <;> decide
        | _ => obtain ⟨_, h⟩ := hv; simp at h
      rw [inner]
      split_ifs with hk
      · exact fun h => hx h hk
      · simp
    · simp [inner]
  | null => cases hnull
  | _ => simp [inner]

theorem inner_row {x : Stored} {row : Json} (hx : x.column ≠ .jsonb) (hreads : Wire host pg (some x) row) :
    inner row ≠ .null := by
  cases x with
  | text s => cases hreads; rintro ⟨⟩
  | texts items => cases hreads; rintro ⟨⟩
  | int n => obtain ⟨y, rfl, -⟩ := hreads; rintro ⟨⟩
  | numeric q =>
    obtain ⟨s, rfl, -⟩ := hreads
    rw [inner_dec]
    rintro ⟨⟩
  | boolean b => cases hreads; rintro ⟨⟩
  | date s => cases hreads; rintro ⟨⟩
  | timestamptz us => obtain ⟨s, rfl, -⟩ := hreads; rintro ⟨⟩
  | refs model id => cases hreads; rintro ⟨⟩
  | daterange first last => cases hreads; rintro ⟨⟩
  | tstzrange first last => obtain ⟨s, t, rfl, -⟩ := hreads; rintro ⟨⟩
  | vector items => obtain ⟨rfl, -⟩ := hreads; rintro ⟨⟩
  | jsonb j => exact absurd rfl hx

theorem not_confused_null {c : Column} {stored : Option Stored} {row : Json} (hc : c ≠ .jsonb) (hrow : row ≠ .null) :
    ¬Confused host pg c stored row .null := by
  rintro (_ | _ | _ | _ | ⟨hequal, -⟩ | _)
  · exact hrow rfl
  · exact hrow (equal_null.1 hequal)
  · exact hc rfl

/-- A null for a value that does not read back as a null is no restatement of it. -/
theorem kept_null {c : Column} {stored : Option Stored} {row : Json} (hc : c ≠ .jsonb) (hrow : inner row ≠ .null) :
    (same host row .null = true → Kept pg c stored .null) ↔ ¬Confused host pg c stored row .null := by
  refine iff_of_true (fun h => absurd (alike_null_right.1 (same_iff.1 h)) hrow) (not_confused_null hc ?_)
  rintro rfl
  exact hrow rfl

theorem kept_wire {c : Column} {stored : Option Stored} {row v : Json} (hreads : Wire host pg stored row)
    (hcolumn : ∀ x ∈ stored, x.column = c) (hv : v.isNull = false → Formed c v) :
    (same host row v = true → Kept pg c stored v) ↔ ¬Confused host pg c stored row v := by
  by_cases hc : c = .jsonb
  · subst hc
    exact confused_jsonb hreads hcolumn
  · cases stored with
    | none =>
      obtain rfl : row = .null := hreads
      refine iff_of_true (fun h => ?_) (by rintro (_ | _ | _ | _ | _ | _); exact hc rfl)
      have hinner : inner v = .null := alike_null_left.1 (same_iff.1 h)
      have hnull : v = .null := by
        by_contra hne
        have hnull : v.isNull = false := Bool.eq_false_iff.2 fun h => hne (isNull_iff.1 h)
        exact inner_formed hc (hv hnull) hnull hinner
      subst hnull
      exact ⟨none, by cases c <;> rfl, rfl⟩
    | some x =>
      obtain rfl : x.column = c := hcolumn x rfl
      by_cases hnull : v = .null
      · subst hnull
        exact kept_null hc (inner_row hc hreads)
      · have hv := hv (Bool.eq_false_iff.2 fun h => hnull (isNull_iff.1 h))
        cases x with
        | text s => cases hreads; exact confused_text hv
        | texts items => cases hreads; exact confused_texts hv
        | int n => exact confused_int hreads hv
        | numeric q =>
          obtain ⟨s, rfl, hdecimal, hq⟩ := hreads
          exact confused_numeric (inner_dec s) hdecimal hq hv
        | boolean b => cases hreads; exact confused_boolean hv
        | date s => cases hreads; exact confused_date hv
        | timestamptz us => exact confused_timestamptz hreads hv
        | refs model id => cases hreads; exact confused_refs hv
        | daterange first last => cases hreads; exact confused_daterange hv
        | tstzrange first last => exact confused_tstzrange hreads hv
        | vector items => obtain ⟨rfl, hsingle⟩ := hreads; exact confused_vector hsingle hv
        | jsonb j => exact absurd rfl hc

/-- A text never restates a value that is neither a text nor a number. -/
theorem kept_text {c : Column} {x : Stored} {s : String} {v : Json} (hc : x.column = c)
    (hcolumn : c = .daterange ∨ c = .tstzrange ∨ c = .texts ∨ c = .vector) (hv : v.isNull = false → Formed c v) :
    (same host (.string s) v = true → Kept pg c (some x) v) ↔ ¬Confused host pg c (some x) (.string s) v := by
  have hjsonb : c ≠ .jsonb := by
    rintro rfl
    simp at hcolumn
  by_cases hnull : v = .null
  · subst hnull
    exact kept_null hjsonb (by rintro ⟨⟩)
  · have hv := hv (Bool.eq_false_iff.2 fun h => hnull (isNull_iff.1 h))
    have hobject : ∀ ms : List (String × Json), (∀ e ∈ ms, e.1.toList.head? ≠ some '$') →
        ¬Alike host (.string s) (inner (.object ms)) := by
      intro ms hkeys h
      rw [inner_of_keys hkeys, alike_iff_equal rfl rfl (by simp)] at h
      cases h
    have hdiffers : ¬Alike host (.string s) (inner v) := by
      have hlist : ∀ items, ¬Alike host (.string s) (inner (.array items)) := by
        intro items h
        rw [show inner (.array items) = .array items from rfl, alike_iff_equal rfl rfl (by simp)] at h
        cases h
      obtain rfl | rfl | rfl | rfl := hcolumn
      · obtain ⟨ms, rfl, hkeys⟩ := hv
        refine hobject ms fun e he => ?_
        obtain hk | hk := hkeys e he <;> rw [hk] <;> decide
      · obtain ⟨ms, rfl, hkeys⟩ := hv
        refine hobject ms fun e he => ?_
        obtain hk | hk := hkeys e he <;> rw [hk] <;> decide
      · obtain ⟨items, rfl⟩ := hv
        exact hlist items
      · obtain ⟨items, rfl⟩ := hv
        exact hlist items
    have hno : ¬Confused host pg c (some x) (.string s) v := by
      rintro (_ | _ | _ | _ | ⟨hequal, -⟩ | _)
      · simp at hcolumn
      · simp at hcolumn
      · simp at hcolumn
      · obtain ⟨ms, rfl, -⟩ := hv
        cases hequal
      · exact hjsonb rfl
    exact iff_of_true (fun h => absurd (same_iff.1 h) hdiffers) hno

/-- A value judged unchanged keeps what is stored just where it is not confused with it. -/
theorem kept_iff {c : Column} {stored : Option Stored} {row v : Json} (hreads : Reads host pg stored row)
    (hcolumn : ∀ x ∈ stored, x.column = c) (hv : v.isNull = false → Formed c v) :
    (same host row v = true → Kept pg c stored v) ↔ ¬Confused host pg c stored row v := by
  obtain hwire | hraw := hreads
  · exact kept_wire hwire hcolumn hv
  · cases stored with
    | none => cases hraw
    | some x =>
      obtain rfl : x.column = c := hcolumn x rfl
      cases x with
      | numeric q =>
        obtain ⟨s, rfl, hdecimal, hq⟩ := hraw
        by_cases hnull : v = .null
        · subst hnull
          exact kept_null (by simp [Stored.column]) (by rintro ⟨⟩)
        · exact confused_numeric rfl hdecimal hq (hv (Bool.eq_false_iff.2 fun h => hnull (isNull_iff.1 h)))
      | refs model id =>
        obtain rfl : row = .null := hraw
        by_cases hnull : v = .null
        · subst hnull
          refine iff_of_false (fun h => ?_) (not_not_intro .refs)
          obtain ⟨w, hw, he⟩ := h (same_iff.2 (alike_null_left.2 rfl))
          cases hw
          cases he
        · have hform := hv (Bool.eq_false_iff.2 fun h => hnull (isNull_iff.1 h))
          refine iff_of_true (fun h => ?_) (by rintro (_ | _ | _ | _ | _ | _); exact hnull rfl)
          exact absurd (alike_null_left.1 (same_iff.1 h))
            (inner_formed (by simp [Stored.column]) hform (Bool.eq_false_iff.2 fun h => hnull (isNull_iff.1 h)))
      | daterange first last => obtain ⟨s, rfl⟩ := hraw; exact kept_text rfl (.inl rfl) hv
      | tstzrange first last => obtain ⟨s, rfl⟩ := hraw; exact kept_text rfl (.inr (.inl rfl)) hv
      | texts items => obtain ⟨s, rfl⟩ := hraw; exact kept_text rfl (.inr (.inr (.inl rfl))) hv
      | vector items => obtain ⟨s, rfl⟩ := hraw; exact kept_text rfl (.inr (.inr (.inr rfl))) hv
      | _ => cases hraw

end

/-- New year's texts, with and without milliseconds. -/
def newYear : Host where
  js := ⟨fun s =>
    if s = "2024-01-01T00:00:00Z" ∨ s = "2024-01-01T00:00:00.000Z" then some "2024-01-01T00:00:00.000Z" else none⟩
  number _ := none
  dateParse s := if s = "2024-01-01T00:00:00Z" ∨ s = "2024-01-01T00:00:00.000Z" then some 1704067200000 else none
  string _ := ""

def newYearPg : Pg where
  instantOf s := (newYear.dateParse s).map (· * 1000)
  single := id

end Norbital.Bolt.Unchanged

import Mathlib.Data.List.DropRight
import Norbital.Lib.Doubles
import Norbital.Lib.Entries
import Norbital.Lib.JsNumber
import Norbital.Std.Decimal
import Norbital.Std.Periods

/-!
# Sheets

The codec of `std/src/sheet.ts` between a table of cells and typed rows.  A finite number
is its shortest decimal, with one zero, and stands for the double nearest to it; an int is
a whole number.  A row is its values under the names of its columns.
-/

namespace Norbital.Std.Sheet

open Lib

/-- A JavaScript number. -/
inductive Num where
  | nan
  | infinity (negative : Bool)
  | finite (x : JsNumber)
  deriving DecidableEq

/-- One spreadsheet cell's value. -/
inductive Cell where
  | null
  | text (s : String)
  | number (v : Num)
  | bool (b : Bool)
  deriving DecidableEq

def chars (t : JsString) : List Char := t.map fun c => Char.ofNat c.toNat

/-- `String(v)` of a number. -/
def Num.text : Num → List Char
  | .nan => ['N', 'a', 'N']
  | .infinity negative => (if negative then ['-'] else []) ++ ['I', 'n', 'f', 'i', 'n', 'i', 't', 'y']
  | .finite x => chars x.text

def rational (x : JsNumber) : ℚ := (if x.negative then -1 else 1) * x.digits * 10 ^ x.exponent

/-- The double of a number cell. -/
def doubleOf (x : JsNumber) : ℚ := Doubles.double (rational x)

/-- `String(v)`. -/
def textOf : Cell → List Char
  | .null => ['n', 'u', 'l', 'l']
  | .text s => s.toList
  | .number v => v.text
  | .bool b => if b then ['t', 'r', 'u', 'e'] else ['f', 'a', 'l', 's', 'e']

def blank : Option Cell → Bool
  | none | some .null => true
  | some (.text s) => (trim s.toList).isEmpty
  | some _ => false

/-- How a sheet column decodes to a typed value. -/
inductive ColumnSpec where
  | text
  | int
  | decimal
  | date
  | time
  | bool
  | enum (values : List String)
  | period
  | optional (spec : ColumnSpec)

/-- The kinds of one cell. -/
inductive Scalar where
  | text
  | int
  | decimal
  | date
  | time
  | bool
  | enum (values : List String)

/-- A column's kind; `none` is a date period over two columns. -/
structure Column where
  name : String
  kind : Option Scalar
  optional : Bool

def normalise (name : String) (optional : Bool) : ColumnSpec → Column
  | .text => ⟨name, some .text, optional⟩
  | .int => ⟨name, some .int, optional⟩
  | .decimal => ⟨name, some .decimal, optional⟩
  | .date => ⟨name, some .date, optional⟩
  | .time => ⟨name, some .time, optional⟩
  | .bool => ⟨name, some .bool, optional⟩
  | .enum values => ⟨name, some (.enum values), optional⟩
  | .period => ⟨name, none, optional⟩
  | .optional spec => normalise name true spec

def columnsOf (cols : List (String × ColumnSpec)) : List Column := cols.map fun c => normalise c.1 false c.2

def headersOf (c : Column) : List String :=
  match c.kind with
  | none => [c.name ++ ".from", c.name ++ ".to"]
  | some _ => [c.name]

def digitsOf (ds : List Char) : ℕ := Nat.ofDigitChars 10 ds 0

/-- The exponent of a literal: `[eE][+-]?\d+` or nothing. -/
def exponentValue : List Char → Option ℤ
  | [] => some 0
  | c :: rest =>
    if c = 'e' ∨ c = 'E' then
      let (minus, ds) := match rest with
        | '+' :: ds => (false, ds)
        | '-' :: ds => (true, ds)
        | ds => (false, ds)
      if ds.isEmpty || !ds.all Char.isDigit then none else some (if minus then -digitsOf ds else digitsOf ds)
    else none

/-- Digits with a point before, between or after them, and an exponent. -/
def decimalValue (t : List Char) : Option ℚ :=
  let whole := t.takeWhile Char.isDigit
  let rest := t.dropWhile Char.isDigit
  let (frac, rest) := match rest with
    | '.' :: rest => (rest.takeWhile Char.isDigit, rest.dropWhile Char.isDigit)
    | _ => ([], rest)
  if whole.isEmpty && frac.isEmpty then none
  else (exponentValue rest).map fun e => (digitsOf (whole ++ frac) : ℚ) * 10 ^ (e - (frac.length : ℤ))

/-- The digit of a radix up to 16. -/
def radixDigit (radix : ℕ) (c : Char) : Option ℕ :=
  let n := c.toNat
  let d := if c.isDigit then n - 48 else if 97 ≤ n ∧ n ≤ 102 then n - 87 else if 65 ≤ n ∧ n ≤ 70 then n - 55 else 16
  if d < radix then some d else none

def radixValue (radix : ℕ) (t : List Char) : Option ℚ :=
  if t.isEmpty then none
  else (t.mapM (radixDigit radix)).map fun ds => (ds.foldl (fun n d => n * radix + d) 0 : ℕ)

/-- `Number(text)` of a trimmed text as the rational it spells, none for `NaN` and the infinities. -/
def literalValue : List Char → Option ℚ
  | [] => some 0
  | '0' :: 'x' :: t | '0' :: 'X' :: t => radixValue 16 t
  | '0' :: 'o' :: t | '0' :: 'O' :: t => radixValue 8 t
  | '0' :: 'b' :: t | '0' :: 'B' :: t => radixValue 2 t
  | '+' :: t => decimalValue t
  | '-' :: t => (decimalValue t).map (-·)
  | t => decimalValue t

/-- `Number(text)`, but for the sign of a zero. -/
def numberOf (t : List Char) : Option ℚ := (literalValue t).map Doubles.double

/-- `Number(text)` is `-0`. -/
def readsMinusZero (t : List Char) : Bool := t.head? == some '-' && numberOf t == some 0

/-- A typed value. -/
inductive Value where
  | text (s : String)
  | int (n : ℤ)
  /-- The int `-0`. -/
  | minusZero
  | decimal (d : Decimal)
  | bool (b : Bool)
  deriving DecidableEq

def excelEpoch : String := "1899-12-30"

/-- `Decimal.fromNumber(v, 10)`, by the digits of its text. -/
def fromNumber (x : JsNumber) : Except RangeError Decimal :=
  let t := x.magnitude
  let c : ℤ := (if x.negative then -1 else 1) * JsNumber.value (JsNumber.mantissaDigits t)
  let exp := JsNumber.exponentOf t - JsNumber.fraction t
  (if 0 ≤ exp then Decimal.mk (c * pow10 exp) 0 else ⟨c, -exp⟩).round 10 .halfUp

/-- A number under its sign, with a zero before a lone digit. -/
def pad (n : ℤ) : List Char :=
  let t := (if n < 0 then ['-'] else []) ++ Nat.toDigits 10 n.natAbs
  List.replicate (2 - t.length) '0' ++ t

/-- The minutes a day fraction is rounded to. -/
def minutesOf (x : JsNumber) : ℤ := Doubles.roundUp (Doubles.double (Doubles.fraction (doubleOf x) * 1440))

def clock (m : ℤ) : String := .ofList (pad ((m / 60).tmod 24) ++ ':' :: pad (m.tmod 60))

/-- `[0-5]\d`. -/
def isSixtieth (a b : Char) : Bool := a.isDigit && a.toNat < 54 && b.isDigit

/-- `([0-5]\d)(?::[0-5]\d)?$`. -/
def matchMinutes : List Char → Option (List Char)
  | [a, b] => if isSixtieth a b then some [a, b] else none
  | [a, b, ':', c, d] => if isSixtieth a b && isSixtieth c d then some [a, b] else none
  | _ => none

/-- `^(\d{1,2}):([0-5]\d)(?::[0-5]\d)?$`. -/
def matchTime : List Char → Option (List Char × List Char)
  | a :: ':' :: rest => if a.isDigit then (matchMinutes rest).map ([a], ·) else none
  | a :: b :: ':' :: rest => if a.isDigit && b.isDigit then (matchMinutes rest).map ([a, b], ·) else none
  | _ => none

def timeText (t : List Char) : Except String String :=
  match matchTime t with
  | some (hours, minutes) =>
    if 23 < digitsOf hours then .error "expected a time HH:MM"
    else .ok (.ofList (List.replicate (2 - hours.length) '0' ++ hours ++ ':' :: minutes))
  | none => .error "expected a time HH:MM"

def boolText (t : List Char) : Except String Bool :=
  let t := String.ofList (t.map Char.toLower)
  if t ∈ ["true", "yes", "y", "1"] then .ok true
  else if t ∈ ["false", "no", "n", "0"] then .ok false
  else .error "expected yes or no"

/-- `t.slice(0, n)`; half of a pair of units is shown as the replacement character. -/
def firstUnits : ℕ → List Char → List Char
  | 0, _ => []
  | _, [] => []
  | 1, c :: _ => if c.toNat < 65536 then [c] else [Char.ofNat 65533]
  | n + 2, c :: t => if c.toNat < 65536 then c :: firstUnits (n + 1) t else c :: firstUnits n t

/-- A date cell: a number is a day of Excel's calendar, which a `Date` may not hold. -/
def dateOf (v : Cell) (t : List Char) : Except String String :=
  match v with
  | .number (.finite x) => addDays excelEpoch ⌊doubleOf x⌋
  | .number _ => .error "Invalid time value"
  | _ => plainDate (.ofList (firstUnits 10 t))

def intOf (t : List Char) : Except String Value :=
  match numberOf t with
  | some n =>
    if Doubles.IsSafe n then .ok (if readsMinusZero t then .minusZero else .int n.num)
    else .error "expected a whole number"
  | none => .error "expected a whole number"

/-- The text a cell is read by. -/
def cellText : Cell → List Char
  | .text s => trim s.toList
  | v => textOf v

/-- A decimal cell: the exponent form of a number is rounded to ten places. -/
def decimalOf (v : Cell) (t : List Char) : Except String Decimal :=
  match v with
  | .number (.finite x) =>
    if x.text.any (· == 101) then (fromNumber x).mapError RangeError.message
    else (Decimal.of (.ofList t)).mapError RangeError.message
  | _ => (Decimal.of (.ofList t)).mapError RangeError.message

/-- A time cell: a number is a fraction of a day. -/
def timeOf (v : Cell) (t : List Char) : Except String String :=
  match v with
  | .number (.finite x) => .ok (clock (minutesOf x))
  | .number _ => .ok "NaN:NaN"
  | _ => timeText t

def boolOf (v : Cell) (t : List Char) : Except String Bool :=
  match v with
  | .bool b => .ok b
  | _ => boolText t

def cell (k : Scalar) (v : Cell) : Except String Value :=
  let t := cellText v
  match k with
  | .text => .ok (.text (.ofList t))
  | .int => intOf t
  | .decimal => .decimal <$> decimalOf v t
  | .date => .text <$> dateOf v t
  | .time => .text <$> timeOf v t
  | .bool => .bool <$> boolOf v t
  | .enum values =>
    if .ofList t ∈ values then .ok (.text (.ofList t)) else .error ("expected one of " ++ ", ".intercalate values)

/-- A value of a row: of one cell, or a period. -/
inductive Entry where
  | one (v : Value)
  | period (p : DatePeriod)
  deriving DecidableEq

abbrev Row := List (String × Option Entry)

structure SheetError where
  row : ℕ
  column : String
  message : String
  deriving DecidableEq

/-- The column of each header, the last of those that share it. -/
def places (header : List String) : List (String × ℕ) :=
  header.zipIdx.foldl (fun «at» h => if h.1 = "" then «at» else put h.1 h.2 «at») []

def headerOf (line : List Cell) : List String :=
  line.map fun h => if blank (some h) then "" else .ofList (trim (textOf h))

/-- `line[at.get(column) ?? -1]`. -/
def cellAt («at» : List (String × ℕ)) (cells : List Cell) (column : String) : Option Cell :=
  («at».lookup column).bind (cells[·]?)

def headerErrors (columns : List Column) («at» : List (String × ℕ)) : List SheetError :=
  (columns.flatMap fun c => (headersOf c).filterMap fun k =>
    if («at».lookup k).isNone && !c.optional && !".to".toList.isSuffixOf k.toList then
      some ⟨1, k, "missing column"⟩
    else none) ++
  («at».map Prod.fst).filterMap fun h =>
    if h ∈ columns.flatMap headersOf then none else some ⟨1, h, "unknown column"⟩

/-- `read`: the value of a column's cell, and the error in it. -/
def read («at» : List (String × ℕ)) (i : ℕ) (line : List Cell) (column : String) (k : Scalar) (optional : Bool) :
    Option Value × List SheetError :=
  match cellAt «at» line column with
  | none => (none, if optional then [] else [⟨i, column, "required"⟩])
  | some v =>
    if blank (some v) then (none, if optional then [] else [⟨i, column, "required"⟩])
    else match cell k v with
      | .ok decoded => (some decoded, [])
      | .error message => (none, [⟨i, column, message⟩])

/-- The text of a decoded date. -/
def Value.day : Value → String
  | .text s => s
  | _ => ""

def readColumn («at» : List (String × ℕ)) (i : ℕ) (line : List Cell) (c : Column) : Option Entry × List SheetError :=
  match c.kind with
  | none =>
    let first := read «at» i line (c.name ++ ".from") .date c.optional
    let last := read «at» i line (c.name ++ ".to") .date true
    let ends := match first.1, last.1 with
      | some first, some last => if last.day < first.day then [⟨i, c.name ++ ".to", "ends before it starts"⟩] else []
      | _, _ => []
    (first.1.map fun first => .period ⟨first.day, last.1.map Value.day⟩, first.2 ++ last.2 ++ ends)
  | some k =>
    let v := read «at» i line c.name k c.optional
    (v.1.map .one, v.2)

def readLine («at» : List (String × ℕ)) (columns : List Column) (i : ℕ) (line : List Cell) : Row × List SheetError :=
  (columns.map fun c => (c.name, (readColumn «at» i line c).1), columns.flatMap fun c => (readColumn «at» i line c).2)

/-- `line.every(blank)`. -/
def blankLine (line : List Cell) : Bool := line.all fun c => blank (some c)

def readLines («at» : List (String × ℕ)) (columns : List Column) : ℕ → List (List Cell) → List Row × List SheetError
  | _, [] => ([], [])
  | i, line :: rest =>
    let (rows, errors) := readLines «at» columns (i + 1) rest
    if blankLine line then (rows, errors)
    else
      let (row, found) := readLine «at» columns i line
      (if found.isEmpty then row :: rows else rows, found ++ errors)

def decode (cells : List (List Cell)) (cols : List (String × ColumnSpec)) : List Row × List SheetError :=
  let columns := columnsOf cols
  let «at» := places (headerOf (cells.head?.getD []))
  let errors := headerErrors columns «at»
  if errors.isEmpty then readLines «at» columns 2 cells.tail else ([], errors)

/-- The cell of a value; a number cell reads as the same whether its zero is `0` or `-0`. -/
def out : Value → Cell
  | .text s => .text s
  | .int n => .number (.finite (.ofInt n))
  | .minusZero => .number (.finite (.ofInt 0))
  | .decimal d => .text d.toString
  | .bool b => .bool b

/-- The cells of a column; a row's value is of its column's kind. -/
def outColumn (r : Row) (c : Column) : List Cell :=
  let v := (r.lookup c.name).join
  match c.kind with
  | none =>
    match v with
    | some (.period p) => [.text p.first, (p.last.map Cell.text).getD .null]
    | _ => [.null, .null]
  | some _ =>
    match v with
    | some (.one v) => [out v]
    | _ => [.null]

def encode (rows : List Row) (cols : List (String × ColumnSpec)) : List (List Cell) :=
  let columns := columnsOf cols
  (columns.flatMap headersOf).map Cell.text :: rows.map fun r => columns.flatMap (outColumn r)

/-- The cells whose value is read again: a day of the calendar, a time of the day, no `-0`. -/
def Kept : Scalar → Cell → Prop
  | .int, v => readsMinusZero (cellText v) = false
  | .date, .number (.finite x) =>
    0 ≤ dayNumber excelEpoch + ⌊doubleOf x⌋ ∧ dayNumber excelEpoch + ⌊doubleOf x⌋ < dayCount
  | .time, .number (.finite x) => 0 ≤ minutesOf x ∨ 1440 ∣ minutesOf x
  | .time, .number _ => False
  | _, _ => True

/-- The cell of a value holds a value, and gives it. -/
def Settled (k : Scalar) (x : Value) : Prop := blank (some (out x)) = false ∧ cell k (out x) = .ok x

theorem mapError_eq_ok {ε ε' α : Type} {x : Except ε α} {f : ε → ε'} {a : α} : x.mapError f = .ok a ↔ x = .ok a := by
  cases x with
  | error e => exact iff_of_false nofun nofun
  | ok b => exact ⟨fun h => congrArg _ (Except.ok.inj h), fun h => congrArg _ (Except.ok.inj h)⟩

theorem isSpace_chars {t : JsString} (h : ∀ c ∈ t, JsNumber.isUnit c) : ∀ c ∈ chars t, isSpace c = false := by
  intro c hc
  obtain ⟨u, hu, rfl⟩ := List.mem_map.mp hc
  have hunit := h u hu
  simp only [JsNumber.isUnit, Bool.or_eq_true, Bool.and_eq_true, decide_eq_true_eq, beq_iff_eq, UInt16.le_iff_toNat_le] at hunit
  obtain (((⟨hlow, hhigh⟩ | rfl) | rfl) | rfl) | rfl := hunit
  · have hdigit : (Char.ofNat u.toNat).isDigit := by
      have hlow' : 48 ≤ u.toNat := hlow
      have hhigh' : u.toNat ≤ 57 := hhigh
      generalize u.toNat = n at hlow' hhigh' ⊢
      interval_cases n <;> decide
    exact isSpace_of_isDigit hdigit
  all_goals decide

/-- What a cell is read by has no blanks around it. -/
theorem cellText_spec {v : Cell} (h : blank (some v) = false) : trim (cellText v) = cellText v ∧ cellText v ≠ [] := by
  cases v with
  | null => cases h
  | text s =>
    refine ⟨trim_trim _, fun hnil => ?_⟩
    rw [blank, List.isEmpty_eq_false_iff] at h
    exact h hnil
  | number v =>
    cases v with
    | nan => exact ⟨by decide, by decide⟩
    | infinity negative => cases negative <;> exact ⟨by decide, by decide⟩
    | finite x =>
      obtain ⟨c, rest, hhead, -⟩ := x.text_head
      refine ⟨trim_of_all (isSpace_chars x.text_isUnit), ?_⟩
      show chars x.text ≠ []
      rw [hhead]
      exact List.cons_ne_nil _ _
  | bool b => cases b <;> exact ⟨by decide, by decide⟩

/-- A text with no blanks around it is read as it is. -/
theorem out_text {s : String} (htrim : trim s.toList = s.toList) (hne : s.toList ≠ []) :
    blank (some (out (.text s))) = false ∧ cellText (out (.text s)) = s.toList := by
  refine ⟨?_, htrim⟩
  rw [out, blank, htrim, List.isEmpty_eq_false_iff]
  exact hne

theorem isDigit_toChar {c : CodeUnit} (h : JsNumber.IsDigit c) :
    (Char.ofNat c.toNat).isDigit ∧ (Char.ofNat c.toNat).toNat - '0'.toNat = c.toNat - 48 := by
  have hlow : 48 ≤ c.toNat := UInt16.le_iff_toNat_le.mp h.1
  have hhigh : c.toNat ≤ 57 := UInt16.le_iff_toNat_le.mp h.2
  generalize c.toNat = n at hlow hhigh
  interval_cases n <;> decide

theorem digitsOf_chars {ds : JsString} (h : ∀ c ∈ ds, JsNumber.IsDigit c) : digitsOf (chars ds) = JsNumber.value ds := by
  induction ds using List.reverseRecOn with
  | nil => rfl
  | append_singleton ds c ih =>
    have hc := (isDigit_toChar (h c (by simp))).2
    have hsplit : chars (ds ++ [c]) = chars ds ++ [Char.ofNat c.toNat] := List.map_append
    rw [hsplit, digitsOf, Nat.ofDigitChars_append, JsNumber.value_append]
    have hds : Nat.ofDigitChars 10 (chars ds) 0 = JsNumber.value ds := ih fun c hc => h c (List.mem_append_left _ hc)
    rw [hds, Nat.ofDigitChars_cons, Nat.ofDigitChars_nil, hc]
    have hone : JsNumber.value [c] = c.toNat - 48 := by simp [JsNumber.value]
    rw [hone, List.length_singleton]
    omega

theorem chars_isDigit {ds : JsString} (h : ∀ c ∈ ds, JsNumber.IsDigit c) : ∀ c ∈ chars ds, c.isDigit := by
  intro c hc
  obtain ⟨u, hu, rfl⟩ := List.mem_map.mp hc
  exact (isDigit_toChar (h u hu)).1

theorem decimalValue_digits {t : List Char} (h : ∀ c ∈ t, c.isDigit) (hne : t ≠ []) :
    decimalValue t = some (digitsOf t : ℚ) := by
  have htake : t.takeWhile Char.isDigit = t := List.takeWhile_eq_self_iff.mpr h
  have hdrop : t.dropWhile Char.isDigit = [] := List.dropWhile_eq_nil_iff.mpr h
  rw [decimalValue, htake, hdrop]
  simp [hne, exponentValue]

theorem literalValue_digits {t : List Char} (h : ∀ c ∈ t, c.isDigit) (hne : t ≠ []) :
    literalValue t = some (digitsOf t : ℚ) := by
  rw [← decimalValue_digits h hne, literalValue.eq_def]
  have hsecond : ∀ {c d : Char} {rest : List Char}, d.isDigit = false → t ≠ c :: d :: rest := by
    rintro c d rest hd rfl
    exact Bool.false_ne_true (hd.symm.trans (h d (by simp)))
  have hfirst : ∀ {c : Char} {rest : List Char}, c.isDigit = false → t ≠ c :: rest := by
    rintro c rest hc rfl
    exact Bool.false_ne_true (hc.symm.trans (h c (by simp)))
  split
  · exact absurd rfl hne
  · exact absurd rfl (hsecond (by decide))
  · exact absurd rfl (hsecond (by decide))
  · exact absurd rfl (hsecond (by decide))
  · exact absurd rfl (hsecond (by decide))
  · exact absurd rfl (hsecond (by decide))
  · exact absurd rfl (hsecond (by decide))
  · exact absurd rfl (hfirst (by decide))
  · exact absurd rfl (hfirst (by decide))
  · rfl

theorem literalValue_minus {t : List Char} (h : ∀ c ∈ t, c.isDigit) (hne : t ≠ []) :
    literalValue ('-' :: t) = some (-(digitsOf t : ℚ)) := by
  rw [literalValue, decimalValue_digits h hne]
  rfl

/-- A whole number that is safe is read from the text it is written as. -/
theorem numberOf_ofInt {n : ℤ} (h : |n| ≤ 9007199254740991) :
    numberOf (chars (JsNumber.ofInt n).text) = some (n : ℚ) := by
  have hdouble : ∀ m : ℤ, |m| ≤ 9007199254740991 → Doubles.double m = m :=
    fun m hm => Doubles.double_intCast (hm.trans_lt (by norm_num))
  by_cases hzero : n = 0
  · subst hzero
    rw [numberOf]
    have htext : literalValue (chars (JsNumber.ofInt 0).text) = some ((0 : ℤ) : ℚ) := by
      have hchars : chars (JsNumber.ofInt 0).text = ['0'] := by decide
      rw [hchars, literalValue_digits (JsString.forall_of_all (by decide)) (by decide)]
      rfl
    rw [htext, Option.map_some, hdouble 0 (by decide)]
  · have hnatAbs : n.natAbs ≠ 0 := Int.natAbs_ne_zero.mpr hzero
    have hdigits : ∀ c ∈ JsNumber.numeral n.natAbs, JsNumber.IsDigit c := fun c hc => JsNumber.isDigit_numeral hc
    have hall := chars_isDigit hdigits
    have hne : chars (JsNumber.numeral n.natAbs) ≠ [] := by
      simpa [chars] using JsNumber.numeral_ne_nil hnatAbs
    have hvalue : digitsOf (chars (JsNumber.numeral n.natAbs)) = n.natAbs := by
      rw [digitsOf_chars hdigits, JsNumber.value_numeral]
    have hlength : (JsNumber.numeral n.natAbs).length ≤ 21 := by
      refine JsNumber.length_numeral ?_
      have := Int.natCast_natAbs n
      omega
    rw [numberOf, JsNumber.text_ofInt hzero hlength]
    have hrational : literalValue (chars ((if n < 0 then [45] else []) ++ JsNumber.numeral n.natAbs)) = some (n : ℚ) := by
      by_cases hneg : n < 0
      · rw [if_pos hneg]
        show literalValue ('-' :: chars (JsNumber.numeral n.natAbs)) = _
        rw [literalValue_minus hall hne, hvalue]
        congr 1
        have habs : -(n.natAbs : ℤ) = n := by omega
        rw [← Int.cast_natCast, ← Int.cast_neg, habs]
      · rw [if_neg hneg, List.nil_append, literalValue_digits hall hne, hvalue]
        congr 1
        have habs : (n.natAbs : ℤ) = n := by omega
        rw [← Int.cast_natCast, habs]
    rw [hrational, Option.map_some, hdouble n h]

/-- A zero is written without a sign. -/
theorem readsMinusZero_ofInt {n : ℤ} (h : |n| ≤ 9007199254740991) :
    readsMinusZero (chars (JsNumber.ofInt n).text) = false := by
  by_cases hzero : n = 0
  · subst hzero
    have hchars : chars (JsNumber.ofInt 0).text = ['0'] := by decide
    rw [hchars]
    rfl
  · rw [readsMinusZero, numberOf_ofInt h]
    have hne : (some (n : ℚ) == some 0) = false := beq_false_of_ne (by simpa using hzero)
    rw [hne, Bool.and_false]

theorem intOf_ofInt {n : ℤ} (h : |n| ≤ 9007199254740991) : intOf (chars (JsNumber.ofInt n).text) = .ok (.int n) := by
  rw [intOf, numberOf_ofInt h, readsMinusZero_ofInt h]
  show (if Doubles.IsSafe n then Except.ok (Value.int (n : ℚ).num) else _) = _
  rw [if_pos (Doubles.isSafe_intCast.mpr h), Rat.num_intCast]

theorem settled_int {n : ℤ} (h : |n| ≤ 9007199254740991) : Settled .int (.int n) := ⟨rfl, intOf_ofInt h⟩

/-- `-0` is written as the zero it is not. -/
theorem not_settled_minusZero : ¬ Settled .int .minusZero := by
  rintro ⟨-, hcell⟩
  have hzero : cell .int (out .minusZero) = .ok (.int 0) := intOf_ofInt (n := 0) (by decide)
  exact absurd (hzero.symm.trans hcell) (by decide)

theorem intOf_eq_ok {t : List Char} {x : Value} (h : intOf t = .ok x) :
    (readsMinusZero t = true ∧ x = .minusZero) ∨
      (readsMinusZero t = false ∧ ∃ n : ℤ, x = .int n ∧ |n| ≤ 9007199254740991) := by
  rw [intOf] at h
  split at h
  · rename_i x _
    split_ifs at h with hsafe hminus
    · exact .inl ⟨hminus, (Except.ok.inj h).symm⟩
    · rw [← hsafe.eq_num] at hsafe
      exact .inr ⟨eq_false_of_ne_true hminus, x.num, (Except.ok.inj h).symm, Doubles.isSafe_intCast.mp hsafe⟩
  · cases h

theorem settled_int_iff {v : Cell} {x : Value} (h : intOf (cellText v) = .ok x) : Settled .int x ↔ Kept .int v := by
  obtain ⟨hminus, rfl⟩ | ⟨hplus, n, rfl, hsafe⟩ := intOf_eq_ok h
  · exact iff_of_false not_settled_minusZero fun hkept => absurd (hminus.symm.trans hkept) (by decide)
  · exact iff_of_true (settled_int hsafe) hplus

theorem settled_decimal {d : Decimal} (h : 0 ≤ d.s) : Settled .decimal (.decimal d) := by
  have hof := Decimal.of_toString h
  have htrim : Decimal.of (.ofList (trim d.toString.toList)) = .ok d := by
    rw [Decimal.of, String.toList_ofList, trim_trim]
    rw [Decimal.of] at hof
    split at hof
    · cases hof
    · exact hof
  refine ⟨?_, ?_⟩
  · rw [out, blank, List.isEmpty_eq_false_iff]
    intro hnil
    rw [hnil] at htrim
    cases htrim
  · rw [cell, out, cellText, decimalOf, mapError_eq_ok.mpr htrim]
    · rfl
    · intro _ h'
      cases h'

theorem scale_of_decimalOf {v : Cell} {t : List Char} {d : Decimal} (h : decimalOf v t = .ok d) : 0 ≤ d.s := by
  have hround : ∀ {e r : Decimal}, e.round 10 .halfUp = .ok r → 0 ≤ r.s := by
    intro e r hr
    rw [Decimal.round, if_neg (by decide)] at hr
    split_ifs at hr
    · exact Except.ok.inj hr ▸ (by decide : (0 : ℤ) ≤ 10)
    · exact Except.ok.inj hr ▸ (by decide : (0 : ℤ) ≤ 10)
  rw [decimalOf.eq_def] at h
  split at h
  · split_ifs at h
    · exact hround (mapError_eq_ok.mp h)
    · exact Decimal.scale_nonneg_of_of (mapError_eq_ok.mp h)
  · exact Decimal.scale_nonneg_of_of (mapError_eq_ok.mp h)

theorem isSpace_dateText (year month day : ℕ) : ∀ c ∈ (dateText year month day).toList, isSpace c = false := by
  intro c hc
  rw [dateText, String.toList_ofList, dateChars] at hc
  simp only [List.mem_cons, List.not_mem_nil, or_false] at hc
  obtain rfl | rfl | rfl | rfl | rfl | rfl | rfl | rfl | rfl | rfl := hc
  all_goals first
    | exact isSpace_of_isDigit (isDigit_digit _)
    | decide

theorem firstUnits_eq {t : List Char} {n : ℕ} (h : ∀ c ∈ t, c.toNat < 65536) (hlen : t.length ≤ n) : firstUnits n t = t := by
  induction t generalizing n with
  | nil => cases n <;> rfl
  | cons c t ih =>
    obtain ⟨hc, ht⟩ := List.forall_mem_cons.mp h
    rw [List.length_cons] at hlen
    match n with
    | 1 =>
      obtain rfl : t = [] := List.eq_nil_of_length_eq_zero (by omega)
      rw [firstUnits, if_pos hc]
    | n + 2 => rw [firstUnits, if_pos hc, ih ht (by omega)]

/-- A date is read again just when it is a day of the calendar. -/
theorem settled_date_iff {s : String} : Settled .date (.text s) ↔ isPlainDate s := by
  constructor
  · rintro ⟨-, hcell⟩
    rw [cell, out, dateOf, plainDate] at hcell
    · split_ifs at hcell with hplain
      · have htext := Value.text.inj (Except.ok.inj hcell)
        rwa [htext] at hplain
      · cases hcell
    all_goals
      intro _ h'
      cases h'
  · intro h
    obtain ⟨year, month, day, -, -, -, -, -, rfl⟩ := isPlainDate_iff.mp h
    have hlist : (dateText year month day).toList = dateChars year month day := String.toList_ofList
    obtain ⟨hblank, htext⟩ := out_text (trim_of_all (isSpace_dateText year month day))
      (by rw [hlist]; exact List.cons_ne_nil _ _)
    refine ⟨hblank, ?_⟩
    have hunits : ∀ c ∈ dateChars year month day, c.toNat < 65536 := by
      intro c hc
      rw [dateChars] at hc
      simp only [List.mem_cons, List.not_mem_nil, or_false] at hc
      obtain rfl | rfl | rfl | rfl | rfl | rfl | rfl | rfl | rfl | rfl := hc
      all_goals first
        | (rw [digit_toNat]; omega)
        | decide
    have htake : String.ofList (firstUnits 10 (dateText year month day).toList) = dateText year month day := by
      rw [hlist, firstUnits_eq hunits (by decide : (10 : ℕ) ≤ 10)]
      rfl
    rw [cell, htext, out, dateOf, htake, plainDate, if_pos h]
    · rfl
    all_goals
      intro _ h'
      cases h'

theorem isPlainDate_excelEpoch : isPlainDate excelEpoch := by decide

theorem settled_date {v : Cell} {s : String} (h : dateOf v (cellText v) = .ok s) :
    Settled .date (.text s) ↔ Kept .date v := by
  rw [settled_date_iff]
  rw [dateOf.eq_def] at h
  split at h
  · rename_i x
    have hcalendar := addDays_inCalendar_iff isPlainDate_excelEpoch ⌊doubleOf x⌋
    have hnear : ¬ 100000000 < (toDays excelEpoch + ⌊doubleOf x⌋).natAbs := by
      rw [addDays, plainDate, if_pos isPlainDate_excelEpoch, Fallible.ok_bind, fromDays] at h
      split_ifs at h with hle
      exact not_lt.mpr hle
    rw [or_iff_left hnear] at hcalendar
    rw [Kept, ← hcalendar, InCalendar]
    exact ⟨fun hs d hd => Except.ok.inj (h.symm.trans hd) ▸ hs, fun hall => hall s h⟩
  · cases h
  · rename_i hnumber
    refine iff_of_true ?_ ?_
    · rw [plainDate] at h
      split_ifs at h with hplain
      exact Except.ok.inj h ▸ hplain
    · cases v with
      | number v => exact absurd rfl (hnumber v)
      | _ => trivial

/-- A text `HH:MM` of the day. -/
structure IsTime (s : String) : Prop where
  text : ∃ a b c d, s = .ofList [a, b, ':', c, d] ∧ a.isDigit ∧ b.isDigit ∧ isSixtieth c d ∧ digitsOf [a, b] ≤ 23

theorem matchMinutes_some {t minutes : List Char} (h : matchMinutes t = some minutes) :
    ∃ c d, minutes = [c, d] ∧ isSixtieth c d := by
  rw [matchMinutes.eq_def] at h
  split at h
  · split_ifs at h with hcd
    exact ⟨_, _, (Option.some.inj h).symm, hcd⟩
  · split_ifs at h with hcd
    exact ⟨_, _, (Option.some.inj h).symm, (Bool.and_eq_true_iff.mp hcd).1⟩
  · cases h

theorem matchTime_some {t hours minutes : List Char} (h : matchTime t = some (hours, minutes)) :
    ((∃ a, hours = [a] ∧ a.isDigit) ∨ ∃ a b, hours = [a, b] ∧ a.isDigit ∧ b.isDigit) ∧
      ∃ c d, minutes = [c, d] ∧ isSixtieth c d := by
  rw [matchTime.eq_def] at h
  split at h
  · split_ifs at h with ha
    obtain ⟨minutes', hminutes, hpair⟩ := Option.map_eq_some_iff.mp h
    obtain ⟨rfl, rfl⟩ := Prod.mk.inj hpair
    exact ⟨.inl ⟨_, rfl, ha⟩, matchMinutes_some hminutes⟩
  · split_ifs at h with hab
    obtain ⟨minutes', hminutes, hpair⟩ := Option.map_eq_some_iff.mp h
    obtain ⟨rfl, rfl⟩ := Prod.mk.inj hpair
    obtain ⟨ha, hb⟩ := Bool.and_eq_true_iff.mp hab
    exact ⟨.inr ⟨_, _, rfl, ha, hb⟩, matchMinutes_some hminutes⟩
  · cases h

theorem isTime_of_timeText {t : List Char} {s : String} (h : timeText t = .ok s) : IsTime s := by
  rw [timeText] at h
  split at h
  · rename_i hours minutes hmatch
    split_ifs at h with hlate
    obtain rfl := Except.ok.inj h
    obtain ⟨⟨a, rfl, ha⟩ | ⟨a, b, rfl, ha, hb⟩, c, d, rfl, hcd⟩ := matchTime_some hmatch
    · exact ⟨'0', a, c, d, rfl, by decide, ha, hcd, not_lt.mp hlate⟩
    · exact ⟨a, b, c, d, rfl, ha, hb, hcd, not_lt.mp hlate⟩
  · cases h

/-- A time is read again just when it is one of the day. -/
theorem settled_time_iff {s : String} : Settled .time (.text s) ↔ IsTime s := by
  constructor
  · rintro ⟨-, hcell⟩
    obtain ⟨s', htime, heq⟩ := Fallible.map_eq_ok.mp hcell
    obtain rfl := Value.text.inj heq
    exact isTime_of_timeText htime
  · rintro ⟨a, b, c, d, rfl, ha, hb, hcd, hhours⟩
    obtain ⟨hc, hd⟩ : c.isDigit ∧ d.isDigit := by
      rw [isSixtieth, Bool.and_eq_true, Bool.and_eq_true] at hcd
      exact ⟨hcd.1.1, hcd.2⟩
    have hall : ∀ ch ∈ [a, b, ':', c, d], isSpace ch = false := by
      intro ch hch
      simp only [List.mem_cons, List.not_mem_nil, or_false] at hch
      obtain rfl | rfl | rfl | rfl | rfl := hch
      · exact isSpace_of_isDigit ha
      · exact isSpace_of_isDigit hb
      · decide
      · exact isSpace_of_isDigit hc
      · exact isSpace_of_isDigit hd
    have hlist : (String.ofList [a, b, ':', c, d]).toList = [a, b, ':', c, d] := String.toList_ofList
    obtain ⟨hblank, htext⟩ := out_text (s := .ofList [a, b, ':', c, d]) (by rw [hlist]; exact trim_of_all hall)
      (by rw [hlist]; exact List.cons_ne_nil _ _)
    refine ⟨hblank, ?_⟩
    have hcolon : b ≠ ':' := by
      rintro rfl
      exact absurd hb (by decide)
    -- two digits before the colon: the pattern's longer alternative
    have hmatch : matchTime [a, b, ':', c, d] = some ([a, b], [c, d]) := by
      rw [matchTime.eq_def]
      split
      · rename_i heq
        exact absurd (List.cons.inj (List.cons.inj heq).2).1 hcolon
      · rename_i heq
        cases heq
        rw [if_pos (by rw [ha, hb]; rfl), matchMinutes, if_pos hcd]
        rfl
      · rename_i _ hno
        exact absurd rfl (hno _ _ _)
    have htime : timeText [a, b, ':', c, d] = .ok (.ofList [a, b, ':', c, d]) := by
      rw [timeText, hmatch]
      show (if 23 < digitsOf [a, b] then _ else _) = _
      rw [if_neg (not_lt.mpr hhours)]
      rfl
    rw [cell, htext, hlist]
    show Value.text <$> timeText [a, b, ':', c, d] = _
    rw [htime]
    rfl

theorem pad_eq {n : ℤ} (hlow : 0 ≤ n) (hhigh : n < 60) : pad n = [digit (n.toNat / 10), digit n.toNat] := by
  obtain ⟨m, rfl⟩ := Int.eq_ofNat_of_zero_le hlow
  have hm : m < 60 := by omega
  have hall : ∀ k : Fin 60, pad (k : ℕ) = [digit (k / 10), digit k] := by decide
  exact hall ⟨m, hm⟩

theorem minus_mem_pad {n : ℤ} (h : n < 0) : '-' ∈ pad n := by
  rw [pad, if_pos h]
  exact List.mem_append_right _ (List.mem_append_left _ (List.mem_singleton_self _))

theorem IsTime.isDigit {s : String} (h : IsTime s) {ch : Char} (hch : ch ∈ s.toList) : ch.isDigit ∨ ch = ':' := by
  obtain ⟨a, b, c, d, rfl, ha, hb, hcd, -⟩ := h
  rw [isSixtieth, Bool.and_eq_true, Bool.and_eq_true] at hcd
  rw [String.toList_ofList] at hch
  simp only [List.mem_cons, List.not_mem_nil, or_false] at hch
  obtain rfl | rfl | rfl | rfl | rfl := hch
  · exact .inl ha
  · exact .inl hb
  · exact .inr rfl
  · exact .inl hcd.1.1
  · exact .inl hcd.2

theorem tmod_of_neg {n : ℤ} (k : ℤ) (h : n < 0) : n.tmod k = -(-n % k) := by
  rw [← Int.tmod_eq_emod_of_nonneg (by omega : 0 ≤ -n), Int.neg_tmod, neg_neg]

theorem hour_minute_iff (m : ℤ) : (0 ≤ (m / 60).tmod 24 ∧ 0 ≤ m.tmod 60) ↔ 0 ≤ m ∨ 1440 ∣ m := by
  by_cases hneg : m < 0
  · rw [tmod_of_neg 24 (by omega : m / 60 < 0), tmod_of_neg 60 hneg]
    omega
  · rw [Int.tmod_eq_emod_of_nonneg (by omega : 0 ≤ m / 60), Int.tmod_eq_emod_of_nonneg (by omega : 0 ≤ m)]
    omega

/-- Minutes make a time of the day unless they are negative and no whole number of days. -/
theorem isTime_clock_iff (m : ℤ) : IsTime (clock m) ↔ 0 ≤ m ∨ 1440 ∣ m := by
  have hlist : (clock m).toList = pad ((m / 60).tmod 24) ++ ':' :: pad (m.tmod 60) := String.toList_ofList
  constructor
  · intro h
    have hminus : '-' ∉ (clock m).toList := by
      intro hmem
      obtain hdigit | hcolon := h.isDigit hmem
      · exact absurd hdigit (by decide)
      · exact absurd hcolon (by decide)
    rw [hlist, List.mem_append, List.mem_cons] at hminus
    obtain ⟨hhour, hminute⟩ := not_or.mp hminus
    have hhour' : 0 ≤ (m / 60).tmod 24 := not_lt.mp fun hlt => hhour (minus_mem_pad hlt)
    have hminute' : 0 ≤ m.tmod 60 := not_lt.mp fun hlt => hminute (.inr (minus_mem_pad hlt))
    exact (hour_minute_iff m).mp ⟨hhour', hminute'⟩
  · intro h
    obtain ⟨hlow, hlow'⟩ := (hour_minute_iff m).mpr h
    have hhour : 0 ≤ (m / 60).tmod 24 ∧ (m / 60).tmod 24 < 24 := ⟨hlow, Int.tmod_lt_of_pos _ (by decide)⟩
    have hminute : 0 ≤ m.tmod 60 ∧ m.tmod 60 < 60 := ⟨hlow', Int.tmod_lt_of_pos _ (by decide)⟩
    generalize (m / 60).tmod 24 = hour at hlist hhour
    generalize m.tmod 60 = minute at hlist hminute
    rw [pad_eq hhour.1 (by omega), pad_eq hminute.1 hminute.2] at hlist
    refine ⟨_, _, _, _, String.toList_inj.mp (hlist.trans String.toList_ofList.symm), isDigit_digit _,
      isDigit_digit _, ?_, ?_⟩
    · rw [isSixtieth, isDigit_digit, isDigit_digit, digit_toNat]
      simp only [Bool.true_and, Bool.and_true, decide_eq_true_eq]
      omega
    · rw [digitsOf, Nat.ofDigitChars_cons, Nat.ofDigitChars_cons, Nat.ofDigitChars_nil, digit_toNat, digit_toNat]
      have hzero : '0'.toNat = 48 := rfl
      omega

theorem settled_time {v : Cell} {s : String} (h : timeOf v (cellText v) = .ok s) :
    Settled .time (.text s) ↔ Kept .time v := by
  rw [settled_time_iff]
  rw [timeOf.eq_def] at h
  split at h
  · obtain rfl := Except.ok.inj h
    exact isTime_clock_iff _
  · rename_i v hfinite
    obtain rfl := Except.ok.inj h
    refine iff_of_false ?_ ?_
    · intro hN
      obtain hdigit | hcolon := hN.isDigit (show 'N' ∈ _ by decide)
      · exact absurd hdigit (by decide)
      · exact absurd hcolon (by decide)
    · cases v with
      | finite x => exact absurd rfl (hfinite x)
      | _ => exact id
  · rename_i hnumber
    refine iff_of_true (isTime_of_timeText h) ?_
    cases v with
    | number v => exact absurd rfl (hnumber v)
    | _ => trivial

/-- A value read from a cell is read again from its own, unless it left the calendar or the day. -/
theorem settled_iff {k : Scalar} {v : Cell} {x : Value} (hblank : blank (some v) = false) (h : cell k v = .ok x) :
    Settled k x ↔ Kept k v := by
  obtain ⟨htrim, hne⟩ := cellText_spec hblank
  have hout : blank (some (out (.text (.ofList (cellText v))))) = false ∧
      cellText (out (.text (.ofList (cellText v)))) = cellText v := by
    have hlist : (String.ofList (cellText v)).toList = cellText v := String.toList_ofList
    have := out_text (s := .ofList (cellText v)) (by rw [hlist]; exact htrim) (by rw [hlist]; exact hne)
    rwa [hlist] at this
  cases k with
  | text =>
    obtain rfl := Except.ok.inj h
    refine iff_of_true ⟨hout.1, ?_⟩ trivial
    rw [cell, hout.2]
  | int =>
    exact settled_int_iff h
  | decimal =>
    obtain ⟨d, hd, rfl⟩ := Fallible.map_eq_ok.mp h
    exact iff_of_true (settled_decimal (scale_of_decimalOf hd)) trivial
  | date =>
    obtain ⟨s, hs, rfl⟩ := Fallible.map_eq_ok.mp h
    exact settled_date hs
  | time =>
    obtain ⟨s, hs, rfl⟩ := Fallible.map_eq_ok.mp h
    exact settled_time hs
  | bool =>
    obtain ⟨b, hb, rfl⟩ := Fallible.map_eq_ok.mp h
    exact iff_of_true ⟨rfl, rfl⟩ trivial
  | enum values =>
    rw [cell] at h
    split_ifs at h with hmem
    obtain rfl := Except.ok.inj h
    refine iff_of_true ⟨hout.1, ?_⟩ trivial
    rw [cell, hout.2, if_pos hmem]

end Norbital.Std.Sheet

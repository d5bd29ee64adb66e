import Norbital.Std.Kind

/-!
# Database values

What a statement binds for a wire value (`store/src/read/values.ts`), and the columns a value is
bound to. The input and output of PostgreSQL's types and the text of a JavaScript number are
parameters.
-/

namespace Norbital.Store.Values

open Norbital.Std

mutual

/-- `String(v)`. -/
def stringOf (number : Rat → String) : Json → String
  | .null => "null"
  | .bool b => if b then "true" else "false"
  | .number n => number n
  | .string s => s
  | .array items => ",".intercalate (itemsOf number items)
  | .object _ => "[object Object]"

/-- A list joins its items, and a null among them is empty. -/
def itemsOf (number : Rat → String) : List Json → List String
  | [] => []
  | x :: xs => (if x.isNull then "" else stringOf number x) :: itemsOf number xs

end

/-- `String` of what may be missing. -/
def stringOf? (number : Rat → String) : Option Json → String
  | none => "undefined"
  | some v => stringOf number v

/-- What of a field's kind decides how its values are bound. -/
inductive FieldKind where
  | point
  | period (date : Bool)
  | duration
  | other
  deriving DecidableEq, Repr

/-- A field as the compilers read it. -/
structure FieldInfo where
  name : String
  /-- The column's type. -/
  pg : String
  kind : FieldKind := .other
  many : Bool := false
  email : Bool := false
  deriving DecidableEq, Repr

/-- `periodOf === 'date'`. -/
def FieldInfo.isDate (f : FieldInfo) : Bool := f.kind == .period true

/-- The decimal `{ $dec }` holds. -/
def decimalOf : Json → Option Json
  | .object [(key, x)] => if key = "$dec" then some x else none
  | _ => none

def plain (v : Json) : Json := (decimalOf v).getD v

/-- An end of a period; a null one is open. -/
def openEnd (number : Rat → String) : Option Json → String
  | none | some .null => ""
  | some v => stringOf number (plain v)

/-- A range literal: a period of dates includes its last day, one of instants ends before its end. -/
def range (number : Rat → String) (date : Bool) (members : List (String × Json)) : String :=
  let (lo, hi) := if date then (member members "from", member members "to")
    else (member members "start", member members "end")
  "[" ++ stringOf number (plain (lo.getD .null)) ++ "," ++ openEnd number hi ++ (if date then "]" else ")")

/-- `databaseValue`; without a field the kind is `.other`. -/
def databaseValue (number : Rat → String) (kind : FieldKind) (v : Json) : Json :=
  match decimalOf v with
  | some x => x
  | none =>
    match v, kind with
    | .object members, .point =>
      .string ("(" ++ stringOf? number (member members "lng") ++ "," ++ stringOf? number (member members "lat") ++ ")")
    | .object members, .period date => .string (range number date members)
    | v, _ => v

/-- `/^(\d+)(s|min|h|d)$/` of a text, in seconds. -/
def seconds (s : String) : Option Nat :=
  let digits := s.toList.takeWhile Char.isDigit
  let n := digits.foldl (fun n d => 10 * n + (d.toNat - 48)) 0
  if digits.isEmpty then none
  else
    match String.ofList (s.toList.dropWhile Char.isDigit) with
    | "s" => some n
    | "min" => some (n * 60)
    | "h" => some (n * 3600)
    | "d" => some (n * 86400)
    | _ => none

/-- `comparable`: a duration is compared in seconds. -/
def comparable (number : Rat → String) (kind : FieldKind) (v : Json) : Json :=
  match kind, v with
  | .duration, .string s =>
    match seconds s with
    | some n => .number n
    | none => .string s
  | _, v => databaseValue number .other v

/-- PostgreSQL's column types: what of a JSON value is one of a type's values, the type's `=`, and how
a value is written. -/
structure Pg where
  Datum : Type
  eq : String → Datum → Datum → Bool
  /-- The value of a type that a JSON value reads as; `none` where the statement fails. -/
  input : String → Json → Option Datum
  /-- `to_jsonb`. -/
  json : String → Datum → Json
  /-- `::text`. -/
  text : String → Datum → String
  /-- `lower` of a text. -/
  lower : Datum → Datum

/-- A bound value; a null is a null of any type. -/
def Pg.bind (pg : Pg) (type : String) (v : Json) : Option (Option pg.Datum) :=
  if v.isNull then some none else (pg.input type v).map some

/-- A stored row: its id and its columns, `none` where a column is null. -/
structure Row (pg : Pg) where
  id : String
  column : String → Option pg.Datum

/-- `=` of two columns, unknown where one is null. -/
def Pg.equals (pg : Pg) (type : String) : Option pg.Datum → Option pg.Datum → Option Bool
  | some x, some y => some (pg.eq type x y)
  | _, _ => none

/-- `IS NOT DISTINCT FROM`. -/
def Pg.notDistinct (pg : Pg) (type : String) : Option pg.Datum → Option pg.Datum → Bool
  | some x, some y => pg.eq type x y
  | none, none => true
  | _, _ => false

end Norbital.Store.Values

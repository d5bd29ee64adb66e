import Mathlib.Algebra.Order.Ring.Rat
import Mathlib.Algebra.GroupWithZero.Nat
import Mathlib.Algebra.Order.Group.Unbundled.Abs
import Mathlib.Data.List.Basic
import Norbital.Lib.Trim

/-!
# Kinds and their codec

The kind literals of `std/src/kind.ts` and what their codec (`inputSchema`)
decodes, as a predicate on JSON values.  A kind is a scalar, or one of the
structures built from kinds; `optional`, `default`, `many` and `multiple` go
with every kind.

What a JavaScript `Date` makes of a text is the parameter `Js`.
-/

namespace Norbital.Std

/-- A JSON value; a number is the decimal its shortest text denotes. -/
inductive Json where
  | null
  | bool (b : Bool)
  | number (n : Rat)
  | string (s : String)
  | array (items : List Json)
  | object (members : List (String × Json))

namespace Json

def isNull : Json → Bool
  | .null => true
  | _ => false

def isString : Json → Bool
  | .string _ => true
  | _ => false

end Json

/-- The member of an object. -/
def member (members : List (String × Json)) (name : String) : Option Json := members.lookup name

/-- A text of fixed length, each character of its own class. -/
def fits : List (Char → Bool) → List Char → Bool
  | [], [] => true
  | p :: ps, c :: cs => p c && fits ps cs
  | _, _ => false

/-- A text of a shape is as long as the shape. -/
theorem length_of_fits : (shape : List (Char → Bool)) → (cs : List Char) → fits shape cs →
    cs.length = shape.length
  | [], [], _ => rfl
  | _ :: shape, _ :: cs, h => congrArg (· + 1)
    (length_of_fits shape cs (Bool.and_eq_true_iff.mp h).2)

/-- `\d{4}-\d{2}-\d{2}`. -/
def dateShape : List (Char → Bool) :=
  List.replicate 4 Char.isDigit ++ [(· == '-')] ++ List.replicate 2 Char.isDigit ++ [(· == '-')] ++
    List.replicate 2 Char.isDigit

/-- `\d{4}-\d{2}-\d{2}T\d{2}:\d{2}:\d{2}\.\d{3}Z`. -/
def utcShape : List (Char → Bool) :=
  dateShape ++ [(· == 'T')] ++ List.replicate 2 Char.isDigit ++ [(· == ':')] ++
    List.replicate 2 Char.isDigit ++ [(· == ':')] ++ List.replicate 2 Char.isDigit ++ [(· == '.')] ++
    List.replicate 3 Char.isDigit ++ [(· == 'Z')]

def isHex (c : Char) : Bool := c.isDigit || ('a' ≤ c && c ≤ 'f') || ('A' ≤ c && c ≤ 'F')

/-- `[0-9a-f]{8}-[0-9a-f]{4}-[0-9a-f]{4}-[0-9a-f]{4}-[0-9a-f]{12}`, whatever the case. -/
def uuidShape : List (Char → Bool) :=
  List.replicate 8 isHex ++ [(· == '-')] ++ List.replicate 4 isHex ++ [(· == '-')] ++
    List.replicate 4 isHex ++ [(· == '-')] ++ List.replicate 4 isHex ++ [(· == '-')] ++
    List.replicate 12 isHex

/-- `\d+`. -/
def isDigits (cs : List Char) : Bool := !cs.isEmpty && cs.all Char.isDigit

/-- `-?\d+(\.\d+)?`. -/
def isDecimalText (s : String) : Bool :=
  let cs := match s.toList with
    | '-' :: cs => cs
    | cs => cs
  let fraction := cs.dropWhile Char.isDigit
  isDigits (cs.takeWhile Char.isDigit) &&
    (match fraction with
      | [] => true
      | c :: rest => c == '.' && isDigits rest)

/-- `(:[0-5]\d(\.\d+)?)?` after the minutes. -/
def isSeconds : List Char → Bool
  | [] => true
  | ':' :: a :: b :: rest => decide ('0' ≤ a ∧ a ≤ '5') && b.isDigit &&
    (match rest with
      | [] => true
      | c :: fraction => c == '.' && isDigits fraction)
  | _ => false

/-- `([01]\d|2[0-3]):[0-5]\d(:[0-5]\d(\.\d+)?)?`. -/
def isTime : List Char → Bool
  | a :: b :: ':' :: c :: d :: rest =>
    (((a == '0' || a == '1') && b.isDigit) || (a == '2' && decide ('0' ≤ b ∧ b ≤ '3'))) &&
      decide ('0' ≤ c ∧ c ≤ '5') && d.isDigit && isSeconds rest
  | _ => false

/-- `[^@\s]+@[^@\s]+` for a class `\s`. -/
def isEmail (space : Char → Bool) (s : String) : Bool :=
  let outside := fun c => c != '@' && !space c
  let name := s.toList.takeWhile outside
  match s.toList.dropWhile outside with
  | '@' :: host => !name.isEmpty && !host.isEmpty && host.all outside
  | _ => false

/-- The number a text of digits spells. -/
def digitsValue (cs : List Char) : Nat := cs.foldl (fun n c => 10 * n + (c.toNat - 48)) 0

def leapYear (year : Nat) : Bool := year % 4 == 0 && (year % 100 != 0 || year % 400 == 0)

/-- `daysInMonth` of `std/src/date.ts`. -/
def daysInMonth (year month : Nat) : Nat :=
  if month = 2 then (if leapYear year then 29 else 28)
  else if month = 4 ∨ month = 6 ∨ month = 9 ∨ month = 11 then 30
  else 31

/-- Year, month and day of a text in the shape of a date. -/
def dayParts (cs : List Char) : Nat × Nat × Nat :=
  (digitsValue (cs.take 4), digitsValue ((cs.drop 5).take 2), digitsValue ((cs.drop 8).take 2))

/-- `isPlainDate`. -/
def isPlainDate (s : String) : Bool :=
  let (year, month, day) := dayParts s.toList
  fits dateShape s.toList && decide (1 ≤ month ∧ month ≤ 12 ∧ 1 ≤ day ∧ day ≤ daysInMonth year month)

/-- `Date.parse` of `YYYY-MM-DDT00:00:00Z`: a day past the end of its month runs into the next. -/
def dayOf (parts : Nat × Nat × Nat) : Option (Nat × Nat × Nat) :=
  let (year, month, day) := parts
  if 1 ≤ month ∧ month ≤ 12 ∧ 1 ≤ day ∧ day ≤ 31 then
    if day ≤ daysInMonth year month then some (year, month, day)
    else some (year, month + 1, day - daysInMonth year month)
  else none

/-- `calendarDay`: the day the text parses to prints as the text. -/
def calendarDay (s : String) : Bool :=
  fits dateShape s.toList && dayOf (dayParts s.toList) == some (dayParts s.toList)

/-- The kinds whose codec looks at a value alone. -/
inductive Scalar where
  | text (email : Bool) (max : Option Rat)
  | int (min max : Option Rat)
  | number (min max : Option Rat)
  | decimal
  | money
  | sum
  | count
  | duration
  | currency
  | bool
  | date
  | instant
  | time
  | datePeriod
  | instantPeriod
  | enum (values : List String)
  | state (states : List String)
  | seq (pattern : Bool)
  | id
  | ref (target : String)
  | refs (targets : List String)
  | file
  | point
  | vector (dim : Nat)

mutual

/-- A kind literal. -/
inductive Kind where
  | mk (optional default many : Bool) (base : Base)

inductive Base where
  | scalar (s : Scalar)
  | json
  | jsonShape (shape : Kind)
  | custom
  | list (of : Kind) (min max : Option Rat)
  | object (fields : Fields)
  | objectRest (fields : Fields) (rest : Kind)
  | unionArms (by_ : String) (arms : Arms)
  | unionOf (of : Kinds)
  | record (of : Kind)

/-- Named kinds. -/
inductive Fields where
  | nil
  | cons (name : String) (kind : Kind) (rest : Fields)

/-- The tagged arms of a union. -/
inductive Arms where
  | nil
  | cons (tag : String) (fields : Fields) (rest : Arms)

inductive Kinds where
  | nil
  | cons (kind : Kind) (rest : Kinds)

end

def Kind.optional : Kind → Bool
  | .mk optional _ _ _ => optional

def Kind.default : Kind → Bool
  | .mk _ default _ _ => default

def Fields.isEmpty : Fields → Bool
  | .nil => true
  | .cons .. => false

/-- `Object.hasOwn` of the fields. -/
def Fields.has : Fields → String → Bool
  | .nil, _ => false
  | .cons name _ rest, key => name == key || rest.has key

/-- What JavaScript makes of texts that name an instant. -/
structure Js where
  /-- `new Date(Date.parse(s)).toISOString()`; `none` where `Date.parse` is `NaN`. -/
  instantOf : String → Option String

/-- `Number.isSafeInteger`. -/
def isSafeInteger (n : Rat) : Bool := n.isInt && decide (|n| ≤ 9007199254740991)

def inRange (min max : Option Rat) (n : Rat) : Bool :=
  min.all (· ≤ n) && max.all (n ≤ ·)

/-- `s.length`: UTF-16 code units. -/
def utf16Length (s : String) : Nat :=
  (s.toList.map fun c => if c.toNat > 65535 then 2 else 1).sum

def isFinite : Json → Bool
  | .number _ => true
  | _ => false

def isInt : Json → Bool
  | .number n => isSafeInteger n
  | _ => false

/-- `DecimalValue`. -/
def decimalValue : Json → Bool
  | .number _ => true
  | .string s => isDecimalText s
  | .object members =>
    match member members "$dec" with
    | some (.string s) => isDecimalText s
    | _ => false
  | _ => false

/-- `DateValue`. -/
def dateValue : Json → Option String
  | .string s => if calendarDay s && isPlainDate s then some s else none
  | _ => none

/-- `InstantValue`: the canonical UTC text of the instant. -/
def instantValue (js : Js) : Json → Option String
  | .string s => (js.instantOf s).filter fun utc => fits utcShape utc.toList
  | _ => none

/-- `open`: a missing or null end is open; an end that does not decode is `none`. -/
def openEnd (value : Json → Option String) : Option Json → Option (Option String)
  | none => some none
  | some .null => some none
  | some v => (value v).map some

/-- `period`. -/
def period (value : Json → Option String) (start stop : String) (fromTo : String → String → Bool) :
    Json → Bool
  | .object members =>
    match (member members start).bind value, openEnd value (member members stop) with
    | some _, some none => true
    | some a, some (some b) => fromTo a b
    | _, _ => false
  | _ => false

/-- The codecs of the scalar kinds (`KIND`). -/
def Scalar.decodes (js : Js) : Scalar → Json → Bool
  | .text email max, .string s =>
    max.all ((utf16Length s : Rat) ≤ ·) && (!email || isEmail Lib.isSpace s)
  | .int min max, .number n => isSafeInteger n && inRange min max n
  | .number min max, .number n => inRange min max n
  | .decimal, v | .money, v | .sum, v => decimalValue v
  | .count, .number n => isSafeInteger n && decide (0 ≤ n)
  | .duration, v => isInt v
  | .currency, v | .seq true, v | .ref _, v => v.isString
  | .bool, .bool _ => true
  | .date, v => (dateValue v).isSome
  | .instant, v => (instantValue js v).isSome
  | .time, .string s => isTime s.toList
  | .datePeriod, v => period dateValue "from" "to" (fun a b => decide (a ≤ b)) v
  | .instantPeriod, v => period (instantValue js) "start" "end" (fun a b => decide (a < b)) v
  | .enum values, .string s => values.contains s
  | .state states, .string s => states.contains s
  | .seq false, v => isInt v
  | .id, .string s => fits uuidShape s.toList
  | .refs targets, .object members =>
    -- a reference to one of several models names it
    (match member members "model" with
      | some (.string model) => targets.contains model
      | _ => false) && (member members "id").any Json.isString
  | .file, .object members =>
    ["id", "name", "mime"].all (fun name => (member members name).any Json.isString) &&
      (member members "size").all isInt
  | .point, .object members =>
    (member members "lat").any isFinite && (member members "lng").any isFinite
  | .vector dim, .array items => decide (items.length = dim) && items.all isFinite
  | _, _ => false

/-- The bounds of a list's length. -/
def lengthInRange (min max : Option Rat) (items : List Json) : Bool :=
  min.all (· ≤ (items.length : Rat)) && max.all ((items.length : Rat) ≤ ·)

mutual

/-- The values `inputSchema` decodes: `many` a list of the kind's values, `optional` or null. -/
def Kind.decodes (js : Js) : Kind → Json → Bool
  | .mk optional _ many base, v =>
    (optional && v.isNull) ||
      (if many then
        match v with
        | .array items => items.all fun item => base.decodes js item
        | _ => false
      else base.decodes js v)

/-- `one`: the codec of a kind without `many` and `optional`. -/
def Base.decodes (js : Js) : Base → Json → Bool
  | .scalar s, v => s.decodes js v
  | .json, _ => true
  | .jsonShape shape, v => shape.decodes js v
  | .custom, _ => true
  | .list of min max, v =>
    match v with
    | .array items => items.all (fun item => of.decodes js item) && lengthInRange min max items
    | _ => false
  | .object fields, v =>
    match v with
    | .object members => if fields.isEmpty then members.isEmpty else fields.decode js none members
    | _ => false
  | .objectRest fields rest, v =>
    match v with
    | .object members => fields.decode js none members &&
        members.all fun (key, item) => fields.has key || rest.decodes js item
    | _ => false
  | .unionArms by_ arms, v =>
    match v with
    | .object members => arms.decode js by_ members
    | _ => false
  | .unionOf of, v => of.decode js v
  | .record of, v =>
    match v with
    | .object members => members.all fun (_, item) => of.decodes js item
    | _ => false

/-- `fieldsSchema`: a field is there and not null, or it is optional or has a default.  The tag of a
tagged arm stands in the place of a field of its name. -/
def Fields.decode (js : Js) (tag : Option String) : Fields → List (String × Json) → Bool
  | .nil, _ => true
  | .cons name kind rest, members =>
    (tag == some name ||
      match member members name with
      | none => kind.optional || kind.default
      | some v =>
        if !kind.optional && !kind.default then kind.decodes js v && !v.isNull
        else if kind.optional then kind.decodes js v
        else v.isNull || kind.decodes js v) &&
      rest.decode js tag members

/-- A union of tagged structures: some arm whose tag is the value's and whose fields decode. -/
def Arms.decode (js : Js) (by_ : String) : Arms → List (String × Json) → Bool
  | .nil, _ => false
  | .cons tag fields rest, members =>
    ((match member members by_ with
      | some (.string s) => s == tag
      | _ => false) && fields.decode js (some by_) members) ||
      rest.decode js by_ members

/-- An untagged union: some arm decodes. -/
def Kinds.decode (js : Js) : Kinds → Json → Bool
  | .nil, _ => false
  | .cons kind rest, v => kind.decodes js v || rest.decode js v

end

end Norbital.Std

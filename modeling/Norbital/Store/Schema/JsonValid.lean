import Mathlib.Data.List.TakeWhile
import Mathlib.Tactic.IntervalCases
import Norbital.Lib.Walks
import Norbital.Std.Kind

/-!
# The database's JSON validator

`store_json_valid` of `store/src/schema/json.ts`, the function a check
constraint calls on a stored JSON value, beside the codec of
`Norbital.Std.Kind`: the two walk a value's parts alike wherever a polymorphic
reference names its target to both, a closed period of instants has no end in
the year 0000, and the database's locale sees white space where JavaScript
does in an email; elsewhere one goes on, and has to come to the same answer by
a later part.

What depends on the database's locale and its `timestamptz` is the parameter
`Pg`.
-/

namespace Norbital.Store.Schema

open Norbital.Std Norbital.Walks

/-- What the validator asks of PostgreSQL. -/
structure Pg where
  /-- `\s` in the database's locale. -/
  space : Char → Bool
  /-- A text in one of the other ISO forms whose `timestamptz` is finite. -/
  isInstant : String → Bool
  /-- `text::timestamptz`; `none` where the cast raises. -/
  timestamptz : String → Option Int

/-- `trunc(numeric_value)`. -/
def trunc (n : Rat) : Int := n.num.tdiv n.den

/-- The whole numbers a double holds exactly. -/
def isWhole (n : Rat) : Bool := decide ((trunc n : Rat) = n) && !decide (|n| > 9007199254740991)

def bounded (min max : Option Rat) (n : Rat) : Bool := min.all (n ≥ ·) && max.all (n ≤ ·)

/-- `store_json_valid(value, '{"kind":"int"}')`. -/
def validInt : Option Json → Bool
  | some (.number n) => isWhole n
  | _ => false

/-- `store_json_valid(value, '{"kind":"number"}')`. -/
def validNumber : Option Json → Bool
  | some (.number _) => true
  | _ => false

/-- `jsonb_typeof(value) = 'string'`. -/
def isText : Option Json → Bool
  | some (.string _) => true
  | _ => false

/-- The characters of a text, an empty text split into one empty piece, counted in UTF-16 units. -/
def lengthValue (s : String) : Nat :=
  let pieces := if s.toList.isEmpty then [none] else s.toList.map some
  (pieces.map fun
    | none => 0
    | some c => if c.toNat > 65535 then 2 else 1).sum

/-- `days[month]` of a year. -/
def days (year month : Nat) : Option Nat :=
  let february := if year % 400 = 0 ∨ (year % 4 = 0 ∧ year % 100 ≠ 0) then 29 else 28
  if month = 0 then none
  else [31, february, 31, 30, 31, 30, 31, 31, 30, 31, 30, 31][month - 1]?

def validDateText (cs : List Char) : Bool :=
  let (year, month, day) := dayParts cs
  fits dateShape cs && decide (1 ≤ month ∧ month ≤ 12) &&
    (days year month).any fun last => decide (1 ≤ day ∧ day ≤ last)

def validDate : Option Json → Bool
  | some (.string s) => validDateText s.toList
  | _ => false

def validInstantText (pg : Pg) (s : String) : Bool :=
  if fits utcShape s.toList then
    validDateText (s.toList.take 10) && isTime ((s.toList.drop 11).take 12)
  else pg.isInstant s

def validInstant (pg : Pg) : Option Json → Bool
  | some (.string s) => validInstantText pg s
  | _ => false

/-- The `period` branch; a comparison that raises is refused. -/
def validPeriod (valid : Option Json → Bool) (start stop : String)
    (fromTo : String → String → Option Bool) : Json → Bool
  | .object members =>
    if !valid (member members start) then false
    else
      match member members stop with
      | none => true
      | some .null => true
      | some v =>
        if !valid (some v) then false
        else
          match member members start, v with
          | some (.string a), .string b => (fromTo a b).getD false
          | _, _ => false
  | _ => false

/-- The scalar branches. -/
def Scalar.valid (pg : Pg) : Scalar → Json → Bool
  | .text email max, .string s =>
    -- UTF-16 units, as the codec counts; the white space of an email is the database's
    if max.any (fun m => decide ((lengthValue s : Rat) > m)) then false
    else !email || isEmail pg.space s
  | .int min max, .number n => isWhole n && bounded min max n
  | .number min max, .number n => bounded min max n
  | .count, .number n => isWhole n && !decide (n < 0)
  | .duration, v => validInt (some v)
  | .decimal, v | .money, v | .sum, v =>
    match v with
    | .number _ => true
    | .object members =>
      match member members "$dec" with
      | some (.string s) => isDecimalText s
      | _ => false
    | .string s => isDecimalText s
    | _ => false
  | .seq pattern, v => if pattern then isText (some v) else validInt (some v)
  | .currency, v | .ref _, v => isText (some v)
  | .bool, .bool _ => true
  | .date, v => validDate (some v)
  | .instant, v => validInstant pg (some v)
  | .time, .string s => isTime s.toList
  | .datePeriod, v => validPeriod validDate "from" "to" (fun a b => some (decide (a ≤ b))) v
  | .instantPeriod, v =>
    validPeriod (validInstant pg) "start" "end" (fun a b => do
      let a ← pg.timestamptz a
      let b ← pg.timestamptz b
      return decide (a < b)) v
  | .enum values, .string s => values.contains s
  | .state states, .string s => states.contains s
  | .id, .string s => fits uuidShape s.toList
  | .refs targets, .object members =>
    -- not `model`, where the codec has it
    (match member members "collection" with
      | some (.string collection) => targets.contains collection
      | _ => false) && isText (member members "id")
  | .file, .object members =>
    ["id", "name", "mime"].all (fun name => isText (member members name)) &&
      ((member members "size").isNone || validInt (member members "size"))
  | .point, .object members =>
    validNumber (member members "lat") && validNumber (member members "lng")
  | .vector dim, .array items =>
    decide (items.length = dim) && items.all fun item => validNumber (some item)
  | _, _ => false

mutual

/-- `store_json_valid`: null where optional, each item where `many` or `multiple`, else its kind. -/
def Kind.valid (pg : Pg) : Kind → Json → Bool
  | .mk optional _ many base, v =>
    if v.isNull && optional then true
    else if many then
      match v with
      | .array items => items.all fun item => Base.valid pg base item
      | _ => false
    else Base.valid pg base v

def Base.valid (pg : Pg) : Base → Json → Bool
  | .scalar s, v => Scalar.valid pg s v
  | .json, _ => true
  | .jsonShape shape, v => Kind.valid pg shape v
  | .custom, _ => true
  | .list of min max, v =>
    match v with
    | .array items =>
      if min.any (fun m => decide ((items.length : Rat) < m)) ||
          max.any (fun m => decide ((items.length : Rat) > m)) then false
      else items.all fun item => Kind.valid pg of item
    | _ => false
  | .object fields, v =>
    match v with
    | .object members =>
      if !Fields.valid pg none fields members then false
      -- other members are let pass, but not in an object without fields
      else if fields.isEmpty then members.isEmpty
      else true
    | _ => false
  | .objectRest fields rest, v =>
    match v with
    | .object members =>
      if !Fields.valid pg none fields members then false
      else members.all fun (key, item) => fields.has key || Kind.valid pg rest item
    | _ => false
  | .unionArms by_ arms, v =>
    match v with
    | .object members =>
      match member members by_ with
      | some (.string text) => Arms.valid pg by_ text arms members
      | _ => false
    | _ => false
  | .unionOf of, v => Kinds.valid pg of v
  | .record of, v =>
    match v with
    | .object members => members.all fun (_, item) => Kind.valid pg of item
    | _ => false

/-- The fields of an object, one taken out where it is a union's tag. -/
def Fields.valid (pg : Pg) (without : Option String) : Fields → List (String × Json) → Bool
  | .nil, _ => true
  | .cons name kind rest, members =>
    if without == some name then Fields.valid pg without rest members
    else
      match member members name with
      | none => if kind.optional || kind.default then Fields.valid pg without rest members else false
      | some v =>
        if v.isNull then
          if kind.optional || kind.default then Fields.valid pg without rest members else false
        else if !Kind.valid pg kind v then false
        else Fields.valid pg without rest members

/-- The fields of the arm a text names. -/
def Arms.valid (pg : Pg) (by_ text : String) : Arms → List (String × Json) → Bool
  | .nil, _ => false
  | .cons tag fields rest, members =>
    (tag == text && Fields.valid pg (some by_) fields members) || Arms.valid pg by_ text rest members

def Kinds.valid (pg : Pg) : Kinds → Json → Bool
  | .nil, _ => false
  | .cons kind rest, v => if Kind.valid pg kind v then true else Kinds.valid pg rest v

end

mutual

/-- A property of every part of a value that a scalar kind is asked about. -/
def Kind.Everywhere (p : Scalar → Json → Prop) : Kind → Json → Prop
  | .mk _ _ many base, v =>
    if many then
      match v with
      | .array items => ∀ item ∈ items, Base.Everywhere p base item
      | _ => True
    else Base.Everywhere p base v

def Base.Everywhere (p : Scalar → Json → Prop) : Base → Json → Prop
  | .scalar s, v => p s v
  | .json, _ => True
  | .jsonShape shape, v => Kind.Everywhere p shape v
  | .custom, _ => True
  | .list of _ _, v =>
    match v with
    | .array items => ∀ item ∈ items, Kind.Everywhere p of item
    | _ => True
  | .object fields, v =>
    match v with
    | .object members => Fields.Everywhere p none fields members
    | _ => True
  | .objectRest fields rest, v =>
    match v with
    | .object members => Fields.Everywhere p none fields members ∧
        ∀ m ∈ members, fields.has m.1 = false → Kind.Everywhere p rest m.2
    | _ => True
  | .unionArms by_ arms, v =>
    match v with
    | .object members =>
      match member members by_ with
      | some (.string text) => Arms.Everywhere p by_ text arms members
      | _ => True
    | _ => True
  | .unionOf of, v => Kinds.Everywhere p of v
  | .record of, v =>
    match v with
    | .object members => ∀ m ∈ members, Kind.Everywhere p of m.2
    | _ => True

def Fields.Everywhere (p : Scalar → Json → Prop) (without : Option String) :
    Fields → List (String × Json) → Prop
  | .nil, _ => True
  | .cons name kind rest, members =>
    ((without == some name) = false → ∀ v, member members name = some v → Kind.Everywhere p kind v) ∧
      Fields.Everywhere p without rest members

def Arms.Everywhere (p : Scalar → Json → Prop) (by_ text : String) :
    Arms → List (String × Json) → Prop
  | .nil, _ => True
  | .cons tag fields rest, members =>
    ((tag == text) = true → Fields.Everywhere p (some by_) fields members) ∧
      Arms.Everywhere p by_ text rest members

def Kinds.Everywhere (p : Scalar → Json → Prop) : Kinds → Json → Prop
  | .nil, _ => True
  | .cons kind rest, v => Kind.Everywhere p kind v ∧ Kinds.Everywhere p rest v

end

mutual

/-- Given where a scalar is answered alike (`p`), where a value of a kind is: the validator's walk
and the codec's go together while the parts are, and where they part the one that goes on comes to
the other's answer at a later part. -/
def Kind.Meets (js : Js) (p : Scalar → Json → Prop) : Kind → Json → Prop
  | .mk optional _ many base, v =>
    if v.isNull && optional then True
    else if many then
      match v with
      | .array items => Every (fun item => base.decodes js item) (fun item => Base.Meets js p base item) items
      | _ => True
    else Base.Meets js p base v

def Base.Meets (js : Js) (p : Scalar → Json → Prop) : Base → Json → Prop
  | .scalar s, v => p s v
  | .json, _ => True
  | .jsonShape shape, v => Kind.Meets js p shape v
  | .custom, _ => True
  | .list of min max, v =>
    match v with
    | .array items => lengthInRange min max items = true →
        Every (fun item => of.decodes js item) (fun item => Kind.Meets js p of item) items
    | _ => True
  | .object fields, v =>
    match v with
    | .object members => Fields.Meets js p none fields members
    | _ => True
  | .objectRest fields rest, v =>
    match v with
    | .object members =>
      AndThen (fields.decode js none members) (Fields.Meets js p none fields members)
        (members.all fun m => fields.has m.1 || rest.decodes js m.2)
        (Every (fun m => fields.has m.1 || rest.decodes js m.2)
          (fun m => fields.has m.1 = false → Kind.Meets js p rest m.2) members)
    | _ => True
  | .unionArms by_ arms, v =>
    match v with
    | .object members =>
      match member members by_ with
      | some (.string text) => Arms.Meets js p by_ text arms members
      | _ => True
    | _ => True
  | .unionOf of, v => Kinds.Meets js p of v
  | .record of, v =>
    match v with
    | .object members => Every (fun m => of.decodes js m.2) (fun m => Kind.Meets js p of m.2) members
    | _ => True

/-- A field that is absent or null is decided by the declaration alone. -/
def Fields.Meets (js : Js) (p : Scalar → Json → Prop) (without : Option String) :
    Fields → List (String × Json) → Prop
  | .nil, _ => True
  | .cons name kind rest, members =>
    if without == some name then Fields.Meets js p without rest members
    else
      match member members name with
      | none => (kind.optional || kind.default) = true → Fields.Meets js p without rest members
      | some v =>
        if v.isNull then (kind.optional || kind.default) = true → Fields.Meets js p without rest members
        else AndThen (kind.decodes js v) (Kind.Meets js p kind v) (rest.decode js without members)
          (Fields.Meets js p without rest members)

def Arms.Meets (js : Js) (p : Scalar → Json → Prop) (by_ text : String) :
    Arms → List (String × Json) → Prop
  | .nil, _ => True
  | .cons tag fields rest, members =>
    OrElse (tag == text && fields.decode js (some by_) members)
      ((tag == text) = true → Fields.Meets js p (some by_) fields members)
      (rest.decode js by_ members) (Arms.Meets js p by_ text rest members)

def Kinds.Meets (js : Js) (p : Scalar → Json → Prop) : Kinds → Json → Prop
  | .nil, _ => True
  | .cons kind rest, v =>
    OrElse (kind.decodes js v) (Kind.Meets js p kind v) (rest.decode js v) (Kinds.Meets js p rest v)

end

section

variable {pg : Pg} {js : Js}

/-- Where the scalar branches agree with the scalar codecs, a part is decided alike. -/
def Scalar.Alike (pg : Pg) (js : Js) (s : Scalar) (v : Json) : Prop :=
  Scalar.valid pg s v = s.decodes js v

theorem all_congr {α : Type} {p q : α → Bool} {l : List α} (h : ∀ a ∈ l, p a = q a) :
    l.all p = l.all q := by
  induction l with
  | nil => rfl
  | cons a l ih =>
    rw [List.all_cons, List.all_cons, h a List.mem_cons_self,
      ih fun b hb => h b (List.mem_cons_of_mem a hb)]

theorem lengthInRange_eq_not (min max : Option Rat) (items : List Json) :
    lengthInRange min max items =
      !(min.any (fun m => decide ((items.length : Rat) < m)) ||
        max.any fun m => decide ((items.length : Rat) > m)) := by
  have hnot : ∀ a b : Rat, decide (a ≤ b) = !decide (b < a) := by
    intro a b
    simp [← not_lt]
  cases min <;> cases max <;> simp [lengthInRange, hnot]

/-- A value without a text for its tag is of no arm. -/
theorem Arms.decode_untagged : (a : Arms) → (by_ : String) → (members : List (String × Json)) →
    (∀ text, member members by_ = some (.string text) → False) → a.decode js by_ members = false
  | .nil, _, _, _ => by unfold Arms.decode; rfl
  | .cons tag fields rest, by_, members, h => by
    unfold Arms.decode
    rw [Arms.decode_untagged rest by_ members h, Bool.or_false, Bool.and_eq_false_iff]
    refine .inl ?_
    split
    · exact (h _ ‹_›).elim
    · rfl

theorem Kind.decodes_null {k : Kind} {v : Json} (hv : v.isNull) (hk : k.optional) :
    k.decodes js v := by
  obtain ⟨optional, default, many, base⟩ := k
  unfold Kind.decodes
  rw [show optional = true from hk, hv, Bool.and_self, Bool.true_or]

mutual

theorem Kind.valid_eq_iff {p q : Scalar → Json → Prop}
    (hp : ∀ s v, q s v → (Scalar.Alike pg js s v ↔ p s v)) : (k : Kind) → (v : Json) → Kind.Everywhere q k v →
    (Kind.valid pg k v = k.decodes js v ↔ Kind.Meets js p k v)
  | .mk optional default many base, v, h => by
    have hone : ∀ w, Base.Everywhere q base w →
        (Base.valid pg base w = base.decodes js w ↔ Base.Meets js p base w) :=
      fun w hw => Base.valid_eq_iff hp base w hw
    unfold Kind.Everywhere at h
    unfold Kind.valid Kind.decodes Kind.Meets
    by_cases hnull : v.isNull && optional
    · rw [if_pos hnull, if_pos hnull, Bool.and_comm, hnull, Bool.true_or]
      exact iff_of_true rfl trivial
    · have hnull' : (optional && v.isNull) = false := by
        rw [Bool.and_comm]
        simpa using hnull
      rw [if_neg hnull, if_neg hnull, hnull', Bool.false_or]
      by_cases hmany : many
      · rw [if_pos hmany] at h ⊢
        rw [if_pos hmany, if_pos hmany]
        cases v with
        | array items => exact all_eq_iff fun item hitem => hone item (h item hitem)
        | _ => exact iff_of_true rfl trivial
      · rw [if_neg hmany] at h ⊢
        rw [if_neg hmany, if_neg hmany]
        exact hone v h

theorem Base.valid_eq_iff {p q : Scalar → Json → Prop}
    (hp : ∀ s v, q s v → (Scalar.Alike pg js s v ↔ p s v)) : (b : Base) → (v : Json) → Base.Everywhere q b v →
    (Base.valid pg b v = b.decodes js v ↔ Base.Meets js p b v)
  | .scalar s, v, h => by
    unfold Base.Everywhere at h
    unfold Base.valid Base.decodes Base.Meets
    exact hp s v h
  | .json, v, _ => by
    unfold Base.valid Base.decodes Base.Meets
    exact iff_of_true rfl trivial
  | .jsonShape shape, v, h => by
    unfold Base.Everywhere at h
    unfold Base.valid Base.decodes Base.Meets
    exact Kind.valid_eq_iff hp shape v h
  | .custom, v, _ => by
    unfold Base.valid Base.decodes Base.Meets
    exact iff_of_true rfl trivial
  | .list of min max, v, h => by
    unfold Base.Everywhere at h
    unfold Base.valid Base.decodes Base.Meets
    cases v with
    | array items =>
      have hall := all_eq_iff fun item hitem => Kind.valid_eq_iff hp of item (h item hitem)
      have hlength := lengthInRange_eq_not min max items
      dsimp only
      -- the codec asks for the length first, the validator last: of a list out of range neither answer hangs on an item
      cases hin : lengthInRange min max items with
      | false =>
        rw [hin, eq_comm, Bool.not_eq_false'] at hlength
        rw [if_pos hlength, Bool.and_false]
        exact iff_of_true rfl nofun
      | true =>
        rw [hin, eq_comm, Bool.not_eq_true'] at hlength
        rw [if_neg (by rw [hlength]; exact Bool.false_ne_true), Bool.and_true, hall]
        exact ⟨fun hevery _ => hevery, fun hevery => hevery rfl⟩
    | _ => exact iff_of_true rfl trivial
  | .object fields, v, h => by
    unfold Base.Everywhere at h
    unfold Base.valid Base.decodes Base.Meets
    cases v with
    | object members =>
      have hfields := Fields.valid_eq_iff hp fields none members h
      cases fields with
      | nil => simp [Fields.isEmpty, Fields.valid, Fields.Meets]
      | cons name kind rest => simpa [Fields.isEmpty] using hfields
    | _ => exact iff_of_true rfl trivial
  | .objectRest fields rest, v, h => by
    unfold Base.Everywhere at h
    unfold Base.valid Base.decodes Base.Meets
    cases v with
    | object members =>
      -- a declared member is the fields' affair, every other one is asked of `rest`
      have hrest : ∀ m ∈ members, (fields.has m.1 || Kind.valid pg rest m.2) =
          (fields.has m.1 || rest.decodes js m.2) ↔ (fields.has m.1 = false → Kind.Meets js p rest m.2) := by
        intro m hm
        cases hhas : fields.has m.1 with
        | true => exact iff_of_true rfl nofun
        | false =>
          rw [Bool.false_or, Bool.false_or, Kind.valid_eq_iff hp rest m.2 (h.2 m hm hhas)]
          exact ⟨fun hmeets _ => hmeets, fun hmeets => hmeets rfl⟩
      refine Iff.trans ?_ (and_eq_iff (Fields.valid_eq_iff hp fields none members h.1) (all_eq_iff hrest))
      show (if (!Fields.valid pg none fields members) = true then false else members.all _) =
        (fields.decode js none members && members.all _) ↔ _
      cases Fields.valid pg none fields members <;> exact Iff.rfl
    | _ => exact iff_of_true rfl trivial
  | .unionArms by_ arms, v, h => by
    unfold Base.Everywhere at h
    unfold Base.valid Base.decodes Base.Meets
    cases v with
    | object members =>
      dsimp only at h ⊢
      split
      next text htext =>
        rw [htext] at h
        exact Arms.valid_eq_iff hp arms by_ text members htext h
      next hnone =>
        -- without a tag no arm is entered, and both refuse
        exact iff_of_true (Arms.decode_untagged arms by_ members hnone).symm trivial
    | _ => exact iff_of_true rfl trivial
  | .unionOf of, v, h => by
    unfold Base.Everywhere at h
    unfold Base.valid Base.decodes Base.Meets
    exact Kinds.valid_eq_iff hp of v h
  | .record of, v, h => by
    unfold Base.Everywhere at h
    unfold Base.valid Base.decodes Base.Meets
    cases v with
    | object members => exact all_eq_iff fun m hm => Kind.valid_eq_iff hp of m.2 (h m hm)
    | _ => exact iff_of_true rfl trivial

theorem Fields.valid_eq_iff {p q : Scalar → Json → Prop}
    (hp : ∀ s v, q s v → (Scalar.Alike pg js s v ↔ p s v)) : (f : Fields) → (tag : Option String) →
    (members : List (String × Json)) → Fields.Everywhere q tag f members →
    (Fields.valid pg tag f members = f.decode js tag members ↔ Fields.Meets js p tag f members)
  | .nil, tag, members, _ => by
    unfold Fields.valid Fields.decode Fields.Meets
    exact iff_of_true rfl trivial
  | .cons name kind rest, tag, members, h => by
    unfold Fields.Everywhere at h
    have hrest := Fields.valid_eq_iff hp rest tag members h.2
    unfold Fields.valid Fields.decode Fields.Meets
    by_cases htag : tag == some name
    · rw [if_pos htag, if_pos htag, htag, Bool.true_or, Bool.true_and]
      exact hrest
    · have hkind : ∀ v, member members name = some v →
          (Kind.valid pg kind v = kind.decodes js v ↔ Kind.Meets js p kind v) :=
        fun v hv => Kind.valid_eq_iff hp kind v (h.1 (Bool.eq_false_iff.mpr htag) v hv)
      rw [if_neg htag, if_neg htag, Bool.eq_false_iff.mpr htag, Bool.false_or]
      cases hv : member members name with
      | none => cases hopen : kind.optional || kind.default <;> simp [hrest]
      | some v =>
        dsimp only
        cases hnull : v.isNull with
        | true =>
          -- a null is what an optional kind decodes, and what a required one never does
          have hopt : kind.optional → kind.decodes js v := Kind.decodes_null hnull
          cases ho : kind.optional <;> cases kind.default <;> simp_all
        | false =>
          rw [← and_eq_iff (hkind v hv) hrest, if_neg Bool.false_ne_true]
          cases Kind.valid pg kind v <;> cases kind.optional <;> cases kind.default <;> simp

theorem Arms.valid_eq_iff {p q : Scalar → Json → Prop}
    (hp : ∀ s v, q s v → (Scalar.Alike pg js s v ↔ p s v)) : (a : Arms) → (by_ text : String) → (members : List (String × Json)) →
    member members by_ = some (.string text) → Arms.Everywhere q by_ text a members →
    (Arms.valid pg by_ text a members = a.decode js by_ members ↔ Arms.Meets js p by_ text a members)
  | .nil, _, _, _, _, _ => by
    unfold Arms.valid Arms.decode Arms.Meets
    exact iff_of_true rfl trivial
  | .cons tag fields rest, by_, text, members, htag, h => by
    unfold Arms.Everywhere at h
    have hrest := Arms.valid_eq_iff hp rest by_ text members htag h.2
    have harm : (tag == text && Fields.valid pg (some by_) fields members) =
        (tag == text && fields.decode js (some by_) members) ↔
        ((tag == text) = true → Fields.Meets js p (some by_) fields members) := by
      cases hthis : tag == text with
      | false => exact iff_of_true rfl nofun
      | true =>
        rw [Bool.true_and, Bool.true_and, Fields.valid_eq_iff hp fields (some by_) members (h.1 hthis)]
        exact ⟨fun hmeets _ => hmeets, fun hmeets => hmeets rfl⟩
    unfold Arms.valid Arms.decode Arms.Meets
    rw [htag]
    dsimp only
    rw [BEq.comm (a := text)]
    exact or_eq_iff harm hrest

theorem Kinds.valid_eq_iff {p q : Scalar → Json → Prop}
    (hp : ∀ s v, q s v → (Scalar.Alike pg js s v ↔ p s v)) : (ks : Kinds) → (v : Json) → Kinds.Everywhere q ks v →
    (Kinds.valid pg ks v = ks.decode js v ↔ Kinds.Meets js p ks v)
  | .nil, v, _ => by
    unfold Kinds.valid Kinds.decode Kinds.Meets
    exact iff_of_true rfl trivial
  | .cons kind rest, v, h => by
    unfold Kinds.Everywhere at h
    unfold Kinds.valid Kinds.decode Kinds.Meets
    rw [← or_eq_iff (Kind.valid_eq_iff hp kind v h.1) (Kinds.valid_eq_iff hp rest v h.2)]
    cases Kind.valid pg kind v <;> rfl

end

/-- A text `toISOString` prints, of a year of four digits. -/
def canonicalInstant (s : String) : Bool :=
  fits utcShape s.toList && isPlainDate (String.ofList (s.toList.take 10)) &&
    isTime ((s.toList.drop 11).take 12)

/-- The year of a canonical text. -/
def instantYear (s : String) : Nat := digitsValue (s.toList.take 4)

/-- A canonical text parses to the instant it prints. -/
structure Js.Lawful (js : Js) : Prop where
  instantOf_canonical : ∀ s, canonicalInstant s → js.instantOf s = some s

/-- What PostgreSQL documents of `\s` and `timestamptz`: there is no year 0000, and canonical texts
are ordered as the instants they name. -/
structure Pg.Lawful (pg : Pg) : Prop where
  space_at : pg.space '@' = false
  timestamptz_zero : ∀ s, canonicalInstant s → instantYear s = 0 → pg.timestamptz s = none
  timestamptz_isSome : ∀ s, canonicalInstant s → instantYear s ≠ 0 → (pg.timestamptz s).isSome
  timestamptz_lt : ∀ s t a b, canonicalInstant s → canonicalInstant t →
    pg.timestamptz s = some a → pg.timestamptz t = some b → (a < b ↔ s < t)

/-- The texts of a value that stand where a scalar kind has an instant. -/
def Scalar.instants : Scalar → Json → List String
  | .instant, .string s => [s]
  | .instantPeriod, .object members =>
    (["start", "end"].filterMap (member members)).filterMap fun
      | .string s => some s
      | _ => none
  | _, _ => []

/-- Every text either side reads as an instant is canonical. -/
def Scalar.Canonical (pg : Pg) (js : Js) (s : Scalar) (v : Json) : Prop :=
  ∀ t ∈ Scalar.instants s v, (js.instantOf t).isSome ∨ pg.isInstant t → canonicalInstant t

/-- A member that is the text of a target. -/
def targeted (targets : List String) : Option Json → Bool
  | some (.string target) => targets.contains target
  | _ => false

/-- Where the two answers on a scalar agree: `collection` names a target as `model` does, a closed
period of instants has no end in the year 0000, and an address has white space in it for the
database when it has for JavaScript. -/
def Scalar.Agrees (pg : Pg) : Scalar → Json → Prop
  | .refs targets, .object members => isText (member members "id") →
    targeted targets (member members "collection") = targeted targets (member members "model")
  | .instantPeriod, .object members => ∀ a b, member members "start" = some (.string a) →
    member members "end" = some (.string b) → canonicalInstant a → canonicalInstant b → a < b →
    instantYear a ≠ 0 ∧ instantYear b ≠ 0
  | .text true max, .string s => max.all (fun m => decide ((utf16Length s : Rat) ≤ m)) →
    isEmail (fun _ => false) s → s.toList.any pg.space = s.toList.any Lib.isSpace
  | _, _ => True

end

theorem isWhole_eq_isSafeInteger (n : Rat) : isWhole n = isSafeInteger n := by
  have hint : ((trunc n : Rat) = n) ↔ n.den = 1 := by
    constructor
    · intro h
      rw [← h]
      exact Rat.den_intCast (trunc n)
    · intro h
      unfold trunc
      rw [h, Nat.cast_one, Int.tdiv_one]
      exact (Rat.den_eq_one_iff n).mp h
  unfold isWhole isSafeInteger
  rw [decide_eq_decide.mpr hint, ← decide_not]
  simp [Rat.isInt]
  rfl

theorem lengthValue_eq_utf16Length (s : String) : lengthValue s = utf16Length s := by
  unfold lengthValue utf16Length
  cases s.toList with
  | nil => rfl
  | cons c cs => simp [Function.comp_def]

theorem days_eq_daysInMonth {year month : Nat} (hlow : 1 ≤ month) (hhigh : month ≤ 12) :
    days year month = some (daysInMonth year month) := by
  have hleap : (year % 400 = 0 ∨ (year % 4 = 0 ∧ year % 100 ≠ 0)) ↔ leapYear year = true := by
    simp [leapYear]
    omega
  interval_cases month <;> simp [days, daysInMonth, hleap]

theorem isPlainDate_eq_validDateText (s : String) : isPlainDate s = validDateText s.toList := by
  unfold isPlainDate validDateText
  obtain ⟨year, month, day⟩ := dayParts s.toList
  dsimp only
  rw [Bool.and_assoc]
  congr 1
  by_cases hmonth : 1 ≤ month ∧ month ≤ 12
  · rw [days_eq_daysInMonth hmonth.1 hmonth.2]
    simp [hmonth]
  · rw [decide_eq_false hmonth, Bool.false_and]
    exact decide_eq_false fun h => hmonth ⟨h.1, h.2.1⟩

theorem calendarDay_of_isPlainDate {s : String} (h : isPlainDate s) : calendarDay s := by
  unfold isPlainDate at h
  unfold calendarDay dayOf
  revert h
  obtain ⟨year, month, day⟩ := dayParts s.toList
  intro h
  simp only [Bool.and_eq_true, decide_eq_true_eq] at h ⊢
  obtain ⟨hshape, hlow, hhigh, hday, hlast⟩ := h
  have h31 : daysInMonth year month ≤ 31 := by
    unfold daysInMonth
    split_ifs <;> decide
  rw [if_pos ⟨hlow, hhigh, hday, hlast.trans h31⟩, if_pos hlast]
  exact ⟨hshape, beq_self_eq_true _⟩

theorem dateValue_string (s : String) :
    dateValue (.string s) = if validDateText s.toList then some s else none := by
  show (if calendarDay s && isPlainDate s then some s else none) = _
  rw [← isPlainDate_eq_validDateText]
  by_cases h : isPlainDate s
  · rw [h, calendarDay_of_isPlainDate h, Bool.and_self]
  · rw [Bool.eq_false_iff.mpr h, Bool.and_false]
 
/-- The characters of an address. -/
theorem isEmail_iff (space : Char → Bool) (s : String) : isEmail space s ↔
    ∃ name host, s.toList = name ++ '@' :: host ∧ name ≠ [] ∧ host ≠ [] ∧
      ∀ c ∈ name ++ host, c ≠ '@' ∧ space c = false := by
  constructor
  · intro h
    unfold isEmail at h
    dsimp only at h
    split at h
    next host hdrop =>
      simp only [Bool.and_eq_true, Bool.not_eq_true', List.isEmpty_eq_false_iff,
        List.all_eq_true] at h
      obtain ⟨⟨hname, hhost⟩, hall⟩ := h
      refine ⟨_, host, ?_, hname, hhost, ?_⟩
      · rw [← hdrop, List.takeWhile_append_dropWhile]
      · intro c hc
        have hout : (c != '@' && !space c) = true := by
          obtain hc | hc := List.mem_append.mp hc
          · have htaken := List.mem_takeWhile_imp hc
            exact htaken
          · simpa using hall c hc
        simpa using hout
    next => exact absurd h Bool.false_ne_true
  · rintro ⟨name, host, hs, hname, hhost, hall⟩
    have hout : ∀ c ∈ name, (c != '@' && !space c) = true := fun c hc => by
      simpa using hall c (List.mem_append_left host hc)
    unfold isEmail
    dsimp only
    rw [hs, List.takeWhile_append_of_pos hout, List.dropWhile_append_of_pos hout]
    simp only [List.takeWhile_cons, List.dropWhile_cons, bne_self_eq_false, Bool.false_and,
      Bool.false_eq_true, if_false, List.append_nil, Bool.and_eq_true, Bool.not_eq_true',
      List.isEmpty_eq_false_iff, List.all_eq_true]
    exact ⟨⟨hname, hhost⟩, fun c hc => by simpa using hall c (List.mem_append_right name hc)⟩

/-- An address is a name and a host with no white space in them. -/
theorem isEmail_eq (space : Char → Bool) (hat : space '@' = false) (s : String) :
    isEmail space s = (isEmail (fun _ => false) s && !s.toList.any space) := by
  rw [Bool.eq_iff_iff, Bool.and_eq_true, isEmail_iff, isEmail_iff]
  constructor
  · rintro ⟨name, host, hs, hname, hhost, hall⟩
    refine ⟨⟨name, host, hs, hname, hhost, fun c hc => ⟨(hall c hc).1, rfl⟩⟩, ?_⟩
    rw [hs]
    simp only [Bool.not_eq_true', List.any_eq_false, List.mem_append, List.mem_cons]
    rintro c (hc | rfl | hc)
    · simp [(hall c (List.mem_append_left host hc)).2]
    · simp [hat]
    · simp [(hall c (List.mem_append_right name hc)).2]
  · rintro ⟨⟨name, host, hs, hname, hhost, hall⟩, hspace⟩
    refine ⟨name, host, hs, hname, hhost, fun c hc => ⟨(hall c hc).1, ?_⟩⟩
    rw [hs] at hspace
    simp only [Bool.not_eq_true', List.any_eq_false, List.mem_append, List.mem_cons] at hspace
    have hmem : c ∈ name ∨ c = '@' ∨ c ∈ host := by
      obtain hc | hc := List.mem_append.mp hc
      · exact .inl hc
      · exact .inr (.inr hc)
    simpa using hspace c hmem

section

variable {pg : Pg} {js : Js}

theorem canonicalInstant_eq (s : String) : canonicalInstant s =
    (fits utcShape s.toList && (validDateText (s.toList.take 10) && isTime ((s.toList.drop 11).take 12))) := by
  unfold canonicalInstant
  rw [isPlainDate_eq_validDateText, String.toList_ofList, Bool.and_assoc]

theorem fits_of_canonical {s : String} (h : canonicalInstant s) : fits utcShape s.toList := by
  rw [canonicalInstant_eq, Bool.and_eq_true] at h
  exact h.1

/-- On a text of a value with canonical instants, both sides accept the canonical ones. -/
theorem validInstantText_eq {s : String} (h : (js.instantOf s).isSome ∨ pg.isInstant s →
    canonicalInstant s) : validInstantText pg s = canonicalInstant s := by
  unfold validInstantText
  split_ifs with hshape
  · rw [canonicalInstant_eq, hshape, Bool.true_and]
  · have hnot : canonicalInstant s = false := by
      rw [Bool.eq_false_iff]
      exact fun hc => hshape (fits_of_canonical hc)
    rw [hnot, Bool.eq_false_iff]
    exact fun hi => Bool.eq_false_iff.mp hnot (h (.inr hi))

theorem instantValue_string (hjs : Js.Lawful js) {s : String}
    (h : (js.instantOf s).isSome ∨ pg.isInstant s → canonicalInstant s) :
    instantValue js (.string s) = if canonicalInstant s then some s else none := by
  show (js.instantOf s).filter _ = _
  split_ifs with hc
  · rw [hjs.instantOf_canonical s hc]
    exact Option.filter_some_pos (fits_of_canonical hc)
  · cases ho : js.instantOf s with
    | none => rfl
    | some utc => exact absurd (h (.inl (by rw [ho]; rfl))) hc

/-- A part of a period that both sides read as the same text, or neither reads. -/
def ReadAlike (valid : Option Json → Bool) (value : Json → Option String) (v : Json) : Prop :=
  (∃ s, v = .string s ∧ value v = some s ∧ valid (some v) = true) ∨
    (value v = none ∧ valid (some v) = false)

/-- Periods whose parts are read alike differ only in how a closed one is ordered. -/
theorem validPeriod_eq_iff {valid : Option Json → Bool} {value : Json → Option String}
    {start stop : String} {fromTo : String → String → Option Bool} {fromTo' : String → String → Bool}
    {members : List (String × Json)} (hnone : valid none = false)
    (hstart : ∀ v, member members start = some v → ReadAlike valid value v)
    (hstop : ∀ v, member members stop = some v → ReadAlike valid value v) :
    validPeriod valid start stop fromTo (.object members) =
        period value start stop fromTo' (.object members) ↔
      ∀ a b, member members start = some (.string a) → member members stop = some (.string b) →
        valid (some (.string a)) → valid (some (.string b)) →
        (fromTo a b).getD false = fromTo' a b := by
  unfold validPeriod period
  dsimp only
  cases hs : member members start with
  | none => simp [hnone]
  | some v =>
    obtain ⟨a, rfl, hvalue, hvalid⟩ | ⟨hvalue, hvalid⟩ := hstart v hs
    · rw [hvalid]
      simp only [Option.bind_some, hvalue, Bool.not_true, Bool.false_eq_true, if_false]
      cases ht : member members stop with
      | none => simp [openEnd]
      | some w =>
        by_cases hnull : w = .null
        · simp [hnull, openEnd]
        · have hopen : openEnd value (some w) = (value w).map some := by
            cases w <;> first | rfl | exact absurd rfl hnull
          obtain ⟨b, rfl, hvalue', hvalid'⟩ | ⟨hvalue', hvalid'⟩ := hstop w ht
          · simp [hopen, hvalue', hvalid', hvalid]
          · rw [hopen, hvalue']
            cases w <;> simp_all
    · rw [hvalid]
      simp only [Option.bind_some, hvalue, Bool.not_false, if_true, true_iff]
      rintro a b ⟨rfl⟩ - hvalid'
      exact absurd hvalid' (Bool.eq_false_iff.mp hvalid)

theorem readAlike_date (v : Json) : ReadAlike validDate dateValue v := by
  cases v with
  | string s =>
    unfold ReadAlike
    rw [dateValue_string]
    show (∃ t, _ ∧ _ ∧ validDateText s.toList = true) ∨ _ ∧ validDateText s.toList = false
    cases h : validDateText s.toList
    · exact .inr ⟨rfl, rfl⟩
    · exact .inl ⟨s, rfl, rfl, rfl⟩
  | _ => exact .inr ⟨rfl, rfl⟩

theorem readAlike_instant (hjs : Js.Lawful js) (v : Json)
    (h : ∀ s, v = .string s → (js.instantOf s).isSome ∨ pg.isInstant s → canonicalInstant s) :
    ReadAlike (validInstant pg) (instantValue js) v := by
  cases v with
  | string s =>
    have hs := h s rfl
    unfold ReadAlike
    rw [instantValue_string hjs hs]
    show (∃ t, _ ∧ _ ∧ validInstantText pg s = true) ∨ _ ∧ validInstantText pg s = false
    rw [validInstantText_eq hs]
    cases canonicalInstant s
    · exact .inr ⟨rfl, rfl⟩
    · exact .inl ⟨s, rfl, rfl, rfl⟩
  | _ => exact .inr ⟨rfl, rfl⟩

theorem ReadAlike.isSome {valid : Option Json → Bool} {value : Json → Option String} {v : Json}
    (h : ReadAlike valid value v) : valid (some v) = (value v).isSome := by
  obtain ⟨s, rfl, hvalue, hvalid⟩ | ⟨hvalue, hvalid⟩ := h
  · rw [hvalue, hvalid]
    rfl
  · rw [hvalue, hvalid]
    rfl

/-- The order of two canonical texts is the order of their `timestamptz`, but for the year 0000. -/
theorem timestamptz_order (hpg : pg.Lawful) {a b : String} (ha : canonicalInstant a)
    (hb : canonicalInstant b) :
    (do
      let a ← pg.timestamptz a
      let b ← pg.timestamptz b
      return decide (a < b) : Option Bool).getD false = decide (a < b) ↔
      (a < b → instantYear a ≠ 0 ∧ instantYear b ≠ 0) := by
  by_cases hza : instantYear a = 0
  · rw [hpg.timestamptz_zero a ha hza]
    simp [hza]
  · obtain ⟨x, hx⟩ := Option.isSome_iff_exists.mp (hpg.timestamptz_isSome a ha hza)
    by_cases hzb : instantYear b = 0
    · rw [hx, hpg.timestamptz_zero b hb hzb]
      simp [hzb]
    · obtain ⟨y, hy⟩ := Option.isSome_iff_exists.mp (hpg.timestamptz_isSome b hb hzb)
      have horder := hpg.timestamptz_lt a b x y ha hb hx hy
      rw [hx, hy]
      simp [hza, hzb, horder]

theorem isText_eq (v : Json) : isText (some v) = v.isString := by
  cases v <;> rfl

theorem validInt_eq (v : Json) : validInt (some v) = isInt v := by
  cases v with
  | number n => exact isWhole_eq_isSafeInteger n
  | _ => rfl

theorem validNumber_eq (v : Json) : validNumber (some v) = isFinite v := by
  cases v <;> rfl

theorem isText_member (v : Option Json) : isText v = v.any Json.isString := by
  cases v with
  | none => rfl
  | some v => exact isText_eq v

theorem validNumber_member (v : Option Json) : validNumber v = v.any isFinite := by
  cases v with
  | none => rfl
  | some v => exact validNumber_eq v

theorem Scalar.canonical_instantPeriod {members : List (String × Json)} {name : String} {v : Json}
    (h : Scalar.Canonical pg js .instantPeriod (.object members)) (hname : name ∈ ["start", "end"])
    (hv : member members name = some v) (s : String) (hs : v = .string s) :
    (js.instantOf s).isSome ∨ pg.isInstant s → canonicalInstant s := by
  refine h s (List.mem_filterMap.mpr ⟨v, List.mem_filterMap.mpr ⟨name, hname, hv⟩, ?_⟩)
  rw [hs]

/-- A closed period of instants: the branches differ in the year 0000 alone. -/
theorem Scalar.instantPeriod_alike_iff (hpg : pg.Lawful) (hjs : Js.Lawful js)
    {members : List (String × Json)}
    (h : Scalar.Canonical pg js .instantPeriod (.object members)) :
    Scalar.Alike pg js .instantPeriod (.object members) ↔
      Scalar.Agrees pg .instantPeriod (.object members) := by
  have hread : ∀ name ∈ ["start", "end"], ∀ v, member members name = some v →
      ReadAlike (validInstant pg) (instantValue js) v := fun name hname v hv =>
    readAlike_instant hjs v (Scalar.canonical_instantPeriod h hname hv)
  refine (validPeriod_eq_iff rfl (hread "start" (by decide)) (hread "end" (by decide))).trans ?_
  have hcanon : ∀ name ∈ ["start", "end"], ∀ s, member members name = some (.string s) →
      validInstant pg (some (.string s)) = canonicalInstant s := fun name hname s hs =>
    validInstantText_eq (Scalar.canonical_instantPeriod h hname hs s rfl)
  refine forall_congr' fun a => forall_congr' fun b => forall_congr' fun ha => forall_congr' fun hb => ?_
  rw [hcanon "start" (by decide) a ha, hcanon "end" (by decide) b hb]
  exact forall_congr' fun hca => forall_congr' fun hcb => timestamptz_order hpg hca hcb

theorem Scalar.text_alike_iff (hpg : pg.Lawful) (email : Bool) (max : Option Rat) (s : String) :
    Scalar.Alike pg js (.text email max) (.string s) ↔
      Scalar.Agrees pg (.text email max) (.string s) := by
  have hmax : max.any (fun m => decide ((lengthValue s : Rat) > m)) =
      !max.all fun m => decide ((utf16Length s : Rat) ≤ m) := by
    rw [lengthValue_eq_utf16Length]
    cases max with
    | none => rfl
    | some m =>
      show decide ((utf16Length s : Rat) > m) = !decide ((utf16Length s : Rat) ≤ m)
      rw [← decide_not, decide_eq_decide]
      exact not_le.symm
  unfold Scalar.Alike Scalar.valid Scalar.decodes
  dsimp only
  rw [hmax, isEmail_eq pg.space hpg.space_at, isEmail_eq Lib.isSpace (by decide)]
  cases email with
  | false =>
    unfold Scalar.Agrees
    cases max.all fun m => decide ((utf16Length s : Rat) ≤ m) <;> simp
  | true =>
    show _ ↔ (max.all (fun m => decide ((utf16Length s : Rat) ≤ m)) = true →
      isEmail (fun _ => false) s = true → _)
    cases max.all fun m => decide ((utf16Length s : Rat) ≤ m) <;>
      cases isEmail (fun _ => false) s <;> simp

theorem Scalar.refs_alike_iff (targets : List String) (members : List (String × Json)) :
    Scalar.Alike pg js (.refs targets) (.object members) ↔
      Scalar.Agrees pg (.refs targets) (.object members) := by
  show (targeted targets (member members "collection") && isText (member members "id")) =
      (targeted targets (member members "model") && (member members "id").any Json.isString) ↔
    (isText (member members "id") → _)
  rw [← isText_member]
  cases isText (member members "id") <;> simp

theorem decimal_alike (pg : Pg) (v : Json) : Scalar.valid pg .decimal v = decimalValue v := by
  cases v <;> rfl

/-- On canonical instants the scalar branches and the scalar codecs differ exactly where
`Scalar.Agrees` fails. -/
theorem Scalar.alike_iff (hpg : pg.Lawful) (hjs : Js.Lawful js) (s : Scalar) (v : Json)
    (h : Scalar.Canonical pg js s v) : Scalar.Alike pg js s v ↔ Scalar.Agrees pg s v := by
  -- only the first three kinds can disagree; of the others `Agrees` asks nothing
  cases s with
  | text email max =>
    cases v with
    | string s => exact Scalar.text_alike_iff hpg email max s
    | _ => cases email <;> exact iff_of_true rfl trivial
  | refs targets =>
    cases v with
    | object members => exact Scalar.refs_alike_iff targets members
    | _ => exact iff_of_true rfl trivial
  | instantPeriod =>
    cases v with
    | object members => exact Scalar.instantPeriod_alike_iff hpg hjs h
    | _ => exact iff_of_true rfl trivial
  | datePeriod =>
    refine iff_of_true ?_ (by cases v <;> trivial)
    cases v with
    | object members =>
      exact (validPeriod_eq_iff rfl (fun v _ => readAlike_date v) (fun v _ => readAlike_date v)).mpr
        fun a b _ _ _ _ => rfl
    | _ => rfl
  | date => exact iff_of_true (readAlike_date v).isSome (by cases v <;> trivial)
  | instant =>
    refine iff_of_true (readAlike_instant hjs v fun s hs => ?_).isSome (by cases v <;> trivial)
    rw [hs] at h
    exact h s (List.mem_singleton_self s)
  | int min max =>
    refine iff_of_true ?_ (by cases v <;> trivial)
    cases v with
    | number n => exact congrArg (· && inRange min max n) (isWhole_eq_isSafeInteger n)
    | _ => rfl
  | count =>
    refine iff_of_true ?_ (by cases v <;> trivial)
    cases v with
    | number n =>
      show (isWhole n && !decide (n < 0)) = (isSafeInteger n && decide (0 ≤ n))
      rw [isWhole_eq_isSafeInteger, ← decide_not, decide_eq_decide.mpr not_lt]
    | _ => rfl
  | duration => exact iff_of_true (validInt_eq v) (by cases v <;> trivial)
  | seq pattern =>
    refine iff_of_true ?_ (by cases v <;> trivial)
    cases pattern with
    | true => exact isText_eq v
    | false => exact validInt_eq v
  | currency => exact iff_of_true (isText_eq v) (by cases v <;> trivial)
  | ref target => exact iff_of_true (isText_eq v) (by cases v <;> trivial)
  | file =>
    refine iff_of_true ?_ (by cases v <;> trivial)
    cases v with
    | object members =>
      show (["id", "name", "mime"].all (fun name => isText (member members name)) && _) = (_ && _)
      simp only [isText_member]
      congr 1
      cases member members "size" with
      | none => rfl
      | some size => exact validInt_eq size
    | _ => rfl
  | point =>
    refine iff_of_true ?_ (by cases v <;> trivial)
    cases v with
    | object members =>
      show (validNumber _ && validNumber _) = _
      rw [validNumber_member, validNumber_member]
      rfl
    | _ => rfl
  | vector dim =>
    refine iff_of_true ?_ (by cases v <;> trivial)
    cases v with
    | array items =>
      exact congrArg (decide (items.length = dim) && ·) (all_congr fun item _ => validNumber_eq item)
    | _ => rfl
  | decimal => exact iff_of_true (decimal_alike pg v) (by cases v <;> trivial)
  | money => exact iff_of_true (decimal_alike pg v) (by cases v <;> trivial)
  | sum => exact iff_of_true (decimal_alike pg v) (by cases v <;> trivial)
  | number min max => exact iff_of_true (by cases v <;> rfl) (by cases v <;> trivial)
  | bool => exact iff_of_true (by cases v <;> rfl) (by cases v <;> trivial)
  | time => exact iff_of_true (by cases v <;> rfl) (by cases v <;> trivial)
  | enum values => exact iff_of_true (by cases v <;> rfl) (by cases v <;> trivial)
  | state states => exact iff_of_true (by cases v <;> rfl) (by cases v <;> trivial)
  | id => exact iff_of_true (by cases v <;> rfl) (by cases v <;> trivial)

/-- On a value whose instants are canonical the validator answers as the codec exactly where their
walks meet. -/
theorem store_json_valid_eq_decodes (hpg : pg.Lawful) (hjs : Js.Lawful js) (k : Kind) (v : Json)
    (hcanon : Kind.Everywhere (Scalar.Canonical pg js) k v) :
    Kind.valid pg k v = k.decodes js v ↔ Kind.Meets js (Scalar.Agrees pg) k v :=
  Kind.valid_eq_iff (Scalar.alike_iff hpg hjs) k v hcanon

end

/-- The characters of a text as the digits of one number. -/
def position (n : Int) (cs : List Char) : Int := cs.foldl (fun n c => 2 ^ 32 * n + (c.toNat : Int)) n

theorem position_lt (l l' : List Char) (hlen : l.length = l'.length) (m n : Int) :
    position m l < position n l' ↔ m < n ∨ m = n ∧ l < l' := by
  induction l generalizing l' m n with
  | nil =>
    obtain rfl : l' = [] := List.length_eq_zero_iff.mp hlen.symm
    simp [position]
  | cons c l ih =>
    cases l' with
    | nil => simp at hlen
    | cons c' l' =>
      show position (2 ^ 32 * m + (c.toNat : Int)) l < position (2 ^ 32 * n + (c'.toNat : Int)) l' ↔ _
      rw [ih l' (by simpa using hlen), List.cons_lt_cons_iff]
      have hc : (c.toNat : Int) < 2 ^ 32 := by exact_mod_cast c.val.toNat_lt
      have hc' : (c'.toNat : Int) < 2 ^ 32 := by exact_mod_cast c'.val.toNat_lt
      have hlt : c < c' ↔ c.toNat < c'.toNat := Iff.rfl
      have heq : c = c' ↔ c.toNat = c'.toNat := ⟨congrArg _, fun h => Char.toNat_inj.mp h⟩
      rw [hlt, heq]
      by_cases hl : l < l'
      · simp only [hl, and_true]
        omega
      · simp only [hl, and_false, or_false]
        omega

/-- PostgreSQL in the C locale, where only ASCII has white space; the canonical form is the only one
it is asked about. -/
def Pg.cLocale : Pg where
  space c := c == ' ' || (9 ≤ c.toNat && c.toNat ≤ 13)
  isInstant _ := false
  timestamptz s := if canonicalInstant s && instantYear s != 0 then some (position 0 s.toList) else none

/-- JavaScript asked about canonical instants only. -/
def Js.canonical : Js where
  instantOf s := if canonicalInstant s then some s else none

theorem Js.lawful_canonical : Js.Lawful Js.canonical where
  instantOf_canonical _ h := if_pos h

theorem Pg.lawful_cLocale : Pg.cLocale.Lawful where
  space_at := by decide
  timestamptz_zero s _ h := by simp [Pg.cLocale, h]
  timestamptz_isSome s h h' := by simp [Pg.cLocale, h, h']
  timestamptz_lt s t a b hs ht ha hb := by
    simp only [Pg.cLocale, Option.ite_none_right_eq_some, Option.some.injEq] at ha hb
    have hlen : s.toList.length = t.toList.length :=
      (length_of_fits _ _ (fits_of_canonical hs)).trans (length_of_fits _ _ (fits_of_canonical ht)).symm
    rw [← ha.2, ← hb.2]
    rw [position_lt s.toList t.toList hlen]
    show (_ ∨ 0 = 0 ∧ _) ↔ s.toList < t.toList
    simp

/-- Every text the two read as an instant is canonical here. -/
theorem Scalar.canonical_cLocale (s : Scalar) (v : Json) :
    Scalar.Canonical Pg.cLocale Js.canonical s v := by
  rintro t - (h | h)
  · by_contra hc
    simp [Js.canonical, hc] at h
  · exact absurd h Bool.false_ne_true

/-- A task with an owner of one of two models, an optional address and a time it is due. -/
def taskKind : Kind :=
  .mk false false false (.object
    (.cons "owner" (.mk false false false (.scalar (.refs ["user", "team"])))
    (.cons "notify" (.mk true false false (.scalar (.text true (some 100))))
    (.cons "due" (.mk false false false (.scalar .instant)) .nil))))

def taskValue : Json :=
  .object [("owner", .object [("collection", .string "team"), ("model", .string "user"),
    ("id", .string "7")]), ("due", .string "2024-02-29T10:00:00.000Z")]

/-- A polymorphic reference as the codec and the wire write it. -/
def ownerKind : Kind := .mk false false false (.scalar (.refs ["user", "team"]))

def ownerValue : Json := .object [("model", .string "user"), ("id", .string "7")]

/-- The owner as the codec writes it, and an address that is none. -/
def refusedTask : Json :=
  .object [("owner", .object [("model", .string "user"), ("id", .string "7")]),
    ("notify", .string "nobody"), ("due", .string "2024-02-29T10:00:00.000Z")]

/-- One task is accepted by both; of the other the database refuses the owner, and the codec goes on
and refuses the address. -/
theorem task_valid : (Kind.valid Pg.cLocale taskKind taskValue = true ∧
      Kind.valid Pg.cLocale taskKind taskValue = taskKind.decodes Js.canonical taskValue) ∧
    Kind.valid Pg.cLocale ownerKind ownerValue = false ∧
    Kind.valid Pg.cLocale taskKind refusedTask = taskKind.decodes Js.canonical refusedTask := by
  have hcanon : ∀ v ∈ [taskValue, refusedTask],
      Kind.Everywhere (Scalar.Canonical Pg.cLocale Js.canonical) taskKind v := by
    simp [taskKind, taskValue, refusedTask, Kind.Everywhere, Base.Everywhere, Fields.Everywhere,
      Scalar.canonical_cLocale]
  have hmeets := fun v (hv : v ∈ [taskValue, refusedTask]) =>
    (store_json_valid_eq_decodes Pg.lawful_cLocale Js.lawful_canonical taskKind v (hcanon v hv)).2
  refine ⟨⟨by decide, hmeets taskValue (by simp) ?_⟩, by decide, hmeets refusedTask (by simp) ?_⟩
  · simp only [taskKind, taskValue, Kind.Meets, Base.Meets, Fields.Meets]
    simp only [member, List.lookup_cons, Json.isNull, Scalar.Agrees, targeted]
    exact AndThen.of_both (fun _ => by decide) fun _ => AndThen.of_both trivial trivial
  · refine .inr ⟨?_, ?_⟩
    · simp [Kind.Meets, Base.Meets, Json.isNull, member, List.lookup_cons, Scalar.Agrees, targeted, isText]
    · rw [if_pos (by decide)]
      decide

/-- The database refuses a reference the codec decodes: it looks for `collection`. -/
theorem owner_refused : Kind.Everywhere (Scalar.Canonical Pg.cLocale Js.canonical) ownerKind ownerValue ∧
    ownerKind.decodes Js.canonical ownerValue = true ∧
    Kind.valid Pg.cLocale ownerKind ownerValue = false := by
  refine ⟨?_, by decide, by decide⟩
  simp [ownerKind, ownerValue, Kind.Everywhere, Base.Everywhere, Scalar.canonical_cLocale]

end Norbital.Store.Schema

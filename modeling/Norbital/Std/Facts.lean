import Norbital.Lib.Entries
import Norbital.Std.Decimal
import Norbital.Std.Kind

/-!
# Declared facts

The keys an administrator declares for a record, checked once (`facts`, `std/src/facts.ts`), and the check of a
record's values against them (`validateFacts`).  The record of the defaults passes, but for two kinds of fact: one
required, where the record is to be complete, and one named as a member that every object inherits.
-/

namespace Norbital.Std.Facts

open Lib (trimmed)

inductive FactType where
  | boolean
  | number
  | string
  deriving DecidableEq

def FactType.word : FactType → String
  | .boolean => "boolean"
  | .number => "number"
  | .string => "string"

/-- What a default or an option may be. -/
inductive Fact where
  | boolean (b : Bool)
  | number (n : Rat)
  | string (s : String)
  deriving DecidableEq

structure FactSpec where
  key : String
  type : FactType
  label : Option String := none
  required : Option Bool := none
  default_value : Option Fact := none
  options : Option (List Fact) := none
  minimum : Option Rat := none
  maximum : Option Rat := none
  integer : Option Bool := none
  min_length : Option Rat := none

/-- What a record may hold under a key.  Of an object (an array among them), a function, a `bigint` or a symbol the
code sees the `typeof` alone. -/
inductive Value where
  | undefined
  | null
  | boolean (b : Bool)
  | number (n : Rat)
  /-- `NaN` or an infinity. -/
  | notFinite
  | string (s : String)
  | object
  | function
  | bigint
  | symbol
  deriving DecidableEq

def Fact.value : Fact → Value
  | .boolean b => .boolean b
  | .number n => .number n
  | .string s => .string s

/-- The members of `Object.prototype`. -/
def prototype : List (String × Value) :=
  ["constructor", "__defineGetter__", "__defineSetter__", "hasOwnProperty", "__lookupGetter__", "__lookupSetter__",
    "isPrototypeOf", "propertyIsEnumerable", "toString", "valueOf", "toLocaleString"].map (·, .function) ++
  [("__proto__", .object)]

/-- `values[key]`. -/
def valueAt (values : List (String × Value)) (key : String) : Value :=
  ((values.lookup key).or (prototype.lookup key)).getD .undefined

namespace Value

def typeof : Value → String
  | .undefined => "undefined"
  | .null => "object"
  | .boolean _ => "boolean"
  | .number _ => "number"
  | .notFinite => "number"
  | .string _ => "string"
  | .object => "object"
  | .function => "function"
  | .bigint => "bigint"
  | .symbol => "symbol"

/-- A test of a finite number, false of any other value. -/
def isNumber (p : Rat → Bool) : Value → Bool
  | .number n => p n
  | _ => false

def isString (p : String → Bool) : Value → Bool
  | .string s => p s
  | _ => false

end Value

/-- `s.label?.trim() || s.key`. -/
def nameOf (s : FactSpec) : String :=
  match s.label.map trimmed with
  | none => s.key
  | some name => if name = "" then s.key else name

variable (num : Rat → String)

/-- How a value is written in a message; `num` writes a number. -/
def Fact.text : Fact → String
  | .boolean b => if b then "true" else "false"
  | .number n => num n
  | .string s => s

def numText : Option Rat → String
  | none => "undefined"
  | some n => num n

/-- `VALUE`.  The tests of a number's bounds come after the one that it is finite. -/
def valueChecks : List ((FactSpec → Value → Bool) × (String → FactSpec → Value → String)) := [
  (fun s v => v.typeof != s.type.word,
    fun name s v => name ++ " must be a " ++ s.type.word ++ "; this value is a " ++ v.typeof ++ "."),
  (fun _ v => v == .notFinite, fun name _ _ => name ++ " must be finite."),
  (fun s v => v.isNumber fun n => s.integer == some true && !n.isInt,
    fun name _ _ => name ++ " must be a whole number."),
  (fun s v => v.isNumber fun n => s.minimum.any fun m => decide (n < m),
    fun name s _ => name ++ " must be at least " ++ numText num s.minimum ++ "."),
  (fun s v => v.isNumber fun n => s.maximum.any fun m => decide (n > m),
    fun name s _ => name ++ " must be at most " ++ numText num s.maximum ++ "."),
  (fun s v => v.isString fun t => s.min_length.any fun m => decide ((utf16Length (trimmed t) : Rat) < m),
    fun name s _ => name ++ " must contain at least " ++ numText num s.min_length ++ " characters."),
  (fun s v => s.options.any fun options => !options.any fun o => o.value == v,
    fun name s _ => name ++ " must be one of: " ++ ", ".intercalate ((s.options.getD []).map (Fact.text num)) ++ ".")]

def valueFault (s : FactSpec) (v : Value) : Option String :=
  ((valueChecks num).find? fun check => check.1 s v).map fun check => check.2 (nameOf s) s v

/-- `/^[A-Za-z_][A-Za-z0-9_]*$/`. -/
def isKey (key : String) : Bool :=
  match key.toList with
  | [] => false
  | c :: cs => (c.isAlpha || c == '_') && cs.all fun c => c.isAlphanum || c == '_'

/-- `DECLARATION`. -/
def declarationChecks : List ((FactSpec → List String → Bool) × String) := [
  (fun s _ => !isKey s.key, "a key is a letter or underscore, then letters, digits or underscores"),
  (fun s seen => seen.contains s.key, "each key is declared once"),
  (fun s _ => s.type != .number && (s.minimum.isSome || s.maximum.isSome || s.integer.isSome),
    "numeric constraints require a number fact"),
  (fun s _ => s.type != .string && s.min_length.isSome, "a minimum length requires a string fact"),
  (fun s _ => s.minimum.any fun low => s.maximum.any fun high => decide (low > high),
    "the minimum exceeds the maximum"),
  (fun s _ => s.required == some true && s.default_value.isSome, "a fact is required or has a default, not both"),
  (fun s _ => s.options.any fun options => options.isEmpty || !decide options.Nodup, "options are nonempty and unique")]

/-- The first fault of one declaration, after those of the keys `seen`. -/
def declarationFault (seen : List String) (s : FactSpec) : Option String :=
  (((declarationChecks.find? fun check => check.1 s seen).map (·.2)).or
    (s.options.bind fun options =>
      options.findSome? fun o => valueFault num { s with options := none } o.value)).or
    (s.default_value.bind fun d => valueFault num s d.value)

/-- The loop of `facts`. -/
def factsFrom : List String → List FactSpec → Except String Unit
  | _, [] => .ok ()
  | seen, s :: ss =>
    match declarationFault num seen s with
    | some fault => .error (s.key ++ ": " ++ fault)
    | none => factsFrom (s.key :: seen) ss

def facts (specs : List FactSpec) : Except String (List FactSpec) := (factsFrom num [] specs).map fun _ => specs

/-- Undefined, null or a text of blanks. -/
def isBlank : Value → Bool
  | .undefined => true
  | .null => true
  | .string s => trimmed s == ""
  | _ => false

/-- The fault of the value under one declared key. -/
def specFault (values : List (String × Value)) (complete : Bool) (s : FactSpec) : Option String :=
  let v := valueAt values s.key
  if isBlank v then if complete && s.required == some true then some (nameOf s ++ " is required.") else none
  else valueFault num s v

def validateFacts (specs : List FactSpec) (values : List (String × Value)) (complete : Bool) : Option String :=
  match values.find? fun entry => !specs.any fun s => s.key == entry.1 with
  | some entry => some (entry.1 ++ " is not a declared fact.")
  | none => specs.findSome? (specFault num values complete)

variable {num}

theorem validateFacts_eq_none {specs : List FactSpec} {values : List (String × Value)} {complete : Bool} :
    validateFacts num specs values complete = none ↔
      (∀ entry ∈ values, ∃ s ∈ specs, s.key = entry.1) ∧ ∀ s ∈ specs, specFault num values complete s = none := by
  have hkeys : (values.find? fun entry => !specs.any fun s => s.key == entry.1) = none ↔
      ∀ entry ∈ values, ∃ s ∈ specs, s.key = entry.1 := by
    simp only [List.find?_eq_none, Bool.not_eq_true', Bool.not_eq_false, List.any_eq_true, beq_iff_eq]
  rw [← hkeys, validateFacts]
  cases values.find? fun entry => !specs.any fun s => s.key == entry.1 with
  | some entry => simp
  | none => simp [List.findSome?_eq_none_iff]

/-- A value within the constraints of its declaration. -/
structure Fits (s : FactSpec) (v : Value) : Prop where
  typed : v.typeof = s.type.word
  finite : v ≠ .notFinite
  whole : s.integer = some true → ∀ n, v = .number n → n.isInt
  least : ∀ m, s.minimum = some m → ∀ n, v = .number n → m ≤ n
  most : ∀ m, s.maximum = some m → ∀ n, v = .number n → n ≤ m
  long : ∀ m, s.min_length = some m → ∀ t, v = .string t → m ≤ utf16Length (trimmed t)
  listed : ∀ options, s.options = some options → ∃ o ∈ options, o.value = v

theorem isNumber_eq_false {v : Value} {p : Rat → Bool} :
    v.isNumber p = false ↔ ∀ n, v = .number n → p n = false := by
  cases v <;> simp [Value.isNumber]

theorem isString_eq_false {v : Value} {p : String → Bool} :
    v.isString p = false ↔ ∀ t, v = .string t → p t = false := by
  cases v <;> simp [Value.isString]

theorem valueFault_eq_none {s : FactSpec} {v : Value} : valueFault num s v = none ↔ Fits s v := by
  rw [valueFault, Option.map_eq_none_iff, List.find?_eq_none]
  simp only [valueChecks, List.forall_mem_cons, Bool.not_eq_true, isNumber_eq_false, isString_eq_false,
    Option.any_eq_false, decide_eq_false_iff_not, gt_iff_lt, not_lt, bne_eq_false_iff_eq, Bool.and_eq_false_imp,
    beq_iff_eq, beq_eq_false_iff_ne, Bool.not_eq_false', List.any_eq_true]
  constructor
  · rintro ⟨htyped, hfinite, hwhole, hleast, hmost, hlong, hlisted, -⟩
    exact ⟨htyped, hfinite, fun hinteger n hv => hwhole n hv hinteger, fun m hm n hv => hleast n hv m hm,
      fun m hm n hv => hmost n hv m hm, fun m hm t hv => hlong t hv m hm, hlisted⟩
  · intro h
    exact ⟨h.typed, h.finite, fun n hv hinteger => h.whole hinteger n hv, fun n hv m hm => h.least m hm n hv,
      fun n hv m hm => h.most m hm n hv, fun t hv m hm => h.long m hm t hv, h.listed, fun _ hmem => by cases hmem⟩

/-- What may stand under a declared key: nothing, but for a required fact of a complete record, or a value that fits. -/
def Allowed (complete : Bool) (s : FactSpec) (v : Value) : Prop :=
  if isBlank v then ¬ (complete = true ∧ s.required = some true) else Fits s v

theorem specFault_eq_none {values : List (String × Value)} {complete : Bool} {s : FactSpec} :
    specFault num values complete s = none ↔ Allowed complete s (valueAt values s.key) := by
  rw [specFault, Allowed]
  cases isBlank (valueAt values s.key) with
  | true => simp
  | false => simp [valueFault_eq_none]

/-- What holds of a declaration that is accepted. -/
structure Declared (num : Rat → String) (seen : List String) (s : FactSpec) : Prop where
  isKey : isKey s.key
  once : s.key ∉ seen
  notBoth : ∀ d, s.default_value = some d → s.required ≠ some true
  default_passes : ∀ d, s.default_value = some d → valueFault num s d.value = none

theorem declared_of_fault {seen : List String} {s : FactSpec} (h : declarationFault num seen s = none) :
    Declared num seen s := by
  rw [declarationFault, Option.or_eq_none_iff, Option.or_eq_none_iff, Option.map_eq_none_iff,
    List.find?_eq_none] at h
  obtain ⟨⟨hchecks, -⟩, hdefault⟩ := h
  simp only [declarationChecks, List.forall_mem_cons] at hchecks
  obtain ⟨hkey, honce, -, -, -, hboth, -⟩ := hchecks
  refine ⟨by simpa using hkey, by simpa using honce, ?_, ?_⟩
  · intro d hd hrequired
    simp [hd, hrequired] at hboth
  · intro d hd
    rwa [hd] at hdefault

theorem declared_of_factsFrom {specs : List FactSpec} {seen : List String} (h : factsFrom num seen specs = .ok ()) :
    (specs.map FactSpec.key).Nodup ∧ ∀ s ∈ specs, s.key ∉ seen ∧ ∃ seen', Declared num seen' s := by
  induction specs generalizing seen with
  | nil => simp
  | cons s ss ih =>
    rw [factsFrom] at h
    cases hfault : declarationFault num seen s with
    | some fault => simp [hfault] at h
    | none =>
      rw [hfault] at h
      have hs := declared_of_fault hfault
      obtain ⟨hnodup, hss⟩ := ih h
      refine ⟨List.nodup_cons.mpr ⟨?_, hnodup⟩, List.forall_mem_cons.mpr ⟨⟨hs.once, seen, hs⟩, ?_⟩⟩
      · rintro hmem
        obtain ⟨t, ht, hkey⟩ := List.mem_map.mp hmem
        exact (hss t ht).1 (hkey ▸ List.mem_cons_self)
      · intro t ht
        exact ⟨fun hseen => (hss t ht).1 (List.mem_cons_of_mem _ hseen), (hss t ht).2⟩

theorem declared_of_facts {specs : List FactSpec} (h : facts num specs = .ok specs) :
    (specs.map FactSpec.key).Nodup ∧ ∀ s ∈ specs, s.key ∉ ([] : List String) ∧ ∃ seen, Declared num seen s := by
  refine declared_of_factsFrom ?_
  unfold facts at h
  cases hfrom : factsFrom num [] specs with
  | error e => simp [hfrom, Except.map] at h
  | ok u => rfl

/-- Each fact with its default, where it has one. -/
def defaults (specs : List FactSpec) : List (String × Value) :=
  specs.filterMap fun s => s.default_value.map fun d => (s.key, d.value)

theorem lookup_defaults_of_not_mem {specs : List FactSpec} {key : String} (hkey : key ∉ specs.map FactSpec.key) :
    (defaults specs).lookup key = none := by
  rw [defaults, List.lookup_eq_none_iff]
  rintro ⟨k, v⟩ hmem
  obtain ⟨s, hs, hpair⟩ := List.mem_filterMap.mp hmem
  obtain ⟨d, -, hd⟩ := Option.map_eq_some_iff.mp hpair
  obtain ⟨rfl, -⟩ := Prod.mk.inj hd
  simpa using fun heq : key = s.key => hkey (heq ▸ List.mem_map_of_mem hs)

theorem lookup_defaults {specs : List FactSpec} (hkeys : (specs.map FactSpec.key).Nodup) {s : FactSpec}
    (hs : s ∈ specs) : (defaults specs).lookup s.key = s.default_value.map Fact.value := by
  induction specs with
  | nil => cases hs
  | cons t ts ih =>
    rw [List.map_cons, List.nodup_cons] at hkeys
    obtain rfl | hs := List.mem_cons.mp hs
    · cases hd : s.default_value with
      | none =>
        simp only [defaults, List.filterMap_cons, hd, Option.map_none]
        exact lookup_defaults_of_not_mem hkeys.1
      | some d => simp [defaults, hd]
    · have hne : (s.key == t.key) = false := by
        simpa using fun heq : s.key = t.key => hkeys.1 (heq ▸ List.mem_map_of_mem hs)
      rw [← ih hkeys.2 hs]
      cases hd : t.default_value with
      | none => simp [defaults, hd]
      | some d => simp [defaults, hd, List.lookup_cons, hne]

/-- What objects inherit is no value of a fact. -/
theorem not_allowed_inherited {key : String} {v : Value} (h : prototype.lookup key = some v) (complete : Bool) (s : FactSpec) :
    ¬ Allowed complete s v := by
  have hkind : ∀ entry ∈ prototype, entry.2 = .function ∨ entry.2 = .object := by decide
  rintro hallowed
  obtain rfl | rfl := hkind _ (Norbital.Lib.mem_of_lookup h)
  all_goals
    have htyped : _ = s.type.word := Fits.typed hallowed
    cases htype : s.type <;> simp [htype, FactType.word, Value.typeof] at htyped

theorem allowed_undefined {complete : Bool} {s : FactSpec} :
    Allowed complete s .undefined ↔ ¬ (complete = true ∧ s.required = some true) := Iff.rfl

/-- A key that the record leaves out. -/
theorem allowed_missing {key : String} {complete : Bool} {s : FactSpec} :
    Allowed complete s ((prototype.lookup key).getD .undefined) ↔
      prototype.lookup key = none ∧ ¬ (complete = true ∧ s.required = some true) := by
  cases hproto : prototype.lookup key with
  | none => simp [allowed_undefined]
  | some v => simp [not_allowed_inherited hproto complete s]

/-- The defaults pass for each fact but those without one that are required of a complete record, or are named as
what objects inherit. -/
theorem specFault_defaults {specs : List FactSpec} (hkeys : (specs.map FactSpec.key).Nodup) {complete : Bool}
    {s : FactSpec} (hs : s ∈ specs) {seen : List String} (hdeclared : Declared num seen s) :
    specFault num (defaults specs) complete s = none ↔
      (s.default_value = none → prototype.lookup s.key = none ∧ ¬ (complete = true ∧ s.required = some true)) := by
  rw [specFault_eq_none, valueAt, lookup_defaults hkeys hs]
  cases hd : s.default_value with
  | some d =>
    refine iff_of_true ?_ (by simp)
    have hrequired := hdeclared.notBoth d hd
    have hpasses := valueFault_eq_none.mp (hdeclared.default_passes d hd)
    rw [Option.map_some, Option.some_or, Option.getD_some, Allowed]
    split_ifs
    · exact fun h => hrequired h.2
    · exact hpasses
  | none => simp only [Option.map_none, Option.none_or, allowed_missing, forall_const]

/-- The record of the defaults is accepted just where every fact without one may be left out. -/
theorem defaults_accepted {specs : List FactSpec} (h : facts num specs = .ok specs) (complete : Bool) :
    validateFacts num specs (defaults specs) complete = none ↔
      ∀ s ∈ specs, s.default_value = none →
        prototype.lookup s.key = none ∧ ¬ (complete = true ∧ s.required = some true) := by
  obtain ⟨hkeys, hdeclared⟩ := declared_of_facts h
  rw [validateFacts_eq_none]
  have hknown : ∀ entry ∈ defaults specs, ∃ s ∈ specs, s.key = entry.1 := by
    rintro ⟨k, v⟩ hmem
    obtain ⟨s, hs, hpair⟩ := List.mem_filterMap.mp hmem
    obtain ⟨d, -, hd⟩ := Option.map_eq_some_iff.mp hpair
    exact ⟨s, hs, (Prod.mk.inj hd).1⟩
  constructor
  · rintro ⟨-, hfaults⟩ s hs
    obtain ⟨-, seen, hseen⟩ := hdeclared s hs
    exact (specFault_defaults hkeys hs hseen).mp (hfaults s hs)
  · intro hall
    refine ⟨hknown, fun s hs => ?_⟩
    obtain ⟨-, seen, hseen⟩ := hdeclared s hs
    exact (specFault_defaults hkeys hs hseen).mpr (hall s hs)

def wholeText (n : Rat) : String := toString n.num

/-- A residence: whether in the country, with how many dependants, and of which status. -/
def residence : List FactSpec := [
  { key := "resident", type := .boolean, default_value := some (.boolean true) },
  { key := "dependants", type := .number, default_value := some (.number 0), integer := some true, minimum := some 0 },
  { key := "status", type := .string, required := some true, options := some [.string "K0", .string "K1"] }]

theorem defaults_accepted_residence : validateFacts wholeText residence (defaults residence) false = none :=
  (defaults_accepted rfl false).mpr (by decide)

theorem valueAt_put (values : List (String × Value)) (key k : String) (v : Value) :
    valueAt (Norbital.Lib.put key v values) k = if k == key then v else valueAt values k := by
  rw [valueAt, Norbital.Lib.lookup_put]
  cases k == key <;> rfl

theorem valueAt_without (values : List (String × Value)) (key k : String) :
    valueAt (Norbital.Lib.without key values) k =
      if k == key then (prototype.lookup k).getD .undefined else valueAt values k := by
  rw [valueAt, Norbital.Lib.lookup_without]
  cases k == key <;> rfl

/-- The facts of a record are judged apart: of a record without a fault, one fact can be set to what it allows, and to
nothing else; and it can be left out where nothing is required, and objects inherit nothing under its key. -/
theorem facts_apart {specs : List FactSpec} (h : facts num specs = .ok specs) {values : List (String × Value)}
    {complete : Bool} (hvalues : validateFacts num specs values complete = none) :
    (∀ key v, validateFacts num specs (Norbital.Lib.put key v values) complete = none ↔
      ∃ s ∈ specs, s.key = key ∧ Allowed complete s v) ∧
    ∀ key, validateFacts num specs (Norbital.Lib.without key values) complete = none ↔
      ∀ s ∈ specs, s.key = key → prototype.lookup key = none ∧ ¬ (complete = true ∧ s.required = some true) := by
  obtain ⟨hkeys, -⟩ := declared_of_facts h
  rw [validateFacts_eq_none] at hvalues
  obtain ⟨hknown, hfits⟩ := hvalues
  simp only [specFault_eq_none] at hfits
  refine ⟨fun key v => ?_, fun key => ?_⟩
  · rw [validateFacts_eq_none]
    simp only [specFault_eq_none, valueAt_put]
    constructor
    · rintro ⟨hdeclared, hallowed⟩
      -- the record has the key now, so it is declared
      have hmem : key ∈ (Norbital.Lib.put key v values).map Prod.fst := by
        rw [Norbital.Lib.put_fst]
        split_ifs with hthere
        · exact hthere
        · exact List.mem_append_right _ List.mem_cons_self
      obtain ⟨entry, hentry, rfl⟩ := List.mem_map.mp hmem
      obtain ⟨s, hs, hkey⟩ := hdeclared entry hentry
      have hs' := hallowed s hs
      rw [hkey, beq_self_eq_true, if_pos rfl] at hs'
      exact ⟨s, hs, hkey, hs'⟩
    · rintro ⟨s, hs, rfl, hv⟩
      refine ⟨fun entry hentry => ?_, fun t ht => ?_⟩
      · obtain rfl | hentry := Norbital.Lib.mem_put hentry
        · exact ⟨s, hs, rfl⟩
        · exact hknown entry hentry
      · -- the keys are distinct, so every other fact reads what it read before
        by_cases hkey : t.key = s.key
        · obtain rfl : t = s := List.inj_on_of_nodup_map hkeys ht hs hkey
          rwa [beq_self_eq_true, if_pos rfl]
        · rw [beq_false_of_ne hkey, if_neg Bool.false_ne_true]
          exact hfits t ht
  · rw [validateFacts_eq_none]
    simp only [specFault_eq_none, valueAt_without]
    have hkept : ∀ entry ∈ Norbital.Lib.without key values, ∃ s ∈ specs, s.key = entry.1 :=
      fun entry hentry => hknown entry (List.mem_of_mem_filter hentry)
    rw [and_iff_right hkept]
    refine forall₂_congr fun s hs => ?_
    by_cases hkey : s.key = key
    · subst hkey
      rw [beq_self_eq_true, if_pos rfl, allowed_missing]
      exact ⟨fun h _ => h, fun h => h rfl⟩
    · rw [beq_false_of_ne hkey, if_neg Bool.false_ne_true]
      exact iff_of_true (hfits s hs) fun heq => absurd heq hkey

def abroad : List (String × Value) := [("resident", .boolean false), ("status", .string "K1")]

/-- Three dependants may be added, but no infinite number of them, and the status may not be left out. -/
theorem facts_apart_residence :
    validateFacts wholeText residence (Norbital.Lib.put "dependants" (.number 3) abroad) true = none ∧
    validateFacts wholeText residence (Norbital.Lib.put "dependants" .notFinite abroad) true ≠ none ∧
    validateFacts wholeText residence (Norbital.Lib.without "status" abroad) true ≠ none := by
  have hresidence : facts wholeText residence = .ok residence := rfl
  have habroad : validateFacts wholeText residence abroad true = none := by decide
  obtain ⟨hput, hwithout⟩ := facts_apart hresidence habroad
  refine ⟨(hput _ _).2 ⟨_, .tail _ (.head _), rfl, valueFault_eq_none.1 (show valueFault wholeText _ _ = none by decide)⟩, fun h => ?_, fun h => ?_⟩
  · obtain ⟨s, -, -, hfits⟩ := (hput _ _).1 h
    exact Fits.finite hfits rfl
  · exact ((hwithout _).1 h _ (.tail _ (.tail _ (.head _))) rfl).2 ⟨rfl, rfl⟩

-- a fact that no record gives is read as what every object inherits
example : validateFacts wholeText [{ key := "constructor", type := .string }] [] false =
    some "constructor must be a string; this value is a function." := by decide

end Norbital.Std.Facts

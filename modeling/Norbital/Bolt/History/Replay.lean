import Norbital.Lib.Maps

/-!
# Rebuilding a record from its history

The fold of `readHistory` (`bolt/src/engine/query/history.ts`) and the decoding of
one revision's physical columns by field identity (`historyChanges` in
`history-schema.ts`).  Objects and maps are partial functions of their keys.
What the reader does to a stored value for display is a parameter: nothing below
depends on it.
-/

namespace Norbital.Bolt.History

open Maps

/-- A field's kind, as far as it decides the columns: a reference names one
target, or a list of them. -/
inductive Kind where
  | ref (to_ : String)
  | refs (to_ : List String)
  | other (kind : String)
  deriving DecidableEq, Repr

/-- The targets of an exclusive arc: a reference to more than one model. -/
def Kind.arms : Kind → Option (List String)
  | .refs to_ => if 1 < to_.length then some to_ else none
  | _ => none

/-- The column of an arc's arm. -/
def armColumn (name target : String) : String := name ++ "__" ++ target

/-- A row of `bolt_history_schema`: the kinds of `historyKinds`, stored fields
before computed ones, and the identity of each name. -/
structure Version where
  id : Nat
  lineage : Nat
  kinds : List (String × Kind)
  fields : List (String × Nat)
  deriving DecidableEq, Repr

/-- What a revision's values are folded by. -/
inductive Identity where
  | field (id : Nat)
  | legacy (name : String)
  deriving DecidableEq, Repr

def Version.identity (v : Version) (name : String) : Identity :=
  match v.fields.lookup name with
  | some id => .field id
  | none => .legacy name

variable {V : Type*}

/-- A jsonb object. -/
abbrev Columns (V : Type*) := String → Option V

structure HistoricalValue (V : Type*) where
  version : Option Version
  field : String
  value : V

/-- What the trigger and the reader need of jsonb values: `null`, the object of a
reference, how a value of a kind is shown, and the type's `=`, which takes `1.2`
and `1.20` for one number. -/
structure Reading (V : Type*) where
  null : V
  reference : String → V → V
  isString : V → Bool
  historicalValue : Kind → V → V
  same : V → V → Bool
  same_self : ∀ value, same value value = true

abbrev State (V : Type*) := Identity → Option (HistoricalValue V)

section Changes

variable [DecidableEq V] (R : Reading V)

/-- Whether a column is there and not `null`. -/
def nonNull (changes : Columns V) (column : String) : Bool :=
  match changes column with
  | some value => decide (value ≠ R.null)
  | none => false

/-- A column's value, of a list with one target the object of its reference. -/
def columnValue (kind : Kind) (value : V) : V :=
  match kind with
  | .refs [target] => if R.isString value then R.reference target value else value
  | _ => value

/-- The value an arc's columns stand for, of those that are there. -/
def arcValue (changes : Columns V) (name : String) (present : List String) : V :=
  match present.find? fun target => nonNull R changes (armColumn name target) with
  | some target => R.reference target ((changes (armColumn name target)).getD R.null)
  | none => R.null

/-- The value `historyChanges` finds for a field, if any of its columns is there. -/
def fieldValue (changes : Columns V) (name : String) (kind : Kind) : Option V :=
  match kind.arms with
  | some targets =>
      let present := targets.filter fun target => (changes (armColumn name target)).isSome
      if present.isEmpty then none else some (arcValue R changes name present)
  | none => (changes name).map (columnValue R kind)

/-- Whether `historyChanges` has taken a column for one of the version's fields. -/
def consumed (v : Version) (changes : Columns V) (column : String) : Bool :=
  v.kinds.any fun (name, kind) =>
    match kind.arms with
    | some targets =>
        let present := targets.filter fun target => (changes (armColumn name target)).isSome
        present.any (fun target => armColumn name target = column) ||
          (!present.isEmpty && name = column)
    | none => (changes name).isSome && name = column

/-- What `historyChanges` sets for the fields the version knows. -/
def knownChanges (v : Version) (changes : Columns V) : State V :=
  setAll (v.kinds.filterMap fun (name, kind) =>
    (fieldValue R changes name kind).map fun value =>
      (v.identity name, ⟨some v, name, R.historicalValue kind value⟩)) fun _ => none

/-- `historyChanges`: the known fields by identity, then every other column under
its own name. -/
def historyChanges (version : Option Version) (changes : Columns V) : State V
  | .field id =>
      match version with
      | some v => knownChanges R v changes (.field id)
      | none => none
  | .legacy name =>
      let known := match version with
        | some v => knownChanges R v changes (.legacy name)
        | none => none
      let taken := match version with
        | some v => consumed v changes name
        | none => false
      -- a column no field of the version reads stays under its own name
      match changes name with
      | some value => if taken then known else some ⟨version, name, value⟩
      | none => known

end Changes

inductive Op where
  | create | update | delete
  deriving DecidableEq, Repr

inductive Cause where
  | direct | cascade | derived | seed | erased | restored
  deriving DecidableEq, Repr

/-- A row of `bolt_history`; `version`, `full` and `system` are what its `meta`
holds. -/
structure Entry (V : Type*) where
  revision : Nat
  op : Op
  cause : Cause
  changes : Columns V
  version : Option Version
  full : Bool
  system : Columns V

/-- `SYSTEM_COLUMNS`. -/
def systemColumns : List String :=
  ["id", "revision", "created_at", "created_by", "updated_at", "updated_by"]

/-- Whether the reader forgets what came before a revision. -/
def Entry.resets (e : Entry V) : Bool :=
  e.op = .create || e.cause = .erased || e.full

/-- The system columns a revision's `meta` holds, as the reader sets them. -/
def systemChanges (e : Entry V) : State V
  | .field _ => none
  | .legacy name =>
      if name ∈ systemColumns then
        (e.system name).map fun value => ⟨e.version, name, value⟩
      else none

variable [DecidableEq V] (R : Reading V)

/-- One row of the reader's fold. -/
def replay (state : State V) (e : Entry V) : State V :=
  let cleared : State V := if e.resets then fun _ => none else state
  let changed := layOver (historyChanges R e.version e.changes) cleared
  let stamped := layOver (systemChanges e) changed
  if e.op = .delete then fun _ => none else stamped

/-- The state `readHistory` rebuilds at a revision from a record's rows. -/
def readHistory (rows : List (Entry V)) (revision : Nat) : State V :=
  (rows.filter fun e => e.revision ≤ revision).foldl (replay R) fun _ => none

/-- The values of a stored row, by field identity. -/
def decoded (version : Option Version) (row : Option (Columns V)) : State V :=
  match row with
  | some row => historyChanges R version row
  | none => fun _ => none

end Norbital.Bolt.History

import Mathlib.Logic.Function.Iterate
import Mathlib.Data.List.Infix
import Norbital.Store.Schema.Objects

/-!
# Schema plans

`plan` of `store/src/schema/plan.ts`: the objects of the schema a database holds,
read under the names the next schema gives them, compared with the next schema's
objects; what changes is put into steps.  A JavaScript `Map` is a list of
entries with distinct keys, a `Set` a list of its elements.
-/

namespace Norbital.Store.Schema

open SqlText

/-- `Map.prototype.set`: a known key keeps its place. -/
def mapSet {α : Type} (m : List (String × α)) (key : String) (value : α) : List (String × α) :=
  if m.any (·.1 == key) then m.map fun e => if e.1 == key then (key, value) else e
  else m ++ [(key, value)]

/-- `new Map(entries)`. -/
def mapOf {α : Type} (entries : List (String × α)) : List (String × α) :=
  entries.foldl (fun m e => mapSet m e.1 e.2) []

/-- The renames a schema declares against the applied one, each from the new name to the old. -/
structure Renames where
  tables : List (String × String)
  /-- By new table name: fields. -/
  fields : List (String × List (String × String))
  /-- By new table name: physical columns, each polymorphic arm included. -/
  columns : List (String × List (String × String))

/-- The names every JavaScript object answers to. -/
def inherited : List String :=
  ["constructor", "__defineGetter__", "__defineSetter__", "hasOwnProperty", "__lookupGetter__",
    "__lookupSetter__", "isPrototypeOf", "propertyIsEnumerable", "toString", "valueOf", "__proto__",
    "toLocaleString"]

/-- `tables[name] !== undefined`. -/
def SchemaSpec.has (s : SchemaSpec) (name : String) : Bool :=
  (s.table? name).isSome || inherited.contains name

/-- `fields[name] !== undefined`. -/
def Table.has (t : Table) (name : String) : Bool := (t.field? name).isSome || inherited.contains name

/-- The name a table had: `was` counts where its own name is new. -/
def oldTable (applied : SchemaSpec) (t : Table) : String :=
  match t.was with
  | some was => if applied.has t.name then t.name else was
  | none => t.name

def renameTable (applied next : SchemaSpec) (tables : List (String × String)) (t : Table) :
    Except StoreError (List (String × String)) :=
  let old := oldTable applied t
  if old = t.name then .ok tables
  else if !applied.has old then
    fail ("'" ++ t.name ++ "' renames '" ++ old ++ "', which the database does not hold")
  else if next.has old || tables.any (·.2 == old) then
    fail ("'" ++ t.name ++ "' renames '" ++ old ++ "', which another table still uses")
  else .ok (mapSet tables t.name old)

def oldField (before : Table) (f : Field) : String :=
  match f.was with
  | some was => if before.has f.name then f.name else was
  | none => f.name

/-- The targets of a polymorphic relation. -/
def arms : Option Field → Option (List String)
  | some ⟨_, .ref targets _ _, _⟩ => if targets.length > 1 then some targets else none
  | _ => none

/-- The physical columns a field renames. -/
def renameColumns (tables : List (String × String)) (before : Table) (f : Field)
    (physical : List (String × String)) : List (String × String) :=
  let old := oldField before f
  match arms (before.field? old), arms (some f) with
  | some oldArms, some newArms => newArms.foldl (fun physical target =>
      let source := (tables.lookup target).getD target
      if oldArms.contains source && (f.name ++ "__" ++ target != old ++ "__" ++ source) then
        mapSet physical (f.name ++ "__" ++ target) (old ++ "__" ++ source)
      else physical) physical
  | none, none => if old = f.name then physical else mapSet physical f.name old
  | _, _ => physical

def renameField (tables : List (String × String)) (before t : Table)
    (acc : List (String × String) × List (String × String)) (f : Field) :
    Except StoreError (List (String × String) × List (String × String)) :=
  let old := oldField before f
  if old = f.name then .ok (acc.1, renameColumns tables before f acc.2)
  else if !before.has old then
    fail ("'" ++ t.name ++ "." ++ f.name ++ "' renames '" ++ old ++ "', which the database does not hold")
  else if t.has old || acc.1.any (·.2 == old) then
    fail ("'" ++ t.name ++ "." ++ f.name ++ "' renames '" ++ old ++ "', which another field still uses")
  else .ok (mapSet acc.1 f.name old, renameColumns tables before f acc.2)

def renameFields (applied : SchemaSpec) (tables : List (String × String)) (r : Renames) (t : Table) :
    Except StoreError Renames :=
  let old := (tables.lookup t.name).getD t.name
  match applied.table? old with
  | none =>
    -- an inherited property has no fields to read from
    if inherited.contains old && !t.fields.isEmpty then .error ⟨"defect", "derive", "TypeError"⟩
    else .ok r
  | some before => do
    let (own, physical) ← t.fields.foldlM (renameField tables before t) ([], [])
    return { r with
      fields := if own.isEmpty then r.fields else mapSet r.fields t.name own
      columns := if physical.isEmpty then r.columns else mapSet r.columns t.name physical }

def renamesOf (applied next : SchemaSpec) : Except StoreError Renames := do
  let tables ← next.tables.foldlM (renameTable applied next) []
  next.tables.foldlM (renameFields applied tables) ⟨tables, [], []⟩

/-- `quoted`: the tokens that spell an identifier respelled. -/
def quoted (text old new : String) : String := String.ofList (substitute old new text.toList)

/-- `id.split(':', 2)`. -/
def splitId (id : String) : String × String :=
  let head := id.toList.takeWhile (· ≠ ':')
  let rest := ((id.toList.drop (head.length + 1)).takeWhile (· ≠ ':'))
  (String.ofList head, String.ofList rest)

/-- Old names to new. -/
def Renames.back (r : Renames) : List (String × String) := mapOf (r.tables.map fun e => (e.2, e.1))

/-- The old field and column names of a table to the new ones, by its new name. -/
def Renames.fieldsOf (r : Renames) (table : String) : List (String × String) :=
  mapOf (((r.fields.lookup table).getD [] ++ (r.columns.lookup table).getD []).map fun e => (e.2, e.1))

/-- A text with the table renames, then the field renames, made in it. -/
def renamedText (back fields : List (String × String)) (text : String) : String :=
  fields.foldl (fun out e => quoted out e.1 e.2) (back.foldl (fun out e => quoted out e.1 e.2) text)

/-- A held object as it reads after the renames; its `drop` keeps the names the database holds. -/
def renamedObject (r : Renames) (o : SchemaObject) : SchemaObject :=
  let table := (r.back.lookup o.table).getD o.table
  let fields := r.fieldsOf table
  let column := fun c => (fields.lookup c).getD c
  let text := renamedText r.back fields
  let (rank, rest) := splitId o.id
  let own := String.ofList (rest.toList.drop (o.table.length + 1))
  { o with
    id :=
      if o.table = "" then o.id
      else if o.rank = .table then "table:" ++ table
      else if !rest.toList.contains '.' then o.id
      else rank ++ ":" ++ (table ++ "." ++
        (if ["column", "default", "notNull", "backfill"].contains rank then column own else own))
    table := table
    deps := o.deps.map column
    create := o.create.map text
    shape := o.shape.map text }

inductive StepClass where
  | additive
  | rename
  | backfill
  | validating
  | destructive
  deriving DecidableEq

namespace StepClass

def order : StepClass → Nat
  | .additive => 0
  | .rename => 1
  | .backfill => 2
  | .validating => 3
  | .destructive => 4

def worst (a b : StepClass) : StepClass := if a.order > b.order then a else b

end StepClass

structure Step where
  id : String
  cls : StepClass
  drop : Option SchemaObject
  create : Option SchemaObject
  rename : Option String
  alter : Option String

/-- What a change of rebuilds an object. -/
def definition (o : SchemaObject) : String := o.shape.getD (String.intercalate ";\n" o.create)

def colKey (o : SchemaObject) (column : String) : String := o.table ++ "." ++ column

/-- The column an object is, or reads first. -/
def firstDep (o : SchemaObject) : String := o.deps.head?.getD ""

/-- The casts proven to keep every value. -/
def widens (before after : SchemaObject) : Bool :=
  decide (before.rank = .column) && before.stored && after.stored && before.shape == some "int" &&
    (after.shape == some "bigint" || after.shape == some "numeric") && before.deps.length == 1 &&
    after.deps.length == 1 && before.deps.head? == after.deps.head?

/-- The name of a table's primary key: at most 58 bytes of the table's, then `_pkey`. -/
def primary (table : String) : String :=
  let kept := table.toList.foldl (fun (acc : String × Bool) c =>
    if acc.2 || (acc.1.push c).utf8ByteSize > 58 then (acc.1, true) else (acc.1.push c, false)) ("", false)
  kept.1 ++ "_pkey"

def renameStep (id statement : String) : Step := ⟨id, .rename, none, none, some statement, none⟩

/-- The rename statements, tables first. -/
def renameSql (r : Renames) (replacedTables replacedCols : List String) : List Step :=
  (r.tables.filter fun e => !replacedTables.contains e.1).flatMap (fun (n, o) =>
    [renameStep ("rename:" ++ o ++ "->" ++ n) (sql [raw "alter table ", q o, raw " rename to ", q n]),
      renameStep ("rename:" ++ n ++ "." ++ primary o ++ "->" ++ primary n)
        (sql [raw "alter table ", q n, raw " rename constraint ", q (primary o), raw " to ",
          q (primary n)])]) ++
  r.columns.flatMap fun (t, fields) =>
    (fields.filter fun e => !replacedTables.contains t && !replacedCols.contains (t ++ "." ++ e.1)).map
      fun (n, o) => renameStep ("rename:" ++ t ++ "." ++ o ++ "->" ++ n)
        (sql [raw "alter table ", q t, raw " rename column ", q o, raw " to ", q n])

def byId (os : List SchemaObject) (id : String) : Option SchemaObject := os.find? (·.id == id)

/-- The objects by id, the last of an id in the place of the first. -/
def lastById (os : List SchemaObject) : List SchemaObject :=
  (mapOf (os.map fun o => (o.id, o))).map (·.2)

/-- What changes, and the columns that are dropped or rebuilt. -/
structure Changes where
  changed : List String
  replacedCols : List String

section

variable (before after : List SchemaObject)

/-- Objects of both schemas with different definitions. -/
def changedIds : List String :=
  (before.filter fun o => (byId after o.id).any fun n => definition n != definition o).map (·.id)

def replacedTables : List String :=
  (after.filter fun o => decide (o.rank = .table) && (changedIds before after).contains o.id).map
    (·.table)

def widenedIds : List String :=
  (after.filter fun o => (byId before o.id).any fun old =>
    !(replacedTables before after).contains o.table && widens old o).map (·.id)

def widenedCols : List String :=
  (after.filter fun o => (widenedIds before after).contains o.id).map fun o => colKey o (firstDep o)

/-- Columns that are no longer there, or differ. -/
def lostCols : List String :=
  (before.filter fun o => decide (o.rank = .column) && !(widenedIds before after).contains o.id &&
    ((byId after o.id).isNone || (changedIds before after).contains o.id)).map
      fun o => colKey o (firstDep o)

/-- Everything of a replaced table, and the foreign keys to one, changes. -/
def withTables : List String :=
  changedIds before after ++ (after.filter fun o => (byId before o.id).isSome &&
    ((replacedTables before after).contains o.table ||
      (decide (o.rank = .fk) && o.create.any fun s => (replacedTables before after).any fun t =>
        decide ((sql [raw "references ", q t, raw " ("]).toList <:+: s.toList)))).map (·.id)

/-- Generated columns that read a widened column. -/
def widenedReaders : List SchemaObject :=
  after.filter fun o => (byId before o.id).isSome && decide (o.rank = .column) && o.derived &&
    o.deps.any fun c => (widenedCols before after).contains (colKey o c)

/-- One object of a pass: one that reads a replaced column is rebuilt. -/
def growOne (s : Changes) (o : SchemaObject) : Changes :=
  if s.changed.contains o.id || (byId before o.id).isNone ||
      !o.deps.any (fun c => s.replacedCols.contains (colKey o c)) then s
  else ⟨s.changed ++ [o.id],
    if o.rank = .column then s.replacedCols ++ [colKey o (firstDep o)] else s.replacedCols⟩

/-- The passes of the loop: each but the last adds an object of `after`, and a pass that adds none
changes nothing, so as many passes as there are objects reach the end. -/
def grow (s : Changes) : Changes := Nat.iterate (fun s => after.foldl (growOne before) s) after.length s

def changes : Changes :=
  grow before after
    ⟨withTables before after ++ (widenedReaders before after).map (·.id),
      lostCols before after ++ (widenedReaders before after).map fun o => colKey o (firstDep o)⟩

def createClass (o : SchemaObject) : StepClass :=
  if ((after.filter fun o => decide (o.rank = .table) && (byId before o.id).isNone).map
      (·.table)).contains o.table then .additive
  else if o.violations.isSome then .validating
  else if o.derived then .backfill
  else .additive

def dropClass (o : SchemaObject) : StepClass := if o.stored then .destructive else .additive

/-- The head of the versioned row trigger. -/
def rowRules : String :=
  "create or replace function store_row_rules() returns trigger language plpgsql as $store_rules$\n"

/-- The row trigger is replaced in place. -/
def rowGuard (old o : SchemaObject) : Bool :=
  let guarded := fun (o : SchemaObject) => decide (o.rank = .function) &&
    (match o.create with
      | [s] => rowRules.toList.isPrefixOf s.toList
      | _ => false)
  o.id == "function:store_row_rules" && guarded old && guarded o

def replaceStep (o : SchemaObject) : Step :=
  let old := byId before o.id
  let drop := old.filter fun old => old.drop.isSome && !rowGuard old o
  ⟨"replace:" ++ o.id, ((drop.map dropClass).getD .additive).worst (createClass before after o), drop,
    some o, none, none⟩

def widenStep (o : SchemaObject) : Step :=
  ⟨"widen:" ++ o.id, .additive, none, none, none, some (sql [raw "alter table ", q o.table,
    raw " alter column ", q (firstDep o), raw (" type " ++ o.shape.getD "undefined")])⟩

/-- The steps from what is held, as it reads after the renames, to the next objects. -/
def stepsOf (r : Renames) : List Step :=
  let c := changes before after
  renameSql r (replacedTables before after) c.replacedCols ++
    (before.filter fun o => (byId after o.id).isNone && o.drop.isSome).map (fun o =>
      ⟨"drop:" ++ o.id, dropClass o, some o, none, none, none⟩) ++
    (after.filter fun o => c.changed.contains o.id && !(widenedIds before after).contains o.id).map
      (replaceStep before after) ++
    (after.filter fun o => (widenedIds before after).contains o.id).map widenStep ++
    (after.filter fun o => (byId before o.id).isNone).map fun o =>
      ⟨"create:" ++ o.id, createClass before after o, none, some o, none, none⟩

end

structure Plan where
  schema : SchemaSpec
  steps : List Step

/-- `plan` from a schema a database holds. -/
def plan (rest : Rest) (applied next : SchemaSpec) : Except StoreError Plan := do
  let r ← renamesOf applied next
  let held ← schemaObjects rest applied
  let after ← schemaObjects rest next
  return ⟨next, stepsOf (lastById (held.map (renamedObject r))) after r⟩

end Norbital.Store.Schema

import Norbital.Lib.SqlText
import Norbital.Store.Errors

/-!
# A schema's objects

The tables of a schema and the objects they render to (`store/src/schema/ddl.ts`),
each with its create and drop SQL and the columns it reads.  Tables, stored
columns and relation columns, the objects that hold data, are rendered here as
the source does; what else a schema renders to (defaults, checks, foreign keys,
indexes, generated columns, functions) is the parameter `Rest`, of which only
the form of its ids is fixed.
-/

namespace Norbital.Store.Schema

open SqlText

/-- A column type: text without quotes. -/
structure SqlType where
  text : String
  plain : NoQuote text

instance : DecidableEq SqlType := fun a b =>
  decidable_of_iff (a.text = b.text) (by cases a; cases b; simp)

namespace SqlType

def uuid : SqlType := ⟨"uuid", by decide⟩

def bigint : SqlType := ⟨"bigint", by decide⟩

def textual : SqlType := ⟨"text", by decide⟩

end SqlType

/-- What a field is to its table's columns. -/
inductive FieldKind where
  /-- A stored value of a column type, with the SQL of its default. -/
  | stored (type : SqlType) (default : Option String)
  /-- `sum` and `count`: a derived column. -/
  | rollup (type : SqlType) (default : Option String)
  /-- An input kind, which no column stores. -/
  | inline (kind : String)
  /-- A relation to one table, or to one of several. -/
  | ref (targets : List String) (setNull optional : Bool)
  deriving DecidableEq

structure Field where
  name : String
  kind : FieldKind
  was : Option String
  deriving DecidableEq

inductive Key where
  | uuid
  | text
  | identity
  | fields (names : List String)
  deriving DecidableEq

/-- A table; its fields are a record, so no two have one name. -/
structure Table where
  name : String
  fields : List Field
  key : Key
  audit : Bool
  identity : Option String
  was : Option String
  nodup : (fields.map (·.name)).Nodup

structure SchemaSpec where
  tables : List Table
  nodup : (tables.map (·.name)).Nodup

def SchemaSpec.table? (s : SchemaSpec) (name : String) : Option Table := s.tables.find? (·.name == name)

def Table.field? (t : Table) (name : String) : Option Field := t.fields.find? (·.name == name)

/-- Create order: a later rank may depend on an earlier one; drops run in reverse. -/
inductive Rank where
  | extension
  | function
  | table
  | column
  | backfill
  | default
  | notNull
  | constraint
  | fk
  | index
  deriving DecidableEq

structure SchemaObject where
  id : String
  rank : Rank
  table : String
  /-- Own columns this object reads. -/
  deps : List String
  create : List String
  /-- What a change of rebuilds the object, when not all of `create`. -/
  shape : Option String
  /-- `none`: never dropped. -/
  drop : Option String
  /-- Dropping it loses data. -/
  stored : Bool
  derived : Bool
  /-- Counts the rows the new object would refuse. -/
  violations : Option String
  deriving DecidableEq

def fail {α : Type} (message : String) : Except StoreError α :=
  .error ⟨"schema", "derive", message⟩

/-- An identifier quoted. -/
def q (id : String) : Piece := .name id

def raw (s : String) : Piece := .text s

/-- The text of some pieces. -/
def sql (ps : List Piece) : String := String.ofList (render ps)

def ident (name : String) : Except StoreError String :=
  if name.utf8ByteSize > 63 then
    fail ("identifier '" ++ name ++ "' is over 63 bytes; shorten the table or field name")
  else .ok name

def typeOf (k : FieldKind) (place : String) : Except StoreError SqlType :=
  match k with
  | .stored type _ | .rollup type _ => .ok type
  | .inline kind => fail (place ++ ": a '" ++ kind ++ "' is an input kind, not a stored one")
  | .ref .. => .ok .uuid

/-- A field a key names. -/
def keyField (t : Table) (f : String) : Except StoreError (String × SqlType) :=
  match t.field? f with
  | none => fail ("key names unknown field '" ++ f ++ "'")
  | some k => do
    let type ← typeOf k.kind f
    return (f, type)

/-- A table's key columns and their types. -/
def keyOf (t : Table) : Except StoreError (List (String × SqlType)) :=
  match t.key with
  | .fields names => names.mapM (keyField t)
  | .identity => .ok [("id", .bigint)]
  | .text => .ok [("id", .textual)]
  | .uuid => .ok [("id", .uuid)]

/-- A foreign key column takes its target's key type; a composite key is no target. -/
def fkType (s : SchemaSpec) (target key : String) : Except StoreError (String × SqlType) :=
  match s.table? target with
  | none => fail ("relation '" ++ key ++ "' points at undeclared table '" ++ target ++ "'")
  | some t => do
    match ← keyOf t with
    | [only] => return only
    | _ => fail ("relation '" ++ key ++ "': '" ++ target ++
        "' has a composite key, which no FK may point at")

/-- The column of each target of a relation. -/
def refColumns (field : String) (targets : List String) : List (String × String) :=
  match targets with
  | [target] => [(field, target)]
  | targets => targets.map fun target => (field ++ "__" ++ target, target)

/-- `relations`, for the fields of one table. -/
def checkRelation (t : Table) (f : Field) : Except StoreError Unit :=
  match f.kind with
  | .ref targets setNull optional => do
    if setNull && !optional then
      fail ("relation '" ++ (t.name ++ "." ++ f.name) ++
        "': onDelete 'setNull' needs an optional ref")
    if targets.length ≠ 1 then
      checkEach (fun c => do let _ ← ident c.1) (refColumns f.name targets)
  | _ => .ok ()

/-- `tables`: names short enough, every field of a stored kind. -/
def checkTable (s : SchemaSpec) (t : Table) : Except StoreError Unit := do
  let _ ← ident t.name
  checkEach (fun f => match f.kind with
    | .ref targets _ _ =>
      checkEach (fun c => do let _ ← fkType s c.2 (t.name ++ "." ++ f.name)) (refColumns f.name targets)
    | k => do
      let _ ← ident f.name
      let _ ← typeOf k (t.name ++ "." ++ f.name)) t.fields

def audit : String :=
  ", revision int not null default 1, created_at timestamptz not null default now(), " ++
    "created_by text, updated_at timestamptz not null default now(), updated_by text"

/-- Pieces with a comma between them. -/
def commas : List (List Piece) → List Piece
  | [] => []
  | [ps] => ps
  | ps :: rest => ps ++ raw ", " :: commas rest

/-- The key columns a table is created with. -/
def declaredKey (key : List (String × SqlType)) : List (String × SqlType) :=
  if key.isEmpty then [("id", .uuid)] else key

/-- The key columns as `create table` declares them. -/
def keyDef (identity : Bool) : List (String × SqlType) → List Piece
  | [(name, type)] =>
    [q name, raw (" " ++ type.text ++ (if identity then " generated always as identity" else "") ++
      " primary key")]
  | key =>
    commas (key.map fun (name, type) => [q name, raw (" " ++ type.text ++ " not null")]) ++
      raw ", primary key (" :: (commas (key.map fun k => [q k.1]) ++ [raw ")"])

def createTable (name : String) (identity workspace : Bool) (key : List (String × SqlType)) :
    List Piece :=
  raw "create table " :: q name :: raw " (" ::
    (keyDef identity key ++ [raw ((if workspace then audit else "") ++ ")")])

def tableObject (t : Table) (key : List (String × SqlType)) : SchemaObject where
  id := "table:" ++ t.name
  rank := .table
  table := t.name
  deps := []
  create := [sql (createTable t.name (decide (t.key = .identity)) t.audit (declaredKey key))]
  shape := none
  drop := some (sql [raw "drop table if exists ", q t.name, raw " cascade"])
  stored := true
  derived := false
  violations := none

def columnId (table column : String) : String := "column:" ++ (table ++ "." ++ column)

/-- A column with a shape: its type, or `identity`. -/
def shapedColumn (table column shape type : String) (rollup : Bool) : SchemaObject where
  id := columnId table column
  rank := .column
  table := table
  deps := [column]
  create := [sql [raw "alter table ", q table, raw " add column ", q column, raw (" " ++ type)]]
  shape := some shape
  drop := some (sql [raw "alter table ", q table, raw " drop column if exists ", q column, raw " cascade"])
  stored := !rollup
  derived := rollup
  violations := none

/-- A field's own column; key fields and relations have none here. -/
def fieldColumn (t : Table) (keyNames : List String) (f : Field) : Option SchemaObject :=
  let withDefault := fun (type : SqlType) (default : Option String) =>
    type.text ++ default.elim "" (" default " ++ ·)
  let identity :=
    shapedColumn t.name f.name "identity" "bigint generated by default as identity" false
  if keyNames.contains f.name then none
  else
    match f.kind with
    | .stored type default =>
      some (if t.identity = some f.name then identity
        else shapedColumn t.name f.name type.text (withDefault type default) false)
    | .rollup type default =>
      some (if t.identity = some f.name then identity
        else shapedColumn t.name f.name type.text (withDefault type (default.or (some "0"))) true)
    | .inline _ | .ref .. => none

def addRef (table column : String) (type : SqlType) : List Piece :=
  [raw "alter table ", q table, raw " add column ", q column, raw (" " ++ type.text)]

/-- A relation's column, of its target's key type. -/
def refColumn (table column : String) (type : SqlType) : SchemaObject where
  id := columnId table column
  rank := .column
  table := table
  deps := [column]
  create := [sql (addRef table column type)]
  shape := none
  drop := some (sql [raw "alter table ", q table, raw " drop column if exists ", q column, raw " cascade"])
  stored := true
  derived := false
  violations := none

/-- The ids of the other objects start with one of these. -/
inductive OtherKind where
  | extension
  | function
  | trigger
  | default
  | notNull
  | backfill
  | constraint
  | fk
  | index
  deriving DecidableEq

namespace OtherKind

def text : OtherKind → String
  | .extension => "extension"
  | .function => "function"
  | .trigger => "trigger"
  | .default => "default"
  | .notNull => "notNull"
  | .backfill => "backfill"
  | .constraint => "constraint"
  | .fk => "fk"
  | .index => "index"

def rank : OtherKind → Rank
  | .extension => .extension
  | .function => .function
  | .trigger | .index => .index
  | .default => .default
  | .notNull => .notNull
  | .backfill => .backfill
  | .constraint => .constraint
  | .fk => .fk

end OtherKind

/-- An object that holds no data of its own. -/
inductive Other where
  /-- A generated column: computed, label, search document or embedding. -/
  | column (table name : String) (reads create : List String) (drop : Option String)
  | other (kind : OtherKind) (rest table : String) (deps create : List String)
      (drop : Option String) (derived : Bool) (violations : Option String)

def Other.object : Other → SchemaObject
  | .column table name reads create drop =>
    ⟨columnId table name, .column, table, name :: reads, create, none, drop, false, true, none⟩
  | .other kind rest table deps create drop derived violations =>
    ⟨kind.text ++ ":" ++ rest, kind.rank, table, deps, create, none, drop, false, derived, violations⟩

/-- The other objects of a schema, and what else of it is refused. -/
structure Rest where
  objects : SchemaSpec → Except StoreError (List Other)
  /-- A generated column is a column of one of the tables. -/
  owned : ∀ s os, objects s = .ok os → ∀ table name reads create drop,
    Other.column table name reads create drop ∈ os → ∃ t ∈ s.tables, t.name = table

/-- The first object of each id. -/
def pushAll (os : List SchemaObject) : List SchemaObject :=
  os.foldl (fun out o => if out.any (·.id == o.id) then out else out ++ [o]) []

/-- A table and its fields' own columns. -/
def tableObjects (t : Table) : Except StoreError (List SchemaObject) := do
  let key ← keyOf t
  return tableObject t key :: t.fields.filterMap (fieldColumn t (key.map (·.1)))

/-- The columns of a table's relations. -/
def relationObjects (s : SchemaSpec) (t : Table) : Except StoreError (List SchemaObject) :=
  collect (fun f => match f.kind with
    | .ref targets _ _ =>
      collect (fun c => do
        let key ← fkType s c.2 (t.name ++ "." ++ f.name)
        return [refColumn t.name c.1 key.2]) (refColumns f.name targets)
    | _ => .ok []) t.fields

/-- The objects as they are pushed. -/
def pushed (rest : Rest) (s : SchemaSpec) : Except StoreError (List SchemaObject) := do
  checkEach (fun t => checkEach (checkRelation t) t.fields) s.tables
  checkEach (checkTable s) s.tables
  let tables ← collect tableObjects s.tables
  let relations ← collect (relationObjects s) s.tables
  let others ← rest.objects s
  return tables ++ relations ++ others.map Other.object

def schemaObjects (rest : Rest) (s : SchemaSpec) : Except StoreError (List SchemaObject) := do
  return pushAll (← pushed rest s)

end Norbital.Store.Schema

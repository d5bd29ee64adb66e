import Norbital.Lib.Entries
import Norbital.Lib.Fallible
import Norbital.Lib.Utf8

/-!
# Constraints and indexes of a schema

The named objects of `schemaObjects` (`store/src/schema/ddl.ts`): which constraints and
indexes a schema's tables have, the SQL that defines each, and the query that counts the
rows a constraint would refuse. `W` are predicates, `X` computed expressions.
-/

namespace Norbital.Store.Constraints

open Norbital.Lib JsString

abbrev Name := JsString

inductive Metric where
  | l2
  | cosine
  | ip
  deriving DecidableEq

inductive OnDelete where
  | restrict
  | cascade
  | setNull
  deriving DecidableEq

structure RefSpec where
  targets : List Name
  owned : Bool
  onDelete : Option OnDelete

/-- A field's kind, as far as its column, its constraints and its indexes go. -/
inductive Kind where
  | text (many : Bool)
  | enum (many : Bool)
  | int (int64 : Bool)
  | number
  | decimal
  | money
  | currency
  | bool
  | duration
  | point
  | date
  | instant
  | time
  | period (ofDate : Bool)
  | state
  | seq (pattern : Bool) (per : List Name)
  | sum
  | count
  | json
  | list
  | object
  | file
  | custom
  | vector (dim : ℕ) (metric : Metric)
  | ref (r : RefSpec)
  /-- `id`, `union` and `record`: input kinds. -/
  | input (kind : Name)

structure FieldSpec where
  name : Name
  kind : Kind
  optional : Bool
  unique : Bool

inductive Key where
  | uuid
  | text
  | identity
  | fields (names : List Name)

inductive ComputedKind where
  | text
  | int
  | decimal
  | money
  | bool
  | date
  | instant

structure UniqueSpec (W : Type) where
  fields : List Name
  pred : Option W

structure NoOverlap (W : Type) where
  key : List Name
  period : Name
  pred : Option W

inductive IndexPart (X : Type) where
  | field (name : Name)
  | lower (name : Name)
  | expr (x : X)

structure IndexSpec (W X : Type) where
  on : List (IndexPart X)
  unique : Bool
  pred : Option W

inductive PathIndex where
  | gin (field : Name)
  | path (field : Name) (path : List Name)

structure SearchIndex where
  name : Name
  dim : ℕ
  metric : Metric
  field : Option Name

structure Search where
  semantic : Bool
  indexes : List SearchIndex

structure Through where
  table : Name
  origin : Name
  target : Name

structure Table (W X : Type) where
  name : Name
  fields : List FieldSpec
  key : Key
  audit : Bool
  /-- Whether `nativeRules` is set. -/
  native : Bool
  managedDeletes : Bool
  identity : Option Name
  natural : Option (List Name)
  unique : List (UniqueSpec W)
  check : List W
  noOverlap : List (NoOverlap W)
  index : List (List Name)
  indexes : List (IndexSpec W X)
  paths : List PathIndex
  computed : List (Name × ComputedKind × X)
  search : Option Search
  through : List Through

structure SchemaSpec (W X : Type) where
  tables : List (Table W X)
  nodup : (tables.map Table.name).Nodup

inductive PgType where
  | boolean
  | uuid
  | int
  | bigint
  | numeric
  | double
  | date
  | timestamptz
  | time
  | text
  | textArray
  | jsonb
  | daterange
  | tstzrange
  | point
  | vector (dim : ℕ)
  deriving DecidableEq

namespace PgType

def sqlName : PgType → Name
  | boolean => ascii "boolean"
  | uuid => ascii "uuid"
  | int => ascii "int"
  | bigint => ascii "bigint"
  | numeric => ascii "numeric"
  | double => ascii "double precision"
  | date => ascii "date"
  | timestamptz => ascii "timestamptz"
  | time => ascii "time"
  | text => ascii "text"
  | textArray => ascii "text[]"
  | jsonb => ascii "jsonb"
  | daterange => ascii "daterange"
  | tstzrange => ascii "tstzrange"
  | point => ascii "point"
  | vector dim => ascii ("vector(" ++ toString dim ++ ")")

end PgType

/-- A stored field's column type. -/
def colType : Kind → Option PgType
  | .int true => some .bigint
  | .period ofDate => some (if ofDate then .daterange else .tstzrange)
  | .vector dim _ => some (.vector dim)
  | .seq pattern _ => some (if pattern then .text else .int)
  | .text many | .enum many => some (if many then .textArray else .text)
  | .int false | .duration | .count => some .int
  | .number => some .double
  | .decimal | .money | .sum => some .numeric
  | .currency | .state => some .text
  | .bool => some .boolean
  | .date => some .date
  | .instant => some .timestamptz
  | .time => some .time
  | .json | .list | .object | .file | .custom => some .jsonb
  | .point => some .point
  | .ref _ => some .uuid
  | .input _ => none

def ComputedKind.type : ComputedKind → PgType
  | .text => .text
  | .int => .int
  | .decimal | .money => .numeric
  | .bool => .boolean
  | .date => .date
  | .instant => .timestamptz

structure Col where
  type : PgType
  optional : Bool
  deriving DecidableEq

section Schema

variable {W X : Type}

def fail {α : Type} (message : Name) : Except Name α := .error message

def ident (name : Name) : Except Name Name :=
  if name.utf8.length > 63 then
    fail (ascii "identifier '" ++ name ++ ascii "' is over 63 bytes; shorten the table or field name")
  else .ok name

def typeOf (k : Kind) (place : Name) : Except Name PgType :=
  match colType k, k with
  | some t, _ => .ok t
  | none, .input kind => fail (place ++ ascii ": a '" ++ kind ++ ascii "' is an input kind, not a stored one")
  | none, _ => fail place

def SchemaSpec.table? (s : SchemaSpec W X) (name : Name) : Option (Table W X) := s.tables.find? (·.name == name)

def Table.field? (t : Table W X) (name : Name) : Option FieldSpec := t.fields.find? (·.name == name)

/-- A table's key columns and their types. -/
def keyOf (t : Table W X) : Except Name (List (Name × PgType)) :=
  match t.key with
  | .fields names => names.mapM fun f =>
    match t.field? f with
    | none => fail (ascii "key names unknown field '" ++ f ++ ascii "'")
    | some k => do
      let type ← typeOf k.kind f
      return (f, type)
  | .identity => .ok [(ascii "id", .bigint)]
  | .text => .ok [(ascii "id", .text)]
  | .uuid => .ok [(ascii "id", .uuid)]

/-- A foreign key column takes its target's key type; a composite key is no target. -/
def fkType (s : SchemaSpec W X) (target key : Name) : Except Name (Name × PgType) :=
  match s.table? target with
  | none => fail (ascii "relation '" ++ key ++ ascii "' points at undeclared table '" ++ target ++ ascii "'")
  | some t => do
    match ← keyOf t with
    | [only] => return only
    | _ => fail (ascii "relation '" ++ key ++ ascii "': '" ++ target ++
        ascii "' has a composite key, which no FK may point at")

/-- A relation of the schema and its columns. -/
structure Rel where
  model : Name
  field : FieldSpec
  spec : RefSpec
  cols : List Name

def Rel.key (r : Rel) : Name := r.model ++ ascii "." ++ r.field.name

def relation (model : Name) (f : FieldSpec) (spec : RefSpec) : Except Name Rel := do
  if spec.onDelete = some .setNull ∧ f.optional = false then
    fail (ascii "relation '" ++ (model ++ ascii "." ++ f.name) ++ ascii "': onDelete 'setNull' needs an optional ref")
  let cols ← if spec.targets.length = 1 then .ok [f.name] else spec.targets.mapM fun t => ident (f.name ++ ascii "__" ++ t)
  return ⟨model, f, spec, cols⟩

/-- The reference fields of a schema. -/
def refs (s : SchemaSpec W X) : List (Name × FieldSpec × RefSpec) :=
  s.tables.flatMap fun t => t.fields.filterMap fun f =>
    match f.kind with
    | .ref r => some (t.name, f, r)
    | _ => none

def relations (s : SchemaSpec W X) : Except Name (List Rel) := (refs s).mapM fun r => relation r.1 r.2.1 r.2.2

def auditColumns : List (Name × PgType) :=
  [(ascii "revision", .int), (ascii "created_at", .timestamptz), (ascii "created_by", .text),
    (ascii "updated_at", .timestamptz), (ascii "updated_by", .text)]

/-- A table with its columns, and the columns of each field. -/
structure Columns where
  cols : List (Name × Col)
  fieldCols : List (Name × List Name)

def Columns.typing (c : Columns) (col : Name) : Option Col := c.cols.lookup col

/-- The columns of a stored field that is no reference. -/
def fieldColumn (model : Name) (f : FieldSpec) : Except Name (Option (Name × Col)) :=
  match f.kind with
  | .ref _ => .ok none
  | k => do
    let name ← ident f.name
    let type ← typeOf k (model ++ ascii "." ++ f.name)
    return some (name, ⟨type, f.optional⟩)

/-- The columns of a relation, each of its target's key type. -/
def refColumns (s : SchemaSpec W X) (r : Rel) : Except Name (List (Name × Col)) :=
  (r.cols.zip r.spec.targets).mapM fun c => do
    let key ← fkType s c.2 r.key
    return (c.1, ⟨key.2, r.field.optional || 1 < r.cols.length⟩)

/-- What `tables` sets for a table, in its order. -/
def columnsOf (s : SchemaSpec W X) (rels : List Rel) (t : Table W X) : Except Name Columns := do
  let _ ← ident t.name
  let fields ← t.fields.mapM (fieldColumn t.name)
  let own := rels.filter (·.model == t.name)
  let refs ← own.mapM (refColumns s)
  -- a key of fields has its columns among theirs
  let key ← match t.key with
    | .fields _ => .ok []
    | _ => keyOf t
  let stored := fields.filterMap id
  let computed := t.computed.map fun c => (c.1, (⟨c.2.1.type, true⟩ : Col))
  let keys := key.map fun k => (k.1, (⟨k.2, false⟩ : Col))
  let audit := if t.audit then auditColumns.map fun a => (a.1, (⟨a.2, true⟩ : Col)) else []
  let single (cs : List (Name × Col)) := cs.map fun c => (c.1, [c.1])
  return {
    cols := (stored ++ refs.flatten ++ computed ++ keys ++ audit).foldl (fun m c => put c.1 c.2 m) []
    fieldCols := (single stored ++ own.map (fun r => (r.field.name, r.cols)) ++ single computed ++ single keys ++
      single audit).foldl (fun m c => put c.1 c.2 m) [] }

def replaceQuotes : Name → Name
  | [] => []
  | u :: rest => if u = 34 then 34 :: 34 :: replaceQuotes rest else u :: replaceQuotes rest

/-- An identifier quoted. -/
def q (id : Name) : Name := ascii "\"" ++ replaceQuotes id ++ ascii "\""

def commas : List Name → Name
  | [] => []
  | [x] => x
  | x :: rest => x ++ ascii ", " ++ commas rest

/-- `coalesce`'s stand-in for null, by column type. -/
def sentinel : PgType → Name
  | .boolean => ascii "false"
  | .uuid => ascii "'00000000-0000-0000-0000-000000000000'::uuid"
  | .int | .bigint | .numeric | .double => ascii "0"
  | .date => ascii "'-infinity'::date"
  | .timestamptz => ascii "'-infinity'::timestamptz"
  | t => ascii "''::" ++ t.sqlName

/-- Composite identity treats null as a value: `coalesce(x, <sentinel>)` plus `x is null`. -/
def nullAsValue (cols : List (Name × Col)) : List Name :=
  cols.flatMap fun c =>
    if c.2.optional then
      [ascii "(coalesce(" ++ q c.1 ++ ascii ", " ++ sentinel c.2.type ++ ascii ")) with =",
        ascii "(" ++ q c.1 ++ ascii " is null) with ="]
    else [q c.1 ++ ascii " with ="]

/-- A predicate with its SQL. -/
structure Pred (W : Type) where
  w : W
  sql : Name

inductive Definition (W : Type) where
  | unique (cols : List Name) (nullsNotDistinct deferrable : Bool)
  | check (expr : Name)
  /-- Of a reference to several models: at most, or exactly, one of its columns holds a value. -/
  | arms (cols : List Name) (optional : Bool)
  /-- A partial unique of an audited table, which an index could not defer. -/
  | exclude (cols : List (Name × Col)) (pred : Pred W)
  | overlap (cols : List (Name × Col)) (period : Name) (pred : Option (Pred W))
  | foreignKey (col target key : Name) (onDelete : Name)
  | index (sql : Name)

/-- The definition as SQL; what a constraint's name is hashed from. -/
def Definition.sql : Definition W → Name
  | unique cols nulls deferrable =>
    ascii "unique" ++ (if nulls then ascii " nulls not distinct" else []) ++ ascii " (" ++ commas (cols.map q) ++ ascii ")" ++
      (if deferrable then ascii " deferrable initially immediate" else [])
  | check expr => ascii "check (" ++ expr ++ ascii ")"
  | arms cols optional =>
    ascii "num_nonnulls(" ++ commas (cols.map q) ++ ascii ") " ++ (if optional then ascii "<=" else ascii "=") ++ ascii " 1"
  | exclude cols pred =>
    let keys := if 1 < cols.length then nullAsValue cols else cols.map fun c => q c.1 ++ ascii " with ="
    ascii "exclude using btree (" ++ commas keys ++ ascii ") where " ++ pred.sql ++ ascii " deferrable initially immediate"
  | overlap cols period pred =>
    ascii "exclude using gist (" ++ commas (nullAsValue cols ++ [q period ++ ascii " with &&"]) ++ ascii ")" ++
      (pred.elim [] fun p => ascii " where " ++ p.sql) ++ ascii " deferrable initially immediate"
  | foreignKey col target key onDelete =>
    ascii "foreign key (" ++ q col ++ ascii ") references " ++ q target ++ ascii " (" ++ q key ++ ascii ")" ++ onDelete
  | index sql => sql

/-- Counts the rows a new object would refuse. -/
inductive Violations (W : Type) where
  /-- `dupes`: rows beyond the first of each group, of those with a value in `present` and for which `pred` holds. -/
  | dupes (cols : List Name) (present : Option Name) (pred : Option W)
  | isFalse (expr : Name)
  | armsFalse (cols : List Name) (optional : Bool)
  /-- The pairs of rows, by key, alike in `cols` and overlapping in `period`. -/
  | overlaps (key : List Name) (cols : List Name) (period : Name) (pred : Option W)
  /-- The values of `col` that no row of the target has. -/
  | orphans (col target key : Name)
  | isNull (col : Name)

inductive ObjectKind where
  | uq
  | key
  | ck
  | ex
  | fk
  | ix
  | ux
  | px
  | gin
  | gist
  | hnsw
  deriving DecidableEq

def ObjectKind.text : ObjectKind → Name
  | .uq => ascii "uq"
  | .key => ascii "key"
  | .ck => ascii "ck"
  | .ex => ascii "ex"
  | .fk => ascii "fk"
  | .ix => ascii "ix"
  | .ux => ascii "ux"
  | .px => ascii "px"
  | .gin => ascii "gin"
  | .gist => ascii "gist"
  | .hnsw => ascii "hnsw"

/-- A named constraint or index of a table. -/
structure Object (W : Type) where
  table : Name
  kind : ObjectKind
  definition : Definition W
  violations : Option (Violations W)

/-- A column set not null. -/
structure NotNull where
  table : Name
  col : Name

def NotNull.violations (n : NotNull) : Violations W := .isNull n.col

/-- The SQL the source renders elsewhere in the module, and what else of a schema it refuses. -/
structure Rendering (W X : Type) where
  /-- `staticSql(w, t)`. -/
  staticSql : SchemaSpec W X → Table W X → W → Except Name Name
  /-- `staticSql(w, t, q, true)`. -/
  plainSql : SchemaSpec W X → Table W X → W → Except Name Name
  kindCheck : SchemaSpec W X → Table W X → FieldSpec → Except Name (Option Name)
  exprSql : SchemaSpec W X → Table W X → X → Except Name Name
  pathText : SchemaSpec W X → Table W X → Name → List Name → Except Name Name
  /-- What the function of a table's record label is hashed from. -/
  recordLabel : SchemaSpec W X → Table W X → Except Name (Option Name)
  rest : SchemaSpec W X → Except Name Unit

/-- The columns of some fields. -/
def colsOf (t : Table W X) (c : Columns) (fields : List Name) : Except Name (List Name) := do
  let cols ← fields.mapM fun f =>
    match c.fieldCols.lookup f with
    | none => fail (t.name ++ ascii ": unknown field '" ++ f ++ ascii "'")
    | some cols => .ok cols
  return cols.flatten

/-- The columns of an exclusion, which reads their types. -/
def typed (t : Table W X) (c : Columns) (cols : List Name) : Except Name (List (Name × Col)) :=
  cols.mapM fun name =>
    match c.cols.lookup name with
    | none => fail (t.name ++ ascii ": unknown column '" ++ name ++ ascii "'")
    | some col => .ok (name, col)

def check (t : Table W X) (expr : Name) : Object W := ⟨t.name, .ck, .check expr, some (.isFalse expr)⟩

def index (t : Table W X) (kind : ObjectKind) (sql : Name) : Object W := ⟨t.name, kind, .index sql, none⟩

def parens (names : List Name) : Name := ascii "(" ++ commas names ++ ascii ")"

def Metric.ops : Metric → Name
  | .l2 => ascii "vector_l2_ops"
  | .cosine => ascii "vector_cosine_ops"
  | .ip => ascii "vector_ip_ops"

def hnsw (t : Table W X) (col : Name) (metric : Metric) : Object W :=
  index t .hnsw (ascii "using hnsw (" ++ col ++ ascii " " ++ metric.ops ++ ascii ")")

variable (r : Rendering W X) (s : SchemaSpec W X) (t : Table W X) (c : Columns) (keyNames : List Name)

/-- The checks of the key and identity columns. -/
def keyChecks : Except Name (List (Object W)) := do
  if t.native then
    let checks ← (keyNames ++ t.identity.toList).dedup.mapM fun name =>
      match t.field? name with
      | none => .ok none
      | some f => do
        let sql ← r.kindCheck s t f
        return sql.map (check t)
    return checks.filterMap id
  else return []

/-- The index a field's kind comes with. -/
def kindIndex (f : FieldSpec) : List (Object W) :=
  match f.kind with
  | .text true | .enum true => [index t .gin (ascii "using gin (" ++ q f.name ++ ascii ")")]
  | .point => [index t .gist (ascii "using gist (" ++ q f.name ++ ascii ")")]
  | .vector _ metric => [hnsw t (q f.name) metric]
  | _ => []

def uniqueField (f : FieldSpec) : List (Object W) :=
  if f.unique then [⟨t.name, .uq, .unique [f.name] false t.audit, some (.dupes [f.name] (some f.name) none)⟩] else []

/-- A sequence's numbers are unique in its scope. -/
def seqObjects (f : FieldSpec) : Except Name (List (Object W)) :=
  match f.kind with
  | .seq _ per => do
    let scope ← colsOf t c per
    return [⟨t.name, .uq, .unique (scope ++ [f.name]) true t.audit, some (.dupes (scope ++ [f.name]) none none)⟩]
  | _ => .ok []

def isRef (f : FieldSpec) : Bool :=
  match f.kind with
  | .ref _ => true
  | _ => false

/-- The constraints and indexes of a stored field. -/
def fieldObjects (f : FieldSpec) : Except Name (List (Object W)) :=
  if keyNames.contains f.name || isRef f || t.identity = some f.name then .ok []
  else do
    let kc ← r.kindCheck s t f
    let seq ← seqObjects t c f
    return (kc.map (check t)).toList ++ kindIndex t f ++ uniqueField t f ++ seq

/-- The indexes of the search document, its embedding and the declared ones. -/
def searchObjects : Except Name (List (Object W)) := do
  let label ← r.recordLabel s t
  match t.search.or (if label.isSome then some ⟨false, []⟩ else none) with
  | none => return []
  | some search => do
    let declared ← search.indexes.mapM fun i =>
      match i.field with
      | some field =>
        match (t.field? field).map FieldSpec.kind with
        | some (.vector dim metric) =>
          if dim = i.dim ∧ metric = i.metric then .ok []
          else fail (t.name ++ ascii ": search index '" ++ i.name ++ ascii "' must match its vector field '" ++ field ++ ascii "'")
        | _ => fail (t.name ++ ascii ": search index '" ++ i.name ++ ascii "' must match its vector field '" ++ field ++ ascii "'")
      | none => do
        let column ← ident (ascii "$idx_" ++ i.name)
        return [hnsw t (q column) i.metric]
    return index t .gin (ascii "using gin (bolt_search)") ::
      ((if search.semantic then [hnsw t (ascii "bolt_embedding") .cosine] else []) ++ declared.flatten)

def naturalObjects : Except Name (List (Object W)) := do
  match t.natural with
  | none => return []
  | some fields => do
    let cols ← colsOf t c fields
    return [⟨t.name, .key, .unique cols false false, some (.dupes cols none none)⟩]

/-- A lone column is a duplicate only where it holds a value. -/
def lone : List Name → Option Name
  | [c] => some c
  | _ => none

/-- A unique over some of the rows: an exclusion of an audited table, an index of another. -/
def partialUnique (cols : List Name) (w : W) : Except Name (Object W) :=
  if t.audit then do
    let sql ← r.staticSql s t w
    let keys ← typed t c cols
    return ⟨t.name, .ex, .exclude keys ⟨w, sql⟩, some (.dupes cols (lone cols) (some w))⟩
  else do
    let sql ← r.plainSql s t w
    return index t .ux (parens (cols.map q) ++ ascii " where " ++ sql)

def uniqueObject (u : UniqueSpec W) : Except Name (Object W) := do
  let cols ← colsOf t c u.fields
  if cols.isEmpty then fail (t.name ++ ascii ": a unique names no field")
  else match u.pred with
    | none => return ⟨t.name, .uq, .unique cols (1 < cols.length) t.audit, some (.dupes cols (lone cols) none)⟩
    | some w => partialUnique r s t c cols w

/-- `staticSql` of a predicate, if there is one. -/
def predOf : Option W → Except Name (Option (Pred W))
  | none => .ok none
  | some w => do
    let sql ← r.staticSql s t w
    return some ⟨w, sql⟩

def overlapObject (o : NoOverlap W) : Except Name (Object W) := do
  let cols ← colsOf t c o.key
  let pred ← predOf r s t o.pred
  let keys ← typed t c cols
  return ⟨t.name, .ex, .overlap keys o.period pred, some (.overlaps keyNames cols o.period o.pred)⟩

def indexPart : IndexPart X → Except Name Name
  | .expr e => do
    let sql ← r.exprSql s t e
    return ascii "(" ++ sql ++ ascii ")"
  | .field f => do
    let cols ← colsOf t c [f]
    return q (cols.head?.getD f)
  | .lower f => do
    let cols ← colsOf t c [f]
    return ascii "lower(" ++ q (cols.head?.getD f) ++ ascii ")"

def indexPred : Option W → Except Name Name
  | none => .ok []
  | some w => do
    let sql ← r.plainSql s t w
    return ascii " where " ++ sql

def indexObject (i : IndexSpec W X) : Except Name (Object W) := do
  let on ← i.on.mapM (indexPart r s t c)
  let pred ← indexPred r s t i.pred
  return index t (if i.unique then .ux else .ix) (parens on ++ pred)

def pathObject (p : PathIndex) : Except Name (Object W) :=
  let json (field : Name) : Except Name Unit :=
    if (c.cols.lookup field).map Col.type = some .jsonb then .ok ()
    else fail (t.name ++ ascii ": a path index reads a json field, not '" ++ field ++ ascii "'")
  match p with
  | .gin field => do
    json field
    return index t .gin (ascii "using gin (" ++ q field ++ ascii " jsonb_path_ops)")
  | .path field path => do
    json field
    let text ← r.pathText s t field path
    return index t .px (ascii "((" ++ text ++ ascii "))")

/-- The objects of a table's own declarations, in the source's order. -/
def tableObjects : Except Name (List (Object W)) := do
  let key ← keyOf t
  let keyNames := key.map Prod.fst
  let keyChecks ← keyChecks r s t keyNames
  let fields ← t.fields.mapM (fieldObjects r s t c keyNames)
  let search ← searchObjects r s t
  let natural ← naturalObjects t c
  let unique ← t.unique.mapM (uniqueObject r s t c)
  let checks ← t.check.mapM (r.staticSql s t)
  let overlaps ← t.noOverlap.mapM (overlapObject r s t c keyNames)
  let plain ← t.index.mapM fun i => do
    let cols ← colsOf t c i
    return index t .ix (parens (cols.map q))
  let indexes ← t.indexes.mapM (indexObject r s t c)
  let paths ← t.paths.mapM (pathObject r s t c)
  return keyChecks ++ fields.flatten ++ search ++ natural ++ unique ++ checks.map (check t) ++ overlaps ++ plain ++
    indexes ++ paths

/-- The text of a reference's deletes. -/
def onDelete (rel : Rel) : Name :=
  let action := rel.spec.onDelete.getD (if rel.spec.owned then .cascade else .restrict)
  if t.native then
    ascii " on delete " ++ (match action with
      | .setNull => ascii "set null"
      | .cascade => ascii "cascade"
      | .restrict => ascii "restrict") ++ ascii " on update restrict"
  else if t.managedDeletes then []
  else match action with
    | .cascade => ascii " on delete cascade"
    | .setNull => ascii " on delete set null"
    | .restrict => []

/-- The foreign keys of a relation, an index each, and the check of its columns. -/
def relationObjects (rel : Rel) : Except Name (List (Object W)) := do
  match s.table? rel.model with
  | none => fail (ascii "relation '" ++ rel.key ++ ascii "' names unknown table '" ++ rel.model ++ ascii "'")
  | some owner => do
    let each ← (rel.cols.zip rel.spec.targets).mapM fun col => do
      let key ← fkType s col.2 rel.key
      let fk : Object W := ⟨rel.model, .fk, .foreignKey col.1 col.2 key.1 (onDelete owner rel),
        some (.orphans col.1 col.2 key.1)⟩
      let unique : List (Object W) := if owner.native && rel.field.unique then
          [⟨rel.model, .uq, .unique [col.1] false owner.audit, some (.dupes [col.1] (some col.1) none)⟩]
        else []
      return fk :: (unique ++ [⟨rel.model, .ix, .index (parens [q col.1]), none⟩])
    let arms : List (Object W) := if 1 < rel.cols.length then
        [⟨rel.model, .ck, .arms rel.cols rel.field.optional, some (.armsFalse rel.cols rel.field.optional)⟩]
      else []
    return each.flatten ++ arms

/-- The join table's pair, both ways round. -/
def throughObjects : List (Object W) :=
  t.through.flatMap fun m =>
    [⟨m.table, .ux, .index (parens [q m.origin, q m.target]), none⟩,
      ⟨m.table, .ix, .index (parens [q m.target, q m.origin]), none⟩]

/-- The named objects as they are pushed. -/
def pushed : Except Name (List (Object W)) := do
  let rels ← relations s
  let columns ← s.tables.mapM (columnsOf s rels)
  let tables ← (s.tables.zip columns).mapM fun t => tableObjects r s t.1 t.2
  let relations ← rels.mapM (relationObjects s)
  r.rest s
  return tables.flatten ++ relations.flatten ++ s.tables.flatMap throughObjects

def isRollup (f : FieldSpec) : Bool :=
  match f.kind with
  | .sum | .count => true
  | _ => false

/-- The columns set not null: of the stored fields, the natural key and the references to one model. -/
def notNulls : Except Name (List NotNull) := do
  let rels ← relations s
  let columns ← s.tables.mapM (columnsOf s rels)
  let tables ← (s.tables.zip columns).mapM fun t => do
    let key ← keyOf t.1
    let keyNames := key.map Prod.fst
    let stored := t.1.fields.filter fun f =>
      !keyNames.contains f.name && !isRef f && t.1.identity ≠ some f.name && (!f.optional || isRollup f)
    let natural ← match t.1.natural with
      | some fields => if t.1.native then colsOf t.1 t.2 fields else .ok []
      | none => .ok []
    return (stored.map FieldSpec.name ++ natural).map (NotNull.mk t.1.name)
  let refs := rels.filter fun rel => rel.cols.length = 1 && !rel.field.optional
  return tables.flatten ++ refs.map fun rel => ⟨rel.model, rel.field.name⟩

end Schema

end Norbital.Store.Constraints

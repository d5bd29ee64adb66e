import Norbital.Lib.Entries
import Norbital.Std.Kind

/-!
# Flattening an act's input

The `Flattener` of `bolt/src/engine/write/flatten.ts`: a row's input becomes its own
change and those of its relation actions, at any depth, each at its path in the input.
What a field's value is decoded to (`decodeValue`, the teams and the declared shapes)
is a parameter.

An item carries, beside what the code keeps, the relations it was reached through and
the column that its relation action sets.
-/

namespace Norbital.Bolt.Flatten

open Norbital.Lib
open Norbital.Std (Json)

structure Field where
  computed : Bool
  derived : Bool

/-- A many-relation: the rows of `child` whose `column` holds this row's id. -/
structure ManyRel where
  child : String
  column : String

structure Model where
  fields : List (String × Field)
  many : List (String × ManyRel)

/-- A layer of `attaches`. -/
structure Target where
  model : String
  field : String

/-- What is read of the manifest.  `decode` has a field's value as it is stored, or what is wrong with it; `invisible`
is `/\p{Cf}/u`. -/
structure Manifest where
  model : String → Model
  owned : String → String → Bool
  attaches : String → Option (List (String × Target))
  decode : String → String → Json → Except String Json
  invisible : String → Bool

inductive Part where
  | name (s : String)
  | index (n : Nat)
  deriving DecidableEq

/-- `InputPath`. -/
abbrev Path := List Part

abbrev Row := List (String × Json)

inductive Op where
  | create (values : Row)
  | upsert (values : Row) (on : List String)
  | update (set : Row)
  | delete

structure Change where
  model : String
  id : String
  path : Path
  op : Op

/-- The parent row and the relation an item came through. -/
structure Parent where
  model : String
  id : String
  rel : String
  fk : String

/-- `through` are the relations an item was reached through, `implied` the column its relation action sets. -/
structure Item where
  change : Change
  supplied : List String
  parent : Option Parent
  attach : Bool
  through : List String
  implied : Option String

/-- An input allowlist, or `any` for a callback's payload. -/
inductive Sel where
  | any
  | only (columns : List String) (withs : List (String × List (String × Sel)))

def Sel.none : Sel := .only [] []

def Sel.columns : Sel → String → Bool
  | .any, _ => true
  | .only columns _, field => columns.contains field

/-- The actions of a relation; `none` of a callback's payload, which takes all. -/
def Sel.withs : Sel → String → Option (List (String × Sel))
  | .any, _ => .none
  | .only _ withs, rel => some ((withs.lookup rel).getD [])

def Sel.relation : Sel → String → Bool
  | .any, _ => true
  | .only _ withs, rel => (withs.lookup rel).isSome

def ACTIONS : List String := ["create", "update", "upsert", "link", "unlink", "delete"]

def SYSTEM : List String := ["id", "revision", "created_at", "created_by", "updated_at", "updated_by"]

/-- `LIMITS.writeDepth`. -/
def writeDepth : Nat := 8

def Part.action : Part → Bool
  | .name s => ACTIONS.contains s
  | .index _ => false

structure Flattener where
  items : List Item
  problems : List (Path × String)
  minted : Nat

namespace Flattener

def bad (f : Flattener) (path : Path) (message : String) : Flattener :=
  { f with problems := f.problems ++ [(path, message)] }

def push (f : Flattener) (item : Item) : Flattener := { f with items := f.items ++ [item] }

end Flattener

/-- The columns of an input object, its relations, and the names it supplied. -/
structure Decoded where
  values : Row
  rels : List (String × Json)
  supplied : List String

variable (m : Manifest)

/-- What may be written of a model. -/
def writable (model : String) (sel : Sel) : List String :=
  ((m.model model).fields.filter fun (name, x) =>
    !x.computed && !x.derived && !SYSTEM.contains name && sel.columns name).map Prod.fst

def unknownField (model : String) (sel : Sel) (k : String) : String :=
  "'" ++ k ++ "' is not a field of " ++ model ++
    (if m.invisible k then " (the name holds invisible characters)" else "") ++
    "; its fields: " ++ ", ".intercalate (writable m model sel)

/-- One member of an input object. -/
def column (model : String) (sel : Sel) (path : Path) : Decoded × Flattener → String × Json → Decoded × Flattener
  | (d, f), (k, v) =>
    if ((m.model model).many.lookup k).isSome then
      if !sel.relation k then (d, f.bad (path ++ [Part.name k]) ("'" ++ k ++ "' is not accepted here"))
      else
        match v with
        | .object _ | .array _ => ({ d with rels := d.rels ++ [(k, v)], supplied := d.supplied ++ [k] }, f)
        | _ => (d, f.bad (path ++ [Part.name k]) "expected relation actions")
    else
      match (m.model model).fields.lookup k with
      | none => (d, f.bad (path ++ [Part.name k]) (unknownField m model sel k))
      | some field =>
        -- a dotted path names what lies inside a field, and is never written on its own
        if k.toList.contains '.' then (d, f.bad (path ++ [Part.name k]) (unknownField m model sel k))
        else if field.computed || field.derived || SYSTEM.contains k then
          (d, f.bad (path ++ [Part.name k]) ("'" ++ k ++ "' is derived and cannot be written"))
        else if !sel.columns k then (d, f.bad (path ++ [Part.name k]) ("'" ++ k ++ "' is not accepted here"))
        else
          match m.decode model k v with
          | .error problem => (d, f.bad (path ++ [Part.name k]) problem)
          | .ok stored =>
            ({ d with values := d.values ++ [(k, stored)], supplied := d.supplied ++ [k] }, f)

def columns (model : String) (sel : Sel) (value : Option Json) (path : Path) (f : Flattener) :
    Option Decoded × Flattener :=
  match value with
  | some (.object members) =>
    let (d, f) := members.foldl (column m model sel path) (⟨[], [], []⟩, f)
    (some d, f)
  | _ => (none, f.bad path "expected an object")

def actions (path : Path) : Nat := (path.filter Part.action).length

/-- `depth`. -/
def deep (path : Path) : Bool := decide (writeDepth < actions path)

/-- The row a call writes: its model, allowlist, place in the input and parent. -/
structure Place where
  model : String
  sel : Sel
  path : Path
  parent : Option Parent
  through : List String

/-- A nested `create` or `update`. -/
inductive Call where
  | create (value : Option Json) (upsert : Option (List String)) (named : Option String)
  | update (id set : Option Json)

/-- The rows of a relation's actions at their paths. -/
abbrev Groups := List (String × Option (List (Json × Path)))

/-- A list's row: an object is created, an id linked. -/
def grouped (path : Path) (groups : Groups) (row : Json × Nat) : Groups :=
  let action := if row.1.isString then "link" else "create"
  put action (some (((groups.lookup action).getD none).getD [] ++ [(row.1, path ++ [Part.name action, .index row.2])])) groups

def groups (path : Path) : Json → Groups
  | .array rows => rows.zipIdx.foldl (grouped path) []
  | .object members =>
    members.map fun (action, list) =>
      (action, match list with
        | .array rows => some (rows.zipIdx.map fun (v, i) => (v, path ++ [Part.name action, .index i]))
        | _ => none)
  | _ => []

section Relations

variable (next : Place → Call → Flattener → Flattener)

/-- The row of a relation's upsert: with an id it updates that child, or leaves it; without one it is created. -/
def upsertRow (place : Place) (v : Json) (f : Flattener) : Flattener :=
  match v with
  | .object members =>
    let values := Json.object (without "id" members)
    match members.lookup "id" with
    | none => next place (.create (some values) none none) f
    | some (.string id) => next place (.create (some values) (some ["id"]) (some id)) f
    | some _ => f.bad (place.path ++ [Part.name "id"]) "expected an id"
  | _ => f.bad place.path "expected an object"

/-- A relation's upsert, of a row or of `{ values, onConflictDoUpdate }`. -/
def upsert (place : Place) (v : Json) (f : Flattener) : Flattener :=
  match v with
  | .object members =>
    match members.lookup "values", members.lookup "onConflictDoUpdate" with
    | some row, some onConflict =>
      match onConflict with
      | .bool _ =>
        if members.length ≠ 2 then f.bad place.path "expected { values, onConflictDoUpdate }"
        else upsertRow next { place with path := place.path ++ [Part.name "values"] } row f
      | _ => f.bad place.path "expected { values, onConflictDoUpdate }"
    | _, _ => upsertRow next place v f
  | _ => upsertRow next place v f

/-- `delete`. -/
def delete (place : Place) (id : Option Json) (f : Flattener) : Flattener :=
  match id with
  | some (.string id) => f.push ⟨⟨place.model, id, place.path, .delete⟩, [], place.parent, false, place.through, none⟩
  | _ => f.bad place.path "expected an id"

/-- One row of a relation action. -/
def entry (rel : ManyRel) (place : Place) (parent : Parent) (action : String) (v : Json) (f : Flattener) : Flattener :=
  if action = "create" then next place (.create (some v) none none) f
  else if action = "upsert" then upsert next place v f
  else if action = "update" then
    match v with
    | .object members => next place (.update (members.lookup "target") (members.lookup "set")) f
    | _ => f.bad place.path "expected { target, set }"
  else if action = "delete" then delete place (some v) f
  -- what is left are `link` and `unlink`, which move a child
  else if m.owned rel.child rel.column then
    f.bad place.path ("an owned " ++ rel.child ++ " never changes its parent")
  else
    match v with
    | .string id =>
      let value := if action = "link" then Json.string parent.id else .null
      f.push ⟨⟨rel.child, id, place.path, .update [(rel.column, value)]⟩, [rel.column], some parent, false, place.through,
        some rel.column⟩
    | _ => f.bad place.path "expected an id"

/-- The rows of one action of a relation. -/
def group (rel : ManyRel) (parent : Parent) (allowed : Option (List (String × Sel))) (path : Path)
    (through : List String) (f : Flattener) : String × Option (List (Json × Path)) → Flattener
  | (action, list) =>
    if !ACTIONS.contains action || allowed.any fun actions => (actions.lookup action).isNone then
      f.bad (path ++ [Part.name action]) ("'" ++ action ++ "' is not accepted here")
    else
      match list with
      | none => f.bad (path ++ [Part.name action]) "expected a list"
      | some list =>
        if deep (path ++ [Part.name action]) then
          f.bad (path ++ [Part.name action]) "relation actions nest at most 8 deep"
        else
          let sub := (allowed.bind fun actions => actions.lookup action).getD .any
          list.foldl (fun f (v, p) => entry m next rel ⟨rel.child, sub, p, some parent, through⟩ parent action v f) f

/-- The relation actions of a row (`relations`). -/
def relations (place : Place) (id : String) (rels : List (String × Json)) (path : Path) (f : Flattener) : Flattener :=
  rels.foldl (fun f (name, actions) =>
    match (m.model place.model).many.lookup name with
    | none => f
    | some rel =>
      (groups (path ++ [Part.name name]) actions).foldl
        (group m next rel ⟨place.model, id, name, rel.column⟩ (place.sel.withs name) (path ++ [Part.name name])
          (place.through ++ [name])) f) f

/-- An id of an attach layer: its row's declared ref is set to the new row. -/
def attachRow (model id layer : String) (target : Target) (path : Path) (s : List String × Flattener)
    (row : Json × Nat) : List String × Flattener :=
  match row.1 with
  | .string child =>
    if s.1.contains child then (s.1, s.2.bad (path ++ [Part.index row.2]) "duplicate id")
    else
      (s.1 ++ [child],
        s.2.push ⟨⟨target.model, child, path ++ [Part.name "link", .index row.2], .update [(target.field, .string id)]⟩,
          [target.field], some ⟨model, id, layer, target.field⟩, true, [], some target.field⟩)
  | _ => (s.1, s.2.bad (path ++ [Part.index row.2]) "expected an id")

/-- `attaches`. -/
def attach (model : String) (layers : List (String × Target)) (value : Json) (id : String) (path : Path)
    (f : Flattener) : Flattener :=
  match value with
  | .object members =>
    members.foldl (fun f (layer, ids) =>
      let path := path ++ [Part.name "attaches", .name layer]
      match layers.lookup layer, ids with
      | none, _ => f.bad path ("'" ++ layer ++ "' is not an attach layer of " ++ model)
      | some target, .array ids => (ids.zipIdx.foldl (attachRow model id layer target path) ([], f)).2
      | some _, _ => f.bad path "expected a list of ids") f
  | _ => f.bad (path ++ [Part.name "attaches"]) "expected an object of layer → ids"

variable (mint : Nat → String)

/-- A root's input without its `attaches`, and those. -/
def attached (layers : Option (List (String × Target))) (value : Option Json) : Option Json × Option Json :=
  match layers, value with
  | some _, some (.object members) => (some (.object (without "attaches" members)), members.lookup "attaches")
  | _, _ => (value, none)

/-- `create`; an upsert has the columns it names its row by. -/
def create (place : Place) (value : Option Json) (upsert : Option (List String)) (named : Option String)
    (f : Flattener) : Flattener :=
  let layers := if place.parent.isNone then m.attaches place.model else none
  let input := attached layers value
  match columns m place.model place.sel input.1 place.path f with
  | (none, f) => f
  | (some d, f) =>
    let values := if upsert.isSome then named.elim d.values fun id => put "id" (.string id) d.values else d.values
    -- a nested row is its parent's, whatever the caller wrote there
    let values := place.parent.elim values fun parent => put parent.fk (.string parent.id) values
    let id := if upsert.isNone then named.getD (mint f.minted) else mint f.minted
    let op := upsert.elim (Op.create values) (Op.upsert values)
    let f := { f with minted := f.minted + 1 }.push
      ⟨⟨place.model, id, place.path, op⟩, d.supplied, place.parent, false, place.through, place.parent.map Parent.fk⟩
    let f := relations m next place id d.rels place.path f
    match input.2, layers with
    | some value, some layers => attach place.model layers value id place.path f
    | _, _ => f

/-- `update`; a nested one sets what the caller wrote and nothing else. -/
def update (place : Place) (id set : Option Json) (f : Flattener) : Flattener :=
  match id with
  | some (.string id) =>
    match columns m place.model place.sel set (place.path ++ [Part.name "set"]) f with
    | (none, f) => f
    | (some d, f) =>
      let f := f.push ⟨⟨place.model, id, place.path, .update d.values⟩, d.supplied, place.parent, false, place.through, none⟩
      relations m next place id d.rels (place.path ++ [Part.name "set"]) f
  | _ => f.bad (place.path ++ [Part.name "target"]) "expected an id"

end Relations

/-- A call with so many levels of relation actions below it at most. -/
def write (mint : Nat → String) : Nat → Place → Call → Flattener → Flattener
  | 0, _, _, f => f
  | n + 1, place, .create value upsert named, f => create m (write mint n) mint place value upsert named f
  | n + 1, place, .update id set, f => update m (write mint n) place id set f

/-- What the pipeline asks for a row of an act. -/
inductive Input where
  | create (sel : Sel) (value : Json) (upsert : Option (List String)) (named : Option String)
  | update (sel : Sel) (id set : Option Json)
  | delete (id : Option Json)
  | keep

def row (mint : Nat → String) (root : String) (f : Flattener) : Input × Nat → Flattener
  | (.create sel value upsert named, i) =>
    write m mint (writeDepth + 1) ⟨root, sel, [.index i], none, []⟩ (.create (some value) upsert named) f
  | (.update sel id set, i) =>
    write m mint (writeDepth + 1) ⟨root, sel, [.index i], none, []⟩ (.update id set) f
  | (.delete id, i) => delete ⟨root, .none, [.index i], none, []⟩ id f
  | (.keep, _) => f

/-- The rows of an act and, of an import, the ids it prunes. -/
def flatten (mint : Nat → String) (root : String) (inputs : List Input) (prune : List String) : Flattener :=
  prune.foldl (fun f id => delete ⟨root, .none, [.name "prune"], none, []⟩ (some (.string id)) f)
    (inputs.zipIdx.foldl (row m mint root) ⟨[], [], 0⟩)

/-- A step of the flattener adds items after those it has, each with a property. -/
def Adds (P : Item → Prop) (f f' : Flattener) : Prop := ∃ new, f'.items = f.items ++ new ∧ ∀ it ∈ new, P it

variable {m} {P Q : Item → Prop} {f f' f'' : Flattener}

theorem Adds.same (h : f'.items = f.items) : Adds P f f' := ⟨[], by rw [h, List.append_nil], fun _ h => by cases h⟩

theorem Adds.bad (path : Path) (message : String) : Adds P f (f.bad path message) := .same rfl

theorem Adds.push {it : Item} (h : P it) : Adds P f (f.push it) :=
  ⟨[it], rfl, fun it' hmem => by rwa [List.mem_singleton.1 hmem]⟩

theorem Adds.trans (h : Adds P f f') (h' : Adds P f' f'') : Adds P f f'' := by
  obtain ⟨new, hitems, hnew⟩ := h
  obtain ⟨new', hitems', hnew'⟩ := h'
  refine ⟨new ++ new', by rw [hitems', hitems, List.append_assoc], fun it hmem => ?_⟩
  exact (List.mem_append.1 hmem).elim (hnew it) (hnew' it)

theorem Adds.mono (h : Adds P f f') (hPQ : ∀ it, P it → Q it) : Adds Q f f' := by
  obtain ⟨new, hitems, hnew⟩ := h
  exact ⟨new, hitems, fun it hmem => hPQ it (hnew it hmem)⟩

theorem Adds.foldl {α : Type} {step : Flattener → α → Flattener} {l : List α}
    (h : ∀ a ∈ l, ∀ f, Adds P f (step f a)) (f : Flattener) : Adds P f (l.foldl step f) := by
  induction l generalizing f with
  | nil => exact .same rfl
  | cons a l ih => exact (h a List.mem_cons_self f).trans (ih (fun b hb => h b (List.mem_cons_of_mem a hb)) _)

/-- Decoding an object's columns adds problems only. -/
theorem columns_items (model : String) (sel : Sel) (value : Option Json) (path : Path) (f : Flattener) :
    (columns m model sel value path f).2.items = f.items := by
  have hcolumn : ∀ (s : Decoded × Flattener) (e : String × Json), (column m model sel path s e).2.items = s.2.items := by
    rintro ⟨d, f⟩ ⟨k, v⟩
    unfold column
    dsimp only
    repeat' split
    all_goals rfl
  have hfold : ∀ (members : List (String × Json)) (s : Decoded × Flattener),
      (members.foldl (column m model sel path) s).2.items = s.2.items := by
    intro members
    induction members with
    | nil => exact fun _ => rfl
    | cons e members ih => exact fun s => (ih _).trans (hcolumn s e)
  unfold columns
  split
  · exact hfold _ _
  · rfl

/-- The parts of a path that stand before an action. -/
def layers : Path → List String
  | [] => []
  | .name s :: path => (if path.head?.any Part.action then [s] else []) ++ layers path
  | .index _ :: path => layers path

theorem layers_append {p q : Path} (hq : q.head?.any Part.action = false) : layers (p ++ q) = layers p ++ layers q := by
  induction p with
  | nil => rfl
  | cons part p ih =>
    cases part with
    | index n => exact ih
    | name s =>
      have hhead : (p ++ q).head?.any Part.action = p.head?.any Part.action := by
        cases p with
        | nil => exact hq
        | cons part p => rfl
      show (if (p ++ q).head?.any Part.action then [s] else []) ++ layers (p ++ q) =
        ((if p.head?.any Part.action then [s] else []) ++ layers p) ++ layers q
      rw [hhead, ih, List.append_assoc]

/-- No many-relation has the name of an action. -/
def Plain (m : Manifest) : Prop := ∀ model rel, ((m.model model).many.lookup rel).isSome = true → rel ∉ ACTIONS

theorem action_name {s : String} : Part.action (.name s) = true ↔ s ∈ ACTIONS := List.contains_iff_mem

/-- A row of a relation action stands one layer below. -/
theorem layers_relation {path : Path} {rel action : String} (i : Nat) (hrel : rel ∉ ACTIONS) (haction : action ∈ ACTIONS) :
    layers (path ++ [Part.name rel, .name action, .index i]) = layers path ++ [rel] := by
  have hhead : ([.name rel, .name action, .index i] : Path).head?.any Part.action = false :=
    Bool.eq_false_iff.2 fun h => hrel (action_name.1 h)
  rw [layers_append hhead]
  simp [layers, Part.action, haction]

/-- The item of the call's own row. -/
structure Self (place : Place) (it : Item) : Prop where
  path : it.change.path = place.path
  parent : it.parent = place.parent
  through : it.through = place.through
  attach : it.attach = false
  implied : it.implied = none ∨ it.implied = place.parent.map Parent.fk

/-- An item of the relation actions below the call's row: under plain names its path tells its relations. -/
structure Child (m : Manifest) (place : Place) (it : Item) : Prop where
  row : it.change.path.head? = place.path.head?
  parent : it.parent.isSome = true
  through : it.attach = false → it.through ≠ []
  implied : it.implied = none ∨ it.implied = it.parent.map Parent.fk
  layers : Plain m → it.attach = false → layers place.path = place.through → layers it.change.path = it.through

/-- A call adds nothing, or its own row's item and those below it. -/
def Wrote (m : Manifest) (place : Place) (f f' : Flattener) : Prop :=
  ∃ new, f'.items = f.items ++ new ∧
    (new = [] ∨ ∃ self rest, new = self :: rest ∧ Self place self ∧ ∀ it ∈ rest, Child m place it)

/-- A place below another's row. -/
structure Below (m : Manifest) (place child : Place) : Prop where
  row : child.path.head? = place.path.head?
  some : place.path ≠ []
  parent : child.parent.isSome = true
  through : child.through ≠ []
  layers : Plain m → Flatten.layers place.path = place.through → Flatten.layers child.path = child.through

variable {place child : Place}

theorem Below.self (h : Below m place child) {it : Item} (hself : Self child it) : Child m place it := by
  refine ⟨by rw [hself.path, h.row], by rw [hself.parent]; exact h.parent, fun _ => by rw [hself.through]; exact h.through,
    by rw [hself.parent]; exact hself.implied, fun hplain _ hlayers => ?_⟩
  rw [hself.path, hself.through]
  exact h.layers hplain hlayers

theorem Below.lower (h : Below m place child) {it : Item} (hchild : Child m child it) : Child m place it :=
  ⟨hchild.row.trans h.row, hchild.parent, hchild.through, hchild.implied, fun hplain hattach hlayers =>
    hchild.layers hplain hattach (h.layers hplain hlayers)⟩

theorem Below.wrote (h : Below m place child) (hwrote : Wrote m child f f') : Adds (Child m place) f f' := by
  obtain ⟨new, hitems, hnew⟩ := hwrote
  refine ⟨new, hitems, fun it hmem => ?_⟩
  rcases hnew with rfl | ⟨self, rest, rfl, hself, hrest⟩
  · cases hmem
  · rcases List.mem_cons.1 hmem with rfl | hmem
    · exact h.self hself
    · exact h.lower (hrest it hmem)

/-- Every nested call writes its own row and those below it. -/
def Writes (m : Manifest) (next : Place → Call → Flattener → Flattener) : Prop :=
  ∀ place call f, place.path ≠ [] → Wrote m place f (next place call f)

section

variable {next : Place → Call → Flattener → Flattener} {mint : Nat → String}

theorem Wrote.same (h : f'.items = f.items) : Wrote m place f f' := ⟨[], by rw [h, List.append_nil], .inl rfl⟩

theorem delete_wrote (place : Place) (id : Option Json) (f : Flattener) : Wrote m place f (delete place id f) := by
  unfold delete
  split
  · exact ⟨[_], rfl, .inr ⟨_, [], rfl, ⟨rfl, rfl, rfl, rfl, .inl rfl⟩, fun it hmem => by cases hmem⟩⟩
  · exact .same rfl

theorem layers_values (path : Path) : layers (path ++ [Part.name "values"]) = layers path :=
  (layers_append (by decide)).trans (List.append_nil _)

theorem layers_set (path : Path) : layers (path ++ [Part.name "set"]) = layers path :=
  (layers_append (by decide)).trans (List.append_nil _)

theorem upsertRow_child (hnext : Writes m next) (h : Below m place child) (hsome : child.path ≠ []) (v : Json)
    (f : Flattener) : Adds (Child m place) f (upsertRow next child v f) := by
  unfold upsertRow
  repeat' split
  · exact h.wrote (hnext child _ f hsome)
  · exact h.wrote (hnext child _ f hsome)
  · exact .bad _ _
  · exact .bad _ _

theorem upsert_child (hnext : Writes m next) (h : Below m place child) (hsome : child.path ≠ []) (v : Json)
    (f : Flattener) : Adds (Child m place) f (upsert next child v f) := by
  have hvalues : Below m place { child with path := child.path ++ [Part.name "values"] } := by
    refine ⟨?_, h.some, h.parent, h.through, fun hplain hlayers => ?_⟩
    · show (child.path ++ [Part.name "values"]).head? = place.path.head?
      rw [List.head?_append_of_ne_nil _ hsome]
      exact h.row
    · show layers (child.path ++ [Part.name "values"]) = child.through
      rw [layers_values]
      exact h.layers hplain hlayers
  unfold upsert
  repeat' split
  · exact .bad _ _
  · exact upsertRow_child hnext hvalues (List.append_ne_nil_of_right_ne_nil _ (List.cons_ne_nil _ _)) _ f
  · exact .bad _ _
  · exact upsertRow_child hnext h hsome _ f
  · exact upsertRow_child hnext h hsome _ f

/-- A row of a relation action is below the relation's row. -/
theorem entry_child (hnext : Writes m next) {rel : ManyRel} {parent : Parent} (h : Below m place child)
    (hsome : child.path ≠ []) (hfk : parent.fk = rel.column) (action : String)
    (v : Json) (f : Flattener) : Adds (Child m place) f (entry m next rel child parent action v f) := by
  unfold entry
  split_ifs
  · exact h.wrote (hnext child _ f hsome)
  · exact upsert_child hnext h hsome v f
  · split
    · exact h.wrote (hnext child _ f hsome)
    · exact .bad _ _
  · exact h.wrote (delete_wrote child (some v) f)
  · exact .bad _ _
  all_goals
    split
    · refine .push ⟨h.row, rfl, fun _ => h.through, .inr (congrArg some hfk.symm), fun hplain _ hlayers => ?_⟩
      exact h.layers hplain hlayers
    · exact .bad _ _

/-- Every group's rows are at its action, each at its index. -/
def Placed (path : Path) (groups : Groups) : Prop :=
  ∀ e ∈ groups, ∀ list, e.2 = some list → ∀ row ∈ list, ∃ i, row.2 = path ++ [Part.name e.1, .index i]

theorem placed_grouped {path : Path} {groups : Groups} (h : Placed path groups) (row : Json × Nat) :
    Placed path (grouped path groups row) := by
  intro e he list hlist placed hmem
  rcases mem_put he with rfl | he
  · obtain rfl := Option.some_inj.1 hlist
    rcases List.mem_append.1 hmem with hmem | hmem
    · cases hlookup : groups.lookup (if row.1.isString then "link" else "create") with
      | none =>
        rw [hlookup] at hmem
        cases hmem
      | some old =>
        rw [hlookup] at hmem
        cases old with
        | none => cases hmem
        | some old => exact h _ (mem_of_lookup hlookup) old rfl placed hmem
    · rw [List.mem_singleton.1 hmem]
      exact ⟨row.2, rfl⟩
  · exact h e he list hlist placed hmem

theorem placed_groups (path : Path) (actions : Json) : Placed path (groups path actions) := by
  unfold groups
  split
  · exact List.foldlRecOn (motive := Placed path) _ _ (fun _ h => by cases h) fun _ h row _ => placed_grouped h row
  · intro e he list hlist row hmem
    obtain ⟨⟨action, rows⟩, -, rfl⟩ := List.mem_map.1 he
    dsimp only at hlist ⊢
    split at hlist
    · obtain rfl := Option.some_inj.1 hlist
      obtain ⟨⟨v, i⟩, -, rfl⟩ := List.mem_map.1 hmem
      exact ⟨i, rfl⟩
    · cases hlist
  · exact fun _ h => by cases h

/-- The rows of a relation of the call's row, whose path is the row's own or what it sets, are below it. -/
theorem relations_child (hnext : Writes m next) {path : Path} (hpath : place.path ≠ []) (hsome : path ≠ [])
    (hrow : path.head? = place.path.head?) (hlayers : layers path = layers place.path) (id : String)
    (rels : List (String × Json)) (f : Flattener) : Adds (Child m place) f (relations m next place id rels path f) := by
  unfold relations
  refine .foldl (fun relation _ f => ?_) f
  obtain ⟨name, actions⟩ := relation
  dsimp only
  cases hrel : (m.model place.model).many.lookup name with
  | none => exact .same rfl
  | some rel =>
    refine .foldl (fun e he f => ?_) f
    obtain ⟨action, list⟩ := e
    unfold group
    dsimp only
    by_cases haccepted : (!ACTIONS.contains action ||
        (place.sel.withs name).any fun actions => (actions.lookup action).isNone) = true
    · rw [if_pos haccepted]
      exact .bad _ _
    rw [if_neg haccepted]
    cases list with
    | none => exact .bad _ _
    | some list =>
      dsimp only
      split_ifs
      · exact .bad _ _
      refine .foldl (fun row hrow' f => ?_) f
      obtain ⟨v, p⟩ := row
      obtain ⟨i, hp⟩ := placed_groups _ _ _ he list rfl _ hrow'
      have haction : action ∈ ACTIONS := by
        rw [Bool.or_eq_true, not_or] at haccepted
        simpa using haccepted.1
      have hplace : p = path ++ [Part.name name, .name action, .index i] := by
        rw [show p = _ from hp, List.append_assoc]
        rfl
      refine entry_child hnext ⟨?_, hpath, rfl, ?_, fun hplain hplace' => ?_⟩ ?_ rfl action v f
      · rw [hplace, List.head?_append_of_ne_nil _ hsome]
        exact hrow
      · exact List.append_ne_nil_of_right_ne_nil _ (List.cons_ne_nil _ _)
      · show layers p = place.through ++ [name]
        rw [hplace, layers_relation i (hplain _ _ (by rw [hrel]; rfl)) haction, hlayers, hplace']
      · rw [hplace]
        exact List.append_ne_nil_of_left_ne_nil hsome _

/-- The rows of an attach layer. -/
theorem attachRow_child {model id layer : String} {target : Target} (hpath : place.path ≠ []) (path : Path)
    (ids : List (Json × Nat)) (s : List String × Flattener) :
    Adds (Child m place) s.2 (ids.foldl (attachRow model id layer target (place.path ++ path)) s).2 := by
  induction ids generalizing s with
  | nil => exact .same rfl
  | cons row ids ih =>
    refine .trans ?_ (ih (attachRow model id layer target (place.path ++ path) s row))
    unfold attachRow
    split
    · split_ifs
      · exact .bad _ _
      · refine .push ⟨?_, rfl, fun h => (by cases h), .inr rfl, fun _ h => (by cases h)⟩
        rw [List.append_assoc, List.head?_append_of_ne_nil _ hpath]
    · exact .bad _ _

theorem attach_child {model id : String} {layers : List (String × Target)} {value : Json} (hpath : place.path ≠ [])
    (f : Flattener) : Adds (Child m place) f (attach model layers value id place.path f) := by
  unfold attach
  split
  · refine .foldl (fun e _ f => ?_) f
    dsimp only
    split
    · exact .bad _ _
    · exact attachRow_child hpath _ _ _
    · exact .bad _ _
  · exact .bad _ _

/-- A row's item and the items below it. -/
theorem Adds.wrote {it : Item} (h : Adds (Child m place) f' f'') (hitems : f'.items = f.items ++ [it])
    (hself : Self place it) : Wrote m place f f'' := by
  obtain ⟨new, hnew, hchild⟩ := h
  refine ⟨it :: new, ?_, .inr ⟨it, new, rfl, hself, hchild⟩⟩
  rw [hnew, hitems, List.append_assoc]
  rfl

theorem create_wrote (hnext : Writes m next) (hpath : place.path ≠ []) (value : Option Json)
    (on : Option (List String)) (named : Option String) (f : Flattener) :
    Wrote m place f (create m next mint place value on named f) := by
  unfold create
  dsimp only
  split
  · next f' hcolumns =>
    have hitems := columns_items (m := m) place.model place.sel
      (attached (if place.parent.isNone then m.attaches place.model else none) value).1 place.path f
    rw [hcolumns] at hitems
    exact .same hitems
  · next d f' hcolumns =>
    have hitems := columns_items (m := m) place.model place.sel
      (attached (if place.parent.isNone then m.attaches place.model else none) value).1 place.path f
    rw [hcolumns] at hitems
    split
    · exact ((relations_child hnext hpath hpath rfl rfl _ d.rels _).trans (attach_child hpath _)).wrote
        (congrArg (· ++ [_]) hitems) ⟨rfl, rfl, rfl, rfl, .inr rfl⟩
    · exact (relations_child hnext hpath hpath rfl rfl _ d.rels _).wrote (congrArg (· ++ [_]) hitems)
        ⟨rfl, rfl, rfl, rfl, .inr rfl⟩

theorem update_wrote (hnext : Writes m next) (hpath : place.path ≠ []) (id set : Option Json) (f : Flattener) :
    Wrote m place f (update m next place id set f) := by
  unfold update
  split
  · next id =>
    have hitems := columns_items (m := m) place.model place.sel set (place.path ++ [Part.name "set"]) f
    split
    · next f' hcolumns =>
      rw [hcolumns] at hitems
      exact .same hitems
    · next d f' hcolumns =>
      rw [hcolumns] at hitems
      have hset : (place.path ++ [Part.name "set"]).head? = place.path.head? := List.head?_append_of_ne_nil _ hpath
      exact (relations_child hnext hpath (List.append_ne_nil_of_left_ne_nil hpath _) hset (layers_set place.path) id _
        _).wrote (congrArg (· ++ [_]) hitems) ⟨rfl, rfl, rfl, rfl, .inl rfl⟩
  · exact .same rfl

theorem write_wrote : ∀ n, Writes m (write m mint n)
  | 0 => fun _ _ _ _ => .same rfl
  | n + 1 => fun place call f hpath => by
    cases call with
    | create value on named => exact create_wrote (write_wrote n) hpath value on named f
    | update id set => exact update_wrote (write_wrote n) hpath id set f

end

section

variable {next next' : Place → Call → Flattener → Flattener} {mint : Nat → String}

theorem actions_append (p q : Path) : actions (p ++ q) = actions p + actions q := by
  rw [actions, List.filter_append, List.length_append]
  rfl

/-- Calls that agree on the rows of an admitted depth. -/
def Agree (next next' : Place → Call → Flattener → Flattener) (depth : Nat) : Prop :=
  ∀ place call f, depth < actions place.path → actions place.path ≤ writeDepth → next place call f = next' place call f

theorem upsert_congr {depth : Nat} (h : Agree next next' depth) (hlt : depth < actions place.path)
    (hle : actions place.path ≤ writeDepth) (v : Json) (f : Flattener) : upsert next place v f = upsert next' place v f := by
  have hrow : ∀ (place : Place) (v : Json), depth < actions place.path → actions place.path ≤ writeDepth →
      upsertRow next place v f = upsertRow next' place v f := by
    intro place v hlt hle
    unfold upsertRow
    repeat' split
    · exact h _ _ f hlt hle
    · exact h _ _ f hlt hle
    · rfl
    · rfl
  have hvalues : actions (place.path ++ [Part.name "values"]) = actions place.path := actions_append _ _
  unfold upsert
  repeat' split
  · rfl
  · exact hrow _ _ (hvalues ▸ hlt) (hvalues ▸ hle)
  · rfl
  · exact hrow _ _ hlt hle
  · exact hrow _ _ hlt hle

theorem relations_congr {path : Path} (h : Agree next next' (actions path)) (id : String) (rels : List (String × Json))
    (f : Flattener) : relations m next place id rels path f = relations m next' place id rels path f := by
  refine List.foldl_ext _ _ _ fun f relation _ => ?_
  obtain ⟨name, members⟩ := relation
  dsimp only
  cases (m.model place.model).many.lookup name with
  | none => rfl
  | some rel =>
    refine List.foldl_ext _ _ _ fun f e he => ?_
    obtain ⟨action, list⟩ := e
    unfold group
    dsimp only
    by_cases haccepted : (!ACTIONS.contains action ||
        (place.sel.withs name).any fun actions => (actions.lookup action).isNone) = true
    · rw [if_pos haccepted, if_pos haccepted]
    rw [if_neg haccepted, if_neg haccepted]
    cases list with
    | none => rfl
    | some list =>
      dsimp only
      by_cases hdeep : deep (path ++ [Part.name name] ++ [Part.name action]) = true
      · rw [if_pos hdeep, if_pos hdeep]
      rw [if_neg hdeep, if_neg hdeep]
      refine List.foldl_ext _ _ _ fun f row hrow => ?_
      obtain ⟨i, hp⟩ := placed_groups _ _ _ he list rfl row hrow
      have haction : Part.action (.name action) = true := by
        rw [Bool.or_eq_true, not_or] at haccepted
        simpa [Part.action] using haccepted.1
      have hone : ∀ rest : Path, rest = [] ∨ rest = [.index i] → actions (.name action :: rest) = 1 := by
        intro rest hrest
        rw [actions, List.filter_cons_of_pos haction]
        rcases hrest with rfl | rfl <;> rfl
      have hactions : actions row.2 = actions (path ++ [Part.name name]) + 1 := by
        rw [hp, actions_append, hone _ (.inr rfl)]
      have hle : actions row.2 ≤ writeDepth := by
        rw [deep, actions_append, hone _ (.inl rfl), decide_eq_true_eq] at hdeep
        omega
      have hpath := actions_append path [.name name]
      have hlt : actions path < actions row.2 := by omega
      unfold entry
      split_ifs
      · exact h _ _ f hlt hle
      · exact upsert_congr h hlt hle _ f
      · split
        · exact h _ _ f hlt hle
        · rfl
      all_goals rfl

theorem write_succ {n : Nat} (place : Place) (call : Call) (f : Flattener) (hle : actions place.path ≤ writeDepth)
    (hlt : writeDepth < n + actions place.path) : write m mint (n + 1) place call f = write m mint n place call f := by
  induction n generalizing place call f with
  | zero => omega
  | succ n ih =>
    have hagree : ∀ path, actions path = actions place.path →
        Agree (write m mint (n + 1)) (write m mint n) (actions path) := by
      intro path hpath place' call f hbelow hwithin
      refine ih place' call f hwithin ?_
      omega
    have hrelations : ∀ id rels path f, actions path = actions place.path →
        relations m (write m mint (n + 1)) place id rels path f = relations m (write m mint n) place id rels path f :=
      fun id rels path f hpath => relations_congr (hagree path hpath) id rels f
    cases call with
    | create value on named =>
      show create m (write m mint (n + 1)) mint place value on named f = create m (write m mint n) mint place value on named f
      unfold create
      simp only [hrelations _ _ _ _ rfl]
    | update id set =>
      show update m (write m mint (n + 1)) place id set f = update m (write m mint n) place id set f
      unfold update
      have hset : actions (place.path ++ [Part.name "set"]) = actions place.path := actions_append _ _
      simp only [hrelations _ _ _ _ hset]

/-- The levels an act's rows are written with are enough: more write the same. -/
theorem write_enough {place : Place} (h : actions place.path = 0) (k : Nat) (call : Call) (f : Flattener) :
    write m mint (writeDepth + 1 + k) place call f = write m mint (writeDepth + 1) place call f := by
  induction k with
  | zero => rfl
  | succ k ih =>
    rw [← ih]
    exact write_succ (n := writeDepth + 1 + k) place call f (by omega) (by omega)

end

/-- The items of an act: those of its rows have no parent and stand at their row's place, each other below one of them;
rows at one place are one row, or pruned. -/
structure Rooted (m : Manifest) (items : List Item) : Prop where
  root : ∀ it ∈ items, it.parent = none → it.attach = false ∧ it.through = [] ∧ layers it.change.path = []
  child : ∀ it ∈ items, it.parent.isSome = true → it.attach = false → it.through ≠ [] ∧
    (Plain m → layers it.change.path = it.through)
  implied : ∀ it ∈ items, it.implied = none ∨ it.implied = it.parent.map Parent.fk
  row : ∀ it ∈ items, ∃ r ∈ items, r.parent = none ∧ r.change.path.head? = it.change.path.head?
  unique : ∀ r ∈ items, ∀ r' ∈ items, r.parent = none → r'.parent = none →
    r.change.path.head? = r'.change.path.head? → r = r' ∨ r.change.op = .delete ∧ r'.change.op = .delete

/-- The items of a further row. -/
theorem Rooted.row_wrote {items new : List Item} (h : Rooted m items) {part : Part} (hpath : place.path = [part])
    (hparent : place.parent = none) (hthrough : place.through = [])
    (hfresh : ∀ it ∈ items, it.change.path.head? ≠ some part)
    (hnew : new = [] ∨ ∃ self rest, new = self :: rest ∧ Self place self ∧ ∀ it ∈ rest, Child m place it) :
    Rooted m (items ++ new) := by
  rcases hnew with rfl | ⟨self, rest, rfl, hself, hrest⟩
  · rwa [List.append_nil]
  have hlayers : layers place.path = place.through := by
    rw [hpath, hthrough]
    cases part <;> rfl
  have hhead : self.change.path.head? = some part := by
    rw [hself.path, hpath]
    rfl
  have hselfParent : self.parent = none := hself.parent.trans hparent
  have hmem : ∀ it ∈ items ++ self :: rest, it ∈ items ∨ it = self ∨ it ∈ rest := by
    intro it hit
    exact (List.mem_append.1 hit).imp_right List.mem_cons.1
  have hroot : ∀ it ∈ items ++ self :: rest, it.parent = none → it ∈ items ∨ it = self := by
    intro it hit hnone
    rcases hmem it hit with hit | hit | hit
    · exact .inl hit
    · exact .inr hit
    · have hsome := (hrest it hit).parent
      rw [hnone] at hsome
      cases hsome
  refine ⟨fun it hit hnone => ?_, fun it hit hsome hattach => ?_, fun it hit => ?_, fun it hit => ?_,
    fun r hr r' hr' hnone hnone' hsame => ?_⟩
  · rcases hroot it hit hnone with hit | rfl
    · exact h.root it hit hnone
    · refine ⟨hself.attach, hself.through.trans hthrough, ?_⟩
      rw [hself.path, hlayers, hthrough]
  · rcases hmem it hit with hit | rfl | hit
    · exact h.child it hit hsome hattach
    · rw [hselfParent] at hsome
      cases hsome
    · exact ⟨(hrest it hit).through hattach, fun hplain => (hrest it hit).layers hplain hattach hlayers⟩
  · rcases hmem it hit with hit | rfl | hit
    · exact h.implied it hit
    · rw [hself.parent]
      exact hself.implied
    · exact (hrest it hit).implied
  · rcases hmem it hit with hit | rfl | hit
    · obtain ⟨r, hr, hnone, hsame⟩ := h.row it hit
      exact ⟨r, List.mem_append_left _ hr, hnone, hsame⟩
    · exact ⟨it, hit, hselfParent, rfl⟩
    · refine ⟨self, List.mem_append_right _ List.mem_cons_self, hselfParent, ?_⟩
      rw [(hrest it hit).row, hself.path]
  · rcases hroot r hr hnone with hold | rfl <;> rcases hroot r' hr' hnone' with hold' | rfl
    · exact h.unique r hold r' hold' hnone hnone' hsame
    · exact absurd (hsame.trans hhead) (hfresh r hold)
    · exact absurd (hsame.symm.trans hhead) (hfresh r' hold')
    · exact .inl rfl

/-- A pruned row's item. -/
theorem Rooted.pruned {items : List Item} (h : Rooted m items) (place : Place) {it : Item} (hpath : it.change.path = [.name "prune"])
    (hself : Self place it) (hparent : place.parent = none) (hthrough : place.through = []) (hop : it.change.op = .delete)
    (hdeletes : ∀ it ∈ items, it.change.path.head? = some (.name "prune") → it.change.op = .delete) :
    Rooted m (items ++ [it]) := by
  have hnone : it.parent = none := hself.parent.trans hparent
  have hmem : ∀ it' ∈ items ++ [it], it' ∈ items ∨ it' = it := by
    intro it' hit
    exact (List.mem_append.1 hit).imp_right List.mem_singleton.1
  refine ⟨fun it' hit hnone' => ?_, fun it' hit hsome hattach => ?_, fun it' hit => ?_, fun it' hit => ?_,
    fun r hr r' hr' hr0 hr0' hsame => ?_⟩
  · rcases hmem it' hit with hit | rfl
    · exact h.root it' hit hnone'
    · refine ⟨hself.attach, hself.through.trans hthrough, ?_⟩
      rw [hpath]
      rfl
  · rcases hmem it' hit with hit | rfl
    · exact h.child it' hit hsome hattach
    · rw [hnone] at hsome
      cases hsome
  · rcases hmem it' hit with hit | rfl
    · exact h.implied it' hit
    · rw [hself.parent]
      exact hself.implied
  · rcases hmem it' hit with hit | rfl
    · obtain ⟨r, hr, hr0, hsame⟩ := h.row it' hit
      exact ⟨r, List.mem_append_left _ hr, hr0, hsame⟩
    · exact ⟨it', hit, hnone, rfl⟩
  · rcases hmem r hr with hold | rfl <;> rcases hmem r' hr' with hold' | rfl
    · exact h.unique r hold r' hold' hr0 hr0' hsame
    · refine .inr ⟨hdeletes r hold (hsame.trans ?_), hop⟩
      rw [hpath]
      rfl
    · refine .inr ⟨hop, hdeletes r' hold' (hsame.symm.trans ?_)⟩
      rw [hpath]
      rfl
    · exact .inl rfl

theorem row_wrote (mint : Nat → String) (root : String) (input : Input) (i : Nat) (f : Flattener) :
    ∃ sel, Wrote m ⟨root, sel, [.index i], none, []⟩ f (row m mint root f (input, i)) := by
  cases input with
  | create sel value upsert named => exact ⟨sel, write_wrote (writeDepth + 1) _ _ f (List.cons_ne_nil _ _)⟩
  | update sel id set => exact ⟨sel, write_wrote (writeDepth + 1) _ _ f (List.cons_ne_nil _ _)⟩
  | delete id => exact ⟨.none, delete_wrote _ id f⟩
  | keep => exact ⟨.none, .same rfl⟩

theorem rows_rooted (mint : Nat → String) (root : String) (inputs : List Input) (k : Nat) {f : Flattener}
    (h : Rooted m f.items) (hheads : ∀ it ∈ f.items, ∃ i < k, it.change.path.head? = some (.index i)) :
    Rooted m ((inputs.zipIdx k).foldl (row m mint root) f).items ∧
      ∀ it ∈ ((inputs.zipIdx k).foldl (row m mint root) f).items, ∃ i, it.change.path.head? = some (.index i) := by
  induction inputs generalizing k f with
  | nil => exact ⟨h, fun it hit => (hheads it hit).imp fun i hi => hi.2⟩
  | cons input inputs ih =>
    rw [List.zipIdx_cons, List.foldl_cons]
    obtain ⟨sel, new, hitems, hnew⟩ := row_wrote (m := m) mint root input k f
    have hplace : ∀ it ∈ new, it.change.path.head? = some (.index k) := by
      rcases hnew with rfl | ⟨self, rest, rfl, hself, hrest⟩
      · exact fun it hit => by cases hit
      · intro it hit
        rcases List.mem_cons.1 hit with rfl | hit
        · rw [hself.path]
          rfl
        · exact (hrest it hit).row
    refine ih (k + 1) ?_ fun it hit => ?_
    · rw [hitems]
      refine h.row_wrote rfl rfl rfl (fun it hit heq => ?_) hnew
      obtain ⟨i, hlt, hhead⟩ := hheads it hit
      cases hhead.symm.trans heq
      exact absurd hlt (lt_irrefl k)
    · rw [hitems] at hit
      rcases List.mem_append.1 hit with hit | hit
      · obtain ⟨i, hlt, hhead⟩ := hheads it hit
        exact ⟨i, Nat.lt_succ_of_lt hlt, hhead⟩
      · exact ⟨k, Nat.lt_succ_self k, hplace it hit⟩

theorem flatten_rooted (mint : Nat → String) (root : String) (inputs : List Input) (prune : List String) :
    Rooted m (flatten m mint root inputs prune).items := by
  have hempty : Rooted m ([] : List Item) := by
    refine ⟨?_, ?_, ?_, ?_, ?_⟩ <;> exact fun it hit => by cases hit
  obtain ⟨hrows, hheads⟩ := rows_rooted (m := m) mint root inputs 0 (f := ⟨[], [], 0⟩) hempty fun it hit => by cases hit
  have hprune : ∀ (ids : List String) (f : Flattener), Rooted m f.items →
      (∀ it ∈ f.items, it.change.path.head? = some (.name "prune") → it.change.op = .delete) →
      Rooted m (ids.foldl (fun f id => delete ⟨root, .none, [.name "prune"], none, []⟩ (some (.string id)) f) f).items := by
    intro ids
    induction ids with
    | nil => exact fun _ h _ => h
    | cons id ids ih =>
      intro f h hdeletes
      refine ih _ (h.pruned ⟨root, .none, [.name "prune"], none, []⟩ rfl ⟨rfl, rfl, rfl, rfl, .inl rfl⟩ rfl rfl rfl hdeletes) fun it hit hhead => ?_
      rcases List.mem_append.1 hit with hit | hit
      · exact hdeletes it hit hhead
      · rw [List.mem_singleton.1 hit]
  refine hprune prune _ hrows fun it hit hhead => ?_
  obtain ⟨i, hi⟩ := hheads it hit
  cases hi.symm.trans hhead

end Norbital.Bolt.Flatten

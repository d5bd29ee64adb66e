import Norbital.Lib.Fallible
import Norbital.Lib.Placeholders
import Norbital.Std.Kind

/-!
# Statements of a read batch

A compiled read (`store/src/read/sql.ts`) as the batch sees it: its text with
numbered placeholders, and its parameters.  The statements of a `get` and of
several `get`s of one shape keep their parts apart, so that they can be read
over one snapshot; the columns a selection compiles to, the reader's row filter
and every other statement are texts.

Compiled statements hold no `$` and digits but their placeholders.
-/

namespace Norbital.Bolt.Query

open Norbital.Std (Json uuidShape fits)
open Placeholders Fallible

structure ReadError where
  code : String
  phase : String
  message : String
  deriving DecidableEq, Repr

/-- A part of a statement, its placeholders numbered from one. -/
structure Part where
  text : List Char
  params : List Json
  within : Within params.length text

/-- A statement's text: no row, the row of the id a placeholder holds, a row for each id of the list a
placeholder holds, or any other. -/
inductive Statement where
  | absent
  | get (columns : List Char) (table pg : String) (id : Nat) (filter : Option (List Char))
  | gets (columns : List Char) (table pg : String) (ids : Nat) (filter : Option (List Char))
  | other (text : List Char)

namespace Statement

/-- ` AND <filter>`, of a reader that is scoped. -/
def conj (filter : Option (List Char)) : List Char :=
  match filter with
  | some filter => " AND ".toList ++ filter
  | none => []

def text : Statement → List Char
  | absent => "SELECT NULL::jsonb AS j WHERE false".toList
  | get columns table pg id filter =>
    "SELECT to_jsonb(r) AS j FROM (SELECT ".toList ++ columns ++ (" FROM " ++ table ++ " a0 WHERE a0.\"id\" = ").toList ++
      (Token.number id).text ++ ("::" ++ pg).toList ++ conj filter ++ ") r".toList
  | gets columns table pg ids filter =>
    "SELECT (SELECT to_jsonb(r) FROM (SELECT ".toList ++ columns ++
      (" FROM " ++ table ++ " a0 WHERE a0.\"id\" = v.id").toList ++ conj filter ++
      ") r) AS j\n\tFROM unnest(ARRAY(SELECT jsonb_array_elements_text(".toList ++ (Token.number ids).text ++
      ("::jsonb))::" ++ pg ++ "[]) WITH ORDINALITY v(id, n) ORDER BY v.n").toList
  | other text => text

/-- The placeholders of a statement moved by the offset. -/
def renumber (offset : Nat) : Statement → Statement
  | absent => absent
  | get columns table pg id filter =>
    get (Placeholders.renumber offset columns) table pg (id + offset) (filter.map (Placeholders.renumber offset))
  | gets columns table pg ids filter =>
    gets (Placeholders.renumber offset columns) table pg (ids + offset) (filter.map (Placeholders.renumber offset))
  | other text => other (Placeholders.renumber offset text)

/-- Every placeholder is one of these many parameters. -/
def Within (count : Nat) : Statement → Prop
  | absent => True
  | get columns _ _ id filter | gets columns _ _ id filter =>
    Placeholders.Within count columns ∧ (0 < id ∧ id ≤ count) ∧ ∀ f ∈ filter, Placeholders.Within count f
  | other text => Placeholders.Within count text

/-- The table and the type of a statement hold no placeholder. -/
def Literal : Statement → Prop
  | get _ table pg _ _ => bare (" FROM " ++ table ++ " a0 WHERE a0.\"id\" = ").toList ∧ bare ("::" ++ pg).toList
  | gets _ table pg _ _ => bare (" FROM " ++ table ++ " a0 WHERE a0.\"id\" = v.id").toList ∧
    bare ("::jsonb))::" ++ pg ++ "[]) WITH ORDINALITY v(id, n) ORDER BY v.n").toList
  | _ => True

theorem renumber_conj (offset : Nat) (filter : Option (List Char)) {rest : List Char} (h : NoDigit rest) :
    Placeholders.renumber offset (conj filter ++ rest) =
      conj (filter.map (Placeholders.renumber offset)) ++ Placeholders.renumber offset rest := by
  cases filter with
  | none => rfl
  | some f =>
    have hand : " AND ".toList ++ f ++ rest = " AND".toList ++ ' ' :: (f ++ rest) := by simp
    have hbare : bare " AND".toList := by decide
    show Placeholders.renumber offset (" AND ".toList ++ f ++ rest) = _
    rw [hand, renumber_append_cons offset (by decide) (by decide), renumber_append offset h,
      renumber_eq_self offset hbare]
    simp [conj]

/-- What follows a filter begins with no digit, whether there is one or not. -/
theorem noDigit_conj (filter : Option (List Char)) {rest : List Char} (h : NoDigit rest) :
    NoDigit (conj filter ++ rest) := by
  cases filter with
  | none => exact h
  | some f =>
    intro c hc
    obtain rfl : ' ' = c := by simpa [conj] using hc
    rfl

theorem noDigit_number (n : Nat) (rest : List Char) : NoDigit ((Token.number n).text ++ rest) :=
  noDigit_cons (by decide) _

section

variable (offset n : Nat) (columns : List Char) (filter : Option (List Char)) {head head' table pg tail : List Char}

/-- The text of a `get`, its fixed pieces apart. -/
theorem renumber_get (hhead : head = head' ++ [' ']) (hbare : bare head') (htable : bare table) (hpg : bare pg)
    (htail : bare tail) (htable' : ∀ rest, NoDigit (table ++ rest)) (hpg' : ∀ rest, NoDigit (pg ++ rest))
    (htail' : NoDigit tail) :
    head ++ Placeholders.renumber offset columns ++ table ++ (Token.number (n + offset)).text ++ pg ++
        conj (filter.map (Placeholders.renumber offset)) ++ tail =
      Placeholders.renumber offset (head ++ columns ++ table ++ (Token.number n).text ++ pg ++ conj filter ++ tail) := by
  simp only [hhead, List.append_assoc, List.cons_append, List.nil_append]
  rw [renumber_append_cons offset (by decide) (by decide), renumber_eq_self offset hbare,
    renumber_append offset (htable' _), renumber_bare_append offset htable (noDigit_number _ _),
    renumber_number offset n (hpg' _), renumber_bare_append offset hpg (noDigit_conj filter htail'),
    renumber_conj offset filter htail', renumber_eq_self offset htail]

/-- The text of several `get`s, its fixed pieces apart. -/
theorem renumber_gets (hhead : head = head' ++ [' ']) (hbare : bare head') (htable : bare table) (hpg : bare pg)
    (htail : bare tail) (htable' : ∀ rest, NoDigit (table ++ rest)) (hpg' : NoDigit pg)
    (htail' : ∀ rest, NoDigit (tail ++ rest)) :
    head ++ Placeholders.renumber offset columns ++ table ++ conj (filter.map (Placeholders.renumber offset)) ++ tail ++
        (Token.number (n + offset)).text ++ pg =
      Placeholders.renumber offset (head ++ columns ++ table ++ conj filter ++ tail ++ (Token.number n).text ++ pg) := by
  simp only [hhead, List.append_assoc, List.cons_append, List.nil_append]
  rw [renumber_append_cons offset (by decide) (by decide), renumber_eq_self offset hbare,
    renumber_append offset (htable' _), renumber_bare_append offset htable (noDigit_conj filter (htail' _)),
    renumber_conj offset filter (htail' _), renumber_bare_append offset htail (noDigit_number _ _),
    renumber_number offset n hpg', renumber_eq_self offset hpg]

end

/-- Moving the placeholders of a statement is replacing every `$` and digits of its text. -/
theorem text_renumber (offset : Nat) {q : Statement} (h : q.Literal) :
    (q.renumber offset).text = Placeholders.renumber offset q.text := by
  cases q with
  | absent =>
    have hbare : bare (text absent) := by decide
    rw [renumber_eq_self offset hbare]
    rfl
  | get columns table pg id filter =>
    have hhead : "SELECT to_jsonb(r) AS j FROM (SELECT ".toList =
        "SELECT to_jsonb(r) AS j FROM (SELECT".toList ++ [' '] := by simp
    refine renumber_get offset id columns filter hhead (by decide) h.1 h.2 (by decide) ?_ ?_ ?_
    · simp [NoDigit]
    · simp [NoDigit]
    · simp [NoDigit]
  | gets columns table pg ids filter =>
    have hhead : "SELECT (SELECT to_jsonb(r) FROM (SELECT ".toList =
        "SELECT (SELECT to_jsonb(r) FROM (SELECT".toList ++ [' '] := by simp
    refine renumber_gets offset ids columns filter hhead (by decide) h.1 h.2 (by decide) ?_ ?_ ?_
    · simp [NoDigit]
    · simp [NoDigit]
    · simp [NoDigit]
  | other text => rfl

theorem Within.mono {count count' : Nat} {q : Statement} (h : q.Within count) (hle : count ≤ count') :
    q.Within count' := by
  cases q with
  | absent => trivial
  | get columns table pg id filter =>
    exact ⟨h.1.mono hle, ⟨h.2.1.1, h.2.1.2.trans hle⟩, fun f hf => (h.2.2 f hf).mono hle⟩
  | gets columns table pg ids filter =>
    exact ⟨h.1.mono hle, ⟨h.2.1.1, h.2.1.2.trans hle⟩, fun f hf => (h.2.2 f hf).mono hle⟩
  | other text => exact Placeholders.Within.mono h hle

theorem Within.renumber {count : Nat} {q : Statement} (h : q.Within count) (offset : Nat) :
    (q.renumber offset).Within (offset + count) := by
  have hfilter : ∀ {filter : Option (List Char)}, (∀ f ∈ filter, Placeholders.Within count f) →
      ∀ f ∈ filter.map (Placeholders.renumber offset), Placeholders.Within (offset + count) f := by
    intro filter hf f hmem
    obtain ⟨g, hg, rfl⟩ := Option.mem_map.mp hmem
    exact (hf g hg).renumber offset
  cases q with
  | absent => trivial
  | get columns table pg id filter =>
    obtain ⟨hcolumns, hid, hf⟩ := h
    exact ⟨hcolumns.renumber offset, ⟨by omega, by omega⟩, hfilter hf⟩
  | gets columns table pg ids filter =>
    obtain ⟨hcolumns, hid, hf⟩ := h
    exact ⟨hcolumns.renumber offset, ⟨by omega, by omega⟩, hfilter hf⟩
  | other text => exact Placeholders.Within.renumber h offset

end Statement

/-- A statement and the parameters it binds. -/
structure Sql where
  query : Statement
  params : List Json
  within : query.Within params.length

/-- What stands for the first row past a read's byte budget. -/
def OVER : String := "$over"

/-- The row after a counted read's rows. -/
def TOTAL : String := "$total"

/-- A stored row as a statement answers it: it has neither marker. -/
structure Row where
  members : List (String × Json)
  unmarked : members.lookup OVER = none ∧ members.lookup TOTAL = none

/-- One database snapshot: the row of a table that has an id and passes a filter, as columns show it, and
the rows of any other statement. -/
structure Db where
  row : List (Symbol Json) → String → Option (List (Symbol Json)) → String → Except ReadError (Option Row)
  rows : List (Symbol Json) → Except ReadError (List Json)

namespace Db

variable (db : Db)

/-- The row at one place of an unnested list; an id that is no id of the table's type is null there. -/
def rowAt (columns : List (Symbol Json)) (table : String) (filter : Option (List (Symbol Json))) :
    Json → Except ReadError Json
  | .string id => (fun row => (row.map fun r => Json.object r.members).getD .null) <$> db.row columns table filter id
  | _ => .ok .null

/-- The rows a statement answers, `j` of each. -/
def eval (q : Statement) (params : List Json) : Except ReadError (List Json) :=
  match q with
  | .absent => .ok []
  | .get columns table _ id filter =>
    match params[id - 1]? with
    | some (.string id) =>
      (fun row => (row.map fun r => Json.object r.members).toList) <$>
        db.row (fill columns params) table (filter.map fun f => fill f params) id
    | _ => .ok []
  | .gets columns table _ ids filter =>
    match params[ids - 1]? with
    | some (.array ids) =>
      ids.mapM (db.rowAt (fill columns params) table (filter.map fun f => fill f params))
    | _ => .ok []
  | .other text => db.rows (fill text params)

/-- The rows of a statement. -/
def exec (s : Sql) : Except ReadError (List Json) := db.eval s.query s.params

/-- Parameters a statement does not bind change nothing. -/
theorem eval_append {q : Statement} {params : List Json} (h : q.Within params.length) (after : List Json) :
    db.eval q (params ++ after) = db.eval q params := by
  have hparam : ∀ {n : Nat}, 0 < n ∧ n ≤ params.length → (params ++ after)[n - 1]? = params[n - 1]? := by
    intro n hn
    rw [List.getElem?_append_left (by omega)]
  have hfilter : ∀ {filter : Option (List Char)}, (∀ f ∈ filter, Within params.length f) →
      filter.map (fun f => fill f (params ++ after)) = filter.map fun f => fill f params := by
    intro filter hf
    cases filter with
    | none => rfl
    | some f => exact congrArg some (fill_append (hf f rfl) after)
  cases q with
  | absent => rfl
  | get columns table pg id filter =>
    obtain ⟨hcolumns, hid, hf⟩ := h
    simp only [eval, hparam hid, fill_append hcolumns, hfilter hf]
  | gets columns table pg ids filter =>
    obtain ⟨hcolumns, hid, hf⟩ := h
    simp only [eval, hparam hid, fill_append hcolumns, hfilter hf]
  | other text => exact congrArg db.rows (fill_append h after)

/-- A statement moved among other parameters answers the same. -/
theorem eval_renumber {q : Statement} {params : List Json} (h : q.Within params.length) (before after : List Json) :
    db.eval (q.renumber before.length) (before ++ params ++ after) = db.eval q params := by
  have hparam : ∀ {n : Nat}, 0 < n ∧ n ≤ params.length →
      (before ++ params ++ after)[n + before.length - 1]? = params[n - 1]? := by
    intro n hn
    have hindex : n + before.length - 1 = before.length + (n - 1) := by omega
    rw [hindex, List.append_assoc, List.getElem?_append_right (by omega), Nat.add_sub_cancel_left,
      List.getElem?_append_left (by omega)]
  have hfilter : ∀ {filter : Option (List Char)}, (∀ f ∈ filter, Within params.length f) →
      (filter.map (renumber before.length)).map (fun (f : List Char) => fill f (before ++ params ++ after)) =
        filter.map fun f => fill f params := by
    intro filter hf
    cases filter with
    | none => rfl
    | some f => exact congrArg some (fill_renumber (hf f rfl) before after)
  cases q with
  | absent => rfl
  | get columns table pg id filter =>
    obtain ⟨hcolumns, hid, hf⟩ := h
    simp only [Statement.renumber, eval, hparam hid, fill_renumber hcolumns, hfilter hf]
  | gets columns table pg ids filter =>
    obtain ⟨hcolumns, hid, hf⟩ := h
    simp only [Statement.renumber, eval, hparam hid, fill_renumber hcolumns, hfilter hf]
  | other text => exact congrArg db.rows (fill_renumber h before after)

end Db

def DEFAULT_OUTPUT : String := "default"

/-- `STORE_LIMITS.statement.params`, which is `LIMITS.statement.params`. -/
def LIMIT : Nat := 30000

/-- What the compiler of the store makes of a manifest for one reader at its bindings: what an output of a
model exposes, whether the reader holds a grant of it, and the parts of a statement over it. -/
structure Source (Select : Type) where
  Exposure : Type
  /-- `catalogFor`, then `exposureOf`. -/
  exposureOf : String → String → Except ReadError Exposure
  /-- The scope's arms are not the empty list. -/
  granted : String → String → Bool
  name : Exposure → String
  /-- The table's quoted name. -/
  table : Exposure → String
  /-- The type of the `id` column. -/
  idType : Exposure → Option String
  /-- The columns of a selection, with the request that holds the row where open requests may. -/
  root : Exposure → Select → Bool → Except ReadError Part
  scope : Exposure → Except ReadError (Option Part)

/-- The types of the models' `id` columns, none of a model keyed by its fields. -/
def Source.KeyedBy {Select : Type} (src : Source Select) (keys : String → Option String) : Prop :=
  ∀ model output c, src.exposureOf model output = .ok c → src.idType c = keys model

section

variable {Select : Type} (src : Source Select)

def start (model output : String) : Except ReadError src.Exposure := do
  let c ← src.exposureOf model output
  if src.granted model output then .ok c
  else .error ⟨"forbidden", "admission", "no held policy grants reading '" ++ model ++ "'" ++
    (if output = DEFAULT_OUTPUT then "" else " as its '" ++ output ++ "' output") ++ " (rule 33)"⟩

def isUuid (id : String) : Bool := fits uuidShape id.toList

/-- A column of that type can hold the id. -/
def Holds (key : Option String) (id : String) : Prop := key = some "uuid" → isUuid id

variable {src} in
theorem idType_of_start {keys : String → Option String} (h : src.KeyedBy keys) {model output : String}
    {c : src.Exposure} (hc : start src model output = .ok c) : src.idType c = keys model := by
  obtain ⟨c', hc', hgranted⟩ := bind_eq_ok.mp hc
  split_ifs at hgranted
  cases hgranted
  exact h model output c hc'

def keyed (c : src.Exposure) : ReadError :=
  ⟨"invalid", "decode", "'" ++ src.name c ++ "' is keyed by its fields; read it by them"⟩

def tooMany : ReadError := ⟨"tooLarge", "decode", "a read binds more than 30000 parameters"⟩

/-- The statement of a `get`: the columns' parameters, the id, the filter's parameters. -/
def getSql (table pg : String) (columns : Part) (filter : Option Part) (id : String) : Sql where
  query := .get columns.text table pg (columns.params.length + 1)
    (filter.map fun f => renumber (columns.params.length + 1) f.text)
  params := columns.params ++ [Json.string id] ++ (filter.map (·.params)).getD []
  within := by
    refine ⟨columns.within.mono (by simp only [List.length_append]; omega), ⟨by omega, ?_⟩, fun f hf => ?_⟩
    · simp only [List.length_append, List.length_singleton]
      omega
    · cases filter with
      | none => cases hf
      | some part =>
        obtain rfl := Option.some.inj hf
        refine (part.within.renumber (columns.params.length + 1)).mono ?_
        simp only [List.length_append, List.length_singleton, Option.map_some, Option.getD_some]
        omega

/-- The statement of several `get`s: the ids, the columns' parameters, the filter's parameters. -/
def getsSql (table pg : String) (columns : Part) (filter : Option Part) (ids : List String) : Sql where
  query := .gets (renumber 1 columns.text) table pg 1
    (filter.map fun f => renumber (1 + columns.params.length) f.text)
  params := [Json.array (ids.map fun id => if pg ≠ "uuid" ∨ isUuid id then .string id else .null)] ++ columns.params ++
    (filter.map (·.params)).getD []
  within := by
    refine ⟨(columns.within.renumber 1).mono ?_, ⟨by omega, ?_⟩, fun f hf => ?_⟩
    · simp only [List.length_append, List.length_singleton]
      omega
    · simp only [List.length_append, List.length_singleton]
      omega
    · cases filter with
      | none => cases hf
      | some part =>
        obtain rfl := Option.some.inj hf
        refine (part.within.renumber (1 + columns.params.length)).mono ?_
        simp only [List.length_append, List.length_singleton, Option.map_some, Option.getD_some]
        omega

section

variable (db : Db) (table pg : String) (columns : Part) (filter : Option Part)

/-- A part's filter as its own parameters fill it. -/
def filled : Option (List (Symbol Json)) := filter.map fun f => fill f.text f.params

theorem filled_renumber (before : List Json) :
    (filter.map fun f => renumber before.length f.text).map
      (fun (f : List Char) => fill f (before ++ (filter.map (·.params)).getD [])) = filled filter := by
  cases filter with
  | none => rfl
  | some f =>
    have h := fill_renumber f.within before []
    rw [List.append_nil] at h
    exact congrArg some h

theorem eval_getSql (id : String) :
    db.eval (getSql table pg columns filter id).query (getSql table pg columns filter id).params =
      (fun row => (row.map fun r => Json.object r.members).toList) <$>
        db.row (fill columns.text columns.params) table (filled filter) id := by
  have hid : (columns.params ++ [Json.string id] ++ (filter.map (·.params)).getD [])[columns.params.length + 1 - 1]? =
      some (.string id) := by
    rw [Nat.add_sub_cancel, List.append_assoc, List.getElem?_append_right le_rfl, Nat.sub_self]
    rfl
  have hfilter := filled_renumber filter (columns.params ++ [Json.string id])
  rw [List.length_append, List.length_singleton] at hfilter
  have hcolumns : fill columns.text (columns.params ++ [Json.string id] ++ (filter.map (·.params)).getD []) =
      fill columns.text columns.params := by
    rw [List.append_assoc]
    exact fill_append columns.within _
  simp only [getSql, Db.eval, hid, hfilter, hcolumns]

theorem eval_getsSql (ids : List String) :
    db.eval (getsSql table pg columns filter ids).query (getsSql table pg columns filter ids).params =
      (ids.map fun id => if pg ≠ "uuid" ∨ isUuid id then Json.string id else .null).mapM
        (db.rowAt (fill columns.text columns.params) table (filled filter)) := by
  generalize hlist : (ids.map fun id => if pg ≠ "uuid" ∨ isUuid id then Json.string id else .null) = list
  have hfilter := filled_renumber filter ([Json.array list] ++ columns.params)
  rw [List.length_append, List.length_singleton] at hfilter
  have hcolumns : fill (renumber 1 columns.text) ([Json.array list] ++ columns.params ++
      (filter.map (·.params)).getD []) = fill columns.text columns.params :=
    fill_renumber columns.within [Json.array list] _
  simp only [getsSql, hlist, Db.eval, hfilter, hcolumns]
  rfl

end

/-- `Build.sql`. -/
def bounded (sql : Sql) : Except ReadError Sql := if LIMIT < sql.params.length then .error tooMany else .ok sql

/-- `compile` of a `get`. -/
def compileGet (held : Bool) (model output id : String) (select : Select) : Except ReadError Sql := do
  let c ← start src model output
  match src.idType c with
  | none => .error (keyed src c)
  | some pg =>
    if pg = "uuid" ∧ !isUuid id then .ok ⟨.absent, [], trivial⟩
    else do
      let columns ← src.root c select held
      let filter ← src.scope c
      bounded (getSql (src.table c) pg columns filter id)

/-- `compileGets`. -/
def compileGets (held : Bool) (model output : String) (ids : List String) (select : Select) :
    Except ReadError Sql := do
  let c ← start src model output
  match src.idType c with
  | none => .error (keyed src c)
  | some pg => do
    let columns ← src.root c select held
    let filter ← src.scope c
    bounded (getsSql (src.table c) pg columns filter ids)

section

variable (db : Db) {held : Bool} {model output : String} {select : Select}

/-- A `get`'s row, null where there is none. -/
def getRow (held : Bool) (model output : String) (select : Select) (id : String) : Except ReadError Json := do
  let sql ← compileGet src held model output id select
  let rows ← db.exec sql
  .ok (rows.head?.getD .null)

/-- A `get`'s statement answers at most one row, and that is no marker. -/
theorem exec_compileGet {id : String} {sql : Sql} {rows : List Json}
    (hsql : compileGet src held model output id select = .ok sql) (hrows : db.exec sql = .ok rows) :
    rows = [] ∨ ∃ r : Row, rows = [.object r.members] := by
  rw [compileGet, bind_eq_ok] at hsql
  obtain ⟨c, -, hsql⟩ := hsql
  split at hsql
  next => cases hsql
  next pg hpg =>
    split_ifs at hsql with hid
    · cases hsql
      exact .inl (Except.ok.inj hrows).symm
    · rw [bind_eq_ok] at hsql
      obtain ⟨columns, -, hsql⟩ := hsql
      rw [bind_eq_ok] at hsql
      obtain ⟨filter, -, hsql⟩ := hsql
      unfold bounded at hsql
      split_ifs at hsql
      cases hsql
      rw [Db.exec, eval_getSql, map_eq_ok] at hrows
      obtain ⟨row, -, rfl⟩ := hrows
      cases row with
      | none => exact .inl rfl
      | some r => exact .inr ⟨r, rfl⟩

/-- The parts of a statement that compile, of whichever ids. -/
structure Compiles (held : Bool) (model output : String) (select : Select) (c : src.Exposure) (pg : String)
    (columns : Part) (filter : Option Part) : Prop where
  start : start src model output = .ok c
  idType : src.idType c = some pg
  root : src.root c select held = .ok columns
  scope : src.scope c = .ok filter
  limit : columns.params.length + 1 + ((filter.map (·.params)).getD []).length ≤ LIMIT

/-- A `get` of an id the table can hold compiles exactly when these parts do. -/
theorem compiles_of_getRow {keys : String → Option String} (hkeys : src.KeyedBy keys) {id : String} {j : Json}
    (hid : Holds (keys model) id) (h : getRow src db held model output select id = .ok j) :
    ∃ c pg columns filter, Compiles src held model output select c pg columns filter := by
  rw [getRow, bind_eq_ok] at h
  obtain ⟨sql, hsql, -⟩ := h
  rw [compileGet, bind_eq_ok] at hsql
  obtain ⟨c, hc, hsql⟩ := hsql
  split at hsql
  next => cases hsql
  next pg hpg =>
    have hreaches : pg = "uuid" → isUuid id := fun huuid =>
      hid ((idType_of_start hkeys hc).symm.trans (hpg.trans (congrArg some huuid)))
    rw [if_neg (by simpa using hreaches), bind_eq_ok] at hsql
    obtain ⟨columns, hcolumns, hsql⟩ := hsql
    rw [bind_eq_ok] at hsql
    obtain ⟨filter, hfilter, hsql⟩ := hsql
    unfold bounded at hsql
    split_ifs at hsql with hlimit
    refine ⟨c, pg, columns, filter, hc, hpg, hcolumns, hfilter, ?_⟩
    simp only [getSql, List.length_append, List.length_singleton] at hlimit
    omega

theorem compiles_of_compileGets {ids : List String} {sql : Sql}
    (h : compileGets src held model output ids select = .ok sql) :
    ∃ c pg columns filter, Compiles src held model output select c pg columns filter := by
  rw [compileGets, bind_eq_ok] at h
  obtain ⟨c, hc, hsql⟩ := h
  split at hsql
  next => cases hsql
  next pg hpg =>
    rw [bind_eq_ok] at hsql
    obtain ⟨columns, hcolumns, hsql⟩ := hsql
    rw [bind_eq_ok] at hsql
    obtain ⟨filter, hfilter, hsql⟩ := hsql
    unfold bounded at hsql
    split_ifs at hsql with hlimit
    refine ⟨c, pg, columns, filter, hc, hpg, hcolumns, hfilter, ?_⟩
    simp only [getsSql, List.length_append, List.length_singleton] at hlimit
    omega

namespace Compiles

variable {src} {c : src.Exposure} {pg : String} {columns : Part} {filter : Option Part}

theorem exec_compileGets (h : Compiles src held model output select c pg columns filter) (ids : List String) :
    (compileGets src held model output ids select >>= db.exec) = ids.mapM fun id =>
      db.rowAt (fill columns.text columns.params) (src.table c) (filled filter)
        (if pg ≠ "uuid" ∨ isUuid id then .string id else .null) := by
  have hsql : compileGets src held model output ids select =
      .ok (getsSql (src.table c) pg columns filter ids) := by
    rw [compileGets, h.start]
    simp only [bind, Except.bind, h.idType, h.root, h.scope, bounded]
    rw [if_neg]
    simp only [getsSql, List.length_append, List.length_singleton]
    have := h.limit
    omega
  rw [hsql]
  show db.exec (getsSql (src.table c) pg columns filter ids) = _
  rw [Db.exec, eval_getsSql, List.mapM_map]
  rfl

theorem getRow_eq (h : Compiles src held model output select c pg columns filter) (id : String) :
    getRow src db held model output select id =
      db.rowAt (fill columns.text columns.params) (src.table c) (filled filter)
        (if pg ≠ "uuid" ∨ isUuid id then .string id else .null) := by
  by_cases hid : pg = "uuid" ∧ !isUuid id
  · have hsql : compileGet src held model output id select = .ok ⟨.absent, [], trivial⟩ := by
      rw [compileGet, h.start]
      simp only [bind, Except.bind, h.idType]
      rw [if_pos hid]
    rw [getRow, hsql, if_neg (by simpa using hid)]
    rfl
  · have hsql : compileGet src held model output id select = .ok (getSql (src.table c) pg columns filter id) := by
      rw [compileGet, h.start]
      simp only [bind, Except.bind, h.idType, h.root, h.scope, bounded]
      rw [if_neg hid, if_neg]
      simp only [getSql, List.length_append, List.length_singleton]
      have := h.limit
      omega
    rw [getRow, hsql, if_pos (by rw [not_and_or] at hid; simpa using hid)]
    show (db.exec _ >>= _) = _
    rw [Db.exec, eval_getSql, Db.rowAt]
    cases db.row (fill columns.text columns.params) (src.table c) (filled filter) id with
    | error err => rfl
    | ok row =>
      cases row with
      | none => rfl
      | some r => rfl

end Compiles

/-- Merged `get`s that succeed do so with the row of each. -/
theorem getRow_of_exec_compileGets {ids : List String} {rows : List Json}
    (h : (compileGets src held model output ids select >>= db.exec) = .ok rows) :
    ids.mapM (getRow src db held model output select) = .ok rows := by
  obtain ⟨sql, hsql, -⟩ := bind_eq_ok.mp h
  obtain ⟨c, pg, columns, filter, hparts⟩ := compiles_of_compileGets src hsql
  rw [hparts.exec_compileGets db] at h
  rw [mapM_congr fun id _ => hparts.getRow_eq db id]
  exact h

/-- Merged `get`s succeed where each of them does and one of them reaches the selection. -/
theorem exec_compileGets {keys : String → Option String} (hkeys : src.KeyedBy keys) {ids : List String}
    {rows : List Json} (h : ∃ id ∈ ids, Holds (keys model) id) :
    (compileGets src held model output ids select >>= db.exec) = .ok rows ↔
      ids.mapM (getRow src db held model output select) = .ok rows := by
  refine ⟨getRow_of_exec_compileGets src db, fun hrows => ?_⟩
  obtain ⟨id, hmem, hid⟩ := h
  obtain ⟨j, hj⟩ := mapM_eq_ok_of_mem hrows hmem
  obtain ⟨c, pg, columns, filter, hparts⟩ := compiles_of_getRow src db hkeys hid hj
  rw [hparts.exec_compileGets db, mapM_congr fun id _ => (hparts.getRow_eq db id).symm]
  exact hrows

end

end

end Norbital.Bolt.Query

import Norbital.Bolt.Query.Statements
import Norbital.Lib.Fallible

/-!
# The read engine

`run` of `bolt/src/engine/query/engine.ts`: a batch of reads as one round trip.
Equal reads run once, `get`s of one model and selection merge into one
statement, and the statements are folded into as few as their parameters admit
(`readComposed`).

Two reads have one JSON text exactly when they are equal, so reads are compared
where the engine compares texts.  The names a keyed read gives its members are
left out: no decoder gives a read one.
-/

namespace Norbital.Bolt.Query

open Norbital.Std (Json)
open Placeholders Fallible

/-- A statement of several: the ordinal and the text of each, over one list of parameters. -/
structure Composed where
  parts : List (Nat × Statement)
  params : List Json

/-- The statements folded in order; past the cap the batch continues in a further statement. -/
def compose (cap : Nat) : List (Nat × Sql) → Composed → List Composed
  | [], c => if c.parts.isEmpty then [] else [c]
  | (m, s) :: rest, c =>
    if !c.parts.isEmpty && cap < c.params.length + s.params.length then
      c :: compose cap rest ⟨[(m, s.query)], s.params⟩
    else
      let offset := c.params.length
      let query := if offset = 0 then s.query else s.query.renumber offset
      compose cap rest ⟨c.parts ++ [(m, query)], c.params ++ s.params⟩

/-- A row `m, j` for each part, its rows in their order. -/
def Db.evalComposed (db : Db) (c : Composed) : Except ReadError (List (Nat × List Json)) :=
  c.parts.mapM fun p => (fun rows => (p.1, rows)) <$> db.eval p.2 c.params

/-- Statements beside their ordinals. -/
def numbered {α : Type} (xs : List α) (k : Nat) : List (Nat × α) := (xs.zipIdx k).map fun x => (x.2, x.1)

/-- The rows of each statement. -/
def readComposed (db : Db) (cap : Nat) (statements : List Sql) : Except ReadError (List (List Json)) :=
  if statements.length < 2 then statements.mapM fun s => db.eval s.query s.params
  else do
    let answers ← (compose cap (numbered statements 0) ⟨[], []⟩).mapM db.evalComposed
    .ok ((List.range statements.length).map fun m => (answers.flatten.lookup m).getD [])

section

variable (db : Db) (cap : Nat)

/-- Every part binds parameters of the statement. -/
def Composed.Within (c : Composed) : Prop := ∀ p ∈ c.parts, p.2.Within c.params.length

/-- A statement's rows beside its ordinal. -/
def Db.part (x : Nat × Sql) : Except ReadError (Nat × List Json) :=
  (fun rows => (x.1, rows)) <$> db.eval x.2.query x.2.params

/-- The statement as it stands among the others. -/
theorem eval_placed (s : Sql) (params : List Json) :
    let query := if params.length = 0 then s.query else s.query.renumber params.length
    query.Within (params ++ s.params).length ∧
      db.eval query (params ++ s.params) = db.eval s.query s.params := by
  by_cases hzero : params.length = 0
  · rw [List.length_eq_zero_iff.mp hzero]
    exact ⟨by simpa using s.within, rfl⟩
  · simp only [if_neg hzero]
    refine ⟨by simpa using s.within.renumber params.length, ?_⟩
    have h := db.eval_renumber s.within params []
    rwa [List.append_nil] at h

theorem evalComposed_append {c : Composed} (h : c.Within) (m : Nat) (s : Sql) :
    let query := if c.params.length = 0 then s.query else s.query.renumber c.params.length
    db.evalComposed ⟨c.parts ++ [(m, query)], c.params ++ s.params⟩ =
      (db.evalComposed c >>= fun rows => db.part (m, s) >>= fun row => pure (rows ++ [row])) := by
  intro query
  have hparts : c.parts.mapM (fun p => (fun rows => (p.1, rows)) <$> db.eval p.2 (c.params ++ s.params)) =
      db.evalComposed c := by
    unfold Db.evalComposed
    apply mapM_congr
    intro p hp
    rw [db.eval_append (h p hp)]
  have hpart : (fun rows => (m, rows)) <$> db.eval query (c.params ++ s.params) = db.part (m, s) := by
    rw [(eval_placed db s c.params).2]
    rfl
  show (c.parts ++ [(m, query)]).mapM _ = _
  rw [List.mapM_append, hparts, List.mapM_cons, List.mapM_nil, hpart]
  simp only [bind_assoc, pure_bind]

/-- The statements of a batch answer what each of them answers. -/
theorem evalComposed_compose (xs : List (Nat × Sql)) {c : Composed} (h : c.Within) :
    ((compose cap xs c).mapM db.evalComposed >>= fun answers => pure answers.flatten) =
      (db.evalComposed c >>= fun rows => xs.mapM db.part >>= fun more => pure (rows ++ more)) := by
  induction xs generalizing c with
  | nil =>
    rw [compose]
    split_ifs with hempty
    · have hnil : c.parts = [] := List.isEmpty_iff.mp hempty
      simp [Db.evalComposed, hnil]
    · simp
  | cons x rest ih =>
    obtain ⟨m, s⟩ := x
    rw [compose]
    split_ifs with hfull
    · -- the statement is full: this read opens the next one
      have hnext : (⟨[(m, s.query)], s.params⟩ : Composed).Within := by
        intro p hp
        rw [List.mem_singleton.mp hp]
        exact s.within
      have hfirst : db.evalComposed ⟨[(m, s.query)], s.params⟩ = (db.part (m, s) >>= fun row => pure [row]) := by
        simp [Db.evalComposed, Db.part]
      have hrest := ih hnext
      rw [hfirst] at hrest
      simp only [List.mapM_cons, bind_assoc, pure_bind, List.flatten_cons] at hrest ⊢
      congr 1
      funext rows
      have := congrArg (fun x => x >>= fun more => pure (rows ++ more)) hrest
      simpa only [bind_assoc, pure_bind, List.singleton_append] using this
    · have hwithin := (eval_placed db s c.params).1
      have hnext : (⟨c.parts ++ [(m, if c.params.length = 0 then s.query else s.query.renumber c.params.length)],
          c.params ++ s.params⟩ : Composed).Within := by
        intro p hp
        obtain hp | hp := List.mem_append.mp hp
        · exact (h p hp).mono (by simp)
        · rw [List.mem_singleton.mp hp]
          exact hwithin
      rw [ih hnext, evalComposed_append db h]
      simp only [List.mapM_cons, bind_assoc, pure_bind, List.append_assoc, List.singleton_append]

theorem numbered_cons {α : Type} (x : α) (xs : List α) (k : Nat) :
    numbered (x :: xs) k = (k, x) :: numbered xs (k + 1) := rfl

theorem lookup_numbered {α : Type} (xs : List α) (k i : Nat) : (numbered xs k).lookup (k + i) = xs[i]? := by
  induction xs generalizing k i with
  | nil => rfl
  | cons x xs ih =>
    rw [numbered_cons, List.lookup_cons]
    cases i with
    | zero => simp
    | succ i =>
      have hne : (k + (i + 1) == k) = false := by simp
      rw [hne, ← Nat.succ_add_eq_add_succ, Nat.succ_eq_add_one, ih]
      rfl

theorem mapM_numbered (statements : List Sql) (k : Nat) : (numbered statements k).mapM db.part =
    (fun rows => numbered rows k) <$> statements.mapM fun s => db.eval s.query s.params := by
  induction statements generalizing k with
  | nil => rfl
  | cons s rest ih =>
    rw [numbered_cons, List.mapM_cons, ih, List.mapM_cons, Db.part]
    simp only [map_eq_pure_bind, bind_assoc, pure_bind, numbered_cons]

/-- A round trip answers each statement with its own rows. -/
theorem readComposed_eq (statements : List Sql) :
    readComposed db cap statements = statements.mapM fun s => db.eval s.query s.params := by
  unfold readComposed
  split_ifs with hshort
  · rfl
  · have h : ((compose cap (numbered statements 0) ⟨[], []⟩).mapM db.evalComposed >>= fun answers =>
        pure answers.flatten) =
        (fun rows => numbered rows 0) <$> statements.mapM fun s => db.eval s.query s.params := by
      rw [evalComposed_compose db cap _ (by simp [Composed.Within]), mapM_numbered]
      simp [Db.evalComposed]
    calc
      _ = ((compose cap (numbered statements 0) ⟨[], []⟩).mapM db.evalComposed >>= fun answers =>
            pure answers.flatten) >>= fun rows =>
              .ok ((List.range statements.length).map fun m => (rows.lookup m).getD []) := by
        rw [bind_assoc]
        rfl
      _ = _ := by
        rw [h]
        cases hrows : statements.mapM fun s => db.eval s.query s.params with
        | error e => rfl
        | ok rows =>
          show Except.ok _ = Except.ok rows
          have hlen : rows.length = statements.length := (mapM_eq_ok.mp hrows).length_eq.symm
          congr 1
          apply List.ext_getElem
          · simp [hlen]
          · intro i hi hi'
            have hlookup := lookup_numbered rows 0 i
            rw [Nat.zero_add] at hlookup
            simp [hlookup, List.getElem?_eq_getElem hi']

end

/-- A read: of one row, of a list, or of an aggregate; `Select` is a selection, `Rest` the other parts of
a list read or an aggregate. -/
inductive ReadIR (Select Rest : Type) where
  | get (model : String) (output : Option String) (id : String) (select : Select)
  | read (model : String) (output : Option String) (select : Select) (rest : Rest)
  | aggregate (model : String) (output : Option String) (rest : Rest)
  deriving DecidableEq, Repr

namespace ReadIR

variable {Select Rest : Type}

def model : ReadIR Select Rest → String
  | get model _ _ _ | read model _ _ _ | aggregate model _ _ => model

def select? : ReadIR Select Rest → Option Select
  | get _ _ _ select | read _ _ select _ => some select
  | aggregate _ _ _ => none

/-- What `get`s merge by. -/
def shape : ReadIR Select Rest → Option (String × Select)
  | get model _ _ select => some (model, select)
  | _ => none

def output : ReadIR Select Rest → Option String
  | get _ output _ _ | read _ output _ _ | aggregate _ output _ => output

/-- The id a `get` reads. -/
def id : ReadIR Select Rest → String
  | get _ _ id _ => id
  | _ => ""

end ReadIR

/-- How a statement's rows answer: a row or none, an aggregate, every row, or a page. -/
inductive Shape where
  | one
  | agg
  | all
  | page (limit : Nat)

structure Compiled where
  sql : Sql
  shape : Shape
  hash : String

/-- A read as it is planned: answered without a statement, or compiled. -/
inductive Plan where
  | answer (value : Json)
  | compiled (c : Compiled)

/-- One reader's engine over one snapshot. -/
structure Engine (Select Rest : Type) where
  src : Source Select
  db : Db
  /-- `plan` of a list read or an aggregate; the rows of which models an open request may hold. -/
  plan : (String → Bool) → ReadIR Select Rest → Except ReadError Plan
  /-- The rows of a selection's relations fit their limits. -/
  armsFit : Select → List Json → Except ReadError Unit
  encodeCursor : String → Json → Json
  /-- Each record's delivery states, of a model a sync writes. -/
  syncState : String → List String → Except ReadError (Option (List (String × Json)))
  rowApproval : Json → Option Json
  allBytes : Nat
  /-- The models of today's grants an open request may hold, and those that were added since. -/
  approvals : List String
  /-- The models open requests held when the engine started, which planning a read adds. -/
  held : List String

/-- `LIMITS.page.all`. -/
def ALL : Nat := 50000

/-- `LIMITS.crossingBytes`. -/
def CROSSING : Nat := 8388608

def tooLarge (message : String) : ReadError := ⟨"tooLarge", "deliver", message⟩

/-- A counted read's rows without its last row, and that row's total. -/
def totalOf (rows : List Json) : List Json × Option Json :=
  match rows.getLast? with
  | some (.object members) =>
    match members.lookup TOTAL with
    | some (.number n) => (rows.dropLast, some (.number n))
    | _ => (rows, none)
  | _ => (rows, none)

/-- The database stopped at the read's byte budget. -/
def isOver (rows : List Json) : Bool :=
  match rows.getLast? with
  | some (.object members) =>
    match members.lookup OVER with
    | some (.bool b) => b
    | _ => false
  | _ => false

/-- A row without its cursor keys, and these. -/
def cursorOf : Json → Json × Json
  | .object members => (.object (members.filter (·.1 ≠ "$k")), (members.lookup "$k").getD .null)
  | row => (row, .null)

namespace Engine

variable {Select Rest : Type} (e : Engine Select Rest)

/-- A request may hold a row of the model. -/
def holdable (model : String) : Bool := e.approvals.contains model || e.held.contains model

def fit (ir : ReadIR Select Rest) (rows : List Json) : Except ReadError Unit :=
  match ir.select? with
  | some select => e.armsFit select rows
  | none => .ok ()

/-- `finish`: a statement's rows as its answer. -/
def finish (ir : ReadIR Select Rest) (c : Compiled) (rows : List Json) : Except ReadError Json := do
  let answered := (totalOf rows).1
  let total := ((totalOf rows).2.map fun n => ("total", n)).toList
  let full := isOver answered
  let js := if full then answered.dropLast else answered
  e.fit ir js
  match c.shape with
  | .one | .agg => .ok (js.head?.getD .null)
  | .all =>
    if ALL < js.length then
      .error (tooLarge ("the read of " ++ ir.model ++ " matches more than 50000 rows; page it (rule 9)"))
    else if full then
      .error (tooLarge ("the read of " ++ ir.model ++ " is larger than " ++ toString e.allBytes ++
        " bytes; page it (rule 9)"))
    else .ok (.object ([("rows", Json.array js), ("next", .null)] ++ total))
  | .page limit =>
    -- a page ends early at one crossing's bytes, its cursor after the last row that fits
    if full && js.isEmpty then
      .error (tooLarge ("a row of " ++ ir.model ++ " is larger than " ++ toString CROSSING ++
        " bytes; select fewer fields (rule 9)"))
    else
      let page := js.take limit
      let next := if full || limit < js.length then
          (page.getLast?.map fun row => e.encodeCursor c.hash (cursorOf row).2).getD .null
        else .null
      .ok (.object ([("rows", Json.array (page.map fun row => (cursorOf row).1)), ("next", next)] ++ total))

/-- `plan`, which first adds the models open requests hold. -/
def planned (ir : ReadIR Select Rest) : Except ReadError Plan :=
  match ir with
  | .get model output id select =>
    (fun sql => .compiled ⟨sql, .one, ""⟩) <$>
      compileGet e.src (e.holdable model) model (output.getD DEFAULT_OUTPUT) id select
  | ir => e.plan e.holdable ir

/-- A root row with its delivery states and the open request that holds it. -/
def attach (states : Option (List (String × Json))) (names : Bool) : Json → Json
  | .object members =>
    match members.lookup "id" with
    | some (.string id) =>
      let approval := if names then
          (members.lookup "$approval").bind fun raw => if raw.isNull then none else e.rowApproval raw
        else none
      .object (members.filter (·.1 ≠ "$approval") ++
        (states.map fun s => ("$sync", (s.lookup id).getD (.object []))).toList ++
        (approval.map fun a => ("$approval", a)).toList)
    | _ => .object members
  | row => row

/-- The id of a row. -/
def idOf : Json → Option String
  | .object members =>
    match members.lookup "id" with
    | some (.string id) => some id
    | _ => none
  | _ => none

def attached (model : String) (names : Bool) (rows : List Json) : Except ReadError (List Json) := do
  let states ← e.syncState model (rows.filterMap idOf)
  .ok (if states.isNone && !names then rows else rows.map (e.attach states names))

/-- What the caller sees of an answer; `names`: rows of the read's model carry the request that holds them. -/
def expose (names : Bool) (ir : ReadIR Select Rest) (answer : Json) : Except ReadError Json :=
  match ir, answer with
  | _, .null => .ok .null
  | .get model _ _ _, answer => (fun rows => (rows.head?).getD .null) <$> e.attached model names [answer]
  | .read model _ _ _, .object members =>
    match members.lookup "rows" with
    | some (.array rows) => do
      let rows ← e.attached model names rows
      .ok (.object (("rows", .array rows) :: members.filter (·.1 ≠ "rows")))
    | _ => .ok (.object members)
  | _, answer => .ok answer

end Engine

/-- `get`s of one model and selection. -/
structure Group (Select Rest : Type) where
  model : String
  select : Select
  members : List (ReadIR Select Rest)

section

variable {Select Rest : Type} [DecidableEq Select] [DecidableEq Rest]

/-- The groups that merge: those of several different `get`s. -/
def groupsOf (irs : List (ReadIR Select Rest)) : List (Group Select Rest) :=
  ((irs.filterMap ReadIR.shape).eraseDups.map fun k => ⟨k.1, k.2, irs.filter (·.shape = some k)⟩).filter
    fun g => decide (2 ≤ g.members.length)

/-- The read is answered by a merged statement. -/
def isMerged (groups : List (Group Select Rest)) (ir : ReadIR Select Rest) : Bool :=
  groups.any fun g => g.members.contains ir

/-- The row of a read in its group's answer. -/
def mergedAt (groups : List (Group Select Rest)) (answers : List (List Json)) (ir : ReadIR Select Rest) : Json :=
  match (groups.zip answers).find? fun g => g.1.members.contains ir with
  | some (g, rows) => rows[g.members.idxOf ir]?.getD .null
  | none => .null

namespace Engine

variable (e : Engine Select Rest)

/-- The merged statement of a group, compiled before any read is planned. -/
def groupSql (g : Group Select Rest) : Except ReadError Sql :=
  compileGets e.src (e.approvals.contains g.model) g.model DEFAULT_OUTPUT (g.members.map ReadIR.id) g.select

/-- The answer of each read; a planned statement takes the next result. -/
def answersOf (merged : ReadIR Select Rest → Json) :
    List (ReadIR Select Rest × Option Plan) → List (List Json) → Except ReadError (List Json)
  | [], _ => .ok []
  | (ir, none) :: rest, results => do
    let j := merged ir
    e.fit ir (if j.isNull then [] else [j])
    let more ← answersOf merged rest results
    .ok (j :: more)
  | (_, some (.answer value)) :: rest, results => do
    let more ← answersOf merged rest results
    .ok (value :: more)
  | (ir, some (.compiled c)) :: rest, rows :: results => do
    let value ← e.finish ir c rows
    let more ← answersOf merged rest results
    .ok (value :: more)
  | (_, some (.compiled _)) :: _, [] => .error ⟨"internal", "deliver", "a statement has no result"⟩

def statementOf : Option Plan → Option Sql
  | some (.compiled c) => some c.sql
  | _ => none

/-- `run`: one round trip for every read of the batch. -/
def run (batch : List (ReadIR Select Rest)) : Except ReadError (List Json) := do
  let irs := batch.eraseDups
  let groups := groupsOf irs
  let mergedSql ← groups.mapM e.groupSql
  let plans ← irs.mapM fun ir => if isMerged groups ir then .ok none else some <$> e.planned ir
  let statements := plans.filterMap statementOf
  let results ← readComposed e.db LIMIT (statements ++ mergedSql)
  let merged := mergedAt groups (results.drop statements.length)
  let answers ← e.answersOf merged (irs.zip plans) (results.take statements.length)
  let names := if plans.any Option.isSome then e.holdable else e.approvals.contains
  let exposed ← (irs.zip answers).mapM fun x => e.expose (names x.1.model) x.1 x.2
  .ok (batch.map fun ir => ((irs.zip exposed).lookup ir).getD .null)

end Engine

end

end Norbital.Bolt.Query

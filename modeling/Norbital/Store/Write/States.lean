import Mathlib.Data.Int.Notation
import Mathlib.Data.List.Nodup
import Mathlib.Logic.Function.Basic
import Norbital.Lib.Entries
import Norbital.Lib.ThreeValued

/-!
# State edges and edit locks

A table's states say which state follows which and what may be edited while a row is in one.  They
are enforced twice: by the guard an update compiles to (`compileWrite` of `store/src/write/sql.ts`),
over the columns it assigns, and by the row trigger (`store_row_rules` of
`store/src/schema/rules.ts`), over the changed row's declared columns as JSON.

PostgreSQL's values and their JSON are parameters: what a value is, and which values are one JSON.
-/

namespace Norbital.Store.States

open ThreeValued

/-- What of a column's type the rules depend on; a point has no `=`. -/
inductive ColumnType where
  | text | jsonb | scalar | point
  deriving DecidableEq, Repr

structure Column where
  name : String
  type : ColumnType
  deriving DecidableEq, Repr

/-- PostgreSQL's values up to `=`, and `to_jsonb` of them, which tells values of a type apart. -/
structure Types where
  /-- Values of `jsonb`. -/
  Doc : Type
  docs : DecidableEq Doc
  null : Doc
  ofText : String → Doc
  Scalar : Type
  scalars : DecidableEq Scalar
  ofScalar : Scalar → Doc
  Point : Type
  ofPoint : Point → Doc
  ofText_injective : Function.Injective ofText
  ofScalar_injective : Function.Injective ofScalar
  ofText_ne : ∀ s, ofText s ≠ null
  ofScalar_ne : ∀ x, ofScalar x ≠ null

variable {T : Types}

instance : DecidableEq T.Doc := T.docs

instance : DecidableEq T.Scalar := T.scalars

abbrev Types.Value (T : Types) : ColumnType → Type
  | .text => String
  | .jsonb => T.Doc
  | .scalar => T.Scalar
  | .point => T.Point

/-- A row: its columns, `none` where one is null. -/
abbrev Row (T : Types) := (c : Column) → Option (T.Value c.type)

/-- `a IS DISTINCT FROM b`; a type with no `=` fails the statement before. -/
def distinct : {t : ColumnType} → Option (T.Value t) → Option (T.Value t) → Bool
  | .text, a, b => decide (a ≠ b)
  | .jsonb, a, b => decide (a ≠ b)
  | .scalar, a, b => decide (a ≠ b)
  | .point, _, _ => false

/-- `to_jsonb(row) -> column`; a null is JSON's. -/
def json : {t : ColumnType} → Option (T.Value t) → T.Doc
  | _, none => T.null
  | .text, some s => T.ofText s
  | .jsonb, some j => j
  | .scalar, some x => T.ofScalar x
  | .point, some p => T.ofPoint p

inductive Edit where
  | all
  | none
  | only (fields : List String)
  deriving DecidableEq, Repr

structure Rule where
  next : Option (List String) := Option.none
  edit : Option Edit := Option.none
  deriving DecidableEq, Repr

/-- A state field and its declared states. -/
structure StateField where
  name : String
  states : List (String × Rule)
  nodup : (states.map Prod.fst).Nodup

def StateField.column (s : StateField) : Column := ⟨s.name, .text⟩

/-- The row's state. -/
def StateField.of (s : StateField) (r : Row T) : Option String := r s.column

/-- A declared field and its columns: one, or one for each model a reference may name. -/
structure Field where
  name : String
  columns : List Column
  deriving DecidableEq, Repr

/-- A table's declared fields and states. -/
structure Model where
  fields : List Field
  states : List StateField
  named : ∀ f ∈ fields, ∀ g ∈ fields, f.name = g.name → f = g
  /-- No two fields share a column. -/
  owned : ∀ f ∈ fields, ∀ g ∈ fields, ∀ c ∈ f.columns, c ∈ g.columns → f = g
  /-- A state is a field of one text column. -/
  stated : ∀ s ∈ states, ⟨s.name, [s.column]⟩ ∈ fields

/-- What a column is assigned: the value given for it, that value where a JSON null stands for no
value, an inline change of the column, or the database clock. -/
inductive Assigned (T : Types) : ColumnType → Type
  | given {t : ColumnType} : Assigned T t
  | required : Assigned T .jsonb
  | inline (change : Option T.Doc → Option T.Doc) : Assigned T .jsonb
  | clock (now : T.Scalar) : Assigned T .scalar

/-- `assignedValue`, of the given value and the column as it is. -/
def Assigned.value : {t : ColumnType} → Assigned T t → Option (T.Value t) → Option (T.Value t) →
    Option (T.Value t)
  | _, .given, v, _ => v
  | _, .required, v, _ => some (v.getD T.null)
  | _, .inline change, _, current => change current
  | _, .clock now, _, _ => some now

structure Assignment (T : Types) where
  field : String
  column : Column
  assigned : Assigned T column.type

/-- An update of a model's rows: the record of its plain values, its assignments, the rows it
targets and the revision it observed. -/
structure Update (T : Types) (m : Model) where
  v : Row T
  assignments : List (Assignment T)
  condition : Row T → Bool
  revision : Row T → Option ℤ
  observed : Option ℤ
  nodup : (assignments.map Assignment.column).Nodup
  declared : ∀ a ∈ assignments, ∃ f ∈ m.fields, f.name = a.field ∧ a.column ∈ f.columns

section

variable {m : Model} (u : Update T m)

def Update.valueOf (a : Assignment T) (r : Row T) : Option (T.Value a.column.type) :=
  a.assigned.value (u.v a.column) (r a.column)

/-- The row with the assignments made, each of the row as it was. -/
def Update.apply (r : Row T) : Row T :=
  u.assignments.foldl (fun out a => Function.update out a.column (u.valueOf a r)) r

inductive Code where
  | invalidInput | forbidden
  deriving DecidableEq, Repr

structure Check (T : Types) where
  code : Code
  message : String
  holds : Row T → Tri

/-- `column = text`. -/
def isText (x : Option String) (text : String) : Tri := x.map fun s => decide (s = text)

/-- `column IN (texts)`. -/
def isOneOf (x : Option String) (texts : List String) : Tri := x.map fun s => decide (s ∈ texts)

/-- The moves the guard lets pass: none at all, and each declared edge. -/
def allowed (s : StateField) (current next : Option String) : List Tri :=
  some (decide (current = next)) :: s.states.filterMap fun e =>
    match e.2.next with
    | some (first :: rest) => some (ThreeValued.and (isText current e.1) (isOneOf next (first :: rest)))
    | _ => none

/-- The assignments a state's rule locks. -/
def Update.lockedBy (s : StateField) (edit : Edit) : List (Assignment T) :=
  u.assignments.filter fun a => a.field != s.name &&
    match edit with
    | .only fields => !fields.contains a.field
    | _ => true

/-- `edit` of a state that locks something. -/
def Rule.lock (rule : Rule) : Option Edit := if rule.edit.getD .all = .all then none else rule.edit

def Update.edge (table : String) (s : StateField) : List (Check T) :=
  if u.assignments.any fun a => a.field == s.name then
    [⟨.invalidInput, "'" ++ table ++ "." ++ s.name ++ "' cannot move along an undeclared state edge", fun r =>
      some (!(any (allowed s (s.of r) (s.of u.v))).getD false)⟩]
  else []

def Update.lock (table : String) (s : StateField) (e : String × Rule) : Option (Check T) :=
  e.2.lock.bind fun edit =>
    if (u.lockedBy s edit).isEmpty then none
    else some ⟨.forbidden, "'" ++ table ++ "' is locked while '" ++ s.name ++ "' is '" ++ e.1 ++ "'", fun r =>
      ThreeValued.and (isText (s.of r) e.1)
        (any ((u.lockedBy s edit).map fun a => some (distinct (r a.column) (u.valueOf a r))))⟩

/-- The guard's checks, in the order of their reasons. -/
def Update.checks (table : String) : List (Check T) :=
  m.states.flatMap fun s => u.edge table s ++ s.states.filterMap (u.lock table s)

/-- A check compares a type that has no `=`. -/
def Update.unsupported : Bool :=
  m.states.any fun s => s.states.any fun e =>
    e.2.lock.any fun edit => (u.lockedBy s edit).any fun a => decide (a.column.type = .point)

/-- `state_rule->'to' ? state`. -/
def Rule.leadsTo (rule : Option Rule) (state : Option String) : Tri :=
  match rule.bind Rule.next, state with
  | some texts, some s => some (decide (s ∈ texts))
  | _, _ => none

/-- The trigger passes over a field: the state itself, one the host anonymises, one the state edits. -/
def skips (s : StateField) (anonymised : List String) (edit : Edit) (field : String) : Bool :=
  decide (field = s.name) || anonymised.contains field ||
    match edit with
    | .only fields => fields.contains field
    | _ => false

/-- The edge or the lock of one state, broken by the row's change. -/
def StateField.raises (s : StateField) (fields : List Field) (anonymised : List String) (before after : Row T) : Bool :=
  let rule := (s.of before).bind fun state => s.states.lookup state
  decide (json (before s.column) ≠ json (after s.column)) && !(Rule.leadsTo rule (s.of after)).getD false ||
    decide ((rule.bind Rule.edit).getD .all ≠ .all) && fields.any fun f =>
      !skips s anonymised ((rule.bind Rule.edit).getD .all) f.name &&
        f.columns.any fun c => decide (json (before c) ≠ json (after c))

/-- The state part of `store_row_rules` on an update in write mode. Its first version anonymises
nothing; the second asks the host which fields of the row. -/
def raises (m : Model) (anonymised : Row T → List String) (before after : Row T) : Bool :=
  m.states.any fun s => s.raises m.fields (anonymised after) before after

structure Answer (T : Types) where
  matched : Nat
  refused : Option Nat
  /-- The table's rows afterwards. -/
  rows : List (Row T)

def Update.targets (table : List (Row T)) : List (Row T) := table.filter u.condition

def Update.stale (table : List (Row T)) : Bool :=
  u.observed.any fun n => (u.targets table).any fun r => u.revision r != some n

/-- The reasons of the checks some target fails. -/
def Update.blocked (name : String) (table : List (Row T)) : List Nat :=
  ((u.checks name).zipIdx.filter fun x => (u.targets table).any fun r => decide (Holds (x.1.holds r))).map Prod.snd

/-- The statement of an update, with the trigger of the rows it changes; `none` where it fails. -/
def Update.run (name : String) (anonymised : Row T → List String) (table : List (Row T)) : Option (Answer T) :=
  if u.unsupported then none
  else
    let refused := (u.blocked name table).min?
    if refused.isSome || u.stale table then some ⟨(u.targets table).length, refused, table⟩
    else if (u.targets table).any fun r => raises m anonymised r (u.apply r) then none
    else some ⟨(u.targets table).length, refused, table.map fun r => if u.condition r then u.apply r else r⟩

theorem foldl_update_of_not_mem {l : List (Assignment T)} {r out : Row T} {c : Column}
    (h : ∀ a ∈ l, a.column ≠ c) :
    l.foldl (fun out a => Function.update out a.column (u.valueOf a r)) out c = out c := by
  induction l generalizing out with
  | nil => rfl
  | cons a l ih =>
    rw [List.foldl_cons, ih fun b hb => h b (List.mem_cons_of_mem _ hb)]
    exact Function.update_of_ne (h a List.mem_cons_self).symm _ _

theorem foldl_update_of_mem {l : List (Assignment T)} {r out : Row T} {a : Assignment T} (ha : a ∈ l)
    (hl : (l.map Assignment.column).Nodup) :
    l.foldl (fun out a => Function.update out a.column (u.valueOf a r)) out a.column = u.valueOf a r := by
  induction l generalizing out with
  | nil => cases ha
  | cons b l ih =>
    rw [List.map_cons, List.nodup_cons] at hl
    rw [List.foldl_cons]
    obtain rfl | ha := List.mem_cons.1 ha
    · rw [foldl_update_of_not_mem u fun b hb hcolumn => hl.1 (List.mem_map.2 ⟨b, hb, hcolumn⟩)]
      exact Function.update_self ..
    · exact ih ha hl.2

theorem apply_of_mem {a : Assignment T} (ha : a ∈ u.assignments) (r : Row T) :
    u.apply r a.column = u.valueOf a r := foldl_update_of_mem u ha u.nodup

theorem apply_of_not_mem {c : Column} (h : ∀ a ∈ u.assignments, a.column ≠ c) (r : Row T) : u.apply r c = r c :=
  foldl_update_of_not_mem u h

/-- The column of a state's assignment is the state's, and it is given whole. -/
theorem valueOf_state {s : StateField} (hs : s ∈ m.states) {a : Assignment T} (ha : a ∈ u.assignments)
    (hfield : a.field = s.name) : a.column = s.column := by
  obtain ⟨f, hf, hname, hcolumn⟩ := u.declared a ha
  have hsame := m.named f hf _ (m.stated s hs) (hname.trans hfield)
  rw [hsame] at hcolumn
  exact List.mem_singleton.1 hcolumn

theorem field_of_column {s : StateField} (hs : s ∈ m.states) {a : Assignment T} (ha : a ∈ u.assignments)
    (hcolumn : a.column = s.column) : a.field = s.name := by
  obtain ⟨f, hf, hname, hmem⟩ := u.declared a ha
  have hsame := m.owned f hf _ (m.stated s hs) a.column hmem (hcolumn ▸ List.mem_singleton_self _)
  rw [← hname, hsame]

/-- A state that is assigned takes the value given for it. -/
theorem of_apply_of_mem {s : StateField} (hs : s ∈ m.states) {a : Assignment T} (ha : a ∈ u.assignments)
    (hfield : a.field = s.name) (r : Row T) : s.of (u.apply r) = s.of u.v := by
  have hcolumn := valueOf_state u hs ha hfield
  have happly := apply_of_mem u ha r
  obtain ⟨field, column, assigned⟩ := a
  dsimp only at hcolumn
  subst hcolumn
  have hgiven : u.valueOf ⟨field, s.column, assigned⟩ r = u.v s.column := by
    change Assigned T .text at assigned
    cases assigned
    rfl
  exact happly.trans hgiven

theorem of_apply_of_not_mem {s : StateField} (hs : s ∈ m.states) (h : ∀ a ∈ u.assignments, a.field ≠ s.name)
    (r : Row T) : s.of (u.apply r) = s.of r :=
  apply_of_not_mem u (fun a ha hcolumn => h a ha (field_of_column u hs ha hcolumn)) r

theorem distinct_iff {t : ColumnType} (ht : t ≠ .point) {a b : Option (T.Value t)} : distinct a b = true ↔ a ≠ b := by
  cases t with
  | point => exact absurd rfl ht
  | _ => exact decide_eq_true_iff

/-- Values of one type read as one JSON only where they are the same or both read as a JSON null. -/
theorem json_eq_iff {t : ColumnType} (ht : t ≠ .point) {a b : Option (T.Value t)} :
    json a = json b ↔ a = b ∨ json a = T.null ∧ json b = T.null := by
  constructor
  · intro h
    cases t with
    | point => exact absurd rfl ht
    | text =>
      cases a with
      | none =>
        cases b with
        | none => exact .inl rfl
        | some y => exact absurd h.symm (T.ofText_ne y)
      | some x =>
        cases b with
        | none => exact absurd h (T.ofText_ne x)
        | some y => exact .inl (congrArg some (T.ofText_injective h))
    | scalar =>
      cases a with
      | none =>
        cases b with
        | none => exact .inl rfl
        | some y => exact absurd h.symm (T.ofScalar_ne y)
      | some x =>
        cases b with
        | none => exact absurd h (T.ofScalar_ne x)
        | some y => exact .inl (congrArg some (T.ofScalar_injective h))
    | jsonb =>
      cases a with
      | none => exact .inr ⟨rfl, h.symm⟩
      | some x =>
        cases b with
        | none => exact .inr ⟨h, rfl⟩
        | some y => exact .inl (congrArg some h)
  · rintro (rfl | ⟨ha, hb⟩)
    · rfl
    · rw [ha, hb]

/-- A declared edge. -/
def StateField.Edge (s : StateField) (before after : Option String) : Prop :=
  ∃ state rule texts next, before = some state ∧ (state, rule) ∈ s.states ∧ rule.next = some texts ∧
    after = some next ∧ next ∈ texts

/-- The row's state locks a field. -/
def StateField.Locks (s : StateField) (r : Row T) (field : String) : Prop :=
  ∃ state rule edit, s.of r = some state ∧ (state, rule) ∈ s.states ∧ rule.lock = some edit ∧
    field ≠ s.name ∧ ∀ fields, edit = .only fields → field ∉ fields

/-- A change of a row breaks a rule: a state moves along no declared edge, or a locked field changes. -/
def Breaks (m : Model) (anonymised : List String) (before after : Row T) : Prop :=
  ∃ s ∈ m.states, s.of before ≠ s.of after ∧ ¬s.Edge (s.of before) (s.of after) ∨
    ∃ f ∈ m.fields, s.Locks before f.name ∧ f.name ∉ anonymised ∧ ∃ c ∈ f.columns, json (before c) ≠ json (after c)

/-- A locked field is assigned another value that is none to the trigger: the host anonymises the
field, or a null and a JSON null read alike. -/
def Update.Spared (anonymised : List String) (r : Row T) : Prop :=
  ∃ s ∈ m.states, ∃ a ∈ u.assignments, s.Locks r a.field ∧ r a.column ≠ u.valueOf a r ∧
    (a.field ∈ anonymised ∨ json (r a.column) = T.null ∧ json (u.valueOf a r) = T.null)

theorem mem_states_iff {s : StateField} {state : String} {rule : Rule} :
    s.states.lookup state = some rule ↔ (state, rule) ∈ s.states :=
  ⟨Lib.mem_of_lookup, Lib.lookup_some_of_mem s.nodup⟩

theorem lock_eq_some {rule : Rule} {edit : Edit} :
    rule.lock = some edit ↔ rule.edit.getD .all ≠ .all ∧ rule.edit.getD .all = edit := by
  rw [Rule.lock]
  cases hedit : rule.edit with
  | none => simp
  | some e =>
    rw [Option.getD_some]
    split_ifs with hall
    · simp [hall]
    · simp [hall]

theorem holds_leadsTo {s : StateField} {before after : Option String} :
    Holds (Rule.leadsTo (before.bind fun state => s.states.lookup state) after) ↔ s.Edge before after := by
  cases before with
  | none => simp [Rule.leadsTo, StateField.Edge]
  | some state =>
    rw [Option.bind_some]
    cases hlookup : s.states.lookup state with
    | none =>
      refine iff_of_false (by simp [Rule.leadsTo]) ?_
      rintro ⟨_, rule, _, _, ⟨⟩, hmem, -⟩
      rw [mem_states_iff.2 hmem] at hlookup
      cases hlookup
    | some rule =>
      have hmem := mem_states_iff.1 hlookup
      cases after with
      | none => simp [Rule.leadsTo, StateField.Edge]
      | some next =>
        cases hnext : rule.next with
        | none =>
          refine iff_of_false (by simp [Rule.leadsTo, hnext]) ?_
          rintro ⟨_, rule', _, _, ⟨⟩, hmem', hnext', -⟩
          rw [mem_states_iff.2 hmem', Option.some.injEq] at hlookup
          rw [hlookup, hnext] at hnext'
          cases hnext'
        | some texts =>
          simp only [Rule.leadsTo, Option.bind_some, hnext, holds_some, decide_eq_true_eq]
          constructor
          · exact fun h => ⟨state, rule, texts, next, rfl, hmem, hnext, rfl, h⟩
          · rintro ⟨_, rule', texts', _, ⟨⟩, hmem', hnext', ⟨⟩, h⟩
            rw [mem_states_iff.2 hmem', Option.some.injEq] at hlookup
            rw [hlookup, hnext, Option.some.injEq] at hnext'
            rwa [hnext']

theorem skips_eq_false {s : StateField} {anonymised : List String} {edit : Edit} {field : String} :
    skips s anonymised edit field = false ↔ field ≠ s.name ∧ field ∉ anonymised ∧
      ∀ fields, edit = .only fields → field ∉ fields := by
  cases edit with
  | only fields => simp [skips, and_assoc]
  | _ => simp [skips]

/-- What a row's state locks, as the trigger looks its rule up. -/
theorem locks_iff {s : StateField} {r : Row T} {field : String} {edit : Edit}
    (hedit : (((s.of r).bind fun state => s.states.lookup state).bind Rule.edit).getD .all = edit) :
    s.Locks r field ↔ edit ≠ .all ∧ field ≠ s.name ∧ ∀ fields, edit = .only fields → field ∉ fields := by
  subst hedit
  cases hstate : s.of r with
  | none => simp [StateField.Locks, hstate]
  | some state =>
    rw [Option.bind_some]
    cases hlookup : s.states.lookup state with
    | none =>
      refine iff_of_false ?_ (by simp)
      rintro ⟨_, rule, _, hstate', hmem, -⟩
      rw [hstate, Option.some.injEq] at hstate'
      rw [← hstate', ← mem_states_iff, hlookup] at hmem
      cases hmem
    | some rule =>
      rw [Option.bind_some]
      constructor
      · rintro ⟨_, rule', edit, hstate', hmem, hlock, hfield, honly⟩
        rw [hstate, Option.some.injEq] at hstate'
        rw [← hstate', ← mem_states_iff, hlookup, Option.some.injEq] at hmem
        subst hmem
        obtain ⟨hall, rfl⟩ := lock_eq_some.1 hlock
        exact ⟨hall, hfield, honly⟩
      · rintro ⟨hall, hfield, honly⟩
        exact ⟨state, rule, _, hstate, mem_states_iff.1 hlookup, lock_eq_some.2 ⟨hall, rfl⟩, hfield, honly⟩

/-- A state moves where its texts differ as JSON. -/
theorem json_state_ne {s : StateField} {before after : Row T} :
    json (before s.column) ≠ json (after s.column) ↔ s.of before ≠ s.of after := by
  have hnull (x : Option String) (h : json (T := T) (t := .text) x = T.null) : x = none := by
    cases x with
    | none => rfl
    | some x => exact absurd h (T.ofText_ne x)
  refine not_congr ((json_eq_iff (t := s.column.type) (by simp [StateField.column])).trans ⟨?_, .inl⟩)
  rintro (h | ⟨ha, hb⟩)
  · exact h
  · exact (hnull _ ha).trans (hnull _ hb).symm

theorem raises_iff {anonymised : Row T → List String} {before after : Row T} :
    raises m anonymised before after = true ↔ Breaks m (anonymised after) before after := by
  simp only [raises, List.any_eq_true]
  refine exists_congr fun s => and_congr_right fun hs => ?_
  simp only [StateField.raises, Bool.or_eq_true, Bool.and_eq_true, decide_eq_true_eq, Bool.not_eq_true',
    List.any_eq_true, json_state_ne, skips_eq_false]
  refine or_congr (and_congr_right fun _ => ?_) ?_
  · rw [← holds_leadsTo, ← getD_false_eq_true, Bool.not_eq_true]
  · constructor
    · rintro ⟨hall, f, hf, ⟨hname, hnot, honly⟩, hchanged⟩
      exact ⟨f, hf, (locks_iff rfl).2 ⟨hall, hname, honly⟩, hnot, hchanged⟩
    · rintro ⟨f, hf, hlocks, hnot, hchanged⟩
      obtain ⟨hall, hname, honly⟩ := (locks_iff rfl).1 hlocks
      exact ⟨hall, f, hf, ⟨hname, hnot, honly⟩, hchanged⟩

theorem holds_isText {x : Option String} {text : String} : Holds (isText x text) ↔ x = some text := by
  cases x <;> simp [isText]

theorem holds_isOneOf {x : Option String} {texts : List String} :
    Holds (isOneOf x texts) ↔ ∃ text, x = some text ∧ text ∈ texts := by
  cases x <;> simp [isOneOf]

theorem holds_allowed {s : StateField} {current next : Option String} :
    Holds (any (allowed s current next)) ↔ current = next ∨ s.Edge current next := by
  rw [holds_any, allowed, List.exists_mem_cons_iff, holds_some, decide_eq_true_eq]
  refine or_congr Iff.rfl ?_
  simp only [List.mem_filterMap]
  constructor
  · rintro ⟨t, ⟨e, he, ht⟩, hholds⟩
    split at ht
    next first rest hnext =>
      obtain rfl := Option.some.inj ht
      rw [holds_and, holds_isText, holds_isOneOf] at hholds
      obtain ⟨hcurrent, text, htext, hmem⟩ := hholds
      exact ⟨e.1, e.2, _, text, hcurrent, he, hnext, htext, hmem⟩
    next => cases ht
  · rintro ⟨state, rule, texts, text, rfl, hmem, hnext, rfl, htext⟩
    cases texts with
    | nil => cases htext
    | cons first rest =>
      refine ⟨_, ⟨(state, rule), hmem, by simp only [hnext]; rfl⟩, ?_⟩
      rw [holds_and, holds_isText, holds_isOneOf]
      exact ⟨rfl, text, rfl, htext⟩

theorem mem_lockedBy {s : StateField} {edit : Edit} {a : Assignment T} :
    a ∈ u.lockedBy s edit ↔
      a ∈ u.assignments ∧ a.field ≠ s.name ∧ ∀ fields, edit = .only fields → a.field ∉ fields := by
  cases edit with
  | only fields => simp [Update.lockedBy]
  | _ => simp [Update.lockedBy]

/-- The locks' checks of a state that some row fails. -/
theorem exists_lock {s : StateField} {name : String} {r : Row T} :
    (∃ check ∈ s.states.filterMap (u.lock name s), Holds (check.holds r)) ↔
      ∃ a ∈ u.assignments, s.Locks r a.field ∧ distinct (r a.column) (u.valueOf a r) = true := by
  simp only [List.mem_filterMap]
  constructor
  · rintro ⟨check, ⟨⟨state, rule⟩, hmem, hcheck⟩, hholds⟩
    obtain ⟨edit, hedit, hcheck⟩ := Option.bind_eq_some_iff.1 hcheck
    split_ifs at hcheck
    obtain rfl := Option.some.inj hcheck
    rw [holds_and, holds_isText, holds_any] at hholds
    obtain ⟨hstate, t, ht, hholds⟩ := hholds
    obtain ⟨a, ha, rfl⟩ := List.mem_map.1 ht
    obtain ⟨ha, hfield, honly⟩ := (mem_lockedBy u).1 ha
    exact ⟨a, ha, ⟨state, rule, edit, hstate, hmem, hedit, hfield, honly⟩, (holds_some _).1 hholds⟩
  · rintro ⟨a, ha, ⟨state, rule, edit, hstate, hmem, hedit, hfield, honly⟩, hdistinct⟩
    have hlocked := (mem_lockedBy u).2 ⟨ha, hfield, honly⟩
    have hne : (u.lockedBy s edit).isEmpty = false := by
      cases h : u.lockedBy s edit with
      | nil => rw [h] at hlocked; cases hlocked
      | cons _ _ => rfl
    refine ⟨_, ⟨(state, rule), hmem, Option.bind_eq_some_iff.2 ⟨edit, hedit, if_neg (by simp [hne])⟩⟩, ?_⟩
    rw [holds_and, holds_isText, holds_any]
    exact ⟨hstate, _, List.mem_map_of_mem hlocked, (holds_some _).2 hdistinct⟩

theorem exists_edge {s : StateField} (hs : s ∈ m.states) {name : String} {r : Row T} :
    (∃ check ∈ u.edge name s, Holds (check.holds r)) ↔
      s.of r ≠ s.of (u.apply r) ∧ ¬s.Edge (s.of r) (s.of (u.apply r)) := by
  rw [Update.edge]
  split_ifs with hassigned
  · obtain ⟨a, ha, hfield⟩ := List.any_eq_true.1 hassigned
    have hnot (t : Tri) : Holds (some (!t.getD false)) ↔ ¬Holds t := by
      rw [holds_some, Bool.not_eq_true', ← Bool.not_eq_true, getD_false_eq_true]
    rw [List.exists_mem_cons_iff, of_apply_of_mem u hs ha (beq_iff_eq.1 hfield), ← not_or, ← holds_allowed]
    simp only [List.not_mem_nil, false_and, exists_false, or_false]
    exact hnot _
  · have hnot : ∀ a ∈ u.assignments, a.field ≠ s.name := fun a ha hfield =>
      hassigned (List.any_eq_true.2 ⟨a, ha, beq_iff_eq.2 hfield⟩)
    rw [of_apply_of_not_mem u hs hnot]
    simp

/-- No locked column is of a type without `=`. -/
theorem type_ne_point (hsupported : u.unsupported = false) {s : StateField} (hs : s ∈ m.states) {r : Row T}
    {a : Assignment T} (ha : a ∈ u.assignments) (hlocks : s.Locks r a.field) : a.column.type ≠ .point := by
  obtain ⟨state, rule, edit, -, hmem, hlock, hfield, honly⟩ := hlocks
  intro hpoint
  refine absurd ?_ (Bool.eq_false_iff.1 hsupported)
  simp only [Update.unsupported, List.any_eq_true, Option.any_eq_true, decide_eq_true_eq]
  exact ⟨s, hs, (state, rule), hmem, edit, hlock, a, (mem_lockedBy u).2 ⟨ha, hfield, honly⟩, hpoint⟩

/-- A check fails at a row just where the update breaks a rule there or assigns what the trigger
spares. -/
theorem exists_check (hsupported : u.unsupported = false) {name : String} {anonymised : List String} {r : Row T} :
    (∃ check ∈ u.checks name, Holds (check.holds r)) ↔
      Breaks m anonymised r (u.apply r) ∨ u.Spared anonymised r := by
  have hcheck : (∃ check ∈ u.checks name, Holds (check.holds r)) ↔
      ∃ s ∈ m.states, (∃ check ∈ u.edge name s, Holds (check.holds r)) ∨
        ∃ check ∈ s.states.filterMap (u.lock name s), Holds (check.holds r) := by
    simp only [Update.checks, List.mem_flatMap, List.mem_append]
    constructor
    · rintro ⟨check, ⟨s, hs, h | h⟩, hholds⟩
      · exact ⟨s, hs, .inl ⟨check, h, hholds⟩⟩
      · exact ⟨s, hs, .inr ⟨check, h, hholds⟩⟩
    · rintro ⟨s, hs, ⟨check, h, hholds⟩ | ⟨check, h, hholds⟩⟩
      · exact ⟨check, ⟨s, hs, .inl h⟩, hholds⟩
      · exact ⟨check, ⟨s, hs, .inr h⟩, hholds⟩
  rw [hcheck, Breaks, Update.Spared, ← exists_or]
  refine exists_congr fun s => ?_
  rw [← and_or_left]
  refine and_congr_right fun hs => ?_
  rw [exists_edge u hs, exists_lock, or_assoc]
  refine or_congr Iff.rfl ?_
  constructor
  · rintro ⟨a, ha, hlocks, hdistinct⟩
    have htype := type_ne_point u hsupported hs ha hlocks
    rw [distinct_iff htype] at hdistinct
    by_cases hanonymised : a.field ∈ anonymised
    · exact .inr ⟨a, ha, hlocks, hdistinct, .inl hanonymised⟩
    · by_cases hjson : json (r a.column) = json (u.valueOf a r)
      · obtain heq | hnull := (json_eq_iff htype).1 hjson
        · exact absurd heq hdistinct
        · exact .inr ⟨a, ha, hlocks, hdistinct, .inr hnull⟩
      · obtain ⟨f, hf, hname, hcolumn⟩ := u.declared a ha
        refine .inl ⟨f, hf, hname ▸ hlocks, hname ▸ hanonymised, a.column, hcolumn, ?_⟩
        rwa [apply_of_mem u ha]
  · rintro (⟨f, hf, hlocks, -, c, hc, hjson⟩ | ⟨a, ha, hlocks, hne, -⟩)
    · -- the changed column is assigned, under the name of its own field
      have hassigned : ∃ a ∈ u.assignments, a.column = c := by
        by_contra hnot
        exact hjson (by rw [apply_of_not_mem u fun a ha hcolumn => hnot ⟨a, ha, hcolumn⟩])
      obtain ⟨a, ha, rfl⟩ := hassigned
      obtain ⟨g, hg, hname, hcolumn⟩ := u.declared a ha
      obtain rfl := m.owned f hf g hg a.column hc hcolumn
      rw [hname] at hlocks
      refine ⟨a, ha, hlocks, (distinct_iff (type_ne_point u hsupported hs ha hlocks)).2 fun heq => hjson ?_⟩
      rw [apply_of_mem u ha, heq]
    · exact ⟨a, ha, hlocks, (distinct_iff (type_ne_point u hsupported hs ha hlocks)).2 hne⟩

/-- The statement answers, it refuses just where the trigger would raise for a row it targets, a
refused or stale update changes no row; an admitted one does not fail in the trigger. -/
def Update.Agrees (name : String) (anonymised : Row T → List String) (table : List (Row T)) : Prop :=
  ∃ answer, u.run name anonymised table = some answer ∧
    (answer.refused.isSome = true ↔ ∃ r ∈ u.targets table, raises m anonymised r (u.apply r) = true) ∧
    (answer.refused.isSome = true ∨ u.stale table = true → answer.rows = table)

theorem isSome_blocked {name : String} {table : List (Row T)} : (u.blocked name table).min?.isSome = true ↔
    ∃ r ∈ u.targets table, ∃ check ∈ u.checks name, Holds (check.holds r) := by
  have hblocked : (u.blocked name table).min?.isSome = true ↔ ∃ n, n ∈ u.blocked name table := by
    rw [List.isSome_min?_iff, ne_eq, List.eq_nil_iff_forall_not_mem, not_forall_not]
  rw [hblocked]
  simp only [Update.blocked, List.mem_map, List.mem_filter, List.any_eq_true, decide_eq_true_eq]
  constructor
  · rintro ⟨n, ⟨check, i⟩, ⟨hmem, r, hr, hholds⟩, -⟩
    exact ⟨r, hr, check, List.fst_mem_of_mem_zipIdx hmem, hholds⟩
  · rintro ⟨r, hr, check, hcheck, hholds⟩
    rw [← List.zipIdx_map_fst 0 (u.checks name)] at hcheck
    obtain ⟨x, hx, rfl⟩ := List.mem_map.1 hcheck
    exact ⟨x.2, x, ⟨hx, r, hr, hholds⟩, rfl⟩

theorem refused_of_run {name : String} {anonymised : Row T → List String} {table : List (Row T)} {answer : Answer T}
    (h : u.run name anonymised table = some answer) :
    u.unsupported = false ∧ answer.refused = (u.blocked name table).min? := by
  rw [Update.run] at h
  cases hsupported : u.unsupported with
  | true =>
    rw [hsupported, if_pos rfl] at h
    cases h
  | false =>
    rw [hsupported, if_neg Bool.false_ne_true] at h
    dsimp only at h
    refine ⟨rfl, ?_⟩
    split at h
    · exact Option.some.inj h ▸ rfl
    · split at h
      · cases h
      · exact Option.some.inj h ▸ rfl

/-- The guard of an update and the row trigger agree just where the statement compares no type
without `=` and, if it targets a row with a locked assignment the trigger spares, it also targets one
that breaks a rule. -/
theorem agrees_iff {name : String} {anonymised : Row T → List String} {table : List (Row T)} :
    u.Agrees name anonymised table ↔ u.unsupported = false ∧
      ((∃ r ∈ u.targets table, u.Spared (anonymised (u.apply r)) r) →
        ∃ r ∈ u.targets table, Breaks m (anonymised (u.apply r)) r (u.apply r)) := by
  constructor
  · rintro ⟨answer, hrun, hrefused, -⟩
    obtain ⟨hsupported, hblocked⟩ := refused_of_run u hrun
    refine ⟨hsupported, ?_⟩
    rintro ⟨r, hr, hspared⟩
    have hsome : answer.refused.isSome = true := by
      rw [hblocked, isSome_blocked]
      exact ⟨r, hr, (exists_check u hsupported).2 (.inr hspared)⟩
    obtain ⟨r', hr', hraises⟩ := hrefused.1 hsome
    exact ⟨r', hr', raises_iff.1 hraises⟩
  · rintro ⟨hsupported, hspared⟩
    have hrefused : (u.blocked name table).min?.isSome = true ↔
        ∃ r ∈ u.targets table, raises m anonymised r (u.apply r) = true := by
      simp only [isSome_blocked, raises_iff]
      constructor
      · rintro ⟨r, hr, hcheck⟩
        obtain hbreaks | h := (exists_check u hsupported).1 hcheck
        · exact ⟨r, hr, hbreaks⟩
        · exact hspared ⟨r, hr, h⟩
      · rintro ⟨r, hr, hbreaks⟩
        exact ⟨r, hr, (exists_check u hsupported).2 (.inl hbreaks)⟩
    rw [Update.Agrees, Update.run, if_neg (Bool.eq_false_iff.1 hsupported)]
    dsimp only
    by_cases hheld : ((u.blocked name table).min?.isSome || u.stale table) = true
    · rw [if_pos hheld]
      exact ⟨_, rfl, hrefused, fun _ => rfl⟩
    · rw [if_neg hheld]
      rw [Bool.or_eq_true] at hheld
      have hpasses : ¬((u.targets table).any fun r => raises m anonymised r (u.apply r)) = true := by
        rw [List.any_eq_true, ← hrefused]
        exact fun h => hheld (.inl h)
      rw [if_neg hpasses]
      exact ⟨_, rfl, hrefused, fun h => absurd h hheld⟩

end

/-- JSON of texts, whole numbers and points. -/
inductive Plain where
  | null
  | text (s : String)
  | number (n : ℤ)
  | point (x y : ℤ)
  deriving DecidableEq, Repr

def plain : Types where
  Doc := Plain
  docs := inferInstance
  null := .null
  ofText := .text
  Scalar := ℤ
  scalars := inferInstance
  ofScalar := .number
  Point := ℤ × ℤ
  ofPoint p := .point p.1 p.2
  ofText_injective _ _ h := Plain.text.inj h
  ofScalar_injective _ _ h := Plain.number.inj h
  ofText_ne _ h := Plain.noConfusion h
  ofScalar_ne _ h := Plain.noConfusion h

/-- A site is a draft and then closed, and closed it keeps its place. -/
def site : Model where
  fields := [⟨"status", [⟨"status", .text⟩]⟩, ⟨"place", [⟨"place", .point⟩]⟩]
  states := [⟨"status", [("draft", { next := some ["closed"] }), ("closed", { edit := some .none })], by decide⟩]
  named := by decide
  owned := by decide
  stated := by decide

def closed : Row plain
  | ⟨"status", .text⟩ => some "closed"
  | _ => none

/-- An update of a site's place. -/
def placed : Update plain site where
  v
    | ⟨"place", .point⟩ => some (4, 52)
    | _ => none
  assignments := [⟨"place", ⟨"place", .point⟩, .given⟩]
  condition _ := true
  revision _ := none
  observed := none
  nodup := by decide
  declared := by decide

/-- A closed site's place is locked: the trigger would raise, and the guard fails the statement
instead of refusing it. -/
theorem point_fails : raises site (fun _ => []) closed (placed.apply closed) = true ∧
    ¬placed.Agrees "site" (fun _ => []) [closed] := by
  refine ⟨by decide, ?_⟩
  rintro ⟨answer, hrun, -⟩
  have hfails : placed.run "site" (fun _ => []) [closed] = none := if_pos (by decide)
  rw [hfails] at hrun
  cases hrun

end Norbital.Store.States

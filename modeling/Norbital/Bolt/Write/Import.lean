import Mathlib.Data.List.Nodup
import Norbital.Lib.Fallible
import Norbital.Lib.ThreeValued
import Norbital.Store.Read.Values

/-!
# What an import prunes

An import may delete the rows it does not name (`pruned` of `bolt/src/engine/write/import.ts`): one
read of the rows inside its `where` whose key is none of the imported ones, compiled as any predicate
is (`pred` of `store/src/read/sql.ts`).
-/

namespace Norbital.Bolt.Import

open Norbital.Std Norbital.Store.Values ThreeValued

structure StoreError where
  code : String
  message : String
  deriving DecidableEq, Repr

/-- The predicates `pruned` builds, over those of the import's `where`. -/
inductive Pred (pg : Pg) where
  | const (value : Bool)
  | and (of : List (Pred pg))
  | or (of : List (Pred pg))
  | not (of : Pred pg)
  /-- A comparison `eq` with a literal. -/
  | eq (field : String) (arg : Json)
  | in (field : String) (args : List Json) (negated : Bool)
  /-- A test of another kind, as it compiles where fields are held to an exposure or not. -/
  | test (compiled : Bool → Except StoreError (Row pg → Tri))

/-- What a reader may name of a model, and JavaScript's texts. -/
structure Reader where
  path : String
  fields : List (String × FieldInfo)
  exposed : String → Bool
  number : Rat → String
  toLowerCase : String → String
  /-- `/\p{Cf}/u`. -/
  invisible : String → Bool

/-- `UUID`, upper-case digits included. -/
def isUuid (s : String) : Bool :=
  let hex := fun c : Char => c.isDigit || decide ('a' ≤ c.toLower ∧ c.toLower ≤ 'f')
  fits (List.replicate 8 hex ++ [(· == '-')] ++ List.replicate 4 hex ++ [(· == '-')] ++ List.replicate 4 hex ++
    [(· == '-')] ++ List.replicate 4 hex ++ [(· == '-')] ++ List.replicate 12 hex) s.toList

def isId : Json → Bool
  | .string s => isUuid s
  | _ => false

section

variable {pg : Pg} (c : Reader)

/-- `fieldOf`. -/
def Reader.fieldOf (level : Bool) (name : String) : Except StoreError FieldInfo :=
  match c.fields.lookup name with
  | some f => if level && !c.exposed name then .error (unreadable level name) else .ok f
  | none => .error (unreadable level name)
where
  unreadable (level : Bool) (name : String) : StoreError :=
    ⟨"invalid", "'" ++ c.path ++ "' has no readable field '" ++ name ++ "'" ++
      (if c.invisible name then " (the name holds invisible characters)" else "") ++ "; it exposes: " ++
      ", ".intercalate ((c.fields.map Prod.fst).filter fun k => !level || c.exposed k)⟩

/-- A bound value of a column's type; a text that is none of the type's fails the statement. -/
def bound (pg : Pg) (f : FieldInfo) (v : Json) : Except StoreError (Option pg.Datum) :=
  match pg.bind f.pg v with
  | some x => .ok x
  | none => .error ⟨"invalid", "invalid input syntax for type " ++ f.pg⟩

/-- An e-mail is compared in lower case. -/
def fold (f : FieldInfo) (x : Option pg.Datum) : Option pg.Datum := if f.email then x.map pg.lower else x

/-- `lower` of a text that is bound, before it is. -/
def Reader.lowered (f : FieldInfo) : Json → Json
  | .string s => .string (if f.email then c.toLowerCase s else s)
  | v => v

/-- `value`. -/
def Reader.value (pg : Pg) (f : FieldInfo) (v : Json) : Except StoreError (Option pg.Datum) :=
  let p := comparable c.number f.kind v
  if !p.isNull && f.pg == "uuid" && !isId p then .error ⟨"invalid", "'" ++ f.name ++ "' takes an id"⟩
  else bound pg f (c.lowered f p)

/-- An element of a list that is bound; every element of a list of e-mails is a text. -/
def Reader.element (f : FieldInfo) (v : Json) : Json :=
  if f.email then .string (c.toLowerCase (stringOf c.number v)) else v

/-- The column of a comparison with one value. -/
def equals (f : FieldInfo) (x : Option pg.Datum) (r : Row pg) : Tri :=
  pg.equals f.pg (fold f (r.column f.name)) (fold f x)

/-- `x = ANY(list)`; the list's e-mails are lowered already. -/
def isIn (f : FieldInfo) (xs : List (Option pg.Datum)) (r : Row pg) : Tri :=
  any (xs.map (pg.equals f.pg (fold f (r.column f.name))))

/-- `NOT COALESCE(t, false)`. -/
def notKnown (t : Tri) : Tri := some (!t.getD false)

mutual

/-- `pred`: the truth of a predicate at a row. -/
def Reader.pred (level : Bool) : Pred pg → Except StoreError (Row pg → Tri)
  | .const value => .ok fun _ => some value
  | .and of => do
    let parts ← Reader.preds level of
    return fun r => all (parts.map (· r))
  | .or of => do
    let parts ← Reader.preds level of
    return fun r => any (parts.map (· r))
  | .not of => do
    let part ← Reader.pred level of
    return fun r => notKnown (part r)
  | .eq field arg => do
    let f ← c.fieldOf level field
    let x ← c.value pg f arg
    return equals f x
  | .in field args negated => do
    let f ← c.fieldOf level field
    let list := args.map (comparable c.number f.kind)
    if f.pg == "uuid" && list.any (!isId ·) then .error ⟨"invalid", "'" ++ f.name ++ "' takes ids"⟩
    else do
      let xs ← (list.map (c.element f)).mapM (bound pg f)
      return fun r => if negated then notKnown (isIn f xs r) else isIn f xs r
  | .test compiled => compiled level

def Reader.preds (level : Bool) : List (Pred pg) → Except StoreError (List (Row pg → Tri))
  | [] => .ok []
  | p :: ps => do
    let x ← Reader.pred level p
    let xs ← Reader.preds level ps
    return x :: xs

end

/-- A table's rows, in the order of their ids. -/
structure Table (pg : Pg) where
  rows : List (Row pg)
  nodup : (rows.map Row.id).Nodup

/-- The reader's row filter: none for a reader that is not scoped. -/
def Reader.scope : Option (List (Pred pg)) → Except StoreError (Row pg → Tri)
  | none => .ok fun _ => some true
  | some arms => do
    let parts ← c.preds false arms
    return fun r => any (parts.map (· r))

/-- `whereSql`, answered: the ids of the rows inside the reader's scope at which the predicate is true. -/
def Reader.whereSql (arms : Option (List (Pred pg))) (p : Pred pg) (table : Table pg) :
    Except StoreError (List String) := do
  if arms.any List.isEmpty then
    throw ⟨"forbidden", "no held policy grants reading '" ++ c.path ++ "' (rule 33)"⟩
  let scope ← c.scope arms
  let holds ← c.pred arms.isSome p
  return (table.rows.filter fun r => decide (Holds (ThreeValued.and (scope r) (holds r)))).map Row.id

/-- An item of the act: whether it is a child of another, and the values of a create or an upsert. -/
structure Item where
  child : Bool
  values : Option (List (String × Json))

def named (items : List Item) : List (List (String × Json)) :=
  items.filterMap fun i => if i.child then none else i.values

/-- The value of an item's key column, none of it a null. -/
def keyValue (c : Reader) (v : List (String × Json)) (name : String) : Json :=
  databaseValue c.number .other ((member v name).getD .null)

/-- What the rows that are pruned satisfy. -/
def keep (key : List String) (rows : List (List (String × Json))) : Pred pg :=
  match key with
  | [name] => .in name (rows.map (keyValue c · name)) true
  | key => .not (.or (rows.map fun v => .and (key.map fun name => .eq name (keyValue c v name))))

inductive Pruned where
  | ids (ids : List String)
  | refused (message : String)
  deriving DecidableEq, Repr

/-- `pruned`. -/
def pruned (key : List String) (inside : Pred pg) (arms : Option (List (Pred pg))) (table : Table pg)
    (items : List Item) : Except StoreError Pruned :=
  match c.whereSql arms (.and [inside, keep c key (named items)]) table with
  | .ok ids => .ok (.ids ids)
  | .error e => if e.code = "forbidden" then .ok (.refused e.message) else .error e

/-- What is bound for an item's key column; a key value is taken out of its wrapper once more than it
has one. -/
def Reader.sought (f : FieldInfo) (v : List (String × Json)) (name : String) : Json :=
  comparable c.number f.kind (keyValue c v name)

/-- The row's key columns are equal to an imported row's, nulls included. -/
def Named (key : List String) (rows : List (List (String × Json))) (r : Row pg) : Prop :=
  ∃ v ∈ rows, ∀ name ∈ key, ∃ f, c.fields.lookup name = some f ∧
    ∃ x, pg.bind f.pg (c.sought f v name) = some x ∧ pg.notDistinct f.pg (r.column f.name) x = true

/-- What a key column is compared with: in a key of one column an e-mail is the text of the value in
lower case, in one of several it is folded as the column is. -/
def Reader.boundOf (pg : Pg) (alone : Bool) (f : FieldInfo) (v : Json) : Option (Option pg.Datum) :=
  if alone then pg.bind f.pg (c.element f v) else (pg.bind f.pg (c.lowered f v)).map (fold f)

/-- The row's key columns are equal to an imported row's, no null among them and e-mails folded. -/
def Folded (key : List String) (rows : List (List (String × Json))) (r : Row pg) : Prop :=
  ∃ v ∈ rows, ∀ name ∈ key, ∃ f, c.fields.lookup name = some f ∧
    ∃ x, c.boundOf pg (key.length = 1) f (c.sought f v name) = some x ∧
      pg.equals f.pg (fold f (r.column f.name)) x = some true

/-- The caller reads the row and the import's `where` holds of it. -/
def Inside (inside : Pred pg) (arms : Option (List (Pred pg))) (r : Row pg) : Prop :=
  ∃ scope holds, c.scope arms = .ok scope ∧ c.pred arms.isSome inside = .ok holds ∧
    Holds (scope r) ∧ Holds (holds r)

theorem holds_notKnown {t : Tri} : Holds (notKnown t) ↔ ¬Holds t := by
  rcases t with _ | _ | _ <;> simp [notKnown]

theorem preds_eq_ok {level : Bool} {ps : List (Pred pg)} {xs : List (Row pg → Tri)} :
    c.preds level ps = .ok xs ↔ List.Forall₂ (fun p x => c.pred level p = .ok x) ps xs := by
  have hmapM : c.preds level ps = ps.mapM (c.pred level) := by
    induction ps with
    | nil => rfl
    | cons p ps ih => rw [Reader.preds, ih, List.mapM_cons]
  rw [hmapM, Fallible.mapM_eq_ok]

theorem bound_eq_ok {f : FieldInfo} {v : Json} {x : Option pg.Datum} :
    bound pg f v = .ok x ↔ pg.bind f.pg v = some x := by
  rw [bound]
  cases pg.bind f.pg v <;> simp

theorem lookup_of_fieldOf {level : Bool} {name : String} {f : FieldInfo} (h : c.fieldOf level name = .ok f) :
    c.fields.lookup name = some f := by
  rw [Reader.fieldOf] at h
  cases hlookup : c.fields.lookup name with
  | none => rw [hlookup] at h; cases h
  | some g =>
    rw [hlookup] at h
    dsimp only at h
    split_ifs at h
    cases h
    rfl

/-- One comparison of a key of several columns. -/
theorem holds_eq {level : Bool} {name : String} {v : Json} {holds : Row pg → Tri} {r : Row pg}
    (h : c.pred level (.eq name v) = .ok holds) : Holds (holds r) ↔
      ∃ f, c.fields.lookup name = some f ∧
        ∃ x, c.boundOf pg false f (comparable c.number f.kind v) = some x ∧
          pg.equals f.pg (fold f (r.column f.name)) x = some true := by
  rw [Reader.pred] at h
  obtain ⟨f, hf, h⟩ := Fallible.bind_eq_ok.1 h
  obtain ⟨x, hx, h⟩ := Fallible.bind_eq_ok.1 h
  obtain rfl := Except.ok.inj h
  have hlookup := lookup_of_fieldOf c hf
  have hbind : pg.bind f.pg (c.lowered f (comparable c.number f.kind v)) = some x := by
    rw [Reader.value] at hx
    split_ifs at hx
    exact bound_eq_ok.1 hx
  rw [hlookup]
  simp only [Reader.boundOf, Option.some.injEq, exists_eq_left', Bool.false_eq_true, if_false, hbind,
    Option.map_some]
  exact Iff.rfl

/-- The rows that are pruned are those no imported key agrees with. -/
theorem holds_keep {level : Bool} {key : List String} {rows : List (List (String × Json))} {holds : Row pg → Tri}
    {r : Row pg} (h : c.pred level (keep c key rows) = .ok holds) : Holds (holds r) ↔ ¬Folded c key rows r := by
  have hmany (hkey : key.length ≠ 1)
      (h : c.pred level (.not (.or (rows.map fun v => .and (key.map fun name => .eq name (keyValue c v name))))) =
        .ok holds) : Holds (holds r) ↔ ¬Folded c key rows r := by
    rw [Reader.pred] at h
    obtain ⟨part, hpart, h⟩ := Fallible.bind_eq_ok.1 h
    obtain rfl := Except.ok.inj h
    rw [Reader.pred] at hpart
    obtain ⟨parts, hparts, hpart⟩ := Fallible.bind_eq_ok.1 hpart
    obtain rfl := Except.ok.inj hpart
    rw [preds_eq_ok, List.forall₂_map_left_iff] at hparts
    rw [holds_notKnown, not_iff_not, holds_any]
    simp only [List.mem_map, exists_exists_and_eq_and]
    refine Fallible.exists_mem_iff_of_forall₂ hparts fun v part hpart => ?_
    rw [Reader.pred] at hpart
    obtain ⟨columns, hcolumns, hpart⟩ := Fallible.bind_eq_ok.1 hpart
    obtain rfl := Except.ok.inj hpart
    rw [preds_eq_ok, List.forall₂_map_left_iff] at hcolumns
    rw [holds_all, List.forall_mem_map]
    refine Fallible.forall_mem_iff_of_forall₂ hcolumns fun name column hcolumn => ?_
    rw [holds_eq c hcolumn, decide_eq_false hkey]
    rfl
  match key, h with
  | [], h => exact hmany (by simp) h
  | [name], h =>
    rw [keep, Reader.pred] at h
    obtain ⟨f, hf, h⟩ := Fallible.bind_eq_ok.1 h
    simp only [if_true] at h
    split at h
    · cases h
    · obtain ⟨xs, hxs, h⟩ := Fallible.bind_eq_ok.1 h
      obtain rfl := Except.ok.inj h
      have hlookup := lookup_of_fieldOf c hf
      rw [Fallible.mapM_eq_ok, List.map_map, List.map_map, List.forall₂_map_left_iff] at hxs
      rw [holds_notKnown, not_iff_not, isIn, holds_any]
      simp only [List.mem_map, exists_exists_and_eq_and]
      refine Fallible.exists_mem_iff_of_forall₂ hxs fun v x hx => ?_
      have hx := bound_eq_ok.1 hx
      simp only [List.mem_singleton, forall_eq, hlookup, Option.some.injEq, exists_eq_left', Reader.boundOf,
        List.length_singleton, decide_true, if_true]
      exact ⟨fun h => ⟨x, hx, h⟩, fun ⟨y, hy, h⟩ => Option.some.inj (hx.symm.trans hy) ▸ h⟩
  | a :: b :: rest, h => exact hmany (by simp) h

/-- A key part of an e-mail. -/
def Mailed (key : List String) : Prop := ∃ name ∈ key, ∃ f, c.fields.lookup name = some f ∧ f.email = true

/-- No row inside the `where` that the import names has a null key part; where the key has an e-mail,
folding e-mails names the same rows. -/
structure Told (key : List String) (inside : Pred pg) (arms : Option (List (Pred pg))) (table : Table pg)
    (rows : List (List (String × Json))) : Prop where
  nulls : ∀ r ∈ table.rows, Inside c inside arms r → Named c key rows r →
    ∀ name ∈ key, ∀ f, c.fields.lookup name = some f → r.column f.name ≠ none
  mails : Mailed c key → ∀ r ∈ table.rows, Inside c inside arms r → (Named c key rows r ↔ Folded c key rows r)

theorem equals_iff_notDistinct {type : String} {a b : Option pg.Datum} :
    pg.equals type a b = some true ↔ pg.notDistinct type a b = true ∧ a ≠ none := by
  cases a <;> cases b <;> simp [Pg.equals, Pg.notDistinct]

theorem boundOf_of_email {f : FieldInfo} (hf : f.email = false) (alone : Bool) (v : Json) :
    c.boundOf pg alone f v = pg.bind f.pg v := by
  have hfold : (fold f : Option pg.Datum → Option pg.Datum) = id := by
    funext x
    simp [fold, hf]
  have hlowered : c.lowered f v = v := by
    cases v <;> simp [Reader.lowered, hf]
  have helement : c.element f v = v := if_neg (by simp [hf])
  rw [Reader.boundOf, hfold, Option.map_id, hlowered, helement]
  cases alone <;> rfl

/-- Without e-mails a row is agreed with where it is named and has no null key part. -/
theorem folded_iff {key : List String} {rows : List (List (String × Json))} {r : Row pg} (hmail : ¬Mailed c key) :
    Folded c key rows r ↔ Named c key rows r ∧
      ∀ name ∈ key, ∀ f, c.fields.lookup name = some f → r.column f.name ≠ none := by
  have hnot : ∀ name ∈ key, ∀ f, c.fields.lookup name = some f → f.email = false := fun name hname f hf =>
    Bool.eq_false_iff.2 fun he => hmail ⟨name, hname, f, hf, he⟩
  have hfold : ∀ name ∈ key, ∀ f, c.fields.lookup name = some f → ∀ x : Option pg.Datum, fold f x = x :=
    fun name hname f hf x => by simp [fold, hnot name hname f hf]
  constructor
  · rintro ⟨v, hv, hfolded⟩
    refine ⟨⟨v, hv, fun name hname => ?_⟩, fun name hname f hf => ?_⟩
    · obtain ⟨f, hf, x, hx, heq⟩ := hfolded name hname
      rw [boundOf_of_email c (hnot name hname f hf)] at hx
      rw [hfold name hname f hf] at heq
      exact ⟨f, hf, x, hx, (equals_iff_notDistinct.1 heq).1⟩
    · obtain ⟨g, hg, x, -, heq⟩ := hfolded name hname
      obtain rfl := Option.some.inj (hf.symm.trans hg)
      rw [hfold name hname f hf] at heq
      exact (equals_iff_notDistinct.1 heq).2
  · rintro ⟨⟨v, hv, hnamed⟩, hnull⟩
    refine ⟨v, hv, fun name hname => ?_⟩
    obtain ⟨f, hf, x, hx, heq⟩ := hnamed name hname
    refine ⟨f, hf, x, ?_, ?_⟩
    · rw [boundOf_of_email c (hnot name hname f hf), hx]
    · rw [hfold name hname f hf]
      exact equals_iff_notDistinct.2 ⟨heq, hnull name hname f hf⟩

/-- The ids that are pruned: those of the rows inside the `where` that no imported key agrees with. -/
theorem mem_pruned {key : List String} {inside : Pred pg} {arms : Option (List (Pred pg))} {table : Table pg}
    {items : List Item} {ids : List String} (h : pruned c key inside arms table items = .ok (.ids ids)) {r : Row pg}
    (hr : r ∈ table.rows) : r.id ∈ ids ↔ Inside c inside arms r ∧ ¬Folded c key (named items) r := by
  have hread : c.whereSql arms (.and [inside, keep c key (named items)]) table = .ok ids := by
    rw [pruned] at h
    split at h
    next ids' hids =>
      cases h
      exact hids
    next =>
      split_ifs at h
      cases h
  rw [Reader.whereSql] at hread
  split_ifs at hread
  · cases hread
  · obtain ⟨scope, hscope, hread⟩ := Fallible.bind_eq_ok.1 hread
    obtain ⟨holds, hholds, hread⟩ := Fallible.bind_eq_ok.1 hread
    obtain rfl := Except.ok.inj hread
    rw [Reader.pred] at hholds
    obtain ⟨parts, hparts, hholds⟩ := Fallible.bind_eq_ok.1 hholds
    obtain rfl := Except.ok.inj hholds
    rw [preds_eq_ok] at hparts
    obtain ⟨within, rest, hwithin, hrest, rfl⟩ := List.forall₂_cons_left_iff.1 hparts
    obtain ⟨kept, none', hkept, hnil, rfl⟩ := List.forall₂_cons_left_iff.1 hrest
    obtain rfl := List.forall₂_nil_left_iff.1 hnil
    have hmem (r' : Row pg) (hr' : r' ∈ table.rows) (hid : r'.id = r.id) : r' = r :=
      List.inj_on_of_nodup_map table.nodup hr' hr hid
    have hinside : Inside c inside arms r ↔ Holds (scope r) ∧ Holds (within r) := by
      constructor
      · rintro ⟨scope', within', hscope', hwithin', h⟩
        obtain rfl := Except.ok.inj (hscope.symm.trans hscope')
        obtain rfl := Except.ok.inj (hwithin.symm.trans hwithin')
        exact h
      · exact fun h => ⟨scope, within, hscope, hwithin, h⟩
    have hselected : r.id ∈ (table.rows.filter fun r => decide (Holds (ThreeValued.and (scope r)
        (all ([within, kept].map (· r)))))).map Row.id ↔ Holds (scope r) ∧ Holds (within r) ∧ Holds (kept r) := by
      simp only [List.mem_map, List.mem_filter, decide_eq_true_eq, holds_and, holds_all, List.map_cons, List.map_nil,
        List.forall_mem_cons, List.not_mem_nil, false_imp_iff, implies_true, and_true]
      constructor
      · rintro ⟨r', ⟨hr', h⟩, hid⟩
        rwa [hmem r' hr' hid] at h
      · exact fun h => ⟨r, ⟨hr, h⟩, rfl⟩
    rw [hselected, hinside, holds_keep c hkept, and_assoc]

/-- An import prunes just the rows inside its `where` that it does not name, unless it names one with
a null key part or folding e-mails makes a difference. -/
theorem pruned_iff {key : List String} {inside : Pred pg} {arms : Option (List (Pred pg))} {table : Table pg}
    {items : List Item} {ids : List String} (h : pruned c key inside arms table items = .ok (.ids ids)) :
    (∀ r ∈ table.rows, r.id ∈ ids ↔ Inside c inside arms r ∧ ¬Named c key (named items) r) ↔
      Told c key inside arms table (named items) := by
  have hexact : (∀ r ∈ table.rows, r.id ∈ ids ↔ Inside c inside arms r ∧ ¬Named c key (named items) r) ↔
      ∀ r ∈ table.rows, Inside c inside arms r → (Named c key (named items) r ↔ Folded c key (named items) r) := by
    refine forall₂_congr fun r hr => ?_
    rw [mem_pruned c h hr, and_congr_right_iff]
    exact forall_congr' fun _ => not_iff_not.trans Iff.comm
  rw [hexact]
  constructor
  · intro hagree
    refine ⟨fun r hr hin hnamed name hname f hf => ?_, fun _ => hagree⟩
    obtain ⟨v, -, hfolded⟩ := (hagree r hr hin).1 hnamed
    obtain ⟨g, hg, x, -, heq⟩ := hfolded name hname
    obtain rfl := Option.some.inj (hf.symm.trans hg)
    intro hnone
    rw [hnone] at heq
    simp [fold, Pg.equals] at heq
  · intro htold r hr hin
    by_cases hmail : Mailed c key
    · exact htold.mails hmail r hr hin
    · rw [folded_iff c hmail]
      exact ⟨fun hnamed => ⟨hnamed, htold.nulls r hr hin hnamed⟩, fun hnamed => hnamed.1⟩

end

/-- Texts in lower case. -/
def texts : Pg where
  Datum := String
  eq _ a b := a == b
  input _
    | .string s => some s
    | _ => none
  json _ s := .string s
  text _ s := s
  lower s := s

/-- A model with an optional code as its key, all of it read. -/
def codes : Reader where
  path := "supplier"
  fields := [("code", { name := "code", pg := "text" })]
  exposed _ := true
  number := toString
  toLowerCase s := s
  invisible _ := false

def supplier (id : String) (code : Option String) : Row texts := ⟨id, fun name => if name = "code" then code else none⟩

/-- One supplier with a code, one without. -/
def suppliers : Table texts := ⟨[supplier "s1" (some "acme"), supplier "s2" none], by decide⟩

/-- An import that names both suppliers prunes the one without a code. -/
theorem null_pruned : pruned codes ["code"] (.const true) none suppliers
      [⟨false, some [("code", .string "acme")]⟩, ⟨false, some [("code", .null)]⟩] = .ok (.ids ["s2"]) ∧
    Named codes ["code"] [[("code", .string "acme")], [("code", .null)]] (supplier "s2" none) := by
  refine ⟨by decide, _, List.mem_cons_of_mem _ List.mem_cons_self, fun name hname => ?_⟩
  obtain rfl := List.mem_singleton.1 hname
  exact ⟨_, rfl, none, rfl, rfl⟩

/-- An import of the supplier with a code prunes the one without. -/
theorem pruned_iff_acme : "s2" ∈ ["s2"] ↔ Inside codes (.const true) none (supplier "s2" none) ∧
    ¬Named codes ["code"] [[("code", .string "acme")]] (supplier "s2" none) := by
  have hpruned : pruned codes ["code"] (.const true) none suppliers [⟨false, some [("code", .string "acme")]⟩] =
      .ok (.ids ["s2"]) := by decide
  refine (pruned_iff codes hpruned).2 ⟨?_, ?_⟩ (supplier "s2" none) (by simp [suppliers])
  · rintro r hr - ⟨v, hv, hnamed⟩ name hname f hf hnull
    obtain rfl := List.mem_singleton.1 hv
    obtain ⟨g, hg, x, hx, heq⟩ := hnamed name hname
    obtain rfl := Option.some.inj (hf.symm.trans hg)
    obtain rfl := List.mem_singleton.1 hname
    cases hf
    cases hx
    rw [hnull] at heq
    cases heq
  · rintro ⟨name, hname, f, hf, hmail⟩
    obtain rfl := List.mem_singleton.1 hname
    cases hf
    cases hmail

end Norbital.Bolt.Import

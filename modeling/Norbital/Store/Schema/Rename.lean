import Mathlib.Data.List.TakeWhile
import Norbital.Store.Schema.Matched
import Norbital.Store.Schema.Naming

/-!
# Renames keep data

When the plan from a schema to the same schema under other names has no
destructive step and neither drops nor creates a table or a stored column: the
planner compares texts in which every quoted token has been rewritten, so a table
or a relation column is rebuilt exactly where a token is rewritten to a name it
does not have.
-/

namespace Norbital.Store.Schema

open Fallible SqlText

theorem commas_map (f : Piece → Piece) (hf : f (raw ", ") = raw ", ") (l : List (List Piece)) :
    (commas l).map f = commas (l.map (List.map f)) := by
  induction l with
  | nil => rfl
  | cons ps l ih =>
    cases l with
    | nil => rfl
    | cons qs l =>
      show (ps ++ raw ", " :: commas (qs :: l)).map f = ps.map f ++ raw ", " :: commas ((qs :: l).map (List.map f))
      rw [List.map_append, List.map_cons, hf, ih]

/-- A text of a table under other names. -/
theorem createTable_map (f : String → String) (name : String) (identity workspace : Bool)
    (key : List (String × SqlType)) : (createTable name identity workspace key).map (Piece.map f) =
      createTable (f name) identity workspace (key.map fun k => (f k.1, k.2)) := by
  have hkey : (keyDef identity key).map (Piece.map f) =
      keyDef identity (key.map fun k => (f k.1, k.2)) := by
    have hmany : ∀ key : List (String × SqlType),
        (commas (key.map fun k => [q k.1, raw (" " ++ k.2.text ++ " not null")]) ++
          raw ", primary key (" :: (commas (key.map fun k => [q k.1]) ++ [raw ")"])).map (Piece.map f) =
        commas ((key.map fun k => (f k.1, k.2)).map fun k =>
            [q k.1, raw (" " ++ k.2.text ++ " not null")]) ++
          raw ", primary key (" :: (commas ((key.map fun k => (f k.1, k.2)).map fun k => [q k.1]) ++
            [raw ")"]) := by
      intro key
      rw [List.map_append, List.map_cons, List.map_append, commas_map _ rfl, commas_map _ rfl,
        List.map_map, List.map_map, List.map_map, List.map_map]
      rfl
    match key with
    | [] => exact hmany []
    | [k] => rfl
    | k :: l :: key => exact hmany (k :: l :: key)
  unfold createTable
  simp only [List.map_cons, List.map_append, hkey, List.map_nil]
  rfl

theorem plain_columns {rest : List Piece} (hrest : Plain rest) (key : List (String × SqlType)) :
    Plain (commas (key.map fun k => [q k.1, raw (" " ++ k.2.text ++ " not null")]) ++ rest) := by
  have htext : ∀ type : SqlType, NoQuote (" " ++ type.text ++ " not null") := fun type =>
    (NoQuote.append (by decide) type.plain).append (by decide)
  have hne : ∀ type : SqlType, " " ++ type.text ++ " not null" ≠ "" := by
    intro type h
    simp at h
  induction key with
  | nil => exact hrest
  | cons k key ih =>
    cases key with
    | nil => exact Plain.name_text (hne k.2) (htext k.2) hrest
    | cons l key => exact Plain.name_text (hne k.2) (htext k.2) ⟨by decide, ih⟩

theorem plain_names {rest : List Piece} (hrest : Plain rest) (key : List (String × SqlType)) :
    Plain (commas (key.map fun k => [q k.1]) ++ raw ")" :: rest) := by
  induction key with
  | nil => exact ⟨by decide, hrest⟩
  | cons k key ih =>
    cases key with
    | nil => exact Plain.name_text (by decide) (by decide) hrest
    | cons l key => exact Plain.name_text (by decide) (by decide) ih

theorem plain_createTable (name : String) (identity workspace : Bool)
    (key : List (String × SqlType)) : Plain (createTable name identity workspace key) := by
  have hlast : Plain [raw ((if workspace then audit else "") ++ ")")] := by
    cases workspace
    · exact ⟨by decide, trivial⟩
    · exact ⟨by decide +kernel, trivial⟩
  refine ⟨by decide, Plain.name_text (by decide) (by decide) ?_⟩
  have hmany : ∀ key : List (String × SqlType),
      Plain ((commas (key.map fun k => [q k.1, raw (" " ++ k.2.text ++ " not null")]) ++
        raw ", primary key (" :: (commas (key.map fun k => [q k.1]) ++ [raw ")"])) ++
        [raw ((if workspace then audit else "") ++ ")")]) := by
    intro key
    rw [List.append_assoc, List.cons_append, List.append_assoc]
    refine plain_columns ?_ key
    exact ⟨by decide, plain_names hlast key⟩
  match key with
  | [] => exact hmany []
  | [k] =>
    refine Plain.name_text ?_ ?_ hlast
    · intro h
      simp at h
    · refine NoQuote.append (NoQuote.append (NoQuote.append (by decide) k.2.plain) ?_) (by decide)
      cases identity <;> decide
  | k :: l :: key => exact hmany (k :: l :: key)

/-- The identifiers of some pieces. -/
def namesOf (ps : List Piece) : List String :=
  ps.filterMap fun
    | .text _ => none
    | .name x => some x

theorem namesOf_commas (l : List (List Piece)) : namesOf (commas l) = l.flatMap namesOf := by
  induction l with
  | nil => rfl
  | cons ps l ih =>
    cases l with
    | nil => simp [commas]
    | cons qs l =>
      show namesOf (ps ++ raw ", " :: commas (qs :: l)) = namesOf ps ++ (qs :: l).flatMap namesOf
      rw [← ih]
      simp [namesOf, raw]

theorem flatMap_namesOf {g : String × SqlType → List Piece} (hg : ∀ k, namesOf (g k) = [k.1])
    (key : List (String × SqlType)) : (key.map g).flatMap namesOf = key.map (·.1) := by
  induction key with
  | nil => rfl
  | cons k key ih => rw [List.map_cons, List.flatMap_cons, hg, ih, List.map_cons, List.singleton_append]

/-- A key of several columns names each twice. -/
theorem namesOf_keyDef (identity : Bool) (k l : String × SqlType) (key : List (String × SqlType)) :
    namesOf (keyDef identity (k :: l :: key)) =
      (k :: l :: key).map (·.1) ++ (k :: l :: key).map (·.1) := by
  have happ : ∀ a b, namesOf (a ++ b) = namesOf a ++ namesOf b := fun a b => List.filterMap_append
  show namesOf (commas _ ++ raw ", primary key (" :: (commas _ ++ [raw ")"])) = _
  rw [happ, show ∀ s ps, namesOf (raw s :: ps) = namesOf ps from fun _ _ => rfl, happ, namesOf_commas,
    namesOf_commas, flatMap_namesOf fun _ => rfl, flatMap_namesOf fun _ => rfl]
  exact congrArg _ (List.append_nil _)

theorem createTable_inj {name name' : String} {identity workspace : Bool}
    {key key' : List (String × SqlType)} (htypes : key.map (·.2) = key'.map (·.2)) :
    createTable name identity workspace key = createTable name' identity workspace key' ↔
      name = name' ∧ key = key' := by
  constructor
  · intro h
    have hlen : key.length = key'.length := by simpa using congrArg List.length htypes
    have hnames : ∀ (n : String) (k : List (String × SqlType)),
        namesOf (createTable n identity workspace k) = n :: namesOf (keyDef identity k) := by
      intro n k
      simp [createTable, namesOf, raw, q]
    have heq := congrArg namesOf h
    rw [hnames, hnames] at heq
    obtain ⟨hname, hkeys⟩ := List.cons.inj heq
    have hfirst : key.map (·.1) = key'.map (·.1) := by
      match key, key', hlen with
      | [], [], _ => rfl
      | [k], [k'], _ =>
        simpa [keyDef, namesOf, q, raw] using hkeys
      | k :: l :: key, k' :: l' :: key', hlen =>
        have hboth := (namesOf_keyDef identity k l key).symm.trans
          (hkeys.trans (namesOf_keyDef identity k' l' key'))
        exact (List.append_inj hboth (by simpa using hlen)).1
    refine ⟨hname, ?_⟩
    have hzip : ∀ l : List (String × SqlType), l = (l.map (·.1)).zip (l.map (·.2)) := by
      intro l
      rw [List.zip_map']
      simp
    rw [hzip key, hzip key', hfirst, htypes]
  · rintro ⟨rfl, rfl⟩
    rfl

section

variable {ν : Naming} {s s' : SchemaSpec} {t t' : Table} {f f' : Field}

theorem typeOf_renamed {k : FieldKind} {place place' : String} {type : SqlType}
    (h : typeOf k place = .ok type) : typeOf (ν.kind k) place' = .ok type := by
  cases k with
  | inline kind => simp [typeOf, fail] at h
  | _ => exact h

/-- The field of a new name. -/
theorem field?_renamed (hrt : ν.RenamesTable t t') (hf : f ∈ t.fields) :
    ∃ f', t'.field? (ν.field t.name f.name) = some f' ∧ ν.Renames t f f' := by
  obtain ⟨f', hf', hr⟩ := hrt.field f hf
  exact ⟨f', Table.field?_eq_some.mpr ⟨hf', hr.name⟩, hr⟩

/-- A key column is a field of the table, under its name and of its type. -/
theorem keyField_eq_ok {n : String} {k : String × SqlType} (h : keyField t n = .ok k) :
    ∃ g ∈ t.fields, g.name = n ∧ k.1 = n ∧ typeOf g.kind n = .ok k.2 := by
  unfold keyField at h
  cases hn : t.field? n with
  | none =>
    rw [hn] at h
    simp [fail] at h
  | some g =>
    obtain ⟨hg, hname⟩ := Table.field?_eq_some.mp hn
    rw [hn] at h
    dsimp only at h
    rw [bind_eq_ok] at h
    obtain ⟨type, htype, h⟩ := h
    obtain rfl : (n, type) = k := Except.ok.inj h
    exact ⟨g, hg, hname, rfl, htype⟩

/-- The columns of a key are the fields it names, in their order. -/
theorem key_of_names {names : List String} {key : List (String × SqlType)}
    (h : names.mapM (keyField t) = .ok key) : key.map (·.1) = names ∧ ∀ k ∈ key, ∃ g ∈ t.fields, g.name = k.1 := by
  rw [mapM_eq_ok] at h
  induction h with
  | nil => exact ⟨rfl, nofun⟩
  | cons hk _ ih =>
    obtain ⟨g, hg, hname, hkey, -⟩ := keyField_eq_ok hk
    rw [List.map_cons, hkey, ih.1]
    exact ⟨rfl, List.forall_mem_cons.mpr ⟨⟨g, hg, hname.trans hkey.symm⟩, ih.2⟩⟩

theorem keyField_renamed (hrt : ν.RenamesTable t t') {n : String} {k : String × SqlType}
    (h : keyField t n = .ok k) : keyField t' (ν.field t.name n) = .ok (ν.field t.name k.1, k.2) := by
  obtain ⟨g, hg, rfl, hkey, htype⟩ := keyField_eq_ok h
  obtain ⟨g', hg', hr⟩ := field?_renamed hrt hg
  unfold keyField
  rw [hg']
  dsimp only
  rw [hr.kind, typeOf_renamed htype, hkey]
  rfl

theorem keyOf_renamed (hrt : ν.RenamesTable t t') {key : List (String × SqlType)}
    (h : keyOf t = .ok key) : keyOf t' = .ok (key.map fun k => (ν.keyColumn t k.1, k.2)) := by
  unfold keyOf at h ⊢
  unfold Naming.keyColumn
  rw [hrt.key]
  cases hkey : t.key with
  | fields names =>
    simp only [hkey, Naming.key] at h ⊢
    clear hkey
    induction names generalizing key with
    | nil =>
      obtain rfl : [] = key := Except.ok.inj h
      rfl
    | cons n names ih =>
      rw [List.mapM_cons, bind_eq_ok] at h
      obtain ⟨k, hk, h⟩ := h
      rw [bind_eq_ok] at h
      obtain ⟨rest, hrest, h⟩ := h
      obtain rfl : k :: rest = key := Except.ok.inj h
      rw [List.map_cons, List.mapM_cons, keyField_renamed hrt hk, ih hrest]
      rfl
  | _ =>
    simp only [hkey, Naming.key] at h ⊢
    rw [← Except.ok.inj h]
    rfl

theorem fkType_renamed (h : ν.RenamesSchema s s') {u place : String}
    {key : String × SqlType} (hk : fkType s u place = .ok key) (place' : String) :
    ∃ name, fkType s' (ν.table u) place' = .ok (name, key.2) := by
  unfold fkType at hk
  cases ht : s.table? u with
  | none =>
    rw [ht] at hk
    simp [fail] at hk
  | some v =>
    obtain ⟨hv, rfl⟩ := SchemaSpec.table?_eq_some.mp ht
    rw [ht] at hk
    dsimp only at hk
    rw [bind_eq_ok] at hk
    obtain ⟨ks, hks, hk⟩ := hk
    obtain ⟨v', hv', hrv⟩ := h.table v hv
    have hks' := keyOf_renamed hrv hks
    unfold fkType
    rw [SchemaSpec.table?_eq_some.mpr ⟨hv', hrv.name⟩]
    match ks with
    | [] => simp [fail] at hk
    | [only] =>
      obtain rfl : only = key := Except.ok.inj hk
      refine ⟨ν.keyColumn v only.1, ?_⟩
      dsimp only
      rw [hks']
      rfl
    | _ :: _ :: _ => simp [fail] at hk

/-- The table objects. -/
def IsTable (s : SchemaSpec) (o : SchemaObject) : Prop :=
  ∃ t ∈ s.tables, ∃ key, keyOf t = .ok key ∧ o = tableObject t key

/-- The fields' own columns. -/
def IsField (s : SchemaSpec) (o : SchemaObject) : Prop :=
  ∃ t ∈ s.tables, ∃ key, keyOf t = .ok key ∧ ∃ f ∈ t.fields,
    fieldColumn t (key.map (·.1)) f = some o

/-- The relations' columns. -/
def IsRef (s : SchemaSpec) (o : SchemaObject) : Prop :=
  ∃ t ∈ s.tables, ∃ f ∈ t.fields, ∃ targets setNull optional, f.kind = .ref targets setNull optional ∧
    ∃ c ∈ refColumns f.name targets, ∃ key, fkType s c.2 (t.name ++ "." ++ f.name) = .ok key ∧
      o = refColumn t.name c.1 key.2

/-- The generated columns. -/
def IsGenerated (s : SchemaSpec) (o : SchemaObject) : Prop :=
  ∃ t ∈ s.tables, ∃ name reads create drop, o = (Other.column t.name name reads create drop).object

/-- Everything else. -/
def IsOther (o : SchemaObject) : Prop :=
  ∃ kind rest table deps create drop derived violations,
    o = (Other.other kind rest table deps create drop derived violations).object

/-- What a schema's objects are. -/
structure Objects (s : SchemaSpec) (os : List SchemaObject) : Prop where
  cases : ∀ o ∈ os, IsTable s o ∨ IsField s o ∨ IsRef s o ∨ IsGenerated s o ∨ IsOther o
  table : ∀ o, IsTable s o → o ∈ os
  field : ∀ o, IsField s o → o ∈ os
  ref : ∀ o, IsRef s o → o ∈ os
  key : ∀ t ∈ s.tables, ∃ key, keyOf t = .ok key
  fk : ∀ t ∈ s.tables, ∀ f ∈ t.fields, ∀ targets setNull optional, f.kind = .ref targets setNull optional →
    ∀ c ∈ refColumns f.name targets, ∃ key, fkType s c.2 (t.name ++ "." ++ f.name) = .ok key

theorem objects_of_pushed {rest : Rest} {os : List SchemaObject} (h : pushed rest s = .ok os) :
    Objects s os := by
  unfold pushed at h
  rw [check_bind_eq_ok, check_bind_eq_ok, bind_eq_ok] at h
  obtain ⟨-, -, tables, htables, h⟩ := h
  rw [bind_eq_ok] at h
  obtain ⟨relations, hrelations, h⟩ := h
  rw [bind_eq_ok] at h
  obtain ⟨others, hothers, h⟩ := h
  obtain rfl := Except.ok.inj h
  have hkey : ∀ t ∈ s.tables, ∃ key, keyOf t = .ok key := by
    intro t ht
    obtain ⟨ys, hys⟩ := ok_of_collect htables ht
    unfold tableObjects at hys
    rw [bind_eq_ok] at hys
    obtain ⟨key, hkey, -⟩ := hys
    exact ⟨key, hkey⟩
  have hfk : ∀ t ∈ s.tables, ∀ f ∈ t.fields, ∀ targets setNull optional,
      f.kind = .ref targets setNull optional → ∀ c ∈ refColumns f.name targets,
      ∃ key, fkType s c.2 (t.name ++ "." ++ f.name) = .ok key := by
    intro t ht f hf targets setNull optional hkind c hc
    obtain ⟨ys, hys⟩ := ok_of_collect hrelations ht
    obtain ⟨zs, hzs⟩ := ok_of_collect hys hf
    rw [hkind] at hzs
    obtain ⟨ws, hws⟩ := ok_of_collect hzs hc
    rw [bind_eq_ok] at hws
    obtain ⟨key, hkey, -⟩ := hws
    exact ⟨key, hkey⟩
  -- what `tableObjects` and the references' loop give, read forwards and backwards
  have hobjects : ∀ t key, keyOf t = .ok key → tableObjects t =
      .ok (tableObject t key :: t.fields.filterMap (fieldColumn t (key.map (·.1)))) := by
    intro t key hkey
    unfold tableObjects
    rw [hkey]
    rfl
  have htable : ∀ o, o ∈ tables ↔ IsTable s o ∨ IsField s o := by
    intro o
    rw [mem_collect htables]
    constructor
    · rintro ⟨t, ht, ys, hys, ho⟩
      unfold tableObjects at hys
      rw [bind_eq_ok] at hys
      obtain ⟨key, hkey, hys⟩ := hys
      obtain rfl := Except.ok.inj hys
      obtain rfl | ho := List.mem_cons.mp ho
      · exact .inl ⟨t, ht, key, hkey, rfl⟩
      · obtain ⟨f, hf, ho⟩ := List.mem_filterMap.mp ho
        exact .inr ⟨t, ht, key, hkey, f, hf, ho⟩
    · rintro (⟨t, ht, key, hkey, rfl⟩ | ⟨t, ht, key, hkey, f, hf, ho⟩)
      · exact ⟨t, ht, _, hobjects t key hkey, List.mem_cons_self⟩
      · exact ⟨t, ht, _, hobjects t key hkey,
          List.mem_cons_of_mem _ (List.mem_filterMap.mpr ⟨f, hf, ho⟩)⟩
  have href : ∀ o, o ∈ relations ↔ IsRef s o := by
    intro o
    rw [mem_collect hrelations]
    constructor
    · rintro ⟨t, ht, ys, hys, ho⟩
      obtain ⟨f, hf, zs, hzs, ho⟩ := (mem_collect hys).mp ho
      cases hkind : f.kind with
      | ref targets setNull optional =>
        rw [hkind] at hzs
        obtain ⟨c, hc, ws, hws, ho⟩ := (mem_collect hzs).mp ho
        rw [bind_eq_ok] at hws
        obtain ⟨key, hkey, hws⟩ := hws
        obtain rfl := Except.ok.inj hws
        exact ⟨t, ht, f, hf, targets, setNull, optional, hkind, c, hc, key, hkey,
          List.mem_singleton.mp ho⟩
      | _ =>
        rw [hkind] at hzs
        obtain rfl := Except.ok.inj hzs
        simp at ho
    · rintro ⟨t, ht, f, hf, targets, setNull, optional, hkind, c, hc, key, hkey, rfl⟩
      obtain ⟨ys, hys⟩ := ok_of_collect hrelations ht
      obtain ⟨zs, hzs⟩ := ok_of_collect hys hf
      refine ⟨t, ht, ys, hys, (mem_collect hys).mpr ⟨f, hf, zs, hzs, ?_⟩⟩
      rw [hkind] at hzs
      refine (mem_collect hzs).mpr ⟨c, hc, _, ?_, List.mem_singleton_self _⟩
      rw [hkey]
      rfl
  refine ⟨?_, ?_, ?_, ?_, hkey, hfk⟩
  · intro o ho
    rw [List.mem_append, List.mem_append] at ho
    obtain (ho | ho) | ho := ho
    · obtain ho | ho := (htable o).mp ho
      · exact .inl ho
      · exact .inr (.inl ho)
    · exact .inr (.inr (.inl ((href o).mp ho)))
    · obtain ⟨x, hx, rfl⟩ := List.mem_map.mp ho
      cases x with
      | column table name reads create drop =>
        obtain ⟨t, ht, rfl⟩ := rest.owned s others hothers _ _ _ _ _ hx
        exact .inr (.inr (.inr (.inl ⟨t, ht, name, reads, create, drop, rfl⟩)))
      | other kind rest table deps create drop derived violations =>
        exact .inr (.inr (.inr (.inr ⟨kind, rest, table, deps, create, drop, derived, violations, rfl⟩)))
  · exact fun o ho => List.mem_append_left _ (List.mem_append_left _ ((htable o).mpr (.inl ho)))
  · exact fun o ho => List.mem_append_left _ (List.mem_append_left _ ((htable o).mpr (.inr ho)))
  · exact fun o ho => List.mem_append_left _ (List.mem_append_right _ ((href o).mpr ho))

/-- The targets of a relation are tables. -/
theorem Objects.declared {os : List SchemaObject} (hos : Objects s os) : Declared s := by
  intro t ht f hf targets setNull optional hkind u hu
  obtain ⟨c, hc, rfl⟩ : ∃ c ∈ refColumns f.name targets, c.2 = u := by
    unfold refColumns
    split
    next target =>
      rw [List.mem_singleton] at hu
      exact ⟨_, List.mem_singleton_self _, hu.symm⟩
    next => exact ⟨_, List.mem_map_of_mem hu, rfl⟩
  obtain ⟨key, hkey⟩ := hos.fk t ht f hf targets setNull optional hkind c hc
  unfold fkType at hkey
  cases hv : s.table? c.2 with
  | none =>
    rw [hv] at hkey
    simp [fail] at hkey
  | some v => exact ⟨v, SchemaSpec.table?_eq_some.mp hv⟩

/-- A field is a key field under its new name as under its old. -/
theorem key_contains_renamed (h : ν.RenamesSchema s s') (hfol : Followed ν s) (ht : t ∈ s.tables)
    (hf : f ∈ t.fields) {key : List (String × SqlType)} (hkey : keyOf t = .ok key) :
    ((key.map fun k => (ν.keyColumn t k.1, k.2)).map (·.1)).contains (ν.field t.name f.name) =
      (key.map (·.1)).contains f.name := by
  rw [Bool.eq_iff_iff, List.contains_iff_mem, List.contains_iff_mem, List.map_map]
  unfold keyOf at hkey
  unfold Naming.keyColumn
  cases hk : t.key with
  | fields names =>
    simp only [hk] at hkey ⊢
    obtain ⟨-, hnames⟩ := key_of_names hkey
    simp only [List.mem_map, Function.comp_apply]
    constructor
    · rintro ⟨k, hk, heq⟩
      obtain ⟨g, hg, hgk⟩ := hnames k hk
      rw [← hgk] at heq
      exact ⟨k, hk, hgk.symm.trans (h.injective' t ht g hg f hf heq)⟩
    · rintro ⟨k, hk, heq⟩
      exact ⟨k, hk, congrArg _ heq⟩
  | _ =>
    simp only [hk] at hkey ⊢
    obtain rfl := Except.ok.inj hkey
    have hid := hfol.key t ht (by simp [hk]) _ (Naming.mem_names_of_field hf)
    simp only [List.map_cons, List.map_nil, Function.comp_apply, List.mem_singleton]
    exact hid.symm

/-- The column of a field, under the old names and the new. -/
theorem fieldColumn_renamed (h : ν.RenamesSchema s s') (hfol : Followed ν s) (ht : t ∈ s.tables)
    (hrt : ν.RenamesTable t t') (hf : f ∈ t.fields) (hr : ν.Renames t f f')
    {key : List (String × SqlType)} (hkey : keyOf t = .ok key) :
    (fieldColumn t (key.map (·.1)) f = none ∧
      fieldColumn t' ((key.map fun k => (ν.keyColumn t k.1, k.2)).map (·.1)) f' = none) ∨
    ∃ shape type rollup, NoQuote shape ∧
      fieldColumn t (key.map (·.1)) f = some (shapedColumn t.name f.name shape type rollup) ∧
      fieldColumn t' ((key.map fun k => (ν.keyColumn t k.1, k.2)).map (·.1)) f' =
        some (shapedColumn (ν.table t.name) (ν.field t.name f.name) shape type rollup) := by
  have hid := hrt.identity f hf
  unfold fieldColumn
  dsimp only
  rw [hr.name, hr.kind, key_contains_renamed h hfol ht hf hkey, hrt.name]
  by_cases hcontains : (key.map (·.1)).contains f.name
  · rw [if_pos hcontains, if_pos hcontains]
    exact .inl ⟨rfl, rfl⟩
  · rw [if_neg hcontains, if_neg hcontains]
    cases f.kind with
    | stored type default =>
      refine .inr ?_
      by_cases hi : t.identity = some f.name
      · exact ⟨"identity", "bigint generated by default as identity", false, by decide,
          congrArg some (if_pos hi), congrArg some (if_pos (hid.mpr hi))⟩
      · exact ⟨type.text, _, _, type.plain, congrArg some (if_neg hi),
          congrArg some (if_neg fun hi' => hi (hid.mp hi'))⟩
    | rollup type default =>
      refine .inr ?_
      by_cases hi : t.identity = some f.name
      · exact ⟨"identity", "bigint generated by default as identity", false, by decide,
          congrArg some (if_pos hi), congrArg some (if_pos (hid.mpr hi))⟩
      · exact ⟨type.text, _, _, type.plain, congrArg some (if_neg hi),
          congrArg some (if_neg fun hi' => hi (hid.mp hi'))⟩
    | inline kind => exact .inl ⟨rfl, rfl⟩
    | ref targets setNull optional => exact .inl ⟨rfl, rfl⟩

/-- The columns of a relation, under the old names and the new. -/
theorem refColumns_renamed {targets : List String} {setNull optional : Bool} (hf : f ∈ t.fields)
    (hkind : f.kind = .ref targets setNull optional) :
    ∃ ys : List String, (refColumns f.name targets).length = ys.length ∧
      refColumns (ν.field t.name f.name) (targets.map ν.table) =
        (ys.zip (refColumns f.name targets)).map (fun e => (e.1, ν.table e.2.2)) ∧
      ∀ e ∈ ys.zip (refColumns f.name targets), (e.2.1, e.1) ∈ ν.names t := by
  unfold refColumns
  match targets with
  | [] => exact ⟨[], rfl, rfl, by simp⟩
  | [u] =>
    refine ⟨[ν.field t.name f.name], rfl, rfl, ?_⟩
    intro e he
    rw [List.mem_singleton.mp he]
    exact Naming.mem_names_of_field hf
  | u :: v :: rest =>
    refine ⟨(u :: v :: rest).map fun w => ν.field t.name f.name ++ "__" ++ ν.table w, by simp, ?_, ?_⟩
    · show ((u :: v :: rest).map ν.table).map _ = _
      simp only [List.zip_map', List.map_map]
      rfl
    · intro e he
      simp only [List.zip_map', List.mem_map] at he
      obtain ⟨w, hw, rfl⟩ := he
      exact Naming.mem_names_of_arm hf (arms_eq_some.mpr ⟨setNull, optional, hkind, by simp⟩) hw

theorem exists_mem_zip {α β : Type} {l : List α} {m : List β} (hlen : l.length = m.length) {b : β}
    (hb : b ∈ m) : ∃ a, (a, b) ∈ l.zip m := by
  induction m generalizing l with
  | nil => simp at hb
  | cons c m ih =>
    cases l with
    | nil => simp at hlen
    | cons a l =>
      obtain rfl | hb := List.mem_cons.mp hb
      · exact ⟨a, List.mem_cons_self⟩
      · obtain ⟨a', ha'⟩ := ih (by simpa using hlen) hb
        exact ⟨a', List.mem_cons_of_mem _ ha'⟩

/-- A held column and the column it becomes. -/
inductive Pair (ν : Naming) (s : SchemaSpec) : SchemaObject → SchemaObject → Prop
  | shaped {t : Table} (ht : t ∈ s.tables) {x y : String} (hname : (x, y) ∈ ν.names t)
      (shape type : String) (rollup : Bool) (hplain : NoQuote shape) :
      Pair ν s (shapedColumn t.name x shape type rollup)
        (shapedColumn (ν.table t.name) y shape type rollup)
  | ref {t : Table} (ht : t ∈ s.tables) {x y : String} (hname : (x, y) ∈ ν.names t) (type : SqlType) :
      Pair ν s (refColumn t.name x type) (refColumn (ν.table t.name) y type)

section

variable {os os' : List SchemaObject}

theorem exists_pair_ref (h : ν.RenamesSchema s s') (ht : t ∈ s.tables) (ht' : t' ∈ s'.tables)
    (hrt : ν.RenamesTable t t') (hf' : f' ∈ t'.fields)
    (hr : ν.Renames t f f') {targets : List String} {setNull optional : Bool}
    (hkind : f.kind = .ref targets setNull optional) {e : String × String × String} {ys : List String}
    (he : e ∈ ys.zip (refColumns f.name targets))
    (hys : refColumns (ν.field t.name f.name) (targets.map ν.table) =
      (ys.zip (refColumns f.name targets)).map (fun e => (e.1, ν.table e.2.2)))
    (hnames : (e.2.1, e.1) ∈ ν.names t) {key : String × SqlType}
    (hkey : fkType s e.2.2 (t.name ++ "." ++ f.name) = .ok key) :
    IsRef s' (refColumn (ν.table t.name) e.1 key.2) ∧
      Pair ν s (refColumn t.name e.2.1 key.2) (refColumn (ν.table t.name) e.1 key.2) := by
  obtain ⟨name, hkey'⟩ := fkType_renamed h hkey (t'.name ++ "." ++ f'.name)
  refine ⟨⟨t', ht', f', hf', targets.map ν.table, setNull, optional, by rw [hr.kind, hkind]; rfl,
    (e.1, ν.table e.2.2), ?_, (name, key.2), hkey', by rw [hrt.name]⟩, .ref ht hnames key.2⟩
  rw [hr.name, hys]
  exact List.mem_map_of_mem he

/-- Every held column becomes a column of the next schema. -/
theorem exists_next (h : ν.RenamesSchema s s') (hfol : Followed ν s) {o : SchemaObject}
    (ho : IsField s o ∨ IsRef s o) : ∃ n, (IsField s' n ∨ IsRef s' n) ∧ Pair ν s o n := by
  obtain ⟨t, ht, key, hkey, f, hf, hcol⟩ |
    ⟨t, ht, f, hf, targets, setNull, optional, hkind, c, hc, key, hkey, rfl⟩ := ho
  · obtain ⟨t', ht', hrt⟩ := h.table t ht
    obtain ⟨f', hf', hr⟩ := hrt.field f hf
    obtain ⟨hnone, -⟩ | ⟨shape, type, rollup, hplain, hold, hnew⟩ :=
      fieldColumn_renamed h hfol ht hrt hf hr hkey
    · rw [hnone] at hcol
      exact absurd hcol (by simp)
    · obtain rfl := Option.some.inj (hold.symm.trans hcol)
      exact ⟨_, .inl ⟨t', ht', _, keyOf_renamed hrt hkey, f', hf', hnew⟩,
        .shaped ht (Naming.mem_names_of_field hf) shape type rollup hplain⟩
  · obtain ⟨t', ht', hrt⟩ := h.table t ht
    obtain ⟨f', hf', hr⟩ := hrt.field f hf
    obtain ⟨ys, hlen, hys, hnames⟩ := refColumns_renamed hf hkind
    obtain ⟨y, he⟩ := exists_mem_zip hlen.symm hc
    obtain ⟨hnext, hpair⟩ := exists_pair_ref h ht ht' hrt hf' hr hkind he hys (hnames _ he) hkey
    exact ⟨_, .inr hnext, hpair⟩

/-- Every column of the next schema was a held column. -/
theorem exists_held (h : ν.RenamesSchema s s') (hfol : Followed ν s) (hos : Objects s os)
    {n : SchemaObject} (hn : IsField s' n ∨ IsRef s' n) :
    ∃ o, (IsField s o ∨ IsRef s o) ∧ Pair ν s o n := by
  obtain ⟨t', ht', key', hkey', f', hf', hcol⟩ |
    ⟨t', ht', f', hf', targets', setNull, optional, hkind', c', hc', key', hkey', rfl⟩ := hn
  · obtain ⟨t, ht, hrt⟩ := h.table' t' ht'
    obtain ⟨f, hf, hr⟩ := hrt.field' f' hf'
    obtain ⟨key, hkey⟩ := hos.key t ht
    obtain rfl := Except.ok.inj ((keyOf_renamed hrt hkey).symm.trans hkey')
    obtain ⟨-, hnone⟩ | ⟨shape, type, rollup, hplain, hold, hnew⟩ :=
      fieldColumn_renamed h hfol ht hrt hf hr hkey
    · rw [hnone] at hcol
      exact absurd hcol (by simp)
    · obtain rfl := Option.some.inj (hnew.symm.trans hcol)
      exact ⟨_, .inl ⟨t, ht, key, hkey, f, hf, hold⟩,
        .shaped ht (Naming.mem_names_of_field hf) shape type rollup hplain⟩
  · obtain ⟨t, ht, hrt⟩ := h.table' t' ht'
    obtain ⟨f, hf, hr⟩ := hrt.field' f' hf'
    obtain ⟨targets, hkind, rfl⟩ : ∃ targets, f.kind = .ref targets setNull optional ∧
        targets.map ν.table = targets' := by
      have hk := hr.kind.symm.trans hkind'
      cases hfk : f.kind with
      | ref targets a b =>
        rw [hfk] at hk
        simp only [Naming.kind, FieldKind.ref.injEq] at hk
        obtain ⟨rfl, rfl, rfl⟩ := hk
        exact ⟨targets, rfl, rfl⟩
      | _ =>
        rw [hfk] at hk
        simp [Naming.kind] at hk
    obtain ⟨ys, hlen, hys, hnames⟩ := refColumns_renamed hf hkind
    rw [hr.name, hys] at hc'
    obtain ⟨e, he, rfl⟩ := List.mem_map.mp hc'
    have hc : e.2 ∈ refColumns f.name targets := (List.of_mem_zip he).2
    obtain ⟨key, hkey⟩ := hos.fk t ht f hf targets setNull optional hkind e.2 hc
    obtain ⟨name, hsame⟩ := fkType_renamed h hkey (t'.name ++ "." ++ f'.name)
    obtain rfl := Except.ok.inj (hsame.symm.trans hkey')
    obtain ⟨-, hpair⟩ := exists_pair_ref h ht ht' hrt hf' hr hkind he hys (hnames e he) hkey
    rw [hrt.name]
    exact ⟨_, .inr ⟨t, ht, f, hf, targets, setNull, optional, hkind, e.2, hc, key, hkey, rfl⟩, hpair⟩

theorem takeWhile_colon {a b : List Char} (ha : ':' ∉ a) :
    (a ++ ':' :: b).takeWhile (· ≠ ':') = a := by
  have hall : ∀ c ∈ a, decide (c ≠ ':') = true := by
    intro c hc
    simp only [ne_eq, decide_eq_true_eq]
    rintro rfl
    exact ha hc
  rw [List.takeWhile_append_of_pos hall]
  simp

theorem splitId_colon {kind rest : String} (hk : ':' ∉ kind.toList) :
    splitId (kind ++ ":" ++ rest) =
      (kind, String.ofList (rest.toList.takeWhile (· ≠ ':'))) := by
  have hlist : (kind ++ ":" ++ rest).toList = kind.toList ++ ':' :: rest.toList := by
    rw [String.toList_append, String.toList_append]
    simp
  unfold splitId
  dsimp only
  rw [hlist, takeWhile_colon hk, String.ofList_toList]
  congr 2
  rw [show kind.toList.length + 1 = (kind.toList ++ [':']).length by simp,
    show kind.toList ++ ':' :: rest.toList = (kind.toList ++ [':']) ++ rest.toList by simp,
    List.drop_left]

theorem columnId_eq (table column : String) :
    columnId table column = "column" ++ ":" ++ (table ++ "." ++ column) := rfl

/-- What stands before the first colon of an id. -/
def idKind (id : String) : String := (splitId id).1

theorem idKind_colon {kind rest : String} (hk : ':' ∉ kind.toList) :
    idKind (kind ++ ":" ++ rest) = kind := by
  rw [idKind, splitId_colon hk]

theorem idKind_columnId (table column : String) : idKind (columnId table column) = "column" := by
  rw [columnId_eq]
  exact idKind_colon (by decide)

theorem tableId_eq (name : String) : "table:" ++ name = "table" ++ ":" ++ name := rfl

theorem idKind_table (name : String) : idKind ("table:" ++ name) = "table" := by
  rw [tableId_eq]
  exact idKind_colon (by decide)

theorem OtherKind.colon (k : OtherKind) : ':' ∉ k.text.toList := by
  cases k <;> decide

theorem OtherKind.text_ne (k : OtherKind) : k.text ≠ "table" ∧ k.text ≠ "column" := by
  cases k <;> decide

theorem OtherKind.rank_ne (k : OtherKind) : k.rank ≠ .table ∧ k.rank ≠ .column := by
  cases k <;> decide

theorem append_left_cancel {a b c : String} (h : a ++ b = a ++ c) : b = c := by
  have hlist := congrArg String.toList h
  rw [String.toList_append, String.toList_append] at hlist
  exact String.toList_inj.mp (List.append_cancel_left hlist)

variable {r : Renames}

theorem renamedObject_table (hfound : Found ν s r) (h : ν.RenamesSchema s s') (hfol : Followed ν s)
    {o : SchemaObject} (htable : o.table = t.name) :
    (renamedObject r o).table = ν.table t.name := by
  show rename r.back o.table = _
  rw [htable, (hfound.back h hfol).2.2]

theorem renamedObject_deps (hfound : Found ν s r) (h : ν.RenamesSchema s s') (hfol : Followed ν s)
    (ht : t ∈ s.tables) {o : SchemaObject} (htable : o.table = t.name) :
    (renamedObject r o).deps = o.deps.map (ν.column t) := by
  show o.deps.map (rename (r.fieldsOf (rename r.back o.table))) = _
  rw [htable, (hfound.back h hfol).2.2]
  exact List.map_congr_left fun x _ => (hfound.fieldsOf hfol ht).2.2 x

theorem renamedObject_columnId (hfound : Found ν s r) (h : ν.RenamesSchema s s')
    (hfol : Followed ν s) (ht : t ∈ s.tables) {o : SchemaObject} {x : String}
    (htable : o.table = t.name) (hrank : o.rank = .column) (hid : o.id = columnId t.name x)
    (hkept : KeptId t.name x (ν.table t.name) (ν.column t x)) :
    (renamedObject r o).id = columnId (ν.table t.name) (ν.column t x) := by
  have hback := (hfound.back h hfol).2.2
  have hfields := (hfound.fieldsOf hfol ht).2.2
  have hsplit : splitId o.id =
      ("column", String.ofList ((t.name ++ "." ++ x).toList.takeWhile (· ≠ ':'))) := by
    rw [hid, columnId_eq]
    exact splitId_colon (by decide)
  have hcolumn : ∀ c, ((r.fieldsOf ((r.back.lookup o.table).getD o.table)).lookup c).getD c =
      ν.column t c := by
    intro c
    show rename (r.fieldsOf (rename r.back o.table)) c = _
    rw [htable, hback, hfields]
  unfold renamedObject
  rw [hsplit]
  dsimp only
  simp only [hcolumn, String.toList_ofList]
  rw [show (r.back.lookup o.table).getD o.table = ν.table t.name from by
    rw [← hback, ← htable]; rfl]
  obtain ⟨hne, hcolon⟩ | ⟨htn, hxn, hsame⟩ := hkept
  · have hall : (t.name ++ "." ++ x).toList.takeWhile (· ≠ ':') = (t.name ++ "." ++ x).toList := by
      refine List.takeWhile_eq_self_iff.mpr fun c hc => ?_
      simp only [ne_eq, decide_eq_true_eq]
      rintro rfl
      exact hcolon hc
    have hlist : (t.name ++ "." ++ x).toList = t.name.toList ++ '.' :: x.toList := by
      rw [String.toList_append, String.toList_append]
      simp
    have hdrop : (t.name ++ "." ++ x).toList.drop (o.table.length + 1) = x.toList := by
      rw [hlist, htable, ← String.length_toList,
        show t.name.toList.length + 1 = (t.name.toList ++ ['.']).length by simp,
        show t.name.toList ++ '.' :: x.toList = (t.name.toList ++ ['.']) ++ x.toList by simp,
        List.drop_left]
    rw [hall, hdrop, String.ofList_toList, htable, if_neg hne, hrank, if_neg (by decide),
      if_neg (by rw [hlist]; simp), if_pos (by decide)]
    rfl
  · by_cases hempty : t.name = ""
    · rw [htable, if_pos hempty, hid, htn, hxn]
    · have hdot := hsame.resolve_left hempty
      rw [htable, if_neg hempty, hrank, if_neg (by decide), if_pos (by simpa using hdot), hid, htn, hxn]

theorem renamedObject_other {o : SchemaObject} (ho : IsOther o) :
    ∃ kind : OtherKind, ∃ rest, (renamedObject r o).id = kind.text ++ ":" ++ rest := by
  obtain ⟨kind, rest, table, deps, create, drop, derived, violations, rfl⟩ := ho
  refine ⟨kind, ?_⟩
  have hsplit : splitId (kind.text ++ ":" ++ rest) = _ := splitId_colon kind.colon
  unfold renamedObject Other.object
  dsimp only
  rw [hsplit]
  dsimp only
  rw [if_neg kind.rank_ne.1]
  split_ifs
  · exact ⟨rest, rfl⟩
  · exact ⟨rest, rfl⟩
  · exact ⟨_, rfl⟩
  · exact ⟨_, rfl⟩

theorem sql_raw (s : String) : sql [raw s] = s := by
  unfold sql raw
  rw [render_cons]
  show String.ofList (s.toList ++ []) = s
  rw [List.append_nil, String.ofList_toList]

/-- A text of the table, renamed: each identifier by the table names, then by the field names. -/
theorem renamedText_renamed (hfound : Found ν s r) (h : ν.RenamesSchema s s') (hfol : Followed ν s)
    (ht : t ∈ s.tables) {ps : List Piece} (hp : Plain ps) :
    renamedText r.back (r.fieldsOf (ν.table t.name)) (sql ps) =
      sql (ps.map (Piece.map fun x => ν.column t (ν.table x))) := by
  obtain ⟨hnd, hfree, hback⟩ := hfound.back h hfol
  obtain ⟨hnd', hfree', hfields⟩ := hfound.fieldsOf hfol ht
  rw [renamedText_sql hp hnd hfree hnd' hfree']
  simp only [hback, hfields]

theorem renamedObject_create (hfound : Found ν s r) (h : ν.RenamesSchema s s') (hfol : Followed ν s)
    (ht : t ∈ s.tables) {o : SchemaObject} (htable : o.table = t.name) {ps : List Piece}
    (hp : Plain ps) (hcreate : o.create = [sql ps]) : (renamedObject r o).create =
      [sql (ps.map (Piece.map fun x => ν.column t (ν.table x)))] := by
  show o.create.map (renamedText r.back (r.fieldsOf (rename r.back o.table))) = _
  rw [hcreate, htable, (hfound.back h hfol).2.2, List.map_singleton,
    renamedText_renamed hfound h hfol ht hp]

theorem definition_of_create {o : SchemaObject} {text : String} (hshape : o.shape = none)
    (hcreate : o.create = [text]) : definition o = text := by
  unfold definition
  rw [hshape, hcreate]
  rfl

theorem declaredKey_renamed {key : List (String × SqlType)} (hkey : keyOf t = .ok key) :
    (declaredKey (key.map fun k => (ν.keyColumn t k.1, k.2))).map (·.2) = (declaredKey key).map (·.2) ∧
    ∀ g : String → String,
      ((declaredKey key).map (fun k => (g k.1, k.2)) =
          declaredKey (key.map fun k => (ν.keyColumn t k.1, k.2)) ↔
        ∀ e ∈ ν.keyNames t, g e.1 = e.2) := by
  have hmap : ∀ (l : List (String × SqlType)) (g k : String → String),
      l.map (fun e => (g e.1, e.2)) = l.map (fun e => (k e.1, e.2)) ↔ ∀ e ∈ l, g e.1 = k e.1 := by
    intro l g k
    rw [List.map_inj_left]
    simp
  unfold keyOf at hkey
  unfold Naming.keyColumn Naming.keyNames
  cases hk : t.key with
  | fields names =>
    simp only [hk] at hkey ⊢
    obtain ⟨rfl, -⟩ := key_of_names hkey
    cases key with
    | nil =>
      refine ⟨rfl, fun g => ?_⟩
      simp [declaredKey]
    | cons k key =>
      refine ⟨by simp [declaredKey], fun g => ?_⟩
      show (k :: key).map (fun e => (g e.1, e.2)) =
          (k :: key).map (fun e => (ν.field t.name e.1, e.2)) ↔
        ∀ e ∈ ((k :: key).map (·.1)).map (fun x => (x, ν.field t.name x)), g e.1 = e.2
      rw [hmap]
      simp only [List.forall_mem_map]
  | _ =>
    simp only [hk] at hkey ⊢
    obtain rfl := Except.ok.inj hkey
    refine ⟨rfl, fun g => ?_⟩
    simp [declaredKey]

/-- A table is as it was exactly when its tokens are rewritten to its new names. -/
theorem definition_table (hfound : Found ν s r) (h : ν.RenamesSchema s s') (hfol : Followed ν s)
    (ht : t ∈ s.tables) (hrt : ν.RenamesTable t t') {key : List (String × SqlType)}
    (hkey : keyOf t = .ok key) :
    definition (tableObject t' (key.map fun k => (ν.keyColumn t k.1, k.2))) =
        definition (renamedObject r (tableObject t key)) ↔
      ν.column t (ν.table t.name) = ν.table t.name ∧
        ∀ e ∈ ν.keyNames t, ν.column t (ν.table e.1) = e.2 := by
  have hidentity : decide (t'.key = .identity) = decide (t.key = .identity) := by
    rw [hrt.key, decide_eq_decide]
    cases t.key <;> simp [Naming.key]
  obtain ⟨htypes, hkeys⟩ := declaredKey_renamed (ν := ν) hkey
  rw [definition_of_create rfl (renamedObject_create hfound h hfol ht rfl
    (plain_createTable t.name _ t.audit _) rfl), definition_of_create rfl rfl, hidentity, hrt.audit,
    hrt.name, createTable_map, eq_comm,
    sql_inj (plain_createTable _ _ _ _) (plain_createTable _ _ _ _) ?_, createTable_inj ?_,
    hkeys fun x => ν.column t (ν.table x)]
  · rw [htypes, List.map_map]
    rfl
  · have hblank : ∀ (n : String) (k : List (String × SqlType)),
        (createTable n (decide (t.key = .identity)) t.audit k).map Piece.blank =
          createTable "" (decide (t.key = .identity)) t.audit ((k.map (·.2)).map fun ty => ("", ty)) := by
      intro n k
      rw [List.map_map]
      exact createTable_map _ n _ _ k
    have hsame : ((declaredKey key).map fun k => (ν.column t (ν.table k.1), k.2)).map (·.2) =
        (declaredKey key).map (·.2) := by
      rw [List.map_map]
      rfl
    rw [hblank, hblank, htypes, hsame]

theorem plain_addRef (table column : String) (type : SqlType) : Plain (addRef table column type) := by
  refine ⟨by decide, Plain.name_text (by decide) (by decide) (Plain.name_text ?_ ?_ trivial)⟩
  · intro h
    simp at h
  · exact NoQuote.append (by decide) type.plain

/-- A relation column is as it was exactly when its tokens are rewritten to its new names. -/
theorem definition_ref (hfound : Found ν s r) (h : ν.RenamesSchema s s') (hfol : Followed ν s)
    (ht : t ∈ s.tables) (x y : String) (type : SqlType) :
    definition (refColumn (ν.table t.name) y type) = definition (renamedObject r (refColumn t.name x type)) ↔
      ν.column t (ν.table t.name) = ν.table t.name ∧ ν.column t (ν.table x) = y := by
  rw [definition_of_create rfl (renamedObject_create hfound h hfol ht rfl (plain_addRef t.name x type) rfl),
    definition_of_create rfl rfl, eq_comm,
    sql_inj ((plain_addRef t.name x type).map fun x => ν.column t (ν.table x))
      (plain_addRef (ν.table t.name) y type) rfl]
  simp [addRef, Piece.map, q, raw]

/-- A shaped column is as it was. -/
theorem definition_shaped (hfound : Found ν s r) (h : ν.RenamesSchema s s') (hfol : Followed ν s)
    (ht : t ∈ s.tables) (x y : String) {shape : String} (type : String) (rollup : Bool)
    (hplain : NoQuote shape) :
    (renamedObject r (shapedColumn t.name x shape type rollup)).shape = some shape ∧
      definition (shapedColumn (ν.table t.name) y shape type rollup) =
        definition (renamedObject r (shapedColumn t.name x shape type rollup)) := by
  have hshape : (renamedObject r (shapedColumn t.name x shape type rollup)).shape = some shape := by
    show some (renamedText r.back (r.fieldsOf (rename r.back t.name)) shape) = some shape
    rw [(hfound.back h hfol).2.2]
    have hp : Plain [raw shape] := ⟨hplain, trivial⟩
    have htext := renamedText_renamed hfound h hfol ht hp
    rw [sql_raw] at htext
    rw [htext]
    exact congrArg some (sql_raw shape)
  refine ⟨hshape, ?_⟩
  unfold definition
  rw [hshape]
  rfl

theorem foldl_push (os out : List SchemaObject) :
    ((out.map (·.id)).Nodup →
      ((os.foldl (fun out o => if out.any (·.id == o.id) then out else out ++ [o]) out).map (·.id)).Nodup) ∧
    (∀ o ∈ os.foldl (fun out o => if out.any (·.id == o.id) then out else out ++ [o]) out,
      o ∈ out ∨ o ∈ os) ∧
    ∀ o, o ∈ out ∨ o ∈ os →
      ∃ p ∈ os.foldl (fun out o => if out.any (·.id == o.id) then out else out ++ [o]) out,
        p.id = o.id := by
  induction os generalizing out with
  | nil =>
    refine ⟨id, fun o ho => .inl ho, ?_⟩
    rintro o (ho | ho)
    · exact ⟨o, ho, rfl⟩
    · simp at ho
  | cons o os ih =>
    rw [List.foldl_cons]
    split_ifs with hany
    · obtain ⟨hnd, hmem, hid⟩ := ih out
      refine ⟨hnd, fun p hp => (hmem p hp).imp_right (List.mem_cons_of_mem o), ?_⟩
      rintro p (hp | hp)
      · exact hid p (.inl hp)
      · obtain rfl | hp := List.mem_cons.mp hp
        · obtain ⟨d, hd, hdp⟩ := List.any_eq_true.mp hany
          obtain ⟨e, he, hed⟩ := hid d (.inl hd)
          exact ⟨e, he, hed.trans (by simpa using hdp)⟩
        · exact hid p (.inr hp)
    · obtain ⟨hnd, hmem, hid⟩ := ih (out ++ [o])
      refine ⟨fun h => hnd ?_, ?_, ?_⟩
      · rw [List.map_append, List.nodup_append]
        refine ⟨h, by simp, ?_⟩
        intro a ha b hb hab
        obtain ⟨d, hd, rfl⟩ := List.mem_map.mp ha
        obtain rfl : b = o.id := by simpa using hb
        exact hany (List.any_eq_true.mpr ⟨d, hd, by simpa using hab⟩)
      · intro p hp
        obtain hp | hp := hmem p hp
        · obtain hp | hp := List.mem_append.mp hp
          · exact .inl hp
          · exact .inr (List.mem_singleton.mp hp ▸ List.mem_cons_self)
        · exact .inr (List.mem_cons_of_mem o hp)
      · rintro p (hp | hp)
        · exact hid p (.inl (List.mem_append_left _ hp))
        · obtain rfl | hp := List.mem_cons.mp hp
          · exact hid p (.inl (List.mem_append_right _ (List.mem_singleton_self p)))
          · exact hid p (.inr hp)

theorem nodup_pushAll (os : List SchemaObject) : ((pushAll os).map (·.id)).Nodup :=
  (foldl_push os []).1 List.nodup_nil

theorem mem_of_mem_pushAll {o : SchemaObject} (h : o ∈ pushAll os) : o ∈ os :=
  ((foldl_push os []).2.1 o h).resolve_left List.not_mem_nil

theorem exists_mem_pushAll {o : SchemaObject} (h : o ∈ os) : ∃ p ∈ pushAll os, p.id = o.id :=
  (foldl_push os []).2.2 o (.inr h)

theorem nodup_lastById (os : List SchemaObject) : ((lastById os).map (·.id)).Nodup := by
  have hkeys : (lastById os).map (·.id) = (mapOf (os.map fun o => (o.id, o))).map (·.1) := by
    unfold lastById
    rw [List.map_map]
    refine List.map_congr_left fun e he => ?_
    obtain ⟨o, -, rfl⟩ := List.mem_map.mp (mem_of_mem_mapOf he)
    rfl
  rw [hkeys]
  exact nodup_mapOf _

theorem mem_of_mem_lastById {o : SchemaObject} (h : o ∈ lastById os) : o ∈ os := by
  obtain ⟨e, he, rfl⟩ := List.mem_map.mp h
  obtain ⟨o, ho, rfl⟩ := List.mem_map.mp (mem_of_mem_mapOf he)
  exact ho

theorem exists_mem_lastById {o : SchemaObject} (h : o ∈ os) : ∃ p ∈ lastById os, p.id = o.id := by
  have hentry : (o.id, o) ∈ os.map fun o => (o.id, o) := List.mem_map.mpr ⟨o, h, rfl⟩
  obtain ⟨v, hv⟩ := exists_mem_mapOf hentry
  obtain ⟨p, hp, heq⟩ := List.mem_map.mp (mem_of_mem_mapOf hv)
  obtain ⟨hid, rfl⟩ : p.id = o.id ∧ p = v := Prod.ext_iff.mp heq
  exact ⟨p, List.mem_map.mpr ⟨_, hv, rfl⟩, hid⟩

/-- No two columns read alike in an id. -/
def DistinctColumns (os : List SchemaObject) : Prop :=
  ∀ o ∈ os, ∀ p ∈ os, o.rank = .column → p.rank = .column → o.id = p.id → o = p

/-- The columns of the two schemas are told apart by their ids, and each id survives the renames. -/
structure Apart (ν : Naming) (s : SchemaSpec) (os os' : List SchemaObject) : Prop where
  held : DistinctColumns os
  next : DistinctColumns os'
  kept : ∀ o ∈ os, o.rank = .column → ∀ t ∈ s.tables, o.table = t.name →
    KeptId t.name (firstDep o) (ν.table t.name) (ν.column t (firstDep o))
  generated : ∀ o ∈ os, IsGenerated s o → ∀ t ∈ s.tables, o.table = t.name → ∀ n ∈ os', n.stored →
    n.rank = .column → columnId (ν.table t.name) (ν.column t (firstDep o)) ≠ n.id

/-- The tokens of each table and relation column are rewritten to its new names. -/
structure Spelled (ν : Naming) (s : SchemaSpec) : Prop where
  table : ∀ t ∈ s.tables, ν.column t (ν.table t.name) = ν.table t.name
  key : ∀ t ∈ s.tables, ∀ e ∈ ν.keyNames t, ν.column t (ν.table e.1) = e.2
  relation : ∀ t ∈ s.tables, ∀ f ∈ t.fields, ∀ targets setNull optional,
    f.kind = .ref targets setNull optional → ∀ c ∈ refColumns f.name targets,
    ν.column t (ν.table c.1) = ν.column t c.1

theorem Pair.held_form {o n : SchemaObject} (hp : Pair ν s o n) : ∃ t ∈ s.tables, ∃ x y,
    (x, y) ∈ ν.names t ∧ o.table = t.name ∧ o.deps = [x] ∧ o.id = columnId t.name x ∧
      o.rank = .column ∧ n.table = ν.table t.name ∧ n.deps = [y] ∧ n.id = columnId (ν.table t.name) y ∧
      n.rank = .column ∧ o.stored = n.stored ∧ n.derived = !n.stored ∧ o.drop.isSome := by
  cases hp with
  | shaped ht hname shape type rollup _ =>
    exact ⟨_, ht, _, _, hname, rfl, rfl, rfl, rfl, rfl, rfl, rfl, rfl, rfl, by simp [shapedColumn], rfl⟩
  | ref ht hname type => exact ⟨_, ht, _, _, hname, rfl, rfl, rfl, rfl, rfl, rfl, rfl, rfl, rfl, rfl, rfl⟩

/-- A pair of relation columns. -/
theorem Pair.ref_form {o n : SchemaObject} (hp : Pair ν s o n) (hshape : n.shape = none) :
    ∃ t ∈ s.tables, ∃ x y type, (x, y) ∈ ν.names t ∧ o = refColumn t.name x type ∧
      n = refColumn (ν.table t.name) y type := by
  cases hp with
  | shaped ht hname shape type rollup _ => simp [shapedColumn] at hshape
  | ref ht hname type => exact ⟨_, ht, _, _, type, hname, rfl, rfl⟩

/-- A column keeps having a shape, or having none. -/
theorem Pair.shape_isSome {o n : SchemaObject} (hp : Pair ν s o n) :
    n.shape.isSome = o.shape.isSome := by
  cases hp <;> rfl

theorem shape_of_fieldColumn {keyNames : List String} {o : SchemaObject}
    (h : fieldColumn t keyNames f = some o) : o.shape.isSome := by
  unfold fieldColumn at h
  dsimp only at h
  by_cases hk : keyNames.contains f.name
  · rw [if_pos hk] at h
    cases h
  rw [if_neg hk] at h
  cases hkind : f.kind with
  | stored type default =>
    rw [hkind] at h
    rw [← Option.some.inj h]
    split_ifs <;> rfl
  | rollup type default =>
    rw [hkind] at h
    rw [← Option.some.inj h]
    split_ifs <;> rfl
  | inline kind =>
    rw [hkind] at h
    cases h
  | ref targets a b =>
    rw [hkind] at h
    cases h

/-- The setting: a schema under other names, its objects, and the renames found. -/
structure Setting (ν : Naming) (s s' : SchemaSpec) (os os' : List SchemaObject) (r : Renames) : Prop where
  renames : ν.RenamesSchema s s'
  followed : Followed ν s
  held : Objects s os
  next : Objects s' os'
  found : Found ν s r
  apart : Apart ν s os os'

namespace Setting

variable (w : Setting ν s s' os os' r)

include w

theorem pair_id {o n : SchemaObject} (ho : o ∈ os) (hp : Pair ν s o n) :
    (renamedObject r o).id = n.id := by
  obtain ⟨t, ht, x, y, hname, htable, hdeps, hid, hrank, -, -, hid', -, -, -, -⟩ := hp.held_form
  have hcol : ν.column t x = y := column_eq_of_mem w.followed ht hname
  have hkept := w.apart.kept o ho hrank t ht htable
  rw [show firstDep o = x by simp [firstDep, hdeps]] at hkept
  rw [renamedObject_columnId w.found w.renames w.followed ht htable hrank hid hkept, hcol, hid']

theorem table_id {t : Table} (ht : t ∈ s.tables) (key : List (String × SqlType)) :
    (renamedObject r (tableObject t key)).id = "table:" ++ ν.table t.name := by
  have hback := (w.found.back w.renames w.followed).2.2
  unfold renamedObject
  dsimp only
  by_cases hempty : (tableObject t key).table = ""
  · rw [if_pos hempty, w.followed.empty t ht hempty]
    rfl
  · have hrank : (tableObject t key).rank = Rank.table := rfl
    rw [if_neg hempty, if_pos hrank]
    exact congrArg _ (hback t.name)

/-- An own column of the next schema, where the schema's ids name it. -/
theorem own_or_generated {o : SchemaObject} (ho : o ∈ os) (hrank : o.rank = .column) :
    (IsField s o ∨ IsRef s o) ∨ IsGenerated s o := by
  obtain ⟨t, ht, key, hkey, rfl⟩ | ho | ho | ho | ⟨kind, rest, table, deps, create, drop, derived, violations, rfl⟩ :=
    w.held.cases o ho
  · exact Rank.noConfusion hrank
  · exact .inl (.inl ho)
  · exact .inl (.inr ho)
  · exact .inr ho
  · exact absurd hrank kind.rank_ne.2

/-- What a held object is, by the kind of its new id. -/
theorem kind_cases {o : SchemaObject} (ho : o ∈ os) :
    (IsTable s o ∧ idKind (renamedObject r o).id = "table") ∨
      (o.rank = .column ∧ idKind (renamedObject r o).id = "column") ∨
      (IsOther o ∧ idKind (renamedObject r o).id ≠ "table" ∧ idKind (renamedObject r o).id ≠ "column") := by
  have hown : ∀ p, p ∈ os → IsField s p ∨ IsRef s p → p.rank = .column ∧
      idKind (renamedObject r p).id = "column" := by
    intro p hp hown
    obtain ⟨n, -, hpair⟩ := exists_next w.renames w.followed hown
    obtain ⟨t, ht, x, y, -, -, -, -, hrank, -, -, hid', -⟩ := hpair.held_form
    rw [w.pair_id hp hpair, hid', idKind_columnId]
    exact ⟨hrank, rfl⟩
  obtain ⟨t, ht, key, hkey, rfl⟩ | hf | hr | ⟨t, ht, name, reads, create, drop, rfl⟩ | hother :=
    w.held.cases o ho
  · refine .inl ⟨⟨t, ht, key, hkey, rfl⟩, ?_⟩
    rw [w.table_id ht key, idKind_table]
  · exact .inr (.inl (hown o ho (.inl hf)))
  · exact .inr (.inl (hown o ho (.inr hr)))
  · refine .inr (.inl ⟨rfl, ?_⟩)
    have hkept := w.apart.kept _ ho rfl t ht rfl
    rw [renamedObject_columnId w.found w.renames w.followed ht rfl rfl rfl hkept, idKind_columnId]
  · obtain ⟨kind, rest, hid⟩ := renamedObject_other (r := r) hother
    refine .inr (.inr ⟨hother, ?_⟩)
    rw [hid, idKind_colon kind.colon]
    exact kind.text_ne

/-- What an object of the next schema is, by the kind of its id. -/
theorem next_cases {n : SchemaObject} (hn : n ∈ os') :
    (IsTable s' n ∧ idKind n.id = "table" ∧ n.rank = .table ∧ n.stored = true) ∨
      ((IsField s' n ∨ IsRef s' n) ∧ idKind n.id = "column" ∧ n.rank = .column) ∨
      (IsGenerated s' n ∧ idKind n.id = "column" ∧ n.rank = .column ∧ n.stored = false) ∨
      (IsOther n ∧ idKind n.id ≠ "table" ∧ idKind n.id ≠ "column" ∧ n.rank ≠ .table ∧
        n.rank ≠ .column ∧ n.stored = false) := by
  have hown : IsField s' n ∨ IsRef s' n → idKind n.id = "column" ∧ n.rank = .column := by
    intro hown
    obtain ⟨o, -, hpair⟩ := exists_held w.renames w.followed w.held hown
    obtain ⟨t, ht, x, y, -, -, -, -, -, -, -, hid', hrank, -⟩ := hpair.held_form
    rw [hid', idKind_columnId]
    exact ⟨rfl, hrank⟩
  obtain ⟨t, ht, key, hkey, rfl⟩ | hf | hr | ⟨t, ht, name, reads, create, drop, rfl⟩ | hother :=
    w.next.cases n hn
  · exact .inl ⟨⟨t, ht, key, hkey, rfl⟩, idKind_table t.name, rfl, rfl⟩
  · exact .inr (.inl ⟨.inl hf, hown (.inl hf)⟩)
  · exact .inr (.inl ⟨.inr hr, hown (.inr hr)⟩)
  · exact .inr (.inr (.inl ⟨⟨t, ht, name, reads, create, drop, rfl⟩, idKind_columnId _ _, rfl, rfl⟩))
  · obtain ⟨kind, rest, table, deps, create, drop, derived, violations, rfl⟩ := hother
    refine .inr (.inr (.inr ⟨⟨kind, rest, table, deps, create, drop, derived, violations, rfl⟩, ?_⟩))
    have hkind : idKind (Other.other kind rest table deps create drop derived violations).object.id =
        kind.text := idKind_colon kind.colon
    rw [hkind]
    exact ⟨kind.text_ne.1, kind.text_ne.2, kind.rank_ne.1, kind.rank_ne.2, rfl⟩

/-- The next table of a table's id. -/
theorem table_of_id {t : Table} (ht : t ∈ s.tables) {key : List (String × SqlType)}
    (hkey : keyOf t = .ok key) {n : SchemaObject} (hn : n ∈ os')
    (hid : n.id = "table:" ++ ν.table t.name) : ∃ t' ∈ s'.tables, ν.RenamesTable t t' ∧
      n = tableObject t' (key.map fun k => (ν.keyColumn t k.1, k.2)) := by
  obtain ⟨⟨u', hu', key', hkey', rfl⟩, -⟩ | ⟨-, hkind, -⟩ | ⟨-, hkind, -⟩ | ⟨-, hkind, -⟩ := w.next_cases hn
  · obtain ⟨t', ht', hrt⟩ := w.renames.table t ht
    have hname : u'.name = t'.name := (append_left_cancel hid).trans hrt.name.symm
    obtain rfl := List.inj_on_of_nodup_map s'.nodup hu' ht' hname
    exact ⟨u', hu', hrt, by rw [Except.ok.inj (hkey'.symm.trans (keyOf_renamed hrt hkey))]⟩
  · rw [hid, idKind_table] at hkind
    exact absurd hkind (by decide)
  · rw [hid, idKind_table] at hkind
    exact absurd hkind (by decide)
  · rw [hid, idKind_table] at hkind
    exact absurd rfl hkind

/-- The next column of a held column's id. -/
theorem column_of_id {o n : SchemaObject} (ho : o ∈ os) (hown : IsField s o ∨ IsRef s o)
    (hn : n ∈ os') (hrank : n.rank = .column) (hid : (renamedObject r o).id = n.id) : Pair ν s o n := by
  obtain ⟨n', hn', hpair⟩ := exists_next w.renames w.followed hown
  have hmem : n' ∈ os' := hn'.elim (w.next.field n') (w.next.ref n')
  obtain ⟨-, -, -, -, -, -, -, -, -, -, -, -, hrank', -⟩ := hpair.held_form
  rwa [w.apart.next n hn n' hmem hrank hrank' (hid.symm.trans (w.pair_id ho hpair))]

/-- The held objects under their new names. -/
def before (_w : Setting ν s s' os os' r) : List SchemaObject :=
  lastById ((pushAll os).map (renamedObject r))

omit w in
theorem mem_before (w : Setting ν s s' os os' r) {b : SchemaObject} (hb : b ∈ w.before) :
    ∃ o ∈ os, b = renamedObject r o := by
  obtain ⟨o, ho, rfl⟩ := List.mem_map.mp (mem_of_mem_lastById hb)
  exact ⟨o, mem_of_mem_pushAll ho, rfl⟩

/-- A held table or column is there under its new id. -/
theorem exists_before_of_mem {o : SchemaObject} (ho : o ∈ os)
    (hsame : ∀ p ∈ os, p.id = o.id → p = o) : ∃ b ∈ w.before, b.id = (renamedObject r o).id := by
  obtain ⟨p, hp, hid⟩ := exists_mem_pushAll ho
  obtain rfl := hsame p (mem_of_mem_pushAll hp) hid
  exact exists_mem_lastById (List.mem_map_of_mem hp)

theorem exists_before_table {t : Table} (ht : t ∈ s.tables) {key : List (String × SqlType)}
    (hkey : keyOf t = .ok key) :
    ∃ b ∈ w.before, b.id = "table:" ++ ν.table t.name := by
  rw [← w.table_id ht key]
  refine w.exists_before_of_mem (w.held.table _ ⟨t, ht, key, hkey, rfl⟩) ?_
  intro p hp hid
  have hidk : idKind p.id = "table" := by
    rw [hid]
    exact idKind_table t.name
  obtain ⟨u, hu, key', hkey', rfl⟩ | hown | hown | ⟨u, hu, name, reads, create, drop, rfl⟩ |
    ⟨kind, rest, table, deps, create, drop, derived, violations, rfl⟩ := w.held.cases p hp
  · obtain rfl := List.inj_on_of_nodup_map s.nodup hu ht (append_left_cancel hid)
    rw [Except.ok.inj (hkey'.symm.trans hkey)]
  · obtain ⟨n, -, hpair⟩ := exists_next w.renames w.followed (.inl hown)
    obtain ⟨v, -, x, -, -, -, -, hid', -⟩ := hpair.held_form
    rw [hid', idKind_columnId] at hidk
    exact absurd hidk (by decide)
  · obtain ⟨n, -, hpair⟩ := exists_next w.renames w.followed (.inr hown)
    obtain ⟨v, -, x, -, -, -, -, hid', -⟩ := hpair.held_form
    rw [hid', idKind_columnId] at hidk
    exact absurd hidk (by decide)
  · have hcol : idKind (columnId u.name name) = "table" := hidk
    rw [idKind_columnId] at hcol
    exact absurd hcol (by decide)
  · have hkind : kind.text = "table" := (idKind_colon kind.colon).symm.trans hidk
    exact absurd hkind kind.text_ne.1

theorem exists_before_column {o : SchemaObject} (ho : o ∈ os) (hown : IsField s o ∨ IsRef s o) :
    ∃ b ∈ w.before, b.id = (renamedObject r o).id := by
  obtain ⟨n, -, hpair⟩ := exists_next w.renames w.followed hown
  obtain ⟨t, -, x, -, -, -, -, hid, hrank, -⟩ := hpair.held_form
  refine w.exists_before_of_mem ho fun p hp hpid => ?_
  have hidk : idKind p.id = "column" := by rw [hpid, hid, idKind_columnId]
  refine w.apart.held p hp o ho ?_ hrank hpid
  obtain ⟨u, hu, key', hkey', rfl⟩ | hp' | hp' | ⟨u, hu, name, reads, create, drop, rfl⟩ |
    ⟨kind, rest, table, deps, create, drop, derived, violations, rfl⟩ := w.held.cases p hp
  · have htab : idKind ("table:" ++ u.name) = "column" := hidk
    rw [idKind_table] at htab
    exact absurd htab (by decide)
  · obtain ⟨m, -, hpair'⟩ := exists_next w.renames w.followed (.inl hp')
    obtain ⟨-, -, -, -, -, -, -, -, hrank', -⟩ := hpair'.held_form
    exact hrank'
  · obtain ⟨m, -, hpair'⟩ := exists_next w.renames w.followed (.inr hp')
    obtain ⟨-, -, -, -, -, -, -, -, hrank', -⟩ := hpair'.held_form
    exact hrank'
  · rfl
  · have hkind : kind.text = "column" := (idKind_colon kind.colon).symm.trans hidk
    exact absurd hkind kind.text_ne.2

omit w in
theorem colKey_id {o : SchemaObject} {t x : String} (hid : o.id = columnId t x) (htable : o.table = t)
    (hdeps : firstDep o = x) : o.id = "column:" ++ colKey o (firstDep o) := by
  rw [hid, hdeps, colKey, htable]
  rfl

/-- The id of a held column under its new name reads as its table and itself. -/
theorem held_id {o : SchemaObject} (ho : o ∈ os) (hrank : o.rank = .column) :
    (renamedObject r o).id =
      "column:" ++ colKey (renamedObject r o) (firstDep (renamedObject r o)) := by
  have hform : ∃ t ∈ s.tables, ∃ x ds, o.table = t.name ∧ o.deps = x :: ds ∧ o.id = columnId t.name x := by
    obtain hown | ⟨t, ht, name, reads, create, drop, rfl⟩ := w.own_or_generated ho hrank
    · obtain ⟨n, -, hpair⟩ := exists_next w.renames w.followed hown
      obtain ⟨t, ht, x, -, -, htable, hdeps, hid, -⟩ := hpair.held_form
      exact ⟨t, ht, x, [], htable, hdeps, hid⟩
    · exact ⟨t, ht, name, reads, rfl, rfl, rfl⟩
  obtain ⟨t, ht, x, ds, htable, hdeps, hid⟩ := hform
  have hkept := w.apart.kept o ho hrank t ht htable
  rw [show firstDep o = x by simp [firstDep, hdeps]] at hkept
  refine colKey_id (renamedObject_columnId w.found w.renames w.followed ht htable hrank hid hkept)
    (renamedObject_table w.found w.renames w.followed htable) ?_
  unfold firstDep
  rw [renamedObject_deps w.found w.renames w.followed ht htable, hdeps]
  rfl

theorem next_id {n : SchemaObject} (hn : n ∈ os') (hrank : n.rank = .column) :
    n.id = "column:" ++ colKey n (firstDep n) := by
  obtain ⟨-, -, htab, -⟩ | ⟨hown, -⟩ | ⟨⟨t, ht, name, reads, create, drop, rfl⟩, -⟩ | ⟨-, -, -, -, hcol, -⟩ :=
    w.next_cases hn
  · rw [htab] at hrank
    exact Rank.noConfusion hrank
  · obtain ⟨o, -, hpair⟩ := exists_held w.renames w.followed w.held hown
    obtain ⟨t, -, -, y, -, -, -, -, -, htable, hdeps, hid, -⟩ := hpair.held_form
    exact colKey_id hid htable (by simp [firstDep, hdeps])
  · rfl
  · exact absurd hrank hcol

/-- A generated column reads like no stored column of the next schema. -/
theorem not_generated {o n : SchemaObject} (ho : o ∈ os) (hgen : IsGenerated s o) (hn : n ∈ os')
    (hs : n.stored = true) (hrank : n.rank = .column) : (renamedObject r o).id ≠ n.id := by
  obtain ⟨t, ht, name, reads, create, drop, rfl⟩ := hgen
  have hkept := w.apart.kept _ ho rfl t ht rfl
  rw [renamedObject_columnId w.found w.renames w.followed ht rfl rfl rfl hkept]
  exact w.apart.generated _ ho ⟨t, ht, name, reads, create, drop, rfl⟩ t ht rfl n hn hs hrank

/-- What is held under a stored id of the next schema. -/
theorem of_stored_id {o n : SchemaObject} (ho : o ∈ os) (hn : n ∈ os') (hs : n.stored = true)
    (hid : (renamedObject r o).id = n.id) :
    (∃ t ∈ s.tables, ∃ t' ∈ s'.tables, ∃ key, ν.RenamesTable t t' ∧ keyOf t = .ok key ∧
      o = tableObject t key ∧ n = tableObject t' (key.map fun k => (ν.keyColumn t k.1, k.2))) ∨
    ((IsField s o ∨ IsRef s o) ∧ Pair ν s o n) := by
  have hkinds : (idKind n.id = "table" ∨ idKind n.id = "column") ∧
      (idKind n.id = "column" → n.rank = .column) := by
    obtain ⟨-, hk, hr, -⟩ | ⟨-, hk, hr⟩ | ⟨-, -, -, hns⟩ | ⟨-, -, -, -, -, hns⟩ := w.next_cases hn
    · refine ⟨.inl hk, fun hk' => ?_⟩
      rw [hk] at hk'
      exact absurd hk' (by decide)
    · exact ⟨.inr hk, fun _ => hr⟩
    · rw [hns] at hs
      exact absurd hs Bool.false_ne_true
    · rw [hns] at hs
      exact absurd hs Bool.false_ne_true
  obtain ⟨⟨t, ht, key, hkey, rfl⟩, -⟩ | ⟨hrank, hk⟩ | ⟨-, hk1, hk2⟩ := w.kind_cases ho
  · obtain ⟨t', ht', hrt, rfl⟩ := w.table_of_id ht hkey hn (hid.symm.trans (w.table_id ht key))
    exact .inl ⟨t, ht, t', ht', key, hrt, hkey, rfl, rfl⟩
  · rw [hid] at hk
    have hrank' := hkinds.2 hk
    obtain hown | hgen := w.own_or_generated ho hrank
    · exact .inr ⟨hown, w.column_of_id ho hown hn hrank' hid⟩
    · exact absurd hid (w.not_generated ho hgen hn hs hrank')
  · rw [hid] at hk1 hk2
    exact absurd hkinds.1 (not_or.mpr ⟨hk1, hk2⟩)

/-- The held objects under their new names match the next ones. -/
theorem matched : Matched w.before (pushAll os') where
  nodup_before := nodup_lastById _
  nodup_after := nodup_pushAll _
  exists_after b hb hs := by
    obtain ⟨o, ho, rfl⟩ := w.mem_before hb
    -- a stored object is a table or one of its columns; the others are derived
    have hnext : ∃ n ∈ os', n.id = (renamedObject r o).id := by
      have hown : IsField s o ∨ IsRef s o → ∃ n ∈ os', n.id = (renamedObject r o).id := by
        intro hown
        obtain ⟨n, hn, hpair⟩ := exists_next w.renames w.followed hown
        exact ⟨n, hn.elim (w.next.field n) (w.next.ref n), (w.pair_id ho hpair).symm⟩
      obtain ⟨t, ht, key, hkey, rfl⟩ | hf | hr | ⟨t, ht, name, reads, create, drop, rfl⟩ |
        ⟨kind, rest, table, deps, create, drop, derived, violations, rfl⟩ := w.held.cases o ho
      · obtain ⟨t', ht', hrt⟩ := w.renames.table t ht
        refine ⟨_, w.next.table _ ⟨t', ht', _, keyOf_renamed hrt hkey, rfl⟩, ?_⟩
        rw [w.table_id ht key, ← hrt.name]
        rfl
      · exact hown (.inl hf)
      · exact hown (.inr hr)
      · exact absurd hs Bool.false_ne_true
      · exact absurd hs Bool.false_ne_true
    obtain ⟨n, hn, hid⟩ := hnext
    obtain ⟨p, hp, hpid⟩ := exists_mem_pushAll hn
    exact ⟨p, hp, hpid.trans hid⟩
  exists_before n hn hs := by
    have hn' := mem_of_mem_pushAll hn
    obtain ⟨⟨t', ht', key', hkey', rfl⟩, -⟩ | ⟨hown, -⟩ | ⟨-, -, -, hns⟩ | ⟨-, -, -, -, -, hns⟩ := w.next_cases hn'
    · obtain ⟨t, ht, hrt⟩ := w.renames.table' t' ht'
      obtain ⟨key, hkey⟩ := w.held.key t ht
      obtain ⟨b, hb, hid⟩ := w.exists_before_table ht hkey
      refine ⟨b, hb, hid.trans ?_⟩
      rw [← hrt.name]
      rfl
    · obtain ⟨o, ho, hpair⟩ := exists_held w.renames w.followed w.held hown
      have hmem : o ∈ os := ho.elim (w.held.field o) (w.held.ref o)
      obtain ⟨b, hb, hid⟩ := w.exists_before_column hmem ho
      exact ⟨b, hb, hid.trans (w.pair_id hmem hpair)⟩
    · rw [hns] at hs
      exact absurd hs Bool.false_ne_true
    · rw [hns] at hs
      exact absurd hs Bool.false_ne_true
  stored_eq b hb n hn hid := by
    obtain ⟨o, ho, rfl⟩ := w.mem_before hb
    have hn' := mem_of_mem_pushAll hn
    cases hs : n.stored with
    | true =>
      obtain ⟨t, -, t', -, key, -, -, rfl, -⟩ | ⟨-, hpair⟩ := w.of_stored_id ho hn' hs hid
      · rfl
      · obtain ⟨-, -, -, -, -, -, -, -, -, -, -, -, -, hstored, -⟩ := hpair.held_form
        exact hstored.trans hs
    | false =>
      show o.stored = false
      -- a held object that is stored would have a stored one of its own id among the next, beside `n`
      by_contra hos
      have hcase : (IsTable s o ∨ IsField s o ∨ IsRef s o) := by
        obtain h1 | h1 | h1 | ⟨t, ht, name, reads, create, drop, rfl⟩ |
          ⟨kind, rest, table, deps, create, drop, derived, violations, rfl⟩ := w.held.cases o ho
        · exact .inl h1
        · exact .inr (.inl h1)
        · exact .inr (.inr h1)
        · exact absurd rfl hos
        · exact absurd rfl hos
      obtain ⟨t, ht, key, hkey, rfl⟩ | hown := hcase
      · obtain ⟨t', ht', hrt, rfl⟩ := w.table_of_id ht hkey hn' (hid.symm.trans (w.table_id ht key))
        exact Bool.noConfusion hs
      · obtain ⟨m, hm, hpair⟩ := exists_next w.renames w.followed hown
        obtain ⟨v, -, -, y, -, -, -, -, -, -, -, hid', hrank', hstored, -⟩ := hpair.held_form
        have hmem : m ∈ os' := hm.elim (w.next.field m) (w.next.ref m)
        have hidk : idKind n.id = "column" := by
          rw [← hid, w.pair_id ho hpair, hid', idKind_columnId]
        have hrank : n.rank = .column := by
          obtain ⟨-, hk, -⟩ | ⟨-, -, hr⟩ | ⟨-, -, hr, -⟩ | ⟨-, -, hk, -⟩ := w.next_cases hn'
          · rw [hk] at hidk
            exact absurd hidk (by decide)
          · exact hr
          · exact hr
          · exact absurd hidk hk
        have hsame := w.apart.next n hn' m hmem hrank hrank' (hid.symm.trans (w.pair_id ho hpair))
        rw [← hsame, hs] at hstored
        exact hos hstored
  stored_table n hn hrank := by
    obtain ⟨-, -, -, hs⟩ | ⟨-, -, hr⟩ | ⟨-, -, hr, -⟩ | ⟨-, -, -, hr, -⟩ :=
      w.next_cases (mem_of_mem_pushAll hn)
    · exact hs
    · rw [hr] at hrank
      exact Rank.noConfusion hrank
    · rw [hr] at hrank
      exact Rank.noConfusion hrank
    · exact absurd hrank hr
  form n hn hs := by
    obtain ⟨⟨t, ht, key, hkey, rfl⟩, -⟩ | ⟨hown, -⟩ | ⟨-, -, -, hns⟩ | ⟨-, -, -, -, -, hns⟩ :=
      w.next_cases (mem_of_mem_pushAll hn)
    · exact ⟨rfl, .inl ⟨rfl, rfl⟩⟩
    · obtain ⟨o, -, hpair⟩ := exists_held w.renames w.followed w.held hown
      obtain ⟨-, -, -, y, -, -, -, -, -, -, hdeps, -, hrank, -, hderived, -⟩ := hpair.held_form
      exact ⟨by rw [hderived, hs]; rfl, .inr ⟨hrank, y, hdeps⟩⟩
    · rw [hns] at hs
      exact absurd hs Bool.false_ne_true
    · rw [hns] at hs
      exact absurd hs Bool.false_ne_true
  apart o ho n hn horank hnrank _ hkey := by
    have hnid := w.next_id (mem_of_mem_pushAll hn) hnrank
    obtain ho | ho := List.mem_append.mp ho
    · obtain ⟨p, hp, rfl⟩ := w.mem_before ho
      rw [w.held_id hp horank, hkey, hnid]
    · rw [w.next_id (mem_of_mem_pushAll ho) horank, hkey, hnid]
  not_widens b hb n hn hid := by
    obtain ⟨o, ho, rfl⟩ := w.mem_before hb
    -- a rename changes no type, so a column is as wide as it was
    by_contra hw
    simp only [widens, Bool.not_eq_false, Bool.and_eq_true, beq_iff_eq, Bool.or_eq_true] at hw
    obtain ⟨⟨⟨⟨⟨⟨-, -⟩, hns⟩, hshape⟩, hwide⟩, -⟩, -⟩ := hw.1
    obtain ⟨t, ht, t', ht', key, -, -, rfl, rfl⟩ | ⟨-, hpair⟩ :=
      w.of_stored_id ho (mem_of_mem_pushAll hn) hns hid
    · simp [tableObject] at hwide
    · cases hpair with
      | shaped ht hname shape type rollup hplain =>
        rw [(definition_shaped w.found w.renames w.followed ht _ "" type rollup hplain).1] at hshape
        simp only [Option.some.injEq] at hshape
        subst hshape
        simp [shapedColumn] at hwide
      | ref ht hname type => simp [refColumn] at hwide
  drop b hb hs := by
    obtain ⟨o, ho, rfl⟩ := w.mem_before hb
    obtain ⟨t, ht, key, hkey, rfl⟩ | hf | hr | ⟨t, ht, name, reads, create, drop, rfl⟩ |
      ⟨kind, rest, table, deps, create, drop, derived, violations, rfl⟩ := w.held.cases o ho
    · rfl
    · obtain ⟨n, -, hpair⟩ := exists_next w.renames w.followed (.inl hf)
      obtain ⟨-, -, -, -, -, -, -, -, -, -, -, -, -, -, -, hdrop⟩ := hpair.held_form
      exact hdrop
    · obtain ⟨n, -, hpair⟩ := exists_next w.renames w.followed (.inr hr)
      obtain ⟨-, -, -, -, -, -, -, -, -, -, -, -, -, -, -, hdrop⟩ := hpair.held_form
      exact hdrop
    · exact absurd hs Bool.false_ne_true
    · exact absurd hs Bool.false_ne_true

/-- The stored definitions are as they were exactly when every token is rewritten to its new name. -/
theorem defined_iff : Matched.Defined w.before (pushAll os') ↔ Spelled ν s := by
  have hm := w.matched
  constructor
  · intro hdef
    have htable : ∀ t ∈ s.tables, ν.column t (ν.table t.name) = ν.table t.name ∧
        ∀ e ∈ ν.keyNames t, ν.column t (ν.table e.1) = e.2 := by
      intro t ht
      obtain ⟨key, hkey⟩ := w.held.key t ht
      obtain ⟨b, hb, hid⟩ := w.exists_before_table ht hkey
      obtain ⟨o, ho, rfl⟩ := w.mem_before hb
      obtain ⟨t', ht', hrt⟩ := w.renames.table t ht
      obtain ⟨n, hn, hnid⟩ := exists_mem_pushAll
        (w.next.table _ ⟨t', ht', _, keyOf_renamed hrt hkey, rfl⟩)
      have hnid' : n.id = "table:" ++ ν.table t.name := by
        rw [hnid, ← hrt.name]
        rfl
      obtain ⟨u', hu', hru, rfl⟩ := w.table_of_id ht hkey (mem_of_mem_pushAll hn) hnid'
      have hids := hid.trans hnid'.symm
      obtain ⟨u, hu, u'', hu'', key', hru', hkey', rfl, heq⟩ | ⟨-, hpair⟩ :=
        w.of_stored_id ho (mem_of_mem_pushAll hn) rfl hids
      · obtain rfl : u = t := by
          rw [w.table_id hu key'] at hid
          exact List.inj_on_of_nodup_map s.nodup hu ht
            (w.renames.injective u hu t ht (append_left_cancel hid))
        obtain rfl := Except.ok.inj (hkey'.symm.trans hkey)
        exact (definition_table w.found w.renames w.followed hu hru hkey').mp
          (hdef _ hb _ hn hids rfl)
      · obtain ⟨-, -, -, -, -, -, -, -, -, -, -, -, hrank, -⟩ := hpair.held_form
        exact Rank.noConfusion hrank
    refine ⟨fun t ht => (htable t ht).1, fun t ht => (htable t ht).2, ?_⟩
    intro t ht f hf targets setNull optional hkind c hc
    obtain ⟨key, hkey⟩ := w.held.fk t ht f hf targets setNull optional hkind c hc
    have href : IsRef s (refColumn t.name c.1 key.2) :=
      ⟨t, ht, f, hf, targets, setNull, optional, hkind, c, hc, key, hkey, rfl⟩
    have hmem := w.held.ref _ href
    obtain ⟨m, hmem', hpair⟩ := exists_next w.renames w.followed (.inr href)
    obtain ⟨b, hb, hid⟩ := w.exists_before_column hmem (.inr href)
    obtain ⟨o, ho, rfl⟩ := w.mem_before hb
    obtain ⟨n, hn, hnid⟩ := exists_mem_pushAll (hmem'.elim (w.next.field m) (w.next.ref m))
    have hidm := w.pair_id hmem hpair
    have hpairn : Pair ν s (refColumn t.name c.1 key.2) n := by
      refine w.column_of_id hmem (.inr href) (mem_of_mem_pushAll hn) ?_ (hidm.trans hnid.symm)
      obtain ⟨v, -, -, y, -, -, -, -, -, -, -, hmid, -⟩ := hpair.held_form
      obtain ⟨-, hk, -⟩ | ⟨-, -, hr⟩ | ⟨-, -, hr, -⟩ | ⟨-, -, hk, -⟩ := w.next_cases (mem_of_mem_pushAll hn)
      · rw [hnid, hmid, idKind_columnId] at hk
        exact absurd hk (by decide)
      · exact hr
      · exact hr
      · rw [hnid, hmid, idKind_columnId] at hk
        exact absurd rfl hk
    have hids : (renamedObject r o).id = n.id := hid.trans (hidm.trans hnid.symm)
    have hstored : n.stored = true := by
      obtain ⟨-, -, -, -, -, -, -, -, -, -, -, -, -, hst, -⟩ := hpairn.held_form
      exact hst.symm
    obtain ⟨u, hu, x, y, type, hname, hold, hnew⟩ := hpairn.ref_form
      (Option.not_isSome_iff_eq_none.mp (by rw [hpairn.shape_isSome]; simp [refColumn]))
    obtain ⟨v, hv, v', hv', key', -, -, rfl, rfl⟩ | ⟨-, hpair'⟩ :=
      w.of_stored_id ho (mem_of_mem_pushAll hn) hstored hids
    · exact absurd (congrArg SchemaObject.rank hnew) (by simp [tableObject, refColumn])
    · obtain ⟨v, hv, x', y', type', hname', rfl, hnew'⟩ := hpair'.ref_form (by rw [hnew]; rfl)
      obtain ⟨-, hspelled⟩ := (definition_ref w.found w.renames w.followed hv x' y' type').mp
        (hnew' ▸ hdef _ hb _ hn hids hstored)
      -- both pairs end in `n`, so they start in one table and one column
      have hut : u = t := List.inj_on_of_nodup_map s.nodup hu ht
        (congrArg SchemaObject.table hold).symm
      have hx : c.1 = x := (List.cons.inj (congrArg SchemaObject.deps hold)).1
      have hvu : v = u := by
        refine List.inj_on_of_nodup_map s.nodup hv hu (w.renames.injective v hv u hu ?_)
        exact congrArg SchemaObject.table (hnew'.symm.trans hnew)
      have hy : y' = y := (List.cons.inj (congrArg SchemaObject.deps (hnew'.symm.trans hnew))).1
      subst hvu hut hy
      have hxx : x' = x := (w.followed.single v hv _ hname' _ hname).mpr rfl
      rw [hx, ← hxx, hspelled, column_eq_of_mem w.followed hv hname']
  · intro hsp b hb n hn hid hs
    obtain ⟨o, ho, rfl⟩ := w.mem_before hb
    obtain ⟨t, ht, t', ht', key, hrt, hkey, rfl, rfl⟩ | ⟨hown, hpair⟩ :=
      w.of_stored_id ho (mem_of_mem_pushAll hn) hs hid
    · exact (definition_table w.found w.renames w.followed ht hrt hkey).mpr
        ⟨hsp.table t ht, hsp.key t ht⟩
    · by_cases hshape : n.shape = none
      · obtain ⟨t, ht, x, y, type, hname, rfl, rfl⟩ := hpair.ref_form hshape
        refine (definition_ref w.found w.renames w.followed ht x y type).mpr ⟨hsp.table t ht, ?_⟩
        obtain ⟨u, hu, key, hkey, f, hf, hcol⟩ |
          ⟨u, hu, f, hf, targets, setNull, optional, hkind, c, hc, key, hkey, heq⟩ := hown
        · exact absurd (shape_of_fieldColumn hcol) Bool.false_ne_true
        · obtain rfl : u = t := List.inj_on_of_nodup_map s.nodup hu ht
            (congrArg SchemaObject.table heq).symm
          obtain rfl : x = c.1 := (List.cons.inj (congrArg SchemaObject.deps heq)).1
          rw [hsp.relation u hu f hf targets setNull optional hkind c hc,
            column_eq_of_mem w.followed hu hname]
      · cases hpair with
        | shaped ht hname shape type rollup hplain =>
          exact (definition_shaped w.found w.renames w.followed ht _ _ type rollup hplain).2
        | ref ht hname type => exact absurd rfl hshape

end Setting

/-- A plan for a schema under other names keeps the data exactly where the renames, read as tokens,
spell the tables, keys and relation columns of the next schema. -/
theorem plan_keepsData_iff {rest : Rest} {os os' : List SchemaObject} (h : ν.RenamesSchema s s')
    (hfol : Followed ν s) (hs : pushed rest s = .ok os) (hs' : pushed rest s' = .ok os')
    (hapart : Apart ν s os os') :
    ∃ p, plan rest s s' = .ok p ∧ (KeepsData p.steps ↔ Spelled ν s) := by
  have hheld := objects_of_pushed hs
  obtain ⟨r, hr, hfound⟩ := renamesOf_eq h hfol hheld.declared
  have w : Setting ν s s' os os' r := ⟨h, hfol, hheld, objects_of_pushed hs', hfound, hapart⟩
  refine ⟨⟨s', stepsOf w.before (pushAll os') r⟩, ?_, ?_⟩
  · unfold plan schemaObjects
    rw [hr, hs, hs']
    rfl
  · exact (w.matched.keepsData_iff r).trans w.defined_iff

end

end

/-- A schema that renders to its tables and own columns only. -/
def bare : Rest where
  objects _ := .ok []
  owned s os h table name reads create drop hmem := by
    cases h
    cases hmem

/-- One table of one text field, each with the name it had. -/
def oneField (table field : String) (was was' : Option String) : SchemaSpec :=
  ⟨[⟨table, [⟨field, .stored .textual none, was'⟩], .uuid, false, none, was, by simp⟩], by simp⟩

/-- The naming that gives one table and one field of it another name. -/
def onlyNaming (table table' field field' : String) : Naming where
  table x := if x = table then table' else x
  field t x := if t = table ∧ x = field then field' else x

theorem onlyNaming_renames (table table' field field' : String) :
    (onlyNaming table table' field field').RenamesSchema (oneField table field none none)
      (oneField table' field' (some table) (some field)) := by
  have hfield : (onlyNaming table table' field field').field table field = field' := by
    simp [onlyNaming]
  have htable : (onlyNaming table table' field field').table table = table' := by
    simp [onlyNaming]
  have hrenames : ∀ t ∈ (oneField table field none none).tables,
      ∀ t' ∈ (oneField table' field' (some table) (some field)).tables,
      (onlyNaming table table' field field').RenamesTable t t' := by
    intro t ht t' ht'
    obtain rfl := List.mem_singleton.mp ht
    obtain rfl := List.mem_singleton.mp ht'
    refine ⟨htable.symm, fun _ => rfl, rfl, rfl, by simp, ?_, ?_⟩
    · intro f hf
      obtain rfl := List.mem_singleton.mp hf
      exact ⟨_, List.mem_singleton_self _, hfield.symm, rfl, fun _ => rfl⟩
    · intro f' hf'
      obtain rfl := List.mem_singleton.mp hf'
      exact ⟨_, List.mem_singleton_self _, hfield.symm, rfl, fun _ => rfl⟩
  refine ⟨fun t ht => ⟨_, List.mem_singleton_self _, hrenames t ht _ (List.mem_singleton_self _)⟩,
    fun t' ht' => ⟨_, List.mem_singleton_self _, hrenames _ (List.mem_singleton_self _) t' ht'⟩, ?_, ?_, ?_⟩
  · intro x hx
    exact if_neg fun hxt => hx (by simp [oneField, hxt])
  · intro t ht u hu _
    rw [List.mem_singleton.mp ht, List.mem_singleton.mp hu]
  · intro t ht f hf g hg _
    obtain rfl := List.mem_singleton.mp ht
    rw [List.mem_singleton.mp hf, List.mem_singleton.mp hg]

/-- The objects of the table and of its field. -/
def oneFieldObjects (table field : String) : List SchemaObject :=
  [⟨"table:" ++ table, .table, table, [], [sql (createTable table false false [("id", .uuid)])], none,
      some (sql [raw "drop table if exists ", q table, raw " cascade"]), true, false, none⟩,
    shapedColumn table field "text" "text" false]

theorem oneField_column {table field : String} {o : SchemaObject} (ho : o ∈ oneFieldObjects table field)
    (hrank : o.rank = .column) : o = shapedColumn table field "text" "text" false := by
  obtain rfl | ho := List.mem_cons.mp ho
  · cases hrank
  · exact List.mem_singleton.mp ho

theorem oneField_apart {table table' field field' : String}
    (hkept : table ≠ "" ∧ ':' ∉ (table ++ "." ++ field).toList) :
    Apart (onlyNaming table table' field field') (oneField table field none none)
      (oneFieldObjects table field) (oneFieldObjects table' field') := by
  refine ⟨?_, ?_, ?_, ?_⟩
  · intro o ho p hp hor hpr _
    rw [oneField_column ho hor, oneField_column hp hpr]
  · intro o ho p hp hor hpr _
    rw [oneField_column ho hor, oneField_column hp hpr]
  · intro o ho hrank t ht _
    obtain rfl := List.mem_singleton.mp ht
    rw [oneField_column ho hrank]
    exact .inl hkept
  · rintro o ho ⟨t, -, name, reads, create, drop, heq⟩
    have hshape := congrArg SchemaObject.shape (oneField_column ho (heq ▸ rfl))
    rw [heq] at hshape
    cases hshape

/-- A table and its field renamed at once. -/
theorem note_keepsData : ∃ p, plan bare (oneField "note" "title" none none)
    (oneField "memo" "heading" (some "note") (some "title")) = .ok p ∧ KeepsData p.steps := by
  have hfollowed : Followed (onlyNaming "note" "memo" "title" "heading")
      (oneField "note" "title" none none) := by
    refine ⟨by decide, by decide, by decide, by decide, by decide, ?_, by decide⟩
    intro t ht _
    obtain rfl := List.mem_singleton.mp ht
    decide
  have hheld : pushed bare (oneField "note" "title" none none) =
      .ok (oneFieldObjects "note" "title") := rfl
  have hnext : pushed bare (oneField "memo" "heading" (some "note") (some "title")) =
      .ok (oneFieldObjects "memo" "heading") := rfl
  obtain ⟨p, hp, hkeeps⟩ := plan_keepsData_iff (onlyNaming_renames "note" "memo" "title" "heading")
    hfollowed hheld hnext (oneField_apart (by decide))
  refine ⟨p, hp, hkeeps.mpr ⟨by decide, by decide, ?_⟩⟩
  intro t ht f hf targets setNull optional hkind
  obtain rfl := List.mem_singleton.mp ht
  obtain rfl := List.mem_singleton.mp hf
  cases hkind

/-- A field with the name of its table is renamed: the table's definition is read as another table's,
and the table is dropped and created again. -/
theorem sameName_replaced : (onlyNaming "t" "t" "t" "u").RenamesSchema (oneField "t" "t" none none)
      (oneField "t" "u" (some "t") (some "t")) ∧
    ∃ p, plan bare (oneField "t" "t" none none) (oneField "t" "u" (some "t") (some "t")) = .ok p ∧
      ∃ step ∈ p.steps, step.id = "replace:table:t" ∧ step.cls = .destructive ∧
        (∃ o, step.drop = some o ∧ o.stored = true) := by
  refine ⟨onlyNaming_renames "t" "t" "t" "u", _, rfl, ?_⟩
  decide +kernel

end Norbital.Store.Schema

import Mathlib.Data.Set.Function
import Mathlib.Tactic.IntervalCases
import Norbital.Store.Schema.Constraints

/-!
# Names of a schema's objects

The names `schemaObjects` (`store/src/schema/ddl.ts`) gives constraints and indexes: the
first units of the table's name, the kind and a hash of the definition.  PostgreSQL keeps
63 bytes of a name.
-/

namespace Norbital.Store.Names

open Constraints JsString

def toHex (bytes : List UInt8) : Name := bytes.flatMap fun b => [hexUnit (b.toNat / 16), hexUnit (b.toNat % 16)]

/-- Where PostgreSQL looks up an index or the index of a constraint. -/
def indexed : ObjectKind → Bool
  | .ck | .fk => false
  | _ => true

def constrains : ObjectKind → Bool
  | .uq | .key | .ck | .ex | .fk => true
  | _ => false

/-- What an object's id starts with. -/
def idPrefix : ObjectKind → Name
  | .fk => ascii "fk:"
  | .uq | .key | .ck | .ex => ascii "constraint:"
  | _ => ascii "index:"

/-- A name's first units. -/
def stem (n : ℕ) (name : Name) : Name := name.take n

section Names

variable {W X : Type} (sha256 : Name → Vector UInt8 32)

def hash8 (definition : Name) : Name := (toHex (sha256 definition).toList).take 8

/-- `<table≤40>__<kind>__<hash8>`. -/
def cname (table : Name) (kind : ObjectKind) (definition : Name) : Name :=
  stem 40 table ++ (ascii "__" ++ (kind.text ++ (ascii "__" ++ hash8 sha256 definition)))

def name (o : Object W) : Name := cname sha256 o.table o.kind o.definition.sql

def id (o : Object W) : Name := idPrefix o.kind ++ (o.table ++ (ascii "." ++ name sha256 o))

/-- The first object of each id. -/
def firsts (os : List (Object W)) : List (Object W) :=
  os.foldl (fun out o => if out.any (id sha256 · == id sha256 o) then out else out ++ [o]) []

/-- The named objects of a schema. -/
def objects (r : Rendering W X) (s : SchemaSpec W X) : Except Name (List (Object W)) := do
  return firsts sha256 (← pushed r s)

/-- The hidden columns of a table's search. -/
def hidden (t : Table W X) (label : Option Name) : List Name :=
  (if label.isSome then [ascii "bolt_record_label"] else []) ++
    match t.search.or (if label.isSome then some ⟨false, []⟩ else none) with
    | none => []
    | some search =>
      ascii "bolt_search" :: ((if search.semantic then [ascii "bolt_embedding"] else []) ++
        (search.indexes.filter (·.field.isNone)).map fun i => ascii "$idx_" ++ i.name)

/-- The function a record label is computed by. -/
def labelFunction (t : Table W X) (text : Name) : Name :=
  ascii "bolt_record_label_" ++ (stem 22 t.name ++ (ascii "_" ++ hash8 sha256 text))

/-- The columns of a table's fields and key. -/
def ownColumns (t : Table W X) : List Name :=
  (t.fields.filter fun f => !isRef f).map FieldSpec.name ++ t.computed.map Prod.fst ++
    (match t.key with
      | .fields _ => []
      | _ => [ascii "id"]) ++
    if t.audit then auditColumns.map Prod.fst else []

/-- The names a schema declares or derives otherwise: of tables, columns and record label functions. -/
def plainNames (r : Rendering W X) (s : SchemaSpec W X) : Except Name (List Name) := do
  let rels ← relations s
  let tables ← s.tables.mapM fun t => do
    let label ← r.recordLabel s t
    return t.name :: (ownColumns t ++ hidden t label ++ label.toList.map (labelFunction sha256 t))
  return tables.flatten ++ rels.flatMap Rel.cols

/-- The named objects of a schema, and its other names. -/
structure Named (W : Type) where
  objects : List (Object W)
  plain : List Name

def schemaNames (r : Rendering W X) (s : SchemaSpec W X) : Except Name (Named W) := do
  let os ← objects sha256 r s
  let plain ← plainNames sha256 r s
  return ⟨os, plain⟩

/-- In one namespace: the schema's indexes, or the constraints of one table. -/
def SameSpace (o o' : Object W) : Prop :=
  indexed o.kind = true ∧ indexed o'.kind = true ∨
    constrains o.kind = true ∧ constrains o'.kind = true ∧ o.table = o'.table

/-- Names that PostgreSQL keeps whole and apart. -/
structure Apart (n : Named W) : Prop where
  differ : ∀ o ∈ n.objects, ∀ o' ∈ n.objects, o ≠ o' → SameSpace o o' → (name sha256 o).clip 63 ≠ (name sha256 o').clip 63
  short : ∀ m ∈ n.objects.map (name sha256) ++ n.plain, m.utf8.length ≤ 63

/-- What keeps the names of a schema's objects whole and apart. -/
structure Distinguished (r : Rendering W X) (s : SchemaSpec W X) (os : List (Object W)) : Prop where
  /-- The first 40 units of a table's name leave room for the kind and the hash. -/
  prefixes : ∀ o ∈ os, (stem 40 o.table).utf8.length + o.kind.text.length ≤ 51
  /-- Two tables alike in them have no index of one kind and definition. -/
  tables : ∀ o ∈ os, ∀ o' ∈ os, o.table ≠ o'.table → indexed o.kind = true → o.kind = o'.kind →
    o.definition.sql = o'.definition.sql → (stem 40 o.table).utf8 ≠ (stem 40 o'.table).utf8
  computed : ∀ t ∈ s.tables, ∀ c ∈ t.computed, c.1.utf8.length ≤ 63
  refs : ∀ ref ∈ refs s, ref.2.2.targets.length = 1 → ref.2.1.name.utf8.length ≤ 63
  labels : ∀ t ∈ s.tables, ∀ text, r.recordLabel s t = .ok (some text) → (stem 22 t.name).utf8.length ≤ 36

end Names

/-- The bytes of ASCII units. -/
def bytes (s : Name) : List UInt8 := s.map fun u => u.toNat.toUInt8

theorem kind_ascii (k : ObjectKind) : k.text.Ascii := by
  have h : ∀ k : ObjectKind, k.text.all (· < 0x80) = true := by intro k; cases k <;> decide
  exact fun u hu => by simpa using List.all_eq_true.1 (h k) u hu

/-- A kind holds no underscore, so the last two before the hash are its own. -/
theorem underscore_notMem (k : ObjectKind) : 95 ∉ bytes k.text := by
  cases k <;> decide

theorem bytes_kind_injective : Function.Injective fun k : ObjectKind => bytes k.text := by
  let kinds : List ObjectKind := [.uq, .key, .ck, .ex, .fk, .ix, .ux, .px, .gin, .gist, .hnsw]
  have hfind : ∀ k : ObjectKind, kinds.find? (fun j => bytes j.text == bytes k.text) = some k := by
    intro k
    cases k <;> decide
  intro k k' h
  have hk := hfind k
  have hk' := hfind k'
  simp only at h
  rw [h, hk'] at hk
  exact (Option.some.inj hk).symm

theorem hexUnit_lt {n : ℕ} (h : n < 16) : hexUnit n < 0x80 := by
  interval_cases n <;> decide

section Names

variable {W X : Type} {sha256 : Name → Vector UInt8 32}

theorem toHex_ascii (bs : List UInt8) : (toHex bs).Ascii := by
  intro u hu
  obtain ⟨b, -, hu⟩ := List.mem_flatMap.1 hu
  have hb := b.toNat_lt
  rcases List.mem_cons.1 hu with rfl | hu
  · exact hexUnit_lt (by omega)
  · rw [List.mem_singleton.1 hu]
    exact hexUnit_lt (by omega)

theorem hash8_ascii (d : Name) : (hash8 sha256 d).Ascii := fun _ hu => toHex_ascii _ _ (List.mem_of_mem_take hu)

theorem hash8_length (d : Name) : (hash8 sha256 d).length = 8 := by
  have htoHex (bs : List UInt8) : (toHex bs).length = bs.length * 2 := by
    induction bs with
    | nil => rfl
    | cons b bs ih =>
      rw [toHex, List.flatMap_cons, List.length_append]
      rw [toHex] at ih
      simp only [ih, List.length_cons, List.length_nil]
      omega
  rw [hash8, List.length_take, htoHex, Vector.length_toList]
  rfl

theorem utf8_cname (table : Name) (k : ObjectKind) (d : Name) : (cname sha256 table k d).utf8 =
    (stem 40 table).utf8 ++ [95, 95] ++ bytes k.text ++ [95, 95] ++ bytes (hash8 sha256 d) := by
  have hlit : ascii "__" = [95, 95] := by decide
  have hunderscores : Ascii [95, 95] := forall_of_all (by decide)
  have htail : Ascii ([95, 95] ++ (k.text ++ ([95, 95] ++ hash8 sha256 d))) :=
    hunderscores.append ((kind_ascii k).append (hunderscores.append (hash8_ascii d)))
  have happend := utf8_append (s := stem 40 table) (v := 95) (t := 95 :: (k.text ++ ([95, 95] ++ hash8 sha256 d))) (by decide)
  rw [cname, hlit]
  refine happend.trans ((congrArg (utf8 (stem 40 table) ++ ·) htail.utf8).trans ?_)
  simp [bytes]

theorem length_cname (table : Name) (k : ObjectKind) (d : Name) :
    (cname sha256 table k d).utf8.length = (stem 40 table).utf8.length + k.text.length + 12 := by
  rw [utf8_cname]
  simp only [List.length_append, bytes, List.length_map, hash8_length, List.length_cons, List.length_nil]
  omega

/-- What follows the last of two underscores tells them apart. -/
theorem split_last {α : Type*} {x : α} {as as' bs bs' : List α} (hb : x ∉ bs) (hb' : x ∉ bs')
    (h : as ++ x :: bs = as' ++ x :: bs') : as = as' ∧ bs = bs' := by
  rcases List.append_eq_append_iff.1 h with ⟨w, rfl, hw⟩ | ⟨w, rfl, hw⟩
  · cases w with
    | nil => exact ⟨by simp, by simpa using hw⟩
    | cons y w =>
      obtain ⟨-, rfl⟩ := List.cons.inj hw
      exact absurd (List.mem_append_right w List.mem_cons_self) hb
  · cases w with
    | nil => exact ⟨by simp, by simpa using hw.symm⟩
    | cons y w =>
      obtain ⟨-, rfl⟩ := List.cons.inj hw
      exact absurd (List.mem_append_right w List.mem_cons_self) hb'

/-- A name tells the start of its table's, its kind and its hash. -/
theorem cname_inj {table table' : Name} {k k' : ObjectKind} {d d' : Name} :
    (cname sha256 table k d).utf8 = (cname sha256 table' k' d').utf8 ↔
      (stem 40 table).utf8 = (stem 40 table').utf8 ∧ k = k' ∧ hash8 sha256 d = hash8 sha256 d' := by
  rw [utf8_cname, utf8_cname]
  constructor
  · intro h
    have hlength (e : Name) : (bytes (hash8 sha256 e)).length = 8 := by rw [bytes, List.length_map, hash8_length]
    obtain ⟨h, hhash⟩ := List.append_inj' h ((hlength d).trans (hlength d').symm)
    have hrest : ((stem 40 table).utf8 ++ [95]) ++ 95 :: bytes k.text = ((stem 40 table').utf8 ++ [95]) ++ 95 :: bytes k'.text := by
      simpa using List.append_cancel_right h
    obtain ⟨hstem, hkind⟩ := split_last (underscore_notMem k) (underscore_notMem k') hrest
    refine ⟨List.append_cancel_right hstem, bytes_kind_injective hkind, (hash8_ascii d).utf8_inj (hash8_ascii d') ?_⟩
    rw [(hash8_ascii d).utf8, (hash8_ascii d').utf8]
    exact hhash
  · rintro ⟨hstem, rfl, hhash⟩
    rw [hstem, hhash]

theorem firsts_spec (os : List (Object W)) :
    ((firsts sha256 os).map (id sha256)).Nodup ∧ firsts sha256 os ⊆ os := by
  have hinv : ∀ (os out : List (Object W)), (out.map (id sha256)).Nodup →
      ((os.foldl (fun out o => if out.any (id sha256 · == id sha256 o) then out else out ++ [o]) out).map (id sha256)).Nodup ∧
        ∀ o ∈ os.foldl (fun out o => if out.any (id sha256 · == id sha256 o) then out else out ++ [o]) out, o ∈ out ∨ o ∈ os := by
    intro os
    induction os with
    | nil => exact fun out h => ⟨h, fun o ho => .inl ho⟩
    | cons o os ih =>
      intro out h
      rw [List.foldl_cons]
      split_ifs with hany
      · obtain ⟨hnodup, hmem⟩ := ih out h
        exact ⟨hnodup, fun o' ho' => (hmem o' ho').imp_right (List.mem_cons_of_mem o)⟩
      · have hnew : ((out ++ [o]).map (id sha256)).Nodup := by
          rw [List.map_append, List.nodup_append]
          refine ⟨h, List.nodup_singleton _, ?_⟩
          rintro a ha b hb rfl
          obtain ⟨o', ho', hid⟩ := List.mem_map.1 ha
          obtain rfl := List.mem_singleton.1 hb
          exact hany (List.any_eq_true.2 ⟨o', ho', by simpa using hid⟩)
        obtain ⟨hnodup, hmem⟩ := ih _ hnew
        refine ⟨hnodup, fun o' ho' => ?_⟩
        rcases hmem o' ho' with hout | hos
        · rcases List.mem_append.1 hout with hout | hone
          · exact .inl hout
          · exact .inr (List.mem_singleton.1 hone ▸ List.mem_cons_self)
        · exact .inr (List.mem_cons_of_mem o hos)
  obtain ⟨hnodup, hmem⟩ := hinv os [] List.nodup_nil
  exact ⟨hnodup, fun o ho => (hmem o ho).resolve_left List.not_mem_nil⟩

theorem objects_eq_ok {r : Rendering W X} {s : SchemaSpec W X} {os : List (Object W)} (h : objects sha256 r s = .ok os) :
    ∃ all, pushed r s = .ok all ∧ os = firsts sha256 all := by
  obtain ⟨all, hall, hos⟩ := Fallible.bind_eq_ok.1 h
  exact ⟨all, hall, (Except.ok.inj hos).symm⟩

/-- Two objects of one table, kind and definition are one. -/
theorem object_ext {r : Rendering W X} {s : SchemaSpec W X} {os : List (Object W)} (h : objects sha256 r s = .ok os)
    {o o' : Object W} (ho : o ∈ os) (ho' : o' ∈ os) (htable : o.table = o'.table) (hkind : o.kind = o'.kind)
    (hdef : o.definition.sql = o'.definition.sql) : o = o' := by
  obtain ⟨all, -, rfl⟩ := objects_eq_ok h
  refine List.inj_on_of_nodup_map (firsts_spec all).1 ho ho' ?_
  rw [id, id, name, name, htable, hkind, hdef]

theorem ident_eq_ok {n m : Name} : ident n = .ok m ↔ n.utf8.length ≤ 63 ∧ n = m := by
  rw [ident]
  split_ifs with h
  · simp [fail, Nat.not_le.2 h]
  · simp [Nat.not_lt.1 h]

variable {r : Rendering W X} {s : SchemaSpec W X}

/-- Of an accepted schema each table has its columns and its objects. -/
theorem pushed_tables {all : List (Object W)} (h : pushed r s = .ok all) {t : Table W X} (ht : t ∈ s.tables) :
    ∃ rels c os, relations s = .ok rels ∧ columnsOf s rels t = .ok c ∧ tableObjects r s t c = .ok os := by
  rw [pushed, Fallible.bind_eq_ok] at h
  obtain ⟨rels, hrels, h⟩ := h
  obtain ⟨columns, hcolumns, h⟩ := Fallible.bind_eq_ok.1 h
  obtain ⟨tables, htables, -⟩ := Fallible.bind_eq_ok.1 h
  have heach := Fallible.mapM_zip_eq_ok.1 ⟨columns, hcolumns, htables⟩
  obtain ⟨os, hos⟩ := Fallible.mapM_eq_ok_of_mem heach ht
  obtain ⟨c, hc, hos⟩ := Fallible.bind_eq_ok.1 hos
  exact ⟨rels, c, os, hrels, hc, hos⟩

theorem table_short {rels : List Rel} {t : Table W X} {c : Columns} (h : columnsOf s rels t = .ok c) :
    t.name.utf8.length ≤ 63 := by
  obtain ⟨name, hname, -⟩ := Fallible.bind_eq_ok.1 h
  exact (ident_eq_ok.1 hname).1

/-- The fields that are no references have short names. -/
theorem field_short {rels : List Rel} {t : Table W X} {c : Columns} (h : columnsOf s rels t = .ok c) {f : FieldSpec}
    (hf : f ∈ t.fields) (href : ∀ spec, f.kind ≠ .ref spec) : f.name.utf8.length ≤ 63 := by
  obtain ⟨_, -, h⟩ := Fallible.bind_eq_ok.1 h
  obtain ⟨fields, hfields, -⟩ := Fallible.bind_eq_ok.1 h
  obtain ⟨col, hcol⟩ := Fallible.mapM_eq_ok_of_mem hfields hf
  rw [fieldColumn] at hcol
  split at hcol
  · exact absurd ‹_› (href _)
  · obtain ⟨name, hname, -⟩ := Fallible.bind_eq_ok.1 hcol
    exact (ident_eq_ok.1 hname).1

/-- A reference's columns have short names, but for the name of one to a single model. -/
theorem rel_short {rels : List Rel} (h : relations s = .ok rels) {rel : Rel} (hrel : rel ∈ rels) {col : Name}
    (hcol : col ∈ rel.cols) :
    col.utf8.length ≤ 63 ∨ ∃ ref ∈ refs s, ref.2.2.targets.length = 1 ∧ col = ref.2.1.name := by
  obtain ⟨ref, href, hrel⟩ : ∃ ref ∈ refs s, relation ref.1 ref.2.1 ref.2.2 = .ok rel := by
    rw [relations, Fallible.mapM_eq_ok] at h
    exact (Fallible.exists_mem_iff_of_forall₂ (Q := (· = rel)) h fun x y hxy => by
      rw [hxy, Except.ok.injEq]).1 ⟨rel, hrel, rfl⟩
  simp only [relation] at hrel
  split at hrel
  · cases hrel
  split at hrel
  · obtain ⟨cols, hcols, hrel⟩ := Fallible.bind_eq_ok.1 hrel
    obtain rfl := Except.ok.inj hrel
    obtain rfl := Except.ok.inj hcols
    exact .inr ⟨ref, href, ‹_›, List.mem_singleton.1 hcol⟩
  · obtain ⟨cols, hcols, hrel⟩ := Fallible.bind_eq_ok.1 hrel
    obtain rfl := Except.ok.inj hrel
    rw [Fallible.mapM_eq_ok] at hcols
    left
    exact (Fallible.forall_mem_iff_of_forall₂ (P := fun _ => True) hcols fun x y hxy =>
      ⟨fun _ => trivial, fun _ => (ident_eq_ok.1 hxy).2 ▸ (ident_eq_ok.1 hxy).1⟩).2 (fun _ _ => trivial) col hcol

/-- The hidden columns have short names. -/
theorem hidden_short {t : Table W X} {c : Columns} {os : List (Object W)} (h : tableObjects r s t c = .ok os)
    {label : Option Name} (hlabel : r.recordLabel s t = .ok label) {n : Name} (hn : n ∈ hidden t label) :
    n.utf8.length ≤ 63 := by
  obtain ⟨_, -, h⟩ := Fallible.bind_eq_ok.1 h
  obtain ⟨_, -, h⟩ := Fallible.bind_eq_ok.1 h
  obtain ⟨_, -, h⟩ := Fallible.bind_eq_ok.1 h
  obtain ⟨_, hsearch, -⟩ := Fallible.bind_eq_ok.1 h
  obtain ⟨label', hlabel', hsearch⟩ := Fallible.bind_eq_ok.1 hsearch
  obtain rfl : label = label' := Except.ok.inj (hlabel.symm.trans hlabel')
  rw [hidden, List.mem_append] at hn
  rcases hn with hn | hn
  · split_ifs at hn
    · rw [List.mem_singleton.1 hn]
      decide
    · cases hn
  · cases hs : t.search.or (if label.isSome then some ⟨false, []⟩ else none) with
    | none => simp [hs] at hn
    | some search =>
      rw [hs] at hsearch
      obtain ⟨declared, hdeclared, -⟩ := Fallible.bind_eq_ok.1 hsearch
      simp only [hs, List.mem_cons, List.mem_append, List.mem_map, List.mem_filter] at hn
      rcases hn with rfl | hn | ⟨i, ⟨hi, hfield⟩, rfl⟩
      · decide
      · split_ifs at hn
        · rw [List.mem_singleton.1 hn]
          decide
        · cases hn
      · obtain ⟨_, hcol⟩ := Fallible.mapM_eq_ok_of_mem hdeclared hi
        rw [Option.isNone_iff_eq_none.1 hfield] at hcol
        obtain ⟨_, hcol, -⟩ := Fallible.bind_eq_ok.1 hcol
        exact (ident_eq_ok.1 hcol).1

theorem length_labelFunction (t : Table W X) (text : Name) :
    (labelFunction sha256 t text).utf8.length = (stem 22 t.name).utf8.length + 27 := by
  have hlabel : (ascii "bolt_record_label_").Ascii ∧ (ascii "bolt_record_label_").length = 18 := by
    exact ⟨forall_of_all (by decide), by decide⟩
  have hunderscore : ascii "_" = [95] := by decide
  have htail : Ascii ([95] ++ hash8 sha256 text) := Ascii.append (forall_of_all (by decide)) (hash8_ascii text)
  have happend := utf8_append (s := stem 22 t.name) (v := 95) (t := hash8 sha256 text) (by decide)
  have hlength : (utf8 (95 :: hash8 sha256 text)).length = 9 := by
    rw [show (95 :: hash8 sha256 text) = [95] ++ hash8 sha256 text from rfl, htail.utf8_length, List.length_append,
      hash8_length]
    rfl
  rw [labelFunction, hlabel.1.utf8_append, List.length_append, hlabel.1.utf8_length, hlabel.2, hunderscore]
  rw [show (stem 22 t.name ++ ([95] ++ hash8 sha256 text)) = stem 22 t.name ++ 95 :: hash8 sha256 text from rfl, happend,
    List.length_append, hlength]
  omega

/-- The column of a reference to one model bears its name. -/
theorem rel_single {rels : List Rel} (h : relations s = .ok rels) {ref : Name × FieldSpec × RefSpec} (href : ref ∈ refs s)
    (hone : ref.2.2.targets.length = 1) : ∃ rel ∈ rels, ref.2.1.name ∈ rel.cols := by
  obtain ⟨rel, hrel, h⟩ := Fallible.exists_mem_of_mapM h href
  refine ⟨rel, hrel, ?_⟩
  simp only [relation, hone, if_true] at h
  split at h
  · cases h
  obtain ⟨cols, hcols, h⟩ := Fallible.bind_eq_ok.1 h
  obtain rfl := Except.ok.inj h
  exact Except.ok.inj hcols ▸ List.mem_singleton_self _

theorem mem_plain {plain : List Name} {rels : List Rel} (hrels : relations s = .ok rels)
    (h : plainNames sha256 r s = .ok plain) {n : Name} : n ∈ plain ↔
      (∃ t ∈ s.tables, ∃ label, r.recordLabel s t = .ok label ∧
        n ∈ t.name :: (ownColumns t ++ hidden t label ++ label.toList.map (labelFunction sha256 t))) ∨
      ∃ rel ∈ rels, n ∈ rel.cols := by
  obtain ⟨rels', hrels', h⟩ := Fallible.bind_eq_ok.1 h
  obtain rfl : rels = rels' := Except.ok.inj (hrels.symm.trans hrels')
  obtain ⟨tables, htables, h⟩ := Fallible.bind_eq_ok.1 h
  obtain rfl := Except.ok.inj h
  rw [Fallible.mapM_eq_ok] at htables
  rw [List.mem_append, List.mem_flatten, List.mem_flatMap]
  apply or_congr_left
  refine Fallible.exists_mem_iff_of_forall₂ htables fun t ns hns => ?_
  obtain ⟨label, hlabel, hns⟩ := Fallible.bind_eq_ok.1 hns
  obtain rfl := Except.ok.inj hns
  constructor
  · exact fun hn => ⟨label, hlabel, hn⟩
  · rintro ⟨label', hlabel', hn⟩
    obtain rfl : label = label' := Except.ok.inj (hlabel.symm.trans hlabel')
    exact hn

/-- The other names are short when those no one checks are. -/
theorem plain_short {all : List (Object W)} (h : pushed r s = .ok all) {plain : List Name}
    (hplain : plainNames sha256 r s = .ok plain) : (∀ n ∈ plain, n.utf8.length ≤ 63) ↔
      (∀ t ∈ s.tables, ∀ c ∈ t.computed, c.1.utf8.length ≤ 63) ∧
      (∀ ref ∈ refs s, ref.2.2.targets.length = 1 → ref.2.1.name.utf8.length ≤ 63) ∧
      ∀ t ∈ s.tables, ∀ text, r.recordLabel s t = .ok (some text) → (stem 22 t.name).utf8.length ≤ 36 := by
  obtain ⟨rels, hrels, hrest⟩ := Fallible.bind_eq_ok.1 hplain
  obtain ⟨_, hlabels, -⟩ := Fallible.bind_eq_ok.1 hrest
  constructor
  · intro hshort
    refine ⟨fun t ht c hc => ?_, fun ref href hone => ?_, fun t ht text hlabel => ?_⟩
    · obtain ⟨_, hlabel⟩ := Fallible.mapM_eq_ok_of_mem hlabels ht
      obtain ⟨label, hlabel, -⟩ := Fallible.bind_eq_ok.1 hlabel
      have hown : c.1 ∈ ownColumns t := by
        simp only [ownColumns, List.mem_append]
        exact .inl (.inl (.inr (List.mem_map_of_mem hc)))
      exact hshort _ ((mem_plain hrels hplain).2 (.inl ⟨t, ht, label, hlabel, by simp [hown]⟩))
    · obtain ⟨rel, hrel, hcol⟩ := rel_single hrels href hone
      exact hshort _ ((mem_plain hrels hplain).2 (.inr ⟨rel, hrel, hcol⟩))
    · have hlength := hshort (labelFunction sha256 t text)
        ((mem_plain hrels hplain).2 (.inl ⟨t, ht, some text, hlabel, by simp⟩))
      rw [length_labelFunction] at hlength
      omega
  · rintro ⟨hcomputed, hrefs, hlabel⟩ n hn
    rcases (mem_plain hrels hplain).1 hn with ⟨t, ht, label, htlabel, hn⟩ | ⟨rel, hrel, hn⟩
    · obtain ⟨rels', c, os, -, hc, hos⟩ := pushed_tables h ht
      simp only [List.mem_cons, List.mem_append, List.mem_map, Option.mem_toList] at hn
      rcases hn with rfl | (hn | hn) | ⟨text, htext, rfl⟩
      · exact table_short hc
      · simp only [ownColumns, List.mem_append, List.mem_map, List.mem_filter] at hn
        rcases hn with ((⟨f, ⟨hf, hkind⟩, rfl⟩ | ⟨k, hk, rfl⟩) | hn) | hn
        · exact field_short hc hf fun spec hspec => by simp [isRef, hspec] at hkind
        · exact hcomputed t ht k hk
        · split at hn
          · cases hn
          · rw [List.mem_singleton.1 hn]
            decide
        · split_ifs at hn
          · have haudit : ∀ a ∈ auditColumns.map Prod.fst, (utf8 a).length ≤ 63 := by decide
            exact haudit n hn
          · cases hn
      · exact hidden_short hos htlabel hn
      · rw [length_labelFunction]
        have := hlabel t ht text (htext ▸ htlabel)
        omega
    · rcases rel_short hrels hrel hn with hn | ⟨ref, href, hone, rfl⟩
      · exact hn
      · exact hrefs ref href hone

theorem apart_iff {n : Named W} (h : schemaNames sha256 r s = .ok n)
    (hsha : Set.InjOn (hash8 sha256) {d | ∃ o ∈ n.objects, o.definition.sql = d}) :
    Apart sha256 n ↔ Distinguished r s n.objects := by
  obtain ⟨os, hos, h⟩ := Fallible.bind_eq_ok.1 h
  obtain ⟨plain, hplain, h⟩ := Fallible.bind_eq_ok.1 h
  obtain rfl := Except.ok.inj h
  obtain ⟨all, hall, -⟩ := objects_eq_ok hos
  have hplain := plain_short hall hplain
  simp only at hsha hplain ⊢
  have hwhole {o : Object W} : (name sha256 o).utf8.length ≤ 63 ↔ (stem 40 o.table).utf8.length + o.kind.text.length ≤ 51 := by
    rw [name, length_cname]
    omega
  constructor
  · rintro ⟨hdiffer, hshort⟩
    obtain ⟨hcomputed, hrefs, hlabels⟩ := hplain.1 fun m hm => hshort m (List.mem_append_right _ hm)
    have hname : ∀ o ∈ os, (name sha256 o).utf8.length ≤ 63 := fun o ho =>
      hshort _ (List.mem_append_left _ (List.mem_map_of_mem ho))
    refine ⟨fun o ho => hwhole.1 (hname o ho), ?_, hcomputed, hrefs, hlabels⟩
    intro o ho o' ho' htable hindexed hkind hdef hstem
    have hne : o ≠ o' := fun heq => htable (congrArg Object.table heq)
    refine hdiffer o ho o' ho' hne (.inl ⟨hindexed, hkind ▸ hindexed⟩) ?_
    rw [clip_eq_utf8 (hname o ho), clip_eq_utf8 (hname o' ho')]
    exact cname_inj.2 ⟨hstem, hkind, congrArg _ hdef⟩
  · rintro ⟨hprefixes, htables, hcomputed, hrefs, hlabels⟩
    refine ⟨?_, ?_⟩
    · intro o ho o' ho' hne hspace heq
      rw [clip_eq_utf8 (hwhole.2 (hprefixes o ho)), clip_eq_utf8 (hwhole.2 (hprefixes o' ho'))] at heq
      obtain ⟨hstem, hkind, hhash⟩ := cname_inj.1 heq
      have hdef := hsha ⟨o, ho, rfl⟩ ⟨o', ho', rfl⟩ hhash
      by_cases htable : o.table = o'.table
      · exact hne (object_ext hos ho ho' htable hkind hdef)
      · rcases hspace with ⟨hindexed, -⟩ | ⟨-, -, hsame⟩
        · exact htables o ho o' ho' htable hindexed hkind hdef hstem
        · exact htable hsame
    · intro m hm
      rcases List.mem_append.1 hm with hm | hm
      · obtain ⟨o, ho, rfl⟩ := List.mem_map.1 hm
        exact hwhole.2 (hprefixes o ho)
      · exact hplain.2 ⟨hcomputed, hrefs, hlabels⟩ m hm

end Names

-- Survey answers kept in a table each year, with an index on their score.

/-- The digests of the indexes' definitions. -/
def digest (d : Name) : Vector UInt8 32 :=
  if d = ascii "(\"score\")" then
    ⟨#[112, 28, 217, 158, 3, 244, 126, 16, 21, 123, 161, 80, 241, 65, 103, 156, 27, 56, 16, 139, 83, 3, 254, 131, 144,
      224, 22, 117, 24, 32, 247, 183], rfl⟩
  else if d = ascii "(\"asked\")" then
    ⟨#[248, 245, 92, 163, 87, 205, 70, 255, 202, 91, 86, 29, 125, 103, 216, 50, 64, 241, 231, 237, 20, 29, 204, 161, 16,
      249, 229, 121, 238, 32, 144, 30], rfl⟩
  else Vector.replicate 32 0

def plainRendering : Rendering Empty Empty where
  staticSql := fun _ _ w => w.elim
  plainSql := fun _ _ w => w.elim
  kindCheck := fun _ _ _ => .ok none
  exprSql := fun _ _ x => x.elim
  pathText := fun _ _ field _ => .ok field
  recordLabel := fun _ _ => .ok none
  rest := fun _ => .ok ()

def answers (name : Name) (index : List (List Name)) : Table Empty Empty where
  name := name
  fields := [⟨ascii "score", .int false, false, false⟩, ⟨ascii "asked", .int false, false, false⟩]
  key := .uuid
  audit := true
  native := false
  managedDeletes := false
  identity := none
  natural := none
  unique := []
  check := []
  noOverlap := []
  index := index
  indexes := []
  paths := []
  computed := []
  search := none
  through := []

/-- Two indexes of one table, and one of another with a definition of theirs. -/
def survey : SchemaSpec Empty Empty :=
  ⟨[answers (ascii "answers") [[ascii "score"], [ascii "asked"]], answers (ascii "drafts") [[ascii "score"]]], by decide⟩

def yearly : SchemaSpec Empty Empty :=
  ⟨[answers (ascii "customer_satisfaction_survey_raw_answers_2024") [[ascii "score"]],
    answers (ascii "customer_satisfaction_survey_raw_answers_2025") [[ascii "score"]]], by decide⟩

/-- The tables, kinds and definitions of a schema's objects. -/
def definitions (s : SchemaSpec Empty Empty) : Option (List (Name × ObjectKind × Name)) :=
  (schemaNames digest plainRendering s).toOption.map fun n => n.objects.map fun o => (o.table, o.kind, o.definition.sql)

theorem definitions_eq_some {s : SchemaSpec Empty Empty} {ds : List (Name × ObjectKind × Name)} (h : definitions s = some ds) :
    ∃ n, schemaNames digest plainRendering s = .ok n ∧ n.objects.map (fun o => (o.table, o.kind, o.definition.sql)) = ds := by
  rw [definitions] at h
  cases hn : schemaNames digest plainRendering s with
  | error e => simp [hn, Except.toOption] at h
  | ok n => exact ⟨n, rfl, by simpa [hn, Except.toOption] using h⟩

/-- The table, kind and definition of each of its objects. -/
def surveyObjects : List (Name × ObjectKind × Name) := [(ascii "answers", .ix, ascii "(\"score\")"),
  (ascii "answers", .ix, ascii "(\"asked\")"), (ascii "drafts", .ix, ascii "(\"score\")")]

theorem apart_survey : ∃ n, schemaNames digest plainRendering survey = .ok n ∧ n.objects.length = 3 ∧ Apart digest n := by
  obtain ⟨n, hn, hdefs⟩ := definitions_eq_some (show definitions survey = some surveyObjects by decide)
  have hall : ∀ o ∈ n.objects, (o.table, o.kind, o.definition.sql) ∈ surveyObjects :=
    fun o ho => hdefs ▸ List.mem_map_of_mem ho
  have hinj : ∀ x ∈ surveyObjects, ∀ y ∈ surveyObjects, hash8 digest x.2.2 = hash8 digest y.2.2 → x.2.2 = y.2.2 := by decide
  have hshort : ∀ x ∈ surveyObjects, (stem 40 x.1).utf8.length + x.2.1.text.length ≤ 51 := by decide
  have hstems : ∀ x ∈ surveyObjects, ∀ y ∈ surveyObjects, x.1 ≠ y.1 → (stem 40 x.1).utf8 ≠ (stem 40 y.1).utf8 := by decide
  refine ⟨n, hn, by simpa [surveyObjects] using congrArg List.length hdefs, (apart_iff hn ?_).2 ⟨?_, ?_, ?_, ?_, ?_⟩⟩
  · rintro d ⟨o, ho, rfl⟩ e ⟨o', ho', rfl⟩
    exact hinj _ (hall o ho) _ (hall o' ho')
  · exact fun o ho => hshort _ (hall o ho)
  · exact fun o ho o' ho' htable _ _ _ => hstems _ (hall o ho) _ (hall o' ho') htable
  · simp [survey, answers]
  · simp [survey, answers, refs]
  · simp [plainRendering]

/-- The indexes of two years have one name. -/
theorem clash_yearly : ∃ n, schemaNames digest plainRendering yearly = .ok n ∧
    Set.InjOn (hash8 digest) {d | ∃ o ∈ n.objects, o.definition.sql = d} ∧ ¬ Apart digest n := by
  obtain ⟨n, hn, hdefs⟩ := definitions_eq_some
    (show definitions yearly = some [(ascii "customer_satisfaction_survey_raw_answers_2024", .ix, ascii "(\"score\")"),
      (ascii "customer_satisfaction_survey_raw_answers_2025", .ix, ascii "(\"score\")")] by decide)
  obtain ⟨o, o', hobjects⟩ : ∃ o o', n.objects = [o, o'] := List.length_eq_two.1 (by simpa using congrArg List.length hdefs)
  simp only [hobjects, List.map_cons, List.map_nil, List.cons.injEq, Prod.mk.injEq, and_true] at hdefs
  obtain ⟨⟨htable, hkind, hdef⟩, htable', hkind', hdef'⟩ := hdefs
  refine ⟨n, hn, ?_, fun h => ?_⟩
  · rintro d ⟨a, ha, rfl⟩ e ⟨b, hb, rfl⟩ -
    have hsame : ∀ a ∈ n.objects, a.definition.sql = ascii "(\"score\")" := by simp [hobjects, hdef, hdef']
    rw [hsame a ha, hsame b hb]
  · have hne : o ≠ o' := fun heq => absurd (htable.symm.trans ((congrArg Object.table heq).trans htable')) (by decide)
    refine h.differ o (by simp [hobjects]) o' (by simp [hobjects]) hne (.inl ⟨by rw [hkind]; rfl, by rw [hkind']; rfl⟩) ?_
    rw [name, name, htable, hkind, hdef, htable', hkind', hdef']
    decide

end Norbital.Store.Names

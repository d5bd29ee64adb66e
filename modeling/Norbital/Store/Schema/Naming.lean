import Mathlib.Data.List.Nodup
import Norbital.Store.Schema.Plan

/-!
# A schema under other names

A schema obtained from another by renaming tables and fields, and the renames
`renamesOf` finds between the two: where the new names are free and no name
stands for two things, every rename is found, and a name rewritten by them in
turn is the name the renaming gives it.
-/

namespace Norbital.Store.Schema

open SqlText

section

variable {α : Type}

theorem mem_mapSet {m : List (String × α)} {k : String} {v : α} {e : String × α} :
    e ∈ mapSet m k v ↔ e = (k, v) ∨ e ∈ m ∧ e.1 ≠ k := by
  unfold mapSet
  split_ifs with hk
  · obtain ⟨d, hd, hdk⟩ := List.any_eq_true.mp hk
    simp only [List.mem_map]
    constructor
    · rintro ⟨a, ha, rfl⟩
      by_cases hak : a.1 = k
      · exact .inl (by simp [hak])
      · exact .inr (by simpa [hak] using ha)
    · rintro (rfl | ⟨he, hne⟩)
      · exact ⟨d, hd, by simp [show d.1 = k by simpa using hdk]⟩
      · exact ⟨e, he, by simp [hne]⟩
  · have hnone : ∀ a ∈ m, a.1 ≠ k := fun a ha hak =>
      hk (List.any_eq_true.mpr ⟨a, ha, by simp [hak]⟩)
    simp only [List.mem_append, List.mem_singleton]
    constructor
    · rintro (he | rfl)
      · exact .inr ⟨he, hnone e he⟩
      · exact .inl rfl
    · rintro (rfl | ⟨he, -⟩)
      · exact .inr rfl
      · exact .inl he

theorem keys_mapSet (m : List (String × α)) (k : String) (v : α) :
    (mapSet m k v).map (·.1) = if k ∈ m.map (·.1) then m.map (·.1) else m.map (·.1) ++ [k] := by
  unfold mapSet
  have hany : m.any (·.1 == k) = true ↔ k ∈ m.map (·.1) := by
    simp [List.any_eq_true, List.mem_map]
  by_cases hk : k ∈ m.map (·.1)
  · rw [if_pos (hany.mpr hk), if_pos hk, List.map_map]
    refine List.map_congr_left fun a _ => ?_
    by_cases hak : a.1 = k <;> simp [hak]
  · rw [if_neg fun h => hk (hany.mp h), if_neg hk]
    simp

theorem nodup_mapSet {m : List (String × α)} (h : (m.map (·.1)).Nodup) (k : String) (v : α) :
    ((mapSet m k v).map (·.1)).Nodup := by
  rw [keys_mapSet]
  split_ifs with hk
  · exact h
  · exact List.nodup_append.mpr ⟨h, List.nodup_singleton k, by
      intro a ha b hb
      rw [List.mem_singleton.mp hb]
      exact fun heq => hk (heq ▸ ha)⟩

theorem foldl_mapSet (entries m : List (String × α)) :
    ((m.map (·.1)).Nodup → ((entries.foldl (fun m e => mapSet m e.1 e.2) m).map (·.1)).Nodup) ∧
    (∀ e ∈ entries.foldl (fun m e => mapSet m e.1 e.2) m, e ∈ m ∨ e ∈ entries) ∧
    ∀ e, e ∈ m ∨ e ∈ entries → ∃ v, (e.1, v) ∈ entries.foldl (fun m e => mapSet m e.1 e.2) m := by
  induction entries generalizing m with
  | nil =>
    refine ⟨id, fun e he => .inl he, ?_⟩
    rintro e (he | he)
    · exact ⟨e.2, he⟩
    · simp at he
  | cons d entries ih =>
    obtain ⟨hnd, hmem, hkey⟩ := ih (mapSet m d.1 d.2)
    refine ⟨fun h => hnd (nodup_mapSet h d.1 d.2), ?_, ?_⟩
    · intro e he
      obtain he | he := hmem e he
      · obtain rfl | ⟨he, -⟩ := mem_mapSet.mp he
        · exact .inr List.mem_cons_self
        · exact .inl he
      · exact .inr (List.mem_cons_of_mem d he)
    · rintro e (he | he)
      · by_cases hed : e.1 = d.1
        · obtain ⟨v, hv⟩ := hkey (d.1, d.2) (.inl (mem_mapSet.mpr (.inl rfl)))
          exact ⟨v, hed ▸ hv⟩
        · exact hkey e (.inl (mem_mapSet.mpr (.inr ⟨he, hed⟩)))
      · obtain rfl | he := List.mem_cons.mp he
        · exact hkey e (.inl (mem_mapSet.mpr (.inl rfl)))
        · exact hkey e (.inr he)

theorem nodup_mapOf (entries : List (String × α)) : ((mapOf entries).map (·.1)).Nodup :=
  (foldl_mapSet entries []).1 List.nodup_nil

theorem mem_of_mem_mapOf {entries : List (String × α)} {e : String × α} (h : e ∈ mapOf entries) :
    e ∈ entries :=
  ((foldl_mapSet entries []).2.1 e h).resolve_left List.not_mem_nil

theorem exists_mem_mapOf {entries : List (String × α)} {e : String × α} (h : e ∈ entries) :
    ∃ v, (e.1, v) ∈ mapOf entries :=
  (foldl_mapSet entries []).2.2 e (.inr h)

theorem lookup_cons_self (k : String) (v : α) (m : List (String × α)) :
    List.lookup k ((k, v) :: m) = some v := by
  rw [List.lookup_cons, beq_self_eq_true]

theorem lookup_cons_of_ne {k a : String} (h : k ≠ a) (v : α) (m : List (String × α)) :
    List.lookup k ((a, v) :: m) = m.lookup k := by
  rw [List.lookup_cons, beq_eq_false_iff_ne.mpr h]

theorem lookup_eq_some {m : List (String × α)} (hnd : (m.map (·.1)).Nodup) {k : String} {v : α} :
    m.lookup k = some v ↔ (k, v) ∈ m := by
  induction m with
  | nil => simp
  | cons e m ih =>
    obtain ⟨hne, hnd'⟩ := List.nodup_cons.mp hnd
    obtain ⟨a, b⟩ := e
    by_cases hk : k = a
    · subst hk
      have hnot : (k, v) ∉ m := fun hv => hne (List.mem_map.mpr ⟨(k, v), hv, rfl⟩)
      rw [lookup_cons_self]
      simp [hnot, eq_comm]
    · rw [lookup_cons_of_ne hk, ih hnd']
      simp [hk]

theorem lookup_eq_none {m : List (String × α)} {k : String} :
    m.lookup k = none ↔ ∀ v, (k, v) ∉ m := by
  induction m with
  | nil => simp
  | cons e m ih =>
    obtain ⟨a, b⟩ := e
    by_cases hk : k = a
    · subst hk
      rw [lookup_cons_self]
      refine iff_of_false (by simp) fun h => h b List.mem_cons_self
    · rw [lookup_cons_of_ne hk, ih]
      simp [hk]

end

/-- The new name a map of old names gives. -/
def rename (m : List (String × String)) (x : String) : String := (m.lookup x).getD x

/-- Renames made one after another, none to a name another one takes, are made at once. -/
theorem foldl_respell {m : List (String × String)} (hnd : (m.map (·.1)).Nodup)
    (hfree : ∀ e ∈ m, ∀ v, (e.2, v) ∉ m) (x : String) :
    m.foldl (fun x e => respell e.1 e.2 x) x = rename m x := by
  induction m generalizing x with
  | nil => rfl
  | cons e m ih =>
    obtain ⟨hne, hnd'⟩ := List.nodup_cons.mp hnd
    have hfree' : ∀ d ∈ m, ∀ v, (d.2, v) ∉ m := fun d hd v hv =>
      hfree d (List.mem_cons_of_mem e hd) v (List.mem_cons_of_mem e hv)
    obtain ⟨a, b⟩ := e
    rw [List.foldl_cons, ih hnd' hfree']
    unfold rename respell
    by_cases hx : x = a
    · have hb : m.lookup b = none := lookup_eq_none.mpr fun v hv =>
        hfree (a, b) List.mem_cons_self v (List.mem_cons_of_mem (a, b) hv)
      rw [if_pos hx, hb, hx, lookup_cons_self]
      rfl
    · rw [if_neg hx, lookup_cons_of_ne hx]

theorem toList_sql (ps : List Piece) : (sql ps).toList = render ps := String.toList_ofList

theorem quoted_sql (old new : String) {ps : List Piece} (hp : Plain ps) :
    quoted (sql ps) old new = sql (ps.map (Piece.map (respell old new))) := by
  unfold quoted
  rw [toList_sql, substitute_render old new ps hp]
  rfl

theorem foldl_quoted_sql (m : List (String × String)) {ps : List Piece} (hp : Plain ps) :
    m.foldl (fun out e => quoted out e.1 e.2) (sql ps) =
      sql (ps.map (Piece.map fun x => m.foldl (fun x e => respell e.1 e.2 x) x)) := by
  induction m generalizing ps with
  | nil =>
    have hid : Piece.map (fun x => x) = id := by
      funext p
      cases p <;> rfl
    simp [hid]
  | cons e m ih =>
    rw [List.foldl_cons, quoted_sql e.1 e.2 hp, ih (hp.map _), List.map_map]
    congr 2
    funext p
    cases p <;> rfl

/-- The renames of a text of pieces are made on its identifiers. -/
theorem renamedText_sql {back fields : List (String × String)} {ps : List Piece} (hp : Plain ps)
    (hback : (back.map (·.1)).Nodup) (hback' : ∀ e ∈ back, ∀ v, (e.2, v) ∉ back)
    (hfields : (fields.map (·.1)).Nodup) (hfields' : ∀ e ∈ fields, ∀ v, (e.2, v) ∉ fields) :
    renamedText back fields (sql ps) =
      sql (ps.map (Piece.map fun x => rename fields (rename back x))) := by
  unfold renamedText
  rw [foldl_quoted_sql back hp, foldl_quoted_sql fields (hp.map _), List.map_map]
  congr 2
  funext p
  cases p with
  | text s => rfl
  | name s =>
    show Piece.name (fields.foldl (fun x e => respell e.1 e.2 x)
      (back.foldl (fun x e => respell e.1 e.2 x) s)) = Piece.name (rename fields (rename back s))
    rw [foldl_respell hback hback', foldl_respell hfields hfields']

theorem sql_inj {ps qs : List Piece} (hp : Plain ps) (hq : Plain qs)
    (hlike : ps.map Piece.blank = qs.map Piece.blank) : sql ps = sql qs ↔ ps = qs := by
  rw [← render_inj hp hq hlike, ← toList_sql, ← toList_sql, String.toList_inj]

/-- New names for tables, and for the fields of each held table. -/
structure Naming where
  table : String → String
  field : String → String → String

namespace Naming

def kind (ν : Naming) : FieldKind → FieldKind
  | .ref targets setNull optional => .ref (targets.map ν.table) setNull optional
  | k => k

def key (ν : Naming) (table : String) : Key → Key
  | .fields names => .fields (names.map (ν.field table))
  | k => k

/-- The new name of a key column. -/
def keyColumn (ν : Naming) (t : Table) (k : String) : String :=
  match t.key with
  | .fields _ => ν.field t.name k
  | _ => k

/-- A field under its new name, `was` naming the old one where it differs. -/
structure Renames (ν : Naming) (t : Table) (f f' : Field) : Prop where
  name : f'.name = ν.field t.name f.name
  kind : f'.kind = ν.kind f.kind
  was : f'.name ≠ f.name → f'.was = some f.name

/-- A table under its new name and its fields' new names. -/
structure RenamesTable (ν : Naming) (t t' : Table) : Prop where
  name : t'.name = ν.table t.name
  was : t'.name ≠ t.name → t'.was = some t.name
  key : t'.key = ν.key t.name t.key
  audit : t'.audit = t.audit
  identity : ∀ f ∈ t.fields,
    (t'.identity = some (ν.field t.name f.name) ↔ t.identity = some f.name)
  field : ∀ f ∈ t.fields, ∃ f' ∈ t'.fields, ν.Renames t f f'
  field' : ∀ f' ∈ t'.fields, ∃ f ∈ t.fields, ν.Renames t f f'

/-- A schema obtained from another only by renaming tables and fields with `was`. -/
structure RenamesSchema (ν : Naming) (s s' : SchemaSpec) : Prop where
  table : ∀ t ∈ s.tables, ∃ t' ∈ s'.tables, ν.RenamesTable t t'
  table' : ∀ t' ∈ s'.tables, ∃ t ∈ s.tables, ν.RenamesTable t t'
  /-- Names that are no names of the schema stand for themselves. -/
  other : ∀ x, x ∉ s.tables.map (·.name) → ν.table x = x
  injective : ∀ t ∈ s.tables, ∀ u ∈ s.tables, ν.table t.name = ν.table u.name → t.name = u.name
  injective' : ∀ t ∈ s.tables, ∀ f ∈ t.fields, ∀ g ∈ t.fields,
    ν.field t.name f.name = ν.field t.name g.name → f.name = g.name

/-- The names of a table's fields and of the columns of its polymorphic relations, old and new. -/
def names (ν : Naming) (t : Table) : List (String × String) :=
  t.fields.map (fun f => (f.name, ν.field t.name f.name)) ++
    t.fields.flatMap fun f =>
      match arms (some f) with
      | some targets => targets.map fun u =>
        (f.name ++ "__" ++ u, ν.field t.name f.name ++ "__" ++ ν.table u)
      | none => []

/-- The key columns a table is created with, old name and new. -/
def keyNames (ν : Naming) (t : Table) : List (String × String) :=
  match t.key with
  | .fields names =>
    if names.isEmpty then [("id", "id")] else names.map fun k => (k, ν.field t.name k)
  | _ => [("id", "id")]

/-- The new name of a field or column of a table. -/
def column (ν : Naming) (t : Table) (x : String) : String := rename (ν.names t) x

end Naming

/-- The id of a column survives the renames: it is split at the first two colons only. -/
def KeptId (table column table' column' : String) : Prop :=
  (table ≠ "" ∧ ':' ∉ (table ++ "." ++ column).toList) ∨
    (table' = table ∧ column' = column ∧
      (table = "" ∨ '.' ∉ (table ++ "." ++ column).toList.takeWhile (· ≠ ':')))

/-- The new names are names the planner can follow. -/
structure Followed (ν : Naming) (s : SchemaSpec) : Prop where
  /-- A name on either side of a rename is no name that every JavaScript object answers to. -/
  plain : ∀ t ∈ s.tables, ν.table t.name ≠ t.name →
    t.name ∉ inherited ∧ ν.table t.name ∉ inherited
  plain' : ∀ t ∈ s.tables, ∀ f ∈ t.fields, ν.field t.name f.name ≠ f.name →
    f.name ∉ inherited ∧ ν.field t.name f.name ∉ inherited
  /-- A new name is free. -/
  free : ∀ t ∈ s.tables, ν.table t.name ≠ t.name → ν.table t.name ∉ s.tables.map (·.name)
  free' : ∀ t ∈ s.tables, ∀ e ∈ ν.names t, e.2 ≠ e.1 → e.2 ∉ (ν.names t).map (·.1)
  /-- A name has one new name, and no other has it. -/
  single : ∀ t ∈ s.tables, ∀ e ∈ ν.names t, ∀ d ∈ ν.names t, (e.1 = d.1 ↔ e.2 = d.2)
  /-- `id` is the key column of a table whose key is not made of fields. -/
  key : ∀ t ∈ s.tables, (∀ ns, t.key ≠ .fields ns) → ∀ e ∈ ν.names t, e.1 = "id" ↔ e.2 = "id"
  empty : ∀ t ∈ s.tables, t.name = "" → ν.table t.name = t.name

theorem SchemaSpec.table?_eq_some {s : SchemaSpec} {x : String} {t : Table} :
    s.table? x = some t ↔ t ∈ s.tables ∧ t.name = x := by
  unfold SchemaSpec.table?
  constructor
  · intro h
    exact ⟨List.mem_of_find?_eq_some h, by simpa using List.find?_some h⟩
  · rintro ⟨ht, rfl⟩
    cases hf : s.tables.find? (·.name == t.name) with
    | none => simpa using List.find?_eq_none.mp hf t ht
    | some u =>
      have hname : u.name = t.name := by simpa using List.find?_some hf
      rw [List.inj_on_of_nodup_map s.nodup (List.mem_of_find?_eq_some hf) ht hname]

theorem Table.field?_eq_some {t : Table} {x : String} {f : Field} :
    t.field? x = some f ↔ f ∈ t.fields ∧ f.name = x := by
  unfold Table.field?
  constructor
  · intro h
    exact ⟨List.mem_of_find?_eq_some h, by simpa using List.find?_some h⟩
  · rintro ⟨hf, rfl⟩
    cases hg : t.fields.find? (·.name == f.name) with
    | none => simpa using List.find?_eq_none.mp hg f hf
    | some g =>
      have hname : g.name = f.name := by simpa using List.find?_some hg
      rw [List.inj_on_of_nodup_map t.nodup (List.mem_of_find?_eq_some hg) hf hname]

theorem SchemaSpec.has_of_mem {s : SchemaSpec} {t : Table} (h : t ∈ s.tables) : s.has t.name := by
  simp [SchemaSpec.has, SchemaSpec.table?_eq_some.mpr ⟨h, rfl⟩]

theorem Table.has_of_mem {t : Table} {f : Field} (h : f ∈ t.fields) : t.has f.name := by
  simp [Table.has, Table.field?_eq_some.mpr ⟨h, rfl⟩]

theorem SchemaSpec.has_eq_false {s : SchemaSpec} {x : String} (h : x ∉ s.tables.map (·.name))
    (hx : x ∉ inherited) : s.has x = false := by
  have hnone : s.table? x = none := by
    rw [Option.eq_none_iff_forall_ne_some]
    intro t ht
    obtain ⟨hmem, rfl⟩ := SchemaSpec.table?_eq_some.mp ht
    exact h (List.mem_map_of_mem hmem)
  simp [SchemaSpec.has, hnone, hx]

theorem Table.has_eq_false {t : Table} {x : String} (h : x ∉ t.fields.map (·.name))
    (hx : x ∉ inherited) : t.has x = false := by
  have hnone : t.field? x = none := by
    rw [Option.eq_none_iff_forall_ne_some]
    intro f hf
    obtain ⟨hmem, rfl⟩ := Table.field?_eq_some.mp hf
    exact h (List.mem_map_of_mem hmem)
  simp [Table.has, hnone, hx]

section

variable {ν : Naming} {s s' : SchemaSpec} {t t' : Table} {f f' : Field}

theorem Naming.mem_names_of_field (h : f ∈ t.fields) :
    (f.name, ν.field t.name f.name) ∈ ν.names t :=
  List.mem_append_left _ (List.mem_map.mpr ⟨f, h, rfl⟩)

theorem Naming.mem_names_of_arm {targets : List String} (h : f ∈ t.fields)
    (ha : arms (some f) = some targets) {u : String} (hu : u ∈ targets) :
    (f.name ++ "__" ++ u, ν.field t.name f.name ++ "__" ++ ν.table u) ∈ ν.names t := by
  refine List.mem_append_right _ (List.mem_flatMap.mpr ⟨f, h, ?_⟩)
  rw [ha]
  exact List.mem_map.mpr ⟨u, hu, rfl⟩

theorem Naming.mem_names {e : String × String} (h : e ∈ ν.names t) : ∃ f ∈ t.fields,
    e = (f.name, ν.field t.name f.name) ∨ ∃ targets, arms (some f) = some targets ∧
      ∃ u ∈ targets, e = (f.name ++ "__" ++ u, ν.field t.name f.name ++ "__" ++ ν.table u) := by
  obtain h | h := List.mem_append.mp h
  · obtain ⟨f, hf, rfl⟩ := List.mem_map.mp h
    exact ⟨f, hf, .inl rfl⟩
  · obtain ⟨f, hf, h⟩ := List.mem_flatMap.mp h
    refine ⟨f, hf, .inr ?_⟩
    split at h
    next targets ha =>
      obtain ⟨u, hu, rfl⟩ := List.mem_map.mp h
      exact ⟨targets, ha, u, hu, rfl⟩
    next => simp at h

theorem oldTable_eq (hfol : Followed ν s) (ht : t ∈ s.tables) (hr : ν.RenamesTable t t') :
    oldTable s t' = t.name := by
  unfold oldTable
  by_cases hname : t'.name = t.name
  · rw [hname, SchemaSpec.has_of_mem ht]
    cases t'.was <;> rfl
  · have hne : ν.table t.name ≠ t.name := hr.name ▸ hname
    rw [hr.was hname, hr.name]
    dsimp only
    rw [SchemaSpec.has_eq_false (hfol.free t ht hne) (hfol.plain t ht hne).2]
    rfl

theorem oldField_eq (hfol : Followed ν s) (ht : t ∈ s.tables) (hf : f ∈ t.fields)
    (hr : ν.Renames t f f') : oldField t f' = f.name := by
  unfold oldField
  by_cases hname : f'.name = f.name
  · rw [hname, Table.has_of_mem hf]
    cases f'.was <;> rfl
  · have hne : ν.field t.name f.name ≠ f.name := hr.name ▸ hname
    have hfree : ν.field t.name f.name ∉ t.fields.map (·.name) := by
      intro hmem
      obtain ⟨g, hg, hgn⟩ := List.mem_map.mp hmem
      refine hfol.free' t ht _ (Naming.mem_names_of_field hf) hne ?_
      exact List.mem_map.mpr ⟨_, Naming.mem_names_of_field hg, hgn⟩
    rw [hr.was hname, hr.name]
    dsimp only
    rw [Table.has_eq_false hfree (hfol.plain' t ht f hf hne).2]
    rfl

/-- An old name of a renamed table is no longer used. -/
theorem not_has_oldTable (h : ν.RenamesSchema s s') (hfol : Followed ν s) (ht : t ∈ s.tables)
    (hne : ν.table t.name ≠ t.name) : s'.has t.name = false := by
  refine SchemaSpec.has_eq_false ?_ (hfol.plain t ht hne).1
  intro hmem
  obtain ⟨u', hu', hname⟩ := List.mem_map.mp hmem
  obtain ⟨u, hu, hr⟩ := h.table' u' hu'
  by_cases hun : ν.table u.name = u.name
  · refine hne ?_
    rw [← hname, hr.name, hun, hun]
  · exact hfol.free u hu hun (List.mem_map.mpr ⟨t, ht, hname.symm.trans hr.name⟩)

theorem not_has_oldField (hfol : Followed ν s) (ht : t ∈ s.tables) (hrt : ν.RenamesTable t t')
    (hf : f ∈ t.fields) (hne : ν.field t.name f.name ≠ f.name) : t'.has f.name = false := by
  refine Table.has_eq_false ?_ (hfol.plain' t ht f hf hne).1
  intro hmem
  obtain ⟨g', hg', hname⟩ := List.mem_map.mp hmem
  obtain ⟨g, hg, hr⟩ := hrt.field' g' hg'
  by_cases hgn : ν.field t.name g.name = g.name
  · refine hne ?_
    rw [← hname, hr.name, hgn, hgn]
  · refine hfol.free' t ht _ (Naming.mem_names_of_field hg) hgn ?_
    exact List.mem_map.mpr ⟨_, Naming.mem_names_of_field hf, hname.symm.trans hr.name⟩

/-- Entries that are renames, from the new name to the old. -/
def Declares (names : List (String × String)) (m : List (String × String)) : Prop :=
  ∀ e ∈ m, (e.2, e.1) ∈ names ∧ e.1 ≠ e.2

theorem Declares.mapSet {names m : List (String × String)} (h : Declares names m) {old new : String}
    (hmem : (old, new) ∈ names) (hne : new ≠ old) : Declares names (mapSet m new old) := by
  intro e he
  obtain rfl | ⟨he, -⟩ := mem_mapSet.mp he
  · exact ⟨hmem, hne⟩
  · exact h e he

/-- An entry stays when another rename is declared. -/
theorem mem_mapSet_of_mem {names m : List (String × String)} (h : Declares names m)
    (hsingle : ∀ e ∈ names, ∀ d ∈ names, e.2 = d.2 → e.1 = d.1) {e : String × String} (he : e ∈ m)
    {old new : String} (hmem : (old, new) ∈ names) : e ∈ mapSet m new old := by
  rw [mem_mapSet]
  by_cases hkey : e.1 = new
  · have hold := hsingle _ (h e he).1 _ hmem hkey
    exact .inl (Prod.ext hkey hold)
  · exact .inr ⟨he, hkey⟩

/-- The table renames, old name and new. -/
def Naming.tableNames (ν : Naming) (s : SchemaSpec) : List (String × String) :=
  s.tables.map fun t => (t.name, ν.table t.name)

theorem tables_foldlM (h : ν.RenamesSchema s s') (hfol : Followed ν s) (l : List Table)
    (hl : ∀ u' ∈ l, u' ∈ s'.tables) (hnd : (l.map (·.name)).Nodup) (m : List (String × String))
    (hm : Declares (ν.tableNames s) m) (hkeys : (m.map (·.1)).Nodup)
    (hnew : ∀ e ∈ m, e.1 ∉ l.map (·.name)) :
    ∃ m', l.foldlM (renameTable s s') m = .ok m' ∧ Declares (ν.tableNames s) m' ∧
      (m'.map (·.1)).Nodup ∧ (∀ e ∈ m, e ∈ m') ∧
      ∀ u' ∈ l, ∀ u ∈ s.tables, ν.RenamesTable u u' → u'.name ≠ u.name → (u'.name, u.name) ∈ m' := by
  induction l generalizing m with
  | nil => exact ⟨m, rfl, hm, hkeys, fun e he => he, by simp⟩
  | cons u' l ih =>
    obtain ⟨hfresh, hnd'⟩ := List.nodup_cons.mp hnd
    obtain ⟨u, hu, hr⟩ := h.table' u' (hl u' List.mem_cons_self)
    have hl' : ∀ v' ∈ l, v' ∈ s'.tables := fun v' hv' => hl v' (List.mem_cons_of_mem u' hv')
    have hold := oldTable_eq hfol hu hr
    have honly : ∀ v ∈ s.tables, ν.RenamesTable v u' → v.name = u.name := fun v hv hrv =>
      h.injective v hv u hu (hrv.name.symm.trans hr.name)
    -- a table that keeps its name declares nothing; a renamed one is declared, its old name being unused so far
    by_cases hname : u'.name = u.name
    · have hstep : renameTable s s' m u' = .ok m := by
        unfold renameTable
        rw [hold]
        exact if_pos hname.symm
      obtain ⟨m', hfold, hdecl, hkeys', hsub, hall⟩ := ih hl' hnd' m hm hkeys
        fun e he hmem => hnew e he (List.mem_cons_of_mem _ hmem)
      refine ⟨m', ?_, hdecl, hkeys', hsub, ?_⟩
      · rw [List.foldlM_cons, hstep]
        exact hfold
      · intro v' hv' v hv hrv hne
        obtain rfl | hv' := List.mem_cons.mp hv'
        · exact absurd (hname.trans (honly v hv hrv).symm) hne
        · exact hall v' hv' v hv hrv hne
    · have hne : ν.table u.name ≠ u.name := hr.name ▸ hname
      have hmem : (u.name, u'.name) ∈ ν.tableNames s := by
        rw [hr.name]
        exact List.mem_map_of_mem hu
      have hunused : m.any (·.2 == u.name) = false := by
        rw [List.any_eq_false]
        intro e he heq
        have hsame : (e.2, e.1) = (u.name, ν.table u.name) := by
          obtain ⟨v, hv, hev⟩ := List.mem_map.mp (hm e he).1
          simp only [Prod.mk.injEq] at hev
          rw [← hev.1, ← hev.2, show v.name = u.name from hev.1.trans (by simpa using heq)]
        refine hnew e he ?_
        rw [List.map_cons, show e.1 = u'.name from (Prod.mk.inj hsame).2.trans hr.name.symm]
        exact List.mem_cons_self
      have hstep : renameTable s s' m u' = .ok (mapSet m u'.name u.name) := by
        unfold renameTable
        rw [hold]
        dsimp only
        rw [if_neg (fun heq => hname heq.symm), SchemaSpec.has_of_mem hu,
          not_has_oldTable h hfol hu hne, hunused]
        rfl
      obtain ⟨m', hfold, hdecl, hkeys', hsub, hall⟩ := ih hl' hnd' (mapSet m u'.name u.name)
        (hm.mapSet hmem hname) (nodup_mapSet hkeys _ _) (by
          intro e he
          obtain rfl | ⟨he, -⟩ := mem_mapSet.mp he
          · exact hfresh
          · exact fun hmem => hnew e he (List.mem_cons_of_mem _ hmem))
      have hself : (u'.name, u.name) ∈ mapSet m u'.name u.name := mem_mapSet.mpr (.inl rfl)
      refine ⟨m', ?_, hdecl, hkeys', ?_, ?_⟩
      · rw [List.foldlM_cons, hstep]
        exact hfold
      · intro e he
        refine hsub e (mem_mapSet.mpr (.inr ⟨he, fun hkey => hnew e he ?_⟩))
        rw [hkey]
        exact List.mem_cons_self
      · intro v' hv' v hv hrv hne'
        obtain rfl | hv' := List.mem_cons.mp hv'
        · rw [honly v hv hrv]
          exact hsub _ hself
        · exact hall v' hv' v hv hrv hne'

/-- The tables that are renamed, from the new name to the old. -/
structure TablesFound (ν : Naming) (s : SchemaSpec) (tables : List (String × String)) : Prop where
  declares : Declares (ν.tableNames s) tables
  nodup : (tables.map (·.1)).Nodup
  mem : ∀ t ∈ s.tables, ν.table t.name ≠ t.name → (ν.table t.name, t.name) ∈ tables

theorem tablesFound (h : ν.RenamesSchema s s') (hfol : Followed ν s) :
    ∃ tables, s'.tables.foldlM (renameTable s s') [] = .ok tables ∧ TablesFound ν s tables := by
  obtain ⟨m, hfold, hdecl, hkeys, -, hall⟩ := tables_foldlM h hfol s'.tables (fun _ hu => hu) s'.nodup
    [] (by simp [Declares]) List.nodup_nil (by simp)
  refine ⟨m, hfold, hdecl, hkeys, fun t ht hne => ?_⟩
  obtain ⟨t', ht', hr⟩ := h.table t ht
  rw [← hr.name] at hne ⊢
  exact hall t' ht' t ht hr hne

/-- The old name of a table found by its new one. -/
theorem TablesFound.lookup {tables : List (String × String)} (hfound : TablesFound ν s tables)
    (hfol : Followed ν s) (ht : t ∈ s.tables) :
    (tables.lookup (ν.table t.name)).getD (ν.table t.name) = t.name := by
  by_cases hne : ν.table t.name = t.name
  · have hnone : tables.lookup (ν.table t.name) = none := by
      rw [lookup_eq_none]
      intro v hv
      obtain ⟨hmem, hvne⟩ := hfound.declares _ hv
      obtain ⟨u, hu, heq⟩ := List.mem_map.mp hmem
      simp only [Prod.mk.injEq] at heq
      have hun : ν.table u.name ≠ u.name := by
        rw [heq.2, heq.1]
        exact hvne
      refine hfol.free u hu hun ?_
      rw [heq.2, hne]
      exact List.mem_map_of_mem ht
    rw [hnone, hne]
    rfl
  · rw [(lookup_eq_some hfound.nodup).mpr (hfound.mem t ht hne)]
    rfl

/-- Every relation points at tables of the schema. -/
def Declared (s : SchemaSpec) : Prop :=
  ∀ t ∈ s.tables, ∀ f ∈ t.fields, ∀ targets setNull optional, f.kind = .ref targets setNull optional →
    ∀ u ∈ targets, ∃ v ∈ s.tables, v.name = u

theorem arms_eq_some {targets : List String} : arms (some f) = some targets ↔
    ∃ setNull optional, f.kind = .ref targets setNull optional ∧ targets.length > 1 := by
  obtain ⟨name, kind, was⟩ := f
  cases kind with
  | ref ts setNull optional =>
    unfold arms
    dsimp only
    split_ifs with hlen
    · constructor
      · rintro ⟨rfl⟩
        exact ⟨setNull, optional, rfl, hlen⟩
      · rintro ⟨a, b, heq, -⟩
        simp only [FieldKind.ref.injEq] at heq
        rw [heq.1]
    · constructor
      · intro h
        simp at h
      · rintro ⟨a, b, heq, hlen'⟩
        simp only [FieldKind.ref.injEq] at heq
        exact absurd (heq.1 ▸ hlen') hlen
  | _ => simp [arms]

theorem arms_renamed (hr : ν.Renames t f f') :
    arms (some f') = (arms (some f)).map (List.map ν.table) := by
  obtain ⟨name, kind, was⟩ := f
  obtain ⟨name', kind', was'⟩ := f'
  obtain rfl : kind' = ν.kind kind := hr.kind
  cases kind with
  | ref targets setNull optional =>
    simp only [Naming.kind, arms, List.length_map]
    split_ifs <;> rfl
  | _ => rfl

/-- One rename more, where it is one. -/
def declare (physical : List (String × String)) (old new : String) : List (String × String) :=
  if new = old then physical else mapSet physical new old

theorem declare_of_names {names m : List (String × String)} (h : Declares names m)
    (hsingle : ∀ e ∈ names, ∀ d ∈ names, e.2 = d.2 → e.1 = d.1) {old new : String}
    (hmem : (old, new) ∈ names) : Declares names (declare m old new) ∧
      (∀ e ∈ m, e ∈ declare m old new) ∧ (new ≠ old → (new, old) ∈ declare m old new) := by
  unfold declare
  split_ifs with heq
  · exact ⟨h, fun e he => he, fun hne => absurd heq hne⟩
  · exact ⟨h.mapSet hmem heq, fun e he => mem_mapSet_of_mem h hsingle he hmem,
      fun _ => mem_mapSet.mpr (.inl rfl)⟩

theorem foldl_declare {names : List (String × String)}
    (hsingle : ∀ e ∈ names, ∀ d ∈ names, e.2 = d.2 → e.1 = d.1) (l : List (String × String))
    (hl : ∀ e ∈ l, e ∈ names) (m : List (String × String)) (h : Declares names m) :
    Declares names (l.foldl (fun m e => declare m e.1 e.2) m) ∧
      (∀ e ∈ m, e ∈ l.foldl (fun m e => declare m e.1 e.2) m) ∧
      ∀ e ∈ l, e.2 ≠ e.1 → (e.2, e.1) ∈ l.foldl (fun m e => declare m e.1 e.2) m := by
  induction l generalizing m with
  | nil => exact ⟨h, fun e he => he, by simp⟩
  | cons d l ih =>
    obtain ⟨hdecl, hkeep, hnew⟩ := declare_of_names h hsingle (hl d List.mem_cons_self)
    obtain ⟨hdecl', hkeep', hnew'⟩ := ih (fun e he => hl e (List.mem_cons_of_mem d he)) _ hdecl
    refine ⟨hdecl', fun e he => hkeep' e (hkeep e he), fun e he hne => ?_⟩
    obtain rfl | he := List.mem_cons.mp he
    · exact hkeep' _ (hnew hne)
    · exact hnew' e he hne

/-- The physical columns of a field: its arms, or its own column. -/
theorem renameColumns_eq {tables : List (String × String)} (hfound : TablesFound ν s tables)
    (hfol : Followed ν s) (hdecl : Declared s) (ht : t ∈ s.tables) (hf : f ∈ t.fields)
    (hr : ν.Renames t f f') (physical : List (String × String)) :
    ∃ l : List (String × String), (∀ e ∈ l, e ∈ ν.names t) ∧
      (∀ targets, arms (some f) = some targets → ∀ u ∈ targets,
        (f.name ++ "__" ++ u, ν.field t.name f.name ++ "__" ++ ν.table u) ∈ l) ∧
      renameColumns tables t f' physical = l.foldl (fun m e => declare m e.1 e.2) physical := by
  have hold := oldField_eq hfol ht hf hr
  unfold renameColumns
  rw [hold]
  dsimp only
  rw [Table.field?_eq_some.mpr ⟨hf, rfl⟩, arms_renamed hr]
  cases ha : arms (some f) with
  | none =>
    refine ⟨[(f.name, ν.field t.name f.name)], ?_, by simp, ?_⟩
    · intro e he
      rw [List.mem_singleton.mp he]
      exact Naming.mem_names_of_field hf
    · show (if f.name = f'.name then physical else mapSet physical f'.name f.name) = _
      simp only [List.foldl_cons, List.foldl_nil, declare, hr.name, eq_comm]
  | some targets =>
    refine ⟨targets.map fun u => (f.name ++ "__" ++ u, ν.field t.name f.name ++ "__" ++ ν.table u),
      ?_, ?_, ?_⟩
    · intro e he
      obtain ⟨u, hu, rfl⟩ := List.mem_map.mp he
      exact Naming.mem_names_of_arm hf ha hu
    · rintro ts ⟨rfl⟩ u hu
      exact List.mem_map_of_mem hu
    · have htargets : ∀ u ∈ targets, ∃ v ∈ s.tables, v.name = u := by
        obtain ⟨setNull, optional, hkind, -⟩ := arms_eq_some.mp ha
        exact hdecl t ht f hf targets setNull optional hkind
      dsimp only [Option.map_some]
      rw [List.foldl_map, List.foldl_map]
      refine List.foldl_ext _ _ _ fun m u hu => ?_
      obtain ⟨v, hv, rfl⟩ := htargets u hu
      dsimp only
      rw [hfound.lookup hfol hv, hr.name]
      have hcontains : targets.contains v.name = true := List.contains_iff_mem.mpr hu
      unfold declare
      rw [hcontains, Bool.true_and]
      by_cases heq : ν.field t.name f.name ++ "__" ++ ν.table v.name = f.name ++ "__" ++ v.name
      · rw [if_pos heq, if_neg (by simp [heq])]
      · rw [if_neg heq, if_pos (by simpa using heq)]

/-- What is found of a table's fields: renames, and all of them. -/
structure FieldsFound (ν : Naming) (t : Table)
    (found : List (String × String) × List (String × String)) : Prop where
  own : Declares (ν.names t) found.1
  physical : Declares (ν.names t) found.2
  mem_own : ∀ f ∈ t.fields, ν.field t.name f.name ≠ f.name →
    (ν.field t.name f.name, f.name) ∈ found.1
  mem_physical : ∀ f ∈ t.fields, ∀ targets, arms (some f) = some targets → ∀ u ∈ targets,
    ν.field t.name f.name ++ "__" ++ ν.table u ≠ f.name ++ "__" ++ u →
    (ν.field t.name f.name ++ "__" ++ ν.table u, f.name ++ "__" ++ u) ∈ found.2

theorem fields_foldlM {tables : List (String × String)} (hfound : TablesFound ν s tables)
    (h : ν.RenamesSchema s s') (hfol : Followed ν s) (hdecl : Declared s) (ht : t ∈ s.tables)
    (hrt : ν.RenamesTable t t') (l : List Field) (hl : ∀ f' ∈ l, f' ∈ t'.fields)
    (hnd : (l.map (·.name)).Nodup) (acc : List (String × String) × List (String × String))
    (hown : Declares (ν.names t) acc.1) (hphys : Declares (ν.names t) acc.2)
    (hnew : ∀ e ∈ acc.1, e.1 ∉ l.map (·.name)) :
    ∃ found, l.foldlM (renameField tables t t') acc = .ok found ∧ Declares (ν.names t) found.1 ∧
      Declares (ν.names t) found.2 ∧ (∀ e ∈ acc.1, e ∈ found.1) ∧ (∀ e ∈ acc.2, e ∈ found.2) ∧
      (∀ f' ∈ l, ∀ f ∈ t.fields, ν.Renames t f f' → f'.name ≠ f.name → (f'.name, f.name) ∈ found.1) ∧
      ∀ f' ∈ l, ∀ f ∈ t.fields, ν.Renames t f f' → ∀ targets, arms (some f) = some targets →
        ∀ u ∈ targets, ν.field t.name f.name ++ "__" ++ ν.table u ≠ f.name ++ "__" ++ u →
        (ν.field t.name f.name ++ "__" ++ ν.table u, f.name ++ "__" ++ u) ∈ found.2 := by
  have hsingle : ∀ e ∈ ν.names t, ∀ d ∈ ν.names t, e.2 = d.2 → e.1 = d.1 := fun e he d hd =>
    (hfol.single t ht e he d hd).mpr
  induction l generalizing acc with
  | nil => exact ⟨acc, rfl, hown, hphys, fun e he => he, fun e he => he, by simp, by simp⟩
  | cons f' l ih =>
    obtain ⟨hfresh, hnd'⟩ := List.nodup_cons.mp hnd
    obtain ⟨f, hf, hr⟩ := hrt.field' f' (hl f' List.mem_cons_self)
    have hl' : ∀ g' ∈ l, g' ∈ t'.fields := fun g' hg' => hl g' (List.mem_cons_of_mem f' hg')
    have hold := oldField_eq hfol ht hf hr
    have honly : ∀ g ∈ t.fields, ν.Renames t g f' → g = f := fun g hg hrg =>
      List.inj_on_of_nodup_map t.nodup hg hf
        (h.injective' t ht g hg f hf (hrg.name.symm.trans hr.name))
    obtain ⟨cols, hcols, harms, hcolsEq⟩ := renameColumns_eq hfound hfol hdecl ht hf hr acc.2
    obtain ⟨hphys', hkeep, hput⟩ := foldl_declare hsingle cols hcols acc.2 hphys
    rw [← hcolsEq] at hphys' hkeep hput
    -- the own renames after this field
    obtain ⟨hown', hkeepOwn, hputOwn⟩ := declare_of_names hown hsingle (hr.name ▸
      Naming.mem_names_of_field hf : (f.name, f'.name) ∈ ν.names t)
    have hstep : renameField tables t t' acc f' =
        .ok (declare acc.1 f.name f'.name, renameColumns tables t f' acc.2) := by
      unfold renameField declare
      rw [hold]
      dsimp only
      by_cases hname : f'.name = f.name
      · rw [if_pos hname.symm, if_pos hname]
      · have hne : ν.field t.name f.name ≠ f.name := hr.name ▸ hname
        have hunused : acc.1.any (·.2 == f.name) = false := by
          rw [List.any_eq_false]
          intro e he heq
          have hnewName : e.1 = f'.name := by
            rw [hr.name]
            exact (hfol.single t ht _ (hown e he).1 _ (Naming.mem_names_of_field hf)).mp
              (by simpa using heq)
          refine hnew e he ?_
          rw [hnewName]
          exact List.mem_cons_self
        rw [if_neg fun heq => hname heq.symm, if_neg hname, Table.has_of_mem hf,
          not_has_oldField hfol ht hrt hf hne, hunused]
        rfl
    obtain ⟨found, hfold, h1, h2, h3, h4, h5, h6⟩ := ih hl' hnd'
      (declare acc.1 f.name f'.name, renameColumns tables t f' acc.2) hown' hphys' (by
        intro e he
        unfold declare at he
        split_ifs at he
        · exact fun hmem => hnew e he (List.mem_cons_of_mem _ hmem)
        · obtain rfl | ⟨he, -⟩ := mem_mapSet.mp he
          · exact hfresh
          · exact fun hmem => hnew e he (List.mem_cons_of_mem _ hmem))
    refine ⟨found, ?_, h1, h2, fun e he => h3 e (hkeepOwn e he), fun e he => h4 e (hkeep e he), ?_, ?_⟩
    · rw [List.foldlM_cons, hstep]
      exact hfold
    · intro g' hg' g hg hrg hne
      obtain rfl | hg' := List.mem_cons.mp hg'
      · obtain rfl := honly g hg hrg
        exact h3 _ (hputOwn hne)
      · exact h5 g' hg' g hg hrg hne
    · intro g' hg' g hg hrg targets hta u hu hne
      obtain rfl | hg' := List.mem_cons.mp hg'
      · obtain rfl := honly g hg hrg
        exact h4 _ (hput _ (harms targets hta u hu) hne)
      · exact h6 g' hg' g hg hrg targets hta u hu hne

theorem fieldsFound {tables : List (String × String)} (hfound : TablesFound ν s tables)
    (h : ν.RenamesSchema s s') (hfol : Followed ν s) (hdecl : Declared s) (ht : t ∈ s.tables)
    (hrt : ν.RenamesTable t t') : ∃ found,
      t'.fields.foldlM (renameField tables t t') ([], []) = .ok found ∧ FieldsFound ν t found := by
  obtain ⟨found, hfold, h1, h2, -, -, h5, h6⟩ := fields_foldlM hfound h hfol hdecl ht hrt t'.fields
    (fun _ hf => hf) t'.nodup ([], []) (by simp [Declares]) (by simp [Declares]) (by simp)
  refine ⟨found, hfold, h1, h2, ?_, ?_⟩
  · intro f hf hne
    obtain ⟨f', hf', hr⟩ := hrt.field f hf
    rw [← hr.name] at hne ⊢
    exact h5 f' hf' f hf hr hne
  · intro f hf targets hta u hu hne
    obtain ⟨f', hf', hr⟩ := hrt.field f hf
    exact h6 f' hf' f hf hr targets hta u hu hne

theorem lookup_mapSet {α : Type} (m : List (String × α)) (k : String) (v : α) (x : String) :
    (mapSet m k v).lookup x = if x = k then some v else m.lookup x := by
  have hmap : ∀ m : List (String × α), (m.map fun e => if e.1 == k then (k, v) else e).lookup x =
      if x = k then (m.lookup x).map fun _ => v else m.lookup x := by
    intro m
    induction m with
    | nil => simp
    | cons e m ih =>
      obtain ⟨a, b⟩ := e
      rw [List.map_cons]
      by_cases hak : a = k
      · subst hak
        simp only [beq_self_eq_true, if_true]
        by_cases hx : x = a
        · subst hx
          rw [lookup_cons_self, lookup_cons_self, if_pos rfl, Option.map_some]
        · rw [lookup_cons_of_ne hx, lookup_cons_of_ne hx, ih]
      · simp only [beq_eq_false_iff_ne.mpr hak, Bool.false_eq_true, if_false]
        by_cases hx : x = a
        · subst hx
          rw [lookup_cons_self, lookup_cons_self, if_neg hak]
        · rw [lookup_cons_of_ne hx, lookup_cons_of_ne hx, ih]
  unfold mapSet
  split_ifs with hany hx hx
  · rw [hmap, if_pos hx, hx]
    obtain ⟨e, he, hek⟩ := List.any_eq_true.mp hany
    cases hl : m.lookup k with
    | none =>
      refine absurd ?_ (lookup_eq_none.mp hl e.2)
      rw [← show e.1 = k by simpa using hek]
      exact he
    | some w => rfl
  · rw [hmap, if_neg hx]
  · have hnone : m.lookup x = none := by
      rw [lookup_eq_none]
      intro w hw
      exact hany (List.any_eq_true.mpr ⟨(x, w), hw, by simp [hx]⟩)
    rw [List.lookup_append, hnone, hx, lookup_cons_self]
    rfl
  · rw [List.lookup_append, lookup_cons_of_ne hx]
    simp

/-- What `renamesOf` finds: the renamed tables, and for each table its renamed fields. -/
structure Found (ν : Naming) (s : SchemaSpec) (r : Renames) : Prop where
  tables : TablesFound ν s r.tables
  fields : ∀ t ∈ s.tables, FieldsFound ν t ((r.fields.lookup (ν.table t.name)).getD [],
    (r.columns.lookup (ν.table t.name)).getD [])

theorem renameFields_foldlM {tables : List (String × String)} (hfound : TablesFound ν s tables)
    (h : ν.RenamesSchema s s') (hfol : Followed ν s) (hdecl : Declared s) (l : List Table)
    (hl : ∀ u' ∈ l, u' ∈ s'.tables) (hnd : (l.map (·.name)).Nodup) (r : Renames)
    (hr : r.tables = tables)
    (hnew : ∀ x ∈ l.map (·.name), r.fields.lookup x = none ∧ r.columns.lookup x = none) :
    ∃ r', l.foldlM (renameFields s tables) r = .ok r' ∧ r'.tables = tables ∧
      (∀ x, x ∉ l.map (·.name) → r'.fields.lookup x = r.fields.lookup x ∧
        r'.columns.lookup x = r.columns.lookup x) ∧
      ∀ u' ∈ l, ∀ u ∈ s.tables, ν.RenamesTable u u' → FieldsFound ν u
        ((r'.fields.lookup u'.name).getD [], (r'.columns.lookup u'.name).getD []) := by
  induction l generalizing r with
  | nil => exact ⟨r, rfl, hr, fun x _ => ⟨rfl, rfl⟩, by simp⟩
  | cons u' l ih =>
    obtain ⟨hfresh, hnd'⟩ := List.nodup_cons.mp hnd
    obtain ⟨u, hu, hru⟩ := h.table' u' (hl u' List.mem_cons_self)
    have honly : ∀ v ∈ s.tables, ν.RenamesTable v u' → v = u := fun v hv hrv =>
      List.inj_on_of_nodup_map s.nodup hv hu
        (h.injective v hv u hu (hrv.name.symm.trans hru.name))
    obtain ⟨⟨own, physical⟩, hfold, hfields⟩ := fieldsFound hfound h hfol hdecl hu hru
    have hself := hnew u'.name List.mem_cons_self
    -- the renames after this table, and what they say of it and of the others
    obtain ⟨r₁, hstep, hr₁, hself₁, hother₁⟩ : ∃ r₁, renameFields s tables r u' = .ok r₁ ∧
        r₁.tables = tables ∧
        ((r₁.fields.lookup u'.name).getD [] = own ∧ (r₁.columns.lookup u'.name).getD [] = physical) ∧
        ∀ x, x ≠ u'.name → r₁.fields.lookup x = r.fields.lookup x ∧
          r₁.columns.lookup x = r.columns.lookup x := by
      refine ⟨{ r with
          fields := if own.isEmpty then r.fields else mapSet r.fields u'.name own
          columns := if physical.isEmpty then r.columns else mapSet r.columns u'.name physical },
        ?_, hr, ⟨?_, ?_⟩, ?_⟩
      · unfold renameFields
        dsimp only
        rw [hru.name, hfound.lookup hfol hu, SchemaSpec.table?_eq_some.mpr ⟨hu, rfl⟩]
        dsimp only
        rw [hfold]
        rfl
      · dsimp only
        split_ifs with hempty
        · rw [hself.1, List.isEmpty_iff.mp hempty]
          rfl
        · rw [lookup_mapSet, if_pos rfl]
          rfl
      · dsimp only
        split_ifs with hempty
        · rw [hself.2, List.isEmpty_iff.mp hempty]
          rfl
        · rw [lookup_mapSet, if_pos rfl]
          rfl
      · intro x hx
        dsimp only
        refine ⟨?_, ?_⟩
        · split_ifs
          · rfl
          · rw [lookup_mapSet, if_neg hx]
        · split_ifs
          · rfl
          · rw [lookup_mapSet, if_neg hx]
    obtain ⟨r', hfold', hr', hother, hall⟩ := ih (fun v' hv' => hl v' (List.mem_cons_of_mem u' hv'))
      hnd' r₁ hr₁ (by
        intro x hx
        have hxne : x ≠ u'.name := by
          rintro rfl
          exact hfresh hx
        rw [(hother₁ x hxne).1, (hother₁ x hxne).2]
        exact hnew x (List.mem_cons_of_mem _ hx))
    refine ⟨r', ?_, hr', ?_, ?_⟩
    · rw [List.foldlM_cons, hstep]
      exact hfold'
    · intro x hx
      have hxl : x ∉ l.map (·.name) := fun hmem => hx (List.mem_cons_of_mem _ hmem)
      have hxne : x ≠ u'.name := fun heq => hx (heq ▸ List.mem_cons_self)
      rw [(hother x hxl).1, (hother x hxl).2]
      exact hother₁ x hxne
    · intro v' hv' v hv hrv
      obtain rfl | hv' := List.mem_cons.mp hv'
      · rw [(hother v'.name hfresh).1, (hother v'.name hfresh).2, hself₁.1, hself₁.2, honly v hv hrv]
        exact hfields
      · exact hall v' hv' v hv hrv

/-- The renames of a schema under other names are found. -/
theorem renamesOf_eq (h : ν.RenamesSchema s s') (hfol : Followed ν s) (hdecl : Declared s) :
    ∃ r, renamesOf s s' = .ok r ∧ Found ν s r := by
  obtain ⟨tables, hfold, htables⟩ := tablesFound h hfol
  obtain ⟨r, hfold', hr, -, hall⟩ := renameFields_foldlM htables h hfol hdecl s'.tables
    (fun _ hu => hu) s'.nodup ⟨tables, [], []⟩ rfl (by simp)
  refine ⟨r, ?_, hr ▸ htables, fun t ht => ?_⟩
  · unfold renamesOf
    rw [hfold]
    exact hfold'
  · obtain ⟨t', ht', hrt⟩ := h.table t ht
    rw [← hrt.name]
    exact hall t' ht' t ht hrt

theorem Found.back {r : Renames} (hfound : Found ν s r) (h : ν.RenamesSchema s s')
    (hfol : Followed ν s) : (r.back.map (·.1)).Nodup ∧ (∀ e ∈ r.back, ∀ v, (e.2, v) ∉ r.back) ∧
      ∀ x, rename r.back x = ν.table x := by
  have hmem : ∀ e ∈ r.back, ∃ t ∈ s.tables, e = (t.name, ν.table t.name) ∧ ν.table t.name ≠ t.name := by
    intro e he
    obtain ⟨d, hd, rfl⟩ := List.mem_map.mp (mem_of_mem_mapOf he)
    obtain ⟨hnames, hne⟩ := hfound.tables.declares d hd
    obtain ⟨t, ht, heq⟩ := List.mem_map.mp hnames
    simp only [Prod.mk.injEq] at heq
    refine ⟨t, ht, Prod.ext heq.1.symm heq.2.symm, ?_⟩
    rw [heq.2, heq.1]
    exact hne
  have hnd : (r.back.map (·.1)).Nodup := nodup_mapOf _
  refine ⟨hnd, ?_, ?_⟩
  · intro e he v hv
    obtain ⟨t, ht, rfl, hne⟩ := hmem e he
    obtain ⟨u, hu, heq, -⟩ := hmem _ hv
    refine hfol.free t ht hne ?_
    rw [show ν.table t.name = u.name from (Prod.mk.inj heq).1]
    exact List.mem_map_of_mem hu
  · intro x
    unfold rename
    cases hl : r.back.lookup x with
    | some y =>
      obtain ⟨t, ht, heq, -⟩ := hmem _ ((lookup_eq_some hnd).mp hl)
      simp only [Prod.mk.injEq] at heq
      rw [heq.1, ← heq.2]
      rfl
    | none =>
      by_contra hne
      have hx : x ∈ s.tables.map (·.name) := by
        by_contra hx
        exact hne (h.other x hx).symm
      obtain ⟨t, ht, rfl⟩ := List.mem_map.mp hx
      obtain ⟨v, hv⟩ := exists_mem_mapOf
        (List.mem_map.mpr ⟨_, hfound.tables.mem t ht fun heq => hne heq.symm, rfl⟩)
      exact lookup_eq_none.mp hl v hv

/-- A name of the table has one new name. -/
theorem column_eq_of_mem (hfol : Followed ν s) (ht : t ∈ s.tables) {x y : String}
    (hmem : (x, y) ∈ ν.names t) : ν.column t x = y := by
  unfold Naming.column rename
  cases hl : (ν.names t).lookup x with
  | none => exact absurd hmem (lookup_eq_none.mp hl y)
  | some z =>
    have hz : (x, z) ∈ ν.names t := by
      have hlook := List.lookup_eq_some_iff.mp hl
      obtain ⟨l, l', heq, -⟩ := hlook
      rw [heq]
      simp
    exact (hfol.single t ht _ hz _ hmem).mp rfl

theorem Found.fieldsOf {r : Renames} (hfound : Found ν s r) (hfol : Followed ν s) (ht : t ∈ s.tables) :
    ((r.fieldsOf (ν.table t.name)).map (·.1)).Nodup ∧
      (∀ e ∈ r.fieldsOf (ν.table t.name), ∀ v, (e.2, v) ∉ r.fieldsOf (ν.table t.name)) ∧
      ∀ x, rename (r.fieldsOf (ν.table t.name)) x = ν.column t x := by
  have hf := hfound.fields t ht
  have hmem : ∀ e ∈ r.fieldsOf (ν.table t.name), e ∈ ν.names t ∧ e.2 ≠ e.1 := by
    intro e he
    obtain ⟨d, hd, rfl⟩ := List.mem_map.mp (mem_of_mem_mapOf he)
    obtain hd | hd := List.mem_append.mp hd
    · exact hf.own d hd
    · exact hf.physical d hd
  have hkey : ∀ e ∈ ν.names t, e.2 ≠ e.1 → ∃ v, (e.1, v) ∈ r.fieldsOf (ν.table t.name) := by
    intro e he hne
    obtain ⟨f, hfm, rfl | ⟨targets, hta, u, hu, rfl⟩⟩ := Naming.mem_names he
    · exact exists_mem_mapOf (List.mem_map.mpr
        ⟨_, List.mem_append_left _ (hf.mem_own f hfm hne), rfl⟩)
    · exact exists_mem_mapOf (List.mem_map.mpr
        ⟨_, List.mem_append_right _ (hf.mem_physical f hfm targets hta u hu hne), rfl⟩)
  have hnd : ((r.fieldsOf (ν.table t.name)).map (·.1)).Nodup := nodup_mapOf _
  refine ⟨hnd, ?_, ?_⟩
  · intro e he v hv
    exact hfol.free' t ht e (hmem e he).1 (hmem e he).2 (List.mem_map.mpr ⟨_, (hmem _ hv).1, rfl⟩)
  · intro x
    unfold rename
    cases hl : (r.fieldsOf (ν.table t.name)).lookup x with
    | some y => exact (column_eq_of_mem hfol ht (hmem _ ((lookup_eq_some hnd).mp hl)).1).symm
    | none =>
      show x = ν.column t x
      by_cases hx : ∃ y, (x, y) ∈ ν.names t
      · obtain ⟨y, hy⟩ := hx
        rw [column_eq_of_mem hfol ht hy]
        by_contra hne
        obtain ⟨v, hv⟩ := hkey _ hy fun heq => hne heq.symm
        exact lookup_eq_none.mp hl v hv
      · have hnone : (ν.names t).lookup x = none :=
          lookup_eq_none.mpr fun v hv => hx ⟨v, hv⟩
        unfold Naming.column rename
        rw [hnone]
        rfl

end

end Norbital.Store.Schema

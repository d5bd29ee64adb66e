import Mathlib.Data.Finset.Sort
import Mathlib.Data.String.Basic
import Norbital.Lib.Sweeps
import Norbital.Std.Kind

/-!
# Affected tables

The tables a commit can change (`affectedTables` and `rollups`, `bolt/src/engine/write/commit.ts`),
against what the writes, the foreign keys' referential actions (`store/src/schema/ddl.ts`) and the
roll-up updates do to the stored rows.
-/

namespace Norbital.Bolt.Affected

open Norbital.Lib
open Norbital.Std (Json)

inductive OnDelete where
  | restrict
  | cascade
  | setNull
  deriving DecidableEq, Repr

structure ForeignKey where
  table : String
  column : String
  target : String
  onDelete : OnDelete
  deriving DecidableEq, Repr

/-- One entry of the relationships, `<model>.<fk>`. -/
structure Relation where
  model : String
  fk : String
  targets : List String
  inverse : Option String := none
  onDelete : Option OnDelete := none
  owned : Bool := false
  deriving DecidableEq, Repr

/-- `relation.spec.onDelete ?? (relation.spec.owned === true ? 'cascade' : 'restrict')`. -/
def Relation.action (r : Relation) : OnDelete := r.onDelete.getD (if r.owned then .cascade else .restrict)

/-- A polymorphic reference has a column for each target. -/
def Relation.column (r : Relation) (target : String) : String :=
  if 1 < r.targets.length then r.fk ++ "__" ++ target else r.fk

def Relation.foreignKeys (r : Relation) : List ForeignKey :=
  r.targets.map fun target => ⟨r.model, r.column target, target, r.action⟩

inductive FieldKind where
  | sum (relation field : String)
  | count (relation : String)
  | stored
  deriving DecidableEq, Repr

/-- The relation a roll-up reads. -/
def FieldKind.of : FieldKind → Option String
  | .sum relation _ => some relation
  | .count relation => some relation
  | .stored => none

structure Rollup where
  field : String
  kind : FieldKind
  child : String
  fk : String
  deriving DecidableEq, Repr

/-- The engine's own tables that refer to a built-in model (`schema/engine.ts`). -/
def engineKeys : List ForeignKey :=
  [⟨"bolt_push_subscriptions", "user", "sys_user", .cascade⟩,
   ⟨"bolt_credential", "instance", "sys_integration", .cascade⟩]

def engineTables : List String := engineKeys.map ForeignKey.table

/-- The many-relation of a model by its name: the last of the references declared with this inverse. -/
def many (relationships : List Relation) (model name : String) : Option Relation :=
  relationships.reverse.find? fun r => r.inverse == some name && r.targets.contains model

/--
The workspace's models and relationships with the built-in layer's.  A reference joins
declared models, a roll-up reads a declared relation, and the engine's names are reserved.
-/
structure EngineManifest where
  models : List (String × List (String × FieldKind))
  relationships : List Relation
  declared : ∀ r ∈ relationships, r.model ∈ models.map Prod.fst ∧ ∀ t ∈ r.targets, t ∈ models.map Prod.fst
  resolved : ∀ x ∈ models, ∀ k ∈ x.2, ∀ name ∈ k.2.of, (many relationships x.1 name).isSome
  reserved : ∀ name ∈ models.map Prod.fst, name ∉ engineTables

namespace EngineManifest

variable (m : EngineManifest)

def tables : List String := m.models.map Prod.fst

def foreignKeys : List ForeignKey := m.relationships.flatMap Relation.foreignKeys

def fields (model : String) : List (String × FieldKind) := (m.models.lookup model).getD []

def rollup (model : String) (field : String × FieldKind) : Option Rollup :=
  field.2.of.bind fun name =>
    (many m.relationships model name).map fun r => ⟨field.1, field.2, r.model, r.column model⟩

/-- `rollups`. -/
def rollups (model : String) : List Rollup := (m.fields model).filterMap (m.rollup model)

end EngineManifest

/-- The built-in layer (`src/system`), without a workspace. -/
def system : EngineManifest where
  models := ["approval_request", "requestor", "sys_api_key", "sys_challenge", "sys_config", "sys_conversation", "sys_envoy",
    "sys_file", "sys_inbox", "sys_integration", "sys_invitation", "sys_message", "sys_notification", "sys_outbox", "sys_run",
    "sys_session", "sys_sync", "sys_sync_row", "sys_user"].map fun name => (name, [])
  relationships :=
    [{ model := "requestor", fk := "approval_request_id", targets := ["approval_request"] },
     { model := "sys_api_key", fk := "created_by", targets := ["sys_user"] },
     { model := "sys_conversation", fk := "integration", targets := ["sys_integration"], onDelete := some .cascade },
     { model := "sys_inbox", fk := "instance", targets := ["sys_integration"], onDelete := some .cascade },
     { model := "sys_integration", fk := "owner", targets := ["sys_user"] },
     { model := "sys_invitation", fk := "invited_by", targets := ["sys_user"] },
     { model := "sys_message", fk := "integration", targets := ["sys_integration"], onDelete := some .cascade },
     { model := "sys_outbox", fk := "instance", targets := ["sys_integration"], onDelete := some .cascade },
     { model := "sys_outbox", fk := "writer", targets := ["sys_user"], onDelete := some .setNull },
     { model := "sys_session", fk := "impersonated_by", targets := ["sys_user"] },
     { model := "sys_session", fk := "user", targets := ["sys_user"], onDelete := some .cascade },
     { model := "sys_sync", fk := "instance", targets := ["sys_integration"], onDelete := some .cascade },
     { model := "sys_sync_row", fk := "instance", targets := ["sys_integration"], onDelete := some .cascade }]
  declared := by decide
  resolved := by simp
  reserved := by decide

inductive Write where
  | create (model id : String)
  | update (model id : String)
  | delete (model id : String)
  deriving DecidableEq, Repr

def Write.model : Write → String
  | .create model _ => model
  | .update model _ => model
  | .delete model _ => model

def Write.deleted : Write → Option String
  | .delete model _ => some model
  | _ => none

/-- The sets the loop adds to, and whether the round has. -/
structure Marks where
  affected : Finset String
  deleted : Finset String
  changed : Bool
  deriving DecidableEq

namespace Marks

def affect (s : Marks) (table : String) : Marks :=
  if table ∈ s.affected then s else { s with affected := insert table s.affected, changed := true }

def delete (s : Marks) (table : String) : Marks :=
  if table ∈ s.deleted then s else { s with deleted := insert table s.deleted, changed := true }

def size (s : Marks) : ℕ := s.affected.card + s.deleted.card

def start (writes : List Write) : Marks :=
  ⟨(writes.map Write.model).toFinset, (writes.filterMap Write.deleted).toFinset, false⟩

/-- One relation of the loop's body. -/
def refer (s : Marks) (r : Relation) : Marks :=
  if r.targets.any (· ∈ s.deleted) then
    match r.action with
    | .restrict => s
    | .setNull => s.affect r.model
    -- the referring rows go too, and with them the rows that refer to those
    | .cascade => (s.affect r.model).delete r.model
  else s

/-- One model of the loop's body. -/
def derive (m : EngineManifest) (s : Marks) (table : String) : Marks :=
  if table ∉ s.affected ∧ (m.rollups table).any (·.child ∈ s.affected) then s.affect table else s

def round (m : EngineManifest) (s : Marks) : Marks :=
  -- the roll-ups read the sets as the references have just left them
  m.tables.foldl (derive m) (m.relationships.foldl refer { s with changed := false })

end Marks

/-- The tables in order, once a round changes nothing: nothing when the fuel ends first. -/
def affectedTables (fuel : ℕ) (m : EngineManifest) (writes : List Write) : Option (List String) :=
  (untilQuiet (Marks.round m) Marks.changed fuel (Marks.start writes)).map fun s => s.affected.sort (· ≤ ·)

namespace Marks

/-- The state itself, or a change with more marks. -/
def Grows (s s' : Marks) : Prop := s' = s ∨ s'.changed = true ∧ s.size < s'.size

theorem Grows.trans {s s' s'' : Marks} (h : Grows s s') (h' : Grows s' s'') : Grows s s'' := by
  obtain rfl | ⟨hc, hs⟩ := h
  · exact h'
  · obtain rfl | ⟨hc', hs'⟩ := h'
    · exact .inr ⟨hc, hs⟩
    · exact .inr ⟨hc', by omega⟩

theorem affect_grows (s : Marks) (table : String) : Grows s (s.affect table) := by
  rw [affect]
  split
  · exact .inl rfl
  · next h =>
    refine .inr ⟨rfl, ?_⟩
    show s.size < (insert table s.affected).card + s.deleted.card
    rw [Finset.card_insert_of_notMem h, size]
    omega

theorem delete_grows (s : Marks) (table : String) : Grows s (s.delete table) := by
  rw [delete]
  split
  · exact .inl rfl
  · next h =>
    refine .inr ⟨rfl, ?_⟩
    show s.size < s.affected.card + (insert table s.deleted).card
    rw [Finset.card_insert_of_notMem h, size]
    omega

theorem mem_affected_affect (s : Marks) (table : String) : table ∈ (s.affect table).affected := by
  rw [affect]
  split
  · assumption
  · exact Finset.mem_insert_self table s.affected

theorem mem_deleted_delete (s : Marks) (table : String) : table ∈ (s.delete table).deleted := by
  rw [delete]
  split
  · assumption
  · exact Finset.mem_insert_self table s.deleted

@[simp]
theorem affected_delete (s : Marks) (table : String) : (s.delete table).affected = s.affected := by
  rw [delete]
  split <;> rfl

theorem refer_marking : Marking refer changed size := by
  intro s r
  rw [refer]
  split
  · cases r.action with
    | restrict => exact .inl rfl
    | setNull => exact affect_grows s r.model
    | cascade => exact (affect_grows s r.model).trans (delete_grows _ r.model)
  · exact .inl rfl

theorem derive_marking (m : EngineManifest) : Marking (derive m) changed size := by
  intro s table
  rw [derive]
  split
  · exact affect_grows s table
  · exact .inl rfl

/-- A quiet round has left the sets at every relation and every model. -/
theorem round_quiet {m : EngineManifest} {s : Marks} (h : (round m s).changed = false) :
    round m s = { s with changed := false } ∧
      (∀ r ∈ m.relationships, refer (round m s) r = round m s) ∧ ∀ t ∈ m.tables, derive m (round m s) t = round m s := by
  obtain ⟨hderive, hderives⟩ := (derive_marking m).quiet h
  have hq : (m.relationships.foldl refer { s with changed := false }).changed = false := by
    rw [← hderive]
    exact h
  obtain ⟨hrefer, hrefers⟩ := refer_marking.quiet hq
  have hround : round m s = { s with changed := false } := hderive.trans hrefer
  rw [hrefer] at hderives
  rw [hround]
  exact ⟨rfl, hrefers, hderives⟩

theorem size_lt_round {m : EngineManifest} {s : Marks} (h : (round m s).changed = true) : s.size < (round m s).size := by
  have hle : s.size ≤ (m.relationships.foldl refer { s with changed := false }).size :=
    refer_marking.size_le { s with changed := false } m.relationships
  cases hc : (m.relationships.foldl refer { s with changed := false }).changed with
  | false => exact Nat.lt_of_le_of_lt hle ((derive_marking m).size_lt hc h)
  | true =>
    have hlt : s.size < (m.relationships.foldl refer { s with changed := false }).size :=
      refer_marking.size_lt (s := { s with changed := false }) rfl hc
    exact Nat.lt_of_lt_of_le hlt ((derive_marking m).size_le _ m.tables)

/-- What the loop keeps: the sets hold what they started with, and only written or declared tables. -/
structure Within (m : EngineManifest) (writes : List Write) (s : Marks) : Prop where
  affected_start : (start writes).affected ⊆ s.affected
  deleted_start : (start writes).deleted ⊆ s.deleted
  affected_subset : s.affected ⊆ (start writes).affected ∪ m.tables.toFinset
  deleted_subset : s.deleted ⊆ (start writes).affected ∪ m.tables.toFinset

namespace Within

variable {m : EngineManifest} {writes : List Write} {s : Marks}

theorem start : Within m writes (start writes) where
  affected_start := Finset.Subset.refl _
  deleted_start := Finset.Subset.refl _
  affected_subset := Finset.subset_union_left
  deleted_subset := by
    intro t ht
    obtain ⟨w, hw, hd⟩ := List.mem_filterMap.mp (List.mem_toFinset.mp ht)
    refine Finset.mem_union_left _ (List.mem_toFinset.mpr (List.mem_map.mpr ⟨w, hw, ?_⟩))
    cases w with
    | delete model id => exact Option.some.inj hd
    | create model id => cases hd
    | update model id => cases hd

theorem affect (h : Within m writes s) {table : String} (ht : table ∈ m.tables) : Within m writes (s.affect table) := by
  rw [Marks.affect]
  split
  · exact h
  · refine ⟨h.affected_start.trans (Finset.subset_insert _ _), h.deleted_start, ?_, h.deleted_subset⟩
    exact Finset.insert_subset (Finset.mem_union_right _ (List.mem_toFinset.mpr ht)) h.affected_subset

theorem delete (h : Within m writes s) {table : String} (ht : table ∈ m.tables) : Within m writes (s.delete table) := by
  rw [Marks.delete]
  split
  · exact h
  · refine ⟨h.affected_start, h.deleted_start.trans (Finset.subset_insert _ _), h.affected_subset, ?_⟩
    exact Finset.insert_subset (Finset.mem_union_right _ (List.mem_toFinset.mpr ht)) h.deleted_subset

theorem refer (h : Within m writes s) {r : Relation} (hr : r ∈ m.relationships) : Within m writes (s.refer r) := by
  have ht : r.model ∈ m.tables := (m.declared r hr).1
  rw [Marks.refer]
  split
  · cases r.action with
    | restrict => exact h
    | setNull => exact h.affect ht
    | cascade => exact (h.affect ht).delete ht
  · exact h

theorem derive (h : Within m writes s) {table : String} (ht : table ∈ m.tables) : Within m writes (s.derive m table) := by
  rw [Marks.derive]
  split
  · exact h.affect ht
  · exact h

theorem round (h : Within m writes s) : Within m writes (s.round m) := by
  have hquiet : Within m writes { s with changed := false } :=
    ⟨h.affected_start, h.deleted_start, h.affected_subset, h.deleted_subset⟩
  refine List.foldlRecOn m.tables _ ?_ fun _ hs _ ht => hs.derive ht
  exact List.foldlRecOn m.relationships _ hquiet fun _ hs _ hr => hs.refer hr

theorem size_le (h : Within m writes s) :
    s.size ≤ 2 * ((Marks.start writes).affected ∪ m.tables.toFinset).card := by
  have ha := Finset.card_le_card h.affected_subset
  have hd := Finset.card_le_card h.deleted_subset
  rw [size]
  omega

end Within

/-- Sets to which neither the writes, nor a reference, nor a roll-up adds a table. -/
structure Closed (m : EngineManifest) (writes : List Write) (s : Marks) : Prop where
  written : ∀ w ∈ writes, w.model ∈ s.affected
  removed : ∀ w ∈ writes, ∀ t ∈ w.deleted, t ∈ s.deleted
  refers : ∀ r ∈ m.relationships, ∀ t ∈ r.targets, t ∈ s.deleted → r.action ≠ .restrict → r.model ∈ s.affected
  cascades : ∀ r ∈ m.relationships, ∀ t ∈ r.targets, t ∈ s.deleted → r.action = .cascade → r.model ∈ s.deleted
  derives : ∀ t, ∀ r ∈ m.rollups t, r.child ∈ s.affected → t ∈ s.affected

/-- A relation that leaves the sets has nothing to add to them. -/
theorem mem_of_refer_eq {s : Marks} {r : Relation} (h : s.refer r = s) {t : String} (ht : t ∈ r.targets)
    (hd : t ∈ s.deleted) :
    (r.action ≠ .restrict → r.model ∈ s.affected) ∧ (r.action = .cascade → r.model ∈ s.deleted) := by
  have hany : r.targets.any (· ∈ s.deleted) = true := List.any_eq_true.mpr ⟨t, ht, decide_eq_true hd⟩
  rw [refer, if_pos hany] at h
  cases ha : r.action with
  | restrict => exact ⟨fun hr => absurd rfl hr, nofun⟩
  | setNull =>
    rw [ha] at h
    change s.affect r.model = s at h
    refine ⟨fun _ => ?_, nofun⟩
    have hmem := mem_affected_affect s r.model
    rwa [h] at hmem
  | cascade =>
    rw [ha] at h
    change (s.affect r.model).delete r.model = s at h
    refine ⟨fun _ => ?_, fun _ => ?_⟩
    · have hmem := mem_affected_affect s r.model
      rwa [← affected_delete (s.affect r.model) r.model, h] at hmem
    · have hmem := mem_deleted_delete (s.affect r.model) r.model
      rwa [h] at hmem

theorem mem_of_derive_eq {m : EngineManifest} {s : Marks} {t : String} (h : s.derive m t = s) {r : Rollup}
    (hr : r ∈ m.rollups t) (hc : r.child ∈ s.affected) : t ∈ s.affected := by
  by_contra ht
  have hany : (m.rollups t).any (·.child ∈ s.affected) = true := List.any_eq_true.mpr ⟨r, hr, decide_eq_true hc⟩
  rw [derive, if_pos ⟨ht, hany⟩] at h
  have hmem := mem_affected_affect s t
  rw [h] at hmem
  exact ht hmem

end Marks

theorem EngineManifest.mem_tables_of_rollup {m : EngineManifest} {t : String} {r : Rollup} (h : r ∈ m.rollups t) :
    t ∈ m.tables := by
  by_contra ht
  have hl : m.models.lookup t = none := by
    rw [List.lookup_eq_none_iff]
    intro x hx
    rw [bne_iff_ne]
    rintro rfl
    exact ht (List.mem_map_of_mem hx)
  rw [EngineManifest.rollups, EngineManifest.fields, hl] at h
  cases h

theorem Marks.Within.closed {m : EngineManifest} {writes : List Write} {s : Marks} (h : Within m writes s)
    (hq : (s.round m).changed = false) : Closed m writes (s.round m) := by
  obtain ⟨-, hrefers, hderives⟩ := round_quiet hq
  have hround := h.round
  exact {
    written := fun w hw => hround.affected_start (List.mem_toFinset.mpr (List.mem_map_of_mem hw))
    removed := fun w hw t ht => hround.deleted_start (List.mem_toFinset.mpr (List.mem_filterMap.mpr ⟨w, hw, ht⟩))
    refers := fun r hr t ht hd => (mem_of_refer_eq (hrefers r hr) ht hd).1
    cascades := fun r hr t ht hd => (mem_of_refer_eq (hrefers r hr) ht hd).2
    derives := fun t r hr hc => mem_of_derive_eq (hderives t (EngineManifest.mem_tables_of_rollup hr)) hr hc }

/-- With enough fuel the loop ends, and the tables it returns are those of closed sets. -/
theorem affectedTables_returns (m : EngineManifest) (writes : List Write) :
    ∃ s, Marks.Closed m writes s ∧ ∃ n, ∀ fuel ≥ n, affectedTables fuel m writes = some (s.affected.sort (· ≤ ·)) := by
  let bound := 2 * ((Marks.start writes).affected ∪ m.tables.toFinset).card
  have hbound (s : Marks) (hs : s.Within m writes) : s.size ≤ bound := hs.size_le
  have hroom : bound < (Marks.start writes).size + (bound + 1) := by omega
  obtain ⟨r, hr⟩ := untilQuiet_ends (fun _ hs => Marks.Within.round hs) (fun _ => Marks.size_lt_round) hbound
    Marks.Within.start hroom
  obtain ⟨last, hlast, rfl, hq⟩ := untilQuiet_spec (fun _ hs => Marks.Within.round hs) Marks.Within.start hr
  refine ⟨last.round m, hlast.closed hq, bound + 1, fun fuel hfuel => ?_⟩
  rw [affectedTables, untilQuiet_of_le hfuel hr, Option.map_some]

structure Row where
  id : String
  refs : String → Option String
  values : List (String × Json)

inductive Change where
  | insert (table : String) (new : Row)
  | update (table : String) (old new : Row)
  | delete (table : String) (old : Row)

namespace Change

def table : Change → String
  | .insert table _ => table
  | .update table _ _ => table
  | .delete table _ => table

/-- The old and the new image. -/
def images : Change → List Row
  | .insert _ new => [new]
  | .update _ old new => [old, new]
  | .delete _ old => [old]

def on : Change → List Row → List Row
  | .insert _ new, rows => rows ++ [new]
  | .update _ old new, rows => rows.map fun row => if row.id = old.id then new else row
  | .delete _ old, rows => rows.filter fun row => row.id ≠ old.id

end Change

/-- The stored rows of every table, and the changes the commit has made to them. -/
structure Store where
  rows : String → List Row
  changes : List Change

def Store.record (s : Store) (c : Change) : Store :=
  ⟨Function.update s.rows c.table (c.on (s.rows c.table)), s.changes ++ [c]⟩

/-- What a commit can change next: a row it writes, a row that refers to one it deleted, a parent of one it changed. -/
inductive Causes (m : EngineManifest) (writes : List Write) (s : Store) : Change → Prop where
  | create {model : String} {new : Row} (written : .create model new.id ∈ writes) : Causes m writes s (.insert model new)
  | update {model : String} {old new : Row} (written : .update model old.id ∈ writes)
      (stored : old ∈ s.rows model) (same : new.id = old.id) : Causes m writes s (.update model old new)
  | delete {model : String} {old : Row} (written : .delete model old.id ∈ writes)
      (stored : old ∈ s.rows model) : Causes m writes s (.delete model old)
  | cascade {key : ForeignKey} {parent row : Row} (declared : key ∈ m.foreignKeys ++ engineKeys)
      (action : key.onDelete = .cascade) (gone : .delete key.target parent ∈ s.changes)
      (stored : row ∈ s.rows key.table) (refers : row.refs key.column = some parent.id) :
      Causes m writes s (.delete key.table row)
  | setNull {key : ForeignKey} {parent row : Row} (declared : key ∈ m.foreignKeys ++ engineKeys)
      (action : key.onDelete = .setNull) (gone : .delete key.target parent ∈ s.changes)
      (stored : row ∈ s.rows key.table) (refers : row.refs key.column = some parent.id) (values : List (String × Json)) :
      Causes m writes s (.update key.table row ⟨row.id, Function.update row.refs key.column none, values⟩)
  | rollup {table : String} {r : Rollup} {change : Change} {image row : Row} (declared : r ∈ m.rollups table)
      (made : change ∈ s.changes) (child : change.table = r.child) (image_mem : image ∈ change.images)
      (stored : row ∈ s.rows table) (refers : image.refs r.fk = some row.id) (values : List (String × Json)) :
      Causes m writes s (.update table row ⟨row.id, row.refs, values⟩)

/-- The states a commit of the writes can bring the stored rows to, in whatever order it acts. -/
inductive Reaches (m : EngineManifest) (writes : List Write) (rows : String → List Row) : Store → Prop where
  | start : Reaches m writes rows ⟨rows, []⟩
  | step {s : Store} {c : Change} (before : Reaches m writes rows s) (cause : Causes m writes s c) :
      Reaches m writes rows (s.record c)

section Runs

variable {m : EngineManifest} {writes : List Write} {marks : Marks}

/-- The sets cover a change: its table, and where it deletes, as a table with deletes. -/
def Covers (marks : Marks) (c : Change) : Prop :=
  (c.table ∈ marks.affected ∨ c.table ∈ engineTables) ∧
    ∀ table row, c = .delete table row → table ∈ marks.deleted ∨ table ∈ engineTables

theorem mem_foreignKeys {key : ForeignKey} :
    key ∈ m.foreignKeys ↔ ∃ r ∈ m.relationships, ∃ t ∈ r.targets, key = ⟨r.model, r.column t, t, r.action⟩ := by
  simp only [EngineManifest.foreignKeys, Relation.foreignKeys, List.mem_flatMap, List.mem_map, eq_comm]

theorem EngineManifest.not_engine {t : String} (h : t ∈ m.tables) : t ∉ engineTables := m.reserved t h

/-- A roll-up's child is a declared model. -/
theorem EngineManifest.child_mem_tables {t : String} {r : Rollup} (h : r ∈ m.rollups t) : r.child ∈ m.tables := by
  obtain ⟨field, -, hr⟩ := List.mem_filterMap.mp h
  obtain ⟨name, -, hr⟩ := Option.bind_eq_some_iff.mp hr
  obtain ⟨relation, hfind, rfl⟩ := Option.map_eq_some_iff.mp hr
  have hmem : relation ∈ m.relationships := List.mem_reverse.mp (List.mem_of_find?_eq_some hfind)
  exact (m.declared relation hmem).1

/-- Deletes reach, through a key that is no `restrict`, tables that are marked. -/
theorem Marks.Closed.key (h : marks.Closed m writes) {key : ForeignKey} (hkey : key ∈ m.foreignKeys ++ engineKeys)
    {parent : Row} (hgone : Covers marks (.delete key.target parent)) :
    (key.onDelete ≠ .restrict → key.table ∈ marks.affected ∨ key.table ∈ engineTables) ∧
      (key.onDelete = .cascade → key.table ∈ marks.deleted ∨ key.table ∈ engineTables) := by
  obtain hkey | hkey := List.mem_append.mp hkey
  · obtain ⟨r, hr, t, ht, rfl⟩ := mem_foreignKeys.mp hkey
    have hdeleted : t ∈ marks.deleted := by
      obtain hd | he := hgone.2 t parent rfl
      · exact hd
      · exact absurd he (EngineManifest.not_engine ((m.declared r hr).2 t ht))
    exact ⟨fun ha => .inl (h.refers r hr t ht hdeleted ha), fun ha => .inl (h.cascades r hr t ht hdeleted ha)⟩
  · have he : key.table ∈ engineTables := List.mem_map_of_mem hkey
    exact ⟨fun _ => .inr he, fun _ => .inr he⟩

/-- The step: what covered changes cause is covered. -/
theorem Marks.Closed.covers (h : marks.Closed m writes) {s : Store} (hs : ∀ c ∈ s.changes, Covers marks c) {c : Change}
    (hc : Causes m writes s c) : Covers marks c := by
  cases hc with
  | create written => exact ⟨.inl (h.written _ written), nofun⟩
  | update written _ _ => exact ⟨.inl (h.written _ written), nofun⟩
  | delete written _ =>
    refine ⟨.inl (h.written _ written), ?_⟩
    rintro table row ⟨⟩
    exact .inl (h.removed _ written _ rfl)
  | cascade declared action gone _ _ =>
    have hkey := h.key declared (hs _ gone)
    refine ⟨hkey.1 (by rw [action]; decide), ?_⟩
    rintro table row ⟨⟩
    exact hkey.2 action
  | setNull declared action gone _ _ values =>
    exact ⟨(h.key declared (hs _ gone)).1 (by rw [action]; decide), nofun⟩
  | rollup declared made child _ _ _ values =>
    -- an engine table has no parent that rolls it up
    refine ⟨.inl (h.derives _ _ declared ?_), nofun⟩
    obtain ha | he := (hs _ made).1
    · rwa [child] at ha
    · rw [child] at he
      exact absurd he (EngineManifest.not_engine (EngineManifest.child_mem_tables declared))

theorem Reaches.covers (h : marks.Closed m writes) {rows : String → List Row} {s : Store}
    (hs : Reaches m writes rows s) :
    ∀ c ∈ s.changes, Covers marks c := by
  induction hs with
  | start => exact fun c hc => absurd hc List.not_mem_nil
  | step _ cause ih =>
    intro c hc
    obtain hc | hc := List.mem_append.mp hc
    · exact ih c hc
    · rw [List.mem_singleton] at hc
      subst hc
      exact h.covers ih cause

/-- A table without a change keeps its rows. -/
theorem Reaches.rows_eq {rows : String → List Row} {s : Store} (hs : Reaches m writes rows s) {t : String}
    (ht : ∀ c ∈ s.changes, c.table ≠ t) : s.rows t = rows t := by
  induction hs with
  | start => rfl
  | @step s c _ _ ih =>
    have hc : t ≠ c.table := (ht c (List.mem_append_right _ (List.mem_singleton_self c))).symm
    show Function.update s.rows c.table _ t = rows t
    rw [Function.update_of_ne hc]
    exact ih fun c' hc' => ht c' (List.mem_append_left _ hc')

end Runs

theorem mem_of_affectedTables {m : EngineManifest} {writes : List Write} {fuel : ℕ} {tables : List String}
    (h : affectedTables fuel m writes = some tables) {t : String} (ht : t ∈ tables) :
    t ∈ writes.map Write.model ∨ t ∈ m.tables := by
  obtain ⟨s, hs, rfl⟩ := Option.map_eq_some_iff.mp h
  obtain ⟨last, hlast, rfl, -⟩ := untilQuiet_spec (fun _ hs => Marks.Within.round hs) Marks.Within.start hs
  have hmem := hlast.round.affected_subset ((Finset.mem_sort _).mp ht)
  rw [Finset.mem_union, List.mem_toFinset] at hmem
  exact hmem.imp List.mem_toFinset.mp id

/-- The loop ends, and whatever rows are stored, a commit changes no table of the manifest but those it returns.  Where
the writes are of the manifest's models, none of the engine's tables is among these. -/
theorem affectedTables_covers (m : EngineManifest) (writes : List Write) :
    ∃ tables, (∃ n, ∀ fuel ≥ n, affectedTables fuel m writes = some tables) ∧
      (∀ rows s, Reaches m writes rows s →
        (∀ c ∈ s.changes, c.table ∉ engineTables → c.table ∈ tables) ∧
        ∀ t ∉ engineTables, s.rows t ≠ rows t → t ∈ tables) ∧
      ((∀ w ∈ writes, w.model ∈ m.tables) → ∀ t ∈ engineTables, t ∉ tables) := by
  obtain ⟨marks, hclosed, hends⟩ := affectedTables_returns m writes
  obtain ⟨n, hn⟩ := id hends
  refine ⟨_, hends, fun rows s hs => ?_, fun hwrites t he ht => ?_⟩
  swap
  · obtain hwritten | hmodel := mem_of_affectedTables (hn n (Nat.le_refl n)) ht
    · obtain ⟨w, hw, rfl⟩ := List.mem_map.mp hwritten
      exact m.not_engine (hwrites w hw) he
    · exact m.not_engine hmodel he
  have hchanges : ∀ c ∈ s.changes, c.table ∉ engineTables → c.table ∈ marks.affected.sort (· ≤ ·) := by
    intro c hc he
    obtain ha | ha := (hs.covers hclosed c hc).1
    · exact (Finset.mem_sort _).mpr ha
    · exact absurd ha he
  refine ⟨hchanges, fun t he hne => ?_⟩
  by_contra ht
  refine hne (hs.rows_eq fun c hc => ?_)
  rintro rfl
  exact ht (hchanges c hc he)

/-- A user's sessions go with the user, and the commit that deletes the user lists them. -/
theorem affectedTables_covers_sessions :
    ∃ tables, (∃ n, ∀ fuel ≥ n, affectedTables fuel system [.delete "sys_user" "ada"] = some tables) ∧
      "sys_session" ∈ tables ∧ "bolt_push_subscriptions" ∉ tables := by
  obtain ⟨tables, hends, hall, hengine⟩ := affectedTables_covers system [.delete "sys_user" "ada"]
  let user : Row := ⟨"ada", fun _ => none, []⟩
  let session : Row := ⟨"s1", fun column => if column = "user" then some "ada" else none, []⟩
  let rows : String → List Row := fun table =>
    if table = "sys_user" then [user] else if table = "sys_session" then [session] else []
  have hdelete : Reaches system [.delete "sys_user" "ada"] rows (Store.record ⟨rows, []⟩ (.delete "sys_user" user)) :=
    .step .start (.delete (List.mem_singleton_self _) (List.mem_singleton_self user))
  have hkey : (⟨"sys_session", "user", "sys_user", .cascade⟩ : ForeignKey) ∈ system.foreignKeys ++ engineKeys := by decide
  have hgone : .delete "sys_user" user ∈ [Change.delete "sys_user" user] := List.mem_singleton_self _
  have hcascade := hdelete.step (.cascade hkey rfl hgone (List.mem_singleton_self session) rfl)
  exact ⟨tables, hends, (hall rows _ hcascade).1 _ (List.mem_append_right _ (List.mem_singleton_self _)) (by decide),
    hengine (by decide) _ (by decide)⟩

/-- Deleting an integration deletes its sealed credentials, in a table the commit does not list. -/
theorem credentials_unlisted :
    ¬ ∀ (m : EngineManifest) (writes : List Write), ∃ tables, (∃ n, ∀ fuel ≥ n, affectedTables fuel m writes = some tables) ∧
      ∀ rows s, Reaches m writes rows s → ∀ c ∈ s.changes, c.table ∈ tables := by
  intro h
  obtain ⟨tables, ⟨n, hn⟩, hall⟩ := h system [.delete "sys_integration" "crm"]
  let integration : Row := ⟨"crm", fun _ => none, []⟩
  let credential : Row := ⟨"key", fun column => if column = "instance" then some "crm" else none, []⟩
  let rows : String → List Row := fun table =>
    if table = "sys_integration" then [integration] else if table = "bolt_credential" then [credential] else []
  have hdelete : Reaches system [.delete "sys_integration" "crm"] rows
      (Store.record ⟨rows, []⟩ (.delete "sys_integration" integration)) :=
    .step .start (.delete (List.mem_singleton_self _) (List.mem_singleton_self integration))
  have hkey : (⟨"bolt_credential", "instance", "sys_integration", .cascade⟩ : ForeignKey) ∈ system.foreignKeys ++ engineKeys :=
    List.mem_append_right _ (by decide)
  have hgone : .delete "sys_integration" integration ∈ [Change.delete "sys_integration" integration] :=
    List.mem_singleton_self _
  have hcascade := hdelete.step (.cascade hkey rfl hgone (List.mem_singleton_self credential) rfl)
  have hlisted : "bolt_credential" ∈ tables := hall rows _ hcascade _ (List.mem_append_right _ (List.mem_singleton_self _))
  have hmem := mem_of_affectedTables (hn n (Nat.le_refl n)) hlisted
  revert hmem
  decide

end Norbital.Bolt.Affected

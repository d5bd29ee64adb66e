import Mathlib.Data.List.Nodup
import Mathlib.Logic.Nontrivial.Basic
import Norbital.Lib.Entries
import Norbital.Lib.Fallible

/-!
# Effects of a commit

`queueEffects` of `bolt/src/engine/runs/queue.ts`: the runs a statement queues for the
model effects its net row changes reach, with the catalog (`store/src/catalog.ts`) that
names the columns an update is compared by.

A row is its columns; `J` are the jsonb values, compared as PostgreSQL compares them.
-/

namespace Norbital.Bolt.Effects

open Norbital.Lib

/-- What a stored field is: plain, filled by the database (a sequence, a roll-up), or a reference. -/
inductive FieldKind where
  | plain
  | derived
  | ref (targets : List String)
  deriving DecidableEq

structure Table where
  /-- The key is declared fields, not a column `id`. -/
  ownKey : Bool
  audit : Bool
  fields : List (String × FieldKind)
  computed : List String
  /-- Columns no field declares: the search document, the record label, embeddings. -/
  hidden : List String
  deriving DecidableEq

def auditColumns : List String := ["revision", "created_at", "created_by", "updated_at", "updated_by"]

def systemColumns : List String := "id" :: auditColumns

structure FieldInfo where
  name : String
  column : String
  computed : Bool
  derived : Bool
  deriving DecidableEq

def fieldInfo (name : String) : FieldInfo := ⟨name, name, false, false⟩

/-- Neither derived nor computed nor a system column. -/
def FieldInfo.stored (f : FieldInfo) : Bool := !f.derived && !f.computed && !systemColumns.contains f.name

namespace Table

variable (t : Table)

/-- The fields that are no references. -/
def ownFields : List FieldInfo :=
  t.fields.filterMap fun f =>
    match f.2 with
    | .plain => some (fieldInfo f.1)
    | .derived => some { fieldInfo f.1 with derived := true }
    | .ref _ => none

/-- A reference; one to several models has an entry for each arm, whose column is its own. -/
def refFields (f : String × FieldKind) : List FieldInfo :=
  match f.2 with
  | .ref targets =>
    fieldInfo f.1 ::
      if 1 < targets.length then
        targets.map fun target => { fieldInfo (f.1 ++ "." ++ target) with column := f.1 ++ "__" ++ target }
      else []
  | _ => []

/-- What `catalogOf` sets, in its order. -/
def entries : List FieldInfo :=
  (if t.ownKey then [] else [fieldInfo "id"]) ++ (if t.audit then auditColumns.map fieldInfo else []) ++ t.ownFields ++
    t.computed.map (fun n => { fieldInfo n with computed := true }) ++ t.fields.flatMap refFields

/-- `info.fields`. -/
def info : List (String × FieldInfo) := t.entries.foldl (fun m f => put f.name f m) []

/-- `info.one`. -/
def one : List String :=
  t.fields.filterMap fun f =>
    match f.2 with
    | .ref _ => some f.1
    | _ => none

/-- Fields whose change runs an `updated` effect. -/
def storedFields : List String :=
  ((t.info.map Prod.snd).filter FieldInfo.stored).map FieldInfo.column ++
    t.one.filter fun k => !(t.info.lookup k).isSome

/-- The columns of a field. -/
def columnsOf (f : String × FieldKind) : List String :=
  match f.2 with
  | .ref targets => if targets.length = 1 then [f.1] else targets.map fun target => f.1 ++ "__" ++ target
  | _ => [f.1]

/-- The columns of a table. -/
def columns : List String :=
  (if t.ownKey then [] else ["id"]) ++ (if t.audit then auditColumns else []) ++ t.fields.flatMap columnsOf ++ t.computed ++ t.hidden

/-- Stored, neither derived nor a system column; each arm of a reference is a column. -/
def storedOf (f : String × FieldKind) : List String :=
  match f.2 with
  | .derived => []
  | .plain => if systemColumns.contains f.1 then [] else [f.1]
  | .ref targets =>
    if targets.length = 1 then if systemColumns.contains f.1 then [] else [f.1]
    else targets.map fun target => f.1 ++ "__" ++ target

def storedColumns : List String := t.fields.flatMap storedOf

end Table

/-- An image: what a row holds in each of its columns. -/
abbrev Row (J : Type) := String → Option J

inductive Change (J : Type) where
  | create (n : Row J)
  | update (o n : Row J)
  | delete (o : Row J)

structure NetChange (J : Type) where
  c : String
  id : String
  change : Change J

inductive Verb where
  | created
  | updated
  | deleted
  deriving DecidableEq, Repr

def effectVerbs : List Verb := [.created, .updated, .deleted]

def Verb.text : Verb → String
  | .created => "created"
  | .updated => "updated"
  | .deleted => "deleted"

/-- The tables, and the effect verbs each exposed model declares. -/
structure Manifest where
  tables : List (String × Table)
  exposures : List (String × (Verb → Bool))
  exposed_nodup : (exposures.map Prod.fst).Nodup

def effectRun (e : String × Verb) : String := e.1 ++ ".effect." ++ e.2.text

/-- A row of `sys_run`; past the chain depth it is recorded failed. -/
structure Run (J : Type) where
  automation : String
  ids : List String
  images : List (Change J)
  failed : Bool

def writeDepth : ℕ := 8

section Queue

variable {J : Type} [DecidableEq J]

/-- Whether a change is of the verb's operation. -/
def Verb.ofOp : Verb → Change J → Bool
  | .created, .create _ => true
  | .updated, .update _ _ => true
  | .deleted, .delete _ => true
  | _, _ => false

/-- `(x.o -> f) IS DISTINCT FROM (x.n -> f)` for some of the columns. -/
def differs (columns : List String) : Change J → Bool
  | .update o n => columns.any fun f => decide (o f ≠ n f)
  | _ => false

/-- The rows one select reads. -/
def selected (m : Manifest) (xs : List (NetChange J)) (e : String × Verb) : Except String (List (NetChange J)) :=
  let rows := xs.filter fun x => x.c = e.1 && e.2.ofOp x.change
  match e.2 with
  | .updated =>
    match m.tables.lookup e.1 with
    | none => .error s!"the effect names missing model {e.1}"
    | some t => .ok (rows.filter fun x => differs t.storedFields x.change)
  | _ => .ok rows

/-- The verbs the manifest declares effects for. -/
def declared (m : Manifest) : List (String × Verb) :=
  m.exposures.flatMap fun spec => (effectVerbs.filter spec.2).map fun verb => (spec.1, verb)

/-- One aggregated row, when any row is selected. -/
def runOf (depth : ℕ) (e : String × Verb) (rows : List (NetChange J)) : Option (Run J) :=
  if rows.isEmpty then none
  else
    let sorted := rows.mergeSort fun a b => decide (a.id ≤ b.id)
    some ⟨effectRun e, sorted.map NetChange.id, sorted.map NetChange.change, writeDepth < depth⟩

def queueEffects (m : Manifest) (depth : ℕ) (xs : List (NetChange J)) : Except String (List (Run J)) := do
  let runs ← (declared m).mapM fun e => do
    let rows ← selected m xs e
    return runOf depth e rows
  return runs.filterMap id

/-- The changes of a model with the verb's operation; an update when a stored column differs. -/
def wanted (m : Manifest) (xs : List (NetChange J)) (e : String × Verb) : List (NetChange J) :=
  xs.filter fun x => x.c = e.1 && e.2.ofOp x.change &&
    (e.2 ≠ .updated || (m.tables.lookup e.1).any fun t => differs t.storedColumns x.change)

/-- An image of a table's row. -/
def IsRow (t : Table) (o : Row J) : Prop := ∀ col, (o col).isSome ↔ col ∈ t.columns

def Change.Rows (t : Table) : Change J → Prop
  | .create n => IsRow t n
  | .update o n => IsRow t o ∧ IsRow t n
  | .delete o => IsRow t o

/-- Net changes: each record once, its images rows of its table. -/
structure Net (m : Manifest) (xs : List (NetChange J)) : Prop where
  once : (xs.map fun x => (x.c, x.id)).Nodup
  rows : ∀ x ∈ xs, ∀ t, m.tables.lookup x.c = some t → x.change.Rows t

/-- At most one run a verb, with exactly the wanted records and their images. -/
structure RunsOnce (m : Manifest) (xs : List (NetChange J)) (runs : List (Run J)) : Prop where
  once : (runs.map Run.automation).Nodup
  sound : ∀ r ∈ runs, ∃ e ∈ declared m, r.automation = effectRun e ∧ wanted m xs e ≠ [] ∧ r.ids.Nodup ∧
    ∃ ys : List (NetChange J), ys.Perm (wanted m xs e) ∧ r.ids = ys.map NetChange.id ∧ r.images = ys.map NetChange.change
  complete : ∀ e ∈ declared m, wanted m xs e ≠ [] → ∃ r ∈ runs, r.automation = effectRun e

end Queue

/-- Every commit's changes run their effects exactly once. -/
def EffectsOnce (J : Type) [DecidableEq J] (m : Manifest) : Prop :=
  ∀ (depth : ℕ) (xs : List (NetChange J)), Net m xs → ∃ runs, queueEffects m depth xs = .ok runs ∧ RunsOnce m xs runs

/-- Of the table's columns the catalog's stored entries name exactly the stored ones. -/
def Table.Covers (t : Table) : Prop :=
  ∀ col ∈ t.columns, (∃ f ∈ t.info.map Prod.snd, f.stored = true ∧ f.column = col) ↔ col ∈ t.storedColumns

instance (t : Table) : Decidable t.Covers := inferInstanceAs (Decidable (∀ col ∈ t.columns, _))

theorem Verb.text_length (v : Verb) : v.text.toList.length = 7 := by
  cases v <;> decide

theorem effectRun_injective : Function.Injective effectRun := by
  rintro ⟨m, v⟩ ⟨m', v'⟩ h
  -- the verbs are texts of one length
  have hlist : (m ++ ".effect.").toList ++ v.text.toList = (m' ++ ".effect.").toList ++ v'.text.toList := by
    simpa only [effectRun, String.toList_append] using congrArg String.toList h
  obtain ⟨hm, hv⟩ := List.append_inj' hlist (by rw [v.text_length, v'.text_length])
  have hmodel : m = m' := by
    rw [String.toList_append, String.toList_append] at hm
    exact String.toList_injective (List.append_cancel_right hm)
  have hverb : v = v' := by
    cases v <;> cases v' <;> first | rfl | exact absurd hv (by decide)
  rw [hmodel, hverb]

theorem mem_declared {m : Manifest} {e : String × Verb} :
    e ∈ declared m ↔ ∃ spec ∈ m.exposures, spec.1 = e.1 ∧ spec.2 e.2 = true := by
  obtain ⟨model, verb⟩ := e
  have hverb : verb ∈ effectVerbs := by cases verb <;> decide
  simp only [declared, List.mem_flatMap, List.mem_map, List.mem_filter, Prod.mk.injEq]
  constructor
  · rintro ⟨spec, hspec, v, ⟨-, hv⟩, hname, rfl⟩
    exact ⟨spec, hspec, hname, hv⟩
  · rintro ⟨spec, hspec, hname, hv⟩
    exact ⟨spec, hspec, verb, ⟨hverb, hv⟩, hname, rfl⟩

theorem nodup_declared (m : Manifest) : (declared m).Nodup := by
  rw [declared, List.nodup_flatMap]
  constructor
  · intro spec _
    exact ((by decide : effectVerbs.Nodup).filter _).map (fun a b h => congrArg Prod.snd h)
  · refine (List.pairwise_map.1 m.exposed_nodup).imp fun {a b} hne => ?_
    intro e ha hb
    obtain ⟨v, -, rfl⟩ := List.mem_map.1 ha
    obtain ⟨v', -, hv'⟩ := List.mem_map.1 hb
    exact hne (congrArg Prod.fst hv').symm

section Queue

variable {J : Type} [DecidableEq J] {m : Manifest} {depth : ℕ} {xs : List (NetChange J)} {runs : List (Run J)}

omit [DecidableEq J] in
theorem runOf_eq_none {e : String × Verb} {rows : List (NetChange J)} : runOf depth e rows = none ↔ rows = [] := by
  cases rows <;> simp [runOf]

omit [DecidableEq J] in
theorem runOf_eq_some {e : String × Verb} {rows : List (NetChange J)} {r : Run J} (h : runOf depth e rows = some r) :
    rows ≠ [] ∧ r.automation = effectRun e ∧
      ∃ ys : List (NetChange J), ys.Perm rows ∧ r.ids = ys.map NetChange.id ∧ r.images = ys.map NetChange.change := by
  have hrows : rows ≠ [] := fun hnil => by simp [runOf_eq_none.2 hnil] at h
  rw [runOf, if_neg (by simpa using hrows)] at h
  cases h
  exact ⟨hrows, rfl, _, List.mergeSort_perm _ _, rfl, rfl⟩

/-- One select a declared verb. -/
theorem queueEffects_eq_ok : queueEffects m depth xs = .ok runs ↔
    ∃ ys : List (Option (Run J)), List.Forall₂ (fun e y => ∃ rows, selected m xs e = .ok rows ∧ runOf depth e rows = y)
      (declared m) ys ∧ ys.filterMap id = runs := by
  simp only [queueEffects, Fallible.bind_eq_ok, Fallible.mapM_eq_ok, pure, Except.pure, Except.ok.injEq]

/-- The runs of a commit, each the aggregate of its select. -/
theorem mem_runs {es : List (String × Verb)} {ys : List (Option (Run J))}
    (h : List.Forall₂ (fun e y => ∃ rows, selected m xs e = .ok rows ∧ runOf depth e rows = y) es ys) {r : Run J} :
    r ∈ ys.filterMap id ↔ ∃ e ∈ es, ∃ rows, selected m xs e = .ok rows ∧ runOf depth e rows = some r := by
  have hmem : r ∈ ys.filterMap id ↔ ∃ y ∈ ys, y = some r := by simp
  rw [hmem]
  refine Fallible.exists_mem_iff_of_forall₂ h fun e y hy => ?_
  obtain ⟨rows, hrows, rfl⟩ := hy
  constructor
  · exact fun hr => ⟨rows, hrows, hr⟩
  · rintro ⟨rows', hrows', hr⟩
    rw [hrows] at hrows'
    cases hrows'
    exact hr

/-- The runs keep the verbs' order, so each verb has at most one. -/
theorem automations_sublist {es : List (String × Verb)} {ys : List (Option (Run J))}
    (h : List.Forall₂ (fun e y => ∃ rows, selected m xs e = .ok rows ∧ runOf depth e rows = y) es ys) :
    ((ys.filterMap id).map Run.automation).Sublist (es.map effectRun) := by
  induction h with
  | nil => exact List.Sublist.slnil
  | @cons e y es ys hy _ ih =>
    obtain ⟨rows, -, hy⟩ := hy
    cases y with
    | none => exact ih.cons _
    | some r =>
      obtain ⟨-, hname, -⟩ := runOf_eq_some hy
      simpa [hname] using ih

theorem exists_selected (h : queueEffects m depth xs = .ok runs) {e : String × Verb} (he : e ∈ declared m) :
    ∃ rows, selected m xs e = .ok rows := by
  rw [queueEffects, Fallible.bind_eq_ok] at h
  obtain ⟨ys, hys, -⟩ := h
  obtain ⟨y, hy⟩ := Fallible.mapM_eq_ok_of_mem hys he
  obtain ⟨rows, hrows, -⟩ := Fallible.bind_eq_ok.1 hy
  exact ⟨rows, hrows⟩

theorem nodup_automations (h : queueEffects m depth xs = .ok runs) : (runs.map Run.automation).Nodup := by
  obtain ⟨ys, hys, rfl⟩ := queueEffects_eq_ok.1 h
  exact (automations_sublist hys).nodup ((nodup_declared m).map effectRun_injective)

/-- A declared verb has a run when its select reads a row. -/
theorem exists_run_iff (h : queueEffects m depth xs = .ok runs) {e : String × Verb} (he : e ∈ declared m) :
    (∃ r ∈ runs, r.automation = effectRun e) ↔ ∃ rows, selected m xs e = .ok rows ∧ rows ≠ [] := by
  obtain ⟨ys, hys, rfl⟩ := queueEffects_eq_ok.1 h
  constructor
  · rintro ⟨r, hr, hname⟩
    obtain ⟨e', -, rows, hrows, hrun⟩ := (mem_runs hys).1 hr
    obtain ⟨hne, hname', -⟩ := runOf_eq_some hrun
    obtain rfl : e' = e := effectRun_injective (hname'.symm.trans hname)
    exact ⟨rows, hrows, hne⟩
  · rintro ⟨rows, hrows, hne⟩
    obtain ⟨r, hr⟩ := Option.ne_none_iff_exists'.1 fun hnone => hne (runOf_eq_none.1 (hnone : runOf depth e rows = none))
    exact ⟨r, (mem_runs hys).2 ⟨e, he, rows, hrows, hr⟩, (runOf_eq_some hr).2.1⟩

namespace Table

variable {t : Table}

theorem mem_info {e : String × FieldInfo} (h : e ∈ t.info) : e.1 = e.2.name ∧ e.2 ∈ t.entries := by
  have hinv : ∀ (fs : List FieldInfo) (m : List (String × FieldInfo)),
      (∀ e ∈ m, e.1 = e.2.name ∧ (e.2 ∈ t.entries)) → fs ⊆ t.entries →
      ∀ e ∈ fs.foldl (fun m f => put f.name f m) m, e.1 = e.2.name ∧ e.2 ∈ t.entries := by
    intro fs
    induction fs with
    | nil => exact fun m hm _ => hm
    | cons f fs ih =>
      intro m hm hfs
      refine ih _ (fun e he => ?_) fun g hg => hfs (List.mem_cons_of_mem f hg)
      rcases mem_put he with rfl | he
      · exact ⟨rfl, hfs List.mem_cons_self⟩
      · exact hm e he
  exact hinv t.entries [] (by simp) (List.Subset.refl _) e h

theorem lookup_info {f : FieldInfo} (h : f ∈ t.entries) : ∃ g, t.info.lookup f.name = some g := by
  have hkept : ∀ (fs : List FieldInfo) (m : List (String × FieldInfo)), (f ∈ fs ∨ ∃ g, m.lookup f.name = some g) →
      ∃ g, (fs.foldl (fun m f => put f.name f m) m).lookup f.name = some g := by
    intro fs
    induction fs with
    | nil => exact fun m hm => hm.resolve_left List.not_mem_nil
    | cons f' fs ih =>
      intro m hm
      apply ih
      rw [lookup_put]
      rcases hm with hm | hm
      · rcases List.mem_cons.1 hm with rfl | hm
        · exact .inr ⟨f, by simp⟩
        · exact .inl hm
      · right
        split_ifs
        · exact ⟨f', rfl⟩
        · exact hm
  exact hkept t.entries [] (.inl h)

/-- Where each name is set once, no entry is overwritten. -/
theorem mem_info_of_nodup (hnames : (t.entries.map FieldInfo.name).Nodup) {f : FieldInfo} :
    f ∈ t.info.map Prod.snd ↔ f ∈ t.entries := by
  constructor
  · intro h
    obtain ⟨e, he, rfl⟩ := List.mem_map.1 h
    exact (mem_info he).2
  · intro h
    obtain ⟨g, hg⟩ := lookup_info h
    have hmem := mem_of_lookup hg
    obtain rfl : g = f := List.inj_on_of_nodup_map hnames (mem_info hmem).2 h (mem_info hmem).1.symm
    exact List.mem_map.2 ⟨_, hmem, rfl⟩

theorem mem_entries {f : FieldInfo} : f ∈ t.entries ↔
    (t.ownKey = false ∧ f = fieldInfo "id" ∨ t.audit = true ∧ ∃ n ∈ auditColumns, f = fieldInfo n) ∨ f ∈ t.ownFields ∨
      (∃ n ∈ t.computed, f = { fieldInfo n with computed := true }) ∨ ∃ k ∈ t.fields, f ∈ refFields k := by
  simp only [entries, List.mem_append, List.mem_map, List.mem_flatMap, or_assoc]
  cases t.ownKey <;> cases t.audit <;> simp [eq_comm (a := f)]

/-- Each reference has its entry, so the one-side names add no column. -/
theorem mem_storedFields {col : String} :
    col ∈ t.storedFields ↔ ∃ f ∈ t.info.map Prod.snd, f.stored = true ∧ f.column = col := by
  have hone : (t.one.filter fun k => !(t.info.lookup k).isSome) = [] := by
    rw [List.filter_eq_nil_iff]
    intro k hk
    obtain ⟨f, hf, hfk⟩ := List.mem_filterMap.1 hk
    rcases f with ⟨name, kind⟩
    cases kind with
    | plain => cases hfk
    | derived => cases hfk
    | ref targets =>
      cases hfk
      have hentry : fieldInfo name ∈ t.entries :=
        mem_entries.2 (.inr (.inr (.inr ⟨_, hf, List.mem_cons_self⟩)))
      obtain ⟨g, hg⟩ := lookup_info hentry
      simp [show t.info.lookup name = some g from hg]
  simp only [storedFields, hone, List.append_nil, List.mem_map, List.mem_filter, and_assoc]

theorem mem_ownFields {f : FieldInfo} : f ∈ t.ownFields ↔
    ∃ name, (name, .plain) ∈ t.fields ∧ f = fieldInfo name ∨
      (name, .derived) ∈ t.fields ∧ f = { fieldInfo name with derived := true } := by
  simp only [ownFields, List.mem_filterMap]
  constructor
  · rintro ⟨⟨name, kind⟩, hk, hf⟩
    cases kind with
    | plain => exact ⟨name, .inl ⟨hk, (Option.some.inj hf).symm⟩⟩
    | derived => exact ⟨name, .inr ⟨hk, (Option.some.inj hf).symm⟩⟩
    | ref targets => cases hf
  · rintro ⟨name, ⟨hk, rfl⟩ | ⟨hk, rfl⟩⟩
    · exact ⟨_, hk, rfl⟩
    · exact ⟨_, hk, rfl⟩

/-- The entry of an arm, whose name holds a dot. -/
def armInfo (name target : String) : FieldInfo :=
  { fieldInfo (name ++ "." ++ target) with column := name ++ "__" ++ target }

theorem armInfo_stored (name target : String) : (armInfo name target).stored = true := by
  have hdot : ∀ s ∈ systemColumns, '.' ∉ s.toList := by decide
  have hname : name ++ "." ++ target ∉ systemColumns := by
    intro h
    apply hdot _ h
    rw [String.toList_append, String.toList_append]
    exact List.mem_append_left _ (List.mem_append_right _ List.mem_cons_self)
  simpa [FieldInfo.stored, armInfo, fieldInfo] using hname

theorem mem_refFields {name : String} {targets : List String} {f : FieldInfo} : f ∈ refFields (name, .ref targets) ↔
    f = fieldInfo name ∨ 1 < targets.length ∧ ∃ target ∈ targets, f = armInfo name target := by
  simp only [refFields, List.mem_cons]
  split_ifs with h
  · simp [h, armInfo, eq_comm]
  · simp [h]

/-- A table whose entries' names are distinct and whose references to several models are named as no column. -/
theorem covers_of_names (hnames : (t.entries.map FieldInfo.name).Nodup)
    (hrefs : ∀ name targets, (name, .ref targets) ∈ t.fields → targets.length ≠ 1 → name ∉ t.columns) : t.Covers := by
  intro col hcol
  have hplain {name : String} (h : (fieldInfo name).stored = true) : name ∉ systemColumns := by
    simpa [FieldInfo.stored, fieldInfo] using h
  simp only [mem_info_of_nodup hnames, storedColumns, List.mem_flatMap]
  constructor
  · rintro ⟨f, hf, hstored, rfl⟩
    rcases mem_entries.1 hf with (⟨-, rfl⟩ | ⟨-, n, hn, rfl⟩) | hf | ⟨n, -, rfl⟩ | ⟨k, hk, hf⟩
    · exact absurd hstored (by decide)
    · exact absurd (List.mem_cons_of_mem "id" hn) (hplain hstored)
    · obtain ⟨name, ⟨hk, rfl⟩ | ⟨-, rfl⟩⟩ := mem_ownFields.1 hf
      · exact ⟨_, hk, by simp [storedOf, hplain hstored, fieldInfo]⟩
      · simp [FieldInfo.stored] at hstored
    · simp [FieldInfo.stored] at hstored
    · rcases k with ⟨name, kind⟩
      cases kind with
      | plain => cases hf
      | derived => cases hf
      | ref targets =>
        refine ⟨_, hk, ?_⟩
        simp only [storedOf]
        rcases mem_refFields.1 hf with rfl | ⟨hlen, target, htarget, rfl⟩
        · have hone : targets.length = 1 := by
            by_contra hone
            exact hrefs name targets hk hone hcol
          simp [hone, hplain hstored, fieldInfo]
        · rw [if_neg (by omega)]
          exact List.mem_map_of_mem htarget
  · rintro ⟨⟨name, kind⟩, hk, hst⟩
    have hinfo (h : systemColumns.contains name = false) : (fieldInfo name).stored = true := by
      simpa [FieldInfo.stored, fieldInfo] using h
    cases kind with
    | plain =>
      simp only [storedOf] at hst
      split_ifs at hst with hsys
      · cases hst
      · obtain rfl := List.mem_singleton.1 hst
        exact ⟨_, mem_entries.2 (.inr (.inl (mem_ownFields.2 ⟨col, .inl ⟨hk, rfl⟩⟩))), hinfo (by simpa using hsys), rfl⟩
    | derived => cases hst
    | ref targets =>
      simp only [storedOf] at hst
      split_ifs at hst with hone hsys
      · cases hst
      · obtain rfl := List.mem_singleton.1 hst
        exact ⟨_, mem_entries.2 (.inr (.inr (.inr ⟨_, hk, mem_refFields.2 (.inl rfl)⟩))), hinfo (by simpa using hsys), rfl⟩
      · obtain ⟨target, htarget, rfl⟩ := List.mem_map.1 hst
        have hlen : 1 < targets.length := by
          have := List.length_pos_of_mem htarget
          omega
        exact ⟨armInfo name target,
          mem_entries.2 (.inr (.inr (.inr ⟨_, hk, mem_refFields.2 (.inr ⟨hlen, target, htarget, rfl⟩)⟩))),
          armInfo_stored name target, rfl⟩

end Table

/-- Rows of a table differ in the compared columns as they do in the stored ones. -/
theorem Table.Covers.differs {t : Table} (h : t.Covers) {c : Change J} (hc : c.Rows t) :
    differs t.storedFields c = differs t.storedColumns c := by
  cases c with
  | create n => rfl
  | delete o => rfl
  | update o n =>
    rw [Bool.eq_iff_iff]
    simp only [Effects.differs, List.any_eq_true, decide_eq_true_eq]
    apply exists_congr
    intro col
    rw [and_congr_left_iff]
    intro hne
    -- a column one of the images lacks both lack
    have hcol : col ∈ t.columns := by
      by_contra hcol
      have ho : o col = none := by simpa using mt (hc.1 col).1 hcol
      have hn : n col = none := by simpa using mt (hc.2 col).1 hcol
      simp [ho, hn] at hne
    exact Table.mem_storedFields.trans (h col hcol)

/-- A select reads the wanted changes. -/
theorem selected_eq_wanted (hnet : Net m xs) {e : String × Verb}
    (h : e.2 = .updated → ∃ t, m.tables.lookup e.1 = some t ∧ t.Covers) : selected m xs e = .ok (wanted m xs e) := by
  rcases e with ⟨model, verb⟩
  cases verb with
  | created => simp [selected, wanted]
  | deleted => simp [selected, wanted]
  | updated =>
    obtain ⟨t, ht, hcovers⟩ := h rfl
    simp only [selected, wanted, ht, List.filter_filter]
    congr 1
    apply List.filter_congr
    intro x hx
    by_cases hc : x.c = model
    · subst hc
      simp [hcovers.differs (hnet.rows x hx t ht), Bool.and_comm]
    · simp [hc]

theorem wanted_ids (hnet : Net m xs) (e : String × Verb) : ((wanted m xs e).map NetChange.id).Nodup := by
  have hkeys : ((wanted m xs e).map fun x => (x.c, x.id)).Nodup := hnet.once.sublist (List.filter_sublist.map _)
  refine (List.nodup_map_iff_inj_on (List.Nodup.of_map _ hkeys)).2 fun x hx y hy hid => ?_
  have hx' : x.c = e.1 := by have := List.of_mem_filter hx; simp_all
  have hy' : y.c = e.1 := by have := List.of_mem_filter hy; simp_all
  exact List.inj_on_of_nodup_map hkeys hx hy (by simp [hx', hy', hid])

theorem runsOnce (hnet : Net m xs) (h : queueEffects m depth xs = .ok runs)
    (hcovers : ∀ e ∈ declared m, e.2 = .updated → ∃ t, m.tables.lookup e.1 = some t ∧ t.Covers) : RunsOnce m xs runs where
  once := nodup_automations h
  sound := by
    intro r hr
    obtain ⟨ys, hys, rfl⟩ := queueEffects_eq_ok.1 h
    obtain ⟨e, he, rows, hrows, hrun⟩ := (mem_runs hys).1 hr
    rw [selected_eq_wanted hnet (hcovers e he)] at hrows
    cases hrows
    obtain ⟨hne, hname, ys', hperm, hids, himages⟩ := runOf_eq_some hrun
    refine ⟨e, he, hname, hne, ?_, ys', hperm, hids, himages⟩
    rw [hids]
    exact (hperm.map _).nodup_iff.2 (wanted_ids hnet e)
  complete := by
    intro e he hne
    exact (exists_run_iff h he).2 ⟨_, selected_eq_wanted hnet (hcovers e he), hne⟩

/-- The update of one record that changes one column. -/
def probe (a b : J) (model : String) (t : Table) (col : String) : NetChange J :=
  let image (v : J) : Row J := fun c => if c ∈ t.columns then some (if c = col then v else a) else none
  ⟨model, "", .update (image a) (image b)⟩

omit [DecidableEq J] in
theorem probe_rows (a b : J) (model : String) (t : Table) (col : String) : (probe a b model t col).change.Rows t := by
  constructor <;> intro c <;> by_cases hc : c ∈ t.columns <;> simp [hc]

theorem probe_differs {a b : J} (hne : a ≠ b) (model : String) {t : Table} {col : String} (hcol : col ∈ t.columns)
    (columns : List String) : differs columns (probe a b model t col).change = true ↔ col ∈ columns := by
  simp only [probe, differs, List.any_eq_true, decide_eq_true_eq]
  constructor
  · rintro ⟨c, hc, hdiff⟩
    by_cases hcc : c = col
    · exact hcc ▸ hc
    · simp [hcc] at hdiff
  · intro hc
    exact ⟨col, hc, by simp [hcol, hne]⟩

end Queue

/-- A commit's changes run their effects exactly once, for every commit, when each model with an `updated` effect
is compared by its stored columns. -/
theorem effectsOnce_iff {J : Type} [DecidableEq J] [Nontrivial J] (m : Manifest) :
    EffectsOnce J m ↔ ∀ e ∈ declared m, e.2 = .updated → ∃ t, m.tables.lookup e.1 = some t ∧ t.Covers := by
  constructor
  · rintro h ⟨model, verb⟩ he rfl
    obtain ⟨t, ht⟩ : ∃ t, m.tables.lookup model = some t := by
      -- the select succeeds on the empty commit already
      obtain ⟨runs, hruns, -⟩ := h 0 [] ⟨List.nodup_nil, by simp⟩
      obtain ⟨rows, hrows⟩ := exists_selected hruns he
      cases ht : m.tables.lookup model with
      | some t => exact ⟨t, rfl⟩
      | none => simp [selected, ht] at hrows
    refine ⟨t, ht, fun col hcol => ?_⟩
    obtain ⟨a, b, hne⟩ := exists_pair_ne J
    have hnet : Net m [probe a b model t col] := by
      refine ⟨by simp, ?_⟩
      simp only [List.mem_singleton, forall_eq]
      intro t' ht'
      obtain rfl : t = t' := Option.some.inj (ht.symm.trans ht')
      exact probe_rows a b model t col
    obtain ⟨runs, hruns, honce⟩ := h 0 _ hnet
    have hcompared : (∃ r ∈ runs, r.automation = effectRun (model, .updated)) ↔ col ∈ t.storedFields := by
      rw [exists_run_iff hruns he, ← probe_differs hne model hcol t.storedFields]
      simp [selected, ht, probe, Verb.ofOp]
    have hwanted : wanted m [probe a b model t col] (model, .updated) ≠ [] ↔ col ∈ t.storedColumns := by
      rw [← probe_differs hne model hcol t.storedColumns]
      simp [wanted, ht, probe, Verb.ofOp]
    rw [← Table.mem_storedFields, ← hcompared, ← hwanted]
    constructor
    · rintro ⟨r, hr, hname⟩
      obtain ⟨e, -, hname', hne', -⟩ := honce.sound r hr
      obtain rfl : e = (model, .updated) := effectRun_injective (hname'.symm.trans hname)
      exact hne'
    · exact honce.complete _ he
  · intro h depth xs hnet
    obtain ⟨ys, hys⟩ : ∃ ys, (declared m).mapM (fun e => do
        let rows ← selected m xs e
        return runOf depth e rows : String × Verb → Except String (Option (Run J))) = .ok ys :=
      Fallible.exists_mapM_eq_ok fun e he => ⟨_, by rw [selected_eq_wanted hnet (h e he)]; rfl⟩
    have hruns : queueEffects m depth xs = .ok (ys.filterMap id) := by rw [queueEffects, hys]; rfl
    exact ⟨_, hruns, runsOnce hnet hruns h⟩

-- A document's owner is a person or an organisation; the second table has a field named as its arm is.

def document : Table :=
  ⟨false, true, [("title", .plain), ("total", .derived), ("owner", .ref ["person", "org"])], ["age"], ["bolt_search"]⟩

def shadowed : Table := { document with fields := ("owner.person", .plain) :: document.fields }

def manifestOf (t : Table) : Manifest := ⟨[("document", t)], [("document", fun v => v == Verb.updated)], by simp⟩

theorem effectsOnce_document : EffectsOnce Bool (manifestOf document) := by
  refine (effectsOnce_iff (manifestOf document)).2 fun e he _ => ?_
  obtain ⟨spec, hspec, hname, -⟩ := mem_declared.1 he
  obtain rfl : spec = ("document", fun v => v == Verb.updated) := by simpa [manifestOf] using hspec
  have hown : ∀ name targets, (name, .ref targets) ∈ document.fields → targets.length ≠ 1 → name ∉ document.columns := by
    simp only [document, List.mem_cons, Prod.mk.injEq, reduceCtorEq, and_false, false_or, FieldKind.ref.injEq,
      List.not_mem_nil, or_false]
    rintro name targets ⟨rfl, rfl⟩ -
    decide
  exact ⟨document, hname ▸ List.lookup_cons_self, Table.covers_of_names (by decide) hown⟩

/-- A change of the field named as an arm queues nothing. -/
theorem effectsOnce_shadowed : ¬ EffectsOnce Bool (manifestOf shadowed) := by
  intro h
  have hcol : "owner.person" ∈ shadowed.columns := by decide
  have htable : (manifestOf shadowed).tables.lookup "document" = some shadowed := List.lookup_cons_self
  have hnet : Net (manifestOf shadowed) [probe false true "document" shadowed "owner.person"] := by
    refine ⟨by simp, ?_⟩
    simp only [List.mem_singleton, forall_eq]
    intro t ht
    obtain rfl : shadowed = t := Option.some.inj (htable.symm.trans ht)
    exact probe_rows false true "document" shadowed "owner.person"
  obtain ⟨runs, hruns, honce⟩ := h 0 _ hnet
  have he : ("document", Verb.updated) ∈ declared (manifestOf shadowed) := by decide
  have hwanted : wanted (manifestOf shadowed) [probe false true "document" shadowed "owner.person"] ("document", .updated) ≠ [] := by
    have hdiff := (probe_differs Bool.false_ne_true "document" hcol shadowed.storedColumns).2 (by decide)
    simpa [wanted, htable, probe, Verb.ofOp] using hdiff
  -- the arm's entry has taken the place of the field's
  have hsame : ¬ differs shadowed.storedFields (probe false true "document" shadowed "owner.person").change = true :=
    mt (probe_differs Bool.false_ne_true "document" hcol _).1 (by decide)
  obtain ⟨rows, hrows, hne⟩ := (exists_run_iff hruns he).1 (honce.complete _ he hwanted)
  simp only [selected, htable, Except.ok.injEq] at hrows
  rw [← hrows] at hne
  exact hne (List.filter_eq_nil_iff.2 fun x hx => by
    obtain rfl := List.mem_singleton.1 (List.mem_of_mem_filter hx)
    exact hsame)

end Norbital.Bolt.Effects

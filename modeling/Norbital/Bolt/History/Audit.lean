import Norbital.Bolt.History.Replay

/-!
# The audit trigger

What `bolt_audit` (`bolt/src/engine/schema/audit-sql.ts`) writes for each change of
one record, and how `bolt_history_register` (`schema/history.ts`) names the fields
of a new definition: a field keeps the identity of the name it had or was renamed
from.  A release may change every stored value; the first update after it is
recorded whole.
-/

namespace Norbital.Bolt.History

open Maps

/-- A field of a table's definition, stored or computed, with the name it
renames. -/
structure FieldDef where
  name : String
  kind : Kind
  was : Option String
  deriving DecidableEq, Repr

/-- The prior name whose identity a field takes. -/
def oldName (held : Version) (f : FieldDef) : String :=
  if f.name ∈ held.fields.map Prod.fst then f.name else f.was.getD f.name

/-- The identities of a definition; `next` numbers the generated ones. -/
def identities (held : Version) : List FieldDef → Nat → List (String × Nat)
  | [], _ => []
  | f :: definition, next =>
      (f.name, (held.fields.lookup (oldName held f)).getD next) ::
        identities held definition (next + 1)

/-- The version `bolt_history_register` inserts for a definition that changed. -/
def register (held : Version) (definition : List FieldDef) (next : Nat) : Version where
  id := next
  lineage := held.lineage
  kinds := definition.map fun f => (f.name, f.kind)
  fields := identities held definition (next + 1)

variable {V : Type*} [DecidableEq V] (R : Reading V)

/-- Columns the engine keeps beside a model's own. -/
def unhistoried : List String := ["bolt_search", "bolt_embedding", "bolt_record_label"]

def volatileColumns : List String := ["revision", "updated_at", "updated_by"]

/-- Whether the columns of a table are those of its fields: every arm is a column,
an arc is none itself, and no field takes a name of the engine's. -/
def wellFormed (v : Version) (columns : List String) : Bool :=
  v.kinds.all fun (name, kind) =>
    match kind.arms with
    | some targets =>
        decide (name ∉ columns) && targets.all fun target =>
          decide (armColumn name target ∈ columns) &&
            decide (armColumn name target ∉ systemColumns ++ unhistoried)
    | none => decide (name ∉ systemColumns ++ unhistoried)

/-- The check constraint of the arcs: at most one arm is not null. -/
def exclusive (v : Version) (values : String → V) : Bool :=
  v.kinds.all fun (name, kind) =>
    match kind.arms with
    | some targets =>
        targets.all fun s => targets.all fun t =>
          decide (values (armColumn name s) = R.null) ||
            decide (values (armColumn name t) = R.null) || decide (s = t)
    | none => true

/-- A stored row as `to_jsonb` gives it. -/
def image (columns : List String) (values : String → V) : Columns V := fun c =>
  if c ∈ columns then some (values c) else none

/-- A row without the columns history never keeps. -/
def kept (row : Columns V) : Columns V := fun c => if c ∈ unhistoried then none else row c

/-- The columns whose value is another one than it was. -/
def moved (old new : Columns V) : Columns V := fun c =>
  if c ∈ volatileColumns ++ unhistoried then none
  else if old c = new c then none else new c

/-- `old is distinct from new`. -/
def distinctFrom (old new : Option V) : Bool :=
  match old, new with
  | some x, some y => !R.same x y
  | none, none => false
  | _, _ => true

/-- What an update changed, as the trigger compares the rows. -/
def difference (old new : Columns V) : Columns V := fun c =>
  if c ∈ volatileColumns ++ unhistoried then none
  else if distinctFrom R (old c) (new c) then new c else none

/-- Whether the trigger tells an update's rows apart wherever they differ. -/
def telling (columns : List String) (old new : String → V) : Bool :=
  columns.all fun c =>
    decide (c ∈ volatileColumns ++ unhistoried) || !R.same (old c) (new c) || decide (old c = new c)

variable {R} in
theorem difference_eq_moved {columns : List String} {old new : String → V}
    (h : telling R columns old new = true) :
    difference R (image columns old) (image columns new) = moved (image columns old) (image columns new) := by
  funext c
  rw [difference, moved]
  split
  · rfl
  · next hc =>
    by_cases hcol : c ∈ columns
    · have htold := List.all_eq_true.1 h c hcol
      simp only [hc, decide_false, Bool.false_or, Bool.or_eq_true, Bool.not_eq_true', decide_eq_true_eq] at htold
      simp only [image, hcol, if_true, distinctFrom, Option.some.injEq]
      by_cases heq : old c = new c
      · simp [heq, R.same_self]
      · simp [heq, htold.resolve_right heq]
    · simp [image, hcol, distinctFrom]

/-- A history row and, beside it, the row that was stored when it was written. -/
structure Written (V : Type*) where
  entry : Entry V
  stored : Option (Columns V)

/-- A table as one of its records sees it. -/
structure Table (V : Type*) where
  next : Nat
  definition : List FieldDef
  version : Version
  columns : List String
  live : Option (Nat × (String → V))
  log : List (Written V)

/-- Whether no revision of the record is of the table's version yet. -/
def Table.unseen (t : Table V) : Bool :=
  !t.log.any fun w => decide (w.entry.version.map (·.id) = some t.version.id)

/-- The row `bolt_audit` inserts. -/
def audit (t : Table V) (op : Op) (cause : Cause) (erased : Bool) (old new : Columns V)
    (revision : Nat) : Entry V where
  revision
  op
  cause
  changes :=
    if op = .create || (erased && op = .update) || (op = .update && t.unseen) then kept new
    else if op = .delete then fun _ => none
    else difference R old new
  version := some t.version
  full := op = .update && t.unseen
  system := fun c =>
    if c ∈ systemColumns then some (((if op = .delete then old else new) c).getD R.null) else none

inductive Action (V : Type*) where
  | create (revision : Nat) (cause : Cause) (values : String → V)
  | update (cause : Cause) (erased : Bool) (values : String → V)
  | delete (cause : Cause)
  | release (renamed : Bool) (definition : List FieldDef) (columns : List String)
      (migrated : (String → V) → String → V)

/-- The table after a release of another definition. -/
def Table.released (t : Table V) (definition : List FieldDef) (columns : List String)
    (migrated : (String → V) → String → V) : Table V where
  next := t.next + 1 + definition.length
  definition
  version := register t.version definition t.next
  columns
  live := t.live.map fun (revision, values) => (revision, migrated values)
  log := t.log

/-- What a write or a release does; one the database refuses changes nothing. -/
def step (t : Table V) : Action V → Table V
  | .create revision cause values =>
      match t.live with
      | none =>
          if 1 ≤ revision ∧ exclusive R t.version values then
            { t with
              live := some (revision, values)
              log := t.log ++ [⟨audit R t .create cause false (fun _ => none)
                (image t.columns values) revision, some (kept (image t.columns values))⟩] }
          else t
      | some _ => t
  | .update cause erased values =>
      match t.live with
      | some (revision, old) =>
          -- the arcs' check constraint, and the setting an erasure is made under
          if exclusive R t.version values ∧ (cause = .erased → erased = true) then
            { t with
              live := some (revision + 1, values)
              log := t.log ++ [⟨audit R t .update cause erased (image t.columns old)
                (image t.columns values) (revision + 1), some (kept (image t.columns values))⟩] }
          else t
      | none => t
  | .delete cause =>
      match t.live with
      | some (revision, old) =>
          { t with
            live := none
            -- a deletion is a revision of its own, and keeps no value
            log := t.log ++ [⟨audit R t .delete cause false (image t.columns old) (fun _ => none)
              (revision + 1), none⟩] }
      | none => t
  | .release renamed definition columns migrated =>
      if renamed || definition ≠ t.definition then
        let t' := t.released definition columns migrated
        if wellFormed t'.version columns ∧ (definition.map (·.name)).Nodup ∧
            t'.live.all (fun (_, values) => exclusive R t'.version values) then t'
        else t
      else t

def run (t : Table V) (acts : List (Action V)) : Table V := acts.foldl (step R) t

/-- A table before its first definition. -/
def unregistered : Table V := ⟨1, [], ⟨0, 0, [], []⟩, [], none, []⟩

/-- The names of a version are registered under identities of their own. -/
structure Version.Distinct (v : Version) : Prop where
  nodup : (v.kinds.map fun p => v.identity p.1).Nodup
  registered : ∀ p ∈ v.kinds, ∃ id, v.identity p.1 = .field id

/-- What is known of a field's identity is what its columns hold. -/
theorem knownChanges_identity {v : Version} (hv : v.Distinct) (changes : Columns V) {name : String}
    {kind : Kind} (h : (name, kind) ∈ v.kinds) :
    knownChanges R v changes (v.identity name) =
      (fieldValue R changes name kind).map fun value =>
        ⟨some v, name, R.historicalValue kind value⟩ := by
  have hnd : ((v.kinds.filterMap fun (name, kind) =>
      (fieldValue R changes name kind).map fun value =>
        (v.identity name, (⟨some v, name, R.historicalValue kind value⟩ :
          HistoricalValue V))).map Prod.fst).Nodup := by
    refine List.Nodup.sublist ?_ hv.nodup
    rw [List.map_filterMap]
    induction v.kinds with
    | nil => exact .slnil
    | cons p kinds ih =>
      cases hp : fieldValue R changes p.1 p.2 with
      | none => simpa [hp] using ih.cons _
      | some value => simpa [hp] using ih
  rw [knownChanges]
  cases hvalue : fieldValue R changes name kind with
  | some value =>
    refine setAll_of_mem hnd (List.mem_filterMap.2 ⟨(name, kind), h, ?_⟩) _
    simp [hvalue]
  | none =>
    refine setAll_of_not_mem ?_ _
    intro hmem
    obtain ⟨⟨_, x⟩, hx, heq⟩ := List.mem_map.1 hmem
    obtain ⟨⟨name', kind'⟩, h', hx⟩ := List.mem_filterMap.1 hx
    obtain ⟨value, hvalue', hpair⟩ := Option.map_eq_some_iff.1 hx
    obtain ⟨rfl, -⟩ := Prod.mk.inj hpair
    have hsame : (name', kind') = (name, kind) := List.inj_on_of_nodup_map hv.nodup h' h heq
    obtain ⟨rfl, rfl⟩ := Prod.mk.inj hsame
    simp [hvalue] at hvalue'

theorem knownChanges_eq_none {v : Version} (changes : Columns V) {i : Identity}
    (h : ∀ p ∈ v.kinds, v.identity p.1 ≠ i) : knownChanges R v changes i = none := by
  refine setAll_of_not_mem ?_ _
  intro hmem
  obtain ⟨⟨_, x⟩, hx, rfl⟩ := List.mem_map.1 hmem
  obtain ⟨p, hp, hx⟩ := List.mem_filterMap.1 hx
  obtain ⟨value, -, hpair⟩ := Option.map_eq_some_iff.1 hx
  exact h p hp (Prod.mk.inj hpair).1

/-- Other columns are kept under their own names, unless a field takes them. -/
theorem historyChanges_legacy {v : Version} (hv : v.Distinct) (changes : Columns V)
    (column : String) : historyChanges R (some v) changes (.legacy column) =
      if consumed v changes column then none
      else (changes column).map fun value => ⟨some v, column, value⟩ := by
  have hnone : knownChanges R v changes (.legacy column) = none := by
    apply knownChanges_eq_none
    intro p hp heq
    obtain ⟨id, hid⟩ := hv.registered p hp
    rw [hid] at heq
    cases heq
  simp only [historyChanges, hnone]
  cases changes column <;> simp

/-- An absent arm is no arm that is not null. -/
theorem arcValue_filter (changes : Columns V) (name : String) (targets : List String) :
    arcValue R changes name (targets.filter fun t => (changes (armColumn name t)).isSome) =
      arcValue R changes name targets := by
  rw [arcValue, arcValue, List.find?_filter]
  have htest : (fun t => (changes (armColumn name t)).isSome && nonNull R changes (armColumn name t)) =
      fun t => nonNull R changes (armColumn name t) := by
    funext t
    cases hc : changes (armColumn name t) <;> simp [nonNull, hc]
  simp [htest]

theorem fieldValue_arc {kind : Kind} {targets : List String} (h : kind.arms = some targets)
    (changes : Columns V) (name : String) : fieldValue R changes name kind =
      if ∃ t ∈ targets, (changes (armColumn name t)).isSome then
        some (arcValue R changes name targets)
      else none := by
  have hempty : (targets.filter fun t => (changes (armColumn name t)).isSome).isEmpty = true ↔
      ¬ ∃ t ∈ targets, (changes (armColumn name t)).isSome := by
    rw [List.isEmpty_iff, List.filter_eq_nil_iff]
    push Not
    rfl
  simp only [fieldValue, h, arcValue_filter]
  by_cases hany : ∃ t ∈ targets, (changes (armColumn name t)).isSome
  · rw [if_pos hany, if_neg (fun hc => hempty.1 hc hany)]
  · rw [if_neg hany, if_pos (hempty.2 hany)]

/-- The one element that passes a test is found. -/
theorem find?_eq_of_unique {α : Type*} {l : List α} {p : α → Bool} {a : α} (hmem : a ∈ l)
    (ha : p a = true) (huniq : ∀ b ∈ l, p b = true → b = a) : l.find? p = some a := by
  cases hfind : l.find? p with
  | none => exact absurd ha (by simpa using List.find?_eq_none.1 hfind a hmem)
  | some b => rw [huniq b (List.mem_of_find?_eq_some hfind) (List.find?_some hfind)]

section Difference

variable {R} {v : Version} {columns : List String} {old new : String → V}

theorem moved_or {c : String} (hc : c ∉ volatileColumns) :
    (moved (image columns old) (image columns new) c).or (kept (image columns old) c) =
      kept (image columns new) c := by
  by_cases hu : c ∈ unhistoried
  · simp [moved, kept, hu]
  · by_cases hcol : c ∈ columns
    · by_cases heq : old c = new c <;> simp [moved, kept, image, hc, hu, hcol, heq]
    · simp [moved, kept, image, hcol]

/-- A changed column is in both rows, with another value. -/
theorem moved_eq_some {c : String} {value : V}
    (h : moved (image columns old) (image columns new) c = some value) :
    c ∈ columns ∧ old c ≠ new c ∧ value = new c := by
  rw [moved] at h
  split at h
  · cases h
  · split at h
    · cases h
    · next hne =>
      by_cases hcol : c ∈ columns
      · simp only [image, hcol, if_true] at h hne
        exact ⟨hcol, fun heq => hne (by rw [heq]), by simpa using h.symm⟩
      · simp [image, hcol] at h

theorem exclusive_arms (h : exclusive R v new = true) {name : String} {kind : Kind}
    (hmem : (name, kind) ∈ v.kinds) {targets : List String} (harms : kind.arms = some targets)
    {s t : String} (hs : s ∈ targets) (ht : t ∈ targets) (hns : new (armColumn name s) ≠ R.null)
    (hnt : new (armColumn name t) ≠ R.null) : s = t := by
  have hall := List.all_eq_true.1 h (name, kind) hmem
  simp only [harms] at hall
  have hst := List.all_eq_true.1 (List.all_eq_true.1 hall s hs) t ht
  simpa [hns, hnt] using hst

theorem arms_ne_nil {kind : Kind} {targets : List String} (h : kind.arms = some targets) :
    targets ≠ [] := by
  rintro rfl
  cases kind with
  | refs to_ =>
    rw [Kind.arms] at h
    split at h
    · next hlen =>
      obtain rfl : to_ = [] := by simpa using h
      simp at hlen
    · cases h
  | ref | other => cases h

/-- An arc is read off its arms. -/
theorem arcValue_congr {changes changes' : Columns V} {name : String} {targets : List String}
    (h : ∀ t ∈ targets, changes (armColumn name t) = changes' (armColumn name t)) :
    arcValue R changes name targets = arcValue R changes' name targets := by
  induction targets with
  | nil => rfl
  | cons t targets ih =>
    have ht : nonNull R changes (armColumn name t) = nonNull R changes' (armColumn name t) := by
      rw [nonNull, nonNull, h t List.mem_cons_self]
    have ih := ih fun s hs => h s (List.mem_cons_of_mem t hs)
    rw [arcValue, arcValue, List.find?_cons, List.find?_cons, ht]
    cases nonNull R changes' (armColumn name t) with
    | true => simp [h t List.mem_cons_self]
    | false => exact ih

/-- An arc with one arm that is not null is that arm's reference. -/
theorem arcValue_eq {changes : Columns V} {name : String} {targets : List String} {t : String}
    {value : V} (ht : t ∈ targets) (hvalue : changes (armColumn name t) = some value)
    (hnull : value ≠ R.null)
    (huniq : ∀ s ∈ targets, nonNull R changes (armColumn name s) = true → s = t) :
    arcValue R changes name targets = R.reference t value := by
  have hfind : (targets.find? fun t => nonNull R changes (armColumn name t)) = some t :=
    find?_eq_of_unique ht (by simp [nonNull, hvalue, hnull]) huniq
  simp [arcValue, hfind, hvalue]

theorem arcValue_null {changes : Columns V} {name : String} {targets : List String}
    (h : ∀ t ∈ targets, nonNull R changes (armColumn name t) = false) :
    arcValue R changes name targets = R.null := by
  have hfind : (targets.find? fun t => nonNull R changes (armColumn name t)) = none :=
    List.find?_eq_none.2 fun t ht => by simp [h t ht]
  simp [arcValue, hfind]

section Arc

variable {name : String} {targets : List String}
  (harm : ∀ t ∈ targets, armColumn name t ∈ columns ∧
    armColumn name t ∉ systemColumns ++ unhistoried)
  (hold : ∀ s ∈ targets, ∀ t ∈ targets, old (armColumn name s) ≠ R.null →
    old (armColumn name t) ≠ R.null → s = t)
  (hnew : ∀ s ∈ targets, ∀ t ∈ targets, new (armColumn name s) ≠ R.null →
    new (armColumn name t) ≠ R.null → s = t)

include harm

omit [DecidableEq V] in
theorem kept_arm (values : String → V) {t : String} (ht : t ∈ targets) :
    kept (image columns values) (armColumn name t) = some (values (armColumn name t)) := by
  have hu : armColumn name t ∉ unhistoried := fun h => (harm t ht).2 (List.mem_append_right _ h)
  simp [kept, image, hu, (harm t ht).1]

theorem moved_arm {t : String} (ht : t ∈ targets) :
    moved (image columns old) (image columns new) (armColumn name t) =
      if old (armColumn name t) = new (armColumn name t) then none
      else some (new (armColumn name t)) := by
  have hr : armColumn name t ∉ volatileColumns ++ unhistoried := by
    have := (harm t ht).2
    simp only [systemColumns, volatileColumns, List.mem_append, List.mem_cons] at this ⊢
    tauto
  simp [moved, hr, image, (harm t ht).1]

include hold hnew

/-- An arc some of whose arms changed is read off the changed arms: the arm that
is not null now is one of them, since its row had no other arm beside it. -/
theorem arcValue_moved {s : String} (hs : s ∈ targets)
    (hchanged : old (armColumn name s) ≠ new (armColumn name s)) :
    arcValue R (moved (image columns old) (image columns new)) name targets =
      arcValue R (kept (image columns new)) name targets := by
  by_cases hany : ∃ t ∈ targets, new (armColumn name t) ≠ R.null
  -- the arm that is set now is the changed one or was set from null, so it is among the changed
  · obtain ⟨t, ht, hnt⟩ := hany
    have hmoved : old (armColumn name t) ≠ new (armColumn name t) := by
      intro heq
      have hne : s ≠ t := by
        rintro rfl
        exact hchanged heq
      have hns : new (armColumn name s) = R.null := by
        by_contra hns
        exact hne (hnew s hs t ht hns hnt)
      exact hne (hold s hs t ht (hns ▸ hchanged) (heq ▸ hnt))
    rw [arcValue_eq ht (by rw [moved_arm harm ht, if_neg hmoved]) hnt,
      arcValue_eq ht (kept_arm harm new ht) hnt]
    · intro u hu hnu
      rw [nonNull, kept_arm harm new hu] at hnu
      exact hnew u hu t ht (by simpa using hnu) hnt
    · intro u hu hnu
      rw [nonNull, moved_arm harm hu] at hnu
      split at hnu
      · next heq =>
        split at heq
        · cases heq
        · cases heq
          exact hnew u hu t ht (by simpa using hnu) hnt
      · cases hnu
  · push Not at hany
    rw [arcValue_null, arcValue_null]
    · intro t ht
      simp [nonNull, kept_arm harm new ht, hany t ht]
    · intro t ht
      rw [nonNull, moved_arm harm ht]
      split
      · next heq =>
        split at heq
        · cases heq
        · cases heq
          simp [hany t ht]
      · rfl

end Arc

/-- A field's value after an update is what its difference holds, or else what it
was. -/
theorem fieldValue_moved (hformed : wellFormed v columns = true)
    (hold : exclusive R v old = true) (hnew : exclusive R v new = true) {name : String} {kind : Kind}
    (hmem : (name, kind) ∈ v.kinds) :
    fieldValue R (kept (image columns new)) name kind =
      (fieldValue R (moved (image columns old) (image columns new)) name kind).or
        (fieldValue R (kept (image columns old)) name kind) := by
  have hfield := List.all_eq_true.1 hformed (name, kind) hmem
  cases harms : kind.arms with
  | none =>
    simp only [harms, decide_eq_true_eq] at hfield
    have hc : name ∉ volatileColumns := by
      simp only [systemColumns, volatileColumns, List.mem_append, List.mem_cons] at hfield ⊢
      tauto
    simp only [fieldValue, harms]
    rw [← moved_or hc]
    cases moved (image columns old) (image columns new) name <;> simp
  | some targets =>
    simp only [harms, Bool.and_eq_true, decide_eq_true_eq, List.all_eq_true] at hfield
    obtain ⟨-, harm⟩ := hfield
    have hold := fun s hs t ht => exclusive_arms hold hmem harms (s := s) (t := t) hs ht
    have hnew := fun s hs t ht => exclusive_arms hnew hmem harms (s := s) (t := t) hs ht
    obtain ⟨t₀, ht₀⟩ := List.exists_mem_of_ne_nil targets (arms_ne_nil harms)
    have hfull : ∀ values : String → V, fieldValue R (kept (image columns values)) name kind =
        some (arcValue R (kept (image columns values)) name targets) := by
      intro values
      rw [fieldValue_arc R harms, if_pos ⟨t₀, ht₀, by rw [kept_arm harm values ht₀]; rfl⟩]
    rw [hfull, hfull, fieldValue_arc R harms]
    -- an arc none of whose arms changed holds what it held
    by_cases hany : ∃ t ∈ targets,
        (moved (image columns old) (image columns new) (armColumn name t)).isSome
    · obtain ⟨s, hs, hsome⟩ := hany
      have hchanged : old (armColumn name s) ≠ new (armColumn name s) := by
        intro heq
        simp [moved_arm harm hs, heq] at hsome
      rw [if_pos ⟨s, hs, hsome⟩, Option.some_or, arcValue_moved harm hold hnew hs hchanged]
    · rw [if_neg hany, Option.none_or]
      congr 1
      apply arcValue_congr
      intro t ht
      rw [kept_arm harm new ht, kept_arm harm old ht]
      by_contra hne
      have hmoved : old (armColumn name t) ≠ new (armColumn name t) := fun h => hne (by rw [h])
      exact hany ⟨t, ht, by simp [moved_arm harm ht, hmoved]⟩

/-- Whether a column is one of the version's fields. -/
def taken (v : Version) (column : String) : Bool :=
  v.kinds.any fun (name, kind) =>
    match kind.arms with
    | some targets => targets.any fun target => armColumn name target = column
    | none => name = column

omit [DecidableEq V] in
/-- A column that is there is consumed exactly by the field it belongs to. -/
theorem consumed_eq_taken (hformed : wellFormed v columns = true) {changes : Columns V}
    {c : String} (hc : (changes c).isSome) (hcol : c ∈ columns) :
    consumed v changes c = taken v c := by
  rw [consumed, taken, Bool.eq_iff_iff, List.any_eq_true, List.any_eq_true]
  refine exists_congr fun ⟨name, kind⟩ => and_congr_right fun hmem => ?_
  rw [← Bool.eq_iff_iff]
  have hfield := List.all_eq_true.1 hformed (name, kind) hmem
  dsimp only at hfield ⊢
  cases harms : kind.arms with
  | none =>
    by_cases hname : name = c
    · simp [hname, hc]
    · simp [hname]
  | some targets =>
    simp only [harms, Bool.and_eq_true, decide_eq_true_eq] at hfield
    have hname : name ≠ c := by
      rintro rfl
      exact hfield.1 hcol
    rw [Bool.eq_iff_iff]
    simp only [hname, decide_false, Bool.and_false, Bool.or_false, List.any_eq_true,
      List.mem_filter, decide_eq_true_eq]
    constructor
    · rintro ⟨t, ⟨ht, -⟩, harm⟩
      exact ⟨t, ht, harm⟩
    · rintro ⟨t, ht, harm⟩
      exact ⟨t, ⟨ht, by rw [harm]; exact hc⟩, harm⟩

theorem historyChanges_other (hv : v.Distinct) (hformed : wellFormed v columns = true)
    {changes : Columns V} (hsub : ∀ c, (changes c).isSome → c ∈ columns) (c : String) :
    historyChanges R (some v) changes (.legacy c) =
      if taken v c then none else (changes c).map fun value => ⟨some v, c, value⟩ := by
  rw [historyChanges_legacy R hv]
  cases hc : changes c with
  | none => simp
  | some value =>
    have hsome : (changes c).isSome := by simp [hc]
    rw [consumed_eq_taken hformed hsome (hsub c hsome)]

omit [DecidableEq V] in
theorem isSome_kept_image (values : String → V) (c : String)
    (h : (kept (image columns values) c).isSome) : c ∈ columns := by
  by_contra hcol
  simp [kept, image, hcol] at h

theorem isSome_moved (c : String)
    (h : (moved (image columns old) (image columns new) c).isSome) : c ∈ columns := by
  obtain ⟨value, hvalue⟩ := Option.isSome_iff_exists.1 h
  exact (moved_eq_some hvalue).1

/-- Decoding a row after an update is decoding what changed over what was there,
for every identity that is no system column. -/
theorem historyChanges_moved (hv : v.Distinct) (hformed : wellFormed v columns = true)
    (hold : exclusive R v old = true) (hnew : exclusive R v new = true) {i : Identity}
    (hi : ∀ c ∈ systemColumns, i ≠ .legacy c) :
    historyChanges R (some v) (kept (image columns new)) i =
      (historyChanges R (some v) (moved (image columns old) (image columns new)) i).or
        (historyChanges R (some v) (kept (image columns old)) i) := by
  cases i with
  | field id =>
    simp only [historyChanges]
    by_cases hknown : ∃ p ∈ v.kinds, v.identity p.1 = .field id
    · obtain ⟨⟨name, kind⟩, hmem, hid⟩ := hknown
      rw [← hid, knownChanges_identity R hv _ hmem, knownChanges_identity R hv _ hmem,
        knownChanges_identity R hv _ hmem, fieldValue_moved hformed hold hnew hmem]
      cases fieldValue R (moved (image columns old) (image columns new)) name kind <;> simp
    · have hnone : ∀ p ∈ v.kinds, v.identity p.1 ≠ .field id := fun p hp heq => hknown ⟨p, hp, heq⟩
      rw [knownChanges_eq_none R _ hnone, knownChanges_eq_none R _ hnone,
        knownChanges_eq_none R _ hnone]
      rfl
  | legacy c =>
    have hc : c ∉ volatileColumns := by
      have hsystem : c ∉ systemColumns := fun h => hi c h rfl
      simp only [systemColumns, volatileColumns, List.mem_cons] at hsystem ⊢
      tauto
    rw [historyChanges_other hv hformed (isSome_kept_image new),
      historyChanges_other hv hformed (isSome_kept_image old),
      historyChanges_other hv hformed isSome_moved]
    cases taken v c with
    | true => simp
    | false =>
      simp only [Bool.false_eq_true, if_false]
      rw [← moved_or hc]
      cases moved (image columns old) (image columns new) c <;> simp

end Difference

end Norbital.Bolt.History

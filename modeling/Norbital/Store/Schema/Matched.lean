import Mathlib.Data.List.Nodup
import Norbital.Store.Schema.Plan

/-!
# Plans that keep data

When the steps between two lists of objects, whose tables and stored columns are
the same by id, have no destructive one and neither drop nor create a table or a
stored column.
-/

namespace Norbital.Store.Schema

open SqlText

/-- No destructive step, no drop and no creation of a table or a stored column. -/
def KeepsData (steps : List Step) : Prop :=
  ∀ s ∈ steps, s.cls ≠ .destructive ∧ (∀ o, s.drop = some o → o.stored = false) ∧
    ∀ o, s.create = some o → o.stored = false

theorem byId_eq_some {os : List SchemaObject} (hnd : (os.map (·.id)).Nodup) {id : String}
    {o : SchemaObject} : byId os id = some o ↔ o ∈ os ∧ o.id = id := by
  unfold byId
  constructor
  · intro h
    exact ⟨List.mem_of_find?_eq_some h, by simpa using List.find?_some h⟩
  · rintro ⟨ho, rfl⟩
    cases hf : os.find? (·.id == o.id) with
    | none => simpa using List.find?_eq_none.mp hf o ho
    | some o' =>
      have hid : o'.id = o.id := by simpa using List.find?_some hf
      rw [List.inj_on_of_nodup_map hnd (List.mem_of_find?_eq_some hf) ho hid]

theorem byId_isNone {os : List SchemaObject} {id : String} :
    (byId os id).isNone ↔ ∀ o ∈ os, o.id ≠ id := by
  simp [byId]

/-- What is held, under its new names, and the next objects: the stored ones are the same by id, and
no other column reads like one of them. -/
structure Matched (before after : List SchemaObject) : Prop where
  nodup_before : (before.map (·.id)).Nodup
  nodup_after : (after.map (·.id)).Nodup
  exists_after : ∀ o ∈ before, o.stored → ∃ n ∈ after, n.id = o.id
  exists_before : ∀ n ∈ after, n.stored → ∃ o ∈ before, o.id = n.id
  stored_eq : ∀ o ∈ before, ∀ n ∈ after, o.id = n.id → o.stored = n.stored
  stored_table : ∀ n ∈ after, n.rank = .table → n.stored
  form : ∀ n ∈ after, n.stored → n.derived = false ∧
    (n.rank = .table ∧ n.deps = [] ∨ n.rank = .column ∧ ∃ c, n.deps = [c])
  apart : ∀ o ∈ before ++ after, ∀ n ∈ after, o.rank = .column → n.rank = .column → n.stored →
    colKey o (firstDep o) = colKey n (firstDep n) → o.id = n.id
  not_widens : ∀ o ∈ before, ∀ n ∈ after, o.id = n.id → widens o n = false
  drop : ∀ o ∈ before, o.stored → o.drop.isSome

namespace Matched

variable {before after : List SchemaObject}

/-- No stored object is among the changed ones, no stored column among the replaced. -/
def Untouched (after : List SchemaObject) (c : Changes) : Prop :=
  (∀ n ∈ after, n.stored → n.id ∉ c.changed) ∧
    ∀ n ∈ after, n.stored → n.rank = .column → colKey n (firstDep n) ∉ c.replacedCols

/-- The definitions of the stored objects are as they were. -/
def Defined (before after : List SchemaObject) : Prop :=
  ∀ o ∈ before, ∀ n ∈ after, o.id = n.id → n.stored → definition n = definition o

theorem mem_changedIds (m : Matched before after) {o n : SchemaObject} (ho : o ∈ before)
    (hn : n ∈ after) (hid : o.id = n.id) :
    n.id ∈ changedIds before after ↔ definition n ≠ definition o := by
  have hby : byId after o.id = some n := (byId_eq_some m.nodup_after).mpr ⟨hn, hid.symm⟩
  unfold changedIds
  simp only [List.mem_map, List.mem_filter]
  constructor
  · rintro ⟨o', ⟨ho', hany⟩, hid'⟩
    have hsame : o' = o := List.inj_on_of_nodup_map m.nodup_before ho' ho (hid'.trans hid.symm)
    rw [hsame, hby] at hany
    simpa using hany
  · intro h
    exact ⟨o, ⟨ho, by rw [hby]; simpa using h⟩, hid⟩

/-- A stored object whose definition is as it was is not changed. -/
theorem not_mem_changedIds (m : Matched before after) (h : Defined before after) {n : SchemaObject}
    (hn : n ∈ after) (hs : n.stored) : n.id ∉ changedIds before after := by
  obtain ⟨o, ho, hid⟩ := m.exists_before n hn hs
  rw [m.mem_changedIds ho hn hid]
  exact fun hne => hne (h o ho n hn hid hs)

theorem widenedIds_eq_nil (m : Matched before after) : widenedIds before after = [] := by
  unfold widenedIds
  rw [List.map_eq_nil_iff, List.filter_eq_nil_iff]
  intro n hn
  cases hb : byId before n.id with
  | none => simp
  | some o =>
    obtain ⟨ho, hid⟩ := (byId_eq_some m.nodup_before).mp hb
    simp [m.not_widens o ho n hn hid]

theorem widenedReaders_eq_nil (m : Matched before after) : widenedReaders before after = [] := by
  unfold widenedReaders widenedCols
  rw [m.widenedIds_eq_nil, List.filter_eq_nil_iff]
  simp

theorem replacedTables_eq_nil (m : Matched before after) (h : Defined before after) :
    replacedTables before after = [] := by
  unfold replacedTables
  rw [List.map_eq_nil_iff, List.filter_eq_nil_iff]
  intro n hn
  simp only [Bool.and_eq_true, decide_eq_true_eq, List.contains_iff_mem, not_and]
  intro hrank
  exact m.not_mem_changedIds h hn (m.stored_table n hn hrank)

theorem untouched_start (m : Matched before after) (h : Defined before after) :
    Untouched after ⟨withTables before after, lostCols before after⟩ := by
  constructor
  · intro n hn hs hmem
    unfold withTables at hmem
    rw [m.replacedTables_eq_nil h] at hmem
    obtain hmem | hmem := List.mem_append.mp hmem
    · exact m.not_mem_changedIds h hn hs hmem
    · simp at hmem
  · intro n hn hs hrank hmem
    unfold lostCols at hmem
    obtain ⟨o, ho, hkey⟩ := List.mem_map.mp hmem
    simp only [List.mem_filter, Bool.and_eq_true, decide_eq_true_eq, Bool.or_eq_true] at ho
    obtain ⟨ho, ⟨horank, -⟩, hlost⟩ := ho
    have hid := m.apart o (List.mem_append_left after ho) n hn horank hrank hs hkey
    obtain hgone | hchanged := hlost
    · exact byId_isNone.mp hgone n hn hid.symm
    · rw [hid, List.contains_iff_mem] at hchanged
      exact m.not_mem_changedIds h hn hs hchanged

/-- One object of a pass leaves the stored ones alone. -/
theorem untouched_growOne (m : Matched before after) {c : Changes} {o : SchemaObject}
    (ho : o ∈ after) (h : Untouched after c) : Untouched after (growOne before c o) := by
  unfold growOne
  split_ifs with hskip hrank
  · exact h
  · -- a column that is rebuilt: it is not stored, since it reads a replaced column
    have hnot : o.stored = false := by
      by_contra hs
      simp only [Bool.not_eq_false] at hs
      obtain ⟨-, ⟨htable, -⟩ | ⟨-, d, hd⟩⟩ := m.form o ho hs
      · rw [hrank] at htable
        exact absurd htable (by decide)
      · have hkey := h.2 o ho hs hrank
        simp [firstDep, hd] at hkey
        simp [hd, hkey] at hskip
    refine ⟨fun n hn hs hmem => ?_, fun n hn hs hr hmem => ?_⟩
    · obtain hmem | hmem := List.mem_append.mp hmem
      · exact h.1 n hn hs hmem
      · have hsame := List.inj_on_of_nodup_map m.nodup_after hn ho (List.mem_singleton.mp hmem)
        rw [hsame, hnot] at hs
        exact absurd hs Bool.false_ne_true
    · obtain hmem | hmem := List.mem_append.mp hmem
      · exact h.2 n hn hs hr hmem
      · have hid := m.apart o (List.mem_append_right before ho) n hn hrank hr hs
          (List.mem_singleton.mp hmem).symm
        have hsame := List.inj_on_of_nodup_map m.nodup_after ho hn hid
        rw [← hsame, hnot] at hs
        exact absurd hs Bool.false_ne_true
  · refine ⟨fun n hn hs hmem => ?_, h.2⟩
    obtain hmem | hmem := List.mem_append.mp hmem
    · exact h.1 n hn hs hmem
    · have hsame := List.inj_on_of_nodup_map m.nodup_after hn ho (List.mem_singleton.mp hmem)
      rw [hsame] at hs
      obtain ⟨-, ⟨-, hdeps⟩ | ⟨hcolumn, -⟩⟩ := m.form o ho hs
      · simp [hdeps] at hskip
      · exact hrank hcolumn

theorem untouched_foldl (m : Matched before after) {os : List SchemaObject} {c : Changes}
    (hos : ∀ o ∈ os, o ∈ after) (h : Untouched after c) :
    Untouched after (os.foldl (growOne before) c) := by
  induction os generalizing c with
  | nil => exact h
  | cons o os ih =>
    exact ih (fun p hp => hos p (List.mem_cons_of_mem o hp))
      (m.untouched_growOne (hos o List.mem_cons_self) h)

/-- The passes leave the stored objects alone. -/
theorem untouched_grow (m : Matched before after) {c : Changes} (h : Untouched after c) :
    Untouched after (grow before after c) := by
  unfold grow
  generalize after.length = n
  induction n generalizing c with
  | zero => exact h
  | succ n ih => exact ih (m.untouched_foldl (fun _ ho => ho) h)

theorem untouched_changes (m : Matched before after) (h : Defined before after) :
    Untouched after (changes before after) := by
  unfold changes
  rw [m.widenedReaders_eq_nil, List.map_nil, List.map_nil, List.append_nil, List.append_nil]
  exact m.untouched_grow (m.untouched_start h)

theorem changed_subset_growOne (c : Changes) (o : SchemaObject) :
    c.changed ⊆ (growOne before c o).changed := by
  unfold growOne
  split_ifs
  · exact List.Subset.refl _
  · exact List.subset_append_left _ _
  · exact List.subset_append_left _ _

theorem changed_subset_foldl (os : List SchemaObject) (c : Changes) :
    c.changed ⊆ (os.foldl (growOne before) c).changed := by
  induction os generalizing c with
  | nil => exact List.Subset.refl _
  | cons o os ih => exact List.Subset.trans (changed_subset_growOne c o) (ih _)

theorem changed_subset_grow (c : Changes) : c.changed ⊆ (grow before after c).changed := by
  unfold grow
  generalize after.length = n
  induction n generalizing c with
  | zero => exact List.Subset.refl _
  | succ n ih => exact List.Subset.trans (changed_subset_foldl after c) (ih _)

theorem changedIds_subset : changedIds before after ⊆ (changes before after).changed := by
  refine List.Subset.trans ?_ (changed_subset_grow _)
  exact List.Subset.trans (List.subset_append_left _ _) (List.subset_append_left _ _)

theorem createClass_ne_destructive (o : SchemaObject) : createClass before after o ≠ .destructive := by
  unfold createClass
  split_ifs <;> decide

theorem worst_ne_destructive {a b : StepClass} (ha : a ≠ .destructive) (hb : b ≠ .destructive) :
    a.worst b ≠ .destructive := by
  unfold StepClass.worst
  split_ifs
  · exact ha
  · exact hb

theorem worst_destructive {b : StepClass} (hb : b ≠ .destructive) :
    StepClass.destructive.worst b = .destructive := by
  cases b with
  | destructive => exact absurd rfl hb
  | _ => rfl

theorem dropClass_of_stored {o : SchemaObject} (h : o.stored = true) : dropClass o = .destructive :=
  if_pos h

theorem dropClass_of_not_stored {o : SchemaObject} (h : o.stored = false) :
    dropClass o = .additive := by
  unfold dropClass
  rw [h]
  rfl

theorem keepsData_renameSql (r : Renames) (tables cols : List String) :
    KeepsData (renameSql r tables cols) := by
  have hstep : ∀ id statement, (renameStep id statement).cls ≠ .destructive ∧
      (∀ o, (renameStep id statement).drop = some o → o.stored = false) ∧
      ∀ o, (renameStep id statement).create = some o → o.stored = false := by
    intro id statement
    exact ⟨by simp [renameStep], by simp [renameStep], by simp [renameStep]⟩
  intro s hs
  unfold renameSql at hs
  obtain hs | hs := List.mem_append.mp hs
  · obtain ⟨e, -, hs⟩ := List.mem_flatMap.mp hs
    simp only [List.mem_cons, List.not_mem_nil, or_false] at hs
    obtain rfl | rfl := hs
    · exact hstep _ _
    · exact hstep _ _
  · obtain ⟨e, -, hs⟩ := List.mem_flatMap.mp hs
    obtain ⟨f, -, rfl⟩ := List.mem_map.mp hs
    exact hstep _ _

/-- A plan between matched objects keeps the data exactly when the stored definitions are as they
were. -/
theorem keepsData_iff (m : Matched before after) (r : Renames) :
    KeepsData (stepsOf before after r) ↔ Defined before after := by
  constructor
  · intro hkeep o ho n hn hid hs
    by_contra hne
    have hchanged := changedIds_subset ((m.mem_changedIds ho hn hid).mpr hne)
    have hby : byId before n.id = some o := (byId_eq_some m.nodup_before).mpr ⟨ho, hid⟩
    have hos : o.stored = true := (m.stored_eq o ho n hn hid).trans hs
    -- the replacement of a changed stored object drops it, which no class but the destructive one allows
    have hguard : rowGuard o n = false := by
      obtain ⟨-, ⟨hrank, -⟩ | ⟨hrank, -⟩⟩ := m.form n hn hs <;> simp [rowGuard, hrank]
    have hmem : replaceStep before after n ∈ stepsOf before after r := by
      unfold stepsOf
      simp only [List.mem_append]
      refine .inl (.inl (.inr (List.mem_map.mpr ⟨n, List.mem_filter.mpr ⟨hn, ?_⟩, rfl⟩)))
      rw [m.widenedIds_eq_nil]
      simpa using hchanged
    refine (hkeep _ hmem).1 ?_
    unfold replaceStep
    rw [hby]
    simp only [Option.filter_some, m.drop o ho hos, hguard, Bool.not_false, Bool.and_self, if_true,
      Option.map_some, Option.getD_some, dropClass_of_stored hos]
    exact worst_destructive (createClass_ne_destructive n)
  · intro h
    have hun := m.untouched_changes h
    have hgone : ∀ o ∈ before, (byId after o.id).isNone → o.stored = false := by
      intro o ho hnone
      by_contra hs
      obtain ⟨n, hn, hid⟩ := m.exists_after o ho (by simpa using hs)
      exact byId_isNone.mp hnone n hn hid
    have hnew : ∀ n ∈ after, (byId before n.id).isNone → n.stored = false := by
      intro n hn hnone
      by_contra hs
      obtain ⟨o, ho, hid⟩ := m.exists_before n hn (by simpa using hs)
      exact byId_isNone.mp hnone o ho hid
    intro s hs
    unfold stepsOf at hs
    simp only [List.mem_append, List.mem_map, List.mem_filter] at hs
    -- renames, drops, replacements, widenings and creations, in the plan's order
    obtain (((hs | ⟨o, ⟨ho, hc⟩, rfl⟩) | ⟨n, ⟨hn, hc⟩, rfl⟩) | ⟨n, ⟨hn, hc⟩, rfl⟩) | ⟨n, ⟨hn, hc⟩, rfl⟩ := hs
    · exact keepsData_renameSql r _ _ s hs
    · have hns := hgone o ho (Bool.and_eq_true_iff.mp hc).1
      refine ⟨?_, ?_, ?_⟩
      · simp [dropClass_of_not_stored hns]
      · rintro p ⟨rfl⟩
        exact hns
      · intro p hp
        simp at hp
    · have hns : n.stored = false := by
        by_contra hs
        rw [Bool.and_eq_true, List.contains_iff_mem] at hc
        exact hun.1 n hn (by simpa using hs) hc.1
      have hdrop : ∀ o, (replaceStep before after n).drop = some o → o.stored = false := by
        intro o ho
        unfold replaceStep at ho
        obtain ⟨hb, -⟩ := Option.filter_eq_some_iff.mp ho
        obtain ⟨hmem, hid⟩ := (byId_eq_some m.nodup_before).mp hb
        rw [m.stored_eq o hmem n hn hid, hns]
      refine ⟨?_, hdrop, ?_⟩
      · refine worst_ne_destructive ?_ (createClass_ne_destructive n)
        cases hd : (replaceStep before after n).drop with
        | none =>
          rw [show (byId before n.id).filter _ = none from hd]
          decide
        | some o =>
          rw [show (byId before n.id).filter _ = some o from hd]
          simp [dropClass_of_not_stored (hdrop o hd)]
      · rintro p ⟨rfl⟩
        exact hns
    · rw [m.widenedIds_eq_nil] at hc
      simp at hc
    · have hns := hnew n hn hc
      refine ⟨createClass_ne_destructive n, ?_, ?_⟩
      · intro p hp
        simp at hp
      · rintro p ⟨rfl⟩
        exact hns

end Matched

end Norbital.Store.Schema

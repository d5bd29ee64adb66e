import Norbital.Bolt.History.Rebuild

/-!
# Histories the trigger writes

A record's history told by its revisions alone: each is the whole of a stored
row, the difference to the row before it, or a deletion.  Folding the physical
columns since the last revision that resets the reader gives the stored row
again, which is what lets a later revision stand for all before it.
-/

namespace Norbital.Bolt.History

open Maps

variable {V : Type*} [DecidableEq V]

/-- A stored row with what its table guarantees; a row from before the registry has
no version. -/
structure StoredRow (R : Reading V) where
  version : Option Version
  columns : List String
  values : String → V
  distinct : ∀ v ∈ version, v.Distinct
  formed : ∀ v ∈ version, wellFormed v columns = true
  arcs : ∀ v ∈ version, exclusive R v values = true

variable {R : Reading V}

/-- What history keeps of a stored row. -/
def StoredRow.kept (row : StoredRow R) : Columns V := History.kept (image row.columns row.values)

/-- Whether a revision's `meta` holds every system column. -/
def Entry.stamped (e : Entry V) : Prop := ∀ c ∈ systemColumns, (e.system c).isSome

/-- Columns that hold a row, but for those every write stamps. -/
structure Holds (columns : Columns V) (row : StoredRow R) : Prop where
  value : ∀ c, c ∉ volatileColumns → columns c = row.kept c
  sub : ∀ c, (columns c).isSome → c ∈ row.columns

theorem Holds.of_eq {columns : Columns V} {row : StoredRow R} (h : columns = row.kept) :
    Holds columns row := by
  subst h
  exact ⟨fun _ _ => rfl, isSome_kept_image row.values⟩

/-- One write: the row stored before it, its revision, and the row after. -/
inductive Follows : Option (StoredRow R) → Entry V → Option (StoredRow R) → Prop where
  | whole {before : Option (StoredRow R)} {e : Entry V} {row : StoredRow R} (hop : e.op ≠ .delete)
      (hversion : e.version = row.version) (hchanges : Holds e.changes row)
      (hsystem : e.stamped) (hover : e.resets = false → ∃ old, before = some old ∧
        old.version = row.version ∧ old.columns = row.columns) : Follows before e (some row)
  | change {old : StoredRow R} {e : Entry V} {row : StoredRow R} (hop : e.op = .update)
      (hversion : e.version = row.version) (hsame : old.version = row.version)
      (hcolumns : old.columns = row.columns)
      (hchanges : e.changes = moved (image row.columns old.values)
        (image row.columns row.values))
      (hsystem : e.stamped) (hresets : e.resets = false) : Follows (some old) e (some row)
  | delete {before : Option (StoredRow R)} {e : Entry V} (hop : e.op = .delete) :
      Follows before e none

/-- A history written one revision after another. -/
inductive Authored : Option (StoredRow R) → List (Entry V) → Option (StoredRow R) → Prop where
  | nil {row : Option (StoredRow R)} : Authored row [] row
  | cons {before row after : Option (StoredRow R)} {e : Entry V} {es : List (Entry V)}
      (h : Follows before e row) (hes : Authored row es after) : Authored before (e :: es) after

theorem authored_append {before after : Option (StoredRow R)} {es es' : List (Entry V)} :
    Authored before (es ++ es') after ↔ ∃ row, Authored before es row ∧ Authored row es' after := by
  induction es generalizing before with
  | nil =>
    constructor
    · exact fun h => ⟨before, .nil, h⟩
    · rintro ⟨row, ⟨⟩, h⟩
      exact h
  | cons e es ih =>
    constructor
    · rintro (_ | ⟨h, hes⟩)
      obtain ⟨row, hes, hes'⟩ := ih.1 hes
      exact ⟨row, .cons h hes, hes'⟩
    · rintro ⟨row, _ | ⟨h, hes⟩, hes'⟩
      exact .cons h (ih.2 ⟨row, hes, hes'⟩)

/-- Without a version every column stands for itself. -/
theorem historyChanges_unversioned (columns : Columns V) (c : String) :
    historyChanges R none columns (.legacy c) = (columns c).map fun value => ⟨none, c, value⟩ := by
  cases h : columns c <;> simp [historyChanges, h]

theorem not_volatile {c : String} (h : c ∉ systemColumns) : c ∉ volatileColumns := by
  simp only [systemColumns, volatileColumns, List.mem_cons] at h ⊢
  tauto

/-- What changed over what was there is the row. -/
theorem StoredRow.kept_moved {old row : StoredRow R} (hversion : old.version = row.version)
    (hcolumns : old.columns = row.columns) {i : Identity}
    (hi : ∀ c ∈ systemColumns, i ≠ .legacy c) : historyChanges R row.version row.kept i =
      (historyChanges R row.version (moved (image row.columns old.values)
        (image row.columns row.values)) i).or (historyChanges R old.version old.kept i) := by
  rw [StoredRow.kept, StoredRow.kept, hcolumns, hversion]
  cases hv : row.version with
  | some v =>
    exact historyChanges_moved (row.distinct v hv) (row.formed v hv)
      (old.arcs v (hversion.trans hv)) (row.arcs v hv) hi
  | none =>
    cases i with
    | field id => rfl
    | legacy c =>
      have hc := not_volatile fun hmem => hi c hmem rfl
      rw [historyChanges_unversioned, historyChanges_unversioned, historyChanges_unversioned,
        ← Option.map_or, moved_or hc]

theorem Holds.fieldValue_eq {columns : Columns V} {row : StoredRow R} (h : Holds columns row)
    {v : Version} (hv : row.version = some v) {name : String} {kind : Kind}
    (hmem : (name, kind) ∈ v.kinds) :
    fieldValue R columns name kind = fieldValue R row.kept name kind := by
  have hf := List.all_eq_true.1 (row.formed v hv) (name, kind) hmem
  have hvolatile : ∀ c, c ∉ systemColumns ++ unhistoried → columns c = row.kept c := by
    intro c hc
    exact h.value c (not_volatile fun hmem => hc (List.mem_append_left _ hmem))
  cases harms : kind.arms with
  | none =>
    simp only [harms, decide_eq_true_eq] at hf
    simp only [fieldValue, harms]
    rw [hvolatile name hf]
  | some targets =>
    simp only [harms, Bool.and_eq_true, decide_eq_true_eq, List.all_eq_true] at hf
    have harm : ∀ t ∈ targets, columns (armColumn name t) = row.kept (armColumn name t) :=
      fun t ht => hvolatile _ (hf.2 t ht).2
    rw [fieldValue_arc R harms, fieldValue_arc R harms, arcValue_congr harm]
    have hpresent : (∃ t ∈ targets, (columns (armColumn name t)).isSome) ↔
        ∃ t ∈ targets, (row.kept (armColumn name t)).isSome := by
      constructor <;> rintro ⟨t, ht, hsome⟩ <;> refine ⟨t, ht, ?_⟩
      · rw [← harm t ht]
        exact hsome
      · rw [harm t ht]
        exact hsome
    simp only [hpresent]

/-- Columns that hold a row decode as the row does. -/
theorem Holds.decodes {columns : Columns V} {row : StoredRow R} (h : Holds columns row) :
    Agrees (historyChanges R row.version columns) (historyChanges R row.version row.kept) := by
  intro i hi
  cases i with
  | legacy c =>
    have hc := not_volatile fun hmem => hi c hmem rfl
    cases hv : row.version with
    | none => rw [historyChanges_unversioned, h.value c hc, historyChanges_unversioned]
    | some v =>
      rw [historyChanges_other (row.distinct v hv) (row.formed v hv) h.sub, h.value c hc,
        StoredRow.kept, historyChanges_other (row.distinct v hv) (row.formed v hv)
          (isSome_kept_image row.values)]
  | field id =>
    cases hv : row.version with
    | none => rfl
    | some v =>
      have hdistinct := row.distinct v hv
      simp only [historyChanges]
      by_cases hknown : ∃ p ∈ v.kinds, v.identity p.1 = .field id
      · obtain ⟨⟨name, kind⟩, hmem, hid⟩ := hknown
        rw [← hid, knownChanges_identity R hdistinct _ hmem, knownChanges_identity R hdistinct _ hmem,
          h.fieldValue_eq hv hmem]
      · have hnone : ∀ p ∈ v.kinds, v.identity p.1 ≠ .field id :=
          fun p hp heq => hknown ⟨p, hp, heq⟩
        rw [knownChanges_eq_none R _ hnone, knownChanges_eq_none R _ hnone]

/-- A state that shows a row in every column that is no system one. -/
def Shows (state : State V) (row : StoredRow R) : Prop :=
  Agrees state (historyChanges R row.version row.kept)

theorem Follows.shows {row : StoredRow R} {before : Option (StoredRow R)} {e : Entry V}
    {state : State V} (h : Follows before e (some row))
    (hstate : e.resets = false → ∀ old, before = some old → Shows state old) :
    Shows (replay R state e) row := by
  intro i hi
  cases h with
  | whole hop hversion hchanges hsystem hover =>
    rw [replay_apply state hop hi, hversion, hchanges.decodes i hi]
    cases hr : e.resets with
    | true => simp
    | false =>
      obtain ⟨old, hold, hver, hcol⟩ := hover hr
      simp only [Bool.false_eq_true, if_false]
      rw [hstate hr old hold i hi, StoredRow.kept_moved hver hcol hi, Option.or_assoc, Option.or_self]
  | change hop hversion hsame hcolumns hchanges hsystem hresets =>
    rw [replay_apply state (by simp [hop]) hi, hversion, hchanges, hresets,
      StoredRow.kept_moved hsame hcolumns hi]
    simp only [Bool.false_eq_true, if_false]
    rw [hstate hresets _ rfl i hi]

/-- The columns of a list of revisions, the latest value of each. -/
def latest (es : List (Entry V)) : Columns V :=
  es.foldl (fun columns e => layOver e.changes columns) fun _ => none

theorem Follows.holds {old row : StoredRow R} {e : Entry V} {columns : Columns V}
    (h : Follows (some old) e (some row)) (hresets : e.resets = false) (hold : Holds columns old) :
    Holds (layOver e.changes columns) row := by
  cases h with
  | whole hop hversion hchanges hsystem hover =>
    obtain ⟨_, ⟨⟩, hver, hcol⟩ := hover hresets
    constructor
    · intro c hc
      rw [layOver_apply, hchanges.value c hc, hold.value c hc]
      by_cases hin : c ∈ unhistoried ∨ c ∉ row.columns
      · rcases hin with hin | hin <;> simp [StoredRow.kept, History.kept, image, hcol, hin]
      · push Not at hin
        simp [StoredRow.kept, History.kept, image, hin.1, hin.2]
    · intro c hc
      rw [layOver_apply, Option.isSome_or, Bool.or_eq_true] at hc
      rcases hc with hc | hc
      · exact hchanges.sub c hc
      · exact hcol ▸ hold.sub c hc
  | change hop hversion hsame hcolumns hchanges hsystem _ =>
    constructor
    · intro c hc
      rw [layOver_apply, hchanges, hold.value c hc, StoredRow.kept, hcolumns]
      exact moved_or hc
    · intro c hc
      rw [layOver_apply, hchanges, Option.isSome_or, Bool.or_eq_true] at hc
      rcases hc with hc | hc
      · exact isSome_moved c hc
      · exact hcolumns ▸ hold.sub c hc

/-- After a deletion nothing but deletions comes before a reset. -/
theorem Authored.none_eq {es : List (Entry V)} {after : Option (StoredRow R)}
    (h : Authored none es after) (hes : ∀ e ∈ es, e.resets = false) : after = none := by
  induction es with
  | nil =>
    cases h
    rfl
  | cons e es ih =>
    obtain _ | ⟨hfollows, hrest⟩ := h
    have hresets := hes e List.mem_cons_self
    cases hfollows with
    | whole _ _ _ _ hover =>
      obtain ⟨_, hnone, _⟩ := hover hresets
      cases hnone
    | delete => exact ih hrest fun e' he' => hes e' (List.mem_cons_of_mem e he')

/-- Along revisions that reset nothing, the reader shows and the columns hold the
stored row. -/
theorem Authored.since {es : List (Entry V)} {old row : StoredRow R} {state : State V}
    {columns : Columns V} (h : Authored (some old) es (some row))
    (hes : ∀ e ∈ es, e.resets = false) (hstate : Shows state old) (hcolumns : Holds columns old) :
    Shows (es.foldl (replay R) state) row ∧
      Holds (es.foldl (fun columns e => layOver e.changes columns) columns) row := by
  induction es generalizing old state columns with
  | nil =>
    cases h
    exact ⟨hstate, hcolumns⟩
  | cons e es ih =>
    obtain _ | @⟨_, mid, _, _, _, hfollows, hrest⟩ := h
    have hrest' : ∀ e' ∈ es, e'.resets = false := fun e' he' => hes e' (List.mem_cons_of_mem e he')
    cases mid with
    | none =>
      have hnone := hrest.none_eq hrest'
      cases hnone
    | some mid =>
      refine ih hrest hrest' (hfollows.shows ?_) (hfollows.holds (hes e List.mem_cons_self) hcolumns)
      rintro - _ ⟨⟩
      exact hstate

/-- Whether a revision's state does not depend on the one before it. -/
def Entry.absorbs (e : Entry V) : Bool := e.resets || e.op = .delete

theorem replay_absorbs {e : Entry V} (h : e.absorbs = true) (state state' : State V) :
    replay R state e = replay R state' e := by
  rcases Bool.or_eq_true_iff.1 h with hr | hd
  · simp [replay, hr]
  · simp [replay, of_decide_eq_true hd]

theorem replay_system {e : Entry V} (hop : e.op ≠ .delete) {c : String} (hc : c ∈ systemColumns)
    (hsystem : e.stamped) (state : State V) :
    replay R state e (.legacy c) = (e.system c).map fun value => ⟨e.version, c, value⟩ := by
  obtain ⟨value, hvalue⟩ := Option.isSome_iff_exists.1 (hsystem c hc)
  simp [replay, hop, systemChanges, hc, hvalue]

/-- The oldest kept revision with the columns since the last reset for its own,
recorded as a creation. -/
def Entry.anchored (e : Entry V) (columns : Columns V) : Entry V :=
  { e with op := .create, changes := columns }

/-- A write that is no deletion leaves a row of its version. -/
theorem Follows.row {before after : Option (StoredRow R)} {e : Entry V} (h : Follows before e after)
    (hop : e.op ≠ .delete) : ∃ row, after = some row ∧ e.version = row.version ∧ e.stamped := by
  cases h with
  | whole _ hversion _ hsystem _ => exact ⟨_, rfl, hversion, hsystem⟩
  | change _ hversion _ _ _ hsystem _ => exact ⟨_, rfl, hversion, hsystem⟩
  | delete hdelete => exact absurd hdelete hop

/-- The columns of a revision that resets the reader hold its row. -/
theorem Follows.reset {before : Option (StoredRow R)} {row : StoredRow R} {e : Entry V}
    (h : Follows before e (some row)) (hreset : e.resets = true) (state : State V) :
    Shows (replay R state e) row ∧ Holds (layOver e.changes fun _ => none) row := by
  refine ⟨h.shows fun hr => by simp [hreset] at hr, ?_⟩
  cases h with
  | whole hop hversion hchanges hsystem hover =>
    rw [show layOver e.changes (fun _ => none) = e.changes from funext fun c => by simp]
    exact hchanges
  | change hop hversion hsame hcolumns hchanges hsystem hresets =>
    rw [hreset] at hresets
    cases hresets

section Anchored

variable {before after : Option (StoredRow R)} {old since : List (Entry V)} {c e : Entry V}

/-- After an update the reader shows, and the columns since the last reset hold,
the row it left. -/
theorem Authored.since_reset (h : Authored before (old ++ c :: since) after)
    (hlast : ∃ init, old ++ c :: since = init ++ [e]) (hreset : c.resets = true)
    (hsince : ∀ e' ∈ since, e'.resets = false) (hop : e.op = .update) :
    ∃ row, after = some row ∧ e.version = row.version ∧ e.stamped ∧
      Holds (latest (c :: since)) row ∧
      ∀ state, Shows ((old ++ c :: since).foldl (replay R) state) row := by
  obtain ⟨init, hinit⟩ := hlast
  -- the last write leaves a row, so the reset is no deletion
  obtain ⟨row, rfl, hversion, hsystem⟩ : ∃ row, after = some row ∧
      e.version = row.version ∧ e.stamped := by
    rw [hinit, authored_append] at h
    obtain ⟨mid, -, _ | ⟨hfollows, ⟨⟩⟩⟩ := h
    exact hfollows.row (by simp [hop])
  obtain ⟨row₀, -, _ | @⟨_, mid, _, _, _, hfirst, hrest⟩⟩ := authored_append.1 h
  obtain ⟨first, rfl⟩ : ∃ first, mid = some first := by
    cases mid with
    | none => cases hrest.none_eq hsince
    | some first => exact ⟨first, rfl⟩
  refine ⟨row, rfl, hversion, hsystem, ?_, ?_⟩
  · obtain ⟨hshows, hholds⟩ := hfirst.reset hreset fun _ => none
    exact (hrest.since hsince hshows hholds).2
  · intro state
    obtain ⟨hshows, hholds⟩ := hfirst.reset hreset (old.foldl (replay R) state)
    rw [List.foldl_append, List.foldl_cons]
    exact (hrest.since hsince hshows hholds).1

omit [DecidableEq V] in
theorem anchored_resets (columns : Columns V) : (e.anchored columns).resets = true := by
  simp [Entry.resets, Entry.anchored]

/-- An update anchored on the columns since the last reset rebuilds to what it
did, whatever comes before it. -/
theorem replay_anchored (h : Authored before (old ++ c :: since) after)
    (hlast : ∃ init, old ++ c :: since = init ++ [e]) (hreset : c.resets = true)
    (hsince : ∀ e' ∈ since, e'.resets = false) (hop : e.op = .update) (state state' : State V) :
    replay R state (e.anchored (latest (c :: since))) =
      (old ++ c :: since).foldl (replay R) state' := by
  obtain ⟨row, rfl, hversion, hsystem, hholds, hshows⟩ := h.since_reset hlast hreset hsince hop
  obtain ⟨init, hinit⟩ := hlast
  funext i
  by_cases hi : ∀ c ∈ systemColumns, i ≠ .legacy c
  · rw [replay_apply state (by simp [Entry.anchored]) hi, anchored_resets, hshows state' i hi]
    simp only [if_true, Option.or_none]
    rw [show (e.anchored (latest (c :: since))).version = row.version from hversion]
    exact hholds.decodes i hi
  · push Not at hi
    obtain ⟨name, hname, rfl⟩ := hi
    rw [hinit, List.foldl_append, List.foldl_cons, List.foldl_nil,
      replay_system (by simp [hop]) hname hsystem]
    exact replay_system (e := e.anchored (latest (c :: since))) (by simp [Entry.anchored]) hname
      hsystem state

/-- The anchor is a write of its own, of the same row. -/
theorem follows_anchored (h : Authored before (old ++ c :: since) after)
    (hlast : ∃ init, old ++ c :: since = init ++ [e]) (hreset : c.resets = true)
    (hsince : ∀ e' ∈ since, e'.resets = false) (hop : e.op = .update)
    (before' : Option (StoredRow R)) :
    Follows before' (e.anchored (latest (c :: since))) after := by
  obtain ⟨row, rfl, hversion, hsystem, hholds, -⟩ := h.since_reset hlast hreset hsince hop
  refine .whole (by simp [Entry.anchored]) hversion hholds hsystem ?_
  intro hr
  rw [anchored_resets] at hr
  cases hr

/-- Every revision of a history follows some row. -/
theorem Authored.follows {es : List (Entry V)} (h : Authored before es after) (he : e ∈ es) :
    ∃ row row' : Option (StoredRow R), Follows row e row' := by
  induction h with
  | nil => cases he
  | cons hfollows _ ih =>
    rcases List.mem_cons.1 he with rfl | he
    · exact ⟨_, _, hfollows⟩
    · exact ih he

/-- A write that absorbs can follow any row. -/
theorem Follows.absorbs (h : Follows before e after) (habsorbs : e.absorbs = true)
    (before' : Option (StoredRow R)) : Follows before' e after := by
  cases h with
  | whole hop hversion hchanges hsystem hover =>
    refine .whole hop hversion hchanges hsystem ?_
    intro hr
    simp [Entry.absorbs, hr, hop] at habsorbs
  | change hop hversion hsame hcolumns hchanges hsystem hresets =>
    simp [Entry.absorbs, hresets, hop] at habsorbs
  | delete hop => exact .delete hop

/-- Revisions that absorb make a history by themselves. -/
theorem authored_absorbing {es : List (Entry V)}
    (h : ∀ e ∈ es, e.absorbs = true ∧ ∃ row row' : Option (StoredRow R), Follows row e row')
    (first : Option (StoredRow R)) : ∃ last, Authored first es last := by
  induction es generalizing first with
  | nil => exact ⟨first, .nil⟩
  | cons e es ih =>
    obtain ⟨habsorbs, row, row', hfollows⟩ := h e List.mem_cons_self
    obtain ⟨last, hlast⟩ := ih (fun e' he' => h e' (List.mem_cons_of_mem e he')) row'
    exact ⟨last, .cons (hfollows.absorbs habsorbs first) hlast⟩

end Anchored

omit [DecidableEq V] in
theorem audit_stamped (t : Table V) (op : Op) (cause : Cause) (erased : Bool)
    (old new : Columns V) (revision : Nat) : (audit R t op cause erased old new revision).stamped := by
  intro c hc
  simp [audit, hc]

/-- The row a table stores. -/
def Sound.row {t : Table V} (h : Sound R t) {values : String → V}
    (harcs : exclusive R t.version values = true) : StoredRow R :=
  ⟨some t.version, t.columns, values, by rintro v ⟨⟩; exact h.registered.distinct,
    by rintro v ⟨⟩; exact h.formed, by rintro v ⟨⟩; exact harcs⟩

/-- The history of a table so far, ending in the live row once a revision is of
its version. -/
def Authors (R : Reading V) (t : Table V) : Prop :=
  ∃ last : Option (StoredRow R), Authored none (t.log.map (·.entry)) last ∧
    ∀ p, t.live = some p → t.unseen = false →
      ∃ row, last = some row ∧ row.version = some t.version ∧ row.columns = t.columns ∧ row.values = p.2

theorem Authors.append {t : Table V} {e : Entry V} {stored : Option (Columns V)}
    {live : Option (Nat × (String → V))} {last : Option (StoredRow R)}
    (next : Option (StoredRow R)) (hlog : Authored none (t.log.map (·.entry)) last) (hfollows : Follows last e next)
    (hlive : ∀ p, live = some p → ∃ row, next = some row ∧ row.version = some t.version ∧
      row.columns = t.columns ∧ row.values = p.2) :
    Authors R { t with live := live, log := t.log ++ [⟨e, stored⟩] } := by
  refine ⟨next, ?_, fun p hp _ => hlive p hp⟩
  simp only [List.map_append, List.map_cons, List.map_nil]
  exact authored_append.2 ⟨last, hlog, .cons hfollows .nil⟩

theorem Authors.step {t : Table V} (h : Authors R t) (hsound : Sound R t) (x : Action V)
    (hx : lawful R t x = true) : Authors R (step R t x) := by
  obtain ⟨last, hlog, hlast⟩ := h
  cases x with
  | create revision cause values =>
    rw [History.step]
    split
    · split
      · next hadmitted =>
        refine .append (some (hsound.row hadmitted.2)) hlog ?_ ?_
        · refine .whole (by simp [audit]) rfl (.of_eq (by simp [audit]; rfl))
            (audit_stamped _ _ _ _ _ _ _) ?_
          intro hr
          simp [Entry.resets, audit] at hr
        · rintro p ⟨⟩
          exact ⟨_, rfl, rfl, rfl, rfl⟩
      · exact ⟨last, hlog, hlast⟩
    · exact ⟨last, hlog, hlast⟩
  | update cause erased values =>
    rw [History.step]
    split
    · next revision old hlive =>
      split
      · next hadmitted =>
        refine .append (some (hsound.row hadmitted.1)) hlog ?_ ?_
        · -- a snapshot and an erasure are whole, any other update is a difference
          cases hunseen : t.unseen with
          | true =>
            refine .whole (by simp [audit]) rfl (.of_eq (by simp [audit, hunseen]; rfl))
              (audit_stamped _ _ _ _ _ _ _) ?_
            intro hr
            simp [Entry.resets, audit, hunseen] at hr
          | false =>
            obtain ⟨row, rfl, hversion, hcolumns, hvalues⟩ := hlast _ hlive hunseen
            cases erased with
            | true =>
              exact .whole (by simp [audit]) rfl (.of_eq (by simp [audit]; rfl))
                (audit_stamped _ _ _ _ _ _ _) fun _ => ⟨row, rfl, hversion, hcolumns⟩
            | false =>
              have hcause : cause ≠ .erased := fun h => by simpa using hadmitted.2 h
              have htold := lawful_told hx hlive hunseen rfl
              refine .change rfl rfl hversion hcolumns ?_ (audit_stamped _ _ _ _ _ _ _) ?_
              · rw [hvalues]
                simp [audit, hunseen, difference_eq_moved htold]
                rfl
              · simp [Entry.resets, audit, hunseen, hcause]
        · rintro p ⟨⟩
          exact ⟨_, rfl, rfl, rfl, rfl⟩
      · exact ⟨last, hlog, hlast⟩
    · exact ⟨last, hlog, hlast⟩
  | delete cause =>
    rw [History.step]
    split
    · refine .append none hlog (.delete rfl) ?_
      rintro p ⟨⟩
    · exact ⟨last, hlog, hlast⟩
  | release renamed definition columns migrated =>
    rw [History.step]
    split
    · dsimp only
      split
      -- nothing is written, and the row counts as unseen under the new definition
      · refine ⟨last, hlog, ?_⟩
        intro p _ hseen
        rw [hsound.released_unseen] at hseen
        cases hseen
      · exact ⟨last, hlog, hlast⟩
    · exact ⟨last, hlog, hlast⟩

theorem Authors.run {t : Table V} (hsound : Sound R t) (h : Authors R t) (acts : List (Action V))
    (hacts : lawfulRun R t acts = true) : Authors R (run R t acts) := by
  induction acts generalizing t with
  | nil => exact h
  | cons x acts ih =>
    rw [lawfulRun, Bool.and_eq_true] at hacts
    exact ih (hsound.step x hacts.1) (h.step hsound x hacts.1) hacts.2

/-- The history a lawful run leaves is authored, from no row on. -/
theorem run_authored (R : Reading V) (acts : List (Action V))
    (hacts : lawfulRun R unregistered acts = true) :
    ∃ last : Option (StoredRow R),
      Authored none ((run R unregistered acts).log.map (·.entry)) last := by
  have hauthors : Authors R (unregistered : Table V) := ⟨none, .nil, nofun⟩
  obtain ⟨last, hlog, -⟩ := Authors.run unregistered_sound hauthors acts hacts
  exact ⟨last, hlog⟩

end Norbital.Bolt.History

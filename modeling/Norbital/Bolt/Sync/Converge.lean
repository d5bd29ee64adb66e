import Norbital.Bolt.Sync.Read

/-!
# Convergence of versioned pages

Pages of rows with versions of one kind, decimals or ISO instants, that `commit` writes
one after the other from an empty id map.  The code compares versions by a rank: the
number itself, or the millisecond of the instant.  What stands of each remote id is the
first delivered row of the highest rank, so the pages converge to the highest version
where that row has it.  A page fails where it deletes again, in a newer version, what is
deleted.
-/

namespace Norbital.Bolt.Sync

open Norbital.Lib Norbital.Std

/-- A page, with the partition and the state it was read for. -/
structure Delivery where
  partition : String
  state : State
  page : Page
  deriving DecidableEq, Repr

def delivered (deliveries : List Delivery) : List Row := deliveries.flatMap (·.page.rows)

def Row.value (row : Row) : ℚ := versionValue (row.version.getD "")

namespace Session

def commits (x : Session) (store : Store) (deliveries : List Delivery) : Option Store :=
  deliveries.foldlM (fun store (d : Delivery) => x.commit store d.partition d.state d.page) store

/-- Whether a page passes what has nothing to do with deletions: its rows have remote ids, the write
pipeline takes what it writes, its cursor is the stored one, and no record becomes two remote rows'. -/
def admits (x : Session) (store : Store) (d : Delivery) : Bool :=
  (d.page.rows.foldlM x.keep []).any fun last =>
    let plans := x.plans store last
    ((writes plans).isEmpty || !x.refuses (writes plans) store.records) &&
      (statePieces store d.partition d.state (d.state.next d.page)
        (plans.map fun e => (e.1, e.2.record, e.2.version)) [] store.records).isSome

/-- Every page passes in the store it is committed to. -/
def Admitted (x : Session) : Store → List Delivery → Prop
  | _, [] => True
  | store, d :: rest => x.admits store d = true ∧
      ∀ next ∈ x.commit store d.partition d.state d.page, Admitted x next rest

instance decidableAdmitted (x : Session) : (store : Store) → (deliveries : List Delivery) →
    Decidable (Admitted x store deliveries)
  | _, [] => isTrue trivial
  | store, d :: rest =>
    have : ∀ next, Decidable (Admitted x next rest) := fun next => decidableAdmitted x next rest
    inferInstanceAs (Decidable (x.admits store d = true ∧ ∀ next ∈ x.commit store d.partition d.state d.page, _))

/-- No row that stands of a page deletes again, in a newer version, what a row before it deleted. -/
def BuriedPage (x : Session) (rows page : List Row) : Prop :=
  ∀ r ∈ rows, ∀ r' ∈ page, r.deleted = true → r'.deleted = true → ∀ rid ∈ x.rid r',
    x.newest none (x.rowsOf rid rows) = some r → x.newest none (x.rowsOf rid page) = some r' →
    x.outdated r.version r'.version = true

instance (x : Session) (rows page : List Row) : Decidable (BuriedPage x rows page) :=
  inferInstanceAs (Decidable (∀ r ∈ rows, ∀ r' ∈ page, _))

/-- The same of each page after the rows before it. -/
def BuriedOnce (x : Session) : List Row → List Delivery → Prop
  | _, [] => True
  | rows, d :: rest => BuriedPage x rows d.page.rows ∧ BuriedOnce x (rows ++ d.page.rows) rest

instance decidableBuriedOnce (x : Session) : (rows : List Row) → (deliveries : List Delivery) →
    Decidable (BuriedOnce x rows deliveries)
  | _, [] => isTrue trivial
  | rows, d :: rest =>
    have := decidableBuriedOnce x (rows ++ d.page.rows) rest
    inferInstanceAs (Decidable (BuriedPage x rows d.page.rows ∧ _))

/-- A page leaves of each remote row the record it had, unless the stored version rises. -/
def Advances (store store' : Store) : Prop :=
  ∀ rid mark, store.marks.lookup rid = some mark →
    ∃ mark', store'.marks.lookup rid = some mark' ∧ mark'.record = mark.record ∧
      (mark'.version = mark.version ∧ store'.records.lookup mark.record = store.records.lookup mark.record ∨
        ∃ v v', mark.version = some v ∧ mark'.version = some v' ∧ versionValue v < versionValue v')

/-- What converging pages do: in the end every delivered remote id has the highest version delivered, in its
mark and in its record, and no page on the way takes a version back or writes an older one. -/
structure Converged (x : Session) (init final : Store) (deliveries : List Delivery) : Prop where
  highest : ∀ rid, x.rowsOf rid (delivered deliveries) ≠ [] →
    ∃ row ∈ x.rowsOf rid (delivered deliveries),
      (∀ other ∈ x.rowsOf rid (delivered deliveries), other.value ≤ row.value) ∧
      ∃ mark version, final.marks.lookup rid = some mark ∧ mark.version = some version ∧
        versionValue version = row.value ∧ Reflects x (final.records.lookup mark.record) row
  advances : ∀ before (d : Delivery) after, deliveries = before ++ d :: after → ∀ store store',
    x.commits init before = some store → x.commit store d.partition d.state d.page = some store' →
    Advances store store'

/-- Every page is committed, and they converge. -/
def Converges (x : Session) (init : Store) (deliveries : List Delivery) : Prop :=
  ∃ final, x.commits init deliveries = some final ∧ Converged x init final deliveries

/-- The first of a remote id's rows that none is newer than has the highest version. -/
def Leading (x : Session) (rows : List Row) : Prop :=
  ∀ rid earlier (row : Row) after, x.rowsOf rid rows = earlier ++ row :: after →
    (∀ r ∈ earlier, x.outdated r.version row.version = false) →
    (∀ r ∈ after, x.outdated row.version r.version = true) →
    ∀ r ∈ x.rowsOf rid rows, r.value ≤ row.value

section Ranked

variable {x : Session} {kind : String → Prop} {rank : String → ℚ} {rows : List Row} {row : Row}

theorem newest_append (p : Option Row) (rows rows' : List Row) :
    x.newest p (rows ++ rows') = x.newest (x.newest p rows) rows' :=
  List.foldl_append

/-- Rows that are outdated change nothing. -/
theorem newest_of_outdated (h : ∀ r ∈ rows, x.outdated row.version r.version = true) :
    x.newest (some row) rows = some row := by
  induction rows with
  | nil => rfl
  | cons r rows ih =>
    have hr : x.later (some row) r = row := if_pos (h r List.mem_cons_self)
    show x.newest (some (x.later (some row) r)) rows = some row
    rw [hr]
    exact ih fun r' hr' => h r' (List.mem_cons_of_mem r hr')

theorem newest_mem {p : Option Row} (h : x.newest p rows = some row) : p = some row ∨ row ∈ rows := by
  induction rows generalizing p with
  | nil => exact .inl h
  | cons r rows ih =>
    rcases ih h with hlater | hmem
    · rw [← Option.some_inj.1 hlater]
      cases p with
      | none => exact .inr List.mem_cons_self
      | some p =>
        rw [later]
        split_ifs
        · exact .inl rfl
        · exact .inr List.mem_cons_self
    · exact .inr (List.mem_cons_of_mem r hmem)

/-- The row that is newer than those before it, and that none after it is newer than. -/
theorem newest_of_split {earlier after : List Row}
    (hearlier : ∀ r ∈ earlier, x.outdated r.version row.version = false)
    (hafter : ∀ r ∈ after, x.outdated row.version r.version = true) :
    x.newest none (earlier ++ row :: after) = some row := by
  rw [newest_append]
  show x.newest (some (x.later (x.newest none earlier) row)) after = some row
  have hlater : x.later (x.newest none earlier) row = row := by
    cases hp : x.newest none earlier with
    | none => rfl
    | some p =>
      have hmem := (newest_mem hp).resolve_left (Option.some_ne_none p).symm
      rw [later, if_neg]
      rw [hearlier p hmem]
      exact Bool.false_ne_true
  rw [hlater]
  exact newest_of_outdated hafter

/-- Whether the row has a version of the kind. -/
def Of (kind : String → Prop) (row : Row) : Prop := ∃ v, row.version = some v ∧ kind v

variable (hranked : Ranked x.newer kind versionValue rank)
include hranked

theorem outdated_iff {a b : Row} {u v : String} (ha : a.version = some u) (hb : b.version = some v) (hu : kind u)
    (hv : kind v) : x.outdated a.version b.version = true ↔ rank v ≤ rank u := by
  rw [ha, hb, outdated, Bool.not_eq_true', ← Bool.not_eq_true, hranked.newer_iff v u hv hu, not_lt]

theorem outdated_trans {a b c : Row} (ha : Of kind a) (hb : Of kind b) (hc : Of kind c)
    (hab : x.outdated a.version b.version = true) (hbc : x.outdated b.version c.version = true) :
    x.outdated a.version c.version = true := by
  obtain ⟨u, hu, hku⟩ := ha
  obtain ⟨v, hv, hkv⟩ := hb
  obtain ⟨w, hw, hkw⟩ := hc
  rw [outdated_iff hranked hu hv hku hkv] at hab
  rw [outdated_iff hranked hv hw hkv hkw] at hbc
  exact (outdated_iff hranked hu hw hku hkw).2 (hbc.trans hab)

theorem outdated_total {a b : Row} (ha : Of kind a) (hb : Of kind b) (hab : x.outdated a.version b.version = false) :
    x.outdated b.version a.version = true := by
  obtain ⟨u, hu, hku⟩ := ha
  obtain ⟨v, hv, hkv⟩ := hb
  rw [← Bool.not_eq_true, outdated_iff hranked hu hv hku hkv, not_le] at hab
  exact (outdated_iff hranked hv hu hkv hku).2 hab.le

theorem outdated_self {a : Row} (ha : Of kind a) : x.outdated a.version a.version = true := by
  obtain ⟨u, hu, hku⟩ := ha
  exact (outdated_iff hranked hu hu hku hku).2 le_rfl

/-- No row is newer than one that is newer than those before it and not overtaken after it. -/
theorem outdated_of_split {earlier after : List Row} (hrows : ∀ r ∈ earlier ++ row :: after, Of kind r)
    (hearlier : ∀ r ∈ earlier, x.outdated r.version row.version = false)
    (hafter : ∀ r ∈ after, x.outdated row.version r.version = true) :
    ∀ r ∈ earlier ++ row :: after, x.outdated row.version r.version = true := by
  intro r hr
  have hrow : Of kind row := hrows row (by simp)
  rcases List.mem_append.1 hr with hmem | hmem
  · exact outdated_total hranked (hrows r hr) hrow (hearlier r hmem)
  · rcases List.mem_cons.1 hmem with rfl | hmem
    · exact outdated_self hranked hrow
    · exact hafter r hmem

/-- The rows of a remote id have one that is newer than those before it and not overtaken after it. -/
theorem exists_split (hrows : ∀ r ∈ rows, Of kind r) (hne : rows ≠ []) :
    ∃ earlier, ∃ row : Row, ∃ after, rows = earlier ++ row :: after ∧
      (∀ r ∈ earlier, x.outdated r.version row.version = false) ∧
      ∀ r ∈ after, x.outdated row.version r.version = true := by
  -- by the last row: either it is outdated, or it is newer than all before it
  induction hn : rows.length generalizing rows with
  | zero => exact absurd (List.length_eq_zero_iff.1 hn) hne
  | succ n ih =>
    obtain ⟨rows, r, rfl⟩ := List.eq_nil_or_concat rows |>.resolve_left hne
    rw [List.concat_eq_append] at *
    by_cases hrows' : rows = []
    · exact ⟨[], r, [], by rw [hrows'], fun _ h => (List.not_mem_nil h).elim, fun _ h => (List.not_mem_nil h).elim⟩
    have hkind : ∀ r' ∈ rows, Of kind r' := fun r' hr' => hrows r' (List.mem_append_left _ hr')
    have hr : Of kind r := hrows r (by simp)
    obtain ⟨earlier, row, after, rfl, hearlier, hafter⟩ := ih hkind hrows' (by simpa using hn)
    have hrow : Of kind row := hkind row (by simp)
    by_cases hout : x.outdated row.version r.version = true
    · refine ⟨earlier, row, after ++ [r], by simp, hearlier, fun r' hr' => ?_⟩
      rcases List.mem_append.1 hr' with hr' | hr'
      · exact hafter r' hr'
      · rw [List.mem_singleton.1 hr']
        exact hout
    · refine ⟨_, r, [], rfl, fun q hq => ?_, fun _ h => (List.not_mem_nil h).elim⟩
      have hmax := outdated_of_split hranked hkind hearlier hafter q hq
      rw [← Bool.not_eq_true]
      exact fun hqr => hout (outdated_trans hranked hrow (hkind q hq) hr hmax hqr)

/-- A page's rows stand against a stored one as the row that stands after them does. -/
theorem newest_some (hrows : ∀ r ∈ rows, Of kind r) {t : Row} (ht : Of kind t) :
    x.newest (some t) rows =
      match x.newest none rows with
      | some row => some (x.later (some t) row)
      | none => some t := by
  by_cases hne : rows = []
  · rw [hne]
    rfl
  obtain ⟨earlier, row, after, rfl, hearlier, hafter⟩ := exists_split hranked hrows hne
  rw [newest_of_split hearlier hafter]
  dsimp only
  rw [later]
  split_ifs with hout
  · refine newest_of_outdated fun r hr => ?_
    exact outdated_trans hranked ht (hrows row (by simp)) (hrows r hr) hout
      (outdated_of_split hranked hrows hearlier hafter r hr)
  · rw [newest_append]
    show x.newest (some (x.later (x.newest (some t) earlier) row)) after = some row
    have hlater : x.later (x.newest (some t) earlier) row = row := by
      cases hp : x.newest (some t) earlier with
      | none => rfl
      | some p =>
        rw [later, if_neg]
        rcases newest_mem hp with heq | hmem
        · rw [← Option.some_inj.1 heq]
          exact hout
        · rw [hearlier p hmem]
          exact Bool.false_ne_true
    rw [hlater]
    exact newest_of_outdated hafter

end Ranked

section Run

variable {x : Session} {kind : String → Prop} {rank : String → ℚ} {store store' init final : Store} {rows : List Row}
  {taken last : List (String × Row)} {partition : String} {state : State} {page : Page} {deliveries : List Delivery}

/-- Every record stands as the newest of the rows delivered has it, and its mark has that row's version. -/
structure Standing (x : Session) (store : Store) (rows : List Row) (taken : List (String × Row)) : Prop where
  held : Held x store taken
  newest : ∀ rid, taken.lookup rid = x.newest none (x.rowsOf rid rows)
  version : ∀ rid mark, store.marks.lookup rid = some mark →
    ∃ row : Row, taken.lookup rid = some row ∧ mark.version = row.version

theorem Standing.mem (h : Standing x store rows taken) {rid : String} {row : Row} (hrow : taken.lookup rid = some row) :
    row ∈ rows := by
  rw [h.newest rid] at hrow
  exact List.mem_of_mem_filter ((newest_mem hrow).resolve_left (Option.some_ne_none row).symm)

/-- What a page kept is one of its rows. -/
theorem Commits.mem (hc : Commits x store partition state page last store') {rid : String} {row : Row}
    (hrow : last.lookup rid = some row) : row ∈ page.rows := by
  rw [hc.kept rid] at hrow
  exact List.mem_of_mem_filter ((newest_mem hrow).resolve_left (Option.some_ne_none row).symm)

theorem Standing.commit (hranked : Ranked x.newer kind versionValue rank) (h : Standing x store rows taken)
    (hrows : ∀ r ∈ rows ++ page.rows, Of kind r) (hc : Commits x store partition state page last store') :
    Standing x store' (rows ++ page.rows) (x.take store last taken) := by
  have hof : ∀ rid row, taken.lookup rid = some row → Of kind row := fun rid row hrow =>
    hrows row (List.mem_append_left _ (h.mem hrow))
  have hpage : ∀ rid, ∀ r ∈ x.rowsOf rid page.rows, Of kind r := fun rid r hr =>
    hrows r (List.mem_append_right _ (List.mem_of_mem_filter hr))
  refine ⟨h.held.commit hc, fun rid => ?_, fun rid mark' hmark' => ?_⟩
  · have hsplit : x.rowsOf rid (rows ++ page.rows) = x.rowsOf rid rows ++ x.rowsOf rid page.rows := List.filter_append ..
    rw [hsplit, newest_append, ← h.newest rid, lookup_take hc.nodup, hc.kept rid]
    -- a page's newest row replaces the standing one just when the code finds it newer than the mark
    cases htaken : taken.lookup rid with
    | none =>
      have hmark : store.marks.lookup rid = none := by
        cases hmark : store.marks.lookup rid with
        | none => rfl
        | some mark =>
          obtain ⟨row, hrow, -⟩ := h.held.marked rid mark hmark
          exact absurd (hrow.symm.trans htaken) (Option.some_ne_none row)
      cases x.newest none (x.rowsOf rid page.rows) with
      | none => rfl
      | some row =>
        have hfresh : x.outdated (prior store rid) row.version = false := by
          rw [prior, hmark]
          cases row.version <;> rfl
        simp only [hfresh, Bool.false_eq_true, if_false]
    | some t =>
      rw [newest_some hranked (hpage rid) (hof rid t htaken)]
      cases hmark : store.marks.lookup rid with
      | none => exact absurd (htaken.symm.trans (h.held.unmarked rid hmark)) (Option.some_ne_none t)
      | some mark =>
        obtain ⟨row, hrow, hversion⟩ := h.version rid mark hmark
        rw [htaken, Option.some_inj] at hrow
        have hprior : prior store rid = t.version := by
          rw [prior, hmark, hrow, ← hversion]
          rfl
        rw [hprior]
        cases x.newest none (x.rowsOf rid page.rows) with
        | none => rfl
        | some row =>
          dsimp only
          rw [later]
          split_ifs <;> rfl
  · rw [lookup_take hc.nodup]
    have hmarks := hc.marks rid
    cases hlast : last.lookup rid with
    | none =>
      rw [hlast] at hmarks
      exact h.version rid mark' (hmarks.symm.trans hmark')
    | some row =>
      rw [hlast] at hmarks
      obtain rfl := Option.some_inj.1 (hmarks.symm.trans hmark')
      dsimp only
      by_cases hout : x.outdated (prior store rid) row.version = true
      · obtain ⟨-, hversion, mark, hmark⟩ := plan_of_outdated (x := x) hout
        obtain ⟨t, ht, hsame⟩ := h.version rid mark hmark
        refine ⟨t, by rw [if_pos hout, ht], ?_⟩
        rw [hversion, prior, hmark, ← hsame]
        rfl
      · obtain ⟨v, hv, -⟩ := hrows row (List.mem_append_right _ (hc.mem hlast))
        refine ⟨row, by rw [if_neg hout], ?_⟩
        rw [plan_version_of_newer hout, hv, Option.some_or]

/-- A page takes no version back, and changes no record whose version stays. -/
theorem Standing.advances (hranked : Ranked x.newer kind versionValue rank) (h : Standing x store rows taken)
    (hrows : ∀ r ∈ rows ++ page.rows, Of kind r) (hc : Commits x store partition state page last store') :
    Advances store store' := by
  intro rid mark hmark
  have hmarks := hc.marks rid
  cases hlast : last.lookup rid with
  | none =>
    rw [hlast, hmark] at hmarks
    exact ⟨mark, hmarks, rfl, .inl ⟨rfl, hc.stays hlast hmark⟩⟩
  | some row =>
    rw [hlast] at hmarks
    have hprior : prior store rid = mark.version := by rw [prior, hmark]; rfl
    have hrecord : (x.plan store rid row).record = mark.record := plan_record_of_mark hmark
    refine ⟨_, hmarks, hrecord, ?_⟩
    by_cases hout : x.outdated (prior store rid) row.version = true
    · left
      obtain ⟨hwrite, hversion, -⟩ := plan_of_outdated hout
      have hwritten := hc.written rid row hlast
      rw [hwrite, hrecord] at hwritten
      exact ⟨hversion.trans hprior, hwritten⟩
    · right
      obtain ⟨t, ht, hsame⟩ := h.version rid mark hmark
      obtain ⟨u, hu, hku⟩ := hrows t (List.mem_append_left _ (h.mem ht))
      obtain ⟨v, hv, hkv⟩ := hrows row (List.mem_append_right _ (hc.mem hlast))
      refine ⟨u, v, hsame.trans hu, ?_, ?_⟩
      · rw [plan_version_of_newer hout, hv, Option.some_or]
      · rw [hprior, hsame, outdated_iff hranked hu hv hku hkv] at hout
        by_contra hle
        exact hout (hranked.mono v u hkv hku (not_lt.1 hle))

/-- What stands of committed pages. -/
theorem Standing.run (hranked : Ranked x.newer kind versionValue rank) (h : Standing x store rows taken)
    (hrows : ∀ r ∈ rows ++ delivered deliveries, Of kind r) (hcommits : x.commits store deliveries = some final) :
    ∃ taken, Standing x final (rows ++ delivered deliveries) taken := by
  induction deliveries generalizing store rows taken with
  | nil =>
    cases hcommits
    exact ⟨taken, by simpa [delivered] using h⟩
  | cons d deliveries ih =>
    obtain ⟨next, hnext, hcommits⟩ := Option.bind_eq_some_iff.1 hcommits
    obtain ⟨last, -, hc⟩ := commit_spec hnext
    have hsplit : rows ++ delivered (d :: deliveries) = rows ++ d.page.rows ++ delivered deliveries := by
      simp [delivered]
    rw [hsplit] at hrows ⊢
    exact ih (h.commit hranked (fun r hr => hrows r (List.mem_append_left _ hr)) hc) hrows hcommits

theorem statePieces_isSome {next : State} {marks : List (String × String × Option String)} {gone : List String}
    (records records' : List (String × Fields)) :
    (statePieces store partition state next marks gone records).isSome =
      (statePieces store partition state next marks gone records').isSome := by
  rw [statePieces, statePieces]
  dsimp only
  split_ifs <;> rfl

/-- A page that passes is committed where the records it deletes are there. -/
theorem commit_of_admits {d : Delivery} (h : x.admits store d = true)
    (hlast : d.page.rows.foldlM x.keep [] = some last)
    (hpresent : ∀ w ∈ writes (x.plans store last), w.2 = .delete → (store.records.lookup w.1).isSome) :
    ∃ store', x.commit store d.partition d.state d.page = some store' := by
  simp only [admits, hlast, Option.any_some, Bool.and_eq_true] at h
  obtain ⟨hrefuses, hstate⟩ := h
  have hact : ∃ records, x.act (writes (x.plans store last)) store.records = some records := by
    rw [act]
    split_ifs with hempty hrefused
    · exact ⟨_, rfl⟩
    · rw [Bool.eq_false_iff.2 hempty, Bool.false_or, Bool.not_eq_true'] at hrefuses
      rw [hrefuses, Bool.false_or, List.any_eq_true] at hrefused
      obtain ⟨w, hw, hgone⟩ := hrefused
      rw [Bool.and_eq_true, decide_eq_true_eq] at hgone
      have hsome := hpresent w hw hgone.1
      rw [Option.isNone_iff_eq_none.1 hgone.2] at hsome
      cases hsome
    · exact ⟨_, rfl⟩
  obtain ⟨records, hact⟩ := hact
  rw [statePieces_isSome store.records records, Option.isSome_iff_exists] at hstate
  rw [commit, hlast, Option.bind_some]
  dsimp only
  rw [hact, Option.bind_some]
  exact hstate

theorem admits_of_commit {d : Delivery} (h : x.commit store d.partition d.state d.page = some store') :
    x.admits store d = true := by
  obtain ⟨last, hlast, h⟩ := Option.bind_eq_some_iff.1 h
  obtain ⟨records, hact, h⟩ := Option.bind_eq_some_iff.1 h
  simp only [admits, hlast, Option.any_some, Bool.and_eq_true]
  refine ⟨?_, by rw [statePieces_isSome store.records records, h]; rfl⟩
  rw [act] at hact
  split_ifs at hact with hempty hrefused
  · rw [hempty, Bool.true_or]
  · rw [Bool.or_eq_true, not_or, Bool.not_eq_true] at hrefused
    rw [hrefused.1, Bool.not_false, Bool.or_true]

theorem newest_row {rid : String} {row : Row} (h : x.newest none (x.rowsOf rid rows) = some row) :
    row ∈ rows ∧ x.rid row = some rid := by
  obtain ⟨hmem, hrid⟩ := List.mem_filter.1 ((newest_mem h).resolve_left (Option.some_ne_none row).symm)
  exact ⟨hmem, of_decide_eq_true hrid⟩

theorem Standing.prior_eq (h : Standing x store rows taken) {rid : String} {mark : Mark}
    (hmark : store.marks.lookup rid = some mark) {t : Row} (ht : taken.lookup rid = some t) :
    mark.version = t.version := by
  obtain ⟨t', ht', hversion⟩ := h.version rid mark hmark
  rw [hversion, Option.some_inj.1 (ht.symm.trans ht')]

/-- Where no deletion comes twice, every record a page deletes is there. -/
theorem Standing.present (h : Standing x store rows taken) (hlast : page.rows.foldlM x.keep [] = some last)
    (hburied : BuriedPage x rows page.rows) :
    ∀ w ∈ writes (x.plans store last), w.2 = .delete → (store.records.lookup w.1).isSome := by
  rintro ⟨id, write⟩ hw rfl
  obtain ⟨hnodup, hkept⟩ := keepAll_spec hlast List.nodup_nil
  obtain ⟨rid, row, hrow, rfl, hwrite⟩ := (mem_writes hnodup).1 hw
  have hnewest : x.newest none (x.rowsOf rid page.rows) = some row := (hkept rid).symm.trans hrow
  obtain ⟨hnew, hdeleted, hknown⟩ : x.outdated (prior store rid) row.version = false ∧ row.deleted = true ∧
      (x.known store rid row).isSome := by
    simp only [plan] at hwrite
    split_ifs at hwrite with hstale hdeleted
    · refine ⟨Bool.eq_false_iff.2 hstale, hdeleted, ?_⟩
      cases hknown : x.known store rid row with
      | none => simp [hknown] at hwrite
      | some record => rfl
    · cases hwrite
  cases hmark : store.marks.lookup rid with
  | none =>
    -- a record adopted by its key is one that is there
    obtain ⟨record, hrecord⟩ := Option.isSome_iff_exists.1 hknown
    have hplan : (x.plan store rid row).record = record := by simp only [plan, hrecord, Option.getD_some]
    rw [hplan]
    rw [known, hmark, adopted] at hrecord
    dsimp only at hrecord
    split_ifs at hrecord with hkeyed
    obtain ⟨e, hfind, rfl⟩ := Option.map_eq_some_iff.1 hrecord
    exact List.lookup_isSome_iff.2 ⟨e, List.mem_of_find?_eq_some hfind, BEq.rfl⟩
  | some mark =>
    rw [plan_record_of_mark hmark]
    obtain ⟨t, ht, hreflects⟩ := h.held.marked rid mark hmark
    rw [Reflects] at hreflects
    split_ifs at hreflects with hgone
    · have hstands : x.newest none (x.rowsOf rid rows) = some t := (h.newest rid).symm.trans ht
      obtain ⟨hrowmem, hrid⟩ := newest_row hnewest
      have hout := hburied t (newest_row hstands).1 row hrowmem hgone hdeleted rid hrid hstands hnewest
      have hprior : prior store rid = t.version := by
        rw [prior, hmark, Option.bind_some, h.prior_eq hmark ht]
      rw [hprior, hout] at hnew
      cases hnew
    · obtain ⟨fields, hfields, -⟩ := hreflects
      rw [hfields]
      rfl

/-- A page that is committed deletes nothing again. -/
theorem Standing.buried (h : Standing x store rows taken)
    (hcommit : x.commit store partition state page = some store') : BuriedPage x rows page.rows := by
  intro r _ r' _ hdeleted hdeleted' rid _ hstands hnewest
  obtain ⟨last, hlast, hc⟩ := commit_spec hcommit
  have ht : taken.lookup rid = some r := (h.newest rid).trans hstands
  cases hmark : store.marks.lookup rid with
  | none => exact absurd (ht.symm.trans (h.held.unmarked rid hmark)) (Option.some_ne_none r)
  | some mark =>
    obtain ⟨t, ht', hreflects⟩ := h.held.marked rid mark hmark
    obtain rfl := Option.some_inj.1 (ht.symm.trans ht')
    rw [Reflects, if_pos hdeleted] at hreflects
    rw [← h.prior_eq hmark ht]
    by_contra hnew
    have hnone : x.commit store partition state page = none :=
      commit_of_gone hlast ((hc.kept rid).trans hnewest) hmark hreflects hdeleted' (Bool.eq_false_iff.2 hnew)
    rw [hcommit] at hnone
    cases hnone

/-- Pages are all committed exactly where each passes and no deletion comes twice. -/
theorem Standing.commits_iff (hranked : Ranked x.newer kind versionValue rank) (h : Standing x store rows taken)
    (hrows : ∀ r ∈ rows ++ delivered deliveries, Of kind r) :
    (∃ final, x.commits store deliveries = some final) ↔
      Admitted x store deliveries ∧ BuriedOnce x rows deliveries := by
  induction deliveries generalizing store rows taken with
  | nil => exact iff_of_true ⟨store, rfl⟩ ⟨trivial, trivial⟩
  | cons d deliveries ih =>
    have hsplit : rows ++ delivered (d :: deliveries) = rows ++ d.page.rows ++ delivered deliveries := by
      simp [delivered]
    rw [hsplit] at hrows
    have hnext : ∀ next, x.commit store d.partition d.state d.page = some next →
        ((∃ final, x.commits next deliveries = some final) ↔
          Admitted x next deliveries ∧ BuriedOnce x (rows ++ d.page.rows) deliveries) := by
      intro next hcommit
      obtain ⟨last, -, hc⟩ := commit_spec hcommit
      exact ih (h.commit hranked (fun r hr => hrows r (List.mem_append_left _ hr)) hc) hrows
    have hstep : ∀ final, x.commits store (d :: deliveries) = some final ↔
        ∃ next, x.commit store d.partition d.state d.page = some next ∧ x.commits next deliveries = some final :=
      fun final => Option.bind_eq_some_iff
    constructor
    · rintro ⟨final, hcommits⟩
      obtain ⟨next, hcommit, hcommits⟩ := (hstep final).1 hcommits
      obtain ⟨hadmitted, honce⟩ := (hnext next hcommit).1 ⟨final, hcommits⟩
      refine ⟨⟨admits_of_commit hcommit, ?_⟩, h.buried hcommit, honce⟩
      intro next' hcommit'
      rw [hcommit] at hcommit'
      exact Option.some_inj.1 hcommit' ▸ hadmitted
    · rintro ⟨⟨hadmits, hadmitted⟩, hburied, honce⟩
      obtain ⟨last, hlast, -⟩ : ∃ last, d.page.rows.foldlM x.keep [] = some last ∧ True := by
        rw [admits, Option.any_eq_true] at hadmits
        exact hadmits.imp fun last hl => ⟨hl.1, trivial⟩
      obtain ⟨next, hcommit⟩ := commit_of_admits hadmits hlast (h.present hlast hburied)
      obtain ⟨final, hcommits⟩ := (hnext next hcommit).2 ⟨hadmitted next hcommit, honce⟩
      exact ⟨final, (hstep final).2 ⟨next, hcommit, hcommits⟩⟩

/-- Before the first page the id map is empty, and no record has a minted id. -/
theorem standing_init (hmarks : init.marks = []) (hfresh : ∀ rid, init.records.lookup (x.stableId rid) = none) :
    Standing x init [] [] := by
  refine ⟨⟨?_, fun rid hrid => ?_, fun rid mark hmark => ?_, fun _ _ => rfl⟩, fun _ => rfl, fun rid mark hmark => ?_⟩
  · rw [hmarks]
    exact List.nodup_nil
  · rw [hfresh rid] at hrid
    cases hrid
  · rw [hmarks] at hmark
    cases hmark
  · rw [hmarks] at hmark
    cases hmark

theorem converged_iff_of_ranked (hranked : Ranked x.newer kind versionValue rank) (hmarks : init.marks = [])
    (hfresh : ∀ rid, init.records.lookup (x.stableId rid) = none)
    (hrows : ∀ r ∈ delivered deliveries, Of kind r) (hcommits : x.commits init deliveries = some final) :
    Converged x init final deliveries ↔ Leading x (delivered deliveries) := by
  have hinit : Standing x init [] [] := standing_init hmarks hfresh
  obtain ⟨taken, hfinal⟩ := hinit.run hranked (by simpa using hrows) hcommits
  rw [List.nil_append] at hfinal
  constructor
  · intro h rid earlier row after hsplit hearlier hafter
    have hne : x.rowsOf rid (delivered deliveries) ≠ [] := by
      rw [hsplit]
      simp
    obtain ⟨top, -, hmax, mark, version, hmark, hversion, hvalue, -⟩ := h.highest rid hne
    -- the mark has the version of the row that stands, which is the leading one
    obtain ⟨stands, hstands, hsame⟩ := hfinal.version rid mark hmark
    rw [hfinal.newest rid, hsplit, newest_of_split hearlier hafter] at hstands
    obtain rfl := Option.some_inj.1 hstands
    have hvrow : row.value = top.value := by
      rw [← hvalue, Row.value, ← hsame, hversion, Option.getD_some]
    rw [hvrow]
    exact hmax
  · intro hleading
    refine ⟨fun rid hne => ?_, fun before d after heq store store' hbefore hd => ?_⟩
    · have hof : ∀ r ∈ x.rowsOf rid (delivered deliveries), Of kind r := fun r hr =>
        hrows r (List.mem_of_mem_filter hr)
      obtain ⟨earlier, row, after, hsplit, hearlier, hafter⟩ := exists_split hranked hof hne
      have hmem : row ∈ x.rowsOf rid (delivered deliveries) := by
        rw [hsplit]
        simp
      have htaken : taken.lookup rid = some row := by
        rw [hfinal.newest rid, hsplit, newest_of_split hearlier hafter]
      refine ⟨row, hmem, hleading rid earlier row after hsplit hearlier hafter, ?_⟩
      cases hmark : final.marks.lookup rid with
      | none => exact absurd (htaken.symm.trans (hfinal.held.unmarked rid hmark)) (Option.some_ne_none row)
      | some mark =>
        obtain ⟨row', hrow', hversion⟩ := hfinal.version rid mark hmark
        obtain ⟨row'', hrow'', hreflects⟩ := hfinal.held.marked rid mark hmark
        obtain rfl := Option.some_inj.1 (htaken.symm.trans hrow')
        obtain rfl := Option.some_inj.1 (htaken.symm.trans hrow'')
        obtain ⟨v, hv, -⟩ := hof row hmem
        refine ⟨mark, v, rfl, hversion.trans hv, ?_, hreflects⟩
        rw [Row.value, hv, Option.getD_some]
    · have hrows' : ∀ r ∈ delivered before ++ d.page.rows, Of kind r := by
        intro r hr
        refine hrows r ?_
        rw [heq, delivered, List.flatMap_append, List.flatMap_cons]
        rcases List.mem_append.1 hr with hr | hr
        · exact List.mem_append_left _ hr
        · exact List.mem_append_right _ (List.mem_append_left _ hr)
      obtain ⟨taken', hbefore'⟩ := hinit.run hranked
        (by simpa using fun r hr => hrows' r (List.mem_append_left _ hr)) hbefore
      rw [List.nil_append] at hbefore'
      obtain ⟨last, -, hc⟩ := commit_spec hd
      exact hbefore'.advances hranked hrows' hc

end Run

/-- Pages from an empty id map, their versions all decimals or all ISO instants, converge exactly where
each of them passes, none deletes again in a newer version what is deleted, and of each remote id the
first row in the latest millisecond has the latest version. -/
theorem converged_iff (x : Session) (dateParse : String → Option ℤ) (hparse : ParsesInstants dateParse)
    (hnewer : x.newer = remoteVersionNewer dateParse) (init : Store) (hmarks : init.marks = [])
    (hfresh : ∀ rid, init.records.lookup (x.stableId rid) = none) (deliveries : List Delivery)
    (hversions : (∀ r ∈ delivered deliveries, Of (fun s => isDecimalText s = true) r) ∨
      ∀ r ∈ delivered deliveries, Of (fun s => (instantMs s).isSome = true) r) :
    Converges x init deliveries ↔
      (Admitted x init deliveries ∧ BuriedOnce x [] deliveries) ∧ Leading x (delivered deliveries) := by
  have hall : ∀ {kind : String → Prop} {rank : String → ℚ}, Ranked x.newer kind versionValue rank →
      (∀ r ∈ delivered deliveries, Of kind r) → (Converges x init deliveries ↔
        (Admitted x init deliveries ∧ BuriedOnce x [] deliveries) ∧ Leading x (delivered deliveries)) := by
    intro kind rank hranked hrows
    rw [← (standing_init hmarks hfresh).commits_iff hranked (by simpa using hrows)]
    have hiff := fun (final : Store) (hcommits : x.commits init deliveries = some final) =>
      converged_iff_of_ranked hranked hmarks hfresh hrows hcommits
    constructor
    · rintro ⟨final, hcommits, hconverged⟩
      exact ⟨⟨final, hcommits⟩, (hiff final hcommits).1 hconverged⟩
    · rintro ⟨⟨final, hcommits⟩, hleading⟩
      exact ⟨final, hcommits, (hiff final hcommits).2 hleading⟩
  rcases hversions with hdecimals | hinstants
  · have hranked := ranked_decimals dateParse
    rw [← hnewer] at hranked
    exact hall hranked hdecimals
  · have hranked := ranked_instants hparse
    rw [← hnewer] at hranked
    exact hall hranked hinstants

/-- Of decimal versions the first of the newest rows always has the highest. -/
theorem leading_of_decimals {x : Session} {dateParse : String → Option ℤ} (hnewer : x.newer = remoteVersionNewer dateParse)
    {rows : List Row} (hrows : ∀ r ∈ rows, Of (fun s => isDecimalText s = true) r) : Leading x rows := by
  have hranked := ranked_decimals dateParse
  rw [← hnewer] at hranked
  intro rid earlier row after hsplit hearlier hafter r hr
  have hof : ∀ r ∈ earlier ++ row :: after, Of (fun s => isDecimalText s = true) r := fun r hr =>
    hrows r (List.mem_of_mem_filter (hsplit ▸ hr))
  rw [hsplit] at hr
  have hout := outdated_of_split hranked hof hearlier hafter r hr
  obtain ⟨u, hu, hku⟩ := hof row (by simp)
  obtain ⟨v, hv, hkv⟩ := hof r hr
  rw [outdated_iff hranked hu hv hku hkv] at hout
  rw [Row.value, Row.value, hu, hv]
  exact hout

/-- A sync of a model without a key, whose records have the remote ids for ids. -/
def keyless : Session :=
  ⟨[], none, "crm", fun rid => rid, remoteVersionNewer fun s => (instantMs s).map Int.floor, fun _ _ => false⟩

theorem parses_keyless : ParsesInstants fun s => (instantMs s).map Int.floor := by
  intro s ms h
  dsimp only
  rw [h]
  rfl

/-- A delivery of the sync's one partition, read for the state the one before it left. -/
def nthPage (n : Nat) (rows : List Row) : Delivery :=
  ⟨"", ⟨if n = 0 then none else some "cursor", if n = 0 then 0 else 1, .read, n, "d"⟩, ⟨rows, some "cursor", none⟩⟩

/-- A row of a record's name. -/
def named (rid version name : String) : Row := ⟨some rid, some version, false, [("name", some name)]⟩

def removed (rid version : String) : Row := ⟨some rid, some version, true, []⟩

/-- A row that comes, goes, and comes again beside another one. -/
def returningPages : List Delivery :=
  [nthPage 0 [named "r" "1" "old"], nthPage 1 [removed "r" "2", removed "r" "2.0"],
    nthPage 2 [named "r" "10" "new", named "q" "1" "other", removed "r" "3"]]

theorem returningPages_converge : Converges keyless ⟨[], [], []⟩ returningPages := by
  have hdecimals : ∀ r ∈ delivered returningPages, Of (fun s => isDecimalText s = true) r := by
    intro r hr
    have hall : ∀ r ∈ delivered returningPages, r.version.any isDecimalText = true := by decide
    obtain ⟨v, hv, hdecimal⟩ := (Option.any_eq_true _ _).1 (hall r hr)
    exact ⟨v, hv, hdecimal⟩
  refine (converged_iff keyless _ parses_keyless rfl ⟨[], [], []⟩ rfl (fun _ => rfl) _ (Or.inl hdecimals)).2
    ⟨⟨?_, ?_⟩, leading_of_decimals rfl hdecimals⟩
  · decide +kernel
  · decide +kernel

/-- The row's two versions in pages of their own. -/
def versionPages (first second : String) : List Delivery :=
  [nthPage 0 [named "r" first "old"], nthPage 1 [named "r" second "new"]]

/-- What the first page leaves where the second changes nothing. -/
def versionStore (version : String) : Store :=
  ⟨[("r", [("name", some "old")])], [("r", ⟨"r", "", some version, 1⟩)], [("", ⟨some "cursor", 1, .read, 2, "d"⟩)]⟩

/-- A deletion that comes twice, the second time in a newer version beside another row. -/
def buriedTwice : List Delivery :=
  [nthPage 0 [named "r" "1" "old"], nthPage 1 [removed "r" "2"], nthPage 2 [removed "r" "3", named "q" "1" "other"]]

/-- An instant that is later by less than a millisecond is dropped, and a newer deletion of a removed row
fails its page and the rows in it. -/
theorem sameMillisecond_diverges : ¬ Converges keyless ⟨[], [], []⟩
      (versionPages "2026-10-24T08:01:00.0001Z" "2026-10-24T08:01:00.0002Z") ∧
    ¬ Converges keyless ⟨[], [], []⟩ buriedTwice := by
  constructor
  · rintro ⟨final, hcommits, hconverged⟩
    have hfinal : keyless.commits ⟨[], [], []⟩
        (versionPages "2026-10-24T08:01:00.0001Z" "2026-10-24T08:01:00.0002Z") =
          some (versionStore "2026-10-24T08:01:00.0001Z") := by decide +kernel
    obtain rfl := Option.some_inj.1 (hfinal.symm.trans hcommits)
    obtain ⟨row, -, hmax, mark, version, hmark, hversion, hvalue, -⟩ := hconverged.highest "r" (by decide)
    obtain rfl := Option.some_inj.1 (show some _ = some mark from hmark)
    obtain rfl := Option.some_inj.1 (show some _ = some version from hversion)
    have hle := hmax (named "r" "2026-10-24T08:01:00.0002Z" "new") (by decide)
    rw [← hvalue] at hle
    revert hle
    decide +kernel
  · rintro ⟨final, hcommits, -⟩
    have hnone : keyless.commits ⟨[], [], []⟩ buriedTwice = none := by decide +kernel
    rw [hnone] at hcommits
    cases hcommits

end Session

end Norbital.Bolt.Sync

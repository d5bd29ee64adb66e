import Norbital.Bolt.History.Prune

/-!
# What a pruning pass keeps

`readHistory` folds the revisions of a record that have no version and then those
of the model's current lineage.  Pruning cuts the two partitions apart, and every
revision it leaves rebuilds to what it did; a second pass changes nothing.
-/

namespace Norbital.Bolt.History

open Maps KeyOrder

variable {V : Type*}

section Visible

variable {s : Setting} {keep : Nat} {rows : List (HistoryRow V)} {h : HistoryRow V}
  {model record : String}

/-- The revisions of a model's current lineage, none for an inactive model. -/
def versioned (s : Setting) (rows : List (HistoryRow V)) (model record : String) :
    List (HistoryRow V) :=
  match if s.active model then s.current model else none with
  | some lineage => historyOf rows (.inl lineage, record)
  | none => []

theorem mem_unversioned : h ∈ historyOf rows (.inr model, record) ↔
    h ∈ rows ∧ h.version = none ∧ h.collection = model ∧ h.record = record := by
  rw [mem_historyOf, HistoryRow.part, HistoryRow.lineage, Prod.mk.injEq]
  cases h.version <;> simp

theorem mem_lineage {lineage : Nat} : h ∈ historyOf rows (.inl lineage, record) ↔
    h ∈ rows ∧ (∃ v, h.version = some v ∧ v.lineage = lineage) ∧ h.record = record := by
  rw [mem_historyOf, HistoryRow.part, HistoryRow.lineage, Prod.mk.injEq]
  cases h.version <;> simp

theorem mem_versioned : h ∈ versioned s rows model record ↔
    h ∈ rows ∧ h.version.isSome ∧ readable s h model = true ∧ h.record = record := by
  rw [versioned, readable]
  cases hactive : s.active model with
  | false => cases h.version <;> simp
  | true =>
    cases hcurrent : s.current model with
    | none => cases h.version <;> simp
    | some lineage =>
      simp only [if_true, mem_lineage]
      cases h.version <;> simp [eq_comm]

/-- What the reader folds without a version lies below what it folds with one. -/
def LegacyBelow (s : Setting) (rows : List (HistoryRow V)) (model record : String) : Prop :=
  ∀ h ∈ historyOf rows (.inr model, record), ∀ h' ∈ versioned s rows model record,
    h.revision < h'.revision

theorem filter_unversioned :
    ((rows.filter fun h => readable s h model && h.record = record).filter fun h => h.version.isNone) =
      rows.filter fun h => h.part = (.inr model, record) := by
  rw [List.filter_filter]
  refine List.filter_congr fun h _ => ?_
  rw [readable, HistoryRow.part, HistoryRow.lineage]
  cases h.version <;> simp

theorem sort_versioned :
    (((rows.filter fun h => readable s h model && h.record = record).filter
      fun h => !h.version.isNone).insertionSort fun h h' => h.revision ≤ h'.revision) =
      versioned s rows model record := by
  have hnone : ∀ h : HistoryRow V, (if s.active model then s.current model else none) = none →
      (!h.version.isNone && (readable s h model && decide (h.record = record))) = false := by
    intro h hnone
    rw [readable]
    cases hactive : s.active model <;> cases h.version <;> simp_all
  rw [versioned, List.filter_filter]
  split
  · next lineage hlineage =>
    rw [historyOf]
    obtain ⟨hactive, hcurrent⟩ : s.active model = true ∧ s.current model = some lineage := by
      simpa using hlineage
    refine congrArg _ (List.filter_congr fun h _ => ?_)
    rw [readable, HistoryRow.part, HistoryRow.lineage]
    cases h.version with
    | none => simp
    | some v => simp [hactive, hcurrent, @eq_comm _ lineage]
  · next hlineage =>
    rw [List.filter_eq_nil_iff.2 fun h _ => by rw [hnone h hlineage]; exact Bool.false_ne_true]
    rfl

/-- What the reader folds: the unversioned revisions and then the versioned ones. -/
theorem visible_eq (hbelow : LegacyBelow s rows model record) :
    visible s rows model record =
      historyOf rows (.inr model, record) ++ versioned s rows model record := by
  rw [visible, insertionSort_classes (p := fun h => h.version.isNone), filter_unversioned, sort_versioned,
    historyOf]
  intro h hh hnone h' hh' hsome
  have hlegacy : h ∈ historyOf rows (.inr model, record) := by
    rw [historyOf, List.mem_insertionSort, ← filter_unversioned (s := s)]
    exact List.mem_filter.2 ⟨hh, hnone⟩
  have hversioned : h' ∈ versioned s rows model record := by
    rw [← sort_versioned, List.mem_insertionSort]
    exact List.mem_filter.2 ⟨hh', by simpa using hsome⟩
  exact hbelow h hlegacy h' hversioned

@[simp] theorem anchor_readable : readable s (anchor s keep rows h) model = readable s h model := by
  rw [readable, anchor_version, anchor_collection, readable]

theorem LegacyBelow.prune (hbelow : LegacyBelow s rows model record) (keep : Nat) :
    LegacyBelow s (pruneHistory s keep rows) model record := by
  intro h hh h' hh'
  obtain ⟨hh, hnone, hcollection, hrecord⟩ := mem_unversioned.1 hh
  obtain ⟨hh', hsome, hread, hrecord'⟩ := mem_versioned.1 hh'
  obtain ⟨h₀, hmem, -, rfl⟩ := mem_pruneHistory.1 hh
  obtain ⟨h₀', hmem', -, rfl⟩ := mem_pruneHistory.1 hh'
  simp only [anchor_version, anchor_collection, anchor_record, anchor_readable, anchor_revision] at *
  exact hbelow h₀ (mem_unversioned.2 ⟨hmem, hnone, hcollection, hrecord⟩) h₀'
    (mem_versioned.2 ⟨hmem', hsome, hread, hrecord'⟩)

/-- The newest revision of a partition stays. -/
theorem last_kept (hk : Keyed s keep rows) (hd : Apart rows h.part) (hs : shielded s rows h = false)
    (hkeep : 1 ≤ keep) {init : List (HistoryRow V)} (hlast : historyOf rows h.part = init ++ [h]) :
    gone s keep rows h = false := by
  have hmem : h ∈ historyOf rows h.part := by simp [hlast]
  rw [← Bool.not_eq_true, gone_open hk hd hs hmem]
  rintro ⟨-, hpast⟩
  have hle : (init ++ [h]).length - keep ≤ init.length := by
    simp only [List.length_append, List.length_singleton]
    omega
  rw [past, hlast, List.take_append_of_le_length hle] at hpast
  -- a revision of the past would stand in the partition twice
  have hnodup := hd.rising.nodup
  rw [hlast, List.nodup_append] at hnodup
  exact hnodup.2.2 h (List.mem_of_mem_take hpast) h (by simp) rfl

/-- What the pass leaves of an open partition's past are its markers. -/
theorem past_pruneHistory (hk : Keyed s keep rows) (hd : Apart rows h.part) (hs : shielded s rows h = false) :
    ∀ y ∈ past keep (pruneHistory s keep rows) h.part, erasedRow y = true := by
  have hnewest : (newest keep rows h.part).length ≤ keep := by
    rw [newest, List.length_drop]
    omega
  intro y hy
  rw [past, historyOf_pruneHistory hd, filter_gone_open hk hd hs, List.map_append,
    List.take_append_of_le_length (by simp only [List.length_append, List.length_map]; omega)] at hy
  obtain ⟨y₀, hy₀, rfl⟩ := List.mem_map.1 (List.mem_of_mem_take hy)
  rw [anchor_erasedRow]
  exact (List.mem_filter.1 hy₀).2

/-- What is ranked of a partition depends on its own rows. -/
theorem cuts_congr {rows' : List (HistoryRow V)} {p : (Nat ⊕ String) × String}
    (heq : (rows'.filter fun h => h.part = p) = rows.filter fun h => h.part = p) :
    cuts s keep rows' p = cuts s keep rows p := by
  have hpending : pending s rows' p = pending s rows p := by
    have hany : ∀ rows : List (HistoryRow V), pending s rows p =
        (rows.filter fun h => h.part = p).any fun h => h.operation.any s.unacknowledged :=
      fun rows => List.any_filter.symm
    rw [hany, hany, heq]
  have hfilter : ∀ rows : List (HistoryRow V),
      (rows.filter fun h => h.part = p && !pending s rows h.part && !heldRow s h) =
        (rows.filter fun h => h.part = p).filter fun h => !pending s rows p && !heldRow s h := by
    intro rows
    rw [List.filter_filter]
    refine List.filter_congr fun h _ => ?_
    by_cases hpart : h.part = p <;> simp [hpart]
  rw [cuts, ranked, hfilter, heq, hpending, ← hfilter, ← ranked, ← cuts]

/-- No partition is left with a revision to take off. -/
theorem cuts_pruneHistory (hk : Keyed s keep rows)
    (hd : ∀ q ∈ rows, cuts s keep rows q.part = true → Apart rows q.part) (p : (Nat ⊕ String) × String) :
    cuts s keep (pruneHistory s keep rows) p = false := by
  cases hcut : cuts s keep rows p with
  | false => exact (cuts_congr (filter_part_uncut hk hcut)).trans hcut
  | true =>
    obtain ⟨h, hh, rfl⟩ := mem_of_cuts hcut
    have hd := hd h hh hcut
    cases hs : shielded s (pruneHistory s keep rows) h with
    | true => simp [cuts, ranked_shielded hs]
    | false =>
      rw [cuts, ranked_open (hd.prune s keep) hs, List.drop_reverse, List.any_reverse, List.any_eq_false]
      intro y hy
      rw [past_pruneHistory hk hd (open_of_cuts hcut) y hy]
      exact Bool.false_ne_true

/-- A pass that cuts nothing changes nothing. -/
theorem pruneHistory_uncut (hcut : ∀ h ∈ rows, cuts s keep rows h.part = false) :
    pruneHistory s keep rows = rows := by
  have hgone : ∀ h ∈ rows, gone s keep rows h = false := by
    intro h _
    rw [gone, List.any_eq_false]
    intro q hq htrue
    obtain ⟨x, hx, hboth⟩ := List.any_eq_true.1 htrue
    exact List.any_eq_false.1 (hcut q hq) x hx (Bool.and_eq_true_iff.1 hboth).1
  have holdest : (rows.filterMap fun q => oldest s keep rows q.part) = [] := by
    refine List.filterMap_eq_nil_iff.2 fun q hq => ?_
    rw [oldest, if_neg (by rw [← cuts, hcut q hq]; exact Bool.false_ne_true)]
  have hanchor : ∀ h, anchor s keep rows h = h := by
    intro h
    rw [anchor, holdest]
    rfl
  rw [pruneHistory, List.filter_eq_self.2 fun h hh => by simp [hgone h hh]]
  exact (List.map_congr_left fun h _ => hanchor h).trans (List.map_id _)

end Visible

variable [DecidableEq V] {R : Reading V} {s : Setting} {keep : Nat} {rows : List (HistoryRow V)}
  {h : HistoryRow V}

/-- Where the pass cuts one of two partitions the reader folds together, the
revisions without a version come before those with one. -/
def LegacyFirst (s : Setting) (keep : Nat) (rows : List (HistoryRow V)) : Prop :=
  ∀ h ∈ rows, ∀ h' ∈ rows, h.version.isNone → h'.version.isSome → readable s h' h.collection = true →
    h'.record = h.record → (cuts s keep rows h.part = true ∨ cuts s keep rows h'.part = true) →
    h.revision < h'.revision

instance (s : Setting) (keep : Nat) (rows : List (HistoryRow V)) : Decidable (LegacyFirst s keep rows) :=
  inferInstanceAs (Decidable (∀ h ∈ rows, ∀ h' ∈ rows, _))

/-- What a history has to be where the pass touches it: a row it deletes or anchors is
alone under its key, and a partition it cuts is one the trigger writes, its revisions
apart. -/
structure Recorded (R : Reading V) (s : Setting) (keep : Nat) (rows : List (HistoryRow V)) : Prop where
  keyed : Keyed s keep rows
  apart : ∀ q ∈ rows, cuts s keep rows q.part = true → Apart rows q.part
  legacyFirst : LegacyFirst s keep rows
  authored : ∀ q ∈ rows, cuts s keep rows q.part = true →
    ∃ first last : Option (StoredRow R), Authored first (entriesOf rows q.part) last
  rooted : rooted s keep rows = true

/-- A partition, from any state on, rebuilds alike at every revision it keeps. -/
theorem Recorded.alike (hrec : Recorded R s keep rows) (hh : h ∈ pruneHistory s keep rows) (state : State V) :
    foldTo R (entriesOf (pruneHistory s keep rows) h.part) h.revision state =
      foldTo R (entriesOf rows h.part) h.revision state := by
  have hentry : h.toEntry ∈ entriesOf (pruneHistory s keep rows) h.part :=
    List.mem_map_of_mem (mem_historyOf.2 ⟨hh, rfl⟩)
  obtain ⟨h₀, hmem, -, rfl⟩ := mem_pruneHistory.1 hh
  rw [anchor_part] at hentry ⊢
  cases hcut : cuts s keep rows h₀.part with
  | false => rw [entriesOf, historyOf_uncut hrec.keyed hcut, ← entriesOf]
  | true =>
    obtain ⟨first, last, hauthored⟩ := hrec.authored h₀ hmem hcut
    exact (stands_partition hrec.keyed (hrec.apart h₀ hmem hcut) hcut hrec.rooted hauthored).1 _ hentry state

theorem foldTo_append (es es' : List (Entry V)) (revision : Nat) (state : State V) :
    foldTo R (es ++ es') revision state = foldTo R es' revision (foldTo R es revision state) := by
  rw [foldTo, List.filter_append, List.foldl_append]
  rfl

/-- A cut above every revision is none. -/
theorem foldTo_all {es : List (Entry V)} {revision : Nat} (hle : ∀ e ∈ es, e.revision ≤ revision)
    (state : State V) : foldTo R es revision state = es.foldl (replay R) state := by
  rw [foldTo, List.filter_eq_self.2 fun e he => decide_eq_true (hle e he)]

/-- A cut below every revision leaves the state. -/
theorem foldTo_none {es : List (Entry V)} {revision : Nat} (hlt : ∀ e ∈ es, revision < e.revision)
    (state : State V) : foldTo R es revision state = state := by
  rw [foldTo, List.filter_eq_nil_iff.2 fun e he => by simpa using hlt e he]
  rfl

/-- The whole of a partition folds alike. -/
theorem Recorded.whole (hrec : Recorded R s keep rows) (hkeep : 1 ≤ keep) (p : (Nat ⊕ String) × String)
    (state : State V) : (entriesOf (pruneHistory s keep rows) p).foldl (replay R) state =
      (entriesOf rows p).foldl (replay R) state := by
  cases hcut : cuts s keep rows p with
  | false => rw [entriesOf, historyOf_uncut hrec.keyed hcut, ← entriesOf]
  | true =>
    obtain ⟨h, hh, rfl⟩ := mem_of_cuts hcut
    have hd : Apart rows h.part := hrec.apart h hh hcut
    rcases List.eq_nil_or_concat (historyOf rows h.part) with hnil | ⟨init, last, hlast⟩
    · exact absurd (mem_historyOf.2 ⟨hh, rfl⟩) (by simp [hnil])
    rw [List.concat_eq_append] at hlast
    -- the newest revision stays, and a fold up to it is the fold of all
    obtain ⟨hmem, hpart⟩ : last ∈ rows ∧ last.part = h.part := mem_historyOf.1 (by simp [hlast])
    rw [← hpart] at hd hlast hcut ⊢
    have hgone : gone s keep rows last = false :=
      last_kept hrec.keyed hd (open_of_cuts hcut) hkeep hlast
    have hle : ∀ e ∈ entriesOf rows last.part, e.revision ≤ last.revision := by
      intro e he
      have hrising := hd.rising
      rw [hlast, Rising, List.pairwise_append] at hrising
      rw [entriesOf, hlast] at he
      obtain ⟨y, hy, rfl⟩ := List.mem_map.1 he
      rcases List.mem_append.1 hy with hy | hy
      · exact Nat.le_of_lt (hrising.2.2 y hy last (by simp))
      · rw [List.mem_singleton.1 hy]
    have hle' : ∀ e ∈ entriesOf (pruneHistory s keep rows) last.part, e.revision ≤ last.revision := by
      intro e he
      rw [entriesOf, historyOf_pruneHistory hd] at he
      obtain ⟨y, hy, rfl⟩ := List.mem_map.1 he
      obtain ⟨y₀, hy₀, rfl⟩ := List.mem_map.1 hy
      rw [anchor_revision]
      exact hle _ (List.mem_map_of_mem (List.mem_filter.1 hy₀).1)
    have halike := hrec.alike (mem_pruneHistory.2 ⟨last, hmem, hgone, rfl⟩) state
    rw [anchor_part, anchor_revision] at halike
    rw [← foldTo_all hle, ← foldTo_all hle', halike]

/-- A revision without a version is read before those with one, so it rebuilds from
its own partition. -/
theorem rebuilt_unversioned (hbelow : LegacyBelow s rows h.collection h.record) (hh : h ∈ rows)
    (hv : h.version = none) : rebuilt R s rows h.collection h.record h.revision =
      foldTo R (entriesOf rows h.part) h.revision fun _ => none := by
  have hpart : h.part = (.inr h.collection, h.record) := by
    rw [HistoryRow.part, HistoryRow.lineage, hv]
  rw [rebuilt, readHistory, visible_eq hbelow, List.map_append, hpart]
  refine (foldTo_append _ _ _ _).trans (foldTo_none ?_ _)
  intro e he
  obtain ⟨y, hy, rfl⟩ := List.mem_map.1 he
  exact hbelow h (mem_unversioned.2 ⟨hh, hv, rfl, rfl⟩) y hy

/-- A revision with a version is read after all those without one. -/
theorem rebuilt_versioned {model : String} (hbelow : LegacyBelow s rows model h.record) (hh : h ∈ rows)
    {v : Version} (hv : h.version = some v) (hread : readable s h model = true) :
    rebuilt R s rows model h.record h.revision =
      foldTo R (entriesOf rows h.part) h.revision
        ((entriesOf rows (.inr model, h.record)).foldl (replay R) fun _ => none) := by
  have hmem : h ∈ versioned s rows model h.record :=
    mem_versioned.2 ⟨hh, by simp [hv], hread, rfl⟩
  have hpart : h.part = (.inl v.lineage, h.record) := by
    rw [HistoryRow.part, HistoryRow.lineage, hv]
  simp only [readable, hv, Bool.and_eq_true, decide_eq_true_eq] at hread
  have hversioned : versioned s rows model h.record = historyOf rows h.part := by
    rw [versioned, hread.2, hread.1, hpart]
    rfl
  have hwhole : foldTo R (entriesOf rows (.inr model, h.record)) h.revision (fun _ => none) =
      (entriesOf rows (.inr model, h.record)).foldl (replay R) fun _ => none := by
    refine foldTo_all ?_ _
    intro e he
    obtain ⟨y, hy, rfl⟩ := List.mem_map.1 he
    exact Nat.le_of_lt (hbelow y hy h hmem)
  rw [rebuilt, readHistory, visible_eq hbelow, List.map_append, hversioned, ← hwhole]
  exact foldTo_append _ _ _ _

/-- Whether the pass cuts a partition the reader folds for a record of a model. -/
def cutsRead (s : Setting) (keep : Nat) (rows : List (HistoryRow V)) (model record : String) : Bool :=
  rows.any fun h => (readable s h model && h.record = record) && cuts s keep rows h.part

/-- A history the pass does not cut is read as before. -/
theorem rebuilt_uncut (hk : Keyed s keep rows) {model record : String}
    (hcut : cutsRead s keep rows model record = false) (revision : Nat) :
    rebuilt R s (pruneHistory s keep rows) model record revision = rebuilt R s rows model record revision := by
  have hvisible : visible s (pruneHistory s keep rows) model record = visible s rows model record := by
    rw [visible, filter_uncut hk (fun h => by rw [anchor_readable, anchor_record]), visible]
    intro h hh hread
    have hnot := List.any_eq_false.1 hcut h hh
    rwa [hread, Bool.true_and, Bool.not_eq_true] at hnot
  rw [rebuilt, hvisible, rebuilt]

/-- Of two partitions folded together that are cut, the unversioned one comes first. -/
theorem Recorded.below (hrec : Recorded R s keep rows) {model record : String}
    (hcut : cutsRead s keep rows model record = true) : LegacyBelow s rows model record := by
  obtain ⟨q, hq, hboth⟩ := List.any_eq_true.1 hcut
  simp only [Bool.and_eq_true, decide_eq_true_eq] at hboth
  obtain ⟨⟨hread, hrecord⟩, hcutq⟩ := hboth
  intro h hh h' hh'
  have hpart := (mem_historyOf.1 hh).2
  obtain ⟨hmem, hv, hcollection, hhr⟩ := mem_unversioned.1 hh
  obtain ⟨hmem', hv', hread', hhr'⟩ := mem_versioned.1 hh'
  refine hrec.legacyFirst h hmem h' hmem' (by simp [hv]) hv' (hcollection ▸ hread') (hhr'.trans hhr.symm) ?_
  cases hqv : q.version with
  | none =>
    have hqpart : q.part = h.part := by
      simp only [readable, hqv, decide_eq_true_eq] at hread
      rw [hpart, HistoryRow.part, HistoryRow.lineage, hqv, hread, hrecord]
    exact .inl (hqpart ▸ hcutq)
  | some v =>
    have hqpart : q.part = h'.part := by
      obtain ⟨v', hv'⟩ := Option.isSome_iff_exists.1 hv'
      simp only [readable, hqv, hv', Bool.and_eq_true, decide_eq_true_eq] at hread hread'
      have hlineage : v.lineage = v'.lineage := Option.some.inj (hread.1.symm.trans hread'.1)
      simp only [HistoryRow.part, HistoryRow.lineage, hqv, hv', hrecord, hhr', hlineage]
    exact .inr (hqpart ▸ hcutq)

/-- What a pass keeps: every revision left rebuilds as before for every model that
reads it, the revisions of held records are all there, and a second pass changes
nothing. -/
def Keeps (R : Reading V) (s : Setting) (keep : Nat) (rows : List (HistoryRow V)) : Prop :=
  (∀ h ∈ pruneHistory s keep rows, ∀ model, readable s h model = true →
    rebuilt R s (pruneHistory s keep rows) model h.record h.revision =
      rebuilt R s rows model h.record h.revision) ∧
  (∀ h ∈ rows, heldRow s h = true → h ∈ pruneHistory s keep rows) ∧
  pruneHistory s keep (pruneHistory s keep rows) = pruneHistory s keep rows

/-- The rows of a record of the model. -/
def rowsOf (record : String) (log : List (Written Nat)) : List (HistoryRow Nat) :=
  log.map fun w => ⟨w.entry, "m", record, none⟩

/-- A release of two columns. -/
def released : Action Nat := define [⟨"a", .other "int", none⟩, ⟨"b", .other "int", none⟩] ["a", "b"]

/-- A creation and an update of each column. -/
def changedTwice : List (Action Nat) :=
  [released, .create 1 .direct (holding 1 2), .update .direct false (holding 3 2),
    .update .direct false (holding 3 4)]

/-- A record deleted for good and created again, and one that is changed twice. -/
def changedRows : List (HistoryRow Nat) :=
  rowsOf "q" (run plainReading unregistered
    [released, .create 1 .direct (holding 1 2), .delete .direct, .create 1 .direct (holding 5 6)]).log ++
    rowsOf "r" (run plainReading unregistered changedTwice).log

/-- No request is open and every operation is acknowledged. -/
def quiet (lineage : Nat) : Setting := ⟨fun _ => some lineage, fun _ => true, [], fun _ => false⟩

/-- An open request holds a record. -/
def held (record : String) : Setting := { quiet 0 with held := [("m", record)] }

theorem changedRows_recorded : Recorded plainReading (held "q") 2 changedRows where
  keyed := by decide
  apart := by decide
  legacyFirst := by decide
  authored q hq hcut := by
    have hpart : q.part = (.inl 0, "r") := by
      have hall : ∀ q ∈ changedRows, cuts (held "q") 2 changedRows q.part = true → q.part = (.inl 0, "r") := by
        decide
      exact hall q hq hcut
    have hentries : entriesOf changedRows (.inl 0, "r") =
        (run plainReading unregistered changedTwice).log.map (·.entry) := rfl
    obtain ⟨last, hauthored⟩ := run_authored plainReading changedTwice (by decide)
    exact ⟨none, last, hpart ▸ hentries ▸ hauthored⟩
  rooted := by decide

/-- The model is dropped, declared again and its record written under the same id. -/
def readdedRows : List (HistoryRow Nat) :=
  rowsOf "r" (run plainReading unregistered changedTwice).log ++
    rowsOf "r" (run plainReading ⟨9, [], ⟨8, 8, [], []⟩, [], none, []⟩
      [released, .create 1 .direct (holding 5 6), .update .direct false (holding 5 7)]).log

/-- A record with no revision to fold from. -/
def uncreatedRows : List (HistoryRow Nat) :=
  [⟨⟨1, .update, .direct, fun c => if c = "a" then some 1 else none, none, false, fun _ => none⟩,
      "m", "r", none⟩,
    ⟨⟨2, .update, .direct, fun c => if c = "b" then some 2 else none, none, false, fun _ => none⟩,
      "m", "r", none⟩]

end Norbital.Bolt.History

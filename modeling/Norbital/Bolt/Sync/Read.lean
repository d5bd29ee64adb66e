import Norbital.Lib.Entries
import Norbital.Lib.JsonText
import Norbital.Bolt.Sync.Version

/-!
# Pages of a remote sync

`commit` of `bolt/src/engine/sync/read.ts` on the rows of `sys_sync`, `sys_sync_row` and the
sync's model: a page's rows by their remote ids, the stored rows they are adopted by, what
of them is stale, and the statement that writes them where the cursor's version still
holds.

A session is one sync on one instance.  What the write pipeline refuses a page for is a
parameter, but for a deletion of a record that does not exist.
-/

namespace Norbital.Bolt.Sync

open Norbital.Lib

/-- Field values as `text` makes them, `none` for null. -/
abbrev Fields := List (String × Option String)

/-- `{ ...old, ...new }`. -/
def Fields.over (new old : Fields) : Fields := new ++ old.filter fun e => (new.lookup e.1).isNone

/-- A remote row: its `$id`, `$version`, `$deleted`, and its other members. -/
structure Row where
  id : Option String
  version : Option String
  deleted : Bool
  fields : Fields
  deriving DecidableEq, Repr

/-- `snapshot: 'begin' | 'end'`. -/
inductive Bound where
  | opens | closes
  deriving DecidableEq, Repr

structure Page where
  rows : List Row
  cursor : Option String
  snapshot : Option Bound
  deriving DecidableEq, Repr

inductive Phase where
  | read | reconcile
  deriving DecidableEq, Repr

/-- A row of `sys_sync`. -/
structure State where
  cursor : Option String
  cycle : Nat
  phase : Phase
  version : Nat
  digest : String
  deriving DecidableEq, Repr

/-- A row of `sys_sync_row`, under its remote id. -/
structure Mark where
  record : String
  partition : String
  version : Option String
  cycle : Nat
  deriving DecidableEq, Repr

structure Store where
  records : List (String × Fields)
  marks : List (String × Mark)
  states : List (String × State)
  deriving DecidableEq, Repr

/-- What a page does to a record. -/
inductive Write where
  | upsert (fields : Fields)
  | delete
  deriving DecidableEq, Repr

def Write.apply : Write → Option Fields → Option Fields
  | .upsert fields, record => some (fields.over (record.getD []))
  | .delete, _ => none

/-- A sync on one instance: the model key without the instance's field, that field, the ids it mints
and what the write pipeline refuses. -/
structure Session where
  key : List String
  fk : Option String
  inst : String
  stableId : String → String
  newer : String → String → Bool
  refuses : List (String × Write) → List (String × Fields) → Bool

def jsonTexts (texts : List String) : String :=
  .ofList ('[' :: List.intercalate [','] (texts.map JsonText.quote) ++ [']'])

namespace Session

variable (x : Session)

/-- Whether the row has a value for every field of the key. -/
def keyed (row : Row) : Bool := !x.key.isEmpty && x.key.all fun k => ((row.fields.lookup k).getD none).isSome

/-- The remote id of a row: its `$id`, else its key's values. -/
def rid (row : Row) : Option String :=
  match row.id with
  | some id => some id
  | none =>
    if x.keyed row then some (jsonTexts (x.key.map fun k => ((row.fields.lookup k).getD none).getD "")) else none

/-- Whether the row's version is no newer than a previous one. -/
def outdated (previous version : Option String) : Bool :=
  match version, previous with
  | some v, some p => !x.newer v p
  | _, _ => false

/-- A page's rows so far by their remote ids, with one more: the last of a page wins, unless it is outdated. -/
def keep (last : List (String × Row)) (row : Row) : Option (List (String × Row)) :=
  (x.rid row).map fun rid =>
    if (last.lookup rid).any fun previous => x.outdated previous.version row.version then last
    else without rid last ++ [(rid, row)]

/-- The stored row with the row's key. -/
def adopted (store : Store) (row : Row) : Option String :=
  if x.keyed row then
    (store.records.find? fun r => x.key.all (fun k => r.2.lookup k = row.fields.lookup k) &&
      x.fk.all fun fk => r.2.lookup fk = some (some x.inst)).map Prod.fst
  else none

/-- The members the page writes, with the instance. -/
def written (row : Row) : Fields :=
  match x.fk with
  | none => row.fields
  | some fk => Fields.over [(fk, some x.inst)] row.fields

/-- What becomes of one row of a page: its record, the version its mark keeps, and the write. -/
structure Plan where
  record : String
  version : Option String
  write : Option Write
  deriving DecidableEq, Repr

def prior (store : Store) (rid : String) : Option String := (store.marks.lookup rid).bind (·.version)

def known (store : Store) (rid : String) (row : Row) : Option String :=
  match store.marks.lookup rid with
  | some mark => some mark.record
  | none => x.adopted store row

def plan (store : Store) (rid : String) (row : Row) : Plan :=
  let record := x.known store rid row
  let stale := x.outdated (prior store rid) row.version
  { record := record.getD (x.stableId rid)
    version := if stale then prior store rid else row.version.or (prior store rid)
    write :=
      if stale then none
      else if row.deleted then record.map fun _ => .delete
      else some (.upsert (x.written row)) }

/-- The act on the sync's model.  A record to delete that does not exist refuses the page. -/
def act (writes : List (String × Write)) (records : List (String × Fields)) : Option (List (String × Fields)) :=
  if writes.isEmpty then some records
  else if x.refuses writes records ||
      writes.any fun w => w.2 = .delete && (records.lookup w.1).isNone then none
  else some (writes.foldl (fun rs w => alter w.1 w.2.apply rs) records)

end Session

/-- `statePieces`: the compare-and-set of the cursor, then the marks and the released remote ids.  A record is
one remote row's. -/
def statePieces (store : Store) (partition : String) (state next : State) (marks : List (String × String × Option String))
    (gone : List String) (records : List (String × Fields)) : Option Store :=
  if (store.states.lookup partition).all (·.version = state.version) then
    let marked := marks.foldl (fun ms e => alter e.1 (fun mark =>
      some ⟨e.2.1, partition, e.2.2.or (mark.bind (·.version)), next.cycle⟩) ms) store.marks
    if (marked.map fun e => e.2.record).Nodup then
      some ⟨records, marked.filter fun e => e.1 ∉ gone,
        put partition { next with version := state.version + 1 } store.states⟩
    else none
  else none

/-- The state a page leads to. -/
def State.next (state : State) (page : Page) : State :=
  { state with
    cursor := page.cursor
    cycle := if page.snapshot = some .opens ∨ state.cursor = none then state.cycle + 1 else state.cycle
    phase := if page.snapshot = some .closes then .reconcile else .read }

namespace Session

variable (x : Session)

def plans (store : Store) (last : List (String × Row)) : List (String × Plan) :=
  last.map fun e => (e.1, x.plan store e.1 e.2)

def writes (plans : List (String × Plan)) : List (String × Write) :=
  plans.filterMap fun e => e.2.write.map fun write => (e.2.record, write)

def commit (store : Store) (partition : String) (state : State) (page : Page) : Option Store :=
  (page.rows.foldlM x.keep []).bind fun last =>
    let plans := x.plans store last
    (x.act (writes plans) store.records).bind fun records =>
      statePieces store partition state (state.next page) (plans.map fun e => (e.1, e.2.record, e.2.version)) []
        records

end Session

namespace Session

variable {x : Session} {store store' : Store} {partition : String} {state : State} {page : Page}

/-- The delivered rows of a remote id. -/
def rowsOf (x : Session) (rid : String) (rows : List Row) : List Row := rows.filter fun row => x.rid row = some rid

/-- The row that stands after one more, by its version. -/
def later (x : Session) (previous : Option Row) (row : Row) : Row :=
  match previous with
  | some p => if x.outdated p.version row.version then p else row
  | none => row

/-- The row that stands after the rows of a remote id. -/
def newest (x : Session) (previous : Option Row) (rows : List Row) : Option Row :=
  rows.foldl (fun p row => some (x.later p row)) previous

theorem keep_spec {last last' : List (String × Row)} {row : Row} (h : x.keep last row = some last')
    (hlast : (last.map Prod.fst).Nodup) :
    ∃ rid, x.rid row = some rid ∧ (last'.map Prod.fst).Nodup ∧
      ∀ k, last'.lookup k = if k == rid then some (x.later (last.lookup rid) row) else last.lookup k := by
  obtain ⟨rid, hrid, rfl⟩ := Option.map_eq_some_iff.1 h
  refine ⟨rid, hrid, ?_⟩
  by_cases hold : ((last.lookup rid).any fun previous => x.outdated previous.version row.version) = true
  · rw [if_pos hold]
    refine ⟨hlast, fun k => ?_⟩
    obtain ⟨p, hp, hout⟩ := (Option.any_eq_true _ _).1 hold
    by_cases hk : k = rid
    · rw [hk, beq_self_eq_true, if_pos rfl, hp, later, if_pos hout]
    · rw [beq_false_of_ne hk, if_neg Bool.false_ne_true]
  · rw [if_neg hold]
    constructor
    · rw [List.map_append, List.nodup_append]
      refine ⟨nodup_without hlast, List.nodup_singleton rid, ?_⟩
      rintro a ha b hb rfl
      obtain ⟨e, he, rfl⟩ := List.mem_map.1 ha
      have hne := List.of_mem_filter he
      rw [List.mem_singleton.1 hb, beq_self_eq_true] at hne
      exact absurd hne (by decide)
    · intro k
      have hlater : x.later (last.lookup rid) row = row := by
        cases hp : last.lookup rid with
        | none => rfl
        | some p =>
          rw [later, if_neg]
          exact fun hout => hold (by rw [hp]; exact hout)
      rw [List.lookup_append, lookup_without, hlater, List.lookup_cons, List.lookup_nil]
      cases k == rid <;> simp

/-- A page keeps of each remote id the row that stands after all of its rows. -/
theorem keepAll_spec {rows : List Row} {last last' : List (String × Row)} (h : rows.foldlM x.keep last = some last')
    (hlast : (last.map Prod.fst).Nodup) :
    (last'.map Prod.fst).Nodup ∧ ∀ k, last'.lookup k = x.newest (last.lookup k) (x.rowsOf k rows) := by
  induction rows generalizing last with
  | nil =>
    cases h
    exact ⟨hlast, fun _ => rfl⟩
  | cons row rows ih =>
    rw [List.foldlM_cons] at h
    obtain ⟨next, hnext, h⟩ := Option.bind_eq_some_iff.1 h
    obtain ⟨rid, hrid, hnodup, hlookup⟩ := keep_spec hnext hlast
    obtain ⟨hnodup', hlookup'⟩ := ih h hnodup
    refine ⟨hnodup', fun k => ?_⟩
    rw [hlookup', hlookup, rowsOf, rowsOf, List.filter_cons]
    by_cases hk : k = rid
    · rw [hk, beq_self_eq_true, if_pos rfl, if_pos (decide_eq_true hrid)]
      rfl
    · rw [beq_false_of_ne hk, if_neg Bool.false_ne_true, if_neg]
      intro hrid'
      exact hk (Option.some_inj.1 ((of_decide_eq_true hrid').symm.trans hrid))

/-- A record is one remote row's. -/
theorem record_inj {marks : List (String × Mark)} (h : (marks.map fun e => e.2.record).Nodup) {r r' : String}
    {mark mark' : Mark} (hr : marks.lookup r = some mark) (hr' : marks.lookup r' = some mark')
    (heq : mark.record = mark'.record) : r = r' := by
  have hsame := List.inj_on_of_nodup_map h (mem_of_lookup hr) (mem_of_lookup hr') heq
  exact congrArg Prod.fst hsame

/-- The records after an act. -/
theorem act_spec {writes : List (String × Write)} {records records' : List (String × Fields)}
    (h : x.act writes records = some records') (hwrites : (writes.map Prod.fst).Nodup) (id : String) :
    records'.lookup id =
      match writes.lookup id with
      | some write => write.apply (records.lookup id)
      | none => records.lookup id := by
  rw [act] at h
  split_ifs at h with hempty hrefused
  · cases h
    rw [List.isEmpty_iff.1 hempty]
    rfl
  · cases h
    rw [lookup_alters (fun _ => Write.apply) records hwrites]
    cases writes.lookup id <;> rfl

/-- Everything a committed page does: of each remote id it kept a row of, the mark and what is written to the
mark's record; the other marks and their records stay. -/
structure Commits (x : Session) (store : Store) (partition : String) (state : State) (page : Page)
    (last : List (String × Row)) (store' : Store) : Prop where
  kept : ∀ rid, last.lookup rid = x.newest none (x.rowsOf rid page.rows)
  nodup : (last.map Prod.fst).Nodup
  version : (store.states.lookup partition).all (·.version = state.version) = true
  states : store'.states = put partition { state.next page with version := state.version + 1 } store.states
  distinct : (store'.marks.map fun e => e.2.record).Nodup
  marks : ∀ rid, store'.marks.lookup rid =
    match last.lookup rid with
    | some row => some ⟨(x.plan store rid row).record, partition, (x.plan store rid row).version, (state.next page).cycle⟩
    | none => store.marks.lookup rid
  written : ∀ rid row, last.lookup rid = some row → store'.records.lookup (x.plan store rid row).record =
    match (x.plan store rid row).write with
    | some write => write.apply (store.records.lookup (x.plan store rid row).record)
    | none => store.records.lookup (x.plan store rid row).record
  untouched : ∀ id, (∀ rid row, last.lookup rid = some row → (x.plan store rid row).record ≠ id) →
    store'.records.lookup id = store.records.lookup id

/-- The version a plan keeps is the stored one where the row has none. -/
theorem plan_version (rid : String) (row : Row) :
    (x.plan store rid row).version.or (prior store rid) = (x.plan store rid row).version := by
  rw [plan]
  dsimp only
  split_ifs
  · cases prior store rid <;> rfl
  · cases row.version <;> cases prior store rid <;> rfl

/-- The statement goes through where the cursor's version still holds, and takes it one further. -/
theorem statePieces_states {next : State} {marks : List (String × String × Option String)} {gone : List String}
    {records : List (String × Fields)} (h : statePieces store partition state next marks gone records = some store') :
    (store.states.lookup partition).all (·.version = state.version) = true ∧ store'.records = records ∧
      store'.states = put partition { next with version := state.version + 1 } store.states := by
  rw [statePieces] at h
  dsimp only at h
  split_ifs at h with hversion hdistinct
  cases h
  exact ⟨hversion, rfl, rfl⟩

/-- Marks stay under remote ids of their own. -/
theorem statePieces_keys {next : State} {marks : List (String × String × Option String)} {gone : List String}
    {records : List (String × Fields)} (h : statePieces store partition state next marks gone records = some store')
    (hkeys : (store.marks.map Prod.fst).Nodup) : (store'.marks.map Prod.fst).Nodup := by
  rw [statePieces] at h
  dsimp only at h
  split_ifs at h with hversion hdistinct
  cases h
  refine List.Nodup.sublist (List.filter_sublist.map _) ?_
  exact List.foldlRecOn (motive := fun ms : List (String × Mark) => (ms.map Prod.fst).Nodup) marks _ hkeys
    fun _ hms _ _ => nodup_alter hms

/-- The marks that are left where remote ids are released. -/
theorem statePieces_gone {next : State} {gone : List String} {records : List (String × Fields)}
    (h : statePieces store partition state next [] gone records = some store') :
    (store'.marks.map fun e => e.2.record).Nodup ∧
      ∀ rid, store'.marks.lookup rid = if rid ∈ gone then none else store.marks.lookup rid := by
  rw [statePieces] at h
  dsimp only at h
  split_ifs at h with hversion hdistinct
  cases h
  refine ⟨hdistinct.sublist (List.filter_sublist.map _), fun rid => ?_⟩
  dsimp only
  rw [List.foldl_nil, lookup_filter fun rid => decide (rid ∉ gone)]
  by_cases hgone : rid ∈ gone <;> simp [hgone]

/-- The marks a page leaves, and that the cursor's version still held. -/
theorem statePieces_spec {last : List (String × Row)} {next : State} {records : List (String × Fields)}
    (hnodup : (last.map Prod.fst).Nodup)
    (h : statePieces store partition state next
      ((x.plans store last).map fun e => (e.1, e.2.record, e.2.version)) [] records = some store') :
    (store.states.lookup partition).all (·.version = state.version) = true ∧ store'.records = records ∧
      store'.states = put partition { next with version := state.version + 1 } store.states ∧
      (store'.marks.map fun e => e.2.record).Nodup ∧
      ∀ rid, store'.marks.lookup rid =
        match last.lookup rid with
        | some row => some ⟨(x.plan store rid row).record, partition, (x.plan store rid row).version, next.cycle⟩
        | none => store.marks.lookup rid := by
  rw [statePieces] at h
  dsimp only at h
  split_ifs at h with hversion hdistinct
  cases h
  have hfilter : ∀ marks : List (String × Mark), (marks.filter fun e => decide (e.1 ∉ ([] : List String))) = marks :=
    fun marks => List.filter_eq_self.2 fun e _ => decide_eq_true List.not_mem_nil
  refine ⟨hversion, rfl, rfl, by rw [hfilter]; exact hdistinct, fun rid => ?_⟩
  have hplans : ((x.plans store last).map fun e => (e.1, e.2.record, e.2.version)) =
      last.map fun e => (e.1, (x.plan store e.1 e.2).record, (x.plan store e.1 e.2).version) := by
    rw [plans, List.map_map]
    rfl
  have hkeys : ((last.map fun e => (e.1, (x.plan store e.1 e.2).record, (x.plan store e.1 e.2).version)).map
      Prod.fst).Nodup := by
    rw [List.map_map]
    exact hnodup
  have hlookup := lookup_alters (k := rid) (fun _ (c : String × Option String) mark =>
    some (⟨c.1, partition, c.2.or (mark.bind (·.version)), next.cycle⟩ : Mark)) store.marks hkeys
  rw [lookup_map_value (fun rid row => ((x.plan store rid row).record, (x.plan store rid row).version)) last] at hlookup
  dsimp only
  rw [hfilter, hplans, hlookup]
  cases last.lookup rid with
  | none => rfl
  | some row => exact congrArg (fun version => some (Mark.mk _ partition version _)) (plan_version rid row)

theorem mem_writes {last : List (String × Row)} (hnodup : (last.map Prod.fst).Nodup) {id : String} {write : Write} :
    (id, write) ∈ writes (x.plans store last) ↔ ∃ rid row, last.lookup rid = some row ∧
      (x.plan store rid row).record = id ∧ (x.plan store rid row).write = some write := by
  rw [writes, plans, List.mem_filterMap]
  constructor
  · rintro ⟨e, he, hwrite⟩
    obtain ⟨⟨rid, row⟩, hmem, rfl⟩ := List.mem_map.1 he
    obtain ⟨w, hw, heq⟩ := Option.map_eq_some_iff.1 hwrite
    cases heq
    exact ⟨rid, row, lookup_some_of_mem hnodup hmem, rfl, hw⟩
  · rintro ⟨rid, row, hrow, rfl, hwrite⟩
    refine ⟨_, List.mem_map.2 ⟨(rid, row), mem_of_lookup hrow, rfl⟩, ?_⟩
    rw [hwrite]
    rfl

/-- Two rows of a page write the same record in no case. -/
theorem nodup_writes {last : List (String × Row)} (hnodup : (last.map Prod.fst).Nodup)
    (hrecord : ∀ rid row, last.lookup rid = some row → ∀ rid' row', last.lookup rid' = some row' →
      (x.plan store rid row).record = (x.plan store rid' row').record → rid = rid') :
    ((writes (x.plans store last)).map Prod.fst).Nodup := by
  rw [writes, plans, List.Nodup, List.pairwise_map, List.pairwise_filterMap, List.pairwise_map]
  refine (List.pairwise_map.1 hnodup).imp_of_mem ?_
  rintro ⟨rid, row⟩ ⟨rid', row'⟩ hmem hmem' hne ⟨id, write⟩ hw ⟨id', write'⟩ hw'
  obtain ⟨_, -, heq⟩ := Option.map_eq_some_iff.1 hw
  obtain ⟨_, -, heq'⟩ := Option.map_eq_some_iff.1 hw'
  cases heq
  cases heq'
  exact fun hsame => hne (hrecord rid row (lookup_some_of_mem hnodup hmem) rid' row'
    (lookup_some_of_mem hnodup hmem') hsame)

theorem commit_spec (h : x.commit store partition state page = some store') :
    ∃ last, page.rows.foldlM x.keep [] = some last ∧ Commits x store partition state page last store' := by
  obtain ⟨last, hlast, h⟩ := Option.bind_eq_some_iff.1 h
  obtain ⟨records, hact, h⟩ := Option.bind_eq_some_iff.1 h
  obtain ⟨hnodup, hkept⟩ := keepAll_spec hlast List.nodup_nil
  obtain ⟨hversion, hrecords, hstates, hdistinct, hmarks⟩ := statePieces_spec hnodup h
  have hrecord : ∀ rid row, last.lookup rid = some row → ∀ rid' row', last.lookup rid' = some row' →
      (x.plan store rid row).record = (x.plan store rid' row').record → rid = rid' := by
    intro rid row hrow rid' row' hrow' heq
    have hmark := hmarks rid
    have hmark' := hmarks rid'
    rw [hrow] at hmark
    rw [hrow'] at hmark'
    exact record_inj hdistinct hmark hmark' heq
  have hwrites : ((writes (x.plans store last)).map Prod.fst).Nodup := nodup_writes hnodup hrecord
  have hact := act_spec hact hwrites
  rw [← hrecords] at hact
  refine ⟨last, hlast, hkept, hnodup, hversion, hstates, hdistinct, hmarks, fun rid row hrow => ?_, fun id hid => ?_⟩
  · rw [hact]
    cases hwrite : (x.plan store rid row).write with
    | some write =>
      have hmem : (_, write) ∈ writes (x.plans store last) := (mem_writes hnodup).2 ⟨rid, row, hrow, rfl, hwrite⟩
      rw [lookup_some_of_mem hwrites hmem]
    | none =>
      cases hlookup : (writes (x.plans store last)).lookup (x.plan store rid row).record with
      | none => rfl
      | some write =>
        obtain ⟨rid', row', hrow', hsame, hwrite'⟩ := (mem_writes hnodup).1 (mem_of_lookup hlookup)
        obtain rfl := hrecord rid' row' hrow' rid row hrow hsame
        rw [hrow] at hrow'
        cases hrow'
        exact absurd (hwrite.symm.trans hwrite') (Option.some_ne_none _).symm
  · rw [hact]
    cases hlookup : (writes (x.plans store last)).lookup id with
    | none => rfl
    | some write =>
      obtain ⟨rid, row, hrow, hsame, -⟩ := (mem_writes hnodup).1 (mem_of_lookup hlookup)
      exact absurd hsame (hid rid row hrow)

/-- The record as a row has it: gone, or with every member the row writes. -/
def Reflects (x : Session) (record : Option Fields) (row : Row) : Prop :=
  if row.deleted then record = none
  else ∃ fields, record = some fields ∧ ∀ k v, (x.written row).lookup k = some v → fields.lookup k = some v

/-- The rows the records are written from, after a page. -/
def take (x : Session) (store : Store) (last taken : List (String × Row)) : List (String × Row) :=
  last.foldl (fun rows e =>
    alter e.1 (fun old => if x.outdated (prior store e.1) e.2.version then old else some e.2) rows) taken

/-- Every remote row of the id map has a record of its own, as the row it was last written from has it. -/
structure Held (x : Session) (store : Store) (taken : List (String × Row)) : Prop where
  distinct : (store.marks.map fun e => e.2.record).Nodup
  minted : ∀ rid, (store.records.lookup (x.stableId rid)).isSome = true →
    ∃ rid' mark, store.marks.lookup rid' = some mark ∧ mark.record = x.stableId rid
  marked : ∀ rid mark, store.marks.lookup rid = some mark →
    ∃ row, taken.lookup rid = some row ∧ Reflects x (store.records.lookup mark.record) row
  unmarked : ∀ rid, store.marks.lookup rid = none → taken.lookup rid = none

variable {last taken : List (String × Row)} {rid : String} {row : Row} {mark : Mark}

theorem lookup_take (hnodup : (last.map Prod.fst).Nodup) : (x.take store last taken).lookup rid =
    match last.lookup rid with
    | some row => if x.outdated (prior store rid) row.version then taken.lookup rid else some row
    | none => taken.lookup rid := by
  rw [take, lookup_alters (k := rid) (fun rid (row : Row) old =>
    if x.outdated (prior store rid) row.version then old else some row) taken hnodup]
  cases last.lookup rid <;> rfl

theorem plan_record_of_mark (hmark : store.marks.lookup rid = some mark) :
    (x.plan store rid row).record = mark.record := by
  simp only [plan, known, hmark, Option.getD_some]

theorem plan_of_outdated (hout : x.outdated (prior store rid) row.version = true) :
    (x.plan store rid row).write = none ∧ (x.plan store rid row).version = prior store rid ∧
      ∃ mark, store.marks.lookup rid = some mark := by
  refine ⟨by simp only [plan, hout, if_true], by simp only [plan, hout, if_true], ?_⟩
  cases hmark : store.marks.lookup rid with
  | some mark => exact ⟨mark, rfl⟩
  | none =>
    rw [prior, hmark] at hout
    cases hversion : row.version <;> rw [hversion] at hout <;> exact absurd hout Bool.false_ne_true

theorem plan_version_of_newer (hout : ¬ x.outdated (prior store rid) row.version = true) :
    (x.plan store rid row).version = row.version.or (prior store rid) := by
  rw [plan]
  exact if_neg hout

namespace Commits

variable (hc : Commits x store partition state page last store')
include hc

/-- A remote row keeps its record. -/
theorem persists (hmark : store.marks.lookup rid = some mark) :
    ∃ mark', store'.marks.lookup rid = some mark' ∧ mark'.record = mark.record := by
  rw [hc.marks rid]
  cases hlast : last.lookup rid with
  | none => exact ⟨mark, hmark, rfl⟩
  | some row => exact ⟨_, rfl, plan_record_of_mark hmark⟩

/-- A remote row that the page has no row of keeps its record as it is. -/
theorem stays (hlast : last.lookup rid = none) (hmark : store.marks.lookup rid = some mark) :
    store'.records.lookup mark.record = store.records.lookup mark.record := by
  refine hc.untouched _ fun rid' row' hrow' heq => ?_
  have hmark' := hc.marks rid'
  rw [hrow'] at hmark'
  have hsame := hc.marks rid
  rw [hlast, hmark] at hsame
  obtain rfl := record_inj hc.distinct hmark' hsame heq
  rw [hrow'] at hlast
  cases hlast

end Commits

/-- A page keeps the records as the rows they are written from have them. -/
theorem Held.commit (h : Held x store taken) (hc : Commits x store partition state page last store') :
    Held x store' (x.take store last taken) := by
  refine ⟨hc.distinct, fun r hr => ?_, fun rid mark' hmark' => ?_, fun rid hnone => ?_⟩
  -- a record minted for the sync is marked: by this page, or as it was
  · by_cases hhit : ∃ rid row, last.lookup rid = some row ∧ (x.plan store rid row).record = x.stableId r
    · obtain ⟨rid, row, hrow, heq⟩ := hhit
      have hmark := hc.marks rid
      rw [hrow] at hmark
      exact ⟨rid, _, hmark, heq⟩
    · rw [hc.untouched _ fun rid row hrow heq => hhit ⟨rid, row, hrow, heq⟩] at hr
      obtain ⟨rid, mark, hmark, heq⟩ := h.minted r hr
      obtain ⟨mark', hmark', hsame⟩ := hc.persists hmark
      exact ⟨rid, mark', hmark', hsame.trans heq⟩
  · rw [lookup_take hc.nodup]
    have hmarks := hc.marks rid
    cases hlast : last.lookup rid with
    | none =>
      rw [hlast] at hmarks
      have hmark := hmarks.symm.trans hmark'
      rw [hc.stays hlast hmark]
      exact h.marked rid mark' hmark
    | some row =>
      rw [hlast] at hmarks
      obtain rfl := Option.some_inj.1 (hmarks.symm.trans hmark')
      have hwritten := hc.written rid row hlast
      dsimp only at hwritten ⊢
      by_cases hout : x.outdated (prior store rid) row.version = true
      · obtain ⟨hwrite, -, mark, hmark⟩ := plan_of_outdated hout
        rw [hwrite] at hwritten
        rw [if_pos hout, hwritten, plan_record_of_mark hmark]
        exact h.marked rid mark hmark
      · rw [if_neg hout]
        refine ⟨row, rfl, ?_⟩
        rw [Reflects]
        split_ifs with hdeleted
        · -- a row deleted before it was known has a minted record, which does not exist
          cases hknown : x.known store rid row with
          | some record =>
            simp only [plan, hout, hdeleted, hknown, if_true, Bool.false_eq_true, if_false, Option.map_some,
              Option.getD_some] at hwritten ⊢
            exact hwritten
          | none =>
            have hrecord : (x.plan store rid row).record = x.stableId rid := by
              simp only [plan, hknown, Option.getD_none]
            have hwrite : (x.plan store rid row).write = none := by
              simp only [plan, hout, hdeleted, hknown, if_true, Bool.false_eq_true, if_false, Option.map_none]
            rw [hwrite] at hwritten
            rw [hwritten, hrecord]
            cases hexists : store.records.lookup (x.stableId rid) with
            | none => rfl
            | some fields =>
              obtain ⟨rid', mark, hmark, heq⟩ := h.minted rid (by rw [hexists]; rfl)
              obtain ⟨mark'', hmark'', hsame⟩ := hc.persists hmark
              obtain rfl := record_inj hc.distinct hmark'' hmark' (hsame.trans (heq.trans hrecord.symm))
              rw [known, hmark] at hknown
              cases hknown
        · have hwrite : (x.plan store rid row).write = some (.upsert (x.written row)) := by
            simp only [plan, hout, hdeleted, Bool.false_eq_true, if_false]
          rw [hwrite] at hwritten
          refine ⟨_, hwritten, fun k v hv => ?_⟩
          rw [Fields.over, List.lookup_append, hv]
          rfl
  · rw [lookup_take hc.nodup]
    have hmarks := hc.marks rid
    cases hlast : last.lookup rid with
    | none =>
      rw [hlast, hnone] at hmarks
      exact h.unmarked rid hmarks.symm
    | some row =>
      rw [hlast, hnone] at hmarks
      cases hmarks

/-- The deletion of a record that is gone refuses its page, in every version newer than the stored one. -/
theorem commit_of_gone (hlast : page.rows.foldlM x.keep [] = some last) (hrow : last.lookup rid = some row)
    (hmark : store.marks.lookup rid = some mark) (hgone : store.records.lookup mark.record = none)
    (hdeleted : row.deleted = true) (hnewer : x.outdated mark.version row.version = false) :
    x.commit store partition state page = none := by
  have hnodup := (keepAll_spec hlast List.nodup_nil).1
  have hprior : prior store rid = mark.version := by rw [prior, hmark]; rfl
  have hmem : (mark.record, Write.delete) ∈ writes (x.plans store last) := by
    refine (mem_writes hnodup).2 ⟨rid, row, hrow, plan_record_of_mark hmark, ?_⟩
    simp only [plan, hprior, hnewer, hdeleted, known, hmark, Bool.false_eq_true, if_false, if_true, Option.map_some]
  have hact : x.act (writes (x.plans store last)) store.records = none := by
    rw [act, if_neg, if_pos]
    · refine Bool.or_eq_true_iff.2 (.inr (List.any_eq_true.2 ⟨_, hmem, ?_⟩))
      rw [hgone]
      rfl
    · intro hempty
      rw [List.isEmpty_iff.1 hempty] at hmem
      cases hmem
  rw [commit, hlast, Option.bind_some]
  dsimp only
  rw [hact]
  rfl

end Session

end Norbital.Bolt.Sync

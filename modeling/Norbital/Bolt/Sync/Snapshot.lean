import Mathlib.Data.List.Sort
import Norbital.Lib.Runs
import Norbital.Bolt.Sync.Read

/-!
# Snapshots of a partition

The runs of one partition under `partitionRun` and `reconcile` of
`bolt/src/engine/sync/read.ts`.  Each run holds the state it loaded and commits page after
page against its version; a run may crash or lose the version to another one after any of
its statements.  A snapshot starts at a page read from no cursor or marked `begin`, and
after the page marked `end` the records of older cycles are deleted, a thousand at a time.

The world keeps, beside the store, the rows delivered since the snapshot began, the row
each remote row was last written from, and the versions that were committed.
-/

namespace Norbital.Bolt.Sync

open Norbital.Lib

def PAGE_ROWS : Nat := 1000

/-- The marks of older cycles that one statement reconciles. -/
def overdue (store : Store) (partition : String) (cycle : Nat) : List (String × Mark) :=
  ((store.marks.filter fun e => e.2.partition = partition && decide (e.2.cycle < cycle)).insertionSort
    fun a b => a.1 ≤ b.1).take PAGE_ROWS

/-- The state `partitionRun` starts from: a changed declaration starts the cursor over. -/
def load (stored : Option State) (digest : String) : State :=
  match stored with
  | some state =>
    if state.digest = digest then state else { state with cursor := none, phase := .read, digest := digest }
  | none => ⟨none, 0, .read, 0, digest⟩

/-- Whether the page begins a snapshot. -/
def Page.begins (page : Page) (state : State) : Bool := page.snapshot = some .opens || state.cursor = none

namespace Session

variable (x : Session)

def reconcile (store : Store) (partition : String) (state : State) : Option Store :=
  let rows := overdue store partition state.cycle
  let next := { state with phase := if rows.length = PAGE_ROWS then .reconcile else .read }
  let live := (rows.map fun e => e.2.record).filter fun id => (store.records.lookup id).isSome
  (x.act (live.map fun id => (id, .delete)) store.records).bind fun records =>
    statePieces store partition state next [] (rows.map Prod.fst) records

end Session

/-- A source that lost its history: the cursor starts over. -/
def lose (store : Store) (partition : String) (state : State) : Option Store :=
  statePieces store partition state { state with cursor := none, phase := .read } [] [] store.records

structure World where
  store : Store
  runs : List State
  shown : List Row
  taken : List (String × Row)
  log : List Nat

inductive Step where
  | start (digest : String)
  | page (run : Nat) (page : Page)
  | lost (run : Nat)
  | reconcile (run : Nat)
  | fail (run : Nat) (digest : String)
  | crash (run : Nat)
  deriving DecidableEq, Repr

namespace World

def init (records : List (String × Fields)) : World := ⟨⟨records, [], []⟩, [], [], [], []⟩

variable (w : World)

/-- What a run's statement leads to: the run fails where it was not committed. -/
def settle (run : Nat) (state next : State) (shown : List Row) (taken : List (String × Row)) : Option Store → World
  | none => { w with runs := w.runs.eraseIdx run }
  | some store =>
    ⟨store, w.runs.set run { next with version := state.version + 1 }, shown, taken, w.log ++ [state.version + 1]⟩

end World

variable (x : Session) (p : String)

def step (w : World) : Step → World
  | .start digest => { w with runs := w.runs ++ [load (w.store.states.lookup p) digest] }
  | .page run page =>
    match w.runs[run]? with
    | none => w
    | some state =>
      if state.phase = .reconcile then w
      else
        w.settle run state (state.next page) (if page.begins state then page.rows else w.shown ++ page.rows)
          (x.take w.store ((page.rows.foldlM x.keep []).getD []) w.taken) (x.commit w.store p state page)
  | .lost run =>
    match w.runs[run]? with
    | none => w
    | some state =>
      if state.phase = .reconcile then w
      else if state.cursor = none then { w with runs := w.runs.eraseIdx run }
      else w.settle run state { state with cursor := none, phase := .read } w.shown w.taken (lose w.store p state)
  | .reconcile run =>
    match w.runs[run]? with
    | none => w
    | some state =>
      if state.phase = .read then w
      else
        -- a page of the rows no longer shown is deleted; a full one may not be the last
        let rows := overdue w.store p state.cycle
        w.settle run state { state with phase := if rows.length = PAGE_ROWS then .reconcile else .read } w.shown
          (w.taken.filter fun e => e.1 ∉ rows.map Prod.fst) (x.reconcile w.store p state)
  | .fail run digest =>
    -- only the first run of a partition leaves a state when it fails
    match w.store.states.lookup p with
    | some _ => { w with runs := w.runs.eraseIdx run }
    | none =>
      { w with
        store := { w.store with states := put p ⟨none, 0, .read, 1, digest⟩ w.store.states }
        runs := w.runs.eraseIdx run
        log := w.log ++ [1] }
  | .crash run => { w with runs := w.runs.eraseIdx run }

def run (w : World) (steps : List Step) : World := steps.foldl (step x p) w

open Session

namespace World

/-- The stored cycle. -/
def cycle (p : String) (w : World) : Nat := ((w.store.states.lookup p).map State.cycle).getD 0

/-- The stored version. -/
def version (p : String) (w : World) : Nat := ((w.store.states.lookup p).map State.version).getD 0

/-- The stored phase. -/
def phase (p : String) (w : World) : Option Phase := (w.store.states.lookup p).map State.phase

end World

/-- No run is ahead of the stored state, one at its version is in its cycle, and every version was committed
once. -/
structure Paced (p : String) (w : World) : Prop where
  behind : ∀ state ∈ w.runs, state.version ≤ w.version p
  loaded : ∀ state ∈ w.runs, state.version = w.version p → state.cycle = w.cycle p
  log : w.log.Pairwise (· < ·)
  logged : ∀ v ∈ w.log, v ≤ w.version p

/-- A remote row is in the stored cycle exactly if it was delivered since the snapshot began, and its record is
as the row it was last written from has it. -/
structure Snapped (x : Session) (p : String) (w : World) : Prop where
  held : Held x w.store w.taken
  keys : (w.store.marks.map Prod.fst).Nodup
  partition : ∀ rid mark, w.store.marks.lookup rid = some mark → mark.partition = p
  cycles : ∀ rid mark, w.store.marks.lookup rid = some mark → mark.cycle ≤ w.cycle p
  shown : ∀ rid, (∃ row ∈ w.shown, x.rid row = some rid) ↔
    ∃ mark, w.store.marks.lookup rid = some mark ∧ mark.cycle = w.cycle p

variable {x p} {w : World}

/-- A run whose version is the stored one, as far as the statement can tell, has that version. -/
theorem Paced.current (h : Paced p w) {run : Nat} {state : State} (hrun : w.runs[run]? = some state)
    (hversion : (w.store.states.lookup p).all (·.version = state.version) = true) :
    state.version = w.version p ∧ state.cycle = w.cycle p := by
  have hmem : state ∈ w.runs := List.mem_of_getElem? hrun
  have hcurrent : state.version = w.version p := by
    have hbehind := h.behind state hmem
    rw [World.version] at hbehind ⊢
    cases hstored : w.store.states.lookup p with
    | none =>
      rw [hstored] at hbehind
      exact Nat.le_zero.1 hbehind
    | some stored =>
      rw [hstored, Option.all_some] at hversion
      exact (of_decide_eq_true hversion).symm
  exact ⟨hcurrent, h.loaded state hmem hcurrent⟩

theorem Paced.erase (h : Paced p w) (run : Nat) : Paced p { w with runs := w.runs.eraseIdx run } :=
  ⟨fun state hstate => h.behind state (List.mem_of_mem_eraseIdx hstate),
    fun state hstate => h.loaded state (List.mem_of_mem_eraseIdx hstate), h.log, h.logged⟩

/-- What a committed statement stores. -/
theorem settle_stored (run : Nat) {state next : State} (shown : List Row) (taken : List (String × Row)) {store' : Store}
    (hstates : store'.states = put p { next with version := state.version + 1 } w.store.states) :
    (w.settle run state next shown taken (some store')).store.states.lookup p =
      some { next with version := state.version + 1 } := by
  show store'.states.lookup p = _
  rw [hstates, lookup_put, beq_self_eq_true, if_pos rfl]

/-- A committed statement takes the version one further, so every other run is behind. -/
theorem Paced.settle (h : Paced p w) {run : Nat} {state : State} (hrun : w.runs[run]? = some state) (next : State)
    (shown : List Row) (taken : List (String × Row)) {store' : Store}
    (hversion : (w.store.states.lookup p).all (·.version = state.version) = true)
    (hstates : store'.states = put p { next with version := state.version + 1 } w.store.states) :
    Paced p (w.settle run state next shown taken (some store')) ∧
      (w.settle run state next shown taken (some store')).cycle p = next.cycle ∧
      (w.settle run state next shown taken (some store')).phase p = some next.phase := by
  obtain ⟨hcurrent, -⟩ := h.current hrun hversion
  have hstored := settle_stored run shown taken hstates
  have hversion' : (w.settle run state next shown taken (some store')).version p = w.version p + 1 := by
    rw [World.version, hstored, ← hcurrent]
    rfl
  have hcycle : (w.settle run state next shown taken (some store')).cycle p = next.cycle := by
    rw [World.cycle, hstored]
    rfl
  refine ⟨⟨fun state' hstate' => ?_, fun state' hstate' hsame => ?_, ?_, fun v hv => ?_⟩, hcycle, ?_⟩
  · rw [hversion']
    rcases List.mem_or_eq_of_mem_set hstate' with hmem | rfl
    · have := h.behind state' hmem
      omega
    · show state.version + 1 ≤ _
      omega
  · rw [hversion'] at hsame
    rcases List.mem_or_eq_of_mem_set hstate' with hmem | rfl
    · have := h.behind state' hmem
      omega
    · exact hcycle.symm
  · refine List.pairwise_append.2 ⟨h.log, List.pairwise_singleton _ _, fun v hv v' hv' => ?_⟩
    have := h.logged v hv
    rw [List.mem_singleton.1 hv']
    omega
  · rw [hversion']
    rcases List.mem_append.1 hv with hv | hv
    · have := h.logged v hv
      omega
    · rw [List.mem_singleton.1 hv]
      omega
  · rw [World.phase, hstored]
    rfl

namespace Session

theorem newest_isSome (rows : List Row) (previous : Option Row) :
    (x.newest previous rows).isSome = true ↔ previous.isSome = true ∨ rows ≠ [] := by
  induction rows generalizing previous with
  | nil => simp [newest]
  | cons row rows ih =>
    rw [show x.newest previous (row :: rows) = x.newest (some (x.later previous row)) rows from rfl, ih]
    simp

/-- A page keeps a row of exactly the remote ids its rows have. -/
theorem Commits.kept_iff {store store' : Store} {state : State} {page : Page} {last : List (String × Row)}
    (hc : Commits x store p state page last store') (rid : String) :
    (∃ row, last.lookup rid = some row) ↔ ∃ row ∈ page.rows, x.rid row = some rid := by
  rw [← Option.isSome_iff_exists, hc.kept rid, newest_isSome, or_iff_right (by simp), rowsOf, ne_eq,
    List.filter_eq_nil_iff]
  simp

end Session

theorem keys_of_commit {store store' : Store} {state : State} {page : Page}
    (h : x.commit store p state page = some store') (hkeys : (store.marks.map Prod.fst).Nodup) :
    (store'.marks.map Prod.fst).Nodup := by
  obtain ⟨last, -, h⟩ := Option.bind_eq_some_iff.1 h
  obtain ⟨records, -, h⟩ := Option.bind_eq_some_iff.1 h
  exact statePieces_keys h hkeys

/-- A page stamps its remote rows with the cycle it leads to, stale ones as well. -/
theorem Snapped.page (h : Snapped x p w) (hp : Paced p w) {run : Nat} {state : State} (hrun : w.runs[run]? = some state)
    {page : Page} {store' : Store} {last : List (String × Row)} (hcommit : x.commit w.store p state page = some store')
    (hc : Commits x w.store p state page last store') :
    Snapped x p (w.settle run state (state.next page) (if page.begins state then page.rows else w.shown ++ page.rows)
      (x.take w.store last w.taken) (some store')) := by
  obtain ⟨-, hcycle⟩ := hp.current hrun hc.version
  obtain ⟨-, hcycle', -⟩ := hp.settle hrun (state.next page) (if page.begins state then page.rows else w.shown ++ page.rows)
    (x.take w.store last w.taken) hc.version hc.states
  have hbegins : (state.next page).cycle = if page.begins state then w.cycle p + 1 else w.cycle p := by
    rw [State.next, Page.begins, hcycle]
    simp only [Bool.or_eq_true, decide_eq_true_eq]
  refine ⟨h.held.commit hc, keys_of_commit hcommit h.keys, fun rid mark hmark => ?_, fun rid mark hmark => ?_,
    fun rid => ?_⟩
  · have hmarks := hc.marks rid
    cases hlast : last.lookup rid with
    | none =>
      rw [hlast] at hmarks
      exact h.partition rid mark (hmarks.symm.trans hmark)
    | some row =>
      rw [hlast] at hmarks
      rw [← Option.some_inj.1 (hmarks.symm.trans hmark)]
  · rw [hcycle']
    have hmarks := hc.marks rid
    cases hlast : last.lookup rid with
    | none =>
      rw [hlast] at hmarks
      have hle := h.cycles rid mark (hmarks.symm.trans hmark)
      rw [hbegins]
      split_ifs <;> omega
    | some row =>
      rw [hlast] at hmarks
      rw [← Option.some_inj.1 (hmarks.symm.trans hmark)]
  · rw [hcycle']
    have hmarks := hc.marks rid
    have hkept := hc.kept_iff rid
    show (∃ row ∈ (if page.begins state then page.rows else w.shown ++ page.rows), x.rid row = some rid) ↔
      ∃ mark, store'.marks.lookup rid = some mark ∧ mark.cycle = (state.next page).cycle
    cases hlast : last.lookup rid with
    | some row =>
      rw [hlast] at hmarks hkept
      -- a row of the page is shown, and its mark is of the cycle
      refine iff_of_true ?_ ⟨_, hmarks, rfl⟩
      obtain ⟨row', hrow', hrid⟩ := hkept.1 ⟨row, rfl⟩
      refine ⟨row', ?_, hrid⟩
      split_ifs
      · exact hrow'
      · exact List.mem_append_right _ hrow'
    | none =>
      rw [hlast] at hmarks hkept
      have hno : ¬ ∃ row ∈ page.rows, x.rid row = some rid := fun hrow =>
        (hkept.2 hrow).elim fun row hrow => (Option.some_ne_none row) hrow.symm
      rw [hmarks, hbegins]
      by_cases hb : page.begins state = true
      · -- a new cycle holds none of the earlier marks
        rw [if_pos hb, if_pos hb]
        refine iff_of_false hno ?_
        rintro ⟨mark, hmark, hsame⟩
        have := h.cycles rid mark hmark
        omega
      · -- within the cycle what was shown stays so
        rw [if_neg hb, if_neg hb, ← h.shown rid]
        constructor
        · rintro ⟨row, hrow, hrid⟩
          rcases List.mem_append.1 hrow with hrow | hrow
          · exact ⟨row, hrow, hrid⟩
          · exact absurd ⟨row, hrow, hrid⟩ hno
        · rintro ⟨row, hrow, hrid⟩
          exact ⟨row, List.mem_append_left _ hrow, hrid⟩

theorem mem_overdue {store : Store} {cycle : Nat} {e : String × Mark} (h : e ∈ overdue store p cycle) :
    e ∈ store.marks ∧ e.2.partition = p ∧ e.2.cycle < cycle := by
  have hmem := (List.perm_insertionSort _ _).subset (List.mem_of_mem_take h)
  have hfilter := (List.mem_filter.1 hmem).2
  rw [Bool.and_eq_true, decide_eq_true_eq, decide_eq_true_eq] at hfilter
  exact ⟨List.mem_of_mem_filter hmem, hfilter⟩

/-- A statement that takes less than a full page takes all that is overdue. -/
theorem overdue_all {store : Store} {cycle : Nat} (h : (overdue store p cycle).length ≠ PAGE_ROWS) {e : String × Mark}
    (hmem : e ∈ store.marks) (hpartition : e.2.partition = p) (hcycle : e.2.cycle < cycle) :
    e ∈ overdue store p cycle := by
  rw [overdue] at h ⊢
  rw [List.length_take] at h
  rw [List.take_of_length_le (by omega)]
  refine (List.perm_insertionSort _ _).symm.subset (List.mem_filter.2 ⟨hmem, ?_⟩)
  rw [Bool.and_eq_true, decide_eq_true_eq, decide_eq_true_eq]
  exact ⟨hpartition, hcycle⟩

/-- What a committed statement of the reconciliation does: the marks of its remote rows go, and with them their
records. -/
structure Releases (store : Store) (p : String) (state : State) (store' : Store) : Prop where
  version : (store.states.lookup p).all (·.version = state.version) = true
  distinct : (store'.marks.map fun e => e.2.record).Nodup
  marks : ∀ rid, store'.marks.lookup rid =
    if rid ∈ (overdue store p state.cycle).map Prod.fst then none else store.marks.lookup rid
  records : ∀ id, store'.records.lookup id =
    if id ∈ (overdue store p state.cycle).map (fun e => e.2.record) then none else store.records.lookup id

theorem nodup_overdue {store : Store} {cycle : Nat} {β : Type} {f : String × Mark → β} (h : (store.marks.map f).Nodup) :
    ((overdue store p cycle).map f).Nodup := by
  refine List.Nodup.sublist ((List.take_sublist _ _).map f) ?_
  refine ((List.perm_insertionSort _ _).map f).nodup_iff.2 ?_
  exact h.sublist (List.filter_sublist.map f)

theorem reconcile_spec {store store' : Store} {state : State} (h : x.reconcile store p state = some store')
    (hdistinct : (store.marks.map fun e => e.2.record).Nodup) : Releases store p state store' := by
  obtain ⟨records, hact, h⟩ := Option.bind_eq_some_iff.1 h
  obtain ⟨hversion, hrecords, -⟩ := statePieces_states h
  obtain ⟨hdistinct', hmarks⟩ := statePieces_gone h
  refine ⟨hversion, hdistinct', hmarks, fun id => ?_⟩
  set ids := (overdue store p state.cycle).map fun e => e.2.record with hids
  have hkeys : ∀ ids : List String, (ids.map fun id => (id, Write.delete)).map Prod.fst = ids := fun ids => by
    rw [List.map_map]
    exact List.map_id ids
  have hlive : (ids.filter fun id => (store.records.lookup id).isSome).Nodup :=
    (nodup_overdue hdistinct).filter _
  have hspec := act_spec hact ((hkeys _).symm ▸ hlive) id
  rw [hrecords, hspec]
  cases hwrite : ((ids.filter fun id => (store.records.lookup id).isSome).map fun id => (id, Write.delete)).lookup id with
  | some write =>
    obtain ⟨id', hid', heq⟩ := List.mem_map.1 (mem_of_lookup hwrite)
    cases heq
    rw [if_pos (List.mem_of_mem_filter hid')]
    rfl
  | none =>
    dsimp only
    split_ifs with hmem
    · cases hrecord : store.records.lookup id with
      | none => rfl
      | some fields =>
        have hin : (id, Write.delete) ∈
            (ids.filter fun id => (store.records.lookup id).isSome).map fun id => (id, Write.delete) :=
          List.mem_map.2 ⟨id, List.mem_filter.2 ⟨hmem, by rw [hrecord]; rfl⟩, rfl⟩
        rw [lookup_some_of_mem ((hkeys _).symm ▸ hlive) hin] at hwrite
        cases hwrite
    · rfl

variable {state : State} {store' : Store}

/-- A remote row that is not overdue keeps its mark and its record. -/
theorem Releases.spares (hr : Releases w.store p state store') (h : Snapped x p w) {rid : String} {mark : Mark}
    (hmark : w.store.marks.lookup rid = some mark) (hcycle : ¬ mark.cycle < state.cycle) :
    store'.marks.lookup rid = some mark ∧ store'.records.lookup mark.record = w.store.records.lookup mark.record := by
  have hstays : ∀ e ∈ overdue w.store p state.cycle, e.1 ≠ rid := by
    intro e he heq
    obtain ⟨hmem, -, hlt⟩ := mem_overdue he
    have hlookup := lookup_some_of_mem h.keys hmem
    rw [heq, hmark, Option.some_inj] at hlookup
    exact hcycle (hlookup ▸ hlt)
  rw [hr.marks, hr.records, if_neg, if_neg]
  · exact ⟨hmark, rfl⟩
  · intro hmem
    obtain ⟨e, he, hsame⟩ := List.mem_map.1 hmem
    have hlookup := lookup_some_of_mem h.keys (mem_overdue he).1
    exact hstays e he (record_inj h.held.distinct hlookup hmark hsame)
  · intro hmem
    obtain ⟨e, he, heq⟩ := List.mem_map.1 hmem
    exact hstays e he heq

/-- A released remote row was overdue, and its record is gone. -/
theorem Releases.released (hr : Releases w.store p state store') (h : Snapped x p w) {rid : String} {mark : Mark}
    (hmark : w.store.marks.lookup rid = some mark) (hgone : store'.marks.lookup rid = none) :
    mark.cycle < state.cycle ∧ store'.records.lookup mark.record = none := by
  have hcycle : mark.cycle < state.cycle := by
    by_contra hnot
    have hkept := (hr.spares h hmark hnot).1
    rw [hgone] at hkept
    cases hkept
  refine ⟨hcycle, ?_⟩
  rw [hr.marks] at hgone
  split_ifs at hgone with hmem
  · obtain ⟨⟨rid', mark'⟩, he, rfl⟩ := List.mem_map.1 hmem
    have hlookup := lookup_some_of_mem h.keys (mem_overdue he).1
    obtain rfl := Option.some_inj.1 (hmark.symm.trans hlookup)
    rw [hr.records, if_pos (List.mem_map.2 ⟨_, he, rfl⟩)]
  · rw [hmark] at hgone
    cases hgone

/-- A mark that is left was there. -/
theorem Releases.left (hr : Releases w.store p state store') {rid : String} {mark : Mark}
    (hmark : store'.marks.lookup rid = some mark) :
    rid ∉ (overdue w.store p state.cycle).map Prod.fst ∧ w.store.marks.lookup rid = some mark := by
  rw [hr.marks] at hmark
  split_ifs at hmark with hmem
  exact ⟨hmem, hmark⟩

theorem Releases.held (hr : Releases w.store p state store') (h : Snapped x p w) :
    Held x store' (w.taken.filter fun e => e.1 ∉ (overdue w.store p state.cycle).map Prod.fst) := by
  have htaken : ∀ rid, (w.taken.filter fun e => e.1 ∉ (overdue w.store p state.cycle).map Prod.fst).lookup rid =
      if rid ∈ (overdue w.store p state.cycle).map Prod.fst then none else w.taken.lookup rid := by
    intro rid
    rw [lookup_filter fun rid => decide (rid ∉ (overdue w.store p state.cycle).map Prod.fst)]
    by_cases hmem : rid ∈ (overdue w.store p state.cycle).map Prod.fst
    · rw [if_pos hmem, if_neg (by simpa using hmem)]
    · rw [if_neg hmem, if_pos (by simpa using hmem)]
  refine ⟨hr.distinct, fun r hexists => ?_, fun rid mark hmark => ?_, fun rid hnone => ?_⟩
  · have hrecords := hr.records (x.stableId r)
    split_ifs at hrecords with hmem
    · rw [hrecords] at hexists
      cases hexists
    · obtain ⟨rid, mark, hmark, heq⟩ := h.held.minted r (hrecords ▸ hexists)
      cases hgone : store'.marks.lookup rid with
      | none =>
        have hrecord := (hr.released h hmark hgone).2
        rw [heq] at hrecord
        rw [hrecord] at hexists
        cases hexists
      | some mark' =>
        have hmark' := (hr.left hgone).2
        rw [hmark, Option.some_inj] at hmark'
        exact ⟨rid, mark', hgone, hmark' ▸ heq⟩
  · obtain ⟨hmem, hmark'⟩ := hr.left hmark
    obtain ⟨row, hrow, hreflects⟩ := h.held.marked rid mark hmark'
    refine ⟨row, (htaken rid).trans ((if_neg hmem).trans hrow), ?_⟩
    have hrecord : mark.record ∉ (overdue w.store p state.cycle).map fun e => e.2.record := by
      intro hin
      obtain ⟨e, he, heq⟩ := List.mem_map.1 hin
      have hlookup := lookup_some_of_mem h.keys (mem_overdue he).1
      exact hmem (List.mem_map.2 ⟨e, he, record_inj h.held.distinct hlookup hmark' heq⟩)
    rw [hr.records, if_neg hrecord]
    exact hreflects
  · rw [htaken]
    split_ifs with hmem
    · rfl
    · refine h.held.unmarked rid ?_
      rw [hr.marks, if_neg hmem] at hnone
      exact hnone

theorem Snapped.reconcile (h : Snapped x p w) (hp : Paced p w) {run : Nat} (hrun : w.runs[run]? = some state) {next : State}
    (hnext : next.cycle = state.cycle) (hr : Releases w.store p state store')
    (hkeys : (store'.marks.map Prod.fst).Nodup)
    (hstates : store'.states = put p { next with version := state.version + 1 } w.store.states) :
    Snapped x p (w.settle run state next w.shown
      (w.taken.filter fun e => e.1 ∉ (overdue w.store p state.cycle).map Prod.fst) (some store')) := by
  obtain ⟨-, hcycle⟩ := hp.current hrun hr.version
  obtain ⟨-, hcycle', -⟩ := hp.settle hrun next w.shown
    (w.taken.filter fun e => e.1 ∉ (overdue w.store p state.cycle).map Prod.fst) hr.version hstates
  have hsame := hcycle'.trans (hnext.trans hcycle)
  refine ⟨hr.held h, hkeys, fun rid mark hmark => h.partition rid mark (hr.left hmark).2, fun rid mark hmark => ?_,
    fun rid => ?_⟩
  · rw [hsame]
    exact h.cycles rid mark (hr.left hmark).2
  · rw [hsame]
    refine (h.shown rid).trans ⟨?_, ?_⟩
    · rintro ⟨mark, hmark, hnow⟩
      exact ⟨mark, (hr.spares h hmark (by omega)).1, hnow⟩
    · rintro ⟨mark, hmark, hnow⟩
      exact ⟨mark, (hr.left hmark).2, hnow⟩

/-- A world with the same marks, records and cycle. -/
theorem Snapped.of_eq (h : Snapped x p w) {w' : World} (hmarks : w'.store.marks = w.store.marks)
    (hrecords : w'.store.records = w.store.records) (hshown : w'.shown = w.shown) (htaken : w'.taken = w.taken)
    (hcycle : w'.cycle p = w.cycle p) : Snapped x p w' := by
  refine ⟨⟨hmarks ▸ h.held.distinct, ?_, ?_, ?_⟩, hmarks ▸ h.keys, ?_, ?_, ?_⟩
  · rw [hmarks, hrecords]
    exact h.held.minted
  · rw [hmarks, hrecords, htaken]
    exact h.held.marked
  · rw [hmarks, htaken]
    exact h.held.unmarked
  · rw [hmarks]
    exact h.partition
  · rw [hmarks, hcycle]
    exact h.cycles
  · rw [hmarks, hshown, hcycle]
    exact h.shown

theorem Paced.start (h : Paced p w) (digest : String) : Paced p (step x p w (.start digest)) := by
  have hload : (load (w.store.states.lookup p) digest).version = w.version p ∧
      (load (w.store.states.lookup p) digest).cycle = w.cycle p := by
    rw [World.version, World.cycle]
    cases w.store.states.lookup p with
    | none => exact ⟨rfl, rfl⟩
    | some state =>
      rw [load]
      split_ifs <;> exact ⟨rfl, rfl⟩
  refine ⟨fun state hstate => ?_, fun state hstate hsame => ?_, h.log, h.logged⟩
  · rcases List.mem_append.1 hstate with hstate | hstate
    · exact h.behind state hstate
    · rw [List.mem_singleton.1 hstate]
      exact hload.1.le
  · rcases List.mem_append.1 hstate with hstate | hstate
    · exact h.loaded state hstate hsame
    · rw [List.mem_singleton.1 hstate]
      exact hload.2

theorem statePieces_lost (h : lose w.store p state = some store') :
    (w.store.states.lookup p).all (·.version = state.version) = true ∧ store'.records = w.store.records ∧
      store'.marks = w.store.marks ∧ store'.states =
        put p { state with cursor := none, phase := .read, version := state.version + 1 } w.store.states := by
  obtain ⟨hversion, hrecords, hstates⟩ := statePieces_states h
  rw [lose, statePieces] at h
  dsimp only at h
  split_ifs at h
  cases h
  exact ⟨hversion, hrecords, List.filter_eq_self.2 fun e _ => decide_eq_true List.not_mem_nil, hstates⟩

/-- The invariant of the partition. -/
structure Sound (x : Session) (p : String) (w : World) : Prop where
  snapped : Snapped x p w
  paced : Paced p w

theorem Sound.erase (h : Sound x p w) (run : Nat) : Sound x p { w with runs := w.runs.eraseIdx run } :=
  ⟨h.snapped.of_eq rfl rfl rfl rfl rfl, h.paced.erase run⟩

theorem Sound.fail (h : Sound x p w) (run : Nat) (digest : String) : Sound x p (step x p w (.fail run digest)) := by
  rw [step]
  cases hstored : w.store.states.lookup p with
  | some state => exact h.erase run
  | none =>
    have hversion : w.version p = 0 := by rw [World.version, hstored]; rfl
    have hcycle : w.cycle p = 0 := by rw [World.cycle, hstored]; rfl
    have hput : (put p (⟨none, 0, .read, 1, digest⟩ : State) w.store.states).lookup p = some ⟨none, 0, .read, 1, digest⟩ := by
      rw [lookup_put, beq_self_eq_true, if_pos rfl]
    refine ⟨h.snapped.of_eq rfl rfl rfl rfl ?_, ⟨fun state hstate => ?_, fun state hstate hsame => ?_, ?_, fun v hv => ?_⟩⟩
    · rw [hcycle, World.cycle, hput]
      rfl
    · have := h.paced.behind state (List.mem_of_mem_eraseIdx hstate)
      omega
    · have := h.paced.behind state (List.mem_of_mem_eraseIdx hstate)
      rw [World.version, hput] at hsame
      have hone : state.version = 1 := hsame
      omega
    · refine List.pairwise_append.2 ⟨h.paced.log, List.pairwise_singleton _ _, fun v hv v' hv' => ?_⟩
      have := h.paced.logged v hv
      rw [List.mem_singleton.1 hv']
      omega
    · rw [World.version, hput]
      show v ≤ 1
      rcases List.mem_append.1 hv with hv | hv
      · have := h.paced.logged v hv
        omega
      · rw [List.mem_singleton.1 hv]

theorem Sound.step (h : Sound x p w) (a : Step) : Sound x p (step x p w a) := by
  cases a with
  | start digest => exact ⟨h.snapped.of_eq rfl rfl rfl rfl rfl, h.paced.start digest⟩
  | page run page =>
    rw [Sync.step]
    split
    · exact h
    next state hrun =>
    by_cases hphase : state.phase = .reconcile
    · rw [if_pos hphase]
      exact h
    rw [if_neg hphase]
    cases hcommit : x.commit w.store p state page with
    | none => exact h.erase run
    | some store' =>
      obtain ⟨last, hlast, hc⟩ := commit_spec hcommit
      rw [hlast, Option.getD_some]
      exact ⟨h.snapped.page h.paced hrun hcommit hc, (h.paced.settle hrun _ _ _ hc.version hc.states).1⟩
  | lost run =>
    rw [Sync.step]
    split
    · exact h
    next state hrun =>
    split_ifs
    · exact h
    · exact h.erase run
    cases hlose : lose w.store p state with
    | none => exact h.erase run
    | some store' =>
      obtain ⟨hversion, hrecords, hmarks, hstates⟩ := statePieces_lost hlose
      obtain ⟨hpaced, hcycle, -⟩ := h.paced.settle hrun { state with cursor := none, phase := .read } w.shown
        w.taken hversion hstates
      exact ⟨h.snapped.of_eq hmarks hrecords rfl rfl (hcycle.trans (h.paced.current hrun hversion).2), hpaced⟩
  | reconcile run =>
    rw [Sync.step]
    split
    · exact h
    next state hrun =>
    split_ifs
    · exact h
    cases hreconcile : x.reconcile w.store p state with
    | none => exact h.erase run
    | some store' =>
      have hr := reconcile_spec hreconcile h.snapped.held.distinct
      obtain ⟨records, -, hpieces⟩ := Option.bind_eq_some_iff.1 hreconcile
      obtain ⟨hversion, -, hstates⟩ := statePieces_states hpieces
      exact ⟨h.snapped.reconcile h.paced hrun rfl hr (statePieces_keys hpieces h.snapped.keys) hstates,
        (h.paced.settle hrun _ _ _ hversion hstates).1⟩
  | fail run digest => exact h.fail run digest
  | crash run => exact h.erase run

/-- The remote row has a record. -/
def Mapped (w : World) (rid : String) : Prop :=
  ∃ mark fields, w.store.marks.lookup rid = some mark ∧ w.store.records.lookup mark.record = some fields

/-- The mapped records are those of the remote rows delivered since the snapshot began whose last row that was
not outdated is no deletion. -/
def Exact (x : Session) (w : World) : Prop :=
  ∀ rid, Mapped w rid ↔ (∃ row ∈ w.shown, x.rid row = some rid) ∧ ∃ row, w.taken.lookup rid = some row ∧ row.deleted = false

/-- What a step does to the snapshot: a version is committed once, the reconciliation spares what was delivered and
leaves exactly that, and a remote row leaves the id map with its record. -/
structure Snapshots (x : Session) (p : String) (w : World) (a : Step) : Prop where
  versions : (step x p w a).log.Pairwise (· < ·)
  commits : (step x p w a).log = w.log ∨ (step x p w a).log = w.log ++ [(step x p w a).version p]
  spared : ∀ run, a = .reconcile run → ∀ row ∈ w.shown, ∀ rid mark, x.rid row = some rid →
    w.store.marks.lookup rid = some mark → (step x p w a).store.marks.lookup rid = some mark ∧
      (step x p w a).store.records.lookup mark.record = w.store.records.lookup mark.record
  released : ∀ rid mark, w.store.marks.lookup rid = some mark → (step x p w a).store.marks.lookup rid = none →
    (step x p w a).store.records.lookup mark.record = none
  exact : ∀ run, a = .reconcile run → w.phase p = some .reconcile → (step x p w a).phase p = some .read →
    Exact x (step x p w a)

/-- Where only the remote rows of the stored cycle are left, the records are exactly those of the snapshot. -/
theorem Snapped.exact (h : Snapped x p w)
    (hall : ∀ rid mark, w.store.marks.lookup rid = some mark → ¬ mark.cycle < w.cycle p) : Exact x w := by
  have hcycle : ∀ rid mark, w.store.marks.lookup rid = some mark → mark.cycle = w.cycle p := fun rid mark hmark =>
    Nat.le_antisymm (h.cycles rid mark hmark) (Nat.not_lt.1 (hall rid mark hmark))
  intro rid
  constructor
  · rintro ⟨mark, fields, hmark, hrecord⟩
    obtain ⟨row, hrow, hreflects⟩ := h.held.marked rid mark hmark
    refine ⟨(h.shown rid).2 ⟨mark, hmark, hcycle rid mark hmark⟩, row, hrow, ?_⟩
    rw [Reflects] at hreflects
    split_ifs at hreflects with hdeleted
    · rw [hrecord] at hreflects
      cases hreflects
    · exact Bool.eq_false_iff.2 hdeleted
  · rintro ⟨hshown, row, hrow, hdeleted⟩
    obtain ⟨mark, hmark, -⟩ := (h.shown rid).1 hshown
    obtain ⟨row', hrow', hreflects⟩ := h.held.marked rid mark hmark
    obtain rfl := Option.some_inj.1 (hrow.symm.trans hrow')
    rw [Reflects, if_neg (by rw [hdeleted]; exact Bool.false_ne_true)] at hreflects
    obtain ⟨fields, hfields, -⟩ := hreflects
    exact ⟨mark, fields, hmark, hfields⟩

/-- Only a statement of the reconciliation takes a remote row out of the id map. -/
theorem marks_step (a : Step) (hne : ∀ run, a ≠ .reconcile run) {rid : String} {mark : Mark}
    (hmark : w.store.marks.lookup rid = some mark) : ∃ mark', (step x p w a).store.marks.lookup rid = some mark' := by
  cases a with
  | start digest => exact ⟨mark, hmark⟩
  | crash run => exact ⟨mark, hmark⟩
  | reconcile run => exact absurd rfl (hne run)
  | fail run digest =>
    rw [Sync.step]
    split <;> exact ⟨mark, hmark⟩
  | lost run =>
    rw [Sync.step]
    split
    · exact ⟨mark, hmark⟩
    split_ifs
    · exact ⟨mark, hmark⟩
    · exact ⟨mark, hmark⟩
    next state _ _ _ =>
    cases hlose : lose w.store p state with
    | none => exact ⟨mark, hmark⟩
    | some store' => exact ⟨mark, (statePieces_lost hlose).2.2.1 ▸ hmark⟩
  | page run page =>
    rw [Sync.step]
    split
    · exact ⟨mark, hmark⟩
    next state hrun =>
    by_cases hphase : state.phase = .reconcile
    · rw [if_pos hphase]
      exact ⟨mark, hmark⟩
    rw [if_neg hphase]
    cases hcommit : x.commit w.store p state page with
    | none => exact ⟨mark, hmark⟩
    | some store' =>
      obtain ⟨last, -, hc⟩ := commit_spec hcommit
      obtain ⟨mark', hmark', -⟩ := hc.persists hmark
      exact ⟨mark', hmark'⟩

/-- A statement of the reconciliation changes nothing, or releases what is overdue. -/
theorem step_reconcile (run : Nat) :
    (step x p w (.reconcile run)).store = w.store ∧ (step x p w (.reconcile run)).log = w.log ∨
      ∃ state store', w.runs[run]? = some state ∧ x.reconcile w.store p state = some store' ∧
        step x p w (.reconcile run) = w.settle run state
          { state with phase := if (overdue w.store p state.cycle).length = PAGE_ROWS then .reconcile else .read } w.shown
          (w.taken.filter fun e => e.1 ∉ (overdue w.store p state.cycle).map Prod.fst) (some store') := by
  rw [Sync.step]
  split
  · exact .inl ⟨rfl, rfl⟩
  next state hrun =>
  by_cases hphase : state.phase = .read
  · rw [if_pos hphase]
    exact .inl ⟨rfl, rfl⟩
  rw [if_neg hphase]
  dsimp only
  cases hreconcile : x.reconcile w.store p state with
  | none => exact .inl ⟨rfl, rfl⟩
  | some store' => exact .inr ⟨state, store', hrun, hreconcile, rfl⟩

theorem log_settle {run : Nat} {state next : State} {shown : List Row} {taken : List (String × Row)} {store' : Store}
    (hstates : store'.states = put p { next with version := state.version + 1 } w.store.states) :
    (w.settle run state next shown taken (some store')).log =
      w.log ++ [(w.settle run state next shown taken (some store')).version p] := by
  rw [World.version, settle_stored run shown taken hstates]
  rfl

/-- A step commits the version it stores, or none. -/
theorem log_step (a : Step) :
    (step x p w a).log = w.log ∨ (step x p w a).log = w.log ++ [(step x p w a).version p] := by
  cases a with
  | start digest => exact .inl rfl
  | crash run => exact .inl rfl
  | fail run digest =>
    rw [Sync.step]
    split
    · exact .inl rfl
    · right
      rw [World.version, lookup_put, beq_self_eq_true, if_pos rfl]
      rfl
  | lost run =>
    rw [Sync.step]
    split
    · exact .inl rfl
    split_ifs
    · exact .inl rfl
    · exact .inl rfl
    next state _ _ _ =>
    cases hlose : lose w.store p state with
    | none => exact .inl rfl
    | some store' => exact .inr (log_settle (statePieces_states hlose).2.2)
  | page run page =>
    rw [Sync.step]
    split
    · exact .inl rfl
    next state hrun =>
    by_cases hphase : state.phase = .reconcile
    · rw [if_pos hphase]
      exact .inl rfl
    rw [if_neg hphase]
    cases hcommit : x.commit w.store p state page with
    | none => exact .inl rfl
    | some store' =>
      obtain ⟨last, -, hc⟩ := commit_spec hcommit
      exact .inr (log_settle hc.states)
  | reconcile run =>
    rcases step_reconcile (x := x) (p := p) (w := w) run with ⟨-, hlog⟩ | ⟨state, store', -, hreconcile, hstep⟩
    · exact .inl hlog
    · obtain ⟨records, -, hpieces⟩ := Option.bind_eq_some_iff.1 hreconcile
      rw [hstep]
      exact .inr (log_settle (statePieces_states hpieces).2.2)

theorem Sound.snapshots (h : Sound x p w) (a : Step) : Snapshots x p w a := by
  refine ⟨(h.step a).paced.log, log_step a, ?_, fun rid mark hmark hgone => ?_, ?_⟩
  · rintro run rfl row hrow rid mark hrid hmark
    rcases step_reconcile (x := x) (p := p) (w := w) run with ⟨hstore, -⟩ | ⟨state, store', hrun, hreconcile, hstep⟩
    · rw [hstore]
      exact ⟨hmark, rfl⟩
    · have hr := reconcile_spec hreconcile h.snapped.held.distinct
      obtain ⟨mark', hmark', hnow⟩ := (h.snapped.shown rid).1 ⟨row, hrow, hrid⟩
      obtain rfl := Option.some_inj.1 (hmark.symm.trans hmark')
      have hcycle := (h.paced.current hrun hr.version).2
      rw [hstep]
      exact hr.spares h.snapped hmark (by omega)
  · by_cases hreconciles : ∃ run, a = .reconcile run
    · obtain ⟨run, rfl⟩ := hreconciles
      rcases step_reconcile (x := x) (p := p) (w := w) run with ⟨hstore, -⟩ | ⟨state, store', hrun, hreconcile, hstep⟩
      · rw [hstore, hmark] at hgone
        cases hgone
      · rw [hstep] at hgone ⊢
        exact ((reconcile_spec hreconcile h.snapped.held.distinct).released h.snapped hmark hgone).2
    · obtain ⟨mark', hmark'⟩ := marks_step (x := x) (p := p) a (fun run heq => hreconciles ⟨run, heq⟩) hmark
      rw [hgone] at hmark'
      cases hmark'
  · rintro run rfl hbefore hafter
    rcases step_reconcile (x := x) (p := p) (w := w) run with ⟨hstore, -⟩ | ⟨state, store', hrun, hreconcile, hstep⟩
    · rw [World.phase, hstore, ← World.phase, hbefore] at hafter
      cases hafter
    · have hr := reconcile_spec hreconcile h.snapped.held.distinct
      obtain ⟨records, -, hpieces⟩ := Option.bind_eq_some_iff.1 hreconcile
      obtain ⟨hversion, -, hstates⟩ := statePieces_states hpieces
      obtain ⟨-, hcycle⟩ := h.paced.current hrun hversion
      obtain ⟨-, hcycle', hphase⟩ := h.paced.settle hrun
        { state with phase := if (overdue w.store p state.cycle).length = PAGE_ROWS then .reconcile else .read } w.shown
        (w.taken.filter fun e => e.1 ∉ (overdue w.store p state.cycle).map Prod.fst) hversion hstates
      refine (h.step (.reconcile run)).snapped.exact fun rid mark hmark hlt => ?_
      rw [hstep] at hafter hmark hlt
      -- the statement took less than a full page, so nothing overdue is left
      have hall : (overdue w.store p state.cycle).length ≠ PAGE_ROWS := by
        intro hfull
        rw [hphase, if_pos hfull] at hafter
        cases hafter
      obtain ⟨hleft, hmark'⟩ := hr.left hmark
      rw [hcycle'] at hlt
      exact hleft (List.mem_map.2 ⟨(rid, mark), overdue_all hall (mem_of_lookup hmark')
        (h.snapped.partition rid mark hmark') hlt, rfl⟩)

/-- In every run of a partition, whatever its runs read, race and crash at, a state version is committed once, the
reconciliation deletes no record of a remote row delivered since the snapshot began, and when it is over the mapped
records are exactly those of the rows delivered since then whose newest row is no deletion. -/
theorem run_snapshots (x : Session) (p : String) (records : List (String × Fields))
    (hfresh : ∀ rid, records.lookup (x.stableId rid) = none) (before : List Step) (a : Step) :
    Snapshots x p (run x p (.init records) before) a := by
  have hinit : Sound x p (.init records) := by
    refine ⟨⟨⟨List.nodup_nil, fun rid hrid => ?_, fun rid mark hmark => ?_, fun _ _ => rfl⟩, List.nodup_nil,
      fun rid mark hmark => ?_, fun rid mark hmark => ?_, fun rid => ?_⟩, ⟨?_, ?_, List.Pairwise.nil, ?_⟩⟩
    · rw [show (World.init records).store.records = records from rfl, hfresh rid] at hrid
      cases hrid
    · cases hmark
    · cases hmark
    · cases hmark
    · refine iff_of_false ?_ ?_
      · rintro ⟨row, hrow, -⟩
        cases hrow
      · rintro ⟨mark, hmark, -⟩
        cases hmark
    · exact fun state hstate => absurd hstate List.not_mem_nil
    · exact fun state hstate => absurd hstate List.not_mem_nil
    · exact fun v hv => absurd hv List.not_mem_nil
  have hstep : ∀ w a, Sound x p w → Sound x p (step x p w a) := fun w a h => h.step a
  exact (invariant_run hstep hinit before).snapshots a

/-- A sync of a model without a key, whose records have the remote ids for ids. -/
def plain : Session :=
  ⟨[], none, "crm", fun rid => rid, remoteVersionNewer fun _ => none, fun _ _ => false⟩

def remoteRow (id version : String) (deleted : Bool) : Row := ⟨some id, some version, deleted, []⟩

/-- A snapshot without a remote row that an earlier one had. -/
def secondSnapshot : List Step :=
  [.start "d", .page 0 ⟨[remoteRow "r" "1" false, remoteRow "q" "1" false], some "1", none⟩,
    .page 0 ⟨[remoteRow "q" "1" false], some "2", some .opens⟩, .page 0 ⟨[], some "3", some .closes⟩]

/-- The record of the missing row is deleted. -/
theorem secondSnapshot_exact :
    (∀ rid, ([] : List (String × Fields)).lookup (plain.stableId rid) = none) ∧
      (step plain "" (run plain "" (.init []) secondSnapshot) (.reconcile 0)).store.records = [("q", [])] ∧
      Snapshots plain "" (run plain "" (.init []) secondSnapshot) (.reconcile 0) :=
  ⟨fun _ => rfl, by decide, run_snapshots plain "" [] (fun _ => rfl) secondSnapshot (.reconcile 0)⟩

/-- A snapshot that delivers an older version of a row that was deleted. -/
def olderSnapshot : List Step :=
  [.start "d", .page 0 ⟨[remoteRow "r" "6" true], some "1", none⟩,
    .page 0 ⟨[remoteRow "r" "5" false], some "2", some .opens⟩, .page 0 ⟨[], some "3", some .closes⟩]

/-- The row is delivered undeleted since the snapshot began and stays deleted: an older version never overwrites a
newer one. -/
theorem olderSnapshot_unmapped : ¬ ∀ (x : Session) (p : String) (records : List (String × Fields)),
    (∀ rid, records.lookup (x.stableId rid) = none) → ∀ (before : List Step) (i : Nat),
    (run x p (.init records) before).phase p = some .reconcile →
    (run x p (.init records) (before ++ [Step.reconcile i])).phase p = some .read →
    ∀ rid, Mapped (run x p (.init records) (before ++ [Step.reconcile i])) rid ↔
      ∃ row ∈ (run x p (.init records) (before ++ [Step.reconcile i])).shown, x.rid row = some rid ∧ row.deleted = false := by
  intro hall
  have h := hall plain "" [] (fun _ => rfl) olderSnapshot 0 (by decide) (by decide) "r"
  obtain ⟨mark, fields, -, hrecord⟩ := h.2 ⟨remoteRow "r" "5" false, by decide, rfl, rfl⟩
  have hempty : (run plain "" (.init []) (olderSnapshot ++ [Step.reconcile 0])).store.records = [] := by decide
  rw [hempty] at hrecord
  cases hrecord

end Norbital.Bolt.Sync

import Mathlib.Algebra.GroupWithZero.Nat
import Mathlib.Data.List.TakeDrop
import Norbital.Lib.Postorder
import Norbital.Lib.Runs

/-!
# Restoring a seed pack

A restore goes in bounded steps (`restorer`, `bolt/src/engine/write/seed.ts`): each step reads rows of
one model from where the last ended, until they fill a chunk, and inserts them in one transaction, those
with the same keys together; the last step derives the roll-ups and raises the counters.  A step that
fails leaves its place, and may be called again, also where its transaction was done and only the
answer was lost.

What decodes a row, its cells, their keys and their text's length, the roll-up values it was given and
the counters read off it are the parameter `Pack`, as are the relationships between the models.
-/

namespace Norbital.Bolt.Seed

/-- The most characters of cells one statement carries. -/
def CHUNK : Nat := 1024 * 1024

/-- A seed's models and rows, and how the manifest reads them. -/
structure Pack (Row Cell Id Key Value : Type) where
  models : List String
  rows : String → List Row
  /-- The relationships of a model, each with the models it may name. -/
  targets : String → List String
  /-- A row's cell; `none` where the row is refused. -/
  decode : String → Row → Option Cell
  id : Cell → Id
  size : Cell → Nat
  /-- The keys of a cell, sorted and joined. -/
  shape : Cell → String
  /-- The derived fields a row gives a value for. -/
  given : String → Row → List (String × Value)
  counts : String → Row → List (Key × Nat)

variable {Row Cell Id Key Value : Type} (p : Pack Row Cell Id Key Value)

/-- The other models of the pack that a model's relationships name. -/
def Pack.refs (c : String) : List String := (p.targets c).filter fun t => t ≠ c ∧ t ∈ p.models

/-- Relationship order: a model after every other model of the pack its relationships name.  The walk
goes no deeper than there are models. -/
def Pack.topological : List String := Lib.postorder p.refs (p.models.length + 1) p.models

/-- The rows taken while they fit after `used` characters (`taken`: whether any was), with their cells,
and whether a row was left for want of room. -/
def Pack.fill (c : String) : List Row → Nat → Bool → Option (List (Row × Cell) × Bool)
  | [], _, _ => some ([], false)
  | row :: rest, used, taken =>
    match p.decode c row with
    | none => none
    | some cell =>
      if CHUNK < used + p.size cell ∧ taken = true then some ([], true)
      else (Pack.fill c rest (used + p.size cell) true).map fun (chunk, full) => ((row, cell) :: chunk, full)

/-- The rows of `c` from row `start`, as one statement takes them. -/
def Pack.chunkOf (c : String) (start : Nat) : Option (List (Row × Cell) × Bool) :=
  p.fill c ((p.rows c).drop start) 0 false

/-- A given roll-up value: its model and field, the row's id, the value, and the row's place. -/
structure Given (Id Value : Type) where
  model : String
  field : String
  id : Id
  value : Value
  place : Nat
  deriving DecidableEq, Repr

/-- What a chunk adds to the given values, its first row being row `start`. -/
def Pack.givenOf (c : String) (start : Nat) (chunk : List (Row × Cell)) : List (Given Id Value) :=
  (chunk.zipIdx start).flatMap fun ((row, cell), place) =>
    (p.given c row).map fun (field, value) => ⟨c, field, p.id cell, value, place⟩

/-- A counter raised to the highest value read. -/
def raise [DecidableEq Key] (counters : Key → Nat) (read : List (Key × Nat)) : Key → Nat :=
  read.foldl (fun counters (key, n) => if counters key < n then Function.update counters key n else counters) counters

def Pack.countsOf (c : String) (chunk : List (Row × Cell)) : List (Key × Nat) :=
  chunk.flatMap fun (row, _) => p.counts c row

/-- The tables and the stored counters, and the restorer's own memory. -/
structure State (Cell Id Key Value : Type) where
  tables : String → List Cell
  stored : Key → Nat
  next : Nat
  start : Nat
  given : List (Given Id Value)
  counters : Key → Nat

/-- A restore into tables and counters as they stand. -/
def init (tables : String → List Cell) (stored : Key → Nat) : State Cell Id Key Value :=
  ⟨tables, stored, 0, 0, [], fun _ => 0⟩

/-- The counters a last step stores: none is lowered. -/
def State.greatest (s : State Cell Id Key Value) : Key → Nat := fun key => max (s.stored key) (s.counters key)

/-- `INSERT … ON CONFLICT (id) DO NOTHING`. -/
def Pack.ins [DecidableEq Id] (table list : List Cell) : List Cell :=
  list.foldl (fun table cell => if p.id cell ∈ table.map p.id then table else table ++ [cell]) table

/-- The cells of each shape, the shapes as they come up. -/
def Pack.lists (chunk : List Cell) : List (List Cell) :=
  (chunk.map p.shape).eraseDups.map fun k => chunk.filter fun cell => p.shape cell = k

/-- A chunk's statement. -/
def Pack.insert [DecidableEq Id] (table chunk : List Cell) : List Cell := (p.lists chunk).foldl p.ins table

/-- How a step's transaction ends: not done, done but not heard of, or done. -/
inductive Fate where
  | refused
  | lost
  | done
  deriving DecidableEq, Repr

def Pack.step [DecidableEq Id] [DecidableEq Key] (s : State Cell Id Key Value) (fate : Fate) : State Cell Id Key Value :=
  if p.topological.length < s.next then s
  else match p.topological[s.next]? with
    -- after the last model: the roll-ups and the counters
    | none => match fate with
      | .refused => s
      | .lost => { s with stored := s.greatest }
      | .done => { s with stored := s.greatest, next := s.next + 1 }
    | some c => match p.chunkOf c s.start with
      | none => s
      | some (chunk, full) =>
        -- nothing is sent for an empty chunk
        let fate := if chunk.isEmpty then .done else fate
        let inserted := Function.update s.tables c (p.insert (s.tables c) (chunk.map (·.2)))
        match fate with
        | .refused => s
        | .lost => { s with tables := inserted }
        | .done =>
          { s with
            tables := inserted
            next := if full then s.next else s.next + 1
            start := if full then s.start + chunk.length else 0
            given := s.given ++ p.givenOf c s.start chunk
            counters := raise s.counters (p.countsOf c chunk) }

def Pack.run [DecidableEq Id] [DecidableEq Key] (tables : String → List Cell) (stored : Key → Nat) (fates : List Fate) :
    State Cell Id Key Value :=
  fates.foldl p.step (init tables stored)

theorem mem_models_of_refs {c t : String} (h : t ∈ p.refs c) : t ∈ p.models :=
  (of_decide_eq_true (List.mem_filter.mp h).2).2

theorem mem_topological {c : String} : c ∈ p.topological ↔ c ∈ p.models := by
  constructor
  · exact fun h => Lib.postorder_subset (fun _ _ _ ht => mem_models_of_refs p ht) (fun _ h => h) h
  · exact Lib.mem_postorder p.refs (Nat.succ_pos _)

theorem nodup_topological : p.topological.Nodup := Lib.nodup_postorder ..

/-- Where the references lead from no model back to itself, a model comes after the models it names. -/
theorem closed_topological (hacyclic : Lib.Acyclic p.refs) : Lib.Closed p.refs p.topological :=
  Lib.closed_postorder (fun _ _ _ ht => mem_models_of_refs p ht) hacyclic (fun _ h => h) (Nat.lt_succ_self _)

def total (chunk : List (Row × Cell)) : Nat := (chunk.map fun x => p.size x.2).sum

/-- A chunk is the first rows that fit, decoded: what is left out starts with a row that did not fit. -/
structure Pack.Filled (c : String) (rows : List Row) (used : Nat) (chunk : List (Row × Cell)) (full : Bool) : Prop where
  cells : ∀ x ∈ chunk, p.decode c x.1 = some x.2
  rest : ∃ rest, rows = chunk.map (·.1) ++ rest ∧ (full = false → rest = []) ∧
    (full = true → ∃ row cell after, rest = row :: after ∧ p.decode c row = some cell ∧ CHUNK < used + total p chunk + p.size cell)

theorem fill_cons (c : String) (row : Row) (rest : List Row) (used : Nat) (taken : Bool) :
    p.fill c (row :: rest) used taken =
      match p.decode c row with
      | none => none
      | some cell =>
        if CHUNK < used + p.size cell ∧ taken = true then some ([], true)
        else (p.fill c rest (used + p.size cell) true).map fun (chunk, full) => ((row, cell) :: chunk, full) :=
  rfl

theorem fill_filled {c : String} {rows : List Row} {used : Nat} {taken full : Bool} {chunk : List (Row × Cell)}
    (h : p.fill c rows used taken = some (chunk, full)) : p.Filled c rows used chunk full := by
  induction rows generalizing used taken chunk with
  | nil =>
    cases h
    exact ⟨fun _ hx => (nomatch hx), [], rfl, fun _ => rfl, fun hf => (nomatch hf)⟩
  | cons row rest ih =>
    rw [fill_cons] at h
    cases hcell : p.decode c row with
    | none => rw [hcell] at h; cases h
    | some cell =>
      simp only [hcell] at h
      split at h
      next hroom =>
        cases h
        have hlt : CHUNK < used + total p ([] : List (Row × Cell)) + p.size cell := by simpa [total] using hroom.1
        exact ⟨fun _ hx => (nomatch hx), row :: rest, rfl, fun hf => (nomatch hf), fun _ => ⟨row, cell, rest, rfl, hcell, hlt⟩⟩
      next =>
        rw [Option.map_eq_some_iff] at h
        obtain ⟨⟨more, full'⟩, hmore, heq⟩ := h
        cases heq
        obtain ⟨hcells, left, rfl, hempty, hleft⟩ := ih hmore
        refine ⟨?_, left, rfl, hempty, fun hf => ?_⟩
        · intro x hx
          obtain rfl | hx := List.mem_cons.mp hx
          · exact hcell
          · exact hcells x hx
        · obtain ⟨row', cell', after, hrest, hcell', hlt⟩ := hleft hf
          refine ⟨row', cell', after, hrest, hcell', ?_⟩
          simpa [total, Nat.add_assoc] using hlt

/-- After a row, the chunk stays within the limit. -/
theorem fill_bound {c : String} {rows : List Row} {used : Nat} {full : Bool} {chunk : List (Row × Cell)}
    (h : p.fill c rows used true = some (chunk, full)) : chunk = [] ∨ used + total p chunk ≤ CHUNK := by
  induction rows generalizing used chunk with
  | nil => cases h; exact Or.inl rfl
  | cons row rest ih =>
    rw [fill_cons] at h
    cases hcell : p.decode c row with
    | none => rw [hcell] at h; cases h
    | some cell =>
      simp only [hcell, and_true] at h
      split at h
      next => cases h; exact Or.inl rfl
      next hroom =>
        rw [Option.map_eq_some_iff] at h
        obtain ⟨⟨more, full'⟩, hmore, heq⟩ := h
        cases heq
        right
        obtain rfl | hle := ih hmore
        · simpa [total] using hroom
        · simpa [total, Nat.add_assoc] using hle

/--
A statement carries at most 1 MiB of cells, or a single row; it takes the model's rows in order from
where it starts, each decoded, and leaves one only where there are no rows left or the next would not fit.
-/
theorem chunkOf_spec {c : String} {start : Nat} {chunk : List (Row × Cell)} {full : Bool}
    (h : p.chunkOf c start = some (chunk, full)) :
    p.Filled c ((p.rows c).drop start) 0 chunk full ∧ (total p chunk ≤ CHUNK ∨ chunk.length = 1) ∧
    (chunk = [] → (p.rows c).length ≤ start) := by
  have hfilled := fill_filled p h
  refine ⟨hfilled, ?_, ?_⟩
  · delta Pack.chunkOf at h
    cases hrows : (p.rows c).drop start with
    | nil => rw [hrows] at h; cases h; exact Or.inl (Nat.zero_le _)
    | cons row rest =>
      rw [hrows] at h
      rw [fill_cons] at h
      cases hcell : p.decode c row with
      | none => rw [hcell] at h; cases h
      | some cell =>
        simp only [hcell, Bool.false_eq_true, and_false, if_false, Option.map_eq_some_iff] at h
        obtain ⟨⟨more, full'⟩, hmore, heq⟩ := h
        cases heq
        obtain rfl | hle := fill_bound p hmore
        · exact Or.inr rfl
        · exact Or.inl (by simpa [total] using hle)
  · rintro rfl
    obtain ⟨rest, hrest, hempty, hfull⟩ := hfilled.rest
    cases full with
    | false => rw [hempty rfl] at hrest; exact List.drop_eq_nil_iff.mp hrest
    | true =>
      delta Pack.chunkOf at h
      cases hrows : (p.rows c).drop start with
      | nil => exact List.drop_eq_nil_iff.mp hrows
      | cons row rest =>
        rw [hrows] at h
        rw [fill_cons] at h
        cases hcell : p.decode c row with
        | none => rw [hcell] at h; cases h
        | some cell =>
          simp only [hcell, Bool.false_eq_true, and_false, if_false, Option.map_eq_some_iff] at h
          obtain ⟨⟨more, full'⟩, -, heq⟩ := h
          cases heq

/-- A table after rows were inserted, where it had none of their id: what it held is kept, then come such rows, each id
once; and it has every row's id. -/
structure Pack.Inserted (table rows after : List Cell) : Prop where
  kept : ∃ new, after = table ++ new ∧ (new.map p.id).Nodup ∧ ∀ cell ∈ new, cell ∈ rows ∧ p.id cell ∉ table.map p.id
  all : ∀ cell ∈ rows, p.id cell ∈ after.map p.id

section

variable {p} {table rows more after later : List Cell}

theorem inserted_nil (table : List Cell) : p.Inserted table [] table :=
  ⟨⟨[], (List.append_nil table).symm, List.nodup_nil, fun _ h => (nomatch h)⟩, fun _ h => (nomatch h)⟩

theorem Pack.Inserted.congr (h : p.Inserted table rows after) (hsame : ∀ cell, cell ∈ rows ↔ cell ∈ more) :
    p.Inserted table more after := by
  obtain ⟨⟨new, heq, hnodup, hnew⟩, hall⟩ := h
  exact ⟨⟨new, heq, hnodup, fun cell hcell => ⟨(hsame cell).mp (hnew cell hcell).1, (hnew cell hcell).2⟩⟩,
    fun cell hcell => hall cell ((hsame cell).mpr hcell)⟩

/-- Rows inserted in two statements are inserted. -/
theorem Pack.Inserted.trans (h : p.Inserted table rows after) (h' : p.Inserted after more later) :
    p.Inserted table (rows ++ more) later := by
  obtain ⟨⟨new, rfl, hnodup, hnew⟩, hall⟩ := h
  obtain ⟨⟨new', rfl, hnodup', hnew'⟩, hall'⟩ := h'
  refine ⟨⟨new ++ new', List.append_assoc _ _ _, ?_, fun cell hcell => ?_⟩, fun cell hcell => ?_⟩
  · rw [List.map_append, List.nodup_append]
    refine ⟨hnodup, hnodup', fun x hx y hy heq => ?_⟩
    obtain ⟨cell, hcell, rfl⟩ := List.mem_map.mp hy
    refine (hnew' cell hcell).2 ?_
    rw [List.map_append]
    exact List.mem_append_right _ (heq ▸ hx)
  · rcases List.mem_append.mp hcell with hcell | hcell
    · exact ⟨List.mem_append_left _ (hnew cell hcell).1, (hnew cell hcell).2⟩
    · refine ⟨List.mem_append_right _ (hnew' cell hcell).1, fun hin => (hnew' cell hcell).2 ?_⟩
      rw [List.map_append]
      exact List.mem_append_left _ hin
  · rcases List.mem_append.mp hcell with hcell | hcell
    · rw [List.map_append]
      exact List.mem_append_left _ (hall cell hcell)
    · exact hall' cell hcell

/-- Rows of which no two have one id are all in, but those whose id was there. -/
theorem Pack.Inserted.perm [DecidableEq Id] (h : p.Inserted table rows after) (hnodup : (rows.map p.id).Nodup) :
    after.Perm (table ++ rows.filter fun cell => p.id cell ∉ table.map p.id) := by
  obtain ⟨⟨new, rfl, hnew, hfrom⟩, hall⟩ := h
  refine List.Perm.append_left table ((List.perm_ext_iff_of_nodup hnew.of_map ?_).mpr fun cell => ?_)
  · exact hnodup.of_map.filter _
  · rw [List.mem_filter, decide_eq_true_iff]
    refine ⟨hfrom cell, fun ⟨hcell, hnot⟩ => ?_⟩
    have hin := hall cell hcell
    rw [List.map_append, List.mem_append] at hin
    obtain ⟨other, hother, heq⟩ := List.mem_map.mp (hin.resolve_left hnot)
    rwa [← List.inj_on_of_nodup_map hnodup (hfrom other hother).1 hcell heq]

theorem mem_lists {chunk : List Cell} {cell : Cell} : cell ∈ (p.lists chunk).flatten ↔ cell ∈ chunk := by
  simp only [Pack.lists, List.mem_flatten, List.mem_map, List.mem_eraseDups]
  constructor
  · rintro ⟨-, ⟨k, -, rfl⟩, hcell⟩
    exact (List.mem_filter.mp hcell).1
  · intro hcell
    exact ⟨_, ⟨p.shape cell, ⟨cell, hcell, rfl⟩, rfl⟩, List.mem_filter.mpr ⟨hcell, decide_eq_true rfl⟩⟩

variable [DecidableEq Id]

theorem inserted_ins (table list : List Cell) : p.Inserted table list (p.ins table list) := by
  induction list generalizing table with
  | nil => exact inserted_nil table
  | cons cell list ih =>
    have hone : p.Inserted table [cell] (if p.id cell ∈ table.map p.id then table else table ++ [cell]) := by
      split_ifs with hin
      · exact ⟨⟨[], (List.append_nil table).symm, List.nodup_nil, fun _ h => (nomatch h)⟩, fun other hother =>
          List.mem_singleton.mp hother ▸ hin⟩
      · refine ⟨⟨[cell], rfl, List.nodup_singleton _, fun other hother => ⟨hother, List.mem_singleton.mp hother ▸ hin⟩⟩,
          fun other hother => ?_⟩
        rw [List.map_append]
        exact List.mem_append_right _ (List.mem_map_of_mem hother)
    exact hone.trans (ih _)

/-- A chunk's rows are inserted, whatever their shapes. -/
theorem inserted_insert (table chunk : List Cell) : p.Inserted table chunk (p.insert table chunk) := by
  have hlists : ∀ (lists : List (List Cell)) (table : List Cell), p.Inserted table lists.flatten (lists.foldl p.ins table) := by
    intro lists
    induction lists with
    | nil => exact inserted_nil
    | cons list lists ih => exact fun table => (inserted_ins table list).trans (ih _)
  exact (hlists (p.lists chunk) table).congr fun _ => mem_lists

end

/-- The cells of rows, those that are refused apart. -/
def Pack.cellsOf (c : String) (rows : List Row) : List Cell := rows.filterMap (p.decode c)

/-- Rows read again, with those that follow, are the rows up to the last of them. -/
theorem mem_cellsOf_again {c : String} {rows : List Row} {start k : Nat} (hstart : start ≤ k) (m : Nat) (cell : Cell) :
    cell ∈ p.cellsOf c (rows.take k) ++ p.cellsOf c ((rows.drop start).take m) ↔
      cell ∈ p.cellsOf c (rows.take (max k (start + m))) := by
  have hrow (row : Row) : row ∈ rows.take (max k (start + m)) ↔ row ∈ rows.take k ∨ row ∈ (rows.drop start).take m := by
    simp only [List.mem_take_iff_getElem, List.getElem_drop, List.length_drop]
    constructor
    · rintro ⟨i, hi, rfl⟩
      by_cases hk : i < k
      · exact Or.inl ⟨i, by omega, rfl⟩
      · refine Or.inr ⟨i - start, by omega, ?_⟩
        congr 1
        omega
    · rintro (⟨i, hi, rfl⟩ | ⟨i, hi, rfl⟩)
      · exact ⟨i, by omega, rfl⟩
      · exact ⟨start + i, by omega, rfl⟩
  rw [List.mem_append]
  simp only [Pack.cellsOf, List.mem_filterMap, hrow, or_and_right, exists_or]

/-- What the steps of a state have read: the rows of the models gone through, and those of the model they are at. -/
def Pack.gather {β : Type} (f : String → List Row → List β) (next start : Nat) : List β :=
  (p.topological.take next).flatMap (fun c => f c (p.rows c)) ++
    (p.topological[next]?.toList).flatMap fun c => f c ((p.rows c).take start)

/-- The values given by the rows of a model, from its first row. -/
def Pack.givenRows (c : String) (rows : List Row) : List (Given Id Value) :=
  rows.zipIdx.flatMap fun (row, place) => (p.decode c row).toList.flatMap fun cell =>
    (p.given c row).map fun (field, value) => ⟨c, field, p.id cell, value, place⟩

def Pack.countsRows (c : String) (rows : List Row) : List (Key × Nat) := rows.flatMap (p.counts c)

variable [DecidableEq Id] [DecidableEq Key] (tables : String → List Cell) (stored : Key → Nat)

/--
Of a state a run reaches: the models gone through are in, with all their rows; of the model it is at, at least the
rows before `start`; the other tables are as they were.
-/
structure Pack.Restored (s : State Cell Id Key Value) : Prop where
  done : ∀ c ∈ p.topological.take s.next,
    (∀ row ∈ p.rows c, (p.decode c row).isSome) ∧ p.Inserted (tables c) (p.cellsOf c (p.rows c)) (s.tables c)
  current : ∀ c, p.topological[s.next]? = some c →
    s.start ≤ (p.rows c).length ∧ (∀ row ∈ (p.rows c).take s.start, (p.decode c row).isSome) ∧
      ∃ k, s.start ≤ k ∧ p.Inserted (tables c) (p.cellsOf c ((p.rows c).take k)) (s.tables c)
  later : ∀ c, c ∉ p.topological.take (s.next + 1) → s.tables c = tables c
  given : s.given = p.gather p.givenRows s.next s.start
  counters : s.counters = raise (fun _ => 0) (p.gather p.countsRows s.next s.start)
  kept : s.stored = stored ∨
    p.topological.length ≤ s.next ∧ s.stored = fun key => max (stored key) (s.counters key)
  raised : p.topological.length < s.next → s.stored = fun key => max (stored key) (s.counters key)

omit [DecidableEq Id] [DecidableEq Key] in
/-- Reading a chunk adds what its rows hold. -/
theorem gather_chunk {β : Type} {f : String → List Row → List β} {part : List β} {next start : Nat} {c : String}
    (hnil : ∀ c, f c [] = []) (hc : p.topological[next]? = some c) {chunk : List (Row × Cell)} {full : Bool}
    (hfilled : p.Filled c ((p.rows c).drop start) 0 chunk full)
    (happend : f c ((p.rows c).take start ++ chunk.map (·.1)) = f c ((p.rows c).take start) ++ part) :
    p.gather f (if full then next else next + 1) (if full then start + chunk.length else 0) =
      p.gather f next start ++ part := by
  obtain ⟨rest, hrest, hempty, -⟩ := hfilled.rest
  have hrows : p.rows c = (p.rows c).take start ++ chunk.map (·.1) ++ rest := by
    rw [List.append_assoc, ← hrest, List.take_append_drop]
  cases full with
  | true =>
    have htake : (p.rows c).take (start + chunk.length) = (p.rows c).take start ++ chunk.map (·.1) := by
      rw [List.take_add, hrest, ← List.length_map (·.1), List.take_left]
    simp only [Pack.gather, if_true, hc, Option.toList_some, List.flatMap_singleton, htake, happend, List.append_assoc]
  | false =>
    have hall : p.rows c = (p.rows c).take start ++ chunk.map (·.1) := by
      conv_lhs => rw [hrows, hempty rfl, List.append_nil]
    have hnext : p.topological.take (next + 1) = p.topological.take next ++ [c] := by
      rw [List.take_add_one, hc]; rfl
    have hlast : (p.topological[next + 1]?.toList).flatMap (fun c => f c ((p.rows c).take 0)) = [] := by
      simp [hnil]
    simp only [Pack.gather, Bool.false_eq_true, if_false, hlast, List.append_nil, hnext, List.flatMap_append,
      List.flatMap_singleton, hc, Option.toList_some]
    rw [List.append_assoc, ← happend, ← hall]

omit [DecidableEq Id] [DecidableEq Key] in
/-- The cells of a chunk are those of its rows. -/
theorem Pack.Filled.cellsOf_eq {c : String} {rows : List Row} {used : Nat} {chunk : List (Row × Cell)} {full : Bool}
    (h : p.Filled c rows used chunk full) : p.cellsOf c (chunk.map (·.1)) = chunk.map (·.2) := by
  have hcells := h.cells
  clear h
  induction chunk with
  | nil => rfl
  | cons x chunk ih =>
    rw [List.map_cons, Pack.cellsOf, List.filterMap_cons_some (hcells x List.mem_cons_self), List.map_cons, ← Pack.cellsOf,
      ih fun y hy => hcells y (List.mem_cons_of_mem x hy)]

omit [DecidableEq Id] [DecidableEq Key] in
theorem Pack.Filled.givenRows_append {c : String} {start : Nat} {chunk : List (Row × Cell)} {full : Bool}
    (h : p.Filled c ((p.rows c).drop start) 0 chunk full) (hstart : start ≤ (p.rows c).length) :
    p.givenRows c ((p.rows c).take start ++ chunk.map (·.1)) =
      p.givenRows c ((p.rows c).take start) ++ p.givenOf c start chunk := by
  have hcells := h.cells
  clear h
  have hpart : ∀ (chunk : List (Row × Cell)) (start : Nat), (∀ x ∈ chunk, p.decode c x.1 = some x.2) →
      (((chunk.map (·.1)).zipIdx start).flatMap fun (row, place) => (p.decode c row).toList.flatMap fun cell =>
        (p.given c row).map fun (field, value) => (⟨c, field, p.id cell, value, place⟩ : Given Id Value)) =
      p.givenOf c start chunk := by
    intro chunk
    induction chunk with
    | nil => exact fun _ _ => rfl
    | cons x chunk ih =>
      intro start hcells
      have hx := hcells x List.mem_cons_self
      simp only [List.map_cons, List.zipIdx_cons, List.flatMap_cons, hx, Option.toList_some, List.flatMap_nil,
        List.append_nil, Pack.givenOf]
      exact congrArg _ (ih (start + 1) fun y hy => hcells y (List.mem_cons_of_mem x hy))
  rw [Pack.givenRows, List.zipIdx_append, List.flatMap_append, List.length_take, Nat.min_eq_left hstart, Nat.zero_add,
    hpart chunk start hcells]
  rfl

/-- What a step can do: nothing, the last step's counters, or a chunk. -/
theorem step_cases (s : State Cell Id Key Value) (fate : Fate) :
    p.step s fate = s ∨
    (s.next = p.topological.length ∧ ∃ last, (last = s.next ∨ last = s.next + 1) ∧
      p.step s fate = { s with stored := s.greatest, next := last }) ∨
    ∃ c chunk full, p.topological[s.next]? = some c ∧ p.chunkOf c s.start = some (chunk, full) ∧
      (p.step s fate =
          { s with tables := Function.update s.tables c (p.insert (s.tables c) (chunk.map (·.2))) } ∨
        p.step s fate =
          { s with
            tables := Function.update s.tables c (p.insert (s.tables c) (chunk.map (·.2)))
            next := if full then s.next else s.next + 1
            start := if full then s.start + chunk.length else 0
            given := s.given ++ p.givenOf c s.start chunk
            counters := raise s.counters (p.countsOf c chunk) }) := by
  delta Pack.step
  split
  next => exact Or.inl rfl
  next hmore =>
    split
    next hnone =>
      have hlast : s.next = p.topological.length := Nat.le_antisymm (Nat.not_lt.mp hmore) (List.getElem?_eq_none_iff.mp hnone)
      cases fate with
      | refused => exact Or.inl rfl
      | lost => exact Or.inr (Or.inl ⟨hlast, s.next, Or.inl rfl, rfl⟩)
      | done => exact Or.inr (Or.inl ⟨hlast, s.next + 1, Or.inr rfl, rfl⟩)
    next c hc =>
      split
      next => exact Or.inl rfl
      next chunk full hchunk =>
        dsimp only
        split
        next => exact Or.inl rfl
        next => exact Or.inr (Or.inr ⟨c, chunk, full, hc, hchunk, Or.inl rfl⟩)
        next => exact Or.inr (Or.inr ⟨c, chunk, full, hc, hchunk, Or.inr rfl⟩)

omit [DecidableEq Id] in
theorem restored_init : p.Restored tables stored (init tables stored) := by
  have hcurrent (β : Type) (f : String → List Row → List β) (hnil : ∀ c, f c [] = []) : p.gather f 0 0 = [] := by
    simp [Pack.gather, hnil]
  refine ⟨fun c hc => (nomatch hc), fun c hc => ⟨Nat.zero_le _, fun row hrow => (nomatch hrow), 0, Nat.le_refl 0, ?_⟩, ?_, ?_, ?_, Or.inl rfl, ?_⟩
  · rw [List.take_zero]; exact inserted_nil _
  · exact fun _ _ => rfl
  · exact (hcurrent _ _ fun _ => rfl).symm
  · exact congrArg (raise _) (hcurrent _ p.countsRows fun _ => rfl).symm
  · exact fun h => (Nat.not_lt_zero _ h).elim

variable {tables : String → List Cell} {stored : Key → Nat}

/-- A chunk that is in, heard of or not, leaves its rows after those that are in already. -/
theorem Pack.Restored.current_insert {s : State Cell Id Key Value} (h : p.Restored tables stored s) {c : String}
    (hc : p.topological[s.next]? = some c) {chunk : List (Row × Cell)} {full : Bool}
    (hchunk : p.chunkOf c s.start = some (chunk, full)) :
    ∃ k, s.start + chunk.length ≤ k ∧
      p.Inserted (tables c) (p.cellsOf c ((p.rows c).take k)) (p.insert (s.tables c) (chunk.map (·.2))) := by
  obtain ⟨hstart, -, k, hk, htable⟩ := h.current c hc
  obtain hfilled := fill_filled p hchunk
  obtain ⟨rest, hrest, -, -⟩ := hfilled.rest
  have hrows : chunk.map (·.1) = ((p.rows c).drop s.start).take chunk.length := by
    rw [hrest, ← List.length_map (·.1), List.take_left]
  refine ⟨max k (s.start + chunk.length), Nat.le_max_right _ _, ?_⟩
  rw [← hfilled.cellsOf_eq, hrows]
  exact (htable.trans (inserted_insert _ _)).congr (mem_cellsOf_again p hk chunk.length)

omit [DecidableEq Id] [DecidableEq Key] in
/-- The model a state is at is not among those gone through. -/
theorem not_mem_take {next : Nat} {c : String} (hc : p.topological[next]? = some c) : c ∉ p.topological.take next := by
  intro hmem
  obtain ⟨i, hi, hget⟩ := List.mem_take_iff_getElem.mp hmem
  obtain ⟨hnext, hlast⟩ := List.getElem?_eq_some_iff.mp hc
  have := (nodup_topological p).getElem_inj_iff.mp (hget.trans hlast.symm)
  omega

theorem raise_append (counters : Key → Nat) (a b : List (Key × Nat)) : raise counters (a ++ b) = raise (raise counters a) b :=
  List.foldl_append

/-- Every step keeps what a run has restored. -/
theorem Pack.Restored.step {s : State Cell Id Key Value} (h : p.Restored tables stored s) (fate : Fate) : p.Restored tables stored (p.step s fate) := by
  obtain heq | ⟨hlast, last, hwhich, heq⟩ | ⟨c, chunk, full, hc, hchunk, heq⟩ := step_cases p s fate
  · rw [heq]; exact h
  · have hnone (next : Nat) (hle : s.next ≤ next) : p.topological[next]? = none := List.getElem?_eq_none_iff.mpr (hlast ▸ hle)
    have htake (next : Nat) (hle : s.next ≤ next) : p.topological.take next = p.topological.take s.next := by
      rw [List.take_of_length_le (hlast ▸ hle), List.take_of_length_le (Nat.le_of_eq hlast.symm)]
    have hle : s.next ≤ last := by omega
    have hgather (β : Type) (f : String → List Row → List β) : p.gather f last s.start = p.gather f s.next s.start := by
      rw [Pack.gather, Pack.gather, htake last hle, hnone last hle, hnone s.next (Nat.le_refl _)]
    rw [heq]
    have hraised : s.greatest = fun key => max (stored key) (s.counters key) := by
      funext key
      rw [State.greatest]
      obtain hkept | ⟨-, hkept⟩ := h.kept
      · rw [hkept]
      · rw [hkept, Nat.max_assoc, Nat.max_self]
    refine ⟨?_, ?_, ?_, ?_, ?_, Or.inr ⟨Nat.le_trans (Nat.le_of_eq hlast.symm) hle, hraised⟩, fun _ => hraised⟩
    · intro c hc
      rw [show p.topological.take last = p.topological.take s.next from htake last hle] at hc
      exact h.done c hc
    · intro c hc
      rw [show p.topological[last]? = none from hnone last hle] at hc
      cases hc
    · intro c hc
      rw [show p.topological.take (last + 1) = p.topological.take (s.next + 1) by
        rw [htake (last + 1) (by omega), htake (s.next + 1) (by omega)]] at hc
      exact h.later c hc
    · exact h.given.trans (hgather _ _).symm
    · exact h.counters.trans (congrArg _ (hgather _ _).symm)
  · have hnot := not_mem_take p hc
    have hlt : s.next < p.topological.length := (List.getElem?_eq_some_iff.mp hc).1
    have htake : p.topological.take (s.next + 1) = p.topological.take s.next ++ [c] := by
      rw [List.take_add_one, hc]; rfl
    have hfilled := fill_filled p hchunk
    obtain ⟨rest, hrest, hempty, -⟩ := hfilled.rest
    obtain ⟨k, hk, htable⟩ := h.current_insert p hc hchunk
    obtain ⟨hstart, hdecoded, -⟩ := h.current c hc
    have hlength : s.start + chunk.length ≤ (p.rows c).length := by
      have := congrArg List.length hrest
      rw [List.length_drop, List.length_append, List.length_map] at this
      omega
    have hread : (p.rows c).take (s.start + chunk.length) = (p.rows c).take s.start ++ chunk.map (·.1) := by
      rw [List.take_add, hrest, ← List.length_map (·.1), List.take_left]
    have hdecoded' : ∀ row ∈ (p.rows c).take (s.start + chunk.length), (p.decode c row).isSome := by
      intro row hrow
      rw [hread, List.mem_append] at hrow
      obtain hrow | hrow := hrow
      · exact hdecoded row hrow
      · obtain ⟨x, hx, rfl⟩ := List.mem_map.mp hrow
        rw [hfilled.cells x hx]; rfl
    -- the models before and after the one the step is at keep their tables
    have hothers (d : String) (hd : d ≠ c) :
        Function.update s.tables c (p.insert (s.tables c) (chunk.map (·.2))) d = s.tables d := Function.update_of_ne hd _ _
    have hdone : ∀ d ∈ p.topological.take s.next, (∀ row ∈ p.rows d, (p.decode d row).isSome) ∧
        p.Inserted (tables d) (p.cellsOf d (p.rows d))
          (Function.update s.tables c (p.insert (s.tables c) (chunk.map (·.2))) d) := by
      intro d hd
      rw [hothers d (fun heq => hnot (heq ▸ hd))]
      exact h.done d hd
    have hlater : ∀ d, d ∉ p.topological.take (s.next + 1) →
        Function.update s.tables c (p.insert (s.tables c) (chunk.map (·.2))) d = tables d := by
      intro d hd
      rw [hothers d fun heq => hd (by rw [heq, htake]; exact List.mem_append_right _ List.mem_cons_self)]
      exact h.later d hd
    have hself : p.Inserted (tables c) (p.cellsOf c ((p.rows c).take k))
        (Function.update s.tables c (p.insert (s.tables c) (chunk.map (·.2))) c) := by
      rw [Function.update_self]
      exact htable
    obtain heq | heq := heq
    · rw [heq]
      refine ⟨hdone, fun d hd => ?_, hlater, h.given, h.counters, h.kept, h.raised⟩
      obtain rfl := Option.some.inj (hc.symm.trans hd)
      exact ⟨hstart, hdecoded, k, Nat.le_trans (Nat.le_add_right _ _) hk, hself⟩
    · rw [heq]
      refine ⟨?_, ?_, ?_, ?_, ?_, Or.inl (h.kept.resolve_right fun hat => Nat.not_le.mpr hlt hat.1), fun hmore => ?_⟩
      · cases full with
        | true => exact hdone
        | false =>
          intro d hd
          rw [show p.topological.take (if false = true then s.next else s.next + 1) = p.topological.take s.next ++ [c] from
            htake, List.mem_append, List.mem_singleton] at hd
          obtain hd | rfl := hd
          · exact hdone d hd
          · have hall : (p.rows d).length ≤ s.start + chunk.length := by
              have := congrArg List.length hrest
              rw [hempty rfl, List.append_nil, List.length_drop, List.length_map] at this
              omega
            rw [List.take_of_length_le hall] at hdecoded'
            rw [List.take_of_length_le (Nat.le_trans hall hk)] at hself
            exact ⟨hdecoded', hself⟩
      · intro d hd
        cases full with
        | true =>
          obtain rfl := Option.some.inj (hc.symm.trans hd)
          exact ⟨hlength, hdecoded', k, hk, hself⟩
        | false =>
          refine ⟨Nat.zero_le _, fun row hrow => (nomatch hrow), 0, Nat.le_refl 0, ?_⟩
          have hsame := hlater d (not_mem_take p hd)
          dsimp only
          rw [List.take_zero, hsame]
          exact inserted_nil _
      · intro d hd
        cases full with
        | true => exact hlater d hd
        | false =>
          refine hlater d fun hmem => hd ?_
          exact (List.take_prefix_take_left (Nat.le_succ _)).subset hmem
      · refine (congrArg (· ++ _) h.given).trans (gather_chunk p (fun _ => rfl) hc hfilled ?_).symm
        exact hfilled.givenRows_append p hstart
      · refine ((congrArg (raise · _) h.counters).trans (raise_append _ _ _).symm).trans (congrArg _ ?_)
        refine (gather_chunk p (fun _ => rfl) hc hfilled ?_).symm
        rw [Pack.countsRows, List.flatMap_append, List.flatMap_map]
        rfl
      · have hle : (if full = true then s.next else s.next + 1) ≤ s.next + 1 := by split <;> omega
        have := Nat.lt_of_lt_of_le hmore hle
        omega

variable (tables stored)

theorem restored_run (fates : List Fate) : p.Restored tables stored (p.run tables stored fates) :=
  Lib.invariant_run (fun _ fate h => h.step p fate) (restored_init p tables stored) fates

theorem raise_spec (counters : Key → Nat) (read : List (Key × Nat)) (key : Key) :
    counters key ≤ raise counters read key ∧ (∀ n, (key, n) ∈ read → n ≤ raise counters read key) ∧
      (raise counters read key = counters key ∨ (key, raise counters read key) ∈ read) := by
  induction read generalizing counters with
  | nil => exact ⟨Nat.le_refl _, fun n hn => (nomatch hn), Or.inl rfl⟩
  | cons x read ih =>
    obtain ⟨key', n⟩ := x
    rw [show raise counters ((key', n) :: read) =
      raise (if counters key' < n then Function.update counters key' n else counters) read from rfl]
    obtain ⟨hgrows, hbound, hread⟩ := ih (if counters key' < n then Function.update counters key' n else counters)
    have hfirst : counters key ≤ (if counters key' < n then Function.update counters key' n else counters) key ∧
        (key' = key → n ≤ (if counters key' < n then Function.update counters key' n else counters) key) ∧
        ((if counters key' < n then Function.update counters key' n else counters) key = counters key ∨
          key' = key ∧ (if counters key' < n then Function.update counters key' n else counters) key = n) := by
      by_cases hkey : key' = key
      · subst hkey
        split_ifs with hlt
        · rw [Function.update_self]
          exact ⟨Nat.le_of_lt hlt, fun _ => Nat.le_refl n, Or.inr ⟨rfl, rfl⟩⟩
        · exact ⟨Nat.le_refl _, fun _ => Nat.not_lt.mp hlt, Or.inl rfl⟩
      · split_ifs
        · rw [Function.update_of_ne (Ne.symm hkey)]
          exact ⟨Nat.le_refl _, fun h => (hkey h).elim, Or.inl rfl⟩
        · exact ⟨Nat.le_refl _, fun h => (hkey h).elim, Or.inl rfl⟩
    refine ⟨Nat.le_trans hfirst.1 hgrows, fun m hm => ?_, ?_⟩
    · obtain heq | hm := List.mem_cons.mp hm
      · obtain ⟨rfl, rfl⟩ := Prod.mk.inj heq
        exact Nat.le_trans (hfirst.2.1 rfl) hgrows
      · exact hbound m hm
    · obtain hsame | hmem := hread
      · rw [hsame]
        obtain hold | ⟨rfl, hnew⟩ := hfirst.2.2
        · exact Or.inl hold
        · rw [hnew]; exact Or.inr List.mem_cons_self
      · exact Or.inr (List.mem_cons_of_mem _ hmem)

/--
However its steps fared, a restore that has ended has read every row of every model, none refused, and each table
has what it held, then rows of ids that it did not have, one of each; where no two rows have one id, these are all the
rows whose id it did not have, as one statement of them all would have left it.  Other tables are as they were.  The
roll-up values given are all kept, each with its row's place, and each counter is stored at the highest value read for
it, or as it was if that was higher.
-/
theorem restored_all (fates : List Fate) (hended : p.topological.length < (p.run tables stored fates).next) :
    (∀ c ∈ p.models, (∀ row ∈ p.rows c, (p.decode c row).isSome) ∧
      p.Inserted (tables c) (p.cellsOf c (p.rows c)) ((p.run tables stored fates).tables c) ∧
      (((p.cellsOf c (p.rows c)).map p.id).Nodup → ((p.run tables stored fates).tables c).Perm
        (tables c ++ (p.cellsOf c (p.rows c)).filter fun cell => p.id cell ∉ (tables c).map p.id))) ∧
    (∀ c, c ∉ p.models → (p.run tables stored fates).tables c = tables c) ∧
    (p.run tables stored fates).given = p.topological.flatMap (fun c => p.givenRows c (p.rows c)) ∧
    ∀ key, stored key ≤ (p.run tables stored fates).stored key ∧
      (∀ c ∈ p.models, ∀ row ∈ p.rows c, ∀ n, (key, n) ∈ p.counts c row → n ≤ (p.run tables stored fates).stored key) ∧
      ((p.run tables stored fates).stored key = stored key ∨
        ∃ c ∈ p.models, ∃ row ∈ p.rows c, (key, (p.run tables stored fates).stored key) ∈ p.counts c row) := by
  have h := restored_run p tables stored fates
  have htake : p.topological.take (p.run tables stored fates).next = p.topological := List.take_of_length_le (Nat.le_of_lt hended)
  have htake' : p.topological.take ((p.run tables stored fates).next + 1) = p.topological :=
    List.take_of_length_le (Nat.le_succ_of_le (Nat.le_of_lt hended))
  have hgather (β : Type) (f : String → List Row → List β) :
      p.gather f (p.run tables stored fates).next (p.run tables stored fates).start = p.topological.flatMap fun c => f c (p.rows c) := by
    rw [Pack.gather, htake, List.getElem?_eq_none_iff.mpr (Nat.le_of_lt hended)]
    exact List.append_nil _
  refine ⟨fun c hc => ?_, fun c hc => ?_, h.given.trans (hgather _ _), fun key => ?_⟩
  · have hdone := h.done c (by rw [htake]; exact (mem_topological p).mpr hc)
    exact ⟨hdone.1, hdone.2, hdone.2.perm⟩
  · refine h.later c ?_
    rw [htake']
    exact fun hmem => hc ((mem_topological p).mp hmem)
  · have hread (n : Nat) : (key, n) ∈ p.topological.flatMap (fun c => p.countsRows c (p.rows c)) ↔
        ∃ c ∈ p.models, ∃ row ∈ p.rows c, (key, n) ∈ p.counts c row := by
      simp only [List.mem_flatMap, Pack.countsRows, mem_topological]
    obtain ⟨-, hbound, hfrom⟩ := raise_spec (fun _ => 0) (p.topological.flatMap fun c => p.countsRows c (p.rows c)) key
    rw [h.raised hended]
    dsimp only
    rw [h.counters, hgather]
    refine ⟨Nat.le_max_left _ _, fun c hc row hrow n hn => ?_, ?_⟩
    · exact Nat.le_trans (hbound n ((hread n).mpr ⟨c, hc, row, hrow, hn⟩)) (Nat.le_max_right _ _)
    · obtain hle | hlt := Nat.lt_or_ge (stored key) (raise (fun _ => 0) (p.topological.flatMap fun c => p.countsRows c (p.rows c)) key)
      · rw [Nat.max_eq_right (Nat.le_of_lt hle)]
        obtain hzero | hmem := hfrom
        · omega
        · exact Or.inr ((hread _).mp hmem)
      · exact Or.inl (Nat.max_eq_left hlt)

/-- Orders that name customers, given in the other order.  Two customers fill a chunk, and the even ones have a note. -/
def shop : Pack Nat Nat Nat String Nat where
  models := ["orders", "customers"]
  rows c := if c = "orders" then [7] else [1, 2, 3, 4]
  targets c := if c = "orders" then ["customers"] else []
  decode _ row := some row
  id := id
  size _ := 400000
  shape cell := if cell % 2 = 0 then "id,note" else "id"
  given c row := if c = "orders" then [("total", row)] else []
  counts c row := [(c, row)]

/-- A customer that was there. -/
def shopTables (c : String) : List Nat := if c = "customers" then [4] else []

theorem restored_all_shop :
    shop.topological.length <
      (shop.run shopTables (fun _ => 3) [.lost, .done, .refused, .done, .lost, .done, .done]).next ∧
    ((shop.run shopTables (fun _ => 3) [.lost, .done, .refused, .done, .lost, .done, .done]).tables "customers").Perm
      [4, 1, 2, 3] :=
  ⟨by decide, ((restored_all shop shopTables (fun _ => 3) [.lost, .done, .refused, .done, .lost, .done, .done]
    (by decide)).1 "customers" (by decide)).2.2 (by decide)⟩

/--
In every state a restore passes through, also between two steps and after a lost answer: a model that has a row
more than before has the whole of each other model it names in, unless the pack's models name each other in a circle.
-/
theorem refs_restored (hacyclic : Lib.Acyclic p.refs) (fates : List Fate) (c : String) (hrow : (p.run tables stored fates).tables c ≠ tables c)
    (t : String) (ht : t ∈ p.targets c) (hother : t ≠ c) (hmodel : t ∈ p.models) :
    (∀ row ∈ p.rows t, (p.decode t row).isSome) ∧
      p.Inserted (tables t) (p.cellsOf t (p.rows t)) ((p.run tables stored fates).tables t) := by
  have h := restored_run p tables stored fates
  have hmem : c ∈ p.topological.take ((p.run tables stored fates).next + 1) := by
    by_contra hnot
    exact hrow (h.later c hnot)
  obtain ⟨before, after, hsplit⟩ := List.append_of_mem (List.mem_of_mem_take hmem)
  have hle : before.length ≤ (p.run tables stored fates).next := by
    by_contra hlt
    rw [hsplit, List.take_append_of_le_length (by omega)] at hmem
    have hnodup := nodup_topological p
    rw [hsplit, List.nodup_append] at hnodup
    exact hnodup.2.2 c (List.mem_of_mem_take hmem) c List.mem_cons_self rfl
  refine h.done t ?_
  have hbefore : t ∈ before := closed_topological p hacyclic before c after hsplit t
    (List.mem_filter.mpr ⟨ht, decide_eq_true ⟨hother, hmodel⟩⟩)
  rw [hsplit, List.take_append]
  refine List.mem_append_left _ ?_
  rwa [List.take_of_length_le hle]

theorem refs_restored_shop :
    (shop.run shopTables (fun _ => 3) [.lost, .done, .done, .lost]).tables "orders" ≠ [] ∧
    shop.Inserted [4] [1, 2, 3, 4] ((shop.run shopTables (fun _ => 3) [.lost, .done, .done, .lost]).tables "customers") := by
  have hacyclic : Lib.Acyclic shop.refs := by
    refine Lib.acyclic_of_rank (fun c => if c = "orders" then 1 else 0) fun c t ht => ?_
    obtain ⟨hin, hnot⟩ := List.mem_filter.mp ht
    by_cases hc : c = "orders"
    · rw [if_pos hc, if_neg fun h => (of_decide_eq_true hnot).1 (h.trans hc.symm)]
      exact Nat.one_pos
    · rw [show shop.targets c = [] from if_neg hc] at hin
      cases hin
  exact ⟨by decide, (refs_restored shop shopTables (fun _ => 3) hacyclic [.lost, .done, .done, .lost] "orders" (by decide)
    "customers" (by decide) (by decide) (by decide)).2⟩

/-- The rows read and the models gone through. -/
def Pack.passed (s : State Cell Id Key Value) : Nat :=
  ((p.topological.take s.next).map fun c => (p.rows c).length + 1).sum + (p.topological[s.next]?).elim 0 fun _ => s.start

/-- All there is to read and to go through. -/
def Pack.whole : Nat := (p.topological.map fun c => (p.rows c).length + 1).sum

omit [DecidableEq Id] [DecidableEq Key] in
theorem fill_isSome {c : String} {rows : List Row} (h : ∀ row ∈ rows, (p.decode c row).isSome) (used : Nat) (taken : Bool) :
    (p.fill c rows used taken).isSome := by
  induction rows generalizing used taken with
  | nil => rfl
  | cons row rest ih =>
    obtain ⟨cell, hcell⟩ := Option.isSome_iff_exists.mp (h row List.mem_cons_self)
    rw [fill_cons]
    simp only [hcell]
    split
    · rfl
    · rw [Option.isSome_map]
      exact ih (fun row hrow => h row (List.mem_cons_of_mem _ hrow)) _ _

variable {tables stored}

/-- Where a step goes, and that it goes there or stays. -/
theorem step_of_chunk {s : State Cell Id Key Value} {c : String} (hc : p.topological[s.next]? = some c)
    {chunk : List (Row × Cell)} {full : Bool} (hchunk : p.chunkOf c s.start = some (chunk, full)) :
    (p.step s .done).next = (if full then s.next else s.next + 1) ∧
      (p.step s .done).start = (if full then s.start + chunk.length else 0) ∧
      (∀ fate, ((p.step s fate).next = s.next ∧ (p.step s fate).start = s.start) ∨
        ((p.step s fate).next = (p.step s .done).next ∧ (p.step s fate).start = (p.step s .done).start)) := by
  have hlt : s.next < p.topological.length := (List.getElem?_eq_some_iff.mp hc).1
  have hstep (fate : Fate) : p.step s fate =
      match if chunk.isEmpty then .done else fate with
      | .refused => s
      | .lost => { s with tables := Function.update s.tables c (p.insert (s.tables c) (chunk.map (·.2))) }
      | .done =>
        { s with
          tables := Function.update s.tables c (p.insert (s.tables c) (chunk.map (·.2)))
          next := if full then s.next else s.next + 1
          start := if full then s.start + chunk.length else 0
          given := s.given ++ p.givenOf c s.start chunk
          counters := raise s.counters (p.countsOf c chunk) } := by
    delta Pack.step
    rw [if_neg (by omega), hc]
    simp only [hchunk]
  have hdone : p.step s .done =
      { s with
        tables := Function.update s.tables c (p.insert (s.tables c) (chunk.map (·.2)))
        next := if full then s.next else s.next + 1
        start := if full then s.start + chunk.length else 0
        given := s.given ++ p.givenOf c s.start chunk
        counters := raise s.counters (p.countsOf c chunk) } := by
    rw [hstep, ite_self]
  refine ⟨by rw [hdone], by rw [hdone], fun fate => ?_⟩
  rw [hdone, hstep fate]
  split
  next => exact Or.inl ⟨rfl, rfl⟩
  next => exact Or.inl ⟨rfl, rfl⟩
  next => exact Or.inr ⟨rfl, rfl⟩

/-- A step of a restore that has not ended reads on if it was heard of, and never goes back. -/
theorem Pack.Restored.passed_step {s : State Cell Id Key Value} (h : p.Restored tables stored s)
    (hdecode : ∀ c ∈ p.models, ∀ row ∈ p.rows c, (p.decode c row).isSome) (fate : Fate)
    (hended : ¬ p.topological.length < (p.step s fate).next) :
    p.passed s + (if fate = .done then 1 else 0) ≤ p.passed (p.step s fate) := by
  cases hc : p.topological[s.next]? with
  | none =>
    have hle := List.getElem?_eq_none_iff.mp hc
    have hsame : fate ≠ .done ∧ (p.step s fate).next = s.next := by
      delta Pack.step at hended ⊢
      split at hended
      next hover => exact (hended hover).elim
      next hmore =>
        rw [if_neg hmore]
        simp only [hc] at hended ⊢
        cases fate with
        | refused => exact ⟨nofun, rfl⟩
        | lost => exact ⟨nofun, rfl⟩
        | done => exact (hended (Nat.lt_succ_of_le hle)).elim
    rw [if_neg hsame.1, Pack.passed, Pack.passed, hsame.2, hc]
    exact Nat.le_refl _
  | some c =>
    obtain ⟨hstart, -, -⟩ := h.current c hc
    have hmodel : c ∈ p.models := (mem_topological p).mp (List.mem_of_getElem? hc)
    obtain ⟨⟨chunk, full⟩, hchunk⟩ := Option.isSome_iff_exists.mp
      (fill_isSome p (fun row hrow => hdecode c hmodel row (List.mem_of_mem_drop hrow)) 0 false)
    obtain ⟨hnext, hfrom, hfates⟩ := step_of_chunk p hc hchunk
    obtain ⟨⟨-, rest, hrest, -, hfull⟩, -, hnil⟩ := chunkOf_spec p hchunk
    have htake : p.topological.take (s.next + 1) = p.topological.take s.next ++ [c] := by
      rw [List.take_add_one, hc]; rfl
    have hpassed : p.passed s + 1 ≤ p.passed (p.step s .done) := by
      rw [Pack.passed, Pack.passed, hnext, hfrom, hc]
      cases full with
      | true =>
        -- a full chunk leaves a row behind, so it has taken one
        have hsome : chunk.length ≠ 0 := by
          intro hzero
          rw [List.length_eq_zero_iff] at hzero
          obtain ⟨row, cell, after, rfl, -⟩ := hfull rfl
          have := congrArg List.length hrest
          rw [hzero, List.length_drop, Nat.sub_eq_zero_of_le (hnil hzero)] at this
          cases this
        rw [if_pos rfl, if_pos rfl, hc]
        simp only [Option.elim_some]
        omega
      | false =>
        rw [if_neg Bool.false_ne_true, if_neg Bool.false_ne_true, htake, List.map_append, List.sum_append,
          List.map_singleton, List.sum_singleton]
        simp only [Option.elim_some]
        omega
    obtain ⟨hn, hf⟩ | ⟨hn, hf⟩ := hfates fate
    · have hfate : fate ≠ .done := by
        rintro rfl
        rw [Pack.passed, Pack.passed, hn, hf] at hpassed
        omega
      rw [if_neg hfate, Pack.passed, Pack.passed, hn, hf]
      exact Nat.le_refl _
    · have hsame : p.passed (p.step s fate) = p.passed (p.step s .done) := by rw [Pack.passed, Pack.passed, hn, hf]
      rw [hsame]
      split <;> omega

/-- A step never goes back behind the end. -/
theorem ended_run {s : State Cell Id Key Value} (hended : p.topological.length < s.next) (fates : List Fate) :
    fates.foldl p.step s = s := by
  refine List.foldlRecOn (motive := (· = s)) fates _ rfl fun t ht fate _ => ?_
  rw [ht]
  exact if_pos hended

theorem Pack.Restored.passed_run {s : State Cell Id Key Value} (h : p.Restored tables stored s)
    (hdecode : ∀ c ∈ p.models, ∀ row ∈ p.rows c, (p.decode c row).isSome) (fates : List Fate)
    (hended : ¬ p.topological.length < (fates.foldl p.step s).next) :
    p.passed s + fates.count .done ≤ p.passed (fates.foldl p.step s) := by
  induction fates generalizing s with
  | nil => exact Nat.le_refl _
  | cons fate fates ih =>
    have hfirst : ¬ p.topological.length < (p.step s fate).next := by
      intro hover
      rw [List.foldl_cons, ended_run p hover] at hended
      exact hended hover
    have hstep := h.passed_step p hdecode fate hfirst
    have hrest := ih (h.step p fate) hended
    rw [List.foldl_cons, List.count_cons]
    simp only [beq_iff_eq]
    omega

omit [DecidableEq Id] in
theorem Pack.Restored.passed_le {s : State Cell Id Key Value} (h : p.Restored tables stored s) : p.passed s ≤ p.whole := by
  have hprefix (n : Nat) : ((p.topological.take n).map fun c => (p.rows c).length + 1).sum ≤ p.whole := by
    conv_rhs => rw [Pack.whole, ← List.take_append_drop n p.topological, List.map_append, List.sum_append]
    exact Nat.le_add_right _ _
  cases hc : p.topological[s.next]? with
  | none =>
    rw [Pack.passed, hc]
    exact hprefix s.next
  | some c =>
    have hnext := hprefix (s.next + 1)
    rw [List.take_add_one, hc, List.map_append, List.sum_append] at hnext
    obtain ⟨hstart, -, -⟩ := h.current c hc
    rw [Pack.passed, hc]
    simp only [Option.toList_some, List.map_singleton, List.sum_singleton] at hnext
    simp only [Option.elim_some]
    omega

variable (tables stored)

/--
Where no row is refused, a restore called until more of its steps are heard of than it has rows and models has ended,
whatever steps were refused or lost between them.
-/
theorem restore_ends (hdecode : ∀ c ∈ p.models, ∀ row ∈ p.rows c, (p.decode c row).isSome)
    (fates : List Fate) (hdone : p.whole < fates.count .done) : p.topological.length < (p.run tables stored fates).next := by
  by_contra hended
  have hread := (restored_init p tables stored).passed_run p hdecode fates hended
  have hle := (restored_run p tables stored fates).passed_le p
  rw [Pack.run] at hended hle
  omega

theorem restore_ends_shop : shop.topological.length <
    (shop.run shopTables (fun _ => 3) [.refused, .done, .done, .lost, .done, .done, .done, .done, .done, .done]).next :=
  restore_ends shop shopTables (fun _ => 3) (fun _ _ _ _ => rfl) _ (by decide)

end Norbital.Bolt.Seed

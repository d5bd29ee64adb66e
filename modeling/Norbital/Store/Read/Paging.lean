import Mathlib.Data.List.Dedup
import Norbital.Lib.Keyset
import Norbital.Lib.ThreeValued
import Norbital.Store.Errors

/-!
# Keyset pages

A list read (`compile` and `orderBy`, `seek` of `store/src/read/sql.ts`) and a
grouped read (`aggregate`) as statements over a table, the byte budget the
database keeps (`budgeted`), and the page an answer is cut to (`answer` of
`store/src/read/page.ts`).

What PostgreSQL is asked for is taken as a parameter `Pg`: the order of the
column values, their text and the cast of a text back to a column type.  The
opaque cursor's codec is a parameter `Codec`.
-/

namespace Norbital.Store

open Keyset ThreeValued

/-- Column values as PostgreSQL orders, prints and reads them. -/
structure Pg (V O : Type) where
  /-- The place of a value in its type's order; `=` and `<` compare it. -/
  rank : V → O
  /-- `value::text`. -/
  text : V → String
  /-- `text::pg`; `none` where the type refuses the text. -/
  cast : String → String → Option V

/-- The cursor's payload `{ h, k }` as an opaque text. -/
structure Codec where
  encodePayload : String × List (Option String) → String
  cursorPayload : String → Option (String × List (Option String))

/-- A column expression over a row: its value (`none` is `NULL`) and its type. -/
structure Column (Row V : Type) where
  expr : Row → Option V
  pg : String

/-- A sort key: a column and its direction. -/
structure SortKey (Row V : Type) extends Column Row V where
  dir : Dir

section

variable {Row V O J : Type}

/-- The key as the database's `ORDER BY` sees it: ascending puts nulls last, descending first. -/
def SortKey.toKey (pg : Pg V O) (k : SortKey Row V) : Keyset.Key Row O :=
  ⟨fun row => (k.expr row).map pg.rank, k.dir⟩

/-- The tests a seek condition is made of; a bound text is cast to its key's type. -/
inductive Test (Row V : Type) where
  | isNull (k : SortKey Row V)
  | isNotNull (k : SortKey Row V)
  | eq (k : SortKey Row V) (value : String)
  | lt (k : SortKey Row V) (value : String)
  | gtOrNull (k : SortKey Row V) (value : String)

/-- A bound text compared with a column: unknown where either is null. -/
def compared [LinearOrder O] (pg : Pg V O) (k : SortKey Row V) (row : Row) (value : String)
    (rel : O → O → Bool) : Tri := do
  let v ← k.expr row
  let w ← pg.cast k.pg value
  return rel (pg.rank v) (pg.rank w)

/-- A test as the database evaluates it. -/
def Test.eval [LinearOrder O] (pg : Pg V O) (row : Row) : Test Row V → Tri
  | .isNull k => some (k.expr row).isNone
  | .isNotNull k => some (k.expr row).isSome
  | .eq k value => compared pg k row value (· == ·)
  | .lt k value => compared pg k row value (· < ·)
  | .gtOrNull k value =>
    ThreeValued.or (compared pg k row value (fun v w => w < v)) (some (k.expr row).isNone)

/-- `values[i] ?? null`. -/
def valueAt (values : List (Option String)) (i : Nat) : Option String := (values[i]?).join

/-- The equality of one earlier key with the cursor. -/
def sameAs (k : SortKey Row V) (value : Option String) : Test Row V :=
  match value with
  | none => .isNull k
  | some value => .eq k value

/-- The last test of a branch: rows after the cursor in one key. -/
def afterKey (k : SortKey Row V) (value : Option String) : Test Row V :=
  match k.dir, value with
  | .asc, value => .gtOrNull k (value.getD "")
  | .desc, none => .isNotNull k
  | .desc, some value => .lt k value

/-- The branches of `seek`, one for each key that can be exceeded: the keys before it equal the
cursor and it comes after.  Nothing comes after a null ascending key. -/
def seek (keys : List (SortKey Row V)) (values : List (Option String)) :
    List (List (Test Row V)) :=
  keys.zipIdx.filterMap fun (k, i) =>
    let v := valueAt values i
    if k.dir = .asc ∧ v = none then none
    else some (((keys.take i).zipIdx.map fun (p, j) => sameAs p (valueAt values j)) ++ [afterKey k v])

/-- `(a AND b …) OR (…)`; `false` for no branch. -/
def seekEval [LinearOrder O] (pg : Pg V O) (branches : List (List (Test Row V))) (row : Row) : Tri :=
  any (branches.map fun tests => all (tests.map (Test.eval pg row)))

/-- The caps of a read: the rows and bytes of an `all` read, the bytes of a page. -/
structure Limits where
  all : Nat
  allBytes : Nat
  pageBytes : Nat

/-- `STORE_LIMITS`. -/
def storeLimits : Limits := ⟨50000, 8 * 1024 * 1024, 4 * 1024 * 1024⟩

/-- A limit with the cursor it starts after, or everything. -/
inductive PageIR where
  | limit (limit : Nat) (after : Option String)
  | all
  deriving DecidableEq, Repr

/-- One statement over its source rows (after `FROM … WHERE`, or `GROUP BY`): the seek condition,
the order, the `LIMIT`, the byte budget where it keeps one, and whether it counts a total. -/
structure Statement (Row V J : Type) where
  source : List Row
  seek : Option (List (List (Test Row V)))
  sort : List (SortKey Row V)
  take : Nat
  budget : Option Nat
  total : Bool
  /-- The selected columns of a row, and the bytes of its `jsonb` text with the cursor keys. -/
  item : Row → J
  size : Row → Nat

/-- How a statement's rows answer: its page limit (`none`: all), the cursor hash and the statement. -/
structure Compiled (Row V J : Type) where
  statement : Statement Row V J
  limit : Option Nat
  hash : String

/-- What leaves the database: a row with its `$k` texts, the `$over` marker or the `$total` row. -/
inductive Out (J : Type) where
  | row (item : J) (k : List (Option String))
  | over
  | total (n : Nat)

/-- The rows of the statement in their order, before the budget. -/
def Statement.rows [LinearOrder O] (pg : Pg V O) (s : Statement Row V J) : List Row :=
  let after := match s.seek with
    | none => s.source
    | some branches => s.source.filter fun row => Holds (seekEval pg branches row)
  (sorted (s.sort.map (SortKey.toKey pg)) after).take s.take

/-- `budgeted`: rows leave while the text before them fits; the first that does not becomes the
marker, and nothing follows it.  `before` is the running sum of the bytes before a row. -/
def budgeted (bytes : Nat) (size : Row → Nat) (out : Row → Out J) : Nat → List Row → List (Out J)
  | _, [] => []
  | before, row :: rows =>
    let sum := before + size row
    (if sum - size row ≤ bytes then [if sum > bytes then .over else out row] else []) ++
      budgeted bytes size out sum rows

/-- The statement as the database executes it. -/
def Statement.execute [LinearOrder O] (pg : Pg V O) (s : Statement Row V J) : List (Out J) :=
  let out := fun row => Out.row (s.item row) (s.sort.map fun k => (k.expr row).map pg.text)
  let rows := s.rows pg
  (match s.budget with
    | none => rows.map out
    | some bytes => budgeted bytes s.size out 0 rows) ++
    (if s.total then [Out.total s.source.length] else [])

/-- A page: its rows, the cursor of the next page where there is one, and the total it counted. -/
structure Page (J : Type) where
  rows : List J
  next : Option String
  total : Option Nat

def tooLarge (message : String) : StoreError := ⟨"tooLarge", "deliver", message⟩

/-- `totalOf`: the rows without the last total row, and that total. -/
def totalOf (outs : List (Out J)) : List (Out J) × Option Nat :=
  match outs.getLast? with
  | some (.total n) => (outs.dropLast, some n)
  | _ => (outs, none)

/-- A row's item and cursor keys; a marker is no row. -/
def Out.row? : Out J → Option (J × List (Option String))
  | .row item k => some (item, k)
  | _ => none

def Out.isOver : Out J → Bool
  | .over => true
  | _ => false

/-- `armsFit`: the first relation arm asked for `all` that holds too many rows, over every row. -/
def armsFit (armOver : J → Option String) (rows : List (J × List (Option String))) :
    Except StoreError Unit :=
  match rows.findSome? (fun row => armOver row.1) with
  | none => .ok ()
  | some rel => .error (tooLarge s!"relation '{rel}' holds more than 10000 rows; state a limit (rule 9)")

/-- `answer` of a compiled list or grouped read of `model`. -/
def answer (limits : Limits) (codec : Codec) (armOver : J → Option String) (model : String)
    (c : Compiled Row V J) (outs : List (Out J)) : Except StoreError (Page J) := do
  let (answered, total) := totalOf outs
  -- the row past the byte budget is a mark, and no row
  let full := answered.getLast?.any Out.isOver
  let js := (if full then answered.dropLast else answered).filterMap Out.row?
  armsFit armOver js
  match c.limit with
  | none =>
    if js.length > limits.all then
      throw (tooLarge s!"the read of {model} matches more than {limits.all} rows; page it (rule 9)")
    if full then
      throw (tooLarge s!"the read of {model} is larger than {limits.allBytes} bytes; page it (rule 9)")
    return ⟨js.map Prod.fst, none, total⟩
  | some limit =>
    if full && js.isEmpty then
      throw (tooLarge s!"a row of {model} is larger than {limits.pageBytes} bytes; select fewer fields (rule 9)")
    let more := full || js.length > limit
    let page := js.take limit
    let next := if more then page.getLast?.map fun last => codec.encodePayload (c.hash, last.2) else none
    return ⟨page.map Prod.fst, next, total⟩

/-- `decodeCursor`: the key texts of a cursor that belongs to this query. -/
def decodeCursor (codec : Codec) (cursor h : String) (n : Nat) :
    Except StoreError (List (Option String)) :=
  match codec.cursorPayload cursor with
  | some (h', k) =>
    if h' = h ∧ k.length = n then .ok k
    else .error ⟨"badCursor", "decode", "the cursor does not belong to this query (rule 11)"⟩
  | none => .error ⟨"badCursor", "decode", "the cursor does not belong to this query (rule 11)"⟩

/-- One item of a read's order; `near` where it sorts by the distance to a point. -/
structure OrderItem where
  field : String
  dir : Dir
  near : Bool
  deriving DecidableEq, Repr

/-- A list read over one model: its row filter (scope, `where` and search), its selected columns,
its order and groups by field name, and the columns those names and the primary key stand for.
`distance` is the column of a field's distance to the point it is sorted near, and `rank` a search's
relevance, the first key of a search without an order. -/
structure ListRead (Row V J : Type) where
  model : String
  filter : Row → Bool
  column : String → Column Row V
  distance : String → Column Row V
  order : List OrderItem
  firstPer : List String
  key : List String
  rank : Option (Column Row V)
  total : Bool
  item : Row → J
  size : Row → Nat
  /-- FNV-1a over the query without its page. -/
  hash : String

/-- Each group key in the direction the order gives it, then the other sort keys. -/
def ListRead.orderItems (ir : ListRead Row V J) : List OrderItem :=
  (ir.firstPer.map fun field =>
    ⟨field, ((ir.order.find? (·.field == field)).map (·.dir)).getD .asc, false⟩) ++
  ir.order.filter fun k => !ir.firstPer.contains k.field

/-- `orderBy`: the relevance of an unordered search, the sort keys, and the primary key's columns. -/
def ListRead.keys (ir : ListRead Row V J) : List (SortKey Row V) :=
  (if ir.order.isEmpty then ir.rank.toList.map (⟨·, .desc⟩) else []) ++
  ir.orderItems.map (fun k =>
    if k.near then ⟨ir.distance k.field, .asc⟩ else ⟨ir.column k.field, k.dir⟩) ++
  ir.key.map fun k => ⟨ir.column k, .asc⟩

/-- `SELECT DISTINCT ON`: of sorted rows, the first of each value of the leading keys. -/
def distinctOn [DecidableEq O] (keys : List (Keyset.Key Row O)) : List Row → List Row
  | [] => []
  | row :: rows =>
    row :: (distinctOn keys rows).filter fun other => ranks keys other != ranks keys row

/-- The rows a list read pages through: every matching row, or the first of each group. -/
def ListRead.source [LinearOrder O] (pg : Pg V O) (ir : ListRead Row V J) (table : List Row) :
    List Row :=
  let matching := table.filter ir.filter
  if ir.firstPer.isEmpty then matching
  else
    let keys := ir.keys.map (SortKey.toKey pg)
    distinctOn (keys.take ir.firstPer.length) (sorted keys matching)

/-- `seek` past the page's cursor, where it has one. -/
def seekOf (codec : Codec) (hash : String) (keys : List (SortKey Row V)) (page : PageIR) :
    Except StoreError (Option (List (List (Test Row V)))) :=
  match page with
  | .limit _ (some after) => (decodeCursor codec after hash keys.length).map fun k => some (seek keys k)
  | _ => .ok none

/-- `compile` of a list read. -/
def ListRead.compile [LinearOrder O] (limits : Limits) (pg : Pg V O) (codec : Codec)
    (ir : ListRead Row V J) (page : PageIR) (table : List Row) : Except StoreError (Compiled Row V J) := do
  let after ← seekOf codec ir.hash ir.keys page
  let limit := match page with
    | .limit limit _ => some limit
    | .all => none
  return {
    statement := {
      source := ir.source pg table
      seek := after
      sort := ir.keys
      take := (limit.map (· + 1)).getD (limits.all + 1)
      budget := some (if limit.isSome then limits.pageBytes else limits.allBytes)
      total := ir.total
      item := ir.item
      size := ir.size }
    limit := limit
    hash := ir.hash }

/-- An aggregate over one model: its row filter, its bucket columns and what it measures of the
rows of a bucket. -/
structure AggregateRead (Row V J : Type) where
  model : String
  filter : Row → Bool
  bucket : List (Column Row V)
  measure : List Row → J
  hash : String

/-- A bucket's key: its rows agree on it up to the order's equality, so its first row gives it. -/
def AggregateRead.keys (ir : AggregateRead Row V J) : List (SortKey (List Row) V) :=
  ir.bucket.map fun c => ⟨⟨fun rows => rows.head?.bind c.expr, c.pg⟩, .asc⟩

/-- `GROUP BY`: the matching rows, together where the bucket columns agree. -/
def AggregateRead.source [LinearOrder O] (pg : Pg V O) (ir : AggregateRead Row V J)
    (table : List Row) : List (List Row) :=
  let matching := table.filter ir.filter
  let keyOf := fun row => ir.bucket.map fun c => (c.expr row).map pg.rank
  (matching.map keyOf).dedup.map fun key => matching.filter fun row => keyOf row = key

/-- `aggregate` with buckets and a page: no byte budget, the cursor in `HAVING`. -/
def AggregateRead.compile [LinearOrder O] (limits : Limits) (pg : Pg V O) (codec : Codec)
    (ir : AggregateRead Row V J) (page : PageIR) (table : List Row) :
    Except StoreError (Compiled (List Row) V J) := do
  let having ← seekOf codec ir.hash ir.keys page
  let limit := match page with
    | .limit limit _ => some limit
    | .all => none
  return {
    statement := {
      source := ir.source pg table
      seek := having
      sort := ir.keys
      take := (limit.map (· + 1)).getD (limits.all + 1)
      budget := none
      total := false
      item := ir.measure
      size := fun _ => 0 }
    limit := limit
    hash := ir.hash }

/-- Reading on from a page's `next` until it is absent, with fuel for the number of pages. -/
def follow (run : PageIR → Except StoreError (Page J)) (limit : Nat) :
    Nat → Option String → Option (List (Page J))
  | 0, _ => none
  | fuel + 1, after =>
    match run (.limit limit after) with
    | .error _ => none
    | .ok page =>
      match page.next with
      | none => some [page]
      | some next => (follow run limit fuel (some next)).map (page :: ·)

/-- One page of a list read. -/
def ListRead.run [LinearOrder O] (limits : Limits) (pg : Pg V O) (codec : Codec)
    (armOver : J → Option String) (ir : ListRead Row V J) (table : List Row) (page : PageIR) :
    Except StoreError (Page J) := do
  let c ← ir.compile limits pg codec page table
  answer limits codec armOver ir.model c (c.statement.execute pg)

/-- One page of a grouped read, which selects no relation arm. -/
def AggregateRead.run [LinearOrder O] (limits : Limits) (pg : Pg V O) (codec : Codec)
    (ir : AggregateRead Row V J) (table : List Row) (page : PageIR) : Except StoreError (Page J) := do
  let c ← ir.compile limits pg codec page table
  answer limits codec (fun _ => none) ir.model c (c.statement.execute pg)

end

section

variable {Row V O J : Type} [LinearOrder O]

/-- A key's values are read back from their text up to the order's equality: the documented
round trip of PostgreSQL's text output and input. -/
def SortKey.Reads (pg : Pg V O) (k : SortKey Row V) : Prop :=
  ∀ row v, k.expr row = some v → ∃ w, pg.cast k.pg (pg.text v) = some w ∧ pg.rank w = pg.rank v

/-- The `$k` texts of a row. -/
def cursorTexts (pg : Pg V O) (keys : List (SortKey Row V)) (row : Row) : List (Option String) :=
  keys.map fun k => (k.expr row).map pg.text

/-- The codec reads back the cursors printed of rows. -/
def Codec.Reads (codec : Codec) (pg : Pg V O) (hash : String) (keys : List (SortKey Row V)) : Prop :=
  ∀ row, codec.cursorPayload (codec.encodePayload (hash, cursorTexts pg keys row)) =
    some (hash, cursorTexts pg keys row)

theorem holds_compared {pg : Pg V O} {k : SortKey Row V} {c : Row} {v : V}
    (hk : k.Reads pg) (hc : k.expr c = some v) (row : Row) (rel : O → O → Bool) :
    Holds (compared pg k row (pg.text v) rel) ↔
      ∃ u, k.expr row = some u ∧ rel (pg.rank u) (pg.rank v) := by
  obtain ⟨w, hw, hrank⟩ := hk c v hc
  cases hrow : k.expr row with
  | none => simp [compared, hrow]
  | some u => simp [compared, hrow, hw, hrank]

/-- A key equals the cursor where its ranks agree. -/
theorem holds_sameAs {pg : Pg V O} {k : SortKey Row V} {c row : Row} (hk : k.Reads pg) :
    Holds ((sameAs k ((k.expr c).map pg.text)).eval pg row) ↔
      (k.toKey pg).rank c = (k.toKey pg).rank row := by
  cases hc : k.expr c with
  | none => cases hr : k.expr row <;> simp [sameAs, Test.eval, SortKey.toKey, hc, hr]
  | some v =>
    simp only [sameAs, Option.map_some, Test.eval, holds_compared hk hc, SortKey.toKey, hc, beq_iff_eq]
    cases hr : k.expr row with
    | none => simp
    | some u => simp [eq_comm]

/-- The last test of a branch puts a row after the cursor in its key. -/
theorem holds_afterKey {pg : Pg V O} {k : SortKey Row V} {c row : Row} (hk : k.Reads pg)
    (h : ¬ (k.dir = .asc ∧ (k.expr c).map pg.text = none)) :
    Holds ((afterKey k ((k.expr c).map pg.text)).eval pg row) ↔
      k.dir.before ((k.toKey pg).rank c) ((k.toKey pg).rank row) := by
  cases hdir : k.dir with
  | asc =>
    cases hc : k.expr c with
    | none => simp [hdir, hc] at h
    | some v =>
      have hcmp := holds_compared hk hc row (fun v w => decide (w < v))
      cases hr : k.expr row with
      | none => simp [afterKey, Test.eval, SortKey.toKey, Dir.before, hc, hr, hdir]
      | some u =>
        simp only [hr] at hcmp
        simp [afterKey, Test.eval, SortKey.toKey, Dir.before, hc, hr, hdir, hcmp]
  | desc =>
    cases hc : k.expr c with
    | none => cases hr : k.expr row <;> simp [afterKey, Test.eval, SortKey.toKey, Dir.before, hc, hr, hdir]
    | some v =>
      have hcmp := holds_compared hk hc row (fun v w => decide (v < w))
      cases hr : k.expr row with
      | none =>
        simp only [hr] at hcmp
        simp [afterKey, Test.eval, SortKey.toKey, Dir.before, hc, hr, hdir, hcmp]
      | some u =>
        simp only [hr] at hcmp
        simp [afterKey, Test.eval, SortKey.toKey, Dir.before, hc, hr, hdir, hcmp]

omit [LinearOrder O] in
/-- `valueAt` of a row's own cursor is its key's text. -/
private theorem valueAt_cursorTexts {pg : Pg V O} {keys : List (SortKey Row V)} {c : Row} {i : Nat}
    {k : SortKey Row V} (hk : keys[i]? = some k) :
    valueAt (cursorTexts pg keys c) i = (k.expr c).map pg.text := by
  simp [valueAt, cursorTexts, hk]

/-- A branch's equalities hold of the rows that agree with the cursor in the keys before it. -/
private theorem holds_equalities {pg : Pg V O} {keys : List (SortKey Row V)} {c row : Row}
    (hreads : ∀ k ∈ keys, k.Reads pg) (i : Nat) :
    (∀ t ∈ (keys.take i).zipIdx.map fun (p, j) => sameAs p (valueAt (cursorTexts pg keys c) j),
      Holds (t.eval pg row)) ↔
      ∀ p ∈ (keys.map (SortKey.toKey pg)).take i, p.rank c = p.rank row := by
  have hval : ∀ p j, (p, j) ∈ (keys.take i).zipIdx →
      p ∈ keys ∧ valueAt (cursorTexts pg keys c) j = (p.expr c).map pg.text := by
    intro p j hp
    rw [List.mem_zipIdx_iff_getElem?, List.getElem?_take] at hp
    split_ifs at hp
    exact ⟨List.mem_of_getElem? hp, valueAt_cursorTexts hp⟩
  rw [← List.map_take]
  constructor
  · intro h q hq
    obtain ⟨p, hp, rfl⟩ := List.mem_map.mp hq
    obtain ⟨j, hj⟩ := List.mem_iff_getElem?.mp hp
    have hmem : (p, j) ∈ (keys.take i).zipIdx := List.mem_zipIdx_iff_getElem?.mpr hj
    obtain ⟨hpk, hv⟩ := hval p j hmem
    have ht := h _ (List.mem_map.mpr ⟨(p, j), hmem, rfl⟩)
    simp only [hv] at ht
    exact (holds_sameAs (hreads p hpk)).mp ht
  · intro h t ht
    obtain ⟨⟨p, j⟩, hmem, rfl⟩ := List.mem_map.mp ht
    obtain ⟨hpk, hv⟩ := hval p j hmem
    simp only [hv]
    refine (holds_sameAs (hreads p hpk)).mpr (h _ (List.mem_map.mpr ⟨p, ?_, rfl⟩))
    exact List.mem_of_getElem? (List.mem_zipIdx_iff_getElem?.mp hmem)

/-- `seek` past a row's cursor selects exactly the rows the order puts after it. -/
theorem holds_seek {pg : Pg V O} {keys : List (SortKey Row V)} (hreads : ∀ k ∈ keys, k.Reads pg)
    (c row : Row) :
    Holds (seekEval pg (seek keys (cursorTexts pg keys c)) row) ↔
      before (keys.map (SortKey.toKey pg)) c row := by
  rw [seekEval, holds_any, before_iff_exists]
  constructor
  · rintro ⟨t, ht, hholds⟩
    obtain ⟨tests, htests, rfl⟩ := List.mem_map.mp ht
    obtain ⟨⟨k, i⟩, hki, hbranch⟩ := List.mem_filterMap.mp htests
    have hk := List.mem_zipIdx_iff_getElem?.mp hki
    simp only [valueAt_cursorTexts hk] at hbranch
    split_ifs at hbranch with hnull
    cases hbranch
    simp only [holds_all, List.map_append, List.mem_append, List.mem_map, List.map_cons,
      List.map_nil, List.mem_singleton] at hholds
    refine ⟨i, k.toKey pg, by simp [hk], ?_, ?_⟩
    · refine (holds_equalities hreads i).mp fun t ht => hholds _ (Or.inl ⟨t, ?_, rfl⟩)
      simpa using ht
    · exact (holds_afterKey (hreads k (List.mem_of_getElem? hk)) hnull).mp (hholds _ (Or.inr rfl))
  · rintro ⟨i, q, hq, hpre, hafter⟩
    obtain ⟨k, hk, rfl⟩ : ∃ k, keys[i]? = some k ∧ k.toKey pg = q := by
      simpa [List.getElem?_map] using hq
    -- nothing is after a null ascending key, so the branch of `k` is there
    have hnull : ¬ (k.dir = .asc ∧ (k.expr c).map pg.text = none) := by
      rintro ⟨hdir, hnone⟩
      have hc : k.expr c = none := by simpa using hnone
      simp [SortKey.toKey, hdir, hc, Dir.before] at hafter
    set tests := ((keys.take i).zipIdx.map fun (p, j) =>
      sameAs p (valueAt (cursorTexts pg keys c) j)) ++ [afterKey k ((k.expr c).map pg.text)] with htests
    have hmem : tests ∈ seek keys (cursorTexts pg keys c) := by
      refine List.mem_filterMap.mpr ⟨(k, i), List.mem_zipIdx_iff_getElem?.mpr hk, ?_⟩
      simp only [valueAt_cursorTexts hk, if_neg hnull, htests]
    refine ⟨_, List.mem_map.mpr ⟨tests, hmem, rfl⟩, ?_⟩
    · rw [holds_all]
      intro t ht
      rw [List.map_append, List.mem_append] at ht
      rcases ht with ht | ht
      · obtain ⟨test, htest, rfl⟩ := List.mem_map.mp ht
        exact (holds_equalities hreads i).mpr hpre test htest
      · simp only [List.map_cons, List.map_nil, List.mem_singleton] at ht
        subst ht
        exact (holds_afterKey (hreads k (List.mem_of_getElem? hk)) hnull).mpr hafter

omit [LinearOrder O] in
private theorem budgeted_past {bytes : Nat} {size : Row → Nat} {out : Row → Out J} {rows : List Row}
    {before : Nat} (h : bytes < before) : budgeted bytes size out before rows = [] := by
  induction rows generalizing before with
  | nil => rfl
  | cons row rows ih =>
    rw [budgeted, ih (by omega), if_neg (by omega)]
    rfl

omit [LinearOrder O] in
/-- The budget lets a first part of the rows leave, followed by the marker where rows remain. -/
private theorem budgeted_eq {bytes : Nat} (size : Row → Nat) (out : Row → Out J) (rows : List Row)
    {before : Nat} (h : before ≤ bytes) :
    ∃ m ≤ rows.length, budgeted bytes size out before rows =
      (rows.take m).map out ++ (if m < rows.length then [Out.over] else []) ∧
      ∀ row ∈ rows.head?, before + size row ≤ bytes → 0 < m := by
  induction rows generalizing before with
  | nil => exact ⟨0, le_rfl, rfl, by simp⟩
  | cons row rows ih =>
    by_cases hfit : before + size row ≤ bytes
    · obtain ⟨m, hm, heq, -⟩ := ih hfit
      refine ⟨m + 1, by simpa using hm, ?_, fun _ _ _ => m.succ_pos⟩
      rw [budgeted, heq, if_pos (by omega), if_neg (by omega)]
      simp
    · refine ⟨0, Nat.zero_le _, ?_, ?_⟩
      · rw [budgeted, budgeted_past (by omega), if_pos (by omega), if_pos (by omega)]
        simp
      · intro r hr hle
        simp only [List.head?_cons, Option.mem_def, Option.some.injEq] at hr
        exact absurd (hr ▸ hle) hfit

/-- What the database sends of the rows `rest` that remain in their order: some first part that is
not empty where rows remain, the marker where the budget cut it, and the total where it counts one. -/
structure Sends (s : Statement Row V J) (pg : Pg V O) (rest : List Row) (m : Nat) : Prop where
  le : m ≤ (rest.take s.take).length
  pos : rest.take s.take ≠ [] → 0 < m
  execute : s.execute pg =
    ((rest.take s.take).take m).map (fun row => Out.row (s.item row) (cursorTexts pg s.sort row)) ++
    (if m < (rest.take s.take).length then [Out.over] else []) ++
    (if s.total then [Out.total s.source.length] else [])

/-- A statement sends a first part of the sorted rows its seek condition selects. -/
theorem exists_sends (s : Statement Row V J) {pg : Pg V O} {rest : List Row}
    (hrest : s.rows pg = rest.take s.take)
    (hfit : ∀ bytes ∈ s.budget, ∀ row ∈ rest, s.size row ≤ bytes) :
    ∃ m, Sends s pg rest m := by
  cases hb : s.budget with
  | none =>
    refine ⟨(rest.take s.take).length, le_rfl, List.length_pos_of_ne_nil, ?_⟩
    rw [List.take_length, if_neg (lt_irrefl _), List.append_nil]
    simp only [Statement.execute, hb, hrest, cursorTexts]
  | some bytes =>
    obtain ⟨m, hm, heq, hpos⟩ := budgeted_eq s.size
      (fun row => Out.row (s.item row) (cursorTexts pg s.sort row)) (rest.take s.take) (Nat.zero_le bytes)
    refine ⟨m, hm, ?_, ?_⟩
    · intro hne
      obtain ⟨row, rows, hcons⟩ := List.exists_cons_of_ne_nil hne
      have hmem : row ∈ rest := List.mem_of_mem_take (hcons ▸ List.mem_cons_self)
      exact hpos row (by simp [hcons]) (by simpa using hfit bytes hb row hmem)
    · rw [← heq]
      simp [Statement.execute, hb, hrest, cursorTexts]

/-- The parts `answer` reads off what the database sent: the rows, whether the budget cut them, and
the total. -/
private theorem totalOf_sent (rows : List Row) (out : Row → J × List (Option String))
    (cut total : Bool) (n : Nat) :
    totalOf (rows.map (fun row => Out.row (out row).1 (out row).2) ++
      (if cut then [Out.over] else []) ++ (if total then [Out.total n] else [])) =
    (rows.map (fun row => Out.row (out row).1 (out row).2) ++ (if cut then [Out.over] else []),
      if total then some n else none) := by
  cases total with
  | true => simp [totalOf]
  | false =>
    cases cut with
    | true => simp [totalOf]
    | false =>
      cases hlast : rows.getLast? with
      | none => simp [totalOf, hlast]
      | some row => simp [totalOf, hlast]

private theorem isOver_sent (rows : List Row) (out : Row → J × List (Option String)) (cut : Bool) :
    ((rows.map (fun row => Out.row (out row).1 (out row).2) ++
      (if cut then [Out.over] else [])).getLast?.any Out.isOver) = cut := by
  cases cut with
  | true => simp [Out.isOver]
  | false =>
    cases hlast : rows.getLast? with
    | none => simp [hlast]
    | some row => simp [hlast, Out.isOver]

private theorem rows_sent (rows : List Row) (out : Row → J × List (Option String)) (cut : Bool) :
    ((if cut then (rows.map (fun row => Out.row (out row).1 (out row).2) ++
        (if cut then [Out.over] else [])).dropLast
      else rows.map (fun row => Out.row (out row).1 (out row).2) ++
        (if cut then [Out.over] else [])).filterMap Out.row?) = rows.map out := by
  have hrow : rows.filterMap (Out.row? ∘ fun row => Out.row (out row).1 (out row).2) =
      rows.map out := by
    rw [← List.filterMap_eq_map]
    rfl
  cases cut <;> simpa using hrow

/-- A page ends after `p` of the remaining rows, and its cursor is there exactly when rows follow. -/
structure PageOf (pg : Pg V O) (codec : Codec) (c : Compiled Row V J) (rest : List Row)
    (page : Page J) (p : Nat) : Prop where
  le : p ≤ rest.length
  pos : rest ≠ [] → 0 < p
  rows : page.rows = (rest.take p).map c.statement.item
  done : p = rest.length → page.next = none
  more : p < rest.length → ∃ last, (rest.take p).getLast? = some last ∧
    page.next = some (codec.encodePayload (c.hash, cursorTexts pg c.statement.sort last))

/-- `answer` cuts what the database sent to a page of at most `limit` rows. -/
theorem answer_pageOf (limits : Limits) {pg : Pg V O} (codec : Codec) {armOver : J → Option String}
    (model : String) (c : Compiled Row V J) {rest : List Row} {limit m : Nat}
    (hlimit : c.limit = some limit) (hpos : 1 ≤ limit) (htake : c.statement.take = limit + 1)
    (harms : ∀ row ∈ rest, armOver (c.statement.item row) = none)
    (hsends : Sends c.statement pg rest m) :
    ∃ page p, answer limits codec armOver model c (c.statement.execute pg) = .ok page ∧
      PageOf pg codec c rest page p := by
  obtain ⟨hle, hm, hexec⟩ := hsends
  rw [htake] at hle hm hexec
  set sent := rest.take (limit + 1) with hsent
  have hlen : sent.length = min (limit + 1) rest.length := List.length_take
  set out : Row → J × List (Option String) :=
    fun row => (c.statement.item row, cursorTexts pg c.statement.sort row) with hout
  set cut : Bool := decide (m < sent.length) with hcut
  have hexec : c.statement.execute pg =
      (sent.take m).map (fun row => Out.row (out row).1 (out row).2) ++
        (if cut then [Out.over] else []) ++
        (if c.statement.total then [Out.total c.statement.source.length] else []) := by
    simpa [hcut, hout] using hexec
  have hfits : armsFit armOver ((sent.take m).map out) = .ok () := by
    have hnone : ((sent.take m).map out).findSome? (fun row => armOver row.1) = none := by
      rw [List.findSome?_eq_none_iff]
      intro row hrow
      obtain ⟨r, hr, rfl⟩ := List.mem_map.mp hrow
      exact harms r (List.mem_of_mem_take (List.mem_of_mem_take hr))
    rw [armsFit, hnone]
  have hnotEmpty : (cut && ((sent.take m).map out).isEmpty) = false := by
    by_cases hs : sent = []
    · simp [hcut, hs]
    · have hm' : m ≠ 0 := (hm hs).ne'
      simp [hs, hm']
  have hjs : ((sent.take m).map out).length = m := by
    rw [List.length_map, List.length_take]
    omega
  -- the rows sent are a first part of the rest, so cutting them to the limit cuts the rest
  have hcutAt : ((sent.take m).map out).take limit = (rest.take (min m limit)).map out := by
    rw [hsent, ← List.map_take, List.take_take, List.take_take]
    congr 2
    omega
  have hmore : (cut || decide (((sent.take m).map out).length > limit)) =
      decide (min m limit < rest.length) := by
    rw [hjs, hcut, hlen, ← Bool.decide_or]
    apply decide_eq_decide.mpr
    omega
  refine ⟨⟨((rest.take (min m limit)).map out).map Prod.fst,
    if min m limit < rest.length then ((rest.take (min m limit)).map out).getLast?.map fun last =>
      codec.encodePayload (c.hash, last.2) else none,
    if c.statement.total then some c.statement.source.length else none⟩, min m limit, ?_, ?_⟩
  · rw [answer, hexec, totalOf_sent]
    simp only [isOver_sent, rows_sent, hfits, hlimit, hnotEmpty, hmore, hcutAt, decide_eq_true_eq]
    rfl
  · constructor
    · omega
    · intro hne
      have : sent ≠ [] := by
        rw [hsent]
        simpa using hne
      have := hm this
      omega
    · exact List.map_map
    · intro hp
      exact if_neg (by omega)
    · intro hp
      have hpos : 0 < min m limit := by
        have : sent ≠ [] := by
          rw [hsent]
          have := List.ne_nil_of_length_pos (Nat.zero_lt_of_lt hp)
          simpa using this
        have := hm this
        omega
      obtain ⟨last, hlast⟩ : ∃ last, (rest.take (min m limit)).getLast? = some last := by
        apply Option.isSome_iff_exists.mp
        rw [List.getLast?_isSome]
        have := List.ne_nil_of_length_pos (Nat.zero_lt_of_lt hp)
        simp [this]
        omega
      refine ⟨last, hlast, ?_⟩
      rw [if_pos hp, List.getLast?_map, hlast]
      rfl

/-- Where a reader stands in the sorted rows: before them, or behind the row its cursor names. -/
def StandsAt (pg : Pg V O) (codec : Codec) (hash : String) (keys : List (SortKey Row V))
    (done : List Row) (after : Option String) : Prop :=
  match after with
  | none => done = []
  | some cursor => ∃ c, done.getLast? = some c ∧
      cursor = codec.encodePayload (hash, cursorTexts pg keys c)

/-- A paged read compiled at a cursor: the statement of its first page with the seek condition. -/
def At (codec : Codec) (base : Compiled Row V J) (compile : PageIR → Except StoreError (Compiled Row V J))
    (limit : Nat) : Prop :=
  ∀ after, compile (.limit limit after) =
    (seekOf codec base.hash base.statement.sort (.limit limit after)).map fun seek =>
      { base with statement := { base.statement with seek := seek } }

/-- The seek condition of a reader's cursor leaves the rows behind it. -/
theorem rows_of_standsAt {pg : Pg V O} {codec : Codec} {s : Statement Row V J} {hash : String}
    (limit : Nat) {done rest : List Row} {after : Option String}
    (hcodec : codec.Reads pg hash s.sort) (hreads : ∀ k ∈ s.sort, k.Reads pg)
    (hdistinct : Distinct (s.sort.map (SortKey.toKey pg)) s.source)
    (hsorted : sorted (s.sort.map (SortKey.toKey pg)) s.source = done ++ rest)
    (hat : StandsAt pg codec hash s.sort done after) :
    ∃ seek, seekOf codec hash s.sort (.limit limit after) = .ok seek ∧
      Statement.rows pg { s with seek := seek } = rest.take s.take := by
  cases after with
  | none =>
    have hdone : done = [] := hat
    subst hdone
    exact ⟨none, rfl, by simp [Statement.rows, hsorted]⟩
  | some cursor =>
    obtain ⟨c, hlast, rfl⟩ := hat
    refine ⟨some (seek s.sort (cursorTexts pg s.sort c)), ?_, ?_⟩
    · have hlen : (cursorTexts pg s.sort c).length = s.sort.length := List.length_map _
      simp only [seekOf, decodeCursor, hcodec c, hlen, and_self, if_true]
      rfl
    · obtain ⟨pre, rfl⟩ := List.getLast?_eq_some_iff.mp hlast
      have hpair := sorted_pairwise hdistinct
      rw [hsorted, List.append_assoc, List.singleton_append] at hpair
      have hfilter : (s.source.filter fun row =>
          decide (Holds (seekEval pg (seek s.sort (cursorTexts pg s.sort c)) row))) =
          s.source.filter (before (s.sort.map (SortKey.toKey pg)) c) := by
        congr 1
        funext row
        simp [holds_seek hreads]
      simp only [Statement.rows, hfilter]
      rw [sorted_filter hdistinct, hsorted, List.append_assoc, List.singleton_append,
        filter_before hpair]

/-- A reader's next page continues with the rows behind its cursor. -/
theorem page_of_standsAt {limits : Limits} {pg : Pg V O} {codec : Codec} {armOver : J → Option String}
    {model : String} {base : Compiled Row V J}
    {compile : PageIR → Except StoreError (Compiled Row V J)} {limit : Nat} {done rest : List Row}
    {after : Option String}
    (hcodec : codec.Reads pg base.hash base.statement.sort)
    (hcompile : At codec base compile limit) (hlimit : base.limit = some limit) (hpos : 1 ≤ limit)
    (htake : base.statement.take = limit + 1)
    (hreads : ∀ k ∈ base.statement.sort, k.Reads pg)
    (hdistinct : Distinct (base.statement.sort.map (SortKey.toKey pg)) base.statement.source)
    (hfit : ∀ bytes ∈ base.statement.budget, ∀ row ∈ base.statement.source,
      base.statement.size row ≤ bytes)
    (harms : ∀ row ∈ base.statement.source, armOver (base.statement.item row) = none)
    (hsorted : sorted (base.statement.sort.map (SortKey.toKey pg)) base.statement.source =
      done ++ rest)
    (hat : StandsAt pg codec base.hash base.statement.sort done after) :
    ∃ page p, (do
        let c ← compile (.limit limit after)
        answer limits codec armOver model c (c.statement.execute pg)) = .ok page ∧
      PageOf pg codec base rest page p := by
  have hmem : ∀ row ∈ rest, row ∈ base.statement.source := by
    intro row hrow
    apply (sorted_perm (base.statement.sort.map (SortKey.toKey pg)) _).mem_iff.mp
    rw [hsorted]
    exact List.mem_append_right _ hrow
  obtain ⟨seek, hseek, hrows⟩ :=
    rows_of_standsAt limit hcodec hreads hdistinct hsorted hat
  set c : Compiled Row V J := { base with statement := { base.statement with seek := seek } } with hc
  obtain ⟨m, hsends⟩ := exists_sends c.statement hrows
    fun bytes hb row hrow => hfit bytes hb row (hmem row hrow)
  obtain ⟨page, p, hanswer, hpage⟩ := answer_pageOf limits codec model c hlimit hpos htake (fun row hrow => harms row (hmem row hrow)) hsends
  refine ⟨page, p, ?_, hpage.le, hpage.pos, hpage.rows, hpage.done, hpage.more⟩
  rw [hcompile after, hseek]
  exact hanswer

/-- The pages of a read, from the first on, are those of the rows `source` in the order of `keys`:
every row once, in order, after finitely many pages. -/
def ReadsThrough (pg : Pg V O) (keys : List (SortKey Row V)) (source : List Row) (item : Row → J)
    (run : PageIR → Except StoreError (Page J)) (limit : Nat) : Prop :=
  ∃ (pages : List (Page J)) (rows : List Row), (∀ fuel, source.length < fuel → follow run limit fuel none = some pages) ∧
    rows.Perm source ∧ rows.Pairwise (fun x y => before (keys.map (SortKey.toKey pg)) x y) ∧
    pages.flatMap (·.rows) = rows.map item

section

variable {pg : Pg V O} {codec : Codec} {base : Compiled Row V J}
  {run : PageIR → Except StoreError (Page J)} {limit : Nat}

/-- What every page of a read does, from wherever its reader stands. -/
def Continues (pg : Pg V O) (codec : Codec) (base : Compiled Row V J)
    (run : PageIR → Except StoreError (Page J)) (limit : Nat) : Prop :=
  ∀ done rest after,
    sorted (base.statement.sort.map (SortKey.toKey pg)) base.statement.source = done ++ rest →
    StandsAt pg codec base.hash base.statement.sort done after →
    ∃ page p, run (.limit limit after) = .ok page ∧ PageOf pg codec base rest page p

/-- Following `next` from a reader's place gives the rows behind it. -/
theorem follow_of_standsAt (hcont : Continues pg codec base run limit) {n : Nat}
    (done : List Row) {rest : List Row} (after : Option String) (hn : rest.length = n)
    (hsorted : sorted (base.statement.sort.map (SortKey.toKey pg)) base.statement.source =
      done ++ rest)
    (hat : StandsAt pg codec base.hash base.statement.sort done after) :
    ∃ pages, (∀ fuel, rest.length < fuel → follow run limit fuel after = some pages) ∧
      pages.flatMap (·.rows) = rest.map base.statement.item := by
  induction n using Nat.strong_induction_on generalizing done rest after with
  | _ n ih =>
    obtain ⟨page, p, hrun, hpage⟩ := hcont done rest after hsorted hat
    rcases hpage.le.eq_or_lt with hp | hp
    · refine ⟨[page], ?_, ?_⟩
      · intro fuel hfuel
        obtain ⟨fuel, rfl⟩ := Nat.exists_eq_add_one_of_ne_zero (Nat.ne_zero_of_lt hfuel)
        simp [follow, hrun, hpage.done hp]
      · simp [hpage.rows, hp]
    · -- rows follow, so the page is not empty and the rest of them is smaller
      have hp0 : 0 < p := hpage.pos (List.ne_nil_of_length_pos (Nat.zero_lt_of_lt hp))
      obtain ⟨last, hlast, hnext⟩ := hpage.more hp
      have hsplit : sorted (base.statement.sort.map (SortKey.toKey pg)) base.statement.source =
          (done ++ rest.take p) ++ rest.drop p := by
        rw [List.append_assoc, List.take_append_drop, hsorted]
      have hat' : StandsAt pg codec base.hash base.statement.sort (done ++ rest.take p)
          (some (codec.encodePayload (base.hash, cursorTexts pg base.statement.sort last))) :=
        ⟨last, by simp [hlast], rfl⟩
      obtain ⟨pages, hpages, hrows⟩ :=
        ih (rest.length - p) (by omega) _ _ (by simp) hsplit hat'
      refine ⟨page :: pages, ?_, ?_⟩
      · intro fuel hfuel
        obtain ⟨fuel, rfl⟩ := Nat.exists_eq_add_one_of_ne_zero (Nat.ne_zero_of_lt hfuel)
        have := hpages fuel (by rw [List.length_drop]; omega)
        simp [follow, hrun, hnext, this]
      · rw [List.flatMap_cons, hrows, hpage.rows, ← List.map_append, List.take_append_drop]

theorem readsThrough_of_continues (codec : Codec) (base : Compiled Row V J)
    (hcont : Continues pg codec base run limit)
    (hdistinct : Distinct (base.statement.sort.map (SortKey.toKey pg)) base.statement.source) :
    ReadsThrough pg base.statement.sort base.statement.source base.statement.item run limit := by
  obtain ⟨pages, hpages, hrows⟩ := follow_of_standsAt hcont [] none rfl rfl rfl
  refine ⟨pages, _, ?_, sorted_perm _ _, sorted_pairwise hdistinct, hrows⟩
  intro fuel hfuel
  refine hpages fuel ?_
  have hlen := (sorted_perm (base.statement.sort.map (SortKey.toKey pg)) base.statement.source).length_eq
  rw [sorted] at hlen
  omega

end

omit [LinearOrder O] in
theorem Distinct.of_append {keys more : List (Keyset.Key Row O)} {rows : List Row}
    (h : Distinct more rows) : Distinct (keys ++ more) rows := by
  refine List.Pairwise.imp ?_ h
  intro x y hxy heq
  simp only [ranks, List.map_append] at heq
  exact hxy (List.append_inj_right heq (by simp))

theorem distinctOn_sublist (keys : List (Keyset.Key Row O)) (rows : List Row) :
    (distinctOn keys rows).Sublist rows := by
  induction rows with
  | nil => exact List.Sublist.refl _
  | cons row rows ih => exact (List.filter_sublist.trans ih).cons_cons row

/-- The rows of a list read are told apart by its keys, which the primary key closes. -/
theorem ListRead.source_distinct {pg : Pg V O} (ir : ListRead Row V J) {table : List Row}
    (hkey : Distinct (ir.key.map fun k => SortKey.toKey pg ⟨ir.column k, .asc⟩) table) :
    Distinct (ir.keys.map (SortKey.toKey pg)) (ir.source pg table) := by
  have hmatching : Distinct (ir.keys.map (SortKey.toKey pg)) (table.filter ir.filter) := by
    rw [ListRead.keys, List.map_append, List.map_map]
    exact Distinct.of_append (hkey.filter ir.filter)
  rw [ListRead.source]
  split_ifs with hfirst
  · exact hmatching
  · exact List.Pairwise.sublist (distinctOn_sublist _ _) (hmatching.perm (sorted_perm _ _).symm)

/-- The keys of a bucket are the values its rows agree on. -/
theorem AggregateRead.ranks_bucket {pg : Pg V O} {ir : AggregateRead Row V J} {rows : List Row}
    {key : List (Option O)}
    (hkey : key ∈ rows.map fun row => ir.bucket.map fun c => (c.expr row).map pg.rank) :
    ranks (ir.keys.map (SortKey.toKey pg))
      (rows.filter fun row => (ir.bucket.map fun c => (c.expr row).map pg.rank) = key) = key := by
  obtain ⟨row, hrow, hrowKey⟩ := List.mem_map.mp hkey
  set group := rows.filter fun row => (ir.bucket.map fun c => (c.expr row).map pg.rank) = key
    with hgroup
  have hmem : row ∈ group := by simp [hgroup, hrow, hrowKey]
  obtain ⟨first, others, hcons⟩ := List.exists_cons_of_ne_nil (List.ne_nil_of_mem hmem)
  have hfirst : (ir.bucket.map fun c => (c.expr first).map pg.rank) = key := by
    have : first ∈ group := hcons ▸ List.mem_cons_self
    simpa [hgroup] using (List.mem_filter.mp this).2
  rw [← hfirst]
  simp [ranks, AggregateRead.keys, SortKey.toKey, hcons]

theorem AggregateRead.source_distinct (pg : Pg V O) (ir : AggregateRead Row V J) (table : List Row) :
    Distinct (ir.keys.map (SortKey.toKey pg)) (ir.source pg table) := by
  rw [AggregateRead.source, Distinct, List.pairwise_map]
  refine List.Pairwise.imp_of_mem ?_ (List.nodup_dedup _)
  intro a b ha hb hab heq
  apply hab
  rwa [ranks_bucket (List.mem_dedup.mp ha), ranks_bucket (List.mem_dedup.mp hb)] at heq

/-- Following `next` reads every matching row once, in the declared order, and ends: of a list read
whose primary key tells the rows apart and whose rows each fit the page, and of a grouped read. -/
theorem pages_read_through {codec : Codec} {limits : Limits} {pg : Pg V O} {limit : Nat}
    (hlimit : 1 ≤ limit) :
    (∀ (ir : ListRead Row V J) (armOver : J → Option String) (table : List Row),
      codec.Reads pg ir.hash ir.keys → (∀ k ∈ ir.keys, k.Reads pg) →
      Distinct (ir.key.map fun k => SortKey.toKey pg ⟨ir.column k, .asc⟩) table →
      (∀ row ∈ table, ir.size row ≤ limits.pageBytes) →
      (∀ row ∈ table, armOver (ir.item row) = none) →
      ReadsThrough pg ir.keys (ir.source pg table) ir.item
          (ir.run limits pg codec armOver table) limit ∧
        (ir.firstPer = [] → ir.source pg table = table.filter ir.filter)) ∧
    (∀ (ir : AggregateRead Row V J) (table : List Row),
      codec.Reads pg ir.hash ir.keys → (∀ k ∈ ir.keys, k.Reads pg) →
      ReadsThrough pg ir.keys (ir.source pg table) ir.measure (ir.run limits pg codec table) limit) := by
  constructor
  · intro ir armOver table hcodec hreads hkey hfit harms
    have hmem : ∀ row ∈ ir.source pg table, row ∈ table := by
      intro row hrow
      rw [ListRead.source] at hrow
      split_ifs at hrow
      · exact List.mem_of_mem_filter hrow
      · have := (distinctOn_sublist _ _).subset hrow
        exact List.mem_of_mem_filter ((sorted_perm _ _).mem_iff.mp this)
    set base : Compiled Row V J := ⟨⟨ir.source pg table, none, ir.keys, limit + 1,
      some limits.pageBytes, ir.total, ir.item, ir.size⟩, some limit, ir.hash⟩ with hbase
    have hdistinct := ir.source_distinct hkey
    refine ⟨readsThrough_of_continues codec base ?_ hdistinct, ?_⟩
    · intro done rest after hsorted hat
      have hcompile : At codec base (fun page => ir.compile limits pg codec page table) limit := by
        intro after
        rfl
      refine page_of_standsAt hcodec hcompile rfl hlimit rfl hreads hdistinct ?_ ?_ hsorted hat
      · intro bytes hbytes row hrow
        simp only [hbase, Option.mem_def, Option.some.injEq] at hbytes
        exact hbytes ▸ hfit row (hmem row hrow)
      · exact fun row hrow => harms row (hmem row hrow)
    · intro hfirst
      simp [ListRead.source, hfirst]
  · intro ir table hcodec hreads
    set base : Compiled (List Row) V J := ⟨⟨ir.source pg table, none, ir.keys, limit + 1, none,
      false, ir.measure, fun _ => 0⟩, some limit, ir.hash⟩ with hbase
    have hdistinct := ir.source_distinct pg table
    refine readsThrough_of_continues codec base ?_ hdistinct
    intro done rest after hsorted hat
    have hcompile : At codec base (fun page => ir.compile limits pg codec page table) limit := by
      intro after
      rfl
    exact page_of_standsAt hcodec hcompile rfl hlimit rfl hreads hdistinct (by simp [hbase])
      (by simp) hsorted hat

end

-- A table of two rows with a nullable flag, sorted by the flag with nulls first.

/-- PostgreSQL's booleans. -/
def pgBoolean : Pg Bool Bool where
  rank := id
  text b := if b then "true" else "false"
  cast type s := if type = "boolean" then
    (if s = "true" then some true else if s = "false" then some false else none) else none

/-- The base64url texts of the two rows' cursors. -/
def flagCodec : Codec where
  encodePayload p :=
    if p.2 = [none, some "true"] then "eyJoIjoiMXgyeTN6IiwiayI6W251bGwsInRydWUiXX0"
    else "eyJoIjoiMXgyeTN6IiwiayI6WyJ0cnVlIiwiZmFsc2UiXX0"
  cursorPayload s :=
    if s = "eyJoIjoiMXgyeTN6IiwiayI6W251bGwsInRydWUiXX0" then some ("1x2y3z", [none, some "true"])
    else if s = "eyJoIjoiMXgyeTN6IiwiayI6WyJ0cnVlIiwiZmFsc2UiXX0" then
      some ("1x2y3z", [some "true", some "false"])
    else none

def flagRead : ListRead Bool Bool Bool where
  model := "note"
  filter := fun _ => true
  column field := ⟨fun row => if field = "id" then some row else if row then none else some true,
    "boolean"⟩
  distance _ := ⟨fun _ => none, "float8"⟩
  order := [⟨"flag", .desc, false⟩]
  firstPer := []
  key := ["id"]
  rank := none
  total := true
  item := id
  size := fun _ => 11
  hash := "1x2y3z"

theorem flagRead_pages : ReadsThrough pgBoolean flagRead.keys (flagRead.source pgBoolean [true, false])
    flagRead.item (flagRead.run storeLimits pgBoolean flagCodec (fun _ => none) [true, false]) 1 := by
  refine ((pages_read_through (by decide)).1 flagRead (fun _ => none) [true, false] ?_ ?_ ?_ ?_ ?_).1
  · intro row
    cases row <;> decide
  · intro k hk row v hv
    refine ⟨v, ?_, rfl⟩
    have hk : k = ⟨flagRead.column "flag", .desc⟩ ∨ k = ⟨flagRead.column "id", .asc⟩ := by
      simpa [flagRead, ListRead.keys, ListRead.orderItems] using hk
    rcases hk with rfl | rfl <;> cases v <;> rfl
  · simp [Distinct, ranks, flagRead, SortKey.toKey, pgBoolean]
  · simp [flagRead, storeLimits]
  · simp

end Norbital.Store

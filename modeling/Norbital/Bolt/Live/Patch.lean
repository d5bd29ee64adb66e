import Norbital.Bolt.Live.Hub
import Mathlib.Data.Rat.Defs
import Mathlib.Data.List.InsertIdx

/-!
# Rows applied to a view's answer, and the ops that say so

The hub applies a captured row to the answer it holds and sends the ops that did
it (`apply` in `bolt/src/engine/live/hub.ts`); the page applies the ops to the
answer it shows (`patched` in `bolt/src/page/bolt.ts`).  The order of a view's
rows and whether a change leaves a row in its place are parameters: both sides
only depend on the position they give.

An object is the list of its members.  The page's values are those of the wire
with every `{ $dec }` revived, for which there is a constructor of its own.
-/

namespace Norbital.Bolt.Live

/-- A wire value; `dec` is a decimal the page has revived. -/
inductive Json where
  | null
  | bool (b : Bool)
  | num (q : Rat)
  | str (s : String)
  | arr (items : List Json)
  | obj (fields : List (String × Json))
  | dec (text : String)

/-- The members of an object. -/
abbrev Fields := List (String × Json)

/-- An object with one member set, in its place when it has it. -/
def setField (key : String) (value : Json) : Fields → Fields
  | [] => [(key, value)]
  | (k, v) :: fields => if k = key then (k, value) :: fields else (k, v) :: setField key value fields

/-- `===` of two members, `undefined` when absent; no two objects are the same. -/
def strictEq : Option Json → Option Json → Bool
  | none, none => true
  | some .null, some .null => true
  | some (.bool a), some (.bool b) => a = b
  | some (.num a), some (.num b) => a = b
  | some (.str a), some (.str b) => a = b
  | _, _ => false

/-- `reviveWire`: an object that is only `{ $dec }` is its decimal. -/
def reviveWire : Fields → Json
  | [("$dec", .str text)] => .dec text
  | fields => .obj fields

mutual

/-- `typed`. -/
def typed : Json → Json
  | .arr items => .arr (typedItems items)
  | .obj fields => reviveWire (typedFields fields)
  | .null => .null
  | .bool b => .bool b
  | .num q => .num q
  | .str s => .str s
  | .dec text => .dec text

def typedItems : List Json → List Json
  | [] => []
  | item :: items => typed item :: typedItems items

def typedFields : List (String × Json) → List (String × Json)
  | [] => []
  | field :: fields => typedField field :: typedFields fields

def typedField : String × Json → String × Json
  | (key, value) => (key, typed value)

end

/-- A row of the page's value that is no object, or has another id. -/
def keeps (key : Option Json) : Json → Bool
  | .obj fields => !strictEq (fields.lookup "id") key
  | .dec _ => !strictEq none key
  | _ => true

/-- The id an op takes out of the rows. -/
def idOf : Json → Option Json
  | .obj fields => fields.lookup "id"
  | .dec _ => none
  | _ => some .null

/-- One op of `patched`, on the page's members (`none`: a single row) and its rows. -/
def patchOp : Option Fields × List Json → PatchOp Json Json → Option (Option Fields × List Json)
  | (page, rows), .setMeta key value => page.map fun page => (some (setField key value page), rows)
  | (page, rows), .remove id => some (page, rows.filter (keeps (some (.str id))))
  | (page, rows), .upsert index row =>
    let rows := rows.filter (keeps (idOf row))
    if index > rows.length then none else some (page, rows.insertIdx index row)

/-- What `patched` starts from: a page and its rows, or a single row. -/
def opened : Json → Option Fields × List Json
  | .obj fields =>
    match fields.lookup "rows" with
    | some (.arr rows) => (some fields, rows)
    | _ => (none, [.obj fields])
  | .null => (none, [])
  | value => (none, [value])

/-- What `patched` ends with. -/
def closed : Option Fields × List Json → Option Json
  | (some page, rows) => some (.obj (setField "rows" (.arr rows) page))
  | (none, rows) => if rows.length > 1 then none else some (rows.head?.getD .null)

/-- `patched`: the ops of a patch applied to a view's value; `none` when they do not fit it. -/
def patched (value : Json) (ops : List (PatchOp Json Json)) : Option Json :=
  (ops.foldlM patchOp (opened value)).bind closed

/-- An op as the page applies it. -/
def typedOp : PatchOp Json Fields → PatchOp Json Json
  | .upsert index row => .upsert index (typed (.obj row))
  | .remove id => .remove id
  | .setMeta key value => .setMeta key value

/-- How a view takes a row: as its one row, among its rows, or only by a re-read. -/
inductive Shape where
  | get
  | page
  | other
  deriving DecidableEq, Repr

/-- What `apply` asks of a view's read and of a captured row. -/
structure Strategy (C : Type) where
  shape : Shape
  /-- The id a `get` reads. -/
  target : String
  /-- Whether the answers carry nothing beside `rows` and `next`. -/
  plain : Bool
  /-- `c.id`. -/
  id : C → String
  /-- For a transcript's own conversation, its status after the change (`none`: undefined). -/
  status : C → Option (Option String)
  same : Json → Json → Bool
  /-- Whether the change leaves the row where it is. -/
  kept : C → Fields → Fields → Bool
  /-- Whether the first row comes before the second, when that is exact. -/
  before : Fields → Fields → Option Bool
  limit : Nat
  transcript : ∀ c, (status c).isSome → shape = .page ∧ plain = false

/-- Where a row goes among rows in order. -/
def place (before : Fields → Fields → Option Bool) (row : Fields) : List Fields → Option Nat
  | [] => some 0
  | other :: rows =>
    match before row other with
    | none => none
    | some true => some 0
    | some false => (place before row rows).map (· + 1)

def asRow : Json → Option Fields
  | .obj fields => some fields
  | _ => none

/-- A page as `pageOf` decodes it: the members the schema names, the rows, and whether there are
more. -/
structure Page where
  fields : Fields
  rows : List Fields
  more : Bool

/-- The page's rows, each a record. -/
def recordsOf : Option Json → Option (List Fields)
  | some (.arr items) => items.mapM asRow
  | _ => none

/-- Whether a `next` says there are more rows. -/
def moreOf : Option Json → Option Bool
  | none => some false
  | some .null => some false
  | some (.str _) => some true
  | some _ => none

/-- The members `PageSchema` names. -/
def named (key : String) : Bool := key = "rows" || key = "next"

/-- `pageOf`: decoding leaves out the members the schema does not name. -/
def pageOf : Json → Option Page
  | .obj fields =>
    (recordsOf (fields.lookup "rows")).bind fun rows =>
      (moreOf (fields.lookup "next")).map fun more => ⟨fields.filter fun f => named f.1, rows, more⟩
  | _ => none

/-- The page with other rows. -/
def Page.withRows (page : Page) (rows : List Fields) : Json :=
  .obj (setField "rows" (.arr (rows.map .obj)) page.fields)

def hasId (id : String) (row : Fields) : Bool := strictEq (row.lookup "id") (some (.str id))

def lastId (rows : List Fields) : Option Json := rows.getLast?.bind (·.lookup "id")

/-- The rows with the one found taken out. -/
def without (rows : List Fields) : Option Nat → List Fields
  | some i => rows.eraseIdx i
  | none => rows

section Apply

variable {C : Type} (S : Strategy C)

/-- A row that is new to the page or moves in it. -/
def moveRow (page : Page) (i : Option Nat) (row : Fields) :
    Option (Json × List (PatchOp Json Fields)) :=
  let rows := without page.rows i
  match place S.before row rows with
  | none => none
  | some index =>
    if page.more then
      -- a row past the page's end is not on it; one that leaves or enters moves `next`
      if index = rows.length then
        if i.isNone then some (page.withRows rows, []) else none
      else if i.isNone then none
      else if strictEq (lastId (rows.insertIdx index row)) (lastId page.rows) then
        some (page.withRows (rows.insertIdx index row), [.upsert index row])
      else none
    else if rows.length + 1 > S.limit then none
    else some (page.withRows (rows.insertIdx index row), [.upsert index row])

def applyPage (page : Page) (c : C) (row : Option Fields) :
    Option (Json × List (PatchOp Json Fields)) :=
  let i := page.rows.findIdx? (hasId (S.id c))
  match row with
  | none =>
    -- the row after the page would come up, and is not here
    if page.more then none
    else match i with
      | none => some (page.withRows page.rows, [])
      | some i => some (page.withRows (page.rows.eraseIdx i), [.remove (S.id c)])
  | some row =>
    match i.bind fun i => (page.rows[i]?).map (i, ·) with
    | some (i, old) =>
      -- the order does not see the change, so the row stays where it is
      if S.kept c old row then
        if S.same (.obj old) (.obj row) then some (page.withRows page.rows, [])
        else some (page.withRows (page.rows.set i row), [.upsert i row])
      else moveRow S page (some i) row
    | none => moveRow S page none row

/-- `apply`: one row applied to a working value, with the ops that did it; `none` when only a
re-read is exact. -/
def apply (work : Json) (c : C) (row : Option Fields) :
    Option (Json × List (PatchOp Json Fields)) :=
  match S.status c with
  | some status =>
    match work, status with
    | .obj fields, some status =>
      some (.obj (setField "status" (.str status) fields), [.setMeta "status" (.str status)])
    | _, _ => none
  | none =>
    match S.shape with
    | .get =>
      match row with
      | none =>
        match work with
        | .null => some (.null, [])
        | _ => some (.null, [.remove (S.id c)])
      | some row =>
        if S.same work (.obj row) then some (work, []) else some (.obj row, [.upsert 0 row])
    | .page => (pageOf work).bind fun page => applyPage S page c row
    | .other => none

end Apply

theorem lookup_field (key k : String) (v : Json) (fields : Fields) :
    List.lookup key ((k, v) :: fields) = if key = k then some v else fields.lookup key := by
  rw [List.lookup_cons]
  by_cases h : key = k
  · simp [h]
  · rw [beq_false_of_ne h, if_neg h]

theorem lookup_setField (key key' : String) (value : Json) (fields : Fields) :
    (setField key value fields).lookup key' = if key' = key then some value else fields.lookup key' := by
  induction fields with
  | nil => rw [setField, lookup_field]
  | cons f fields ih =>
    obtain ⟨k, v⟩ := f
    rw [setField]
    by_cases hk : k = key
    · rw [if_pos hk, lookup_field, lookup_field, hk]
      split_ifs <;> rfl
    · rw [if_neg hk, lookup_field, lookup_field, ih]
      split_ifs with h h'
      · exact absurd (h.symm.trans h') hk
      · rfl
      · rfl
      · rfl

theorem typedItems_eq (items : List Json) : typedItems items = items.map typed := by
  induction items with
  | nil => rfl
  | cons item items ih => rw [typedItems, ih, List.map_cons]

theorem lookup_typedFields (key : String) (fields : Fields) :
    (typedFields fields).lookup key = (fields.lookup key).map typed := by
  induction fields with
  | nil => rfl
  | cons f fields ih =>
    obtain ⟨k, v⟩ := f
    rw [typedFields, typedField, lookup_field, lookup_field, ih]
    split_ifs <;> rfl

theorem typedFields_setField (key : String) (value : Json) (fields : Fields) :
    typedFields (setField key value fields) = setField key (typed value) (typedFields fields) := by
  induction fields with
  | nil => rfl
  | cons f fields ih =>
    obtain ⟨k, v⟩ := f
    by_cases h : k = key <;> simp [typedFields, typedField, setField, h, ih]

theorem reviveWire_eq (fields : Fields) :
    (∃ text, reviveWire fields = .dec text) ∨ reviveWire fields = .obj fields := by
  fun_cases reviveWire fields with
  | case1 text => exact .inl ⟨text, rfl⟩
  | case2 => exact .inr rfl

/-- An object with a member other than `$dec` is no decimal. -/
theorem typed_obj {fields : Fields} (key : String) (hkey : key ≠ "$dec")
    (hsome : (fields.lookup key).isSome) : typed (.obj fields) = .obj (typedFields fields) := by
  rw [typed]
  refine reviveWire.eq_2 _ ?_
  intro text heq
  have hlookup := lookup_typedFields key fields
  rw [heq, lookup_field, if_neg hkey] at hlookup
  rw [Option.isSome_iff_exists] at hsome
  obtain ⟨value, hvalue⟩ := hsome
  simp [hvalue] at hlookup

theorem typed_arr (items : List Json) : typed (.arr items) = .arr (items.map typed) := by
  rw [typed, typedItems_eq]

theorem setField_self {key : String} {value : Json} {fields : Fields}
    (h : fields.lookup key = some value) : setField key value fields = fields := by
  induction fields with
  | nil => cases h
  | cons f fields ih =>
    obtain ⟨k, v⟩ := f
    rw [lookup_field] at h
    rw [setField]
    by_cases hk : k = key
    · rw [if_pos hk.symm, Option.some.injEq] at h
      rw [if_pos hk, h]
    · rw [if_neg (Ne.symm hk)] at h
      rw [if_neg hk, ih h]

theorem setField_setField (key : String) (value value' : Json) (fields : Fields) :
    setField key value' (setField key value fields) = setField key value' fields := by
  induction fields with
  | nil => simp [setField]
  | cons f fields ih =>
    obtain ⟨k, v⟩ := f
    by_cases hk : k = key
    · simp [setField, hk]
    · simp [setField, hk, ih]

theorem mem_setField {key : String} {value : Json} {fields : Fields} {f : String × Json}
    (h : f ∈ setField key value fields) : f.1 = key ∨ f ∈ fields := by
  induction fields with
  | nil =>
    rw [setField, List.mem_singleton] at h
    exact .inl (congrArg Prod.fst h)
  | cons f' fields ih =>
    obtain ⟨k, v⟩ := f'
    rw [setField] at h
    split_ifs at h with hk
    · rcases List.mem_cons.1 h with rfl | h
      · exact .inl hk
      · exact .inr (List.mem_cons_of_mem _ h)
    · rcases List.mem_cons.1 h with rfl | h
      · exact .inr List.mem_cons_self
      · exact (ih h).imp_right (List.mem_cons_of_mem _)

/-- Rows with ids that tell them apart. -/
structure Identified (rows : List Fields) : Prop where
  ids : ∀ row ∈ rows, ∃ id, row.lookup "id" = some (.str id)
  apart : rows.Pairwise fun a b => a.lookup "id" ≠ b.lookup "id"

theorem identified_single {row : Fields} {id : String} (h : row.lookup "id" = some (.str id)) :
    Identified [row] := by
  refine ⟨?_, List.pairwise_singleton _ _⟩
  intro other hother
  rw [List.mem_singleton.1 hother]
  exact ⟨id, h⟩

theorem strictEq_str {value : Option Json} {id : String} :
    strictEq value (some (.str id)) = true ↔ value = some (.str id) := by
  cases value with
  | none => simp [strictEq]
  | some value => cases value <;> simp [strictEq]

theorem hasId_iff {id : String} {row : Fields} :
    hasId id row = true ↔ row.lookup "id" = some (.str id) := strictEq_str

/-- The rows as the page shows them. -/
def shown (rows : List Fields) : List Json := rows.map fun row => typed (.obj row)

theorem typed_row {row : Fields} {id : String} (h : row.lookup "id" = some (.str id)) :
    typed (.obj row) = .obj (typedFields row) ∧
      (typedFields row).lookup "id" = some (.str id) := by
  refine ⟨typed_obj "id" (by decide) (by simp [h]), ?_⟩
  rw [lookup_typedFields, h]
  simp [typed]

/-- The page takes out the rows the hub finds by id. -/
theorem filter_shown {rows : List Fields} (h : Identified rows) (id : String) :
    (shown rows).filter (keeps (some (.str id))) = shown (rows.filter fun row => !hasId id row) := by
  rw [shown, shown, List.filter_map]
  congr 1
  refine List.filter_congr ?_
  intro row hrow
  obtain ⟨id', hid⟩ := h.ids row hrow
  obtain ⟨htyped, hlookup⟩ := typed_row hid
  rw [Function.comp_apply, htyped, keeps, hlookup, hasId, hid]

theorem Identified.filter {rows : List Fields} (h : Identified rows) (p : Fields → Bool) :
    Identified (rows.filter p) :=
  ⟨fun row hrow => h.ids row (List.mem_of_mem_filter hrow), h.apart.filter p⟩

/-- A row put among rows none of which has its id. -/
theorem Identified.insert {rows : List Fields} (h : Identified rows) {row : Fields} {id : String}
    (hid : row.lookup "id" = some (.str id)) (hnone : ∀ other ∈ rows, hasId id other = false)
    {index : Nat} (hindex : index ≤ rows.length) : Identified (rows.insertIdx index row) := by
  have hperm := List.perm_insertIdx row rows hindex
  constructor
  · intro other hother
    rcases List.mem_cons.1 (hperm.mem_iff.1 hother) with rfl | hother
    · exact ⟨id, hid⟩
    · exact h.ids other hother
  · refine (hperm.pairwise_iff fun hne => Ne.symm hne).2 (List.pairwise_cons.2 ⟨?_, h.apart⟩)
    intro other hother heq
    have hfalse := hnone other hother
    rw [hasId_iff.2 (heq.symm.trans hid)] at hfalse
    cases hfalse

/-- Of rows with ids apart, one has the id or none. -/
theorem filter_of_findIdx {rows : List Fields} (h : Identified rows) (id : String) :
    (rows.filter fun row => !hasId id row) =
      without rows (rows.findIdx? (hasId id)) := by
  induction rows with
  | nil => rfl
  | cons row rows ih =>
    obtain ⟨hne, hapart⟩ := List.pairwise_cons.1 h.apart
    have ih := ih ⟨fun r hr => h.ids r (List.mem_cons_of_mem row hr), hapart⟩
    rw [List.findIdx?_cons]
    cases hrow : hasId id row with
    | true =>
      have hrest : (rows.filter fun row => !hasId id row) = rows := by
        refine List.filter_eq_self.2 ?_
        intro other hother
        rw [Bool.not_eq_true', ← Bool.not_eq_true, hasId_iff, ← hasId_iff.1 hrow]
        exact (hne other hother).symm
      simp [hrow, hrest, without]
    | false =>
      rw [List.filter_cons_of_pos (by simp [hrow]), ih]
      cases rows.findIdx? (hasId id) <;> simp [without]

theorem place_le {before : Fields → Fields → Option Bool} {row : Fields} {rows : List Fields}
    {index : Nat} (h : place before row rows = some index) : index ≤ rows.length := by
  induction rows generalizing index with
  | nil =>
    cases h
    exact Nat.le_refl 0
  | cons other rows ih =>
    rw [place] at h
    split at h
    · cases h
    · cases h
      exact Nat.zero_le _
    · obtain ⟨i, hi, rfl⟩ := Option.map_eq_some_iff.1 h
      exact Nat.succ_le_succ (ih hi)

section Follow

variable {C : Type} {S : Strategy C}

/-- One upsert, on rows with ids apart. -/
theorem patch_upsert {rows : List Fields} (h : Identified rows) {row : Fields} {id : String}
    (hid : row.lookup "id" = some (.str id)) {index : Nat} (page : Option Fields)
    (hindex : index ≤ (rows.filter fun row => !hasId id row).length) :
    ([PatchOp.upsert index row].map typedOp).foldlM patchOp (page, shown rows) =
      some (page, shown ((rows.filter fun row => !hasId id row).insertIdx index row)) ∧
    Identified ((rows.filter fun row => !hasId id row).insertIdx index row) := by
  constructor
  · obtain ⟨htyped, hlookup⟩ := typed_row hid
    have hrows : (shown rows).filter (keeps (idOf (typed (.obj row)))) =
        shown (rows.filter fun row => !hasId id row) := by
      rw [htyped, idOf, hlookup, filter_shown h]
    have hlength : ¬ index > (shown (rows.filter fun row => !hasId id row)).length := by
      rw [shown, List.length_map]
      omega
    simp only [List.map_cons, List.map_nil, List.foldlM_cons, List.foldlM_nil, typedOp, patchOp, hrows,
      if_neg hlength]
    rw [shown, shown, List.map_insertIdx]
    rfl
  · refine (h.filter _).insert hid ?_ hindex
    intro other hother
    simpa using (List.mem_filter.1 hother).2

theorem patch_remove {rows : List Fields} (h : Identified rows) (id : String) (page : Option Fields) :
    ([PatchOp.remove id].map typedOp).foldlM patchOp (page, shown rows) =
      some (page, shown (rows.filter fun row => !hasId id row)) := by
  rw [← filter_shown h]
  rfl

theorem patch_nil (st : Option Fields × List Json) :
    (([] : List (PatchOp Json Fields)).map typedOp).foldlM patchOp st = some st := rfl

theorem moveRow_patched {page : Page} (h : Identified page.rows) {row : Fields} {c : C}
    (hid : row.lookup "id" = some (.str (S.id c))) {i : Option Nat}
    (hi : (page.rows.filter fun row => !hasId (S.id c) row) = without page.rows i)
    {work : Json} {ops : List (PatchOp Json Fields)} (happly : moveRow S page i row = some (work, ops))
    (fields : Option Fields) :
    ∃ rows, work = page.withRows rows ∧ Identified rows ∧
      (ops.map typedOp).foldlM patchOp (fields, shown page.rows) = some (fields, shown rows) := by
  simp only [moveRow, ← hi] at happly
  cases hplace : place S.before row (page.rows.filter fun row => !hasId (S.id c) row) with
  | none => simp [hplace] at happly
  | some index =>
    have hupsert := patch_upsert h hid fields (place_le hplace)
    simp only [hplace] at happly
    split_ifs at happly with hmore hend hnone hnone hlast hlimit
    · -- past the page's end: nothing is on it
      cases happly
      cases i with
      | none => exact ⟨page.rows, by rw [hi, without], h, patch_nil _⟩
      | some i => cases hnone
    · cases happly
      exact ⟨_, rfl, hupsert.2, hupsert.1⟩
    · cases happly
      exact ⟨_, rfl, hupsert.2, hupsert.1⟩

theorem applyPage_patched {page : Page} (h : Identified page.rows) {row : Option Fields} {c : C}
    (hid : ∀ r ∈ row, r.lookup "id" = some (.str (S.id c)))
    {work : Json} {ops : List (PatchOp Json Fields)} (happly : applyPage S page c row = some (work, ops))
    (fields : Option Fields) :
    ∃ rows, work = page.withRows rows ∧ Identified rows ∧
      (ops.map typedOp).foldlM patchOp (fields, shown page.rows) = some (fields, shown rows) := by
  have hfilter := filter_of_findIdx h (S.id c)
  cases row with
  | none =>
    rw [applyPage] at happly
    cases hi : page.rows.findIdx? (hasId (S.id c)) with
    | none =>
      simp only [hi] at happly
      split_ifs at happly
      cases happly
      exact ⟨page.rows, rfl, h, patch_nil _⟩
    | some i =>
      simp only [hi] at happly hfilter
      split_ifs at happly
      cases happly
      rw [without] at hfilter
      refine ⟨_, rfl, hfilter ▸ h.filter _, ?_⟩
      rw [patch_remove h, hfilter]
  | some row =>
    have hid := hid row rfl
    rw [applyPage] at happly
    cases hi : page.rows.findIdx? (hasId (S.id c)) with
    | none =>
      simp only [hi] at happly hfilter
      exact moveRow_patched h hid hfilter happly fields
    | some i =>
      have hlt := (List.findIdx?_eq_some_iff_findIdx_eq.1 hi).1
      simp only [hi, Option.bind_some, List.getElem?_eq_getElem hlt, Option.map_some] at happly hfilter
      split_ifs at happly with hkept hsame
      · cases happly
        exact ⟨page.rows, rfl, h, patch_nil _⟩
      · cases happly
        have hset : page.rows.set i row =
            (page.rows.filter fun row => !hasId (S.id c) row).insertIdx i row := by
          rw [hfilter, without, List.insertIdx_eraseIdx_self (Nat.ne_of_lt hlt)]
        rw [hset]
        have hindex : i ≤ (page.rows.filter fun row => !hasId (S.id c) row).length := by
          rw [hfilter, without, List.length_eraseIdx_of_lt hlt]
          omega
        have hupsert := patch_upsert h hid fields hindex
        exact ⟨_, rfl, hupsert.2, hupsert.1⟩
      · exact moveRow_patched h hid hfilter happly fields

/-- What the page's `patched` works on while the hub works on a page: the same rows, the other
members the hub still has, and all of them for a plain one. -/
structure PageSim (plain : Bool) (fields members : Fields) (rows : List Fields) : Prop where
  rows_eq : members.lookup "rows" = some (.arr (rows.map .obj))
  ids : Identified rows
  others : ∀ key value, key ≠ "rows" → members.lookup key = some value →
    fields.lookup key = some (typed value)
  exact_ : plain → setField "rows" (.arr (shown rows)) fields = typedFields members ∧
    ∀ f ∈ members, named f.1 = true

theorem mapM_asRow (rows : List Fields) : (rows.map Json.obj).mapM asRow = some rows := by
  induction rows with
  | nil => rfl
  | cons row rows ih => simp [List.mapM_cons, asRow, ih]

/-- The page the hub decodes keeps the rows and forgets the members its schema does not name. -/
theorem pageOf_eq {members : Fields} {rows : List Fields} {page : Page}
    (hrows : members.lookup "rows" = some (.arr (rows.map .obj)))
    (hpage : pageOf (.obj members) = some page) :
    page.rows = rows ∧ page.fields = members.filter fun f => named f.1 := by
  rw [pageOf, hrows, recordsOf, mapM_asRow, Option.bind_some] at hpage
  obtain ⟨more, -, rfl⟩ := Option.map_eq_some_iff.1 hpage
  exact ⟨rfl, rfl⟩

theorem lookup_named (key : String) (fields : Fields) :
    (fields.filter fun f => named f.1).lookup key = if named key then fields.lookup key else none := by
  induction fields with
  | nil => simp
  | cons f fields ih =>
    obtain ⟨k, v⟩ := f
    by_cases heq : key = k
    · subst heq
      cases hk : named key <;> simp [hk, ih]
    · cases hk : named k <;> simp [hk, lookup_field, heq, ih]

/-- A page with other rows, after one application. -/
theorem PageSim.withRows {plain : Bool} {fields members : Fields} {rows rows' : List Fields}
    {page : Page} (h : PageSim plain fields members rows) (hpage : pageOf (.obj members) = some page)
    (hids : Identified rows') : ∃ members', page.withRows rows' = .obj members' ∧
      PageSim plain fields members' rows' := by
  obtain ⟨-, hfields⟩ := pageOf_eq h.rows_eq hpage
  refine ⟨_, rfl, ?_, hids, ?_, ?_⟩
  · rw [lookup_setField, if_pos rfl]
  · intro key value hkey hlookup
    rw [lookup_setField, if_neg hkey, hfields, lookup_named] at hlookup
    split_ifs at hlookup
    exact h.others key value hkey hlookup
  · intro hplain
    obtain ⟨hexact, hnamed⟩ := h.exact_ hplain
    have hall : (members.filter fun f => named f.1) = members := List.filter_eq_self.2 hnamed
    rw [hfields, hall]
    constructor
    · rw [typedFields_setField, ← hexact, setField_setField, typed_arr, shown, List.map_map]
      rfl
    · intro f hf
      rcases mem_setField hf with hkey | hmem
      · rw [hkey]
        decide
      · exact hnamed f hmem

/-- A row as a `get` answers it. -/
def SingleRow (target : String) (row : Fields) : Prop :=
  row.lookup "id" = some (.str target) ∧ ∀ items, row.lookup "rows" ≠ some (.arr items)

/-- An answer of the shape its read has. -/
def Formed (S : Strategy C) (work : Json) : Prop :=
  match S.shape with
  | .get => work = .null ∨ ∃ row, work = .obj row ∧ SingleRow S.target row
  | .page => ∃ members rows, work = .obj members ∧
      members.lookup "rows" = some (.arr (rows.map .obj)) ∧ Identified rows ∧
      (S.plain = true → ∀ f ∈ members, named f.1 = true)
  | .other => True

/-- A captured row as a view of the read shows it. -/
def Apt (S : Strategy C) (c : C) (row : Option Fields) : Prop :=
  (∀ r ∈ row, r.lookup "id" = some (.str (S.id c))) ∧
    (S.shape = .get → S.id c = S.target ∧ ∀ r ∈ row, SingleRow S.target r)

/-- What the page shows of the hub's answer: the answer, but for members of a page that the hub
forgot. -/
structure Shown (S : Strategy C) (server work : Json) : Prop where
  exact_ : S.shape ≠ .page ∨ S.plain = true → server = typed work
  members : S.shape = .page → ∃ fields members, server = .obj fields ∧ work = .obj members ∧
    ∀ key value, members.lookup key = some value → fields.lookup key = some (typed value)

/-- The state of `patched` while the hub works on a value. -/
def Follows (S : Strategy C) (st : Option Fields × List Json) (work : Json) : Prop :=
  match S.shape with
  | .get => work = .null ∧ st = (none, []) ∨
      ∃ row, work = .obj row ∧ SingleRow S.target row ∧ st = (none, [typed (.obj row)])
  | .page => ∃ fields members rows, work = .obj members ∧ st = (some fields, shown rows) ∧
      PageSim S.plain fields members rows
  | .other => st = opened (typed work)

theorem shown_typed {work : Json} (h : Formed S work) : Shown S (typed work) work := by
  refine ⟨fun _ => rfl, ?_⟩
  intro hshape
  simp only [Formed, hshape] at h
  obtain ⟨members, rows, rfl, hrows, -⟩ := h
  refine ⟨_, members, typed_obj "rows" (by decide) (by simp [hrows]), rfl, ?_⟩
  intro key value hlookup
  rw [lookup_typedFields, hlookup]
  rfl

theorem typed_ne_arr {value : Json} {items : List Json} (h : typed value = .arr items) :
    ∃ items', value = .arr items' := by
  cases value with
  | arr items' => exact ⟨items', rfl⟩
  | obj fields =>
    rw [typed] at h
    rcases reviveWire_eq (typedFields fields) with ⟨text, hdec⟩ | hobj
    · rw [hdec] at h
      cases h
    · rw [hobj] at h
      cases h
  | _ => simp [typed] at h

theorem opened_single {target : String} {row : Fields} (h : SingleRow target row) :
    opened (typed (.obj row)) = (none, [typed (.obj row)]) := by
  obtain ⟨htyped, -⟩ := typed_row h.1
  rw [htyped, opened]
  split
  · next items hitems =>
    rw [lookup_typedFields, Option.map_eq_some_iff] at hitems
    obtain ⟨value, hvalue, harr⟩ := hitems
    obtain ⟨items', rfl⟩ := typed_ne_arr harr
    exact absurd hvalue (h.2 items')
  · rfl

/-- `patched` starts from what the page shows. -/
theorem follows_opened {server work : Json} (hformed : Formed S work) (h : Shown S server work) :
    Follows S (opened server) work := by
  cases hshape : S.shape with
  | get =>
    simp only [Formed, Follows, hshape] at hformed ⊢
    rw [h.exact_ (.inl (by simp [hshape]))]
    rcases hformed with rfl | ⟨row, rfl, hrow⟩
    · exact .inl ⟨rfl, rfl⟩
    · exact .inr ⟨row, rfl, hrow, opened_single hrow⟩
  | page =>
    simp only [Formed, Follows, hshape] at hformed ⊢
    obtain ⟨members, rows, rfl, hrows, hids, hnamed⟩ := hformed
    obtain ⟨fields, _, rfl, hmembers, hothers⟩ := h.members hshape
    cases hmembers
    have hshown := hothers "rows" _ hrows
    rw [typed_arr, List.map_map] at hshown
    refine ⟨fields, members, rows, rfl, ?_, hrows, hids, fun key value _ => hothers key value, ?_⟩
    · rw [opened, hshown]
      rfl
    · intro hplain
      have hexact := h.exact_ (.inr hplain)
      rw [typed_obj "rows" (by decide) (by simp [hrows]), Json.obj.injEq] at hexact
      refine ⟨?_, hnamed hplain⟩
      rw [← hexact]
      exact setField_self hshown
  | other =>
    simp only [Follows, hshape]
    rw [h.exact_ (.inl (by simp [hshape]))]

/-- One row applied by the hub, and its ops by the page. -/
theorem follows_apply {st : Option Fields × List Json} {work work' : Json} {c : C}
    {row : Option Fields} {ops : List (PatchOp Json Fields)} (hapt : Apt S c row)
    (h : Follows S st work) (happly : apply S work c row = some (work', ops)) :
    ∃ st', (ops.map typedOp).foldlM patchOp st = some st' ∧ Follows S st' work' := by
  cases hstatus : S.status c with
  | some status =>
    obtain ⟨hshape, hplain⟩ := S.transcript c (by simp [hstatus])
    simp only [Follows, hshape] at h ⊢
    -- a change of status sets one member of the transcript, and its rows stay
    obtain ⟨fields, members, rows, rfl, rfl, hsim⟩ := h
    cases status with
    | none => simp [apply, hstatus] at happly
    | some status =>
      simp only [apply, hstatus] at happly
      cases happly
      refine ⟨_, rfl, _, _, rows, rfl, rfl, ?_, hsim.ids, ?_, by simp [hplain]⟩
      · rw [lookup_setField, if_neg (by decide), hsim.rows_eq]
      · intro key value hkey hlookup
        rw [lookup_setField] at hlookup ⊢
        split_ifs at hlookup ⊢ with hstat
        · cases hlookup
          simp [typed]
        · exact hsim.others key value hkey hlookup
  | none =>
    simp only [apply, hstatus] at happly
    cases hshape : S.shape with
    | get =>
      obtain ⟨hid, hrow⟩ := hapt.2 hshape
      simp only [Follows, hshape] at h happly ⊢
      cases row with
      | none =>
        rcases h with ⟨rfl, rfl⟩ | ⟨old, rfl, hold, rfl⟩
        · cases happly
          exact ⟨_, rfl, .inl ⟨rfl, rfl⟩⟩
        · cases happly
          have hremove := patch_remove (identified_single hold.1) S.target none
          refine ⟨(none, []), ?_, .inl ⟨rfl, rfl⟩⟩
          rw [hid]
          simpa [shown, hasId_iff.2 hold.1] using hremove
      | some row =>
        have hrow := hrow row rfl
        dsimp only at happly
        -- a row that is what the hub holds makes no op
        split_ifs at happly with hsame
        · cases happly
          exact ⟨st, rfl, h⟩
        · cases happly
          refine ⟨(none, [typed (.obj row)]), ?_, .inr ⟨row, rfl, hrow, rfl⟩⟩
          rcases h with ⟨rfl, rfl⟩ | ⟨old, rfl, hold, rfl⟩
          · have hnone : Identified [] := ⟨by simp, by simp⟩
            exact (patch_upsert hnone hrow.1 none (Nat.zero_le _)).1
          · have hupsert := (patch_upsert (identified_single hold.1) hrow.1 none (Nat.zero_le _)).1
            simpa [shown, hasId_iff.2 hold.1] using hupsert
    | page =>
      simp only [Follows, hshape] at h happly ⊢
      obtain ⟨fields, members, rows, rfl, rfl, hsim⟩ := h
      obtain ⟨page, hpage, happly⟩ := Option.bind_eq_some_iff.1 happly
      obtain ⟨hrows, -⟩ := pageOf_eq hsim.rows_eq hpage
      obtain ⟨rows', rfl, hids, hpatch⟩ :=
        applyPage_patched (by rw [hrows]; exact hsim.ids) hapt.1 happly (some fields)
      obtain ⟨members', hmembers, hsim'⟩ := hsim.withRows hpage hids
      rw [hrows] at hpatch
      exact ⟨_, hpatch, fields, members', rows', hmembers, rfl, hsim'⟩
    | other => simp [hshape] at happly

/-- `patched` ends with what the page shows of the hub's value. -/
theorem follows_closed {st : Option Fields × List Json} {work : Json} (h : Follows S st work)
    (hshape : S.shape ≠ .other) : ∃ server, closed st = some server ∧ Shown S server work ∧
      Formed S work := by
  cases hs : S.shape with
  | get =>
    simp only [Follows, hs] at h
    rcases h with ⟨rfl, rfl⟩ | ⟨row, rfl, hrow, rfl⟩
    · refine ⟨.null, rfl, ⟨fun _ => rfl, by simp [hs]⟩, ?_⟩
      simp [Formed, hs]
    · refine ⟨typed (.obj row), rfl, ⟨fun _ => rfl, by simp [hs]⟩, ?_⟩
      simp only [Formed, hs]
      exact .inr ⟨row, rfl, hrow⟩
  | page =>
    simp only [Follows, hs] at h
    obtain ⟨fields, members, rows, rfl, rfl, hsim⟩ := h
    refine ⟨_, rfl, ⟨?_, ?_⟩, ?_⟩
    · intro hplain
      have hplain : S.plain = true := by simpa [hs] using hplain
      rw [(hsim.exact_ hplain).1, typed_obj "rows" (by decide) (by simp [hsim.rows_eq])]
    · intro _
      refine ⟨_, members, rfl, rfl, ?_⟩
      intro key value hlookup
      rw [lookup_setField]
      split_ifs with hkey
      · subst hkey
        rw [hsim.rows_eq] at hlookup
        cases hlookup
        rw [typed_arr, List.map_map]
        rfl
      · exact hsim.others key value hkey hlookup
    · simp only [Formed, hs]
      exact ⟨members, rows, rfl, hsim.rows_eq, hsim.ids, fun hplain => (hsim.exact_ hplain).2⟩
  | other => exact absurd hs hshape

end Follow

end Norbital.Bolt.Live

import Norbital.Std.Sheet

/-!
# Sheets read again

What `decode` of `std/src/sheet.ts` gives is given again by `decode` of its `encode`, column by
column, line by line and table by table, and when it is not.
-/

namespace Norbital.Std.Sheet

open Lib

/-- A specification: each column has a name and headers of its own, with no blanks around them,
and none is `__proto__`, which an object does not keep. -/
structure Spec where
  cols : List (String × ColumnSpec)
  names : (cols.map Prod.fst).Nodup
  headers : ((columnsOf cols).flatMap headersOf).Nodup
  trimmed : ∀ c ∈ cols, trim c.1.toList = c.1.toList
  ordinary : ∀ c ∈ cols, c.1 ≠ "__proto__"

theorem places_append (header : List String) (h : String) : places (header ++ [h]) =
    if h = "" then places header else put h header.length (places header) := by
  rw [places, List.zipIdx_append, List.foldl_append]
  simp [places]

theorem lookup_places_blank (header : List String) : (places header).lookup "" = none := by
  induction header using List.reverseRecOn with
  | nil => rfl
  | append_singleton header h ih =>
    rw [places_append]
    split_ifs with hblank
    · exact ih
    · rw [lookup_put, beq_false_of_ne (Ne.symm hblank), if_neg Bool.false_ne_true, ih]

/-- A header that no other shares is found where it stands. -/
theorem lookup_places {header : List String} (hnodup : header.Nodup) {k : String} (hk : k ≠ "") {i : ℕ}
    (h : header[i]? = some k) : (places header).lookup k = some i := by
  induction header using List.reverseRecOn with
  | nil => cases h
  | append_singleton header a ih =>
    rw [List.nodup_append] at hnodup
    obtain ⟨hnodup, -, hdisjoint⟩ := hnodup
    rw [places_append]
    obtain hlt | hge := lt_or_ge i header.length
    · rw [List.getElem?_append_left hlt] at h
      have hne : k ≠ a := hdisjoint k (List.mem_of_getElem? h) a (List.mem_singleton_self a)
      split_ifs
      · exact ih hnodup h
      · rw [lookup_put, beq_false_of_ne hne, if_neg Bool.false_ne_true, ih hnodup h]
    · rw [List.getElem?_append_right hge, List.getElem?_singleton] at h
      split_ifs at h with hzero
      obtain rfl := Option.some.inj h
      rw [if_neg hk, lookup_put, beq_self_eq_true, if_pos rfl]
      congr 1
      omega

theorem mem_of_mem_places {header : List String} {k : String} (h : k ∈ (places header).map Prod.fst) : k ∈ header := by
  induction header using List.reverseRecOn with
  | nil => cases h
  | append_singleton header a ih =>
    rw [places_append] at h
    split_ifs at h
    · exact List.mem_append_left _ (ih h)
    · obtain ⟨e, he, rfl⟩ := List.mem_map.mp h
      obtain rfl | he := mem_put he
      · exact List.mem_append_right _ (List.mem_singleton_self _)
      · exact List.mem_append_left _ (ih (List.mem_map_of_mem he))

theorem cellAt_blank (header : List String) (line : List Cell) : cellAt (places header) line "" = none := by
  rw [cellAt, lookup_places_blank]
  rfl

/-- A line's cell under a header. -/
theorem cellAt_of_mem {entries : List (String × Cell)} (hnodup : (entries.map Prod.fst).Nodup) {k : String} (hk : k ≠ "")
    {v : Cell} (h : (k, v) ∈ entries) :
    cellAt (places (entries.map Prod.fst)) (entries.map Prod.snd) k = some v := by
  obtain ⟨i, hi⟩ := List.mem_iff_getElem?.mp h
  have hheader : (entries.map Prod.fst)[i]? = some k := by rw [List.getElem?_map, hi]; rfl
  rw [cellAt, lookup_places hnodup hk hheader, Option.bind_some, List.getElem?_map, hi]
  rfl

section

variable {here there : List String} {line again : List Cell} {i j : ℕ}

/-- The cell under a header, where it holds a value, is one whose value is read again. -/
def KeptAt («at» : List (String × ℕ)) (line : List Cell) (column : String) (k : Scalar) : Prop :=
  ∀ v, cellAt «at» line column = some v → blank (some v) = false → Kept k v

/-- The cell of a value, or of none. -/
def outCell (x : Option Value) : Cell := (x.map out).getD .null

/-- A cell read without an error holds nothing, or a value. -/
theorem read_cases {«at» : List (String × ℕ)} {column : String} {k : Scalar} {optional : Bool} {x : Option Value}
    (h : read «at» i line column k optional = (x, [])) :
    (x = none ∧ blank (cellAt «at» line column) = true ∧ optional = true) ∨
      ∃ v y, x = some y ∧ cellAt «at» line column = some v ∧ blank (some v) = false ∧ cell k v = .ok y := by
  rw [read] at h
  cases hcell : cellAt «at» line column with
  | none =>
    rw [hcell] at h
    obtain ⟨rfl, hopt⟩ := Prod.mk.inj h
    refine .inl ⟨rfl, rfl, ?_⟩
    cases optional with
    | true => rfl
    | false => cases hopt
  | some v =>
    rw [hcell] at h
    by_cases hblank : blank (some v)
    · simp only [hblank, if_true] at h
      obtain ⟨rfl, hopt⟩ := Prod.mk.inj h
      refine .inl ⟨rfl, hblank, ?_⟩
      cases optional with
      | true => rfl
      | false => cases hopt
    · dsimp only at h
      rw [if_neg hblank] at h
      split at h
      · rename_i y hy
        exact .inr ⟨v, y, (Prod.mk.inj h).1.symm, rfl, eq_false_of_ne_true hblank, hy⟩
      · cases (Prod.mk.inj h).2

theorem read_of_blank {«at» : List (String × ℕ)} {column : String} {k : Scalar}
    (h : blank (cellAt «at» line column) = true) : read «at» i line column k true = (none, []) := by
  rw [read]
  cases hcell : cellAt «at» line column with
  | none => rfl
  | some v =>
    rw [hcell] at h
    simp only [h, if_true]

theorem read_of_some {«at» : List (String × ℕ)} {column : String} {k : Scalar} {optional : Bool} {v : Cell} {y : Value}
    (hcell : cellAt «at» line column = some v) :
    read «at» i line column k optional = (some y, []) ↔ blank (some v) = false ∧ cell k v = .ok y := by
  constructor
  · intro h
    obtain ⟨hnone, -⟩ | ⟨v', y', hy, hv, hblank, hread⟩ := read_cases h
    · cases hnone
    · obtain rfl := Option.some.inj (hcell.symm.trans hv)
      obtain rfl := Option.some.inj hy
      exact ⟨hblank, hread⟩
  · rintro ⟨hblank, hread⟩
    rw [read, hcell]
    simp only [hblank, hread, Bool.false_eq_true, if_false]

/-- A value is read again from its cell just when it is kept. -/
theorem read_again_iff {column : String} {k : Scalar} {optional : Bool} {x : Option Value}
    (h : read (places here) i line column k optional = (x, []))
    (hcell : column ≠ "" → cellAt (places there) again column = some (outCell x)) :
    read (places there) j again column k optional = (x, []) ↔ KeptAt (places here) line column k := by
  obtain ⟨rfl, hblank, rfl⟩ | ⟨v, y, rfl, hv, hblank, hread⟩ := read_cases h
  · refine iff_of_true (read_of_blank ?_) ?_
    · by_cases hcolumn : column = ""
      · rw [hcolumn, cellAt_blank]
        rfl
      · rw [hcell hcolumn]
        rfl
    · intro v hv hfilled
      rw [hv, hfilled] at hblank
      cases hblank
  · have hcolumn : column ≠ "" := by
      rintro rfl
      rw [cellAt_blank] at hv
      cases hv
    rw [read_of_some (hcell hcolumn)]
    refine (settled_iff hblank hread).trans ⟨fun hkept w hw _ => ?_, fun hall => hall v hv hblank⟩
    exact Option.some.inj (hv.symm.trans hw) ▸ hkept

end

/-- The cells whose columns read them again. -/
def Column.Kept («at» : List (String × ℕ)) (line : List Cell) (c : Column) : Prop :=
  match c.kind with
  | none =>
    blank (cellAt «at» line (c.name ++ ".from")) = false →
      KeptAt «at» line (c.name ++ ".from") .date ∧ KeptAt «at» line (c.name ++ ".to") .date
  | some k => KeptAt «at» line c.name k

/-- The cell a column's value begins with holds a value. -/
def Column.Filled («at» : List (String × ℕ)) (line : List Cell) (c : Column) : Prop :=
  match c.kind with
  | none => blank (cellAt «at» line (c.name ++ ".from")) = false
  | some _ => blank (cellAt «at» line c.name) = false

theorem day_of_read {«at» : List (String × ℕ)} {line : List Cell} {i : ℕ} {column : String} {optional : Bool} {y : Value}
    (h : read «at» i line column .date optional = (some y, [])) : y = .text y.day := by
  obtain ⟨hnone, -⟩ | ⟨v, y', hy, -, -, hread⟩ := read_cases h
  · cases hnone
  · obtain rfl := Option.some.inj hy
    obtain ⟨s, -, rfl⟩ := Fallible.map_eq_ok.mp hread
    rfl

theorem map_day_of_read {«at» : List (String × ℕ)} {line : List Cell} {i : ℕ} {column : String} {optional : Bool}
    {x : Option Value} (h : read «at» i line column .date optional = (x, [])) :
    (x.map Value.day).map Value.text = x := by
  cases x with
  | none => rfl
  | some y => rw [Option.map_some, Option.map_some, ← day_of_read h]

section

variable {here there : List String} {line again : List Cell} {i j : ℕ} {c : Column} {entry : Option Entry} {r : Row}

/-- A period column is read without an error when both its days are, in their order. -/
theorem readColumn_period_iff {«at» : List (String × ℕ)} (hkind : c.kind = none) :
    readColumn «at» i line c = (entry, []) ↔ ∃ first last,
      read «at» i line (c.name ++ ".from") .date c.optional = (first, []) ∧
        read «at» i line (c.name ++ ".to") .date true = (last, []) ∧
        (∀ f ∈ first, ∀ l ∈ last, ¬ l.day < f.day) ∧
        entry = first.map fun first => .period ⟨first.day, last.map Value.day⟩ := by
  rw [readColumn, hkind]
  dsimp only
  generalize read «at» i line (c.name ++ ".from") .date c.optional = x
  generalize read «at» i line (c.name ++ ".to") .date true = y
  obtain ⟨first, errors⟩ := x
  obtain ⟨last, errors'⟩ := y
  constructor
  · intro h
    obtain ⟨hentry, herrors⟩ := Prod.mk.inj h
    obtain ⟨hreads, hends⟩ := List.append_eq_nil_iff.mp herrors
    obtain ⟨hfirst, hlast⟩ := List.append_eq_nil_iff.mp hreads
    refine ⟨first, last, Prod.ext rfl hfirst, Prod.ext rfl hlast, ?_, hentry.symm⟩
    rintro f rfl l rfl hlt
    dsimp only at hends
    rw [if_pos hlt] at hends
    cases hends
  · rintro ⟨first', last', hfirst, hlast, horder, rfl⟩
    obtain ⟨rfl, rfl⟩ := Prod.mk.inj hfirst
    obtain ⟨rfl, rfl⟩ := Prod.mk.inj hlast
    refine Prod.ext rfl ?_
    cases first with
    | none => rfl
    | some f =>
      cases last with
      | none => rfl
      | some l =>
        dsimp only
        rw [if_neg (horder f rfl l rfl)]
        rfl

theorem readColumn_scalar {«at» : List (String × ℕ)} {k : Scalar} (hkind : c.kind = some k)
    (h : readColumn «at» i line c = (entry, [])) : ∃ x, read «at» i line c.name k c.optional = (x, []) ∧
      entry = x.map .one := by
  rw [readColumn, hkind] at h
  obtain ⟨hentry, herrors⟩ := Prod.mk.inj h
  exact ⟨_, Prod.ext rfl herrors, hentry.symm⟩

theorem outColumn_scalar {k : Scalar} {x : Option Value} (hkind : c.kind = some k)
    (hr : r.lookup c.name = some (x.map .one)) : outColumn r c = [outCell x] := by
  rw [outColumn, hkind, hr]
  cases x <;> rfl

theorem outColumn_period {first last : Option Value} (hkind : c.kind = none)
    (hr : r.lookup c.name = some (first.map fun first => .period ⟨first.day, last.map Value.day⟩)) :
    outColumn r c = [(first.map fun first => Cell.text first.day).getD .null,
      ((first.bind fun _ => last).map fun last => Cell.text last.day).getD .null] := by
  rw [outColumn, hkind, hr]
  cases first with
  | none => rfl
  | some first => cases last <;> rfl

theorem length_outColumn (r : Row) (c : Column) : (headersOf c).length = (outColumn r c).length := by
  rw [headersOf, outColumn]
  cases c.kind with
  | none => dsimp only; split <;> rfl
  | some k => dsimp only; split <;> rfl

/-- A column is read again as it was just when its cells are kept. -/
theorem readColumn_again_iff (h : readColumn (places here) i line c = (entry, [])) (hr : r.lookup c.name = some entry)
    (hcells : ∀ k v, (k, v) ∈ (headersOf c).zip (outColumn r c) → k ≠ "" → cellAt (places there) again k = some v) :
    readColumn (places there) j again c = (entry, []) ↔ c.Kept (places here) line := by
  cases hkind : c.kind with
  | some k =>
    obtain ⟨x, hread, rfl⟩ := readColumn_scalar hkind h
    rw [outColumn_scalar hkind hr, headersOf, hkind] at hcells
    have hcell : c.name ≠ "" → cellAt (places there) again c.name = some (outCell x) :=
      hcells _ _ (List.mem_singleton_self _)
    rw [Column.Kept, hkind]
    dsimp only
    rw [← read_again_iff (j := j) hread hcell]
    constructor
    · intro hagain
      obtain ⟨x', hread', hx⟩ := readColumn_scalar hkind hagain
      rwa [Option.map_injective (fun _ _ => Entry.one.inj) hx]
    · intro hagain
      rw [readColumn, hkind]
      dsimp only
      rw [hagain]
  | none =>
    obtain ⟨first, last, hfirst, hlast, horder, rfl⟩ := (readColumn_period_iff hkind).mp h
    rw [outColumn_period hkind hr, headersOf, hkind] at hcells
    have hfrom := hcells _ _ (List.mem_cons_self)
    have hto := hcells _ _ (List.mem_cons_of_mem _ (List.mem_singleton_self _))
    rw [Column.Kept, hkind]
    dsimp only
    cases first with
    | none =>
      obtain ⟨-, hblank, hopt⟩ | ⟨v, y, hy, -⟩ := read_cases hfirst
      · -- with no first day the period is none, whatever its last
        have hnull : ∀ column, (column ≠ "" → cellAt (places there) again column = some .null) →
            blank (cellAt (places there) again column) = true := by
          intro column hcell
          by_cases hcolumn : column = ""
          · rw [hcolumn, cellAt_blank]
            rfl
          · rw [hcell hcolumn]
            rfl
        refine iff_of_true ?_ fun hfilled => absurd (hblank.symm.trans hfilled) (by decide)
        refine (readColumn_period_iff hkind).mpr ⟨none, none, ?_, read_of_blank (hnull _ hto), nofun, rfl⟩
        rw [hopt]
        exact read_of_blank (hnull _ hfrom)
      · cases hy
    | some first =>
      -- a period is read again just when both its days are
      have hfilled : blank (cellAt (places here) line (c.name ++ ".from")) = false := by
        obtain ⟨hnone, -⟩ | ⟨v, y, -, hv, hfilled, -⟩ := read_cases hfirst
        · cases hnone
        · rw [hv, hfilled]
      have hfirst' : Cell.text first.day = outCell (some first) := by
        rw [day_of_read hfirst]
        rfl
      have hlast' : ((last.map fun last => Cell.text last.day).getD .null) = outCell last := by
        rw [← map_day_of_read hlast]
        cases last <;> rfl
      rw [← read_again_iff (j := j) hfirst fun hne => (hfrom hne).trans (congrArg some hfirst'),
        ← read_again_iff (j := j) hlast fun hne => (hto hne).trans (congrArg some hlast'), readColumn_period_iff hkind]
      constructor
      · rintro ⟨first', last', hread, hread', -, heq⟩ -
        cases first' with
        | none => cases heq
        | some first' =>
          obtain ⟨hday, hdays⟩ := DatePeriod.mk.inj (Entry.period.inj (Option.some.inj heq))
          have hsame : first' = first := by rw [day_of_read hread, day_of_read hfirst, hday]
          have hsame' : last' = last := by rw [← map_day_of_read hread', ← map_day_of_read hlast, hdays]
          exact ⟨hsame ▸ hread, hsame' ▸ hread'⟩
      · intro hall
        obtain ⟨hread, hread'⟩ := hall hfilled
        exact ⟨some first, last, hread, hread', horder, rfl⟩

/-- A column with a value has a cell that holds one; without, its cells are empty. -/
theorem filled_iff (h : readColumn (places here) i line c = (entry, [])) : c.Filled (places here) line ↔ entry ≠ none := by
  have hread : ∀ {column : String} {k : Scalar} {x : Option Value},
      read (places here) i line column k c.optional = (x, []) →
        (blank (cellAt (places here) line column) = false ↔ x ≠ none) := by
    intro column k x hread
    obtain ⟨rfl, hblank, -⟩ | ⟨v, y, rfl, hv, hfilled, -⟩ := read_cases hread
    · exact iff_of_false (fun hfilled => absurd (hblank.symm.trans hfilled) (by decide)) (fun hne => hne rfl)
    · exact iff_of_true (hv ▸ hfilled) nofun
  cases hkind : c.kind with
  | none =>
    obtain ⟨first, last, hfirst, -, -, rfl⟩ := (readColumn_period_iff hkind).mp h
    rw [Column.Filled, hkind]
    dsimp only
    rw [hread hfirst, ne_eq, ne_eq, Option.map_eq_none_iff]
  | some k =>
    obtain ⟨x, hx, rfl⟩ := readColumn_scalar hkind h
    rw [Column.Filled, hkind]
    dsimp only
    rw [hread hx, ne_eq, ne_eq, Option.map_eq_none_iff]

theorem outColumn_none (hr : r.lookup c.name = some none) : ∀ v ∈ outColumn r c, blank (some v) = true := by
  rw [outColumn, hr]
  cases c.kind with
  | none => simp [blank]
  | some k => simp [blank]

/-- A column read again with a value has a cell that holds one. -/
theorem exists_filled (hfilled : c.Filled (places there) again)
    (hcells : ∀ k v, (k, v) ∈ (headersOf c).zip (outColumn r c) → k ≠ "" → cellAt (places there) again k = some v) :
    ∃ v ∈ outColumn r c, blank (some v) = false := by
  obtain ⟨k, ks, hk, hblank⟩ : ∃ k ks, headersOf c = k :: ks ∧ blank (cellAt (places there) again k) = false := by
    rw [Column.Filled] at hfilled
    rw [headersOf]
    cases hkind : c.kind with
    | none =>
      rw [hkind] at hfilled
      exact ⟨_, _, rfl, hfilled⟩
    | some k =>
      rw [hkind] at hfilled
      exact ⟨_, _, rfl, hfilled⟩
  have hlength := length_outColumn r c
  rw [hk] at hlength hcells
  cases hcolumn : outColumn r c with
  | nil =>
    rw [hcolumn] at hlength
    cases hlength
  | cons v vs =>
    rw [hcolumn] at hcells
    have hne : k ≠ "" := by
      rintro rfl
      rw [cellAt_blank] at hblank
      cases hblank
    rw [hcells k v List.mem_cons_self hne] at hblank
    exact ⟨v, List.mem_cons_self, hblank⟩

end

/-- Each column of a line is kept, and one holds a value. -/
structure LineKept (columns : List Column) («at» : List (String × ℕ)) (line : List Cell) : Prop where
  kept : ∀ c ∈ columns, c.Kept «at» line
  filled : ∃ c ∈ columns, c.Filled «at» line

theorem blankLine_iff {line : List Cell} : blankLine line ↔ ∀ c ∈ line, blank (some c) = true := List.all_eq_true

theorem readLine_eq_iff {«at» : List (String × ℕ)} {columns : List Column} {i : ℕ} {line : List Cell} {r : Row} :
    readLine «at» columns i line = (r, []) ↔
      r = (columns.map fun c => (c.name, (readColumn «at» i line c).1)) ∧
        ∀ c ∈ columns, (readColumn «at» i line c).2 = [] := by
  rw [readLine, Prod.mk.injEq, List.flatMap_eq_nil_iff]
  exact and_congr_left' eq_comm

section

variable {columns : List Column} {here : List String} {line : List Cell} {i j : ℕ} {r : Row}

/-- The cells of a line under their headers. -/
def entriesOf (columns : List Column) (r : Row) : List (String × Cell) :=
  columns.flatMap fun c => (headersOf c).zip (outColumn r c)

theorem entriesOf_fst (columns : List Column) (r : Row) : (entriesOf columns r).map Prod.fst = columns.flatMap headersOf := by
  rw [entriesOf, List.map_flatMap]
  exact congrArg (List.flatMap · columns) (funext fun c => List.map_fst_zip (length_outColumn r c).le)

theorem entriesOf_snd (columns : List Column) (r : Row) :
    (entriesOf columns r).map Prod.snd = columns.flatMap (outColumn r) := by
  rw [entriesOf, List.map_flatMap]
  exact congrArg (List.flatMap · columns) (funext fun c => List.map_snd_zip (length_outColumn r c).ge)

/-- The line of a row is read as the row just when the line it was read from is kept. -/
theorem readLine_again_iff (hnames : (columns.map Column.name).Nodup) (hheaders : (columns.flatMap headersOf).Nodup)
    (h : readLine (places here) columns i line = (r, [])) :
    (¬ blankLine (columns.flatMap (outColumn r)) ∧
      readLine (places (columns.flatMap headersOf)) columns j (columns.flatMap (outColumn r)) = (r, [])) ↔
      LineKept columns (places here) line := by
  obtain ⟨hr, hclean⟩ := readLine_eq_iff.mp h
  have hlookup : ∀ c ∈ columns, r.lookup c.name = some (readColumn (places here) i line c).1 := by
    intro c hc
    refine lookup_some_of_mem ?_ ?_
    · rw [hr, List.map_map]
      exact hnames
    · rw [hr]
      exact List.mem_map_of_mem hc
  have hread : ∀ c ∈ columns, readColumn (places here) i line c = ((readColumn (places here) i line c).1, []) :=
    fun c hc => Prod.ext rfl (hclean c hc)
  have hcells : ∀ c ∈ columns, ∀ k v, (k, v) ∈ (headersOf c).zip (outColumn r c) → k ≠ "" →
      cellAt (places (columns.flatMap headersOf)) (columns.flatMap (outColumn r)) k = some v := by
    intro c hc k v hkv hk
    rw [← entriesOf_fst columns r, ← entriesOf_snd columns r]
    exact cellAt_of_mem (by rwa [entriesOf_fst]) hk (List.mem_flatMap.mpr ⟨c, hc, hkv⟩)
  have hagain := fun c hc => readColumn_again_iff (j := j) (hread c hc) (hlookup c hc) (hcells c hc)
  constructor
  · rintro ⟨hblank, hline⟩
    obtain ⟨hr', hclean'⟩ := readLine_eq_iff.mp hline
    have hsame := List.map_inj_left.mp (hr.symm.trans hr')
    refine ⟨fun c hc => (hagain c hc).mp (Prod.ext (congrArg Prod.snd (hsame c hc)).symm (hclean' c hc)), ?_⟩
    -- with every column empty the line is blank
    by_contra hempty
    refine hblank (blankLine_iff.mpr fun v hv => ?_)
    obtain ⟨c, hc, hv⟩ := List.mem_flatMap.mp hv
    have hnone : (readColumn (places here) i line c).1 = none := by
      by_contra hne
      exact hempty ⟨c, hc, (filled_iff (hread c hc)).mpr hne⟩
    exact outColumn_none (hnone ▸ hlookup c hc) v hv
  · rintro ⟨hkept, c, hc, hfilled⟩
    have hcolumn := fun c hc => (hagain c hc).mpr (hkept c hc)
    refine ⟨fun hblank => ?_, readLine_eq_iff.mpr ⟨?_, fun c hc => congrArg Prod.snd (hcolumn c hc)⟩⟩
    · have hvalue := (filled_iff (hread c hc)).mp hfilled
      obtain ⟨v, hv, hv'⟩ := exists_filled ((filled_iff (hcolumn c hc)).mpr hvalue) (hcells c hc)
      have := blankLine_iff.mp hblank v (List.mem_flatMap.mpr ⟨c, hc, hv⟩)
      exact absurd (this.symm.trans hv') (by decide)
    · refine hr.trans (List.map_congr_left fun c hc => ?_)
      rw [hcolumn c hc]

end

/-- The lines that are not blank are read one after another. -/
theorem forall₂_of_readLines {«at» : List (String × ℕ)} {columns : List Column} {i : ℕ} {lines : List (List Cell)}
    {rows : List Row} (h : readLines «at» columns i lines = (rows, [])) :
    List.Forall₂ (fun line r => ∃ i, readLine «at» columns i line = (r, []))
      (lines.filter fun line => ¬ blankLine line) rows := by
  induction lines generalizing i rows with
  | nil =>
    obtain rfl := (Prod.mk.inj h).1
    exact .nil
  | cons line lines ih =>
    rw [readLines] at h
    dsimp only at h
    by_cases hblank : blankLine line
    · rw [if_pos hblank] at h
      rw [List.filter_cons_of_neg (by simpa using hblank)]
      exact ih h
    · rw [if_neg hblank] at h
      rw [List.filter_cons_of_pos (by simpa using hblank)]
      obtain ⟨hrows, herrors⟩ := Prod.mk.inj h
      obtain ⟨hfound, hrest⟩ := List.append_eq_nil_iff.mp herrors
      rw [hfound, List.isEmpty_nil, if_pos rfl] at hrows
      rw [← hrows]
      exact .cons ⟨i, Prod.ext rfl hfound⟩ (ih (Prod.ext rfl hrest))

theorem length_readLines («at» : List (String × ℕ)) (columns : List Column) (i : ℕ) (lines : List (List Cell)) :
    (readLines «at» columns i lines).1.length ≤ lines.length := by
  induction lines generalizing i with
  | nil => exact le_rfl
  | cons line lines ih =>
    have hrest := ih (i + 1)
    rw [readLines]
    dsimp only
    split_ifs
    · exact hrest.trans (Nat.le_succ _)
    · exact Nat.succ_le_succ hrest
    · exact hrest.trans (Nat.le_succ _)

/-- The lines of rows are read as the rows when none is blank and each is read as its row. -/
theorem readLines_cons_iff {«at» : List (String × ℕ)} {columns : List Column} {i : ℕ} {line : List Cell}
    {lines : List (List Cell)} {r : Row} {rows : List Row} (hlength : lines.length = rows.length) :
    readLines «at» columns i (line :: lines) = (r :: rows, []) ↔
      (¬ blankLine line ∧ readLine «at» columns i line = (r, [])) ∧
        readLines «at» columns (i + 1) lines = (rows, []) := by
  rw [readLines]
  dsimp only
  by_cases hblank : blankLine line
  · rw [if_pos hblank]
    refine iff_of_false (fun h => ?_) fun h => h.1.1 hblank
    have hle := length_readLines «at» columns (i + 1) lines
    rw [(Prod.mk.inj h).1, List.length_cons] at hle
    omega
  · rw [if_neg hblank]
    constructor
    · intro h
      obtain ⟨hrows, herrors⟩ := Prod.mk.inj h
      obtain ⟨hfound, hrest⟩ := List.append_eq_nil_iff.mp herrors
      rw [hfound, List.isEmpty_nil, if_pos rfl] at hrows
      obtain ⟨hrow, hrows⟩ := List.cons.inj hrows
      exact ⟨⟨hblank, Prod.ext hrow hfound⟩, Prod.ext hrows hrest⟩
    · rintro ⟨⟨-, hline⟩, hlines⟩
      rw [hline, hlines]
      rfl

theorem normalise_name (name : String) (optional : Bool) (spec : ColumnSpec) : (normalise name optional spec).name = name := by
  induction spec generalizing optional with
  | optional spec ih => exact ih true
  | _ => rfl

namespace Spec

variable (spec : Spec)

def columns : List Column := columnsOf spec.cols

theorem nodup_name : (spec.columns.map Column.name).Nodup := by
  have hname : spec.columns.map Column.name = spec.cols.map Prod.fst := by
    rw [columns, columnsOf, List.map_map]
    exact List.map_congr_left fun c _ => normalise_name _ _ _
  rw [hname]
  exact spec.names

theorem trim_header {k : String} (h : k ∈ spec.columns.flatMap headersOf) : trim k.toList = k.toList := by
  obtain ⟨c, hc, hk⟩ := List.mem_flatMap.mp h
  obtain ⟨e, he, rfl⟩ := List.mem_map.mp hc
  have hname := spec.trimmed e he
  rw [headersOf, normalise_name] at hk
  split at hk
  · obtain rfl | hk := List.mem_cons.mp hk
    · rw [String.toList_append]
      exact trim_append hname (JsString.forall_of_all (by decide)) (by decide)
    · obtain rfl := List.mem_singleton.mp hk
      rw [String.toList_append]
      exact trim_append hname (JsString.forall_of_all (by decide)) (by decide)
  · obtain rfl := List.mem_singleton.mp hk
    exact hname

/-- The header written is the header read. -/
theorem headerOf_encode (rows : List Row) :
    headerOf ((encode rows spec.cols).head?.getD []) = spec.columns.flatMap headersOf := by
  rw [encode, List.head?_cons, Option.getD_some, headerOf, List.map_map]
  refine (List.map_congr_left fun k hk => ?_).trans (List.map_id _)
  have htrim := spec.trim_header hk
  show (if blank (some (.text k)) then "" else String.ofList (trim k.toList)) = k
  rw [blank, htrim, String.ofList_toList]
  split_ifs with hblank
  · rw [List.isEmpty_iff, String.toList_eq_nil_iff] at hblank
    exact hblank.symm
  · rfl

/-- A column is missing when its header is; one whose name is blank always is. -/
theorem headerErrors_encode {here : List String} (h : headerErrors spec.columns (places here) = []) :
    headerErrors spec.columns (places (spec.columns.flatMap headersOf)) = [] := by
  rw [headerErrors, List.append_eq_nil_iff, List.flatMap_eq_nil_iff] at h ⊢
  refine ⟨fun c hc => ?_, List.filterMap_eq_nil_iff.mpr fun k hk => if_pos (mem_of_mem_places hk)⟩
  refine List.filterMap_eq_nil_iff.mpr fun k hk => ?_
  by_cases hblank : k = ""
  · subst hblank
    have := List.filterMap_eq_nil_iff.mp (h.1 c hc) "" hk
    rwa [lookup_places_blank] at this ⊢
  · obtain ⟨i, hi⟩ := List.mem_iff_getElem?.mp (List.mem_flatMap.mpr ⟨c, hc, hk⟩)
    have hfound : (places (spec.columns.flatMap headersOf)).lookup k = some i := lookup_places spec.headers hblank hi
    rw [hfound]
    rfl

end Spec

theorem decode_eq_iff {cells : List (List Cell)} {cols : List (String × ColumnSpec)} {rows : List Row} :
    decode cells cols = (rows, []) ↔ headerErrors (columnsOf cols) (places (headerOf (cells.head?.getD []))) = [] ∧
      readLines (places (headerOf (cells.head?.getD []))) (columnsOf cols) 2 cells.tail = (rows, []) := by
  rw [decode]
  split_ifs with hheader
  · rw [and_iff_right (List.isEmpty_iff.mp hheader)]
  · refine iff_of_false (fun h => hheader ?_) fun h => hheader (List.isEmpty_iff.mpr h.1)
    rw [(Prod.mk.inj h).2]
    rfl

/-- A sheet of a day and a time. -/
def shifts : Spec where
  cols := [("day", .date), ("starts", .optional .time)]
  names := by decide
  headers := by decide
  trimmed := by decide
  ordinary := by decide

def shiftCells (day : ℤ) : List (List Cell) :=
  [[.text "day", .text " starts "], [.number (.finite (.ofInt day)), .number (.finite ⟨false, 5, -1, by decide⟩)]]

def shiftRow (day : String) : Row := [("day", some (.one (.text day))), ("starts", some (.one (.text "12:00")))]

-- an int's text that reads as `-0`
example : decode [[.text "n"], [.text "-0"]] [("n", .int)] = ([[("n", some (.one .minusZero))]], []) ∧
    decode (encode [[("n", some (.one .minusZero))]] [("n", .int)]) [("n", .int)] =
      ([[("n", some (.one (.int 0)))]], []) := by
  decide +kernel

end Norbital.Std.Sheet

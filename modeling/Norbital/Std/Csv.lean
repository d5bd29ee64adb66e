import Norbital.Lib.CodeUnits
import Mathlib.Tactic.SplitIfs

/-!
# CSV

`csvRows` and `csvOf` of `std/src/csv.ts`, over texts as lists of code units.
-/

namespace Norbital.Std

namespace Csv

def quote : CodeUnit := 34

def lf : CodeUnit := 10

def cr : CodeUnit := 13

end Csv

open Csv

/-- The variables of the loop of `csvRows`. -/
structure CsvReading where
  rows : List (List JsString)
  row : List JsString
  cell : JsString
  quoted : Bool
  rowStart : Nat
  deriving DecidableEq, Repr

namespace CsvReading

def start : CsvReading := ⟨[], [], [], false, 0⟩

variable (s : CsvReading)

def keep (ch : CodeUnit) : CsvReading := { s with cell := s.cell ++ [ch] }

def endCell : CsvReading := { s with row := s.row ++ [s.cell], cell := [] }

/-- The row ends before the unit `i`. -/
def endRow (i : Nat) : CsvReading :=
  { s with rows := s.rows ++ [s.row ++ [s.cell]], row := [], cell := [], rowStart := i }

end CsvReading

/-- The loop of `csvRows` at the unit `i`, with what is left of the text. -/
def csvLoop (delimiter : CodeUnit) : Nat → CsvReading → JsString → CsvReading
  | _, s, [] => s
  | i, s, ch :: rest =>
    if s.quoted then
      if ch = quote then
        match rest with
        | [] => { s with quoted := false }
        | next :: after =>
          if next = quote then csvLoop delimiter (i + 2) (s.keep quote) after
          else csvLoop delimiter (i + 1) { s with quoted := false } (next :: after)
      else csvLoop delimiter (i + 1) (s.keep ch) rest
    else if ch = quote then csvLoop delimiter (i + 1) { s with quoted := true } rest
    else if ch = delimiter then csvLoop delimiter (i + 1) s.endCell rest
    else if ch = lf then csvLoop delimiter (i + 1) (s.endRow (i + 1)) rest
    else if ch = cr then
      match rest with
      | [] => s.endRow (i + 1)
      | next :: after =>
        -- a line feed after a carriage return belongs to the same ending
        if next = lf then csvLoop delimiter (i + 2) (s.endRow (i + 2)) after
        else csvLoop delimiter (i + 1) (s.endRow (i + 1)) (next :: after)
    else csvLoop delimiter (i + 1) (s.keep ch) rest

def csvRows (text : JsString) (delimiter : CodeUnit) : List (List JsString) :=
  let s := csvLoop delimiter 0 .start text
  if s.rowStart < text.length then s.rows ++ [s.row ++ [s.cell]] else s.rows

/-- A cell given to `csvOf`; a number with the text `String` shows it as. -/
inductive CsvValue where
  | null
  | text (s : JsString)
  | number (shown : JsString)
  | bool (b : Bool)
  deriving DecidableEq, Repr

/-- `v === null ? '' : String(v)`. -/
def CsvValue.string : CsvValue → JsString
  | .null => []
  | .text s => s
  | .number shown => shown
  | .bool true => .ascii "true"
  | .bool false => .ascii "false"

/-- Whether a field is written in quotes. -/
def csvQuoted (delimiter : CodeUnit) (s : JsString) : Bool :=
  s.contains delimiter || s.any fun c => c == quote || c == cr || c == lf

/-- `s.replaceAll('"', '""')`. -/
def doubleQuotes (s : JsString) : JsString := s.flatMap fun c => if c = quote then [quote, quote] else [c]

def csvCell (delimiter : CodeUnit) (s : JsString) : JsString :=
  if csvQuoted delimiter s then quote :: doubleQuotes s ++ [quote] else s

def csvRow (delimiter : CodeUnit) (row : List CsvValue) : JsString :=
  [delimiter].intercalate (row.map fun v => csvCell delimiter v.string)

def csvOf (rows : List (List CsvValue)) (delimiter : CodeUnit) : JsString :=
  [cr, lf].intercalate (rows.map (csvRow delimiter))

/-- A character that separates cells or rows, and no quote. -/
def CsvSeparator (delimiter : CodeUnit) : Prop := delimiter ≠ quote ∧ delimiter ≠ cr ∧ delimiter ≠ lf

/-- A text after which a closing quote is one. -/
def Unquoted (rest : JsString) : Prop := rest.head? ≠ some quote

section Loop

variable {delimiter : CodeUnit} {i : Nat} {s : CsvReading}

/-- One unit of a text inside quotes. -/
theorem csvLoop_quoted (hs : s.quoted = true) (ch : CodeUnit) (rest : JsString) :
    csvLoop delimiter i s (ch :: rest) =
      if ch = quote then
        match rest with
        | [] => { s with quoted := false }
        | next :: after =>
          if next = quote then csvLoop delimiter (i + 2) (s.keep quote) after
          else csvLoop delimiter (i + 1) { s with quoted := false } (next :: after)
      else csvLoop delimiter (i + 1) (s.keep ch) rest := by
  rw [csvLoop.eq_def]
  exact if_pos hs

/-- One unit of a text outside quotes. -/
theorem csvLoop_outside (hs : s.quoted = false) (ch : CodeUnit) (rest : JsString) :
    csvLoop delimiter i s (ch :: rest) =
      if ch = quote then csvLoop delimiter (i + 1) { s with quoted := true } rest
      else if ch = delimiter then csvLoop delimiter (i + 1) s.endCell rest
      else if ch = lf then csvLoop delimiter (i + 1) (s.endRow (i + 1)) rest
      else if ch = cr then
        match rest with
        | [] => s.endRow (i + 1)
        | next :: after =>
          if next = lf then csvLoop delimiter (i + 2) (s.endRow (i + 2)) after
          else csvLoop delimiter (i + 1) (s.endRow (i + 1)) (next :: after)
      else csvLoop delimiter (i + 1) (s.keep ch) rest := by
  rw [csvLoop.eq_def]
  exact if_neg (Bool.eq_false_iff.1 hs)

theorem csvLoop_keep {ch : CodeUnit} (hs : s.quoted = true) (hch : ch ≠ quote) (rest : JsString) :
    csvLoop delimiter i s (ch :: rest) = csvLoop delimiter (i + 1) (s.keep ch) rest := by
  rw [csvLoop_quoted hs]
  exact if_neg hch

theorem csvLoop_doubled (hs : s.quoted = true) (rest : JsString) :
    csvLoop delimiter i s (quote :: quote :: rest) = csvLoop delimiter (i + 2) (s.keep quote) rest := by
  rw [csvLoop_quoted hs]
  exact (if_pos rfl).trans (if_pos rfl)

theorem csvLoop_close (hs : s.quoted = true) {rest : JsString} (hrest : Unquoted rest) :
    csvLoop delimiter i s (quote :: rest) = csvLoop delimiter (i + 1) { s with quoted := false } rest := by
  rw [csvLoop_quoted hs]
  refine (if_pos rfl).trans ?_
  cases rest with
  | nil => rfl
  | cons next after => exact if_neg fun h => hrest (congrArg some h)

theorem csvLoop_open (hs : s.quoted = false) (rest : JsString) :
    csvLoop delimiter i s (quote :: rest) = csvLoop delimiter (i + 1) { s with quoted := true } rest := by
  rw [csvLoop_outside hs]
  exact if_pos rfl

theorem csvLoop_delimiter (hs : s.quoted = false) (hd : CsvSeparator delimiter) (rest : JsString) :
    csvLoop delimiter i s (delimiter :: rest) = csvLoop delimiter (i + 1) s.endCell rest := by
  rw [csvLoop_outside hs]
  exact (if_neg hd.1).trans (if_pos rfl)

theorem csvLoop_crlf (hs : s.quoted = false) (hd : CsvSeparator delimiter) (rest : JsString) :
    csvLoop delimiter i s (cr :: lf :: rest) = csvLoop delimiter (i + 2) (s.endRow (i + 2)) rest := by
  rw [csvLoop_outside hs]
  calc
    _ = _ := if_neg (by decide)
    _ = _ := if_neg hd.2.1.symm
    _ = _ := if_neg (by decide)
    _ = _ := if_pos rfl
    _ = _ := if_pos rfl

theorem csvLoop_plain {ch : CodeUnit} (hs : s.quoted = false)
    (hch : ch ≠ quote ∧ ch ≠ delimiter ∧ ch ≠ lf ∧ ch ≠ cr) (rest : JsString) :
    csvLoop delimiter i s (ch :: rest) = csvLoop delimiter (i + 1) (s.keep ch) rest := by
  obtain ⟨hq, hd, hl, hr⟩ := hch
  rw [csvLoop_outside hs]
  calc
    _ = _ := if_neg hq
    _ = _ := if_neg hd
    _ = _ := if_neg hl
    _ = _ := if_neg hr

@[simp] theorem doubleQuotes_nil : doubleQuotes [] = [] := rfl

theorem doubleQuotes_quote (cell : JsString) : doubleQuotes (quote :: cell) = quote :: quote :: doubleQuotes cell := by
  rw [doubleQuotes, List.flatMap_cons, if_pos rfl]
  rfl

theorem doubleQuotes_cons {c : CodeUnit} (hc : c ≠ quote) (cell : JsString) :
    doubleQuotes (c :: cell) = c :: doubleQuotes cell := by
  rw [doubleQuotes, List.flatMap_cons, if_neg hc]
  rfl

/-- A field in quotes up to its closing quote. -/
theorem csvLoop_closing (hs : s.quoted = true) (cell : JsString) {rest : JsString} (hrest : Unquoted rest) :
    csvLoop delimiter i s (doubleQuotes cell ++ quote :: rest) =
      csvLoop delimiter (i + ((doubleQuotes cell).length + 1)) { s with cell := s.cell ++ cell, quoted := false } rest := by
  induction cell generalizing i s with
  | nil =>
    rw [doubleQuotes_nil, List.nil_append, csvLoop_close hs hrest, List.append_nil]
    rfl
  | cons c cell ih =>
    by_cases hc : c = quote
    · rw [hc, doubleQuotes_quote, List.cons_append, List.cons_append, csvLoop_doubled hs, @ih (i + 2) (s.keep quote) hs]
      simp only [CsvReading.keep, List.append_assoc, List.singleton_append, List.length_cons]
      congr 1
      omega
    · rw [doubleQuotes_cons hc, List.cons_append, csvLoop_keep hs hc, @ih (i + 1) (s.keep c) hs]
      simp only [CsvReading.keep, List.append_assoc, List.singleton_append, List.length_cons]
      congr 1
      omega

theorem plain_of_csvQuoted {c : CodeUnit} {cell : JsString} (h : csvQuoted delimiter (c :: cell) = false) :
    (c ≠ quote ∧ c ≠ delimiter ∧ c ≠ lf ∧ c ≠ cr) ∧ csvQuoted delimiter cell = false := by
  simp only [csvQuoted, List.contains_cons, List.any_cons, Bool.or_eq_false_iff, beq_eq_false_iff_ne] at h ⊢
  obtain ⟨⟨hd, hcontains⟩, ⟨⟨hq, hr⟩, hl⟩, hany⟩ := h
  exact ⟨⟨hq, hd.symm, hl, hr⟩, hcontains, hany⟩

/-- A field with nothing to quote. -/
theorem csvLoop_bare (hs : s.quoted = false) {cell : JsString} (hcell : csvQuoted delimiter cell = false) (rest : JsString) :
    csvLoop delimiter i s (cell ++ rest) = csvLoop delimiter (i + cell.length) { s with cell := s.cell ++ cell } rest := by
  induction cell generalizing i s with
  | nil => rw [List.nil_append, List.append_nil, List.length_nil, Nat.add_zero]
  | cons c cell ih =>
    obtain ⟨hc, hrest⟩ := plain_of_csvQuoted hcell
    rw [List.cons_append, csvLoop_plain hs hc, @ih (i + 1) (s.keep c) hs hrest]
    simp only [CsvReading.keep, List.append_assoc, List.singleton_append, List.length_cons]
    congr 1
    omega

theorem csvLoop_csvCell (hs : s.quoted = false) (cell : JsString) {rest : JsString} (hrest : Unquoted rest) :
    csvLoop delimiter i s (csvCell delimiter cell ++ rest) =
      csvLoop delimiter (i + (csvCell delimiter cell).length) { s with cell := s.cell ++ cell } rest := by
  cases hq : csvQuoted delimiter cell with
  | true =>
    rw [csvCell, if_pos hq, List.cons_append, List.cons_append, List.append_assoc, csvLoop_open hs,
      List.singleton_append, csvLoop_closing rfl cell hrest, ← hs]
    simp only [List.length_cons, List.length_append, List.length_nil]
    congr 1
    omega
  | false =>
    rw [csvCell, if_neg (Bool.eq_false_iff.1 hq)]
    exact csvLoop_bare hs hq rest

/-- The cells of the row being read, the one it stands in last. -/
def CsvReading.pending (s : CsvReading) : List JsString := s.row ++ [s.cell]

theorem unquoted_delimiter (hd : CsvSeparator delimiter) (rest : JsString) : Unquoted (delimiter :: rest) :=
  fun h => hd.1 (Option.some.inj h)

/-- A row's cells: they are what the reading has of the row when it comes to the row's end. -/
theorem csvLoop_cells (hd : CsvSeparator delimiter) (hs : s.quoted = false) (hcell : s.cell = []) {cells : List JsString}
    (hcells : cells ≠ []) {rest : JsString} (hrest : Unquoted rest) :
    ∃ s', csvLoop delimiter i s ([delimiter].intercalate (cells.map (csvCell delimiter)) ++ rest) =
        csvLoop delimiter (i + ([delimiter].intercalate (cells.map (csvCell delimiter))).length) s' rest ∧
      s'.pending = s.row ++ cells ∧ s'.rows = s.rows ∧ s'.quoted = false ∧ s'.rowStart = s.rowStart := by
  induction cells generalizing i s with
  | nil => exact absurd rfl hcells
  | cons cell cells ih =>
    cases cells with
    | nil =>
      refine ⟨{ s with cell := cell }, ?_, rfl, rfl, hs, rfl⟩
      rw [List.map_singleton, List.intercalate_singleton, csvLoop_csvCell hs cell hrest, hcell, List.nil_append]
    | cons cell' cells =>
      have hfirst : (CsvReading.endCell { s with cell := s.cell ++ cell }).quoted = false := hs
      obtain ⟨s', hloop, hpending, hrows, hquoted, hstart⟩ :=
        @ih (i + (csvCell delimiter cell).length + 1) _ hfirst rfl (List.cons_ne_nil _ _)
      refine ⟨s', ?_, ?_, hrows, hquoted, hstart⟩
      · rw [List.map_cons, List.intercalate_cons_of_ne_nil (by simp), List.append_assoc, List.append_assoc,
          List.singleton_append, csvLoop_csvCell hs cell (unquoted_delimiter hd _), csvLoop_delimiter (by exact hs) hd, hloop]
        simp only [List.length_append, List.length_singleton]
        congr 1
        omega
      · rw [hpending]
        simp [CsvReading.endCell, hcell]

end Loop

/-- What `csvRows` returns of a text of this length. -/
def CsvReading.result (s : CsvReading) (length : Nat) : List (List JsString) :=
  if s.rowStart < length then s.rows ++ [s.pending] else s.rows

/-- What is read of a written table: a last row of one empty cell is not. -/
def kept (table : List (List JsString)) : List (List JsString) :=
  if table.getLast? = some [[]] then table.dropLast else table

theorem kept_eq_iff {table : List (List JsString)} : kept table = table ↔ table.getLast? ≠ some [[]] := by
  rw [kept]
  split_ifs with hlast
  · refine iff_of_false (fun h => ?_) (not_not_intro hlast)
    have hlength := congrArg List.length h
    have hne : table ≠ [] := by
      rintro rfl
      cases hlast
    rw [List.length_dropLast] at hlength
    have := List.length_pos_of_ne_nil hne
    omega
  · exact iff_of_true rfl hlast

theorem kept_cons (row : List JsString) {table : List (List JsString)} (h : table ≠ []) :
    kept (row :: table) = row :: kept table := by
  obtain ⟨next, rest, rfl⟩ := List.exists_cons_of_ne_nil h
  rw [kept, kept, List.getLast?_cons_cons, List.dropLast_cons_cons]
  split_ifs <;> rfl

theorem csvCell_ne_nil {delimiter : CodeUnit} {cell : JsString} (h : cell ≠ []) : csvCell delimiter cell ≠ [] := by
  rw [csvCell]
  split_ifs
  · exact List.cons_ne_nil _ _
  · exact h

/-- A row's text, from the texts of its cells. -/
def rowText (delimiter : CodeUnit) (cells : List JsString) : JsString :=
  [delimiter].intercalate (cells.map (csvCell delimiter))

theorem csvRow_eq (delimiter : CodeUnit) (row : List CsvValue) :
    csvRow delimiter row = rowText delimiter (row.map CsvValue.string) := by
  rw [csvRow, rowText, List.map_map]
  rfl

/-- Only a lone empty cell is written as nothing. -/
theorem rowText_eq_nil {delimiter : CodeUnit} {cells : List JsString} (hcells : cells ≠ []) :
    rowText delimiter cells = [] ↔ cells = [[]] := by
  obtain ⟨cell, rest, rfl⟩ := List.exists_cons_of_ne_nil hcells
  cases rest with
  | nil =>
    rw [rowText, List.map_singleton, List.intercalate_singleton]
    constructor
    · intro h
      by_contra hne
      exact csvCell_ne_nil (fun hcell => hne (by rw [hcell])) h
    · intro h
      obtain rfl : cell = [] := (List.cons.inj h).1
      rfl
  | cons cell' rest => simp [rowText, List.intercalate_cons_cons]

section Rows

variable {delimiter : CodeUnit} (hd : CsvSeparator delimiter)
include hd

/-- The loop from the start of a row over the written rows that are left. -/
theorem csvLoop_rows (i : Nat) (read : List (List JsString)) {table : List (List JsString)} (hne : table ≠ [])
    (hrows : ∀ row ∈ table, row ≠ []) :
    (csvLoop delimiter i ⟨read, [], [], false, i⟩ ([cr, lf].intercalate (table.map (rowText delimiter)))).result
      (i + ([cr, lf].intercalate (table.map (rowText delimiter))).length) = read ++ kept table := by
  induction table generalizing i read with
  | nil => exact absurd rfl hne
  | cons cells table ih =>
    obtain ⟨hcells, htable⟩ := List.forall_mem_cons.mp hrows
    cases table with
    | nil =>
      obtain ⟨s, hloop, hpending, hread, -, hstart⟩ :=
        @csvLoop_cells delimiter i ⟨read, [], [], false, i⟩ hd rfl rfl cells hcells [] (by simp [Unquoted])
      rw [List.append_nil] at hloop
      rw [List.map_singleton, List.intercalate_singleton, rowText, hloop, csvLoop, CsvReading.result, hstart, hread, hpending,
        kept, List.getLast?_singleton]
      by_cases hempty : cells = [[]]
      · rw [if_neg, if_pos (congrArg some hempty), List.dropLast_singleton, List.append_nil]
        rw [← rowText, (rowText_eq_nil hcells).mpr hempty]
        exact Nat.lt_irrefl i
      · rw [if_pos, if_neg fun h => hempty (Option.some.inj h)]
        · rfl
        · have hpos : 0 < (rowText delimiter cells).length :=
            List.length_pos_of_ne_nil fun h => hempty ((rowText_eq_nil hcells).mp h)
          exact Nat.lt_add_of_pos_right hpos
    | cons next table =>
      have hunquoted : Unquoted ([cr, lf] ++ [cr, lf].intercalate ((next :: table).map (rowText delimiter))) := by
        simp [Unquoted, cr, quote]
      obtain ⟨s, hloop, hpending, hread, hquoted, hstart⟩ :=
        @csvLoop_cells delimiter i ⟨read, [], [], false, i⟩ hd rfl rfl cells hcells _ hunquoted
      have hend : s.endRow (i + (rowText delimiter cells).length + 2) =
          ⟨read ++ [cells], [], [], false, i + (rowText delimiter cells).length + 2⟩ := by
        rw [CsvReading.endRow, hread, hquoted]
        congr 2
        exact congrArg (· :: []) hpending
      have htext : [cr, lf].intercalate ((cells :: next :: table).map (rowText delimiter)) =
          rowText delimiter cells ++ ([cr, lf] ++ [cr, lf].intercalate ((next :: table).map (rowText delimiter))) := by
        rw [List.map_cons, List.intercalate_cons_of_ne_nil (by simp), List.append_assoc]
      rw [htext, kept_cons cells (List.cons_ne_nil next table), rowText, hloop, ← rowText]
      have hnext := ih (i + (rowText delimiter cells).length + 2) (read ++ [cells]) (List.cons_ne_nil _ _) htable
      rw [List.cons_append, List.cons_append, List.nil_append, csvLoop_crlf hquoted hd, hend]
      rw [List.append_assoc, List.singleton_append] at hnext
      rw [← hnext]
      congr 1
      simp only [List.length_append, List.length_cons]
      omega

/-- What is read of a written table. -/
theorem csvRows_csvOf {rows : List (List CsvValue)} (hne : rows ≠ []) (hrows : ∀ row ∈ rows, row ≠ []) :
    csvRows (csvOf rows delimiter) delimiter = kept (rows.map fun row => row.map CsvValue.string) := by
  have htext : csvOf rows delimiter =
      [cr, lf].intercalate ((rows.map fun row => row.map CsvValue.string).map (rowText delimiter)) := by
    rw [csvOf, List.map_map]
    congr 2
    funext row
    exact csvRow_eq delimiter row
  have hread := @csvLoop_rows delimiter hd 0 [] (rows.map fun row => row.map CsvValue.string) (by simpa using hne) (by simpa using hrows)
  rw [← htext, Nat.zero_add, List.nil_append] at hread
  exact hread

end Rows

/-- A table of texts is read back as it was written when its last row is not one empty cell. -/
theorem csvRows_csvOf_eq_iff {delimiter : CodeUnit} (hd : CsvSeparator delimiter) {table : List (List JsString)} (hne : table ≠ [])
    (hrows : ∀ row ∈ table, row ≠ []) :
    csvRows (csvOf (table.map fun row => row.map CsvValue.text) delimiter) delimiter = table ↔
      table.getLast? ≠ some [[]] := by
  have htexts : (table.map fun row => row.map CsvValue.text).map (fun row => row.map CsvValue.string) = table := by
    rw [List.map_map]
    refine (List.map_congr_left fun row _ => ?_).trans (List.map_id table)
    exact List.map_map.trans (List.map_id row)
  rw [csvRows_csvOf hd (by simpa using hne) (by simpa using hrows), htexts]
  exact kept_eq_iff

theorem csvRows_csvOf_site :
    csvRows (csvOf ([[JsString.ascii "site"], [[]], [JsString.ascii "a,b"]].map fun row => row.map CsvValue.text) 44) 44 =
      [[JsString.ascii "site"], [[]], [JsString.ascii "a,b"]] :=
  (@csvRows_csvOf_eq_iff 44 ⟨by decide, by decide, by decide⟩ _ (by decide) (by decide)).mpr (by decide)

/-- The last of two rows is lost. -/
theorem empty_last_lost :
    csvRows (csvOf ([[JsString.ascii "note"], [[]]].map fun row => row.map CsvValue.text) 44) 44 = [[JsString.ascii "note"]] ∧
      [[JsString.ascii "note"]] ≠ [[JsString.ascii "note"], [[]]] := by
  decide

end Norbital.Std

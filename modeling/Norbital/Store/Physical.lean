import Norbital.Lib.Fallible
import Norbital.Lib.JsonParse
import Norbital.Lib.Utf8
import Norbital.Std.Canonical

/-!
# Physical definitions stored

The file of the exact definitions after each prefix of the migrations
(`physicalDefinitionsOf` and `readPhysicalDefinitions` of `store/src/migrate.ts`): every
line once, the prefixes as indexes of lines, long lines packed.
-/

namespace Norbital.Store.Physical

open Norbital.Std (fromEntries)

/-- `PhysicalDefinitions`: the lines of every prefix, the prefixes as `Object.entries` lists them. -/
structure PhysicalDefinitions where
  prefixes : List (JsString × List JsString)
  distinct : (prefixes.map Prod.fst).Nodup

namespace PhysicalDefinitions

def names (m : PhysicalDefinitions) : List JsString := m.prefixes.map Prod.fst

def texts (m : PhysicalDefinitions) : List JsString := m.prefixes.flatMap Prod.snd

end PhysicalDefinitions

/-- Compression and Base64 of the packages, each undone by its inverse; how names compare, and
what the schema says of a text that it does not decode. -/
structure Packing where
  deflate : List UInt8 → List UInt8
  inflate : List UInt8 → Option (List UInt8)
  encode : List UInt8 → JsString
  decode : JsString → Option (List UInt8)
  inflate_deflate : ∀ bytes, inflate (deflate bytes) = some bytes
  decode_encode : ∀ bytes, decode (encode bytes) = some bytes
  /-- `a.localeCompare(b) <= 0`. -/
  localeLe : JsString → JsString → Bool
  schemaMessage : JsString → JsString

/-- The lines so far, and the index of each. -/
structure Indexing where
  lines : List JsString
  indexes : List (JsString × ℕ)

namespace Indexing

/-- The index of a line, a new one at the end. -/
def add (line : JsString) (s : Indexing) : ℕ × Indexing :=
  match s.indexes.lookup line with
  | some index => (index, s)
  | none => (s.lines.length, ⟨s.lines ++ [line], Lib.put line s.lines.length s.indexes⟩)

def addAll : List JsString → Indexing → List ℕ × Indexing
  | [], s => ([], s)
  | line :: values, s =>
    let (index, s) := s.add line
    let (indexes, s) := addAll values s
    (index :: indexes, s)

def addPrefixes : List (JsString × List JsString) → Indexing → List (JsString × List ℕ) × Indexing
  | [], s => ([], s)
  | (name, values) :: entries, s =>
    let (indexes, s) := s.addAll values
    let (rest, s) := addPrefixes entries s
    ((name, indexes) :: rest, s)

end Indexing

/-- A line of a file: its text, or the text packed. -/
inductive StoredLine where
  | plain (line : JsString)
  | deflated (deflate : JsString)

def StoredLine.isPacked : StoredLine → Bool
  | plain _ => false
  | deflated _ => true

def StoredLine.tree : StoredLine → JsonTree
  | plain line => .string line
  | deflated deflate => .object [(.ascii "deflate", .string deflate)]

section Write

variable (packing : Packing)

def deflateOf (line : JsString) : JsString := packing.encode (packing.deflate line.utf8)

/-- Large bodies are packed when that is shorter. -/
def packLine (line : JsString) : StoredLine :=
  if line.length < 4096 then .plain line
  else if (deflateOf packing line).length < line.length then .deflated (deflateOf packing line)
  else .plain line

def indexed (m : PhysicalDefinitions) : List (JsString × List ℕ) × Indexing :=
  Indexing.addPrefixes (m.prefixes.mergeSort fun a b => packing.localeLe a.1 b.1) ⟨[], []⟩

/-- The lines of the file. -/
def storedLines (m : PhysicalDefinitions) : List JsString := (indexed packing m).2.lines

def intTree (n : ℤ) : JsonTree := .number (.ofInt n)

def physicalFile (m : PhysicalDefinitions) : JsonTree :=
  let packed := (storedLines packing m).map (packLine packing)
  .object [
    (.ascii "format", intTree (if packed.any StoredLine.isPacked then 2 else 1)),
    (.ascii "lines", .array (packed.map StoredLine.tree)),
    (.ascii "prefixes", .object ((fromEntries (indexed packing m).1).map fun e =>
      (e.1, .array (e.2.map fun index => intTree (index : ℕ)))))]

def physicalDefinitionsOf (m : PhysicalDefinitions) : JsString := (physicalFile packing m).pretty 0 ++ [10]

end Write

/-- A refusal of a file, all with the code `migrationChanged`. -/
structure Unread where
  phase : String
  message : JsString

/-- What a file decodes to: lines and prefixes, indexed or packed, or the lines of every prefix. -/
inductive DecodedFile where
  | indexed (lines : List StoredLine) (prefixes : List (JsString × List ℤ))
  | physical (prefixes : List (JsString × List JsString))

section Decode

def stringOf : JsonTree → Option JsString
  | .string s => some s
  | _ => none

/-- `Schema.Int`. -/
def intOf : JsonTree → Option ℤ
  | .number n => if 0 ≤ n.exponent then some ((if n.negative then -1 else 1) * n.digits * 10 ^ n.exponent.toNat) else none
  | _ => none

def arrayOf {α : Type} (f : JsonTree → Option α) : JsonTree → Option (List α)
  | .array items => items.mapM f
  | _ => none

def recordOf {α : Type} (f : JsonTree → Option α) : JsonTree → Option (List (JsString × α))
  | .object members => members.mapM fun e => (f e.2).map fun value => (e.1, value)
  | _ => none

def memberOf (key : JsString) : JsonTree → Option JsonTree
  | .object members => members.lookup key
  | _ => none

/-- `Schema.Union([Schema.String, Schema.Struct({ deflate: Schema.String })])`. -/
def storedLineOf (t : JsonTree) : Option StoredLine :=
  ((stringOf t).map .plain).or (((memberOf (.ascii "deflate") t).bind stringOf).map .deflated)

/-- A struct of one format. -/
def structOf (format : ℤ) (lineOf : JsonTree → Option StoredLine) (t : JsonTree) : Option DecodedFile :=
  ((memberOf (.ascii "format") t).bind intOf).bind fun n =>
    if n = format then
      ((memberOf (.ascii "lines") t).bind (arrayOf lineOf)).bind fun lines =>
        ((memberOf (.ascii "prefixes") t).bind (recordOf (arrayOf intOf))).map fun prefixes => .indexed lines prefixes
    else none

/-- `Schema.Union([IndexedDefinitions, PackedDefinitions, PhysicalDefinitions])`. -/
def decodeTree (t : JsonTree) : Option DecodedFile :=
  (structOf 1 (fun t => (stringOf t).map .plain) t).or
    ((structOf 2 storedLineOf t).or ((recordOf (arrayOf stringOf) t).map .physical))

end Decode

section Read

variable (packing : Packing)

def decodeDefinitions (text : JsString) : Except Unread DecodedFile :=
  match (JsonTree.parse text).bind decodeTree with
  | some file => .ok file
  | none => .error ⟨"decode", packing.schemaMessage text⟩

def inflateLine (deflate : JsString) : Option JsString :=
  ((packing.decode deflate).bind packing.inflate).bind JsString.decodeUtf8

def expandLine : StoredLine → Except Unread JsString
  | .plain line => .ok line
  | .deflated deflate =>
    match inflateLine packing deflate with
    | some line => .ok line
    | none => .error ⟨"decode", .ascii "invalid compressed physical definition"⟩

/-- `expanded[index]`. -/
def lineAt (expanded : List JsString) (name : JsString) (index : ℤ) : Except Unread JsString :=
  match (if 0 ≤ index then expanded[index.toNat]? else none) with
  | some line => .ok line
  | none => .error ⟨"admission",
      name ++ .ascii ": physical definition " ++ (JsNumber.ofInt index).text ++ .ascii " is missing"⟩

/-- `definitions[name] = lines`: on an object literal, `__proto__` is no key of its own. -/
def assign (name : JsString) (lines : List JsString) (definitions : List (JsString × List JsString)) :
    List (JsString × List JsString) :=
  if name = .ascii "__proto__" then definitions else Lib.put name lines definitions

def readPrefixes (expanded : List JsString) : List (JsString × List ℤ) → List (JsString × List JsString) →
    Except Unread (List (JsString × List JsString))
  | [], definitions => .ok definitions
  | (name, indexes) :: rest, definitions => do
    let lines ← indexes.mapM (lineAt expanded name)
    readPrefixes expanded rest (assign name lines definitions)

def readPhysicalDefinitions (text : JsString) : Except Unread (List (JsString × List JsString)) := do
  match ← decodeDefinitions packing text with
  | .physical prefixes => return prefixes
  | .indexed lines prefixes =>
    let expanded ← lines.mapM (expandLine packing)
    readPrefixes expanded (fromEntries prefixes) []

end Read

namespace Indexing

/-- Every line has one index, under which it is found. -/
structure Valid (s : Indexing) : Prop where
  nodup : s.lines.Nodup
  lookup : ∀ line index, s.indexes.lookup line = some index ↔ s.lines[index]? = some line

/-- Lines keep their indexes while others are added. -/
structure Adds (values : List JsString) (s s' : Indexing) : Prop where
  valid : s'.Valid
  grows : s.lines <+: s'.lines
  mem : ∀ line, line ∈ s'.lines ↔ line ∈ s.lines ∨ line ∈ values

variable {s s' s'' : Indexing}

theorem Adds.append {values more : List JsString} (h : Adds values s s') (h' : Adds more s' s'') :
    Adds (values ++ more) s s'' := by
  refine ⟨h'.valid, h.grows.trans h'.grows, ?_⟩
  intro line
  rw [h'.mem, h.mem, List.mem_append, or_assoc]

theorem getElem_of_grows {lines lines' : List JsString} {index : ℕ} {line : JsString} (h : lines <+: lines')
    (hline : lines[index]? = some line) : lines'[index]? = some line := by
  obtain ⟨more, rfl⟩ := h
  rw [List.getElem?_append_left (List.getElem?_eq_some_iff.mp hline).1]
  exact hline

theorem Adds.getElem {values : List JsString} (h : Adds values s s') {index : ℕ} {line : JsString}
    (hline : s.lines[index]? = some line) : s'.lines[index]? = some line :=
  getElem_of_grows h.grows hline

theorem add_spec (h : s.Valid) (line : JsString) :
    Adds [line] s (s.add line).2 ∧ (s.add line).2.lines[(s.add line).1]? = some line := by
  rw [add]
  cases hlookup : s.indexes.lookup line with
  | some index =>
    have hline := (h.lookup line index).mp hlookup
    refine ⟨⟨h, List.prefix_refl s.lines, ?_⟩, hline⟩
    intro other
    constructor
    · exact .inl
    · rintro (hmem | hmem)
      · exact hmem
      · rw [List.mem_singleton.mp hmem]
        exact List.mem_of_getElem? hline
  | none =>
    have hnew : line ∉ s.lines := by
      intro hmem
      obtain ⟨index, hindex⟩ := List.mem_iff_getElem?.mp hmem
      rw [(h.lookup line index).mpr hindex] at hlookup
      cases hlookup
    refine ⟨⟨⟨?_, ?_⟩, List.prefix_append s.lines [line], ?_⟩, ?_⟩
    · rw [List.nodup_append]
      refine ⟨h.nodup, List.nodup_singleton line, ?_⟩
      rintro a ha b hb rfl
      exact hnew (List.mem_singleton.mp hb ▸ ha)
    · intro other index
      rw [Lib.lookup_put]
      by_cases hother : other = line
      · rw [hother, beq_self_eq_true, if_pos rfl, Option.some.injEq]
        constructor
        · rintro rfl
          exact List.getElem?_concat_length
        · intro hindex
          obtain hlt | hle := Nat.lt_or_ge index s.lines.length
          · rw [List.getElem?_append_left hlt] at hindex
            exact absurd (List.mem_of_getElem? hindex) hnew
          · have hlt := List.getElem?_eq_some_iff.mp hindex
            obtain ⟨hlt, -⟩ := hlt
            rw [List.length_append, List.length_singleton] at hlt
            omega
      · rw [beq_false_of_ne hother, if_neg Bool.false_ne_true, h.lookup]
        obtain hlt | hle := Nat.lt_or_ge index s.lines.length
        · rw [List.getElem?_append_left hlt]
        · rw [List.getElem?_append_right hle, List.getElem?_eq_none hle]
          refine iff_of_false (by simp) ?_
          intro hindex
          obtain ⟨hlt, heq⟩ := List.getElem?_eq_some_iff.mp hindex
          exact hother (List.mem_singleton.mp (heq ▸ List.getElem_mem hlt))
    · exact fun other => List.mem_append
    · exact List.getElem?_concat_length

theorem addAll_spec (h : s.Valid) (values : List JsString) :
    Adds values s (s.addAll values).2 ∧
      (s.addAll values).1.map ((s.addAll values).2.lines[·]?) = values.map some := by
  induction values generalizing s with
  | nil => exact ⟨⟨h, List.prefix_refl s.lines, by simp [addAll]⟩, rfl⟩
  | cons line values ih =>
    obtain ⟨hadds, hline⟩ := add_spec h line
    obtain ⟨hmore, hlines⟩ := ih hadds.valid
    refine ⟨hadds.append hmore, ?_⟩
    rw [addAll, List.map_cons, List.map_cons]
    exact congrArg₂ List.cons (hmore.getElem hline) hlines

/-- The indexes of a prefix are those of its lines. -/
def Points (lines : List JsString) (e : JsString × List ℕ) (e' : JsString × List JsString) : Prop :=
  e.1 = e'.1 ∧ e.2.map (lines[·]?) = e'.2.map some

theorem Points.mono {lines lines' : List JsString} {e : JsString × List ℕ} {e' : JsString × List JsString}
    (h : Points lines e e') (hgrows : lines <+: lines') : Points lines' e e' := by
  obtain ⟨hname, hlines⟩ := h
  refine ⟨hname, ?_⟩
  generalize e.2 = indexes at hlines ⊢
  generalize e'.2 = values at hlines ⊢
  induction indexes generalizing values with
  | nil => exact hlines
  | cons index indexes ih =>
    cases values with
    | nil => cases hlines
    | cons line values =>
      rw [List.map_cons, List.map_cons] at hlines ⊢
      obtain ⟨hline, hlines⟩ := List.cons.inj hlines
      rw [getElem_of_grows hgrows hline, ih values hlines]

theorem addPrefixes_spec (h : s.Valid) (entries : List (JsString × List JsString)) :
    Adds (entries.flatMap Prod.snd) s (s.addPrefixes entries).2 ∧
      List.Forall₂ (Points (s.addPrefixes entries).2.lines) (s.addPrefixes entries).1 entries := by
  induction entries generalizing s with
  | nil => exact ⟨⟨h, List.prefix_refl s.lines, by simp [addPrefixes]⟩, .nil⟩
  | cons e entries ih =>
    obtain ⟨name, values⟩ := e
    obtain ⟨hadds, hlines⟩ := addAll_spec h values
    obtain ⟨hmore, hpoints⟩ := ih hadds.valid
    refine ⟨hadds.append hmore, .cons ?_ hpoints⟩
    have hpoints : Points (s.addAll values).2.lines (name, (s.addAll values).1) (name, values) := ⟨rfl, hlines⟩
    exact hpoints.mono hmore.grows

end Indexing

theorem mapM_map_eq {m : Type → Type*} [Monad m] [LawfulMonad m] {α β γ : Type} {f : β → m γ} {g : α → β} {h : α → γ}
    {xs : List α} (hx : ∀ x ∈ xs, f (g x) = pure (h x)) : (xs.map g).mapM f = pure (xs.map h) := by
  rw [List.mapM_map, ← List.mapM_pure]
  exact Fallible.mapM_congr hx

theorem intOf_intTree (n : ℤ) : intOf (intTree n) = some n := by
  by_cases hzero : n = 0
  · subst hzero
    rfl
  · have hvalue := JsNumber.stripped_mul_pow n.natAbs
    rw [intTree, JsNumber.ofInt, dif_neg hzero]
    simp only [intOf]
    rw [if_pos (by omega), Int.toNat_natCast, mul_assoc]
    have hcast : (JsNumber.stripped n.natAbs : ℤ) * 10 ^ (JsNumber.zeros n.natAbs).length = n.natAbs := by exact_mod_cast hvalue
    rw [hcast]
    by_cases hneg : n < 0
    · simp only [hneg, decide_true, if_true]
      congr 1
      omega
    · simp only [hneg, decide_false, Bool.false_eq_true, if_false]
      congr 1
      omega

section

variable (packing : Packing) (m : PhysicalDefinitions)

/-- The prefixes of the file. -/
def storedPrefixes : List (JsString × List ℤ) :=
  (fromEntries (indexed packing m).1).map fun e => (e.1, e.2.map fun index => ((index : ℕ) : ℤ))

theorem storedLineOf_tree (line : StoredLine) : storedLineOf line.tree = some line := by
  cases line with
  | plain line => rfl
  | deflated deflate =>
    have hkey : (JsString.ascii "deflate" == JsString.ascii "deflate") = true := beq_self_eq_true _
    simp [storedLineOf, StoredLine.tree, stringOf, memberOf]

theorem plain_tree {line : StoredLine} (h : line.isPacked = false) : (stringOf line.tree).map .plain = some line := by
  cases line with
  | plain line => rfl
  | deflated deflate => cases h

theorem physicalFile_eq : physicalFile packing m = .object [
    (.ascii "format", intTree (if ((storedLines packing m).map (packLine packing)).any StoredLine.isPacked then 2 else 1)),
    (.ascii "lines", .array (((storedLines packing m).map (packLine packing)).map StoredLine.tree)),
    (.ascii "prefixes", .object ((storedPrefixes packing m).map fun e => (e.1, .array (e.2.map intTree))))] := by
  rw [physicalFile, storedPrefixes, List.map_map]
  simp only [Function.comp_def, List.map_map]

theorem record_storedPrefixes : recordOf (arrayOf intOf)
    (.object ((storedPrefixes packing m).map fun e => (e.1, .array (e.2.map intTree)))) = some (storedPrefixes packing m) := by
  rw [recordOf]
  refine (mapM_map_eq (h := id) ?_).trans (by rw [List.map_id]; rfl)
  intro e _
  have hitems : (e.2.map intTree).mapM intOf = some e.2 := by
    refine (mapM_map_eq (h := id) fun n _ => intOf_intTree n).trans ?_
    rw [List.map_id]
    rfl
  simp only [arrayOf, hitems]
  rfl

theorem decodeTree_physicalFile :
    decodeTree (physicalFile packing m) = some (.indexed ((storedLines packing m).map (packLine packing)) (storedPrefixes packing m)) := by
  generalize hlines : (storedLines packing m).map (packLine packing) = packed
  generalize hformat : (if packed.any StoredLine.isPacked then 2 else 1 : ℤ) = format
  have hfile := physicalFile_eq packing m
  rw [hlines, hformat] at hfile
  have hmember : ∀ key t, memberOf key (physicalFile packing m) = some t ↔
      List.lookup key [(JsString.ascii "format", intTree format), (.ascii "lines", .array (packed.map StoredLine.tree)),
        (.ascii "prefixes", .object ((storedPrefixes packing m).map fun e => (e.1, .array (e.2.map intTree))))] = some t := by
    intro key t
    rw [hfile]
    rfl
  have hfirst := (hmember (.ascii "format") _).mpr rfl
  have hsecond := (hmember (.ascii "lines") _).mpr rfl
  have hthird := (hmember (.ascii "prefixes") _).mpr rfl
  have hstruct : ∀ n lineOf, structOf n lineOf (physicalFile packing m) =
      if format = n then ((packed.map StoredLine.tree).mapM lineOf).map fun lines => .indexed lines (storedPrefixes packing m)
      else none := by
    intro n lineOf
    rw [structOf, hfirst, hsecond, hthird, Option.bind_some, Option.bind_some, Option.bind_some, intOf_intTree,
      Option.bind_some, record_storedPrefixes]
    split_ifs
    · show ((packed.map StoredLine.tree).mapM lineOf).bind _ = _
      cases (packed.map StoredLine.tree).mapM lineOf <;> rfl
    · rfl
  rw [decodeTree, hstruct, hstruct]
  cases hpacked : packed.any StoredLine.isPacked with
  | true =>
    rw [hpacked, if_pos rfl] at hformat
    subst hformat
    have hread : (packed.map StoredLine.tree).mapM storedLineOf = some packed := by
      refine (mapM_map_eq (h := id) fun line _ => storedLineOf_tree line).trans ?_
      rw [List.map_id]
      rfl
    rw [if_neg (by decide), Option.none_or, if_pos rfl, hread]
    rfl
  | false =>
    rw [hpacked, if_neg Bool.false_ne_true] at hformat
    subst hformat
    have hread : (packed.map StoredLine.tree).mapM (fun t => (stringOf t).map StoredLine.plain) = some packed := by
      refine (mapM_map_eq (f := fun t => (stringOf t).map StoredLine.plain) (g := StoredLine.tree) (h := id)
        fun line hline => plain_tree ?_).trans ?_
      · simpa using List.any_eq_false.mp hpacked line hline
      · rw [List.map_id]
        rfl
    rw [if_pos rfl, hread]
    rfl

theorem validEmpty : Indexing.Valid ⟨[], []⟩ := ⟨List.nodup_nil, by simp⟩

theorem indexed_spec : Indexing.Adds m.texts ⟨[], []⟩ (indexed packing m).2 ∧
    ∀ e ∈ (indexed packing m).1, ∃ values, (e.1, values) ∈ m.prefixes ∧ e.2.map ((storedLines packing m)[·]?) = values.map some := by
  have hperm := List.mergeSort_perm m.prefixes fun a b => packing.localeLe a.1 b.1
  obtain ⟨hadds, hpoints⟩ := Indexing.addPrefixes_spec validEmpty (m.prefixes.mergeSort fun a b => packing.localeLe a.1 b.1)
  constructor
  · refine ⟨hadds.valid, hadds.grows, fun line => (hadds.mem line).trans ?_⟩
    rw [PhysicalDefinitions.texts, (hperm.flatMap_right Prod.snd).mem_iff]
  · intro e he
    obtain ⟨e', he', hname, hlines⟩ := Scan.exists_mem_of_forall₂ hpoints he
    refine ⟨e'.2, ?_, hlines⟩
    rw [hname]
    exact hperm.mem_iff.mp he'

theorem indexed_names : ((indexed packing m).1.map Prod.fst).Perm m.names := by
  have hperm := List.mergeSort_perm m.prefixes fun a b => packing.localeLe a.1 b.1
  obtain ⟨-, hpoints⟩ := Indexing.addPrefixes_spec validEmpty (m.prefixes.mergeSort fun a b => packing.localeLe a.1 b.1)
  have hnames : (indexed packing m).1.map Prod.fst = (m.prefixes.mergeSort fun a b => packing.localeLe a.1 b.1).map Prod.fst := by
    rw [← List.forall₂_eq_eq_eq, List.forall₂_map_left_iff, List.forall₂_map_right_iff]
    exact hpoints.imp fun _ _ h => h.1
  rw [hnames]
  exact hperm.map Prod.fst

theorem storedPrefixes_names : ((storedPrefixes packing m).map Prod.fst).Perm m.names := by
  have hnames : (storedPrefixes packing m).map Prod.fst = (fromEntries (indexed packing m).1).map Prod.fst := by
    rw [storedPrefixes, List.map_map]
    rfl
  rw [hnames]
  exact ((Std.JsValue.fromEntries_perm _).map Prod.fst).trans (indexed_names packing m)

theorem distinct_numbers (ns : List ℤ) : JsonTree.DistinctItems (ns.map intTree) := by
  induction ns with
  | nil => exact trivial
  | cons n ns ih => exact ⟨trivial, ih⟩

theorem distinct_lines (lines : List StoredLine) : JsonTree.DistinctItems (lines.map StoredLine.tree) := by
  induction lines with
  | nil => exact trivial
  | cons line lines ih =>
    refine ⟨?_, ih⟩
    cases line with
    | plain line => exact trivial
    | deflated deflate => exact ⟨List.nodup_singleton _, trivial, trivial⟩

theorem distinct_prefixes (entries : List (JsString × List ℤ)) :
    JsonTree.DistinctMembers (entries.map fun e => (e.1, .array (e.2.map intTree))) := by
  induction entries with
  | nil => exact trivial
  | cons e entries ih => exact ⟨distinct_numbers e.2, ih⟩

theorem physicalFile_distinct : (physicalFile packing m).Distinct := by
  rw [physicalFile_eq]
  have hkeys : [JsString.ascii "format", .ascii "lines", .ascii "prefixes"].Nodup := by decide
  refine ⟨hkeys, trivial, distinct_lines _, ⟨?_, distinct_prefixes _⟩, trivial⟩
  rw [List.map_map]
  exact (storedPrefixes_names packing m).nodup_iff.mpr m.distinct

theorem decode_physicalDefinitionsOf : decodeDefinitions packing (physicalDefinitionsOf packing m) =
    .ok (.indexed ((storedLines packing m).map (packLine packing)) (storedPrefixes packing m)) := by
  have hparse : JsonTree.parse (physicalDefinitionsOf packing m) = some (physicalFile packing m) :=
    JsonTree.parse_pretty (physicalFile_distinct packing m) (JsString.forall_of_all (by decide))
  rw [decodeDefinitions, hparse, Option.bind_some, decodeTree_physicalFile]

/-- A line that is written packed. -/
def Packs (line : JsString) : Prop := 4096 ≤ line.length ∧ (deflateOf packing line).length < line.length

instance (line : JsString) : Decidable (Packs packing line) := inferInstanceAs (Decidable (_ ∧ _))

/-- What is read of a line: the decoder drops the byte order mark a packed one begins with. -/
def readLine (line : JsString) : JsString := if Packs packing line ∧ line.head? = some 0xFEFF then line.tail else line

variable {m}

theorem expandLine_packLine {line : JsString} (h : line.WellFormed) :
    expandLine packing (packLine packing line) = .ok (readLine packing line) := by
  rw [packLine, readLine]
  by_cases hlength : line.length < 4096
  · rw [if_pos hlength, if_neg fun hpacks => absurd hpacks.1.1 (Nat.not_le.mpr hlength)]
    rfl
  rw [if_neg hlength]
  by_cases hshorter : (deflateOf packing line).length < line.length
  · have hinflate : inflateLine packing (deflateOf packing line) =
        some (if line.head? = some 0xFEFF then line.tail else line) := by
      rw [inflateLine, deflateOf, packing.decode_encode, Option.bind_some, packing.inflate_deflate, Option.bind_some]
      exact JsString.decodeUtf8_utf8 h
    have hpacks : Packs packing line := ⟨Nat.not_lt.mp hlength, hshorter⟩
    rw [if_pos hshorter, expandLine, hinflate]
    simp only [hpacks, true_and]
  · rw [if_neg hshorter, if_neg fun hpacks => hshorter hpacks.1.2]
    rfl

theorem lineAt_map {lines values : List JsString} {indexes : List ℕ} (name : JsString) (g : JsString → JsString)
    (h : indexes.map (lines[·]?) = values.map some) :
    (indexes.map fun index => ((index : ℕ) : ℤ)).mapM (lineAt (lines.map g) name) = .ok (values.map g) := by
  induction indexes generalizing values with
  | nil =>
    cases values with
    | nil => rfl
    | cons line values => cases h
  | cons index indexes ih =>
    cases values with
    | nil => cases h
    | cons line values =>
      rw [List.map_cons, List.map_cons] at h
      obtain ⟨hline, hlines⟩ := List.cons.inj h
      have hone : lineAt (lines.map g) name (index : ℤ) = .ok (g line) := by
        rw [lineAt, if_pos (Int.natCast_nonneg index), Int.toNat_natCast, List.getElem?_map, hline]
        rfl
      rw [List.map_cons, List.mapM_cons, hone, ih hlines]
      rfl

theorem readPrefixes_eq {expanded : List JsString} {entries : List (JsString × List ℤ)} {g : JsString → List JsString}
    (h : ∀ e ∈ entries, e.2.mapM (lineAt expanded e.1) = .ok (g e.1)) (definitions : List (JsString × List JsString)) :
    readPrefixes expanded entries definitions = .ok (entries.foldl (fun d e => assign e.1 (g e.1) d) definitions) := by
  induction entries generalizing definitions with
  | nil => rfl
  | cons e entries ih =>
    obtain ⟨name, indexes⟩ := e
    obtain ⟨hone, hrest⟩ := List.forall_mem_cons.mp h
    rw [readPrefixes, hone, Fallible.ok_bind, ih hrest]
    rfl

theorem lookup_assigns (g : JsString → List JsString) (entries : List (JsString × List ℤ))
    (definitions : List (JsString × List JsString)) (name : JsString) :
    (entries.foldl (fun d e => assign e.1 (g e.1) d) definitions).lookup name =
      if name ∈ entries.map Prod.fst ∧ name ≠ .ascii "__proto__" then some (g name) else definitions.lookup name := by
  induction entries generalizing definitions with
  | nil => simp
  | cons e entries ih =>
    rw [List.foldl_cons, ih]
    simp only [List.map_cons, List.mem_cons]
    by_cases hproto : name = .ascii "__proto__"
    · rw [if_neg fun h => h.2 hproto, if_neg fun h => h.2 hproto, assign]
      split_ifs with he
      · rfl
      · rw [Lib.lookup_put, beq_false_of_ne fun h => he (h.symm.trans hproto), if_neg Bool.false_ne_true]
    · by_cases hmem : name ∈ entries.map Prod.fst
      · rw [if_pos ⟨hmem, hproto⟩, if_pos ⟨.inr hmem, hproto⟩]
      · rw [if_neg fun h => hmem h.1]
        by_cases hname : name = e.1
        · rw [if_pos ⟨.inl hname, hproto⟩, assign, if_neg (hname ▸ hproto), Lib.lookup_put, hname, beq_self_eq_true, if_pos rfl]
        · rw [if_neg fun h => h.1.elim hname hmem, assign]
          split_ifs
          · rfl
          · rw [Lib.lookup_put, beq_false_of_ne hname, if_neg Bool.false_ne_true]

/-- What the file of well-formed texts is read as. -/
theorem read_physicalDefinitionsOf (h : ∀ line ∈ m.texts, line.WellFormed) : ∃ r,
    readPhysicalDefinitions packing (physicalDefinitionsOf packing m) = .ok r ∧
      ∀ name, r.lookup name = if name = .ascii "__proto__" then none
        else (m.prefixes.lookup name).map fun values => values.map (readLine packing) := by
  obtain ⟨hadds, hindexes⟩ := indexed_spec packing m
  have hlines : ∀ line ∈ storedLines packing m, line.WellFormed := fun line hline =>
    h line (((hadds.mem line).mp hline).resolve_left List.not_mem_nil)
  have hexpanded : ((storedLines packing m).map (packLine packing)).mapM (expandLine packing) =
      .ok ((storedLines packing m).map (readLine packing)) :=
    mapM_map_eq fun line hline => expandLine_packLine packing (hlines line hline)
  have hentries : ∀ e ∈ fromEntries (storedPrefixes packing m),
      e.2.mapM (lineAt ((storedLines packing m).map (readLine packing)) e.1) =
        .ok (((m.prefixes.lookup e.1).getD []).map (readLine packing)) := by
    intro e he
    have he := (Std.JsValue.fromEntries_perm _).mem_iff.mp he
    obtain ⟨e', he', rfl⟩ := List.mem_map.mp he
    obtain ⟨values, hvalues, hpoints⟩ := hindexes e' ((Std.JsValue.fromEntries_perm _).mem_iff.mp he')
    rw [Lib.lookup_some_of_mem m.distinct hvalues]
    exact lineAt_map e'.1 (readLine packing) hpoints
  have hread := readPrefixes_eq (g := fun name => ((m.prefixes.lookup name).getD []).map (readLine packing)) hentries []
  refine ⟨(fromEntries (storedPrefixes packing m)).foldl
    (fun d e => assign e.1 (((m.prefixes.lookup e.1).getD []).map (readLine packing)) d) [], ?_, ?_⟩
  · rw [readPhysicalDefinitions, decode_physicalDefinitionsOf, Fallible.ok_bind]
    dsimp only
    rw [hexpanded, Fallible.ok_bind]
    exact hread
  · intro name
    have hname : name ∈ (fromEntries (storedPrefixes packing m)).map Prod.fst ↔ name ∈ m.names :=
      (((Std.JsValue.fromEntries_perm _).map Prod.fst).trans (storedPrefixes_names packing m)).mem_iff
    rw [lookup_assigns fun name => ((m.prefixes.lookup name).getD []).map (readLine packing)]
    simp only [hname]
    by_cases hproto : name = .ascii "__proto__"
    · rw [if_neg fun h => h.2 hproto, if_pos hproto]
      rfl
    rw [if_neg hproto]
    by_cases hmem : name ∈ m.names
    · obtain ⟨e, he, rfl⟩ := List.mem_map.mp hmem
      rw [if_pos ⟨hmem, hproto⟩, Lib.lookup_some_of_mem m.distinct he]
      rfl
    · have hnone : m.prefixes.lookup name = none := by
        rw [List.lookup_eq_none_iff]
        intro e he
        refine bne_iff_ne.mpr ?_
        rintro rfl
        exact hmem (List.mem_map_of_mem he)
      rw [if_neg fun h => hmem h.1, hnone]
      rfl

end

/-- No prefix is the one name an object literal does not keep, and no packed line begins with a byte order mark. -/
def Kept (packing : Packing) (m : PhysicalDefinitions) : Prop :=
  .ascii "__proto__" ∉ m.names ∧ ∀ line ∈ m.texts, Packs packing line → line.head? ≠ some 0xFEFF

/-- The file holds every line once, and what is read of it is what was written. -/
def Survives (packing : Packing) (m : PhysicalDefinitions) : Prop :=
  ((storedLines packing m).Nodup ∧ ∀ line, line ∈ storedLines packing m ↔ line ∈ m.texts) ∧
    ∃ r, readPhysicalDefinitions packing (physicalDefinitionsOf packing m) = .ok r ∧
      ∀ name, r.lookup name = m.prefixes.lookup name

section

variable {packing : Packing} {m : PhysicalDefinitions} (h : ∀ line ∈ m.texts, line.WellFormed)

include h

theorem kept_of_survives (hsurvives : Survives packing m) : Kept packing m := by
  obtain ⟨-, r', hread', hr'⟩ := hsurvives
  obtain ⟨r, hread, hr⟩ := read_physicalDefinitionsOf packing h
  obtain rfl : r = r' := Except.ok.inj (hread.symm.trans hread')
  have hsame : ∀ name, m.prefixes.lookup name = if name = .ascii "__proto__" then none
      else (m.prefixes.lookup name).map fun values => values.map (readLine packing) := fun name => (hr' name).symm.trans (hr name)
  constructor
  · intro hmem
    obtain ⟨e, he, hname⟩ := List.mem_map.mp hmem
    have hproto := hsame e.1
    rw [if_pos hname, Lib.lookup_some_of_mem m.distinct he] at hproto
    cases hproto
  · intro line hline hpacks hmark
    obtain ⟨e, he, hmem⟩ := List.mem_flatMap.mp hline
    have hvalues := hsame e.1
    rw [Lib.lookup_some_of_mem m.distinct he] at hvalues
    split_ifs at hvalues
    have hmap : e.2.map (readLine packing) = e.2.map id := by
      rw [List.map_id]
      exact (Option.some.inj hvalues).symm
    -- a packed line is read without its first unit
    have heq := List.map_inj_left.mp hmap line hmem
    rw [readLine, if_pos ⟨hpacks, hmark⟩] at heq
    have hlength : line.length - 1 = line.length := List.length_tail.symm.trans (congrArg List.length heq)
    have := hpacks.1
    omega

theorem survives_of_kept (hkept : Kept packing m) : Survives packing m := by
  obtain ⟨hproto, hmark⟩ := hkept
  obtain ⟨hadds, -⟩ := indexed_spec packing m
  obtain ⟨r, hread, hr⟩ := read_physicalDefinitionsOf packing h
  have hmem : ∀ line, line ∈ storedLines packing m ↔ line ∈ m.texts := fun line =>
    (hadds.mem line).trans (or_iff_right List.not_mem_nil)
  refine ⟨⟨hadds.valid.nodup, hmem⟩, r, hread, ?_⟩
  intro name
  rw [hr name]
  cases hlookup : m.prefixes.lookup name with
  | none => rw [Option.map_none, ite_self]
  | some values =>
    have hmem := Lib.mem_of_lookup hlookup
    have hname : name ≠ .ascii "__proto__" := fun h => hproto (h ▸ List.mem_map_of_mem hmem)
    rw [if_neg hname, Option.map_some, Option.some.injEq]
    refine (List.map_congr_left fun line hline => ?_).trans (List.map_id _)
    exact if_neg fun hpacks => hmark line (List.mem_flatMap.mpr ⟨_, hmem, hline⟩) hpacks.1 hpacks.2

/-- Definitions survive storage exactly when no name and no packed line is one of those. -/
theorem physicalDefinitions_survive_iff : Survives packing m ↔ Kept packing m :=
  ⟨kept_of_survives h, survives_of_kept h⟩

end

def markedBody : JsString := 0xFEFF :: List.replicate 4096 97

/-- A compression that knows one body. -/
def packingOfBody : Packing where
  deflate bytes := if bytes = markedBody.utf8 then [1] else 0 :: bytes
  inflate
    | 0 :: bytes => some bytes
    | _ => some markedBody.utf8
  encode bytes := bytes.map UInt8.toUInt16
  decode text := some (text.map UInt16.toUInt8)
  inflate_deflate bytes := by
    split_ifs with h
    · rw [h]
      rfl
    · rfl
  decode_encode bytes := by
    rw [List.map_map, Option.some.injEq]
    refine (List.map_congr_left fun b _ => ?_).trans (List.map_id bytes)
    simp
  localeLe a b := decide (a ≤ b)
  schemaMessage _ := .ascii "Expected an object"

def sharedLines : PhysicalDefinitions where
  prefixes := [([], []), (.ascii "0001_initial.sql", [.ascii "table a", .ascii "table b"]), (.ascii "0002_more.sql", [.ascii "table b"])]
  distinct := by decide

theorem physicalDefinitions_survive_shared :
    Survives packingOfBody sharedLines ↔ Kept packingOfBody sharedLines := by
  apply physicalDefinitions_survive_iff
  have hall : (sharedLines.texts.all fun line => line.all fun u => !JsString.isHigh u && !JsString.isLow u) = true := by decide
  intro line hline
  apply JsString.wellFormed_of_forall
  intro u hu
  simpa using List.all_eq_true.mp (List.all_eq_true.mp hall line hline) u hu

def markedLines : PhysicalDefinitions := ⟨[(.ascii "0001_initial.sql", [markedBody])], List.nodup_singleton _⟩

theorem markedLines_wellFormed : ∀ line ∈ markedLines.texts, line.WellFormed := by
  intro line hline
  obtain ⟨e, he, hline⟩ := List.mem_flatMap.mp hline
  rw [List.mem_singleton.mp he] at hline
  rw [List.mem_singleton.mp hline]
  apply JsString.wellFormed_of_forall
  intro u hu
  obtain rfl | hu := List.mem_cons.mp hu
  · decide
  · rw [List.eq_of_mem_replicate hu]
    decide

theorem not_survives_marked : (∀ line ∈ markedLines.texts, line.WellFormed) ∧ ¬Survives packingOfBody markedLines := by
  refine ⟨markedLines_wellFormed, ?_⟩
  intro hsurvives
  have hdeflate : deflateOf packingOfBody markedBody = [1] := by
    have hbody : ∀ bytes, bytes = markedBody.utf8 → packingOfBody.deflate bytes = [1] := fun _ h => if_pos h
    rw [deflateOf, hbody _ (Eq.refl _)]
    rfl
  have hlength : markedBody.length = 4096 + 1 := by rw [markedBody, List.length_cons, List.length_replicate]
  have hpacks : Packs packingOfBody markedBody := by
    rw [Packs, hdeflate, hlength]
    decide
  have hmem : markedBody ∈ markedLines.texts :=
    List.mem_flatMap.mpr ⟨_, List.mem_singleton_self _, List.mem_singleton_self _⟩
  have hhead : markedBody.head? = some 0xFEFF := by rw [markedBody, List.head?_cons]
  obtain ⟨-, hkept⟩ := kept_of_survives markedLines_wellFormed hsurvives
  exact hkept markedBody hmem hpacks hhead

end Norbital.Store.Physical

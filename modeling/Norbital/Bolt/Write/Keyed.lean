import Norbital.Lib.Fallible
import Norbital.Lib.Lookup
import Norbital.Std.Decimal
import Norbital.Store.Read.Values

/-!
# Rows named by their keys

How an act finds the stored rows its upserts name (`resolveUpserts` of
`bolt/src/engine/write/act.ts`) and the rows an import's references name by the target's key values
(`importRefs` of `bolt/src/engine/write/import.ts`): the database joins typed columns, and what it
answers is matched back by texts.
-/

namespace Norbital.Bolt.Keyed

open Norbital.Std Norbital.Store.Values

/-- A column of a key; `required` where it admits no null. -/
structure Field where
  info : FieldInfo
  required : Bool := true

abbrev Members := List (String × Json)

def Field.valueOf (f : Field) (values : Members) : Json := (member values f.info.name).getD .null

section

variable {pg : Pg} (number : Rat → String)

/-- The columns a statement makes of an item's key values, none where it fails. -/
def keyOf (pg : Pg) (kind : Field → FieldKind) (on : List Field) (values : Members) :
    Option (List (Option pg.Datum)) :=
  on.mapM fun f => pg.bind f.info.pg (databaseValue number (kind f) (f.valueOf values))

/-- Two columns of a key are equal, nulls of a column that admits them included. -/
def Field.equal (f : Field) (a b : Option pg.Datum) : Bool :=
  if f.required then pg.equals f.info.pg a b = some true else pg.notDistinct f.info.pg a b

/-- The row's columns are equal to a key's. -/
def matchesKey (equal : Field → Option pg.Datum → Option pg.Datum → Bool) (on : List Field)
    (key : List (Option pg.Datum)) (row : Row pg) : Bool :=
  (on.zip key).all fun x => equal x.1 (row.column x.1.info.name) x.2

/-- The rows a join with the keys selects. -/
def joined (equal : Field → Option pg.Datum → Option pg.Datum → Bool) (on : List Field)
    (keys : List (List (Option pg.Datum))) (stored : List (Row pg)) : List (Row pg) :=
  stored.filter fun row => keys.any fun key => matchesKey equal on key row

/-- The row's key columns equal the item's key values as their types have it. -/
def Names (kind : Field → FieldKind) (on : List Field) (values : Members) (row : Row pg) : Prop :=
  ∃ key, keyOf number pg kind on values = some key ∧ matchesKey Field.equal on key row = true

structure Upsert where
  on : List Field
  values : Members

/-- The array types whose elements the adapters parse. -/
def parsedArrays : List String :=
  ["bool", "int2", "int4", "int8", "text", "varchar", "uuid", "date", "timestamptz", "jsonb"]

/-- `v.replace(/\+00:00$/, 'Z')`. -/
def zulu : Json → Json
  | .string s =>
    if "+00:00".toList.isSuffixOf s.toList then .string (String.ofList (s.toList.take (s.length - 6)) ++ "Z")
    else .string s
  | v => v

/-- `exactRowSql` and `exactRow`: a column as an act reads it of its own rows. -/
def exact (f : FieldInfo) : Option pg.Datum → Json
  | none => .null
  | some d =>
    if f.name = "id" || (if f.many then !parsedArrays.contains f.pg else f.pg == "numeric") then .string (pg.text f.pg d)
    else if f.pg = "timestamptz" then zulu (pg.json f.pg d)
    else pg.json f.pg d

def rowTexts (on : List Field) (row : Row pg) : List String :=
  on.map fun f => stringOf number (exact f.info (row.column f.info.name))

def itemTexts (on : List Field) (values : Members) : List String :=
  on.map fun f => stringOf number (databaseValue number .other (f.valueOf values))

/-- The row of the answer with the item's texts; of several the last is indexed. -/
def found (on : List Field) (answer : List (Row pg)) (values : Members) : Option (Row pg) :=
  answer.reverse.find? fun row => rowTexts number on row == itemTexts number on values

/-- `resolveUpserts` of one table's upserts; the first one's key is every one's. -/
def resolveUpserts (answer : List (Row pg)) : List Upsert → List (Upsert × Row pg)
  | [] => []
  | first :: rest =>
    (first :: rest).filterMap fun u => (found number first.on answer u.values).map fun row => (u, row)

/-- The rows the statement selects: the stored ones that join one of the items. -/
def Upsert.selected (number : Rat → String) (first : Upsert) (upserts : List Upsert) (stored : List (Row pg)) :
    Option (List (Row pg)) :=
  (upserts.mapM fun u => keyOf number pg (·.info.kind) first.on u.values).map fun keys =>
    joined Field.equal first.on keys stored

structure Relation where
  fk : String
  targets : List String

/-- A reference given by key values, and where. -/
structure Named where
  row : Nat
  values : Members

structure Want where
  fk : String
  target : String
  key : List Field
  named : List Named

inductive Refusal where
  | invalidInput (message field : String) (row : Nat)
  | notFound (message field : String) (row : Nat)
  deriving DecidableEq, Repr

/-- The rows whose reference is an object with no `$` key. -/
def namedBy (fk : String) (rows : List Json) : List Named :=
  rows.zipIdx.filterMap fun
    | (.object members, i) =>
      match member members fk with
      | some (.object values) => if values.any fun e => e.1.toList.head? == some '$' then none else some ⟨i, values⟩
      | _ => none
    | _ => none

/-- What is read for the references of a model, one read for each that some row names by key. -/
def wants (modelKey : String → List Field) (relations : List Relation) (rows : List Json) :
    Except Refusal (List Want) :=
  relations.foldlM (fun list rel =>
    match rel.targets with
    | [target] =>
      match namedBy rel.fk rows with
      | [] => .ok list
      | first :: rest =>
        if (modelKey target).isEmpty then
          .error (.invalidInput (target ++ " has no key; name it by id") rel.fk first.row)
        else .ok (list ++ [⟨rel.fk, target, modelKey target, first :: rest⟩])
    | _ => .ok list) []

/-- A column's `::text`. -/
def columnText (f : Field) (row : Row pg) : Option String := (row.column f.info.name).map (pg.text f.info.pg)

/-- The first row of the answer whose texts are the reference's. -/
def hit (key : List Field) (answer : List (Row pg)) (values : Members) : Option (Row pg) :=
  answer.find? fun row => key.all fun f =>
    columnText f row == some (stringOf number (databaseValue number .other (f.valueOf values)))

/-- `{ ...row }`. -/
def spread : Json → Json
  | .object members => .object members
  | .array items => .object (items.zipIdx.map fun x => (toString x.2, x.1))
  | .string s => .object (s.toList.zipIdx.map fun x => (toString x.2, .string (String.singleton x.1)))
  | _ => .object []

def setMember (name : String) (value : Json) : Json → Json
  | .object members => .object (members.map fun e => if e.1 = name then (name, value) else e)
  | v => v

/-- The id a want's reference resolves to. -/
def Want.resolve (w : Want) (answer : List (Row pg)) (x : Named) : Except Refusal (Nat × String × String) :=
  match hit number w.key answer x.values with
  | none => .error (.notFound ("No " ++ w.target ++ " has these key values.") w.fk x.row)
  | some row => .ok (x.row, w.fk, row.id)

/-- `importRefs`; `answers` is what each want's read answers. -/
def importRefs (modelKey : String → List Field) (answers : Want → List (Row pg)) (relations : List Relation)
    (rows : List Json) : Except Refusal (List Json) := do
  let list ← wants modelKey relations rows
  if list.isEmpty then
    return rows
  let cells ← (list.flatMap fun w => w.named.map (w, ·)).mapM fun x => x.1.resolve number (answers x.1) x.2
  return cells.foldl (fun out cell => out.modify cell.1 (setMember cell.2.1 (.string cell.2.2))) (rows.map spread)

/-- `=` of two columns, which no null passes. -/
def sqlEqual (f : Field) (a b : Option pg.Datum) : Bool := pg.equals f.info.pg a b = some true

/-- The rows a want's statement selects. -/
def Want.selected (number : Rat → String) (w : Want) (stored : List (Row pg)) : Option (List (Row pg)) :=
  (w.named.mapM fun x => keyOf number pg (fun _ => .other) w.key x.values).map fun keys =>
    joined sqlEqual w.key keys stored

/-- What a lookup by texts needs: a row it is wanted for is among those the statement selects and has
the texts, no other selected row has them, and it is wanted for one row at most. -/
structure Told (wanted : Row pg → Prop) (selected : List (Row pg)) (same : Row pg → Bool) : Prop where
  spelled : ∀ r, wanted r → r ∈ selected ∧ same r = true
  own : ∀ r ∈ selected, same r = true → wanted r
  single : ∀ r s, wanted r → wanted s → r = s

theorem told_iff {wanted : Row pg → Prop} {selected : List (Row pg)} {same : Row pg → Bool} :
    Told wanted selected same ↔ (∀ r, wanted r → r ∈ selected ∧ same r = true) ∧
      (∀ r ∈ selected, same r = true → wanted r) ∧ ∀ r s, wanted r → wanted s → r = s :=
  ⟨fun h => ⟨h.spelled, h.own, h.single⟩, fun h => ⟨h.1, h.2.1, h.2.2⟩⟩

/-- An upsert is resolved to a stored row just where it names it, in whatever order the database
answers. -/
def UpsertsFind (stored : List (Row pg)) : List Upsert → Prop
  | [] => True
  | first :: rest => ∀ selected, first.selected number (first :: rest) stored = some selected →
      ∀ answer : List (Row pg), answer.Perm selected → ∀ u ∈ first :: rest, ∀ r,
        (u, r) ∈ resolveUpserts number answer (first :: rest) ↔ r ∈ stored ∧ Names number (·.info.kind) u.on u.values r

/-- Every upsert's row reads back with the texts of the item's own values. -/
def UpsertsTold (stored : List (Row pg)) : List Upsert → Prop
  | [] => True
  | first :: rest => ∀ selected, first.selected number (first :: rest) stored = some selected →
      ∀ u ∈ first :: rest, Told (fun r => r ∈ stored ∧ Names number (·.info.kind) u.on u.values r) selected
        fun r => rowTexts number first.on r == itemTexts number first.on u.values

/-- A reference given by key values hits a row of its target just where it names it. -/
def RefsFind (modelKey : String → List Field) (relations : List Relation) (rows : List Json)
    (stored : String → List (Row pg)) : Prop :=
  ∀ list, wants modelKey relations rows = .ok list → ∀ w ∈ list, ∀ selected,
    w.selected number (stored w.target) = some selected → ∀ answer : List (Row pg), answer.Perm selected →
      ∀ x ∈ w.named, ∀ r,
        hit number w.key answer x.values = some r ↔ r ∈ stored w.target ∧ Names number (fun _ => .other) w.key x.values r

/-- Every named row's key columns have the texts of the reference's values. -/
def RefsTold (modelKey : String → List Field) (relations : List Relation) (rows : List Json)
    (stored : String → List (Row pg)) : Prop :=
  ∀ list, wants modelKey relations rows = .ok list → ∀ w ∈ list, ∀ selected,
    w.selected number (stored w.target) = some selected → ∀ x ∈ w.named,
      Told (fun r => r ∈ stored w.target ∧ Names number (fun _ => .other) w.key x.values r) selected fun r =>
        w.key.all fun f => columnText f r == some (stringOf number (databaseValue number .other (f.valueOf x.values)))

theorem mem_resolveUpserts {answer : List (Row pg)} {first : Upsert} {rest : List Upsert} {u : Upsert} {r : Row pg}
    (hu : u ∈ first :: rest) : (u, r) ∈ resolveUpserts number answer (first :: rest) ↔
      found number first.on answer u.values = some r := by
  simp only [resolveUpserts, List.mem_filterMap, Option.map_eq_some_iff, Prod.mk.injEq]
  constructor
  · rintro ⟨v, -, s, hs, rfl, rfl⟩
    exact hs
  · exact fun h => ⟨u, hu, r, h, rfl, rfl⟩

theorem upsertsFind_iff {stored : List (Row pg)} {upserts : List Upsert} :
    UpsertsFind number stored upserts ↔ UpsertsTold number stored upserts := by
  cases upserts with
  | nil => exact Iff.rfl
  | cons first rest =>
    refine forall₂_congr fun selected _ => ?_
    constructor
    · intro h u hu
      refine told_iff.2 (Lookup.find_reverse_iff.1 fun answer hanswer r => ?_)
      exact (mem_resolveUpserts number hu).symm.trans (h answer hanswer u hu r)
    · intro h answer hanswer u hu r
      exact (mem_resolveUpserts number hu).trans (Lookup.find_reverse_iff.2 (told_iff.1 (h u hu)) answer hanswer r)

theorem refsFind_iff {modelKey : String → List Field} {relations : List Relation} {rows : List Json}
    {stored : String → List (Row pg)} :
    RefsFind number modelKey relations rows stored ↔ RefsTold number modelKey relations rows stored := by
  refine forall₂_congr fun list _ => forall₂_congr fun w _ => forall₂_congr fun selected _ => ?_
  constructor
  · exact fun h x hx => told_iff.2 (Lookup.find_iff.1 fun answer hanswer => h answer hanswer x hx)
  · exact fun h answer hanswer x hx => Lookup.find_iff.2 (told_iff.1 (h x hx)) answer hanswer

/-- A value written as its column writes what is equal to it. -/
def Spelled (kind : Field → FieldKind) (equal : Field → Option pg.Datum → Option pg.Datum → Bool)
    (write : Field → Option pg.Datum → Option String) (f : Field) (v : Json) : Prop :=
  ∀ x, pg.bind f.info.pg (databaseValue number (kind f) v) = some x → ∀ y, (f.required = true → y ≠ none) →
    (equal f y x = true ↔ write f y = some (stringOf number (databaseValue number .other v)))

/-- The row has a value in every required column of a key. -/
def Filled (on : List Field) (row : Row pg) : Prop := ∀ f ∈ on, f.required = true → row.column f.info.name ≠ none

/-- A column as an act's own rows are written. -/
def exactText (f : Field) (y : Option pg.Datum) : Option String := some (stringOf number (exact f.info y))

/-- A row that equals a key of spelled values is the one with their texts. -/
theorem matchesKey_iff {kind : Field → FieldKind} {equal : Field → Option pg.Datum → Option pg.Datum → Bool}
    {write : Field → Option pg.Datum → Option String} {values : Members} {row : Row pg} :
    ∀ {on : List Field} {key : List (Option pg.Datum)}, keyOf number pg kind on values = some key → Filled on row →
      (∀ f ∈ on, Spelled number kind equal write f (f.valueOf values)) →
        (matchesKey equal on key row = true ↔ ∀ f ∈ on,
          write f (row.column f.info.name) = some (stringOf number (databaseValue number .other (f.valueOf values))))
  | [], key, hkey, _, _ => by
    cases hkey
    exact iff_of_true rfl fun f hf => (nomatch hf)
  | f :: on, key, hkey, hfilled, hspelled => by
    rw [keyOf, List.mapM_cons] at hkey
    obtain ⟨x, hx, hrest⟩ := Option.bind_eq_some_iff.1 hkey
    obtain ⟨xs, hxs, hpure⟩ := Option.bind_eq_some_iff.1 hrest
    cases hpure
    have htail := matchesKey_iff hxs (fun g hg => hfilled g (List.mem_cons_of_mem f hg))
      fun g hg => hspelled g (List.mem_cons_of_mem f hg)
    have hhead := hspelled f List.mem_cons_self x hx (row.column f.info.name) (hfilled f List.mem_cons_self)
    rw [List.forall_mem_cons, ← hhead, ← htail, matchesKey, List.zip_cons_cons, List.all_cons, Bool.and_eq_true]
    rfl

/-- Where a null is written as nothing, a spelled value is found by `=` as well. -/
theorem Spelled.sqlEqual {kind : Field → FieldKind} {write : Field → Option pg.Datum → Option String} {f : Field} {v : Json}
    (h : Spelled number kind Field.equal write f v) (hnull : write f none = none) :
    Spelled number kind Keyed.sqlEqual write f v := by
  intro x hx y hy
  rw [← h x hx y hy]
  cases y with
  | none =>
    have hwrite := (h x hx none hy).1
    rw [hnull] at hwrite
    refine iff_of_false (by simp [Keyed.sqlEqual, Pg.equals]) fun hequal => ?_
    cases hwrite hequal
  | some d =>
    cases x <;> cases hrequired : f.required <;>
      simp [Keyed.sqlEqual, Field.equal, Pg.equals, Pg.notDistinct, hrequired]

/-- What a lookup by texts needs, where the key's values are spelled as its columns are. -/
theorem told_of_spelled {kind : Field → FieldKind} {equal : Field → Option pg.Datum → Option pg.Datum → Bool}
    {write : Field → Option pg.Datum → Option String} {on : List Field} {values : Members}
    {key : List (Option pg.Datum)} {keys : List (List (Option pg.Datum))} {stored : List (Row pg)} {same : Row pg → Bool}
    (hkey : keyOf number pg kind on values = some key) (hmem : key ∈ keys) (hfilled : ∀ r ∈ stored, Filled on r)
    (hnames : ∀ f ∈ on, Spelled number kind Field.equal write f (f.valueOf values))
    (hjoins : ∀ f ∈ on, Spelled number kind equal write f (f.valueOf values))
    (hsame : ∀ r, same r = true ↔ ∀ f ∈ on,
      write f (r.column f.info.name) = some (stringOf number (databaseValue number .other (f.valueOf values))))
    (hsingle : ∀ r ∈ stored, ∀ s ∈ stored, same r = true → same s = true → r = s) :
    Told (fun r => r ∈ stored ∧ Names number kind on values r) (joined equal on keys stored) same := by
  have hnamed : ∀ r ∈ stored, Names number kind on values r ↔ same r = true := by
    intro r hr
    have hmatches := (matchesKey_iff number hkey (hfilled r hr) hnames).trans (hsame r).symm
    constructor
    · rintro ⟨key', hkey', hequal⟩
      obtain rfl := Option.some.inj (hkey.symm.trans hkey')
      exact hmatches.1 hequal
    · exact fun h => ⟨key, hkey, hmatches.2 h⟩
  refine ⟨fun r ⟨hr, hname⟩ => ?_, fun r hr h => ?_, fun r s ⟨hr, hr'⟩ ⟨hs, hs'⟩ => ?_⟩
  · have h := (hnamed r hr).1 hname
    have hjoined := (matchesKey_iff number hkey (hfilled r hr) hjoins).2 ((hsame r).1 h)
    exact ⟨List.mem_filter.2 ⟨hr, List.any_eq_true.2 ⟨key, hmem, hjoined⟩⟩, h⟩
  · have hstored := (List.mem_filter.1 hr).1
    exact ⟨hstored, (hnamed r hstored).2 h⟩
  · exact hsingle r hr s hs ((hnamed r hr).1 hr') ((hnamed s hs).1 hs')

/-- Upserts by one key, with values spelled as the columns of an act's own rows, find what they name. -/
theorem upsertsTold_of_spelled {stored : List (Row pg)} {first : Upsert} {rest : List Upsert}
    (hon : ∀ u ∈ first :: rest, u.on = first.on) (hfilled : ∀ r ∈ stored, Filled first.on r)
    (hspelled : ∀ u ∈ first :: rest, ∀ f ∈ first.on,
      @Spelled pg number (·.info.kind) Field.equal (exactText number) f (f.valueOf u.values))
    (hsingle : ∀ r ∈ stored, ∀ s ∈ stored, rowTexts number first.on r = rowTexts number first.on s → r = s) :
    UpsertsTold number stored (first :: rest) := by
  intro selected hselected u hu
  obtain ⟨keys, hkeys, rfl⟩ := Option.map_eq_some_iff.1 hselected
  obtain ⟨key, hmem, hkey⟩ := Fallible.exists_mem_of_mapM_eq_some hkeys hu
  rw [hon u hu]
  refine told_of_spelled number hkey hmem hfilled (hspelled u hu) (hspelled u hu) (fun r => ?_)
    fun r hr s hs hr' hs' => ?_
  · rw [beq_iff_eq, rowTexts, itemTexts, List.map_inj_left]
    exact forall₂_congr fun f _ => Option.some_inj.symm
  · exact hsingle r hr s hs ((beq_iff_eq.1 hr').trans (beq_iff_eq.1 hs').symm)

/-- References with values spelled as the columns' texts find what they name. -/
theorem refsTold_of_spelled {modelKey : String → List Field} {relations : List Relation} {rows : List Json}
    {stored : String → List (Row pg)} (h : ∀ list, wants modelKey relations rows = .ok list → ∀ w ∈ list,
      (∀ r ∈ stored w.target, Filled w.key r) ∧
      (∀ x ∈ w.named, ∀ f ∈ w.key, @Spelled pg number (fun _ => .other) Field.equal
        (fun f y => y.map (pg.text f.info.pg)) f (f.valueOf x.values)) ∧
      ∀ r ∈ stored w.target, ∀ s ∈ stored w.target, (∀ f ∈ w.key, columnText f r = columnText f s) → r = s) :
    RefsTold number modelKey relations rows stored := by
  intro list hlist w hw selected hselected x hx
  obtain ⟨hfilled, hspelled, hsingle⟩ := h list hlist w hw
  obtain ⟨keys, hkeys, rfl⟩ := Option.map_eq_some_iff.1 hselected
  obtain ⟨key, hmem, hkey⟩ := Fallible.exists_mem_of_mapM_eq_some hkeys hx
  refine told_of_spelled number hkey hmem hfilled (hspelled x hx) (fun f hf => (hspelled x hx f hf).sqlEqual number rfl)
    (fun r => ?_) fun r hr s hs hr' hs' => ?_
  · simp only [List.all_eq_true, beq_iff_eq]
    rfl
  · simp only [List.all_eq_true, beq_iff_eq] at hr' hs'
    exact hsingle r hr s hs fun f hf => (hr' f hf).trans (hs' f hf).symm

/-- A text in a required column of texts is spelled as the column writes it. -/
theorem spelled_text {kind : Field → FieldKind} {f : Field} {s : String} {type : String} (htype : f.info.pg = type)
    (hrequired : f.required = true) {write : Field → Option pg.Datum → Option String}
    (hinput : ∀ d, pg.input type (.string s) = some d → ∀ e, pg.eq type e d = true ↔ write f (some e) = some s) :
    @Spelled pg number kind Field.equal write f (.string s) := by
  intro x hx y hy
  subst htype
  have hvalue : ∀ k, databaseValue number k (.string s) = .string s := fun _ => rfl
  rw [hvalue] at hx ⊢
  obtain ⟨d, hd, rfl⟩ := Option.map_eq_some_iff.1 hx
  obtain ⟨e, rfl⟩ := Option.ne_none_iff_exists'.1 (hy hrequired)
  rw [Field.equal, if_pos hrequired, stringOf, ← hinput d hd e]
  simp [Pg.equals]

/-- Upserts and references find the row the database finds just where its key columns read back with
the texts of the supplied values, and no other row's do. -/
theorem finds_iff {upserts : List Upsert} {stored : List (Row pg)} {modelKey : String → List Field}
    {relations : List Relation} {rows : List Json} {targets : String → List (Row pg)} :
    (UpsertsFind number stored upserts ∧ RefsFind number modelKey relations rows targets) ↔
      UpsertsTold number stored upserts ∧ RefsTold number modelKey relations rows targets :=
  and_congr (upsertsFind_iff number) (refsFind_iff number)

/-- An import goes on past its references just where each of them hits a row. -/
theorem importRefs_ok {modelKey : String → List Field} {answers : Want → List (Row pg)} {relations : List Relation}
    {rows : List Json} {list : List Want} (hlist : wants modelKey relations rows = .ok list) :
    (∃ out, importRefs number modelKey answers relations rows = .ok out) ↔
      ∀ w ∈ list, ∀ x ∈ w.named, (hit number w.key (answers w) x.values).isSome = true := by
  have hresolve (w : Want) (x : Named) : (∃ cell, w.resolve number (answers w) x = .ok cell) ↔
      (hit number w.key (answers w) x.values).isSome = true := by
    rw [Want.resolve]
    cases hit number w.key (answers w) x.values <;> simp
  rw [importRefs, hlist]
  constructor
  · rintro ⟨out, hout⟩ w hw x hx
    have hne : list.isEmpty = false := by
      cases list with
      | nil => cases hw
      | cons _ _ => rfl
    obtain ⟨_, hcells, hout⟩ := Fallible.bind_eq_ok.1 hout
    cases hcells
    rw [hne] at hout
    obtain ⟨cells, hcells, -⟩ := Fallible.bind_eq_ok.1 hout
    exact (hresolve w x).1 (Fallible.mapM_eq_ok_of_mem hcells
      (List.mem_flatMap.2 ⟨w, hw, List.mem_map_of_mem hx⟩))
  · intro h
    cases hempty : list.isEmpty with
    | true => exact ⟨rows, Fallible.bind_eq_ok.2 ⟨list, rfl, by rw [hempty]; rfl⟩⟩
    | false =>
      have hall : ∀ x ∈ list.flatMap fun w => w.named.map (w, ·),
          ∃ cell, x.1.resolve number (answers x.1) x.2 = .ok cell := by
        intro x hx
        obtain ⟨w, hw, hx⟩ := List.mem_flatMap.1 hx
        obtain ⟨y, hy, rfl⟩ := List.mem_map.1 hx
        exact (hresolve w y).2 (h w hw y hy)
      obtain ⟨cells, hcells⟩ := Fallible.exists_mapM_eq_ok hall
      exact ⟨_, Fallible.bind_eq_ok.2 ⟨list, rfl, by rw [hempty]; exact Fallible.bind_eq_ok.2 ⟨cells, hcells, rfl⟩⟩⟩

end

/-- Decimals, each kept as it is spelled. -/
def decimals : Pg where
  Datum := String
  eq _ a b :=
    match Decimal.of a, Decimal.of b with
    | .ok x, .ok y => x.cmp y == .eq
    | _, _ => false
  input _
    | .string s => if isDecimalText s then some s else none
    | _ => none
  json _ s := .string s
  text _ s := s
  lower s := s

def rate : Field where
  info := { name := "rate", pg := "numeric" }

/-- A stored rate of 1.20. -/
def stored : List (Row decimals) := [⟨"r1", fun _ => some "1.20"⟩]

/-- A rate of 1.2 is the stored 1.20 to the database, and is not found. -/
theorem scale_not_found :
    ¬UpsertsFind toString stored [⟨[rate], [("rate", .object [("$dec", .string "1.2")])]⟩] := by
  intro h
  have hjoined : joined Field.equal [rate] [[some "1.2"]] stored = stored :=
    List.filter_eq_self.2 fun r hr => by
      obtain rfl := List.mem_singleton.1 hr
      decide
  have hfinds := h stored (congrArg some hjoined) stored (.refl _) _ List.mem_cons_self ⟨"r1", fun _ => some "1.20"⟩
  have hmem := hfinds.2 ⟨List.mem_cons_self, [some "1.2"], rfl, by decide⟩
  rw [mem_resolveUpserts toString List.mem_cons_self] at hmem
  cases hmem

end Norbital.Bolt.Keyed

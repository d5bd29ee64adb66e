import Mathlib.Algebra.GroupWithZero.Nat
import Mathlib.Data.List.Dedup
import Mathlib.Data.List.Pairwise
import Mathlib.Data.List.ProdSigma
import Mathlib.Data.Nat.Basic
import Mathlib.Order.Lattice
import Norbital.Store.Schema.Constraints

/-!
# Violation queries

When PostgreSQL adds a constraint to a table's rows, and what the query
`schemaObjects` (`store/src/schema/ddl.ts`) gives the constraint counts in them.

`V` are the values of columns, equal as PostgreSQL's `=` says; a row holds none where it
is null.
-/

namespace Norbital.Store.Violations

open Constraints JsString

/-- Whether a type has an equality, which B-tree indexes and `group by` use. -/
def hasEq : PgType → Bool
  | .point => false
  | _ => true

/-- Whether a GiST index has the type's equality. -/
def gistEq : PgType → Bool
  | .point | .vector _ | .jsonb | .textArray => false
  | _ => true

/-- Whether the type has `&&`. -/
def hasOverlap : PgType → Bool
  | .daterange | .tstzrange | .textArray => true
  | _ => false

/-- Whether a GiST index has the type's `&&`. -/
def gistOverlap : PgType → Bool
  | .daterange | .tstzrange => true
  | _ => false

/-- Whether the type reads `sentinel`, the empty text for the types not listed there. -/
def readsSentinel : PgType → Bool
  | .boolean | .uuid | .int | .bigint | .numeric | .double | .date | .timestamptz | .text => true
  | _ => false

/-- The predicate of an exclusion stands in parentheses. -/
def parenthesised (sql : Name) : Bool := sql.head? == some 40

abbrev Row (V : Type) := Name → Option V

/-- What values, predicates and check expressions mean. -/
structure Sql (V W : Type) where
  /-- A static predicate, two-valued. -/
  holds : W → Row V → Bool
  eval : Name → Row V → Option Bool
  /-- `&&`. -/
  overlaps : V → V → Bool
  overlaps_comm : ∀ v w, overlaps v w = overlaps w v
  sentinel : PgType → V

section Rows

variable {V W : Type} [LinearOrder V]

/-- `a = b` is true. -/
def sqlEq : Option V → Option V → Bool
  | some v, some w => v == w
  | _, _ => false

/-- `(a, …) < (b, …)` is true. -/
def rowLess : List (Option V) → List (Option V) → Bool
  | some v :: vs, some w :: ws => if v = w then rowLess vs ws else decide (v < w)
  | _, _ => false

variable (sql : Sql V W)

/-- The parts `nullAsValue` makes of a column are equal. -/
def asValue (a b : Row V) (c : Name × Col) : Bool :=
  if c.2.optional then
    (a c.1).getD (sql.sentinel c.2.type) == (b c.1).getD (sql.sentinel c.2.type) && (a c.1).isNone == (b c.1).isNone
  else sqlEq (a c.1) (b c.1)

def overlapping (period : Name) (a b : Row V) : Bool :=
  match a period, b period with
  | some v, some w => sql.overlaps v w
  | _, _ => false

/-- Two rows the constraint does not let stand together. -/
def conflicts : Definition W → Row V → Row V → Bool
  | .unique cols true _, a, b => cols.all fun c => a c == b c
  | .unique cols false _, a, b => cols.all fun c => sqlEq (a c) (b c)
  | .exclude keys pred, a, b => sql.holds pred.w a && sql.holds pred.w b &&
    if 1 < keys.length then keys.all (asValue sql a b) else keys.all fun k => sqlEq (a k.1) (b k.1)
  | .overlap keys period pred, a, b => pred.all (fun p => sql.holds p.w a && sql.holds p.w b) &&
    keys.all (asValue sql a b) && overlapping sql period a b
  | _, _, _ => false

/-- `num_nonnulls(…)`. -/
def nonnulls (cols : List Name) (row : Row V) : ℕ := cols.countP fun c => (row c).isSome

def armsHold (cols : List Name) (optional : Bool) (row : Row V) : Bool :=
  if optional then decide (nonnulls cols row ≤ 1) else decide (nonnulls cols row = 1)

variable (tables : Name → List (Row V))

/-- A row the constraint lets stand. -/
def admits : Definition W → Row V → Bool
  | .check expr, row => sql.eval expr row ≠ some false
  | .arms cols optional, row => armsHold cols optional row
  | .foreignKey col target key _, row => (row col).isNone || (tables target).any fun p => p key == row col
  | _, _ => true

variable (typing : Name → Option Col)

def typesAll (p : PgType → Bool) (cols : List Name) : Bool := cols.all fun c => (typing c).any fun col => p col.type

/-- Whether PostgreSQL takes the definition at all. -/
def valid : Definition W → Bool
  | .unique cols _ _ => !cols.isEmpty && decide cols.Nodup && typesAll typing hasEq cols
  | .exclude keys pred => !keys.isEmpty && keys.all (fun k => hasEq k.2.type) && parenthesised pred.sql &&
    (keys.length ≤ 1 || keys.all fun k => !k.2.optional || readsSentinel k.2.type)
  | .overlap keys period pred => keys.all (fun k => gistEq k.2.type && (!k.2.optional || readsSentinel k.2.type)) &&
    typesAll typing gistOverlap [period] && pred.all fun p => parenthesised p.sql
  | _ => true

/-- Whether PostgreSQL adds the constraint to the rows. -/
def Addable (definition : Definition W) (rows : List (Row V)) : Prop :=
  valid typing definition = true ∧ (rows.Pairwise fun a b => conflicts sql definition a b = false) ∧
    ∀ row ∈ rows, admits sql tables definition row = true

/-- Rows of a `dupes` query. -/
def counted (present : Option Name) (pred : Option W) (row : Row V) : Bool :=
  present.all (fun c => (row c).isSome) && pred.all fun w => sql.holds w row

/-- `sum(n - 1)` over the groups. -/
def beyondFirst (keys : List (List (Option V))) : ℕ := (keys.dedup.map fun k => keys.count k - 1).sum

/-- The rows alike and overlapping. -/
def alike (cols : List Name) (period : Name) (pred : Option W) (a b : Row V) : Bool :=
  cols.all (fun c => a c == b c) && overlapping sql period a b && pred.all fun w => sql.holds w a && sql.holds w b

/-- Whether the query runs. -/
def runs : Violations W → Bool
  | .dupes cols _ _ => !cols.isEmpty && typesAll typing hasEq cols
  | .overlaps _ cols period _ => typesAll typing hasEq cols && typesAll typing hasOverlap [period]
  | _ => true

def tally (rows : List (Row V)) : Violations W → ℕ
  | .dupes cols present pred => beyondFirst ((rows.filter (counted sql present pred)).map fun row => cols.map row)
  | .isFalse expr => rows.countP fun row => sql.eval expr row == some false
  | .armsFalse cols optional => rows.countP fun row => !armsHold cols optional row
  | .overlaps key cols period pred => (rows ×ˢ rows).countP fun p =>
    rowLess (key.map p.1) (key.map p.2) && alike sql cols period pred p.1 p.2
  | .orphans col target key => rows.countP fun row => (row col).isSome && !(tables target).any fun p => p key == row col
  | .isNull col => rows.countP fun row => (row col).isNone

/-- What the query returns. -/
def count (rows : List (Row V)) (q : Violations W) : Option ℕ := if runs typing q then some (tally sql tables rows q) else none

/-- Two rows the query counts together. -/
def together : Violations W → Row V → Row V → Bool
  | .dupes cols present pred, a, b => counted sql present pred a && counted sql present pred b && cols.all fun c => a c == b c
  | .overlaps _ cols period pred, a, b => alike sql cols period pred a b
  | _, _, _ => false

/-- The columns in which a constraint does not compare nulls. -/
def strict : Definition W → List Name
  | .unique cols false _ => cols
  | .exclude keys _ => if 1 < keys.length then (keys.filter fun k => !k.2.optional).map Prod.fst else keys.map Prod.fst
  | .overlap keys _ _ => (keys.filter fun k => !k.2.optional).map Prod.fst
  | _ => []

/-- Some two rows are related. -/
def Some₂ (related : Row V → Row V → Bool) (rows : List (Row V)) : Prop := ¬ rows.Pairwise fun a b => related a b = false

/-- PostgreSQL takes the definition, and of the rows the query counts together some hold values where the constraint
compares no nulls; or it does not, and the query counts some. -/
def Comparable (definition : Definition W) (q : Violations W) (rows : List (Row V)) : Prop :=
  runs typing q = true →
    if valid typing definition then
      Some₂ (together sql q) rows → Some₂ (fun a b => together sql q a b && (strict definition).all fun c => (a c).isSome) rows
    else Some₂ (together sql q) rows

theorem sqlEq_eq (x y : Option V) : sqlEq x y = (x == y && x.isSome) := by
  cases x <;> cases y <;> simp [sqlEq]

theorem beyondFirst_eq_zero {keys : List (List (Option V))} : beyondFirst keys = 0 ↔ keys.Nodup := by
  rw [beyondFirst, List.sum_eq_zero_iff_forall_eq_nat, List.nodup_iff_count_le_one]
  simp only [List.mem_map, List.mem_dedup, forall_exists_index, and_imp, forall_apply_eq_imp_iff₂]
  refine forall_congr' fun k => ?_
  by_cases hk : k ∈ keys
  · simp only [hk, forall_const]
    omega
  · simp [hk, List.count_eq_zero_of_not_mem hk]

/-- A key less than another is another; of two keys one is less. -/
theorem rowLess_irrefl (ks : List (Option V)) : rowLess ks ks = false := by
  induction ks with
  | nil => rfl
  | cons k ks ih =>
    cases k with
    | none => rfl
    | some v => rw [rowLess, if_pos rfl, ih]

theorem rowLess_total {ks ks' : List (Option V)} (hlen : ks.length = ks'.length) (h : ∀ k ∈ ks, k.isSome)
    (h' : ∀ k ∈ ks', k.isSome) (hne : ks ≠ ks') : rowLess ks ks' = true ∨ rowLess ks' ks = true := by
  induction ks generalizing ks' with
  | nil =>
    cases ks' with
    | nil => exact absurd rfl hne
    | cons k' ks' => cases hlen
  | cons k ks ih =>
    cases ks' with
    | nil => cases hlen
    | cons k' ks' =>
      obtain ⟨v, rfl⟩ := Option.isSome_iff_exists.1 (h k List.mem_cons_self)
      obtain ⟨w, rfl⟩ := Option.isSome_iff_exists.1 (h' k' List.mem_cons_self)
      simp only [rowLess]
      rcases lt_trichotomy v w with hlt | rfl | hlt
      · exact .inl (by rw [if_neg hlt.ne, decide_eq_true hlt])
      · rw [if_pos rfl, if_pos rfl]
        exact ih (Nat.succ.inj hlen) (fun k hk => h k (List.mem_cons_of_mem _ hk))
          (fun k hk => h' k (List.mem_cons_of_mem _ hk)) fun heq => hne (heq ▸ rfl)
      · exact .inr (by rw [if_neg hlt.ne, decide_eq_true hlt])

theorem alike_comm (cols : List Name) (period : Name) (pred : Option W) (a b : Row V) :
    alike sql cols period pred a b = alike sql cols period pred b a := by
  have hcols : (cols.all fun c => a c == b c) = cols.all fun c => b c == a c := by
    simp only [Bool.beq_comm]
  have hperiod : overlapping sql period a b = overlapping sql period b a := by
    simp only [overlapping]
    cases a period <;> cases b period <;> simp [sql.overlaps_comm]
  simp only [alike, hcols, hperiod, Bool.and_comm]

/-- A table's rows, its key of values and each once. -/
def Keyed (key : List Name) (rows : List (Row V)) : Prop :=
  (rows.map fun row => key.map row).Nodup ∧ ∀ row ∈ rows, ∀ k ∈ key, (row k).isSome

theorem overlaps_eq_zero {key cols : List Name} {period : Name} {pred : Option W} {rows : List (Row V)} (h : Keyed key rows) :
    tally sql tables rows (.overlaps key cols period pred) = 0 ↔
      rows.Pairwise fun a b => alike sql cols period pred a b = false := by
  obtain ⟨hnodup, hsome⟩ := h
  have hdistinct : rows.Pairwise fun a b => key.map a ≠ key.map b := List.pairwise_map.1 hnodup
  simp only [tally, List.countP_eq_zero, List.mem_product, Prod.forall, Bool.and_eq_true, not_and, Bool.not_eq_true]
  constructor
  · intro hnone
    refine hdistinct.imp_of_mem fun {a b} ha hb hne => ?_
    rcases rowLess_total (by simp) (by simpa using hsome a ha) (by simpa using hsome b hb) hne with hless | hless
    · exact hnone a b ⟨ha, hb⟩ hless
    · rw [alike_comm]
      exact hnone b a ⟨hb, ha⟩ hless
  · rintro hpairs a b ⟨ha, hb⟩ hless
    have hne : a ≠ b := by
      rintro rfl
      rw [rowLess_irrefl] at hless
      cases hless
    have hsymm : Std.Symm fun a b : Row V => alike sql cols period pred a b = false :=
      ⟨fun a b hab => by rw [alike_comm, hab]⟩
    exact hpairs.forall ha hb hne

theorem dupes_eq_zero {cols : List Name} {present : Option Name} {pred : Option W} {rows : List (Row V)} :
    tally sql tables rows (.dupes cols present pred) = 0 ↔
      rows.Pairwise fun a b => together sql (.dupes cols present pred) a b = false := by
  rw [tally, beyondFirst_eq_zero, List.Nodup, List.pairwise_map, List.pairwise_filter]
  refine iff_of_eq (congrArg (List.Pairwise · rows) ?_)
  funext a b
  simp only [together, Bool.and_eq_false_imp, Bool.and_eq_true, and_imp, List.all_eq_false, ne_eq, List.map_inj_left,
    not_forall, eq_iff_iff]
  simp

variable {sql} in
/-- The parts of a column are equal when its values, null or not, are: for any sentinel. -/
theorem asValue_eq (a b : Row V) (c : Name × Col) :
    asValue sql a b c = (a c.1 == b c.1 && (c.2.optional || (a c.1).isSome)) := by
  rw [asValue]
  cases c.2.optional with
  | false => simp [sqlEq_eq]
  | true =>
    cases a c.1 <;> cases b c.1 <;> simp

/-- The definitions and queries that are emitted together. -/
inductive Emitted (typing : Name → Option Col) (key : List Name) : Definition W → Violations W → Prop
  | single (c : Name) (deferrable : Bool) : Emitted typing key (.unique [c] false deferrable) (.dupes [c] (some c) none)
  | composite (cols : List Name) (deferrable : Bool) : Emitted typing key (.unique cols true deferrable) (.dupes cols none none)
  | natural (cols : List Name) (deferrable : Bool) : Emitted typing key (.unique cols false deferrable) (.dupes cols none none)
  | exclude (keys : List (Name × Col)) (pred : Pred W) (htyped : ∀ k ∈ keys, typing k.1 = some k.2) :
    1 < keys.length → Emitted typing key (.exclude keys pred) (.dupes (keys.map Prod.fst) none (some pred.w))
  | excludeSingle (k : Name × Col) (pred : Pred W) (htyped : typing k.1 = some k.2) :
    Emitted typing key (.exclude [k] pred) (.dupes [k.1] (some k.1) (some pred.w))
  | overlap (keys : List (Name × Col)) (period : Name) (pred : Option (Pred W))
    (htyped : ∀ k ∈ keys, typing k.1 = some k.2) :
    Emitted typing key (.overlap keys period pred) (.overlaps key (keys.map Prod.fst) period (pred.map Pred.w))
  | check (expr : Name) : Emitted typing key (.check expr) (.isFalse expr)
  | arms (cols : List Name) (optional : Bool) : Emitted typing key (.arms cols optional) (.armsFalse cols optional)
  | foreignKey (col target k onDelete : Name) : Emitted typing key (.foreignKey col target k onDelete) (.orphans col target k)

variable {sql} {tables} {typing}

omit [LinearOrder V] in
/-- A constraint whose conflicts are the query's pairs that hold values in some columns. -/
theorem exact_of_pairs {rows : List (Row V)} {run valid : Bool} {T C : Row V → Row V → Bool} {S : Row V → Bool}
    (hvalid : valid = true → run = true) (hC : ∀ a b, C a b = (T a b && S a)) :
    ((run = true ∧ rows.Pairwise fun a b => T a b = false) ↔ (valid = true ∧ rows.Pairwise fun a b => C a b = false)) ↔
      (run = true → if valid then Some₂ T rows → Some₂ (fun a b => T a b && S a) rows else Some₂ T rows) := by
  have hconflict : (rows.Pairwise fun a b => C a b = false) ↔ rows.Pairwise fun a b => (T a b && S a) = false := by
    simp only [hC]
  have hweaker : (rows.Pairwise fun a b => T a b = false) → rows.Pairwise fun a b => (T a b && S a) = false :=
    fun h => h.imp fun hab => by simp [hab]
  rw [hconflict]
  simp only [Some₂]
  cases valid with
  | true =>
    simp only [hvalid rfl, true_and, if_true, forall_const]
    tauto
  | false =>
    cases run <;> simp

omit [LinearOrder V] in
/-- A constraint on each row, whose query counts the others. -/
theorem exact_of_rows {rows : List (Row V)} {admitted : Row V → Bool} {counts : Row V → Bool}
    (h : ∀ row, counts row = !admitted row) : rows.countP counts = 0 ↔ ∀ row ∈ rows, admitted row = true := by
  simp [List.countP_eq_zero, h]

theorem gistEq_hasEq (t : PgType) (h : gistEq t = true) : hasEq t = true := by
  cases t <;> first | rfl | cases h

theorem typesAll_of_typed {p : PgType → Bool} {keys : List (Name × Col)} (htyped : ∀ k ∈ keys, typing k.1 = some k.2)
    (h : ∀ k ∈ keys, p k.2.type = true) : typesAll typing p (keys.map Prod.fst) = true := by
  simp only [typesAll, List.all_map, List.all_eq_true, Function.comp_apply]
  intro k hk
  simp [htyped k hk, h k hk]

theorem runs_of_valid {key : List Name} {d : Definition W} {q : Violations W} (h : Emitted typing key d q)
    (hvalid : valid typing d = true) : runs typing q = true := by
  have hunique {cols : List Name} {nulls deferrable : Bool} {present : Option Name} {pred : Option W}
      (h : valid typing (.unique cols nulls deferrable : Definition W) = true) : runs typing (.dupes cols present pred) = true := by
    simp only [valid, Bool.and_eq_true] at h
    simp only [runs, Bool.and_eq_true]
    exact ⟨h.1.1, h.2⟩
  cases h with
  | single c deferrable => exact hunique hvalid
  | composite cols deferrable => exact hunique hvalid
  | natural cols deferrable => exact hunique hvalid
  | exclude keys pred htyped hlen =>
    simp only [valid, Bool.and_eq_true, List.all_eq_true] at hvalid
    simp only [runs, Bool.and_eq_true]
    exact ⟨by simpa using hvalid.1.1.1, typesAll_of_typed htyped hvalid.1.1.2⟩
  | excludeSingle k pred htyped =>
    simp only [valid, Bool.and_eq_true, List.all_eq_true] at hvalid
    have hk : ∀ k' ∈ [k], typing k'.1 = some k'.2 := by simpa using htyped
    have htypes := typesAll_of_typed hk hvalid.1.1.2
    simpa [runs] using htypes
  | overlap keys period pred htyped =>
    simp only [valid, Bool.and_eq_true, List.all_eq_true] at hvalid
    simp only [runs, Bool.and_eq_true]
    refine ⟨typesAll_of_typed htyped fun k hk => gistEq_hasEq _ (hvalid.1.1 k hk).1, ?_⟩
    have hperiod (t : PgType) (ht : gistOverlap t = true) : hasOverlap t = true := by cases t <;> first | rfl | cases ht
    have hrange := hvalid.1.2
    simp only [typesAll, List.all_cons, List.all_nil, Bool.and_true, Option.any_eq_true] at hrange ⊢
    obtain ⟨col, hcol, hgist⟩ := hrange
    exact ⟨col, hcol, hperiod _ hgist⟩
  | check | arms | foreignKey => rfl

theorem all_asValue (keys : List (Name × Col)) (a b : Row V) : keys.all (asValue sql a b) =
    ((keys.map Prod.fst).all (fun c => a c == b c) &&
      ((keys.filter fun k => !k.2.optional).map Prod.fst).all fun c => (a c).isSome) := by
  induction keys with
  | nil => rfl
  | cons k keys ih =>
    rw [List.all_cons, ih, asValue_eq, List.filter_cons]
    cases k.2.optional with
    | true => simp [Bool.and_assoc]
    | false => simp [Bool.and_assoc, Bool.and_left_comm]

theorem all_sqlEq (cols : List Name) (a b : Row V) : (cols.all fun c => sqlEq (a c) (b c)) =
    (cols.all (fun c => a c == b c) && cols.all fun c => (a c).isSome) := by
  induction cols with
  | nil => rfl
  | cons c cols ih =>
    rw [List.all_cons, ih, sqlEq_eq, List.all_cons, List.all_cons]
    simp only [Bool.and_assoc, Bool.and_left_comm]

/-- A pair conflicts when the query counts it and the constraint compares no null of it. -/
theorem conflicts_eq {key : List Name} {d : Definition W} {q : Violations W} (h : Emitted typing key d q) (a b : Row V) :
    conflicts sql d a b = (together sql q a b && (strict d).all fun c => (a c).isSome) := by
  cases h with
  | single c deferrable =>
    rw [conflicts, all_sqlEq]
    simp only [together, counted, strict]
    cases ha : a c <;> cases hb : b c <;> simp [ha, hb]
  | composite cols deferrable => simp [conflicts, together, counted, strict]
  | natural cols deferrable =>
    rw [conflicts, all_sqlEq]
    simp [together, counted, strict]
  | exclude keys pred htyped hlen =>
    rw [conflicts, if_pos hlen, all_asValue]
    simp [together, counted, strict, hlen, Bool.and_assoc]
  | excludeSingle k pred htyped =>
    simp only [conflicts, together, counted, strict, List.length_singleton, Nat.lt_irrefl, if_false, List.all_cons,
      List.all_nil, Bool.and_true, sqlEq_eq, Option.all_some, List.map_cons, List.map_nil]
    cases ha : a k.1 <;> cases hb : b k.1 <;> simp
  | overlap keys period pred htyped =>
    rw [conflicts, all_asValue]
    simp only [together, alike, strict, Option.all_map]
    cases pred with
    | none => simp [Bool.and_assoc, Bool.and_comm]
    | some p => simp [Bool.and_assoc, Bool.and_comm, Bool.and_left_comm]
  | check | arms | foreignKey => rfl

/-- For a constraint and its query, on rows of a key. -/
theorem comparable_iff {key : List Name} {d : Definition W} {q : Violations W} (h : Emitted typing key d q)
    {rows : List (Row V)} (hkeyed : Keyed key rows) :
    (count sql tables typing rows q = some 0 ↔ Addable sql tables typing d rows) ↔ Comparable sql typing d q rows := by
  have hconflicts : ∀ a b, conflicts sql d a b = (together sql q a b && (strict d).all fun c => (a c).isSome) := conflicts_eq h
  have hpairs := @exact_of_pairs V rows _ _ _ _ _ (runs_of_valid h) hconflicts
  have hcount : count sql tables typing rows q = some 0 ↔ runs typing q = true ∧ tally sql tables rows q = 0 := by
    rw [count]
    split_ifs with hrun <;> simp [hrun]
  rw [hcount, Comparable, ← hpairs, Addable]
  have hrows {d' : Definition W} {q' : Violations W} (hrun : runs typing q' = true) (hvalid : valid typing d' = true)
      (hapart : ∀ a b : Row V, together sql q' a b = false ∧ conflicts sql d' a b = false)
      (htally : tally sql tables rows q' = 0 ↔ ∀ row ∈ rows, admits sql tables d' row = true) :
      (runs typing q' = true ∧ tally sql tables rows q' = 0 ↔
        valid typing d' = true ∧ (rows.Pairwise fun a b => conflicts sql d' a b = false) ∧
          ∀ row ∈ rows, admits sql tables d' row = true) ↔
      (runs typing q' = true ∧ (rows.Pairwise fun a b => together sql q' a b = false) ↔
        valid typing d' = true ∧ rows.Pairwise fun a b => conflicts sql d' a b = false) := by
    have htogether : rows.Pairwise fun a b => together sql q' a b = false := List.pairwise_of_forall fun a b => (hapart a b).1
    have hconflicts : rows.Pairwise fun a b => conflicts sql d' a b = false := List.pairwise_of_forall fun a b => (hapart a b).2
    simp [hrun, hvalid, htogether, hconflicts, htally]
  cases h with
  | single | composite | natural | exclude | excludeSingle => simp [dupes_eq_zero, admits]
  | overlap => simp [overlaps_eq_zero sql tables hkeyed, admits, together]
  | check expr =>
    refine hrows rfl rfl (fun a b => ⟨rfl, rfl⟩) (exact_of_rows fun row => ?_)
    rw [admits]
    cases sql.eval expr row <;> simp
  | arms cols optional => exact hrows rfl rfl (fun a b => ⟨rfl, rfl⟩) (exact_of_rows fun row => rfl)
  | foreignKey col target k onDelete =>
    refine hrows rfl rfl (fun a b => ⟨rfl, rfl⟩) (exact_of_rows fun row => ?_)
    rw [admits]
    cases row col <;> simp

end Rows

section Emission

variable {V W X : Type} {r : Rendering W X} {s : SchemaSpec W X} {t : Table W X} {c : Columns} {key : List Name}

/-- The columns of a schema's tables. -/
def columnTypes (s : SchemaSpec W X) (table col : Name) : Option Col :=
  match relations s with
  | .error _ => none
  | .ok rels =>
    match (s.table? table).map (columnsOf s rels) with
    | some (.ok c) => c.typing col
    | _ => none

theorem table?_of_mem (ht : t ∈ s.tables) : s.table? t.name = some t := by
  obtain ⟨t', ht'⟩ : ∃ t', s.table? t.name = some t' := by
    rw [← Option.isSome_iff_exists, SchemaSpec.table?, List.find?_isSome]
    exact ⟨t, ht, beq_self_eq_true t.name⟩
  obtain rfl : t' = t :=
    List.inj_on_of_nodup_map s.nodup (List.mem_of_find?_eq_some ht') ht (by simpa using List.find?_some ht')
  exact ht'

theorem columnTypes_eq {rels : List Rel} (hrels : relations s = .ok rels) (ht : t ∈ s.tables)
    (hc : columnsOf s rels t = .ok c) (col : Name) : columnTypes s t.name col = c.typing col := by
  rw [columnTypes, hrels, table?_of_mem ht]
  simp [hc, Columns.typing]

/-- An object's query, when it has one, is emitted with its definition. -/
def Queried (typing : Name → Option Col) (key : List Name) (table : Name) (o : Object W) : Prop :=
  o.table = table ∧ ∀ q, o.violations = some q → Emitted typing key o.definition q

theorem queried_index (typing : Name → Option Col) (kind : ObjectKind) (sql : Name) :
    Queried typing key t.name (index t kind sql : Object W) := ⟨rfl, fun _ h => nomatch h⟩

theorem queried_check (typing : Name → Option Col) (expr : Name) : Queried typing key t.name (check t expr : Object W) := by
  refine ⟨rfl, fun q h => ?_⟩
  cases h
  exact .check expr

theorem queried_some {typing : Name → Option Col} {table : Name} {kind : ObjectKind} {d : Definition W} {q : Violations W}
    (h : Emitted typing key d q) : Queried typing key table ⟨table, kind, d, some q⟩ :=
  ⟨rfl, fun _ hq => Option.some.inj hq ▸ h⟩

theorem keyChecks_queried {os : List (Object W)} (h : keyChecks r s t key = .ok os) {typing : Name → Option Col}
    {key' : List Name} : ∀ o ∈ os, Queried typing key' t.name o := by
  rw [keyChecks] at h
  split_ifs at h
  · obtain ⟨checks, hchecks, h⟩ := Fallible.bind_eq_ok.1 h
    obtain rfl := Except.ok.inj h
    intro o ho
    obtain ⟨_, hcheck, rfl⟩ := List.mem_filterMap.1 ho
    refine Fallible.forall_mem_of_mapM (P := fun y => ∀ o, y = some o → Queried typing key' t.name o) hchecks
      (fun name _ y hy o hyo => ?_) _ hcheck o rfl
    split at hy
    · cases hy
      cases hyo
    · obtain ⟨sql, -, hy⟩ := Fallible.bind_eq_ok.1 hy
      obtain rfl := Except.ok.inj hy
      obtain ⟨expr, -, rfl⟩ := Option.map_eq_some_iff.1 hyo
      exact queried_check typing expr
  · cases h
    exact fun o ho => nomatch ho

theorem kindIndex_queried (f : FieldSpec) (typing : Name → Option Col) (key' : List Name) :
    ∀ o ∈ kindIndex t f, Queried (W := W) typing key' t.name o := by
  rw [kindIndex]
  split <;> simp [queried_index, hnsw]

theorem fieldObjects_queried {f : FieldSpec} {os : List (Object W)} (h : fieldObjects r s t c key f = .ok os)
    {typing : Name → Option Col} {key' : List Name} : ∀ o ∈ os, Queried typing key' t.name o := by
  rw [fieldObjects] at h
  split_ifs at h
  · cases h
    exact fun o ho => nomatch ho
  obtain ⟨kc, -, h⟩ := Fallible.bind_eq_ok.1 h
  obtain ⟨seq, hseq, h⟩ := Fallible.bind_eq_ok.1 h
  obtain rfl := Except.ok.inj h
  intro o ho
  simp only [List.mem_append] at ho
  rcases ho with ((ho | ho) | ho) | ho
  · obtain ⟨expr, -, rfl⟩ := Option.map_eq_some_iff.1 (Option.mem_toList.1 ho)
    exact queried_check typing expr
  · exact kindIndex_queried f typing key' o ho
  · rw [uniqueField] at ho
    split_ifs at ho
    · obtain rfl := List.mem_singleton.1 ho
      exact queried_some (.single _ _)
    · cases ho
  · rw [seqObjects] at hseq
    split at hseq
    · obtain ⟨scope, -, hseq⟩ := Fallible.bind_eq_ok.1 hseq
      obtain rfl := Except.ok.inj hseq
      obtain rfl := List.mem_singleton.1 ho
      exact queried_some (.composite _ _)
    · cases hseq
      cases ho

theorem searchObjects_queried {os : List (Object W)} (h : searchObjects r s t = .ok os) {typing : Name → Option Col}
    {key' : List Name} : ∀ o ∈ os, Queried typing key' t.name o := by
  rw [searchObjects] at h
  obtain ⟨label, -, h⟩ := Fallible.bind_eq_ok.1 h
  split at h
  · cases h
    exact fun o ho => nomatch ho
  · obtain ⟨declared, hdeclared, h⟩ := Fallible.bind_eq_ok.1 h
    obtain rfl := Except.ok.inj h
    intro o ho
    simp only [List.mem_cons, List.mem_append, List.mem_flatten] at ho
    rcases ho with rfl | ho | ⟨os, hos, ho⟩
    · exact queried_index typing _ _
    · split_ifs at ho
      · obtain rfl := List.mem_singleton.1 ho
        exact queried_index typing _ _
      · cases ho
    · refine Fallible.forall_mem_of_mapM (P := fun os => ∀ o ∈ os, Queried typing key' t.name o) hdeclared
        (fun i _ os hos => ?_) os hos o ho
      split at hos
      · split at hos
        · split_ifs at hos
          · cases hos
            exact fun o ho => nomatch ho
          · cases hos
        · cases hos
      · obtain ⟨column, -, hos⟩ := Fallible.bind_eq_ok.1 hos
        obtain rfl := Except.ok.inj hos
        intro o ho
        obtain rfl := List.mem_singleton.1 ho
        exact queried_index typing _ _

theorem naturalObjects_queried {os : List (Object W)} (h : naturalObjects t c = .ok os) {typing : Name → Option Col}
    {key' : List Name} : ∀ o ∈ os, Queried typing key' t.name o := by
  rw [naturalObjects] at h
  split at h
  · cases h
    exact fun o ho => nomatch ho
  · obtain ⟨cols, -, h⟩ := Fallible.bind_eq_ok.1 h
    obtain rfl := Except.ok.inj h
    intro o ho
    obtain rfl := List.mem_singleton.1 ho
    exact queried_some (.natural _ _)

theorem typed_eq_ok {cols : List Name} {keys : List (Name × Col)} (h : typed t c cols = .ok keys) :
    keys.map Prod.fst = cols ∧ ∀ k ∈ keys, c.typing k.1 = some k.2 := by
  rw [typed, Fallible.mapM_eq_ok] at h
  induction h with
  | nil => exact ⟨rfl, fun k hk => nomatch hk⟩
  | @cons name k cols keys hk _ ih =>
    split at hk
    · cases hk
    · obtain rfl := Except.ok.inj hk
      exact ⟨by rw [List.map_cons, ih.1], List.forall_mem_cons.2 ⟨‹_›, ih.2⟩⟩

theorem partialUnique_queried {cols : List Name} {w : W} {o : Object W} (hcols : cols ≠ [])
    (h : partialUnique r s t c cols w = .ok o) : Queried c.typing key t.name o := by
  rw [partialUnique] at h
  split_ifs at h
  · obtain ⟨sql, -, h⟩ := Fallible.bind_eq_ok.1 h
    obtain ⟨keys, hkeys, h⟩ := Fallible.bind_eq_ok.1 h
    obtain rfl := Except.ok.inj h
    obtain ⟨rfl, htyped⟩ := typed_eq_ok hkeys
    match keys with
    | [] => exact absurd rfl hcols
    | [k] => exact queried_some (.excludeSingle k _ (htyped k List.mem_cons_self))
    | k :: k' :: keys => exact queried_some (.exclude _ ⟨w, sql⟩ htyped (by simp))
  · obtain ⟨sql, -, h⟩ := Fallible.bind_eq_ok.1 h
    obtain rfl := Except.ok.inj h
    exact queried_index c.typing _ _

theorem uniqueObject_queried {u : UniqueSpec W} {o : Object W} (h : uniqueObject r s t c u = .ok o) :
    Queried c.typing key t.name o := by
  rw [uniqueObject] at h
  obtain ⟨cols, -, h⟩ := Fallible.bind_eq_ok.1 h
  split_ifs at h with hempty
  · cases h
  cases hpred : u.pred with
  | none =>
    rw [hpred] at h
    obtain rfl := Except.ok.inj h
    match cols with
    | [] => exact absurd rfl hempty
    | [_] => exact queried_some (.single _ _)
    | _ :: _ :: _ => exact queried_some (.composite _ _)
  | some w =>
    rw [hpred] at h
    exact partialUnique_queried (by simpa using hempty) h

theorem predOf_eq_ok {w : Option W} {pred : Option (Pred W)} (h : predOf r s t w = .ok pred) : w = pred.map Pred.w := by
  cases w with
  | none =>
    cases h
    rfl
  | some w =>
    obtain ⟨sql, -, h⟩ := Fallible.bind_eq_ok.1 h
    obtain rfl := Except.ok.inj h
    rfl

theorem overlapObject_queried {n : NoOverlap W} {o : Object W} (h : overlapObject r s t c key n = .ok o) :
    Queried c.typing key t.name o := by
  rw [overlapObject] at h
  obtain ⟨cols, -, h⟩ := Fallible.bind_eq_ok.1 h
  obtain ⟨pred, hpred, h⟩ := Fallible.bind_eq_ok.1 h
  obtain ⟨keys, hkeys, h⟩ := Fallible.bind_eq_ok.1 h
  obtain rfl := Except.ok.inj h
  obtain ⟨rfl, htyped⟩ := typed_eq_ok hkeys
  rw [predOf_eq_ok hpred]
  exact queried_some (.overlap keys _ pred htyped)

theorem indexObject_queried {i : IndexSpec W X} {o : Object W} (h : indexObject r s t c i = .ok o)
    {typing : Name → Option Col} {key' : List Name} : Queried typing key' t.name o := by
  rw [indexObject] at h
  obtain ⟨on, -, h⟩ := Fallible.bind_eq_ok.1 h
  obtain ⟨pred, -, h⟩ := Fallible.bind_eq_ok.1 h
  obtain rfl := Except.ok.inj h
  exact queried_index typing _ _

theorem pathObject_queried {p : PathIndex} {o : Object W} (h : pathObject r s t c p = .ok o)
    {typing : Name → Option Col} {key' : List Name} : Queried typing key' t.name o := by
  cases p with
  | gin field =>
    obtain ⟨_, -, h⟩ := Fallible.bind_eq_ok.1 h
    obtain rfl := Except.ok.inj h
    exact queried_index typing _ _
  | path field path =>
    obtain ⟨_, -, h⟩ := Fallible.bind_eq_ok.1 h
    obtain ⟨text, -, h⟩ := Fallible.bind_eq_ok.1 h
    obtain rfl := Except.ok.inj h
    exact queried_index typing _ _

theorem tableObjects_queried {os : List (Object W)} (h : tableObjects r s t c = .ok os) :
    ∃ keys, keyOf t = .ok keys ∧ ∀ o ∈ os, Queried c.typing (keys.map Prod.fst) t.name o := by
  obtain ⟨keys, hkeys, h⟩ := Fallible.bind_eq_ok.1 h
  obtain ⟨checked, hchecked, h⟩ := Fallible.bind_eq_ok.1 h
  obtain ⟨fields, hfields, h⟩ := Fallible.bind_eq_ok.1 h
  obtain ⟨search, hsearch, h⟩ := Fallible.bind_eq_ok.1 h
  obtain ⟨natural, hnatural, h⟩ := Fallible.bind_eq_ok.1 h
  obtain ⟨unique, hunique, h⟩ := Fallible.bind_eq_ok.1 h
  obtain ⟨checks, -, h⟩ := Fallible.bind_eq_ok.1 h
  obtain ⟨overlaps, hoverlaps, h⟩ := Fallible.bind_eq_ok.1 h
  obtain ⟨plain, hplain, h⟩ := Fallible.bind_eq_ok.1 h
  obtain ⟨indexes, hindexes, h⟩ := Fallible.bind_eq_ok.1 h
  obtain ⟨paths, hpaths, h⟩ := Fallible.bind_eq_ok.1 h
  obtain rfl := Except.ok.inj h
  refine ⟨keys, hkeys, fun o ho => ?_⟩
  simp only [List.mem_append, or_assoc] at ho
  rcases ho with ho | ho | ho | ho | ho | ho | ho | ho | ho | ho
  · exact keyChecks_queried hchecked o ho
  · obtain ⟨os, hos, ho⟩ := List.mem_flatten.1 ho
    exact Fallible.forall_mem_of_mapM (P := fun os => ∀ o ∈ os, Queried c.typing (keys.map Prod.fst) t.name o) hfields
      (fun f _ os hos => fieldObjects_queried hos) os hos o ho
  · exact searchObjects_queried hsearch o ho
  · exact naturalObjects_queried hnatural o ho
  · exact Fallible.forall_mem_of_mapM hunique (fun u _ o ho => uniqueObject_queried ho) o ho
  · obtain ⟨expr, -, rfl⟩ := List.mem_map.1 ho
    exact queried_check c.typing expr
  · exact Fallible.forall_mem_of_mapM hoverlaps (fun n _ o ho => overlapObject_queried ho) o ho
  · refine Fallible.forall_mem_of_mapM hplain (fun i _ o ho => ?_) o ho
    obtain ⟨cols, -, ho⟩ := Fallible.bind_eq_ok.1 ho
    obtain rfl := Except.ok.inj ho
    exact queried_index c.typing _ _
  · exact Fallible.forall_mem_of_mapM hindexes (fun i _ o ho => indexObject_queried ho) o ho
  · exact Fallible.forall_mem_of_mapM hpaths (fun i _ o ho => pathObject_queried ho) o ho

theorem relationObjects_queried {rel : Rel} {os : List (Object W)} (h : relationObjects s rel = .ok os) :
    ∃ t ∈ s.tables, rel.model = t.name ∧ ∀ typing key, ∀ o ∈ os, Queried typing key t.name o := by
  rw [relationObjects] at h
  cases howner : s.table? rel.model with
  | none => simp [howner, fail] at h
  | some owner =>
    have hmem : owner ∈ s.tables := List.mem_of_find?_eq_some howner
    have hname : owner.name = rel.model := by simpa using List.find?_some howner
    rw [howner] at h
    obtain ⟨each, heach, h⟩ := Fallible.bind_eq_ok.1 h
    obtain rfl := Except.ok.inj h
    refine ⟨owner, hmem, hname.symm, fun typing key o ho => ?_⟩
    rw [hname]
    rcases List.mem_append.1 ho with ho | ho
    · obtain ⟨os, hos, ho⟩ := List.mem_flatten.1 ho
      refine Fallible.forall_mem_of_mapM (P := fun os => ∀ o ∈ os, Queried typing key rel.model o) heach
        (fun col _ os hos => ?_) os hos o ho
      obtain ⟨target, -, hos⟩ := Fallible.bind_eq_ok.1 hos
      obtain rfl := Except.ok.inj hos
      intro o ho
      simp only [List.mem_cons, List.mem_append, List.not_mem_nil, or_false] at ho
      rcases ho with rfl | ho | rfl
      · exact queried_some (.foreignKey _ _ _ _)
      · split_ifs at ho
        · obtain rfl := List.mem_singleton.1 ho
          exact queried_some (.single _ _)
        · cases ho
      · exact ⟨rfl, fun q hq => nomatch hq⟩
    · split_ifs at ho
      · obtain rfl := List.mem_singleton.1 ho
        exact queried_some (.arms _ _)
      · cases ho

/-- A table of the schema has every constraint that is counted, with its query. -/
theorem pushed_queried {os : List (Object W)} (h : pushed r s = .ok os) {o : Object W} (ho : o ∈ os) {q : Violations W}
    (hq : o.violations = some q) : ∃ t ∈ s.tables, o.table = t.name ∧ ∃ keys, keyOf t = .ok keys ∧
      Emitted (columnTypes s t.name) (keys.map Prod.fst) o.definition q := by
  obtain ⟨rels, hrels, h⟩ := Fallible.bind_eq_ok.1 h
  obtain ⟨columns, hcolumns, h⟩ := Fallible.bind_eq_ok.1 h
  obtain ⟨tables, htables, h⟩ := Fallible.bind_eq_ok.1 h
  obtain ⟨relations, hrelations, h⟩ := Fallible.bind_eq_ok.1 h
  obtain ⟨_, -, h⟩ := Fallible.bind_eq_ok.1 h
  obtain rfl := Except.ok.inj h
  have heach := Fallible.mapM_zip_eq_ok.1 ⟨columns, hcolumns, htables⟩
  have htable {t : Table W X} (ht : t ∈ s.tables) : ∃ c os, columnsOf s rels t = .ok c ∧ tableObjects r s t c = .ok os := by
    obtain ⟨os, hos⟩ := Fallible.mapM_eq_ok_of_mem heach ht
    obtain ⟨c, hc, hos⟩ := Fallible.bind_eq_ok.1 hos
    exact ⟨c, os, hc, hos⟩
  rcases List.mem_append.1 ho with ho | ho
  · rcases List.mem_append.1 ho with ho | ho
    · obtain ⟨os, hos, ho⟩ := List.mem_flatten.1 ho
      refine Fallible.forall_mem_of_mapM (P := fun os => ∀ o ∈ os, ∀ q, o.violations = some q → ∃ t ∈ s.tables,
        o.table = t.name ∧ ∃ keys, keyOf t = .ok keys ∧ Emitted (columnTypes s t.name) (keys.map Prod.fst) o.definition q)
        heach (fun t ht os hos o ho q hq => ?_) os hos o ho q hq
      obtain ⟨c, hc, hos⟩ := Fallible.bind_eq_ok.1 hos
      obtain ⟨keys, hkeys, hqueried⟩ := tableObjects_queried hos
      have htyping : columnTypes s t.name = c.typing := by
        funext col
        exact columnTypes_eq hrels ht hc col
      exact ⟨t, ht, (hqueried o ho).1, keys, hkeys, htyping ▸ (hqueried o ho).2 q hq⟩
    · obtain ⟨os, hos, ho⟩ := List.mem_flatten.1 ho
      refine Fallible.forall_mem_of_mapM (P := fun os => ∀ o ∈ os, ∀ q, o.violations = some q → ∃ t ∈ s.tables,
        o.table = t.name ∧ ∃ keys, keyOf t = .ok keys ∧ Emitted (columnTypes s t.name) (keys.map Prod.fst) o.definition q)
        hrelations (fun rel _ os hos o ho q hq => ?_) os hos o ho q hq
      obtain ⟨t, ht, -, hqueried⟩ := relationObjects_queried hos
      obtain ⟨c, os', -, hos'⟩ := htable ht
      obtain ⟨keys, hkeys, -⟩ := tableObjects_queried hos'
      obtain ⟨hname, hemitted⟩ := hqueried (columnTypes s t.name) (keys.map Prod.fst) o ho
      exact ⟨t, ht, hname, keys, hkeys, hemitted q hq⟩
  · obtain ⟨t, -, ho⟩ := List.mem_flatMap.1 ho
    obtain ⟨m, -, ho⟩ := List.mem_flatMap.1 ho
    simp only [List.mem_cons, List.not_mem_nil, or_false] at ho
    rcases ho with rfl | rfl <;> cases hq

variable [LinearOrder V]

/-- The rows of a schema's tables, each of its table's key. -/
structure Content (V : Type) [LinearOrder V] (s : SchemaSpec W X) where
  rows : Name → List (Row V)
  keyed : ∀ t ∈ s.tables, ∀ keys, keyOf t = .ok keys → Keyed (keys.map Prod.fst) (rows t.name)

/-- A counted constraint's query returns 0 exactly when PostgreSQL adds it, where the two are comparable; a column's
always does. -/
theorem validates_iff (sql : Sql V W) {os : List (Object W)} (h : pushed r s = .ok os) (db : Content V s) :
    (∀ o ∈ os, ∀ q, o.violations = some q →
      ((count sql db.rows (columnTypes s o.table) (db.rows o.table) q = some 0 ↔
        Addable sql db.rows (columnTypes s o.table) o.definition (db.rows o.table)) ↔
          Comparable sql (columnTypes s o.table) o.definition q (db.rows o.table))) ∧
    ∀ ns, notNulls s = .ok ns → ∀ n ∈ ns, count sql db.rows (columnTypes s n.table) (db.rows n.table) n.violations = some 0 ↔
      ∀ row ∈ db.rows n.table, (row n.col).isSome := by
  constructor
  · intro o ho q hq
    obtain ⟨t, ht, hname, keys, hkeys, hemitted⟩ := pushed_queried h ho hq
    rw [hname]
    exact comparable_iff hemitted (db.keyed t ht keys hkeys)
  · intro ns _ n _
    simp [count, runs, NotNull.violations, tally, List.countP_eq_zero, Option.isSome_iff_ne_none]

end Emission

-- A room is visited once at a time, as long as the visit is open; the time may be unknown.

def visits (kind : Kind) : Table Unit Empty where
  name := ascii "visit"
  fields := [⟨ascii "room", .text false, false, false⟩, ⟨ascii "at", kind, true, false⟩, ⟨ascii "open", .bool, false, false⟩]
  key := .uuid
  audit := true
  native := true
  managedDeletes := false
  identity := none
  natural := none
  unique := [⟨[ascii "room", ascii "at"], some ()⟩]
  check := []
  noOverlap := []
  index := []
  indexes := []
  paths := []
  computed := []
  search := none
  through := []

def visitSchema (kind : Kind) : SchemaSpec Unit Empty := ⟨[visits kind], by simp⟩

def visitRendering : Rendering Unit Empty where
  staticSql := fun _ _ _ => .ok (ascii "(coalesce(\"open\" = true, false))")
  plainSql := fun _ _ _ => .ok (ascii "(\"open\" = true)")
  kindCheck := fun _ _ f => match f.kind with
    | .time => .ok (some (q f.name ++ ascii " < time '24:00'"))
    | .date => .ok (some (ascii "isfinite(" ++ q f.name ++ ascii ")"))
    | _ => .ok none
  exprSql := fun _ _ x => x.elim
  pathText := fun _ _ field _ => .ok field
  recordLabel := fun _ _ => .ok none
  rest := fun _ => .ok ()

def visitSql : Sql ℕ Unit where
  holds := fun _ row => row (ascii "open") == some 1
  eval := fun _ row => (row (ascii "at")).map fun v => decide (v < 2400)
  overlaps := fun _ _ => false
  overlaps_comm := fun _ _ => rfl
  sentinel := fun _ => 0

def visit (id room : ℕ) (start : Option ℕ) (isOpen : ℕ) : Row ℕ := fun c =>
  if c = ascii "id" then some id else if c = ascii "room" then some room else if c = ascii "at" then start
  else if c = ascii "open" then some isOpen else none

/-- Visits of two rooms: the open ones differ, also by a time that is unknown; two closed ones do not. -/
def someVisits : List (Row ℕ) := [visit 1 101 (some 5) 1, visit 2 101 none 1, visit 3 101 (some 5) 0, visit 4 101 (some 5) 0,
  visit 5 102 none 1]

def visitsContent (kind : Kind) (rows : List (Row ℕ)) (h : Keyed [ascii "id"] rows) : Content ℕ (visitSchema kind) where
  rows := fun _ => rows
  keyed := by
    intro t ht keys hkeys
    obtain rfl := List.mem_singleton.1 ht
    obtain rfl := Except.ok.inj hkeys
    exact h

/-- The exclusion that keeps open visits apart, and its query. -/
def exclusion (kind : Kind) : Option (Object Unit × Violations Unit) :=
  (pushed visitRendering (visitSchema kind)).toOption.bind fun os =>
    (os.find? fun o => o.kind = .ex).bind fun o => o.violations.map fun q => (o, q)

theorem exists_of_exclusion (kind : Kind) {p : Object Unit → Violations Unit → Bool}
    (h : (exclusion kind).any (fun e => p e.1 e.2) = true) :
    ∃ os, pushed visitRendering (visitSchema kind) = .ok os ∧ ∃ o ∈ os, ∃ q, o.violations = some q ∧ p o q = true := by
  obtain ⟨⟨o, q⟩, he, hp⟩ := (Option.any_eq_true _ _).1 h
  rw [exclusion] at he
  cases hos : pushed visitRendering (visitSchema kind) with
  | error e => simp [hos, Except.toOption] at he
  | ok os =>
    simp only [hos, Except.toOption, Option.bind_some] at he
    obtain ⟨o', ho, hq⟩ := Option.bind_eq_some_iff.1 he
    obtain ⟨q', hviolations, heq⟩ := Option.map_eq_some_iff.1 hq
    obtain ⟨rfl, rfl⟩ := Prod.mk.inj heq
    exact ⟨os, rfl, o', List.mem_of_find?_eq_some ho, q', hviolations, hp⟩

instance {V : Type} [LinearOrder V] (related : Row V → Row V → Bool) (rows : List (Row V)) : Decidable (Some₂ related rows) :=
  inferInstanceAs (Decidable (¬ _))

instance {V W : Type} [LinearOrder V] (sql : Sql V W) (typing : Name → Option Col) (definition : Definition W) (q : Violations W)
    (rows : List (Row V)) : Decidable (Comparable sql typing definition q rows) :=
  inferInstanceAs (Decidable (runs typing q = true → if valid typing definition then
    Some₂ (together sql q) rows → Some₂ (fun a b => together sql q a b && (strict definition).all fun c => (a c).isSome) rows
      else Some₂ (together sql q) rows))

/-- A date's stand-in is `-infinity`: the exclusion is added to visits of which the open ones differ, and not to
them and another open one of the second room, whose time is unknown as well. -/
theorem validates_visits : ∃ os, pushed visitRendering (visitSchema .date) = .ok os ∧ ∃ o ∈ os, ∃ q, o.violations = some q ∧
    Addable visitSql (fun _ => someVisits) (columnTypes (visitSchema .date) o.table) o.definition someVisits ∧
    ¬ Addable visitSql (fun _ => visit 6 102 none 1 :: someVisits) (columnTypes (visitSchema .date) o.table) o.definition
      (visit 6 102 none 1 :: someVisits) := by
  have hkept : Keyed [ascii "id"] someVisits := by
    unfold Keyed
    decide
  have hbroken : Keyed [ascii "id"] (visit 6 102 none 1 :: someVisits) := by
    unfold Keyed
    decide
  obtain ⟨os, hos, o, ho, q, hq, hp⟩ := exists_of_exclusion .date (p := fun o q =>
    decide (Comparable visitSql (columnTypes (visitSchema .date) o.table) o.definition q someVisits ∧
      count visitSql (fun _ => someVisits) (columnTypes (visitSchema .date) o.table) someVisits q = some 0 ∧
      Comparable visitSql (columnTypes (visitSchema .date) o.table) o.definition q (visit 6 102 none 1 :: someVisits) ∧
      count visitSql (fun _ => visit 6 102 none 1 :: someVisits) (columnTypes (visitSchema .date) o.table)
        (visit 6 102 none 1 :: someVisits) q = some 1)) (by decide)
  obtain ⟨hcomparable, hzero, hcomparable', hone⟩ := of_decide_eq_true hp
  refine ⟨os, hos, o, ho, q, hq,
    (((validates_iff visitSql hos (visitsContent .date someVisits hkept)).1 o ho q hq).2 hcomparable).1 hzero, fun h => ?_⟩
  have hnone := (((validates_iff visitSql hos (visitsContent .date _ hbroken)).1 o ho q hq).2 hcomparable').2 h
  exact absurd (hone.symm.trans hnone) (by decide)

/-- No text is the stand-in of a time: the query counts nothing, and PostgreSQL refuses the exclusion. -/
theorem refused_time : ∃ os, pushed visitRendering (visitSchema .time) = .ok os ∧ ∃ o ∈ os, ∃ q, o.violations = some q ∧
    count visitSql (fun _ => []) (columnTypes (visitSchema .time) o.table) [] q = some 0 ∧
      ¬ Addable visitSql (fun _ => []) (columnTypes (visitSchema .time) o.table) o.definition [] := by
  obtain ⟨os, hos, o, ho, q, hq, hp⟩ := exists_of_exclusion .time (p := fun o q =>
    decide (valid (columnTypes (visitSchema .time) o.table) o.definition = false ∧
      count visitSql (fun _ => []) (columnTypes (visitSchema .time) o.table) [] q = some 0)) (by decide)
  obtain ⟨hvalid, hcount⟩ := of_decide_eq_true hp
  refine ⟨os, hos, o, ho, q, hq, hcount, fun h => ?_⟩
  rw [h.1] at hvalid
  cases hvalid

end Norbital.Store.Violations

import Mathlib.Algebra.GroupWithZero.Nat
import Mathlib.Data.Finset.Card
import Mathlib.Data.List.Dedup
import Mathlib.Data.String.Basic
import Mathlib.Logic.Function.Basic
import Norbital.Lib.Entries
import Norbital.Lib.Runs

/-!
# Read guards

The reads a run has shown to its code, kept until a commit has asserted them
(`makeReadGuards`, `bolt/src/engine/write/sql.ts`), beside a record of what was read
in which crossing.
-/

namespace Norbital.Bolt.ReadGuards

open Norbital.Lib

variable {Sql Key : Type}

/-- The text that identifies a statement, and the encoded lengths of that text and of table names. -/
structure Texts (Sql Key : Type) where
  canonical : Sql → Key
  size : Key → ℕ
  tablesSize : List String → ℕ

structure Fingerprint (Sql : Type) where
  sql : Sql
  digest : String

/-- `LIMITS.readGuards`. -/
def limitCount : ℕ := 256

def limitBytes : ℕ := 4 * 1048576

/-- `[...new Set(tables)].sort()`. -/
def sortedSet (tables : List String) : List String := tables.dedup.mergeSort fun a b => decide (a ≤ b)

structure Entry (Sql : Type) where
  fingerprint : Fingerprint Sql
  tables : List String
  generation : ℕ

/-- What a crossing has captured. -/
structure Crossing (Sql Key : Type) where
  pending : List (Key × Fingerprint Sql) := []
  changed : Bool := false

/-- The state of one `makeReadGuards`; a crossing that has not begun has captured nothing. -/
structure Guards (Sql Key : Type) where
  published : List (Key × Entry Sql) := []
  generation : ℕ := 0
  inconsistent : Bool := false
  begun : ℕ := 0
  crossings : ℕ → Crossing Sql Key := fun _ => {}

structure Snapshot (Sql : Type) where
  generation : ℕ
  fingerprints : List (Fingerprint Sql)
  tables : List String
  inconsistent : Bool

inductive Refusal where
  | conflict
  | readBudgetExceeded
  deriving DecidableEq, Repr

section Code

variable [DecidableEq Key] (T : Texts Sql Key)

namespace Crossing

/-- `pending.get(key) ?? published.get(key)?.fingerprint`. -/
def first (published : List (Key × Entry Sql)) (x : Crossing Sql Key) (key : Key) : Option (Fingerprint Sql) :=
  (x.pending.lookup key).or ((published.lookup key).map Entry.fingerprint)

/-- One fingerprint of a read. -/
def capture (published : List (Key × Entry Sql)) (x : Crossing Sql Key) (f : Fingerprint Sql) : Crossing Sql Key where
  pending :=
    if (x.pending.lookup (T.canonical f.sql)).isSome then x.pending
    else put (T.canonical f.sql) ((x.first published (T.canonical f.sql)).getD f) x.pending
  changed := x.changed || (x.first published (T.canonical f.sql)).any (·.digest ≠ f.digest)

/-- The entry a pending read becomes. -/
def entry (published : List (Key × Entry Sql)) (tables : List String) (generation : ℕ) (key : Key) (f : Fingerprint Sql) :
    Entry Sql where
  fingerprint := ((published.lookup key).map Entry.fingerprint).getD f
  tables := sortedSet (((published.lookup key).map Entry.tables).getD [] ++ sortedSet tables)
  generation := generation

def next (published : List (Key × Entry Sql)) (tables : List String) (generation : ℕ) (x : Crossing Sql Key) :
    List (Key × Entry Sql) :=
  x.pending.foldl (fun next p => put p.1 (entry published tables generation p.1 p.2) next) published

/-- `changed`, once the pending reads have met the published ones. -/
def clashes (published : List (Key × Entry Sql)) (x : Crossing Sql Key) : Bool :=
  x.changed || x.pending.any fun p => (published.lookup p.1).any (·.fingerprint.digest ≠ p.2.digest)

end Crossing

def overBudget (next : List (Key × Entry Sql)) : Bool :=
  limitCount < next.length ||
    limitBytes < (next.map fun e => T.size e.1).sum + T.tablesSize (sortedSet (next.flatMap (·.2.tables)))

namespace Guards

def begin (s : Guards Sql Key) : Guards Sql Key := { s with begun := s.begun + 1 }

def read (s : Guards Sql Key) (c : ℕ) (captured : List (Fingerprint Sql)) : Guards Sql Key :=
  { s with crossings := Function.update s.crossings c (captured.foldl (Crossing.capture T s.published) (s.crossings c)) }

/-- `tables` is the set the crossing began with, as it stands now. -/
def finish (s : Guards Sql Key) (c : ℕ) (tables : List String) : Guards Sql Key × Option Refusal :=
  let next := (s.crossings c).next s.published tables (s.generation + 1)
  if s.inconsistent || (s.crossings c).clashes s.published then
    ({ s with inconsistent := true, generation := s.generation + 1 }, some .conflict)
  else if overBudget T next then (s, some .readBudgetExceeded)
  else ({ s with published := next, generation := s.generation + 1 }, none)

def snapshot (s : Guards Sql Key) : Snapshot Sql where
  generation := s.generation
  fingerprints := s.published.map fun e => e.2.fingerprint
  tables := sortedSet (s.published.flatMap fun e => e.2.tables)
  inconsistent := s.inconsistent

def consume (s : Guards Sql Key) (consumed : ℕ) : Guards Sql Key :=
  { s with published := s.published.filter fun e => ¬e.2.generation ≤ consumed }

end Guards

end Code

/-- A crossing's reads in turn, and whether one differed from the reads it was then compared with. -/
structure Record (Key : Type) where
  reads : List (Key × String) := []
  clashed : Bool := false

/-- A crossing that finished: its reads are covered by the snapshots of its generation and later. -/
structure Done (Key : Type) where
  reads : List (Key × String)
  tables : List String
  generation : ℕ

inductive Call (Sql : Type) where
  | begin
  | read (c : ℕ) (captured : List (Fingerprint Sql))
  | finish (c : ℕ) (tables : List String)
  | snapshot
  | consume (consumed : ℕ)

/-- The guards with the record of the calls: the finished crossings that no consumption has covered are live. -/
structure World (Sql Key : Type) where
  guards : Guards Sql Key := {}
  records : ℕ → Record Key := fun _ => {}
  live : List (Done Key) := []
  failed : Bool := false

section World

variable [DecidableEq Key] (T : Texts Sql Key)

/-- Another read of the statement had another digest. -/
def differs (r : Key × String) (reads : List (Key × String)) : Bool := reads.any fun r' => r'.1 = r.1 && r'.2 ≠ r.2

/-- A crossing's first read of a statement is compared with the finished reads, a later one with its own. -/
def Record.read (finished : List (Key × String)) (x : Record Key) (r : Key × String) : Record Key where
  reads := x.reads ++ [r]
  clashed := x.clashed || if x.reads.any (·.1 = r.1) then differs r x.reads else differs r finished

/-- Also compared with the finished reads as they now are. -/
def Record.clashes (finished : List (Key × String)) (x : Record Key) : Bool := x.clashed || x.reads.any (differs · finished)

def Fingerprint.seen (f : Fingerprint Sql) : Key × String := (T.canonical f.sql, f.digest)

namespace World

/-- The reads of finished crossings that no consumption has covered. -/
def finished (w : World Sql Key) : List (Key × String) := w.live.flatMap Done.reads

def step (w : World Sql Key) : Call Sql → World Sql Key
  | .begin => { w with guards := w.guards.begin }
  | .read c captured =>
    { w with
      guards := w.guards.read T c captured
      records := Function.update w.records c ((captured.map (Fingerprint.seen T)).foldl (Record.read w.finished) (w.records c)) }
  | .finish c tables =>
    let answer := w.guards.finish T c tables
    { w with
      guards := answer.1
      live := if answer.2 = none then w.live ++ [⟨(w.records c).reads, tables, answer.1.generation⟩] else w.live
      failed := w.failed || (w.records c).clashes w.finished }
  | .snapshot => w
  | .consume consumed =>
    { w with guards := w.guards.consume consumed, live := w.live.filter fun done => ¬done.generation ≤ consumed }

def run (calls : List (Call Sql)) : World Sql Key := calls.foldl (step T) {}

end World

end World

section Sim

variable [DecidableEq Key] {T : Texts Sql Key}

theorem mem_sortedSet {t : String} {tables : List String} : t ∈ sortedSet tables ↔ t ∈ tables := by
  rw [sortedSet, List.mem_mergeSort, List.mem_dedup]

theorem differs_iff {r : Key × String} {reads : List (Key × String)} :
    differs r reads = true ↔ ∃ r' ∈ reads, r'.1 = r.1 ∧ r'.2 ≠ r.2 := by
  simp [differs]

/-- The published entries are those of the finished reads. -/
structure Shows (published : List (Key × Entry Sql)) (finished : List (Key × String)) : Prop where
  shown : ∀ r ∈ finished, ∃ e, published.lookup r.1 = some e ∧ e.fingerprint.digest = r.2
  owed : ∀ key e, published.lookup key = some e → ∃ r ∈ finished, r.1 = key

theorem Shows.differs_eq {published : List (Key × Entry Sql)} {finished : List (Key × String)}
    (h : Shows published finished) (r : Key × String) :
    differs r finished = (published.lookup r.1).any (·.fingerprint.digest ≠ r.2) := by
  rw [Bool.eq_iff_iff, differs_iff, Option.any_eq_true]
  constructor
  · rintro ⟨r', hr', hkey, hne⟩
    obtain ⟨e, he, hdigest⟩ := h.shown r' hr'
    exact ⟨e, hkey ▸ he, decide_eq_true (hdigest ▸ hne)⟩
  · rintro ⟨e, he, hne⟩
    obtain ⟨r', hr', hkey⟩ := h.owed r.1 e he
    obtain ⟨e', he', hdigest⟩ := h.shown r' hr'
    obtain rfl : e' = e := Option.some.inj (he'.symm.trans (hkey ▸ he))
    exact ⟨r', hr', hkey, hdigest ▸ of_decide_eq_true hne⟩

/-- A crossing's captures are its reads: one for each statement, and until one clashed with the digest of all of them. -/
structure Agrees (T : Texts Sql Key) (x : Crossing Sql Key) (rec : Record Key) : Prop where
  nodup : (x.pending.map Prod.fst).Nodup
  canonical : ∀ p ∈ x.pending, T.canonical p.2.sql = p.1
  changed : x.changed = rec.clashed
  has : ∀ key, (x.pending.lookup key).isSome = rec.reads.any (·.1 = key)
  same : x.changed = false → ∀ r ∈ rec.reads, ∃ f, x.pending.lookup r.1 = some f ∧ f.digest = r.2

theorem Agrees.start : Agrees T {} {} := ⟨List.nodup_nil, nofun, rfl, fun _ => rfl, fun _ => nofun⟩

namespace Agrees

variable {published : List (Key × Entry Sql)} {finished : List (Key × String)} {x : Crossing Sql Key} {rec : Record Key}

/-- A statement that was read is in the captures, with the digest of each of its reads. -/
theorem differs_eq (h : Agrees T x rec) (hx : x.changed = false) {key : Key} {f : Fingerprint Sql}
    (hf : x.pending.lookup key = some f) (digest : String) : differs (key, digest) rec.reads = decide (f.digest ≠ digest) := by
  rw [Bool.eq_iff_iff, differs_iff, decide_eq_true_iff]
  constructor
  · rintro ⟨r, hr, hkey, hne⟩
    obtain ⟨f', hf', hdigest⟩ := h.same hx r hr
    obtain rfl : f' = f := Option.some.inj (hf'.symm.trans (hkey ▸ hf))
    rwa [hdigest]
  · intro hne
    have hany : rec.reads.any (·.1 = key) = true := by rw [← h.has key, hf, Option.isSome_some]
    obtain ⟨r, hr, hkey⟩ := List.any_eq_true.mp hany
    obtain rfl := of_decide_eq_true hkey
    obtain ⟨f', hf', hdigest⟩ := h.same hx r hr
    obtain rfl : f' = f := Option.some.inj (hf'.symm.trans hf)
    exact ⟨r, hr, rfl, hdigest ▸ hne⟩

theorem capture (hp : Shows published finished) (hcanonical : ∀ e ∈ published, T.canonical e.2.fingerprint.sql = e.1)
    (h : Agrees T x rec) (f : Fingerprint Sql) : Agrees T (x.capture T published f) (rec.read finished (f.seen T)) := by
  cases hpending : x.pending.lookup (T.canonical f.sql) with
  | some g =>
    -- read before: the capture stays, and is what the read is compared with
    have hown : rec.reads.any (·.1 = T.canonical f.sql) = true := by rw [← h.has, hpending, Option.isSome_some]
    have hfirst : x.first published (T.canonical f.sql) = some g := by rw [Crossing.first, hpending, Option.some_or]
    have hcapture : x.capture T published f = ⟨x.pending, x.changed || decide (g.digest ≠ f.digest)⟩ := by
      rw [Crossing.capture, hpending, hfirst, Option.isSome_some, if_pos rfl, Option.any_some]
    rw [hcapture]
    exact {
      nodup := h.nodup
      canonical := h.canonical
      changed := by
        rw [Record.read, Fingerprint.seen, if_pos hown]
        cases hx : x.changed with
        | true => rw [← h.changed, hx, Bool.true_or, Bool.true_or]
        | false => rw [← h.changed, hx, h.differs_eq hx hpending]
      has := by
        intro key
        rw [Record.read, Fingerprint.seen, List.any_append, h.has key]
        by_cases hkey : T.canonical f.sql = key
        · rw [← hkey, hown, Bool.true_or]
        · simp [hkey]
      same := by
        intro hx r hr
        obtain ⟨hx, hg⟩ := Bool.or_eq_false_iff.mp hx
        obtain hr | hr := List.mem_append.mp hr
        · exact h.same hx r hr
        · rw [List.mem_singleton] at hr
          subst hr
          have hdigest : g.digest = f.digest := by simpa using hg
          exact ⟨g, hpending, hdigest⟩ }
  | none =>
    -- read for the first time: compared with what is published, whose text and digest it takes
    have hown : rec.reads.any (·.1 = T.canonical f.sql) = false := by rw [← h.has, hpending, Option.isSome_none]
    have hfirst : x.first published (T.canonical f.sql) = (published.lookup (T.canonical f.sql)).map Entry.fingerprint := by
      rw [Crossing.first, hpending, Option.none_or]
    have hcapture : x.capture T published f =
        ⟨put (T.canonical f.sql) ((x.first published (T.canonical f.sql)).getD f) x.pending,
          x.changed || (x.first published (T.canonical f.sql)).any (·.digest ≠ f.digest)⟩ := by
      rw [Crossing.capture, hpending, Option.isSome_none, if_neg Bool.false_ne_true]
    have hsame (hx : (x.first published (T.canonical f.sql)).any (·.digest ≠ f.digest) = false) :
        ((x.first published (T.canonical f.sql)).getD f).digest = f.digest := by
      cases hf : x.first published (T.canonical f.sql) with
      | none => rfl
      | some g =>
        rw [hf, Option.any_some] at hx
        simpa using hx
    rw [hcapture]
    exact {
      nodup := nodup_put h.nodup
      canonical := by
        intro p hmem
        obtain rfl | hmem := mem_put hmem
        · show T.canonical ((x.first published (T.canonical f.sql)).getD f).sql = T.canonical f.sql
          rw [hfirst]
          cases hl : published.lookup (T.canonical f.sql) with
          | none => rfl
          | some e => exact hcanonical _ (mem_of_lookup hl)
        · exact h.canonical p hmem
      changed := by
        rw [Record.read, Fingerprint.seen, hown, if_neg Bool.false_ne_true, hp.differs_eq, h.changed, hfirst, Option.any_map]
      has := by
        intro key
        rw [Record.read, Fingerprint.seen, List.any_append, lookup_put, ← h.has key]
        by_cases hkey : key = T.canonical f.sql
        · simp [hkey]
        · simp [hkey, Ne.symm hkey]
      same := by
        intro hx r hr
        obtain ⟨hx, hf⟩ := Bool.or_eq_false_iff.mp hx
        obtain hr | hr := List.mem_append.mp hr
        · obtain ⟨g, hg, hdigest⟩ := h.same hx r hr
          have hne : r.1 ≠ T.canonical f.sql := by
            intro heq
            rw [heq, hpending] at hg
            cases hg
          exact ⟨g, by rw [lookup_put, beq_false_of_ne hne, if_neg Bool.false_ne_true, hg], hdigest⟩
        · rw [List.mem_singleton] at hr
          subst hr
          exact ⟨_, by rw [Fingerprint.seen, lookup_put, beq_self_eq_true, if_pos rfl], hsame hf⟩ }

theorem captures (hp : Shows published finished) (hcanonical : ∀ e ∈ published, T.canonical e.2.fingerprint.sql = e.1)
    (h : Agrees T x rec) (captured : List (Fingerprint Sql)) :
    Agrees T (captured.foldl (Crossing.capture T published) x)
      ((captured.map (Fingerprint.seen T)).foldl (Record.read finished) rec) := by
  induction captured generalizing x rec with
  | nil => exact h
  | cons f captured ih => exact ih (h.capture hp hcanonical f)

theorem clashes_eq (hp : Shows published finished) (h : Agrees T x rec) : x.clashes published = rec.clashes finished := by
  rw [Crossing.clashes, Record.clashes, ← h.changed]
  cases hx : x.changed with
  | true => rfl
  | false =>
    rw [Bool.false_or, Bool.false_or, Bool.eq_iff_iff, List.any_eq_true, List.any_eq_true]
    constructor
    · rintro ⟨p, hmem, hp'⟩
      have hl : x.pending.lookup p.1 = some p.2 := lookup_some_of_mem h.nodup hmem
      have hany : rec.reads.any (·.1 = p.1) = true := by rw [← h.has, hl, Option.isSome_some]
      obtain ⟨r, hr, hkey⟩ := List.any_eq_true.mp hany
      have hkey : r.1 = p.1 := of_decide_eq_true hkey
      obtain ⟨f, hf, hdigest⟩ := h.same hx r hr
      obtain rfl : f = p.2 := Option.some.inj (hf.symm.trans (hkey ▸ hl))
      exact ⟨r, hr, by rw [hp.differs_eq, hkey, ← hdigest]; exact hp'⟩
    · rintro ⟨r, hr, hd⟩
      obtain ⟨f, hf, hdigest⟩ := h.same hx r hr
      rw [hp.differs_eq, ← hdigest] at hd
      exact ⟨(r.1, f), mem_of_lookup hf, hd⟩

end Agrees

section Next

variable {published : List (Key × Entry Sql)} {x : Crossing Sql Key} {tables : List String} {generation : ℕ}

theorem lookup_next (h : (x.pending.map Prod.fst).Nodup) (key : Key) :
    (x.next published tables generation).lookup key =
      match x.pending.lookup key with
      | some f => some (Crossing.entry published tables generation key f)
      | none => published.lookup key := by
  have hl := lookup_alters (k := key) (fun key f _ => some (Crossing.entry published tables generation key f)) published h
  refine Eq.trans hl ?_
  cases x.pending.lookup key <;> rfl

theorem nodup_next (h : (published.map Prod.fst).Nodup) : ((x.next published tables generation).map Prod.fst).Nodup := by
  let Keyed (entries : List (Key × Entry Sql)) : Prop := (entries.map Prod.fst).Nodup
  exact List.foldlRecOn (motive := Keyed) x.pending _ h fun _ h _ _ => nodup_put h

/-- An entry of the next state is published already, or made of a capture. -/
theorem mem_next {e : Key × Entry Sql} (h : e ∈ x.next published tables generation) :
    e ∈ published ∨ ∃ p ∈ x.pending, e = (p.1, Crossing.entry published tables generation p.1 p.2) := by
  let Made (entries : List (Key × Entry Sql)) : Prop := ∀ e ∈ entries,
    e ∈ published ∨ ∃ p ∈ x.pending, e = (p.1, Crossing.entry published tables generation p.1 p.2)
  refine List.foldlRecOn (motive := Made) x.pending _ (fun e he => .inl he) (fun entries ih p hp e he => ?_) e h
  obtain rfl | he := mem_put he
  · exact .inr ⟨p, hp, rfl⟩
  · exact ih e he

theorem entry_tables {key : Key} {f : Fingerprint Sql} {t : String} :
    t ∈ (Crossing.entry published tables generation key f).tables ↔
      (∃ e, published.lookup key = some e ∧ t ∈ e.tables) ∨ t ∈ tables := by
  rw [Crossing.entry, mem_sortedSet, List.mem_append, mem_sortedSet]
  cases published.lookup key <;> simp

end Next

/-- The guards keep what the record says was read, no more and no less. -/
structure Inv (T : Texts Sql Key) (w : World Sql Key) : Prop where
  nodup : (w.guards.published.map Prod.fst).Nodup
  generation : ∀ e ∈ w.guards.published, e.2.generation ≤ w.guards.generation
  canonical : ∀ e ∈ w.guards.published, T.canonical e.2.fingerprint.sql = e.1
  kept : ∀ done ∈ w.live, ∀ r ∈ done.reads, ∃ e, w.guards.published.lookup r.1 = some e ∧
    e.fingerprint.digest = r.2 ∧ done.tables ⊆ e.tables ∧ done.generation ≤ e.generation
  owed : ∀ key e, w.guards.published.lookup key = some e →
    ∃ done ∈ w.live, done.generation = e.generation ∧ ∃ r ∈ done.reads, r.1 = key
  crossings : ∀ c, Agrees T (w.guards.crossings c) (w.records c)
  failed : w.failed = w.guards.inconsistent

theorem Inv.start : Inv T ({} : World Sql Key) where
  nodup := List.nodup_nil
  generation := nofun
  canonical := nofun
  kept := nofun
  owed := nofun
  crossings _ := Agrees.start
  failed := rfl

namespace Inv

variable {w : World Sql Key}

theorem shows (h : Inv T w) : Shows w.guards.published w.finished where
  shown r hr := by
    obtain ⟨done, hdone, hr⟩ := List.mem_flatMap.mp hr
    obtain ⟨e, he, hdigest, -, -⟩ := h.kept done hdone r hr
    exact ⟨e, he, hdigest⟩
  owed key e he := by
    obtain ⟨done, hdone, -, r, hr, hkey⟩ := h.owed key e he
    exact ⟨r, List.mem_flatMap.mpr ⟨done, hdone, hr⟩, hkey⟩

theorem read (h : Inv T w) (c : ℕ) (captured : List (Fingerprint Sql)) : Inv T (w.step T (.read c captured)) where
  nodup := h.nodup
  generation := h.generation
  canonical := h.canonical
  kept := h.kept
  owed := h.owed
  failed := h.failed
  crossings c' := by
    by_cases hc : c' = c
    · subst hc
      rw [World.step, Guards.read]
      dsimp only
      rw [Function.update_self, Function.update_self]
      exact (h.crossings c').captures h.shows h.canonical captured
    · rw [World.step, Guards.read]
      dsimp only
      rw [Function.update_of_ne hc, Function.update_of_ne hc]
      exact h.crossings c'

theorem consume (h : Inv T w) (consumed : ℕ) : Inv T (w.step T (.consume consumed)) := by
  have hlookup (key : Key) (e : Entry Sql) : (w.guards.published.filter fun e => ¬e.2.generation ≤ consumed).lookup key = some e ↔
      w.guards.published.lookup key = some e ∧ ¬e.generation ≤ consumed := by
    constructor
    · intro he
      obtain ⟨hmem, hgen⟩ := List.mem_filter.mp (mem_of_lookup he)
      exact ⟨lookup_some_of_mem h.nodup hmem, of_decide_eq_true hgen⟩
    · rintro ⟨he, hgen⟩
      have hsub : (w.guards.published.filter fun e => ¬e.2.generation ≤ consumed).Sublist w.guards.published :=
        List.filter_sublist
      exact lookup_some_of_mem (h.nodup.sublist (hsub.map Prod.fst)) (List.mem_filter.mpr ⟨mem_of_lookup he, decide_eq_true hgen⟩)
  exact {
    nodup := h.nodup.sublist (List.filter_sublist.map _)
    generation := fun e he => h.generation e (List.mem_of_mem_filter he)
    canonical := fun e he => h.canonical e (List.mem_of_mem_filter he)
    kept := by
      intro done hdone r hr
      obtain ⟨hdone, hgen⟩ := List.mem_filter.mp hdone
      obtain ⟨e, he, hdigest, htables, hle⟩ := h.kept done hdone r hr
      have hgen : ¬done.generation ≤ consumed := of_decide_eq_true hgen
      exact ⟨e, (hlookup r.1 e).mpr ⟨he, by omega⟩, hdigest, htables, hle⟩
    owed := by
      intro key e he
      obtain ⟨he, hgen⟩ := (hlookup key e).mp he
      obtain ⟨done, hdone, heq, hr⟩ := h.owed key e he
      exact ⟨done, List.mem_filter.mpr ⟨hdone, decide_eq_true (by rw [heq]; exact hgen)⟩, heq, hr⟩
    crossings := h.crossings
    failed := h.failed }

/-- A finish that succeeds publishes what the crossing read, beside what was published before. -/
theorem publish (h : Inv T w) (c : ℕ) (tables : List String)
    (hclash : (w.guards.crossings c).clashes w.guards.published = false) :
    Inv T { w with
      guards := { w.guards with
        published := (w.guards.crossings c).next w.guards.published tables (w.guards.generation + 1)
        generation := w.guards.generation + 1 }
      live := w.live ++ [⟨(w.records c).reads, tables, w.guards.generation + 1⟩] } := by
  have hx := h.crossings c
  obtain ⟨hchanged, hany⟩ := Bool.or_eq_false_iff.mp hclash
  have hentry {key : Key} {f : Fingerprint Sql} {e : Entry Sql} (hf : (w.guards.crossings c).pending.lookup key = some f)
      (he : w.guards.published.lookup key = some e) : e.fingerprint.digest = f.digest := by
    have hne := List.any_eq_false.mp hany (key, f) (mem_of_lookup hf)
    rw [he, Option.any_some] at hne
    simpa using hne
  exact {
    nodup := nodup_next h.nodup
    generation := by
      intro e he
      obtain he | ⟨p, -, rfl⟩ := mem_next he
      · exact Nat.le_succ_of_le (h.generation e he)
      · exact Nat.le_refl _
    canonical := by
      intro e he
      obtain he | ⟨p, hp, rfl⟩ := mem_next he
      · exact h.canonical e he
      · rw [Crossing.entry]
        cases hl : w.guards.published.lookup p.1 with
        | none => exact hx.canonical p hp
        | some e => exact h.canonical (p.1, e) (mem_of_lookup hl)
    kept := by
      intro done hdone r hr
      rw [lookup_next hx.nodup]
      obtain hdone | hdone := List.mem_append.mp hdone
      · -- read by an earlier crossing: its entry is as it was, or this crossing has read the statement again
        obtain ⟨e, he, hdigest, htables, hle⟩ := h.kept done hdone r hr
        have hgen : e.generation ≤ w.guards.generation := h.generation _ (mem_of_lookup he)
        cases hf : (w.guards.crossings c).pending.lookup r.1 with
        | none => exact ⟨e, he, hdigest, htables, hle⟩
        | some f =>
          refine ⟨_, rfl, ?_, fun t ht => entry_tables.mpr (.inl ⟨e, he, htables ht⟩), by simp only [Crossing.entry]; omega⟩
          rw [Crossing.entry, he]
          exact hdigest
      -- read by this one: what it has pending is published, with the digest it read
      · rw [List.mem_singleton] at hdone
        subst hdone
        obtain ⟨f, hf, hdigest⟩ := hx.same hchanged r hr
        rw [hf]
        refine ⟨_, rfl, ?_, fun t ht => entry_tables.mpr (.inr ht), Nat.le_refl _⟩
        rw [← hdigest, Crossing.entry]
        cases he : w.guards.published.lookup r.1 with
        | none => rfl
        | some e => exact hentry (e := e) hf he
    owed := by
      intro key e he
      rw [lookup_next hx.nodup] at he
      cases hf : (w.guards.crossings c).pending.lookup key with
      | none =>
        rw [hf] at he
        obtain ⟨done, hdone, heq, hr⟩ := h.owed key e he
        exact ⟨done, List.mem_append_left _ hdone, heq, hr⟩
      | some f =>
        rw [hf] at he
        obtain rfl := Option.some.inj he
        have hread : (w.records c).reads.any (·.1 = key) = true := by rw [← hx.has, hf, Option.isSome_some]
        obtain ⟨r, hr, hkey⟩ := List.any_eq_true.mp hread
        exact ⟨_, List.mem_append_right _ (List.mem_singleton_self _), rfl, r, hr, of_decide_eq_true hkey⟩
    crossings := h.crossings
    failed := h.failed }

theorem finish (h : Inv T w) (c : ℕ) (tables : List String) : Inv T (w.step T (.finish c tables)) := by
  have hclashes := (h.crossings c).clashes_eq h.shows
  rw [World.step, Guards.finish, ← hclashes, h.failed]
  cases hfail : w.guards.inconsistent || (w.guards.crossings c).clashes w.guards.published with
  | true =>
    exact {
      nodup := h.nodup
      generation := fun e he => Nat.le_succ_of_le (h.generation e he)
      canonical := h.canonical
      kept := h.kept
      owed := h.owed
      crossings := h.crossings
      failed := rfl }
  | false =>
    obtain ⟨hinconsistent, hclash⟩ := Bool.or_eq_false_iff.mp hfail
    rw [if_neg Bool.false_ne_true]
    split
    · exact { h with failed := hinconsistent.symm }
    · have hp := h.publish c tables hclash
      exact { hp with failed := hinconsistent.symm }

theorem step (h : Inv T w) (call : Call Sql) : Inv T (w.step T call) := by
  cases call with
  | begin => exact { h with }
  | read c captured => exact h.read c captured
  | finish c tables => exact h.finish c tables
  | snapshot => exact h
  | consume consumed => exact h.consume consumed

theorem run (calls : List (Call Sql)) : Inv T (World.run T calls : World Sql Key) :=
  invariant_run (fun _ call h => h.step call) start calls

end Inv

/-- A finish is a conflict exactly once some crossing that finished had clashed, or where this one does. -/
theorem Inv.conflict_iff {w : World Sql Key} (h : Inv T w) (c : ℕ) (tables : List String) :
    (w.guards.finish T c tables).2 = some .conflict ↔ w.failed = true ∨ (w.records c).clashes w.finished = true := by
  rw [h.failed, ← (h.crossings c).clashes_eq h.shows, ← Bool.or_eq_true, Guards.finish]
  split
  · next hc => exact iff_of_true rfl hc
  · next hc =>
    refine iff_of_false ?_ hc
    split <;> simp

/-- A finish over the budget leaves the guards as they are. -/
theorem Guards.finish_of_budget {s : Guards Sql Key} {c : ℕ} {tables : List String}
    (h : (s.finish T c tables).2 = some .readBudgetExceeded) : (s.finish T c tables).1 = s := by
  rw [Guards.finish] at h ⊢
  split at h
  · cases h
  · next hc =>
    rw [if_neg hc]
    split at h
    · next hb => rw [if_pos hb]
    · cases h

theorem failed_step {w : World Sql Key} (h : w.failed = true) (call : Call Sql) : (w.step T call).failed = true := by
  cases call with
  | finish c tables => rw [World.step, h, Bool.true_or]
  | begin => exact h
  | read c captured => exact h
  | snapshot => exact h
  | consume consumed => exact h

/-- Once a crossing that had clashed comes to its finish, nothing takes that back. -/
theorem failed_run {calls : List (Call Sql)} {c : ℕ}
    (h : ((World.run T calls : World Sql Key).records c).clashes (World.run T calls : World Sql Key).finished = true)
    (tables : List String) (later : List (Call Sql)) :
    (World.run T (calls ++ Call.finish c tables :: later) : World Sql Key).failed = true := by
  rw [World.run, List.foldl_append, List.foldl_cons]
  let Failed (w : World Sql Key) : Prop := w.failed = true
  refine List.foldlRecOn (motive := Failed) later _ ?_ fun _ hf call _ => failed_step hf call
  show (_ || _) = true
  rw [World.run] at h
  rw [h, Bool.or_true]

/--
After every run, the snapshot has one fingerprint for each statement of the finished
crossings that no consumption has covered, with the digest of each of their reads, and
the tables of these crossings.  A finish over the budget changes nothing.  Once a
crossing that has clashed comes to its finish, that finish and each later one is a
conflict and each snapshot is marked, and never without such a crossing.
-/
theorem makeReadGuards_keeps (T : Texts Sql Key) (calls : List (Call Sql)) :
    let w : World Sql Key := World.run T calls
    ((w.guards.snapshot.fingerprints.map fun f => T.canonical f.sql).Nodup ∧
      ∀ done ∈ w.live, ∀ r ∈ done.reads,
        (∃ f ∈ w.guards.snapshot.fingerprints, T.canonical f.sql = r.1 ∧ f.digest = r.2) ∧
        done.tables ⊆ w.guards.snapshot.tables) ∧
    (∀ c tables, (w.guards.finish T c tables).2 = some .readBudgetExceeded → (w.guards.finish T c tables).1 = w.guards) ∧
    (∀ c tables, (w.guards.finish T c tables).2 = some .conflict ↔
      w.failed = true ∨ (w.records c).clashes w.finished = true) ∧
    (w.guards.snapshot.inconsistent = true ↔ w.failed = true) ∧
    ∀ c, (w.records c).clashes w.finished = true → ∀ tables later,
      let w' : World Sql Key := World.run T (calls ++ Call.finish c tables :: later)
      (∀ c' tables', (w'.guards.finish T c' tables').2 = some .conflict) ∧ w'.guards.snapshot.inconsistent = true := by
  intro w
  have h : Inv T w := Inv.run calls
  refine ⟨⟨?_, ?_⟩, fun c tables => Guards.finish_of_budget, h.conflict_iff, ?_, ?_⟩
  · have hkeys : w.guards.snapshot.fingerprints.map (fun f => T.canonical f.sql) = w.guards.published.map Prod.fst := by
      rw [Guards.snapshot, List.map_map]
      exact List.map_congr_left h.canonical
    rw [hkeys]
    exact h.nodup
  · intro done hdone r hr
    obtain ⟨e, he, hdigest, htables, -⟩ := h.kept done hdone r hr
    have hmem := mem_of_lookup he
    refine ⟨⟨e.fingerprint, List.mem_map.mpr ⟨_, hmem, rfl⟩, h.canonical _ hmem, hdigest⟩, fun t ht => ?_⟩
    exact mem_sortedSet.mpr (List.mem_flatMap.mpr ⟨_, hmem, htables ht⟩)
  · rw [h.failed]
    rfl
  · intro c hc tables later w'
    have h' : Inv T w' := Inv.run _
    have hfailed : w'.failed = true := failed_run hc tables later
    exact ⟨fun c' tables' => (h'.conflict_iff c' tables').mpr (.inl hfailed), h'.failed.symm.trans hfailed⟩

end Sim

/-- Numbered statements, all of no size. -/
def numbered : Texts ℕ ℕ := ⟨id, fun _ => 0, fun _ => 0⟩

/-- Two reads that differ, with nothing consumed, and another crossing finishes while theirs has not. -/
theorem unfinished_unseen :
    ¬ ∀ (calls later : List (Call ℕ)) (c c' : ℕ), (∀ consumed, .consume consumed ∉ calls) →
      (∃ r ∈ ((World.run numbered calls : World ℕ ℕ).records c).reads,
        ∃ r' ∈ ((World.run numbered calls : World ℕ ℕ).records c').reads, r.1 = r'.1 ∧ r.2 ≠ r'.2) →
      (∀ c tables, ((World.run numbered (calls ++ later) : World ℕ ℕ).guards.finish numbered c tables).2 ≠ none) ∧
        (World.run numbered (calls ++ later) : World ℕ ℕ).guards.snapshot.inconsistent = true := by
  intro h
  have hfalse := (h [.begin, .read 0 [⟨1, "a"⟩], .read 0 [⟨1, "b"⟩], .begin] [] 0 0 (by simp)
    ⟨(1, "a"), by decide, (1, "b"), by decide, rfl, by decide⟩).2
  cases hfalse

end Norbital.Bolt.ReadGuards

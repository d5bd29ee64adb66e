import Norbital.Lib.Fallible
import Norbital.Bolt.Write.Flatten
import Norbital.Bolt.Write.Gate

/-!
# Admission of a write

`admit` of `bolt/src/engine/write/act.ts`: the paths and columns that a flattened act
writes, verb by verb, and the arms of its root model that name all of them.  Whether a
value is the stored one (`same`) is a parameter.

What is admitted is compared with what the act writes at the relations each row was
reached through.
-/

namespace Norbital.Bolt.Flatten

open Norbital.Lib
open Norbital.Std (Json)
open Norbital.Bolt.Write (Refusal)

inductive Judged where
  | create | update | delete
  deriving DecidableEq

def Judged.text : Judged → String
  | .create => "create"
  | .update => "update"
  | .delete => "delete"

structure CheckArm where
  policy : String
  check : Bool

/-- An arm of a create or update, with the columns it admits per write path. -/
structure WriteArm extends CheckArm where
  columns : List (String × List String)

structure Grants where
  create : List WriteArm
  update : List WriteArm
  delete : List CheckArm

structure Authority where
  policies : List String
  models : String → Option Grants

def Authority.arms (auth : Authority) (model : String) : Judged → List WriteArm
  | .create => (auth.models model).elim [] Grants.create
  | .update => (auth.models model).elim [] Grants.update
  | .delete => []

def Authority.deletes (auth : Authority) (model : String) : List CheckArm :=
  (auth.models model).elim [] Grants.delete

def held (auth : Authority) : String :=
  if auth.policies.isEmpty then "you hold no policy"
  else "none of your policies (" ++ ", ".intercalate auth.policies ++ ") grants it"

/-- The stored rows, by model and id. -/
abbrev Pre := String → String → Option Row

/-- The record a change names. -/
def named (c : Change) : String :=
  match c.op with
  | .upsert values ["id"] =>
    match values.lookup "id" with
    | some (.string id) => id
    | _ => c.id
  | _ => c.id

variable (pre : Pre)

def actionOf (c : Change) : Judged :=
  match c.op with
  | .create _ => .create
  | .upsert _ _ => if (pre c.model (named c)).isSome then .update else .create
  | .update _ => .update
  | .delete => .delete

variable (m : Manifest) (same : Json → Json → Bool)

/-- The values of `set` that a row would change to. -/
def changed (row set : Row) : Row := set.filter fun (field, v) => !same ((row.lookup field).getD .null) v

def suppliedChanges (item : Item) (row : Option Row) : List String :=
  match item.change.op, row with
  | .update values, some row | .upsert values _, some row =>
    item.supplied.filter fun field =>
      (values.lookup field).isNone || ((changed same row values).lookup field).isSome
  | _, _ => item.supplied

/-- A path a batch writes at, a column there, and the row it is of. -/
structure Need where
  path : String
  field : Option String
  row : Option Nat

def writePath (root : String) (rels : List String) : String := rels.foldl (fun path rel => path ++ "." ++ rel) root

/-- `layerPath`. -/
def layerPath (root : String) (path : Path) : String := writePath root (layers path)

def rowOf : Path → Option Nat
  | .index n :: _ => some n
  | _ => none

def forbidden (need : Option Need) (message : String) : Refusal :=
  { code := .forbidden, message := message, path := need.map Need.path, field := need.bind Need.field,
    row := need.bind Need.row }

def judgeRow (verbs : List (Option Part × Judged)) (it : Item) : List (Option Part × Judged) :=
  if it.parent.isNone then put it.change.path.head? (actionOf pre it.change) verbs else verbs

/-- The verb each root row is judged by. -/
def verbs (items : List Item) : List (Option Part × Judged) := items.foldl (judgeRow pre) []

def verbOf (items : List Item) (it : Item) : Judged :=
  ((verbs pre items).lookup it.change.path.head?).getD (actionOf pre it.change)

/-- An item's columns that are judged: the changed ones it supplies, but its relations and a column of its parent's.
A delete has none. -/
def columnsOf (except : Option String) (it : Item) : List String :=
  match it.change.op with
  | .delete => []
  | _ => (suppliedChanges same it (pre it.change.model (named it.change))).filter fun field =>
    decide (some field ≠ except) && ((m.model it.change.model).many.lookup field).isNone

def needOf (root : String) (it : Item) : Need := ⟨layerPath root it.change.path, none, rowOf it.change.path⟩

/-- What an item adds to its verb's needs. -/
def needsOf (root : String) (it : Item) : List Need :=
  (if it.parent.isSome then [needOf root it] else []) ++
    (columnsOf pre m same (it.parent.map Parent.fk) it).map fun field => { needOf root it with field := some field }

def covers (arm : WriteArm) (need : Need) : Bool :=
  match need.field with
  | none => (arm.columns.lookup need.path).isSome
  | some field => ((arm.columns.lookup need.path).getD []).contains field

/-- The column an attached row's declared ref is. -/
def attachField (it : Item) : String := it.parent.elim "" Parent.fk

/-- Whether an arm of the attached row's own model admits its ref. -/
def attachable (auth : Authority) (it : Item) : Bool :=
  (auth.arms it.change.model .update).any fun arm =>
    covers arm ⟨it.change.model, some (attachField it), none⟩

def gatherOne (auth : Authority) (root : String) (items : List Item) (needs : List (Judged × List Need)) (it : Item) :
    Except Refusal (List (Judged × List Need)) :=
  if it.attach then
    if attachable auth it then .ok needs
    else
      .error (forbidden (some { needOf root it with field := some (attachField it) })
        ("You may not write " ++ attachField it ++ " of " ++ it.change.model ++ "."))
  else
    .ok (put (verbOf pre items it) ((needs.lookup (verbOf pre items it)).getD [] ++ needsOf pre m same root it) needs)

def gather (auth : Authority) (root : String) (items : List Item) : Except Refusal (List (Judged × List Need)) :=
  items.foldlM (gatherOne pre m same auth root items) []

structure Admitted where
  create : Option (List WriteArm)
  update : Option (List WriteArm)
  delete : Option (List CheckArm)

/-- The arms of a create or update that cover all its needs. -/
def admitArms (auth : Authority) (root : String) (verb : Judged) (needs : List Need) : Except Refusal (List WriteArm) :=
  match auth.arms root verb with
  | [] => .error (forbidden needs.head? ("You may not " ++ verb.text ++ " " ++ root ++ ": " ++ held auth ++ "."))
  | first :: arms =>
    -- a need that no arm covers is named; else one arm has to cover them all
    match needs.find? fun need => !(first :: arms).any (covers · need) with
    | some outside =>
      .error (forbidden (some outside) (match outside.field with
        | none => "You may not change " ++ outside.path ++ "."
        | some field => "You may not write " ++ field ++ " of " ++ outside.path ++ "."))
    | none =>
      match (first :: arms).filter fun arm => needs.all (covers arm) with
      | [] =>
        .error (forbidden (needs.find? fun need => !covers first need)
          "No one policy admits this whole change; split it into smaller acts.")
      | admitting => .ok admitting

def admitVerb (auth : Authority) (root : String) (out : Admitted) : Judged × List Need → Except Refusal Admitted
  | (.delete, needs) =>
    if (auth.deletes root).isEmpty then
      .error (forbidden needs.head? ("You may not delete " ++ root ++ ": " ++ held auth ++ "."))
    else .ok { out with delete := some (auth.deletes root) }
  | (.create, needs) => do return { out with create := some (← admitArms auth root .create needs) }
  | (.update, needs) => do return { out with update := some (← admitArms auth root .update needs) }

/-- `admit` of the batch. -/
def admitBatch (auth : Authority) (root : String) (items : List Item) : Except Refusal Admitted := do
  let needs ← gather pre m same auth root items
  needs.foldlM (admitVerb auth root) ⟨none, none, none⟩

/-- The verb of an item is that of its root row. -/
def JudgedBy (items : List Item) (it : Item) (verb : Judged) : Prop :=
  ∃ r ∈ items, r.parent = none ∧ r.change.path.head? = it.change.path.head? ∧ actionOf pre r.change = verb

/-- An arm lists a field at the write path of an item's row. -/
def WriteArm.lists (arm : WriteArm) (path field : String) : Prop :=
  ∃ fields, arm.columns.lookup path = some fields ∧ field ∈ fields

/-- For each verb one arm of the root lists, at its write path, every child row, and every changed column an item
supplies that its relation action did not set; and the ref of an attached row is listed by an arm of its model. -/
structure Covered (auth : Authority) (root : String) (items : List Item) : Prop where
  written : ∀ verb, verb ≠ .delete → (∃ it ∈ items, it.attach = false ∧ JudgedBy pre items it verb) →
    ∃ arm ∈ auth.arms root verb, ∀ it ∈ items, it.attach = false → JudgedBy pre items it verb →
      (it.parent.isSome = true → (arm.columns.lookup (writePath root it.through)).isSome = true) ∧
      ∀ field ∈ columnsOf pre m same it.implied it, arm.lists (writePath root it.through) field
  deleted : (∃ it ∈ items, it.attach = false ∧ JudgedBy pre items it .delete) → auth.deletes root ≠ []
  attached : ∀ it ∈ items, it.attach = true →
    ∃ arm ∈ auth.arms it.change.model .update, arm.lists it.change.model (attachField it)

/-- What admission collects is all: each child row's write path is recovered for a child row of its verb, and each of its
columns is collected there for a row of the verb. -/
def Collected (root : String) (items : List Item) : Prop :=
  ∀ verb, verb ≠ .delete → ∀ it ∈ items, it.attach = false → it.parent.isSome = true → JudgedBy pre items it verb →
    (∃ it' ∈ items, it'.attach = false ∧ it'.parent.isSome = true ∧ JudgedBy pre items it' verb ∧
      layerPath root it'.change.path = writePath root it.through) ∧
    ∀ field ∈ columnsOf pre m same it.implied it, ∃ it' ∈ items, it'.attach = false ∧ JudgedBy pre items it' verb ∧
      layerPath root it'.change.path = writePath root it.through ∧
      field ∈ columnsOf pre m same (it'.parent.map Parent.fk) it'

variable {pre m same} {auth : Authority} {root : String} {items : List Item} {it : Item} {verb : Judged}

/-- The last root row at a place decides its verb. -/
theorem lookup_verbs (items : List Item) (acc : List (Option Part × Judged)) (head : Option Part) :
    (items.foldl (judgeRow pre) acc).lookup head =
      ((items.reverse.find? fun r => r.parent.isNone && decide (head = r.change.path.head?)).map
        fun r => actionOf pre r.change).or (acc.lookup head) := by
  induction items generalizing acc with
  | nil => rfl
  | cons r items ih =>
    rw [List.foldl_cons, ih, List.reverse_cons, List.find?_append]
    cases List.find? (fun r => r.parent.isNone && decide (head = r.change.path.head?)) items.reverse with
    | some found => rfl
    | none =>
      rw [Option.none_or, Option.map_none, Option.none_or, judgeRow]
      by_cases hroot : r.parent.isNone = true
      · rw [if_pos hroot, lookup_put]
        by_cases hhead : head = r.change.path.head? <;> simp [hroot, hhead]
      · rw [if_neg hroot]
        simp [hroot]

/-- The verb that is looked up for an item is its root row's. -/
theorem judgedBy_iff (h : Rooted m items) (hit : it ∈ items) : JudgedBy pre items it verb ↔ verbOf pre items it = verb := by
  obtain ⟨r, hr, hroot, hhead⟩ := h.row it hit
  obtain ⟨found, hfound⟩ : ∃ found, items.reverse.find? (fun r => r.parent.isNone &&
      decide (it.change.path.head? = r.change.path.head?)) = some found := by
    rw [← Option.isSome_iff_exists, List.find?_isSome]
    exact ⟨r, List.mem_reverse.2 hr, by rw [hroot, hhead]; exact decide_eq_true rfl⟩
  have hr' : found ∈ items := List.mem_reverse.1 (List.mem_of_find?_eq_some hfound)
  obtain ⟨hroot', hhead'⟩ : found.parent = none ∧ it.change.path.head? = found.change.path.head? := by
    simpa using List.find?_some hfound
  have hverb : verbOf pre items it = actionOf pre found.change := by
    rw [verbOf, verbs, lookup_verbs, hfound]
    rfl
  rw [hverb]
  constructor
  · rintro ⟨r'', hr'', hroot'', hhead'', rfl⟩
    rcases h.unique found hr' r'' hr'' hroot' hroot'' (hhead'.symm.trans hhead''.symm) with rfl | ⟨hop, hop'⟩
    · rfl
    · rw [actionOf, actionOf, hop, hop']
  · rintro rfl
    exact ⟨found, hr', hroot', hhead'.symm, rfl⟩

/-- The items of a verb. -/
def ofVerb (pre : Pre) (items : List Item) (verb : Judged) (it : Item) : Bool :=
  !it.attach && decide (verbOf pre items it = verb)

theorem gatherOne_row {needs : List (Judged × List Need)} (h : it.attach = false) :
    gatherOne pre m same auth root items needs it =
      .ok (put (verbOf pre items it) ((needs.lookup (verbOf pre items it)).getD [] ++ needsOf pre m same root it) needs) := by
  rw [gatherOne, if_neg (by rw [h]; exact Bool.false_ne_true)]

theorem gatherOne_attach {needs : List (Judged × List Need)} (h : it.attach = true) (hattach : attachable auth it = true) :
    gatherOne pre m same auth root items needs it = .ok needs := by
  rw [gatherOne, if_pos h, if_pos hattach]

/-- Where no attached row is refused, a verb's needs are those of its items. -/
theorem gather_eq_ok (pre : Pre) (m : Manifest) (same : Json → Json → Bool) (root : String) {items : List Item}
    (hattach : ∀ it ∈ items, it.attach = true → attachable auth it = true) :
    ∃ needs, gather pre m same auth root items = .ok needs ∧ (needs.map Prod.fst).Nodup ∧
      ∀ verb, (needs.lookup verb).getD [] = (items.filter (ofVerb pre items verb)).flatMap (needsOf pre m same root) ∧
        (needs.lookup verb).isSome = items.any (ofVerb pre items verb) := by
  have hfold : ∀ (rest : List Item) (acc : List (Judged × List Need)),
      (∀ it ∈ rest, it.attach = true → attachable auth it = true) → (acc.map Prod.fst).Nodup →
      ∃ needs, rest.foldlM (gatherOne pre m same auth root items) acc = .ok needs ∧ (needs.map Prod.fst).Nodup ∧
        ∀ verb, (needs.lookup verb).getD [] =
            (acc.lookup verb).getD [] ++ (rest.filter (ofVerb pre items verb)).flatMap (needsOf pre m same root) ∧
          (needs.lookup verb).isSome = ((acc.lookup verb).isSome || rest.any (ofVerb pre items verb)) := by
    intro rest
    induction rest with
    | nil => exact fun acc _ hnodup => ⟨acc, rfl, hnodup, fun verb => ⟨by simp, by simp⟩⟩
    | cons it rest ih =>
      intro acc hrest hnodup
      have hrest' : ∀ it ∈ rest, it.attach = true → attachable auth it = true :=
        fun it hit => hrest it (List.mem_cons_of_mem _ hit)
      cases hit : it.attach with
      | true =>
        obtain ⟨needs, hneeds, hkeys, hverbs⟩ := ih acc hrest' hnodup
        refine ⟨needs, ?_, hkeys, fun verb => ?_⟩
        · rw [List.foldlM_cons, gatherOne_attach hit (hrest it List.mem_cons_self hit)]
          exact hneeds
        · have hother : ofVerb pre items verb it = false := by rw [ofVerb, hit]; rfl
          rw [List.filter_cons_of_neg (by rw [hother]; exact Bool.false_ne_true), List.any_cons, hother, Bool.false_or]
          exact hverbs verb
      | false =>
        obtain ⟨needs, hneeds, hkeys, hverbs⟩ := ih _ hrest' (nodup_put hnodup)
        refine ⟨needs, ?_, hkeys, fun verb => ?_⟩
        · rw [List.foldlM_cons, gatherOne_row hit]
          exact hneeds
        · obtain ⟨hlist, hsome⟩ := hverbs verb
          rw [hlist, hsome, lookup_put, List.any_cons]
          by_cases hverb : verb = verbOf pre items it
          · have hof : ofVerb pre items verb it = true := by
              rw [ofVerb, hit, hverb]
              simp
            rw [if_pos (beq_iff_eq.2 hverb), List.filter_cons_of_pos hof, List.flatMap_cons, hof, ← hverb]
            simp
          · have hof : ofVerb pre items verb it = false := by
              rw [ofVerb, decide_eq_false (Ne.symm hverb), Bool.and_false]
            rw [if_neg fun heq => hverb (beq_iff_eq.1 heq),
              List.filter_cons_of_neg (by rw [hof]; exact Bool.false_ne_true), hof, Bool.false_or]
            exact ⟨rfl, rfl⟩
  obtain ⟨needs, hneeds, hkeys, hverbs⟩ := hfold items [] hattach List.nodup_nil
  refine ⟨needs, hneeds, hkeys, fun verb => ?_⟩
  obtain ⟨hlist, hsome⟩ := hverbs verb
  exact ⟨hlist, hsome⟩

/-- The needs are gathered where no attached row is refused. -/
theorem gather_isOk : (∃ needs, gather pre m same auth root items = .ok needs) ↔
    ∀ it ∈ items, it.attach = true → attachable auth it = true := by
  refine Fallible.exists_foldlM_eq_ok (fun needs it => ?_) items []
  cases hit : it.attach with
  | false => exact iff_of_true ⟨_, gatherOne_row hit⟩ fun h => by cases h
  | true =>
    cases hok : attachable auth it with
    | true => exact iff_of_true ⟨_, gatherOne_attach hit hok⟩ fun _ => rfl
    | false =>
      refine iff_of_false ?_ fun h => Bool.false_ne_true (h rfl)
      rintro ⟨_, h⟩
      rw [gatherOne, if_pos hit, if_neg (by rw [hok]; exact Bool.false_ne_true)] at h
      cases h

/-- What admits a verb's needs: an arm that covers them all, or any arm of a delete. -/
def VerbAdmits (auth : Authority) (root : String) (verb : Judged) (needs : List Need) : Prop :=
  match verb with
  | .delete => auth.deletes root ≠ []
  | verb => ∃ arm ∈ auth.arms root verb, ∀ need ∈ needs, covers arm need = true

theorem admitArms_isOk {needs : List Need} :
    (∃ admitting, admitArms auth root verb needs = .ok admitting) ↔
      ∃ arm ∈ auth.arms root verb, ∀ need ∈ needs, covers arm need = true := by
  unfold admitArms
  cases harms : auth.arms root verb with
  | nil =>
    constructor
    · rintro ⟨_, h⟩
      cases h
    · rintro ⟨_, h, -⟩
      cases h
  | cons first arms =>
    dsimp only
    constructor
    · rintro ⟨admitting, h⟩
      cases hfilter : (first :: arms).filter fun arm => needs.all (covers arm) with
      | nil =>
        rw [hfilter] at h
        split at h <;> cases h
      | cons arm rest =>
        have hmem : arm ∈ (first :: arms).filter fun arm => needs.all (covers arm) := by
          rw [hfilter]
          exact List.mem_cons_self
        obtain ⟨harm, hcovers⟩ := List.mem_filter.1 hmem
        exact ⟨arm, harm, List.all_eq_true.1 hcovers⟩
    · rintro ⟨arm, harm, hcovers⟩
      have hinside : (needs.find? fun need => !(first :: arms).any (covers · need)) = none := by
        rw [List.find?_eq_none]
        intro need hneed
        have hany : (first :: arms).any (covers · need) = true := List.any_eq_true.2 ⟨arm, harm, hcovers need hneed⟩
        rw [hany]
        exact Bool.false_ne_true
      have hadmits : arm ∈ (first :: arms).filter fun arm => needs.all (covers arm) :=
        List.mem_filter.2 ⟨harm, List.all_eq_true.2 hcovers⟩
      rw [hinside]
      dsimp only
      cases hfilter : (first :: arms).filter fun arm => needs.all (covers arm) with
      | nil =>
        rw [hfilter] at hadmits
        cases hadmits
      | cons arm' rest => exact ⟨_, rfl⟩

theorem admitVerb_isOk (out : Admitted) (e : Judged × List Need) :
    (∃ out', admitVerb auth root out e = .ok out') ↔ VerbAdmits auth root e.1 e.2 := by
  obtain ⟨verb, needs⟩ := e
  cases verb with
  | delete =>
    show (∃ out', (if (auth.deletes root).isEmpty then _ else _) = Except.ok out') ↔ auth.deletes root ≠ []
    cases auth.deletes root with
    | nil =>
      refine iff_of_false ?_ fun h => h rfl
      rintro ⟨_, h⟩
      cases h
    | cons arm arms => exact iff_of_true ⟨_, rfl⟩ (List.cons_ne_nil _ _)
  | create =>
    show (∃ out', (admitArms auth root .create needs >>= _) = Except.ok out') ↔ _
    simp only [Fallible.bind_eq_ok]
    refine Iff.trans ⟨?_, ?_⟩ admitArms_isOk
    · rintro ⟨_, admitting, h, -⟩
      exact ⟨admitting, h⟩
    · rintro ⟨admitting, h⟩
      exact ⟨_, admitting, h, rfl⟩
  | update =>
    show (∃ out', (admitArms auth root .update needs >>= _) = Except.ok out') ↔ _
    simp only [Fallible.bind_eq_ok]
    refine Iff.trans ⟨?_, ?_⟩ admitArms_isOk
    · rintro ⟨_, admitting, h, -⟩
      exact ⟨admitting, h⟩
    · rintro ⟨admitting, h⟩
      exact ⟨_, admitting, h, rfl⟩

/-- The needs of a verb's items. -/
def verbNeeds (pre : Pre) (m : Manifest) (same : Json → Json → Bool) (root : String) (items : List Item)
    (verb : Judged) : List Need :=
  (items.filter (ofVerb pre items verb)).flatMap (needsOf pre m same root)

/-- A batch is admitted where no attached row is refused and every verb in it is admitted. -/
theorem admitBatch_isOk : (∃ out, admitBatch pre m same auth root items = .ok out) ↔
    (∀ it ∈ items, it.attach = true → attachable auth it = true) ∧
      ∀ verb, items.any (ofVerb pre items verb) = true →
        VerbAdmits auth root verb (verbNeeds pre m same root items verb) := by
  simp only [admitBatch, Fallible.bind_eq_ok]
  constructor
  · rintro ⟨out, needs, hneeds, hout⟩
    have hattach := gather_isOk.1 ⟨needs, hneeds⟩
    refine ⟨hattach, fun verb hverb => ?_⟩
    obtain ⟨needs', hneeds', -, hverbs⟩ := gather_eq_ok pre m same root hattach
    obtain rfl : needs' = needs := Except.ok.inj (hneeds'.symm.trans hneeds)
    obtain ⟨hlist, hsome⟩ := hverbs verb
    rw [hverb] at hsome
    obtain ⟨list, hlookup⟩ := Option.isSome_iff_exists.1 hsome
    have hadmits := (Fallible.exists_foldlM_eq_ok admitVerb_isOk needs' _).1 ⟨out, hout⟩ _ (mem_of_lookup hlookup)
    rw [hlookup] at hlist
    rw [verbNeeds, ← hlist]
    exact hadmits
  · rintro ⟨hattach, hverbs'⟩
    obtain ⟨needs, hneeds, hkeys, hverbs⟩ := gather_eq_ok pre m same root hattach
    obtain ⟨out, hout⟩ := (Fallible.exists_foldlM_eq_ok admitVerb_isOk needs ⟨none, none, none⟩).2 fun e he => by
      obtain ⟨verb, list⟩ := e
      have hlookup := lookup_some_of_mem hkeys he
      obtain ⟨hlist, hsome⟩ := hverbs verb
      rw [hlookup] at hlist hsome
      have hadmits := hverbs' verb hsome.symm
      rw [verbNeeds, ← hlist] at hadmits
      exact hadmits
    exact ⟨out, needs, hneeds, hout⟩

theorem le_writePath (root : String) (rels : List String) : root.length + rels.length ≤ (writePath root rels).length := by
  induction rels generalizing root with
  | nil => exact le_rfl
  | cons rel rels ih =>
    have hnext := ih (root ++ "." ++ rel)
    rw [String.length_append, String.length_append] at hnext
    have hdot : ".".length = 1 := rfl
    show root.length + (rels.length + 1) ≤ (writePath (root ++ "." ++ rel) rels).length
    omega

theorem writePath_ne {rels : List String} (h : rels ≠ []) : writePath root rels ≠ root := by
  intro heq
  have hle := le_writePath root rels
  have hpos := List.length_pos_iff.2 h
  rw [heq] at hle
  omega

/-- A need that one of a verb's items adds. -/
theorem mem_verbNeeds {need : Need} : need ∈ verbNeeds pre m same root items verb ↔
    ∃ it ∈ items, it.attach = false ∧ verbOf pre items it = verb ∧
      ((it.parent.isSome = true ∧ need = needOf root it) ∨
        ∃ field ∈ columnsOf pre m same (it.parent.map Parent.fk) it, need = { needOf root it with field := some field }) := by
  have hitem : ∀ it, need ∈ needsOf pre m same root it ↔ (it.parent.isSome = true ∧ need = needOf root it) ∨
      ∃ field ∈ columnsOf pre m same (it.parent.map Parent.fk) it,
        need = { needOf root it with field := some field } := by
    intro it
    rw [needsOf, List.mem_append, List.mem_map]
    refine or_congr ?_ (exists_congr fun field => and_congr_right fun _ => eq_comm)
    split_ifs with hparent <;> simp [hparent]
  simp only [verbNeeds, List.mem_flatMap, List.mem_filter, ofVerb, Bool.and_eq_true, Bool.not_eq_true', decide_eq_true_eq,
    hitem, and_assoc]

theorem any_ofVerb : items.any (ofVerb pre items verb) = true ↔
    ∃ it ∈ items, it.attach = false ∧ verbOf pre items it = verb := by
  simp only [List.any_eq_true, ofVerb, Bool.and_eq_true, Bool.not_eq_true', decide_eq_true_eq]

theorem covers_path {arm : WriteArm} {path : String} {row : Option Nat} :
    covers arm ⟨path, none, row⟩ = true ↔ (arm.columns.lookup path).isSome = true := Iff.rfl

theorem covers_field {arm : WriteArm} {path field : String} {row : Option Nat} :
    covers arm ⟨path, some field, row⟩ = true ↔ arm.lists path field := by
  show ((arm.columns.lookup path).getD []).contains field = true ↔ ∃ fields, arm.columns.lookup path = some fields ∧ field ∈ fields
  cases arm.columns.lookup path with
  | none => simp
  | some fields => simp

theorem attachable_iff : attachable auth it = true ↔
    ∃ arm ∈ auth.arms it.change.model .update, arm.lists it.change.model (attachField it) := by
  rw [attachable, List.any_eq_true]
  exact exists_congr fun arm => and_congr_right fun _ => covers_field

/-- The needs that are collected cover what the batch writes, where they are all. -/
theorem covered_of_collected (h : Rooted m items) (hall : Collected pre m same root items) {out : Admitted}
    (hout : admitBatch pre m same auth root items = .ok out) : Covered pre m same auth root items := by
  obtain ⟨hattach, hverbs⟩ := admitBatch_isOk.1 ⟨out, hout⟩
  have hjudged : ∀ {it : Item} {verb : Judged}, it ∈ items → (JudgedBy pre items it verb ↔ verbOf pre items it = verb) :=
    fun hit => judgedBy_iff h hit
  refine ⟨fun verb hverb hsome => ?_, fun hsome => ?_, fun it hit hat => attachable_iff.1 (hattach it hit hat)⟩
  · obtain ⟨it, hit, hat, hof⟩ := hsome
    have hadmits := hverbs verb (any_ofVerb.2 ⟨it, hit, hat, (hjudged hit).1 hof⟩)
    obtain ⟨arm, harm, hcovers⟩ : ∃ arm ∈ auth.arms root verb,
        ∀ need ∈ verbNeeds pre m same root items verb, covers arm need = true := by
      cases verb with
      | delete => exact absurd rfl hverb
      | create => exact hadmits
      | update => exact hadmits
    refine ⟨arm, harm, fun it hit hat hof => ?_⟩
    have hcolumn : ∀ it' ∈ items, it'.attach = false → JudgedBy pre items it' verb → ∀ field,
        field ∈ columnsOf pre m same (it'.parent.map Parent.fk) it' →
        arm.lists (layerPath root it'.change.path) field := by
      intro it' hit' hat' hof' field hfield
      refine covers_field.1 (hcovers _ (mem_verbNeeds.2 ⟨it', hit', hat', (hjudged hit').1 hof', .inr ⟨field, hfield, rfl⟩⟩))
    cases hparent : it.parent with
    | none =>
      obtain ⟨-, hthrough, hlayers⟩ := h.root it hit hparent
      refine ⟨fun hsome => (by cases hsome), fun field hfield => ?_⟩
      have himplied : it.implied = it.parent.map Parent.fk := by
        rcases h.implied it hit with himplied | himplied
        · rw [himplied, hparent]
          rfl
        · exact himplied
      rw [himplied] at hfield
      have hlists := hcolumn it hit hat hof field hfield
      rw [layerPath, hlayers] at hlists
      rwa [hthrough]
    | some parent =>
      obtain ⟨⟨it', hit', hat', hparent', hof', hpath⟩, hfields⟩ := hall verb hverb it hit hat (by rw [hparent]; rfl) hof
      refine ⟨fun _ => ?_, fun field hfield => ?_⟩
      · rw [← hpath]
        exact covers_path.1 (hcovers _ (mem_verbNeeds.2 ⟨it', hit', hat', (hjudged hit').1 hof', .inl ⟨hparent', rfl⟩⟩))
      · obtain ⟨it', hit', hat', hof', hpath, hmem⟩ := hfields field hfield
        rw [← hpath]
        exact hcolumn it' hit' hat' hof' field hmem
  · obtain ⟨it, hit, hat, hof⟩ := hsome
    exact hverbs .delete (any_ofVerb.2 ⟨it, hit, hat, (hjudged hit).1 hof⟩)

/-- An arm that lists what the needs name and nothing else. -/
def listing (needs : List Need) : WriteArm :=
  ⟨⟨"", false⟩, needs.map fun need =>
    (need.path, (needs.filter fun n => decide (n.path = need.path)).filterMap Need.field)⟩

theorem lookup_listing {needs : List Need} {path : String} :
    (listing needs).columns.lookup path =
      if needs.any fun n => decide (n.path = path) then
        some ((needs.filter fun n => decide (n.path = path)).filterMap Need.field)
      else none := by
  have hlookup : ∀ (fields : String → List String) (l : List Need),
      (l.map fun need => (need.path, fields need.path)).lookup path =
        if l.any fun n => decide (n.path = path) then some (fields path) else none := by
    intro fields l
    induction l with
    | nil => rfl
    | cons need l ih =>
      rw [List.map_cons, List.lookup_cons, List.any_cons, ih]
      by_cases hpath : need.path = path
      · subst hpath
        simp
      · have hne : (path == need.path) = false := beq_false_of_ne (Ne.symm hpath)
        rw [hne, decide_eq_false hpath, Bool.false_or]
  exact hlookup (fun path => (needs.filter fun n => decide (n.path = path)).filterMap Need.field) needs

theorem isSome_listing {needs : List Need} {path : String} :
    ((listing needs).columns.lookup path).isSome = true ↔ ∃ need ∈ needs, need.path = path := by
  rw [lookup_listing]
  by_cases hany : (needs.any fun n => decide (n.path = path)) = true
  · rw [if_pos hany]
    refine iff_of_true rfl ?_
    simpa using hany
  · rw [if_neg hany]
    refine iff_of_false (by decide) ?_
    simpa using hany

theorem lists_listing {needs : List Need} {path field : String} :
    (listing needs).lists path field ↔ ∃ need ∈ needs, need.path = path ∧ need.field = some field := by
  constructor
  · rintro ⟨fields, hlookup, hmem⟩
    rw [lookup_listing] at hlookup
    split_ifs at hlookup
    obtain rfl := Option.some_inj.1 hlookup
    obtain ⟨need, hneed, hfield⟩ := List.mem_filterMap.1 hmem
    obtain ⟨hin, hpath⟩ := List.mem_filter.1 hneed
    exact ⟨need, hin, of_decide_eq_true hpath, hfield⟩
  · rintro ⟨need, hin, hpath, hfield⟩
    have hany : (needs.any fun n => decide (n.path = path)) = true :=
      List.any_eq_true.2 ⟨need, hin, decide_eq_true hpath⟩
    refine ⟨_, lookup_listing.trans (if_pos hany), ?_⟩
    exact List.mem_filterMap.2 ⟨need, List.mem_filter.2 ⟨hin, decide_eq_true hpath⟩, hfield⟩

theorem covers_listing {needs : List Need} {need : Need} (h : need ∈ needs) : covers (listing needs) need = true := by
  obtain ⟨path, field, row⟩ := need
  cases field with
  | none => exact covers_path.2 (isSome_listing.2 ⟨_, h, rfl⟩)
  | some field => exact covers_field.2 (lists_listing.2 ⟨_, h, rfl, rfl⟩)

/-- The refs of the rows that are attached, as needs of their own model. -/
def attachNeeds (items : List Item) (model : String) : List Need :=
  (items.filter fun it => it.attach && decide (it.change.model = model)).map fun it => ⟨model, some (attachField it), none⟩

def leastNeeds (pre : Pre) (m : Manifest) (same : Json → Json → Bool) (root : String) (items : List Item)
    (verb : Judged) (model : String) : List Need :=
  (if model = root then verbNeeds pre m same root items verb else []) ++ attachNeeds items model

/-- The authority that lists what is collected of a batch and nothing else. -/
def least (pre : Pre) (m : Manifest) (same : Json → Json → Bool) (root : String) (items : List Item) : Authority :=
  ⟨[], fun model => some ⟨[listing (leastNeeds pre m same root items .create model)],
    [listing (leastNeeds pre m same root items .update model)], [⟨"", false⟩]⟩⟩

theorem least_admits (pre : Pre) (m : Manifest) (same : Json → Json → Bool) (root : String) (items : List Item) :
    ∃ out, admitBatch pre m same (least pre m same root items) root items = .ok out := by
  refine admitBatch_isOk.2 ⟨fun it hit hat => attachable_iff.2 ?_, fun verb _ => ?_⟩
  · refine ⟨_, List.mem_singleton_self _, lists_listing.2 ⟨⟨it.change.model, some (attachField it), none⟩, ?_, rfl, rfl⟩⟩
    refine List.mem_append_right _ (List.mem_map.2 ⟨it, List.mem_filter.2 ⟨hit, ?_⟩, rfl⟩)
    rw [hat, decide_eq_true rfl]
    rfl
  · have hcovers : ∀ need ∈ verbNeeds pre m same root items verb,
        covers (listing (leastNeeds pre m same root items verb root)) need = true := by
      intro need hneed
      refine covers_listing (List.mem_append_left _ ?_)
      rwa [if_pos rfl]
    cases verb with
    | delete => exact List.cons_ne_nil _ _
    | create => exact ⟨_, List.mem_singleton_self _, hcovers⟩
    | update => exact ⟨_, List.mem_singleton_self _, hcovers⟩

/-- What the least authority covers of a child row is collected. -/
theorem collected_of_covered (h : Rooted m items) (hcovered : Covered pre m same (least pre m same root items) root items) :
    Collected pre m same root items := by
  intro verb hverb it hit hat hparent hof
  obtain ⟨arm, harm, hlists⟩ := hcovered.written verb hverb ⟨it, hit, hat, hof⟩
  obtain rfl : arm = listing (leastNeeds pre m same root items verb root) := by
    cases verb with
    | delete => exact absurd rfl hverb
    | create => exact List.mem_singleton.1 harm
    | update => exact List.mem_singleton.1 harm
  have hne : writePath root it.through ≠ root := writePath_ne (h.child it hit hparent hat).1
  -- a need at a child row's path is none of an attached row, and none of a root row
  have hneed : ∀ need ∈ leastNeeds pre m same root items verb root, need.path = writePath root it.through →
      ∃ it' ∈ items, it'.attach = false ∧ it'.parent.isSome = true ∧ JudgedBy pre items it' verb ∧
        layerPath root it'.change.path = writePath root it.through ∧
        ∀ field, need.field = some field → field ∈ columnsOf pre m same (it'.parent.map Parent.fk) it' := by
    intro need hmem hpath
    rcases List.mem_append.1 hmem with hmem | hmem
    · rw [if_pos rfl] at hmem
      obtain ⟨it', hit', hat', hof', hadds⟩ := mem_verbNeeds.1 hmem
      have hlayer : need.path = layerPath root it'.change.path := by
        rcases hadds with ⟨-, rfl⟩ | ⟨field, -, rfl⟩ <;> rfl
      refine ⟨it', hit', hat', ?_, (judgedBy_iff h hit').2 hof', hlayer.symm.trans hpath, fun field hfield => ?_⟩
      · cases hparent' : it'.parent with
        | some parent => rfl
        | none =>
          obtain ⟨-, -, hlayers⟩ := h.root it' hit' hparent'
          rw [hlayer, layerPath, hlayers] at hpath
          exact absurd hpath.symm hne
      · rcases hadds with ⟨-, rfl⟩ | ⟨field', hfield', rfl⟩
        · cases hfield
        · rwa [← Option.some_inj.1 hfield]
    · obtain ⟨it', -, rfl⟩ := List.mem_map.1 hmem
      exact absurd hpath.symm hne
  obtain ⟨hpath, hfields⟩ := hlists it hit hat hof
  refine ⟨?_, fun field hfield => ?_⟩
  · obtain ⟨need, hmem, hat'⟩ := isSome_listing.1 (hpath hparent)
    obtain ⟨it', hit', hat'', hparent', hof', hlayer, -⟩ := hneed need hmem hat'
    exact ⟨it', hit', hat'', hparent', hof', hlayer⟩
  · obtain ⟨need, hmem, hat', hneedField⟩ := lists_listing.1 (hfields field hfield)
    obtain ⟨it', hit', hat'', -, hof', hlayer, hcolumn⟩ := hneed need hmem hat'
    exact ⟨it', hit', hat'', hof', hlayer, hcolumn field hneedField⟩

/-- Under plain relation names, everything is collected where no nested update changes its parent key. -/
theorem collected_of_plain (h : Rooted m items) (hplain : Plain m)
    (hkeys : ∀ it ∈ items, it.attach = false → it.implied = none → ∀ parent, it.parent = some parent →
      parent.fk ∉ columnsOf pre m same none it) : Collected pre m same root items := by
  intro verb _ it hit hat hparent hof
  have hlayers : layerPath root it.change.path = writePath root it.through :=
    congrArg (writePath root) ((h.child it hit hparent hat).2 hplain)
  refine ⟨⟨it, hit, hat, hparent, hof, hlayers⟩, fun field hfield => ⟨it, hit, hat, hof, hlayers, ?_⟩⟩
  rcases h.implied it hit with himplied | himplied
  · obtain ⟨parent, hsome⟩ := Option.isSome_iff_exists.1 hparent
    have hne : field ≠ parent.fk := by
      rintro rfl
      rw [himplied] at hfield
      exact hkeys it hit hat himplied parent hsome hfield
    rw [himplied] at hfield
    rw [hsome]
    unfold columnsOf at hfield ⊢
    split at hfield
    · cases hfield
    · obtain ⟨hsupplied, hcolumn⟩ := List.mem_filter.1 hfield
      refine List.mem_filter.2 ⟨hsupplied, ?_⟩
      simpa [hne] using hcolumn
  · rwa [himplied] at hfield

/-- Admission is complete under every authority exactly if all that the act writes is collected. -/
theorem admitted_iff (pre : Pre) (m : Manifest) (same : Json → Json → Bool) (mint : Nat → String) (root : String)
    (inputs : List Input) (prune : List String) :
    (∀ (auth : Authority) (out : Admitted),
      admitBatch pre m same auth root (flatten m mint root inputs prune).items = .ok out →
        Covered pre m same auth root (flatten m mint root inputs prune).items) ↔
      Collected pre m same root (flatten m mint root inputs prune).items := by
  have hrooted : Rooted m (flatten m mint root inputs prune).items := flatten_rooted mint root inputs prune
  constructor
  · intro hall
    obtain ⟨out, hout⟩ := least_admits pre m same root (flatten m mint root inputs prune).items
    exact collected_of_covered hrooted (hall _ out hout)
  · exact fun hcollected auth out hout => covered_of_collected hrooted hcollected hout

def orders : Manifest where
  model
    | "orders" => ⟨[], [("lines", ⟨"lines", "order"⟩)]⟩
    | _ => ⟨[("amount", ⟨false, false⟩), ("order", ⟨false, false⟩)], []⟩
  owned _ _ := false
  attaches _ := none
  decode _ _ v := .ok v
  invisible _ := false

/-- A line of order `o1` is moved to `o2` by a nested update, which the model's `update.columns` accept. -/
def moved : List Input :=
  [.update (.only [] [("lines", [("update", .only ["amount", "order"] [])])]) (some (.string "o1"))
    (some (.object [("lines", .object [("update", .array [.object
      [("target", .string "l1"), ("set", .object [("order", .string "o2")])]])])]))]

def ofOrder : Pre := fun model _ => if model = "lines" then some [("order", .string "o1")] else some []

def sameText : Json → Json → Bool
  | .string a, .string b => a == b
  | _, _ => false

def clerk : Authority :=
  ⟨["clerk"], fun _ => some ⟨[], [⟨⟨"clerk", false⟩, [("orders", []), ("orders.lines", ["amount"])]⟩], []⟩⟩

/-- A clerk who may write the amounts of an order's lines moves a line to another order. -/
theorem moved_admitted : ¬ ∀ (pre : Pre) (m : Manifest) (same : Json → Json → Bool) (mint : Nat → String) (root : String)
    (inputs : List Input) (prune : List String) (auth : Authority) (out : Admitted),
    admitBatch pre m same auth root (flatten m mint root inputs prune).items = .ok out →
      Covered pre m same auth root (flatten m mint root inputs prune).items := by
  intro hall
  have hcovered := hall ofOrder orders sameText (fun _ => "") "orders" moved [] clerk _ rfl
  have hlength : (flatten orders (fun _ => "") "orders" moved []).items.length = 2 := by decide
  have horder := List.get_mem (flatten orders (fun _ => "") "orders" moved []).items ⟨0, by rw [hlength]; decide⟩
  have hline := List.get_mem (flatten orders (fun _ => "") "orders" moved []).items ⟨1, by rw [hlength]; decide⟩
  obtain ⟨arm, harm, hlists⟩ := hcovered.written .update (by decide) ⟨_, hline, rfl, _, horder, rfl, rfl, rfl⟩
  obtain rfl := List.mem_singleton.1 harm
  obtain ⟨fields, hfields, hmem⟩ := (hlists _ hline rfl ⟨_, horder, rfl, rfl, rfl⟩).2 "order" (List.mem_singleton_self "order")
  obtain rfl : ["amount"] = fields := Option.some_inj.1 hfields
  revert hmem
  decide

end Norbital.Bolt.Flatten

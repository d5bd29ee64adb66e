import Norbital.Bolt.History.Authored

/-!
# Pruning history

The one statement of `pruneHistory` (`bolt/src/engine/query/history.ts`): per
lineage and record the newest revisions stay, the oldest of them becomes a full
row recorded as a creation, and the others go, except erased markers and the
histories an open request or an unacknowledged operation still needs.  Rows of
one revision are ranked in stored order.
-/

namespace Norbital.Bolt.History

open Maps KeyOrder

variable {V : Type*}

/-- A row of `bolt_history`. -/
structure HistoryRow (V : Type*) extends Entry V where
  collection : String
  record : String
  operation : Option String

/-- `coalesce(s.lineage::text, h.collection)`. -/
def HistoryRow.lineage (h : HistoryRow V) : Nat ⊕ String :=
  match h.version with
  | some v => .inl v.lineage
  | none => .inr h.collection

/-- What the statement partitions by. -/
def HistoryRow.part (h : HistoryRow V) : (Nat ⊕ String) × String := (h.lineage, h.record)

/-- What a statement joins rows by. -/
def sameKey (h h' : HistoryRow V) : Bool :=
  h.collection = h'.collection && h.record = h'.record && h.revision = h'.revision

/-- What the pass reads beside the history: the lineage `bolt_history_current`
gives a model, whether the model is active, the records of open requests, and
which operations have no acknowledged or expired receipt. -/
structure Setting where
  current : String → Option Nat
  active : String → Bool
  held : List (String × String)
  unacknowledged : String → Bool

/-- `bolt_history_matches`. -/
def matchesModel (s : Setting) (h : HistoryRow V) (model : String) : Bool :=
  match h.version with
  | some v => s.current model = some v.lineage
  | none => h.collection = model

/-- Whether an open request holds the row's record. -/
def heldRow (s : Setting) (h : HistoryRow V) : Bool :=
  s.held.any fun k => matchesModel s h k.1 && k.2 = h.record

/-- Whether a partition has a revision of an operation still to be acknowledged. -/
def pending (s : Setting) (rows : List (HistoryRow V)) (p : (Nat ⊕ String) × String) : Bool :=
  rows.any fun h => h.part = p && h.operation.any s.unacknowledged

/-- `ranked`: the rows of a partition the pass may touch, newest first. -/
def ranked (s : Setting) (rows : List (HistoryRow V)) (p : (Nat ⊕ String) × String) :
    List (HistoryRow V) :=
  (rows.filter fun h => h.part = p && !pending s rows h.part && !heldRow s h).insertionSort
    fun h h' => h'.revision ≤ h.revision

def erasedRow (h : HistoryRow V) : Bool := h.cause = .erased

/-- `oldest`: of a partition that loses a row, the oldest one kept that is no
erased marker. -/
def oldest (s : Setting) (keep : Nat) (rows : List (HistoryRow V)) (p : (Nat ⊕ String) × String) :
    Option (HistoryRow V) :=
  if ((ranked s rows p).drop keep).any fun h => !erasedRow h then
    ((ranked s rows p).take keep).reverse.find? fun h => !erasedRow h
  else none

/-- The whole history of a partition, oldest first. -/
def historyOf (rows : List (HistoryRow V)) (p : (Nat ⊕ String) × String) : List (HistoryRow V) :=
  (rows.filter fun h => h.part = p).insertionSort fun h h' => h.revision ≤ h'.revision

/-- `create_revision` of `since`: the last revision up to the row that resets the
reader. -/
def createRevision (rows : List (HistoryRow V)) (x : HistoryRow V) : Option Nat :=
  (((historyOf rows x.part).filter fun h => h.revision ≤ x.revision).filter
    fun h => h.resets).getLast?.map (·.revision)

/-- The latest value of each column from a revision up to the row's. -/
def foldedSince (rows : List (HistoryRow V)) (x : HistoryRow V) (revision : Nat) : Columns V :=
  latest ((((historyOf rows x.part).filter fun h => h.revision ≤ x.revision).filter
    fun h => revision ≤ h.revision).map (·.toEntry))

/-- `anchored`. -/
def anchor (s : Setting) (keep : Nat) (rows : List (HistoryRow V)) (h : HistoryRow V) :
    HistoryRow V :=
  match (rows.filterMap fun q => oldest s keep rows q.part).find? fun x =>
      x.op = .update && (createRevision rows x).isSome && sameKey x h with
  | some x =>
      { h with
        op := .create
        changes := foldedSince rows x ((createRevision rows x).getD 0) }
  | none => h

/-- `gone`. -/
def gone (s : Setting) (keep : Nat) (rows : List (HistoryRow V)) (h : HistoryRow V) : Bool :=
  rows.any fun q => ((ranked s rows q.part).drop keep).any fun x => !erasedRow x && sameKey x h

def pruneHistory (s : Setting) (keep : Nat) (rows : List (HistoryRow V)) : List (HistoryRow V) :=
  (rows.filter fun h => !gone s keep rows h).map (anchor s keep rows)

variable [DecidableEq V]

/-- Whether a revision is among those `readHistory` reads for a model. -/
def readable (s : Setting) (h : HistoryRow V) (model : String) : Bool :=
  match h.version with
  | some v => s.current model = some v.lineage && s.active model
  | none => h.collection = model

/-- The revisions `readHistory` folds for a record of a model. -/
def visible (s : Setting) (rows : List (HistoryRow V)) (model record : String) :
    List (HistoryRow V) :=
  (rows.filter fun h => readable s h model && h.record = record).insertionSort
    fun h h' => h.revision ≤ h'.revision

/-- The state `readHistory` rebuilds for a record of a model at a revision. -/
def rebuilt (R : Reading V) (s : Setting) (rows : List (HistoryRow V)) (model record : String)
    (revision : Nat) : State V :=
  readHistory R ((visible s rows model record).map (·.toEntry)) revision

section Record

variable {R : Reading V} {rows rows' old marked rest : List (Entry V)} {e x x' : Entry V}

/-- The state after the revisions up to one, from any state on. -/
def foldTo (R : Reading V) (rows : List (Entry V)) (revision : Nat) (state : State V) : State V :=
  (rows.filter fun e => e.revision ≤ revision).foldl (replay R) state

theorem foldTo_at {before after : List (Entry V)} (h : Rising Entry.revision rows)
    (heq : rows = before ++ e :: after) (state : State V) :
    foldTo R rows e.revision state = (before ++ [e]).foldl (replay R) state := by
  subst heq
  rw [foldTo, h.filter_le]

/-- A revision that absorbs what came before rebuilds from itself alone. -/
theorem foldTo_absorbs (h : Rising Entry.revision rows) (he : e ∈ rows)
    (habsorbs : e.absorbs = true) (state : State V) :
    foldTo R rows e.revision state = replay R (fun _ => none) e := by
  obtain ⟨before, after, heq⟩ := List.append_of_mem he
  rw [foldTo_at h heq, List.foldl_append, List.foldl_cons, List.foldl_nil]
  exact replay_absorbs habsorbs _ _

omit [DecidableEq V] in
theorem erased_absorbs (h : e.cause = .erased) : e.absorbs = true := by
  simp [Entry.absorbs, Entry.resets, h]

/-- Every revision of the second history rebuilds as in the first. -/
def Alike (R : Reading V) (rows rows' : List (Entry V)) : Prop :=
  ∀ e ∈ rows', ∀ state, foldTo R rows' e.revision state = foldTo R rows e.revision state

/-- A marker rebuilds alike in any two histories that have it. -/
theorem foldTo_erased (h : Rising Entry.revision rows) (h' : Rising Entry.revision rows')
    (he : e ∈ rows) (he' : e ∈ rows') (herased : e.cause = .erased) (state : State V) :
    foldTo R rows' e.revision state = foldTo R rows e.revision state := by
  rw [foldTo_absorbs h' he' (erased_absorbs herased), foldTo_absorbs h he (erased_absorbs herased)]

/-- A history whose last revisions are markers keeps its markers alone. -/
theorem alike_marked (hrising : Rising Entry.revision (old ++ marked))
    (hrising' : Rising Entry.revision (old.filter (fun e => e.cause = .erased) ++ marked))
    (hmarked : ∀ e ∈ marked, e.cause = .erased) :
    Alike R (old ++ marked) (old.filter (fun e => e.cause = .erased) ++ marked) := by
  intro e he
  rcases List.mem_append.1 he with h | h
  · exact foldTo_erased hrising hrising' (List.mem_append_left _ (List.mem_filter.1 h).1) he
      (by simpa using (List.mem_filter.1 h).2)
  · exact foldTo_erased hrising hrising' (List.mem_append_right _ h) he (hmarked e h)

/-- A history keeps its erased markers and the revisions from `x` on, with `x'` in
the place of `x`: every revision left rebuilds to what it did. -/
theorem alike_cut (hrising : Rising Entry.revision (old ++ (marked ++ x :: rest)))
    (hrising' : Rising Entry.revision
      (old.filter (fun e => e.cause = .erased) ++ (marked ++ x' :: rest)))
    (hmarked : ∀ e ∈ marked, e.cause = .erased) (hrevision : x'.revision = x.revision)
    (habsorbs : x'.absorbs = true)
    (hreplay : ∀ state, replay R (fun _ => none) x' =
      (old ++ marked ++ [x]).foldl (replay R) state) :
    Alike R (old ++ (marked ++ x :: rest))
      (old.filter (fun e => e.cause = .erased) ++ (marked ++ x' :: rest)) := by
  intro e he state
  rcases List.mem_append.1 he with hfront | htail
  · exact foldTo_erased hrising hrising' (List.mem_append_left _ (List.mem_filter.1 hfront).1) he
      (by simpa using (List.mem_filter.1 hfront).2) state
  rcases List.mem_append.1 htail with hmark | hlast
  · exact foldTo_erased hrising hrising'
      (List.mem_append_right _ (List.mem_append_left _ hmark)) he (hmarked e hmark) state
  rcases List.mem_cons.1 hlast with rfl | hrest
  · rw [foldTo_absorbs hrising' he habsorbs, hreplay state, hrevision]
    exact (foldTo_at hrising (List.append_assoc _ _ _).symm state).symm
  · -- after the anchor both histories go on alike
    obtain ⟨before, after, rfl⟩ := List.append_of_mem hrest
    have hfold : (old.filter (fun e => e.cause = .erased) ++ marked ++ [x']).foldl (replay R)
        state = (old ++ marked ++ [x]).foldl (replay R) state := by
      rw [← hreplay state, List.foldl_append, List.foldl_cons, List.foldl_nil]
      exact replay_absorbs habsorbs _ _
    have hsplit : old ++ (marked ++ x :: (before ++ e :: after)) =
        (old ++ marked ++ [x] ++ before) ++ e :: after := by simp
    have hsplit' : old.filter (fun e => e.cause = .erased) ++ (marked ++ x' :: (before ++ e :: after)) =
        (old.filter (fun e => e.cause = .erased) ++ marked ++ [x'] ++ before) ++ e :: after := by simp
    rw [foldTo_at hrising hsplit, foldTo_at hrising' hsplit', List.append_assoc _ before,
      List.append_assoc _ before, List.foldl_append, hfold, ← List.foldl_append]

end Record

/-- Whether the pass takes a revision off a partition. -/
def cuts (s : Setting) (keep : Nat) (rows : List (HistoryRow V)) (p : (Nat ⊕ String) × String) : Bool :=
  ((ranked s rows p).drop keep).any fun h => !erasedRow h

/-- The rows of a partition by whose keys the statement deletes and updates. -/
def joined (s : Setting) (keep : Nat) (rows : List (HistoryRow V)) (p : (Nat ⊕ String) × String) :
    List (HistoryRow V) :=
  ((ranked s rows p).drop keep).filter (fun h => !erasedRow h) ++
    (oldest s keep rows p).toList.filter fun x => x.op = .update && (createRevision rows x).isSome

/-- No other row has the key of a row the pass deletes or anchors. -/
def Keyed (s : Setting) (keep : Nat) (rows : List (HistoryRow V)) : Prop :=
  ∀ q ∈ rows, ∀ x ∈ joined s keep rows q.part, (rows.filter (sameKey x)).length ≤ 1

instance (s : Setting) (keep : Nat) (rows : List (HistoryRow V)) : Decidable (Keyed s keep rows) :=
  inferInstanceAs (Decidable (∀ q ∈ rows, _))

/-- No two revisions of a partition have one number. -/
def Apart (rows : List (HistoryRow V)) (p : (Nat ⊕ String) × String) : Prop :=
  Distinct (fun h : HistoryRow V => h.revision) (rows.filter fun h => h.part = p)

instance (rows : List (HistoryRow V)) (p : (Nat ⊕ String) × String) : Decidable (Apart rows p) :=
  inferInstanceAs (Decidable (Distinct _ _))

section Table

omit [DecidableEq V]

variable {s : Setting} {keep : Nat} {rows rows' : List (HistoryRow V)} {h h' x : HistoryRow V}
  {p : (Nat ⊕ String) × String}

theorem mem_ranked (hx : x ∈ ranked s rows p) : x ∈ rows ∧ x.part = p := by
  rw [ranked, List.mem_insertionSort, List.mem_filter] at hx
  simp only [Bool.and_eq_true, decide_eq_true_eq] at hx
  exact ⟨hx.1, hx.2.1.1⟩

theorem oldest_mem (hx : oldest s keep rows p = some x) : x ∈ rows ∧ x.part = p := by
  rw [oldest] at hx
  split at hx
  · have hmem := List.mem_of_find?_eq_some hx
    rw [List.mem_reverse] at hmem
    exact mem_ranked (List.mem_of_mem_take hmem)
  · cases hx

theorem mem_joined (hx : x ∈ joined s keep rows p) : x ∈ rows ∧ x.part = p := by
  rcases List.mem_append.1 hx with hx | hx
  · exact mem_ranked (List.mem_of_mem_drop (List.mem_filter.1 hx).1)
  · exact oldest_mem (Option.mem_toList.1 (List.mem_filter.1 hx).1)

theorem Keyed.eq_of_sameKey (hk : Keyed s keep rows) (hh' : h' ∈ rows) (hx : x ∈ joined s keep rows h'.part)
    (hh : h ∈ rows) (hkey : sameKey x h = true) : x = h := by
  have hself : sameKey x x = true := by simp [sameKey]
  have hx₁ : x ∈ rows.filter (sameKey x) := List.mem_filter.2 ⟨(mem_joined hx).1, hself⟩
  have hh₁ : h ∈ rows.filter (sameKey x) := List.mem_filter.2 ⟨hh, hkey⟩
  have hone := hk h' hh' x hx
  match hrows : rows.filter (sameKey x) with
  | [] => simp [hrows] at hx₁
  | [y] =>
    rw [hrows, List.mem_singleton] at hx₁ hh₁
    exact hx₁.trans hh₁.symm
  | _ :: _ :: _ => simp [hrows] at hone

theorem Apart.rising (hd : Apart rows p) :
    Rising (fun h : HistoryRow V => h.revision) (historyOf rows p) :=
  Distinct.rising_sort hd

theorem mem_historyOf : h ∈ historyOf rows p ↔ h ∈ rows ∧ h.part = p := by
  simp [historyOf]

theorem matchesModel_part (hpart : h.part = h'.part) (model : String) :
    matchesModel s h model = matchesModel s h' model := by
  have hlineage : h.lineage = h'.lineage := congrArg Prod.fst hpart
  rw [HistoryRow.lineage, HistoryRow.lineage] at hlineage
  rw [matchesModel, matchesModel]
  cases hv : h.version with
  | none =>
    cases hv' : h'.version with
    | none =>
      simp only [hv, hv', Sum.inr.injEq] at hlineage
      rw [hlineage]
    | some v' => simp [hv, hv'] at hlineage
  | some v =>
    cases hv' : h'.version with
    | none => simp [hv, hv'] at hlineage
    | some v' =>
      simp only [hv, hv', Sum.inl.injEq] at hlineage
      simp only [hlineage]

theorem heldRow_part (hpart : h.part = h'.part) : heldRow s h = heldRow s h' := by
  have hrecord : h.record = h'.record := congrArg Prod.snd hpart
  simp only [heldRow, matchesModel_part hpart, hrecord]

/-- Whether the pass leaves a row's partition alone. -/
def shielded (s : Setting) (rows : List (HistoryRow V)) (h : HistoryRow V) : Bool :=
  pending s rows h.part || heldRow s h

/-- A shielded partition is not ranked at all. -/
theorem ranked_shielded (hs : shielded s rows h = true) : ranked s rows h.part = [] := by
  have hnone : (rows.filter fun h' => h'.part = h.part && !pending s rows h'.part &&
      !heldRow s h') = [] := by
    refine List.filter_eq_nil_iff.2 ?_
    intro h' _ hin
    simp only [Bool.and_eq_true, decide_eq_true_eq, Bool.not_eq_true'] at hin
    obtain ⟨⟨hpart, hpending⟩, hheld⟩ := hin
    rw [shielded, ← heldRow_part hpart, hheld, ← hpart, hpending] at hs
    cases hs
  rw [ranked, hnone]
  rfl

/-- Any other is ranked whole, newest first. -/
theorem ranked_open (hd : Apart rows h.part) (hs : shielded s rows h = false) :
    ranked s rows h.part = (historyOf rows h.part).reverse := by
  have hall : (rows.filter fun h' => h'.part = h.part && !pending s rows h'.part &&
      !heldRow s h') = rows.filter fun h' => h'.part = h.part := by
    refine List.filter_congr ?_
    intro h' _
    by_cases hpart : h'.part = h.part
    · simp only [shielded, Bool.or_eq_false_iff] at hs
      simp [hpart, hs.1, heldRow_part hpart, hs.2]
    · simp [hpart]
  rw [ranked, hall]
  exact Distinct.sort_reverse hd

theorem gone_iff (hk : Keyed s keep rows) (hh : h ∈ rows) :
    gone s keep rows h = true ↔
      erasedRow h = false ∧ h ∈ (ranked s rows h.part).drop keep := by
  simp only [gone, List.any_eq_true, Bool.and_eq_true, Bool.not_eq_true']
  constructor
  · rintro ⟨q, hq, x, hx, herased, hkey⟩
    have hjoined : x ∈ joined s keep rows q.part :=
      List.mem_append_left _ (List.mem_filter.2 ⟨hx, by simp [herased]⟩)
    obtain rfl := hk.eq_of_sameKey hq hjoined hh hkey
    exact ⟨herased, (mem_joined hjoined).2 ▸ hx⟩
  · rintro ⟨herased, hx⟩
    exact ⟨h, hh, h, hx, herased, by simp [sameKey]⟩

theorem joined_oldest (hx : oldest s keep rows p = some x) (hop : x.op = .update)
    (hfrom : (createRevision rows x).isSome = true) : x ∈ joined s keep rows p :=
  List.mem_append_right _ (List.mem_filter.2 ⟨Option.mem_toList.2 hx, by simp [hop, hfrom]⟩)

/-- Only the oldest kept row of a partition is anchored. -/
theorem anchor_of_ne (hk : Keyed s keep rows) (hh : h ∈ rows)
    (hne : ¬ (oldest s keep rows h.part = some h ∧ h.op = .update ∧
      (createRevision rows h).isSome)) : anchor s keep rows h = h := by
  rw [anchor]
  split
  · next x hx =>
    have htest := List.find?_some hx
    simp only [Bool.and_eq_true, decide_eq_true_eq] at htest
    obtain ⟨q, hqr, hq⟩ := List.mem_filterMap.1 (List.mem_of_find?_eq_some hx)
    obtain rfl := hk.eq_of_sameKey hqr (joined_oldest hq htest.1.1 htest.1.2) hh htest.2
    exact absurd ⟨(oldest_mem hq).2 ▸ hq, htest.1.1, htest.1.2⟩ hne
  · rfl

theorem anchor_oldest (hk : Keyed s keep rows) (hh : h ∈ rows) (hold : oldest s keep rows h.part = some h)
    (hop : h.op = .update) {r : Nat} (hr : createRevision rows h = some r) :
    anchor s keep rows h = { h with op := .create, changes := foldedSince rows h r } := by
  rw [anchor]
  split
  · next x hx =>
    have htest := List.find?_some hx
    simp only [Bool.and_eq_true, decide_eq_true_eq] at htest
    obtain ⟨q, hqr, hq⟩ := List.mem_filterMap.1 (List.mem_of_find?_eq_some hx)
    obtain rfl := hk.eq_of_sameKey hqr (joined_oldest hq htest.1.1 htest.1.2) hh htest.2
    rw [hr]
    rfl
  · next hnone =>
    refine absurd ?_ (List.find?_eq_none.1 hnone h (List.mem_filterMap.2 ⟨h, hh, hold⟩))
    simp [hop, hr, sameKey]

@[simp] theorem anchor_part : (anchor s keep rows h).part = h.part := by
  rw [anchor]
  split <;> rfl

@[simp] theorem anchor_revision : (anchor s keep rows h).revision = h.revision := by
  rw [anchor]
  split <;> rfl

@[simp] theorem anchor_record : (anchor s keep rows h).record = h.record := by
  rw [anchor]
  split <;> rfl

@[simp] theorem anchor_collection : (anchor s keep rows h).collection = h.collection := by
  rw [anchor]
  split <;> rfl

@[simp] theorem anchor_version : (anchor s keep rows h).version = h.version := by
  rw [anchor]
  split <;> rfl

@[simp] theorem anchor_operation : (anchor s keep rows h).operation = h.operation := by
  rw [anchor]
  split <;> rfl

@[simp] theorem anchor_erasedRow : erasedRow (anchor s keep rows h) = erasedRow h := by
  rw [anchor]
  split <;> rfl

theorem mem_pruneHistory : h ∈ pruneHistory s keep rows ↔
    ∃ h₀ ∈ rows, gone s keep rows h₀ = false ∧ anchor s keep rows h₀ = h := by
  simp [pruneHistory, and_assoc]

theorem filter_pruneHistory {f : HistoryRow V → Bool} (hf : ∀ h, f (anchor s keep rows h) = f h) :
    (pruneHistory s keep rows).filter f =
      ((rows.filter f).filter fun h => !gone s keep rows h).map (anchor s keep rows) := by
  rw [pruneHistory, List.filter_map, List.filter_comm]
  simp [Function.comp_def, hf]

theorem filter_part_pruneHistory (p : (Nat ⊕ String) × String) :
    ((pruneHistory s keep rows).filter fun h => h.part = p) =
      ((rows.filter fun h => h.part = p).filter fun h => !gone s keep rows h).map (anchor s keep rows) :=
  filter_pruneHistory fun h => by rw [anchor_part]

theorem Apart.prune (hd : Apart rows p) (s : Setting) (keep : Nat) : Apart (pruneHistory s keep rows) p := by
  rw [Apart, filter_part_pruneHistory, Distinct, List.pairwise_map]
  simp only [anchor_revision]
  exact List.Pairwise.filter _ hd

/-- A partition after the pass, from the partition before it. -/
theorem historyOf_pruneHistory (hd : Apart rows p) :
    historyOf (pruneHistory s keep rows) p =
      ((historyOf rows p).filter fun h => !gone s keep rows h).map (anchor s keep rows) := by
  have hrising : Rising (fun h : HistoryRow V => h.revision)
      (((historyOf rows p).filter fun h => !gone s keep rows h).map (anchor s keep rows)) := by
    rw [Rising, List.pairwise_map]
    exact (hd.rising.filter _).imp fun hlt => by simpa using hlt
  refine hrising.eq_of_perm ?_ (hd.prune s keep).rising.le
  rw [historyOf, filter_part_pruneHistory]
  exact (List.perm_insertionSort _ _).trans
    (((List.perm_insertionSort _ _).symm.filter _).map _)

/-- A partition that is cut is ranked whole. -/
theorem open_of_cuts (hcut : cuts s keep rows h.part = true) : shielded s rows h = false := by
  rw [← Bool.not_eq_true]
  intro hs
  simp [cuts, ranked_shielded hs] at hcut

theorem mem_of_cuts (hcut : cuts s keep rows p = true) : ∃ h ∈ rows, h.part = p := by
  obtain ⟨h, hh, -⟩ := List.any_eq_true.1 hcut
  exact ⟨h, mem_ranked (List.mem_of_mem_drop hh)⟩

theorem untouched_of_uncut (hk : Keyed s keep rows) (hh : h ∈ rows) (hcut : cuts s keep rows h.part = false) :
    gone s keep rows h = false ∧ anchor s keep rows h = h := by
  constructor
  · rw [← Bool.not_eq_true, gone_iff hk hh]
    rintro ⟨herased, hmem⟩
    have := List.any_eq_false.1 hcut h hmem
    simp [herased] at this
  · refine anchor_of_ne hk hh ?_
    rw [oldest, if_neg (by rw [← cuts, hcut]; exact Bool.false_ne_true)]
    simp

/-- Rows of partitions that are not cut stay as they are. -/
theorem filter_uncut (hk : Keyed s keep rows) {f : HistoryRow V → Bool} (hf : ∀ h, f (anchor s keep rows h) = f h)
    (hcut : ∀ h ∈ rows, f h = true → cuts s keep rows h.part = false) :
    (pruneHistory s keep rows).filter f = rows.filter f := by
  have hall : ∀ h ∈ rows.filter f, gone s keep rows h = false ∧ anchor s keep rows h = h := by
    intro h hh
    obtain ⟨hmem, hfh⟩ := List.mem_filter.1 hh
    exact untouched_of_uncut hk hmem (hcut h hmem hfh)
  rw [filter_pruneHistory hf, List.filter_eq_self.2 fun h hh => by simp [(hall h hh).1]]
  exact (List.map_congr_left fun h hh => (hall h hh).2).trans (List.map_id _)

theorem filter_part_uncut (hk : Keyed s keep rows) (hcut : cuts s keep rows p = false) :
    ((pruneHistory s keep rows).filter fun h => h.part = p) = rows.filter fun h => h.part = p := by
  refine filter_uncut hk (fun h => by rw [anchor_part]) fun h _ hpart => ?_
  rw [of_decide_eq_true hpart]
  exact hcut

theorem historyOf_uncut (hk : Keyed s keep rows) (hcut : cuts s keep rows p = false) :
    historyOf (pruneHistory s keep rows) p = historyOf rows p := by
  rw [historyOf, filter_part_uncut hk hcut, historyOf]

/-- The revisions of a partition beyond the newest ones. -/
def past (keep : Nat) (rows : List (HistoryRow V)) (p : (Nat ⊕ String) × String) :
    List (HistoryRow V) :=
  (historyOf rows p).take ((historyOf rows p).length - keep)

/-- The newest revisions of a partition. -/
def newest (keep : Nat) (rows : List (HistoryRow V)) (p : (Nat ⊕ String) × String) :
    List (HistoryRow V) :=
  (historyOf rows p).drop ((historyOf rows p).length - keep)

theorem past_append_newest (keep : Nat) (rows : List (HistoryRow V))
    (p : (Nat ⊕ String) × String) : past keep rows p ++ newest keep rows p = historyOf rows p :=
  List.take_append_drop _ _

/-- Of an open partition the past goes, its markers apart. -/
theorem gone_open (hk : Keyed s keep rows) (hd : Apart rows h.part) (hs : shielded s rows h = false) (hx : x ∈ historyOf rows h.part) :
    gone s keep rows x = true ↔ erasedRow x = false ∧ x ∈ past keep rows h.part := by
  obtain ⟨hmem, hpart⟩ := mem_historyOf.1 hx
  rw [gone_iff hk hmem, hpart, ranked_open hd hs, List.drop_reverse, List.mem_reverse, past]

theorem oldest_open (hd : Apart rows h.part) (hs : shielded s rows h = false) :
    oldest s keep rows h.part =
      if (past keep rows h.part).any fun h => !erasedRow h then
        (newest keep rows h.part).find? fun h => !erasedRow h
      else none := by
  rw [oldest, ranked_open hd hs, List.drop_reverse, List.take_reverse, List.reverse_reverse,
    List.any_reverse]
  rfl

theorem filter_gone_open (hk : Keyed s keep rows) (hd : Apart rows h.part) (hs : shielded s rows h = false) :
    ((historyOf rows h.part).filter fun h => !gone s keep rows h) =
      (past keep rows h.part).filter erasedRow ++ newest keep rows h.part := by
  have hdisjoint : ∀ x ∈ past keep rows h.part, x ∉ newest keep rows h.part := by
    have hnodup := hd.rising.nodup
    rw [← past_append_newest keep rows h.part, List.nodup_append] at hnodup
    exact fun x hx hx' => hnodup.2.2 x hx x hx' rfl
  have hpast : ((past keep rows h.part).filter fun h => !gone s keep rows h) =
      (past keep rows h.part).filter erasedRow := by
    refine List.filter_congr ?_
    intro x hx
    have hiff : gone s keep rows x = true ↔ _ := gone_open hk hd hs (List.mem_of_mem_take hx)
    cases hg : gone s keep rows x <;> cases he : erasedRow x <;> simp_all
  have hnewest : ((newest keep rows h.part).filter fun h => !gone s keep rows h) =
      newest keep rows h.part := by
    refine List.filter_eq_self.2 ?_
    intro x hx
    rw [Bool.not_eq_true', ← Bool.not_eq_true, gone_open hk hd hs (List.mem_of_mem_drop hx)]
    exact fun hgone => hdisjoint x hgone.2 hx
  conv_lhs => rw [← past_append_newest keep rows h.part]
  rw [List.filter_append, hpast, hnewest]

/-- The last element with a property, and what comes after it. -/
theorem getLast?_filter_eq_some {α : Type*} {f : α → Bool} {l : List α} {c : α}
    (hc : (l.filter f).getLast? = some c) :
    f c = true ∧ ∃ before after, l = before ++ c :: after ∧ ∀ x ∈ after, f x = false := by
  rw [List.getLast?_eq_head?_reverse, ← List.filter_reverse, List.head?_filter,
    List.find?_eq_some_iff_append] at hc
  obtain ⟨hfc, after, before, hsplit, hafter⟩ := hc
  refine ⟨hfc, before.reverse, after.reverse, ?_, ?_⟩
  · have hrev := congrArg List.reverse hsplit
    simpa using hrev
  · intro x hx
    simpa using hafter x (List.mem_reverse.1 hx)

end Table

section Anchor

variable {R : Reading V} {s : Setting} {keep : Nat} {rows before rest : List (HistoryRow V)}
  {h x : HistoryRow V}

/-- An oldest kept revision that is an update has a revision to fold from. -/
def rooted (s : Setting) (keep : Nat) (rows : List (HistoryRow V)) : Bool :=
  rows.all fun q => (oldest s keep rows q.part).all fun x =>
    x.op ≠ .update || (createRevision rows x).isSome

omit [DecidableEq V] in
theorem rooted_oldest (hroot : rooted s keep rows = true) (hx : oldest s keep rows x.part = some x)
    (hop : x.op = .update) : ∃ r, createRevision rows x = some r := by
  have hall := List.all_eq_true.1 hroot x (oldest_mem hx).1
  rw [hx, Option.all_some] at hall
  simpa [hop, Option.isSome_iff_exists] using hall

omit [DecidableEq V] in
/-- The anchor of an update is its row, folded from the last revision that resets. -/
theorem anchor_update (hk : Keyed s keep rows) (hd : Apart rows x.part) (hsplit : historyOf rows x.part = before ++ x :: rest)
    (hold : oldest s keep rows x.part = some x) (hop : x.op = .update) {r : Nat}
    (hr : createRevision rows x = some r) :
    ∃ old c since, before ++ [x] = old ++ c :: since ∧ c.resets = true ∧
      (∀ e ∈ since, e.resets = false) ∧
      (anchor s keep rows x).toEntry =
        x.toEntry.anchored (latest ((c :: since).map (·.toEntry))) := by
  have hrising : Rising (fun h : HistoryRow V => h.revision) (before ++ x :: rest) :=
    hsplit ▸ hd.rising
  have hcut : ((historyOf rows x.part).filter fun h => h.revision ≤ x.revision) = before ++ [x] := by
    rw [hsplit]
    exact hrising.filter_le
  have hr' := hr
  rw [createRevision, hcut, Option.map_eq_some_iff] at hr'
  obtain ⟨c, hc, hcr⟩ := hr'
  obtain ⟨hresets, old, since, hwhole, hsince⟩ := getLast?_filter_eq_some hc
  refine ⟨old, c, since, hwhole, hresets, hsince, ?_⟩
  have hrising' : Rising (fun h : HistoryRow V => h.revision) (old ++ c :: since) := by
    rw [← hwhole]
    refine List.Pairwise.sublist ?_ hrising
    rw [List.append_cons before x rest]
    exact List.sublist_append_left _ _
  have hfolded : foldedSince rows x r = latest ((c :: since).map (·.toEntry)) := by
    rw [foldedSince, hcut, hwhole, ← hcr, hrising'.filter_ge]
  rw [anchor_oldest hk (oldest_mem hold).1 hold hop hr, hfolded]
  rfl

/-- The anchor stands for all that came before it, and the history goes on from it. -/
theorem anchor_stands (hk : Keyed s keep rows) (hd : Apart rows x.part) (hsplit : historyOf rows x.part = before ++ x :: rest)
    (hold : oldest s keep rows x.part = some x) (hroot : rooted s keep rows = true)
    {first last : Option (StoredRow R)}
    (hauthored : Authored first ((historyOf rows x.part).map (·.toEntry)) last) :
    (anchor s keep rows x).toEntry.absorbs = true ∧
      (∀ state, replay R (fun _ => none) (anchor s keep rows x).toEntry =
        ((before ++ [x]).map (·.toEntry)).foldl (replay R) state) ∧
      ∃ row, (∀ row', Follows row' (anchor s keep rows x).toEntry row) ∧
        Authored row (rest.map (·.toEntry)) last := by
  rw [hsplit, List.append_cons, List.map_append, authored_append] at hauthored
  obtain ⟨row, hauthored, hrest⟩ := hauthored
  by_cases hop : x.op = .update
  · -- an update holds the latest value of each column since the last revision that resets
    obtain ⟨r, hr⟩ := rooted_oldest hroot hold hop
    obtain ⟨old, c, since, hwhole, hresets, hsince, hanchor⟩ := anchor_update hk hd hsplit hold hop hr
    have hlast : ∃ init, old.map (·.toEntry) ++ c.toEntry :: since.map (·.toEntry) =
        init ++ [x.toEntry] := by
      refine ⟨before.map (·.toEntry), ?_⟩
      simpa using (congrArg (List.map (·.toEntry)) hwhole).symm
    have hsince' : ∀ e ∈ since.map (·.toEntry), e.resets = false := by
      intro e he
      obtain ⟨h, hh, rfl⟩ := List.mem_map.1 he
      exact hsince h hh
    rw [hwhole, List.map_append, List.map_cons] at hauthored
    rw [hanchor, hwhole, List.map_append, List.map_cons]
    refine ⟨by simp [Entry.absorbs, anchored_resets], ?_, row, ?_, hrest⟩
    · exact fun state => replay_anchored hauthored hlast hresets hsince' hop _ state
    · exact fun row' => follows_anchored hauthored hlast hresets hsince' hop row'
  · -- a creation or a deletion absorbs as it is
    rw [anchor_of_ne hk (oldest_mem hold).1 fun hne => hop hne.2.1]
    have habsorbs : x.toEntry.absorbs = true := by
      cases hx : x.op <;> simp_all [Entry.absorbs, Entry.resets]
    rw [List.map_append] at hauthored ⊢
    refine ⟨habsorbs, ?_, row, ?_, hrest⟩
    · intro state
      rw [List.foldl_append]
      exact replay_absorbs habsorbs _ _
    · obtain ⟨mid, -, _ | ⟨hfollows, ⟨⟩⟩⟩ := authored_append.1 hauthored
      exact fun row' => hfollows.absorbs habsorbs row'

end Anchor

section Partition

variable {R : Reading V} {s : Setting} {keep : Nat} {rows : List (HistoryRow V)}
  {h x : HistoryRow V} {p : (Nat ⊕ String) × String}

/-- The entries of a partition. -/
def entriesOf (rows : List (HistoryRow V)) (p : (Nat ⊕ String) × String) : List (Entry V) :=
  (historyOf rows p).map (·.toEntry)

omit [DecidableEq V] in
theorem Apart.rising_entries (hd : Apart rows p) : Rising Entry.revision (entriesOf rows p) := by
  rw [entriesOf, Rising, List.pairwise_map]
  exact hd.rising

omit [DecidableEq V] in
theorem map_filter_erased (l : List (HistoryRow V)) :
    (l.filter erasedRow).map (·.toEntry) =
      (l.map (·.toEntry)).filter fun e => e.cause = .erased := by
  rw [List.filter_map]
  rfl

omit [DecidableEq V] in
/-- All of a partition but its oldest kept revision stays as it is. -/
theorem map_anchor_of_ne (hk : Keyed s keep rows) {l : List (HistoryRow V)}
    (hl : ∀ y ∈ l, y ∈ historyOf rows p) (hne : ∀ y ∈ l, oldest s keep rows p ≠ some y) :
    l.map (anchor s keep rows) = l := by
  refine (List.map_congr_left fun y hy => ?_).trans (List.map_id _)
  obtain ⟨hmem, hpart⟩ := mem_historyOf.1 (hl y hy)
  refine anchor_of_ne hk hmem ?_
  rw [hpart]
  exact fun hold => hne y hy hold.1

omit [DecidableEq V] in
theorem entriesOf_eq (keep : Nat) (rows : List (HistoryRow V)) (p : (Nat ⊕ String) × String) :
    entriesOf rows p = (past keep rows p).map (·.toEntry) ++ (newest keep rows p).map (·.toEntry) := by
  rw [entriesOf, ← List.map_append, past_append_newest]

/-- The markers of a history absorb what came before them. -/
theorem absorbing_markers {old marked : List (Entry V)} {first last : Option (StoredRow R)}
    (h : Authored first (old ++ marked) last) (hmarked : ∀ e ∈ marked, e.cause = .erased) :
    ∀ e ∈ old.filter (fun e => e.cause = .erased) ++ marked,
      e.absorbs = true ∧ ∃ row row' : Option (StoredRow R), Follows row e row' := by
  intro e he
  rcases List.mem_append.1 he with he | he
  · obtain ⟨hmem, herased⟩ := List.mem_filter.1 he
    exact ⟨erased_absorbs (by simpa using herased), h.follows (List.mem_append_left _ hmem)⟩
  · exact ⟨erased_absorbs (hmarked e he), h.follows (List.mem_append_right _ he)⟩

/-- A history that rebuilds as another one does, and is authored as it is. -/
def Stands (R : Reading V) (es es' : List (Entry V)) : Prop :=
  Alike R es es' ∧ ∃ first last : Option (StoredRow R), Authored first es' last

/-- A partition whose newest revisions are all markers. -/
theorem stands_markers (hk : Keyed s keep rows) (hd : Apart rows h.part) (hs : shielded s rows h = false)
    {first last : Option (StoredRow R)} (hauthored : Authored first (entriesOf rows h.part) last)
    (hold : oldest s keep rows h.part = none)
    (hnewest : ∀ y ∈ newest keep rows h.part, erasedRow y = true) :
    Stands R (entriesOf rows h.part) (entriesOf (pruneHistory s keep rows) h.part) := by
  have hrising := hd.rising_entries
  have hrising' := (hd.prune s keep).rising_entries
  have hleft : entriesOf (pruneHistory s keep rows) h.part =
      ((past keep rows h.part).map (·.toEntry)).filter (fun e => e.cause = .erased) ++
        (newest keep rows h.part).map (·.toEntry) := by
    have hstays : ((past keep rows h.part).filter erasedRow ++ newest keep rows h.part).map
        (anchor s keep rows) = (past keep rows h.part).filter erasedRow ++ newest keep rows h.part := by
      refine map_anchor_of_ne (p := h.part) hk ?_ (by simp [hold])
      intro y hy
      rcases List.mem_append.1 hy with hy | hy
      · exact List.mem_of_mem_take (List.mem_filter.1 hy).1
      · exact List.mem_of_mem_drop hy
    rw [entriesOf, historyOf_pruneHistory hd, filter_gone_open hk hd hs, hstays, List.map_append,
      map_filter_erased]
  have hmarked : ∀ e ∈ (newest keep rows h.part).map (·.toEntry), e.cause = .erased := by
    intro e he
    obtain ⟨y, hy, rfl⟩ := List.mem_map.1 he
    simpa [erasedRow] using hnewest y hy
  rw [hleft] at hrising' ⊢
  rw [entriesOf_eq keep] at hrising hauthored ⊢
  refine ⟨alike_marked hrising hrising' hmarked, none, authored_absorbing ?_ none⟩
  exact absorbing_markers hauthored hmarked

/-- A partition that loses a revision and has an oldest kept one. -/
theorem stands_anchored (hk : Keyed s keep rows) (hd : Apart rows h.part) (hs : shielded s rows h = false)
    (hroot : rooted s keep rows = true) {first last : Option (StoredRow R)}
    (hauthored : Authored first (entriesOf rows h.part) last)
    (hold : oldest s keep rows h.part = some x) {marked rest : List (HistoryRow V)}
    (hnewest : newest keep rows h.part = marked ++ x :: rest)
    (hmarked : ∀ y ∈ marked, erasedRow y = true) :
    Stands R (entriesOf rows h.part) (entriesOf (pruneHistory s keep rows) h.part) := by
  have hpart : x.part = h.part := (oldest_mem hold).2
  have hrising := hd.rising_entries
  have hrising' := (hd.prune s keep).rising_entries
  have hwhole : historyOf rows h.part = (past keep rows h.part ++ marked) ++ x :: rest := by
    rw [← past_append_newest keep, hnewest, List.append_assoc]
  have hnodup := hd.rising.nodup
  rw [hwhole, List.nodup_append, List.nodup_cons] at hnodup
  have hfront : ∀ y ∈ past keep rows h.part ++ marked, y ≠ x :=
    fun y hy => hnodup.2.2 y hy x List.mem_cons_self
  -- only the oldest kept revision is rewritten
  have hstays : ∀ l : List (HistoryRow V), (∀ y ∈ l, y ∈ historyOf rows h.part ∧ y ≠ x) →
      l.map (anchor s keep rows) = l := by
    intro l hl
    refine map_anchor_of_ne (p := h.part) hk (fun y hy => (hl y hy).1) ?_
    intro y hy heq
    rw [hold, Option.some.injEq] at heq
    exact (hl y hy).2 heq.symm
  have hleft : entriesOf (pruneHistory s keep rows) h.part =
      ((past keep rows h.part).map (·.toEntry)).filter (fun e => e.cause = .erased) ++
        (marked.map (·.toEntry) ++ (anchor s keep rows x).toEntry :: rest.map (·.toEntry)) := by
    have hpast : ((past keep rows h.part).filter erasedRow).map (anchor s keep rows) =
        (past keep rows h.part).filter erasedRow := by
      refine hstays _ fun y hy => ?_
      have hy := (List.mem_filter.1 hy).1
      exact ⟨by simp [hwhole, hy], hfront y (List.mem_append_left _ hy)⟩
    have hmark : marked.map (anchor s keep rows) = marked := by
      refine hstays _ fun y hy => ?_
      exact ⟨by simp [hwhole, hy], hfront y (List.mem_append_right _ hy)⟩
    have hrest : rest.map (anchor s keep rows) = rest := by
      refine hstays _ fun y hy => ?_
      exact ⟨by simp [hwhole, hy], fun heq => hnodup.2.1.1 (heq ▸ hy)⟩
    rw [entriesOf, historyOf_pruneHistory hd, filter_gone_open hk hd hs, hnewest, List.map_append,
      @List.map_append _ _ _ marked, List.map_cons, hpast, hmark, hrest]
    simp [map_filter_erased]
  have hright : entriesOf rows h.part = (past keep rows h.part).map (·.toEntry) ++
      (marked.map (·.toEntry) ++ x.toEntry :: rest.map (·.toEntry)) := by
    rw [entriesOf_eq keep, hnewest, List.map_append, List.map_cons]
  have hmarked' : ∀ e ∈ marked.map (·.toEntry), e.cause = .erased := by
    intro e he
    obtain ⟨y, hy, rfl⟩ := List.mem_map.1 he
    simpa [erasedRow] using hmarked y hy
  have hfirst := hauthored
  have hdx : Apart rows x.part := hpart.symm ▸ hd
  rw [← hpart] at hold hfirst hwhole
  obtain ⟨habsorbs, hreplay, row, hfollows, hrest⟩ := anchor_stands hk hdx hwhole hold hroot hfirst
  rw [hleft] at hrising' ⊢
  rw [hright] at hrising hauthored ⊢
  constructor
  · refine alike_cut hrising hrising' hmarked' anchor_revision habsorbs ?_
    intro state
    rw [hreplay state, hpart]
    simp
  · -- the markers make a history, which any row may follow
    rw [← List.append_assoc] at hauthored ⊢
    obtain ⟨mid, hauthored, -⟩ := authored_append.1 hauthored
    obtain ⟨mid', hmarkers⟩ := authored_absorbing (absorbing_markers hauthored hmarked') none
    exact ⟨none, last, authored_append.2 ⟨mid', hmarkers, .cons (hfollows mid') hrest⟩⟩

/-- Every revision a cut partition keeps rebuilds as before, and what it keeps is authored again. -/
theorem stands_partition (hk : Keyed s keep rows) (hd : Apart rows h.part) (hcut : cuts s keep rows h.part = true)
    (hroot : rooted s keep rows = true) {first last : Option (StoredRow R)}
    (hauthored : Authored first (entriesOf rows h.part) last) :
    Stands R (entriesOf rows h.part) (entriesOf (pruneHistory s keep rows) h.part) := by
  have hs : shielded s rows h = false := open_of_cuts hcut
  have hany : (past keep rows h.part).any (fun h => !erasedRow h) = true := by
    rw [cuts, ranked_open hd hs, List.drop_reverse, List.any_reverse] at hcut
    exact hcut
  have hold : oldest s keep rows h.part = _ := oldest_open hd hs
  rw [if_pos hany] at hold
  cases hfind : (newest keep rows h.part).find? fun h => !erasedRow h with
  | none =>
    refine stands_markers hk hd hs hauthored (hold.trans hfind) ?_
    intro y hy
    simpa using List.find?_eq_none.1 hfind y hy
  | some x =>
    rw [hfind] at hold
    obtain ⟨-, marked, rest, hnewest, hmarked⟩ := List.find?_eq_some_iff_append.1 hfind
    exact stands_anchored hk hd hs hroot hauthored hold hnewest fun y hy => by simpa using hmarked y hy

end Partition

end Norbital.Bolt.History

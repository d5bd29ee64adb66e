import Mathlib.Data.List.Chain
import Mathlib.Data.List.Dedup
import Mathlib.Data.List.Induction
import Mathlib.Data.List.Perm.Basic
import Norbital.Lib.Reduce

/-!
# Net changes

The net of a record's row events within one commit (`netRows`, `bolt/src/engine/write/capture.ts`),
and the net of a transaction's stages (`netChanges`, `bolt/src/engine/transactions.ts`).
-/

namespace Norbital.Bolt.Nets

open Norbital.Lib

variable {V : Type*}

inductive Op where
  | create
  | update
  | delete
  deriving DecidableEq, Repr

inductive Cause where
  | direct
  | cascade
  | derived
  | erased
  deriving DecidableEq, Repr

/-- `cause IN ('direct','erased')`. -/
def Cause.own : Cause → Bool
  | .direct | .erased => true
  | _ => false

/-- A model's name is an identifier. -/
structure Model where
  name : String
  plain : '/' ∉ name.toList
  deriving DecidableEq

/-- One row of `bolt_changes`; its place in the list is its `seq`. -/
structure Event (V : Type*) where
  model : Model
  id : String
  revision : ℕ
  cause : Cause
  erased : Bool
  o : Option V
  n : Option V
  deriving DecidableEq

structure Captured (V : Type*) where
  model : Model
  id : String
  op : Op
  revision : ℕ
  old : Option V
  new : Option V
  cause : Cause
  deriving DecidableEq

def Event.record (e : Event V) : Model × String := (e.model, e.id)

def Captured.record (row : Captured V) : Model × String := (row.model, row.id)

/-- Which of two events in turn stands first by `revision, seq`. -/
def Event.earlier (e f : Event V) : Event V := if f.revision < e.revision then f else e

/-- Which of two events in turn stands first by `revision DESC, seq DESC`. -/
def Event.later (e f : Event V) : Event V := if f.revision < e.revision then e else f

def earliest (events : List (Event V)) : Option (Event V) := reduce Event.earlier events

def latest (events : List (Event V)) : Option (Event V) := reduce Event.later events

def oldImage (events : List (Event V)) : Option V := (earliest events).bind Event.o

def newImage (events : List (Event V)) : Option V := (latest events).bind Event.n

def lastRevision (events : List (Event V)) : Option ℕ := (latest events).map Event.revision

def opOf (old new : Option V) : Op :=
  if old.isNone then .create else if new.isNone then .delete else .update

def causeOf (events : List (Event V)) : Cause :=
  if events.any (·.cause.own) then
    if events.all (·.erased) then .erased else .direct
  else if events.any (·.cause = .cascade) then .cascade else .derived

/-- The net of one record's events: nothing where it neither was nor is. -/
def net (events : List (Event V)) : Option (Captured V) :=
  match earliest events, latest events with
  | some first, some last =>
    if first.o.isSome || last.n.isSome then
      some ⟨last.model, last.id, opOf first.o last.n, last.revision, first.o, last.n, causeOf events⟩
    else none
  | _, _ => none

/-- The events of one record. -/
def slice (r : Model × String) (events : List (Event V)) : List (Event V) := events.filter (·.record = r)

def netRows (events : List (Event V)) : List (Captured V) :=
  (events.map Event.record).dedup.filterMap fun r => net (slice r events)

def key (model : Model) (id : String) : String := model.name ++ "/" ++ id

def Captured.merge (first row : Captured V) : Captured V :=
  { row with
    old := first.old
    op := opOf first.old row.new
    cause := if first.cause = .direct ∨ row.cause = .direct then .direct else row.cause }

def Captured.visible (row : Captured V) : Bool := row.old.isSome || row.new.isSome

def netChanges (captured : List (Captured V)) : List (Captured V) :=
  ((collect (fun row : Captured V => key row.model row.id) Captured.merge captured).map Prod.snd).filter Captured.visible

/-- A text up to its first separator. -/
theorem cut_inj {sep : Char} {xs ys us vs : List Char} (hx : sep ∉ xs) (hy : sep ∉ ys)
    (h : xs ++ sep :: us = ys ++ sep :: vs) : xs = ys ∧ us = vs := by
  induction xs generalizing ys with
  | nil =>
    cases ys with
    | nil => exact ⟨rfl, List.tail_eq_of_cons_eq h⟩
    | cons y ys => exact absurd (List.head_eq_of_cons_eq h ▸ List.mem_cons_self) hy
  | cons x xs ih =>
    cases ys with
    | nil => exact absurd (List.head_eq_of_cons_eq h ▸ List.mem_cons_self) hx
    | cons y ys =>
      obtain ⟨rfl, hu⟩ := ih (fun hm => hx (List.mem_cons_of_mem x hm)) (fun hm => hy (List.mem_cons_of_mem y hm))
        (List.tail_eq_of_cons_eq h)
      exact ⟨congrArg (· :: xs) (List.head_eq_of_cons_eq h), hu⟩

theorem key_inj {m m' : Model} {id id' : String} : key m id = key m' id' ↔ m = m' ∧ id = id' := by
  constructor
  · intro h
    have htext : m.name.toList ++ '/' :: id.toList = m'.name.toList ++ '/' :: id'.toList := by
      simpa [key] using congrArg String.toList h
    obtain ⟨hname, hid⟩ := cut_inj m.plain m'.plain htext
    obtain ⟨name, plain⟩ := m
    obtain ⟨name', plain'⟩ := m'
    have hname : name = name' := String.toList_injective hname
    subst hname
    exact ⟨rfl, String.toList_injective hid⟩
  · rintro ⟨rfl, rfl⟩
    rfl

instance : Std.Associative (@Event.earlier V) where
  assoc a b c := by
    simp only [Event.earlier]
    split_ifs <;> first | rfl | omega

instance : Std.Associative (@Event.later V) where
  assoc a b c := by
    simp only [Event.later]
    split_ifs <;> first | rfl | omega

instance : Std.Associative (@Captured.merge V) where
  assoc a b c := by
    simp only [Captured.merge, Captured.mk.injEq, true_and]
    split_ifs <;> simp_all

theorem earlier_choice (e f : Event V) : e.earlier f = e ∨ e.earlier f = f := by
  rw [Event.earlier]
  split
  · exact .inr rfl
  · exact .inl rfl

theorem later_choice (e f : Event V) : e.later f = e ∨ e.later f = f := by
  rw [Event.later]
  split
  · exact .inl rfl
  · exact .inr rfl

/-- The net of the events is a change. -/
def live (events : List (Event V)) : Bool := (oldImage events).isSome || (newImage events).isSome

theorem net_eq_none {events : List (Event V)} (h : live events = false) : net events = none := by
  rw [net]
  split
  · next first last hfirst hlast =>
    rw [live, oldImage, newImage, hfirst, hlast] at h
    rw [if_neg]
    simpa using h
  · rfl

/-- What a net says of the events. -/
structure IsNet (events : List (Event V)) (row : Captured V) : Prop where
  old : row.old = oldImage events
  new : row.new = newImage events
  op : row.op = opOf row.old row.new
  revision : some row.revision = lastRevision events
  cause : row.cause = causeOf events
  record : ∃ e ∈ events, row.record = e.record

theorem exists_net {events : List (Event V)} (h : live events = true) : ∃ row, net events = some row ∧ IsNet events row := by
  have hne : events ≠ [] := by
    rintro rfl
    cases h
  have hsome : earliest events ≠ none ∧ latest events ≠ none :=
    ⟨fun hn => hne (reduce_eq_none.mp hn), fun hn => hne (reduce_eq_none.mp hn)⟩
  obtain ⟨first, hfirst⟩ := Option.ne_none_iff_exists'.mp hsome.1
  obtain ⟨last, hlast⟩ := Option.ne_none_iff_exists'.mp hsome.2
  have hold : oldImage events = first.o := by rw [oldImage, hfirst, Option.bind_some]
  have hnew : newImage events = last.n := by rw [newImage, hlast, Option.bind_some]
  rw [live, hold, hnew] at h
  refine ⟨⟨last.model, last.id, opOf first.o last.n, last.revision, first.o, last.n, causeOf events⟩, ?_, ?_⟩
  · rw [net, hfirst, hlast]
    exact if_pos h
  · exact {
      old := hold.symm
      new := hnew.symm
      op := rfl
      revision := by rw [lastRevision, hlast, Option.map_some]
      cause := rfl
      record := ⟨last, mem_of_reduce later_choice hlast, rfl⟩ }

theorem IsNet.visible {events : List (Event V)} {row : Captured V} (h : IsNet events row) : row.visible = live events := by
  rw [Captured.visible, live, h.old, h.new]

/-- Rows that carry the op of their images merge to the first's old and the last's new image. -/
theorem reduce_merge {rows : List (Captured V)} {first last : Captured V}
    (hop : ∀ row ∈ rows, row.op = opOf row.old row.new) (hfirst : rows.head? = some first)
    (hlast : rows.getLast? = some last) :
    reduce Captured.merge rows = some { last with
      old := first.old
      op := opOf first.old last.new
      cause := if rows.any (·.cause = .direct) then .direct else last.cause } := by
  induction rows generalizing first with
  | nil => cases hfirst
  | cons row rows ih =>
    obtain rfl := Option.some.inj hfirst
    cases rows with
    | nil =>
      obtain rfl : row = last := Option.some.inj hlast
      rw [reduce_cons, reduce_nil, Option.merge_none_right, ← hop row List.mem_cons_self, List.any_cons, List.any_nil]
      by_cases hc : row.cause = .direct
      · rw [decide_eq_true hc, Bool.or_false, if_pos rfl, ← hc]
      · rw [decide_eq_false hc, Bool.or_false, if_neg Bool.false_ne_true]
    | cons row' rows =>
      rw [List.getLast?_cons_cons] at hlast
      have hrest := ih (fun r hr => hop r (List.mem_cons_of_mem row hr)) rfl hlast
      have hany : (row :: row' :: rows).any (·.cause = .direct) =
          (decide (row.cause = .direct) || (row' :: rows).any (·.cause = .direct)) := List.any_cons
      rw [reduce_cons, hrest, Option.merge_some_some, hany]
      refine congrArg some ?_
      simp only [Captured.merge, Captured.mk.injEq, true_and]
      by_cases hc : row.cause = .direct
      · rw [if_pos (.inl hc), decide_eq_true hc, Bool.true_or, if_pos rfl]
      · cases (row' :: rows).any (·.cause = .direct) with
        | true => simp
        | false => simp [hc, eq_comm]

theorem causeOf_eq_direct {g : List (Event V)} :
    causeOf g = .direct ↔ (∃ e ∈ g, e.cause.own = true) ∧ ∃ e ∈ g, e.erased = false := by
  rw [causeOf]
  split <;> split <;> simp_all

theorem causeOf_eq_erased {g : List (Event V)} :
    causeOf g = .erased ↔ (∃ e ∈ g, e.cause.own = true) ∧ ∀ e ∈ g, e.erased = true := by
  rw [causeOf]
  split <;> split <;> simp_all

theorem causeOf_eq_cascade {g : List (Event V)} :
    causeOf g = .cascade ↔ (∀ e ∈ g, e.cause.own = false) ∧ ∃ e ∈ g, e.cause = .cascade := by
  rw [causeOf]
  split <;> split <;> simp_all

theorem causeOf_eq_derived {g : List (Event V)} :
    causeOf g = .derived ↔ (∀ e ∈ g, e.cause.own = false) ∧ ∀ e ∈ g, e.cause ≠ .cascade := by
  rw [causeOf]
  split <;> split <;> simp_all

/-- The stages' nets give away no part of the cause: `b` holds the events of the last stage with a net. -/
structure CauseKept (gs : List (List (Event V))) (b : List (Event V)) : Prop where
  direct : (∃ e ∈ gs.flatten, e.cause.own = true) → (∃ e ∈ gs.flatten, e.erased = false) →
    ∃ g ∈ gs.filter live, (∃ e ∈ g, e.cause.own = true) ∧ ∃ e ∈ g, e.erased = false
  erased : (∃ e ∈ gs.flatten, e.cause.own = true) → (∀ e ∈ gs.flatten, e.erased = true) → ∃ e ∈ b, e.cause.own = true
  cascade : (∀ e ∈ gs.flatten, e.cause.own = false) → (∃ e ∈ gs.flatten, e.cause = .cascade) → ∃ e ∈ b, e.cause = .cascade

def mergedCause (gs : List (List (Event V))) (b : List (Event V)) : Cause :=
  if (gs.filter live).any (causeOf · = .direct) then .direct else causeOf b

theorem mergedCause_eq_direct {gs : List (List (Event V))} {b : List (Event V)} (hb : b ∈ gs.filter live) :
    mergedCause gs b = .direct ↔ ∃ g ∈ gs.filter live, causeOf g = .direct := by
  rw [mergedCause]
  split
  · next h =>
    obtain ⟨g, hg, hc⟩ := List.any_eq_true.mp h
    exact iff_of_true rfl ⟨g, hg, of_decide_eq_true hc⟩
  · next h =>
    refine ⟨fun hc => ⟨b, hb, hc⟩, fun ⟨g, hg, hc⟩ => absurd ?_ h⟩
    exact List.any_eq_true.mpr ⟨g, hg, decide_eq_true hc⟩

theorem mergedCause_iff {gs : List (List (Event V))} {b : List (Event V)} (hb : b ∈ gs.filter live) :
    mergedCause gs b = causeOf gs.flatten ↔ CauseKept gs b := by
  have hbg : ∀ e ∈ b, e ∈ gs.flatten := fun e he => List.mem_flatten_of_mem (List.mem_of_mem_filter hb) he
  -- a live stage is part of the whole, so what holds of all its events holds of the stage's
  have hlive : ∀ g ∈ gs.filter live, ∀ e ∈ g, e ∈ gs.flatten :=
    fun g hg e he => List.mem_flatten_of_mem (List.mem_of_mem_filter hg) he
  have hother (hd : ∀ g ∈ gs.filter live, causeOf g ≠ .direct) : mergedCause gs b = causeOf b := by
    rw [mergedCause, if_neg]
    simpa using hd
  by_cases hown : ∃ e ∈ gs.flatten, e.cause.own = true
  · by_cases her : ∃ e ∈ gs.flatten, e.erased = false
    · rw [causeOf_eq_direct.mpr ⟨hown, her⟩, mergedCause_eq_direct hb]
      simp only [causeOf_eq_direct]
      refine ⟨fun h => ⟨fun _ _ => h, fun _ hall => ?_, fun hno => ?_⟩, fun h => h.direct hown her⟩
      · obtain ⟨e, he, hf⟩ := her
        rw [hall e he] at hf
        cases hf
      · obtain ⟨e, he, ht⟩ := hown
        rw [hno e he] at ht
        cases ht
    · have hall : ∀ e ∈ gs.flatten, e.erased = true := by simpa using her
      rw [causeOf_eq_erased.mpr ⟨hown, hall⟩, hother fun g hg hd => ?_, causeOf_eq_erased]
      · refine ⟨fun h => ⟨fun _ hf => absurd hf her, fun _ _ => h.1, fun hno => ?_⟩, fun h => ⟨h.erased hown hall, ?_⟩⟩
        · obtain ⟨e, he, ht⟩ := hown
          rw [hno e he] at ht
          cases ht
        · exact fun e he => hall e (hbg e he)
      · obtain ⟨e, he, hf⟩ := (causeOf_eq_direct.mp hd).2
        exact her ⟨e, hlive g hg e he, hf⟩
  · have hno : ∀ e ∈ gs.flatten, e.cause.own = false := by simpa using hown
    rw [hother fun g hg hd => ?_]
    · by_cases hc : ∃ e ∈ gs.flatten, e.cause = .cascade
      · rw [causeOf_eq_cascade.mpr ⟨hno, hc⟩, causeOf_eq_cascade]
        exact ⟨fun h => ⟨fun ho => absurd ho hown, fun ho => absurd ho hown, fun _ _ => h.2⟩,
          fun h => ⟨fun e he => hno e (hbg e he), h.cascade hno hc⟩⟩
      · have hnc : ∀ e ∈ gs.flatten, e.cause ≠ .cascade := fun e he hec => hc ⟨e, he, hec⟩
        rw [causeOf_eq_derived.mpr ⟨hno, hnc⟩, causeOf_eq_derived]
        exact ⟨fun _ => ⟨fun ho => absurd ho hown, fun ho => absurd ho hown, fun _ h => absurd h hc⟩,
          fun _ => ⟨fun e he => hno e (hbg e he), fun e he => hnc e (hbg e he)⟩⟩
    · obtain ⟨e, he, ho⟩ := (causeOf_eq_direct.mp hd).1
      exact hown ⟨e, hlive g hg e he, ho⟩

/--
Where the record's stages have a net at all, the first and the last of those with one
give the images of the whole; unless the record neither was nor is, the last also its
revision, and they keep the cause.
-/
def Coherent (gs : List (List (Event V))) : Prop :=
  ∀ a ∈ (gs.filter live).head?, ∀ b ∈ (gs.filter live).getLast?,
    oldImage gs.flatten = oldImage a ∧ newImage gs.flatten = newImage b ∧
      (oldImage a = none ∧ newImage b = none ∨ lastRevision gs.flatten = lastRevision b ∧ CauseKept gs b)

theorem live_eq_false {g : List (Event V)} : live g = false ↔ oldImage g = none ∧ newImage g = none := by
  simp [live]

/-- Stages without a net make a whole without one. -/
theorem live_flatten_eq_false {gs : List (List (Event V))} (h : ∀ g ∈ gs, live g = false) : live gs.flatten = false := by
  rw [live_eq_false]
  constructor
  · cases he : earliest gs.flatten with
    | none => rw [oldImage, he, Option.bind_none]
    | some e =>
      obtain ⟨g, hg, hge⟩ := reduce_flatten_choice earlier_choice he
      have hnone := (live_eq_false.mp (h g hg)).1
      rw [oldImage, earliest, hge] at hnone
      rw [oldImage, he]
      exact hnone
  · cases he : latest gs.flatten with
    | none => rw [newImage, he, Option.bind_none]
    | some e =>
      obtain ⟨g, hg, hge⟩ := reduce_flatten_choice later_choice he
      have hnone := (live_eq_false.mp (h g hg)).2
      rw [newImage, latest, hge] at hnone
      rw [newImage, he]
      exact hnone

theorem filterMap_net_live (gs : List (List (Event V))) : gs.filterMap net = (gs.filter live).filterMap net := by
  rw [List.filterMap_filter]
  refine List.filterMap_congr fun g _ => ?_
  cases hg : live g with
  | true => rfl
  | false => exact net_eq_none hg

theorem mem_netted {gs : List (List (Event V))} {row : Captured V} (h : row ∈ gs.filterMap net) :
    ∃ g ∈ gs.filter live, net g = some row ∧ IsNet g row := by
  obtain ⟨g, hg, hrow⟩ := List.mem_filterMap.mp h
  cases hlive : live g with
  | false =>
    rw [net_eq_none hlive] at hrow
    cases hrow
  | true =>
    obtain ⟨row', hrow', hnet⟩ := exists_net hlive
    obtain rfl := Option.some.inj (hrow.symm.trans hrow')
    exact ⟨g, List.mem_filter.mpr ⟨hg, hlive⟩, hrow, hnet⟩

/-- The stages' nets merged, by the first and the last stage that has one. -/
theorem reduce_netted {gs : List (List (Event V))} {a b : List (Event V)} (ha : (gs.filter live).head? = some a)
    (hb : (gs.filter live).getLast? = some b) :
    ∃ row, reduce Captured.merge (gs.filterMap net) = some row ∧ row.old = oldImage a ∧ row.new = newImage b ∧
      row.op = opOf row.old row.new ∧ some row.revision = lastRevision b ∧ row.cause = mergedCause gs b ∧
      ∃ e ∈ b, row.record = e.record := by
  have hlive : ∀ g ∈ gs.filter live, live g = true := fun g hg => (List.mem_filter.mp hg).2
  obtain ⟨first, hfirst, hfa⟩ := exists_net (hlive a (List.mem_of_mem_head? ha))
  obtain ⟨last, hlast, hlb⟩ := exists_net (hlive b (List.mem_of_mem_getLast? hb))
  have hhead : (gs.filterMap net).head? = some first := by
    obtain ⟨rest, hrest⟩ := List.head?_eq_some_iff.mp ha
    rw [filterMap_net_live, hrest, List.filterMap_cons, hfirst]
    rfl
  have hlast' : (gs.filterMap net).getLast? = some last := by
    obtain ⟨rest, hrest⟩ := List.getLast?_eq_some_iff.mp hb
    rw [filterMap_net_live, hrest, List.filterMap_append, List.filterMap_cons, hlast]
    exact List.getLast?_concat
  have hop : ∀ row ∈ gs.filterMap net, row.op = opOf row.old row.new := by
    intro row hrow
    obtain ⟨g, -, -, hg⟩ := mem_netted hrow
    exact hg.op
  have hany : (gs.filterMap net).any (·.cause = .direct) = (gs.filter live).any (causeOf · = .direct) := by
    rw [Bool.eq_iff_iff, List.any_eq_true, List.any_eq_true]
    constructor
    · rintro ⟨row, hrow, hc⟩
      obtain ⟨g, hg, -, hnet⟩ := mem_netted hrow
      exact ⟨g, hg, hnet.cause ▸ hc⟩
    · rintro ⟨g, hg, hc⟩
      obtain ⟨row, hrow, hnet⟩ := exists_net (hlive g hg)
      exact ⟨row, List.mem_filterMap.mpr ⟨g, List.mem_of_mem_filter hg, hrow⟩, hnet.cause.symm ▸ hc⟩
  refine ⟨_, reduce_merge hop hhead hlast', hfa.old, hlb.new, rfl, hlb.revision, ?_, hlb.record⟩
  show (if (gs.filterMap net).any (·.cause = .direct) then Cause.direct else last.cause) = mergedCause gs b
  rw [hany, hlb.cause, mergedCause]

theorem Captured.eq_of {row row' : Captured V} (hrecord : row.record = row'.record) (hop : row.op = opOf row.old row.new)
    (hop' : row'.op = opOf row'.old row'.new) (hrevision : row.revision = row'.revision) (hold : row.old = row'.old)
    (hnew : row.new = row'.new) (hcause : row.cause = row'.cause) : row = row' := by
  obtain ⟨model, id, op, revision, old, new, cause⟩ := row
  obtain ⟨model', id', op', revision', old', new', cause'⟩ := row'
  obtain ⟨rfl, rfl⟩ := Prod.mk.inj hrecord
  dsimp only at hop hop' hrevision hold hnew hcause
  subst hrevision hold hnew hcause hop hop'
  rfl

theorem netted_iff {r : Model × String} {gs : List (List (Event V))} (hr : ∀ g ∈ gs, ∀ e ∈ g, e.record = r) :
    (reduce Captured.merge (gs.filterMap net)).filter Captured.visible = net gs.flatten ↔ Coherent gs := by
  cases hlives : gs.filter live with
  | nil =>
    -- no stage has a net, and neither has the whole
    have hdead : ∀ g ∈ gs, live g = false := fun g hg => by simpa using List.filter_eq_nil_iff.mp hlives g hg
    rw [filterMap_net_live, hlives, net_eq_none (live_flatten_eq_false hdead)]
    refine iff_of_true rfl fun a ha => ?_
    rw [hlives] at ha
    cases ha
  | cons a rest =>
    have ha : (gs.filter live).head? = some a := by rw [hlives, List.head?_cons]
    obtain ⟨b, hb⟩ : ∃ b, (gs.filter live).getLast? = some b := by
      rw [hlives]
      exact ⟨_, List.getLast?_eq_some_getLast (List.cons_ne_nil a rest)⟩
    have hmem : b ∈ gs.filter live := List.mem_of_mem_getLast? hb
    obtain ⟨row, hrow, hold, hnew, hop, hrevision, hcause, e, he, hrecord⟩ := reduce_netted ha hb
    have hcoherent : Coherent gs ↔ oldImage gs.flatten = oldImage a ∧ newImage gs.flatten = newImage b ∧
        (oldImage a = none ∧ newImage b = none ∨ lastRevision gs.flatten = lastRevision b ∧ CauseKept gs b) := by
      rw [Coherent, ha, hb]
      simp
    have hvisible : row.visible = ((oldImage a).isSome || (newImage b).isSome) := by rw [Captured.visible, hold, hnew]
    rw [hrow, hcoherent, Option.filter_some]
    cases hwhole : live gs.flatten with
    | false =>
      obtain ⟨ho, hn⟩ := live_eq_false.mp hwhole
      rw [net_eq_none hwhole, ho, hn]
      constructor
      · intro h
        have hnone : oldImage a = none ∧ newImage b = none := by simpa [hvisible] using h
        exact ⟨hnone.1.symm, hnone.2.symm, .inl hnone⟩
      · rintro ⟨ha', hb', -⟩
        rw [hvisible, ← ha', ← hb']
        rfl
    | true =>
      obtain ⟨whole, hnet, hw⟩ := exists_net hwhole
      rw [hnet]
      constructor
      · intro h
        obtain rfl : row = whole := by
          split at h
          · exact Option.some.inj h
          · cases h
        refine ⟨hw.old.symm.trans hold, hw.new.symm.trans hnew, .inr ⟨hw.revision.symm.trans hrevision, ?_⟩⟩
        exact (mergedCause_iff hmem).mp (hcause.symm.trans hw.cause)
      · rintro ⟨ho, hn, himages⟩
        have hvis : row.visible = true := by
          rw [hvisible, ← ho, ← hn]
          exact hwhole
        rw [if_pos hvis]
        obtain ⟨hno, hnn⟩ | ⟨hlast, hkept⟩ := himages
        · rw [hvisible, hno, hnn] at hvis
          cases hvis
        · obtain ⟨e', he', hrecord'⟩ := hw.record
          obtain ⟨g', hg', he'⟩ := List.mem_flatten.mp he'
          have hsame : row.record = whole.record := by
            rw [hrecord, hrecord', hr b (List.mem_of_mem_filter hmem) e he, hr g' hg' e' he']
          refine congrArg some (Captured.eq_of hsame hop hw.op ?_ ?_ ?_ ?_)
          · exact Option.some.inj (hrevision.trans (hlast.symm.trans hw.revision.symm))
          · rw [hold, hw.old, ho]
          · rw [hnew, hw.new, hn]
          · rw [hcause, hw.cause]
            exact (mergedCause_iff hmem).mpr hkept

/-- Each event starts from the image the one before it left, at a higher revision. -/
structure Follows (events : List (Event V)) : Prop where
  linked : events.IsChain fun e f => e.n = f.o
  rising : events.Pairwise fun e f => e.revision < f.revision

theorem Follows.right {xs ys : List (Event V)} (h : Follows (xs ++ ys)) : Follows ys :=
  ⟨(List.isChain_append.mp h.linked).2.1, (List.pairwise_append.mp h.rising).2.1⟩

theorem Follows.left {xs ys : List (Event V)} (h : Follows (xs ++ ys)) : Follows xs :=
  ⟨(List.isChain_append.mp h.linked).1, (List.pairwise_append.mp h.rising).1⟩

theorem earliest_of_rising {events : List (Event V)} (h : events.Pairwise fun e f => e.revision < f.revision) :
    earliest events = events.head? := by
  induction events with
  | nil => rfl
  | cons e events ih =>
    obtain ⟨hall, hrest⟩ := List.pairwise_cons.mp h
    rw [earliest, reduce_cons, ← earliest, ih hrest]
    cases events with
    | nil => rfl
    | cons f events =>
      have hlt := hall f List.mem_cons_self
      show some (e.earlier f) = some e
      rw [Event.earlier, if_neg (by omega)]

theorem latest_of_rising {events : List (Event V)} (h : events.Pairwise fun e f => e.revision < f.revision) :
    latest events = events.getLast? := by
  induction events with
  | nil => rfl
  | cons e events ih =>
    obtain ⟨hall, hrest⟩ := List.pairwise_cons.mp h
    rw [latest, reduce_cons, ← latest, ih hrest]
    cases hlast : events.getLast? with
    | none =>
      rw [List.getLast?_eq_none_iff.mp hlast]
      rfl
    | some f =>
      have hlt := hall f (List.mem_of_mem_getLast? hlast)
      rw [Option.merge_some_some, Event.later, if_neg (by omega), List.getLast?_cons, hlast]
      rfl

theorem Follows.oldImage_eq {events : List (Event V)} (h : Follows events) : oldImage events = events.head?.bind Event.o := by
  rw [oldImage, earliest_of_rising h.rising]

theorem Follows.newImage_eq {events : List (Event V)} (h : Follows events) :
    newImage events = events.getLast?.bind Event.n := by
  rw [newImage, latest_of_rising h.rising]

/-- What the events before leave is where the events after start. -/
theorem Follows.newImage_eq_oldImage {xs ys : List (Event V)} (h : Follows (xs ++ ys)) (hx : xs ≠ []) (hy : ys ≠ []) :
    newImage xs = oldImage ys := by
  obtain ⟨e, he⟩ : ∃ e, xs.getLast? = some e := ⟨_, List.getLast?_eq_some_getLast hx⟩
  obtain ⟨f, hf⟩ : ∃ f, ys.head? = some f := ⟨_, List.head?_eq_some_head hy⟩
  rw [h.left.newImage_eq, h.right.oldImage_eq, he, hf]
  exact (List.isChain_append.mp h.linked).2.2 e he f hf

theorem Follows.oldImage_append {xs ys : List (Event V)} (h : Follows (xs ++ ys)) (hx : xs ≠ []) :
    oldImage (xs ++ ys) = oldImage xs := by
  rw [h.oldImage_eq, h.left.oldImage_eq, List.head?_append_of_ne_nil _ hx]

theorem Follows.newImage_append {xs ys : List (Event V)} (h : Follows (xs ++ ys)) (hy : ys ≠ []) :
    newImage (xs ++ ys) = newImage ys := by
  rw [h.newImage_eq, h.right.newImage_eq, List.getLast?_append_of_ne_nil _ hy]

theorem ne_nil_of_live {g : List (Event V)} (h : live g = true) : g ≠ [] := by
  rintro rfl
  cases h

/-- The record was, before the first stage with a net, what that stage found. -/
theorem Follows.oldImage_flatten {gs : List (List (Event V))} (h : Follows gs.flatten) {a : List (Event V)}
    (ha : (gs.filter live).head? = some a) : oldImage gs.flatten = oldImage a := by
  induction gs with
  | nil => cases ha
  | cons g gs ih =>
    rw [List.flatten_cons] at h ⊢
    cases hg : live g with
    | true =>
      rw [List.filter_cons_of_pos hg] at ha
      obtain rfl := Option.some.inj ha
      exact h.oldImage_append (ne_nil_of_live hg)
    | false =>
      rw [List.filter_cons_of_neg (by simp [hg])] at ha
      have hrest := ih h.right ha
      by_cases hnil : g = []
      · rw [hnil, List.nil_append]
        exact hrest
      · have hmem := List.mem_filter.mp (List.mem_of_mem_head? ha)
        have hne : gs.flatten ≠ [] := fun hn => ne_nil_of_live hmem.2 (List.flatten_eq_nil_iff.mp hn a hmem.1)
        obtain ⟨hold, hnew⟩ := live_eq_false.mp hg
        rw [h.oldImage_append hnil, hold, ← hrest, ← h.newImage_eq_oldImage hnil hne, hnew]

theorem Follows.newImage_flatten {gs : List (List (Event V))} (h : Follows gs.flatten) {b : List (Event V)}
    (hb : (gs.filter live).getLast? = some b) : newImage gs.flatten = newImage b := by
  induction gs using List.reverseRecOn with
  | nil => cases hb
  | append_singleton gs g ih =>
    rw [List.flatten_append, List.flatten_singleton] at h ⊢
    rw [List.filter_append] at hb
    cases hg : live g with
    | true =>
      rw [List.filter_singleton, hg, cond_true, List.getLast?_concat] at hb
      obtain rfl := Option.some.inj hb
      exact h.newImage_append (ne_nil_of_live hg)
    | false =>
      rw [List.filter_singleton, hg, cond_false, List.append_nil] at hb
      have hrest := ih h.left hb
      by_cases hnil : g = []
      · rw [hnil, List.append_nil]
        exact hrest
      · have hmem := List.mem_filter.mp (List.mem_of_mem_getLast? hb)
        have hne : gs.flatten ≠ [] := fun hn => ne_nil_of_live hmem.2 (List.flatten_eq_nil_iff.mp hn b hmem.1)
        obtain ⟨hold, hnew⟩ := live_eq_false.mp hg
        rw [h.newImage_append hnil, hnew, ← hrest, h.newImage_eq_oldImage hne hnil, hold]

/-- Where a record's events follow one another, the images always agree: only the revision and the cause can be lost. -/
theorem Follows.coherent_iff {gs : List (List (Event V))} (h : Follows gs.flatten) :
    Coherent gs ↔ ∀ b ∈ (gs.filter live).getLast?, live gs.flatten = true →
      lastRevision gs.flatten = lastRevision b ∧ CauseKept gs b := by
  constructor
  · intro hc b hb hlive
    obtain ⟨a, ha⟩ : ∃ a, (gs.filter live).head? = some a :=
      ⟨_, List.head?_eq_some_head (List.ne_nil_of_mem (List.mem_of_mem_getLast? hb))⟩
    obtain ⟨hold, hnew, ⟨ho, hn⟩ | hkept⟩ := hc a ha b hb
    · rw [live, hold, hnew, ho, hn] at hlive
      cases hlive
    · exact hkept
  · intro hc a ha b hb
    refine ⟨h.oldImage_flatten ha, h.newImage_flatten hb, ?_⟩
    cases hlive : live gs.flatten with
    | true => exact .inr (hc b hb hlive)
    | false =>
      obtain ⟨ho, hn⟩ := live_eq_false.mp hlive
      exact .inl ⟨h.oldImage_flatten ha ▸ ho, h.newImage_flatten hb ▸ hn⟩

theorem record_of_mem_slice {r : Model × String} {events : List (Event V)} {e : Event V} (h : e ∈ slice r events) :
    e.record = r := of_decide_eq_true (List.mem_filter.mp h).2

theorem record_of_net {r : Model × String} {events : List (Event V)} {row : Captured V}
    (h : net (slice r events) = some row) : row.record = r := by
  cases hlive : live (slice r events) with
  | false =>
    rw [net_eq_none hlive] at h
    cases h
  | true =>
    obtain ⟨row', hrow', hnet⟩ := exists_net hlive
    obtain rfl := Option.some.inj (h.symm.trans hrow')
    obtain ⟨e, he, hrecord⟩ := hnet.record
    exact hrecord.trans (record_of_mem_slice he)

theorem mem_netRows {events : List (Event V)} {row : Captured V} :
    row ∈ netRows events ↔ net (slice row.record events) = some row := by
  rw [netRows, List.mem_filterMap]
  constructor
  · rintro ⟨r, -, h⟩
    rwa [record_of_net h]
  · intro h
    refine ⟨row.record, ?_, h⟩
    rw [List.mem_dedup, List.mem_map]
    by_contra hno
    have hempty : slice row.record events = [] :=
      List.filter_eq_nil_iff.mpr fun e he hr => hno ⟨e, he, of_decide_eq_true hr⟩
    rw [hempty] at h
    cases h

theorem nodup_netRows (events : List (Event V)) : (netRows events).Nodup := by
  refine List.Nodup.filterMap ?_ (List.nodup_dedup _)
  intro r r' row hrow hrow'
  exact (record_of_net hrow).symm.trans (record_of_net hrow')

/-- A stage nets each record by its own events. -/
theorem filter_netRows (r : Model × String) (events : List (Event V)) :
    (netRows events).filter (·.record = r) = (net (slice r events)).toList := by
  have hperm : ((netRows events).filter (·.record = r)).Perm (net (slice r events)).toList := by
    have hone : (net (slice r events)).toList.Nodup := by cases net (slice r events) <;> simp
    rw [List.perm_ext_iff_of_nodup ((nodup_netRows events).filter _) hone]
    intro row
    rw [List.mem_filter, mem_netRows, decide_eq_true_iff, Option.mem_toList]
    constructor
    · rintro ⟨h, rfl⟩
      exact h
    · intro h
      obtain rfl := record_of_net h
      exact ⟨h, rfl⟩
  cases hnet : net (slice r events) with
  | none =>
    rw [hnet] at hperm
    exact List.perm_nil.mp hperm
  | some row =>
    rw [hnet] at hperm
    exact List.perm_singleton.mp hperm

theorem filter_stages (r : Model × String) (stages : List (List (Event V))) :
    (stages.flatMap netRows).filter (·.record = r) = (stages.map (slice r)).filterMap net := by
  induction stages with
  | nil => rfl
  | cons stage stages ih =>
    rw [List.flatMap_cons, List.filter_append, ih, filter_netRows, List.map_cons, List.filterMap_cons]
    cases net (slice r stage) <;> rfl

theorem slice_flatten (r : Model × String) (stages : List (List (Event V))) :
    slice r stages.flatten = (stages.map (slice r)).flatten := List.filter_flatten

theorem record_of_reduce {rows : List (Captured V)} {row : Captured V} (h : reduce Captured.merge rows = some row) :
    ∃ row' ∈ rows, row.record = row'.record := by
  induction rows generalizing row with
  | nil => cases h
  | cons first rows ih =>
    rw [reduce_cons] at h
    cases hrest : reduce Captured.merge rows with
    | none =>
      rw [hrest] at h
      exact ⟨first, List.mem_cons_self, congrArg Captured.record (Option.some.inj h).symm⟩
    | some last =>
      obtain ⟨row', hmem, hrecord⟩ := ih hrest
      rw [hrest] at h
      exact ⟨row', List.mem_cons_of_mem first hmem, (congrArg Captured.record (Option.some.inj h).symm).trans hrecord⟩

/-- The entries of `rows`, keyed by their own rows. -/
theorem collect_key {captured : List (Captured V)} {e : String × Captured V}
    (h : e ∈ collect (fun row : Captured V => key row.model row.id) Captured.merge captured) : e.1 = key e.2.model e.2.id := by
  obtain ⟨row', hmem, hrecord⟩ := record_of_reduce (mem_collect.mp h)
  have hkey : key row'.model row'.id = e.1 := eq_of_beq (List.mem_filter.mp hmem).2
  obtain ⟨hm, hid⟩ := Prod.mk.inj hrecord
  rw [← hkey, hm, hid]

theorem mem_netChanges {captured : List (Captured V)} {row : Captured V} :
    row ∈ netChanges captured ↔
      (reduce Captured.merge (captured.filter (·.record = row.record))).filter Captured.visible = some row := by
  have hfilter : captured.filter (fun row' => key row'.model row'.id == key row.model row.id) =
      captured.filter (·.record = row.record) := by
    refine List.filter_congr fun row' _ => ?_
    rw [Bool.eq_iff_iff, beq_iff_eq, decide_eq_true_iff, key_inj, Captured.record, Captured.record, Prod.mk.injEq]
  rw [netChanges, List.mem_filter, List.mem_map, Option.filter_eq_some_iff, ← hfilter]
  constructor
  · rintro ⟨⟨⟨k, row'⟩, hmem, rfl⟩, hvisible⟩
    obtain rfl : k = key row'.model row'.id := collect_key hmem
    exact ⟨mem_collect.mp hmem, hvisible⟩
  · rintro ⟨h, hvisible⟩
    exact ⟨⟨(key row.model row.id, row), mem_collect.mpr h, rfl⟩, hvisible⟩

theorem nodup_netChanges (captured : List (Captured V)) : (netChanges captured).Nodup := by
  refine List.Nodup.filter _ (List.Nodup.of_map (fun row : Captured V => key row.model row.id) ?_)
  have hkeys : ((collect (fun row : Captured V => key row.model row.id) Captured.merge captured).map Prod.fst).Nodup :=
    nodup_collect captured
  rw [List.map_map]
  rwa [List.map_congr_left fun e he => collect_key he] at hkeys

/--
The net of a transaction's stages is the net of all its events exactly where the stages
of each record are coherent.
-/
theorem netChanges_iff (stages : List (List (Event V))) :
    (netChanges (stages.flatMap netRows)).Perm (netRows stages.flatten) ↔ ∀ r, Coherent (stages.map (slice r)) := by
  have hstages (r : Model × String) : (stages.map (slice r)).flatten = slice r stages.flatten := (slice_flatten r stages).symm
  have hiff (r : Model × String) : (reduce Captured.merge ((stages.flatMap netRows).filter (·.record = r))).filter Captured.visible =
      net (slice r stages.flatten) ↔ Coherent (stages.map (slice r)) := by
    rw [filter_stages, ← hstages r]
    refine netted_iff (r := r) fun g hg e he => ?_
    obtain ⟨stage, -, rfl⟩ := List.mem_map.mp hg
    exact record_of_mem_slice he
  rw [List.perm_ext_iff_of_nodup (nodup_netChanges _) (nodup_netRows _)]
  simp only [mem_netChanges, mem_netRows]
  constructor
  · intro h r
    rw [← hiff r]
    refine Option.ext fun row => ⟨fun hrow => ?_, fun hrow => ?_⟩
    · obtain ⟨row', hmem, hrecord⟩ := record_of_reduce (Option.filter_eq_some_iff.mp hrow).1
      obtain rfl : row.record = r := hrecord.trans (of_decide_eq_true (List.mem_filter.mp hmem).2)
      exact (h row).mp hrow
    · obtain rfl := record_of_net hrow
      exact (h row).mpr hrow
  · intro h row
    rw [(hiff row.record).mpr (h row.record)]

/-- An order loses a reference by a delete in one stage, and its total moves in the next. -/
def unlinked : List (List (Event String)) :=
  let order : Model := ⟨"order", by decide⟩
  [[⟨order, "o1", 2, .cascade, false, some "linked", some "unlinked"⟩],
   [⟨order, "o1", 3, .derived, false, some "unlinked", some "total moved"⟩]]

theorem unlinked_derived : ¬ ∀ stages : List (List (Event String)),
    (netChanges (stages.flatMap netRows)).Perm (netRows stages.flatten) := by
  intro h
  have hperm := h unlinked
  revert hperm
  decide

end Norbital.Bolt.Nets

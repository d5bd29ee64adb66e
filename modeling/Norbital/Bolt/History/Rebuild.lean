import Mathlib.Algebra.GroupWithZero.Nat
import Norbital.Bolt.History.Audit
import Norbital.Lib.Entries
import Norbital.Lib.KeyOrder

/-!
# History replays the record

Every revision of a run rebuilds to the row that was stored when it was written.
Three conditions are asked of the run: a creation takes a revision above the
record's earlier ones, no release gives two of its names the identity of one
prior name, and no update stores another form of a value that jsonb takes for the
same.
-/

namespace Norbital.Bolt.History

open Maps KeyOrder Lib

/-- The version a table is registered under: its names and its identities are
distinct, and `next` is above them. -/
structure Version.Registered (v : Version) (next : Nat) : Prop where
  names : v.fields.map Prod.fst = v.kinds.map Prod.fst
  nodup : (v.kinds.map Prod.fst).Nodup
  ids : (v.fields.map Prod.snd).Nodup
  below : ∀ p ∈ v.fields, p.2 < next

theorem Version.Registered.distinct {v : Version} {next : Nat} (h : v.Registered next) :
    v.Distinct := by
  have hfield : ∀ name ∈ v.kinds.map Prod.fst, ∃ id, v.fields.lookup name = some id := by
    intro name hname
    rw [← h.names] at hname
    apply Option.isSome_iff_exists.1
    simpa using hname
  constructor
  · have hmap : (v.kinds.map fun p => v.identity p.1) = (v.kinds.map Prod.fst).map v.identity := by
      rw [List.map_map]
      rfl
    rw [hmap]
    refine List.Nodup.map_on ?_ h.nodup
    intro a ha b hb heq
    obtain ⟨x, hx⟩ := hfield a ha
    obtain ⟨y, hy⟩ := hfield b hb
    simp only [Version.identity, hx, hy, Identity.field.injEq] at heq
    subst heq
    exact congrArg Prod.fst
      (List.inj_on_of_nodup_map h.ids (mem_of_lookup hx) (mem_of_lookup hy) rfl)
  · intro p hp
    obtain ⟨id, hid⟩ := hfield p.1 (List.mem_map_of_mem hp)
    exact ⟨id, by simp [Version.identity, hid]⟩

/-- Whether no two names of a definition take one prior name's identity. -/
def distinctNames (held : Version) (definition : List FieldDef) : Prop :=
  definition.Pairwise fun f g =>
    oldName held f ≠ oldName held g ∨ oldName held f ∉ held.fields.map Prod.fst

instance (held : Version) (definition : List FieldDef) :
    Decidable (distinctNames held definition) :=
  inferInstanceAs (Decidable (List.Pairwise _ _))

theorem identities_names (held : Version) (definition : List FieldDef) (next : Nat) :
    (identities held definition next).map Prod.fst = definition.map (·.name) := by
  induction definition generalizing next with
  | nil => rfl
  | cons f definition ih => simp [identities, ih]

/-- An identity of a definition is a prior name's or a new one. -/
theorem mem_identities {held : Version} {definition : List FieldDef} {next : Nat}
    {p : String × Nat} (h : p ∈ identities held definition next) :
    (∃ f ∈ definition, held.fields.lookup (oldName held f) = some p.2) ∨
      next ≤ p.2 ∧ p.2 < next + definition.length := by
  induction definition generalizing next with
  | nil => cases h
  | cons f definition ih =>
    rcases List.mem_cons.1 h with rfl | h
    · cases hlook : held.fields.lookup (oldName held f) with
      | some id => exact .inl ⟨f, List.mem_cons_self, by simp [hlook]⟩
      | none => exact .inr (by simp)
    · rcases ih h with ⟨g, hg, hlook⟩ | ⟨hle, hlt⟩
      · exact .inl ⟨g, List.mem_cons_of_mem f hg, hlook⟩
      · refine .inr ⟨by omega, ?_⟩
        simp only [List.length_cons]
        omega

theorem identities_nodup {held : Version} {bound : Nat} (h : held.Registered bound)
    {definition : List FieldDef} {next : Nat} (hnext : bound ≤ next)
    (hnames : distinctNames held definition) :
    ((identities held definition next).map Prod.snd).Nodup := by
  induction definition generalizing next with
  | nil => exact List.nodup_nil
  | cons f definition ih =>
    obtain ⟨hf, hnames⟩ := List.pairwise_cons.1 hnames
    rw [identities, List.map_cons, List.nodup_cons]
    refine ⟨?_, ih (by omega) hnames⟩
    intro hmem
    obtain ⟨p, hp, hid⟩ := List.mem_map.1 hmem
    have hprior : ∀ name id, held.fields.lookup name = some id → id < next := fun name id hlook =>
      Nat.lt_of_lt_of_le (h.below _ (mem_of_lookup hlook)) hnext
    cases hlook : held.fields.lookup (oldName held f) with
    | none =>
      simp only [hlook, Option.getD_none] at hid
      rcases mem_identities hp with ⟨g, -, hg⟩ | ⟨hle, -⟩
      · have := hprior _ _ hg
        omega
      · omega
    | some id =>
      simp only [hlook, Option.getD_some] at hid
      have hlt := hprior _ _ hlook
      rcases mem_identities hp with ⟨g, hg, hglook⟩ | ⟨hle, -⟩
      · -- one prior identity under two prior names
        rw [hid] at hglook
        have hsame : (oldName held f, id) = (oldName held g, id) :=
          List.inj_on_of_nodup_map h.ids (mem_of_lookup hlook) (mem_of_lookup hglook) rfl
        rcases hf g hg with hne | hgone
        · exact hne (congrArg Prod.fst hsame)
        · exact hgone (List.mem_map_of_mem (mem_of_lookup hlook))
      · omega

theorem register_registered {held : Version} {next : Nat} (h : held.Registered next)
    {definition : List FieldDef} (hnd : (definition.map (·.name)).Nodup)
    (hnames : distinctNames held definition) :
    (register held definition next).Registered (next + 1 + definition.length) where
  names := by
    rw [register, identities_names, List.map_map]
    rfl
  nodup := by
    rw [register, List.map_map]
    exact hnd
  ids := identities_nodup h (by omega) hnames
  below p hp := by
    rcases mem_identities hp with ⟨f, -, hlook⟩ | ⟨-, hlt⟩
    · have := h.below _ (mem_of_lookup hlook)
      omega
    · exact hlt

variable {V : Type*} [DecidableEq V] {R : Reading V}

/-- Two states with the same values in every column that is no system one. -/
def Agrees (s t : State V) : Prop := ∀ i, (∀ c ∈ systemColumns, i ≠ .legacy c) → s i = t i

theorem replay_apply (state : State V) {e : Entry V} (hop : e.op ≠ .delete) {i : Identity}
    (hi : ∀ c ∈ systemColumns, i ≠ .legacy c) : replay R state e i =
      (historyChanges R e.version e.changes i).or (if e.resets then none else state i) := by
  have hsystem : systemChanges e i = none := by
    cases i with
    | field id => rfl
    | legacy c => simp [systemChanges, show c ∉ systemColumns from fun h => hi c h rfl]
  rw [replay, if_neg hop, layOver_apply, layOver_apply, hsystem, Option.none_or]
  cases e.resets <;> rfl

section Audit

variable {t : Table V} {cause : Cause} {old values : String → V} {state : State V}

/-- A revision recorded whole replays to its row, over any state that holds no
other column. -/
theorem replay_whole {e : Entry V} (hop : e.op ≠ .delete) (hversion : e.version = some t.version)
    (hchanges : e.changes = kept (image t.columns values))
    (hstate : e.resets = false → ∀ i, (∀ c ∈ systemColumns, i ≠ .legacy c) →
      (historyChanges R (some t.version) (kept (image t.columns values)) i).or (state i) =
        historyChanges R (some t.version) (kept (image t.columns values)) i) :
    Agrees (replay R state e)
      (decoded R (some t.version) (some (kept (image t.columns values)))) := by
  intro i hi
  rw [replay_apply state hop hi, hversion, hchanges, decoded]
  cases hr : e.resets with
  | true => simp
  | false => exact hstate hr i hi

theorem replay_create (revision : Nat) :
    Agrees (replay R state (audit R t .create cause false (fun _ => none)
        (image t.columns values) revision))
      (decoded R (some t.version) (some (kept (image t.columns values)))) := by
  refine replay_whole (by simp [audit]) rfl (by simp [audit]) ?_
  intro hr
  simp [Entry.resets, audit] at hr

/-- An update of a record whose state is known replays to its new row: a snapshot
or an erasure is whole, any other update is its difference. -/
theorem replay_update {erased : Bool} (hv : t.version.Distinct)
    (hformed : wellFormed t.version t.columns = true) (hold : exclusive R t.version old = true)
    (hnew : exclusive R t.version values = true) (herased : cause = .erased → erased = true)
    (htold : t.unseen = false → erased = false → telling R t.columns old values = true)
    (hstate : t.unseen = false → Agrees state
      (decoded R (some t.version) (some (kept (image t.columns old))))) (revision : Nat) :
    Agrees (replay R state (audit R t .update cause erased (image t.columns old)
        (image t.columns values) revision))
      (decoded R (some t.version) (some (kept (image t.columns values)))) := by
  have hdiff := fun i hi => historyChanges_moved (i := i) hv hformed hold hnew hi
  cases hunseen : t.unseen with
  | true =>
    refine replay_whole (by simp [audit]) rfl (by simp [audit, hunseen]) ?_
    intro hr
    simp [Entry.resets, audit, hunseen] at hr
  | false =>
    have hstate := hstate hunseen
    cases erased with
    | true =>
      refine replay_whole (by simp [audit]) rfl (by simp [audit]) ?_
      intro _ i hi
      rw [hstate i hi, decoded, hdiff i hi, Option.or_assoc, Option.or_self]
    | false =>
      have hcause : cause ≠ .erased := fun h => by simpa using herased h
      intro i hi
      have hr : (audit R t .update cause false (image t.columns old)
          (image t.columns values) revision).resets = false := by
        simp [Entry.resets, audit, hunseen, hcause]
      rw [replay_apply state (by simp [audit]) hi, hr, decoded, hdiff i hi]
      simp only [Bool.false_eq_true, if_false]
      rw [hstate i hi]
      simp [audit, hunseen, decoded, difference_eq_moved (htold hunseen rfl)]

theorem replay_delete (revision : Nat) :
    Agrees (replay R state (audit R t .delete cause false (image t.columns old) (fun _ => none)
        revision)) (decoded R (some t.version) none) := by
  intro i hi
  simp [replay, audit, decoded]

end Audit

/-- The state after the whole of a log. -/
def replayed (R : Reading V) (log : List (Written V)) : State V :=
  (log.map (·.entry)).foldl (replay R) fun _ => none

/-- What a run keeps of a table and its record. -/
structure Sound (R : Reading V) (t : Table V) : Prop where
  registered : t.version.Registered t.next
  formed : wellFormed t.version t.columns = true
  arcs : ∀ p, t.live = some p → exclusive R t.version p.2 = true
  versions : ∀ w ∈ t.log, ∃ v, w.entry.version = some v ∧ v.id < t.next
  current : ∀ p, t.live = some p → t.unseen = false →
    Agrees (replayed R t.log) (decoded R (some t.version) (some (kept (image t.columns p.2))))
  past : ∀ before w after, t.log = before ++ w :: after →
    Agrees (replayed R (before ++ [w])) (decoded R w.entry.version w.stored)
  rising : t.log.Pairwise fun w w' => w.entry.revision < w'.entry.revision
  top : ∀ p, t.live = some p → ∀ w ∈ t.log, w.entry.revision ≤ p.1
  id_lt : t.version.id < t.next

/-- A write appended to the log. -/
theorem Sound.append {t : Table V} (h : Sound R t) {w : Written V} {live : Option (Nat × (String → V))}
    (hversion : w.entry.version = some t.version)
    (hrising : ∀ w' ∈ t.log, w'.entry.revision < w.entry.revision)
    (hlive : ∀ p, live = some p → exclusive R t.version p.2 = true ∧ w.entry.revision = p.1 ∧
      w.stored = some (kept (image t.columns p.2)))
    (hreplay : Agrees (replay R (replayed R t.log) w.entry) (decoded R (some t.version) w.stored)) :
    Sound R { t with live := live, log := t.log ++ [w] } := by
  have hwhole : Agrees (replayed R (t.log ++ [w])) (decoded R (some t.version) w.stored) := by
    simpa [replayed] using hreplay
  refine ⟨h.registered, h.formed, fun p hp => (hlive p hp).1, ?_, ?_, ?_, ?_, ?_, h.id_lt⟩
  · intro w' hw'
    rcases List.mem_append.1 hw' with hw' | hw'
    · exact h.versions w' hw'
    · obtain rfl := List.mem_singleton.1 hw'
      exact ⟨t.version, hversion, h.id_lt⟩
  · intro p hp _
    rw [← (hlive p hp).2.2]
    exact hwhole
  · intro before w' after heq
    -- the last write is the new one, any other is in the log as it was
    rcases List.eq_nil_or_concat after with rfl | ⟨after', w'', rfl⟩
    · obtain ⟨rfl, hw⟩ := List.append_inj' heq rfl
      obtain rfl : w = w' := by simpa using hw
      rw [hversion]
      exact hwhole
    · have heq' : t.log ++ [w] = (before ++ w' :: after') ++ [w''] := by simpa using heq
      exact h.past before w' after' (List.append_inj' heq' rfl).1
  · refine List.pairwise_append.2 ⟨h.rising, List.pairwise_singleton _ _, ?_⟩
    intro w' hw' w'' hw''
    obtain rfl := List.mem_singleton.1 hw''
    exact hrising w' hw'
  · intro p hp w' hw'
    rw [← (hlive p hp).2.1]
    rcases List.mem_append.1 hw' with hw' | hw'
    · exact Nat.le_of_lt (hrising w' hw')
    · obtain rfl := List.mem_singleton.1 hw'
      exact Nat.le_refl _

/-- Whether a creation takes a revision above the record's earlier ones, a release
gives each prior identity to one name, and an update that is not recorded whole
stores no other form of a value the trigger takes for the same. -/
def lawful (R : Reading V) (t : Table V) : Action V → Bool
  | .create revision _ _ => t.log.all fun w => decide (w.entry.revision < revision)
  | .release _ definition _ _ => decide (distinctNames t.version definition)
  | .update _ erased values =>
      t.unseen || erased || t.live.all fun (_, old) => telling R t.columns old values
  | .delete _ => true

theorem lawful_told {t : Table V} {cause : Cause} {erased : Bool} {values : String → V} {p : Nat × (String → V)}
    (h : lawful R t (.update cause erased values) = true) (hlive : t.live = some p) :
    t.unseen = false → erased = false → telling R t.columns p.2 values = true := by
  intro hunseen herased
  simpa [lawful, hunseen, herased, hlive] using h

/-- Whether every action of a run is lawful where it is taken. -/
def lawfulRun (R : Reading V) : Table V → List (Action V) → Bool
  | _, [] => true
  | t, x :: acts => lawful R t x && lawfulRun R (step R t x) acts

/-- No revision is of a version just registered. -/
theorem Sound.released_unseen {t : Table V} (h : Sound R t) {definition : List FieldDef}
    {columns : List String} {migrated : (String → V) → String → V} :
    (t.released definition columns migrated).unseen = true := by
  rw [Table.unseen, Bool.not_eq_true', List.any_eq_false]
  intro w hw
  obtain ⟨v, hv, hlt⟩ := h.versions w hw
  simp only [hv, Table.released, register, Option.map_some, Option.some.injEq, decide_eq_true_eq]
  omega

theorem Sound.release {t : Table V} (h : Sound R t) {definition : List FieldDef}
    {columns : List String} {migrated : (String → V) → String → V}
    (hnames : distinctNames t.version definition)
    (hformed : wellFormed (t.released definition columns migrated).version columns = true)
    (hnd : (definition.map (·.name)).Nodup)
    (hlive : (t.released definition columns migrated).live.all
      (fun (_, values) => exclusive R (t.released definition columns migrated).version values) =
        true) : Sound R (t.released definition columns migrated) where
  registered := register_registered h.registered hnd hnames
  formed := hformed
  arcs p hp := by simpa [hp] using hlive
  versions w hw := by
    obtain ⟨v, hv, hlt⟩ := h.versions w hw
    exact ⟨v, hv, by simp only [Table.released]; omega⟩
  current p hp hseen := by
    rw [h.released_unseen] at hseen
    cases hseen
  past := h.past
  rising := h.rising
  top p hp w hw := by
    obtain ⟨q, hq, rfl⟩ := Option.map_eq_some_iff.1 hp
    exact h.top q hq w hw
  id_lt := by
    simp only [Table.released, register]
    omega

theorem Sound.step {t : Table V} (h : Sound R t) (x : Action V) (hx : lawful R t x = true) :
    Sound R (step R t x) := by
  cases x with
  | create revision cause values =>
    rw [History.step]
    split
    · split
      · next hadmitted =>
        refine h.append rfl ?_ ?_ (replay_create revision)
        · simpa [lawful, audit] using hx
        · rintro p ⟨⟩
          exact ⟨hadmitted.2, rfl, rfl⟩
      · exact h
    · exact h
  | update cause erased values =>
    rw [History.step]
    split
    · next revision old hlive =>
      split
      · next hadmitted =>
        refine h.append rfl ?_ ?_ ?_
        · intro w hw
          exact Nat.lt_succ_of_le (h.top _ hlive w hw)
        · rintro p ⟨⟩
          exact ⟨hadmitted.1, rfl, rfl⟩
        · exact replay_update h.registered.distinct h.formed (h.arcs _ hlive) hadmitted.1
            hadmitted.2 (lawful_told hx hlive) (h.current _ hlive) (revision + 1)
      · exact h
    · exact h
  | delete cause =>
    rw [History.step]
    split
    · next revision old hlive =>
      refine h.append rfl ?_ nofun (replay_delete (revision + 1))
      intro w hw
      exact Nat.lt_succ_of_le (h.top _ hlive w hw)
    · exact h
  | release renamed definition columns migrated =>
    rw [History.step]
    split
    · dsimp only
      split
      · next hadmitted =>
        exact h.release (by simpa [lawful] using hx) hadmitted.1 hadmitted.2.1 hadmitted.2.2
      · exact h
    · exact h

theorem Sound.run {t : Table V} (h : Sound R t) (acts : List (Action V))
    (hacts : lawfulRun R t acts = true) : Sound R (run R t acts) := by
  induction acts generalizing t with
  | nil => exact h
  | cons x acts ih =>
    rw [lawfulRun, Bool.and_eq_true] at hacts
    exact ih (h.step x hacts.1) hacts.2

theorem unregistered_sound : Sound R (unregistered : Table V) where
  registered := ⟨rfl, List.nodup_nil, List.nodup_nil, nofun⟩
  formed := rfl
  arcs p hp := by cases hp
  versions w hw := by cases hw
  current p hp := by cases hp
  past before w after heq := by simp [unregistered] at heq
  rising := List.Pairwise.nil
  top p hp := by cases hp
  id_lt := Nat.zero_lt_one

omit [DecidableEq V] in
theorem entries_rising {log : List (Written V)}
    (h : log.Pairwise fun w w' => w.entry.revision < w'.entry.revision) :
    Rising Entry.revision (log.map (·.entry)) := List.pairwise_map.2 h

/-- At an element's revision the fold ends with the element. -/
theorem readHistory_at {rows before after : List (Entry V)} {e : Entry V}
    (h : Rising Entry.revision rows) (heq : rows = before ++ e :: after) :
    readHistory R rows e.revision = (before ++ [e]).foldl (replay R) fun _ => none := by
  subst heq
  rw [readHistory, h.filter_le]

/-- For every lawful run, in whatever order the database returns rows of one
revision, each revision the history holds rebuilds to the row stored when it was
written. -/
theorem readHistory_replays (R : Reading V) (acts : List (Action V))
    (hacts : lawfulRun R unregistered acts = true) (rows : List (Entry V))
    (hperm : rows.Perm ((run R unregistered acts).log.map (·.entry)))
    (hsorted : rows.Pairwise fun e e' => e.revision ≤ e'.revision) :
    ∀ w ∈ (run R unregistered acts).log, ∀ i, (∀ c ∈ systemColumns, i ≠ .legacy c) →
      readHistory R rows w.entry.revision i = decoded R w.entry.version w.stored i := by
  have h : Sound R (run R unregistered acts) := unregistered_sound.run acts hacts
  intro w hw i hi
  obtain ⟨before, after, hlog⟩ := List.append_of_mem hw
  obtain rfl := (entries_rising h.rising).eq_of_perm hperm hsorted
  have hsplit : (run R unregistered acts).log.map (·.entry) =
      before.map (·.entry) ++ w.entry :: after.map (·.entry) := by
    rw [hlog]
    simp
  rw [readHistory_at (entries_rising h.rising) hsplit]
  simpa [replayed] using h.past before w after hlog i hi

/-- Numbers for values, shown as they are. -/
def plainReading : Reading Nat where
  null := 0
  reference _ value := value
  isString _ := false
  historicalValue _ value := value
  same x y := x == y
  same_self _ := beq_self_eq_true _

/-- A release of a definition with a column for each of the names given. -/
def define (definition : List FieldDef) (columns : List String) : Action Nat :=
  .release false definition (systemColumns ++ columns) id

/-- Values of two columns. -/
def holding (a b : Nat) : String → Nat := fun c => if c = "a" ∨ c = "r__x" then a else b

/-- An arc changes its arm, a field is renamed, and the record is deleted and
created again at its next revision. -/
def restoredRun : List (Action Nat) :=
  [define [⟨"r", .refs ["x", "y"], none⟩] ["r__x", "r__y"], .create 1 .direct (holding 1 0),
    .update .direct false (holding 0 2),
    define [⟨"q", .refs ["x", "y"], some "r"⟩] ["q__x", "q__y"], .update .direct false (holding 0 0),
    .delete .direct, .create 5 .restored (holding 0 0)]

theorem restoredRun_replays : lawfulRun plainReading unregistered restoredRun = true ∧
    (run plainReading unregistered restoredRun).log.length = 5 ∧
    ∀ w ∈ (run plainReading unregistered restoredRun).log, ∀ i,
      (∀ c ∈ systemColumns, i ≠ .legacy c) →
      readHistory plainReading ((run plainReading unregistered restoredRun).log.map (·.entry))
        w.entry.revision i = decoded plainReading w.entry.version w.stored i :=
  ⟨by decide, by decide, readHistory_replays plainReading restoredRun (by decide) _ (List.Perm.refl _)
    (by decide)⟩

/-- A deleted record is created again as any other row, at revision 1. -/
def recreated : List (Action Nat) :=
  [define [⟨"a", .other "int", none⟩] ["a"], .create 1 .direct (holding 1 0), .delete .direct,
    .create 1 .direct (holding 2 0)]

/-- A field is renamed and a computed one takes its name. -/
def renamedOver : List (Action Nat) :=
  [define [⟨"b", .other "int", none⟩] ["b"], .create 1 .direct (holding 0 5),
    define [⟨"a", .other "int", some "b"⟩, ⟨"b", .other "int", none⟩] ["a", "b"],
    .update .direct false (holding 5 7), .update .direct false (holding 6 7)]

/-- Decimals as their digits and scale, two of one number the same. -/
def decimals : Reading (Nat × Nat) where
  null := (0, 0)
  reference _ value := value
  isString _ := false
  historicalValue _ value := value
  same x y := x.1 * 10 ^ y.2 == y.1 * 10 ^ x.2
  same_self _ := beq_self_eq_true _

/-- A decimal 1.2 is set to 1.20. -/
def rescaled : List (Action (Nat × Nat)) :=
  [.release false [⟨"a", .other "decimal", none⟩] (systemColumns ++ ["a"]) id,
    .create 1 .direct (fun _ => (12, 1)), .update .direct false (fun _ => (120, 2))]

/-- Every revision of a run rebuilds to the row it was written with, in the order
of rows given. -/
def Replays (R : Reading V) (acts : List (Action V)) (rows : List (Entry V)) : Prop :=
  ∀ w ∈ (run R unregistered acts).log, ∀ i, (∀ c ∈ systemColumns, i ≠ .legacy c) →
    readHistory R rows w.entry.revision i = decoded R w.entry.version w.stored i

/-- The two rows of the record created again share revision 1, so no order of
them rebuilds both; the renamed field's update is read as the computed field's;
and the decimal's other scale is not recorded. -/
theorem not_replays :
    (∀ rows : List (Entry Nat), ¬ Replays plainReading recreated rows) ∧
      ((run plainReading unregistered recreated).log.map (·.entry.revision)) = [1, 2, 1] ∧
      ¬ Replays plainReading renamedOver ((run plainReading unregistered renamedOver).log.map (·.entry)) ∧
      ¬ Replays decimals rescaled ((run decimals unregistered rescaled).log.map (·.entry)) := by
  refine ⟨?_, rfl, ?_, ?_⟩
  · intro rows h
    have hfirst := h ((run plainReading unregistered recreated).log.get ⟨0, by decide⟩)
      (List.get_mem _ _) (.field 2) (by decide)
    have hthird := h ((run plainReading unregistered recreated).log.get ⟨2, by decide⟩)
      (List.get_mem _ _) (.field 2) (by decide)
    have hsame := congrArg (Option.map HistoricalValue.value) (hfirst.symm.trans hthird)
    exact absurd (show (1 : Nat) = 2 from Option.some.inj hsame) (by decide)
  · intro h
    have hlast := h ((run plainReading unregistered renamedOver).log.get ⟨2, by decide⟩)
      (List.get_mem _ _) (.field 2) (by decide)
    have hsame := congrArg (Option.map HistoricalValue.value) hlast
    exact absurd (show (6 : Nat) = 7 from Option.some.inj hsame) (by decide)
  · intro h
    have hlast := h ((run decimals unregistered rescaled).log.get ⟨1, by decide⟩)
      (List.get_mem _ _) (.field 2) (by decide)
    have hsame := congrArg (Option.map HistoricalValue.value) hlast
    exact absurd (show (12, 1) = (120, 2) from Option.some.inj hsame) (by decide)

end Norbital.Bolt.History

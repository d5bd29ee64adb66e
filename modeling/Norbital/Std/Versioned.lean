import Mathlib.Data.List.Nodup
import Norbital.Std.Date

/-!
# Versioned lineages

The helpers of `std/src/versioned.ts` over the rows of a lineage: `sealWrites`
seals a draft over the versions it follows, `onlyShortens` and `voidOnce` judge
an update of a sealed version.  A run seals drafts and amends sealed versions in
any order.
-/

namespace Norbital.Std

namespace Json

mutual

/-- `equal`: key order is not a change; a decimal is the object it prints as. -/
def equal : Json → Json → Bool
  | .null, .null => true
  | .bool a, .bool b => a == b
  | .number a, .number b => a == b
  | .string a, .string b => a == b
  | .array xs, .array ys => equalItems xs ys
  | .object kx, .object ky => kx.length == ky.length && equalMembers kx ky
  | _, _ => false

def equalItems : List Json → List Json → Bool
  | [], [] => true
  | x :: xs, y :: ys => equal x y && equalItems xs ys
  | _, _ => false

def equalMembers : List (String × Json) → List (String × Json) → Bool
  | [], _ => true
  | (k, v) :: kx, ky => (match member ky k with
      | some w => equal v w
      | none => false) && equalMembers kx ky

end

end Json

def DatePeriod.json (p : DatePeriod) : Json :=
  .object [("from", .string p.first), ("to", p.last.elim .null .string)]

namespace Versioned

/-- `same`; `none` is `undefined`. -/
def same (a b : Option Json) : Bool := (a.getD .null).equal (b.getD .null)

/-- A versioned row: the columns the helpers read, and its other fields. -/
structure Lineage where
  id : String
  period : DatePeriod
  sealedAt : Option String
  voidedAt : Option String
  voidReason : Option String
  others : List (String × Json)

/-- An update's fields; a value may be `undefined`. -/
abbrev Input := List (String × Option Json)

def live (v : Lineage) : Bool := v.sealedAt.isSome && v.voidedAt.isNone

namespace Lineage

/-- A row's value by field name. -/
def get (v : Lineage) (field : String) : Option Json :=
  if field = "id" then some (.string v.id)
  else if field = "period" then some v.period.json
  else if field = "sealed_at" then v.sealedAt.map .string
  else if field = "voided_at" then v.voidedAt.map .string
  else if field = "void_reason" then v.voidReason.map .string
  else member v.others field

end Lineage

/-- `isPeriod`, with the texts it finds. -/
def periodOf : Json → Option DatePeriod
  | .object members =>
    match member members "from", member members "to" with
    | some (.string first), some .null => some ⟨first, none⟩
    | some (.string first), some (.string last) => some ⟨first, some last⟩
    | _, _ => none
  | _ => none

/-- One update of a seal. -/
structure Write where
  target : String
  period : DatePeriod
  sealedAt : Option String
  deriving DecidableEq

/-- `addDays(d, -1)`; what is no calendar day throws. -/
def addDayBefore (d : String) : Except String String :=
  if isPlainDate d then .ok (dayBefore d) else .error s!"'{d}' is not a calendar date (YYYY-MM-DD)"

/-- The live versions other than the draft. -/
def othersOf (draft : Lineage) (sealedRows : List Lineage) : List Lineage :=
  sealedRows.filter fun v => v.id != draft.id && live v

/-- The version the draft follows: it starts earlier and has not ended when the draft starts. -/
def beforeOf (draft : Lineage) (others : List Lineage) : Option Lineage :=
  others.find? fun v => decide (v.period.first < draft.period.first) &&
    v.period.last.all fun t => decide (draft.period.first ≤ t)

/-- The first version to start after the draft. -/
def nextOf (draft : Lineage) (others : List Lineage) : Option Lineage :=
  ((others.filter fun v => decide (draft.period.first < v.period.first)).mergeSort
    fun a b => decide (a.period.first ≤ b.period.first)).head?

/-- The version the draft follows ends the day before the draft starts. -/
def beforeWrites (draft : Lineage) (others : List Lineage) : Except String (List Write) :=
  match beforeOf draft others with
  | some before => do
    let last ← addDayBefore draft.period.first
    return [⟨before.id, ⟨before.period.first, some last⟩, none⟩]
  | none => return []

/-- The draft ends the day before the next version starts, if it has not ended by then. -/
def lastOf (draft : Lineage) (others : List Lineage) : Except String (Option String) :=
  match nextOf draft others with
  | some next =>
    if draft.period.last.all fun t => decide (next.period.first ≤ t) then
      some <$> addDayBefore next.period.first
    else return draft.period.last
  | none => return draft.period.last

/-- `sealWrites`. -/
def sealWrites (draft : Lineage) (sealedRows : List Lineage) (now : String) : Except String (List Write) :=
  if draft.sealedAt.isSome then .error "This version is already sealed."
  else
    let others := othersOf draft sealedRows
    let first := draft.period.first
    if others.any fun v => v.period.first == first then
      .error s!"A sealed version already starts on {first}; void it before sealing another from that day."
    else do
      let writes ← beforeWrites draft others
      let last ← lastOf draft others
      return writes ++ [⟨draft.id, ⟨first, last⟩, some now⟩]

/-- The change of one field of a sealed version; `none` when it is admitted. -/
def onlyShortensField (before : Lineage) (field : String) (value : Option Json) : Option String :=
  if field = "voided_at" ∨ field = "void_reason" ∨ same value (before.get field) then none
  else if field = "period" then
    match value.bind periodOf with
    | some p =>
      if p.first = before.period.first ∧ (∃ t ∈ p.last, p.first ≤ t ∧ ∀ u ∈ before.period.last, t ≤ u) then none
      else some "A sealed version’s period may only end earlier. Seal a new version instead."
    | none => some "A sealed version’s period may only end earlier. Seal a new version instead."
  else some s!"This version is sealed, so {field} cannot change. Seal a corrected version instead; a wrong seal is voided."

/-- `onlyShortens`. -/
def onlyShortens (before : Lineage) (input : Input) : Option String :=
  input.findSome? fun (field, value) => onlyShortensField before field value

/-- `reason.trim() !== ''`. -/
def states : Option Json → Bool
  | some (.string s) => s.toList.any fun c => !Lib.isSpace c
  | _ => false

/-- `voidOnce`. -/
def voidOnce (before : Lineage) (input : Input) : Option String :=
  let voids := input.lookup "voided_at"
  let words := input.lookup "void_reason"
  if voids.isNone && words.isNone then none
  else if before.voidedAt.isSome then
    if voids.any fun v => !same v (before.voidedAt.map .string) then
      some "This version is voided; a void is never undone."
    else if words.any fun v => !same v (before.voidReason.map .string) then
      some "This version is voided; its reason is part of the record."
    else none
  else if (voids.join.getD .null).isNull then
    if words.any fun v => !same v (before.voidReason.map .string) then
      some "A reason is given only with a void."
    else none
  else if states (words.getD (before.voidReason.map .string)) then none
  else some "A void states its reason."

namespace Lineage

/-- The row with a seal's writes. -/
def written (v : Lineage) (writes : List Write) : Lineage :=
  match writes.find? (·.target == v.id) with
  | some w => { v with period := w.period, sealedAt := w.sealedAt.or v.sealedAt }
  | none => v

/-- A column of a text or nothing, as an update leaves it. -/
def textOf (was : Option String) : Option (Option Json) → Option String
  | some (some (.string s)) => some s
  | some (some .null) => none
  | _ => was

/-- The row with an update's period and void. -/
def amended (v : Lineage) (input : Input) : Lineage :=
  { v with
    period := ((input.lookup "period").join.bind periodOf).getD v.period
    voidedAt := textOf v.voidedAt (input.lookup "voided_at")
    voidReason := textOf v.voidReason (input.lookup "void_reason") }

end Lineage

/-- The update's period, when it has one, is one the field's codec reads. -/
def decodes (input : Input) : Bool :=
  match (input.lookup "period").join with
  | some value => (periodOf value).any fun p => isPlainDate p.first &&
    p.last.all fun t => isPlainDate t && decide (p.first ≤ t)
  | none => true

/-- An update of a sealed version that both rules admit. -/
def admits (v : Lineage) (input : Input) : Bool :=
  v.sealedAt.isSome && decodes input && (onlyShortens v input).isNone && (voidOnce v input).isNone

inductive Step where
  /-- A draft is sealed in the one update list. -/
  | sealDraft (draft now : String)
  /-- A sealed version is shortened or voided. -/
  | amend (id : String) (input : Input)

def step (rows : List Lineage) : Step → List Lineage
  | .sealDraft id now =>
    match rows.find? (·.id == id) with
    | some draft =>
      match sealWrites draft rows now with
      | .ok writes => rows.map (·.written writes)
      | .error _ => rows
    | none => rows
  | .amend id input =>
    rows.map fun v => if v.id = id ∧ admits v input then v.amended input else v

def run (rows : List Lineage) (steps : List Step) : List Lineage := steps.foldl step rows

/-- Rows of a lineage whose live versions never overlap. -/
structure Versions (rows : List Lineage) : Prop where
  ids : (rows.map (·.id)).Nodup
  period : ∀ v ∈ rows, v.period.WellFormed
  apart : ∀ v ∈ rows, ∀ w ∈ rows, live v → live w → v.id ≠ w.id → v.period.overlaps w.period = false

/-- The writes that an update list gives the rows, as updates the rules judge. -/
def Write.input (w : Write) : Input :=
  ("period", some w.period.json) :: (w.sealedAt.map fun at' => ("sealed_at", some (.string at'))).toList

section

variable {draft : Lineage} {sealedRows : List Lineage} {now : String} {writes : List Write}

theorem mem_othersOf {v : Lineage} :
    v ∈ othersOf draft sealedRows ↔ v ∈ sealedRows ∧ v.id ≠ draft.id ∧ live v := by
  simp [othersOf, List.mem_filter]

theorem beforeOf_eq_some {others : List Lineage} {b : Lineage} (h : beforeOf draft others = some b) :
    b ∈ others ∧ b.period.first < draft.period.first ∧ ∀ t ∈ b.period.last, draft.period.first ≤ t := by
  have hb := List.find?_some h
  rw [Bool.and_eq_true, decide_eq_true_eq] at hb
  refine ⟨List.mem_of_find?_eq_some h, hb.1, fun t ht => ?_⟩
  have := hb.2
  rw [ht] at this
  simpa using this

theorem beforeOf_eq_none {others : List Lineage} (h : beforeOf draft others = none) {v : Lineage}
    (hv : v ∈ others) (hlt : v.period.first < draft.period.first) :
    ∃ t ∈ v.period.last, t < draft.period.first := by
  have hno := List.find?_eq_none.mp h v hv
  cases hlast : v.period.last with
  | none => simp [hlt, hlast] at hno
  | some t => exact ⟨t, rfl, by simpa [hlt, hlast] using hno⟩

theorem nextOf_eq_none {others : List Lineage} (h : nextOf draft others = none) {v : Lineage}
    (hv : v ∈ others) : ¬ draft.period.first < v.period.first := by
  intro hlt
  have hmem : v ∈ (others.filter fun v => decide (draft.period.first < v.period.first)).mergeSort
      fun a b => decide (a.period.first ≤ b.period.first) :=
    List.mem_mergeSort.mpr (List.mem_filter.mpr ⟨hv, decide_eq_true hlt⟩)
  rw [nextOf, List.head?_eq_none_iff] at h
  rw [h] at hmem
  cases hmem

theorem nextOf_eq_some {others : List Lineage} {n : Lineage} (h : nextOf draft others = some n) :
    n ∈ others ∧ draft.period.first < n.period.first ∧
      ∀ v ∈ others, draft.period.first < v.period.first → n.period.first ≤ v.period.first := by
  have hsorted : ((others.filter fun v => decide (draft.period.first < v.period.first)).mergeSort
      fun a b => decide (a.period.first ≤ b.period.first)).Pairwise
      fun a b => decide (a.period.first ≤ b.period.first) = true := by
    apply List.pairwise_mergeSort
    · intro a b c hab hbc
      rw [decide_eq_true_eq] at hab hbc ⊢
      exact hab.trans hbc
    · intro a b
      simpa using le_total a.period.first b.period.first
  have hmem : ∀ v, v ∈ (others.filter fun v => decide (draft.period.first < v.period.first)).mergeSort
      (fun a b => decide (a.period.first ≤ b.period.first)) ↔
      v ∈ others ∧ draft.period.first < v.period.first := by
    intro v
    rw [List.mem_mergeSort, List.mem_filter, decide_eq_true_eq]
  rw [nextOf, List.head?_eq_some_iff] at h
  obtain ⟨rest, hrest⟩ := h
  rw [hrest] at hsorted hmem
  obtain ⟨hn, hlt⟩ := (hmem n).mp List.mem_cons_self
  refine ⟨hn, hlt, fun v hv hv' => ?_⟩
  obtain rfl | hv := List.mem_cons.mp ((hmem v).mpr ⟨hv, hv'⟩)
  · exact le_rfl
  · simpa using (List.pairwise_cons.mp hsorted).1 v hv

theorem addDayBefore_eq {d : String} (h : isPlainDate d) : addDayBefore d = .ok (dayBefore d) := if_pos h

/-- What an accepted draft follows: nothing that still runs, or one version that now ends the day
before. -/
inductive Follows (draft : Lineage) (others : List Lineage) : List Write → Prop where
  | none (h : ∀ v ∈ others, v.period.first < draft.period.first →
      ∃ t ∈ v.period.last, t < draft.period.first) : Follows draft others []
  | one {b : Lineage} (hb : b ∈ others) (hlt : b.period.first < draft.period.first)
      (hruns : ∀ t ∈ b.period.last, draft.period.first ≤ t) :
      Follows draft others [⟨b.id, ⟨b.period.first, some (dayBefore draft.period.first)⟩, none⟩]

theorem beforeWrites_spec (others : List Lineage) (hdraft : draft.period.WellFormed) :
    ∃ first, beforeWrites draft others = .ok first ∧ Follows draft others first := by
  unfold beforeWrites
  cases hbefore : beforeOf draft others with
  | none => exact ⟨[], rfl, .none fun v hv hlt => beforeOf_eq_none hbefore hv hlt⟩
  | some b =>
    obtain ⟨hb, hlt, hruns⟩ := beforeOf_eq_some hbefore
    refine ⟨_, ?_, .one hb hlt hruns⟩
    dsimp only
    rw [addDayBefore_eq hdraft.first]
    rfl

/-- An accepted draft ends before every version that starts later. -/
structure Ends (draft : Lineage) (others : List Lineage) (last : Option String) : Prop where
  wellFormed : ∀ t ∈ last, isPlainDate t ∧ draft.period.first ≤ t
  before : ∀ v ∈ others, draft.period.first < v.period.first → ∃ t ∈ last, t < v.period.first

theorem lastOf_spec {others : List Lineage} (hdraft : draft.period.WellFormed)
    (hothers : ∀ v ∈ others, v.period.WellFormed) :
    ∃ last, lastOf draft others = .ok last ∧ Ends draft others last := by
  unfold lastOf
  cases hnext : nextOf draft others with
  | none =>
    refine ⟨draft.period.last, rfl, hdraft.last, fun v hv hlt => ?_⟩
    exact absurd hlt (nextOf_eq_none hnext hv)
  | some n =>
    obtain ⟨hn, hlt, hmin⟩ := nextOf_eq_some hnext
    dsimp only
    by_cases hruns : draft.period.last.all fun t => decide (n.period.first ≤ t)
    · obtain ⟨hdate, hbefore, hle⟩ := dayBefore_spec (hothers n hn).first hdraft.first hlt
      refine ⟨some (dayBefore n.period.first), ?_, ?_, fun v hv hv' => ?_⟩
      · rw [if_pos hruns, addDayBefore_eq (hothers n hn).first]
        rfl
      · rintro t ⟨rfl⟩
        exact ⟨hdate, hle⟩
      · exact ⟨_, rfl, lt_of_lt_of_le hbefore (hmin v hv hv')⟩
    · refine ⟨draft.period.last, if_neg hruns, hdraft.last, fun v hv hv' => ?_⟩
      cases hlast : draft.period.last with
      | none => simp [hlast] at hruns
      | some t => exact ⟨t, rfl, lt_of_lt_of_le (by simpa [hlast] using hruns) (hmin v hv hv')⟩

/-- The writes of an accepted draft. -/
theorem sealWrites_spec (h : sealWrites draft sealedRows now = .ok writes) (hdraft : draft.period.WellFormed)
    (hothers : ∀ v ∈ othersOf draft sealedRows, v.period.WellFormed) :
    draft.sealedAt = none ∧
      (∀ v ∈ othersOf draft sealedRows, v.period.first ≠ draft.period.first) ∧
      ∃ first last, Follows draft (othersOf draft sealedRows) first ∧
        Ends draft (othersOf draft sealedRows) last ∧
        writes = first ++ [⟨draft.id, ⟨draft.period.first, last⟩, some now⟩] := by
  obtain ⟨first, hfirst, hfollows⟩ := beforeWrites_spec (othersOf draft sealedRows) hdraft
  obtain ⟨last, hlast, hends⟩ := lastOf_spec hdraft hothers
  unfold sealWrites at h
  by_cases hsealed : draft.sealedAt.isSome
  · rw [if_pos hsealed] at h
    cases h
  rw [if_neg hsealed] at h
  dsimp only at h
  by_cases hclash : (othersOf draft sealedRows).any fun v => v.period.first == draft.period.first
  · rw [if_pos hclash] at h
    cases h
  rw [if_neg hclash, hfirst, hlast] at h
  refine ⟨by simpa using hsealed, fun v hv heq => ?_, first, last, hfollows, hends, (Except.ok.inj h).symm⟩
  exact hclash (List.any_eq_true.mpr ⟨v, hv, beq_iff_eq.mpr heq⟩)

variable {rows : List Lineage}

/-- A list that holds the lineage's live versions. -/
def SameLive (sealedRows rows : List Lineage) : Prop := ∀ v, live v → (v ∈ sealedRows ↔ v ∈ rows)

/-- A version that may have ended earlier or left the live ones. -/
structure Within (v v' : Lineage) : Prop where
  id : v'.id = v.id
  live : live v' → live v
  wellFormed : v'.period.WellFormed
  first : v'.period.first = v.period.first
  last : ∀ t ∈ v.period.last, ∃ t' ∈ v'.period.last, t' ≤ t

theorem Within.refl {v : Lineage} (h : v.period.WellFormed) : Within v v :=
  ⟨rfl, fun h => h, h, rfl, fun t ht => ⟨t, ht, le_rfl⟩⟩

/-- Versions within versions that are apart. -/
theorem Versions.apart_within (hv : Versions rows) {v w v' w' : Lineage} (hvr : v ∈ rows) (hwr : w ∈ rows)
    (hvv : Within v v') (hww : Within w w') (hvl : live v') (hwl : live w') (hne : v.id ≠ w.id) :
    v'.period.overlaps w'.period = false := by
  refine DatePeriod.overlaps_of_within hvv.first hvv.last ?_
  rw [DatePeriod.overlaps_comm]
  refine DatePeriod.overlaps_of_within hww.first hww.last ?_
  rw [DatePeriod.overlaps_comm]
  exact hv.apart v hvr w hwr (hvv.live hvl) (hww.live hwl) hne

/-- A row other than the draft: it may have been cut where the draft starts. -/
structure Cut (draft v v' : Lineage) : Prop extends Within v v' where
  before : Versioned.live v → v.period.first < draft.period.first →
    ∃ t ∈ v'.period.last, t < draft.period.first

theorem mem_others_iff (hsame : SameLive sealedRows rows) {v : Lineage} :
    v ∈ othersOf draft sealedRows ↔ v ∈ rows ∧ v.id ≠ draft.id ∧ live v := by
  rw [mem_othersOf]
  constructor
  · rintro ⟨hv, hid, hlive⟩
    exact ⟨(hsame v hlive).mp hv, hid, hlive⟩
  · rintro ⟨hv, hid, hlive⟩
    exact ⟨(hsame v hlive).mpr hv, hid, hlive⟩

theorem written_draft {first : List Write} {p : DatePeriod} {v : Lineage} (hid : v.id = draft.id)
    (hfirst : ∀ w ∈ first, w.target ≠ draft.id) :
    v.written (first ++ [⟨draft.id, p, some now⟩]) = { v with period := p, sealedAt := some now } := by
  have hnone : first.find? (·.target == v.id) = none := by
    rw [List.find?_eq_none]
    intro w hw
    simpa [hid] using hfirst w hw
  unfold Lineage.written
  rw [List.find?_append, hnone]
  simp [hid]

theorem written_other {first : List Write} {p : DatePeriod} {v : Lineage} (hid : v.id ≠ draft.id) :
    v.written (first ++ [⟨draft.id, p, some now⟩]) = v.written first := by
  unfold Lineage.written
  rw [List.find?_append]
  simp [Ne.symm hid]

/-- The rows other than the draft after its writes. -/
theorem cut_of_follows (hv : Versions rows) (hsame : SameLive sealedRows rows) (hdraft : draft ∈ rows)
    {first : List Write} (hfollows : Follows draft (othersOf draft sealedRows) first) {v : Lineage}
    (hvr : v ∈ rows) (hid : v.id ≠ draft.id) : Cut draft v (v.written first) := by
  cases hfollows with
  | none hends =>
    refine ⟨.refl (hv.period v hvr), fun hlive hlt => ?_⟩
    exact hends v ((mem_others_iff hsame).mpr ⟨hvr, hid, hlive⟩) hlt
  | @one b hb hlt hruns =>
    obtain ⟨hbr, hbid, hblive⟩ := (mem_others_iff hsame).mp hb
    obtain ⟨hdate, hbefore, hle⟩ := dayBefore_spec (hv.period draft hdraft).first (hv.period b hbr).first hlt
    by_cases hvb : v.id = b.id
    · obtain rfl : v = b := List.inj_on_of_nodup_map hv.ids hvr hbr hvb
      have hwritten : v.written [⟨v.id, ⟨v.period.first, some (dayBefore draft.period.first)⟩, none⟩] =
          { v with period := ⟨v.period.first, some (dayBefore draft.period.first)⟩ } := by
        simp [Lineage.written]
      rw [hwritten]
      refine ⟨⟨rfl, fun h => h, ⟨(hv.period v hvr).first, ?_⟩, rfl, ?_⟩, fun _ _ => ⟨_, rfl, hbefore⟩⟩
      · rintro t ⟨rfl⟩
        exact ⟨hdate, hle⟩
      · exact fun t ht => ⟨_, rfl, (lt_of_lt_of_le hbefore (hruns t ht)).le⟩
    · have hwritten : v.written [⟨b.id, ⟨b.period.first, some (dayBefore draft.period.first)⟩, none⟩] = v := by
        simp [Lineage.written, Ne.symm hvb]
      rw [hwritten]
      refine ⟨.refl (hv.period v hvr), fun hlive hvlt => ?_⟩
      -- it does not overlap the version the draft follows, which runs until the draft starts
      obtain ⟨t, ht, htv⟩ | ⟨t, ht, htb⟩ := DatePeriod.overlaps_eq_false_iff.mp
        (hv.apart b hbr v hvr hblive hlive (Ne.symm hvb))
      · exact absurd (htv.trans hvlt) (not_lt.mpr (hruns t ht))
      · exact ⟨t, ht, htb.trans hlt⟩

theorem target_ne_of_follows {others : List Lineage} (hothers : ∀ v ∈ others, v.id ≠ draft.id)
    {first : List Write} (hfollows : Follows draft others first) : ∀ w ∈ first, w.target ≠ draft.id := by
  cases hfollows with
  | none => simp
  | one hb => simpa using hothers _ hb

/-- Rows that keep their ids are rows of the same ids. -/
theorem map_ids {f : Lineage → Lineage} (hf : ∀ v ∈ rows, (f v).id = v.id) :
    (rows.map f).map (·.id) = rows.map (·.id) := by
  rw [List.map_map]
  exact List.map_congr_left hf

/-- An accepted draft is sealed apart from every live version. -/
theorem versions_written (hv : Versions rows) (hsame : SameLive sealedRows rows) (hdraft : draft ∈ rows)
    (h : sealWrites draft sealedRows now = .ok writes) : Versions (rows.map (·.written writes)) := by
  obtain ⟨-, hdistinct, first, last, hfollows, hends, rfl⟩ := sealWrites_spec h (hv.period draft hdraft)
    fun v hvo => hv.period v ((mem_others_iff hsame).mp hvo).1
  have hown : ∀ v ∈ rows, v.id = draft.id →
      v.written (first ++ [⟨draft.id, ⟨draft.period.first, last⟩, some now⟩]) =
        { v with period := ⟨draft.period.first, last⟩, sealedAt := some now } := fun v _ hid =>
    written_draft hid (target_ne_of_follows (fun v hvo => (mem_othersOf.mp hvo).2.1) hfollows)
  have hcut : ∀ v ∈ rows, v.id ≠ draft.id →
      Cut draft v (v.written (first ++ [⟨draft.id, ⟨draft.period.first, last⟩, some now⟩])) := by
    intro v hvr hid
    rw [written_other hid]
    exact cut_of_follows hv hsame hdraft hfollows hvr hid
  have hid : ∀ v ∈ rows,
      (v.written (first ++ [⟨draft.id, ⟨draft.period.first, last⟩, some now⟩])).id = v.id := by
    intro v hvr
    by_cases hvd : v.id = draft.id
    · rw [hown v hvr hvd]
    · exact (hcut v hvr hvd).id
  -- the draft against a row that is not the draft
  have hdraftApart : ∀ v ∈ rows, ∀ w ∈ rows, v.id = draft.id → w.id ≠ draft.id →
      live (w.written (first ++ [⟨draft.id, ⟨draft.period.first, last⟩, some now⟩])) →
      (v.written (first ++ [⟨draft.id, ⟨draft.period.first, last⟩, some now⟩])).period.overlaps
        (w.written (first ++ [⟨draft.id, ⟨draft.period.first, last⟩, some now⟩])).period = false := by
    intro v hvr w hwr hvd hwd hlive
    have hw := hcut w hwr hwd
    have hwo := (mem_others_iff hsame).mpr ⟨hwr, hwd, hw.live hlive⟩
    rw [hown v hvr hvd, DatePeriod.overlaps_eq_false_iff, hw.first]
    obtain hlt | heq | hgt := lt_trichotomy w.period.first draft.period.first
    · exact .inr (hw.before (hw.live hlive) hlt)
    · exact absurd heq (hdistinct w hwo)
    · exact .inl (hends.before w hwo hgt)
  refine ⟨?_, ?_, ?_⟩
  · rw [map_ids hid]
    exact hv.ids
  · intro v' hv'
    obtain ⟨v, hvr, rfl⟩ := List.mem_map.mp hv'
    by_cases hvd : v.id = draft.id
    · rw [hown v hvr hvd]
      exact ⟨(hv.period draft hdraft).first, hends.wellFormed⟩
    · exact (hcut v hvr hvd).wellFormed
  · intro v' hv' w' hw' hvl hwl hne
    obtain ⟨v, hvr, rfl⟩ := List.mem_map.mp hv'
    obtain ⟨w, hwr, rfl⟩ := List.mem_map.mp hw'
    rw [hid v hvr, hid w hwr] at hne
    by_cases hvd : v.id = draft.id
    · exact hdraftApart v hvr w hwr hvd (fun hwd => hne (hvd.trans hwd.symm)) hwl
    by_cases hwd : w.id = draft.id
    · rw [DatePeriod.overlaps_comm]
      exact hdraftApart w hwr v hvr hwd hvd hvl
    exact hv.apart_within hvr hwr (hcut v hvr hvd).toWithin (hcut w hwr hwd).toWithin hvl hwl hne

/-- The end a seal gives the version before it is a shortening. -/
theorem onlyShortens_of_follows {others : List Lineage} (hdraft : draft.period.WellFormed)
    (hothers : ∀ v ∈ others, v.period.WellFormed) {first : List Write}
    (hfollows : Follows draft others first) {w : Write} (hw : w ∈ first) :
    ∃ v ∈ others, w.target = v.id ∧ onlyShortens v w.input = none := by
  cases hfollows with
  | none => cases hw
  | @one b hb hlt hruns =>
    obtain rfl := List.mem_singleton.mp hw
    obtain ⟨-, hbefore, hle⟩ := dayBefore_spec hdraft.first (hothers b hb).first hlt
    refine ⟨b, hb, rfl, ?_⟩
    have hfield : onlyShortensField b "period"
        (some (DatePeriod.json ⟨b.period.first, some (dayBefore draft.period.first)⟩)) = none := by
      unfold onlyShortensField
      split_ifs with hsame hperiod
      · rfl
      · have hread : (some (DatePeriod.json ⟨b.period.first, some (dayBefore draft.period.first)⟩)).bind
            periodOf = some ⟨b.period.first, some (dayBefore draft.period.first)⟩ := rfl
        rw [hread]
        exact if_pos ⟨rfl, _, rfl, hle, fun u hu => (lt_of_lt_of_le hbefore (hruns u hu)).le⟩
      · exact absurd rfl hperiod
    simp [Write.input, onlyShortens, hfield]

variable {v : Lineage} {input : Input}

theorem equal_string {a b : String} : Json.equal (.string a) (.string b) ↔ a = b := by
  simp [Json.equal]

theorem equal_of_equalMembers {kx ky : List (String × Json)} (h : Json.equalMembers kx ky) {k : String}
    {x y : Json} (hx : member kx k = some x) (hy : member ky k = some y) : x.equal y := by
  induction kx with
  | nil => cases hx
  | cons e kx ih =>
    obtain ⟨k', x'⟩ := e
    rw [Json.equalMembers, Bool.and_eq_true] at h
    by_cases hk : k = k'
    · subst hk
      have hx' : x' = x := by simpa [member, List.lookup_cons] using hx
      rw [hy, hx'] at h
      exact h.1
    · refine ih h.2 ?_
      simpa [member, List.lookup_cons, beq_false_of_ne hk] using hx

/-- A value that reads as a period and is no change is the period. -/
theorem periodOf_of_same {value : Json} {p q : DatePeriod} (h : value.equal q.json)
    (hp : periodOf value = some p) : p = q := by
  cases value with
  | object kx =>
    rw [DatePeriod.json, Json.equal, Bool.and_eq_true] at h
    have hmembers : ∀ k x y, member kx k = some x →
        member [("from", .string q.first), ("to", q.last.elim .null .string)] k = some y → x.equal y :=
      fun k x y => equal_of_equalMembers h.2
    unfold periodOf at hp
    dsimp only at hp
    split at hp
    next first hfirst hlast =>
      have hfrom := equal_string.mp (hmembers "from" _ _ hfirst rfl)
      have hto := hmembers "to" _ _ hlast rfl
      obtain rfl := Option.some.inj hp
      cases q with
      | mk qfirst qlast =>
        cases qlast with
        | none => rw [hfrom]
        | some t => simp [Json.equal] at hto
    next first last hfirst hlast =>
      have hfrom := equal_string.mp (hmembers "from" _ _ hfirst rfl)
      have hto := hmembers "to" _ _ hlast rfl
      obtain rfl := Option.some.inj hp
      cases q with
      | mk qfirst qlast =>
        cases qlast with
        | none => simp [Json.equal] at hto
        | some t => rw [hfrom, equal_string.mp hto]
    next => cases hp
  | _ => simp [periodOf] at hp

/-- Every field of an admitted update is admitted. -/
theorem onlyShortensField_of_lookup (h : onlyShortens v input = none) {field : String} {value : Option Json}
    (hmem : input.lookup field = some value) : onlyShortensField v field value = none := by
  have hin : (field, value) ∈ input := by
    obtain ⟨l₁, l₂, rfl, -⟩ := List.lookup_eq_some_iff.mp hmem
    simp
  exact List.findSome?_eq_none_iff.mp h _ hin

/-- The period of an admitted update starts where the version does and ends no later. -/
theorem amended_period (h : admits v input) (hperiod : v.period.WellFormed) :
    (v.amended input).period.WellFormed ∧ (v.amended input).period.first = v.period.first ∧
      ∀ t ∈ v.period.last, ∃ t' ∈ (v.amended input).period.last, t' ≤ t := by
  have hkeep : v.period.WellFormed ∧ v.period.first = v.period.first ∧
      ∀ t ∈ v.period.last, ∃ t' ∈ v.period.last, t' ≤ t := ⟨hperiod, rfl, fun t ht => ⟨t, ht, le_rfl⟩⟩
  simp only [admits, Bool.and_eq_true, Option.isNone_iff_eq_none] at h
  obtain ⟨⟨⟨-, hdecodes⟩, hshortens⟩, -⟩ := h
  unfold Lineage.amended
  dsimp only
  cases hlookup : input.lookup "period" with
  | none => exact hkeep
  | some value =>
    cases value with
    | none => exact hkeep
    | some json =>
      have hfield := onlyShortensField_of_lookup hshortens hlookup
      rw [decodes, hlookup] at hdecodes
      dsimp only [Option.join_some] at hdecodes ⊢
      cases hp : periodOf json with
      | none => simp [hp] at hdecodes
      | some p =>
        rw [hp, Option.any_some, Bool.and_eq_true] at hdecodes
        have hwell : p.WellFormed := by
          refine ⟨hdecodes.1, fun t ht => ?_⟩
          have hall := hdecodes.2
          rw [ht] at hall
          simpa using hall
        rw [Option.bind_some, hp, Option.getD_some]
        by_cases hsame : same (some json) (v.get "period")
        · obtain rfl : p = v.period := periodOf_of_same hsame hp
          exact hkeep
        · unfold onlyShortensField at hfield
          rw [if_neg (by simpa using hsame), if_pos rfl, Option.bind_some, hp] at hfield
          dsimp only at hfield
          split_ifs at hfield with hcut
          obtain ⟨hfirst, t, ht, -, hle⟩ := hcut
          exact ⟨hwell, hfirst, fun u hu => ⟨t, ht, hle u hu⟩⟩

/-- A void is never undone. -/
theorem live_of_amended (h : admits v input) (hlive : live (v.amended input)) : live v := by
  simp only [admits, Bool.and_eq_true, Option.isNone_iff_eq_none] at h
  obtain ⟨⟨⟨hsealed, -⟩, -⟩, hvoid⟩ := h
  rw [live, Bool.and_eq_true] at hlive ⊢
  refine ⟨hsealed, ?_⟩
  by_contra hvoided
  obtain ⟨at', hat⟩ := Option.ne_none_iff_exists'.mp (mt Option.isNone_iff_eq_none.mpr hvoided)
  have hnull := hlive.2
  unfold Lineage.amended at hnull
  dsimp only at hnull
  cases hlookup : input.lookup "voided_at" with
  | none => simp [hlookup, Lineage.textOf, hat] at hnull
  | some value =>
    have hsame : same value (some (.string at')) := by
      by_contra hne
      rw [Bool.not_eq_true] at hne
      simp [voidOnce, hlookup, hat, hne] at hvoid
    cases value with
    | none => simp [same, Json.equal] at hsame
    | some json =>
      cases json with
      | string s => simp [hlookup, Lineage.textOf] at hnull
      | _ => simp [same, Json.equal] at hsame

theorem versions_amended (hv : Versions rows) (id : String) (input : Input) :
    Versions (rows.map fun v => if v.id = id ∧ admits v input then v.amended input else v) := by
  have hwithin : ∀ v ∈ rows, Within v (if v.id = id ∧ admits v input then v.amended input else v) := by
    intro v hvr
    by_cases hadmit : v.id = id ∧ admits v input
    · rw [if_pos hadmit]
      obtain ⟨hwell, hfirst, hlast⟩ := amended_period hadmit.2 (hv.period v hvr)
      exact ⟨rfl, live_of_amended hadmit.2, hwell, hfirst, hlast⟩
    · rw [if_neg hadmit]
      exact .refl (hv.period v hvr)
  refine ⟨?_, ?_, ?_⟩
  · rw [map_ids fun v hvr => (hwithin v hvr).id]
    exact hv.ids
  · intro v' hv'
    obtain ⟨v, hvr, rfl⟩ := List.mem_map.mp hv'
    exact (hwithin v hvr).wellFormed
  · intro v' hv' w' hw' hvl hwl hne
    obtain ⟨v, hvr, rfl⟩ := List.mem_map.mp hv'
    obtain ⟨w, hwr, rfl⟩ := List.mem_map.mp hw'
    rw [(hwithin v hvr).id, (hwithin w hwr).id] at hne
    exact hv.apart_within hvr hwr (hwithin v hvr) (hwithin w hwr) hvl hwl hne

theorem versions_step (hv : Versions rows) (s : Step) : Versions (step rows s) := by
  cases s with
  | sealDraft id now =>
    cases hfind : rows.find? (·.id == id) with
    | none => simpa [step, hfind] using hv
    | some draft =>
      cases hseal : sealWrites draft rows now with
      | error message => simpa [step, hfind, hseal] using hv
      | ok writes =>
        simpa [step, hfind, hseal] using
          versions_written hv (fun _ _ => Iff.rfl) (List.mem_of_find?_eq_some hfind) hseal
  | amend id input => exact versions_amended hv id input

theorem versions_run (hv : Versions rows) (steps : List Step) : Versions (run rows steps) := by
  induction steps generalizing rows with
  | nil => exact hv
  | cons s steps ih => exact ih (versions_step hv s)

end

/-- The live versions of a lineage stay apart: a draft that `sealWrites` accepts is sealed, what it
writes to a sealed version is a shortening, and so seals and voids in any order never make two live
versions overlap. -/
theorem sealed_versions_apart {rows : List Lineage} (hv : Versions rows) :
    (∀ draft ∈ rows, ∀ sealedRows now writes, SameLive sealedRows rows →
      sealWrites draft sealedRows now = .ok writes →
        Versions (rows.map (·.written writes)) ∧
        (∀ v ∈ rows.map (·.written writes), v.id = draft.id → v.sealedAt = some now) ∧
        ∀ w ∈ writes, ∀ v ∈ rows, v.id = w.target → v.sealedAt.isSome → onlyShortens v w.input = none) ∧
    ∀ steps, Versions (run rows steps) := by
  refine ⟨?_, versions_run hv⟩
  intro draft hdraft sealedRows now writes hsame h
  obtain ⟨hopen, -, first, last, hfollows, -, rfl⟩ := sealWrites_spec h (hv.period draft hdraft)
    fun v hvo => hv.period v ((mem_others_iff hsame).mp hvo).1
  refine ⟨versions_written hv hsame hdraft h, ?_, ?_⟩
  · intro v' hv' hid
    obtain ⟨v, hvr, rfl⟩ := List.mem_map.mp hv'
    by_cases hvd : v.id = draft.id
    · rw [written_draft hvd (target_ne_of_follows (fun v hvo => (mem_othersOf.mp hvo).2.1) hfollows)]
    · rw [written_other hvd] at hid
      exact absurd ((cut_of_follows hv hsame hdraft hfollows hvr hvd).id.symm.trans hid) hvd
  · intro w hw v hvr hid hvs
    obtain hw | hw := List.mem_append.mp hw
    · obtain ⟨b, hb, htarget, hshortens⟩ := onlyShortens_of_follows (hv.period draft hdraft)
        (fun v hvo => hv.period v ((mem_others_iff hsame).mp hvo).1) hfollows hw
      obtain rfl : v = b :=
        List.inj_on_of_nodup_map hv.ids hvr ((mem_others_iff hsame).mp hb).1 (hid.trans htarget)
      exact hshortens
    · rw [List.mem_singleton.mp hw] at hid
      obtain rfl : v = draft := List.inj_on_of_nodup_map hv.ids hvr hdraft hid
      rw [hopen] at hvs
      cases hvs

/-- An open sealed version and a draft that starts inside it. -/
def lineage : List Lineage :=
  [⟨"a", ⟨"2026-01-01", none⟩, some "2025-12-01T00:00:00.000Z", none, none, []⟩,
    ⟨"b", ⟨"2026-03-01", none⟩, none, none, none, []⟩]

theorem lineage_apart : (sealWrites ⟨"b", ⟨"2026-03-01", none⟩, none, none, none, []⟩ lineage
      "2026-02-01T00:00:00.000Z").toOption = some [⟨"a", ⟨"2026-01-01", some "2026-02-28"⟩, none⟩,
        ⟨"b", ⟨"2026-03-01", none⟩, some "2026-02-01T00:00:00.000Z"⟩] ∧
    Versions (run lineage [.sealDraft "b" "2026-02-01T00:00:00.000Z",
      .amend "a" [("voided_at", some (.string "2026-04-01T00:00:00.000Z")),
        ("void_reason", some (.string "wrong rate"))]]) := by
  refine ⟨by decide +kernel, (sealed_versions_apart ⟨by decide, ?_, ?_⟩).2 _⟩
  · intro v hv
    simp only [lineage, List.mem_cons, List.not_mem_nil, or_false] at hv
    obtain rfl | rfl := hv
    · exact ⟨by decide, by simp⟩
    · exact ⟨by decide, by simp⟩
  · intro v hv w hw hvl hwl hne
    simp only [lineage, List.mem_cons, List.not_mem_nil, or_false] at hv hw
    obtain rfl | rfl := hv <;> obtain rfl | rfl := hw <;> simp_all [live]

end Versioned

end Norbital.Std

import Mathlib.Data.Nat.Basic
import Norbital.Lib.Entries
import Norbital.Bolt.Sync.Outbox

/-!
# Refused writes

What a refused write leaves of its record, under commits, pages, claims and deliveries in
any order.  The rollback restores the acknowledged revision of the id map's row as the
claim found it; without one it deletes the record, whatever the refused operation was.
-/

namespace Norbital.Bolt.Outbox

open Norbital.Lib

/-- A step of the record: an act on its outbox, or a page with a row for it. -/
inductive Step where
  | act (a : Act)
  | page (rid : String) (version : Option String) (row : Option Image)
  deriving DecidableEq, Repr

def Step.apply (newer : String → String → Bool) (s : Queue) : Step → Queue
  | .act a => step s a
  | .page rid version row => s.page newer rid version row

/-- What a rollback does: a refused update or delete leaves the record as the remote has it, and only a refused
create removes it. -/
def Event.kept : Event → Bool
  | .handed _ _ => true
  | .rolledBack op removed kept => op = .create || !removed && kept

def Kept (log : List Event) : Prop := ∀ event ∈ log, event.kept = true

instance : DecidablePred Kept := fun log => inferInstanceAs (Decidable (∀ event ∈ log, event.kept = true))

/-- Whether a step keeps the acknowledged revision the image the remote has.  A page that finds the record as it
stands says so of that revision, and one that creates the record finds no history.  An acknowledgement without a
remote id finds the record unmapped, or was claimed mapped.  Of an update or delete, the claim found an
acknowledged revision and all of it can be restored; when it is rolled back, that revision is still the id map's,
and where nothing is written the record is as the plan saw it. -/
def Step.anchored (newer : String → String → Bool) (s : Queue) : Step → Bool
  | .page rid version (some image) =>
    s.passes newer rid version ||
      match s.live with
      | none => s.history.isEmpty
      | some (_, old) =>
        old ≠ image || (s.map.bind (·.acked_revision)).all fun r => s.history.lookup r = some (some image)
  | .act (.ack i id _) =>
    s.claims[i]?.all fun c => !s.leased c || c.op = .delete || id.isSome || c.remote_id.isSome || s.map.isNone
  | .act (.plan i restored) =>
    s.claims[i]?.all fun c => c.op = .create || restored.isSome &&
      c.acked_revision.any fun r => s.history.lookup r = some restored
  | .act (.refuse i) =>
    s.claims[i]?.all fun c => c.op = .create || !s.leased c ||
      s.map.bind (·.acked_revision) = c.acked_revision &&
        match c.stage with
        | .planned seen .nothing => seen = s.live.map Prod.fst
        | _ => true
  | _ => true

/-- A rollback's plan, as the claim's acknowledged revision has it. -/
def Plans (history : List (Nat × Option Image)) (before seen : Option Nat) (write : Restore) : Prop :=
  ∃ r image, before = some r ∧ history.lookup r = some (some image) ∧
    match write with
    | .nothing => ∃ revision, seen = some revision ∧ history.lookup revision = some (some image)
    | .update past => past = image ∧ seen.isSome = true
    | .create past => past = image ∧ seen = none
    | .delete => False

/-- The record is its history's last, entries and claims have their revision's image, and the acknowledged revision
has what the remote has. -/
structure Anchored (s : Queue) : Prop where
  live : ∀ revision image, s.live = some (revision, image) →
    s.history.lookup revision = some (some image) ∧ ∀ h ∈ s.history, h.1 ≤ revision
  entries : ∀ e ∈ s.entries, e.op ≠ .delete → s.history.lookup e.record_revision = some (some e.image)
  claims : ∀ c ∈ s.claims, c.op ≠ .delete → s.history.lookup c.record_revision = some (some c.image)
  map : ∀ r, s.map.bind (·.acked_revision) = some r → s.history.lookup r = some s.remote
  planned : ∀ c ∈ s.claims, ∀ seen write, c.stage = .planned seen write → c.op ≠ .create →
    Plans s.history c.acked_revision seen write
  log : Kept s.log

variable {s : Queue}

/-- A new revision leaves the earlier ones as they were. -/
theorem lookup_store {revision r : Nat} {image : Option Image} (hfresh : ∀ h ∈ s.history, h.1 < revision)
    {past : Option Image} (h : s.history.lookup r = some past) :
    (s.store revision image).history.lookup r = some past := by
  have hne : r ≠ revision := by
    rintro rfl
    have hlt := hfresh _ (mem_of_lookup h)
    exact absurd hlt (lt_irrefl r)
  show ((revision, image) :: s.history).lookup r = some past
  rw [List.lookup_cons, beq_false_of_ne hne]
  exact h

theorem lookup_store_self {revision : Nat} {image : Option Image} :
    (s.store revision image).history.lookup revision = some image := by
  show ((revision, image) :: s.history).lookup revision = some image
  rw [List.lookup_cons, beq_self_eq_true]

theorem lt_nextRevision : ∀ h ∈ s.history, h.1 < s.nextRevision := by
  have hle : ∀ history : List (Nat × Option Image), ∀ h ∈ history, h.1 ≤ history.foldr (fun h n => max h.1 n) 0 := by
    intro history h hmem
    induction history with
    | nil => cases hmem
    | cons h' history ih =>
      rw [List.foldr_cons]
      rcases List.mem_cons.1 hmem with rfl | hmem
      · exact le_max_left _ _
      · exact le_trans (ih hmem) (le_max_right _ _)
  exact fun h hmem => Nat.lt_succ_of_le (hle s.history h hmem)

theorem Plans.store {revision : Nat} {image : Option Image} (hfresh : ∀ h ∈ s.history, h.1 < revision)
    {before seen : Option Nat} {write : Restore} (h : Plans s.history before seen write) :
    Plans (s.store revision image).history before seen write := by
  obtain ⟨r, past, hbefore, hpast, hwrite⟩ := h
  refine ⟨r, past, hbefore, lookup_store hfresh hpast, ?_⟩
  cases write with
  | nothing =>
    obtain ⟨revision', hseen, hlookup⟩ := hwrite
    exact ⟨revision', hseen, lookup_store hfresh hlookup⟩
  | update past' => exact hwrite
  | create past' => exact hwrite
  | delete => exact hwrite

theorem Anchored.store (h : Anchored s) {revision : Nat} {image : Option Image}
    (hfresh : ∀ h ∈ s.history, h.1 < revision) : Anchored (s.store revision image) := by
  refine ⟨fun revision' image' hlive => ?_, fun e he hop => lookup_store hfresh (h.entries e he hop),
    fun c hc hop => lookup_store hfresh (h.claims c hc hop), fun r hr => lookup_store hfresh (h.map r hr),
    fun c hc seen write hstage hop => (h.planned c hc seen write hstage hop).store hfresh, h.log⟩
  obtain ⟨image'', rfl, heq⟩ := Option.map_eq_some_iff.1 hlive
  cases heq
  refine ⟨lookup_store_self, fun h' hmem => ?_⟩
  rcases List.mem_cons.1 hmem with rfl | hmem
  · exact le_rfl
  · exact le_of_lt (hfresh h' hmem)

theorem Anchored.fresh (h : Anchored s) {revision : Nat} {image : Image} (hlive : s.live = some (revision, image)) :
    ∀ h ∈ s.history, h.1 < revision + 1 := fun h' hmem =>
  Nat.lt_succ_of_le ((h.live revision image hlive).2 h' hmem)

theorem Anchored.queue (h : Anchored s) {op : Op} {revision : Nat} {image : Image} {changed : List String}
    (hop : op ≠ .delete → s.history.lookup revision = some (some image)) :
    Anchored (s.queue op revision image changed) := by
  rw [Queue.queue]
  split_ifs
  · exact h
  · refine ⟨h.live, fun e he hne => ?_, h.claims, h.map, h.planned, h.log⟩
    obtain ⟨e', he', rfl⟩ := List.mem_map.1 he
    split_ifs at hne ⊢ with hcoalesces
    · refine hop ?_
      rintro rfl
      exact hne (if_neg fun hand => hand.2 rfl)
    · exact h.entries e' he' hne
  · refine ⟨h.live, fun e he hne => ?_, h.claims, h.map, h.planned, h.log⟩
    rcases List.mem_append.1 he with he | he
    · exact h.entries e he hne
    · rw [List.mem_singleton.1 he] at hne ⊢
      exact hop hne

theorem Anchored.syncOutboxPiece (h : Anchored s) (x : Captured) {op : Op} {revision : Nat} {image : Image}
    {changed : List String} (hop : op ≠ .delete → s.history.lookup revision = some (some image)) :
    Anchored (s.syncOutboxPiece x op revision image changed) := by
  rw [Queue.syncOutboxPiece]
  split_ifs
  · exact h.queue hop
  · exact h

theorem Anchored.commit (h : Anchored s) (x : Captured) (change : Change) (changed : List String) :
    Anchored (s.commit x change changed) := by
  unfold Queue.commit
  split
  · exact (h.store lt_nextRevision).syncOutboxPiece x fun _ => lookup_store_self
  · next hlive => exact (h.store (h.fresh hlive)).syncOutboxPiece x fun _ => lookup_store_self
  · next hlive => exact (h.store (h.fresh hlive)).syncOutboxPiece x fun hop => absurd rfl hop
  · exact h

theorem Anchored.standing (h : Anchored s) (before : Option Image) (changed : List String) :
    Anchored (s.standing before changed) := by
  unfold Queue.standing
  split
  · next hlive => exact h.queue fun _ => (h.live _ _ hlive).1
  · next hlive => exact h.queue fun _ => (h.live _ _ hlive).1
  · exact h.queue fun hop => absurd rfl hop
  · exact h

/-- A change of the entries that leaves operations, revisions and images, and claims that are kept or copied. -/
theorem Anchored.change (h : Anchored s) {entries : List Entry} {claims : List Claim} {now : Nat} {log : List Event}
    (hentries : ∀ e ∈ entries, ∃ e' ∈ s.entries, e.op = e'.op ∧ e.record_revision = e'.record_revision ∧
      e.image = e'.image)
    (hclaims : ∀ c ∈ claims, (∃ c' ∈ s.claims, c.op = c'.op ∧ c.record_revision = c'.record_revision ∧
        c.image = c'.image ∧ c.acked_revision = c'.acked_revision ∧ (c.stage = c'.stage ∨ c.stage = .handed)) ∨
      c.stage = .claimed ∧ ∃ e ∈ s.entries, c.op = e.op ∧ c.record_revision = e.record_revision ∧ c.image = e.image)
    (hlog : Kept log) :
    Anchored { s with entries := entries, claims := claims, now := now, log := log } := by
  refine ⟨h.live, fun e he hop => ?_, fun c hc hop => ?_, h.map, fun c hc seen write hstage hop => ?_, hlog⟩
  · obtain ⟨e', he', hsame, hrevision, himage⟩ := hentries e he
    rw [hrevision, himage]
    exact h.entries e' he' (hsame ▸ hop)
  · rcases hclaims c hc with ⟨c', hc', hsame, hrevision, himage, -⟩ | ⟨-, e, he, hsame, hrevision, himage⟩
    · rw [hrevision, himage]
      exact h.claims c' hc' (hsame ▸ hop)
    · rw [hrevision, himage]
      exact h.entries e he (hsame ▸ hop)
  · rcases hclaims c hc with ⟨c', hc', hsame, -, -, hacked, hkept | hhanded⟩ | ⟨hclaimed, -⟩
    · rw [hacked]
      exact h.planned c' hc' seen write (hkept ▸ hstage) (hsame ▸ hop)
    · rw [hhanded] at hstage
      cases hstage
    · rw [hclaimed] at hstage
      cases hstage

theorem Anchored.claim (h : Anchored s) : Anchored s.claim := by
  rw [Queue.claim]
  cases hfind : s.entries.find? s.due with
  | none => exact h
  | some e =>
    have hmem : e ∈ s.entries := List.mem_of_find?_eq_some hfind
    refine h.change (fun e' he' => ?_) (fun c hc => ?_) h.log
    · obtain ⟨e'', he'', rfl⟩ := List.mem_map.1 he'
      refine ⟨e'', he'', ?_⟩
      split_ifs <;> exact ⟨rfl, rfl, rfl⟩
    · rcases List.mem_append.1 hc with hc | hc
      · exact .inl ⟨c, hc, rfl, rfl, rfl, rfl, .inl rfl⟩
      · rw [List.mem_singleton.1 hc]
        exact .inr ⟨rfl, e, hmem, rfl, rfl, rfl⟩

theorem Anchored.hand (h : Anchored s) (i : Nat) : Anchored (s.hand i) := by
  rw [Queue.hand]
  split
  · exact h
  next c hc =>
  split_ifs
  · exact h
  refine h.change (fun e he => ⟨e, he, rfl, rfl, rfl⟩) (fun c' hc' => ?_) fun event hevent => ?_
  · rcases List.mem_or_eq_of_mem_set hc' with hmem | rfl
    · exact .inl ⟨c', hmem, rfl, rfl, rfl, rfl, .inl rfl⟩
    · exact .inl ⟨c, List.mem_of_getElem? hc, rfl, rfl, rfl, rfl, .inr rfl⟩
  · rcases List.mem_append.1 hevent with hevent | hevent
    · exact h.log event hevent
    · rw [List.mem_singleton.1 hevent]
      rfl

/-- A claim that is done with. -/
theorem Anchored.erase (h : Anchored s) (i : Nat) : Anchored { s with claims := s.claims.eraseIdx i } :=
  h.change (fun e he => ⟨e, he, rfl, rfl, rfl⟩)
    (fun c hc => .inl ⟨c, List.mem_of_mem_eraseIdx hc, rfl, rfl, rfl, rfl, .inl rfl⟩) h.log

/-- The entries under a lease, with another status or another try. -/
theorem settle_same {c : Claim} {f : Entry → Entry} (hf : ∀ e, (f e).op = e.op ∧
    (f e).record_revision = e.record_revision ∧ (f e).image = e.image) :
    ∀ e ∈ s.settle c f, ∃ e' ∈ s.entries, e.op = e'.op ∧ e.record_revision = e'.record_revision ∧ e.image = e'.image := by
  intro e he
  obtain ⟨e', he', rfl⟩ := List.mem_map.1 he
  refine ⟨e', he', ?_⟩
  split_ifs
  · exact hf e'
  · exact ⟨rfl, rfl, rfl⟩

theorem Anchored.outcome (h : Anchored s) {i : Nat} {f : Claim → Queue}
    (hf : ∀ c, s.claims[i]? = some c → s.leased c = true → Anchored { f c with claims := s.claims.eraseIdx i }) :
    Anchored (s.outcome i f) := by
  rw [Queue.outcome]
  split
  · exact h
  next c hc =>
  by_cases hstage : c.stage = .handed
  · rw [if_neg fun hne => hne hstage]
    by_cases hleased : s.leased c = true
    · rw [if_pos hleased]
      exact hf c hc hleased
    · rw [if_neg hleased]
      exact h.erase i
  · rw [if_pos hstage]
    exact h

theorem Anchored.retry (h : Anchored s) (i time : Nat) : Anchored (s.retry i time) := by
  refine h.outcome fun c _ _ => ?_
  refine h.change (settle_same fun e => ?_)
    (fun c hc => .inl ⟨c, List.mem_of_mem_eraseIdx hc, rfl, rfl, rfl, rfl, .inl rfl⟩) h.log
  split_ifs <;> exact ⟨rfl, rfl, rfl⟩

/-- Another row of the id map whose acknowledged revision has what the remote has. -/
theorem Anchored.remap (h : Anchored s) {map : Option Mapped} {remote : Option Image}
    (hmap : ∀ r, map.bind (·.acked_revision) = some r → s.history.lookup r = some remote) :
    Anchored { s with map := map, remote := remote } :=
  ⟨h.live, h.entries, h.claims, hmap, h.planned, h.log⟩

theorem Anchored.ack (h : Anchored s) (i : Nat) (id version : Option String) (newer : String → String → Bool)
    (ha : (Step.act (.ack i id version)).anchored newer s = true) : Anchored (s.ack i id version) := by
  refine h.outcome fun c hc hleased => ?_
  have hanchored : Anchored { s with
      map := s.acknowledged c id version, remote := if c.op = .delete then none else some c.image } := by
    refine h.remap fun r hr => ?_
    rw [Queue.acknowledged] at hr
    by_cases hdelete : c.op = .delete
    · rw [if_pos hdelete] at hr
      cases hr
    · rw [if_neg hdelete] at hr ⊢
      cases hremote : id.or c.remote_id with
      | some remote =>
        rw [hremote] at hr
        obtain rfl := Option.some_inj.1 (show some c.record_revision = some r from hr)
        exact h.claims c (List.mem_of_getElem? hc) hdelete
      | none =>
        rw [hremote] at hr
        obtain ⟨hid, hclaimed⟩ := Option.or_eq_none_iff.1 hremote
        simp only [Step.anchored, hc, Option.all_some, hleased, hid, hclaimed, Option.isSome_none, Bool.not_true,
          hdelete, decide_false, Bool.false_or, Option.isNone_iff_eq_none] at ha
        rw [ha] at hr
        cases hr
  exact hanchored.change (settle_same fun e => ⟨rfl, rfl, rfl⟩)
    (fun c hc => .inl ⟨c, List.mem_of_mem_eraseIdx hc, rfl, rfl, rfl, rfl, .inl rfl⟩) h.log

/-- A plan writes what the acknowledged revision has, where all of it can be restored. -/
theorem plans_rollbackPlan (h : Anchored s) {r : Nat} {image : Image} (hr : s.history.lookup r = some (some image)) :
    Plans s.history (some r) (s.live.map Prod.fst) (s.rollbackPlan (some r) (some image)) := by
  refine ⟨r, image, rfl, hr, ?_⟩
  cases hlive : s.live with
  | none => simp [Queue.rollbackPlan, hlive]
  | some now =>
    obtain ⟨revision, old⟩ := now
    have hold := (h.live revision old hlive).1
    simp only [Queue.rollbackPlan, hlive, Option.map_some]
    split_ifs with hsame hequal
    · exact ⟨revision, rfl, hsame ▸ hr⟩
    · exact ⟨revision, rfl, hequal ▸ hold⟩
    · exact ⟨rfl, rfl⟩

theorem Anchored.plan (h : Anchored s) (i : Nat) (restored : Option Image) (newer : String → String → Bool)
    (ha : (Step.act (.plan i restored)).anchored newer s = true) : Anchored (s.plan i restored) := by
  rw [Queue.plan]
  split
  · exact h
  next c hc =>
  by_cases hstage : c.stage = .handed
  swap
  · rw [if_pos hstage]
    exact h
  rw [if_neg fun hne => hne hstage]
  refine ⟨h.live, h.entries, fun c' hc' hop => ?_, h.map, fun c' hc' seen write hplanned hop => ?_, h.log⟩
  · rcases List.mem_or_eq_of_mem_set hc' with hmem | rfl
    · exact h.claims c' hmem hop
    · exact h.claims c (List.mem_of_getElem? hc) hop
  · rcases List.mem_or_eq_of_mem_set hc' with hmem | rfl
    · exact h.planned c' hmem seen write hplanned hop
    · cases hplanned
      simp only [Step.anchored, hc, Option.all_some, Bool.or_eq_true, decide_eq_true_eq, Bool.and_eq_true,
        Option.any_eq_true] at ha
      obtain ⟨hrestored, r, hr, hlookup⟩ := ha.resolve_left hop
      obtain ⟨image, rfl⟩ := Option.isSome_iff_exists.1 hrestored
      dsimp only
      rw [hr]
      exact plans_rollbackPlan h hlookup

theorem restore_same (write : Restore) : (s.restore write).entries = s.entries ∧
    (s.restore write).claims = s.claims ∧ (s.restore write).map = s.map ∧ (s.restore write).remote = s.remote := by
  unfold Queue.restore
  split <;> exact ⟨rfl, rfl, rfl, rfl⟩

theorem Anchored.restore (h : Anchored s) (write : Restore) : Anchored (s.restore write) := by
  unfold Queue.restore
  split
  · next hlive => exact h.store (h.fresh hlive)
  · next hlive => exact h.store (h.fresh hlive)
  · exact h.store lt_nextRevision
  · exact h

/-- A rollback that goes through leaves the record as the acknowledged revision has it. -/
theorem live_restore (h : Anchored s) {before seen : Option Nat} {write : Restore}
    (hplans : Plans s.history before seen write)
    (hseen : seen = s.live.map Prod.fst) :
    ∃ r image, before = some r ∧ s.history.lookup r = some (some image) ∧
      (s.restore write).live.map Prod.snd = some image := by
  obtain ⟨r, image, hbefore, hlookup, hwrite⟩ := hplans
  refine ⟨r, image, hbefore, hlookup, ?_⟩
  cases write with
  | nothing =>
    obtain ⟨revision, rfl, hpast⟩ := hwrite
    obtain ⟨⟨revision', old⟩, hlive, rfl⟩ := Option.map_eq_some_iff.1 hseen.symm
    have hold := (h.live revision' old hlive).1
    rw [hpast, Option.some_inj, Option.some_inj] at hold
    show s.live.map Prod.snd = some image
    rw [hlive, Option.map_some, hold]
  | update past =>
    obtain ⟨rfl, hsome⟩ := hwrite
    cases hlive : s.live with
    | none =>
      rw [hseen, hlive] at hsome
      cases hsome
    | some now =>
      simp only [Queue.restore, hlive]
      rfl
  | create past =>
    obtain ⟨rfl, hnone⟩ := hwrite
    cases hlive : s.live with
    | none =>
      simp only [Queue.restore, hlive]
      rfl
    | some now =>
      rw [hnone, hlive] at hseen
      cases hseen
  | delete => exact hwrite.elim

theorem Anchored.refuse (h : Anchored s) (i : Nat) (newer : String → String → Bool)
    (ha : (Step.act (.refuse i)).anchored newer s = true) : Anchored (s.refuse i) := by
  rw [Queue.refuse]
  split
  · exact h
  next c hc =>
  split
  swap
  · exact h
  next seen write hstage =>
  by_cases hpass : s.leased c = true ∧ (write = .nothing ∨ seen = s.live.map Prod.fst)
  swap
  · rw [if_neg hpass]
    exact h.erase i
  rw [if_pos hpass]
  obtain ⟨hentries, hclaims, -, -⟩ := restore_same (s := s) write
  refine (h.restore write).change (fun e he => ?_) (fun c hc => ?_) fun event hevent => ?_
  · obtain ⟨e', he', rfl⟩ := List.mem_map.1 he
    refine ⟨e', hentries ▸ he', ?_⟩
    rw [Queue.rolledBack]
    split_ifs <;> exact ⟨rfl, rfl, rfl⟩
  · exact .inl ⟨c, hclaims ▸ List.mem_of_mem_eraseIdx hc, rfl, rfl, rfl, rfl, .inl rfl⟩
  · rcases List.mem_append.1 hevent with hevent | hevent
    · exact h.log event hevent
    rw [List.mem_singleton.1 hevent]
    by_cases hop : c.op = .create
    · exact Bool.or_eq_true_iff.2 (.inl (decide_eq_true hop))
    have hplans := h.planned c (List.mem_of_getElem? hc) seen write hstage hop
    simp only [Step.anchored, hc, Option.all_some, hop, decide_false, Bool.false_or, hpass.1, Bool.not_true,
      Bool.and_eq_true, decide_eq_true_eq, hstage] at ha
    have hseen : seen = s.live.map Prod.fst := by
      rcases hpass.2 with rfl | hseen
      · exact of_decide_eq_true ha.2
      · exact hseen
    -- the acknowledged revision has what the remote has, and the record now has it too
    obtain ⟨r, image, hbefore, hlookup, hlive⟩ := live_restore h hplans hseen
    have hremote : s.remote = some image := by
      have hmap := h.map r (ha.1.trans hbefore)
      rw [hlookup, Option.some_inj] at hmap
      exact hmap.symm
    have hsome : (s.restore write).live.isNone = false := by
      obtain ⟨now, hnow, -⟩ := Option.map_eq_some_iff.1 hlive
      rw [hnow]
      rfl
    simp only [Event.kept, hsome, Bool.and_false, Bool.not_false, hlive, hremote, Option.isSome_some, decide_true,
      Bool.and_self, Bool.or_true]

theorem Anchored.page (h : Anchored s) (newer : String → String → Bool) (rid : String) (version : Option String)
    (row : Option Image) (ha : (Step.page rid version row).anchored newer s = true) :
    Anchored (s.page newer rid version row) := by
  unfold Queue.page
  by_cases hpasses : s.passes newer rid version = true
  · rw [if_pos hpasses]
    exact h
  rw [if_neg hpasses]
  -- a page that writes maps the revision it wrote
  have hwritten : ∀ {revision : Nat} {image : Option Image}, (∀ h ∈ s.history, h.1 < revision) →
      Anchored { s.store revision image with map := s.mark rid version (some revision), remote := image } := by
    intro revision image hfresh
    refine (h.store hfresh).remap fun r hr => ?_
    obtain rfl := Option.some_inj.1 (show some revision = some r from hr)
    exact lookup_store_self
  cases row with
  | none =>
    cases hlive : s.live with
    | some now => exact hwritten (h.fresh hlive)
    | none =>
      dsimp only
      split_ifs with hmap
      · exact h
      · have hmarked : Anchored { s with map := s.mark rid version none, remote := none } := by
          refine h.remap fun r hr => ?_
          have hnone : s.map = none := by simpa using hmap
          rw [Queue.mark, hnone] at hr
          cases hr
        rw [hlive] at hmarked
        exact hmarked
  | some image =>
    simp only [Step.anchored, Bool.eq_false_iff.2 hpasses, Bool.false_or] at ha
    cases hlive : s.live with
    | none =>
      rw [hlive] at ha
      refine hwritten fun h' hmem => ?_
      rw [List.isEmpty_iff.1 ha] at hmem
      cases hmem
    | some now =>
      obtain ⟨revision, old⟩ := now
      dsimp only
      split_ifs with hsame
      · have hmarked : Anchored { s with map := s.mark rid version none, remote := some image } := by
          refine h.remap fun r hr => ?_
          rw [hlive] at ha
          have hacked : s.map.bind (·.acked_revision) = some r := hr
          rw [hacked, Option.all_some, hsame] at ha
          simpa using ha
        rw [hlive] at hmarked
        exact hmarked
      · exact hwritten (h.fresh hlive)

theorem Anchored.step (h : Anchored s) (newer : String → String → Bool) (a : Step)
    (ha : a.anchored newer s = true) : Anchored (a.apply newer s) := by
  cases a with
  | page rid version row => exact h.page newer rid version row ha
  | act a =>
    cases a with
    | tick ms =>
      exact h.change (fun e he => ⟨e, he, rfl, rfl, rfl⟩) (fun c hc => .inl ⟨c, hc, rfl, rfl, rfl, rfl, .inl rfl⟩) h.log
    | commit x change changed => exact h.commit x change changed
    | standing before changed => exact h.standing before changed
    | claim => exact h.claim
    | hand i => exact h.hand i
    | ack i id version => exact h.ack i id version newer ha
    | retry i time => exact h.retry i time
    | plan i restored => exact h.plan i restored newer ha
    | refuse i => exact h.refuse i newer ha
    | crash i => exact h.erase i

theorem anchored_init (start : Option (Option String × Image)) : Anchored (init start) := by
  have hempty : ∀ {s : Queue}, s.entries = [] → s.claims = [] → s.log = [] →
      (∀ revision image, s.live = some (revision, image) →
        s.history.lookup revision = some (some image) ∧ ∀ h ∈ s.history, h.1 ≤ revision) →
      (∀ r, s.map.bind (·.acked_revision) = some r → s.history.lookup r = some s.remote) → Anchored s := by
    intro s hentries hclaims hlog hlive hmap
    refine ⟨hlive, ?_, ?_, hmap, ?_, ?_⟩
    · rw [hentries]
      exact fun e he => absurd he List.not_mem_nil
    · rw [hclaims]
      exact fun c hc => absurd hc List.not_mem_nil
    · rw [hclaims]
      exact fun c hc => absurd hc List.not_mem_nil
    · rw [hlog]
      exact fun event hevent => absurd hevent List.not_mem_nil
  have hfirst : ∀ {image : Image} (revision : Nat) (now : Image), some (1, image) = some (revision, now) →
      [(1, some image)].lookup revision = some (some now) ∧ ∀ h ∈ [(1, some image)], h.1 ≤ revision := by
    intro image revision now heq
    cases heq
    exact ⟨rfl, fun h' hmem => le_of_eq (congrArg Prod.fst (List.mem_singleton.1 hmem))⟩
  match start with
  | none => exact hempty rfl rfl rfl (fun _ _ hlive => by cases hlive) fun _ hr => by cases hr
  | some (none, image) => exact hempty rfl rfl rfl hfirst fun _ hr => by cases hr
  | some (some rid, image) =>
    refine hempty rfl rfl rfl hfirst fun r hr => ?_
    cases hr
    rfl

/-- Where every step keeps the acknowledged revision what the remote has, a refused update or delete leaves the
record as the remote has it, and only a refused create removes it. -/
theorem run_kept (newer : String → String → Bool) (start : Option (Option String × Image)) (steps : List Step)
    (hsteps : Meets (Step.apply newer · ·) (fun s a => a.anchored newer s = true) (init start) steps) :
    Kept (steps.foldl (Step.apply newer · ·) (init start)).log := by
  have hstep : ∀ s (a : Step), Anchored s → a.anchored newer s = true → Anchored (a.apply newer s) :=
    fun s a h ha => h.step newer a ha
  exact (hsteps.invariant hstep (anchored_init start)).log

def ada : Image := ⟨true, "Ada"⟩

def edited : Image := ⟨true, "Ada L."⟩

def directly : Captured := ⟨.direct, false, false⟩

/-- The delivery of one edit, refused. -/
def refusedEdit : List Step :=
  [.act (.commit directly (.update edited) ["name"]), .act .claim, .act (.hand 0), .act (.plan 0 (some ada)), .act (.refuse 0)]

/-- The record is restored as the remote has it. -/
theorem refusedEdit_kept : (refusedEdit.foldl (Step.apply (fun _ _ => true) · ·) (init (some (some "r", ada)))).live =
      some (3, ada) ∧
    Kept (refusedEdit.foldl (Step.apply (fun _ _ => true) · ·) (init (some (some "r", ada)))).log :=
  ⟨by decide, run_kept (fun _ _ => true) (some (some "r", ada)) refusedEdit (by decide)⟩

/-- A record that was there before the sync is adopted as it stands, so no revision of it is acknowledged: its first
refused edit deletes it. -/
theorem adopted_deleted : ¬ ∀ (newer : String → String → Bool) (start : Option (Option String × Image)) (steps : List Step),
    Kept (steps.foldl (Step.apply newer · ·) (init start)).log := by
  intro hall
  have hrun := hall (fun _ _ => true) (some (none, ada)) (.page "r" none (some ada) :: refusedEdit)
  revert hrun
  decide

end Norbital.Bolt.Outbox

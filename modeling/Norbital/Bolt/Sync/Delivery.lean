import Norbital.Bolt.Sync.Refused

/-!
# Delivery of the outbox

The entries of a record under commits, claims, hand-overs, acknowledgements, retries and
rollbacks in any order.  The entries that wait are at most one that was attempted and,
behind it, one that was not; what the remote has, taken through them, is the record.
-/

namespace Norbital.Bolt.Outbox

open Norbital.Lib

def Event.orderly : Event → Bool
  | .handed ordered coherent => ordered && coherent
  | .rolledBack .. => true

/-- The outcomes of the attempt of a claim. -/
def Act.settles (i : Nat) : Act → Bool
  | .ack j _ _ | .retry j _ | .refuse j => i = j
  | _ => false

/-- One entry is sending at most; an entry was handed over only behind none that waits, with an operation that fits
what the remote has; once no entry waits the remote has the record; and the attempt whose lease was taken over
changes no entry and not the id map. -/
structure Delivered (s : Queue) : Prop where
  exclusive : (s.entries.filter fun e => e.status = .sending).length ≤ 1
  orderly : ∀ event ∈ s.log, event.orderly = true
  settled : (∀ e ∈ s.entries, e.status.opened = false) → s.remote = s.live.map Prod.snd
  lost : ∀ i c, s.claims[i]? = some c → s.leased c = false → ∀ a : Act, a.settles i = true →
    (step s a).entries = s.entries ∧ (step s a).map = s.map

/-- Whether a step avoids what breaks the delivery.  A commit is direct or cascades, leaves the record in the instance,
and neither erases it nor finds it held; a request that stands is of a record that was there before it and still is.  A
claim is handed over under its lease, and its entry creates exactly if it began so: no create was merged with a delete
before its first attempt, nor a delete with a create.  A refused claim with no acknowledged revision is of a create, and
an acknowledged revision can be restored in full.  A rollback with nothing to write finds the record as it was planned. -/
def Act.timely (s : Queue) : Act → Bool
  | .commit x change _ =>
    x.effect &&
      match change with
      | .create image | .update image => image.here
      | .delete => true
  | .standing before _ => s.live.isSome == before.isSome
  | .hand i =>
    s.claims[i]?.all fun c =>
      s.entries.any fun e => Queue.Claim.leases c e && decide (e.op = .create) == decide (e.begun = .create)
  | .plan i restored =>
    s.claims[i]?.all fun c =>
      match c.acked_revision with
      | none => c.op = .create
      | some r => restored.isSome && s.history.lookup r = some restored
  | .refuse i =>
    s.claims[i]?.all fun c =>
      match c.stage with
      | .planned seen .nothing => seen = s.live.map Prod.fst
      | _ => true
  | _ => true

def opened (entries : List Entry) : List Entry := entries.filter fun e => e.status.opened

/-- What an entry leaves on the remote. -/
def Entry.leaves (e : Entry) : Option Image := if e.op = .delete then none else some e.image

/-- The waiting entries lead from what the remote has to the record, and each began as a create exactly where there was
nothing. -/
def Chain : Option Image → List Entry → Option Image → Prop
  | remote, [], record => remote = record
  | remote, e :: entries, record => (e.begun = .create ↔ remote = none) ∧ Chain e.leaves entries record

/-- The entries are in their order, and of those that wait only the last may be unattempted. -/
structure Line (entries : List Entry) (next : Nat) : Prop where
  seqs : entries.Pairwise fun a b => a.seq < b.seq
  below : ∀ e ∈ entries, e.seq < next
  waiting : (opened entries).Pairwise fun a b => 0 < a.attempts ∧ b.attempts = 0
  fresh : ∀ e ∈ entries, e.status.opened = true → e.attempts = 0 → e.status = .queued
  sending : ∀ e ∈ entries, e.status = .sending → 0 < e.attempts

variable {entries before after : List Entry} {next : Nat} {e e' : Entry} {remote record : Option Image}

theorem mem_opened : e ∈ opened entries ↔ e ∈ entries ∧ e.status.opened = true := List.mem_filter

theorem opened_append (entries entries' : List Entry) : opened (entries ++ entries') = opened entries ++ opened entries' :=
  List.filter_append entries entries'

theorem opened_cons (h : e.status.opened = true) : opened (e :: entries) = e :: opened entries :=
  List.filter_cons_of_pos h

theorem opened_cons_closed (h : e.status.opened = false) : opened (e :: entries) = opened entries :=
  List.filter_cons_of_neg (by rw [h]; exact Bool.false_ne_true)

theorem Line.unique (h : Line entries next) (he : e ∈ entries) (he' : e' ∈ entries) (hseq : e.seq = e'.seq) : e = e' := by
  have hnodup : (entries.map (·.seq)).Nodup := by
    rw [List.Nodup, List.pairwise_map]
    exact h.seqs.imp fun hlt => Nat.ne_of_lt hlt
  exact List.inj_on_of_nodup_map hnodup he he' hseq

/-- An entry that waits with none waiting before it, and what stands around it. -/
structure Front (entries before : List Entry) (e : Entry) (after : List Entry) : Prop where
  split : entries = before ++ e :: after
  below : ∀ p ∈ before, p.seq < e.seq
  above : ∀ p ∈ after, e.seq < p.seq
  none : opened before = []
  behind : ∀ p ∈ opened after, p.attempts = 0

theorem Line.front (h : Line entries next) (he : e ∈ entries) (hopen : e.status.opened = true)
    (hfirst : 0 < e.attempts ∨ ∀ p ∈ entries, p.seq < e.seq → p.status.opened = false) :
    ∃ before after, Front entries before e after := by
  obtain ⟨before, after, rfl⟩ := List.append_of_mem he
  obtain ⟨-, hcons, hlt⟩ := List.pairwise_append.1 h.seqs
  have hwaiting := h.waiting
  rw [opened_append, opened_cons hopen] at hwaiting
  obtain ⟨-, hwcons, hw⟩ := List.pairwise_append.1 hwaiting
  refine ⟨before, after, rfl, fun p hp => hlt p hp e List.mem_cons_self, (List.pairwise_cons.1 hcons).1, ?_,
    fun p hp => ((List.pairwise_cons.1 hwcons).1 p hp).2⟩
  rw [List.eq_nil_iff_forall_not_mem]
  intro p hp
  rcases hfirst with hpos | hclosed
  · have hzero := (hw p hp e List.mem_cons_self).2
    omega
  · obtain ⟨hmem, hopened⟩ := mem_opened.1 hp
    have hfalse := hclosed p (List.mem_append_left _ hmem) (hlt p hmem e List.mem_cons_self)
    rw [hopened] at hfalse
    cases hfalse

theorem Front.opened (h : Front entries before e after) (hopen : e.status.opened = true) :
    opened entries = e :: opened after := by
  rw [h.split, opened_append, h.none, List.nil_append, opened_cons hopen]

theorem Front.first (h : Front entries before e after) : ∀ p ∈ entries, p.seq < e.seq → p.status.opened = false := by
  intro p hp hlt
  rw [h.split] at hp
  rcases List.mem_append.1 hp with hbefore | hrest
  · refine Bool.eq_false_iff.2 fun hopen => ?_
    have hmem := mem_opened.2 ⟨hbefore, hopen⟩
    rw [h.none] at hmem
    cases hmem
  · rcases List.mem_cons.1 hrest with rfl | hafter
    · exact absurd hlt (lt_irrefl p.seq)
    · have habove := h.above p hafter
      omega

/-- The front entry replaced under its number. -/
theorem Front.replace (h : Front entries before e after) (hline : Line entries next) (hseq : e'.seq = e.seq)
    (hpos : e'.status.opened = true → 0 < e'.attempts) :
    Line (before ++ e' :: after) next := by
  have hold := hline
  rw [h.split] at hold
  obtain ⟨hbefore, hcons, hlt⟩ := List.pairwise_append.1 hold.seqs
  obtain ⟨-, hafter⟩ := List.pairwise_cons.1 hcons
  have hwaiting := hold.waiting
  rw [opened_append, h.none, List.nil_append] at hwaiting
  have hmem : ∀ p ∈ before ++ e' :: after, p = e' ∨ p ∈ before ++ e :: after := by
    intro p hp
    rcases List.mem_append.1 hp with hp | hp
    · exact .inr (List.mem_append_left _ hp)
    · rcases List.mem_cons.1 hp with rfl | hp
      · exact .inl rfl
      · exact .inr (List.mem_append_right _ (List.mem_cons_of_mem e hp))
  refine ⟨?_, fun p hp => ?_, ?_, fun p hp hopen hzero => ?_, fun p hp hsending => ?_⟩
  · refine List.pairwise_append.2 ⟨hbefore, List.pairwise_cons.2 ⟨fun p hp => ?_, hafter⟩, fun p hp q hq => ?_⟩
    · rw [hseq]
      exact h.above p hp
    · rcases List.mem_cons.1 hq with rfl | hq
      · rw [hseq]
        exact h.below p hp
      · exact hlt p hp q (List.mem_cons_of_mem e hq)
  · rcases hmem p hp with rfl | hp
    · rw [hseq]
      exact hold.below e (by simp)
    · exact hold.below p hp
  · rw [opened_append, h.none, List.nil_append]
    have hrest : (Outbox.opened after).Pairwise fun a b => 0 < a.attempts ∧ b.attempts = 0 := by
      cases hopened : e.status.opened with
      | true =>
        rw [opened_cons hopened] at hwaiting
        exact (List.pairwise_cons.1 hwaiting).2
      | false =>
        rw [opened_cons_closed hopened] at hwaiting
        exact hwaiting
    cases hopened : e'.status.opened with
    | true =>
      rw [opened_cons hopened]
      exact List.pairwise_cons.2 ⟨fun p hp => ⟨hpos hopened, h.behind p hp⟩, hrest⟩
    | false =>
      rw [opened_cons_closed hopened]
      exact hrest
  · rcases hmem p hp with rfl | hp
    · have := hpos hopen
      omega
    · exact hold.fresh p hp hopen hzero
  · rcases hmem p hp with rfl | hp
    · exact hpos (by rw [hsending]; rfl)
    · exact hold.sending p hp hsending

/-- A change of the front entry alone. -/
theorem Front.map (h : Front entries before e after) {q : Entry → Prop} [DecidablePred q] {f : Entry → Entry} (he : q e)
    (hq : ∀ p ∈ entries, q p → p.seq = e.seq) :
    (entries.map fun p => if q p then f p else p) = before ++ f e :: after := by
  have hsame : ∀ l : List Entry, (∀ p ∈ l, p ∈ entries ∧ p.seq ≠ e.seq) → (l.map fun p => if q p then f p else p) = l := by
    intro l hl
    calc (l.map fun p => if q p then f p else p)
        = l.map id := List.map_congr_left fun p hp => if_neg fun hqp => (hl p hp).2 (hq p (hl p hp).1 hqp)
      _ = l := List.map_id l
  rw [h.split] at hsame
  rw [h.split, List.map_append, List.map_cons, if_pos he,
    hsame before fun p hp => ⟨List.mem_append_left _ hp, Nat.ne_of_lt (h.below p hp)⟩,
    hsame after fun p hp => ⟨List.mem_append_right _ (List.mem_cons_of_mem e hp), Nat.ne_of_gt (h.above p hp)⟩]

theorem Front.put (h : Front entries before e after) (hseq : e'.seq = e.seq) :
    Front (before ++ e' :: after) before e' after :=
  ⟨rfl, fun p hp => hseq ▸ h.below p hp, fun p hp => hseq ▸ h.above p hp, h.none, h.behind⟩

/-- The front entry closed. -/
theorem Front.closed (h : Front entries before e after) (hclosed : e'.status.opened = false) :
    Outbox.opened (before ++ e' :: after) = Outbox.opened after := by
  rw [opened_append, h.none, List.nil_append, opened_cons_closed hclosed]

/-- Entries changed in neither number, status nor tries. -/
theorem Line.map (h : Line entries next) {f : Entry → Entry} (hseq : ∀ e, (f e).seq = e.seq)
    (hstatus : ∀ e, (f e).status = e.status) (hattempts : ∀ e, (f e).attempts = e.attempts) :
    Line (entries.map f) next ∧ opened (entries.map f) = (opened entries).map f := by
  have hopened : opened (entries.map f) = (opened entries).map f := by
    rw [opened, List.filter_map]
    refine congrArg (List.map f) (List.filter_congr fun e _ => ?_)
    exact congrArg Status.opened (hstatus e)
  refine ⟨⟨?_, fun e he => ?_, ?_, fun e he hopen hzero => ?_, fun e he hsending => ?_⟩, hopened⟩
  · rw [List.pairwise_map]
    exact h.seqs.imp fun hlt => by rwa [hseq, hseq]
  · obtain ⟨e', he', rfl⟩ := List.mem_map.1 he
    rw [hseq]
    exact h.below e' he'
  · rw [hopened, List.pairwise_map]
    exact h.waiting.imp fun hwaits => by rwa [hattempts, hattempts]
  · obtain ⟨e', he', rfl⟩ := List.mem_map.1 he
    rw [hstatus] at hopen ⊢
    rw [hattempts] at hzero
    exact h.fresh e' he' hopen hzero
  · obtain ⟨e', he', rfl⟩ := List.mem_map.1 he
    rw [hstatus] at hsending
    rw [hattempts]
    exact h.sending e' he' hsending

theorem coalesces_iff : Queue.coalesces e = true ↔ e.status = .queued ∧ e.attempts = 0 := by
  rw [Queue.coalesces, Bool.and_eq_true, decide_eq_true_eq, decide_eq_true_eq]

/-- A waiting entry that was never attempted takes the next change. -/
theorem Line.coalesces (h : Line entries next) (he : e ∈ opened entries) :
    Queue.coalesces e = true ↔ e.attempts = 0 := by
  obtain ⟨hmem, hopen⟩ := mem_opened.1 he
  rw [coalesces_iff]
  exact ⟨fun hcoalesces => hcoalesces.2, fun hzero => ⟨h.fresh e hmem hopen hzero, hzero⟩⟩

/-- An entry queued behind those that wait, all of them attempted. -/
theorem Line.append (h : Line entries next) (hany : entries.any Queue.coalesces = false) (hseq : e.seq = next)
    (hstatus : e.status = .queued) (hattempts : e.attempts = 0) : Line (entries ++ [e]) (next + 1) := by
  have hmem : ∀ p ∈ entries ++ [e], p ∈ entries ∨ p = e := by
    intro p hp
    simpa using hp
  refine ⟨?_, fun p hp => ?_, ?_, fun p hp hopen hzero => ?_, fun p hp hsending => ?_⟩
  · refine List.pairwise_append.2 ⟨h.seqs, List.pairwise_singleton _ _, fun p hp q hq => ?_⟩
    rw [List.mem_singleton.1 hq, hseq]
    exact h.below p hp
  · rcases hmem p hp with hp | rfl
    · exact Nat.lt_succ_of_lt (h.below p hp)
    · rw [hseq]
      exact Nat.lt_succ_self next
  · rw [opened_append]
    refine List.pairwise_append.2 ⟨h.waiting, (List.pairwise_singleton _ e).sublist List.filter_sublist, fun p hp q hq => ?_⟩
    rw [List.mem_singleton.1 (mem_opened.1 hq).1]
    refine ⟨Nat.pos_of_ne_zero fun hzero => ?_, hattempts⟩
    have htrue : entries.any Queue.coalesces = true :=
      List.any_eq_true.2 ⟨p, (mem_opened.1 hp).1, (h.coalesces hp).2 hzero⟩
    rw [hany] at htrue
    cases htrue
  · rcases hmem p hp with hp | rfl
    · exact h.fresh p hp hopen hzero
    · exact hstatus
  · rcases hmem p hp with hp | rfl
    · exact h.sending p hp hsending
    · rw [hstatus] at hsending
      cases hsending

theorem chain_append : ∀ {l : List Entry} {remote : Option Image},
    Chain remote (l ++ [e]) record ↔ ∃ between, Chain remote l between ∧ (e.begun = .create ↔ between = none) ∧
      e.leaves = record
  | [], remote => by
    constructor
    · rintro ⟨hbegun, hleaves⟩
      exact ⟨remote, rfl, hbegun, hleaves⟩
    · rintro ⟨between, rfl, hbegun, hleaves⟩
      exact ⟨hbegun, hleaves⟩
  | a :: l, remote => by
    constructor
    · rintro ⟨ha, hrest⟩
      obtain ⟨between, hchain, hbegun, hleaves⟩ := chain_append.1 hrest
      exact ⟨between, ⟨ha, hchain⟩, hbegun, hleaves⟩
    · rintro ⟨between, ⟨ha, hchain⟩, hbegun, hleaves⟩
      exact ⟨ha, chain_append.2 ⟨between, hchain, hbegun, hleaves⟩⟩

theorem mergedOp_delete (op next : Op) : Queue.mergedOp op next = .delete ↔ next = .delete := by
  cases op <;> cases next <;> decide

variable {s s' : Queue}

/-- A change that begins where the waiting entries end is taken in. -/
theorem Line.queue (h : Line s.entries s.next) {between : Option Image}
    (hchain : Chain s.remote (opened s.entries) between) {op : Op} (revision : Nat) {image : Image}
    (changed : List String) (hhere : image.here = true) (hop : op = .create ↔ between = none) :
    Line (s.queue op revision image changed).entries (s.queue op revision image changed).next ∧
      Chain s.remote (opened (s.queue op revision image changed).entries)
        (if op = .delete then none else some image) := by
  rw [Queue.queue, if_neg (by rw [hhere]; decide)]
  by_cases hany : s.entries.any Queue.coalesces = true
  · rw [if_pos hany]
    obtain ⟨hline, hopened⟩ := h.map
      (f := fun e => if Queue.coalesces e then Queue.merge e op revision image changed else e)
      (fun e => by split_ifs <;> rfl) (fun e => by split_ifs <;> rfl) (fun e => by split_ifs <;> rfl)
    refine ⟨hline, ?_⟩
    show Chain s.remote (opened (s.entries.map _)) _
    rw [hopened]
    obtain ⟨e, he, hcoalesces⟩ := List.any_eq_true.1 hany
    have hmem : e ∈ opened s.entries := by
      refine mem_opened.2 ⟨he, ?_⟩
      rw [(coalesces_iff.1 hcoalesces).1]
      rfl
    rcases List.eq_nil_or_concat (opened s.entries) with hnil | ⟨l, last, hconcat⟩
    · rw [hnil] at hmem
      cases hmem
    -- the entry that takes the change is the last that waits
    have hwaiting := h.waiting
    rw [List.concat_eq_append] at hconcat
    rw [hconcat] at hwaiting hmem hchain
    obtain ⟨-, -, hw⟩ := List.pairwise_append.1 hwaiting
    have hbusy : ∀ p ∈ l, Queue.coalesces p = false := by
      intro p hp
      have hpos := (hw p hp last (List.mem_singleton_self last)).1
      refine Bool.eq_false_iff.2 fun htrue => ?_
      have hzero := (coalesces_iff.1 htrue).2
      omega
    have hlast : e = last := by
      rcases List.mem_append.1 hmem with hl | hl
      · have hfalse := hbusy e hl
        rw [hcoalesces] at hfalse
        cases hfalse
      · exact List.mem_singleton.1 hl
    subst hlast
    have hrest : (l.map fun p => if Queue.coalesces p then Queue.merge p op revision image changed else p) = l :=
      calc (l.map fun p => if Queue.coalesces p then Queue.merge p op revision image changed else p)
          = l.map id := List.map_congr_left fun p hp => if_neg (by rw [hbusy p hp]; decide)
        _ = l := List.map_id l
    rw [hconcat, List.map_append, hrest, List.map_singleton, if_pos hcoalesces]
    obtain ⟨start, hstart, hbegun, -⟩ := chain_append.1 hchain
    refine chain_append.2 ⟨start, hstart, hbegun, ?_⟩
    rw [Entry.leaves]
    exact if_congr (mergedOp_delete e.op op) rfl rfl
  · rw [if_neg hany]
    refine ⟨h.append (Bool.eq_false_iff.2 hany) rfl rfl rfl, ?_⟩
    show Chain s.remote (opened (s.entries ++ [_])) _
    rw [opened_append]
    exact chain_append.2 ⟨between, hchain, hop, rfl⟩

/-- A claim against the entries and the id map: until its entry is claimed again, it has the entry as it is, and while
that is sending also the id map's row. -/
structure Current (s : Queue) (c : Claim) : Prop where
  tried : 0 < c.attempts
  below : c.seq < s.next
  last : ∀ e ∈ s.entries, e.seq = c.seq → c.attempts ≤ e.attempts
  same : ∀ e ∈ s.entries, e.seq = c.seq → c.attempts = e.attempts →
    c.op = e.op ∧ c.image = e.image ∧ (c.stage ≠ .claimed → (e.op = .create ↔ e.begun = .create))
  map : ∀ e ∈ s.entries, e.seq = c.seq → c.attempts = e.attempts → e.status = .sending →
    c.remote_id = s.map.map (·.remote_id) ∧ c.acked_revision = s.map.bind (·.acked_revision)
  planned : ∀ seen write, c.stage = .planned seen write → c.acked_revision = none →
    write = .delete ∨ write = .nothing ∧ seen = none

/-- The entries are in line from what the remote has to the record, whose every image is in the instance; and the
record is mapped only where the remote has it. -/
structure Delivers (s : Queue) : Prop where
  anchored : Anchored s
  line : Line s.entries s.next
  chain : Chain s.remote (opened s.entries) (s.live.map Prod.snd)
  here : ∀ h ∈ s.history, ∀ image, h.2 = some image → image.here = true
  mapped : s.map.isSome = true → s.remote.isSome = true
  claims : ∀ c ∈ s.claims, Current s c
  log : ∀ event ∈ s.log, event.orderly = true

/-- An entry after a step: claimed again, or, once attempted, as it was, and while it is sending under the same row of
the id map. -/
def Follows (s s' : Queue) (e e' : Entry) : Prop :=
  e.seq = e'.seq ∧ e.attempts ≤ e'.attempts ∧
    (0 < e.attempts → e.attempts = e'.attempts → e.op = e'.op ∧ e.image = e'.image ∧ e.begun = e'.begun ∧
      (e'.status = .sending → e.status = .sending ∧ s'.map = s.map))

theorem Current.step {c : Claim} (h : Current s c) (hnext : s.next ≤ s'.next)
    (hentries : ∀ e' ∈ s'.entries, e'.seq < s.next → ∃ e ∈ s.entries, Follows s s' e e') : Current s' c := by
  have hback : ∀ e' ∈ s'.entries, e'.seq = c.seq → ∃ e ∈ s.entries, e.seq = c.seq ∧ Follows s s' e e' := by
    intro e' he' hseq
    obtain ⟨e, he, hfollows⟩ := hentries e' he' (hseq ▸ h.below)
    exact ⟨e, he, hfollows.1.trans hseq, hfollows⟩
  -- an entry of the claim's attempt was at that attempt already
  have hsame : ∀ e e', Follows s s' e e' → c.attempts ≤ e.attempts → c.attempts = e'.attempts →
      c.attempts = e.attempts ∧ e.op = e'.op ∧ e.image = e'.image ∧ e.begun = e'.begun ∧
        (e'.status = .sending → e.status = .sending ∧ s'.map = s.map) := by
    intro e e' hfollows hle heq
    have hattempts : c.attempts = e.attempts := by
      have := hfollows.2.1
      omega
    exact ⟨hattempts, hfollows.2.2 (hattempts ▸ h.tried) (hattempts.symm.trans heq)⟩
  refine ⟨h.tried, lt_of_lt_of_le h.below hnext, fun e' he' hseq => ?_, fun e' he' hseq heq => ?_,
    fun e' he' hseq heq hsending => ?_, h.planned⟩
  · obtain ⟨e, he, hclaim, hfollows⟩ := hback e' he' hseq
    exact le_trans (h.last e he hclaim) hfollows.2.1
  · obtain ⟨e, he, hclaim, hfollows⟩ := hback e' he' hseq
    obtain ⟨hattempts, hop, himage, hbegun, -⟩ := hsame e e' hfollows (h.last e he hclaim) heq
    rw [← hop, ← himage, ← hbegun]
    exact h.same e he hclaim hattempts
  · obtain ⟨e, he, hclaim, hfollows⟩ := hback e' he' hseq
    obtain ⟨hattempts, -, -, -, hkept⟩ := hsame e e' hfollows (h.last e he hclaim) heq
    obtain ⟨hsent, hmap⟩ := hkept hsending
    rw [hmap]
    exact h.map e he hclaim hattempts hsent

theorem Follows.refl (hmap : s'.map = s.map) (e : Entry) : Follows s s' e e :=
  ⟨rfl, le_rfl, fun _ _ => ⟨rfl, rfl, rfl, fun hsending => ⟨hsending, hmap⟩⟩⟩

theorem queue_same (op : Op) (revision : Nat) (image : Image) (changed : List String) :
    (s.queue op revision image changed).live = s.live ∧ (s.queue op revision image changed).history = s.history ∧
      (s.queue op revision image changed).map = s.map ∧ (s.queue op revision image changed).claims = s.claims ∧
      (s.queue op revision image changed).remote = s.remote ∧ (s.queue op revision image changed).log = s.log := by
  rw [Queue.queue]
  split_ifs <;> exact ⟨rfl, rfl, rfl, rfl, rfl, rfl⟩

theorem queue_next (op : Op) (revision : Nat) (image : Image) (changed : List String) :
    s.next ≤ (s.queue op revision image changed).next := by
  rw [Queue.queue]
  split_ifs
  · exact le_rfl
  · exact le_rfl
  · exact Nat.le_succ s.next

/-- A change is merged only into an entry that was never attempted. -/
theorem queue_follows (op : Op) (revision : Nat) (image : Image) (changed : List String) :
    ∀ e' ∈ (s.queue op revision image changed).entries, e'.seq < s.next →
      ∃ e ∈ s.entries, Follows s (s.queue op revision image changed) e e' := by
  have hmap := (queue_same (s := s) op revision image changed).2.2.1
  intro e' he' hlt
  rw [Queue.queue] at he'
  split_ifs at he'
  · exact ⟨e', he', .refl hmap e'⟩
  · obtain ⟨e, he, rfl⟩ := List.mem_map.1 he'
    refine ⟨e, he, ?_⟩
    by_cases hcoalesces : Queue.coalesces e = true
    · rw [if_pos hcoalesces]
      refine ⟨rfl, le_rfl, fun hpos _ => ?_⟩
      have hzero := (coalesces_iff.1 hcoalesces).2
      omega
    · rw [if_neg hcoalesces]
      exact .refl hmap e
  · rcases List.mem_append.1 he' with he' | he'
    · exact ⟨e', he', .refl hmap e'⟩
    · rw [List.mem_singleton.1 he'] at hlt
      exact absurd hlt (lt_irrefl s.next)

/-- A change of the record, stored and queued. -/
theorem Delivers.change (h : Delivers s) {op : Op} {revision : Nat} {image : Image} {stored : Option Image}
    {changed : List String} (hhere : image.here = true) (hop : op = .create ↔ s.live = none)
    (hstored : stored = if op = .delete then none else some image)
    (hanchored : Anchored ((s.store revision stored).queue op revision image changed)) :
    Delivers ((s.store revision stored).queue op revision image changed) := by
  obtain ⟨hlive, hhistory, hmap, hclaims, hremote, hlog⟩ :=
    queue_same (s := s.store revision stored) op revision image changed
  have hstore : Line (s.store revision stored).entries (s.store revision stored).next := h.line
  have hchain : Chain (s.store revision stored).remote (opened (s.store revision stored).entries)
      (s.live.map Prod.snd) := h.chain
  obtain ⟨hline, hqueued⟩ := hstore.queue hchain revision changed hhere
    (hop.trans Option.map_eq_none_iff.symm)
  refine ⟨hanchored, hline, ?_, fun h' hmem image' himage => ?_, fun hmapped => ?_, fun c hc => ?_, fun event hevent => ?_⟩
  · rw [hlive, hremote]
    have hrecord : ((s.store revision stored).live.map Prod.snd) = stored := by
      show ((stored.map (revision, ·)).map Prod.snd) = stored
      rw [Option.map_map]
      exact Option.map_id'
    rw [← hstored] at hqueued
    rw [hrecord]
    exact hqueued
  · rw [hhistory] at hmem
    rcases List.mem_cons.1 hmem with rfl | hmem
    · have hsome : stored = some image' := himage
      rw [hstored] at hsome
      split_ifs at hsome
      rw [← Option.some_inj.1 hsome]
      exact hhere
    · exact h.here h' hmem image' himage
  · rw [hmap] at hmapped
    rw [hremote]
    exact h.mapped hmapped
  · rw [hclaims] at hc
    exact (h.claims c hc).step (queue_next (s := s.store revision stored) op revision image changed)
      (queue_follows (s := s.store revision stored) op revision image changed)
  · rw [hlog] at hevent
    exact h.log event hevent

theorem Delivers.live_here (h : Delivers s) {revision : Nat} {image : Image} (hlive : s.live = some (revision, image)) :
    image.here = true :=
  h.here _ (mem_of_lookup (h.anchored.live revision image hlive).1) image rfl

theorem Delivers.commit (h : Delivers s) (x : Captured) (change : Change) (changed : List String)
    (ha : (Act.commit x change changed).timely s = true) : Delivers (s.commit x change changed) := by
  have hanchored := h.anchored.commit x change changed
  obtain ⟨heffect, hhere⟩ := Bool.and_eq_true_iff.1 ha
  simp only [Queue.commit, Queue.syncOutboxPiece, if_pos heffect] at hanchored ⊢
  cases hlive : s.live with
  | none =>
    cases change with
    | create image =>
      simp only [hlive] at hanchored ⊢
      refine h.change hhere ?_ rfl hanchored
      exact iff_of_true rfl hlive
    | update image => exact h
    | delete => exact h
  | some now =>
    obtain ⟨revision, old⟩ := now
    cases change with
    | create image => exact h
    | update image =>
      simp only [hlive] at hanchored ⊢
      refine h.change hhere ?_ rfl hanchored
      rw [hlive]
      exact iff_of_false (by decide) (by simp)
    | delete =>
      simp only [hlive] at hanchored ⊢
      refine h.change (h.live_here hlive) ?_ rfl hanchored
      rw [hlive]
      exact iff_of_false (by decide) (by simp)

/-- A record that stands as it was sent is sent again as it is. -/
theorem Delivers.standing (h : Delivers s) (before : Option Image) (changed : List String)
    (ha : (Act.standing before changed).timely s = true) : Delivers (s.standing before changed) := by
  have hanchored := h.anchored.standing before changed
  unfold Queue.standing at hanchored ⊢
  cases hlive : s.live with
  | none =>
    cases before with
    | none => exact h
    | some old => simp [Act.timely, hlive] at ha
  | some now =>
    obtain ⟨revision, image⟩ := now
    cases before with
    | none => simp [Act.timely, hlive] at ha
    | some old =>
      simp only [hlive] at hanchored ⊢
      obtain ⟨hsame, hhistory, hmap, hclaims, hremote, hlog⟩ := queue_same (s := s) .update revision image changed
      have hchain := h.chain
      rw [hlive] at hchain
      have hop : Op.update = .create ↔ some image = none := iff_of_false (by decide) (by simp)
      obtain ⟨hline, hqueued⟩ := h.line.queue hchain revision changed (h.live_here hlive) hop
      refine ⟨hanchored, hline, ?_, fun h' hmem => h.here h' (hhistory ▸ hmem), fun hmapped => ?_, fun c hc => ?_,
        fun event hevent => h.log event (hlog ▸ hevent)⟩
      · rw [hsame, hremote, hlive]
        exact hqueued
      · rw [hmap] at hmapped
        rw [hremote]
        exact h.mapped hmapped
      · rw [hclaims] at hc
        exact (h.claims c hc).step (queue_next .update revision image changed)
          (queue_follows .update revision image changed)

theorem Delivers.claim (h : Delivers s) : Delivers s.claim := by
  have hanchored := h.anchored.claim
  rw [Queue.claim] at hanchored ⊢
  cases hfind : s.entries.find? s.due with
  | none => exact h
  | some e =>
    rw [hfind] at hanchored
    have hmem : e ∈ s.entries := List.mem_of_find?_eq_some hfind
    have hdue : s.due e = true := List.find?_some hfind
    simp only [Queue.due, Bool.and_eq_true, Bool.or_eq_true, decide_eq_true_eq] at hdue
    have hopen : e.status.opened = true := by
      rcases hdue.1 with ⟨hstatus, -⟩ | ⟨hstatus, -⟩ <;> rw [hstatus] <;> rfl
    obtain ⟨before, after, hfront⟩ := h.line.front hmem hopen (.inr fun p hp hlt => by
      have hordered := List.all_eq_true.1 hdue.2 p hp
      simpa [hlt] using hordered)
    have hentries : (s.entries.map fun e' => if e'.seq = e.seq then s.takes e' else e') = before ++ s.takes e :: after :=
      hfront.map (q := fun e' => e'.seq = e.seq) rfl fun _ _ hseq => hseq
    have hline : Line (before ++ s.takes e :: after) s.next :=
      hfront.replace h.line rfl fun _ => Nat.succ_pos e.attempts
    have htaken : Front (before ++ s.takes e :: after) before (s.takes e) after := hfront.put rfl
    have hchain := h.chain
    rw [hfront.opened hopen] at hchain
    -- the entry stays first of those that wait; older claims of it have fewer attempts now
    refine ⟨hanchored, ?_, ?_, h.here, h.mapped, fun c hc => ?_, h.log⟩
    · dsimp only
      rw [hentries]
      exact hline
    · dsimp only
      rw [hentries, htaken.opened rfl]
      exact hchain
    · rcases List.mem_append.1 hc with hc | hc
      · refine (h.claims c hc).step le_rfl fun e' he' _ => ?_
        obtain ⟨p, hp, rfl⟩ := List.mem_map.1 he'
        refine ⟨p, hp, ?_⟩
        by_cases hseq : p.seq = e.seq
        · rw [if_pos hseq]
          refine ⟨rfl, Nat.le_succ p.attempts, fun _ heq => ?_⟩
          exact absurd heq (Nat.ne_of_lt (Nat.lt_succ_self p.attempts))
        · rw [if_neg hseq]
          exact .refl rfl p
      · rw [List.mem_singleton.1 hc]
        have hunique : ∀ p ∈ before ++ s.takes e :: after, p.seq = e.seq → p = s.takes e := by
          intro p hp hseq
          exact hline.unique hp (List.mem_append_right _ List.mem_cons_self) hseq
        refine ⟨Nat.succ_pos e.attempts, h.line.below e hmem, fun p hp hseq => ?_, fun p hp hseq _ => ?_,
          fun p hp hseq _ _ => ⟨rfl, rfl⟩, fun seen write hstage => by cases hstage⟩
        · rw [hunique p (hentries ▸ hp) hseq]
          exact le_rfl
        · rw [hunique p (hentries ▸ hp) hseq]
          exact ⟨rfl, rfl, fun hne => absurd rfl hne⟩

/-- A claim whose lease holds has its entry as the first that waits. -/
theorem Delivers.leased (h : Delivers s) {c : Claim} {e : Entry} (he : e ∈ s.entries)
    (hleases : Queue.Claim.leases c e = true) :
    e.seq = c.seq ∧ c.attempts = e.attempts ∧ e.status = .sending ∧ ∃ before after, Front s.entries before e after := by
  simp only [Queue.Claim.leases, Bool.and_eq_true, decide_eq_true_eq] at hleases
  obtain ⟨⟨⟨hseq, hstatus⟩, hattempts⟩, -⟩ := hleases
  refine ⟨hseq, hattempts.symm, hstatus, h.line.front he ?_ (.inl (h.line.sending e he hstatus))⟩
  rw [hstatus]
  rfl

theorem Delivers.hand (h : Delivers s) (i : Nat) (ha : (Act.hand i).timely s = true) : Delivers (s.hand i) := by
  have hanchored := h.anchored.hand i
  rw [Queue.hand] at hanchored ⊢
  cases hc : s.claims[i]? with
  | none => exact h
  | some c =>
    rw [hc] at hanchored
    dsimp only at hanchored ⊢
    by_cases hstage : c.stage = .claimed
    swap
    · rw [if_pos hstage]
      exact h
    rw [if_neg fun hne => hne hstage] at hanchored ⊢
    have hclaim := h.claims c (List.mem_of_getElem? hc)
    simp only [Act.timely, hc, Option.all_some, List.any_eq_true, Bool.and_eq_true, beq_iff_eq, decide_eq_decide] at ha
    obtain ⟨e, he, hleases, hbegun⟩ := ha
    obtain ⟨hseq, hattempts, hstatus, before, after, hfront⟩ := h.leased he hleases
    obtain ⟨hop, himage, -⟩ := hclaim.same e he hseq hattempts
    refine ⟨hanchored, h.line, h.chain, h.here, h.mapped, fun c' hc' => ?_, fun event hevent => ?_⟩
    · rcases List.mem_or_eq_of_mem_set hc' with hmem | rfl
      · exact (h.claims c' hmem).step le_rfl fun p hp _ => ⟨p, hp, .refl rfl p⟩
      · refine ⟨hclaim.tried, hclaim.below, hclaim.last, fun p hp hpseq _ => ?_, hclaim.map,
          fun seen write hplanned => by cases hplanned⟩
        rw [h.line.unique hp he (hpseq.trans hseq.symm)]
        exact ⟨hop, himage, fun _ => hbegun⟩
    · rcases List.mem_append.1 hevent with hevent | hevent
      · exact h.log event hevent
      rw [List.mem_singleton.1 hevent]
      -- the leased entry is the first that waits, so the chain says whether the remote has its record
      have hchain := h.chain
      rw [hfront.opened (by rw [hstatus]; rfl)] at hchain
      have hcoherent : c.op = .create ↔ s.remote = none := by
        rw [hop, hbegun]
        exact hchain.1
      have hordered : s.ordered c.seq = true := by
        refine List.all_eq_true.2 fun p hp => ?_
        rw [← hseq, Bool.not_eq_true', Bool.and_eq_false_iff]
        by_cases hlt : p.seq < e.seq
        · exact .inr (hfront.first p hp hlt)
        · exact .inl (decide_eq_false hlt)
      rw [Event.orderly, hordered, Bool.true_and, beq_iff_eq, Bool.eq_iff_iff, decide_eq_true_eq,
        Option.isNone_iff_eq_none]
      exact hcoherent

/-- A claim that is done with. -/
theorem Delivers.erase (h : Delivers s) (i : Nat) : Delivers { s with claims := s.claims.eraseIdx i } := by
  refine ⟨h.anchored.erase i, h.line, h.chain, h.here, h.mapped, fun c hc => ?_, h.log⟩
  exact (h.claims c (List.mem_of_mem_eraseIdx hc)).step le_rfl fun e he _ => ⟨e, he, .refl rfl e⟩

theorem Delivers.tick (h : Delivers s) (ms : Nat) : Delivers { s with now := s.now + ms } := by
  refine ⟨?_, h.line, h.chain, h.here, h.mapped, fun c hc => ?_, h.log⟩
  · exact h.anchored.change (fun e he => ⟨e, he, rfl, rfl, rfl⟩) (fun c hc => .inl ⟨c, hc, rfl, rfl, rfl, rfl, .inl rfl⟩)
      h.anchored.log
  · exact (h.claims c hc).step le_rfl fun e he _ => ⟨e, he, .refl rfl e⟩

theorem Delivers.outcome (h : Delivers s) {i : Nat} {f : Claim → Queue}
    (hf : ∀ c, s.claims[i]? = some c → c.stage = .handed → ∀ e ∈ s.entries, Queue.Claim.leases c e = true →
      Delivers { f c with claims := s.claims.eraseIdx i }) :
    Delivers (s.outcome i f) := by
  rw [Queue.outcome]
  cases hc : s.claims[i]? with
  | none => exact h
  | some c =>
    dsimp only
    by_cases hstage : c.stage = .handed
    · rw [if_neg fun hne => hne hstage]
      by_cases hleased : s.leased c = true
      · rw [if_pos hleased]
        obtain ⟨e, he, hleases⟩ := List.any_eq_true.1 hleased
        exact hf c hc hstage e he hleases
      · rw [if_neg hleased]
        exact h.erase i
    · rw [if_pos hstage]
      exact h

/-- The entry under the claim's lease is the first that waits. -/
theorem Front.settle {c : Claim} (h : Front s.entries before e after) (hleases : Queue.Claim.leases c e = true)
    (f : Entry → Entry) : s.settle c f = before ++ f e :: after := by
  have hseq : ∀ p, Queue.Claim.leases c p = true → p.seq = c.seq := by
    intro p hp
    simp only [Queue.Claim.leases, Bool.and_eq_true, decide_eq_true_eq] at hp
    exact hp.1.1.1
  exact h.map (q := fun p => Queue.Claim.leases c p = true) hleases fun p _ hp => (hseq p hp).trans (hseq e hleases).symm

/-- The claims where the front entry takes another status under the same number and attempt. -/
theorem Current.settle {c c' : Claim} (h : Current s c') {f : Entry → Entry} (hf : ∀ e, Follows s s' e (f e))
    (hnext : s'.next = s.next) (hentries : s'.entries = s.settle c f)
    (hidle : s'.map = s.map ∨ ∀ e ∈ s'.entries, e.status ≠ .sending) : Current s' c' := by
  refine h.step (le_of_eq hnext.symm) fun e' he' _ => ?_
  have hsettled := he'
  rw [hentries] at hsettled
  obtain ⟨e, he, rfl⟩ := List.mem_map.1 hsettled
  refine ⟨e, he, ?_⟩
  by_cases hleases : Queue.Claim.leases c e = true
  · rw [if_pos hleases]
    exact hf e
  · rw [if_neg hleases] at he' ⊢
    rcases hidle with hmap | hidle
    · exact .refl hmap e
    · exact ⟨rfl, le_rfl, fun _ _ => ⟨rfl, rfl, rfl, fun hsending => absurd hsending (hidle e he')⟩⟩

theorem leases_of_leased {c : Claim} (h : Queue.Claim.leases c e = true) (he : e ∈ s.entries) : s.leased c = true :=
  List.any_eq_true.2 ⟨e, he, h⟩

/-- An acknowledged create or update is mapped, or its claim found no row and there still is none. -/
theorem Delivers.mapped_ack (h : Delivers s) {c : Claim} (hc : c ∈ s.claims) (he : e ∈ s.entries)
    (hleases : Queue.Claim.leases c e = true) : c.remote_id = s.map.map (·.remote_id) ∧
      c.acked_revision = s.map.bind (·.acked_revision) := by
  obtain ⟨hseq, hattempts, hstatus, -⟩ := h.leased he hleases
  exact (h.claims c hc).map e he hseq hattempts hstatus

theorem Delivers.ack (h : Delivers s) (i : Nat) (id version : Option String) : Delivers (s.ack i id version) := by
  have hanchored : Anchored (s.ack i id version) := by
    refine h.anchored.ack i id version (fun _ _ => true) ?_
    cases hc : s.claims[i]? with
    | none => simp [Step.anchored, hc]
    | some c =>
      cases hleased : s.leased c with
      | false => simp [Step.anchored, hc, hleased]
      | true =>
        obtain ⟨e, he, hleases⟩ := List.any_eq_true.1 hleased
        have hid := (h.mapped_ack (List.mem_of_getElem? hc) he hleases).1
        cases hmap : s.map <;> simp [Step.anchored, hc, hid, hmap]
  rw [Queue.ack, Queue.outcome] at hanchored
  refine h.outcome fun c hc hstage e he hleases => ?_
  rw [hc] at hanchored
  dsimp only at hanchored
  rw [if_neg fun hne => hne hstage, if_pos (leases_of_leased hleases he)] at hanchored
  obtain ⟨hseq, hattempts, hstatus, before, after, hfront⟩ := h.leased he hleases
  have hclaim := h.claims c (List.mem_of_getElem? hc)
  obtain ⟨hop, himage, -⟩ := hclaim.same e he hseq hattempts
  have hentries := hfront.settle hleases fun e => { e with status := .acked }
  have hline : Line (before ++ { e with status := Status.acked } :: after) s.next :=
    hfront.replace h.line rfl fun hopen => by cases hopen
  have hclosed : opened (before ++ { e with status := Status.acked } :: after) = opened after := hfront.closed rfl
  -- what still waits is behind it and unattempted, so nothing is sending
  have hidle : ∀ p ∈ before ++ { e with status := Status.acked } :: after, p.status ≠ .sending := by
    intro p hp hsending
    have hmem : p ∈ opened after := by
      rw [← hclosed]
      exact mem_opened.2 ⟨hp, by rw [hsending]; rfl⟩
    have hpos := hline.sending p hp hsending
    have hzero := hfront.behind p hmem
    omega
  refine ⟨hanchored, ?_, ?_, h.here, fun hmapped => ?_, fun c' hc' => ?_, h.log⟩
  · dsimp only
    rw [hentries]
    exact hline
  · dsimp only
    have hchain := h.chain
    rw [hfront.opened (by rw [hstatus]; rfl)] at hchain
    rw [hentries, hclosed, hop, himage]
    exact hchain.2
  · dsimp only at hmapped ⊢
    rw [Queue.acknowledged] at hmapped
    by_cases hdelete : c.op = .delete
    · rw [if_pos hdelete] at hmapped
      cases hmapped
    · rw [if_neg hdelete]
      rfl
  · refine (h.claims c' (List.mem_of_mem_eraseIdx hc')).settle (c := c) (f := fun e => { e with status := .acked })
      (fun e => ⟨rfl, le_rfl, fun _ _ => ⟨rfl, rfl, rfl, fun hsending => by cases hsending⟩⟩) rfl rfl (.inr ?_)
    dsimp only
    rw [hentries]
    exact hidle

theorem Delivers.retry (h : Delivers s) (i time : Nat) : Delivers (s.retry i time) := by
  have hanchored := h.anchored.retry i time
  rw [Queue.retry, Queue.outcome] at hanchored
  refine h.outcome fun c hc hstage e he hleases => ?_
  rw [hc] at hanchored
  dsimp only at hanchored
  rw [if_neg fun hne => hne hstage, if_pos (leases_of_leased hleases he)] at hanchored
  obtain ⟨hseq, hattempts, hstatus, before, after, hfront⟩ := h.leased he hleases
  have hclaim := h.claims c (List.mem_of_getElem? hc)
  let f : Entry → Entry := fun e =>
    if Queue.ATTEMPTS ≤ c.attempts then { e with status := .dead }
    else { e with status := .queued, next_attempt_at := time }
  have hsame : ∀ p, (f p).seq = p.seq ∧ (f p).attempts = p.attempts ∧ (f p).op = p.op ∧ (f p).image = p.image ∧
      (f p).begun = p.begun ∧ (f p).status.opened = true ∧ (f p).status ≠ .sending := by
    intro p
    by_cases hlast : Queue.ATTEMPTS ≤ c.attempts
    · simp [f, hlast, Status.opened]
    · simp [f, hlast, Status.opened]
  have hentries : s.settle c f = before ++ f e :: after := hfront.settle hleases f
  refine ⟨hanchored, ?_, ?_, h.here, h.mapped, fun c' hc' => ?_, h.log⟩
  · show Line (s.settle c f) s.next
    rw [hentries]
    refine hfront.replace h.line (hsame e).1 fun _ => ?_
    rw [(hsame e).2.1]
    exact h.line.sending e he hstatus
  · show Chain s.remote (opened (s.settle c f)) (s.live.map Prod.snd)
    have hchain := h.chain
    rw [hfront.opened (by rw [hstatus]; rfl)] at hchain
    rw [hentries, (hfront.put (hsame e).1).opened (hsame e).2.2.2.2.2.1]
    obtain ⟨-, -, hop, himage, hbegun, -⟩ := hsame e
    refine ⟨hbegun ▸ hchain.1, ?_⟩
    rw [Entry.leaves, hop, himage]
    exact hchain.2
  · refine (h.claims c' (List.mem_of_mem_eraseIdx hc')).settle (c := c) (f := f) (fun p => ?_) rfl rfl (.inl rfl)
    obtain ⟨hpseq, hpattempts, hpop, hpimage, hpbegun, -, hpsending⟩ := hsame p
    exact ⟨hpseq.symm, le_of_eq hpattempts.symm, fun _ _ =>
      ⟨hpop.symm, hpimage.symm, hpbegun.symm, fun hsending => absurd hsending hpsending⟩⟩

theorem rollbackPlan_none (s : Queue) (restored : Option Image) :
    s.rollbackPlan none restored = .delete ∨
      s.rollbackPlan none restored = .nothing ∧ s.live.map Prod.fst = none := by
  cases hlive : s.live with
  | none => exact .inr ⟨by simp only [Queue.rollbackPlan, hlive], rfl⟩
  | some now => exact .inl (by simp only [Queue.rollbackPlan, hlive])

theorem Delivers.plan (h : Delivers s) (i : Nat) (restored : Option Image)
    (ha : (Act.plan i restored).timely s = true) : Delivers (s.plan i restored) := by
  have hanchored : Anchored (s.plan i restored) := by
    refine h.anchored.plan i restored (fun _ _ => true) ?_
    cases hc : s.claims[i]? with
    | none => simp [Step.anchored, hc]
    | some c =>
      simp only [Act.timely, hc, Option.all_some] at ha
      cases hacked : c.acked_revision with
      | none =>
        rw [hacked] at ha
        simp only [Step.anchored, hc, Option.all_some, ha, Bool.true_or]
      | some r =>
        rw [hacked] at ha
        simp only [Step.anchored, hc, Option.all_some, hacked, Option.any_some, ha, Bool.or_true]
  rw [Queue.plan] at hanchored ⊢
  cases hc : s.claims[i]? with
  | none => exact h
  | some c =>
    rw [hc] at hanchored
    dsimp only at hanchored ⊢
    by_cases hstage : c.stage = .handed
    swap
    · rw [if_pos hstage]
      exact h
    rw [if_neg fun hne => hne hstage] at hanchored ⊢
    have hclaim := h.claims c (List.mem_of_getElem? hc)
    refine ⟨hanchored, h.line, h.chain, h.here, h.mapped, fun c' hc' => ?_, h.log⟩
    rcases List.mem_or_eq_of_mem_set hc' with hmem | rfl
    · exact (h.claims c' hmem).step le_rfl fun p hp _ => ⟨p, hp, .refl rfl p⟩
    · refine ⟨hclaim.tried, hclaim.below, hclaim.last, fun p hp hseq hattempts => ?_, hclaim.map,
        fun seen write hplanned hacked => ?_⟩
      · obtain ⟨hop, himage, hbegun⟩ := hclaim.same p hp hseq hattempts
        exact ⟨hop, himage, fun _ => hbegun (by rw [hstage]; decide)⟩
      · cases hplanned
        have hacked' : c.acked_revision = none := hacked
        rw [hacked']
        exact rollbackPlan_none s restored

theorem restore_next (write : Restore) : (s.restore write).next = s.next ∧ (s.restore write).log = s.log := by
  unfold Queue.restore
  split <;> exact ⟨rfl, rfl⟩

theorem Delivers.restore_here (h : Delivers s) {write : Restore}
    (hwrite : ∀ past, write = .update past ∨ write = .create past → past.here = true) :
    ∀ h ∈ (s.restore write).history, ∀ image, h.2 = some image → image.here = true := by
  have hstore : ∀ {revision : Nat} {stored : Option Image}, (∀ past, stored = some past → past.here = true) →
      ∀ h ∈ (s.store revision stored).history, ∀ image, h.2 = some image → image.here = true := by
    intro revision stored hstored h' hmem image himage
    rcases List.mem_cons.1 hmem with rfl | hmem
    · exact hstored image himage
    · exact h.here h' hmem image himage
  unfold Queue.restore
  split
  · exact hstore fun past hpast => by cases hpast
  · exact hstore fun past hpast => hwrite past (.inl (Option.some_inj.1 hpast ▸ rfl))
  · exact hstore fun past hpast => hwrite past (.inr (Option.some_inj.1 hpast ▸ rfl))
  · exact h.here

/-- The record after the rollback of the first entry that waits is as the remote has it. -/
theorem Delivers.restored (h : Delivers s) {c : Claim} {e : Entry} (hc : c ∈ s.claims) (he : e ∈ s.entries)
    (hleases : Queue.Claim.leases c e = true) {seen : Option Nat} {write : Restore}
    (hstage : c.stage = .planned seen write) (hseen : seen = s.live.map Prod.fst) :
    s.remote = (s.restore write).live.map Prod.snd ∧
      ∀ h ∈ (s.restore write).history, ∀ image, h.2 = some image → image.here = true := by
  obtain ⟨hseq, hattempts, hstatus, before, after, hfront⟩ := h.leased he hleases
  have hacked := (h.mapped_ack hc he hleases).2
  obtain ⟨hop, himage, hbegun⟩ := (h.claims c hc).same e he hseq hattempts
  by_cases hcreate : c.op = .create
  · -- the remote has nothing of a refused create, so nothing is acknowledged of it
    have hchain := h.chain
    rw [hfront.opened (by rw [hstatus]; rfl)] at hchain
    have hremote : s.remote = none :=
      hchain.1.1 ((hbegun (by rw [hstage]; exact fun heq => by cases heq)).1 (hop ▸ hcreate))
    have hmap : s.map = none := by
      refine Option.not_isSome_iff_eq_none.1 fun hsome => ?_
      have hmapped := h.mapped hsome
      rw [hremote] at hmapped
      cases hmapped
    rw [hmap] at hacked
    rw [hremote]
    rcases (h.claims c hc).planned seen write hstage hacked with rfl | ⟨rfl, hnone⟩
    · refine ⟨?_, h.restore_here fun past hpast => by rcases hpast with hpast | hpast <;> cases hpast⟩
      cases hlive : s.live <;> simp [Queue.restore, hlive, Queue.store]
    · refine ⟨?_, h.restore_here fun past hpast => by rcases hpast with hpast | hpast <;> cases hpast⟩
      rw [hseen] at hnone
      have hlive := Option.map_eq_none_iff.1 hnone
      simp only [Queue.restore, hlive, Option.map_none]
  · -- of anything else the acknowledged revision is restored, which is what the remote has
    have hplans := h.anchored.planned c hc seen write hstage hcreate
    obtain ⟨r, image, hbefore, hlookup, hlive⟩ := live_restore h.anchored hplans hseen
    have hremote := h.anchored.map r (hacked.symm.trans hbefore)
    rw [hlookup, Option.some_inj] at hremote
    refine ⟨hremote.symm.trans hlive.symm, h.restore_here fun past hpast => ?_⟩
    have hhere : image.here = true := h.here _ (mem_of_lookup hlookup) image rfl
    obtain ⟨r', image', hbefore', hlookup', hwrite⟩ := hplans
    obtain rfl := Option.some_inj.1 (hbefore.symm.trans hbefore')
    obtain rfl := Option.some_inj.1 (Option.some_inj.1 (hlookup.symm.trans hlookup'))
    rcases hpast with rfl | rfl
    · rw [hwrite.1]
      exact hhere
    · rw [hwrite.1]
      exact hhere

/-- No entry of the record waits once a rollback went through. -/
theorem Delivers.rolledBack (h : Delivers s) {c : Claim} {e : Entry} (he : e ∈ s.entries)
    (hleases : Queue.Claim.leases c e = true) : opened (s.entries.map (Queue.rolledBack c.seq)) = [] := by
  obtain ⟨-, -, hstatus, before, after, hfront⟩ := h.leased he hleases
  rw [List.eq_nil_iff_forall_not_mem]
  intro p hp
  obtain ⟨hmem, hopen⟩ := mem_opened.1 hp
  obtain ⟨p', hp', rfl⟩ := List.mem_map.1 hmem
  have hwaits : p'.status = .sending ∨ p'.status = .queued := by
    by_cases hopened : p'.status.opened = true
    · have hwaiting := mem_opened.2 ⟨hp', hopened⟩
      rw [hfront.opened (by rw [hstatus]; rfl)] at hwaiting
      rcases List.mem_cons.1 hwaiting with rfl | hafter
      · exact .inl hstatus
      · exact .inr (h.line.fresh p' hp' hopened (hfront.behind p' hafter))
    · cases hnone : p'.status <;> simp [Queue.rolledBack, hnone, Status.opened] at hopen hopened
  rw [Queue.rolledBack, if_pos hwaits] at hopen
  dsimp only at hopen
  split_ifs at hopen <;> cases hopen

theorem rolledBack_same (seq : Nat) (e : Entry) : (Queue.rolledBack seq e).seq = e.seq ∧
    (Queue.rolledBack seq e).attempts = e.attempts ∧ (Queue.rolledBack seq e).op = e.op ∧
    (Queue.rolledBack seq e).image = e.image ∧ (Queue.rolledBack seq e).begun = e.begun := by
  rw [Queue.rolledBack]
  split_ifs <;> exact ⟨rfl, rfl, rfl, rfl, rfl⟩

/-- Entries under their numbers of which none waits. -/
theorem Line.idle (h : Line entries next) {f : Entry → Entry} (hseq : ∀ e, (f e).seq = e.seq)
    (hnone : opened (entries.map f) = []) : Line (entries.map f) next := by
  have hclosed : ∀ e ∈ entries.map f, e.status.opened = false := by
    intro e he
    refine Bool.eq_false_iff.2 fun hopen => ?_
    have hmem := mem_opened.2 ⟨he, hopen⟩
    rw [hnone] at hmem
    cases hmem
  refine ⟨?_, fun e he => ?_, hnone ▸ .nil, fun e he hopen _ => ?_, fun e he hsending => ?_⟩
  · rw [List.pairwise_map]
    exact h.seqs.imp fun hlt => by rwa [hseq, hseq]
  · obtain ⟨e', he', rfl⟩ := List.mem_map.1 he
    rw [hseq]
    exact h.below e' he'
  · rw [hclosed e he] at hopen
    cases hopen
  · have hopen := hclosed e he
    rw [hsending] at hopen
    cases hopen

theorem Delivers.refuse (h : Delivers s) (i : Nat) (ha : (Act.refuse i).timely s = true) : Delivers (s.refuse i) := by
  cases hc : s.claims[i]? with
  | none => simpa only [Queue.refuse, hc] using h
  | some c =>
  have hmem := List.mem_of_getElem? hc
  have hanchored : Anchored (s.refuse i) := by
    refine h.anchored.refuse i (fun _ _ => true) ?_
    simp only [Act.timely, hc, Option.all_some] at ha
    cases hleased : s.leased c with
    | false => simp [Step.anchored, hc, hleased]
    | true =>
      obtain ⟨e, he, hleases⟩ := List.any_eq_true.1 hleased
      simp only [Step.anchored, hc, Option.all_some, (h.mapped_ack hmem he hleases).2, decide_true, Bool.true_and]
      exact Bool.or_eq_true_iff.2 (.inr ha)
  rw [Queue.refuse] at hanchored ⊢
  rw [hc] at hanchored ⊢
  dsimp only at hanchored ⊢
  cases hstage : c.stage with
  | claimed => exact h
  | handed => exact h
  | planned seen write =>
  rw [hstage] at hanchored
  dsimp only at hanchored ⊢
  by_cases hpass : s.leased c = true ∧ (write = .nothing ∨ seen = s.live.map Prod.fst)
  swap
  · rw [if_neg hpass]
    exact h.erase i
  rw [if_pos hpass] at hanchored ⊢
  have hseen : seen = s.live.map Prod.fst := by
    rcases hpass.2 with rfl | hseen
    · simp only [Act.timely, hc, Option.all_some, hstage, decide_eq_true_eq] at ha
      exact ha
    · exact hseen
  obtain ⟨e, he, hleases⟩ := List.any_eq_true.1 hpass.1
  obtain ⟨hremote, hhere⟩ := h.restored hmem he hleases hstage hseen
  obtain ⟨-, -, hmap, hkept⟩ := restore_same (s := s) write
  obtain ⟨hnext, -⟩ := restore_next (s := s) write
  have hnone := h.rolledBack he hleases
  refine ⟨hanchored, ?_, ?_, hhere, fun hmapped => ?_, fun c' hc' => ?_, fun event hevent => ?_⟩
  · show Line (s.entries.map (Queue.rolledBack c.seq)) (s.restore write).next
    rw [hnext]
    exact h.line.idle (fun e => (rolledBack_same c.seq e).1) hnone
  · show Chain (s.restore write).remote (opened (s.entries.map (Queue.rolledBack c.seq)))
      ((s.restore write).live.map Prod.snd)
    rw [hnone, hkept]
    exact hremote
  · rw [hmap] at hmapped
    rw [hkept]
    exact h.mapped hmapped
  · refine (h.claims c' (List.mem_of_mem_eraseIdx hc')).step (le_of_eq hnext.symm) fun p hp _ => ?_
    obtain ⟨p', hp', rfl⟩ := List.mem_map.1 hp
    obtain ⟨hseq, hattempts, hop, himage, hbegun⟩ := rolledBack_same c.seq p'
    refine ⟨p', hp', hseq.symm, le_of_eq hattempts.symm, fun _ _ => ⟨hop.symm, himage.symm, hbegun.symm, fun hsending => ?_⟩⟩
    have hwaits : Queue.rolledBack c.seq p' ∈ opened (s.entries.map (Queue.rolledBack c.seq)) :=
      mem_opened.2 ⟨hp, by rw [hsending]; rfl⟩
    rw [hnone] at hwaits
    cases hwaits
  · rcases List.mem_append.1 hevent with hevent | hevent
    · exact h.log event hevent
    · rw [List.mem_singleton.1 hevent]
      rfl

theorem Delivers.step (h : Delivers s) (a : Act) (ha : a.timely s = true) : Delivers (step s a) := by
  cases a with
  | tick ms => exact h.tick ms
  | commit x change changed => exact h.commit x change changed ha
  | standing before changed => exact h.standing before changed ha
  | claim => exact h.claim
  | hand i => exact h.hand i ha
  | ack i id version => exact h.ack i id version
  | retry i time => exact h.retry i time
  | plan i restored => exact h.plan i restored ha
  | refuse i => exact h.refuse i ha
  | crash i => exact h.erase i

/-- A record that neither side has, or one that the remote has as it stands. -/
def synced (start : Option (String × String)) : Queue := init (start.map fun (rid, fields) => (some rid, ⟨true, fields⟩))

theorem delivers_synced (start : Option (String × String)) : Delivers (synced start) := by
  have hanchored : Anchored (synced start) := anchored_init _
  match start with
  | none =>
    refine ⟨hanchored, ⟨.nil, ?_, .nil, ?_, ?_⟩, rfl, ?_, ?_, ?_, ?_⟩ <;> simp [synced, init]
  | some (rid, fields) =>
    refine ⟨hanchored, ⟨.nil, ?_, .nil, ?_, ?_⟩, rfl, ?_, ?_, ?_, ?_⟩ <;> simp [synced, init]

/-- The attempt of a claim whose lease was taken over changes no entry and not the id map, in any state. -/
theorem lost_attempt {i : Nat} {c : Claim} (hc : s.claims[i]? = some c) (hlost : s.leased c = false) (a : Act)
    (ha : a.settles i = true) : (step s a).entries = s.entries ∧ (step s a).map = s.map := by
  have houtcome : ∀ f : Claim → Queue, (s.outcome i f).entries = s.entries ∧ (s.outcome i f).map = s.map := by
    intro f
    rw [Queue.outcome, hc]
    dsimp only
    rw [hlost]
    split_ifs <;> first | exact ⟨rfl, rfl⟩ | contradiction
  cases a with
  | ack j id version =>
    obtain rfl : i = j := of_decide_eq_true ha
    exact houtcome _
  | retry j time =>
    obtain rfl : i = j := of_decide_eq_true ha
    exact houtcome _
  | refuse j =>
    obtain rfl : i = j := of_decide_eq_true ha
    show (s.refuse i).entries = s.entries ∧ (s.refuse i).map = s.map
    rw [Queue.refuse, hc]
    dsimp only
    split
    · rw [if_neg fun hpass => by rw [hlost] at hpass; exact absurd hpass.1 Bool.false_ne_true]
      exact ⟨rfl, rfl⟩
    · exact ⟨rfl, rfl⟩
  | tick | commit | standing | claim | hand | plan | crash => cases ha

theorem Line.exclusive (h : Line entries next) : (entries.filter fun e => e.status = .sending).length ≤ 1 := by
  have hsub : (entries.filter fun e => e.status = .sending) = (opened entries).filter fun e => e.status = .sending := by
    rw [opened, List.filter_filter]
    refine List.filter_congr fun e _ => ?_
    cases e.status <;> rfl
  have hpairwise := h.waiting.sublist (List.filter_sublist (p := fun e => decide (e.status = .sending)))
  rw [← hsub] at hpairwise
  cases hfilter : entries.filter fun e => e.status = .sending with
  | nil => exact Nat.zero_le 1
  | cons a rest =>
    cases rest with
    | nil => exact le_rfl
    | cons b rest =>
      rw [hfilter] at hpairwise
      have hb : b ∈ entries.filter fun e => e.status = .sending := by
        rw [hfilter]
        exact List.mem_cons_of_mem a List.mem_cons_self
      obtain ⟨hmem, hsending⟩ := List.mem_filter.1 hb
      have hpos := h.sending b hmem (of_decide_eq_true hsending)
      have hzero := ((List.pairwise_cons.1 hpairwise).1 b List.mem_cons_self).2
      omega

theorem Delivers.delivered (h : Delivers s) : Delivered s := by
  refine ⟨h.line.exclusive, h.log, fun hclosed => ?_, fun i c hc hlost a ha => lost_attempt hc hlost a ha⟩
  have hnone : opened s.entries = [] := by
    rw [List.eq_nil_iff_forall_not_mem]
    intro e he
    obtain ⟨hmem, hopen⟩ := mem_opened.1 he
    rw [hclosed e hmem] at hopen
    cases hopen
  have hchain := h.chain
  rw [hnone] at hchain
  exact hchain

/-- Where each step avoids what breaks it, delivery is ordered, exclusive and leaves the remote with the record. -/
theorem run_delivered (start : Option (String × String)) (acts : List Act)
    (hacts : Meets step (fun s a => a.timely s = true) (synced start) acts) : Delivered (run (synced start) acts) := by
  have hstep : ∀ s a, Delivers s → Act.timely s a = true → Delivers (step s a) := fun _ a h ha => h.step a ha
  exact (hacts.invariant hstep (delivers_synced start)).delivered

/-- A create that is delivered at the second attempt, with an edit and a delete made before. -/
def second : List Act :=
  [.commit directly (.create ada) ["name"], .claim, .hand 0, .commit directly (.update edited) ["name"],
    .retry 0 60000, .tick 60000, .claim, .hand 0, .ack 0 (some "r") none, .commit directly .delete ["name"]]

theorem second_delivered : (run (synced none) second).remote = some ada ∧ Delivered (run (synced none) second) :=
  ⟨by decide, run_delivered none second (by decide)⟩

/-- A record created and deleted before the first attempt is handed over as a delete of what the remote never had. -/
theorem created_deleted : ¬ ∀ (start : Option (String × String)) (acts : List Act), Delivered (run (synced start) acts) := by
  intro hall
  have hlog := (hall none
    [.commit directly (.create ada) ["name"], .commit directly .delete ["name"], .claim, .hand 0]).orderly
  revert hlog
  decide

end Norbital.Bolt.Outbox

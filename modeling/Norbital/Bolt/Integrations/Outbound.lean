import Mathlib.Tactic.SplitIfs
import Mathlib.Algebra.Group.Nat.Defs
import Mathlib.Data.List.Nodup
import Mathlib.Data.List.Perm.Basic
import Mathlib.Data.List.Flatten
import Norbital.Lib.Runs

/-!
# Outbound messages

The outbound rows of `sys_message` under the statements of
`bolt/src/engine/integrations/outbound.ts`: the passes of `deliver`, each of which
claims a batch and hands its rows over one by one, the delivery reports and replies of
`record`, and `resume`.  A row is known by its `seq`.

A pass keeps the rows as it claimed them.  The log says of each hand-over and of each
recorded answer how it found the row.
-/

namespace Norbital.Bolt.Outbound

open Norbital.Lib

inductive Status where
  | queued | sending | sent | uncertain | deferred | delivered | read | opened | replied
  | bounced | failed | complained | skipped
  deriving DecidableEq, Repr

inductive DeliveryKind where
  | queued | sent | deferred | delivered | read | opened | replied | auto_replied
  | bounced | failed | complained
  deriving DecidableEq, Repr

/-- `TERMINAL`. -/
def Status.terminal : Status → Bool
  | .bounced | .failed | .complained | .skipped => true
  | _ => false

/-- `RANK`, zero where it has no entry. -/
def Status.rank : Status → Nat
  | .sent | .uncertain => 1
  | .deferred => 2
  | .delivered => 3
  | .read | .opened => 4
  | .replied => 5
  | _ => 0

/-- The status a kind is the report of; an automatic reply is of none. -/
def DeliveryKind.status : DeliveryKind → Option Status
  | .queued => some .queued
  | .sent => some .sent
  | .deferred => some .deferred
  | .delivered => some .delivered
  | .read => some .read
  | .opened => some .opened
  | .replied => some .replied
  | .auto_replied => none
  | .bounced => some .bounced
  | .failed => some .failed
  | .complained => some .complained

/-- `statusAfter`, and `AFTER` in SQL. -/
def statusAfter (current : Status) (kind : DeliveryKind) : Status :=
  match kind.status with
  | none => current
  | some reported =>
    if current.terminal then current
    else if reported.terminal then reported
    else if current.rank < reported.rank then reported
    else current

/-- A timeline entry: its kind, instant and code. -/
structure DeliveryEntry where
  kind : DeliveryKind
  time : Nat
  code : Option String
  deriving DecidableEq, Repr

/-- The outbox entry of the sync write a message waits for. -/
inductive WriteState where
  | unsettled | acked | refused
  deriving DecidableEq, Repr

/-- An outbound row.  `claims` counts its claims, and `outstanding` says that it was handed over with no
answer since that says it was not sent. -/
structure Message where
  seq : Nat
  integration : String
  conversation : String
  thread : Option String
  epoch : String
  sync_write : Option WriteState
  status : Status
  attempts : Nat
  next_attempt_at : Nat
  claimed_at : Nat
  provider_id : Option String
  presume_at : Option Nat
  delivery : List DeliveryEntry
  claims : Nat
  outstanding : Bool
  deriving DecidableEq, Repr

/-- Whether the row is still in the queue. -/
def Message.waiting (m : Message) : Bool := m.status = .queued || m.status = .sending

/-- `RELEASED`. -/
def Message.released (m : Message) : Bool := m.sync_write.all (· = .acked)

/-- An earlier message of the conversation. -/
def Message.before (p m : Message) : Bool :=
  p.integration = m.integration && p.conversation = m.conversation && decide (p.seq < m.seq)

/-- A claimed row as its pass keeps it, and when the pass handed it over. -/
structure Entry where
  seq : Nat
  was : Status
  attempts : Nat
  claim : Nat
  handed : Option Nat
  deriving DecidableEq, Repr

/-- How a hand-over or a recorded answer found the row: every earlier message out of the queue, the lease
not taken over, and no hand-over outstanding where the provider does not deduplicate. -/
structure Event where
  seq : Nat
  ordered : Bool
  leased : Bool
  once : Bool
  deriving DecidableEq, Repr

structure Outbox where
  now : Nat
  epoch : String
  active : List String
  personal : List String
  idempotentSends : List String
  messages : List Message
  next : Nat
  passes : List (List Entry)
  log : List Event
  deriving DecidableEq, Repr

def LEASE_MS : Nat := 600000

def MAX_ATTEMPTS : Nat := 8

def PARKED_MS : Nat := 86400000

def backoff (now attempts : Nat) : Nat := now + min (min (1000 * 2 ^ (attempts - 1)) 3600000) 300000

inductive Failure where
  | refused (permanent : Bool) (code : Option String)
  | timeout
  | fenced
  | invalid
  | unavailable
  | upstream
  deriving DecidableEq, Repr

/-- What the provider answers, or what keeps the row from it. -/
inductive Answer where
  | sent (providerId : String) (presumeAfterMs : Option Nat)
  | linkDown
  | failed (failure : Failure)
  deriving DecidableEq, Repr

/-- Whether no retry may help. -/
def Failure.permanent : Failure → Bool
  | .fenced | .invalid | .unavailable => true
  | .refused permanent _ => permanent
  | .timeout | .upstream => false

/-- Whether the answer leaves open that the message was sent. -/
def Answer.unsure : Answer → Bool
  | .sent .. => true
  | .failed failure => failure = .timeout
  | .linkDown => false

def Failure.code : Failure → Option String
  | .fenced => some "fenced"
  | .refused _ code => code
  | _ => none

/-- The status a failed send leaves: `handed` says that the row may have reached the provider. -/
def Failure.status (failure : Failure) (handed idempotent : Bool) (attempts : Nat) : Status :=
  let unsure := failure = .timeout && handed
  let final := failure.permanent || (unsure && !idempotent) || decide (MAX_ATTEMPTS ≤ attempts)
  if !final then .queued else if unsure then .uncertain else .failed

/-- The answer recorded: a taken-over row that is not handed over again is as one that timed out. -/
def Entry.answer (e : Entry) (idempotent : Bool) (answer : Answer) : Answer :=
  if e.handed = none ∧ e.was = .sending ∧ idempotent = false then .failed .timeout else answer

/-- The row once its answer is recorded.  The update is by the row alone. -/
def Message.settle (m : Message) (e : Entry) (now : Nat) (idempotent : Bool) (answer : Answer) : Message :=
  let time := e.handed.getD now
  let settled := { m with outstanding := m.outstanding && answer.unsure }
  match answer with
  | .sent providerId presumeAfterMs =>
    { settled with
      status := .sent
      provider_id := some providerId
      presume_at := (presumeAfterMs.filter (0 < ·)).map (time + ·)
      delivery := m.delivery ++ [⟨.sent, time, none⟩] }
  -- a link that is down is no attempt
  | .linkDown =>
    { settled with status := .queued, attempts := m.attempts - 1, next_attempt_at := time + PARKED_MS }
  | .failed failure =>
    let status := failure.status (e.handed.isSome || e.was = .sending) idempotent e.attempts
    { settled with
      status := status
      next_attempt_at := backoff time e.attempts
      delivery := m.delivery ++
        match status with
        | .uncertain => []
        | .queued => [⟨.deferred, time, failure.code⟩]
        | _ => [⟨.failed, time, failure.code⟩] }

namespace Outbox

def init (epoch : String) (active personal idempotentSends : List String) : Outbox :=
  ⟨0, epoch, active, personal, idempotentSends, [], 0, [], []⟩

variable (s : Outbox)

def update (f : Message → Message) : Outbox := { s with messages := s.messages.map f }

def find (seq : Nat) : Option Message := s.messages.find? (·.seq == seq)

def idempotent (m : Message) : Bool := m.integration ∈ s.idempotentSends

/-- Whether every earlier message of the conversation has left the queue. -/
def ordered (m : Message) : Bool := s.messages.all fun p => !(p.waiting && p.before m)

/-- Whether a claim takes the row. -/
def due (m : Message) : Bool :=
  (m.status = .queued && decide (m.next_attempt_at ≤ s.now) ||
      m.status = .sending && decide (m.claimed_at + LEASE_MS ≤ s.now)) &&
    m.integration ∈ s.active && m.released && s.ordered m

/-- What a pass does first: rows of another epoch, of a personal account and of a refused sync write
leave the queue. -/
def cleanup (m : Message) : Message :=
  if m.waiting && m.epoch ≠ s.epoch then { m with status := .skipped }
  else if m.waiting && m.integration ∈ s.personal then { m with status := .failed }
  else if m.status = .queued && m.sync_write = some .refused then { m with status := .skipped }
  else m

end Outbox

def Message.claim (now : Nat) (m : Message) : Message :=
  { m with status := .sending, attempts := m.attempts + 1, claimed_at := now, claims := m.claims + 1 }

def Message.entry (m : Message) : Entry := ⟨m.seq, m.status, m.attempts + 1, m.claims + 1, none⟩

/-- A report is of the row's timeline already. -/
def Message.reported (m : Message) (e : DeliveryEntry) : Bool :=
  m.delivery.any fun d => d.kind = e.kind && d.time = e.time && e.code.all (d.code = some ·)

/-- `record` on the row it found. -/
def Message.record (e : DeliveryEntry) (m : Message) : Message :=
  { m with
    delivery := m.delivery ++ [e]
    status := statusAfter m.status e.kind
    presume_at := if e.kind = .sent ∨ e.kind = .deferred ∨ e.kind = .auto_replied then m.presume_at else none }

/-- `record`: the last row that matches and has no such entry. -/
def Outbox.record (s : Outbox) (matching : Message → Bool) (e : DeliveryEntry) : Outbox :=
  match (s.messages.filter fun m => matching m && !m.reported e).getLast? with
  | none => s
  | some found => s.update fun m => if m.seq = found.seq then m.record e else m

inductive Step where
  | tick (ms : Nat)
  | queue (integration conversation : String) (thread : Option String) (epoch : String)
      (sync_write : Option WriteState)
  | activate (integration : String) (active : Bool)
  | acknowledge (seq : Nat) (state : WriteState)
  | deliver
  | claim (pass : Nat)
  | hand (pass : Nat)
  | settle (pass : Nat) (answer : Answer)
  | presume (seq : Nat)
  | delivered (integration providerId : String) (entry : DeliveryEntry)
  | replied (integration : String) (refs : List String) (auto : Bool) (time : Nat)
  | resume (integration : String)
  | crash (pass : Nat)
  deriving DecidableEq, Repr

def step (s : Outbox) : Step → Outbox
  | .tick ms => { s with now := s.now + ms }
  | .queue integration conversation thread epoch sync_write =>
    { s with
      messages := s.messages ++ [⟨s.next, integration, conversation, thread, epoch, sync_write, .queued, 0,
        s.now, 0, none, none, [⟨.queued, s.now, none⟩], 0, false⟩]
      next := s.next + 1 }
  | .activate integration active =>
    { s with
      active := if active then integration :: s.active else s.active.filter (· ≠ integration) }
  | .acknowledge seq state =>
    s.update fun m => if m.seq = seq then { m with sync_write := m.sync_write.map fun _ => state } else m
  | .deliver => { s.update s.cleanup with passes := s.passes ++ [[]] }
  | .claim i =>
    if s.passes[i]? = some [] then
      { s.update fun m => if s.due m then m.claim s.now else m with
        passes := s.passes.set i ((s.messages.filter s.due).map Message.entry) }
    else s
  | .hand i =>
    match s.passes[i]? with
    | some (e :: todo) =>
      match s.find e.seq with
      | none => s
      | some m =>
        -- a row whose lease ran out is not handed over again unless the provider deduplicates
        if e.handed = none ∧ ¬ (e.was = .sending ∧ s.idempotent m = false) then
          { s.update fun m => if m.seq = e.seq then { m with outstanding := true } else m with
            passes := s.passes.set i ({ e with handed := some s.now } :: todo)
            log := s.log ++ [⟨e.seq, s.ordered m, m.claims = e.claim, s.idempotent m || !m.outstanding⟩] }
        else s
    | _ => s
  | .settle i answer =>
    match s.passes[i]? with
    | some (e :: todo) =>
      match s.find e.seq with
      | none => s
      | some m =>
        let answer := e.answer (s.idempotent m) answer
        -- only a row that was handed over is answered as sent
        if e.handed = none ∧ answer matches .sent .. then s
        else
          { s.update fun m => if m.seq = e.seq then m.settle e s.now (s.idempotent m) answer else m with
            passes := s.passes.set i todo
            log := s.log ++ [⟨e.seq, true, m.claims = e.claim, true⟩] }
    | _ => s
  | .presume seq =>
    match s.find seq with
    | some m =>
      if (m.status = .sent ∨ m.status = .deferred) ∧ m.presume_at.any (· ≤ s.now) then
        s.record (·.seq = seq) ⟨.delivered, s.now, none⟩
      else s
    | none => s
  | .delivered integration providerId entry =>
    s.record (fun m => m.integration = integration && m.provider_id = some providerId) entry
  | .replied integration refs auto time =>
    s.record (fun m => m.integration = integration &&
        (m.provider_id.any (· ∈ refs) || m.thread.any (· ∈ refs)))
      ⟨if auto then .auto_replied else .replied, time, none⟩
  | .resume integration =>
    s.update fun m =>
      if m.integration = integration ∧ m.status = .queued ∧ s.now < m.next_attempt_at then
        { m with next_attempt_at := s.now }
      else m
  | .crash i => { s with passes := s.passes.eraseIdx i }

def run (s : Outbox) (steps : List Step) : Outbox := steps.foldl step s

/-- Whether the answer puts the row back in the queue. -/
def Answer.retries (answer : Answer) (e : Entry) (idempotent : Bool) : Bool :=
  match answer with
  | .sent .. => false
  | .linkDown => true
  | .failed failure =>
    failure.status (e.handed.isSome || e.was = .sending) idempotent e.attempts = .queued

/-- The condition of a step: a claim takes over no row that a pass still has to settle, and an answer puts
no row back in the queue while a pass has a later message of its conversation. -/
def Step.timely (s : Outbox) : Step → Bool
  | .claim _ => s.messages.all fun m => !(s.due m && m.status = .sending) ||
      s.passes.all fun todo => todo.all fun e => e.seq ≠ m.seq
  | .settle i answer =>
    match s.passes[i]? with
    | some (e :: _) => (s.find e.seq).all fun m =>
        !(e.answer (s.idempotent m) answer).retries e (s.idempotent m) ||
          s.passes.all fun todo => todo.all fun e' => (s.find e'.seq).all fun m' => !m.before m'
    | _ => true
  | _ => true

/-- Every hand-over and every answer recorded found its row in order, under its own lease, and where the
provider does not deduplicate handed over by nobody whose answer is not in. -/
def Orderly (s : Outbox) : Prop := ∀ e ∈ s.log, e.ordered ∧ e.leased ∧ e.once

instance (s : Outbox) : Decidable (Orderly s) :=
  inferInstanceAs (Decidable (∀ e ∈ s.log, e.ordered ∧ e.leased ∧ e.once))

/-- A pass's row: claimed last by it, not queued, with every earlier message out of the queue, and not
outstanding where the pass may hand it over. -/
structure Held (s : Outbox) (e : Entry) (m : Message) : Prop where
  lease : m.claims = e.claim
  claimed : m.status ≠ .queued
  ordered : ∀ p ∈ s.messages, p.before m = true → p.waiting = false
  once : s.idempotent m = false → e.handed = none → e.was ≠ .sending → m.outstanding = false

/-- What holds between the steps. -/
structure Kept (s : Outbox) : Prop where
  seqs : (s.messages.map (·.seq)).Nodup
  below : ∀ m ∈ s.messages, m.seq < s.next
  entries : (s.passes.flatten.map (·.seq)).Nodup
  known : ∀ e ∈ s.passes.flatten, e.seq < s.next
  held : ∀ e ∈ s.passes.flatten, ∀ m ∈ s.messages, m.seq = e.seq → Held s e m
  queued : ∀ m ∈ s.messages, m.status = .queued → s.idempotent m = false → m.outstanding = false
  log : Orderly s

variable {s s' : Outbox} {e e' : Entry} {m m' p : Message} {i : Nat} {todo : List Entry}

section Passes

variable {α : Type*} {passes : List (List α)} {l : List α}

theorem flatten_perm (h : passes[i]? = some l) : passes.flatten.Perm (l ++ (passes.eraseIdx i).flatten) := by
  obtain ⟨hlt, rfl⟩ := List.getElem?_eq_some_iff.1 h
  exact (List.getElem_cons_eraseIdx_perm hlt).symm.flatten

theorem flatten_set_perm (h : passes[i]? = some l) (l' : List α) :
    (passes.set i l').flatten.Perm (l' ++ (passes.eraseIdx i).flatten) := by
  obtain ⟨hlt, -⟩ := List.getElem?_eq_some_iff.1 h
  exact (List.set_perm_cons_eraseIdx hlt l').flatten

end Passes

theorem Kept.unique (h : Kept s) (hm : m ∈ s.messages) (hm' : m' ∈ s.messages) (hseq : m.seq = m'.seq) :
    m = m' :=
  List.inj_on_of_nodup_map h.seqs hm hm' hseq

theorem find_some {seq : Nat} (h : s.find seq = some m) : m ∈ s.messages ∧ m.seq = seq :=
  ⟨List.mem_of_find?_eq_some h, by simpa using List.find?_some h⟩

theorem find_eq (h : Kept s) (hm : m ∈ s.messages) : s.find m.seq = some m := by
  cases hfind : s.find m.seq with
  | none => exact absurd (beq_self_eq_true m.seq) (List.find?_eq_none.1 hfind m hm)
  | some m' =>
    obtain ⟨hm', hseq⟩ := find_some hfind
    rw [h.unique hm' hm hseq]

theorem ordered_iff : s.ordered m = true ↔ ∀ p ∈ s.messages, p.before m = true → p.waiting = false := by
  rw [Outbox.ordered, List.all_eq_true]
  refine forall₂_congr fun p _ => ?_
  cases p.waiting <;> cases p.before m <;> decide

theorem waiting_iff : m.waiting = true ↔ m.status = .queued ∨ m.status = .sending := by
  rw [Message.waiting, Bool.or_eq_true, decide_eq_true_eq, decide_eq_true_eq]

/-- The row stays the message it is. -/
structure Row (m m' : Message) : Prop where
  seq : m'.seq = m.seq
  integration : m'.integration = m.integration
  conversation : m'.conversation = m.conversation

theorem Row.refl (m : Message) : Row m m := ⟨rfl, rfl, rfl⟩

/-- What the passes hold after the rows and the passes changed. -/
theorem Kept.change (h : Kept s) {f : Message → Message} {passes : List (List Entry)} {log : List Event}
    (hrow : ∀ m ∈ s.messages, Row m (f m)) (hentries : (passes.flatten.map (·.seq)).Nodup)
    (hknown : ∀ e ∈ passes.flatten, e.seq < s.next)
    (hheld : ∀ e ∈ passes.flatten, ∀ m ∈ s.messages, m.seq = e.seq →
      (f m).claims = e.claim ∧ (f m).status ≠ .queued ∧
      (∀ p ∈ s.messages, p.before m = true → (f p).waiting = false) ∧
      (s.idempotent m = false → e.handed = none → e.was ≠ .sending → (f m).outstanding = false))
    (hqueued : ∀ m ∈ s.messages, (f m).status = .queued → s.idempotent m = false → (f m).outstanding = false)
    (hlog : ∀ e ∈ log, e.ordered ∧ e.leased ∧ e.once) :
    Kept { s.update f with passes := passes, log := log } := by
  have hmap : (s.messages.map f).map (·.seq) = s.messages.map (·.seq) := by
    rw [List.map_map]
    exact List.map_congr_left fun m hm => (hrow m hm).seq
  have hidem : ∀ m ∈ s.messages, Outbox.idempotent { s.update f with passes := passes, log := log } (f m) =
      s.idempotent m := by
    intro m hm
    rw [Outbox.idempotent, (hrow m hm).integration, Outbox.idempotent]
    rfl
  refine ⟨(congrArg List.Nodup hmap).mpr h.seqs, ?_, hentries, hknown, ?_, ?_, hlog⟩
  · intro m' hm'
    obtain ⟨m, hm, rfl⟩ := List.mem_map.1 hm'
    exact (hrow m hm).seq ▸ h.below m hm
  · intro e he m' hm' hseq
    obtain ⟨m, hm, rfl⟩ := List.mem_map.1 hm'
    have hr := hrow m hm
    obtain ⟨hlease, hclaimed, hordered, honce⟩ := hheld e he m hm (hr.seq.symm.trans hseq)
    refine ⟨hlease, hclaimed, ?_, fun hno => honce ((hidem m hm).symm.trans hno)⟩
    intro p' hp' hbefore
    obtain ⟨p, hp, rfl⟩ := List.mem_map.1 hp'
    have hpr := hrow p hp
    refine hordered p hp ?_
    rwa [Message.before, hpr.integration, hpr.conversation, hpr.seq, hr.integration, hr.conversation,
      hr.seq] at hbefore
  · intro m' hm' hq hno
    obtain ⟨m, hm, rfl⟩ := List.mem_map.1 hm'
    exact hqueued m hm hq ((hidem m hm).symm.trans hno)

/-- A change of a row that neither claims it nor puts it back in the queue. -/
structure Quiet (m m' : Message) : Prop extends Row m m' where
  claims : m'.claims = m.claims
  outstanding : m'.outstanding = m.outstanding
  stays : m'.waiting = true → m'.status = m.status

theorem Quiet.refl (m : Message) : Quiet m m := ⟨Row.refl m, rfl, rfl, fun _ => rfl⟩

theorem Quiet.queued (hq : Quiet m m') (h : m'.status = .queued) : m.status = .queued :=
  (hq.stays (waiting_iff.2 (.inl h))).symm.trans h

theorem Quiet.out (hq : Quiet m m') (h : m.waiting = false) : m'.waiting = false := by
  rw [Bool.eq_false_iff] at h ⊢
  intro hw
  refine h (waiting_iff.2 ?_)
  rw [← hq.stays hw]
  exact waiting_iff.1 hw

/-- Quiet changes of the rows keep what the passes hold. -/
theorem Kept.update (h : Kept s) {f : Message → Message} (hf : ∀ m ∈ s.messages, Quiet m (f m)) :
    Kept (s.update f) := by
  refine h.change (fun m hm => (hf m hm).toRow) h.entries h.known ?_ ?_ h.log
  · intro e he m hm hseq
    have hheld := h.held e he m hm hseq
    have hq := hf m hm
    refine ⟨hq.claims.trans hheld.lease, fun hqueued => hheld.claimed (hq.queued hqueued), ?_, ?_⟩
    · exact fun p hp hbefore => (hf p hp).out (hheld.ordered p hp hbefore)
    · exact fun hno hhanded hwas => hq.outstanding.trans (hheld.once hno hhanded hwas)
  · exact fun m hm hqueued hno =>
      (hf m hm).outstanding.trans (h.queued m hm ((hf m hm).queued hqueued) hno)

/-- A report leaves the status, or takes it out of the queue. -/
theorem statusAfter_cases (current : Status) (kind : DeliveryKind) :
    statusAfter current kind = current ∨ (statusAfter current kind).terminal = true ∨
      0 < (statusAfter current kind).rank := by
  rw [statusAfter]
  cases kind.status with
  | none => exact .inl rfl
  | some reported =>
    dsimp only
    split_ifs with hcurrent hreported hrank
    · exact .inl rfl
    · exact .inr (.inl hreported)
    · exact .inr (.inr (Nat.lt_of_le_of_lt (Nat.zero_le _) hrank))
    · exact .inl rfl

theorem quiet_record (entry : DeliveryEntry) (m : Message) : Quiet m (m.record entry) := by
  refine ⟨⟨rfl, rfl, rfl⟩, rfl, rfl, fun hw => ?_⟩
  have hqueue : statusAfter m.status entry.kind = .queued ∨ statusAfter m.status entry.kind = .sending :=
    waiting_iff.1 hw
  refine (statusAfter_cases m.status entry.kind).resolve_right fun hmoved => ?_
  -- the statuses of the queue are of rank zero and not terminal
  rcases hqueue with hs | hs <;>
  · rw [hs] at hmoved
    exact absurd hmoved (by decide)

theorem Kept.record (h : Kept s) (matching : Message → Bool) (entry : DeliveryEntry) :
    Kept (s.record matching entry) := by
  rw [Outbox.record]
  split
  · exact h
  · refine h.update fun m _ => ?_
    split_ifs
    · exact quiet_record entry m
    · exact Quiet.refl m

theorem quiet_cleanup (m : Message) : Quiet m (s.cleanup m) := by
  rw [Outbox.cleanup]
  split_ifs
  · exact ⟨⟨rfl, rfl, rfl⟩, rfl, rfl, fun hw => absurd hw Bool.false_ne_true⟩
  · exact ⟨⟨rfl, rfl, rfl⟩, rfl, rfl, fun hw => absurd hw Bool.false_ne_true⟩
  · exact ⟨⟨rfl, rfl, rfl⟩, rfl, rfl, fun hw => absurd hw Bool.false_ne_true⟩
  · exact Quiet.refl m

theorem Kept.queue (h : Kept s) (integration conversation : String) (thread : Option String) (epoch : String)
    (sync_write : Option WriteState) :
    Kept (step s (.queue integration conversation thread epoch sync_write)) := by
  refine ⟨?_, ?_, h.entries, fun e he => Nat.lt_succ_of_lt (h.known e he), ?_, ?_, h.log⟩
  · rw [step, List.map_append, List.nodup_append]
    refine ⟨h.seqs, List.nodup_singleton _, ?_⟩
    rintro a ha b hb rfl
    obtain ⟨m, hm, rfl⟩ := List.mem_map.1 ha
    have hseq : m.seq = s.next := List.mem_singleton.1 hb
    exact absurd (h.below m hm) (by omega)
  · intro m hm
    rcases List.mem_append.1 hm with hm | hm
    · exact Nat.lt_succ_of_lt (h.below m hm)
    · rw [List.mem_singleton.1 hm]
      exact Nat.lt_succ_self _
  · intro e he m hm hseq
    rcases List.mem_append.1 hm with hm | hm
    · have hheld := h.held e he m hm hseq
      refine ⟨hheld.lease, hheld.claimed, fun p hp hbefore => ?_, hheld.once⟩
      rcases List.mem_append.1 hp with hp | hp
      · exact hheld.ordered p hp hbefore
      · -- the new message is no earlier one
        rw [List.mem_singleton.1 hp, Message.before, Bool.and_eq_true, decide_eq_true_eq] at hbefore
        exact absurd (h.below m hm) (Nat.lt_asymm hbefore.2)
    · have hnew : e.seq = s.next := by rw [← hseq, List.mem_singleton.1 hm]
      exact absurd (h.known e he) (by omega)
  · intro m hm hqueued hidem
    rcases List.mem_append.1 hm with hm | hm
    · exact h.queued m hm hqueued hidem
    · rw [List.mem_singleton.1 hm]

theorem due_cases (h : s.due m = true) :
    (m.status = .queued ∨ m.status = .sending) ∧ ∀ p ∈ s.messages, p.before m = true → p.waiting = false := by
  simp only [Outbox.due, Bool.and_eq_true, Bool.or_eq_true, decide_eq_true_eq] at h
  exact ⟨h.1.1.1.imp And.left And.left, ordered_iff.1 h.2⟩

theorem Kept.claim (h : Kept s) (i : Nat) (ha : (Step.claim i).timely s = true) :
    Kept (step s (.claim i)) := by
  rw [step]
  split_ifs with hpass
  swap
  · exact h
  have hperm : (s.passes.set i ((s.messages.filter s.due).map Message.entry)).flatten.Perm
      ((s.messages.filter s.due).map Message.entry ++ s.passes.flatten) :=
    (flatten_set_perm hpass _).trans ((flatten_perm hpass).symm.append_left _)
  -- no message of another pass is due: it is sending, and the condition on the claim excludes a lapsed lease
  have hfree : ∀ e ∈ s.passes.flatten, ∀ m ∈ s.messages, m.seq = e.seq → s.due m = false := by
    intro e he m hm hseq
    by_contra hdue
    rw [Bool.not_eq_false] at hdue
    have hsending := (due_cases hdue).1.resolve_left (h.held e he m hm hseq).claimed
    have htest := List.all_eq_true.1 ha m hm
    rw [hdue, hsending] at htest
    obtain ⟨todo, htodo, he⟩ := List.mem_flatten.1 he
    have hne := List.all_eq_true.1 (List.all_eq_true.1 htest todo htodo) e he
    exact of_decide_eq_true hne hseq.symm
  have hout : ∀ p : Message, p.waiting = false → (if s.due p then p.claim s.now else p).waiting = false := by
    intro p hp
    rw [if_neg]
    · exact hp
    · intro hdue
      rw [waiting_iff.2 (due_cases hdue).1] at hp
      cases hp
  refine h.change ?_ ?_ ?_ ?_ ?_ h.log
  · intro m _
    split_ifs
    · exact ⟨rfl, rfl, rfl⟩
    · exact Row.refl m
  · rw [(hperm.map _).nodup_iff, List.map_append, List.nodup_append]
    refine ⟨?_, h.entries, ?_⟩
    · rw [List.map_map]
      exact h.seqs.sublist (List.filter_sublist.map _)
    · rintro a ha b hb rfl
      obtain ⟨e, he, rfl⟩ := List.mem_map.1 ha
      obtain ⟨m, hm, rfl⟩ := List.mem_map.1 he
      obtain ⟨e', he', hseq⟩ := List.mem_map.1 hb
      obtain ⟨hm, hdue⟩ := List.mem_filter.1 hm
      rw [hfree e' he' m hm hseq.symm] at hdue
      cases hdue
  · intro e he
    rcases List.mem_append.1 (hperm.subset he) with he | he
    · obtain ⟨m, hm, rfl⟩ := List.mem_map.1 he
      exact h.below m (List.mem_of_mem_filter hm)
    · exact h.known e he
  · intro e he m hm hseq
    rcases List.mem_append.1 (hperm.subset he) with he | he
    · obtain ⟨m₀, hm₀, rfl⟩ := List.mem_map.1 he
      obtain ⟨hm₀, hdue⟩ := List.mem_filter.1 hm₀
      have hsame := h.unique hm hm₀ hseq
      subst hsame
      rw [if_pos hdue]
      refine ⟨rfl, fun hq => Status.noConfusion hq, ?_, ?_⟩
      · exact fun p hp hbefore => hout p ((due_cases hdue).2 p hp hbefore)
      · exact fun hidem _ hwas => h.queued m hm ((due_cases hdue).1.resolve_right hwas) hidem
    · have hheld := h.held e he m hm hseq
      rw [hfree e he m hm hseq, if_neg Bool.false_ne_true]
      exact ⟨hheld.lease, hheld.claimed, fun p hp hbefore => hout p (hheld.ordered p hp hbefore), hheld.once⟩
  · intro m hm hqueued hidem
    split_ifs at hqueued ⊢
    · exact Status.noConfusion hqueued
    · exact h.queued m hm hqueued hidem

/-- A pass goes on with its first row: its other rows, and those of the other passes, are other messages. -/
theorem Kept.others (h : Kept s) (hpass : s.passes[i]? = some (e :: todo))
    (he' : e' ∈ todo ++ (s.passes.eraseIdx i).flatten) : e' ∈ s.passes.flatten ∧ e'.seq ≠ e.seq := by
  have hperm := flatten_perm hpass
  have hnodup := ((hperm.map (·.seq)).nodup_iff).1 h.entries
  rw [List.cons_append, List.map_cons, List.nodup_cons] at hnodup
  refine ⟨hperm.symm.subset (List.mem_cons_of_mem e he'), fun hseq => hnodup.1 ?_⟩
  exact List.mem_map.2 ⟨e', he', hseq⟩

theorem mem_first (hpass : s.passes[i]? = some (e :: todo)) : e ∈ s.passes.flatten :=
  (flatten_perm hpass).symm.subset List.mem_cons_self

theorem Kept.hand (h : Kept s) (i : Nat) : Kept (step s (.hand i)) := by
  rw [step]
  split
  swap
  · exact h
  next e todo hpass =>
  cases hfind : s.find e.seq with
  | none => exact h
  | some m =>
    obtain ⟨hm, hmseq⟩ := find_some hfind
    dsimp only
    split_ifs with hhand
    swap
    · exact h
    have hheld := h.held e (mem_first hpass) m hm hmseq
    have hperm := flatten_set_perm hpass ({ e with handed := some s.now } :: todo)
    have hout : ∀ p : Message, p.waiting = false →
        (if p.seq = e.seq then { p with outstanding := true } else p).waiting = false := by
      intro p hp
      split_ifs <;> exact hp
    refine h.change ?_ ?_ ?_ ?_ ?_ ?_
    · intro m _
      split_ifs
      · exact ⟨rfl, rfl, rfl⟩
      · exact Row.refl m
    · rw [(hperm.map _).nodup_iff]
      exact ((flatten_perm hpass).map (·.seq)).nodup_iff.1 h.entries
    · intro e' he'
      rcases List.mem_cons.1 (hperm.subset he') with rfl | he'
      · exact h.known e (mem_first hpass)
      · exact h.known e' (h.others hpass he').1
    · intro e' he' m hm hseq
      rcases List.mem_cons.1 (hperm.subset he') with rfl | he'
      · have hheld := h.held e (mem_first hpass) m hm hseq
        rw [if_pos (show m.seq = e.seq from hseq)]
        refine ⟨hheld.lease, hheld.claimed, ?_, fun _ hnone => absurd hnone (Option.some_ne_none _)⟩
        exact fun p hp hbefore => hout p (hheld.ordered p hp hbefore)
      · obtain ⟨hmem, hne⟩ := h.others hpass he'
        have hheld := h.held e' hmem m hm hseq
        rw [if_neg fun heq => hne (hseq.symm.trans heq)]
        exact ⟨hheld.lease, hheld.claimed, fun p hp hbefore => hout p (hheld.ordered p hp hbefore), hheld.once⟩
    · intro m hm hqueued hidem
      split_ifs at hqueued ⊢ with hseq
      · exact absurd hqueued (h.held e (mem_first hpass) m hm hseq).claimed
      · exact h.queued m hm hqueued hidem
    -- the hand-over is in order, under its lease and, without deduplication, the only one
    · intro event hevent
      rcases List.mem_append.1 hevent with hevent | hevent
      · exact h.log event hevent
      · rw [List.mem_singleton.1 hevent]
        refine ⟨ordered_iff.2 hheld.ordered, decide_eq_true hheld.lease, ?_⟩
        dsimp only
        cases hidem : s.idempotent m with
        | true => rfl
        | false =>
          rw [hheld.once hidem hhand.1 fun hwas => hhand.2 ⟨hwas, hidem⟩]
          rfl

/-- A recorded answer leaves the row in the queue only where it retries. -/
theorem settle_status {now : Nat} {idempotent : Bool} {answer : Answer}
    (h : (m.settle e now idempotent answer).waiting = true) :
    answer.retries e idempotent = true ∧ (m.settle e now idempotent answer).status = .queued := by
  cases answer with
  | sent providerId presumeAfterMs => exact absurd h Bool.false_ne_true
  | linkDown => exact ⟨rfl, rfl⟩
  | failed failure =>
    have hstatus : failure.status (e.handed.isSome || e.was = .sending) idempotent e.attempts = .queued := by
      have hqueue := waiting_iff.1 h
      simp only [Message.settle, Failure.status] at hqueue ⊢
      split_ifs at hqueue ⊢ <;> simp at hqueue ⊢
    exact ⟨decide_eq_true hstatus, hstatus⟩

/-- Where the provider does not deduplicate, an answer that retries says that the message was not sent,
or comes before any hand-over. -/
theorem retries_unsure {answer : Answer} (hretries : answer.retries e false = true)
    (hunsure : answer.unsure = true) : e.handed = none ∧ e.was ≠ .sending := by
  cases answer with
  | sent providerId presumeAfterMs => exact absurd hretries Bool.false_ne_true
  | linkDown => exact absurd hunsure Bool.false_ne_true
  | failed failure =>
    have htimeout : failure = .timeout := of_decide_eq_true hunsure
    subst htimeout
    have hstatus := of_decide_eq_true hretries
    cases hhanded : e.handed with
    | some time => simp [Failure.status, Failure.permanent, hhanded] at hstatus
    | none =>
      refine ⟨rfl, fun hwas => ?_⟩
      simp [Failure.status, Failure.permanent, hhanded, hwas] at hstatus

theorem row_settle (m : Message) (e : Entry) (now : Nat) (idempotent : Bool) (answer : Answer) :
    Row m (m.settle e now idempotent answer) := by
  cases answer <;> exact ⟨rfl, rfl, rfl⟩

theorem settle_outstanding (m : Message) (e : Entry) (now : Nat) (idempotent : Bool) (answer : Answer) :
    (m.settle e now idempotent answer).outstanding = (m.outstanding && answer.unsure) := by
  cases answer <;> rfl

theorem Kept.settle (h : Kept s) (i : Nat) (answer : Answer) (ha : (Step.settle i answer).timely s = true) :
    Kept (step s (.settle i answer)) := by
  rw [step]
  split
  swap
  · exact h
  next e todo hpass =>
  cases hfind : s.find e.seq with
  | none => exact h
  | some m₀ =>
    obtain ⟨hm₀, hseq₀⟩ := find_some hfind
    dsimp only
    split_ifs with hunhanded
    · exact h
    simp only [Step.timely, hpass, hfind, Option.all_some] at ha
    have hheld := h.held e (mem_first hpass) m₀ hm₀ hseq₀
    have hperm := flatten_set_perm hpass todo
    have hout : ∀ e' ∈ s.passes.flatten, ∀ m ∈ s.messages, m.seq = e'.seq → ∀ p ∈ s.messages,
        p.before m = true → (if p.seq = e.seq then
          p.settle e s.now (s.idempotent p) (e.answer (s.idempotent m₀) answer) else p).waiting = false := by
      intro e' he' m hm hseq p hp hbefore
      split_ifs with hpseq
      · -- the answer of an earlier row: were it to retry, no pass would have this later one
        have hsame := h.unique hp hm₀ (hpseq.trans hseq₀.symm)
        subst hsame
        rw [Bool.eq_false_iff]
        intro hw
        rw [(settle_status hw).1, Bool.not_true, Bool.false_or] at ha
        obtain ⟨todo', htodo', he'⟩ := List.mem_flatten.1 he'
        have hlater := List.all_eq_true.1 (List.all_eq_true.1 ha todo' htodo') e' he'
        rw [← hseq, find_eq h hm, Option.all_some, hbefore] at hlater
        cases hlater
      · exact (h.held e' he' m hm hseq).ordered p hp hbefore
    refine h.change ?_ ?_ ?_ ?_ ?_ ?_
    · intro m _
      split_ifs
      · exact row_settle m e _ _ _
      · exact Row.refl m
    · rw [(hperm.map _).nodup_iff]
      have hnodup := ((flatten_perm hpass).map (·.seq)).nodup_iff.1 h.entries
      exact (List.nodup_cons.1 hnodup).2
    · exact fun e' he' => h.known e' (h.others hpass (hperm.subset he')).1
    · intro e' he' m hm hseq
      obtain ⟨hmem, hne⟩ := h.others hpass (hperm.subset he')
      have hheld := h.held e' hmem m hm hseq
      rw [if_neg fun heq => hne (hseq.symm.trans heq)]
      exact ⟨hheld.lease, hheld.claimed, hout e' hmem m hm hseq, hheld.once⟩
    · intro m hm hqueued hidem
      split_ifs at hqueued ⊢ with hseq
      · have hsame := h.unique hm hm₀ (hseq.trans hseq₀.symm)
        subst hsame
        -- back in the queue, so the answer said that nothing was sent or came before any hand-over
        have hretries := (settle_status (waiting_iff.2 (.inl hqueued))).1
        rw [hidem] at hretries
        rw [settle_outstanding, hidem]
        cases hunsure : (e.answer false answer).unsure with
        | false => exact Bool.and_false _
        | true =>
          obtain ⟨hhanded, hwas⟩ := retries_unsure hretries hunsure
          rw [hheld.once hidem hhanded hwas]
          rfl
      · exact h.queued m hm hqueued hidem
    · intro event hevent
      rcases List.mem_append.1 hevent with hevent | hevent
      · exact h.log event hevent
      · rw [List.mem_singleton.1 hevent]
        exact ⟨rfl, decide_eq_true hheld.lease, rfl⟩

theorem Kept.deliver (h : Kept s) : Kept (step s .deliver) := by
  have hflat : (s.passes ++ [[]]).flatten = s.passes.flatten := by simp
  have hclean := h.update fun m _ => quiet_cleanup (s := s) m
  refine ⟨hclean.seqs, hclean.below, ?_, ?_, ?_, hclean.queued, hclean.log⟩
  · exact hflat ▸ h.entries
  · exact hflat ▸ h.known
  · intro e he m hm hseq
    have hheld := hclean.held e (hflat ▸ he) m hm hseq
    exact ⟨hheld.lease, hheld.claimed, hheld.ordered, hheld.once⟩

theorem Kept.crash (h : Kept s) (i : Nat) : Kept (step s (.crash i)) := by
  have hsub : (s.passes.eraseIdx i).flatten.Sublist s.passes.flatten := (List.eraseIdx_sublist _ _).flatten
  refine ⟨h.seqs, h.below, h.entries.sublist (hsub.map _), fun e he => h.known e (hsub.subset he), ?_,
    h.queued, h.log⟩
  intro e he m hm hseq
  have hheld := h.held e (hsub.subset he) m hm hseq
  exact ⟨hheld.lease, hheld.claimed, hheld.ordered, hheld.once⟩

theorem Kept.step (h : Kept s) (a : Step) (ha : a.timely s = true) : Kept (step s a) := by
  cases a with
  | tick ms =>
    refine ⟨h.seqs, h.below, h.entries, h.known, fun e he m hm hseq => ?_, h.queued, h.log⟩
    have hheld := h.held e he m hm hseq
    exact ⟨hheld.lease, hheld.claimed, hheld.ordered, hheld.once⟩
  | queue integration conversation thread epoch sync_write =>
    exact h.queue integration conversation thread epoch sync_write
  | activate integration active =>
    refine ⟨h.seqs, h.below, h.entries, h.known, fun e he m hm hseq => ?_, h.queued, h.log⟩
    have hheld := h.held e he m hm hseq
    exact ⟨hheld.lease, hheld.claimed, hheld.ordered, hheld.once⟩
  | acknowledge seq state =>
    refine h.update fun m _ => ?_
    split_ifs
    · exact ⟨⟨rfl, rfl, rfl⟩, rfl, rfl, fun _ => rfl⟩
    · exact Quiet.refl m
  | deliver => exact h.deliver
  | claim i => exact h.claim i ha
  | hand i => exact h.hand i
  | settle i answer => exact h.settle i answer ha
  | presume seq =>
    rw [Outbound.step]
    split
    · split_ifs
      · exact h.record _ _
      · exact h
    · exact h
  | delivered integration providerId entry => exact h.record _ entry
  | replied integration refs auto time => exact h.record _ _
  | resume integration =>
    refine h.update fun m _ => ?_
    split_ifs
    · exact ⟨⟨rfl, rfl, rfl⟩, rfl, rfl, fun _ => rfl⟩
    · exact Quiet.refl m
  | crash i => exact h.crash i

/-- Where no claim takes over a row of a pass at work, and no answer puts a row back before one that a pass
has claimed, every hand-over and every answer is in order. -/
theorem run_orderly (epoch : String) (active personal idempotentSends : List String) (steps : List Step)
    (hsteps : Meets step (fun s a => a.timely s = true) (.init epoch active personal idempotentSends) steps) :
    Orderly (run (.init epoch active personal idempotentSends) steps) := by
  have hinit : Kept (.init epoch active personal idempotentSends) :=
    ⟨List.nodup_nil, by simp [Outbox.init], List.nodup_nil, by simp [Outbox.init], by simp [Outbox.init],
      by simp [Outbox.init], fun e he => by cases he⟩
  have hstep : ∀ s (a : Step), Kept s → a.timely s = true → Kept (step s a) := fun s a h ha => h.step a ha
  exact (hsteps.invariant hstep hinit).log

/-- Two conversations, each with a message that one pass claims. -/
def twoClaimed : List Step :=
  [.queue "whatsapp" "ann" none "e" none, .queue "whatsapp" "bob" none "e" none, .deliver, .claim 0, .hand 0]

/-- A send that is refused for now is put back, claimed again and sent. -/
theorem refusedOnce_orderly : (run (.init "e" ["whatsapp"] [] []) (twoClaimed ++
      [Step.settle 0 (.failed (.refused false none)), .hand 0, .settle 0 (.sent "p" none), .tick 1000, .claim 0,
        .hand 0])).log.map (·.seq) = [0, 0, 1, 1, 0] ∧
    Orderly (run (.init "e" ["whatsapp"] [] []) (twoClaimed ++
      [Step.settle 0 (.failed (.refused false none)), .hand 0, .settle 0 (.sent "p" none), .tick 1000, .claim 0,
        .hand 0])) :=
  ⟨by decide, run_orderly "e" ["whatsapp"] [] [] _ (by decide)⟩

/-- The first send of a batch takes ten minutes: the second message's lease runs out, another pass settles
it as uncertain and sends the next one, and the first pass hands it over after that. -/
theorem slowBatch_disorderly : ¬ ∀ (epoch : String) (active personal idempotentSends : List String)
    (steps : List Step), Orderly (run (.init epoch active personal idempotentSends) steps) := by
  intro hall
  have hrun := hall "e" ["whatsapp"] [] [] (twoClaimed ++ [Step.tick 600000, .queue "whatsapp" "bob" none "e" none,
    .deliver, .claim 1, .settle 1 .linkDown, .settle 1 .linkDown, .claim 1, .hand 1, .settle 1 (.sent "p" none),
    .settle 0 (.sent "q" none), .hand 0])
  revert hrun
  decide

end Norbital.Bolt.Outbound

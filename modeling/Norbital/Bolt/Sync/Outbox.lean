import Mathlib.Tactic.SplitIfs
import Mathlib.Data.List.Nodup
import Norbital.Lib.Runs

/-!
# The outbox of a sync

The entries of `sys_outbox` for one sync, instance and record under the statements of
`bolt/src/engine/sync/write.ts`: the change a commit queues or coalesces, the claims of
`deliver`, the outcomes of `attempt`, and the rollback of `refuse`, which writes what
`rollbackPlan` of `bolt/src/engine/approvals/rollback.ts` planned.  What a commit queues are
its direct and cascading changes (`bolt/src/engine/write/commit.ts`); those of a record that
an approval request holds wait for `standing` of `bolt/src/engine/approvals/approvals.ts`.  A
page that the sync's `read` commits for the record is a step as well.

A deliverer keeps the entry and the id map as it claimed them.  Beside the rows stand what
the remote last acknowledged or supplied, the operation each entry began as, and a log of
the hand-overs and the rollbacks.
-/

namespace Norbital.Bolt.Outbox

open Norbital.Lib

inductive Op where
  | create | update | delete
  deriving DecidableEq, Repr

/-- The cause of a captured change. -/
inductive Cause where
  | direct | cascade | derived | erased
  deriving DecidableEq, Repr

/-- How a change of the record comes to a commit's effects.  It is `held` where an open approval request holds the
record, where the commit rolls one back, and where it decides one, of which the record is not. -/
structure Captured where
  cause : Cause
  erased : Bool
  held : Bool
  deriving DecidableEq, Repr

/-- Whether the change is one of `effect_free` that `syncOutboxPiece` selects. -/
def Captured.effect (x : Captured) : Bool := (x.cause = .direct || x.cause = .cascade) && !x.erased && !x.held

inductive Status where
  | queued | sending | acked | failed | dead | skipped
  deriving DecidableEq, Repr

/-- A record's stored fields, and whether they put the record into this instance, whose connection stands. -/
structure Image where
  here : Bool
  fields : String
  deriving DecidableEq, Repr

/-- An entry.  `begun` is the operation of the first change merged into it. -/
structure Entry where
  seq : Nat
  op : Op
  record_revision : Nat
  changed : List String
  image : Image
  status : Status
  attempts : Nat
  next_attempt_at : Nat
  claimed_at : Nat
  begun : Op
  deriving DecidableEq, Repr

/-- The row of `sys_sync_row`. -/
structure Mapped where
  remote_id : String
  remote_version : Option String
  acked_revision : Option Nat
  deriving DecidableEq, Repr

/-- What a rollback writes. -/
inductive Restore where
  | nothing
  | delete
  | update (image : Image)
  | create (image : Image)
  deriving DecidableEq, Repr

inductive Stage where
  | claimed
  | handed
  | planned (seen : Option Nat) (write : Restore)
  deriving DecidableEq, Repr

/-- An entry as `deliver` claimed it, with the id map's row then. -/
structure Claim where
  seq : Nat
  attempts : Nat
  claimed_at : Nat
  op : Op
  record_revision : Nat
  changed : List String
  image : Image
  remote_id : Option String
  remote_version : Option String
  acked_revision : Option Nat
  stage : Stage
  deriving DecidableEq, Repr

/-- A hand-over: whether no earlier entry was open, and whether its operation fits what the remote has.  A
rollback: whether it removed the record, and whether the record then is as the remote has it. -/
inductive Event where
  | handed (ordered coherent : Bool)
  | rolledBack (op : Op) (removed kept : Bool)
  deriving DecidableEq, Repr

structure Queue where
  now : Nat
  live : Option (Nat × Image)
  history : List (Nat × Option Image)
  entries : List Entry
  next : Nat
  map : Option Mapped
  claims : List Claim
  remote : Option Image
  log : List Event
  deriving DecidableEq, Repr

def Status.opened : Status → Bool
  | .queued | .sending | .dead => true
  | _ => false

namespace Queue

variable (s : Queue)

def lastRevision : Nat := s.history.foldr (fun h n => max h.1 n) 0

/-- `coalesce(max(revision), 0) + 1`. -/
def nextRevision : Nat := s.lastRevision + 1

/-- The record at its next revision. -/
def store (revision : Nat) (image : Option Image) : Queue :=
  { s with live := image.map (revision, ·), history := (revision, image) :: s.history }

/-- The operation of an entry once a change is merged into it. -/
def mergedOp (op next : Op) : Op := if op = .create ∧ next ≠ .delete then .create else next

def merge (e : Entry) (op : Op) (revision : Nat) (image : Image) (changed : List String) : Entry :=
  { e with
    op := mergedOp e.op op
    record_revision := revision
    image := image
    changed := (e.changed ++ changed).dedup }

def coalesces (e : Entry) : Bool := e.status = .queued && e.attempts = 0

/-- A change of a record of the instance is merged into the unattempted entry, or queued. -/
def queue (op : Op) (revision : Nat) (image : Image) (changed : List String) : Queue :=
  if !image.here then s
  else if s.entries.any coalesces then
    { s with entries := s.entries.map fun e => if coalesces e then merge e op revision image changed else e }
  else
    { s with
      entries := s.entries ++ [⟨s.next, op, revision, changed, image, .queued, 0, s.now, 0, op⟩]
      next := s.next + 1 }

/-- `syncOutboxPiece` over a commit's captured changes. -/
def syncOutboxPiece (x : Captured) (op : Op) (revision : Nat) (image : Image) (changed : List String) : Queue :=
  if x.effect then s.queue op revision image changed else s

end Queue

/-- A committed change of the record; a create may be a re-creation from its history. -/
inductive Change where
  | create (image : Image)
  | update (image : Image)
  | delete
  deriving DecidableEq, Repr

namespace Queue

variable (s : Queue)

def commit (x : Captured) (change : Change) (changed : List String) : Queue :=
  match change, s.live with
  | .create image, none =>
    (s.store s.nextRevision (some image)).syncOutboxPiece x .create s.nextRevision image changed
  | .update image, some (revision, _) =>
    (s.store (revision + 1) (some image)).syncOutboxPiece x .update (revision + 1) image changed
  | .delete, some (revision, old) =>
    (s.store (revision + 1) none).syncOutboxPiece x .delete (revision + 1) old changed
  | _, _ => s

/-- `standing`: once a request that held the record is approved, the record as it is now is queued, as created if it was
not there before the request; of one that is gone, the image before the request is queued as deleted.  A change that the
approving commit makes itself is queued as any other. -/
def standing (before : Option Image) (changed : List String) : Queue :=
  match s.live, before with
  | some (revision, image), none => s.queue .create revision image changed
  | some (revision, image), some _ => s.queue .update revision image changed
  | none, some old => s.queue .delete s.lastRevision old changed
  | none, none => s

def LEASE_MS : Nat := 300000

def ATTEMPTS : Nat := 8

/-- No earlier entry is queued, sending or dead. -/
def ordered (seq : Nat) : Bool := s.entries.all fun p => !(decide (p.seq < seq) && p.status.opened)

def due (e : Entry) : Bool :=
  (e.status = .queued && decide (e.next_attempt_at ≤ s.now) ||
      e.status = .sending && decide (e.claimed_at < s.now - LEASE_MS)) && s.ordered e.seq

def takes (e : Entry) : Entry := { e with status := .sending, attempts := e.attempts + 1, claimed_at := s.now }

def copy (e : Entry) : Claim :=
  ⟨e.seq, e.attempts + 1, s.now, e.op, e.record_revision, e.changed, e.image, s.map.map (·.remote_id),
    s.map.bind (·.remote_version), s.map.bind (·.acked_revision), .claimed⟩

/-- A claim of `deliver`. -/
def claim : Queue :=
  match s.entries.find? s.due with
  | none => s
  | some e =>
    { s with
      entries := s.entries.map fun e' => if e'.seq = e.seq then s.takes e' else e'
      claims := s.claims ++ [s.copy e] }

/-- `lease`. -/
def Claim.leases (c : Claim) (e : Entry) : Bool :=
  e.seq = c.seq && e.status = .sending && e.attempts = c.attempts && e.claimed_at = c.claimed_at

def leased (c : Claim) : Bool := s.entries.any (Claim.leases c)

/-- The entry under the claim's lease updated. -/
def settle (c : Claim) (f : Entry → Entry) : List Entry := s.entries.map fun e => if Claim.leases c e then f e else e

/-- The driver is handed the claimed entry. -/
def hand (i : Nat) : Queue :=
  match s.claims[i]? with
  | none => s
  | some c =>
    if c.stage ≠ .claimed then s
    else
      { s with
        claims := s.claims.set i { c with stage := .handed }
        log := s.log ++ [.handed (s.ordered c.seq) (decide (c.op = .create) == s.remote.isNone)] }

/-- The outcome of an attempt, for a claim that was handed over: the claim is done with. -/
def outcome (i : Nat) (f : Claim → Queue) : Queue :=
  match s.claims[i]? with
  | none => s
  | some c =>
    if c.stage ≠ .handed then s
    else if s.leased c then { f c with claims := s.claims.eraseIdx i }
    else { s with claims := s.claims.eraseIdx i }

/-- The id map's row after an acknowledgement. -/
def acknowledged (c : Claim) (id version : Option String) : Option Mapped :=
  if c.op = .delete then none
  else
    match id.or c.remote_id with
    | none => s.map
    | some remote => some ⟨remote, version.or c.remote_version, some c.record_revision⟩

def ack (i : Nat) (id version : Option String) : Queue :=
  s.outcome i fun c =>
    { s with
      entries := s.settle c fun e => { e with status := .acked }
      map := s.acknowledged c id version
      remote := if c.op = .delete then none else some c.image }

/-- A transient failure: the entry is tried again at an instant, or dead. -/
def retry (i : Nat) (time : Nat) : Queue :=
  s.outcome i fun c =>
    { s with
      entries := s.settle c fun e =>
        if ATTEMPTS ≤ c.attempts then { e with status := .dead }
        else { e with status := .queued, next_attempt_at := time } }

/-- `rollbackPlan` for the record: `restored` is what restoring the acknowledged revision would store, if it can be
restored. -/
def rollbackPlan (before : Option Nat) (restored : Option Image) : Restore :=
  match before, s.live with
  | none, none => .nothing
  | none, some _ => .delete
  | some before, some (revision, image) =>
    if revision = before then .nothing
    else
      match restored with
      | none => .nothing
      | some past => if past = image then .nothing else .update past
  | some _, none =>
    match restored with
    | none => .nothing
    | some past => .create past

/-- A refusal: the rollback is planned. -/
def plan (i : Nat) (restored : Option Image) : Queue :=
  match s.claims[i]? with
  | none => s
  | some c =>
    if c.stage ≠ .handed then s
    else
      { s with
        claims := s.claims.set i
          { c with stage := .planned (s.live.map Prod.fst) (s.rollbackPlan c.acked_revision restored) } }

/-- The record after a rollback's write; a re-created one is at the next revision of its history. -/
def restore (write : Restore) : Queue :=
  match write, s.live with
  | .delete, some (revision, _) => s.store (revision + 1) none
  | .update image, some (revision, _) => s.store (revision + 1) (some image)
  | .create image, none => s.store s.nextRevision (some image)
  | _, _ => s

/-- The entries after a rollback: the refused one failed, the others of the record that wait are skipped. -/
def rolledBack (seq : Nat) (e : Entry) : Entry :=
  if e.status = .sending ∨ e.status = .queued then { e with status := if e.seq = seq then .failed else .skipped } else e

/-- The rollback's statement: it goes through under the lease, and where it writes, at the revision it saw. -/
def refuse (i : Nat) : Queue :=
  match s.claims[i]? with
  | none => s
  | some c =>
    match c.stage with
    | .planned seen write =>
      if s.leased c ∧ (write = .nothing ∨ seen = s.live.map Prod.fst) then
        let s' := s.restore write
        { s' with
          entries := s.entries.map (rolledBack c.seq)
          claims := s.claims.eraseIdx i
          log := s.log ++ [.rolledBack c.op (s.live.isSome && s'.live.isNone)
            (s.remote.isSome && s'.live.map Prod.snd = s.remote)] }
      else { s with claims := s.claims.eraseIdx i }
    | _ => s

/-- The id map's row a page leaves, with the revision it wrote. -/
def mark (rid : String) (version : Option String) (written : Option Nat) : Option Mapped :=
  some ⟨rid, version.or (s.map.bind (·.remote_version)), written.or (s.map.bind (·.acked_revision))⟩

/-- Whether a page's row is of another remote row than the record's, or is stale. -/
def passes (newer : String → String → Bool) (rid : String) (version : Option String) : Bool :=
  s.map.any (·.remote_id ≠ rid) ||
    match version, s.map.bind (·.remote_version) with
    | some v, some prior => !newer v prior
    | _, _ => false

/-- A page with a row for the record, `none` for a deletion.  The page of a record that is another remote row's, and
the deletion of a mapped record that does not exist, are refused. -/
def page (newer : String → String → Bool) (rid : String) (version : Option String) (row : Option Image) : Queue :=
  if s.passes newer rid version then s
  else
    match row, s.live with
    | none, none => if s.map.isSome then s else { s with map := s.mark rid version none, remote := none }
    | none, some (revision, _) =>
      { s.store (revision + 1) none with map := s.mark rid version (some (revision + 1)), remote := none }
    | some image, none => { s.store 1 (some image) with map := s.mark rid version (some 1), remote := some image }
    | some image, some (revision, old) =>
      if old = image then { s with map := s.mark rid version none, remote := some image }
      else
        { s.store (revision + 1) (some image) with
          map := s.mark rid version (some (revision + 1)), remote := some image }

end Queue

inductive Act where
  | tick (ms : Nat)
  | commit (x : Captured) (change : Change) (changed : List String)
  | standing (before : Option Image) (changed : List String)
  | claim
  | hand (i : Nat)
  | ack (i : Nat) (id version : Option String)
  | retry (i : Nat) (time : Nat)
  | plan (i : Nat) (restored : Option Image)
  | refuse (i : Nat)
  | crash (i : Nat)
  deriving DecidableEq, Repr

def step (s : Queue) : Act → Queue
  | .tick ms => { s with now := s.now + ms }
  | .commit x change changed => s.commit x change changed
  | .standing before changed => s.standing before changed
  | .claim => s.claim
  | .hand i => s.hand i
  | .ack i id version => s.ack i id version
  | .retry i time => s.retry i time
  | .plan i restored => s.plan i restored
  | .refuse i => s.refuse i
  | .crash i => { s with claims := s.claims.eraseIdx i }

def run (s : Queue) (acts : List Act) : Queue := acts.foldl step s

/-- A record that does not exist; or one at its first revision, which the id map has as a remote row, or which was
there before the sync. -/
def init : Option (Option String × Image) → Queue
  | none => ⟨0, none, [], [], 0, none, [], none, []⟩
  | some (none, image) => ⟨0, some (1, image), [(1, some image)], [], 0, none, [], none, []⟩
  | some (some rid, image) =>
    ⟨0, some (1, image), [(1, some image)], [], 0, some ⟨rid, none, some 1⟩, [], some image, []⟩

end Norbital.Bolt.Outbox

import Mathlib.Data.List.Basic
import Norbital.Lib.Runs

/-!
# The interactive lease

The lease of an interactive transaction (`session` of `bolt/src/node/db/postgres.ts`): one connection
inside a transaction, batches that run one after another in a savepoint each, and one settlement.
Calls, the deadline, the connection's events and interruptions come between the client's steps in any
order; the server and the network are the other party.

A step of the client is what runs between two awaits.  Every `check` reads the clock: `late` says
whether the deadline has passed at the first, second or third of one step.
-/

namespace Norbital.Bolt.Interactive

/-- A SQLSTATE: of class 08 with its last characters, or of another class. -/
inductive SqlState where
  | connection (rest : String)
  | other (code : String)
  deriving DecidableEq, Repr

/-- `08007`: the commit could not be confirmed. -/
def unconfirmed : SqlState := .connection "007"

/-- What an exceeded lifetime and a cancelled call fail with. -/
def cancelled : SqlState := .other "57014"

/-- The server's own transaction timeout. -/
def transactionTimeout : SqlState := .other "25P04"

/-- A call on a lease that is closed or settling. -/
def notOpen : SqlState := .other "25000"

/-- The failures of a `commit` that leave its outcome open. -/
def SqlState.uncertain (code : SqlState) : Bool :=
  match code with
  | .connection _ => true
  | .other code => code = "57014"

inductive Answer where
  | ok
  | error (code : SqlState)
  deriving DecidableEq, Repr

inductive Settle where
  | commit
  | rollback
  deriving DecidableEq, Repr

/-- What is sent on the connection: statements (locks among them), savepoints, the settlement. -/
inductive Op (σ : Type) where
  | savepoint (name : Nat)
  | text (statement : σ)
  | rollbackTo (name : Nat)
  | release (name : Nat)
  | settle (kind : Settle)
  deriving DecidableEq, Repr

inductive Tx where
  | active
  | failed
  | committed
  | rolledBack
  deriving DecidableEq, Repr

/-- The server's side of the connection: the query it has yet to run, the transaction, what it did,
its savepoints (the last first), and the statements that ran outside any transaction. -/
structure Server (σ : Type) where
  alive : Bool
  inbox : Option (Op σ)
  tx : Tx
  work : List σ
  savepoints : List (Nat × List σ)
  stray : List σ

variable {σ : Type}

namespace Server

def restore (s : Server σ) (name : Nat) : Server σ × Answer :=
  match s.savepoints.dropWhile (·.1 ≠ name) with
  | [] => ({ s with tx := .failed }, .error (.other "3B001"))
  | (name, work) :: rest => ({ s with tx := .active, work, savepoints := (name, work) :: rest }, .ok)

def drop (s : Server σ) (name : Nat) : Server σ × Answer :=
  match s.savepoints.dropWhile (·.1 ≠ name) with
  | [] => ({ s with tx := .failed }, .error (.other "3B001"))
  | _ :: rest => ({ s with savepoints := rest }, .ok)

/-- The server runs a query, or refuses it.  A transaction that failed answers `commit` without an
error and rolls back; outside a transaction a statement commits by itself. -/
def run (s : Server σ) (op : Op σ) (refusal : Option SqlState) : Server σ × Answer :=
  match s.tx, op, refusal with
  | .active, .settle _, some code => ({ s with tx := .rolledBack }, .error code)
  | .active, _, some code => ({ s with tx := .failed }, .error code)
  | .active, .savepoint name, none => ({ s with savepoints := (name, s.work) :: s.savepoints }, .ok)
  | .active, .text statement, none => ({ s with work := s.work ++ [statement] }, .ok)
  | .active, .rollbackTo name, none => s.restore name
  | .active, .release name, none => s.drop name
  | .active, .settle .commit, none => ({ s with tx := .committed }, .ok)
  | .active, .settle .rollback, none => ({ s with tx := .rolledBack }, .ok)
  | .failed, .rollbackTo name, none => s.restore name
  | .failed, .settle _, _ => ({ s with tx := .rolledBack }, .ok)
  | .failed, _, _ => (s, .error (.other "25P02"))
  | _, .text statement, none => ({ s with stray := s.stray ++ [statement] }, .ok)
  | _, _, some code => (s, .error code)
  | _, _, none => (s, .error (.other "25P01"))

end Server

/-- A batch: its locks and statements, and whether it is a dry run. -/
structure Batch (σ : Type) where
  texts : List σ
  rollback : Bool
  deriving DecidableEq, Repr

/-- What a running batch awaits. -/
inductive Stage (σ : Type) where
  | savepoint
  /-- A statement, with those still to come. -/
  | statement (rest : List σ)
  /-- The `rollback to savepoint` of a dry run. -/
  | dry
  | release
  /-- A failed batch's `rollback to savepoint`, then its `release savepoint`. -/
  | undo (error : SqlState)
  | undone (error : SqlState)
  deriving DecidableEq, Repr

structure Running (σ : Type) where
  batch : Batch σ
  name : Nat
  stage : Stage σ

structure Lease (σ : Type) where
  server : Server σ
  closed : Bool
  settling : Bool
  committing : Bool
  finished : Option Settle
  failure : Option SqlState
  pending : Nat
  nextSavepoint : Nat
  queue : List (Batch σ)
  running : Option (Running σ)
  /-- The query in flight, and the server's answer once it has one. -/
  flight : Option (Op σ × Option Answer)
  /-- The connection is being destroyed, and how often it went back to the pool. -/
  destroying : Bool
  released : Nat
  sent : List (Op σ)
  /-- The batches that ended, and what their callers heard. -/
  answered : List (Batch σ × Answer)
  /-- What the call that settled the lease heard. -/
  settlement : Option (Settle × Answer)

/-- The lease as it is handed out, the transaction begun. -/
def init : Lease σ where
  server := ⟨true, none, .active, [], [], []⟩
  closed := false
  settling := false
  committing := false
  finished := none
  failure := none
  pending := 0
  nextSavepoint := 0
  queue := []
  running := none
  flight := none
  destroying := false
  released := 0
  sent := []
  answered := []
  settlement := none

namespace Lease

def stop (s : Lease σ) (destroy : Bool) (error : Option SqlState) : Lease σ :=
  if s.closed then s else
    { s with
      closed := true
      failure := error.map fun code => if s.committing && code.uncertain then unconfirmed else code
      destroying := destroy
      released := if destroy then s.released else s.released + 1 }

def settled (s : Lease σ) : SqlState := s.failure.getD notOpen

def check (s : Lease σ) (terminal late : Bool) : Lease σ × Answer :=
  let s := if late then s.stop true (some cancelled) else s
  if s.closed then (s, .error s.settled)
  else if s.settling && !terminal then (s, .error notOpen)
  else (s, .ok)

/-- The first half of `execute`: the check, then the query. -/
def execute (s : Lease σ) (op : Op σ) (terminal late : Bool) : Lease σ × Answer :=
  match s.check terminal late with
  | (s, .ok) =>
    ({ s with
      server := { s.server with inbox := some op }
      flight := some (op, none)
      sent := s.sent ++ [op] }, .ok)
  | (s, .error code) => (s, .error code)

/-- The second half: the answer, unless the lease was closed meanwhile. -/
def received (s : Lease σ) (answer : Answer) (terminal late : Bool) : Lease σ × Answer :=
  if s.closed then (s, .error s.settled) else
    match answer with
    | .ok => s.check terminal late
    | .error code =>
      let s := if code = transactionTimeout then s.stop true (some cancelled) else s
      (s, .error (if s.closed then s.settled else code))

def finishBatch (s : Lease σ) (batch : Batch σ) (answer : Answer) : Lease σ :=
  { s with running := none, flight := none, answered := s.answered ++ [(batch, answer)] }

/-- A batch that failed inside its savepoint takes it back. -/
def undo (s : Lease σ) (r : Running σ) (error : SqlState) (late : Bool) : Lease σ :=
  if s.closed then s.finishBatch r.batch (.error error) else
    match s.execute (.rollbackTo r.name) false late with
    | (s, .ok) => { s with running := some { r with stage := .undo error } }
    | (s, .error _) => (s.stop true (some error)).finishBatch r.batch (.error error)

def proceed (s : Lease σ) (r : Running σ) (op : Op σ) (stage : Stage σ) (late : Nat → Bool) : Lease σ :=
  match s.execute op false (late 1) with
  | (s, .ok) => { s with running := some { r with stage } }
  | (s, .error code) => s.undo r code (late 2)

/-- The next query of a batch with the statements `rest` still to run. -/
def next (s : Lease σ) (r : Running σ) (rest : List σ) (late : Nat → Bool) : Lease σ :=
  match rest with
  | statement :: rest => s.proceed r (.text statement) (.statement rest) late
  | [] =>
    if r.batch.rollback then s.proceed r (.rollbackTo r.name) .dry late
    else s.proceed r (.release r.name) .release late

/-- A batch's turn: its savepoint. -/
def turn (s : Lease σ) (batch : Batch σ) (late : Nat → Bool) : Lease σ :=
  match s.check false (late 0) with
  | (s, .error code) => s.finishBatch batch (.error code)
  | (s, .ok) =>
    let name := s.nextSavepoint
    match { s with nextSavepoint := name + 1 }.execute (.savepoint name) false (late 1) with
    | (s, .ok) => { s with running := some ⟨batch, name, .savepoint⟩ }
    | (s, .error code) => (s.stop true (some code)).finishBatch batch (.error code)

def start (s : Lease σ) (late : Nat → Bool) : Lease σ :=
  match s.running, s.queue with
  | none, batch :: queue => { s with queue }.turn batch late
  | _, _ => s

def wakeBatch (s : Lease σ) (r : Running σ) (answer : Answer) (late : Nat → Bool) : Lease σ :=
  match s.received answer false (late 0), r.stage with
  | (s, .ok), .savepoint => s.next r r.batch.texts late
  | (s, .ok), .statement rest => s.next r rest late
  | (s, .ok), .dry => s.proceed r (.release r.name) .release late
  | (s, .ok), .release => s.finishBatch r.batch .ok
  | (s, .ok), .undo error =>
    -- the batch is undone; its savepoint goes too
    match s.execute (.release r.name) false (late 1) with
    | (s, .ok) => { s with running := some { r with stage := .undone error } }
    | (s, .error _) => (s.stop true (some error)).finishBatch r.batch (.error error)
  | (s, .ok), .undone error => s.finishBatch r.batch (.error error)
  | (s, .error code), .savepoint => (s.stop true (some code)).finishBatch r.batch (.error code)
  | (s, .error _), .undo error => (s.stop true (some error)).finishBatch r.batch (.error error)
  | (s, .error _), .undone error => (s.stop true (some error)).finishBatch r.batch (.error error)
  | (s, .error code), _ => s.undo r code (late 1)

def settleFailed (s : Lease σ) (kind : Settle) (code : SqlState) : Lease σ :=
  let outcome := if kind = .commit ∧ code.uncertain = true then unconfirmed else code
  let s := s.stop true (some outcome)
  { s with
    failure := if outcome = unconfirmed then some outcome else s.failure
    flight := none
    settlement := some (kind, .error outcome) }

def wakeSettle (s : Lease σ) (kind : Settle) (answer : Answer) (late : Nat → Bool) : Lease σ :=
  match s.received answer true (late 0) with
  | (s, .ok) =>
    { ({ s with finished := some kind } : Lease σ).stop false none with
      flight := none
      settlement := some (kind, .ok) }
  | (s, .error code) => s.settleFailed kind code

/-- `commit` and `rollback`. -/
def finish (s : Lease σ) (kind : Settle) (late : Nat → Bool) : Lease σ :=
  if kind = .commit ∧ s.finished = some .commit then s
  else if kind = .rollback ∧ s.closed then s
  else if kind = .rollback ∧ s.settling then s.stop true (some unconfirmed)
  else match s.check false (late 0) with
    | (s, .error _) => s
    | (s, .ok) =>
      -- with batches pending a commit is refused, and a rollback gives the connection up
      if 0 < s.pending then
        match kind with
        | .commit => s
        | .rollback => s.stop true (some cancelled)
      else
        match { s with settling := true, committing := kind = Settle.commit }.execute (.settle kind) true (late 1) with
        | (s, .ok) => s
        | (s, .error code) => s.settleFailed kind code

def request (s : Lease σ) (batch : Batch σ) (late : Bool) : Lease σ :=
  match s.check false late with
  | (s, .ok) => { s with pending := s.pending + 1, queue := s.queue ++ [batch] }
  | (s, .error _) => s

/-- The client hears the answer of the query it waits for. -/
def answer (s : Lease σ) (answer : Answer) : Lease σ :=
  { s with flight := s.flight.map fun (op, _) => (op, some answer) }

/-- The server runs the query it was sent, whether or not the client still waits. -/
def serve (s : Lease σ) (refusal : Option SqlState) : Lease σ :=
  match s.server.inbox with
  | none => s
  | some op =>
    if s.server.alive then
      let (server, answer) := s.server.run op refusal
      { s with server := { server with inbox := none } }.answer answer
    else { s with server := { s.server with inbox := none } }.answer (.error (.connection "006"))

/-- What a client hears whose connection breaks: of a `commit` that was done, never that it was refused. -/
def lost (s : Lease σ) (code : SqlState) : SqlState :=
  if s.server.tx = .committed ∧ code.uncertain = false ∧ code ≠ transactionTimeout then .connection "006" else code

/-- The connection breaks: an open transaction is rolled back, and the query in flight fails. -/
def sever (s : Lease σ) (code : SqlState) : Lease σ :=
  { s with
    server := { s.server with
      alive := false
      inbox := none
      tx := if s.server.tx = Tx.committed then .committed else .rolledBack } }.answer (.error (s.lost code))

/-- The client goes on: with the answer, or, closed, without it. -/
def wake (s : Lease σ) (late : Nat → Bool) : Lease σ :=
  match s.flight with
  | none => s
  | some (op, answer) =>
    if answer = none ∧ s.closed = false then s
    else match op, s.running with
      | .settle kind, _ => s.wakeSettle kind (answer.getD .ok) late
      | _, some r => s.wakeBatch r (answer.getD .ok) late
      | _, none => s

end Lease

inductive Event (σ : Type) where
  | request (batch : Batch σ) (late : Bool)
  | start (late : Nat → Bool)
  | wake (late : Nat → Bool)
  /-- A batch's call returns to its caller. -/
  | forget
  | finish (kind : Settle) (late : Nat → Bool)
  /-- The deadline's timer, or an interrupted call. -/
  | cancel
  /-- The connection's `error` and `end` events. -/
  | error (code : SqlState)
  | ended
  /-- The destroyed connection is gone. -/
  | destroyed
  | serve (refusal : Option SqlState)
  | sever (code : SqlState)

def step (s : Lease σ) : Event σ → Lease σ
  | .request batch late => s.request batch late
  | .start late => s.start late
  | .wake late => s.wake late
  | .forget =>
    if s.queue.length + s.running.toList.length < s.pending then { s with pending := s.pending - 1 } else s
  | .finish kind late => s.finish kind late
  | .cancel => s.stop true (some cancelled)
  | .error code =>
    s.stop true (some (if s.committing then unconfirmed else if code = transactionTimeout then cancelled else code))
  | .ended => s.stop true (some (.connection "006"))
  | .destroyed => if s.destroying then { s with destroying := false, released := s.released + 1 } else s
  | .serve refusal => s.serve refusal
  | .sever code => s.sever code

def run (events : List (Event σ)) : Lease σ := events.foldl step init

def Server.Open (s : Server σ) (work : List σ) (savepoints : List (Nat × List σ)) : Prop :=
  s.tx = .active ∧ s.work = work ∧ s.savepoints = savepoints

/-- Inside one savepoint, which can be gone back to. -/
def Server.Within (s : Server σ) (name : Nat) (work : List σ) : Prop :=
  (s.tx = .active ∨ s.tx = .failed) ∧ s.savepoints = [(name, work)]

theorem Server.Open.within {s : Server σ} {work base : List σ} {name : Nat} (h : s.Open work [(name, base)]) :
    s.Within name base := ⟨Or.inl h.1, h.2.2⟩

/-- What a batch leaves in the transaction. -/
def Batch.effect (b : Batch σ) : List σ := if b.rollback then [] else b.texts

/-- What the batches that were answered without an error leave, in order. -/
def Lease.content (s : Lease σ) : List σ :=
  s.answered.flatMap fun a => if a.2 = .ok then a.1.effect else []

/-- What a running batch waits for, and what the server holds then: `base` is the work before it. -/
def Running.Expects (r : Running σ) (base : List σ) (op : Op σ) (s : Server σ) : Option Answer → Prop
  | none => match r.stage with
    | .savepoint => op = .savepoint r.name ∧ s.Open base []
    | .statement rest =>
      ∃ done x, r.batch.texts = done ++ x :: rest ∧ op = .text x ∧ s.Open (base ++ done) [(r.name, base)]
    | .dry => op = .rollbackTo r.name ∧ r.batch.rollback = true ∧ s.Within r.name base
    | .release => op = .release r.name ∧ s.Open (base ++ r.batch.effect) [(r.name, base)]
    | .undo _ => op = .rollbackTo r.name ∧ s.Within r.name base
    | .undone _ => op = .release r.name ∧ s.Open base [(r.name, base)]
  | some .ok => match r.stage with
    | .savepoint => s.Open base [(r.name, base)]
    | .statement rest => ∃ done, r.batch.texts = done ++ rest ∧ s.Open (base ++ done) [(r.name, base)]
    | .dry => r.batch.rollback = true ∧ s.Open base [(r.name, base)]
    | .release => s.Open (base ++ r.batch.effect) []
    | .undo _ => s.Open base [(r.name, base)]
    | .undone _ => s.Open base []
  | some (.error _) => match r.stage with
    | .statement _ | .dry | .release => s.Within r.name base
    | _ => True

/-- What the server of an open lease holds. -/
def Lease.Expects (s : Lease σ) : Prop :=
  match s.running, s.flight with
  | some r, some (op, answer) => (∀ kind, op ≠ .settle kind) ∧ r.Expects s.content op s.server answer
  | none, none => s.server.Open s.content []
  | none, some (op, _) => ∃ kind, op = .settle kind
  | some _, none => False

/-- The lease's invariant, apart from what an open lease's server holds. -/
structure Core (s : Lease σ) : Prop where
  stray : s.server.stray = []
  idle : s.settling = true → s.queue = [] ∧ s.running = none
  committing : s.committing = true → s.settling = true
  pending : s.queue.length + s.running.toList.length ≤ s.pending
  inbox : ∀ op, s.server.inbox = some op → s.server.alive = true → s.server.tx = .active ∨ s.server.tx = .failed
  settle : ∀ kind, s.server.inbox = some (.settle kind) → s.settling = true ∧
    (s.server.alive = true → s.server.Open s.content []) ∧
    (kind = .commit → s.flight = some (.settle .commit, none) ∨ s.settlement = some (.commit, .error unconfirmed))
  unanswered : ∀ op, s.flight = some (op, none) → s.server.inbox = some op
  answered : ∀ op a, s.flight = some (op, some a) → s.server.inbox = none ∧
    (a = .ok → s.server.alive = true ∧ (op = .settle .commit → s.server.tx = .committed))
  owner : ∀ op a, s.flight = some (op, a) → s.running ≠ none ∨ ∃ kind, op = .settle kind
  awaited : s.closed = false → s.flight = none → s.server.inbox = none
  settler : ∀ kind a, s.flight = some (.settle kind, a) → s.settling = true ∧ s.settlement = none ∧
    (kind = .commit → s.committing = true ∧ (s.closed = true → s.failure = some unconfirmed))
  settled : s.settlement ≠ none → s.closed = true
  committed : s.server.tx = .committed → s.settling = true ∧ s.server.work = s.content ∧ s.server.inbox = none ∧
    ((∃ a, s.flight = some (.settle .commit, some a) ∧
      (a = .ok ∨ ∃ code, a = .error code ∧ (code.uncertain = true ∨ code = transactionTimeout))) ∨
    s.settlement = some (.commit, .ok) ∨ s.settlement = some (.commit, .error unconfirmed))
  confirmed : s.settlement = some (.commit, .ok) → s.server.tx = .committed

structure Sound (s : Lease σ) : Prop extends Core s where
  expects : s.closed = false → s.server.alive = true → s.Expects

theorem sound_init : Sound (init : Lease σ) := by
  constructor
  · constructor <;> simp [init]
  · intro _ _
    exact ⟨rfl, rfl, rfl⟩

namespace Lease

theorem stop_of_closed {s : Lease σ} (h : s.closed = true) (destroy : Bool) (error : Option SqlState) :
    s.stop destroy error = s := by simp [stop, h]

/-- What `stop` leaves as it is. -/
theorem stop_fields (s : Lease σ) (destroy : Bool) (error : Option SqlState) :
    ((s.stop destroy error).closed = true ∧ (s.stop destroy error).server = s.server) ∧
    ((s.stop destroy error).settling = s.settling ∧ (s.stop destroy error).committing = s.committing) ∧
    (s.stop destroy error).pending = s.pending ∧ (s.stop destroy error).queue = s.queue ∧
    (s.stop destroy error).running = s.running ∧ (s.stop destroy error).flight = s.flight ∧
    (s.stop destroy error).answered = s.answered ∧ (s.stop destroy error).settlement = s.settlement ∧
    (s.stop destroy error).sent = s.sent ∧ (s.stop destroy error).finished = s.finished := by
  delta stop
  split
  next h => simp [h]
  next => simp

@[simp] theorem stop_closed (s : Lease σ) (d : Bool) (e : Option SqlState) : (s.stop d e).closed = true :=
  (stop_fields s d e).1.1
@[simp] theorem stop_server (s : Lease σ) (d : Bool) (e : Option SqlState) : (s.stop d e).server = s.server :=
  (stop_fields s d e).1.2

theorem stop_failure {s : Lease σ} (hcommitting : s.committing = true) {code : SqlState} (hcode : code.uncertain = true)
    (hopen : s.closed = false) (d : Bool) : (s.stop d (some code)).failure = some unconfirmed := by
  simp [stop, hopen, hcommitting, hcode]

end Lease

variable {s : Lease σ}

theorem Core.stop (h : Core s) {code : SqlState} (hcode : s.committing = true → code.uncertain = true) (d : Bool) :
    Core (s.stop d (some code)) := by
  cases hclosed : s.closed with
  | true => rwa [Lease.stop_of_closed hclosed]
  | false =>
    have hfailure (kind : Settle) (a : Option Answer) (hflight : s.flight = some (.settle kind, a))
        (hkind : kind = .commit) :
        (s.stop d (some code)).failure = some unconfirmed := by
      have hcommitting := ((h.settler kind a hflight).2.2 hkind).1
      exact Lease.stop_failure hcommitting (hcode hcommitting) hclosed d
    simp only [Lease.stop, hclosed, Bool.false_eq_true, if_false] at hfailure ⊢
    exact { h with
      awaited := fun h' => by cases h'
      settler := fun kind a hflight => by
        obtain ⟨hsettling, hnone, hcommit⟩ := h.settler kind a hflight
        exact ⟨hsettling, hnone, fun hkind => ⟨(hcommit hkind).1, fun _ => hfailure kind a hflight hkind⟩⟩
      settled := fun _ => rfl }

/-- A closed lease promises nothing of its server beyond the invariant's core. -/
theorem Core.sound (h : Core s) (hclosed : s.closed = true) : Sound s :=
  { h with expects := fun hopen => by rw [hclosed] at hopen; cases hopen }

theorem Core.sound_stop (h : Core s) {code : SqlState} (hcode : s.committing = true → code.uncertain = true) (d : Bool) :
    Sound (s.stop d (some code)) := (h.stop hcode d).sound (Lease.stop_closed ..)

/-- A check passes and leaves the lease as it is, or finds it closed (it may close it), or settling. -/
theorem check_cases (s : Lease σ) (terminal late : Bool) :
    (s.check terminal late = (s, .ok) ∧ s.closed = false ∧ (s.settling = true → terminal = true)) ∨
    ∃ s' code, s.check terminal late = (s', .error code) ∧ (s' = s ∨ s' = s.stop true (some cancelled)) ∧
      (s'.closed = true ∧ code = s'.settled ∨ s.settling = true ∧ terminal = false) := by
  delta Lease.check
  cases late with
  | true =>
    refine Or.inr ⟨_, (s.stop true (some cancelled)).settled, ?_, Or.inr rfl, Or.inl ⟨Lease.stop_closed .., rfl⟩⟩
    simp
  | false =>
    cases hclosed : s.closed with
    | true => exact Or.inr ⟨s, s.settled, by simp [hclosed], Or.inl rfl, Or.inl ⟨hclosed, rfl⟩⟩
    | false =>
      cases hsettling : s.settling <;> cases terminal <;> simp [hclosed, hsettling]

theorem Core.of_checked (h : Core s) {s' : Lease σ} (hs' : s' = s ∨ s' = s.stop true (some cancelled)) : Core s' := by
  obtain rfl | rfl := hs'
  · exact h
  · exact h.stop (fun _ => rfl) true

/-- The state in which a query has been sent. -/
def Lease.sending (s : Lease σ) (op : Op σ) : Lease σ :=
  { s with server := { s.server with inbox := some op }, flight := some (op, none), sent := s.sent ++ [op] }

theorem execute_cases (s : Lease σ) (op : Op σ) (terminal late : Bool) :
    (s.execute op terminal late = (s.sending op, .ok) ∧ s.closed = false ∧ (s.settling = true → terminal = true)) ∨
    ∃ s' code, s.execute op terminal late = (s', .error code) ∧ (s' = s ∨ s' = s.stop true (some cancelled)) ∧
      (s'.closed = true ∧ code = s'.settled ∨ s.settling = true ∧ terminal = false) := by
  obtain ⟨hcheck, hrest⟩ | ⟨s', code, hcheck, hrest⟩ := check_cases s terminal late
  · exact Or.inl ⟨by simp [Lease.execute, hcheck, Lease.sending], hrest⟩
  · exact Or.inr ⟨s', code, by simp [Lease.execute, hcheck], hrest⟩

/-- What an answer comes to: nothing changed and the answer was good, the lease is closed, or the answer was bad. -/
theorem received_cases (s : Lease σ) (a : Answer) (terminal late : Bool) :
    (s.received a terminal late = (s, .ok) ∧ s.closed = false ∧ a = .ok) ∨
    ∃ s' code, s.received a terminal late = (s', .error code) ∧ (s' = s ∨ s' = s.stop true (some cancelled)) ∧
      (s'.closed = true ∧ code = s'.settled ∨ s' = s ∧ a = .error code ∧ code ≠ transactionTimeout ∨
        s.settling = true ∧ terminal = false) := by
  delta Lease.received
  cases hclosed : s.closed with
  | true => exact Or.inr ⟨s, s.settled, by simp, Or.inl rfl, Or.inl ⟨hclosed, rfl⟩⟩
  | false =>
    cases a with
    | ok =>
      obtain ⟨hcheck, -, -⟩ | ⟨s', code, hcheck, hs', hrest⟩ := check_cases s terminal late
      · exact Or.inl ⟨by simp [hcheck], rfl, rfl⟩
      · exact Or.inr ⟨s', code, by simp [hcheck], hs', hrest.imp_right Or.inr⟩
    | error code =>
      by_cases hcode : code = transactionTimeout
      · exact Or.inr ⟨_, _, rfl, Or.inr (by simp [hcode]), Or.inl ⟨by simp [hcode], by simp [hcode]⟩⟩
      · exact Or.inr ⟨s, code, by simp [hcode, hclosed], Or.inl rfl, Or.inr (Or.inl ⟨rfl, rfl, hcode⟩)⟩

theorem content_append (s : Lease σ) (b : Batch σ) (a : Answer) :
    (s.finishBatch b a).content = s.content ++ if a = .ok then b.effect else [] := by
  simp [Lease.content, Lease.finishBatch]

/-- The end of a batch, where the server is back outside its savepoint. -/
theorem Core.finishBatch (h : Core s) (hsettling : s.settling = false) (b : Batch σ) (a : Answer)
    (hopen : s.closed = false → s.server.inbox = none ∧
      (s.server.alive = true → s.server.Open (s.finishBatch b a).content [])) :
    Sound (s.finishBatch b a) where
  stray := h.stray
  idle hs := by rw [show (s.finishBatch b a).settling = s.settling from rfl, hsettling] at hs; cases hs
  committing := h.committing
  pending := Nat.le_trans (Nat.le_add_right _ _) h.pending
  inbox := h.inbox
  settle kind hkind := by have := (h.settle kind hkind).1; rw [hsettling] at this; cases this
  unanswered op hop := by cases hop
  answered op a hop := by cases hop
  owner op a hop := by cases hop
  awaited hc _ := (hopen hc).1
  settler kind a hkind := by cases hkind
  settled := h.settled
  committed ht := by have := (h.committed ht).1; rw [hsettling] at this; cases this
  confirmed := h.confirmed
  expects hc halive := (hopen hc).2 halive

/-- A running batch sends its next query. -/
theorem Core.sendBatch (h : Core s) (hsettling : s.settling = false)
    (hpending : s.queue.length + 1 ≤ s.pending) {op : Op σ} (hop : ∀ kind, op ≠ .settle kind) (r : Running σ)
    (hserver : s.server.alive = true → (s.server.tx = .active ∨ s.server.tx = .failed) ∧
      r.Expects s.content op s.server none) :
    Sound { s.sending op with running := some r } where
  stray := h.stray
  idle hs := by
    rw [show ({ s.sending op with running := some r } : Lease σ).settling = s.settling from rfl, hsettling] at hs
    cases hs
  committing := h.committing
  pending := hpending
  inbox _ _ halive := (hserver halive).1
  settle kind hkind := absurd (Option.some.inj hkind) (hop kind)
  unanswered op' hop' := by cases hop'; rfl
  answered op' a hop' := by cases hop'
  owner _ _ _ := Or.inl (by simp)
  awaited _ hnone := by cases hnone
  settler kind a hkind := by cases hkind; exact absurd rfl (hop kind)
  settled := h.settled
  committed ht := by have := (h.committed ht).1; rw [hsettling] at this; cases this
  confirmed := h.confirmed
  expects _ halive := by
    refine ⟨hop, ?_⟩
    -- the stages' expectations do not mention the inbox
    have := (hserver halive).2
    cases r with
    | mk batch name stage => cases stage <;> exact this

theorem Core.undo (h : Core s) (hsettling : s.settling = false) (r : Running σ)
    (hpending : s.queue.length + 1 ≤ s.pending) (error : SqlState) (late : Bool)
    (hserver : s.closed = false → s.server.inbox = none ∧ (s.server.alive = true → s.server.Within r.name s.content)) :
    Sound (s.undo r error late) := by
  delta Lease.undo
  cases hclosed : s.closed with
  | true => exact h.finishBatch hsettling _ _ fun hc => by rw [hclosed] at hc; cases hc
  | false =>
    obtain ⟨hexecute, -, -⟩ | ⟨s', code, hexecute, hs', hwhy⟩ := execute_cases s (.rollbackTo r.name) false late
    · simp only [hexecute, Bool.false_eq_true, if_false]
      exact h.sendBatch hsettling hpending (fun _ hop => by cases hop) _
        fun halive => ⟨((hserver hclosed).2 halive).1, rfl, (hserver hclosed).2 halive⟩
    · simp only [hexecute, Bool.false_eq_true, if_false]
      obtain ⟨hs'closed, -⟩ | ⟨hs, -⟩ := hwhy
      · rw [Lease.stop_of_closed hs'closed]
        have hsettling' : s'.settling = false := by
          obtain rfl | rfl := hs'
          · exact hsettling
          · rw [(s.stop_fields true (some cancelled)).2.1.1, hsettling]
        exact (h.of_checked hs').finishBatch hsettling' _ _ fun hc => by rw [hs'closed] at hc; cases hc
      · rw [hsettling] at hs; cases hs

theorem Core.proceed (h : Core s) (hsettling : s.settling = false) (hopen : s.closed = false) (r : Running σ)
    (hpending : s.queue.length + 1 ≤ s.pending) {op : Op σ} (hop : ∀ kind, op ≠ .settle kind) (stage : Stage σ)
    (late : Nat → Bool)
    (hserver : s.server.inbox = none ∧ (s.server.alive = true → s.server.Within r.name s.content ∧
      ({ r with stage } : Running σ).Expects s.content op s.server none)) :
    Sound (s.proceed r op stage late) := by
  delta Lease.proceed
  obtain ⟨hexecute, -, -⟩ | ⟨s', code, hexecute, hs', hwhy⟩ := execute_cases s op false (late 1)
  · simp only [hexecute]
    exact h.sendBatch hsettling hpending hop _ fun halive =>
      ⟨(hserver.2 halive).1.1, (hserver.2 halive).2⟩
  · simp only [hexecute]
    obtain ⟨hs'closed, -⟩ | ⟨hs, -⟩ := hwhy
    · obtain rfl | rfl := hs'
      · rw [hopen] at hs'closed; cases hs'closed
      · obtain ⟨-, ⟨hsettles, -⟩, hpend, hqueue, -⟩ := s.stop_fields true (some cancelled)
        exact (h.stop (fun _ => rfl) true).undo (by rw [hsettles, hsettling]) r (by rw [hqueue, hpend]; exact hpending) _ _
          fun hc => by rw [hs'closed] at hc; cases hc
    · rw [hsettling] at hs; cases hs

/-- A batch that fails where it cannot go back closes the lease. -/
theorem Core.giveUp (h : Core s) (hsettling : s.settling = false) (b : Batch σ) (a : Answer) (code : SqlState) :
    Sound ((s.stop true (some code)).finishBatch b a) := by
  have hcommitting (hc : s.committing = true) : code.uncertain = true := by
    have := h.committing hc
    rw [hsettling] at this
    cases this
  refine (h.stop hcommitting true).finishBatch ?_ _ _ fun hc => ?_
  · rw [(s.stop_fields true (some code)).2.1.1, hsettling]
  · rw [Lease.stop_closed] at hc
    cases hc

theorem Core.next (h : Core s) (hsettling : s.settling = false) (hopen : s.closed = false) (r : Running σ)
    (hpending : s.queue.length + 1 ≤ s.pending) (done rest : List σ) (late : Nat → Bool)
    (htexts : r.batch.texts = done ++ rest) (hinbox : s.server.inbox = none)
    (hserver : s.server.alive = true → s.server.Open (s.content ++ done) [(r.name, s.content)]) :
    Sound (s.next r rest late) := by
  cases rest with
  | cons statement rest =>
    exact h.proceed hsettling hopen r hpending (fun _ hop => by cases hop) _ late
      ⟨hinbox, fun halive => ⟨(hserver halive).within, done, statement, htexts, rfl, hserver halive⟩⟩
  | nil =>
    rw [List.append_nil] at htexts
    delta Lease.next
    by_cases hdry : r.batch.rollback = true
    · rw [if_pos hdry]
      exact h.proceed hsettling hopen r hpending (fun _ hop => by cases hop) _ late
        ⟨hinbox, fun halive => ⟨(hserver halive).within, rfl, hdry, (hserver halive).within⟩⟩
    · rw [if_neg hdry]
      refine h.proceed hsettling hopen r hpending (fun _ hop => by cases hop) _ late
        ⟨hinbox, fun halive => ⟨(hserver halive).within, rfl, ?_⟩⟩
      rw [Batch.effect, if_neg hdry, htexts]
      exact hserver halive

theorem Sound.notSettling (h : Sound s) {r : Running σ} (hrunning : s.running = some r) : s.settling = false := by
  by_contra hs
  have := (h.idle (by simpa using hs)).2
  rw [hrunning] at this
  cases this

theorem Sound.wakeBatch (h : Sound s) {r : Running σ} {op : Op σ} {answer : Option Answer} (hrunning : s.running = some r)
    (hflight : s.flight = some (op, answer)) (hanswer : answer = none → s.closed = true) (late : Nat → Bool) :
    Sound (s.wakeBatch r (answer.getD .ok) late) := by
  have hsettling := h.notSettling hrunning
  have hpending : s.queue.length + 1 ≤ s.pending := by simpa [hrunning] using h.pending
  have hexpects (hopen : s.closed = false) (halive : s.server.alive = true) : r.Expects s.content op s.server answer := by
    have := h.expects hopen halive
    rw [Lease.Expects, hrunning, hflight] at this
    exact this.2
  delta Lease.wakeBatch
  obtain ⟨hreceived, hopen, hok⟩ | ⟨s', code, hreceived, hs', hwhy⟩ := received_cases s (answer.getD .ok) false (late 0)
  · have hanswer : answer = some .ok := by
      cases answer with
      | none => rw [hanswer rfl] at hopen; cases hopen
      | some a => exact congrArg some hok
    subst hanswer
    obtain ⟨hinbox, hgood⟩ := h.answered op .ok hflight
    have hserver := hexpects hopen (hgood rfl).1
    rw [hreceived]
    cases hstage : r.stage with
    | savepoint =>
      simp only [Running.Expects, hstage] at hserver
      exact h.toCore.next hsettling hopen r hpending [] _ late rfl hinbox fun _ => by rwa [List.append_nil]
    | statement rest =>
      simp only [Running.Expects, hstage] at hserver
      obtain ⟨done, htexts, hserver⟩ := hserver
      exact h.toCore.next hsettling hopen r hpending done rest late htexts hinbox fun _ => hserver
    | dry =>
      simp only [Running.Expects, hstage] at hserver
      refine h.toCore.proceed hsettling hopen r hpending (fun _ hop => by cases hop) _ late
        ⟨hinbox, fun _ => ⟨hserver.2.within, rfl, ?_⟩⟩
      rw [Batch.effect, if_pos hserver.1, List.append_nil]
      exact hserver.2
    | release =>
      simp only [Running.Expects, hstage] at hserver
      refine h.toCore.finishBatch hsettling _ _ fun _ => ⟨hinbox, fun _ => ?_⟩
      rw [content_append, if_pos rfl]
      exact hserver
    | undo error =>
      simp only [Running.Expects, hstage] at hserver
      obtain ⟨hexecute, -, -⟩ | ⟨s', code, hexecute, hs', -⟩ := execute_cases s (.release r.name) false (late 1)
      · simp only [hexecute]
        exact h.toCore.sendBatch hsettling hpending (fun _ hop => by cases hop) _ fun _ => ⟨Or.inl hserver.1, rfl, hserver⟩
      · simp only [hexecute]
        have hsettling' : s'.settling = false := by
          obtain rfl | rfl := hs'
          · exact hsettling
          · rw [(s.stop_fields true (some cancelled)).2.1.1, hsettling]
        exact (h.toCore.of_checked hs').giveUp hsettling' _ _ _
    | undone error =>
      simp only [Running.Expects, hstage] at hserver
      refine h.toCore.finishBatch hsettling _ _ fun _ => ⟨hinbox, fun _ => ?_⟩
      rw [content_append, if_neg (by simp), List.append_nil]
      exact hserver
  · have hcore := h.toCore.of_checked hs'
    have hfields : s'.settling = false ∧ s'.queue = s.queue ∧ s'.pending = s.pending := by
      obtain rfl | rfl := hs'
      · exact ⟨hsettling, rfl, rfl⟩
      · obtain ⟨-, ⟨hsettles, -⟩, hpend, hqueue, -⟩ := s.stop_fields true (some cancelled)
        exact ⟨by rw [hsettles, hsettling], hqueue, hpend⟩
    -- a lease left open heard the server refuse, inside the savepoint
    have hundo (error : SqlState) (hstage : (∃ rest, r.stage = .statement rest) ∨ r.stage = .dry ∨ r.stage = .release) :
        Sound (s'.undo r error (late 1)) := by
      refine hcore.undo hfields.1 r (by rw [hfields.2.1, hfields.2.2]; exact hpending) _ _ fun hopen => ?_
      obtain ⟨hclosed, -⟩ | ⟨rfl, hcode, -⟩ | ⟨hs, -⟩ := hwhy
      · rw [hopen] at hclosed; cases hclosed
      · cases answer with
        | none => rw [hanswer rfl] at hopen; cases hopen
        | some a =>
          cases hcode
          refine ⟨(h.answered op _ hflight).1, fun halive => ?_⟩
          have hserver := hexpects hopen halive
          obtain ⟨rest, hstage⟩ | hstage | hstage := hstage <;> simpa only [Running.Expects, hstage] using hserver
      · rw [hsettling] at hs; cases hs
    rw [hreceived]
    cases hstage : r.stage with
    | savepoint => exact hcore.giveUp hfields.1 _ _ _
    | statement rest => exact hundo code (Or.inl ⟨rest, hstage⟩)
    | dry => exact hundo code (Or.inr (Or.inl hstage))
    | release => exact hundo code (Or.inr (Or.inr hstage))
    | undo error => exact hcore.giveUp hfields.1 _ _ _
    | undone error => exact hcore.giveUp hfields.1 _ _ _

theorem Core.turn (h : Core s) (hsettling : s.settling = false) (batch : Batch σ) (late : Nat → Bool)
    (hpending : s.queue.length + 1 ≤ s.pending)
    (hopen : s.closed = false → s.server.inbox = none ∧ (s.server.alive = true → s.server.Open s.content [])) :
    Sound (s.turn batch late) := by
  delta Lease.turn
  have hsettling' {a s' : Lease σ} (ha : a.settling = false) (hs' : s' = a ∨ s' = a.stop true (some cancelled)) :
      s'.settling = false := by
    obtain rfl | rfl := hs'
    · exact ha
    · rw [(a.stop_fields true (some cancelled)).2.1.1, ha]
  obtain ⟨hcheck, hnotClosed, -⟩ | ⟨s', code, hcheck, hs', hwhy⟩ := check_cases s false (late 0)
  · simp only [hcheck]
    have hnamed : Core ({ s with nextSavepoint := s.nextSavepoint + 1 } : Lease σ) := { h with }
    obtain ⟨hexecute, -, -⟩ | ⟨s', code, hexecute, hs', -⟩ :=
      execute_cases ({ s with nextSavepoint := s.nextSavepoint + 1 } : Lease σ) (.savepoint s.nextSavepoint) false (late 1)
    · simp only [hexecute]
      have hserver := (hopen hnotClosed).2
      exact hnamed.sendBatch hsettling hpending (fun _ hop => by cases hop) _
        fun halive => ⟨Or.inl (hserver halive).1, rfl, hserver halive⟩
    · simp only [hexecute]
      exact (hnamed.of_checked hs').giveUp (hsettling' (a := { s with nextSavepoint := s.nextSavepoint + 1 }) hsettling hs') _ _ _
  · simp only [hcheck]
    refine (h.of_checked hs').finishBatch (hsettling' hsettling hs') _ _ fun hc => ?_
    obtain ⟨hclosed, -⟩ | ⟨hs, -⟩ := hwhy
    · rw [hc] at hclosed; cases hclosed
    · rw [hsettling] at hs; cases hs

theorem Sound.start (h : Sound s) (late : Nat → Bool) : Sound (s.start late) := by
  delta Lease.start
  split
  next batch queue hrunning hqueue =>
    have hsettling : s.settling = false := by
      by_contra hs
      have := (h.idle (by simpa using hs)).1
      rw [hqueue] at this
      cases this
    have hpending : queue.length + 1 ≤ s.pending := by simpa [hrunning, hqueue] using h.pending
    have hpopped : Core ({ s with queue } : Lease σ) := { h.toCore with
      idle := fun hs => absurd hs (by simp [hsettling])
      pending := by
        have : s.running.toList.length = 0 := by simp [hrunning]
        show queue.length + s.running.toList.length ≤ s.pending
        omega }
    refine hpopped.turn hsettling batch late hpending fun hopen => ?_
    -- only a settlement could be in flight here, and the lease is not settling
    have hflight : s.flight = none := by
      by_contra hsome
      obtain ⟨⟨op, a⟩, hflight⟩ := Option.ne_none_iff_exists'.mp hsome
      obtain hnone | ⟨kind, rfl⟩ := h.owner op a hflight
      · exact hnone hrunning
      · rw [(h.settler kind a hflight).1] at hsettling
        cases hsettling
    refine ⟨h.awaited hopen hflight, fun halive => ?_⟩
    have := h.expects hopen halive
    rwa [Lease.Expects, hrunning, hflight] at this
  next => exact h

/-- The settling call has heard its answer. -/
theorem Core.settles (h : Core s) (hsettling : s.settling = true) {t : Lease σ} {kind : Settle} {a : Answer}
    (hclosed : t.closed = true) (hserver : t.server = s.server) (hfields : t.settling = s.settling ∧ t.pending = s.pending ∧
      t.queue = s.queue ∧ t.running = s.running ∧ t.answered = s.answered)
    (hflight : t.flight = none) (hsettlement : t.settlement = some (kind, a))
    (hsent : s.server.inbox = some (.settle .commit) → kind = .commit ∧ a = .error unconfirmed)
    (hdone : s.server.tx = .committed → kind = .commit ∧ (a = .ok ∨ a = .error unconfirmed))
    (hok : kind = .commit → a = .ok → s.server.tx = .committed) : Sound t := by
  obtain ⟨hsettles, hpending, hqueue, hrunning, hanswered⟩ := hfields
  have hcontent : t.content = s.content := by rw [Lease.content, Lease.content, hanswered]
  refine Core.sound ?_ hclosed
  constructor
  case stray => rw [hserver]; exact h.stray
  case idle => rw [hqueue, hrunning]; exact fun _ => h.idle hsettling
  case committing => exact fun _ => hsettles.trans hsettling
  case pending => rw [hqueue, hrunning, hpending]; exact h.pending
  case inbox => rw [hserver]; exact h.inbox
  case settle =>
    rw [hserver, hcontent, hsettles, hflight, hsettlement]
    intro kind' hkind'
    obtain ⟨hs, hopen, -⟩ := h.settle kind' hkind'
    refine ⟨hs, hopen, fun hcommit => Or.inr ?_⟩
    obtain ⟨rfl, rfl⟩ := hsent (by rw [hkind', hcommit])
    rfl
  case unanswered => rw [hflight]; intro op hop; cases hop
  case answered => rw [hflight]; intro op a hop; cases hop
  case owner => rw [hflight]; intro op a hop; cases hop
  case awaited => rw [hclosed]; intro hc; cases hc
  case settler => rw [hflight]; intro kind a hop; cases hop
  case settled => exact fun _ => hclosed
  case committed =>
    rw [hserver, hcontent, hsettlement]
    intro ht
    obtain ⟨-, hwork, hinbox, -⟩ := h.committed ht
    obtain ⟨rfl, rfl | rfl⟩ := hdone ht
    · exact ⟨hsettles.trans hsettling, hwork, hinbox, Or.inr (Or.inl rfl)⟩
    · exact ⟨hsettles.trans hsettling, hwork, hinbox, Or.inr (Or.inr rfl)⟩
  case confirmed =>
    rw [hserver, hsettlement]
    intro heq
    cases heq
    exact hok rfl rfl

theorem Core.settleFailed (h : Core s) (hsettling : s.settling = true) {kind : Settle} {code : SqlState}
    (hcode : s.server.inbox = some (.settle .commit) ∨ s.server.tx = .committed → kind = .commit ∧ code.uncertain = true) :
    Sound (s.settleFailed kind code) := by
  obtain ⟨⟨hclosed, hserver⟩, ⟨hsettles, -⟩, hpending, hqueue, hrunning, -, hanswered, -⟩ :=
    s.stop_fields true (some (if kind = .commit ∧ code.uncertain = true then unconfirmed else code))
  refine h.settles hsettling hclosed hserver ⟨hsettles, hpending, hqueue, hrunning, hanswered⟩ rfl rfl ?_ ?_ ?_
  · intro hinbox
    refine ⟨(hcode (Or.inl hinbox)).1, ?_⟩
    rw [if_pos (hcode (Or.inl hinbox))]
  · intro ht
    refine ⟨(hcode (Or.inr ht)).1, Or.inr ?_⟩
    rw [if_pos (hcode (Or.inr ht))]
  · intro _ heq
    cases heq

theorem Sound.wakeSettle (h : Sound s) {kind : Settle} {answer : Option Answer} (hflight : s.flight = some (.settle kind, answer))
    (hanswer : answer = none → s.closed = true) (late : Nat → Bool) :
    Sound (s.wakeSettle kind (answer.getD .ok) late) := by
  obtain ⟨hsettling, hnone, -⟩ := h.settler kind answer hflight
  -- a transaction that committed was sent `commit`, and that is what is in flight
  have hkind (ht : s.server.inbox = some (.settle .commit) ∨ s.server.tx = .committed) : kind = .commit := by
    obtain hinbox | ht := ht
    · obtain hcommit | hcommit := (h.settle .commit hinbox).2.2 rfl
      · rw [hflight] at hcommit; cases hcommit; rfl
      · rw [hnone] at hcommit; cases hcommit
    · obtain ⟨-, -, -, ⟨a, ha, -⟩ | hcommit | hcommit⟩ := h.committed ht
      · rw [hflight] at ha; cases ha; rfl
      · rw [hnone] at hcommit; cases hcommit
      · rw [hnone] at hcommit; cases hcommit
  delta Lease.wakeSettle
  obtain ⟨hreceived, hopen, hok⟩ | ⟨s', code, hreceived, hs', hwhy⟩ := received_cases s (answer.getD .ok) true (late 0)
  · have hanswer : answer = some .ok := by
      cases answer with
      | none => rw [hanswer rfl] at hopen; cases hopen
      | some a => exact congrArg some hok
    subst hanswer
    obtain ⟨hinbox, hgood⟩ := h.answered _ _ hflight
    rw [hreceived]
    obtain ⟨⟨hclosed, hserver⟩, ⟨hsettles, -⟩, hpending, hqueue, hrunning, -, hanswered, -⟩ :=
      ({ s with finished := some kind } : Lease σ).stop_fields false none
    refine h.toCore.settles hsettling hclosed hserver ⟨hsettles, hpending, hqueue, hrunning, hanswered⟩ rfl rfl ?_ ?_ ?_
    · intro hsent; rw [hinbox] at hsent; cases hsent
    · exact fun ht => ⟨hkind (Or.inr ht), Or.inl rfl⟩
    · rintro rfl -
      exact (hgood rfl).2 rfl
  · rw [hreceived]
    have hcore := h.toCore.of_checked hs'
    have hsame : s'.server = s.server ∧ s'.settling = s.settling ∧ s'.flight = s.flight := by
      obtain rfl | rfl := hs'
      · exact ⟨rfl, rfl, rfl⟩
      · obtain ⟨⟨-, hserver⟩, ⟨hsettles, -⟩, -, -, -, hflight, -⟩ := s.stop_fields true (some cancelled)
        exact ⟨hserver, hsettles, hflight⟩
    refine hcore.settleFailed (hsame.2.1.trans hsettling) fun ht => ?_
    rw [hsame.1] at ht
    refine ⟨hkind ht, ?_⟩
    obtain rfl := hkind ht
    obtain ⟨hclosed, rfl⟩ | ⟨rfl, hcode, hnot⟩ | ⟨-, hterminal⟩ := hwhy
    · -- a lease closed while it commits fails with `unconfirmed`
      have := ((hcore.settler .commit answer (hsame.2.2.trans hflight)).2.2 rfl).2 hclosed
      rw [Lease.settled, this]
      rfl
    · cases answer with
      | none => cases hcode
      | some a =>
        obtain rfl : a = .error code := hcode
        obtain hinbox | ht := ht
        · rw [(h.answered _ _ hflight).1] at hinbox; cases hinbox
        · obtain ⟨-, -, -, ⟨a, ha, hlost⟩ | hcommit | hcommit⟩ := h.committed ht
          · rw [hflight] at ha
            cases ha
            obtain hlost | ⟨code, heq, hlost | hlost⟩ := hlost
            · cases hlost
            · cases heq; exact hlost
            · cases heq; exact absurd hlost hnot
          · rw [hnone] at hcommit; cases hcommit
          · rw [hnone] at hcommit; cases hcommit
    · cases hterminal

theorem Sound.finish (h : Sound s) (kind : Settle) (late : Nat → Bool) : Sound (s.finish kind late) := by
  delta Lease.finish
  split
  next => exact h
  split
  next => exact h
  split
  next => exact h.toCore.sound_stop (fun _ => rfl) true
  obtain ⟨hcheck, hopen, hterminal⟩ | ⟨s', code, hcheck, hs', hwhy⟩ := check_cases s false (late 0)
  · simp only [hcheck]
    have hsettling : s.settling = false := by
      by_contra hs
      exact absurd (hterminal (by simpa using hs)) (by simp)
    split
    next =>
      cases kind with
      | commit => exact h
      | rollback => exact h.toCore.sound_stop (fun _ => rfl) true
    next hpending =>
      -- nothing is queued or running, so nothing is in flight
      have hempty : s.queue = [] ∧ s.running = none := by
        have := h.pending
        refine ⟨List.length_eq_zero_iff.mp (by omega), ?_⟩
        cases hrunning : s.running with
        | none => rfl
        | some r => rw [hrunning] at this; simp at this; omega
      have hflight : s.flight = none := by
        by_contra hsome
        obtain ⟨⟨op, a⟩, hflight⟩ := Option.ne_none_iff_exists'.mp hsome
        obtain hnone | ⟨kind, rfl⟩ := h.owner op a hflight
        · exact hnone hempty.2
        · rw [(h.settler kind a hflight).1] at hsettling
          cases hsettling
      have hinbox := h.awaited hopen hflight
      have hserver (halive : s.server.alive = true) : s.server.Open s.content [] := by
        have := h.expects hopen halive
        rwa [Lease.Expects, hempty.2, hflight] at this
      have hnone : s.settlement = none := by
        by_contra hsome
        rw [h.settled hsome] at hopen
        cases hopen
      have hactive : s.server.tx ≠ .committed := fun ht => by
        have := (h.committed ht).1
        rw [hsettling] at this
        cases this
      obtain ⟨hexecute, -, -⟩ | ⟨s', code, hexecute, hs', hwhy⟩ :=
        execute_cases ({ s with settling := true, committing := kind = Settle.commit } : Lease σ) (.settle kind) true (late 1)
      · simp only [hexecute]
        refine ⟨?_, fun _ _ => ?_⟩
        · constructor
          case stray => exact h.stray
          case idle => exact fun _ => hempty
          case committing => exact fun _ => rfl
          case pending => exact h.pending
          case inbox => exact fun _ _ halive => Or.inl (hserver halive).1
          case settle =>
            intro kind' hkind'
            cases hkind'
            exact ⟨rfl, hserver, fun hcommit => Or.inl (by rw [hcommit]; rfl)⟩
          case unanswered => intro op hop; cases hop; rfl
          case answered => intro op a hop; cases hop
          case owner => intro op a hop; cases hop; exact Or.inr ⟨kind, rfl⟩
          case awaited => intro _ hop; cases hop
          case settler =>
            intro kind' a hop
            cases hop
            exact ⟨rfl, hnone, fun hcommit => ⟨decide_eq_true hcommit, fun hc =>
              absurd (hopen.symm.trans hc) Bool.false_ne_true⟩⟩
          case settled => exact h.settled
          case committed => exact fun ht => absurd ht hactive
          case confirmed => exact h.confirmed
        · have : s.running = none := hempty.2
          simp [Lease.Expects, Lease.sending, this]
      · simp only [hexecute]
        have hfields : s'.server = s.server ∧ s'.settling = true := by
          obtain rfl | rfl := hs'
          · exact ⟨rfl, rfl⟩
          · obtain ⟨⟨-, hserver⟩, ⟨hsettles, -⟩, -⟩ :=
              ({ s with settling := true, committing := kind = Settle.commit } : Lease σ).stop_fields true (some cancelled)
            exact ⟨hserver, hsettles⟩
        have hbegun : Core ({ s with settling := true, committing := kind = Settle.commit } : Lease σ) := { h.toCore with
          idle := fun _ => hempty
          committing := fun _ => rfl
          settle := fun kind' hkind' => by rw [show ({ s with settling := true, committing := kind = Settle.commit } :
            Lease σ).server = s.server from rfl, hinbox] at hkind'; cases hkind'
          settler := fun kind' a hop => by rw [show ({ s with settling := true, committing := kind = Settle.commit } :
            Lease σ).flight = s.flight from rfl, hflight] at hop; cases hop
          committed := fun ht => absurd ht hactive }
        refine (hbegun.of_checked hs').settleFailed hfields.2 fun ht => ?_
        rw [hfields.1, hinbox] at ht
        obtain hsent | ht := ht
        · cases hsent
        · exact absurd ht hactive
  · simp only [hcheck]
    obtain rfl | rfl := hs'
    · exact h
    · exact h.toCore.sound_stop (fun _ => rfl) true

theorem Server.run_savepoint {t : Server σ} (h : t.tx = .active) (name : Nat) :
    t.run (.savepoint name) none = ({ t with savepoints := (name, t.work) :: t.savepoints }, .ok) := by
  cases t; cases h; rfl

theorem Server.run_text {t : Server σ} (h : t.tx = .active) (statement : σ) :
    t.run (.text statement) none = ({ t with work := t.work ++ [statement] }, .ok) := by
  cases t; cases h; rfl

theorem Server.run_commit {t : Server σ} (h : t.tx = .active) : t.run (.settle .commit) none = ({ t with tx := .committed }, .ok) := by
  cases t; cases h; rfl

theorem Server.run_commit_refused {t : Server σ} (h : t.tx = .active) (code : SqlState) :
    t.run (.settle .commit) (some code) = ({ t with tx := .rolledBack }, .error code) := by
  cases t; cases h; rfl

/-- A transaction that failed goes back to no savepoint where the server refuses. -/
theorem Server.run_failed {t : Server σ} (h : t.tx = .failed) (name : Nat) (code : SqlState) :
    t.run (.rollbackTo name) (some code) = (t, .error (.other "25P02")) := by
  cases t; cases h; rfl

theorem Server.run_rollbackTo {t : Server σ} {name : Nat} {base : List σ} (h : t.Within name base) :
    t.run (.rollbackTo name) none = ({ t with tx := .active, work := base, savepoints := [(name, base)] }, .ok) := by
  have hrestore : t.restore name = ({ t with tx := .active, work := base, savepoints := [(name, base)] }, .ok) := by
    simp [Server.restore, h.2]
  rw [← hrestore]
  cases t
  obtain ⟨htx | htx, -⟩ := h
  · cases htx; rfl
  · cases htx; rfl

theorem Server.run_release {t : Server σ} {name : Nat} {work base : List σ} (h : t.Open work [(name, base)]) :
    t.run (.release name) none = ({ t with savepoints := [] }, .ok) := by
  have hdrop : t.drop name = ({ t with savepoints := [] }, .ok) := by simp [Server.drop, h.2.2]
  rw [← hdrop]
  obtain ⟨htx, -⟩ := h
  cases t; cases htx; rfl

theorem Server.run_refused {t : Server σ} (h : t.tx = .active) {op : Op σ} (hop : ∀ kind, op ≠ .settle kind) (code : SqlState) :
    t.run op (some code) = ({ t with tx := .failed }, .error code) := by
  cases t
  cases h
  cases op with
  | settle kind => exact absurd rfl (hop kind)
  | savepoint name => rfl
  | text statement => rfl
  | rollbackTo name => rfl
  | release name => rfl

/-- A query of an open transaction runs inside it. -/
theorem Server.run_fields {t : Server σ} (h : t.tx = .active ∨ t.tx = .failed) (op : Op σ) (refusal : Option SqlState) :
    (t.run op refusal).1.alive = t.alive ∧ (t.run op refusal).1.stray = t.stray ∧
    ((t.run op refusal).1.tx = .committed → op = .settle .commit ∧ (t.run op refusal).2 = .ok ∧ (t.run op refusal).1.work = t.work) := by
  obtain ⟨alive, inbox, tx, work, savepoints, stray⟩ := t
  obtain rfl | rfl := h <;> cases op <;> cases refusal <;>
    simp only [Server.run, Server.restore, Server.drop] <;> (try split) <;> simp_all

/-- The server does what the running batch expects of it, or refuses. -/
theorem Running.Expects.run {r : Running σ} {base : List σ} {op : Op σ} {t : Server σ} (h : r.Expects base op t none)
    (refusal : Option SqlState) : r.Expects base op { (t.run op refusal).1 with inbox := none } (some (t.run op refusal).2) := by
  have hback {base : List σ} (hwithin : t.Within r.name base) :
      (∃ code, (t.run (.rollbackTo r.name) refusal).2 = .error code ∧ (t.run (.rollbackTo r.name) refusal).1.Within r.name base) ∨
      t.run (.rollbackTo r.name) refusal = ({ t with tx := .active, work := base, savepoints := [(r.name, base)] }, .ok) := by
    cases refusal with
    | none => exact Or.inr (Server.run_rollbackTo hwithin)
    | some code =>
      obtain ⟨htx | htx, hsavepoints⟩ := hwithin
      · rw [Server.run_refused htx (fun _ hop => by cases hop)]
        exact Or.inl ⟨code, rfl, Or.inr rfl, hsavepoints⟩
      · rw [Server.run_failed htx]
        exact Or.inl ⟨_, rfl, Or.inr htx, hsavepoints⟩
  delta Running.Expects at h ⊢
  cases hstage : r.stage with
  | savepoint =>
    rw [hstage] at h
    obtain ⟨rfl, htx, hwork, hsavepoints⟩ := h
    cases refusal with
    | none =>
      rw [Server.run_savepoint htx]
      exact ⟨htx, hwork, by rw [hwork, hsavepoints]⟩
    | some code => rw [Server.run_refused htx (fun _ hop => by cases hop)]; trivial
  | statement rest =>
    rw [hstage] at h
    obtain ⟨done, x, htexts, rfl, htx, hwork, hsavepoints⟩ := h
    cases refusal with
    | none =>
      rw [Server.run_text htx]
      refine ⟨done ++ [x], by rw [htexts, List.append_assoc]; rfl, htx, ?_, hsavepoints⟩
      show t.work ++ [x] = _
      rw [hwork, List.append_assoc]
    | some code => rw [Server.run_refused htx (fun _ hop => by cases hop)]; exact ⟨Or.inr rfl, hsavepoints⟩
  | dry =>
    rw [hstage] at h
    obtain ⟨rfl, hdry, hwithin⟩ := h
    obtain ⟨code, hcode, hserver⟩ | hrun := hback hwithin
    · rw [hcode]
      exact hserver
    · rw [hrun]
      exact ⟨hdry, rfl, rfl, rfl⟩
  | release =>
    rw [hstage] at h
    obtain ⟨rfl, hopen⟩ := h
    cases refusal with
    | none => rw [Server.run_release hopen]; exact ⟨hopen.1, hopen.2.1, rfl⟩
    | some code => rw [Server.run_refused hopen.1 (fun _ hop => by cases hop)]; exact ⟨Or.inr rfl, hopen.2.2⟩
  | undo error =>
    rw [hstage] at h
    obtain ⟨rfl, hwithin⟩ := h
    obtain ⟨code, hcode, -⟩ | hrun := hback hwithin
    · rw [hcode]
      trivial
    · rw [hrun]
      exact ⟨rfl, rfl, rfl⟩
  | undone error =>
    rw [hstage] at h
    obtain ⟨rfl, hopen⟩ := h
    cases refusal with
    | none => rw [Server.run_release hopen]; exact ⟨hopen.1, hopen.2.1, rfl⟩
    | some code => rw [Server.run_refused hopen.1 (fun _ hop => by cases hop)]; trivial

theorem flight_answer (s : Lease σ) (a : Answer) {op : Op σ} {o : Option Answer} (h : (s.answer a).flight = some (op, o)) :
    o = some a ∧ ∃ o', s.flight = some (op, o') := by
  rw [Lease.answer, Option.map_eq_some_iff] at h
  obtain ⟨⟨op', o'⟩, hflight, heq⟩ := h
  cases heq
  exact ⟨rfl, o', hflight⟩

/-- A query is answered, or its connection breaks. -/
theorem Core.answer (h : Core s) {t : Server σ} {a : Answer} (hstray : t.stray = []) (hinbox : t.inbox = none)
    (hgood : ∀ op o, s.flight = some (op, o) → a = .ok → t.alive = true ∧ (op = .settle .commit → t.tx = .committed))
    (hcommitted : t.tx = .committed → s.settling = true ∧ t.work = s.content ∧
      ((∃ o, s.flight = some (.settle .commit, o)) ∧
        (a = .ok ∨ ∃ code, a = .error code ∧ (code.uncertain = true ∨ code = transactionTimeout)) ∨
      s.settlement = some (.commit, .ok) ∨ s.settlement = some (.commit, .error unconfirmed)))
    (hconfirmed : s.settlement = some (.commit, .ok) → t.tx = .committed) :
    Core (({ s with server := t } : Lease σ).answer a) where
  stray := hstray
  idle := h.idle
  committing := h.committing
  pending := h.pending
  inbox op hop := by rw [show (Lease.answer _ a).server = t from rfl, hinbox] at hop; cases hop
  settle kind hop := by rw [show (Lease.answer _ a).server = t from rfl, hinbox] at hop; cases hop
  unanswered op hop := by obtain ⟨hnone, -⟩ := flight_answer _ _ hop; cases hnone
  answered op a' hop := by
    obtain ⟨heq, o, hflight⟩ := flight_answer _ _ hop
    cases heq
    exact ⟨hinbox, hgood op o hflight⟩
  owner op o hop := by
    obtain ⟨-, o', hflight⟩ := flight_answer _ _ hop
    exact h.owner op o' hflight
  awaited _ _ := hinbox
  settler kind o hop := by
    obtain ⟨-, o', hflight⟩ := flight_answer _ _ hop
    exact h.settler kind o' hflight
  settled := h.settled
  committed ht := by
    obtain ⟨hsettling, hwork, ⟨⟨o, hflight⟩, ha⟩ | hsettlement⟩ := hcommitted ht
    · refine ⟨hsettling, hwork, hinbox, Or.inl ⟨a, ?_, ha⟩⟩
      rw [Lease.answer, show ({ s with server := t } : Lease σ).flight = s.flight from rfl, hflight]
      rfl
    · exact ⟨hsettling, hwork, hinbox, Or.inr hsettlement⟩
  confirmed := hconfirmed

theorem Sound.serve (h : Sound s) (refusal : Option SqlState) : Sound (s.serve refusal) := by
  delta Lease.serve
  cases hinbox : s.server.inbox with
  | none => exact h
  | some op =>
    -- the query has no answer yet, and the transaction has not committed
    have hfresh {op' : Op σ} {o : Option Answer} (hflight : s.flight = some (op', o)) : op' = op ∧ o = none := by
      cases o with
      | none => exact ⟨Option.some.inj ((h.unanswered op' hflight).symm.trans hinbox), rfl⟩
      | some a => rw [(h.answered op' a hflight).1] at hinbox; cases hinbox
    have hnotDone : s.server.tx ≠ .committed := fun ht => by
      rw [(h.committed ht).2.2.1] at hinbox
      cases hinbox
    have hnotConfirmed : s.settlement ≠ some (.commit, .ok) := fun hok => hnotDone (h.confirmed hok)
    by_cases halive : s.server.alive = true
    · simp only [halive, if_true]
      have htx := h.inbox op hinbox halive
      obtain ⟨hstillAlive, hstray, hdone⟩ := Server.run_fields htx op refusal
      refine ⟨h.toCore.answer (hstray.trans h.stray) rfl ?_ ?_ fun hok => absurd hok hnotConfirmed, fun hopen _ => ?_⟩
      · intro op' o hflight hok
        refine ⟨hstillAlive.trans halive, ?_⟩
        obtain ⟨rfl, -⟩ := hfresh hflight
        rintro rfl
        have hactive := ((h.settle .commit hinbox).2.1 halive).1
        cases refusal with
        | none => rw [Server.run_commit hactive]
        | some code => rw [Server.run_commit_refused hactive] at hok; cases hok
      · intro ht
        obtain ⟨rfl, hok, hwork⟩ := hdone ht
        obtain ⟨hsettling, hserver, hcommit⟩ := h.settle .commit hinbox
        refine ⟨hsettling, hwork.trans (hserver halive).2.1, ?_⟩
        obtain hflight | hsettlement := hcommit rfl
        · exact Or.inl ⟨⟨_, hflight⟩, Or.inl hok⟩
        · exact Or.inr (Or.inr hsettlement)
      · have hexpects := h.expects hopen halive
        rw [Lease.Expects] at hexpects ⊢
        cases hflight : s.flight with
        | none => rw [h.awaited hopen hflight] at hinbox; cases hinbox
        | some f =>
          obtain ⟨op', o⟩ := f
          obtain ⟨rfl, rfl⟩ := hfresh hflight
          simp only [Lease.answer, Option.map_some]
          rw [hflight] at hexpects
          cases hrunning : s.running with
          | none => rw [hrunning] at hexpects; exact hexpects
          | some r => rw [hrunning] at hexpects; exact ⟨hexpects.1, hexpects.2.run refusal⟩
    · simp only [if_neg halive]
      refine ⟨h.toCore.answer h.stray rfl (fun _ _ _ hok => by cases hok) (fun ht => absurd ht hnotDone)
        fun hok => absurd hok hnotConfirmed, fun _ halive' => absurd halive' halive⟩

theorem Sound.sever (h : Sound s) (code : SqlState) : Sound (s.sever code) := by
  have hlost (ht : s.server.tx = .committed) : (s.lost code).uncertain = true ∨ s.lost code = transactionTimeout := by
    delta Lease.lost
    split
    next => exact Or.inl rfl
    next hcode =>
      by_cases hu : code.uncertain = true
      · exact Or.inl hu
      · refine Or.inr ?_
        by_contra hne
        exact hcode ⟨ht, by simpa using hu, hne⟩
  have hdone : (if s.server.tx = Tx.committed then Tx.committed else Tx.rolledBack) = Tx.committed → s.server.tx = .committed := by
    intro hif
    by_contra hne
    rw [if_neg hne] at hif
    cases hif
  refine ⟨h.toCore.answer h.stray rfl (fun _ _ _ hok => by cases hok) (fun ht => ?_) (fun hok => ?_),
    fun _ halive => by cases halive⟩
  · obtain ⟨hsettling, hwork, -, ⟨a, hflight, -⟩ | hsettlement⟩ := h.committed (hdone ht)
    · exact ⟨hsettling, hwork, Or.inl ⟨⟨_, hflight⟩, Or.inr ⟨_, rfl, hlost (hdone ht)⟩⟩⟩
    · exact ⟨hsettling, hwork, Or.inr hsettlement⟩
  · exact if_pos (h.confirmed hok)

theorem Sound.wake (h : Sound s) (late : Nat → Bool) : Sound (s.wake late) := by
  delta Lease.wake
  split
  next => exact h
  next op answer hflight =>
    split
    next => exact h
    next hwait =>
      have hanswer (hnone : answer = none) : s.closed = true := by
        by_contra hopen
        exact hwait ⟨hnone, by simpa using hopen⟩
      split
      next kind => exact h.wakeSettle hflight hanswer late
      next r _ hrunning => exact h.wakeBatch hrunning hflight hanswer late
      next => exact h

theorem Sound.request (h : Sound s) (batch : Batch σ) (late : Bool) : Sound (s.request batch late) := by
  delta Lease.request
  obtain ⟨hcheck, hopen, hterminal⟩ | ⟨s', code, hcheck, hs', -⟩ := check_cases s false late
  · simp only [hcheck]
    have hpending := h.pending
    exact { h with
      idle := fun hs => absurd (hterminal hs) Bool.false_ne_true
      pending := by
        show (s.queue ++ [batch]).length + s.running.toList.length ≤ s.pending + 1
        rw [List.length_append, List.length_singleton]
        omega }
  · simp only [hcheck]
    obtain rfl | rfl := hs'
    · exact h
    · exact h.toCore.sound_stop (fun _ => rfl) true

theorem Sound.step (h : Sound s) (e : Event σ) : Sound (step s e) := by
  cases e with
  | request batch late => exact h.request batch late
  | start late => exact h.start late
  | wake late => exact h.wake late
  | finish kind late => exact h.finish kind late
  | cancel => exact h.toCore.sound_stop (fun _ => rfl) true
  | ended => exact h.toCore.sound_stop (fun _ => rfl) true
  | error code => exact h.toCore.sound_stop (fun hc => by rw [hc]; rfl) true
  | serve refusal => exact h.serve refusal
  | sever code => exact h.sever code
  | forget =>
    by_cases hlt : s.queue.length + s.running.toList.length < s.pending
    · rw [show Interactive.step s .forget = { s with pending := s.pending - 1 } from if_pos hlt]
      exact { h with pending := Nat.le_sub_one_of_lt hlt }
    · rwa [show Interactive.step s .forget = s from if_neg hlt]
  | destroyed =>
    by_cases hdestroying : s.destroying = true
    · rw [show Interactive.step s .destroyed = { s with destroying := false, released := s.released + 1 } from
        if_pos hdestroying]
      exact { h with }
    · rwa [show Interactive.step s .destroyed = s from if_neg hdestroying]

theorem sound_run (events : List (Event σ)) : Sound (run events) :=
  Lib.invariant_run (fun _ e h => h.step e) sound_init events

/--
A lease commits whole batches or nothing: whatever the order of calls, answers, deadlines and
disconnections, no statement runs outside the transaction, and one the server committed holds the
statements of the batches that were answered without an error (but for the dry runs), in their order.
-/
theorem committed_content (events : List (Event σ)) :
    (run events).server.stray = [] ∧
      ((run events).server.tx = .committed → (run events).server.work = (run events).content) :=
  ⟨(sound_run events).stray, fun h => ((sound_run events).committed h).2.1⟩

/-- No deadline has passed. -/
def inTime (_ : Nat) : Bool := false

/-- The server runs so many queries, and the client hears of each. -/
def served (n : Nat) : List (Event String) := (List.replicate n [.serve none, .wake inTime]).flatten

/-- Two statements, a dry run and a refused batch, then the commit. -/
def batches : List (Event String) :=
  [.request ⟨["insert a", "update b"], false⟩ false, .request ⟨["update c"], true⟩ false,
    .request ⟨["insert a"], false⟩ false] ++
  [.start inTime] ++ served 4 ++ [.forget] ++
  [.start inTime] ++ served 4 ++ [.forget] ++
  [.start inTime] ++ served 1 ++ [.serve (some (.other "23505")), .wake inTime] ++ served 2 ++ [.forget] ++
  [.finish .commit inTime, .serve none]

/-- The first batch is committed, and the answer to it still on its way. -/
theorem committed_content_batches :
    (run batches).server.stray = [] ∧ (run batches).server.work = (run batches).content ∧
      (run batches).content = ["insert a", "update b"] :=
  ⟨(committed_content batches).1, (committed_content batches).2 (by decide), by decide⟩

/-- The connection went back to the pool once the lease closed, or is being destroyed to. -/
def Lease.Returned (s : Lease σ) : Prop := s.released + s.destroying.toNat = s.closed.toNat

/-- What the client's functions do not touch, but for the settlement's own. -/
structure Frame (s t : Lease σ) : Prop where
  settlement : t.settlement = s.settlement
  closed : s.closed = true → t.closed = true ∧ t.sent = s.sent
  returned : s.Returned → t.Returned

theorem Frame.refl (s : Lease σ) : Frame s s := ⟨rfl, fun h => ⟨h, rfl⟩, id⟩

theorem Frame.trans {s t u : Lease σ} (h : Frame s t) (h' : Frame t u) : Frame s u where
  settlement := h'.settlement.trans h.settlement
  closed hc := by
    obtain ⟨hclosed, hsent⟩ := h.closed hc
    exact ⟨(h'.closed hclosed).1, (h'.closed hclosed).2.trans hsent⟩
  returned hr := h'.returned (h.returned hr)

theorem frame_stop (s : Lease σ) (destroy : Bool) (error : Option SqlState) : Frame s (s.stop destroy error) := by
  obtain ⟨-, -, -, -, -, -, -, hsettlement, hsent, -⟩ := s.stop_fields destroy error
  refine ⟨hsettlement, fun _ => ⟨Lease.stop_closed .., hsent⟩, fun hr => ?_⟩
  unfold Lease.Returned at hr ⊢
  cases hclosed : s.closed with
  | true => rwa [Lease.stop_of_closed hclosed]
  | false =>
    rw [hclosed, Bool.toNat_false] at hr
    cases destroy <;> simp [Lease.stop, hclosed] <;> omega

theorem frame_checked {s' : Lease σ} (hs' : s' = s ∨ s' = s.stop true (some cancelled)) : Frame s s' := by
  obtain rfl | rfl := hs'
  · exact Frame.refl s'
  · exact frame_stop s true (some cancelled)

theorem frame_finishBatch (s : Lease σ) (b : Batch σ) (a : Answer) : Frame s (s.finishBatch b a) :=
  ⟨rfl, fun h => ⟨h, rfl⟩, id⟩

theorem frame_giveUp (s : Lease σ) (error : SqlState) (b : Batch σ) (a : Answer) :
    Frame s ((s.stop true (some error)).finishBatch b a) :=
  (frame_stop s true _).trans (frame_finishBatch _ b a)

/-- Only an open lease sends. -/
theorem frame_sending (hopen : s.closed = false) (op : Op σ) (running : Option (Running σ)) :
    Frame s { s.sending op with running } :=
  ⟨rfl, fun hc => absurd (hopen.symm.trans hc) Bool.false_ne_true, id⟩

theorem frame_undo (s : Lease σ) (r : Running σ) (error : SqlState) (late : Bool) : Frame s (s.undo r error late) := by
  delta Lease.undo
  split
  next => exact frame_finishBatch s _ _
  obtain ⟨hexecute, hopen, -⟩ | ⟨s', code, hexecute, hs', -⟩ := execute_cases s (.rollbackTo r.name) false late
  · simp only [hexecute]
    exact frame_sending hopen _ _
  · simp only [hexecute]
    exact (frame_checked hs').trans (frame_giveUp s' _ _ _)

theorem frame_proceed (s : Lease σ) (r : Running σ) (op : Op σ) (stage : Stage σ) (late : Nat → Bool) :
    Frame s (s.proceed r op stage late) := by
  delta Lease.proceed
  obtain ⟨hexecute, hopen, -⟩ | ⟨s', code, hexecute, hs', -⟩ := execute_cases s op false (late 1)
  · simp only [hexecute]
    exact frame_sending hopen _ _
  · simp only [hexecute]
    exact (frame_checked hs').trans (frame_undo s' r code _)

theorem frame_next (s : Lease σ) (r : Running σ) (rest : List σ) (late : Nat → Bool) : Frame s (s.next r rest late) := by
  cases rest with
  | cons statement rest => exact frame_proceed s r _ _ late
  | nil =>
    delta Lease.next
    by_cases hdry : r.batch.rollback = true
    · rw [if_pos hdry]
      exact frame_proceed s r _ _ late
    · rw [if_neg hdry]
      exact frame_proceed s r _ _ late

theorem frame_wakeBatch (s : Lease σ) (r : Running σ) (answer : Answer) (late : Nat → Bool) :
    Frame s (s.wakeBatch r answer late) := by
  delta Lease.wakeBatch
  obtain ⟨hreceived, -, -⟩ | ⟨s', code, hreceived, hs', -⟩ := received_cases s answer false (late 0)
  · rw [hreceived]
    cases r.stage with
    | savepoint => exact frame_next s r _ late
    | statement rest => exact frame_next s r rest late
    | dry => exact frame_proceed s r _ _ late
    | release => exact frame_finishBatch s _ _
    | undone error => exact frame_finishBatch s _ _
    | undo error =>
      obtain ⟨hexecute, hopen, -⟩ | ⟨s', code, hexecute, hs', -⟩ := execute_cases s (.release r.name) false (late 1)
      · simp only [hexecute]
        exact frame_sending hopen _ _
      · simp only [hexecute]
        exact (frame_checked hs').trans (frame_giveUp s' _ _ _)
  · rw [hreceived]
    cases r.stage with
    | savepoint => exact (frame_checked hs').trans (frame_giveUp s' _ _ _)
    | statement rest => exact (frame_checked hs').trans (frame_undo s' r _ _)
    | dry => exact (frame_checked hs').trans (frame_undo s' r _ _)
    | release => exact (frame_checked hs').trans (frame_undo s' r _ _)
    | undo error => exact (frame_checked hs').trans (frame_giveUp s' _ _ _)
    | undone error => exact (frame_checked hs').trans (frame_giveUp s' _ _ _)

theorem frame_turn (s : Lease σ) (batch : Batch σ) (late : Nat → Bool) : Frame s (s.turn batch late) := by
  delta Lease.turn
  obtain ⟨hcheck, -, -⟩ | ⟨s', code, hcheck, hs', -⟩ := check_cases s false (late 0)
  · simp only [hcheck]
    have hnamed : Frame s { s with nextSavepoint := s.nextSavepoint + 1 } := ⟨rfl, fun h => ⟨h, rfl⟩, id⟩
    obtain ⟨hexecute, hopen, -⟩ | ⟨s', code, hexecute, hs', -⟩ :=
      execute_cases ({ s with nextSavepoint := s.nextSavepoint + 1 } : Lease σ) (.savepoint s.nextSavepoint) false (late 1)
    · simp only [hexecute]
      exact hnamed.trans (frame_sending hopen _ _)
    · simp only [hexecute]
      exact hnamed.trans ((frame_checked hs').trans (frame_giveUp s' _ _ _))
  · simp only [hcheck]
    exact (frame_checked hs').trans (frame_finishBatch s' _ _)

/-- What a step leaves of a sound lease: a settlement stays, and a closed lease sends nothing. -/
structure After (s t : Lease σ) : Prop where
  settlement : s.settlement ≠ none → t.settlement = s.settlement
  closed : s.closed = true → t.closed = true ∧ t.sent = s.sent
  returned : s.Returned → t.Returned

theorem Frame.after {s t : Lease σ} (h : Frame s t) : After s t := ⟨fun _ => h.settlement, h.closed, h.returned⟩

/-- The settling call ends: it had no settlement before, and what it sent it has sent. -/
theorem after_settles {s s' t : Lease σ} (hnone : s.settlement = none) (hframe : Frame s s')
    (hsent : t.sent = s'.sent) (hclosed : t.closed = true) (hreturned : s'.Returned → t.Returned) : After s t where
  settlement hsome := absurd hnone hsome
  closed hc := ⟨hclosed, hsent.trans (hframe.closed hc).2⟩
  returned hr := hreturned (hframe.returned hr)

theorem frame_settleFailed (s : Lease σ) (kind : Settle) (code : SqlState) :
    (s.settleFailed kind code).sent = s.sent ∧ (s.settleFailed kind code).closed = true ∧
      (s.Returned → (s.settleFailed kind code).Returned) := by
  obtain ⟨⟨hclosed, -⟩, -, -, -, -, -, -, -, hsent, -⟩ :=
    s.stop_fields true (some (if kind = .commit ∧ code.uncertain = true then unconfirmed else code))
  exact ⟨hsent, hclosed, (frame_stop s true _).returned⟩

theorem Sound.after_wake (h : Sound s) (late : Nat → Bool) : After s (s.wake late) := by
  delta Lease.wake
  split
  next => exact (Frame.refl s).after
  next op answer hflight =>
    split
    next => exact (Frame.refl s).after
    split
    next kind =>
      have hnone := (h.settler kind answer hflight).2.1
      delta Lease.wakeSettle
      obtain ⟨hreceived, -, -⟩ | ⟨s', code, hreceived, hs', -⟩ := received_cases s (answer.getD .ok) true (late 0)
      · rw [hreceived]
        obtain ⟨⟨hclosed, -⟩, -, -, -, -, -, -, -, hsent, -⟩ := ({ s with finished := some kind } : Lease σ).stop_fields false none
        exact after_settles hnone (Frame.refl s) hsent hclosed (frame_stop { s with finished := some kind } false none).returned
      · rw [hreceived]
        obtain ⟨hsent, hclosed, hreturned⟩ := frame_settleFailed s' kind code
        exact after_settles hnone (frame_checked hs') hsent hclosed hreturned
    next r _ hrunning => exact (frame_wakeBatch s r _ late).after
    next => exact (Frame.refl s).after

theorem Sound.after_finish (h : Sound s) (kind : Settle) (late : Nat → Bool) : After s (s.finish kind late) := by
  delta Lease.finish
  split
  next => exact (Frame.refl s).after
  split
  next => exact (Frame.refl s).after
  split
  next => exact (frame_stop s _ _).after
  obtain ⟨hcheck, hopen, -⟩ | ⟨s', code, hcheck, hs', -⟩ := check_cases s false (late 0)
  · simp only [hcheck]
    split
    next =>
      cases kind with
      | commit => exact (Frame.refl s).after
      | rollback => exact (frame_stop s _ _).after
    next =>
      have hnone : s.settlement = none := by
        by_contra hsome
        exact absurd (hopen.symm.trans (h.settled hsome)) Bool.false_ne_true
      have hbegun : Frame s { s with settling := true, committing := kind = Settle.commit } := ⟨rfl, fun h => ⟨h, rfl⟩, id⟩
      obtain ⟨hexecute, hopen', -⟩ | ⟨s', code, hexecute, hs', -⟩ :=
        execute_cases ({ s with settling := true, committing := kind = Settle.commit } : Lease σ) (.settle kind) true (late 1)
      · simp only [hexecute]
        exact (hbegun.trans (frame_sending hopen' _ _)).after
      · simp only [hexecute]
        obtain ⟨hsent, hclosed, hreturned⟩ := frame_settleFailed s' kind code
        exact after_settles hnone (hbegun.trans (frame_checked hs')) hsent hclosed hreturned
  · simp only [hcheck]
    exact (frame_checked hs').after

theorem Sound.after (h : Sound s) (e : Event σ) : After s (Interactive.step s e) := by
  have hstop (error : SqlState) : After s (s.stop true (some error)) := (frame_stop s true _).after
  cases e with
  | wake late => exact h.after_wake late
  | finish kind late => exact h.after_finish kind late
  | cancel => exact hstop _
  | ended => exact hstop _
  | error code => exact hstop _
  | sever code => exact ⟨fun _ => rfl, fun hc => ⟨hc, rfl⟩, id⟩
  | request batch late =>
    obtain ⟨hcheck, -, -⟩ | ⟨s', code, hcheck, hs', -⟩ := check_cases s false late
    · rw [show Interactive.step s (.request batch late) = { s with pending := s.pending + 1, queue := s.queue ++ [batch] } by
        simp [Interactive.step, Lease.request, hcheck]]
      exact ⟨fun _ => rfl, fun hc => ⟨hc, rfl⟩, id⟩
    · rw [show Interactive.step s (.request batch late) = s' by simp [Interactive.step, Lease.request, hcheck]]
      exact (frame_checked hs').after
  | start late =>
    show After s (s.start late)
    delta Lease.start
    split
    next batch queue _ _ =>
      have hpopped : Frame s { s with queue } := ⟨rfl, fun h => ⟨h, rfl⟩, id⟩
      exact (hpopped.trans (frame_turn _ batch late)).after
    next => exact (Frame.refl s).after
  | serve refusal =>
    show After s (s.serve refusal)
    delta Lease.serve
    split
    next => exact (Frame.refl s).after
    next op _ =>
      split
      next => exact ⟨fun _ => rfl, fun hc => ⟨hc, rfl⟩, id⟩
      next => exact ⟨fun _ => rfl, fun hc => ⟨hc, rfl⟩, id⟩
  | forget =>
    by_cases hlt : s.queue.length + s.running.toList.length < s.pending
    · rw [show Interactive.step s .forget = { s with pending := s.pending - 1 } from if_pos hlt]
      exact ⟨fun _ => rfl, fun hc => ⟨hc, rfl⟩, id⟩
    · rw [show Interactive.step s .forget = s from if_neg hlt]
      exact (Frame.refl s).after
  | destroyed =>
    by_cases hdestroying : s.destroying = true
    · rw [show Interactive.step s .destroyed = { s with destroying := false, released := s.released + 1 } from
        if_pos hdestroying]
      refine ⟨fun _ => rfl, fun hc => ⟨hc, rfl⟩, fun hr => ?_⟩
      rw [Lease.Returned, hdestroying] at hr
      exact hr
    · rw [show Interactive.step s .destroyed = s from if_neg hdestroying]
      exact (Frame.refl s).after

theorem run_append (events later : List (Event σ)) : run (events ++ later) = later.foldl Interactive.step (run events) :=
  List.foldl_append ..

/-- What a run leaves of a lease that was sound when it began. -/
theorem Sound.after_run (h : Sound s) (later : List (Event σ)) : After s (later.foldl Interactive.step s) := by
  induction later generalizing s with
  | nil => exact (Frame.refl s).after
  | cons e later ih =>
    have hstep := h.after e
    have hrest := ih (h.step e)
    refine ⟨fun hsome => ?_, fun hc => ?_, fun hr => hrest.returned (hstep.returned hr)⟩
    · have heq := hstep.settlement hsome
      exact (hrest.settlement (by rwa [heq])).trans heq
    · obtain ⟨hclosed, hsent⟩ := hstep.closed hc
      exact ⟨(hrest.closed hclosed).1, (hrest.closed hclosed).2.trans hsent⟩

/--
What the settling call hears of a `commit` is true: success means the server committed; a transaction
that committed, or still will, is answered with success or as unconfirmed (`08007`), and as nothing else.
-/
theorem settlement_committed (events later : List (Event σ)) :
    ((run events).settlement = some (.commit, .ok) → (run events).server.tx = .committed) ∧
    ∀ code, (run events).settlement = some (.commit, .error code) →
      (run (events ++ later)).server.tx = .committed → code = unconfirmed := by
  refine ⟨(sound_run events).confirmed, fun code hsettled ht => ?_⟩
  have hstays : (run (events ++ later)).settlement = some (.commit, .error code) := by
    rw [run_append, ((sound_run events).after_run later).settlement (by rw [hsettled]; exact Option.some_ne_none _), hsettled]
  obtain ⟨-, -, -, ⟨a, hflight, -⟩ | hok | hlost⟩ := (sound_run (events ++ later)).committed ht
  · rw [((sound_run (events ++ later)).settler .commit _ hflight).2.1] at hstays
    cases hstays
  · rw [hok] at hstays
    cases hstays
  · rw [hlost] at hstays
    cases hstays
    rfl

def inserted : List (Event String) := [.request ⟨["insert"], false⟩ false, .start inTime] ++ served 3 ++ [.forget]

/-- A commit whose answer is lost with the connection. -/
def lostCommit : List (Event String) := inserted ++ [.finish .commit inTime, .serve none, .ended, .wake inTime]

/-- One commit is confirmed; another is done and answered as unconfirmed. -/
theorem settlement_committed_lost :
    (run (inserted ++ [.finish .commit inTime] ++ served 1)).server.tx = .committed ∧
    (∃ code, (run lostCommit).settlement = some (.commit, .error code)) ∧
    ∀ code, (run lostCommit).settlement = some (.commit, .error code) → code = unconfirmed :=
  ⟨(settlement_committed _ []).1 (by decide), ⟨unconfirmed, by decide⟩,
    fun code h => (settlement_committed lostCommit []).2 code h (by decide)⟩

/--
A closed lease is over: nothing is sent on its connection after, whatever was queued or comes later,
and the connection goes back to the pool exactly once.
-/
theorem closed_over (events later : List (Event σ)) (h : (run events).closed = true) :
    (run (events ++ later)).sent = (run events).sent ∧
    (run (events ++ later)).released + (run (events ++ later)).destroying.toNat = 1 := by
  have hafter := (sound_run events).after_run later
  have hreturned : (run (events ++ later)).Returned := (sound_init.after_run (events ++ later)).returned rfl
  rw [run_append] at hreturned ⊢
  obtain ⟨hclosed, hsent⟩ := hafter.closed h
  rw [Lease.Returned, hclosed] at hreturned
  exact ⟨hsent, hreturned⟩

theorem closed_over_cancelled :
    let events : List (Event String) := [.request ⟨["insert"], false⟩ false, .start inTime] ++ served 1 ++ [.cancel]
    let later : List (Event String) := [.serve none, .wake inTime, .start inTime, .finish .commit inTime, .destroyed]
    (run (events ++ later)).sent = (run events).sent ∧
      (run (events ++ later)).released + (run (events ++ later)).destroying.toNat = 1 :=
  closed_over _ _ rfl

end Norbital.Bolt.Interactive

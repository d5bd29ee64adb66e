import Mathlib.Tactic.SplitIfs
import Mathlib.Data.List.Basic
import Norbital.Lib.Runs

/-!
# The smart throttle

One conversation under `bolt/src/engine/agent/throttle.ts`: its messages, the queued
and claimed runs of `THROTTLE_RUN`, and the decisions under way.  A statement sees
what was committed when it started and takes effect when it commits; `Snapshot` is
what it saw.  A row it changes is checked again as it then is.

Any number of decisions proceed at once, those of several processes included; a crash
loses them all and leaves the claimed runs for the next boot.
-/

namespace Norbital.Bolt.Throttle

open Norbital.Lib

def HOLD_MAX_MS : Nat := 3000

def TAKEOVER_MS : Nat := 15000

def TYPING_MS : Nat := 1000

/-- `filtered` is the state null of a message that is not addressed. -/
inductive MessageState where
  | pending | queued | filtered
  deriving DecidableEq, Repr

/-- A message, and the states it left `pending` for. -/
structure Message where
  id : Nat
  state : MessageState
  left : List MessageState
  deriving DecidableEq, Repr

/-- A run of `THROTTLE_RUN`; `first` is when its hold began. -/
structure Run where
  id : Nat
  due_at : Nat
  held : Bool
  first : Option Nat
  leases : Nat
  deriving DecidableEq, Repr

/-- What a statement saw of the conversation, and its clock. -/
structure Snapshot where
  pending : List Nat
  queued : List Nat
  time : Nat
  deriving DecidableEq, Repr

/-- The statements that end a decision. -/
inductive Outcome where
  | clear
  | settle (admitted : Option (List Nat)) (filter : List Nat)
  | holding (first time : Nat)
  deriving DecidableEq, Repr

/-- How far a decision is: waiting for its lock, its read found nothing to decide, its read found no
queued run, the backstop's statement under way, its answer awaited, its outcome's statement under way,
failed with its release to come, or done. -/
inductive Stage where
  | waiting
  | idle
  | uncovered (pending : List Nat) (spent : Bool)
  | ensuring (snapshot : Snapshot) (pending : List Nat) (spent : Bool)
  | asking (pending : List Nat) (spent : Bool)
  | writing (snapshot : Snapshot) (outcome : Outcome)
  | failed
  | done
  deriving DecidableEq, Repr

/-- A run claimed by the host and its handler's stage, none once its process is lost. -/
structure Claim where
  run : Run
  stage : Option Stage
  deriving DecidableEq, Repr

/-- An arrival's statement under way; a post reopens a stopped conversation. -/
structure Arrival where
  message : Nat
  reopened : Bool
  snapshot : Snapshot
  deriving DecidableEq, Repr

structure Chat where
  envoy : Bool
  group : Bool
  now : Nat
  stopped : Bool
  messages : List Message
  queued : List Run
  claimed : List Claim
  decisions : List Stage
  arrivals : List Arrival
  nextMessage : Nat
  nextRun : Nat
  deriving DecidableEq, Repr

/-- A message under the outcome that admits and filters: `admitted` none takes every row. -/
def Message.settle (snapshot : Snapshot) (admitted : Option (List Nat)) (filter : List Nat) (m : Message) :
    Message :=
  if m.state = .pending ∧ m.id ∈ snapshot.pending then
    if m.id ∈ filter then { m with state := .filtered, left := m.left ++ [.filtered] }
    else if admitted.all (m.id ∈ ·) then { m with state := .queued, left := m.left ++ [.queued] }
    else m
  else m

/-- Whether the outcome's statement deletes the runs: no row it saw pending stays so. -/
def Outcome.flushes (snapshot : Snapshot) : Outcome → Bool
  | .clear => snapshot.pending.isEmpty
  | .settle admitted filter => snapshot.pending.all fun id => admitted.all fun ids => id ∈ ids ++ filter
  | .holding .. => false

namespace Chat

def init (envoy group : Bool) : Chat := ⟨envoy, group, 0, false, [], [], [], [], [], 0, 0⟩

variable (c : Chat)

def pending : List Nat := (c.messages.filter (·.state = .pending)).map (·.id)

def snapshot : Snapshot := ⟨c.pending, c.queued.map (·.id), c.now⟩

def enqueue (due : Nat) (held : Bool) (first : Option Nat) : Chat :=
  { c with queued := c.queued ++ [⟨c.nextRun, due, held, first, 0⟩], nextRun := c.nextRun + 1 }

/-- `backstop`: the burst's durable record, unless the statement saw one. -/
def backstop (snapshot : Snapshot) : Chat :=
  if snapshot.queued.isEmpty then c.enqueue (snapshot.time + TAKEOVER_MS) false none else c

/-- The runs the statement saw queued, and that still are, go where it deletes them. -/
def flush (snapshot : Snapshot) (outcome : Outcome) : Chat :=
  if outcome.flushes snapshot then { c with queued := c.queued.filter (·.id ∉ snapshot.queued) } else c

/-- `holding`: the run becomes the burst's one recheck, its hold spent. -/
def holding (snapshot : Snapshot) (first time : Nat) : Chat :=
  if c.queued.any (·.id ∈ snapshot.queued) then
    { c with
      queued := c.queued.map fun run =>
        if run.id ∈ snapshot.queued then { run with due_at := time, held := true, first := some first }
        else run }
  else c.enqueue time true (some first)

/-- The outcome's statement commits. -/
def write (snapshot : Snapshot) : Outcome → Chat
  | .clear => c.flush snapshot .clear
  | .settle admitted filter =>
    { c.flush snapshot (.settle admitted filter) with
      messages := c.messages.map (Message.settle snapshot admitted filter) }
  | .holding first time => c.holding snapshot first time

end Chat

/-- The queued run that is due first. -/
def earliest : List Run → Option Run
  | [] => none
  | run :: runs =>
    match earliest runs with
    | none => some run
    | some other => if other.due_at < run.due_at then some other else some run

/-- What `decide` makes of its reads. -/
def Chat.decide (c : Chat) (ran : Bool) : Stage :=
  if c.stopped || c.pending.isEmpty then .idle
  else
    match earliest c.queued with
    | none => .uncovered c.pending ran
    | some run =>
      -- the hold still runs: this row joins the burst
      if run.held ∧ c.now + 25 < run.due_at then .done
      else .asking c.pending (ran || run.held)

/-- What the rest of `decide` learns: whether anything decides here, a turn runs, no row has files, the
burst is named, the rows filtered, and the text's completeness with its hold in milliseconds. -/
structure Answer where
  throttled : Bool
  running : Bool
  fileless : Bool
  named : Bool
  filtered : List Nat
  unfinished : Bool
  hold : Nat
  deriving DecidableEq, Repr

def Answer.outcome (a : Answer) (c : Chat) (pending : List Nat) (spent : Bool) : Outcome :=
  let filterable := c.envoy && c.group
  let holdable := !spent && !a.running && (c.envoy || a.fileless)
  if !a.throttled || (!filterable && !holdable) || (filterable && a.named) then .settle none []
  else
    let filters := if filterable then pending.filter (· ∈ a.filtered) else []
    let admits := pending.filter (· ∉ filters)
    if holdable && !admits.isEmpty && a.unfinished then
      .holding c.now (c.now + min HOLD_MAX_MS (max 1000 a.hold))
    else if admits.isEmpty then .settle (some []) filters
    else .settle (if filterable then some admits else none) filters

/-- Whose decision: one started at an arrival (or a caller's release), or a claimed run's. -/
inductive Actor where
  | decision (i : Nat)
  | claim (i : Nat)
  deriving DecidableEq, Repr

namespace Chat

variable (c : Chat)

def stage : Actor → Option Stage
  | .decision i => c.decisions[i]?
  | .claim i => c.claimed[i]?.bind (·.stage)

def setStage (stage : Stage) : Actor → Chat
  | .decision i => { c with decisions := c.decisions.set i stage }
  | .claim i => { c with claimed := c.claimed.modify i fun claim => { claim with stage := some stage } }

/-- The run's own hold is spent when its handler decides. -/
def ran : Actor → Bool
  | .decision _ => false
  | .claim i => c.claimed[i]?.any (·.run.held)

end Chat

/-- A run's failed decision is released, one started at an arrival is not. -/
def Actor.failed : Actor → Stage
  | .decision _ => .done
  | .claim _ => .failed

inductive Step where
  | tick (ms : Nat)
  | stop
  | arrive (reopened : Bool)
  | stored (arrival : Nat)
  | typing
  | claim (run : Nat)
  | read (actor : Actor)
  | clear (actor : Actor)
  | backstop (actor : Actor)
  | ensured (actor : Actor)
  | answer (actor : Actor) (answer : Answer)
  | written (actor : Actor)
  | fail (actor : Actor)
  | release (actor : Actor)
  | flush
  | finish (claim : Nat)
  | crash
  | boot (overran : Bool)
  deriving DecidableEq, Repr

/-- `heldLonger`. -/
def Run.heldLonger (now : Nat) (run : Run) : Run :=
  match run.first with
  | none => run
  | some first => { run with due_at := max run.due_at (min (now + TYPING_MS) (first + HOLD_MAX_MS)) }

/-- Whether `boot` gives up the claim: its third lease lost, or its process stopped past its budget. -/
def Claim.givenUp (overran : Bool) (claim : Claim) : Bool :=
  claim.stage.isNone && (overran || decide (3 ≤ claim.run.leases))

def Claim.requeued (now : Nat) (claim : Claim) : Run :=
  { claim.run with leases := claim.run.leases + 1, due_at := now }

def step (c : Chat) : Step → Chat
  | .tick ms => { c with now := c.now + ms }
  | .stop => { c with stopped := true }
  | .arrive reopened =>
    { c with
      arrivals := c.arrivals ++ [⟨c.nextMessage, reopened, c.snapshot⟩]
      nextMessage := c.nextMessage + 1 }
  | .stored i =>
    match c.arrivals[i]? with
    | none => c
    | some arrival =>
      -- the statement's own snapshot decides whether a run stands for the message
      { c.backstop arrival.snapshot with
        messages := c.messages ++ [⟨arrival.message, .pending, []⟩]
        stopped := c.stopped && !arrival.reopened
        arrivals := c.arrivals.eraseIdx i
        decisions := c.decisions ++ [.waiting] }
  | .typing => { c with queued := c.queued.map (Run.heldLonger c.now) }
  | .claim i =>
    match c.queued[i]? with
    | none => c
    | some run =>
      if run.due_at ≤ c.now then
        { c with queued := c.queued.eraseIdx i, claimed := c.claimed ++ [⟨run, some .waiting⟩] }
      else c
  | .read a =>
    match c.stage a with
    | some .waiting => c.setStage (c.decide (c.ran a)) a
    | _ => c
  | .clear a =>
    match c.stage a with
    | some .idle => c.setStage (.writing c.snapshot .clear) a
    | _ => c
  | .backstop a =>
    match c.stage a with
    | some (.uncovered pending spent) => c.setStage (.ensuring c.snapshot pending spent) a
    | _ => c
  | .ensured a =>
    match c.stage a with
    | some (.ensuring snapshot pending spent) => (c.backstop snapshot).setStage (.asking pending spent) a
    | _ => c
  | .answer a answer =>
    match c.stage a with
    | some (.asking pending spent) => c.setStage (.writing c.snapshot (answer.outcome c pending spent)) a
    | _ => c
  | .written a =>
    match c.stage a with
    | some (.writing snapshot outcome) => (c.write snapshot outcome).setStage .done a
    | _ => c
  | .fail a =>
    match c.stage a with
    | some .waiting | some .idle | some (.uncovered ..) | some (.asking ..) => c.setStage a.failed a
    | _ => c
  | .release a =>
    match c.stage a with
    -- what a failed run leaves is settled without an answer
    | some .failed => c.setStage (.writing c.snapshot (.settle none [])) a
    | _ => c
  | .flush => { c with decisions := c.decisions ++ [.failed] }
  | .finish i =>
    match c.claimed[i]? with
    | some ⟨_, some .done⟩ => { c with claimed := c.claimed.eraseIdx i }
    | _ => c
  | .crash =>
    { c with
      decisions := []
      arrivals := []
      claimed := c.claimed.map fun claim => { claim with stage := none } }
  | .boot overran =>
    { c with
      claimed := c.claimed.filter (·.stage.isSome)
      queued := c.queued ++ ((c.claimed.filter fun claim => claim.stage.isNone && !claim.givenUp overran).map
        (Claim.requeued c.now)) }

def run (c : Chat) (steps : List Step) : Chat := steps.foldl step c

/-- Whether a claimed run's handler in this stage has yet to see the burst, or to take all of it. -/
def Stage.covers : Stage → Bool
  | .waiting | .uncovered .. | .ensuring .. | .failed => true
  | .writing _ (.settle none _) => true
  | .idle | .asking .. | .writing .. | .done => false

def Claim.covers (claim : Claim) : Bool := claim.stage.all Stage.covers

/-- A run is queued, or claimed by a handler that covers what is pending. -/
def Chat.covered (c : Chat) : Bool := !c.queued.isEmpty || c.claimed.any Claim.covers

/-- The condition of a step.  A message stored, or a backstop, that saw a queued run commits while the
conversation is covered still; an outcome that deletes the runs it saw commits while each pending message
is one it saw, or with another run queued since; and a boot gives up no run that alone covers something. -/
def Step.current (c : Chat) : Step → Bool
  | .stored i => c.arrivals[i]?.all fun arrival => arrival.snapshot.queued.isEmpty || c.covered
  | .ensured a =>
    match c.stage a with
    | some (.ensuring snapshot pending spent) =>
      snapshot.queued.isEmpty || (c.setStage (.asking pending spent) a).covered
    | _ => true
  | .written a =>
    match c.stage a with
    | some (.writing snapshot outcome) =>
      !outcome.flushes snapshot || c.pending.all (· ∈ snapshot.pending) ||
        c.queued.any (·.id ∉ snapshot.queued)
    | _ => true
  | .boot overran =>
    c.stopped || c.pending.isEmpty || !c.queued.isEmpty ||
      c.claimed.any fun claim => claim.covers && !claim.givenUp overran
  | _ => true

/-- A message is pending and has left for nothing, or it left once, for the state it is in. -/
def Message.Once (m : Message) : Prop :=
  m.state = .pending ∧ m.left = [] ∨ m.state ≠ .pending ∧ m.left = [m.state]

/-- What holds between the steps. -/
structure Covered (c : Chat) : Prop where
  covered : c.stopped = false → c.pending ≠ [] → c.covered = true
  once : ∀ m ∈ c.messages, m.Once

variable {c c' : Chat} {a : Actor} {stage stage' : Stage} {snapshot : Snapshot} {outcome : Outcome}

@[simp] theorem setStage_messages : (c.setStage stage a).messages = c.messages := by
  cases a <;> rfl

@[simp] theorem setStage_stopped : (c.setStage stage a).stopped = c.stopped := by
  cases a <;> rfl

@[simp] theorem setStage_queued : (c.setStage stage a).queued = c.queued := by
  cases a <;> rfl

@[simp] theorem setStage_pending : (c.setStage stage a).pending = c.pending := by
  rw [Chat.pending, setStage_messages, Chat.pending]

theorem covered_of_queued (h : c.queued ≠ []) : c.covered = true := by
  rw [Chat.covered, Bool.or_eq_true, Bool.not_eq_true']
  exact .inl (List.isEmpty_eq_false_iff.2 h)

theorem covered_iff : c.covered = true ↔ c.queued ≠ [] ∨ ∃ claim ∈ c.claimed, claim.covers = true := by
  rw [Chat.covered, Bool.or_eq_true, List.any_eq_true, Bool.not_eq_true', List.isEmpty_eq_false_iff]

/-- A decision that goes on without covering less leaves the conversation covered. -/
theorem covered_setStage (ha : c.stage a = some stage) (hstage : stage.covers → stage'.covers)
    (h : c.covered = true) : (c.setStage stage' a).covered = true := by
  rw [covered_iff] at h ⊢
  refine h.imp (fun hq => by rwa [setStage_queued]) ?_
  rintro ⟨claim, hclaim, hcovers⟩
  cases a with
  | decision i => exact ⟨claim, hclaim, hcovers⟩
  | claim i =>
    obtain ⟨j, hj⟩ := List.mem_iff_getElem?.1 hclaim
    by_cases hij : i = j
    · subst hij
      refine ⟨{ claim with stage := some stage' }, List.mem_iff_getElem?.2 ⟨i, ?_⟩, ?_⟩
      · rw [Chat.setStage, List.getElem?_modify_eq, hj]
        rfl
      · rw [Chat.stage, hj] at ha
        have hold : claim.stage = some stage := ha
        rw [Claim.covers, hold, Option.all_some] at hcovers
        exact hstage hcovers
    · refine ⟨claim, List.mem_iff_getElem?.2 ⟨j, ?_⟩, hcovers⟩
      rw [Chat.setStage, List.getElem?_modify, hj]
      simp only [if_neg hij, Option.map_eq_map, Option.map_some]

theorem Message.settle_pending {admitted : Option (List Nat)} {filter : List Nat} {m : Message}
    (h : (m.settle snapshot admitted filter).state = .pending) :
    m.state = .pending ∧ (m.settle snapshot admitted filter).id = m.id ∧
      (m.id ∈ snapshot.pending → m.id ∉ filter ∧ admitted.all (m.id ∈ ·) = false) := by
  rw [Message.settle] at h ⊢
  split_ifs at h ⊢ with hseen hfilter hadmit
  · exact ⟨hseen.1, rfl, fun _ => ⟨hfilter, Bool.eq_false_iff.2 hadmit⟩⟩
  · exact ⟨h, rfl, fun hmem => absurd ⟨h, hmem⟩ hseen⟩

theorem Message.Once.settle {admitted : Option (List Nat)} {filter : List Nat} {m : Message} (h : m.Once) :
    (m.settle snapshot admitted filter).Once := by
  rw [Message.settle]
  split_ifs with hseen
  · have hleft := (h.resolve_right fun h => h.1 hseen.1).2
    exact .inr ⟨by simp, by simp [hleft]⟩
  · have hleft := (h.resolve_right fun h => h.1 hseen.1).2
    exact .inr ⟨by simp, by simp [hleft]⟩
  · exact h
  · exact h

theorem mem_pending {id : Nat} : id ∈ c.pending ↔ ∃ m ∈ c.messages, m.state = .pending ∧ m.id = id := by
  rw [Chat.pending, List.mem_map]
  constructor
  · rintro ⟨m, hm, rfl⟩
    obtain ⟨hmem, hstate⟩ := List.mem_filter.1 hm
    exact ⟨m, hmem, of_decide_eq_true hstate, rfl⟩
  · rintro ⟨m, hmem, hstate, rfl⟩
    exact ⟨m, List.mem_filter.2 ⟨hmem, decide_eq_true hstate⟩, rfl⟩

theorem flush_eq (c : Chat) (snapshot : Snapshot) (outcome : Outcome) : ∃ queued, c.flush snapshot outcome = { c with queued := queued } := by
  rw [Chat.flush]
  split_ifs
  · exact ⟨_, rfl⟩
  · exact ⟨c.queued, rfl⟩

theorem holding_eq {first time : Nat} :
    ∃ queued next, c.holding snapshot first time = { c with queued := queued, nextRun := next } := by
  rw [Chat.holding]
  split_ifs
  · exact ⟨_, c.nextRun, rfl⟩
  · exact ⟨_, _, rfl⟩

/-- The messages an outcome leaves. -/
def Outcome.messages (snapshot : Snapshot) (messages : List Message) : Outcome → List Message
  | .settle admitted filter => messages.map (Message.settle snapshot admitted filter)
  | .clear | .holding .. => messages

/-- A statement changes the messages its outcome says, and else only the queue of runs. -/
theorem write_eq (c : Chat) (snapshot : Snapshot) (outcome : Outcome) : ∃ queued next, c.write snapshot outcome =
    { c with queued := queued, nextRun := next, messages := outcome.messages snapshot c.messages } := by
  cases outcome with
  | clear =>
    obtain ⟨queued, h⟩ := flush_eq c snapshot .clear
    exact ⟨queued, c.nextRun, h⟩
  | settle admitted filter =>
    obtain ⟨queued, h⟩ := flush_eq c snapshot (.settle admitted filter)
    refine ⟨queued, c.nextRun, ?_⟩
    rw [Chat.write, h]
    rfl
  | holding first time => exact holding_eq

theorem write_messages :
    (c.write snapshot outcome).messages = outcome.messages snapshot c.messages := by
  obtain ⟨queued, next, h⟩ := write_eq c snapshot outcome
  rw [h]

/-- What is pending after the statement was pending before it. -/
theorem pending_write {id : Nat} (h : id ∈ (c.write snapshot outcome).pending) : id ∈ c.pending := by
  obtain ⟨m, hm, hstate, rfl⟩ := mem_pending.1 h
  rw [write_messages] at hm
  cases outcome with
  | clear => exact mem_pending.2 ⟨m, hm, hstate, rfl⟩
  | holding first time => exact mem_pending.2 ⟨m, hm, hstate, rfl⟩
  | settle admitted filter =>
    obtain ⟨m, hbefore, rfl⟩ := List.mem_map.1 hm
    obtain ⟨hpending, hid, -⟩ := Message.settle_pending hstate
    exact mem_pending.2 ⟨m, hbefore, hpending, hid.symm⟩

/-- A statement that deletes the runs leaves no message pending that it saw so. -/
theorem pending_flushed {id : Nat} (hflush : outcome.flushes snapshot = true)
    (h : id ∈ (c.write snapshot outcome).pending) : id ∉ snapshot.pending := by
  intro hseen
  cases outcome with
  | clear =>
    rw [Outcome.flushes, List.isEmpty_iff] at hflush
    rw [hflush] at hseen
    cases hseen
  | holding first time => cases hflush
  | settle admitted filter =>
    obtain ⟨m, hm, hstate, rfl⟩ := mem_pending.1 h
    rw [write_messages, Outcome.messages] at hm
    obtain ⟨m, hm, rfl⟩ := List.mem_map.1 hm
    obtain ⟨-, hid, hnot⟩ := Message.settle_pending hstate
    rw [hid] at hseen
    have hcovered := List.all_eq_true.1 hflush m.id hseen
    obtain ⟨hfilter, hadmit⟩ := hnot hseen
    cases admitted with
    | none => cases hadmit
    | some ids =>
      rw [Option.all_some, decide_eq_true_eq, List.mem_append] at hcovered
      rw [Option.all_some, decide_eq_false_iff_not] at hadmit
      exact hcovered.elim hadmit hfilter

/-- The runs queued since the statement started stay. -/
theorem write_queued (hflush : outcome.flushes snapshot = true)
    (h : c.queued.any (·.id ∉ snapshot.queued) = true) : (c.write snapshot outcome).queued ≠ [] := by
  obtain ⟨run, hrun, hnew⟩ := List.any_eq_true.1 h
  have hflushed : run ∈ (c.flush snapshot outcome).queued := by
    rw [Chat.flush, if_pos hflush]
    exact List.mem_filter.2 ⟨hrun, hnew⟩
  cases outcome with
  | clear => exact List.ne_nil_of_mem hflushed
  | settle admitted filter => exact List.ne_nil_of_mem hflushed
  | holding first time => cases hflush

theorem holding_queued {first time : Nat} : (c.holding snapshot first time).queued ≠ [] := by
  rw [Chat.holding]
  split_ifs with hheld
  · obtain ⟨run, hrun, -⟩ := List.any_eq_true.1 hheld
    exact List.ne_nil_of_mem (List.mem_map_of_mem hrun)
  · exact List.append_ne_nil_of_right_ne_nil _ (List.cons_ne_nil _ _)

theorem Covered.setStage (h : Covered c) (ha : c.stage a = some stage)
    (hstage : stage.covers → c.pending ≠ [] → c.stopped = false → stage'.covers ∨ c.queued ≠ []) :
    Covered (c.setStage stage' a) := by
  constructor
  · intro hstopped hpending
    rw [setStage_stopped] at hstopped
    rw [setStage_pending] at hpending
    by_cases hq : c.queued = []
    · refine covered_setStage ha (fun hcovers => ?_) (h.covered hstopped hpending)
      exact (hstage hcovers hpending hstopped).resolve_right fun hne => hne hq
    · exact covered_of_queued (by rwa [setStage_queued])
  · rw [setStage_messages]
    exact h.once

/-- A handler that fails goes on to its release; a decision started at an arrival covers nothing. -/
theorem Covered.fail (h : Covered c) (ha : c.stage a = some stage) : Covered (c.setStage a.failed a) := by
  cases a with
  | claim i => exact h.setStage ha fun _ _ _ => .inl rfl
  | decision i => exact ⟨h.covered, h.once⟩

/-- A read that leaves a pending message to its queued run found one. -/
theorem decide_covers (ran : Bool) (hpending : c.pending ≠ []) (hstopped : c.stopped = false) :
    (c.decide ran).covers = true ∨ c.queued ≠ [] := by
  by_cases hq : c.queued = []
  · left
    have hnone : earliest c.queued = none := by rw [hq, earliest]
    have hempty : c.pending.isEmpty = false := List.isEmpty_eq_false_iff.2 hpending
    simp [Chat.decide, hstopped, hempty, hnone, Stage.covers]
  · exact .inr hq

theorem backstop_eq (c : Chat) (snapshot : Snapshot) : ∃ queued next, c.backstop snapshot = { c with queued := queued, nextRun := next } := by
  rw [Chat.backstop]
  split_ifs
  · exact ⟨_, _, rfl⟩
  · exact ⟨c.queued, c.nextRun, rfl⟩

theorem backstop_queued (h : snapshot.queued.isEmpty = true) : (c.backstop snapshot).queued ≠ [] := by
  rw [Chat.backstop, if_pos h]
  exact List.append_ne_nil_of_right_ne_nil _ (List.cons_ne_nil _ _)

theorem backstop_seen (h : snapshot.queued.isEmpty = false) : c.backstop snapshot = c := by
  rw [Chat.backstop, h, if_neg Bool.false_ne_true]

attribute [local simp] step

theorem Covered.stored (h : Covered c) (i : Nat) (ha : (Step.stored i).current c = true) :
    Covered (step c (.stored i)) := by
  simp only [step]
  cases hi : c.arrivals[i]? with
  | none => exact h
  | some arrival =>
    rw [Step.current, hi, Option.all_some, Bool.or_eq_true] at ha
    obtain ⟨queued, next, heq⟩ := backstop_eq c arrival.snapshot
    dsimp only
    constructor
    · intro _ _
      cases hseen : arrival.snapshot.queued.isEmpty with
      | true => exact covered_of_queued (backstop_queued hseen)
      | false =>
        rw [hseen] at ha
        rw [backstop_seen hseen]
        exact ha.resolve_left Bool.false_ne_true
    · intro m hm
      rcases List.mem_append.1 hm with hm | hm
      · exact h.once m hm
      · rw [List.mem_singleton.1 hm]
        exact .inl ⟨rfl, rfl⟩

theorem Covered.ensured (h : Covered c) (a : Actor) (ha : (Step.ensured a).current c = true) :
    Covered (step c (.ensured a)) := by
  simp only [step]
  split
  · next snapshot pending spent hstage =>
    simp only [Step.current, hstage, Bool.or_eq_true] at ha
    constructor
    · intro hstopped hpending
      cases hseen : snapshot.queued.isEmpty with
      | true => exact covered_of_queued (by rw [setStage_queued]; exact backstop_queued hseen)
      | false =>
        rw [hseen] at ha
        rw [backstop_seen hseen]
        exact ha.resolve_left Bool.false_ne_true
    · obtain ⟨queued, next, heq⟩ := backstop_eq c snapshot
      rw [setStage_messages, heq]
      exact h.once
  · exact h

/-- A statement that deletes no run leaves the conversation covered: what covered it is a run still
queued or another claimed one. -/
theorem covered_kept (hstage : c.stage a = some (.writing snapshot outcome))
    (hflush : outcome.flushes snapshot = false) (h : c.covered = true) :
    ((c.write snapshot outcome).setStage .done a).covered = true := by
  have hkeep : c.flush snapshot outcome = c := by rw [Chat.flush, hflush, if_neg Bool.false_ne_true]
  cases outcome with
  | clear =>
    have hwrite : c.write snapshot .clear = c := hkeep
    rw [hwrite]
    exact covered_setStage hstage (fun hcovers => absurd hcovers Bool.false_ne_true) h
  | settle admitted filter =>
    have hsome : ∃ ids, admitted = some ids := by
      cases admitted with
      | none => simp [Outcome.flushes] at hflush
      | some ids => exact ⟨ids, rfl⟩
    obtain ⟨ids, rfl⟩ := hsome
    have hwrite : c.write snapshot (.settle (some ids) filter) =
        { c with messages := c.messages.map (Message.settle snapshot (some ids) filter) } := by
      rw [Chat.write, hkeep]
    rw [hwrite]
    have hsame : Chat.stage { c with messages := c.messages.map (Message.settle snapshot (some ids) filter) } a =
        some (.writing snapshot (.settle (some ids) filter)) := by
      cases a <;> exact hstage
    exact covered_setStage hsame (fun hcovers => absurd hcovers Bool.false_ne_true) h
  | holding first time => exact covered_of_queued (by rw [setStage_queued]; exact holding_queued)

theorem Covered.written (h : Covered c) (a : Actor) (ha : (Step.written a).current c = true) :
    Covered (step c (.written a)) := by
  simp only [step]
  split
  · next snapshot outcome hstage =>
    obtain ⟨queued, next, heq⟩ := write_eq c snapshot outcome
    simp only [Step.current, hstage] at ha
    constructor
    · rw [setStage_stopped, setStage_pending]
      intro hstopped hpending
      cases hflush : outcome.flushes snapshot with
      | true =>
        rw [hflush, Bool.not_true, Bool.false_or, Bool.or_eq_true] at ha
        refine covered_of_queued ?_
        rw [setStage_queued]
        refine write_queued hflush (ha.resolve_left fun hseen => ?_)
        -- every pending message was seen so, and a statement that deletes the runs took it
        obtain ⟨id, hid⟩ := List.exists_mem_of_ne_nil _ hpending
        exact pending_flushed hflush hid (of_decide_eq_true (List.all_eq_true.1 hseen id (pending_write hid)))
      | false =>
        have hbefore : c.pending ≠ [] := by
          obtain ⟨id, hid⟩ := List.exists_mem_of_ne_nil _ hpending
          exact List.ne_nil_of_mem (pending_write hid)
        have hstopped' : c.stopped = false := by
          rw [heq] at hstopped
          exact hstopped
        exact covered_kept hstage hflush (h.covered hstopped' hbefore)
    · rw [setStage_messages, write_messages]
      intro m hm
      cases outcome with
      | clear => exact h.once m hm
      | holding first time => exact h.once m hm
      | settle admitted filter =>
        obtain ⟨m, hbefore, rfl⟩ := List.mem_map.1 hm
        exact (h.once m hbefore).settle
  · exact h

theorem Covered.claim (h : Covered c) (i : Nat) : Covered (step c (.claim i)) := by
  simp only [step]
  cases hi : c.queued[i]? with
  | none => exact h
  | some run =>
    dsimp only
    split_ifs
    · refine ⟨fun _ _ => covered_iff.2 (.inr ⟨⟨run, some .waiting⟩, ?_, rfl⟩), h.once⟩
      exact List.mem_append_right _ List.mem_cons_self
    · exact h

theorem Covered.finish (h : Covered c) (i : Nat) : Covered (step c (.finish i)) := by
  simp only [step]
  split
  · next run hi =>
    refine ⟨fun hstopped hpending => covered_iff.2 ?_, h.once⟩
    refine (covered_iff.1 (h.covered hstopped hpending)).imp_right ?_
    rintro ⟨claim, hclaim, hcovers⟩
    obtain ⟨j, hj⟩ := List.mem_iff_getElem?.1 hclaim
    refine ⟨claim, List.mem_eraseIdx_iff_getElem?.2 ⟨j, ?_, hj⟩, hcovers⟩
    -- a handler that is done covers nothing
    rintro rfl
    rw [hi] at hj
    cases hj
    exact absurd hcovers Bool.false_ne_true
  · exact h

theorem Covered.crash (h : Covered c) : Covered (step c .crash) := by
  refine ⟨fun hstopped hpending => covered_iff.2 ?_, h.once⟩
  refine (covered_iff.1 (h.covered hstopped hpending)).imp_right ?_
  rintro ⟨claim, hclaim, -⟩
  exact ⟨{ claim with stage := none }, List.mem_map_of_mem hclaim, rfl⟩

theorem Covered.boot (h : Covered c) (overran : Bool) (ha : (Step.boot overran).current c = true) :
    Covered (step c (.boot overran)) := by
  refine ⟨fun hstopped hpending => covered_iff.2 ?_, h.once⟩
  have hstopped' : c.stopped = false := hstopped
  have hpending' : c.pending.isEmpty = false := List.isEmpty_eq_false_iff.2 hpending
  simp only [Step.current, hstopped', hpending', Bool.false_or, Bool.or_eq_true, Bool.not_eq_true',
    List.any_eq_true, Bool.and_eq_true] at ha
  rcases ha with hq | ⟨claim, hclaim, hcovers, hkept⟩
  · exact .inl (List.append_ne_nil_of_left_ne_nil (List.isEmpty_eq_false_iff.1 hq) _)
  · cases hstage : claim.stage with
    | some stage =>
      exact .inr ⟨claim, List.mem_filter.2 ⟨hclaim, by rw [hstage]; rfl⟩, hcovers⟩
    | none =>
      have hmem : claim ∈ c.claimed.filter fun claim => claim.stage.isNone && !claim.givenUp overran :=
        List.mem_filter.2 ⟨hclaim, by rw [hstage, hkept]; rfl⟩
      exact .inl (List.append_ne_nil_of_right_ne_nil _ (List.ne_nil_of_mem (List.mem_map_of_mem hmem)))

theorem Covered.step (h : Covered c) (a : Step) (ha : a.current c = true) : Covered (step c a) := by
  cases a with
  | tick ms => exact ⟨h.covered, h.once⟩
  | stop => exact ⟨fun hstopped => absurd hstopped (by simp [Throttle.step]), h.once⟩
  | arrive reopened => exact ⟨h.covered, h.once⟩
  | stored i => exact h.stored i ha
  | typing =>
    refine ⟨fun hstopped hpending => covered_iff.2 ?_, h.once⟩
    refine (covered_iff.1 (h.covered hstopped hpending)).imp_left fun hq => ?_
    exact fun hnil => hq (List.map_eq_nil_iff.1 hnil)
  | claim i => exact h.claim i
  | read a =>
    rw [Throttle.step]
    split
    · next hstage => exact h.setStage hstage fun _ hpending hstopped => decide_covers _ hpending hstopped
    · exact h
  | clear a =>
    rw [Throttle.step]
    split
    · next hstage => exact h.setStage hstage fun hcovers => absurd hcovers Bool.false_ne_true
    · exact h
  | backstop a =>
    rw [Throttle.step]
    split
    · next hstage => exact h.setStage hstage fun _ _ _ => .inl rfl
    · exact h
  | ensured a => exact h.ensured a ha
  | answer a answer =>
    rw [Throttle.step]
    split
    · next hstage => exact h.setStage hstage fun hcovers => absurd hcovers Bool.false_ne_true
    · exact h
  | written a => exact h.written a ha
  | fail a =>
    rw [Throttle.step]
    split
    · next hstage => exact h.fail hstage
    · next hstage => exact h.fail hstage
    · next hstage => exact h.fail hstage
    · next hstage => exact h.fail hstage
    · exact h
  | release a =>
    rw [Throttle.step]
    split
    · next hstage => exact h.setStage hstage fun _ _ _ => .inl rfl
    · exact h
  | flush => exact ⟨h.covered, h.once⟩
  | finish i => exact h.finish i
  | crash => exact h.crash
  | boot overran => exact h.boot overran ha

/-- In a conversation that is not stopped, a pending message has a run of the conversation queued, or
claimed with its handler not settled; and a message leaves `pending` once, for the state it is in. -/
structure Attended (c : Chat) : Prop where
  covered : c.stopped = false → c.pending ≠ [] → c.queued ≠ [] ∨ c.claimed ≠ []
  once : ∀ m ∈ c.messages, m.Once

theorem Covered.attended (h : Covered c) : Attended c := by
  refine ⟨fun hstopped hpending => ?_, h.once⟩
  refine (covered_iff.1 (h.covered hstopped hpending)).imp_right ?_
  rintro ⟨claim, hclaim, -⟩
  exact List.ne_nil_of_mem hclaim

/-- Where the statements that deal with a run find what they saw of it still so, no pending message is
left alone. -/
theorem run_attended (envoy group : Bool) (steps : List Step)
    (hsteps : Meets step (fun c a => a.current c = true) (.init envoy group) steps) :
    Attended (run (.init envoy group) steps) := by
  have hstep : ∀ c (a : Step), Covered c → a.current c = true → Covered (step c a) :=
    fun c a h ha => h.step a ha
  have hinit : Covered (.init envoy group) :=
    ⟨fun _ hpending => absurd rfl hpending, fun m hm => by cases hm⟩
  exact (hsteps.invariant hstep hinit).attended

/-- Nothing filters or holds: the burst goes as it is. -/
def Answer.respond : Answer := ⟨true, true, true, false, [], false, 0⟩

/-- A message arrives while the decision on the one before it is asked. -/
def joinsMeanwhile : List Step :=
  [.arrive false, .stored 0, .read (.decision 0), .arrive false, .stored 0,
    .answer (.decision 0) .respond, .written (.decision 0)]

theorem joinsMeanwhile_attended : (run (.init false false) joinsMeanwhile).messages =
      [⟨0, .queued, [.queued]⟩, ⟨1, .queued, [.queued]⟩] ∧
    Attended (run (.init false false) joinsMeanwhile) :=
  ⟨by decide, run_attended false false joinsMeanwhile (by decide)⟩

/-- A message arrives between the start of the outcome's statement and its commit: its statement sees
the run that the outcome deletes, and the process is lost before it decides. -/
theorem joinsOutcome_unattended : ¬ ∀ (envoy group : Bool) (steps : List Step),
    Attended (run (.init envoy group) steps) := by
  intro hall
  have hrun := (hall false false [.arrive false, .stored 0, .read (.decision 0),
    .answer (.decision 0) .respond, .arrive false, .stored 0, .written (.decision 0), .crash, .boot false]).covered
  revert hrun
  decide

end Norbital.Bolt.Throttle

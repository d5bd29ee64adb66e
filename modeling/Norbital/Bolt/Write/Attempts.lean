import Norbital.Bolt.Write.Gate

/-!
# Attempts at an act

The life of an attempt (`pipeline` in `bolt/src/engine/write/act.ts`): what it
is refused before its record, the lookup of a marked retry, its commit, the
record of a refusal, and the second lookup when the statement's snapshot did not
show the outcome another attempt committed meanwhile.  Attempts interleave with
each other, with `prune` and with other writers at every statement.
-/

namespace Norbital.Bolt.Write

variable {σ : Type*}

inductive Phase where
  /-- Planning; `again` once a serialization failure was replayed. -/
  | running (again : Bool)
  /-- On its way to `record`. -/
  | recording (o : Outcome)
  /-- The statement answered no outcome; `stored` is read, `o` stands if it has none. -/
  | reading (o : Outcome)
  /-- Answered without touching the record. -/
  | unrecorded (o : Outcome)
  /-- Answered from the record. -/
  | settled (o : Outcome)
  | failed

/-- An attempt; `view` is the snapshot of the statement it has begun. -/
structure Attempt where
  request : Request
  startedAt : Int
  view : Option (Option (Idem × Outcome))
  phase : Phase

/-- What an attempt answered. -/
def Attempt.answer (a : Attempt) : Option Outcome :=
  match a.phase with
  | .unrecorded o => some o
  | .settled o => some o
  | _ => none

/-- The tenant's data and records, and every attempt so far.  `applied` lists the
attempts whose writes took effect. -/
structure World (σ : Type*) where
  records : Records
  data : σ
  clock : Int
  attempts : List Attempt
  applied : List (Nat × Request)

/-- What an attempt does next. -/
inductive Move (σ : Type*) where
  /-- A refusal that is not recorded: decoding, grants, observed revisions, a dry run. -/
  | refuse (o : Outcome)
  /-- The lookup of a marked retry. -/
  | lookup
  /-- Guest code refuses. -/
  | guestRefuse (o : Outcome)
  /-- The snapshot of the next statement is taken. -/
  | begin
  | commit (pieces : σ → Except Fault (σ × Outcome)) (guest : Bool)
  | record (limited : Bool)
  | fetch
  /-- The call fails; an answer it had is lost. -/
  | fail

inductive Action (σ : Type*) where
  | start (r : Request) (limited : Bool)
  | act (i : Nat) (m : Move σ)
  | prune (gone taken : String → Bool)
  | pass (d : Nat)
  | receipt (key : String) (unacknowledged : Bool)
  | write (f : σ → σ)

def World.put (w : World σ) (i : Nat) (a : Attempt) : World σ :=
  { w with attempts := w.attempts.set i a }

/-- The outcome of a commit whose record is gone. -/
def lostOutcome : Outcome := refused .refused "The outcome was lost."

/-- Where an attempt goes with what its statement answered. -/
def answered (answer : Option Outcome) (fallback : Outcome) : Phase :=
  match answer with
  | some o => .settled o
  | none => .reading fallback

/-- Where an attempt goes with the error of its commit. -/
def afterFault (f : Fault) (guest again : Bool) : Phase :=
  match decided f with
  | none => .failed
  | some d =>
      if d.replay && guest && !again then .running true
      else if d.record then .recording d.outcome
      else .unrecorded d.outcome

/-- One gated statement of an attempt, begun with the snapshot `view`. -/
def execute (w : World σ) (i : Nat) (a : Attempt) (view : Option (Idem × Outcome))
    (pieces : σ → Except Fault (σ × Outcome)) (writes : Bool) (fallback : Outcome)
    (onFault : Fault → Phase) : World σ :=
  match chain w.records w.data a.request view pieces with
  | .error f => w.put i { a with view := none, phase := onFault f }
  | .ok x =>
      { w.put i { a with view := none, phase := answered x.answer fallback } with
        records := x.records
        data := x.data
        applied := if x.gated && writes then (i, a.request) :: w.applied else w.applied }

def move (w : World σ) (i : Nat) (a : Attempt) : Move σ → World σ
  | .refuse o =>
      match a.phase with
      | .running _ => w.put i { a with phase := .unrecorded o }
      | _ => w
  | .lookup =>
      -- only a retry looks for the receipt before it runs
      match a.phase, a.request.retry, stored w.records a.request with
      | .running _, true, some o => w.put i { a with phase := .settled o }
      | _, _, _ => w
  | .guestRefuse o =>
      match a.phase with
      | .running _ => w.put i { a with phase := .recording o }
      | _ => w
  | .begin =>
      match a.phase with
      -- the statement's snapshot of the key is taken when it begins
      | .running _ | .recording _ =>
          w.put i { a with view := some (w.records.joined a.request.key) }
      | _ => w
  | .commit pieces guest =>
      match a.phase, a.view with
      | .running again, some view =>
          execute w i a view pieces true lostOutcome (afterFault · guest again)
      | _, _ => w
  | .record limited =>
      match a.phase, a.view with
      | .recording o, some view =>
          execute w i a view (outcomeRecord limited o) false o (fun _ => .failed)
      | _, _ => w
  | .fetch =>
      match a.phase with
      | .reading o => w.put i { a with phase := .settled ((stored w.records a.request).getD o) }
      | _ => w
  | .fail => w.put i { a with phase := .failed }

/-- How an attempt begins: admission, then its age. -/
def begun (clock : Int) (r : Request) (limited : Bool) : Attempt where
  request := r
  startedAt := clock
  view := none
  phase :=
    if limited then .unrecorded rateLimited
    else match expired clock r with
      | some o => .unrecorded o
      | none => .running false

def step (w : World σ) : Action σ → World σ
  | .start r limited => { w with attempts := w.attempts ++ [begun w.clock r limited] }
  | .act i m =>
      match w.attempts[i]? with
      | some a => move w i a m
      | none => w
  | .prune gone taken => { w with records := prune w.records w.clock gone taken }
  | .pass d => { w with clock := w.clock + d }
  | .receipt key unacknowledged =>
      { w with records :=
          { w.records with receipt := Function.update w.records.receipt key unacknowledged } }
  | .write f => { w with data := f w.data }

def run (w : World σ) (acts : List (Action σ)) : World σ := acts.foldl step w

@[simp] theorem run_nil (w : World σ) : run w [] = w := rfl

@[simp] theorem run_cons (w : World σ) (a : Action σ) (acts : List (Action σ)) :
    run w (a :: acts) = run (step w a) acts := rfl

theorem run_append (w : World σ) (as bs : List (Action σ)) :
    run w (as ++ bs) = run (run w as) bs := List.foldl_append

/-- A workspace before any attempt. -/
def idle (records : Records) (data : σ) (clock : Int) : World σ := ⟨records, data, clock, [], []⟩

/-- Whether a move runs a statement on the records. -/
def Move.statement : Move σ → Bool
  | .lookup | .begin | .commit .. | .record _ | .fetch => true
  | .refuse _ | .guestRefuse _ | .fail => false

/-- Whether an action is no statement of an attempt at `key`, or one within an
hour of the attempt's start. -/
def timely (key : String) (w : World σ) : Action σ → Bool
  | .act i m =>
      match w.attempts[i]? with
      | some a =>
          !decide (a.request.key = key) || !m.statement ||
            decide (w.clock ≤ a.startedAt + HOUR)
      | none => true
  | _ => true

/-- Whether every statement of an attempt at `key` is timely in the run. -/
def prompt (key : String) : World σ → List (Action σ) → Bool
  | _, [] => true
  | w, a :: acts => timely key w a && prompt key (step w a) acts

/-- Whether an action's request, if it starts one at `key`, carries `issuedAt`. -/
def sameIssue (key : String) (issuedAt : Int) : Action σ → Bool
  | .start r _ => !decide (r.key = key) || decide (r.issuedAt = issuedAt)
  | _ => true

section Once

variable {key : String} {issuedAt : Int}

/-- The row that recording under a digest leaves, with its outcome. -/
def entry (issuedAt : Int) (p : String × Outcome) : Idem × Outcome := (⟨p.1, issuedAt, none⟩, p.2)

def Phase.finished : Phase → Bool
  | .unrecorded _ | .settled _ | .failed => true
  | .running _ | .recording _ | .reading _ => false

/-- An attempt against what is recorded for its key, if anything is. -/
structure Agrees (issuedAt : Int) (recorded : Option (String × Outcome)) (a : Attempt) : Prop where
  issued : a.request.issuedAt = issuedAt
  began : a.phase.finished = false → a.startedAt ≤ issuedAt + 23 * HOUR
  view : ∀ v, a.view = some v → v = none ∨ v = recorded.map (entry issuedAt)
  reading : ∀ o, a.phase = .reading o → recorded.isSome
  settled : ∀ o, a.phase = .settled o →
    ∃ p, recorded = some p ∧ o = replayed p.1 p.2 a.request.digest

/-- Nothing an attempt holds is lost when its key is recorded. -/
theorem Agrees.record {a : Attempt} (h : Agrees issuedAt none a) (p : String × Outcome) :
    Agrees issuedAt (some p) a where
  issued := h.issued
  began := h.began
  view v hv := .inl ((h.view v hv).elim id id)
  reading o ho := by simp
  settled o ho := by
    obtain ⟨_, hnone, _⟩ := h.settled o ho
    cases hnone

def Phase.over (p : Phase) : Prop := (∃ o, p = .settled o) ∨ p = .failed

/-- Members of a list with one element replaced. -/
theorem mem_put {w : World σ} {i : Nat} {a b : Attempt} (h : b ∈ (w.put i a).attempts) :
    b = a ∨ b ∈ w.attempts := by
  rcases List.mem_or_eq_of_mem_set h with h | h
  · exact .inr h
  · exact .inl h

theorem getElem?_put_self {w : World σ} {i : Nat} {a : Attempt} (hi : w.attempts[i]? = some a)
    (a' : Attempt) : (w.put i a').attempts[i]? = some a' := by
  have hlt : i < w.attempts.length := (List.getElem?_eq_some_iff.1 hi).1
  simp [World.put, hlt]

variable {w : World σ} {recorded : Option (String × Outcome)} {i : Nat} {a a' : Attempt}

/-- Where an applied attempt stands: answered from the record, or failed. -/
def Done (w : World σ) (p : Nat × Request) : Prop :=
  ∃ a, w.attempts[p.1]? = some a ∧ a.request = p.2 ∧ a.phase.over

theorem Done.put {p : Nat × Request} (h : Done w p) (hi : w.attempts[i]? = some a)
    (hreq : a'.request = a.request) (hover : a.phase.over → a'.phase.over) :
    Done (w.put i a') p := by
  obtain ⟨b, hb, hbr, hbo⟩ := h
  by_cases hp : i = p.1
  · subst hp
    obtain rfl : a = b := by simpa [hi] using hb
    exact ⟨a', getElem?_put_self hi a', hreq.trans hbr, hover hbo⟩
  · exact ⟨b, by rw [World.put, List.getElem?_set_ne hp]; exact hb, hbr, hbo⟩

/-- The state of a key that no attempt found removed: the record is what the
first statement through the gate left, for as long as no pass may prune it. -/
structure Held (key : String) (issuedAt : Int) (recorded : Option (String × Outcome))
    (w : World σ) : Prop where
  table : w.clock ≤ issuedAt + DAY →
    w.records.idem key = recorded.map (fun p => (entry issuedAt p).1) ∧
      w.records.outcome key = recorded.map Prod.snd
  attempts : ∀ a ∈ w.attempts, a.request.key = key → Agrees issuedAt recorded a
  once : (w.applied.filter fun p => p.2.key = key).length ≤ recorded.toList.length
  digest : ∀ p ∈ w.applied, p.2.key = key → ∃ o, recorded = some (p.2.digest, o)
  done : ∀ p ∈ w.applied, Done w p

theorem Held.joined (h : Held key issuedAt recorded w) (hclock : w.clock ≤ issuedAt + DAY) :
    w.records.joined key = recorded.map (entry issuedAt) := by
  obtain ⟨hi, ho⟩ := h.table hclock
  rw [Records.joined, hi, ho]
  cases recorded <;> rfl

theorem Held.stored {r : Request} (h : Held key issuedAt recorded w)
    (hclock : w.clock ≤ issuedAt + DAY) (hkey : r.key = key) (hissued : r.issuedAt = issuedAt) :
    stored w.records r = recorded.map fun p => replayed p.1 p.2 r.digest := by
  rw [Write.stored, hkey, h.joined hclock]
  have hday : (0 : Int) < DAY := by decide
  cases recorded with
  | none => rfl
  | some p =>
    have hyoung : r.issuedAt - DAY < issuedAt := by omega
    simp [entry, hyoung]

/-- The gate is open to the key's requests exactly when nothing is recorded. -/
theorem Held.gateOpen {r : Request} (h : Held key issuedAt recorded w)
    (hclock : w.clock ≤ issuedAt + DAY) (hkey : r.key = key) (hissued : r.issuedAt = issuedAt) :
    gateOpen w.records r = recorded.isNone := by
  rw [Write.gateOpen, hkey, (h.table hclock).1]
  have hday : (0 : Int) < DAY := by decide
  cases recorded with
  | none => rfl
  | some p =>
    have hyoung : ¬ issuedAt < r.issuedAt - DAY := by omega
    simp [entry, hyoung]

/-- An attempt moves on its own. -/
theorem Held.put (h : Held key issuedAt recorded w) (hi : w.attempts[i]? = some a)
    (hreq : a'.request = a.request) (hagrees : a.request.key = key → Agrees issuedAt recorded a')
    (hover : a.phase.over → a'.phase.over) : Held key issuedAt recorded (w.put i a') where
  table := h.table
  attempts b hb hkey := by
    rcases mem_put hb with rfl | hb
    · exact hagrees (hreq ▸ hkey)
    · exact h.attempts b hb hkey
  once := h.once
  digest := h.digest
  done p hp := (h.done p hp).put hi hreq hover

/-- What an attempt's statement through the open gate leaves. -/
def entered (w : World σ) (i : Nat) (a : Attempt) (o : Outcome) (data : σ) (writes : Bool) :
    World σ :=
  { w.put i { a with view := none, phase := .settled o } with
    records := w.records.enter a.request o
    data := data
    applied := if writes then (i, a.request) :: w.applied else w.applied }

theorem mem_entered_applied {o : Outcome} {data : σ} {writes : Bool} {p : Nat × Request}
    (h : p ∈ (entered w i a o data writes).applied) : p = (i, a.request) ∨ p ∈ w.applied := by
  cases writes
  · exact .inr h
  · exact List.mem_cons.1 h

theorem entered_done (hdone : ∀ p ∈ w.applied, Done w p) (hi : w.attempts[i]? = some a)
    (o : Outcome) (data : σ) (writes : Bool) :
    ∀ p ∈ (entered w i a o data writes).applied, Done (entered w i a o data writes) p := by
  intro p hp
  rcases mem_entered_applied hp with rfl | hp
  · exact ⟨_, getElem?_put_self hi _, rfl, .inl ⟨o, rfl⟩⟩
  · exact (hdone p hp).put hi rfl fun _ => .inl ⟨o, rfl⟩

/-- A statement enters the gate of another key. -/
theorem Held.entered_ne (h : Held key issuedAt recorded w) (hi : w.attempts[i]? = some a)
    (hkey : a.request.key ≠ key) (o : Outcome) (data : σ) (writes : Bool) :
    Held key issuedAt recorded (entered w i a o data writes) where
  table hclock := by
    rw [entered, enter_idem_of_ne _ _ _ hkey.symm, enter_outcome_of_ne _ _ _ hkey.symm]
    exact h.table hclock
  attempts b hb hbkey := by
    rcases mem_put hb with rfl | hb
    · exact absurd hbkey hkey
    · exact h.attempts b hb hbkey
  once := by
    cases writes
    · exact h.once
    · simpa [entered, hkey] using h.once
  digest p hp hpkey := by
    rcases mem_entered_applied hp with rfl | hp
    · exact absurd hpkey hkey
    · exact h.digest p hp hpkey
  done := entered_done h.done hi o data writes

/-- The first statement through the key's gate records it. -/
theorem Held.entered (h : Held key issuedAt none w) (hi : w.attempts[i]? = some a)
    (hclock : w.clock ≤ issuedAt + DAY) (hkey : a.request.key = key) (o : Outcome) (data : σ)
    (writes : Bool) :
    Held key issuedAt (some (a.request.digest, o)) (entered w i a o data writes) where
  table _ := by
    have hnone : w.records.idem a.request.key = none := hkey ▸ (h.table hclock).1
    have hissued := (h.attempts a (List.mem_of_getElem? hi) hkey).issued
    subst hkey
    simp [Write.entered, Records.enter, hnone, hissued, entry]
  attempts b hb hbkey := by
    rcases mem_put hb with rfl | hb
    · have hagrees := h.attempts a (List.mem_of_getElem? hi) hkey
      refine ⟨hagrees.issued, by simp [Phase.finished], by simp, by simp, ?_⟩
      intro o' ho'
      obtain rfl : o = o' := by simpa using ho'
      exact ⟨_, rfl, by simp [replayed]⟩
    · exact (h.attempts b hb hbkey).record _
  once := by
    have hnil : (w.applied.filter fun p => p.2.key = key) = [] := by
      simpa using h.once
    cases writes <;> simp [Write.entered, hkey, hnil]
  digest p hp hpkey := by
    rcases mem_entered_applied hp with rfl | hp
    · exact ⟨o, rfl⟩
    · obtain ⟨_, hnone⟩ := h.digest p hp hpkey
      cases hnone
  done := entered_done h.done hi o data writes

/-- A statement fails, enters the gate, or finds it closed and writes nothing. -/
theorem execute_cases (w : World σ) (i : Nat) (a : Attempt) (view : Option (Idem × Outcome))
    (pieces : σ → Except Fault (σ × Outcome)) (writes : Bool) (fallback : Outcome)
    (onFault : Fault → Phase) :
    (∃ f, execute w i a view pieces writes fallback onFault =
        w.put i { a with view := none, phase := onFault f }) ∨
      (Write.gateOpen w.records a.request = true ∧ ∃ data o,
        execute w i a view pieces writes fallback onFault = Write.entered w i a o data writes) ∨
      (Write.gateOpen w.records a.request = false ∧
        execute w i a view pieces writes fallback onFault = w.put i
          { a with view := none, phase := answered (storedOutcome view a.request.digest) fallback }) := by
  rw [execute]
  split
  · next f _ => exact .inl ⟨f, rfl⟩
  · next x hx =>
    rcases chain_eq_ok hx with ⟨hopen, data, o, -, rfl⟩ | ⟨hclosed, rfl⟩
    · exact .inr (.inl ⟨hopen, data, o, by simp [Write.entered, answered]⟩)
    · exact .inr (.inr ⟨hclosed, by simp [World.put]⟩)

/-- A phase that no statement has answered. -/
def Phase.open (p : Phase) : Prop := (∀ o, p ≠ .reading o) ∧ ∀ o, p ≠ .settled o

@[simp] theorem open_running (again : Bool) : (Phase.running again).open := by simp [Phase.open]

@[simp] theorem open_recording (o : Outcome) : (Phase.recording o).open := by simp [Phase.open]

@[simp] theorem open_unrecorded (o : Outcome) : (Phase.unrecorded o).open := by simp [Phase.open]

@[simp] theorem open_failed : Phase.failed.open := by simp [Phase.open]

theorem afterFault_open (f : Fault) (guest again : Bool) : (afterFault f guest again).open := by
  rw [afterFault]
  generalize decided f = d
  cases d with
  | none => exact open_failed
  | some d =>
    dsimp only
    split
    · exact open_running true
    · split
      · exact open_recording d.outcome
      · exact open_unrecorded d.outcome

/-- An attempt that no statement has answered agrees whatever is recorded. -/
theorem Agrees.unanswered (h : Agrees issuedAt recorded a) {phase : Phase}
    (hlive : phase.finished = false → a.phase.finished = false) (hphase : phase.open) :
    Agrees issuedAt recorded { a with phase := phase } where
  issued := h.issued
  began hp := h.began (hlive hp)
  view := h.view
  reading o ho := absurd ho (hphase.1 o)
  settled o ho := absurd ho (hphase.2 o)

theorem Agrees.forget (h : Agrees issuedAt recorded a) :
    Agrees issuedAt recorded { a with view := none } where
  issued := h.issued
  began := h.began
  view v hv := by cases hv
  reading := h.reading
  settled := h.settled

/-- An attempt answered with the record. -/
theorem Agrees.settle {p : String × Outcome} (h : Agrees issuedAt (some p) a) :
    Agrees issuedAt (some p) { a with phase := .settled (replayed p.1 p.2 a.request.digest) } where
  issued := h.issued
  began hp := by simp [Phase.finished] at hp
  view := h.view
  reading o ho := rfl
  settled o ho := ⟨p, rfl, by simpa using ho.symm⟩

/-- What a closed gate answers is the record, or nothing when the snapshot is
older than it. -/
theorem Agrees.closed {p : String × Outcome} (h : Agrees issuedAt (some p) a)
    (hlive : a.phase.finished = false) {view : Option (Idem × Outcome)} (hview : a.view = some view)
    (fallback : Outcome) :
    Agrees issuedAt (some p)
      { a with view := none, phase := answered (storedOutcome view a.request.digest) fallback } where
  issued := h.issued
  began _ := h.began hlive
  view v hv := by cases hv
  reading o ho := rfl
  settled o ho := by
    rcases h.view view hview with rfl | rfl
    · cases ho
    · refine ⟨p, rfl, ?_⟩
      simpa [answered, storedOutcome, entry] using ho.symm

theorem not_over_of_live {p : Phase} (h : p.finished = false) : ¬ p.over := by
  rintro (⟨o, rfl⟩ | rfl) <;> cases h

/-- A statement of an attempt, run while its key may not be pruned. -/
theorem Held.execute (h : Held key issuedAt recorded w) (hi : w.attempts[i]? = some a)
    (hlive : a.phase.finished = false) {view : Option (Idem × Outcome)} (hview : a.view = some view)
    (hclock : a.request.key = key → w.clock ≤ issuedAt + DAY)
    (pieces : σ → Except Fault (σ × Outcome)) (writes : Bool) (fallback : Outcome)
    {onFault : Fault → Phase} (hfault : ∀ f, (onFault f).open) :
    ∃ recorded', Held key issuedAt recorded'
      (execute w i a view pieces writes fallback onFault) := by
  have hmem : a ∈ w.attempts := List.mem_of_getElem? hi
  have hover : ∀ q : Phase, a.phase.over → q.over := fun q hq => absurd hq (not_over_of_live hlive)
  rcases execute_cases w i a view pieces writes fallback onFault with
    ⟨f, heq⟩ | ⟨hopen, data, o, heq⟩ | ⟨hclosed, heq⟩
  · refine ⟨recorded, heq ▸ h.put hi rfl ?_ (hover _)⟩
    intro hkey
    exact ((h.attempts a hmem hkey).unanswered (fun _ => hlive) (hfault f)).forget
  · rw [heq]
    by_cases hkey : a.request.key = key
    · rw [h.gateOpen (hclock hkey) hkey (h.attempts a hmem hkey).issued] at hopen
      obtain rfl : recorded = none := by simpa using hopen
      exact ⟨_, h.entered hi (hclock hkey) hkey o data writes⟩
    · exact ⟨_, h.entered_ne hi hkey o data writes⟩
  · refine ⟨recorded, heq ▸ h.put hi rfl ?_ (hover _)⟩
    intro hkey
    rw [h.gateOpen (hclock hkey) hkey (h.attempts a hmem hkey).issued] at hclosed
    obtain ⟨p, rfl⟩ : ∃ p, recorded = some p := by
      cases recorded with
      | none => cases hclosed
      | some p => exact ⟨p, rfl⟩
    exact (h.attempts a hmem hkey).closed hlive hview fallback

/-- A move of an attempt, timely when it runs a statement. -/
theorem Held.move (h : Held key issuedAt recorded w) (hi : w.attempts[i]? = some a) (m : Move σ)
    (htimely : a.request.key = key → m.statement = true → w.clock ≤ a.startedAt + HOUR) :
    ∃ recorded', Held key issuedAt recorded' (move w i a m) := by
  have hmem : a ∈ w.attempts := List.mem_of_getElem? hi
  have hagrees := h.attempts a hmem
  have hclock : a.phase.finished = false → m.statement = true → a.request.key = key →
      w.clock ≤ issuedAt + DAY := by
    intro hlive hm hkey
    have hbegan := (hagrees hkey).began hlive
    have hsoon := htimely hkey hm
    simp only [HOUR, DAY] at hbegan hsoon ⊢
    omega
  -- an attempt that still moves is not over, so it may come to any phase
  have hover : a.phase.finished = false → ∀ q : Phase, a.phase.over → q.over :=
    fun hlive q hq => absurd hq (not_over_of_live hlive)
  cases m with
  | refuse o =>
    rw [Write.move]
    split
    · next again hp =>
      have hlive : a.phase.finished = false := by rw [hp]; rfl
      refine ⟨recorded, h.put hi rfl (fun hkey => ?_) (hover hlive _)⟩
      exact (hagrees hkey).unanswered (fun _ => hlive) (open_unrecorded o)
    · exact ⟨recorded, h⟩
  | lookup =>
    rw [Write.move]
    split
    · next again o hp hretry hstored =>
      have hlive : a.phase.finished = false := by rw [hp]; rfl
      refine ⟨recorded, h.put hi rfl (fun hkey => ?_) (hover hlive _)⟩
      -- the receipt found is the one recorded, for its day has not passed
      rw [h.stored (hclock hlive rfl hkey) hkey (hagrees hkey).issued] at hstored
      obtain ⟨p, rfl, rfl⟩ := Option.map_eq_some_iff.1 hstored
      exact (hagrees hkey).settle
    · exact ⟨recorded, h⟩
  | guestRefuse o =>
    rw [Write.move]
    split
    · next again hp =>
      have hlive : a.phase.finished = false := by rw [hp]; rfl
      refine ⟨recorded, h.put hi rfl (fun hkey => ?_) (hover hlive _)⟩
      exact (hagrees hkey).unanswered (fun _ => hlive) (open_recording o)
    · exact ⟨recorded, h⟩
  | begin =>
    have hview : ∀ hlive : a.phase.finished = false, ∃ recorded', Held key issuedAt recorded'
        (w.put i { a with view := some (w.records.joined a.request.key) }) := by
      intro hlive
      refine ⟨recorded, h.put hi rfl (fun hkey => ?_) (hover hlive _)⟩
      refine { hagrees hkey with view := ?_ }
      rintro v ⟨⟩
      exact .inr (hkey ▸ h.joined (hclock hlive rfl hkey))
    rw [Write.move]
    split
    · next again hp => exact hview (by rw [hp]; rfl)
    · next o hp => exact hview (by rw [hp]; rfl)
    · exact ⟨recorded, h⟩
  | commit pieces guest =>
    rw [Write.move]
    split
    · next again view hp hv =>
      have hlive : a.phase.finished = false := by rw [hp]; rfl
      exact h.execute hi hlive hv (hclock hlive rfl) pieces true lostOutcome
        (fun f => afterFault_open f guest again)
    · exact ⟨recorded, h⟩
  | record limited =>
    rw [Write.move]
    split
    · next o view hp hv =>
      have hlive : a.phase.finished = false := by rw [hp]; rfl
      exact h.execute hi hlive hv (hclock hlive rfl) _ false o (fun _ => open_failed)
    · exact ⟨recorded, h⟩
  | fetch =>
    rw [Write.move]
    split
    · next o hp =>
      have hlive : a.phase.finished = false := by rw [hp]; rfl
      refine ⟨recorded, h.put hi rfl (fun hkey => ?_) (hover hlive _)⟩
      obtain ⟨p, rfl⟩ := Option.isSome_iff_exists.1 ((hagrees hkey).reading o hp)
      rw [h.stored (hclock hlive rfl hkey) hkey (hagrees hkey).issued]
      exact (hagrees hkey).settle
    · exact ⟨recorded, h⟩
  | fail =>
    refine ⟨recorded, h.put hi rfl (fun hkey => ?_) (fun _ => .inr rfl)⟩
    exact (hagrees hkey).unanswered (fun hp => by simp [Phase.finished] at hp) open_failed

theorem begun_agrees {r : Request} (hissued : r.issuedAt = issuedAt) (clock : Int)
    (limited : Bool) : Agrees issuedAt recorded (begun clock r limited) := by
  have hphase : (begun clock r limited).phase = .running false ∧ clock ≤ r.issuedAt + 23 * HOUR ∨
      ∃ o, (begun clock r limited).phase = .unrecorded o := by
    rw [begun]
    cases limited with
    | true => exact .inr ⟨_, rfl⟩
    | false =>
      cases hexp : expired clock r with
      | none => exact .inl ⟨by simp, expired_eq_none hexp⟩
      | some o => exact .inr ⟨o, by simp⟩
  refine ⟨hissued, ?_, fun v hv => by simp [begun] at hv, ?_, ?_⟩
  · intro hlive
    rcases hphase with ⟨-, hyoung⟩ | ⟨o, ho⟩
    · exact hissued ▸ hyoung
    · simp [ho, Phase.finished] at hlive
  · intro o ho
    rcases hphase with ⟨hp, -⟩ | ⟨_, hp⟩ <;> simp [hp] at ho
  · intro o ho
    rcases hphase with ⟨hp, -⟩ | ⟨_, hp⟩ <;> simp [hp] at ho

/-- Every action keeps what holds of the key, when its request carries the key's
issue time and its statement is timely. -/
theorem Held.step (h : Held key issuedAt recorded w) (x : Action σ)
    (hsame : sameIssue key issuedAt x = true) (htimely : timely key w x = true) :
    ∃ recorded', Held key issuedAt recorded' (step w x) := by
  cases x with
  | start r limited =>
    refine ⟨recorded, h.table, ?_, h.once, h.digest, ?_⟩
    · intro b hb hkey
      rcases List.mem_append.1 hb with hb | hb
      · exact h.attempts b hb hkey
      · obtain rfl := List.mem_singleton.1 hb
        have hkey : r.key = key := hkey
        exact begun_agrees (by simpa [sameIssue, hkey] using hsame) w.clock limited
    · intro p hp
      obtain ⟨b, hb, hrest⟩ := h.done p hp
      have hlt : p.1 < w.attempts.length := (List.getElem?_eq_some_iff.1 hb).1
      exact ⟨b, (List.getElem?_append_left hlt).trans hb, hrest⟩
  | act i m =>
    rw [Write.step]
    cases hi : w.attempts[i]? with
    | none => exact ⟨recorded, h⟩
    | some a =>
      refine h.move hi m ?_
      intro hkey hm
      simpa [timely, hi, hkey, hm] using htimely
  | prune gone taken =>
    refine ⟨recorded, ?_, h.attempts, h.once, h.digest, h.done⟩
    intro hclock
    obtain ⟨hidem, houtcome⟩ := h.table hclock
    -- the key's row is no older than the pass's horizon
    have hyoung : ∀ i, w.records.idem key = some i → i.run = none ∧ w.clock - DAY ≤ i.issuedAt := by
      intro i hi
      rw [hidem] at hi
      obtain ⟨p, -, rfl⟩ := Option.map_eq_some_iff.1 hi
      have hclock : w.clock ≤ issuedAt + DAY := hclock
      exact ⟨rfl, by simp only [entry]; omega⟩
    have hkept : (Write.prune w.records w.clock gone taken).idem key = w.records.idem key ∧
        (Write.prune w.records w.clock gone taken).outcome key = w.records.outcome key :=
      prune_young hyoung
    exact ⟨hkept.1.trans hidem, hkept.2.trans houtcome⟩
  | pass d =>
    refine ⟨recorded, ?_, h.attempts, h.once, h.digest, h.done⟩
    intro hclock
    have hclock : w.clock + d ≤ issuedAt + DAY := hclock
    exact h.table (by omega)
  | receipt => exact ⟨recorded, h.table, h.attempts, h.once, h.digest, h.done⟩
  | write => exact ⟨recorded, h.table, h.attempts, h.once, h.digest, h.done⟩

theorem Held.run (h : Held key issuedAt recorded w) (acts : List (Action σ))
    (hsame : ∀ x ∈ acts, sameIssue key issuedAt x = true) (hprompt : prompt key w acts = true) :
    ∃ recorded', Held key issuedAt recorded' (run w acts) := by
  induction acts generalizing w recorded with
  | nil => exact ⟨recorded, h⟩
  | cons x acts ih =>
    rw [prompt, Bool.and_eq_true] at hprompt
    obtain ⟨recorded', h'⟩ := h.step x (hsame x List.mem_cons_self) hprompt.1
    exact ih h' (fun y hy => hsame y (List.mem_cons_of_mem x hy)) hprompt.2

end Once

section Data

variable {w : World σ}

/-- A move leaves the data alone, or is a commit that is then counted. -/
theorem move_effects (w : World σ) (i : Nat) (a : Attempt) (m : Move σ) :
    ((move w i a m).data = w.data ∧ (move w i a m).applied = w.applied) ∨
      ((∃ pieces guest, m = .commit pieces guest) ∧
        (move w i a m).applied = (i, a.request) :: w.applied) := by
  cases m with
  | commit pieces guest =>
    rw [move]
    split
    · next again view hp hv =>
      rcases execute_cases w i a view pieces true lostOutcome (afterFault · guest again) with
        ⟨f, heq⟩ | ⟨-, data, o, heq⟩ | ⟨-, heq⟩ <;> rw [heq]
      · exact .inl ⟨rfl, rfl⟩
      · exact .inr ⟨⟨pieces, guest, rfl⟩, rfl⟩
      · exact .inl ⟨rfl, rfl⟩
    · exact .inl ⟨rfl, rfl⟩
  | record limited =>
    refine .inl ?_
    rw [move]
    split
    · next o view hp hv =>
      rw [execute]
      split
      · exact ⟨rfl, rfl⟩
      · next x hx =>
        rcases chain_eq_ok hx with ⟨-, data, o', hpieces, rfl⟩ | ⟨-, rfl⟩
        · rw [outcomeRecord] at hpieces
          split at hpieces
          · cases hpieces
          · cases hpieces
            exact ⟨rfl, rfl⟩
        · exact ⟨rfl, rfl⟩
    · exact ⟨rfl, rfl⟩
  | fail => exact .inl ⟨rfl, rfl⟩
  | refuse | lookup | guestRefuse | begin | fetch =>
    refine .inl ?_
    rw [move]
    split <;> exact ⟨rfl, rfl⟩

/-- A step leaves the data alone, is another writer's, or is a commit that is
then counted; what was counted stays. -/
theorem step_effects (w : World σ) (x : Action σ) :
    ((step w x).data = w.data ∧ (step w x).applied = w.applied) ∨
      ((∃ f, x = .write f) ∧ (step w x).applied = w.applied) ∨
      ∃ i a pieces guest, x = .act i (.commit pieces guest) ∧ w.attempts[i]? = some a ∧
        (step w x).applied = (i, a.request) :: w.applied := by
  cases x with
  | write f => exact .inr (.inl ⟨⟨f, rfl⟩, rfl⟩)
  | act i m =>
    rw [step]
    cases hi : w.attempts[i]? with
    | none => exact .inl ⟨rfl, rfl⟩
    | some a =>
      rcases move_effects w i a m with h | ⟨⟨pieces, guest, rfl⟩, h⟩
      · exact .inl h
      · exact .inr (.inr ⟨i, a, pieces, guest, rfl, hi ▸ rfl, h⟩)
  | start | prune | pass | receipt => exact .inl ⟨rfl, rfl⟩

theorem run_applied (w : World σ) (acts : List (Action σ)) {p : Nat × Request}
    (h : p ∈ w.applied) : p ∈ (run w acts).applied := by
  induction acts generalizing w with
  | nil => exact h
  | cons x acts ih =>
    apply ih
    rcases step_effects w x with ⟨-, heq⟩ | ⟨-, heq⟩ | ⟨i, a, _, _, -, -, heq⟩ <;> rw [heq]
    · exact h
    · exact h
    · exact List.mem_cons_of_mem _ h

end Data

theorem idle_held {records : Records} {key : String} (hkey : records.idem key = none) (data : σ)
    (clock issuedAt : Int) : Held key issuedAt none (idle records data clock) where
  table _ := ⟨hkey, records.cascade key hkey⟩
  attempts a ha := by simp [idle] at ha
  once := by simp [idle]
  digest p hp := by simp [idle] at hp
  done p hp := by simp [idle] at hp

/-- In a run whose requests at a fresh key carry one issue time, and whose
statements at that key run within an hour of their attempt's start, the key's
writes take effect at most once, and every attempt the record answered, it
answered from one digest and one outcome. -/
theorem run_applied_once (records : Records) (data : σ) (clock : Int) (key : String)
    (issuedAt : Int) (acts : List (Action σ)) (hkey : records.idem key = none)
    (hsame : ∀ x ∈ acts, sameIssue key issuedAt x = true)
    (hprompt : prompt key (idle records data clock) acts = true) :
    ((run (idle records data clock) acts).applied.filter fun p => p.2.key = key).length ≤ 1 ∧
      (∃ digest outcome,
        (∀ a ∈ (run (idle records data clock) acts).attempts, a.request.key = key →
          ∀ o, a.phase = .settled o →
            o = if digest = a.request.digest then outcome else keyReuse) ∧
        ∀ p ∈ (run (idle records data clock) acts).applied, p.2.key = key → p.2.digest = digest) ∧
      (∀ p ∈ (run (idle records data clock) acts).applied,
        ∃ a, (run (idle records data clock) acts).attempts[p.1]? = some a ∧ a.request = p.2 ∧
          ((∃ o, a.phase = .settled o) ∨ a.phase = .failed)) ∧
      ∀ before x after, acts = before ++ x :: after →
        (run (idle records data clock) (before ++ [x])).data ≠
          (run (idle records data clock) before).data →
        (∃ f, x = .write f) ∨ ∃ i r pieces guest, x = .act i (.commit pieces guest) ∧
          (i, r) ∈ (run (idle records data clock) acts).applied := by
  obtain ⟨recorded, h⟩ := (idle_held hkey data clock issuedAt).run acts hsame hprompt
  refine ⟨?_, ?_, h.done, ?_⟩
  · exact h.once.trans (by cases recorded <;> simp)
  · cases recorded with
    | none =>
      refine ⟨"", keyReuse, ?_, ?_⟩
      · intro a ha hakey o ho
        obtain ⟨_, hnone, _⟩ := (h.attempts a ha hakey).settled o ho
        cases hnone
      · intro p hp hpkey
        obtain ⟨_, hnone⟩ := h.digest p hp hpkey
        cases hnone
    | some q =>
      refine ⟨q.1, q.2, ?_, ?_⟩
      · intro a ha hakey o ho
        obtain ⟨p, hp, rfl⟩ := (h.attempts a ha hakey).settled o ho
        cases hp
        rfl
      · intro p hp hpkey
        obtain ⟨o, hq⟩ := h.digest p hp hpkey
        cases hq
        rfl
  · rintro before x after rfl hchanged
    have hsplit : run (idle records data clock) (before ++ x :: after) =
        run (step (run (idle records data clock) before) x) after := by
      rw [run_append, run_cons]
    rw [run_append, run_cons, run_nil] at hchanged
    rcases step_effects (run (idle records data clock) before) x with
      ⟨hdata, -⟩ | ⟨hwrite, -⟩ | ⟨i, a, pieces, guest, rfl, -, happlied⟩
    · exact absurd hdata hchanged
    · exact .inl hwrite
    · refine .inr ⟨i, a.request, pieces, guest, rfl, ?_⟩
      rw [hsplit]
      apply run_applied
      rw [happlied]
      exact List.mem_cons_self

/-- No key is in use. -/
def noRecords : Records := ⟨fun _ => none, fun _ => none, fun _ => false, fun _ _ => rfl⟩

/-- A commit that adds one to the data. -/
def addOne (n : Nat) : Except Fault (Nat × Outcome) := .ok (n + 1, .committed .null [] none)

/-- An attempt begins a statement and commits. -/
def commits (i : Nat) : List (Action Nat) := [.act i .begin, .act i (.commit addOne false)]

/-- A request of the digest given. -/
def send (digest : String) : Action Nat := .start ⟨"k", digest, 0, false⟩ false

/-- Two attempts begin before either commits; the later one reads the record. -/
def raced : List (Action Nat) :=
  [send "d", send "d", .act 0 .begin, .act 1 .begin, .act 0 (.commit addOne false),
    .act 1 (.commit addOne false), .act 1 .fetch]

theorem raced_once : prompt "k" (idle noRecords 0 0) raced = true ∧
    (run (idle noRecords 0 0) raced).data = 1 ∧
    ((run (idle noRecords 0 0) raced).applied.filter fun p => p.2.key = "k").length ≤ 1 :=
  ⟨rfl, rfl, (run_applied_once noRecords 0 0 "k" 0 raced rfl
    (by simp [raced, send, sameIssue]) rfl).1⟩

/-- What a key and a digest ask of a run without its conditions: one
application, one answer, and nothing but `keyReuse` for another digest. -/
structure ActsOnce (key digest : String) (w : World σ) : Prop where
  applied : (w.applied.filter fun p => p.2.key = key ∧ p.2.digest = digest).length ≤ 1
  answers : ∀ a ∈ w.attempts, ∀ b ∈ w.attempts, a.request.key = key → b.request.key = key →
    a.request.digest = digest → b.request.digest = digest → ∀ o o', a.answer = some o →
      b.answer = some o' → o = o'
  others : ∀ i a, w.attempts[i]? = some a → a.request.key = key → a.request.digest ≠ digest →
    (i, a.request) ∉ w.applied ∧ ∀ o, a.answer = some o → o = keyReuse

/-- An act is sent again a day later. -/
def resent : List (Action Nat) := send "d" :: commits 0 ++ [Action.pass 86400000, send "d"]

/-- A request takes the key before another of its digests. -/
def overtaken : List (Action Nat) := send "e" :: commits 0 ++ send "d" :: commits 1

/-- An attempt of 22 hours' age waits two hours and a `prune` before it commits. -/
def slow : List (Action Nat) :=
  send "d" :: commits 0 ++ [Action.pass 79200000, send "d", .pass 7200001,
    .prune (fun _ => false) (fun _ => true)] ++ commits 1

/-- The three runs: the resent act answers `expired`, the other digest is
applied, and the slow attempt applies the act again. -/
theorem not_actsOnce :
    (∀ acts ∈ [resent, overtaken, slow], (∀ x ∈ acts, sameIssue "k" 0 x = true) ∧
      ¬ ActsOnce "k" "d" (run (idle noRecords 0 0) acts)) ∧
    prompt "k" (idle noRecords 0 0) resent = true ∧
    prompt "k" (idle noRecords 0 0) overtaken = true ∧
    (run (idle noRecords 0 0) slow).data = 2 := by
  refine ⟨?_, rfl, rfl, rfl⟩
  intro acts hacts
  simp only [List.mem_cons, List.not_mem_nil, or_false] at hacts
  rcases hacts with rfl | rfl | rfl
  · refine ⟨by simp [resent, send, commits, sameIssue], fun h => ?_⟩
    have heq := h.answers ⟨⟨"k", "d", 0, false⟩, 0, none, .settled (.committed .null [] none)⟩
      List.mem_cons_self (begun 86400000 ⟨"k", "d", 0, false⟩ false)
      (List.mem_cons_of_mem _ List.mem_cons_self) rfl rfl rfl rfl _ _ rfl rfl
    cases heq
  · refine ⟨by simp [overtaken, send, commits, sameIssue], fun h => ?_⟩
    exact (h.others 0 ⟨⟨"k", "e", 0, false⟩, 0, none, .settled (.committed .null [] none)⟩
      rfl rfl (by decide)).1 List.mem_cons_self
  · refine ⟨by simp [slow, send, commits, sameIssue], fun h => ?_⟩
    exact absurd h.applied (by decide)

end Norbital.Bolt.Write

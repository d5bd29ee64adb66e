import Mathlib.Logic.Function.Basic
import Norbital.Std.Kind

/-!
# The idempotency record

What the engine keeps of a request (`bolt/src/engine/write/sql.ts` and
`act.ts`): the gate's row with its digest and issue time, the outcome beside it,
and the windows that expire, reopen and prune them.  Instants are milliseconds.
The record's key and digest are the hashes that `idempotency` computes.
-/

namespace Norbital.Bolt.Write

open Norbital.Std (Json)

inductive RefusalCode where
  | refused | locked | sourceChanged | timeout | unsupported | readBudgetExceeded | forbidden
  | notFound | invalidInput | unique | check | overlap | missingRef | restricted | required
  | overflow | rateLimited | keyReuse | approvalSplit | releaseChanged | expired | internal
  | cpuBudget | crossingBudget | memory | tooLarge
  deriving DecidableEq, Repr

structure Refusal where
  code : RefusalCode
  message : String
  field : Option String := none
  path : Option String := none
  row : Option Nat := none
  rows : Option (List Nat) := none
  rule : Option String := none
  requestId : Option String := none
  deriving DecidableEq, Repr

structure Written where
  model : String
  id : String
  revision : Nat
  deriving DecidableEq, Repr

structure Conflicting where
  model : String
  id : String
  fields : List String
  deriving DecidableEq, Repr

/-- `WriteOutcome`: what the engine stores and replays for a key. -/
inductive Outcome where
  | committed (output : Json) (records : List Written) (unchanged : Option (List (String × String)))
  | pendingApproval (requestId : String) (records : List Written)
  | refused (r : Refusal)
  | conflict (records : List Conflicting)
  | unknown (invocation : String)

def refused (code : RefusalCode) (message : String) : Outcome := .refused { code, message }

/-- `KEY_REUSE`. -/
def keyReuse : Outcome := refused .keyReuse "This key was used for a different request."

/-- `RATE_LIMITED` refused. -/
def rateLimited : Outcome := refused .rateLimited "Too many requests. Wait a moment and try again."

/-- The errors of a commit, as `decided` tells them apart. -/
inductive Fault where
  | conflict (records : List Conflicting)
  | fingerprint
  | rateLimited
  | underApproval (requestId message : String)
  | sourceChanged
  | parentLocked
  | constraint (r : Refusal)
  | serialization
  | thrown

structure Decided where
  outcome : Outcome
  record : Bool
  replay : Bool

/-- `decided`; `none` where it throws. -/
def decided : Fault → Option Decided
  | .conflict records => some ⟨.conflict records, true, false⟩
  | .fingerprint => some ⟨.conflict [], true, true⟩
  -- a recorded `rateLimited` would answer the client's resend
  | .rateLimited => some ⟨rateLimited, false, false⟩
  | .underApproval requestId message =>
      some ⟨.refused { code := .locked, message, requestId := some requestId }, true, false⟩
  | .sourceChanged =>
      some ⟨refused .sourceChanged
        "The integration configuration changed before this write could commit.", true, false⟩
  | .parentLocked =>
      some ⟨refused .locked "The parent record is locked in its current state.", true, false⟩
  | .constraint r => some ⟨.refused r, true, false⟩
  | .serialization => some ⟨.conflict [], true, true⟩
  | .thrown => none

def HOUR : Int := 3600000

def DAY : Int := 24 * HOUR

structure Request where
  key : String
  digest : String
  issuedAt : Int
  retry : Bool
  deriving DecidableEq, Repr

/-- `expired`, judged by the clock the attempt started with. -/
def expired (now : Int) (r : Request) : Option Outcome :=
  if now - r.issuedAt ≤ 23 * HOUR ∧ -(5 * 60000) ≤ now - r.issuedAt then none
  else some (refused .expired "The request expired; send it again.")

theorem expired_eq_none {now : Int} {r : Request} (h : expired now r = none) :
    now ≤ r.issuedAt + 23 * HOUR := by
  rw [expired] at h
  split at h
  · omega
  · cases h

/-- A row of `bolt_idem`; `run` is set on a webhook delivery's key only. -/
structure Idem where
  digest : String
  issuedAt : Int
  run : Option String
  deriving DecidableEq, Repr

/-- `bolt_idem`, `bolt_idem_outcome`, which references it, and which keys have an
open `bolt_audit_receipt`. -/
structure Records where
  idem : String → Option Idem
  outcome : String → Option Outcome
  receipt : String → Bool
  cascade : ∀ key, idem key = none → outcome key = none

/-- `bolt_idem` joined with `bolt_idem_outcome`. -/
def Records.joined (t : Records) (key : String) : Option (Idem × Outcome) :=
  match t.idem key, t.outcome key with
  | some i, some o => some (i, o)
  | _, _ => none

/-- The stored outcome where the digest matches, else `keyReuse`. -/
def replayed (digest : String) (outcome : Outcome) (asked : String) : Outcome :=
  if digest = asked then outcome else keyReuse

/-- `storedOutcome`, over what the statement's snapshot shows of the key. -/
def storedOutcome (view : Option (Idem × Outcome)) (digest : String) : Option Outcome :=
  view.map fun (i, o) => replayed i.digest o digest

/-- The lookup `stored`. -/
def stored (t : Records) (r : Request) : Option Outcome :=
  match t.joined r.key with
  | some (i, o) =>
      if r.issuedAt - DAY < i.issuedAt then some (replayed i.digest o r.digest) else none
  | none => none

/-- Whether `gate` returns its key: the insert takes place, or the update does. -/
def gateOpen (t : Records) (r : Request) : Bool :=
  match t.idem r.key with
  | none => true
  | some i => decide (i.issuedAt < r.issuedAt - DAY) && !t.receipt r.key

/-- What `gate` and `answer` write once the gate is open. -/
def Records.enter (t : Records) (r : Request) (o : Outcome) : Records :=
  { t with
    idem := Function.update t.idem r.key
      (some ⟨r.digest, r.issuedAt, (t.idem r.key).bind (·.run)⟩)
    outcome := Function.update t.outcome r.key (some o)
    cascade := by
      intro key h
      by_cases hkey : key = r.key
      · subst hkey
        simp at h
      · rw [Function.update_of_ne hkey] at h ⊢
        exact t.cascade key h }

/-- What a gated statement leaves and returns. -/
structure Ran (σ : Type*) where
  records : Records
  data : σ
  answer : Option Outcome
  gated : Bool

variable {σ : Type*}

/-- A statement behind the gate.  Its other pieces run on the data when the gate
is open and fail the whole of it or give the new outcome; a closed gate writes
nothing, and its answer is read in the snapshot the statement began with. -/
def chain (t : Records) (data : σ) (r : Request) (view : Option (Idem × Outcome))
    (pieces : σ → Except Fault (σ × Outcome)) : Except Fault (Ran σ) :=
  if gateOpen t r then
    match pieces data with
    | .ok (data', o) => .ok ⟨t.enter r o, data', some o, true⟩
    | .error f => .error f
  else .ok ⟨t, data, storedOutcome view r.digest, false⟩

/-- The pieces of `compileOutcomeRecord`: the rate increment and the outcome. -/
def outcomeRecord (limited : Bool) (o : Outcome) (data : σ) : Except Fault (σ × Outcome) :=
  if limited then .error .rateLimited else .ok (data, o)

/-- Whether `prune` selects a key.  `gone` says which runs the pass deletes or
no longer finds. -/
def aged (t : Records) (now : Int) (gone : String → Bool) (key : String) : Bool :=
  match t.idem key with
  | none => false
  | some i =>
      (match i.run with
        | some run => gone run
        | none => decide (i.issuedAt < now - DAY)) && !t.receipt key

/-- `prune` over `bolt_idem`; the outcomes go with their keys.  `taken` is what
the pass's limit lets it select. -/
def prune (t : Records) (now : Int) (gone taken : String → Bool) : Records :=
  { t with
    idem := fun key => if aged t now gone key && taken key then none else t.idem key
    outcome := fun key => if aged t now gone key && taken key then none else t.outcome key
    cascade := by
      intro key h
      split at h
      · next hgone => simp [hgone]
      · next hkept => simpa [hkept] using t.cascade key h }

/-- A gated statement that succeeds entered an open gate or wrote nothing. -/
theorem chain_eq_ok {t : Records} {data : σ} {r : Request} {view : Option (Idem × Outcome)}
    {pieces : σ → Except Fault (σ × Outcome)} {x : Ran σ}
    (h : chain t data r view pieces = .ok x) :
    (gateOpen t r = true ∧ ∃ data' o, pieces data = .ok (data', o) ∧
        x = ⟨t.enter r o, data', some o, true⟩) ∨
      (gateOpen t r = false ∧ x = ⟨t, data, storedOutcome view r.digest, false⟩) := by
  rw [chain] at h
  split at h
  · next hopen =>
    split at h
    · next data' o hp =>
      cases h
      exact .inl ⟨hopen, data', o, hp, rfl⟩
    · cases h
  · next hclosed =>
    cases h
    exact .inr ⟨by simpa using hclosed, rfl⟩

@[simp] theorem enter_idem_of_ne (t : Records) (r : Request) (o : Outcome) {key : String}
    (h : key ≠ r.key) : (t.enter r o).idem key = t.idem key :=
  Function.update_of_ne h _ _

@[simp] theorem enter_outcome_of_ne (t : Records) (r : Request) (o : Outcome) {key : String}
    (h : key ≠ r.key) : (t.enter r o).outcome key = t.outcome key :=
  Function.update_of_ne h _ _

theorem prune_young {t : Records} {now : Int} {gone taken : String → Bool} {key : String}
    (h : ∀ i, t.idem key = some i → i.run = none ∧ now - DAY ≤ i.issuedAt) :
    (prune t now gone taken).idem key = t.idem key ∧
      (prune t now gone taken).outcome key = t.outcome key := by
  have hyoung : aged t now gone key = false := by
    rw [aged]
    split
    · rfl
    · next i hi =>
      obtain ⟨hrun, hissued⟩ := h i hi
      have hnot : ¬ i.issuedAt < now - DAY := by omega
      simp [hrun, hnot]
  simp [prune, hyoung]

end Norbital.Bolt.Write

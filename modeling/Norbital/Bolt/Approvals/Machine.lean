import Mathlib.Data.List.Basic

/-!
# The approval state machine

The moves of an approval request (`bolt/src/engine/approvals/machine.ts`) and
who may take them (`route.ts`): a step is decided by the members of its teams or
by its users, never by the requestor, also not through a preview.
-/

namespace Norbital.Bolt.Approvals

inductive ApprovalState where
  | pending
  | changesRequested
  | approved
  | rejected
  | superseded
  deriving DecidableEq, Repr

/-- `resubmit` is the engine's own move. -/
inductive ApprovalMove where
  | approve
  | reject
  | requestChanges
  | resubmit
  | supersede
  deriving DecidableEq, Repr

inductive ApprovalRole where
  | approver
  | requester
  | superseder
  deriving DecidableEq, Repr

/-- Where an edge leads: a state, or the step after this one. -/
inductive Target where
  | state (s : ApprovalState)
  | next
  deriving DecidableEq, Repr

structure Edge where
  by_ : List ApprovalRole
  to_ : Target
  /-- A reason is required. -/
  reason : Bool
  rollback : Bool
  deriving DecidableEq, Repr

def DECIDERS : List ApprovalRole := [.approver, .superseder]

/-- `MACHINE`. -/
def machine : ApprovalState → ApprovalMove → Option Edge
  | .pending, .approve => some ⟨[.approver], .next, false, false⟩
  | .pending, .reject => some ⟨DECIDERS, .state .rejected, true, true⟩
  | .pending, .requestChanges => some ⟨DECIDERS, .state .changesRequested, true, false⟩
  | .pending, .supersede => some ⟨[.superseder], .state .superseded, true, false⟩
  | .changesRequested, .resubmit => some ⟨[.requester], .state .pending, false, false⟩
  | .changesRequested, .reject => some ⟨DECIDERS, .state .rejected, true, true⟩
  | _, _ => none

/-- `OPEN`. -/
def isOpen : ApprovalState → Bool
  | .pending | .changesRequested => true
  | _ => false

namespace ApprovalState

def text : ApprovalState → String
  | .pending => "Pending"
  | .changesRequested => "ChangesRequested"
  | .approved => "Approved"
  | .rejected => "Rejected"
  | .superseded => "Superseded"

end ApprovalState

namespace ApprovalMove

def text : ApprovalMove → String
  | .approve => "approve"
  | .reject => "reject"
  | .requestChanges => "requestChanges"
  | .resubmit => "resubmit"
  | .supersede => "supersede"

end ApprovalMove

namespace ApprovalRole

def text : ApprovalRole → String
  | .approver => "approver"
  | .requester => "requester"
  | .superseder => "superseder"

end ApprovalRole

/-- What a person decides. -/
inductive ApprovalDecision where
  | approve
  | reject
  | requestChanges
  deriving DecidableEq, Repr

/-- An approver approves, a superseder who is not one supersedes. -/
def moveOf (decision : ApprovalDecision) (roles : List ApprovalRole) : ApprovalMove :=
  match decision with
  | .approve =>
    if !roles.contains .approver && roles.contains .superseder then .supersede else .approve
  | .reject => .reject
  | .requestChanges => .requestChanges

inductive Refused where
  | invalidMove
  | forbidden
  | reason
  deriving DecidableEq, Repr

/-- Where a request stands. -/
structure Step where
  state : ApprovalState
  step : Nat
  deriving DecidableEq, Repr

/-- The edge a move takes, or why it is refused. -/
def transition (at_ : Step) (steps : Nat) (move : ApprovalMove) (roles : List ApprovalRole)
    (reason : String) (to_ : Nat) : Except (Refused × String) (Step × Edge) :=
  match machine at_.state move with
  | none => .error (.invalidMove,
      if isOpen at_.state then s!"A request in {at_.state.text} cannot {move.text}."
      else s!"This request is {at_.state.text}; it no longer changes.")
  | some edge =>
    if !edge.by_.any roles.contains then
      .error (.forbidden, "Only the " ++ " or ".intercalate (edge.by_.map (·.text)) ++ " may " ++
        move.text ++ ".")
    else if edge.reason && reason == "" then .error (.reason, "This decision needs a reason.")
    else
      let next : Step :=
        match edge.to_ with
        | .next => if at_.step + 1 < steps then ⟨.pending, at_.step + 1⟩ else ⟨.approved, at_.step⟩
        | .state s => if move = .resubmit then ⟨.pending, to_⟩ else ⟨s, at_.step⟩
      .ok (next, edge)

/-- A step of a flow: its name, its teams' handles and its users' ids. -/
structure FlowStep where
  name : String
  teams : List String
  users : List String
  deriving DecidableEq, Repr

/-- The flow a request stores, with the source epoch of the reads it depends on. -/
structure Snapshot where
  steps : List FlowStep
  supersededBy : List String
  readGuards : Option String
  deriving DecidableEq, Repr

/-- Two snapshots route alike. -/
def sameFlow (a b : Snapshot) : Bool := a.steps == b.steps

inductive EngineActor where
  | member (id : String) (teams : List String)
  | envoy (sender : String) (member : Option String)
  | visitor (visitor : String) (anonymous : Bool)
  | apiKey (key : String)
  | system (run : String)
  deriving DecidableEq, Repr

/-- `<kind>:<id>`. -/
def actorRef : EngineActor → String
  | .member id _ => "member:" ++ id
  | .envoy sender _ => "envoy:" ++ sender
  | .visitor visitor _ => "visitor:" ++ visitor
  | .apiKey key => "apiKey:" ++ key
  | .system run => "system:" ++ run

/-- The person behind an actor. -/
def actorId : EngineActor → Option String
  | .member id _ => some id
  | .envoy _ member => member
  | .visitor visitor anonymous => if anonymous then some visitor else none
  | .apiKey _ | .system _ => none

/-- An administrator's preview: by whom, of which team. -/
structure Preview where
  by_ : String
  team : Option String
  deriving DecidableEq, Repr

structure Authority where
  actor : EngineActor
  admin : Bool
  preview : Option Preview
  deriving DecidableEq, Repr

/-- The durable request as a decision reads it. -/
structure Request where
  state : ApprovalState
  step : Nat
  requestor : String
  user : Option String
  route : Snapshot
  deriving DecidableEq, Repr

/-- A member's id and own team. -/
def memberOf : EngineActor → Option (String × Option String)
  | .member id teams => some (id, teams.head?)
  | _ => none

def requestedBy (r : Request) (id : String) : Bool := r.requestor == "member:" ++ id || r.user == some id

/-- The requester cannot review their own request, also not through a preview. -/
def reviewer (r : Request) (auth : Authority) : Option (String × Option String) :=
  (memberOf auth.actor).filter fun m =>
    !(requestedBy r m.1 || auth.preview.any fun p => requestedBy r p.by_)

/-- A member of one of the current step's teams, or one of its users. -/
def canApprove (r : Request) (auth : Authority) : Bool :=
  match r.route.steps[r.step]?, reviewer r auth with
  | some step, some (id, team) => team.any step.teams.contains || step.users.contains id
  | _, _ => false

/-- An administrator or a member of a superseding team. -/
def canSupersede (r : Request) (auth : Authority) : Bool :=
  match reviewer r auth with
  | some (_, team) => auth.admin || team.any r.route.supersededBy.contains
  | none => false

def rolesOf (r : Request) (auth : Authority) : List ApprovalRole :=
  (if canApprove r auth then [ApprovalRole.approver] else []) ++
    (if r.requestor == actorRef auth.actor then [ApprovalRole.requester] else []) ++
    (if canSupersede r auth then [ApprovalRole.superseder] else [])

@[simp]
theorem approver_mem_rolesOf (r : Request) (auth : Authority) :
    .approver ∈ rolesOf r auth ↔ canApprove r auth = true := by
  unfold rolesOf
  by_cases h : canApprove r auth <;> split_ifs <;> simp [h]

@[simp]
theorem requester_mem_rolesOf (r : Request) (auth : Authority) :
    .requester ∈ rolesOf r auth ↔ r.requestor = actorRef auth.actor := by
  unfold rolesOf
  by_cases h : r.requestor = actorRef auth.actor <;> split_ifs <;> simp_all

end Norbital.Bolt.Approvals

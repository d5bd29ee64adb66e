import Norbital.Bolt.Approvals.Lock
import Norbital.Std.Kind

/-!
# One approval request

The life of a request (`bolt/src/engine/approvals/approvals.ts`): `route` opens
it, `decide` and `resubmit` load it, judge it and later commit a guarded
statement, and between a load and its commit any other operation may come.  The
desk keeps, beside what is stored, the authority each logged move was taken
under and the steps that were stored after it.

A decision's idempotency key names the length of the log it loaded, and its
guard asks for that length, so the key decides nothing here and is left out.
-/

namespace Norbital.Bolt.Approvals

open Norbital.Lib (trimmed)

inductive LogMove where
  | request
  | move (m : ApprovalMove)
  deriving DecidableEq, Repr

structure LogEntry where
  move : LogMove
  by_ : String
  at_ : String
  from_ : Option ApprovalState
  to_ : ApprovalState
  step : Nat
  reason : Option String
  deriving DecidableEq, Repr

/-- The row of `bolt_approvals`. -/
structure Stored extends Request where
  log : List LogEntry
  deriving DecidableEq, Repr

/-- The readable row of `approval_request`. -/
structure Face where
  status : String
  step : Nat
  steps : Nat
  names : List String
  teams : List String
  users : List String
  superseders : List String
  deriving DecidableEq, Repr

/-- `STATUS`. -/
def statusOf : ApprovalState → String
  | .pending => "ONGOING"
  | .changesRequested => "CHANGES_REQUESTED"
  | .approved => "APPROVED"
  | .rejected => "REJECTED"
  | .superseded => "SUPERSEDED"

/-- The columns a state of a route shows. -/
def face (route : Snapshot) (next : Step) : Face :=
  let step := route.steps[next.step]?
  let shown := isOpen next.state
  ⟨statusOf next.state, next.step, route.steps.length, route.steps.map (·.name),
    if shown then (step.map (·.teams)).getD [] else [], if shown then (step.map (·.users)).getD [] else [],
    if shown then route.supersededBy else []⟩

structure Refusal where
  code : String
  message : String
  field : Option String
  deriving DecidableEq, Repr

/-- A reason as it is logged. -/
def logged (reason : String) : Option String := if reason = "" then none else some reason

/-- A decision between its load and its commit. -/
structure Decision where
  loaded : Stored
  auth : Authority
  next : Step
  entry : LogEntry

/-- What a caller decides: who they are now (`none`: no longer a member, or a stale preview), and what
a checkpoint or `onApproved` refuses it for. -/
structure Decide where
  caller : EngineActor
  current : Option Authority
  decision : ApprovalDecision
  reason : Option String
  now : String
  sourceEpoch : Option String
  hindered : Option Refusal

/-- `decide` up to its statement. -/
def planDecide (a : Option Stored) (x : Decide) : Except Refusal Decision :=
  match x.caller, a, x.current with
  | .member _ _, none, _ => .error ⟨"notFound", "No approval request has this id.", none⟩
  | .member _ _, some _, none =>
    .error ⟨"forbidden", "You are no longer authorized to act on this request.", none⟩
  | .member _ _, some a, some auth =>
    let roles := rolesOf a.toRequest auth
    let move := moveOf x.decision roles
    let reason := (x.reason.map trimmed).getD ""
    match transition ⟨a.state, a.step⟩ a.route.steps.length move roles reason 0 with
    | .error (.forbidden, message) => .error ⟨"forbidden", message, none⟩
    | .error (.reason, message) => .error ⟨"invalidInput", message, some "reason"⟩
    | .error (.invalidMove, message) => .error ⟨"invalidInput", message, none⟩
    | .ok (next, _) =>
      -- what was read for the request was read under its own release
      if (move = .approve ∨ move = .supersede) ∧ a.route.readGuards.isSome ∧
          a.route.readGuards ≠ x.sourceEpoch then
        .error ⟨"sourceChanged",
          "This request was prepared by another source release. Reject it and start a fresh request.", none⟩
      else
        match x.hindered with
        | some refusal => .error refusal
        | none => .ok ⟨a, auth, next, ⟨.move move, actorRef auth.actor, x.now, some a.state, next.state, a.step,
            logged reason⟩⟩
  | _, _, _ => .error ⟨"forbidden", "Only a member may decide an approval.", none⟩

/-- A requester's save between its load and its commit. -/
structure Save where
  loaded : Stored
  auth : Authority
  route : Snapshot
  next : Step
  entry : LogEntry

/-- A team handle the snapshot names that the workspace does not declare. -/
def unknownTeam (teams : List String) (s : Snapshot) : Option String :=
  (s.steps.flatMap (·.teams) ++ s.supersededBy).find? fun handle => !teams.contains handle

/-- `resubmit` up to its statement; `none` keeps the stored route. -/
def planResubmit (teams : List String) (a : Option Stored) (auth : Authority) (snapshot : Option Snapshot)
    (now : String) : Except Refusal Save :=
  match a with
  | none => .error ⟨"notFound", "No approval request has this id.", none⟩
  | some a =>
    if a.route.readGuards.isSome then
      .error ⟨"sourceChanged",
        "This request depends on earlier reads. Reject it and start a fresh request.", none⟩
    else
      let route := snapshot.getD a.route
      match unknownTeam teams route with
      | some handle => .error ⟨"invalidSpec",
          s!"The approval flow names the team '{handle}', which this workspace does not declare.", none⟩
      | none =>
        -- the same steps resume where changes were requested; changed steps restart at the first
        let next : Step := ⟨.pending, if sameFlow a.route route then a.step else 0⟩
        .ok ⟨a, auth, route, next, ⟨.move .resubmit, actorRef auth.actor, now, some .changesRequested, next.state,
          next.step, none⟩⟩

/-- A logged move, with the authority it was taken under and the steps stored after it. -/
structure Taken where
  entry : LogEntry
  auth : Authority
  steps : List FlowStep
  deriving DecidableEq

structure Desk where
  request : Option Stored
  face : Option Face
  taken : List Taken
  decisions : List Decision
  saves : List Save

namespace Desk

def init : Desk := ⟨none, none, [], [], []⟩

variable (d : Desk)

/-- A statement's update of the request and its face. -/
def move (r : Stored) (auth : Authority) (next : Step) (route : Snapshot) (entry : LogEntry) : Desk :=
  { d with
    request := some { r with state := next.state, step := next.step, route := route, log := r.log ++ [entry] }
    face := some (Approvals.face route next)
    taken := d.taken ++ [⟨entry, auth, route.steps⟩] }

/-- The statement of a decision: the request as loaded, or a conflict. -/
def commitDecision (p : Decision) : Desk :=
  match d.request with
  | some r =>
    if r.state = p.loaded.state ∧ r.step = p.loaded.step ∧ r.log.length = p.loaded.log.length then
      d.move r p.auth p.next r.route p.entry
    else d
  | none => d

/-- The statement of a save: a request in changes requested, of this requestor, or a conflict. -/
def commitSave (p : Save) : Desk :=
  match d.request with
  | some r =>
    if r.state = .changesRequested ∧ r.requestor = actorRef p.auth.actor then
      d.move r p.auth p.next p.route p.entry
    else d
  | none => d

/-- The statement that opens the request, unless it is there. -/
def openRequest (teams : List String) (auth : Authority) (route : Snapshot) (now : String) : Desk :=
  if (unknownTeam teams route).isSome then d
  else
    match d.request with
    | some _ => d
    | none =>
      let entry : LogEntry := ⟨.request, actorRef auth.actor, now, none, .pending, 0, none⟩
      { d with
        request := some ⟨⟨.pending, 0, actorRef auth.actor,
          (auth.preview.map (·.by_)).or (actorId auth.actor), route⟩, [entry]⟩
        face := some (Approvals.face route ⟨.pending, 0⟩)
        taken := d.taken ++ [⟨entry, auth, route.steps⟩] }

end Desk

inductive Op where
  | route (auth : Authority) (route : Snapshot) (now : String)
  | decide (x : Decide)
  | commitDecision (i : Nat)
  | resubmit (auth : Authority) (snapshot : Option Snapshot) (now : String)
  | commitSave (i : Nat)

def step (teams : List String) (d : Desk) : Op → Desk
  | .route auth route now => d.openRequest teams auth route now
  | .decide x =>
    match planDecide d.request x with
    | .ok p => { d with decisions := d.decisions ++ [p] }
    | .error _ => d
  | .commitDecision i =>
    match d.decisions[i]? with
    | some p => { d with decisions := d.decisions.eraseIdx i }.commitDecision p
    | none => d
  | .resubmit auth snapshot now =>
    match planResubmit teams d.request auth snapshot now with
    | .ok p => { d with saves := d.saves ++ [p] }
    | .error _ => d
  | .commitSave i =>
    match d.saves[i]? with
    | some p => { d with saves := d.saves.eraseIdx i }.commitSave p
    | none => d

/-- The desk after a sequence of operations. -/
def run (teams : List String) (d : Desk) (ops : List Op) : Desk := ops.foldl (step teams) d

/-- A member of the step's teams or users who did not ask, themselves or through a preview. -/
def Reviews (r : Request) (step : FlowStep) (auth : Authority) : Prop :=
  ∃ id teams, auth.actor = .member id teams ∧ requestedBy r id = false ∧
    (∀ p ∈ auth.preview, requestedBy r p.by_ = false) ∧
    ((∃ x ∈ teams.head?, x ∈ step.teams) ∨ id ∈ step.users)

/-- The approval of a step by one who reviews it. -/
def Approves (r : Request) (i : Nat) (t : Taken) : Prop :=
  t.entry.move = .move .approve ∧ t.entry.step = i ∧ ∃ step ∈ t.steps[i]?, Reviews r step t.auth

/-- Since the stored steps were last replaced, the first steps were approved in order. -/
def Signed (r : Request) (taken : List Taken) (steps : List FlowStep) (n : Nat) : Prop :=
  ∃ old recent approvals : List Taken, taken = old ++ recent ∧ (∀ t ∈ recent, t.steps = steps) ∧
    approvals.Sublist recent ∧ approvals.length = n ∧ ∀ i t, approvals[i]? = some t → Approves r i t

section

variable {r r' : Request} {taken more : List Taken} {steps : List FlowStep} {n : Nat} {t : Taken}

theorem signed_zero : Signed r taken steps 0 :=
  ⟨taken, [], [], by simp, by simp, List.Sublist.refl _, rfl, by simp⟩

theorem Signed.append (h : Signed r taken steps n) (hmore : ∀ t ∈ more, t.steps = steps) :
    Signed r (taken ++ more) steps n := by
  obtain ⟨old, recent, approvals, rfl, hrecent, hsub, hlen, happroves⟩ := h
  refine ⟨old, recent ++ more, approvals, by simp, ?_, ?_, hlen, happroves⟩
  · intro t ht
    obtain ht | ht := List.mem_append.mp ht
    · exact hrecent t ht
    · exact hmore t ht
  · exact hsub.trans (List.sublist_append_left recent more)

/-- The next approval. -/
theorem Signed.approve (h : Signed r taken steps n) (hsteps : t.steps = steps) (ht : Approves r n t) :
    Signed r (taken ++ [t]) steps (n + 1) := by
  obtain ⟨old, recent, approvals, rfl, hrecent, hsub, rfl, happroves⟩ := h
  refine ⟨old, recent ++ [t], approvals ++ [t], by simp, ?_, ?_, by simp, ?_⟩
  · intro x hx
    obtain hx | hx := List.mem_append.mp hx
    · exact hrecent x hx
    · rwa [List.mem_singleton.mp hx]
  · exact hsub.append (List.Sublist.refl _)
  · intro i x hx
    obtain hlt | heq | hgt := Nat.lt_trichotomy i approvals.length
    · rw [List.getElem?_append_left hlt] at hx
      exact happroves i x hx
    · rw [heq, List.getElem?_concat_length, Option.some.injEq] at hx
      rwa [← hx, heq]
    · rw [List.getElem?_eq_none (by simp; omega)] at hx
      cases hx

/-- Signatures are newer than every move that left other steps. -/
theorem Signed.newer {x : Taken} {i k : Nat} (h : Signed r taken steps n) (hk : taken[k]? = some x)
    (hx : x.steps ≠ steps) (hi : i < n) : ∃ t ∈ taken.drop (k + 1), Approves r i t := by
  obtain ⟨old, recent, approvals, rfl, hrecent, hsub, rfl, happroves⟩ := h
  have hold : k < old.length := by
    by_contra hle
    rw [List.getElem?_append_right (by omega)] at hk
    exact hx (hrecent x (List.mem_of_getElem? hk))
  refine ⟨approvals[i], ?_, happroves i _ (List.getElem?_eq_getElem hi)⟩
  rw [List.drop_append_of_le_length hold]
  exact List.mem_append_right _ (hsub.subset (List.getElem_mem hi))

/-- A request's signatures are about who asked. -/
theorem Signed.congr (h : Signed r taken steps n) (hreq : r'.requestor = r.requestor)
    (huser : r'.user = r.user) : Signed r' taken steps n := by
  have hasked : ∀ id, requestedBy r' id = requestedBy r id := by
    intro id
    rw [requestedBy, requestedBy, hreq, huser]
  obtain ⟨old, recent, approvals, htaken, hrecent, hsub, hlen, happroves⟩ := h
  refine ⟨old, recent, approvals, htaken, hrecent, hsub, hlen, fun i t ht => ?_⟩
  obtain ⟨hmove, hstep, step, hmem, id, teams, hactor, hid, hby, hin⟩ := happroves i t ht
  refine ⟨hmove, hstep, step, hmem, id, teams, hactor, hasked id ▸ hid, fun p hp => ?_, hin⟩
  rw [hasked]
  exact hby p hp

end

section

variable {a : Option Stored} {x : Decide} {p : Decision}

/-- What the machine admits. -/
theorem transition_eq_ok {at_ next : Step} {steps : Nat} {move : ApprovalMove} {roles : List ApprovalRole}
    {reason : String} {to_ : Nat} {edge : Edge}
    (h : transition at_ steps move roles reason to_ = .ok (next, edge)) :
    machine at_.state move = some edge ∧ (∃ role ∈ edge.by_, role ∈ roles) ∧
      next = match edge.to_ with
        | .next => if at_.step + 1 < steps then ⟨.pending, at_.step + 1⟩ else ⟨.approved, at_.step⟩
        | .state s => if move = .resubmit then ⟨.pending, to_⟩ else ⟨s, at_.step⟩ := by
  unfold transition at h
  split at h
  next => cases h
  next edge' hedge =>
    by_cases hroles : edge'.by_.any roles.contains
    · simp only [hroles, Bool.not_true, Bool.false_eq_true, if_false] at h
      by_cases hreason : edge'.reason && reason == ""
      · rw [if_pos hreason] at h
        cases h
      · rw [if_neg hreason] at h
        simp only [Except.ok.injEq, Prod.mk.injEq] at h
        obtain ⟨rfl, rfl⟩ := h
        refine ⟨hedge, ?_, rfl⟩
        simpa [List.any_eq_true] using hroles
    · simp [hroles] at h

/-- What a decision's plan is: a move of an open request that signs a step, or signs none. -/
structure Judged (p : Decision) : Prop where
  opened : isOpen p.loaded.state = true
  signs : ∀ {r : Request} {taken : List Taken}, r.requestor = p.loaded.requestor → r.user = p.loaded.user →
    Signed r taken p.loaded.route.steps p.loaded.step →
    (isOpen p.next.state → Signed r (taken ++ [⟨p.entry, p.auth, p.loaded.route.steps⟩])
      p.loaded.route.steps p.next.step) ∧
    (p.next.state = .approved → Signed r (taken ++ [⟨p.entry, p.auth, p.loaded.route.steps⟩])
      p.loaded.route.steps p.loaded.route.steps.length)

/-- An approver's approval signs the current step. -/
theorem approves_of_canApprove {r loaded : Request} {auth : Authority} {entry : LogEntry}
    (hcan : canApprove loaded auth) (hreq : r.requestor = loaded.requestor) (huser : r.user = loaded.user)
    (hmove : entry.move = .move .approve) (hstep : entry.step = loaded.step) :
    loaded.step < loaded.route.steps.length ∧ Approves r loaded.step ⟨entry, auth, loaded.route.steps⟩ := by
  obtain ⟨id, teams, hactor, hid, hby, step, hmem, hin⟩ := canApprove_iff.mp hcan
  have hasked : ∀ id, requestedBy r id = requestedBy loaded id := by
    intro id
    rw [requestedBy, requestedBy, hreq, huser]
  refine ⟨(List.getElem?_eq_some_iff.mp hmem).1, hmove, hstep, step, hmem, id, teams, hactor, ?_, fun p hp => ?_,
    hin⟩
  · rw [hasked]
    exact hid
  · rw [hasked]
    exact hby p hp

theorem moveOf_ne_resubmit (decision : ApprovalDecision) (roles : List ApprovalRole) :
    moveOf decision roles ≠ .resubmit := by
  unfold moveOf
  cases decision with
  | approve => dsimp only; split_ifs <;> simp
  | reject => simp
  | requestChanges => simp

/-- The edges of the machine, by move. -/
theorem machine_eq_some {state : ApprovalState} {move : ApprovalMove} {edge : Edge}
    (h : machine state move = some edge) : isOpen state ∧
      match move with
      | .approve => edge.by_ = [.approver] ∧ edge.to_ = .next
      | .reject => edge.to_ = .state .rejected
      | .requestChanges => edge.to_ = .state .changesRequested
      | .resubmit => edge.to_ = .state .pending
      | .supersede => edge.to_ = .state .superseded := by
  cases state <;> cases move <;> cases h <;> simp [isOpen]

theorem judged_of_transition {a : Stored} {auth : Authority} {next : Step} {edge : Edge} {entry : LogEntry}
    {move : ApprovalMove} {reason : String} (hmove : move ≠ .resubmit)
    (h : transition ⟨a.state, a.step⟩ a.route.steps.length move (rolesOf a.toRequest auth) reason 0 =
      .ok (next, edge)) (hentry : entry.move = .move move) (hstep : entry.step = a.step) :
    Judged ⟨a, auth, next, entry⟩ := by
  obtain ⟨hmachine, ⟨role, hrole, hmem⟩, hnext⟩ := transition_eq_ok h
  obtain ⟨hopen, hedge⟩ := machine_eq_some hmachine
  refine ⟨hopen, ?_⟩
  intro r taken hreq huser hsigned
  dsimp only at hreq huser hsigned hnext ⊢
  cases move with
  | approve =>
    rw [hedge.1, List.mem_singleton] at hrole
    rw [hrole, approver_mem_rolesOf] at hmem
    obtain ⟨hlt, happroves⟩ := approves_of_canApprove hmem hreq huser hentry hstep
    have hnow := hsigned.approve rfl happroves
    simp only [hedge.2] at hnext
    by_cases hmore : a.step + 1 < a.route.steps.length
    · rw [if_pos hmore] at hnext
      subst hnext
      exact ⟨fun _ => hnow, fun hno => (nomatch hno)⟩
    · rw [if_neg hmore] at hnext
      subst hnext
      refine ⟨fun hno => (nomatch hno), fun _ => ?_⟩
      obtain hlen : a.route.steps.length = a.step + 1 := by omega
      rw [hlen]
      exact hnow
  | reject =>
    simp only [hedge, reduceCtorEq, if_false] at hnext
    subst hnext
    exact ⟨fun hno => (nomatch hno), fun hno => (nomatch hno)⟩
  | requestChanges =>
    simp only [hedge, reduceCtorEq, if_false] at hnext
    subst hnext
    refine ⟨fun _ => hsigned.append ?_, fun hno => (nomatch hno)⟩
    intro t ht
    rw [List.mem_singleton.mp ht]
  | resubmit => exact absurd rfl hmove
  | supersede =>
    simp only [hedge, reduceCtorEq, if_false] at hnext
    subst hnext
    exact ⟨fun hno => (nomatch hno), fun hno => (nomatch hno)⟩

theorem planDecide_eq_ok (h : planDecide a x = .ok p) : a = some p.loaded ∧ Judged p := by
  unfold planDecide at h
  split at h
  next => cases h
  next => cases h
  next a auth _ _ =>
    dsimp only at h
    split at h
    next => cases h
    next => cases h
    next => cases h
    next next edge htransition =>
      split_ifs at h with hguards
      split at h
      next => cases h
      next =>
        cases h
        exact ⟨rfl, judged_of_transition (moveOf_ne_resubmit _ _) htransition rfl rfl⟩
  next => cases h

/-- What a save's plan is. -/
theorem planResubmit_eq_ok {teams : List String} {auth : Authority} {snapshot : Option Snapshot} {now : String}
    {p : Save} (h : planResubmit teams a auth snapshot now = .ok p) : a = some p.loaded ∧
      p.next.state = .pending ∧ (p.next.step = 0 ∨
        p.next.step = p.loaded.step ∧ p.route.steps = p.loaded.route.steps) := by
  unfold planResubmit at h
  split at h
  next => cases h
  next a =>
    split_ifs at h with hguards
    dsimp only at h
    split at h
    next => cases h
    next =>
      cases h
      refine ⟨rfl, rfl, ?_⟩
      dsimp only
      by_cases hflow : sameFlow a.route (snapshot.getD a.route)
      · rw [if_pos hflow]
        exact .inr ⟨rfl, (beq_iff_eq.mp hflow).symm⟩
      · rw [if_neg hflow]
        exact .inl rfl

end

/-- A plan in flight against the request it loaded: a request that moved since has a longer log. -/
structure Behind (loaded r : Stored) : Prop where
  requestor : loaded.requestor = r.requestor
  user : loaded.user = r.user
  length : loaded.log.length ≤ r.log.length
  same : loaded.log.length = r.log.length → loaded = r

/-- A save in flight: the steps before the one it resumes at were signed when it loaded. -/
structure Resumes (d : Desk) (r : Stored) (p : Save) : Prop extends Behind p.loaded r where
  signed : isOpen p.loaded.state → Signed r.toRequest (d.taken.take p.loaded.log.length)
    p.loaded.route.steps p.loaded.step
  closed : isOpen p.loaded.state = false → isOpen r.state = false
  state : p.next.state = .pending
  step : p.next.step = 0 ∨ p.next.step = p.loaded.step ∧ p.route.steps = p.loaded.route.steps

/-- The stored request, its face and the plans in flight. -/
structure Keeps (d : Desk) (r : Stored) : Prop where
  log : d.taken.map (·.entry) = r.log
  face : d.face.map (fun f => (f.status, f.step)) = some (statusOf r.state, r.step)
  signed : isOpen r.state → Signed r.toRequest d.taken r.route.steps r.step
  approved : r.state = .approved → Signed r.toRequest d.taken r.route.steps r.route.steps.length
  decisions : ∀ p ∈ d.decisions, Behind p.loaded r ∧ Judged p
  saves : ∀ p ∈ d.saves, Resumes d r p

/-- Nothing is in flight before the request is opened. -/
def Inv (d : Desk) : Prop :=
  match d.request with
  | some r => Keeps d r
  | none => d.taken = [] ∧ d.face = none ∧ d.decisions = [] ∧ d.saves = []

section

variable {d : Desk} {r : Stored} {teams : List String}

theorem Inv.keeps (h : Inv d) (hr : d.request = some r) : Keeps d r := by
  unfold Inv at h
  rw [hr] at h
  exact h

theorem Keeps.inv (h : Keeps d r) (hr : d.request = some r) : Inv d := by
  unfold Inv
  rw [hr]
  exact h

theorem Keeps.length (h : Keeps d r) : d.taken.length = r.log.length := by
  rw [← h.log, List.length_map]

theorem Behind.refl (r : Stored) : Behind r r := ⟨rfl, rfl, le_rfl, fun _ => rfl⟩

/-- A request that moves leaves every plan behind. -/
theorem Behind.moved {loaded : Stored} (h : Behind loaded r) (next : Step) (route : Snapshot) (entry : LogEntry) :
    Behind loaded { r with state := next.state, step := next.step, route := route, log := r.log ++ [entry] } := by
  refine ⟨h.requestor, h.user, ?_, fun hlen => ?_⟩
  · have := h.length
    simp only [List.length_append, List.length_singleton]
    omega
  · have := h.length
    simp only [List.length_append, List.length_singleton] at hlen
    omega

/-- A move of an open request, once what it signs is known. -/
theorem Keeps.move (h : Keeps d r) (hopen : isOpen r.state = true) (auth : Authority) {next : Step}
    {route : Snapshot} (entry : LogEntry)
    (hsigned : isOpen next.state →
      Signed r.toRequest (d.taken ++ [⟨entry, auth, route.steps⟩]) route.steps next.step)
    (happroved : next.state = .approved →
      Signed r.toRequest (d.taken ++ [⟨entry, auth, route.steps⟩]) route.steps route.steps.length) :
    Keeps (d.move r auth next route entry)
      { r with state := next.state, step := next.step, route := route, log := r.log ++ [entry] } := by
  have hlen := h.length
  refine ⟨?_, rfl, fun ho => (hsigned ho).congr rfl rfl, fun ha => (happroved ha).congr rfl rfl, ?_, ?_⟩
  · show (d.taken ++ [_]).map _ = _
    rw [List.map_append, h.log]
    rfl
  · intro p hp
    obtain ⟨hbehind, hjudged⟩ := h.decisions p hp
    exact ⟨hbehind.moved next route entry, hjudged⟩
  · intro p hp
    have hp := h.saves p hp
    have hle : p.loaded.log.length ≤ d.taken.length := hlen ▸ hp.length
    refine ⟨hp.toBehind.moved next route entry, fun ho => ?_, fun hc => ?_, hp.state, hp.step⟩
    · show Signed _ ((d.taken ++ [_]).take _) _ _
      rw [List.take_append_of_le_length hle]
      exact (hp.signed ho).congr rfl rfl
    · rw [hp.closed hc] at hopen
      cases hopen

/-- A plan leaves the desk. -/
theorem Keeps.sub {d' : Desk} (h : Keeps d r) (hface : d'.face = d.face) (htaken : d'.taken = d.taken)
    (hdecisions : ∀ p ∈ d'.decisions, p ∈ d.decisions) (hsaves : ∀ p ∈ d'.saves, p ∈ d.saves) : Keeps d' r := by
  refine ⟨by rw [htaken, h.log], by rw [hface, h.face], ?_, ?_, fun p hp => h.decisions p (hdecisions p hp), ?_⟩
  · rw [htaken]
    exact h.signed
  · rw [htaken]
    exact h.approved
  · intro p hp
    have hp := h.saves p (hsaves p hp)
    refine ⟨hp.toBehind, ?_, hp.closed, hp.state, hp.step⟩
    rw [htaken]
    exact hp.signed

theorem Keeps.commitDecision (h : Keeps d r) (hr : d.request = some r) {p : Decision}
    (hbehind : Behind p.loaded r) (hjudged : Judged p) : Inv (d.commitDecision p) := by
  unfold Desk.commitDecision
  rw [hr]
  dsimp only
  split_ifs with hguard
  · -- nothing moved since the load, so the request is the one that was judged
    obtain rfl := hbehind.same hguard.2.2.symm
    obtain ⟨hsigned, happroved⟩ := hjudged.signs rfl rfl (h.signed hjudged.opened)
    exact (h.move hjudged.opened p.auth p.entry hsigned happroved).inv rfl
  · exact h.inv hr

/-- The steps a save keeps are still the stored ones, or it starts again. -/
def Save.Fresh (d : Desk) (p : Save) : Prop :=
  p.next.step = 0 ∨ ∀ t ∈ d.taken.drop p.loaded.log.length, t.steps = p.loaded.route.steps

/-- A save's statement finds the request in changes requested, of its requestor. -/
def Save.Taken (r : Stored) (p : Save) : Prop :=
  r.state = .changesRequested ∧ r.requestor = actorRef p.auth.actor

theorem Keeps.commitSave (h : Keeps d r) (hr : d.request = some r) {p : Save} (hp : Resumes d r p)
    (hfresh : p.Taken r → p.Fresh d) : Inv (d.commitSave p) := by
  unfold Desk.commitSave
  rw [hr]
  dsimp only
  split_ifs with hguard
  · have hopen : isOpen r.state = true := by rw [hguard.1]; rfl
    refine (h.move hopen p.auth p.entry (fun _ => ?_) (fun hno => ?_)).inv rfl
    · obtain hzero | ⟨hstep, hroute⟩ := hp.step
      · rw [hzero]
        exact signed_zero
      · obtain hzero | hkept := hfresh hguard
        · rw [hzero]
          exact signed_zero
        · have hloaded : isOpen p.loaded.state = true := by
            by_contra hno
            rw [hp.closed (Bool.eq_false_iff.mpr hno)] at hopen
            cases hopen
          have hbefore := (hp.signed hloaded).append hkept
          rw [List.take_append_drop] at hbefore
          rw [hstep, hroute]
          refine hbefore.append fun t ht => ?_
          rw [List.mem_singleton.mp ht]
    · rw [hp.state] at hno
      cases hno
  · exact h.inv hr

/-- The condition of an operation: a save that is taken and resumes at a later step finds the steps as
it loaded them, not replaced since. -/
def Op.Fresh (d : Desk) : Op → Prop
  | .commitSave i => ∀ p ∈ d.saves[i]?, ∀ r ∈ d.request, p.Taken r → p.Fresh d
  | _ => True

theorem inv_step (h : Inv d) (op : Op) (hop : op.Fresh d) : Inv (step teams d op) := by
  cases hr : d.request with
  | none =>
    unfold Inv at h
    rw [hr] at h
    obtain ⟨htaken, hface, hdecisions, hsaves⟩ := h
    -- before there is a request nothing is planned, and only `route` does anything
    have hkeep : Inv d := by
      unfold Inv
      rw [hr]
      exact ⟨htaken, hface, hdecisions, hsaves⟩
    cases op with
    | route auth route now =>
      show Inv (d.openRequest teams auth route now)
      unfold Desk.openRequest
      split_ifs
      · exact hkeep
      · rw [hr]
        refine Keeps.inv ⟨?_, rfl, fun _ => signed_zero, ?_, ?_, ?_⟩ rfl
        · simp [htaken]
        · intro hno
          cases hno
        · simp [hdecisions]
        · simp [hsaves]
    | decide x =>
      cases hplan : planDecide d.request x with
      | error refusal => simpa [step, hplan] using hkeep
      | ok p =>
        have := (planDecide_eq_ok hplan).1
        rw [hr] at this
        cases this
    | commitDecision i => simpa [step, hdecisions] using hkeep
    | resubmit auth snapshot now =>
      cases hplan : planResubmit teams d.request auth snapshot now with
      | error refusal => simpa [step, hplan] using hkeep
      | ok p =>
        have := (planResubmit_eq_ok hplan).1
        rw [hr] at this
        cases this
    | commitSave i => simpa [step, hsaves] using hkeep
  | some r =>
    have hk := h.keeps hr
    cases op with
    | route auth route now =>
      show Inv (d.openRequest teams auth route now)
      unfold Desk.openRequest
      split_ifs
      · exact h
      · rw [hr]
        exact h
    | decide x =>
      cases hplan : planDecide d.request x with
      | error refusal => simpa [step, hplan] using h
      | ok p =>
        obtain ⟨hloaded, hjudged⟩ := planDecide_eq_ok hplan
        obtain rfl := Option.some.inj (hr.symm.trans hloaded)
        have hd : step teams d (.decide x) = { d with decisions := d.decisions ++ [p] } := by
          simp only [step, hplan]
        rw [hd]
        refine Keeps.inv (r := p.loaded) ⟨hk.log, hk.face, hk.signed, hk.approved, fun q hq => ?_, fun q hq => ?_⟩ hr
        · obtain hq | hq := List.mem_append.mp hq
          · exact hk.decisions q hq
          · rw [List.mem_singleton.mp hq]
            exact ⟨.refl _, hjudged⟩
        · have hq := hk.saves q hq
          exact ⟨hq.toBehind, hq.signed, hq.closed, hq.state, hq.step⟩
    | commitDecision i =>
      cases hp : d.decisions[i]? with
      | none => simpa [step, hp] using h
      | some p =>
        obtain ⟨hbehind, hjudged⟩ := hk.decisions p (List.mem_of_getElem? hp)
        have hd : step teams d (.commitDecision i) =
            { d with decisions := d.decisions.eraseIdx i }.commitDecision p := by
          simp only [step, hp]
        rw [hd]
        -- the decision is committed against the request as it stands now, behind which its own may be
        have hk' : Keeps { d with decisions := d.decisions.eraseIdx i } r :=
          hk.sub rfl rfl (fun q hq => List.mem_of_mem_eraseIdx hq) (fun q hq => hq)
        exact hk'.commitDecision hr hbehind hjudged
    | resubmit auth snapshot now =>
      cases hplan : planResubmit teams d.request auth snapshot now with
      | error refusal => simpa [step, hplan] using h
      | ok p =>
        obtain ⟨hloaded, hstate, hstep⟩ := planResubmit_eq_ok hplan
        obtain rfl := Option.some.inj (hr.symm.trans hloaded)
        have hd : step teams d (.resubmit auth snapshot now) = { d with saves := d.saves ++ [p] } := by
          simp only [step, hplan]
        rw [hd]
        refine Keeps.inv (r := p.loaded) ⟨hk.log, hk.face, hk.signed, hk.approved, hk.decisions, fun q hq => ?_⟩ hr
        obtain hq | hq := List.mem_append.mp hq
        · have hq := hk.saves q hq
          exact ⟨hq.toBehind, hq.signed, hq.closed, hq.state, hq.step⟩
        · rw [List.mem_singleton.mp hq]
          refine ⟨.refl _, fun hopen => ?_, fun hclosed => hclosed, hstate, hstep⟩
          show Signed _ (d.taken.take _) _ _
          rw [← hk.length, List.take_length]
          exact hk.signed hopen
    | commitSave i =>
      cases hp : d.saves[i]? with
      | none => simpa [step, hp] using h
      | some p =>
        have hresumes := hk.saves p (List.mem_of_getElem? hp)
        have hd : step teams d (.commitSave i) = { d with saves := d.saves.eraseIdx i }.commitSave p := by
          simp only [step, hp]
        rw [hd]
        -- the condition on the run enters here alone: the save finds the steps it loaded
        have hk' : Keeps { d with saves := d.saves.eraseIdx i } r :=
          hk.sub rfl rfl (fun q hq => hq) (fun q hq => List.mem_of_mem_eraseIdx hq)
        have hresumes' : Resumes { d with saves := d.saves.eraseIdx i } r p :=
          ⟨hresumes.toBehind, hresumes.signed, hresumes.closed, hresumes.state, hresumes.step⟩
        exact hk'.commitSave hr hresumes' (hop p hp r hr)

/-- The run's operations all meet the condition, each on the desk it finds. -/
def FreshRun (teams : List String) (d : Desk) : List Op → Prop
  | [] => True
  | op :: ops => op.Fresh d ∧ FreshRun teams (step teams d op) ops

theorem inv_run (h : Inv d) {ops : List Op} (hops : FreshRun teams d ops) : Inv (run teams d ops) := by
  induction ops generalizing d with
  | nil => exact h
  | cons op ops ih => exact ih (inv_step h op hops.1) hops.2

theorem inv_init : Inv Desk.init := ⟨rfl, rfl, rfl, rfl⟩

/-- A request that is no longer open keeps its log. -/
theorem closed_step (h : Inv d) (hr : d.request = some r) (hclosed : isOpen r.state = false) (op : Op) :
    (step teams d op).request = some r := by
  have hk := h.keeps hr
  cases op with
  | route auth route now =>
    show (d.openRequest teams auth route now).request = some r
    unfold Desk.openRequest
    rw [hr]
    split_ifs <;> exact hr
  | decide x =>
    rw [step]
    split <;> exact hr
  | commitDecision i =>
    rw [step]
    split
    next p hp =>
      obtain ⟨hbehind, hjudged⟩ := hk.decisions p (List.mem_of_getElem? hp)
      unfold Desk.commitDecision
      dsimp only
      rw [hr]
      dsimp only
      rw [if_neg]
      rintro ⟨hstate, -, -⟩
      rw [hstate, hjudged.opened] at hclosed
      cases hclosed
    next => exact hr
  | resubmit auth snapshot now =>
    rw [step]
    split <;> exact hr
  | commitSave i =>
    rw [step]
    split
    next p hp =>
      unfold Desk.commitSave
      dsimp only
      rw [hr]
      dsimp only
      rw [if_neg]
      rintro ⟨hstate, -⟩
      rw [hstate] at hclosed
      cases hclosed
    next => exact hr

end

/-- What a desk owes the people who review: an approved request has every step signed in order since
its steps were last replaced, the log is the moves taken, a closed request takes no further move, and
the readable face shows the stored state and step. -/
structure Lawful (teams : List String) (d : Desk) : Prop where
  approved : ∀ r ∈ d.request, r.state = .approved →
    Signed r.toRequest d.taken r.route.steps r.route.steps.length
  log : ∀ r ∈ d.request, r.log = d.taken.map (·.entry)
  closed : ∀ r ∈ d.request, isOpen r.state = false → ∀ op, (step teams d op).request = some r
  face : d.face.map (fun f => (f.status, f.step)) = d.request.map fun r => (statusOf r.state, r.step)

/-- In every run whose saves find the steps they keep not replaced since they loaded them, only the
approvers of its steps approve a request. -/
theorem run_lawful (teams : List String) (ops : List Op) (hops : FreshRun teams Desk.init ops) :
    Lawful teams (run teams Desk.init ops) := by
  have h := inv_run inv_init hops
  refine ⟨fun r hr => (h.keeps hr).approved, fun r hr => (h.keeps hr).log.symm,
    fun r hr hclosed op => closed_step h hr hclosed op, ?_⟩
  cases hr : (run teams Desk.init ops).request with
  | some r => rw [(h.keeps hr).face]; rfl
  | none =>
    unfold Inv at h
    rw [hr] at h
    rw [h.2.1]
    rfl

instance (d : Desk) : (op : Op) → Decidable (op.Fresh d)
  | .commitSave i => inferInstanceAs (Decidable (∀ p ∈ d.saves[i]?, ∀ r ∈ d.request, (_ ∧ _) → (_ ∨ _)))
  | .route .. | .decide .. | .commitDecision .. | .resubmit .. => isTrue trivial

instance decidableFreshRun (teams : List String) : (d : Desk) → (ops : List Op) → Decidable (FreshRun teams d ops)
  | _, [] => isTrue trivial
  | d, op :: ops => @instDecidableAnd _ _ _ (decidableFreshRun teams (step teams d op) ops)

section

private def asks : Authority := ⟨.member "p" ["sales"], false, none⟩

private def reviews (id team : String) : Authority := ⟨.member id [team], false, none⟩

private def decides (auth : Authority) (decision : ApprovalDecision) : Op :=
  .decide ⟨auth.actor, some auth, decision, some "look again", "2024-05-01", none, none⟩

/-- Two reviews after each other. -/
private def twice : Snapshot := ⟨[⟨"first", ["a"], []⟩, ⟨"second", ["b"], []⟩], [], none⟩

private def once : Snapshot := ⟨[⟨"other", ["c"], []⟩], [], none⟩

private def opened : List Op := [.route asks twice "2024-05-01",
  decides (reviews "x" "a") .approve, .commitDecision 0, decides (reviews "y" "b") .requestChanges, .commitDecision 0]

/-- A save resumes at the second step of the same flow, whose reviewer approves it. -/
theorem resumed_lawful :
    let ops := opened ++ [.resubmit asks none "2024-05-02", .commitSave 0, decides (reviews "y" "b") .approve,
      .commitDecision 0]
    FreshRun ["a", "b", "c"] Desk.init ops ∧
      (run ["a", "b", "c"] Desk.init ops).request.map (·.state) = some .approved ∧
      Lawful ["a", "b", "c"] (run ["a", "b", "c"] Desk.init ops) :=
  ⟨by decide, by decide, run_lawful _ _ (by decide)⟩

/-- A save loaded before the steps were replaced puts the replaced flow back at its second step: the
request is approved with nobody having reviewed its first step since. -/
theorem skipped_review :
    let ops := opened ++ [.resubmit asks (some twice) "2024-05-02", .resubmit asks (some once) "2024-05-02",
      .commitSave 1, decides (reviews "z" "c") .requestChanges, .commitDecision 0, .commitSave 0,
      decides (reviews "y" "b") .approve, .commitDecision 0]
    ¬ Lawful ["a", "b", "c"] (run ["a", "b", "c"] Desk.init ops) := by
  intro ops hlawful
  obtain ⟨r, hr, hstate, hsteps⟩ : ∃ r, (run ["a", "b", "c"] Desk.init ops).request = some r ∧
      r.state = .approved ∧ r.route.steps = twice.steps :=
    ⟨_, rfl, by decide, by decide⟩
  have hsigned := hlawful.approved r hr hstate
  rw [hsteps] at hsigned
  obtain ⟨x, hx, hother⟩ : ∃ x, (run ["a", "b", "c"] Desk.init ops).taken[4]? = some x ∧ x.steps ≠ twice.steps :=
    ⟨_, rfl, by decide⟩
  obtain ⟨t, ht, hmove, hstep, -⟩ := hsigned.newer hx hother (i := 0) (by decide)
  -- the moves since are the save and the second step's approval
  have hsince : ∀ t ∈ (run ["a", "b", "c"] Desk.init ops).taken.drop 5,
      ¬ (t.entry.move = .move .approve ∧ t.entry.step = 0) := by
    decide
  exact hsince t ht ⟨hmove, hstep⟩

end

end Norbital.Bolt.Approvals

import Norbital.Bolt.Approvals.Machine
import Norbital.Lib.ThreeValued

/-!
# The approval lock

While a request is open, the records it holds change only through it.  Who may
change them is written twice: `eligible` of `bolt/src/engine/approvals/lock.ts`
is a condition of the commit statement, over the stored request and the actor;
`rolesOf` of `route.ts` is over the request and the whole authority.  They agree
unless a preview hides who acts.
-/

namespace Norbital.Bolt.Approvals

open ThreeValued

/-- `jsonb ? text` on an array of texts; unknown where either side is null. -/
def jsonHas : Option (List String) → Option String → Tri
  | some texts, some text => some (texts.contains text)
  | _, _ => none

/-- `IS DISTINCT FROM`. -/
def isDistinctFrom (a b : Option String) : Tri := some (decide (a ≠ b))

/-- `eligible`, over a stored request. -/
def eligible (r : Request) (team id : Option String) (ref : String) : Bool :=
  let step := r.route.steps[r.step]?
  (ThreeValued.or
    (all [some (decide (r.state = .pending)), some (decide (r.requestor ≠ ref)), isDistinctFrom r.user id,
      ThreeValued.or (jsonHas (step.map (·.teams)) team) (jsonHas (step.map (·.users)) id)])
    (all [some (decide (r.state = .changesRequested)), some (decide (r.requestor = ref))])).getD false

/-- The actor's own team and member id; static identities have neither. -/
def own : EngineActor → Option String × Option String
  | .member id teams => (teams.head?, some id)
  | _ => (none, none)

/-- Whether the lock lets an actor change a record the request holds. -/
def lockAdmits (r : Request) (actor : EngineActor) : Bool :=
  eligible r (own actor).1 (own actor).2 (actorRef actor)

/-- Whether the roles let an authority change a record the request holds. -/
def RolesAdmit (r : Request) (auth : Authority) : Prop :=
  r.state = .pending ∧ .approver ∈ rolesOf r auth ∨
    r.state = .changesRequested ∧ .requester ∈ rolesOf r auth

/-- The administrator who previews asked for the request, and who they preview may review it. -/
def Bypasses (r : Request) (auth : Authority) : Prop :=
  r.state = .pending ∧ (∃ p ∈ auth.preview, requestedBy r p.by_) ∧
    canApprove r { auth with preview := none }

theorem holds_jsonHas {texts : Option (List String)} {text : Option String} :
    Holds (jsonHas texts text) ↔ ∃ l ∈ texts, ∃ x ∈ text, x ∈ l := by
  cases texts <;> cases text <;> simp [jsonHas]

/-- The condition on the fields of the request. -/
theorem eligible_iff {r : Request} {team id : Option String} {ref : String} : eligible r team id ref ↔
    r.state = .pending ∧ r.requestor ≠ ref ∧ r.user ≠ id ∧
      (∃ step ∈ r.route.steps[r.step]?, (∃ x ∈ team, x ∈ step.teams) ∨ ∃ x ∈ id, x ∈ step.users) ∨
    r.state = .changesRequested ∧ r.requestor = ref := by
  unfold eligible
  rw [getD_false_eq_true, holds_or]
  simp only [holds_all, List.forall_mem_cons, List.not_mem_nil, false_imp_iff, implies_true, and_true,
    holds_some, decide_eq_true_eq, isDistinctFrom, holds_or, holds_jsonHas]
  cases r.route.steps[r.step]? <;> simp

/-- A reviewer is a member who did not ask, themselves or through a preview. -/
theorem reviewer_eq_some {r : Request} {auth : Authority} {id : String} {team : Option String} :
    reviewer r auth = some (id, team) ↔ (∃ teams, auth.actor = .member id teams ∧ team = teams.head?) ∧
      requestedBy r id = false ∧ ∀ p ∈ auth.preview, requestedBy r p.by_ = false := by
  have hpreview : (auth.preview.any fun p => requestedBy r p.by_) = false ↔
      ∀ p ∈ auth.preview, requestedBy r p.by_ = false := by
    cases auth.preview <;> simp
  unfold reviewer
  rw [Option.filter_eq_some_iff, Bool.not_eq_true', Bool.or_eq_false_iff, hpreview]
  refine and_congr_left fun _ => ?_
  cases auth.actor with
  | member id' teams =>
    simp only [memberOf, Option.some.injEq, Prod.mk.injEq, EngineActor.member.injEq]
    constructor
    · rintro ⟨rfl, rfl⟩
      exact ⟨teams, ⟨rfl, rfl⟩, rfl⟩
    · rintro ⟨_, ⟨rfl, rfl⟩, rfl⟩
      exact ⟨rfl, rfl⟩
  | _ => simp [memberOf]

/-- An approver is a reviewer of the step's teams or among its users. -/
theorem canApprove_iff {r : Request} {auth : Authority} : canApprove r auth ↔
    ∃ id teams, auth.actor = .member id teams ∧ requestedBy r id = false ∧
      (∀ p ∈ auth.preview, requestedBy r p.by_ = false) ∧
      ∃ step ∈ r.route.steps[r.step]?, (∃ x ∈ teams.head?, x ∈ step.teams) ∨ id ∈ step.users := by
  have hteam : ∀ (team : Option String) (step : FlowStep),
      team.any step.teams.contains ↔ ∃ x ∈ team, x ∈ step.teams := by
    intro team step
    cases team <;> simp
  unfold canApprove
  constructor
  · intro h
    split at h
    next step id team hstep hreviewer =>
      obtain ⟨⟨teams, hactor, rfl⟩, hid, hby⟩ := reviewer_eq_some.mp hreviewer
      rw [Bool.or_eq_true, hteam, List.contains_iff_mem] at h
      exact ⟨id, teams, hactor, hid, hby, step, hstep, h⟩
    next => cases h
  · rintro ⟨id, teams, hactor, hid, hby, step, hstep, hin⟩
    rw [hstep, reviewer_eq_some.mpr ⟨⟨teams, hactor, rfl⟩, hid, hby⟩]
    dsimp only
    rw [Bool.or_eq_true, hteam, List.contains_iff_mem]
    exact hin

/-- The lock's condition for a member: an approver of the request without a preview, or its requester. -/
theorem lockAdmits_iff {r : Request} {auth : Authority} : lockAdmits r auth.actor ↔
    r.state = .pending ∧ canApprove r { auth with preview := none } ∨
      r.state = .changesRequested ∧ r.requestor = actorRef auth.actor := by
  unfold lockAdmits
  rw [eligible_iff, canApprove_iff]
  cases hactor : auth.actor with
  | member id teams =>
    have hasked : requestedBy r id = false ↔ r.requestor ≠ "member:" ++ id ∧ r.user ≠ some id := by
      simp [requestedBy]
    simp only [own, actorRef, EngineActor.member.injEq, Option.mem_some_iff, exists_eq_left']
    constructor
    · rintro (⟨hp, hreq, huser, step, hstep, hin⟩ | h)
      · exact .inl ⟨hp, id, teams, ⟨rfl, rfl⟩, hasked.mpr ⟨hreq, huser⟩, by simp, step, hstep, hin⟩
      · exact .inr h
    · rintro (⟨hp, id', teams', ⟨rfl, rfl⟩, hask, -, step, hstep, hin⟩ | h)
      · exact .inl ⟨hp, (hasked.mp hask).1, (hasked.mp hask).2, step, hstep, hin⟩
      · exact .inr h
  | _ => simp [own]

theorem rolesAdmit_iff {r : Request} {auth : Authority} : RolesAdmit r auth ↔
    r.state = .pending ∧ canApprove r auth ∨ r.state = .changesRequested ∧ r.requestor = actorRef auth.actor := by
  rw [RolesAdmit, approver_mem_rolesOf, requester_mem_rolesOf]

/-- A preview takes the approver's role only from those who preview for the requestor. -/
theorem canApprove_unpreviewed (r : Request) (auth : Authority) : canApprove r auth ↔
    canApprove r { auth with preview := none } ∧ ∀ p ∈ auth.preview, requestedBy r p.by_ = false := by
  rw [canApprove_iff, canApprove_iff]
  constructor
  · rintro ⟨id, teams, hactor, hid, hby, hstep⟩
    exact ⟨⟨id, teams, hactor, hid, by simp, hstep⟩, hby⟩
  · rintro ⟨⟨id, teams, hactor, hid, -, hstep⟩, hby⟩
    exact ⟨id, teams, hactor, hid, hby, hstep⟩

/-- The lock and the roles agree on an authority exactly when no requestor reviews through a preview;
and a preview by the requestor changes nothing exactly when, besides, it is not of their own turn. -/
theorem lock_agrees_iff (r : Request) (auth : Authority) :
    ((lockAdmits r auth.actor ↔ RolesAdmit r auth) ↔ ¬ Bypasses r auth) ∧
    ((∃ p ∈ auth.preview, requestedBy r p.by_) → (lockAdmits r auth.actor = false ↔
      ¬ Bypasses r auth ∧ ¬ (r.state = .changesRequested ∧ .requester ∈ rolesOf r auth))) := by
  have hby : (∃ p ∈ auth.preview, requestedBy r p.by_) ↔
      ¬ ∀ p ∈ auth.preview, requestedBy r p.by_ = false := by
    push Not
    simp
  have hstates : ¬ (r.state = .pending ∧ r.state = .changesRequested) := by
    rintro ⟨hp, hc⟩
    rw [hp] at hc
    cases hc
  rw [rolesAdmit_iff, requester_mem_rolesOf, ← Bool.not_eq_true, lockAdmits_iff, canApprove_unpreviewed r auth,
    Bypasses, hby]
  tauto

instance (r : Request) (auth : Authority) : Decidable (RolesAdmit r auth) :=
  inferInstanceAs (Decidable (_ ∧ _ ∨ _ ∧ _))

/-- An administrator who asked for a request changes its record in a preview of its approver. -/
theorem previewed_change :
    let asked : Request := ⟨.pending, 0, "member:a", some "a", ⟨[⟨"review", ["finance"], []⟩], [], none⟩⟩
    let preview : Authority := ⟨.member "b" ["finance"], false, some ⟨"a", none⟩⟩
    requestedBy asked "a" = true ∧ lockAdmits asked preview.actor = true ∧ ¬ RolesAdmit asked preview := by
  decide

end Norbital.Bolt.Approvals

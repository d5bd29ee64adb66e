import Mathlib.Data.List.Basic
import Norbital.Bolt.Write.Gate

/-!
# The verdict on a batch

How the checks of the arms that admit a verb judge its batch (`judge` in
`bolt/src/engine/write/act.ts`): each arm's `check` runs in the guest, one after
the other, until one of them ends the loop.
-/

namespace Norbital.Bolt.Judge

open Norbital.Std (Json member)
open Norbital.Bolt.Write (RefusalCode)

structure BoltError where
  code : String
  phase : String
  message : String
  deriving DecidableEq, Repr

inductive GuestOutcome where
  | ok (output : Json)
  /-- `ctx.refuse(message)`. -/
  | refused (message : String)
  /-- A throw, a budget or a bad answer. -/
  | failed (error : BoltError)

structure FlowStep where
  name : String
  teams : List String
  users : List String
  deriving DecidableEq, Repr

/-- The flow a request stores. -/
structure StepsSnapshot where
  steps : List FlowStep
  superseded_by : List String
  deriving DecidableEq, Repr

/-- Where in the batch a denial points. -/
structure At where
  row : Option Rat
  path : Option String
  field : Option String
  deriving DecidableEq

inductive Verdict where
  | allow
  | deny (message : String) (place : At)
  | approve (flow : StepsSnapshot)
  deriving DecidableEq

namespace Decode

def string : Json → Option String
  | .string s => some s
  | _ => none

def number : Json → Option Rat
  | .number n => some n
  | _ => none

def array {α : Type} (item : Json → Option α) : Json → Option (List α)
  | .array items => items.mapM item
  | _ => none

def members : Json → Option (List (String × Json))
  | .object ms => some ms
  | _ => none

def required {α : Type} (item : Json → Option α) (ms : List (String × Json)) (name : String) : Option α :=
  (member ms name).bind item

/-- `Schema.optionalKey`: a key that is there holds a value of its type. -/
def optionalKey {α : Type} (item : Json → Option α) (ms : List (String × Json)) (name : String) :
    Option (Option α) :=
  match member ms name with
  | none => some none
  | some value => (item value).map some

def literal (text : String) (ms : List (String × Json)) (name : String) : Option Unit :=
  (required string ms name).bind fun s => if s = text then some () else none

def flowStep (j : Json) : Option FlowStep := do
  let ms ← members j
  return ⟨← required string ms "name", ← required (array string) ms "teams",
    ← required (array string) ms "users"⟩

/-- `Snapshot`: one step at least. -/
def snapshot (j : Json) : Option StepsSnapshot := do
  let ms ← members j
  literal "steps" ms "kind"
  let steps ← required (array flowStep) ms "steps"
  let superseded_by ← required (array string) ms "superseded_by"
  if steps.isEmpty then none else some ⟨steps, superseded_by⟩

def place (j : Json) : Option At := do
  let ms ← members j
  return ⟨← optionalKey number ms "row", ← optionalKey string ms "path", ← optionalKey string ms "field"⟩

def allow (j : Json) : Option Verdict := do
  literal "allow" (← members j) "kind"
  return .allow

def deny (j : Json) : Option Verdict := do
  let ms ← members j
  literal "deny" ms "kind"
  let message ← required string ms "message"
  return .deny message ((← optionalKey place ms "at").getD ⟨none, none, none⟩)

def approve (j : Json) : Option Verdict := do
  let ms ← members j
  literal "approve" ms "kind"
  return .approve (← required snapshot ms "flow")

/-- `VerdictSchema`. -/
def verdict (j : Json) : Option Verdict := (allow j <|> deny j) <|> approve j

end Decode

/-- A refused outcome. -/
structure Refusal where
  code : RefusalCode
  message : String
  rule : Option String := none
  row : Option Rat := none
  path : Option String := none
  field : Option String := none
  deriving DecidableEq

inductive Judgement where
  | allow
  | approve (flow : StepsSnapshot)
  | deny (outcome : Refusal)
  deriving DecidableEq

/-- An arm that admits the verb. -/
structure CheckArm where
  policy : String
  check : Bool
  deriving DecidableEq, Repr

inductive Judged where
  | create | update | delete
  deriving DecidableEq, Repr

def Judged.text : Judged → String
  | .create => "create"
  | .update => "update"
  | .delete => "delete"

structure Authority (Actor : Type) where
  actor : Actor
  policies : List String

structure Bindings where
  now : String
  today : String
  tz : String

structure Ctx (Actor : Type) where
  actor : Actor
  policies : List String
  now : String
  today : String
  tz : String
  seed : String

structure Budget where
  crossings : Nat
  readBytes : Nat

/-- An invocation of kind `policy`. -/
structure Invocation (Actor : Type) where
  id : String
  target : String
  input : List Json
  ctx : Ctx Actor
  budget : Budget

/-- The engine: its guest, where the host runs one, and the text of a decoder's error. -/
structure Engine (Actor : Type) where
  guest : Option (Invocation Actor → GuestOutcome)
  decodeError : Json → String

/-- What `guestFailure` answers, by the error's code. -/
def failureCode : String → Option RefusalCode
  | "guestError" => some .internal
  | "internal" => some .internal
  | "readBudgetExceeded" => some .readBudgetExceeded
  | "cpuBudget" => some .cpuBudget
  | "crossingBudget" => some .crossingBudget
  | "memory" => some .memory
  | "tooLarge" => some .tooLarge
  | _ => none

/-- `guestFailure`. -/
def guestFailure (error : BoltError) : Except BoltError Refusal :=
  match failureCode error.code with
  | some code => .ok { code, message := error.message }
  | none => .error error

def forbidden : Judgement := .deny { code := .forbidden, message := "You may not make this change." }

/-- One act's batch of a verb. -/
structure Batch (Actor : Type) where
  auth : Authority Actor
  bindings : Bindings
  seed : String
  model : String
  verb : Judged
  input : List Json

variable {Actor : Type}

namespace Batch

variable (b : Batch Actor)

def target (arm : CheckArm) : String := arm.policy ++ "." ++ b.model ++ "." ++ b.verb.text

def invocation (arm : CheckArm) : Invocation Actor where
  id := b.seed ++ ":policy:" ++ b.target arm
  target := b.target arm
  input := b.input
  ctx :=
    { actor := b.auth.actor
      policies := b.auth.policies
      now := b.bindings.now
      today := b.bindings.today
      tz := b.bindings.tz
      seed := b.seed }
  budget := { crossings := 10, readBytes := 32 * 1024 * 1024 }

/-- The loop of `judge`, with the first `approve` and the first `deny` so far. -/
def ask (decodeError : Json → String) (invoke : Invocation Actor → GuestOutcome) :
    List CheckArm → Option Judgement → Option Judgement → Except BoltError Judgement
  | [], approve, deny => .ok ((approve.or deny).getD forbidden)
  | arm :: arms, approve, deny =>
    match invoke (b.invocation arm) with
    -- a failed or a refused check ends the loop, before the arms behind it are asked
    | .failed error => (guestFailure error).map .deny
    | .refused message => .ok (.deny { code := .refused, message, rule := some (b.target arm) })
    | .ok output =>
      match Decode.verdict output with
      | none => .error ⟨"badAnswer", "guest", b.target arm ++ ": " ++ decodeError output⟩
      | some .allow => .ok .allow
      | some (.approve flow) => ask decodeError invoke arms (approve.or (some (.approve flow))) deny
      | some (.deny message place) =>
        ask decodeError invoke arms approve (deny.or (some (.deny
          { code := .refused, message, rule := some (b.target arm)
            row := place.row, path := place.path, field := place.field })))

/-- `judge`: whether the guest ran, and the verdict. -/
def judge (e : Engine Actor) (arms : List CheckArm) : Except BoltError (Bool × Judgement) :=
  if arms = [] then .ok (false, forbidden)
  else if arms.any fun arm => !arm.check then .ok (false, .allow)
  else
    match e.guest with
    | none => .error ⟨"noGuest", "guest", "this host runs no guest code"⟩
    | some invoke => (b.ask e.decodeError invoke arms none none).map (true, ·)

end Batch

namespace GuestOutcome

/-- The verdict of a check that ran. -/
def verdict : GuestOutcome → Option Verdict
  | ok output => Decode.verdict output
  | _ => none

/-- A refusal or a failure, which ends the loop. -/
def stops : GuestOutcome → Bool
  | ok _ => false
  | _ => true

/-- What a refusal or a failure makes of the batch is a refusal. -/
def denies : GuestOutcome → Bool
  | failed error => (failureCode error.code).isSome
  | _ => true

/-- An allow, an approval, a denial, a refusal or a failure. -/
def Answers (o : GuestOutcome) : Prop := o.stops = true ∨ o.verdict ≠ none

instance (o : GuestOutcome) : Decidable o.Answers :=
  inferInstanceAs (Decidable (o.stops = true ∨ o.verdict ≠ none))

/-- The flow of an approval. -/
def flow (o : GuestOutcome) : Option StepsSnapshot :=
  match o.verdict with
  | some (.approve flow) => some flow
  | _ => none

end GuestOutcome

/-- The judgements that a `deny` left. -/
def Denials (j : Option Judgement) : Prop := ∀ x ∈ j, ∃ o, x = .deny o

namespace Batch

variable {b : Batch Actor} {decodeError : Json → String} {invoke : Invocation Actor → GuestOutcome}
  {arm : CheckArm} {arms : List CheckArm} {approve deny : Option Judgement}

/-- The loop ends at a refusal or a failure. -/
theorem ask_stops (decodeError : Json → String) (arms : List CheckArm) (approve deny : Option Judgement)
    (h : (invoke (b.invocation arm)).stops = true) :
    ((invoke (b.invocation arm)).denies = true ∧
        ∃ o, b.ask decodeError invoke (arm :: arms) approve deny = .ok (.deny o)) ∨
      ((invoke (b.invocation arm)).denies = false ∧
        ∃ error, b.ask decodeError invoke (arm :: arms) approve deny = .error error) := by
  rw [ask]
  cases hout : invoke (b.invocation arm) with
  | ok output =>
    rw [hout] at h
    cases h
  | refused message => exact .inl ⟨rfl, _, rfl⟩
  | failed error =>
    cases hcode : failureCode error.code with
    | none => exact .inr ⟨by simp [GuestOutcome.denies, hcode], error, by simp [guestFailure, hcode, Except.map]⟩
    | some code => exact .inl ⟨by simp [GuestOutcome.denies, hcode], _, by simp only [guestFailure, hcode]; rfl⟩

theorem ask_allow (h : (invoke (b.invocation arm)).verdict = some .allow) :
    b.ask decodeError invoke (arm :: arms) approve deny = .ok .allow := by
  rw [ask]
  cases hout : invoke (b.invocation arm) with
  | ok output =>
    rw [hout, GuestOutcome.verdict] at h
    simp only [h]
  | refused message => rw [hout] at h; cases h
  | failed error => rw [hout] at h; cases h

/-- Past an approval or a denial the loop goes on. -/
theorem ask_next (decodeError : Json → String) (arms : List CheckArm) (approve : Option Judgement)
    (hanswers : (invoke (b.invocation arm)).Answers)
    (hstops : (invoke (b.invocation arm)).stops = false)
    (hallow : (invoke (b.invocation arm)).verdict ≠ some .allow) (hdeny : Denials deny) :
    ∃ deny', Denials deny' ∧ b.ask decodeError invoke (arm :: arms) approve deny =
      b.ask decodeError invoke arms
        (approve.or ((invoke (b.invocation arm)).flow.map .approve)) deny' := by
  rw [ask]
  cases hout : invoke (b.invocation arm) with
  | ok output =>
    rw [hout] at hanswers hallow
    simp only [GuestOutcome.verdict] at hallow
    cases hverdict : Decode.verdict output with
    | none => simp [GuestOutcome.Answers, GuestOutcome.stops, GuestOutcome.verdict, hverdict] at hanswers
    | some v =>
      cases v with
      | allow => exact absurd hverdict hallow
      | approve flow => exact ⟨deny, hdeny, by simp [GuestOutcome.flow, GuestOutcome.verdict, hverdict]⟩
      | deny message place =>
        simp only [GuestOutcome.flow, GuestOutcome.verdict, hverdict, Option.map_none, Option.or_none]
        refine ⟨_, ?_, rfl⟩
        intro x hx
        rw [Option.mem_def, Option.or_eq_some_iff] at hx
        obtain hx | ⟨-, hx⟩ := hx
        · exact hdeny x hx
        · exact ⟨_, (Option.some.inj hx).symm⟩
  | refused message => rw [hout] at hstops; cases hstops
  | failed error => rw [hout] at hstops; cases hstops

/-- The first arm whose check refuses or fails. -/
def firstStop (b : Batch Actor) (invoke : Invocation Actor → GuestOutcome) (arms : List CheckArm) :
    Option CheckArm :=
  arms.find? fun arm => (invoke (b.invocation arm)).stops

/-- The flow of the first arm that approves. -/
def firstFlow (b : Batch Actor) (invoke : Invocation Actor → GuestOutcome) (arms : List CheckArm) :
    Option StepsSnapshot :=
  arms.findSome? fun arm => (invoke (b.invocation arm)).flow

/-- A loop that nothing stops is the documented fold. -/
theorem ask_of_not_stops (decodeError : Json → String) (approve : Option Judgement)
    (hanswers : ∀ arm ∈ arms, (invoke (b.invocation arm)).Answers)
    (hstops : ∀ arm ∈ arms, (invoke (b.invocation arm)).stops = false) (hdeny : Denials deny) :
    ((∃ arm ∈ arms, (invoke (b.invocation arm)).verdict = some .allow) →
        b.ask decodeError invoke arms approve deny = .ok .allow) ∧
      ((∀ arm ∈ arms, (invoke (b.invocation arm)).verdict ≠ some .allow) →
        ∃ deny', Denials deny' ∧ b.ask decodeError invoke arms approve deny =
          .ok (((approve.or ((b.firstFlow invoke arms).map .approve)).or deny').getD forbidden)) := by
  induction arms generalizing approve deny with
  | nil => exact ⟨by simp, fun _ => ⟨deny, hdeny, by simp [ask, firstFlow]⟩⟩
  | cons arm arms ih =>
    rw [List.forall_mem_cons] at hanswers hstops
    by_cases hallow : (invoke (b.invocation arm)).verdict = some .allow
    · refine ⟨fun _ => ask_allow hallow, fun hnone => ?_⟩
      exact absurd hallow (hnone arm List.mem_cons_self)
    · obtain ⟨deny', hdeny', hnext⟩ :=
        ask_next decodeError arms approve hanswers.1 hstops.1 hallow hdeny
      rw [hnext]
      obtain ⟨hsome, hnone⟩ := ih (approve.or ((invoke (b.invocation arm)).flow.map .approve))
        hanswers.2 hstops.2 hdeny'
      constructor
      · rintro ⟨x, hx, hxallow⟩
        obtain rfl | hx := List.mem_cons.1 hx
        · exact absurd hxallow hallow
        · exact hsome ⟨x, hx, hxallow⟩
      · intro hno
        obtain ⟨deny'', hdeny'', heq⟩ := hnone fun x hx => hno x (List.mem_cons_of_mem arm hx)
        refine ⟨deny'', hdeny'', ?_⟩
        rw [heq, firstFlow, firstFlow, List.findSome?_cons, Option.or_assoc]
        cases (invoke (b.invocation arm)).flow <;> simp

/-- A loop that something stops allows only what an earlier arm allowed. -/
theorem ask_of_firstStop (decodeError : Json → String) (approve : Option Judgement) {stop : CheckArm}
    (hanswers : ∀ arm ∈ arms, (invoke (b.invocation arm)).Answers)
    (hstop : b.firstStop invoke arms = some stop) (hdeny : Denials deny) :
    ((∃ arm ∈ arms, (invoke (b.invocation arm)).verdict = some .allow) ∧
        b.ask decodeError invoke arms approve deny = .ok .allow) ∨
      ((invoke (b.invocation stop)).denies = true ∧
        ∃ o, b.ask decodeError invoke arms approve deny = .ok (.deny o)) ∨
      ((invoke (b.invocation stop)).denies = false ∧
        ∃ error, b.ask decodeError invoke arms approve deny = .error error) := by
  induction arms generalizing approve deny with
  | nil => cases hstop
  | cons arm arms ih =>
    rw [List.forall_mem_cons] at hanswers
    by_cases hstops : (invoke (b.invocation arm)).stops = true
    · simp only [firstStop, List.find?_cons, hstops, Option.some.injEq] at hstop
      subst hstop
      exact .inr (ask_stops decodeError arms approve deny hstops)
    · simp only [firstStop, List.find?_cons, hstops] at hstop
      by_cases hallow : (invoke (b.invocation arm)).verdict = some .allow
      · exact .inl ⟨⟨arm, List.mem_cons_self, hallow⟩, ask_allow hallow⟩
      · obtain ⟨deny', hdeny', hnext⟩ := ask_next decodeError arms approve hanswers.1 (Bool.eq_false_iff.2 hstops) hallow hdeny
        rw [hnext]
        obtain ⟨⟨x, hx, hxallow⟩, heq⟩ | hrest := ih _ hanswers.2 hstop hdeny'
        · exact .inl ⟨⟨x, List.mem_cons_of_mem arm hx, hxallow⟩, heq⟩
        · exact .inr hrest

/-- The verdict of a judged batch. -/
def verdictOf (r : Except BoltError (Bool × Judgement)) : Option Judgement := r.toOption.map Prod.snd

/-- What the rule says of an answer: any allow executes, an arm without a check among them; else
the first approval's flow; else a refusal. -/
structure Documented (b : Batch Actor) (invoke : Invocation Actor → GuestOutcome) (arms : List CheckArm)
    (j : Option Judgement) : Prop where
  allow : (∃ arm ∈ arms, arm.check = false ∨ (invoke (b.invocation arm)).verdict = some .allow) →
    j = some .allow
  approve : ∀ flow, (∀ arm ∈ arms, arm.check = true ∧ (invoke (b.invocation arm)).verdict ≠ some .allow) →
    b.firstFlow invoke arms = some flow → j = some (.approve flow)
  deny : (∀ arm ∈ arms, arm.check = true ∧ (invoke (b.invocation arm)).verdict ≠ some .allow) →
    b.firstFlow invoke arms = none → ∃ o, j = some (.deny o)

/-- An arm has no check, no check refuses or fails, or none of them allows or approves and the
first that refuses or fails is one the act refuses. -/
def Steady (b : Batch Actor) (invoke : Invocation Actor → GuestOutcome) (arms : List CheckArm) : Prop :=
  (∃ arm ∈ arms, arm.check = false) ∨
    (∀ arm ∈ arms, (invoke (b.invocation arm)).stops = false) ∨
    ((∀ arm ∈ arms, (invoke (b.invocation arm)).verdict ≠ some .allow ∧
        (invoke (b.invocation arm)).flow = none) ∧
      ∀ stop ∈ b.firstStop invoke arms, (invoke (b.invocation stop)).denies = true)

theorem judge_of_unchecked {e : Engine Actor} (h : ∃ arm ∈ arms, arm.check = false) :
    b.judge e arms = .ok (false, .allow) := by
  obtain ⟨arm, harm, hcheck⟩ := h
  rw [judge, if_neg (List.ne_nil_of_mem harm), if_pos]
  rw [List.any_eq_true]
  exact ⟨arm, harm, by simp [hcheck]⟩

/-- Where every arm has a check, the verdict is the loop's. -/
theorem verdictOf_judge (hchecked : ∀ arm ∈ arms, arm.check = true) :
    verdictOf (b.judge ⟨some invoke, decodeError⟩ arms) =
      (b.ask decodeError invoke arms none none).toOption := by
  have hany : ¬ arms.any (fun arm => !arm.check) = true := by
    rw [List.any_eq_true]
    rintro ⟨arm, harm, h⟩
    rw [hchecked arm harm] at h
    cases h
  by_cases hnil : arms = []
  · subst hnil
    rfl
  · rw [judge, if_neg hnil, if_neg hany]
    dsimp only
    cases b.ask decodeError invoke arms none none <;> rfl

theorem firstFlow_eq_none :
    b.firstFlow invoke arms = none ↔ ∀ arm ∈ arms, (invoke (b.invocation arm)).flow = none := by
  rw [firstFlow, List.findSome?_eq_none_iff]

theorem firstStop_eq_none :
    b.firstStop invoke arms = none ↔ ∀ arm ∈ arms, (invoke (b.invocation arm)).stops = false := by
  simp [firstStop]

theorem denials_none : Denials none := by
  rintro x ⟨⟩

/-- A loop that nothing stops is judged as documented. -/
theorem documented_of_not_stops (hchecked : ∀ arm ∈ arms, arm.check = true)
    (hanswers : ∀ arm ∈ arms, (invoke (b.invocation arm)).Answers)
    (hstops : ∀ arm ∈ arms, (invoke (b.invocation arm)).stops = false) :
    b.Documented invoke arms (verdictOf (b.judge ⟨some invoke, decodeError⟩ arms)) := by
  rw [verdictOf_judge hchecked]
  obtain ⟨hallow, hrest⟩ := ask_of_not_stops decodeError none hanswers hstops denials_none
  refine ⟨?_, ?_, ?_⟩
  · rintro ⟨arm, harm, hcheck | hverdict⟩
    · rw [hchecked arm harm] at hcheck
      cases hcheck
    · rw [hallow ⟨arm, harm, hverdict⟩]
      rfl
  · intro flow hno hflow
    obtain ⟨deny', -, heq⟩ := hrest fun arm harm => (hno arm harm).2
    rw [heq, hflow]
    rfl
  · intro hno hflow
    obtain ⟨deny', hdeny', heq⟩ := hrest fun arm harm => (hno arm harm).2
    rw [heq, hflow]
    cases deny' with
    | none => exact ⟨_, rfl⟩
    | some x =>
      obtain ⟨o, rfl⟩ := hdeny' x rfl
      exact ⟨o, rfl⟩

/-- An arm without a check allows the batch, whatever the guest would answer. -/
theorem documented_of_unchecked {e : Engine Actor} (h : ∃ arm ∈ arms, arm.check = false) :
    b.Documented invoke arms (verdictOf (b.judge e arms)) := by
  rw [judge_of_unchecked h]
  obtain ⟨arm, harm, hcheck⟩ := h
  refine ⟨fun _ => rfl, fun flow hall => ?_, fun hall => ?_⟩
  · rw [(hall arm harm).1] at hcheck
    cases hcheck
  · rw [(hall arm harm).1] at hcheck
    cases hcheck

/-- A steady batch is judged as documented. -/
theorem documented_of_steady (decodeError : Json → String)
    (hanswers : ∀ arm ∈ arms, arm.check = true → (invoke (b.invocation arm)).Answers)
    (h : b.Steady invoke arms) :
    b.Documented invoke arms (verdictOf (b.judge ⟨some invoke, decodeError⟩ arms)) := by
  by_cases hchecked : ∀ arm ∈ arms, arm.check = true
  · replace hanswers := fun arm harm => hanswers arm harm (hchecked arm harm)
    obtain ⟨arm, harm, hcheck⟩ | hstops | ⟨hnone, hdenies⟩ := h
    · exact documented_of_unchecked ⟨arm, harm, hcheck⟩
    · exact documented_of_not_stops hchecked hanswers hstops
    · cases hstop : b.firstStop invoke arms with
      | none => exact documented_of_not_stops hchecked hanswers (firstStop_eq_none.1 hstop)
      | some stop =>
        have hasked : ∃ o, b.ask decodeError invoke arms none none = .ok (.deny o) := by
          obtain ⟨⟨arm, harm, hallow⟩, -⟩ | ⟨-, hdeny⟩ | ⟨hfalse, -⟩ :=
            ask_of_firstStop decodeError none hanswers hstop denials_none
          · exact absurd hallow (hnone arm harm).1
          · exact hdeny
          · rw [hdenies stop hstop] at hfalse
            cases hfalse
        obtain ⟨o, hasked⟩ := hasked
        rw [verdictOf_judge hchecked, hasked]
        refine ⟨?_, fun flow _ hflow => ?_, fun _ _ => ⟨o, rfl⟩⟩
        · rintro ⟨arm, harm, hcheck | hallow⟩
          · rw [hchecked arm harm] at hcheck
            cases hcheck
          · exact absurd hallow (hnone arm harm).1
        · rw [firstFlow_eq_none.2 fun arm harm => (hnone arm harm).2] at hflow
          cases hflow
  · push Not at hchecked
    obtain ⟨arm, harm, hcheck⟩ := hchecked
    exact documented_of_unchecked ⟨arm, harm, Bool.eq_false_iff.2 hcheck⟩

/-- The order of the arms decides no steady batch that is allowed. -/
theorem allowed_of_perm {arms' : List CheckArm}
    (hanswers : ∀ arm ∈ arms, arm.check = true → (invoke (b.invocation arm)).Answers)
    (h : b.Steady invoke arms) (hperm : arms'.Perm arms)
    (hallowed : verdictOf (b.judge ⟨some invoke, decodeError⟩ arms) = some .allow) :
    verdictOf (b.judge ⟨some invoke, decodeError⟩ arms') = some .allow := by
  have hdocumented := documented_of_steady decodeError hanswers h
  have hsome : ∃ arm ∈ arms, arm.check = false ∨ (invoke (b.invocation arm)).verdict = some .allow := by
    by_contra hno
    push Not at hno
    have hall : ∀ arm ∈ arms, arm.check = true ∧ (invoke (b.invocation arm)).verdict ≠ some .allow :=
      fun arm harm => ⟨by simpa using (hno arm harm).1, (hno arm harm).2⟩
    cases hflow : b.firstFlow invoke arms with
    | some flow =>
      rw [hdocumented.approve flow hall hflow] at hallowed
      cases hallowed
    | none =>
      obtain ⟨o, ho⟩ := hdocumented.deny hall hflow
      rw [ho] at hallowed
      cases hallowed
  have hsteady : b.Steady invoke arms' := by
    obtain ⟨arm, harm, hcheck⟩ | hstops | ⟨hnone, -⟩ := h
    · exact .inl ⟨arm, hperm.mem_iff.2 harm, hcheck⟩
    · exact .inr (.inl fun arm harm => hstops arm (hperm.mem_iff.1 harm))
    · obtain ⟨arm, harm, hcheck | hallow⟩ := hsome
      · exact .inl ⟨arm, hperm.mem_iff.2 harm, hcheck⟩
      · exact absurd hallow (hnone arm harm).1
  obtain ⟨arm, harm, hallow⟩ := hsome
  refine (documented_of_steady decodeError (fun x hx => hanswers x (hperm.mem_iff.1 hx)) hsteady).allow ?_
  exact ⟨arm, hperm.mem_iff.2 harm, hallow⟩

/-- A batch whose first arm refuses or fails is not allowed. -/
theorem not_allowed_of_head (decodeError : Json → String) (hchecked : ∀ x ∈ arm :: arms, x.check = true)
    (hstops : (invoke (b.invocation arm)).stops = true) :
    verdictOf (b.judge ⟨some invoke, decodeError⟩ (arm :: arms)) ≠ some .allow := by
  rw [verdictOf_judge hchecked]
  obtain ⟨-, o, ho⟩ | ⟨-, error, herror⟩ :=
    ask_stops decodeError arms none none hstops
  · rw [ho]
    rintro ⟨⟩
  · rw [herror]
    rintro ⟨⟩

/-- The batches judged as documented in every order of their arms are the steady ones. -/
theorem documented_iff (b : Batch Actor) (decodeError : Json → String)
    (invoke : Invocation Actor → GuestOutcome) (arms : List CheckArm)
    (hanswers : ∀ arm ∈ arms, arm.check = true → (invoke (b.invocation arm)).Answers) :
    (b.Documented invoke arms (verdictOf (b.judge ⟨some invoke, decodeError⟩ arms)) ∧
      ∀ arms' : List CheckArm, arms'.Perm arms →
        verdictOf (b.judge ⟨some invoke, decodeError⟩ arms) = some .allow →
        verdictOf (b.judge ⟨some invoke, decodeError⟩ arms') = some .allow) ↔
      b.Steady invoke arms := by
  constructor
  · rintro ⟨hdocumented, hperm⟩
    by_contra hsteady
    rw [Steady] at hsteady
    push Not at hsteady
    obtain ⟨hchecked, ⟨stop, hstop, hstops⟩, hrest⟩ := hsteady
    replace hchecked : ∀ arm ∈ arms, arm.check = true := fun arm harm => by simpa using hchecked arm harm
    replace hanswers := fun arm harm => hanswers arm harm (hchecked arm harm)
    -- with a failing arm first the batch is not allowed, so it is not allowed as it stands
    have hno : verdictOf (b.judge ⟨some invoke, decodeError⟩ arms) ≠ some .allow := by
      intro hallowed
      have hmoved := List.perm_cons_erase hstop
      refine not_allowed_of_head decodeError ?_ (by simpa using hstops) (hperm _ hmoved.symm hallowed)
      exact fun x hx => hchecked x (hmoved.mem_iff.2 hx)
    have hnone : ∀ arm ∈ arms, (invoke (b.invocation arm)).verdict ≠ some .allow := fun arm harm h =>
      hno (hdocumented.allow ⟨arm, harm, .inr h⟩)
    have hall := fun arm harm => And.intro (hchecked arm harm) (hnone arm harm)
    cases hfirst : b.firstStop invoke arms with
    | none => exact hstops (firstStop_eq_none.1 hfirst stop hstop)
    | some first =>
      have hasked := ask_of_firstStop decodeError none hanswers hfirst denials_none
      rw [verdictOf_judge hchecked] at hdocumented
      cases hflow : b.firstFlow invoke arms with
      | some flow =>
        have happrove := hdocumented.approve flow hall hflow
        obtain ⟨⟨arm, harm, hallow⟩, -⟩ | ⟨-, o, ho⟩ | ⟨-, error, herror⟩ := hasked
        · exact hnone arm harm hallow
        · rw [ho] at happrove
          cases happrove
        · rw [herror] at happrove
          cases happrove
      | none =>
        obtain ⟨x, hx, hdenies⟩ := hrest fun arm harm => ⟨hnone arm harm, firstFlow_eq_none.1 hflow arm harm⟩
        obtain rfl := Option.some.inj (hfirst.symm.trans hx)
        obtain ⟨o, ho⟩ := hdocumented.deny hall hflow
        obtain ⟨⟨arm, harm, hallow⟩, -⟩ | ⟨htrue, -⟩ | ⟨-, error, herror⟩ := hasked
        · exact hnone arm harm hallow
        · exact hdenies htrue
        · rw [herror] at ho
          cases ho
  · exact fun h => ⟨documented_of_steady decodeError hanswers h, fun arms' hperm => allowed_of_perm hanswers h hperm⟩

/-- An update of an invoice. -/
def invoice : Batch String where
  auth := { actor := "member:m1", policies := ["clerk", "owner"] }
  bindings := { now := "2024-05-01T08:00:00Z", today := "2024-05-01", tz := "UTC" }
  seed := "act1"
  model := "invoice"
  verb := .update
  input := [.object []]

/-- The clerk's check fails; the owner's allows. -/
def clerkFails (i : Invocation String) : GuestOutcome :=
  if i.target = "clerk.invoice.update" then .failed ⟨"guestError", "guest", "total is undefined"⟩
  else .ok (.object [("kind", .string "allow")])

def clerk : CheckArm := ⟨"clerk", true⟩

def owner : CheckArm := ⟨"owner", true⟩

/-- A failing check before an allowing one refuses the batch that it allows after it. -/
theorem failing_first_refuses :
    ¬ (invoice.Documented clerkFails [clerk, owner]
      (verdictOf (invoice.judge ⟨some clerkFails, fun _ => ""⟩ [clerk, owner]))) ∧
    verdictOf (invoice.judge ⟨some clerkFails, fun _ => ""⟩ [owner, clerk]) = some .allow := by
  refine ⟨fun h => ?_, by decide⟩
  have hallow := h.allow ⟨owner, by decide, .inr (by decide)⟩
  exact absurd hallow (by decide)

def manager : CheckArm := ⟨"manager", true⟩

/-- The clerk's check denies, the manager's asks for two steps, the owner's allows. -/
def eachAnswers (i : Invocation String) : GuestOutcome :=
  if i.target = "clerk.invoice.update" then .ok (.object [("kind", .string "deny"), ("message", .string "total")])
  else if i.target = "manager.invoice.update" then
    .ok (.object [("kind", .string "approve"), ("flow", .object [("kind", .string "steps"),
      ("steps", .array [.object [("name", .string "lead"), ("teams", .array []), ("users", .array [.string "u1"])]]),
      ("superseded_by", .array [])])])
  else .ok (.object [("kind", .string "allow")])

/-- The owner's allow decides, wherever it stands among a denial and an approval. -/
theorem documented_iff_each :
    invoice.Documented eachAnswers [clerk, manager, owner]
      (verdictOf (invoice.judge ⟨some eachAnswers, fun _ => ""⟩ [clerk, manager, owner])) ∧
    ∀ arms' : List CheckArm, arms'.Perm [clerk, manager, owner] →
      verdictOf (invoice.judge ⟨some eachAnswers, fun _ => ""⟩ [clerk, manager, owner]) = some .allow →
      verdictOf (invoice.judge ⟨some eachAnswers, fun _ => ""⟩ arms') = some .allow :=
  (documented_iff invoice (fun _ => "") eachAnswers [clerk, manager, owner] (by decide)).2 (.inr (.inl (by decide)))

-- the approval stands where no arm allows
example : (eachAnswers (invoice.invocation manager)).flow.isSome = true := by decide

end Batch

end Norbital.Bolt.Judge

import Norbital.Lib.Runs
import Mathlib.Data.List.Nodup
import Mathlib.Data.List.Count

/-!
# Sign-in codes

`sendCode` and `verifyCode` of `bolt/src/engine/identity/session.ts`, for one email
address.  A verification reads the challenge, compares and acts in a later
statement; between the two any other call may read or act.

Instants are milliseconds, a code's MAC is the code, and a challenge carries the
number of the `sendCode` that issued it.  The rate windows and the idempotency gate
of a statement are its inputs.
-/

namespace Norbital.Bolt.Identity

open Norbital.Lib

def CODE_MS : Nat := 10 * 60000

def ATTEMPTS : Nat := 3

/-- The address's row of `sys_challenge`. -/
structure Challenge where
  issue : Nat
  code_mac : String
  attempts : Nat
  expires_at : Nat
  deriving DecidableEq, Repr

/-- The member with the address. -/
structure User where
  id : Nat
  active : Bool
  deriving DecidableEq, Repr

/-- A `verifyCode` after its read and its comparison: what it holds on to. -/
structure Verify where
  ch : Challenge
  checked : Bool
  user : Option User
  inv : Option Nat
  /-- The caller's anonymous user was found, to become the account. -/
  upgraded : Bool
  deriving DecidableEq, Repr

/-- A session as its statement made it: the challenge it used, and the one its code was compared
with. -/
structure Session where
  used : Challenge
  compared : Challenge
  created_at : Nat
  deriving DecidableEq, Repr

structure Server where
  now : Nat
  challenge : Option Challenge
  issued : Nat
  user : Option User
  /-- The open invitation to the address. -/
  invitation : Option Nat
  signup : Bool
  /-- The `sendCode` calls past their checks, each with its instant. -/
  sends : List Nat
  verifies : List Verify
  /-- The challenges codes were compared against, by issue. -/
  compared : List Nat
  sessions : List Session
  /-- The challenges whose use made a new member. -/
  births : List Nat
  users : Nat
  deriving DecidableEq, Repr

namespace Server

/-- A workspace with nobody at the address. -/
def init (signup : Bool) : Server :=
  ⟨0, none, 0, none, none, signup, [], [], [], [], [], 0⟩

variable (s : Server)

/-- `sendCode`'s checks: a member, an invitation or an open sign-up that the caller passed. -/
def sendRead (human : Bool) : Server :=
  match s.user with
  | some user => if user.active then { s with sends := s.sends ++ [s.now] } else s
  | none =>
    if s.invitation.isNone && !(s.signup && human) then s
    else { s with sends := s.sends ++ [s.now] }

/-- `sendCode`'s statement: the challenge is written over, with a fresh count. -/
def sendWrite (i : Nat) (code : String) (admitted : Bool) : Server :=
  match s.sends[i]? with
  | none => s
  | some now =>
    let s := { s with sends := s.sends.eraseIdx i }
    if admitted then
      { s with challenge := some ⟨s.issued + 1, code, 0, now + CODE_MS⟩, issued := s.issued + 1 }
    else s

/-- The text whose MAC is compared: six digits, or a text no challenge has. -/
def typedCode (code : String) : String :=
  if code.length = 6 ∧ code.toList.all Char.isDigit then code else "x"

/-- `verifyCode` up to its statement: the reads and the comparison. -/
def verifyRead (code : String) (upgraded : Bool) : Server :=
  match s.challenge with
  | none => s
  | some ch =>
    if ch.expires_at ≤ s.now then s
    else
      let s := { s with compared := ch.issue :: s.compared }
      let call : Verify :=
        ⟨ch, typedCode code = ch.code_mac, s.user, s.invitation, s.user.isNone && upgraded⟩
      -- a wrong code goes on to its statement; a right one is refused first where nobody may sign in
      if !call.checked then { s with verifies := s.verifies ++ [call] }
      else
        match s.user with
        | some user => if user.active then { s with verifies := s.verifies ++ [call] } else s
        | none =>
          if s.invitation.isNone && !s.signup then s
          else { s with verifies := s.verifies ++ [call] }

/-- The statement of a wrong code: `bump` and `gone`. -/
def wrong (n : Nat) : Server :=
  match s.challenge with
  | none => s
  | some ch =>
    -- the challenge as it was read: another guess in between leaves it alone
    if ch.attempts = n then
      if n + 1 < ATTEMPTS then { s with challenge := some { ch with attempts := n + 1 } }
      else { s with challenge := none }
    else s

/-- The statement of a right code: `used`, the newcomer's row, and the session.  A newcomer's row
beside a member with the address fails the statement. -/
def session (call : Verify) (admitted anonymous : Bool) : Server :=
  match s.challenge with
  | none => s
  | some ch =>
    if ch.attempts = call.ch.attempts ∧ admitted then
      let signedIn := { s with
        challenge := none
        sessions := s.sessions ++ [⟨ch, call.ch, s.now⟩] }
      match call.user with
      | some _ => signedIn
      | none =>
        -- the invitation that was read must still stand
        let invited := match call.inv with
          | some inv => s.invitation == some inv
          | none => true
        if invited && (!call.upgraded || anonymous) then
          if s.user.isSome then s
          else { signedIn with
            user := some ⟨s.users, true⟩
            users := s.users + 1
            invitation := call.inv.elim s.invitation fun _ => none
            births := s.births ++ [ch.issue] }
        else { s with challenge := none }
    else s

/-- A `verifyCode` acts. -/
def verifyWrite (i : Nat) (admitted anonymous : Bool) : Server :=
  match s.verifies[i]? with
  | none => s
  | some call =>
    let s := { s with verifies := s.verifies.eraseIdx i }
    if call.checked then s.session call admitted anonymous else s.wrong call.ch.attempts

end Server

/-- The steps of the calls, of the clock, and of the verbs that change who may sign in. -/
inductive Step where
  | tick (ms : Nat)
  | people (user : Option Bool) (invitation : Option Nat) (signup : Bool)
  | sendRead (human : Bool)
  | sendWrite (i : Nat) (code : String) (admitted : Bool)
  | verifyRead (code : String) (upgraded : Bool)
  | verifyWrite (i : Nat) (admitted anonymous : Bool)
  deriving DecidableEq, Repr

def step (s : Server) : Step → Server
  | .tick ms => { s with now := s.now + ms }
  | .people user invitation signup =>
    { s with user := user.map (⟨s.users, ·⟩), users := s.users + 1, invitation := invitation, signup := signup }
  | .sendRead human => s.sendRead human
  | .sendWrite i code admitted => s.sendWrite i code admitted
  | .verifyRead code upgraded => s.verifyRead code upgraded
  | .verifyWrite i admitted anonymous => s.verifyWrite i admitted anonymous

def run (s : Server) (steps : List Step) : Server := steps.foldl step s

/-- Three guesses, and one session and one new member, to a challenge; a session only for the
challenge whose code was compared, before it expires. -/
structure Guarded (s : Server) : Prop where
  guesses : ∀ issue, s.compared.count issue ≤ ATTEMPTS
  current : ∀ x ∈ s.sessions, x.used.issue = x.compared.issue ∧ x.created_at < x.used.expires_at
  sessions : (s.sessions.map (·.used.issue)).Nodup
  births : s.births.Nodup

/-- A challenge is used at most once, and a member is born only of its use. -/
structure SingleUse (s : Server) : Prop where
  issued : ∀ ch ∈ s.challenge, ch.issue ≤ s.issued
  used : ∀ x ∈ s.sessions, x.used.issue ≤ s.issued
  unused : ∀ ch ∈ s.challenge, ∀ x ∈ s.sessions, x.used.issue ≠ ch.issue
  sessions : (s.sessions.map (·.used.issue)).Nodup
  births : s.births.Sublist (s.sessions.map (·.used.issue))

variable {s s' : Server}

/-- A step that neither uses a challenge nor issues one. -/
theorem SingleUse.of_eq (h : SingleUse s) (hissued : s'.issued = s.issued)
    (hsessions : s'.sessions = s.sessions) (hbirths : s'.births = s.births)
    (hchallenge : ∀ ch ∈ s'.challenge, ∃ old ∈ s.challenge, old.issue = ch.issue) : SingleUse s' := by
  constructor
  · intro ch hch
    obtain ⟨old, hold, heq⟩ := hchallenge ch hch
    rw [hissued, ← heq]
    exact h.issued old hold
  · rw [hissued, hsessions]
    exact h.used
  · intro ch hch x hx
    obtain ⟨old, hold, heq⟩ := hchallenge ch hch
    rw [hsessions] at hx
    rw [← heq]
    exact h.unused old hold x hx
  · rw [hsessions]
    exact h.sessions
  · rw [hsessions, hbirths]
    exact h.births

/-- What the statement of a right code does: nothing, or it uses the challenge, whose attempts are
those read, without a session, with one, or with one and a new member. -/
theorem session_cases (s : Server) (call : Verify) (admitted anonymous : Bool) :
    s.session call admitted anonymous = s ∨
    ∃ ch, s.challenge = some ch ∧ ch.attempts = call.ch.attempts ∧
      (s.session call admitted anonymous = { s with challenge := none } ∨
      s.session call admitted anonymous =
        { s with challenge := none, sessions := s.sessions ++ [⟨ch, call.ch, s.now⟩] } ∨
      ∃ user users invitation, s.session call admitted anonymous =
        { s with
          challenge := none
          sessions := s.sessions ++ [⟨ch, call.ch, s.now⟩]
          user := user
          users := users
          invitation := invitation
          births := s.births ++ [ch.issue] }) := by
  cases hch : s.challenge with
  | none => exact .inl (by rw [Server.session, hch])
  | some ch =>
    rw [Server.session, hch]
    dsimp only
    by_cases hused : ch.attempts = call.ch.attempts ∧ admitted = true
    · rw [if_pos hused]
      cases call.user with
      | some user => exact .inr ⟨ch, rfl, hused.1, .inr (.inl rfl)⟩
      | none =>
        dsimp only
        split_ifs
        · exact .inl rfl
        · exact .inr ⟨ch, rfl, hused.1, .inr (.inr ⟨_, _, _, rfl⟩)⟩
        · exact .inr ⟨ch, rfl, hused.1, .inl rfl⟩
    · rw [if_neg hused]
      exact .inl rfl

/-- What the statement of a wrong code does: nothing, or it counts the attempt or takes the
challenge away. -/
theorem wrong_cases (s : Server) (n : Nat) :
    s.wrong n = s ∨ s.wrong n = { s with challenge := none } ∨
    ∃ ch, s.challenge = some ch ∧ n + 1 < ATTEMPTS ∧
      s.wrong n = { s with challenge := some { ch with attempts := n + 1 } } := by
  cases hch : s.challenge with
  | none => exact .inl (by rw [Server.wrong, hch])
  | some ch =>
    rw [Server.wrong, hch]
    dsimp only
    split_ifs with hn hleft
    · exact .inr (.inr ⟨ch, rfl, hleft, rfl⟩)
    · exact .inr (.inl rfl)
    · exact .inl rfl

/-- What a read does: nothing, or it notes the comparison and may hold a call on the challenge. -/
theorem verifyRead_cases (s : Server) (code : String) (upgraded : Bool) :
    s.verifyRead code upgraded = s ∨
    ∃ ch calls, s.challenge = some ch ∧
      s.verifyRead code upgraded =
        { s with compared := ch.issue :: s.compared, verifies := s.verifies ++ calls } ∧
      ∀ call ∈ calls, call.ch = ch := by
  cases hch : s.challenge with
  | none => exact .inl (by rw [Server.verifyRead, hch])
  | some ch =>
    rw [Server.verifyRead, hch]
    dsimp only
    have hone : ∀ call : Verify, call.ch = ch → ∀ c ∈ [call], c.ch = ch := by
      intro call hcall c hc
      rw [List.mem_singleton.1 hc, hcall]
    have hnone : s.verifies = s.verifies ++ [] := (List.append_nil _).symm
    by_cases hexpired : ch.expires_at ≤ s.now
    · rw [if_pos hexpired]
      exact .inl rfl
    rw [if_neg hexpired]
    split
    · exact .inr ⟨ch, _, rfl, rfl, hone _ rfl⟩
    · split
      · split
        · exact .inr ⟨ch, _, rfl, rfl, hone _ rfl⟩
        · exact .inr ⟨ch, [], rfl, by rw [← hnone], by simp⟩
      · split
        · exact .inr ⟨ch, [], rfl, by rw [← hnone], by simp⟩
        · exact .inr ⟨ch, _, rfl, rfl, hone _ rfl⟩

theorem sendRead_cases (s : Server) (human : Bool) :
    s.sendRead human = s ∨ s.sendRead human = { s with sends := s.sends ++ [s.now] } := by
  rw [Server.sendRead]
  cases s.user with
  | some user =>
    dsimp only
    split_ifs
    · exact .inr rfl
    · exact .inl rfl
  | none =>
    dsimp only
    split_ifs
    · exact .inl rfl
    · exact .inr rfl

theorem SingleUse.session (h : SingleUse s) (call : Verify) (admitted anonymous : Bool) :
    SingleUse (s.session call admitted anonymous) := by
  rcases session_cases s call admitted anonymous with heq | ⟨ch, hch, -, heq | heq | ⟨user, users, inv, heq⟩⟩
  · rwa [heq]
  · rw [heq]
    exact h.of_eq rfl rfl rfl (by simp)
  all_goals
    have hnodup : ((s.sessions ++ [(⟨ch, call.ch, s.now⟩ : Session)]).map (·.used.issue)).Nodup := by
      rw [List.map_append, List.nodup_append]
      refine ⟨h.sessions, by simp, ?_⟩
      rintro i hi j hj rfl
      obtain ⟨x, hx, hxi⟩ := List.mem_map.1 hi
      exact h.unused ch hch x hx (hxi.trans (by simpa using hj))
    have hused : ∀ x ∈ s.sessions ++ [(⟨ch, call.ch, s.now⟩ : Session)], x.used.issue ≤ s.issued := by
      intro x hx
      rcases List.mem_append.1 hx with hx | hx
      · exact h.used x hx
      · rw [List.mem_singleton.1 hx]
        exact h.issued ch hch
    rw [heq]
    refine ⟨by simp, hused, by simp, hnodup, ?_⟩
    simp only [List.map_append]
  · exact h.births.trans (List.sublist_append_left _ _)
  · exact h.births.append (List.Sublist.refl _)

theorem SingleUse.step (h : SingleUse s) (a : Step) : SingleUse (step s a) := by
  cases a with
  | tick ms => exact h.of_eq rfl rfl rfl fun ch hch => ⟨ch, hch, rfl⟩
  | people user invitation signup => exact h.of_eq rfl rfl rfl fun ch hch => ⟨ch, hch, rfl⟩
  | sendRead human =>
    rw [Identity.step]
    rcases sendRead_cases s human with heq | heq <;> rw [heq]
    · exact h
    · exact h.of_eq rfl rfl rfl fun ch hch => ⟨ch, hch, rfl⟩
  | sendWrite i code admitted =>
    rw [Identity.step, Server.sendWrite]
    cases s.sends[i]? with
    | none => exact h
    | some now =>
      dsimp only
      split_ifs
      · refine ⟨?_, fun x hx => Nat.le_succ_of_le (h.used x hx), ?_, h.sessions, h.births⟩
        · rintro ch hch
          cases hch
          exact Nat.le_refl _
        · rintro ch hch x hx
          cases hch
          exact Nat.ne_of_lt (Nat.lt_succ_of_le (h.used x hx))
      · exact h.of_eq rfl rfl rfl fun ch hch => ⟨ch, hch, rfl⟩
  | verifyRead code upgraded =>
    rw [Identity.step]
    rcases verifyRead_cases s code upgraded with heq | ⟨ch, calls, -, heq, -⟩ <;> rw [heq]
    · exact h
    · exact h.of_eq rfl rfl rfl fun ch hch => ⟨ch, hch, rfl⟩
  | verifyWrite i admitted anonymous =>
    rw [Identity.step, Server.verifyWrite]
    cases s.verifies[i]? with
    | none => exact h
    | some call =>
      dsimp only
      have herase : SingleUse { s with verifies := s.verifies.eraseIdx i } :=
        h.of_eq rfl rfl rfl fun ch hch => ⟨ch, hch, rfl⟩
      split_ifs
      · exact herase.session call admitted anonymous
      · rcases wrong_cases { s with verifies := s.verifies.eraseIdx i } call.ch.attempts with
          heq | heq | ⟨ch, hch, -, heq⟩ <;> rw [heq]
        · exact herase
        · exact herase.of_eq rfl rfl rfl (by simp)
        · refine herase.of_eq rfl rfl rfl ?_
          rintro ch' hch'
          cases hch'
          exact ⟨ch, hch, rfl⟩

/-- The condition of a step: a code is compared once every earlier comparison with its challenge is
counted; no challenge is written over while a right code waits for its statement; and that
statement runs before the challenge expires. -/
def Step.Serial (s : Server) : Step → Prop
  | .sendWrite _ _ admitted => admitted → ∀ call ∈ s.verifies, call.checked = false
  | .verifyRead _ _ => ∀ ch ∈ s.challenge, s.compared.count ch.issue ≤ ch.attempts
  | .verifyWrite i _ _ => ∀ call ∈ s.verifies[i]?, call.checked → s.now < call.ch.expires_at
  | _ => True

instance (s : Server) : (a : Step) → Decidable (a.Serial s)
  | .sendWrite _ _ admitted => inferInstanceAs (Decidable (admitted → ∀ call ∈ s.verifies, _))
  | .verifyRead _ _ => inferInstanceAs (Decidable (∀ ch ∈ s.challenge, _))
  | .verifyWrite i _ _ => inferInstanceAs (Decidable (∀ call ∈ s.verifies[i]?, _ → _))
  | .tick _ | .people .. | .sendRead _ => isTrue trivial

/-- What holds between the steps of such a run. -/
structure Counted (s : Server) : Prop where
  attempts : ∀ ch ∈ s.challenge, ch.attempts < ATTEMPTS
  guesses : ∀ issue, s.compared.count issue ≤ ATTEMPTS
  waiting : ∀ call ∈ s.verifies, call.checked → ∀ ch ∈ s.challenge,
    ch.issue = call.ch.issue ∧ ch.expires_at = call.ch.expires_at
  current : ∀ x ∈ s.sessions, x.used.issue = x.compared.issue ∧ x.created_at < x.used.expires_at

/-- A step that compares nothing, makes no session and holds no new call. -/
theorem Counted.of_eq (h : Counted s) (hcompared : s'.compared = s.compared)
    (hsessions : s'.sessions = s.sessions) (hverifies : s'.verifies ⊆ s.verifies)
    (hchallenge : ∀ ch ∈ s'.challenge, ch.attempts < ATTEMPTS ∧
      ∃ old ∈ s.challenge, old.issue = ch.issue ∧ old.expires_at = ch.expires_at) : Counted s' := by
  constructor
  · exact fun ch hch => (hchallenge ch hch).1
  · rw [hcompared]
    exact h.guesses
  · intro call hcall hchecked ch hch
    obtain ⟨-, old, hold, hissue, hexpires⟩ := hchallenge ch hch
    rw [← hissue, ← hexpires]
    exact h.waiting call (hverifies hcall) hchecked old hold
  · rw [hsessions]
    exact h.current

theorem Counted.session (h : Counted s) {call : Verify}
    (hcall : ∀ ch ∈ s.challenge, ch.issue = call.ch.issue ∧ ch.expires_at = call.ch.expires_at)
    (htime : s.now < call.ch.expires_at) (admitted anonymous : Bool) :
    Counted (s.session call admitted anonymous) := by
  rcases session_cases s call admitted anonymous with heq | ⟨ch, hch, -, heq | heq | ⟨user, users, inv, heq⟩⟩
  · rwa [heq]
  · rw [heq]
    exact h.of_eq rfl rfl (fun _ => id) (by simp)
  all_goals
    obtain ⟨hissue, hexpires⟩ := hcall ch hch
    rw [heq]
    refine ⟨by simp, h.guesses, by simp, ?_⟩
    intro x hx
    rcases List.mem_append.1 hx with hx | hx
    · exact h.current x hx
    · rw [List.mem_singleton.1 hx]
      exact ⟨hissue, hexpires ▸ htime⟩

theorem Counted.step (h : Counted s) (a : Step) (ha : a.Serial s) : Counted (step s a) := by
  have hkeep : ∀ ch ∈ s.challenge, ch.attempts < ATTEMPTS ∧
      ∃ old ∈ s.challenge, old.issue = ch.issue ∧ old.expires_at = ch.expires_at :=
    fun ch hch => ⟨h.attempts ch hch, ch, hch, rfl, rfl⟩
  cases a with
  | tick ms => exact h.of_eq rfl rfl (fun _ => id) hkeep
  | people user invitation signup => exact h.of_eq rfl rfl (fun _ => id) hkeep
  | sendRead human =>
    rw [Identity.step]
    rcases sendRead_cases s human with heq | heq <;> rw [heq]
    · exact h
    · exact h.of_eq rfl rfl (fun _ => id) hkeep
  | sendWrite i code admitted =>
    rw [Identity.step, Server.sendWrite]
    cases s.sends[i]? with
    | none => exact h
    | some now =>
      dsimp only
      split_ifs with hadmitted
      -- a new code stands while no guess at the one before it is checked
      · refine ⟨?_, h.guesses, ?_, h.current⟩
        · rintro ch hch
          cases hch
          exact Nat.zero_lt_succ 2
        · intro call hcall hchecked
          rw [ha hadmitted call hcall] at hchecked
          cases hchecked
      · exact h.of_eq rfl rfl (fun _ => id) hkeep
  | verifyRead code upgraded =>
    rw [Identity.step]
    rcases verifyRead_cases s code upgraded with heq | ⟨ch, calls, hch, heq, hcalls⟩ <;> rw [heq]
    · exact h
    -- the guess counts for the code it is checked against, and waits for it
    · refine ⟨h.attempts, ?_, ?_, h.current⟩
      · intro issue
        have hcount := ha ch hch
        have hattempts := h.attempts ch hch
        have hguesses := h.guesses issue
        rw [List.count_cons]
        split_ifs with heq
        · rw [← eq_of_beq heq]
          omega
        · exact hguesses
      · intro call hcall hchecked ch' hch'
        rcases List.mem_append.1 hcall with hcall | hcall
        · exact h.waiting call hcall hchecked ch' hch'
        · rw [hcalls call hcall]
          rw [hch] at hch'
          cases hch'
          exact ⟨rfl, rfl⟩
  | verifyWrite i admitted anonymous =>
    rw [Identity.step, Server.verifyWrite]
    cases hcall : s.verifies[i]? with
    | none => exact h
    | some call =>
      dsimp only
      have hsub : s.verifies.eraseIdx i ⊆ s.verifies := (List.eraseIdx_sublist _ _).subset
      have herase : Counted { s with verifies := s.verifies.eraseIdx i } := h.of_eq rfl rfl hsub hkeep
      split_ifs with hchecked
      · exact herase.session (h.waiting call (List.mem_of_getElem? hcall) hchecked)
          (ha call hcall hchecked) admitted anonymous
      · rcases wrong_cases { s with verifies := s.verifies.eraseIdx i } call.ch.attempts with
          heq | heq | ⟨ch, hch, hleft, heq⟩ <;> rw [heq]
        · exact herase
        · exact herase.of_eq rfl rfl (fun _ => id) (by simp)
        · refine herase.of_eq rfl rfl (fun _ => id) ?_
          rintro ch' hch'
          cases hch'
          exact ⟨hleft, ch, hch, rfl, rfl⟩

theorem counted_init (signup : Bool) : Counted (Server.init signup) := by
  constructor <;> simp [Server.init]

theorem singleUse_init (signup : Bool) : SingleUse (Server.init signup) := by
  constructor <;> simp [Server.init]

/-- In every run whose comparisons are each counted before the next, in which no code is sent while a
right one waits and none waits past its expiry, a code allows three guesses and one session. -/
theorem run_guarded (signup : Bool) (steps : List Step)
    (hs : Meets step (fun s a => a.Serial s) (Server.init signup) steps) :
    Guarded (run (Server.init signup) steps) := by
  have hcounted : Counted (run (Server.init signup) steps) :=
    hs.invariant (fun s a h ha => h.step a ha) (counted_init signup)
  have hsingle : SingleUse (run (Server.init signup) steps) :=
    invariant_run (fun s a h => h.step a) (singleUse_init signup) steps
  exact ⟨hcounted.guesses, hcounted.current, hsingle.sessions, hsingle.sessions.sublist hsingle.births⟩

/-- A newcomer's wrong guess, then the right one. -/
def signsUp : List Step :=
  [.sendRead true, .sendWrite 0 "483920" true, .verifyRead "000000" false, .verifyWrite 0 true false,
    .verifyRead "483920" false, .verifyWrite 0 true false]

theorem signsUp_guarded : (run (Server.init true) signsUp).births = [1] ∧
    Guarded (run (Server.init true) signsUp) :=
  ⟨by decide, run_guarded true signsUp (by decide)⟩

/-- Four guesses read the challenge before any of them is counted. -/
def fourAtOnce : List Step :=
  [.sendRead true, .sendWrite 0 "483920" true, .verifyRead "000000" false, .verifyRead "000001" false,
    .verifyRead "000002" false, .verifyRead "000003" false]

/-- A code is sent again while a right answer to the one before waits for its statement. -/
def sentAgain : List Step :=
  [.sendRead true, .sendWrite 0 "483920" true, .verifyRead "483920" false, .sendRead true,
    .sendWrite 0 "118207" true, .verifyWrite 0 true false]

theorem fourAtOnce_unguarded : ¬ Guarded (run (Server.init true) fourAtOnce) ∧
    ¬ Guarded (run (Server.init true) sentAgain) := by
  constructor
  · intro h
    exact absurd (h.guesses 1) (by decide)
  · intro h
    exact absurd (h.current ⟨⟨2, "118207", 0, 600000⟩, ⟨1, "483920", 0, 600000⟩, 0⟩ (by decide)).1
      (by decide)

end Norbital.Bolt.Identity

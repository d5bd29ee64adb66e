import Mathlib.Data.List.Nodup
import Norbital.Lib.Entries
import Norbital.Lib.Runs

/-!
# Authorities

How a member's and an envoy's authority are resolved
(`bolt/src/engine/identity/actor.ts`): the row or spec as it is read, the party a
matched member is bound to, and the cache of compiled authorities by key.  A
resolution waits at every statement; between two of its steps any other may run,
and anyone may write the rows.

What a holder's policies grant and limit, as `compileAuthority` reads them off the
manifest, are functions of the holder.
-/

namespace Norbital.Bolt.Authorities

open Norbital.Lib

/-- The record a member is; `matched` where holding their address made it theirs. -/
structure Party where
  model : String
  id : String
  matched : Option Bool
  deriving DecidableEq, Repr

inductive UserKind where
  | staff | external | anonymous
  deriving DecidableEq, Repr

/-- A row of `sys_user`. -/
structure UserRow where
  id : String
  email : Option String
  phone : Option String
  kind : UserKind
  active : Bool
  admin : Bool
  team : Option String
  party : Option Party
  signup : Bool
  revision : Nat
  deriving DecidableEq, Repr

structure SourceTeam where
  name : String
  parent : Option String
  policies : List String

/-- The model a newcomer's record is of, and the fields that hold its addresses. -/
structure SignupParty where
  model : String
  email : Option String
  phone : Option String

structure Signup where
  policies : List String
  party : Option SignupParty

inductive Dm where
  | union | envoy
  deriving DecidableEq, Repr

structure EnvoySpec where
  policies : List String
  dm : Dm
  deriving DecidableEq, Repr

/-- A row of `sys_envoy`. -/
structure EnvoyRow where
  active : Bool
  policies : List String
  dm : Dm
  deriving DecidableEq, Repr

structure MemberActor where
  id : String
  email : Option String
  phone : Option String
  external : Bool
  teams : List String
  teamPath : List String
  admin : Bool
  party : Option (String × String)
  deriving DecidableEq, Repr

inductive EngineActor where
  | member (actor : MemberActor)
  | envoy (envoy channel sender : String) (member : Option String) (linked : Option MemberActor)
  deriving DecidableEq, Repr

/-- Whom an authority is compiled for. -/
structure Holder where
  actor : EngineActor
  policies : List String
  admin : Bool
  teamTree : List String
  deriving DecidableEq, Repr

/-- A release's declarations; `grants` and `limits` are what its policies give a holder. -/
structure Manifest (G L : Type) where
  teams : List (String × SourceTeam)
  signup : Option Signup
  envoys : List (String × EnvoySpec)
  policies : List String
  grants : Holder → G
  limits : Holder → L

/-- An envoy on a channel's `sys_integration` row at a revision, and who writes to it. -/
structure EnvoyAt where
  envoy : String
  channel : String
  revision : Nat
  sender : String
  deriving DecidableEq, Repr

/-- What an authority is cached under, within one release. -/
inductive Key where
  | member (id : String) (revision : Nat)
  | preview (id : String) (revision : Nat)
  | envoy (place : EnvoyAt) (member : Option String)
  | envoyBound (place : EnvoyAt) (mine : Key)
  | envoyDm (place : EnvoyAt) (mine : Key)
  | other (text : String)
  deriving DecidableEq, Repr

structure Authority (G L : Type) where
  key : Key
  actor : EngineActor
  admin : Bool
  policies : List String
  teamTree : List String
  grants : G
  limits : L
  deriving DecidableEq

variable {G L : Type}

/-- `compileAuthority`: an unknown policy confers nothing. -/
def compileAuthority (m : Manifest G L) (holder : Holder) (key : Key) : Authority G L where
  key
  actor := holder.actor
  admin := holder.admin
  policies := holder.policies.filter fun p => m.policies.contains p
  teamTree := holder.teamTree
  grants := m.grants holder
  limits := m.limits holder

namespace Manifest

variable (m : Manifest G L)

def graph (handle : String) : Option SourceTeam := m.teams.lookup handle

/-- The labels from a team up to its last declared ancestor. -/
def pathFrom : Nat → Option String → List String → List String
  | 0, _, _ => []
  | _ + 1, none, _ => []
  | fuel + 1, some handle, seen =>
    if seen.contains handle then []
    else
      match m.graph handle with
      | none => []
      | some team => team.name :: pathFrom fuel team.parent (handle :: seen)

def path (root : String) : List String := m.pathFrom (m.teams.length + 1) (some root) []

/-- The teams whose parent is `parent`, after those already out. -/
def children (parent : String) (out : List String) : List String :=
  m.teams.foldl (fun out t => if t.2.parent = some parent && !out.contains t.1 then out ++ [t.1] else out) out

def closureFrom : Nat → Nat → List String → List String
  | 0, _, out => out
  | fuel + 1, i, out =>
    match out[i]? with
    | none => out
    | some parent => closureFrom fuel (i + 1) (m.children parent out)

/-- A team and every declared descendant. -/
def closure (root : String) : List String := m.closureFrom (m.teams.length + 1) 0 [root]

/-- The member's team, where the release declares it. -/
def teamOf (u : UserRow) : Option String := u.team.filter fun team => (m.graph team).isSome

def memberActor (preview : Bool) (u : UserRow) : MemberActor where
  id := u.id
  email := u.email
  phone := u.phone
  external := u.kind = .external
  teams := (m.teamOf u).toList
  teamPath := ((m.teamOf u).map m.path).getD []
  admin := !preview && u.admin && u.kind = .staff
  party := u.party.map fun p => (p.model, p.id)

def memberPolicies (u : UserRow) : List String :=
  (((m.teamOf u).bind m.graph).elim [] SourceTeam.policies ++
    if u.signup then m.signup.elim [] Signup.policies else []).eraseDups

def memberHolder (preview : Bool) (u : UserRow) : Holder where
  actor := .member (m.memberActor preview u)
  policies := m.memberPolicies u
  admin := (m.memberActor preview u).admin
  teamTree := ((m.teamOf u).map m.closure).getD []

end Manifest

def memberKey (preview : Bool) (u : UserRow) : Key :=
  if preview then .preview u.id u.revision else .member u.id u.revision

/-- A member's authority compiled from their row. -/
def memberAuthority (m : Manifest G L) (preview : Bool) (u : UserRow) : Authority G L :=
  compileAuthority m (m.memberHolder preview u) (memberKey preview u)

/-- An envoy's turn. -/
structure EnvoyCall where
  envoy : String
  channel : String
  sender : String
  member : Option String
  dm : Bool
  deriving DecidableEq, Repr

namespace EnvoyCall

variable (o : EnvoyCall)

def place (revision : Nat) : EnvoyAt := ⟨o.envoy, o.channel, revision, o.sender⟩

def actor (linked : Option MemberActor) : EngineActor := .envoy o.envoy o.channel o.sender o.member linked

def ownHolder (policies : List String) : Holder := ⟨o.actor none, policies, false, []⟩

def ownKey (revision : Nat) : Key := .envoy (o.place revision) o.member

def boundHolder (policies : List String) (linked : MemberActor) (mine : Authority G L) : Holder :=
  ⟨o.actor (some linked), policies, false, mine.teamTree⟩

def boundKey (revision : Nat) (mine : Authority G L) : Key := .envoyBound (o.place revision) mine.key

def dmHolder (policies : List String) (linked : MemberActor) (mine : Authority G L) : Holder :=
  ⟨o.actor (some linked), (policies ++ mine.policies).eraseDups, mine.admin, mine.teamTree⟩

def dmKey (revision : Nat) (mine : Authority G L) : Key := .envoyDm (o.place revision) mine.key

end EnvoyCall

/-- When a row was read: the identity writes finished by then, and the instant. -/
structure Stamp where
  writes : Nat
  readAt : Nat
  deriving DecidableEq, Repr

/-- A member's row, held while no identity write has finished since. -/
structure Memo where
  row : UserRow
  stamp : Stamp
  deriving DecidableEq, Repr

def MEMO_MS : Nat := 900000

/-- What `Authorities` is built with. -/
structure Config (G L : Type) where
  manifest : Manifest G L
  max : Nat
  remember : Bool

structure Process (G L : Type) where
  cache : List (Key × Authority G L)
  rows : List (String × Memo)
  now : Nat
  identityWrites : Nat

variable (cfg : Config G L)

/-- `compile`: once per key; the oldest entry leaves a full cache. -/
def compile (holder : Holder) (key : Key) (p : Process G L) : Authority G L × Process G L :=
  match p.cache.lookup key with
  | some a => (a, p)
  | none =>
    let a := compileAuthority cfg.manifest holder key
    let cache := p.cache ++ [(key, a)]
    (a, { p with cache := if cfg.max < cache.length then cache.tail else cache })

/-- Whose party is decided by who holds their address. -/
def isMatched (u : UserRow) : Bool :=
  decide (u.kind = .external) && (cfg.manifest.signup.bind Signup.party).isSome &&
    (u.party.isNone || u.signup || decide ((u.party.bind Party.matched) = some true))

inductive Address where
  | phone (value : String)
  | email (value : String)
  deriving DecidableEq, Repr

def addressOf (party : SignupParty) (u : UserRow) : Option Address :=
  match u.phone, party.phone with
  | some value, some _ => some (.phone value)
  | _, _ =>
    match u.email, party.email with
    | some value, some _ => some (.email value)
    | _, _ => none

/-- The party `bind` settles on, where it is another than the member has. -/
def rebound (party : SignupParty) (u : UserRow) (holders : List String) : Option (Option Party) :=
  if u.party.any fun p => holders.contains p.id then none
  else
    match holders with
    | [only] => some (some ⟨party.model, only, some true⟩)
    | _ => if u.party.isNone then none else some none

/-- Where a `member` resolution is. -/
inductive MemberPhase (G L : Type) where
  | start
  | reading (stamp : Stamp)
  | read (stamp : Stamp) (found : Option UserRow)
  | matching (stamp : Stamp) (u : UserRow) (address : Address)
  | matched (stamp : Stamp) (u : UserRow) (holders : List String)
  | binding (stamp : Stamp) (u : UserRow) (party : Option Party)
  | bound (stamp : Stamp) (u : UserRow) (party : Option Party) (revision : Option Nat)
  | done (authority : Option (Authority G L))
  deriving DecidableEq

/-- Where an `envoy` resolution is. -/
inductive EnvoyPhase (G L : Type) where
  | start
  | readingSpec
  | readSpec (found : Option EnvoySpec)
  | readingRevision (spec : EnvoySpec)
  | readRevision (spec : EnvoySpec) (revision : Option Nat)
  | member (spec : EnvoySpec) (revision : Nat) (own : Authority G L) (id : String) (phase : MemberPhase G L)
  | done (spec : EnvoySpec) (authority : Option (Authority G L))
  /-- `unknownEnvoy`. -/
  | failed
  deriving DecidableEq

inductive Resolution (G L : Type) where
  | member (id : String) (preview : Bool) (phase : MemberPhase G L)
  | envoy (call : EnvoyCall) (phase : EnvoyPhase G L)
  deriving DecidableEq

/-- The member's authority from the row that is theirs. -/
def answer (preview : Bool) (u : UserRow) (p : Process G L) : MemberPhase G L × Process G L :=
  let (a, p) := compile cfg (cfg.manifest.memberHolder preview u) (memberKey preview u) p
  (.done (some a), p)

/-- The row `bind` answered, remembered unless it is a matched member's. -/
def settle (preview : Bool) (id : String) (stamp : Stamp) (u : UserRow) (p : Process G L) :
    MemberPhase G L × Process G L :=
  if cfg.remember && !isMatched cfg u then
    let rows := put id ⟨u, stamp⟩ p.rows
    answer cfg preview u { p with rows := if cfg.max < rows.length then rows.tail else rows }
  else answer cfg preview u p

/-- What `member` does next in the process. -/
def resumeMember (preview : Bool) (id : String) (p : Process G L) : MemberPhase G L → MemberPhase G L × Process G L
  | .start =>
    match p.rows.lookup id with
    | some held =>
      -- a remembered row serves while this process has written no identity, and for a short time
      if held.stamp.writes = p.identityWrites ∧ p.now - held.stamp.readAt < MEMO_MS then
        answer cfg preview held.row p
      else (.reading ⟨p.identityWrites, p.now⟩, { p with rows := without id p.rows })
    | none => (.reading ⟨p.identityWrites, p.now⟩, p)
  | .read stamp found =>
    match found with
    | none => (.done none, p)
    | some u =>
      if !u.active || decide (u.kind = .anonymous) then (.done none, p)
      else if !isMatched cfg u then settle cfg preview id stamp u p
      else
        match (cfg.manifest.signup.bind Signup.party).bind fun party => addressOf party u with
        | none => settle cfg preview id stamp u p
        | some address => (.matching stamp u address, p)
  | .matched stamp u holders =>
    match (cfg.manifest.signup.bind Signup.party).bind fun party => rebound party u holders with
    | none => settle cfg preview id stamp u p
    | some party => (.binding stamp u party, p)
  -- the party is bound by a write of the row, which the process counts
  | .bound stamp u party revision =>
    settle cfg preview id stamp { u with party, revision := revision.getD (u.revision + 1) }
      { p with identityWrites := p.identityWrites + 1 }
  | phase => (phase, p)

/-- The rest of `envoy`, once its member's authority is there. -/
def joined (o : EnvoyCall) (spec : EnvoySpec) (revision : Nat) (own : Authority G L)
    (mine : Option (Authority G L)) (p : Process G L) : EnvoyPhase G L × Process G L :=
  match mine with
  | none => (.done spec none, p)
  | some mine =>
    match mine.actor with
    | .member linked =>
      match spec.dm with
      | .envoy =>
        let (a, p) := compile cfg (o.boundHolder spec.policies linked mine) (o.boundKey revision mine) p
        (.done spec (some a), p)
      | .union =>
        -- the rights of both, under the envoy's own limits
        let (both, p) := compile cfg (o.dmHolder spec.policies linked mine) (o.dmKey revision mine) p
        (.done spec (some { both with limits := own.limits }), p)
    | _ => (.done spec none, p)

/-- What `envoy` does next in the process. -/
def resumeEnvoy (o : EnvoyCall) (p : Process G L) : EnvoyPhase G L → EnvoyPhase G L × Process G L
  | .start =>
    match cfg.manifest.envoys.lookup o.envoy with
    | some spec => (.readingRevision spec, p)
    | none => (.readingSpec, p)
  | .readSpec found =>
    match found with
    | none => (.failed, p)
    | some spec => (.readingRevision spec, p)
  | .readRevision spec revision =>
    match revision with
    | none => (.done spec none, p)
    | some revision =>
      let (own, p) := compile cfg (o.ownHolder spec.policies) (o.ownKey revision) p
      match o.dm, o.member with
      | true, some id => (.member spec revision own id .start, p)
      | _, _ => (.done spec (some own), p)
  | .member spec revision own id phase =>
    match resumeMember cfg false id p phase with
    | (.done mine, p) => joined cfg o spec revision own mine p
    | (phase, p) => (.member spec revision own id phase, p)
  | phase => (phase, p)

/-- The row a write leaves. -/
def UserRow.changed (u : UserRow) (change : UserRow → UserRow) : UserRow :=
  { change u with id := u.id, revision := u.revision + 1 }

/-- The tenant's rows; `history` keeps each image a `sys_user` row has had. -/
structure Db where
  users : List UserRow
  history : List UserRow
  envoys : List (String × EnvoyRow)
  /-- `sys_integration`: the active rows that no one owns, by id and envoy. -/
  channels : List ((String × String) × Nat)
  /-- The records of the signup's model that hold an address. -/
  holders : Address → List String

namespace Db

variable (db : Db)

def user (id : String) : Option UserRow := db.users.find? fun u => u.id = id

/-- A member's row as it was at a revision. -/
def rowAt (id : String) (revision : Nat) : Option UserRow :=
  db.history.find? fun u => u.id = id && u.revision = revision

/-- An identity write: the row changes and its revision rises by one. -/
def write (id : String) (change : UserRow → UserRow) : Db :=
  match db.user id with
  | none => db
  | some u =>
    { db with
      users := db.users.map fun x => if x.id = id then u.changed change else x
      history := db.history ++ [u.changed change] }

/-- `runtimeEnvoy`. -/
def runtimeEnvoy (id : String) : Option EnvoySpec :=
  match db.envoys.lookup id with
  | none => none
  | some row => if row.active && !row.policies.isEmpty then some ⟨row.policies, row.dm⟩ else none

end Db

/-- `bind`'s statement, guarded by the party alone. -/
def bindStatement (db : Db) (u : UserRow) (party : Option Party) : Option Nat × Db :=
  match db.user u.id with
  | none => (none, db)
  | some row =>
    if row.party = u.party then (some (row.revision + 1), db.write u.id fun x => { x with party })
    else (none, db)

/-- The statement a `member` resolution waits for. -/
def memberStatement (id : String) (db : Db) : MemberPhase G L → MemberPhase G L × Db
  | .reading stamp => (.read stamp (db.user id), db)
  | .matching stamp u address => (.matched stamp u ((db.holders address).take 2), db)
  | .binding stamp u party =>
    let (revision, db) := bindStatement db u party
    (.bound stamp u party revision, db)
  | phase => (phase, db)

/-- The statement an `envoy` resolution waits for. -/
def envoyStatement (o : EnvoyCall) (db : Db) : EnvoyPhase G L → EnvoyPhase G L × Db
  | .readingSpec => (.readSpec (db.runtimeEnvoy o.envoy), db)
  | .readingRevision spec => (.readRevision spec (db.channels.lookup (o.channel, o.envoy)), db)
  | .member spec revision own id phase =>
    let (phase, db) := memberStatement id db phase
    (.member spec revision own id phase, db)
  | phase => (phase, db)

/-- The policies an envoy's resolution compiled under a channel's revision. -/
structure Seen where
  envoy : String
  channel : String
  revision : Nat
  policies : List String
  deriving DecidableEq, Repr

structure Server (G L : Type) where
  process : Process G L
  db : Db
  resolutions : List (Resolution G L)
  seen : List Seen

/-- What the next step of an envoy's resolution adds to what was seen. -/
def EnvoyPhase.sees (o : EnvoyCall) : EnvoyPhase G L → List Seen
  | .readRevision spec (some revision) => [⟨o.envoy, o.channel, revision, spec.policies⟩]
  | _ => []

inductive Step (G L : Type) where
  | member (id : String) (preview : Bool)
  | envoy (call : EnvoyCall)
  /-- The process goes on with a resolution. -/
  | resume (i : Nat)
  /-- The statement a resolution waits for runs. -/
  | statement (i : Nat)
  /-- A write of a member's row: team, administrator flag, activity, party or any other field. -/
  | write (id : String) (change : UserRow → UserRow)
  | envoyRow (id : String) (row : EnvoyRow)
  /-- A channel's row is written, paused or removed. -/
  | channel (id envoy : String) (revision : Option Nat)
  | records (holders : Address → List String)
  /-- Another kind of authority is compiled. -/
  | compiled (holder : Holder) (text : String)
  /-- Time passes, and identity writes of other calls finish. -/
  | time (ms writes : Nat)

namespace Server

variable (s : Server G L)

def resume (i : Nat) : Server G L :=
  match s.resolutions[i]? with
  | none => s
  | some (.member id preview phase) =>
    let (phase, process) := resumeMember cfg preview id s.process phase
    { s with process, resolutions := s.resolutions.set i (.member id preview phase) }
  | some (.envoy o phase) =>
    let seen := s.seen ++ phase.sees o
    let (phase, process) := resumeEnvoy cfg o s.process phase
    { s with process, seen, resolutions := s.resolutions.set i (.envoy o phase) }

def statement (i : Nat) : Server G L :=
  match s.resolutions[i]? with
  | none => s
  | some (.member id preview phase) =>
    let (phase, db) := memberStatement id s.db phase
    { s with db, resolutions := s.resolutions.set i (.member id preview phase) }
  | some (.envoy o phase) =>
    let (phase, db) := envoyStatement o s.db phase
    { s with db, resolutions := s.resolutions.set i (.envoy o phase) }

def step : Step G L → Server G L
  | .member id preview => { s with resolutions := s.resolutions ++ [.member id preview .start] }
  | .envoy call => { s with resolutions := s.resolutions ++ [.envoy call .start] }
  | .resume i => s.resume cfg i
  | .statement i => s.statement i
  | .write id change => { s with db := s.db.write id change }
  | .envoyRow id row => { s with db := { s.db with envoys := put id row s.db.envoys } }
  | .channel id envoy revision =>
    { s with db := { s.db with channels := alter (id, envoy) (fun _ => revision) s.db.channels } }
  | .records holders => { s with db := { s.db with holders } }
  | .compiled holder text => { s with process := (compile cfg holder (.other text) s.process).2 }
  | .time ms writes =>
    { s with process := { s.process with
        now := s.process.now + ms, identityWrites := s.process.identityWrites + writes } }

/-- A process that has resolved nothing, over any rows. -/
def init (db : Db) : Server G L :=
  ⟨⟨[], [], 0, 0⟩, { db with history := db.users }, [], []⟩

end Server

end Norbital.Bolt.Authorities

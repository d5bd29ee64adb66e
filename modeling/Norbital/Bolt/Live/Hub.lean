import Mathlib.Data.List.Basic
import Mathlib.Algebra.BigOperators.Group.List.Basic
import Mathlib.Algebra.Ring.Int.Defs

/-!
# The live hub

The live engine of `bolt/src/engine/live/hub.ts`: connections hold registered
views, a lane routes commits to them, and every database read is asked in one
step, runs in a later one and is continued in a third.  Between these any other
step may come.

The reader, the judgement of a captured row (`decide`, `resolve`, `apply`) and
the size of an answer are the parameter `Engine`.  A view is an object the
hub's continuations hold on to after its id was dropped or registered again, so
views live in a heap and a connection maps ids to references.
-/

namespace Norbital.Bolt.Live

def MiB : Nat := 1024 * 1024

/-- Bytes per subscription, views per connection, bytes retained per cell. -/
structure LiveLimits where
  subscriptionBytes : Nat
  perConnection : Nat
  cellBytes : Nat

/-- `LIVE`. -/
def LIVE : LiveLimits := ⟨2 * MiB, 500, 128 * MiB⟩

/-- A typed error: its code and message. -/
structure Failure where
  code : String
  message : String
  deriving DecidableEq, Repr

inductive PatchOp (Json Row : Type) where
  | upsert (index : Nat) (row : Row)
  | remove (id : String)
  | setMeta (key : String) (value : Json)
  deriving DecidableEq, Repr

/-- What one captured row means for a view. -/
inductive Decision where
  | skip
  | hit
  | unknown
  deriving DecidableEq, Repr

/-- What one captured row is to a view: its row as the view shows it (`none`: not in it), a `get` of
it, or a re-read. -/
inductive Resolved (Read Row Captured : Type) where
  | row (c : Captured) (row : Option Row)
  | get (c : Captured) (read : Read)
  | full
  deriving DecidableEq, Repr

/-- The models changed by native metadata, each with its records (`none`: all). -/
abbrev SyncChanges := List (String × Option (List String))

/-- The reader and the row logic the hub runs on, over the types they are about. -/
structure Engine where
  Db : Type
  Authority : Type
  Read : Type
  Json : Type
  Row : Type
  Captured : Type
  /-- `reader.run` of one read, as of the database it runs on. -/
  run : Db → Authority → Read → Except Failure Json
  check : Read → Except Failure Unit
  bytesOf : Json → Nat
  same : Json → Json → Bool
  isInbox : Read → Bool
  /-- Whether a metadata change touches the view. -/
  metadataHits : Read → Option Json → SyncChanges → Bool
  /-- The notices of a batch that an inbox read has not seen arrive. -/
  arrivals : Read → Option Nat → List (Captured × Nat) → List Row
  decide : Authority → Read → Option Json → Captured → Decision
  resolve : Authority → Read → Captured → Resolved Read Row Captured
  /-- A fetched row: `some none` for `null`, `none` when it is no row. -/
  rowOf : Json → Option (Option Row)
  /-- The value with the row applied and the ops that did it, or `none` when only a re-read is exact. -/
  apply : Authority → Read → Json → Captured → Option Row → Option (Json × List (PatchOp Json Row))

/-- A registered view: its read and the answer it holds. -/
structure View (Read Json : Type) where
  id : String
  read : Read
  bytes : Nat
  value : Option Json
  arrivalsAfter : Option Nat
  deriving DecidableEq, Repr

/-- A connection's id mapped to a view object. -/
structure Entry where
  conn : Nat
  id : String
  ref : Nat
  deriving DecidableEq, Repr

structure Conn (Authority : Type) where
  id : Nat
  authority : Authority
  deriving DecidableEq, Repr

inductive Frame (Json Row : Type) where
  | hello (v : Nat)
  | answer (view : String) (v : Nat) (value : Json) (arrivals : List Row)
  | patch (view : String) (v : Nat) (ops : List (PatchOp Json Row))
  | error (view : String) (failure : Failure)
  | version (v : Nat)
  | close (release : String)
  deriving DecidableEq, Repr

/-- Who waits for an `answer`: a registration, an authorization, or a flush that reads again. -/
inductive Origin where
  | register (ref : Nat)
  | authorize
  | again
  deriving DecidableEq, Repr

/-- What a read's values are for. -/
inductive Purpose (Read Row Captured : Type) where
  | answer (views : List Nat) (origin : Origin)
  | flush (full : List Nat) (deltas : List (Nat × List (Resolved Read Row Captured)))
      (batch : List (Captured × Nat))
  deriving DecidableEq, Repr

/-- How far a read is: asked under an authority, asked again one read at a time after the batch
failed, or run. -/
inductive Phase (Authority Json : Type) where
  | asked (authority : Authority)
  | each (authority : Authority) (answers : List (Option (Except Failure Json)))
  | ran (answers : List (Except Failure Json))

/-- A read in flight. -/
structure Job (E : Engine) where
  conn : Nat
  reads : List E.Read
  phase : Phase E.Authority E.Json
  purpose : Purpose E.Read E.Row E.Captured

/-- The hub, with the database it reads, the reads in flight and the frames it sent. -/
structure Hub (E : Engine) where
  db : E.Db
  conns : List (Conn E.Authority)
  /-- The connections' `views` maps, in insertion order. -/
  views : List Entry
  heap : List (View E.Read E.Json)
  v : Nat
  routed : Nat
  retained : Int
  n : Nat
  pending : List (E.Captured × Nat)
  queued : Bool
  syncChanges : SyncChanges
  jobs : List (Job E)
  sent : List (Nat × Frame E.Json E.Row)

section

variable {E : Engine}

namespace Hub

def init (db : E.Db) : Hub E :=
  ⟨db, [], [], [], 0, 0, 0, 0, [], false, [], [], []⟩

variable (h : Hub E)

/-- `conns.get`. -/
def connOf (conn : Nat) : Option (Conn E.Authority) := h.conns.find? (·.id == conn)

/-- `conn.views.get`. -/
def viewOf (conn : Nat) (id : String) : Option Nat :=
  (h.views.find? fun e => e.conn == conn && e.id == id).map (·.ref)

/-- The views of a connection, in insertion order. -/
def viewsOf (conn : Nat) : List Nat := (h.views.filter (·.conn == conn)).map (·.ref)

def bytesAt (ref : Nat) : Nat := ((h.heap[ref]?).map (·.bytes)).getD 0

def readsOf (refs : List Nat) : List E.Read := refs.filterMap fun ref => (h.heap[ref]?).map (·.read)

def send (conn : Nat) (frame : Frame E.Json E.Row) : Hub E :=
  { h with sent := h.sent ++ [(conn, frame)] }

def queue : Hub E := { h with queued := true }

def setView (ref : Nat) (view : View E.Read E.Json) : Hub E :=
  { h with heap := h.heap.set ref view }

/-- `drop`. -/
def drop (conn : Nat) (id : String) : Hub E :=
  match h.viewOf conn id with
  | none => h
  | some ref =>
    { h with
      retained := h.retained - h.bytesAt ref
      views := h.views.filter fun e => !(e.conn == conn && e.id == id) }

/-- `disconnect`. -/
def disconnect (conn : Nat) : Hub E :=
  match h.connOf conn with
  | none => h
  | some _ =>
    { h with
      retained := h.retained - ((h.viewsOf conn).map fun ref => (h.bytesAt ref : Int)).sum
      views := h.views.filter fun e => !(e.conn == conn)
      conns := h.conns.filter fun c => !(c.id == conn) }

end Hub

/-- The budget a view's new answer breaks. -/
def overBudget (h : Hub E) (view : View E.Read E.Json) (bytes : Nat) :
    Option Failure :=
  if bytes > LIVE.subscriptionBytes then
    some ⟨"subscriptionTooLarge",
      s!"the answer is {bytes} bytes; a live view holds at most {LIVE.subscriptionBytes}"⟩
  else if h.retained - view.bytes + bytes > LIVE.cellBytes then
    some ⟨"cellBudget", s!"the cell retains at most {LIVE.cellBytes} bytes of live answers"⟩
  else none

/-- `put`: sends a view's new value, its ops as a patch or the whole answer; over a budget, the view
errors alone. -/
def put (h : Hub E) (conn ref : Nat) (value : E.Json)
    (ops : Option (List (PatchOp E.Json E.Row))) (arrivals : List E.Row) : Hub E :=
  match h.heap[ref]? with
  | none => h
  | some view =>
    -- a whole answer that changes nothing is not sent
    if ops.isNone && arrivals.isEmpty && view.value.any (E.same · value) then h
    else
      let bytes := E.bytesOf value
      match overBudget h view bytes with
      | some failure => (h.drop conn view.id).send conn (.error view.id failure)
      | none =>
        { h.setView ref { view with bytes := bytes, value := some value } with
          retained := h.retained + ((bytes : Int) - view.bytes) }.send conn
            (match ops with
              | none => .answer view.id h.routed value arrivals
              | some ops => .patch view.id h.routed ops)

/-- One value of a read handed to the view it was asked for, while its id is registered. -/
def hand (h : Hub E) (conn ref : Nat)
    (answer : Option (Except Failure E.Json)) (arrivals : View E.Read E.Json → List E.Row) : Hub E :=
  match h.heap[ref]?, answer with
  | some view, some result =>
    if (h.viewOf conn view.id).isSome then
      match result with
      | .ok value => put h conn ref value none (arrivals view)
      | .error failure => h.send conn (.error view.id failure)
    else h
  | _, _ => h

/-- The values handed to their views in turn. -/
def handAll (h : Hub E) (conn : Nat) (refs : List Nat)
    (answers : List (Except Failure E.Json)) (arrivals : View E.Read E.Json → List E.Row) : Hub E :=
  refs.zipIdx.foldl (fun h (ref, i) => hand h conn ref answers[i]? arrivals) h

/-- What follows an `answer`: a registration notes the sequence its arrivals start after, a flush
that read again ends its connection's turn. -/
def finish (h : Hub E) (conn : Nat) :
    Origin → Hub E
  | .register ref =>
    match h.heap[ref]? with
    | none => h
    | some view => h.setView ref { view with arrivalsAfter := some h.v }
  | .authorize => h
  | .again => h.send conn (.version h.routed)

/-- `answer`: one pipelined read of the views under the connection's authority. -/
def answer (h : Hub E) (conn : Conn E.Authority) (refs : List Nat)
    (origin : Origin) : Hub E :=
  if (h.readsOf refs).isEmpty then finish h conn.id origin
  else { h with jobs := h.jobs ++ [⟨conn.id, h.readsOf refs, .asked conn.authority,
    .answer refs origin⟩] }

/-- What a batch is to a view. -/
inductive Judged (Read Row Captured : Type) where
  | leave
  | full
  | delta (rows : List (Resolved Read Row Captured))

def Resolved.isFull : Resolved E.Read E.Row E.Captured → Bool
  | .full => true
  | _ => false

/-- A view judged against every captured row of the batch. -/
def judge (authority : E.Authority) (view : View E.Read E.Json) (metadata : SyncChanges)
    (batch : List (E.Captured × Nat)) : Judged E.Read E.Row E.Captured :=
  let decisions := batch.map fun c => (c.1, E.decide authority view.read view.value c.1)
  let unsure := E.metadataHits view.read view.value metadata || decisions.any (·.2 == .unknown)
  let hits := (decisions.filter (·.2 == .hit)).map (·.1)
  if !unsure && hits.isEmpty then .leave
  else
    -- inbox counts cover rows beyond the displayed page
    let rows := if unsure || view.value.isNone || E.isInbox view.read then [.full]
      else hits.map (E.resolve authority view.read)
    if rows.any Resolved.isFull then .full else .delta rows

/-- The reads of single rows a delta asks for. -/
def getsOf (rows : List (Resolved E.Read E.Row E.Captured)) : List E.Read :=
  rows.filterMap fun
    | .get _ read => some read
    | _ => none

/-- A delta's rows beside the values fetched for them, and the values left. -/
def gotOf : List (Resolved E.Read E.Row E.Captured) → List (Except Failure E.Json) →
    List (Resolved E.Read E.Row E.Captured × Option (Except Failure E.Json)) × List (Except Failure E.Json)
  | [], answers => ([], answers)
  | .get c read :: rows, answers =>
    let (got, rest) := gotOf rows answers.tail
    ((.get c read, answers.head?) :: got, rest)
  | x :: rows, answers =>
    let (got, rest) := gotOf rows answers
    ((x, none) :: got, rest)

/-- The rows applied to a working value; `none` when only a re-read is exact. -/
def applyRows (authority : E.Authority) (read : E.Read) :
    E.Json → List (Resolved E.Read E.Row E.Captured × Option (Except Failure E.Json)) →
    Option (E.Json × List (PatchOp E.Json E.Row))
  | work, [] => some (work, [])
  | work, (x, got) :: rest => do
    let (c, row) ← match x, got with
      | .row c row, _ => some (c, row)
      | .get c _, some (.ok value) => (E.rowOf value).map (c, ·)
      | _, _ => none
    let (work, ops) ← E.apply authority read work c row
    let (work, more) ← applyRows authority read work rest
    return (work, ops ++ more)

/-- The deltas of a connection put in turn, with the views that have to be read again. -/
def putDeltas (h : Hub E) (conn : Nat) (authority : E.Authority) :
    List (Nat × List (Resolved E.Read E.Row E.Captured)) → List (Except Failure E.Json) → List Nat →
    Hub E × List Nat
  | [], _, again => (h, again)
  | (ref, rows) :: deltas, answers, again =>
    let (got, rest) := gotOf rows answers
    match h.heap[ref]? with
    | none => putDeltas h conn authority deltas rest again
    | some view =>
      if (h.viewOf conn view.id).isNone then putDeltas h conn authority deltas rest again
      else
        match view.value.bind fun value => applyRows authority view.read value got with
        -- not exact: the view is read again after the others
        | none => putDeltas h conn authority deltas rest (again ++ [ref])
        | some (value, ops) =>
          -- no op, no frame
          if ops.isEmpty then putDeltas h conn authority deltas rest again
          else putDeltas (put h conn ref value (some ops) []) conn authority deltas rest again

/-- A connection's turn of a flush after its fallbacks were read: whole views, then deltas, then the
views whose delta was not exact are read again. -/
def flushed (h : Hub E) (conn : Nat) (full : List Nat)
    (deltas : List (Nat × List (Resolved E.Read E.Row E.Captured))) (batch : List (E.Captured × Nat))
    (answers : List (Except Failure E.Json)) : Hub E :=
  match h.connOf conn with
  | none => h
  | some c =>
    let h := handAll h conn full answers fun view => E.arrivals view.read view.arrivalsAfter batch
    let (h, again) := putDeltas h conn c.authority deltas (answers.drop full.length) []
    answer h c again .again

/-- A connection's turn of a flush: its views are judged and the fallbacks asked in one round trip. -/
def flushConn (metadata : SyncChanges) (batch : List (E.Captured × Nat))
    (h : Hub E) (conn : Conn E.Authority) : Hub E :=
  let judged := (h.viewsOf conn.id).filterMap fun ref =>
    (h.heap[ref]?).map fun view => (ref, judge conn.authority view metadata batch)
  let full := judged.filterMap fun
    | (ref, .full) => some ref
    | _ => none
  let deltas := judged.filterMap fun
    | (ref, .delta rows) => some (ref, rows)
    | _ => none
  let reads := h.readsOf full ++ deltas.flatMap fun d => getsOf d.2
  if reads.isEmpty then flushed h conn.id full deltas batch []
  else { h with jobs := h.jobs ++ [⟨conn.id, reads, .asked conn.authority, .flush full deltas batch⟩] }

def Job.flushes (job : Job E) : Bool :=
  match job.purpose with
  | .flush .. => true
  | .answer _ .again => true
  | .answer .. => false

/-- `flush`, once the lane takes it: the flush before it has answered every connection. -/
def flush (h : Hub E) : Hub E :=
  if h.queued && !h.jobs.any Job.flushes then
    h.conns.foldl (flushConn h.syncChanges h.pending)
      { h with queued := false, routed := h.v, pending := [], syncChanges := [] }
  else h

def connect (h : Hub E) (authority : E.Authority) : Hub E :=
  Hub.send { h with n := h.n + 1, conns := h.conns ++ [⟨h.n + 1, authority⟩] } (h.n + 1)
    (.hello h.routed)

/-- `register`: the id's earlier view is dropped, a new one is held and asked. -/
def register (h : Hub E) (conn : Nat) (id : String) (read : E.Read) :
    Except Failure (Hub E) :=
  match h.connOf conn with
  | none => .error ⟨"notFound", "the live connection is gone"⟩
  | some c => do
    E.check read
    if (h.viewOf conn id).isNone && decide ((h.viewsOf conn).length ≥ LIVE.perConnection) then
      throw ⟨"tooManySubscriptions", s!"a connection holds at most {LIVE.perConnection} live views"⟩
    let h := h.drop conn id
    let ref := h.heap.length
    return answer { h with
      heap := h.heap ++ [⟨id, read, 0, none, none⟩]
      views := h.views ++ [⟨conn, id, ref⟩] } c [ref] (.register ref)

/-- `authorize`: the connection's answers are of another authority now, so each is read again. -/
def authorize (h : Hub E) (conn : Nat) (authority : E.Authority) : Hub E :=
  match h.connOf conn with
  | none => h
  | some _ =>
    let refs := h.viewsOf conn
    -- what the views hold was read under the old authority
    answer { h with
      conns := h.conns.map fun c => if c.id == conn then { c with authority := authority } else c
      heap := h.heap.mapIdx fun ref view => if ref ∈ refs then { view with value := none } else view }
      ⟨conn, authority⟩ refs .authorize

/-- `publish` after a commit: its RETURNING set is queued for the lane. -/
def publish (h : Hub E) (db : E.Db) (captured : List E.Captured) : Hub E :=
  if captured.isEmpty then { h with db := db }
  else { h with
    db := db, v := h.v + 1, pending := h.pending ++ captured.map (·, h.v + 1) }.queue

/-- `syncChanged` after a native metadata commit. -/
def syncChanged (h : Hub E) (db : E.Db) (model : String)
    (records : Option (List String)) : Hub E :=
  if records = some [] then { h with db := db }
  else
    let previous := h.syncChanges.lookup model
    -- `none` stands for every record of the model
    let changed := match records, previous with
      | none, _ => none
      | _, some none => none
      | some records, some (some ids) => some (ids ++ records)
      | some records, none => some records
    { h with
      db := db, v := h.v + 1
      syncChanges := (model, changed) :: h.syncChanges.filter (·.1 != model) }.queue

/-- The batch runs; a failing batch is asked again one read at a time. -/
def Job.read (h : Hub E) (job : Job E) : Job E :=
  match job.phase with
  | .asked authority =>
    let answers := job.reads.map (E.run h.db authority)
    if answers.any fun a => a matches .error _ then
      -- one refused read must not fail the others
      let authority := ((h.connOf job.conn).map (·.authority)).getD authority
      { job with phase := .each authority (job.reads.map fun _ => none) }
    else { job with phase := .ran answers }
  | _ => job

/-- One read of a batch that failed runs. -/
def Job.readOne (h : Hub E) (i : Nat) (job : Job E) : Job E :=
  match job.phase, job.reads[i]? with
  | .each authority answers, some read =>
    if (answers[i]?).join.isSome then job
    else
      let answers := answers.set i (some (E.run h.db authority read))
      if answers.all Option.isSome then { job with phase := .ran (answers.filterMap id) }
      else { job with phase := .each authority answers }
  | _, _ => job

/-- A read that ran is continued. -/
def Job.resume (h : Hub E)
    (job : Job E) (answers : List (Except Failure E.Json)) : Hub E :=
  match job.purpose with
  | .answer refs origin => finish (handAll h job.conn refs answers fun _ => []) job.conn origin
  | .flush full deltas batch => flushed h job.conn full deltas batch answers

/-- The steps of the hub and of the database it reads. -/
inductive Step (E : Engine) where
  | connect (authority : E.Authority)
  | register (conn : Nat) (id : String) (read : E.Read)
  | drop (conn : Nat) (id : String)
  | disconnect (conn : Nat)
  | close (release : String)
  | authorize (conn : Nat) (authority : E.Authority)
  | publish (db : E.Db) (captured : List E.Captured)
  | syncChanged (db : E.Db) (model : String) (records : Option (List String))
  | flush
  | read (job : Nat)
  | readOne (job i : Nat)
  | resume (job : Nat)

def step (h : Hub E) :
    Step E → Hub E
  | .connect authority => connect h authority
  | .register conn id read =>
    match register h conn id read with
    | .ok h => h
    | .error _ => h
  | .drop conn id => if (h.connOf conn).isSome then h.drop conn id else h
  | .disconnect conn => h.disconnect conn
  | .close release => h.conns.foldl (fun h c => (h.send c.id (.close release)).disconnect c.id) h
  | .authorize conn authority => authorize h conn authority
  | .publish db captured => publish h db captured
  | .syncChanged db model records => syncChanged h db model records
  | .flush => flush h
  | .read j => { h with jobs := h.jobs.modify j (Job.read h) }
  | .readOne j i => { h with jobs := h.jobs.modify j (Job.readOne h i) }
  | .resume j =>
    match h.jobs[j]? with
    | some job =>
      match job.phase with
      | .ran answers => job.resume { h with jobs := h.jobs.eraseIdx j } answers
      | _ => h
    | none => h

/-- The hub after a sequence of steps. -/
def run (h : Hub E) (steps : List (Step E)) : Hub E :=
  steps.foldl step h

end

end Norbital.Bolt.Live

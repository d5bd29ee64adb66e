import Mathlib.Data.List.Nodup
import Mathlib.Tactic.SplitIfs
import Norbital.Lib.Runs

/-!
# Runs and who finishes them

The rows of `sys_run` under the statements of `bolt/src/engine/runs/index.ts`:
`claim`, `boot`, `interrupted`, the finishing update of `execute`, and `stop`.
Any number of generations claim, boot and execute; an execution holds its row as it
was claimed, whatever became of it since.

Instants are milliseconds, an output is its JSON text.
-/

namespace Norbital.Bolt.Runs

open Norbital.Lib

inductive RunState where
  | queued | running | succeeded | failed | stopped | skipped
  deriving DecidableEq, Repr

structure RunError where
  code : String
  message : String
  deriving DecidableEq, Repr

/-- An entry of `results`. -/
structure RunAttempt where
  attempt : Nat
  time : Nat
  state : RunState
  output : Option String
  error : Option RunError
  deriving DecidableEq, Repr

/-- A row of `sys_run`. -/
structure Run where
  id : String
  automation : String
  cause : String
  state : RunState
  attempts : Nat
  leases : Nat
  due_at : Nat
  finished_at : Option Nat
  output : Option String
  error : Option RunError
  results : List RunAttempt
  deriving DecidableEq, Repr

/-- Whether the run is succeeded, failed or stopped. -/
def Run.finished (run : Run) : Bool :=
  run.state = .succeeded || run.state = .failed || run.state = .stopped

/-- What of a run is fixed once it is finished. -/
def Run.result (run : Run) : RunState × Option String × Option RunError :=
  (run.state, run.output, run.error)

/-- `TURN_RUN`. -/
def TURN_RUN : String := "agent.turn"

/-- The rows an execution claimed; `ended` once it was interrupted or wrote its result.  `taken` are
the runs a boot failed or a later claim took since: nothing reads it but the condition below. -/
structure Execution where
  rows : List Run
  ended : Bool
  taken : List String
  deriving DecidableEq, Repr

/-- An execution after other generations took runs. -/
def Execution.lose (ids : List String) (execution : Execution) : Execution :=
  { execution with taken := execution.taken ++ ids }

structure Server where
  now : Nat
  runs : List Run
  executions : List Execution
  /-- Each row a finishing update changed: its id, the attempt of the update and of the row. -/
  written : List (String × Nat × Nat)
  deriving DecidableEq, Repr

def Server.init : Server := ⟨0, [], [], []⟩

def Server.find (s : Server) (id : String) : Option Run := s.runs.find? (·.id == id)

/-- The rows a statement changes, each in place. -/
def Server.update (s : Server) (f : Run → Run) : Server := { s with runs := s.runs.map f }

/-- `error->>'code' = 'interrupted'`. -/
def Run.closed (run : Run) : Bool := run.error.any (·.code == "interrupted")

/-- Whether a running row found at boot is not run again. -/
def Run.fails (run : Run) (overran : Option String) : Bool :=
  (overran.isSome && run.automation != TURN_RUN) || run.cause == "handoff" ||
    (decide (run.leases ≥ 3) && !run.closed)

def Run.lostError (run : Run) (overran : Option String) : Option RunError :=
  match overran with
  | some message => some ⟨"cpuBudget", message⟩
  | none =>
    if run.cause = "handoff" then
      some ⟨"lostLease", "The host was lost before the request answered."⟩
    else if run.closed then none
    else if run.leases < 3 then run.error
    else some ⟨"lostLease", "The run lost its lease 3 times."⟩

/-- The runs a boot fails. -/
def Server.failing (s : Server) (overran : Option String) : List String :=
  (s.runs.filter fun run => run.state = .running && run.fails overran).map (·.id)

/-- `lost`: what a boot makes of a row still running. -/
def Run.lost (now : Nat) (overran : Option String) (run : Run) : Run :=
  if run.state = .running then
    { run with
      leases := run.leases + (if run.closed then 0 else 1)
      due_at := now
      state := if run.fails overran then .failed else .queued
      finished_at := if run.fails overran then some now else none
      error := run.lostError overran }
  else run

/-- The rows a claim takes among those it picks: queued and due. -/
def Run.eligible (now : Nat) (ids : List String) (run : Run) : Bool :=
  run.id ∈ ids && run.state = .queued && decide (run.due_at ≤ now)

def Run.claim (run : Run) : Run := { run with state := .running, attempts := run.attempts + 1 }

/-- `claimed`: the rows as the claim returns them. -/
def Server.claimed (s : Server) (ids : List String) : List Run :=
  (s.runs.filter (Run.eligible s.now ids)).map Run.claim

/-- What an execution came to. -/
inductive GuestOutcome where
  | ok (output : String)
  | refused (code : Option String) (message : String)
  | failed (error : RunError) (transient : Bool)
  deriving DecidableEq, Repr

def GuestOutcome.output : GuestOutcome → Option String
  | .ok output => some output
  | _ => none

def GuestOutcome.error : GuestOutcome → Option RunError
  | .ok _ => none
  | .refused code message => some ⟨code.getD "refused", message⟩
  | .failed error _ => some error

/-- Whether a failed attempt is queued again under its policy's attempts. -/
def GuestOutcome.retry (outcome : GuestOutcome) (attempts policy : Nat) : Bool :=
  match outcome with
  | .failed _ transient => transient && decide (attempts < policy)
  | _ => false

/-- The state an execution's result is written with. -/
def GuestOutcome.state (outcome : GuestOutcome) (retry : Bool) : RunState :=
  if retry then .queued else
    match outcome with
    | .ok _ => .succeeded
    | _ => .failed

/-- `done`: a row with its result, unless it was stopped. -/
def Run.done (now wait : Nat) (outcome : GuestOutcome) (head : Run) (policy : Nat) (ids : List String)
    (run : Run) : Run :=
  if run.id ∈ ids ∧ run.state ≠ .stopped then
    let retry := outcome.retry head.attempts policy
    let state := outcome.state retry
    { run with
      state := state
      output := outcome.output
      error := outcome.error
      finished_at := if retry then none else some now
      due_at := if retry then now + wait else run.due_at
      results := run.results ++ [⟨head.attempts, now, state, outcome.output, outcome.error⟩] }
  else run

/-- `interrupted`: running rows that are still in the attempt claimed note it. -/
def Run.interrupt (claimed : List Run) (message : String) (run : Run) : Run :=
  if run.state = .running ∧ claimed.any (fun x => x.id = run.id && x.attempts = run.attempts) then
    { run with error := some ⟨"interrupted", message⟩ }
  else run

/-- `stop`. -/
def Run.stop (now : Nat) (id : String) (run : Run) : Run :=
  if run.id = id ∧ (run.state = .queued ∨ run.state = .running) then
    { run with
      state := .stopped
      finished_at := some now
      error := some ⟨"stopped", "The run was stopped."⟩ }
  else run

inductive Step where
  | tick (ms : Nat)
  | queue (id automation cause : String) (due_at : Nat)
  | boot (overran : Option String)
  | claim (ids : List String)
  | interrupted (execution : Nat) (message : String)
  | finish (execution : Nat) (outcome : GuestOutcome) (policy wait : Nat)
  | stop (id : String)
  deriving DecidableEq, Repr

/-- What a finishing update notes of the rows it changes. -/
def Server.writes (s : Server) (head : Run) (ids : List String) : List (String × Nat × Nat) :=
  (s.runs.filter fun run => run.id ∈ ids ∧ run.state ≠ .stopped).map fun run =>
    (run.id, head.attempts, run.attempts)

def step (s : Server) : Step → Server
  | .tick ms => { s with now := s.now + ms }
  | .queue id automation cause due_at =>
    if (s.find id).isSome then s
    else { s with runs := s.runs ++ [⟨id, automation, cause, .queued, 0, 0, due_at, none, none, none, []⟩] }
  | .boot overran =>
    { s.update (Run.lost s.now overran) with
      executions := s.executions.map (Execution.lose (s.failing overran)) }
  | .claim ids =>
    -- each row claimed is executed on its own
    { s.update fun run => if run.eligible s.now ids then run.claim else run with
      executions := s.executions.map (Execution.lose ((s.claimed ids).map (·.id))) ++
        (s.claimed ids).map fun row => ⟨[row], false, []⟩ }
  | .interrupted i message =>
    match s.executions[i]? with
    | none => s
    | some execution =>
      { s.update (Run.interrupt execution.rows message) with
        executions := s.executions.set i { execution with ended := true } }
  | .finish i outcome policy wait =>
    match s.executions[i]? with
    | none => s
    | some execution =>
      match execution.rows.head? with
      | none => s
      | some head =>
        if execution.ended then s
        else
          let ids := execution.rows.map (·.id)
          { s.update (Run.done s.now wait outcome head policy ids) with
            executions := s.executions.set i { execution with ended := true }
            written := s.written ++ s.writes head ids }
  | .stop id => s.update (Run.stop s.now id)

def run (s : Server) (steps : List Step) : Server := steps.foldl step s

/-- The condition of a step: a finishing update does not come late.  Of the runs it claimed, those a
boot failed or a later claim took since have been stopped. -/
def Step.Timely (s : Server) : Step → Prop
  | .finish i _ _ _ => ∀ execution ∈ s.executions[i]?, execution.ended = false →
      ∀ r ∈ execution.rows, r.id ∈ execution.taken → ∀ row ∈ s.find r.id, row.state = .stopped
  | _ => True

instance (s : Server) : (a : Step) → Decidable (a.Timely s)
  | .finish i _ _ _ => inferInstanceAs (Decidable (∀ execution ∈ s.executions[i]?,
      execution.ended = false → ∀ r ∈ execution.rows, _ → _))
  | .tick _ | .queue .. | .boot _ | .claim _ | .interrupted .. | .stop _ => isTrue trivial

variable {s : Server}

theorem find_update (f : Run → Run) (hf : ∀ row, (f row).id = row.id) (id : String) :
    (s.update f).find id = (s.find id).map f := by
  rw [Server.find, Server.update, List.find?_map]
  congr 2
  funext row
  exact congrArg (· == id) (hf row)

theorem Run.lost_id (now : Nat) (overran : Option String) (run : Run) : (run.lost now overran).id = run.id := by
  rw [Run.lost]
  split_ifs <;> rfl

theorem Run.interrupt_id (claimed : List Run) (message : String) (run : Run) :
    (run.interrupt claimed message).id = run.id := by
  rw [Run.interrupt]
  split_ifs <;> rfl

theorem Run.done_id (now wait : Nat) (outcome : GuestOutcome) (head : Run) (policy : Nat)
    (ids : List String) (run : Run) : (Run.done now wait outcome head policy ids run).id = run.id := by
  rw [Run.done]
  split_ifs <;> rfl

theorem Run.stop_id (now : Nat) (id : String) (run : Run) : (run.stop now id).id = run.id := by
  rw [Run.stop]
  split_ifs <;> rfl

/-- The row an execution claimed as it is now: stopped, or in its attempt and unfinished. -/
def Held (r row : Run) : Prop := row.state = .stopped ∨ (row.attempts = r.attempts ∧ row.finished = false)

/-- What holds of the executions between steps: each is of one row, a row of two was taken from the
earlier one, and one under way holds its row unless it was taken. -/
structure Leased (s : Server) : Prop where
  ids : (s.runs.map (·.id)).Nodup
  single : ∀ (i : Nat) e, s.executions[i]? = some e → ∃ row, e.rows = [row]
  known : ∀ (i : Nat) e, s.executions[i]? = some e → ∀ r ∈ e.rows, r.id ∈ s.runs.map (·.id)
  taken : ∀ (i j : Nat) e e', s.executions[i]? = some e → s.executions[j]? = some e' → i < j →
    ∀ r ∈ e.rows, ∀ r' ∈ e'.rows, r.id = r'.id → r.id ∈ e.taken
  held : ∀ (i : Nat) e, s.executions[i]? = some e → e.ended = false → ∀ r ∈ e.rows, r.id ∉ e.taken →
    ∀ row ∈ s.runs, row.id = r.id → Held r row

theorem Leased.find_of_mem (h : Leased s) {row : Run} (hrow : row ∈ s.runs) : s.find row.id = some row := by
  cases hfind : s.find row.id with
  | none => exact absurd (BEq.refl row.id) (List.find?_eq_none.1 hfind row hrow)
  | some row' =>
    rw [Server.find] at hfind
    have hmem : row' ∈ s.runs := List.mem_of_find?_eq_some hfind
    have hid : row'.id = row.id := by simpa using List.find?_some hfind
    exact congrArg some (List.inj_on_of_nodup_map h.ids hmem hrow hid)

/-- An execution later on: of the same rows, with no run given back. -/
structure Execution.Goes (e e' : Execution) : Prop where
  rows : e'.rows = e.rows
  taken : ∀ id ∈ e.taken, id ∈ e'.taken
  ended : e'.ended = false → e.ended = false

/-- A step that changes rows in place and takes runs or ends executions. -/
theorem Leased.goes {s' : Server} {f : Run → Run} (h : Leased s) (hf : ∀ row, (f row).id = row.id)
    (hruns : s'.runs = s.runs.map f)
    (hgoes : ∀ (i : Nat) e', s'.executions[i]? = some e' → ∃ e, s.executions[i]? = some e ∧ e.Goes e')
    (hheld : ∀ (i : Nat) e', s'.executions[i]? = some e' → e'.ended = false → ∀ r ∈ e'.rows,
      r.id ∉ e'.taken → ∀ row ∈ s.runs, row.id = r.id → Held r row → Held r (f row)) : Leased s' := by
  have hids : s'.runs.map (·.id) = s.runs.map (·.id) := by
    rw [hruns, List.map_map]
    exact List.map_congr_left fun row _ => hf row
  constructor
  · rw [hids]
    exact h.ids
  · intro i e' he'
    obtain ⟨e, he, hgo⟩ := hgoes i e' he'
    rw [hgo.rows]
    exact h.single i e he
  · intro i e' he' r hr
    obtain ⟨e, he, hgo⟩ := hgoes i e' he'
    rw [hids]
    exact h.known i e he r (hgo.rows ▸ hr)
  · intro i j e₁' e₂' he₁' he₂' hlt r hr r' hr' hid
    obtain ⟨e₁, he₁, hgo₁⟩ := hgoes i e₁' he₁'
    obtain ⟨e₂, he₂, hgo₂⟩ := hgoes j e₂' he₂'
    exact hgo₁.taken _ (h.taken i j e₁ e₂ he₁ he₂ hlt r (hgo₁.rows ▸ hr) r' (hgo₂.rows ▸ hr') hid)
  · intro i e' he' hended r hr hnot row hrow hid
    obtain ⟨e, he, hgo⟩ := hgoes i e' he'
    rw [hruns] at hrow
    obtain ⟨row, hmem, rfl⟩ := List.mem_map.1 hrow
    rw [hf] at hid
    refine hheld i e' he' hended r hr hnot row hmem hid ?_
    exact h.held i e he (hgo.ended hended) r (hgo.rows ▸ hr) (fun hin => hnot (hgo.taken _ hin)) row hmem hid

theorem Execution.Goes.refl (e : Execution) : e.Goes e := ⟨rfl, fun _ hid => hid, fun h => h⟩

theorem goes_lose {ids : List String} {i : Nat} {e' : Execution}
    (he' : (s.executions.map (Execution.lose ids))[i]? = some e') :
    ∃ e, s.executions[i]? = some e ∧ e.Goes e' ∧ e'.taken = e.taken ++ ids := by
  rw [List.getElem?_map] at he'
  obtain ⟨e, he, rfl⟩ := Option.map_eq_some_iff.1 he'
  exact ⟨e, he, ⟨rfl, fun _ hid => List.mem_append_left _ hid, fun h => h⟩, rfl⟩

theorem goes_end {i j : Nat} {e e' : Execution} (he : s.executions[i]? = some e)
    (he' : (s.executions.set i { e with ended := true })[j]? = some e') :
    ∃ e₀, s.executions[j]? = some e₀ ∧ e₀.Goes e' ∧ (e'.ended = false → i ≠ j) := by
  rw [List.getElem?_set] at he'
  split_ifs at he' with hij hlt
  · cases he'
    exact ⟨e, hij ▸ he, ⟨rfl, fun _ hid => hid, nofun⟩, nofun⟩
  · exact ⟨e', he', .refl e', fun _ => hij⟩

theorem Held.of_result {r row row' : Run} (h : Held r row) (hstate : row'.state = row.state)
    (hattempts : row'.attempts = row.attempts) : Held r row' := by
  rw [Held, Run.finished, hstate, hattempts]
  exact h

theorem Leased.claim (h : Leased s) (ids : List String) : Leased (step s (.claim ids)) := by
  have hid : ∀ row : Run, (if row.eligible s.now ids then row.claim else row).id = row.id := by
    intro row
    split_ifs <;> rfl
  have hold : Leased { s.update (fun run => if run.eligible s.now ids then run.claim else run) with
      executions := s.executions.map (Execution.lose ((s.claimed ids).map (·.id))) } := by
    refine h.goes hid rfl (fun i e' he' => (goes_lose he').imp fun e he => ⟨he.1, he.2.1⟩) ?_
    intro i e' he' _ r _ hnot row hrow hrid hheld
    obtain ⟨e, -, -, htaken⟩ := goes_lose he'
    rw [if_neg]
    · exact hheld
    · intro heligible
      refine hnot (htaken ▸ List.mem_append_right _ (List.mem_map.2 ⟨row.claim, ?_, hrid⟩))
      exact List.mem_map_of_mem (List.mem_filter.2 ⟨hrow, heligible⟩)
  have hclaimed : ∀ row ∈ s.claimed ids,
      row ∈ s.runs.map fun run => if run.eligible s.now ids then run.claim else run := by
    intro row hrow
    obtain ⟨row, hmem, rfl⟩ := List.mem_map.1 hrow
    obtain ⟨hmem, heligible⟩ := List.mem_filter.1 hmem
    exact List.mem_map.2 ⟨row, hmem, if_pos heligible⟩
  have hnodup : ((s.claimed ids).map (·.id)).Nodup := by
    have hsame : (s.claimed ids).map (·.id) = (s.runs.filter (Run.eligible s.now ids)).map (·.id) := by
      rw [Server.claimed, List.map_map]
      rfl
    rw [hsame]
    exact h.ids.sublist (List.filter_sublist.map _)
  have hlength : (s.executions.map (Execution.lose ((s.claimed ids).map (·.id)))).length =
      s.executions.length := List.length_map _
  -- the executions before the claim, and those it begins
  have hcases : ∀ (i : Nat) e, (step s (.claim ids)).executions[i]? = some e →
      (i < s.executions.length ∧
        (s.executions.map (Execution.lose ((s.claimed ids).map (·.id))))[i]? = some e) ∨
      (s.executions.length ≤ i ∧ ∃ row, (s.claimed ids)[i - s.executions.length]? = some row ∧
        e = ⟨[row], false, []⟩) := by
    intro i e he
    rw [step, List.getElem?_append, hlength] at he
    split_ifs at he with hlt
    · exact .inl ⟨hlt, he⟩
    · rw [List.getElem?_map] at he
      obtain ⟨row, hrow, rfl⟩ := Option.map_eq_some_iff.1 he
      exact .inr ⟨Nat.le_of_not_lt hlt, row, hrow, rfl⟩
  constructor
  · exact hold.ids
  · intro i e he
    rcases hcases i e he with ⟨-, he⟩ | ⟨-, row, -, rfl⟩
    · exact hold.single i e he
    · exact ⟨row, rfl⟩
  · intro i e he r hr
    rcases hcases i e he with ⟨-, he⟩ | ⟨-, row, hrow, rfl⟩
    · exact hold.known i e he r hr
    · rw [List.mem_singleton.1 hr]
      exact List.mem_map_of_mem (hclaimed row (List.mem_of_getElem? hrow))
  · intro i j e e' he he' hlt r hr r' hr' hsame
    rcases hcases j e' he' with ⟨hj, he'⟩ | ⟨hj, row', hrow', rfl⟩
    · rcases hcases i e he with ⟨-, he⟩ | ⟨hi, -⟩
      · exact hold.taken i j e e' he he' hlt r hr r' hr' hsame
      · omega
    · rw [List.mem_singleton.1 hr'] at hsame
      rcases hcases i e he with ⟨-, he⟩ | ⟨hi, row, hrow, rfl⟩
      · obtain ⟨e₀, -, -, htaken⟩ := goes_lose he
        rw [htaken, hsame]
        exact List.mem_append_right _ (List.mem_map_of_mem (List.mem_of_getElem? hrow'))
      · rw [List.mem_singleton.1 hr] at hsame
        have hi' := List.getElem?_map (f := Run.id) (l := s.claimed ids) (i := i - s.executions.length)
        have hj' := List.getElem?_map (f := Run.id) (l := s.claimed ids) (i := j - s.executions.length)
        rw [hrow, Option.map_some] at hi'
        rw [hrow', Option.map_some, ← hsame, ← hi'] at hj'
        have hlt' : i - s.executions.length < ((s.claimed ids).map (·.id)).length :=
          (List.getElem?_eq_some_iff.1 hi').1
        have hindex := (List.getElem?_inj hlt' hnodup).1 hj'.symm
        omega
  · intro i e he hended r hr hnot row hrow hrid
    rcases hcases i e he with ⟨-, he⟩ | ⟨-, r₀, hr₀, rfl⟩
    · exact hold.held i e he hended r hr hnot row hrow hrid
    · rw [List.mem_singleton.1 hr] at hrid ⊢
      have hmem := List.mem_of_getElem? hr₀
      have heq : row = r₀ := List.inj_on_of_nodup_map hold.ids hrow (hclaimed r₀ hmem) hrid
      obtain ⟨r₁, -, rfl⟩ := List.mem_map.1 hmem
      rw [heq]
      exact .inr ⟨rfl, rfl⟩

theorem Leased.queue (h : Leased s) {row : Run} (hfree : s.find row.id = none) :
    Leased { s with runs := s.runs ++ [row] } := by
  have hnot : row.id ∉ s.runs.map (·.id) := by
    intro hin
    obtain ⟨row', hrow', hid⟩ := List.mem_map.1 hin
    exact List.find?_eq_none.1 hfree row' hrow' (beq_iff_eq.2 hid)
  constructor
  · rw [List.map_append, List.nodup_append]
    refine ⟨h.ids, List.nodup_singleton _, ?_⟩
    rintro id hid _ hnew rfl
    rw [List.map_singleton, List.mem_singleton] at hnew
    exact hnot (hnew ▸ hid)
  · exact h.single
  · intro i e he r hr
    rw [List.map_append]
    exact List.mem_append_left _ (h.known i e he r hr)
  · exact h.taken
  · intro i e he hended r hr htaken row' hrow' hid
    rcases List.mem_append.1 hrow' with hrow' | hrow'
    · exact h.held i e he hended r hr htaken row' hrow' hid
    · rw [List.mem_singleton.1 hrow'] at hid
      exact absurd (hid ▸ h.known i e he r hr) hnot

/-- A finishing update in time finds its row stopped, or unfinished in its attempt. -/
theorem Leased.owned {i : Nat} {execution : Execution} {outcome : GuestOutcome} {policy wait : Nat}
    (h : Leased s) (hexec : s.executions[i]? = some execution) (hended : execution.ended = false)
    (ha : (Step.finish i outcome policy wait).Timely s) {head : Run} (hhead : execution.rows.head? = some head)
    {row : Run} (hrow : row ∈ s.runs) (hid : row.id ∈ execution.rows.map (·.id)) :
    Held head row := by
  obtain ⟨r, hrows⟩ := h.single i execution hexec
  obtain rfl : r = head := by simpa [hrows] using hhead
  have hid : row.id = r.id := by simpa [hrows] using hid
  have hr : r ∈ execution.rows := by simp [hrows]
  by_cases htaken : r.id ∈ execution.taken
  · exact .inl (ha execution hexec hended r hr htaken row (hid ▸ h.find_of_mem hrow))
  · exact h.held i execution hexec hended r hr htaken row hrow hid

theorem Leased.finish {i : Nat} {execution : Execution} {outcome : GuestOutcome} {policy wait : Nat}
    (h : Leased s) (hexec : s.executions[i]? = some execution) (hended : execution.ended = false)
    (ha : (Step.finish i outcome policy wait).Timely s) (head : Run) (written : List (String × Nat × Nat)) :
    Leased { s.update (Run.done s.now wait outcome head policy (execution.rows.map (·.id))) with
      executions := s.executions.set i { execution with ended := true }, written := written } := by
  refine h.goes (Run.done_id s.now wait outcome head policy _) rfl
    (fun j e' he' => (goes_end hexec he').imp fun e he => ⟨he.1, he.2.1⟩) ?_
  intro j e' he' hopen r hr hnot row hrow hid hheld
  obtain ⟨e, he, hgo, hne⟩ := goes_end hexec he'
  rw [Run.done, if_neg]
  · exact hheld
  · rintro ⟨hin, hstate⟩
    obtain ⟨r', hr', hrid⟩ := List.mem_map.1 hin
    have hsame : r'.id = r.id := hrid.trans hid
    rcases Nat.lt_or_gt_of_ne (hne hopen) with hlt | hlt
    · -- a later execution took the row, so the update would be late
      have htaken := h.taken i j execution e hexec he hlt r' hr' r (hgo.rows ▸ hr) hsame
      exact hstate (ha execution hexec hended r' hr' htaken row (hrid ▸ h.find_of_mem hrow))
    · -- the execution is the later one, and took the row from the other
      refine hnot (hgo.taken _ ?_)
      exact h.taken j i e execution he hexec hlt r (hgo.rows ▸ hr) r' hr' hsame.symm

theorem Leased.step (h : Leased s) (a : Step) (ha : a.Timely s) : Leased (step s a) := by
  cases a with
  | tick ms => exact ⟨h.ids, h.single, h.known, h.taken, h.held⟩
  | queue id automation cause due_at =>
    rw [Runs.step]
    split_ifs with hfree
    · exact h
    · exact h.queue (by simpa using hfree)
  | boot overran =>
    refine h.goes (Run.lost_id s.now overran) rfl
      (fun i e' he' => (goes_lose he').imp fun e he => ⟨he.1, he.2.1⟩) ?_
    intro i e' he' _ r _ hnot row hrow hrid hheld
    obtain ⟨e, -, -, htaken⟩ := goes_lose he'
    rw [Run.lost]
    -- the boot queues a running row again and keeps its attempt; one it fails counts as taken
    by_cases hrunning : row.state = .running
    · have hfails : row.fails overran = false := by
        rw [← Bool.not_eq_true]
        intro hfails
        refine hnot (htaken ▸ List.mem_append_right _ (List.mem_map.2 ⟨row, ?_, hrid⟩))
        exact List.mem_filter.2 ⟨hrow, by simp [hrunning, hfails]⟩
      rw [if_pos hrunning, hfails]
      refine .inr ⟨?_, rfl⟩
      rcases hheld with hstopped | hheld
      · rw [hrunning] at hstopped
        cases hstopped
      · exact hheld.1
    · rwa [if_neg hrunning]
  | claim ids => exact h.claim ids
  | interrupted i message =>
    rw [Runs.step]
    cases hexec : s.executions[i]? with
    | none => exact h
    | some execution =>
      refine h.goes (Run.interrupt_id execution.rows message) rfl
        (fun j e' he' => (goes_end hexec he').imp fun e he => ⟨he.1, he.2.1⟩) ?_
      intro j e' _ _ r _ _ row _ _ hheld
      rw [Run.interrupt]
      split_ifs
      · exact hheld.of_result rfl rfl
      · exact hheld
  | finish i outcome policy wait =>
    rw [Runs.step]
    cases hexec : s.executions[i]? with
    | none => exact h
    | some execution =>
      cases hhead : execution.rows.head? with
      | none => simpa only [hhead] using h
      | some head =>
        simp only [hhead]
        split_ifs with hended
        · exact h
        · exact h.finish hexec (Bool.eq_false_iff.2 hended) ha head _
  | stop id =>
    refine h.goes (Run.stop_id s.now id) rfl (fun i e' he' => ⟨e', he', .refl e'⟩) ?_
    intro i e' _ _ r _ _ row _ _ hheld
    rw [Run.stop]
    split_ifs
    · exact .inl rfl
    · exact hheld

theorem leased_init : Leased Server.init := by
  constructor <;> simp [Server.init]

/-- A change of rows that leaves the finished ones. -/
def Keeps (s s' : Server) : Prop :=
  ∀ id row, s.find id = some row → row.finished → ∃ row', s'.find id = some row' ∧ row'.result = row.result

theorem keeps_update {f : Run → Run} (hf : ∀ row, (f row).id = row.id)
    (hresult : ∀ row ∈ s.runs, row.finished → (f row).result = row.result) : Keeps s (s.update f) := by
  intro id row hrow hfinished
  refine ⟨f row, by rw [find_update f hf, hrow, Option.map_some], hresult row ?_ hfinished⟩
  exact List.mem_of_find?_eq_some hrow

theorem Keeps.refl (s : Server) : Keeps s s := fun _ row hrow _ => ⟨row, hrow, rfl⟩

theorem Run.not_running {row : Run} (h : row.finished) : row.state ≠ .running ∧ row.state ≠ .queued := by
  constructor <;>
  · intro hstate
    simp [Run.finished, hstate] at h

theorem keeps_step (h : Leased s) (a : Step) (ha : a.Timely s) : Keeps s (step s a) := by
  cases a with
  | tick ms => exact Keeps.refl s
  | queue id automation cause due_at =>
    rw [step]
    split_ifs with hfree
    · exact Keeps.refl s
    · intro id' row hrow _
      refine ⟨row, ?_, rfl⟩
      rw [Server.find] at hrow ⊢
      rw [List.find?_append, hrow, Option.some_or]
  | boot overran =>
    refine keeps_update (Run.lost_id s.now overran) fun row _ hfinished => ?_
    rw [Run.lost, if_neg (Run.not_running hfinished).1]
  | claim ids =>
    have hid : ∀ row : Run, (if row.eligible s.now ids then row.claim else row).id = row.id := by
      intro row
      split_ifs <;> rfl
    refine keeps_update hid fun row _ hfinished => ?_
    have hnot : row.eligible s.now ids = false := by
      simp [Run.eligible, (Run.not_running hfinished).2]
    rw [hnot, if_neg Bool.false_ne_true]
  | interrupted i message =>
    rw [step]
    cases s.executions[i]? with
    | none => exact Keeps.refl s
    | some execution =>
      refine keeps_update (Run.interrupt_id execution.rows message) fun row _ hfinished => ?_
      rw [Run.interrupt, if_neg fun h => (Run.not_running hfinished).1 h.1]
  | finish i outcome policy wait =>
    rw [step]
    cases hexec : s.executions[i]? with
    | none => exact Keeps.refl s
    | some execution =>
      cases hhead : execution.rows.head? with
      | none => simpa only [hhead] using Keeps.refl s
      | some head =>
        simp only [hhead]
        split_ifs with hended
        · exact Keeps.refl s
        -- the only step that can write over a finished row: in time it finds its row stopped or unfinished
        · refine keeps_update (Run.done_id s.now wait outcome head policy _) fun row hrow hfinished => ?_
          rw [Run.done, if_neg]
          rintro ⟨hid, hstate⟩
          rcases h.owned hexec (Bool.eq_false_iff.2 hended) ha hhead hrow hid with hstopped | howned
          · exact hstate hstopped
          · rw [howned.2] at hfinished
            cases hfinished
  | stop id =>
    refine keeps_update (Run.stop_id s.now id) fun row _ hfinished => ?_
    rw [Run.stop, if_neg]
    rintro ⟨-, hstate⟩
    exact hstate.elim (Run.not_running hfinished).2 (Run.not_running hfinished).1

theorem Keeps.run {steps : List Step} (hl : Leased s) (h : Meets step (fun s a => a.Timely s) s steps) :
    Keeps s (run s steps) := by
  induction steps generalizing s with
  | nil => exact Keeps.refl s
  | cons a steps ih =>
    intro id row hrow hfinished
    obtain ⟨row', hrow', hsame⟩ := keeps_step hl a h.1 id row hrow hfinished
    have hstate : row'.state = row.state := congrArg Prod.fst hsame
    have hfinished' : row'.finished := by
      rw [Run.finished, hstate]
      exact hfinished
    obtain ⟨row'', hrow'', hsame'⟩ := ih (hl.step a h.1) h.2 id row' hrow' hfinished'
    exact ⟨row'', hrow'', hsame'.trans hsame⟩

/-- Each result written was of the attempt the row was in. -/
def Attributed (s : Server) : Prop := ∀ w ∈ s.written, w.2.1 = w.2.2

theorem Attributed.step (hl : Leased s) (h : Attributed s) (a : Step) (ha : a.Timely s) : Attributed (step s a) := by
  cases a with
  | tick ms => exact h
  | queue id automation cause due_at =>
    rw [Runs.step]
    split_ifs <;> exact h
  | boot overran => exact h
  | claim ids => exact h
  | interrupted i message =>
    rw [Runs.step]
    cases s.executions[i]? <;> exact h
  | finish i outcome policy wait =>
    rw [Runs.step]
    cases hexec : s.executions[i]? with
    | none => exact h
    | some execution =>
      cases hhead : execution.rows.head? with
      | none => simpa only [hhead] using h
      | some head =>
        simp only [hhead]
        split_ifs with hended
        · exact h
        · intro w hw
          rcases List.mem_append.1 hw with hw | hw
          · exact h w hw
          · obtain ⟨row, hrow, rfl⟩ := List.mem_map.1 hw
            obtain ⟨hrow, htest⟩ := List.mem_filter.1 hrow
            obtain ⟨hid, hstate⟩ := of_decide_eq_true htest
            rcases hl.owned hexec (Bool.eq_false_iff.2 hended) ha hhead hrow hid with hstopped | howned
            · exact absurd hstopped hstate
            · exact howned.1.symm
  | stop id => exact h

/-- A finished run stays as it is, and each result written is of the attempt that holds the run. -/
structure Settled (before after : List Step) : Prop where
  stays : ∀ id row, (run .init before).find id = some row → row.finished →
    ∃ row', (run .init (before ++ after)).find id = some row' ∧ row'.result = row.result
  owned : ∀ w ∈ (run .init (before ++ after)).written, w.2.1 = w.2.2

theorem meets_append {before after : List Step}
    (h : Meets step (fun s a => a.Timely s) s (before ++ after)) :
    Meets step (fun s a => a.Timely s) (run s before) after := by
  induction before generalizing s with
  | nil => exact h
  | cons a before ih => exact ih h.2

theorem meets_of_append {before after : List Step}
    (h : Meets step (fun s a => a.Timely s) s (before ++ after)) :
    Meets step (fun s a => a.Timely s) s before := by
  induction before generalizing s with
  | nil => trivial
  | cons a before ih => exact ⟨h.1, ih h.2⟩

/-- In every run in which no finishing update comes late, a finished run stays finished. -/
theorem run_settled (before after : List Step)
    (hs : Meets step (fun s a => a.Timely s) .init (before ++ after)) : Settled before after := by
  constructor
  · have hleased : Leased (run .init before) :=
      (meets_of_append hs).invariant (fun s a h ha => h.step a ha) leased_init
    have hkeeps := Keeps.run hleased (meets_append hs)
    intro id row hrow hfinished
    have hrun : run .init (before ++ after) = run (run .init before) after := List.foldl_append
    rw [hrun]
    exact hkeeps id row hrow hfinished
  · have hempty : Attributed Server.init := by simp [Attributed, Server.init]
    have hstep : ∀ s a, Leased s ∧ Attributed s → a.Timely s → Leased (step s a) ∧ Attributed (step s a) :=
      fun s a h ha => ⟨h.1.step a ha, h.2.step h.1 a ha⟩
    exact (hs.invariant hstep ⟨leased_init, hempty⟩).2

/-- A run claimed, found running by the boot of another generation, and claimed by it. -/
def reclaimed : List Step :=
  [.queue "r" "crm/sync" "schedule" 0, .claim ["r"], .boot none, .claim ["r"]]

/-- The second attempt finishes. -/
def finishedSecond : List Step := reclaimed ++ [Step.finish 1 (.ok "true") 1 0]

/-- The first attempt, late, is interrupted and writes nothing; others boot, claim and stop. -/
theorem finishedSecond_settled : ((run .init finishedSecond).find "r").map Run.result =
      some (.succeeded, some "true", none) ∧
    Settled finishedSecond [.interrupted 0 "draining", .boot none, .claim ["r"], .stop "r"] :=
  ⟨by decide, run_settled finishedSecond _ (by decide)⟩

/-- The first attempt's finish comes late: it writes over what the second one came to. -/
theorem finishedLate_unsettled :
    ¬ Settled finishedSecond [.finish 0 (.failed ⟨"timeout", "The run took too long."⟩ false) 1 0] := by
  intro h
  obtain ⟨row', hrow', hsame⟩ := h.stays "r"
    ⟨"r", "crm/sync", "schedule", .succeeded, 2, 1, 0, some 0, some "true", none,
      [⟨2, 0, .succeeded, some "true", none⟩]⟩ (by decide) (by decide)
  have hlate : ((run .init (finishedSecond ++
      [Step.finish 0 (.failed ⟨"timeout", "The run took too long."⟩ false) 1 0])).find "r").map Run.result =
      some (.failed, none, some ⟨"timeout", "The run took too long."⟩) := by decide
  rw [hrow', Option.map_some, hsame] at hlate
  exact absurd hlate (by decide)

end Norbital.Bolt.Runs

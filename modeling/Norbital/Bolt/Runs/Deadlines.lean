import Mathlib.Tactic.SplitIfs
import Mathlib.Data.List.Nodup
import Norbital.Lib.Entries
import Norbital.Lib.Runs

/-!
# Deadlines

The deadline timer of `bolt/src/engine/runs/deadlines.ts`, the callbacks of
`inProcessDeadlines` around it, and the passes of `boot` and `tick` that read the
earliest due time from the database and settle it later.

Keys are environments' scopes; instants are milliseconds.
-/

namespace Norbital.Bolt.Deadlines

open Norbital.Lib

/-- `PARKED_WAKE_MS`. -/
def PARKED_WAKE_MS : Nat := 5000

/-- How long a scope rests after a wake that failed. -/
def FAILED_WAKE_MS : Nat := 60000

/-- `DeadlineTimer`: the deadlines held, the callbacks active (`true`: retired meanwhile), and the
instant the timer sleeps until. -/
structure Timer where
  held : List (String × Nat)
  active : List (String × Bool)
  armedFor : Option Nat
  deriving DecidableEq, Repr

namespace Timer

variable (t : Timer)

def idle (key : String) : Bool := (t.active.lookup key).isNone

/-- The earliest deadline whose callback is not running. -/
def earliest : Option Nat := ((t.held.filter fun e => t.idle e.1).map (·.2)).min?

def arm : Timer := { t with armedFor := t.earliest }

def announce (key : String) (time : Nat) : Timer :=
  if (t.held.lookup key).any (· ≤ time) then t.arm
  else Timer.arm { t with held := put key time t.held }

def settle (key : String) : Option Nat → Timer
  | none => Timer.arm { t with held := Lib.without key t.held }
  | some time => Timer.arm { t with held := put key time t.held }

def retire (key : String) : Timer :=
  Timer.arm { t with
    held := Lib.without key t.held
    active := if t.idle key then t.active else put key true t.active }

/-- The earliest deadline due whose callback is not running, the first of equals. -/
def due (now : Nat) : Option (String × Nat) :=
  (t.held.filter fun e => t.idle e.1 && decide (e.2 ≤ now)).foldl
    (fun taken e =>
      match taken with
      | none => some e
      | some x => if e.2 < x.2 then some e else some x) none

def takeDue (now : Nat) : Timer × Option String :=
  match t.due now with
  | none => (t.arm, none)
  | some (key, _) =>
    (Timer.arm { t with held := Lib.without key t.held, active := put key false t.active }, some key)

/-- The instant a completed callback leaves its key with. -/
def next (key : String) (callbackAt : Option Nat) (mergeAnnouncements : Bool) : Option Nat :=
  if mergeAnnouncements then
    match callbackAt, t.held.lookup key with
    | none, announced => announced
    | some x, none => some x
    | some x, some y => some (min x y)
  else callbackAt

def complete (key : String) (callbackAt : Option Nat) (mergeAnnouncements : Bool) : Timer :=
  match t.active.lookup key with
  | none => t
  | some retired =>
    let held := if retired then t.held else
      match t.next key callbackAt mergeAnnouncements with
      | none => Lib.without key t.held
      | some time => put key time t.held
    Timer.arm { t with held := held, active := Lib.without key t.active }

end Timer

/-- How far a callback is: taken, waking its scope, its pass past the read, its pass settled, or the
wake over. -/
inductive Stage where
  | taken
  | begun
  | read (next : Option Nat)
  | settled
  | ended (ok : Bool)
  deriving DecidableEq, Repr

/-- Whether a wake in this stage may be over: its pass settled, or it failed before. -/
def Stage.ends (ok : Bool) : Stage → Bool
  | .settled => true
  | .begun | .read _ => !ok
  | .taken | .ended _ => false

structure Wake where
  key : String
  stage : Stage
  deriving DecidableEq, Repr

/-- A row of `sys_run` as far as its wake goes; `told` once its announcement was processed. -/
structure QueuedRun where
  scope : String
  due : Nat
  queued : Bool
  told : Bool
  deriving DecidableEq, Repr

structure Host where
  now : Nat
  timer : Timer
  /-- Timer firings whose `onDue` has not run yet. -/
  callbacks : Nat
  waking : List String
  answers : List (String × Option Nat)
  wakes : List Wake
  /-- The passes outside a callback (a boot) that have read and not settled. -/
  passes : List (String × Option Nat)
  runs : List QueuedRun
  /-- What a failed or a parked wake asked to come back at. -/
  backoffs : List (String × Nat)
  deriving DecidableEq, Repr

namespace Host

def init : Host := ⟨0, ⟨[], [], none⟩, 0, [], [], [], [], [], []⟩

variable (h : Host)

/-- The least of the scope's queued due times and of the times the pass knows itself. -/
def minDue (scope : String) (dues : List Nat) : Option Nat :=
  (((h.runs.filter fun r => r.scope = scope ∧ r.queued).map (·.due)) ++ dues).min?

/-- `settle` of the in-process port: during a wake of the scope it is the wake's answer. -/
def settle (scope : String) (time : Option Nat) : Host :=
  if scope ∈ h.waking then { h with answers := put scope time h.answers }
  else { h with timer := h.timer.settle scope time }

def setStage (w : Nat) (wake : Wake) (stage : Stage) : Host :=
  { h with wakes := h.wakes.set w { wake with stage := stage } }

end Host

inductive Step where
  | tick (ms : Nat)
  | queue (scope : String) (due : Nat)
  | announce (run : Nat)
  | take (run : Nat)
  | requeue (run due : Nat)
  | fire
  | takeDue
  | begin (wake : Nat)
  | read (wake : Nat) (dues : List Nat)
  | settle (wake : Nat)
  | park (wake : Nat)
  | wakeEnd (wake : Nat) (ok : Bool)
  | complete (wake : Nat)
  | passRead (scope : String) (dues : List Nat)
  | passSettle (pass : Nat)
  | retire (scope : String)
  deriving DecidableEq, Repr

def step (h : Host) : Step → Host
  | .tick ms => { h with now := h.now + ms }
  | .queue scope due => { h with runs := h.runs ++ [⟨scope, due, true, false⟩] }
  | .announce i =>
    match h.runs[i]? with
    | none => h
    | some r =>
      { h with runs := h.runs.set i { r with told := true }, timer := h.timer.announce r.scope r.due }
  | .take i =>
    match h.runs[i]? with
    | none => h
    | some r => { h with runs := h.runs.set i { r with queued := false } }
  | .requeue i due =>
    match h.runs[i]? with
    | none => h
    | some r => { h with runs := h.runs.set i { r with due := due, queued := true, told := false } }
  | .fire =>
    match h.timer.armedFor with
    | none => h
    | some time =>
      if time ≤ h.now then
        { h with timer := { h.timer with armedFor := none }, callbacks := h.callbacks + 1 }
      else h
  | .takeDue =>
    if h.callbacks = 0 then h
    else
      let (timer, key) := h.timer.takeDue h.now
      -- one scope a callback, the earliest; the timer is armed for the rest
      { h with
        timer := timer
        callbacks := h.callbacks - 1
        wakes := h.wakes ++ (key.map fun key => ⟨key, .taken⟩).toList }
  | .begin w =>
    match h.wakes[w]? with
    | some ⟨key, .taken⟩ =>
      { h.setStage w ⟨key, .taken⟩ .begun with
        waking := key :: h.waking
        answers := Lib.without key h.answers }
    | _ => h
  | .read w dues =>
    match h.wakes[w]? with
    | some ⟨key, .begun⟩ => h.setStage w ⟨key, .begun⟩ (.read (h.minDue key dues))
    | _ => h
  | .settle w =>
    match h.wakes[w]? with
    | some ⟨key, .read next⟩ => (h.settle key next).setStage w ⟨key, .read next⟩ .settled
    | _ => h
  | .park w =>
    match h.wakes[w]? with
    | some ⟨key, .begun⟩ =>
      -- a scope that is parked is looked at again after a while
      let time := h.now + PARKED_WAKE_MS
      { (h.settle key (some time)).setStage w ⟨key, .begun⟩ .settled with
        backoffs := (key, time) :: h.backoffs }
    | _ => h
  | .wakeEnd w ok =>
    match h.wakes[w]? with
    | none => h
    | some wake =>
      if wake.stage.ends ok then
        { h.setStage w wake (.ended ok) with waking := h.waking.filter (· ≠ wake.key) }
      else h
  | .complete w =>
    match h.wakes[w]? with
    | some ⟨key, .ended ok⟩ =>
      -- the answer of a wake that went well is its scope's next instant; a failed one rests
      let time := h.now + FAILED_WAKE_MS
      { h with
        timer := h.timer.complete key (if ok then (h.answers.lookup key).join else some time) ok
        answers := Lib.without key h.answers
        wakes := h.wakes.eraseIdx w
        backoffs := if ok then h.backoffs else (key, time) :: h.backoffs }
    | _ => h
  | .passRead scope dues => { h with passes := h.passes ++ [(scope, h.minDue scope dues)] }
  | .passSettle p =>
    match h.passes[p]? with
    | none => h
    | some (scope, next) => { h.settle scope next with passes := h.passes.eraseIdx p }
  | .retire scope =>
    { h with
      timer := h.timer.retire scope
      runs := h.runs.map fun r => if r.scope = scope then { r with told := false } else r }

def run (h : Host) (steps : List Step) : Host := steps.foldl step h

/-- A deadline good enough for a run due at `due`: no later, or no later than a time some failed or
parked wake of the scope asked to come back at. -/
def Host.Good (h : Host) (key : String) (due x : Nat) : Prop :=
  x ≤ due ∨ ∃ b, (key, b) ∈ h.backoffs ∧ x ≤ b

theorem Host.Good.le {h : Host} {key : String} {due x y : Nat} (hx : h.Good key due x) (hle : y ≤ x) :
    h.Good key due y :=
  hx.imp (Nat.le_trans hle) fun ⟨b, hb, hxb⟩ => ⟨b, hb, Nat.le_trans hle hxb⟩

/-- What an active callback has yet to do for a run due at `due`. -/
def Stage.Covers (h : Host) (key : String) (due : Nat) : Stage → Prop
  | .taken | .begun | .ended false => True
  | .read next => ∃ n ∈ next, n ≤ due
  | .settled | .ended true => ∃ n, h.answers.lookup key = some (some n) ∧ h.Good key due n

/-- A run of the scope due at `due` is waited for: by a held deadline or by an active callback. -/
def Host.Covered (h : Host) (key : String) (due : Nat) : Prop :=
  (∃ x, h.timer.held.lookup key = some x ∧ h.Good key due x) ∨
  ∃ wake ∈ h.wakes, wake.key = key ∧ h.timer.active.lookup key = some false ∧
    wake.stage.Covers h key due

/-- What holds between the steps. -/
structure Waited (h : Host) : Prop where
  armed : h.timer.armedFor = h.timer.earliest ∨ 0 < h.callbacks
  keys : (h.wakes.map (·.key)).Nodup
  active : ∀ key, (h.timer.active.lookup key).isSome ↔ key ∈ h.wakes.map (·.key)
  waking : ∀ wake ∈ h.wakes, (∃ ok, wake.stage.ends ok) → wake.key ∈ h.waking
  covered : ∀ r ∈ h.runs, r.queued → r.told → h.Covered r.scope r.due

namespace Timer

variable {t : Timer} {key k : String}

@[simp] theorem arm_held : t.arm.held = t.held := rfl

@[simp] theorem arm_active : t.arm.active = t.active := rfl

/-- Every change of the deadlines ends by arming the timer for the earliest. -/
def Armed (t : Timer) : Prop := t.armedFor = t.earliest

theorem armed_arm (t : Timer) : t.arm.Armed := rfl

theorem announce_active (time : Nat) : (t.announce key time).active = t.active := by
  rw [announce]
  split_ifs <;> rfl

theorem armed_announce (time : Nat) : (t.announce key time).Armed := by
  rw [announce]
  split_ifs <;> rfl

theorem announce_other (time : Nat) (hk : k ≠ key) :
    (t.announce key time).held.lookup k = t.held.lookup k := by
  rw [announce]
  split_ifs
  · rfl
  · rw [arm_held, lookup_put, beq_false_of_ne hk, if_neg Bool.false_ne_true]

/-- An announced time is held, or an earlier one is. -/
theorem announce_self (t : Timer) (key : String) (time : Nat) : ∃ x, (t.announce key time).held.lookup key = some x ∧ x ≤ time ∧
    ∀ y, t.held.lookup key = some y → x ≤ y := by
  rw [announce]
  cases hy : t.held.lookup key with
  | none =>
    refine ⟨time, ?_, Nat.le_refl time, by simp⟩
    simp [lookup_put]
  | some y =>
    by_cases hle : y ≤ time
    · exact ⟨y, by simp [hle, hy], hle, by simp⟩
    · refine ⟨time, ?_, Nat.le_refl time, ?_⟩
      · simp [hle, lookup_put]
      · intro z hz
        cases hz
        omega

theorem settle_active (time : Option Nat) : (t.settle key time).active = t.active := by
  cases time <;> rfl

theorem armed_settle (time : Option Nat) : (t.settle key time).Armed := by
  cases time <;> rfl

theorem settle_lookup (time : Option Nat) :
    (t.settle key time).held.lookup k = if k == key then time else t.held.lookup k := by
  cases time with
  | none => rw [settle, arm_held, lookup_without]
  | some time => rw [settle, arm_held, lookup_put]

/-- A deadline taken is held, due, and of a key whose callback is not running. -/
theorem due_some {now : Nat} {e : String × Nat} (h : t.due now = some e) :
    e ∈ t.held ∧ t.idle e.1 = true ∧ e.2 ≤ now := by
  rw [due] at h
  have hall : ∀ (l : List (String × Nat)) (taken : Option (String × Nat)),
      (l.foldl (fun taken e =>
        match taken with
        | none => some e
        | some x => if e.2 < x.2 then some e else some x) taken) = some e → taken = some e ∨ e ∈ l := by
    intro l
    induction l with
    | nil => exact fun taken h => .inl h
    | cons x l ih =>
      intro taken h
      rw [List.foldl_cons] at h
      rcases ih _ h with h | h
      · cases taken with
        | none =>
          cases h
          exact .inr List.mem_cons_self
        | some y =>
          dsimp only at h
          split_ifs at h
          · cases h
            exact .inr List.mem_cons_self
          · exact .inl h
      · exact .inr (List.mem_cons_of_mem x h)
  have hmem := (hall _ none h).resolve_left (by simp)
  obtain ⟨hheld, htest⟩ := List.mem_filter.1 hmem
  rw [Bool.and_eq_true, decide_eq_true_eq] at htest
  exact ⟨hheld, htest.1, htest.2⟩

theorem retire_lookup : (t.retire key).held.lookup k = if k == key then none else t.held.lookup k := by
  rw [retire, arm_held, lookup_without]

theorem retire_active (hk : k ≠ key) : (t.retire key).active.lookup k = t.active.lookup k := by
  rw [retire, arm_active]
  dsimp only
  split_ifs
  · rfl
  · rw [lookup_put, beq_false_of_ne hk, if_neg Bool.false_ne_true]

theorem retire_active_isSome : ((t.retire key).active.lookup k).isSome = (t.active.lookup k).isSome := by
  rw [retire, arm_active]
  dsimp only
  by_cases hidle : t.idle key
  · rw [if_pos hidle]
  · rw [if_neg hidle, lookup_put]
    by_cases hk : k = key
    · rw [hk, beq_self_eq_true, if_pos rfl]
      rw [idle, Bool.not_eq_true, Option.isNone_eq_false_iff] at hidle
      exact hidle.symm
    · rw [beq_false_of_ne hk, if_neg Bool.false_ne_true]

theorem complete_held_other {answer : Option Nat} {merge : Bool} (hk : k ≠ key) :
    (t.complete key answer merge).held.lookup k = t.held.lookup k := by
  have hne : (k == key) = false := beq_false_of_ne hk
  rw [complete]
  cases t.active.lookup key with
  | none => rfl
  | some retired =>
    cases retired with
    | true => rfl
    | false =>
      dsimp only [arm_held]
      cases t.next key answer merge with
      | none => simp [lookup_without, hne]
      | some time => simp [lookup_put, hne]

theorem complete_held_self {answer : Option Nat} {merge : Bool} (hactive : t.active.lookup key = some false) :
    (t.complete key answer merge).held.lookup key = t.next key answer merge := by
  rw [complete, hactive]
  dsimp only [arm_held]
  cases t.next key answer merge with
  | none => simp [lookup_without]
  | some time => simp [lookup_put]

theorem complete_held_retired {answer : Option Nat} {merge : Bool} (hactive : t.active.lookup key = some true) :
    (t.complete key answer merge).held = t.held := by
  rw [complete, hactive]
  rfl

theorem complete_active {answer : Option Nat} {merge : Bool} :
    (t.complete key answer merge).active.lookup k = if k == key then none else t.active.lookup k := by
  rw [complete]
  cases hactive : t.active.lookup key with
  | none =>
    by_cases hk : k = key
    · rw [hk, beq_self_eq_true, if_pos rfl, hactive]
    · rw [beq_false_of_ne hk, if_neg Bool.false_ne_true]
  | some retired => rw [arm_active, lookup_without]

theorem armed_complete {answer : Option Nat} {merge : Bool} (hactive : (t.active.lookup key).isSome) :
    (t.complete key answer merge).Armed := by
  obtain ⟨retired, hretired⟩ := Option.isSome_iff_exists.1 hactive
  rw [complete, hretired]
  exact armed_arm _

theorem next_merged (t : Timer) (key : String) (a : Nat) : ∃ x, t.next key (some a) true = some x ∧ x ≤ a := by
  cases hy : t.held.lookup key with
  | none => exact ⟨a, by simp only [next, hy, if_true], Nat.le_refl a⟩
  | some y => exact ⟨min a y, by simp only [next, hy, if_true], Nat.min_le_left a y⟩

/-- What was announced meanwhile is kept or brought forward. -/
theorem next_announced (answer : Option Nat) {y : Nat} (hy : t.held.lookup key = some y) :
    ∃ x, t.next key answer true = some x ∧ x ≤ y := by
  cases answer with
  | none => exact ⟨y, by simp only [next, hy, if_true], Nat.le_refl y⟩
  | some a => exact ⟨min a y, by simp only [next, hy, if_true], Nat.min_le_right a y⟩

end Timer

variable {h h' : Host} {key : String} {due : Nat}

theorem Host.Good.mono {x : Nat} (hx : h.Good key due x) (hback : h.backoffs ⊆ h'.backoffs) :
    h'.Good key due x :=
  hx.imp_right fun ⟨b, hb, hxb⟩ => ⟨b, hback hb, hxb⟩

theorem Stage.Covers.frame {stage : Stage} (hc : stage.Covers h key due)
    (hanswers : h'.answers.lookup key = h.answers.lookup key) (hback : h.backoffs ⊆ h'.backoffs) :
    stage.Covers h' key due := by
  cases stage with
  | taken => trivial
  | begun => trivial
  | read next => exact hc
  | settled =>
    obtain ⟨n, hn, hgood⟩ := hc
    exact ⟨n, hanswers.trans hn, hgood.mono hback⟩
  | ended ok =>
    cases ok with
    | false => trivial
    | true =>
      obtain ⟨n, hn, hgood⟩ := hc
      exact ⟨n, hanswers.trans hn, hgood.mono hback⟩

/-- A scope's runs stay waited for where its deadline, its callback and its answer stay. -/
theorem Host.Covered.frame (hc : h.Covered key due)
    (hheld : h'.timer.held.lookup key = h.timer.held.lookup key)
    (hactive : h'.timer.active.lookup key = h.timer.active.lookup key)
    (hanswers : h'.answers.lookup key = h.answers.lookup key)
    (hwakes : ∀ wake ∈ h.wakes, wake.key = key → wake ∈ h'.wakes)
    (hback : h.backoffs ⊆ h'.backoffs) : h'.Covered key due := by
  rcases hc with ⟨x, hx, hgood⟩ | ⟨wake, hwake, hkey, hlive, hcovers⟩
  · exact .inl ⟨x, hheld.trans hx, hgood.mono hback⟩
  · exact .inr ⟨wake, hwakes wake hwake hkey, hkey, hactive.trans hlive, hcovers.frame hanswers hback⟩

/-- The least due time the pass reads is no later than that of a queued run. -/
theorem minDue_le {r : QueuedRun} (hr : r ∈ h.runs) (hqueued : r.queued) (dues : List Nat) :
    ∃ n ∈ h.minDue r.scope dues, n ≤ r.due := by
  have hmem : r.due ∈ ((h.runs.filter fun q => q.scope = r.scope ∧ q.queued).map (·.due)) ++ dues := by
    refine List.mem_append_left _ (List.mem_map.2 ⟨r, List.mem_filter.2 ⟨hr, ?_⟩, rfl⟩)
    exact decide_eq_true ⟨rfl, hqueued⟩
  cases hmin : h.minDue r.scope dues with
  | none =>
    rw [Host.minDue, List.min?_eq_none_iff] at hmin
    rw [hmin] at hmem
    cases hmem
  | some n =>
    refine ⟨n, rfl, ?_⟩
    rw [Host.minDue, List.min?_eq_some_iff] at hmin
    exact hmin.2 _ hmem

section Wakes

variable {w : Nat} {wake other : Wake} {stage : Stage}

theorem setStage_keys (stage : Stage) (hw : h.wakes[w]? = some wake) :
    (h.setStage w wake stage).wakes.map (·.key) = h.wakes.map (·.key) := by
  rw [Host.setStage]
  dsimp only
  rw [List.map_set]
  refine List.ext_getElem? fun i => ?_
  by_cases hi : i = w
  · subst hi
    have hlt : i < h.wakes.length := (List.getElem?_eq_some_iff.1 hw).1
    rw [List.getElem?_set_self (by simpa using hlt), List.getElem?_map, hw, Option.map_some]
  · rw [List.getElem?_set_ne (Ne.symm hi)]

theorem mem_setStage_self (hw : h.wakes[w]? = some wake) :
    { wake with stage := stage } ∈ (h.setStage w wake stage).wakes :=
  List.mem_set (List.getElem?_eq_some_iff.1 hw).1 _

theorem mem_setStage_other (hw : h.wakes[w]? = some wake) (hmem : other ∈ h.wakes)
    (hne : other.key ≠ wake.key) : other ∈ (h.setStage w wake stage).wakes := by
  obtain ⟨i, hi⟩ := List.mem_iff_getElem?.1 hmem
  have hiw : i ≠ w := by
    rintro rfl
    rw [hw] at hi
    cases hi
    exact hne rfl
  refine List.mem_iff_getElem?.2 ⟨i, ?_⟩
  rw [Host.setStage, List.getElem?_set_ne hiw.symm, hi]

theorem mem_erased (hw : h.wakes[w]? = some wake) (hmem : other ∈ h.wakes)
    (hne : other.key ≠ wake.key) : other ∈ h.wakes.eraseIdx w := by
  obtain ⟨i, hi⟩ := List.mem_iff_getElem?.1 hmem
  refine List.mem_eraseIdx_iff_getElem?.2 ⟨i, ?_, hi⟩
  rintro rfl
  rw [hw] at hi
  cases hi
  exact hne rfl

/-- A scope has one wake at a time. -/
theorem Waited.wake_unique (hinv : Waited h) (hw : h.wakes[w]? = some wake) (hmem : other ∈ h.wakes)
    (hkey : other.key = wake.key) : other = wake :=
  List.inj_on_of_nodup_map hinv.keys hmem (List.mem_of_getElem? hw) hkey

theorem Waited.wake_active (hinv : Waited h) (hw : h.wakes[w]? = some wake) :
    (h.timer.active.lookup wake.key).isSome :=
  (hinv.active wake.key).2 (List.mem_map.2 ⟨wake, List.mem_of_getElem? hw, rfl⟩)

/-- A wake goes to its next stage: the other scopes are as before, and what its own runs have of the
wake they still have. -/
theorem Waited.toStage (hinv : Waited h) (hw : h.wakes[w]? = some wake) (waking : List String)
    (answers : List (String × Option Nat)) (backoffs : List (String × Nat))
    (hh : h' = { h.setStage w wake stage with waking := waking, answers := answers, backoffs := backoffs })
    (hends : (∃ ok, stage.ends ok) → wake.key ∈ waking)
    (hwaking : ∀ k ≠ wake.key, k ∈ h.waking → k ∈ waking)
    (hanswers : ∀ k ≠ wake.key, answers.lookup k = h.answers.lookup k) (hback : h.backoffs ⊆ backoffs)
    (hself : ∀ r ∈ h.runs, r.queued → r.scope = wake.key → wake.stage.Covers h wake.key r.due →
      stage.Covers h' wake.key r.due) : Waited h' := by
  have hkeys := setStage_keys stage hw
  subst hh
  refine ⟨hinv.armed, hkeys ▸ hinv.keys, fun k => (hinv.active k).trans (by rw [← hkeys]), ?_, ?_⟩
  · intro other hother hstage
    rcases List.mem_or_eq_of_mem_set hother with hmem | rfl
    · by_cases hkey : other.key = wake.key
      · -- the only wake of this key is the one that changed its stage
        have hsame := hinv.wake_unique hw hmem hkey
        have hnodup : ((h.setStage w wake stage).wakes.map (·.key)).Nodup := hkeys ▸ hinv.keys
        have hnew : other = { wake with stage := stage } :=
          List.inj_on_of_nodup_map hnodup hother (mem_setStage_self hw) hkey
        rw [hnew] at hstage ⊢
        exact hends hstage
      · exact hwaking other.key hkey (hinv.waking other hmem hstage)
    · exact hends hstage
  · intro r hr hqueued htold
    have hc := hinv.covered r hr hqueued htold
    by_cases hkey : r.scope = wake.key
    · rcases hc with ⟨x, hx, hgood⟩ | ⟨other, hother, hkey', hlive, hcovers⟩
      · exact .inl ⟨x, hx, hgood.mono hback⟩
      · have hsame := hinv.wake_unique hw hother (hkey'.trans hkey)
        subst hsame
        refine .inr ⟨_, mem_setStage_self hw, hkey.symm, hlive, ?_⟩
        have hnext := hself r hr hqueued hkey (hkey ▸ hcovers)
        rwa [← hkey] at hnext
    · exact hc.frame rfl rfl (hanswers _ hkey)
        (fun other hother hother' => mem_setStage_other hw hother (hother' ▸ hkey)) hback

end Wakes

theorem Waited.begin (hinv : Waited h) (w : Nat) : Waited (step h (.begin w)) := by
  delta step
  dsimp only
  split
  · next key hw =>
    refine hinv.toStage hw (key :: h.waking) (Lib.without key h.answers) h.backoffs rfl (fun _ => List.mem_cons_self)
      (fun k _ hk => List.mem_cons_of_mem key hk) (fun k hk => ?_) (List.Subset.refl _)
      (fun _ _ _ _ _ => trivial)
    rw [lookup_without, beq_false_of_ne hk, if_neg Bool.false_ne_true]
  · exact hinv

theorem Waited.read (hinv : Waited h) (w : Nat) (dues : List Nat) : Waited (step h (.read w dues)) := by
  delta step
  dsimp only
  split
  · next key hw =>
    refine hinv.toStage hw h.waking h.answers h.backoffs rfl ?_
      (fun _ _ hk => hk) (fun _ _ => rfl) (List.Subset.refl _) ?_
    · exact fun _ => hinv.waking _ (List.mem_of_getElem? hw) ⟨false, rfl⟩
    · intro r hr hqueued hkey _
      have hmin := minDue_le hr hqueued dues
      rw [hkey] at hmin
      exact hmin
  · exact hinv

theorem Waited.settle (hinv : Waited h) (w : Nat) : Waited (step h (.settle w)) := by
  delta step
  dsimp only
  split
  · next key next hw =>
    have hwaking : key ∈ h.waking := hinv.waking _ (List.mem_of_getElem? hw) ⟨false, rfl⟩
    rw [Host.settle, if_pos hwaking]
    refine hinv.toStage hw h.waking (put key next h.answers) h.backoffs rfl (fun _ => hwaking) (fun _ _ hk => hk) (fun k hk => ?_) (List.Subset.refl _) ?_
    · rw [lookup_put, beq_false_of_ne hk, if_neg Bool.false_ne_true]
    · rintro r _ _ _ ⟨n, hn, hle⟩
      refine ⟨n, ?_, .inl hle⟩
      rw [Option.mem_def] at hn
      rw [← hn]
      exact (lookup_put).trans (if_pos (beq_self_eq_true key))
  · exact hinv

theorem Waited.park (hinv : Waited h) (w : Nat) : Waited (step h (.park w)) := by
  delta step
  dsimp only
  split
  · next key hw =>
    have hwaking : key ∈ h.waking := hinv.waking _ (List.mem_of_getElem? hw) ⟨false, rfl⟩
    rw [Host.settle, if_pos hwaking]
    refine hinv.toStage hw h.waking (put key (some (h.now + PARKED_WAKE_MS)) h.answers)
      ((key, h.now + PARKED_WAKE_MS) :: h.backoffs) rfl (fun _ => hwaking) (fun _ _ hk => hk) (fun k hk => ?_) (List.subset_cons_self _ _) ?_
    · rw [lookup_put, beq_false_of_ne hk, if_neg Bool.false_ne_true]
    · intro r _ _ _ _
      refine ⟨h.now + PARKED_WAKE_MS, ?_, .inr ⟨_, List.mem_cons_self, Nat.le_refl _⟩⟩
      exact (lookup_put).trans (if_pos (beq_self_eq_true key))
  · exact hinv

theorem Waited.wakeEnd (hinv : Waited h) (w : Nat) (ok : Bool) : Waited (step h (.wakeEnd w ok)) := by
  delta step
  dsimp only
  cases hw : h.wakes[w]? with
  | none => exact hinv
  | some wake =>
    dsimp only
    split_ifs with hends
    · refine hinv.toStage hw (h.waking.filter (· ≠ wake.key)) h.answers h.backoffs rfl ?_ ?_
        (fun _ _ => rfl) (List.Subset.refl _) ?_
      · rintro ⟨ok', hok'⟩
        cases hok'
      · intro k hk hmem
        exact List.mem_filter.2 ⟨hmem, decide_eq_true hk⟩
      · intro r _ _ _ hcovers
        cases ok with
        | false => trivial
        | true =>
          -- a wake over without a failure is one whose pass settled
          have hsettled : wake.stage = .settled := by
            cases hstage : wake.stage <;> simp [hstage, Stage.ends] at hends ⊢
          rw [hsettled] at hcovers
          exact hcovers
    · exact hinv

theorem Waited.announce (hinv : Waited h) (i : Nat) : Waited (step h (.announce i)) := by
  delta step
  dsimp only
  cases hi : h.runs[i]? with
  | none => exact hinv
  | some r =>
    obtain ⟨x, hx, hle, hmin⟩ := h.timer.announce_self r.scope r.due
    have hactive : (h.timer.announce r.scope r.due).active = h.timer.active := Timer.announce_active r.due
    refine ⟨.inl (Timer.armed_announce r.due), hinv.keys, ?_, hinv.waking, ?_⟩
    · exact fun key => hactive ▸ hinv.active key
    · intro q hq hqueued htold
      rcases List.mem_or_eq_of_mem_set hq with hq | rfl
      · by_cases hkey : q.scope = r.scope
        · rcases hinv.covered q hq hqueued htold with ⟨y, hy, hgood⟩ | ⟨wake, hwake, hkey', hlive, hcovers⟩
          · exact .inl ⟨x, hkey ▸ hx, Host.Good.le (h := h) hgood (hmin y (hkey ▸ hy))⟩
          · exact .inr ⟨wake, hwake, hkey', hactive ▸ hlive, hcovers.frame rfl (List.Subset.refl _)⟩
        · exact (hinv.covered q hq hqueued htold).frame (Timer.announce_other r.due hkey)
            (congrArg (List.lookup q.scope) hactive) rfl (fun wake hwake _ => hwake) (List.Subset.refl _)
      · exact .inl ⟨x, hx, .inl hle⟩

theorem Waited.requeue (hinv : Waited h) (i due : Nat) : Waited (step h (.requeue i due)) := by
  delta step
  dsimp only
  cases hi : h.runs[i]? with
  | none => exact hinv
  | some r =>
    refine ⟨hinv.armed, hinv.keys, hinv.active, hinv.waking, fun q hq hqueued htold => ?_⟩
    rcases List.mem_or_eq_of_mem_set hq with hq | rfl
    · exact (hinv.covered q hq hqueued htold).frame rfl rfl rfl (fun wake hwake _ => hwake) (List.Subset.refl _)
    · cases htold

theorem Waited.take (hinv : Waited h) (i : Nat) : Waited (step h (.take i)) := by
  delta step
  dsimp only
  cases hi : h.runs[i]? with
  | none => exact hinv
  | some r =>
    refine ⟨hinv.armed, hinv.keys, hinv.active, hinv.waking, fun q hq hqueued htold => ?_⟩
    rcases List.mem_or_eq_of_mem_set hq with hq | rfl
    · exact (hinv.covered q hq hqueued htold).frame rfl rfl rfl (fun wake hwake _ => hwake) (List.Subset.refl _)
    · cases hqueued

theorem Waited.queue (hinv : Waited h) (scope : String) (due : Nat) : Waited (step h (.queue scope due)) := by
  refine ⟨hinv.armed, hinv.keys, hinv.active, hinv.waking, fun q hq hqueued htold => ?_⟩
  rcases List.mem_append.1 hq with hq | hq
  · exact (hinv.covered q hq hqueued htold).frame rfl rfl rfl (fun wake hwake _ => hwake) (List.Subset.refl _)
  · rw [List.mem_singleton.1 hq] at htold
    cases htold

theorem Waited.fire (hinv : Waited h) : Waited (step h .fire) := by
  delta step
  dsimp only
  split
  · exact hinv
  · split_ifs
    · refine ⟨.inr (Nat.succ_pos _), hinv.keys, hinv.active, hinv.waking, fun q hq hqueued htold => ?_⟩
      exact (hinv.covered q hq hqueued htold).frame rfl rfl rfl (fun wake hwake _ => hwake) (List.Subset.refl _)
    · exact hinv

theorem Waited.takeDue (hinv : Waited h) : Waited (step h .takeDue) := by
  delta step
  dsimp only
  split_ifs
  · exact hinv
  · rw [Timer.takeDue]
    cases hdue : h.timer.due h.now with
    | none =>
      simp only [Option.map_none, Option.toList_none, List.append_nil]
      refine ⟨.inl rfl, hinv.keys, hinv.active, hinv.waking, fun q hq hqueued htold => ?_⟩
      exact (hinv.covered q hq hqueued htold).frame rfl rfl rfl (fun wake hwake _ => hwake) (List.Subset.refl _)
    | some e =>
      obtain ⟨key, time⟩ := e
      simp only [Option.map_some, Option.toList_some]
      have hidle : h.timer.active.lookup key = none :=
        Option.isNone_iff_eq_none.1 (Timer.due_some hdue).2.1
      have hfresh : key ∉ h.wakes.map (·.key) := by
        rw [← hinv.active key, hidle]
        exact Bool.false_ne_true
      refine ⟨.inl rfl, ?_, ?_, ?_, ?_⟩
      · rw [List.map_append, List.nodup_append]
        refine ⟨hinv.keys, List.nodup_singleton key, ?_⟩
        rintro a ha b hb rfl
        rw [List.mem_singleton.1 hb] at ha
        exact hfresh ha
      · intro k
        rw [Timer.arm_active, lookup_put, List.map_append, List.mem_append]
        by_cases hk : k = key
        · rw [hk, beq_self_eq_true, if_pos rfl]
          exact ⟨fun _ => .inr List.mem_cons_self, fun _ => rfl⟩
        · rw [beq_false_of_ne hk, if_neg Bool.false_ne_true, hinv.active k]
          refine ⟨.inl, fun h => h.resolve_right fun hmem => hk (List.mem_singleton.1 hmem)⟩
      · intro wake hwake hends
        rcases List.mem_append.1 hwake with hwake | hwake
        · exact hinv.waking wake hwake hends
        · rw [List.mem_singleton.1 hwake] at hends
          obtain ⟨ok, hok⟩ := hends
          cases hok
      · intro q hq hqueued htold
        by_cases hkey : q.scope = key
        · refine .inr ⟨⟨key, .taken⟩, List.mem_append_right _ List.mem_cons_self, hkey.symm, ?_, trivial⟩
          rw [Timer.arm_active, lookup_put, hkey, beq_self_eq_true, if_pos rfl]
        · refine (hinv.covered q hq hqueued htold).frame ?_ ?_ rfl
            (fun wake hwake _ => List.mem_append_left _ hwake) (List.Subset.refl _)
          · rw [Timer.arm_held, lookup_without, beq_false_of_ne hkey, if_neg Bool.false_ne_true]
          · rw [Timer.arm_active, lookup_put, beq_false_of_ne hkey, if_neg Bool.false_ne_true]

/-- A failed wake leaves the scope the time it asked to come back at, a retired one the deadline held. -/
theorem complete_failed {w : Nat} (hinv : Waited h)
    (hw : h.wakes[w]? = some ⟨key, .ended false⟩) (hc : h.Covered key due)
    (hback : h'.backoffs = (key, h.now + FAILED_WAKE_MS) :: h.backoffs) :
    ∃ x, (h.timer.complete key (some (h.now + FAILED_WAKE_MS)) false).held.lookup key = some x ∧
      h'.Good key due x := by
  obtain ⟨retired, hretired⟩ := Option.isSome_iff_exists.1 (hinv.wake_active hw)
  cases retired with
  | false =>
    refine ⟨h.now + FAILED_WAKE_MS, ?_, .inr ⟨_, hback ▸ List.mem_cons_self, Nat.le_refl _⟩⟩
    rw [Timer.complete_held_self hretired]
    rfl
  | true =>
    rcases hc with ⟨x, hx, hgood⟩ | ⟨other, hother, hkey, hlive, hcovers⟩
    · refine ⟨x, ?_, hgood.mono (hback ▸ List.subset_cons_self _ _)⟩
      rw [Timer.complete_held_retired hretired, hx]
    · rw [hretired] at hlive
      cases hlive

/-- A wake that ended well leaves the earlier of its answer and what was announced meanwhile. -/
theorem complete_answered {w : Nat} (hinv : Waited h) (hw : h.wakes[w]? = some ⟨key, .ended true⟩)
    (hc : h.Covered key due) :
    ∃ x, (h.timer.complete key (h.answers.lookup key).join true).held.lookup key = some x ∧
      h.Good key due x := by
  obtain ⟨retired, hretired⟩ := Option.isSome_iff_exists.1 (hinv.wake_active hw)
  cases retired with
  | false =>
    rw [Timer.complete_held_self hretired]
    rcases hc with ⟨y, hy, hgood⟩ | ⟨other, hother, hkey, hlive, hcovers⟩
    · obtain ⟨x, hx, hle⟩ := Timer.next_announced (h.answers.lookup key).join hy
      exact ⟨x, hx, hgood.le hle⟩
    · rw [hinv.wake_unique hw hother hkey] at hcovers
      obtain ⟨n, hn, hgood⟩ := hcovers
      obtain ⟨x, hx, hle⟩ := h.timer.next_merged key n
      exact ⟨x, by rw [hn]; exact hx, hgood.le hle⟩
  | true =>
    rcases hc with ⟨x, hx, hgood⟩ | ⟨other, hother, hkey, hlive, hcovers⟩
    · exact ⟨x, by rw [Timer.complete_held_retired hretired, hx], hgood⟩
    · rw [hretired] at hlive
      cases hlive

/-- A completed callback leaves its scope a deadline for what it had yet to do. -/
theorem Waited.complete (hinv : Waited h) (w : Nat) : Waited (step h (.complete w)) := by
  delta step
  dsimp only
  split
  · next key ok hw =>
    have hsome := hinv.wake_active hw
    refine ⟨.inl (Timer.armed_complete hsome), hinv.keys.sublist ((List.eraseIdx_sublist _ _).map _), ?_, ?_, ?_⟩
    · intro k
      rw [Timer.complete_active]
      by_cases hk : k = key
      · rw [hk, beq_self_eq_true, if_pos rfl]
        refine ⟨fun h => absurd h Bool.false_ne_true, fun hmem => ?_⟩
        -- the wake that is over was the only one of the key
        obtain ⟨other, hother, hkey⟩ := List.mem_map.1 hmem
        obtain ⟨i, hi, hget⟩ := List.mem_eraseIdx_iff_getElem?.1 hother
        have hlt : i < (h.wakes.map (·.key)).length := by
          rw [List.length_map]
          exact (List.getElem?_eq_some_iff.1 hget).1
        have heq : (h.wakes.map (·.key))[i]? = (h.wakes.map (·.key))[w]? := by
          rw [List.getElem?_map, List.getElem?_map, hget, hw]
          exact congrArg some hkey
        exact absurd ((List.getElem?_inj hlt hinv.keys).1 heq) hi
      · rw [beq_false_of_ne hk, if_neg Bool.false_ne_true, hinv.active k]
        constructor
        · intro hmem
          obtain ⟨other, hother, rfl⟩ := List.mem_map.1 hmem
          exact List.mem_map.2 ⟨other, mem_erased hw hother hk, rfl⟩
        · intro hmem
          obtain ⟨other, hother, rfl⟩ := List.mem_map.1 hmem
          exact List.mem_map.2 ⟨other, List.mem_of_mem_eraseIdx hother, rfl⟩
    · exact fun other hother => hinv.waking other (List.mem_of_mem_eraseIdx hother)
    · intro r hr hqueued htold
      have hback : h.backoffs ⊆ if ok then h.backoffs else (key, h.now + FAILED_WAKE_MS) :: h.backoffs := by
        cases ok with
        | true => exact List.Subset.refl _
        | false => exact List.subset_cons_self _ _
      have hc := hinv.covered r hr hqueued htold
      by_cases hkey : r.scope = key
      · subst hkey
        cases ok with
        | false => exact .inl (complete_failed hinv hw hc rfl)
        | true => exact .inl (complete_answered hinv hw hc)
      · refine hc.frame (Timer.complete_held_other hkey) ?_ ?_
          (fun other hother hother' => mem_erased hw hother (hother' ▸ hkey)) hback
        · rw [Timer.complete_active, beq_false_of_ne hkey, if_neg Bool.false_ne_true]
        · rw [lookup_without, beq_false_of_ne hkey, if_neg Bool.false_ne_true]
  · exact hinv

theorem Waited.retire (hinv : Waited h) (scope : String) : Waited (step h (.retire scope)) := by
  refine ⟨.inl rfl, hinv.keys, fun key => ?_, hinv.waking, fun q hq hqueued htold => ?_⟩
  · refine Iff.trans ?_ (hinv.active key)
    exact (congrArg (· = true) Timer.retire_active_isSome).to_iff
  · obtain ⟨r, hr, rfl⟩ := List.mem_map.1 hq
    by_cases hscope : r.scope = scope
    · rw [if_pos hscope] at htold
      exact absurd htold Bool.false_ne_true
    · rw [if_neg hscope] at hqueued htold ⊢
      refine (hinv.covered r hr hqueued htold).frame ?_ (Timer.retire_active hscope) rfl
        (fun wake hwake _ => hwake) (List.Subset.refl _)
      exact Timer.retire_lookup.trans (by rw [beq_false_of_ne hscope, if_neg Bool.false_ne_true])

/-- The condition of a step: a pass that settles outside a callback knows of each announced run of its
scope, at its due time or an earlier one. -/
def Step.Timely (h : Host) : Step → Prop
  | .passSettle p => ∀ pass ∈ h.passes[p]?, ∀ r ∈ h.runs, r.scope = pass.1 → r.queued → r.told →
      ∃ n ∈ pass.2, n ≤ r.due
  | _ => True

instance (h : Host) : (a : Step) → Decidable (a.Timely h)
  | .passSettle p => inferInstanceAs (Decidable (∀ pass ∈ h.passes[p]?, ∀ r ∈ h.runs, _ → _ → _ → ∃ n ∈ pass.2, _))
  | .tick _ | .queue .. | .announce _ | .take _ | .requeue .. | .fire | .takeDue | .begin _ | .read ..
  | .settle _ | .park _ | .wakeEnd .. | .complete _ | .passRead .. | .retire _ => isTrue trivial

theorem Waited.passSettle (hinv : Waited h) (p : Nat) (ha : (Step.passSettle p).Timely h) :
    Waited (step h (.passSettle p)) := by
  delta step
  dsimp only
  cases hp : h.passes[p]? with
  | none => exact hinv
  | some pass =>
    obtain ⟨scope, next⟩ := pass
    have htimely : ∀ r ∈ h.runs, r.scope = scope → r.queued → r.told → ∃ n ∈ next, n ≤ r.due := ha _ hp
    dsimp only [Host.settle]
    split_ifs with hwaking
    · -- the pass answers for the wake of its scope that is under way
      refine ⟨hinv.armed, hinv.keys, hinv.active, hinv.waking, fun r hr hqueued htold => ?_⟩
      have hc := hinv.covered r hr hqueued htold
      by_cases hkey : r.scope = scope
      · obtain ⟨n, hn, hle⟩ := htimely r hr hkey hqueued htold
        rw [Option.mem_def] at hn
        have hanswer : (put scope next h.answers).lookup r.scope = some (some n) := by
          rw [lookup_put, hkey, beq_self_eq_true, if_pos rfl, ← hn]
        rcases hc with hheld | ⟨wake, hwake, hkey', hlive, hcovers⟩
        · exact .inl hheld
        · refine .inr ⟨wake, hwake, hkey', hlive, ?_⟩
          cases hstage : wake.stage with
          | taken => trivial
          | begun => trivial
          | read next' =>
            rw [hstage] at hcovers
            exact hcovers
          | settled => exact ⟨n, hanswer, .inl hle⟩
          | ended ok =>
            cases ok with
            | false => trivial
            | true => exact ⟨n, hanswer, .inl hle⟩
      · refine hc.frame rfl rfl ?_ (fun wake hwake _ => hwake) (List.Subset.refl _)
        exact (lookup_put).trans (by rw [beq_false_of_ne hkey, if_neg Bool.false_ne_true])
    · refine ⟨.inl (Timer.armed_settle next), hinv.keys, fun key => ?_, hinv.waking, fun r hr hqueued htold => ?_⟩
      · have hactive : (h.timer.settle scope next).active = h.timer.active := Timer.settle_active next
        exact hactive ▸ hinv.active key
      · by_cases hkey : r.scope = scope
        · obtain ⟨n, hn, hle⟩ := htimely r hr hkey hqueued htold
          rw [Option.mem_def] at hn
          refine .inl ⟨n, ?_, .inl hle⟩
          exact (Timer.settle_lookup next).trans (by rw [hkey, beq_self_eq_true, if_pos rfl, hn])
        · refine (hinv.covered r hr hqueued htold).frame ?_ ?_ rfl (fun wake hwake _ => hwake)
            (List.Subset.refl _)
          · exact (Timer.settle_lookup next).trans (by rw [beq_false_of_ne hkey, if_neg Bool.false_ne_true])
          · exact congrArg (List.lookup r.scope) (Timer.settle_active next)

theorem Waited.step (hinv : Waited h) (a : Step) (ha : a.Timely h) : Waited (step h a) := by
  have hsame : ∀ h' : Host, h'.timer = h.timer → h'.callbacks = h.callbacks → h'.wakes = h.wakes →
      h'.waking = h.waking → h'.runs = h.runs → h'.answers = h.answers → h'.backoffs = h.backoffs →
      Waited h' := by
    rintro ⟨⟩ rfl rfl rfl rfl rfl rfl rfl
    exact ⟨hinv.armed, hinv.keys, hinv.active, hinv.waking, fun r hr hqueued htold =>
      (hinv.covered r hr hqueued htold).frame rfl rfl rfl (fun wake hwake _ => hwake) (List.Subset.refl _)⟩
  cases a with
  | tick ms => exact hsame _ rfl rfl rfl rfl rfl rfl rfl
  | queue scope due => exact hinv.queue scope due
  | announce i => exact hinv.announce i
  | take i => exact hinv.take i
  | requeue i due => exact hinv.requeue i due
  | fire => exact hinv.fire
  | takeDue => exact hinv.takeDue
  | begin w => exact hinv.begin w
  | read w dues => exact hinv.read w dues
  | settle w => exact hinv.settle w
  | park w => exact hinv.park w
  | wakeEnd w ok => exact hinv.wakeEnd w ok
  | complete w => exact hinv.complete w
  | passRead scope dues => exact hsame _ rfl rfl rfl rfl rfl rfl rfl
  | passSettle p => exact hinv.passSettle p ha
  | retire scope => exact hinv.retire scope

theorem waited_init : Waited .init :=
  ⟨.inl rfl, List.nodup_nil, fun key => by simp [Host.init], by simp [Host.init], by simp [Host.init]⟩

/-- The timer is armed for no later than `x`, or one of its firings is being handled. -/
def Host.ArmedBy (h : Host) (x : Nat) : Prop := (∃ time ∈ h.timer.armedFor, time ≤ x) ∨ 0 < h.callbacks

/-- A deadline of a scope whose callback is not running is one the timer is armed for. -/
theorem Waited.armedBy (hinv : Waited h) {x : Nat} (hx : h.timer.held.lookup key = some x)
    (hidle : h.timer.idle key) : h.ArmedBy x := by
  refine hinv.armed.imp_left fun harmed => ?_
  have hmem : x ∈ (h.timer.held.filter fun e => h.timer.idle e.1).map (·.2) :=
    List.mem_map.2 ⟨(key, x), List.mem_filter.2 ⟨mem_of_lookup hx, hidle⟩, rfl⟩
  cases hmin : h.timer.earliest with
  | none =>
    rw [Timer.earliest, List.min?_eq_none_iff] at hmin
    rw [hmin] at hmem
    cases hmem
  | some time =>
    refine ⟨time, harmed.trans hmin, ?_⟩
    rw [Timer.earliest, List.min?_eq_some_iff] at hmin
    exact hmin.2 x hmem

/-- An announced run waits: a deadline is held for it, which the timer is armed for unless a callback of
the scope is active, or an active callback will settle for it. -/
def Host.Waits (h : Host) (r : QueuedRun) : Prop :=
  (∃ x, h.timer.held.lookup r.scope = some x ∧ h.Good r.scope r.due x ∧
    (h.timer.idle r.scope → h.ArmedBy x)) ∨
  ∃ wake ∈ h.wakes, wake.key = r.scope ∧ h.timer.active.lookup r.scope = some false ∧
    wake.stage.Covers h r.scope r.due

theorem Waited.waits (hinv : Waited h) {r : QueuedRun} (hr : r ∈ h.runs) (hqueued : r.queued)
    (htold : r.told) : h.Waits r := by
  refine (hinv.covered r hr hqueued htold).imp_left ?_
  rintro ⟨x, hx, hgood⟩
  exact ⟨x, hx, hgood, hinv.armedBy hx⟩

/-- Where no pass outside a callback settles past an announced run, every announced run waits: of a
scope not retired since, for its due time or what a failed or parked wake asked for. -/
theorem run_waits (steps : List Step) (hsteps : Meets step (fun h a => a.Timely h) .init steps) :
    ∀ r ∈ (run .init steps).runs, r.queued → r.told → (run .init steps).Waits r := by
  have hstep : ∀ h (a : Step), Waited h → a.Timely h → Waited (step h a) := fun h a hinv ha => hinv.step a ha
  have hinv : Waited (run .init steps) := hsteps.invariant hstep waited_init
  exact fun r hr hqueued htold => hinv.waits hr hqueued htold

/-- A run announced while its scope wakes for another, after the wake's pass read. -/
def announcedMeanwhile : List Step :=
  [.queue "crm" 10, .announce 0, .tick 10, .fire, .takeDue, .begin 0, .take 0, .read 0 [],
    .queue "crm" 40, .announce 1, .settle 0, .wakeEnd 0 true, .complete 0]

theorem announcedMeanwhile_waits : (⟨"crm", 40, true, true⟩ : QueuedRun) ∈ (run .init announcedMeanwhile).runs ∧
    ∀ r ∈ (run .init announcedMeanwhile).runs, r.queued → r.told → (run .init announcedMeanwhile).Waits r :=
  ⟨by decide, run_waits announcedMeanwhile (by decide)⟩

/-- A wake that fails rests its scope for a minute, past the run announced meanwhile. -/
theorem failedWake_rests : ¬ ∀ (steps : List Step), ∀ r ∈ (run .init steps).runs, r.queued → r.told →
    (∃ x, (run .init steps).timer.held.lookup r.scope = some x ∧ x ≤ r.due) ∨
    ((run .init steps).timer.active.lookup r.scope).isSome ∨
    ∃ time ∈ (run .init steps).timer.armedFor, time ≤ r.due := by
  intro hall
  have hrun := hall [.queue "crm" 10, .announce 0, .tick 10, .fire, .takeDue, .begin 0, .queue "crm" 40,
    .announce 1, .wakeEnd 0 false, .complete 0] ⟨"crm", 40, true, true⟩ (by decide) rfl rfl
  revert hrun
  decide

end Norbital.Bolt.Deadlines

import Mathlib.Algebra.GroupWithZero.Nat
import Mathlib.Data.List.Nodup
import Norbital.Lib.Runs

/-!
# One live connection for a browser's tabs

The tabs of a browser share one stream (`sharedSource`, `bolt/src/page/stream.ts`).  The tab that holds
the lock opens the stream and relays its frames; the others follow, and one that joins asks for the
first frame, the stream's `hello`.  When the tab that leads goes, its lock passes to the next.

Messages go from tab to tab in the order they were posted; those of two senders arrive in any order.
A frame is named by the tab whose stream brought it and its place in that stream.
-/

namespace Norbital.Bolt.Shared

variable {ι : Type} [DecidableEq ι]

/-- A frame: the tab whose stream brought it, and which frame of that stream it is. -/
abbrev Frame (ι : Type) := ι × Nat

/-- On the channel: a frame relayed, a joining tab's question, or its answer with the stream's `hello`. -/
inductive Message (ι : Type) where
  | frame (frame : Frame ι)
  | ask (who : ι)
  | answer (asker : ι) (hello : Frame ι)
  deriving DecidableEq, Repr

/-- A tab: whether it is there, the frames its own stream brought so far (`none`: it opened no stream),
and the frames its page heard. -/
structure Tab (ι : Type) where
  joined : Bool
  closed : Bool
  source : Option Nat
  hello : Option (Frame ι)
  heard : Bool
  delivered : List (Frame ι)

structure State (ι : Type) where
  tabs : ι → Tab ι
  queue : ι → ι → List (Message ι)
  waiting : List ι
  holder : Option ι

def init : State ι := ⟨fun _ => ⟨false, false, none, none, false, []⟩, fun _ _ => [], [], none⟩

def Tab.listens (tab : Tab ι) : Bool := tab.joined && !tab.closed

def Tab.deliver (tab : Tab ι) (frame : Frame ι) : Tab ι :=
  { tab with heard := true, delivered := tab.delivered ++ [frame] }

namespace State

def setTab (s : State ι) (t : ι) (tab : Tab ι) : State ι := { s with tabs := Function.update s.tabs t tab }

/-- A message goes to every other tab whose channel is open. -/
def post (s : State ι) (sender : ι) (message : Message ι) : State ι :=
  { s with
    queue := fun a b => if a = sender ∧ b ≠ sender ∧ (s.tabs b).listens = true then s.queue a b ++ [message] else s.queue a b }

/-- The first message from `a` to `b` is taken off the queue. -/
def taken (s : State ι) (a b : ι) : State ι :=
  { s with queue := fun a' b' => if a' = a ∧ b' = b then (s.queue a b).tail else s.queue a' b' }

/-- A tab hears of the channel. -/
def onmessage (s : State ι) (t : ι) (message : Message ι) : State ι :=
  match message with
  | .frame frame => if (s.tabs t).source = none then s.setTab t ((s.tabs t).deliver frame) else s
  | .ask who =>
    match (s.tabs t).hello with
    | some hello => s.post t (.answer who hello)
    | none => s
  | .answer asker hello => if asker = t ∧ (s.tabs t).heard = false then s.setTab t ((s.tabs t).deliver hello) else s

end State

/-- A tab opens; the lock is handed to the tab first in line, whose stream opens or not; a stream brings a
frame; a message arrives; a tab closes. -/
inductive Event (ι : Type) where
  | join (t : ι)
  | grant (opens : Bool)
  | frame (t : ι)
  | receive (a b : ι)
  | close (t : ι)

def step (s : State ι) : Event ι → State ι
  | .join t =>
    if (s.tabs t).joined = true then s
    else ({ s.setTab t { s.tabs t with joined := true } with waiting := s.waiting ++ [t] }).post t (.ask t)
  | .grant opens =>
    match s.holder, s.waiting with
    | none, t :: waiting =>
      if opens = true then { s.setTab t { s.tabs t with source := some 0 } with waiting, holder := some t }
      -- a stream that could not be opened gives the lock back
      else { s with waiting }
    | _, _ => s
  | .frame t =>
    match (s.tabs t).source with
    | none => s
    | some n =>
      if (s.tabs t).closed = true then s
      else
        (s.post t (.frame (t, n))).setTab t
          ({ s.tabs t with source := some (n + 1), hello := (s.tabs t).hello.or (some (t, n)) }.deliver (t, n))
  | .receive a b =>
    match s.queue a b with
    | [] => s
    | message :: _ => if (s.tabs b).closed = true then s.taken a b else (s.taken a b).onmessage b message
  | .close t =>
    if (s.tabs t).listens = true then
      { s.setTab t { s.tabs t with closed := true } with
        waiting := s.waiting.filter (· ≠ t), holder := if s.holder = some t then none else s.holder }
    else s

def run (events : List (Event ι)) : State ι := events.foldl step init

/-- The places of the frames among messages. -/
def framesOf (queue : List (Message ι)) : List Nat :=
  queue.filterMap fun
    | .frame frame => some frame.2
    | _ => none

/-- How many frames a tab's own stream brought. -/
def State.sent (s : State ι) (t : ι) : Nat := (s.tabs t).source.getD 0

/-- A tab that is open and has no stream of its own. -/
def State.follows (s : State ι) (t : ι) : Bool := (s.tabs t).listens && (s.tabs t).source.isNone

/-- The frames of `a`'s stream that `b`'s page heard, in the order it heard them. -/
def State.got (s : State ι) (a b : ι) : List Nat := ((s.tabs b).delivered.filter (·.1 = a)).map (·.2)

/-- What of a state matters to the frames that go from one tab to another. -/
structure Link (ι : Type) where
  sent : Nat
  follows : Bool
  heard : Bool
  got : List Nat
  queue : List (Message ι)

def State.link (s : State ι) (a b : ι) : Link ι := ⟨s.sent a, s.follows b, (s.tabs b).heard, s.got a b, s.queue a b⟩

/-- What a step does to the link from `a` to `b`. -/
inductive Link.Moves (a b : ι) : Link ι → Link ι → Prop
  | stay (l : Link ι) : Moves a b l l
  | joins (n : Nat) : Moves a b ⟨n, false, false, [], []⟩ ⟨n, true, false, [], []⟩
  | sends {n : Nat} {follows heard : Bool} {got : List Nat} {queue queue' : List (Message ι)}
      (h : queue' = queue ++ [.frame (a, n)] ∨ follows = false ∧ queue' = queue) :
      Moves a b ⟨n, follows, heard, got, queue⟩ ⟨n + 1, follows, heard, got, queue'⟩
  | posts {n : Nat} {follows heard : Bool} {got : List Nat} {queue : List (Message ι)} {message : Message ι}
      (h : message = .ask a ∨ ∃ who, message = .answer who (a, 0) ∧ 0 < n) :
      Moves a b ⟨n, follows, heard, got, queue⟩ ⟨n, follows, heard, got, queue ++ [message]⟩
  | hears {n k : Nat} {heard : Bool} {got : List Nat} {queue : List (Message ι)} :
      Moves a b ⟨n, true, heard, got, .frame (a, k) :: queue⟩ ⟨n, true, true, got ++ [k], queue⟩
  | greeted {n : Nat} {follows : Bool} {got : List Nat} {queue : List (Message ι)} :
      Moves a b ⟨n, follows, false, got, .answer b (a, 0) :: queue⟩ ⟨n, follows, true, got ++ [0], queue⟩
  | drops {n : Nat} {follows heard : Bool} {got : List Nat} {queue : List (Message ι)} {message : Message ι}
      (h : follows = true → (∀ frame, message ≠ .frame frame) ∧ (heard = false → ∀ hello, message ≠ .answer b hello)) :
      Moves a b ⟨n, follows, heard, got, message :: queue⟩ ⟨n, follows, heard, got, queue⟩
  | elsewhere {n : Nat} {follows heard : Bool} {got : List Nat} {queue : List (Message ι)} :
      Moves a b ⟨n, follows, heard, got, queue⟩ ⟨n, follows, true, got, queue⟩
  | stops {n : Nat} {follows heard : Bool} {got : List Nat} {queue : List (Message ι)} :
      Moves a b ⟨n, follows, heard, got, queue⟩ ⟨n, false, heard, got, queue⟩

/-- What `a` posts: frames of its own stream, its question, and its `hello` once it has one. -/
def Message.From (a : ι) (n : Nat) : Message ι → Prop
  | .frame x => x.1 = a
  | .ask who => who = a
  | .answer _ x => x = (a, 0) ∧ 0 < n

/--
The frames of a link come in order and once: the `hello` alone or not, then a run of frames without a gap.  As long as
`b` follows, the run goes on with what is under way, up to the last frame sent; and no answer is under way before the
first frame of the run.
-/
structure Link.Ordered (b : ι) (l : Link ι) (first : List Nat) (i k : Nat) : Prop where
  head : first = [] ∨ first = [0]
  got : l.got = first ++ List.range' i k
  greeting : first = [0] → 1 ≤ i ∨ k = 0 ∧ l.follows = false
  le : l.follows = true → i + k ≤ l.sent
  frames : l.follows = true → framesOf l.queue = List.range' (i + k) (l.sent - (i + k))
  answers : l.follows = true → ∀ before hello after, l.queue = before ++ .answer b hello :: after →
    1 ≤ i + k ∨ 0 ∈ framesOf before

structure Link.Sound (a b : ι) (l : Link ι) : Prop where
  queued : ∀ message ∈ l.queue, message.From a l.sent
  silent : l.heard = false → l.got = []
  ordered : ∃ first i k, l.Ordered b first i k

omit [DecidableEq ι] in
theorem Message.From.mono {a : ι} {n n' : Nat} (hle : n ≤ n') {message : Message ι} (h : message.From a n) : message.From a n' := by
  cases message with
  | frame => exact h
  | ask => exact h
  | answer => exact ⟨h.1, Nat.lt_of_lt_of_le h.2 hle⟩

omit [DecidableEq ι] in
/-- An answer before the last message, where the last is none. -/
theorem answer_before_last {queue before after : List (Message ι)} {message answer : Message ι}
    (h : queue ++ [message] = before ++ answer :: after) :
    (before = queue ∧ answer = message) ∨ ∃ after', queue = before ++ answer :: after' := by
  obtain rfl | ⟨init, last, rfl⟩ := List.eq_nil_or_concat after
  · obtain ⟨hqueue, hlast⟩ := List.append_inj' h rfl
    exact Or.inl ⟨hqueue.symm, (List.cons.inj hlast).1.symm⟩
  · rw [List.concat_eq_append, ← List.cons_append, ← List.append_assoc] at h
    exact Or.inr ⟨init, (List.append_inj' h rfl).1⟩

omit [DecidableEq ι] in
theorem framesOf_append (queue queue' : List (Message ι)) : framesOf (queue ++ queue') = framesOf queue ++ framesOf queue' :=
  List.filterMap_append

omit [DecidableEq ι] in
theorem framesOf_cons_of_ne {message : Message ι} (h : ∀ frame, message ≠ .frame frame) (queue : List (Message ι)) :
    framesOf (message :: queue) = framesOf queue := by
  cases message with
  | frame frame => exact absurd rfl (h frame)
  | ask => rfl
  | answer => rfl

omit [DecidableEq ι] in
/-- Each move keeps a link in order. -/
theorem Link.Sound.move {a b : ι} {l l' : Link ι} (h : l.Sound a b) (hmove : Link.Moves a b l l') : l'.Sound a b := by
  obtain ⟨hqueued, hsilent, first, i, k, ho⟩ := h
  cases hmove with
  | stay => exact ⟨hqueued, hsilent, first, i, k, ho⟩
  | joins n =>
    refine ⟨hqueued, fun _ => rfl, [], n, 0, Or.inl rfl, rfl, nofun, fun _ => Nat.le_refl n, fun _ => ?_, ?_⟩
    · show [] = List.range' (n + 0) (n - (n + 0))
      rw [Nat.add_zero, Nat.sub_self]
      rfl
    · intro _ before hello after heq
      cases before <;> cases heq
  | @sends n follows heard got queue queue' hqueue =>
    obtain rfl | ⟨rfl, rfl⟩ := hqueue
    -- the frame joins the queue, or the receiver follows nobody and nothing is asked of the link
    · refine ⟨fun message hm => ?_, hsilent, first, i, k, ho.head, ho.got, ho.greeting, fun hf => ?_, fun hf => ?_, ?_⟩
      · obtain hm | hm := List.mem_append.mp hm
        · exact (hqueued message hm).mono (Nat.le_succ n)
        · rw [List.mem_singleton.mp hm]; rfl
      · exact Nat.le_succ_of_le (ho.le hf)
      · have hle : i + k ≤ n := ho.le hf
        have hframes : framesOf queue = List.range' (i + k) (n - (i + k)) := ho.frames hf
        show framesOf (queue ++ [.frame (a, n)]) = List.range' (i + k) (n + 1 - (i + k))
        rw [framesOf_append, hframes, Nat.succ_sub hle, List.range'_1_concat, Nat.add_sub_cancel' hle]
        rfl
      · intro hf before hello after heq
        obtain ⟨-, hlast⟩ | ⟨after', hbefore⟩ := answer_before_last heq
        · cases hlast
        · exact ho.answers hf before hello after' hbefore
    · refine ⟨fun message hm => (hqueued message hm).mono (Nat.le_succ n), hsilent, first, i, k, ho.head, ho.got, ho.greeting,
        nofun, nofun, nofun⟩
  | @posts n follows heard got queue message hmessage =>
    have hnot : ∀ frame, message ≠ .frame frame := by
      obtain rfl | ⟨who, rfl, -⟩ := hmessage
      · exact fun _ => nofun
      · exact fun _ => nofun
    have hframes : framesOf (queue ++ [message]) = framesOf queue := by
      rw [framesOf_append, framesOf_cons_of_ne hnot]
      exact List.append_nil _
    refine ⟨fun m hm => ?_, hsilent, first, i, k, ho.head, ho.got, ho.greeting, ho.le, fun hf => ?_, ?_⟩
    · obtain hm | hm := List.mem_append.mp hm
      · exact hqueued m hm
      · rw [List.mem_singleton.mp hm]
        obtain rfl | ⟨who, rfl, hpos⟩ := hmessage
        · rfl
        · exact ⟨rfl, hpos⟩
    · exact hframes.trans (ho.frames hf)
    · intro hf before hello after heq
      obtain ⟨rfl, hlast⟩ | ⟨after', hbefore⟩ := answer_before_last heq
      · -- the answer just posted: what was sent before it is under way, or the run has begun
        obtain rfl | ⟨who, rfl, hpos⟩ := hmessage
        · cases hlast
        · by_cases hzero : i + k = 0
          · right
            rw [ho.frames hf, hzero]
            exact List.mem_range'_1.mpr ⟨Nat.le_refl 0, by simpa using hpos⟩
          · exact Or.inl (Nat.one_le_iff_ne_zero.mpr hzero)
      · exact ho.answers hf before hello after' hbefore
  | @hears n j heard got queue =>
    have hframes : j :: framesOf queue = List.range' (i + k) (n - (i + k)) := ho.frames rfl
    have hle : i + k ≤ n := ho.le rfl
    -- the frame at the head is the next of those under way, so the run grows by it
    obtain ⟨m, hm⟩ : ∃ m, n - (i + k) = m + 1 := by
      refine Nat.exists_eq_succ_of_ne_zero fun hzero => ?_
      rw [hzero] at hframes
      cases hframes
    rw [hm, List.range'_succ] at hframes
    obtain ⟨rfl, hrest⟩ := List.cons.inj hframes
    refine ⟨fun message hmem => hqueued message (List.mem_cons_of_mem _ hmem), nofun, first, i, k + 1, ho.head, ?_, ?_, ?_, ?_, ?_⟩
    · have hgot : got = first ++ List.range' i k := ho.got
      show got ++ [i + k] = _
      rw [hgot, List.append_assoc, ← List.range'_1_concat]
    · exact fun hf => (ho.greeting hf).imp_right fun hno => by cases hno.2
    · intro _
      show i + (k + 1) ≤ n
      omega
    · intro _
      show framesOf queue = List.range' (i + (k + 1)) (n - (i + (k + 1)))
      rw [hrest, show n - (i + (k + 1)) = m by omega]
      rfl
    · exact fun _ _ _ _ _ => Or.inl (by omega)
  | @greeted n follows got queue =>
    -- nothing was heard, so the hello is the first frame got and the run after it is still empty
    have hgot : first ++ List.range' i k = [] := ho.got.symm.trans (hsilent rfl)
    obtain ⟨rfl, hrange⟩ := List.append_eq_nil_iff.mp hgot
    obtain rfl : k = 0 := by simpa using hrange
    have hnil : got = [] := hsilent rfl
    have hanswer (hf : follows = true) : 1 ≤ i := by
      obtain hle | hmem := ho.answers hf [] (a, 0) queue rfl
      · exact hle
      · cases hmem
    refine ⟨fun message hmem => hqueued message (List.mem_cons_of_mem _ hmem), nofun, [0], i, 0, Or.inr rfl, ?_, fun _ => ?_,
      ho.le, ho.frames, fun hf _ _ _ _ => Or.inl (hanswer hf)⟩
    · show got ++ [0] = _
      rw [hnil]
      rfl
    · cases follows with
      | true => exact Or.inl (hanswer rfl)
      | false => exact Or.inr ⟨rfl, rfl⟩
  | @drops n follows heard got queue message hdrop =>
    refine ⟨fun m hmem => hqueued m (List.mem_cons_of_mem _ hmem), hsilent, first, i, k, ho.head, ho.got, ho.greeting, ho.le,
      fun hf => ?_, fun hf before hello after heq => ?_⟩
    · have hframes := ho.frames hf
      rwa [show framesOf (message :: queue) = framesOf queue from framesOf_cons_of_ne (hdrop hf).1 queue] at hframes
    · have hq : queue = before ++ .answer b hello :: after := heq
      have := ho.answers hf (message :: before) hello after (by rw [hq]; rfl)
      rwa [framesOf_cons_of_ne (hdrop hf).1] at this
  | elsewhere => exact ⟨hqueued, nofun, first, i, k, ho.head, ho.got, ho.greeting, ho.le, ho.frames, ho.answers⟩
  | stops =>
    refine ⟨hqueued, hsilent, first, i, k, ho.head, ho.got, fun hf => ?_, nofun, nofun, nofun⟩
    exact (ho.greeting hf).imp_right fun hno => ⟨hno.1, rfl⟩

namespace State

@[simp] theorem setTab_self (s : State ι) (t : ι) (tab : Tab ι) : (s.setTab t tab).tabs t = tab := Function.update_self ..

theorem setTab_of_ne (s : State ι) {t u : ι} (h : u ≠ t) (tab : Tab ι) : (s.setTab t tab).tabs u = s.tabs u :=
  Function.update_of_ne h ..

/-- A link reads the sender's stream, the receiver's tab and the messages between them. -/
theorem link_setTab_of_ne (s : State ι) {t a b : ι} (ha : a ≠ t) (hb : b ≠ t) (tab : Tab ι) :
    (s.setTab t tab).link a b = s.link a b := by
  rw [link, link, sent, sent, follows, follows, got, got, s.setTab_of_ne ha, s.setTab_of_ne hb]
  rfl

theorem link_setTab_sender (s : State ι) {a b : ι} (h : a ≠ b) (tab : Tab ι) :
    (s.setTab a tab).link a b = { s.link a b with sent := tab.source.getD 0 } := by
  rw [link, link, sent, follows, follows, got, got, setTab_self, s.setTab_of_ne h.symm]
  rfl

theorem link_setTab_receiver (s : State ι) {a b : ι} (h : a ≠ b) (tab : Tab ι) :
    (s.setTab b tab).link a b =
      ⟨s.sent a, tab.listens && tab.source.isNone, tab.heard, (tab.delivered.filter (·.1 = a)).map (·.2), s.queue a b⟩ := by
  rw [link, sent, sent, follows, got, setTab_self, s.setTab_of_ne h]
  rfl

theorem link_post (s : State ι) {a b : ι} (h : a ≠ b) (hb : (s.tabs b).listens = true) (message : Message ι) :
    (s.post a message).link a b = { s.link a b with queue := s.queue a b ++ [message] } := by
  have hqueue : (s.post a message).queue a b = s.queue a b ++ [message] := if_pos ⟨rfl, h.symm, hb⟩
  rw [link, hqueue]
  rfl

theorem link_post_of_not (s : State ι) {a b sender : ι} (h : a ≠ sender ∨ (s.tabs b).listens = false) (message : Message ι) :
    (s.post sender message).link a b = s.link a b := by
  have hqueue : (s.post sender message).queue a b = s.queue a b := by
    refine if_neg fun hno => h.elim (· hno.1) fun hb => ?_
    rw [hno.2.2] at hb
    cases hb
  rw [link, hqueue]
  rfl

theorem link_taken (s : State ι) (a b : ι) : (s.taken a b).link a b = { s.link a b with queue := (s.queue a b).tail } := by
  have hqueue : (s.taken a b).queue a b = (s.queue a b).tail := if_pos ⟨rfl, rfl⟩
  rw [link, hqueue]
  rfl

theorem link_taken_of_ne (s : State ι) {a b a' b' : ι} (h : a' ≠ a ∨ b' ≠ b) : (s.taken a b).link a' b' = s.link a' b' := by
  have hqueue : (s.taken a b).queue a' b' = s.queue a' b' := if_neg fun hno => h.elim (· hno.1) (· hno.2)
  rw [link, hqueue]
  rfl

theorem got_deliver {s : State ι} {a b : ι} {frame : Frame ι} (h : frame.1 ≠ a) :
    (((s.tabs b).deliver frame).delivered.filter (·.1 = a)).map (·.2) = s.got a b := by
  have hno : [frame].filter (·.1 = a) = [] := List.filter_eq_nil_iff.mpr fun x hx => by
    rw [List.mem_singleton.mp hx, decide_eq_true_iff]
    exact h
  rw [Tab.deliver, List.filter_append, hno, List.append_nil]
  rfl

theorem got_deliver_self {s : State ι} {a b : ι} {n : Nat} :
    (((s.tabs b).deliver (a, n)).delivered.filter (·.1 = a)).map (·.2) = s.got a b ++ [n] := by
  have hyes : [(a, n)].filter (·.1 = a) = [(a, n)] := List.filter_eq_self.mpr fun x hx => by
    rw [List.mem_singleton.mp hx, decide_eq_true_iff]
  rw [Tab.deliver, List.filter_append, hyes, List.map_append]
  rfl

end State

/-- A tab that leads: it is open and its stream is. -/
def State.leads (s : State ι) (t : ι) : Prop := (s.tabs t).listens = true ∧ (s.tabs t).source.isSome = true

/-- A tab keeps its stream's first frame, and hears all of its own stream. -/
structure Tab.Kept (t : ι) (tab : Tab ι) : Prop where
  hello : tab.hello = if 0 < tab.source.getD 0 then some (t, 0) else none
  heard : tab.heard = false → tab.delivered = []
  read : (tab.delivered.filter (·.1 = t)).map (·.2) = List.range (tab.source.getD 0)

/-- The tabs and the lock: no tab does anything before it is there or writes to itself, the one that leads is the one
that holds the lock, and those in line follow. -/
structure Base (s : State ι) : Prop where
  tabs : ∀ t, (s.tabs t).Kept t
  absent : ∀ t, (s.tabs t).joined = false → s.tabs t = ⟨false, false, none, none, false, []⟩ ∧
    ∀ u, s.queue t u = [] ∧ s.queue u t = []
  own : ∀ t, s.queue t t = []
  lock : ∀ t, s.leads t ↔ s.holder = some t
  line : ∀ t ∈ s.waiting, (s.tabs t).listens = true ∧ (s.tabs t).source = none
  once : s.waiting.Nodup

namespace Base

variable {s : State ι}

/-- One tab changes, with the lock and the line. -/
theorem put (h : Base s) {t : ι} {tab : Tab ι} {waiting : List ι} {holder : Option ι} (hkept : tab.Kept t)
    (hjoined : tab.joined = true) (hlead : tab.listens = true ∧ tab.source.isSome = true ↔ holder = some t)
    (hothers : ∀ u, u ≠ t → (s.holder = some u ↔ holder = some u)) (hline : ∀ u ∈ waiting, u ≠ t → u ∈ s.waiting)
    (hself : t ∈ waiting → tab.listens = true ∧ tab.source = none) (honce : waiting.Nodup) :
    Base { s.setTab t tab with waiting, holder } := by
  have hown : (s.setTab t tab).tabs t = tab := s.setTab_self t tab
  have hother (u : ι) (hu : u ≠ t) : (s.setTab t tab).tabs u = s.tabs u := s.setTab_of_ne hu tab
  refine ⟨fun u => ?_, fun u hu => ?_, h.own, fun u => ?_, fun u hu => ?_, honce⟩
  · show ((s.setTab t tab).tabs u).Kept u
    by_cases hut : u = t
    · rw [hut, hown]
      exact hkept
    · rw [hother u hut]
      exact h.tabs u
  · have hjoin : ((s.setTab t tab).tabs u).joined = false := hu
    show (s.setTab t tab).tabs u = _ ∧ _
    by_cases hut : u = t
    · rw [hut, hown, hjoined] at hjoin
      cases hjoin
    · rw [hother u hut] at hjoin ⊢
      exact h.absent u hjoin
  · show ((s.setTab t tab).tabs u).listens = true ∧ ((s.setTab t tab).tabs u).source.isSome = true ↔ holder = some u
    by_cases hut : u = t
    · rw [hut, hown]
      exact hlead
    · rw [hother u hut]
      exact (h.lock u).trans (hothers u hut)
  · show ((s.setTab t tab).tabs u).listens = true ∧ ((s.setTab t tab).tabs u).source = none
    by_cases hut : u = t
    · rw [hut, hown]
      exact hself (hut ▸ hu)
    · rw [hother u hut]
      exact h.line u (hline u hu hut)

/-- What a tab keeps of its place when only its page or its stream moves on. -/
theorem setTab (h : Base s) {t : ι} {tab : Tab ι} (hkept : tab.Kept t) (hjoined : tab.joined = true)
    (hlistens : tab.listens = (s.tabs t).listens) (hsource : tab.source.isSome = (s.tabs t).source.isSome) :
    Base (s.setTab t tab) := by
  have hlead : tab.listens = true ∧ tab.source.isSome = true ↔ s.holder = some t := by
    rw [hlistens, hsource]
    exact h.lock t
  refine h.put hkept hjoined hlead (fun _ _ => Iff.rfl) (fun _ hu _ => hu) (fun ht => ?_) h.once
  obtain ⟨hlisten, hnone⟩ := h.line t ht
  rw [hnone] at hsource
  exact ⟨hlistens.trans hlisten, Option.not_isSome_iff_eq_none.mp (by rw [hsource]; exact Bool.false_ne_true)⟩

theorem post (h : Base s) {sender : ι} (hsender : (s.tabs sender).joined = true) (message : Message ι) :
    Base (s.post sender message) := by
  refine ⟨h.tabs, fun t ht => ?_, fun t => ?_, h.lock, h.line, h.once⟩
  · have hnot : (s.tabs t).joined = false := ht
    obtain ⟨htab, hqueues⟩ := h.absent t hnot
    refine ⟨htab, fun u => ⟨?_, ?_⟩⟩
    · have hne : t ≠ sender := by
        rintro rfl
        rw [hnot] at hsender
        cases hsender
      exact (if_neg fun hno => hne hno.1).trans (hqueues u).1
    · refine (if_neg fun hno => ?_).trans (hqueues u).2
      obtain ⟨-, -, hlistens⟩ := hno
      rw [Tab.listens, hnot] at hlistens
      cases hlistens
  · exact (if_neg fun hno => hno.2.1 hno.1).trans (h.own t)

theorem taken (h : Base s) (a b : ι) : Base (s.taken a b) := by
  have htail (a' b' : ι) (hnil : s.queue a' b' = []) : (s.taken a b).queue a' b' = [] := by
    by_cases heq : a' = a ∧ b' = b
    · obtain ⟨rfl, rfl⟩ := heq
      exact (if_pos ⟨rfl, rfl⟩).trans (by rw [hnil]; rfl)
    · exact (if_neg heq).trans hnil
  refine ⟨h.tabs, fun t ht => ?_, fun t => htail t t (h.own t), h.lock, h.line, h.once⟩
  obtain ⟨htab, hqueues⟩ := h.absent t ht
  exact ⟨htab, fun u => ⟨htail t u (hqueues u).1, htail u t (hqueues u).2⟩⟩

theorem joined_of_source (h : Base s) {t : ι} {n : Nat} (hs : (s.tabs t).source = some n) : (s.tabs t).joined = true := by
  by_contra hno
  rw [((h.absent t (Bool.eq_false_iff.mpr hno)).1)] at hs
  cases hs

theorem joined_of_queue (h : Base s) {a b : ι} (hq : s.queue a b ≠ []) : (s.tabs b).joined = true := by
  by_contra hno
  exact hq ((h.absent b (Bool.eq_false_iff.mpr hno)).2 a).2

/-- A tab hears a frame of another's stream. -/
theorem deliver (h : Base s) {t : ι} (hjoined : (s.tabs t).joined = true) {frame : Frame ι} (hframe : frame.1 ≠ t) :
    Base (s.setTab t ((s.tabs t).deliver frame)) := by
  refine h.setTab ⟨(h.tabs t).hello, nofun, ?_⟩ hjoined rfl rfl
  rw [State.got_deliver hframe]
  exact (h.tabs t).read

end Base

/-- With every link in order. -/
structure Sound (s : State ι) : Prop extends Base s where
  links : ∀ a b, a ≠ b → (s.link a b).Sound a b

theorem sound_init : Sound (init : State ι) where
  tabs _ := ⟨rfl, fun _ => rfl, rfl⟩
  absent _ _ := ⟨rfl, fun _ => ⟨rfl, rfl⟩⟩
  own _ := rfl
  lock _ := ⟨fun h => (nomatch h.1), fun h => (nomatch h)⟩
  line _ h := nomatch h
  once := List.nodup_nil
  links _ _ _ :=
    { queued := fun _ h => nomatch h
      silent := fun _ => rfl
      ordered := ⟨[], 0, 0, Or.inl rfl, rfl, nofun, nofun, nofun, nofun⟩ }

namespace Sound

variable {s : State ι}

theorem absent_link (h : Sound s) {t : ι} (ht : (s.tabs t).joined = false) (a : ι) :
    s.link a t = ⟨s.sent a, false, false, [], []⟩ := by
  obtain ⟨htab, hqueues⟩ := h.absent t ht
  rw [State.link, State.follows, State.got, htab, (hqueues a).2]
  rfl

/-- What a tab hears changes no other link but that it has heard something. -/
theorem link_deliver (s : State ι) {a b t : ι} (hab : a ≠ b) (frame : Frame ι) (h : b = t → frame.1 ≠ a) :
    Link.Moves a b (s.link a b) ((s.setTab t ((s.tabs t).deliver frame)).link a b) := by
  by_cases hbt : b = t
  · subst hbt
    rw [State.link_setTab_receiver _ hab, State.got_deliver (h rfl)]
    exact .elsewhere
  · by_cases hat : a = t
    · subst hat
      rw [State.link_setTab_sender _ hab]
      exact .stay _
    · rw [State.link_setTab_of_ne _ hat hbt]
      exact .stay _

/-- A message that arrives from `a'` moves the links it did not come by. -/
theorem link_others (h : Sound s) {a b a' b' : ι} (hab : a ≠ b) (hne : a ≠ a' ∨ b ≠ b') {message : Message ι}
    (hfrom : message.From a' (s.sent a')) :
    Link.Moves a b (s.link a b) (((s.taken a' b').onmessage b' message).link a b) := by
  have htaken : (s.taken a' b').link a b = s.link a b := State.link_taken_of_ne s hne
  have hdeliver (frame : Frame ι) (hframe : frame.1 = a') :
      Link.Moves a b (s.link a b)
        (((s.taken a' b').setTab b' (((s.taken a' b').tabs b').deliver frame)).link a b) := by
    rw [← htaken]
    exact link_deliver (s.taken a' b') hab frame fun hb ha => hne.elim (· (ha.symm.trans hframe)) (· hb)
  have hstay : Link.Moves a b (s.link a b) ((s.taken a' b').link a b) := by
    rw [htaken]
    exact .stay _
  cases message with
  | frame frame =>
    delta State.onmessage
    dsimp only
    split
    · exact hdeliver frame hfrom
    · exact hstay
  | ask who =>
    delta State.onmessage
    dsimp only
    split
    next hello hhello =>
      have hheld : (s.tabs b').hello = some hello := hhello
      rw [(h.tabs b').hello] at hheld
      by_cases hpos : 0 < s.sent b'
      · rw [if_pos (show 0 < (s.tabs b').source.getD 0 from hpos)] at hheld
        obtain rfl := Option.some.inj hheld
        -- the tab asked posts its answer on the links that leave it
        by_cases hab' : a = b'
        · subst hab'
          cases hb : ((s.taken a' a).tabs b).listens with
          | true =>
            have hqueue : (s.taken a' a).queue a b = s.queue a b := congrArg Link.queue htaken
            rw [State.link_post _ hab hb, htaken, hqueue]
            exact .posts (Or.inr ⟨who, rfl, hpos⟩)
          | false =>
            rw [State.link_post_of_not _ (Or.inr hb)]
            exact hstay
        · rw [State.link_post_of_not _ (Or.inl hab')]
          exact hstay
      · rw [if_neg (show ¬ 0 < (s.tabs b').source.getD 0 from hpos)] at hheld
        cases hheld
    next => exact hstay
  | answer asker hello =>
    delta State.onmessage
    dsimp only
    split
    · exact hdeliver hello (congrArg Prod.fst hfrom.1)
    · exact hstay

/-- A message that arrives moves the link it came by. -/
theorem link_arrived (h : Sound s) {a b : ι} (hab : a ≠ b) {message : Message ι} {rest : List (Message ι)}
    (hqueue : s.queue a b = message :: rest) (hopen : (s.tabs b).closed = false) :
    Link.Moves a b (s.link a b) (((s.taken a b).onmessage b message).link a b) := by
  have hlink : s.link a b = ⟨s.sent a, s.follows b, (s.tabs b).heard, s.got a b, message :: rest⟩ := by rw [State.link, hqueue]
  have htaken : (s.taken a b).link a b = ⟨s.sent a, s.follows b, (s.tabs b).heard, s.got a b, rest⟩ := by
    rw [State.link_taken, hqueue]
    rfl
  have hrest : (s.taken a b).queue a b = rest := congrArg Link.queue htaken
  have hjoined : (s.tabs b).joined = true := h.joined_of_queue (by rw [hqueue]; exact List.cons_ne_nil _ _)
  have hlistens : (s.tabs b).listens = true := by rw [Tab.listens, hjoined, hopen]; rfl
  have hfrom : message.From a (s.sent a) :=
    (h.links a b hab).queued message (by rw [hlink]; exact List.mem_cons_self)
  rw [hlink]
  cases message with
  | frame frame =>
    obtain ⟨from', n⟩ := frame
    obtain rfl : from' = a := hfrom
    delta State.onmessage
    dsimp only
    split
    next hsource =>
      have hfollows : s.follows b = true := by
        rw [State.follows, hlistens, show (s.tabs b).source = none from hsource]
        rfl
      rw [State.link_setTab_receiver _ hab, hfollows, hrest]
      show Link.Moves from' b _ ⟨s.sent from', s.follows b, true,
        (((s.tabs b).deliver (from', n)).delivered.filter (·.1 = from')).map (·.2), rest⟩
      rw [State.got_deliver_self, hfollows]
      exact .hears
    next hsource =>
      rw [htaken]
      refine .drops fun hf => absurd ?_ hsource
      rw [State.follows, Bool.and_eq_true] at hf
      exact Option.isNone_iff_eq_none.mp hf.2
  | ask who =>
    have hdrop : Link.Moves a b ⟨s.sent a, s.follows b, (s.tabs b).heard, s.got a b, .ask who :: rest⟩
        ⟨s.sent a, s.follows b, (s.tabs b).heard, s.got a b, rest⟩ :=
      .drops fun _ => ⟨fun _ => nofun, fun _ _ => nofun⟩
    delta State.onmessage
    dsimp only
    split
    · rw [State.link_post_of_not _ (Or.inl hab), htaken]
      exact hdrop
    · rw [htaken]
      exact hdrop
  | answer asker hello =>
    obtain ⟨rfl, -⟩ := hfrom
    delta State.onmessage
    dsimp only
    split
    next hyes =>
      obtain ⟨rfl, hheard⟩ := hyes
      have hheard' : (s.tabs asker).heard = false := hheard
      rw [State.link_setTab_receiver _ hab, hheard', hrest]
      show Link.Moves a asker _ ⟨s.sent a, s.follows asker, true,
        (((s.tabs asker).deliver (a, 0)).delivered.filter (·.1 = a)).map (·.2), rest⟩
      rw [State.got_deliver_self]
      exact .greeted
    next hno =>
      rw [htaken]
      refine .drops fun _ => ⟨fun _ => nofun, fun hheard _ heq => hno ?_⟩
      cases heq
      exact ⟨rfl, hheard⟩

/-- A step's effect on each link is a move. -/
theorem link_step (h : Sound s) (e : Event ι) {a b : ι} (hab : a ≠ b) :
    Link.Moves a b (s.link a b) ((Shared.step s e).link a b) := by
  cases e with
  | join t =>
    delta Shared.step
    dsimp only
    split
    next => exact .stay _
    next hjoined =>
      have hnot : (s.tabs t).joined = false := Bool.eq_false_iff.mpr hjoined
      obtain ⟨htab, hqueues⟩ := h.absent t hnot
      show Link.Moves a b _ (((s.setTab t { s.tabs t with joined := true }).post t (.ask t)).link a b)
      -- the links to the new tab begin, those from it carry its question
      by_cases hbt : b = t
      · subst hbt
        rw [State.link_post_of_not _ (Or.inl hab), State.link_setTab_receiver _ hab, h.absent_link hnot, htab, (hqueues a).2]
        exact .joins _
      · by_cases hat : a = t
        · subst hat
          have hsender : (s.setTab a { s.tabs a with joined := true }).link a b = s.link a b := by
            rw [State.link_setTab_sender _ hab]
            rfl
          cases hb : ((s.setTab a { s.tabs a with joined := true }).tabs b).listens with
          | true =>
            rw [State.link_post _ hab hb, hsender]
            exact .posts (Or.inl rfl)
          | false =>
            rw [State.link_post_of_not _ (Or.inr hb), hsender]
            exact .stay _
        · rw [State.link_post_of_not _ (Or.inl hat), State.link_setTab_of_ne _ hat hbt]
          exact .stay _
  | grant opens =>
    delta Shared.step
    dsimp only
    split
    next t waiting hholder hwaiting =>
      split
      next =>
        obtain ⟨hlistens, hsource⟩ := h.line t (by rw [hwaiting]; exact List.mem_cons_self)
        -- the new holder follows nobody any more, and has sent nothing yet
        show Link.Moves a b _ ((s.setTab t { s.tabs t with source := some 0 }).link a b)
        by_cases hbt : b = t
        · subst hbt
          rw [State.link_setTab_receiver _ hab]
          have hfollows : (({ s.tabs b with source := some 0 } : Tab ι).listens &&
              ({ s.tabs b with source := some 0 } : Tab ι).source.isNone) = false := Bool.and_false _
          rw [hfollows]
          exact .stops
        · by_cases hat : a = t
          · subst hat
            rw [State.link_setTab_sender _ hab]
            have hsent : s.sent a = 0 := by rw [State.sent, hsource]; rfl
            rw [State.link, hsent]
            exact .stay _
          · rw [State.link_setTab_of_ne _ hat hbt]
            exact .stay _
      next => exact .stay _
    next => exact .stay _
  | frame t =>
    delta Shared.step
    dsimp only
    split
    next => exact .stay _
    next n hsource =>
      split
      next => exact .stay _
      next hopen =>
        -- the holder takes its own frame, and posts it to the tabs that listen
        by_cases hbt : b = t
        · subst hbt
          rw [State.link_setTab_receiver _ hab]
          have hfollows : s.follows b = false := by
            rw [State.follows, hsource]
            exact Bool.and_false _
          have hgot : (((s.tabs b).deliver (b, n)).delivered.filter (·.1 = a)).map (·.2) = s.got a b :=
            State.got_deliver hab.symm
          have hqueue : (s.post b (.frame (b, n))).queue a b = s.queue a b := if_neg fun hno => hab hno.1
          rw [hqueue, State.link, hfollows]
          show Link.Moves a b _ ⟨s.sent a, (s.tabs b).listens && false, true,
            (((s.tabs b).deliver (b, n)).delivered.filter (·.1 = a)).map (·.2), s.queue a b⟩
          rw [hgot, Bool.and_false]
          exact .elsewhere
        · by_cases hat : a = t
          · subst hat
            rw [State.link_setTab_sender _ hab]
            have hsent : s.sent a = n := by rw [State.sent, hsource]; rfl
            rw [State.link, hsent]
            cases hb : (s.tabs b).listens with
            | true =>
              rw [State.link_post _ hab hb]
              exact .sends (Or.inl rfl)
            | false =>
              rw [State.link_post_of_not _ (Or.inr hb)]
              refine .sends (Or.inr ⟨?_, rfl⟩)
              rw [State.follows, hb]
              rfl
          · rw [State.link_setTab_of_ne _ hat hbt, State.link_post_of_not _ (Or.inl hat)]
            exact .stay _
  | receive a' b' =>
    delta Shared.step
    dsimp only
    split
    next => exact .stay _
    next message rest hqueue =>
      have hne : a' ≠ b' := by
        rintro rfl
        rw [h.own a'] at hqueue
        cases hqueue
      have hfrom : message.From a' (s.sent a') :=
        (h.links a' b' hne).queued message (by rw [State.link, hqueue]; exact List.mem_cons_self)
      split
      next hclosed =>
        -- a closed tab loses the message
        by_cases hother : a ≠ a' ∨ b ≠ b'
        · rw [State.link_taken_of_ne s hother]
          exact .stay _
        · rw [not_or, not_not, not_not] at hother
          obtain ⟨rfl, rfl⟩ := hother
          have hfollows : s.follows b = false := by
            rw [State.follows, Tab.listens, hclosed]
            cases (s.tabs b).joined <;> rfl
          rw [State.link_taken, State.link, hqueue, hfollows]
          exact .drops nofun
      next hclosed =>
        by_cases hother : a ≠ a' ∨ b ≠ b'
        · exact h.link_others hab hother hfrom
        · rw [not_or, not_not, not_not] at hother
          obtain ⟨rfl, rfl⟩ := hother
          exact h.link_arrived hab hqueue (Bool.eq_false_iff.mpr hclosed)
  | close t =>
    delta Shared.step
    dsimp only
    split
    next hlistens =>
      show Link.Moves a b _ ((s.setTab t { s.tabs t with closed := true }).link a b)
      by_cases hbt : b = t
      · subst hbt
        rw [State.link_setTab_receiver _ hab]
        have hfollows : ({ s.tabs b with closed := true } : Tab ι).listens = false := Bool.and_false _
        rw [hfollows, Bool.false_and]
        exact .stops
      · by_cases hat : a = t
        · subst hat
          rw [State.link_setTab_sender _ hab]
          exact .stay _
        · rw [State.link_setTab_of_ne _ hat hbt]
          exact .stay _
    next => exact .stay _

/-- A message that arrives keeps the tabs and the lock. -/
theorem base_onmessage (h : Sound s) {a b : ι} (hab : a ≠ b) {message : Message ι} (hjoined : (s.tabs b).joined = true)
    (hfrom : message.From a (s.sent a)) : Base ((s.taken a b).onmessage b message) := by
  have htaken : Base (s.taken a b) := h.toBase.taken a b
  cases message with
  | frame frame =>
    have hframe : frame.1 = a := hfrom
    delta State.onmessage
    dsimp only
    split
    · exact htaken.deliver hjoined (by rw [hframe]; exact hab)
    · exact htaken
  | ask who =>
    delta State.onmessage
    dsimp only
    split
    · exact htaken.post hjoined _
    · exact htaken
  | answer asker hello =>
    have hframe : hello.1 = a := congrArg Prod.fst hfrom.1
    delta State.onmessage
    dsimp only
    split
    · exact htaken.deliver hjoined (by rw [hframe]; exact hab)
    · exact htaken

theorem base_step (h : Sound s) (e : Event ι) : Base (Shared.step s e) := by
  cases e with
  | join t =>
    delta Shared.step
    dsimp only
    split
    next => exact h.toBase
    next hjoined =>
      have hnot : (s.tabs t).joined = false := Bool.eq_false_iff.mpr hjoined
      obtain ⟨htab, -⟩ := h.absent t hnot
      -- a tab that was not there neither waits for the lock nor holds it
      have hwaiting : t ∉ s.waiting := by
        intro ht
        have := (h.line t ht).1
        rw [Tab.listens, hnot] at this
        cases this
      have hholder : s.holder ≠ some t := by
        intro heq
        have := ((h.lock t).mpr heq).1
        rw [Tab.listens, hnot] at this
        cases this
      have hput : Base { s.setTab t { s.tabs t with joined := true } with waiting := s.waiting ++ [t], holder := s.holder } := by
        rw [htab]
        refine h.toBase.put ⟨rfl, fun _ => rfl, rfl⟩ rfl ⟨fun hlead => (nomatch hlead.2), fun heq => absurd heq hholder⟩
          (fun _ _ => Iff.rfl) (fun u hu hne => ?_) (fun _ => ⟨rfl, rfl⟩) ?_
        · obtain hu | hu := List.mem_append.mp hu
          · exact hu
          · exact absurd (List.mem_singleton.mp hu) hne
        · exact List.nodup_append.mpr ⟨h.once, List.nodup_singleton t, fun x hx y hy heq =>
            hwaiting (List.mem_singleton.mp hy ▸ heq ▸ hx)⟩
      refine hput.post ?_ _
      show ((s.setTab t { s.tabs t with joined := true }).tabs t).joined = true
      rw [State.setTab_self]
  | grant opens =>
    delta Shared.step
    dsimp only
    split
    next t waiting hholder hwaiting =>
      obtain ⟨hlistens, hsource⟩ := h.line t (by rw [hwaiting]; exact List.mem_cons_self)
      have honce : (t :: waiting).Nodup := hwaiting ▸ h.once
      obtain ⟨hnot, hnodup⟩ := List.nodup_cons.mp honce
      have hmem (u : ι) (hu : u ∈ waiting) : u ∈ s.waiting := by
        rw [hwaiting]
        exact List.mem_cons_of_mem t hu
      split
      next =>
        have hkept := h.tabs t
        refine h.toBase.put ⟨?_, hkept.heard, ?_⟩ ?_ ⟨fun _ => rfl, fun _ => ⟨hlistens, rfl⟩⟩ (fun u hu => ?_)
          (fun u hu _ => hmem u hu) (fun ht => absurd ht hnot) hnodup
        · have := hkept.hello
          rw [hsource] at this
          exact this
        · have := hkept.read
          rw [hsource] at this
          exact this
        · rw [Tab.listens, Bool.and_eq_true] at hlistens
          exact hlistens.1
        · rw [hholder]
          exact ⟨fun heq => (nomatch heq), fun heq => absurd (Option.some.inj heq).symm hu⟩
      next =>
        exact ⟨h.tabs, h.absent, h.own, h.lock, fun u hu => h.line u (hmem u hu), hnodup⟩
    next => exact h.toBase
  | frame t =>
    delta Shared.step
    dsimp only
    split
    next => exact h.toBase
    next n hsource =>
      split
      next => exact h.toBase
      next hopen =>
        have hjoined := h.joined_of_source hsource
        have hkept := h.tabs t
        -- the holder keeps its first frame as the hello, and reads what it sends
        refine (h.toBase.post hjoined (.frame (t, n))).setTab ⟨?_, nofun, ?_⟩ hjoined rfl ?_
        · have hhello := hkept.hello
          rw [hsource] at hhello
          show (s.tabs t).hello.or (some (t, n)) = some (t, 0)
          rw [hhello]
          cases n <;> rfl
        · have hread := hkept.read
          rw [hsource] at hread
          show (((s.tabs t).deliver (t, n)).delivered.filter (·.1 = t)).map (·.2) = List.range (n + 1)
          rw [State.got_deliver_self, List.range_succ]
          exact congrArg (· ++ [n]) hread
        · show true = (s.tabs t).source.isSome
          rw [hsource]
          rfl
  | receive a b =>
    delta Shared.step
    dsimp only
    split
    next => exact h.toBase
    next message rest hqueue =>
      have hne : a ≠ b := by
        rintro rfl
        rw [h.own a] at hqueue
        cases hqueue
      have hfrom : message.From a (s.sent a) :=
        (h.links a b hne).queued message (by rw [State.link, hqueue]; exact List.mem_cons_self)
      split
      next => exact h.toBase.taken a b
      next => exact h.base_onmessage hne (h.joined_of_queue (by rw [hqueue]; exact List.cons_ne_nil _ _)) hfrom
  | close t =>
    delta Shared.step
    dsimp only
    split
    next hlistens =>
      have hkept := h.tabs t
      have hclosed : ({ s.tabs t with closed := true } : Tab ι).listens = false := Bool.and_false _
      refine h.toBase.put ⟨hkept.hello, hkept.heard, hkept.read⟩ ?_ ⟨fun hlead => ?_, fun heq => ?_⟩ (fun u hu => ?_)
        (fun u hu _ => (List.mem_filter.mp hu).1) (fun ht => ?_) (h.once.filter _)
      · rw [Tab.listens, Bool.and_eq_true] at hlistens
        exact hlistens.1
      · rw [hclosed] at hlead
        cases hlead.1
      · split at heq
        next => cases heq
        next hno => exact absurd heq hno
      · split
        next heq =>
          rw [heq]
          exact ⟨fun h => absurd (Option.some.inj h).symm hu, fun h => (nomatch h)⟩
        next => exact Iff.rfl
      · exact absurd rfl (of_decide_eq_true (List.mem_filter.mp ht).2)
    next => exact h.toBase

theorem step (h : Sound s) (e : Event ι) : Sound (Shared.step s e) :=
  { h.base_step e with links := fun a b hab => (h.links a b hab).move (h.link_step e hab) }

end Sound

theorem sound_run (events : List (Event ι)) : Sound (run events) :=
  Lib.invariant_run (fun _ e h => h.step e) sound_init events

/--
However the tabs open, close and write to each other, and whichever streams fail to open: at most one tab leads, the one
that holds the lock; a tab hears each frame of its own stream; and of another's it hears the `hello` or nothing, then
frames without a gap, each once and in their order.  As long as a tab follows, what is under way to it is what it has
still to hear, up to the last frame the other's stream brought.
-/
theorem relayed (events : List (Event ι)) :
    (∀ t, (run events).leads t ↔ (run events).holder = some t) ∧
    (∀ t, (run events).got t t = List.range ((run events).sent t)) ∧
    ∀ a b, a ≠ b → ∃ first i k, (first = [] ∨ first = [0]) ∧ (run events).got a b = first ++ List.range' i k ∧
      (first = [0] → 1 ≤ i ∨ k = 0) ∧
      ((run events).follows b = true → i + k ≤ (run events).sent a ∧
        framesOf ((run events).queue a b) = List.range' (i + k) ((run events).sent a - (i + k))) := by
  have h := sound_run events
  refine ⟨h.lock, fun t => (h.tabs t).read, fun a b hab => ?_⟩
  obtain ⟨first, i, k, ho⟩ := (h.links a b hab).ordered
  exact ⟨first, i, k, ho.head, ho.got, fun hf => (ho.greeting hf).imp_right And.left, fun hf => ⟨ho.le hf, ho.frames hf⟩⟩

/-- A tab that follows has its question, an answer to it or a frame under way. -/
def State.Promised (s : State ι) (a b : ι) : Prop :=
  .ask b ∈ s.queue b a ∨ (∃ hello, .answer b hello ∈ s.queue a b) ∨ framesOf (s.queue a b) ≠ []

/-- Every tab that follows and has heard nothing is promised something by each open tab whose stream has begun. -/
def Answered (s : State ι) : Prop :=
  ∀ a b, a ≠ b → s.follows b = true → (s.tabs b).heard = false → (s.tabs a).listens = true → 0 < s.sent a → s.Promised a b

namespace State

omit [DecidableEq ι] in
theorem Promised.mono {s s' : State ι} {a b : ι} (h : s.Promised a b) (hasked : ∃ more, s'.queue b a = s.queue b a ++ more)
    (hsent : ∃ more, s'.queue a b = s.queue a b ++ more) : s'.Promised a b := by
  obtain ⟨asked, hasked⟩ := hasked
  obtain ⟨sent, hsent⟩ := hsent
  obtain h | ⟨hello, h⟩ | h := h
  · exact Or.inl (by rw [hasked]; exact List.mem_append_left _ h)
  · exact Or.inr (Or.inl ⟨hello, by rw [hsent]; exact List.mem_append_left _ h⟩)
  · refine Or.inr (Or.inr ?_)
    rw [hsent, framesOf_append]
    exact fun hnil => h (List.append_eq_nil_iff.mp hnil).1

theorem post_grows (s : State ι) (sender : ι) (message : Message ι) (a b : ι) :
    ∃ more, (s.post sender message).queue a b = s.queue a b ++ more := by
  by_cases h : a = sender ∧ b ≠ sender ∧ (s.tabs b).listens = true
  · exact ⟨[message], if_pos h⟩
  · exact ⟨[], (if_neg h).trans (List.append_nil _).symm⟩

theorem onmessage_grows (s : State ι) (t : ι) (message : Message ι) (a b : ι) :
    ∃ more, (s.onmessage t message).queue a b = s.queue a b ++ more := by
  have hsame : ∃ more, s.queue a b = s.queue a b ++ more := ⟨[], (List.append_nil _).symm⟩
  cases message with
  | frame frame => delta onmessage; dsimp only; split <;> exact hsame
  | ask who =>
    delta onmessage
    dsimp only
    split
    · exact s.post_grows t _ a b
    · exact hsame
  | answer asker hello => delta onmessage; dsimp only; split <;> exact hsame

/-- What hearing a message leaves as it is; a page that still has heard nothing heard nothing before. -/
theorem onmessage_tabs (s : State ι) (t : ι) (message : Message ι) (u : ι) :
    ((s.onmessage t message).tabs u).listens = (s.tabs u).listens ∧ ((s.onmessage t message).tabs u).source = (s.tabs u).source ∧
      (((s.onmessage t message).tabs u).heard = false → (s.tabs u).heard = false) := by
  have hdeliver (frame : Frame ι) : ((s.setTab t ((s.tabs t).deliver frame)).tabs u).listens = (s.tabs u).listens ∧
      ((s.setTab t ((s.tabs t).deliver frame)).tabs u).source = (s.tabs u).source ∧
      (((s.setTab t ((s.tabs t).deliver frame)).tabs u).heard = false → (s.tabs u).heard = false) := by
    by_cases hut : u = t
    · subst hut
      rw [setTab_self]
      exact ⟨rfl, rfl, nofun⟩
    · rw [s.setTab_of_ne hut]
      exact ⟨rfl, rfl, id⟩
  cases message with
  | frame frame =>
    delta onmessage
    dsimp only
    split
    · exact hdeliver frame
    · exact ⟨rfl, rfl, id⟩
  | ask who => delta onmessage; dsimp only; split <;> exact ⟨rfl, rfl, id⟩
  | answer asker hello =>
    delta onmessage
    dsimp only
    split
    · exact hdeliver hello
    · exact ⟨rfl, rfl, id⟩

end State

namespace Sound

variable {s : State ι}

/-- A message taken by the tab it is for leaves what was promised, or the tab hears of it. -/
theorem promised_arrived {a b : ι} (hab : a ≠ b) {message : Message ι} {rest : List (Message ι)}
    (hqueue : s.queue a b = message :: rest) (hsource : (s.tabs b).source = none) (hpromised : s.Promised a b)
    (hheard : (((s.taken a b).onmessage b message).tabs b).heard = false) :
    ((s.taken a b).onmessage b message).Promised a b := by
  have hrest : (s.taken a b).queue a b = rest := (if_pos ⟨rfl, rfl⟩).trans (by rw [hqueue]; rfl)
  have hasked : (s.taken a b).queue b a = s.queue b a := if_neg fun hno => hab hno.2
  have hkept : (∀ frame, message ≠ .frame frame) → (∀ hello, message ≠ .answer b hello) → (s.taken a b).Promised a b := by
    intro hframe hanswer
    obtain hask | ⟨hello, hmem⟩ | hframes := hpromised
    · exact Or.inl (by rwa [hasked])
    · rw [hqueue, List.mem_cons] at hmem
      exact Or.inr (Or.inl ⟨hello, by rw [hrest]; exact hmem.resolve_left (Ne.symm (hanswer hello))⟩)
    · rw [hqueue, framesOf_cons_of_ne hframe] at hframes
      exact Or.inr (Or.inr (by rwa [hrest]))
  have hgrows := fun hp : (s.taken a b).Promised a b =>
    hp.mono ((s.taken a b).onmessage_grows b message b a) ((s.taken a b).onmessage_grows b message a b)
  have hunheard := ((s.taken a b).onmessage_tabs b message b).2.2 hheard
  cases message with
  | frame frame =>
    have hdeliver : (s.taken a b).onmessage b (.frame frame) =
        (s.taken a b).setTab b (((s.taken a b).tabs b).deliver frame) := if_pos hsource
    rw [hdeliver, State.setTab_self] at hheard
    cases hheard
  | ask who => exact hgrows (hkept (fun _ => nofun) fun _ => nofun)
  | answer asker hello =>
    by_cases hb : asker = b
    · have hdeliver : (s.taken a b).onmessage b (.answer asker hello) =
          (s.taken a b).setTab b (((s.taken a b).tabs b).deliver hello) := if_pos ⟨hb, hunheard⟩
      rw [hdeliver, State.setTab_self] at hheard
      cases hheard
    · refine hgrows (hkept (fun _ => nofun) fun hello' heq => hb ?_)
      cases heq
      rfl

/-- A question taken by a tab whose stream has begun is answered. -/
theorem promised_asked (h : Sound s) {a b : ι} (hab : a ≠ b) {message : Message ι} {rest : List (Message ι)}
    (hqueue : s.queue b a = message :: rest) (hlistens : (s.tabs b).listens = true) (hpos : 0 < s.sent a)
    (hpromised : s.Promised a b) : ((s.taken b a).onmessage a message).Promised a b := by
  have hrest : (s.taken b a).queue b a = rest := (if_pos ⟨rfl, rfl⟩).trans (by rw [hqueue]; rfl)
  have hsent : (s.taken b a).queue a b = s.queue a b := if_neg fun hno => hab hno.1
  have hgrows := fun hp : (s.taken b a).Promised a b =>
    hp.mono ((s.taken b a).onmessage_grows a message b a) ((s.taken b a).onmessage_grows a message a b)
  by_cases hask : message = .ask b
  · subst hask
    have hhello : (s.tabs a).hello = some (a, 0) := ((h.tabs a).hello).trans (if_pos hpos)
    have hpost : (s.taken b a).onmessage a (.ask b) = (s.taken b a).post a (.answer b (a, 0)) := by
      delta State.onmessage
      dsimp only
      rw [show ((s.taken b a).tabs a).hello = some (a, 0) from hhello]
    have hqueue' : ((s.taken b a).post a (.answer b (a, 0))).queue a b = (s.taken b a).queue a b ++ [.answer b (a, 0)] :=
      if_pos ⟨rfl, hab.symm, hlistens⟩
    rw [hpost]
    exact Or.inr (Or.inl ⟨(a, 0), by rw [hqueue']; exact List.mem_append_right _ List.mem_cons_self⟩)
  · refine hgrows ?_
    obtain hmem | hmem | hmem := hpromised
    · rw [hqueue, List.mem_cons] at hmem
      exact Or.inl (by rw [hrest]; exact hmem.resolve_left (Ne.symm hask))
    · exact Or.inr (Or.inl (by rwa [hsent]))
    · exact Or.inr (Or.inr (by rwa [hsent]))

theorem answered_step (h : Sound s) (hanswered : Answered s) (e : Event ι) : Answered (Shared.step s e) := by
  intro a b hab
  -- where the two tabs and what is between them are as before, or more is under way
  have hsame {s' : State ι} (ha : s'.tabs a = s.tabs a) (hb : s'.tabs b = s.tabs b)
      (hasked : ∃ more, s'.queue b a = s.queue b a ++ more) (hsent : ∃ more, s'.queue a b = s.queue a b ++ more)
      (hfollows : s'.follows b = true) (hheard : (s'.tabs b).heard = false) (hlistens : (s'.tabs a).listens = true)
      (hpos : 0 < s'.sent a) : s'.Promised a b := by
    rw [State.follows, hb] at hfollows
    rw [hb] at hheard
    rw [ha] at hlistens
    rw [State.sent, ha] at hpos
    exact (hanswered a b hab hfollows hheard hlistens hpos).mono hasked hsent
  have hnil (a b : ι) : ∃ more, s.queue a b = s.queue a b ++ more := ⟨[], (List.append_nil _).symm⟩
  cases e with
  | join t =>
    delta Shared.step
    dsimp only
    split
    next => exact hanswered a b hab
    next hjoined =>
      have hnot : (s.tabs t).joined = false := Bool.eq_false_iff.mpr hjoined
      obtain ⟨htab, -⟩ := h.absent t hnot
      intro hfollows hheard hlistens hpos
      by_cases hbt : b = t
      · subst hbt
        left
        have hqueue : (({ s.setTab b { s.tabs b with joined := true } with waiting := s.waiting ++ [b] } : State ι).post b
            (.ask b)).queue b a = s.queue b a ++ [.ask b] := if_pos ⟨rfl, hab, hlistens⟩
        rw [hqueue]
        exact List.mem_append_right _ List.mem_cons_self
      · by_cases hat : a = t
        · subst hat
          have hsent : 0 < ((s.setTab a { s.tabs a with joined := true }).tabs a).source.getD 0 := hpos
          rw [State.setTab_self, htab] at hsent
          exact absurd hsent (Nat.lt_irrefl 0)
        · refine hsame (s.setTab_of_ne hat _) (s.setTab_of_ne hbt _) ?_ ?_ hfollows hheard hlistens hpos
          · exact State.post_grows _ t (.ask t) b a
          · exact State.post_grows _ t (.ask t) a b
  | grant opens =>
    delta Shared.step
    dsimp only
    split
    next t waiting hholder hwaiting =>
      split
      next =>
        intro hfollows hheard hlistens hpos
        by_cases hbt : b = t
        · subst hbt
          have hno : (((s.setTab b { s.tabs b with source := some 0 }).tabs b).listens &&
              ((s.setTab b { s.tabs b with source := some 0 }).tabs b).source.isNone) = true := hfollows
          rw [State.setTab_self, Bool.and_eq_true] at hno
          cases hno.2
        · by_cases hat : a = t
          · subst hat
            have hsent : 0 < ((s.setTab a { s.tabs a with source := some 0 }).tabs a).source.getD 0 := hpos
            rw [State.setTab_self] at hsent
            exact absurd hsent (Nat.lt_irrefl 0)
          · exact hsame (s.setTab_of_ne hat _) (s.setTab_of_ne hbt _) (hnil b a) (hnil a b) hfollows hheard hlistens hpos
      next => exact hanswered a b hab
    next => exact hanswered a b hab
  | frame t =>
    delta Shared.step
    dsimp only
    split
    next => exact hanswered a b hab
    next n hsource =>
      split
      next => exact hanswered a b hab
      next hopen =>
        intro hfollows hheard hlistens hpos
        by_cases hbt : b = t
        · subst hbt
          rw [State.follows, State.setTab_self, Bool.and_eq_true] at hfollows
          cases hfollows.2
        · have hb : (((s.post t (.frame (t, n))).setTab t
              ({ s.tabs t with source := some (n + 1), hello := (s.tabs t).hello.or (some (t, n)) }.deliver (t, n))).tabs b) =
              s.tabs b := State.setTab_of_ne _ hbt _
          by_cases hat : a = t
          · subst hat
            rw [State.follows, hb, Bool.and_eq_true] at hfollows
            have hqueue : (s.post a (.frame (a, n))).queue a b = s.queue a b ++ [.frame (a, n)] :=
              if_pos ⟨rfl, hab.symm, hfollows.1⟩
            refine Or.inr (Or.inr fun hnone => ?_)
            have hframes : framesOf ((s.post a (.frame (a, n))).queue a b) = [] := hnone
            rw [hqueue, framesOf_append] at hframes
            cases (List.append_eq_nil_iff.mp hframes).2
          · refine hsame (State.setTab_of_ne _ hat _) hb ?_ ?_ hfollows hheard hlistens hpos
            · exact s.post_grows t (.frame (t, n)) b a
            · exact s.post_grows t (.frame (t, n)) a b
  | receive a' b' =>
    delta Shared.step
    dsimp only
    split
    next => exact hanswered a b hab
    next message rest hqueue =>
      split
      next hclosed =>
        intro hfollows hheard hlistens hpos
        have hnot (t : ι) (ht : (s.tabs t).listens = true) : t ≠ b' := by
          rintro rfl
          rw [Tab.listens, hclosed] at ht
          cases hj : (s.tabs t).joined <;> rw [hj] at ht <;> cases ht
        have hb : b ≠ b' := hnot b (by
          rw [State.follows, Bool.and_eq_true] at hfollows
          exact hfollows.1)
        have ha : a ≠ b' := hnot a hlistens
        have hkept (x y : ι) (hy : y ≠ b') : ∃ more, (s.taken a' b').queue x y = s.queue x y ++ more :=
          ⟨[], (if_neg fun hno => hy hno.2).trans (List.append_nil _).symm⟩
        exact hsame rfl rfl (hkept b a ha) (hkept a b hb) hfollows hheard hlistens hpos
      next hopen =>
        intro hfollows hheard hlistens hpos
        obtain ⟨hl, hsrc, hh⟩ := (s.taken a' b').onmessage_tabs b' message b
        obtain ⟨hl', hsrc', -⟩ := (s.taken a' b').onmessage_tabs b' message a
        have hfollows' : s.follows b = true := by
          rw [State.follows, hl, hsrc] at hfollows
          exact hfollows
        have hpromised : s.Promised a b := by
          rw [State.sent, hsrc'] at hpos
          exact hanswered a b hab hfollows' (hh hheard) (hl'.symm.trans hlistens) hpos
        obtain ⟨hblistens, hbsource⟩ := (Bool.and_eq_true _ _).mp hfollows'
        by_cases harrived : a' = a ∧ b' = b
        · obtain ⟨rfl, rfl⟩ := harrived
          exact promised_arrived hab hqueue (Option.isNone_iff_eq_none.mp hbsource) hpromised hheard
        · by_cases hasked : a' = b ∧ b' = a
          · obtain ⟨rfl, rfl⟩ := hasked
            rw [State.sent, hsrc'] at hpos
            exact h.promised_asked hab hqueue hblistens hpos hpromised
          · have hkept (x y : ι) (hne : ¬ (a' = x ∧ b' = y)) :
                ∃ more, ((s.taken a' b').onmessage b' message).queue x y = s.queue x y ++ more := by
              obtain ⟨more, hmore⟩ := (s.taken a' b').onmessage_grows b' message x y
              refine ⟨more, hmore.trans (congrArg (· ++ more) (if_neg fun hno => hne ⟨hno.1.symm, hno.2.symm⟩))⟩
            exact hpromised.mono (hkept b a hasked) (hkept a b harrived)
  | close t =>
    delta Shared.step
    dsimp only
    split
    next =>
      intro hfollows hheard hlistens hpos
      have hclosed (u : ι) (hu : ((s.setTab t { s.tabs t with closed := true }).tabs u).listens = true) : u ≠ t := by
        rintro rfl
        rw [State.setTab_self, Tab.listens, Bool.and_eq_true] at hu
        cases hu.2
      have hb : b ≠ t := hclosed b (by
        rw [State.follows, Bool.and_eq_true] at hfollows
        exact hfollows.1)
      have ha : a ≠ t := hclosed a hlistens
      exact hsame (s.setTab_of_ne ha _) (s.setTab_of_ne hb _) (hnil b a) (hnil a b) hfollows hheard hlistens hpos
    next => exact hanswered a b hab

end Sound

/--
A tab that follows and has heard nothing does not wait in silence: of each open tab whose stream has begun, its question,
the answer or a frame is under way.
-/
theorem promised_run (events : List (Event ι)) (a b : ι) (hab : a ≠ b) (hfollows : (run events).follows b = true)
    (hheard : ((run events).tabs b).heard = false) (hlistens : ((run events).tabs a).listens = true)
    (hbegun : 0 < (run events).sent a) : (run events).Promised a b := by
  have hstep (s : State ι) (e : Event ι) (hs : Sound s ∧ Answered s) : Sound (step s e) ∧ Answered (step s e) :=
    ⟨hs.1.step e, hs.1.answered_step hs.2 e⟩
  have hinit : Sound (init : State ι) ∧ Answered (init : State ι) := ⟨sound_init, fun _ _ _ hf => (nomatch hf)⟩
  have h : Sound (run events) ∧ Answered (run events) := Lib.invariant_run hstep hinit events
  exact h.2 a b hab hfollows hheard hlistens hbegun

/-- A tab that joins after the first frame. -/
theorem promised_run_joined : (run [Event.join 0, .grant true, .frame 0, .join 1]).Promised 0 1 :=
  promised_run [.join 0, .grant true, .frame 0, .join 1] 0 1 (by decide) (by decide) (by decide) (by decide) (by decide)

end Norbital.Bolt.Shared

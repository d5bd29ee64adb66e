import Norbital.Bolt.Live.Accounting
import Norbital.Bolt.Live.Patch

/-!
# The page mirrors the hub

The page's `onFrame` (`bolt/src/page/bolt.ts`) over the frames a connection was
sent, beside the answers the hub holds for it.  After every step the page shows
each answer the hub holds, and takes every patch, in the runs in which a flush
that waited for rows finds its views unanswered since it began.
-/

namespace Norbital.Bolt.Live

/-- `rowOf` of a fetched value, `null` apart. -/
def rowOf : Json → Option (Option Fields)
  | .null => some none
  | .obj fields => some (some fields)
  | _ => none

/-- What the hub runs on beside `apply`, over wire values. -/
structure Judge where
  Db : Type
  Authority : Type
  Read : Type
  Captured : Type
  run : Db → Authority → Read → Except Failure Json
  check : Read → Except Failure Unit
  bytesOf : Json → Nat
  same : Json → Json → Bool
  isInbox : Read → Bool
  metadataHits : Read → Option Json → SyncChanges → Bool
  arrivals : Read → Option Nat → List (Captured × Nat) → List Fields
  decide : Authority → Read → Option Json → Captured → Decision
  resolve : Authority → Read → Captured → Resolved Read Fields Captured
  strategy : Read → Strategy Captured

abbrev Judge.engine (J : Judge) : Engine where
  Db := J.Db
  Authority := J.Authority
  Read := J.Read
  Json := Json
  Row := Fields
  Captured := J.Captured
  run := J.run
  check := J.check
  bytesOf := J.bytesOf
  same := J.same
  isInbox := J.isInbox
  metadataHits := J.metadataHits
  arrivals := J.arrivals
  decide := J.decide
  resolve := J.resolve
  rowOf := rowOf
  apply _ read work c row := apply (J.strategy read) work c row

/-- A captured row as resolved for a view of the read: the row, or whatever a `get` of it brings, is
one of its rows. -/
def AptResolved (J : Judge) (read : J.Read) : Resolved J.Read Fields J.Captured → Prop
  | .row c row => Apt (J.strategy read) c row
  | .get c fetch => ∀ db a value row, J.run db a fetch = .ok value → rowOf value = some row →
      Apt (J.strategy read) c row
  | .full => True

/-- Answers have the shape of their read, only a list falls back to a `get` of a row, and a row is
resolved under its own id. -/
structure Judge.Lawful (J : Judge) : Prop where
  formed : ∀ db a read value, J.run db a read = .ok value → Formed (J.strategy read) value
  fetched : ∀ a read c k fetch, J.resolve a read c = .get k fetch → (J.strategy read).shape = .page
  apt : ∀ a read value c, J.decide a read value c = .hit → AptResolved J read (J.resolve a read c)

/-- A view of the page: the last answer as it holds it, and its version. -/
structure ClientView where
  server : Option Json
  v : Int

/-- Whether `onFrame` takes a patch. -/
def ClientView.takes (view : ClientView) (v : Nat) (ops : List (PatchOp Json Fields)) : Prop :=
  view.v < v ∧ ∃ next, view.server.bind (patched · (ops.map typedOp)) = some next

/-- `onFrame`, for the view of an id. -/
def onFrame (id : String) (view : ClientView) : Frame Json Fields → ClientView
  | .hello _ => { view with v := -1 }
  | .answer i v value _ => if i = id then ⟨some (typed value), v⟩ else view
  | .patch i v ops =>
    if i = id then
      if v ≤ view.v then view
      else match view.server.bind (patched · (ops.map typedOp)) with
        | some next => ⟨some next, v⟩
        | none => view
    else view
  | .error .. | .version _ | .close _ => view

/-- The page's view after the frames sent to its connection. -/
def mirror (start : ClientView) (sent : List (Nat × Frame Json Fields)) (conn : Nat) (id : String) :
    ClientView :=
  (sent.filter fun f => f.1 = conn).foldl (fun view f => onFrame id view f.2) start

section Page

variable {start : ClientView} {sent : List (Nat × Frame Json Fields)} {conn c : Nat} {id : String}
  {frame : Frame Json Fields}

theorem mirror_append : mirror start (sent ++ [(c, frame)]) conn id =
    if c = conn then onFrame id (mirror start sent conn id) frame else mirror start sent conn id := by
  rw [mirror, List.filter_append, List.foldl_append]
  by_cases h : c = conn <;> simp [h, mirror]

/-- The view a frame is for. -/
def Frame.view? : Frame Json Fields → Option String
  | .answer view .. => some view
  | .patch view .. => some view
  | _ => none

/-- A frame for another view, or none, leaves what the page shows. -/
theorem onFrame_server_of_ne (view : ClientView) (h : frame.view? ≠ some id) :
    (onFrame id view frame).server = view.server ∧ (onFrame id view frame).v ≤ max view.v (-1) := by
  cases frame with
  | hello v => exact ⟨rfl, le_max_right _ _⟩
  | answer i v value arrivals =>
    rw [onFrame, if_neg fun heq : i = id => h (congrArg some heq)]
    exact ⟨rfl, le_max_left _ _⟩
  | patch i v ops =>
    rw [onFrame, if_neg fun heq : i = id => h (congrArg some heq)]
    exact ⟨rfl, le_max_left _ _⟩
  | error i failure => exact ⟨rfl, le_max_left _ _⟩
  | version v => exact ⟨rfl, le_max_left _ _⟩
  | close release => exact ⟨rfl, le_max_left _ _⟩

end Page

section Invariant

variable {J : Judge}

/-- The answers a read brought are its reads' answers. -/
def Ran (J : Judge) (reads : List J.Read) (answers : List (Except Failure Json)) : Prop :=
  ∀ (i : Nat) read answer, reads[i]? = some read → answers[i]? = some answer →
    ∃ db a, answer = J.run db a read

/-- The views a read in flight is for, and what it has brought. -/
structure Job.Sound (h : Hub J.engine) (job : Job J.engine) : Prop where
  phase : match job.phase with
    | .asked _ => True
    | .each _ answers => ∀ (i : Nat) read answer, job.reads[i]? = some read →
        answers[i]? = some (some answer) → ∃ db a, answer = J.run db a read
    | .ran answers => Ran J job.reads answers
  purpose : match job.purpose with
    | .answer refs _ => job.reads = h.readsOf refs ∧ ∀ ref ∈ refs, ref < h.heap.length
    | .flush full deltas _ =>
        job.reads = h.readsOf full ++ deltas.flatMap (fun d => getsOf d.2) ∧
        (∀ ref ∈ full ++ deltas.map (·.1), ref < h.heap.length) ∧
        (full ++ deltas.map (·.1)).Nodup ∧
        (∀ d ∈ deltas, ∀ view ∈ h.heap[d.1]?, ∀ x ∈ d.2, AptResolved J view.read x) ∧
        0 < h.routed

/-- The page shows every answer the hub holds, and took every patch. -/
structure Mirrored (start : ClientView) (h : Hub J.engine) : Prop where
  accounts : Accounts h
  conns : (h.conns.map (·.id)).Nodup
  fresh : ∀ c ∈ h.conns, c.id ≤ h.n
  routed : h.routed ≤ h.v
  queued : h.queued = true → h.routed < h.v
  stamps : ∀ conn id, (mirror start h.sent conn id).v ≤ h.routed
  formed : ∀ (ref : Nat) view, h.heap[ref]? = some view → ∀ w ∈ view.value,
    Formed (J.strategy view.read) w
  shown : ∀ e ∈ h.views, ∀ view ∈ h.heap[e.ref]?, ∀ w ∈ view.value,
    ∃ server, (mirror start h.sent e.conn e.id).server = some server ∧
      Shown (J.strategy view.read) server w
  taken : ∀ before conn id v ops after, h.sent = before ++ (conn, Frame.patch id v ops) :: after →
    (mirror start before conn id).takes v ops
  jobs : ∀ job ∈ h.jobs, job.Sound h

/-- The hub after puts on one connection: no id registered, no view's read changed, and nothing sent
to another connection. -/
structure Advances (start : ClientView) (conn : Nat) (h h' : Hub J.engine) : Prop
    extends Narrows h h' where
  reads : ∀ ref : Nat, (h'.heap[ref]?).map (·.read) = (h.heap[ref]?).map (·.read)
  others : ∀ c ≠ conn, ∀ id, mirror start h'.sent c id = mirror start h.sent c id
  lane : h'.routed = h.routed ∧ h'.v = h.v ∧ h'.queued = h.queued
  conns : h'.conns = h.conns ∧ h'.n = h.n

theorem Advances.refl (start : ClientView) (conn : Nat) (h : Hub J.engine) :
    Advances start conn h h :=
  ⟨Narrows.refl h, fun _ => rfl, fun _ _ _ => rfl, ⟨rfl, rfl, rfl⟩, rfl, rfl⟩

theorem Advances.trans {start : ClientView} {conn : Nat} {h h' h'' : Hub J.engine}
    (ha : Advances start conn h h') (hb : Advances start conn h' h'') :
    Advances start conn h h'' where
  toNarrows := ha.toNarrows.trans hb.toNarrows
  reads ref := (hb.reads ref).trans (ha.reads ref)
  others c hc id := (hb.others c hc id).trans (ha.others c hc id)
  lane := ⟨hb.lane.1.trans ha.lane.1, hb.lane.2.1.trans ha.lane.2.1, hb.lane.2.2.trans ha.lane.2.2⟩
  conns := ⟨hb.conns.1.trans ha.conns.1, hb.conns.2.trans ha.conns.2⟩

theorem readsOf_congr {h h' : Hub J.engine} {refs : List Nat}
    (hreads : ∀ ref ∈ refs, (h'.heap[ref]?).map (·.read) = (h.heap[ref]?).map (·.read)) :
    h'.readsOf refs = h.readsOf refs := by
  rw [Hub.readsOf, Hub.readsOf]
  exact List.filterMap_congr hreads

/-- A read in flight stays sound while the views it is for keep their reads. -/
theorem Job.Sound.congr {h h' : Hub J.engine} {job : Job J.engine} (hjob : job.Sound h)
    (hreads : ∀ ref < h.heap.length, (h'.heap[ref]?).map (·.read) = (h.heap[ref]?).map (·.read))
    (hrouted : h.routed ≤ h'.routed) : job.Sound h' := by
  have hlength : ∀ ref < h.heap.length, ref < h'.heap.length := by
    intro ref href
    have hsome := hreads ref href
    rw [List.getElem?_eq_getElem href] at hsome
    by_contra hge
    rw [List.getElem?_eq_none (Nat.le_of_not_lt hge)] at hsome
    cases hsome
  refine ⟨hjob.phase, ?_⟩
  have hpurpose := hjob.purpose
  cases hp : job.purpose with
  | answer refs origin =>
    simp only [hp] at hpurpose ⊢
    obtain ⟨heq, hlt⟩ := hpurpose
    exact ⟨heq.trans (readsOf_congr fun ref href => hreads ref (hlt ref href)).symm,
      fun ref href => hlength ref (hlt ref href)⟩
  | flush full deltas batch =>
    simp only [hp] at hpurpose ⊢
    obtain ⟨heq, hlt, hnodup, hapt, hpos⟩ := hpurpose
    refine ⟨?_, fun ref href => hlength ref (hlt ref href), hnodup, ?_, Nat.lt_of_lt_of_le hpos hrouted⟩
    · rw [heq, readsOf_congr fun ref href => hreads ref (hlt ref (List.mem_append_left _ href))]
    · intro d hd view hview x hx
      have href := hlt d.1 (List.mem_append_right _ (List.mem_map_of_mem hd))
      have hread := hreads d.1 href
      rw [Option.mem_def.1 hview, List.getElem?_eq_getElem href, Option.map_some, Option.map_some,
        Option.some.injEq] at hread
      rw [hread]
      exact hapt d hd _ (List.getElem?_eq_getElem href) x hx

variable {start : ClientView} {h h' : Hub J.engine} {conn ref : Nat} {e : Entry}
  {view : View J.Read Json} {value : Json} {frame : Frame Json Fields}

/-- The frame of a view's new answer. -/
def putFrame (id : String) (routed : Nat) (value : Json) (arrivals : List Fields) :
    Option (List (PatchOp Json Fields)) → Frame Json Fields
  | none => .answer id routed value arrivals
  | some ops => .patch id routed ops

theorem put_cases (hview : h.heap[ref]? = some view) (value : Json)
    (ops : Option (List (PatchOp Json Fields))) (arrivals : List Fields) :
    put h conn ref value ops arrivals = h ∨
    (∃ failure, put h conn ref value ops arrivals =
      (h.drop conn view.id).send conn (.error view.id failure)) ∨
    ∃ bytes retained, put h conn ref value ops arrivals =
      { h with
        heap := h.heap.set ref { view with bytes := bytes, value := some value }
        retained := retained
        sent := h.sent ++ [(conn, putFrame view.id h.routed value arrivals ops)] } := by
  simp only [put, hview]
  split_ifs
  · exact .inl rfl
  · split
    · next failure _ => exact .inr (.inl ⟨failure, rfl⟩)
    · cases ops <;> exact .inr (.inr ⟨_, _, rfl⟩)

/-- A frame that is no patch is taken or not without effect on those before it. -/
theorem taken_append {sent : List (Nat × Frame Json Fields)} {c : Nat}
    (h : ∀ before conn id v ops after, sent = before ++ (conn, Frame.patch id v ops) :: after →
      (mirror start before conn id).takes v ops)
    (hlast : ∀ id v ops, frame = .patch id v ops → (mirror start sent c id).takes v ops) :
    ∀ before conn id v ops after, sent ++ [(c, frame)] = before ++ (conn, Frame.patch id v ops) :: after →
      (mirror start before conn id).takes v ops := by
  intro before conn id v ops after heq
  rcases List.eq_nil_or_concat after with rfl | ⟨init, last, rfl⟩
  · obtain ⟨rfl, hframe⟩ := List.append_inj' heq rfl
    simp only [List.cons.injEq, Prod.mk.injEq, and_true] at hframe
    obtain ⟨rfl, rfl⟩ := hframe
    exact hlast id v ops rfl
  · rw [List.concat_eq_append, ← List.cons_append, ← List.append_assoc] at heq
    obtain ⟨hsent, -⟩ := List.append_inj' heq rfl
    exact h before conn id v ops init hsent

/-- A frame that is for no view leaves the page and the hub in step. -/
theorem Mirrored.send (hm : Mirrored start h) (c : Nat) (hframe : frame.view? = none) :
    Mirrored start (h.send c frame) where
  accounts := hm.accounts.of_eq rfl rfl rfl rfl
  conns := hm.conns
  fresh := hm.fresh
  routed := hm.routed
  queued := hm.queued
  stamps conn id := by
    rw [Hub.send, mirror_append]
    have hstamp := hm.stamps conn id
    split_ifs
    · have hv := (onFrame_server_of_ne (mirror start h.sent conn id)
        (show frame.view? ≠ some id by simp [hframe])).2
      simp only at hv ⊢
      omega
    · exact hstamp
  formed := hm.formed
  shown e he view hview w hw := by
    obtain ⟨server, hserver, hshown⟩ := hm.shown e he view hview w hw
    refine ⟨server, ?_, hshown⟩
    rw [Hub.send, mirror_append]
    split_ifs
    · rw [(onFrame_server_of_ne _ (by simp [hframe])).1, hserver]
    · exact hserver
  taken := taken_append hm.taken fun id v ops heq => by simp [heq, Frame.view?] at hframe
  jobs job hjob := (hm.jobs job hjob).congr (fun _ _ => rfl) (Nat.le_refl _)

/-- A view's new answer, and the frame that says so. -/
theorem Mirrored.set (hm : Mirrored start h) (he : e ∈ h.views) (hview : h.heap[e.ref]? = some view)
    {bytes : Nat} {retained : Int}
    (heq : h' = { h with
      heap := h.heap.set e.ref { view with bytes := bytes, value := some value }
      retained := retained
      sent := h.sent ++ [(e.conn, frame)] })
    (haccounts : Accounts h') (hframe : frame.view? = some e.id)
    (hformed : Formed (J.strategy view.read) value)
    (hserver : ∃ server, (onFrame e.id (mirror start h.sent e.conn e.id) frame).server = some server ∧
      Shown (J.strategy view.read) server value)
    (hv : (onFrame e.id (mirror start h.sent e.conn e.id) frame).v ≤ h.routed)
    (htaken : ∀ v ops, frame = .patch e.id v ops → (mirror start h.sent e.conn e.id).takes v ops) :
    Mirrored start h' := by
  have hlt : e.ref < h.heap.length := (List.getElem?_eq_some_iff.1 hview).1
  -- what the page shows of any other view is as before
  have hother : ∀ conn id, ¬ (e.conn = conn ∧ e.id = id) →
      (mirror start h'.sent conn id).server = (mirror start h.sent conn id).server ∧
      (mirror start h'.sent conn id).v ≤ h.routed := by
    intro conn id hne
    have hstamp := hm.stamps conn id
    rw [heq, mirror_append]
    split_ifs with hconn
    · have hkeep := onFrame_server_of_ne (mirror start h.sent conn id)
        (show frame.view? ≠ some id by simpa [hframe] using fun hid => hne ⟨hconn, hid⟩)
      refine ⟨hkeep.1, ?_⟩
      have := hkeep.2
      omega
    · exact ⟨rfl, hstamp⟩
  have hsame : mirror start h'.sent e.conn e.id =
      onFrame e.id (mirror start h.sent e.conn e.id) frame := by
    rw [heq, mirror_append, if_pos rfl]
  constructor
  · exact haccounts
  · rw [heq]
    exact hm.conns
  · rw [heq]
    exact hm.fresh
  · rw [heq]
    exact hm.routed
  · rw [heq]
    exact hm.queued
  · intro conn id
    have hrouted : h'.routed = h.routed := by rw [heq]
    rw [hrouted]
    by_cases hkey : e.conn = conn ∧ e.id = id
    · obtain ⟨rfl, rfl⟩ := hkey
      rw [hsame]
      exact hv
    · exact (hother conn id hkey).2
  · intro ref view' hview' w hw
    simp only [heq, List.getElem?_set] at hview'
    split_ifs at hview' with href
    · cases hview'
      cases hw
      exact hformed
    · exact hm.formed ref view' hview' w hw
  · intro e' he' view' hview' w hw
    rw [heq] at he'
    simp only [heq, List.getElem?_set] at hview'
    by_cases hee : e' = e
    · subst hee
      rw [if_pos rfl, if_pos hlt] at hview'
      cases hview'
      cases hw
      rw [hsame]
      exact hserver
    · have href : e.ref ≠ e'.ref := fun href =>
        hee (List.inj_on_of_nodup_map hm.accounts.refs he' he href.symm)
      have hkey : ¬ (e.conn = e'.conn ∧ e.id = e'.id) := fun hkey =>
        hee (List.inj_on_of_nodup_map hm.accounts.keys he' he
          (Prod.ext hkey.1.symm hkey.2.symm))
      rw [if_neg href] at hview'
      obtain ⟨server, hserver', hshown⟩ := hm.shown e' he' view' hview' w hw
      exact ⟨server, (hother e'.conn e'.id hkey).1.trans hserver', hshown⟩
  · rw [heq]
    refine taken_append hm.taken ?_
    intro id v ops hpatch
    rw [hpatch, Frame.view?, Option.some.injEq] at hframe
    subst hframe
    exact htaken v ops hpatch
  · rw [heq]
    intro job hjob
    refine (hm.jobs job hjob).congr (fun ref _ => ?_) (Nat.le_refl _)
    simp only [List.getElem?_set]
    split_ifs with href
    · rw [← href, hview]
      rfl
    · rfl

/-- A view a connection holds is in the heap. -/
theorem lt_of_mem_viewsOf (ha : Accounts h) (href : ref ∈ h.viewsOf conn) : ref < h.heap.length := by
  obtain ⟨e, he, rfl⟩ := List.mem_map.1 href
  have hid := ha.ids e (List.mem_of_mem_filter he)
  by_contra hge
  rw [List.getElem?_eq_none (Nat.le_of_not_lt hge)] at hid
  cases hid

theorem viewOf_of_mem (ha : Accounts h) (he : e ∈ h.views) : h.viewOf e.conn e.id = some e.ref := by
  have hsome : (h.viewOf e.conn e.id).isSome := by
    rw [Hub.viewOf, Option.isSome_map, List.find?_isSome]
    exact ⟨e, he, by simp⟩
  obtain ⟨ref, href⟩ := Option.isSome_iff_exists.1 hsome
  obtain ⟨e', he', hconn, hid, rfl⟩ := viewOf_eq_some href
  rw [href, List.inj_on_of_nodup_map ha.keys he' he (Prod.ext hconn hid)]

theorem viewOf_narrows (ha : Accounts h) (hn : Narrows h h') {id : String}
    (hv : h'.viewOf conn id = some ref) : h.viewOf conn id = some ref := by
  obtain ⟨e, he, rfl, rfl, rfl⟩ := viewOf_eq_some hv
  exact viewOf_of_mem ha (hn.views e he)

theorem Mirrored.drop (hm : Mirrored start h) (c : Nat) (id : String) :
    Mirrored start (h.drop c id) := by
  have haccounts := hm.accounts.drop c id
  have hsub : ∀ e ∈ (h.drop c id).views, e ∈ h.views := (keeps_drop h c id).views
  rw [Hub.drop] at haccounts hsub ⊢
  split
  · exact hm
  · next ref href =>
    simp only [href] at haccounts hsub
    exact ⟨haccounts, hm.conns, hm.fresh, hm.routed, hm.queued, hm.stamps, hm.formed,
      fun e he => hm.shown e (hsub e he), hm.taken, 
      fun job hjob => (hm.jobs job hjob).congr (fun _ _ => rfl) (Nat.le_refl _)⟩

theorem Hub.drop_eq (h : Hub J.engine) (c : Nat) (id : String) :
    ∃ retained views, h.drop c id = { h with retained := retained, views := views } := by
  rw [Hub.drop]
  split <;> exact ⟨_, _, rfl⟩

/-- A view that is registered and has had no frame of the flush under way. -/
def Open (start : ClientView) (h : Hub J.engine) (conn ref : Nat) : Prop :=
  ∀ view ∈ h.heap[ref]?, h.viewOf conn view.id = some ref →
    (mirror start h.sent conn view.id).v < h.routed

/-- The views not put on stay open. -/
theorem Open.advances {ref' : Nat} (hopen : Open start h conn ref') (ha : Accounts h)
    (hadv : Advances start conn h h')
    (hkeeps : ∀ view ∈ h.heap[ref']?, h.viewOf conn view.id = some ref' →
      (mirror start h'.sent conn view.id).v ≤ (mirror start h.sent conn view.id).v) :
    Open start h' conn ref' := by
  intro view' hview' hheld
  obtain ⟨view, hview, hid⟩ := hadv.ids ref' view' hview'
  have hbefore := viewOf_narrows ha hadv.toNarrows hheld
  rw [← hid] at hbefore ⊢
  rw [hadv.lane.1]
  have := hopen view hview hbefore
  have := hkeeps view hview hbefore
  omega

/-- What a put sends for a view: its answer, or ops that the page takes from what it shows. -/
def Sends (start : ClientView) (h : Hub J.engine) (conn : Nat) (view : View J.Read Json)
    (value : Json) : Option (List (PatchOp Json Fields)) → Prop
  | none => True
  | some ops => (mirror start h.sent conn view.id).v < h.routed ∧ ∃ server next,
      (mirror start h.sent conn view.id).server = some server ∧
      patched server (ops.map typedOp) = some next ∧ Shown (J.strategy view.read) next value

theorem advances_set (hview : h.heap[ref]? = some view) (retained : Int) (frame : Frame Json Fields)
    (bytes : Nat) (value : Json)
    (hn : Narrows h { h with
      heap := h.heap.set ref { view with bytes := bytes, value := some value }
      retained := retained
      sent := h.sent ++ [(conn, frame)] }) :
    Advances start conn h { h with
      heap := h.heap.set ref { view with bytes := bytes, value := some value }
      retained := retained
      sent := h.sent ++ [(conn, frame)] } := by
  refine ⟨hn, ?_, ?_, ⟨rfl, rfl, rfl⟩, rfl, rfl⟩
  · intro ref'
    simp only [List.getElem?_set]
    split_ifs with href hlt
    · rw [← href, hview]
      rfl
    · exact absurd (List.getElem?_eq_some_iff.1 hview).1 hlt
    · rfl
  · intro c hc id
    rw [mirror_append, if_neg (Ne.symm hc)]

/-- A frame for one view leaves every other one. -/
theorem onFrame_of_view {client : ClientView} {id id' : String} (hframe : frame.view? = some id)
    (hne : id ≠ id') : onFrame id' client frame = client := by
  cases frame with
  | answer i v value arrivals =>
    cases hframe
    rw [onFrame, if_neg hne]
  | patch i v ops =>
    cases hframe
    rw [onFrame, if_neg hne]
  | _ => cases hframe

/-- The page takes what a put sends. -/
theorem onFrame_put (hformed : Formed (J.strategy view.read) value)
    {ops : Option (List (PatchOp Json Fields))} (hsends : Sends start h conn view value ops)
    (arrivals : List Fields) :
    (∃ server, (onFrame view.id (mirror start h.sent conn view.id)
        (putFrame view.id h.routed value arrivals ops)).server = some server ∧
      Shown (J.strategy view.read) server value) ∧
    (onFrame view.id (mirror start h.sent conn view.id)
      (putFrame view.id h.routed value arrivals ops)).v ≤ h.routed ∧
    ∀ v ops', putFrame view.id h.routed value arrivals ops = .patch view.id v ops' →
      (mirror start h.sent conn view.id).takes v ops' := by
  cases ops with
  | none =>
    refine ⟨⟨typed value, by simp [onFrame, putFrame], shown_typed hformed⟩, ?_, ?_⟩
    · simp [onFrame, putFrame]
    · intro v ops' heq
      cases heq
  | some ops =>
    obtain ⟨hv, server, next, hserver, hpatched, hshown⟩ := hsends
    have hnot : ¬ (h.routed : Int) ≤ (mirror start h.sent conn view.id).v := by omega
    refine ⟨⟨next, ?_, hshown⟩, ?_, ?_⟩
    · simp [onFrame, putFrame, hnot, hserver, hpatched]
    · simp [onFrame, putFrame, hnot, hserver, hpatched]
    · intro v ops' heq
      cases heq
      exact ⟨hv, next, by simp [hserver, hpatched]⟩

/-- What puts on some views of a connection leave. -/
structure Puts (start : ClientView) (conn : Nat) (refs : List Nat) (h h' : Hub J.engine) : Prop where
  mirrored : Mirrored start h'
  advances : Advances start conn h h'
  others : ∀ ref ∉ refs, Open start h conn ref → Open start h' conn ref

theorem Puts.refl (hm : Mirrored start h) (refs : List Nat) : Puts start conn refs h h :=
  ⟨hm, Advances.refl start conn h, fun _ _ hopen => hopen⟩

theorem Puts.trans {h'' : Hub J.engine} {refs refs' : List Nat} (ha : Puts start conn refs h h')
    (hb : Puts start conn refs' h' h'') : Puts start conn (refs ++ refs') h h'' := by
  refine ⟨hb.mirrored, ha.advances.trans hb.advances, ?_⟩
  intro ref href hopen
  rw [List.mem_append, not_or] at href
  exact hb.others ref href.2 (ha.others ref href.1 hopen)

theorem Puts.mono {refs refs' : List Nat} (hp : Puts start conn refs h h')
    (hsub : ∀ ref ∈ refs, ref ∈ refs') : Puts start conn refs' h h' :=
  ⟨hp.mirrored, hp.advances, fun ref href => hp.others ref fun hmem => href (hsub ref hmem)⟩

/-- A frame that is for no view. -/
theorem puts_send (hm : Mirrored start h)
    (hstill : ∀ (client : ClientView) id, (onFrame id client frame).v ≤ client.v)
    (hframe : frame.view? = none) (refs : List Nat) : Puts start conn refs h (h.send conn frame) := by
  have hadv : Advances start conn h (h.send conn frame) := by
    refine ⟨⟨fun _ he => he, fun _ view hview => ⟨view, hview, rfl⟩⟩, fun _ => rfl, ?_,
      ⟨rfl, rfl, rfl⟩, rfl, rfl⟩
    intro c hc id
    rw [Hub.send, mirror_append, if_neg (Ne.symm hc)]
  refine ⟨hm.send conn hframe, hadv, ?_⟩
  intro ref' _ hopen
  refine hopen.advances hm.accounts hadv ?_
  intro view' _ _
  rw [Hub.send, mirror_append, if_pos rfl]
  exact hstill _ _

/-- One put on the view its id stands for. -/
theorem puts_put (hm : Mirrored start h) (hcurrent : Current h conn ref)
    (hview : h.heap[ref]? = some view) (hheld : (h.viewOf conn view.id).isSome)
    (hformed : Formed (J.strategy view.read) value) {ops : Option (List (PatchOp Json Fields))}
    (hsends : Sends start h conn view value ops) (arrivals : List Fields) :
    Puts start conn [ref] h (put h conn ref value ops arrivals) := by
  have hkeeps := keeps_put value ops arrivals hcurrent hview hheld
  obtain ⟨r, hr⟩ := Option.isSome_iff_exists.1 hheld
  obtain ⟨e, he, rfl, hid, rfl⟩ := viewOf_eq_some hr
  obtain rfl : e.ref = ref := hcurrent view hview e he rfl hid
  rcases put_cases hview value ops arrivals with heq | ⟨failure, heq⟩ | ⟨bytes, retained, heq⟩
  · rw [heq]
    exact Puts.refl hm _
  · -- over a budget the view is dropped and the page told so
    rw [heq] at hkeeps ⊢
    obtain ⟨retained, views, hdrop⟩ := h.drop_eq e.conn view.id
    have hadv : Advances start e.conn h
        ((h.drop e.conn view.id).send e.conn (.error view.id failure)) := by
      refine ⟨hkeeps.toNarrows, ?_, ?_, ?_, ?_⟩
      · simp [hdrop, Hub.send]
      · intro c hc id
        rw [hdrop, Hub.send, mirror_append, if_neg (Ne.symm hc)]
      · simp [hdrop, Hub.send]
      · simp [hdrop, Hub.send]
    refine ⟨(hm.drop e.conn view.id).send e.conn rfl, hadv, ?_⟩
    intro ref' _ hopen
    refine hopen.advances hm.accounts hadv ?_
    intro view' _ _
    rw [hdrop, Hub.send, mirror_append, if_pos rfl]
    exact le_refl _
  · -- the view's new answer
    rw [heq] at hkeeps ⊢
    have hadv : Advances start e.conn h _ := advances_set hview retained (putFrame view.id h.routed value arrivals ops) bytes value
      hkeeps.toNarrows
    have hframe : (putFrame view.id h.routed value arrivals ops).view? = some e.id := by
      cases ops <;> simp [putFrame, Frame.view?, hid]
    refine ⟨?_, hadv, ?_⟩
    · obtain ⟨hserver, hv, htaken⟩ := onFrame_put hformed hsends arrivals
      rw [← hid] at hserver hv htaken
      exact hm.set he hview rfl (hkeeps.accounts hm.accounts) hframe hformed (hid ▸ hserver)
        (hid ▸ hv) (hid ▸ htaken)
    · intro ref' hne hopen
      refine hopen.advances hm.accounts hadv ?_
      intro view' _ hheld'
      have hids : view'.id ≠ e.id := by
        intro hsame
        rw [hsame, hid, hr] at hheld'
        exact hne (List.mem_singleton.2 (Option.some.inj hheld').symm)
      rw [mirror_append, if_pos rfl, onFrame_of_view hframe (Ne.symm hids)]

/-- The answer a read brings to a view has the shape of the view's read. -/
def Brings (h : Hub J.engine) (ref : Nat) (answer : Option (Except Failure Json)) : Prop :=
  ∀ view ∈ h.heap[ref]?, ∀ value, answer = some (.ok value) → Formed (J.strategy view.read) value

theorem Advances.heapView (hadv : Advances start conn h h') {view' : View J.Read Json}
    (hview : h'.heap[ref]? = some view') : ∃ view, h.heap[ref]? = some view ∧ view.read = view'.read := by
  have hread := hadv.reads ref
  rw [hview, Option.map_some] at hread
  exact Option.map_eq_some_iff.1 hread.symm

theorem Brings.advances {answer : Option (Except Failure Json)} (hb : Brings h ref answer)
    (hadv : Advances start conn h h') : Brings h' ref answer := by
  intro view' hview' value hvalue
  obtain ⟨view, hview, hread⟩ := hadv.heapView hview'
  rw [← hread]
  exact hb view hview value hvalue

theorem puts_hand {answer : Option (Except Failure Json)} {arrivals : View J.Read Json → List Fields}
    (hm : Mirrored start h) (hcurrent : Current h conn ref) (hb : Brings h ref answer) :
    Puts start conn [ref] h (hand h conn ref answer arrivals) := by
  cases hview : h.heap[ref]? with
  | none => simpa [hand, hview] using Puts.refl hm _
  | some view =>
    cases answer with
    | none => simpa [hand, hview] using Puts.refl hm _
    | some result =>
      simp only [hand, hview]
      split_ifs with hheld
      · cases result with
        | ok value =>
          have hsends : Sends start h conn view value none := trivial
          exact puts_put hm hcurrent hview hheld (hb view hview value rfl) hsends _
        | error failure => exact puts_send hm (fun client id => le_refl _) rfl _
      · exact Puts.refl hm _

theorem puts_handAll {refs : List Nat} {answers : List (Except Failure Json)}
    {arrivals : View J.Read Json → List Fields} (hm : Mirrored start h)
    (hcurrent : ∀ ref ∈ refs, Current h conn ref)
    (hb : ∀ x ∈ refs.zipIdx, Brings h x.1 answers[x.2]?) :
    Puts start conn refs h (handAll h conn refs answers arrivals) := by
  have hall : ∀ (pairs : List (Nat × Nat)) (k : Hub J.engine), Mirrored start k →
      (∀ x ∈ pairs, Current k conn x.1) → (∀ x ∈ pairs, Brings k x.1 answers[x.2]?) →
      Puts start conn (pairs.map Prod.fst) k
        (pairs.foldl (fun h x => hand h conn x.1 answers[x.2]? arrivals) k) := by
    intro pairs
    induction pairs with
    | nil => exact fun k hk _ _ => Puts.refl hk _
    | cons x pairs ih =>
      intro k hk hcur hbr
      have hx : Puts start conn [x.1] k (hand k conn x.1 answers[x.2]? arrivals) :=
        puts_hand hk (hcur x List.mem_cons_self) (hbr x List.mem_cons_self)
      refine hx.trans (ih _ hx.mirrored ?_ ?_)
      · exact fun y hy => (hcur y (List.mem_cons_of_mem x hy)).narrows hx.advances.toNarrows
      · exact fun y hy => (hbr y (List.mem_cons_of_mem x hy)).advances hx.advances
  have hputs := hall refs.zipIdx h hm (fun x hx => hcurrent x.1 (List.fst_mem_of_mem_zipIdx hx)) hb
  rwa [List.zipIdx_map_fst] at hputs

/-- A resolved row beside what was fetched for it. -/
def GotApt (J : Judge) (read : J.Read) :
    Resolved J.Read Fields J.Captured × Option (Except Failure Json) → Prop
  | (.row c row, _) => Apt (J.strategy read) c row
  | (.get c _, some (.ok value)) => ∀ row, rowOf value = some row → Apt (J.strategy read) c row
  | _ => True

theorem Ran.tail {read : J.Read} {reads : List J.Read} {answers : List (Except Failure Json)}
    (hran : Ran J (read :: reads) answers) :
    (∀ answer ∈ answers.head?, ∃ db a, answer = J.run db a read) ∧ Ran J reads answers.tail := by
  constructor
  · intro answer hanswer
    exact hran 0 read answer rfl (by simpa [List.head?_eq_getElem?] using hanswer)
  · intro i read' answer hread hanswer
    exact hran (i + 1) read' answer (by simpa using hread) (by simpa using hanswer)

/-- Each `get` of a delta takes the next answer, and the rest is left. -/
theorem Ran.gotOf {rows : List (Resolved J.Read Fields J.Captured)} {more : List J.Read}
    {answers : List (Except Failure Json)}
    (hran : Ran J (getsOf (E := J.engine) rows ++ more) answers) :
    Ran J more (gotOf (E := J.engine) rows answers).2 := by
  induction rows generalizing answers with
  | nil => exact hran
  | cons x rows ih =>
    cases x with
    | row c row => exact ih hran
    | get c fetch => exact ih hran.tail.2
    | full => exact ih hran

theorem gotApt {read : J.Read} {rows : List (Resolved J.Read Fields J.Captured)} {more : List J.Read}
    {answers : List (Except Failure Json)} (hrows : ∀ x ∈ rows, AptResolved J read x)
    (hran : Ran J (getsOf (E := J.engine) rows ++ more) answers) :
    ∀ p ∈ (gotOf (E := J.engine) rows answers).1, GotApt J read p := by
  induction rows generalizing answers with
  | nil => simp [Live.gotOf]
  | cons x rows ih =>
    have hrest : ∀ y ∈ rows, AptResolved J read y := fun y hy => hrows y (List.mem_cons_of_mem x hy)
    have hx := hrows x List.mem_cons_self
    intro p hp
    cases x with
    | row c row =>
      rcases List.mem_cons.1 hp with rfl | hp
      · exact hx
      · exact ih hrest hran p hp
    | get c fetch =>
      obtain ⟨hhead, htail⟩ := hran.tail
      rcases List.mem_cons.1 hp with rfl | hp
      · cases hanswer : answers.head? with
        | none => trivial
        | some answer =>
          cases answer with
          | error failure => trivial
          | ok value =>
            intro row hrow
            obtain ⟨db, a, hrun⟩ := hhead _ hanswer
            exact hx db a value row hrun.symm hrow
      · exact ih hrest htail p hp
    | full =>
      rcases List.mem_cons.1 hp with rfl | hp
      · trivial
      · exact ih hrest hran p hp

theorem applyRows_cons {authority : J.Authority} {read : J.Read}
    {p : Resolved J.Read Fields J.Captured × Option (Except Failure Json)}
    {got : List (Resolved J.Read Fields J.Captured × Option (Except Failure Json))}
    {work work' : Json} {ops : List (PatchOp Json Fields)} (hp : GotApt J read p)
    (happly : applyRows (E := J.engine) authority read work (p :: got) = some (work', ops)) :
    ∃ c row mid first more, Apt (J.strategy read) c row ∧
      apply (J.strategy read) work c row = some (mid, first) ∧
      applyRows (E := J.engine) authority read mid got = some (work', more) ∧ ops = first ++ more := by
  have hbind : ∀ c row, Apt (J.strategy read) c row →
      ((apply (J.strategy read) work c row).bind fun applied =>
        (applyRows (E := J.engine) authority read applied.1 got).bind fun rest =>
          some (rest.1, applied.2 ++ rest.2)) = some (work', ops) →
      ∃ c row mid first more, Apt (J.strategy read) c row ∧
        apply (J.strategy read) work c row = some (mid, first) ∧
        applyRows (E := J.engine) authority read mid got = some (work', more) ∧ ops = first ++ more := by
    intro c row hapt hsome
    obtain ⟨⟨mid, first⟩, hfirst, hsome⟩ := Option.bind_eq_some_iff.1 hsome
    obtain ⟨⟨last, more⟩, hmore, hsome⟩ := Option.bind_eq_some_iff.1 hsome
    cases hsome
    exact ⟨c, row, mid, first, more, hapt, hfirst, hmore, rfl⟩
  obtain ⟨x, fetched⟩ := p
  cases x with
  | row c row => exact hbind c row hp happly
  | get c fetch =>
    cases fetched with
    | none => cases happly
    | some answer =>
      cases answer with
      | error failure => cases happly
      | ok value =>
        cases hrow : rowOf value with
        | none =>
          simp only [applyRows, hrow] at happly
          cases happly
        | some row =>
          refine hbind c row (hp row hrow) ?_
          simp only [applyRows, hrow] at happly
          exact happly
  | full => cases happly

/-- The ops of a sequence of rows, applied by the page beside the hub. -/
theorem follows_applyRows {authority : J.Authority} {read : J.Read}
    {got : List (Resolved J.Read Fields J.Captured × Option (Except Failure Json))}
    (hgot : ∀ p ∈ got, GotApt J read p) {st : Option Fields × List Json} {work work' : Json}
    {ops : List (PatchOp Json Fields)} (hst : Follows (J.strategy read) st work)
    (happly : applyRows (E := J.engine) authority read work got = some (work', ops)) :
    ∃ st', (ops.map typedOp).foldlM patchOp st = some st' ∧ Follows (J.strategy read) st' work' := by
  induction got generalizing st work ops with
  | nil =>
    cases happly
    exact ⟨st, rfl, hst⟩
  | cons p got ih =>
    obtain ⟨c, row, mid, first, more, hapt, hfirst, hmore, rfl⟩ :=
      applyRows_cons (hgot p List.mem_cons_self) happly
    obtain ⟨st₁, hpatch₁, hst₁⟩ := follows_apply hapt hst hfirst
    obtain ⟨st₂, hpatch₂, hst₂⟩ := ih (fun p hp => hgot p (List.mem_cons_of_mem _ hp)) hst₁ hmore
    refine ⟨st₂, ?_, hst₂⟩
    rw [List.map_append, List.foldlM_append, hpatch₁]
    exact hpatch₂

theorem apply_other {S : Strategy J.Captured} (hshape : S.shape = .other) (work : Json)
    (c : J.Captured) (row : Option Fields) : apply S work c row = none := by
  cases hstatus : S.status c with
  | none => simp only [apply, hstatus, hshape]
  | some status =>
    have := (S.transcript c (by simp [hstatus])).1
    rw [hshape] at this
    cases this

/-- For every answer shown and every sequence of rows the hub takes, the page's `patched` ends with
what it shows of the hub's working value. -/
theorem patched_applyRows {authority : J.Authority} {read : J.Read}
    {got : List (Resolved J.Read Fields J.Captured × Option (Except Failure Json))}
    (hgot : ∀ p ∈ got, GotApt J read p) {server work work' : Json}
    {ops : List (PatchOp Json Fields)} (hformed : Formed (J.strategy read) work)
    (hshown : Shown (J.strategy read) server work)
    (happly : applyRows (E := J.engine) authority read work got = some (work', ops)) (hops : ops ≠ []) :
    ∃ next, patched server (ops.map typedOp) = some next ∧ Shown (J.strategy read) next work' ∧
      Formed (J.strategy read) work' := by
  have hshape : (J.strategy read).shape ≠ .other := by
    intro hother
    cases got with
    | nil =>
      cases happly
      exact hops rfl
    | cons p got =>
      obtain ⟨c, row, mid, first, more, -, hfirst, -⟩ := applyRows_cons (hgot p List.mem_cons_self) happly
      rw [apply_other hother] at hfirst
      cases hfirst
  obtain ⟨st, hpatch, hst⟩ := follows_applyRows hgot (follows_opened hformed hshown) happly
  obtain ⟨next, hclosed, hnext⟩ := follows_closed hst hshape
  refine ⟨next, ?_, hnext⟩
  rw [patched, hpatch]
  exact hclosed

/-- The deltas of a connection whose views have had no frame of the flush. -/
theorem puts_putDeltas (authority : J.Authority)
    {deltas : List (Nat × List (Resolved J.Read Fields J.Captured))} (hm : Mirrored start h)
    (hcurrent : ∀ d ∈ deltas, Current h conn d.1) (hopen : ∀ d ∈ deltas, Open start h conn d.1)
    (hnodup : (deltas.map (·.1)).Nodup)
    (hapt : ∀ d ∈ deltas, ∀ view ∈ h.heap[d.1]?, ∀ x ∈ d.2, AptResolved J view.read x)
    {answers : List (Except Failure Json)}
    (hran : Ran J (deltas.flatMap fun d => getsOf (E := J.engine) d.2) answers) (again : List Nat) :
    Puts start conn (deltas.map (·.1)) h (putDeltas h conn authority deltas answers again).1 ∧
      ∀ ref ∈ (putDeltas h conn authority deltas answers again).2,
        ref ∈ again ∨ ref ∈ deltas.map (·.1) := by
  induction deltas generalizing h answers again with
  | nil => exact ⟨Puts.refl hm _, fun ref href => .inl href⟩
  | cons d deltas ih =>
    obtain ⟨ref, rows⟩ := d
    rw [List.map_cons, List.nodup_cons] at hnodup
    obtain ⟨href, hnodup⟩ := hnodup
    have hcurrent' : ∀ d ∈ deltas, Current h conn d.1 :=
      fun d hd => hcurrent d (List.mem_cons_of_mem _ hd)
    have hopen' : ∀ d ∈ deltas, Open start h conn d.1 := fun d hd => hopen d (List.mem_cons_of_mem _ hd)
    have hapt' : ∀ d ∈ deltas, ∀ view ∈ h.heap[d.1]?, ∀ x ∈ d.2, AptResolved J view.read x :=
      fun d hd => hapt d (List.mem_cons_of_mem _ hd)
    have hran' : Ran J (getsOf (E := J.engine) rows ++
        deltas.flatMap fun d => getsOf (E := J.engine) d.2) answers := hran
    -- the delta is passed over: its view stays as it is
    have hskip : ∀ again', (∀ r ∈ again', r ∈ again ∨ r = ref) →
        Puts start conn (ref :: deltas.map (·.1)) h
          (putDeltas h conn authority deltas (gotOf (E := J.engine) rows answers).2 again').1 ∧
        ∀ r ∈ (putDeltas h conn authority deltas (gotOf (E := J.engine) rows answers).2 again').2,
          r ∈ again ∨ r ∈ ref :: deltas.map (·.1) := by
      intro again' hagain
      obtain ⟨hputs, hrefs⟩ := ih hm hcurrent' hopen' hnodup hapt' hran'.gotOf again'
      refine ⟨hputs.mono fun r hr => List.mem_cons_of_mem _ hr, ?_⟩
      intro r hr
      rcases hrefs r hr with hr | hr
      · exact (hagain r hr).imp_right fun heq : r = ref => List.mem_cons.2 (.inl heq)
      · exact .inr (List.mem_cons_of_mem _ hr)
    cases hview : h.heap[ref]? with
    | none =>
      simp only [putDeltas, hview]
      exact hskip again fun r hr => .inl hr
    | some view =>
      simp only [putDeltas, hview]
      split_ifs with hnone
      · exact hskip again fun r hr => .inl hr
      · have hheld : (h.viewOf conn view.id).isSome := Option.isSome_iff_ne_none.2 (by simpa using hnone)
        split
        · refine hskip (again ++ [ref]) fun r hr => ?_
          simpa using hr
        · next value ops happly =>
          split_ifs with hempty
          · exact hskip again fun r hr => .inl hr
          · obtain ⟨w, hw, happly⟩ := Option.bind_eq_some_iff.1 happly
            have hcur := hcurrent (ref, rows) List.mem_cons_self
            have hgot := gotApt (hapt (ref, rows) List.mem_cons_self view hview) hran'
            obtain ⟨r, hr⟩ := Option.isSome_iff_exists.1 hheld
            obtain ⟨e, he, hconn, hid, rfl⟩ := viewOf_eq_some hr
            obtain rfl : e.ref = ref := hcur view hview e he hconn hid
            obtain ⟨server, hserver, hshown⟩ := hm.shown e he view hview w hw
            rw [hconn, hid] at hserver
            obtain ⟨next, hpatched, hnext, hformed⟩ := patched_applyRows hgot
              (hm.formed e.ref view hview w hw) hshown happly (by simpa using hempty)
            have hsends : Sends start h conn view value (some ops) :=
              ⟨hopen (e.ref, rows) List.mem_cons_self view hview hr, server, next, hserver, hpatched, hnext⟩
            have hput := puts_put hm hcur hview hheld hformed hsends []
            have hne : ∀ d ∈ deltas, d.1 ∉ [e.ref] := by
              intro d hd hmem
              rw [List.mem_singleton] at hmem
              exact href (List.mem_map.2 ⟨d, hd, hmem⟩)
            obtain ⟨hputs, hrefs⟩ := ih hput.mirrored
              (fun d hd => (hcurrent' d hd).narrows hput.advances.toNarrows)
              (fun d hd => hput.others d.1 (hne d hd) (hopen' d hd)) hnodup
              (fun d hd view' hview' x hx => by
                obtain ⟨view₀, hview₀, hread⟩ := hput.advances.heapView hview'
                rw [← hread]
                exact hapt' d hd view₀ hview₀ x hx) hran'.gotOf again
            exact ⟨hput.trans hputs, fun r hr => (hrefs r hr).imp_right (List.mem_cons_of_mem _)⟩

/-- A change to what is neither a view's answer, a connection, the lane nor a frame. -/
theorem Mirrored.of_eq (hm : Mirrored start h) (hviews : h'.views = h.views)
    (hconns : h'.conns = h.conns) (hn : h'.n = h.n) (hretained : h'.retained = h.retained)
    (hlane : h'.routed = h.routed ∧ h'.v = h.v ∧ h'.queued = h.queued) (hsent : h'.sent = h.sent)
    (hids : ∀ ref : Nat, (h'.heap[ref]?).map View.account = (h.heap[ref]?).map View.account)
    (hheap : ∀ ref : Nat, (h'.heap[ref]?).map (fun view => (view.read, view.value)) =
      (h.heap[ref]?).map fun view => (view.read, view.value))
    (hjobs : ∀ job ∈ h'.jobs, job.Sound h') : Mirrored start h' := by
  have hview : ∀ (ref : Nat) view', h'.heap[ref]? = some view' →
      ∃ view, h.heap[ref]? = some view ∧ view.read = view'.read ∧ view.value = view'.value := by
    intro ref view' hview'
    have hboth := hheap ref
    rw [hview', Option.map_some] at hboth
    obtain ⟨view, hview, heq⟩ := Option.map_eq_some_iff.1 hboth.symm
    exact ⟨view, hview, congrArg Prod.fst heq, congrArg Prod.snd heq⟩
  constructor
  · refine hm.accounts.congr hviews ?_ hids hretained
    intro c hc
    rwa [Hub.connOf, hconns]
  · rw [hconns]
    exact hm.conns
  · rw [hconns, hn]
    exact hm.fresh
  · rw [hlane.1, hlane.2.1]
    exact hm.routed
  · rw [hlane.1, hlane.2.1, hlane.2.2]
    exact hm.queued
  · rw [hsent, hlane.1]
    exact hm.stamps
  · intro ref view' hview' w hw
    obtain ⟨view, hview, hread, hvalue⟩ := hview ref view' hview'
    rw [← hread]
    exact hm.formed ref view hview w (hvalue ▸ hw)
  · intro e he view' hview' w hw
    obtain ⟨view, hview, hread, hvalue⟩ := hview e.ref view' hview'
    rw [← hread, hsent]
    exact hm.shown e (hviews ▸ he) view hview w (hvalue ▸ hw)
  · rw [hsent]
    exact hm.taken
  · exact hjobs

theorem Mirrored.withJobs (hm : Mirrored start h) {jobs : List (Job J.engine)}
    (hjobs : ∀ job ∈ jobs, job.Sound h) : Mirrored start { h with jobs := jobs } :=
  hm.of_eq rfl rfl rfl rfl ⟨rfl, rfl, rfl⟩ rfl (fun _ => rfl) (fun _ => rfl)
    fun job hjob => (hjobs job hjob).congr (fun _ _ => rfl) (Nat.le_refl _)

theorem Mirrored.finish (hm : Mirrored start h) (c : Nat) (origin : Origin) :
    Mirrored start (finish h c origin) := by
  cases origin with
  | register ref =>
    cases hview : h.heap[ref]? with
    | none => simpa [Live.finish, hview] using hm
    | some view =>
      have hset : ∀ {β : Type} (f : View J.Read Json → β) (view' : View J.Read Json),
          f view' = f view → ∀ r : Nat, ((h.heap.set ref view')[r]?).map f = (h.heap[r]?).map f := by
        intro β f view' hf r
        rw [List.getElem?_set]
        split_ifs with hr hlt
        · rw [← hr, hview, Option.map_some, Option.map_some, hf]
        · exact absurd (hr ▸ (List.getElem?_eq_some_iff.1 hview).1) hlt
        · rfl
      simp only [Live.finish, hview]
      refine hm.of_eq rfl rfl rfl rfl ⟨rfl, rfl, rfl⟩ rfl (hset _ _ rfl) (hset _ _ rfl) ?_
      intro job hjob
      exact (hm.jobs job hjob).congr
        (fun r _ => hset (·.read) { view with arrivalsAfter := some h.v } rfl r) (Nat.le_refl _)
  | authorize => exact hm
  | again => exact hm.send c rfl

theorem Mirrored.answer (hm : Mirrored start h) (c : Conn J.Authority) {refs : List Nat}
    (hrefs : ∀ ref ∈ refs, ref < h.heap.length) (origin : Origin) :
    Mirrored start (answer h c refs origin) := by
  rw [Live.answer]
  split_ifs
  · exact hm.finish c.id origin
  · refine hm.withJobs ?_
    intro job hjob
    rcases List.mem_append.1 hjob with hjob | hjob
    · exact hm.jobs job hjob
    · rw [List.mem_singleton.1 hjob]
      exact ⟨trivial, rfl, hrefs⟩

theorem Advances.lt (hadv : Advances start conn h h') (hlt : ref < h.heap.length) :
    ref < h'.heap.length := by
  have hread := hadv.reads ref
  by_contra hge
  rw [List.getElem?_eq_none (Nat.le_of_not_lt hge), List.getElem?_eq_getElem hlt] at hread
  cases hread

/-- Asking sends at most the version, to the connection asked for. -/
theorem mirror_answer {c : Conn J.Authority} {refs : List Nat} {origin : Origin} {c' : Nat}
    {id : String} (hne : c' ≠ c.id) :
    mirror start (answer h c refs origin).sent c' id = mirror start h.sent c' id := by
  rw [answer]
  split_ifs
  · cases origin with
    | register ref =>
      rw [finish]
      split <;> rfl
    | authorize => rfl
    | again =>
      rw [finish, Hub.send, mirror_append, if_neg (Ne.symm hne)]
  · rfl

/-- The answers of whole views, in the order their reads were asked in. -/
theorem brings_of_ran (hlawful : J.Lawful) {refs : List Nat} {more : List J.Read}
    (hrefs : ∀ ref ∈ refs, ref < h.heap.length) {answers : List (Except Failure Json)}
    (hran : Ran J (h.readsOf refs ++ more) answers) :
    (∀ x ∈ refs.zipIdx, Brings h x.1 answers[x.2]?) ∧ Ran J more (answers.drop refs.length) := by
  have hreads : ∀ l : List Nat, (∀ ref ∈ l, ref < h.heap.length) →
      (h.readsOf l).map some = l.map fun ref => (h.heap[ref]?).map (·.read) := by
    intro l hl
    induction l with
    | nil => rfl
    | cons ref l ih =>
      have href := hl ref List.mem_cons_self
      have ih := ih fun r hr => hl r (List.mem_cons_of_mem ref hr)
      rw [Hub.readsOf] at ih ⊢
      rw [List.filterMap_cons_some (by rw [List.getElem?_eq_getElem href]; rfl), List.map_cons,
        List.map_cons, ih, List.getElem?_eq_getElem href]
      rfl
  have hlength : (h.readsOf refs).length = refs.length := by
    simpa using congrArg List.length (hreads refs hrefs)
  constructor
  · rintro ⟨ref, i⟩ hx view hview value hvalue
    have hi : refs[i]? = some ref := List.mem_zipIdx_iff_getElem?.1 hx
    have hread : (h.readsOf refs)[i]? = some view.read := by
      have := congrArg (fun l => l[i]?) (hreads refs hrefs)
      simp only [List.getElem?_map, hi, Option.map_some, Option.mem_def.1 hview] at this
      simpa using this
    have hboth : (h.readsOf refs ++ more)[i]? = some view.read := by
      rw [List.getElem?_append_left (List.getElem?_eq_some_iff.1 hread).1, hread]
    obtain ⟨db, a, hrun⟩ := hran i view.read _ hboth hvalue
    exact hlawful.formed db a view.read value hrun.symm
  · intro i read answer hread hanswer
    refine hran (refs.length + i) read answer ?_ ?_
    · rw [List.getElem?_append_right (by omega), hlength]
      simpa using hread
    · rw [List.getElem?_drop] at hanswer
      exact hanswer

theorem answer_routed {c : Conn J.Authority} {refs : List Nat} {origin : Origin} :
    (answer h c refs origin).routed = h.routed := by
  rw [answer]
  split_ifs
  · cases origin with
    | register ref =>
      rw [finish]
      split <;> rfl
    | authorize => rfl
    | again => rfl
  · rfl

/-- What a connection's turn of a flush leaves. -/
structure Turn (start : ClientView) (conn : Nat) (h h' : Hub J.engine) : Prop where
  mirrored : Mirrored start h'
  routed : h'.routed = h.routed
  others : ∀ c ≠ conn, ∀ id, mirror start h'.sent c id = mirror start h.sent c id

/-- A connection's turn of a flush, once its fallbacks were read. -/
theorem Mirrored.flushed (hlawful : J.Lawful) (hm : Mirrored start h) {full : List Nat}
    {deltas : List (Nat × List (Resolved J.Read Fields J.Captured))}
    (hfull : ∀ ref ∈ full, Current h conn ref) (hdeltas : ∀ d ∈ deltas, Current h conn d.1)
    (hopen : ∀ d ∈ deltas, Open start h conn d.1)
    (hrefs : ∀ ref ∈ full ++ deltas.map (·.1), ref < h.heap.length)
    (hnodup : (full ++ deltas.map (·.1)).Nodup)
    (hapt : ∀ d ∈ deltas, ∀ view ∈ h.heap[d.1]?, ∀ x ∈ d.2, AptResolved J view.read x)
    {answers : List (Except Failure Json)}
    (hran : Ran J (h.readsOf full ++ deltas.flatMap fun d => getsOf (E := J.engine) d.2) answers)
    (batch : List (J.Captured × Nat)) :
    Turn start conn h (flushed h conn full deltas batch answers) := by
  rw [Live.flushed]
  split
  · exact ⟨hm, rfl, fun _ _ _ => rfl⟩
  · next c hc =>
    obtain ⟨hbrings, hran'⟩ := brings_of_ran hlawful
      (fun ref href => hrefs ref (List.mem_append_left _ href)) hran
    have hhand : Puts start conn full h (handAll h conn full answers
        fun view => J.arrivals view.read view.arrivalsAfter batch) := puts_handAll hm hfull hbrings
    rw [List.nodup_append] at hnodup
    have hdisjoint : ∀ d ∈ deltas, d.1 ∉ full := fun d hd hmem =>
      hnodup.2.2 d.1 hmem d.1 (List.mem_map.2 ⟨d, hd, rfl⟩) rfl
    obtain ⟨hputs, hagain⟩ := puts_putDeltas c.authority hhand.mirrored
      (fun d hd => (hdeltas d hd).narrows hhand.advances.toNarrows)
      (fun d hd => hhand.others d.1 (hdisjoint d hd) (hopen d hd)) hnodup.2.1
      (fun d hd view hview x hx => by
        obtain ⟨view₀, hview₀, hread⟩ := hhand.advances.heapView hview
        rw [← hread]
        exact hapt d hd view₀ hview₀ x hx) hran' []
    have hadv := hhand.advances.trans hputs.advances
    have hid : c.id = conn := by simpa using List.find?_some hc
    refine ⟨?_, answer_routed.trans hadv.lane.1, ?_⟩
    · refine hputs.mirrored.answer c ?_ .again
      intro ref href
      rcases hagain ref href with hnil | hdelta
      · cases hnil
      · exact hadv.lt (hrefs ref (List.mem_append_right _ hdelta))
    · intro c' hne id
      exact (mirror_answer (hid ▸ hne)).trans (hadv.others c' hne id)

/-- The views a flush reads whole. -/
def fullOf {E : Engine} (judged : List (Nat × Judged E.Read E.Row E.Captured)) : List Nat :=
  judged.filterMap fun
    | (ref, .full) => some ref
    | _ => none

/-- The views a flush patches. -/
def deltasOf {E : Engine} (judged : List (Nat × Judged E.Read E.Row E.Captured)) :
    List (Nat × List (Resolved E.Read E.Row E.Captured)) :=
  judged.filterMap fun
    | (ref, .delta rows) => some (ref, rows)
    | _ => none

theorem mem_fullOf {judged : List (Nat × Judged J.Read Fields J.Captured)} (href : ref ∈ fullOf (E := J.engine) judged) :
    (ref, .full) ∈ judged := by
  obtain ⟨x, hx, hsome⟩ := List.mem_filterMap.1 href
  obtain ⟨r, j⟩ := x
  cases j with
  | full =>
    cases hsome
    exact hx
  | leave => cases hsome
  | delta rows => cases hsome

theorem mem_deltasOf {judged : List (Nat × Judged J.Read Fields J.Captured)}
    {d : Nat × List (Resolved J.Read Fields J.Captured)} (hd : d ∈ deltasOf (E := J.engine) judged) :
    (d.1, .delta d.2) ∈ judged := by
  obtain ⟨x, hx, hsome⟩ := List.mem_filterMap.1 hd
  obtain ⟨r, j⟩ := x
  cases j with
  | delta rows =>
    cases hsome
    exact hx
  | leave => cases hsome
  | full => cases hsome

/-- No view is both read whole and patched, nor either one twice. -/
theorem nodup_judged {judged : List (Nat × Judged J.Read Fields J.Captured)}
    (hnodup : (judged.map (·.1)).Nodup) :
    (fullOf (E := J.engine) judged ++ (deltasOf (E := J.engine) judged).map (·.1)).Nodup := by
  induction judged with
  | nil => exact List.nodup_nil
  | cons x judged ih =>
    rw [List.map_cons, List.nodup_cons] at hnodup
    have ih := ih hnodup.2
    have hnot : x.1 ∉ fullOf (E := J.engine) judged ++ (deltasOf (E := J.engine) judged).map (·.1) := by
      intro hmem
      rcases List.mem_append.1 hmem with hmem | hmem
      · exact hnodup.1 (List.mem_map.2 ⟨_, mem_fullOf hmem, rfl⟩)
      · obtain ⟨d, hd, heq⟩ := List.mem_map.1 hmem
        exact hnodup.1 (List.mem_map.2 ⟨_, mem_deltasOf hd, heq⟩)
    obtain ⟨r, j⟩ := x
    cases j with
    | leave => exact ih
    | full => exact List.nodup_cons.2 ⟨hnot, ih⟩
    | delta rows =>
      have hperm : (fullOf (E := J.engine) judged ++ r :: (deltasOf (E := J.engine) judged).map (·.1)).Perm
          (r :: (fullOf (E := J.engine) judged ++ (deltasOf (E := J.engine) judged).map (·.1))) := List.perm_middle
      exact hperm.nodup_iff.2 (List.nodup_cons.2 ⟨hnot, ih⟩)

/-- The rows of a delta were hits, each resolved. -/
theorem judge_delta {authority : J.Authority} {metadata : SyncChanges}
    {batch : List (J.Captured × Nat)} {rows : List (Resolved J.Read Fields J.Captured)}
    (hjudge : judge (E := J.engine) authority view metadata batch = .delta rows) :
    ∀ x ∈ rows, ∃ c, J.decide authority view.read view.value c = .hit ∧
      x = J.resolve authority view.read c := by
  rw [judge] at hjudge
  dsimp only at hjudge
  split_ifs at hjudge with hleave hsure hfull hfull
  · cases hjudge
    simp [Resolved.isFull] at hfull
  · cases hjudge
    intro x hx
    obtain ⟨c, hc, rfl⟩ := List.mem_map.1 hx
    obtain ⟨p, hp, rfl⟩ := List.mem_map.1 hc
    obtain ⟨hp, hhit⟩ := List.mem_filter.1 hp
    obtain ⟨q, -, rfl⟩ := List.mem_map.1 hp
    exact ⟨q.1, by simpa using hhit, rfl⟩

/-- The views of a connection, judged. -/
def judgedOf (h : Hub J.engine) (metadata : SyncChanges) (batch : List (J.Captured × Nat))
    (conn : Conn J.Authority) : List (Nat × Judged J.Read Fields J.Captured) :=
  (h.viewsOf conn.id).filterMap fun ref =>
    (h.heap[ref]?).map fun view => (ref, judge (E := J.engine) conn.authority view metadata batch)

theorem flushConn_eq (metadata : SyncChanges) (batch : List (J.Captured × Nat)) (h : Hub J.engine)
    (c : Conn J.Authority) : flushConn metadata batch h c =
      let full := fullOf (E := J.engine) (judgedOf h metadata batch c)
      let deltas := deltasOf (E := J.engine) (judgedOf h metadata batch c)
      let reads := h.readsOf full ++ deltas.flatMap fun d => getsOf (E := J.engine) d.2
      if reads.isEmpty then flushed h c.id full deltas batch []
      else { h with jobs := h.jobs ++ [⟨c.id, reads, .asked c.authority, .flush full deltas batch⟩] } :=
  rfl

theorem mem_judgedOf {metadata : SyncChanges} {batch : List (J.Captured × Nat)}
    {c : Conn J.Authority} {x : Nat × Judged J.Read Fields J.Captured}
    (hx : x ∈ judgedOf h metadata batch c) : x.1 ∈ h.viewsOf c.id ∧
      ∃ view, h.heap[x.1]? = some view ∧
        x.2 = judge (E := J.engine) c.authority view metadata batch := by
  obtain ⟨ref, href, hsome⟩ := List.mem_filterMap.1 hx
  obtain ⟨view, hview, rfl⟩ := Option.map_eq_some_iff.1 hsome
  exact ⟨href, view, hview, rfl⟩

theorem nodup_judgedOf (ha : Accounts h) (metadata : SyncChanges) (batch : List (J.Captured × Nat))
    (c : Conn J.Authority) : ((judgedOf h metadata batch c).map (·.1)).Nodup := by
  have hviews : (h.viewsOf c.id).Nodup :=
    ha.refs.sublist (List.filter_sublist.map _)
  refine hviews.sublist ?_
  have hmap : (judgedOf h metadata batch c).map (·.1) =
      (h.viewsOf c.id).filterMap fun ref => (h.heap[ref]?).map fun _ => ref := by
    rw [judgedOf, List.map_filterMap]
    refine List.filterMap_congr fun ref _ => ?_
    cases h.heap[ref]? <;> rfl
  rw [hmap]
  have hguard : ((h.viewsOf c.id).filterMap fun ref => (h.heap[ref]?).map fun _ => ref) =
      (h.viewsOf c.id).filter fun ref => (h.heap[ref]?).isSome := by
    rw [← List.filterMap_eq_filter]
    refine List.filterMap_congr fun ref _ => ?_
    cases hview : h.heap[ref]? <;> simp [Option.guard, hview]
  rw [hguard]
  exact List.filter_sublist

/-- A connection's turn of a flush: none of its views has had a frame of it. -/
theorem Mirrored.flushConn (hlawful : J.Lawful) (hm : Mirrored start h) (metadata : SyncChanges)
    (batch : List (J.Captured × Nat)) (c : Conn J.Authority)
    (hopen : ∀ id, (mirror start h.sent c.id id).v < h.routed) (hpos : 0 < h.routed) :
    Turn start c.id h (flushConn metadata batch h c) := by
  have hfull : ∀ ref ∈ fullOf (E := J.engine) (judgedOf h metadata batch c), ref ∈ h.viewsOf c.id :=
    fun ref href => (mem_judgedOf (mem_fullOf href)).1
  have hdeltas : ∀ d ∈ deltasOf (E := J.engine) (judgedOf h metadata batch c), d.1 ∈ h.viewsOf c.id :=
    fun d hd => (mem_judgedOf (mem_deltasOf hd)).1
  have hrefs : ∀ ref ∈ fullOf (E := J.engine) (judgedOf h metadata batch c) ++
      (deltasOf (E := J.engine) (judgedOf h metadata batch c)).map (·.1), ref < h.heap.length := by
    intro ref href
    rcases List.mem_append.1 href with href | href
    · exact lt_of_mem_viewsOf hm.accounts (hfull ref href)
    · obtain ⟨d, hd, rfl⟩ := List.mem_map.1 href
      exact lt_of_mem_viewsOf hm.accounts (hdeltas d hd)
  have hnodup := nodup_judged (nodup_judgedOf hm.accounts metadata batch c)
  have hapt : ∀ d ∈ deltasOf (E := J.engine) (judgedOf h metadata batch c), ∀ view ∈ h.heap[d.1]?, ∀ x ∈ d.2,
      AptResolved J view.read x := by
    intro d hd view hview x hx
    obtain ⟨-, view', hview', hjudge⟩ := mem_judgedOf (mem_deltasOf hd)
    rw [Option.mem_def.1 hview] at hview'
    cases hview'
    obtain ⟨k, hhit, rfl⟩ := judge_delta hjudge.symm x hx
    exact hlawful.apt _ _ _ k hhit
  rw [flushConn_eq]
  dsimp only
  split_ifs with hnone
  · refine hm.flushed hlawful ?_ ?_ ?_ hrefs hnodup hapt ?_ batch
    · exact fun ref href => current_of_mem_viewsOf hm.accounts (hfull ref href)
    · exact fun d hd => current_of_mem_viewsOf hm.accounts (hdeltas d hd)
    · exact fun d _ view _ _ => hopen view.id
    · rw [List.isEmpty_iff.1 hnone]
      intro i read answer hread
      simp at hread
  · refine ⟨hm.withJobs ?_, rfl, fun _ _ _ => rfl⟩
    intro job hjob
    rcases List.mem_append.1 hjob with hjob | hjob
    · exact hm.jobs job hjob
    · rw [List.mem_singleton.1 hjob]
      exact ⟨trivial, rfl, hrefs, hnodup, hapt, hpos⟩

/-- A flush stamps its frames above every one before it. -/
theorem Mirrored.flush (hlawful : J.Lawful) (hm : Mirrored start h) : Mirrored start (flush h) := by
  rw [Live.flush]
  split_ifs with htaken
  · obtain ⟨hqueued, -⟩ := Bool.and_eq_true_iff.1 htaken
    have hlt := hm.queued hqueued
    have hall : ∀ (conns : List (Conn J.Authority)) (k : Hub J.engine), (conns.map (·.id)).Nodup →
        Mirrored start k → k.routed = h.v →
        (∀ c ∈ conns, ∀ id, (mirror start k.sent c.id id).v < k.routed) →
        Mirrored start (conns.foldl (Live.flushConn h.syncChanges h.pending) k) := by
      intro conns
      induction conns with
      | nil => exact fun k _ hk _ _ => hk
      | cons c conns ih =>
        intro k hnodup hk hrouted hopen
        rw [List.map_cons, List.nodup_cons] at hnodup
        have hturn := hk.flushConn hlawful h.syncChanges h.pending c (hopen c List.mem_cons_self)
          (by omega)
        refine ih _ hnodup.2 hturn.mirrored (hturn.routed.trans hrouted) ?_
        intro c' hc' id
        have hne : c'.id ≠ c.id := fun heq => hnodup.1 (List.mem_map.2 ⟨c', hc', heq⟩)
        rw [hturn.others c'.id hne id, hturn.routed]
        exact hopen c' (List.mem_cons_of_mem c hc') id
    refine hall h.conns _ hm.conns ?_ rfl ?_
    · refine ⟨hm.accounts.of_eq rfl rfl rfl rfl, hm.conns, hm.fresh, Nat.le_refl _, ?_, ?_, hm.formed,
        hm.shown, hm.taken, ?_⟩
      · intro hfalse
        cases hfalse
      · intro conn id
        have hstamp := hm.stamps conn id
        simp only
        omega
      · intro job hjob
        exact (hm.jobs job hjob).congr (fun _ _ => rfl) hm.routed
    · intro c _ id
      have hstamp := hm.stamps c.id id
      simp only
      omega
  · exact hm

end Invariant

end Norbital.Bolt.Live

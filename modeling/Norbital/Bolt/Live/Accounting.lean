import Mathlib.Algebra.BigOperators.Ring.Finset
import Mathlib.Data.List.Nodup
import Norbital.Bolt.Live.Hub

/-!
# The bytes a hub retains

`put` counts an answer's bytes for the view it was asked for, `drop` and
`disconnect` take off the bytes of the views the connections hold.  The counter
is the sum of the held views' bytes as long as a read that continues finds its
view's id gone or still standing for that view.
-/

namespace Norbital.Bolt.Live

variable {E : Engine}

/-- The bytes of the views that the connections hold. -/
def Hub.heldBytes (h : Hub E) : Nat :=
  ((h.views.filter fun e => (h.connOf e.conn).isSome).map fun e => h.bytesAt e.ref).sum

/-- The counter is the bytes held; so it is never negative, and zero when no view is registered. -/
def Hub.Balanced (h : Hub E) : Prop :=
  h.retained = h.heldBytes ∧ 0 ≤ h.retained ∧ (h.views = [] → h.retained = 0)

/-- What the accounts see of a view. -/
def View.account {Read Json : Type} (view : View Read Json) : String × Nat := (view.id, view.bytes)

/-- The counter is the sum of the bytes held. -/
structure Accounts (h : Hub E) : Prop where
  keys : (h.views.map fun e => (e.conn, e.id)).Nodup
  refs : (h.views.map (·.ref)).Nodup
  ids : ∀ e ∈ h.views, (h.heap[e.ref]?).map (·.id) = some e.id
  conns : ∀ e ∈ h.views, (h.connOf e.conn).isSome
  retained : h.retained = (h.views.map fun e => (h.bytesAt e.ref : Int)).sum

/-- Of elements a key tells apart, one has the key of a given one. -/
theorem filter_key_eq {α κ : Type} {key : α → κ} {l : List α} {x : α} {p : α → Bool}
    (hp : ∀ y, p y = true ↔ key y = key x) (hl : (l.map key).Nodup) (hx : x ∈ l) :
    l.filter p = [x] := by
  induction l with
  | nil => cases hx
  | cons a l ih =>
    rw [List.map_cons, List.nodup_cons] at hl
    obtain ⟨ha, hl⟩ := hl
    by_cases hax : p a = true
    · have hkey := (hp a).mp hax
      have hnone : l.filter p = [] := by
        rw [List.filter_eq_nil_iff]
        intro y hy hyx
        exact ha (List.mem_map.mpr ⟨y, hy, ((hp y).mp hyx).trans hkey.symm⟩)
      have : a = x := by
        by_contra hne
        have hx' : x ∈ l := (List.mem_cons.mp hx).resolve_left (Ne.symm hne)
        exact ha (List.mem_map.mpr ⟨x, hx', hkey.symm⟩)
      rw [List.filter_cons_of_pos hax, hnone, this]
    · have hx' : x ∈ l := by
        refine (List.mem_cons.mp hx).resolve_left ?_
        rintro rfl
        exact hax ((hp x).mpr rfl)
      rw [List.filter_cons_of_neg hax, ih hl hx']

theorem sum_filter_add (p : Entry → Bool) (f : Entry → Int) (l : List Entry) :
    ((l.filter p).map f).sum + ((l.filter (fun e => !p e)).map f).sum = (l.map f).sum := by
  rw [← List.sum_append, ← List.map_append]
  exact ((List.filter_append_perm p l).map f).sum_eq

theorem viewOf_eq_some {h : Hub E} {conn ref : Nat} {id : String}
    (hv : h.viewOf conn id = some ref) : ∃ e ∈ h.views, e.conn = conn ∧ e.id = id ∧ e.ref = ref := by
  obtain ⟨e, he, rfl⟩ := Option.map_eq_some_iff.mp hv
  have hkey := List.find?_some he
  simp only [Bool.and_eq_true, beq_iff_eq] at hkey
  exact ⟨e, List.mem_of_find?_eq_some he, hkey.1, hkey.2, rfl⟩

/-- The accounts are about the held views, their ids and bytes, and the counter. -/
theorem Accounts.congr {h h' : Hub E} (ha : Accounts h) (hviews : h'.views = h.views)
    (hconns : ∀ c, (h.connOf c).isSome → (h'.connOf c).isSome)
    (hheap : ∀ ref : Nat, (h'.heap[ref]?).map View.account = (h.heap[ref]?).map View.account)
    (hretained : h'.retained = h.retained) : Accounts h' := by
  have hid : ∀ ref : Nat, (h'.heap[ref]?).map (·.id) = (h.heap[ref]?).map (·.id) := by
    intro ref
    simpa [Function.comp_def, View.account] using congrArg (Option.map Prod.fst) (hheap ref)
  have hbytes : ∀ ref, h'.bytesAt ref = h.bytesAt ref := by
    intro ref
    have := congrArg (Option.map Prod.snd) (hheap ref)
    simp only [Option.map_map, Function.comp_def, View.account] at this
    rw [Hub.bytesAt, Hub.bytesAt, this]
  constructor
  · rw [hviews]
    exact ha.keys
  · rw [hviews]
    exact ha.refs
  · intro e he
    rw [hid]
    exact ha.ids e (hviews ▸ he)
  · intro e he
    exact hconns _ (ha.conns e (hviews ▸ he))
  · simp only [hretained, hviews, hbytes]
    exact ha.retained

/-- Frames, jobs, the lane and the database are no part of the accounts. -/
theorem Accounts.of_eq {h h' : Hub E} (ha : Accounts h) (hviews : h'.views = h.views)
    (hconns : h'.conns = h.conns) (hheap : h'.heap = h.heap) (hretained : h'.retained = h.retained) :
    Accounts h' := by
  refine ha.congr hviews ?_ ?_ hretained
  · intro c hc
    rwa [Hub.connOf, hconns]
  · intro ref
    rw [hheap]

/-- Taking off the bytes of the views that leave. -/
theorem Accounts.leave {h h' : Hub E} (ha : Accounts h) (p : Entry → Bool)
    (hviews : h'.views = h.views.filter fun e => !p e) (hheap : h'.heap = h.heap)
    (hconns : ∀ c, (h.connOf c).isSome → (∃ e ∈ h'.views, e.conn = c) → (h'.connOf c).isSome)
    (hretained : h'.retained =
      h.retained - ((h.views.filter p).map fun e => (h.bytesAt e.ref : Int)).sum) : Accounts h' := by
  have hsub : h'.views.Sublist h.views := hviews ▸ List.filter_sublist
  have hbytes : h'.bytesAt = h.bytesAt := by
    funext ref
    rw [Hub.bytesAt, Hub.bytesAt, hheap]
  constructor
  · exact ha.keys.sublist (hsub.map _)
  · exact ha.refs.sublist (hsub.map _)
  · intro e he
    rw [hheap]
    exact ha.ids e (hsub.subset he)
  · intro e he
    exact hconns _ (ha.conns e (hsub.subset he)) ⟨e, he, rfl⟩
  · rw [hretained, ha.retained, hbytes, hviews]
    have := sum_filter_add p (fun e => (h.bytesAt e.ref : Int)) h.views
    omega

@[simp]
theorem Hub.drop_conns (h : Hub E) (conn : Nat) (id : String) : (h.drop conn id).conns = h.conns := by
  rw [Hub.drop]
  split <;> rfl

/-- After `drop` the id is free. -/
theorem Hub.drop_free (h : Hub E) (conn : Nat) (id : String) :
    ∀ e ∈ (h.drop conn id).views, ¬ (e.conn = conn ∧ e.id = id) := by
  rintro e he ⟨rfl, rfl⟩
  cases hv : h.viewOf e.conn e.id with
  | none =>
    simp only [Hub.drop, hv] at he
    have := List.find?_eq_none.mp (Option.map_eq_none_iff.mp hv) e he
    simp at this
  | some ref => simp [Hub.drop, hv] at he

theorem Accounts.drop {h : Hub E} (ha : Accounts h) (conn : Nat) (id : String) :
    Accounts (h.drop conn id) := by
  cases hv : h.viewOf conn id with
  | none => simpa [Hub.drop, hv] using ha
  | some ref =>
    obtain ⟨e, he, rfl, rfl, rfl⟩ := viewOf_eq_some hv
    have hone : h.views.filter (fun x => x.conn == e.conn && x.id == e.id) = [e] :=
      filter_key_eq (by simp) ha.keys he
    refine ha.leave (fun x => x.conn == e.conn && x.id == e.id) ?_ ?_ ?_ ?_
    · simp [Hub.drop, hv]
    · simp [Hub.drop, hv]
    · intro c hc _
      simpa [Hub.drop, hv, Hub.connOf] using hc
    · simp [Hub.drop, hv, hone]

theorem Accounts.disconnect {h : Hub E} (ha : Accounts h) (conn : Nat) :
    Accounts (h.disconnect conn) := by
  cases hc : h.connOf conn with
  | none => simpa [Hub.disconnect, hc] using ha
  | some c =>
    refine ha.leave (fun e => e.conn == conn) ?_ ?_ ?_ ?_
    · simp [Hub.disconnect, hc]
    · simp [Hub.disconnect, hc]
    · rintro d hd ⟨e, he, rfl⟩
      have hne : e.conn ≠ conn := by
        simp only [Hub.disconnect, hc, List.mem_filter] at he
        simpa using he.2
      rw [Hub.connOf, List.find?_isSome] at hd
      obtain ⟨k, hk, hke⟩ := hd
      have hid : k.id = e.conn := by simpa using hke
      have hconns : (h.disconnect conn).conns = h.conns.filter fun c => !(c.id == conn) := by
        simp [Hub.disconnect, hc]
      rw [Hub.connOf, List.find?_isSome, hconns]
      exact ⟨k, List.mem_filter.mpr ⟨hk, by simp [hid, hne]⟩, hke⟩
    · simp [Hub.disconnect, hc, Hub.viewsOf, Function.comp_def]

/-- The id of a view a continuation holds is gone, or still stands for that view. -/
def Current (h : Hub E) (conn ref : Nat) : Prop :=
  ∀ view ∈ h.heap[ref]?, ∀ e ∈ h.views, e.conn = conn → e.id = view.id → e.ref = ref

instance (h : Hub E) (conn ref : Nat) : Decidable (Current h conn ref) :=
  inferInstanceAs (Decidable (∀ view ∈ h.heap[ref]?, ∀ e ∈ h.views, _))

/-- No id was registered and no view renamed. -/
structure Narrows (h h' : Hub E) : Prop where
  views : ∀ e ∈ h'.views, e ∈ h.views
  ids : ∀ (ref : Nat) view', h'.heap[ref]? = some view' →
    ∃ view, h.heap[ref]? = some view ∧ view.id = view'.id

theorem Narrows.refl (h : Hub E) : Narrows h h := ⟨fun _ he => he, fun _ v hv => ⟨v, hv, rfl⟩⟩

theorem Narrows.trans {h h' h'' : Hub E} (hn : Narrows h h') (hn' : Narrows h' h'') :
    Narrows h h'' := by
  constructor
  · exact fun e he => hn.views e (hn'.views e he)
  · intro ref view hview
    obtain ⟨v', hv', hid'⟩ := hn'.ids ref view hview
    obtain ⟨v, hv, hid⟩ := hn.ids ref v' hv'
    exact ⟨v, hv, hid.trans hid'⟩

theorem Current.narrows {h h' : Hub E} {conn ref : Nat} (hc : Current h conn ref)
    (hn : Narrows h h') : Current h' conn ref := by
  intro view hview e he hconn hid
  obtain ⟨v, hv, hvid⟩ := hn.ids ref view hview
  exact hc v hv e (hn.views e he) hconn (hid.trans hvid.symm)

/-- A step that keeps the accounts and registers nothing. -/
structure Keeps (h h' : Hub E) : Prop extends Narrows h h' where
  accounts : Accounts h → Accounts h'

theorem Keeps.refl (h : Hub E) : Keeps h h := ⟨Narrows.refl h, id⟩

theorem Keeps.trans {h h' h'' : Hub E} (hk : Keeps h h') (hk' : Keeps h' h'') : Keeps h h'' :=
  ⟨hk.toNarrows.trans hk'.toNarrows, fun ha => hk'.accounts (hk.accounts ha)⟩

theorem keeps_drop (h : Hub E) (conn : Nat) (id : String) : Keeps h (h.drop conn id) := by
  refine ⟨⟨?_, ?_⟩, fun ha => ha.drop conn id⟩
  · intro e he
    cases hv : h.viewOf conn id with
    | none => simpa [Hub.drop, hv] using he
    | some ref =>
      simp only [Hub.drop, hv] at he
      exact List.mem_of_mem_filter he
  · intro ref view hview
    refine ⟨view, ?_, rfl⟩
    rw [Hub.drop] at hview
    split at hview <;> exact hview

theorem keeps_of_eq {h h' : Hub E} (hviews : h'.views = h.views) (hconns : h'.conns = h.conns)
    (hheap : h'.heap = h.heap) (hretained : h'.retained = h.retained) : Keeps h h' := by
  refine ⟨⟨?_, ?_⟩, fun ha => ha.of_eq hviews hconns hheap hretained⟩
  · intro e he
    rwa [hviews] at he
  · intro ref view hview
    exact ⟨view, hheap ▸ hview, rfl⟩

/-- Setting a view's value or arrivals keeps its id and bytes. -/
theorem keeps_setView {h : Hub E} {ref : Nat} {view view' : View E.Read E.Json}
    (hview : h.heap[ref]? = some view) (hid : view'.id = view.id) (hbytes : view'.bytes = view.bytes) :
    Keeps h (h.setView ref view') := by
  have hlt : ref < h.heap.length := (List.getElem?_eq_some_iff.mp hview).1
  refine ⟨⟨fun e he => he, ?_⟩, ?_⟩
  · intro r v hv
    simp only [Hub.setView, List.getElem?_set] at hv
    split_ifs at hv with hr
    · subst hr
      cases hv
      exact ⟨view, hview, hid.symm⟩
    · exact ⟨v, hv, rfl⟩
  · intro ha
    refine ha.congr rfl (fun _ hc => hc) ?_ rfl
    intro r
    simp only [Hub.setView, List.getElem?_set]
    split_ifs with hr
    · rw [← hr, hview]
      simp [hid, hbytes, View.account]
    · rfl

/-- Another count of a held view's bytes, with the counter moved by the difference. -/
theorem Accounts.recount {h h' : Hub E} {e : Entry} {view : View E.Read E.Json}
    (ha : Accounts h) (view' : View E.Read E.Json) (he : e ∈ h.views) (hview : h.heap[e.ref]? = some view)
    (hid : view'.id = view.id) (hviews : h'.views = h.views) (hconns : h'.conns = h.conns)
    (hheap : h'.heap = h.heap.set e.ref view')
    (hretained : h'.retained = h.retained + ((view'.bytes : Int) - view.bytes)) : Accounts h' := by
  have hlt : e.ref < h.heap.length := (List.getElem?_eq_some_iff.mp hview).1
  have hone : h.views.filter (fun x => x.ref == e.ref) = [e] := filter_key_eq (by simp) ha.refs he
  have hat : h'.bytesAt e.ref = view'.bytes := by simp [Hub.bytesAt, hheap, hlt]
  have hat' : h.bytesAt e.ref = view.bytes := by simp [Hub.bytesAt, hview]
  have hrest : ((h.views.filter fun x => !(x.ref == e.ref)).map fun x => (h'.bytesAt x.ref : Int)) =
      (h.views.filter fun x => !(x.ref == e.ref)).map fun x => (h.bytesAt x.ref : Int) := by
    apply List.map_congr_left
    intro x hx
    have hne : x.ref ≠ e.ref := by simpa using (List.mem_filter.mp hx).2
    simp [Hub.bytesAt, hheap, hne.symm]
  have hsum := sum_filter_add (·.ref == e.ref) (fun x => (h.bytesAt x.ref : Int)) h.views
  have hsum' := sum_filter_add (·.ref == e.ref) (fun x => (h'.bytesAt x.ref : Int)) h.views
  rw [hone] at hsum hsum'
  simp only [hrest, List.map_cons, List.map_nil, List.sum_singleton, hat, hat'] at hsum hsum'
  constructor
  · rw [hviews]
    exact ha.keys
  · rw [hviews]
    exact ha.refs
  · intro x hx
    have hxid := ha.ids x (hviews ▸ hx)
    rw [hheap, List.getElem?_set]
    split_ifs with hr
    · rw [← hr, hview] at hxid
      simpa [hid] using hxid
    · exact hxid
  · intro x hx
    rw [Hub.connOf, hconns]
    exact ha.conns x (hviews ▸ hx)
  · rw [hretained, ha.retained, hviews]
    omega

/-- `put` on the view its id stands for moves the counter by the change of its bytes. -/
theorem keeps_put {h : Hub E} {conn ref : Nat} {view : View E.Read E.Json} (value : E.Json)
    (ops : Option (List (PatchOp E.Json E.Row))) (arrivals : List E.Row)
    (hcurrent : Current h conn ref) (hview : h.heap[ref]? = some view)
    (hheld : (h.viewOf conn view.id).isSome) : Keeps h (put h conn ref value ops arrivals) := by
  obtain ⟨r, hr⟩ := Option.isSome_iff_exists.mp hheld
  obtain ⟨e, he, hconn, hid, rfl⟩ := viewOf_eq_some hr
  obtain rfl : e.ref = ref := hcurrent view hview e he hconn hid
  simp only [put, hview]
  split_ifs with hsame
  · exact Keeps.refl h
  · split
    · exact (keeps_drop h conn view.id).trans (keeps_of_eq rfl rfl rfl rfl)
    · refine ⟨⟨fun e he => he, ?_⟩, fun ha => ha.recount
        { view with bytes := E.bytesOf value, value := some value } he hview rfl rfl rfl rfl rfl⟩
      intro r v hv
      simp only [Hub.send, Hub.setView, List.getElem?_set] at hv
      split_ifs at hv with hr
      · cases hv
        exact ⟨view, hr ▸ hview, rfl⟩
      · exact ⟨v, hv, rfl⟩

theorem keeps_hand {h : Hub E} {conn ref : Nat} {answer : Option (Except Failure E.Json)}
    {arrivals : View E.Read E.Json → List E.Row} (hcurrent : Current h conn ref) :
    Keeps h (hand h conn ref answer arrivals) := by
  cases hview : h.heap[ref]? with
  | none => simp [hand, hview, Keeps.refl]
  | some view =>
    cases answer with
    | none => simp [hand, hview, Keeps.refl]
    | some result =>
      simp only [hand, hview]
      split_ifs with hheld
      · cases result with
        | ok value => exact keeps_put value none _ hcurrent hview hheld
        | error failure => exact keeps_of_eq rfl rfl rfl rfl
      · exact Keeps.refl h

theorem keeps_handAll {h : Hub E} {conn : Nat} {refs : List Nat}
    {answers : List (Except Failure E.Json)} {arrivals : View E.Read E.Json → List E.Row}
    (hcurrent : ∀ ref ∈ refs, Current h conn ref) :
    Keeps h (handAll h conn refs answers arrivals) := by
  have hall : ∀ (pairs : List (Nat × Nat)) (k : Hub E), (∀ x ∈ pairs, Current k conn x.1) →
      Keeps k (pairs.foldl (fun h x => hand h conn x.1 answers[x.2]? arrivals) k) := by
    intro pairs
    induction pairs with
    | nil => exact fun k _ => Keeps.refl k
    | cons x pairs ih =>
      intro k hk
      have hx : Keeps k (hand k conn x.1 answers[x.2]? arrivals) := keeps_hand (hk x List.mem_cons_self)
      refine hx.trans (ih _ fun y hy => ?_)
      exact (hk y (List.mem_cons_of_mem x hy)).narrows hx.toNarrows
  exact hall refs.zipIdx h fun x hx => hcurrent x.1 (List.fst_mem_of_mem_zipIdx hx)

theorem keeps_finish (h : Hub E) (conn : Nat) (origin : Origin) : Keeps h (finish h conn origin) := by
  cases origin with
  | register ref =>
    cases hview : h.heap[ref]? with
    | none => simp [finish, hview, Keeps.refl]
    | some view =>
      simp only [finish, hview]
      exact keeps_setView hview rfl rfl
  | authorize => exact Keeps.refl h
  | again => exact keeps_of_eq rfl rfl rfl rfl

theorem keeps_answer (h : Hub E) (conn : Conn E.Authority) (refs : List Nat) (origin : Origin) :
    Keeps h (answer h conn refs origin) := by
  rw [answer]
  split_ifs
  · exact keeps_finish h conn.id origin
  · exact keeps_of_eq rfl rfl rfl rfl

theorem keeps_putDeltas {conn : Nat} {authority : E.Authority}
    {deltas : List (Nat × List (Resolved E.Read E.Row E.Captured))} {h : Hub E}
    {answers : List (Except Failure E.Json)} {again : List Nat}
    (hcurrent : ∀ d ∈ deltas, Current h conn d.1) :
    Keeps h (putDeltas h conn authority deltas answers again).1 := by
  induction deltas generalizing h answers again with
  | nil => exact Keeps.refl h
  | cons d deltas ih =>
    obtain ⟨ref, rows⟩ := d
    have hrest : ∀ d ∈ deltas, Current h conn d.1 :=
      fun d hd => hcurrent d (List.mem_cons_of_mem _ hd)
    cases hview : h.heap[ref]? with
    | none =>
      simp only [putDeltas, hview]
      exact ih hrest
    | some view =>
      simp only [putDeltas, hview]
      split_ifs with hheld
      · exact ih hrest
      · split
        · exact ih hrest
        · next value ops _ =>
          split_ifs
          · exact ih hrest
          · have hput := keeps_put value (some ops) [] (hcurrent (ref, rows) List.mem_cons_self) hview
              (Option.isSome_iff_ne_none.mpr (by simpa using hheld))
            exact hput.trans (ih fun d hd => (hrest d hd).narrows hput.toNarrows)

theorem keeps_flushed {h : Hub E} {conn : Nat} {full : List Nat}
    {deltas : List (Nat × List (Resolved E.Read E.Row E.Captured))}
    {batch : List (E.Captured × Nat)} {answers : List (Except Failure E.Json)}
    (hfull : ∀ ref ∈ full, Current h conn ref) (hdeltas : ∀ d ∈ deltas, Current h conn d.1) :
    Keeps h (flushed h conn full deltas batch answers) := by
  rw [flushed]
  split
  · exact Keeps.refl h
  · have hhand : Keeps h (handAll h conn full answers
        fun view => E.arrivals view.read view.arrivalsAfter batch) := keeps_handAll hfull
    refine hhand.trans (Keeps.trans (keeps_putDeltas ?_) (keeps_answer _ _ _ _))
    exact fun d hd => (hdeltas d hd).narrows hhand.toNarrows

/-- The views a job's continuation puts on. -/
def Job.refs (job : Job E) : List Nat :=
  match job.purpose with
  | .answer refs _ => refs
  | .flush full deltas _ => full ++ deltas.map (·.1)

theorem keeps_resume {h : Hub E} {job : Job E} {answers : List (Except Failure E.Json)}
    (hcurrent : ∀ ref ∈ job.refs, Current h job.conn ref) : Keeps h (job.resume h answers) := by
  cases hp : job.purpose with
  | answer refs origin =>
    simp only [Job.refs, hp] at hcurrent
    simp only [Job.resume, hp]
    exact (keeps_handAll hcurrent).trans (keeps_finish _ _ _)
  | flush full deltas batch =>
    simp only [Job.refs, hp] at hcurrent
    simp only [Job.resume, hp]
    apply keeps_flushed
    · exact fun ref href => hcurrent ref (List.mem_append_left _ href)
    · exact fun d hd => hcurrent d.1 (List.mem_append_right _ (List.mem_map_of_mem hd))

/-- A view a connection holds is the one its id stands for. -/
theorem current_of_mem_viewsOf {h : Hub E} {conn ref : Nat} (ha : Accounts h)
    (href : ref ∈ h.viewsOf conn) : Current h conn ref := by
  intro view hview e he hconn hid
  obtain ⟨x, hx, rfl⟩ := List.mem_map.mp href
  obtain ⟨hx, hxconn⟩ := List.mem_filter.mp hx
  have hxid := ha.ids x hx
  rw [hview] at hxid
  have hkey : (e.conn, e.id) = (x.conn, x.id) := by
    simp only [Option.map_some, Option.some.injEq] at hxid
    rw [hconn, hid, hxid, (beq_iff_eq.mp hxconn)]
  exact congrArg Entry.ref (List.inj_on_of_nodup_map ha.keys he hx hkey)

theorem accounts_flushConn {h : Hub E} (ha : Accounts h) (metadata : SyncChanges)
    (batch : List (E.Captured × Nat)) (conn : Conn E.Authority) :
    Accounts (flushConn metadata batch h conn) := by
  rw [flushConn]
  split_ifs
  · refine (keeps_flushed ?_ ?_).accounts ha
    · intro ref href
      obtain ⟨x, hx, hxref⟩ := List.mem_filterMap.mp href
      obtain ⟨r, hr, hrx⟩ := List.mem_filterMap.mp hx
      obtain ⟨view, -, rfl⟩ := Option.map_eq_some_iff.mp hrx
      have : r = ref := by
        split at hxref <;> simp_all
      exact this ▸ current_of_mem_viewsOf ha hr
    · intro d hd
      obtain ⟨x, hx, hxref⟩ := List.mem_filterMap.mp hd
      obtain ⟨r, hr, hrx⟩ := List.mem_filterMap.mp hx
      obtain ⟨view, -, rfl⟩ := Option.map_eq_some_iff.mp hrx
      have : r = d.1 := by
        split at hxref
        · cases hxref
          simp_all
        · cases hxref
      exact this ▸ current_of_mem_viewsOf ha hr
  · exact ha.of_eq rfl rfl rfl rfl

/-- A view not read yet, registered under an id that is free, holds no bytes. -/
theorem Accounts.hold {h : Hub E} (ha : Accounts h) {conn : Nat} {id : String} (read : E.Read)
    (hfree : ∀ e ∈ h.views, ¬ (e.conn = conn ∧ e.id = id)) (hconn : (h.connOf conn).isSome) :
    Accounts { h with
      heap := h.heap ++ [⟨id, read, 0, none, none⟩]
      views := h.views ++ [⟨conn, id, h.heap.length⟩] } := by
  have hlt : ∀ e ∈ h.views, e.ref < h.heap.length := by
    intro e he
    have hid := ha.ids e he
    cases hview : h.heap[e.ref]? with
    | none => simp [hview] at hid
    | some view => exact (List.getElem?_eq_some_iff.mp hview).1
  constructor
  · rw [List.map_append, List.nodup_append]
    refine ⟨ha.keys, by simp, ?_⟩
    rintro key hkey _ hnew rfl
    obtain ⟨e, he, hek⟩ := List.mem_map.mp hkey
    simp only [List.map_cons, List.map_nil, List.mem_singleton] at hnew
    rw [hnew, Prod.mk.injEq] at hek
    exact hfree e he hek
  · rw [List.map_append, List.nodup_append]
    refine ⟨ha.refs, by simp, ?_⟩
    rintro ref href _ hnew rfl
    obtain ⟨e, he, rfl⟩ := List.mem_map.mp href
    simp only [List.map_cons, List.map_nil, List.mem_singleton] at hnew
    exact absurd hnew (Nat.ne_of_lt (hlt e he))
  · intro e he
    rcases List.mem_append.mp he with he | he
    · rw [List.getElem?_append_left (hlt e he)]
      exact ha.ids e he
    · rw [List.mem_singleton.mp he]
      simp
  · intro e he
    rcases List.mem_append.mp he with he | he
    · exact ha.conns e he
    · rw [List.mem_singleton.mp he]
      exact hconn
  · rw [List.map_append, List.sum_append, ha.retained]
    have hold : (h.views.map fun e => (h.bytesAt e.ref : Int)) = h.views.map fun e =>
        ((Hub.bytesAt { h with
          heap := h.heap ++ [⟨id, read, 0, none, none⟩]
          views := h.views ++ [⟨conn, id, h.heap.length⟩] } e.ref : Nat) : Int) := by
      apply List.map_congr_left
      intro e he
      simp [Hub.bytesAt, List.getElem?_append_left (hlt e he)]
    rw [hold]
    simp [Hub.bytesAt]

theorem accounts_register {h h' : Hub E} (ha : Accounts h) {conn : Nat} {id : String}
    {read : E.Read} (hr : register h conn id read = .ok h') : Accounts h' := by
  cases hc : h.connOf conn with
  | none => simp [register, hc] at hr
  | some c =>
    simp only [register, hc] at hr
    cases hcheck : E.check read with
    | error failure => simp [hcheck, bind, Except.bind] at hr
    | ok _ =>
      simp only [hcheck, bind, Except.bind] at hr
      split_ifs at hr with hmany
      cases hr
      refine (keeps_answer _ _ _ _).accounts ((ha.drop conn id).hold read (h.drop_free conn id) ?_)
      simp only [Hub.connOf, Hub.drop_conns]
      exact Option.isSome_iff_exists.mpr ⟨c, hc⟩

/-- The accounts do not see a connection's authority or a view's value. -/
theorem Accounts.reauthorize {h : Hub E} (ha : Accounts h) (conn : Nat) (authority : E.Authority)
    (refs : List Nat) : Accounts { h with
      conns := h.conns.map fun c => if c.id == conn then { c with authority := authority } else c
      heap := h.heap.mapIdx fun ref view =>
        if ref ∈ refs then { view with value := none } else view } := by
  refine ha.congr rfl ?_ ?_ rfl
  · intro d hd
    rw [Hub.connOf, List.find?_isSome] at hd ⊢
    obtain ⟨k, hk, hkd⟩ := hd
    refine ⟨_, List.mem_map_of_mem hk, ?_⟩
    split_ifs <;> exact hkd
  · intro ref
    rw [List.getElem?_mapIdx]
    cases h.heap[ref]? with
    | none => rfl
    | some view =>
      simp only [Option.map_some, View.account]
      split_ifs <;> rfl

theorem accounts_authorize {h : Hub E} (ha : Accounts h) (conn : Nat) (authority : E.Authority) :
    Accounts (authorize h conn authority) := by
  cases hc : h.connOf conn with
  | none => simpa [authorize, hc] using ha
  | some c =>
    simp only [authorize, hc]
    exact (keeps_answer _ _ _ _).accounts (ha.reauthorize conn authority (h.viewsOf conn))

/-- The condition of a step: a read that continues finds the ids of its views gone, or still
standing for them. -/
def Step.Current (h : Hub E) : Step E → Prop
  | .resume j => ∀ job ∈ h.jobs[j]?, ∀ ref ∈ job.refs, Live.Current h job.conn ref
  | _ => True

instance (h : Hub E) : (s : Step E) → Decidable (s.Current h)
  | .resume j => inferInstanceAs (Decidable (∀ job ∈ h.jobs[j]?, ∀ ref ∈ job.refs, _))
  | .connect .. | .register .. | .drop .. | .disconnect .. | .close .. | .authorize .. | .publish ..
  | .syncChanged .. | .flush | .read .. | .readOne .. => isTrue trivial

theorem accounts_step {h : Hub E} (ha : Accounts h) (s : Step E) (hs : s.Current h) :
    Accounts (step h s) := by
  cases s with
  | connect authority =>
    refine ha.congr rfl ?_ (fun _ => rfl) rfl
    intro c hc
    rw [Hub.connOf, List.find?_isSome] at hc
    obtain ⟨k, hk, hkc⟩ := hc
    simp only [step, connect, Hub.send, Hub.connOf, List.find?_isSome]
    exact ⟨k, List.mem_append_left _ hk, hkc⟩
  | register conn id read =>
    cases hr : register h conn id read with
    | error failure => simpa [step, hr] using ha
    | ok h' => simpa [step, hr] using accounts_register ha hr
  | drop conn id =>
    rw [step]
    split_ifs
    · exact ha.drop conn id
    · exact ha
  | disconnect conn => exact ha.disconnect conn
  | close release =>
    refine List.foldlRecOn h.conns _ ha ?_
    intro k hk c _
    have hsend : Accounts (k.send c.id (.close release)) := hk.of_eq rfl rfl rfl rfl
    exact hsend.disconnect c.id
  | authorize conn authority => exact accounts_authorize ha conn authority
  | publish db captured =>
    rw [step, publish]
    split_ifs <;> exact ha.of_eq rfl rfl rfl rfl
  | syncChanged db model records =>
    rw [step, syncChanged]
    split_ifs <;> exact ha.of_eq rfl rfl rfl rfl
  | flush =>
    rw [step, flush]
    split_ifs
    · refine List.foldlRecOn h.conns _ (ha.of_eq rfl rfl rfl rfl) ?_
      exact fun k hk c _ => accounts_flushConn hk _ _ c
    · exact ha
  | read j => exact ha.of_eq rfl rfl rfl rfl
  | readOne j i => exact ha.of_eq rfl rfl rfl rfl
  | resume j =>
    cases hj : h.jobs[j]? with
    | none => simpa [step, hj] using ha
    | some job =>
      simp only [step, hj]
      split
      · refine (keeps_resume ?_).accounts (ha.of_eq rfl rfl rfl rfl)
        exact fun ref href => hs job hj ref href
      · exact ha

/-- The run's steps all meet the condition, each in the state it starts from. -/
def Currents (h : Hub E) : List (Step E) → Prop
  | [] => True
  | s :: steps => s.Current h ∧ Currents (step h s) steps

instance decidableCurrents : (h : Hub E) → (steps : List (Step E)) → Decidable (Currents h steps)
  | _, [] => isTrue trivial
  | h, s :: steps => @instDecidableAnd _ _ _ (decidableCurrents (step h s) steps)

theorem accounts_run {h : Hub E} (ha : Accounts h) {steps : List (Step E)} (hs : Currents h steps) :
    Accounts (run h steps) := by
  induction steps generalizing h with
  | nil => exact ha
  | cons s steps ih => exact ih (accounts_step ha s hs.1) hs.2

theorem accounts_init (db : E.Db) : Accounts (Hub.init db : Hub E) := by
  constructor <;> simp [Hub.init]

theorem Accounts.retained_eq {h : Hub E} (ha : Accounts h) : h.retained = h.heldBytes := by
  have hall : h.views.filter (fun e => (h.connOf e.conn).isSome) = h.views :=
    List.filter_eq_self.mpr ha.conns
  rw [Hub.heldBytes, hall, ha.retained, Nat.cast_list_sum, List.map_map]
  rfl

/-- In every run whose continuing reads find their views' ids gone or still standing for them, the
counter is the bytes held. -/
theorem run_balanced (db : E.Db) (steps : List (Step E))
    (hs : Currents (Hub.init db) steps) : (run (Hub.init db : Hub E) steps).Balanced := by
  have hsum := (accounts_run (accounts_init db) hs).retained_eq
  refine ⟨hsum, ?_, ?_⟩
  · rw [hsum]
    exact Int.natCast_nonneg _
  · intro hnil
    rw [hsum, Hub.heldBytes, hnil]
    rfl

/-- A reader whose answers are texts, one per read, re-read on every commit. -/
def textEngine : Engine where
  Db := Unit
  Authority := Unit
  Read := String
  Json := String
  Row := String
  Captured := Unit
  run _ _ read := .ok read
  check _ := .ok ()
  bytesOf text := text.utf8ByteSize
  same := (· == ·)
  isInbox _ := false
  metadataHits _ _ _ := false
  arrivals _ _ _ := []
  decide _ _ _ _ := .unknown
  resolve _ _ _ := .full
  rowOf _ := none
  apply _ _ _ _ _ := none

/-- A view registered twice and dropped, with each read continued in the order it was asked. -/
def registeredTwice : List (Step textEngine) :=
  [.connect (), .register 1 "x" "[]", .read 0, .register 1 "x" "[[]]", .read 1,
    .resume 0, .resume 0, .drop 1 "x"]

/-- The first registration's read puts its answer on the replaced view, and nobody takes its bytes
off. -/
theorem registeredTwice_drifts : (run (Hub.init ()) registeredTwice).retained = 2 ∧
    ¬ (run (Hub.init ()) registeredTwice).Balanced := by
  have hretained : (run (Hub.init ()) registeredTwice).retained = 2 := by decide
  have hviews : (run (Hub.init ()) registeredTwice).views = [] := by decide
  refine ⟨hretained, ?_⟩
  rintro ⟨-, -, hzero⟩
  rw [hzero hviews] at hretained
  exact absurd hretained (by decide)

/-- The same with the first read continued before the id is registered again. -/
def registeredAgain : List (Step textEngine) :=
  [.connect (), .register 1 "x" "[]", .read 0, .resume 0, .register 1 "x" "[[]]", .read 0,
    .resume 0]

theorem registeredAgain_balanced : (run (Hub.init ()) registeredAgain).retained = 4 ∧
    (run (Hub.init ()) registeredAgain).Balanced := by
  refine ⟨by decide, run_balanced (E := textEngine) () registeredAgain ?_⟩
  decide

end Norbital.Bolt.Live

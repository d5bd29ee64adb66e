import Norbital.Bolt.Live.Mirror

/-!
# The page along a run of the hub

Every step of the hub keeps the page in step with it, a continued flush under the
condition that none of the views it patches was answered since it began.
-/

namespace Norbital.Bolt.Live

variable {J : Judge} {start : ClientView} {h h' : Hub J.engine} {conn : Nat}

theorem Mirrored.connect (hm : Mirrored start h) (authority : J.Authority) :
    Mirrored start (connect h authority) := by
  have hconn : Mirrored start { h with
      n := h.n + 1, conns := h.conns ++ [⟨h.n + 1, authority⟩] } := by
    refine ⟨hm.accounts.congr rfl ?_ (fun _ => rfl) rfl, ?_, ?_, hm.routed, hm.queued, hm.stamps,
      hm.formed, hm.shown, hm.taken, ?_⟩
    · intro c hc
      rw [Hub.connOf, List.find?_isSome] at hc ⊢
      obtain ⟨k, hk, hkc⟩ := hc
      exact ⟨k, List.mem_append_left _ hk, hkc⟩
    · rw [List.map_append, List.nodup_append]
      refine ⟨hm.conns, by simp, ?_⟩
      rintro id hid _ hnew rfl
      obtain ⟨c, hc, rfl⟩ := List.mem_map.1 hid
      have hle := hm.fresh c hc
      simp only [List.map_cons, List.map_nil, List.mem_singleton] at hnew
      omega
    · intro c hc
      rcases List.mem_append.1 hc with hc | hc
      · exact Nat.le_succ_of_le (hm.fresh c hc)
      · rw [List.mem_singleton.1 hc]
    · exact fun job hjob => (hm.jobs job hjob).congr (fun _ _ => rfl) (Nat.le_refl _)
  exact hconn.send _ rfl

theorem Mirrored.disconnect (hm : Mirrored start h) (conn : Nat) :
    Mirrored start (h.disconnect conn) := by
  have haccounts := hm.accounts.disconnect conn
  rw [Hub.disconnect] at haccounts ⊢
  split
  · exact hm
  · next c hc =>
    simp only [hc] at haccounts
    refine ⟨haccounts, ?_, ?_, hm.routed, hm.queued, hm.stamps, hm.formed, ?_, hm.taken, ?_⟩
    · exact hm.conns.sublist (List.filter_sublist.map _)
    · exact fun k hk => hm.fresh k (List.mem_of_mem_filter hk)
    · exact fun e he => hm.shown e (List.mem_of_mem_filter he)
    · exact fun job hjob => (hm.jobs job hjob).congr (fun _ _ => rfl) (Nat.le_refl _)

/-- A view just registered has no answer to show. -/
theorem Mirrored.hold (hm : Mirrored start h) {id : String} (read : J.Read)
    (hfree : ∀ e ∈ h.views, ¬ (e.conn = conn ∧ e.id = id)) (hconn : (h.connOf conn).isSome) :
    Mirrored start { h with
      heap := h.heap ++ [⟨id, read, 0, none, none⟩]
      views := h.views ++ [⟨conn, id, h.heap.length⟩] } := by
  have hnew : ∀ (ref : Nat) view, (h.heap ++ [(⟨id, read, 0, none, none⟩ : View J.Read Json)])[ref]? =
      some view → view.value = none ∨ h.heap[ref]? = some view := by
    intro ref view hview
    rw [List.getElem?_append] at hview
    split_ifs at hview with hlt
    · exact .inr hview
    · rw [List.getElem?_singleton] at hview
      split_ifs at hview
      cases hview
      exact .inl rfl
  refine ⟨hm.accounts.hold read hfree hconn, hm.conns, hm.fresh, hm.routed, hm.queued, hm.stamps, ?_, ?_,
    hm.taken, ?_⟩
  · intro ref view hview w hw
    rcases hnew ref view hview with hnone | hold
    · rw [hnone] at hw
      cases hw
    · exact hm.formed ref view hold w hw
  · intro e he view hview w hw
    rcases hnew e.ref view hview with hnone | hold
    · rw [hnone] at hw
      cases hw
    · rcases List.mem_append.1 he with he | he
      · exact hm.shown e he view hold w hw
      · rw [List.mem_singleton.1 he] at hold
        simp at hold
  · intro job hjob
    refine (hm.jobs job hjob).congr (fun ref href => ?_) (Nat.le_refl _)
    rw [List.getElem?_append_left href]

theorem Mirrored.register (hm : Mirrored start h) {id : String} {read : J.Read}
    (hr : register h conn id read = .ok h') : Mirrored start h' := by
  cases hc : h.connOf conn with
  | none => simp [Live.register, hc] at hr
  | some c =>
    simp only [Live.register, hc] at hr
    cases hcheck : J.check read with
    | error failure => simp [hcheck, bind, Except.bind] at hr
    | ok _ =>
      simp only [hcheck, bind, Except.bind] at hr
      split_ifs at hr with hmany
      cases hr
      have hconn : ((h.drop conn id).connOf conn).isSome := by
        rw [Hub.connOf, Hub.drop_conns]
        exact Option.isSome_iff_exists.2 ⟨c, hc⟩
      refine ((hm.drop conn id).hold read (h.drop_free conn id) hconn).answer c ?_ _
      intro ref href
      rw [List.mem_singleton.1 href]
      simp

/-- Under another authority every answer of the connection is forgotten until it is read again. -/
theorem Mirrored.authorize (hm : Mirrored start h) (conn : Nat) (authority : J.Authority) :
    Mirrored start (authorize h conn authority) := by
  cases hc : h.connOf conn with
  | none => simpa [Live.authorize, hc] using hm
  | some c =>
    simp only [Live.authorize, hc]
    -- a view keeps its read, and an answer it still has it had before
    have hview : ∀ (ref : Nat) view', (h.heap.mapIdx fun ref view =>
        if ref ∈ h.viewsOf conn then { view with value := none } else view)[ref]? = some view' →
        ∃ view, h.heap[ref]? = some view ∧ view'.read = view.read ∧
          ∀ w ∈ view'.value, view.value = some w := by
      intro ref view' hview'
      rw [List.getElem?_mapIdx] at hview'
      obtain ⟨view, hview, rfl⟩ := Option.map_eq_some_iff.1 hview'
      refine ⟨view, hview, ?_, ?_⟩
      · split_ifs <;> rfl
      · intro w hw
        split_ifs at hw
        · cases hw
        · exact hw
    refine Mirrored.answer ⟨hm.accounts.reauthorize conn authority (h.viewsOf conn), ?_, ?_, hm.routed,
      hm.queued, hm.stamps, ?_, ?_, hm.taken, ?_⟩ ⟨conn, authority⟩ ?_ .authorize
    · have hids : (h.conns.map fun c => if c.id == conn then { c with authority := authority } else c).map
          (·.id) = h.conns.map (·.id) := by
        rw [List.map_map]
        refine List.map_congr_left fun c _ => ?_
        simp only [Function.comp_apply]
        split_ifs <;> rfl
      simp only [hids]
      exact hm.conns
    · intro c hc
      obtain ⟨k, hk, rfl⟩ := List.mem_map.1 hc
      split_ifs <;> exact hm.fresh k hk
    · intro ref view' hview' w hw
      obtain ⟨view, hold, hread, hvalue⟩ := hview ref view' hview'
      rw [hread]
      exact hm.formed ref view hold w (hvalue w hw)
    · intro e he view' hview' w hw
      obtain ⟨view, hold, hread, hvalue⟩ := hview e.ref view' hview'
      rw [hread]
      exact hm.shown e he view hold w (hvalue w hw)
    · intro job hjob
      refine (hm.jobs job hjob).congr (fun ref href => ?_) (Nat.le_refl _)
      simp only [List.getElem?_mapIdx, List.getElem?_eq_getElem href, Option.map_some]
      split_ifs <;> rfl
    · intro ref href
      rw [List.length_mapIdx]
      exact lt_of_mem_viewsOf hm.accounts href

theorem ran_map (reads : List J.Read) (db : J.Db) (a : J.Authority) :
    Ran J reads (reads.map (J.run db a)) := by
  intro i read answer hread hanswer
  rw [List.getElem?_map, hread, Option.map_some, Option.some.injEq] at hanswer
  exact ⟨db, a, hanswer.symm⟩

theorem Job.Sound.read {job : Job J.engine} (hjob : job.Sound h) : (job.read h).Sound h := by
  rw [Job.read]
  split
  · next authority hphase =>
    dsimp only
    split_ifs
    · refine ⟨?_, hjob.purpose⟩
      intro i read answer hread hanswer
      rw [List.getElem?_map, hread] at hanswer
      cases hanswer
    · exact ⟨ran_map _ _ _, hjob.purpose⟩
  · exact hjob

theorem getElem?_filterMap_id {answers : List (Option (Except Failure Json))}
    (hall : answers.all Option.isSome = true) (i : Nat) :
    (answers.filterMap id)[i]? = (answers[i]?).join := by
  induction answers generalizing i with
  | nil => rfl
  | cons answer answers ih =>
    rw [List.all_cons, Bool.and_eq_true] at hall
    obtain ⟨x, rfl⟩ := Option.isSome_iff_exists.1 hall.1
    have hcons : ((some x :: answers).filterMap id) = x :: answers.filterMap id := rfl
    rw [hcons]
    cases i with
    | zero => rfl
    | succ i => exact ih hall.2 i

theorem Job.Sound.readOne {job : Job J.engine} (hjob : job.Sound h) (i : Nat) :
    (job.readOne h i).Sound h := by
  rw [Job.readOne]
  split
  · next authority answers read hphase hread =>
    split_ifs with hsome
    · exact hjob
    have hsound := hjob.phase
    simp only [hphase] at hsound
    have hset : ∀ (k : Nat) read' answer, job.reads[k]? = some read' →
        (answers.set i (some (J.run h.db authority read)))[k]? = some (some answer) →
        ∃ db a, answer = J.run db a read' := by
      intro k read' answer hread' hanswer
      rw [List.getElem?_set] at hanswer
      split_ifs at hanswer with hk
      · subst hk
        rw [hread, Option.some.injEq] at hread'
        rw [Option.some.injEq, Option.some.injEq] at hanswer
        exact ⟨h.db, authority, by rw [← hanswer, hread']⟩
      · exact hsound k read' answer hread' hanswer
    dsimp only
    split_ifs with hall
    · refine ⟨?_, hjob.purpose⟩
      intro k read' answer hread' hanswer
      rw [getElem?_filterMap_id hall] at hanswer
      exact hset k read' answer hread' (Option.join_eq_some_iff.1 hanswer)
    · exact ⟨hset, hjob.purpose⟩
  · exact hjob

theorem mem_modify {α : Type} {l : List α} {j : Nat} {f : α → α} {x : α} (hx : x ∈ l.modify j f) :
    x ∈ l ∨ ∃ y ∈ l, x = f y := by
  obtain ⟨i, hi⟩ := List.mem_iff_getElem?.1 hx
  rw [List.getElem?_modify] at hi
  cases hy : l[i]? with
  | none => simp [hy] at hi
  | some y =>
    rw [hy] at hi
    have hi : (if j = i then f y else y) = x := by simpa using hi
    split_ifs at hi
    · exact .inr ⟨y, List.mem_of_getElem? hy, hi.symm⟩
    · exact .inl (hi ▸ List.mem_of_getElem? hy)

/-- The stamp of a frame for a view. -/
def Frame.stamp (id : String) : Frame Json Fields → Option Nat
  | .answer view v .. => if view = id then some v else none
  | .patch view v _ => if view = id then some v else none
  | _ => none

/-- No frame of the flush under way was sent for the view. -/
def Unanswered (h : Hub J.engine) (conn ref : Nat) : Prop :=
  ∀ view ∈ h.heap[ref]?, ∀ f ∈ h.sent, f.1 = conn → ∀ v ∈ f.2.stamp view.id, v < h.routed

instance (h : Hub J.engine) (conn ref : Nat) : Decidable (Unanswered h conn ref) :=
  inferInstanceAs (Decidable (∀ view ∈ h.heap[ref]?, ∀ f ∈ h.sent, _))

/-- The views a job patches. -/
def Job.patches (job : Job J.engine) : List Nat :=
  match job.purpose with
  | .answer .. => []
  | .flush _ deltas _ => deltas.map (·.1)

/-- The condition of a step: a read that continues finds the ids of its views gone or still standing
for them, and the views it patches without a frame of the flush. -/
def Step.Timely (h : Hub J.engine) : Step J.engine → Prop
  | .resume j => ∀ job ∈ h.jobs[j]?, (∀ ref ∈ job.refs, Live.Current h job.conn ref) ∧
      ∀ ref ∈ job.patches, Unanswered h job.conn ref
  | _ => True

instance (h : Hub J.engine) : (s : Step J.engine) → Decidable (s.Timely h)
  | .resume j => inferInstanceAs (Decidable (∀ job ∈ h.jobs[j]?, _ ∧ ∀ ref ∈ job.patches, _))
  | .connect .. | .register .. | .drop .. | .disconnect .. | .close .. | .authorize .. | .publish ..
  | .syncChanged .. | .flush | .read .. | .readOne .. => isTrue trivial

/-- The version a page shows is that of its last frame. -/
theorem mirror_v_lt {sent : List (Nat × Frame Json Fields)} {id : String} {routed : Nat}
    (hstart : start.v < routed)
    (hsent : ∀ f ∈ sent, f.1 = conn → ∀ v ∈ f.2.stamp id, v < routed) :
    (mirror start sent conn id).v < routed := by
  induction sent using List.reverseRecOn with
  | nil => exact hstart
  | append_singleton sent f ih =>
    have ih := ih fun f hf => hsent f (List.mem_append_left _ hf)
    have hlast := hsent f (List.mem_append_right _ (List.mem_singleton_self f))
    obtain ⟨c, frame⟩ := f
    rw [mirror_append]
    split_ifs with hc
    · have hlast := hlast hc
      cases frame with
      | hello v =>
        show (-1 : Int) < routed
        omega
      | answer i v value arrivals =>
        rw [onFrame]
        split_ifs with hi
        · exact Int.ofNat_lt.2 (hlast v (by simp [Frame.stamp, hi]))
        · exact ih
      | patch i v ops =>
        rw [onFrame]
        split_ifs with hi hold
        · exact ih
        · split
          · exact Int.ofNat_lt.2 (hlast v (by simp [Frame.stamp, hi]))
          · exact ih
        · exact ih
      | error i failure => exact ih
      | version v => exact ih
      | close release => exact ih
    · exact ih

theorem open_of_unanswered {ref : Nat} (hstart : start.v ≤ 0) (hpos : 0 < h.routed)
    (hnone : Unanswered h conn ref) : Open start h conn ref := by
  intro view hview _
  refine mirror_v_lt ?_ (hnone view hview)
  omega

/-- A read that ran continues, its flush's views unanswered since it began. -/
theorem Mirrored.resume (hlawful : J.Lawful) (hstart : start.v ≤ 0) (hm : Mirrored start h)
    {job : Job J.engine} {answers : List (Except Failure Json)} (hjob : job.Sound h)
    (hphase : job.phase = .ran answers) (hcurrent : ∀ ref ∈ job.refs, Current h job.conn ref)
    (hopen : ∀ ref ∈ job.patches, Unanswered h job.conn ref) :
    Mirrored start (job.resume h answers) := by
  have hran := hjob.phase
  have hpurpose := hjob.purpose
  simp only [hphase] at hran
  rw [Job.resume]
  cases hp : job.purpose with
  | answer refs origin =>
    simp only [hp] at hpurpose ⊢
    obtain ⟨hreads, hrefs⟩ := hpurpose
    have hran : Ran J (h.readsOf refs ++ []) answers := by rwa [List.append_nil, ← hreads]
    have hcur : ∀ ref ∈ refs, Current h job.conn ref := fun ref href =>
      hcurrent ref (by rwa [Job.refs, hp])
    have hputs : Puts start job.conn refs h (handAll h job.conn refs answers fun _ => []) :=
      puts_handAll hm hcur (brings_of_ran hlawful hrefs hran).1
    exact hputs.mirrored.finish job.conn origin
  | flush full deltas batch =>
    simp only [hp] at hpurpose ⊢
    obtain ⟨hreads, hrefs, hnodup, hapt, hpos⟩ := hpurpose
    have hcur : ∀ ref ∈ full ++ deltas.map (·.1), Current h job.conn ref := fun ref href =>
      hcurrent ref (by rwa [Job.refs, hp])
    have hdelta : ∀ d ∈ deltas, Open start h job.conn d.1 := fun d hd =>
      open_of_unanswered hstart hpos (hopen d.1 (by
        rw [Job.patches, hp]
        exact List.mem_map_of_mem hd))
    rw [hreads] at hran
    refine (hm.flushed hlawful ?_ ?_ hdelta hrefs hnodup hapt hran batch).mirrored
    · exact fun ref href => hcur ref (List.mem_append_left _ href)
    · exact fun d hd => hcur d.1 (List.mem_append_right _ (List.mem_map_of_mem hd))

/-- A commit or a metadata change moves the lane's number ahead of the frames'. -/
theorem Mirrored.queue (hm : Mirrored start h) (hviews : h'.views = h.views)
    (hheap : h'.heap = h.heap) (hconns : h'.conns = h.conns) (hn : h'.n = h.n)
    (hretained : h'.retained = h.retained) (hsent : h'.sent = h.sent) (hjobs : h'.jobs = h.jobs)
    (hrouted : h'.routed = h.routed) (hv : h'.v = h.v + 1) : Mirrored start h' := by
  constructor
  · exact hm.accounts.of_eq hviews hconns hheap hretained
  · rw [hconns]
    exact hm.conns
  · rw [hconns, hn]
    exact hm.fresh
  · rw [hrouted, hv]
    exact Nat.le_succ_of_le hm.routed
  · intro _
    rw [hrouted, hv]
    exact Nat.lt_succ_of_le hm.routed
  · rw [hsent, hrouted]
    exact hm.stamps
  · rw [hheap]
    exact hm.formed
  · rw [hviews, hheap, hsent]
    exact hm.shown
  · rw [hsent]
    exact hm.taken
  · intro job hjob
    rw [hjobs] at hjob
    refine (hm.jobs job hjob).congr (fun ref _ => ?_) (Nat.le_of_eq hrouted.symm)
    rw [hheap]

theorem Mirrored.withDb (hm : Mirrored start h) (db : J.Db) : Mirrored start { h with db := db } :=
  hm.of_eq rfl rfl rfl rfl ⟨rfl, rfl, rfl⟩ rfl (fun _ => rfl) (fun _ => rfl)
    fun job hjob => (hm.jobs job hjob).congr (fun _ _ => rfl) (Nat.le_refl _)

theorem Mirrored.step (hlawful : J.Lawful) (hstart : start.v ≤ 0) (hm : Mirrored start h)
    (s : Step J.engine) (hs : s.Timely h) : Mirrored start (step h s) := by
  cases s with
  | connect authority => exact hm.connect authority
  | register conn id read =>
    cases hr : Live.register h conn id read with
    | error failure => simpa [Live.step, hr] using hm
    | ok h' => simpa [Live.step, hr] using hm.register hr
  | drop conn id =>
    rw [Live.step]
    split_ifs
    · exact hm.drop conn id
    · exact hm
  | disconnect conn => exact hm.disconnect conn
  | close release =>
    refine List.foldlRecOn h.conns _ hm ?_
    intro k hk c _
    have hsend : Mirrored start (k.send c.id (.close release)) := hk.send c.id rfl
    exact hsend.disconnect c.id
  | authorize conn authority => exact hm.authorize conn authority
  | publish db captured =>
    rw [Live.step, publish]
    split_ifs
    · exact hm.withDb db
    · exact hm.queue rfl rfl rfl rfl rfl rfl rfl rfl rfl
  | syncChanged db model records =>
    rw [Live.step, syncChanged]
    split_ifs
    · exact hm.withDb db
    · exact hm.queue rfl rfl rfl rfl rfl rfl rfl rfl rfl
  | flush => exact hm.flush hlawful
  | read j =>
    refine hm.withJobs fun job hjob => ?_
    rcases mem_modify hjob with hjob | ⟨old, hold, rfl⟩
    · exact hm.jobs job hjob
    · exact (hm.jobs old hold).read
  | readOne j i =>
    refine hm.withJobs fun job hjob => ?_
    rcases mem_modify hjob with hjob | ⟨old, hold, rfl⟩
    · exact hm.jobs job hjob
    · exact (hm.jobs old hold).readOne i
  | resume j =>
    cases hj : h.jobs[j]? with
    | none => simpa [Live.step, hj] using hm
    | some job =>
      simp only [Live.step, hj]
      split
      · next answers hphase =>
        -- the condition on the run enters here: the job's views still stand, and no frame of its number was sent
        obtain ⟨hcurrent, hopen⟩ := hs job hj
        have herase : Mirrored start { h with jobs := h.jobs.eraseIdx j } :=
          hm.withJobs fun job hjob => hm.jobs job (List.mem_of_mem_eraseIdx hjob)
        have hsound : job.Sound { h with jobs := h.jobs.eraseIdx j } :=
          (hm.jobs job (List.mem_of_getElem? hj)).congr (fun _ _ => rfl) (Nat.le_refl _)
        exact herase.resume hlawful hstart hsound hphase hcurrent hopen
      · exact hm

/-- The run's steps all meet the condition, each in the state it starts from. -/
def Timelys (h : Hub J.engine) : List (Step J.engine) → Prop
  | [] => True
  | s :: steps => s.Timely h ∧ Timelys (step h s) steps

instance decidableTimelys : (h : Hub J.engine) → (steps : List (Step J.engine)) →
    Decidable (Timelys h steps)
  | _, [] => isTrue trivial
  | h, s :: steps => @instDecidableAnd _ _ _ (decidableTimelys (step h s) steps)

theorem Mirrored.run (hlawful : J.Lawful) (hstart : start.v ≤ 0) (hm : Mirrored start h)
    {steps : List (Step J.engine)} (hs : Timelys h steps) : Mirrored start (run h steps) := by
  induction steps generalizing h with
  | nil => exact hm
  | cons s steps ih => exact ih (hm.step hlawful hstart s hs.1) hs.2

theorem mirrored_init (hstart : start.v ≤ 0) (db : J.Db) :
    Mirrored start (Hub.init db : Hub J.engine) where
  accounts := accounts_init (E := J.engine) db
  conns := List.nodup_nil
  fresh := by simp [Hub.init]
  routed := Nat.le_refl _
  queued := by simp [Hub.init]
  stamps _ _ := hstart
  formed := by simp [Hub.init]
  shown := by simp [Hub.init]
  taken := by simp [Hub.init]
  jobs := by simp [Hub.init]

/-- What the frames sent make of the page: each registered view shows the answer the hub holds, and
goes on to show whatever rows the hub takes into it; no patch was discarded. -/
structure Mirrors (start : ClientView) (h : Hub J.engine) : Prop where
  shown : ∀ e ∈ h.views, ∀ view ∈ h.heap[e.ref]?, ∀ w ∈ view.value,
    ∃ server, (mirror start h.sent e.conn e.id).server = some server ∧
      Shown (J.strategy view.read) server w ∧
      ∀ authority got work ops, (∀ p ∈ got, GotApt J view.read p) →
        applyRows (E := J.engine) authority view.read w got = some (work, ops) → ops ≠ [] →
        ∃ next, patched server (ops.map typedOp) = some next ∧ Shown (J.strategy view.read) next work
  taken : ∀ before conn id v ops after, h.sent = before ++ (conn, Frame.patch id v ops) :: after →
    (mirror start before conn id).takes v ops

theorem Mirrored.mirrors (hm : Mirrored start h) : Mirrors start h := by
  refine ⟨?_, hm.taken⟩
  intro e he view hview w hw
  obtain ⟨server, hserver, hshown⟩ := hm.shown e he view hview w hw
  refine ⟨server, hserver, hshown, ?_⟩
  intro authority got work ops hgot happly hops
  obtain ⟨next, hnext, hshown', -⟩ :=
    patched_applyRows hgot (hm.formed e.ref view hview w hw) hshown happly hops
  exact ⟨next, hnext, hshown'⟩

/-- In every run in which a continuing read finds its views' ids gone or still standing for them, and
a continuing flush the views it patches without a frame of its number, the page mirrors the hub. -/
theorem run_mirrors (hlawful : J.Lawful) (hstart : start.v ≤ 0) (db : J.Db)
    (steps : List (Step J.engine)) (hs : Timelys (Hub.init db) steps) :
    Mirrors start (run (Hub.init db : Hub J.engine) steps) :=
  ((mirrored_init hstart db).run hlawful hstart hs).mirrors

/-- The record and the text of its one field, as the database has it. -/
def recordOf (text : String) : Fields := [("id", .str "a"), ("text", .str text)]

/-- The page of a list of that record. -/
def pageOfRecord (text : String) : Fields := [("rows", .arr [.obj (recordOf text)])]

/-- The text a row shows. -/
def rowText (row : Fields) : Option String :=
  match row.lookup "text" with
  | some (.str text) => some text
  | _ => none

/-- The text an answer shows: a record's, or that of the one row of a page. -/
def textOf : Json → Option String
  | .obj fields =>
    match fields.lookup "rows" with
    | some (.arr [.obj row]) => rowText row
    | _ => rowText fields
  | _ => none

/-- The reads of the list and of its record. -/
inductive RecordRead where
  | list
  | record
  deriving DecidableEq

/-- A reader of one record whose captured rows do not carry what a list of it shows (`$sync`, or a
relation), so that each change is to a list a `get` of the record and to a `get` a re-read. -/
def recordJudge : Judge where
  Db := String
  Authority := Unit
  Read := RecordRead
  Captured := Unit
  run text _
    | .list => .ok (.obj (pageOfRecord text))
    | .record => .ok (.obj (recordOf text))
  check _ := .ok ()
  bytesOf _ := 1
  same a b := textOf a == textOf b
  isInbox _ := false
  metadataHits _ _ _ := false
  arrivals _ _ _ := []
  decide _ _ _ _ := .hit
  resolve
    | _, .list, c => .get c .record
    | _, .record, _ => .full
  strategy read :=
    { shape := match read with
        | .list => .page
        | .record => .get
      target := "a"
      plain := true
      id := fun _ => "a"
      status := fun _ => none
      same := fun a b => textOf a == textOf b
      kept := fun _ _ _ => true
      before := fun _ _ => none
      limit := 200
      transcript := nofun }

theorem recordJudge_lawful : recordJudge.Lawful := by
  have hid : ∀ text, (recordOf text).lookup "id" = some (.str "a") := fun _ => rfl
  constructor
  · intro text a read value hrun
    cases read with
    | list =>
      cases hrun
      refine ⟨pageOfRecord text, [recordOf text], rfl, rfl, identified_single (hid text), ?_⟩
      intro _ f hf
      rw [List.mem_singleton.1 hf]
      rfl
    | record =>
      cases hrun
      refine .inr ⟨_, rfl, hid text, ?_⟩
      intro items hitems
      cases hitems
  · intro a read c k fetch hresolve
    cases read with
    | list => rfl
    | record => cases hresolve
  · intro a read value c _
    cases read with
    | list =>
      intro text a' value' row hrun hrow
      cases hrun
      cases hrow
      refine ⟨?_, nofun⟩
      rintro r hr
      cases hr
      exact hid text
    | record => trivial

/-- A page's view as it is made. -/
def fresh : ClientView := ⟨none, 0⟩

/-- A list answered, a commit whose flush asks for the record, and an authorization that asks for the
list and reads it before the next commit. -/
def reauthorized : List (Step recordJudge.engine) :=
  [.connect (), .register 1 "x" .list, .read 0, .resume 0, .publish "second" [()], .flush,
    .authorize 1 (), .read 1, .publish "third" [()], .read 0]

/-- The authorization's answer comes first and the flush's patch, with the same number, after it.  The
next flush finds nothing to change. -/
def answeredFirst : List (Step recordJudge.engine) :=
  reauthorized ++ [Step.resume 1, .resume 0, .flush, .read 0, .resume 0]

/-- The flush continues first and reads again, as the hub holds no answer then. -/
def flushedFirst : List (Step recordJudge.engine) :=
  reauthorized ++ [Step.resume 0, .resume 0, .read 0, .resume 0, .flush, .read 0, .resume 0]

/-- The text the hub holds for the view, and the text the page shows of it. -/
def bothTexts (steps : List (Step recordJudge.engine)) : Option String × Option String :=
  let h := run (Hub.init "first") steps
  (((h.viewOf 1 "x").bind fun ref => h.heap[ref]?).bind fun view => view.value.bind textOf,
    (mirror fresh h.sent 1 "x").server.bind textOf)

theorem flushedFirst_mirrors : bothTexts flushedFirst = (some "third", some "third") ∧
    Mirrors fresh (run (Hub.init "first") flushedFirst) := by
  refine ⟨by decide, run_mirrors recordJudge_lawful (by decide) "first" flushedFirst ?_⟩
  decide

/-- The page discards the patch, and with nothing left in flight shows the record before the last
commit while the hub holds the one after it. -/
theorem answeredFirst_diverges : bothTexts answeredFirst = (some "third", some "second") ∧
    (run (Hub.init "first") answeredFirst).jobs.length = 0 ∧
    ¬ Mirrors fresh (run (Hub.init "first") answeredFirst) := by
  refine ⟨by decide, by decide, ?_⟩
  intro hm
  have hview : (run (Hub.init "first") answeredFirst).views = [⟨1, "x", 0⟩] := by decide
  have hheld : ((run (Hub.init "first") answeredFirst).heap[0]?).bind
      (fun view => view.value.bind fun w => textOf (typed w)) = some "third" := by decide
  have hpage : ((mirror fresh (run (Hub.init "first") answeredFirst).sent 1 "x").server.bind
      fun server => textOf server) = some "second" := by decide
  obtain ⟨view, hheap, hvalue⟩ := Option.bind_eq_some_iff.1 hheld
  obtain ⟨w, hw, htext⟩ := Option.bind_eq_some_iff.1 hvalue
  obtain ⟨server, hserver, hshown, -⟩ := hm.shown ⟨1, "x", 0⟩
    (by rw [hview]; exact List.mem_singleton_self _) view hheap w hw
  rw [hserver, Option.bind_some] at hpage
  rw [hshown.exact_ (.inr rfl), htext] at hpage
  exact absurd hpage (by decide)

end Norbital.Bolt.Live

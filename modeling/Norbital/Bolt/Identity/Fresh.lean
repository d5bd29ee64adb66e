import Norbital.Bolt.Identity.Actor

/-!
# Fresh authorities

When the cache of `Authorities` holds nothing stale: what the runs are in which
every authority is the one its key's row and its resolution's spec compile to.
-/

namespace Norbital.Bolt.Authorities

open Norbital.Lib

variable {G L : Type} {cfg : Config G L} {m : Manifest G L} {db db' : Db} {p : Process G L} {s : Server G L}

/-- The row is one the database had, at its revision. -/
def Known (db : Db) (u : UserRow) : Prop := db.rowAt u.id u.revision = some u

instance (db : Db) (u : UserRow) : Decidable (Known db u) :=
  inferInstanceAs (Decidable (db.rowAt u.id u.revision = some u))

/-- Each stored row is its newest image, and no two share a member. -/
structure Images (db : Db) : Prop where
  current : ∀ u ∈ db.users, Known db u
  newest : ∀ h ∈ db.history, ∀ u ∈ db.users, h.id = u.id → h.revision ≤ u.revision
  distinct : (db.users.map UserRow.id).Nodup

theorem Known.eq {u v : UserRow} (hu : Known db u) (hv : Known db v) (hid : u.id = v.id)
    (hrevision : u.revision = v.revision) : u = v := by
  rw [Known, hid, hrevision] at hu
  exact Option.some.inj (hu.symm.trans hv)

theorem Known.mono {u : UserRow} (h : Known db u) (hdb : db.history <+: db'.history) : Known db' u := by
  obtain ⟨images, himages⟩ := hdb
  rw [Known, Db.rowAt] at h ⊢
  rw [← himages, List.find?_append, h]
  rfl

theorem Db.user_mem {id : String} {u : UserRow} (h : db.user id = some u) : u ∈ db.users ∧ u.id = id := by
  refine ⟨List.mem_of_find?_eq_some h, ?_⟩
  simpa using List.find?_some h

theorem Images.known {id : String} {u : UserRow} (h : Images db) (hu : db.user id = some u) : Known db u :=
  h.current u (Db.user_mem hu).1

theorem Db.write_history (db : Db) (id : String) (change : UserRow → UserRow) :
    db.history <+: (db.write id change).history := by
  rw [Db.write]
  cases db.user id with
  | none => exact List.prefix_refl _
  | some u => exact List.prefix_append _ _

@[simp]
theorem UserRow.changed_id (u : UserRow) (change : UserRow → UserRow) : (u.changed change).id = u.id := rfl

@[simp]
theorem UserRow.changed_revision (u : UserRow) (change : UserRow → UserRow) :
    (u.changed change).revision = u.revision + 1 := rfl

/-- The image a write leaves is known. -/
theorem Images.written {id : String} {u : UserRow} (h : Images db) (hu : db.user id = some u)
    (change : UserRow → UserRow) : Known (db.write id change) (u.changed change) := by
  have hmem := (Db.user_mem hu).1
  have hnew : db.history.find? (fun x => decide (x.id = u.id) && decide (x.revision = u.revision + 1)) = none := by
    rw [List.find?_eq_none]
    intro x hx
    simp only [Bool.and_eq_true, decide_eq_true_eq, not_and]
    intro hxid
    have hle := h.newest x hx u hmem hxid
    omega
  rw [Known, Db.rowAt, Db.write, hu]
  dsimp only
  rw [List.find?_append, UserRow.changed_id, UserRow.changed_revision, hnew]
  simp

theorem Images.write (h : Images db) (id : String) (change : UserRow → UserRow) : Images (db.write id change) := by
  cases hu : db.user id with
  | none =>
    rw [Db.write, hu]
    exact h
  | some u =>
    obtain ⟨hmem, hid⟩ := Db.user_mem hu
    have hwritten := h.written hu change
    have hgrows := db.write_history id change
    have hold : ∀ v ∈ db.users, Known (db.write id change) v := fun v hv => (h.current v hv).mono hgrows
    have husers : ∀ v ∈ (db.write id change).users, (v ∈ db.users ∧ v.id ≠ id) ∨ v = u.changed change := by
      intro v hv
      rw [Db.write, hu] at hv
      obtain ⟨x, hx, rfl⟩ := List.mem_map.1 hv
      by_cases hxid : x.id = id
      · exact .inr (if_pos hxid)
      · rw [if_neg hxid]
        exact .inl ⟨hx, hxid⟩
    have hhistory : ∀ x ∈ (db.write id change).history, x ∈ db.history ∨ x = u.changed change := by
      intro x hx
      rw [Db.write, hu] at hx
      exact (List.mem_append.1 hx).imp_right List.mem_singleton.1
    refine ⟨?_, ?_, ?_⟩
    · intro v hv
      obtain ⟨hv, -⟩ | rfl := husers v hv
      · exact hold v hv
      · exact hwritten
    · intro x hx v hv hxv
      obtain ⟨hv, hne⟩ | rfl := husers v hv
      · obtain hx | rfl := hhistory x hx
        · exact h.newest x hx v hv hxv
        · exact absurd (hxv.symm.trans hid) hne
      · obtain hx | rfl := hhistory x hx
        · exact Nat.le_succ_of_le (h.newest x hx u hmem hxv)
        · exact Nat.le_refl _
    · have hids : (db.write id change).users.map UserRow.id = db.users.map UserRow.id := by
        rw [Db.write, hu, List.map_map]
        apply List.map_congr_left
        intro x _
        by_cases hxid : x.id = id
        · simp [hxid, hid]
        · simp [hxid]
      rw [hids]
      exact h.distinct

/-- An envoy's authority from the spec it read, and from its member's row where it joins theirs. -/
def envoyAuthority (m : Manifest G L) (o : EnvoyCall) (spec : EnvoySpec) (revision : Nat) :
    Option UserRow → Authority G L
  | none => compileAuthority m (o.ownHolder spec.policies) (o.ownKey revision)
  | some u =>
    let mine := memberAuthority m false u
    match spec.dm with
    | .envoy =>
      compileAuthority m (o.boundHolder spec.policies (m.memberActor false u) mine) (o.boundKey revision mine)
    | .union =>
      { compileAuthority m (o.dmHolder spec.policies (m.memberActor false u) mine) (o.dmKey revision mine) with
        limits := m.limits (o.ownHolder spec.policies) }

/-- A resolution at the place compiled these policies. -/
def SeenAt (seen : List Seen) (place : EnvoyAt) (policies : List String) : Prop :=
  ⟨place.envoy, place.channel, place.revision, policies⟩ ∈ seen

/-- The resolutions at one place compiled the same policies. -/
def Agree (seen : List Seen) : Prop :=
  ∀ x ∈ seen, ∀ y ∈ seen, x.envoy = y.envoy → x.channel = y.channel → x.revision = y.revision →
    x.policies = y.policies

/-- What an entry of the cache is compiled from. -/
def Sound (m : Manifest G L) (db : Db) (seen : List Seen) (key : Key) (a : Authority G L) : Prop :=
  match key with
  | .member _ _ => ∃ u, key = memberKey false u ∧ Known db u ∧ a = memberAuthority m false u
  | .preview _ _ => ∃ u, key = memberKey true u ∧ Known db u ∧ a = memberAuthority m true u
  | .envoy place member => ∃ (o : EnvoyCall) (policies : List String), o.place place.revision = place ∧
      o.member = member ∧ SeenAt seen place policies ∧ a = compileAuthority m (o.ownHolder policies) key
  | .envoyBound place mine => ∃ (o : EnvoyCall) (policies : List String) (u : UserRow),
      o.place place.revision = place ∧ o.member = some u.id ∧ mine = memberKey false u ∧ Known db u ∧
      SeenAt seen place policies ∧
      a = compileAuthority m (o.boundHolder policies (m.memberActor false u) (memberAuthority m false u)) key
  | .envoyDm place mine => ∃ (o : EnvoyCall) (policies : List String) (u : UserRow),
      o.place place.revision = place ∧ o.member = some u.id ∧ mine = memberKey false u ∧ Known db u ∧
      SeenAt seen place policies ∧
      a = compileAuthority m (o.dmHolder policies (m.memberActor false u) (memberAuthority m false u)) key
  | .other _ => True

theorem Sound.mono {seen seen' : List Seen} {key : Key} {a : Authority G L} (h : Sound m db seen key a)
    (hdb : db.history <+: db'.history) (hseen : seen ⊆ seen') : Sound m db' seen' key a := by
  cases key with
  | member id revision =>
    obtain ⟨u, hkey, hu, ha⟩ := h
    exact ⟨u, hkey, hu.mono hdb, ha⟩
  | preview id revision =>
    obtain ⟨u, hkey, hu, ha⟩ := h
    exact ⟨u, hkey, hu.mono hdb, ha⟩
  | envoy place member =>
    obtain ⟨o, policies, hplace, hmember, hpolicies, ha⟩ := h
    exact ⟨o, policies, hplace, hmember, hseen hpolicies, ha⟩
  | envoyBound place mine =>
    obtain ⟨o, policies, u, hplace, hmember, hmine, hu, hpolicies, ha⟩ := h
    exact ⟨o, policies, u, hplace, hmember, hmine, hu.mono hdb, hseen hpolicies, ha⟩
  | envoyDm place mine =>
    obtain ⟨o, policies, u, hplace, hmember, hmine, hu, hpolicies, ha⟩ := h
    exact ⟨o, policies, u, hplace, hmember, hmine, hu.mono hdb, hseen hpolicies, ha⟩
  | other text => trivial

/-- What the process keeps is sound: every cached authority, and every remembered row. -/
structure Kept (m : Manifest G L) (db : Db) (seen : List Seen) (p : Process G L) : Prop where
  cache : ∀ e ∈ p.cache, Sound m db seen e.1 e.2
  rows : ∀ e ∈ p.rows, e.2.row.id = e.1 ∧ Known db e.2.row

theorem Kept.mono {seen seen' : List Seen} (h : Kept m db seen p) (hdb : db.history <+: db'.history)
    (hseen : seen ⊆ seen') : Kept m db' seen' p :=
  ⟨fun e he => (h.cache e he).mono hdb hseen, fun e he => ⟨(h.rows e he).1, (h.rows e he).2.mono hdb⟩⟩

/-- A compilation keeps the cache sound. -/
theorem Kept.compiled {seen : List Seen} (h : Kept cfg.manifest db seen p) {holder : Holder} {key : Key}
    (hsound : Sound cfg.manifest db seen key (compileAuthority cfg.manifest holder key)) :
    Kept cfg.manifest db seen (compile cfg holder key p).2 := by
  rw [compile]
  cases p.cache.lookup key with
  | some a => exact h
  | none =>
    have happend : ∀ e ∈ p.cache ++ [(key, compileAuthority cfg.manifest holder key)],
        Sound cfg.manifest db seen e.1 e.2 := by
      intro e he
      obtain he | he := List.mem_append.1 he
      · exact h.cache e he
      · rw [List.mem_singleton.1 he]
        exact hsound
    refine ⟨fun e he => ?_, h.rows⟩
    dsimp only at he
    split_ifs at he
    · exact happend e (List.mem_of_mem_tail he)
    · exact happend e he

/-- A compilation answers the holder's authority where no entry under its key can be another's. -/
theorem Kept.compile {seen : List Seen} (h : Kept cfg.manifest db seen p) (holder : Holder) (key : Key)
    (hsound : Sound cfg.manifest db seen key (compileAuthority cfg.manifest holder key))
    (hdetermined : ∀ a, Sound cfg.manifest db seen key a → a = compileAuthority cfg.manifest holder key) :
    (Authorities.compile cfg holder key p).1 = compileAuthority cfg.manifest holder key ∧
      Kept cfg.manifest db seen (Authorities.compile cfg holder key p).2 := by
  refine ⟨?_, h.compiled hsound⟩
  rw [Authorities.compile]
  cases hlookup : p.cache.lookup key with
  | some a => exact hdetermined a (h.cache (key, a) (mem_of_lookup hlookup))
  | none => rfl

theorem sound_member {seen : List Seen} {preview : Bool} {u : UserRow} (hu : Known db u) :
    Sound m db seen (memberKey preview u) (memberAuthority m preview u) := by
  cases preview with
  | false => exact ⟨u, rfl, hu, rfl⟩
  | true => exact ⟨u, rfl, hu, rfl⟩

theorem Sound.member {seen : List Seen} {preview : Bool} {u : UserRow} {a : Authority G L} (hu : Known db u)
    (h : Sound m db seen (memberKey preview u) a) : a = memberAuthority m preview u := by
  have hrow : ∀ v, memberKey preview u = memberKey preview v → Known db v → u = v := by
    intro v hkey hv
    have hids : u.id = v.id ∧ u.revision = v.revision := by
      cases preview with
      | false => simpa [memberKey] using hkey
      | true => simpa [memberKey] using hkey
    exact hu.eq hv hids.1 hids.2
  cases preview with
  | false =>
    obtain ⟨v, hkey, hv, rfl⟩ := h
    rw [hrow v hkey hv]
  | true =>
    obtain ⟨v, hkey, hv, rfl⟩ := h
    rw [hrow v hkey hv]

/-- What a resolution of a member holds is the member's, as it was. -/
def MemberPhase.Sound (m : Manifest G L) (db : Db) (preview : Bool) (id : String) : MemberPhase G L → Prop
  | .read _ (some u) => u.id = id ∧ Known db u
  | .matching _ u _ => u.id = id ∧ Known db u
  | .matched _ u _ => u.id = id ∧ Known db u
  | .binding _ u _ => u.id = id ∧ Known db u
  | .bound _ u party revision =>
    u.id = id ∧ Known db { u with party, revision := revision.getD (u.revision + 1) }
  | .done (some a) => ∃ u, u.id = id ∧ Known db u ∧ a = memberAuthority m preview u
  | _ => True

theorem MemberPhase.Sound.mono {preview : Bool} {id : String} {phase : MemberPhase G L}
    (h : phase.Sound m db preview id) (hdb : db.history <+: db'.history) : phase.Sound m db' preview id := by
  cases phase with
  | start => trivial
  | reading stamp => trivial
  | read stamp found =>
    cases found with
    | none => trivial
    | some u => exact ⟨h.1, h.2.mono hdb⟩
  | matching stamp u address => exact ⟨h.1, h.2.mono hdb⟩
  | matched stamp u holders => exact ⟨h.1, h.2.mono hdb⟩
  | binding stamp u party => exact ⟨h.1, h.2.mono hdb⟩
  | bound stamp u party revision => exact ⟨h.1, h.2.mono hdb⟩
  | done authority =>
    cases authority with
    | none => trivial
    | some a =>
      obtain ⟨u, hid, hu, ha⟩ := h
      exact ⟨u, hid, hu.mono hdb, ha⟩

section

variable {seen : List Seen} {preview : Bool} {id : String} {u : UserRow}

theorem Kept.answer (h : Kept cfg.manifest db seen p) (hid : u.id = id) (hu : Known db u) :
    (answer cfg preview u p).1.Sound cfg.manifest db preview id ∧
      Kept cfg.manifest db seen (answer cfg preview u p).2 := by
  obtain ⟨heq, hkept⟩ := h.compile _ _ (sound_member hu) fun a ha => ha.member hu
  exact ⟨⟨u, hid, hu, heq⟩, hkept⟩

theorem Kept.settle (h : Kept cfg.manifest db seen p) (stamp : Stamp) (hid : u.id = id) (hu : Known db u) :
    (settle cfg preview id stamp u p).1.Sound cfg.manifest db preview id ∧
      Kept cfg.manifest db seen (settle cfg preview id stamp u p).2 := by
  rw [Authorities.settle]
  split_ifs
  · refine Kept.answer ⟨h.cache, ?_⟩ hid hu
    have hput : ∀ e ∈ put id ⟨u, stamp⟩ p.rows, e.2.row.id = e.1 ∧ Known db e.2.row := by
      intro e he
      obtain rfl | he := mem_put he
      · exact ⟨hid, hu⟩
      · exact h.rows e he
    intro e he
    dsimp only at he
    split_ifs at he
    · exact hput e (List.mem_of_mem_tail he)
    · exact hput e he
  · exact h.answer hid hu

theorem Kept.resumeMember {phase : MemberPhase G L} (h : Kept cfg.manifest db seen p)
    (hphase : phase.Sound cfg.manifest db preview id) :
    (resumeMember cfg preview id p phase).1.Sound cfg.manifest db preview id ∧
      Kept cfg.manifest db seen (resumeMember cfg preview id p phase).2 := by
  cases phase with
  | start =>
    simp only [Authorities.resumeMember]
    cases hlookup : p.rows.lookup id with
    | none => exact ⟨trivial, h⟩
    | some held =>
      obtain ⟨hid, hu⟩ := h.rows (id, held) (mem_of_lookup hlookup)
      dsimp only
      split_ifs
      · exact h.answer hid hu
      · exact ⟨trivial, h.cache, fun e he => h.rows e (List.mem_of_mem_filter he)⟩
  | read stamp found =>
    simp only [Authorities.resumeMember]
    cases found with
    | none => exact ⟨trivial, h⟩
    | some u =>
      obtain ⟨hid, hu⟩ := hphase
      dsimp only
      split_ifs
      · exact ⟨trivial, h⟩
      · exact h.settle stamp hid hu
      · split
        · exact h.settle stamp hid hu
        · exact ⟨⟨hid, hu⟩, h⟩
  | matched stamp u holders =>
    obtain ⟨hid, hu⟩ := hphase
    simp only [Authorities.resumeMember]
    split
    · exact h.settle stamp hid hu
    · exact ⟨⟨hid, hu⟩, h⟩
  | bound stamp u party revision =>
    have hcounted : Kept cfg.manifest db seen { p with identityWrites := p.identityWrites + 1 } :=
      ⟨h.cache, h.rows⟩
    refine hcounted.settle stamp ?_ hphase.2
    exact hphase.1
  | reading stamp => exact ⟨hphase, h⟩
  | matching stamp u address => exact ⟨hphase, h⟩
  | binding stamp u party => exact ⟨hphase, h⟩
  | done authority => exact ⟨hphase, h⟩

end

/-- `bind`'s answer is the row's: the member's row is the one it read, but for revisions; or, where
the party is another by now, the row that followed the one it read is the one it answers. -/
def Settled (db : Db) (u : UserRow) (party : Option Party) : Prop :=
  match db.user u.id with
  | some row =>
    if row.party = u.party then row = { u with revision := row.revision }
    else Known db { u with party, revision := u.revision + 1 }
  | none => Known db { u with party, revision := u.revision + 1 }

instance (db : Db) (u : UserRow) (party : Option Party) : Decidable (Settled db u party) := by
  unfold Settled
  cases db.user u.id with
  | none => exact inferInstance
  | some row => exact inferInstance

theorem bindStatement_history (db : Db) (u : UserRow) (party : Option Party) :
    db.history <+: (bindStatement db u party).2.history := by
  rw [bindStatement]
  cases db.user u.id with
  | none => exact List.prefix_refl _
  | some row =>
    dsimp only
    split_ifs
    · exact db.write_history _ _
    · exact List.prefix_refl _

theorem Images.bindStatement (h : Images db) (u : UserRow) (party : Option Party) :
    Images (bindStatement db u party).2 := by
  rw [Authorities.bindStatement]
  cases db.user u.id with
  | none => exact h
  | some row =>
    dsimp only
    split_ifs
    · exact h.write _ _
    · exact h

/-- A settled `bind` answers a row the database had. -/
theorem Settled.known {u : UserRow} {party : Option Party} (h : Settled db u party) (himages : Images db) :
    Known (bindStatement db u party).2
      { u with party, revision := (bindStatement db u party).1.getD (u.revision + 1) } := by
  rw [Settled] at h
  rw [bindStatement]
  cases hrow : db.user u.id with
  | none =>
    rw [hrow] at h
    exact h
  | some row =>
    rw [hrow] at h
    dsimp only at h ⊢
    by_cases hparty : row.party = u.party
    · rw [if_pos hparty] at h ⊢
      have hchanged : row.changed (fun x => { x with party }) = { u with party, revision := row.revision + 1 } := by
        rw [h]
        rfl
      have hwritten := himages.written hrow fun x => { x with party }
      rwa [hchanged] at hwritten
    · rw [if_neg hparty] at h ⊢
      exact h

/-- What a resolution of a member waits to write. -/
def MemberPhase.writes : MemberPhase G L → Option (UserRow × Option Party)
  | .binding _ u party => some (u, party)
  | _ => none

theorem memberStatement_history (id : String) (db : Db) (phase : MemberPhase G L) :
    db.history <+: (memberStatement id db phase).2.history := by
  cases phase with
  | binding stamp u party => exact bindStatement_history db u party
  | _ => exact List.prefix_refl _

theorem Images.memberStatement (h : Images db) (id : String) (phase : MemberPhase G L) :
    Images (memberStatement id db phase).2 := by
  cases phase with
  | binding stamp u party => exact h.bindStatement u party
  | _ => exact h

theorem MemberPhase.Sound.statement {preview : Bool} {id : String} {phase : MemberPhase G L}
    (h : phase.Sound m db preview id) (himages : Images db) (hsettled : ∀ w ∈ phase.writes, Settled db w.1 w.2) :
    (memberStatement id db phase).1.Sound m (memberStatement id db phase).2 preview id := by
  cases phase with
  | reading stamp =>
    cases hu : db.user id with
    | none => simp [memberStatement, hu, MemberPhase.Sound]
    | some u =>
      simp only [memberStatement, hu]
      exact ⟨(Db.user_mem hu).2, himages.known hu⟩
  | matching stamp u address => exact h
  | binding stamp u party => exact ⟨h.1, (hsettled (u, party) rfl).known himages⟩
  | start => exact h
  | read stamp found => exact h
  | matched stamp u holders => exact h
  | bound stamp u party revision => exact h
  | done authority => exact h

/-- What a resolution of an envoy holds was compiled from the spec it read, and its member's row. -/
def EnvoyPhase.Sound (m : Manifest G L) (db : Db) (seen : List Seen) (o : EnvoyCall) : EnvoyPhase G L → Prop
  | .member spec revision own id phase =>
    o.dm = true ∧ o.member = some id ∧ SeenAt seen (o.place revision) spec.policies ∧
      own = envoyAuthority m o spec revision none ∧ phase.Sound m db false id
  | .done spec (some a) => ∃ revision mine,
      (∀ u ∈ mine, o.member = some u.id ∧ Known db u) ∧ mine.isSome = (o.dm && o.member.isSome) ∧
        a = envoyAuthority m o spec revision mine
  | _ => True

theorem EnvoyPhase.Sound.mono {seen seen' : List Seen} {o : EnvoyCall} {phase : EnvoyPhase G L}
    (h : phase.Sound m db seen o) (hdb : db.history <+: db'.history) (hseen : seen ⊆ seen') :
    phase.Sound m db' seen' o := by
  cases phase with
  | member spec revision own id phase =>
    obtain ⟨hdm, hmember, hat, hown, hphase⟩ := h
    exact ⟨hdm, hmember, hseen hat, hown, hphase.mono hdb⟩
  | done spec authority =>
    cases authority with
    | none => trivial
    | some a =>
      obtain ⟨revision, mine, hmine, hsome, ha⟩ := h
      exact ⟨revision, mine, fun u hu => ⟨(hmine u hu).1, (hmine u hu).2.mono hdb⟩, hsome, ha⟩
  | _ => trivial

section

variable {seen : List Seen} {o : EnvoyCall}

theorem SeenAt.agree {place : EnvoyAt} {x y : List String} (h : Agree seen) (hx : SeenAt seen place x)
    (hy : SeenAt seen place y) : x = y :=
  h _ hx _ hy rfl rfl rfl

theorem EnvoyCall.place_of {o o' : EnvoyCall} {revision : Nat}
    (h : o'.place (o.place revision).revision = o.place revision) (hmember : o'.member = o.member) :
    o'.ownHolder = o.ownHolder ∧ o'.actor = o.actor := by
  simp only [EnvoyCall.place, EnvoyAt.mk.injEq, true_and] at h
  obtain ⟨henvoy, hchannel, hsender⟩ := h
  constructor
  · funext policies
    simp [EnvoyCall.ownHolder, EnvoyCall.actor, henvoy, hchannel, hsender, hmember]
  · funext linked
    simp [EnvoyCall.actor, henvoy, hchannel, hsender, hmember]

/-- An envoy's own authority. -/
theorem Kept.own (h : Kept cfg.manifest db seen p) (hagree : Agree seen) {spec : EnvoySpec} {revision : Nat}
    (hseen : SeenAt seen (o.place revision) spec.policies) :
    (Authorities.compile cfg (o.ownHolder spec.policies) (o.ownKey revision) p).1 =
        envoyAuthority cfg.manifest o spec revision none ∧
      Kept cfg.manifest db seen (Authorities.compile cfg (o.ownHolder spec.policies) (o.ownKey revision) p).2 := by
  refine h.compile _ _ ⟨o, spec.policies, rfl, rfl, hseen, rfl⟩ ?_
  rintro a ⟨o', policies, hplace, hmember, hpolicies, rfl⟩
  rw [(EnvoyCall.place_of hplace hmember).1, hpolicies.agree hagree hseen]

/-- The member a joined entry was compiled with is the one its key names. -/
theorem joined_eq {revision : Nat} {u v : UserRow} {o' : EnvoyCall} (hu : Known db u) (hv : Known db v)
    (hmine : (memberAuthority m false u).key = memberKey false v) (hmember : o.member = some u.id)
    (hmember' : o'.member = some v.id) (hplace : o'.place (o.place revision).revision = o.place revision) :
    v = u ∧ o'.actor = o.actor := by
  have hkey : u.id = v.id ∧ u.revision = v.revision := by
    simpa [memberAuthority, compileAuthority, memberKey] using hmine
  obtain rfl := hu.eq hv hkey.1 hkey.2
  exact ⟨rfl, (EnvoyCall.place_of hplace (hmember'.trans hmember.symm)).2⟩

theorem Kept.joined (h : Kept cfg.manifest db seen p) (hagree : Agree seen) {spec : EnvoySpec} {revision : Nat}
    {id : String} {mine : Option (Authority G L)} (hdm : o.dm = true) (hmember : o.member = some id)
    (hseen : SeenAt seen (o.place revision) spec.policies)
    (hmine : (MemberPhase.done mine).Sound cfg.manifest db false id) :
    (joined cfg o spec revision (envoyAuthority cfg.manifest o spec revision none) mine p).1.Sound
        cfg.manifest db seen o ∧
      Kept cfg.manifest db seen
        (joined cfg o spec revision (envoyAuthority cfg.manifest o spec revision none) mine p).2 := by
  cases mine with
  | none => exact ⟨trivial, h⟩
  | some mine =>
    obtain ⟨u, rfl, hu, rfl⟩ := hmine
    have hjoins : ∀ x ∈ some u, o.member = some x.id ∧ Known db x := by
      rintro x ⟨⟩
      exact ⟨hmember, hu⟩
    have hsome : (some u).isSome = (o.dm && o.member.isSome) := by simp [hdm, hmember]
    rw [Authorities.joined]
    cases hspec : spec.dm with
    | envoy =>
      obtain ⟨heq, hkept⟩ := h.compile
        (o.boundHolder spec.policies (cfg.manifest.memberActor false u) (memberAuthority cfg.manifest false u))
        (o.boundKey revision (memberAuthority cfg.manifest false u))
        ⟨o, spec.policies, u, rfl, hmember, rfl, hu, hseen, rfl⟩ (by
          rintro a ⟨o', policies, v, hplace, hmember', hkey, hv, hpolicies, rfl⟩
          obtain ⟨rfl, hactor⟩ := joined_eq hu hv hkey hmember hmember' hplace
          rw [hpolicies.agree hagree hseen, EnvoyCall.boundHolder, hactor]
          rfl)
      refine ⟨⟨revision, some u, hjoins, hsome, ?_⟩, hkept⟩
      simp only [envoyAuthority, hspec]
      exact heq
    | union =>
      obtain ⟨heq, hkept⟩ := h.compile
        (o.dmHolder spec.policies (cfg.manifest.memberActor false u) (memberAuthority cfg.manifest false u))
        (o.dmKey revision (memberAuthority cfg.manifest false u))
        ⟨o, spec.policies, u, rfl, hmember, rfl, hu, hseen, rfl⟩ (by
          rintro a ⟨o', policies, v, hplace, hmember', hkey, hv, hpolicies, rfl⟩
          obtain ⟨rfl, hactor⟩ := joined_eq hu hv hkey hmember hmember' hplace
          rw [hpolicies.agree hagree hseen, EnvoyCall.dmHolder, hactor]
          rfl)
      refine ⟨⟨revision, some u, hjoins, hsome, ?_⟩, hkept⟩
      simp only [envoyAuthority, hspec]
      exact congrArg (fun both : Authority G L =>
        { both with limits := cfg.manifest.limits (o.ownHolder spec.policies) }) heq

theorem Kept.resumeEnvoy {phase : EnvoyPhase G L} (h : Kept cfg.manifest db (seen ++ phase.sees o) p)
    (hagree : Agree (seen ++ phase.sees o)) (hphase : phase.Sound cfg.manifest db (seen ++ phase.sees o) o) :
    (resumeEnvoy cfg o p phase).1.Sound cfg.manifest db (seen ++ phase.sees o) o ∧
      Kept cfg.manifest db (seen ++ phase.sees o) (resumeEnvoy cfg o p phase).2 := by
  cases phase with
  | start =>
    simp only [Authorities.resumeEnvoy]
    split
    · exact ⟨trivial, h⟩
    · exact ⟨trivial, h⟩
  | readingSpec => exact ⟨trivial, h⟩
  | readSpec found =>
    cases found with
    | none => exact ⟨trivial, h⟩
    | some spec => exact ⟨trivial, h⟩
  | readingRevision spec => exact ⟨trivial, h⟩
  | readRevision spec revision =>
    cases revision with
    | none => exact ⟨trivial, h⟩
    | some revision =>
      have hseen : SeenAt (seen ++ (EnvoyPhase.readRevision (G := G) (L := L) spec (some revision)).sees o) (o.place revision)
          spec.policies := List.mem_append_right _ (List.mem_singleton.2 rfl)
      obtain ⟨heq, hkept⟩ := h.own hagree hseen
      simp only [Authorities.resumeEnvoy]
      split
      · next id hdm hmember => exact ⟨⟨hdm, hmember, hseen, heq, trivial⟩, hkept⟩
      · next hno =>
        refine ⟨⟨revision, none, nofun, ?_, heq⟩, hkept⟩
        cases hdm : o.dm with
        | false => rfl
        | true =>
          cases hmember : o.member with
          | none => rfl
          | some id => exact absurd hmember (hno id hdm)
  | member spec revision own id phase =>
    obtain ⟨hdm, hmember, hseen, rfl, hinner⟩ := hphase
    obtain ⟨hinner, hkept⟩ := h.resumeMember hinner
    simp only [Authorities.resumeEnvoy]
    split
    · next mine p' heq =>
      rw [heq] at hinner hkept
      exact hkept.joined hagree hdm hmember hseen hinner
    · next phase' p' hno heq =>
      rw [heq] at hinner hkept
      exact ⟨⟨hdm, hmember, hseen, rfl, hinner⟩, hkept⟩
  | done spec authority => exact ⟨hphase, h⟩
  | failed => exact ⟨trivial, h⟩

end

theorem envoyStatement_history (o : EnvoyCall) (db : Db) (phase : EnvoyPhase G L) :
    db.history <+: (envoyStatement o db phase).2.history := by
  cases phase with
  | member spec revision own id phase => exact memberStatement_history id db phase
  | _ => exact List.prefix_refl _

theorem Images.envoyStatement (h : Images db) (o : EnvoyCall) (phase : EnvoyPhase G L) :
    Images (envoyStatement o db phase).2 := by
  cases phase with
  | member spec revision own id phase => exact h.memberStatement id phase
  | _ => exact h

/-- What an envoy's resolution waits to write: its member's party. -/
def EnvoyPhase.writes : EnvoyPhase G L → Option (UserRow × Option Party)
  | .member _ _ _ _ phase => phase.writes
  | _ => none

theorem EnvoyPhase.Sound.statement {seen : List Seen} {o : EnvoyCall} {phase : EnvoyPhase G L}
    (h : phase.Sound m db seen o) (himages : Images db) (hsettled : ∀ w ∈ phase.writes, Settled db w.1 w.2) :
    (envoyStatement o db phase).1.Sound m (envoyStatement o db phase).2 seen o := by
  cases phase with
  | member spec revision own id phase =>
    obtain ⟨hdm, hmember, hseen, hown, hphase⟩ := h
    exact ⟨hdm, hmember, hseen, hown, hphase.statement himages hsettled⟩
  | readingSpec => trivial
  | readingRevision spec => trivial
  | start => trivial
  | readSpec found => trivial
  | readRevision spec revision => trivial
  | done spec authority => exact h
  | failed => trivial

namespace Resolution

/-- What a resolution waits to write. -/
def writes : Resolution G L → Option (UserRow × Option Party)
  | .member _ _ phase => phase.writes
  | .envoy _ phase => phase.writes

def sees : Resolution G L → List Seen
  | .member _ _ _ => []
  | .envoy o phase => phase.sees o

def Sound (m : Manifest G L) (db : Db) (seen : List Seen) : Resolution G L → Prop
  | .member id preview phase => phase.Sound m db preview id
  | .envoy o phase => phase.Sound m db seen o

theorem Sound.mono {seen seen' : List Seen} {r : Resolution G L} (h : r.Sound m db seen)
    (hdb : db.history <+: db'.history) (hseen : seen ⊆ seen') : r.Sound m db' seen' := by
  cases r with
  | member id preview phase => exact MemberPhase.Sound.mono h hdb
  | envoy o phase => exact EnvoyPhase.Sound.mono h hdb hseen

end Resolution

/-- What the steps of a fresh run meet: a `bind` is settled when its statement runs, and an envoy's
spec gives the policies it gave before on the same channel's revision. -/
def Step.Timely (s : Server G L) : Step G L → Prop
  | .statement i => ∀ r ∈ s.resolutions[i]?, ∀ w ∈ r.writes, Settled s.db w.1 w.2
  | .resume i => ∀ r ∈ s.resolutions[i]?, ∀ x ∈ r.sees, ∀ y ∈ s.seen,
      x.envoy = y.envoy → x.channel = y.channel → x.revision = y.revision → x.policies = y.policies
  | _ => True

structure Inv (m : Manifest G L) (s : Server G L) : Prop where
  images : Images s.db
  kept : Kept m s.db s.seen s.process
  agree : Agree s.seen
  resolutions : ∀ r ∈ s.resolutions, r.Sound m s.db s.seen

theorem agree_append {seen : List Seen} {o : EnvoyCall} {phase : EnvoyPhase G L} (h : Agree seen)
    (hsees : ∀ x ∈ phase.sees o, ∀ y ∈ seen, x.envoy = y.envoy → x.channel = y.channel →
      x.revision = y.revision → x.policies = y.policies) : Agree (seen ++ phase.sees o) := by
  have hsingle : ∀ x ∈ phase.sees o, ∀ y ∈ phase.sees o, x = y := by
    intro x hx y hy
    cases phase with
    | readRevision spec revision =>
      cases revision with
      | none => cases hx
      | some revision => rw [List.mem_singleton.1 hx, List.mem_singleton.1 hy]
    | _ => cases hx
  intro x hx y hy henvoy hchannel hrevision
  obtain hx | hx := List.mem_append.1 hx
  · obtain hy | hy := List.mem_append.1 hy
    · exact h x hx y hy henvoy hchannel hrevision
    · exact (hsees y hy x hx henvoy.symm hchannel.symm hrevision.symm).symm
  · obtain hy | hy := List.mem_append.1 hy
    · exact hsees x hx y hy henvoy hchannel hrevision
    · rw [hsingle x hx y hy]

theorem Inv.resume (h : Inv cfg.manifest s) (i : Nat) (ht : Step.Timely s (.resume i : Step G L)) :
    Inv cfg.manifest (s.resume cfg i) := by
  rw [Server.resume]
  cases hr : s.resolutions[i]? with
  | none => exact h
  | some r =>
    have hmem : r ∈ s.resolutions := List.mem_of_getElem? hr
    have hsound := h.resolutions r hmem
    cases r with
    | member id preview phase =>
      obtain ⟨hphase, hkept⟩ := h.kept.resumeMember hsound
      refine ⟨h.images, hkept, h.agree, fun x hx => ?_⟩
      obtain hx | rfl := List.mem_or_eq_of_mem_set hx
      · exact h.resolutions x hx
      · exact hphase
    | envoy o phase =>
      have hagree : Agree (s.seen ++ phase.sees o) := agree_append h.agree (ht _ hr)
      have hseen : s.seen ⊆ s.seen ++ phase.sees o := List.subset_append_left _ _
      obtain ⟨hphase, hkept⟩ := (h.kept.mono (List.prefix_refl _) hseen).resumeEnvoy hagree
        (EnvoyPhase.Sound.mono hsound (List.prefix_refl _) hseen)
      refine ⟨h.images, hkept, hagree, fun x hx => ?_⟩
      obtain hx | rfl := List.mem_or_eq_of_mem_set hx
      · exact (h.resolutions x hx).mono (List.prefix_refl _) hseen
      · exact hphase

theorem Inv.statement (h : Inv m s) (i : Nat) (ht : Step.Timely s (.statement i : Step G L)) :
    Inv m (s.statement i) := by
  rw [Server.statement]
  cases hr : s.resolutions[i]? with
  | none => exact h
  | some r =>
    have hmem : r ∈ s.resolutions := List.mem_of_getElem? hr
    have hsound := h.resolutions r hmem
    have hsettled := ht r hr
    cases r with
    | member id preview phase =>
      have hgrows := memberStatement_history id s.db phase
      refine ⟨h.images.memberStatement id phase, h.kept.mono hgrows (List.Subset.refl _), h.agree,
        fun x hx => ?_⟩
      obtain hx | rfl := List.mem_or_eq_of_mem_set hx
      · exact (h.resolutions x hx).mono hgrows (List.Subset.refl _)
      · exact MemberPhase.Sound.statement hsound h.images hsettled
    | envoy o phase =>
      have hgrows := envoyStatement_history o s.db phase
      refine ⟨h.images.envoyStatement o phase, h.kept.mono hgrows (List.Subset.refl _), h.agree,
        fun x hx => ?_⟩
      obtain hx | rfl := List.mem_or_eq_of_mem_set hx
      · exact (h.resolutions x hx).mono hgrows (List.Subset.refl _)
      · exact EnvoyPhase.Sound.statement hsound h.images hsettled

/-- Rows change under the invariant where the history only grows. -/
theorem Inv.rows (h : Inv m s) (himages : Images db') (hgrows : s.db.history <+: db'.history) :
    Inv m { s with db := db' } :=
  ⟨himages, h.kept.mono hgrows (List.Subset.refl _), h.agree,
    fun r hr => (h.resolutions r hr).mono hgrows (List.Subset.refl _)⟩

theorem Inv.step (h : Inv cfg.manifest s) (a : Step G L) (ht : a.Timely s) : Inv cfg.manifest (s.step cfg a) := by
  have hstart : ∀ r : Resolution G L, r.Sound cfg.manifest s.db s.seen →
      Inv cfg.manifest { s with resolutions := s.resolutions ++ [r] } := by
    intro r hr
    refine ⟨h.images, h.kept, h.agree, fun x hx => ?_⟩
    obtain hx | hx := List.mem_append.1 hx
    · exact h.resolutions x hx
    · rw [List.mem_singleton.1 hx]
      exact hr
  cases a with
  | member id preview => exact hstart _ trivial
  | envoy call => exact hstart _ trivial
  | resume i => exact h.resume i ht
  | statement i => exact h.statement i ht
  | write id change => exact h.rows (h.images.write id change) (s.db.write_history id change)
  | envoyRow id row => exact h.rows ⟨h.images.current, h.images.newest, h.images.distinct⟩ (List.prefix_refl _)
  | channel id envoy revision =>
    exact h.rows ⟨h.images.current, h.images.newest, h.images.distinct⟩ (List.prefix_refl _)
  | records holders => exact h.rows ⟨h.images.current, h.images.newest, h.images.distinct⟩ (List.prefix_refl _)
  | compiled holder text => exact ⟨h.images, h.kept.compiled trivial, h.agree, h.resolutions⟩
  | time ms writes => exact ⟨h.images, ⟨h.kept.cache, h.kept.rows⟩, h.agree, h.resolutions⟩

theorem inv_init (hdistinct : (db.users.map UserRow.id).Nodup) : Inv m (Server.init db : Server G L) := by
  have hone : ∀ u ∈ db.users, ∀ v ∈ db.users, v.id = u.id → v = u := fun u hu v hv hid =>
    List.inj_on_of_nodup_map hdistinct hv hu hid
  have hempty : ∀ {α : Type} {P : α → Prop}, ∀ x ∈ ([] : List α), P x := fun x hx => absurd hx List.not_mem_nil
  refine ⟨⟨fun u hu => ?_, fun v hv u hu hid => ?_, hdistinct⟩, ⟨hempty, hempty⟩, hempty, hempty⟩
  · cases hfind : (Server.init db : Server G L).db.rowAt u.id u.revision with
    | none =>
      have hno := List.find?_eq_none.1 hfind u hu
      simp at hno
    | some v =>
      have hid : v.id = u.id := by
        have hv := List.find?_some hfind
        simp only [Bool.and_eq_true, decide_eq_true_eq] at hv
        exact hv.1
      rw [Known, hfind, hone u hu v (List.mem_of_find?_eq_some hfind) hid]
  · exact Nat.le_of_eq (congrArg UserRow.revision (hone u hu v hv hid))

/-- No authority is stale: a cached member's is compiled from the row at its key's revision, a
resolution of a member answers one compiled from the row at its revision, and a resolution of an
envoy one compiled from the spec it read. -/
structure Fresh (m : Manifest G L) (s : Server G L) : Prop where
  entries : ∀ id revision a, (Key.member id revision, a) ∈ s.process.cache →
    ∃ u, s.db.rowAt id revision = some u ∧ a = memberAuthority m false u
  members : ∀ id preview a, Resolution.member id preview (.done (some a)) ∈ s.resolutions →
    ∃ u, s.db.rowAt id u.revision = some u ∧ a = memberAuthority m preview u
  envoys : ∀ o spec a, Resolution.envoy o (.done spec (some a)) ∈ s.resolutions →
    ∃ revision mine, (∀ u ∈ mine, o.member = some u.id ∧ s.db.rowAt u.id u.revision = some u) ∧
      mine.isSome = (o.dm && o.member.isSome) ∧ a = envoyAuthority m o spec revision mine

theorem Inv.fresh (h : Inv m s) : Fresh m s := by
  refine ⟨fun id revision a ha => ?_, fun id preview a ha => ?_, fun o spec a ha => ?_⟩
  · obtain ⟨u, hkey, hu, rfl⟩ := h.kept.cache _ ha
    have hids : id = u.id ∧ revision = u.revision := by simpa [memberKey] using hkey
    obtain ⟨rfl, rfl⟩ := hids
    exact ⟨u, hu, rfl⟩
  · obtain ⟨u, rfl, hu, rfl⟩ := h.resolutions _ ha
    exact ⟨u, hu, rfl⟩
  · exact h.resolutions _ ha

def run (cfg : Config G L) (db : Db) (steps : List (Step G L)) : Server G L :=
  steps.foldl (fun s a => s.step cfg a) (Server.init db)

/-- No authority is stale in a run in which every `bind` is settled and an envoy's policies change
only with its channel's revision. -/
theorem run_fresh (cfg : Config G L) (db : Db) (hdistinct : (db.users.map UserRow.id).Nodup)
    (steps : List (Step G L))
    (hs : Meets (fun s a => s.step cfg a) (fun s a => a.Timely s) (Server.init db) steps) :
    Fresh cfg.manifest (run cfg db steps) :=
  (hs.invariant (fun _ a h ha => h.step a ha) (inv_init hdistinct)).fresh

/-- The policies of an envoy's authority are those of the spec, and of the member who joins it. -/
theorem envoyAuthority_policies (m : Manifest G L) (o : EnvoyCall) (spec : EnvoySpec) (revision : Nat)
    (mine : Option UserRow) :
    (envoyAuthority m o spec revision mine).policies =
      match mine, spec.dm with
      | some u, .union => ((spec.policies ++ (memberAuthority m false u).policies).eraseDups).filter fun p =>
          m.policies.contains p
      | _, _ => spec.policies.filter fun p => m.policies.contains p := by
  cases mine with
  | none => rfl
  | some u =>
    rw [envoyAuthority]
    cases spec.dm with
    | envoy => rfl
    | union => rfl

instance (s : Server G L) : (a : Step G L) → Decidable (a.Timely s)
  | .statement i => inferInstanceAs (Decidable (∀ r ∈ s.resolutions[i]?, ∀ w ∈ r.writes, Settled s.db w.1 w.2))
  | .resume i => inferInstanceAs (Decidable (∀ r ∈ s.resolutions[i]?, ∀ x ∈ r.sees, ∀ y ∈ s.seen,
      x.envoy = y.envoy → x.channel = y.channel → x.revision = y.revision → x.policies = y.policies))
  | .member _ _ => isTrue trivial
  | .envoy _ => isTrue trivial
  | .write _ _ => isTrue trivial
  | .envoyRow _ _ => isTrue trivial
  | .channel _ _ _ => isTrue trivial
  | .records _ => isTrue trivial
  | .compiled _ _ => isTrue trivial
  | .time _ _ => isTrue trivial

/-- A release whose newcomers are matched to customers by email. -/
def shop : Config Unit Unit where
  manifest :=
    { teams := [("partners", ⟨"Partners", none, ["orders"]⟩)]
      signup := some ⟨[], some ⟨"customer", some "email", none⟩⟩
      envoys := []
      policies := ["orders", "prices", "stock"]
      grants := fun _ => ()
      limits := fun _ => () }
  max := 1000
  remember := true

def partner : UserRow where
  id := "u1"
  email := some "ann@shop.test"
  phone := none
  kind := .external
  active := true
  admin := false
  team := some "partners"
  party := none
  signup := false
  revision := 1

/-- One partner, whose address a customer's record holds, and a helpdesk on a channel. -/
def shopRows : Db where
  users := [partner]
  history := []
  envoys := [("helpdesk", ⟨true, ["prices"], .envoy⟩)]
  channels := [(("ch1", "helpdesk"), 7)]
  holders := fun _ => ["c1"]

/-- The partner leaves the team between the read of the row and the `bind` of its party. -/
def leavesTeam : List (Step Unit Unit) :=
  [.member "u1" false, .resume 0, .statement 0, .resume 0, .statement 0, .resume 0,
    .write "u1" fun u => { u with team := none }, .statement 0, .resume 0]

def helpdesk : EnvoyCall := ⟨"helpdesk", "ch1", "+6581234567", none, false⟩

/-- The helpdesk answers, loses a policy, and answers again. -/
def losesPolicy : List (Step Unit Unit) :=
  [.envoy helpdesk, .resume 0, .statement 0, .resume 0, .statement 0, .resume 0,
    .envoyRow "helpdesk" ⟨true, ["stock"], .envoy⟩,
    .envoy helpdesk, .resume 1, .statement 1, .resume 1, .statement 1, .resume 1]

theorem leavesTeam_stale : ¬ Fresh shop.manifest (run shop shopRows leavesTeam) ∧
    ¬ Fresh shop.manifest (run shop shopRows losesPolicy) := by
  constructor
  · intro h
    obtain ⟨u, hu, ha⟩ := h.entries "u1" 3
      (memberAuthority shop.manifest false { partner with party := some ⟨"customer", "c1", some true⟩, revision := 3 })
      (by decide)
    have hrow : (run shop shopRows leavesTeam).db.rowAt "u1" 3 =
        some { partner with team := none, party := some ⟨"customer", "c1", some true⟩, revision := 3 } := by
      decide
    obtain rfl := Option.some.inj (hrow.symm.trans hu)
    exact absurd ha (by decide)
  · intro h
    obtain ⟨revision, mine, -, hmine, ha⟩ := h.envoys helpdesk ⟨["stock"], .envoy⟩
      (envoyAuthority shop.manifest helpdesk ⟨["prices"], .envoy⟩ 7 none) (by decide)
    have hpolicies := congrArg Authority.policies ha
    rw [envoyAuthority_policies, envoyAuthority_policies] at hpolicies
    cases mine with
    | some u => cases hmine
    | none => exact absurd hpolicies (by decide)

/-- The partner is bound with no other write in between, and a helpdesk answers twice. -/
def boundOnce : List (Step Unit Unit) :=
  [.member "u1" false, .resume 0, .statement 0, .resume 0, .statement 0, .resume 0, .statement 0, .resume 0,
    .write "u1" fun u => { u with team := none },
    .envoy helpdesk, .resume 1, .statement 1, .resume 1, .statement 1, .resume 1]

theorem boundOnce_fresh : (run shop shopRows boundOnce).resolutions.length = 2 ∧
    Fresh shop.manifest (run shop shopRows boundOnce) :=
  ⟨by decide, run_fresh shop shopRows (by decide) boundOnce (by decide)⟩

end Norbital.Bolt.Authorities

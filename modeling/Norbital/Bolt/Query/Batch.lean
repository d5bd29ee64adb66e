import Norbital.Bolt.Query.Engine

/-!
# Batching reads

A batch answers each of its reads as that read alone is answered, over every
snapshot, exactly when no two `get`s merge whose statement the merged one is
not: the merged statement reads the default output, is compiled before the
models open requests held are known, and compiles the selection even where the
key column can hold no id of it.
-/

namespace Norbital.Bolt.Query

open Norbital.Std (Json)
open Placeholders Fallible

section

variable {Select Rest : Type} (e : Engine Select Rest)

namespace Engine

/-- The answer of one read, from its plan. -/
def answerBy (merged : ReadIR Select Rest → Json) (x : ReadIR Select Rest × Option Plan) :
    Except ReadError Json :=
  match x with
  | (ir, none) => do
    e.fit ir (if (merged ir).isNull then [] else [merged ir])
    .ok (merged ir)
  | (_, some (.answer value)) => .ok value
  | (ir, some (.compiled c)) => do
    let rows ← e.db.exec c.sql
    e.finish ir c rows

/-- The results are dealt to the plans that have a statement. -/
theorem answersOf_eq_ok {merged : ReadIR Select Rest → Json} {ps : List (ReadIR Select Rest × Option Plan)}
    {answers : List Json} :
    (∃ results, (ps.filterMap fun p => statementOf p.2).mapM e.db.exec = .ok results ∧
      e.answersOf merged ps results = .ok answers) ↔ ps.mapM (e.answerBy merged) = .ok answers := by
  induction ps generalizing answers with
  | nil => simp [answersOf, pure, Except.pure]
  | cons p rest ih =>
    obtain ⟨ir, plan⟩ := p
    rw [List.mapM_cons, bind_eq_ok]
    match plan with
    | none =>
      simp only [List.filterMap_cons, statementOf, answersOf, answerBy, bind_eq_ok]
      constructor
      · rintro ⟨results, hresults, _, hfit, more, hmore, hanswers⟩
        exact ⟨_, ⟨(), hfit, rfl⟩, more, ih.mp ⟨results, hresults, hmore⟩, hanswers⟩
      · rintro ⟨j, ⟨_, hfit, hj⟩, more, hmore, hanswers⟩
        obtain ⟨results, hresults, hmore⟩ := ih.mpr hmore
        cases hj
        exact ⟨results, hresults, (), hfit, more, hmore, hanswers⟩
    | some (.answer value) =>
      simp only [List.filterMap_cons, statementOf, answersOf, answerBy, bind_eq_ok]
      constructor
      · rintro ⟨results, hresults, more, hmore, hanswers⟩
        exact ⟨_, rfl, more, ih.mp ⟨results, hresults, hmore⟩, hanswers⟩
      · rintro ⟨j, hj, more, hmore, hanswers⟩
        obtain ⟨results, hresults, hmore⟩ := ih.mpr hmore
        cases hj
        exact ⟨results, hresults, more, hmore, hanswers⟩
    | some (.compiled c) =>
      simp only [List.filterMap_cons, statementOf, answerBy, List.mapM_cons, bind_eq_ok]
      constructor
      · rintro ⟨results, ⟨rows, hrows, tail, htail, hresults⟩, hanswers⟩
        cases hresults
        rw [answersOf, bind_eq_ok] at hanswers
        obtain ⟨value, hvalue, hanswers⟩ := hanswers
        rw [bind_eq_ok] at hanswers
        obtain ⟨more, hmore, hanswers⟩ := hanswers
        exact ⟨value, ⟨rows, hrows, hvalue⟩, more, ih.mp ⟨tail, htail, hmore⟩, hanswers⟩
      · rintro ⟨value, ⟨rows, hrows, hvalue⟩, more, hmore, hanswers⟩
        obtain ⟨tail, htail, hmore⟩ := ih.mpr hmore
        refine ⟨rows :: tail, ⟨rows, hrows, tail, htail, rfl⟩, ?_⟩
        rw [answersOf, bind_eq_ok]
        exact ⟨value, hvalue, bind_eq_ok.mpr ⟨more, hmore, hanswers⟩⟩

variable [DecidableEq Select] [DecidableEq Rest]

/-- A read's plan, none of a merged one. -/
def planOf (groups : List (Group Select Rest)) (ir : ReadIR Select Rest) : Except ReadError (Option Plan) :=
  if isMerged groups ir then .ok none else some <$> e.planned ir

/-- What a read of the batch is answered. -/
def answerOf (groups : List (Group Select Rest)) (merged : ReadIR Select Rest → Json) (names : String → Bool)
    (ir : ReadIR Select Rest) : Except ReadError Json := do
  let plan ← e.planOf groups ir
  let answer ← e.answerBy merged (ir, plan)
  e.expose (names ir.model) ir answer

/-- The models whose rows carry the request that holds them, once the batch is planned. -/
def namesOf (groups : List (Group Select Rest)) (irs : List (ReadIR Select Rest)) : String → Bool :=
  if irs.any fun ir => !isMerged groups ir then e.holdable else e.approvals.contains

variable {e} in
theorem namesOf_of_unmerged {groups : List (Group Select Rest)} {irs : List (ReadIR Select Rest)}
    {ir : ReadIR Select Rest} (hir : ir ∈ irs) (hmerged : isMerged groups ir = false) :
    e.namesOf groups irs = e.holdable := by
  rw [namesOf, if_pos]
  exact List.any_eq_true.mpr ⟨ir, hir, by rw [hmerged]; rfl⟩

theorem any_isSome_planOf {groups : List (Group Select Rest)} {irs : List (ReadIR Select Rest)}
    {plans : List (Option Plan)} (h : irs.mapM (e.planOf groups) = .ok plans) :
    plans.any Option.isSome = irs.any fun ir => !isMerged groups ir := by
  rw [mapM_eq_ok] at h
  induction h with
  | nil => rfl
  | @cons ir plan irs plans hplan _ ih =>
    rw [List.any_cons, List.any_cons, ih]
    congr 1
    unfold planOf at hplan
    cases hmerged : isMerged groups ir with
    | true =>
      rw [hmerged] at hplan
      cases hplan
      rfl
    | false =>
      rw [hmerged] at hplan
      obtain ⟨p, -, rfl⟩ := map_eq_ok.mp hplan
      rfl

/-- A batch succeeds with the answers of its reads, given the rows of the merged statements. -/
theorem run_eq_ok {batch : List (ReadIR Select Rest)} {out : List Json} : e.run batch = .ok out ↔
    ∃ rows exposed, ((groupsOf batch.eraseDups).mapM fun g => e.groupSql g >>= e.db.exec) = .ok rows ∧
      batch.eraseDups.mapM (e.answerOf (groupsOf batch.eraseDups) (mergedAt (groupsOf batch.eraseDups) rows)
        (e.namesOf (groupsOf batch.eraseDups) batch.eraseDups)) = .ok exposed ∧
      out = batch.map fun ir => ((batch.eraseDups.zip exposed).lookup ir).getD .null := by
  generalize hirs : batch.eraseDups = irs
  generalize hgroups : groupsOf irs = groups
  have hstatements : ∀ {plans : List (Option Plan)}, irs.mapM (e.planOf groups) = .ok plans →
      (irs.zip plans).filterMap (fun p => statementOf p.2) = plans.filterMap statementOf := by
    intro plans hplans
    have hlen : plans.length ≤ irs.length := (mapM_eq_ok.mp hplans).length_eq.ge
    conv_rhs => rw [← List.map_snd_zip hlen, List.filterMap_map]
    rfl
  have hanswer : ∀ (merged : ReadIR Select Rest → Json) (names : String → Bool) (exposed : List Json),
      irs.mapM (e.answerOf groups merged names) = .ok exposed ↔
        ∃ plans answers, irs.mapM (e.planOf groups) = .ok plans ∧
          (irs.zip plans).mapM (e.answerBy merged) = .ok answers ∧
          ((irs.zip answers).mapM fun x => e.expose (names x.1.model) x.1 x.2) = .ok exposed := by
    intro merged names exposed
    have h : e.answerOf groups merged names = fun ir =>
        (e.planOf groups ir >>= fun plan => e.answerBy merged (ir, plan)) >>= fun a => e.expose (names ir.model) ir a := by
      funext ir
      rw [answerOf, bind_assoc]
    rw [h, ← mapM_zip_eq_ok (g := fun x => e.expose (names x.1.model) x.1 x.2)]
    simp only [← mapM_zip_eq_ok (g := e.answerBy merged)]
    constructor
    · rintro ⟨answers, ⟨plans, hplans, hanswers⟩, hexposed⟩
      exact ⟨plans, answers, hplans, hanswers, hexposed⟩
    · rintro ⟨plans, answers, hplans, hanswers, hexposed⟩
      exact ⟨answers, ⟨plans, hplans, hanswers⟩, hexposed⟩
  simp only [run, hirs, hgroups, bind_eq_ok, readComposed_eq, mapM_append_eq_ok, hanswer]
  constructor
  · rintro ⟨sqls, hsqls, plans, hplans, results, ⟨hresults, hrows⟩, answers, hanswers, exposed, hexposed, hout⟩
    refine ⟨_, exposed, mapM_then_eq_ok.mp ⟨sqls, hsqls, hrows⟩, ⟨plans, answers, hplans, ?_, ?_⟩,
      (Except.ok.inj hout).symm⟩
    · exact e.answersOf_eq_ok.mp ⟨_, (hstatements hplans).symm ▸ hresults, hanswers⟩
    · rw [namesOf, ← e.any_isSome_planOf hplans]
      exact hexposed
  · rintro ⟨rows, exposed, hrows, ⟨plans, answers, hplans, hanswers, hexposed⟩, rfl⟩
    obtain ⟨sqls, hsqls, hrows⟩ := mapM_then_eq_ok.mpr hrows
    obtain ⟨results, hresults, hanswers⟩ := e.answersOf_eq_ok.mpr hanswers
    rw [hstatements hplans] at hresults
    have hlen : (plans.filterMap statementOf).length = results.length := (mapM_eq_ok.mp hresults).length_eq
    refine ⟨sqls, hsqls, plans, hplans, results ++ rows, ?_, answers, ?_, exposed, ?_, rfl⟩
    · rw [hlen, List.take_left, List.drop_left]
      exact ⟨hresults, hrows⟩
    · rw [hlen, List.take_left, List.drop_left]
      exact hanswers
    · rw [e.any_isSome_planOf hplans]
      exact hexposed

/-- What a read alone is answered. -/
def single (ir : ReadIR Select Rest) : Except ReadError Json := do
  let plan ← e.planned ir
  let answer ← e.answerBy (fun _ => .null) (ir, some plan)
  e.expose (e.holdable ir.model) ir answer

theorem answerOf_unmerged {groups : List (Group Select Rest)} {ir : ReadIR Select Rest}
    (h : isMerged groups ir = false) (merged : ReadIR Select Rest → Json) :
    e.answerOf groups merged e.holdable ir = e.single ir := by
  have hplan : e.planOf groups ir = some <$> e.planned ir := by
    rw [planOf, h]
    rfl
  rw [answerOf, single, hplan]
  cases hp : e.planned ir with
  | error err => rfl
  | ok plan =>
    cases plan with
    | answer value => rfl
    | compiled c => rfl

omit [DecidableEq Rest] in
theorem groupsOf_singleton (ir : ReadIR Select Rest) : groupsOf [ir] = [] := by
  rw [groupsOf, List.filter_eq_nil_iff]
  intro g hg
  obtain ⟨k, -, rfl⟩ := List.mem_map.mp hg
  have hlen := List.length_filter_le (fun x : ReadIR Select Rest => decide (x.shape = some k)) [ir]
  simp only [List.length_singleton] at hlen
  simp only [decide_eq_true_eq]
  omega

theorem run_singleton (ir : ReadIR Select Rest) (a : Json) : e.run [ir] = .ok [a] ↔ e.single ir = .ok a := by
  have hdups : [ir].eraseDups = [ir] := by simp [List.eraseDups_cons]
  have hnames : e.namesOf ([] : List (Group Select Rest)) [ir] = e.holdable := rfl
  rw [run_eq_ok, hdups, groupsOf_singleton, hnames]
  constructor
  · rintro ⟨rows, exposed, -, hexposed, hout⟩
    rw [List.mapM_cons, bind_eq_ok] at hexposed
    obtain ⟨value, hvalue, hexposed⟩ := hexposed
    obtain rfl : [value] = exposed := Except.ok.inj hexposed
    rw [e.answerOf_unmerged rfl] at hvalue
    have hvalue' : value = a := by simpa [List.lookup_cons] using hout.symm
    rw [hvalue, hvalue']
  · intro hsingle
    refine ⟨[], [a], rfl, ?_, by simp [List.lookup_cons]⟩
    rw [List.mapM_cons, e.answerOf_unmerged rfl, hsingle]
    rfl

/-- The row of a `get` alone. -/
def rowOf : ReadIR Select Rest → Except ReadError Json
  | .get model output id select =>
    getRow e.src e.db (e.holdable model) model (output.getD DEFAULT_OUTPUT) select id
  | _ => .ok .null

omit [DecidableEq Select] [DecidableEq Rest] in
/-- A `get` alone: its row, which must fit, with what the caller sees beside it. -/
theorem single_get {ir : ReadIR Select Rest} (h : ir.shape.isSome) :
    e.single ir = (e.rowOf ir >>= fun j =>
      e.fit ir (if j.isNull then [] else [j]) >>= fun _ => e.expose (e.holdable ir.model) ir j) := by
  obtain ⟨model, output, id, select⟩ | _ | _ := ir
  rotate_left
  · cases h
  · cases h
  generalize hir : (ReadIR.get model output id select : ReadIR Select Rest) = ir
  have hplan : e.planned ir = (fun sql => Plan.compiled ⟨sql, .one, ""⟩) <$>
      compileGet e.src (e.holdable model) model (output.getD DEFAULT_OUTPUT) id select := by
    rw [← hir]
    rfl
  have hrow : e.rowOf ir = getRow e.src e.db (e.holdable model) model (output.getD DEFAULT_OUTPUT) select id := by
    rw [← hir]
    rfl
  rw [single, hplan, hrow, getRow]
  cases hsql : compileGet e.src (e.holdable model) model (output.getD DEFAULT_OUTPUT) id select with
  | error err => rfl
  | ok sql =>
    show (e.db.exec sql >>= _) >>= _ = (e.db.exec sql >>= _) >>= _
    cases hrows : e.db.exec sql with
    | error err => rfl
    | ok rows =>
      obtain rfl | ⟨r, rfl⟩ := exec_compileGet e.src e.db hsql hrows
      · show (e.finish ir ⟨sql, .one, ""⟩ [] >>= _) = _
        have hfinish : e.finish ir ⟨sql, .one, ""⟩ [] = (e.fit ir [] >>= fun _ => .ok .null) := by
          simp [finish, totalOf, isOver]
        rw [hfinish, bind_assoc]
        rfl
      · show (e.finish ir ⟨sql, .one, ""⟩ [.object r.members] >>= _) = _
        have hfinish : e.finish ir ⟨sql, .one, ""⟩ [.object r.members] =
            (e.fit ir [.object r.members] >>= fun _ => .ok (.object r.members)) := by
          simp [finish, totalOf, isOver, r.unmarked.1, r.unmarked.2]
        rw [hfinish, bind_assoc]
        rfl

end Engine

variable [DecidableEq Select] [DecidableEq Rest]

/-- The read is a `get`, and another one of the batch has its model and selection. -/
def Merges (batch : List (ReadIR Select Rest)) (ir : ReadIR Select Rest) : Prop :=
  ir ∈ batch ∧ ir.shape.isSome ∧ ∃ other ∈ batch, other ≠ ir ∧ other.shape = ir.shape

omit [DecidableEq Rest] in
theorem mem_groupsOf {irs : List (ReadIR Select Rest)} {g : Group Select Rest} : g ∈ groupsOf irs ↔
    (∃ ir ∈ irs, ir.shape = some (g.model, g.select)) ∧
      g.members = irs.filter (·.shape = some (g.model, g.select)) ∧ 2 ≤ g.members.length := by
  rw [groupsOf, List.mem_filter, List.mem_map, decide_eq_true_eq]
  constructor
  · rintro ⟨⟨k, hk, rfl⟩, hlen⟩
    rw [List.mem_eraseDups, List.mem_filterMap] at hk
    exact ⟨hk, rfl, hlen⟩
  · rintro ⟨hk, hmembers, hlen⟩
    refine ⟨⟨(g.model, g.select), ?_, ?_⟩, hlen⟩
    · rw [List.mem_eraseDups, List.mem_filterMap]
      exact hk
    · rw [← hmembers]

theorem nodup_eraseDups {α : Type} [BEq α] [LawfulBEq α] (xs : List α) : xs.eraseDups.Nodup := by
  induction h : xs.length using Nat.strong_induction_on generalizing xs with
  | _ n ih =>
    cases xs with
    | nil => simp
    | cons x xs =>
      rw [List.eraseDups_cons, List.nodup_cons]
      subst h
      refine ⟨by simp [List.mem_eraseDups], ih _ ?_ _ rfl⟩
      exact Nat.lt_succ_of_le (List.length_filter_le _ _)

theorem two_le_length_iff {α : Type} {xs : List α} (h : xs.Nodup) {x : α} (hx : x ∈ xs) :
    2 ≤ xs.length ↔ ∃ y ∈ xs, y ≠ x := by
  match xs with
  | [] => cases hx
  | [a] =>
    obtain rfl := List.mem_singleton.mp hx
    simp
  | a :: b :: xs =>
    refine ⟨fun _ => ?_, fun _ => by simp⟩
    by_cases hax : a = x
    · have hne : a ≠ b := fun hab => (List.nodup_cons.mp h).1 (hab ▸ List.mem_cons_self ..)
      exact ⟨b, by simp, fun hb => hne (hax.trans hb.symm)⟩
    · exact ⟨a, by simp, hax⟩

/-- The reads the engine merges. -/
theorem isMerged_iff {batch : List (ReadIR Select Rest)} {ir : ReadIR Select Rest} :
    isMerged (groupsOf batch.eraseDups) ir = true ↔ Merges batch ir := by
  rw [isMerged, List.any_eq_true]
  simp only [List.contains_iff_mem]
  constructor
  · rintro ⟨g, hg, hir⟩
    obtain ⟨-, hmembers, hlen⟩ := mem_groupsOf.mp hg
    have hmem : ∀ x ∈ g.members, x ∈ batch ∧ x.shape = some (g.model, g.select) := by
      intro x hx
      rw [hmembers, List.mem_filter, List.mem_eraseDups, decide_eq_true_eq] at hx
      exact hx
    have hnodup : g.members.Nodup := hmembers ▸ (nodup_eraseDups batch).filter _
    obtain ⟨other, hother, hne⟩ := (two_le_length_iff hnodup hir).mp hlen
    obtain ⟨hbatch, hshape⟩ := hmem ir hir
    obtain ⟨hother, hshape'⟩ := hmem other hother
    exact ⟨hbatch, by rw [hshape]; rfl, other, hother, hne, hshape'.trans hshape.symm⟩
  · rintro ⟨hbatch, hsome, other, hother, hne, hshape⟩
    obtain ⟨k, hk⟩ := Option.isSome_iff_exists.mp hsome
    have hmem : ∀ x ∈ batch, x.shape = some k → x ∈ batch.eraseDups.filter (·.shape = some k) := by
      intro x hx hshape
      rw [List.mem_filter, List.mem_eraseDups, decide_eq_true_eq]
      exact ⟨hx, hshape⟩
    have hnodup : (batch.eraseDups.filter (·.shape = some k)).Nodup := (nodup_eraseDups batch).filter _
    refine ⟨⟨k.1, k.2, batch.eraseDups.filter (·.shape = some k)⟩, mem_groupsOf.mpr ⟨⟨ir, ?_, hk⟩, rfl, ?_⟩,
      hmem ir hbatch hk⟩
    · exact List.mem_eraseDups.mpr hbatch
    · exact (two_le_length_iff hnodup (hmem ir hbatch hk)).mpr ⟨other, hmem other hother (hshape.trans hk), hne⟩

omit [DecidableEq Select] [DecidableEq Rest] in
theorem eq_get_of_shape {ir : ReadIR Select Rest} {k : String × Select} (h : ir.shape = some k) :
    ∃ output id, ir = .get k.1 output id k.2 := by
  obtain ⟨model, output, id, select⟩ | _ | _ := ir
  · obtain rfl := Option.some.inj h
    exact ⟨output, id, rfl⟩
  · cases h
  · cases h

/-- Another `get` of the read's model and output is compiled by itself. -/
def Started (batch : List (ReadIR Select Rest)) (ir : ReadIR Select Rest) : Prop :=
  ∃ other ∈ batch, ¬ Merges batch other ∧ other.shape.isSome ∧ other.model = ir.model ∧
    other.output.getD DEFAULT_OUTPUT = ir.output.getD DEFAULT_OUTPUT

/-- The merged statements are those of the `get`s they merge: of each group one has an id that the table can
hold, and those that have read the default output of a model that is known as held or is not.  An id that is
none is answered without a row, so of its output only the right to read it shows. -/
structure Unmixed (keys : String → Option String) (approvals held : List String)
    (batch : List (ReadIR Select Rest)) : Prop where
  output : ∀ ir, Merges batch ir → ir.output.getD DEFAULT_OUTPUT = DEFAULT_OUTPUT ∨
    ¬ Holds (keys ir.model) ir.id ∧ Started batch ir
  held : ∀ ir, Merges batch ir → ir.model ∈ held → ir.model ∈ approvals
  reaches : ∀ ir, Merges batch ir → ∃ other ∈ batch, other.shape = ir.shape ∧ Holds (keys ir.model) other.id

/-- A `get` of a model keyed by its fields, which no compiler takes. -/
def Keyless (keys : String → Option String) (batch : List (ReadIR Select Rest)) : Prop :=
  ∃ ir ∈ batch, ir.shape.isSome ∧ keys ir.model = none

namespace Engine

variable {e} {batch : List (ReadIR Select Rest)} {keys : String → Option String}

theorem merges_of_mem {g : Group Select Rest} (hg : g ∈ groupsOf batch.eraseDups) {ir : ReadIR Select Rest}
    (hir : ir ∈ g.members) : Merges batch ir ∧ ir.shape = some (g.model, g.select) := by
  refine ⟨isMerged_iff.mp ?_, ?_⟩
  · rw [isMerged, List.any_eq_true]
    exact ⟨g, hg, List.contains_iff_mem.mpr hir⟩
  · rw [(mem_groupsOf.mp hg).2.1, List.mem_filter, decide_eq_true_eq] at hir
    exact hir.2

omit [DecidableEq Select] [DecidableEq Rest] in
theorem holdable_of_merges (h : Unmixed keys e.approvals e.held batch) {ir : ReadIR Select Rest}
    (hir : Merges batch ir) : e.holdable ir.model = e.approvals.contains ir.model := by
  rw [holdable, Bool.or_eq_left_iff_imp]
  intro hheld
  exact List.contains_iff_mem.mpr (h.held ir hir (List.contains_iff_mem.mp hheld))

/-- The outputs the batch's own `get`s read start. -/
def Starts (e : Engine Select Rest) (batch : List (ReadIR Select Rest)) : Prop :=
  ∀ ir ∈ batch, ¬ Merges batch ir → ir.shape.isSome →
    ∃ c, start e.src ir.model (ir.output.getD DEFAULT_OUTPUT) = .ok c

omit [DecidableEq Select] [DecidableEq Rest] in
/-- An id the table cannot hold has no row, whoever starts the statement. -/
theorem getRow_eq_null (hkeys : e.src.KeyedBy keys) {model output id : String} {flag : Bool} {select : Select}
    {c : e.src.Exposure} (hc : start e.src model output = .ok c) (hid : ¬ Holds (keys model) id) :
    getRow e.src e.db flag model output select id = .ok .null := by
  obtain ⟨huuid, hid⟩ := Classical.not_imp.mp hid
  have hsql : compileGet e.src flag model output id select = .ok ⟨.absent, [], trivial⟩ := by
    rw [compileGet, hc]
    simp only [bind, Except.bind, idType_of_start hkeys hc, huuid]
    rw [if_pos ⟨trivial, by simpa using hid⟩]
  rw [getRow, hsql]
  rfl

omit [DecidableEq Select] [DecidableEq Rest] in
/-- A merged `get` reads the row it reads alone. -/
theorem rowOf_of_merges (hkeys : e.src.KeyedBy keys) (h : Unmixed keys e.approvals e.held batch)
    (hstarts : e.Starts batch) {model id : String} {output : Option String} {select : Select}
    (hir : Merges batch (.get model output id select)) {c : e.src.Exposure}
    (hc : start e.src model DEFAULT_OUTPUT = .ok c) :
    e.rowOf (.get model output id select) =
      getRow e.src e.db (e.approvals.contains model) model DEFAULT_OUTPUT select id := by
  have hheld : e.holdable model = e.approvals.contains model := holdable_of_merges h hir
  obtain houtput | ⟨hid, other, hother, hmerges, hget, hmodel, houtput⟩ := h.output _ hir
  · change output.getD DEFAULT_OUTPUT = DEFAULT_OUTPUT at houtput
    rw [rowOf, houtput, hheld]
  · change ¬ Holds (keys model) id at hid
    obtain ⟨c', hc'⟩ := hstarts other hother hmerges hget
    rw [hmodel, houtput] at hc'
    change start e.src model (output.getD DEFAULT_OUTPUT) = .ok c' at hc'
    rw [rowOf, getRow_eq_null hkeys hc' hid, getRow_eq_null hkeys hc hid]

/-- A merged statement answers the rows of its `get`s. -/
theorem exec_groupSql (hkeys : e.src.KeyedBy keys) (h : Unmixed keys e.approvals e.held batch)
    (hstarts : e.Starts batch) {g : Group Select Rest} (hg : g ∈ groupsOf batch.eraseDups) {rows : List Json} :
    (e.groupSql g >>= e.db.exec) = .ok rows ↔ g.members.mapM e.rowOf = .ok rows := by
  obtain ⟨⟨ir, hir, hshape⟩, hmembers, -⟩ := mem_groupsOf.mp hg
  have hmem : ∀ x ∈ batch, x.shape = some (g.model, g.select) → x ∈ g.members := by
    intro x hx hxshape
    rw [hmembers, List.mem_filter, List.mem_eraseDups, decide_eq_true_eq]
    exact ⟨hx, hxshape⟩
  have hfirst := merges_of_mem hg (hmem ir (List.mem_eraseDups.mp hir) hshape)
  obtain ⟨other, hother, hsame, hid⟩ := h.reaches ir hfirst.1
  have hmodel : ir.model = g.model := by
    obtain ⟨output, id, rfl⟩ := eq_get_of_shape hfirst.2
    rfl
  rw [hmodel] at hid
  have hin := hmem other hother (hsame.trans hshape)
  have hids : ∃ id ∈ g.members.map ReadIR.id, Holds (keys g.model) id :=
    ⟨other.id, List.mem_map_of_mem hin, hid⟩
  -- where the default output of the group's model starts, the rows are the same
  have hrows : ∀ {c}, start e.src g.model DEFAULT_OUTPUT = .ok c → g.members.mapM e.rowOf =
      (g.members.map ReadIR.id).mapM
        (getRow e.src e.db (e.approvals.contains g.model) g.model DEFAULT_OUTPUT g.select) := by
    intro c hc
    rw [List.mapM_map]
    apply mapM_congr
    intro ir hir
    obtain ⟨hmerges, hshape⟩ := merges_of_mem hg hir
    obtain ⟨output, id, rfl⟩ := eq_get_of_shape hshape
    exact rowOf_of_merges hkeys h hstarts hmerges hc
  rw [groupSql, exec_compileGets e.src e.db hkeys hids]
  constructor
  · intro hread
    obtain ⟨j, hj⟩ := mapM_eq_ok_of_mem hread (List.mem_map_of_mem hin)
    obtain ⟨c, _, _, _, hparts⟩ := compiles_of_getRow e.src e.db hkeys hid hj
    rw [hrows hparts.start]
    exact hread
  · intro hread
    -- the read that has an id reads the default output, which therefore starts
    obtain ⟨hmerges, hshape⟩ := merges_of_mem hg hin
    obtain ⟨j, hj⟩ := mapM_eq_ok_of_mem hread hin
    obtain ⟨output, id, rfl⟩ := eq_get_of_shape hshape
    have houtput : output.getD DEFAULT_OUTPUT = DEFAULT_OUTPUT := by
      obtain houtput | ⟨hnone, -⟩ := h.output _ hmerges
      · exact houtput
      · exact absurd hid hnone
    rw [rowOf, houtput] at hj
    obtain ⟨c, _, _, _, hparts⟩ := compiles_of_getRow e.src e.db hkeys hid hj
    rw [← hrows hparts.start]
    exact hread

/-- The row a read finds in its group's answer is what the group's rows are for it. -/
theorem eq_mergedAt {row : ReadIR Select Rest → Except ReadError Json}
    (hrow : ∀ g ∈ groupsOf batch.eraseDups, ∀ {answers : List Json}, (e.groupSql g >>= e.db.exec) = .ok answers →
      g.members.mapM row = .ok answers) {rows : List (List Json)}
    (hrows : ((groupsOf batch.eraseDups).mapM fun g => e.groupSql g >>= e.db.exec) = .ok rows)
    {ir : ReadIR Select Rest} (hir : Merges batch ir) :
    row ir = .ok (mergedAt (groupsOf batch.eraseDups) rows ir) := by
  obtain ⟨g₀, hg₀, hir₀⟩ := List.any_eq_true.mp (isMerged_iff.mpr hir)
  have hall := mapM_eq_ok.mp hrows
  rw [mergedAt]
  cases hfind : ((groupsOf batch.eraseDups).zip rows).find? fun g => g.1.members.contains ir with
  | none =>
    rw [List.find?_eq_none] at hfind
    obtain ⟨i, hi, hget⟩ := List.getElem_of_mem hg₀
    have hi' : i < rows.length := hall.length_eq ▸ hi
    have hzip : (g₀, rows[i]) ∈ (groupsOf batch.eraseDups).zip rows := by
      rw [List.mem_iff_getElem]
      exact ⟨i, by simp [hi, hi'], by simp [hget]⟩
    exact absurd hir₀ (hfind _ hzip)
  | some found =>
    obtain ⟨g, answers⟩ := found
    have hmem := List.mem_of_find?_eq_some hfind
    have htest := List.find?_some hfind
    have hcontains : ir ∈ g.members := List.contains_iff_mem.mp htest
    have hg : g ∈ groupsOf batch.eraseDups := (List.of_mem_zip hmem).1
    have hanswers := mapM_eq_ok.mp (hrow g hg (List.forall₂_zip hall hmem))
    have hindex : g.members.idxOf ir < g.members.length := List.idxOf_lt_length_iff.mpr hcontains
    have hindex' : g.members.idxOf ir < answers.length := hanswers.length_eq ▸ hindex
    have hanswer := hanswers.get hindex hindex'
    rw [List.get_eq_getElem, List.get_eq_getElem, List.getElem_idxOf] at hanswer
    rw [hanswer]
    dsimp only
    rw [List.getElem?_eq_getElem hindex']
    rfl

/-- A read of such a batch is answered as it is alone. -/
theorem answerOf_eq_single (hkeys : e.src.KeyedBy keys) (h : Unmixed keys e.approvals e.held batch)
    (hstarts : e.Starts batch) {rows : List (List Json)}
    (hrows : ((groupsOf batch.eraseDups).mapM fun g => e.groupSql g >>= e.db.exec) = .ok rows)
    {ir : ReadIR Select Rest} (hir : ir ∈ batch.eraseDups) :
    e.answerOf (groupsOf batch.eraseDups) (mergedAt (groupsOf batch.eraseDups) rows)
      (e.namesOf (groupsOf batch.eraseDups) batch.eraseDups) ir = e.single ir := by
  cases hmerged : isMerged (groupsOf batch.eraseDups) ir with
  | false =>
    rw [namesOf_of_unmerged hir hmerged]
    exact e.answerOf_unmerged hmerged _
  | true =>
    have hmerges := isMerged_iff.mp hmerged
    have hnames : e.namesOf (groupsOf batch.eraseDups) batch.eraseDups ir.model = e.holdable ir.model := by
      rw [namesOf]
      split_ifs
      · rfl
      · exact (holdable_of_merges h hmerges).symm
    have hplan : e.planOf (groupsOf batch.eraseDups) ir = .ok none := by
      rw [planOf, hmerged]
      rfl
    rw [answerOf, hplan, e.single_get hmerges.2.1,
      eq_mergedAt (fun g hg _ => (exec_groupSql hkeys h hstarts hg).mp) hrows hmerges, hnames]
    show (e.fit ir _ >>= _) >>= _ = e.fit ir _ >>= _
    rw [bind_assoc]
    rfl

omit [DecidableEq Select] [DecidableEq Rest] in
/-- A `get` that is answered has started, and its model has an `id` column. -/
theorem start_of_rowOf {ir : ReadIR Select Rest} (hget : ir.shape.isSome) {j : Json} (h : e.rowOf ir = .ok j) :
    ∃ c, start e.src ir.model (ir.output.getD DEFAULT_OUTPUT) = .ok c ∧ (e.src.idType c).isSome := by
  obtain ⟨k, hk⟩ := Option.isSome_iff_exists.mp hget
  obtain ⟨output, id, rfl⟩ := eq_get_of_shape hk
  rw [rowOf, getRow, bind_eq_ok] at h
  obtain ⟨sql, hsql, -⟩ := h
  rw [compileGet, bind_eq_ok] at hsql
  obtain ⟨c, hc, hsql⟩ := hsql
  refine ⟨c, hc, ?_⟩
  split at hsql
  next => cases hsql
  next pg hpg => rw [hpg]; rfl

omit [DecidableEq Select] [DecidableEq Rest] in
theorem start_of_single {ir : ReadIR Select Rest} (hget : ir.shape.isSome) {a : Json} (h : e.single ir = .ok a) :
    ∃ c, start e.src ir.model (ir.output.getD DEFAULT_OUTPUT) = .ok c ∧ (e.src.idType c).isSome := by
  rw [e.single_get hget, bind_eq_ok] at h
  obtain ⟨j, hj, -⟩ := h
  exact start_of_rowOf hget hj

/-- An answered batch has answered the reads it did not merge, each as that read alone. -/
theorem single_of_run {rows : List (List Json)} {exposed : List Json}
    (hexposed : batch.eraseDups.mapM (e.answerOf (groupsOf batch.eraseDups) (mergedAt (groupsOf batch.eraseDups) rows)
      (e.namesOf (groupsOf batch.eraseDups) batch.eraseDups)) = .ok exposed) {ir : ReadIR Select Rest}
    (hir : ir ∈ batch) (hmerges : ¬ Merges batch ir) : ∃ a, e.single ir = .ok a := by
  have hmem := List.mem_eraseDups.mpr hir
  have hmerged : isMerged (groupsOf batch.eraseDups) ir = false :=
    Bool.eq_false_iff.mpr fun h => hmerges (isMerged_iff.mp h)
  obtain ⟨a, ha⟩ := mapM_eq_ok_of_mem hexposed hmem
  rw [namesOf_of_unmerged hmem hmerged, e.answerOf_unmerged hmerged] at ha
  exact ⟨a, ha⟩

/-- Such a batch answers each of its reads as that read alone is answered. -/
theorem run_eq_ok_of_unmixed (hkeys : e.src.KeyedBy keys) (h : Unmixed keys e.approvals e.held batch)
    {out : List Json} : e.run batch = .ok out ↔ batch.mapM e.single = .ok out := by
  rw [run_eq_ok, ← mapM_eraseDups_eq_ok .null]
  constructor
  · rintro ⟨rows, exposed, hrows, hexposed, rfl⟩
    have hstarts : e.Starts batch := by
      intro ir hir hmerges hget
      obtain ⟨a, ha⟩ := single_of_run hexposed hir hmerges
      obtain ⟨c, hc, -⟩ := start_of_single hget ha
      exact ⟨c, hc⟩
    rw [mapM_congr fun ir hir => answerOf_eq_single hkeys h hstarts hrows hir] at hexposed
    exact ⟨exposed, hexposed, rfl⟩
  · rintro ⟨exposed, hexposed, rfl⟩
    have hstarts : e.Starts batch := by
      intro ir hir _ hget
      obtain ⟨a, ha⟩ := mapM_eq_ok_of_mem hexposed (List.mem_eraseDups.mpr hir)
      obtain ⟨c, hc, -⟩ := start_of_single hget ha
      exact ⟨c, hc⟩
    obtain ⟨rows, hrows⟩ : ∃ rows,
        ((groupsOf batch.eraseDups).mapM fun g => e.groupSql g >>= e.db.exec) = .ok rows := by
      refine exists_mapM_eq_ok fun g hg => ?_
      have hmembers : ∀ ir ∈ g.members, ∃ j, e.rowOf ir = .ok j := by
        intro ir hir
        obtain ⟨hmerges, -⟩ := merges_of_mem hg hir
        obtain ⟨a, ha⟩ := mapM_eq_ok_of_mem hexposed (List.mem_eraseDups.mpr hmerges.1)
        rw [e.single_get hmerges.2.1, bind_eq_ok] at ha
        obtain ⟨j, hj, -⟩ := ha
        exact ⟨j, hj⟩
      obtain ⟨answers, hanswers⟩ := exists_mapM_eq_ok hmembers
      exact ⟨answers, (exec_groupSql hkeys h hstarts hg).mpr hanswers⟩
    refine ⟨rows, exposed, hrows, ?_, rfl⟩
    rw [mapM_congr fun ir hir => answerOf_eq_single hkeys h hstarts hrows hir]
    exact hexposed

/-- A batch with a `get` of a model keyed by its fields is refused, and so is that `get`. -/
theorem run_eq_ok_of_keyless (hkeys : e.src.KeyedBy keys) (h : Keyless keys batch) {out : List Json} :
    e.run batch = .ok out ↔ batch.mapM e.single = .ok out := by
  obtain ⟨ir, hir, hget, hkey⟩ := h
  have hnone : ∀ {c output}, start e.src ir.model output = .ok c → ¬ (e.src.idType c).isSome := by
    intro c output hc
    rw [idType_of_start hkeys hc, hkey]
    exact Bool.false_ne_true
  constructor
  · intro hrun
    exfalso
    obtain ⟨rows, exposed, hrows, hexposed, -⟩ := e.run_eq_ok.mp hrun
    by_cases hmerges : Merges batch ir
    · obtain ⟨g, hg, hcontains⟩ := List.any_eq_true.mp (isMerged_iff.mpr hmerges)
      obtain ⟨answers, hanswers⟩ := mapM_eq_ok_of_mem hrows hg
      obtain ⟨sql, hsql, -⟩ := bind_eq_ok.mp hanswers
      obtain ⟨c, pg, _, _, hparts⟩ := compiles_of_compileGets _ hsql
      obtain ⟨-, hshape⟩ := merges_of_mem hg (List.contains_iff_mem.mp hcontains)
      obtain ⟨output, id, rfl⟩ := eq_get_of_shape hshape
      refine hnone hparts.start ?_
      rw [hparts.idType]
      rfl
    · obtain ⟨a, ha⟩ := single_of_run hexposed hir hmerges
      obtain ⟨c, hc, hsome⟩ := start_of_single hget ha
      exact hnone hc hsome
  · intro halone
    obtain ⟨a, ha⟩ := mapM_eq_ok_of_mem halone hir
    obtain ⟨c, hc, hsome⟩ := start_of_single hget ha
    exact absurd hsome (hnone hc)

/-- Batching changes no answer: the batch succeeds exactly when each of its reads alone does, and then with
their answers in their places. -/
def Alike (e : Engine Select Rest) (batch : List (ReadIR Select Rest)) : Prop :=
  ∀ out, e.run batch = .ok out ↔ List.Forall₂ (fun ir a => e.run [ir] = .ok [a]) batch out

theorem alike_iff_single : e.Alike batch ↔ ∀ out, e.run batch = .ok out ↔ batch.mapM e.single = .ok out := by
  simp only [Alike, mapM_eq_ok, run_singleton]

/-- The row of a `get` as its merged statement reads it. -/
def mergedRow (e : Engine Select Rest) : ReadIR Select Rest → Except ReadError Json
  | .get model _ id select =>
    getRow e.src e.db (e.approvals.contains model) model DEFAULT_OUTPUT select id
  | _ => .ok .null

theorem mergedRow_of_exec {g : Group Select Rest} (hg : g ∈ groupsOf batch.eraseDups) {answers : List Json}
    (h : (e.groupSql g >>= e.db.exec) = .ok answers) : g.members.mapM e.mergedRow = .ok answers := by
  have hrows := getRow_of_exec_compileGets e.src e.db h
  rw [List.mapM_map] at hrows
  rw [← hrows]
  apply mapM_congr
  intro ir hir
  obtain ⟨-, hshape⟩ := merges_of_mem hg hir
  obtain ⟨model, output, id, select⟩ | _ | _ := ir
  · obtain ⟨rfl, rfl⟩ : model = g.model ∧ select = g.select := by simpa [ReadIR.shape] using hshape
    rfl
  · cases hshape
  · cases hshape

/-- A batch that is answered answers a merged read by its merged row. -/
theorem mergedRow_of_run {out : List Json} (hrun : e.run batch = .ok out) {ir : ReadIR Select Rest}
    (hir : Merges batch ir) (halike : e.Alike batch) :
    ∃ a j names, e.single ir = .ok a ∧ e.mergedRow ir = .ok j ∧ e.expose names ir j = .ok a := by
  have hsingle := (alike_iff_single.mp halike out).mp hrun
  obtain ⟨rows, exposed, hrows, hexposed, rfl⟩ := e.run_eq_ok.mp hrun
  rw [mapM_eq_ok, List.forall₂_map_right_iff, List.forall₂_same] at hsingle
  have hmem := List.mem_eraseDups.mpr hir.1
  obtain ⟨a, hlookup, ha⟩ := lookup_zip hexposed hmem
  have halone := hsingle ir hir.1
  rw [hlookup] at halone
  have hplan : e.planOf (groupsOf batch.eraseDups) ir = .ok none := by
    rw [planOf, isMerged_iff.mpr hir]
    rfl
  rw [answerOf, hplan] at ha
  obtain ⟨plan, hp, ha⟩ := bind_eq_ok.mp ha
  obtain rfl := Except.ok.inj hp
  obtain ⟨j, hj, ha⟩ := bind_eq_ok.mp ha
  obtain ⟨_, -, hj⟩ := bind_eq_ok.mp hj
  obtain rfl := Except.ok.inj hj
  exact ⟨a, _, _, halone, eq_mergedAt (fun g hg _ => mergedRow_of_exec hg) hrows hir, ha⟩

end Engine

/-- Columns that say nothing, and columns of one character. -/
def columns (marked : Bool) : Part where
  text := if marked then ['x'] else []
  params := []
  within := by
    intro n hn
    cases marked <;> simp [tokens, scan] at hn

/-- A row that shows whether its columns say something. -/
def shown (marked : Bool) (id : String) : Json := .object [("id", .string id), ("marked", .bool marked)]

theorem shown_injective {a b : Bool} {id : String} (h : shown a id = shown b id) : a = b := by
  simpa [shown] using h

/-- An engine whose columns are marked by the read, and whose reader holds some outputs. -/
def probe (keys : String → Option String) (approvals held : List String) (grants : String → String → Bool)
    (mark : String → String → Select → Bool → Except ReadError Bool) : Engine Select Rest where
  src :=
    { Exposure := String × String
      exposureOf := fun model output => .ok (model, output)
      granted := grants
      name := Prod.fst
      table := Prod.fst
      idType := fun c => keys c.1
      root := fun c select held => columns <$> mark c.1 c.2 select held
      scope := fun _ => .ok none }
  db :=
    { row := fun columns _ _ id =>
        .ok (some ⟨[("id", .string id), ("marked", .bool !columns.isEmpty)], by simp [OVER, TOTAL, List.lookup_cons]⟩)
      rows := fun _ => .ok [] }
  plan := fun _ _ => .ok (.answer .null)
  armsFit := fun _ _ => .ok ()
  encodeCursor := fun _ j => j
  syncState := fun _ _ => .ok none
  rowApproval := fun _ => none
  allBytes := 0
  approvals := approvals
  held := held

section

variable {keys : String → Option String} {approvals held : List String} {grants : String → String → Bool}
  {mark : String → String → Select → Bool → Except ReadError Bool}

omit [DecidableEq Select] [DecidableEq Rest] in
theorem keyedBy_probe : (probe keys approvals held grants mark : Engine Select Rest).src.KeyedBy keys := by
  rintro model output c hc
  obtain rfl := Except.ok.inj hc
  rfl

omit [DecidableEq Select] [DecidableEq Rest] in
theorem start_probe {model output : String} (h : grants model output = true) :
    start (probe keys approvals held grants mark : Engine Select Rest).src model output = .ok (model, output) := by
  show (if grants model output = true then _ else _) = _
  rw [if_pos h]

omit [DecidableEq Select] [DecidableEq Rest] in
theorem compiles_probe {flag : Bool} {model output pg : String} {select : Select} {marked : Bool}
    (hkey : keys model = some pg) (hgrant : grants model output = true)
    (hmark : mark model output select flag = .ok marked) :
    Compiles (probe keys approvals held grants mark : Engine Select Rest).src flag model output select (model, output)
      pg (columns marked) none := by
  refine ⟨start_probe hgrant, hkey, ?_, rfl, by simp [columns, LIMIT]⟩
  show columns <$> mark model output select flag = _
  rw [hmark]
  rfl

omit [DecidableEq Select] [DecidableEq Rest] in
theorem getRow_probe {flag : Bool} {model output pg id : String} {select : Select} {marked : Bool}
    (hkey : keys model = some pg) (hgrant : grants model output = true) (hid : Holds (keys model) id)
    (hmark : mark model output select flag = .ok marked) :
    getRow (probe keys approvals held grants mark : Engine Select Rest).src
      (probe keys approvals held grants mark : Engine Select Rest).db flag model output select id =
        .ok (shown marked id) := by
  have hreaches : pg ≠ "uuid" ∨ isUuid id := by
    rw [← imp_iff_not_or]
    rintro rfl
    exact hid hkey
  rw [(compiles_probe hkey hgrant hmark).getRow_eq, if_pos hreaches]
  cases marked <;> rfl

omit [DecidableEq Select] [DecidableEq Rest] in
/-- The probe hands its rows out as they are. -/
theorem expose_probe (names : Bool) (model : String) (output : Option String) (id : String) (select : Select)
    (marked : Bool) : (probe keys approvals held grants mark : Engine Select Rest).expose names
      (.get model output id select) (shown marked id) = .ok (shown marked id) := by
  cases names <;> rfl

omit [DecidableEq Select] [DecidableEq Rest] in
theorem exists_expose_probe (names : Bool) {ir : ReadIR Select Rest} (hget : ir.shape.isSome) (j : Json) :
    ∃ a, (probe keys approvals held grants mark : Engine Select Rest).expose names ir j = .ok a := by
  obtain ⟨k, hk⟩ := Option.isSome_iff_exists.mp hget
  obtain ⟨output, id, rfl⟩ := eq_get_of_shape hk
  cases j <;> exact ⟨_, rfl⟩

omit [DecidableEq Select] [DecidableEq Rest] in
theorem single_probe_get {model id pg : String} {output : Option String} {select : Select} {marked : Bool}
    (hkey : keys model = some pg) (hgrant : grants model (output.getD DEFAULT_OUTPUT) = true)
    (hid : Holds (keys model) id) (hmark : mark model (output.getD DEFAULT_OUTPUT) select
      ((probe keys approvals held grants mark : Engine Select Rest).holdable model) = .ok marked) :
    (probe keys approvals held grants mark : Engine Select Rest).single (.get model output id select) =
      .ok (shown marked id) := by
  rw [Engine.single_get _ rfl, Engine.rowOf, getRow_probe hkey hgrant hid hmark]
  exact expose_probe _ model output id select marked

omit [DecidableEq Select] [DecidableEq Rest] in
/-- An id that is none is answered before the selection is compiled. -/
theorem single_probe_absent {model id : String} {output : Option String} (select : Select)
    (hgrant : grants model (output.getD DEFAULT_OUTPUT) = true) (hid : ¬ Holds (keys model) id) :
    (probe keys approvals held grants mark : Engine Select Rest).single (.get model output id select) =
      .ok .null := by
  rw [Engine.single_get _ rfl, Engine.rowOf, Engine.getRow_eq_null keyedBy_probe (start_probe hgrant) hid]
  rfl

omit [DecidableEq Select] [DecidableEq Rest] in
theorem single_probe_other {ir : ReadIR Select Rest} (h : ir.shape = none) :
    (probe keys approvals held grants mark : Engine Select Rest).single ir = .ok .null := by
  obtain ⟨model, output, id, select⟩ | _ | _ := ir
  · cases h
  · rfl
  · rfl

omit [DecidableEq Select] [DecidableEq Rest] in
/-- Of a model with an `id` column a `get` of an output the reader holds is answered, where its selection compiles
or its id is none. -/
theorem exists_single_probe {batch : List (ReadIR Select Rest)} (hkeyed : ¬ Keyless keys batch)
    {ir : ReadIR Select Rest} (hir : ir ∈ batch)
    (hgrant : ir.shape.isSome → grants ir.model (ir.output.getD DEFAULT_OUTPUT) = true)
    (hmark : ∀ {model output id select}, ir = .get model output id select → Holds (keys model) id →
      ∃ marked, mark model (output.getD DEFAULT_OUTPUT) select
        ((probe keys approvals held grants mark : Engine Select Rest).holdable model) = .ok marked) :
    ∃ a, (probe keys approvals held grants mark : Engine Select Rest).single ir = .ok a := by
  cases hshape : ir.shape with
  | none => exact ⟨_, single_probe_other hshape⟩
  | some k =>
    obtain ⟨output, id, rfl⟩ := eq_get_of_shape hshape
    obtain ⟨pg, hkey⟩ := Option.ne_none_iff_exists'.mp fun hnone => hkeyed ⟨_, hir, rfl, hnone⟩
    by_cases hid : Holds (keys k.1) id
    · obtain ⟨marked, hmark⟩ := hmark rfl hid
      exact ⟨_, single_probe_get hkey (hgrant rfl) hid hmark⟩
    · exact ⟨_, single_probe_absent k.2 (hgrant rfl) hid⟩

/-- A batch is answered where its reader holds what the merged statements and the other `get`s read. -/
theorem exists_run_probe {batch : List (ReadIR Select Rest)} (hkeyed : ¬ Keyless keys batch)
    (hmerged : ∀ ir, Merges batch ir → grants ir.model DEFAULT_OUTPUT = true)
    (hother : ∀ ir ∈ batch, ¬ Merges batch ir → ir.shape.isSome →
      grants ir.model (ir.output.getD DEFAULT_OUTPUT) = true) :
    ∃ out, (probe keys approvals held grants fun _ _ _ _ => .ok false : Engine Select Rest).run batch = .ok out := by
  obtain ⟨rows, hrows⟩ : ∃ rows, ((groupsOf batch.eraseDups).mapM fun g =>
      (probe keys approvals held grants fun _ _ _ _ => .ok false : Engine Select Rest).groupSql g >>=
        (probe keys approvals held grants fun _ _ _ _ => .ok false : Engine Select Rest).db.exec) = .ok rows := by
    refine exists_mapM_eq_ok fun g hg => ?_
    obtain ⟨⟨ir, hir, hshape⟩, hmembers, -⟩ := mem_groupsOf.mp hg
    have hin : ir ∈ g.members := by
      rw [hmembers, List.mem_filter, decide_eq_true_eq]
      exact ⟨hir, hshape⟩
    have hgrant := hmerged ir (Engine.merges_of_mem hg hin).1
    obtain ⟨output, id, rfl⟩ := eq_get_of_shape hshape
    change grants g.model DEFAULT_OUTPUT = true at hgrant
    obtain ⟨pg, hkey⟩ : ∃ pg, keys g.model = some pg := Option.ne_none_iff_exists'.mp fun hnone =>
      hkeyed ⟨_, List.mem_eraseDups.mp hir, rfl, hnone⟩
    rw [Engine.groupSql, (compiles_probe hkey hgrant rfl).exec_compileGets]
    refine exists_mapM_eq_ok fun id _ => ?_
    split_ifs
    · exact ⟨_, rfl⟩
    · exact ⟨_, rfl⟩
  obtain ⟨exposed, hexposed⟩ : ∃ exposed, batch.eraseDups.mapM
      ((probe keys approvals held grants fun _ _ _ _ => .ok false : Engine Select Rest).answerOf
        (groupsOf batch.eraseDups) (mergedAt (groupsOf batch.eraseDups) rows)
        ((probe keys approvals held grants fun _ _ _ _ => .ok false : Engine Select Rest).namesOf
          (groupsOf batch.eraseDups) batch.eraseDups)) = .ok exposed := by
    refine exists_mapM_eq_ok fun ir hir => ?_
    have hmem := List.mem_eraseDups.mp hir
    cases hmerges : isMerged (groupsOf batch.eraseDups) ir with
    | true =>
      have hplan : (probe keys approvals held grants fun _ _ _ _ => .ok false : Engine Select Rest).planOf
          (groupsOf batch.eraseDups) ir = .ok none := by
        rw [Engine.planOf, hmerges]
        rfl
      rw [Engine.answerOf, hplan]
      have hget := (isMerged_iff.mp hmerges).2.1
      obtain ⟨k, hk⟩ := Option.isSome_iff_exists.mp hget
      obtain ⟨output, id, rfl⟩ := eq_get_of_shape hk
      exact exists_expose_probe _ hget _
    | false =>
      rw [Engine.namesOf_of_unmerged hir hmerges, Engine.answerOf_unmerged _ hmerges]
      have hnot : ¬ Merges batch ir := fun h => by
        rw [isMerged_iff.mpr h] at hmerges
        cases hmerges
      exact exists_single_probe hkeyed hmem (hother ir hmem hnot) fun _ _ => ⟨false, rfl⟩
  exact ⟨_, (Engine.run_eq_ok _).mpr ⟨rows, exposed, hrows, hexposed, rfl⟩⟩

/-- The probes see what is not unmixed. -/
theorem unmixed_of_alike {batch : List (ReadIR Select Rest)} (hkeyed : ¬ Keyless keys batch)
    (h : ∀ e : Engine Select Rest, e.src.KeyedBy keys → e.approvals = approvals → e.held = held → e.Alike batch) :
    Unmixed keys approvals held batch := by
  have halike : ∀ grants mark, (probe keys approvals held grants mark : Engine Select Rest).Alike batch :=
    fun grants mark => h _ keyedBy_probe rfl rfl
  -- a probe all of whose reads alone succeed answers the batch
  have hruns : ∀ mark, (∀ ir ∈ batch, ∃ a,
        (probe keys approvals held (fun _ _ => true) mark : Engine Select Rest).single ir = .ok a) →
      ∃ out, (probe keys approvals held (fun _ _ => true) mark).run batch = .ok out := by
    intro mark hall
    obtain ⟨out, hout⟩ := exists_mapM_eq_ok hall
    exact ⟨out, (Engine.alike_iff_single.mp (halike _ mark) out).mpr hout⟩
  have hkeyOf : ∀ {k : String × Select} {output id}, .get k.1 output id k.2 ∈ batch → ∃ pg, keys k.1 = some pg :=
    fun hir => Option.ne_none_iff_exists'.mp fun hnone => hkeyed ⟨_, hir, rfl, hnone⟩
  -- a probe that marks every read is answered, and a merged read must be marked as it is alone
  have hmarks : ∀ (mark : String → String → Select → Bool → Bool) {k : String × Select} {output id},
      Merges batch (.get k.1 output id k.2 : ReadIR Select Rest) → Holds (keys k.1) id →
      mark k.1 (output.getD DEFAULT_OUTPUT) k.2 (approvals.contains k.1 || held.contains k.1) =
        mark k.1 DEFAULT_OUTPUT k.2 (approvals.contains k.1) := by
    intro mark k output id hir hid
    obtain ⟨out, hout⟩ := hruns (fun m o s b => .ok (mark m o s b)) fun ir hmem =>
      exists_single_probe hkeyed hmem (fun _ => rfl) fun _ _ => ⟨_, rfl⟩
    obtain ⟨pg, hkey⟩ := hkeyOf hir.1
    obtain ⟨a, j, names, ha, hj, hexpose⟩ := Engine.mergedRow_of_run hout hir (halike _ _)
    rw [single_probe_get hkey rfl hid rfl] at ha
    rw [Engine.mergedRow, getRow_probe hkey rfl hid rfl] at hj
    obtain rfl := Except.ok.inj hj
    rw [expose_probe] at hexpose
    rw [← hexpose] at ha
    exact shown_injective (Except.ok.inj ha)
  have hreaches : ∀ ir, Merges batch ir →
      ∃ other ∈ batch, other.shape = ir.shape ∧ Holds (keys ir.model) other.id := by
    intro ir hir
    by_contra hno
    push Not at hno
    obtain ⟨k, hk⟩ := Option.isSome_iff_exists.mp hir.2.1
    obtain ⟨out, hout⟩ := hruns
      (fun m _ s _ => if (m, s) = k then .error ⟨"forbidden", "admission", ""⟩ else .ok false) fun other hmem =>
        exists_single_probe hkeyed hmem (fun _ => rfl) fun {model output id select} hget hid => by
          refine ⟨false, if_neg ?_⟩
          rintro rfl
          subst hget
          obtain ⟨output', id', rfl⟩ := eq_get_of_shape hk
          exact hno _ hmem rfl hid
    obtain ⟨rows, exposed, hrows, -⟩ := (Engine.run_eq_ok _).mp hout
    obtain ⟨g, hg, hcontains⟩ := List.any_eq_true.mp (isMerged_iff.mpr hir)
    obtain ⟨answers, hanswers⟩ := mapM_eq_ok_of_mem hrows hg
    obtain ⟨sql, hsql, -⟩ := bind_eq_ok.mp hanswers
    obtain ⟨c, pg, cols, filter, hparts⟩ := compiles_of_compileGets _ hsql
    have hc : c = (g.model, DEFAULT_OUTPUT) := (Except.ok.inj hparts.start).symm
    have hshape := (Engine.merges_of_mem hg (List.contains_iff_mem.mp hcontains)).2
    have hkey : (g.model, g.select) = k := Option.some.inj (hshape.symm.trans hk)
    have hroot := hparts.root
    subst hc
    change columns <$> (if (g.model, g.select) = k then _ else _) = _ at hroot
    rw [if_pos hkey] at hroot
    cases hroot
  refine ⟨fun ir hir => ?_, fun ir hir hheld => ?_, hreaches⟩
  · obtain ⟨k, hk⟩ := Option.isSome_iff_exists.mp hir.2.1
    obtain ⟨output, id, rfl⟩ := eq_get_of_shape hk
    by_cases hid : Holds (keys k.1) id
    · have := hmarks (fun _ o _ _ => decide (o = DEFAULT_OUTPUT)) hir hid
      left
      show output.getD DEFAULT_OUTPUT = DEFAULT_OUTPUT
      simpa using this
    · by_contra hno
      push Not at hno
      obtain ⟨hdefault, hunstarted⟩ := hno
      -- a reader who does not hold this output is refused it alone, and in no statement of the batch
      let grants := fun m o => !(m == k.1 && o == output.getD DEFAULT_OUTPUT)
      obtain ⟨out, hout⟩ : ∃ out, (probe keys approvals held grants fun _ _ _ _ => .ok false).run batch = .ok out := by
        apply exists_run_probe hkeyed
        · intro other _
          have hne : ¬ DEFAULT_OUTPUT = output.getD DEFAULT_OUTPUT := fun heq => hdefault heq.symm
          simp [grants, hne]
        · intro other hother hmerges hget
          rw [Bool.not_eq_true', Bool.and_eq_false_imp]
          intro hmodel
          exact beq_false_of_ne fun houtput =>
            hunstarted hid ⟨other, hother, hmerges, hget, eq_of_beq hmodel, houtput⟩
      have halone := (Engine.alike_iff_single.mp (halike _ _) out).mp hout
      obtain ⟨a, ha⟩ := mapM_eq_ok_of_mem halone hir.1
      obtain ⟨c, hc, -⟩ := Engine.start_of_single rfl ha
      change (if (!(k.1 == k.1 && output.getD DEFAULT_OUTPUT == output.getD DEFAULT_OUTPUT)) = true then _ else _) =
        Except.ok c at hc
      simp at hc
  · obtain ⟨other, hother, hshape, hid⟩ := hreaches ir hir
    obtain ⟨k, hk⟩ := Option.isSome_iff_exists.mp hir.2.1
    obtain ⟨output, id, rfl⟩ := eq_get_of_shape hk
    obtain ⟨output', id', rfl⟩ := eq_get_of_shape (hshape.trans hk)
    have hmerges : Merges batch (.get k.1 output' id' k.2 : ReadIR Select Rest) := by
      by_cases hsame : (.get k.1 output id k.2 : ReadIR Select Rest) = .get k.1 output' id' k.2
      · exact hsame ▸ hir
      · exact ⟨hother, rfl, _, hir.1, hsame, rfl⟩
    have := hmarks (fun _ _ _ b => b) hmerges hid
    have hheld : held.contains k.1 = true := List.contains_iff_mem.mpr hheld
    rw [hheld, Bool.or_true] at this
    exact List.contains_iff_mem.mp this.symm

end

/-- Over every manifest with the keys, every reader and snapshot a batch is answered as its reads alone are,
exactly when it holds a `get` no compiler takes, or the merged statements are those of the `get`s they merge. -/
theorem batch_alike_iff (keys : String → Option String) (approvals held : List String)
    (batch : List (ReadIR Select Rest)) :
    (∀ e : Engine Select Rest, e.src.KeyedBy keys → e.approvals = approvals → e.held = held → e.Alike batch) ↔
      Keyless keys batch ∨ Unmixed keys approvals held batch := by
  constructor
  · intro h
    by_cases hkeyed : Keyless keys batch
    · exact .inl hkeyed
    · exact .inr (unmixed_of_alike hkeyed h)
  · rintro h e hkeys rfl rfl
    rw [Engine.alike_iff_single]
    intro out
    obtain hkeyed | hunmixed := h
    · exact Engine.run_eq_ok_of_keyless hkeys hkeyed
    · exact Engine.run_eq_ok_of_unmixed hkeys hunmixed

end

/-- Two records of a model keyed by text, read as one output: each alone shows that output's columns, both
together those of the default output. -/
theorem outputs_mixed :
    let e : Engine Unit Unit := probe (fun _ => some "text") [] [] (fun _ _ => true)
      fun _ output _ _ => .ok (output == DEFAULT_OUTPUT)
    let read := fun id => ReadIR.get "staff" (some "public") id ()
    e.run [read "a"] = .ok [shown false "a"] ∧
      e.run [read "a", read "b"] = .ok [shown true "a", shown true "b"] ∧ ¬ e.Alike [read "a", read "b"] := by
  intro e read
  have halone : e.run [read "a"] = .ok [shown false "a"] := rfl
  have hboth : e.run [read "a", read "b"] = .ok [shown true "a", shown true "b"] := rfl
  refine ⟨halone, hboth, fun halike => ?_⟩
  have hfirst := (List.forall₂_cons.mp ((halike _).mp hboth)).1
  rw [halone] at hfirst
  have hsame : [shown false "a"] = [shown true "a"] := Except.ok.inj hfirst
  exact Bool.false_ne_true (shown_injective (List.cons.inj hsame).1)

end Norbital.Bolt.Query

import Norbital.Lib.Jsonb

/-!
# Inline changes

What an update sets a field to (`assignedValue` of `store/src/write/sql.ts`): a whole value,
or an inline change applied to the column as it is.  The SQL expression of a change is the
value it computes, `none` SQL's null.
-/

namespace Norbital.Store.Inline

open JsonTree

/-- What an assignment knows of a field. -/
structure Field where
  name : String
  kind : String
  pg : String
  shapeOptional : Bool

/-- Why nothing is assigned: the write is refused, or its statement fails. -/
inductive Unassigned where
  | invalid (message : String)
  | failed
  deriving DecidableEq

inductive Change where
  | patch (members : List (JsString × JsonTree))
  | append (items : List JsonTree)
  | remove (items : List JsonTree)

/-- `isChange`: an object of one member, named after its change. -/
def changeOf : JsonTree → Option Change
  | .object [(key, .object members)] => if key = .ascii "$patch" then some (.patch members) else none
  | .object [(key, .array items)] =>
    if key = .ascii "$append" then some (.append items) else if key = .ascii "$remove" then some (.remove items) else none
  | _ => none

/-- `coalesce(nullif(x, 'null'::jsonb), '{}'::jsonb)`. -/
def orEmpty : Option JsonTree → JsonTree
  | none => .object []
  | some .null => .object []
  | some t => t

/-- An object set at a path where none stands. -/
def openAt (path : List JsString) (out : JsonTree) (i : ℕ) : Option JsonTree :=
  jsonbSet out (path.take i) (orEmpty (extract (path.take i) out))

/-- `path` set in `json`, creating every object on the way that is absent. -/
def setPath (json : JsonTree) (path : List JsString) (value : JsonTree) : Option JsonTree :=
  ((List.range' 1 (path.length - 1)).foldlM (openAt path) json).bind fun out => jsonbSet out path value

mutual

/-- The leaves of a value at a path: an object is one only when it is empty. -/
def leavesOf : JsonTree → List JsString → List (List JsString × JsonTree)
  | .object (m :: ms), path => leaves (m :: ms) path
  | v, path => [(path, v)]

def leaves : List (JsString × JsonTree) → List JsString → List (List JsString × JsonTree)
  | [], _ => []
  | (k, v) :: ms, path => leavesOf v (path ++ [k]) ++ leaves ms path

end

def patched (stored : Option JsonTree) (members : List (JsString × JsonTree)) : Option JsonTree :=
  (leaves members []).foldlM (fun json l => setPath json l.1 l.2) (orEmpty stored)

/-- `coalesce(C, '[]'::jsonb) || items`: what is no array goes in front as one item. -/
def appended (stored : Option JsonTree) (items : List JsonTree) : JsonTree :=
  match stored with
  | none => .array items
  | some (.array ts) => .array (ts ++ items)
  | some t => .array (t :: items)

/-- The items that are none of those named, in their order. -/
def removed (stored : Option JsonTree) (items : List JsonTree) : Option JsonTree :=
  match stored with
  | none => some (.array [])
  | some (.array ts) => some (.array (ts.filter fun e => !items.any fun item => same e item))
  | some _ => none

/-- Required JSON admits JSON null. -/
def incomingValue (f : Field) (incoming : Option JsonTree) : Option JsonTree :=
  if f.kind = "json" ∧ f.shapeOptional = false then some (incoming.getD .null) else incoming

def evaluated (value : Option JsonTree) : Except Unassigned (Option JsonTree) :=
  match value with
  | some t => .ok (some t)
  | none => .error .failed

/-- One assignment: the column of the row as stored, and the value the incoming row has for it. -/
def assignedValue (f : Field) (stored incoming : Option JsonTree) (v : JsonTree) : Except Unassigned (Option JsonTree) :=
  match changeOf v with
  | none => .ok (incomingValue f incoming)
  | some change =>
    if f.pg ≠ "jsonb" then .error (.invalid s!"'{f.name}' is no inline value; set it whole")
    else match change with
      | .patch members => evaluated (patched stored members)
      | .append items => .ok (some (appended stored items))
      | .remove items => evaluated (removed stored items)

def IsOpen : Option JsonTree → Prop
  | none => True
  | some .null => True
  | some (.object _) => True
  | _ => False

/-- Nothing on the way to a path but objects, nulls and absent values. -/
def Open (path : List JsString) (t : JsonTree) : Prop := ∀ q k, q ++ [k] <+: path → IsOpen (member q t)

variable {t u value : JsonTree} {p q path : List JsString}

theorem exists_orEmpty {o : Option JsonTree} (h : IsOpen o) : ∃ ms, orEmpty o = .object ms := by
  match o, h with
  | none, _ => exact ⟨[], rfl⟩
  | some .null, _ => exact ⟨[], rfl⟩
  | some (.object ms), _ => exact ⟨ms, rfl⟩

/-- Below an open value nothing is new. -/
theorem member_orEmpty {o : Option JsonTree} (h : IsOpen o) (hne : p ≠ []) : member p (orEmpty o) = o.bind (member p) := by
  obtain ⟨k, p, rfl⟩ := List.exists_cons_of_ne_nil hne
  match o, h with
  | none, _ => rfl
  | some .null, _ => rfl
  | some (.object ms), _ => rfl

/-- The first `i` objects on the way are there, and the rest is as it was. -/
structure Prepared (path : List JsString) (t : JsonTree) (i : ℕ) (out : JsonTree) : Prop where
  reaches : Reaches (path.take (i + 1)) out
  others : ∀ p, ¬p <+: path → member p out = member p t
  later : ∀ p, p <+: path → i < p.length → member p out = member p t

theorem Prepared.openAt {i : ℕ} {out : JsonTree} (h : Prepared path t i out) (hopen : Open path t) (hi : i + 1 < path.length) :
    ∃ u, openAt path out (i + 1) = some u ∧ Prepared path t (i + 1) u := by
  have hprefix : path.take (i + 1) <+: path := List.take_prefix _ _
  have hlength : (path.take (i + 1)).length = i + 1 := by rw [List.length_take]; omega
  have hne : path.take (i + 1) ≠ [] := List.ne_nil_of_length_pos (by omega)
  have hwas : member (path.take (i + 1)) out = member (path.take (i + 1)) t := h.later _ hprefix (by omega)
  have hisOpen : IsOpen (member (path.take (i + 1)) out) := by
    rw [hwas]
    refine hopen _ (path.get ⟨i + 1, hi⟩) ?_
    rw [List.get_eq_getElem, ← List.take_succ_eq_append_getElem hi]
    exact List.take_prefix _ _
  obtain ⟨u, hset, hu⟩ := jsonbSet_spec (orEmpty (extract (path.take (i + 1)) out)) hne h.reaches
  have hvalue := hu.value
  rw [extract_of_reaches h.reaches] at hvalue
  -- what stands below the object that was set is what stood there
  have hbelow : ∀ p, path.take (i + 1) <+: p → p ≠ path.take (i + 1) → member p u = member p out := by
    rintro p ⟨p, rfl⟩ hp
    have hp : p ≠ [] := fun hnil => hp (by rw [hnil, List.append_nil])
    rw [member_append, member_append, hvalue, Option.bind_some, member_orEmpty hisOpen hp]
  refine ⟨u, hset, ?_, ?_, ?_⟩
  · intro q k hq
    by_cases hlast : q = path.take (i + 1)
    · obtain ⟨ms, hms⟩ := exists_orEmpty hisOpen
      exact ⟨ms, by rw [hlast, hvalue, hms]⟩
    · refine hu.reaches q k ?_
      have hqlength := hq.length_le
      rw [List.length_append, List.length_take, List.length_singleton] at hqlength
      have hqpath : q ++ [k] <+: path := hq.trans (List.take_prefix _ _)
      refine List.prefix_of_prefix_length_le hqpath hprefix ?_
      rw [List.length_append, List.length_singleton, hlength]
      by_contra hlong
      exact hlast (List.prefix_of_prefix_length_le ((List.prefix_append q [k]).trans hqpath) hprefix (by omega) |>.eq_of_length
        (by omega))
  · intro p hp
    rw [← h.others p hp]
    by_cases hdown : path.take (i + 1) <+: p
    · exact hbelow p hdown fun heq => hp (heq ▸ hprefix)
    · exact hu.others p hdown fun hup => hp (hup.trans hprefix)
  · intro p hp hlong
    rw [← h.later p hp (by omega)]
    refine hbelow p (List.prefix_of_prefix_length_le hprefix hp (by omega)) ?_
    rintro rfl
    omega

theorem foldlM_openAt (hopen : Open path t) (n : ℕ) {i : ℕ} {out : JsonTree} (h : Prepared path t i out)
    (hi : i + n < path.length) :
    ∃ u, (List.range' (i + 1) n).foldlM (Inline.openAt path) out = some u ∧ Prepared path t (i + n) u := by
  induction n generalizing i out with
  | zero => exact ⟨out, rfl, h⟩
  | succ n ih =>
    obtain ⟨v, hset, hv⟩ := h.openAt hopen (by omega)
    obtain ⟨u, hfold, hu⟩ := ih hv (by omega)
    refine ⟨u, ?_, ?_⟩
    · rw [List.range'_succ, List.foldlM_cons, hset]
      exact hfold
    · rw [show i + (n + 1) = i + 1 + n by omega]
      exact hu

theorem prepared_object (ms : List (JsString × JsonTree)) (path : List JsString) : Prepared path (.object ms) 0 (.object ms) := by
  refine ⟨?_, fun p _ => rfl, fun p _ _ => rfl⟩
  intro q k hq
  have hlength := hq.length_le
  rw [List.length_append, List.length_singleton, List.length_take] at hlength
  obtain rfl : q = [] := List.eq_nil_of_length_eq_zero (by omega)
  exact ⟨ms, rfl⟩

/-- A path that is open in an object is set, and nothing beside it changes. -/
theorem setPath_spec (ms : List (JsString × JsonTree)) (value : JsonTree) (hne : path ≠ []) (hopen : Open path (.object ms)) :
    ∃ u, setPath (.object ms) path value = some u ∧ SetAt value path (.object ms) u := by
  have hpos := List.length_pos_of_ne_nil hne
  obtain ⟨out, hfold, hout⟩ := foldlM_openAt hopen (path.length - 1) (prepared_object ms path) (by omega)
  have hreaches := hout.reaches
  rw [show 0 + (path.length - 1) + 1 = path.length by omega, List.take_length] at hreaches
  obtain ⟨u, hset, hu⟩ := jsonbSet_spec value hne hreaches
  refine ⟨u, ?_, hu.value, hu.reaches, ?_⟩
  · rw [setPath, hfold]
    exact hset
  · intro p hdown hup
    rw [hu.others p hdown hup, hout.others p hup]

/-- Neither of two paths is a part of the other. -/
def Apart (p q : List JsString) : Prop := ¬p <+: q ∧ ¬q <+: p

mutual

theorem leavesOf_below : (v : JsonTree) → (path : List JsString) → ∀ l ∈ leavesOf v path, path <+: l.1
  | .object (m :: ms), path => by
    rw [leavesOf]
    intro l hl
    obtain ⟨k, hk⟩ := leaves_below (m :: ms) path l hl
    exact (List.prefix_append path [k]).trans hk.2
  | .object [], path => by simp [leavesOf]
  | .null, path => by simp [leavesOf]
  | .bool b, path => by simp [leavesOf]
  | .number n, path => by simp [leavesOf]
  | .string s, path => by simp [leavesOf]
  | .array ts, path => by simp [leavesOf]

theorem leaves_below : (ms : List (JsString × JsonTree)) → (path : List JsString) → ∀ l ∈ leaves ms path,
    ∃ k ∈ ms.map Prod.fst, path ++ [k] <+: l.1
  | [], _ => by simp [leaves]
  | (k, v) :: ms, path => by
    rw [leaves]
    intro l hl
    obtain hl | hl := List.mem_append.mp hl
    · exact ⟨k, List.mem_cons_self, leavesOf_below v (path ++ [k]) l hl⟩
    · obtain ⟨j, hj, hbelow⟩ := leaves_below ms path l hl
      exact ⟨j, List.mem_cons_of_mem k hj, hbelow⟩

end

mutual

theorem leavesOf_apart : (v : JsonTree) → v.Distinct → (path : List JsString) →
    (leavesOf v path).Pairwise fun l l' => Apart l.1 l'.1
  | .object (m :: ms), h, path => by
    rw [leavesOf]
    exact leaves_apart (m :: ms) h.1 h.2 path
  | .object [], _, path => List.pairwise_singleton _ _
  | .null, _, path => List.pairwise_singleton _ _
  | .bool b, _, path => List.pairwise_singleton _ _
  | .number n, _, path => List.pairwise_singleton _ _
  | .string s, _, path => List.pairwise_singleton _ _
  | .array ts, _, path => List.pairwise_singleton _ _

/-- No leaf stands on the way to another one. -/
theorem leaves_apart : (ms : List (JsString × JsonTree)) → (ms.map Prod.fst).Nodup → DistinctMembers ms →
    (path : List JsString) → (leaves ms path).Pairwise fun l l' => Apart l.1 l'.1
  | [], _, _, _ => List.Pairwise.nil
  | (k, v) :: ms, hkeys, h, path => by
    rw [List.map_cons, List.nodup_cons] at hkeys
    rw [leaves, List.pairwise_append]
    refine ⟨leavesOf_apart v h.1 (path ++ [k]), leaves_apart ms hkeys.2 h.2 path, ?_⟩
    intro l hl l' hl'
    have hbelow := leavesOf_below v (path ++ [k]) l hl
    obtain ⟨j, hj, hbelow'⟩ := leaves_below ms path l' hl'
    -- two steps at one place of one path would be the same
    have hsame : ∀ p, path ++ [k] <+: p → path ++ [j] <+: p → False := by
      intro p hk hj'
      have hstep := List.prefix_of_prefix_length_le hk hj' (by simp)
      have heq := hstep.eq_of_length (by simp)
      obtain rfl : k = j := by simpa using heq
      exact hkeys.1 hj
    exact ⟨fun hl => hsame l'.1 (hbelow.trans hl) hbelow', fun hl => hsame l.1 hbelow (hbelow'.trans hl)⟩

end

theorem leaves_nonempty {ms : List (JsString × JsonTree)} : ∀ l ∈ leaves ms [], l.1 ≠ [] := by
  intro l hl hnil
  obtain ⟨k, -, hbelow⟩ := leaves_below ms [] l hl
  rw [hnil, List.nil_append] at hbelow
  exact absurd (List.prefix_nil.mp hbelow) (List.cons_ne_nil k [])

theorem leavesOf_ne_nil : (v : JsonTree) → (path : List JsString) → leavesOf v path ≠ []
  | .object ((k, v) :: ms), path => by
    rw [leavesOf, leaves]
    exact List.append_ne_nil_of_left_ne_nil (leavesOf_ne_nil v (path ++ [k])) _
  | .object [], path => List.cons_ne_nil _ _
  | .null, path => List.cons_ne_nil _ _
  | .bool b, path => List.cons_ne_nil _ _
  | .number n, path => List.cons_ne_nil _ _
  | .string s, path => List.cons_ne_nil _ _
  | .array ts, path => List.cons_ne_nil _ _

theorem leaves_eq_nil {ms : List (JsString × JsonTree)} (h : leaves ms [] = []) : ms = [] := by
  cases ms with
  | nil => rfl
  | cons m ms =>
    rw [leaves] at h
    exact absurd (List.append_eq_nil_iff.mp h).1 (leavesOf_ne_nil m.2 _)

/-- Leaves that are apart are set one after the other. -/
theorem foldlM_setPath {ls : List (List JsString × JsonTree)} (ms : List (JsString × JsonTree))
    (hne : ∀ l ∈ ls, l.1 ≠ []) (hapart : ls.Pairwise fun l l' => Apart l.1 l'.1) (hopen : ∀ l ∈ ls, Open l.1 (.object ms)) :
    ∃ u, ls.foldlM (fun json l => setPath json l.1 l.2) (.object ms) = some u ∧ (∀ l ∈ ls, member l.1 u = some l.2) ∧
      ∀ p, (∀ l ∈ ls, Apart l.1 p) → member p u = member p (.object ms) := by
  induction ls generalizing ms with
  | nil => exact ⟨.object ms, rfl, by simp, fun p _ => rfl⟩
  | cons l ls ih =>
    obtain ⟨hfirst, hrest⟩ := List.forall_mem_cons.mp hopen
    obtain ⟨hnil, hnils⟩ := List.forall_mem_cons.mp hne
    obtain ⟨hpath, hpaths⟩ := List.pairwise_cons.mp hapart
    obtain ⟨v, hset, hv⟩ := setPath_spec ms l.2 hnil hfirst
    obtain ⟨k, path, hl⟩ := List.exists_cons_of_ne_nil hnil
    obtain ⟨ns, rfl⟩ := (hl ▸ hv.reaches).root
    -- the other paths are as open as before
    have hopen' : ∀ l' ∈ ls, Open l'.1 (.object ns) := by
      intro l' hl' q k hq
      obtain ⟨hdown, hup⟩ := hpath l' hl'
      have hbelow : ¬l.1 <+: q := fun h => hdown (h.trans ((List.prefix_append q [k]).trans hq))
      by_cases habove : q <+: l.1
      · obtain ⟨rest, hrest⟩ := habove
        cases rest with
        | nil => exact absurd ⟨[], by rw [← hrest, List.append_nil, List.append_nil]⟩ hbelow
        | cons j rest =>
          obtain ⟨os, hos⟩ := hv.reaches q j ⟨rest, by rw [← hrest]; simp⟩
          rw [hos]
          exact trivial
      · rw [hv.others q hbelow habove]
        exact hrest l' hl' q k hq
    obtain ⟨u, hfold, hleaves, hothers⟩ := ih ns hnils hpaths hopen'
    refine ⟨u, ?_, ?_, ?_⟩
    · rw [List.foldlM_cons, hset]
      exact hfold
    · refine List.forall_mem_cons.mpr ⟨?_, hleaves⟩
      rw [hothers l.1 fun l' hl' => (hpath l' hl').symm, hv.value]
    · intro p hp
      obtain ⟨hhead, htail⟩ := List.forall_mem_cons.mp hp
      rw [hothers p htail, hv.others p hhead.1 hhead.2]

theorem reaches_of_member {v : JsonTree} (h : member path t = some v) : Reaches path t := by
  intro q k hq
  obtain ⟨rest, rfl⟩ := hq
  rw [List.append_assoc, List.singleton_append, member_append] at h
  obtain ⟨w, hw, hv⟩ := Option.bind_eq_some_iff.mp h
  cases w with
  | object ms => exact ⟨ms, hw⟩
  | _ => cases hv

theorem closed_of_not_open (h : ¬IsOpen (member q t)) : Closed q t := by
  generalize hmember : member q t = o at h
  cases o with
  | none => exact absurd trivial h
  | some v =>
    refine ⟨v, hmember, ?_⟩
    cases v with
    | null => exact h trivial
    | object ms => exact h trivial
    | _ => exact trivial

/-- Opening the way to a path keeps what is closed on it. -/
theorem closed_openAt (hclosed : Closed q t) {i : ℕ} (hne : path.take i ≠ []) (h : openAt path t i = some u) : Closed q u := by
  rw [Inline.openAt] at h
  by_cases hpath : path.take i <+: q
  · obtain ⟨rest, rfl⟩ := hpath
    obtain ⟨v, hv, hvclosed⟩ := hclosed
    rw [member_append] at hv
    obtain ⟨w, hw, hv⟩ := Option.bind_eq_some_iff.mp hv
    have hreaches := reaches_of_member hw
    have hsame : orEmpty (extract (path.take i) t) = w := by
      rw [extract_of_reaches hreaches, hw]
      cases w with
      | null =>
        cases rest with
        | nil => exact absurd hvclosed (by rw [← Option.some.inj hv]; exact id)
        | cons k rest => cases hv
      | _ => rfl
    rw [hsame] at h
    obtain ⟨u', hset, hu⟩ := jsonbSet_spec w hne hreaches
    obtain rfl : u' = u := Option.some.inj (hset.symm.trans h)
    exact ⟨v, by rw [member_append, hu.value]; exact hv, hvclosed⟩
  · exact hclosed.jsonbSet hpath h

theorem closed_setPath (hclosed : Closed q t) (hpath : ¬path <+: q) (h : setPath t path value = some u) : Closed q u := by
  rw [Inline.setPath] at h
  obtain ⟨out, hfold, hset⟩ := Option.bind_eq_some_iff.mp h
  refine Closed.jsonbSet ?_ hpath hset
  have hall : ∀ (is : List ℕ) (out out' : JsonTree), (∀ i ∈ is, path.take i ≠ []) → Closed q out →
      is.foldlM (Inline.openAt path) out = some out' → Closed q out' := by
    intro is
    induction is with
    | nil =>
      intro out out' _ hout hfold
      obtain rfl : out = out' := Option.some.inj hfold
      exact hout
    | cons i is ih =>
      intro out out' his hout hfold
      rw [List.foldlM_cons] at hfold
      obtain ⟨v, hv, hfold⟩ := Option.bind_eq_some_iff.mp hfold
      obtain ⟨hi, his⟩ := List.forall_mem_cons.mp his
      exact ih v out' his (closed_openAt hout hi hv) hfold
  refine hall _ t out (fun i hi => ?_) hclosed hfold
  have hbound := List.mem_range'_1.mp hi
  exact List.ne_nil_of_length_pos (by rw [List.length_take]; omega)

theorem closed_foldlM_setPath {ls : List (List JsString × JsonTree)} (hclosed : Closed q t) (hpath : ∀ l ∈ ls, ¬l.1 <+: q)
    (h : ls.foldlM (fun json l => setPath json l.1 l.2) t = some u) : Closed q u := by
  induction ls generalizing t with
  | nil =>
    obtain rfl : t = u := Option.some.inj h
    exact hclosed
  | cons l ls ih =>
    rw [List.foldlM_cons] at h
    obtain ⟨v, hv, h⟩ := Option.bind_eq_some_iff.mp h
    obtain ⟨hl, hls⟩ := List.forall_mem_cons.mp hpath
    exact ih (closed_setPath hclosed hl hv) hls h

/-- The value set by `{ $patch }`. -/
def patchOf (members : List (JsString × JsonTree)) : JsonTree := .object [(.ascii "$patch", .object members)]

def appendOf (items : List JsonTree) : JsonTree := .object [(.ascii "$append", .array items)]

def removeOf (items : List JsonTree) : JsonTree := .object [(.ascii "$remove", .array items)]

/-- Every leaf of the patch is read back, and every value beside them is the stored one. -/
def ChangesExactly (f : Field) (stored : Option JsonTree) (members : List (JsString × JsonTree)) : Prop :=
  ∃ u, assignedValue f stored none (patchOf members) = .ok (some u) ∧ (∀ l ∈ leaves members [], member l.1 u = some l.2) ∧
    ∀ p, (∀ l ∈ leaves members [], Apart l.1 p) → member p u = stored.bind (member p)

/-- Items appended and removed again leave the list. -/
def Restores (f : Field) (items added : List JsonTree) : Prop :=
  ∃ u, assignedValue f (some (.array items)) none (appendOf added) = .ok (some u) ∧
    assignedValue f (some u) none (removeOf added) = .ok (some (.array items))

/-- Nothing but objects, nulls and absent values is in the way of a leaf; a patch of nothing has a value to leave. -/
def Takes (stored : Option JsonTree) (members : List (JsString × JsonTree)) : Prop :=
  (members = [] → ∃ t, stored = some t ∧ t ≠ .null) ∧
    ∀ l ∈ leaves members [], ∀ q k, q ++ [k] <+: l.1 → IsOpen (stored.bind (member q))

section

variable {f : Field} (hf : f.pg = "jsonb")

include hf

theorem assignedValue_patchOf (stored : Option JsonTree) (members : List (JsString × JsonTree)) {u : JsonTree} :
    assignedValue f stored none (patchOf members) = .ok (some u) ↔ patched stored members = some u := by
  have hchange : changeOf (patchOf members) = some (.patch members) := by
    rw [patchOf, changeOf]
    exact if_pos rfl
  rw [assignedValue, hchange]
  simp only [hf, ne_eq, not_true_eq_false, if_false]
  cases patched stored members with
  | none => simp [evaluated]
  | some t => simp [evaluated]

theorem restores {items added : List JsonTree} (hadded : ∀ t ∈ added, t.Distinct)
    (hnew : ∀ e ∈ items, ∀ t ∈ added, same e t = false) : Restores f items added := by
  have happend : changeOf (appendOf added) = some (.append added) := by
    rw [appendOf, changeOf]
    exact if_pos rfl
  have hremove : changeOf (removeOf added) = some (.remove added) := by
    rw [removeOf, changeOf, if_neg (by decide)]
    exact if_pos rfl
  refine ⟨.array (items ++ added), ?_, ?_⟩
  · rw [assignedValue, happend]
    simp only [hf, ne_eq, not_true_eq_false, if_false]
    rfl
  · have hkept : items.filter (fun e => !added.any fun t => same e t) = items := by
      refine List.filter_eq_self.mpr fun e he => ?_
      rw [Bool.not_eq_true', List.any_eq_false]
      exact fun t ht => by simp [hnew e he t ht]
    have hdropped : added.filter (fun e => !added.any fun t => same e t) = [] := by
      refine List.filter_eq_nil_iff.mpr fun e he => ?_
      rw [Bool.not_eq_true', Bool.not_eq_false, List.any_eq_true]
      exact ⟨e, he, same_refl e (hadded e he)⟩
    rw [assignedValue, hremove]
    simp only [hf, ne_eq, not_true_eq_false, if_false, removed]
    rw [List.filter_append, hkept, hdropped, List.append_nil]
    rfl

theorem changesExactly_of_takes {stored : Option JsonTree} {members : List (JsString × JsonTree)}
    (hdistinct : (JsonTree.object members).Distinct) (h : Takes stored members) : ChangesExactly f stored members := by
  by_cases hnil : members = []
  · obtain ⟨t, rfl, ht⟩ := h.1 hnil
    subst hnil
    refine ⟨t, (assignedValue_patchOf hf _ _).mpr ?_, by simp [leaves], fun p _ => rfl⟩
    rw [patched]
    cases t with
    | null => exact absurd rfl ht
    | _ => rfl
  · -- the root is open, for a leaf stands below it
    have hroot : IsOpen stored := by
      obtain ⟨l, ls, hl⟩ := List.exists_cons_of_ne_nil (mt leaves_eq_nil hnil)
      have hmem : l ∈ leaves members [] := hl ▸ List.mem_cons_self
      obtain ⟨k, path, hpath⟩ := List.exists_cons_of_ne_nil (leaves_nonempty l hmem)
      have hopen := h.2 l hmem [] k (by rw [hpath]; exact ⟨path, rfl⟩)
      cases stored with
      | none => exact trivial
      | some t => exact hopen
    obtain ⟨ms, hms⟩ := exists_orEmpty hroot
    have hbelow : ∀ p, p ≠ [] → member p (.object ms) = stored.bind (member p) := by
      intro p hp
      rw [← hms, member_orEmpty hroot hp]
    have hopen : ∀ l ∈ leaves members [], Open l.1 (.object ms) := by
      intro l hl q k hq
      by_cases hq' : q = []
      · rw [hq']
        exact trivial
      · rw [hbelow q hq']
        exact h.2 l hl q k hq
    obtain ⟨u, hfold, hleaves, hothers⟩ := foldlM_setPath ms leaves_nonempty
      (leaves_apart members hdistinct.1 hdistinct.2 []) hopen
    refine ⟨u, (assignedValue_patchOf hf _ _).mpr ?_, hleaves, ?_⟩
    · rw [patched, hms]
      exact hfold
    · intro p hp
      rw [hothers p hp]
      refine hbelow p ?_
      rintro rfl
      obtain ⟨l, ls, hl⟩ := List.exists_cons_of_ne_nil (mt leaves_eq_nil hnil)
      exact (hp l (hl ▸ List.mem_cons_self)).2 List.nil_prefix

theorem takes_of_changesExactly {stored : Option JsonTree} {members : List (JsString × JsonTree)}
    (hdistinct : (JsonTree.object members).Distinct) (h : ChangesExactly f stored members) : Takes stored members := by
  obtain ⟨u, hu, hleaves, hothers⟩ := h
  rw [assignedValue_patchOf hf, patched] at hu
  constructor
  · rintro rfl
    obtain rfl : orEmpty stored = u := Option.some.inj hu
    have hsame : some (orEmpty stored) = stored.bind (member []) := hothers [] (by simp [leaves])
    match stored, hsame with
    | some t, hsame =>
      refine ⟨t, rfl, ?_⟩
      rintro rfl
      cases hsame
  · intro l hl q k hq
    by_contra hopen
    -- what is in the way stays there, and no leaf is read below it
    have hclosed : Closed q (orEmpty stored) := by
      match stored, hopen with
      | none, hopen => exact absurd trivial hopen
      | some .null, hopen =>
        cases q with
        | nil => exact absurd trivial hopen
        | cons j q => exact absurd trivial hopen
      | some (.bool b), hopen => exact closed_of_not_open hopen
      | some (.number n), hopen => exact closed_of_not_open hopen
      | some (.string s), hopen => exact closed_of_not_open hopen
      | some (.array ts), hopen => exact closed_of_not_open hopen
      | some (.object ms), hopen => exact closed_of_not_open hopen
    have hpaths : ∀ l' ∈ leaves members [], ¬l'.1 <+: q := by
      intro l' hl' hpath
      have hq' : q <+: l.1 := (List.prefix_append q [k]).trans hq
      by_cases heq : l' = l
      · have hlength := (heq ▸ hpath).length_le
        have hlonger := hq.length_le
        rw [List.length_append, List.length_singleton] at hlonger
        omega
      · have hsymm : Std.Symm fun l l' : List JsString × JsonTree => Apart l.1 l'.1 := ⟨fun _ _ h => h.symm⟩
        have hapart := (leaves_apart members hdistinct.1 hdistinct.2 []).forall hl' hl heq
        exact hapart.1 (hpath.trans hq')
    obtain ⟨v, hv, hvclosed⟩ := closed_foldlM_setPath hclosed hpaths hu
    obtain ⟨rest, hrest⟩ := hq
    have hleaf := hleaves l hl
    rw [← hrest, List.append_assoc, List.singleton_append, member_append, hv] at hleaf
    cases v with
    | null => exact hvclosed
    | object ms => exact hvclosed
    | _ => cases hleaf

/-- A patch changes exactly what it names when the stored value takes it, and not otherwise; a list is restored. -/
theorem inline_changes {stored : Option JsonTree} {members : List (JsString × JsonTree)} {items added : List JsonTree}
    (hdistinct : (JsonTree.object members).Distinct) (hadded : ∀ t ∈ added, t.Distinct)
    (hnew : ∀ e ∈ items, ∀ t ∈ added, same e t = false) :
    (ChangesExactly f stored members ∧ Restores f items added) ↔ Takes stored members :=
  ⟨fun h => takes_of_changesExactly hf hdistinct h.1,
    fun h => ⟨changesExactly_of_takes hf hdistinct h, restores hf hadded hnew⟩⟩

end

def payload : Field := ⟨"payload", "json", "jsonb", true⟩

def one : JsonTree := .number ⟨false, 1, 0, by decide⟩

/-- `{ a: { b: 1 } }`. -/
def nestedPatch : List (JsString × JsonTree) := [(.ascii "a", .object [(.ascii "b", one)])]

theorem nestedPatch_distinct : (JsonTree.object nestedPatch).Distinct :=
  ⟨List.nodup_singleton _, ⟨List.nodup_singleton _, trivial, trivial⟩, trivial⟩

def tagged : List JsonTree := [.string (.ascii "vip")]

def tags : List JsonTree := [.string (.ascii "new"), one, .string (.ascii "new")]

theorem inline_changes_tagged :
    (ChangesExactly payload (some (.object [(.ascii "a", .null)])) nestedPatch ∧ Restores payload tags tagged) ↔
      Takes (some (.object [(.ascii "a", .null)])) nestedPatch :=
  inline_changes rfl nestedPatch_distinct (List.forall_mem_singleton.mpr trivial) (by decide)

/-- A number where the patch has an object: nothing is set, and nothing is refused. -/
theorem patch_number : assignedValue payload (some (.object [(.ascii "a", one)])) none (patchOf nestedPatch) =
      .ok (some (.object [(.ascii "a", one)])) ∧
    ¬ChangesExactly payload (some (.object [(.ascii "a", one)])) nestedPatch := by
  refine ⟨rfl, ?_⟩
  intro h
  exact (takes_of_changesExactly rfl nestedPatch_distinct h).2 ([.ascii "a", .ascii "b"], one) List.mem_cons_self
    [.ascii "a"] (.ascii "b") (List.prefix_refl _)

end Norbital.Store.Inline

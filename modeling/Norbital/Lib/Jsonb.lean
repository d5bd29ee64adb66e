import Norbital.Lib.JsonParse

/-!
# JSON values changed at a path

What PostgreSQL's `jsonb` operators read and set at a path of texts, arrays reached
through their indexes, and what is read through the members of objects after it.
-/

namespace JsonTree

open Norbital.Lib (put)

/-- What stands at a path of members. -/
def member : List JsString → JsonTree → Option JsonTree
  | [], t => some t
  | k :: p, .object ms => (ms.lookup k).bind (member p)
  | _ :: _, _ => none

def isBlank (c : CodeUnit) : Bool := c == 32 || 9 ≤ c && c ≤ 13

/-- `strtoint`: the index a path element spells. -/
def arrayIndex (key : JsString) : Option ℤ :=
  let (negative, digits) := JsNumber.readSign (key.dropWhile isBlank)
  if digits ≠ [] ∧ digits.all JsNumber.isDigit then
    let n : ℤ := if negative then -(JsNumber.value digits : ℤ) else JsNumber.value digits
    if -2147483648 ≤ n ∧ n ≤ 2147483647 then some n else none
  else none

/-- The place of an index among `n` items, a negative one counted from the end. -/
def place (n : ℕ) (index : ℤ) : Option ℕ :=
  if 0 ≤ index then (if index < n then some index.toNat else none)
  else if -index ≤ n then some (n + index).toNat else none

/-- `#>`: what stands at a path, through objects and arrays. -/
def extract : List JsString → JsonTree → Option JsonTree
  | [], t => some t
  | k :: p, .object ms => (ms.lookup k).bind (extract p)
  | k :: p, .array ts => ((arrayIndex k).bind (place ts.length)).bind fun i => (ts[i]?).bind (extract p)
  | _ :: _, _ => none

/-- An item set at an index: past an end it is added there. -/
def setItem (value : JsonTree) (index : ℤ) (ts : List JsonTree) : List JsonTree :=
  match place ts.length index with
  | some i => ts.set i value
  | none => if index < 0 then value :: ts else ts ++ [value]

/-- The value set at a path whose earlier steps are there; a text that is no index of an array is refused. -/
def setWithin (value : JsonTree) : List JsString → JsonTree → Option JsonTree
  | [], t => some t
  | [k], .object ms => some (.object (put k value ms))
  | k :: p, .object ms =>
    match ms.lookup k with
    | some t => (setWithin value p t).map fun t' => .object (put k t' ms)
    | none => some (.object ms)
  | [k], .array ts => (arrayIndex k).map fun index => .array (setItem value index ts)
  | k :: p, .array ts => (arrayIndex k).bind fun index =>
    match (place ts.length index).bind fun i => (ts[i]?).map fun t => (i, t) with
    | some (i, t) => (setWithin value p t).map fun t' => .array (ts.set i t')
    | none => some (.array ts)
  | _ :: _, t => some t

def IsContainer : JsonTree → Prop
  | .object _ => True
  | .array _ => True
  | _ => False

instance (t : JsonTree) : Decidable t.IsContainer :=
  match t with
  | .object _ => isTrue trivial
  | .array _ => isTrue trivial
  | .null | .bool _ | .number _ | .string _ => isFalse id

/-- `jsonb_set(target, path, value, true)`: a scalar has no paths. -/
def jsonbSet (target : JsonTree) (path : List JsString) (value : JsonTree) : Option JsonTree :=
  if target.IsContainer then setWithin value path target else none

mutual

/-- Equality of `jsonb`: the members of objects in any order. -/
def same : JsonTree → JsonTree → Bool
  | .null, .null => true
  | .bool a, .bool b => a == b
  | .number a, .number b => a == b
  | .string a, .string b => a == b
  | .array ts, .array us => sameItems ts us
  | .object ms, .object ns => ms.length == ns.length && sameMembers ms ns
  | _, _ => false

def sameItems : List JsonTree → List JsonTree → Bool
  | [], [] => true
  | t :: ts, u :: us => same t u && sameItems ts us
  | _, _ => false

/-- Each member is one of another object. -/
def sameMembers : List (JsString × JsonTree) → List (JsString × JsonTree) → Bool
  | [], _ => true
  | (k, t) :: ms, ns =>
    (match ns.lookup k with
      | some u => same t u
      | none => false) && sameMembers ms ns

end

mutual

theorem same_refl : (t : JsonTree) → t.Distinct → t.same t = true
  | .null, _ => rfl
  | .bool b, _ => beq_self_eq_true b
  | .number n, _ => beq_self_eq_true n
  | .string s, _ => beq_self_eq_true s
  | .array ts, h => sameItems_refl ts h
  | .object ms, h => by
    rw [same, beq_self_eq_true, Bool.true_and]
    exact sameMembers_of_lookup ms ms h.2 fun k t hmem => Norbital.Lib.lookup_some_of_mem h.1 hmem

theorem sameItems_refl : (ts : List JsonTree) → DistinctItems ts → sameItems ts ts = true
  | [], _ => rfl
  | t :: ts, h => by rw [sameItems, same_refl t h.1, sameItems_refl ts h.2, Bool.true_and]

theorem sameMembers_of_lookup : (ms ns : List (JsString × JsonTree)) → DistinctMembers ms →
    (∀ k t, (k, t) ∈ ms → ns.lookup k = some t) → sameMembers ms ns = true
  | [], _, _, _ => rfl
  | (k, t) :: ms, ns, h, hlookup => by
    rw [sameMembers, hlookup k t List.mem_cons_self]
    dsimp only
    rw [same_refl t h.1, Bool.true_and]
    exact sameMembers_of_lookup ms ns h.2 fun k' t' hmem => hlookup k' t' (List.mem_cons_of_mem _ hmem)

end

variable {t u value : JsonTree} {p q path : List JsString} {k : JsString}

theorem member_append (p q : List JsString) (t : JsonTree) : member (p ++ q) t = (member p t).bind (member q) := by
  induction p generalizing t with
  | nil => rfl
  | cons k p ih =>
    cases t with
    | object ms =>
      rw [List.cons_append, member, member]
      cases ms.lookup k with
      | none => rfl
      | some t => exact ih t
    | _ => rfl

/-- Objects all the way to the last step of a path. -/
def Reaches (path : List JsString) (t : JsonTree) : Prop := ∀ q k, q ++ [k] <+: path → ∃ ms, member q t = some (.object ms)

theorem Reaches.tail {ms : List (JsString × JsonTree)} (h : Reaches (k :: path) (.object ms)) (hlookup : ms.lookup k = some t) :
    Reaches path t := by
  intro q j hq
  obtain ⟨ns, hns⟩ := h (k :: q) j ((List.prefix_cons_inj k).mpr hq)
  rw [member, hlookup] at hns
  exact ⟨ns, hns⟩

theorem Reaches.root (h : Reaches (k :: path) t) : ∃ ms, t = .object ms := by
  obtain ⟨ms, hms⟩ := h [] k ⟨path, rfl⟩
  exact ⟨ms, Option.some.inj hms⟩

/-- A path that is reached is read as it stands, through members alone. -/
theorem extract_of_reaches (h : Reaches path t) : extract path t = member path t := by
  induction path generalizing t with
  | nil => rfl
  | cons k path ih =>
    obtain ⟨ms, rfl⟩ := h.root
    rw [extract, member]
    cases hlookup : ms.lookup k with
    | none => rfl
    | some t => exact ih (h.tail hlookup)

/-- A tree with a value set at a path: nothing is changed beside it. -/
structure SetAt (value : JsonTree) (path : List JsString) (t u : JsonTree) : Prop where
  value : member path u = some value
  reaches : Reaches path u
  others : ∀ p, ¬path <+: p → ¬p <+: path → member p u = member p t

theorem member_put (k j : JsString) (p : List JsString) (ms : List (JsString × JsonTree)) :
    member (j :: p) (.object (put k t ms)) = if j = k then member p t else member (j :: p) (.object ms) := by
  rw [member, Norbital.Lib.lookup_put, member]
  by_cases hj : j = k
  · rw [if_pos hj, if_pos (beq_iff_eq.mpr hj)]
    rfl
  · rw [if_neg hj, beq_false_of_ne hj, if_neg Bool.false_ne_true]

theorem reaches_put {ms : List (JsString × JsonTree)} (h : Reaches path t) : Reaches (k :: path) (.object (put k t ms)) := by
  intro q j hq
  cases q with
  | nil => exact ⟨_, rfl⟩
  | cons i q =>
    rw [List.cons_append, List.cons_prefix_cons] at hq
    obtain ⟨rfl, hq⟩ := hq
    rw [member_put, if_pos rfl]
    exact h q j hq

theorem setWithin_spec (value : JsonTree) (hne : path ≠ []) (h : Reaches path t) :
    ∃ u, setWithin value path t = some u ∧ SetAt value path t u := by
  induction path generalizing t with
  | nil => exact absurd rfl hne
  | cons k path ih =>
    obtain ⟨ms, rfl⟩ := h.root
    have hother : ∀ {u : JsonTree} {p : List JsString}, ¬k :: path <+: p → ¬p <+: k :: path →
        (∀ p, ¬path <+: p → ¬p <+: path → member p u = ((ms.lookup k).bind (member p))) →
        member p (.object (put k u ms)) = member p (.object ms) := by
      intro u p hdown hup hu
      cases p with
      | nil => exact absurd (List.nil_prefix) hup
      | cons j p =>
        rw [member_put]
        split_ifs with hj
        · subst hj
          rw [List.cons_prefix_cons, and_iff_right rfl] at hdown hup
          exact hu p hdown hup
        · rfl
    cases path with
    | nil =>
      refine ⟨.object (put k value ms), rfl, ?_, ?_, ?_⟩
      · rw [member_put, if_pos rfl]
        rfl
      · exact reaches_put fun q j hq => absurd (List.prefix_nil.mp hq) (by simp)
      · exact fun p hdown hup => hother hdown hup fun p hdown _ => absurd List.nil_prefix hdown
    | cons j path =>
      obtain ⟨ns, hns⟩ := h [k] j ⟨path, rfl⟩
      obtain ⟨t, hlookup, -⟩ := Option.bind_eq_some_iff.mp hns
      obtain ⟨u, hset, hu⟩ := ih (List.cons_ne_nil j path) (h.tail hlookup)
      refine ⟨.object (put k u ms), ?_, ?_, ?_, ?_⟩
      · rw [setWithin, hlookup]
        · dsimp only
          rw [hset]
          rfl
        · simp
      · rw [member_put, if_pos rfl]
        exact hu.value
      · exact reaches_put hu.reaches
      · intro p hdown hup
        refine hother hdown hup fun p hdown hup => ?_
        rw [hlookup]
        exact hu.others p hdown hup

/-- An object is set at a path that it reaches. -/
theorem jsonbSet_spec (value : JsonTree) (hne : path ≠ []) (h : Reaches path t) :
    ∃ u, jsonbSet t path value = some u ∧ SetAt value path t u := by
  obtain ⟨k, path, rfl⟩ := List.exists_cons_of_ne_nil hne
  obtain ⟨ms, rfl⟩ := h.root
  exact setWithin_spec value hne h

/-- A scalar or an array: no member stands in it. -/
def IsClosed : JsonTree → Prop
  | .null => False
  | .object _ => False
  | _ => True

/-- Something closed stands at a path. -/
def Closed (q : List JsString) (t : JsonTree) : Prop := ∃ v, member q t = some v ∧ v.IsClosed

/-- What is closed stays so when a value is set inside of it or beside it. -/
theorem Closed.setWithin (hclosed : Closed q t) (hpath : ¬path <+: q) (h : setWithin value path t = some u) : Closed q u := by
  cases path with
  | nil => exact absurd List.nil_prefix hpath
  | cons k path =>
    induction q generalizing k path t u with
    | nil =>
      obtain ⟨v, hv, hclosed⟩ := hclosed
      obtain rfl : t = v := Option.some.inj hv
      cases t with
      | null => exact hclosed.elim
      | object ms => exact hclosed.elim
      | array ts =>
        -- an array stays an array
        have harray : ∃ us, u = .array us := by
          cases path with
          | nil =>
            obtain ⟨index, -, rfl⟩ := Option.map_eq_some_iff.mp h
            exact ⟨_, rfl⟩
          | cons j path =>
            obtain ⟨index, -, h⟩ := Option.bind_eq_some_iff.mp h
            split at h
            · obtain ⟨t', -, rfl⟩ := Option.map_eq_some_iff.mp h
              exact ⟨_, rfl⟩
            · exact ⟨ts, (Option.some.inj h).symm⟩
        obtain ⟨us, rfl⟩ := harray
        exact ⟨_, rfl, trivial⟩
      | bool b =>
        obtain rfl : .bool b = u := by cases path <;> exact Option.some.inj h
        exact ⟨_, rfl, hclosed⟩
      | number n =>
        obtain rfl : .number n = u := by cases path <;> exact Option.some.inj h
        exact ⟨_, rfl, hclosed⟩
      | string s =>
        obtain rfl : .string s = u := by cases path <;> exact Option.some.inj h
        exact ⟨_, rfl, hclosed⟩
    | cons j q ih =>
      obtain ⟨v, hv, hclosed⟩ := hclosed
      cases t with
      | object ms =>
        cases path with
        | nil =>
          obtain rfl : .object (put k value ms) = u := Option.some.inj h
          have hj : j ≠ k := by
            rintro rfl
            exact hpath ⟨q, rfl⟩
          exact ⟨v, by rw [member_put, if_neg hj]; exact hv, hclosed⟩
        | cons k' path =>
          rw [JsonTree.setWithin] at h
          · cases hlookup : ms.lookup k with
            | none =>
              rw [hlookup] at h
              obtain rfl : .object ms = u := Option.some.inj h
              exact ⟨v, hv, hclosed⟩
            | some t' =>
              rw [hlookup] at h
              obtain ⟨u', hset, rfl⟩ := Option.map_eq_some_iff.mp h
              by_cases hj : j = k
              · subst hj
                rw [member, hlookup] at hv
                obtain ⟨w, hw, hclosed⟩ := ih ⟨v, hv, hclosed⟩ k' path
                  (fun hprefix => hpath ((List.prefix_cons_inj j).mpr hprefix)) hset
                exact ⟨w, by rw [member_put, if_pos rfl]; exact hw, hclosed⟩
              · exact ⟨v, by rw [member_put, if_neg hj]; exact hv, hclosed⟩
          · simp
      | _ => cases hv

theorem Closed.jsonbSet (hclosed : Closed q t) (hpath : ¬path <+: q) (h : jsonbSet t path value = some u) : Closed q u := by
  rw [JsonTree.jsonbSet] at h
  split_ifs at h
  exact hclosed.setWithin hpath h

end JsonTree

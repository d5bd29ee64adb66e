import Norbital.Std.Decimal
import Norbital.Std.Kind

/-!
# Values on the wire

A value goes over the wire as JSON, a decimal as `{ $dec }` (`encodeWire`, `std/src/wire.ts`), and is revived
from the inside out as it is parsed (`reviveWire`).  It comes back as it was, what is undefined aside, just where
it holds no object that reads as a decimal's.
-/

namespace Norbital.Std

/-- `Wired`: JSON with decimals at any depth, and what is undefined. -/
inductive Wired where
  | null
  | undefined
  | bool (b : Bool)
  | number (n : Rat)
  | string (s : String)
  | decimal (d : Decimal)
  | array (items : List Wired)
  | object (members : List (String × Wired))

namespace Wired

def isUndefined : Wired → Bool
  | .undefined => true
  | _ => false

/-- `Decimal.toJSON`. -/
def decimalJson (d : Decimal) : Json := .object [("$dec", .string d.toString)]

mutual

def encodeWire : Wired → Json
  | .null => .null
  | .undefined => .null
  | .bool b => .bool b
  | .number n => .number n
  | .string s => .string s
  | .decimal d => decimalJson d
  | .array items => .array (encodeItems items)
  | .object members => .object (encodeMembers members)

def encodeItems : List Wired → List Json
  | [] => []
  | v :: vs => v.encodeWire :: encodeItems vs

def encodeMembers : List (String × Wired) → List (String × Json)
  | [] => []
  | (k, v) :: ms => if v.isUndefined then encodeMembers ms else (k, v.encodeWire) :: encodeMembers ms

end

/-- `{ $dec }` alone is its decimal, where its text is one; nothing else changes. -/
def reviveWire : Wired → Except RangeError Wired
  | .object [("$dec", .string text)] => (Decimal.of text).map .decimal
  | v => .ok v

mutual

/-- `JSON.parse` with the reviver: what a value holds is revived before it. -/
def revived : Json → Except RangeError Wired
  | .null => .ok .null
  | .bool b => .ok (.bool b)
  | .number n => .ok (.number n)
  | .string s => .ok (.string s)
  | .array items => (revivedItems items).map .array
  | .object members => (revivedMembers members).bind fun ms => reviveWire (.object ms)

def revivedItems : List Json → Except RangeError (List Wired)
  | [] => .ok []
  | v :: vs => (revived v).bind fun w => (revivedItems vs).map (w :: ·)

def revivedMembers : List (String × Json) → Except RangeError (List (String × Wired))
  | [] => .ok []
  | (k, v) :: ms => (revived v).bind fun w => (revivedMembers ms).map ((k, w) :: ·)

end

mutual

/-- The value without what is undefined: null in a list, no member in an object. -/
def kept : Wired → Wired
  | .null => .null
  | .undefined => .null
  | .bool b => .bool b
  | .number n => .number n
  | .string s => .string s
  | .decimal d => .decimal d
  | .array items => .array (keptItems items)
  | .object members => .object (keptMembers members)

def keptItems : List Wired → List Wired
  | [] => []
  | v :: vs => v.kept :: keptItems vs

def keptMembers : List (String × Wired) → List (String × Wired)
  | [] => []
  | (k, v) :: ms => if v.isUndefined then keptMembers ms else (k, v.kept) :: keptMembers ms

end

mutual

/-- No object of the value holds just a text under `$dec`, and no decimal has a scale below zero. -/
def Plain : Wired → Prop
  | .decimal d => 0 ≤ d.s
  | .array items => PlainItems items
  | .object members => PlainMembers members ∧ ∀ text, keptMembers members ≠ [("$dec", .string text)]
  | _ => True

def PlainItems : List Wired → Prop
  | [] => True
  | v :: vs => v.Plain ∧ PlainItems vs

def PlainMembers : List (String × Wired) → Prop
  | [] => True
  | (_, v) :: ms => (v.isUndefined = false → v.Plain) ∧ PlainMembers ms

end

theorem reviveWire_object {members : List (String × Wired)} (h : ∀ text, members ≠ [("$dec", .string text)]) :
    reviveWire (.object members) = .ok (.object members) := by
  unfold reviveWire
  split
  next text heq => exact absurd (Wired.object.inj heq) (h text)
  next => rfl

/-- A decimal comes back from its JSON just where its scale is not below zero. -/
theorem revived_decimalJson (d : Decimal) : revived (decimalJson d) = .ok (.decimal d) ↔ 0 ≤ d.s := by
  have hrevived : revived (decimalJson d) = (Decimal.of d.toString).map .decimal := by
    simp only [decimalJson, revived, revivedMembers]
    rfl
  rw [hrevived]
  constructor
  · intro h
    cases hof : Decimal.of d.toString with
    | error e => rw [hof] at h; cases h
    | ok d' =>
      rw [hof] at h
      cases h
      exact Decimal.scale_nonneg_of_of hof
  · intro hs
    rw [Decimal.of_toString hs]
    rfl

/-- A list is read where its head and its rest are. -/
theorem cons_eq_ok {α β : Type} {f : α → β} (hf : ∀ v w, f v = f w → v = w) {x : Except RangeError α}
    {xs : Except RangeError (List β)} {v : α} {vs : List β} :
    (x.bind fun w => xs.map (f w :: ·)) = .ok (f v :: vs) ↔ x = .ok v ∧ xs = .ok vs := by
  cases x with
  | error e => exact ⟨fun h => (nomatch h), fun h => (nomatch h.1)⟩
  | ok w =>
    cases xs with
    | error e => exact ⟨fun h => (nomatch h), fun h => (nomatch h.2)⟩
    | ok ws =>
      constructor
      · intro h
        obtain ⟨hw, rfl⟩ := List.cons.inj (Except.ok.inj h)
        exact ⟨congrArg Except.ok (hf w v hw), rfl⟩
      · rintro ⟨hv, hvs⟩
        cases hv
        cases hvs
        rfl

/-- An object comes back where its members do, and do not read as a decimal's. -/
theorem reviveWire_eq_ok {members : Except RangeError (List (String × Wired))} {ms : List (String × Wired)} :
    (members.bind fun found => reviveWire (.object found)) = .ok (.object ms) ↔
      members = .ok ms ∧ ∀ text, ms ≠ [("$dec", .string text)] := by
  constructor
  · intro h
    cases members with
    | error e => cases h
    | ok found =>
      have hfound : reviveWire (.object found) = .ok (.object ms) := h
      by_cases hlone : ∃ text, found = [("$dec", .string text)]
      · obtain ⟨text, rfl⟩ := hlone
        have hmap : (Decimal.of text).map Wired.decimal = .ok (.object ms) := hfound
        cases hof : Decimal.of text <;> rw [hof] at hmap <;> cases hmap
      · have hnot : ∀ text, found ≠ [("$dec", .string text)] := fun text heq => hlone ⟨text, heq⟩
        rw [reviveWire_object hnot] at hfound
        cases hfound
        exact ⟨rfl, hnot⟩
  · rintro ⟨rfl, hnot⟩
    exact reviveWire_object hnot

mutual

theorem revived_encodeWire : (v : Wired) → (revived v.encodeWire = .ok v.kept ↔ v.Plain)
  | .null => by simp only [encodeWire, revived, kept, Plain]
  | .undefined => by simp only [encodeWire, revived, kept, Plain]
  | .bool b => by simp only [encodeWire, revived, kept, Plain]
  | .number n => by simp only [encodeWire, revived, kept, Plain]
  | .string s => by simp only [encodeWire, revived, kept, Plain]
  | .decimal d => by
    simp only [encodeWire, kept, Plain]
    exact revived_decimalJson d
  | .array items => by
    simp only [encodeWire, revived, kept, Plain]
    rw [← revivedItems_encodeItems items]
    cases revivedItems (encodeItems items) with
    | error e => exact ⟨fun h => (nomatch h), fun h => (nomatch h)⟩
    | ok found =>
      constructor
      · intro h
        cases h
        rfl
      · intro h
        cases h
        rfl
  | .object members => by
    simp only [encodeWire, revived, kept, Plain]
    rw [reviveWire_eq_ok, revivedMembers_encodeMembers members]

theorem revivedItems_encodeItems : (vs : List Wired) → (revivedItems (encodeItems vs) = .ok (keptItems vs) ↔ PlainItems vs)
  | [] => by simp only [encodeItems, revivedItems, keptItems, PlainItems]
  | v :: vs => by
    simp only [encodeItems, revivedItems, keptItems, PlainItems]
    rw [cons_eq_ok (f := fun w => w) fun _ _ h => h, revived_encodeWire v, revivedItems_encodeItems vs]

theorem revivedMembers_encodeMembers : (ms : List (String × Wired)) →
    (revivedMembers (encodeMembers ms) = .ok (keptMembers ms) ↔ PlainMembers ms)
  | [] => by simp only [encodeMembers, revivedMembers, keptMembers, PlainMembers]
  | (k, v) :: ms => by
    simp only [encodeMembers, keptMembers, PlainMembers]
    cases hv : v.isUndefined with
    | true =>
      simp only [if_true]
      rw [revivedMembers_encodeMembers ms]
      exact ⟨fun h => ⟨fun hno => (nomatch hno), h⟩, And.right⟩
    | false =>
      simp only [Bool.false_eq_true, if_false, revivedMembers]
      rw [cons_eq_ok fun _ _ heq => (Prod.mk.inj heq).2, revived_encodeWire v, revivedMembers_encodeMembers ms]
      exact ⟨fun h => ⟨fun _ => h.1, h.2⟩, fun h => ⟨h.1 trivial, h.2⟩⟩

end

/--
A value comes back from the wire as it was, what is undefined aside, if and only if no object of it holds a text under
`$dec` and nothing else, and no decimal of it has a scale below zero.  So two such values written alike are the same.
-/
theorem wire_round_trip (v : Wired) :
    (revived v.encodeWire = .ok v.kept ↔ v.Plain) ∧
    (v.Plain → ∀ w : Wired, w.Plain → w.encodeWire = v.encodeWire → w.kept = v.kept) := by
  refine ⟨revived_encodeWire v, fun hv w hw heq => ?_⟩
  have hback := (revived_encodeWire w).mpr hw
  rw [heq, (revived_encodeWire v).mpr hv] at hback
  exact (Except.ok.inj hback).symm

mutual

/-- Each decimal of the JSON is spelled as decimals are shown. -/
def Spelled : Json → Prop
  | .array items => SpelledItems items
  | .object members => SpelledMembers members ∧
    ∀ text, members = [("$dec", .string text)] → ∃ d, Decimal.of text = .ok d ∧ d.toString = text
  | _ => True

def SpelledItems : List Json → Prop
  | [] => True
  | v :: vs => Spelled v ∧ SpelledItems vs

def SpelledMembers : List (String × Json) → Prop
  | [] => True
  | (_, v) :: ms => Spelled v ∧ SpelledMembers ms

end

/-- What the reviver makes of an object. -/
theorem reviveWire_cases {found : List (String × Wired)} {v : Wired} (h : reviveWire (.object found) = .ok v) :
    (∃ text d, found = [("$dec", .string text)] ∧ Decimal.of text = .ok d ∧ v = .decimal d) ∨
      (∀ text, found ≠ [("$dec", .string text)]) ∧ v = .object found := by
  by_cases hlone : ∃ text, found = [("$dec", .string text)]
  · obtain ⟨text, rfl⟩ := hlone
    have hmap : (Decimal.of text).map Wired.decimal = .ok v := h
    cases hof : Decimal.of text with
    | error e => rw [hof] at hmap; cases hmap
    | ok d =>
      rw [hof] at hmap
      cases hmap
      exact Or.inl ⟨text, d, rfl, hof, rfl⟩
  · have hnot : ∀ text, found ≠ [("$dec", .string text)] := fun text heq => hlone ⟨text, heq⟩
    rw [reviveWire_object hnot] at h
    cases h
    exact Or.inr ⟨hnot, rfl⟩

/-- What is revived as an object or a decimal was an object. -/
theorem revived_object {members : List (String × Json)} {v : Wired} (h : revived (.object members) = .ok v) :
    ∃ found, revivedMembers members = .ok found ∧ reviveWire (.object found) = .ok v := by
  simp only [revived] at h
  cases hfound : revivedMembers members with
  | error e => rw [hfound] at h; cases h
  | ok found => rw [hfound] at h; exact ⟨found, rfl, h⟩

theorem revived_array {items : List Json} {v : Wired} (h : revived (.array items) = .ok v) :
    ∃ found, revivedItems items = .ok found ∧ v = .array found := by
  simp only [revived] at h
  cases hfound : revivedItems items with
  | error e => rw [hfound] at h; cases h
  | ok found =>
    rw [hfound] at h
    cases h
    exact ⟨found, rfl, rfl⟩

/-- Only a text is revived as a text. -/
theorem eq_string_of_revived {j : Json} {text : String} (h : revived j = .ok (.string text)) : j = .string text := by
  cases j with
  | null => simp only [revived] at h; cases h
  | bool b => simp only [revived] at h; cases h
  | number n => simp only [revived] at h; cases h
  | string s => simp only [revived] at h; cases h; rfl
  | array items =>
    obtain ⟨found, -, heq⟩ := revived_array h
    cases heq
  | object members =>
    obtain ⟨found, -, hfound⟩ := revived_object h
    obtain ⟨_, _, -, -, heq⟩ | ⟨-, heq⟩ := reviveWire_cases hfound <;> cases heq

theorem revivedMembers_cons {k : String} {j : Json} {ms : List (String × Json)} {found : List (String × Wired)}
    (h : revivedMembers ((k, j) :: ms) = .ok found) :
    ∃ w rest, found = (k, w) :: rest ∧ revived j = .ok w ∧ revivedMembers ms = .ok rest := by
  simp only [revivedMembers] at h
  cases hw : revived j with
  | error e => rw [hw] at h; cases h
  | ok w =>
    cases hrest : revivedMembers ms with
    | error e => rw [hw, hrest] at h; cases h
    | ok rest =>
      rw [hw, hrest] at h
      cases h
      exact ⟨w, rest, rfl, rfl, rfl⟩

/-- Members read as a decimal's just where they are a text under `$dec` and nothing else. -/
theorem revivedMembers_lone {ms : List (String × Json)} {found : List (String × Wired)} (h : revivedMembers ms = .ok found)
    (text : String) : found = [("$dec", .string text)] ↔ ms = [("$dec", .string text)] := by
  constructor
  · rintro rfl
    cases ms with
    | nil => simp only [revivedMembers] at h; cases h
    | cons m ms =>
      obtain ⟨k, j⟩ := m
      obtain ⟨w, rest, heq, hw, hrest⟩ := revivedMembers_cons h
      cases heq
      rw [eq_string_of_revived hw]
      cases ms with
      | nil => rfl
      | cons m ms =>
        obtain ⟨_, _, heq, -, -⟩ := revivedMembers_cons hrest
        cases heq
  · rintro rfl
    obtain ⟨w, rest, rfl, hw, hrest⟩ := revivedMembers_cons h
    simp only [revived] at hw
    simp only [revivedMembers] at hrest
    cases hw
    cases hrest
    rfl

theorem decimalJson_eq_iff {d : Decimal} {text : String} : decimalJson d = .object [("$dec", .string text)] ↔ d.toString = text := by
  constructor
  · intro h
    cases h
    rfl
  · rintro rfl
    rfl

mutual

theorem encodeWire_of_revived : (j : Json) → (v : Wired) → revived j = .ok v →
    v.isUndefined = false ∧ (v.encodeWire = j ↔ Spelled j)
  | .null, v, h => by
    simp only [revived] at h
    cases h
    exact ⟨rfl, by simp only [encodeWire, Spelled]⟩
  | .bool b, v, h => by
    simp only [revived] at h
    cases h
    exact ⟨rfl, by simp only [encodeWire, Spelled]⟩
  | .number n, v, h => by
    simp only [revived] at h
    cases h
    exact ⟨rfl, by simp only [encodeWire, Spelled]⟩
  | .string s, v, h => by
    simp only [revived] at h
    cases h
    exact ⟨rfl, by simp only [encodeWire, Spelled]⟩
  | .array items, v, h => by
    obtain ⟨found, hfound, rfl⟩ := revived_array h
    refine ⟨rfl, ?_⟩
    simp only [encodeWire, Spelled, Json.array.injEq]
    exact encodeItems_of_revived items found hfound
  | .object members, v, h => by
    obtain ⟨found, hfound, hrevive⟩ := revived_object h
    have hmembers := encodeMembers_of_revived members found hfound
    obtain ⟨text, d, hlone, hof, rfl⟩ | ⟨hnot, rfl⟩ := reviveWire_cases hrevive
    · -- a decimal: its text is spelled as it is shown, or not
      refine ⟨rfl, ?_⟩
      obtain rfl := (revivedMembers_lone hfound text).mp hlone
      simp only [encodeWire, Spelled, SpelledMembers, true_and]
      rw [decimalJson_eq_iff]
      constructor
      · intro htext text' heq
        cases heq
        exact ⟨d, hof, htext⟩
      · intro hall
        obtain ⟨d', hof', htext⟩ := hall text rfl
        rw [hof] at hof'
        cases hof'
        exact htext
    · refine ⟨rfl, ?_⟩
      simp only [encodeWire, Spelled, Json.object.injEq]
      rw [hmembers]
      exact ⟨fun hm => ⟨hm, fun text heq => absurd ((revivedMembers_lone hfound text).mpr heq) (hnot text)⟩, And.left⟩

theorem encodeItems_of_revived : (js : List Json) → (vs : List Wired) → revivedItems js = .ok vs →
    (encodeItems vs = js ↔ SpelledItems js)
  | [], vs, h => by
    simp only [revivedItems] at h
    cases h
    simp only [encodeItems, SpelledItems]
  | j :: js, vs, h => by
    simp only [revivedItems] at h
    cases hw : revived j with
    | error e => rw [hw] at h; cases h
    | ok w =>
      cases hrest : revivedItems js with
      | error e => rw [hw, hrest] at h; cases h
      | ok rest =>
        rw [hw, hrest] at h
        cases h
        simp only [encodeItems, SpelledItems, List.cons.injEq]
        rw [(encodeWire_of_revived j w hw).2, encodeItems_of_revived js rest hrest]

theorem encodeMembers_of_revived : (ms : List (String × Json)) → (found : List (String × Wired)) →
    revivedMembers ms = .ok found → (encodeMembers found = ms ↔ SpelledMembers ms)
  | [], found, h => by
    simp only [revivedMembers] at h
    cases h
    simp only [encodeMembers, SpelledMembers]
  | (k, j) :: ms, found, h => by
    obtain ⟨w, rest, rfl, hw, hrest⟩ := revivedMembers_cons h
    obtain ⟨hdefined, hspelled⟩ := encodeWire_of_revived j w hw
    simp only [encodeMembers, hdefined, Bool.false_eq_true, if_false, SpelledMembers, List.cons.injEq, Prod.mk.injEq, true_and]
    rw [hspelled, encodeMembers_of_revived ms rest hrest]

end

/-- What is read from the wire and sent back is as it came if and only if each decimal was spelled as decimals are shown. -/
theorem sent_back (j : Json) (v : Wired) (h : revived j = .ok v) : v.encodeWire = j ↔ Spelled j :=
  (encodeWire_of_revived j v h).2

/-- A decimal written with a sign is sent back without it. -/
theorem sent_back_signed :
    ((Wired.decimal ⟨120, 2⟩).encodeWire = .object [("$dec", .string "+1.20")] ↔ Spelled (.object [("$dec", .string "+1.20")])) :=
  sent_back (.object [("$dec", .string "+1.20")]) (.decimal ⟨120, 2⟩) rfl

end Wired

end Norbital.Std

import Norbital.Lib.JsNumber

/-!
# JSON texts

Trees of JSON, the members of an object in the order they are written, and the text
`JSON.stringify` writes of them.  Two trees with one text are one tree.
-/

namespace JsString

/-- `\uXXXX`. -/
def escapeHex (c : CodeUnit) : JsString :=
  [92, 117, hexUnit (c.toNat / 4096), hexUnit (c.toNat / 256 % 16), hexUnit (c.toNat / 16 % 16), hexUnit (c.toNat % 16)]

/-- A unit that is no half of a pair of surrogates. -/
def escapeUnit (c : CodeUnit) : JsString :=
  if c = 34 then [92, 34]
  else if c = 92 then [92, 92]
  else if c = 8 then [92, 98]
  else if c = 12 then [92, 102]
  else if c = 10 then [92, 110]
  else if c = 13 then [92, 114]
  else if c = 9 then [92, 116]
  else if c < 32 ∨ 0xD800 ≤ c ∧ c ≤ 0xDFFF then escapeHex c
  else [c]

def escaped : JsString → JsString
  | [] => []
  | [c] => escapeUnit c
  | c :: d :: rest =>
    if isHigh c && isLow d then c :: d :: escaped rest else escapeUnit c ++ escaped (d :: rest)

/-- `QuoteJSONString`. -/
def quoted (s : JsString) : JsString := 34 :: escaped s ++ [34]

def unhex (c : CodeUnit) : ℕ := if c < 58 then c.toNat - 48 else c.toNat - 87

def unescape (c : CodeUnit) : CodeUnit :=
  if c = 98 then 8 else if c = 102 then 12 else if c = 110 then 10 else if c = 114 then 13 else if c = 116 then 9 else c

/-- The first unit of a string inside its quotes. -/
def readUnit : JsString → Option (CodeUnit × JsString)
  | [] => none
  | c :: rest =>
    if c = 92 then
      match rest with
      | [] => none
      | d :: after =>
        if d = 117 then
          match after with
          | x :: y :: z :: w :: after =>
            some ((4096 * unhex x + 256 * unhex y + 16 * unhex z + unhex w).toUInt16, after)
          | _ => none
        else some (unescape d, after)
    else some (c, rest)

theorem unhex_hexUnit {n : ℕ} (h : n < 16) : unhex (hexUnit n) = n := by
  interval_cases n <;> decide

theorem readUnit_escapeHex (c : CodeUnit) (rest : JsString) : readUnit (escapeHex c ++ rest) = some (c, rest) := by
  have hlt := c.toNat_lt
  have hsum : 4096 * (c.toNat / 4096) + 256 * (c.toNat / 256 % 16) + 16 * (c.toNat / 16 % 16) + c.toNat % 16 = c.toNat := by
    omega
  show some ((4096 * unhex (hexUnit (c.toNat / 4096)) + 256 * unhex (hexUnit (c.toNat / 256 % 16)) +
    16 * unhex (hexUnit (c.toNat / 16 % 16)) + unhex (hexUnit (c.toNat % 16))).toUInt16, rest) = _
  rw [unhex_hexUnit (by omega), unhex_hexUnit (by omega), unhex_hexUnit (by omega), unhex_hexUnit (by omega), hsum]
  simp

theorem readUnit_raw {c : CodeUnit} (h : c ≠ 92) (rest : JsString) : readUnit (c :: rest) = some (c, rest) := if_neg h

theorem readUnit_escapeUnit (c : CodeUnit) (rest : JsString) : readUnit (escapeUnit c ++ rest) = some (c, rest) := by
  rw [escapeUnit]
  split_ifs with h₁ h₂ h₃ h₄ h₅ h₆ h₇ h₈
  · rw [h₁]; rfl
  · rw [h₂]; rfl
  · rw [h₃]; rfl
  · rw [h₄]; rfl
  · rw [h₅]; rfl
  · rw [h₆]; rfl
  · rw [h₇]; rfl
  · exact readUnit_escapeHex c rest
  · exact readUnit_raw h₂ rest

/-- No escaped unit begins with the closing quote. -/
theorem escapeUnit_head (c : CodeUnit) (rest : JsString) : (escapeUnit c ++ rest).head? ≠ some 34 := by
  rw [escapeUnit, escapeHex]
  split_ifs with h₁ <;> simp [h₁]

theorem surrogate_ne {c : CodeUnit} (h : isHigh c = true ∨ isLow c = true) : c ≠ 92 ∧ c ≠ 34 := by
  constructor <;> rintro rfl <;> exact absurd h (by decide)

/-- At most `n` units of a string, up to its closing quote. -/
def readString : ℕ → JsString → Option (JsString × JsString)
  | 0, _ => none
  | n + 1, t =>
    if t.head? = some 34 then some ([], t.tail)
    else (readUnit t).bind fun (c, rest) => (readString n rest).map fun (s, after) => (c :: s, after)

theorem readString_unit {n : ℕ} {t rest s after : JsString} {c : CodeUnit} (hhead : t.head? ≠ some 34)
    (hunit : readUnit t = some (c, rest)) (hrest : readString n rest = some (s, after)) :
    readString (n + 1) t = some (c :: s, after) := by
  rw [readString, if_neg hhead, hunit]
  show (readString n rest).map _ = _
  rw [hrest]
  rfl

theorem readString_escaped {n : ℕ} {s : JsString} (hn : s.length < n) (rest : JsString) :
    readString n (escaped s ++ 34 :: rest) = some (s, rest) := by
  induction s using escaped.induct generalizing n with
  | case1 =>
    obtain ⟨n, rfl⟩ := Nat.exists_eq_add_one_of_ne_zero (Nat.ne_zero_of_lt hn)
    rfl
  | case2 c =>
    obtain ⟨n, rfl⟩ := Nat.exists_eq_add_one_of_ne_zero (Nat.ne_zero_of_lt hn)
    obtain ⟨n, rfl⟩ := Nat.exists_eq_add_one_of_ne_zero (show n ≠ 0 by rw [List.length_singleton] at hn; omega)
    exact readString_unit (escapeUnit_head c _) (readUnit_escapeUnit c _) rfl
  | case3 c d s hpair ih =>
    obtain ⟨hhigh, hlow⟩ := Bool.and_eq_true_iff.mp hpair
    rw [List.length_cons, List.length_cons] at hn
    obtain ⟨n, rfl⟩ : ∃ m, n = m + 1 + 1 := ⟨n - 2, by omega⟩
    rw [escaped, if_pos hpair]
    refine readString_unit ?_ (readUnit_raw (surrogate_ne (.inl hhigh)).1 _)
      (readString_unit ?_ (readUnit_raw (surrogate_ne (.inr hlow)).1 _) (ih (by omega)))
    · exact fun h => (surrogate_ne (.inl hhigh)).2 (Option.some.inj h)
    · exact fun h => (surrogate_ne (.inr hlow)).2 (Option.some.inj h)
  | case4 c d s hpair ih =>
    obtain ⟨n, rfl⟩ := Nat.exists_eq_add_one_of_ne_zero (Nat.ne_zero_of_lt hn)
    rw [escaped, if_neg hpair, List.append_assoc]
    exact readString_unit (escapeUnit_head c _) (readUnit_escapeUnit c _) (ih (by simpa using hn))

/-- A quoted string is no beginning of another one. -/
theorem quoted_append_inj {s t x y : JsString} (h : quoted s ++ x = quoted t ++ y) : s = t ∧ x = y := by
  have h' : escaped s ++ 34 :: x = escaped t ++ 34 :: y := by simpa [quoted] using h
  have hs := @readString_escaped (s.length + t.length + 1) s (by omega) x
  rw [h', readString_escaped (by omega)] at hs
  obtain ⟨rfl, rfl⟩ := Prod.mk.inj (Option.some.inj hs)
  exact ⟨rfl, rfl⟩

end JsString

inductive JsonTree where
  | null
  | bool (b : Bool)
  | number (n : JsNumber)
  | string (s : JsString)
  | array (items : List JsonTree)
  | object (members : List (JsString × JsonTree))

namespace JsonTree

mutual

/-- `JSON.stringify`. -/
def text : JsonTree → JsString
  | .null => .ascii "null"
  | .bool true => .ascii "true"
  | .bool false => .ascii "false"
  | .number n => n.text
  | .string s => s.quoted
  | .array [] => [91, 93]
  | .array (t :: ts) => 91 :: t.text ++ moreItems ts
  | .object [] => [123, 125]
  | .object ((k, t) :: ms) => 123 :: k.quoted ++ 58 :: t.text ++ moreMembers ms

/-- The items after the first, and the closing bracket. -/
def moreItems : List JsonTree → JsString
  | [] => [93]
  | t :: ts => 44 :: t.text ++ moreItems ts

def moreMembers : List (JsString × JsonTree) → JsString
  | [] => [125]
  | (k, t) :: ms => 44 :: k.quoted ++ 58 :: t.text ++ moreMembers ms

end

/-- A text that no number runs on into. -/
def Apart (x : JsString) : Prop := x.head?.all (!JsNumber.isUnit ·) = true

def tag : JsonTree → ℕ
  | .null => 0
  | .bool _ => 1
  | .number _ => 2
  | .string _ => 3
  | .array _ => 4
  | .object _ => 5

/-- The tag of the trees whose texts begin with a unit. -/
def tagOf (c : CodeUnit) : ℕ :=
  if c = 110 then 0 else if c = 116 ∨ c = 102 then 1 else if 48 ≤ c ∧ c ≤ 57 ∨ c = 45 then 2
  else if c = 34 then 3 else if c = 91 then 4 else if c = 123 then 5 else 6

theorem exists_text (t : JsonTree) : ∃ c rest, t.text = c :: rest ∧ tagOf c = t.tag := by
  cases t with
  | null => exact ⟨_, _, rfl, rfl⟩
  | bool b => cases b <;> exact ⟨_, _, rfl, rfl⟩
  | number n =>
    obtain ⟨c, rest, htext, hc⟩ := n.text_head
    refine ⟨c, rest, htext, ?_⟩
    obtain ⟨hlow, hhigh⟩ | rfl := hc
    · have hne : c ≠ 110 ∧ ¬(c = 116 ∨ c = 102) := by
        constructor
        · rintro rfl
          exact absurd hhigh (by decide)
        · rintro (rfl | rfl) <;> exact absurd hhigh (by decide)
      rw [tagOf, if_neg hne.1, if_neg hne.2, if_pos (.inl ⟨hlow, hhigh⟩)]
      rfl
    · rfl
  | string s => exact ⟨_, _, rfl, rfl⟩
  | array items => cases items <;> exact ⟨_, _, rfl, rfl⟩
  | object members =>
    cases members with
    | nil => exact ⟨_, _, rfl, rfl⟩
    | cons m ms =>
      obtain ⟨k, t⟩ := m
      exact ⟨_, _, rfl, rfl⟩

theorem tag_lt (t : JsonTree) : t.tag < 6 := by
  cases t <;> simp [tag]

theorem tag_eq {t u : JsonTree} {x y : JsString} (h : t.text ++ x = u.text ++ y) : t.tag = u.tag := by
  obtain ⟨c, rest, ht, hc⟩ := t.exists_text
  obtain ⟨d, rest', hu, hd⟩ := u.exists_text
  rw [ht, hu, List.cons_append, List.cons_append] at h
  rw [← hc, ← hd, (List.cons.inj h).1]

/-- No tree's text begins with a bracket that closes. -/
theorem text_append_ne (t : JsonTree) (x : JsString) {c : CodeUnit} (hc : tagOf c = 6) (y : JsString) : t.text ++ x ≠ c :: y := by
  intro h
  obtain ⟨d, rest, ht, hd⟩ := t.exists_text
  rw [ht, List.cons_append] at h
  have := t.tag_lt
  rw [← hd, (List.cons.inj h).1, hc] at this
  omega

theorem number_append_inj {n m : JsNumber} {x y : JsString} (hx : Apart x) (hy : Apart y) (h : n.text ++ x = m.text ++ y) :
    n = m ∧ x = y := by
  have hread : ∀ {n : JsNumber} {x : JsString}, Apart x →
      (n.text ++ x).takeWhile JsNumber.isUnit = n.text ∧ (n.text ++ x).dropWhile JsNumber.isUnit = x := by
    intro n x hx
    rw [List.takeWhile_append_of_pos n.text_isUnit, List.dropWhile_append_of_pos n.text_isUnit]
    cases x with
    | nil => exact ⟨List.append_nil _, rfl⟩
    | cons c x =>
      have hc : JsNumber.isUnit c = false := by simpa [Apart] using hx
      rw [List.takeWhile_cons, List.dropWhile_cons, hc]
      exact ⟨List.append_nil _, rfl⟩
  obtain ⟨hn, hx⟩ := @hread n x hx
  obtain ⟨hm, hy⟩ := @hread m y hy
  rw [h] at hn hx
  exact ⟨JsNumber.text_injective (hn.symm.trans hm), hx.symm.trans hy⟩

theorem apart_moreItems (ts : List JsonTree) (x : JsString) : Apart (moreItems ts ++ x) := by
  cases ts <;> rfl

theorem apart_moreMembers (ms : List (JsString × JsonTree)) (x : JsString) : Apart (moreMembers ms ++ x) := by
  cases ms with
  | nil => rfl
  | cons m ms =>
    obtain ⟨k, t⟩ := m
    rfl

mutual

theorem text_append_inj : (t u : JsonTree) → {x y : JsString} → Apart x → Apart y → t.text ++ x = u.text ++ y → t = u ∧ x = y
  | .null, u, x, y, _, _, h => by
    have htag := tag_eq h
    cases u <;> try cases htag
    exact ⟨rfl, List.append_cancel_left h⟩
  | .bool b, u, x, y, _, _, h => by
    have htag := tag_eq h
    cases u <;> try cases htag
    case bool b' =>
      cases b <;> cases b'
      · exact ⟨rfl, List.append_cancel_left h⟩
      · cases h
      · cases h
      · exact ⟨rfl, List.append_cancel_left h⟩
  | .number n, u, x, y, hx, hy, h => by
    have htag := tag_eq h
    cases u <;> try cases htag
    case number m =>
      obtain ⟨rfl, rfl⟩ := number_append_inj hx hy h
      exact ⟨rfl, rfl⟩
  | .string s, u, x, y, _, _, h => by
    have htag := tag_eq h
    cases u <;> try cases htag
    case string s' =>
      obtain ⟨rfl, rfl⟩ := JsString.quoted_append_inj h
      exact ⟨rfl, rfl⟩
  | .array [], u, x, y, _, _, h => by
    have htag := tag_eq h
    cases u <;> try cases htag
    case array us =>
      cases us with
      | nil => exact ⟨rfl, List.append_cancel_left h⟩
      | cons u us =>
        -- the one text goes on with `]`, with which no value begins
        refine absurd ?_ (u.text_append_ne (moreItems us ++ y) (c := 93) rfl x)
        simpa [text] using h.symm
  | .array (t :: ts), u, x, y, _, _, h => by
    have htag := tag_eq h
    cases u <;> try cases htag
    case array us =>
      cases us with
      | nil =>
        refine absurd ?_ (t.text_append_ne (moreItems ts ++ x) (c := 93) rfl y)
        simpa [text] using h
      | cons u us =>
        have h' : t.text ++ (moreItems ts ++ x) = u.text ++ (moreItems us ++ y) := by simpa [text] using h
        obtain ⟨rfl, hrest⟩ := text_append_inj t u (apart_moreItems ts x) (apart_moreItems us y) h'
        obtain ⟨rfl, rfl⟩ := moreItems_append_inj ts us hrest
        exact ⟨rfl, rfl⟩
  | .object [], u, x, y, _, _, h => by
    have htag := tag_eq h
    cases u <;> try cases htag
    case object ns =>
      cases ns with
      | nil => exact ⟨rfl, List.append_cancel_left h⟩
      | cons n ns => cases h
  | .object ((k, t) :: ms), u, x, y, _, _, h => by
    have htag := tag_eq h
    cases u <;> try cases htag
    case object ns =>
      cases ns with
      | nil => cases h
      | cons n ns =>
        obtain ⟨k', u⟩ := n
        have h' : k.quoted ++ (58 :: t.text ++ (moreMembers ms ++ x)) = k'.quoted ++ (58 :: u.text ++ (moreMembers ns ++ y)) := by
          simpa [text] using h
        obtain ⟨rfl, hvalue⟩ := JsString.quoted_append_inj h'
        obtain ⟨rfl, hrest⟩ := text_append_inj t u (apart_moreMembers ms x) (apart_moreMembers ns y) (List.cons.inj hvalue).2
        obtain ⟨rfl, rfl⟩ := moreMembers_append_inj ms ns hrest
        exact ⟨rfl, rfl⟩

theorem moreItems_append_inj : (ts us : List JsonTree) → {x y : JsString} → moreItems ts ++ x = moreItems us ++ y → ts = us ∧ x = y
  | [], [], _, _, h => ⟨rfl, List.append_cancel_left h⟩
  | [], _ :: _, _, _, h => by cases h
  | _ :: _, [], _, _, h => by cases h
  | t :: ts, u :: us, x, y, h => by
    have h' : t.text ++ (moreItems ts ++ x) = u.text ++ (moreItems us ++ y) := by simpa [moreItems] using h
    obtain ⟨rfl, hrest⟩ := text_append_inj t u (apart_moreItems ts x) (apart_moreItems us y) h'
    obtain ⟨rfl, rfl⟩ := moreItems_append_inj ts us hrest
    exact ⟨rfl, rfl⟩

theorem moreMembers_append_inj : (ms ns : List (JsString × JsonTree)) → {x y : JsString} →
    moreMembers ms ++ x = moreMembers ns ++ y → ms = ns ∧ x = y
  | [], [], _, _, h => ⟨rfl, List.append_cancel_left h⟩
  | [], (_, _) :: _, _, _, h => by cases h
  | (_, _) :: _, [], _, _, h => by cases h
  | (k, t) :: ms, (k', u) :: ns, x, y, h => by
    have h' : k.quoted ++ (58 :: t.text ++ (moreMembers ms ++ x)) = k'.quoted ++ (58 :: u.text ++ (moreMembers ns ++ y)) := by
      simpa [moreMembers] using h
    obtain ⟨rfl, hvalue⟩ := JsString.quoted_append_inj h'
    obtain ⟨rfl, hrest⟩ := text_append_inj t u (apart_moreMembers ms x) (apart_moreMembers ns y) (List.cons.inj hvalue).2
    obtain ⟨rfl, rfl⟩ := moreMembers_append_inj ms ns hrest
    exact ⟨rfl, rfl⟩

end

theorem text_injective : Function.Injective text := by
  intro t u h
  exact (@text_append_inj t u [] [] rfl rfl (by rw [h])).1

end JsonTree

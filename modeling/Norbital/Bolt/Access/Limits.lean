import Norbital.Bolt.Access.RateWindows

/-!
# Limits

The limits a caller's policies declare (`bolt/src/engine/access/authority.ts`), the
charges of one request, and the piece of its statement that persists them
(`bolt/src/engine/access/rate.ts`).  What `parseRate` reads is the parameter
`parseRate`; a rate it refuses is left out.
-/

namespace Norbital.Bolt

inductive Per where
  | actor
  | ip
  | sender
  | subject
  deriving DecidableEq

def Per.text : Per → String
  | actor => "actor"
  | ip => "ip"
  | sender => "sender"
  | subject => "subject"

structure LimitRule where
  key : String
  rate : String
  per : Per
  deriving DecidableEq

/-- One `limits` entry: a bare rate, or a rate and whom it counts. -/
inductive LimitData where
  | bare (rate : String)
  | counted (rate : String) (per : Per)

/-- `one` of `limitRules`. -/
def limitRule (key : String) : LimitData → LimitRule
  | .bare rate => ⟨key, rate, if "envoys.".toList.isPrefixOf key.toList then .sender else .actor⟩
  | .counted rate per => ⟨key, rate, per⟩

/-- The `limits` of a policy: entries or lists of them by key. -/
abbrev PolicyLimits := List (String × (LimitData ⊕ List LimitData))

def limitRules (key : String) : LimitData ⊕ List LimitData → List LimitRule
  | .inl entry => [limitRule key entry]
  | .inr entries => entries.map (limitRule key)

def defaultLimits : List LimitRule := [
  ⟨"act", "600/min", .actor⟩,
  ⟨"read", "3000/min", .actor⟩,
  ⟨"upload", "120/min", .actor⟩,
  ⟨"convert", "30/min", .actor⟩,
  ⟨"agent", "100/h", .actor⟩,
  ⟨"envoys.unrecognised", "1/15min", .sender⟩]

def visitorDefaults : List LimitRule := [
  ⟨"act", "120/h", .ip⟩,
  ⟨"register", "20/h", .ip⟩,
  ⟨"upload", "20/h", .ip⟩,
  ⟨"read", "600/min", .ip⟩]

/-- The rules that the held policies declare. -/
def declaredLimits (policies : List PolicyLimits) : List LimitRule :=
  policies.flatMap fun limits => limits.flatMap fun e => limitRules e.1 e.2

/-- `limits` of `compileAuthority`. -/
def compileLimits (visitor : Bool) (policies : List PolicyLimits) : List LimitRule :=
  let declared := declaredLimits policies
  declared ++ (if visitor then visitorDefaults else defaultLimits).filter fun d => !declared.any fun x => x.key == d.key

def LimitRule.text (rule : LimitRule) : String := rule.key ++ ":" ++ rule.rate ++ ":" ++ rule.per.text

section Charges

variable (parseRate : String → Rate)

/-- What one rule charges, if the request is of its kind and is counted as it counts. -/
def chargeOf (kinds : List String) (who : Per → Option String) (rule : LimitRule) : Option Charge :=
  if kinds.contains rule.key then
    (who rule.per).map fun bucket => { parseRate rule.rate with rule := rule.text, bucket := bucket }
  else none

def chargesFor (limits : List LimitRule) (kinds : List String) (who : Per → Option String) : List Charge :=
  limits.filterMap (chargeOf parseRate kinds who)

end Charges

/-- A PostgreSQL `int`. -/
def fitsInt (n : ℤ) : Bool := -2147483648 ≤ n && n ≤ 2147483647

/-- `INSERT … ON CONFLICT DO UPDATE SET n = n + 1` of one row for each key: it fails where a row is hit twice. -/
def upsert (table : RateKey → ℕ) (keys : List RateKey) : Option (RateKey → ℕ) :=
  if keys.Nodup then some fun key => if key ∈ keys then table key + 1 else table key else none

/-- The rows returned that are still under the limit of a charge, as the gate joins them. -/
def underLimit (charges : List Charge) (nowMs : ℕ) (after : RateKey → ℕ) : List Charge :=
  (charges.map (·.key nowMs)).flatMap fun key => charges.filter fun c => c.key nowMs == key && decide ((after key : ℤ) ≤ c.limit)

/-- The table after the piece and its gate, or none where the statement fails. -/
def ratePiece (charges : List Charge) (nowMs : ℕ) (table : RateKey → ℕ) : Option ((RateKey → ℕ) × Bool) :=
  if charges.isEmpty then some (table, true)
  else if charges.any fun c => !fitsInt c.limit then none
  else
    (upsert table (charges.map (·.key nowMs))).map fun after =>
      (after, (underLimit charges nowMs after).length == charges.length)

/-- Charges that count once each: no bucket is named twice, and in every table the piece raises
each named counter by one and admits exactly when none is then over its limit. -/
structure CountOnce (charges : List Charge) : Prop where
  nodup : (charges.map fun c => (c.rule, c.bucket)).Nodup
  persisted : ∀ nowMs table, ∃ after admitted, ratePiece charges nowMs table = some (after, admitted) ∧
    (∀ key, after key = if key ∈ charges.map (·.key nowMs) then table key + 1 else table key) ∧
    (admitted = true ↔ ∀ c ∈ charges, (after (c.key nowMs) : ℤ) ≤ c.limit)

/-- The rules of a list that charge a request. -/
def asked (limits : List LimitRule) (kinds : List String) (who : Per → Option String) : List LimitRule :=
  limits.filter fun rule => kinds.contains rule.key && (who rule.per).isSome

theorem nodup_key {charges : List Charge} (h : (charges.map fun c => (c.rule, c.bucket)).Nodup) (nowMs : ℕ) :
    (charges.map (·.key nowMs)).Nodup := by
  have hmap : (charges.map fun c => (c.rule, c.bucket)) = (charges.map (·.key nowMs)).map fun k => (k.1, k.2.1) := by
    rw [List.map_map]
    rfl
  rw [hmap] at h
  exact h.of_map _

theorem filter_key {α κ : Type*} [BEq κ] [LawfulBEq κ] {f : α → κ} {l : List α} (hnodup : (l.map f).Nodup) {a : α} (ha : a ∈ l) :
    (l.filter fun b => f b == f a) = [a] := by
  induction l with
  | nil => cases ha
  | cons b l ih =>
    rw [List.map_cons, List.nodup_cons] at hnodup
    rw [List.filter_cons]
    rcases List.mem_cons.1 ha with rfl | ha
    · have hrest : (l.filter fun b => f b == f a) = [] := by
        rw [List.filter_eq_nil_iff]
        intro b hb heq
        exact hnodup.1 (beq_iff_eq.1 heq ▸ List.mem_map_of_mem hb)
      rw [beq_self_eq_true, if_pos rfl, hrest]
    · have hne : (f b == f a) = false := by
        rw [beq_eq_false_iff_ne]
        intro heq
        exact hnodup.1 (heq ▸ List.mem_map_of_mem ha)
      rw [hne, if_neg Bool.false_ne_true, ih hnodup.2 ha]

/-- Each row returned meets its own charge only. -/
theorem underLimit_eq {charges : List Charge} {nowMs : ℕ} (hnodup : (charges.map (·.key nowMs)).Nodup) (after : RateKey → ℕ) :
    underLimit charges nowMs after = charges.filter fun c => decide ((after (c.key nowMs) : ℤ) ≤ c.limit) := by
  rw [underLimit, List.flatMap_map]
  have hone : ∀ c ∈ charges, (charges.filter fun c' => c'.key nowMs == c.key nowMs && decide ((after (c.key nowMs) : ℤ) ≤ c'.limit)) =
      [c].filter fun c => decide ((after (c.key nowMs) : ℤ) ≤ c.limit) := by
    intro c hc
    rw [← filter_key hnodup hc, List.filter_filter]
    apply List.filter_congr
    intro c' _
    by_cases hkey : c'.key nowMs = c.key nowMs
    · rw [hkey, Bool.and_comm]
    · rw [beq_false_of_ne hkey, Bool.false_and, Bool.and_false]
  rw [List.flatMap_congr hone, ← List.filter_flatMap, List.flatMap_singleton']

theorem countOnce_iff (charges : List Charge) :
    CountOnce charges ↔ (charges.map fun c => (c.rule, c.bucket)).Nodup ∧ ∀ c ∈ charges, fitsInt c.limit := by
  constructor
  · intro h
    refine ⟨h.nodup, ?_⟩
    intro c hc
    obtain ⟨after, admitted, hpiece, -⟩ := h.persisted 0 fun _ => 0
    rw [ratePiece] at hpiece
    split_ifs at hpiece with hempty hrange
    · rw [List.isEmpty_iff.1 hempty] at hc
      cases hc
    · rw [Bool.not_eq_true, List.any_eq_false] at hrange
      simpa using hrange c hc
  · rintro ⟨hnodup, hrange⟩
    refine ⟨hnodup, ?_⟩
    intro nowMs table
    have hkeys := nodup_key hnodup nowMs
    have hfits : (charges.any fun c => !fitsInt c.limit) = false := by
      rw [List.any_eq_false]
      intro c hc
      simp [hrange c hc]
    rw [ratePiece]
    cases charges with
    | nil => exact ⟨table, true, rfl, by simp, by simp⟩
    | cons c charges =>
      rw [List.isEmpty_cons, if_neg Bool.false_ne_true, hfits, if_neg Bool.false_ne_true, upsert, if_pos hkeys]
      refine ⟨_, _, rfl, fun _ => rfl, ?_⟩
      rw [underLimit_eq hkeys, beq_iff_eq, List.length_filter_eq_length_iff]
      simp only [decide_eq_true_eq]

theorem splitOn_text (r : LimitRule) :
    r.text.toList.splitOn ':' = r.key.toList.splitOn ':' ++ (r.rate.toList.splitOn ':' ++ [r.per.text.toList]) := by
  have htext : r.text.toList = r.key.toList ++ ':' :: (r.rate.toList ++ ':' :: r.per.text.toList) := by
    simp [LimitRule.text]
  have hper : ':' ∉ r.per.text.toList := by
    cases r.per <;> decide
  rw [htext, List.splitOn_append_cons_self, List.splitOn_append_cons_self, List.splitOn_eq_singleton hper]

/-- The text of a rule names what it counts by. -/
theorem per_eq_of_text {r s : LimitRule} (h : r.text = s.text) : r.per = s.per := by
  have hsplit := congrArg (fun text : String => text.toList.splitOn ':') h
  simp only [splitOn_text, ← List.append_assoc] at hsplit
  have hlast := (List.append_inj' hsplit rfl).2
  have htexts : ∀ p q : Per, [p.text.toList] = [q.text.toList] → p = q := by
    intro p q
    cases p <;> cases q <;> decide
  exact htexts _ _ hlast

/-- A text with two colons is of one key only. -/
theorem key_eq_of_text {d r : LimitRule} (hkey : ':' ∉ d.key.toList) (hrate : ':' ∉ d.rate.toList) (h : r.text = d.text) :
    r.key = d.key := by
  have hsplit := congrArg (fun text : String => text.toList.splitOn ':') h
  simp only [splitOn_text, List.splitOn_eq_singleton hkey, List.splitOn_eq_singleton hrate] at hsplit
  have hlength := congrArg List.length hsplit
  have hkeys := List.length_pos_iff.2 (List.splitOn_ne_nil ':' r.key.toList)
  have hrates := List.length_pos_iff.2 (List.splitOn_ne_nil ':' r.rate.toList)
  simp only [List.length_append, List.length_cons, List.length_nil] at hlength
  have hfirst := (List.append_inj hsplit (by rw [List.length_singleton]; omega)).1
  -- one part, so no colon in it
  have hjoin := congrArg ([':'].intercalate ·) hfirst
  simp only [List.intercalate_splitOn] at hjoin
  exact String.toList_inj.1 (hjoin.trans (by simp [List.intercalate]))

section Asked

variable (parseRate : String → Rate) {kinds : List String} {who : Per → Option String}

theorem chargesFor_eq (limits : List LimitRule) :
    (chargesFor parseRate limits kinds who).map (fun c => (c.rule, c.bucket)) =
      (asked limits kinds who).map fun rule => (rule.text, (who rule.per).getD "") := by
  induction limits with
  | nil => rfl
  | cons rule limits ih =>
    rw [asked, chargesFor, List.filter_cons, List.filterMap_cons, chargeOf]
    cases hkind : kinds.contains rule.key with
    | false => simpa [asked, chargesFor] using ih
    | true =>
      cases hwho : who rule.per with
      | none => simpa [asked, chargesFor] using ih
      | some bucket => simpa [asked, chargesFor, hwho] using ih

theorem chargesFor_limits (limits : List LimitRule) :
    (∀ c ∈ chargesFor parseRate limits kinds who, fitsInt c.limit) ↔ ∀ rule ∈ asked limits kinds who, fitsInt (parseRate rule.rate).limit := by
  constructor
  · intro h rule hrule
    obtain ⟨hmem, hasked⟩ := List.mem_filter.1 hrule
    rw [Bool.and_eq_true] at hasked
    obtain ⟨bucket, hbucket⟩ := Option.isSome_iff_exists.1 hasked.2
    have hcharge : chargeOf parseRate kinds who rule = some { parseRate rule.rate with rule := rule.text, bucket := bucket } := by
      rw [chargeOf, if_pos hasked.1, hbucket]
      rfl
    exact h _ (List.mem_filterMap.2 ⟨rule, hmem, hcharge⟩)
  · intro h c hc
    obtain ⟨rule, hmem, hcharge⟩ := List.mem_filterMap.1 hc
    rw [chargeOf] at hcharge
    split_ifs at hcharge with hkind
    obtain ⟨bucket, hbucket, rfl⟩ := Option.map_eq_some_iff.1 hcharge
    refine h rule (List.mem_filter.2 ⟨hmem, ?_⟩)
    rw [hkind, hbucket]
    rfl

theorem nodup_charges_iff (limits : List LimitRule) :
    ((chargesFor parseRate limits kinds who).map fun c => (c.rule, c.bucket)).Nodup ↔ ((asked limits kinds who).map LimitRule.text).Nodup := by
  rw [chargesFor_eq, List.Nodup, List.Nodup, List.pairwise_map, List.pairwise_map]
  apply List.Pairwise.iff
  intro r s
  rw [not_iff_not, Prod.mk.injEq]
  constructor
  · exact And.left
  · intro h
    exact ⟨h, by rw [per_eq_of_text h]⟩

/-- The defaults have texts of their own. -/
theorem defaults_spec (visitor : Bool) : ((if visitor then visitorDefaults else defaultLimits).map LimitRule.text).Nodup ∧
    ∀ d ∈ if visitor then visitorDefaults else defaultLimits, ':' ∉ d.key.toList ∧ ':' ∉ d.rate.toList := by
  cases visitor <;> decide

/-- The defaults, of keys that no policy declares, never name a declared bucket again. -/
theorem nodup_asked_iff (visitor : Bool) (policies : List PolicyLimits) :
    ((asked (compileLimits visitor policies) kinds who).map LimitRule.text).Nodup ↔
      ((asked (declaredLimits policies) kinds who).map LimitRule.text).Nodup := by
  obtain ⟨hnodup, hcolon⟩ := defaults_spec visitor
  rw [compileLimits]
  generalize (if visitor = true then visitorDefaults else defaultLimits) = defaults at hnodup hcolon ⊢
  rw [asked, List.filter_append, List.map_append, List.nodup_append]
  constructor
  · exact And.left
  · intro h
    refine ⟨h, hnodup.sublist ((List.filter_sublist.trans List.filter_sublist).map _), ?_⟩
    rintro text htext text' htext' rfl
    obtain ⟨rule, hrule, rfl⟩ := List.mem_map.1 htext
    obtain ⟨d, hd, hsame⟩ := List.mem_map.1 htext'
    obtain ⟨hmem, hundeclared⟩ := List.mem_filter.1 (List.mem_filter.1 hd).1
    have hkey := key_eq_of_text (hcolon d hmem).1 (hcolon d hmem).2 hsame.symm
    rw [Bool.not_eq_true', List.any_eq_false] at hundeclared
    exact hundeclared rule (List.mem_filter.1 hrule).1 (beq_iff_eq.2 hkey)

end Asked

/-- No limit that charges the request is declared twice by the policies held, and the limits are PostgreSQL integers. -/
def DeclaredOnce (parseRate : String → Rate) (visitor : Bool) (policies : List PolicyLimits) (kinds : List String)
    (who : Per → Option String) : Prop :=
  ((asked (declaredLimits policies) kinds who).map LimitRule.text).Nodup ∧
    ∀ rule ∈ asked (compileLimits visitor policies) kinds who, fitsInt (parseRate rule.rate).limit

/-- A request's charges count once exactly where its limits are declared once; the windows in
memory count as counters of their own until they fill, and keep to their bound if it is not zero. -/
theorem limits_count (parseRate : String → Rate) :
    (∀ visitor policies kinds who, CountOnce (chargesFor parseRate (compileLimits visitor policies) kinds who) ↔
      DeclaredOnce parseRate visitor policies kinds who) ∧
    (∀ max calls, NoCollision (calls.flatMap RateKey.touched) → (calls.flatMap RateKey.touched).toFinset.card < max →
      (RateWindows.new max).verdicts calls = RateKey.verdicts (fun _ => 0) calls) ∧
    ∀ max, (∀ calls : List Call,
        (calls.foldl (fun w c => (w.call c).1) (RateWindows.new max)).size =
            RateWindows.stored (calls.foldl (fun w c => (w.call c).1) (RateWindows.new max)).windows ∧
          (calls.foldl (fun w c => (w.call c).1) (RateWindows.new max)).size ≤ max) ↔ 0 < max := by
  refine ⟨?_, fun _ _ => RateWindows.verdicts_eq, ?_⟩
  · intro visitor policies kinds who
    rw [countOnce_iff, nodup_charges_iff, chargesFor_limits, nodup_asked_iff, DeclaredOnce]
  · intro max
    constructor
    · intro h
      by_contra hzero
      obtain rfl : max = 0 := by omega
      exact absurd (h [.charge [⟨⟨1, 1, Nat.one_pos⟩, "", ""⟩] 0]).2 (by decide)
    · intro hpos calls
      obtain ⟨hfits, hsame⟩ := RateWindows.fits_run hpos calls
      exact ⟨hfits.count_eq, hfits.le.trans hsame.le⟩

/-- A member's calls and their address's, three in one window, of which the table held one of the member's before,
and one in the next. -/
def busy : List Call := [
  .load [⟨"act:2/s:actor", "alice", 1000, 1⟩] 1200,
  .charge [⟨⟨2, 1000, by decide⟩, "act:2/s:actor", "alice"⟩, ⟨⟨3, 1000, by decide⟩, "act:3/s:address", "a1"⟩] 1300,
  .charge [⟨⟨2, 1000, by decide⟩, "act:2/s:actor", "alice"⟩, ⟨⟨3, 1000, by decide⟩, "act:3/s:address", "a1"⟩] 1400,
  .charge [⟨⟨2, 1000, by decide⟩, "act:2/s:actor", "alice"⟩, ⟨⟨3, 1000, by decide⟩, "act:3/s:address", "a1"⟩] 2100]

theorem limits_count_busy : (RateWindows.new 5).verdicts busy = [none, some .ok, some (.refused 1), some .ok] :=
  ((limits_count fun _ => ⟨1, 1000, by decide⟩).2.1 5 busy (by unfold NoCollision; decide) (by decide)).trans (by decide)

/-- Two policies that declare one limit charge it twice, which fails the statement that persists it. -/
theorem declared_twice :
    let charges := chargesFor (fun _ => ⟨100, 60000, by decide⟩)
      (compileLimits false [[("act", .inl (.bare "100/min"))], [("act", .inl (.bare "100/min"))]]) ["act"] fun _ => some "member"
    (charges.map fun c => (c.rule, c.bucket)) = [("act:100/min:actor", "member"), ("act:100/min:actor", "member")] ∧
      ratePiece charges 0 (fun _ => 0) = none := by
  decide

end Norbital.Bolt

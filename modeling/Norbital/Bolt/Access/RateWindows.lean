import Mathlib.Algebra.GroupWithZero.Nat
import Mathlib.Algebra.BigOperators.Group.List.Basic
import Mathlib.Data.Finset.Card
import Mathlib.Data.List.Sort
import Norbital.Lib.Entries
import Norbital.Lib.Runs

/-!
# Rate windows

The open windows a cell counts in its memory (`bolt/src/engine/access/rate.ts`):
counters grouped by the instant their window starts, at most `max` of them.
-/

namespace Norbital.Bolt

open Norbital.Lib (put without)

/-- How often in how many milliseconds: what `parseRate` reads. -/
structure Rate where
  limit : ℤ
  windowMs : ℕ
  pos : 0 < windowMs

/-- One bucket an attempt charges. -/
structure Charge extends Rate where
  rule : String
  bucket : String

def windowStart (nowMs windowMs : ℕ) : ℕ := nowMs - nowMs % windowMs

/-- The code units of a text. -/
def codeUnits (text : String) : List UInt32 :=
  text.toList.flatMap fun c =>
    if c.toNat < 0x10000 then [c.val] else [0xD800 + (c.val - 0x10000) / 0x400, 0xDC00 + (c.val - 0x10000) % 0x400]

/-- `mix`, on both halves of the hash. -/
def mix (h : UInt32 × UInt32) (c : UInt32) : UInt32 × UInt32 := ((h.1 ^^^ c) * 2654435761, (h.2 ^^^ c) * 1597334677)

/-- `id`: a bucket's key within its window, a 53-bit hash of the rule and the bucket. -/
def bucketId (rule bucket : String) : ℕ :=
  let (h₁, h₂) := (codeUnits bucket).foldl mix (mix ((codeUnits rule).foldl mix (0xdeadbeef, 0x41c6ce57)) 0)
  let h₁ : UInt32 := ((h₁ ^^^ (h₁ >>> 16)) * (2246822507 : UInt32)) ^^^ ((h₂ ^^^ (h₂ >>> 13)) * (3266489909 : UInt32))
  let h₂ : UInt32 := ((h₂ ^^^ (h₂ >>> 16)) * (2246822507 : UInt32)) ^^^ ((h₁ ^^^ (h₁ >>> 13)) * (3266489909 : UInt32))
  4294967296 * ((2097151 : UInt32) &&& h₂).toNat + h₁.toNat

/-- The windows that start at one instant: their latest end, and each bucket's count. -/
structure Window where
  ends : ℕ
  counts : List (ℕ × ℕ)
  deriving DecidableEq

/-- `window.counts.set(k, next)`. -/
def Window.set (window : Window) (k next : ℕ) : Window := { window with counts := put k next window.counts }

structure RateWindows where
  windows : List (ℕ × Window)
  count : ℕ
  max : ℕ
  deriving DecidableEq

/-- One row of `OPEN_WINDOWS_SQL`. -/
structure OpenWindow where
  rule : String
  bucket : String
  start : ℕ
  n : ℕ

inductive Verdict where
  | ok
  | refused (retryAfter : ℕ)
  deriving DecidableEq

namespace RateWindows

def new (max : ℕ) : RateWindows := ⟨[], 0, max⟩

def size (w : RateWindows) : ℕ := w.count

/-- The first loop of `evict`: every group whose windows all ended. -/
def dropEnded (nowMs : ℕ) (w : RateWindows) : RateWindows :=
  { w with
    windows := w.windows.filter fun e => nowMs < e.2.ends
    count := w.count - ((w.windows.filter fun e => e.2.ends ≤ nowMs).map fun e => e.2.counts.length).sum }

/-- The buckets of a group, until half of all remain: what is left of them, and whether that was reached. -/
def dropBuckets (max : ℕ) : ℕ → List (ℕ × ℕ) → ℕ × List (ℕ × ℕ) × Bool
  | count, [] => (count, [], false)
  | count, e :: counts => if 2 * count ≤ max then (count, e :: counts, true) else dropBuckets max (count - 1) counts

/-- The second loop of `evict`: the groups in the order of their starts. -/
def dropOldest (w : RateWindows) : List ℕ → RateWindows
  | [] => w
  | start :: starts =>
    match w.windows.lookup start with
    | none => dropOldest w starts
    | some window =>
      match dropBuckets w.max w.count window.counts with
      | (count, counts, true) => { w with windows := put start { window with counts := counts } w.windows, count := count }
      | (count, _, false) => dropOldest { w with windows := without start w.windows, count := count } starts

def evict (w : RateWindows) (nowMs : ℕ) : RateWindows :=
  let open_ := w.dropEnded nowMs
  open_.dropOldest ((open_.windows.map Prod.fst).mergeSort (· ≤ ·))

def get (w : RateWindows) (start k : ℕ) : Option ℕ := (w.windows.lookup start).bind fun window => window.counts.lookup k

/-- Room for one more bucket, and its place counted. -/
def room (w : RateWindows) (nowMs : ℕ) : RateWindows :=
  let w := if w.max ≤ w.count then w.evict nowMs else w
  { w with count := w.count + 1 }

/-- The group of a start, reaching to the end. -/
def group (windows : List (ℕ × Window)) (start ends : ℕ) : Window :=
  match windows.lookup start with
  | none => ⟨ends, []⟩
  | some window => if window.ends < ends then { window with ends := ends } else window

def add (w : RateWindows) (start ends k n nowMs : ℕ) : RateWindows × ℕ :=
  let prior := w.get start k
  let w := if prior.isNone then w.room nowMs else w
  let window := group w.windows start ends
  let next := prior.getD 0 + n
  ({ w with windows := put start (window.set k next) w.windows }, next)

/-- Seconds until the window ends, where the count is over the limit. -/
def overdue (c : Charge) (count nowMs : ℕ) : ℕ :=
  if c.limit < count then (windowStart nowMs c.windowMs + c.windowMs - nowMs + 999) / 1000 else 0

def verdict (retryAfter : ℕ) : Verdict := if retryAfter > 0 then .refused retryAfter else .ok

/-- The loop of `charge`. -/
def chargeFrom (nowMs : ℕ) : RateWindows → ℕ → List Charge → RateWindows × ℕ
  | w, retryAfter, [] => (w, retryAfter)
  | w, retryAfter, c :: charges =>
    let start := windowStart nowMs c.windowMs
    let (w, count) := w.add start (start + c.windowMs) (bucketId c.rule c.bucket) 1 nowMs
    chargeFrom nowMs w (Nat.max retryAfter (overdue c count nowMs)) charges

/-- Increments every bucket, then refuses if any is over. -/
def charge (w : RateWindows) (charges : List Charge) (nowMs : ℕ) : RateWindows × Verdict :=
  let (w, retryAfter) := chargeFrom nowMs w 0 charges
  (w, verdict retryAfter)

def load (w : RateWindows) (nowMs : ℕ) : List OpenWindow → RateWindows
  | [] => w
  | r :: rows =>
    if w.max ≤ w.count then w
    else
      let k := bucketId r.rule r.bucket
      let prior := (w.get r.start k).getD 0
      if prior < r.n then load (w.add r.start (r.start + 86400000) k (r.n - prior) nowMs).1 nowMs rows else load w nowMs rows

end RateWindows

/-- A call on the windows, at its time. -/
inductive Call where
  | charge (charges : List Charge) (nowMs : ℕ)
  | load (rows : List OpenWindow) (nowMs : ℕ)

namespace RateWindows

/-- The windows after a call, and the verdict of a charge. -/
def call (w : RateWindows) : Call → RateWindows × Option Verdict
  | .charge charges nowMs => ((w.charge charges nowMs).1, some (w.charge charges nowMs).2)
  | .load rows nowMs => (w.load nowMs rows, none)

/-- The verdicts of the calls in turn. -/
def verdicts : RateWindows → List Call → List (Option Verdict)
  | _, [] => []
  | w, c :: calls => (w.call c).2 :: verdicts (w.call c).1 calls

/-- How many buckets are stored. -/
def stored (windows : List (ℕ × Window)) : ℕ := (windows.map fun e => e.2.counts.length).sum

/-- The size is the number of the stored buckets, and every group is kept under one start. -/
structure Counted (w : RateWindows) : Prop where
  count_eq : w.count = stored w.windows
  nodup : (w.windows.map Prod.fst).Nodup

theorem length_put {κ α : Type*} [BEq κ] [LawfulBEq κ] (key : κ) (value : α) (entries : List (κ × α)) :
    (put key value entries).length = if (entries.lookup key).isSome then entries.length else entries.length + 1 := by
  induction entries with
  | nil => rfl
  | cons e entries ih =>
    rw [put, List.lookup_cons]
    by_cases h : e.1 = key
    · subst h
      simp
    · rw [if_neg (by simpa using h), List.length_cons, ih, beq_false_of_ne (Ne.symm h)]
      split_ifs <;> simp

theorem stored_put (start : ℕ) (window : Window) (windows : List (ℕ × Window)) :
    stored (put start window windows) + ((windows.lookup start).elim 0 fun old => old.counts.length) =
      stored windows + window.counts.length := by
  induction windows with
  | nil => simp [stored, put]
  | cons e windows ih =>
    rw [put, List.lookup_cons]
    by_cases h : e.1 = start
    · subst h
      simp [stored]
      omega
    · rw [if_neg (by simpa using h), beq_false_of_ne (Ne.symm h)]
      simp only [stored, List.map_cons, List.sum_cons] at ih ⊢
      omega

theorem stored_without {start : ℕ} {window : Window} {windows : List (ℕ × Window)} (hnodup : (windows.map Prod.fst).Nodup)
    (h : windows.lookup start = some window) : stored (without start windows) + window.counts.length = stored windows := by
  induction windows with
  | nil => cases h
  | cons e windows ih =>
    rw [List.map_cons, List.nodup_cons] at hnodup
    rw [List.lookup_cons] at h
    rw [without, List.filter_cons]
    by_cases he : e.1 = start
    · subst he
      rw [beq_self_eq_true] at h
      obtain rfl := Option.some.inj h
      have hrest : windows.filter (fun e' => !(e'.1 == e.1)) = windows := by
        rw [List.filter_eq_self]
        intro e' he'
        rw [Bool.not_eq_true', beq_eq_false_iff_ne]
        rintro heq
        exact hnodup.1 (heq ▸ List.mem_map_of_mem he')
      rw [beq_self_eq_true, Bool.not_true, if_neg Bool.false_ne_true, hrest]
      simp only [stored, List.map_cons, List.sum_cons]
      omega
    · rw [beq_false_of_ne (Ne.symm he)] at h
      have := ih hnodup.2 h
      rw [beq_false_of_ne he, Bool.not_false, if_pos rfl]
      simp only [stored, List.map_cons, List.sum_cons, without] at this ⊢
      omega

theorem stored_filter (p : ℕ × Window → Bool) (windows : List (ℕ × Window)) :
    stored (windows.filter p) + stored (windows.filter fun e => !p e) = stored windows := by
  induction windows with
  | nil => rfl
  | cons e windows ih =>
    cases hp : p e <;> simp only [List.filter_cons, hp, Bool.not_true, Bool.not_false, Bool.false_eq_true, if_true, if_false, stored,
      List.map_cons, List.sum_cons] at ih ⊢ <;> omega

/-- A group keeps the last of its buckets, and is emptied unless half of all are left first. -/
theorem dropBuckets_spec {max : ℕ} {count : ℕ} {counts : List (ℕ × ℕ)} (h : counts.length ≤ count) :
    (dropBuckets max count counts).1 + counts.length = count + (dropBuckets max count counts).2.1.length ∧
      (dropBuckets max count counts).2.1 <:+ counts ∧
      ((dropBuckets max count counts).2.2 = true → 2 * (dropBuckets max count counts).1 ≤ max) ∧
      ((dropBuckets max count counts).2.2 = false → (dropBuckets max count counts).2.1 = []) := by
  induction counts generalizing count with
  | nil => exact ⟨rfl, List.suffix_refl _, fun h => Bool.noConfusion h, fun _ => rfl⟩
  | cons e counts ih =>
    rw [List.length_cons] at h
    rw [dropBuckets]
    split_ifs with hhalf
    · exact ⟨rfl, List.suffix_refl _, fun _ => hhalf, by simp⟩
    · obtain ⟨hcount, hsuffix, hdone, hrest⟩ := @ih (count - 1) (by omega)
      refine ⟨?_, hsuffix.trans (List.suffix_cons e counts), hdone, hrest⟩
      rw [List.length_cons]
      omega

/-- What an eviction keeps is part of what there was. -/
def Under (w w' : RateWindows) : Prop :=
  ∀ start window, w.windows.lookup start = some window → ∃ old, w'.windows.lookup start = some old ∧ window.counts <:+ old.counts

theorem Under.get {w w' : RateWindows} (h : w.Under w') {start k : ℕ} (hnone : w'.get start k = none) : w.get start k = none := by
  rw [RateWindows.get] at hnone ⊢
  cases hlookup : w.windows.lookup start with
  | none => rfl
  | some window =>
    obtain ⟨old, hold, hsuffix⟩ := h start window hlookup
    rw [hold, Option.bind_some, List.lookup_eq_none_iff] at hnone
    rw [Option.bind_some, List.lookup_eq_none_iff]
    exact fun p hp => hnone p (hsuffix.mem hp)

theorem Under.trans {w w' w'' : RateWindows} (h : w.Under w') (h' : w'.Under w'') : w.Under w'' := by
  intro start window hlookup
  obtain ⟨old, hold, hsuffix⟩ := h start window hlookup
  obtain ⟨older, holder, hsuffix'⟩ := h' start old hold
  exact ⟨older, holder, hsuffix.trans hsuffix'⟩

theorem Counted.dropEnded {w : RateWindows} (h : w.Counted) (nowMs : ℕ) :
    (w.dropEnded nowMs).Counted ∧ (w.dropEnded nowMs).Under w := by
  constructor
  · constructor
    · have hsplit := stored_filter (fun e => decide (nowMs < e.2.ends)) w.windows
      have hrest : (w.windows.filter fun e => !decide (nowMs < e.2.ends)) = w.windows.filter fun e => e.2.ends ≤ nowMs := by
        apply List.filter_congr
        intro e _
        rw [← decide_not, decide_eq_decide, Nat.not_lt]
      rw [hrest, ← h.count_eq] at hsplit
      show w.count - stored (w.windows.filter fun e => e.2.ends ≤ nowMs) = stored (w.windows.filter fun e => nowMs < e.2.ends)
      omega
    · exact h.nodup.sublist (List.filter_sublist.map _)
  · intro start window hlookup
    refine ⟨window, ?_, List.suffix_refl _⟩
    have hmem := Norbital.Lib.mem_of_lookup hlookup
    exact Norbital.Lib.lookup_some_of_mem h.nodup (List.mem_filter.1 hmem).1

/-- Once every group has been looked at, half of the room is left. -/
theorem Counted.dropOldest {w : RateWindows} (h : w.Counted) {starts : List ℕ} (hstarts : ∀ start ∈ w.windows.map Prod.fst, start ∈ starts) :
    (w.dropOldest starts).Counted ∧ (w.dropOldest starts).Under w ∧ 2 * (w.dropOldest starts).count ≤ w.max ∧
      (w.dropOldest starts).max = w.max := by
  induction starts generalizing w with
  | nil =>
    have hnil : w.windows = [] := by
      rw [List.eq_nil_iff_forall_not_mem]
      intro e he
      exact absurd (hstarts e.1 (List.mem_map_of_mem he)) List.not_mem_nil
    refine ⟨h, fun _ window hlookup => ⟨window, hlookup, List.suffix_refl _⟩, ?_, rfl⟩
    rw [RateWindows.dropOldest, h.count_eq, hnil]
    exact Nat.zero_le _
  | cons start starts ih =>
    rw [RateWindows.dropOldest]
    cases hlookup : w.windows.lookup start with
    | none =>
      have hother : ∀ s ∈ w.windows.map Prod.fst, s ∈ starts := by
        intro s hs
        rcases List.mem_cons.1 (hstarts s hs) with rfl | hs'
        · obtain ⟨e, he, rfl⟩ := List.mem_map.1 hs
          exact absurd rfl (bne_iff_ne.1 (List.lookup_eq_none_iff.1 hlookup e he))
        · exact hs'
      exact ih h hother
    | some window =>
      have hwithout := stored_without h.nodup hlookup
      have hput := fun counts => stored_put start { window with counts := counts } w.windows
      rw [hlookup] at hput
      obtain ⟨hcount, hsuffix, hdone, hrest⟩ := @dropBuckets_spec w.max w.count window.counts
        (by have := h.count_eq; omega)
      dsimp only
      generalize RateWindows.dropBuckets w.max w.count window.counts = dropped at hcount hsuffix hdone hrest ⊢
      obtain ⟨count, counts, reached⟩ := dropped
      dsimp only at hcount hsuffix hdone hrest ⊢
      have hcounted := h.count_eq
      -- half the room is left and what remains of the group is stored, or the group is dropped and the next is looked at
      cases reached with
      | true =>
        have hput := hput counts
        dsimp only [Option.elim_some] at hput
        refine ⟨⟨?_, Norbital.Lib.nodup_put h.nodup⟩, ?_, hdone rfl, rfl⟩
        · show count = stored (put start { window with counts := counts } w.windows)
          omega
        · intro s found hfound
          have hfound : (put start { window with counts := counts } w.windows).lookup s = some found := hfound
          rw [Norbital.Lib.lookup_put] at hfound
          split_ifs at hfound with hs
          · obtain rfl := Option.some.inj hfound
            exact ⟨window, (beq_iff_eq.1 hs) ▸ hlookup, hsuffix⟩
          · exact ⟨found, hfound, List.suffix_refl _⟩
      | false =>
        have hempty := hrest rfl
        subst hempty
        have hnext : Counted { w with windows := without start w.windows, count := count } := by
          refine ⟨?_, Norbital.Lib.nodup_without h.nodup⟩
          show count = stored (without start w.windows)
          rw [List.length_nil] at hcount
          omega
        obtain ⟨hresult, hunder, hhalf, hmax⟩ := ih hnext (by
          intro s hs
          obtain ⟨e, he, rfl⟩ := List.mem_map.1 hs
          obtain ⟨hmem, hne⟩ := List.mem_filter.1 he
          rcases List.mem_cons.1 (hstarts e.1 (List.mem_map_of_mem hmem)) with heq | hs'
          · rw [heq, beq_self_eq_true] at hne
            cases hne
          · exact hs')
        refine ⟨hresult, hunder.trans ?_, hhalf, hmax⟩
        intro s found hfound
        have hfound : (without start w.windows).lookup s = some found := hfound
        rw [Norbital.Lib.lookup_without] at hfound
        split_ifs at hfound with hs
        exact ⟨found, hfound, List.suffix_refl _⟩

theorem Counted.evict {w : RateWindows} (h : w.Counted) (nowMs : ℕ) :
    (w.evict nowMs).Counted ∧ (w.evict nowMs).Under w ∧ 2 * (w.evict nowMs).count ≤ w.max ∧ (w.evict nowMs).max = w.max := by
  obtain ⟨hcounted, hunder⟩ := h.dropEnded nowMs
  obtain ⟨hcounted', hunder', hhalf, hmax⟩ := @Counted.dropOldest _ hcounted
    (((w.dropEnded nowMs).windows.map Prod.fst).mergeSort (· ≤ ·)) fun _ hs => List.mem_mergeSort.2 hs
  exact ⟨hcounted', hunder'.trans hunder, hhalf, hmax⟩

/-- The size is right and within the bound. -/
structure Fits (w : RateWindows) : Prop extends Counted w where
  le : w.count ≤ w.max

theorem Counted.room {w : RateWindows} (h : w.Counted) (hle : w.count ≤ w.max) (hmax : 0 < w.max) (nowMs : ℕ) :
    (w.room nowMs).count = stored (w.room nowMs).windows + 1 ∧ ((w.room nowMs).windows.map Prod.fst).Nodup ∧
      (w.room nowMs).Under w ∧ (w.room nowMs).count ≤ w.max ∧ (w.room nowMs).max = w.max := by
  rw [RateWindows.room]
  split_ifs with hfull
  · obtain ⟨hcounted, hunder, hhalf, hmax'⟩ := h.evict nowMs
    exact ⟨congrArg (· + 1) hcounted.count_eq, hcounted.nodup, hunder, by dsimp only; omega, hmax'⟩
  · exact ⟨congrArg (· + 1) h.count_eq, h.nodup, fun _ window hlookup => ⟨window, hlookup, List.suffix_refl _⟩, by dsimp only; omega, rfl⟩

theorem group_counts (windows : List (ℕ × Window)) (start ends : ℕ) :
    (group windows start ends).counts = (windows.lookup start).elim [] fun window => window.counts := by
  rw [group]
  cases windows.lookup start with
  | none => rfl
  | some window =>
    dsimp only [Option.elim_some]
    split_ifs <;> rfl

theorem get_eq (w : RateWindows) (start k ends : ℕ) : w.get start k = (group w.windows start ends).counts.lookup k := by
  rw [RateWindows.get, group_counts]
  cases w.windows.lookup start <;> rfl

/-- Setting a bucket's count stores one more if it is new. -/
theorem stored_set (w : RateWindows) (start ends k next : ℕ) :
    stored (put start ((group w.windows start ends).set k next) w.windows) =
      if (w.get start k).isSome then stored w.windows else stored w.windows + 1 := by
  have hput := stored_put start ((group w.windows start ends).set k next) w.windows
  have hlength := length_put k next (group w.windows start ends).counts
  have hold : ((w.windows.lookup start).elim 0 fun old => old.counts.length) = (group w.windows start ends).counts.length := by
    rw [group_counts]
    cases w.windows.lookup start <;> rfl
  rw [← get_eq] at hlength
  rw [hold, Window.set] at hput
  rw [Window.set]
  dsimp only at hput ⊢
  split_ifs at hlength ⊢ <;> omega

/-- A bucket is added within the bound. -/
theorem Fits.add {w : RateWindows} (h : w.Fits) (hmax : 0 < w.max) (start ends k n nowMs : ℕ) :
    (w.add start ends k n nowMs).1.Fits ∧ (w.add start ends k n nowMs).1.max = w.max := by
  rw [RateWindows.add]
  cases hget : w.get start k with
  | some prior =>
    have hset := stored_set w start ends k (prior + n)
    rw [hget, Option.isSome_some, if_pos rfl] at hset
    exact ⟨⟨⟨h.count_eq.trans hset.symm, Norbital.Lib.nodup_put h.nodup⟩, h.le⟩, rfl⟩
  | none =>
    obtain ⟨hcount, hnodup, hunder, hle, hsame⟩ := h.toCounted.room h.le hmax nowMs
    have hset := stored_set (w.room nowMs) start ends k (0 + n)
    rw [hunder.get hget, Option.isSome_none, if_neg Bool.false_ne_true] at hset
    exact ⟨⟨⟨hcount.trans hset.symm, Norbital.Lib.nodup_put hnodup⟩, hle.trans hsame.ge⟩, hsame⟩

theorem Fits.chargeFrom {w : RateWindows} (h : w.Fits) (hmax : 0 < w.max) (nowMs retryAfter : ℕ) (charges : List Charge) :
    (chargeFrom nowMs w retryAfter charges).1.Fits ∧ (chargeFrom nowMs w retryAfter charges).1.max = w.max := by
  induction charges generalizing w retryAfter with
  | nil => exact ⟨h, rfl⟩
  | cons c charges ih =>
    obtain ⟨hadd, hsame⟩ := h.add hmax (windowStart nowMs c.windowMs) (windowStart nowMs c.windowMs + c.windowMs)
      (bucketId c.rule c.bucket) 1 nowMs
    rw [RateWindows.chargeFrom]
    obtain ⟨hrest, hsame'⟩ := ih hadd (hsame ▸ hmax) _
    exact ⟨hrest, hsame'.trans hsame⟩

theorem Fits.load {w : RateWindows} (h : w.Fits) (hmax : 0 < w.max) (nowMs : ℕ) (rows : List OpenWindow) :
    (w.load nowMs rows).Fits ∧ (w.load nowMs rows).max = w.max := by
  induction rows generalizing w with
  | nil => exact ⟨h, rfl⟩
  | cons r rows ih =>
    rw [RateWindows.load]
    dsimp only
    split_ifs with hfull hmore
    · exact ⟨h, rfl⟩
    · obtain ⟨hadd, hsame⟩ := h.add hmax r.start (r.start + 86400000) (bucketId r.rule r.bucket)
        (r.n - (w.get r.start (bucketId r.rule r.bucket)).getD 0) nowMs
      obtain ⟨hrest, hsame'⟩ := ih hadd (hsame ▸ hmax)
      exact ⟨hrest, hsame'.trans hsame⟩
    · exact ih h hmax

theorem Fits.call {w : RateWindows} (h : w.Fits) (hmax : 0 < w.max) (c : Call) : (w.call c).1.Fits ∧ (w.call c).1.max = w.max := by
  cases c with
  | charge charges nowMs => exact h.chargeFrom hmax nowMs 0 charges
  | load rows nowMs => exact h.load hmax nowMs rows

/-- The size is the number of stored buckets and at most `max` after every call. -/
theorem fits_run {max : ℕ} (hmax : 0 < max) (calls : List Call) :
    (calls.foldl (fun w c => (w.call c).1) (new max)).Fits ∧ (calls.foldl (fun w c => (w.call c).1) (new max)).max = max := by
  have hnew : (new max).Fits ∧ (new max).max = max := ⟨⟨⟨rfl, List.nodup_nil⟩, Nat.zero_le _⟩, rfl⟩
  refine @Norbital.Lib.invariant_run _ _ _ (fun w : RateWindows => w.Fits ∧ w.max = max) ?_ _ hnew calls
  rintro w c ⟨hfits, hsame⟩
  obtain ⟨hfits', hsame'⟩ := hfits.call (hsame ▸ hmax) c
  exact ⟨hfits', hsame'.trans hsame⟩

end RateWindows

/-- A rule, a bucket and the start of a window. -/
abbrev RateKey := String × String × ℕ

def Charge.key (c : Charge) (nowMs : ℕ) : RateKey := (c.rule, c.bucket, windowStart nowMs c.windowMs)

def OpenWindow.key (r : OpenWindow) : RateKey := (r.rule, r.bucket, r.start)

namespace RateKey

/-- Every window's own counter goes up with each charge, and one over its limit refuses. -/
def chargeFrom (nowMs : ℕ) : (RateKey → ℕ) → ℕ → List Charge → (RateKey → ℕ) × ℕ
  | n, retryAfter, [] => (n, retryAfter)
  | n, retryAfter, c :: charges =>
    let count := n (c.key nowMs) + 1
    chargeFrom nowMs (Function.update n (c.key nowMs) count) (Nat.max retryAfter (RateWindows.overdue c count nowMs)) charges

/-- A persisted count is taken over where it is larger. -/
def loaded (n : RateKey → ℕ) (r : OpenWindow) : RateKey → ℕ := Function.update n r.key (max (n r.key) r.n)

def call (n : RateKey → ℕ) : Call → (RateKey → ℕ) × Option Verdict
  | .charge charges nowMs => ((chargeFrom nowMs n 0 charges).1, some (RateWindows.verdict (chargeFrom nowMs n 0 charges).2))
  | .load rows _ => (rows.foldl loaded n, none)

def verdicts : (RateKey → ℕ) → List Call → List (Option Verdict)
  | _, [] => []
  | n, c :: calls => (call n c).2 :: verdicts (call n c).1 calls

/-- The windows that a call counts. -/
def touched : Call → List RateKey
  | .charge charges nowMs => charges.map (·.key nowMs)
  | .load rows _ => (rows.filter fun r => 0 < r.n).map OpenWindow.key

end RateKey

/-- No two buckets of the windows have one hash. -/
def NoCollision (keys : List RateKey) : Prop :=
  ∀ x ∈ keys, ∀ y ∈ keys, bucketId x.1 x.2.1 = bucketId y.1 y.2.1 → x.1 = y.1 ∧ x.2.1 = y.2.1

namespace RateWindows

/-- The memory holds the counters of the windows in `seen`, of all that are ever counted. -/
structure Holds (all seen : Finset RateKey) (w : RateWindows) (n : RateKey → ℕ) : Prop where
  sub : seen ⊆ all
  count_eq : w.count = seen.card
  room : all.card < w.max
  get_eq : ∀ x ∈ all, w.get x.2.2 (bucketId x.1 x.2.1) = if x ∈ seen then some (n x) else none
  zero : ∀ x ∉ seen, n x = 0

theorem Holds.not_full {all seen : Finset RateKey} {w : RateWindows} {n : RateKey → ℕ} (h : Holds all seen w n) :
    ¬ w.max ≤ w.count := by
  have := Finset.card_le_card h.sub
  have := h.count_eq
  have := h.room
  omega

theorem Holds.getD {all seen : Finset RateKey} {w : RateWindows} {n : RateKey → ℕ} (h : Holds all seen w n) {x : RateKey}
    (hx : x ∈ all) : (w.get x.2.2 (bucketId x.1 x.2.1)).getD 0 = n x := by
  rw [h.get_eq x hx]
  split_ifs with hseen
  · rfl
  · exact (h.zero x hseen).symm

/-- What is looked up after an addition. -/
theorem get_put (w : RateWindows) (windows : List (ℕ × Window)) (start ends k next start' k' : ℕ) (hw : w.windows = windows) :
    ({ w with windows := put start ((group windows start ends).set k next) windows } : RateWindows).get start' k' =
      if start' = start ∧ k' = k then some next else w.get start' k' := by
  subst hw
  rw [RateWindows.get, Norbital.Lib.lookup_put]
  by_cases hs : start' = start
  · subst hs
    rw [beq_self_eq_true, if_pos rfl, Option.bind_some, Window.set, Norbital.Lib.lookup_put, get_eq w start' k' ends]
    by_cases hk : k' = k
    · rw [hk, beq_self_eq_true, if_pos rfl, if_pos ⟨rfl, rfl⟩]
    · rw [beq_false_of_ne hk, if_neg Bool.false_ne_true, if_neg fun h => hk h.2]
  · rw [beq_false_of_ne hs, if_neg Bool.false_ne_true, if_neg fun h => hs h.1]
    rfl

/-- One counter goes up in memory as it does on its own. -/
theorem Holds.add {all seen : Finset RateKey} {w : RateWindows} {n : RateKey → ℕ} (h : Holds all seen w n)
    (hone : ∀ x ∈ all, ∀ y ∈ all, bucketId x.1 x.2.1 = bucketId y.1 y.2.1 → x.1 = y.1 ∧ x.2.1 = y.2.1) {x : RateKey} (hx : x ∈ all)
    (ends m nowMs : ℕ) :
    (w.add x.2.2 ends (bucketId x.1 x.2.1) m nowMs).2 = n x + m ∧
      Holds all (insert x seen) (w.add x.2.2 ends (bucketId x.1 x.2.1) m nowMs).1 (Function.update n x (n x + m)) := by
  have hfull := h.not_full
  have hget := h.get_eq x hx
  have hvalue := h.getD hx
  rw [RateWindows.add]
  refine ⟨by dsimp only; rw [hvalue], ?_⟩
  have hroom : (if (w.get x.2.2 (bucketId x.1 x.2.1)).isNone then w.room nowMs else w) =
      { w with count := (insert x seen).card } := by
    rw [hget]
    split_ifs with hseen hnone hnone
    · cases hnone
    · rw [Finset.insert_eq_of_mem hseen, ← h.count_eq]
    · rw [RateWindows.room, if_neg hfull, Finset.card_insert_of_notMem hseen, h.count_eq]
    · exact absurd rfl hnone
  rw [hroom]
  refine ⟨Finset.insert_subset hx h.sub, rfl, h.room, ?_, ?_⟩
  · intro y hy
    dsimp only
    rw [hvalue, get_put { w with count := (insert x seen).card } w.windows _ _ _ _ _ _ rfl]
    by_cases hyx : y = x
    · subst hyx
      rw [if_pos ⟨rfl, rfl⟩, if_pos (Finset.mem_insert_self _ _), Function.update_self]
    · have hother : ¬ (y.2.2 = x.2.2 ∧ bucketId y.1 y.2.1 = bucketId x.1 x.2.1) := by
        rintro ⟨hstart, hid⟩
        obtain ⟨hrule, hbucket⟩ := hone y hy x hx hid
        exact hyx (Prod.ext hrule (Prod.ext hbucket hstart))
      rw [if_neg hother, Function.update_of_ne hyx]
      have hsame : y ∈ insert x seen ↔ y ∈ seen := by rw [Finset.mem_insert, or_iff_right hyx]
      simp only [hsame]
      exact h.get_eq y hy
  · intro y hy
    rw [Finset.mem_insert, not_or] at hy
    rw [Function.update_of_ne hy.1]
    exact h.zero y hy.2

theorem Holds.chargeFrom {all seen : Finset RateKey} {w : RateWindows} {n : RateKey → ℕ} (h : Holds all seen w n)
    (hone : ∀ x ∈ all, ∀ y ∈ all, bucketId x.1 x.2.1 = bucketId y.1 y.2.1 → x.1 = y.1 ∧ x.2.1 = y.2.1) {nowMs : ℕ}
    {charges : List Charge} (hall : ∀ c ∈ charges, c.key nowMs ∈ all) (retryAfter : ℕ) :
    (chargeFrom nowMs w retryAfter charges).2 = (RateKey.chargeFrom nowMs n retryAfter charges).2 ∧
      ∃ seen', Holds all seen' (chargeFrom nowMs w retryAfter charges).1 (RateKey.chargeFrom nowMs n retryAfter charges).1 := by
  induction charges generalizing w n seen retryAfter with
  | nil => exact ⟨rfl, seen, h⟩
  | cons c charges ih =>
    obtain ⟨hcount, hnext⟩ := h.add hone (hall c List.mem_cons_self) (windowStart nowMs c.windowMs + c.windowMs) 1 nowMs
    have hcount : (w.add (windowStart nowMs c.windowMs) (windowStart nowMs c.windowMs + c.windowMs) (bucketId c.rule c.bucket) 1 nowMs).2 =
        n (c.key nowMs) + 1 := hcount
    rw [RateWindows.chargeFrom, RateKey.chargeFrom]
    dsimp only
    rw [hcount]
    exact ih hnext (fun c' hc' => hall c' (List.mem_cons_of_mem c hc')) _

theorem Holds.load {all seen : Finset RateKey} {w : RateWindows} {n : RateKey → ℕ} (h : Holds all seen w n)
    (hone : ∀ x ∈ all, ∀ y ∈ all, bucketId x.1 x.2.1 = bucketId y.1 y.2.1 → x.1 = y.1 ∧ x.2.1 = y.2.1) {nowMs : ℕ}
    {rows : List OpenWindow} (hall : ∀ r ∈ rows, 0 < r.n → r.key ∈ all) :
    ∃ seen', Holds all seen' (w.load nowMs rows) (rows.foldl RateKey.loaded n) := by
  induction rows generalizing w n seen with
  | nil => exact ⟨seen, h⟩
  | cons r rows ih =>
    have hrest : ∀ r' ∈ rows, 0 < r'.n → r'.key ∈ all := fun r' hr' => hall r' (List.mem_cons_of_mem r hr')
    rw [RateWindows.load, if_neg h.not_full, List.foldl_cons]
    dsimp only
    split_ifs with hmore
    · have hpos : 0 < r.n := by omega
      have hmem := hall r List.mem_cons_self hpos
      have hvalue : (w.get r.start (bucketId r.rule r.bucket)).getD 0 = n r.key := h.getD hmem
      rw [hvalue] at hmore ⊢
      obtain ⟨-, hnext⟩ := h.add hone hmem (r.start + 86400000) (r.n - n r.key) nowMs
      have hloaded : RateKey.loaded n r = Function.update n r.key (n r.key + (r.n - n r.key)) := by
        rw [RateKey.loaded, Nat.max_eq_right hmore.le, Nat.add_sub_cancel' hmore.le]
      rw [hloaded]
      exact ih hnext hrest
    · have hsame : RateKey.loaded n r = n := by
        rw [RateKey.loaded, Function.update_eq_self_iff]
        rcases Nat.eq_zero_or_pos r.n with hzero | hpos
        · rw [hzero, Nat.max_eq_left (Nat.zero_le _)]
        · have hvalue : (w.get r.start (bucketId r.rule r.bucket)).getD 0 = n r.key := h.getD (hall r List.mem_cons_self hpos)
          rw [hvalue] at hmore
          exact Nat.max_eq_left (by omega)
      rw [hsame]
      exact ih h hrest

/-- Windows that never fill give the verdicts of counters of their own. -/
theorem verdicts_eq {max : ℕ} {calls : List Call} (hone : NoCollision (calls.flatMap RateKey.touched))
    (hroom : (calls.flatMap RateKey.touched).toFinset.card < max) : (new max).verdicts calls = RateKey.verdicts (fun _ => 0) calls := by
  have hgen : ∀ (calls' : List Call) (w : RateWindows) (n : RateKey → ℕ) (seen : Finset RateKey),
      (∀ c ∈ calls', ∀ x ∈ RateKey.touched c, x ∈ (calls.flatMap RateKey.touched).toFinset) →
      Holds (calls.flatMap RateKey.touched).toFinset seen w n → w.verdicts calls' = RateKey.verdicts n calls' := by
    intro calls'
    induction calls' with
    | nil => intros; rfl
    | cons c calls' ih =>
      intro w n seen hall hholds
      have hone' : ∀ x ∈ (calls.flatMap RateKey.touched).toFinset, ∀ y ∈ (calls.flatMap RateKey.touched).toFinset,
          bucketId x.1 x.2.1 = bucketId y.1 y.2.1 → x.1 = y.1 ∧ x.2.1 = y.2.1 := by
        intro x hx y hy
        exact hone x (List.mem_toFinset.1 hx) y (List.mem_toFinset.1 hy)
      have hcall := hall c List.mem_cons_self
      have hrest := fun c' hc' => hall c' (List.mem_cons_of_mem c hc')
      rw [RateWindows.verdicts, RateKey.verdicts]
      cases c with
      | charge charges nowMs =>
        obtain ⟨hverdict, seen', hnext⟩ := hholds.chargeFrom hone' (fun c hc => hcall _ (List.mem_map_of_mem hc)) 0
        refine congrArg₂ List.cons ?_ (ih _ _ seen' hrest hnext)
        exact congrArg (fun r => some (verdict r)) hverdict
      | load rows nowMs =>
        obtain ⟨seen', hnext⟩ := @Holds.load _ _ _ _ hholds hone' nowMs rows (fun r hr hpos =>
          hcall _ (List.mem_map_of_mem (List.mem_filter.2 ⟨hr, decide_eq_true hpos⟩)))
        exact congrArg₂ List.cons rfl (ih _ _ seen' hrest hnext)
  refine hgen calls (new max) (fun _ => 0) ∅ ?_ ⟨Finset.empty_subset _, rfl, hroom, ?_, fun _ _ => rfl⟩
  · intro c hc x hx
    exact List.mem_toFinset.2 (List.mem_flatMap.2 ⟨c, hc, hx⟩)
  · intro x _
    rw [if_neg (Finset.notMem_empty x)]
    rfl

end RateWindows

end Norbital.Bolt

import Mathlib.Data.List.Sort
import Mathlib.Data.List.Nodup
import Norbital.Lib.JsonText
import Norbital.Store.Errors

/-!
# Migration history

What a database still has to run (`migrationHistory` of `store/src/migrate.ts`):
the ordered migration files, the lock that verified them, the squash baselines
that stand for a prefix of them, and the ledger of what was applied.

The text of a file is looked at by `checkFile` and `checkSquashSources` only;
what they refuse of it, and the digest, are the parameter `Checks`.
-/

namespace Norbital.Store

/-- A migration file: its name (`0007_lease_until.sql`) and text. -/
structure MigrationFile where
  name : String
  sql : String
  deriving DecidableEq, Repr

/-- What a database applied: a file's name and the checksum it ran with. -/
structure Applied where
  name : String
  checksum : String
  deriving DecidableEq, Repr

/-- A verified alternative for one exact prefix of the files. -/
structure SquashReceipt where
  file : String
  checksum : String
  archive : String
  replaces : List Applied
  proof : String
  deriving DecidableEq, Repr

/-- `migrations.lock.json`; its records are lists of entries, its absent members empty lists. -/
structure MigrationLock where
  snapshot : String
  files : List (String × String)
  squashes : List SquashReceipt
  physical : List (String × String)
  deriving DecidableEq, Repr

/-- The digest, and what is refused of a file's text. -/
structure Checks where
  sha256Hex : String → String
  /-- `a.localeCompare(b) <= 0`. -/
  localeLe : String → String → Bool
  /-- `checkFile` of a well named file: step classes, accept lines, checks and statements. -/
  checkText : MigrationFile → Except StoreError Unit
  /-- `checkSquashSources` of one file: no data step, only statements a baseline may replace. -/
  checkSquashText : MigrationFile → Except StoreError Unit

def refusal (code message : String) : StoreError := ⟨code, "admission", message⟩

/-- The digits of `NNNN` in `/^(\d{4})_([a-z0-9_]+)\.sql$/`; `none` is `NaN`. -/
def number (name : String) : Option Nat :=
  match name.toList with
  | a :: b :: c :: d :: '_' :: rest =>
    let body := rest.take (rest.length - 4)
    if [a, b, c, d].all Char.isDigit && !body.isEmpty &&
        body.all (fun x => x.isLower || x.isDigit || x == '_') &&
        rest.drop (rest.length - 4) == ['.', 's', 'q', 'l'] then
      some ([a, b, c, d].foldl (fun n x => 10 * n + (x.toNat - 48)) 0)
    else none
  | _ => none

/-- Sorting by the number of a name; a name without one is refused wherever it sorts. -/
def sortByNumber {α : Type} (nameOf : α → String) (xs : List α) : List α :=
  xs.insertionSort fun a b => (number (nameOf a)).getD 0 ≤ (number (nameOf b)).getD 0

/-- One applied row as canonical JSON prints it, its keys sorted. -/
def rowText (a : Applied) : List Char :=
  '{' :: (JsonText.quote "checksum" ++ ':' :: (JsonText.quote a.checksum ++
    ',' :: (JsonText.quote "name" ++ ':' :: (JsonText.quote a.name ++ ['}']))))

/-- The rows after the first, and the closing bracket. -/
def rowsText : List Applied → List Char
  | [] => [']']
  | a :: rest => ',' :: (rowText a ++ rowsText rest)

/-- `canonical` of applied rows. -/
def canonical : List Applied → String
  | [] => String.ofList ['[', ']']
  | a :: rest => String.ofList ('[' :: (rowText a ++ rowsText rest))

section

variable (C : Checks)

def checksumOf (file : MigrationFile) : String := C.sha256Hex file.sql

def appliedOf (files : List MigrationFile) : List Applied :=
  files.map fun file => ⟨file.name, checksumOf C file⟩

/-- `archiveOf`: the exact original prefix, with its order, names and checksums. -/
def archiveOf (files : List MigrationFile) : String := C.sha256Hex (canonical (appliedOf C files))

/-- `checkFile`: a file a database may run. -/
def checkFile (file : MigrationFile) : Except StoreError Unit := do
  refuseUnless ((number file.name).any (1 ≤ ·))
    (refusal "migrationInvalid" s!"'{file.name}' is not NNNN_<name>.sql starting at 0001")
  C.checkText file

/-- `orderedFiles`: numbered from 0001 without gaps. -/
def orderedFiles (files : List MigrationFile) : Except StoreError (List MigrationFile) := do
  let ordered := sortByNumber (·.name) files
  checkEach (fun (file, i) => do
    checkFile C file
    refuseUnless (number file.name == some (i + 1)) (refusal "migrationInvalid"
      s!"migrations are numbered from 0001 without gaps; {file.name} is not {i + 1}")) ordered.zipIdx
  return ordered

/-- `checkSquashSources`: a baseline may omit schema history, never row transformations. -/
def checkSquashSources (files : List MigrationFile) : Except StoreError Unit := do
  let ordered ← orderedFiles C files
  refuseUnless (!ordered.isEmpty)
    (refusal "migrationInvalid" "a squash needs a nonempty original prefix")
  checkEach C.checkSquashText ordered

/-- `checkSquashBaseline`: the single-file check does not require numbering from 0001. -/
def checkSquashBaseline (file : MigrationFile) : Except StoreError Unit :=
  checkSquashSources C [{ file with name := "0001_baseline.sql" }]

/-- The files and snapshot are those the lock verified. -/
def checkLock (ordered : List MigrationFile) (lock : MigrationLock) (snapshot : Option String) :
    Except StoreError Unit := do
  refuseUnless (snapshot.all fun s => C.sha256Hex s == lock.snapshot)
    (refusal "migrationChanged" "snapshot.json changed since the migrations were verified")
  checkEach (fun f => refuseUnless (lock.files.lookup f.name == some (checksumOf C f))
    (refusal "migrationChanged"
      s!"{f.name} changed since it was last verified; verify the migrations before applying them"))
    ordered
  checkEach (fun name => refuseUnless (ordered.any (·.name == name))
    (refusal "migrationChanged" s!"the verified migration {name} is gone")) (lock.files.map (·.1))

/-- A squash file with its receipt. -/
structure Baseline where
  file : MigrationFile
  receipt : SquashReceipt
  deriving DecidableEq, Repr

/-- The squash files are named apart. -/
def checkLoaded (loaded : List String) : List MigrationFile → Except StoreError Unit
  | [] => .ok ()
  | file :: rest => do
    refuseUnless (!loaded.contains file.name)
      (refusal "migrationInvalid" s!"duplicate squash file {file.name}")
    checkLoaded (file.name :: loaded) rest

/-- `/^[a-f0-9]{64}$/`. -/
def isProof (proof : String) : Bool :=
  proof.length == 64 && proof.toList.all fun c => c.isDigit || ('a' ≤ c && c ≤ 'f')

/-- One receipt read beside the baselines before it. -/
def readReceipt (ordered : List MigrationFile) (lock : MigrationLock) (squashes : List MigrationFile)
    (before : List Baseline) (receipt : SquashReceipt) : Except StoreError Baseline := do
  refuseUnless (!before.any (·.receipt.file == receipt.file) && !ordered.any (·.name == receipt.file))
    (refusal "migrationInvalid" s!"duplicate migration identity {receipt.file}")
  match squashes.find? (·.name == receipt.file) with
  | none => throw (refusal "migrationChanged" s!"the verified squash {receipt.file} is gone")
  | some file =>
    checkFile C file
    checkSquashBaseline C file
    -- a squash stands for the files up to its own number, whole and unchanged
    let replaced := ordered.take receipt.replaces.length
    refuseUnless (!receipt.replaces.isEmpty &&
        number receipt.file == some receipt.replaces.length &&
        canonical receipt.replaces == canonical (appliedOf C replaced) &&
        receipt.archive == archiveOf C replaced)
      (refusal "migrationInvalid" s!"{receipt.file} does not replace an exact original prefix")
    checkSquashSources C replaced
    refuseUnless (receipt.checksum == checksumOf C file)
      (refusal "migrationChanged" s!"{receipt.file} changed since its baseline was verified")
    refuseUnless (isProof receipt.proof && (lock.physical.lookup receipt.file).all (· == receipt.proof))
      (refusal "migrationInvalid" s!"{receipt.file} has no consistent physical replay proof")
    return ⟨file, receipt⟩

/-- The receipts of the lock read in turn. -/
def readReceipts (ordered : List MigrationFile) (lock : MigrationLock)
    (squashes : List MigrationFile) (before : List Baseline) :
    List SquashReceipt → Except StoreError (List Baseline)
  | [] => .ok before
  | receipt :: rest => do
    let baseline ← readReceipt C ordered lock squashes before receipt
    readReceipts ordered lock squashes (before ++ [baseline]) rest

/-- The verified baselines; every squash file has its receipt. -/
def baselinesOf (ordered : List MigrationFile) (lock : MigrationLock) (squashes : List MigrationFile) :
    Except StoreError (List Baseline) := do
  checkLoaded [] squashes
  let baselines ← readReceipts C ordered lock squashes [] lock.squashes
  checkEach (fun file => refuseUnless (baselines.any (·.receipt.file == file.name))
    (refusal "migrationChanged" s!"{file.name} has no verified squash receipt")) squashes
  return baselines

/-- `baselines.get`. -/
def baselineOf (baselines : List Baseline) (name : String) : Option Baseline :=
  baselines.find? (·.receipt.file == name)

/-- The baseline a ledger applied. -/
def usedBaseline (baselines : List Baseline) (history : List Applied) : Option Baseline :=
  (history.filter fun a => (baselineOf baselines a.name).isSome).head?.bind
    fun a => baselineOf baselines a.name

/-- The files a used baseline replaces. -/
def cutoffOf (baselines : List Baseline) (history : List Applied) : Nat :=
  ((usedBaseline baselines history).map (·.receipt.replaces.length)).getD 0

/-- The ledger's rows that are no baseline. -/
def originalsOf (baselines : List Baseline) (history : List Applied) : List Applied :=
  history.filter fun a => (baselineOf baselines a.name).isNone

/-- The ledger holds at most one baseline, nothing that is gone or changed, and a prefix of the files
after the baseline. -/
def checkHistory (ordered : List MigrationFile) (baselines : List Baseline) (history : List Applied) :
    Except StoreError Unit := do
  refuseUnless ((history.filter fun a => (baselineOf baselines a.name).isSome).length ≤ 1)
    (refusal "migrationInvalid" "a database cannot apply multiple squash baselines")
  checkEach (fun a =>
    match (ordered.find? (·.name == a.name)).or ((baselineOf baselines a.name).map (·.file)) with
    | none => .error (refusal "migrationChanged" s!"the database applied {a.name}, which is gone")
    | some f => refuseUnless (checksumOf C f == a.checksum) (refusal "migrationChanged"
        s!"{a.name} was applied with other text; an applied file never changes")) history
  checkEach (fun (a, i) =>
    refuseUnless ((ordered[cutoffOf baselines history + i]?).map (·.name) == some a.name)
      (refusal "migrationInvalid"
        s!"the database migration history is not a prefix of the committed files at {a.name}"))
    (originalsOf baselines history).zipIdx

inductive Strategy where
  | original
  | squash
  deriving DecidableEq, Repr

structure History where
  ordered : List MigrationFile
  covered : Nat
  strategy : Strategy
  pending : List MigrationFile
  deriving DecidableEq, Repr

/-- The baseline an empty ledger starts from: the longest, the first by name among equals. -/
def longest (baselines : List Baseline) : Option Baseline :=
  (baselines.insertionSort fun a b => b.receipt.replaces.length < a.receipt.replaces.length ∨
    (a.receipt.replaces.length = b.receipt.replaces.length ∧
      C.localeLe a.file.name b.file.name = true)).head?

/-- What is left to run after an accepted ledger. -/
def remaining (ordered : List MigrationFile) (baselines : List Baseline) (history : List Applied) :
    History :=
  let covered := cutoffOf baselines history + (originalsOf baselines history).length
  match history, longest C baselines with
  | [], some b => ⟨ordered, covered, .squash, b.file :: ordered.drop b.receipt.replaces.length⟩
  | _, _ => ⟨ordered, covered,
      if (usedBaseline baselines history).isNone then .original else .squash, ordered.drop covered⟩

/-- `migrationHistory`. -/
def migrationHistory (files : List MigrationFile) (lock : MigrationLock) (applied : List Applied)
    (snapshot : Option String) (squashes : List MigrationFile) : Except StoreError History := do
  let ordered ← orderedFiles C files
  checkLock C ordered lock snapshot
  let baselines ← baselinesOf C ordered lock squashes
  let history := sortByNumber (·.name) applied
  checkHistory C ordered baselines history
  return remaining C ordered baselines history

/-- `pending`: the files still to execute. -/
def pending (files : List MigrationFile) (lock : MigrationLock) (applied : List Applied)
    (snapshot : Option String) (squashes : List MigrationFile) :
    Except StoreError (List MigrationFile) :=
  (migrationHistory C files lock applied snapshot squashes).map (·.pending)

end

theorem rowText_append_inj {a b : Applied} {x y : List Char}
    (h : rowText a ++ x = rowText b ++ y) : a = b ∧ x = y := by
  simp only [rowText, List.cons_append, List.append_assoc, List.cons.injEq, true_and,
    List.append_cancel_left_eq] at h
  obtain ⟨hchecksum, h⟩ := JsonText.quote_append_inj h
  simp only [List.cons.injEq, true_and, List.append_cancel_left_eq] at h
  obtain ⟨hname, h⟩ := JsonText.quote_append_inj h
  refine ⟨?_, by simpa using h⟩
  obtain ⟨name, checksum⟩ := a
  exact congrArg₂ Applied.mk hname hchecksum

theorem rowsText_injective : Function.Injective rowsText := by
  intro as bs h
  induction as generalizing bs with
  | nil =>
    cases bs with
    | nil => rfl
    | cons b bs => simp [rowsText] at h
  | cons a as ih =>
    cases bs with
    | nil => simp [rowsText] at h
    | cons b bs =>
      rw [rowsText, rowsText, List.cons.injEq] at h
      obtain ⟨rfl, hrest⟩ := rowText_append_inj h.2
      rw [ih hrest]

theorem canonical_injective : Function.Injective canonical := by
  intro as bs h
  have hlist := congrArg String.toList h
  cases as with
  | nil =>
    cases bs with
    | nil => rfl
    | cons b bs => simp [canonical, rowText] at hlist
  | cons a as =>
    cases bs with
    | nil => simp [canonical, rowText] at hlist
    | cons b bs =>
      rw [canonical, canonical, String.toList_ofList, String.toList_ofList, List.cons.injEq] at hlist
      obtain ⟨rfl, hrest⟩ := rowText_append_inj hlist.2
      rw [rowsText_injective hrest]

section

variable {α : Type} {nameOf : α → String}

theorem sortByNumber_perm (nameOf : α → String) (xs : List α) : (sortByNumber nameOf xs).Perm xs :=
  List.perm_insertionSort _ _

/-- Elements whose numbers increase are what any arrangement of them sorts to. -/
theorem sortByNumber_eq {xs ys : List α} (hp : ys.Perm xs)
    (hs : ys.Pairwise fun a b => (number (nameOf a)).getD 0 < (number (nameOf b)).getD 0) :
    sortByNumber nameOf xs = ys := by
  let key : α → Nat := fun a => (number (nameOf a)).getD 0
  have hsorted : (sortByNumber nameOf xs).Pairwise fun a b => key a ≤ key b := by
    have : Std.Total fun a b : α => key a ≤ key b := ⟨fun a b => Nat.le_total (key a) (key b)⟩
    have : IsTrans α fun a b => key a ≤ key b := ⟨fun _ _ _ => Nat.le_trans⟩
    exact List.pairwise_insertionSort (fun a b => key a ≤ key b) xs
  have hinj : ∀ a ∈ ys, ∀ b ∈ ys, key a = key b → a = b := by
    refine List.inj_on_of_nodup_map (List.pairwise_map.mpr (hs.imp ?_))
    exact fun h => Nat.ne_of_lt h
  have hperm := (sortByNumber_perm nameOf xs).trans hp.symm
  refine List.Perm.eq_of_pairwise (fun a b ha hb hab hba => ?_) hsorted
    (hs.imp fun h => Nat.le_of_lt h) hperm
  exact hinj a (hperm.subset ha) b hb (Nat.le_antisymm hab hba)

end

section

variable {C : Checks} {ordered : List MigrationFile}

/-- The files are numbered by their places. -/
def Numbered (ordered : List MigrationFile) : Prop :=
  ∀ i f, ordered[i]? = some f → number f.name = some (i + 1)

theorem orderedFiles_eq_ok {files : List MigrationFile} :
    orderedFiles C files = .ok ordered ↔ sortByNumber (·.name) files = ordered ∧
      Numbered ordered ∧ ∀ f ∈ ordered, checkFile C f = .ok () := by
  rw [orderedFiles, check_bind_eq_ok, checkEach_eq_ok]
  constructor
  · rintro ⟨hall, hok⟩
    obtain rfl : sortByNumber (·.name) files = ordered := by simpa [pure, Except.pure] using hok
    refine ⟨rfl, ?_, ?_⟩
    · intro i f hf
      have := hall (f, i) (List.mem_zipIdx_iff_getElem?.mpr hf)
      rw [check_bind_eq_ok, refuseUnless_eq_ok] at this
      simpa using this.2
    · intro f hf
      obtain ⟨i, hi⟩ := List.mem_iff_getElem?.mp hf
      have := hall (f, i) (List.mem_zipIdx_iff_getElem?.mpr hi)
      rw [check_bind_eq_ok] at this
      exact this.1
  · rintro ⟨rfl, hnum, hcheck⟩
    refine ⟨?_, rfl⟩
    rintro ⟨f, i⟩ hf
    have hi := List.mem_zipIdx_iff_getElem?.mp hf
    rw [check_bind_eq_ok, refuseUnless_eq_ok]
    exact ⟨hcheck f (List.mem_of_getElem? hi), by simp [hnum i f hi]⟩

/-- The numbers of ordered files increase. -/
theorem Numbered.pairwise (hnum : Numbered ordered) : ordered.Pairwise fun a b =>
    (number a.name).getD 0 < (number b.name).getD 0 := by
  rw [List.pairwise_iff_getElem]
  intro i j hi hj hij
  rw [hnum i _ (List.getElem?_eq_getElem hi), hnum j _ (List.getElem?_eq_getElem hj)]
  simpa using hij

theorem Numbered.eq_of_name (hnum : Numbered ordered) {f g : MigrationFile} (hf : f ∈ ordered)
    (hg : g ∈ ordered) (hname : f.name = g.name) : f = g := by
  obtain ⟨i, hi⟩ := List.mem_iff_getElem?.mp hf
  obtain ⟨j, hj⟩ := List.mem_iff_getElem?.mp hg
  have hnumber := hnum i f hi
  rw [hname, hnum j g hj] at hnumber
  have hij : j = i := by simpa using hnumber
  rw [hij, hi] at hj
  exact Option.some.inj hj

/-- A file is found by its name. -/
theorem Numbered.find (hnum : Numbered ordered) {f : MigrationFile} (hf : f ∈ ordered) :
    ordered.find? (·.name == f.name) = some f := by
  cases hfind : ordered.find? (·.name == f.name) with
  | none => exact absurd (List.find?_eq_none.mp hfind f hf) (by simp)
  | some g =>
    have hname : g.name = f.name := by simpa using List.find?_some hfind
    rw [hnum.eq_of_name (List.mem_of_find?_eq_some hfind) hf hname]

/-- A file numbered at the end is none of the files. -/
theorem Numbered.name_ne (hnum : Numbered ordered) {f file : MigrationFile} (hf : f ∈ ordered)
    (hfile : number file.name = some (ordered.length + 1)) : f.name ≠ file.name := by
  intro hname
  obtain ⟨i, hi⟩ := List.mem_iff_getElem?.mp hf
  have hnumber := hnum i f hi
  rw [hname, hfile, Option.some.injEq] at hnumber
  have := (List.getElem?_eq_some_iff.mp hi).1
  omega

theorem Numbered.append (hnum : Numbered ordered) {file : MigrationFile}
    (hfile : number file.name = some (ordered.length + 1)) : Numbered (ordered ++ [file]) := by
  intro i f hf
  rcases Nat.lt_or_ge i ordered.length with hi | hi
  · rw [List.getElem?_append_left hi] at hf
    exact hnum i f hf
  · rw [List.getElem?_append_right hi] at hf
    obtain rfl : i = ordered.length := by
      have := (List.getElem?_eq_some_iff.mp hf).1
      simp only [List.length_singleton] at this
      omega
    have : f = file := by simpa using hf.symm
    rw [this, hfile]

/-- A file numbered at the end is ordered behind the others. -/
theorem orderedFiles_append {files files' : List MigrationFile} {file : MigrationFile}
    (hok : orderedFiles C files = .ok ordered) (hp : files'.Perm (file :: files))
    (hcheck : checkFile C file = .ok ()) (hfile : number file.name = some (ordered.length + 1)) :
    orderedFiles C files' = .ok (ordered ++ [file]) := by
  obtain ⟨rfl, hnum, hchecks⟩ := orderedFiles_eq_ok.mp hok
  have hnum' := hnum.append hfile
  refine orderedFiles_eq_ok.mpr ⟨sortByNumber_eq ?_ hnum'.pairwise, hnum', ?_⟩
  · have hback := (List.perm_append_singleton file (sortByNumber (·.name) files)).trans
      ((sortByNumber_perm _ files).cons file)
    exact hback.trans hp.symm
  · intro f hf
    rcases List.mem_append.mp hf with hf | hf
    · exact hchecks f hf
    · rw [List.mem_singleton.mp hf]
      exact hcheck

/-- A verified baseline: it replaces a prefix of the files and is numbered at its end. -/
structure Baseline.Verified (ordered : List MigrationFile) (b : Baseline) : Prop where
  name : b.file.name = b.receipt.file
  number : Store.number b.receipt.file = some b.receipt.replaces.length
  pos : 0 < b.receipt.replaces.length
  le : b.receipt.replaces.length ≤ ordered.length
  other : ∀ f ∈ ordered, f.name ≠ b.receipt.file

theorem readReceipt_verified {lock : MigrationLock} {squashes : List MigrationFile}
    {before : List Baseline} {receipt : SquashReceipt} {b : Baseline}
    (h : readReceipt C ordered lock squashes before receipt = .ok b) :
    b.Verified ordered ∧ b.receipt = receipt ∧ ∀ x ∈ before, x.receipt.file ≠ receipt.file := by
  rw [readReceipt, check_bind_eq_ok, refuseUnless_eq_ok] at h
  obtain ⟨hfresh, h⟩ := h
  simp only [Bool.and_eq_true, Bool.not_eq_true', List.any_eq_false, beq_iff_eq] at hfresh
  cases hfind : squashes.find? (·.name == receipt.file) with
  | none => simp [hfind, throw, throwThe, MonadExceptOf.throw] at h
  | some file =>
    simp only [hfind, check_bind_eq_ok, refuseUnless_eq_ok, Bool.and_eq_true, beq_iff_eq,
      Bool.not_eq_true', List.isEmpty_eq_false_iff] at h
    obtain ⟨-, -, ⟨⟨⟨hne, hnumber⟩, hcanonical⟩, -⟩, -, -, -, hb⟩ := h
    obtain rfl : (⟨file, receipt⟩ : Baseline) = b := by simpa [pure, Except.pure] using hb
    have hreplaces := congrArg List.length (canonical_injective hcanonical)
    rw [appliedOf, List.length_map, List.length_take] at hreplaces
    refine ⟨⟨?_, hnumber, List.length_pos_of_ne_nil hne, ?_, hfresh.2⟩, rfl, hfresh.1⟩
    · simpa using List.find?_some hfind
    · simp only at hreplaces ⊢
      omega

theorem readReceipts_verified {lock : MigrationLock} {squashes : List MigrationFile}
    {receipts : List SquashReceipt} {before bs : List Baseline}
    (h : readReceipts C ordered lock squashes before receipts = .ok bs)
    (hbefore : (∀ b ∈ before, b.Verified ordered) ∧ (before.map (·.receipt.file)).Nodup) :
    ((∀ b ∈ bs, b.Verified ordered) ∧ (bs.map (·.receipt.file)).Nodup) ∧
      bs.map (·.receipt) = before.map (·.receipt) ++ receipts := by
  induction receipts generalizing before with
  | nil =>
    obtain rfl : before = bs := by simpa [readReceipts] using h
    exact ⟨hbefore, by simp⟩
  | cons receipt receipts ih =>
    rw [readReceipts, Fallible.bind_eq_ok] at h
    obtain ⟨b, hb, h⟩ := h
    obtain ⟨hverified, rfl, hnew⟩ := readReceipt_verified hb
    have := ih h ⟨?_, ?_⟩
    · refine ⟨this.1, ?_⟩
      rw [this.2]
      simp
    · intro x hx
      rcases List.mem_append.mp hx with hx | hx
      · exact hbefore.1 x hx
      · exact List.mem_singleton.mp hx ▸ hverified
    · rw [List.map_append, List.nodup_append]
      refine ⟨hbefore.2, by simp, ?_⟩
      rintro _ hx _ hy rfl
      obtain ⟨x, hx, hxe⟩ := List.mem_map.mp hx
      simp only [List.map_cons, List.map_nil, List.mem_singleton] at hy
      exact hnew x hx (hxe.trans hy)

theorem baselinesOf_verified {lock : MigrationLock} {squashes : List MigrationFile}
    {bs : List Baseline} (h : baselinesOf C ordered lock squashes = .ok bs) :
    (∀ b ∈ bs, b.Verified ordered) ∧ (bs.map (·.receipt.file)).Nodup ∧
      bs.map (·.receipt) = lock.squashes := by
  rw [baselinesOf, check_bind_eq_ok, Fallible.bind_eq_ok] at h
  obtain ⟨-, bs', hread, h⟩ := h
  rw [check_bind_eq_ok] at h
  obtain rfl : bs' = bs := by simpa [pure, Except.pure] using h.2
  have := readReceipts_verified hread ⟨by simp, by simp⟩
  exact ⟨this.1.1, this.1.2, by simpa using this.2⟩

/-- A receipt is read alike with more files behind the prefix it replaces. -/
theorem readReceipt_append {lock lock' : MigrationLock} {squashes : List MigrationFile}
    {before : List Baseline} {receipt : SquashReceipt} {b : Baseline} {file : MigrationFile}
    (h : readReceipt C ordered lock squashes before receipt = .ok b)
    (hfile : number file.name = some (ordered.length + 1))
    (hphysical : lock'.physical.lookup receipt.file = lock.physical.lookup receipt.file) :
    readReceipt C (ordered ++ [file]) lock' squashes before receipt = .ok b := by
  obtain ⟨hverified, rfl, -⟩ := readReceipt_verified h
  have htake : (ordered ++ [file]).take b.receipt.replaces.length =
      ordered.take b.receipt.replaces.length := List.take_append_of_le_length hverified.le
  have hname : (file.name == b.receipt.file) = false := by
    rw [beq_eq_false_iff_ne]
    intro hname
    have hnumber := hverified.number
    rw [← hname, hfile, Option.some.injEq] at hnumber
    have := hverified.le
    omega
  have hany : (ordered ++ [file]).any (·.name == b.receipt.file) =
      ordered.any (·.name == b.receipt.file) := by
    simp [hname]
  rw [readReceipt] at h ⊢
  rw [hany, htake, hphysical]
  exact h

theorem readReceipts_append {lock lock' : MigrationLock} {squashes : List MigrationFile}
    {receipts : List SquashReceipt} {before bs : List Baseline} {file : MigrationFile}
    (h : readReceipts C ordered lock squashes before receipts = .ok bs)
    (hfile : number file.name = some (ordered.length + 1))
    (hphysical : ∀ r ∈ receipts, lock'.physical.lookup r.file = lock.physical.lookup r.file) :
    readReceipts C (ordered ++ [file]) lock' squashes before receipts = .ok bs := by
  induction receipts generalizing before with
  | nil => exact h
  | cons receipt receipts ih =>
    rw [readReceipts, Fallible.bind_eq_ok] at h ⊢
    obtain ⟨b, hb, h⟩ := h
    refine ⟨b, readReceipt_append hb hfile (hphysical receipt List.mem_cons_self), ih h ?_⟩
    exact fun r hr => hphysical r (List.mem_cons_of_mem receipt hr)

theorem baselinesOf_append {lock lock' : MigrationLock} {squashes : List MigrationFile}
    {bs : List Baseline} {file : MigrationFile} (h : baselinesOf C ordered lock squashes = .ok bs)
    (hfile : number file.name = some (ordered.length + 1)) (hsquashes : lock'.squashes = lock.squashes)
    (hphysical : ∀ r ∈ lock.squashes, lock'.physical.lookup r.file = lock.physical.lookup r.file) :
    baselinesOf C (ordered ++ [file]) lock' squashes = .ok bs := by
  rw [baselinesOf, check_bind_eq_ok, Fallible.bind_eq_ok] at h ⊢
  obtain ⟨hloaded, bs', hread, h⟩ := h
  rw [hsquashes]
  exact ⟨hloaded, bs', readReceipts_append hread hfile hphysical, h⟩

/-- The files of an accepted lock stay verified with an entry for one more. -/
theorem checkLock_append {lock lock' : MigrationLock} {snapshot snapshot' : Option String}
    {file : MigrationFile} (h : checkLock C ordered lock snapshot = .ok ()) (hnum : Numbered ordered)
    (hfile : number file.name = some (ordered.length + 1))
    (hfiles : lock'.files = lock.files ++ [(file.name, checksumOf C file)])
    (hsnapshot : ∀ s ∈ snapshot', C.sha256Hex s = lock'.snapshot) :
    checkLock C (ordered ++ [file]) lock' snapshot' = .ok () := by
  simp only [checkLock, check_bind_eq_ok, refuseUnless_eq_ok, checkEach_eq_ok, beq_iff_eq,
    List.any_eq_true] at h ⊢
  obtain ⟨-, hlocked, hknown⟩ := h
  have hnew : lock.files.lookup file.name = none := by
    rw [List.lookup_eq_none_iff]
    intro x hx
    obtain ⟨f, hf, hname⟩ := hknown x.1 (List.mem_map_of_mem hx)
    rw [bne_iff_ne, ← hname]
    exact (hnum.name_ne hf hfile).symm
  refine ⟨?_, ?_, ?_⟩
  · rw [Option.all_eq_true]
    intro s hs
    simp [hsnapshot s hs]
  · intro f hf
    rw [hfiles, List.lookup_append]
    rcases List.mem_append.mp hf with hf | hf
    · simp [hlocked f hf]
    · rw [List.mem_singleton.mp hf, hnew]
      simp
  · intro name hname
    rw [hfiles, List.map_append] at hname
    rcases List.mem_append.mp hname with hname | hname
    · obtain ⟨f, hf, hfname⟩ := hknown name hname
      exact ⟨f, List.mem_append_left _ hf, hfname⟩
    · have hname : name = file.name := by simpa using hname
      exact ⟨file, List.mem_append_right _ (List.mem_singleton_self _), hname.symm⟩

/-- What `checkHistory` accepts. -/
structure Accepts (C : Checks) (ordered : List MigrationFile) (bs : List Baseline)
    (history : List Applied) : Prop where
  one : (history.filter fun a => (baselineOf bs a.name).isSome).length ≤ 1
  texts : ∀ a ∈ history, ∃ f,
    (ordered.find? (·.name == a.name)).or ((baselineOf bs a.name).map (·.file)) = some f ∧
      checksumOf C f = a.checksum
  originals : ∀ i a, (originalsOf bs history)[i]? = some a →
    (ordered[cutoffOf bs history + i]?).map (·.name) = some a.name

theorem checkHistory_eq_ok {bs : List Baseline} {history : List Applied} :
    checkHistory C ordered bs history = .ok () ↔ Accepts C ordered bs history := by
  simp only [checkHistory, check_bind_eq_ok, refuseUnless_eq_ok, checkEach_eq_ok, decide_eq_true_eq]
  constructor
  · rintro ⟨hone, htexts, horiginals⟩
    refine ⟨hone, ?_, ?_⟩
    · intro a ha
      have := htexts a ha
      split at this
      · cases this
      · next f hf => exact ⟨f, hf, by simpa using this⟩
    · intro i a ha
      simpa using horiginals (a, i) (List.mem_zipIdx_iff_getElem?.mpr ha)
  · rintro ⟨hone, htexts, horiginals⟩
    refine ⟨hone, ?_, ?_⟩
    · intro a ha
      obtain ⟨f, hf, hsum⟩ := htexts a ha
      simp [hf, hsum]
    · rintro ⟨a, i⟩ ha
      simpa using horiginals i a (List.mem_zipIdx_iff_getElem?.mp ha)

/-- The baselines are verified and named apart. -/
structure Baselines (ordered : List MigrationFile) (bs : List Baseline) : Prop where
  verified : ∀ b ∈ bs, b.Verified ordered
  nodup : (bs.map (·.receipt.file)).Nodup

variable {bs : List Baseline} {history : List Applied}

theorem baselineOf_eq_some {name : String} {b : Baseline} (h : baselineOf bs name = some b) :
    b ∈ bs ∧ b.receipt.file = name :=
  ⟨List.mem_of_find?_eq_some h, by simpa using List.find?_some h⟩

theorem Baselines.find (hbs : Baselines ordered bs) {b : Baseline} (hb : b ∈ bs) :
    baselineOf bs b.receipt.file = some b := by
  cases hfind : baselineOf bs b.receipt.file with
  | none => exact absurd (List.find?_eq_none.mp hfind b hb) (by simp)
  | some c =>
    obtain ⟨hc, hfile⟩ := baselineOf_eq_some hfind
    rw [List.inj_on_of_nodup_map hbs.nodup hc hb hfile]

/-- No file is a baseline. -/
theorem Baselines.file_none (hbs : Baselines ordered bs) {f : MigrationFile} (hf : f ∈ ordered) :
    baselineOf bs f.name = none := by
  cases hfind : baselineOf bs f.name with
  | none => rfl
  | some b =>
    obtain ⟨hb, hfile⟩ := baselineOf_eq_some hfind
    exact absurd hfile.symm ((hbs.verified b hb).other f hf)

/-- The rows of the ledger that are a baseline. -/
def usedOf (bs : List Baseline) (history : List Applied) : List Applied :=
  history.filter fun a => (baselineOf bs a.name).isSome

/-- The files a ledger covers. -/
def coveredOf (bs : List Baseline) (history : List Applied) : Nat :=
  cutoffOf bs history + (originalsOf bs history).length

/-- An accepted ledger has no baseline, or one whose files it cuts off. -/
theorem Accepts.used_cases (hacc : Accepts C ordered bs history) :
    (usedOf bs history = [] ∧ cutoffOf bs history = 0) ∨
      ∃ a b, usedOf bs history = [a] ∧ baselineOf bs a.name = some b ∧
        cutoffOf bs history = b.receipt.replaces.length := by
  have hone : (usedOf bs history).length ≤ 1 := hacc.one
  have hcutoff : cutoffOf bs history = (((usedOf bs history).head?.bind
      fun a => baselineOf bs a.name).map (·.receipt.replaces.length)).getD 0 := rfl
  match hused : usedOf bs history with
  | [] => exact Or.inl ⟨rfl, by simp [hcutoff, hused]⟩
  | [a] =>
    have ha : a ∈ usedOf bs history := by simp [hused]
    obtain ⟨b, hb⟩ := Option.isSome_iff_exists.mp (List.mem_filter.mp ha).2
    exact Or.inr ⟨a, b, rfl, hb, by simp [hcutoff, hused, hb]⟩
  | a :: a' :: rest => simp [hused] at hone

/-- The original at a place of the ledger is the file at that place behind the cutoff. -/
theorem Accepts.original (hacc : Accepts C ordered bs history) {i : Nat} {a : Applied}
    (ha : (originalsOf bs history)[i]? = some a) :
    ∃ f, ordered[cutoffOf bs history + i]? = some f ∧ f.name = a.name := by
  have := hacc.originals i a ha
  obtain ⟨f, hf, hname⟩ := Option.map_eq_some_iff.mp this
  exact ⟨f, hf, hname⟩

theorem Accepts.covered_le (hacc : Accepts C ordered bs history) (hbs : Baselines ordered bs) :
    coveredOf bs history ≤ ordered.length := by
  rw [coveredOf]
  cases horiginals : (originalsOf bs history).length with
  | zero =>
    rcases hacc.used_cases with ⟨-, hcut⟩ | ⟨a, b, -, hb, hcut⟩
    · omega
    · have := (hbs.verified b (baselineOf_eq_some hb).1).le
      omega
  | succ n =>
    have hn : n < (originalsOf bs history).length := by omega
    obtain ⟨f, hf, -⟩ := hacc.original (List.getElem?_eq_getElem hn)
    have := (List.getElem?_eq_some_iff.mp hf).1
    omega

private theorem pairwise_of_short {rows : List Applied} {r : Applied → Applied → Prop}
    (h : rows.length ≤ 1) : rows.Pairwise r := by
  match rows with
  | [] => exact List.Pairwise.nil
  | [a] => exact List.pairwise_singleton r a
  | a :: b :: rest => simp at h

/-- The numbers of an accepted ledger increase, its baseline first, and a row numbered behind what
it covers comes last. -/
theorem Accepts.increasing (hacc : Accepts C ordered bs history) (hbs : Baselines ordered bs)
    (hnum : Numbered ordered) (last : List Applied) (hlast : last.length ≤ 1)
    (hbehind : ∀ a ∈ last, coveredOf bs history < (number a.name).getD 0) :
    (usedOf bs history ++ originalsOf bs history ++ last).Pairwise fun a b =>
      (number a.name).getD 0 < (number b.name).getD 0 := by
  have horiginal : ∀ i a, (originalsOf bs history)[i]? = some a →
      (number a.name).getD 0 = cutoffOf bs history + i + 1 := by
    intro i a ha
    obtain ⟨f, hf, hname⟩ := hacc.original ha
    rw [← hname, hnum _ f hf]
    rfl
  have hused : ∀ a ∈ usedOf bs history, (number a.name).getD 0 = cutoffOf bs history := by
    intro a ha
    rcases hacc.used_cases with ⟨hnil, -⟩ | ⟨c, b, hone, hb, hcut⟩
    · simp [hnil] at ha
    · obtain rfl : a = c := by simpa [hone] using ha
      obtain ⟨hmem, hfile⟩ := baselineOf_eq_some hb
      rw [← hfile, (hbs.verified b hmem).number, hcut]
      rfl
  have hmem : ∀ a ∈ originalsOf bs history, cutoffOf bs history < (number a.name).getD 0 ∧
      (number a.name).getD 0 ≤ coveredOf bs history := by
    intro a ha
    obtain ⟨i, hi⟩ := List.mem_iff_getElem?.mp ha
    have := (List.getElem?_eq_some_iff.mp hi).1
    rw [horiginal i a hi, coveredOf]
    omega
  rw [List.pairwise_append, List.pairwise_append]
  refine ⟨⟨?_, ?_, ?_⟩, ?_, ?_⟩
  · exact pairwise_of_short hacc.one
  · rw [List.pairwise_iff_getElem]
    intro i j hi hj hij
    rw [horiginal i _ (List.getElem?_eq_getElem hi), horiginal j _ (List.getElem?_eq_getElem hj)]
    omega
  · intro a ha b hb
    rw [hused a ha]
    exact (hmem b hb).1
  · exact pairwise_of_short hlast
  · intro a ha b hb
    have hle : (number a.name).getD 0 ≤ coveredOf bs history := by
      rcases List.mem_append.mp ha with ha | ha
      · rw [hused a ha, coveredOf]
        omega
      · exact (hmem a ha).2
    exact Nat.lt_of_le_of_lt hle (hbehind b hb)

theorem used_append_originals_perm (bs : List Baseline) (history : List Applied) :
    (usedOf bs history ++ originalsOf bs history).Perm history := by
  have h := List.filter_append_perm (fun a : Applied => (baselineOf bs a.name).isSome) history
  simpa only [usedOf, originalsOf, Option.not_isSome] using h

/-- An accepted ledger in order: its baseline, then the files behind it. -/
theorem Accepts.eq_append {applied : List Applied} (hsort : sortByNumber (·.name) applied = history)
    (hacc : Accepts C ordered bs history) (hbs : Baselines ordered bs) (hnum : Numbered ordered) :
    history = usedOf bs history ++ originalsOf bs history := by
  have hinc := hacc.increasing hbs hnum [] (by simp) (by simp)
  rw [List.append_nil] at hinc
  have hperm := (used_append_originals_perm bs history).trans (hsort ▸ sortByNumber_perm _ applied)
  exact hsort.symm.trans (sortByNumber_eq hperm hinc)

/-- A row recorded behind what the ledger covers is its last. -/
theorem Accepts.sort_record {applied applied' : List Applied} (row : Applied)
    (hsort : sortByNumber (·.name) applied = history) (hacc : Accepts C ordered bs history)
    (hbs : Baselines ordered bs) (hnum : Numbered ordered)
    (hrow : coveredOf bs history < (number row.name).getD 0) (hp : applied'.Perm (row :: applied)) :
    sortByNumber (·.name) applied' = history ++ [row] := by
  have hinc := hacc.increasing hbs hnum [row] (by simp) (by simpa using hrow)
  rw [← hacc.eq_append hsort hbs hnum] at hinc
  refine sortByNumber_eq ?_ hinc
  have hperm : history.Perm applied := hsort ▸ sortByNumber_perm _ applied
  exact (List.perm_append_singleton row history).trans ((hperm.cons row).trans hp.symm)

/-- The ledger with the next file recorded is accepted, and covers it. -/
theorem Accepts.record (hacc : Accepts C ordered bs history) (hbs : Baselines ordered bs)
    (hnum : Numbered ordered) {f : MigrationFile} (hf : ordered[coveredOf bs history]? = some f) :
    Accepts C ordered bs (history ++ [⟨f.name, checksumOf C f⟩]) ∧
      coveredOf bs (history ++ [⟨f.name, checksumOf C f⟩]) = coveredOf bs history + 1 := by
  have hmem := List.mem_of_getElem? hf
  have hnone := hbs.file_none hmem
  have hused : usedOf bs (history ++ [⟨f.name, checksumOf C f⟩]) = usedOf bs history := by
    simp [usedOf, hnone]
  have horiginals : originalsOf bs (history ++ [⟨f.name, checksumOf C f⟩]) =
      originalsOf bs history ++ [⟨f.name, checksumOf C f⟩] := by
    simp [originalsOf, hnone]
  have hcut : cutoffOf bs (history ++ [⟨f.name, checksumOf C f⟩]) = cutoffOf bs history := by
    have hof : ∀ h, cutoffOf bs h = (((usedOf bs h).head?.bind
      fun a => baselineOf bs a.name).map (·.receipt.replaces.length)).getD 0 := fun _ => rfl
    rw [hof, hof, hused]
  refine ⟨⟨?_, ?_, ?_⟩, ?_⟩
  · have hone : (usedOf bs (history ++ [⟨f.name, checksumOf C f⟩])).length ≤ 1 := by
      rw [hused]
      exact hacc.one
    exact hone
  · intro a ha
    rcases List.mem_append.mp ha with ha | ha
    · exact hacc.texts a ha
    · obtain rfl := List.mem_singleton.mp ha
      exact ⟨f, by simp [hnum.find hmem], rfl⟩
  · intro i a ha
    rw [horiginals] at ha
    rw [hcut]
    rcases Nat.lt_or_ge i (originalsOf bs history).length with hi | hi
    · rw [List.getElem?_append_left hi] at ha
      exact hacc.originals i a ha
    · obtain rfl : i = (originalsOf bs history).length := by
        have := (List.getElem?_eq_some_iff.mp ha).1
        simp only [List.length_append, List.length_singleton] at this
        omega
      rw [List.getElem?_append_right (Nat.le_refl _)] at ha
      obtain rfl : (⟨f.name, checksumOf C f⟩ : Applied) = a := by simpa using ha
      rw [coveredOf] at hf
      rw [hf]
      rfl
  · rw [coveredOf, hcut, horiginals, List.length_append, coveredOf]
    rfl

/-- A database whose first record is a baseline. -/
theorem accepts_baseline (hbs : Baselines ordered bs) {b : Baseline} (hb : b ∈ bs) :
    Accepts C ordered bs [⟨b.file.name, checksumOf C b.file⟩] ∧
      coveredOf bs [⟨b.file.name, checksumOf C b.file⟩] = b.receipt.replaces.length := by
  have hfind := hbs.find hb
  have hv := hbs.verified b hb
  rw [← hv.name] at hfind
  have horiginals : originalsOf bs [⟨b.file.name, checksumOf C b.file⟩] = [] := by
    simp [originalsOf, hfind]
  refine ⟨⟨?_, ?_, ?_⟩, ?_⟩
  · exact List.length_filter_le _ _
  · intro a ha
    obtain rfl := List.mem_singleton.mp ha
    have hnone : ordered.find? (·.name == b.file.name) = none := by
      rw [List.find?_eq_none]
      intro f hf
      have := hv.other f hf
      simpa [hv.name] using this
    exact ⟨b.file, by simp [hnone, hfind], rfl⟩
  · intro i a ha
    rw [horiginals] at ha
    simp at ha
  · rw [coveredOf, horiginals]
    simp [cutoffOf, usedBaseline, hfind]

/-- More files behind the accepted ones leave the ledger accepted. -/
theorem Accepts.append (hacc : Accepts C ordered bs history) (hbs : Baselines ordered bs)
    {file : MigrationFile} (hfile : number file.name = some (ordered.length + 1)) :
    Accepts C (ordered ++ [file]) bs history := by
  refine ⟨hacc.one, ?_, ?_⟩
  · intro a ha
    obtain ⟨f, hf, hsum⟩ := hacc.texts a ha
    refine ⟨f, ?_, hsum⟩
    rw [List.find?_append]
    cases hfind : ordered.find? (·.name == a.name) with
    | some g => simpa [hfind] using hf
    | none =>
      rw [hfind, Option.none_or] at hf
      obtain ⟨b, hb, rfl⟩ := Option.map_eq_some_iff.mp hf
      obtain ⟨hmem, hname⟩ := baselineOf_eq_some hb
      have hne : (file.name == a.name) = false := by
        rw [beq_eq_false_iff_ne, ← hname]
        intro heq
        have hv := hbs.verified b hmem
        have hnumber := hv.number
        rw [← heq, hfile, Option.some.injEq] at hnumber
        have := hv.le
        omega
      simp [hne, hb]
  · intro i a ha
    obtain ⟨f, hf, hname⟩ := hacc.original ha
    rw [List.getElem?_append_left (List.getElem?_eq_some_iff.mp hf).1, hf]
    simp [hname]

theorem longest_mem {b : Baseline} (h : longest C bs = some b) : b ∈ bs :=
  (List.mem_insertionSort _).mp (List.mem_of_head? h)

/-- Only an empty ledger starts from a baseline. -/
theorem remaining_cases (C : Checks) (ordered : List MigrationFile) (bs : List Baseline)
    (history : List Applied) :
    (∃ b ∈ bs, history = [] ∧ (remaining C ordered bs history).pending =
      b.file :: ordered.drop b.receipt.replaces.length) ∨
    ((history = [] → longest C bs = none) ∧
      (remaining C ordered bs history).pending = ordered.drop (coveredOf bs history)) := by
  cases history with
  | cons a rest => exact Or.inr ⟨by simp, rfl⟩
  | nil =>
    cases hlongest : longest C bs with
    | none => exact Or.inr ⟨by simp, by simp [remaining, hlongest, coveredOf]⟩
    | some b => exact Or.inl ⟨b, longest_mem hlongest, rfl, by simp [remaining, hlongest]⟩

theorem remaining_of_ne_nil (h : history ≠ []) :
    (remaining C ordered bs history).pending = ordered.drop (coveredOf bs history) := by
  cases history with
  | nil => exact absurd rfl h
  | cons a rest => rfl

/-- The files a recorded or pending name stands for: a baseline for the prefix it replaces, a file
for itself. -/
def standsFor (ordered : List MigrationFile) (squashes : List SquashReceipt) (name : String) :
    List MigrationFile :=
  match squashes.find? (·.file == name) with
  | some receipt => ordered.take receipt.replaces.length
  | none => ordered.filter (·.name == name)

theorem standsFor_eq_baselineOf (name : String) : standsFor ordered (bs.map (·.receipt)) name =
    match baselineOf bs name with
    | some b => ordered.take b.receipt.replaces.length
    | none => ordered.filter (·.name == name) := by
  have hfind : (bs.map (·.receipt)).find? (·.file == name) = (baselineOf bs name).map (·.receipt) := by
    rw [List.find?_map]
    rfl
  rw [standsFor, hfind]
  cases baselineOf bs name <;> rfl

theorem Numbered.filter_name (hnum : Numbered ordered) {f : MigrationFile} (hf : f ∈ ordered) :
    ordered.filter (·.name == f.name) = [f] := by
  have hnodup : ordered.Nodup := by
    refine hnum.pairwise.imp ?_
    rintro a _ hab rfl
    exact Nat.lt_irrefl _ hab
  rw [← List.filter_congr (p := (· == f)), List.filter_beq, List.count_eq_one_of_mem hnodup hf]
  · rfl
  · intro g hg
    by_cases hgf : g = f
    · simp [hgf]
    · have : g.name ≠ f.name := fun hname => hgf (hnum.eq_of_name hg hf hname)
      simp [hgf, this]

/-- Files stand for themselves. -/
theorem flatMap_standsFor_files (hnum : Numbered ordered) (hbs : Baselines ordered bs)
    {files : List MigrationFile} (hfiles : ∀ f ∈ files, f ∈ ordered) :
    (files.map (·.name)).flatMap (standsFor ordered (bs.map (·.receipt))) = files := by
  induction files with
  | nil => rfl
  | cons f files ih =>
    have hf := hfiles f List.mem_cons_self
    rw [List.map_cons, List.flatMap_cons, ih fun g hg => hfiles g (List.mem_cons_of_mem f hg),
      standsFor_eq_baselineOf, hbs.file_none hf]
    simp only [hnum.filter_name hf, List.singleton_append]

/-- The names of a ledger stand for the files it covers. -/
theorem Accepts.flatMap_standsFor {applied : List Applied}
    (hsort : sortByNumber (·.name) applied = history) (hacc : Accepts C ordered bs history)
    (hbs : Baselines ordered bs) (hnum : Numbered ordered) :
    (history.map (·.name)).flatMap (standsFor ordered (bs.map (·.receipt))) =
      ordered.take (coveredOf bs history) := by
  have horiginals : (originalsOf bs history).map (·.name) =
      ((ordered.drop (cutoffOf bs history)).take (originalsOf bs history).length).map (·.name) := by
    apply List.ext_getElem?
    intro i
    rcases Nat.lt_or_ge i (originalsOf bs history).length with hi | hi
    · obtain ⟨f, hf, hname⟩ := hacc.original (List.getElem?_eq_getElem hi)
      rw [List.getElem?_map, List.getElem?_eq_getElem hi, List.getElem?_map,
        List.getElem?_take_of_lt hi, List.getElem?_drop, hf]
      simp [hname]
    · rw [List.getElem?_eq_none (by simpa using hi), List.getElem?_eq_none]
      simp only [List.length_map, List.length_take]
      omega
  have hused : ((usedOf bs history).map (·.name)).flatMap (standsFor ordered (bs.map (·.receipt))) =
      ordered.take (cutoffOf bs history) := by
    rcases hacc.used_cases with ⟨hnil, hcut⟩ | ⟨a, b, hone, hb, hcut⟩
    · simp [hnil, hcut]
    · simp [hone, hcut, standsFor_eq_baselineOf, hb]
  calc
    (history.map (·.name)).flatMap (standsFor ordered (bs.map (·.receipt)))
    _ = ((usedOf bs history ++ originalsOf bs history).map (·.name)).flatMap
          (standsFor ordered (bs.map (·.receipt))) := by
        rw [← hacc.eq_append hsort hbs hnum]
    _ = ordered.take (cutoffOf bs history) ++
          (ordered.drop (cutoffOf bs history)).take (originalsOf bs history).length := by
        rw [List.map_append, List.flatMap_append, hused, horiginals,
          flatMap_standsFor_files hnum hbs]
        exact fun f hf => List.mem_of_mem_drop (List.mem_of_mem_take hf)
    _ = ordered.take (coveredOf bs history) := by
        rw [coveredOf, List.take_add]

theorem remaining_append (hacc : Accepts C ordered bs history) (hbs : Baselines ordered bs)
    (file : MigrationFile) : (remaining C (ordered ++ [file]) bs history).pending =
      (remaining C ordered bs history).pending ++ [file] := by
  have hcovered := hacc.covered_le hbs
  cases history with
  | cons a rest =>
    rw [remaining_of_ne_nil (by simp), remaining_of_ne_nil (by simp),
      List.drop_append_of_le_length hcovered]
  | nil =>
    cases hlongest : longest C bs with
    | none =>
      simp only [remaining, hlongest]
      exact List.drop_append_of_le_length hcovered
    | some b =>
      have hle := (hbs.verified b (longest_mem hlongest)).le
      simp only [remaining, hlongest, List.cons_append]
      rw [List.drop_append_of_le_length hle]

/-- An accepted history, taken apart. -/
theorem migrationHistory_eq_ok {files squashes : List MigrationFile} {lock : MigrationLock}
    {applied : List Applied} {snapshot : Option String} {h : History} :
    migrationHistory C files lock applied snapshot squashes = .ok h ↔
      ∃ ordered bs, orderedFiles C files = .ok ordered ∧ checkLock C ordered lock snapshot = .ok () ∧
        baselinesOf C ordered lock squashes = .ok bs ∧
        Accepts C ordered bs (sortByNumber (·.name) applied) ∧
        remaining C ordered bs (sortByNumber (·.name) applied) = h := by
  rw [migrationHistory, Fallible.bind_eq_ok]
  constructor
  · rintro ⟨ordered, hordered, h⟩
    obtain ⟨hlock, h⟩ := check_bind_eq_ok.mp h
    obtain ⟨bs, hbs, h⟩ := Fallible.bind_eq_ok.mp h
    obtain ⟨hacc, h⟩ := check_bind_eq_ok.mp h
    refine ⟨ordered, bs, hordered, hlock, hbs, checkHistory_eq_ok.mp hacc, ?_⟩
    simpa [pure, Except.pure] using h
  · rintro ⟨ordered, bs, hordered, hlock, hbs, hacc, rfl⟩
    refine ⟨ordered, hordered, check_bind_eq_ok.mpr ⟨hlock, Fallible.bind_eq_ok.mpr ⟨bs, hbs, ?_⟩⟩⟩
    exact check_bind_eq_ok.mpr ⟨checkHistory_eq_ok.mpr hacc, rfl⟩

@[simp]
theorem remaining_ordered : (remaining C ordered bs history).ordered = ordered := by
  unfold remaining
  dsimp only
  split <;> rfl

/-- Migration runs resume from any ledger that is accepted. -/
theorem migrationHistory_resumes {files squashes : List MigrationFile} {lock : MigrationLock}
    {applied : List Applied} {snapshot : Option String} {h : History}
    (hok : migrationHistory C files lock applied snapshot squashes = .ok h) :
    -- what the ledger and the pending files stand for are the ordered files, each once and in order
    ((sortByNumber (·.name) applied).map (·.name) ++ h.pending.map (·.name)).flatMap
        (standsFor h.ordered lock.squashes) = h.ordered ∧
    -- the first pending file recorded, wherever the ledger lists it
    (∀ f rest, h.pending = f :: rest → ∀ applied' : List Applied,
      applied'.Perm (⟨f.name, checksumOf C f⟩ :: applied) →
      ∃ h', migrationHistory C files lock applied' snapshot squashes = .ok h' ∧ h'.pending = rest) ∧
    -- one more file, numbered at the end, with its lock entry
    (∀ (file : MigrationFile) (files' : List MigrationFile) (lock' : MigrationLock)
        (snapshot' : Option String), files'.Perm (file :: files) → checkFile C file = .ok () →
      number file.name = some (h.ordered.length + 1) →
      lock'.files = lock.files ++ [(file.name, checksumOf C file)] →
      lock'.squashes = lock.squashes →
      (∀ r ∈ lock.squashes, lock'.physical.lookup r.file = lock.physical.lookup r.file) →
      (∀ s ∈ snapshot', C.sha256Hex s = lock'.snapshot) →
      ∃ h', migrationHistory C files' lock' applied snapshot' squashes = .ok h' ∧
        h'.pending = h.pending ++ [file]) := by
  obtain ⟨ordered, bs, hordered, hlock, hbaselines, hacc, rfl⟩ := migrationHistory_eq_ok.mp hok
  obtain ⟨-, hnum, -⟩ := orderedFiles_eq_ok.mp hordered
  obtain ⟨hverified, hnodup, hreceipts⟩ := baselinesOf_verified hbaselines
  have hbs : Baselines ordered bs := ⟨hverified, hnodup⟩
  set history := sortByNumber (·.name) applied with hhistory
  refine ⟨?_, ?_, ?_⟩
  · rw [remaining_ordered, ← hreceipts, List.flatMap_append,
      hacc.flatMap_standsFor hhistory.symm hbs hnum]
    rcases remaining_cases C ordered bs history with ⟨b, hb, hnil, hpending⟩ | ⟨-, hpending⟩
    · have hv := hbs.verified b hb
      have hcovered : coveredOf bs history = 0 := by rw [hnil]; rfl
      have hfind := hbs.find hb
      rw [← hv.name] at hfind
      rw [hpending, hcovered, List.map_cons, List.flatMap_cons, standsFor_eq_baselineOf, hfind,
        flatMap_standsFor_files hnum hbs fun f hf => List.mem_of_mem_drop hf]
      simp
    · rw [hpending, flatMap_standsFor_files hnum hbs fun f hf => List.mem_of_mem_drop hf,
        List.take_append_drop]
  · intro f rest hpending applied' hp
    rcases remaining_cases C ordered bs history with ⟨b, hb, hnil, hb'⟩ | ⟨-, hdrop⟩
    · -- an empty ledger: the baseline is recorded first
      rw [hb', List.cons.injEq] at hpending
      obtain ⟨rfl, rfl⟩ := hpending
      obtain ⟨hacc', hcovered⟩ := accepts_baseline (C := C) hbs hb
      have happlied : applied = [] := by
        have := sortByNumber_perm (fun a : Applied => a.name) applied
        rw [← hhistory, hnil] at this
        exact this.symm.eq_nil
      rw [happlied] at hp
      have hsort : sortByNumber (·.name) applied' = [⟨b.file.name, checksumOf C b.file⟩] := by
        rw [List.perm_singleton.mp hp]
        rfl
      refine ⟨_, migrationHistory_eq_ok.mpr
        ⟨ordered, bs, hordered, hlock, hbaselines, hsort ▸ hacc', rfl⟩, ?_⟩
      rw [hsort, remaining_of_ne_nil (by simp), hcovered]
    · rw [hdrop] at hpending
      have hf : ordered[coveredOf bs history]? = some f := by
        rw [← List.head?_drop, hpending]
        rfl
      obtain ⟨hacc', hcovered⟩ := hacc.record hbs hnum hf
      have hrow : coveredOf bs history < (number f.name).getD 0 := by
        rw [hnum _ f hf]
        exact Nat.lt_succ_self _
      have hsort := hacc.sort_record ⟨f.name, checksumOf C f⟩ hhistory.symm hbs hnum hrow hp
      refine ⟨_, migrationHistory_eq_ok.mpr
        ⟨ordered, bs, hordered, hlock, hbaselines, hsort ▸ hacc', rfl⟩, ?_⟩
      rw [hsort, remaining_of_ne_nil (by simp), hcovered, ← List.tail_drop, hpending]
      rfl
  · intro file files' lock' snapshot' hp hcheck hfile hfiles hsquashes hphysical hsnapshot
    rw [remaining_ordered] at hfile
    refine ⟨_, migrationHistory_eq_ok.mpr ⟨ordered ++ [file], bs,
      orderedFiles_append hordered hp hcheck hfile,
      checkLock_append hlock hnum hfile hfiles hsnapshot,
      baselinesOf_append hbaselines hfile hsquashes hphysical, hacc.append hbs hfile, rfl⟩, ?_⟩
    exact remaining_append hacc hbs file

end

-- Two files and a baseline for both.

def entryFile : MigrationFile := ⟨"0001_entry.sql", "create table entry (id uuid primary key);"⟩

def labelFile : MigrationFile := ⟨"0002_label.sql", "alter table entry add column label text;"⟩

def squashFile : MigrationFile := ⟨"0002_squash.sql", "create table entry (id uuid primary key, label text);"⟩

/-- The digests of the three texts and of the archived prefix. -/
def entryChecks : Checks where
  sha256Hex text :=
    if text = entryFile.sql then "75b149a60d2c30063f5a4b0c6dcd4266e0099bd0f15c4fa46691335ebdd64bce"
    else if text = labelFile.sql then
      "b152dd895c90b445fa912d9ea3b02988db44e40c5f1a5e8654f88fdd227b4521"
    else if text = squashFile.sql then
      "0b00a5e6b3589dde7430917c24e2c808578093bb485ac3f486e9a91198e8cad5"
    else "913a1b6da6bc0c5e916721256514975ed3b3f0de58691c479bfb564841b06c88"
  localeLe a b := a ≤ b
  checkText _ := .ok ()
  checkSquashText _ := .ok ()

def squashReceipt : SquashReceipt where
  file := squashFile.name
  checksum := checksumOf entryChecks squashFile
  archive := archiveOf entryChecks [entryFile, labelFile]
  replaces := appliedOf entryChecks [entryFile, labelFile]
  proof := "4f53cda18c2baa0c0354bb5f9a3ecbe5ed12ab4d8e11ba873c2f11161202b945"

def entryLock : MigrationLock where
  snapshot := ""
  files := (appliedOf entryChecks [entryFile, labelFile]).map fun a => (a.name, a.checksum)
  squashes := [squashReceipt]
  physical := []

theorem fresh_starts_from_squash :
    migrationHistory entryChecks [entryFile, labelFile] entryLock [] none [squashFile] =
      .ok ⟨[entryFile, labelFile], 0, .squash, [squashFile]⟩ := by
  decide +kernel

/-- A fresh database runs the baseline, which is none of the ordered files. -/
theorem fresh_pending_not_ordered :
    ∃ h, migrationHistory entryChecks [entryFile, labelFile] entryLock [] none [squashFile] = .ok h ∧
      h.ordered.take h.covered ++ h.pending ≠ h.ordered :=
  ⟨_, fresh_starts_from_squash, by decide⟩

theorem squash_recorded :
    ∃ h, migrationHistory entryChecks [entryFile, labelFile] entryLock
      [⟨squashFile.name, checksumOf entryChecks squashFile⟩] none [squashFile] = .ok h ∧ h.pending = [] :=
  (migrationHistory_resumes fresh_starts_from_squash).2.1 squashFile [] rfl _ (List.Perm.refl _)

end Norbital.Store

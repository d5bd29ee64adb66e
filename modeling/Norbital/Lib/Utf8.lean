import Mathlib.Data.List.Basic
import Norbital.Lib.CodeUnits
import Norbital.Lib.Scan

/-!
# UTF-8

The bytes a text is encoded to, a lone surrogate as the replacement character, and the
longest part of it that whole characters of at most so many bytes make; and the text that
bytes are decoded to.
-/

namespace JsString

/-- A code unit that is no half of a pair. -/
def single (u : CodeUnit) : ℕ := if isHigh u || isLow u then 0xFFFD else u.toNat

/-- The characters of a text. -/
def scalars : JsString → List ℕ
  | [] => []
  | [u] => [single u]
  | u :: v :: rest =>
    if isHigh u && isLow v then (0x10000 + (u.toNat - 0xD800) * 0x400 + (v.toNat - 0xDC00)) :: scalars rest
    else single u :: scalars (v :: rest)

/-- The bytes of a character. -/
def encodeScalar (n : ℕ) : List UInt8 :=
  if n < 0x80 then [n.toUInt8]
  else if n < 0x800 then [(0xC0 + n / 0x40).toUInt8, (0x80 + n % 0x40).toUInt8]
  else if n < 0x10000 then
    [(0xE0 + n / 0x1000).toUInt8, (0x80 + n / 0x40 % 0x40).toUInt8, (0x80 + n % 0x40).toUInt8]
  else
    [(0xF0 + n / 0x40000).toUInt8, (0x80 + n / 0x1000 % 0x40).toUInt8, (0x80 + n / 0x40 % 0x40).toUInt8,
      (0x80 + n % 0x40).toUInt8]

def utf8 (s : JsString) : List UInt8 := s.scalars.flatMap encodeScalar

/-- Whole characters of at most `limit` bytes. -/
def clipScalars (limit : ℕ) : List ℕ → List UInt8
  | [] => []
  | n :: rest =>
    if (encodeScalar n).length ≤ limit then encodeScalar n ++ clipScalars (limit - (encodeScalar n).length) rest else []

def clip (limit : ℕ) (s : JsString) : List UInt8 := clipScalars limit s.scalars

theorem clipScalars_eq {limit : ℕ} {ns : List ℕ} (h : (ns.flatMap encodeScalar).length ≤ limit) :
    clipScalars limit ns = ns.flatMap encodeScalar := by
  induction ns generalizing limit with
  | nil => rfl
  | cons n rest ih =>
    rw [List.flatMap_cons, List.length_append] at h
    rw [clipScalars, if_pos (by omega), List.flatMap_cons, ih (by omega)]

theorem clip_eq_utf8 {limit : ℕ} {s : JsString} (h : s.utf8.length ≤ limit) : s.clip limit = s.utf8 :=
  clipScalars_eq h

/-- Two texts encode one after the other when the second does not start inside a pair. -/
theorem scalars_append {s : JsString} {v : CodeUnit} {t : JsString} (hv : isLow v = false) :
    scalars (s ++ v :: t) = scalars s ++ scalars (v :: t) := by
  induction s using scalars.induct with
  | case1 => rfl
  | case2 u => simp [scalars, hv]
  | case3 u w rest hpair ih => simpa [scalars, hpair] using ih
  | case4 u w rest hpair ih => simpa [scalars, hpair] using ih

theorem scalars_cons {u : CodeUnit} {t : JsString} (hu : isHigh u = false) : scalars (u :: t) = single u :: scalars t := by
  cases t with
  | nil => rfl
  | cons v t => rw [scalars, if_neg (by simp [hu])]

theorem utf8_append {s : JsString} {v : CodeUnit} {t : JsString} (hv : isLow v = false) :
    utf8 (s ++ v :: t) = utf8 s ++ utf8 (v :: t) := by
  rw [utf8, scalars_append hv, List.flatMap_append, utf8, utf8]

def Ascii (s : JsString) : Prop := ∀ u ∈ s, u < 0x80

theorem Ascii.append {s t : JsString} (hs : s.Ascii) (ht : t.Ascii) : Ascii (s ++ t) :=
  List.forall_mem_append.2 ⟨hs, ht⟩

theorem Ascii.surrogate {u : CodeUnit} (hu : u < 0x80) : isHigh u = false ∧ isLow u = false := by
  have hu' : u.toNat < 0x80 := hu
  have hhigh : (0xD800 : CodeUnit).toNat = 0xD800 := rfl
  have hlow : (0xDC00 : CodeUnit).toNat = 0xDC00 := rfl
  simp only [isHigh, isLow, Bool.and_eq_false_iff, decide_eq_false_iff_not, UInt16.le_iff_toNat_le, hhigh, hlow]
  omega

theorem Ascii.scalars {s : JsString} (h : s.Ascii) : s.scalars = s.map UInt16.toNat := by
  induction s using scalars.induct with
  | case1 => rfl
  | case2 u => simp [JsString.scalars, single, surrogate (h u (by simp))]
  | case3 u v rest hpair ih => simp [surrogate (h u (by simp))] at hpair
  | case4 u v rest hpair ih =>
    rw [JsString.scalars, if_neg hpair, ih fun w hw => h w (List.mem_cons_of_mem u hw)]
    simp [single, surrogate (h u (by simp))]

/-- An ASCII text encodes unit by unit. -/
theorem Ascii.utf8 {s : JsString} (h : s.Ascii) : s.utf8 = s.map fun u => u.toNat.toUInt8 := by
  rw [JsString.utf8, h.scalars, List.flatMap_map, List.map_eq_flatMap]
  refine List.flatMap_congr fun u hu => ?_
  have hu' : u.toNat < 0x80 := h u hu
  rw [encodeScalar, if_pos hu']

theorem Ascii.utf8_append {s t : JsString} (h : s.Ascii) : JsString.utf8 (s ++ t) = s.utf8 ++ t.utf8 := by
  have hscalars : JsString.scalars (s ++ t) = s.scalars ++ t.scalars := by
    induction s with
    | nil => rfl
    | cons u s ih =>
      have hu := (surrogate (h u List.mem_cons_self)).1
      rw [List.cons_append, scalars_cons hu, scalars_cons hu, ih fun w hw => h w (List.mem_cons_of_mem u hw)]
      rfl
  rw [JsString.utf8, hscalars, List.flatMap_append, JsString.utf8, JsString.utf8]

theorem Ascii.utf8_length {s : JsString} (h : s.Ascii) : s.utf8.length = s.length := by
  rw [h.utf8, List.length_map]

theorem Ascii.utf8_inj {s t : JsString} (hs : s.Ascii) (ht : t.Ascii) (h : s.utf8 = t.utf8) : s = t := by
  rw [hs.utf8, ht.utf8] at h
  induction s generalizing t with
  | nil => exact (List.map_eq_nil_iff.1 h.symm).symm
  | cons u s ih =>
    cases t with
    | nil => cases h
    | cons v t =>
      rw [List.map_cons, List.map_cons, List.cons.injEq] at h
      have hu : u.toNat < 0x80 := hs u List.mem_cons_self
      have hv : v.toNat < 0x80 := ht v List.mem_cons_self
      have huv : u.toNat = v.toNat := by
        have := congrArg UInt8.toNat h.1
        simp only [Nat.toUInt8, UInt8.toNat_ofNat'] at this
        omega
      rw [UInt16.toNat_inj.1 huv, ih (fun w hw => hs w (List.mem_cons_of_mem u hw))
        (fun w hw => ht w (List.mem_cons_of_mem v hw)) h.2]

/-- Six bits of a byte that follows another one. -/
def continuation (low high : ℕ) : List UInt8 → Option (ℕ × List UInt8)
  | [] => none
  | b :: rest => if low ≤ b.toNat ∧ b.toNat ≤ high then some (b.toNat - 0x80, rest) else none

/-- The first character of bytes: none of more bytes than it needs, no half of a pair. -/
def decodeScalar : List UInt8 → Option (ℕ × List UInt8)
  | [] => none
  | b :: rest =>
    let a := b.toNat
    if a < 0x80 then some (a, rest)
    else if 0xC2 ≤ a ∧ a ≤ 0xDF then
      (continuation 0x80 0xBF rest).map fun (x, rest) => ((a - 0xC0) * 0x40 + x, rest)
    else if 0xE0 ≤ a ∧ a ≤ 0xEF then
      (continuation (if a = 0xE0 then 0xA0 else 0x80) (if a = 0xED then 0x9F else 0xBF) rest).bind fun (x, rest) =>
        (continuation 0x80 0xBF rest).map fun (y, rest) => (((a - 0xE0) * 0x40 + x) * 0x40 + y, rest)
    else if 0xF0 ≤ a ∧ a ≤ 0xF4 then
      (continuation (if a = 0xF0 then 0x90 else 0x80) (if a = 0xF4 then 0x8F else 0xBF) rest).bind fun (x, rest) =>
        (continuation 0x80 0xBF rest).bind fun (y, rest) =>
          (continuation 0x80 0xBF rest).map fun (z, rest) => ((((a - 0xF0) * 0x40 + x) * 0x40 + y) * 0x40 + z, rest)
    else none

def decodeStep (_ : Unit) (bytes : List UInt8) : Option (ℕ × Unit × List UInt8) :=
  (decodeScalar bytes).map fun (n, rest) => (n, (), rest)

/-- The units of a character. -/
def units (n : ℕ) : JsString :=
  if n < 0x10000 then [n.toUInt16]
  else [(0xD800 + (n - 0x10000) / 0x400).toUInt16, (0xDC00 + (n - 0x10000) % 0x400).toUInt16]

/-- `new TextDecoder('utf-8', { fatal: true }).decode`: the byte order mark in front is dropped. -/
def decodeUtf8 (bytes : List UInt8) : Option JsString :=
  (Scan.run decodeStep bytes.length () bytes).map fun scalars =>
    (if scalars.head? = some 0xFEFF then scalars.tail else scalars).flatMap units

/-- A character that is no half of a pair. -/
def IsScalar (n : ℕ) : Prop := n < 0xD800 ∨ 0xE000 ≤ n ∧ n < 0x110000

theorem continuation_cons {low high n : ℕ} (hn : n < 0x40) (hlow : low ≤ 0x80 + n) (hhigh : 0x80 + n ≤ high)
    (rest : List UInt8) : continuation low high ((0x80 + n).toUInt8 :: rest) = some (n, rest) := by
  have hbyte : (0x80 + n).toUInt8.toNat = 0x80 + n := by
    rw [Nat.toUInt8, UInt8.toNat_ofNat']
    omega
  rw [continuation, hbyte, if_pos ⟨hlow, hhigh⟩, Nat.add_sub_cancel_left]

theorem length_continuation {low high n : ℕ} {bytes rest : List UInt8} (h : continuation low high bytes = some (n, rest)) :
    rest.length < bytes.length := by
  cases bytes with
  | nil => cases h
  | cons b bytes =>
    rw [continuation] at h
    split_ifs at h
    obtain ⟨-, rfl⟩ := Prod.mk.inj (Option.some.inj h)
    exact Nat.lt_succ_self _

theorem decodeScalar_encodeScalar {n : ℕ} (h : IsScalar n) (rest : List UInt8) :
    decodeScalar (encodeScalar n ++ rest) = some (n, rest) := by
  have hbyte : ∀ m, m < 0x100 → m.toUInt8.toNat = m := by
    intro m hm
    rw [Nat.toUInt8, UInt8.toNat_ofNat']
    omega
  rw [encodeScalar]
  split_ifs with h₁ h₂ h₃
  · simp only [List.cons_append, List.nil_append, decodeScalar, hbyte n (by omega)]
    rw [if_pos h₁]
  · simp only [List.cons_append, List.nil_append, decodeScalar, hbyte (0xC0 + n / 0x40) (by omega)]
    rw [if_neg (by omega), if_pos (by omega), continuation_cons (by omega) (by omega) (by omega)]
    simp only [Option.map_some, Option.some.injEq, Prod.mk.injEq, and_true]
    omega
  · have hscalar : n < 0xD800 ∨ 0xE000 ≤ n := h.imp_right And.left
    simp only [List.cons_append, List.nil_append, decodeScalar, hbyte (0xE0 + n / 0x1000) (by omega)]
    rw [if_neg (by omega), if_neg (by omega), if_pos (by omega),
      continuation_cons (by omega) (by split_ifs <;> omega) (by split_ifs <;> omega)]
    simp only [Option.bind_some]
    rw [continuation_cons (by omega) (by omega) (by omega)]
    simp only [Option.map_some, Option.some.injEq, Prod.mk.injEq, and_true]
    omega
  · have hlt : n < 0x110000 := h.elim (fun h => by omega) And.right
    simp only [List.cons_append, List.nil_append, decodeScalar, hbyte (0xF0 + n / 0x40000) (by omega)]
    rw [if_neg (by omega), if_neg (by omega), if_neg (by omega), if_pos (by omega),
      continuation_cons (by omega) (by split_ifs <;> omega) (by split_ifs <;> omega)]
    simp only [Option.bind_some]
    rw [continuation_cons (by omega) (by omega) (by omega)]
    simp only [Option.bind_some]
    rw [continuation_cons (by omega) (by omega) (by omega)]
    simp only [Option.map_some, Option.some.injEq, Prod.mk.injEq, and_true]
    omega

theorem decodeStep_shrinks : Scan.Shrinks decodeStep := by
  intro s bytes n s' rest h
  obtain ⟨⟨m, rest'⟩, hdecode, heq⟩ := Option.map_eq_some_iff.mp h
  simp only [Prod.mk.injEq] at heq
  obtain ⟨-, -, rfl⟩ := heq
  cases bytes with
  | nil => cases hdecode
  | cons b bytes =>
    rw [List.length_cons]
    simp only [decodeScalar] at hdecode
    split_ifs at hdecode
    · obtain ⟨-, rfl⟩ := Prod.mk.inj (Option.some.inj hdecode)
      exact Nat.lt_succ_self _
    · obtain ⟨⟨x, rest₁⟩, h₁, heq⟩ := Option.map_eq_some_iff.mp hdecode
      obtain ⟨-, hrest⟩ := Prod.mk.inj heq
      have := length_continuation h₁
      rw [← hrest]
      dsimp only
      omega
    all_goals
      obtain ⟨⟨x, rest₁⟩, h₁, hdecode⟩ := Option.bind_eq_some_iff.mp hdecode
      have hfirst := length_continuation h₁
    iterate 4
      · obtain ⟨⟨y, rest₂⟩, h₂, heq⟩ := Option.map_eq_some_iff.mp hdecode
        obtain ⟨-, hrest⟩ := Prod.mk.inj heq
        have hsecond := length_continuation h₂
        rw [← hrest]
        dsimp only at hsecond ⊢
        omega
    all_goals
      obtain ⟨⟨y, rest₂⟩, h₂, hdecode⟩ := Option.bind_eq_some_iff.mp hdecode
      obtain ⟨⟨z, rest₃⟩, h₃, heq⟩ := Option.map_eq_some_iff.mp hdecode
      obtain ⟨-, hrest⟩ := Prod.mk.inj heq
      have hsecond := length_continuation h₂
      have hthird := length_continuation h₃
      rw [← hrest]
      dsimp only at hsecond hthird ⊢
      omega

/-- Characters one after the other are read one after the other. -/
theorem reads_encodeScalars {ns : List ℕ} (h : ∀ n ∈ ns, IsScalar n) :
    Scan.Reads decodeStep () (ns.flatMap encodeScalar) ns := by
  induction ns with
  | nil => exact .nil ()
  | cons n ns ih =>
    obtain ⟨hn, hns⟩ := List.forall_mem_cons.mp h
    have hstep : decodeStep () (encodeScalar n ++ ns.flatMap encodeScalar) = some (n, (), ns.flatMap encodeScalar) := by
      rw [decodeStep, decodeScalar_encodeScalar hn]
      rfl
    obtain ⟨b, bytes, hbytes⟩ : ∃ b bytes, encodeScalar n = b :: bytes := by
      rw [encodeScalar]
      split_ifs <;> exact ⟨_, _, rfl⟩
    rw [List.flatMap_cons]
    rw [hbytes] at hstep ⊢
    exact .cons hstep (ih hns)

/-- No half of a pair stands alone. -/
def WellFormed : JsString → Prop
  | [] => True
  | [u] => isHigh u = false ∧ isLow u = false
  | u :: v :: rest =>
    if isHigh u && isLow v then WellFormed rest else (isHigh u = false ∧ isLow u = false) ∧ WellFormed (v :: rest)

theorem wellFormed_of_forall {s : JsString} (h : ∀ u ∈ s, isHigh u = false ∧ isLow u = false) : s.WellFormed := by
  induction s using WellFormed.induct with
  | case1 => exact trivial
  | case2 u => exact h u List.mem_cons_self
  | case3 u v rest hpair ih =>
    rw [(h u List.mem_cons_self).1] at hpair
    cases hpair
  | case4 u v rest hpair ih =>
    obtain ⟨hu, hrest⟩ := List.forall_mem_cons.mp h
    rw [WellFormed, if_neg hpair]
    exact ⟨hu, ih hrest⟩

theorem isHigh_iff {u : CodeUnit} : isHigh u = true ↔ 0xD800 ≤ u.toNat ∧ u.toNat ≤ 0xDBFF := by
  rw [isHigh, Bool.and_eq_true_iff, decide_eq_true_eq, decide_eq_true_eq]
  rfl

theorem isLow_iff {u : CodeUnit} : isLow u = true ↔ 0xDC00 ≤ u.toNat ∧ u.toNat ≤ 0xDFFF := by
  rw [isLow, Bool.and_eq_true_iff, decide_eq_true_eq, decide_eq_true_eq]
  rfl

theorem units_single {u : CodeUnit} (h : isHigh u = false ∧ isLow u = false) : IsScalar (single u) ∧ units (single u) = [u] := by
  have hhigh : ¬(0xD800 ≤ u.toNat ∧ u.toNat ≤ 0xDBFF) := fun hu => Bool.false_ne_true (h.1.symm.trans (isHigh_iff.mpr hu))
  have hlow : ¬(0xDC00 ≤ u.toNat ∧ u.toNat ≤ 0xDFFF) := fun hu => Bool.false_ne_true (h.2.symm.trans (isLow_iff.mpr hu))
  have hlt := u.toNat_lt
  rw [single, h.1, h.2, Bool.or_false, if_neg Bool.false_ne_true, units, if_pos (by omega)]
  refine ⟨?_, by simp⟩
  rw [IsScalar]
  omega

theorem units_pair {u v : CodeUnit} (h : (isHigh u && isLow v) = true) :
    IsScalar (0x10000 + (u.toNat - 0xD800) * 0x400 + (v.toNat - 0xDC00)) ∧
      units (0x10000 + (u.toNat - 0xD800) * 0x400 + (v.toNat - 0xDC00)) = [u, v] := by
  obtain ⟨hhigh, hlow⟩ := Bool.and_eq_true_iff.mp h
  have hu := isHigh_iff.mp hhigh
  have hv := isLow_iff.mp hlow
  have hfirst : 0xD800 + (0x10000 + (u.toNat - 0xD800) * 0x400 + (v.toNat - 0xDC00) - 0x10000) / 0x400 = u.toNat := by omega
  have hsecond : 0xDC00 + (0x10000 + (u.toNat - 0xD800) * 0x400 + (v.toNat - 0xDC00) - 0x10000) % 0x400 = v.toNat := by omega
  rw [units, if_neg (by omega), hfirst, hsecond]
  refine ⟨?_, by simp⟩
  rw [IsScalar]
  omega

/-- The byte order mark is one unit. -/
theorem head_units {n : ℕ} (h : IsScalar n) : (units n).head? = some 0xFEFF ↔ n = 0xFEFF := by
  have hvalue : ∀ m, m < 0x10000 → (m.toUInt16 = 0xFEFF ↔ m = 0xFEFF) := by
    intro m hm
    rw [← UInt16.toNat_inj, Nat.toUInt16, UInt16.toNat_ofNat', Nat.mod_eq_of_lt hm]
    rfl
  rw [IsScalar] at h
  rw [units]
  split_ifs with hsmall
  · rw [List.head?_cons, Option.some.injEq, hvalue n hsmall]
  · rw [List.head?_cons, Option.some.injEq, hvalue _ (by omega)]
    omega

theorem WellFormed.scalars {s : JsString} (h : s.WellFormed) :
    (∀ n ∈ s.scalars, IsScalar n) ∧ s.scalars.flatMap units = s := by
  induction s using scalars.induct with
  | case1 => exact ⟨by simp [JsString.scalars], rfl⟩
  | case2 u =>
    obtain ⟨hscalar, hunits⟩ := units_single h
    exact ⟨by simpa [JsString.scalars] using hscalar, by simpa [JsString.scalars] using hunits⟩
  | case3 u v rest hpair ih =>
    rw [WellFormed, if_pos hpair] at h
    obtain ⟨hscalar, hunits⟩ := units_pair hpair
    obtain ⟨hscalars, hrest⟩ := ih h
    rw [JsString.scalars, if_pos hpair]
    exact ⟨List.forall_mem_cons.mpr ⟨hscalar, hscalars⟩, by rw [List.flatMap_cons, hunits, hrest]; rfl⟩
  | case4 u v rest hpair ih =>
    rw [WellFormed, if_neg hpair] at h
    obtain ⟨hscalar, hunits⟩ := units_single h.1
    obtain ⟨hscalars, hrest⟩ := ih h.2
    rw [JsString.scalars, if_neg hpair]
    exact ⟨List.forall_mem_cons.mpr ⟨hscalar, hscalars⟩, by rw [List.flatMap_cons, hunits, hrest]; rfl⟩

/-- A text is decoded from its bytes, without a byte order mark in front. -/
theorem decodeUtf8_utf8 {s : JsString} (h : s.WellFormed) :
    decodeUtf8 s.utf8 = some (if s.head? = some 0xFEFF then s.tail else s) := by
  obtain ⟨hscalars, hunits⟩ := h.scalars
  have hrun := (Scan.run_eq_some_iff decodeStep_shrinks (Nat.le_refl _)).mpr (reads_encodeScalars hscalars)
  rw [decodeUtf8, utf8, hrun, Option.map_some]
  generalize s.scalars = ns at hscalars hunits
  cases ns with
  | nil =>
    obtain rfl : [] = s := hunits
    rfl
  | cons n ns =>
    have hmark := head_units (hscalars n List.mem_cons_self)
    rw [List.flatMap_cons] at hunits
    have hhead : s.head? = (units n).head? := by
      rw [← hunits, List.head?_append_of_ne_nil]
      rw [units]
      split_ifs <;> simp
    rw [hhead, List.head?_cons]
    by_cases hn : n = 0xFEFF
    · rw [if_pos (congrArg some hn), if_pos (hmark.mpr hn), ← hunits, hn]
      rfl
    · rw [if_neg fun h => hn (Option.some.inj h), if_neg (mt hmark.mp hn), List.flatMap_cons, hunits]

end JsString
